import Pondra.Base.Counters
import Pondra.Base.Words

set_option autoImplicit false

/- A sequence's options worked out, and a block of its values taken by the sequencer. -/

namespace Pondra.Sequences

open Counters Words

inductive Opt where
  | as_ (name : String)
  | increment (n : Int64)
  | min (n : Option Int64)
  | max (n : Option Int64)
  | start (n : Int64)
  | cache (n : Int64)
  | cycle (on : Bool)
deriving DecidableEq

/-- The type a sequence counts in. -/
inductive AsType where
  | bigint
  | integer
  | smallint
deriving DecidableEq

namespace AsType

def text : AsType → String
  | bigint => "BIGINT"
  | integer => "INTEGER"
  | smallint => "SMALLINT"

def lo : AsType → Int64
  | bigint => Int64.minValue
  | integer => Int32.minValue.toInt64
  | smallint => Int16.minValue.toInt64

def hi : AsType → Int64
  | bigint => Int64.maxValue
  | integer => Int32.maxValue.toInt64
  | smallint => Int16.maxValue.toInt64

end AsType

/-- What a sequence's options come to, as they are checked. -/
structure Shape where
  start : Int64
  increment : Int64
  min : Int64
  max : Int64
  cache : Int64
  cycle : Bool
  asType : AsType
  moves : increment ≠ 0
  typed : asType.lo ≤ min ∧ max ≤ asType.hi
  ordered : min < max
  inside : min ≤ start ∧ start ≤ max
  cached : 1 ≤ cache

/-- The last option of a kind. -/
def lastOf {α : Type} (kind : Opt → Option α) (declared : List Opt) : Option α :=
  declared.reverse.findSome? kind

def asType (declared : List Opt) : Except String AsType :=
  match lastOf (fun o => match o with | .as_ t => some t.toLower | _ => none) declared with
  | none => .ok .bigint
  | some t =>
    if t = "bigint" ∨ t = "int8" ∨ t = "long" then .ok .bigint
    else if t = "integer" ∨ t = "int" ∨ t = "int4" then .ok .integer
    else if t = "smallint" ∨ t = "int2" ∨ t = "short" then .ok .smallint
    else .error s!"a sequence counts in smallint, integer or bigint, not {t}"

/-- The options worked out, each kind's last one or its default, and checked. -/
def shape (declared : List Opt) : Except String Shape :=
  match asType declared with
  | .error e => .error e
  | .ok asType =>
    let increment := (lastOf (fun o => match o with | .increment n => some n | _ => none) declared).getD 1
    let min := (lastOf (fun o => match o with | .min n => some n | _ => none) declared).join.getD
      (if increment > 0 then 1 else asType.lo)
    let max := (lastOf (fun o => match o with | .max n => some n | _ => none) declared).join.getD
      (if increment > 0 then asType.hi else -1)
    let start := (lastOf (fun o => match o with | .start n => some n | _ => none) declared).getD
      (if increment > 0 then min else max)
    let cache := (lastOf (fun o => match o with | .cache n => some n | _ => none) declared).getD 1
    let cycle := (lastOf (fun o => match o with | .cycle on => some on | _ => none) declared).getD false
    if moves : increment = 0 then .error "INCREMENT must not be zero"
    else if typed : asType.lo ≤ min ∧ max ≤ asType.hi then
      if ordered : min < max then
        if inside : min ≤ start ∧ start ≤ max then
          if cached : 1 ≤ cache then
            .ok { start, increment, min, max, cache, cycle, asType, moves, typed, ordered, inside, cached }
          else .error s!"CACHE ({cache}) must be greater than zero"
        else .error s!"START value ({start}) must be between MINVALUE ({min}) and MAXVALUE ({max})"
      else .error s!"MINVALUE ({min}) must be less than MAXVALUE ({max})"
    else .error s!"MINVALUE ({min}) and MAXVALUE ({max}) must be within {asType.text}'s range"

/-- A sequence as the catalog keeps it: the next value is `last` until it has been called, the one
after it from then on. -/
structure Sequence where
  declared : List Opt
  last : Int64
  called : Bool
  version : Nat
  owned : Option String
deriving DecidableEq

/-- The value a block starts at. -/
def firstOf (sh : Shape) (s : Sequence) (name : String) : Except String Int64 :=
  let next := if s.called then checkedAdd s.last sh.increment else some s.last
  match next.filter fun v => decide (sh.min ≤ v ∧ v ≤ sh.max) with
  | some v => .ok v
  | none =>
    if sh.cycle then .ok (if sh.increment > 0 then sh.min else sh.max)
    else if sh.increment > 0 then
      .error s!"nextval: reached maximum value of sequence \"{name}\" ({sh.max})"
    else .error s!"nextval: reached minimum value of sequence \"{name}\" ({sh.min})"

/-- How many values there are from a value on, in words of 128 bits. -/
def roomOf (sh : Shape) (first : Int64) : Int :=
  (if sh.increment > 0 then (sh.max.toInt - first.toInt).tdiv sh.increment.toInt
    else (first.toInt - sh.min.toInt).tdiv (-sh.increment.toInt)) + 1

/-- Up to `count` values of the sequence: the first, how many, and the step. -/
def take (s : Sequence) (name : String) (count : UInt64) :
    Except String (Int64 × UInt64 × Int64) × Sequence :=
  match shape s.declared with
  | .error e => (.error e, s)
  | .ok sh =>
    match firstOf sh s name with
    | .error e => (.error e, s)
    | .ok first =>
      let n := Min.min (Max.max (count.toNat : Int) 1) (roomOf sh first)
      let last := Int64.ofInt (first.toInt + (n - 1) * sh.increment.toInt)
      (.ok (first, UInt64.ofInt n, sh.increment), { s with last, called := true })

/-! ### The counter a shape stands for -/

theorem Shape.up (sh : Shape) : sh.increment > 0 ↔ 0 < sh.increment.toInt := by
  rw [gt_iff_lt, Int64.lt_iff_toInt_lt, Int64.toInt_zero]

def Shape.counter (sh : Shape) : Counter where
  step := sh.increment.toInt
  low := sh.min.toInt
  high := sh.max.toInt
  wraps := sh.cycle
  moves := by
    intro zero
    apply sh.moves
    rw [← Int64.toInt_inj, zero, Int64.toInt_zero]
  room := Int.le_of_lt (Int64.lt_iff_toInt_lt.mp sh.ordered)

def Sequence.place (s : Sequence) : Place := ⟨s.last.toInt, s.called⟩

section taken

variable (sh : Shape)

theorem Shape.within_iff (v : Int64) : sh.counter.Within v.toInt ↔ sh.min ≤ v ∧ v ≤ sh.max := by
  rw [Int64.le_iff_toInt_le, Int64.le_iff_toInt_le]
  rfl

theorem Shape.fits {v : Int} (inside : sh.counter.Within v) : Fits v :=
  Fits.between (fits_toInt sh.min) (fits_toInt sh.max) inside.1 inside.2

theorem Shape.turn_eq :
    sh.counter.turn = (if sh.increment > 0 then sh.min else sh.max).toInt := by
  unfold Counter.turn
  by_cases up : sh.increment > 0
  · have positive : 0 < sh.counter.step := sh.up.mp up
    rw [if_pos up, if_pos positive]
    rfl
  · have negative : ¬ 0 < sh.counter.step := fun no => up (sh.up.mpr no)
    rw [if_neg up, if_neg negative]
    rfl

/-- The step the code takes and the one over all whole numbers: a sum that doesn't fit is out of
bounds either way. -/
theorem wanted_within (s : Sequence) :
    ((if s.called then checkedAdd s.last sh.increment else some s.last).filter fun v =>
        decide (sh.min ≤ v ∧ v ≤ sh.max)) =
      if sh.counter.Within (sh.counter.wanted s.place) then
        some (Int64.ofInt (sh.counter.wanted s.place)) else none := by
  cases called : s.called with
  | false =>
    have same : sh.counter.wanted s.place = s.last.toInt := by
      simp [Counter.wanted, Sequence.place, called]
    rw [same, Int64.ofInt_toInt, if_neg (by decide)]
    simp only [sh.within_iff, Option.filter_some, decide_eq_true_eq]
  | true =>
    have sum : sh.counter.wanted s.place = s.last.toInt + sh.increment.toInt := by
      simp only [Counter.wanted, Sequence.place, called, if_true]
      rfl
    rw [sum, if_pos rfl]
    cases added : checkedAdd s.last sh.increment with
    | none =>
      have no := checkedAdd_eq_none.mp added
      rw [if_neg fun inside => no (sh.fits inside), Option.filter_none]
    | some v =>
      have exact_ := checkedAdd_eq_some.mp added
      rw [← exact_, Int64.ofInt_toInt]
      simp only [sh.within_iff, Option.filter_some, decide_eq_true_eq]

theorem firstOf_ok {s : Sequence} {name : String} {first : Int64}
    (found : firstOf sh s name = .ok first) :
    sh.counter.draw s.place = some (first.toInt, ⟨first.toInt, true⟩) := by
  simp only [firstOf, wanted_within] at found
  unfold Counter.draw
  by_cases inside : sh.counter.Within (sh.counter.wanted s.place)
  · rw [if_pos inside] at found
    cases found
    rw [if_pos inside, (sh.fits inside).toInt_ofInt]
  · rw [if_neg inside] at found
    rw [if_neg inside]
    cases cycle : sh.cycle with
    | false => by_cases up : sh.increment > 0 <;> simp [cycle, up] at found
    | true =>
      have turned : (if sh.increment > 0 then sh.min else sh.max) = first := by
        simpa [cycle] using found
      rw [← turned, ← sh.turn_eq, show sh.counter.wraps = true from cycle, if_pos rfl]

theorem firstOf_error {s : Sequence} {name why : String} (refused : firstOf sh s name = .error why) :
    sh.counter.draw s.place = none := by
  simp only [firstOf, wanted_within] at refused
  by_cases inside : sh.counter.Within (sh.counter.wanted s.place)
  · rw [if_pos inside] at refused
    cases refused
  · rw [if_neg inside] at refused
    apply (sh.counter.draw_eq_none s.place).mpr
    refine ⟨inside, ?_⟩
    show sh.cycle = false
    cases cycle : sh.cycle with
    | false => rfl
    | true => simp [cycle] at refused

/-- As many values as there is room for stay in bounds, and one more doesn't. -/
theorem roomOf_iff {first : Int64} (start : sh.counter.Within first.toInt) (n : Nat) :
    (n : Int) + 1 ≤ roomOf sh first ↔ sh.counter.Within (first.toInt + n * sh.increment.toInt) := by
  have low : sh.min.toInt ≤ first.toInt := start.1
  have high : first.toInt ≤ sh.max.toInt := start.2
  have moves : sh.increment.toInt ≠ 0 := sh.counter.moves
  have inside : sh.counter.Within (first.toInt + n * sh.increment.toInt) ↔
      sh.min.toInt ≤ first.toInt + n * sh.increment.toInt ∧
        first.toInt + n * sh.increment.toInt ≤ sh.max.toInt := Iff.rfl
  rw [inside]
  unfold roomOf
  by_cases up : sh.increment > 0
  · have positive := sh.up.mp up
    have grown : 0 ≤ (n : Int) * sh.increment.toInt := Int.mul_nonneg (by omega) (by omega)
    rw [if_pos up, Int.tdiv_eq_ediv_of_nonneg (by omega), Int.add_le_add_iff_right,
      Int.le_ediv_iff_mul_le positive]
    omega
  · have negative : 0 < -sh.increment.toInt := by
      have down : ¬ 0 < sh.increment.toInt := fun no => up (sh.up.mpr no)
      omega
    have shrunk : 0 ≤ (n : Int) * -sh.increment.toInt := Int.mul_nonneg (by omega) (by omega)
    rw [if_neg up, Int.tdiv_eq_ediv_of_nonneg (by omega), Int.add_le_add_iff_right,
      Int.le_ediv_iff_mul_le negative]
    rw [Int.mul_neg] at shrunk ⊢
    omega

end taken

/-- A block that is taken: at least one value, no more than asked for, the ones that as many
single draws give, and the sequence as those leave it. -/
structure Taken (sh : Shape) (s : Sequence) (count : UInt64) (first : Int64) (n : UInt64)
    (step : Int64) (left : Sequence) : Prop where
  some_ : 1 ≤ n.toNat
  asked : n.toNat ≤ Max.max count.toNat 1
  step : step = sh.increment
  draws : sh.counter.draws n.toNat s.place =
    some (sh.counter.stretch first.toInt n.toNat, left.place)
  within : ∀ v ∈ sh.counter.stretch first.toInt n.toNat, sh.counter.Within v
  kept : left = { s with last := left.last, called := true }
  last : left.last.toInt = first.toInt + (n.toNat - 1 : Int) * sh.increment.toInt

theorem take_refused {s : Sequence} {sh : Shape} (shaped : shape s.declared = .ok sh) (name : String)
    (count : UInt64) (refused : sh.counter.draw s.place = none) :
    ∃ why, take s name count = (.error why, s) := by
  cases found : firstOf sh s name with
  | error why => exact ⟨why, by simp only [take, shaped, found]⟩
  | ok first =>
    rw [firstOf_ok sh found] at refused
    cases refused

theorem take_taken {s : Sequence} {sh : Shape} (shaped : shape s.declared = .ok sh) (name : String)
    (count : UInt64) {next : Int × Place} (drawn : sh.counter.draw s.place = some next) :
    ∃ first n step left, take s name count = (.ok (first, n, step), left) ∧
      Taken sh s count first n step left := by
  cases found : firstOf sh s name with
  | error why =>
    rw [firstOf_error sh found] at drawn
    cases drawn
  | ok first =>
    have draws := firstOf_ok sh found
    have start := (sh.counter.draw_eq_some draws).1
    have more : (1 : Int) ≤ roomOf sh first := by
      have := (roomOf_iff sh start 0).mpr (by simpa using start)
      simpa using this
    have small := count.toNat_lt
    -- the block's length, as one more than the steps to its last value
    obtain ⟨m, size⟩ : ∃ m : Nat, Min.min (Max.max (count.toNat : Int) 1) (roomOf sh first) = m + 1 :=
      ⟨(Min.min (Max.max (count.toNat : Int) 1) (roomOf sh first) - 1).toNat, by omega⟩
    have stop := (roomOf_iff sh start m).mp (by omega)
    have word : (UInt64.ofInt (m + 1 : Int)).toNat = m + 1 := by
      have below : m + 1 < 2 ^ 64 := by omega
      have cast : ((m + 1 : Int) % 2 ^ 64).toNat = m + 1 := by omega
      rw [UInt64.ofInt, cast, UInt64.toNat_ofNat_of_lt' below]
    have exact_ : (Int64.ofInt (first.toInt + m * sh.increment.toInt)).toInt =
        first.toInt + m * sh.increment.toInt := (sh.fits stop).toInt_ofInt
    refine ⟨first, UInt64.ofInt (m + 1), sh.increment,
      { s with last := Int64.ofInt (first.toInt + m * sh.increment.toInt), called := true }, ?_, ?_⟩
    · simp only [take, shaped, found, size, Int.add_sub_cancel]
    · exact {
        some_ := by omega
        asked := by omega
        step := rfl
        draws := by
          rw [word, sh.counter.draws_block m draws stop]
          simp only [Sequence.place, exact_]
          rfl
        within := by
          rw [word]
          exact sh.counter.stretch_within start stop
        kept := rfl
        last := by
          rw [word, exact_]
          push_cast
          rw [Int.add_sub_cancel] }

end Pondra.Sequences
