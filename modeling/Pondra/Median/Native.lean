import Mathlib.Algebra.GroupWithZero.Nat
import Mathlib.Algebra.Order.Ring.Int
import Mathlib.Data.Int.Order.Basic
import Mathlib.Data.List.Flatten
import Pondra.Base.Selection

set_option autoImplicit false

/-! ### The middle of values of a machine's integers -/

namespace Pondra.Median

open Selection

/-- A type's integers: of so many bits, signed or not. -/
structure Native where
  signed : Bool
  bits : Nat
  wide : 8 ≤ bits
  deriving DecidableEq

/-- The integer and decimal types a median is chunked for. -/
inductive DataType
  | Int8
  | Int16
  | Int32
  | Int64
  | UInt8
  | UInt16
  | UInt32
  | UInt64
  | Decimal32
  | Decimal64
  | Decimal128
  | Decimal256
  deriving DecidableEq

def DataType.native : DataType → Native
  | .Int8 => ⟨true, 8, by decide⟩
  | .Int16 => ⟨true, 16, by decide⟩
  | .Int32 => ⟨true, 32, by decide⟩
  | .Int64 => ⟨true, 64, by decide⟩
  | .UInt8 => ⟨false, 8, by decide⟩
  | .UInt16 => ⟨false, 16, by decide⟩
  | .UInt32 => ⟨false, 32, by decide⟩
  | .UInt64 => ⟨false, 64, by decide⟩
  | .Decimal32 => ⟨true, 32, by decide⟩
  | .Decimal64 => ⟨true, 64, by decide⟩
  | .Decimal128 => ⟨true, 128, by decide⟩
  | .Decimal256 => ⟨true, 256, by decide⟩

namespace Native

variable (t : Native)

def least : Int := if t.signed then -2 ^ (t.bits - 1) else 0

def most : Int := if t.signed then 2 ^ (t.bits - 1) - 1 else 2 ^ t.bits - 1

/-- An integer of the type. -/
def Holds (v : Int) : Prop := t.least ≤ v ∧ v ≤ t.most

instance decidableHolds (v : Int) : Decidable (t.Holds v) := inferInstanceAs (Decidable (_ ∧ _))

/-- What wraps round comes back into the type. -/
def wrap (v : Int) : Int := if t.signed then v.bmod (2 ^ t.bits) else v % 2 ^ t.bits

def addChecked (a b : Int) : Option Int := if t.Holds (a + b) then some (a + b) else none

def addWrapping (a b : Int) : Int := t.wrap (a + b)

def divWrapping (a b : Int) : Int := t.wrap (a.tdiv b)

def modWrapping (a b : Int) : Int := t.wrap (a.tmod b)

theorem wrap_holds {v : Int} (holds : t.Holds v) : t.wrap v = v := by
  obtain ⟨low, high⟩ := holds
  have wide := t.wide
  have split_ : (2 : Int) ^ t.bits = 2 ^ (t.bits - 1) * 2 := by
    rw [← pow_succ]
    congr 1
    omega
  unfold wrap
  unfold least at low
  unfold most at high
  split
  · rename_i signed
    rw [if_pos signed] at low high
    have cast : ((2 ^ t.bits : Nat) : Int) = 2 ^ t.bits := by norm_cast
    apply Int.bmod_eq_of_le
    · rw [cast]
      omega
    · rw [cast]
      omega
  · rename_i plain
    rw [if_neg plain] at low high
    exact Int.emod_eq_of_lt low (by omega)

theorem most_room : 2 ≤ t.most := by
  have wide := t.wide
  have four : (2 : Int) ^ 2 ≤ 2 ^ (t.bits - 1) := by
    apply pow_le_pow_right₀ (by decide)
    omega
  have whole : (2 : Int) ^ (t.bits - 1) ≤ 2 ^ t.bits := by
    apply pow_le_pow_right₀ (by decide)
    omega
  have is : (2 : Int) ^ 2 = 4 := rfl
  unfold most
  split <;> omega

theorem least_cases : t.least = 0 ∨ t.least = -t.most - 1 := by
  unfold least most
  split
  · right
    omega
  · exact .inl rfl

end Native

/-- The mean of two middle values; past overflow each is halved before they are added. -/
def mean (t : Native) (low high : Int) : Int :=
  match t.addChecked low high with
  | some sum => t.divWrapping sum 2
  | none =>
    t.addWrapping (t.addWrapping (t.divWrapping low 2) (t.divWrapping high 2))
      (t.divWrapping (t.addWrapping (t.modWrapping low 2) (t.modWrapping high 2)) 2)

theorem tdiv_up {v : Int} (up : 0 ≤ v) : v.tdiv 2 = v / 2 := Int.tdiv_eq_ediv_of_nonneg up

theorem tdiv_down {v : Int} (down : v ≤ 0) : v.tdiv 2 = -(-v / 2) := by
  have neg := Int.neg_tdiv (-v) 2
  rw [Int.neg_neg] at neg
  rw [neg, Int.tdiv_eq_ediv_of_nonneg (by omega)]

theorem tmod_two (v : Int) : v.tmod 2 = v - 2 * v.tdiv 2 := by
  have parts := Int.tmod_add_mul_tdiv v 2
  omega

/-- Half a value of the type, and what is left over, are of the type. -/
theorem half_holds (t : Native) {v : Int} (holds : t.Holds v) :
    t.divWrapping v 2 = v.tdiv 2 ∧ t.modWrapping v 2 = v - 2 * v.tdiv 2 := by
  obtain ⟨low, high⟩ := holds
  have room := t.most_room
  have bounds := t.least_cases
  unfold Native.divWrapping Native.modWrapping
  rw [tmod_two]
  rcases Int.le_total 0 v with up | down
  · rw [tdiv_up up]
    exact ⟨t.wrap_holds ⟨by omega, by omega⟩, t.wrap_holds ⟨by omega, by omega⟩⟩
  · rw [tdiv_down down]
    exact ⟨t.wrap_holds ⟨by omega, by omega⟩, t.wrap_holds ⟨by omega, by omega⟩⟩

/-- It is the exact mean, truncated toward zero. -/
theorem mean_eq (t : Native) {low high : Int} (first : t.Holds low) (second : t.Holds high) :
    mean t low high = (low + high).tdiv 2 := by
  unfold mean Native.addChecked
  split
  · rename_i sum whole
    split at whole
    · rename_i inside
      cases whole
      exact (half_holds t inside).1
    · cases whole
  · rename_i whole
    split at whole
    · cases whole
    · rename_i past
      have outside : low + high < t.least ∨ t.most < low + high := by
        by_contra no
        exact past ⟨by omega, by omega⟩
      obtain ⟨halfLow, oddLow⟩ := half_holds t first
      obtain ⟨halfHigh, oddHigh⟩ := half_holds t second
      obtain ⟨leastLow, mostLow⟩ := first
      obtain ⟨leastHigh, mostHigh⟩ := second
      have room := t.most_room
      have bounds := t.least_cases
      rw [halfLow, oddLow, halfHigh, oddHigh]
      unfold Native.addWrapping Native.divWrapping
      -- past overflow both are on one side of zero, and so are the halves and what is left over
      rcases outside with below | above
      · rw [tdiv_down (by omega : low ≤ 0), tdiv_down (by omega : high ≤ 0),
          tdiv_down (by omega : low + high ≤ 0),
          t.wrap_holds (v := -(-low / 2) + -(-high / 2)) ⟨by omega, by omega⟩,
          t.wrap_holds (v := low - 2 * -(-low / 2) + (high - 2 * -(-high / 2))) ⟨by omega, by omega⟩,
          tdiv_down (by omega : low - 2 * -(-low / 2) + (high - 2 * -(-high / 2)) ≤ 0)]
        generalize is : low - 2 * -(-low / 2) + (high - 2 * -(-high / 2)) = odd
        have one : t.wrap (-(-odd / 2)) = -(-odd / 2) := t.wrap_holds ⟨by omega, by omega⟩
        have sum : -(-low / 2) + -(-high / 2) + -(-odd / 2) = -(-(low + high) / 2) := by omega
        rw [one, sum]
        exact t.wrap_holds ⟨by omega, by omega⟩
      · rw [tdiv_up (by omega : 0 ≤ low), tdiv_up (by omega : 0 ≤ high),
          tdiv_up (by omega : 0 ≤ low + high),
          t.wrap_holds (v := low / 2 + high / 2) ⟨by omega, by omega⟩,
          t.wrap_holds (v := low - 2 * (low / 2) + (high - 2 * (high / 2))) ⟨by omega, by omega⟩,
          tdiv_up (by omega : 0 ≤ low - 2 * (low / 2) + (high - 2 * (high / 2)))]
        generalize is : low - 2 * (low / 2) + (high - 2 * (high / 2)) = odd
        have one : t.wrap (odd / 2) = odd / 2 := t.wrap_holds ⟨by omega, by omega⟩
        have sum : low / 2 + high / 2 + odd / 2 = (low + high) / 2 := by omega
        rw [one, sum]
        exact t.wrap_holds ⟨by omega, by omega⟩

/-! ### A group's values in chunks, and their middle -/

/-- Values in a chunk. -/
def chunk : Nat := 65536

/-- Full chunks, and the one filling; `capacity` is what the one filling has room for, and `slots`
what the list of full ones has. -/
structure Group where
  full : List (List Int)
  filling : List Int
  capacity : Nat
  slots : Nat
  deriving DecidableEq

namespace Group

def new : Group := ⟨[], [], 0, 0⟩

/-- The bytes of its chunks, of values of `size` bytes. -/
def bytes (size : Nat) (g : Group) : Nat := (g.full.length * chunk + g.capacity) * size + g.slots * 24

def len (g : Group) : Nat := g.full.length * chunk + g.filling.length

def values (g : Group) : List Int := if g.full.isEmpty then g.filling else g.full.flatten ++ g.filling

/-- Room for one more value: the chunk filling is full and the next begins, or it doubles. `grow` is
the room the list of full ones takes when it has none left. -/
def room (grow : Nat → Nat) (g : Group) : Group :=
  if chunk ≤ g.filling.length then
    { full := g.full ++ [g.filling]
      filling := []
      capacity := chunk
      slots := if g.full.length < g.slots then g.slots else grow g.slots }
  else { g with capacity := g.filling.length + (min (max (g.capacity * 2) 4) chunk - g.filling.length) }

def put (g : Group) (v : Int) : Group := { g with filling := g.filling ++ [v] }

/-- Every chunk before the one filling is full, and that one is within its room. -/
structure Whole (g : Group) : Prop where
  full : ∀ c ∈ g.full, c.length = chunk
  within : g.filling.length ≤ g.capacity
  small : g.capacity ≤ chunk

theorem whole_new : Whole new := ⟨by simp [new], Nat.le_refl 0, Nat.zero_le _⟩

@[simp] theorem values_eq (g : Group) : g.values = g.full.flatten ++ g.filling := by
  unfold values
  split
  · rename_i none_
    rw [List.isEmpty_iff.mp none_, List.flatten_nil, List.nil_append]
  · rfl

theorem length_chunks (cs : List (List Int)) (full : ∀ c ∈ cs, c.length = chunk) :
    cs.flatten.length = cs.length * chunk := by
  induction cs with
  | nil => rw [List.flatten_nil, List.length_nil, List.length_nil, Nat.zero_mul]
  | cons c rest ih =>
    have own := full c List.mem_cons_self
    have others := ih fun d inside => full d (List.mem_cons_of_mem _ inside)
    rw [List.flatten_cons, List.length_append, own, others, List.length_cons, Nat.succ_mul, Nat.add_comm]

theorem Whole.length_values {g : Group} (whole : g.Whole) : g.values.length = g.len := by
  rw [values_eq, List.length_append, length_chunks g.full whole.full, len]

theorem room_values (grow : Nat → Nat) (g : Group) : (g.room grow).values = g.values := by
  rw [values_eq, values_eq]
  unfold room
  split
  · rw [List.flatten_append, List.flatten_singleton, List.append_nil]
  · rfl

theorem put_values (g : Group) (v : Int) : (g.put v).values = g.values ++ [v] := by
  rw [values_eq, values_eq, put, List.append_assoc]

/-- With its room, a group is whole and has room. -/
theorem Whole.room {g : Group} (whole : g.Whole) (grow : Nat → Nat) (none_ : g.filling.length = g.capacity) :
    (g.room grow).Whole ∧ (g.room grow).filling.length < (g.room grow).capacity := by
  have small := whole.small
  have some_ : 4 ≤ chunk := by decide
  unfold Group.room
  split
  · rename_i filled
    have starts : 0 < chunk := by omega
    refine ⟨⟨?_, Nat.zero_le _, Nat.le_refl _⟩, starts⟩
    intro c inside
    rcases List.mem_append.mp inside with before | last
    · exact whole.full c before
    · rw [List.mem_singleton.mp last]
      omega
  · rename_i short
    refine ⟨⟨whole.full, ?_, ?_⟩, ?_⟩
    · dsimp only
      omega
    · dsimp only
      omega
    · dsimp only
      omega

theorem Whole.put {g : Group} (whole : g.Whole) (has : g.filling.length < g.capacity) (v : Int) :
    (g.put v).Whole := by
  refine ⟨whole.full, ?_, whole.small⟩
  rw [Group.put, List.length_append, List.length_singleton]
  exact has

theorem put_bytes (size : Nat) (g : Group) (v : Int) : (g.put v).bytes size = g.bytes size := rfl

end Group

/-! ### The middle -/

/-- The middle value, or the mean of the two middle ones. -/
def middle (t : Native) (values : List Int) : Option Int :=
  if values.length = 0 then none
  else
    match selectNth values (values.length / 2) with
    | none => none
    | some (low, high, _) =>
      if values.length % 2 = 1 then some high else (greatest low).map fun low => mean t low high

/-- Values sampled, and the ranks each side of the middle's. -/
def sampled : Nat := 16384

def margin : Nat := 256

/-- The value at a place, chunk by chunk. -/
def Group.at_ (g : Group) (i : Nat) : Option Int :=
  if i < g.full.length * chunk then g.full[i / chunk]?.bind fun ran => ran[i % chunk]?
  else g.filling[i - g.full.length * chunk]?

def xorshift (seed : UInt64) : UInt64 :=
  let seed := seed ^^^ (seed <<< 13)
  let seed := seed ^^^ (seed >>> 7)
  seed ^^^ (seed <<< 17)

/-- The values drawn; none is an index past the group's values. -/
def Group.draw (g : Group) : Nat → UInt64 → Option (List Int)
  | 0, _ => some []
  | n + 1, seed =>
    let seed := xorshift seed
    match g.at_ (seed.toNat % g.len) with
    | none => none
    | some v => (g.draw n seed).map (v :: ·)

/-- The answer from the values between two of the sample: of those below the lower, the ranks are
shifted; where the middle is not between them, it is picked from all. None is an index past the sample. -/
def pickedFrom (t : Native) (g : Group) (sample : List Int) : Option (Option Int) :=
  let len := g.len
  let sample := sorted sample
  let k := len / 2
  let two := len % 2 = 0
  let rank := k * sampled % 2 ^ 64 / len
  if margin ≤ rank ∧ sample.length ≤ rank - margin then none
  else
    let lower := if margin ≤ rank then sample[rank - margin]? else none
    let upper := sample[rank + margin]?
    let values := g.full.flatten ++ g.filling
    let isBelow := fun v => lower.any fun l => decide (v < l)
    let below := values.countP isBelow
    let between := values.filter fun v => !isBelow v && upper.all fun u => decide (v ≤ u)
    let first := if two then k - 1 else k
    if first < below ∨ below + between.length ≤ k then some (middle t g.values)
    else
      match selectNth between (k - below) with
      | none => none
      | some (low, high, _) =>
        if ¬two then some (some high) else some ((greatest low).map fun low => mean t low high)

/-- A group's median: of a group of one chunk, its middle. -/
def picked (t : Native) (g : Group) : Option (Option Int) :=
  if g.full.isEmpty then some (middle t g.values)
  else
    match g.draw sampled (UInt64.ofNat g.len ||| 1) with
    | none => none
    | some sample => pickedFrom t g sample

/-! ### What the middle is -/

/-- The middle of values: of an even count the mean of the two middle ones, truncated toward zero. -/
def median (values : List Int) : Option Int :=
  let s := sorted values
  if s.length % 2 = 1 then s[s.length / 2]?
  else
    match s[s.length / 2 - 1]?, s[s.length / 2]? with
    | some low, some high => some ((low + high).tdiv 2)
    | _, _ => none

/-- The middle by ranks. -/
theorem middle_ranks (t : Native) (values : List Int) : middle t values =
    if values.length % 2 = 1 then (sorted values)[values.length / 2]?
    else (sorted values)[values.length / 2 - 1]?.bind fun low =>
      (sorted values)[values.length / 2]?.map fun high => mean t low high := by
  unfold middle selectNth
  by_cases none_ : values.length = 0
  · rw [if_pos none_, none_, if_neg (by decide), List.length_eq_zero_iff.mp none_]
    rfl
  · rw [if_neg none_]
    have within : values.length / 2 < (sorted values).length := by
      rw [length_sorted]
      omega
    rw [List.getElem?_eq_getElem within, Option.map_some]
    dsimp only
    split
    · rfl
    · rename_i even
      have before := greatest_take values (values.length / 2 - 1) (by omega)
      have same : values.length / 2 - 1 + 1 = values.length / 2 := by omega
      rw [same] at before
      rw [before]
      cases (sorted values)[values.length / 2 - 1]? <;> rfl

theorem middle_median (t : Native) (values : List Int) (typed : ∀ v ∈ values, t.Holds v) :
    middle t values = median values := by
  rw [middle_ranks, median, length_sorted]
  split
  · rfl
  · cases low : (sorted values)[values.length / 2 - 1]? with
    | none => rfl
    | some l =>
      cases high : (sorted values)[values.length / 2]? with
      | none => rfl
      | some h =>
        have first := typed l ((mem_sorted values l).mp (List.mem_of_getElem? low))
        have second := typed h ((mem_sorted values h).mp (List.mem_of_getElem? high))
        dsimp only
        rw [Option.bind_some, Option.map_some, mean_eq t first second]

/-! ### Picked between two bounds -/

/-- Values between two bounds have the ranks of all values past those below. -/
theorem between_ranks (values : List Int) (lower upper : Option Int)
    (order : ∀ l ∈ lower, ∀ u ∈ upper, l ≤ u) (k : Nat)
    (low : (values.countP fun v => lower.any fun l => decide (v < l)) ≤ k)
    (high : k < (values.countP fun v => lower.any fun l => decide (v < l)) +
      (values.filter fun v => !(lower.any fun l => decide (v < l)) && upper.all fun u => decide (v ≤ u)).length) :
    (sorted values)[k]? = (sorted (values.filter fun v =>
      !(lower.any fun l => decide (v < l)) && upper.all fun u => decide (v ≤ u)))[k -
        values.countP fun v => lower.any fun l => decide (v < l)]? := by
  rw [List.countP_eq_length_filter] at low high ⊢
  have first := List.filter_append_perm (fun v => lower.any fun l => decide (v < l)) values
  have second := List.filter_append_perm (fun v => upper.all fun u => decide (v ≤ u))
    (values.filter fun v => !(lower.any fun l => decide (v < l)))
  rw [List.filter_filter, List.filter_filter] at second
  have swap : (fun v => (upper.all fun u => decide (v ≤ u)) && !(lower.any fun l => decide (v < l))) =
      fun v => !(lower.any fun l => decide (v < l)) && upper.all fun u => decide (v ≤ u) := by
    funext v
    exact Bool.and_comm _ _
  rw [swap] at second
  generalize is₁ : (values.filter fun v => lower.any fun l => decide (v < l)) = below at low high first ⊢
  generalize is₂ : (values.filter fun v =>
    !(lower.any fun l => decide (v < l)) && upper.all fun u => decide (v ≤ u)) = between at high second ⊢
  generalize is₃ : (values.filter fun v =>
    (!(upper.all fun u => decide (v ≤ u))) && !(lower.any fun l => decide (v < l))) = above at second
  have parts : values.Perm (below ++ (between ++ above)) :=
    first.symm.trans (second.symm.append_left below)
  have rises : ∀ a ∈ between, ∀ b ∈ above, a ≤ b := by
    intro a inside b outside
    rw [← is₂, List.mem_filter, Bool.and_eq_true] at inside
    rw [← is₃, List.mem_filter, Bool.and_eq_true] at outside
    cases upper with
    | none => cases outside.2.1
    | some u =>
      have under := inside.2.2
      have over_ := outside.2.1
      simp only [Option.all_some, decide_eq_true_iff, Bool.not_eq_true', decide_eq_false_iff_not] at under over_
      omega
  have starts : ∀ a ∈ below, ∀ b ∈ between ++ above, a ≤ b := by
    intro a inside b outside
    rw [← is₁, List.mem_filter] at inside
    have past : (lower.any fun l => decide (b < l)) = false := by
      rcases List.mem_append.mp outside with mid | last
      · rw [← is₂, List.mem_filter, Bool.and_eq_true, Bool.not_eq_true'] at mid
        exact mid.2.1
      · rw [← is₃, List.mem_filter, Bool.and_eq_true] at last
        exact (Bool.not_eq_true' _).mp last.2.2
    cases lower with
    | none => cases inside.2
    | some l =>
      have under := inside.2
      simp only [Option.any_some, decide_eq_true_iff, decide_eq_false_iff_not] at under past
      omega
  rw [sorted_congr parts, sorted_append starts, sorted_append rises,
    List.getElem?_append_right (by rw [length_sorted]; exact low), length_sorted,
    List.getElem?_append_left (by rw [length_sorted]; omega)]

/-- Whatever values are drawn, the middle is picked. -/
theorem pickedFrom_middle (t : Native) {g : Group} (whole : g.Whole) (sample : List Int)
    (drawn : sample.length = sampled) : pickedFrom t g sample = some (middle t g.values) := by
  have length : (g.full.flatten ++ g.filling).length = g.len := by
    rw [← Group.values_eq, whole.length_values]
  have rank_le : g.len / 2 * sampled % 2 ^ 64 / g.len ≤ sampled := by
    apply Nat.div_le_of_le_mul
    apply (Nat.mod_le _ _).trans
    exact Nat.mul_le_mul_right _ (Nat.div_le_self _ 2)
  have room : 0 < margin := by decide
  have some_ : margin ≤ sampled := by decide
  unfold pickedFrom
  dsimp only
  generalize g.len / 2 * sampled % 2 ^ 64 / g.len = rank at rank_le
  rw [if_neg (by rw [length_sorted]; omega)]
  generalize isLower : (if margin ≤ rank then (sorted sample)[rank - margin]? else none) = lower
  generalize isUpper : (sorted sample)[rank + margin]? = upper
  have order : ∀ l ∈ lower, ∀ u ∈ upper, l ≤ u := by
    intro l first u second
    obtain rfl := Option.mem_def.mp first
    obtain rfl := Option.mem_def.mp second
    split at isLower
    · obtain ⟨i, at_i⟩ := List.getElem?_eq_some_iff.mp isLower
      obtain ⟨j, at_j⟩ := List.getElem?_eq_some_iff.mp isUpper
      rw [← at_i, ← at_j]
      exact List.pairwise_iff_getElem.mp (sorted_pairwise sample) _ _ i j (by omega)
    · cases isLower
  have ranks := between_ranks (g.full.flatten ++ g.filling) lower upper order
  rw [middle_ranks, Group.values_eq, length]
  generalize isBelow : ((g.full.flatten ++ g.filling).countP fun v => lower.any fun l => decide (v < l)) =
    below at ranks ⊢
  generalize isBetween : ((g.full.flatten ++ g.filling).filter fun v =>
    !(lower.any fun l => decide (v < l)) && upper.all fun u => decide (v ≤ u)) = between at ranks ⊢
  generalize isFirst : (if g.len % 2 = 0 then g.len / 2 - 1 else g.len / 2) = first
  by_cases outside : first < below ∨ below + between.length ≤ g.len / 2
  · rw [if_pos outside]
  · rw [if_neg outside]
    have low : below ≤ first := by omega
    have high : g.len / 2 < below + between.length := by omega
    have upto : first ≤ g.len / 2 := by
      rw [← isFirst]
      split
      · exact Nat.sub_le _ 1
      · exact Nat.le_refl _
    have within : g.len / 2 - below < (sorted between).length := by
      rw [length_sorted]
      omega
    have top := ranks (g.len / 2) (by omega) high
    rw [List.getElem?_eq_getElem within] at top
    obtain ⟨inside, _⟩ := List.getElem?_eq_some_iff.mp top
    rw [length_sorted, length] at inside
    unfold selectNth
    rw [List.getElem?_eq_getElem within, Option.map_some]
    dsimp only
    by_cases odd : g.len % 2 = 1
    · rw [if_pos odd, if_pos (by omega), top]
    · rw [if_pos (by omega)] at isFirst
      rw [if_neg odd, if_neg (by omega)]
      have next := ranks (g.len / 2 - 1) (by omega) (by omega)
      have before := greatest_take between (g.len / 2 - 1 - below) (by rw [length_sorted] at within; omega)
      have same : g.len / 2 - 1 - below + 1 = g.len / 2 - below := by omega
      rw [same] at before
      rw [before, next, top]
      cases (sorted between)[g.len / 2 - 1 - below]? <;> rfl

theorem Group.Whole.at_some {g : Group} (whole : g.Whole) {i : Nat} (inside : i < g.len) :
    ∃ v, g.at_ i = some v := by
  have starts : 0 < chunk := by decide
  unfold Group.at_
  unfold Group.len at inside
  split
  · rename_i early
    have before : i / chunk < g.full.length := Nat.div_lt_of_lt_mul (by rw [Nat.mul_comm]; exact early)
    have short : i % chunk < (g.full[i / chunk]).length := by
      rw [whole.full _ (List.getElem_mem before)]
      exact Nat.mod_lt i starts
    rw [List.getElem?_eq_getElem before, Option.bind_some, List.getElem?_eq_getElem short]
    exact ⟨_, rfl⟩
  · rename_i late
    have short : i - g.full.length * chunk < g.filling.length := by omega
    rw [List.getElem?_eq_getElem short]
    exact ⟨_, rfl⟩

theorem Group.Whole.draw_some {g : Group} (whole : g.Whole) (some_ : 0 < g.len) (n : Nat) (seed : UInt64) :
    ∃ sample, g.draw n seed = some sample ∧ sample.length = n := by
  induction n generalizing seed with
  | zero => exact ⟨[], rfl, rfl⟩
  | succ n ih =>
    obtain ⟨v, is⟩ := whole.at_some (Nat.mod_lt (xorshift seed).toNat some_)
    obtain ⟨rest, drawn, length⟩ := ih (xorshift seed)
    refine ⟨v :: rest, ?_, by rw [List.length_cons, length]⟩
    rw [Group.draw, is]
    dsimp only
    rw [drawn, Option.map_some]

/-- A group's answer is the middle of its values. -/
theorem picked_middle (t : Native) {g : Group} (whole : g.Whole) :
    picked t g = some (middle t g.values) := by
  unfold picked
  split
  · rfl
  · rename_i some_
    have more : 0 < g.len := by
      have one := List.length_pos_of_ne_nil fun none_ => some_ (List.isEmpty_iff.mpr none_)
      have starts : 0 < chunk := by decide
      have full := Nat.mul_pos one starts
      unfold Group.len
      omega
    obtain ⟨sample, drawn, length⟩ := whole.draw_some more sampled (UInt64.ofNat g.len ||| 1)
    rw [drawn]
    exact pickedFrom_middle t whole sample length

end Pondra.Median
