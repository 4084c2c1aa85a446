import Mathlib.Algebra.Order.Group.Abs
import Pondra.Base.Months

set_option autoImplicit false

/-! ### WITHIN's time arithmetic -/

namespace Pondra.Matcher

open Calendars

def hourNs : Int := 3600000000000
def dayNs : Int := 86400000000000

def minLong : Int := -9223372036854775808
def maxLong : Int := 9223372036854775807

def Long (x : Int) : Prop := minLong ≤ x ∧ x ≤ maxLong

instance (x : Int) : Decidable (Long x) := inferInstanceAs (Decidable (minLong ≤ x ∧ x ≤ maxLong))

inductive TimeUnit
  | Second
  | Millisecond
  | Microsecond
  | Nanosecond
  deriving DecidableEq

/-- Nanoseconds in one tick of a time type (its timestamp unit). -/
def nsPerTick : TimeUnit → Int
  | .Second => 1000000000
  | .Millisecond => 1000000
  | .Microsecond => 1000
  | .Nanosecond => 1

/-- WITHIN's subtraction for one partition: the time column's unit, and the interval's parts. -/
structure Kernel where
  time : TimeUnit
  months : Int
  days : Int
  nanos : Int
  deriving DecidableEq

def Kernel.tick (k : Kernel) : Int := nsPerTick k.time

/-- The times a datetime holds, in ns from the epoch. -/
def minNs : Int := -8334601228800000000000
def maxNs : Int := 8210266876799999999999

def datetime (ns : Int) : Option Int := if minNs ≤ ns ∧ ns ≤ maxNs then some ns else none

/-- The time of day kept, on the day `months` earlier. -/
def subMonths (months ns : Int) : Int := gregorian.back months (ns / dayNs) * dayNs + ns % dayNs

/-- WITHIN's low for a time of `tick` ticks, as a timestamp less an interval is: months, then days, then nanoseconds;
none for an error. -/
def Kernel.low (k : Kernel) (tick : Int) : Option Int := do
  let start ← datetime (tick * k.tick)
  let month ← datetime (subMonths k.months start)
  let day ← datetime (month - k.days * dayNs)
  let time ← datetime (day - k.nanos)
  if Long (time / k.tick) then some (time / k.tick) else none

/-- Whether a thread that started at time `t` is dead at watermark `w`; none for an error. -/
def dead (k : Kernel) (t w : Int) : Option Bool :=
  if Long (w + 1) then (k.low (w + 1)).map fun low => t < low else none

/-- A bound surely dead: a month is 31 days, a day 25 hours, the nanoseconds as they are, and a day more. -/
def boundNs (k : Kernel) : Int := |k.months| * 31 * dayNs + |k.days| * 25 * hourNs + |k.nanos| + dayNs

/-- The first of `start + step`, `start + 2 * step` and so on where the thread is dead, in so many doublings. -/
def doubled (dead : Int → Option Bool) (start : Int) : Nat → Int → Option Int
  | 0, step => match dead (start + step) with
    | some true => some (start + step)
    | _ => none
  | tries + 1, step => match dead (start + step) with
    | none => none
    | some true => some (start + step)
    | some false => doubled dead start tries (step * 2)

/-- The least tick past `lo`, alive, at which the thread is dead, up to `hi`, dead. -/
def bisect (dead : Int → Option Bool) (lo hi : Int) : Option Int :=
  if hi - lo > 1 then
    match dead (lo + (hi - lo) / 2) with
    | none => none
    | some true => bisect dead lo (lo + (hi - lo) / 2)
    | some false => bisect dead (lo + (hi - lo) / 2) hi
  else some hi
termination_by (hi - lo).toNat

/-- The least watermark at which a thread that started at time `t` is dead. -/
def dueOf (k : Kernel) (t : Int) : Option Int :=
  match dead k t t with
  | none => none
  | some true => some t
  | some false =>
    match doubled (dead k t) t 64 ((boundNs k + k.tick - 1) / k.tick) with
    | none => none
    | some hi => bisect (dead k t) t hi

/-- Whether a row of time `r` may be taken by a thread that started at time `t`; none for an error. -/
def withinOk (k : Kernel) (t r : Int) : Option Bool := (k.low r).map fun low => t ≥ low

/-! ### The search for a due time -/

/-- The least dead time past an alive one is found, whatever is asked between. -/
theorem bisect_spec (ask : Int → Option Bool) (is : Int → Bool) (rises : ∀ a b, a ≤ b → is a = true → is b = true)
    (lo hi : Int) (answers : ∀ w, lo ≤ w → w ≤ hi → ask w = some (is w)) (alive : is lo = false)
    (dead_ : is hi = true) : ∃ d, bisect ask lo hi = some d ∧ lo < d ∧ d ≤ hi ∧ is d = true ∧ is (d - 1) = false := by
  have apart : lo < hi := by
    by_contra not
    have same := rises hi lo (by omega) dead_
    rw [alive] at same
    cases same
  generalize size : (hi - lo).toNat = n
  induction n using Nat.strong_induction_on generalizing lo hi with
  | _ n ih =>
    rw [bisect]
    split
    · rename_i wide
      rw [answers (lo + (hi - lo) / 2) (by omega) (by omega)]
      cases mid : is (lo + (hi - lo) / 2) with
      | true =>
        obtain ⟨d, found, past, upto, at_, before⟩ := ih _ (by omega) lo (lo + (hi - lo) / 2)
          (fun w from_ to_ => answers w from_ (by omega)) alive mid (by omega) rfl
        exact ⟨d, found, past, by omega, at_, before⟩
      | false =>
        obtain ⟨d, found, past, upto, at_, before⟩ := ih _ (by omega) (lo + (hi - lo) / 2) hi
          (fun w from_ to_ => answers w (by omega) to_) mid dead_ (by omega) rfl
        exact ⟨d, found, by omega, upto, at_, before⟩
    · have next : hi - 1 = lo := by omega
      exact ⟨hi, rfl, apart, le_refl hi, dead_, by rw [next]; exact alive⟩

/-! ### When the low goes back -/

theorem tick_pos (k : Kernel) : 0 < k.tick := by
  unfold Kernel.tick
  cases k.time <;> decide

/-- The time a low has to reach for a thread that started at `t` to be dead: the tick after it, the interval's days
and nanoseconds on. -/
def threshold (k : Kernel) (t : Int) : Int := (t + 1) * k.tick + k.days * dayNs + k.nanos

def lowNs (k : Kernel) (x : Int) : Int := subMonths k.months (x * k.tick) - k.days * dayNs - k.nanos

theorem lt_low_iff (k : Kernel) (t x : Int) :
    t < lowNs k x / k.tick ↔ threshold k t ≤ subMonths k.months (x * k.tick) := by
  rw [← Int.add_one_le_iff, Int.le_ediv_iff_mul_le (tick_pos k)]
  simp only [lowNs, threshold]
  omega

theorem datetime_some (ns at_ : Int) (is : datetime ns = some at_) : at_ = ns := by
  unfold datetime at is
  split at is
  · exact (Option.some.inj is).symm
  · cases is

theorem low_some (k : Kernel) (x low : Int) (is : k.low x = some low) : low = lowNs k x / k.tick := by
  simp only [Kernel.low, Option.bind_eq_bind, Option.bind_eq_some_iff] at is
  obtain ⟨a, first, b, second, c, third, d, fourth, last⟩ := is
  obtain rfl := datetime_some _ _ first
  obtain rfl := datetime_some _ _ second
  obtain rfl := datetime_some _ _ third
  obtain rfl := datetime_some _ _ fourth
  split at last
  · exact (Option.some.inj last).symm
  · cases last

/-- Ticks fill a day. -/
theorem day_ticks (k : Kernel) : dayNs / k.tick * k.tick = dayNs := by
  unfold Kernel.tick
  cases k.time <;> decide

theorem tod_le (k : Kernel) (x : Int) : x * k.tick % dayNs ≤ dayNs - k.tick := by
  simp only [Kernel.tick, dayNs]
  cases k.time <;> simp only [nsPerTick] <;> omega

theorem subMonths_near (months ns : Int) :
    ns - 31 * |months| * dayNs ≤ subMonths months ns ∧ subMonths months ns ≤ ns + 31 * |months| * dayNs := by
  obtain ⟨low, high⟩ := gregorian.back_near months (ns / dayNs)
  simp only [subMonths, dayNs] at low high ⊢
  omega

/-- The threshold is on the last day of a month shorter than the month `months` later, before the day's last tick. -/
def Clamped (k : Kernel) (t : Int) : Prop :=
  (threshold k t - 1) / dayNs + 1 = gregorian.first (gregorian.of_ ((threshold k t - 1) / dayNs) + 1) ∧
    gregorian.length (gregorian.of_ ((threshold k t - 1) / dayNs)) <
      gregorian.length (gregorian.of_ ((threshold k t - 1) / dayNs) + k.months) ∧
    threshold k t ≤ (threshold k t - 1) / dayNs * dayNs + dayNs - k.tick

instance (k : Kernel) (t : Int) : Decidable (Clamped k t) := inferInstanceAs (Decidable (_ ∧ _ ∧ _))

/-- A low that goes back past the threshold goes back over the last day of a shorter month. -/
theorem turn_clamped (k : Kernel) (t x y : Int) (before : x < y)
    (reached : threshold k t ≤ subMonths k.months (x * k.tick))
    (lost : subMonths k.months (y * k.tick) < threshold k t) : Clamped k t := by
  have order : x * k.tick < y * k.tick := Int.mul_lt_mul_of_pos_right before (tick_pos k)
  have tod := tod_le k x
  have days : x * k.tick / dayNs < y * k.tick / dayNs := by
    by_contra not
    have same : x * k.tick / dayNs = y * k.tick / dayNs := by
      simp only [dayNs] at not ⊢
      omega
    simp only [subMonths] at reached lost
    rw [same] at reached
    simp only [dayNs] at same reached lost
    omega
  have turns : gregorian.back k.months (y * k.tick / dayNs) ≤ gregorian.back k.months (x * k.tick / dayNs) := by
    by_contra not
    simp only [subMonths, dayNs] at reached lost not
    omega
  obtain ⟨month, shorter, first, second⟩ := gregorian.back_turns k.months _ _ days turns
  simp only [subMonths, first, second] at reached lost
  have day : (threshold k t - 1) / dayNs = gregorian.first (month + 1) - 1 := by
    simp only [dayNs] at reached lost ⊢
    omega
  have short := gregorian.short month
  have of_ := gregorian.of_eq month (gregorian.first (month + 1) - 1) (by omega) (by omega)
  simp only [Clamped, day, of_]
  exact ⟨by omega, shorter, by omega⟩

/-- Over the last day of a shorter month the low goes back. -/
theorem clamped_turn (k : Kernel) (t : Int) (clamped : Clamped k t) :
    ∃ x y, x < y ∧ threshold k t ≤ subMonths k.months (x * k.tick) ∧
      subMonths k.months (x * k.tick) ≤ threshold k t + dayNs ∧
      subMonths k.months (y * k.tick) < threshold k t ∧
      threshold k t - dayNs ≤ subMonths k.months (y * k.tick) := by
  obtain ⟨last, shorter, short⟩ := clamped
  have tick := tick_pos k
  have whole := day_ticks k
  have some_ : k.tick ≤ dayNs := by
    unfold Kernel.tick
    cases k.time <;> decide
  obtain ⟨day, one, other⟩ := gregorian.back_last k.months _ shorter
  rw [← last, Int.add_sub_cancel] at one other
  have first : ((day + 1) * (dayNs / k.tick) - 1) * k.tick = day * dayNs + (dayNs - k.tick) := by
    rw [Int.sub_mul, Int.mul_assoc, whole, Int.add_mul]
    omega
  have second : ((day + 1) * (dayNs / k.tick)) * k.tick = (day + 1) * dayNs := by
    rw [Int.mul_assoc, whole]
  have firstLow : subMonths k.months (((day + 1) * (dayNs / k.tick) - 1) * k.tick) =
      (threshold k t - 1) / dayNs * dayNs + (dayNs - k.tick) := by
    have div : (day * dayNs + (dayNs - k.tick)) / dayNs = day := by
      simp only [dayNs] at some_ ⊢
      omega
    have mod : (day * dayNs + (dayNs - k.tick)) % dayNs = dayNs - k.tick := by
      simp only [dayNs] at some_ ⊢
      omega
    rw [first, subMonths, div, mod, one]
  have secondLow : subMonths k.months (((day + 1) * (dayNs / k.tick)) * k.tick) =
      (threshold k t - 1) / dayNs * dayNs := by
    have div : (day + 1) * dayNs / dayNs = day + 1 := Int.mul_ediv_cancel _ (by decide)
    have mod : (day + 1) * dayNs % dayNs = 0 := Int.mul_emod_left _ _
    rw [second, subMonths, div, mod, other, Int.add_zero]
  refine ⟨(day + 1) * (dayNs / k.tick) - 1, (day + 1) * (dayNs / k.tick), Int.sub_lt_self _ (by decide), ?_⟩
  rw [firstLow, secondLow]
  simp only [dayNs] at short some_ ⊢
  omega

/-! ### Death is final -/

/-- How far from the start the low is asked for. -/
def reachNs (k : Kernel) : Int := boundNs k + 40 * dayNs

/-- The start is as far from the ends of what the time type and a datetime hold as the low is asked for, twice. -/
structure Clear (k : Kernel) (t : Int) : Prop where
  least : minNs + 2 * reachNs k ≤ t * k.tick
  most : t * k.tick + 2 * reachNs k ≤ maxNs
  leastTick : minLong * k.tick + 2 * reachNs k ≤ t * k.tick
  mostTick : t * k.tick + 2 * reachNs k ≤ maxLong * k.tick

theorem bound_parts (k : Kernel) : ∃ m d n : Int, boundNs k = 31 * m + 25 * d + n + dayNs ∧
    m = |k.months| * dayNs ∧ d = |k.days| * hourNs ∧ n = |k.nanos| ∧ 0 ≤ m ∧ 0 ≤ d ∧ 0 ≤ n ∧
    k.days * dayNs ≤ 24 * d ∧ -(24 * d) ≤ k.days * dayNs ∧ k.nanos ≤ n ∧ -n ≤ k.nanos := by
  have months := abs_nonneg k.months
  have days := abs_le.mp (le_refl |k.days|)
  have nanos := abs_le.mp (le_refl |k.nanos|)
  have some_ := abs_nonneg k.days
  refine ⟨_, _, _, ?_, rfl, rfl, rfl, ?_⟩
  · simp only [boundNs, dayNs, hourNs]
    omega
  · simp only [dayNs, hourNs]
    omega

theorem low_clear (k : Kernel) (t x : Int) (clear : Clear k t) (before : (t - x) * k.tick ≤ reachNs k)
    (after : (x - t) * k.tick ≤ reachNs k) : k.low x = some (lowNs k x / k.tick) ∧ Long x := by
  obtain ⟨m, d, n, bound, months, -, -, some1, some2, some3, day1, day2, nano1, nano2⟩ := bound_parts k
  have tick := tick_pos k
  have near := subMonths_near k.months (x * k.tick)
  have shift : 31 * |k.months| * dayNs = 31 * m := by rw [months, Int.mul_assoc]
  rw [shift] at near
  rw [Int.sub_mul] at before after
  obtain ⟨least, most, leastTick, mostTick⟩ := clear
  simp only [reachNs, bound] at before after least most leastTick mostTick
  have ranged (ns : Int) (low : minNs ≤ ns) (high : ns ≤ maxNs) : datetime ns = some ns := if_pos ⟨low, high⟩
  simp only [dayNs] at before after least most leastTick mostTick near day1 day2
  have long (y : Int) (low : minLong * k.tick ≤ y * k.tick) (high : y * k.tick ≤ maxLong * k.tick) :
      Long y := ⟨Int.le_of_mul_le_mul_right low tick, Int.le_of_mul_le_mul_right high tick⟩
  refine ⟨?_, long x (by omega) (by omega)⟩
  have whole : Long (lowNs k x / k.tick) := by
    constructor
    · rw [Int.le_ediv_iff_mul_le tick]
      simp only [lowNs, dayNs]
      omega
    · apply Int.le_of_lt_add_one
      rw [Int.ediv_lt_iff_lt_mul tick, Int.add_mul]
      simp only [lowNs, dayNs]
      omega
  simp only [Kernel.low, Option.bind_eq_bind]
  rw [ranged _ (by omega) (by omega), Option.bind_some, ranged _ (by omega) (by omega), Option.bind_some,
    ranged _ (by simp only [dayNs]; omega) (by simp only [dayNs]; omega), Option.bind_some,
    ranged _ (by simp only [dayNs]; omega) (by simp only [dayNs]; omega), Option.bind_some]
  exact if_pos whole

/-- Whether the low of the tick after `w` is past the start. -/
def past (k : Kernel) (t w : Int) : Bool := threshold k t ≤ subMonths k.months ((w + 1) * k.tick)

theorem dead_some (k : Kernel) (t w : Int) (is : Bool) (answer : dead k t w = some is) : is = past k t w := by
  unfold dead at answer
  split at answer
  · obtain ⟨low, found, rfl⟩ := Option.map_eq_some_iff.mp answer
    rw [low_some k (w + 1) low found, past]
    exact decide_eq_decide.mpr (lt_low_iff k t (w + 1))
  · cases answer

theorem dead_clear (k : Kernel) (t w : Int) (clear : Clear k t) (before : (t - (w + 1)) * k.tick ≤ reachNs k)
    (after : (w + 1 - t) * k.tick ≤ reachNs k) : dead k t w = some (past k t w) := by
  obtain ⟨low, long⟩ := low_clear k t (w + 1) clear before after
  rw [dead, if_pos long, low, Option.map_some, past]
  exact congrArg some (decide_eq_decide.mpr (lt_low_iff k t (w + 1)))

/-- The bound is surely dead. -/
theorem past_bound (k : Kernel) (t w : Int) (far : t * k.tick + boundNs k ≤ w * k.tick) : past k t w = true := by
  obtain ⟨m, d, n, bound, months, -, -, some1, some2, some3, day1, day2, nano1, nano2⟩ := bound_parts k
  have near := (subMonths_near k.months ((w + 1) * k.tick)).1
  have shift : 31 * |k.months| * dayNs = 31 * m := by rw [months, Int.mul_assoc]
  rw [shift, Int.add_mul] at near
  apply decide_eq_true
  simp only [threshold, dayNs] at *
  rw [Int.add_mul, Int.add_mul]
  omega

/-- A thread dead at a watermark takes no row after it, and its due time is the least watermark from its start on at
which it is dead, and stays so. -/
structure Final (k : Kernel) (t : Int) : Prop where
  dead : ∀ w, dead k t w = some true → ∀ r, w < r → withinOk k t r ≠ some true
  due : ∃ d, dueOf k t = some d ∧ t ≤ d ∧ Matcher.dead k t d = some true ∧
    (∀ w, t ≤ w → w < d → Matcher.dead k t w ≠ some true) ∧ ∀ w, d ≤ w → Matcher.dead k t w ≠ some false

theorem taken_iff (k : Kernel) (t r : Int) (is : Bool) (answer : withinOk k t r = some is) :
    is = !past k t (r - 1) := by
  obtain ⟨low, found, rfl⟩ := Option.map_eq_some_iff.mp answer
  have iff := lt_low_iff k t r
  rw [low_some k r low found, past, Int.sub_add_cancel, ← decide_not, decide_eq_decide]
  omega

theorem final_of (k : Kernel) (t : Int) (clear : Clear k t) (sound : ¬ Clamped k t) : Final k t := by
  have rises (a b : Int) (before : a ≤ b) (is : past k t a = true) : past k t b = true := by
    rcases Int.lt_or_eq_of_le before with less | rfl
    · by_contra not
      have lost := not_le.mp (fun reached => not (decide_eq_true reached))
      exact sound (turn_clamped k t (a + 1) (b + 1) (by omega) (of_decide_eq_true is) lost)
    · exact is
  have tick := tick_pos k
  have small : k.tick ≤ dayNs := by
    unfold Kernel.tick
    cases k.time <;> decide
  have parts := bound_parts k
  have wide : dayNs ≤ boundNs k := by
    obtain ⟨m, d, n, bound, -, -, -, some1, some2, some3, -⟩ := parts
    omega
  constructor
  · intro w is r after taken
    have now := dead_some k t w true is
    have later := rises w (r - 1) (by omega) now.symm
    have free := taken_iff k t r true taken
    rw [later] at free
    cases free
  · have answers (w : Int) (from_ : t ≤ w) (to_ : (w + 1 - t) * k.tick ≤ reachNs k) :=
      dead_clear k t w clear (by
        have product := Int.mul_le_mul_of_nonneg_right (by omega : t - (w + 1) ≤ 0) tick.le
        have far : 0 ≤ reachNs k := by
          simp only [reachNs]
          simp only [dayNs] at wide ⊢
          omega
        omega) to_
    have always (d : Int) (is : past k t d = true) (w : Int) (after : d ≤ w) :
        Matcher.dead k t w ≠ some false := by
      intro answer
      have same := dead_some k t w false answer
      rw [rises d w after is] at same
      cases same
    have here := answers t (le_refl t) (by
      have next : t + 1 - t = 1 := by omega
      have one : (t + 1 - t) * k.tick = k.tick := by rw [next, Int.one_mul]
      simp only [one, reachNs]
      simp only [dayNs] at wide small ⊢
      omega)
    cases start : past k t t with
    | true =>
      rw [start] at here
      refine ⟨t, by rw [dueOf, here], le_refl t, here, fun w from_ to_ => by omega, always t start⟩
    | false =>
      rw [start] at here
      obtain ⟨step, is⟩ : ∃ step, (boundNs k + k.tick - 1) / k.tick = step := ⟨_, rfl⟩
      have low := Int.lt_ediv_add_one_mul_self (boundNs k + k.tick - 1) tick
      have high := Int.ediv_mul_le (boundNs k + k.tick - 1) (by omega : k.tick ≠ 0)
      rw [is] at low high
      rw [Int.add_mul] at low
      have end_ : past k t (t + step) = true := by
        apply past_bound
        rw [Int.add_mul]
        omega
      have within (w : Int) (to_ : w ≤ t + step) : (w + 1 - t) * k.tick ≤ reachNs k := by
        have product := Int.mul_le_mul_of_nonneg_right (by omega : w + 1 - t ≤ step + 1) tick.le
        rw [Int.add_mul] at product
        simp only [reachNs]
        simp only [dayNs] at small ⊢
        omega
      have more : t ≤ t + step := by
        by_contra not
        have back := rises (t + step) t (by omega) end_
        rw [start] at back
        cases back
      obtain ⟨d, found, after, upto, at_, before⟩ := bisect_spec (Matcher.dead k t) (past k t) rises t
        (t + step) (fun w from_ to_ => answers w from_ (within w to_)) start end_
      have found' : dueOf k t = some d := by
        rw [dueOf, here]
        simp only [is, doubled, answers (t + step) more (within _ (le_refl _)), end_]
        exact found
      have dead_ := answers d after.le (within d upto)
      rw [at_] at dead_
      refine ⟨d, found', after.le, dead_, fun w from_ to_ answer => ?_, always d at_⟩
      have same := dead_some k t w true answer
      have reach := rises w (d - 1) (by omega) same.symm
      rw [before] at reach
      cases reach

/-- Death is final exactly where the start, the interval's days and nanoseconds on, is not past the start of the last
day of a month shorter than the one `months` later. -/
theorem final_iff (k : Kernel) (t : Int) (clear : Clear k t) : Final k t ↔ ¬ Clamped k t := by
  refine ⟨fun final clamped => ?_, final_of k t clear⟩
  obtain ⟨x, y, before, reached, near, lost, close⟩ := clamped_turn k t clamped
  have tick := tick_pos k
  have small : k.tick ≤ dayNs := by
    unfold Kernel.tick
    cases k.time <;> decide
  obtain ⟨m, d, n, bound, months, -, -, some1, some2, some3, day1, day2, nano1, nano2⟩ := bound_parts k
  have shift : 31 * |k.months| * dayNs = 31 * m := by rw [months, Int.mul_assoc]
  have nearX := subMonths_near k.months (x * k.tick)
  have nearY := subMonths_near k.months (y * k.tick)
  rw [shift] at nearX nearY
  have startNs : threshold k t = t * k.tick + k.tick + k.days * dayNs + k.nanos := by
    rw [threshold, Int.add_mul, Int.one_mul]
  have reach : reachNs k = 31 * m + 25 * d + n + 41 * dayNs := by
    simp only [reachNs, bound]
    omega
  simp only [dayNs] at *
  have lowX := low_clear k t x clear (by rw [Int.sub_mul]; omega) (by rw [Int.sub_mul]; omega)
  have lowY := low_clear k t y clear (by rw [Int.sub_mul]; omega) (by rw [Int.sub_mul]; omega)
  have dead_ : dead k t (x - 1) = some true := by
    rw [dead, Int.sub_add_cancel, if_pos lowX.2, lowX.1, Option.map_some]
    exact congrArg some (decide_eq_true ((lt_low_iff k t x).mpr reached))
  have taken : withinOk k t y = some true := by
    rw [withinOk, lowY.1, Option.map_some]
    have under := mt (lt_low_iff k t y).mp (by omega)
    exact congrArg some (decide_eq_true (by omega))
  exact final.dead (x - 1) dead_ y (by omega) taken

theorem final_iff_day :
    Final ⟨.Microsecond, 0, 1, 1500000000⟩ 1767225600000000 ↔
      ¬ Clamped ⟨.Microsecond, 0, 1, 1500000000⟩ 1767225600000000 :=
  final_iff ⟨.Microsecond, 0, 1, 1500000000⟩ 1767225600000000
    ⟨by decide +kernel, by decide +kernel, by decide +kernel, by decide +kernel⟩

/-- A thread of 2026-02-28 06:00 under a month is dead at noon of March 28, and takes a row of March 31. -/
theorem february_revives : ¬ ∀ (k : Kernel) (t : Int), Clear k t → Final k t := by
  intro every
  have final := every ⟨.Microsecond, 1, 0, 0⟩ 1772258400000000
    ⟨by decide +kernel, by decide +kernel, by decide +kernel, by decide +kernel⟩
  exact final.dead 1774699199999999 (by decide +kernel) 1774915200000000 (by decide) (by decide +kernel)

end Pondra.Matcher
