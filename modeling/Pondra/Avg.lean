import Mathlib.Algebra.Order.Ring.Abs
import Mathlib.Algebra.Order.Ring.Int
import Mathlib.Algebra.BigOperators.Group.List.Basic
import Mathlib.Tactic.Ring

set_option autoImplicit false

/-! ### `avg` of a DECIMAL, and a view's average finished from its sum and count -/

namespace Pondra.Avg

def maxWide : Int := 170141183460469231731687303715884105727

/-- An i128 holds `x`. -/
def Wide (x : Int) : Prop := -maxWide - 1 ≤ x ∧ x ≤ maxWide

instance (x : Int) : Decidable (Wide x) := inferInstanceAs (Decidable (-maxWide - 1 ≤ x ∧ x ≤ maxWide))

def checked (x : Int) : Option Int := if Wide x then some x else none

/-- A DECIMAL's digits, and how many of them are past the point. -/
structure Decimal where
  precision : Nat
  scale : Int
  deriving DecidableEq

/-- The type of `avg` over values of type `t`. -/
def returnType (t : Decimal) : Decimal := ⟨min 38 (t.precision + 4), min 38 (t.scale + 4)⟩

/-- The type of `sum` over values of type `t`. -/
def sumType (t : Decimal) : Decimal := ⟨min 38 (t.precision + 10), t.scale⟩

/-- DataFusion's average of a sum of scale `scale`, of type `to_`: none for an overflow. -/
def average (scale : Int) (to_ : Decimal) (sum n : Int) : Option Int :=
  match checked (sum * 10 ^ (to_.scale - scale).toNat) with
  | none => none
  | some v => if |v.tdiv n| < 10 ^ to_.precision then some (v.tdiv n) else none

/-- Takes the last place off, rounding half away from zero. -/
def round (v : Int) : Int := (v + if v < 0 then -5 else 5).tdiv 10

/-- The answer's type, when this one is worked out a place further and rounded. -/
def rounded (t : Decimal) : Option Decimal := if t.precision ≤ 24 then some (returnType t) else none

/-- `avg` of values whose sum and count are these. -/
def avg (t : Decimal) (sum n : Int) : Option Int :=
  match rounded t with
  | some to_ => (average t.scale ⟨to_.precision + 1, to_.scale + 1⟩ sum n).map round
  | none => average t.scale (returnType t) sum n

/-- A view's finished average: a sum of type `t` over a count, a place further, then rounded when `avg` rounds and
cut off when it doesn't; none for an overflow. -/
def avgOf (t : Decimal) (sum n : Int) : Option Int :=
  let scale := min (t.scale + 4) 38
  let ten : Int := 10 ^ (scale - t.scale + 1).toNat
  match checked (sum.tdiv n * ten) with
  | none => none
  | some q =>
    match checked (q + (sum.tmod n * ten).tdiv n) with
    | none => none
    | some v => some (if t.precision ≤ 34 then round v else v.tdiv 10)

/-! ### Quotients -/

/-- The whole part and the remainder apart are the quotient. -/
theorem tdiv_apart (sum n ten : Int) (some_ : 0 < n) (power : 0 ≤ ten) :
    sum.tdiv n * ten + (sum.tmod n * ten).tdiv n = (sum * ten).tdiv n := by
  have positive (a : Int) (from_ : 0 ≤ a) :
      a.tdiv n * ten + (a.tmod n * ten).tdiv n = (a * ten).tdiv n := by
    have left := Int.tmod_nonneg n from_
    rw [Int.tdiv_eq_ediv_of_nonneg from_, Int.tdiv_eq_ediv_of_nonneg (Int.mul_nonneg left power),
      Int.tdiv_eq_ediv_of_nonneg (Int.mul_nonneg from_ power), Int.tmod_eq_emod_of_nonneg from_]
    have whole : a * ten = a % n * ten + n * (a / n * ten) := by
      rw [← Int.mul_assoc, ← Int.add_mul, Int.emod_add_mul_ediv]
    rw [whole, Int.add_mul_ediv_left _ _ (by omega), Int.add_comm]
  rcases Int.le_total 0 sum with up | down
  · exact positive sum up
  · have mirror := positive (-sum) (by omega)
    rw [Int.neg_tdiv, Int.neg_tmod, Int.neg_mul, Int.neg_mul, Int.neg_mul, Int.neg_tdiv, Int.neg_tdiv]
      at mirror
    omega

/-- `v` is `a / n` to the nearest, half away from zero. -/
structure HalfAway (a n v : Int) : Prop where
  nearest : 2 * |n * v - a| ≤ n
  away : 2 * |n * v - a| = n → |a| ≤ |n * v|

theorem HalfAway.neg {a n v : Int} (half : HalfAway a n v) : HalfAway (-a) n (-v) where
  nearest := by
    rw [Int.mul_neg, ← abs_neg]
    simpa only [neg_sub_neg, neg_sub, sub_neg_eq_add, neg_add_rev, neg_neg, Int.add_comm,
      ← sub_eq_add_neg] using half.nearest
  away tie := by
    rw [Int.mul_neg, ← abs_neg] at tie
    rw [Int.mul_neg, abs_neg, abs_neg]
    apply half.away
    simpa only [neg_sub_neg, neg_sub, sub_neg_eq_add, neg_add_rev, neg_neg, Int.add_comm,
      ← sub_eq_add_neg] using tie

theorem round_neg (v : Int) : round (-v) = -round v := by
  unfold round
  rcases Int.lt_trichotomy v 0 with less | rfl | more
  · rw [if_neg (by omega), if_pos less, ← Int.neg_tdiv]
    congr 1
    omega
  · rfl
  · rw [if_pos (by omega), if_neg (by omega), ← Int.neg_tdiv]
    congr 1
    omega

/-- Cut off a place further and rounded is rounded once. -/
theorem round_halfAway (a n : Int) (some_ : 0 < n) : HalfAway a n (round ((a * 10).tdiv n)) := by
  have positive (a : Int) (from_ : 0 ≤ a) : HalfAway a n (round ((a * 10).tdiv n)) := by
    have up : 0 ≤ a * 10 := by omega
    rw [Int.tdiv_eq_ediv_of_nonneg up]
    have quotient := Int.ediv_nonneg up some_.le
    have low := Int.ediv_mul_le (a * 10) (by omega : n ≠ 0)
    have high := Int.lt_ediv_add_one_mul_self (a * 10) some_
    generalize a * 10 / n = T at quotient low high ⊢
    rw [round, if_neg (by omega), Int.tdiv_eq_ediv_of_nonneg (by omega)]
    have down : 10 * ((T + 5) / 10) ≤ T + 5 := by omega
    have top : T + 1 ≤ 10 * ((T + 5) / 10) + 5 := by omega
    have pos : 0 ≤ (T + 5) / 10 := by omega
    generalize (T + 5) / 10 = v at down top pos ⊢
    have lowProduct := Int.mul_le_mul_of_nonneg_left down some_.le
    have highProduct := Int.mul_le_mul_of_nonneg_left top some_.le
    have product : 0 ≤ n * v := Int.mul_nonneg some_.le pos
    have lower : n * (10 * v) = 10 * (n * v) := by ring
    have upper : n * (10 * v + 5) = 10 * (n * v) + 5 * n := by ring
    have shift : n * (T + 5) = T * n + 5 * n := by ring
    have one : n * (T + 1) = (T + 1) * n := Int.mul_comm _ _
    rw [lower, shift] at lowProduct
    rw [upper, one] at highProduct
    refine ⟨?_, fun tie => ?_⟩
    · rcases abs_cases (n * v - a) with ⟨is, _⟩ | ⟨is, _⟩ <;> rw [is] <;> omega
    · rw [abs_of_nonneg from_, abs_of_nonneg product]
      rcases abs_cases (n * v - a) with ⟨is, _⟩ | ⟨is, _⟩ <;> rw [is] at tie <;> omega
  rcases Int.le_total 0 a with up | down
  · exact positive a up
  · have mirror := (positive (-a) (by omega)).neg
    rw [Int.neg_mul, Int.neg_tdiv, round_neg, Int.neg_neg, Int.neg_neg] at mirror
    exact mirror

example : [255220058, 255220054, -255220055, -255220054, 0].map round =
    [25522006, 25522005, -25522006, -25522005, 0] := by decide

/-- Cut off a place further and cut off again is cut off once. -/
theorem cut_off (a n : Int) (some_ : 0 < n) : ((a * 10).tdiv n).tdiv 10 = a.tdiv n := by
  have positive (a : Int) (from_ : 0 ≤ a) : ((a * 10).tdiv n).tdiv 10 = a.tdiv n := by
    have up : 0 ≤ a * 10 := by omega
    rw [Int.tdiv_eq_ediv_of_nonneg up, Int.tdiv_eq_ediv_of_nonneg (Int.ediv_nonneg up some_.le),
      Int.tdiv_eq_ediv_of_nonneg from_, Int.ediv_ediv_of_nonneg some_.le,
      Int.mul_ediv_mul_of_pos_left _ _ (by decide)]
  rcases Int.le_total 0 a with up | down
  · exact positive a up
  · have mirror := positive (-a) (by omega)
    rw [Int.neg_mul, Int.neg_tdiv, Int.neg_tdiv, Int.neg_tdiv] at mirror
    exact Int.neg_inj.mp mirror

/-! ### Room -/

/-- An i128 holds `x / n`, cut off. -/
def Room (x n : Int) : Prop := -(maxWide + 2) * n < x ∧ x < (maxWide + 1) * n

theorem tdiv_le_iff (x n m : Int) (some_ : 0 < n) (whole : 0 ≤ m) : x.tdiv n ≤ m ↔ x < (m + 1) * n := by
  rcases Int.le_total 0 x with up | down
  · rw [Int.tdiv_eq_ediv_of_nonneg up, ← Int.lt_add_one_iff, Int.ediv_lt_iff_lt_mul some_]
  · have negative := Int.tdiv_nonneg (by omega : 0 ≤ -x) some_.le
    rw [Int.neg_tdiv] at negative
    have product := Int.mul_pos (by omega : 0 < m + 1) some_
    omega

theorem le_tdiv_iff (x n m : Int) (some_ : 0 < n) (whole : 0 ≤ m) : -m ≤ x.tdiv n ↔ -(m + 1) * n < x := by
  have mirror := tdiv_le_iff (-x) n m some_ whole
  rw [Int.neg_tdiv] at mirror
  rw [Int.neg_mul]
  omega

theorem wide_tdiv (x n : Int) (some_ : 0 < n) : Wide (x.tdiv n) ↔ Room x n := by
  have low := le_tdiv_iff x n (maxWide + 1) some_ (by decide)
  have high := tdiv_le_iff x n maxWide some_ (by decide)
  have same : -(maxWide + 1) = -maxWide - 1 := by omega
  rw [same] at low
  exact and_congr low high

theorem abs_tdiv_lt (x n b : Int) (some_ : 0 < n) (more : 0 < b) : |x.tdiv n| < b ↔ |x| < b * n := by
  have low := le_tdiv_iff x n (b - 1) some_ (by omega)
  have high := tdiv_le_iff x n (b - 1) some_ (by omega)
  rw [Int.sub_add_cancel] at low high
  rw [Int.neg_mul] at low
  rw [abs_lt, abs_lt]
  omega

/-- The whole part's share never outgrows the quotient. -/
theorem wide_share (sum n ten : Int) (some_ : 0 < n) (power : 0 ≤ ten)
    (wide : Wide ((sum * ten).tdiv n)) : Wide (sum.tdiv n * ten) := by
  have apart := tdiv_apart sum n ten some_ power
  simp only [Wide, maxWide] at wide ⊢
  rcases Int.le_total 0 sum with up | down
  · have whole := Int.mul_nonneg (Int.tdiv_nonneg up some_.le) power
    have rest := Int.tdiv_nonneg (Int.mul_nonneg (Int.tmod_nonneg n up) power) some_.le
    omega
  · have whole := Int.mul_nonneg (Int.tdiv_nonneg (by omega : 0 ≤ -sum) some_.le) power
    have rest := Int.tdiv_nonneg (Int.mul_nonneg (Int.tmod_nonneg n (by omega : 0 ≤ -sum)) power)
      some_.le
    rw [Int.neg_tdiv, Int.neg_mul] at whole
    rw [Int.neg_tmod, Int.neg_mul, Int.neg_tdiv] at rest
    omega

/-- A view's average is the quotient a place further, where an i128 holds it. -/
theorem avgOf_spec (t : Decimal) (sum n : Int) (some_ : 0 < n) (places : Nat)
    (is : (min (t.scale + 4) 38 - t.scale + 1).toNat = places) :
    (Room (sum * 10 ^ places) n ∧ avgOf t sum n = some (if t.precision ≤ 34
      then round ((sum * 10 ^ places).tdiv n) else ((sum * 10 ^ places).tdiv n).tdiv 10)) ∨
    (¬ Room (sum * 10 ^ places) n ∧ avgOf t sum n = none) := by
  have power : (0 : Int) ≤ 10 ^ places := (Int.pow_pos (by decide)).le
  have apart := tdiv_apart sum n (10 ^ places) some_ power
  rw [← wide_tdiv _ n some_]
  simp only [avgOf, is]
  by_cases wide : Wide ((sum * 10 ^ places).tdiv n)
  · have share := wide_share sum n (10 ^ places) some_ power wide
    left
    rw [checked, if_pos share]
    simp only [apart]
    rw [checked, if_pos wide]
    exact ⟨wide, rfl⟩
  · right
    refine ⟨wide, ?_⟩
    rw [checked]
    split
    · rfl
    · rename_i q taken
      split at taken
      · cases taken
        rw [apart, checked, if_neg wide]
      · cases taken

/-! ### The view's average and the query's -/

/-- The places past the values' own that an average has. -/
def places (t : Decimal) : Nat := (min 38 (t.scale + 4) - t.scale).toNat

/-- The exact quotient rounded half away from zero at four places more, or cut off for wider values. -/
def Exact (t : Decimal) (sum n v : Int) : Prop :=
  if t.precision ≤ 24 then HalfAway (sum * 10 ^ 4) n v else v = (sum * 10 ^ places t).tdiv n

/-- The sum has room for five places more; or, for wider values, room for the average's places, the average within
its digits, exactly when the average has room for one place more. -/
def Agrees (t : Decimal) (sum n : Int) : Prop :=
  if t.precision ≤ 24 then Wide (sum * 10 ^ 5)
  else
    Wide (sum * 10 ^ places t) ∧ |sum * 10 ^ places t| < 10 ^ min 38 (t.precision + 4) * n ↔
      Room (sum * 10 ^ (places t + 1)) n

theorem average_eq (scale : Int) (to_ : Decimal) (sum n : Int) (some_ : 0 < n) (k : Nat)
    (is : (to_.scale - scale).toNat = k) :
    (Wide (sum * 10 ^ k) ∧ |sum * 10 ^ k| < 10 ^ to_.precision * n ∧
      average scale to_ sum n = some ((sum * 10 ^ k).tdiv n)) ∨
    (¬ (Wide (sum * 10 ^ k) ∧ |sum * 10 ^ k| < 10 ^ to_.precision * n) ∧
      average scale to_ sum n = none) := by
  have fits := abs_tdiv_lt (sum * 10 ^ k) n (10 ^ to_.precision) some_ (Int.pow_pos (by decide))
  rw [← fits]
  simp only [average, is]
  by_cases wide : Wide (sum * 10 ^ k)
  · rw [checked, if_pos wide]
    simp only
    by_cases within : |(sum * 10 ^ k).tdiv n| < 10 ^ to_.precision
    · exact .inl ⟨wide, within, if_pos within⟩
    · exact .inr ⟨fun both => within both.2, if_neg within⟩
  · rw [checked, if_neg wide]
    exact .inr ⟨fun both => wide both.1, rfl⟩

theorem abs_sum_le (values : List Int) (most : Int) (each : ∀ v ∈ values, |v| ≤ most) :
    |values.sum| ≤ most * values.length := by
  induction values with
  | nil => simp
  | cons v rest ih =>
    have first := each v (.head _)
    have others := ih fun u member => each u (.tail _ member)
    have triangle := abs_add_le v rest.sum
    have product : most * (((v :: rest).length : Nat) : Int) = most * (rest.length : Int) + most := by
      rw [List.length_cons, Int.natCast_add, Int.mul_add]
      omega
    rw [List.sum_cons, product]
    omega

theorem agrees_narrow (t : Decimal) (sum n : Int) (some_ : 0 < n) (narrow : t.precision ≤ 24)
    (scale : t.scale ≤ t.precision) (small : |sum| < 10 ^ t.precision * n) :
    (avgOf (sumType t) sum n = avg t sum n ∧ ∀ v, avgOf (sumType t) sum n = some v → Exact t sum n v) ↔
      Agrees t sum n := by
  have room : |sum * 10 ^ 5| < 10 ^ (t.precision + 5) * n := by
    have shift : (10 : Int) ^ (t.precision + 5) * n = 10 ^ t.precision * n * 10 ^ 5 := by ring
    have power : |(10 : Int) ^ 5| = 10 ^ 5 := by decide
    rw [abs_mul, shift, power]
    omega
  have most : (10 : Int) ^ (t.precision + 5) ≤ 10 ^ 29 := pow_le_pow_right₀ (by decide) (by omega)
  have roomy : Room (sum * 10 ^ 5) n := by
    have product := Int.mul_le_mul_of_nonneg_right most some_.le
    rw [abs_lt] at room
    simp only [Room, maxWide]
    omega
  have exact : HalfAway (sum * 10 ^ 4) n (round ((sum * 10 ^ 5).tdiv n)) := by
    have half := round_halfAway (sum * 10 ^ 4) n some_
    rw [Int.mul_assoc] at half
    exact half
  rcases avgOf_spec (sumType t) sum n some_ 5 (by simp only [sumType]; omega) with
    ⟨-, made⟩ | ⟨no, -⟩
  · have plain : (sumType t).precision ≤ 34 := by
      simp only [sumType]
      omega
    rw [if_pos plain] at made
    have wide := average_eq t.scale ⟨(returnType t).precision + 1, (returnType t).scale + 1⟩ sum n some_ 5
      (by simp only [returnType]; omega)
    have digits : (returnType t).precision + 1 = t.precision + 5 := by
      simp only [returnType]
      omega
    simp only [digits] at wide
    simp only [made, avg, rounded, if_pos narrow, digits, Exact, Agrees]
    rcases wide with ⟨wide, -, is⟩ | ⟨not, is⟩
    · rw [is]
      refine ⟨fun _ => wide, fun _ => ⟨rfl, fun v same => ?_⟩⟩
      cases same
      exact exact
    · rw [is]
      exact ⟨fun both => absurd both.1 (by simp), fun wide => absurd ⟨wide, room⟩ not⟩
  · exact absurd roomy no

theorem agrees_wider (t : Decimal) (sum n : Int) (some_ : 0 < n) (wider : ¬ t.precision ≤ 24)
    (scale : t.scale ≤ 38) :
    (avgOf (sumType t) sum n = avg t sum n ∧ ∀ v, avgOf (sumType t) sum n = some v → Exact t sum n v) ↔
      Agrees t sum n := by
  have cut := cut_off (sum * 10 ^ places t) n some_
  rw [Int.mul_assoc, ← Int.pow_succ] at cut
  have long : ¬ (sumType t).precision ≤ 34 := by
    simp only [sumType]
    omega
  have finished := avgOf_spec (sumType t) sum n some_ (places t + 1) (by
    simp only [sumType, places]
    omega)
  rw [if_neg long, cut] at finished
  have worked := average_eq t.scale (returnType t) sum n some_ (places t) rfl
  have digits : (returnType t).precision = min 38 (t.precision + 4) := rfl
  rw [digits] at worked
  simp only [avg, rounded, if_neg wider, Exact, Agrees]
  rcases finished with ⟨room, is⟩ | ⟨tight, is⟩
  · rw [is]
    rcases worked with ⟨wide, within, same⟩ | ⟨no, other⟩
    · rw [same]
      exact ⟨fun _ => ⟨fun _ => room, fun _ => ⟨wide, within⟩⟩,
        fun _ => ⟨rfl, fun v made => (Option.some.inj made).symm⟩⟩
    · rw [other]
      exact ⟨fun both => absurd both.1 (by simp), fun iff => absurd (iff.mpr room) no⟩
  · rw [is]
    rcases worked with ⟨wide, within, same⟩ | ⟨no, other⟩
    · rw [same]
      exact ⟨fun both => absurd both.1 (by simp), fun iff => absurd (iff.mp ⟨wide, within⟩) tight⟩
    · rw [other]
      exact ⟨fun _ => ⟨fun both => absurd both no, fun room => absurd room tight⟩,
        fun _ => ⟨rfl, nofun⟩⟩

/-- A view's finished average is the query's, or both overflow, exactly where the two have the same room. -/
theorem avgOf_agrees_iff (t : Decimal) (values : List Int) (precision : t.precision ≤ 38)
    (scale : t.scale ≤ t.precision) (each : ∀ v ∈ values, |v| < 10 ^ t.precision) (some_ : values ≠ []) :
    (avgOf (sumType t) values.sum values.length = avg t values.sum values.length ∧
      ∀ v, avgOf (sumType t) values.sum values.length = some v →
        Exact t values.sum values.length v) ↔ Agrees t values.sum values.length := by
  have positive : (0 : Int) < values.length := by
    have long := List.length_pos_iff.mpr some_
    omega
  by_cases narrow : t.precision ≤ 24
  · have bound := abs_sum_le values (10 ^ t.precision - 1) fun v member => by
      have less := each v member
      omega
    rw [Int.sub_mul, Int.one_mul] at bound
    exact agrees_narrow t values.sum values.length positive narrow scale (by omega)
  · exact agrees_wider t values.sum values.length positive narrow (by omega)

theorem avgOf_agrees_cents :
    (avgOf (sumType ⟨10, 2⟩) [1050, -725, 33].sum 3 = avg ⟨10, 2⟩ [1050, -725, 33].sum 3 ∧
      ∀ v, avgOf (sumType ⟨10, 2⟩) [1050, -725, 33].sum 3 = some v →
        Exact ⟨10, 2⟩ [1050, -725, 33].sum 3 v) ↔ Agrees ⟨10, 2⟩ [1050, -725, 33].sum 3 :=
  avgOf_agrees_iff ⟨10, 2⟩ [1050, -725, 33] (by decide) (by decide) (by decide) (by decide)

/-- One value of 34 digits: the query's average is it, the view's an overflow. -/
theorem wide_overflows :
    ¬ ∀ (t : Decimal) (values : List Int), t.precision ≤ 38 → t.scale ≤ t.precision →
      (∀ v ∈ values, |v| < 10 ^ t.precision) → values ≠ [] →
      avgOf (sumType t) values.sum values.length = avg t values.sum values.length := by
  intro every
  have same := every ⟨38, 0⟩ [5000000000000000000000000000000000] (by decide) (by decide) (by decide)
    (by decide)
  revert same
  decide +kernel

end Pondra.Avg
