import Mathlib.Algebra.Order.Ring.Int

set_option autoImplicit false

/- Signed words of 64 bits, whose sums and products may not fit. -/
namespace Words

/-- A whole number that an i64 holds. -/
def Fits (x : Int) : Prop := -2 ^ 63 ≤ x ∧ x < 2 ^ 63

instance (x : Int) : Decidable (Fits x) := inferInstanceAs (Decidable (_ ∧ _))

theorem fits_toInt (x : Int64) : Fits x.toInt := ⟨x.le_toInt, x.toInt_lt⟩

theorem Fits.toInt_ofInt {x : Int} (fits : Fits x) : (Int64.ofInt x).toInt = x :=
  Int64.toInt_ofInt_of_le fits.1 fits.2

theorem Fits.between {x a b : Int} (low : Fits a) (high : Fits b) (above : a ≤ x) (below : x ≤ b) :
    Fits x := by
  unfold Fits at *
  omega

/-- An operation's exact result as an i64: a build with overflow checks stops where it does not
fit, one without them goes on with it wrapped round. -/
def arith (checked : Bool) (exact : Int) : Option Int64 :=
  if checked && !decide (Fits exact) then none else some (Int64.ofInt exact)

def add (checked : Bool) (a b : Int64) : Option Int64 := arith checked (a.toInt + b.toInt)

def mul (checked : Bool) (a b : Int64) : Option Int64 := arith checked (a.toInt * b.toInt)

def checkedAdd (a b : Int64) : Option Int64 := arith true (a.toInt + b.toInt)

/-- An operation's exact result as a usize, in either build. -/
def counted (checked : Bool) (exact : Int) : Option Nat :=
  if checked && !decide (0 ≤ exact ∧ exact < 2 ^ 64) then none else some (exact % 2 ^ 64).toNat

theorem counted_eq {n : Nat} (fits : n < 2 ^ 64) (checked : Bool) : counted checked n = some n := by
  have within : 0 ≤ (n : Int) ∧ (n : Int) < 2 ^ 64 := by omega
  have same : ((n : Int) % 2 ^ 64).toNat = n := by omega
  rw [counted, decide_eq_true within, Bool.not_true, Bool.and_false, if_neg Bool.false_ne_true, same]

theorem counted_large {n : Nat} (large : 2 ^ 64 ≤ n) : counted true n = none := by
  have beyond : ¬ (0 ≤ (n : Int) ∧ (n : Int) < 2 ^ 64) := by omega
  rw [counted, decide_eq_false beyond, Bool.not_false, Bool.and_true, if_pos rfl]

theorem Fits.arith {exact : Int} (fits : Fits exact) (checked : Bool) :
    arith checked exact = some (Int64.ofInt exact) := by
  simp [Words.arith, fits]

theorem arith_checked_isSome (exact : Int) : (arith true exact).isSome ↔ Fits exact := by
  by_cases fits : Fits exact <;> simp [arith, fits]

theorem arith_eq_ofInt {checked : Bool} {exact : Int} {x : Int64}
    (done : arith checked exact = some x) : x = Int64.ofInt exact := by
  unfold arith at done
  split at done
  · cases done
  · exact (Option.some.inj done).symm

/-- A u64 below 2^63 is the i64 of the same bits. -/
theorem toInt_small {k : UInt64} (small : k.toNat < 2 ^ 63) : k.toInt64.toInt = k.toNat := by
  have same : k.toInt64 = Int64.ofNat k.toNat := by
    rw [← UInt64.toInt64_ofNat', UInt64.ofNat_toNat]
  rw [same, Int64.toInt_ofNat_of_lt small]

/-- Sums and products wrapped at every step are the exact one wrapped once. -/
theorem ofInt_add_toInt (a b : Int) :
    Int64.ofInt (a + (Int64.ofInt b).toInt) = Int64.ofInt (a + b) := by
  rw [Int64.ofInt_add, Int64.ofInt_toInt, ← Int64.ofInt_add]

theorem checkedAdd_eq_some {a b x : Int64} :
    checkedAdd a b = some x ↔ x.toInt = a.toInt + b.toInt := by
  unfold checkedAdd
  constructor
  · intro done
    have fits := (arith_checked_isSome _).mp (Option.isSome_of_mem done)
    rw [arith_eq_ofInt done, fits.toInt_ofInt]
  · intro exact_
    have fits : Fits (a.toInt + b.toInt) := exact_ ▸ fits_toInt x
    rw [fits.arith, ← exact_, Int64.ofInt_toInt]

theorem checkedAdd_eq_none {a b : Int64} :
    checkedAdd a b = none ↔ ¬ Fits (a.toInt + b.toInt) := by
  rw [← arith_checked_isSome, Option.not_isSome_iff_eq_none]
  rfl

end Words
