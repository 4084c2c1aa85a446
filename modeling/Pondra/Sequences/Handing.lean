import Mathlib.Algebra.GroupWithZero.Nat
import Pondra.Base.Traverse
import Pondra.Sequences.Nodes

set_option autoImplicit false

/- The values a node hands out of a block, and when a step of it goes over i64. -/

namespace Pondra.Sequences

open Counters Traverse Words

namespace Block

variable {checked : Bool} {b b' : Block} {k : UInt64} {out : List Int64}

/-- The value `i` steps on, as i64 arithmetic wraps it. -/
def at' (b : Block) (i : Nat) : Int64 := Int64.ofInt (b.next.toInt + i * b.step.toInt)

theorem mul_add_eq {i : Nat} (small : i < 2 ^ 63) {v : Int64}
    (done : (mul checked (Int64.ofNat i) b.step).bind (add checked b.next) = some v) : v = b.at' i := by
  obtain ⟨far, one, sum⟩ := Option.bind_eq_some_iff.mp done
  rw [arith_eq_ofInt sum, arith_eq_ofInt one, Int64.toInt_ofNat_of_lt small, ofInt_add_toInt]
  rfl

/-- Whatever a build hands out is the block's next values, and what is left of it. -/
theorem handOut_eq (small : k.toNat < 2 ^ 63) (done : b.handOut checked k = some (out, b')) :
    out = (List.range k.toNat).map b.at' ∧
      b' = { b with left := b.left - k, next := b.at' k.toNat } := by
  obtain ⟨vs, values, rest⟩ := Option.bind_eq_some_iff.mp done
  obtain ⟨far, product, same⟩ := Option.map_eq_some_iff.mp rest
  cases same
  have count : k.toInt64.toInt.toNat = k.toNat := by
    rw [toInt_small small, Int.toNat_natCast]
  unfold Block.values at values
  rw [count] at values
  refine ⟨mapM_eq (fun i inside v is => mul_add_eq ?_ is) values, ?_⟩
  · have := List.mem_range.mp inside
    omega
  · have next : b.next + far = b.at' k.toNat := by
      rw [arith_eq_ofInt product, toInt_small small, at', Int64.ofInt_add, Int64.ofInt_toInt]
    rw [next]

/-- No step goes over exactly when the product of the count and the step fits, the values being in
i64 anyway. -/
theorem handOut_checked (small : k.toNat < 2 ^ 63)
    (fits : ∀ i < k.toNat, Fits (b.next.toInt + i * b.step.toInt)) :
    (b.handOut true k).isSome ↔ Fits (k.toNat * b.step.toInt) := by
  constructor
  · intro done
    obtain ⟨⟨out, b'⟩, is⟩ := Option.isSome_iff_exists.mp done
    obtain ⟨vs, values, rest⟩ := Option.bind_eq_some_iff.mp is
    obtain ⟨far, product, _⟩ := Option.map_eq_some_iff.mp rest
    have isSome := (arith_checked_isSome _).mp (Option.isSome_of_mem product)
    rwa [toInt_small small] at isSome
  · intro whole
    have parts : ∀ i < k.toNat, Fits (i * b.step.toInt) := by
      intro i below
      have less : (i : Int) ≤ k.toNat := by omega
      rcases Int.le_total 0 b.step.toInt with up | down
      · have first := Int.mul_nonneg (Int.natCast_nonneg i) up
        have second := Int.mul_le_mul_of_nonneg_right less up
        unfold Fits at *
        omega
      · have first := Int.mul_nonpos_of_nonneg_of_nonpos (Int.natCast_nonneg i) down
        have second := Int.mul_le_mul_of_nonpos_right less down
        unfold Fits at *
        omega
    have count : k.toInt64.toInt.toNat = k.toNat := by
      rw [toInt_small small, Int.toNat_natCast]
    have values : b.values true k = some ((List.range k.toNat).map b.at') := by
      unfold Block.values
      rw [count]
      apply mapM_some
      intro i inside
      have below := List.mem_range.mp inside
      have exact_ : (Int64.ofNat i).toInt = i := Int64.toInt_ofNat_of_lt (by omega)
      rw [mul, exact_, (parts i below).arith, Option.bind_some, add, (parts i below).toInt_ofInt,
        (fits i below).arith]
      rfl
    have far : mul true k.toInt64 b.step = some (Int64.ofInt (k.toNat * b.step.toInt)) := by
      rw [mul, toInt_small small, whole.arith]
    rw [handOut, values, Option.bind_some, far]
    rfl

/-- What a build hands out of a block whose values are all in i64: the next of them, in order. -/
theorem handOut_stretch {c : Counter} (step : b.step.toInt = c.step)
    (fits : ∀ v ∈ c.stretch b.next.toInt b.left.toNat, Fits v) (small : k.toNat < 2 ^ 63)
    (within : k.toNat ≤ b.left.toNat) (done : b.handOut checked k = some (out, b')) :
    out.map Int64.toInt = c.stretch b.next.toInt k.toNat ∧ b'.version = b.version ∧
      b'.step = b.step ∧ b'.left.toNat = b.left.toNat - k.toNat ∧
      c.stretch b.next.toInt b.left.toNat =
        out.map Int64.toInt ++ c.stretch b'.next.toInt b'.left.toNat := by
  obtain ⟨rfl, rfl⟩ := b.handOut_eq small done
  have left : (b.left - k).toNat = b.left.toNat - k.toNat :=
    UInt64.toNat_sub_of_le _ _ (UInt64.le_iff_toNat_le.mpr within)
  have exact_ : ∀ i < b.left.toNat, (b.at' i).toInt = b.next.toInt + i * c.step := by
    intro i below
    rw [at', step]
    exact (fits _ (List.mem_map_of_mem (List.mem_range.mpr below))).toInt_ofInt
  have front : ((List.range k.toNat).map b.at').map Int64.toInt = c.stretch b.next.toInt k.toNat := by
    rw [List.map_map]
    apply List.map_congr_left
    intro i inside
    have below := List.mem_range.mp inside
    exact exact_ i (by omega)
  have back : c.stretch (b.at' k.toNat).toInt (b.left - k).toNat =
      c.stretch (b.next.toInt + k.toNat * c.step) (b.left.toNat - k.toNat) := by
    rw [left]
    by_cases more : k.toNat < b.left.toNat
    · rw [exact_ _ more]
    · have none_ : b.left.toNat - k.toNat = 0 := by omega
      rw [none_]
      rfl
  refine ⟨front, rfl, rfl, left, ?_⟩
  rw [front]
  show _ = _ ++ c.stretch (b.at' k.toNat).toInt (b.left - k).toNat
  rw [back, ← c.stretch_split, Nat.add_sub_cancel' within]

/-- A block handed out in parts. -/
def handOuts (checked : Bool) : Block → List UInt64 → Option (List Int64 × Block)
  | b, [] => some ([], b)
  | b, k :: ks => (b.handOut checked k).bind fun one =>
    (handOuts checked one.2 ks).map fun rest => (one.1 ++ rest.1, rest.2)

theorem handOuts_values {c : Counter} {ks : List UInt64} (step : b.step.toInt = c.step)
    (fits : ∀ v ∈ c.stretch b.next.toInt b.left.toNat, Fits v) (small : ∀ k ∈ ks, k.toNat < 2 ^ 63)
    (within : (ks.map UInt64.toNat).sum ≤ b.left.toNat)
    (done : b.handOuts checked ks = some (out, b')) :
    out.map Int64.toInt = c.stretch b.next.toInt (ks.map UInt64.toNat).sum := by
  induction ks generalizing b out with
  | nil =>
    cases done
    rfl
  | cons k ks ih =>
    rw [List.map_cons, List.sum_cons] at within
    obtain ⟨⟨now, b₁⟩, first, rest⟩ := Option.bind_eq_some_iff.mp done
    obtain ⟨⟨later, b₂⟩, others, same⟩ := Option.map_eq_some_iff.mp rest
    cases same
    obtain ⟨front, _, step', left, joined⟩ :=
      b.handOut_stretch step fits (small k List.mem_cons_self) (by omega) first
    have more := ih (step' ▸ step) (fun v inside => fits v (joined ▸ List.mem_append_right _ inside))
      (fun k inside => small k (List.mem_cons_of_mem _ inside)) (by omega) others
    have tail : (ks.map UInt64.toNat).sum ≤ b₁.left.toNat := by omega
    have taken : c.stretch b.next.toInt (k.toNat + (ks.map UInt64.toNat).sum) =
        now.map Int64.toInt ++ c.stretch b₁.next.toInt (ks.map UInt64.toNat).sum := by
      obtain ⟨more, total⟩ := Nat.exists_eq_add_of_le tail
      have whole : b.left.toNat = k.toNat + (ks.map UInt64.toNat).sum + more := by omega
      rw [whole, total, c.stretch_split _ (k.toNat + (ks.map UInt64.toNat).sum) more,
        c.stretch_split _ (ks.map UInt64.toNat).sum more, ← List.append_assoc] at joined
      apply (List.append_inj joined ?_).1
      simp only [List.length_append, front, Counter.stretch, List.length_map, List.length_range]
    rw [List.map_append, more, List.map_cons, List.sum_cons, taken]

/-- The parts are handed out with no step going over exactly when each count times the step fits. -/
theorem handOuts_checked {c : Counter} {ks : List UInt64} (step : b.step.toInt = c.step)
    (fits : ∀ v ∈ c.stretch b.next.toInt b.left.toNat, Fits v) (small : ∀ k ∈ ks, k.toNat < 2 ^ 63)
    (within : (ks.map UInt64.toNat).sum ≤ b.left.toNat) :
    (b.handOuts true ks).isSome ↔ ∀ k ∈ ks, Fits (k.toNat * b.step.toInt) := by
  induction ks generalizing b with
  | nil => simp [handOuts]
  | cons k ks ih =>
    rw [List.map_cons, List.sum_cons] at within
    have one := b.handOut_checked (small k List.mem_cons_self) (by
      intro i below
      rw [step]
      exact fits _ (List.mem_map_of_mem (List.mem_range.mpr (by omega))))
    rw [handOuts, List.forall_mem_cons, ← one]
    cases first : b.handOut true k with
    | none => simp
    | some result =>
      obtain ⟨now, b₁⟩ := result
      obtain ⟨_, _, step', left, joined⟩ :=
        b.handOut_stretch step fits (small k List.mem_cons_self) (by omega) first
      have more := ih (b := b₁) (step' ▸ step)
        (fun v inside => fits v (joined ▸ List.mem_append_right _ inside))
        (fun k inside => small k (List.mem_cons_of_mem _ inside)) (by omega)
      rw [step'] at more
      simpa using more

end Block

end Pondra.Sequences
