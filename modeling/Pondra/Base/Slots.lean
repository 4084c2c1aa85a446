import Mathlib.Data.List.TakeWhile
import Mathlib.Order.Lattice

set_option autoImplicit false

/-! ### The slots between rising cuts -/

namespace Slots

variable {ν : Type} [LinearOrder ν]

/-- A value is in slot `i`: at or after the cut before it, and before its own cut. -/
def In (cuts : List ν) (i : Nat) (v : ν) : Prop :=
  (∀ c, 0 < i → cuts[i - 1]? = some c → c ≤ v) ∧ ∀ c, cuts[i]? = some c → v < c

/-- The slot of a value: how many cuts are at or before it. -/
def slot (cuts : List ν) (v : ν) : Nat := (cuts.takeWhile fun c => decide (c ≤ v)).length

theorem slot_le (cuts : List ν) (v : ν) : slot cuts v ≤ cuts.length :=
  (List.takeWhile_sublist _).length_le

theorem in_cons (c : ν) (rest : List ν) (v : ν) (past : c ≤ v) (i : Nat) :
    In (c :: rest) (i + 1) v ↔ In rest i v := by
  unfold In
  apply and_congr
  · cases i with
    | zero =>
      constructor
      · intro _ d none
        omega
      · intro _ d _ here
        rw [Nat.zero_add, Nat.sub_self, List.getElem?_cons_zero] at here
        exact Option.some.inj here ▸ past
    | succ i => simp
  · simp

/-- Every value is in one slot. -/
theorem in_iff (cuts : List ν) (rising : cuts.Pairwise (· < ·)) (v : ν) (i : Nat)
    (within : i ≤ cuts.length) : In cuts i v ↔ i = slot cuts v := by
  induction cuts generalizing i with
  | nil =>
    have first : i = 0 := by simpa using within
    subst first
    simp [In, slot]
  | cons c rest ih =>
    rw [List.pairwise_cons] at rising
    by_cases past : c ≤ v
    · have more : slot (c :: rest) v = slot rest v + 1 := by simp [slot, past]
      rw [more]
      cases i with
      | zero =>
        constructor
        · intro here
          exact absurd (here.2 c rfl) (not_lt.mpr past)
        · intro none
          omega
      | succ i =>
        rw [in_cons c rest v past, ih rising.2 i (by simpa using within)]
        omega
    · have before : v < c := lt_of_not_ge past
      have first : slot (c :: rest) v = 0 := by simp [slot, past]
      rw [first]
      cases i with
      | zero =>
        constructor
        · intro _
          rfl
        · intro _
          constructor
          · intro d none
            omega
          · intro d here
            rw [List.getElem?_cons_zero] at here
            exact Option.some.inj here ▸ before
      | succ i =>
        constructor
        · intro here
          have short : i < (c :: rest).length := within
          have low := here.1 (c :: rest)[i] (Nat.succ_pos i)
            (List.getElem?_eq_getElem short)
          have above : c ≤ (c :: rest)[i] := by
            cases i with
            | zero => exact le_refl c
            | succ i => exact le_of_lt (rising.1 _ (List.getElem_mem _))
          exact absurd (le_trans above low) past
        · intro none
          omega

/-- What holds a value between its bounds meets the value's slot. -/
theorem meets {cuts : List ν} {i : Nat} {v lo hi : ν} (here : In cuts i v) (low : lo ≤ v)
    (high : v ≤ hi) : (∀ c, 0 < i → cuts[i - 1]? = some c → c ≤ hi) ∧
      ∀ c, cuts[i]? = some c → lo < c :=
  ⟨fun c later at' => le_trans (here.1 c later at') high, fun c at' =>
    lt_of_le_of_lt low (here.2 c at')⟩

end Slots
