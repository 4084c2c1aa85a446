import Mathlib.Data.List.Basic
import Mathlib.Data.List.Pairwise

set_option autoImplicit false

namespace Ladders

variable {α : Type} (seq : α → Nat) (prev : α → Option Nat)

/-- Each rung is above the one before it, and stands on exactly the one it names, if it names one. -/
def Climbs : Nat → List α → Prop
  | _, [] => True
  | foot, x :: xs => foot < seq x ∧ (∀ p, prev x = some p → p = foot) ∧ Climbs (seq x) xs

/-- Where a climb ends. -/
def top : Nat → List α → Nat
  | foot, [] => foot
  | _, x :: xs => top (seq x) xs

@[simp] theorem top_nil (foot : Nat) : top seq foot [] = foot := rfl

@[simp] theorem top_append (foot : Nat) (before after : List α) :
    top seq foot (before ++ after) = top seq (top seq foot before) after := by
  induction before generalizing foot with
  | nil => rfl
  | cons x xs ih => exact ih (seq x)

theorem climbs_append (foot : Nat) (before after : List α) :
    Climbs seq prev foot (before ++ after) ↔
      Climbs seq prev foot before ∧ Climbs seq prev (top seq foot before) after := by
  induction before generalizing foot with
  | nil => simp [Climbs]
  | cons x xs ih => simp only [List.cons_append, Climbs, top, ih, and_assoc]

theorem top_eq (foot : Nat) (rungs : List α) :
    top seq foot rungs = (rungs.getLast?.map seq).getD foot := by
  induction rungs generalizing foot with
  | nil => rfl
  | cons x xs ih =>
    rw [top, ih]
    cases xs with
    | nil => rfl
    | cons y ys => rw [List.getLast?_cons_cons, List.getLast?_cons]; rfl

variable {seq prev}

/-- Every rung is above the foot, and they rise strictly. -/
theorem Climbs.rises {foot : Nat} {rungs : List α} (climbs : Climbs seq prev foot rungs) :
    (∀ x ∈ rungs, foot < seq x) ∧ (rungs.map seq).Pairwise (· < ·) := by
  induction rungs generalizing foot with
  | nil => exact ⟨fun _ none => absurd none List.not_mem_nil, List.Pairwise.nil⟩
  | cons x xs ih =>
    obtain ⟨above, _, rest⟩ := climbs
    obtain ⟨beyond, rises⟩ := ih rest
    refine ⟨?_, ?_⟩
    · intro y inside
      rcases List.mem_cons.mp inside with rfl | inside
      · exact above
      · exact Nat.lt_trans above (beyond y inside)
    · rw [List.map_cons, List.pairwise_cons]
      refine ⟨?_, rises⟩
      intro n inside
      obtain ⟨y, held, rfl⟩ := List.mem_map.mp inside
      exact beyond y held

/-- A climb ends at or above its foot and every rung. -/
theorem Climbs.under {foot : Nat} {rungs : List α} (climbs : Climbs seq prev foot rungs) :
    foot ≤ top seq foot rungs ∧ ∀ x ∈ rungs, seq x ≤ top seq foot rungs := by
  induction rungs generalizing foot with
  | nil => exact ⟨Nat.le_refl _, fun _ none => absurd none List.not_mem_nil⟩
  | cons x xs ih =>
    obtain ⟨above, _, rest⟩ := climbs
    obtain ⟨low, all⟩ := ih rest
    refine ⟨Nat.le_trans (Nat.le_of_lt above) low, ?_⟩
    intro y inside
    rcases List.mem_cons.mp inside with rfl | inside
    · exact low
    · exact all y inside

/-- No rung is taken twice. -/
theorem Climbs.once {foot : Nat} {rungs : List α} (climbs : Climbs seq prev foot rungs) (n : Nat) :
    (rungs.map seq).count n ≤ 1 :=
  List.nodup_iff_count.mp
    (climbs.rises.2.imp fun {_ _} less => Nat.ne_of_lt less) n

/-- What climbs from a place in a chain, on rungs of the chain, is the chain from there on. -/
theorem Climbs.chained {rung : Nat → α} {start : Nat → Nat} {n : Nat}
    (links : ∀ j < n, seq (rung j) = start (j + 1) ∧ prev (rung j) = some (start j))
    (rises : ∀ i j, i < j → j ≤ n → start i < start j) {m : Nat} (within : m ≤ n)
    {rungs : List α} (climbs : Climbs seq prev (start m) rungs)
    (among : ∀ x ∈ rungs, ∃ j < n, x = rung j) :
    m + rungs.length ≤ n ∧ rungs = (List.range' m rungs.length).map rung ∧
      top seq (start m) rungs = start (m + rungs.length) := by
  induction rungs generalizing m with
  | nil => exact ⟨within, rfl, rfl⟩
  | cons x xs ih =>
    obtain ⟨_, stands, rest⟩ := climbs
    obtain ⟨j, below, rfl⟩ := among x List.mem_cons_self
    obtain ⟨ends, before⟩ := links j below
    have same : j = m := by
      have here := stands (start j) before
      rcases Nat.lt_trichotomy j m with less | same | more
      · exact absurd (rises j m less within) (by omega)
      · exact same
      · exact absurd (rises m j more (Nat.le_of_lt below)) (by omega)
    subst same
    rw [ends] at rest
    obtain ⟨room, whole, high⟩ := ih below rest fun y inside =>
      among y (List.mem_cons_of_mem _ inside)
    have count : j + (rung j :: xs).length = j + 1 + xs.length := by
      rw [List.length_cons]
      omega
    refine ⟨by omega, ?_, ?_⟩
    · rw [List.length_cons, List.range'_succ, List.map_cons, ← whole]
    · rw [count, top, ends]
      exact high

end Ladders
