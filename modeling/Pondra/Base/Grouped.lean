import Mathlib.Algebra.BigOperators.Group.List.Basic
import Mathlib.Data.List.Dedup

set_option autoImplicit false

namespace Grouping

variable {γ μ : Type} [DecidableEq γ] [AddCommMonoid μ]

/-- A group's values combined. -/
def combined (rows : List (γ × μ)) (g : γ) : μ :=
  ((rows.filter fun r => decide (r.1 = g)).map (·.2)).sum

/-- One row a group. -/
def grouped (rows : List (γ × μ)) : List (γ × μ) :=
  (rows.map (·.1)).dedup.map fun g => (g, combined rows g)

@[simp] theorem combined_nil (g : γ) : combined ([] : List (γ × μ)) g = 0 := rfl

theorem combined_cons (r : γ × μ) (rows : List (γ × μ)) (g : γ) :
    combined (r :: rows) g = (if r.1 = g then r.2 else 0) + combined rows g := by
  by_cases same : r.1 = g
  · simp [combined, same]
  · simp [combined, same]

theorem combined_append (before after : List (γ × μ)) (g : γ) :
    combined (before ++ after) g = combined before g + combined after g := by
  rw [combined, List.filter_append, List.map_append, List.sum_append, combined, combined]

theorem combined_absent (rows : List (γ × μ)) (g : γ) (absent : g ∉ rows.map (·.1)) :
    combined rows g = 0 := by
  have none : rows.filter (fun r => decide (r.1 = g)) = [] := by
    rw [List.filter_eq_nil_iff]
    intro r inside same
    exact absent (List.mem_map.mpr ⟨r, inside, of_decide_eq_true same⟩)
  rw [combined, none, List.map_nil, List.sum_nil]

/-- A list with one row a group has that row as the group's. -/
theorem combined_once (rows : List (γ × μ)) (once : (rows.map (·.1)).Nodup) (r : γ × μ)
    (inside : r ∈ rows) : combined rows r.1 = r.2 := by
  induction rows with
  | nil => cases inside
  | cons first rest ih =>
    rw [List.map_cons, List.nodup_cons] at once
    rw [combined_cons]
    rcases List.mem_cons.mp inside with rfl | inside
    · rw [if_pos rfl, combined_absent rest r.1 once.1, add_zero]
    · have other : first.1 ≠ r.1 := fun same => once.1 (same ▸ List.mem_map_of_mem inside)
      rw [if_neg other, zero_add, ih once.2 inside]

@[simp] theorem grouped_keys (rows : List (γ × μ)) :
    (grouped rows).map (·.1) = (rows.map (·.1)).dedup := by
  rw [grouped, List.map_map]
  exact List.map_id _

theorem grouped_nodup (rows : List (γ × μ)) : ((grouped rows).map (·.1)).Nodup := by
  rw [grouped_keys]
  exact List.nodup_dedup _

theorem mem_grouped_keys (rows : List (γ × μ)) (g : γ) :
    g ∈ (grouped rows).map (·.1) ↔ g ∈ rows.map (·.1) := by
  rw [grouped_keys, List.mem_dedup]

theorem mem_grouped (rows : List (γ × μ)) (r : γ × μ) :
    r ∈ grouped rows ↔ r.1 ∈ rows.map (·.1) ∧ r.2 = combined rows r.1 := by
  rw [grouped, List.mem_map]
  constructor
  · rintro ⟨g, inside, rfl⟩
    exact ⟨List.mem_dedup.mp inside, rfl⟩
  · rintro ⟨inside, is⟩
    exact ⟨r.1, List.mem_dedup.mpr inside, Prod.ext rfl is.symm⟩

/-- Grouping loses nothing: each group's row combines as its rows do. -/
@[simp] theorem combined_grouped (rows : List (γ × μ)) (g : γ) :
    combined (grouped rows) g = combined rows g := by
  by_cases inside : g ∈ rows.map (·.1)
  · obtain ⟨r, there, rfl⟩ := List.mem_map.mp ((mem_grouped_keys rows g).mpr inside)
    rw [combined_once _ (grouped_nodup rows) r there, ((mem_grouped rows r).mp there).2]
  · rw [combined_absent _ g inside,
      combined_absent _ g fun there => inside ((mem_grouped_keys rows g).mp there)]

/-- Each group's elements, one group after another, are the elements of these groups. -/
theorem flatMap_filter_perm {α : Type} (group : α → γ) (groups : List γ) (once : groups.Nodup)
    (l : List α) :
    (groups.flatMap fun g => l.filter fun a => decide (group a = g)).Perm
      (l.filter fun a => decide (group a ∈ groups)) := by
  induction groups with
  | nil => simp
  | cons g rest ih =>
    rw [List.nodup_cons] at once
    rw [List.flatMap_cons]
    have first : l.filter (fun a => decide (group a = g)) =
        (l.filter fun a => decide (group a ∈ g :: rest)).filter fun a => decide (group a = g) := by
      rw [List.filter_filter]
      refine List.filter_congr fun a _ => ?_
      by_cases same : group a = g <;> simp [same]
    have others : l.filter (fun a => decide (group a ∈ rest)) =
        (l.filter fun a => decide (group a ∈ g :: rest)).filter fun a => !decide (group a = g) := by
      rw [List.filter_filter]
      refine List.filter_congr fun a _ => ?_
      by_cases same : group a = g
      · simp [same, once.1]
      · simp [same]
    refine ((ih once.2).append_left _).trans ?_
    rw [first, others]
    exact List.filter_append_perm _ _

end Grouping
