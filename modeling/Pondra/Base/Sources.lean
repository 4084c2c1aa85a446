import Mathlib.Logic.Relation

set_option autoImplicit false

/-! ### Graphs by what each node follows, and the nodes they start from -/

namespace Sources

variable {α : Type}

/-- What each node follows; no list: no such node. -/
abbrev Graph (α : Type) := α → Option (List α)

/-- Node `n` follows `a`. -/
def Graph.Before (g : Graph α) (a n : α) : Prop := ∃ after, g n = some after ∧ a ∈ after

/-- Node `n` starts from `r`, which follows nothing. -/
def Graph.Starts (g : Graph α) (n r : α) : Prop :=
  g r = some [] ∧ Relation.ReflTransGen g.Before r n

/-- Every node that one follows is there. -/
def Graph.Closed (g : Graph α) : Prop := ∀ n after, g n = some after → ∀ a ∈ after, g a ≠ none

/-- A node that follows nothing starts from itself. -/
theorem starts_source (g : Graph α) (n r : α) (node : g n = some []) : g.Starts n r ↔ r = n := by
  constructor
  · rintro ⟨-, path⟩
    rcases Relation.ReflTransGen.cases_tail path with same | ⟨a, -, after, here, inside⟩
    · exact same.symm
    · rw [node] at here
      cases here
      cases inside
  · rintro rfl
    exact ⟨node, .refl⟩

/-- Another starts from what those it follows start from. -/
theorem starts_after (g : Graph α) (n r : α) (after : List α) (node : g n = some after)
    (follows : after ≠ []) : g.Starts n r ↔ ∃ a ∈ after, g.Starts a r := by
  constructor
  · rintro ⟨source, path⟩
    rcases Relation.ReflTransGen.cases_tail path with rfl | ⟨a, path, after', here, inside⟩
    · rw [node] at source
      exact absurd (Option.some.inj source) follows
    · rw [node] at here
      cases here
      exact ⟨a, inside, source, path⟩
  · rintro ⟨a, inside, source, path⟩
    exact ⟨source, path.tail ⟨after, node, inside⟩⟩

/-- A node from which no descent is infinite doesn't follow itself. -/
theorem acc_apart (g : Graph α) (n : α) (acc : Acc g.Before n) : ¬Relation.TransGen g.Before n n := by
  replace acc := acc.transGen
  induction acc with
  | intro n _ ih => exact fun cycle => ih n cycle cycle

/-! ### One node is changed -/

section Changed

variable {g h : Graph α} {n : α} (same : ∀ x, x ≠ n → h x = g x)

include same

/-- A node that does not follow the changed one follows what it did. -/
theorem path_same {x a : α} (path : Relation.ReflTransGen g.Before a x)
    (apart : ¬Relation.ReflTransGen g.Before n x) : Relation.ReflTransGen h.Before a x := by
  induction path with
  | refl => exact .refl
  | @tail b x path before ih =>
    have away : x ≠ n := by
      rintro rfl
      exact apart .refl
    obtain ⟨after, node, inside⟩ := before
    refine (ih fun through => apart (through.tail ⟨after, node, inside⟩)).tail ⟨after, ?_, inside⟩
    rw [same x away, node]

theorem path_back {x a : α} (path : Relation.ReflTransGen h.Before a x)
    (apart : ¬Relation.ReflTransGen g.Before n x) : Relation.ReflTransGen g.Before a x := by
  induction path with
  | refl => exact .refl
  | @tail b x path before ih =>
    have away : x ≠ n := by
      rintro rfl
      exact apart .refl
    obtain ⟨after, node, inside⟩ := before
    rw [same x away] at node
    exact (ih fun through => apart (through.tail ⟨after, node, inside⟩)).tail ⟨after, node, inside⟩

/-- It starts from what it started from. -/
theorem starts_same {x : α} (apart : ¬Relation.ReflTransGen g.Before n x) (r : α) :
    h.Starts x r ↔ g.Starts x r := by
  constructor
  · rintro ⟨source, path⟩
    have path := path_back same path apart
    refine ⟨?_, path⟩
    rw [← same r, source]
    rintro rfl
    exact apart path
  · rintro ⟨source, path⟩
    refine ⟨?_, path_same same path apart⟩
    rw [same r, source]
    rintro rfl
    exact apart path

/-- No descent becomes infinite but by the changed node's. -/
theorem acc_changed {x : α} (node : Acc h.Before n) (acc : Acc g.Before x) : Acc h.Before x := by
  induction acc with
  | intro x _ ih =>
    by_cases here : x = n
    · rw [here]
      exact node
    · refine ⟨x, fun a before => ih a ?_⟩
      obtain ⟨after, follows, inside⟩ := before
      rw [same x here] at follows
      exact ⟨after, follows, inside⟩

/-- What was there is there. -/
theorem closed_changed (after : List α) (node : h n = some after) (follows : ∀ a ∈ after, h a ≠ none)
    (closed : g.Closed) : h.Closed := by
  intro x after' here a inside
  by_cases changed : x = n
  · rw [changed, node] at here
    cases here
    exact follows a inside
  · rw [same x changed] at here
    by_cases new : a = n
    · simp [new, node]
    · rw [same a new]
      exact closed x after' here a inside

end Changed

end Sources
