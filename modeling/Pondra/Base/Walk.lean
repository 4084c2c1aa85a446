import Mathlib.Data.Finset.Card
import Mathlib.Logic.Relation

set_option autoImplicit false

namespace Walks

open Relation

variable {α : Type}

/-- No vertex leads back to itself. -/
def Acyclic (edge : α → α → Prop) : Prop :=
  ∀ vertex, ¬ TransGen edge vertex vertex

theorem Acyclic.mono {edge fewer : α → α → Prop} (acyclic : Acyclic edge)
    (sub : ∀ a b, fewer a b → edge a b) : Acyclic fewer :=
  fun vertex cycle => acyclic vertex (TransGen.mono sub _ _ cycle)

theorem Acyclic.swap {edge : α → α → Prop} (acyclic : Acyclic edge) :
    Acyclic (fun a b => edge b a) :=
  fun vertex cycle => acyclic vertex (transGen_swap.mp cycle)

/-- Edges into `target` added at vertices it does not lead to: a walk that starts at `target`
is a walk of the old edges. -/
theorem reflTransGen_of_added_into {edge more : α → α → Prop} {target : α}
    (added : ∀ a b, more a b → edge a b ∨ (b = target ∧ ¬ ReflTransGen edge target a))
    {last : α} (walk : ReflTransGen more target last) : ReflTransGen edge target last := by
  induction walk with
  | refl => exact .refl
  | tail _ step ih =>
    rcases added _ _ step with old | ⟨rfl, _⟩
    · exact ih.tail old
    · exact .refl

/-- Edges into `target` close no loop where `target` leads to none of their starts. -/
theorem Acyclic.add_into {edge more : α → α → Prop} (acyclic : Acyclic edge) (target : α)
    (added : ∀ a b, more a b → edge a b ∨ (b = target ∧ ¬ ReflTransGen edge target a)) :
    Acyclic more := by
  -- no loop goes through `target`: its last edge would start where `target` leads
  have avoids : ¬ TransGen more target target := by
    intro cycle
    obtain ⟨last, walk, step⟩ := TransGen.tail'_iff.mp cycle
    have old := reflTransGen_of_added_into added walk
    rcases added _ _ step with edge_step | ⟨_, unreached⟩
    · exact acyclic target (TransGen.tail'_iff.mpr ⟨last, old, edge_step⟩)
    · exact unreached old
  have split : ∀ {first last}, TransGen more first last →
      TransGen edge first last ∨ (TransGen more first target ∧ ReflTransGen more target last) := by
    intro first last walk
    induction walk with
    | single step =>
      rcases added _ _ step with old | ⟨rfl, _⟩
      · exact .inl (.single old)
      · exact .inr ⟨.single step, .refl⟩
    | tail walk step ih =>
      rcases added _ _ step with old | ⟨rfl, _⟩
      · rcases ih with plain | ⟨before, after⟩
        · exact .inl (plain.tail old)
        · exact .inr ⟨before, after.tail step⟩
      · exact .inr ⟨walk.tail step, .refl⟩
  intro vertex cycle
  rcases split cycle with plain | ⟨before, after⟩
  · exact acyclic vertex plain
  · exact avoids (TransGen.trans_right after before)

/-- Edges out of `source` close no loop where none of their ends leads to it. -/
theorem Acyclic.add_from {edge more : α → α → Prop} (acyclic : Acyclic edge) (source : α)
    (added : ∀ a b, more a b → edge a b ∨ (a = source ∧ ¬ ReflTransGen edge b source)) :
    Acyclic more := by
  have swapped : Acyclic (fun a b => more b a) := by
    refine acyclic.swap.add_into source ?_
    intro a b step
    rcases added b a step with old | ⟨same, unreached⟩
    · exact .inl old
    · exact .inr ⟨same, fun walk => unreached (reflTransGen_swap.mp walk)⟩
  exact swapped.swap

/-- New edges out of `source`, one of whose ends leads to it, close a loop. -/
theorem not_acyclic_of_leads {edge more : α → α → Prop} {source first : α}
    (sub : ∀ a b, edge a b → more a b) (step : more source first)
    (walk : ReflTransGen edge first source) : ¬ Acyclic more :=
  fun acyclic => acyclic source (TransGen.head'_iff.mpr ⟨first, step, ReflTransGen.mono sub _ _ walk⟩)

/-! ### Depth-first search -/

section search

variable [DecidableEq α]

/-- Does a vertex on the stack lead to `goal`? `none` is no answer: the fuel ran out. -/
def search (next : α → List α) (goal : α) : Nat → List α → Finset α → Option Bool
  | 0, _, _ => none
  | _ + 1, [], _ => some false
  | fuel + 1, vertex :: stack, seen =>
    if vertex = goal then some true
    else if vertex ∈ seen then search next goal fuel stack seen
    else search next goal fuel ((next vertex).reverse ++ stack) (insert vertex seen)

theorem search_sound (next : α → List α) (goal : α) (fuel : Nat) (stack : List α)
    (seen : Finset α) (found : search next goal fuel stack seen = some true) :
    ∃ vertex ∈ stack, ReflTransGen (fun a b => b ∈ next a) vertex goal := by
  induction fuel generalizing stack seen with
  | zero => simp [search] at found
  | succ fuel ih =>
    cases stack with
    | nil => simp [search] at found
    | cons vertex stack =>
      simp only [search] at found
      split at found
      · rename_i here
        exact ⟨vertex, List.mem_cons_self, here ▸ .refl⟩
      · split at found
        · obtain ⟨start, inside, walk⟩ := ih stack seen found
          exact ⟨start, List.mem_cons_of_mem _ inside, walk⟩
        · obtain ⟨start, inside, walk⟩ := ih _ _ found
          rcases List.mem_append.mp inside with pushed | old
          · exact ⟨vertex, List.mem_cons_self, walk.head (List.mem_reverse.mp pushed)⟩
          · exact ⟨start, List.mem_cons_of_mem _ old, walk⟩

/-- What the search has left behind: `goal` is not in it, and its edges stay inside or end on
the stack. -/
def Behind (next : α → List α) (goal : α) (stack : List α) (seen : Finset α) : Prop :=
  ∀ vertex ∈ seen, vertex ≠ goal ∧ ∀ follower ∈ next vertex, follower ∈ seen ∨ follower ∈ stack

theorem search_complete (next : α → List α) (goal : α) (fuel : Nat) (stack : List α)
    (seen : Finset α) (behind : Behind next goal stack seen)
    (absent : search next goal fuel stack seen = some false) :
    ∀ vertex, vertex ∈ stack ∨ vertex ∈ seen →
      ¬ ReflTransGen (fun a b => b ∈ next a) vertex goal := by
  induction fuel generalizing stack seen with
  | zero => simp [search] at absent
  | succ fuel ih =>
    cases stack with
    | nil =>
      intro vertex inside walk
      have closed : ∀ last, ReflTransGen (fun a b => b ∈ next a) vertex last → last ∈ seen := by
        intro last walk
        induction walk with
        | refl => simpa using inside
        | tail _ step reached =>
          rcases (behind _ reached).2 _ step with kept | none
          · exact kept
          · simp at none
      exact (behind goal (closed goal walk)).1 rfl
    | cons vertex stack =>
      simp only [search] at absent
      split at absent
      · simp at absent
      · rename_i other
        split at absent
        · rename_i old
          have rest : Behind next goal stack seen := by
            intro v inside
            refine ⟨(behind v inside).1, fun follower step => ?_⟩
            rcases (behind v inside).2 follower step with kept | pushed
            · exact .inl kept
            · rcases List.mem_cons.mp pushed with rfl | later
              · exact .inl old
              · exact .inr later
          intro v inside
          refine ih stack seen rest absent v ?_
          rcases inside with pushed | kept
          · rcases List.mem_cons.mp pushed with rfl | later
            · exact .inr old
            · exact .inl later
          · exact .inr kept
        · have rest : Behind next goal ((next vertex).reverse ++ stack) (insert vertex seen) := by
            intro v inside
            rcases Finset.mem_insert.mp inside with rfl | kept
            · exact ⟨other, fun follower step =>
                .inr (List.mem_append_left _ (List.mem_reverse.mpr step))⟩
            · refine ⟨(behind v kept).1, fun follower step => ?_⟩
              rcases (behind v kept).2 follower step with old | pushed
              · exact .inl (Finset.mem_insert_of_mem old)
              · rcases List.mem_cons.mp pushed with rfl | later
                · exact .inl (Finset.mem_insert_self _ _)
                · exact .inr (List.mem_append_right _ later)
          intro v inside
          refine ih _ _ rest absent v ?_
          rcases inside with pushed | kept
          · rcases List.mem_cons.mp pushed with rfl | later
            · exact .inr (Finset.mem_insert_self _ _)
            · exact .inl (List.mem_append_right _ later)
          · exact .inr (Finset.mem_insert_of_mem kept)

/-- Each vertex of `inner` is expanded once, so the search answers within this fuel. -/
theorem search_answers (next : α → List α) (goal : α) (inner : Finset α) (most : Nat)
    (outer : ∀ vertex, vertex ∉ inner → next vertex = [])
    (bounded : ∀ vertex, (next vertex).length ≤ most) (fuel : Nat) (stack : List α)
    (seen : Finset α) (enough : stack.length + (inner \ seen).card * most < fuel) :
    ∃ answer, search next goal fuel stack seen = some answer := by
  induction fuel generalizing stack seen with
  | zero => omega
  | succ fuel ih =>
    cases stack with
    | nil => exact ⟨false, rfl⟩
    | cons vertex stack =>
      simp only [search]
      simp only [List.length_cons] at enough
      split
      · exact ⟨true, rfl⟩
      · split
        · exact ih stack seen (by omega)
        · rename_i fresh
          refine ih _ _ ?_
          rw [List.length_append, List.length_reverse]
          by_cases expands : vertex ∈ inner
          · have fewer : (inner \ insert vertex seen).card + 1 = (inner \ seen).card := by
              rw [Finset.sdiff_insert]
              exact Finset.card_erase_add_one (Finset.mem_sdiff.mpr ⟨expands, fresh⟩)
            have length := bounded vertex
            rw [← fewer, Nat.add_mul] at enough
            omega
          · have same : inner \ insert vertex seen = inner \ seen := by
              rw [Finset.sdiff_insert]
              exact Finset.erase_eq_of_notMem fun inside => expands (Finset.mem_sdiff.mp inside).1
            rw [outer vertex expands, same]
            simp only [List.length_nil]
            omega

end search

end Walks
