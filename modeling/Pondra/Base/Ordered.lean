import Mathlib.Data.List.Sort
import Mathlib.Order.Defs.LinearOrder

set_option autoImplicit false

namespace Ordered

variable {α β : Type} [LinearOrder β] (f : α → β)

/-- Elements in order of a measure, those of one value as they were. -/
theorem sorted_insertionSort (l : List α) :
    (l.insertionSort fun a b => f a ≤ f b).Pairwise fun a b => f a ≤ f b := by
  have total : Std.Total fun a b : α => f a ≤ f b := ⟨fun a b => le_total _ _⟩
  have trans : IsTrans α fun a b => f a ≤ f b := ⟨fun _ _ _ => le_trans⟩
  exact List.pairwise_insertionSort (fun a b : α => f a ≤ f b) l

theorem filter_orderedInsert (keeps : α → Bool) (a : α) (l : List α)
    (sorted : l.Pairwise fun a b => f a ≤ f b) :
    (l.orderedInsert (fun a b => f a ≤ f b) a).filter keeps =
      if keeps a then (l.filter keeps).orderedInsert (fun a b => f a ≤ f b) a
      else l.filter keeps := by
  induction l with
  | nil => cases first : keeps a <;> simp [first]
  | cons b rest ih =>
    rw [List.pairwise_cons] at sorted
    have others := ih sorted.2
    rw [List.orderedInsert_cons]
    by_cases before : f a ≤ f b
    · rw [if_pos before]
      cases first : keeps a with
      | false =>
        rw [List.filter_cons_of_neg (by simp [first])]
        rfl
      | true =>
        rw [List.filter_cons_of_pos first, if_pos rfl]
        -- everything kept is at or after the one put in
        cases kept : (b :: rest).filter keeps with
        | nil => rfl
        | cons c more =>
          have inside : c ∈ b :: rest :=
            (List.mem_filter.mp (kept ▸ List.mem_cons_self : c ∈ (b :: rest).filter keeps)).1
          have later : f b ≤ f c := by
            rcases List.mem_cons.mp inside with rfl | after
            · exact le_refl _
            · exact sorted.1 c after
          rw [List.orderedInsert_cons, if_pos (le_trans before later)]
    · rw [if_neg before]
      cases second : keeps b with
      | false => rw [List.filter_cons_of_neg (by simp [second]), others,
          List.filter_cons_of_neg (by simp [second])]
      | true =>
        rw [List.filter_cons_of_pos second, others, List.filter_cons_of_pos second,
          List.orderedInsert_cons, if_neg before]
        cases keeps a <;> rfl

theorem filter_insertionSort (keeps : α → Bool) (l : List α) :
    (l.insertionSort fun a b => f a ≤ f b).filter keeps =
      (l.filter keeps).insertionSort fun a b => f a ≤ f b := by
  induction l with
  | nil => rfl
  | cons a rest ih =>
    rw [List.insertionSort_cons, filter_orderedInsert f keeps a _ (sorted_insertionSort f rest), ih]
    cases first : keeps a with
    | false =>
      rw [List.filter_cons_of_neg (by simp [first])]
      rfl
    | true =>
      rw [List.filter_cons_of_pos first]
      rfl

theorem orderedInsert_append (a : α) (l later : List α) (below : ∀ b ∈ later, f a ≤ f b) :
    (l ++ later).orderedInsert (fun a b => f a ≤ f b) a =
      l.orderedInsert (fun a b => f a ≤ f b) a ++ later := by
  induction l with
  | nil =>
    cases later with
    | nil => rfl
    | cons b rest =>
      rw [List.nil_append, List.orderedInsert_cons, if_pos (below b List.mem_cons_self)]
      rfl
  | cons b rest ih =>
    rw [List.cons_append, List.orderedInsert_cons, List.orderedInsert_cons, ih]
    split <;> rfl

/-- Elements in order, at or after all the others, stay where they are. -/
theorem insertionSort_append (l later : List α) (sorted : later.Pairwise fun a b => f a ≤ f b)
    (below : ∀ a ∈ l, ∀ b ∈ later, f a ≤ f b) :
    (l ++ later).insertionSort (fun a b => f a ≤ f b) =
      l.insertionSort (fun a b => f a ≤ f b) ++ later := by
  induction l with
  | nil => exact sorted.insertionSort_eq
  | cons a rest ih =>
    rw [List.cons_append, List.insertionSort_cons, List.insertionSort_cons,
      ih fun x inside => below x (List.mem_cons_of_mem _ inside)]
    exact orderedInsert_append f a _ later (below a List.mem_cons_self)

end Ordered
