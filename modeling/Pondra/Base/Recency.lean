import Mathlib.Data.List.Basic
import Mathlib.Data.List.Nodup

set_option autoImplicit false

namespace Recency

/-- A map that keeps the order its entries were last used in. `entries` lists them, the most recently
used first; the laws say what each operation does to that list. -/
structure LruMap (κ ω : Type) [DecidableEq κ] where
  Map : Type
  entries : Map → List (κ × ω)
  empty : Map
  push : Map → κ → ω → Map × Option ω
  pop : Map → κ → Map × Option ω
  popLru : Map → Map × Option (κ × ω)
  touch : Map → κ → (ω → ω) → Map × Option ω
  nodup : ∀ m, ((entries m).map Prod.fst).Nodup
  entries_empty : entries empty = []
  entries_push : ∀ m key value, entries (push m key value).1 =
    (key, value) :: (entries m).filter fun e => decide (e.1 ≠ key)
  push_old : ∀ m key value, (push m key value).2 = (entries m).lookup key
  entries_pop : ∀ m key, entries (pop m key).1 = (entries m).filter fun e => decide (e.1 ≠ key)
  pop_value : ∀ m key, (pop m key).2 = (entries m).lookup key
  entries_popLru : ∀ m, entries (popLru m).1 = (entries m).dropLast
  popLru_value : ∀ m, (popLru m).2 = (entries m).getLast?
  entries_touch : ∀ m key change, entries (touch m key change).1 =
    (((entries m).lookup key).map fun value => (key, change value)).toList ++
      (entries m).filter fun e => decide (e.1 ≠ key)
  touch_value : ∀ m key change, (touch m key change).2 = ((entries m).lookup key).map change

variable {κ ω : Type} [DecidableEq κ]

/-- An entry of a map whose keys differ is what a look at its key finds, beside the others. -/
theorem perm_of_lookup (entries : List (κ × ω)) (nodup : (entries.map Prod.fst).Nodup) (key : κ) :
    entries.Perm (((entries.lookup key).map fun value => (key, value)).toList ++
      entries.filter fun e => decide (e.1 ≠ key)) := by
  induction entries with
  | nil => exact List.Perm.nil
  | cons e rest ih =>
    obtain ⟨first, value⟩ := e
    rw [List.map_cons, List.nodup_cons] at nodup
    by_cases same : key = first
    · subst same
      have others : rest.filter (fun e => decide (e.1 ≠ key)) = rest := by
        rw [List.filter_eq_self]
        intro e inside
        rw [decide_eq_true_eq]
        intro equal
        exact nodup.1 (List.mem_map.mpr ⟨e, inside, equal⟩)
      rw [List.lookup_cons, beq_self_eq_true, List.filter_cons_of_neg (by simp), others]
      exact List.Perm.refl _
    · have apart : (key == first) = false := beq_eq_false_iff_ne.mpr same
      rw [List.lookup_cons, apart, List.filter_cons_of_pos (by simpa using fun h => same h.symm)]
      exact ((ih nodup.2).cons _).trans List.perm_middle.symm

omit [DecidableEq κ] in
theorem filter_nodup (entries : List (κ × ω)) (nodup : (entries.map Prod.fst).Nodup)
    (test : κ × ω → Bool) : ((entries.filter test).map Prod.fst).Nodup :=
  nodup.sublist (List.filter_sublist.map _)

/-- The list itself is such a map. -/
def LruMap.ofList (κ ω : Type) [DecidableEq κ] : LruMap κ ω where
  Map := { entries : List (κ × ω) // (entries.map Prod.fst).Nodup }
  entries m := m.1
  empty := ⟨[], List.nodup_nil⟩
  push m key value :=
    (⟨(key, value) :: m.1.filter fun e => decide (e.1 ≠ key), by
      rw [List.map_cons, List.nodup_cons]
      exact ⟨by simp, filter_nodup m.1 m.2 _⟩⟩, m.1.lookup key)
  pop m key := (⟨m.1.filter fun e => decide (e.1 ≠ key), filter_nodup m.1 m.2 _⟩, m.1.lookup key)
  popLru m := (⟨m.1.dropLast, m.2.sublist ((List.dropLast_sublist m.1).map _)⟩, m.1.getLast?)
  touch m key change :=
    (⟨((m.1.lookup key).map fun value => (key, change value)).toList ++
        m.1.filter fun e => decide (e.1 ≠ key), by
      rw [List.map_append, List.nodup_append]
      refine ⟨?_, filter_nodup m.1 m.2 _, ?_⟩
      · cases m.1.lookup key with
        | none => exact List.nodup_nil
        | some value => exact List.nodup_singleton _
      · cases m.1.lookup key with
        | none => exact fun a none => absurd none List.not_mem_nil
        | some value =>
          intro a first b others same
          rw [List.mem_singleton.mp first] at same
          obtain ⟨e, kept, ends⟩ := List.mem_map.mp others
          have apart := of_decide_eq_true (List.mem_filter.mp kept).2
          exact apart (ends.trans same.symm)⟩, (m.1.lookup key).map change)
  nodup m := m.2
  entries_empty := rfl
  entries_push _ _ _ := rfl
  push_old _ _ _ := rfl
  entries_pop _ _ := rfl
  pop_value _ _ := rfl
  entries_popLru _ := rfl
  popLru_value _ := rfl
  entries_touch _ _ _ := rfl
  touch_value _ _ _ := rfl

end Recency
