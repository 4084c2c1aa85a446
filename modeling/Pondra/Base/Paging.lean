import Mathlib.Data.List.Basic
import Mathlib.Order.Basic
import Mathlib.Order.Lattice

set_option autoImplicit false

namespace Paging

variable {κ ν : Type} [LinearOrder κ]

/-- Entries in key order: for the keys of `among`, all that `value` has `inside` and no others. -/
structure Part (among : κ → Prop) (value : κ → Option ν) (inside : κ → Prop)
    (entries : List (κ × ν)) : Prop where
  ascending : entries.Pairwise fun e e' => e.1 < e'.1
  within : ∀ e ∈ entries, inside e.1
  exact : ∀ k v, among k → inside k → ((k, v) ∈ entries ↔ value k = some v)

variable {among inside inside' : κ → Prop} {value value' : κ → Option ν}
  {entries page rest : List (κ × ν)}

theorem Part.nil (outside : ∀ k, ¬ inside k) : Part among value inside ([] : List (κ × ν)) :=
  ⟨.nil, fun _ found => (List.not_mem_nil found).elim, fun k _ _ found => absurd found (outside k)⟩

theorem Part.congr (part : Part among value inside entries) (same : ∀ k, inside k ↔ inside' k)
    (equal : ∀ k, among k → inside k → value k = value' k) :
    Part among value' inside' entries := by
  refine ⟨part.ascending, fun e found => (same e.1).mp (part.within e found), ?_⟩
  intro k v spoken within
  have old := (same k).mpr within
  rw [← equal k spoken old]
  exact part.exact k v spoken old

/-- A part and the part of the keys after it. -/
theorem Part.append (part : Part among value inside entries) (next : Part among value inside' page)
    (after : ∀ k k', inside k → inside' k' → k < k') :
    Part among value (fun k => inside k ∨ inside' k) (entries ++ page) := by
  refine ⟨?_, ?_, ?_⟩
  · rw [List.pairwise_append]
    exact ⟨part.ascending, next.ascending,
      fun e found e' found' => after _ _ (part.within e found) (next.within e' found')⟩
  · intro e found
    rcases List.mem_append.mp found with old | new
    · exact .inl (part.within e old)
    · exact .inr (next.within e new)
  · intro k v spoken within
    rw [List.mem_append]
    rcases within with old | new
    · have absent : (k, v) ∉ page := fun found =>
        absurd (after k k old (next.within _ found)) (lt_irrefl k)
      rw [or_iff_left absent]
      exact part.exact k v spoken old
    · have absent : (k, v) ∉ entries := fun found =>
        absurd (after k k (part.within _ found) new) (lt_irrefl k)
      rw [or_iff_right absent]
      exact next.exact k v spoken new

/-- The first entries of a part are the part up to the last of them. -/
theorem Part.first {last : κ × ν} (part : Part among value inside (page ++ rest))
    (ends : page.getLast? = some last) :
    Part among value (fun k => inside k ∧ k ≤ last.1) page := by
  obtain ⟨before, rfl⟩ : ∃ before, page = before ++ [last] := List.getLast?_eq_some_iff.mp ends
  have ordered := part.ascending
  rw [List.pairwise_append] at ordered
  have below : ∀ e ∈ before ++ [last], e.1 ≤ last.1 := by
    intro e found
    rcases List.mem_append.mp found with old | same
    · exact le_of_lt ((List.pairwise_append.mp ordered.1).2.2 e old last (List.mem_singleton_self _))
    · rw [List.mem_singleton.mp same]
  refine ⟨ordered.1, ?_, ?_⟩
  · intro e found
    exact ⟨part.within e (List.mem_append_left _ found), below e found⟩
  · intro k v spoken within
    rw [← part.exact k v spoken within.1]
    have absent : (k, v) ∉ rest := by
      intro found
      have later := ordered.2.2 last (List.mem_append_right _ (List.mem_singleton_self _)) _ found
      exact absurd (lt_of_lt_of_le later within.2) (lt_irrefl _)
    exact ⟨List.mem_append_left rest, fun found => (List.mem_append.mp found).resolve_right absent⟩

theorem Part.length_le {n : Nat} (part : Part among value inside entries)
    (spoken : ∀ k, inside k → among k)
    (few : ∀ keys : List κ, keys.Nodup → (∀ k ∈ keys, inside k ∧ (value k).isSome) →
      keys.length ≤ n) : entries.length ≤ n := by
  have distinct : (entries.map Prod.fst).Nodup :=
    List.pairwise_map.mpr (part.ascending.imp fun less => ne_of_lt less)
  rw [← @List.length_map _ _ entries Prod.fst]
  apply few _ distinct
  intro k found
  obtain ⟨e, inEntries, rfl⟩ := List.mem_map.mp found
  have within := part.within e inEntries
  exact ⟨within, Option.isSome_iff_exists.mpr
    ⟨e.2, (part.exact e.1 e.2 (spoken _ within) within).mp inEntries⟩⟩

end Paging
