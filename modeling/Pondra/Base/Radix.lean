import Mathlib.Data.List.Basic

set_option autoImplicit false

/-! A map in the order of its keys, and numbers kept in one by their high digit. -/

namespace Radix

section entries

variable {β : Type}

/-- A key's entry changed, or made where it has none, in the order of the keys. -/
def entry (key : Nat) (change : Option β → β) : List (Nat × β) → List (Nat × β)
  | [] => [(key, change none)]
  | (k, v) :: rest =>
    if key < k then (key, change none) :: (k, v) :: rest
    else if key = k then (k, change (some v)) :: rest
    else (k, v) :: entry key change rest

/-- At the end of a map: the last entry changed, or a new one after it. -/
theorem entry_last (key : Nat) (change : Option β → β) (entries : List (Nat × β))
    (order : (entries.map Prod.fst).Pairwise (· < ·)) (most : ∀ e ∈ entries, e.1 ≤ key) :
    (∃ init v, entries = init ++ [(key, v)] ∧
      entry key change entries = init ++ [(key, change (some v))]) ∨
      (∀ e ∈ entries, e.1 < key) ∧ entry key change entries = entries ++ [(key, change none)] := by
  induction entries with
  | nil => exact Or.inr ⟨fun _ inside => absurd inside List.not_mem_nil, rfl⟩
  | cons e rest ih =>
    obtain ⟨k, v⟩ := e
    rw [List.map_cons, List.pairwise_cons] at order
    obtain ⟨first, others⟩ := order
    have low : k ≤ key := most (k, v) List.mem_cons_self
    rw [entry, if_neg (Nat.not_lt.mpr low)]
    by_cases same : key = k
    · subst same
      have alone : rest = [] := by
        cases rest with
        | nil => rfl
        | cons e rest =>
          have above := first e.1 List.mem_cons_self
          have below := most e (List.mem_cons_of_mem _ List.mem_cons_self)
          omega
      rw [if_pos rfl, alone]
      exact Or.inl ⟨[], v, rfl, rfl⟩
    · rw [if_neg same]
      rcases ih others fun e inside => most e (List.mem_cons_of_mem _ inside) with
        ⟨init, w, rest_eq, changed⟩ | ⟨below, added⟩
      · exact Or.inl ⟨(k, v) :: init, w, by rw [rest_eq]; rfl, by rw [changed]; rfl⟩
      · apply Or.inr
        constructor
        · intro e inside
          rcases List.mem_cons.mp inside with rfl | later
          · exact Nat.lt_of_le_of_ne low (Ne.symm same)
          · exact below e later
        · rw [added, List.cons_append]

end entries

/-! ### Numbers by their high digit -/

section digits

variable {β : Type} (base : Nat) (vals : β → List Nat) (Good : β → Prop)

/-- The numbers of a map: each entry's low digits under its key. -/
def flat (entries : List (Nat × β)) : List Nat :=
  entries.flatMap fun e => (vals e.2).map (e.1 * base + ·)

/-- A map in order, whose entries are good. -/
structure Ordered (entries : List (Nat × β)) : Prop where
  order : (entries.map Prod.fst).Pairwise (· < ·)
  each : ∀ e ∈ entries, Good e.2

/-- Adding a low digit past an entry's adds it last. -/
structure Pushes (push : Nat → Option β → β) : Prop where
  fresh : ∀ low, low < base → Good (push low none) ∧ vals (push low none) = [low]
  more : ∀ low v, low < base → Good v → (∀ x ∈ vals v, x < low) →
    Good (push low (some v)) ∧ vals (push low (some v)) = vals v ++ [low]
  some_ : ∀ v, Good v → vals v ≠ []

variable {base vals Good}

theorem flat_append (first second : List (Nat × β)) :
    flat base vals (first ++ second) = flat base vals first ++ flat base vals second := by
  rw [flat, List.flatMap_append]
  rfl

/-- A number past all of a map's is added last. -/
theorem entry_flat {push : Nat → Option β → β} (pushes : Pushes base vals Good push)
    (entries : List (Nat × β)) (ordered : Ordered Good entries) (p : Nat) (some_ : 0 < base)
    (past : ∀ x ∈ flat base vals entries, x < p) :
    Ordered Good (entry (p / base) (push (p % base)) entries) ∧
      flat base vals (entry (p / base) (push (p % base)) entries) =
        flat base vals entries ++ [p] ∧
      ∀ e ∈ entry (p / base) (push (p % base)) entries, e.1 = p / base ∨
        ∃ v, (e.1, v) ∈ entries := by
  have low : p % base < base := Nat.mod_lt p some_
  have whole : p / base * base + p % base = p := Nat.div_add_mod' p base
  have most : ∀ e ∈ entries, e.1 ≤ p / base := by
    intro e inside
    obtain ⟨x, held⟩ := List.exists_mem_of_ne_nil _ (pushes.some_ e.2 (ordered.each e inside))
    have less := past (e.1 * base + x)
      (List.mem_flatMap.mpr ⟨e, inside, List.mem_map_of_mem held⟩)
    exact (Nat.le_div_iff_mul_le some_).mpr (by omega)
  rcases entry_last (p / base) (push (p % base)) entries ordered.order most with
    ⟨init, v, entries_eq, changed⟩ | ⟨below, added⟩
  · have inside : (p / base, v) ∈ entries := by
      rw [entries_eq]
      exact List.mem_append_right _ (List.mem_singleton_self _)
    obtain ⟨good, values⟩ := pushes.more (p % base) v low (ordered.each _ inside) fun x held => by
      have less := past (p / base * base + x)
        (List.mem_flatMap.mpr ⟨_, inside, List.mem_map_of_mem held⟩)
      omega
    rw [changed]
    refine ⟨⟨?_, ?_⟩, ?_, ?_⟩
    · have order := ordered.order
      rw [entries_eq, List.map_append] at order
      rw [List.map_append]
      exact order
    · intro e listed
      rcases List.mem_append.mp listed with before | here
      · exact ordered.each e (by rw [entries_eq]; exact List.mem_append_left _ before)
      · rw [List.mem_singleton.mp here]
        exact good
    · rw [entries_eq, flat_append, flat_append, List.append_assoc]
      simp only [flat, List.flatMap_singleton, values, List.map_append, List.map_cons,
        List.map_nil, whole]
    · intro e listed
      rcases List.mem_append.mp listed with before | here
      · exact Or.inr ⟨e.2, by rw [entries_eq]; exact List.mem_append_left _ before⟩
      · exact Or.inl (by rw [List.mem_singleton.mp here])
  · obtain ⟨good, values⟩ := pushes.fresh (p % base) low
    rw [added]
    refine ⟨⟨?_, ?_⟩, ?_, ?_⟩
    · rw [List.map_append]
      apply List.pairwise_append.mpr
      refine ⟨ordered.order, List.pairwise_singleton _ _, fun k listed other here => ?_⟩
      obtain ⟨e, inside, rfl⟩ := List.mem_map.mp listed
      rw [List.mem_singleton.mp here]
      exact below e inside
    · intro e listed
      rcases List.mem_append.mp listed with before | here
      · exact ordered.each e before
      · rw [List.mem_singleton.mp here]
        exact good
    · rw [flat_append]
      simp only [flat, List.flatMap_singleton, values, List.map_cons, List.map_nil, whole]
    · intro e listed
      rcases List.mem_append.mp listed with before | here
      · exact Or.inr ⟨e.2, before⟩
      · exact Or.inl (by rw [List.mem_singleton.mp here])

end digits

end Radix
