import Pondra.Txns.Index

set_option autoImplicit false

namespace Pondra.Txns.Index

open Machines Dicts

variable (key : List String)

/-- How many rows hold a key. -/
def count (rows : List Row) (k : String) : Nat := (rows.map (keyText key)).count k

/-- A count as the index holds it: none for no row. -/
def positive (n : Nat) : Option Nat := if n = 0 then none else some n

/-- The counts of an index. -/
def Counts (held : ByKey) (counts : String → Nat) : Prop :=
  ∀ k, held.live.lookup k = positive (counts k)

/-- An index and the changes it is of. -/
structure Agrees (held : ByKey) (c : Changes) : Prop where
  live : Counts held (count key (c.new.flatMap Batch.rows))
  gone : ∀ k, k ∈ held.gone ↔ k ∈ c.old.flatten.map (keyText key)
  rows : ∀ rows, held.rows = some rows → ∀ k, rows.lookup k = newest key k (entries c.new)

/-- Kept batches: ids and row ids arrays of their own, temporary ids given already, and no `_version`. -/
structure Kept (next : Int) (made : Nat) (bs : List Batch) : Prop where
  ids : ((bs.flatMap Batch.rows).map (·.id)).Nodup
  above : ∀ row ∈ bs.flatMap Batch.rows, next < row.id
  own : ∀ row ∈ bs.flatMap Batch.rows, row.version = none
  stamps : (bs.map (·.stamp)).Nodup
  earlier : ∀ b ∈ bs, b.stamp < made

section counts

variable {key : List String} {held : ByKey} {counts : String → Nat} {k : String}

theorem positive_none {n : Nat} : positive n = none ↔ n = 0 := by
  rw [positive]
  split <;> simp_all

theorem positive_getD (n : Nat) : (positive n).getD 0 = n := by
  by_cases zero : n = 0
  · rw [positive, if_pos zero, zero]
    rfl
  · rw [positive, if_neg zero]
    rfl

theorem count_append (rows rows' : List Row) :
    count key (rows ++ rows') k = count key rows k + count key rows' k := by
  rw [count, List.map_append, List.count_append]
  rfl

theorem count_pos {rows : List Row} : 0 < count key rows k ↔ ∃ row ∈ rows, keyText key row = k := by
  rw [count, List.count_pos_iff, List.mem_map]

theorem counted_live (live : Dict String Nat) (known : ∀ k, live.lookup k = positive (counts k))
    (ks : List String) (k : String) :
    (ks.foldl ByKey.counted live).lookup k = positive (counts k + ks.count k) := by
  induction ks generalizing live counts with
  | nil => exact known k
  | cons first rest ih =>
    have step : ∀ k, (ByKey.counted live first).lookup k =
        positive (if k = first then counts k + 1 else counts k) := by
      intro k
      rw [ByKey.counted, lookup_insert_eq]
      by_cases same : k = first
      · rw [if_pos same, if_pos same, known, positive_getD, same, positive, if_neg (by omega)]
      · rw [if_neg same, if_neg same, known]
    rw [List.foldl_cons, ih _ step, List.count_cons]
    by_cases same : k = first
    · rw [if_pos same, if_pos (by simp [same]), Nat.add_assoc, Nat.add_comm 1]
    · rw [if_neg same, if_neg (by simp [Ne.symm same]), Nat.add_zero]

/-- What one own row of a held key leaves when it goes. -/
theorem uncounted_spec (live : Counts held counts) (some_ : 0 < counts k) :
    Counts (held.uncounted k) (fun other => if other = k then counts k - 1 else counts other) ∧
      ∀ rows, (held.uncounted k).rows = some rows →
        counts k = 1 ∧ ∃ before, held.rows = some before ∧ rows = before.erase k := by
  have found : held.live.lookup k = some (counts k) := by
    rw [live, positive, if_neg (by omega)]
  simp only [ByKey.uncounted, found]
  by_cases last : counts k - 1 = 0
  · rw [if_pos last]
    constructor
    · intro other
      dsimp only
      by_cases same : other = k
      · rw [if_pos same, same]
        exact (AList.lookup_erase k _).trans (positive_none.mpr last).symm
      · rw [if_neg same, ← live other]
        exact AList.lookup_erase_ne same
    · intro rows made
      obtain ⟨before, held, erased⟩ := Option.map_eq_some_iff.mp made
      exact ⟨by omega, before, held, erased.symm⟩
  · rw [if_neg last]
    constructor
    · intro other
      dsimp only
      rw [lookup_insert_eq]
      by_cases same : other = k
      · rw [if_pos same, if_pos same, positive, if_neg last]
      · rw [if_neg same, if_neg same, live other]
    · intro rows made
      cases made

/-- What own rows of held keys leave when they go: the counts less theirs, and the rows made only where
none of their keys is held any more, without these keys. -/
theorem uncounts_spec (ks : List String) (live : Counts held counts)
    (enough : ∀ k, ks.count k ≤ counts k) :
    Counts (ks.foldl ByKey.uncounted held) (fun k => counts k - ks.count k) ∧
      ∀ rows, (ks.foldl ByKey.uncounted held).rows = some rows →
        (∀ k ∈ ks, counts k = ks.count k) ∧ ∃ before, held.rows = some before ∧
          ∀ k, rows.lookup k = if k ∈ ks then none else before.lookup k := by
  induction ks generalizing held counts with
  | nil =>
    refine ⟨live, ?_⟩
    intro rows made
    exact ⟨fun _ inside => absurd inside List.not_mem_nil, rows, made, fun k => by simp⟩
  | cons first rest ih =>
    have some_ : 0 < counts first := by
      have := enough first
      rw [List.count_cons_self] at this
      omega
    obtain ⟨less, kept⟩ := uncounted_spec live some_
    have enough' : ∀ k, rest.count k ≤ if k = first then counts first - 1 else counts k := by
      intro k
      have bound := enough k
      by_cases same : k = first
      · subst same
        rw [List.count_cons_self] at bound
        rw [if_pos rfl]
        omega
      · rw [List.count_cons_of_ne (Ne.symm same)] at bound
        rwa [if_neg same]
    obtain ⟨counted, left⟩ := ih less enough'
    constructor
    · intro k
      rw [List.foldl_cons, counted k]
      dsimp only
      by_cases same : k = first
      · subst same
        rw [if_pos rfl, List.count_cons_self, Nat.sub_sub, Nat.add_comm]
      · rw [if_neg same, List.count_cons_of_ne (Ne.symm same)]
    · intro rows made
      obtain ⟨all, before, held', looked⟩ := left rows made
      obtain ⟨one, before', held, erased⟩ := kept before held'
      have once : rest.count first = 0 := by
        have := enough' first
        rw [if_pos rfl] at this
        omega
      refine ⟨?_, before', held, ?_⟩
      · intro k inside
        by_cases same : k = first
        · subst same
          rw [List.count_cons_self, once, one]
        · rw [List.count_cons_of_ne (Ne.symm same)]
          rcases List.mem_cons.mp inside with equal | inRest
          · exact absurd equal same
          · have := all k inRest
            rwa [if_neg same] at this
      · intro k
        rw [looked, erased]
        by_cases same : k = first
        · rw [same, AList.lookup_erase, ite_self, if_pos List.mem_cons_self]
        · rw [AList.lookup_erase_ne same]
          simp [same]

theorem uncounted_gone (held : ByKey) (gone : List String) (k : String) :
    ({ held with gone := gone } : ByKey).uncounted k = { held.uncounted k with gone := gone } := by
  unfold ByKey.uncounted
  cases held.live.lookup k with
  | none => rfl
  | some n =>
    by_cases last : n - 1 = 0
    · simp only [last, if_true]
    · simp only [last, if_false]

theorem uncounts_gone (held : ByKey) (gone : List String) (ks : List String) :
    ks.foldl ByKey.uncounted { held with gone := gone } =
      { ks.foldl ByKey.uncounted held with gone := gone } := by
  induction ks generalizing held with
  | nil => rfl
  | cons k rest ih => rw [List.foldl_cons, uncounted_gone, ih, List.foldl_cons]

end counts

section agrees

variable {key : List String} {held : ByKey} {c : Changes}

theorem empty_agrees : Agrees key .empty ⟨[], []⟩ := by
  refine ⟨fun _ => rfl, fun k => ?_, fun rows made => ?_⟩
  · simp [ByKey.empty]
  · cases made

theorem added_agrees (agrees : Agrees key held c) (b : Batch) :
    Agrees key (held.added key b) { c with new := c.new ++ [b] } := by
  constructor
  · intro k
    rw [List.flatMap_append, List.flatMap_singleton, count_append]
    exact counted_live _ agrees.live _ k
  · exact agrees.gone
  · intro rows made k
    obtain ⟨before, was, indexed⟩ := Option.map_eq_some_iff.mp made
    have split : entries (c.new ++ [b]) = entries c.new ++ b.entries := by
      rw [entries, List.flatMap_append, List.flatMap_singleton, entries]
    rw [← indexed, index_lookup, agrees.rows before was, split, newest_append]

theorem taken_agrees (agrees : Agrees key held c) (rows : List Row) :
    Agrees key (held.taken key rows) { c with old := c.old ++ [rows] } := by
  refine ⟨agrees.live, fun k => ?_, agrees.rows⟩
  rw [List.flatten_append, List.flatten_singleton, List.map_append, List.mem_append, ← agrees.gone]
  exact List.mem_append

theorem takens_agree (agrees : Agrees key held c) (old : List (List Row)) :
    Agrees key (old.foldl (ByKey.taken key) held) { c with old := c.old ++ old } := by
  induction old generalizing held c with
  | nil => rwa [List.append_nil]
  | cons b rest ih =>
    have step := ih (taken_agrees agrees b)
    rwa [List.append_assoc] at step

theorem addeds_agree (agrees : Agrees key held c) (new : List Batch) :
    Agrees key (new.foldl (ByKey.added key) held) { c with new := c.new ++ new } := by
  induction new generalizing held c with
  | nil => rwa [List.append_nil]
  | cons b rest ih =>
    have step := ih (added_agrees agrees b)
    rwa [List.append_assoc] at step

/-- An index worked out from changes is theirs. -/
theorem of_agrees (c : Changes) : Agrees key (.of key c) c :=
  addeds_agree (takens_agree empty_agrees c.old) c.new

end agrees

end Pondra.Txns.Index
