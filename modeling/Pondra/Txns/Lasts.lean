import Mathlib.Data.List.Perm.Subperm
import Pondra.Txns.Agrees

set_option autoImplicit false

namespace Pondra.Txns.Index

open Machines Dicts

variable {key : List String}

section batches

variable {mine : List Int} {b : Batch} {bs : List Batch}

theorem entries_cons : entries (b :: bs) = b.entries ++ entries bs := List.flatMap_cons

theorem entries_stamp {e : Entry} (inside : e ∈ entries bs) : ∃ b ∈ bs, e.batch = b := by
  obtain ⟨b, held, inside⟩ := List.mem_flatMap.mp inside
  exact ⟨b, held, entries_batch inside⟩

/-- Filtered batches hold the rows that stay. -/
theorem dropBatches_rows (held : ByKey) (made : Nat) :
    (dropBatches key mine bs held made).1.flatMap Batch.rows =
      dropRows (bs.flatMap Batch.rows) mine := by
  induction bs generalizing held made with
  | nil => rfl
  | cons b rest ih =>
    rw [dropBatches, dropRows, List.flatMap_cons, List.filter_append]
    split
    · rw [List.flatMap_cons, ih]
      rfl
    · rename_i none
      rw [List.flatMap_cons, ih]
      congr 1
      symm
      apply List.filter_eq_self.mpr
      intro row inside
      simp only [List.any_eq_true, decide_eq_true_eq, not_exists, not_and] at none
      exact decide_eq_true (none row inside)

/-- The filtered batches' arrays, old and made now. -/
theorem dropBatches_stamps (held : ByKey) (made : Nat) (apart : (bs.map (·.stamp)).Nodup) (earlier : ∀ b ∈ bs, b.stamp < made) :
    ((dropBatches key mine bs held made).1.map (·.stamp)).Nodup ∧
      (∀ b ∈ (dropBatches key mine bs held made).1,
        b.stamp ∈ bs.map (·.stamp) ∨ made ≤ b.stamp ∧
          b.stamp < (dropBatches key mine bs held made).2.2) ∧
      made ≤ (dropBatches key mine bs held made).2.2 := by
  induction bs generalizing held made with
  | nil => exact ⟨List.nodup_nil, fun _ inside => absurd inside List.not_mem_nil, Nat.le_refl _⟩
  | cons b rest ih =>
    rw [List.map_cons, List.nodup_cons] at apart
    have before : b.stamp < made := earlier b List.mem_cons_self
    rw [dropBatches]
    split
    · obtain ⟨nodup, from_, grows⟩ := ih (held.shrunk key b (b.without mine made)) (made + 1) apart.2
        fun other inside => Nat.lt_succ_of_lt (earlier other (List.mem_cons_of_mem _ inside))
      refine ⟨?_, ?_, by dsimp only; omega⟩
      · rw [List.map_cons, List.nodup_cons]
        refine ⟨?_, nodup⟩
        intro found
        obtain ⟨other, inside, same⟩ := List.mem_map.mp found
        have same : other.stamp = made := same
        rcases from_ other inside with was | new
        · obtain ⟨was, inRest, stamp⟩ := List.mem_map.mp was
          have := earlier was (List.mem_cons_of_mem _ inRest)
          have : was.stamp = other.stamp := stamp
          omega
        · omega
      · intro other inside
        rcases List.mem_cons.mp inside with rfl | inside
        · exact .inr ⟨Nat.le_refl made, grows⟩
        · rcases from_ other inside with was | new
          · exact .inl (List.mem_cons_of_mem _ was)
          · exact .inr ⟨by omega, new.2⟩
    · obtain ⟨nodup, from_, grows⟩ := ih held made apart.2
        fun other inside => earlier other (List.mem_cons_of_mem _ inside)
      refine ⟨?_, ?_, grows⟩
      · rw [List.map_cons, List.nodup_cons]
        refine ⟨?_, nodup⟩
        intro found
        obtain ⟨other, inside, same⟩ := List.mem_map.mp found
        have same : other.stamp = b.stamp := same
        rcases from_ other inside with was | new
        · rw [same] at was
          exact apart.1 was
        · omega
      · intro other inside
        rcases List.mem_cons.mp inside with rfl | inside
        · exact .inl List.mem_cons_self
        · rcases from_ other inside with was | new
          · exact .inl (List.mem_cons_of_mem _ was)
          · exact .inr new

/-- Filtering batches changes the index's rows and nothing else of it. -/
theorem dropBatches_index (held : ByKey) (made : Nat) :
    (dropBatches key mine bs held made).2.1.live = held.live ∧
      (dropBatches key mine bs held made).2.1.gone = held.gone := by
  induction bs generalizing held made with
  | nil => exact ⟨rfl, rfl⟩
  | cons b rest ih =>
    rw [dropBatches]
    split
    · exact ih _ _
    · exact ih held made

/-- `rows` points, for every key but those that go, at its newest own row among `es`. -/
def Points (key : List String) (goes : String → Prop) (rows : Rows) (es : List Entry) : Prop :=
  ∀ k, (goes k → rows.lookup k = none) ∧ (¬ goes k → rows.lookup k = newest key k es)

/-- A batch that loses the rows of the keys that go: the index follows it. -/
theorem shrunk_points {goes : String → Prop} {rows : Rows} {before : List Entry} {new : Batch}
    (ids : ∀ row ∈ b.rows, row.id ∈ mine ↔ goes (keyText key row))
    (apart : ∀ e ∈ before, e.batch.stamp ≠ b.stamp) (later : ∀ other ∈ bs, other.stamp ≠ b.stamp)
    (fresh : new.stamp ≠ b.stamp) (left : new.rows = dropRows b.rows mine)
    (points : Points key goes rows (before ++ entries (b :: bs))) :
    Points key goes
      ((List.finRange new.rows.length).reverse.foldl (ByKey.follow key b new) rows)
      (before ++ new.entries ++ entries bs) := by
  intro k
  obtain ⟨none, some_⟩ := points k
  constructor
  · intro gone
    rw [shrunk_lookup k fresh, none gone, Option.map_none]
  · intro stays
    -- The key's rows of the batch all stay.
    have same : newest key k new.entries = Option.none ↔ newest key k b.entries = Option.none := by
      rw [newest_batch_none, newest_batch_none, left]
      constructor
      · intro out row inside equal
        refine out row (List.mem_filter.mpr ⟨inside, decide_eq_true ?_⟩) equal
        intro mine
        apply stays
        rw [← equal]
        exact (ids row inside).mp mine
      · intro out row inside
        exact out row (List.mem_filter.mp inside).1
    rw [shrunk_lookup k fresh, some_ stays, entries_cons, newest_append, newest_append, newest_append,
      newest_append]
    cases after : newest key k (entries bs) with
    | some e =>
      obtain ⟨other, inside, batch⟩ := entries_stamp (newest_spec after).1
      simp only [Option.some_or, Option.map_some, batch, later other inside, if_false]
    | none =>
      rw [Option.none_or, Option.none_or]
      cases here : newest key k b.entries with
      | some e =>
        have points : e.batch.stamp = b.stamp := by rw [entries_batch (newest_spec here).1]
        cases found : newest key k new.entries with
        | none => exact absurd (same.mp found) (by rw [here]; exact Option.some_ne_none e)
        | some e' => simp only [Option.some_or, Option.map_some, points, if_true, Option.getD_some]
      | none =>
        rw [same.mpr here, Option.none_or]
        cases earlier : newest key k before with
        | none => rfl
        | some e =>
          simp only [Option.map_some, apart e (newest_spec earlier).1, if_false]

/-- Batches that lose the rows of the keys that go, and an index that follows them, batch by batch. -/
theorem dropBatches_points {goes : String → Prop} {held : ByKey} {made : Nat} (before : List Entry)
    (ids : ∀ row ∈ bs.flatMap Batch.rows, row.id ∈ mine ↔ goes (keyText key row))
    (apart : (bs.map (·.stamp)).Nodup) (earlier : ∀ b ∈ bs, b.stamp < made)
    (others : ∀ e ∈ before, ∀ b ∈ bs, e.batch.stamp ≠ b.stamp)
    (points : ∀ rows, held.rows = some rows → Points key goes rows (before ++ entries bs)) :
    ∀ rows, (dropBatches key mine bs held made).2.1.rows = some rows →
      Points key goes rows (before ++ entries (dropBatches key mine bs held made).1) := by
  induction bs generalizing held made before with
  | nil => exact points
  | cons b rest ih =>
    rw [List.map_cons, List.nodup_cons] at apart
    rw [List.flatMap_cons] at ids
    have first : ∀ row ∈ b.rows, row.id ∈ mine ↔ goes (keyText key row) :=
      fun row inside => ids row (List.mem_append_left _ inside)
    have tail : ∀ row ∈ rest.flatMap Batch.rows, row.id ∈ mine ↔ goes (keyText key row) :=
      fun row inside => ids row (List.mem_append_right _ inside)
    have later : ∀ other ∈ rest, other.stamp ≠ b.stamp := by
      intro other inside same
      apply apart.1
      rw [← same]
      exact List.mem_map_of_mem inside
    have passed : ∀ e ∈ before, ∀ other ∈ rest, e.batch.stamp ≠ other.stamp :=
      fun e inside other held => others e inside other (List.mem_cons_of_mem _ held)
    have older : b.stamp < made := earlier b List.mem_cons_self
    rw [dropBatches]
    split
    · intro rows found
      rw [entries_cons, ← List.append_assoc]
      refine ih _ tail apart.2 ?_ ?_ ?_ rows found
      · exact fun other inside => Nat.lt_succ_of_lt (earlier other (List.mem_cons_of_mem _ inside))
      · intro e inside other held
        rcases List.mem_append.mp inside with was | new
        · exact passed e was other held
        · rw [entries_batch new]
          have := earlier other (List.mem_cons_of_mem _ held)
          show made ≠ other.stamp
          omega
      · intro rows found
        obtain ⟨rows', was, follows⟩ := Option.map_eq_some_iff.mp found
        rw [← follows]
        exact shrunk_points first (fun e inside => others e inside b List.mem_cons_self) later
          (by show made ≠ b.stamp; omega) rfl (points rows' was)
    · intro rows found
      rw [entries_cons, ← List.append_assoc]
      refine ih _ tail apart.2 (fun other inside => earlier other (List.mem_cons_of_mem _ inside))
        ?_ ?_ rows found
      · intro e inside other held
        rcases List.mem_append.mp inside with was | here
        · exact passed e was other held
        · rw [entries_batch here]
          exact Ne.symm (later other held)
      · intro rows found
        have held := points rows found
        rwa [entries_cons, ← List.append_assoc] at held

end batches

section old

variable {t : Txn} {old : List (List Row)}

/-- What a statement's old batches leave of the index: the table's keys taken, the own rows uncounted. -/
theorem takeOlds_eq (t : Txn) (old : List (List Row)) :
    old.foldl (Txn.takeOld key) t =
      { t with
        held :=
          { ((old.flatMap ours).map (keyText key)).foldl ByKey.uncounted t.held with
            gone := t.held.gone ++ (old.flatMap theirs).map (keyText key) }
        kept := { t.kept with old := t.kept.old ++ old.map theirs } } := by
  induction old generalizing t with
  | nil => simp
  | cons b rest ih =>
    rw [List.foldl_cons, ih]
    simp only [Txn.takeOld, ByKey.dropped, ByKey.taken, uncounts_gone, List.flatMap_cons,
      List.map_append, List.foldl_append, List.append_assoc, List.map_cons, List.singleton_append]

end old

end Pondra.Txns.Index
