import Pondra.Base.Newest

set_option autoImplicit false

namespace Pondra.Change

open Newest

/-- A keyed table's row: its key's values (NULLs are values that equal each other, as the key compares
them), its other columns, `_deleted`, and what Pondra keeps of a row. -/
structure Row (κ β : Type) where
  key : κ
  rest : β
  deleted : Option Bool
  rowId : Option Nat
  created : Option Nat
  version : Option Nat
  deriving DecidableEq

section batches

variable {κ β : Type}

abbrev Batch (κ β : Type) := List (Row κ β)

namespace Row

/-- A true `_deleted` marks a row deleted. -/
def live (r : Row κ β) : Bool := decide (r.deleted ≠ some true)

end Row

/-- As the table's columns and the ids a changed row keeps: without `_version`. -/
def conform (b : Batch κ β) : Batch κ β := b.map fun r => { r with version := none }

/-- For each row of `of`: is its key absent from `among`'s rows? -/
def absent [DecidableEq κ] (of among : Batch κ β) : List Bool :=
  of.map fun r => decide (r.key ∉ among.map (·.key))

/-- `filter_record_batch`: the rows a mask keeps. -/
def filterBatch (b : Batch κ β) (keep : List Bool) : Batch κ β :=
  (b.zip keep).filterMap fun p => if p.2 then some p.1 else none

/-- The rows marked deleted, where the table has a `_deleted` column. -/
def markDeleted (marks : Bool) (b : Batch κ β) : Except String (Batch κ β) :=
  if marks then .ok (b.map fun r => { r with deleted := some true })
  else .error "DELETE on a keyed table needs its Boolean _deleted column"

/-- The rows without their `_version`. -/
def withoutVersion (b : Batch κ β) : Batch κ β := b.map fun r => { r with version := none }

theorem filterBatch_all (o : Batch κ β) : filterBatch o (List.replicate o.length true) = o := by
  induction o with
  | nil => rfl
  | cons r rest ih =>
    rw [List.length_cons, List.replicate_succ, filterBatch, List.zip_cons_cons,
      List.filterMap_cons]
    exact congrArg (r :: ·) ih

theorem flatten_nonempty (batches : List (Batch κ β)) :
    (batches.filter fun b => !b.isEmpty).flatten = batches.flatten := by
  induction batches with
  | nil => rfl
  | cons b rest ih =>
    cases b with
    | nil => exact ih
    | cons r b => rw [List.filter_cons_of_pos rfl, List.flatten_cons, ih, List.flatten_cons]

theorem flatten_conform (batches : List (Batch κ β)) :
    (batches.map conform).flatten = conform batches.flatten := by
  rw [conform, List.map_flatten]
  rfl

theorem conform_keys (b : Batch κ β) : (conform b).map (·.key) = b.map (·.key) := by
  rw [conform, List.map_map]
  rfl

theorem conform_same {new : Batch κ β} (distinct : (new.map (·.key)).Nodup) {a b : Row κ β}
    (inside : a ∈ conform new) (inside' : b ∈ conform new) (eq : a.key = b.key) : a = b :=
  List.inj_on_of_nodup_map (f := (·.key)) (conform_keys new ▸ distinct) inside inside' eq

variable [DecidableEq κ]

/-- Which of a batch's rows no row of `among` replaces. -/
def keepMask (among : Option (Batch κ β)) (o : Batch κ β) : List Bool :=
  match among with
  | some n => absent o n
  | none => List.replicate o.length true

/-- Of each old batch, the rows no row of `among` replaces, marked deleted. -/
def gone (marks : Bool) (among : Option (Batch κ β)) : List (Batch κ β) →
    Except String (List (Batch κ β))
  | [] => .ok []
  | o :: rest =>
    if o.isEmpty then gone marks among rest
    else
      let dropped := filterBatch o (keepMask among o)
      if dropped.isEmpty then gone marks among rest
      else do
        let b ← markDeleted marks dropped
        let others ← gone marks among rest
        .ok (withoutVersion b :: others)

/-- The new rows, and the old rows their key's new versions don't replace, marked deleted. -/
def marked (marks : Bool) (old new : List (Batch κ β)) :
    Except String (List (Batch κ β) × List (Batch κ β)) := do
  let new := (new.filter fun b => !b.isEmpty).map conform
  let among := if new.isEmpty then none else some new.flatten
  let gone ← gone marks among old
  .ok (new, gone)

/-- A keyed table's change as one batch for the log. -/
def upserts (marks : Bool) (old new : List (Batch κ β)) : Except String (Option (Batch κ β)) := do
  let (all, gone) ← marked marks old new
  let all := all ++ gone
  .ok (if all.isEmpty then none else some all.flatten)

/-- The rows a keyed table's reads give: the newest of each key, deleted ones left out. -/
def reads (versions : Batch κ β) : Batch κ β := (latest (·.key) versions).filter (·.live)

/-! ### The batch -/

/-- The old rows whose key no new row has. -/
def freed (old new : Batch κ β) : Batch κ β :=
  old.filter fun r => decide (r.key ∉ new.map (·.key))

/-- A delete marker of a row. -/
def Row.marker (r : Row κ β) : Row κ β := { r with deleted := some true, version := none }

theorem filterBatch_absent (o n : Batch κ β) : filterBatch o (absent o n) = freed o n := by
  induction o with
  | nil => rfl
  | cons r rest ih =>
    rw [absent, List.map_cons, filterBatch, List.zip_cons_cons, List.filterMap_cons, freed,
      List.filter_cons]
    by_cases free : r.key ∉ n.map (·.key)
    · rw [if_pos (decide_eq_true free), decide_eq_true free]
      exact congrArg (r :: ·) ih
    · rw [if_neg (by simpa using free), decide_eq_false free]
      exact ih

theorem freed_append (a b n : Batch κ β) : freed (a ++ b) n = freed a n ++ freed b n :=
  List.filter_append _ _

theorem freed_nil (old : Batch κ β) : freed old [] = old :=
  List.filter_eq_self.mpr fun _ _ => rfl

/-- What `gone` gives: the freed old rows' markers; refused where there are any and the table has no
`_deleted` column. -/
theorem gone_eq (marks : Bool) (among : Option (Batch κ β)) (old : List (Batch κ β)) :
    (∃ batches, gone marks among old = .ok batches ∧
      batches.flatten = (freed old.flatten (among.getD [])).map Row.marker) ∨
    (∃ e, gone marks among old = .error e) ∧ marks = false ∧
      freed old.flatten (among.getD []) ≠ [] := by
  induction old with
  | nil => exact .inl ⟨[], rfl, rfl⟩
  | cons o rest ih =>
    have mask : filterBatch o (keepMask among o) = freed o (among.getD []) := by
      cases among with
      | some n => exact filterBatch_absent o n
      | none => rw [keepMask, filterBatch_all, Option.getD_none, freed_nil]
    rw [List.flatten_cons, freed_append]
    unfold gone
    simp only [mask]
    by_cases empty : o.isEmpty
    · rw [if_pos empty, List.isEmpty_iff.mp empty]
      exact ih
    · rw [if_neg empty]
      by_cases kept : (freed o (among.getD [])).isEmpty
      · rw [if_pos kept, List.isEmpty_iff.mp kept, List.nil_append]
        exact ih
      · rw [if_neg kept]
        have some : freed o (among.getD []) ≠ [] := fun nil => kept (by rw [nil]; rfl)
        cases marks with
        | false => exact .inr ⟨⟨_, rfl⟩, rfl, by simp [some]⟩
        | true =>
          rcases ih with ⟨batches, found, rows⟩ | ⟨-, no, -⟩
          · refine .inl ⟨withoutVersion ((freed o (among.getD [])).map fun r =>
              { r with deleted := Option.some true }) :: batches, by rw [found]; rfl, ?_⟩
            rw [List.flatten_cons, rows, List.map_append, withoutVersion, List.map_map]
            rfl
          · cases no

/-- What `upserts` gives: the new rows, then a marker for each old row whose key none of them has. -/
theorem upserts_eq (marks : Bool) (old new : List (Batch κ β)) :
    (∃ batch, upserts marks old new = .ok batch ∧
      batch.getD [] = conform new.flatten ++
        (freed old.flatten new.flatten).map Row.marker) ∨
    (∃ e, upserts marks old new = .error e) ∧ marks = false ∧
      freed old.flatten new.flatten ≠ [] := by
  have all : ((new.filter fun b => !b.isEmpty).map conform).flatten = conform new.flatten := by
    rw [flatten_conform, flatten_nonempty]
  have keys : ∀ old : Batch κ β, freed old (conform new.flatten) = freed old new.flatten :=
    fun old => by rw [freed, freed, conform_keys]
  have among : (if ((new.filter fun b => !b.isEmpty).map conform).isEmpty then none
      else some ((new.filter fun b => !b.isEmpty).map conform).flatten).getD [] =
        conform new.flatten := by
    split
    · rename_i none
      rw [← all, List.isEmpty_iff.mp none]
      rfl
    · exact all
  rcases gone_eq marks (if ((new.filter fun b => !b.isEmpty).map conform).isEmpty then none
      else some ((new.filter fun b => !b.isEmpty).map conform).flatten) old with
    ⟨batches, found, rows⟩ | ⟨⟨e, found⟩, no, some⟩
  · rw [among, keys] at rows
    refine .inl ⟨_, by rw [upserts, marked, found]; rfl, ?_⟩
    split
    · rename_i none
      have none := List.append_eq_nil_iff.mp (List.isEmpty_iff.mp none)
      rw [← all, ← rows, none.1, none.2]
      rfl
    · rw [Option.getD_some, List.flatten_append, all, rows]
  · rw [among, keys] at some
    exact .inr ⟨⟨e, by rw [upserts, marked, found]; rfl⟩, no, some⟩

/-! ### The table after it -/

theorem reads_mem {versions : Batch κ β}
    (same : ∀ a ∈ versions, ∀ b ∈ versions, a.key = b.key → a = b) (table : Batch κ β)
    (one : (table.map (·.key)).Nodup) (r : Row κ β) :
    r ∈ reads (table ++ versions) ↔
      ((r ∈ table ∧ r.key ∉ versions.map (·.key)) ∨ r ∈ versions) ∧ r.live = true := by
  rw [reads, List.mem_filter, latest_append, latest_eq_self _ one, List.mem_append,
    List.mem_filter, decide_eq_true_eq, mem_latest_of_same (fun r : Row κ β => r.key) same]

theorem reads_nodup (versions : Batch κ β) : ((reads versions).map (·.key)).Nodup :=
  (latest_nodup _ versions).sublist (List.filter_sublist.map _)

/-- The rows of a change's batch: the new rows, and a marker for each old row whose key is freed. -/
theorem sent_cases {old new sent : Batch κ β}
    (perm : sent.Perm (conform new ++ (freed old new).map Row.marker)) (r : Row κ β) :
    r ∈ sent ↔ r ∈ conform new ∨ ∃ o ∈ old, o.key ∉ new.map (·.key) ∧ o.marker = r := by
  rw [perm.mem_iff, List.mem_append, List.mem_map]
  refine or_congr Iff.rfl (exists_congr fun o => ?_)
  rw [freed, List.mem_filter, decide_eq_true_eq, and_assoc]

/-- Versions of one key in a change's batch are the same: no marker meets a new row. -/
theorem sent_same {table old new sent : Batch κ β} (one : (table.map (·.key)).Nodup)
    (taken : old ⊆ table) (distinct : (new.map (·.key)).Nodup)
    (perm : sent.Perm (conform new ++ (freed old new).map Row.marker)) {a b : Row κ β}
    (inside : a ∈ sent) (inside' : b ∈ sent) (eq : a.key = b.key) : a = b := by
  have keyed : ∀ r ∈ conform new, r.key ∈ new.map (·.key) := fun r inside =>
    conform_keys new ▸ List.mem_map_of_mem inside
  rcases (sent_cases perm a).mp inside with isNew | ⟨o, from_, free, rfl⟩
  · rcases (sent_cases perm b).mp inside' with isNew' | ⟨o', from', free', rfl⟩
    · exact conform_same distinct isNew isNew' eq
    · exact absurd (eq ▸ keyed a isNew) free'
  · rcases (sent_cases perm b).mp inside' with isNew' | ⟨o', from', free', rfl⟩
    · exact absurd (eq ▸ keyed b isNew') free
    · rw [List.inj_on_of_nodup_map one (taken from_) (taken from') eq]

/-- The rows of a keyed table after its change: the old rows are gone, the new ones are there, and each
other row is left but where a new row has its key. The batch holds no key's marker and row at once. -/
theorem upserts_applied (marks : Bool) (table : Batch κ β) (old new : List (Batch κ β))
    (one : (table.map (·.key)).Nodup) (live : ∀ r ∈ table, r.live = true)
    (taken : old.flatten ⊆ table) (distinct : (new.flatten.map (·.key)).Nodup) :
    match upserts marks old new with
    | .error _ => marks = false ∧ ∃ r ∈ old.flatten, r.key ∉ new.flatten.map (·.key)
    | .ok batch =>
      (∀ sent, sent.Perm (batch.getD []) →
        ((reads (table ++ sent)).map (·.key)).Nodup ∧
        ∀ r, r ∈ reads (table ++ sent) ↔
          (r ∈ table ∧ r ∉ old.flatten ∧ r.key ∉ new.flatten.map (·.key)) ∨
            (r ∈ conform new.flatten ∧ r.live = true)) ∧
      ∀ marker ∈ batch.getD [], ∀ r ∈ batch.getD [], marker ∉ conform new.flatten →
        r ∈ conform new.flatten → marker.live = false ∧ marker.key ≠ r.key := by
  rcases upserts_eq marks old new with ⟨batch, found, rows⟩ | ⟨⟨e, found⟩, no, some⟩
  · rw [found]
    simp only [rows]
    refine ⟨fun sent perm => ⟨reads_nodup _, fun r => ?_⟩, ?_⟩
    · have same : ∀ a ∈ sent, ∀ b ∈ sent, a.key = b.key → a = b :=
        fun a inside b inside' => sent_same one taken distinct perm inside inside'
      rw [reads_mem same table one, sent_cases perm]
      constructor
      · rintro ⟨⟨inside, apart⟩ | isNew | ⟨o, -, -, rfl⟩, alive⟩
        · have free : r.key ∉ new.flatten.map (·.key) := fun taken' => by
            obtain ⟨n, isNew, eq⟩ := List.mem_map.mp (conform_keys new.flatten ▸ taken')
            exact apart (eq ▸ List.mem_map_of_mem ((sent_cases perm n).mpr (.inl isNew)))
          refine .inl ⟨inside, fun isOld => apart ?_, free⟩
          have marker := (sent_cases perm r.marker).mpr (.inr ⟨r, isOld, free, rfl⟩)
          exact List.mem_map.mpr ⟨r.marker, marker, rfl⟩
        · exact .inr ⟨isNew, alive⟩
        · cases alive
      · rintro (⟨inside, notOld, free⟩ | ⟨isNew, alive⟩)
        · refine ⟨.inl ⟨inside, fun here => ?_⟩, live r inside⟩
          obtain ⟨b, sent', eq⟩ := List.mem_map.mp here
          rcases (sent_cases perm b).mp sent' with isNew | ⟨o, isOld, -, rfl⟩
          · exact free (eq ▸ conform_keys new.flatten ▸ List.mem_map_of_mem isNew)
          · rw [List.inj_on_of_nodup_map one inside (taken isOld) eq.symm] at notOld
            exact notOld isOld
        · exact ⟨.inr (.inl isNew), alive⟩
    · intro marker inside r _ notNew isNew
      rcases (sent_cases (List.Perm.refl _) marker).mp inside with isNew' | ⟨o, -, free, rfl⟩
      · exact absurd isNew' notNew
      · refine ⟨rfl, fun eq => free ?_⟩
        have : r.key ∈ new.flatten.map (·.key) := conform_keys new.flatten ▸ List.mem_map_of_mem isNew
        exact eq.symm ▸ this
  · rw [found]
    obtain ⟨r, inside⟩ := List.exists_mem_of_ne_nil _ some
    rw [freed, List.mem_filter, decide_eq_true_eq] at inside
    exact ⟨no, r, inside⟩

end batches

/-- A row with nothing of its own but its key and value. -/
def plainRow (key : Nat) (value : String) : Row Nat String := ⟨key, value, none, none, none, none⟩

/-- Two keys swapped, one moved, one deleted and taken again. -/
theorem swapped_applied :
    let table := [plainRow 1 "a", plainRow 2 "b", plainRow 3 "c", plainRow 4 "d", plainRow 5 "e"]
    let old := [[plainRow 1 "a", plainRow 2 "b"], [plainRow 3 "c", plainRow 4 "d"]]
    let new := [[plainRow 2 "a", plainRow 1 "b"], [], [plainRow 6 "c", plainRow 4 "f"]]
    (match upserts true old new with
    | .error _ => False
    | .ok batch => (∀ sent, sent.Perm (batch.getD []) → ∀ r, r ∈ reads (table ++ sent) ↔
        (r ∈ table ∧ r ∉ old.flatten ∧ r.key ∉ new.flatten.map (·.key)) ∨
          (r ∈ conform new.flatten ∧ r.live = true))) := by
  intro table old new
  have all := upserts_applied true table old new (by decide) (by decide) (by decide) (by decide)
  exact fun sent perm => (all.1 sent perm).2

/-- An upsert's new row takes the place of a row that is not in `old`. -/
theorem upserts_replaced :
    ∃ batch, upserts true [] [[plainRow 1 "b"]] = .ok (some batch) ∧
      plainRow 1 "a" ∈ [plainRow 1 "a"] ∧
      plainRow 1 "a" ∉ reads ([plainRow 1 "a"] ++ batch) :=
  ⟨[plainRow 1 "b"], rfl, by decide, by decide⟩

end Pondra.Change
