import Mathlib.Data.List.FinRange
import Pondra.Base.Machine
import Pondra.Txns.Shown

set_option autoImplicit false

/-! ### A transaction's kept rows by key -/

namespace Pondra.Txns.Index

open Machines Dicts

section index

/-- Rows kept together, with the identity of the row ids array they came with. -/
structure Batch where
  stamp : Nat
  rows : List Row

/-- A keyed table's changes in a transaction, batch by batch. -/
structure Changes where
  new : List Batch
  old : List (List Row)

/-- A row, as the batch it came in and its place there. -/
structure Entry where
  batch : Batch
  place : Fin batch.rows.length

def Entry.row (e : Entry) : Row := e.batch.rows.get e.place

abbrev Rows := Dict String Entry

/-- A keyed table's kept rows by key, as text: how many of the transaction's own rows hold each key, and the
keys of the table's rows it took. `rows` holds each key's newest own row, once it has been asked for. -/
structure ByKey where
  live : Dict String Nat
  rows : Option Rows
  gone : List String

variable (key : List String)

def put (b : Batch) (rows : Rows) (i : Fin b.rows.length) : Rows :=
  rows.insert (keyText key (b.rows.get i)) ⟨b, i⟩

/-- Puts the rows of a batch under their keys: a later row of a key wins. -/
def index (rows : Rows) (b : Batch) : Rows := (List.finRange b.rows.length).foldl (put key b) rows

namespace ByKey

def empty : ByKey := ⟨∅, none, []⟩

def counted (live : Dict String Nat) (k : String) : Dict String Nat :=
  live.insert k ((live.lookup k).getD 0 + 1)

/-- The transaction's own rows `b` are kept. -/
def added (held : ByKey) (b : Batch) : ByKey :=
  { held with
    rows := held.rows.map fun rows => index key rows b
    live := (b.rows.map (keyText key)).foldl counted held.live }

/-- One own row of the key goes. -/
def uncounted (held : ByKey) (k : String) : ByKey :=
  match held.live.lookup k with
  | none => held
  | some n =>
    if n - 1 = 0 then
      { held with live := held.live.erase k, rows := held.rows.map fun rows => rows.erase k }
    else { held with live := held.live.insert k (n - 1), rows := none }

/-- The transaction's own rows are replaced. -/
def dropped (held : ByKey) (rows : List Row) : ByKey :=
  (rows.map (keyText key)).foldl uncounted held

/-- The table's rows are replaced or deleted. -/
def taken (held : ByKey) (rows : List Row) : ByKey :=
  { held with gone := held.gone ++ rows.map (keyText key) }

/-- The keys of a table's kept rows, worked out from them. -/
def of (c : Changes) : ByKey := c.new.foldl (added key) (c.old.foldl (taken key) empty)

/-- For each key: a row the transaction keeps holds it, it took the table's row of it away, or neither. -/
def kept (held : ByKey) (keys : List String) : List (Option Bool) :=
  keys.map fun k =>
    if (held.live.lookup k).isSome then some true
    else if k ∈ held.gone then some false
    else none

/-- `rows`, or what they are made as from the kept batches. -/
def made (held : ByKey) (kept : List Batch) : Rows :=
  held.rows.getD ((kept.filter fun b => !b.rows.isEmpty).foldl (index key) ∅)

/-- The transaction's own row of a key: its newest, `some none` when it took the table's row away and
keeps none, `none` neither. -/
def own (held : ByKey) (k : String) (kept : List Batch) : ByKey × Option (Option Row) :=
  let rows := held.made key kept
  ({ held with rows := some rows },
    match (rows.lookup k).map Entry.row with
    | some row => some (some row)
    | none => if k ∈ held.gone then some none else none)

/-- One row of `new`, seen from the last: its key's entry follows `old` to it. -/
def follow (old new : Batch) (rows : Rows) (i : Fin new.rows.length) : Rows :=
  match rows.lookup (keyText key (new.rows.get i)) with
  | some entry => if entry.batch.stamp = old.stamp then put key new rows i else rows
  | none => rows

/-- `old` is replaced by `new`, its rows without those that go: the entries that point into it follow. -/
def shrunk (held : ByKey) (old new : Batch) : ByKey :=
  { held with
    rows := held.rows.map fun rows =>
      (List.finRange new.rows.length).reverse.foldl (follow key old new) rows }

end ByKey

/-- A batch without the rows whose ids are `mine`, in an array made now. -/
def Batch.without (b : Batch) (mine : List Int) (made : Nat) : Batch := ⟨made, dropRows b.rows mine⟩

/-- Takes the rows whose ids are `mine` out of the kept batches; `made` counts the arrays made. -/
def dropBatches (mine : List Int) : List Batch → ByKey → Nat → List Batch × ByKey × Nat
  | [], held, made => ([], held, made)
  | b :: rest, held, made =>
    if b.rows.any fun row => row.id ∈ mine then
      let after := dropBatches mine rest (held.shrunk key b (b.without mine made)) (made + 1)
      (b.without mine made :: after.1, after.2)
    else
      let after := dropBatches mine rest held made
      (b :: after.1, after.2)

structure Mark where
  name : String
  kept : Changes

/-- What a transaction keeps of one keyed table, its savepoints, the next temporary id, and how many arrays
of row ids were made. -/
structure Txn where
  kept : Changes
  held : ByKey
  marks : List Mark
  next : Int
  made : Nat

/-- The table's rows of a statement's old ones, and the transaction's own. -/
def theirs (old : List Row) : List Row := old.filter (·.version.isSome)
def ours (old : List Row) : List Row := old.filter (·.version.isNone)

namespace Txn

def begun : Txn := ⟨⟨[], []⟩, .empty, [], -1, 0⟩

/-- The own rows kept, oldest first. -/
def rows (t : Txn) : List Row := t.kept.new.flatMap Batch.rows

/-- A batch of a statement's old rows. -/
def takeOld (t : Txn) (b : List Row) : Txn :=
  { t with
    held := (t.held.taken key (theirs b)).dropped key (ours b)
    kept := { t.kept with old := t.kept.old ++ [theirs b] } }

def dropMine (t : Txn) (mine : List Int) : Txn :=
  let after := dropBatches key mine t.kept.new t.held t.made
  { t with kept := { t.kept with new := after.1 }, held := after.2.1, made := after.2.2 }

/-- A batch of a statement's new rows. -/
def addNew (t : Txn) (b : List New) : Txn :=
  let rows := stamped t.next b
  { t with
    next := rows.2
    made := t.made + 1
    held := t.held.added key ⟨t.made, rows.1⟩
    kept := { t.kept with new := t.kept.new ++ [⟨t.made, rows.1⟩] } }

/-- Keeps a statement's writes. -/
def keep (t : Txn) (old : List (List Row)) (new : List (List New)) : Txn :=
  let old := old.filter fun b => !b.isEmpty
  let mine := (old.flatMap ours).map (·.id)
  let taken := old.foldl (takeOld key) t
  let left := if mine.isEmpty then taken else taken.dropMine key mine
  (new.filter fun b => !b.isEmpty).foldl (addNew key) left

/-- The newest savepoint of that name. -/
def markOf (t : Txn) (name : String) : Option Nat :=
  (t.marks.reverse.findIdx? (·.name = name)).map fun i => t.marks.length - 1 - i

/-- The kept writes go back to the savepoint, which stays. -/
def rollbackTo (t : Txn) (name : String) : Txn :=
  match t.markOf name with
  | none => t
  | some i =>
    match t.marks[i]? with
    | none => t
    | some mark =>
      { t with held := .of key mark.kept, kept := mark.kept, marks := t.marks.take (i + 1) }

/-- The table's rows `base` with the transaction's writes over them. -/
def overlaid (t : Txn) (base : List Row) : List Row :=
  let ids := ((t.kept.old.flatten ++ t.rows).map (·.id)).filter (0 ≤ ·)
  (base.filter fun row => row.id ∉ ids ∧ (t.held.live.lookup (keyText key row)).isNone ∧
    keyText key row ∉ t.held.gone) ++ t.rows

end Txn

/-- What a session does: a statement over the table's rows as it reads them, whose old and new rows it keeps;
a read of one key's own row; new rows of other tables; and savepoints. -/
inductive Op
  | keep (base : List Row) (old : List (List Row)) (new : List (List New))
  | own (k : String)
  | elsewhere (n : Nat)
  | savepoint (name : String)
  | release (name : String)
  | rollbackTo (name : String)

def next (t : Txn) : Op → Txn
  | .keep _ old new => t.keep key old new
  | .own k => { t with held := (t.held.own key k t.kept.new).1 }
  | .elsewhere n => { t with next := t.next - n }
  | .savepoint name => { t with marks := t.marks ++ [⟨name, t.kept⟩] }
  | .release name =>
    match t.markOf name with
    | some i => { t with marks := t.marks.take i }
    | none => t
  | .rollbackTo name => t.rollbackTo key name

/-- The table's rows have a `_version` and ids of their own, and a statement's old rows are of those it is
shown, each once; a new version carries the id of the row it replaces. -/
def Fits (t : Txn) : Op → Prop
  | .keep base old new =>
    (∀ row ∈ base, row.version.isSome ∧ 0 ≤ row.id) ∧
      Takes (t.overlaid key base) old.flatten new.flatten
  | _ => True

def txn : Machine Txn Op where
  next := next key
  Allows := Fits key

end index

section newest

/-- The entries of a batch's rows, in order. -/
def Batch.entries (b : Batch) : List Entry := (List.finRange b.rows.length).map (Entry.mk b)

def entries (bs : List Batch) : List Entry := bs.flatMap Batch.entries

variable (key : List String)

/-- The last entry of a key. -/
def newest (k : String) (es : List Entry) : Option Entry :=
  es.reverse.find? fun e => keyText key e.row = k

section newest

variable {key : List String} {k : String} {es es' : List Entry} {b : Batch} {e : Entry}

theorem newest_append :
    newest key k (es ++ es') = (newest key k es').or (newest key k es) := by
  rw [newest, List.reverse_append, List.find?_append]
  rfl

theorem newest_cons :
    newest key k (e :: es) = (newest key k es).or (if keyText key e.row = k then some e else none) := by
  rw [← List.singleton_append, newest_append]
  by_cases same : keyText key e.row = k
  · simp [newest, same]
  · simp [newest, same]

theorem newest_spec (found : newest key k es = some e) : e ∈ es ∧ keyText key e.row = k := by
  have inside := List.mem_of_find?_eq_some found
  have holds := List.find?_some found
  exact ⟨List.mem_reverse.mp inside, of_decide_eq_true holds⟩

theorem newest_none : newest key k es = none ↔ ∀ e ∈ es, keyText key e.row ≠ k := by
  simp [newest, List.find?_eq_none]

theorem entries_batch (inside : e ∈ b.entries) : e.batch = b := by
  obtain ⟨i, _, rfl⟩ := List.mem_map.mp inside
  rfl

theorem entries_row : b.entries.map Entry.row = b.rows := by
  rw [Batch.entries, List.map_map]
  exact List.map_get_finRange b.rows

theorem entries_rows (bs : List Batch) : (entries bs).map Entry.row = bs.flatMap Batch.rows := by
  rw [entries, List.map_flatMap]
  congr 1
  funext b
  exact entries_row

theorem newest_row (bs : List Batch) :
    (newest key k (entries bs)).map Entry.row =
      (bs.flatMap Batch.rows).reverse.find? fun row => keyText key row = k := by
  rw [← entries_rows, ← List.map_reverse, List.find?_map]
  rfl

/-- A key has an entry in a batch where a row of it holds the key. -/
theorem newest_batch_none :
    newest key k b.entries = none ↔ ∀ row ∈ b.rows, keyText key row ≠ k := by
  rw [newest_none, ← entries_row, List.forall_mem_map]

theorem newest_batches_none {bs : List Batch} :
    newest key k (entries bs) = none ↔ ∀ row ∈ bs.flatMap Batch.rows, keyText key row ≠ k := by
  rw [newest_none, ← entries_rows, List.forall_mem_map]

end newest

section index

variable {key : List String} {rows : Rows} {b old new : Batch} (k : String)

theorem put_lookup (i : Fin b.rows.length) :
    (put key b rows i).lookup k =
      (if keyText key (Entry.mk b i).row = k then some ⟨b, i⟩ else none).or (rows.lookup k) := by
  rw [put, lookup_insert_eq, Entry.row]
  by_cases same : keyText key (b.rows.get i) = k
  · rw [if_pos same.symm, if_pos same, Option.some_or]
  · rw [if_neg (Ne.symm same), if_neg same, Option.none_or]

theorem puts_lookup (places : List (Fin b.rows.length)) :
    (places.foldl (put key b) rows).lookup k =
      (newest key k (places.map (Entry.mk b))).or (rows.lookup k) := by
  induction places generalizing rows with
  | nil => rfl
  | cons i rest ih => rw [List.foldl_cons, ih, List.map_cons, newest_cons, put_lookup, Option.or_assoc]

theorem index_lookup :
    (index key rows b).lookup k = (newest key k b.entries).or (rows.lookup k) :=
  puts_lookup k (List.finRange b.rows.length)

theorem indexes_lookup (bs : List Batch) :
    (bs.foldl (index key) rows).lookup k = (newest key k (entries bs)).or (rows.lookup k) := by
  induction bs generalizing rows with
  | nil => rfl
  | cons b rest ih =>
    have split : entries (b :: rest) = b.entries ++ entries rest := List.flatMap_cons
    rw [List.foldl_cons, ih, index_lookup, split, newest_append, Option.or_assoc]

/-- A batch with no rows has no entries. -/
theorem entries_filled (bs : List Batch) :
    entries (bs.filter fun b => !b.rows.isEmpty) = entries bs := by
  induction bs with
  | nil => rfl
  | cons b rest ih =>
    by_cases empty : b.rows.isEmpty
    · have none : b.entries = [] := by
        rw [List.isEmpty_iff] at empty
        rw [← List.map_eq_nil_iff, entries_row, empty]
      rw [List.filter_cons_of_neg (by simp [empty]), ih, entries, entries, List.flatMap_cons, none,
        List.nil_append]
    · rw [List.filter_cons_of_pos (by simp [empty]), entries, List.flatMap_cons]
      exact congrArg (b.entries ++ ·) ih

theorem follow_lookup (i : Fin new.rows.length) :
    (ByKey.follow key old new rows i).lookup k =
      (rows.lookup k).map fun e =>
        if e.batch.stamp = old.stamp ∧ keyText key (Entry.mk new i).row = k then ⟨new, i⟩ else e := by
  rw [ByKey.follow]
  by_cases same : keyText key (new.rows.get i) = k
  · rw [same]
    cases held : rows.lookup k with
    | none => simp only [held, Option.map_none]
    | some e =>
      by_cases points : e.batch.stamp = old.stamp
      · simp only [put_lookup, Entry.row, same, if_true, Option.some_or, points,
          and_self, Option.map_some]
      · simp only [held, points, false_and, if_false, Option.map_some]
  · have left : ∀ e : Entry, (if e.batch.stamp = old.stamp ∧ keyText key (Entry.mk new i).row = k
        then ⟨new, i⟩ else e) = e := fun e => if_neg fun both => same both.2
    rw [funext left, Option.map_id']
    split
    · split
      · rw [put_lookup, Entry.row, if_neg same, Option.none_or]
      · rfl
    · rfl

/-- An entry that points into `old` follows it to the first place of its key among those looked at. -/
theorem follows_lookup (apart : new.stamp ≠ old.stamp) (places : List (Fin new.rows.length)) :
    (places.foldl (ByKey.follow key old new) rows).lookup k =
      (rows.lookup k).map fun e =>
        if e.batch.stamp = old.stamp then
          ((places.map (Entry.mk new)).find? fun e => keyText key e.row = k).getD e
        else e := by
  induction places generalizing rows with
  | nil =>
    have same : ∀ e : Entry, (if e.batch.stamp = old.stamp then
        (([].map (Entry.mk new)).find? fun e => keyText key e.row = k).getD e else e) = e :=
      fun e => ite_self e
    rw [funext same, Option.map_id']
    rfl
  | cons i rest ih =>
    rw [List.foldl_cons, ih, follow_lookup, Option.map_map]
    congr 1
    funext e
    rw [Function.comp_apply, List.map_cons, List.find?_cons]
    by_cases points : e.batch.stamp = old.stamp
    · by_cases same : keyText key (Entry.mk new i).row = k
      · simp only [points, same, and_self, if_true, apart, if_false, decide_true, Option.getD_some]
      · simp only [points, same, and_false, if_false, if_true, decide_false]
    · simp only [points, false_and, if_false]

theorem shrunk_lookup (apart : new.stamp ≠ old.stamp) :
    ((List.finRange new.rows.length).reverse.foldl (ByKey.follow key old new) rows).lookup k =
      (rows.lookup k).map fun e =>
        if e.batch.stamp = old.stamp then (newest key k new.entries).getD e else e := by
  rw [follows_lookup k apart, List.map_reverse]
  rfl

end index

end newest

end Pondra.Txns.Index
