import Mathlib.Data.List.Basic
import Mathlib.Data.List.MinMax
import Pondra.Base.Dict

set_option autoImplicit false

namespace Pondra.Txns

open Dicts

/-- A row's key as text, column by column, or an append table's `_row_id`. -/
abbrev Key := List String

scoped instance : LawfulBEq Key := inferInstance

/-- What a transaction read of a table's rows: the commit each was read at, and for rows no lock covers,
the least commit its statements read at. -/
structure Reads where
  floor : Option Nat
  keys : Dict Key Nat

namespace Reads

def empty : Reads := ⟨none, ∅⟩

/-- A statement's read of the table's rows as of `at'`: the keys it locked, or none. -/
def note (r : Reads) (keys : Option (List Key)) (at' : Nat) : Reads :=
  match keys with
  | some keys => keys.foldl (fun (r : Reads) k =>
      let earlier := ((r.keys.lookup k).or r.floor).elim at' (min · at')
      { r with keys := r.keys.insert k earlier }) r
  | none => { r with floor := some (r.floor.elim at' (min · at')) }

/-- The commit a row was read at. -/
def point (r : Reads) (k : Key) : Nat := ((r.keys.lookup k).or r.floor).getD 0

end Reads

section note

variable {r : Reads} {at' : Nat} {k : Key}

theorem earliest_le (earlier : Option Nat) : earlier.elim at' (min · at') ≤ at' := by
  cases earlier with
  | none => exact Nat.le_refl at'
  | some p => exact Nat.min_le_right p at'

theorem note_locked (keys : List Key) :
    (r.note (some keys) at').floor = r.floor ∧
      (r.note (some keys) at').keys.lookup k =
        if k ∈ keys then some (((r.keys.lookup k).or r.floor).elim at' (min · at'))
        else r.keys.lookup k := by
  induction keys generalizing r with
  | nil => exact ⟨rfl, rfl⟩
  | cons first rest ih =>
    obtain ⟨floor, keys⟩ := ih (r := { r with
      keys := r.keys.insert first (((r.keys.lookup first).or r.floor).elim at' (min · at')) })
    refine ⟨floor, keys.trans ?_⟩
    simp only [lookup_insert_eq]
    by_cases same : k = first
    · subst same
      simp only [if_true, Option.some_or, Option.elim_some, List.mem_cons, true_or]
      split
      · congr 1
        cases (r.keys.lookup k).or r.floor with
        | none => exact Nat.min_self _
        | some p => exact Nat.min_eq_left (Nat.min_le_right _ _)
      · rfl
    · simp only [same, if_false, List.mem_cons, false_or]

theorem note_unlocked : (r.note none at').keys = r.keys ∧
    (r.note none at').floor = some (r.floor.elim at' (min · at')) := ⟨rfl, rfl⟩

end note

/-- A row of a table, or one a transaction keeps: each column's value as text. The table's own rows have
a `_version`, a transaction's none. -/
structure Row where
  id : Int
  version : Option Nat
  cell : String → String

/-- A new row of a statement, and the `_row_id` it carries. -/
structure New where
  given : Option Int
  cell : String → String

/-- A table's changes in a transaction: the rows it adds, and the table's rows it replaces or deletes. -/
structure Changes where
  new : List Row
  old : List Row

/-- A keyed table's kept rows by key, as text: how many of the transaction's own rows hold each key, and
the keys of the table's rows it took. -/
structure ByKey where
  live : String → Nat
  gone : List String

/-- A savepoint. -/
structure Mark where
  name : String
  tables : String → Changes
  reads : String → Reads

structure Txn where
  tables : String → Changes
  byKey : String → ByKey
  reads : String → Reads
  marks : List Mark
  next : Int

def keySep : String := String.singleton (Char.ofNat 1)

/-- The parts joined by `keySep`. -/
def joined : List String → String
  | [] => ""
  | [part] => part
  | part :: rest => part ++ keySep ++ joined rest

def keysOf (key : List String) (row : Row) : Key := key.map row.cell

def keyText (key : List String) (row : Row) : String := joined (keysOf key row)

namespace ByKey

def empty : ByKey := ⟨fun _ => 0, []⟩

def added (by' : ByKey) (texts : List String) : ByKey :=
  { by' with live := texts.foldl (fun live k => Function.update live k (live k + 1)) by'.live }

def dropped (by' : ByKey) (texts : List String) : ByKey :=
  { by' with live := texts.foldl (fun live k => Function.update live k (live k - 1)) by'.live }

def taken (by' : ByKey) (texts : List String) : ByKey := { by' with gone := by'.gone ++ texts }

/-- The keys of a table's kept rows, worked out from them. -/
def of (key : List String) (c : Changes) : ByKey :=
  (empty.taken (c.old.map (keyText key))).added (c.new.map (keyText key))

end ByKey

/-- Takes the rows whose ids are `mine` out of the kept rows. -/
def dropRows (new : List Row) (mine : List Int) : List Row := new.filter fun row => row.id ∉ mine

/-- A statement's new rows as they are kept: a row that carries no id takes a temporary one. -/
def stamped : Int → List New → List Row × Int
  | next, [] => ([], next)
  | next, row :: rest =>
    match row.given with
    | some id =>
      let (kept, after) := stamped next rest
      (⟨id, none, row.cell⟩ :: kept, after)
    | none =>
      let (kept, after) := stamped (next - 1) rest
      (⟨next, none, row.cell⟩ :: kept, after)

namespace Txn

def start : Txn :=
  ⟨fun _ => ⟨[], []⟩, fun _ => .empty, fun _ => .empty, [], -1⟩

/-- Keeps a statement's writes: the old rows with a `_version` are the table's, the others the
transaction's own. -/
def keep (t : Txn) (table : String) (key : List String) (old : List Row) (new : List New)
    (at' : Nat) (keys : Option (List Key)) : Txn :=
  let c := t.tables table
  let theirs := old.filter (·.version.isSome)
  let own := old.filter (·.version.isNone)
  let (kept, next) := stamped t.next new
  let by' := t.byKey table
  let by' := if key.isEmpty then by' else
    ((by'.taken (theirs.map (keyText key))).dropped (own.map (keyText key))).added
      (kept.map (keyText key))
  { t with
    tables := Function.update t.tables table
      ⟨dropRows c.new (own.map (·.id)) ++ kept, c.old ++ theirs⟩
    byKey := Function.update t.byKey table by'
    reads := Function.update t.reads table ((t.reads table).note keys at')
    next := next }

/-- Records the rows that a locking read locked. -/
def readKeys (t : Txn) (table : String) (keys : List Key) (at' : Nat) : Txn :=
  { t with reads := Function.update t.reads table ((t.reads table).note (some keys) at') }

def savepoint (t : Txn) (name : String) : Txn :=
  { t with marks := t.marks ++ [⟨name, t.tables, t.reads⟩] }

/-- The newest savepoint of that name. -/
def markOf (t : Txn) (name : String) : Option Nat :=
  (t.marks.reverse.findIdx? (·.name = name)).map fun i => t.marks.length - 1 - i

def releaseSavepoint (t : Txn) (name : String) : Txn :=
  match t.markOf name with
  | some i => { t with marks := t.marks.take i }
  | none => t

/-- The kept writes and reads go back to the savepoint, which stays. -/
def rollbackTo (t : Txn) (keys : String → List String) (name : String) : Txn :=
  match t.markOf name with
  | some i =>
    match t.marks[i]? with
    | some mark =>
      { t with
        tables := mark.tables
        reads := mark.reads
        byKey := fun table =>
          if (keys table).isEmpty then t.byKey table else .of (keys table) (mark.tables table)
        marks := t.marks.take (i + 1) }
    | none => t
  | none => t

/-- The table as of the snapshot with the transaction's writes over it: without the rows it replaced (by
`_row_id`; a keyed table's, by key too), with the rows it added. -/
def overlaid (t : Txn) (table : String) (key : List String) (base : List Row) : List Row :=
  let c := t.tables table
  let by' := t.byKey table
  let ids := ((c.old ++ c.new).map (·.id)).filter (0 ≤ ·)
  let unchanged := base.filter fun row => row.id ∉ ids
  let rest := if key.isEmpty then unchanged else
    unchanged.filter fun row => by'.live (keyText key row) = 0 ∧ keyText key row ∉ by'.gone
  rest ++ c.new

end Txn

/-- A new row as a commit sends it: a temporary id is taken off. -/
structure Sent where
  id : Option Int
  cell : String → String

def fresh (new : List Row) : List Sent :=
  new.map fun row => ⟨if 0 ≤ row.id then some row.id else none, row.cell⟩

end Pondra.Txns
