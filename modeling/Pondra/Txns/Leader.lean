import Pondra.Txns.Commit

set_option autoImplicit false

namespace Pondra.Txns

open Machines

/-- A statement a transaction keeps, as it was recorded: the keys its locks cover, the commit it read as
of, the rows it replaces, and the conflict targets it checked. -/
structure Statement where
  keys : Option (List Key)
  at' : Nat
  old : List Row
  targets : List Key

/-- A statement with no locks reads the table's rows, one with locks those they cover. -/
def Statement.Covers (s : Statement) (k : Key) : Prop :=
  match s.keys with
  | some keys => k ∈ keys
  | none => True

/-- An open transaction, the statements of each table it keeps, and those it kept at each savepoint. -/
structure Open where
  txn : Txn
  stmts : String → List Statement
  saved : List (String → List Statement)

namespace Open

def start : Open := ⟨.start, fun _ => [], []⟩

def keep (o : Open) (table : String) (key on : List String) (old : List Row) (new : List New)
    (at' : Nat) (locked : Option (List Key)) : Open :=
  let kept := (stamped o.txn.next new).1
  let stmt : Statement := ⟨locked, at', old, conflictKeys on kept⟩
  { o with
    txn := o.txn.keep table key old new at' locked
    stmts := Function.update o.stmts table (stmt :: o.stmts table) }

def lock (o : Open) (table : String) (keys : List Key) (at' : Nat) : Open :=
  { o with
    txn := o.txn.readKeys table keys at'
    stmts := Function.update o.stmts table (⟨some keys, at', [], []⟩ :: o.stmts table) }

def savepoint (o : Open) (name : String) : Open :=
  { o with txn := o.txn.savepoint name, saved := o.saved ++ [o.stmts] }

def release (o : Open) (name : String) : Open :=
  match o.txn.markOf name with
  | some i => { o with txn := o.txn.releaseSavepoint name, saved := o.saved.take i }
  | none => o

def rollbackTo (o : Open) (keys : String → List String) (name : String) : Open :=
  match o.txn.markOf name with
  | some i =>
    { txn := o.txn.rollbackTo keys name
      stmts := o.saved[i]?.getD o.stmts
      saved := o.saved.take (i + 1) }
  | none => o

end Open

/-- A table's part of a transaction's commit. -/
structure Part where
  table : String
  changes : Changes
  reads : Reads
  stmts : List Statement

/-- A commit that `write_changes` is at: the tables to check, and those it has. -/
structure Committing where
  rest : List Part
  checked : List Part

/-- What a commit wrote, the part of each table. -/
structure Written where
  first : Nat
  parts : List Part

/-- The leader: its log, the last number in it, the transactions, and the commit it writes. -/
structure Leader where
  log : List Commit
  visible : Nat
  txns : Nat → Open
  committing : Option Committing
  written : List Written

inductive Act where
  | begin (t : Nat)
  | keep (t : Nat) (table : String) (on : List String) (old : List Row) (new : List New) (at' : Nat)
    (locked : Option (List Key))
  | lock (t : Nat) (table : String) (keys : List Key) (at' : Nat)
  | savepoint (t : Nat) (name : String)
  | release (t : Nat) (name : String)
  | rollbackTo (t : Nat) (name : String)
  | commit (t : Nat) (tables : List String)
  | check
  | write (span : Nat)
  | other (c : Commit)

namespace Leader

def start : Leader := ⟨[], 0, fun _ => .start, none, []⟩

def put (s : Leader) (t : Nat) (o : Open) : Leader := { s with txns := Function.update s.txns t o }

/-- A commit lands in the log. -/
def land (s : Leader) (c : Commit) : Leader :=
  { s with log := s.log ++ [c], visible := c.first + c.span - 1 }

/-- A commit of the next numbers. -/
def Fits (s : Leader) (c : Commit) : Prop := c.first = s.visible + 1 ∧ 1 ≤ c.span ∧ c.Placed

/-- What the commit in progress writes. -/
def own (s : Leader) (key : String → List String) (checked : List Part) (span : Nat) : Commit :=
  ⟨s.visible + 1, span, fun table =>
    match checked.find? (·.table = table) with
    | some part => appends (key table) part.changes
    | none => ⟨[], [], []⟩⟩

end Leader

/-- The leader with transactions' statements, their commits one at a time, and other commits, in any
order. `key` are the tables' keys. -/
def leader (key : String → List String) : Machine Leader Act where
  next s
    | .begin t => s.put t .start
    | .keep t table on old new at' locked =>
      s.put t ((s.txns t).keep table (key table) on old new at' locked)
    | .lock t table keys at' => s.put t ((s.txns t).lock table keys at')
    | .savepoint t name => s.put t ((s.txns t).savepoint name)
    | .release t name => s.put t ((s.txns t).release name)
    | .rollbackTo t name => s.put t ((s.txns t).rollbackTo key name)
    | .commit t tables =>
      let o := s.txns t
      let parts := tables.map fun table =>
        (⟨table, o.txn.tables table, o.txn.reads table, o.stmts table⟩ : Part)
      { s.put t .start with committing := some ⟨parts, []⟩ }
    | .check =>
      match s.committing with
      | some ⟨part :: rest, checked⟩ =>
        let mine := mineOf (key part.table) part.changes part.reads
        if conflicts s.log s.visible part.table (key part.table) part.reads mine then
          { s with committing := none }
        else { s with committing := some ⟨rest, checked ++ [part]⟩ }
      | _ => s
    | .write span =>
      match s.committing with
      | some ⟨[], checked⟩ =>
        { s.land (s.own key checked span) with
          committing := none
          written := s.written ++ [⟨s.visible + 1, checked⟩] }
      | _ => s
    | .other c => s.land c
  Allows s
    | .keep t table on old new at' locked =>
      at' ≤ s.visible ∧
        ∀ keys, locked = some keys →
          ∀ k ∈ writeKeys (key table) old (stamped (s.txns t).txn.next new).1 ++
            conflictKeys on (stamped (s.txns t).txn.next new).1, k ∈ keys
    | .lock _ _ _ at' => at' ≤ s.visible
    | .commit t tables =>
      s.committing = none ∧ tables.Nodup ∧ ∀ table,
        ((s.txns t).txn.tables table).new ≠ [] ∨ ((s.txns t).txn.tables table).old ≠ [] →
          table ∈ tables
    | .write span =>
      ∃ checked, s.committing = some ⟨[], checked⟩ ∧ s.Fits (s.own key checked span)
    | .other c => s.Fits c
    | _ => True

/-- Where no update is lost: a read with no locks is not as of a commit older than the point of a key
recorded before, if the key changed between; and no commit that lands while another is written changes a
row that one has checked. -/
def Leader.Clear (key : String → List String) (s : Leader) : Act → Prop
  | .keep t table _ _ _ at' none =>
    ∀ k point, (((s.txns t).txn.reads table).keys.lookup k) = some point →
      ∀ c ∈ s.log, at' < c.first → c.first ≤ point → ¬ c.Alters table (key table) k
  | .other c =>
    ∀ committing, s.committing = some committing → ∀ part ∈ committing.checked,
      ∀ k ∈ mineOf (key part.table) part.changes part.reads, ¬ c.Alters part.table (key part.table) k
  | _ => True

/-- Nothing that a commit replaced, deleted or wrote a row of, and no conflict target that locks
recorded, was changed after a statement of its transaction read it; and each row it replaced is the
version that one of them read. -/
def Written.Right (key : String → List String) (log : List Commit) (w : Written) : Prop :=
  ∀ part ∈ w.parts,
    (∀ k ∈ mineOf (key part.table) part.changes part.reads,
      (∃ stmt ∈ part.stmts, stmt.Covers k) ∧ ∀ stmt ∈ part.stmts, stmt.Covers k →
        ∀ c ∈ log, stmt.at' < c.first → c.first < w.first →
          ¬ c.Alters part.table (key part.table) k) ∧
    (∀ row ∈ part.changes.old, ∃ stmt ∈ part.stmts, row ∈ stmt.old ∧
      ∀ k ∈ writeKeys (key part.table) [row] [],
        stmt.Covers k ∧ k ∈ mineOf (key part.table) part.changes part.reads) ∧
    ((key part.table).isEmpty = true → ∀ stmt ∈ part.stmts, stmt.keys ≠ none →
      ∀ k ∈ stmt.targets, k ∈ mineOf (key part.table) part.changes part.reads)

end Pondra.Txns
