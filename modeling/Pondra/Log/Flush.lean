import Mathlib.Algebra.GroupWithZero.Nat
import Pondra.Base.Dict

set_option autoImplicit false

namespace Pondra.Log

open Dicts

/-- Who sent a batch: its producer and sequence number, and the seq it expects to follow. -/
structure Src where
  producer : String
  seq : Nat
  prev : Option Nat
  deriving DecidableEq

/-- A byte range of a flush holding one table's rows. A view's output has no `src`. -/
structure Part where
  table : String
  off : Nat
  len : Nat
  rows : Nat
  src : Option Src
  placed : Option Nat
  deriving DecidableEq

structure Lineage where
  version : Nat
  ms : Nat
  deriving DecidableEq

structure DataFile where
  path : String
  rows : Nat
  ord : Nat
  lineage : Option Lineage
  deriving DecidableEq

/-- What a commit reads and moves of a table's entry: `enforced`, whether one of its constraints is,
and `placings`, the orders of columns it takes. -/
structure TableMeta where
  files : List DataFile
  rowsAt : Nat
  enforced : Bool
  placings : List Nat
  deriving DecidableEq

/-- One table's part of a file commit. `gone` names the producers whose marks it deletes. -/
structure Filing where
  table : String
  entry : TableMeta
  added : List DataFile
  removed : List DataFile
  deleted : List DataFile
  also : List (String × List UInt8)
  gone : List String
  deriving DecidableEq

/-- A sequence's counter to move. -/
inductive SequenceOp where
  | take
  | change
  deriving DecidableEq

/-- One node's flush, or a request for numbers. -/
structure Flush where
  path : String
  parts : List Part
  data : List UInt8
  reserve : Nat
  block : Bool
  blocks : Nat
  filed : List Filing
  sequence : Option SequenceOp
  checked : Bool
  deriving DecidableEq

structure Ack where
  seg : Nat
  duplicate : Bool
  conflict : Bool
  refused : Bool
  gone : Bool
  moved : Bool
  row : Nat
  ms : Nat
  block : Nat
  deriving DecidableEq

/-- `Ack::default()`. -/
def Ack.blank : Ack := ⟨0, false, false, false, false, false, 0, 0, 0⟩

inductive Outcome where
  | acks (acks : List Ack)
  | retry (skipped : List (Nat × Ack))
  | refused (why : String)
  deriving DecidableEq

/-! ### Parts that are skipped -/

/-- Why a part is skipped. -/
inductive Skip where
  | gone
  | refused
  | moved
  | duplicate
  | conflict
  deriving DecidableEq

/-- What a skipped part is told. -/
def Skip.ack : Skip → Ack
  | .gone => { Ack.blank with gone := true }
  | .refused => { Ack.blank with refused := true }
  | .moved => { Ack.blank with moved := true }
  | .duplicate => { Ack.blank with duplicate := true }
  | .conflict => { Ack.blank with conflict := true }

/-- Does this ack say that its part was skipped? -/
def Ack.skipped (a : Ack) : Bool := a.duplicate || a.conflict || a.refused || a.gone || a.moved

@[simp] theorem Skip.ack_skipped (skip : Skip) : skip.ack.skipped = true := by
  cases skip <;> rfl

@[simp] theorem Skip.ack_seg (skip : Skip) : skip.ack.seg = 0 := by
  cases skip <;> rfl

/-! ### Segments -/

/-- A part as its segment names it, and who sent it. -/
structure Entry where
  off : Nat
  len : Nat
  rows : Nat
  src : Option Src
  deriving DecidableEq

/-- A segment's parts, by table. -/
abbrev Shelf := Dict String (List Entry)

namespace Shelf

def of (shelf : Shelf) (table : String) : List Entry := (shelf.lookup table).getD []

def push (shelf : Shelf) (table : String) (entry : Entry) : Shelf :=
  shelf.insert table (of shelf table ++ [entry])

/-- Another flush's parts after these. -/
def extend (shelf more : Shelf) : Shelf :=
  more.entries.foldl (fun shelf part => shelf.insert part.1 (of shelf part.1 ++ part.2)) shelf

/-- Every part, table by table. -/
def all (shelf : Shelf) : List Entry := shelf.entries.flatMap (·.2)

@[simp] theorem of_empty (table : String) : of ∅ table = [] := rfl

@[simp] theorem all_empty : all ∅ = [] := rfl

theorem of_insert (shelf : Shelf) (table other : String) (entries : List Entry) :
    of (shelf.insert other entries) table = if table = other then entries else of shelf table := by
  rw [of, lookup_insert_eq]
  split
  · rfl
  · rfl

theorem all_insert (shelf : Shelf) (table : String) (entries : List Entry) :
    (all (shelf.insert table (of shelf table ++ entries))).Perm (all shelf ++ entries) := by
  rw [all, AList.entries_insert, List.flatMap_cons]
  by_cases inside : table ∈ shelf
  · obtain ⟨held, before, after, _, split, erased⟩ :=
      List.exists_of_kerase (AList.mem_keys.mp inside)
    have found : of shelf table = held := by
      have entry : (⟨table, held⟩ : Σ _ : String, List Entry) ∈ shelf.entries := by
        rw [split]
        exact List.mem_append_right _ List.mem_cons_self
      rw [of, AList.mem_lookup_iff.mpr entry]
      rfl
    rw [found, erased, all, split, List.flatMap_append, List.flatMap_append, List.flatMap_cons]
    show ((held ++ entries) ++ _).Perm ((_ ++ (held ++ _)) ++ entries)
    rw [List.append_assoc held]
    refine (List.perm_append_comm_assoc held entries _).trans ?_
    refine List.perm_append_comm.trans (List.Perm.append_right entries ?_)
    exact List.perm_append_comm_assoc held _ _
  · have empty : of shelf table = [] := by
      rw [of, AList.lookup_eq_none.mpr inside]
      rfl
    have kept : List.kerase table shelf.entries = shelf.entries :=
      List.kerase_of_notMem_keys fun held => inside (AList.mem_keys.mpr held)
    rw [empty, kept]
    exact List.perm_append_comm

theorem of_push (shelf : Shelf) (table other : String) (entry : Entry) :
    of (push shelf other entry) table =
      if table = other then of shelf table ++ [entry] else of shelf table := by
  rw [push, of_insert]
  split
  · rename_i same
    rw [same]
  · rfl

theorem all_push (shelf : Shelf) (table : String) (entry : Entry) :
    (all (push shelf table entry)).Perm (all shelf ++ [entry]) :=
  all_insert shelf table [entry]

theorem all_extend (shelf more : Shelf) :
    (all (extend shelf more)).Perm (all shelf ++ all more) := by
  rw [extend, all.eq_def more]
  generalize more.entries = parts
  induction parts generalizing shelf with
  | nil => simp
  | cons part rest ih =>
    rw [List.foldl_cons, List.flatMap_cons]
    refine (ih _).trans ?_
    refine (List.Perm.append_right _ (all_insert shelf part.1 part.2)).trans ?_
    rw [List.append_assoc]

theorem of_extend (shelf more : Shelf) (table : String) :
    of (extend shelf more) table = of shelf table ++ of more table := by
  have once := more.nodupKeys
  rw [extend]
  show of (more.entries.foldl _ shelf) table = of shelf table ++ (more.entries.dlookup table).getD []
  generalize more.entries = parts at once
  induction parts generalizing shelf with
  | nil => simp
  | cons part rest ih =>
    obtain ⟨name, entries⟩ := part
    obtain ⟨new, once⟩ := List.nodupKeys_cons.mp once
    rw [List.foldl_cons, ih _ once, of_insert]
    by_cases same : table = name
    · subst same
      rw [if_pos rfl, List.dlookup_cons_eq, List.dlookup_eq_none.mpr new]
      simp
    · rw [if_neg same, List.dlookup_cons_ne _ _ same]

end Shelf

def rowsOf (entries : List Entry) : Nat := (entries.map (·.rows)).sum

@[simp] theorem rowsOf_nil : rowsOf [] = 0 := rfl

@[simp] theorem rowsOf_append (before after : List Entry) :
    rowsOf (before ++ after) = rowsOf before + rowsOf after := by
  simp [rowsOf]

@[simp] theorem rowsOf_single (entry : Entry) : rowsOf [entry] = entry.rows := by
  simp [rowsOf]

structure Filed where
  added : List DataFile
  removed : List DataFile
  deleted : List DataFile
  deriving DecidableEq

structure Segment where
  path : String
  parts : Shelf
  tsMs : Nat
  files : Dict String Filed

/-- The rows of a table's files in a file commit. -/
def filedRows (files : Dict String Filed) (table : String) : Nat :=
  (files.lookup table).elim 0 fun filed => (filed.added.map (·.rows)).sum

/-- A table's rows: its parts', then its files'. -/
def tableRows (parts : Shelf) (files : Dict String Filed) (table : String) : Nat :=
  rowsOf (Shelf.of parts table) + filedRows files table

def Segment.rows (segment : Segment) (table : String) : Nat :=
  tableRows segment.parts segment.files table

/-- The low bits of a place, which number a table's rows in one segment. -/
def ordBits : Nat := 24

/-- A row's place in the log, a 64-bit number. -/
def ord (seg row : Nat) : Nat := ((seg <<< ordBits) % 2 ^ 64 + row) % 2 ^ 64

/-- The numbers a segment takes. -/
def span (parts : Shelf) (files : Dict String Filed) : Nat :=
  1 + ((parts.keys ++ files.keys).map fun table =>
    (tableRows parts files table - 1) >>> ordBits).foldr max 0

def Segment.span (segment : Segment) : Nat := Log.span segment.parts segment.files

/-- A file a commit takes in, as of that commit. -/
def stampFile (file : DataFile) (seg ms : Nat) : DataFile :=
  { file with
    ord := seg
    lineage := file.lineage.map fun l => if l.version = 0 then ⟨seg, ms⟩ else l }

end Pondra.Log
