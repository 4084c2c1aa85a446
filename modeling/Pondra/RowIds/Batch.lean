import Pondra.Base.Decimals
import Pondra.Base.Dict

set_option autoImplicit false

/- Batches of rows, and the row ids that they carry, are given, and keep in the log. -/

namespace Pondra.RowIds

open Decimals Dicts Words

/-- The name of the row ids' column. -/
def rowId : String := "_row_id"

/-- Where a batch whose row ids run on from one keeps just the first. -/
def firstId : String := "pondra.first_row_id"

/-- A column: 64-bit integers, or values of another type, which may hold a dictionary. -/
inductive Column (ν : Type) where
  | int64 (values : List (Option Int64))
  | other (dtype : String) (dictionary : Bool) (values : List (Option ν))
deriving DecidableEq

/-- A value of a column, with its type. -/
inductive Cell (ν : Type) where
  | int64 (value : Option Int64)
  | other (dtype : String) (value : Option ν)
deriving DecidableEq

/-- Arrow's cast of a column of another type to 64-bit integers. -/
structure Cast (ν : Type) where
  ids : String → List (Option ν) → Option (List (Option Int64))
  keeps : ∀ dtype values is, ids dtype values = some is → is.length = values.length

variable {ν : Type}

namespace Column

def length : Column ν → Nat
  | int64 values => values.length
  | other _ _ values => values.length

def nullCount : Column ν → Nat
  | int64 values => values.countP Option.isNone
  | other _ _ values => values.countP Option.isNone

def dtype : Column ν → String × Bool
  | int64 _ => ("Int64", false)
  | other dtype dictionary _ => (dtype, dictionary)

def slice (offset length : Nat) : Column ν → Column ν
  | int64 values => int64 ((values.drop offset).take length)
  | other dtype dictionary values => other dtype dictionary ((values.drop offset).take length)

def cell (i : Nat) : Column ν → Option (Cell ν)
  | int64 values => values[i]?.map .int64
  | other dtype _ values => values[i]?.map (.other dtype)

def toInt64 (cast : Cast ν) : Column ν → Option (List (Option Int64))
  | int64 values => some values
  | other dtype _ values => cast.ids dtype values

/-- The ids of a column of them that has no nulls. -/
def whole : Column ν → Option (List Int64)
  | int64 values => values.mapM id
  | other _ _ _ => none

end Column

/-- Is a column the row ids'? -/
def isIds (c : String × Column ν) : Bool := decide (c.1 = rowId)

/-- The columns with one set to some values: replaced if it is there, else added at the end. -/
def placed (name : String) (values : Column ν) : List (String × Column ν) → List (String × Column ν)
  | [] => [(name, values)]
  | c :: rest => if c.1 = name then (name, values) :: rest else c :: placed name values rest

/-- Rows by their columns, under a schema's metadata: no more of them than memory can hold. -/
structure Batch (ν : Type) where
  columns : List (String × Column ν)
  metadata : Dict String String
  rows : Nat
  even : ∀ c ∈ columns, c.2.length = rows
  small : rows < 2 ^ 63

namespace Batch

/-- A batch of these columns, as long as the first of them. -/
def tryNew (metadata : Dict String String) : List (String × Column ν) → Option (Batch ν)
  | [] => none
  | first :: rest =>
    if ok : (∀ c ∈ first :: rest, c.2.length = first.2.length) ∧ first.2.length < 2 ^ 63 then
      some ⟨first :: rest, metadata, first.2.length, ok.1, ok.2⟩
    else none

/-- The row ids' column: the first of that name. -/
def ids (b : Batch ν) : Option (Column ν) := (b.columns.find? isIds).map Prod.snd

/-- The columns beside it. -/
def others (b : Batch ν) : List (String × Column ν) := b.columns.eraseP isIds

def set (b : Batch ν) (name : String) (values : Column ν) : Option (Batch ν) :=
  tryNew b.metadata (placed name values b.columns)

theorem even_slice (b : Batch ν) (offset n : Nat) (fits : offset + n ≤ b.rows) :
    ∀ c ∈ b.columns.map fun c => (c.1, c.2.slice offset n), c.2.length = n := by
  intro c inside
  obtain ⟨⟨name, c'⟩, was, rfl⟩ := List.mem_map.mp inside
  have whole := b.even _ was
  cases c' <;> simp only [Column.slice, Column.length, List.length_take, List.length_drop] at whole ⊢ <;>
    omega

/-- Some rows of a batch; past its end is a panic. -/
def slice (b : Batch ν) (offset n : Nat) : Option (Batch ν) :=
  if fits : offset + n ≤ b.rows then
    some {
      columns := b.columns.map fun c => (c.1, c.2.slice offset n)
      metadata := b.metadata
      rows := n
      even := b.even_slice offset n fits
      small := Nat.lt_of_le_of_lt (Nat.le_trans (Nat.le_add_left _ _) fits) b.small }
  else none

/-- A row: its cells by name, and its row id. -/
def row (b : Batch ν) (i : Nat) : List (String × Option (Cell ν)) × Option (Cell ν) :=
  (b.others.map fun c => (c.1, c.2.cell i), b.ids.bind (Column.cell i))

def rowsOf (b : Batch ν) : List (List (String × Option (Cell ν)) × Option (Cell ν)) :=
  (List.range b.rows).map b.row

/-- The batch without its row ids, under the first of them. -/
def bare (b : Batch ν) (first : Int64) : Batch ν where
  columns := b.others
  metadata := b.metadata.insert firstId (String.ofList (written first))
  rows := b.rows
  even c inside := b.even c (List.mem_of_mem_eraseP inside)
  small := b.small

/-- The first id that the metadata names. -/
def firstKept (b : Batch ν) : Option Int64 :=
  (b.metadata.lookup firstId).bind fun f => parseI64 f.toList

end Batch

/-! ### Ids given, and kept in the log -/

/-- The ids from one up to another. -/
def between (start stop : Int64) : List Int64 :=
  (List.range (stop.toInt - start.toInt).toNat).map fun i : Nat => Int64.ofInt (start.toInt + i)

/-- New ids for as many rows, from one on. -/
def fresh (checked : Bool) (first : Int64) (rows : Nat) : Option (List Int64) :=
  (add checked first (Int64.ofNat rows)).map (between first)

/-- The batch with a row id for every row: those it carries, and new ones for the rest. -/
def stamp (checked : Bool) (cast : Cast ν) (b : Batch ν) (first : Int64) : Option (Batch ν) :=
  match b.ids with
  | some c =>
    if c.nullCount = 0 then some b
    else
      (c.toInt64 cast).bind fun old => (fresh checked first b.rows).bind fun new =>
        b.set rowId (.int64 (List.zipWith (fun o f => o.or (some f)) old new))
  | none => (fresh checked first b.rows).bind fun new => b.set rowId (.int64 (new.map some))

/-- Does each id come right after the one before it? -/
def runsOn (checked : Bool) : List Int64 → Option Bool
  | [] => some true
  | [_] => some true
  | a :: b :: rest =>
    (add checked a 1).bind fun after => if b = after then runsOn checked (b :: rest) else some false

/-- The batch as the log keeps it. -/
def compact (checked : Bool) (b : Batch ν) : Option (Batch ν) :=
  match b.ids.bind Column.whole with
  | some (first :: rest) =>
    (runsOn checked (first :: rest)).map fun on => if on then b.bare first else b
  | _ => some b

/-- The batch as it was, `skip` rows into its logged batch. -/
def expand (checked : Bool) (b : Batch ν) (skip : Int64) : Option (Batch ν) :=
  match b.firstKept with
  | none => some b
  | some first =>
    (add checked first skip).bind fun first =>
      (Batch.tryNew ∅ b.columns).bind fun b =>
        (fresh checked first b.rows).bind fun new => b.set rowId (.int64 (new.map some))

/-! ### Columns and rows -/

theorem find_placed (values : Column ν) (columns : List (String × Column ν)) :
    (placed rowId values columns).find? isIds = some (rowId, values) := by
  induction columns with
  | nil => simp [placed, isIds]
  | cons c rest ih =>
    by_cases named : c.1 = rowId
    · simp [placed, named, isIds]
    · have other : isIds c = false := decide_eq_false named
      rw [placed, if_neg named, List.find?_cons, other]
      exact ih

theorem erase_placed (values : Column ν) (columns : List (String × Column ν)) :
    (placed rowId values columns).eraseP isIds = columns.eraseP isIds := by
  induction columns with
  | nil => simp [placed, isIds]
  | cons c rest ih =>
    by_cases named : c.1 = rowId
    · simp [placed, named, isIds]
    · have other : ¬ isIds c = true := by simpa [isIds] using named
      rw [placed, if_neg named, List.eraseP_cons_of_neg other, List.eraseP_cons_of_neg other, ih]

theorem mem_placed {values : Column ν} {columns : List (String × Column ν)} {c : String × Column ν}
    (inside : c ∈ placed rowId values columns) : c = (rowId, values) ∨ c ∈ columns := by
  induction columns with
  | nil => exact .inl (List.mem_singleton.mp inside)
  | cons d rest ih =>
    unfold placed at inside
    split at inside
    · rcases List.mem_cons.mp inside with here | there
      · exact .inl here
      · exact .inr (List.mem_cons_of_mem _ there)
    · rcases List.mem_cons.mp inside with here | there
      · exact .inr (here ▸ List.mem_cons_self)
      · exact (ih there).imp_right (List.mem_cons_of_mem _)

theorem placed_ne_nil (values : Column ν) (columns : List (String × Column ν)) :
    placed rowId values columns ≠ [] := by
  cases columns with
  | nil => exact List.cons_ne_nil _ _
  | cons c rest =>
    unfold placed
    split <;> exact List.cons_ne_nil _ _

namespace Column

@[simp] theorem slice_dtype (c : Column ν) (offset n : Nat) : (c.slice offset n).dtype = c.dtype := by
  cases c <;> rfl

theorem cell_slice (c : Column ν) {offset n i : Nat} (inside : i < n) :
    (c.slice offset n).cell i = c.cell (offset + i) := by
  cases c <;> simp only [slice, cell, List.getElem?_take, if_pos inside, List.getElem?_drop]

theorem slice_whole (c : Column ν) {n : Nat} (long : c.length = n) : c.slice 0 n = c := by
  subst long
  cases c <;> simp [slice, length]

end Column

namespace Batch

variable (b : Batch ν)

theorem tryNew_eq_some {metadata : Dict String String} {columns : List (String × Column ν)} {b : Batch ν}
    (made : tryNew metadata columns = some b) :
    columns ≠ [] ∧ b.columns = columns ∧ b.metadata = metadata := by
  cases columns with
  | nil => cases made
  | cons first rest =>
    obtain ⟨ok, is⟩ := Option.dite_none_right_eq_some.mp made
    cases is
    exact ⟨List.cons_ne_nil _ _, rfl, rfl⟩

/-- Columns of one length make a batch. -/
theorem tryNew_of {metadata : Dict String String} {columns : List (String × Column ν)} {n : Nat}
    (some_ : columns ≠ []) (even : ∀ c ∈ columns, c.2.length = n) (small : n < 2 ^ 63) :
    tryNew metadata columns = some ⟨columns, metadata, n, even, small⟩ := by
  cases columns with
  | nil => exact (some_ rfl).elim
  | cons first rest =>
    have long : first.2.length = n := even _ List.mem_cons_self
    subst long
    exact dif_pos ⟨even, small⟩

/-- Ids for every row, set: the batch has them, and is otherwise as it was. -/
theorem set_of {values : Column ν} (long : values.length = b.rows) :
    ∃ s, b.set rowId values = some s ∧ s.columns = placed rowId values b.columns ∧
      s.metadata = b.metadata ∧ s.rows = b.rows := by
  have even : ∀ c ∈ placed rowId values b.columns, c.2.length = b.rows := by
    intro c inside
    rcases mem_placed inside with rfl | was
    · exact long
    · exact b.even c was
  exact ⟨_, tryNew_of (placed_ne_nil values b.columns) even b.small, rfl, rfl, rfl⟩

theorem ids_placed {s : Batch ν} {values : Column ν} {columns : List (String × Column ν)}
    (is : s.columns = placed rowId values columns) :
    s.ids = some values ∧ s.others = columns.eraseP isIds := by
  unfold ids others
  rw [is, find_placed, erase_placed]
  exact ⟨rfl, rfl⟩

theorem ids_length {c : Column ν} (held : b.ids = some c) : c.length = b.rows := by
  obtain ⟨entry, found, rfl⟩ := Option.map_eq_some_iff.mp held
  exact b.even entry (List.mem_of_find?_eq_some found)

end Batch

end Pondra.RowIds
