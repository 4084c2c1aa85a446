import Mathlib.Tactic.Choose
import Pondra.Base.Traverse
import Pondra.RowIds.Batch

set_option autoImplicit false

/- The parts of the log: batches cut into row slices, and read back slice by slice. -/

namespace Pondra.RowIds

open Traverse Words

variable {ν β : Type}

namespace Batch

/-- The columns' names and types, and the metadata. -/
def schema (b : Batch ν) : List (String × String × Bool) × Dicts.Dict String String :=
  (b.columns.map fun c => (c.1, c.2.dtype), b.metadata)

/-- Does a column's type hold a dictionary? -/
def dictionaries (b : Batch ν) : Bool := b.columns.any fun c => c.2.dtype.2

end Batch

/-- Arrow's streams of batches: those of one schema are read as they were written, unless a slice
brings dictionaries of its own. -/
structure Ipc (ν β : Type) where
  write : List (String × String × Bool) × Dicts.Dict String String → List (Batch ν) → β
  read : β → Option (List (Batch ν))
  reads : ∀ (b : Batch ν) (parts : List (Batch ν)), (∀ part ∈ parts, part.schema = b.schema) →
    (b.dictionaries = true → parts.length = 1) → read (write b.schema parts) = some parts

section encoding

variable (checked : Bool) (ipc : Ipc ν β)

/-- The rows from `i * rows / n` up to `(i + 1) * rows / n`. -/
def piece (b : Batch ν) (n i : Nat) : Option (Batch ν) :=
  (counted checked (i * b.rows : Nat)).bind fun low =>
    (counted checked ((i + 1) * b.rows : Nat)).bind fun high =>
      (counted checked ((high / n : Nat) - (low / n : Nat))).bind fun count => b.slice (low / n) count

/-- A batch in `n` row slices. -/
def pieces (b : Batch ν) (n : Nat) : Option (List (Batch ν)) :=
  if n ≤ 1 then some [b] else (List.range n).mapM (piece checked b n)

/-- The batches as one stream, each cut into as many row slices as its bytes of values ask for, and
its rows allow. -/
def encodeSliced (valuesOf : Batch ν → Nat) (slices : Nat → Nat) (batches : List (Batch ν)) : Option β :=
  match batches with
  | [] => none
  | first :: _ =>
    let slicesOf b := if first.dictionaries then 1 else min (slices (valuesOf b)) b.rows
    (batches.mapM fun b => pieces checked b (slicesOf b)).map fun cut =>
      ipc.write first.schema cut.flatten

def expandFrom : Int64 → List (Batch ν) → Option (List (Batch ν))
  | _, [] => some []
  | skip, b :: rest =>
    (expand checked b skip).bind fun whole =>
      (add checked skip (Int64.ofNat b.rows)).bind fun skip =>
        (expandFrom skip rest).map fun others => whole :: others

def decodePart (bytes : β) : Option (List (Batch ν)) := (ipc.read bytes).bind (expandFrom checked 0)

end encoding

/-! ### Slices of a batch, one after another -/

/-- Slices that run on from a row of a batch to its end. -/
inductive Tiles (b : Batch ν) : Nat → List (Batch ν) → Prop where
  | done : Tiles b b.rows []
  | next {start n : Nat} {part : Batch ν} {rest : List (Batch ν)} (here : b.slice start n = some part)
      (others : Tiles b (start + n) rest) : Tiles b start (part :: rest)

namespace Batch

variable {b part : Batch ν} {start n : Nat}

theorem slice_eq_some (is : b.slice start n = some part) :
    start + n ≤ b.rows ∧ part.columns = (b.columns.map fun c => (c.1, c.2.slice start n)) ∧
      part.metadata = b.metadata ∧ part.rows = n := by
  obtain ⟨fits, is⟩ := Option.dite_none_right_eq_some.mp is
  cases is
  exact ⟨fits, rfl, rfl, rfl⟩

theorem slice_of (fits : start + n ≤ b.rows) : ∃ part, b.slice start n = some part :=
  ⟨_, dif_pos fits⟩

theorem slice_all (b : Batch ν) : b.slice 0 b.rows = some b := by
  have columns : (b.columns.map fun c => (c.1, c.2.slice 0 b.rows)) = b.columns := by
    conv_rhs => rw [← List.map_id b.columns]
    apply List.map_congr_left
    intro c inside
    rw [Column.slice_whole c.2 (b.even c inside), id]
  unfold slice
  rw [dif_pos (Nat.zero_add b.rows).le]
  obtain ⟨cols, metadata, rows, even, small⟩ := b
  simp only [columns]

theorem slice_schema (is : b.slice start n = some part) : part.schema = b.schema := by
  obtain ⟨_, columns, metadata, _⟩ := slice_eq_some is
  simp [schema, columns, metadata]

theorem find_slice (start n : Nat) (columns : List (String × Column ν)) :
    (columns.map fun c => (c.1, c.2.slice start n)).find? isIds =
      (columns.find? isIds).map fun c => (c.1, c.2.slice start n) := by
  induction columns with
  | nil => rfl
  | cons c rest ih =>
    have same : isIds (c.1, c.2.slice start n) = isIds c := rfl
    rw [List.map_cons, List.find?_cons, List.find?_cons, same, ih]
    cases isIds c <;> rfl

theorem erase_slice (start n : Nat) (columns : List (String × Column ν)) :
    (columns.map fun c => (c.1, c.2.slice start n)).eraseP isIds =
      (columns.eraseP isIds).map fun c => (c.1, c.2.slice start n) := by
  induction columns with
  | nil => rfl
  | cons c rest ih =>
    have same : isIds (c.1, c.2.slice start n) = isIds c := rfl
    rw [List.map_cons, List.eraseP_cons, List.eraseP_cons, same, ih]
    cases isIds c <;> rfl

/-- Cells of a slice's columns are the batch's, further on. -/
theorem cells_slice {i : Nat} (columns : List (String × Column ν)) (inside : i < n) :
    ((columns.map fun c => (c.1, c.2.slice start n)).map fun c => (c.1, c.2.cell i)) =
      columns.map fun c => (c.1, c.2.cell (start + i)) := by
  rw [List.map_map]
  apply List.map_congr_left
  intro c _
  show (c.1, (c.2.slice start n).cell i) = _
  rw [Column.cell_slice c.2 inside]

theorem row_slice {i : Nat} (is : b.slice start n = some part) (inside : i < n) :
    part.row i = b.row (start + i) := by
  obtain ⟨_, columns, _, _⟩ := slice_eq_some is
  have others : part.others = b.others.map fun c => (c.1, c.2.slice start n) := by
    rw [Batch.others, columns, erase_slice, Batch.others]
  have ids : part.ids = b.ids.map (Column.slice start n) := by
    rw [Batch.ids, columns, find_slice, Batch.ids, Option.map_map, Option.map_map]
    rfl
  rw [row, row, others, cells_slice b.others inside, ids]
  cases b.ids with
  | none => rfl
  | some c => exact congrArg _ (Column.cell_slice c inside)

theorem rowsOf_slice (is : b.slice start n = some part) :
    part.rowsOf = (List.range' start n).map b.row := by
  rw [rowsOf, (slice_eq_some is).2.2.2, List.range'_eq_map_range, List.map_map]
  apply List.map_congr_left
  intro i inside
  exact row_slice is (List.mem_range.mp inside)

end Batch

namespace Tiles

variable {b : Batch ν} {start : Nat} {parts : List (Batch ν)}

theorem rows (tiles : Tiles b start parts) :
    parts.flatMap Batch.rowsOf = (List.range' start (b.rows - start)).map b.row := by
  induction tiles with
  | done => simp
  | next here others ih =>
    have fits := (Batch.slice_eq_some here).1
    rw [List.flatMap_cons, ih, Batch.rowsOf_slice here, ← List.map_append, List.range'_append_1]
    congr 2
    omega

theorem schema (tiles : Tiles b start parts) : ∀ part ∈ parts, part.schema = b.schema := by
  induction tiles with
  | done => exact fun _ no => (List.not_mem_nil no).elim
  | next here others ih =>
    intro part inside
    rcases List.mem_cons.mp inside with rfl | inside
    · exact Batch.slice_schema here
    · exact ih part inside

/-- Slices between places that go up to the batch's end. -/
theorem of_places (b : Batch ν) (place : Nat → Nat) (up : ∀ i, place i ≤ place (i + 1)) (n i : Nat)
    (last : place (i + n) = b.rows) (part : Nat → Batch ν)
    (each : ∀ j, i ≤ j → j < i + n → b.slice (place j) (place (j + 1) - place j) = some (part j)) :
    Tiles b (place i) ((List.range' i n).map part) := by
  induction n generalizing i with
  | zero =>
    have there : place i = b.rows := last
    rw [there]
    exact .done
  | succ n ih =>
    have more := ih (i + 1) (by rw [← last]; congr 1; omega) fun j low high => each j (by omega) (by omega)
    have step := up i
    apply Tiles.next (each i (le_refl _) (by omega))
    rw [Nat.add_sub_cancel' step]
    exact more

end Tiles

section cutting

variable {checked : Bool} {b : Batch ν} {n : Nat}

theorem piece_eq {i : Nat} (fits : (i + 1) * b.rows < 2 ^ 64) :
    piece checked b n i = b.slice (i * b.rows / n) ((i + 1) * b.rows / n - i * b.rows / n) := by
  have less : i * b.rows ≤ (i + 1) * b.rows := Nat.mul_le_mul_right _ (Nat.le_succ i)
  have divided : i * b.rows / n ≤ (i + 1) * b.rows / n := Nat.div_le_div_right less
  have small : (i + 1) * b.rows / n - i * b.rows / n < 2 ^ 64 := by
    have all := Nat.div_le_self ((i + 1) * b.rows) n
    have part := Nat.sub_le ((i + 1) * b.rows / n) (i * b.rows / n)
    exact Nat.lt_of_le_of_lt (Nat.le_trans part all) fits
  unfold piece
  rw [counted_eq (Nat.lt_of_le_of_lt less fits), Option.bind_some, counted_eq fits, Option.bind_some,
    ← Int.natCast_sub divided, counted_eq small, Option.bind_some]

/-- The slices of a batch run on over all its rows, where the rows of as many batches can be counted. -/
theorem pieces_tiles (fits : n * b.rows < 2 ^ 64) :
    ∃ parts, pieces checked b n = some parts ∧ Tiles b 0 parts ∧ (n ≤ 1 → parts.length = 1) := by
  unfold pieces
  by_cases one : n ≤ 1
  · rw [if_pos one]
    have whole : Tiles b 0 [b] := by
      apply Tiles.next b.slice_all
      rw [Nat.zero_add]
      exact .done
    exact ⟨[b], rfl, whole, fun _ => rfl⟩
  · have bounded : ∀ i, i < n → (i + 1) * b.rows ≤ n * b.rows := fun i less =>
      Nat.mul_le_mul_right _ less
    have up : ∀ i, i * b.rows / n ≤ (i + 1) * b.rows / n := fun i =>
      Nat.div_le_div_right (Nat.mul_le_mul_right _ (Nat.le_succ i))
    have last : n * b.rows / n = b.rows := Nat.mul_div_cancel_left _ (by omega)
    have within : ∀ i, i < n → (i + 1) * b.rows / n ≤ b.rows := fun i less => by
      have := Nat.div_le_div_right (c := n) (bounded i less)
      omega
    have slices : ∀ i, ∃ part, i < n →
        b.slice (i * b.rows / n) ((i + 1) * b.rows / n - i * b.rows / n) = some part := by
      intro i
      by_cases less : i < n
      · have room := within i less
        have step := up i
        have inside : i * b.rows / n + ((i + 1) * b.rows / n - i * b.rows / n) ≤ b.rows := by omega
        obtain ⟨part, is⟩ := Batch.slice_of inside
        exact ⟨part, fun _ => is⟩
      · exact ⟨b, fun yes => absurd yes less⟩
    choose part is using slices
    have cut : (List.range n).mapM (piece checked b n) = some ((List.range n).map part) := by
      apply mapM_some
      intro i inside
      have less := List.mem_range.mp inside
      have room := bounded i less
      rw [piece_eq (by omega)]
      exact is i less
    have tiles : Tiles b (0 * b.rows / n) ((List.range' 0 n).map part) := by
      apply Tiles.of_places b (fun i => i * b.rows / n) up n 0
      · rw [Nat.zero_add]
        exact last
      · intro j _ less
        exact is j (by omega)
    rw [Nat.zero_mul, Nat.zero_div, ← List.range_eq_range'] at tiles
    rw [if_neg one]
    exact ⟨_, cut, tiles, fun no => absurd no one⟩

/-- Where they can't, a build that checks stops. -/
theorem pieces_large (many : 1 < n) (large : 2 ^ 64 ≤ n * b.rows) : pieces true b n = none := by
  cases cut : pieces true b n with
  | none => rfl
  | some parts =>
    rw [pieces, if_neg (by omega)] at cut
    have last := mapM_each cut (n - 1) (List.mem_range.mpr (by omega))
    have next : n - 1 + 1 = n := by omega
    rw [piece, next, counted_large large] at last
    cases low : counted true ((n - 1) * b.rows : Nat) <;> rw [low] at last <;> cases last

theorem encode_one (ipc : Ipc ν β) (valuesOf : Batch ν → Nat) (slices : Nat → Nat) :
    encodeSliced checked ipc valuesOf slices [b] =
      (pieces checked b (if b.dictionaries then 1 else min (slices (valuesOf b)) b.rows)).map
        (ipc.write b.schema) := by
  show ([b].mapM fun b' => pieces checked b' _).map _ = _
  rw [List.mapM_cons, List.mapM_nil]
  cases pieces checked b (if b.dictionaries then 1 else min (slices (valuesOf b)) b.rows) with
  | none => rfl
  | some parts =>
    show some (ipc.write b.schema [parts].flatten) = _
    rw [List.flatten_singleton, Option.map_some]

end cutting

end Pondra.RowIds
