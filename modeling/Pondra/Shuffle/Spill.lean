import Mathlib.Algebra.GroupWithZero.Nat
import Pondra.Base.Frames
import Std.Data.String.ToNat

set_option autoImplicit false

namespace Pondra.Shuffle

open Framing

structure Batch (Row : Type) where
  schema : String
  rows : List Row

/-- Arrow's side of a node: its IPC streams, and the bytes a batch takes in memory. -/
structure Arrow (Row : Type) where
  encode : List (Batch Row) → Except String (List UInt8)
  decode : List UInt8 → Except String (List (Batch Row))
  size : Batch Row → Nat

/-- What is encoded is decoded to its rows (a batch may come back in slices), and no bytes at all
aren't a stream. -/
structure Arrow.Lawful {Row : Type} (arrow : Arrow Row) : Prop where
  back : ∀ batches bytes, arrow.encode batches = .ok bytes →
    ∃ read, arrow.decode bytes = .ok read ∧ read.flatMap Batch.rows = batches.flatMap Batch.rows
  empty : ∀ read, arrow.decode [] ≠ .ok read

/-- A file's path: its folder and its name there. -/
abbrev Path := String × String

/-- Each write to the scratch disk, the newest first: a path's file holds its newest. -/
abbrev Disk := List (Path × List UInt8)

def Disk.paths (disk : Disk) : List Path := disk.map Prod.fst

/-- One node's rows for one other node, in pieces. -/
structure Spill (Row : Type) where
  dir : String
  name : String
  schema : Option String
  rows : List (Batch Row)
  bytes : Nat
  files : List Path

/-- One piece: a file, or rows small enough to have stayed in memory. -/
inductive Piece (Row : Type) where
  | file (path : Path)
  | rows (rows : List (Batch Row))

/-- A bucket's place: no two buckets have the same. -/
abbrev Key := String × String

/-- `{name}-{n}.arrow` in the bucket's folder. -/
def pathOf (key : Key) (n : Nat) : Path := (key.1, key.2 ++ "-" ++ Nat.repr n ++ ".arrow")

section spill

variable {Row : Type}

namespace Spill

def new (dir name : String) : Spill Row :=
  { dir := dir, name := name, schema := none, rows := [], bytes := 0, files := [] }

def key (spill : Spill Row) : Key := (spill.dir, spill.name)

/-- Write what is in memory as the next piece. `room` is whether the disk takes a file. -/
def write (arrow : Arrow Row) (room : Path → Bool) (spill : Spill Row) (disk : Disk) :
    Except String (Spill Row) × Disk :=
  if spill.rows.isEmpty then (.ok spill, disk)
  else
    match arrow.encode spill.rows with
    | .error e => (.error e, disk)
    | .ok bytes =>
      if room (pathOf spill.key spill.files.length) then
        (.ok { spill with
            rows := []
            bytes := 0
            files := spill.files ++ [pathOf spill.key spill.files.length] },
          (pathOf spill.key spill.files.length, bytes) :: disk)
      else (.error "no room on the spill disk", disk)

def push (arrow : Arrow Row) (piece : Nat) (room : Path → Bool) (spill : Spill Row)
    (batch : Batch Row) (disk : Disk) : Except String (Spill Row) × Disk :=
  let held := { spill with
    schema := some (spill.schema.getD batch.schema)
    bytes := spill.bytes + arrow.size batch
    rows := spill.rows ++ [batch] }
  if piece ≤ held.bytes then held.write arrow room disk else (.ok held, disk)

/-- Its pieces in the order they were made: the files, then what is still in memory. -/
def parts (spill : Spill Row) : List (Piece Row) :=
  spill.files.map .file ++ if spill.rows.isEmpty then [] else [.rows spill.rows]

def count (spill : Spill Row) : Nat :=
  spill.files.length + if spill.rows.isEmpty then 0 else 1

/-- Batches pushed one after another. -/
def pushAll (arrow : Arrow Row) (piece : Nat) (room : Path → Bool) :
    Spill Row → List (Batch Row) → Disk → Except String (Spill Row) × Disk
  | spill, [], disk => (.ok spill, disk)
  | spill, batch :: batches, disk =>
    match spill.push arrow piece room batch disk with
    | (.error e, disk) => (.error e, disk)
    | (.ok spill, disk) => pushAll arrow piece room spill batches disk

/-- Everything another bucket holds, added to this one. -/
def absorb (arrow : Arrow Row) (piece : Nat) (room : Path → Bool) (spill other : Spill Row)
    (disk : Disk) : Except String (Spill Row) × Disk :=
  if other.files.isEmpty then spill.pushAll arrow piece room other.rows disk
  else
    -- ours first: a bucket's pieces keep the order they were made in
    match spill.write arrow room disk with
    | (.error e, disk) => (.error e, disk)
    | (.ok spill, disk) =>
      match other.write arrow room disk with
      | (.error e, disk) => (.error e, disk)
      | (.ok other, disk) =>
        (.ok { spill with
            files := spill.files ++ other.files
            schema := spill.schema.or other.schema }, disk)

/-- Keep one piece, as it came: written to disk, or in memory if it is the only one and small. -/
def keep (arrow : Arrow Row) (most : Nat) (room : Path → Bool) (spill : Spill Row)
    (piece : List UInt8) (disk : Disk) : Except String (Spill Row) × Disk :=
  if piece.isEmpty then (.ok spill, disk)
  else if spill.files.isEmpty && decide (piece.length < most / 8) && spill.rows.isEmpty then
    match arrow.decode piece with
    | .error e => (.error e, disk)
    | .ok rows =>
      (.ok { spill with
          rows := rows
          bytes := (rows.map arrow.size).sum
          schema := rows.head?.map Batch.schema }, disk)
  else
    match spill.write arrow room disk with
    | (.error e, disk) => (.error e, disk)
    | (.ok spill, disk) =>
      if room (pathOf spill.key spill.files.length) then
        (.ok { spill with files := spill.files ++ [pathOf spill.key spill.files.length] },
          (pathOf spill.key spill.files.length, piece) :: disk)
      else (.error "no room on the spill disk", disk)

/-- The next `n` pieces of a stream kept one by one. -/
def takeInto (arrow : Arrow Row) (most : Nat) (room : Path → Bool) :
    Nat → Spill Row → Frames → Disk → Except String (Spill Row × Frames) × Disk
  | 0, spill, frames, disk => (.ok (spill, frames), disk)
  | n + 1, spill, frames, disk =>
    match frames.next with
    | .error e => (.error e, disk)
    | .ok (none, _) => (.error "the stream ended early", disk)
    | .ok (some piece, frames) =>
      match spill.keep arrow most room piece disk with
      | (.error e, disk) => (.error e, disk)
      | (.ok spill, disk) => takeInto arrow most room n spill frames disk

def take (arrow : Arrow Row) (most : Nat) (room : Path → Bool) (dir name : String)
    (frames : Frames) (n : Nat) (disk : Disk) : Except String (Spill Row × Frames) × Disk :=
  takeInto arrow most room n (new dir name) frames disk

end Spill

/-! ### The rows of a bucket -/

/-- A piece's bytes: its file's, or its rows encoded. -/
def Piece.bytes (arrow : Arrow Row) (disk : Disk) : Piece Row → Except String (List UInt8)
  | .file path =>
    match disk.lookup path with
    | some bytes => .ok bytes
    | none => .error "No such file or directory"
  | .rows batches => arrow.encode batches

/-- A piece's batches, as a `chain` reads them. -/
def Piece.read (arrow : Arrow Row) (disk : Disk) : Piece Row → Except String (List (Batch Row))
  | .file path =>
    match disk.lookup path with
    | some bytes => arrow.decode bytes
    | none => .error "No such file or directory"
  | .rows batches => .ok batches

/-- The rows of pieces read one after another. -/
def chain (arrow : Arrow Row) (disk : Disk) : List (Piece Row) → Except String (List Row)
  | [] => .ok []
  | piece :: pieces =>
    match piece.read arrow disk, chain arrow disk pieces with
    | .ok batches, .ok rows => .ok (batches.flatMap Batch.rows ++ rows)
    | .error e, _ => .error e
    | _, .error e => .error e

/-! ### Paths -/

theorem split_last {α : Type} (mark : α) (xs ys before after : List α)
    (clean : mark ∉ before) (clean' : mark ∉ after)
    (same : xs ++ mark :: before = ys ++ mark :: after) : xs = ys ∧ before = after := by
  rcases List.append_eq_append_iff.mp same with ⟨more, rfl, rest⟩ | ⟨more, rfl, rest⟩
  · cases more with
    | nil => exact ⟨(List.append_nil xs).symm, (List.cons.inj rest).2⟩
    | cons first more =>
      have inside := (List.cons.inj rest).2
      apply absurd _ clean
      rw [inside]
      exact List.mem_append_right _ List.mem_cons_self
  · cases more with
    | nil => exact ⟨List.append_nil ys, (List.cons.inj rest).2.symm⟩
    | cons first more =>
      have inside := (List.cons.inj rest).2
      apply absurd _ clean'
      rw [inside]
      exact List.mem_append_right _ List.mem_cons_self

theorem dash_repr (n : Nat) : '-' ∉ (Nat.repr n).toList := by
  intro inside
  rw [Nat.toList_repr] at inside
  exact absurd (Nat.isDigit_of_mem_toDigits (by decide) (by decide) inside) (by decide)

/-- A path tells its bucket and its number: a name's own dashes come before the number's. -/
theorem pathOf_inj (key other : Key) (n m : Nat) (same : pathOf key n = pathOf other m) :
    key = other ∧ n = m := by
  simp only [pathOf, Prod.mk.injEq] at same
  have chars := congrArg String.toList same.2
  simp only [String.toList_append, List.append_assoc] at chars
  rw [← List.append_assoc, ← List.append_assoc, ← List.append_assoc, ← List.append_assoc] at chars
  have cut := List.append_cancel_right chars
  rw [List.append_assoc, List.append_assoc] at cut
  have parts := split_last '-' key.2.toList other.2.toList _ _ (dash_repr n) (dash_repr m) cut
  exact ⟨Prod.ext same.1 (String.toList_inj.mp parts.1),
    Nat.repr_inj.mp (String.toList_inj.mp parts.2)⟩

/-! ### What a step does to the disk -/

/-- Files were added under the paths of some buckets, and none was written over. -/
structure Adds (keys : List Key) (disk later : Disk) : Prop where
  stays : ∀ path bytes, disk.lookup path = some bytes → later.lookup path = some bytes
  fresh : disk.paths.Nodup → later.paths.Nodup
  ours : ∀ path ∈ later.paths, path ∈ disk.paths ∨ ∃ key ∈ keys, ∃ n, path = pathOf key n

theorem Adds.refl (keys : List Key) (disk : Disk) : Adds keys disk disk :=
  ⟨fun _ _ found => found, fun nodup => nodup, fun _ inside => Or.inl inside⟩

theorem Adds.trans {keys : List Key} {first second third : Disk} (one : Adds keys first second)
    (two : Adds keys second third) : Adds keys first third where
  stays path bytes found := two.stays path bytes (one.stays path bytes found)
  fresh nodup := two.fresh (one.fresh nodup)
  ours path inside := by
    rcases two.ours path inside with before | ours
    · exact one.ours path before
    · exact Or.inr ours

theorem Adds.mono {keys more : List Key} {disk later : Disk} (adds : Adds keys disk later)
    (subset : keys ⊆ more) : Adds more disk later where
  stays := adds.stays
  fresh := adds.fresh
  ours path inside := by
    rcases adds.ours path inside with before | ⟨key, listed, n, same⟩
    · exact Or.inl before
    · exact Or.inr ⟨key, subset listed, n, same⟩

theorem mem_paths (disk : Disk) (path : Path) (bytes : List UInt8)
    (found : disk.lookup path = some bytes) : path ∈ disk.paths := by
  obtain ⟨before, after, rfl, _⟩ := List.lookup_eq_some_iff.mp found
  rw [Disk.paths, List.map_append, List.map_cons]
  exact List.mem_append_right _ List.mem_cons_self

theorem adds_file (key : Key) (n : Nat) (bytes : List UInt8) (disk : Disk)
    (free : pathOf key n ∉ disk.paths) : Adds [key] disk ((pathOf key n, bytes) :: disk) where
  stays path held found := by
    have other : path ≠ pathOf key n := fun same => free (same ▸ mem_paths disk path held found)
    rw [List.lookup_cons, beq_eq_false_iff_ne.mpr other]
    exact found
  fresh nodup := List.nodup_cons.mpr ⟨free, nodup⟩
  ours path inside := by
    rcases List.mem_cons.mp inside with here | before
    · exact Or.inr ⟨key, List.mem_singleton_self key, n, here⟩
    · exact Or.inl before

end spill

end Pondra.Shuffle
