import Mathlib.Algebra.BigOperators.Group.List.Lemmas
import Mathlib.Algebra.GroupWithZero.Nat
import Mathlib.Data.List.Perm.Subperm
import Pondra.Base.Machine
import Pondra.Manifests.Ranges

set_option autoImplicit false

/-! ### Files sealed into manifests -/

namespace Pondra.Manifests

open Machines Dicts

section sealing

/-- A table's data file, as the catalog records it. -/
structure DataFile where
  path : String
  rows : Nat
  bytes : Nat
  ord : Nat
  part : String
  stats : Stats
  /-- The columns that hold a NULL; `none`: not known. -/
  nulls : Option (List String)

/-- A manifest's entry in the table's list: where it is, what it holds, its columns' ranges. -/
structure Manifest where
  path : Nat
  files : Nat
  rows : Nat
  bytes : Nat
  stats : Stats
  nulls : Option (List String)

/-- A table's sealed files: its manifest list object, and totals. -/
structure Sealed where
  list : Nat
  files : Nat
  rows : Nat
  bytes : Nat

/-- What goes once no reader can need it. -/
inductive Garbage
  | object (path : Nat)
  | file (path : String)
  deriving DecidableEq

/-- What a metadata object holds; it never changes. -/
inductive Object
  | files (files : List DataFile)
  | list (manifests : List Manifest)

structure Table where
  files : List DataFile
  sealed : Option Sealed
  garbage : List Garbage

/-- An append table's entry, and the metadata objects written, each under its place. History: the objects of
attempts that failed, the files the table should have, and the paths of all it had. -/
structure Lake where
  table : Table
  objects : List Object
  lost : List Nat
  expected : List DataFile
  added : List String

/-- At most this many files in the catalog entry; then all but the newest `keptInline` are sealed. -/
def maxInline : Nat := 128
def keptInline : Nat := 64

/-- Files per manifest at most; smaller manifests are merged, `mergeFrom` at a time. -/
def big : Nat := 4096
def mergeFrom : Nat := 16

/-- The list in runs of `n` at most; `fuel` runs are enough. -/
def chunksFrom {α : Type} (n : Nat) : Nat → List α → List (List α)
  | 0, _ => []
  | _ + 1, [] => []
  | fuel + 1, x :: rest => (x :: rest).take n :: chunksFrom n fuel ((x :: rest).drop n)

def chunks {α : Type} (n : Nat) (xs : List α) : List (List α) := chunksFrom n xs.length xs

variable {τ ν : Type} (scalars : Scalars τ ν)

def nullsOf (files : List DataFile) : Option (List String) :=
  (every (files.map (·.nulls))).map fun nulls => nulls.flatten.dedup

def summary (path : Nat) (files : List DataFile) (schema : Schema τ) : Manifest where
  path := path
  files := files.length
  rows := (files.map (·.rows)).sum
  bytes := (files.map (·.bytes)).sum
  stats := union scalars (files.map (·.stats)) schema
  nulls := nullsOf files

namespace Lake

/-- The files in one manifest. -/
def filesOf (l : Lake) (m : Manifest) : List DataFile :=
  match l.objects[m.path]? with
  | some (.files files) => files
  | _ => []

/-- The table's manifests. -/
def list (l : Lake) : List Manifest :=
  match l.table.sealed with
  | none => []
  | some s =>
    match l.objects[s.list]? with
    | some (.list manifests) => manifests
    | _ => []

/-- All the table's files: those of its manifests, and its own. -/
def everyFile (l : Lake) : List DataFile := l.list.flatMap l.filesOf ++ l.table.files

/-- Files as manifests, a chunk each. -/
def write (schema : Schema τ) (l : Lake) : List (List DataFile) → Lake × List Manifest
  | [] => (l, [])
  | chunk :: rest =>
    let after := write schema { l with objects := l.objects ++ [.files chunk] } rest
    (after.1, summary scalars l.objects.length chunk schema :: after.2)

def discard (l : Lake) (garbage : List Garbage) : Lake :=
  { l with table := { l.table with garbage := l.table.garbage ++ garbage } }

/-- The list put, and the table's sealed files as it says. -/
def putList (l : Lake) (manifests : List Manifest) : Lake :=
  { l with
    objects := l.objects ++ [.list manifests]
    table :=
      { l.table with
        sealed := some
          { list := l.objects.length
            files := (manifests.map (·.files)).sum
            rows := (manifests.map (·.rows)).sum
            bytes := (manifests.map (·.bytes)).sum } } }

/-- Merges the newest run of small manifests, once there are enough. -/
def mergeSmall (schema : Schema τ) (l : Lake) (manifests : List Manifest) : Lake × List Manifest :=
  let small := (manifests.reverse.takeWhile fun m => decide (m.files < big)).length
  if small < mergeFrom then (l, manifests)
  else
    let run := manifests.drop (manifests.length - small)
    let after := l.write scalars schema (chunks big (run.flatMap l.filesOf))
    (after.1.discard (run.map fun m => .object m.path),
      manifests.take (manifests.length - small) ++ after.2)

def oldList (l : Lake) : List Garbage := l.table.sealed.toList.map fun s => .object s.list

/-- Seals the oldest inline files once there are too many, and merges small manifests. -/
def seal_ (schema : Schema τ) (l : Lake) : Lake :=
  if l.table.files.length ≤ maxInline then l
  else
    let oldest := l.table.files.mergeSort fun a b => decide (a.ord ≤ b.ord)
    let sealing := (oldest.take (oldest.length - keptInline)).mergeSort fun a b =>
      decide (a.part < b.part ∨ a.part = b.part ∧ a.ord ≤ b.ord)
    let left : Lake := { l with table := { l.table with files := oldest.drop (oldest.length - keptInline) } }
    let wrote := left.write scalars schema (chunks big sealing)
    let merged := wrote.1.mergeSmall scalars schema (l.list ++ wrote.2)
    (merged.1.putList merged.2).discard l.oldList

/-- Takes manifests apart, the last first: their files back inline. -/
def takeApart (l : Lake) (manifests : List Manifest) : List Nat → Lake × List Manifest
  | [] => (l, manifests)
  | i :: rest =>
    match manifests[i]? with
    | none => (l, manifests)
    | some m =>
      takeApart
        { l with
          table :=
            { l.table with
              files := l.table.files ++ l.filesOf m
              garbage := l.table.garbage ++ [.object m.path] } }
        (manifests.eraseIdx i) rest

/-- The manifests `which` taken apart, and the list without them. -/
def unseal_ (l : Lake) (which : List Nat) : Lake :=
  if which.isEmpty then l
  else
    let apart := l.takeApart l.list which.reverse
    let after := if apart.2.isEmpty then { apart.1 with table := { apart.1.table with sealed := none } }
      else apart.1.putList apart.2
    after.discard l.oldList

def named (old : List DataFile) (f : DataFile) : Bool := old.any fun o => o.path = f.path

/-- Inline files replaced: theirs go, the new ones come in. -/
def replace (l : Lake) (old new : List DataFile) : Lake :=
  { l with
    table :=
      { l.table with
        files := (l.table.files.filter fun f => !named old f) ++ new
        garbage := l.table.garbage ++ old.map fun f => .file f.path }
    expected := (l.expected.filter fun f => !named old f) ++ new
    added := l.added ++ new.map (·.path) }

/-- An inline file's record replaced (rows deleted from it by position). -/
def mark (l : Lake) (file : DataFile) : Lake :=
  let put := fun f : DataFile => if f.path = file.path then file else f
  { l with
    table := { l.table with files := l.table.files.map put }
    expected := l.expected.map put }

/-- Objects of an attempt that ended before its commit. -/
def fail (l : Lake) (written : List Object) : Lake :=
  { l with
    objects := l.objects ++ written
    lost := l.lost ++ List.range' l.objects.length written.length }

def new : Lake := ⟨⟨[], none, []⟩, [], [], [], []⟩

/-- The files that can hold rows matching all of `filters`: manifests looked at first, then files. -/
def pruned {φ : Type} (may : List φ → Schema τ → Option (Bounds ν → Bool)) (l : Lake) (filters : List φ)
    (schema : Schema τ) : List DataFile :=
  let wanted := (l.list.zip (keep scalars may (l.list.map (·.stats)) filters schema)).filterMap fun m =>
    if m.2 then some m.1 else none
  let loaded := wanted.flatMap l.filesOf ++ l.table.files
  (loaded.zip (keep scalars may (loaded.map (·.stats)) filters schema)).filterMap fun f =>
    if f.2 then some f.1 else none

end Lake

inductive Op (τ : Type)
  | seal_ (schema : Schema τ)
  | unseal_ (which : List Nat)
  | replace (old new : List DataFile)
  | mark (file : DataFile)
  | fail (written : List Object)

def next (l : Lake) : Op τ → Lake
  | .seal_ schema => l.seal_ scalars schema
  | .unseal_ which => l.unseal_ which
  | .replace old new => l.replace old new
  | .mark file => l.mark file
  | .fail written => l.fail written

/-- The schema's columns have their types; manifests taken apart are the list's, in order; files replaced are
inline ones, and new ones have paths of their own. -/
def Fits (types : String → τ) (l : Lake) : Op τ → Prop
  | .seal_ schema => ∀ col t, schema.lookup col = some t → t = types col
  | .unseal_ which => which.Pairwise (· < ·) ∧ ∀ i ∈ which, i < l.list.length
  | .replace old new => (∀ f ∈ old, f ∈ l.table.files) ∧ (old.map (·.path)).Nodup ∧
      (new.map (·.path)).Nodup ∧ ∀ f ∈ new, f.path ∉ l.added
  | .mark file => file.path ∈ l.table.files.map (·.path)
  | .fail _ => True

def sealing (types : String → τ) : Machine Lake (Op τ) where
  next := next scalars
  Allows := Fits types

end sealing

section steps

variable {τ ν : Type} {scalars : Scalars τ ν} {types : String → τ} {schema : Schema τ} {l : Lake}

section chunks

variable {α : Type} {n : Nat}

theorem chunksFrom_flatten (some_ : 0 < n) (fuel : Nat) (xs : List α) (enough : xs.length ≤ fuel) :
    (chunksFrom n fuel xs).flatten = xs := by
  induction fuel generalizing xs with
  | zero => rw [List.length_eq_zero_iff.mp (Nat.le_zero.mp enough)]; rfl
  | succ fuel ih =>
    cases xs with
    | nil => rfl
    | cons x rest =>
      have left : ((x :: rest).drop n).length ≤ fuel := by
        rw [List.length_drop]
        simp only [List.length_cons] at enough ⊢
        omega
      rw [chunksFrom, List.flatten_cons, ih _ left, List.take_append_drop]

theorem chunks_flatten (some_ : 0 < n) (xs : List α) : (chunks n xs).flatten = xs :=
  chunksFrom_flatten some_ xs.length xs (Nat.le_refl _)

end chunks

/-- What a manifest's entry says of its files. -/
structure Tells (scalars : Scalars τ ν) (types : String → τ) (m : Manifest) (files : List DataFile) :
    Prop where
  count : m.files = files.length
  rows : m.rows = (files.map (·.rows)).sum
  bytes : m.bytes = (files.map (·.bytes)).sum
  inside : ∀ f ∈ files, Inside scalars types m.stats f.stats
  nulls : ∀ held, m.nulls = some held → ∀ f ∈ files, ∃ mine, f.nulls = some mine ∧ ∀ c ∈ mine, c ∈ held

theorem summary_tells (sound : Sound scalars)
    (typed : ∀ col t, schema.lookup col = some t → t = types col) (path : Nat) (files : List DataFile) :
    Tells scalars types (summary scalars path files schema) files := by
  refine ⟨rfl, rfl, rfl, ?_, ?_⟩
  · intro f inside
    exact union_inside sound typed (List.mem_map_of_mem inside)
  · intro held told f inside
    obtain ⟨all, each, rfl⟩ := Option.map_eq_some_iff.mp told
    have each := every_some.mp each
    have mine : f.nulls ∈ all.map some := by
      rw [← each]
      exact List.mem_map_of_mem inside
    obtain ⟨nulls, held, is⟩ := List.mem_map.mp mine
    exact ⟨nulls, is.symm, fun c within => List.mem_dedup.mpr (List.mem_flatten.mpr ⟨nulls, held, within⟩)⟩

/-- A manifest's files are in its object, and its entry tells of them. -/
def Right (scalars : Scalars τ ν) (types : String → τ) (l : Lake) (m : Manifest) : Prop :=
  ∃ files, l.objects[m.path]? = some (.files files) ∧ Tells scalars types m files

theorem filesOf_eq {m : Manifest} {files : List DataFile}
    (held : l.objects[m.path]? = some (.files files)) : l.filesOf m = files := by
  rw [Lake.filesOf, held]

/-- Objects written before are there after. -/
theorem kept_object {objects more : List Object} {i : Nat} {o : Object} (held : objects[i]? = some o) :
    (objects ++ more)[i]? = some o := by
  obtain ⟨less, _⟩ := List.getElem?_eq_some_iff.mp held
  rw [List.getElem?_append_left less, held]

theorem Right.later {m : Manifest} {l' : Lake} {more : List Object} (right : Right scalars types l m)
    (grown : l'.objects = l.objects ++ more) : Right scalars types l' m := by
  obtain ⟨files, held, tells⟩ := right
  exact ⟨files, by rw [grown]; exact kept_object held, tells⟩

theorem Right.filesOf {m : Manifest} {l' : Lake} {more : List Object} (right : Right scalars types l m)
    (grown : l'.objects = l.objects ++ more) : l'.filesOf m = l.filesOf m := by
  obtain ⟨files, held, _⟩ := right
  rw [filesOf_eq held, filesOf_eq (l := l') (by rw [grown]; exact kept_object held)]

theorem flatMap_filesOf {ms : List Manifest} {l' : Lake} {more : List Object}
    (right : ∀ m ∈ ms, Right scalars types l m) (grown : l'.objects = l.objects ++ more) :
    ms.flatMap l'.filesOf = ms.flatMap l.filesOf := by
  rw [List.flatMap_def, List.flatMap_def,
    List.map_congr_left fun m inside => (right m inside).filesOf grown]

/-- The table, and the files and paths it should have, as before. -/
structure Same (l l' : Lake) : Prop where
  lost : l'.lost = l.lost
  expected : l'.expected = l.expected
  added : l'.added = l.added

theorem Same.trans {l' l'' : Lake} (first : Same l l') (then_ : Same l' l'') : Same l l'' :=
  ⟨then_.lost.trans first.lost, then_.expected.trans first.expected, then_.added.trans first.added⟩

/-- What writing manifests leaves: new objects, one a manifest, that hold the chunks' files. -/
structure Wrote (scalars : Scalars τ ν) (types : String → τ) (l l' : Lake) (ms : List Manifest)
    (wrote : List DataFile) : Prop where
  same : Same l l'
  table : l'.table = l.table
  grown : ∃ more, l'.objects = l.objects ++ more ∧
    ms.map (·.path) = List.range' l.objects.length more.length
  right : ∀ m ∈ ms, Right scalars types l' m
  files : ms.flatMap l'.filesOf = wrote

theorem write_spec (sound : Sound scalars)
    (typed : ∀ col t, schema.lookup col = some t → t = types col) (cs : List (List DataFile)) :
    Wrote scalars types l (l.write scalars schema cs).1 (l.write scalars schema cs).2 cs.flatten := by
  induction cs generalizing l with
  | nil =>
    exact ⟨⟨rfl, rfl, rfl⟩, rfl, ⟨[], (List.append_nil _).symm, rfl⟩,
      fun m inside => absurd inside List.not_mem_nil, rfl⟩
  | cons chunk rest ih =>
    obtain ⟨same, table, ⟨more, grown, paths⟩, right, files⟩ :=
      ih (l := { l with objects := l.objects ++ [.files chunk] })
    rw [Lake.write]
    have first : Right scalars types { l with objects := l.objects ++ [.files chunk] }
        (summary scalars l.objects.length chunk schema) :=
      ⟨chunk, List.getElem?_concat_length, summary_tells sound typed _ chunk⟩
    refine ⟨⟨same.lost, same.expected, same.added⟩, table, ⟨.files chunk :: more, ?_, ?_⟩, ?_, ?_⟩
    · rw [grown, List.append_assoc, List.singleton_append]
    · rw [List.map_cons, paths, List.length_append, List.length_singleton, List.length_cons,
        List.range'_succ]
      rfl
    · intro m inside
      rcases List.mem_cons.mp inside with rfl | inside
      · exact first.later grown
      · exact right m inside
    · rw [List.flatMap_cons, files, List.flatten_cons, first.filesOf grown,
        filesOf_eq List.getElem?_concat_length]

end steps

end Pondra.Manifests
