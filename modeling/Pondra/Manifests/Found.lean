import Pondra.Manifests.Sealing

set_option autoImplicit false

namespace Pondra.Manifests

open Machines Dicts

variable {τ ν : Type} {scalars : Scalars τ ν} {types : String → τ} {schema : Schema τ} {l l' : Lake}
  {ms : List Manifest}

/-! ### What goes -/

def Garbage.object? : Garbage → Option Nat
  | .object path => some path
  | .file _ => none

def Garbage.file? : Garbage → Option String
  | .object _ => none
  | .file path => some path

/-- The metadata objects and the files in the garbage. -/
def Lake.trash (l : Lake) : List Nat := l.table.garbage.filterMap Garbage.object?
def Lake.trashFiles (l : Lake) : List String := l.table.garbage.filterMap Garbage.file?

/-- The metadata objects the table names. -/
def Lake.held (l : Lake) : List Nat :=
  (l.table.sealed.toList.map fun s => s.list) ++ l.list.map fun m => m.path

/-- A table's sealed totals, over its list. -/
structure Totals (s : Sealed) (ms : List Manifest) : Prop where
  files : s.files = (ms.map (·.files)).sum
  rows : s.rows = (ms.map (·.rows)).sum
  bytes : s.bytes = (ms.map (·.bytes)).sum

structure Inv (scalars : Scalars τ ν) (types : String → τ) (l : Lake) : Prop where
  listed : ∀ s, l.table.sealed = some s → ∃ ms, l.objects[s.list]? = some (.list ms) ∧ Totals s ms
  right : ∀ m ∈ l.list, Right scalars types l m
  objects : (l.held ++ l.trash ++ l.lost).Perm (List.range' 0 l.objects.length)
  files : l.everyFile.Perm l.expected
  paths : (l.everyFile.map (·.path) ++ l.trashFiles).Perm l.added
  once : l.added.Nodup

/-- On the way from `l`: `ms` are to be the list of `l'`, their objects and those let go are the ones there were
and those written since, and the files are the same. -/
structure Mid (scalars : Scalars τ ν) (types : String → τ) (l l' : Lake) (ms : List Manifest) : Prop where
  same : Same l l'
  sealed : l'.table.sealed = l.table.sealed
  right : ∀ m ∈ ms, Right scalars types l' m
  objects : ∃ more, l'.objects = l.objects ++ more ∧
    (ms.map (·.path) ++ l'.trash).Perm
      (l.list.map (·.path) ++ l.trash ++ List.range' l.objects.length more.length)
  files : (ms.flatMap l'.filesOf ++ l'.table.files).Perm l.everyFile
  trashFiles : l'.trashFiles = l.trashFiles

theorem trash_discard (garbage : List Garbage) :
    (l.discard garbage).trash = l.trash ++ garbage.filterMap Garbage.object? :=
  List.filterMap_append

theorem trashFiles_discard (garbage : List Garbage) :
    (l.discard garbage).trashFiles = l.trashFiles ++ garbage.filterMap Garbage.file? :=
  List.filterMap_append

theorem objects_of {ids : List Nat} :
    (ids.map Garbage.object).filterMap Garbage.object? = ids := by
  rw [List.filterMap_map]
  exact List.filterMap_some

theorem files_of_objects {ids : List Nat} :
    (ids.map Garbage.object).filterMap Garbage.file? = [] := by
  rw [List.filterMap_map]
  exact List.filterMap_eq_nil_iff.mpr fun _ _ => rfl

theorem oldList_eq : l.oldList = (l.table.sealed.toList.map fun s => s.list).map Garbage.object := by
  rw [Lake.oldList, List.map_map]
  rfl

/-- Manifests written on the way, after those kept. -/
theorem Mid.write (sound : Sound scalars) (typed : ∀ col t, schema.lookup col = some t → t = types col)
    {kept gone : List Manifest} {files : List DataFile} (cs : List (List DataFile))
    (mid : Mid scalars types l l' (kept ++ gone)) (moved : (gone.flatMap l'.filesOf ++ l'.table.files).Perm
      (cs.flatten ++ files)) (left : Lake)
    (is : left = { l' with table := { l'.table with files := files } }) :
    Mid scalars types l
      ((left.write scalars schema cs).1.discard (gone.map fun m => .object m.path))
      (kept ++ (left.write scalars schema cs).2) := by
  obtain ⟨same, table, ⟨new, grown, paths⟩, right, wrote⟩ := write_spec (l := left) sound typed cs
  have objects' : left.objects = l'.objects := by rw [is]
  have keptRight : ∀ m ∈ kept, Right scalars types left m := by
    intro m inside
    rw [is]
    exact mid.right m (List.mem_append_left _ inside)
  obtain ⟨more, before, perm⟩ := mid.objects
  refine ⟨?_, ?_, ?_, ?_, ?_, ?_⟩
  · have first : Same l left := by
      rw [is]
      exact ⟨mid.same.lost, mid.same.expected, mid.same.added⟩
    exact first.trans ⟨same.lost, same.expected, same.added⟩
  · show (left.write scalars schema cs).1.table.sealed = _
    rw [table, is]
    exact mid.sealed
  · intro m inside
    rcases List.mem_append.mp inside with old | fresh
    · exact (keptRight m old).later grown
    · exact right m fresh
  · refine ⟨more ++ new, ?_, ?_⟩
    · show (left.write scalars schema cs).1.objects = _
      rw [grown, objects', before, List.append_assoc]
    · have ids : (gone.map fun m => Garbage.object m.path) = (gone.map (·.path)).map Garbage.object := by
        rw [List.map_map]
        rfl
      have trash : (left.write scalars schema cs).1.trash = l'.trash := by
        rw [Lake.trash, table, is]
        rfl
      have start : left.objects.length = l.objects.length + more.length := by
        rw [objects', before, List.length_append]
      rw [trash_discard, ids, objects_of, trash, List.map_append, paths, start, List.length_append,
        ← List.range'_append_1]
      rw [List.map_append] at perm
      rw [List.perm_iff_count] at perm ⊢
      intro a
      have counted := perm a
      simp only [List.count_append] at counted ⊢
      omega
  · have old : kept.flatMap (left.write scalars schema cs).1.filesOf = kept.flatMap l'.filesOf := by
      rw [flatMap_filesOf keptRight grown, is]
      rfl
    have after : ((left.write scalars schema cs).1.discard
        (gone.map fun m => .object m.path)).table.files = files := by
      show (left.write scalars schema cs).1.table.files = files
      rw [table, is]
    have all := mid.files
    rw [List.flatMap_append, List.append_assoc] at all
    rw [after]
    show ((kept ++ (left.write scalars schema cs).2).flatMap
      (left.write scalars schema cs).1.filesOf ++ files).Perm _
    rw [List.flatMap_append, old, wrote, List.append_assoc]
    exact (moved.symm.append_left _).trans all
  · have none_ : (gone.map fun m => Garbage.object m.path).filterMap Garbage.file? = [] := by
      rw [List.filterMap_map]
      exact List.filterMap_eq_nil_iff.mpr fun _ _ => rfl
    rw [trashFiles_discard, none_, List.append_nil, Lake.trashFiles, table, is]
    exact mid.trashFiles

theorem Mid.mergeSmall (sound : Sound scalars)
    (typed : ∀ col t, schema.lookup col = some t → t = types col) (mid : Mid scalars types l l' ms) :
    Mid scalars types l (l'.mergeSmall scalars schema ms).1 (l'.mergeSmall scalars schema ms).2 := by
  simp only [Lake.mergeSmall]
  split
  · exact mid
  · have split := List.take_append_drop
      (ms.length - (ms.reverse.takeWhile fun m => decide (m.files < big)).length) ms
    refine Mid.write sound typed _ (by rwa [split]) ?_ l' rfl
    rw [chunks_flatten (by decide)]

/-- The list put: the new one named, the old one let go. -/
theorem Mid.finish (inv : Inv scalars types l) (mid : Mid scalars types l l' ms) :
    Inv scalars types ((l'.putList ms).discard l.oldList) := by
  obtain ⟨more, grown, perm⟩ := mid.objects
  have there : (l'.objects ++ [Object.list ms])[l'.objects.length]? = some (.list ms) :=
    List.getElem?_concat_length
  have list : ((l'.putList ms).discard l.oldList).list = ms := by
    simp only [Lake.list, Lake.putList, Lake.discard, there]
  have filesOf : ms.flatMap ((l'.putList ms).discard l.oldList).filesOf = ms.flatMap l'.filesOf :=
    flatMap_filesOf mid.right rfl
  have everyFile : ((l'.putList ms).discard l.oldList).everyFile.Perm l.everyFile := by
    rw [Lake.everyFile, list, filesOf]
    exact mid.files
  constructor
  · intro s is
    refine ⟨ms, ?_, ?_⟩
    · rw [← Option.some.inj is]
      exact there
    · rw [← Option.some.inj is]
      exact ⟨rfl, rfl, rfl⟩
  · rw [list]
    exact fun m inside => (mid.right m inside).later rfl
  · have trash : ((l'.putList ms).discard l.oldList).trash =
        l'.trash ++ l.table.sealed.toList.map fun s => s.list := by
      rw [trash_discard, oldList_eq, objects_of]
      rfl
    have before := inv.objects
    rw [Lake.held, list, trash]
    show ([l'.objects.length] ++ ms.map (·.path) ++ (l'.trash ++ _) ++ l'.lost).Perm
      (List.range' 0 (l'.objects ++ [Object.list ms]).length)
    have last := @List.range'_append_1 0 (l.objects.length + more.length) 1
    have middle := @List.range'_append_1 0 l.objects.length more.length
    rw [Nat.zero_add] at last middle
    rw [List.length_append, List.length_singleton, grown, List.length_append, ← last, ← middle,
      mid.same.lost]
    rw [Lake.held] at before
    rw [List.perm_iff_count] at perm before ⊢
    intro a
    have one := perm a
    have two := before a
    simp only [List.count_append, List.range'_one] at one two ⊢
    omega
  · exact everyFile.trans (mid.same.expected ▸ inv.files)
  · have trashFiles : ((l'.putList ms).discard l.oldList).trashFiles = l.trashFiles := by
      rw [trashFiles_discard, oldList_eq, files_of_objects, List.append_nil]
      exact mid.trashFiles
    rw [trashFiles]
    show List.Perm _ l'.added
    rw [mid.same.added]
    exact ((everyFile.map _).append_right _).trans inv.paths
  · show l'.added.Nodup
    rw [mid.same.added]
    exact inv.once

end Pondra.Manifests
