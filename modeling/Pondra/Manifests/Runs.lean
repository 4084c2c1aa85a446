import Mathlib.Data.String.Basic
import Mathlib.Order.Compare
import Pondra.Manifests.Found

set_option autoImplicit false

namespace Pondra.Manifests

open Machines Dicts

variable {τ ν : Type} {scalars : Scalars τ ν} {types : String → τ} {schema : Schema τ} {l l' : Lake}
  {ms : List Manifest}

theorem Mid.start (inv : Inv scalars types l) : Mid scalars types l l l.list where
  same := ⟨rfl, rfl, rfl⟩
  sealed := rfl
  right := inv.right
  objects := ⟨[], (List.append_nil _).symm, by
    rw [List.length_nil, List.range'_zero, List.append_nil]⟩
  files := List.Perm.refl _
  trashFiles := rfl

theorem discard_nil (l : Lake) : l.discard [] = l := by
  rw [Lake.discard, List.append_nil]

theorem seal_inv (sound : Sound scalars) (typed : ∀ col t, schema.lookup col = some t → t = types col)
    (inv : Inv scalars types l) : Inv scalars types (l.seal_ scalars schema) := by
  simp only [Lake.seal_]
  split
  · exact inv
  · generalize oldest_eq : (l.table.files.mergeSort fun a b => decide (a.ord ≤ b.ord)) = oldest
    generalize sealing_eq : ((oldest.take (oldest.length - keptInline)).mergeSort fun a b =>
      decide (a.part < b.part ∨ a.part = b.part ∧ a.ord ≤ b.ord)) = sealing
    have ordered : oldest.Perm l.table.files := oldest_eq ▸ List.mergeSort_perm _ _
    have taken : sealing.Perm (oldest.take (oldest.length - keptInline)) :=
      sealing_eq ▸ List.mergeSort_perm _ _
    have moved : (([] : List Manifest).flatMap l.filesOf ++ l.table.files).Perm
        ((chunks big sealing).flatten ++ oldest.drop (oldest.length - keptInline)) := by
      rw [chunks_flatten (by decide), List.flatMap_nil, List.nil_append]
      refine List.Perm.trans ?_ (taken.symm.append_right _)
      rw [List.take_append_drop]
      exact ordered.symm
    have start := Mid.start inv
    rw [← List.append_nil l.list] at start
    have wrote := start.write sound typed (chunks big sealing) moved _ rfl
    rw [List.map_nil, discard_nil] at wrote
    exact (wrote.mergeSmall sound typed).finish inv

theorem takeApart_mid (which : List Nat) (mid : Mid scalars types l l' ms) :
    Mid scalars types l (l'.takeApart ms which).1 (l'.takeApart ms which).2 := by
  induction which generalizing l' ms with
  | nil => exact mid
  | cons i rest ih =>
    rw [Lake.takeApart]
    cases held : ms[i]? with
    | none => exact mid
    | some m =>
      obtain ⟨less, is⟩ := List.getElem?_eq_some_iff.mp held
      have apart : (m :: ms.eraseIdx i).Perm ms := by
        rw [← is]
        exact List.getElem_cons_eraseIdx_perm less
      obtain ⟨more, grown, perm⟩ := mid.objects
      apply ih
      refine ⟨⟨mid.same.lost, mid.same.expected, mid.same.added⟩, mid.sealed, ?_, ⟨more, grown, ?_⟩, ?_, ?_⟩
      · exact fun other inside => mid.right other (apart.mem_iff.mp (List.mem_cons_of_mem m inside))
      · refine List.Perm.trans ?_ perm
        have paths := (apart.map (·.path)).symm
        rw [List.map_cons] at paths
        show ((ms.eraseIdx i).map (·.path) ++
          (l'.table.garbage ++ [Garbage.object m.path]).filterMap Garbage.object?).Perm _
        rw [List.filterMap_append]
        show ((ms.eraseIdx i).map (·.path) ++ (l'.trash ++ [m.path])).Perm _
        rw [List.perm_iff_count] at paths ⊢
        intro a
        have counted := paths a
        simp only [List.count_append, List.count_cons, List.count_nil] at counted ⊢
        omega
      · refine List.Perm.trans ?_ mid.files
        have files := (apart.flatMap_right l'.filesOf).symm
        rw [List.flatMap_cons] at files
        show ((ms.eraseIdx i).flatMap l'.filesOf ++ (l'.table.files ++ l'.filesOf m)).Perm _
        refine List.Perm.trans ?_ (files.symm.append_right _)
        refine List.Perm.trans (List.perm_append_comm.append_left _) ?_
        rw [← List.append_assoc]
        exact List.perm_append_comm.append_right _
      · show (l'.table.garbage ++ [Garbage.object m.path]).filterMap Garbage.file? = _
        rw [List.filterMap_append]
        exact (List.append_nil _).trans mid.trashFiles

/-- No manifest left: the table has no list. -/
theorem Mid.finishNone (inv : Inv scalars types l) (mid : Mid scalars types l l' []) :
    Inv scalars types (({ l' with table := { l'.table with sealed := none } } : Lake).discard l.oldList) := by
  obtain ⟨more, grown, perm⟩ := mid.objects
  have files : (({ l' with table := { l'.table with sealed := none } } : Lake).discard l.oldList).everyFile.Perm
      l.everyFile := mid.files
  constructor
  · exact fun s is => by cases is
  · exact fun m inside => absurd inside List.not_mem_nil
  · have before := inv.objects
    have middle := @List.range'_append_1 0 l.objects.length more.length
    rw [Nat.zero_add] at middle
    rw [Lake.held, trash_discard, oldList_eq, objects_of]
    show ([] ++ [] ++ (l'.trash ++ _) ++ l'.lost).Perm (List.range' 0 l'.objects.length)
    rw [grown, List.length_append, ← middle, mid.same.lost]
    rw [Lake.held] at before
    rw [List.perm_iff_count] at perm before ⊢
    intro a
    have one := perm a
    have two := before a
    simp only [List.map_nil, List.count_append, List.count_nil] at one two ⊢
    omega
  · exact files.trans (mid.same.expected ▸ inv.files)
  · rw [trashFiles_discard, oldList_eq, files_of_objects, List.append_nil]
    show List.Perm (_ ++ l'.trashFiles) l'.added
    rw [mid.trashFiles, mid.same.added]
    exact ((files.map _).append_right _).trans inv.paths
  · show l'.added.Nodup
    rw [mid.same.added]
    exact inv.once

theorem unseal_inv (inv : Inv scalars types l) (which : List Nat) :
    Inv scalars types (l.unseal_ which) := by
  simp only [Lake.unseal_]
  split
  · exact inv
  · have mid := takeApart_mid which.reverse (Mid.start inv)
    split
    · rename_i empty
      rw [List.isEmpty_iff.mp empty] at mid
      exact mid.finishNone inv
    · exact mid.finish inv

/-! ### Files replaced -/

/-- The inline files and the sealed ones have paths of their own. -/
theorem Inv.apart (inv : Inv scalars types l) :
    ((l.list.flatMap l.filesOf).map (·.path) ++ l.table.files.map (·.path) ++ l.trashFiles).Nodup := by
  have perm := inv.paths
  rw [Lake.everyFile, List.map_append] at perm
  exact perm.nodup_iff.mpr inv.once

theorem named_iff {old : List DataFile} {f : DataFile} : Lake.named old f = true ↔ f.path ∈ old.map (·.path) := by
  rw [Lake.named, List.any_eq_true, List.mem_map]
  constructor
  · rintro ⟨o, inside, same⟩
    exact ⟨o, inside, of_decide_eq_true same⟩
  · rintro ⟨o, inside, same⟩
    exact ⟨o, inside, decide_eq_true same⟩

/-- The inline files replaced are the ones named. -/
theorem named_perm (inv : Inv scalars types l) {old : List DataFile}
    (inside : ∀ f ∈ old, f ∈ l.table.files) (once : (old.map (·.path)).Nodup) :
    (l.table.files.filter (Lake.named old)).Perm old := by
  have paths : (l.table.files.map (·.path)).Nodup := inv.apart.of_append_left.of_append_right
  apply (List.perm_ext_iff_of_nodup ((List.Nodup.of_map _ paths).filter _) (List.Nodup.of_map _ once)).mpr
  intro f
  rw [List.mem_filter, named_iff]
  constructor
  · rintro ⟨held, found⟩
    obtain ⟨o, within, same⟩ := List.mem_map.mp found
    rwa [← List.inj_on_of_nodup_map paths (inside o within) held same]
  · intro within
    exact ⟨inside f within, List.mem_map_of_mem within⟩

/-- No sealed file has an inline file's path. -/
theorem sealed_unnamed (inv : Inv scalars types l) {old : List DataFile}
    (inside : ∀ f ∈ old, f ∈ l.table.files) {f : DataFile} (held : f ∈ l.list.flatMap l.filesOf) :
    Lake.named old f = false := by
  rw [← Bool.not_eq_true, named_iff]
  intro found
  obtain ⟨o, within, same⟩ := List.mem_map.mp found
  refine List.disjoint_of_nodup_append inv.apart.of_append_left (List.mem_map_of_mem held) ?_
  rw [← same]
  exact List.mem_map_of_mem (inside o within)

theorem replace_inv (inv : Inv scalars types l) {old new : List DataFile}
    (inside : ∀ f ∈ old, f ∈ l.table.files) (once : (old.map (·.path)).Nodup)
    (fresh : (new.map (·.path)).Nodup) (unknown : ∀ f ∈ new, f.path ∉ l.added) :
    Inv scalars types (l.replace old new) := by
  have gone := named_perm inv inside once
  have left : (l.list.flatMap l.filesOf).filter (fun f => !Lake.named old f) = l.list.flatMap l.filesOf :=
    List.filter_eq_self.mpr fun f held => by rw [sealed_unnamed inv inside held]; rfl
  constructor
  · exact inv.listed
  · exact inv.right
  · have trash : (l.replace old new).trash = l.trash := by
      show (l.table.garbage ++ old.map fun f => Garbage.file f.path).filterMap Garbage.object? = _
      rw [List.filterMap_append, List.filterMap_map]
      exact (congrArg (l.trash ++ ·) (List.filterMap_eq_nil_iff.mpr fun _ _ => rfl)).trans
        (List.append_nil _)
    show (l.held ++ (l.replace old new).trash ++ l.lost).Perm _
    rw [trash]
    exact inv.objects
  · show (l.list.flatMap l.filesOf ++ ((l.table.files.filter fun f => !Lake.named old f) ++ new)).Perm
      ((l.expected.filter fun f => !Lake.named old f) ++ new)
    rw [← List.append_assoc]
    refine List.Perm.append_right _ ?_
    have filtered := inv.files.filter fun f => !Lake.named old f
    rwa [Lake.everyFile, List.filter_append, left] at filtered
  · have trashFiles : (l.replace old new).trashFiles = l.trashFiles ++ old.map (·.path) := by
      show (l.table.garbage ++ old.map fun f => Garbage.file f.path).filterMap Garbage.file? = _
      rw [List.filterMap_append, List.filterMap_map]
      exact congrArg (l.trashFiles ++ ·) (congrFun List.filterMap_eq_map old)
    have split := (List.filter_append_perm (Lake.named old) l.table.files).map (·.path)
    have gonePaths := gone.map (·.path)
    have before := inv.paths
    rw [trashFiles]
    show ((l.list.flatMap l.filesOf ++ ((l.table.files.filter fun f => !Lake.named old f) ++ new)).map (·.path) ++
      (l.trashFiles ++ old.map (·.path))).Perm (l.added ++ new.map (·.path))
    rw [Lake.everyFile] at before
    rw [List.perm_iff_count] at split gonePaths before ⊢
    intro a
    have one := split a
    have two := gonePaths a
    have three := before a
    simp only [List.map_append, List.count_append] at one two three ⊢
    omega
  · show (l.added ++ new.map (·.path)).Nodup
    rw [List.nodup_append]
    refine ⟨inv.once, fresh, ?_⟩
    intro path held other within same
    obtain ⟨f, isNew, is⟩ := List.mem_map.mp within
    apply unknown f isNew
    rwa [is, ← same]

theorem mark_inv (inv : Inv scalars types l) {file : DataFile}
    (inside : file.path ∈ l.table.files.map (·.path)) : Inv scalars types (l.mark file) := by
  have paths : ∀ fs : List DataFile, (fs.map fun f => if f.path = file.path then file else f).map (·.path) =
      fs.map (·.path) := by
    intro fs
    rw [List.map_map]
    apply List.map_congr_left
    intro f _
    show (if f.path = file.path then file else f).path = f.path
    split
    · rename_i same
      exact same.symm
    · rfl
  have left : (l.list.flatMap l.filesOf).map (fun f => if f.path = file.path then file else f) =
      l.list.flatMap l.filesOf := by
    refine (List.map_congr_left fun f held => ?_).trans (List.map_id _)
    refine if_neg fun same => ?_
    refine List.disjoint_of_nodup_append inv.apart.of_append_left (List.mem_map_of_mem held) ?_
    show f.path ∈ _
    rwa [same]
  refine ⟨inv.listed, inv.right, inv.objects, ?_, ?_, inv.once⟩
  · have mapped := inv.files.map fun f => if f.path = file.path then file else f
    rwa [Lake.everyFile, List.map_append, left] at mapped
  · have before := inv.paths
    rw [Lake.everyFile, List.map_append] at before
    show ((l.list.flatMap l.filesOf ++ _).map (·.path) ++ l.trashFiles).Perm l.added
    rw [List.map_append]
    show (_ ++ (l.table.files.map fun f => if f.path = file.path then file else f).map (·.path) ++ _).Perm _
    rwa [paths]

theorem fail_inv (inv : Inv scalars types l) (written : List Object) : Inv scalars types (l.fail written) := by
  have list : (l.fail written).list = l.list := by
    cases is : l.table.sealed with
    | none => simp only [Lake.list, Lake.fail, is]
    | some s =>
      obtain ⟨ms, held, _⟩ := inv.listed s is
      have later : (l.objects ++ written)[s.list]? = _ := kept_object held
      simp only [Lake.list, Lake.fail, is, held, later]
  have files : (l.fail written).everyFile = l.everyFile := by
    rw [Lake.everyFile, list, flatMap_filesOf inv.right (show (l.fail written).objects = l.objects ++ written from rfl)]
    rfl
  constructor
  · intro s is
    obtain ⟨ms, held, totals⟩ := inv.listed s is
    exact ⟨ms, kept_object held, totals⟩
  · rw [list]
    exact fun m inside => (inv.right m inside).later rfl
  · have last := @List.range'_append_1 0 l.objects.length written.length
    rw [Nat.zero_add] at last
    rw [Lake.held, list]
    show (l.held ++ l.trash ++ (l.lost ++ _)).Perm (List.range' 0 (l.objects ++ written).length)
    rw [List.length_append, ← last, ← List.append_assoc]
    exact inv.objects.append_right _
  · rw [files]
    exact inv.files
  · rw [files]
    exact inv.paths
  · exact inv.once

theorem next_inv (sound : Sound scalars) (l : Lake) (op : Op τ) (inv : Inv scalars types l)
    (fits : Fits types l op) : Inv scalars types (next scalars l op) := by
  cases op with
  | seal_ schema => exact seal_inv sound fits inv
  | unseal_ which => exact unseal_inv inv which
  | replace old new => exact replace_inv inv fits.1 fits.2.1 fits.2.2.1 fits.2.2.2
  | mark file => exact mark_inv inv fits
  | fail written => exact fail_inv inv written

theorem new_inv : Inv scalars types .new where
  listed := nofun
  right := nofun
  objects := List.Perm.refl _
  files := List.Perm.refl _
  paths := List.Perm.refl _
  once := List.nodup_nil

/-! ### Pruning -/

section pruning

variable {φ : Type} {may : List φ → Schema τ → Option (Bounds ν → Bool)}

/-- Containers kept each alone, or together. -/
theorem keep_each (stats : List Stats) (filters : List φ) (schema : Schema τ) :
    keep scalars may stats filters schema =
      stats.map fun part => decide (keep scalars may [part] filters schema = [true]) := by
  simp only [keep]
  split
  · exact List.map_congr_left fun part _ => rfl
  · split
    · exact List.map_congr_left fun part _ => rfl
    · refine List.map_congr_left fun part _ => ?_
      simp

theorem zip_filter {α : Type} (xs : List α) (kept : α → Bool) :
    ((xs.zip (xs.map kept)).filterMap fun x => if x.2 then some x.1 else none) = xs.filter kept := by
  induction xs with
  | nil => rfl
  | cons x rest ih =>
    rw [List.map_cons, List.zip_cons_cons]
    cases told : kept x with
    | true =>
      rw [List.filter_cons_of_pos told, ← ih]
      rfl
    | false =>
      rw [List.filter_cons_of_neg (by simp [told]), ← ih]
      rfl

/-- Which containers a filter keeps, each by its ranges. -/
def Kept (scalars : Scalars τ ν) (may : List φ → Schema τ → Option (Bounds ν → Bool)) (filters : List φ)
    (schema : Schema τ) (part : Stats) : Bool :=
  decide (keep scalars may [part] filters schema = [true])

theorem keep_filter {α : Type} (xs : List α) (stats : α → Stats) (filters : List φ) (schema : Schema τ) :
    ((xs.zip (keep scalars may (xs.map stats) filters schema)).filterMap
        fun x => if x.2 then some x.1 else none) =
      xs.filter fun x => Kept scalars may filters schema (stats x) := by
  rw [keep_each, List.map_map]
  exact zip_filter xs fun x => Kept scalars may filters schema (stats x)

/-- Looking at manifests first finds the files that looking at every file finds. -/
theorem pruned_eq (monotone : Monotone scalars may) (inv : Inv scalars types l) (filters : List φ)
    (typed : ∀ col t, schema.lookup col = some t → t = types col) :
    l.pruned scalars may filters schema =
      l.everyFile.filter fun f => Kept scalars may filters schema f.stats := by
  simp only [Lake.pruned]
  rw [keep_filter, keep_filter, List.filter_append, Lake.everyFile, List.filter_append]
  congr 1
  have right := inv.right
  generalize l.list = ms at right
  induction ms with
  | nil => rfl
  | cons m rest ih =>
    have others := ih fun other inside => right other (List.mem_cons_of_mem m inside)
    by_cases kept : Kept scalars may filters schema m.stats = true
    · rw [List.filter_cons, if_pos kept, List.flatMap_cons, List.flatMap_cons, List.filter_append,
        List.filter_append, others]
    · rw [List.filter_cons, if_neg kept, others, List.flatMap_cons, List.filter_append]
      have none_ : (l.filesOf m).filter (fun f => Kept scalars may filters schema f.stats) = [] := by
        refine List.filter_eq_nil_iff.mpr fun f inside passes => kept ?_
        obtain ⟨files, held, tells⟩ := right m List.mem_cons_self
        rw [filesOf_eq held] at inside
        exact decide_eq_true
          (keep_inside may monotone typed (tells.inside f inside) filters (of_decide_eq_true passes))
      rw [none_, List.nil_append]

end pruning

/-- What holds of an append table's files, however they were sealed, taken out and replaced. -/
structure Holds {φ : Type} (scalars : Scalars τ ν) (types : String → τ)
    (may : List φ → Schema τ → Option (Bounds ν → Bool)) (l : Lake) : Prop where
  files : l.everyFile.Perm l.expected
  totals : ∀ s, l.table.sealed = some s →
    s.files = (l.list.flatMap l.filesOf).length ∧
      s.rows = ((l.list.flatMap l.filesOf).map (·.rows)).sum ∧
      s.bytes = ((l.list.flatMap l.filesOf).map (·.bytes)).sum
  manifests : ∀ m ∈ l.list, Tells scalars types m (l.filesOf m)
  objects : (l.held ++ l.trash ++ l.lost).Perm (List.range' 0 l.objects.length)
  paths : (l.everyFile.map (·.path) ++ l.trashFiles).Perm l.added
  once : l.added.Nodup
  pruned : ∀ filters schema, (∀ col t, schema.lookup col = some t → t = types col) →
    l.pruned scalars may filters schema =
      l.everyFile.filter fun f => Kept scalars may filters schema f.stats

theorem sums_flatMap (f : Lake → Manifest → List DataFile) (count : Manifest → Nat) (size : DataFile → Nat)
    (each : ∀ m ∈ ms, count m = ((f l m).map size).sum) :
    (ms.map count).sum = ((ms.flatMap (f l)).map size).sum := by
  induction ms with
  | nil => rfl
  | cons m rest ih =>
    rw [List.map_cons, List.sum_cons, List.flatMap_cons, List.map_append, List.sum_append,
      each m List.mem_cons_self, ih fun other inside => each other (List.mem_cons_of_mem m inside)]

theorem Inv.holds {φ : Type} {may : List φ → Schema τ → Option (Bounds ν → Bool)}
    (monotone : Monotone scalars may) (inv : Inv scalars types l) : Holds scalars types may l := by
  have tells : ∀ m ∈ l.list, Tells scalars types m (l.filesOf m) := by
    intro m inside
    obtain ⟨files, held, tells⟩ := inv.right m inside
    rwa [filesOf_eq held]
  refine ⟨inv.files, ?_, tells, inv.objects, inv.paths, inv.once,
    fun filters schema typed => pruned_eq monotone inv filters typed⟩
  intro s is
  obtain ⟨ms, held, totals⟩ := inv.listed s is
  have list : l.list = ms := by simp only [Lake.list, is, held]
  rw [← list] at totals
  have ones : ∀ files : List DataFile, (files.map fun _ => 1).sum = files.length := fun files => by simp
  have counts := sums_flatMap Lake.filesOf (·.files) (fun _ => 1) fun m inside =>
    (tells m inside).count.trans (ones (l.filesOf m)).symm
  rw [ones] at counts
  exact ⟨totals.files.trans counts,
    totals.rows.trans (sums_flatMap Lake.filesOf (·.rows) (·.rows) fun m inside => (tells m inside).rows),
    totals.bytes.trans (sums_flatMap Lake.filesOf (·.bytes) (·.bytes) fun m inside => (tells m inside).bytes)⟩

/-- Columns of text. -/
def texts : Scalars Unit String where
  parse _ s := some s
  text v := if v.utf8ByteSize ≤ 64 then some v else none
  cmp a b := some (cmp a b)

theorem texts_sound : Sound texts := by
  have before : ∀ a b : String, Least.NotAfter texts.cmp a b ↔ a ≤ b := by
    intro a b
    rw [Least.NotAfter, le_iff_lt_or_eq]
    exact or_congr (Option.some_inj.trans (cmp_eq_lt_iff a b)) (Option.some_inj.trans (cmp_eq_eq_iff a b))
  constructor
  · intro t
    refine ⟨fun _ _ _ _ => rfl, fun a b o _ _ told => ?_, fun a b c _ _ _ ab bc => ?_⟩
    · rw [← Option.some.inj told]
      exact congrArg some (cmp_swap a b).symm
    · rw [before] at ab bc ⊢
      exact le_trans ab bc
  · intro t s v s' _ is
    have short : (if v.utf8ByteSize ≤ 64 then some v else none) = some s' := is
    split at short
    · exact congrArg some (Option.some.inj short).symm
    · cases short

/-- Can a container hold values of a column at or over a literal? -/
def reaching (filters : List (String × String)) (_ : Schema Unit) : Option (Bounds String → Bool) :=
  some fun bounds => filters.all fun f => (bounds f.1).2.all fun hi => decide (f.2 ≤ hi)

theorem reaching_monotone : Monotone texts reaching := by
  intro filters schema check made wide narrow wider passes
  rw [← Option.some.inj made] at passes ⊢
  rw [List.all_eq_true] at passes ⊢
  intro f inside
  have told := passes f inside
  cases is : (wide f.1).2 with
  | none => rfl
  | some hi =>
    obtain ⟨hi', narrow', above⟩ := (wider f.1).2 hi is
    rw [narrow'] at told
    have least : f.2 ≤ hi' := of_decide_eq_true told
    refine decide_eq_true (le_trans least ?_)
    rcases above with less | equal
    · exact le_of_lt ((cmp_eq_lt_iff hi' hi).mp (Option.some.inj less))
    · exact le_of_eq ((cmp_eq_eq_iff hi' hi).mp (Option.some.inj equal))

def fileOf (path : String) (ord : Nat) : DataFile := ⟨path, 3, 100, ord, "", ∅, some []⟩

def replacedOps : List (Op Unit) :=
  [.replace [] [fileOf "a" 1, fileOf "b" 2], .fail [.list []], .replace [fileOf "a" 1] [fileOf "c" 3],
    .seal_ ∅, .mark (fileOf "b" 4), .unseal_ []]

end Pondra.Manifests
