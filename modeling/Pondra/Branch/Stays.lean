import Mathlib.Data.List.Flatten
import Mathlib.Data.List.Nodup
import Pondra.Branch.Pins

set_option autoImplicit false

/-! ### A pinned file stays -/

namespace Pondra.Branch

open Machines

/-! ### A table's entry -/

/-- Everything the entry has is in a folder it lists, and no data file of it is also garbage or a
delete file. -/
structure TableMeta.Tidy (m : TableMeta) : Prop where
  placed : ∀ p ∈ m.named ++ m.old.map Prod.fst, ∃ folder, p.part = .data folder ∧ m.At folder
  gone : ∀ f ∈ m.files, f.path ∉ m.old.map Prod.fst
  apart : ∀ f ∈ m.files, ∀ g ∈ m.files, f.path ∉ g.deletes

theorem mem_named (m : TableMeta) (p : Path) :
    p ∈ m.named ↔ ∃ f ∈ m.files, p = f.path ∨ p ∈ f.deletes := by
  simp [TableMeta.named, DataFile.named]

theorem path_named (m : TableMeta) (f : DataFile) (listed : f ∈ m.files) : f.path ∈ m.named :=
  (mem_named m _).mpr ⟨f, listed, .inl rfl⟩

theorem deletes_named (m : TableMeta) (f : DataFile) (listed : f ∈ m.files) (p : Path)
    (named : p ∈ f.deletes) : p ∈ m.named :=
  (mem_named m _).mpr ⟨f, listed, .inr named⟩

theorem path_injective (m : TableMeta) (a b : String) (same : m.path a = m.path b) : a = b :=
  (Path.mk.inj same).2

/-- What a change leaves of the files: those kept, with the deletes marked in them, and the new. -/
theorem change_files (m : TableMeta) (out : List Path) (marks : List (Path × String))
    (into : List (String × List String)) (now : Nat) (f : DataFile) :
    f ∈ (m.change out marks into now).files →
      (∃ g ∈ m.files, f.path = g.path ∧ g.path ∉ out ∧
        ∀ p, p ∈ f.deletes ↔ p ∈ g.deletes ∨ ∃ mark ∈ marks, mark.1 = g.path ∧ p = m.path mark.2) ∨
      ∃ new ∈ into, f.path = m.path new.1 ∧ f.deletes = new.2.map m.path := by
  intro listed
  rcases List.mem_append.mp listed with kept | added
  · left
    obtain ⟨g, inside, rfl⟩ := List.mem_map.mp kept
    obtain ⟨here, stays⟩ := List.mem_filter.mp inside
    refine ⟨g, here, rfl, of_decide_eq_true stays, fun p => ?_⟩
    rw [List.mem_append, List.mem_map]
    constructor
    · rintro (had | ⟨mark, marked, rfl⟩)
      · exact .inl had
      · have marked := List.mem_filter.mp marked
        exact .inr ⟨mark, marked.1, of_decide_eq_true marked.2, rfl⟩
    · rintro (had | ⟨mark, marked, at_, rfl⟩)
      · exact .inl had
      · exact .inr ⟨mark, List.mem_filter.mpr ⟨marked, decide_eq_true at_⟩, rfl⟩
  · right
    obtain ⟨new, inside, rfl⟩ := List.mem_map.mp added
    exact ⟨new, inside, rfl, rfl⟩

theorem change_keeps (m : TableMeta) (out : List Path) (marks : List (Path × String))
    (into : List (String × List String)) (now : Nat) (f : DataFile) (listed : f ∈ m.files)
    (stays : f.path ∉ out) (p : Path) (named : p = f.path ∨ p ∈ f.deletes) :
    p ∈ (m.change out marks into now).named := by
  have kept : f ∈ m.files.filter (·.path ∉ out) := List.mem_filter.mpr ⟨listed, decide_eq_true stays⟩
  apply (mem_named _ p).mpr
  refine ⟨_, List.mem_append_left _ (List.mem_map_of_mem kept), ?_⟩
  rcases named with file | deletes
  · exact .inl file
  · exact .inr (List.mem_append_left _ deletes)

/-- What a change takes out is garbage of its time. -/
theorem change_old (m : TableMeta) (out : List Path) (marks : List (Path × String))
    (into : List (String × List String)) (now : Nat) (g : Path × Nat) :
    g ∈ (m.change out marks into now).old ↔
      g ∈ m.old ∨ (g.2 = now ∧ ∃ f ∈ m.files, f.path ∈ out ∧ (g.1 = f.path ∨ g.1 ∈ f.deletes)) := by
  have shape : (m.change out marks into now).old =
      (m.garbage ++ (m.files.filter (·.path ∈ out)).map fun f => (f.path, now)) ++
      (m.garbageDeletes ++ ((m.files.filter (·.path ∈ out)).flatMap DataFile.deletes).map fun p => (p, now)) :=
    rfl
  rw [shape, TableMeta.old]
  simp only [List.mem_append, List.mem_map, List.mem_filter, List.mem_flatMap, decide_eq_true_eq]
  constructor
  · rintro ((had | ⟨f, ⟨here, out⟩, rfl⟩) | (had | ⟨p, ⟨f, ⟨here, out⟩, named⟩, rfl⟩))
    · exact .inl (.inl had)
    · exact .inr ⟨rfl, f, here, out, .inl rfl⟩
    · exact .inl (.inr had)
    · exact .inr ⟨rfl, f, here, out, .inr named⟩
  · rintro ((had | had) | ⟨time, f, here, out, file | named⟩)
    · exact .inl (.inl had)
    · exact .inr (.inl had)
    · exact .inl (.inr ⟨f, ⟨here, out⟩, Prod.ext file.symm time.symm⟩)
    · exact .inr (.inr ⟨g.1, ⟨f, ⟨here, out⟩, named⟩, Prod.ext rfl time.symm⟩)

/-- A change keeps an entry tidy where its new objects have names of their own. -/
theorem change_tidy (m : TableMeta) (out : List Path) (marks : List (Path × String))
    (into : List (String × List String)) (now : Nat) (tidy : m.Tidy)
    (fresh : ∀ n ∈ into.map Prod.fst ++ newDeletes marks into,
      m.path n ∉ m.named ++ m.old.map Prod.fst)
    (distinct : ∀ n ∈ into.map Prod.fst, n ∉ newDeletes marks into) :
    (m.change out marks into now).Tidy := by
  have marked (mark : Path × String) (inside : mark ∈ marks) :
      mark.2 ∈ newDeletes marks into := List.mem_append_left _ (List.mem_map_of_mem inside)
  have deleting (new : String × List String) (inside : new ∈ into) (n : String) (named : n ∈ new.2) :
      n ∈ newDeletes marks into :=
    List.mem_append_right _ (List.mem_flatMap.mpr ⟨new, inside, named⟩)
  have own (n : String) : ∃ folder, (m.path n).part = .data folder ∧ m.At folder :=
    ⟨m.folder, rfl, .inl rfl⟩
  have was (p : Path) (named : p ∈ m.named) : ∃ folder, p.part = .data folder ∧ m.At folder :=
    tidy.placed p (List.mem_append_left _ named)
  have taken (p : Path) (old : p ∈ (m.change out marks into now).old.map Prod.fst) :
      p ∈ m.old.map Prod.fst ∨ ∃ f ∈ m.files, f.path ∈ out ∧ (p = f.path ∨ p ∈ f.deletes) := by
    obtain ⟨g, garbage, rfl⟩ := List.mem_map.mp old
    rcases (change_old m out marks into now g).mp garbage with had | ⟨_, f, here, gone, of_⟩
    · exact .inl (List.mem_map_of_mem had)
    · exact .inr ⟨f, here, gone, of_⟩
  have takenNamed (p : Path) (old : p ∈ (m.change out marks into now).old.map Prod.fst) :
      p ∈ m.named ++ m.old.map Prod.fst := by
    rcases taken p old with had | ⟨f, here, _, of_⟩
    · exact List.mem_append_right _ had
    · exact List.mem_append_left _ ((mem_named m p).mpr ⟨f, here, of_⟩)
  refine ⟨?_, ?_, ?_⟩
  · intro p inside
    rcases List.mem_append.mp inside with named | old
    · obtain ⟨f, listed, of_⟩ := (mem_named _ p).mp named
      rcases change_files m out marks into now f listed with ⟨g, here, path, _, deletes⟩ | ⟨new, _, path, deletes⟩
      · rcases of_ with rfl | named
        · rw [path]
          exact was _ (path_named m g here)
        · rcases (deletes p).mp named with had | ⟨mark, _, _, rfl⟩
          · exact was _ (deletes_named m g here p had)
          · exact own mark.2
      · rcases of_ with rfl | named
        · rw [path]
          exact own new.1
        · rw [deletes] at named
          obtain ⟨n, _, rfl⟩ := List.mem_map.mp named
          exact own n
    · exact tidy.placed p (takenNamed p old)
  · intro f listed old
    rcases change_files m out marks into now f listed with ⟨g, here, path, stays, _⟩ | ⟨new, inside, path, _⟩
    · rw [path] at old
      rcases taken _ old with had | ⟨f', here', gone, same | named⟩
      · exact tidy.gone g here had
      · exact stays (same ▸ gone)
      · exact tidy.apart g here f' here' named
    · rw [path] at old
      exact fresh new.1 (List.mem_append_left _ (List.mem_map_of_mem inside)) (takenNamed _ old)
  · intro f listed f' listed' named
    rcases change_files m out marks into now f listed with ⟨g, here, path, _, _⟩ | ⟨new, inside, path, _⟩
    · rw [path] at named
      have known : g.path ∈ m.named ++ m.old.map Prod.fst :=
        List.mem_append_left _ (path_named m g here)
      rcases change_files m out marks into now f' listed' with ⟨g', here', _, _, deletes⟩ | ⟨new', inside', _, deletes⟩
      · rcases (deletes _).mp named with had | ⟨mark, within, _, same⟩
        · exact tidy.apart g here g' here' had
        · rw [same] at known
          exact fresh mark.2 (List.mem_append_right _ (marked mark within)) known
      · rw [deletes] at named
        obtain ⟨n, within, same⟩ := List.mem_map.mp named
        rw [← same] at known
        exact fresh n (List.mem_append_right _ (deleting new' inside' n within)) known
    · rw [path] at named
      have mine := List.mem_map_of_mem (f := Prod.fst) inside
      rcases change_files m out marks into now f' listed' with ⟨g', here', _, _, deletes⟩ | ⟨new', inside', _, deletes⟩
      · rcases (deletes _).mp named with had | ⟨mark, within, _, same⟩
        · exact fresh new.1 (List.mem_append_left _ mine)
            (List.mem_append_left _ (deletes_named m g' here' _ had))
        · rw [path_injective m _ _ same] at mine
          exact distinct _ mine (marked mark within)
      · rw [deletes] at named
        obtain ⟨n, within, same⟩ := List.mem_map.mp named
        rw [← path_injective m _ _ same] at mine
        exact distinct _ mine (deleting new' inside' n within)

theorem kept_old (m : TableMeta) (cutoff : Nat) (g : Path × Nat) :
    g ∈ (m.kept cutoff).old ↔ g ∈ m.old ∧ cutoff ≤ g.2 := by
  simp only [TableMeta.old, TableMeta.kept, List.mem_append, List.mem_filter, Bool.not_eq_true',
    decide_eq_false_iff_not, Nat.not_lt]
  constructor
  · rintro (⟨had, late⟩ | ⟨had, late⟩)
    · exact ⟨.inl had, late⟩
    · exact ⟨.inr had, late⟩
  · rintro ⟨had | had, late⟩
    · exact .inl ⟨had, late⟩
    · exact .inr ⟨had, late⟩

theorem kept_tidy (m : TableMeta) (cutoff : Nat) (tidy : m.Tidy) : (m.kept cutoff).Tidy := by
  have fewer (p : Path) (old : p ∈ (m.kept cutoff).old.map Prod.fst) : p ∈ m.old.map Prod.fst := by
    obtain ⟨g, garbage, rfl⟩ := List.mem_map.mp old
    exact List.mem_map_of_mem ((kept_old m cutoff g).mp garbage).1
  refine ⟨?_, fun f listed old => tidy.gone f listed (fewer _ old), tidy.apart⟩
  intro p inside
  apply tidy.placed p
  rcases List.mem_append.mp inside with named | old
  · exact List.mem_append_left _ named
  · exact List.mem_append_right _ (fewer p old)

/-! ### The entries after a step -/

section entries

variable (c : Catalog)

theorem create_metas (name : String) (m : TableMeta) :
    ({ c with tables := c.tables ++ [(name, m)] } : Catalog).metas.Perm (m :: c.metas) := by
  unfold Catalog.metas
  rw [List.map_append, List.append_assoc]
  exact List.perm_middle

theorem filtered_metas (keeps : String × TableMeta → Bool) :
    ((c.tables.filter fun t => !keeps t).map Prod.snd ++ (c.tables.filter keeps).map Prod.snd).Perm
      (c.tables.map Prod.snd) := by
  rw [← List.map_append]
  apply List.Perm.map
  exact List.perm_append_comm.trans (List.filter_append_perm keeps c.tables)

theorem drop_metas (keeps : String × TableMeta → Bool) (d : Dropped)
    (entries : d.entries = c.tables.filter keeps) :
    ({ c with tables := c.tables.filter fun t => !keeps t, dropped := c.dropped ++ [d] } : Catalog).metas.Perm
      c.metas := by
  unfold Catalog.metas
  rw [List.flatMap_append, List.flatMap_singleton, entries]
  apply (List.Perm.append_left _ List.perm_append_comm).trans
  rw [← List.append_assoc]
  exact (filtered_metas c keeps).append_right _

theorem undrop_metas (d : Dropped) (inside : d ∈ c.dropped) :
    ({ c with tables := c.tables ++ d.entries, dropped := c.dropped.erase d } : Catalog).metas.Perm
      c.metas := by
  unfold Catalog.metas
  rw [List.map_append, List.append_assoc]
  apply List.Perm.append_left
  have split := (List.perm_cons_erase inside).flatMap_right fun d => d.entries.map Prod.snd
  rw [List.flatMap_cons] at split
  exact split.symm

end entries

/-- What holds of every state reached. -/
structure Sound (s : State) : Prop where
  tidy : ∀ m ∈ s.catalog.metas, m.Tidy
  folders : (s.catalog.metas.map TableMeta.folder).Nodup
  pins : (s.catalog.pins.map Prod.fst).Nodup
  logs : ∀ seg ∈ s.catalog.segments, ∀ q ∈ seg.path, q.part = .log
  times : ∀ p ∈ s.catalog.pins, p.2.ms + margin ≤ s.latest ∨ p.2.ms = 0

/-- Entries that are some of those before, changed with their folders kept. -/
theorem metas_tidy (before after : Catalog) (edited : List TableMeta)
    (folders : (before.metas.map TableMeta.folder).Nodup)
    (tidies : ∀ m ∈ edited, m.Tidy)
    (kept : edited.map TableMeta.folder = before.metas.map TableMeta.folder)
    (some : after.metas.Sublist edited) :
    (∀ m ∈ after.metas, m.Tidy) ∧ (after.metas.map TableMeta.folder).Nodup := by
  constructor
  · intro m inside
    exact tidies m (some.subset inside)
  · rw [← kept] at folders
    exact folders.sublist (some.map TableMeta.folder)

theorem perm_tidy (before after : Catalog) (tidy : ∀ m ∈ before.metas, m.Tidy)
    (folders : (before.metas.map TableMeta.folder).Nodup) (same : after.metas.Perm before.metas) :
    (∀ m ∈ after.metas, m.Tidy) ∧ (after.metas.map TableMeta.folder).Nodup :=
  ⟨fun m inside => tidy m (same.subset inside), (same.map _).nodup_iff.mpr folders⟩

theorem new_tidy (before after : Catalog) (m : TableMeta) (tidy : ∀ m ∈ before.metas, m.Tidy)
    (folders : (before.metas.map TableMeta.folder).Nodup) (mine : m.Tidy)
    (free : ∀ m' ∈ before.metas, m'.folder ≠ m.folder) (same : after.metas.Perm (m :: before.metas)) :
    (∀ m ∈ after.metas, m.Tidy) ∧ (after.metas.map TableMeta.folder).Nodup := by
  constructor
  · intro m' inside
    rcases List.mem_cons.mp (same.subset inside) with rfl | here
    · exact mine
    · exact tidy m' here
  · apply (same.map _).nodup_iff.mpr
    rw [List.map_cons, List.nodup_cons]
    refine ⟨fun taken => ?_, folders⟩
    obtain ⟨m', here, equal⟩ := List.mem_map.mp taken
    exact free m' here equal

theorem mem_of_lookup (tables : List (String × TableMeta)) (name : String) (m : TableMeta)
    (found : tables.lookup name = some m) : (name, m) ∈ tables := by
  obtain ⟨before, after, rfl, _⟩ := List.lookup_eq_some_iff.mp found
  exact List.mem_append_right _ List.mem_cons_self

theorem table_meta (c : Catalog) (t : String × TableMeta) (inside : t ∈ c.tables) : t.2 ∈ c.metas :=
  List.mem_append_left _ (List.mem_map_of_mem inside)

theorem expire_tables (set : Settings) (now floor : Nat) (sweep : Option Sweep) (s : State) :
    ∃ cutoff, (expire set now floor sweep s).catalog.tables =
      s.catalog.tables.map fun t => (t.1, t.2.kept cutoff) := by
  unfold expire
  cases sweep with
  | none => exact ⟨_, rfl⟩
  | some sweep => exact ⟨_, rfl⟩

theorem expire_dropped (set : Settings) (now floor : Nat) (sweep : Option Sweep) (s : State) :
    (expire set now floor sweep s).catalog.dropped.Sublist s.catalog.dropped := by
  unfold expire
  cases sweep with
  | none => exact List.filter_sublist
  | some sweep => exact List.filter_sublist

theorem expire_pins (set : Settings) (now floor : Nat) (sweep : Option Sweep) (s : State) :
    (expire set now floor sweep s).catalog.pins.Sublist s.catalog.pins := by
  unfold expire
  cases sweep with
  | none => exact List.filter_sublist
  | some sweep => exact List.filter_sublist.trans List.filter_sublist

theorem act_tidy (set : Settings) (s : State) (op : Op) (sound : Sound s) (allowed : Allows s op) :
    (∀ m ∈ (act set s op).catalog.metas, m.Tidy) ∧
      ((act set s op).catalog.metas.map TableMeta.folder).Nodup := by
  have same := And.intro sound.tidy sound.folders
  cases op with
  | lead | upload | append | pin | unpin => exact same
  | create name folder =>
    simp only [act]
    split
    · exact same
    · apply new_tidy s.catalog _ ⟨folder, [], [], [], []⟩ sound.tidy sound.folders
      · exact ⟨by simp [TableMeta.named, TableMeta.old], by simp, by simp⟩
      · exact allowed.2
      · exact create_metas s.catalog name _
  | change name out marks into now =>
    apply metas_tidy s.catalog _ _ sound.folders ?_ ?_ (List.Sublist.refl _)
    · intro m inside
      rcases List.mem_append.mp inside with table | kept
      · obtain ⟨t, edited, rfl⟩ := List.mem_map.mp table
        obtain ⟨t, here, rfl⟩ := List.mem_map.mp edited
        have tidy := sound.tidy t.2 (table_meta _ t here)
        split
        · rename_i named
          apply change_tidy t.2 out marks into now tidy
          · intro n new
            exact allowed.2.1 t here named n new t.2 (table_meta _ t here)
          · exact allowed.2.2
        · exact tidy
      · exact sound.tidy m (List.mem_append_right _ kept)
    · simp only [act, Catalog.metas, List.map_append, List.map_map]
      apply congrArg (· ++ _)
      apply List.map_congr_left
      intro t _
      simp only [Function.comp_apply]
      split
      · rfl
      · rfl
  | clone name folder source =>
    simp only [act]
    split
    · rename_i m _ found
      have tidy := sound.tidy m (table_meta _ _ (mem_of_lookup _ _ _ found))
      apply new_tidy s.catalog _ ⟨folder, m.files, [], [], m.folder :: m.shares⟩ sound.tidy sound.folders
      · refine ⟨?_, by simp [TableMeta.old], tidy.apart⟩
        intro p inside
        have named : p ∈ m.named := by simpa [TableMeta.named, TableMeta.old] using inside
        obtain ⟨f, part, at_⟩ := tidy.placed p (List.mem_append_left _ named)
        refine ⟨f, part, .inr ?_⟩
        rcases at_ with rfl | shared
        · exact List.mem_cons_self
        · exact List.mem_cons_of_mem _ shared
      · exact allowed.2
      · exact create_metas s.catalog name _
    · exact same
  | drop name kept now =>
    cases kept with
    | some keepMs => exact perm_tidy s.catalog _ sound.tidy sound.folders (drop_metas s.catalog _ _ rfl)
    | none =>
      apply metas_tidy s.catalog _ _ sound.folders sound.tidy rfl
      exact ((List.filter_sublist).map Prod.snd).append_right _
  | undrop name =>
    simp only [act]
    split
    · exact same
    · split
      · rename_i d found
        have inside := List.mem_reverse.mp (List.mem_of_find?_eq_some found)
        exact perm_tidy s.catalog _ sound.tidy sound.folders (undrop_metas s.catalog d inside)
      · exact same
  | expire now floor sweep =>
    obtain ⟨cutoff, tables⟩ := expire_tables set now floor sweep s
    have dropped := expire_dropped set now floor sweep s
    apply metas_tidy s.catalog _
      ((s.catalog.tables.map Prod.snd).map (·.kept cutoff) ++
        s.catalog.dropped.flatMap fun d => d.entries.map Prod.snd) sound.folders
    · intro m inside
      rcases List.mem_append.mp inside with table | kept
      · obtain ⟨m, here, rfl⟩ := List.mem_map.mp table
        exact kept_tidy m cutoff (sound.tidy m (List.mem_append_left _ here))
      · exact sound.tidy m (List.mem_append_right _ kept)
    · rw [Catalog.metas, List.map_append, List.map_append, List.map_map]
      rfl
    · show (expire set now floor sweep s).catalog.metas.Sublist _
      unfold Catalog.metas
      rw [tables, List.map_map, List.map_map]
      apply List.Sublist.append (List.Sublist.refl _)
      exact dropped.flatMap _

/-- A step's pins are those of before, but for one made. -/
theorem act_pins (set : Settings) (s : State) (op : Op) :
    (act set s op).catalog.pins.Sublist s.catalog.pins ∨ ∃ branch ms lease now,
      op = .pin branch ms lease now ∧ (act set s op).catalog.pins =
        (branch, pinned (s.catalog.pins.lookup branch) ms lease now) ::
          s.catalog.pins.filter (·.1 ≠ branch) := by
  cases op with
  | pin branch ms lease now => exact .inr ⟨branch, ms, lease, now, rfl, rfl⟩
  | unpin branch => exact .inl List.filter_sublist
  | expire now floor sweep => exact .inl (expire_pins set now floor sweep s)
  | lead | upload | append | change | drop => exact .inl (List.Sublist.refl _)
  | create name folder =>
    simp only [act]
    split
    · exact .inl (List.Sublist.refl _)
    · exact .inl (List.Sublist.refl _)
  | clone name folder source =>
    simp only [act]
    split
    · exact .inl (List.Sublist.refl _)
    · exact .inl (List.Sublist.refl _)
  | undrop name =>
    simp only [act]
    split
    · exact .inl (List.Sublist.refl _)
    · split
      · exact .inl (List.Sublist.refl _)
      · exact .inl (List.Sublist.refl _)

theorem act_logs (set : Settings) (s : State) (op : Op)
    (logs : ∀ seg ∈ s.catalog.segments, ∀ q ∈ seg.path, q.part = .log) :
    ∀ seg ∈ (act set s op).catalog.segments, ∀ q ∈ seg.path, q.part = .log := by
  cases op with
  | lead | upload | change | drop | pin | unpin => exact logs
  | create name folder =>
    simp only [act]
    split
    · exact logs
    · exact logs
  | clone name folder source =>
    simp only [act]
    split
    · exact logs
    · exact logs
  | undrop name =>
    simp only [act]
    split
    · exact logs
    · split
      · exact logs
      · exact logs
  | append ts path files =>
    intro seg inside q at_
    rcases List.mem_append.mp inside with had | new
    · exact logs seg had q at_
    · rw [List.mem_singleton.mp new] at at_
      obtain ⟨name, _, rfl⟩ := Option.map_eq_some_iff.mp at_
      rfl
  | expire now floor sweep =>
    have fewer : (expire set now floor sweep s).catalog.segments.Sublist s.catalog.segments := by
      unfold expire
      cases sweep with
      | none => exact List.filter_sublist
      | some sweep => exact List.filter_sublist
    intro seg inside
    exact logs seg (fewer.subset inside)

theorem mem_of_pin (pins : List (String × Pin)) (branch : String) (p : Pin)
    (found : pins.lookup branch = some p) : (branch, p) ∈ pins := by
  obtain ⟨before, after, rfl, _⟩ := List.lookup_eq_some_iff.mp found
  exact List.mem_append_right _ List.mem_cons_self

theorem pinned_ms (before : Option Pin) (ms : Option Nat) (lease : Bool) (now : Nat) :
    (pinned before ms lease now).ms =
      before.elim (ms.getD (now - margin)) fun p => min (ms.getD (now - margin)) p.ms := by
  cases before with
  | none => rfl
  | some p => rfl

/-- A pin's time is its margin ago, or older. -/
theorem pinned_old (before : Option Pin) (ms : Option Nat) (lease : Bool) (now latest : Nat)
    (old : ∀ p, before = some p → p.ms + margin ≤ latest ∨ p.ms = 0)
    (given : ∀ x ∈ ms, x + margin ≤ now) :
    (pinned before ms lease now).ms + margin ≤ max latest now ∨ (pinned before ms lease now).ms = 0 := by
  have time : ms.getD (now - margin) + margin ≤ now ∨ ms.getD (now - margin) = 0 := by
    cases ms with
    | none =>
      rw [Option.getD_none]
      omega
    | some x => exact .inl (given x rfl)
  rw [pinned_ms]
  generalize ms.getD (now - margin) = x at time
  cases before with
  | none =>
    rw [Option.elim_none]
    omega
  | some p =>
    have older := old p rfl
    rw [Option.elim_some]
    omega

theorem next_sound (set : Settings) (s : State) (op : Op) (sound : Sound s) (allowed : Allows s op) :
    Sound (next set s op) := by
  have tidy := act_tidy set s op sound allowed
  have logs := act_logs set s op sound.logs
  have later (p : String × Pin) (inside : p ∈ s.catalog.pins) :
      p.2.ms + margin ≤ max s.latest (op.now.getD 0) ∨ p.2.ms = 0 := by
    have time := sound.times p inside
    omega
  rcases act_pins set s op with fewer | ⟨branch, ms, lease, now, made, pins⟩
  · exact ⟨tidy.1, tidy.2, sound.pins.sublist (fewer.map _), logs,
      fun p inside => later p (fewer.subset inside)⟩
  · subst made
    refine ⟨tidy.1, tidy.2, ?_, logs, ?_⟩
    · show ((act set s _).catalog.pins.map Prod.fst).Nodup
      rw [pins, List.map_cons, List.nodup_cons]
      constructor
      · intro again
        obtain ⟨p, other, same⟩ := List.mem_map.mp again
        exact of_decide_eq_true (List.mem_filter.mp other).2 same
      · exact sound.pins.sublist (List.filter_sublist.map _)
    · intro p inside
      change p ∈ (act set s _).catalog.pins at inside
      rw [pins] at inside
      rcases List.mem_cons.mp inside with rfl | other
      · have old : ∀ q, s.catalog.pins.lookup branch = some q → q.ms + margin ≤ s.latest ∨ q.ms = 0 :=
          fun q found => sound.times _ (mem_of_pin _ _ _ found)
        have made := pinned_old (s.catalog.pins.lookup branch) ms lease now s.latest old allowed.2
        exact made
      · exact later p (List.mem_filter.mp other).1

/-! ### What a pin keeps -/

/-- The entries a round leaves while a pin of that time is there: the tables', and those of tables dropped
since. -/
def Catalog.strong (c : Catalog) (ms : Nat) : List TableMeta :=
  c.tables.map Prod.snd ++ (c.dropped.filter (ms ≤ ·.atMs)).flatMap fun d => d.entries.map Prod.snd

/-- Listed by the entry, or taken out of it since a time. -/
def TableMeta.Holds (m : TableMeta) (ms : Nat) (p : Path) : Prop :=
  p ∈ m.named ∨ ∃ g ∈ m.old, g.1 = p ∧ ms ≤ g.2

/-- An entry that stays holds the path, so no orphan sweep takes it; and where it was taken out before the
time, another's files are in its folder, so no table's garbage does. -/
structure Kept (c : Catalog) (ms : Nat) (folder : String) (p : Path) : Prop where
  held : ∃ m ∈ c.strong ms, m.At folder ∧ m.Holds ms p
  spared : ∀ m ∈ c.metas, ∀ g ∈ m.old, g.1 = p →
    ms ≤ g.2 ∨ folder ∈ m.shares ∨ ∃ m' ∈ c.strong ms, folder ∈ m'.shares

theorem strong_metas (c : Catalog) (ms : Nat) (m : TableMeta) (inside : m ∈ c.strong ms) :
    m ∈ c.metas := by
  have fewer := List.Sublist.append (List.Sublist.refl (c.tables.map Prod.snd))
    ((List.filter_sublist (p := fun d : Dropped => decide (ms ≤ d.atMs)) (l := c.dropped)).flatMap
      fun d => d.entries.map Prod.snd)
  exact fewer.subset inside

/-- An entry later on, for a path and a time. -/
structure Later (ms : Nat) (p : Path) (m m' : TableMeta) : Prop where
  folder : m'.folder = m.folder
  shares : m'.shares = m.shares
  holds : m.Holds ms p → m'.Holds ms p
  old : ∀ g ∈ m'.old, g.1 = p → g ∈ m.old ∨ ms ≤ g.2

theorem Later.refl (ms : Nat) (p : Path) (m : TableMeta) : Later ms p m m :=
  ⟨rfl, rfl, id, fun _ had _ => .inl had⟩

theorem change_later (ms : Nat) (p : Path) (m : TableMeta) (out : List Path)
    (marks : List (Path × String)) (into : List (String × List String)) (now : Nat) (since : ms ≤ now) :
    Later ms p m (m.change out marks into now) := by
  have taken := change_old m out marks into now
  refine ⟨rfl, rfl, ?_, ?_⟩
  · rintro (named | ⟨g, old, same, late⟩)
    · obtain ⟨f, listed, of_⟩ := (mem_named m p).mp named
      by_cases gone : f.path ∈ out
      · exact .inr ⟨(p, now), (taken (p, now)).mpr (.inr ⟨rfl, f, listed, gone, of_⟩), rfl, since⟩
      · exact .inl (change_keeps m out marks into now f listed gone p of_)
    · exact .inr ⟨g, (taken g).mpr (.inl old), same, late⟩
  · intro g old _
    rcases (change_old m out marks into now g).mp old with had | ⟨time, _⟩
    · exact .inl had
    · exact .inr (time ▸ since)

theorem kept_later (ms : Nat) (p : Path) (m : TableMeta) (cutoff : Nat) (before : cutoff ≤ ms) :
    Later ms p m (m.kept cutoff) := by
  refine ⟨rfl, rfl, ?_, ?_⟩
  · rintro (named | ⟨g, old, same, since⟩)
    · exact .inl named
    · exact .inr ⟨g, (kept_old m cutoff g).mpr ⟨old, Nat.le_trans before since⟩, same, since⟩
  · intro g old _
    exact .inl ((kept_old m cutoff g).mp old).1

/-- A step that keeps every entry that stays, changed as it may be, keeps the path. -/
theorem kept_step (before after : Catalog) (ms : Nat) (folder : String) (p : Path)
    (kept : Kept before ms folder p)
    (holders : ∀ m ∈ before.strong ms, m.Holds ms p ∨ folder ∈ m.shares →
      ∃ m' ∈ after.strong ms, Later ms p m m')
    (others : ∀ m' ∈ after.metas, (∃ m ∈ before.metas, Later ms p m m') ∨ m'.old = []) :
    Kept after ms folder p := by
  have shares (m : TableMeta) (strong : m ∈ before.strong ms) (shared : folder ∈ m.shares) :
      ∃ m' ∈ after.strong ms, folder ∈ m'.shares := by
    obtain ⟨m', stays, later⟩ := holders m strong (.inr shared)
    exact ⟨m', stays, later.shares ▸ shared⟩
  constructor
  · obtain ⟨m, strong, at_, holds⟩ := kept.held
    obtain ⟨m', stays, later⟩ := holders m strong (.inl holds)
    refine ⟨m', stays, ?_, later.holds holds⟩
    unfold TableMeta.At
    rw [later.folder, later.shares]
    exact at_
  · intro m' inside g old same
    rcases others m' inside with ⟨m, here, later⟩ | none
    · rcases later.old g old same with had | since
      · rcases kept.spared m here g had same with since | mine | ⟨m'', strong, shared⟩
        · exact .inl since
        · exact .inr (.inl (later.shares ▸ mine))
        · exact .inr (.inr (shares m'' strong shared))
      · exact .inl since
    · rw [none] at old
      cases old

theorem ends_le (c : Catalog) (p : String × Pin) (inside : p ∈ c.pins) :
    ∃ e, c.ends = some e ∧ e.1 ≤ p.2.ms := by
  have here : p.2.ms ∈ c.pins.map (·.2.ms) := List.mem_map_of_mem inside
  unfold Catalog.ends
  cases least : (c.pins.map (·.2.ms)).min? with
  | none =>
    rw [List.min?_eq_none_iff.mp least] at here
    cases here
  | some oldest =>
    cases most : (c.pins.map (·.2.ms)).max? with
    | none =>
      rw [List.max?_eq_none_iff.mp most] at here
      cases here
    | some newest => exact ⟨(oldest, newest), rfl, (List.min?_eq_some_iff.mp least).2 _ here⟩

/-- What a round does while a pin of a time is there to its end. -/
structure Spares (s s' : State) (ms cutoff : Nat) : Prop where
  old : cutoff ≤ ms
  tables : s'.catalog.tables = s.catalog.tables.map fun t => (t.1, t.2.kept cutoff)
  dropped : s'.catalog.dropped.Sublist s.catalog.dropped
  stays : ∀ d ∈ s.catalog.dropped, ms ≤ d.atMs → d ∈ s'.catalog.dropped
  bucket : ∀ o ∈ s.bucket, o ∉ s'.bucket → (∃ seg ∈ s.catalog.segments, o.1 ∈ seg.path) ∨
    (∃ t ∈ s.catalog.tables, (∃ g ∈ t.2.old, g.1 = o.1 ∧ g.2 < cutoff) ∧ s.catalog.shared o.1 = false) ∨
    o.1 ∉ s'.catalog.used o.1.part

theorem dead_old (c : Catalog) (cutoff : Nat) (m : TableMeta) (p : Path) (gone : p ∈ dead c cutoff m) :
    (∃ g ∈ m.old, g.1 = p ∧ g.2 < cutoff) ∧ c.shared p = false := by
  obtain ⟨taken, spared⟩ := List.mem_filter.mp gone
  obtain ⟨g, inside, rfl⟩ := List.mem_map.mp taken
  have unshared : c.shared g.1 = false := by
    simp only [Bool.and_eq_true, Bool.not_eq_true'] at spared
    exact spared.2
  refine ⟨⟨g, ?_, rfl, ?_⟩, unshared⟩
  · rcases List.mem_append.mp inside with file | deletes
    · exact List.mem_append_left _ (List.mem_filter.mp file).1
    · exact List.mem_append_right _ (List.mem_filter.mp deletes).1
  · rcases List.mem_append.mp inside with file | deletes
    · exact of_decide_eq_true (List.mem_filter.mp file).2
    · exact of_decide_eq_true (List.mem_filter.mp deletes).2

theorem orphans_unused (set : Settings) (now : Nat) (sweep : Sweep) (s : State) (o : Path × Nat)
    (inside : o ∈ s.bucket) (gone : o ∉ (collectOrphans set now sweep s).bucket) :
    o.1 ∉ (collectOrphans set now sweep s).catalog.used o.1.part := by
  intro used
  apply gone
  apply List.mem_filter.mpr ⟨inside, ?_⟩
  have listed : orphan set now sweep (collectOrphans set now sweep s).catalog o = false := by
    simp [orphan, used]
  exact congrArg Bool.not listed

theorem expire_spares (set : Settings) (now floor : Nat) (sweep : Option Sweep) (s : State) (ms : Nat)
    (p : String × Pin) (there : p ∈ (expire set now floor sweep s).catalog.pins) (older : p.2.ms ≤ ms) :
    ∃ cutoff, Spares s (expire set now floor sweep s) ms cutoff := by
  let c := { s.catalog with pins := s.catalog.pins.filter fun p => !p.2.lapsed set now }
  have pinned : p ∈ c.pins := by
    unfold expire at there
    cases sweep with
    | none => exact there
    | some sweep => exact List.mem_of_mem_filter there
  obtain ⟨e, ends, oldest⟩ := ends_le c p pinned
  have low (cutoff : Nat) (kept : Option Nat) : filesCutoff cutoff kept c.ends ≤ ms := by
    simp only [filesCutoff, ends]
    exact Nat.le_trans (Nat.min_le_right _ _) (Nat.le_trans oldest older)
  have stays (d : Dropped) (late : ms ≤ d.atMs) : d.expired now c.ends = false := by
    rw [Dropped.expired, ends, Option.all_some, decide_eq_false (p := d.atMs < e.1) (by omega), Bool.and_false]
  let cutoff := now - set.grace
  let fl := floorAt cutoff (Tier.passed cutoff (s.floors ++ [(now, floor)]))
  let logs := min cutoff (now - set.changelog)
  let files := filesCutoff cutoff (firstKept c fl logs) c.ends
  have unlisted (o : Path × Nat)
      (gone : o.1 ∈ (c.segments.filter (done fl logs)).filterMap Segment.path ++
        c.tables.flatMap fun t => dead c files t.2) :
      (∃ seg ∈ s.catalog.segments, o.1 ∈ seg.path) ∨
      (∃ t ∈ s.catalog.tables, (∃ g ∈ t.2.old, g.1 = o.1 ∧ g.2 < files) ∧
        s.catalog.shared o.1 = false) := by
    rcases List.mem_append.mp gone with segment | garbage
    · obtain ⟨seg, inside, at_⟩ := List.mem_filterMap.mp segment
      exact .inl ⟨seg, (List.mem_filter.mp inside).1, at_⟩
    · obtain ⟨t, inside, taken⟩ := List.mem_flatMap.mp garbage
      exact .inr ⟨t, inside, dead_old c files t.2 o.1 taken⟩
  have kept (d : Dropped) (inside : d ∈ s.catalog.dropped) (late : ms ≤ d.atMs) :
      d ∈ c.dropped.filter fun d => !d.expired now c.ends :=
    List.mem_filter.mpr ⟨inside, by rw [stays d late]; rfl⟩
  refine ⟨files, low _ _, ?_, expire_dropped set now floor sweep s, ?_, ?_⟩
  · cases sweep with
    | none => rfl
    | some sweep => rfl
  · cases sweep with
    | none => exact kept
    | some sweep => exact kept
  · intro o inside gone
    rw [← or_assoc]
    cases sweep with
    | none =>
      left
      apply unlisted
      by_cases taken : o.1 ∈ (c.segments.filter (done fl logs)).filterMap Segment.path ++
        c.tables.flatMap fun t => dead c files t.2
      · exact taken
      · exact absurd (List.mem_filter.mpr ⟨inside, decide_eq_true taken⟩) gone
    | some sweep =>
      by_cases taken : o.1 ∈ (c.segments.filter (done fl logs)).filterMap Segment.path ++
        c.tables.flatMap fun t => dead c files t.2
      · exact .inl (unlisted o taken)
      · right
        have left : o ∈ s.bucket.filter fun o => decide (o.1 ∉
            (c.segments.filter (done fl logs)).filterMap Segment.path ++
              c.tables.flatMap fun t => dead c files t.2) :=
          List.mem_filter.mpr ⟨inside, decide_eq_true taken⟩
        exact orphans_unused set now sweep _ o left gone

theorem mem_strong (c : Catalog) (ms : Nat) (m : TableMeta) : m ∈ c.strong ms ↔
    (∃ t ∈ c.tables, t.2 = m) ∨ ∃ d ∈ c.dropped, ms ≤ d.atMs ∧ ∃ t ∈ d.entries, t.2 = m := by
  simp [Catalog.strong, and_assoc]

theorem mem_metas (c : Catalog) (m : TableMeta) : m ∈ c.metas ↔
    (∃ t ∈ c.tables, t.2 = m) ∨ ∃ d ∈ c.dropped, ∃ t ∈ d.entries, t.2 = m := by
  simp [Catalog.metas]

/-- A table dropped for good neither listed the path nor shares its folder. -/
def Leaves (p : Path) (s : State) : Op → Prop
  | .drop name none _ => ∀ t ∈ s.catalog.tables, t.1 = name ∨ t.1 = deletedOf name →
      p ∉ t.2.named ∧ p ∉ t.2.old.map Prod.fst ∧ p.part ∉ t.2.shares.map Part.data
  | _ => True

theorem act_kept (set : Settings) (s : State) (op : Op) (allowed : Allows s op) (ms : Nat)
    (folder : String) (p : Path) (part : p.part = .data folder) (kept : Kept s.catalog ms folder p)
    (clock : ∀ now ∈ op.now, ms ≤ now) (leaves : Leaves p s op)
    (there : ∃ q ∈ (act set s op).catalog.pins, q.2.ms ≤ ms) :
    Kept (act set s op).catalog ms folder p := by
  have same (m : TableMeta) : Later ms p m m := Later.refl ms p m
  cases op with
  | lead | upload | append | pin | unpin => exact ⟨kept.held, kept.spared⟩
  | create name free =>
    simp only [act]
    split
    · exact kept
    · apply kept_step s.catalog _ ms folder p kept
      · intro m strong _
        refine ⟨m, ?_, same m⟩
        rcases (mem_strong _ ms m).mp strong with ⟨t, here, is_⟩ | old
        · exact (mem_strong _ ms m).mpr (.inl ⟨t, List.mem_append_left _ here, is_⟩)
        · exact (mem_strong _ ms m).mpr (.inr old)
      · intro m inside
        rcases List.mem_cons.mp ((create_metas s.catalog name _).subset inside) with rfl | here
        · exact .inr rfl
        · exact .inl ⟨m, here, same m⟩
  | clone name free source =>
    simp only [act]
    split
    · apply kept_step s.catalog _ ms folder p kept
      · intro m strong _
        refine ⟨m, ?_, same m⟩
        rcases (mem_strong _ ms m).mp strong with ⟨t, here, is_⟩ | old
        · exact (mem_strong _ ms m).mpr (.inl ⟨t, List.mem_append_left _ here, is_⟩)
        · exact (mem_strong _ ms m).mpr (.inr old)
      · intro m inside
        rcases List.mem_cons.mp ((create_metas s.catalog name _).subset inside) with rfl | here
        · exact .inr rfl
        · exact .inl ⟨m, here, same m⟩
    · exact kept
  | change name out marks into now =>
    have edited (t : String × TableMeta) : Later ms p t.2
        (if t.1 = name then (t.1, t.2.change out marks into now) else t).2 := by
      split
      · exact change_later ms p t.2 out marks into now (clock now rfl)
      · exact same t.2
    apply kept_step s.catalog _ ms folder p kept
    · intro m strong _
      rcases (mem_strong _ ms m).mp strong with ⟨t, here, rfl⟩ | old
      · exact ⟨_, (mem_strong _ ms _).mpr (.inl ⟨_, List.mem_map_of_mem here, rfl⟩), edited t⟩
      · exact ⟨m, (mem_strong _ ms m).mpr (.inr old), same m⟩
    · intro m inside
      rcases (mem_metas _ m).mp inside with ⟨t, here, rfl⟩ | old
      · obtain ⟨t', here', rfl⟩ := List.mem_map.mp here
        exact .inl ⟨t'.2, table_meta _ t' here', edited t'⟩
      · exact .inl ⟨m, (mem_metas _ m).mpr (.inr old), same m⟩
  | drop name keeps now =>
    cases keeps with
    | some keepMs =>
      apply kept_step s.catalog _ ms folder p kept
      · intro m strong _
        refine ⟨m, (mem_strong _ ms m).mpr ?_, same m⟩
        rcases (mem_strong _ ms m).mp strong with ⟨t, here, is_⟩ | ⟨d, here, since, is_⟩
        · by_cases named : t.1 = name ∨ t.1 = deletedOf name
          · exact .inr ⟨_, List.mem_append_right _ List.mem_cons_self, clock now rfl, t,
              List.mem_filter.mpr ⟨here, decide_eq_true named⟩, is_⟩
          · exact .inl ⟨t, List.mem_filter.mpr ⟨here, by simp [named]⟩, is_⟩
        · exact .inr ⟨d, List.mem_append_left _ here, since, is_⟩
      · intro m inside
        exact .inl ⟨m, (drop_metas s.catalog _ ⟨name, now, keepMs, _⟩ rfl).subset inside, same m⟩
    | none =>
      apply kept_step s.catalog _ ms folder p kept
      · intro m strong holds
        refine ⟨m, (mem_strong _ ms m).mpr ?_, same m⟩
        rcases (mem_strong _ ms m).mp strong with ⟨t, here, rfl⟩ | old
        · have other : ¬ (t.1 = name ∨ t.1 = deletedOf name) := by
            intro named
            obtain ⟨unlisted, untaken, unshared⟩ := leaves t here named
            rcases holds with (listed | ⟨g, taken, rfl, _⟩) | shared
            · exact unlisted listed
            · exact untaken (List.mem_map_of_mem taken)
            · exact unshared (part ▸ List.mem_map_of_mem shared)
          exact .inl ⟨t, List.mem_filter.mpr ⟨here, by simp [other]⟩, rfl⟩
        · exact .inr old
      · intro m inside
        refine .inl ⟨m, (mem_metas _ m).mpr ?_, same m⟩
        rcases (mem_metas _ m).mp inside with ⟨t, here, is_⟩ | old
        · exact .inl ⟨t, (List.mem_filter.mp here).1, is_⟩
        · exact .inr old
  | undrop name =>
    simp only [act]
    split
    · exact kept
    · split
      · rename_i d found
        have inside := List.mem_reverse.mp (List.mem_of_find?_eq_some found)
        apply kept_step s.catalog _ ms folder p kept
        · intro m strong _
          refine ⟨m, (mem_strong _ ms m).mpr ?_, same m⟩
          rcases (mem_strong _ ms m).mp strong with ⟨t, here, is_⟩ | ⟨d', here, since, t, entry, is_⟩
          · exact .inl ⟨t, List.mem_append_left _ here, is_⟩
          · by_cases back : d' = d
            · subst back
              exact .inl ⟨t, List.mem_append_right _ entry, is_⟩
            · exact .inr ⟨d', (List.mem_erase_of_ne back).mpr here, since, t, entry, is_⟩
        · intro m inside'
          exact .inl ⟨m, (undrop_metas s.catalog d inside).subset inside', same m⟩
      · exact kept
  | expire now floor sweep =>
    obtain ⟨q, inside, older⟩ := there
    obtain ⟨cutoff, spares⟩ := expire_spares set now floor sweep s ms q inside older
    apply kept_step s.catalog _ ms folder p kept
    · intro m strong _
      rcases (mem_strong _ ms m).mp strong with ⟨t, here, rfl⟩ | ⟨d, here, since, is_⟩
      · refine ⟨t.2.kept cutoff, (mem_strong _ ms _).mpr (.inl ⟨(t.1, t.2.kept cutoff), ?_, rfl⟩),
          kept_later ms p t.2 cutoff spares.old⟩
        show _ ∈ (expire set now floor sweep s).catalog.tables
        rw [spares.tables]
        exact List.mem_map_of_mem here
      · exact ⟨m, (mem_strong _ ms m).mpr (.inr ⟨d, spares.stays d here since, since, is_⟩), same m⟩
    · intro m inside
      rcases (mem_metas _ m).mp inside with ⟨t, here, rfl⟩ | ⟨d, here, is_⟩
      · change t ∈ (expire set now floor sweep s).catalog.tables at here
        rw [spares.tables] at here
        obtain ⟨t', here', rfl⟩ := List.mem_map.mp here
        exact .inl ⟨t'.2, table_meta _ t' here', kept_later ms p t'.2 cutoff spares.old⟩
      · exact .inl ⟨m, (mem_metas _ m).mpr (.inr ⟨d, spares.dropped.subset here, is_⟩), same m⟩

/-- A step leaves a kept object in the bucket. -/
theorem act_bucket (set : Settings) (s : State) (op : Op) (sound : Sound s) (ms : Nat)
    (folder : String) (p : Path) (part : p.part = .data folder) (kept : Kept s.catalog ms folder p)
    (after : Kept (act set s op).catalog ms folder p)
    (there : ∃ q ∈ (act set s op).catalog.pins, q.2.ms ≤ ms) (stored : p ∈ s.bucket.map Prod.fst) :
    p ∈ (act set s op).bucket.map Prod.fst := by
  obtain ⟨o, inside, rfl⟩ := List.mem_map.mp stored
  cases op with
  | lead | append | pin | unpin | change | drop => exact stored
  | create name free =>
    simp only [act]
    split
    · exact stored
    · exact stored
  | clone name free source =>
    simp only [act]
    split
    · exact stored
    · exact stored
  | undrop name =>
    simp only [act]
    split
    · exact stored
    · split
      · exact stored
      · exact stored
  | upload path at_ =>
    by_cases same : o.1 = path
    · exact List.mem_map.mpr ⟨_, List.mem_cons_self, same.symm⟩
    · exact List.mem_map.mpr ⟨o, List.mem_cons_of_mem _ (List.mem_filter.mpr ⟨inside, by simp [same]⟩), rfl⟩
  | expire now floor sweep =>
    obtain ⟨q, pinned, older⟩ := there
    obtain ⟨cutoff, spares⟩ := expire_spares set now floor sweep s ms q pinned older
    by_cases left : o ∈ (expire set now floor sweep s).bucket
    · exact List.mem_map_of_mem left
    · exfalso
      rcases spares.bucket o inside left with ⟨seg, here, at_⟩ | ⟨⟨t, here, ⟨g, old, same, before⟩, unshared⟩⟩ | unused
      · have log := sound.logs seg here o.1 at_
        rw [part] at log
        cases log
      · have no (m : TableMeta) (listed : m ∈ s.catalog.metas) (shared : folder ∈ m.shares) : False := by
          rw [Catalog.shared, part] at unshared
          have none := List.any_eq_false.mp unshared m listed
          exact none (decide_eq_true shared)
        rcases kept.spared t.2 (table_meta _ t here) g old same with since | mine | ⟨m, strong, shared⟩
        · exact absurd (Nat.lt_of_lt_of_le before spares.old) (Nat.not_lt.mpr since)
        · exact no t.2 (table_meta _ t here) mine
        · exact no m (strong_metas _ ms m strong) shared
      · obtain ⟨m, strong, at_, holds⟩ := after.held
        apply unused
        rw [part]
        apply List.mem_flatMap.mpr ⟨m, List.mem_filter.mpr ⟨strong_metas _ ms m strong, decide_eq_true at_⟩, ?_⟩
        rcases holds with named | ⟨g, old, same, _⟩
        · exact List.mem_append_left _ named
        · exact List.mem_append_right _ (same ▸ List.mem_map_of_mem old)

/-- The pin is there after the step, and no table dropped for good has to do with the path. -/
def Holding (set : Settings) (branch : String) (p : Path) (s : State) (op : Op) : Prop :=
  branch ∈ (next set s op).catalog.pins.map Prod.fst ∧ Leaves p s op

instance (set : Settings) (s : State) (op : Op) : Decidable ((base set).Allows s op) :=
  inferInstanceAs (Decidable (Allows s op))

instance (p : Path) (s : State) (op : Op) : Decidable (Leaves p s op) :=
  match op with
  | .drop name none _ => inferInstanceAs (Decidable (∀ t ∈ s.catalog.tables, t.1 = name ∨ t.1 = deletedOf name →
      p ∉ t.2.named ∧ p ∉ t.2.old.map Prod.fst ∧ p.part ∉ t.2.shares.map Part.data))
  | .drop _ (some _) _ | .lead | .upload .. | .create .. | .change .. | .clone .. | .undrop _ | .append ..
  | .pin .. | .unpin _ | .expire .. => inferInstanceAs (Decidable True)

instance (set : Settings) (branch : String) (p : Path) (s : State) (op : Op) :
    Decidable (((base set).only (Holding set branch p)).Allows s op) :=
  inferInstanceAs (Decidable (Allows s op ∧ branch ∈ (next set s op).catalog.pins.map Prod.fst ∧ Leaves p s op))

/-- What a run under a pin of a time keeps. -/
structure Stands (branch : String) (ms : Nat) (folder : String) (p : Path) (s : State) : Prop where
  sound : Sound s
  kept : Kept s.catalog ms folder p
  old : ms + margin ≤ s.latest ∨ ms = 0
  there : ∃ q, (branch, q) ∈ s.catalog.pins
  pin : ∀ q, (branch, q) ∈ s.catalog.pins → q.ms ≤ ms
  stored : p ∈ s.bucket.map Prod.fst

theorem next_stands (set : Settings) (branch : String) (ms : Nat) (folder : String) (p : Path)
    (part : p.part = .data folder) (s : State) (op : Op) (stands : Stands branch ms folder p s)
    (allowed : ((base set).only (Holding set branch p)).Allows s op) :
    Stands branch ms folder p (next set s op) := by
  obtain ⟨allows, named, leaves⟩ := allowed
  obtain ⟨q, there⟩ : ∃ q, (branch, q) ∈ (next set s op).catalog.pins := by
    obtain ⟨q, inside, rfl⟩ := List.mem_map.mp named
    exact ⟨q.2, inside⟩
  have pin (q : Pin) (inside : (branch, q) ∈ (act set s op).catalog.pins) : q.ms ≤ ms := by
    rcases act_pins set s op with fewer | ⟨branch', given, lease, now, rfl, pins⟩
    · exact stands.pin q (fewer.subset inside)
    · rw [pins] at inside
      rcases List.mem_cons.mp inside with new | other
      · obtain ⟨rfl, rfl⟩ := Prod.mk.inj new
        obtain ⟨before, had⟩ := stands.there
        cases found : s.catalog.pins.lookup branch with
        | none =>
          have none := List.lookup_eq_none_iff.mp found _ had
          exact absurd none (by simp)
        | some before =>
          rw [pinned_ms, Option.elim_some]
          exact Nat.le_trans (Nat.min_le_right _ _) (stands.pin before (mem_of_pin _ _ _ found))
      · exact stands.pin q (List.mem_filter.mp other).1
  have clock (now : Nat) (at_ : now ∈ op.now) : ms ≤ now := by
    have behind := allows.1 now at_
    have old := stands.old
    omega
  have kept := act_kept set s op allows ms folder p part stands.kept clock leaves ⟨_, there, pin q there⟩
  refine ⟨next_sound set s op stands.sound allows, kept, ?_, ⟨q, there⟩, pin, ?_⟩
  · have old := stands.old
    show ms + margin ≤ max s.latest (op.now.getD 0) ∨ ms = 0
    omega
  · exact act_bucket set s op stands.sound ms folder p part stands.kept kept ⟨_, there, pin q there⟩
      stands.stored

/-! ### The runs -/

/-- A new lake. -/
def lake : State := ⟨⟨0, [], [], [], []⟩, [], [], 0⟩

theorem lake_sound : Sound lake where
  tidy _ inside := by cases inside
  folders := List.nodup_nil
  pins := List.nodup_nil
  logs _ inside := by cases inside
  times _ inside := by cases inside

theorem run_sound (set : Settings) (ops : List Op) (legal : (base set).Legal lake ops) :
    Sound ((base set).run lake ops) :=
  (base set).run_invariant Sound (fun s op sound allowed => next_sound set s op sound allowed) lake ops
    lake_sound legal

/-- A data file; or a delete file that no file taken out before the time named. -/
def Undated (c : Catalog) (ms : Nat) (p : Path) : Prop :=
  (∃ t ∈ c.tables, ∃ f ∈ t.2.files, f.path = p) ∨
    ∀ t ∈ c.tables, p ∈ t.2.named → ∀ g ∈ t.2.old, g.1 = p → ms ≤ g.2

/-- What a snapshot lists is kept from then on. -/
theorem snapshot_kept (s : State) (sound : Sound s) (ms : Nat) (p : Path)
    (listed : ∃ t ∈ s.catalog.tables, p ∈ t.2.named) (undated : Undated s.catalog ms p) :
    ∃ folder, p.part = .data folder ∧ Kept s.catalog ms folder p := by
  -- the table whose own garbage the path is not in, or not from before
  have own : ∃ t ∈ s.catalog.tables, p ∈ t.2.named ∧ ∀ g ∈ t.2.old, g.1 = p → ms ≤ g.2 := by
    rcases undated with ⟨t, here, f, file, rfl⟩ | late
    · refine ⟨t, here, path_named _ f file, fun g old same => ?_⟩
      exact absurd (same ▸ List.mem_map_of_mem old) ((sound.tidy t.2 (table_meta _ t here)).gone f file)
    · obtain ⟨t, here, named⟩ := listed
      exact ⟨t, here, named, late t here named⟩
  obtain ⟨t, here, named, late⟩ := own
  have inside := table_meta _ t here
  obtain ⟨folder, part, at_⟩ := (sound.tidy t.2 inside).placed p (List.mem_append_left _ named)
  have strong : t.2 ∈ s.catalog.strong ms := (mem_strong _ ms _).mpr (.inl ⟨t, here, rfl⟩)
  refine ⟨folder, part, ⟨t.2, strong, at_, .inl named⟩, ?_⟩
  intro m other g old same
  obtain ⟨folder', part', at_'⟩ := (sound.tidy m other).placed p
    (List.mem_append_right _ (same ▸ List.mem_map_of_mem old))
  have folders : folder' = folder := Part.data.inj (part'.symm.trans part)
  subst folders
  rcases at_' with mine | shared
  · rcases at_ with its | shared
    · have alike : m = t.2 := List.inj_on_of_nodup_map sound.folders other inside (mine.trans its.symm)
      subst alike
      exact .inl (late g old same)
    · exact .inr (.inr ⟨t.2, strong, shared⟩)
  · exact .inr (.inl shared)

theorem snapshot_stands (s : State) (sound : Sound s) (branch : String) (atMs : Nat) (q : Pin)
    (live : List Path) (taken : s.catalog.snapshot branch atMs = some live)
    (pin : s.catalog.pins.lookup branch = some q) (p : Path) (listed : p ∈ live)
    (undated : Undated s.catalog q.ms p) (stored : p ∈ s.bucket.map Prod.fst) :
    ∃ folder, p.part = .data folder ∧ Stands branch q.ms folder p s := by
  have there := mem_of_pin _ _ _ pin
  rw [Catalog.snapshot, pin] at taken
  simp only [Option.ite_none_right_eq_some, Option.some.injEq] at taken
  rw [← taken.2] at listed
  obtain ⟨folder, part, kept⟩ := snapshot_kept s sound q.ms p (List.mem_flatMap.mp listed) undated
  refine ⟨folder, part, sound, kept, sound.times _ there, ⟨q, there⟩, ?_, stored⟩
  intro q' inside
  have alike : (branch, q') = (branch, q) := List.inj_on_of_nodup_map sound.pins inside there rfl
  exact Nat.le_of_eq (congrArg (fun e => e.2.ms) alike)

/-- When the first log segment was written that a round keeps. -/
def State.firstKept (set : Settings) (now floor : Nat) (s : State) : Option Nat :=
  let cutoff := now - set.grace
  Branch.firstKept s.catalog (floorAt cutoff (Tier.passed cutoff (s.floors ++ [(now, floor)])))
    (min cutoff (now - set.changelog))

/-- With no pin, garbage of before the grace and the first segment kept goes. -/
theorem expire_takes (set : Settings) (now floor : Nat) (sweep : Option Sweep) (s : State)
    (free : ∀ q ∈ s.catalog.pins, q.2.lapsed set now = true) (t : String × TableMeta)
    (table : t ∈ s.catalog.tables) (g : Path × Nat) (old : g ∈ t.2.old)
    (past : g.2 < now - set.grace) (before : ∀ ts ∈ s.firstKept set now floor, g.2 < ts)
    (unnamed : ∀ f ∈ t.2.files, g.1 ∉ f.deletes) (unshared : s.catalog.shared g.1 = false) :
    g.1 ∉ (expire set now floor sweep s).bucket.map Prod.fst := by
  let c := { s.catalog with pins := s.catalog.pins.filter fun p => !p.2.lapsed set now }
  have ends : c.ends = none := by
    have none : c.pins = [] := by
      apply List.filter_eq_nil_iff.mpr
      intro q inside
      rw [free q inside]
      simp
    rw [Catalog.ends, none]
    rfl
  let cutoff := now - set.grace
  let fl := floorAt cutoff (Tier.passed cutoff (s.floors ++ [(now, floor)]))
  let logs := min cutoff (now - set.changelog)
  let files := filesCutoff cutoff (Branch.firstKept c fl logs) c.ends
  have early : g.2 < files := by
    show g.2 < filesCutoff cutoff (Branch.firstKept c fl logs) c.ends
    rw [ends]
    cases kept : Branch.firstKept c fl logs with
    | none => exact past
    | some ts =>
      have first := before ts kept
      show g.2 < min cutoff ts
      exact Nat.lt_min.mpr ⟨past, first⟩
  have taken : g.1 ∈ dead c files t.2 := by
    apply List.mem_filter.mpr
    constructor
    · apply List.mem_map_of_mem
      rcases List.mem_append.mp old with file | deletes
      · exact List.mem_append_left _ (List.mem_filter.mpr ⟨file, decide_eq_true early⟩)
      · exact List.mem_append_right _ (List.mem_filter.mpr ⟨deletes, decide_eq_true early⟩)
    · have shared : c.shared g.1 = false := unshared
      rw [shared, Bool.not_false, Bool.and_true]
      apply decide_eq_true
      split
      · exact List.not_mem_nil
      · intro named
        obtain ⟨f, here, deletes⟩ := List.mem_flatMap.mp named
        exact unnamed f here deletes
  have listed : g.1 ∈ (c.segments.filter (done fl logs)).filterMap Segment.path ++
      c.tables.flatMap fun t => dead c files t.2 :=
    List.mem_append_right _ (List.mem_flatMap.mpr ⟨t, table, taken⟩)
  intro stored
  obtain ⟨o, inside, same⟩ := List.mem_map.mp stored
  have left : o ∈ s.bucket.filter fun o => decide (o.1 ∉
      (c.segments.filter (done fl logs)).filterMap Segment.path ++
        c.tables.flatMap fun t => dead c files t.2) := by
    cases sweep with
    | none => exact inside
    | some sweep => exact (List.mem_filter.mp inside).1
  exact of_decide_eq_true (List.mem_filter.mp left).2 (same ▸ listed)

/-- An hour's grace. -/
def hourly : Settings := ⟨hour, 0, 14 * day, fun _ => false⟩

def inTable (name : String) : Path := ⟨.data "t", name⟩

/-- Two files with rows deleted from both by one delete file. -/
def marked : List Op :=
  [.create "t" "t", .upload (inTable "f") 1000000, .upload (inTable "g") 1000000,
    .change "t" [] [] [("f", []), ("g", [])] 1000000, .upload (inTable "d") 1100000,
    .change "t" [] [(inTable "f", "d"), (inTable "g", "d")] [] 1100000]

def sweepTable : Sweep := ⟨[], [.data "t"], []⟩

def branched : List Op := marked ++ [.pin "b" none false 1300000]

def emptied : List Op := [.change "t" [inTable "f", inTable "g"] [] [] 1400000]

end Pondra.Branch
