import Pondra.Base.Dict
import Pondra.Tier.Survive

set_option autoImplicit false

/-! ### An upsert table that others read: its older versions as positions -/

namespace Pondra.Tier

open Foremost Machines Dicts

/-- The position files that name a file, each with its places, and how many of its rows they delete. -/
structure Marks where
  deletes : List (List Nat)
  deleted : Nat

/-- A keyed table's entry, with the formats it is published in and its files' deletes, by their paths. -/
structure Shared (ρ : Type) where
  table : Table ρ
  publish : List String
  shadows : Bool
  marks : Dict Nat Marks

inductive SharedOp (ρ : Type) where
  | commit (rows : List ρ) (most : Nat)
  | tier (hwm : Nat) (fill : Option Nat) (nodes : Nat) (now : Int)
  | maintain (anyway : Bool) (now : Int)
  | idle (least hwm : Nat)
  | share (formats : List String)

section shared

variable {ρ κ : Type}

namespace Shared

variable (s : Shared ρ) (f : DataFile ρ)

/-- A table just made. -/
def made (n : Nat) : Shared ρ := ⟨Table.made n, [], false, ∅⟩

def marksOf : Marks := (s.marks.lookup f.path).getD ⟨[], 0⟩

/-- The places deleted by position. -/
def gone : List Nat := (s.marksOf f).deletes.flatten

/-- A file's rows with their places, those deleted by position skipped. -/
def placed : List (ρ × Nat) := f.rows.zipIdx.filter fun r => decide (r.2 ∉ s.gone f)

/-- What other engines read: the rows that no position deletes. -/
def published : List ρ := s.table.files.flatMap fun f => (s.placed f).map Prod.fst

end Shared

/-- One generation, or none. -/
def one (files : List (DataFile ρ)) : Bool := (files.zip files.tail).all fun p => p.1.ord == p.2.ord

/-- A position file put down for a file's rows. -/
def putPositions (marks : Dict Nat Marks) (hit : Nat × List Nat) : Dict Nat Marks :=
  let f := (marks.lookup hit.1).getD ⟨[], 0⟩
  marks.insert hit.1 ⟨f.deletes ++ [hit.2], f.deleted + hit.2.length⟩

variable (t : Keyed ρ κ)

/-- An upsert table (newest wins: no merge functions, no `order_by`) that others read. -/
def Keyed.shadowing (publish : List String) : Bool := t.order.isNone && !publish.isEmpty

section positions

variable [DecidableEq κ] (s : Shared ρ) (news : List Nat) (f : DataFile ρ)

/-- The keys of the new files newer than a file. -/
def Keyed.newerKeys : List κ :=
  (s.table.files.filter fun g => decide (g.path ∈ news) && decide (f.ord < g.ord)).flatMap fun g =>
    (s.placed g).map fun r => t.key r.1

/-- The places of a file's delete markers. -/
def Keyed.markersOf : List Nat := ((s.placed f).filter fun r => t.deleted r.1).map Prod.snd

/-- The places of a file's rows whose keys newer new files have. -/
def Keyed.shadowedOf : List Nat :=
  ((s.placed f).filter fun r => decide (t.key r.1 ∈ t.newerKeys s news f)).map Prod.snd

/-- The new files' delete markers become positions, and, where `older`, the rows they shadow. -/
def Keyed.shadow (older : Bool) : Shared ρ :=
  let shadows := s.shadows && t.shadowing s.publish
  if !shadows || news.isEmpty then { s with shadows := shadows }
  else
    let marked := (s.table.files.filter fun f => decide (f.path ∈ news)).map fun f => (f.path, t.markersOf s f)
    let hit := marked ++ if older then s.table.files.map fun f => (f.path, t.shadowedOf s news f) else []
    { s with shadows := shadows, marks := (hit.filter fun h => !h.2.isEmpty).foldl putPositions s.marks }

def Keyed.nextShared : SharedOp ρ → Shared ρ
  | .commit rows most => { s with table := t.next s.table (.commit rows most) }
  | .tier hwm fill nodes now =>
    let jobs := folds s.table (foldEnd hwm fill) nodes
    if jobs.isEmpty then s
    else
      let shadows := t.shadowing s.publish && (s.shadows || one s.table.files)
      t.shadow { s with table := t.tierTable s.table hwm fill nodes now, shadows := shadows }
        ((t.deal s.table now jobs).map DataFile.path) true
  | .maintain anyway now =>
    let published := !s.publish.isEmpty
    if merges s.table published anyway then
      t.shadow { s with table := t.maintain s.table published anyway now }
        ((t.deal s.table now [mergeJob s.table published]).map DataFile.path) false
    else s
  | .idle least hwm => { s with table := idled s.table least hwm }
  | .share formats => { s with publish := formats }

/-- No job of a round folds a delete marker of a key that a later job of it has rows of; and the one generation that
positions start with holds none. -/
def Keyed.Apart : SharedOp ρ → Prop
  | .tier hwm fill nodes now =>
    let jobs := folds s.table (foldEnd hwm fill) nodes
    ¬jobs.isEmpty = true → t.shadowing s.publish = true → s.shadows = true ∨ one s.table.files = true →
      (jobs.Pairwise fun a b => ∀ r ∈ t.output s.table now a, t.deleted r = true →
        ∀ e ∈ inputs s.table b, t.key e.2 ≠ t.key r) ∧
      (s.shadows = false → ∀ f ∈ s.table.files, t.markersOf s f = [])
  | _ => True

end positions

variable [DecidableEq κ]

def shared : Machine (Shared ρ) (SharedOp ρ) where
  next := t.nextShared
  Allows _ _ := True

/-- What other engines read is one row for each live key, its newest, and each file counts the places its position
files name. Live: not a delete marker, nor past its TTL for a job that dropped such rows. -/
structure Published (s : Shared ρ) : Prop where
  newest : ∀ k, t.rowsOf k s.published = [] ∨ ∃ r, t.logRow s.table.log k 0 s.table.tiered = some r ∧
    t.deleted r = false ∧ t.rowsOf k s.published = [r]
  live : ∀ k r, t.logRow s.table.log k 0 s.table.tiered = some r → t.dead s.table r = false →
    t.rowsOf k s.published = [r]
  counted : ∀ f ∈ s.table.files, (s.marksOf f).deleted = (s.gone f).dedup.length

end shared

section positions

variable {ρ κ : Type} {t : Keyed ρ κ} {s : Shared ρ}

/-! ### Positions put down -/

/-- The places a list of position files names of a file. -/
def hitsOf (path : Nat) (hits : List (Nat × List Nat)) : List Nat :=
  (hits.filter fun h => decide (h.1 = path)).flatMap Prod.snd

theorem hitsOf_append (path : Nat) (before after : List (Nat × List Nat)) :
    hitsOf path (before ++ after) = hitsOf path before ++ hitsOf path after := by
  rw [hitsOf, List.filter_append, List.flatMap_append]
  rfl

/-- Position files put down one after another: each adds its places to its file's. -/
theorem putPositions_run (hits : List (Nat × List Nat)) (marks : Dict Nat Marks) (path : Nat) :
    let before := (marks.lookup path).getD ⟨[], 0⟩
    let after := ((((hits.filter fun h => !h.2.isEmpty).foldl putPositions marks).lookup path)).getD ⟨[], 0⟩
    after.deletes.flatten = before.deletes.flatten ++ hitsOf path hits ∧
      after.deleted = before.deleted + (hitsOf path hits).length := by
  induction hits generalizing marks with
  | nil =>
    dsimp only
    rw [hitsOf, List.filter_nil, List.filter_nil, List.flatMap_nil, List.append_nil]
    exact ⟨rfl, rfl⟩
  | cons hit rest ih =>
    have split : hitsOf path (hit :: rest) = (if hit.1 = path then hit.2 else []) ++ hitsOf path rest := by
      rw [hitsOf, hitsOf]
      by_cases same : hit.1 = path
      · rw [List.filter_cons_of_pos (by simpa using same), List.flatMap_cons, if_pos same]
      · rw [List.filter_cons_of_neg (by simpa using same), if_neg same]
        rfl
    cases places : hit.2 with
    | nil =>
      rw [List.filter_cons_of_neg (by simp [places]), split, places, ite_self, List.nil_append]
      exact ih marks
    | cons i more =>
      rw [List.filter_cons_of_pos (by simp [places]), List.foldl_cons]
      obtain ⟨gone, count⟩ := ih (putPositions marks hit)
      dsimp only at gone count ⊢
      rw [gone, count, split, putPositions, lookup_insert_eq]
      by_cases same : hit.1 = path
      · rw [if_pos same.symm, if_pos same, Option.getD_some, same, List.flatten_append, List.flatten_singleton,
          List.length_append]
        exact ⟨List.append_assoc _ _ _, Nat.add_assoc _ _ _⟩
      · rw [if_neg (Ne.symm same), if_neg same, List.nil_append]
        exact ⟨rfl, rfl⟩

/-- A file no position file names keeps its record. -/
theorem putPositions_other (hits : List (Nat × List Nat)) (marks : Dict Nat Marks) (path : Nat)
    (none : ∀ h ∈ hits, h.1 ≠ path) : (hits.foldl putPositions marks).lookup path = marks.lookup path := by
  induction hits generalizing marks with
  | nil => rfl
  | cons hit rest ih =>
    rw [List.foldl_cons, ih _ fun h inside => none h (List.mem_cons_of_mem _ inside), putPositions,
      lookup_insert_eq, if_neg (none hit List.mem_cons_self).symm]

theorem hitsOf_files (files : List (DataFile ρ)) (paths : (files.map DataFile.path).Nodup)
    (h : DataFile ρ → List Nat) (f : DataFile ρ) (inside : f ∈ files) :
    hitsOf f.path (files.map fun f => (f.path, h f)) = h f := by
  induction files with
  | nil => cases inside
  | cons g rest ih =>
    rw [List.map_cons, List.nodup_cons] at paths
    have split : ∀ path, hitsOf path ((g :: rest).map fun f => (f.path, h f)) =
        (if g.path = path then h g else []) ++ hitsOf path (rest.map fun f => (f.path, h f)) := by
      intro path
      rw [List.map_cons, ← List.singleton_append, hitsOf_append]
      congr 1
      rw [hitsOf]
      by_cases same : g.path = path
      · rw [if_pos same, List.filter_cons_of_pos (by simpa using same)]
        exact List.append_nil _
      · rw [if_neg same, List.filter_cons_of_neg (by simpa using same)]
        rfl
    rw [split]
    rcases List.mem_cons.mp inside with rfl | there
    · have none : hitsOf f.path (rest.map fun f => (f.path, h f)) = [] := by
        rw [hitsOf, List.filter_eq_nil_iff.mpr]
        · rfl
        · intro hit of same
          obtain ⟨g, other, rfl⟩ := List.mem_map.mp of
          exact paths.1 (List.mem_map.mpr ⟨g, other, of_decide_eq_true same⟩)
      rw [if_pos rfl, none, List.append_nil]
    · have differ : g.path ≠ f.path := fun same => paths.1 (List.mem_map.mpr ⟨f, there, same.symm⟩)
      rw [if_neg differ, List.nil_append, ih paths.2 there]

theorem hitsOf_some (files : List (DataFile ρ)) (paths : (files.map DataFile.path).Nodup)
    (chosen : DataFile ρ → Bool) (h : DataFile ρ → List Nat) (f : DataFile ρ) (inside : f ∈ files) :
    hitsOf f.path ((files.filter chosen).map fun f => (f.path, h f)) = if chosen f then h f else [] := by
  by_cases is : chosen f = true
  · rw [if_pos is]
    exact hitsOf_files _ (paths.sublist (List.filter_sublist.map _)) h f (List.mem_filter.mpr ⟨inside, is⟩)
  · rw [if_neg is, hitsOf, List.filter_eq_nil_iff.mpr]
    · rfl
    · intro hit of same
      obtain ⟨g, other, rfl⟩ := List.mem_map.mp of
      obtain ⟨there, picked⟩ := List.mem_filter.mp other
      have equal := List.inj_on_of_nodup_map paths there inside (of_decide_eq_true same)
      rw [equal] at picked
      exact is picked

/-! ### Places -/

theorem mem_gone_placed (f : DataFile ρ) (keeps : ρ → Bool) (i : Nat) :
    i ∈ ((s.placed f).filter fun r => keeps r.1).map Prod.snd ↔
      ∃ r, f.rows[i]? = some r ∧ i ∉ s.gone f ∧ keeps r = true := by
  rw [List.mem_map]
  constructor
  · rintro ⟨r, inside, rfl⟩
    obtain ⟨there, keep⟩ := List.mem_filter.mp inside
    obtain ⟨place, left⟩ := List.mem_filter.mp there
    exact ⟨r.1, List.mem_zipIdx_iff_getElem?.mp place, of_decide_eq_true left, keep⟩
  · rintro ⟨r, at_, left, keep⟩
    refine ⟨(r, i), List.mem_filter.mpr ⟨List.mem_filter.mpr ⟨?_, decide_eq_true left⟩, keep⟩, rfl⟩
    exact List.mem_zipIdx_iff_getElem?.mpr at_

theorem placed_nodup (f : DataFile ρ) (keeps : ρ × Nat → Bool) :
    (((s.placed f).filter keeps).map Prod.snd).Nodup := by
  have whole : (f.rows.zipIdx.map Prod.snd).Nodup := by
    rw [List.zipIdx_map_snd]
    exact List.nodup_range'
  exact whole.sublist ((List.filter_sublist.trans List.filter_sublist).map _)

theorem mem_markersOf (f : DataFile ρ) (i : Nat) :
    i ∈ t.markersOf s f ↔ ∃ r, f.rows[i]? = some r ∧ i ∉ s.gone f ∧ t.deleted r = true :=
  mem_gone_placed f t.deleted i

variable [DecidableEq κ]

theorem mem_shadowedOf (news : List Nat) (f : DataFile ρ) (i : Nat) :
    i ∈ t.shadowedOf s news f ↔
      ∃ r, f.rows[i]? = some r ∧ i ∉ s.gone f ∧ t.key r ∈ t.newerKeys s news f := by
  refine (mem_gone_placed f (fun r => decide (t.key r ∈ t.newerKeys s news f)) i).trans ?_
  simp only [decide_eq_true_eq]

omit [DecidableEq κ] in
theorem mem_newerKeys (news : List Nat) (f : DataFile ρ) (fresh : ∀ g ∈ s.table.files, g.path ∈ news → s.gone g = [])
    (k : κ) : k ∈ t.newerKeys s news f ↔
      ∃ g ∈ s.table.files, g.path ∈ news ∧ f.ord < g.ord ∧ k ∈ g.rows.map t.key := by
  rw [Keyed.newerKeys, List.mem_flatMap]
  have keys : ∀ g ∈ s.table.files, g.path ∈ news → (s.placed g).map (fun r => t.key r.1) = g.rows.map t.key := by
    intro g inside new
    rw [Shared.placed, fresh g inside new, List.filter_eq_self.mpr fun r _ => decide_eq_true List.not_mem_nil]
    exact (List.map_map (f := Prod.fst) (g := t.key) (l := g.rows.zipIdx)).symm.trans
      (congrArg (List.map t.key) (List.zipIdx_map_fst 0 g.rows))
  constructor
  · rintro ⟨g, chosen, there⟩
    obtain ⟨inside, both⟩ := List.mem_filter.mp chosen
    rw [Bool.and_eq_true, decide_eq_true_eq, decide_eq_true_eq] at both
    rw [keys g inside both.1] at there
    exact ⟨g, inside, both.1, both.2, there⟩
  · rintro ⟨g, inside, new, less, there⟩
    refine ⟨g, List.mem_filter.mpr ⟨inside, ?_⟩, ?_⟩
    · rw [decide_eq_true new, decide_eq_true less]
      rfl
    · rwa [keys g inside new]

/-! ### What `shadow` adds -/

/-- The places `shadow` adds to a file's. -/
def Keyed.added (t : Keyed ρ κ) (s : Shared ρ) (news : List Nat) (older : Bool) (f : DataFile ρ) : List Nat :=
  (if f.path ∈ news then t.markersOf s f else []) ++ if older then t.shadowedOf s news f else []

structure ShadowSpec (t : Keyed ρ κ) (s : Shared ρ) (news : List Nat) (older : Bool) (s' : Shared ρ) : Prop where
  table : s'.table = s.table
  publish : s'.publish = s.publish
  shadows : s'.shadows = (s.shadows && t.shadowing s.publish)
  off : s'.shadows = false → s'.marks = s.marks
  gone : s'.shadows = true → ∀ f ∈ s.table.files, s'.gone f = s.gone f ++ t.added s news older f
  counted : s'.shadows = true → ∀ f ∈ s.table.files,
    (s'.marksOf f).deleted = (s.marksOf f).deleted + (t.added s news older f).length
  other : ∀ path, (∀ f ∈ s.table.files, f.path ≠ path) → s'.marks.lookup path = s.marks.lookup path

theorem shadow_spec (news : List Nat) (older : Bool) (paths : (s.table.files.map DataFile.path).Nodup) :
    ShadowSpec t s news older (t.shadow s news older) := by
  rw [Keyed.shadow]
  by_cases stop : (!(s.shadows && t.shadowing s.publish) || news.isEmpty) = true
  · rw [if_pos stop]
    have nothing : (s.shadows && t.shadowing s.publish) = true → ∀ f, t.added s news older f = [] := by
      intro on f
      rw [on, Bool.not_true, Bool.false_or, List.isEmpty_iff] at stop
      have none : t.newerKeys s [] f = [] := by
        rw [Keyed.newerKeys, List.filter_eq_nil_iff.mpr fun g _ => by simp]
        rfl
      have empty : t.shadowedOf s [] f = [] := by
        rw [Keyed.shadowedOf, none, List.filter_eq_nil_iff.mpr fun r _ => by simp]
        rfl
      rw [Keyed.added, stop, if_neg List.not_mem_nil, empty, ite_self, List.append_nil]
    refine ⟨rfl, rfl, rfl, fun _ => rfl, fun on f _ => ?_, fun on f _ => ?_, fun _ _ => rfl⟩
    · rw [nothing on f, List.append_nil]
      rfl
    · rw [nothing on f]
      rfl
  · rw [if_neg stop]
    have on : (s.shadows && t.shadowing s.publish) = true := by
      rw [Bool.or_eq_true, not_or, Bool.not_eq_true', Bool.not_eq_false] at stop
      exact stop.1
    have places : ∀ f ∈ s.table.files, hitsOf f.path
        (((s.table.files.filter fun f => decide (f.path ∈ news)).map fun f => (f.path, t.markersOf s f)) ++
          if older then s.table.files.map fun f => (f.path, t.shadowedOf s news f) else []) =
        t.added s news older f := by
      intro f inside
      rw [hitsOf_append, hitsOf_some _ paths _ _ f inside, Keyed.added]
      simp only [decide_eq_true_eq]
      congr 1
      cases older with
      | true => exact hitsOf_files _ paths _ f inside
      | false => rfl
    refine ⟨rfl, rfl, rfl, fun off => absurd (on.symm.trans off) Bool.noConfusion, fun _ f inside => ?_,
      fun _ f inside => ?_, fun path none => ?_⟩
    · refine (putPositions_run _ s.marks f.path).1.trans ?_
      rw [places f inside]
      rfl
    · refine (putPositions_run _ s.marks f.path).2.trans ?_
      rw [places f inside]
      rfl
    · apply putPositions_other
      intro hit inside
      rcases List.mem_append.mp (List.mem_filter.mp inside).1 with marked | shadowed
      · obtain ⟨f, chosen, rfl⟩ := List.mem_map.mp marked
        exact none f (List.mem_filter.mp chosen).1
      · cases older with
        | true =>
          obtain ⟨f, chosen, rfl⟩ := List.mem_map.mp shadowed
          exact none f chosen
        | false => cases shadowed

end positions

end Pondra.Tier
