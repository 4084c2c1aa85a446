import Pondra.Base.Grouped
import Pondra.Tier.Line

set_option autoImplicit false

namespace Pondra.Tier

open Foremost

variable {ρ κ : Type} {t : Keyed ρ κ}

/-! ### Files written -/

/-- A round's files, each under its path. -/
def filed (path : Nat) (drafts : List (Nat × Bool × String × List ρ)) : List (DataFile ρ) :=
  (drafts.zipIdx path).map fun f => ⟨f.2, f.1.1, f.1.2.1, f.1.2.2.1, f.1.2.2.2⟩

theorem filed_cons (path : Nat) (d : Nat × Bool × String × List ρ)
    (rest : List (Nat × Bool × String × List ρ)) :
    filed path (d :: rest) = ⟨path, d.1, d.2.1, d.2.2.1, d.2.2.2⟩ :: filed (path + 1) rest := rfl

theorem mem_filed (path : Nat) (drafts : List (Nat × Bool × String × List ρ)) (f : DataFile ρ)
    (inside : f ∈ filed path drafts) :
    path ≤ f.path ∧ f.path < path + (filed path drafts).length ∧
      ∃ d ∈ drafts, f.ord = d.1 ∧ f.rows = d.2.2.2 := by
  obtain ⟨d, there, rfl⟩ := List.mem_map.mp inside
  refine ⟨List.le_snd_of_mem_zipIdx there, ?_, d.1, List.fst_mem_of_mem_zipIdx there, rfl, rfl⟩
  have := List.snd_lt_add_of_mem_zipIdx there
  rw [filed, List.length_map, List.length_zipIdx]
  change d.2 < _
  omega

theorem filed_paths (path : Nat) (drafts : List (Nat × Bool × String × List ρ)) :
    ((filed path drafts).map DataFile.path).Nodup := by
  rw [filed, List.map_map]
  change ((drafts.zipIdx path).map Prod.snd).Nodup
  rw [List.zipIdx_map_snd]
  exact List.nodup_range'

theorem filed_rows (path : Nat) (drafts : List (Nat × Bool × String × List ρ)) :
    (filed path drafts).flatMap (·.rows) = drafts.flatMap (·.2.2.2) := by
  induction drafts generalizing path with
  | nil => rfl
  | cons d rest ih => rw [filed_cons, List.flatMap_cons, List.flatMap_cons, ih]

theorem filed_pairwise (R : Nat × List ρ → Nat × List ρ → Prop) (path : Nat)
    (drafts : List (Nat × Bool × String × List ρ))
    (pairs : drafts.Pairwise fun a b => R (a.1, a.2.2.2) (b.1, b.2.2.2)) :
    (filed path drafts).Pairwise fun f g => R (f.ord, f.rows) (g.ord, g.rows) := by
  induction drafts generalizing path with
  | nil => exact List.Pairwise.nil
  | cons d rest ih =>
    rw [List.pairwise_cons] at pairs
    rw [filed_cons]
    refine List.Pairwise.cons ?_ (ih (path + 1) pairs.2)
    intro g inside
    obtain ⟨_, _, x, there, is, was⟩ := mem_filed (path + 1) rest g inside
    rw [is, was]
    exact pairs.1 x there

/-- Rows split into partitions are the rows. -/
theorem split_perm (rows : List ρ) : ((t.split rows).flatMap (·.2)).Perm rows := by
  rw [Keyed.split]
  split
  · rw [List.flatMap_cons, List.flatMap_nil, List.append_nil]
  · rename_i part _
    rw [List.flatMap_map]
    refine (Grouping.flatMap_filter_perm part _ (List.nodup_dedup _) rows).trans ?_
    rw [List.filter_eq_self.mpr]
    intro r inside
    exact decide_eq_true (List.mem_dedup.mpr (List.mem_map_of_mem inside))

variable [DecidableEq κ]

theorem rowsOf_perm (k : κ) (a b : List ρ) (perm : a.Perm b) :
    (t.rowsOf k a).Perm (t.rowsOf k b) := perm.filter _

theorem perm_few {α : Type} (a b : List α) (perm : a.Perm b) (few : b.length ≤ 1) : a = b := by
  cases b with
  | nil => exact perm.eq_nil
  | cons x rest =>
    rw [List.length_cons] at few
    have none : rest = [] := List.length_eq_zero_iff.mp (by omega)
    rw [none] at perm ⊢
    exact List.perm_singleton.mp perm

theorem flatMap_some {α β : Type} (l : List α) (f : α → List β) :
    (l.filter fun a => !(f a).isEmpty).flatMap f = l.flatMap f := by
  induction l with
  | nil => rfl
  | cons a rest ih =>
    cases rows : f a with
    | nil =>
      rw [List.filter_cons_of_neg (by simp [rows]), List.flatMap_cons, rows, ih]
      rfl
    | cons b more => rw [List.filter_cons_of_pos (by simp [rows]), List.flatMap_cons,
        List.flatMap_cons, ih]

variable (s : Table ρ) (now : Int)

/-- What a job writes of a key: its newest row among what it reads, if it is kept. -/
def Keyed.writes (t : Keyed ρ κ) (kind : Kind ρ) (k : κ) : Option ρ :=
  (t.best (t.entriesOf k (inputs s kind))).filter fun r => !drops s kind || t.live now r

theorem runJob_of (kind : Kind ρ) (k : κ) :
    t.rowsOf k ((t.runJob s now kind).flatMap (·.2.2.2)) = (t.writes s now kind k).toList := by
  have output : t.rowsOf k (t.output s now kind) = (t.writes s now kind k).toList := by
    rw [Keyed.output, Keyed.rowsOf, List.filter_comm, Keyed.writes, Option.toList_filter]
    exact congrArg _ (latest_of (inputs s kind) k)
  have files : (t.runJob s now kind).flatMap (·.2.2.2) =
      (t.split (t.output s now kind)).flatMap (·.2) := by
    rw [Keyed.runJob, List.flatMap_map]
    exact flatMap_some (t.split (t.output s now kind)) (·.2)
  rw [files, ← output]
  refine perm_few _ _ (rowsOf_perm k _ _ (split_perm _)) ?_
  rw [output]
  cases t.writes s now kind k <;> simp

theorem runJob_ord (kind : Kind ρ) (d : Nat × Bool × String × List ρ)
    (inside : d ∈ t.runJob s now kind) : d.1 = ordOf kind ∧ d.2.2.2 ≠ [] := by
  obtain ⟨p, there, rfl⟩ := List.mem_map.mp inside
  exact ⟨rfl, by simpa using (List.mem_filter.mp there).2⟩

theorem once_of (rows : List ρ) (few : ∀ k, (t.rowsOf k rows).length ≤ 1) :
    (rows.map t.key).Nodup := by
  induction rows with
  | nil => exact List.nodup_nil
  | cons r rest ih =>
    rw [List.map_cons, List.nodup_cons]
    constructor
    · intro again
      obtain ⟨x, inside, same⟩ := List.mem_map.mp again
      have there : x ∈ t.rowsOf (t.key r) rest := (mem_rowsOf t _ rest x).mpr ⟨inside, same⟩
      have one := few (t.key r)
      rw [rowsOf_cons, if_pos rfl, List.length_cons] at one
      have := List.length_pos_of_mem there
      omega
    · refine ih fun k => ?_
      have one := few k
      rw [rowsOf_cons] at one
      split at one
      · rw [List.length_cons] at one
        omega
      · exact one

/-- A job's files have a row of a key at most, together. -/
theorem runJob_apart (kind : Kind ρ) :
    (∀ d ∈ t.runJob s now kind, (d.2.2.2.map t.key).Nodup) ∧
      (t.runJob s now kind).Pairwise fun a b =>
        ∀ r ∈ a.2.2.2, ∀ x ∈ b.2.2.2, t.key r ≠ t.key x := by
  have once : (((t.runJob s now kind).flatMap (·.2.2.2)).map t.key).Nodup := by
    refine once_of _ fun k => ?_
    rw [runJob_of]
    cases t.writes s now kind k <;> simp
  rw [List.map_flatMap, List.nodup_iff_pairwise_ne, List.pairwise_flatMap] at once
  refine ⟨fun d inside => List.nodup_iff_pairwise_ne.mpr (once.1 d inside), ?_⟩
  refine once.2.imp fun {a b} far r inside x there => ?_
  exact far _ (List.mem_map_of_mem inside) _ (List.mem_map_of_mem there)

/-- The files of jobs, as they come. -/
def Keyed.drafts (t : Keyed ρ κ) (jobs : List (Kind ρ)) : List (Nat × Bool × String × List ρ) :=
  jobs.flatMap (t.runJob s now)

theorem deal_filed (jobs : List (Kind ρ)) :
    t.deal s now jobs = filed s.paths (t.drafts s now jobs) := rfl

theorem drafts_once (jobs : List (Kind ρ)) (d : Nat × Bool × String × List ρ)
    (inside : d ∈ t.drafts s now jobs) : (d.2.2.2.map t.key).Nodup := by
  obtain ⟨kind, _, there⟩ := List.mem_flatMap.mp inside
  exact (runJob_apart s now kind).1 d there

theorem drafts_ord (jobs : List (Kind ρ)) (d : Nat × Bool × String × List ρ)
    (inside : d ∈ t.drafts s now jobs) : ∃ kind ∈ jobs, d.1 = ordOf kind := by
  obtain ⟨kind, of, there⟩ := List.mem_flatMap.mp inside
  exact ⟨kind, of, (runJob_ord s now kind d there).1⟩

/-- Each job's files are a generation. -/
theorem drafts_apart (jobs : List (Kind ρ))
    (rising : jobs.Pairwise fun a b => ordOf a < ordOf b) :
    (t.drafts s now jobs).Pairwise fun a b => a.1 ≤ b.1 ∧
      (a.1 = b.1 → ∀ r ∈ a.2.2.2, ∀ x ∈ b.2.2.2, t.key r ≠ t.key x) := by
  rw [Keyed.drafts, List.pairwise_flatMap]
  constructor
  · intro kind _
    refine (runJob_apart s now kind).2.imp_of_mem fun {a b} first second far => ?_
    have one := (runJob_ord s now kind a first).1
    have two := (runJob_ord s now kind b second).1
    exact ⟨by omega, fun _ => far⟩
  · refine rising.imp fun {j k} less a first b second => ?_
    have one := (runJob_ord s now j a first).1
    have two := (runJob_ord s now k b second).1
    exact ⟨by omega, fun same => by omega⟩

/-! ### A round's files in the table -/

variable {s}

/-- A table's entry, and the segments its log has. -/
structure Tidy (t : Keyed ρ κ) (s : Table ρ) : Prop where
  sound : Sound t s.files s.log s.tiered
  begins : ∀ seg ∈ s.log, 0 < seg.1
  room : ∀ seg ∈ s.log, seg.1 < s.next ∧ logOrd seg.1 seg.2.length ≤ logOrd s.next 0
  tiered : s.tiered < s.next
  paths : (s.files.map DataFile.path).Nodup
  used : ∀ f ∈ s.files, f.path < s.paths

/-- The table once a round's files are in, in the place of some of its own. -/
def landed (s : Table ρ) (old : List (DataFile ρ)) (drafts : List (Nat × Bool × String × List ρ))
    (tiered : Nat) (times : List Int) : Table ρ :=
  { s with
    files := old ++ filed s.paths drafts
    tiered := tiered
    paths := s.paths + (filed s.paths drafts).length
    times := times }

/-- A round's files are newer than those left, and no newer than the mark. -/
structure Lands (t : Keyed ρ κ) (s : Table ρ) (old : List (DataFile ρ)) (now : Int)
    (jobs : List (Kind ρ)) (tiered : Nat) : Prop where
  part : old.Sublist s.files
  rising : jobs.Pairwise fun a b => ordOf a < ordOf b
  newer : ∀ f ∈ old, ∀ d ∈ t.drafts s now jobs, f.ord < d.1
  upto : ∀ d ∈ t.drafts s now jobs, d.1 ≤ tiered
  further : s.tiered ≤ tiered
  within : tiered < s.next

variable {now}

theorem landed_sound (tidy : Tidy t s) (old : List (DataFile ρ)) (jobs : List (Kind ρ))
    (tiered : Nat) (lands : Lands t s old now jobs tiered) :
    Sound t (old ++ filed s.paths (t.drafts s now jobs)) s.log tiered := by
  refine ⟨?_, ?_, ?_, tidy.sound.numbered⟩
  · intro f inside
    rcases List.mem_append.mp inside with left | new
    · exact Nat.le_trans (tidy.sound.below f (lands.part.subset left)) lands.further
    · obtain ⟨_, _, d, there, is, _⟩ := mem_filed s.paths _ f new
      rw [is]
      exact lands.upto d there
  · intro f inside
    rcases List.mem_append.mp inside with left | new
    · exact tidy.sound.once f (lands.part.subset left)
    · obtain ⟨_, _, d, there, _, rows⟩ := mem_filed s.paths _ f new
      rw [rows]
      exact drafts_once s now jobs d there
  · rw [List.pairwise_append]
    refine ⟨tidy.sound.apart.sublist lands.part, ?_, ?_⟩
    · refine filed_pairwise (fun a b => a.1 = b.1 → ∀ r ∈ a.2, ∀ x ∈ b.2, t.key r ≠ t.key x)
        s.paths _ ?_
      exact (drafts_apart s now jobs lands.rising).imp fun {a b} both => both.2
    · intro f left g new same
      obtain ⟨_, _, d, there, is, _⟩ := mem_filed s.paths _ g new
      have := lands.newer f left d there
      omega

theorem landed_tidy (tidy : Tidy t s) (old : List (DataFile ρ)) (jobs : List (Kind ρ))
    (tiered : Nat) (lands : Lands t s old now jobs tiered) (times : List Int) :
    Tidy t (landed s old (t.drafts s now jobs) tiered times) where
  sound := landed_sound tidy old jobs tiered lands
  begins := tidy.begins
  room := tidy.room
  tiered := lands.within
  paths := by
    change ((old ++ filed s.paths _).map DataFile.path).Nodup
    rw [List.map_append, List.nodup_append]
    refine ⟨tidy.paths.sublist (lands.part.map _), filed_paths _ _, ?_⟩
    intro a first b second
    obtain ⟨f, left, rfl⟩ := List.mem_map.mp first
    obtain ⟨g, new, rfl⟩ := List.mem_map.mp second
    have old := tidy.used f (lands.part.subset left)
    have := (mem_filed s.paths _ g new).1
    omega
  used := by
    intro f inside
    change f.path < s.paths + (filed s.paths (t.drafts s now jobs)).length
    rcases List.mem_append.mp inside with left | new
    · have := tidy.used f (lands.part.subset left)
      omega
    · exact (mem_filed s.paths _ f new).2.1

/-- A round's files come after those left. -/
theorem landed_byAge (old : List (DataFile ρ)) (jobs : List (Kind ρ)) (tiered : Nat)
    (lands : Lands t s old now jobs tiered) :
    byAge (old ++ filed s.paths (t.drafts s now jobs)) =
      byAge old ++ filed s.paths (t.drafts s now jobs) := by
  refine Ordered.insertionSort_append DataFile.ord old _ ?_ ?_
  · refine filed_pairwise (fun a b => a.1 ≤ b.1) s.paths _ ?_
    exact (drafts_apart s now jobs lands.rising).imp fun {a b} both => both.1
  · intro f left g new
    obtain ⟨_, _, d, there, is, _⟩ := mem_filed s.paths _ g new
    have := lands.newer f left d there
    omega

/-- A key's newest row, once a round's files are in. -/
theorem landed_newest (old : List (DataFile ρ)) (jobs : List (Kind ρ)) (tiered : Nat)
    (lands : Lands t s old now jobs tiered) (k : κ) (upto : Nat) :
    t.newest k (old ++ filed s.paths (t.drafts s now jobs)) s.log tiered upto =
      pick t.rank (t.rowsOf k ((byAge old).flatMap (·.rows)) ++
        t.rowsOf k ((t.drafts s now jobs).flatMap (·.2.2.2)) ++
          t.rowsOf k ((tail s.log tiered upto).map Prod.snd)) := by
  rw [newest_rows, landed_byAge old jobs tiered lands, List.flatMap_append, rowsOf_append, filed_rows]

end Pondra.Tier
