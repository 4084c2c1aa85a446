import Mathlib.Data.List.Dedup
import Mathlib.Data.List.Perm.Subperm
import Mathlib.Data.List.Sort
import Pondra.Base.Gaps
import Pondra.Base.Grouped
import Pondra.Base.Ordered
import Pondra.Views.Join

set_option autoImplicit false

namespace Pondra.Views

open Machines

/-- A session view: its key columns' values, time column and gap, and which of the sessions it is
given its query keeps. -/
structure Sessions (ρ κ : Type) where
  key : ρ → κ
  time : Timed ρ
  gapSecs : Nat
  positive : 0 < gapSecs
  keeps : List (Int × ρ) → Bool

/-- The source's rows, the sessions in the view's table (each as its rows), the producer's mark,
the bound, and the bounds rounds have worked out, written yet or not. -/
structure SessionView (ρ : Type) where
  source : List ρ
  view : List (List (Int × ρ))
  mark : Nat
  openKey : Option Int
  reaches : List Int

inductive SessionOp (ρ : Type) where
  | commit (rows : List ρ)
  | round (wm : Int)
  | bound (i : Nat)

section sessions

variable {ρ κ : Type} (v : Sessions ρ κ)

/-- Rows with their times, in ns. -/
def Sessions.stamped (rows : List ρ) : List (Int × ρ) :=
  rows.filterMap fun r => (v.time.time r).map fun t => (v.time.unit.nanos t, r)

/-- The gap, in ns. -/
def Sessions.gap : Int := v.gapSecs * 1000000000

def Sessions.runs (rows : List (Int × ρ)) : List (List (Int × ρ)) := Gaps.runs Prod.fst v.gap rows

/-- `session_start` and `session_end`. -/
def sessionStart (run : List (Int × ρ)) : Int := Gaps.starts Prod.fst run

def Sessions.sessionEnd (run : List (Int × ρ)) : Int := Gaps.ends Prod.fst v.gap run

/-- A time in µs, as a cast makes it. -/
def micros (t : Int) : Int := TimeUnit.nano.micros t

variable [DecidableEq κ]

/-- A key's rows in time order. -/
def Sessions.ofKey (k : κ) (rows : List (Int × ρ)) : List (Int × ρ) :=
  (rows.filter fun r => decide (v.key r.2 = k)).insertionSort fun a b => a.1 ≤ b.1

def Sessions.isOf (k : κ) (run : List (Int × ρ)) : Bool :=
  run.head?.any fun r => decide (v.key r.2 = k)

variable (s : SessionView ρ)

/-- The end of a key's last session in the view, of those that end after the bound. -/
def Sessions.lastEnd (k : κ) : Option Int :=
  (((s.view.filter (v.isOf k)).map v.sessionEnd).filter fun e =>
    s.openKey.all fun f => decide (f * 1000 < e)).max?

/-- Is a row at or before the watermark, at or after the bound, and in no session emitted? -/
def Sessions.unread (wm : Int) (r : Int × ρ) : Bool :=
  decide (r.1 ≤ wm * 1000) && s.openKey.all (fun f => decide (f * 1000 ≤ r.1)) &&
    (v.lastEnd s (v.key r.2)).all fun e => decide (e ≤ r.1)

def Sessions.read (wm : Int) : List (Int × ρ) := (v.stamped s.source).filter (v.unread s wm)

/-- Rows cut into each key's sessions. -/
def Sessions.cut (rows : List (Int × ρ)) : List (List (Int × ρ)) :=
  (rows.map fun r => v.key r.2).dedup.flatMap fun k => v.runs (v.ofKey k rows)

/-- Those that end after the mark and by the watermark. -/
def Sessions.closed (wm : Int) : List (List (Int × ρ)) :=
  (v.cut (v.read s wm)).filter fun run =>
    decide ((s.mark : Int) < micros (v.sessionEnd run)) && decide (micros (v.sessionEnd run) ≤ wm)

/-- The earliest start of those still open, or the watermark. -/
def Sessions.opened (wm : Int) : Int :=
  (((v.cut (v.read s wm)).filter fun run => decide (wm < micros (v.sessionEnd run))).map fun run =>
    micros (sessionStart run)).foldl min wm

/-- Rounds go one after another; a stop leaves a bound unwritten, or written later. -/
def sessionsNext : SessionOp ρ → SessionView ρ
  | .commit rows => { s with source := s.source ++ rows }
  | .round wm =>
    if wm ≤ s.mark then s
    else { s with
      view := s.view ++ (v.closed s wm).filter v.keeps
      mark := wm.toNat
      reaches := s.reaches ++ [v.opened s wm - v.gapSecs * 1000000] }
  | .bound i =>
    match s.reaches[i]? with
    | some f => { s with openKey := some f }
    | none => s

/-- A session view just made. -/
def SessionView.made (rows : List ρ) : SessionView ρ := ⟨rows, [], 0, none, []⟩

def rounds : Machine (SessionView ρ) (SessionOp ρ) where
  next := sessionsNext v
  Allows _ _ := True

/-- Every time is whole µs. -/
def Sessions.Whole (rows : List ρ) : Prop := ∀ r ∈ v.stamped rows, (1000 : Int) ∣ r.1

/-- No row arrives behind the watermark. -/
def Sessions.OnTime : SessionOp ρ → Prop
  | .commit rows => ∀ r ∈ v.stamped rows, 0 < s.mark → (s.mark : Int) * 1000 < r.1
  | _ => True

instance (rows : List ρ) : Decidable (v.Whole rows) :=
  inferInstanceAs (Decidable (∀ r ∈ v.stamped rows, (1000 : Int) ∣ r.1))

instance : (op : SessionOp ρ) → Decidable (v.OnTime s op)
  | .commit rows =>
    inferInstanceAs (Decidable (∀ r ∈ v.stamped rows, 0 < s.mark → (s.mark : Int) * 1000 < r.1))
  | .round _ | .bound _ => inferInstanceAs (Decidable True)

instance (state : SessionView ρ) (op : SessionOp ρ) :
    Decidable (((rounds v).only v.OnTime).Allows state op) :=
  inferInstanceAs (Decidable (True ∧ v.OnTime state op))

/-- A key's sessions that end after the epoch and by the mark. -/
def Sessions.due (k : κ) : List (List (Int × ρ)) :=
  (v.runs (v.ofKey k (v.stamped s.source))).filter fun run =>
    decide (0 < v.sessionEnd run) && decide (v.sessionEnd run ≤ s.mark * 1000)

end sessions

section cut

variable {ρ κ : Type} (v : Sessions ρ κ)

/-! ### A key's rows -/

theorem gap_positive : 0 < v.gap := by
  have := v.positive
  rw [Sessions.gap]
  omega

theorem stamped_append (before after : List ρ) :
    v.stamped (before ++ after) = v.stamped before ++ v.stamped after := List.filterMap_append

/-- A session is some rows of one key. -/
def Sessions.Single (run : List (Int × ρ)) : Prop := ∃ k, run ≠ [] ∧ ∀ r ∈ run, v.key r.2 = k

/-- The sessions emitted are some of the source's rows, each once. -/
structure Once (s : SessionView ρ) : Prop where
  single : ∀ run ∈ s.view, v.Single run
  taken : s.view.flatten.Subperm (v.stamped s.source)

theorem made_once (rows : List ρ) : Once v (SessionView.made rows) := by
  refine ⟨?_, List.nil_subperm⟩
  intro run inside
  cases inside

variable [DecidableEq κ]

theorem mem_ofKey (k : κ) (rows : List (Int × ρ)) (r : Int × ρ) :
    r ∈ v.ofKey k rows ↔ r ∈ rows ∧ v.key r.2 = k := by
  rw [Sessions.ofKey, List.mem_insertionSort, List.mem_filter, decide_eq_true_eq]

theorem ofKey_sorted (k : κ) (rows : List (Int × ρ)) : Gaps.Sorted Prod.fst (v.ofKey k rows) :=
  Ordered.sorted_insertionSort _ _

theorem ofKey_filter (k : κ) (rows : List (Int × ρ)) (keeps : Int × ρ → Bool) :
    (v.ofKey k rows).filter keeps = v.ofKey k (rows.filter keeps) := by
  rw [Sessions.ofKey, Ordered.filter_insertionSort, List.filter_comm, Sessions.ofKey]

theorem ofKey_perm (k : κ) (rows : List (Int × ρ)) :
    (v.ofKey k rows).Perm (rows.filter fun r => decide (v.key r.2 = k)) :=
  List.perm_insertionSort _ _

theorem ofKey_nil (k : κ) (rows : List (Int × ρ)) (absent : k ∉ rows.map fun r => v.key r.2) :
    v.ofKey k rows = [] := by
  rw [List.eq_nil_iff_forall_not_mem]
  intro r inside
  obtain ⟨there, rfl⟩ := (mem_ofKey v k rows r).mp inside
  exact absent (List.mem_map_of_mem there)

theorem mem_run (k : κ) (rows : List (Int × ρ)) (run : List (Int × ρ))
    (inside : run ∈ v.runs (v.ofKey k rows)) (r : Int × ρ) (there : r ∈ run) :
    r ∈ rows ∧ v.key r.2 = k :=
  (mem_ofKey v k rows r).mp (Gaps.mem_runs _ _ _ run inside r there)

/-! ### Rows cut into sessions -/

theorem isOf_iff (k : κ) (run : List (Int × ρ)) (single : v.Single run) :
    v.isOf k run = true ↔ ∀ r ∈ run, v.key r.2 = k := by
  obtain ⟨same, some, all⟩ := single
  obtain ⟨r, rest, rfl⟩ := List.exists_cons_of_ne_nil some
  rw [Sessions.isOf, List.head?_cons, Option.any_some, decide_eq_true_eq]
  constructor
  · intro first x there
    rw [all x there, ← all r List.mem_cons_self, first]
  · intro whole
    exact whole r List.mem_cons_self

theorem run_single (k : κ) (rows : List (Int × ρ)) (run : List (Int × ρ))
    (inside : run ∈ v.runs (v.ofKey k rows)) : v.Single run :=
  ⟨k, Gaps.runs_some _ _ _ run inside, fun r there => (mem_run v k rows run inside r there).2⟩

theorem run_isOf (k k' : κ) (rows : List (Int × ρ)) (run : List (Int × ρ))
    (inside : run ∈ v.runs (v.ofKey k rows)) : v.isOf k' run = decide (k = k') := by
  have single := run_single v k rows run inside
  rw [Bool.eq_iff_iff, isOf_iff v k' run single, decide_eq_true_eq]
  obtain ⟨r, there⟩ := List.exists_mem_of_ne_nil run (Gaps.runs_some _ _ _ run inside)
  constructor
  · intro all
    rw [← all r there, (mem_run v k rows run inside r there).2]
  · rintro rfl x there
    exact (mem_run v k rows run inside x there).2

theorem mem_cut (rows : List (Int × ρ)) (run : List (Int × ρ)) :
    run ∈ v.cut rows ↔ ∃ k, run ∈ v.runs (v.ofKey k rows) := by
  rw [Sessions.cut, List.mem_flatMap]
  constructor
  · rintro ⟨k, _, inside⟩
    exact ⟨k, inside⟩
  · rintro ⟨k, inside⟩
    refine ⟨k, ?_, inside⟩
    rw [List.mem_dedup]
    by_contra absent
    rw [ofKey_nil v k rows absent] at inside
    cases inside

theorem cut_single (rows : List (Int × ρ)) (run : List (Int × ρ)) (inside : run ∈ v.cut rows) :
    v.Single run := by
  obtain ⟨k, there⟩ := (mem_cut v rows run).mp inside
  exact run_single v k rows run there

theorem flatMap_isOf (k : κ) (rows : List (Int × ρ)) (keys : List κ) (once : keys.Nodup) :
    (keys.flatMap fun k' => v.runs (v.ofKey k' rows)).filter (v.isOf k) =
      if k ∈ keys then v.runs (v.ofKey k rows) else [] := by
  induction keys with
  | nil => rfl
  | cons k' rest ih =>
    rw [List.nodup_cons] at once
    rw [List.flatMap_cons, List.filter_append, ih once.2]
    by_cases same : k' = k
    · subst same
      rw [if_neg once.1, if_pos List.mem_cons_self, List.append_nil, List.filter_eq_self]
      intro run inside
      rw [run_isOf v k' k' rows run inside, decide_eq_true rfl]
    · have none : (v.runs (v.ofKey k' rows)).filter (v.isOf k) = [] := by
        rw [List.filter_eq_nil_iff]
        intro run inside
        rw [run_isOf v k' k rows run inside]
        simpa using same
      rw [none, List.nil_append]
      simp only [List.mem_cons, Ne.symm same, false_or]

/-- A key's part of the sessions cut. -/
theorem cut_isOf (k : κ) (rows : List (Int × ρ)) :
    (v.cut rows).filter (v.isOf k) = v.runs (v.ofKey k rows) := by
  rw [Sessions.cut, flatMap_isOf v k rows _ (List.nodup_dedup _)]
  by_cases inside : k ∈ (rows.map fun r => v.key r.2).dedup
  · rw [if_pos inside]
  · rw [if_neg inside, ofKey_nil v k rows fun there => inside (List.mem_dedup.mpr there)]
    rfl

/-- Cutting keeps each row once. -/
theorem cut_flatten (rows : List (Int × ρ)) : (v.cut rows).flatten.Perm rows := by
  have whole : ∀ keys : List κ, (keys.flatMap fun k => v.runs (v.ofKey k rows)).flatten.Perm
      (keys.flatMap fun k => rows.filter fun r => decide (v.key r.2 = k)) := by
    intro keys
    induction keys with
    | nil => exact List.Perm.refl _
    | cons k rest ih =>
      rw [List.flatMap_cons, List.flatMap_cons, List.flatten_append]
      refine List.Perm.append ?_ ih
      rw [Sessions.runs, Gaps.runs_flatten]
      exact ofKey_perm v k rows
  refine (whole _).trans ?_
  refine (Grouping.flatMap_filter_perm (fun r => v.key r.2) _ (List.nodup_dedup _) rows).trans ?_
  rw [List.filter_eq_self.mpr]
  intro r inside
  exact decide_eq_true (List.mem_dedup.mpr (List.mem_map_of_mem inside))

/-! ### Each row once -/

section once

variable (s : SessionView ρ)

theorem le_lastEnd (k : κ) (run : List (Int × ρ)) (inside : run ∈ s.view)
    (is : v.isOf k run = true)
    (after : s.openKey.all (fun f => decide (f * 1000 < v.sessionEnd run)) = true) :
    ∃ e, v.lastEnd s k = some e ∧ v.sessionEnd run ≤ e := by
  have there : v.sessionEnd run ∈ ((s.view.filter (v.isOf k)).map v.sessionEnd).filter fun e =>
      s.openKey.all fun f => decide (f * 1000 < e) :=
    List.mem_filter.mpr ⟨List.mem_map_of_mem (List.mem_filter.mpr ⟨inside, is⟩), after⟩
  rw [Sessions.lastEnd]
  cases most : (((s.view.filter (v.isOf k)).map v.sessionEnd).filter fun e =>
      s.openKey.all fun f => decide (f * 1000 < e)).max? with
  | none =>
    rw [List.max?_eq_none_iff.mp most] at there
    cases there
  | some e => exact ⟨e, rfl, (List.max?_eq_some_iff.mp most).2 _ there⟩

theorem lastEnd_of (k : κ) (e : Int) (last : v.lastEnd s k = some e) :
    ∃ run ∈ s.view, v.isOf k run = true ∧ v.sessionEnd run = e := by
  obtain ⟨run, inside, rfl⟩ :=
    List.mem_map.mp (List.mem_filter.mp (List.max?_eq_some_iff.mp last).1).1
  obtain ⟨there, is⟩ := List.mem_filter.mp inside
  exact ⟨run, there, is, rfl⟩

/-- A row of a session emitted is not read again. -/
theorem emitted_read (run : List (Int × ρ)) (inside : run ∈ s.view) (single : v.Single run)
    (wm : Int) (r : Int × ρ) (there : r ∈ run) : v.unread s wm r = false := by
  have before : r.1 + v.gap ≤ v.sessionEnd run := Gaps.le_ends run r there
  have positive := gap_positive v
  have is : v.isOf (v.key r.2) run = true := by
    rw [isOf_iff v _ run single]
    obtain ⟨k, _, all⟩ := single
    intro x other
    rw [all x other, all r there]
  rw [Sessions.unread]
  cases after : s.openKey.all fun f => decide (f * 1000 < v.sessionEnd run) with
  | true =>
    obtain ⟨e, last, less⟩ := le_lastEnd v s _ run inside is after
    rw [last, Option.all_some, Bool.and_eq_false_iff]
    exact .inr (decide_eq_false (by omega))
  | false =>
    cases bound : s.openKey with
    | none =>
      rw [bound, Option.all_none] at after
      cases after
    | some f =>
      rw [bound, Option.all_some, decide_eq_false_iff_not] at after
      rw [Option.all_some, decide_eq_false (by omega : ¬f * 1000 ≤ r.1), Bool.and_false,
        Bool.false_and]

theorem closed_sublist (wm : Int) :
    ((v.closed s wm).filter v.keeps).Sublist (v.cut (v.read s wm)) :=
  List.filter_sublist.trans List.filter_sublist

theorem closed_taken (wm : Int) :
    ((v.closed s wm).filter v.keeps).flatten.Subperm (v.read s wm) :=
  (closed_sublist v s wm).flatten.subperm.trans (cut_flatten v _).subperm

theorem round_taken (once : Once v s) (wm : Int) :
    (s.view ++ (v.closed s wm).filter v.keeps).flatten.Subperm (v.stamped s.source) := by
  have old : s.view.flatten.Subperm ((v.stamped s.source).filter fun r => !v.unread s wm r) := by
    have kept := once.taken.filter fun r => !v.unread s wm r
    rwa [List.filter_eq_self.mpr] at kept
    intro r inside
    obtain ⟨run, there, within⟩ := List.mem_flatten.mp inside
    rw [emitted_read v s run there (once.single run there) wm r within]
    rfl
  rw [List.flatten_append]
  refine (old.append (closed_taken v s wm)).trans ?_
  refine (List.perm_append_comm.trans ?_).subperm
  exact List.filter_append_perm _ _

theorem next_once (op : SessionOp ρ) (once : Once v s) : Once v (sessionsNext v s op) := by
  cases op with
  | commit rows =>
    refine ⟨once.single, once.taken.trans ?_⟩
    change (v.stamped s.source).Subperm (v.stamped (s.source ++ rows))
    rw [stamped_append]
    exact (List.sublist_append_left _ _).subperm
  | round wm =>
    rw [sessionsNext]
    split
    · exact once
    · refine ⟨?_, round_taken v s once wm⟩
      intro run inside
      rcases List.mem_append.mp inside with old | new
      · exact once.single run old
      · exact cut_single v _ run ((closed_sublist v s wm).subset new)
  | bound i =>
    rw [sessionsNext]
    split
    · exact ⟨once.single, once.taken⟩
    · exact once

theorem rounds_once (start : SessionView ρ) (ops : List (SessionOp ρ)) (initial : Once v start) :
    Once v ((rounds v).run start ops) := by
  induction ops generalizing start with
  | nil => exact initial
  | cons op rest ih => exact ih _ (next_once v start op initial)

end once

end cut

end Pondra.Views
