import Pondra.Views.Cut

set_option autoImplicit false

namespace Pondra.Views

open Machines

variable {ρ κ : Type} (v : Sessions ρ κ)

/-! ### Whole µs -/

theorem micros_whole (t : Int) (whole : (1000 : Int) ∣ t) : micros t * 1000 = t :=
  Int.tdiv_mul_cancel whole

theorem gap_whole : (1000 : Int) ∣ v.gap := ⟨v.gapSecs * 1000000, by rw [Sessions.gap]; omega⟩

theorem end_whole (run : List (Int × ρ)) (some : run ≠ []) (whole : ∀ r ∈ run, (1000 : Int) ∣ r.1) :
    micros (v.sessionEnd run) * 1000 = v.sessionEnd run := by
  obtain ⟨r, inside, is⟩ := @Gaps.exists_ends _ Prod.fst v.gap run some
  rw [Sessions.sessionEnd, is]
  exact micros_whole _ (Int.dvd_add (whole r inside) (gap_whole v))

theorem start_whole (run : List (Int × ρ)) (some : run ≠ [])
    (whole : ∀ r ∈ run, (1000 : Int) ∣ r.1) :
    micros (sessionStart run) * 1000 = sessionStart run := by
  obtain ⟨r, inside, is⟩ := @Gaps.exists_starts _ Prod.fst run some
  rw [sessionStart, is]
  exact micros_whole _ (whole r inside)

theorem foldl_min_le (values : List Int) (start : Int) :
    values.foldl min start ≤ start ∧ ∀ x ∈ values, values.foldl min start ≤ x := by
  induction values generalizing start with
  | nil => exact ⟨Int.le_refl _, fun x inside => by cases inside⟩
  | cons first rest ih =>
    obtain ⟨below, all⟩ := ih (min start first)
    rw [List.foldl_cons]
    refine ⟨Int.le_trans below (Int.min_le_left _ _), ?_⟩
    intro x inside
    rcases List.mem_cons.mp inside with rfl | there
    · exact Int.le_trans below (Int.min_le_right _ _)
    · exact all x there

variable [DecidableEq κ] (s : SessionView ρ)

/-! ### Bounds -/

/-- Every session still open starts at or after the bound, which is not after the mark. -/
structure Low (f : Int) : Prop where
  mark : 0 < s.mark
  behind : f ≤ s.mark
  starts : ∀ k, ∀ run ∈ v.runs (v.ofKey k (v.stamped s.source)),
    (s.mark : Int) * 1000 < v.sessionEnd run → ∀ r ∈ run, f * 1000 ≤ r.1

/-- The sessions emitted are the ones due. -/
structure Exact : Prop where
  whole : v.Whole s.source
  single : ∀ run ∈ s.view, v.Single run
  due : ∀ k, s.view.filter (v.isOf k) = v.due s k
  low : ∀ f ∈ s.reaches, Low v s f
  bound : ∀ f ∈ s.openKey, f ∈ s.reaches

/-! ### What a round reads of a key -/

/-- Is a row of this key at or before the watermark, at or after the bound and the key's last
session? -/
def Sessions.unreadOf (k : κ) (wm : Int) (r : Int × ρ) : Bool :=
  decide (r.1 ≤ wm * 1000) && s.openKey.all (fun f => decide (f * 1000 ≤ r.1)) &&
    (v.lastEnd s k).all fun e => decide (e ≤ r.1)

theorem ofKey_read (k : κ) (wm : Int) :
    v.ofKey k (v.read s wm) = (v.ofKey k (v.stamped s.source)).filter (v.unreadOf s k wm) := by
  rw [Sessions.read, ← ofKey_filter]
  refine List.filter_congr fun r inside => ?_
  rw [Sessions.unread, ((mem_ofKey v k _ r).mp inside).2, Sessions.unreadOf]

theorem unreadOf_between (k : κ) (wm : Int) : Gaps.Between Prod.fst (v.unreadOf s k wm) := by
  intro a b c first second early late
  simp only [Sessions.unreadOf, Bool.and_eq_true, decide_eq_true_eq, Option.all_eq_true_iff_get]
    at early late ⊢
  refine ⟨⟨by omega, fun there => ?_⟩, fun there => ?_⟩
  · have := early.1.2 there
    omega
  · have := early.2 there
    omega

variable {v s}

/-- Every row of a session still open that is not after the watermark is read. -/
theorem open_read (exact : Exact v s) (k : κ) (wm : Int) (run : List (Int × ρ))
    (inside : run ∈ v.runs (v.ofKey k (v.stamped s.source)))
    (after : (s.mark : Int) * 1000 < v.sessionEnd run) :
    run.filter (v.unreadOf s k wm) = run.filter fun r => decide (r.1 ≤ wm * 1000) := by
  refine List.filter_congr fun r there => ?_
  have bounded : s.openKey.all (fun f => decide (f * 1000 ≤ r.1)) = true := by
    cases bound : s.openKey with
    | none => rfl
    | some f =>
      have low := exact.low f (exact.bound f bound)
      exact decide_eq_true (low.starts k run inside after r there)
  have last : (v.lastEnd s k).all (fun e => decide (e ≤ r.1)) = true := by
    cases last : v.lastEnd s k with
    | none => rfl
    | some e =>
      obtain ⟨other, emitted, is, rfl⟩ := lastEnd_of v s k e last
      have due : other ∈ v.due s k := by
        rw [← exact.due k]
        exact List.mem_filter.mpr ⟨emitted, is⟩
      obtain ⟨before, closed⟩ := List.mem_filter.mp due
      rw [Bool.and_eq_true, decide_eq_true_eq, decide_eq_true_eq] at closed
      have apart := Gaps.apart_of_ends Prod.fst v.gap (gap_positive v) _ (ofKey_sorted v k _) other
        run before inside (Int.lt_of_le_of_lt closed.2 after)
      obtain ⟨x, within, ends⟩ := @Gaps.exists_ends _ Prod.fst v.gap other
        (Gaps.runs_some _ _ _ other before)
      have far := apart x within r there
      rw [Option.all_some, decide_eq_true_eq, Sessions.sessionEnd, ends]
      exact far
  rw [Sessions.unreadOf, bounded, last, Bool.and_true, Bool.and_true]

/-- The sessions a round cuts of a key that end after the mark and by the watermark are the
source's. -/
theorem runs_read (exact : Exact v s) (k : κ) (wm : Int) :
    (v.runs (v.ofKey k (v.read s wm))).filter (fun run =>
        decide ((s.mark : Int) * 1000 < v.sessionEnd run) && decide (v.sessionEnd run ≤ wm * 1000)) =
      (v.runs (v.ofKey k (v.stamped s.source))).filter fun run =>
        decide ((s.mark : Int) * 1000 < v.sessionEnd run) &&
          decide (v.sessionEnd run ≤ wm * 1000) := by
  rw [ofKey_read]
  refine Gaps.runs_filter_where Prod.fst v.gap _ (ofKey_sorted v k _) _ (unreadOf_between v s k wm) _
    ?_ ?_
  · intro run inside chosen
    rw [Bool.and_eq_true, decide_eq_true_eq, decide_eq_true_eq] at chosen
    rw [open_read exact k wm run inside chosen.1, List.filter_eq_self]
    intro r there
    have before : r.1 + v.gap ≤ v.sessionEnd run := Gaps.le_ends run r there
    have positive := gap_positive v
    exact decide_eq_true (by omega)
  · intro run inside other
    by_cases none : run.filter (v.unreadOf s k wm) = []
    · exact .inl none
    · refine .inr ?_
      by_cases after : (s.mark : Int) * 1000 < v.sessionEnd run
      · -- it ends after the watermark, and so does its part
        rw [decide_eq_true after, Bool.true_and, decide_eq_false_iff_not] at other
        rw [open_read exact k wm run inside after] at none ⊢
        have late : ¬v.sessionEnd (run.filter fun r => decide (r.1 ≤ wm * 1000)) ≤ wm * 1000 := by
          rcases Gaps.upto_ends Prod.fst v.gap _ (ofKey_sorted v k _) run inside (wm * 1000) none with
            whole | late
          · rwa [whole]
          · rw [Sessions.sessionEnd]
            omega
        rw [decide_eq_false late, Bool.and_false]
      · -- its part ends no later
        have less : v.sessionEnd (run.filter (v.unreadOf s k wm)) ≤ v.sessionEnd run :=
          Gaps.ends_le _ run none fun r there => (List.mem_filter.mp there).1
        rw [decide_eq_false (by omega), Bool.false_and]

/-! ### Rounds -/

theorem stamped_whole (rows : List ρ) (whole : v.Whole rows) (k : κ) (run : List (Int × ρ))
    (part : List (Int × ρ)) (within : ∀ r ∈ part, r ∈ v.stamped rows)
    (inside : run ∈ v.runs (v.ofKey k part)) : ∀ r ∈ run, (1000 : Int) ∣ r.1 :=
  fun r there => whole r (within r (mem_run v k part run inside r there).1)

theorem read_stamped (wm : Int) : ∀ r ∈ v.read s wm, r ∈ v.stamped s.source :=
  fun _ inside => (List.mem_filter.mp inside).1

/-- What a round closes of a key. -/
theorem closed_isOf (exact : Exact v s) (wm : Int) (k : κ) :
    (v.closed s wm).filter (v.isOf k) =
      (v.runs (v.ofKey k (v.stamped s.source))).filter fun run =>
        decide ((s.mark : Int) * 1000 < v.sessionEnd run) &&
          decide (v.sessionEnd run ≤ wm * 1000) := by
  rw [Sessions.closed, List.filter_comm, cut_isOf, ← runs_read exact k wm]
  refine List.filter_congr fun run inside => ?_
  have ends := end_whole v run (Gaps.runs_some _ _ _ run inside)
    (stamped_whole s.source exact.whole k run _ (read_stamped wm) inside)
  rw [Bool.eq_iff_iff]
  simp only [Bool.and_eq_true, decide_eq_true_eq]
  omega

theorem due_through (k : κ) (wm : Nat) (rises : s.mark ≤ wm) :
    v.due s k ++ ((v.runs (v.ofKey k (v.stamped s.source))).filter fun run =>
        decide ((s.mark : Int) * 1000 < v.sessionEnd run) && decide (v.sessionEnd run ≤ wm * 1000)) =
      (v.runs (v.ofKey k (v.stamped s.source))).filter fun run =>
        decide (0 < v.sessionEnd run) && decide (v.sessionEnd run ≤ wm * 1000) :=
  Gaps.filter_through v.sessionEnd 0 (s.mark * 1000) (wm * 1000) (by omega) (by omega) _
    (Gaps.runs_ends Prod.fst v.gap (gap_positive v) _ (ofKey_sorted v k _))

/-- The bound a round works out is below every session it leaves open. -/
theorem opened_low (exact : Exact v s) (wm : Int) (later : (s.mark : Int) < wm) (k : κ)
    (run : List (Int × ρ)) (inside : run ∈ v.runs (v.ofKey k (v.stamped s.source)))
    (after : wm * 1000 < v.sessionEnd run) (r : Int × ρ) (there : r ∈ run) :
    v.opened s wm * 1000 ≤ r.1 := by
  obtain ⟨below, all⟩ := foldl_min_le
    (((v.cut (v.read s wm)).filter fun run => decide (wm < micros (v.sessionEnd run))).map
      fun run => micros (sessionStart run)) wm
  change v.opened s wm ≤ wm at below
  by_cases early : r.1 ≤ wm * 1000
  · -- the part of it that is read is a session left open
    have part := open_read exact k wm run inside (by omega)
    have within : r ∈ run.filter fun r => decide (r.1 ≤ wm * 1000) :=
      List.mem_filter.mpr ⟨there, decide_eq_true early⟩
    have some := List.ne_nil_of_mem within
    have cut : (run.filter fun r => decide (r.1 ≤ wm * 1000)) ∈ v.runs (v.ofKey k (v.read s wm)) := by
      rw [ofKey_read, Sessions.runs,
        Gaps.runs_filter Prod.fst v.gap _ (ofKey_sorted v k _) _ (unreadOf_between v s k wm), ← part]
      rw [← part] at some
      exact List.mem_filter.mpr ⟨List.mem_map_of_mem inside, by simpa using some⟩
    have whole := stamped_whole s.source exact.whole k _ _ (read_stamped wm) cut
    have ends := end_whole v _ some whole
    have start := start_whole _ some whole
    have left : wm * 1000 < v.sessionEnd (run.filter fun r => decide (r.1 ≤ wm * 1000)) := by
      rcases Gaps.upto_ends Prod.fst v.gap _ (ofKey_sorted v k _) run inside (wm * 1000) some with
        same | late
      · rwa [same]
      · exact late
    have least := all _ (List.mem_map_of_mem (List.mem_filter.mpr
      ⟨(mem_cut v _ _).mpr ⟨k, cut⟩, decide_eq_true (by omega)⟩))
    change v.opened s wm ≤ _ at least
    have first : sessionStart (run.filter fun r => decide (r.1 ≤ wm * 1000)) ≤ r.1 :=
      Gaps.starts_le _ r within
    omega
  · omega

theorem round_exact (keeps : ∀ run, v.keeps run = true) (exact : Exact v s) (wm : Int) :
    Exact v (sessionsNext v s (.round wm)) := by
  rw [sessionsNext]
  split
  · exact exact
  · rename_i more
    obtain ⟨n, rfl⟩ : ∃ n : Nat, wm = n := ⟨wm.toNat, by omega⟩
    have all : (v.closed s n).filter v.keeps = v.closed s n :=
      List.filter_eq_self.mpr fun run _ => keeps run
    refine ⟨exact.whole, ?_, ?_, ?_, ?_⟩
    · intro run inside
      rcases List.mem_append.mp inside with old | new
      · exact exact.single run old
      · exact cut_single v _ run ((closed_sublist v s n).subset new)
    · intro k
      change (s.view ++ _).filter (v.isOf k) = _
      rw [all, List.filter_append, exact.due k, closed_isOf exact n k,
        due_through k n (by omega)]
      rfl
    · intro f inside
      rcases List.mem_append.mp inside with old | new
      · have low := exact.low f old
        refine ⟨?_, ?_, ?_⟩
        · change 0 < (n : Int).toNat
          omega
        · have := low.behind
          change f ≤ ((n : Int).toNat : Int)
          omega
        · intro k run there after
          exact low.starts k run there (by change ((n : Int).toNat : Int) * 1000 < _ at after; omega)
      · obtain rfl := List.mem_singleton.mp new
        have below : v.opened s n ≤ n := (foldl_min_le _ _).1
        refine ⟨?_, ?_, ?_⟩
        · change 0 < (n : Int).toNat
          omega
        · change _ ≤ ((n : Int).toNat : Int)
          omega
        · intro k run there after r within
          have := opened_low exact n (by omega) k run there after r within
          omega
    · intro f bound
      exact List.mem_append_left _ (exact.bound f bound)

/-! ### Commits -/

theorem upto_same (rows : List ρ) (k : κ) (d : Int)
    (late : ∀ r ∈ v.stamped rows, d < r.1) :
    (v.ofKey k (v.stamped (s.source ++ rows))).filter (fun r => decide (r.1 ≤ d)) =
      (v.ofKey k (v.stamped s.source)).filter fun r => decide (r.1 ≤ d) := by
  have none : (v.stamped rows).filter (fun r => decide (r.1 ≤ d)) = [] := by
    rw [List.filter_eq_nil_iff]
    intro r inside
    have := late r inside
    rw [decide_eq_true_eq]
    omega
  rw [ofKey_filter, ofKey_filter, stamped_append, List.filter_append, none, List.append_nil]

/-- Rows after the mark change no session that is due. -/
theorem commit_due (rows : List ρ)
    (late : ∀ r ∈ v.stamped rows, 0 < s.mark → (s.mark : Int) * 1000 < r.1) (k : κ) : v.due { s with source := s.source ++ rows } k = v.due s k := by
  have closed : ∀ source : List ρ, v.due { s with source := source } k =
      ((v.runs (v.ofKey k (v.stamped source))).filter fun run =>
        decide (v.sessionEnd run ≤ s.mark * 1000)).filter
          fun run => decide (0 < v.sessionEnd run) := by
    intro source
    rw [List.filter_filter]
    rfl
  have old := closed s.source
  rw [closed, show v.due s k = _ from old]
  by_cases marked : 0 < s.mark
  · have through := fun source => Gaps.runs_closed Prod.fst v.gap (gap_positive v) _
      (ofKey_sorted v k (v.stamped source)) (s.mark * 1000)
    have same := through (s.source ++ rows)
    rw [upto_same rows k _ fun r inside => late r inside marked, through s.source] at same
    exact congrArg _ same.symm
  · -- no session ends after the epoch and by it
    have none : ∀ runs : List (List (Int × ρ)), (runs.filter fun run =>
        decide (v.sessionEnd run ≤ s.mark * 1000)).filter
          (fun run => decide (0 < v.sessionEnd run)) = [] := by
      intro runs
      rw [List.filter_filter, List.filter_eq_nil_iff]
      intro run _
      rw [Bool.and_eq_true, decide_eq_true_eq, decide_eq_true_eq]
      omega
    rw [none, none]

theorem commit_low (rows : List ρ)
    (late : ∀ r ∈ v.stamped rows, 0 < s.mark → (s.mark : Int) * 1000 < r.1) (f : Int) (low : Low v s f) : Low v { s with source := s.source ++ rows } f := by
  refine ⟨low.mark, low.behind, ?_⟩
  intro k run inside after r there
  change (s.mark : Int) * 1000 < _ at after
  change run ∈ v.runs (v.ofKey k (v.stamped (s.source ++ rows))) at inside
  have behind := low.behind
  by_cases early : r.1 ≤ (s.mark : Int) * 1000
  · -- its rows up to the mark were there, in a session that was open
    have within : r ∈ run.filter fun r => decide (r.1 ≤ (s.mark : Int) * 1000) :=
      List.mem_filter.mpr ⟨there, decide_eq_true early⟩
    have some := List.ne_nil_of_mem within
    have parts := fun source => Gaps.runs_filter Prod.fst v.gap _
      (ofKey_sorted v k (v.stamped source)) _ (Gaps.upto_between Prod.fst (s.mark * 1000))
    have part : (run.filter fun r => decide (r.1 ≤ (s.mark : Int) * 1000)) ∈
        Gaps.runs Prod.fst v.gap ((v.ofKey k (v.stamped (s.source ++ rows))).filter
          fun r => decide (r.1 ≤ (s.mark : Int) * 1000)) := by
      rw [parts]
      exact List.mem_filter.mpr ⟨List.mem_map_of_mem inside, by simpa using some⟩
    rw [upto_same rows k _ fun r inside => late r inside low.mark, parts] at part
    obtain ⟨old, was, same⟩ := List.mem_map.mp (List.mem_filter.mp part).1
    have ends : (s.mark : Int) * 1000 <
        v.sessionEnd (run.filter fun r => decide (r.1 ≤ (s.mark : Int) * 1000)) := by
      rcases Gaps.upto_ends Prod.fst v.gap _ (ofKey_sorted v k _) run inside (s.mark * 1000) some
        with whole | late
      · rwa [whole]
      · exact late
    rw [← same] at ends within some
    have less : v.sessionEnd (old.filter fun r => decide (r.1 ≤ (s.mark : Int) * 1000)) ≤
        v.sessionEnd old :=
      Gaps.ends_le _ old some fun r there => (List.mem_filter.mp there).1
    exact low.starts k old was (by omega) r (List.mem_filter.mp within).1
  · omega

theorem commit_exact (exact : Exact v s) (rows : List ρ) (whole : v.Whole (s.source ++ rows))
    (onTime : v.OnTime s (.commit rows)) : Exact v (sessionsNext v s (.commit rows)) where
  whole := whole
  single := exact.single
  due k := (exact.due k).trans (commit_due rows onTime k).symm
  low f inside := commit_low rows onTime f (exact.low f inside)
  bound := exact.bound

/-! ### Runs -/

theorem bound_exact (exact : Exact v s) (i : Nat) : Exact v (sessionsNext v s (.bound i)) := by
  rw [sessionsNext]
  split
  · rename_i f there
    refine ⟨exact.whole, exact.single, exact.due, ?_, ?_⟩
    · intro g inside
      have low := exact.low g inside
      exact ⟨low.mark, low.behind, low.starts⟩
    · intro g bound
      obtain rfl := Option.some.inj bound
      exact List.mem_of_getElem? there
  · exact exact

theorem made_exact (rows : List ρ) (whole : v.Whole rows) : Exact v (SessionView.made rows) := by
  refine ⟨whole, (made_once v rows).single, ?_, ?_, ?_⟩
  · intro k
    symm
    change List.filter _ _ = []
    rw [List.filter_eq_nil_iff]
    intro run _
    rw [Bool.and_eq_true, decide_eq_true_eq, decide_eq_true_eq]
    change ¬(_ ∧ _ ≤ ((0 : Nat) : Int) * 1000)
    omega
  · intro f inside
    cases inside
  · intro f bound
    cases bound

/-- Rows are only added to the source. -/
theorem whole_before (ops : List (SessionOp ρ)) (whole : v.Whole ((rounds v).run s ops).source) :
    v.Whole s.source := by
  induction ops generalizing s with
  | nil => exact whole
  | cons op rest ih =>
    have next := ih whole
    change v.Whole (sessionsNext v s op).source at next
    cases op with
    | commit rows =>
      intro r inside
      refine next r ?_
      change r ∈ v.stamped (s.source ++ rows)
      rw [stamped_append]
      exact List.mem_append_left _ inside
    | round wm =>
      rw [sessionsNext] at next
      split at next <;> exact next
    | bound i =>
      rw [sessionsNext] at next
      split at next <;> exact next

theorem run_exactly (keeps : ∀ run, v.keeps run = true) (ops : List (SessionOp ρ))
    (exact : Exact v s) (whole : v.Whole ((rounds v).run s ops).source)
    (legal : ((rounds v).only v.OnTime).Legal s ops) : Exact v ((rounds v).run s ops) := by
  induction ops generalizing s with
  | nil => exact exact
  | cons op rest ih =>
    refine ih ?_ whole legal.2
    cases op with
    | commit rows => exact commit_exact exact rows (whole_before rest whole) legal.1.2
    | round wm => exact round_exact keeps exact wm
    | bound i => exact bound_exact exact i

variable (v)

/-- Each row is in one session emitted at most; and where the query keeps every session, no row is
late and times are whole µs, the sessions emitted are each key's that end after the epoch and by
the mark. -/
theorem run_sessions (rows : List ρ) (ops : List (SessionOp ρ)) :
    let s := (rounds v).run (SessionView.made rows) ops
    s.view.flatten.Subperm (v.stamped s.source) ∧
      ((∀ run, v.keeps run = true) → v.Whole s.source →
        ((rounds v).only v.OnTime).Legal (SessionView.made rows) ops →
          (∀ run ∈ s.view, ∃ k, v.isOf k run = true) ∧
            ∀ k, s.view.filter (v.isOf k) = v.due s k) := by
  refine ⟨(rounds_once v _ ops (made_once v rows)).taken, fun keeps whole legal => ?_⟩
  have exact := run_exactly keeps ops (made_exact rows (whole_before ops whole)) whole legal
  refine ⟨?_, exact.due⟩
  intro run inside
  have single := exact.single run inside
  obtain ⟨k, _, all⟩ := single
  exact ⟨k, (isOf_iff v k run (exact.single run inside)).mpr all⟩

/-! ### Visits -/

/-- Visits of a user at a time, a second apart. -/
def visits (unit : TimeUnit) : Sessions (Nat × Int) Nat :=
  ⟨Prod.fst, ⟨unit, fun r => some r.2⟩, 1, Nat.one_pos, fun _ => true⟩

/-- A visit a gap after another starts a session of its own. -/
def visited : List (SessionOp (Nat × Int)) :=
  [.commit [(1, 1000), (2, 1500), (1, 2000), (1, 2500)], .round 2500000, .bound 0,
    .commit [(2, 2501), (1, 3400)], .round 3600000, .commit [(2, 3700)], .round 9000000, .bound 1,
    .round 8000000]

theorem visited_sessions :
    let s := (rounds (visits .milli)).run (SessionView.made []) visited
    s.view.map (fun run => run.map (·.2)) =
        [[(2, 1500)], [(1, 1000)], [(2, 2501)], [(1, 2000), (1, 2500), (1, 3400)], [(2, 3700)]] ∧
      ∀ k, s.view.filter ((visits .milli).isOf k) = (visits .milli).due s k :=
  ⟨by decide, ((run_sessions (visits .milli) [] visited).2 (fun _ => rfl) (by decide)
    (by decide)).2⟩

/-- A visit's session that ends half a µs after the watermark. -/
def early : SessionView (Nat × Int) :=
  (rounds (visits .nano)).run (SessionView.made []) [.commit [(1, 500)], .round 1000000]

/-- A visit five seconds before the epoch. -/
def ancient : SessionView (Nat × Int) :=
  (rounds (visits .second)).run (SessionView.made []) [.commit [(1, -5)], .round 1000000]

/-- A session is emitted before its end, and one that ends before the epoch is not. -/
theorem visits_missing :
    (((rounds (visits .nano)).only (visits .nano).OnTime).Legal (SessionView.made [])
        [.commit [(1, 500)], .round 1000000] ∧
      ¬∀ k, early.view.filter ((visits .nano).isOf k) =
        ((visits .nano).runs ((visits .nano).ofKey k ((visits .nano).stamped early.source))).filter
          fun run => decide ((visits .nano).sessionEnd run ≤ early.mark * 1000)) ∧
    (((rounds (visits .second)).only (visits .second).OnTime).Legal (SessionView.made [])
        [.commit [(1, -5)], .round 1000000] ∧
      ¬∀ k, ancient.view.filter ((visits .second).isOf k) =
        ((visits .second).runs
            ((visits .second).ofKey k ((visits .second).stamped ancient.source))).filter
          fun run => decide ((visits .second).sessionEnd run ≤ ancient.mark * 1000)) := by
  refine ⟨⟨by decide, fun all => ?_⟩, ⟨by decide, fun all => ?_⟩⟩
  · have one := all 1
    revert one
    decide
  · have one := all 1
    revert one
    decide

end Pondra.Views
