import Pondra.Matches.Points

set_option autoImplicit false

/-! ### Steps to the watermark -/

namespace Pondra.Matches

variable {unit : TimeUnit} {times : List Int} {w : Int} {most : Nat}

/-- The points past W0 are as far apart from it as they were from a cut before it. -/
theorem apart_ahead (p w0 : Int) (flag : Bool) (points : List (Int × Bool)) (before : p ≤ w0)
    (chain : List.IsChain (Apart unit times w most) ((p, flag) :: points)) :
    List.IsChain (Apart unit times w most) ((w0, true) :: points.filter fun point => w0 < point.1) := by
  induction points generalizing p flag with
  | nil => exact .singleton _
  | cons point rest ih =>
    obtain ⟨apart, others⟩ := List.isChain_cons_cons.mp chain
    by_cases past : w0 < point.1
    · have later : rest.filter (fun q => w0 < q.1) = rest := by
        rw [List.filter_eq_self]
        intro q member
        have more := List.IsChain.rel_cons (R := fun a b : Int × Bool => a.1 < b.1)
          (others.imp fun _ _ apart => apart.1) member
        exact decide_eq_true (past.trans more)
      rw [List.filter_cons_of_pos (by simpa using past), later]
      refine .cons_cons ⟨past, apart.2.1, fun plain => ?_⟩ others
      rcases apart.2.2 plain with one | few
      · exact .inl one
      · right
        have fewer : (within unit times w0 point.1).Sublist (within unit times p point.1) := by
          apply List.monotone_filter_right
          intro t in_
          have both := of_decide_eq_true in_
          refine decide_eq_true ⟨both.1, fun some_ => ?_⟩
          have beyond := both.2 (by omega)
          omega
        exact fewer.length_le.trans few
    · rw [List.filter_cons_of_neg (by simpa using past)]
      exact ih point.1 point.2 (not_lt.mp past) others

/-- What one step is told: how far it goes, and what is still ahead of it. -/
theorem nextCut_spec (fits : Fits unit times w) (short : w < maxLong) (some_ : 1 ≤ most) (p w0 : Int)
    (flag : Bool) (points : List (Int × Bool)) (start : 0 ≤ w0) (after : w0 < w) (before : p ≤ w0)
    (chain : List.IsChain (Apart unit times w most) ((p, flag) :: points)) :
    ∃ ahead c, nextCut unit times points w0 w most = some (ahead, c) ∧ w0 < c ∧ c ≤ w ∧
      List.IsChain (Apart unit times w most) ((w0, true) :: ahead) ∧
      (c = 1 ∨ Shares unit most c (within unit times w0 c)) ∧
      (points = [] → within unit times w0 c ≠ [] ∨ c = w) := by
  have stops (c : Int) (full : Bool) (rest : List (Int × Bool))
      (chain : List.IsChain (Apart unit times w most) ((w0, true) :: (c, full) :: rest)) :
      ∃ d, (if full then (cut unit times w0 (min c w) most).map fun to_ => ((c, full) :: rest, to_)
          else some ((c, full) :: rest, min c w)) = some ((c, full) :: rest, d) ∧ w0 < d ∧ d ≤ w ∧
        (d = 1 ∨ Shares unit most d (within unit times w0 d)) ∧
        (within unit times w0 c ≠ [] → within unit times w0 d ≠ []) := by
    obtain ⟨further, upto, few⟩ := (List.isChain_cons_cons.mp chain).1
    simp only at further upto few
    rw [min_eq_left upto]
    cases full with
    | true =>
      obtain ⟨d, made, past, top, shares, held⟩ :=
        cut_spec unit times w w0 c most some_ fits start further upto short
      refine ⟨d, by rw [if_pos rfl, made]; rfl, past, top.trans upto, shares, fun some_ => ?_⟩
      rcases held with row | rfl
      · exact row
      · exact some_
    | false =>
      refine ⟨c, rfl, further, upto, ?_, id⟩
      rcases few rfl with one | short
      · exact .inl one
      · exact .inr (.inl short)
  have ahead := apart_ahead p w0 flag points before chain
  simp only [nextCut]
  cases left : points.filter fun point => w0 < point.1 with
  | cons point rest =>
    obtain ⟨c, full⟩ := point
    rw [left] at ahead
    obtain ⟨d, made, past, top, shares, -⟩ := stops c full rest ahead
    refine ⟨_, d, made, past, top, ahead, shares, fun none_ => ?_⟩
    rw [none_] at left
    cases left
  | nil =>
    obtain ⟨fresh, made, passed⟩ : ∃ points, cutPoints unit times _ w most = some points ∧ _ :=
      cutPoints_spec fits short.le start after
    simp only [if_true, made]
    cases fresh with
    | nil => exact ⟨[], w, rfl, after, le_refl w, passed.chain, .inr (.inl (passed.whole rfl)), fun _ => .inr rfl⟩
    | cons point rest =>
      obtain ⟨c, full⟩ := point
      obtain ⟨d, stop, past, top, shares, held⟩ := stops c full rest passed.chain
      exact ⟨_, d, stop, past, top, passed.chain, shares,
        fun _ => .inl (held (passed.held (c, full) (.head _)))⟩

/-- Between two steps: `last` is the last cut, and what lies between the time decided up to and it holds no row. -/
structure Going (unit : TimeUnit) (times : List Int) (w : Int) (most : Nat) (last : Int) (run : Run) :
    Prop where
  start : 0 ≤ run.w0
  upto : run.w0 ≤ last
  ahead : ∃ p flag, p ≤ run.w0 ∧ List.IsChain (Apart unit times w most) ((p, flag) :: run.points)
  decided : run.w0 = last ∨ run.points = [] ∧ within unit times run.w0 last = []

theorem step_spec (fits : Fits unit times w) (short : w < maxLong) (some_ : 1 ≤ most) (busy : Bool)
    (last : Int) (run : Run) (going : Going unit times w most last run) (more : last < w) :
    ∃ left c, step unit times w most busy run = some (left, c) ∧ last < c ∧ c ≤ w ∧
      (c = 1 ∨ Shares unit most c (within unit times run.w0 c)) ∧
      (left.w0 = c ∨ left.w0 = run.w0 ∧ within unit times run.w0 c = []) ∧
      (c < w → Going unit times w most c left) := by
  obtain ⟨p, flag, before, chain⟩ := going.ahead
  have under := going.upto
  obtain ⟨ahead, c, made, past, top, chain', shares, held⟩ := nextCut_spec fits short some_ p run.w0
    flag run.points going.start (by omega) before chain
  have further : last < c := by
    rcases going.decided with rfl | ⟨none_, empty⟩
    · exact past
    · rcases held none_ with row | rfl
      · by_contra not
        have fewer := within_sublist unit times run.w0 c last (not_lt.mp not)
        rw [empty] at fewer
        exact row (List.sublist_nil.mp fewer)
      · exact more
  have spans := span_eq unit times run.w0 c going.start past
    (stamp_le unit c w (by have := going.start; omega) top fits.stamp)
  simp only [step, made, spans]
  split
  · rename_i nothing
    refine ⟨_, c, rfl, further, top, shares, .inr ⟨rfl, nothing.1⟩, fun short => ?_⟩
    simp only [if_pos short]
    exact ⟨going.start, past.le, ⟨run.w0, true, le_refl _, .singleton _⟩, .inr ⟨rfl, nothing.1⟩⟩
  · refine ⟨_, c, rfl, further, top, shares, .inl rfl, fun short => ?_⟩
    have start := going.start
    exact ⟨by simp only; omega, le_refl c, ⟨run.w0, true, past.le, chain'⟩, .inl rfl⟩

/-- A span's rows are those up to a cut within it, and those after. -/
theorem within_split (w0 c : Int) (start : 0 ≤ w0) (past : w0 < c) (top : c ≤ w) :
    (within unit times w0 c ++ within unit times c w).Perm (within unit times w0 w) := by
  have first : within unit times w0 c =
      (within unit times w0 w).filter fun t => ceilMicros unit t ≤ c := by
    simp only [within, List.filter_filter]
    apply List.filter_congr
    intro t _
    rw [Bool.eq_iff_iff]
    simp only [Bool.and_eq_true, decide_eq_true_eq]
    simp only [inside]
    omega
  have second : within unit times c w =
      (within unit times w0 w).filter fun t => !decide (ceilMicros unit t ≤ c) := by
    simp only [within, List.filter_filter]
    apply List.filter_congr
    intro t _
    rw [Bool.eq_iff_iff]
    simp only [Bool.and_eq_true, Bool.not_eq_true', decide_eq_true_eq, decide_eq_false_iff_not]
    simp only [inside]
    omega
  rw [first, second]
  exact List.filter_append_perm _ _

/-- The steps from here on. -/
structure Steps (unit : TimeUnit) (times : List Int) (w : Int) (most : Nat) (w0 last : Int)
    (steps : List (Int × Int)) : Prop where
  reach : (steps.map Prod.snd).getLast? = some w
  rises : List.IsChain (· < ·) (last :: steps.map Prod.snd)
  each : ∀ s ∈ steps, w0 ≤ s.1 ∧ s.1 < s.2 ∧ s.2 ≤ w ∧
    span unit times s.1 s.2 = some (within unit times s.1 s.2) ∧
    (s.2 = 1 ∨ Shares unit most s.2 (within unit times s.1 s.2))
  once : (steps.flatMap fun s => within unit times s.1 s.2).Perm (within unit times w0 w)

theorem rounds_steps (fits : Fits unit times w) (short : w < maxLong) (some_ : 1 ≤ most)
    (busy : Nat → Bool) (fuel : Nat) (last : Int) (run : Run) (i : Nat)
    (going : Going unit times w most last run) (more : last < w) (enough : (w - last).toNat ≤ fuel) :
    ∃ steps, (∀ n, rounds unit times w most busy n i run = some (steps.take n)) ∧
      Steps unit times w most run.w0 last steps := by
  induction fuel generalizing last run i with
  | zero => omega
  | succ fuel ih =>
    obtain ⟨left, c, stepped, further, top, shares, next, goes⟩ :=
      step_spec fits short some_ (busy i) last run going more
    have past : run.w0 < c := by
      have under := going.upto
      omega
    have spans := span_eq unit times run.w0 c going.start past
      (stamp_le unit c w (by have := going.start; omega) top fits.stamp)
    by_cases done : c = w
    · subst done
      refine ⟨[(run.w0, c)], ?_, rfl, .cons_cons further (.singleton _), ?_, ?_⟩
      · intro n
        cases n with
        | zero => rfl
        | succ n => simp only [rounds, stepped, if_true, List.take_succ_cons, List.take_nil]
      · intro s member
        rw [List.mem_singleton.mp member]
        exact ⟨le_refl _, past, le_refl _, spans, shares⟩
      · simp only [List.flatMap_cons, List.flatMap_nil, List.append_nil]
        exact .refl _
    · obtain ⟨others, rest, steps⟩ := ih c left (i + 1) (goes (by omega)) (by omega) (by omega)
      have from_ : run.w0 ≤ left.w0 := by
        rcases next with same | ⟨same, -⟩ <;> omega
      refine ⟨(run.w0, c) :: others, ?_, ?_, ?_, ?_, ?_⟩
      · intro n
        cases n with
        | zero => rfl
        | succ n =>
          simp only [rounds, stepped, if_neg done, rest, Option.map_some, List.take_succ_cons]
      · have last := steps.reach
        rw [List.map_cons, List.getLast?_cons, last, Option.getD_some]
      · exact .cons_cons further steps.rises
      · intro s member
        rcases List.mem_cons.mp member with rfl | later
        · exact ⟨le_refl _, past, top, spans, shares⟩
        · obtain ⟨low, kept⟩ := steps.each s later
          exact ⟨from_.trans low, kept⟩
      · rw [List.flatMap_cons]
        rcases next with same | ⟨same, empty⟩
        · have once := steps.once
          rw [same] at once
          exact (once.append_left _).trans (within_split run.w0 c going.start past top)
        · have once := steps.once
          rw [same] at once
          simp only [empty, List.nil_append]
          exact once

/-- Cut points always move on: they rise from W0 to at most W, and the steps they make reach W, cover each row of the
span once and none outside, and take more than `most` rows only of a microsecond and the one the cut ends in, or
up to 1 µs. -/
theorem rounds_reach (unit : TimeUnit) (times : List Int) (w0 w : Int) (most : Nat) (busy : Nat → Bool)
    (fits : Fits unit times w) (start : 0 ≤ w0) (after : w0 < w) (short : w < maxLong)
    (some_ : 1 ≤ most) :
    (∃ points, cutPoints unit times w0 w most = some points ∧
      List.IsChain (· < ·) (w0 :: points.map Prod.fst) ∧ ∀ q ∈ points, q.1 ≤ w) ∧
    ∃ steps, (∀ n, rounds unit times w most busy n 0 ⟨w0, []⟩ = some (steps.take n)) ∧
      Steps unit times w most w0 w0 steps := by
  constructor
  · obtain ⟨points, made, passed⟩ : ∃ points, cutPoints unit times w0 w most = some points ∧ _ :=
      cutPoints_spec fits short.le start after
    refine ⟨points, made, ?_, apart_top unit times w most _ _ passed.chain⟩
    have rises := passed.chain.imp fun _ _ apart => apart.1
    rw [← List.isChain_map (R := (· < ·)) Prod.fst] at rises
    exact rises
  · exact rounds_steps fits short some_ busy (w - w0).toNat w0 ⟨w0, []⟩ 0
      ⟨start, le_refl w0, ⟨w0, true, le_refl w0, .singleton _⟩, .inl rfl⟩ after (le_refl _)

theorem rounds_reach_nano :
    (∃ points, cutPoints .Nanosecond [11500, 12500] 10 100 1 = some points ∧
      List.IsChain (· < ·) (10 :: points.map Prod.fst) ∧ ∀ q ∈ points, q.1 ≤ 100) ∧
    ∃ steps, (∀ n, rounds .Nanosecond [11500, 12500] 100 1 (fun _ => false) n 0 ⟨10, []⟩ =
        some (steps.take n)) ∧ Steps .Nanosecond [11500, 12500] 100 1 10 10 steps :=
  rounds_reach .Nanosecond [11500, 12500] 10 100 1 (fun _ => false) ⟨by decide, by decide⟩ (by decide)
    (by decide) (by decide) (by decide)

/-- From 0, a cut at 1 takes all rows before it; a time no i64 of µs holds is an error at every round; and past the
last microsecond the exact cut wraps. -/
theorem clamped_rows :
    (¬ ∀ (times : List Int) (w0 w : Int) (most : Nat), 0 ≤ w0 → w0 < w → 1 ≤ most →
      ∃ n steps, rounds .Microsecond times w most (fun _ => false) n 0 ⟨w0, []⟩ = some steps ∧
        (steps.map Prod.snd).getLast? = some w ∧
        ∀ s ∈ steps, Shares .Microsecond most s.2 (within .Microsecond times s.1 s.2)) ∧
    (∀ n, rounds .Second [-10000000000000, 3] 5000000 1 (fun _ => false) (n + 1) 0 ⟨0, []⟩ = none) ∧
    cut .Microsecond [maxLong] (maxLong - 1) maxLong 1 = some 1 := by
  refine ⟨fun every => ?_, fun n => ?_, by decide +kernel⟩
  · obtain ⟨n, steps, made, reach, shares⟩ := every [-5, -3] 0 100 1 (by decide) (by decide) (by decide)
    cases n with
    | zero =>
      cases made
      cases reach
    | succ n =>
      have first : step .Microsecond [-5, -3] 100 1 false ⟨0, []⟩ = some (⟨1, [(1, false)]⟩, 1) := by
        decide +kernel
      simp only [rounds, first, (by decide : ¬ (1 : Int) = 100), if_false] at made
      obtain ⟨others, -, rfl⟩ := Option.map_eq_some_iff.mp made
      have shared := shares (0, 1) (.head _)
      rw [(by decide : within .Microsecond [-5, -3] 0 1 = [-5, -3])] at shared
      rcases shared with few | ⟨m, few, all⟩
      · exact absurd few (by decide)
      · have last := all (-3) (.tail _ (.head _))
        have before : ceilMicros .Microsecond (-5) < m := by
          simp only [ceilMicros] at last ⊢
          omega
        have one : 0 < ([-5, -3].filter fun t => ceilMicros .Microsecond t < m).length :=
          List.length_pos_of_mem (List.mem_filter.mpr ⟨.head _, decide_eq_true before⟩)
        omega
  · have first : step .Second [-10000000000000, 3] 5000000 1 false ⟨0, []⟩ = none := by decide +kernel
    simp only [rounds, first]

end Pondra.Matches
