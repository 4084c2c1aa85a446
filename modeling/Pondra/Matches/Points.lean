import Mathlib.Algebra.Order.Ring.Int
import Mathlib.Algebra.BigOperators.Group.List.Lemmas
import Mathlib.Algebra.GroupWithZero.Nat
import Mathlib.Data.List.Chain
import Pondra.Matches.Cuts

set_option autoImplicit false

/-! ### The points of one pass -/

namespace Pondra.Matches

/-- How many of the rows lie at or before `x`. -/
def below (uss : List Int) (x : Int) : Nat := uss.countP fun u => u ≤ x

theorem below_mono (uss : List Int) {x y : Int} (before : x ≤ y) : below uss x ≤ below uss y := by
  apply List.countP_mono_left
  intro u _ in_
  exact decide_eq_true ((of_decide_eq_true in_).trans before)

/-- Rows counted by one of two tests that exclude each other. -/
theorem countP_either (l : List Int) (p q r : Int → Bool)
    (either : ∀ u ∈ l, r u = true ↔ p u = true ∨ q u = true)
    (not : ∀ u ∈ l, ¬ (p u = true ∧ q u = true)) : l.countP r = l.countP p + l.countP q := by
  induction l with
  | nil => rfl
  | cons u rest ih =>
    have first := either u (.head _)
    have apart := not u (.head _)
    have others := ih (fun v in_ => either v (.tail _ in_)) fun v in_ => not v (.tail _ in_)
    rw [List.countP_cons, List.countP_cons, List.countP_cons, others]
    by_cases hp : p u = true <;> by_cases hq : q u = true
    · exact absurd ⟨hp, hq⟩ apart
    · rw [if_pos hp, if_neg hq, if_pos (first.mpr (.inl hp))]
      omega
    · rw [if_neg hp, if_pos hq, if_pos (first.mpr (.inr hq))]
      omega
    · rw [if_neg hp, if_neg hq, if_neg fun both => (first.mp both).elim hp hq]
      omega

/-- A row is of the slice it is in. -/
theorem slice_iff (lo width u s : Int) (wide : 1 ≤ width) (from_ : lo ≤ u) :
    (u - lo).tdiv width = s ↔ lo + s * width ≤ u ∧ u ≤ lo + s * width + width - 1 := by
  rw [Int.tdiv_eq_ediv_of_nonneg (by omega), Int.ediv_eq_iff_of_pos (by omega)]
  omega

/-- Slices in order, each with its rows, and no row between: `x` is counted up to. -/
def Chained (uss : List Int) (lo width : Int) : Int → List (Int × Nat) → Prop
  | _, [] => True
  | x, (s, n) :: rest =>
    x < lo + s * width ∧ below uss (lo + s * width - 1) = below uss x ∧
      below uss (lo + s * width + width - 1) = below uss (lo + s * width - 1) + n ∧ 0 < n ∧
      Chained uss lo width (lo + s * width + width - 1) rest

theorem chained_of (uss : List Int) (lo width : Int) (wide : 1 ≤ width) (from_ : ∀ u ∈ uss, lo ≤ u)
    (order : List Int) (sorted : order.Pairwise (· < ·)) (x : Int)
    (past : ∀ s ∈ order, x < lo + s * width)
    (held : ∀ s ∈ order, ∃ u ∈ uss, (u - lo).tdiv width = s)
    (all : ∀ u ∈ uss, x < u → (u - lo).tdiv width ∈ order) :
    Chained uss lo width x
      (order.map fun s => (s, (uss.map fun u => (u - lo).tdiv width).count s)) := by
  induction order generalizing x with
  | nil => trivial
  | cons s rest ih =>
    obtain ⟨least, later⟩ := List.pairwise_cons.mp sorted
    have further (r : Int) (member : r ∈ rest) : lo + s * width + width ≤ lo + r * width := by
      have step := Int.mul_le_mul_of_nonneg_right (least r member : s + 1 ≤ r) (by omega : 0 ≤ width)
      rw [Int.add_mul, Int.one_mul] at step
      omega
    have slice (u : Int) (in_ : u ∈ uss) := slice_iff lo width u s wide (from_ u in_)
    have after (u : Int) (in_ : u ∈ uss) (over_ : x < u) : lo + s * width ≤ u := by
      rcases List.mem_cons.mp (all u in_ over_) with same | other
      · exact ((slice u in_).mp same).1
      · have there := (slice_iff lo width u _ wide (from_ u in_)).mp rfl
        have more := further _ other
        omega
    refine ⟨past s (.head _), ?_, ?_, ?_, ih later _ ?_ ?_ ?_⟩
    · apply List.countP_congr
      intro u in_
      have from_x := after u in_
      have beyond := past s (.head _)
      simp only [decide_eq_true_eq]
      omega
    · rw [List.count_eq_countP, List.countP_map]
      apply countP_either
      · intro u in_
        have is := slice u in_
        simp only [Function.comp, beq_iff_eq, decide_eq_true_eq]
        omega
      · intro u in_
        have is := slice u in_
        simp only [Function.comp, beq_iff_eq, decide_eq_true_eq]
        omega
    · obtain ⟨u, in_, is⟩ := held s (.head _)
      exact List.count_pos_iff.mpr (List.mem_map.mpr ⟨u, in_, is⟩)
    · intro r member
      have more := further r member
      omega
    · exact fun r member => held r (.tail _ member)
    · intro u in_ beyond
      have start := past s (.head _)
      rcases List.mem_cons.mp (all u in_ (by omega)) with same | other
      · have there := (slice u in_).mp same
        omega
      · exact other

/-- One cut and the next: further on, at most W, and unless full, with at most `most` rows between. -/
def Raw (uss : List Int) (w : Int) (most : Nat) (a b : Int × Bool) : Prop :=
  a.1 < b.1 ∧ b.1 ≤ w ∧ (b.2 = false → below uss b.1 ≤ below uss a.1 + most)

theorem saturating_eq {x : Int} (long : Long x) : saturating x = x := by
  simp only [Long] at long
  simp only [saturating]
  omega

section Place

variable (uss : List Int) (lo width w : Int) (most : Nat)

theorem exists_between {a b : Int} (more : below uss a < below uss b) : ∃ u ∈ uss, a < u ∧ u ≤ b := by
  by_contra none_
  have same : below uss b ≤ below uss a := by
    apply List.countP_mono_left
    intro u member in_
    have upto := of_decide_eq_true in_
    refine decide_eq_true ?_
    by_contra past
    exact none_ ⟨u, member, by omega, upto⟩
  omega

/-- A slice's ends, which no saturation moves. -/
theorem slice_ends (wide : 1 ≤ width) (least : minLong ≤ lo) (top : w ≤ maxLong)
    (range : Long (w - lo)) (upto : ∀ u ∈ uss, u ≤ w) (x s : Int) (n : Nat)
    (rest : List (Int × Nat)) (chained : Chained uss lo width x ((s, n) :: rest)) (from_ : lo - 1 ≤ x) :
    saturating (lo + saturating (s * width)) = lo + s * width ∧
      min (saturating (lo + s * width + (width - 1))) w = min (lo + s * width + width - 1) w ∧
      lo + s * width ≤ w := by
  obtain ⟨past, same, more, pos, -⟩ := chained
  obtain ⟨u, member, start, -⟩ := exists_between uss (by omega :
    below uss (lo + s * width - 1) < below uss (lo + s * width + width - 1))
  have short := upto u member
  simp only [Long] at range
  have first : saturating (s * width) = s * width := by
    apply saturating_eq
    simp only [Long, minLong]
    omega
  have second : saturating (lo + s * width) = lo + s * width := by
    apply saturating_eq
    simp only [Long]
    omega
  refine ⟨by rw [first, second], ?_, by omega⟩
  simp only [saturating]
  omega

theorem place_spec (wide : 1 ≤ width) (least : minLong ≤ lo) (top : w ≤ maxLong)
    (range : Long (w - lo)) (upto : ∀ u ∈ uss, u ≤ w) (L : List (Int × Nat)) (x p : Int) (flag : Bool)
    (acc : Nat) (chained : Chained uss lo width x L) (from_ : lo - 1 ≤ x) (before : p ≤ x)
    (since : below uss x = below uss p + acc) (few : acc ≤ most) :
    List.IsChain (Raw uss w most) ((p, flag) :: place lo width w most acc L) ∧
      ∀ q ∈ place lo width w most acc L, below uss p < below uss q.1 := by
  induction L generalizing x p flag acc with
  | nil => exact ⟨.singleton _, nofun⟩
  | cons slice rest ih =>
    obtain ⟨s, n⟩ := slice
    obtain ⟨startEq, lastEq, inW⟩ := slice_ends uss lo width w wide least top range upto x s n rest
      chained from_
    obtain ⟨past, same, more, pos, others⟩ := chained
    simp only [place, startEq, lastEq]
    -- rows since the last cut put one between it and this slice
    have gap (some_ : 0 < acc) : p < lo + s * width - 1 := by
      by_contra not
      have few := below_mono uss (not_lt.mp not)
      omega
    have stretch : below uss (lo + s * width - 1) ≤ below uss p + most := by omega
    have capped : below uss (min (lo + s * width + width - 1) w) =
        below uss (lo + s * width + width - 1) := by
      apply le_antisymm (below_mono uss (min_le_left _ _))
      apply List.countP_mono_left
      intro u member in_
      exact decide_eq_true (le_min (of_decide_eq_true in_) (upto u member))
    have full := ih (lo + s * width + width - 1) (min (lo + s * width + width - 1) w) true 0 others
      (by omega) (min_le_left _ _) (by omega) (by omega)
    split
    · split
      · rename_i some_
        refine ⟨.cons_cons ⟨gap some_, by omega, fun _ => stretch⟩
          (.cons_cons ⟨by simp only; omega, min_le_right _ _, nofun⟩ full.1), ?_⟩
        intro q member
        rcases List.mem_cons.mp member with rfl | member
        · simp only
          omega
        rcases List.mem_cons.mp member with rfl | member
        · simp only
          omega
        · have later := full.2 q member
          omega
      · refine ⟨.cons_cons ⟨by simp only; omega, min_le_right _ _, nofun⟩ full.1, ?_⟩
        intro q member
        rcases List.mem_cons.mp member with rfl | member
        · simp only
          omega
        · have later := full.2 q member
          omega
    · split
      · have next := ih (lo + s * width + width - 1) (lo + s * width - 1) false n others
          (by omega) (by omega) (by omega) (by omega)
        refine ⟨.cons_cons ⟨gap (by omega), by omega, fun _ => stretch⟩ next.1, ?_⟩
        intro q member
        rcases List.mem_cons.mp member with rfl | member
        · simp only
          omega
        · have later := next.2 q member
          omega
      · exact ih (lo + s * width + width - 1) p flag (acc + n) others (by omega) (by omega) (by omega)
          (by omega)

end Place

theorem place_nil (lo width w : Int) (most : Nat) (L : List (Int × Nat)) (acc : Nat)
    (none_ : place lo width w most acc L = []) (few : acc ≤ most) :
    acc + (L.map Prod.snd).sum ≤ most := by
  induction L generalizing acc with
  | nil => simpa using few
  | cons slice rest ih =>
    obtain ⟨s, n⟩ := slice
    simp only [place] at none_
    split at none_
    · split at none_ <;> cases none_
    · split at none_
      · cases none_
      · have others := ih (acc + n) none_ (by omega)
        simp only [List.map_cons, List.sum_cons]
        omega

/-! ### One point per time -/

section Final

variable (unit : TimeUnit) (times : List Int) (w : Int) (most : Nat)

/-- One cut and the next: further on, at most W, and unless full, or at 1, with at most `most` rows between. -/
def Apart (a b : Int × Bool) : Prop :=
  a.1 < b.1 ∧ b.1 ≤ w ∧ (b.2 = false → b.1 = 1 ∨ (within unit times a.1 b.1).length ≤ most)

theorem apart_top (a : Int × Bool) (points : List (Int × Bool))
    (chain : List.IsChain (Apart unit times w most) (a :: points)) (q : Int × Bool) (member : q ∈ points) :
    q.1 ≤ w := by
  induction points generalizing a with
  | nil => cases member
  | cons first rest ih =>
    obtain ⟨apart, others⟩ := List.isChain_cons_cons.mp chain
    rcases List.mem_cons.mp member with rfl | later
    · exact apart.2.1
    · exact ih first others later

variable (w0 : Int)

/-- The µs of the span's rows. -/
def spanMicros : List Int := (within unit times w0 w).map (ceilMicros unit)

theorem below_span (x : Int) (upto : x ≤ w) :
    below (spanMicros unit times w w0) x = (within unit times w0 x).length := by
  rw [below, spanMicros, List.countP_map, within, List.countP_filter, within,
    ← List.countP_eq_length_filter]
  apply List.countP_congr
  intro t _
  simp only [Function.comp, Bool.and_eq_true, decide_eq_true_eq]
  simp only [inside]
  omega

theorem within_length (p c : Int) (start : 0 ≤ w0) (from_ : w0 ≤ p) (upto : p ≤ c) (past : 0 < p) :
    (within unit times w0 c).length = (within unit times w0 p).length + (within unit times p c).length := by
  simp only [within, ← List.countP_eq_length_filter]
  apply countP_either
  · intro t _
    simp only [decide_eq_true_eq]
    simp only [inside]
    omega
  · intro t _
    simp only [decide_eq_true_eq]
    simp only [inside]
    omega

/-- What the fold keeps: `p` is the last cut before it was made at least 1. -/
structure Kept (p : Int) (out : List (Int × Bool)) : Prop where
  chain : List.IsChain (Apart unit times w most) ((w0, true) :: out)
  last : ∀ l ∈ out.getLast?, l.1 = max p 1
  first : out = [] → (0 < w0 → p = w0) ∧ below (spanMicros unit times w w0) p = 0
  held : ∀ q ∈ out, 0 < below (spanMicros unit times w w0) q.1

theorem Kept.push {unit : TimeUnit} {times : List Int} {w : Int} {most : Nat} {w0 p : Int}
    {out : List (Int × Bool)} (kept : Kept unit times w most w0 p out) (start : 0 ≤ w0) (after : w0 < w)
    (flag : Bool) (point : Int × Bool)
    (raw : Raw (spanMicros unit times w w0) w most (p, flag) point)
    (some_ : 0 < below (spanMicros unit times w w0) point.1) :
    Kept unit times w most w0 point.1 (onePerTime out point) := by
  obtain ⟨c, full⟩ := point
  obtain ⟨further, upto, few⟩ := raw
  simp only at further upto few some_
  have reach : 0 < below (spanMicros unit times w w0) (max c 1) :=
    some_.trans_le (below_mono _ (le_max_left c 1))
  unfold onePerTime
  split
  · rename_i none_
    obtain ⟨same, zero⟩ := kept.first (List.getLast?_eq_none_iff.mp none_)
    refine ⟨.cons_cons ⟨by simp only; omega, by simp only; omega, fun plain => ?_⟩ (.singleton _), ?_,
      nofun, ?_⟩
    · by_cases one : max c 1 = 1
      · exact .inl one
      · have is : max c 1 = c := by omega
        have short := few plain
        rw [zero, below_span unit times w w0 c upto] at short
        simp only [is]
        omega
    · intro l is
      cases is
      rfl
    · intro q member
      rw [List.mem_singleton.mp member]
      exact reach
  · rename_i last is
    obtain ⟨init, whole⟩ := List.getLast?_eq_some_iff.mp is
    have at_ := kept.last last is
    have chain := kept.chain
    rw [whole, ← List.cons_append, List.isChain_append] at chain
    obtain ⟨before, -, link⟩ := chain
    have lastUp : last.1 ≤ w := by
      obtain ⟨x, end_⟩ : ∃ x, ((w0, true) :: init).getLast? = some x :=
        ⟨_, List.getLast?_eq_some_getLast (List.cons_ne_nil _ _)⟩
      exact (link x end_ last rfl).2.1
    by_cases same : last.1 = max c 1
    · rw [if_pos same]
      have one : max c 1 = 1 := by omega
      refine ⟨?_, ?_, ?_, ?_⟩
      · rw [whole, List.dropLast_concat, ← List.cons_append, List.isChain_append]
        refine ⟨before, .singleton _, fun x end_ y is => ?_⟩
        cases is
        obtain ⟨less, -, -⟩ := link x end_ last rfl
        exact ⟨by simp only; omega, by simp only; omega, fun _ => .inl one⟩
      · intro l is
        rw [List.getLast?_concat] at is
        cases is
        rfl
      · exact fun no => absurd no (by simp)
      · intro q member
        rcases List.mem_append.mp member with old | new
        · exact kept.held q (List.dropLast_subset _ old)
        · rw [List.mem_singleton.mp new]
          exact reach
    · rw [if_neg same]
      have is' : max c 1 = c := by omega
      refine ⟨?_, ?_, ?_, ?_⟩
      · rw [← List.cons_append, List.isChain_append]
        refine ⟨kept.chain, .singleton _, fun x end_ y is => ?_⟩
        cases is
        have end_' : x = last := by
          rw [whole, ← List.cons_append, List.getLast?_concat] at end_
          exact (Option.some.inj end_).symm
        subst end_'
        refine ⟨by simp only; omega, by simp only; omega, fun plain => .inr ?_⟩
        have short := few plain
        have more := below_mono (spanMicros unit times w w0) (by omega : p ≤ x.1)
        have from_ : w0 ≤ x.1 := by
          have sorted := kept.chain
          rw [whole] at sorted
          have least : w0 < x.1 := by
            have rel := List.IsChain.rel_cons (R := fun a b : Int × Bool => a.1 < b.1)
              (sorted.imp fun _ _ apart => apart.1) (List.mem_append_right init (.head _))
            exact rel
          exact least.le
        have parts := within_length unit times w0 x.1 c start from_ (by omega) (by omega)
        rw [below_span unit times w w0 c upto] at short
        rw [below_span unit times w w0 x.1 lastUp] at more
        simp only [is']
        omega
      · intro l is
        rw [List.getLast?_concat] at is
        cases is
        rfl
      · exact fun no => absurd no (by simp)
      · intro q member
        rcases List.mem_append.mp member with old | new
        · exact kept.held q old
        · rw [List.mem_singleton.mp new]
          exact reach

end Final

theorem fold_ne (raw out : List (Int × Bool)) (none_ : raw.foldl onePerTime out = []) :
    out = [] ∧ raw = [] := by
  induction raw generalizing out with
  | nil => exact ⟨none_, rfl⟩
  | cons point rest ih =>
    have made := (ih (onePerTime out point) none_).1
    unfold onePerTime at made
    split at made
    · cases made
    · dsimp only at made
      split at made <;> simp at made

section Whole

variable {unit : TimeUnit} {times : List Int} {w w0 : Int} {most : Nat}

theorem fold_kept (start : 0 ≤ w0) (after : w0 < w) (raw : List (Int × Bool)) (p : Int) (flag : Bool)
    (out : List (Int × Bool)) (kept : Kept unit times w most w0 p out)
    (chain : List.IsChain (Raw (spanMicros unit times w w0) w most) ((p, flag) :: raw))
    (some_ : ∀ q ∈ raw, 0 < below (spanMicros unit times w w0) q.1) :
    ∃ p', Kept unit times w most w0 p' (raw.foldl onePerTime out) := by
  induction raw generalizing p flag out with
  | nil => exact ⟨p, kept⟩
  | cons point rest ih =>
    obtain ⟨first, others⟩ := List.isChain_cons_cons.mp chain
    exact ih point.1 point.2 _ (kept.push start after flag point first (some_ point (.head _))) others
      fun q member => some_ q (.tail _ member)

/-- The points of a pass over a span: further and further on, at most W, and the first with a row before it. -/
structure Passed (unit : TimeUnit) (times : List Int) (w : Int) (most : Nat) (w0 : Int)
    (points : List (Int × Bool)) : Prop where
  chain : List.IsChain (Apart unit times w most) ((w0, true) :: points)
  held : ∀ q ∈ points, within unit times w0 q.1 ≠ []
  whole : points = [] → (within unit times w0 w).length ≤ most

theorem span_long (fits : Fits unit times w) (top : w ≤ maxLong) (t : Int)
    (member : t ∈ within unit times w0 w) : Long (ceilMicros unit t) := by
  obtain ⟨known, upto, -⟩ := (mem_within unit times w0 w t).mp member
  exact ⟨fits.times t known, upto.trans top⟩

theorem mapM_least (rows : List Int) (long : ∀ t ∈ rows, Long (ceilMicros unit t)) :
    rows.mapM (leastMicros unit) = some (rows.map (ceilMicros unit)) := by
  induction rows with
  | nil => rfl
  | cons t rest ih =>
    rw [List.mapM_cons, least_some unit t (long t (.head _)),
      ih fun s member => long s (.tail _ member)]
    rfl

/-- No row of a span is before the slices' lowest µs, and at most one µs is given up at its start. -/
theorem lowest_spec (fits : Fits unit times w) (top : w ≤ maxLong) (after : w0 < w) :
    (lowest unit (within unit times w0 w) w0 = some none ∧ within unit times w0 w = []) ∨
      ∃ lo, lowest unit (within unit times w0 w) w0 = some (some lo) ∧
        (∀ u ∈ spanMicros unit times w w0, lo ≤ u) ∧ minLong ≤ lo ∧ lo ≤ w ∧
        (0 < w0 → lo = w0 + 1) ∧ (w0 = 0 → within unit times w0 w ≠ []) := by
  unfold lowest
  split
  · rename_i past
    refine .inr ⟨w0 + 1, rfl, ?_, by simp only [minLong]; omega, by omega, fun _ => rfl, by omega⟩
    intro u member
    obtain ⟨t, in_, rfl⟩ := List.mem_map.mp member
    exact ((mem_within unit times w0 w t).mp in_).2.2 past
  · rename_i first
    rw [mapM_least _ (span_long fits top)]
    cases least : (spanMicros unit times w w0).min? with
    | none =>
      left
      have none_ := List.min?_eq_none_iff.mp least
      exact ⟨congrArg some least, List.map_eq_nil_iff.mp none_⟩
    | some lo =>
      right
      obtain ⟨member, all⟩ := List.min?_eq_some_iff.mp least
      obtain ⟨t, in_, is⟩ := List.mem_map.mp member
      have long := span_long fits top t in_
      have upto := ((mem_within unit times w0 w t).mp in_).2.1
      refine ⟨lo, congrArg some least, all, ?_, ?_, fun past => absurd past first, fun _ => ?_⟩
      · rw [← is]
        exact long.1
      · omega
      · exact List.ne_nil_of_mem in_

theorem counted_sum (uss : List Int) (lo width : Int) :
    ((counted uss lo width).map Prod.snd).sum = uss.length := by
  have counts : (counted uss lo width).map Prod.snd =
      ((uss.map fun u => (u - lo).tdiv width).dedup.insertionSort (· ≤ ·)).map fun s =>
        (uss.map fun u => (u - lo).tdiv width).count s := by
    rw [counted, List.map_map]
    rfl
  rw [counts, ((List.perm_insertionSort _ _).map _).sum_eq, List.sum_map_count_dedup_eq_length,
    List.length_map]

theorem counted_chained (uss : List Int) (lo width : Int) (wide : 1 ≤ width) (from_ : ∀ u ∈ uss, lo ≤ u) :
    Chained uss lo width (lo - 1) (counted uss lo width) := by
  have known (s : Int) (member : s ∈ (uss.map fun u => (u - lo).tdiv width).dedup.insertionSort (· ≤ ·)) :
      ∃ u ∈ uss, (u - lo).tdiv width = s := by
    rw [List.mem_insertionSort, List.mem_dedup, List.mem_map] at member
    exact member
  apply chained_of uss lo width wide from_
  · have sorted := List.pairwise_insertionSort (· ≤ ·) (uss.map fun u => (u - lo).tdiv width).dedup
    have once := (List.perm_insertionSort (· ≤ ·)
      (uss.map fun u => (u - lo).tdiv width).dedup).nodup_iff.mpr (List.nodup_dedup _)
    exact (sorted.and once).imp fun both => lt_of_le_of_ne both.1 both.2
  · intro s member
    obtain ⟨u, in_, is⟩ := known s member
    have there : 0 ≤ s := by
      rw [← is, Int.tdiv_eq_ediv_of_nonneg (by have := from_ u in_; omega)]
      exact Int.ediv_nonneg (by have := from_ u in_; omega) (by omega)
    have up := Int.mul_nonneg there (by omega : 0 ≤ width)
    omega
  · exact known
  · intro u in_ _
    rw [List.mem_insertionSort, List.mem_dedup]
    exact List.mem_map.mpr ⟨u, in_, rfl⟩

theorem cutPoints_spec (fits : Fits unit times w) (top : w ≤ maxLong) (start : 0 ≤ w0) (after : w0 < w) :
    ∃ points, cutPoints unit times w0 w most = some points ∧ Passed unit times w most w0 points := by
  have spans := span_eq unit times w0 w start after fits.stamp
  have reach (q : Int) (upto : q ≤ w) (some_ : 0 < below (spanMicros unit times w w0) q) :
      within unit times w0 q ≠ [] := by
    rw [below_span unit times w w0 q upto] at some_
    exact List.ne_nil_of_length_pos some_
  simp only [cutPoints, spans]
  rcases lowest_spec fits top after with ⟨is, none_⟩ | ⟨lo, is, from_, least, upto, past, first⟩
  · rw [is]
    exact ⟨[], rfl, .singleton _, fun _ inside => absurd inside List.not_mem_nil,
      fun _ => by rw [none_]; exact Nat.zero_le _⟩
  rw [is]
  simp only
  split
  · rename_i far
    have zero : w0 = 0 := by
      by_contra not
      have := past (by omega)
      simp only [Long, minLong, maxLong] at far top
      omega
    refine ⟨_, rfl, .cons_cons ⟨after, le_refl w, fun is => (by cases is)⟩ (.singleton _), ?_,
      fun none_ => (by cases none_)⟩
    intro q member
    rw [List.mem_singleton.mp member]
    exact first zero
  · rename_i near
    rw [mapM_least _ (span_long fits top)]
    simp only
    have range := not_not.mp near
    have wide : 1 ≤ (w - lo).tdiv slices + 1 := by
      have whole := Int.tdiv_nonneg (by omega : 0 ≤ w - lo) (by decide : 0 ≤ slices)
      omega
    generalize (w - lo).tdiv slices + 1 = width at wide ⊢
    change ∃ points, (if ((counted (spanMicros unit times w w0) lo width).map Prod.snd).sum ≤ most
      then _ else _) = some points ∧ _
    split
    · rename_i few
      rw [counted_sum, spanMicros, List.length_map] at few
      exact ⟨[], rfl, .singleton _, fun _ inside => absurd inside List.not_mem_nil, fun _ => few⟩
    · rename_i many
      have zero : below (spanMicros unit times w w0) (lo - 1) = 0 := by
        rw [below, List.countP_eq_zero]
        intro u member in_
        have := from_ u member
        have := of_decide_eq_true in_
        omega
      have tops : ∀ u ∈ spanMicros unit times w w0, u ≤ w := by
        intro u member
        obtain ⟨t, in_, rfl⟩ := List.mem_map.mp member
        exact ((mem_within unit times w0 w t).mp in_).2.1
      obtain ⟨chain, some_⟩ := place_spec (spanMicros unit times w w0) lo width w most wide least top
        range tops (counted (spanMicros unit times w w0) lo width) (lo - 1) (lo - 1) true 0
        (counted_chained _ lo width wide from_) (le_refl _) (le_refl _) (by omega) (Nat.zero_le _)
      rw [zero] at some_
      obtain ⟨p, kept⟩ := fold_kept start after _ (lo - 1) true []
        ⟨.singleton _, fun _ inside => (by cases inside),
          fun _ => ⟨fun some0 => by have := past some0; omega, zero⟩, fun _ inside => (by cases inside)⟩
        chain some_
      refine ⟨_, rfl, kept.chain, fun q member => ?_, fun none_ => ?_⟩
      · exact reach q.1 (apart_top unit times w most _ _ kept.chain q member) (kept.held q member)
      · have none_' := (fold_ne _ _ none_).2
        have sum := place_nil lo width w most (counted (spanMicros unit times w w0) lo width) 0
          none_' (Nat.zero_le _)
        omega

end Whole

end Pondra.Matches
