import Pondra.Base.Grouped
import Pondra.Base.Slots
import Pondra.Ranges.Cuts

set_option autoImplicit false

/-! ### The slices of a table -/

namespace Pondra.Ranges

open Dicts Slots

section slicing

variable {T ν F : Type} [LinearOrder ν] (values : Values T ν) (d : Doubles F)

/-! ### The cuts rise -/

/-- The bytes before the cut after `j` others. -/
def want (total n j : Nat) : Nat := total * (j + 1) / n

theorem want_mono (total n i j : Nat) (le : i ≤ j) : want total n i ≤ want total n j :=
  Nat.div_le_div_right (Nat.mul_le_mul_left total (Nat.succ_le_succ le))

/-- Cuts that rise, all of one type. -/
def Cutting.Rises (t : T) (c : Cutting ν) : Prop :=
  c.out.Pairwise (· < ·) ∧ ∀ cut ∈ c.out, values.type cut = t

theorem push_rises (t : T) (c : Cutting ν) (cut : Option ν) (rises : c.Rises values t)
    (typed : ∀ v, cut = some v → values.type v = t) : (c.push cut).Rises values t := by
  cases cut with
  | none => exact rises
  | some v =>
    unfold Cutting.push
    simp only
    split
    · exact rises
    · rename_i above
      constructor
      · rw [List.pairwise_append]
        refine ⟨rises.1, List.pairwise_singleton _ v, fun u inside w new => ?_⟩
        rw [List.mem_singleton] at new
        have less : ∀ last, c.out.getLast? = some last → last < v := by
          intro last here
          rw [here] at above
          simpa using above
        -- the last cut is the greatest
        have some : c.out ≠ [] := List.ne_nil_of_mem inside
        have last := less _ (List.getLast?_eq_some_getLast some)
        rw [new]
        by_cases same : u = c.out.getLast some
        · exact same ▸ last
        · have init : u ∈ c.out.dropLast := by
            have := List.dropLast_append_getLast some ▸ inside
            rw [List.mem_append, List.mem_singleton] at this
            exact this.resolve_right same
          have order := rises.1
          rw [← List.dropLast_append_getLast some, List.pairwise_append] at order
          exact lt_trans (order.2.2 u init _ (List.mem_singleton_self _)) last
      · intro u inside
        rw [List.mem_append, List.mem_singleton] at inside
        cases inside with
        | inl old => exact rises.2 u old
        | inr new => exact new ▸ typed v rfl

theorem inside_rises (t : T) (s : Span ν) (before w : Nat) (c : Cutting ν)
    (rises : c.Rises values t) (typed : values.type s.lo = t) :
    (inside values d s before w c).Rises values t := by
  unfold inside
  split
  · apply push_rises
    · exact rises
    · intro v here
      rw [← typed]
      exact values.casted _ _ v here
  · exact rises

theorem fill_rises (t : T) (total n : Nat) (s : Span ν) (k : Nat) (c : Cutting ν)
    (rises : c.Rises values t) (typed : values.type s.lo = t) :
    (fill values d total n s k c).Rises values t := by
  induction k generalizing c with
  | zero => exact rises
  | succ k ih =>
    unfold fill
    simp only
    split
    · exact rises
    · split
      · apply ih
        apply push_rises _ _ _ _ rises
        intro v here
        exact Option.some.inj here ▸ typed
      · split
        · exact ih _ (inside_rises values d t s _ _ c rises typed)
        · exact rises

/-- One piece's cuts, and the bytes of it passed. -/
def Cutting.past (total n : Nat) (c : Cutting ν) (s : Span ν) : Cutting ν :=
  if c.stopped then c
  else
    let c := fill values d total n s (n - 1 - c.out.length) c
    { c with before := c.before + s.piece.size }

theorem cutting_eq (spans : List (Span ν)) (n : Nat) :
    cutting values d spans n =
      spans.foldl (Cutting.past values d (spans.map (·.piece.size)).sum n) ⟨[], 0, false, false⟩ :=
  rfl

theorem past_rises (t : T) (total n : Nat) (spans : List (Span ν)) (c : Cutting ν)
    (rises : c.Rises values t) (typed : ∀ s ∈ spans, values.type s.lo = t) :
    (spans.foldl (Cutting.past values d total n) c).Rises values t := by
  induction spans generalizing c with
  | nil => exact rises
  | cons s rest ih =>
    rw [List.foldl_cons]
    apply ih
    · unfold Cutting.past
      split
      · exact rises
      · exact fill_rises values d t total n s _ c rises (typed s List.mem_cons_self)
    · exact fun u inside => typed u (List.mem_cons_of_mem s inside)

theorem cuts_rise (t : T) (spans : List (Span ν)) (n : Nat) (out : List ν)
    (typed : ∀ s ∈ spans, values.type s.lo = t) (given : cuts values d spans n = some out) :
    out.Pairwise (· < ·) ∧ (∀ cut ∈ out, values.type cut = t) ∧ out.length + 1 = n := by
  unfold cuts at given
  simp only at given
  split at given
  · rename_i whole
    cases given
    rw [cutting_eq] at whole ⊢
    have rises := past_rises values d t (spans.map (·.piece.size)).sum n spans
      ⟨[], 0, false, false⟩ ⟨.nil, nofun⟩ typed
    exact ⟨rises.1, rises.2, whole.2⟩
  · cases given

/-! ### What wraps -/

/-- Its values' width, and the least after its first, are whole numbers an `i64` has. -/
def Narrow (s : Span ν) : Prop :=
  ∀ lo hi, values.int s.lo = some lo → values.int s.hi = some hi →
    fits (hi - lo) = true ∧ fits (lo + 1) = true

/-- Of each piece a cut falls inside, by the bytes before it. -/
def Clear (spans : List (Span ν)) (n : Nat) : Prop :=
  ∀ pre s post, spans = pre ++ s :: post → values.isInteger (values.type s.lo) = true →
    ∀ j, j + 1 < n → (pre.map (·.piece.size)).sum < want (spans.map (·.piece.size)).sum n j →
      want (spans.map (·.piece.size)).sum n j <
        (pre.map (·.piece.size)).sum + s.piece.size → Narrow values s

/-- Whole bounds are in order as whole numbers too. -/
def Ordered (s : Span ν) : Prop :=
  values.isInteger (values.type s.lo) = true →
    ∀ lo hi, values.int s.lo = some lo → values.int s.hi = some hi → lo ≤ hi

theorem push_wrapped (c : Cutting ν) (cut : Option ν) : (c.push cut).wrapped = c.wrapped := by
  cases cut with
  | none => rfl
  | some v =>
    unfold Cutting.push
    simp only
    split <;> rfl

theorem push_before (c : Cutting ν) (cut : Option ν) : (c.push cut).before = c.before := by
  cases cut with
  | none => rfl
  | some v =>
    unfold Cutting.push
    simp only
    split <;> rfl

theorem push_length (c : Cutting ν) (cut : Option ν) (goes : (c.push cut).stopped = false) :
    (c.push cut).out.length = c.out.length + 1 ∧ c.stopped = false := by
  cases cut with
  | none => cases goes
  | some v =>
    unfold Cutting.push at goes ⊢
    simp only at goes ⊢
    split at goes
    · cases goes
    · rename_i above
      rw [if_neg above]
      simpa using goes

theorem wrap_fits (x : Int) (whole : fits x = true) : wrap x = x := by
  unfold fits at whole
  unfold wrap
  rw [Bool.and_eq_true, decide_eq_true_eq, decide_eq_true_eq] at whole
  apply Int.bmod_eq_of_le <;> omega

theorem inside_before (s : Span ν) (before w : Nat) (c : Cutting ν) :
    (inside values d s before w c).before = c.before := by
  unfold inside
  split
  · rw [push_before]
  · rfl

/-- A cut inside a piece wraps nothing exactly where the piece is narrow. -/
theorem inside_wrapped (s : Span ν) (before w : Nat) (c : Cutting ν) (above : before < w)
    (below : w < before + s.piece.size) (whole : values.isInteger (values.type s.lo) = true)
    (ordered : Ordered values s) (narrow : Narrow values s) :
    (inside values d s before w c).wrapped = c.wrapped := by
  unfold inside
  split
  · rename_i lo hi first last
    obtain ⟨width, next⟩ := narrow lo hi first last
    have le := ordered whole lo hi first last
    have share := d.within (hi - lo) (w - before) s.piece.size (by omega) width (by omega)
    have top := values.ranged s.hi hi last
    have bottom := values.ranged s.lo lo first
    rw [push_wrapped, wrap_fits (hi - lo) width, width, next]
    have sum : fits (lo + d.toInt (d.div (d.mul (d.ofInt (hi - lo)) (d.ofInt (w - before : Nat)))
        (d.ofInt s.piece.size))) = true := by
      unfold fits at top bottom ⊢
      rw [Bool.and_eq_true, decide_eq_true_eq, decide_eq_true_eq] at top bottom ⊢
      omega
    rw [sum]
    simp
  · rfl

theorem inside_narrow (s : Span ν) (before w : Nat) (c : Cutting ν)
    (goes : (inside values d s before w c).stopped = false)
    (unwrapped : (inside values d s before w c).wrapped = false) : Narrow values s := by
  unfold inside at goes unwrapped
  split at unwrapped
  · rename_i lo hi first last
    rw [push_wrapped] at unwrapped
    intro lo' hi' first' last'
    rw [first] at first'
    rw [last] at last'
    cases first'
    cases last'
    simp only [Bool.or_eq_false_iff, Bool.not_eq_false'] at unwrapped
    exact ⟨unwrapped.1.1.2, unwrapped.2⟩
  · rename_i none
    split at goes
    · rename_i lo hi first last
      exact absurd last (none lo hi first)
    · cases goes

theorem inside_grows (s : Span ν) (before w : Nat) (c : Cutting ν)
    (unwrapped : (inside values d s before w c).wrapped = false) : c.wrapped = false := by
  unfold inside at unwrapped
  split at unwrapped
  · rw [push_wrapped] at unwrapped
    simp only [Bool.or_eq_false_iff] at unwrapped
    exact unwrapped.1.1.1
  · exact unwrapped

theorem inside_length (s : Span ν) (before w : Nat) (c : Cutting ν)
    (goes : (inside values d s before w c).stopped = false) :
    (inside values d s before w c).out.length = c.out.length + 1 := by
  unfold inside at goes ⊢
  split at goes
  · exact (push_length _ _ goes).1
  · cases goes

theorem push_stopped (c : Cutting ν) (cut : Option ν) :
    (c.push cut).stopped = true ∨ (c.push cut).out.length = c.out.length + 1 := by
  cases goes : (c.push cut).stopped with
  | true => exact .inl rfl
  | false => exact .inr (push_length c cut goes).1

theorem inside_stopped (s : Span ν) (before w : Nat) (c : Cutting ν) :
    (inside values d s before w c).stopped = true ∨
      (inside values d s before w c).out.length = c.out.length + 1 := by
  cases goes : (inside values d s before w c).stopped with
  | true => exact .inl rfl
  | false => exact .inr (inside_length values d s before w c goes)

/-- A piece's cuts wrap nothing where it is narrow or no cut falls inside it. -/
theorem fill_wrapped (total n : Nat) (s : Span ν) (ordered : Ordered values s) (before : Nat)
    (clear : values.isInteger (values.type s.lo) = true → ∀ j, j + 1 < n →
      before < want total n j → want total n j < before + s.piece.size → Narrow values s)
    (k : Nat) (c : Cutting ν) (here : c.before = before)
    (room : c.stopped = true ∨ k + c.out.length + 1 ≤ n) :
    (fill values d total n s k c).wrapped = c.wrapped := by
  induction k generalizing c with
  | zero => rfl
  | succ k ih =>
    unfold fill
    simp only
    split
    · rfl
    · rename_i goes
      have short : k + 1 + c.out.length + 1 ≤ n := room.resolve_left goes
      split
      · rw [ih _ ((push_before c _).trans here), push_wrapped]
        exact (push_stopped c _).imp_right fun grown => by omega
      · rename_i above
        split
        · rename_i inner
          have narrow := clear inner.2 c.out.length (by omega)
            (by unfold want; omega) (by unfold want; omega)
          rw [ih _ ((inside_before values d s _ _ c).trans here)]
          · exact inside_wrapped values d s _ _ c (by omega) inner.1 inner.2 ordered narrow
          · exact (inside_stopped values d s _ _ c).imp_right fun grown => by omega
        · rfl

/-- What one piece's cuts are, when they do not stop. -/
structure Filled (total n : Nat) (s : Span ν) (c r : Cutting ν) : Prop where
  goes : c.stopped = false
  before : r.before = c.before
  longer : c.out.length ≤ r.out.length
  under : ∀ i, c.out.length ≤ i → i < r.out.length → want total n i < c.before + s.piece.size
  narrow : r.wrapped = false → ∀ i, c.out.length ≤ i → i < r.out.length →
    c.before < want total n i → Narrow values s
  past : r.out.length + 1 = n ∨ c.before + s.piece.size ≤ want total n r.out.length
  unwrapped : r.wrapped = false → c.wrapped = false

/-- One more cut first. -/
theorem Filled.cons {total n : Nat} {s : Span ν} {c next r : Cutting ν}
    (filled : Filled values total n s next r) (goes : c.stopped = false)
    (before : next.before = c.before) (length : next.out.length = c.out.length + 1)
    (under : want total n c.out.length < c.before + s.piece.size)
    (narrow : next.wrapped = false → c.before < want total n c.out.length → Narrow values s)
    (unwrapped : next.wrapped = false → c.wrapped = false) : Filled values total n s c r where
  goes := goes
  before := filled.before.trans before
  longer := by
    have := filled.longer
    omega
  under i low high := by
    by_cases first : i = c.out.length
    · exact first ▸ under
    · rw [← before]
      exact filled.under i (by omega) high
  narrow clean i low high above := by
    by_cases first : i = c.out.length
    · exact narrow (filled.unwrapped clean) (first ▸ above)
    · exact filled.narrow clean i (by omega) high (before ▸ above)
  past := before ▸ filled.past
  unwrapped clean := unwrapped (filled.unwrapped clean)

theorem fill_stopped (total n : Nat) (s : Span ν) (k : Nat) (c : Cutting ν)
    (stopped : c.stopped = true) : fill values d total n s k c = c := by
  cases k with
  | zero => rfl
  | succ k =>
    unfold fill
    simp only
    rw [if_pos stopped]

theorem fill_filled (total n : Nat) (s : Span ν)
    (whole : values.isInteger (values.type s.lo) = true) (k : Nat) (c : Cutting ν)
    (room : k + c.out.length + 1 = n)
    (goes : (fill values d total n s k c).stopped = false) :
    Filled values total n s c (fill values d total n s k c) := by
  have size : 0 < s.piece.size := Nat.le_max_right _ 1
  induction k generalizing c with
  | zero =>
    refine ⟨goes, rfl, Nat.le_refl _, ?_, ?_, .inl (by simpa [fill] using room), fun clean => clean⟩
    · intro i low high
      exact absurd high (Nat.not_lt.mpr low)
    · intro _ i low high
      exact absurd high (Nat.not_lt.mpr low)
  | succ k ih =>
    unfold fill at goes ⊢
    simp only at goes ⊢
    split at goes
    · rename_i stopped
      rw [stopped] at goes
      cases goes
    · rename_i going
      rw [if_neg going]
      have on : c.stopped = false := Bool.eq_false_iff.mpr going
      split at goes
      · rename_i low
        rw [if_pos low]
        have next : (c.push (some s.lo)).stopped = false := by
          by_contra stopped
          rw [fill_stopped values d total n s k _ (by simpa using stopped)] at goes
          exact stopped goes
        have grown := (push_length c _ next).1
        have filled := ih (c.push (some s.lo)) (by omega) goes
        apply filled.cons values on (push_before c _) grown
        · unfold want
          omega
        · intro _ above
          unfold want at above
          omega
        · intro clean
          exact (push_wrapped c _).symm.trans clean
      · rename_i low
        rw [if_neg low]
        split at goes
        · rename_i inner
          rw [if_pos inner]
          have next : (inside values d s c.before (total * (c.out.length + 1) / n) c).stopped =
              false := by
            by_contra stopped
            rw [fill_stopped values d total n s k _ (by simpa using stopped)] at goes
            exact stopped goes
          have grown := inside_length values d s _ _ c next
          have filled := ih _ (by omega) goes
          apply filled.cons values on (inside_before values d s _ _ c) grown
          · exact inner.1
          · intro clean _
            exact inside_narrow values d s _ _ c next clean
          · exact inside_grows values d s _ _ c
        · rename_i outer
          rw [if_neg outer]
          have beyond : c.before + s.piece.size ≤ want total n c.out.length := by
            by_contra within
            exact outer ⟨by unfold want at within; omega, whole⟩
          refine ⟨on, rfl, Nat.le_refl _, ?_, ?_, .inr beyond, fun clean => clean⟩
          · intro i low high
            exact absurd high (Nat.not_lt.mpr low)
          · intro _ i low high
            exact absurd high (Nat.not_lt.mpr low)

theorem fill_before (total n : Nat) (s : Span ν) (k : Nat) (c : Cutting ν) :
    (fill values d total n s k c).before = c.before := by
  induction k generalizing c with
  | zero => rfl
  | succ k ih =>
    unfold fill
    simp only
    split
    · rfl
    · split
      · rw [ih, push_before]
      · split
        · rw [ih, inside_before]
        · rfl

/-- The cuts are never more than asked for. -/
theorem fill_length (total n : Nat) (s : Span ν) (k : Nat) (c : Cutting ν) :
    (fill values d total n s k c).out.length ≤ c.out.length + k := by
  have pushed (c : Cutting ν) (cut : Option ν) : (c.push cut).out.length ≤ c.out.length + 1 := by
    cases cut with
    | none => exact Nat.le_succ _
    | some v =>
      unfold Cutting.push
      simp only
      split
      · exact Nat.le_succ _
      · simp
  induction k generalizing c with
  | zero => exact Nat.le_refl _
  | succ k ih =>
    unfold fill
    simp only
    split
    · omega
    · split
      · have := ih (c.push (some s.lo))
        have := pushed c (some s.lo)
        omega
      · split
        · have := ih (inside values d s c.before (total * (c.out.length + 1) / n) c)
          have : (inside values d s c.before (total * (c.out.length + 1) / n) c).out.length ≤
              c.out.length + 1 := by
            unfold inside
            split
            · exact pushed _ _
            · exact Nat.le_succ _
          omega
        · omega

theorem run_stopped (total n : Nat) (spans : List (Span ν)) (c : Cutting ν)
    (stopped : c.stopped = true) : spans.foldl (Cutting.past values d total n) c = c := by
  induction spans with
  | nil => rfl
  | cons s rest ih =>
    rw [List.foldl_cons, show c.past values d total n s = c from if_pos stopped]
    exact ih

theorem past_going (total n : Nat) (s : Span ν) (c : Cutting ν) (goes : c.stopped = false) :
    c.past values d total n s =
      { fill values d total n s (n - 1 - c.out.length) c with
        before := (fill values d total n s (n - 1 - c.out.length) c).before + s.piece.size } := by
  unfold Cutting.past
  rw [if_neg (Bool.eq_false_iff.mp goes)]

theorem fill_unwrapped (total n : Nat) (s : Span ν) (k : Nat) (c : Cutting ν)
    (clean : (fill values d total n s k c).wrapped = false) : c.wrapped = false := by
  induction k generalizing c with
  | zero => exact clean
  | succ k ih =>
    unfold fill at clean
    simp only at clean
    split at clean
    · exact clean
    · split at clean
      · exact (push_wrapped c _).symm.trans (ih _ clean)
      · split at clean
        · exact inside_grows values d s _ _ c (ih _ clean)
        · exact clean

theorem run_unwrapped (total n : Nat) (spans : List (Span ν)) (c : Cutting ν)
    (clean : (spans.foldl (Cutting.past values d total n) c).wrapped = false) :
    c.wrapped = false := by
  induction spans generalizing c with
  | nil => exact clean
  | cons s rest ih =>
    have first := ih (c.past values d total n s) clean
    unfold Cutting.past at first
    split at first
    · exact first
    · exact fill_unwrapped values d total n s _ c first

/-- Over all the pieces, where each that is cut inside is narrow nothing wraps. -/
theorem past_wrapped (total n : Nat) (spans : List (Span ν)) (before : Nat)
    (ordered : ∀ s ∈ spans, Ordered values s)
    (clear : ∀ pre s post, spans = pre ++ s :: post →
      values.isInteger (values.type s.lo) = true → ∀ j, j + 1 < n →
        before + (pre.map (·.piece.size)).sum < want total n j →
          want total n j < before + (pre.map (·.piece.size)).sum + s.piece.size → Narrow values s)
    (c : Cutting ν) (here : c.before = before) (room : c.out.length + 1 ≤ n) :
    (spans.foldl (Cutting.past values d total n) c).wrapped = c.wrapped := by
  induction spans generalizing before c with
  | nil => rfl
  | cons s rest ih =>
    cases goes : c.stopped with
    | true => rw [run_stopped values d total n (s :: rest) c goes]
    | false =>
      have wrapped := fill_wrapped values d total n s (ordered s List.mem_cons_self) before
        (fun whole j short low high => clear [] s rest rfl whole j short (by simpa using low)
          (by simpa using high)) (n - 1 - c.out.length) c here (.inr (by omega))
      have length := fill_length values d total n s (n - 1 - c.out.length) c
      rw [List.foldl_cons, past_going values d total n s c goes]
      refine (ih (before + s.piece.size) (fun u inside => ordered u (List.mem_cons_of_mem s inside))
        ?_ _ ?_ ?_).trans wrapped
      · intro pre u post split whole j short low high
        apply clear (s :: pre) u post (by rw [split, List.cons_append]) whole j short
        · simp only [List.map_cons, List.sum_cons]
          omega
        · simp only [List.map_cons, List.sum_cons]
          omega
      · exact congrArg (· + s.piece.size) ((fill_before values d total n s _ c).trans here)
      · show (fill values d total n s (n - 1 - c.out.length) c).out.length + 1 ≤ n
        omega

/-- Where all the cuts come out and nothing wrapped, each piece cut inside was narrow. -/
theorem past_narrow (total n : Nat) (spans : List (Span ν))
    (whole : ∀ s ∈ spans, values.isInteger (values.type s.lo) = true) (c : Cutting ν)
    (room : c.out.length + 1 ≤ n) (done : ∀ i, i < c.out.length → want total n i < c.before)
    (goes : (spans.foldl (Cutting.past values d total n) c).stopped = false)
    (clean : (spans.foldl (Cutting.past values d total n) c).wrapped = false)
    (pre : List (Span ν)) (s : Span ν) (post : List (Span ν)) (split : spans = pre ++ s :: post)
    (j : Nat) (short : j + 1 < n) (low : c.before + (pre.map (·.piece.size)).sum < want total n j)
    (high : want total n j < c.before + (pre.map (·.piece.size)).sum + s.piece.size) :
    Narrow values s := by
  induction spans generalizing c pre with
  | nil => simp at split
  | cons u rest ih =>
    have first : c.stopped = false := by
      by_contra stopped
      rw [run_stopped values d total n (u :: rest) c (by simpa using stopped)] at goes
      exact stopped goes
    rw [List.foldl_cons, past_going values d total n u c first] at goes clean
    have going : (fill values d total n u (n - 1 - c.out.length) c).stopped = false := by
      by_contra stopped
      rw [run_stopped values d total n rest _ (by simpa using stopped)] at goes
      exact stopped goes
    have filled := fill_filled values d total n u (whole u List.mem_cons_self)
      (n - 1 - c.out.length) c (by omega) going
    have length := fill_length values d total n u (n - 1 - c.out.length) c
    cases pre with
    | nil =>
      cases split
      simp only [List.map_nil, List.sum_nil, Nat.add_zero] at low high
      have start : c.out.length ≤ j := by
        by_contra early
        have := done j (by omega)
        omega
      have upTo : j < (fill values d total n s (n - 1 - c.out.length) c).out.length := by
        cases filled.past with
        | inl last => omega
        | inr beyond =>
          by_contra late
          have := want_mono total n _ j (Nat.not_lt.mp late)
          omega
      have kept : (fill values d total n s (n - 1 - c.out.length) c).wrapped = false := by
        have := run_unwrapped values d total n post _ clean
        exact this
      exact filled.narrow kept j start upTo low
    | cons first' pre =>
      obtain ⟨rfl, others⟩ := List.cons.inj split
      have before := filled.before
      simp only [List.map_cons, List.sum_cons] at low high
      refine ih (fun u inside => whole u (List.mem_cons_of_mem _ inside)) _ ?_ ?_ goes clean pre others
        ?_ ?_
      · show (fill values d total n u (n - 1 - c.out.length) c).out.length + 1 ≤ n
        omega
      · intro i inside
        show want total n i < (fill values d total n u (n - 1 - c.out.length) c).before + u.piece.size
        rw [before]
        by_cases old : i < c.out.length
        · have := done i old
          omega
        · exact filled.under i (by omega) inside
      · show (fill values d total n u (n - 1 - c.out.length) c).before + u.piece.size +
          (pre.map (·.piece.size)).sum < want total n j
        omega
      · show want total n j < (fill values d total n u (n - 1 - c.out.length) c).before +
          u.piece.size + (pre.map (·.piece.size)).sum + s.piece.size
        omega

/-- The cuts wrap nothing where every piece of whole numbers a cut falls inside is narrow. -/
theorem cutting_unwrapped (spans : List (Span ν)) (n : Nat) (first : 1 ≤ n)
    (ordered : ∀ s ∈ spans, Ordered values s) (clear : Clear values spans n) :
    (cutting values d spans n).wrapped = false := by
  rw [cutting_eq]
  exact past_wrapped values d _ n spans 0 ordered
    (fun pre s post split whole j short low high => clear pre s post split whole j short
      (by simpa using low) (by simpa using high)) ⟨[], 0, false, false⟩ rfl (by simpa using first)

/-- Cuts that come out wrap nothing only there. -/
theorem cuts_unwrapped (t : T) (spans : List (Span ν)) (n : Nat) (out : List ν)
    (typed : ∀ s ∈ spans, values.type s.lo = t) (ordered : ∀ s ∈ spans, Ordered values s)
    (given : cuts values d spans n = some out) :
    (cutting values d spans n).wrapped = false ↔ Clear values spans n := by
  have first : 1 ≤ n := by
    have length := (cuts_rise values d t spans n out typed given).2.2
    omega
  refine ⟨fun clean => ?_, cutting_unwrapped values d spans n first ordered⟩
  unfold cuts at given
  simp only at given
  split at given
  · rename_i done
    rw [cutting_eq] at done clean
    intro pre s post split whole j short low high
    have same := typed s (by rw [split]; simp)
    exact past_narrow values d _ n spans
      (fun u inside => by rw [typed u inside, ← same, whole]) ⟨[], 0, false, false⟩
      (by simpa using first) nofun done.1 clean pre s post split j short (by simpa using low)
      (by simpa using high)
  · cases given

/-! ### The slices hold each row once -/

theorem span_piece (column : String) (t : T) (p : Piece ν) (s : Span ν)
    (found : span values column t p = some s) :
    s.piece = p ∧ values.type s.lo = t ∧ values.type s.hi = t ∧ s.nulls = p.mayNull column ∧
      ∃ lo hi, p.stats column = some (lo, hi) ∧ values.parse t lo = some s.lo ∧
        values.parse t hi = some s.hi := by
  unfold span at found
  cases stats : p.stats column with
  | none => simp [stats] at found
  | some bounds =>
    obtain ⟨lo, hi⟩ := bounds
    cases low : values.parse t lo with
    | none => simp [stats, low] at found
    | some a =>
      cases high : values.parse t hi with
      | none => simp [stats, low, high] at found
      | some b =>
        simp only [stats, low, high, Option.bind_eq_bind, Option.bind_some, Option.some.injEq] at found
        subst found
        exact ⟨rfl, values.parsed t lo a low, values.parsed t hi b high, rfl, lo, hi, rfl, low, high⟩

theorem mapM_spans (column : String) (t : T) (ps : List (Piece ν)) (out : List (Span ν))
    (found : ps.mapM (span values column t) = some out) :
    out.map (·.piece) = ps ∧ ∀ s ∈ out, span values column t s.piece = some s := by
  induction ps generalizing out with
  | nil =>
    cases found
    exact ⟨rfl, nofun⟩
  | cons p rest ih =>
    rw [List.mapM_cons] at found
    cases first : span values column t p with
    | none => simp [first] at found
    | some s =>
      cases others : rest.mapM (span values column t) with
      | none => simp [first, others] at found
      | some more =>
        simp only [first, others, Option.pure_def, Option.bind_eq_bind, Option.bind_some,
          Option.some.injEq] at found
        subst found
        obtain ⟨pieces, each⟩ := ih more others
        have same := (span_piece values column t p s first).1
        refine ⟨by rw [List.map_cons, same, pieces], fun u inside => ?_⟩
        cases inside with
        | head => rw [same, first]
        | tail _ later => exact each u later

theorem spans_spec (column : String) (t : T) (ps : List (Piece ν)) (out : List (Span ν))
    (found : spans values ps column t = some out) :
    (out.map (·.piece)).Perm ps ∧ ∀ s ∈ out, span values column t s.piece = some s := by
  unfold spans at found
  cases mapped : ps.mapM (span values column t) with
  | none => simp [mapped] at found
  | some l =>
    rw [mapped, Option.map_some, Option.some.injEq] at found
    subst found
    obtain ⟨pieces, each⟩ := mapM_spans values column t ps l mapped
    have perm := List.perm_insertionSort (fun a b : Span ν => a.lo ≤ b.lo) l
    refine ⟨pieces ▸ perm.map _, fun s inside => each s (perm.mem_iff.mp inside)⟩

theorem mapM_texts (cuts : List ν) (texts : List String)
    (found : cuts.mapM values.text = some texts) :
    texts.length = cuts.length ∧
      ∀ (i : Nat) (c : ν), cuts[i]? = some c → ∃ s, texts[i]? = some s ∧ values.text c = some s := by
  induction cuts generalizing texts with
  | nil =>
    cases found
    exact ⟨rfl, nofun⟩
  | cons first rest ih =>
    rw [List.mapM_cons] at found
    cases text : values.text first with
    | none => simp [text] at found
    | some s =>
      cases others : rest.mapM values.text with
      | none => simp [text, others] at found
      | some more =>
        simp only [text, others, Option.pure_def, Option.bind_eq_bind, Option.bind_some,
          Option.some.injEq] at found
        subst found
        obtain ⟨length, each⟩ := ih more others
        refine ⟨by rw [List.length_cons, List.length_cons, length], fun i c here => ?_⟩
        cases i with
        | zero =>
          rw [List.getElem?_cons_zero] at here ⊢
          exact ⟨s, rfl, Option.some.inj here ▸ text⟩
        | succ i =>
          rw [List.getElem?_cons_succ] at here ⊢
          exact each i c here

/-- A row is in a range: its value's slot, or the first if it has none. -/
def Held (cuts : List ν) (column : String) (i : Nat) (row : Row ν) : Prop :=
  match row column with
  | none => i = 0
  | some v => In cuts i v

/-- The cuts written as text and read back are the cuts. -/
theorem range_expr (t : T) (cuts : List ν) (texts : List String) (column : String) (i : Nat)
    (typed : ∀ cut ∈ cuts, values.type cut = t) (found : cuts.mapM values.text = some texts)
    (within : i ≤ cuts.length) :
    ∃ keeps, Range.expr values ⟨column, if 0 < i then texts[i - 1]? else none,
        if i + 1 < cuts.length + 1 then texts[i]? else none⟩ t = some keeps ∧
      ∀ row, keeps row = true ↔ Held cuts column i row := by
  obtain ⟨length, each⟩ := mapM_texts values cuts texts found
  have read (j : Nat) (short : j < cuts.length) :
      ∃ s, texts[j]? = some s ∧ values.parse t s = some cuts[j] := by
    obtain ⟨s, there, text⟩ := each j cuts[j] (List.getElem?_eq_getElem short)
    refine ⟨s, there, ?_⟩
    have := values.exact cuts[j] s text
    rwa [typed _ (List.getElem_mem short)] at this
  have upper (v : ν) (short : i < cuts.length) :
      (∀ c, cuts[i]? = some c → v < c) ↔ v < cuts[i] := by
    rw [List.getElem?_eq_getElem short]
    simp
  have none (v : ν) (last : ¬ i < cuts.length) : ∀ c, cuts[i]? = some c → v < c := by
    intro c here
    rw [List.getElem?_eq_none (Nat.not_lt.mp last)] at here
    cases here
  unfold Range.expr Held In
  by_cases first : 0 < i
  · have before : i - 1 < cuts.length := by omega
    obtain ⟨lo, low, parsed⟩ := read (i - 1) before
    have lower (v : ν) : (∀ c, 0 < i → cuts[i - 1]? = some c → c ≤ v) ↔
        cuts[i - 1] ≤ v := by
      rw [List.getElem?_eq_getElem before]
      simp [first]
    by_cases last : i < cuts.length
    · obtain ⟨hi, high, parsed'⟩ := read i last
      refine ⟨_, by simp only [first, last, if_true, Nat.add_lt_add_iff_right, low, high, parsed,
        parsed', Option.bind_eq_bind, Option.bind_some]; rfl, fun row => ?_⟩
      cases row column with
      | none => simp; omega
      | some v => simp only [Option.any_some, Bool.and_eq_true, decide_eq_true_eq, lower, upper v last]
    · refine ⟨_, by simp only [first, last, if_true, if_false, Nat.add_lt_add_iff_right, low, parsed,
        Option.bind_eq_bind, Option.bind_some]; rfl, fun row => ?_⟩
      cases row column with
      | none => simp; omega
      | some v =>
        simp only [Option.any_some, decide_eq_true_eq, lower]
        exact (and_iff_left (none v last)).symm
  · have zero : i = 0 := by omega
    by_cases last : i < cuts.length
    · obtain ⟨hi, high, parsed⟩ := read i last
      refine ⟨_, by simp only [first, last, if_true, if_false, Nat.add_lt_add_iff_right, high, parsed,
        Option.bind_eq_bind, Option.bind_some]; rfl, fun row => ?_⟩
      cases row column with
      | none => simp [zero]
      | some v => simp only [Option.all_some, decide_eq_true_eq, upper v last, first]; simp
    · refine ⟨_, by simp only [first, last, if_false, Nat.add_lt_add_iff_right]; rfl, fun row => ?_⟩
      cases row column with
      | none => simp [zero]
      | some v =>
        have out : ∀ c, 0 < i → cuts[i - 1]? = some c → c ≤ v := fun c later => absurd later first
        exact iff_of_true rfl ⟨out, none v last⟩

end slicing

end Pondra.Ranges
