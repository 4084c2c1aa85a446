import Mathlib.Algebra.GroupWithZero.Nat
import Mathlib.Data.List.Sort
import Mathlib.Data.List.Dedup
import Mathlib.Order.MinMax

set_option autoImplicit false

/-! ### Where a catch-up's steps stop -/

namespace Pondra.Matches

def minLong : Int := -9223372036854775808
def maxLong : Int := 9223372036854775807

def Long (x : Int) : Prop := minLong ≤ x ∧ x ≤ maxLong

instance (x : Int) : Decidable (Long x) := inferInstanceAs (Decidable (minLong ≤ x ∧ x ≤ maxLong))

/-- An i64's value where it has one. -/
def checked (x : Int) : Option Int := if Long x then some x else none

def saturating (x : Int) : Int := max minLong (min x maxLong)

def wrapping (x : Int) : Int := if x = maxLong + 1 then minLong else x

inductive TimeUnit
  | Second
  | Millisecond
  | Microsecond
  | Nanosecond
  deriving DecidableEq

/-- A time in µs, as the time column's type. -/
def stamp : TimeUnit → Int → Option Int
  | .Second, us => some (us.tdiv 1000000)
  | .Millisecond, us => some (us.tdiv 1000)
  | .Microsecond, us => some us
  | .Nanosecond, us => checked (us * 1000)

/-- A time of the column, cast to µs. -/
def micros : TimeUnit → Int → Option Int
  | .Second, t => checked (t * 1000000)
  | .Millisecond, t => checked (t * 1000)
  | .Microsecond, t => some t
  | .Nanosecond, t => some (t.tdiv 1000)

/-- The least whole µs `c` with `t <= stamp(c)`, as `span` compares: a ceiling for a ns column, a cast otherwise. -/
def leastMicros (unit : TimeUnit) (t : Int) : Option Int :=
  match unit with
  | .Nanosecond => some (t.tdiv 1000 + if t.tmod 1000 > 0 then 1 else 0)
  | _ => micros unit t

/-- The rows' times of the span (W0, W]: at or before W, and after W0 once W0 is past the start. -/
def span (unit : TimeUnit) (times : List Int) (w0 w : Int) : Option (List Int) :=
  match stamp unit w with
  | none => none
  | some upto =>
    if 0 < w0 then
      (stamp unit w0).map fun after => times.filter fun t => t ≤ upto ∧ after < t
    else some (times.filter fun t => t ≤ upto)

/-- The exact cut: W, or, when (W0, W] holds `most` rows, 1 µs past its `most`-th row's time, and at least 1. -/
def cut (unit : TimeUnit) (times : List Int) (w0 w : Int) (most : Nat) : Option Int :=
  (span unit times w0 w).map fun rows =>
    match (rows.insertionSort (· ≤ ·))[most - 1]? with
    | some t => min (max (wrapping ((micros unit t).getD 0 + 1)) 1) w
    | none => w

/-- About how many slices of time a catch-up's pass counts its rows in. -/
def slices : Int := 4096

/-- The rows' µs counted in slices of `width` from `lo`, in order. -/
def counted (uss : List Int) (lo width : Int) : List (Int × Nat) :=
  let s := uss.map fun u => (u - lo).tdiv width
  (s.dedup.insertionSort (· ≤ ·)).map fun one => (one, s.count one)

/-- A cut before a slice that would take the `acc` rows since the last cut past `most`; a slice holding more than
`most` rows alone is full. -/
def place (lo width w : Int) (most : Nat) : Nat → List (Int × Nat) → List (Int × Bool)
  | _, [] => []
  | acc, (s, n) :: rest =>
    let start := saturating (lo + saturating (s * width))
    let last := min (saturating (start + (width - 1))) w
    if most < n then
      if 0 < acc then (start - 1, false) :: (last, true) :: place lo width w most 0 rest
      else (last, true) :: place lo width w most 0 rest
    else if most < acc + n then (start - 1, false) :: place lo width w most n rest
    else place lo width w most (acc + n) rest

/-- A point at least 1, and one per time: full if any of its equals was. -/
def onePerTime (out : List (Int × Bool)) (point : Int × Bool) : List (Int × Bool) :=
  let c := max point.1 1
  match out.getLast? with
  | none => [(c, point.2)]
  | some last =>
    if last.1 = c then out.dropLast ++ [(c, last.2 || point.2)] else out ++ [(c, point.2)]

/-- The slices' lowest µs: W0+1, or at W0 0 the span's first time; none inside when the span has no rows. -/
def lowest (unit : TimeUnit) (rows : List Int) (w0 : Int) : Option (Option Int) :=
  if 0 < w0 then some (some (w0 + 1)) else (rows.mapM (leastMicros unit)).map List.min?

/-- Where a catch-up's steps stop, from one pass over the span (W0, W]; a full point's step stops by the exact `cut`
within it. None when a time can't be cast. -/
def cutPoints (unit : TimeUnit) (times : List Int) (w0 w : Int) (most : Nat) :
    Option (List (Int × Bool)) :=
  match span unit times w0 w with
  | none => none
  | some rows =>
    match lowest unit rows w0 with
    | none => none
    | some none => some []
    | some (some lo) =>
      if ¬ Long (w - lo) then some [(w, true)]
      else
        let width := (w - lo).tdiv slices + 1
        match rows.mapM (leastMicros unit) with
        | none => none
        | some uss =>
          let all := counted uss lo width
          if (all.map Prod.snd).sum ≤ most then some []
          else some ((place lo width w most 0 all).foldl onePerTime [])

/-- The time a step decides up to, with the points still ahead: the next of `points`, worked out when none is left
past W0, at most W; within a full slice, the exact `cut`; with no point, W. -/
def nextCut (unit : TimeUnit) (times : List Int) (points : List (Int × Bool)) (w0 w : Int)
    (most : Nat) : Option (List (Int × Bool) × Int) :=
  let ahead := points.filter fun point => w0 < point.1
  match if ahead = [] then cutPoints unit times w0 w most else some ahead with
  | none => none
  | some [] => some ([], w)
  | some ((c, full) :: rest) =>
    if full then (cut unit times w0 (min c w) most).map fun to_ => ((c, full) :: rest, to_)
    else some ((c, full) :: rest, min c w)

/-- What a view's steps keep: the time decided up to, and the points still ahead. -/
structure Run where
  w0 : Int
  points : List (Int × Bool)
  deriving DecidableEq

/-- One step of a run: its span's end, and what it leaves. A step that finds no row, and no due key or late row
(`busy`), commits nothing, and short of the watermark forgets the points. -/
def step (unit : TimeUnit) (times : List Int) (w : Int) (most : Nat) (busy : Bool) (run : Run) :
    Option (Run × Int) :=
  match nextCut unit times run.points run.w0 w most with
  | none => none
  | some (points, c) =>
    match span unit times run.w0 c with
    | none => none
    | some rows =>
      if rows = [] ∧ busy = false then
        some (⟨run.w0, if c < w then [] else points⟩, c)
      else some (⟨c, points⟩, c)

/-- The spans the steps of `n` rounds cover, until one reaches the watermark; round `i` finds due keys or late rows
where `busy i`. -/
def rounds (unit : TimeUnit) (times : List Int) (w : Int) (most : Nat) (busy : Nat → Bool) :
    Nat → Nat → Run → Option (List (Int × Int))
  | 0, _, _ => some []
  | n + 1, i, run =>
    match step unit times w most (busy i) run with
    | none => none
    | some (left, c) =>
      if c = w then some [(run.w0, c)]
      else (rounds unit times w most busy n (i + 1) left).map fun others => (run.w0, c) :: others

/-! ### Times in µs -/

/-- A time in µs, a part of one counted whole. -/
def ceilMicros : TimeUnit → Int → Int
  | .Second, t => t * 1000000
  | .Millisecond, t => t * 1000
  | .Microsecond, t => t
  | .Nanosecond, t => -((-t) / 1000)

theorem ceil_mono (unit : TimeUnit) {s t : Int} (before : s ≤ t) : ceilMicros unit s ≤ ceilMicros unit t := by
  cases unit <;> simp only [ceilMicros] <;> omega

/-- A time is at or before a stamp when its µs are at or before the stamp's. -/
theorem stamp_iff (unit : TimeUnit) (c s t : Int) (whole : 0 ≤ c) (stamped : stamp unit c = some s) :
    t ≤ s ↔ ceilMicros unit t ≤ c := by
  cases unit with
  | Second =>
    cases stamped
    rw [Int.tdiv_eq_ediv_of_nonneg whole]
    simp only [ceilMicros]
    omega
  | Millisecond =>
    cases stamped
    rw [Int.tdiv_eq_ediv_of_nonneg whole]
    simp only [ceilMicros]
    omega
  | Microsecond =>
    cases stamped
    exact Iff.rfl
  | Nanosecond =>
    simp only [stamp, checked] at stamped
    split at stamped
    · cases stamped
      simp only [ceilMicros]
      omega
    · cases stamped

theorem checked_some (x : Int) : checked x ≠ none ↔ Long x := by
  unfold checked
  split <;> simp_all

/-- What has a stamp, all before it from 0 on have. -/
theorem stamp_le (unit : TimeUnit) (c d : Int) (whole : 0 ≤ c) (before : c ≤ d)
    (stamped : stamp unit d ≠ none) : stamp unit c ≠ none := by
  cases unit with
  | Second => exact nofun
  | Millisecond => exact nofun
  | Microsecond => exact nofun
  | Nanosecond =>
    have long := (checked_some _).mp stamped
    refine (checked_some _).mpr ?_
    simp only [Long, minLong, maxLong] at long ⊢
    omega

theorem tdiv_ceil (t : Int) : (t.tdiv 1000 + if t.tmod 1000 > 0 then 1 else 0) = -((-t) / 1000) := by
  have sign : Int.sign 1000 = 1 := rfl
  rw [Int.tdiv_eq_ediv, Int.tmod_eq_emod, sign]
  split <;> split <;> omega

theorem least_some (unit : TimeUnit) (t : Int) (long : Long (ceilMicros unit t)) :
    leastMicros unit t = some (ceilMicros unit t) := by
  cases unit with
  | Second => exact if_pos long
  | Millisecond => exact if_pos long
  | Microsecond => rfl
  | Nanosecond => exact congrArg some (tdiv_ceil t)

/-- A cast drops a part of a µs, or, below 1970, keeps it. -/
theorem micros_near (unit : TimeUnit) (t : Int) (long : Long (ceilMicros unit t)) :
    ∃ m, micros unit t = some m ∧ (m = ceilMicros unit t ∨ m = ceilMicros unit t - 1) := by
  cases unit with
  | Second => exact ⟨_, if_pos long, .inl rfl⟩
  | Millisecond => exact ⟨_, if_pos long, .inl rfl⟩
  | Microsecond => exact ⟨_, rfl, .inl rfl⟩
  | Nanosecond =>
    refine ⟨_, rfl, ?_⟩
    have whole := tdiv_ceil t
    simp only [ceilMicros]
    split at whole <;> omega

/-! ### Spans -/

def inside (unit : TimeUnit) (a c t : Int) : Prop := ceilMicros unit t ≤ c ∧ (0 < a → a < ceilMicros unit t)

instance (unit : TimeUnit) (a c t : Int) : Decidable (inside unit a c t) :=
  inferInstanceAs (Decidable (ceilMicros unit t ≤ c ∧ (0 < a → a < ceilMicros unit t)))

/-- The times of (a, c]; from 0, the start, all up to c. -/
def within (unit : TimeUnit) (times : List Int) (a c : Int) : List Int := times.filter fun t => inside unit a c t

theorem span_eq (unit : TimeUnit) (times : List Int) (a c : Int) (start : 0 ≤ a) (after : a < c)
    (stamped : stamp unit c ≠ none) : span unit times a c = some (within unit times a c) := by
  obtain ⟨upto, top⟩ := Option.ne_none_iff_exists'.mp stamped
  have upper (t : Int) := stamp_iff unit c upto t (by omega) top
  simp only [span, top]
  split
  · rename_i past
    obtain ⟨from_, bottom⟩ := Option.ne_none_iff_exists'.mp
      (stamp_le unit a c start after.le stamped)
    have lower (t : Int) := stamp_iff unit a from_ t start bottom
    rw [bottom, Option.map_some]
    congr 1
    apply List.filter_congr
    intro t _
    simp only [inside, upper, past, true_imp_iff, ← not_le, lower]
  · rename_i first
    congr 1
    apply List.filter_congr
    intro t _
    simp only [inside, upper, first, false_imp_iff, and_true]

/-- Every time can be cast to µs, and the watermark to the column's type. -/
structure Fits (unit : TimeUnit) (times : List Int) (w : Int) : Prop where
  times : ∀ t ∈ times, minLong ≤ ceilMicros unit t
  stamp : stamp unit w ≠ none

/-! ### The exact cut -/

/-- More than `most` rows only where those past the `most`-th are of its microsecond `m`, or of the one the cut
ends in. -/
def Shares (unit : TimeUnit) (most : Nat) (c : Int) (rows : List Int) : Prop :=
  rows.length ≤ most ∨
    ∃ m, (rows.filter fun t => ceilMicros unit t < m).length < most ∧
      ∀ t ∈ rows, ceilMicros unit t < m ∨ ceilMicros unit t = m ∨ ceilMicros unit t = c

/-- What lies before the element at `i` of a list in order is before `i`. -/
theorem before_at (l : List Int) (sorted : l.Pairwise (· ≤ ·)) (i : Nat) (t : Int)
    (found : l[i]? = some t) (p : Int → Bool) (less : ∀ x, p x = true → x < t) :
    (l.filter p).length ≤ i := by
  obtain ⟨bound, at_⟩ := List.getElem?_eq_some_iff.mp found
  have parts : l = l.take i ++ l.drop i := (List.take_append_drop i l).symm
  have head : l.drop i = t :: l.drop (i + 1) := by
    rw [← at_]
    exact List.drop_eq_getElem_cons bound
  have later : (l.drop i).filter p = [] := by
    rw [List.filter_eq_nil_iff]
    intro x member px
    have short := less x px
    rw [head] at member
    have order := sorted.sublist (List.drop_sublist i l)
    rw [head] at order
    rcases List.mem_cons.mp member with rfl | rest
    · omega
    · have more := (List.pairwise_cons.mp order).1 x rest
      omega
  rw [parts, List.filter_append, later, List.append_nil]
  exact (List.length_filter_le _ _).trans (by rw [List.length_take]; omega)

theorem within_sublist (unit : TimeUnit) (times : List Int) (a c d : Int) (upto : c ≤ d) :
    (within unit times a c).Sublist (within unit times a d) := by
  apply List.monotone_filter_right
  intro t in_
  have both := of_decide_eq_true in_
  exact decide_eq_true ⟨both.1.trans upto, both.2⟩

theorem mem_within (unit : TimeUnit) (times : List Int) (a c t : Int) :
    t ∈ within unit times a c ↔ t ∈ times ∧ inside unit a c t := by
  simp only [within, List.mem_filter, decide_eq_true_eq]

/-- The exact cut moves on, takes a row where it stops short, and shares its last microseconds only. -/
theorem cut_spec (unit : TimeUnit) (times : List Int) (w a c : Int) (most : Nat) (some_ : 1 ≤ most)
    (fits : Fits unit times w) (start : 0 ≤ a) (after : a < c) (upto : c ≤ w) (short : w < maxLong) :
    ∃ d, cut unit times a c most = some d ∧ a < d ∧ d ≤ c ∧
      (d = 1 ∨ Shares unit most d (within unit times a d)) ∧ (within unit times a d ≠ [] ∨ d = c) := by
  have spans := span_eq unit times a c start after (stamp_le unit c w (by omega) upto fits.stamp)
  simp only [cut, spans, Option.map_some]
  generalize order : (within unit times a c).insertionSort (· ≤ ·) = rows
  have sorted : rows.Pairwise (· ≤ ·) := by
    rw [← order]
    exact List.pairwise_insertionSort _ _
  have perm : rows.Perm (within unit times a c) := by
    rw [← order]
    exact List.perm_insertionSort _ _
  cases found : rows[most - 1]? with
  | none =>
    have few := List.getElem?_eq_none_iff.mp found
    rw [perm.length_eq] at few
    exact ⟨c, rfl, after, le_refl c, .inr (.inl (by omega)), .inr rfl⟩
  | some t =>
    have member := perm.mem_iff.mp (List.mem_of_getElem? found)
    obtain ⟨known, top, low⟩ := (mem_within unit times a c t).mp member
    have least := fits.times t known
    have long : Long (ceilMicros unit t) := ⟨least, by omega⟩
    obtain ⟨m, cast, near⟩ := micros_near unit t long
    have plain : wrapping (m + 1) = m + 1 := by
      refine if_neg ?_
      omega
    simp only [cast, Option.getD_some, plain]
    refine ⟨_, rfl, by omega, by omega, ?_, ?_⟩
    · by_cases first : min (max (m + 1) 1) c = 1
      · exact .inl first
      refine .inr (.inr ⟨ceilMicros unit t, ?_, ?_⟩)
      · have before := before_at rows sorted (most - 1) t found
          (fun x => ceilMicros unit x < ceilMicros unit t) fun x less => by
            by_contra not
            have more := ceil_mono unit (not_lt.mp not)
            have less' := of_decide_eq_true less
            omega
        have fewer := ((within_sublist unit times a (min (max (m + 1) 1) c) c (by omega)).filter
          fun x => ceilMicros unit x < ceilMicros unit t).length_le
        rw [(perm.filter _).length_eq] at before
        omega
      · intro x in_
        have inside := ((mem_within unit times a _ x).mp in_).2.1
        omega
    · by_cases stops : ceilMicros unit t ≤ min (max (m + 1) 1) c
      · exact .inl (List.ne_nil_of_mem ((mem_within unit times a _ t).mpr ⟨known, stops, low⟩))
      · omega

end Pondra.Matches
