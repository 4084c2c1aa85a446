import Mathlib.Data.Int.Order.Basic
import Mathlib.Data.List.SplitBy

set_option autoImplicit false

namespace Gaps

variable {α : Type} (time : α → Int) (gap : Int)

/-- Is an element less than a gap after the one before it? -/
def near (a b : α) : Bool := decide (time b - gap < time a)

/-- Elements in time order, cut where a gap falls. -/
def runs (l : List α) : List (List α) := l.splitBy (near time gap)

/-- A gap after a run's last element. -/
def ends (run : List α) : Int := (run.map time).max?.getD 0 + gap

def starts (run : List α) : Int := (run.map time).min?.getD 0

/-- In time order. -/
def Sorted (l : List α) : Prop := l.Pairwise fun a b => time a ≤ time b

/-- Everything in one is a gap or more before everything in the other. -/
def Apart (before after : List α) : Prop := ∀ a ∈ before, ∀ b ∈ after, time a + gap ≤ time b

variable {time gap}

theorem le_ends (run : List α) (a : α) (inside : a ∈ run) : time a + gap ≤ ends time gap run := by
  have there : time a ∈ run.map time := List.mem_map_of_mem inside
  rw [ends]
  cases most : (run.map time).max? with
  | none =>
    rw [List.max?_eq_none_iff.mp most] at there
    cases there
  | some m =>
    have := (List.max?_eq_some_iff.mp most).2 _ there
    rw [Option.getD_some]
    omega

theorem exists_ends (run : List α) (some : run ≠ []) :
    ∃ a ∈ run, ends time gap run = time a + gap := by
  rw [ends]
  cases most : (run.map time).max? with
  | none => exact absurd (List.map_eq_nil_iff.mp (List.max?_eq_none_iff.mp most)) some
  | some m =>
    obtain ⟨a, inside, rfl⟩ := List.mem_map.mp (List.max?_eq_some_iff.mp most).1
    exact ⟨a, inside, rfl⟩

theorem starts_le (run : List α) (a : α) (inside : a ∈ run) : starts time run ≤ time a := by
  have there : time a ∈ run.map time := List.mem_map_of_mem inside
  rw [starts]
  cases least : (run.map time).min? with
  | none =>
    rw [List.min?_eq_none_iff.mp least] at there
    cases there
  | some m => exact (List.min?_eq_some_iff.mp least).2 _ there

theorem exists_starts (run : List α) (some : run ≠ []) : ∃ a ∈ run, starts time run = time a := by
  rw [starts]
  cases least : (run.map time).min? with
  | none => exact absurd (List.map_eq_nil_iff.mp (List.min?_eq_none_iff.mp least)) some
  | some m =>
    obtain ⟨a, inside, rfl⟩ := List.mem_map.mp (List.min?_eq_some_iff.mp least).1
    exact ⟨a, inside, rfl⟩

/-- A part of a run ends no later. -/
theorem ends_le (part run : List α) (some : part ≠ []) (within : ∀ a ∈ part, a ∈ run) :
    ends time gap part ≤ ends time gap run := by
  obtain ⟨a, inside, is⟩ := @exists_ends α time gap part some
  rw [is]
  exact le_ends run a (within a inside)

variable (time gap)

theorem runs_flatten (l : List α) : (runs time gap l).flatten = l := List.flatten_splitBy _ _

theorem runs_some (l : List α) (run : List α) (inside : run ∈ runs time gap l) : run ≠ [] :=
  List.ne_nil_of_mem_splitBy inside

theorem mem_runs (l : List α) (run : List α) (inside : run ∈ runs time gap l) (a : α)
    (there : a ∈ run) : a ∈ l := by
  rw [← runs_flatten time gap l]
  exact List.mem_flatten.mpr ⟨run, inside, there⟩

theorem runs_near (l : List α) (run : List α) (inside : run ∈ runs time gap l) :
    run.IsChain fun a b => near time gap a b = true :=
  List.isChain_of_mem_splitBy inside

theorem runs_sorted (l : List α) (sorted : Sorted time l) (run : List α)
    (inside : run ∈ runs time gap l) : Sorted time run := by
  rw [Sorted, ← runs_flatten time gap l, List.pairwise_flatten] at sorted
  exact sorted.1 run inside

/-- Each run is a gap or more before the later ones. -/
theorem runs_apart (l : List α) (sorted : Sorted time l) :
    (runs time gap l).Pairwise (Apart time gap) := by
  have breaks := List.isChain_getLast_head_splitBy (near time gap) l
  rw [Sorted, ← runs_flatten time gap l] at sorted
  change List.IsChain _ (runs time gap l) at breaks
  generalize runs time gap l = rs at sorted breaks
  induction rs with
  | nil => exact List.Pairwise.nil
  | cons first rest ih =>
    rw [List.flatten_cons, List.pairwise_append] at sorted
    refine List.Pairwise.cons ?_ (ih sorted.2.1 breaks.tail)
    intro later inside a here b there
    cases rest with
    | nil => cases inside
    | cons second others =>
      obtain ⟨⟨some, more, apart⟩, _⟩ := List.isChain_cons_cons.mp breaks
      rw [near, decide_eq_false_iff_not] at apart
      have last : time a ≤ time (first.getLast some) := by
        have split := List.dropLast_append_getLast some
        rw [← split] at here
        have order := sorted.1
        rw [← split, List.pairwise_append] at order
        rcases List.mem_append.mp here with early | final
        · exact order.2.2 a early _ (List.mem_singleton_self _)
        · exact Int.le_of_eq (congrArg time (List.mem_singleton.mp final))
      have head : time (second.head more) ≤ time b := by
        obtain ⟨b₀, tail, is⟩ := List.exists_cons_of_ne_nil more
        subst is
        have order := sorted.2.1
        rw [List.flatten_cons, List.cons_append, List.pairwise_cons] at order
        have whole : b ∈ ((b₀ :: tail) :: others).flatten :=
          List.mem_flatten.mpr ⟨later, inside, there⟩
        rw [List.flatten_cons, List.cons_append, List.mem_cons] at whole
        rcases whole with rfl | after
        · exact Int.le_refl _
        · exact order.1 b after
      omega

/-- A run that ends before another is a gap or more before it. -/
theorem apart_of_ends (positive : 0 < gap) (l : List α) (sorted : Sorted time l)
    (before after : List α) (first : before ∈ runs time gap l) (second : after ∈ runs time gap l)
    (less : ends time gap before < ends time gap after) : Apart time gap before after := by
  have order := runs_apart time gap l sorted
  have some := runs_some time gap l
  generalize runs time gap l = rs at order some first second
  induction order with
  | nil => cases first
  | @cons head rest apart _ ih =>
    have others := ih fun run inside => some run (List.mem_cons_of_mem _ inside)
    rcases List.mem_cons.mp first with rfl | early
    · rcases List.mem_cons.mp second with rfl | late
      · omega
      · exact apart after late
    · rcases List.mem_cons.mp second with rfl | late
      · -- the later run ends later
        obtain ⟨a, inside, is⟩ := @exists_ends α time gap after (some after List.mem_cons_self)
        obtain ⟨b, there⟩ := List.exists_mem_of_ne_nil before
          (some before (List.mem_cons_of_mem _ early))
        have far := apart before early a inside b there
        have bound := @le_ends α time gap before b there
        omega
      · exact others early late

/-- Each run ends before the later ones. -/
theorem runs_ends (positive : 0 < gap) (l : List α) (sorted : Sorted time l) :
    (runs time gap l).Pairwise fun a b => ends time gap a < ends time gap b := by
  refine (runs_apart time gap l sorted).imp_of_mem fun {before after} first second apart => ?_
  obtain ⟨a, inside, is⟩ := @exists_ends α time gap before (runs_some time gap l before first)
  obtain ⟨b, there⟩ := List.exists_mem_of_ne_nil after (runs_some time gap l after second)
  have far := apart a inside b there
  have bound := @le_ends α time gap after b there
  omega

/-- Of elements in order of a measure, those in one range and then those in the next. -/
theorem filter_through (f : α → Int) (x y z : Int) (before : x ≤ y) (after : y ≤ z) (l : List α)
    (sorted : l.Pairwise fun a b => f a < f b) :
    (l.filter fun a => decide (x < f a) && decide (f a ≤ y)) ++
        (l.filter fun a => decide (y < f a) && decide (f a ≤ z)) =
      l.filter fun a => decide (x < f a) && decide (f a ≤ z) := by
  induction l with
  | nil => rfl
  | cons a rest ih =>
    rw [List.pairwise_cons] at sorted
    have others := ih sorted.2
    by_cases early : f a ≤ y
    · have within : f a ≤ z := Int.le_trans early after
      have not : ¬y < f a := by omega
      by_cases above : x < f a
      · simp only [List.filter_cons, early, above, within, not, decide_true, decide_false,
          Bool.and_true, Bool.false_eq_true, if_true, if_false, List.cons_append, others]
      · simp only [List.filter_cons, above, not, decide_false, Bool.false_and, Bool.false_eq_true,
          if_false, others]
    · -- nothing after it is in the first range
      have none : rest.filter (fun b => decide (x < f b) && decide (f b ≤ y)) = [] := by
        rw [List.filter_eq_nil_iff]
        intro b inside
        have := sorted.1 b inside
        simp only [Bool.and_eq_true, decide_eq_true_eq, not_and]
        omega
      have late : y < f a := by omega
      have above : x < f a := by omega
      rw [none, List.nil_append] at others
      simp only [List.filter_cons, early, above, late, decide_true, decide_false, Bool.and_false,
        Bool.true_and, Bool.false_eq_true, if_false, none, List.nil_append, others]

/-! ### Runs of a part -/

/-- Whether an element is kept is a matter of time, between two bounds. -/
def Between (keeps : α → Bool) : Prop :=
  ∀ a b c, time a ≤ time b → time b ≤ time c → keeps a = true → keeps c = true → keeps b = true

theorem near_filter (keeps : α → Bool) (between : Between time keeps) (run : List α)
    (sorted : Sorted time run) (chain : run.IsChain fun a b => near time gap a b = true) :
    (run.filter keeps).IsChain fun a b => near time gap a b = true := by
  induction run with
  | nil => exact List.IsChain.nil
  | cons a rest ih =>
    rw [Sorted, List.pairwise_cons] at sorted
    have others := ih sorted.2 chain.tail
    cases first : keeps a with
    | false =>
      rw [List.filter_cons_of_neg (by simp [first])]
      exact others
    | true =>
      rw [List.filter_cons_of_pos first]
      cases rest with
      | nil => exact List.IsChain.singleton a
      | cons b tail =>
        cases second : keeps b with
        | true =>
          rw [List.filter_cons_of_pos second] at others ⊢
          exact List.IsChain.cons_cons (List.isChain_cons_cons.mp chain).1 others
        | false =>
          have none : tail.filter keeps = [] := by
            rw [List.filter_eq_nil_iff]
            intro c inside kept
            have later := sorted.2
            rw [List.pairwise_cons] at later
            rw [between a b c (sorted.1 b List.mem_cons_self) (later.1 c inside) first kept] at second
            cases second
          rw [List.filter_cons_of_neg (by simp [second]), none]
          exact List.IsChain.singleton a

/-- The runs of the elements between two times are the runs' parts. -/
theorem runs_filter (l : List α) (sorted : Sorted time l) (keeps : α → Bool)
    (between : Between time keeps) :
    runs time gap (l.filter keeps) =
      ((runs time gap l).map fun run => run.filter keeps).filter fun run => !run.isEmpty := by
  have whole : l.filter keeps =
      (((runs time gap l).map fun run => run.filter keeps).filter fun run => !run.isEmpty).flatten := by
    rw [List.flatten_filter_not_isEmpty, ← List.filter_flatten, runs_flatten]
  conv_lhs => rw [whole]
  refine List.splitBy_flatten ?_ ?_ ?_
  · intro none
    have := (List.mem_filter.mp none).2
    cases this
  · intro part inside
    obtain ⟨run, there, rfl⟩ := List.mem_map.mp (List.mem_filter.mp inside).1
    exact near_filter time gap keeps between run (runs_sorted time gap l sorted run there)
      (runs_near time gap l run there)
  · have apart : (((runs time gap l).map fun run => run.filter keeps).filter
        fun run => !run.isEmpty).Pairwise (Apart time gap) := by
      refine List.Pairwise.filter _ (List.pairwise_map.mpr ?_)
      refine (runs_apart time gap l sorted).imp fun {before after} far a here b there => ?_
      exact far a (List.mem_filter.mp here).1 b (List.mem_filter.mp there).1
    refine (apart.imp_of_mem fun {before after} first second far => ?_).isChain
    have some : ∀ run ∈ ((runs time gap l).map fun run => run.filter keeps).filter
        (fun run => !run.isEmpty), run ≠ [] := by
      intro run inside none
      have := (List.mem_filter.mp inside).2
      rw [none] at this
      cases this
    refine ⟨some before first, some after second, ?_⟩
    rw [near, decide_eq_false_iff_not]
    have := far _ (List.getLast_mem (some before first)) _ (List.head_mem (some after second))
    omega

/-- The runs chosen are the same for a part that has all of each, and none that is cut short. -/
theorem runs_filter_where (l : List α) (sorted : Sorted time l) (keeps : α → Bool)
    (between : Between time keeps) (chosen : List α → Bool)
    (same : ∀ run ∈ runs time gap l, chosen run = true → run.filter keeps = run)
    (cut : ∀ run ∈ runs time gap l, chosen run = false →
      run.filter keeps = [] ∨ chosen (run.filter keeps) = false) :
    (runs time gap (l.filter keeps)).filter chosen = (runs time gap l).filter chosen := by
  rw [runs_filter time gap l sorted keeps between]
  have some := runs_some time gap l
  generalize runs time gap l = rs at same cut some
  induction rs with
  | nil => rfl
  | cons run rest ih =>
    have others := ih (fun run inside => same run (List.mem_cons_of_mem _ inside))
      (fun run inside => cut run (List.mem_cons_of_mem _ inside))
      (fun run inside => some run (List.mem_cons_of_mem _ inside))
    rw [List.map_cons]
    cases takes : chosen run with
    | true =>
      have full : (!run.isEmpty) = true := by
        simpa using some run List.mem_cons_self
      rw [same run List.mem_cons_self takes,
        List.filter_cons_of_pos (p := fun run : List α => !run.isEmpty) full,
        List.filter_cons_of_pos takes, List.filter_cons_of_pos takes, others]
    | false =>
      rw [List.filter_cons_of_neg (l := rest) (by simp [takes]), ← others]
      rcases cut run List.mem_cons_self takes with none | not
      · rw [none, List.filter_cons_of_neg (by simp)]
      · by_cases part : run.filter keeps = []
        · rw [part, List.filter_cons_of_neg (by simp)]
        · rw [List.filter_cons_of_pos (by simpa using part),
            List.filter_cons_of_neg (by simp [not])]

/-- A run that goes on past a time has an element before it that ends after it. -/
theorem crosses (run : List α) (sorted : Sorted time run)
    (chain : run.IsChain fun a b => near time gap a b = true) (w : Int) (a c : α) (first : a ∈ run)
    (second : c ∈ run) (early : time a ≤ w) (late : w < time c) :
    ∃ b ∈ run, time b ≤ w ∧ w < time b + gap := by
  induction run generalizing a with
  | nil => cases first
  | cons head rest ih =>
    rw [Sorted, List.pairwise_cons] at sorted
    have before : time head ≤ w := by
      rcases List.mem_cons.mp first with rfl | inside
      · exact early
      · exact Int.le_trans (sorted.1 a inside) early
    cases rest with
    | nil =>
      rw [List.mem_singleton.mp second] at late
      omega
    | cons next tail =>
      have link := (List.isChain_cons_cons.mp chain).1
      rw [near, decide_eq_true_eq] at link
      by_cases on : time next ≤ w
      · have there : c ∈ next :: tail := by
          rcases List.mem_cons.mp second with rfl | inside
          · omega
          · exact inside
        obtain ⟨b, inside, found⟩ := ih sorted.2 chain.tail next List.mem_cons_self there on
        exact ⟨b, List.mem_cons_of_mem _ inside, found⟩
      · exact ⟨head, List.mem_cons_self, before, by omega⟩

/-- The part of a run up to a time is all of it, or ends after the time. -/
theorem upto_ends (l : List α) (sorted : Sorted time l) (run : List α)
    (inside : run ∈ runs time gap l) (w : Int) (some : run.filter (fun a => decide (time a ≤ w)) ≠ []) :
    run.filter (fun a => decide (time a ≤ w)) = run ∨
      w < ends time gap (run.filter fun a => decide (time a ≤ w)) := by
  by_cases all : ∀ c ∈ run, time c ≤ w
  · exact .inl (List.filter_eq_self.mpr fun c there => decide_eq_true (all c there))
  · push Not at all
    obtain ⟨c, second, late⟩ := all
    obtain ⟨a, there⟩ := List.exists_mem_of_ne_nil _ some
    obtain ⟨first, early⟩ := List.mem_filter.mp there
    obtain ⟨b, of, before, after⟩ := crosses time gap run (runs_sorted time gap l sorted run inside)
      (runs_near time gap l run inside) w a c first second (of_decide_eq_true early) late
    have bound := @le_ends α time gap (run.filter fun a => decide (time a ≤ w)) b
      (List.mem_filter.mpr ⟨of, decide_eq_true before⟩)
    exact .inr (by omega)

theorem upto_between (w : Int) : Between time fun a => decide (time a ≤ w) := by
  intro a b c _ less _ kept
  rw [decide_eq_true_eq] at kept ⊢
  omega

/-- The runs that end by a time are those of the elements up to it. -/
theorem runs_closed (positive : 0 < gap) (l : List α) (sorted : Sorted time l) (w : Int) :
    (runs time gap (l.filter fun a => decide (time a ≤ w))).filter
        (fun run => decide (ends time gap run ≤ w)) =
      (runs time gap l).filter fun run => decide (ends time gap run ≤ w) := by
  refine runs_filter_where time gap l sorted _ (upto_between time w) _ ?_ ?_
  · intro run _ closed
    rw [decide_eq_true_eq] at closed
    refine List.filter_eq_self.mpr fun a there => decide_eq_true ?_
    have := @le_ends α time gap run a there
    omega
  · intro run inside opened
    rw [decide_eq_false_iff_not] at opened
    by_cases none : run.filter (fun a => decide (time a ≤ w)) = []
    · exact .inl none
    · refine .inr (decide_eq_false ?_)
      rcases upto_ends time gap l sorted run inside w none with whole | late
      · rw [whole]
        exact opened
      · omega

end Gaps
