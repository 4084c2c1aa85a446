import Pondra.Query.Ways

set_option autoImplicit false

namespace Pondra.Query

open Tier

variable {γ ν : Type} [DecidableEq γ] [LinearOrder ν] {t : Upsert γ}
  {first : γ → List (Nat × Row γ ν) → Option ν}

/-- No key with a NULL in it has a live row under a newer row; of a table with `order_by`, none has a
live newest row. -/
def Clear (t : Upsert γ) (values : Scalars ν) (now : Int) (s : Stored γ ν) (upto : Nat) : Prop :=
  match t.order with
  | none => ((tail s.log s.tiered upto).map Prod.snd :: s.older).Pairwise fun newer older =>
      ∀ r ∈ older, none ∈ t.keyOf r → t.live values now r = true →
        ∀ n ∈ newer, t.keyOf n ≠ t.keyOf r
  | some _ => ∀ r, Newest t (s.raw upto) r → none ∈ t.keyOf r → t.live values now r = false

section reads

variable (values : Scalars ν) (now : Int) (s : Stored γ ν) (upto : Nat)

/-! ### The anti-join plan -/

/-- The log's newest rows and the generations are the newest of their rows. -/
theorem sources_of (lawful : Lawful first) (unordered : t.order = none) (sound : s.Sound t) :
    List.Forall₂ (Of t) (t.byOrd first (tail s.log s.tiered upto) :: s.older)
      (s.blocks upto).reverse := by
  have order := blocks_order s sound upto
  have each : ∀ block ∈ s.blocks upto, Rising t block := fun block inside =>
    List.Pairwise.sublist (List.sublist_flatten_of_mem inside) order
  rw [Stored.blocks, List.reverse_append, List.reverse_singleton, List.singleton_append,
    ← List.map_reverse, Stored.older]
  apply List.Forall₂.cons
  · have log := each (tail s.log s.tiered upto)
      (List.mem_append_right _ (List.mem_singleton.mpr rfl))
    exact byOrd_rows lawful unordered log.apart
  · rw [List.forall₂_map_left_iff, List.forall₂_map_right_iff]
    apply List.forall₂_same.mpr
    intro g inside
    have there := List.mem_reverse.mp inside
    exact generation_of unordered s.files g there
      (each _ (List.mem_append_left _ (List.mem_map_of_mem there)))

/-- The plan's rows are those of the sources, the log's first. -/
theorem upsertView_shadowed (unordered : t.order = none) :
    t.upsertView first values now s upto =
      (t.shadowed [] (t.byOrd first (tail s.log s.tiered upto) :: s.older)).filter
        (t.live values now) := by
  rw [Upsert.upsertView]
  cases rows : tail s.log s.tiered upto with
  | nil => rfl
  | cons e rest =>
    rw [Upsert.latestSql, unordered]
    rfl

theorem upsertView_current (lawful : Lawful first) (unordered : t.order = none)
    (sound : s.Sound t) :
    Current t values now (s.raw upto) (t.upsertView first values now s upto) ↔
      Clear t values now s upto := by
  have of_ := sources_of s upto lawful unordered sound
  have order : Rising t (s.blocks upto).reverse.reverse.flatten := by
    rw [List.reverse_reverse]
    exact blocks_order s sound upto
  have wanted : ∀ r, First t [] (t.byOrd first (tail s.log s.tiered upto) :: s.older) r ↔
      Newest t (s.raw upto) r := by
    intro r
    rw [first_newest unordered _ _ of_ order, List.reverse_reverse,
      ← newest_perm (raw_perm s upto) r]
    exact and_iff_right fun n inside => absurd inside List.not_mem_nil
  have once : ∀ source ∈ t.byOrd first (tail s.log s.tiered upto) :: s.older,
      (source.map t.keyOf).Nodup := by
    intro source inside
    obtain ⟨i, small, rfl⟩ := List.mem_iff_getElem.mp inside
    exact (of_.get small (by rw [← of_.length_eq]; exact small)).1
  have shows_ := shows_iff values now _ once []
  have bare : Bare t values now [] = fun _ => True := by
    funext older
    exact propext ⟨fun _ => trivial, fun _ r _ _ _ n none_ => absurd none_ List.not_mem_nil⟩
  have log := (List.forall₂_cons.mp (by
    have := of_
    rw [Stored.blocks, List.reverse_append, List.reverse_singleton, List.singleton_append] at this
    exact this)).1
  have keys : ∀ older, Bare t values now (t.byOrd first (tail s.log s.tiered upto)) older ↔
      Bare t values now ((tail s.log s.tiered upto).map Prod.snd) older := by
    intro older
    apply forall_congr'
    intro r
    apply imp_congr_right
    intro _
    apply imp_congr_right
    intro _
    apply imp_congr_right
    intro _
    rw [log.keys (t.keyOf r), List.forall_mem_map]
  have same : Current t values now (s.raw upto) (t.upsertView first values now s upto) ↔
      Shows values now t [] (t.byOrd first (tail s.log s.tiered upto) :: s.older) := by
    rw [upsertView_shadowed values now s upto unordered]
    constructor
    · rintro ⟨nodup, rows⟩
      exact ⟨nodup, fun r => (rows r).trans (and_congr_left fun _ => (wanted r).symm)⟩
    · rintro ⟨nodup, rows⟩
      exact ⟨nodup, fun r => (rows r).trans (and_congr_left fun _ => wanted r)⟩
  rw [same, shows_, List.pairwise_cons, Clear, unordered, List.pairwise_cons, List.pairwise_cons]
  simp only [bare, keys, implies_true, true_and]
  rfl

/-! ### The grouped query, and the one file -/

omit [DecidableEq γ] in
theorem current_filter (entries : List (Nat × Row γ ν)) (rows : List (Row γ ν))
    (once : (rows.map t.keyOf).Nodup) (newest : ∀ r, r ∈ rows ↔ Newest t entries r) :
    Current t values now entries (rows.filter (t.live values now)) := by
  constructor
  · exact once.sublist (List.filter_sublist.map t.keyOf)
  · intro r
    rw [List.mem_filter, newest r]

theorem latestSql_current (lawful : Lawful first) (sound : s.Sound t) :
    Current t values now (s.raw upto) (t.latestSql first values now (s.raw upto) false) ↔
      t.order = none ∨ Clear t values now s upto := by
  have apart := raw_apart s sound upto
  rw [Upsert.latestSql, Clear]
  cases order : t.order with
  | none =>
    obtain ⟨once, newest⟩ := byOrd_rows lawful order apart
    exact iff_of_true (current_filter values now _ _ once newest) (Or.inl rfl)
  | some o =>
    obtain ⟨once, newest⟩ := byOrder_rows o order apart
    dsimp only
    rw [if_neg Bool.false_ne_true, or_iff_right (Option.some_ne_none o)]
    constructor
    · intro ⟨_, rows⟩ r top null
      cases live : t.live values now r with
      | false => rfl
      | true =>
        have shown := (List.mem_filter.mp ((rows r).mpr ⟨top, live⟩)).1
        exact absurd null ((newest r).mp shown).2
    · intro clear
      refine ⟨once.sublist (List.filter_sublist.map t.keyOf), fun r => ?_⟩
      rw [List.mem_filter, newest r]
      constructor
      · intro ⟨⟨top, _⟩, live⟩
        exact ⟨top, live⟩
      · intro ⟨top, live⟩
        refine ⟨⟨top, fun null => ?_⟩, live⟩
        rw [clear r top null] at live
        cases live

omit [DecidableEq γ] in
/-- Of one file with nothing in the log after it, every row is its key's newest. -/
theorem plain_rows (sound : s.Sound t) (few : s.files.length ≤ 1) :
    (((s.raw s.tiered).map Prod.snd).map t.keyOf).Nodup ∧
      ∀ r, r ∈ (s.raw s.tiered).map Prod.snd ↔ Newest t (s.raw s.tiered) r := by
  have apart := raw_apart s sound s.tiered
  have one : ∀ a ∈ s.raw s.tiered, ∀ b ∈ s.raw s.tiered, a.1 = b.1 := by
    rw [Stored.raw, Tier.raw, tail_none, List.nil_append]
    cases files : s.files with
    | nil =>
      intro a inside
      cases inside
    | cons f rest =>
      rw [files, List.length_cons] at few
      rw [List.length_eq_zero_iff.mp (show rest.length = 0 by omega), List.flatMap_cons,
        List.flatMap_nil, List.append_nil]
      intro a first b second
      rw [((mem_entries f a).mp first).1, ((mem_entries f b).mp second).1]
  constructor
  · rw [List.map_map]
    apply List.pairwise_map.mpr
    apply List.Pairwise.imp_of_mem _ apart
    intro a b first second far key
    exact far key (one a first b second)
  · intro r
    rw [List.mem_map]
    constructor
    · rintro ⟨e, inside, is⟩
      refine ⟨e.1, is ▸ inside, fun x other key => ?_⟩
      have same := apart_same apart x e other inside (by rw [is]; exact key) (one x other e inside)
      exact Or.inr ⟨by rw [same, is], by rw [same]⟩
    · rintro ⟨ord, inside, _⟩
      exact ⟨(ord, r), inside, rfl⟩

theorem currentSql_current (lawful : Lawful first) (sound : s.Sound t)
    (clear : t.order = none ∨ Clear t values now s upto) :
    Current t values now (s.raw upto) (t.currentSql first values now s upto) := by
  rw [Upsert.currentSql]
  split
  · exact (latestSql_current values now s upto lawful sound).mpr clear
  · rename_i plain
    rw [not_or, not_lt, not_not] at plain
    obtain ⟨few, rfl⟩ := plain
    obtain ⟨once, newest⟩ := plain_rows s sound few
    exact current_filter values now _ _ once newest

/-! ### Every way -/

/-- The anti-join plan, the grouped query over all rows, the plain scan of one file where it is
taken, and so the table as its users see it, read each key's newest row where it is live: exactly
where no live row has a NULL in its key and a newer row over it (or, of a table with `order_by`,
none such is the newest). -/
theorem ways_current (lawful : Lawful first) (sound : s.Sound t) :
    ((t.order = none →
        Current t values now (s.raw upto) (t.upsertView first values now s upto)) ∧
      Current t values now (s.raw upto) (t.latestSql first values now (s.raw upto) false) ∧
      Current t values now (s.raw upto) (t.currentSql first values now s upto) ∧
      Current t values now (s.raw upto) (t.view first values now s upto)) ↔
    Clear t values now s upto := by
  have grouped := latestSql_current values now s upto lawful sound
  constructor
  · intro ⟨antiJoin, latest, _, _⟩
    rcases grouped.mp latest with unordered | clear
    · exact (upsertView_current values now s upto lawful unordered sound).mp (antiJoin unordered)
    · exact clear
  · intro clear
    have antiJoin : t.order = none →
        Current t values now (s.raw upto) (t.upsertView first values now s upto) := fun unordered =>
      (upsertView_current values now s upto lawful unordered sound).mpr clear
    have current := currentSql_current values now s upto lawful sound (Or.inr clear)
    refine ⟨antiJoin, grouped.mpr (Or.inr clear), current, ?_⟩
    rw [Upsert.view]
    cases order : t.order with
    | none => exact antiJoin order
    | some o => exact current

end reads

/-! ### A streaming task's counts -/

inductive Counts where
  | user
  | n
deriving DecidableEq

/-- The target of a task that counts by user: no column of it is NOT NULL. -/
def counts : Upsert Counts := ⟨[.user], none, none, none⟩

def counted (user : Option Int) (n : Int) : Row Counts Int
  | .user => user
  | .n => some n

/-- The value in the row with the greatest `_ord`. -/
def newestValue {γ ν : Type} (c : γ) (g : List (Nat × Row γ ν)) : Option ν :=
  (g.argmax Prod.fst).bind fun e => e.2 c

theorem newestValue_lawful {γ ν : Type} : Lawful (newestValue (γ := γ) (ν := ν)) := by
  intro c g some_
  cases top : g.argmax Prod.fst with
  | none => exact absurd (List.argmax_eq_none.mp top) some_
  | some e =>
    refine ⟨e, List.argmax_mem top, fun x inside => List.le_of_mem_argmax inside top, ?_⟩
    rw [newestValue, top]
    rfl

def scalars : Scalars Int := ⟨fun v => decide (v = 1), id⟩

/-- One run's counts in a file, the next run's in the log. -/
def runs (user : Option Int) : Stored Counts Int :=
  ⟨[⟨0, 1, true, "", [counted user 1]⟩], [(2, [counted user 2])], 1⟩

theorem runs_sound (user : Option Int) : (runs user).Sound counts where
  below f inside := by
    rw [List.mem_singleton.mp inside]
    exact Nat.le_refl 1
  once f inside := by
    rw [List.mem_singleton.mp inside]
    exact List.nodup_singleton _
  apart := List.pairwise_singleton _ _
  numbered := List.pairwise_singleton _ _

/-- The rows counted for no user: the anti-join plan reads the first run's and the second's, the
grouped query the second's alone. -/
theorem counted_twice :
    Lawful (newestValue (γ := Counts) (ν := Int)) ∧ (runs none).Sound counts ∧
    (counts.upsertView newestValue scalars 0 (runs none) 2).map (fun r => (r .user, r .n)) =
      [(none, some 2), (none, some 1)] ∧
    (counts.latestSql newestValue scalars 0 ((runs none).raw 2) false).map
      (fun r => (r .user, r .n)) = [(none, some 2)] ∧
    ¬Current counts scalars 0 ((runs none).raw 2)
      (counts.upsertView newestValue scalars 0 (runs none) 2) := by
  refine ⟨newestValue_lawful, runs_sound none, by decide, by decide, fun current => ?_⟩
  have keys : (counts.upsertView newestValue scalars 0 (runs none) 2).map counts.keyOf =
      [[none], [none]] := by decide
  have once := current.once
  rw [keys] at once
  exact absurd once (by decide)

/-- A user's count is read once, whichever way. -/
theorem counted_once :
    Current counts scalars 0 ((runs (some 7)).raw 2)
      (counts.view newestValue scalars 0 (runs (some 7)) 2) := by
  have ways := (ways_current scalars 0 (runs (some 7)) 2 newestValue_lawful
    (runs_sound (some 7))).mpr (by
      have older : (runs (some 7)).older = [[counted (some 7) 1]] := rfl
      simp only [Clear, counts, older, List.pairwise_cons]
      simp [Upsert.keyOf, counted])
  exact ways.2.2.2

end Pondra.Query
