import Mathlib.Data.Int.Order.Basic
import Pondra.Base.Foremost
import Pondra.Base.Ordered
import Pondra.Tier.Keyed

set_option autoImplicit false

namespace Pondra.Tier

open Foremost

variable {ρ κ : Type} (t : Keyed ρ κ)

/-! ### The row a key's rows give -/

/-- In the order of `_ord`. -/
def Ascending (entries : List (Nat × ρ)) : Prop := entries.Pairwise fun a b => a.1 < b.1

theorem flat_rank (unordered : t.order = none) (a b : ρ) : t.rank a ≤ t.rank b := by
  have bottom : ∀ r, t.rank r = ⊥ := fun r => by rw [Keyed.rank, Keyed.orderOf, unordered]; rfl
  rw [bottom a]
  exact bot_le

theorem ascending_same (entries : List (Nat × ρ)) (ascending : Ascending entries) (a b : Nat × ρ)
    (first : a ∈ entries) (second : b ∈ entries) (same : a.1 = b.1) : a = b := by
  induction entries with
  | nil => cases first
  | cons e rest ih =>
    rw [Ascending, List.pairwise_cons] at ascending
    rcases List.mem_cons.mp first with rfl | early
    · rcases List.mem_cons.mp second with rfl | late
      · rfl
      · have := ascending.1 b late
        omega
    · rcases List.mem_cons.mp second with rfl | late
      · have := ascending.1 a early
        omega
      · exact ih ascending.2 early late

theorem most_order (entries : List (Nat × ρ)) (e : Nat × ρ) (inside : e ∈ entries)
    (least : ∀ x ∈ entries, t.rank x.2 ≤ t.rank e.2) :
    (entries.filterMap fun x => t.orderOf x.2).max? = t.orderOf e.2 := by
  cases value : t.orderOf e.2 with
  | none =>
    rw [List.max?_eq_none_iff, List.filterMap_eq_nil_iff]
    intro x there
    have below := least x there
    unfold Keyed.rank at below
    rw [value] at below
    cases other : t.orderOf x.2 with
    | none => rfl
    | some o =>
      rw [other] at below
      exact absurd below (WithBot.not_coe_le_bot o)
  | some v =>
    rw [List.max?_eq_some_iff]
    refine ⟨List.mem_filterMap.mpr ⟨e, inside, value⟩, ?_⟩
    intro o there
    obtain ⟨x, found, is⟩ := List.mem_filterMap.mp there
    have below := least x found
    unfold Keyed.rank at below
    rw [value, is] at below
    exact WithBot.coe_le_coe.mp below

/-- The best of a key's rows, in any order, is the one picked of them in the order of `_ord`. -/
theorem best_line (entries line : List (Nat × ρ)) (perm : entries.Perm line)
    (ascending : Ascending line) : t.best entries = pick t.rank (line.map Prod.snd) := by
  cases picked : pick t.rank (line.map Prod.snd) with
  | none =>
    have none : line = [] := List.map_eq_nil_iff.mp ((pick_eq_none _ _).mp picked)
    rw [none] at perm
    rw [perm.eq_nil]
    rfl
  | some r =>
    obtain ⟨before, after, is, least, most⟩ := pick_spec _ _ _ picked
    obtain ⟨early, rest, rfl, rfl, others⟩ := List.map_eq_append_iff.mp is
    obtain ⟨e, late, rfl, rfl, rfl⟩ := List.map_eq_cons_iff.mp others
    have inside : e ∈ entries := perm.mem_iff.mpr (List.mem_append_right _ List.mem_cons_self)
    have top : ∀ x ∈ entries, t.rank x.2 ≤ t.rank e.2 := by
      intro x there
      rcases List.mem_append.mp (perm.mem_iff.mp there) with first | second
      · exact least x.2 (List.mem_map_of_mem first)
      · rcases List.mem_cons.mp second with rfl | third
        · exact le_refl _
        · exact le_of_lt (most x.2 (List.mem_map_of_mem third))
    rw [Keyed.best, most_order t entries e inside top]
    have chosen : e ∈ entries.filter fun x => decide (t.orderOf x.2 = t.orderOf e.2) :=
      List.mem_filter.mpr ⟨inside, decide_eq_true rfl⟩
    cases found : (entries.filter fun x => decide (t.orderOf x.2 = t.orderOf e.2)).argmax
        Prod.fst with
    | none =>
      rw [List.argmax_eq_none.mp found] at chosen
      cases chosen
    | some x =>
      obtain ⟨there, equal⟩ := List.mem_filter.mp (List.argmax_mem found)
      have later : e.1 ≤ x.1 := List.le_of_mem_argmax chosen found
      have position := perm.mem_iff.mp there
      rw [Ascending, List.pairwise_append] at ascending
      rcases List.mem_append.mp position with first | second
      · have := ascending.2.2 x first e List.mem_cons_self
        omega
      · rcases List.mem_cons.mp second with rfl | third
        · rfl
        · have less := most x.2 (List.mem_map_of_mem third)
          unfold Keyed.rank at less
          rw [of_decide_eq_true equal] at less
          exact absurd less (lt_irrefl _)

theorem best_mem (entries : List (Nat × ρ)) (r : ρ) (best : t.best entries = some r) :
    ∃ e ∈ entries, e.2 = r := by
  obtain ⟨e, found, rfl⟩ := Option.map_eq_some_iff.mp best
  exact ⟨e, (List.mem_filter.mp (List.argmax_mem found)).1, rfl⟩

/-! ### The log's places -/

/-- Segments in order, each with the numbers its rows take. -/
def Numbered (log : List (Nat × List ρ)) : Prop :=
  log.Pairwise fun a b => a.1 < b.1 ∧ logOrd a.1 a.2.length ≤ logOrd b.1 0

theorem logOrd_lt (a b : Nat) (less : a < b) (i : Nat) : logOrd a 0 < logOrd b i := by
  have positive : 0 < 2 ^ ordBits := by decide
  have := Nat.mul_lt_mul_of_pos_right less positive
  rw [logOrd, logOrd]
  omega

theorem mem_placed (seg : Nat × List ρ) (e : Nat × ρ) (inside : e ∈ placed seg) :
    ∃ i < seg.2.length, e.1 = logOrd seg.1 i := by
  obtain ⟨r, there, rfl⟩ := List.mem_map.mp inside
  exact ⟨r.2, List.snd_lt_of_mem_zipIdx there, rfl⟩

theorem placed_rows (seg : Nat × List ρ) : (placed seg).map Prod.snd = seg.2 := by
  rw [placed, List.map_map]
  exact List.zipIdx_map_fst 0 seg.2

theorem placed_ascending (seg : Nat × List ρ) : Ascending (placed seg) := by
  rw [Ascending, placed, List.pairwise_map, List.pairwise_iff_getElem]
  intro i j first second less
  rw [List.getElem_zipIdx, List.getElem_zipIdx, logOrd, logOrd]
  omega

theorem mem_tail (log : List (Nat × List ρ)) (after upto : Nat) (e : Nat × ρ) :
    e ∈ tail log after upto ↔ ∃ seg ∈ log, after < seg.1 ∧ seg.1 ≤ upto ∧ e ∈ placed seg := by
  rw [tail, List.mem_flatMap]
  constructor
  · rintro ⟨seg, inside, there⟩
    obtain ⟨of, within⟩ := List.mem_filter.mp inside
    rw [Bool.and_eq_true, decide_eq_true_eq, decide_eq_true_eq] at within
    exact ⟨seg, of, within.1, within.2, there⟩
  · rintro ⟨seg, of, after, upto, there⟩
    exact ⟨seg, List.mem_filter.mpr ⟨of, by rw [decide_eq_true after, decide_eq_true upto]; rfl⟩,
      there⟩

theorem tail_ascending (log : List (Nat × List ρ)) (numbered : Numbered log) (after upto : Nat) :
    Ascending (tail log after upto) := by
  rw [Ascending, tail, List.pairwise_flatMap]
  refine ⟨fun seg _ => placed_ascending seg, ?_⟩
  refine (numbered.filter _).imp fun {a b} order x first y second => ?_
  obtain ⟨i, inside, is⟩ := mem_placed a x first
  obtain ⟨j, _, other⟩ := mem_placed b y second
  have := order.2
  rw [is, other]
  rw [logOrd, logOrd] at this ⊢
  omega

theorem tail_split (log : List (Nat × List ρ)) (numbered : Numbered log) (a b c : Nat)
    (before : a ≤ b) (after : b ≤ c) : tail log a c = tail log a b ++ tail log b c := by
  rw [tail, tail, tail, ← List.flatMap_append]
  congr 1
  induction log with
  | nil => rfl
  | cons seg rest ih =>
    rw [Numbered, List.pairwise_cons] at numbered
    have others := ih numbered.2
    by_cases early : seg.1 ≤ b
    · have not : ¬b < seg.1 := by omega
      have within : seg.1 ≤ c := by omega
      by_cases above : a < seg.1
      · simp only [List.filter_cons, early, above, not, within, decide_true, decide_false,
          Bool.and_true, Bool.false_eq_true, if_true, if_false, others, List.cons_append]
      · simp only [List.filter_cons, above, not, decide_false, Bool.false_and, Bool.false_eq_true,
          if_false, others]
    · -- nothing after it is in the first range
      have none : rest.filter (fun s => decide (a < s.1) && decide (s.1 ≤ b)) = [] := by
        rw [List.filter_eq_nil_iff]
        intro s inside
        have := (numbered.1 s inside).1
        simp only [Bool.and_eq_true, decide_eq_true_eq, not_and]
        omega
      have late : b < seg.1 := by omega
      have above : a < seg.1 := by omega
      rw [none, List.nil_append] at others
      simp only [List.filter_cons, early, above, late, decide_true, decide_false, Bool.and_false,
        Bool.true_and, Bool.false_eq_true, if_false, none, List.nil_append, others]

/-! ### A key's rows in files and log -/

theorem byAge_perm (files : List (DataFile ρ)) : (byAge files).Perm files :=
  List.perm_insertionSort _ _

theorem byAge_sorted (files : List (DataFile ρ)) :
    (byAge files).Pairwise fun a b => a.ord ≤ b.ord :=
  Ordered.sorted_insertionSort DataFile.ord files

theorem generations_flatten (files : List (DataFile ρ)) :
    (generations files).flatten = byAge files := List.flatten_splitBy _ _

theorem generation_ord (files : List (DataFile ρ)) (g : List (DataFile ρ))
    (inside : g ∈ generations files) (f h : DataFile ρ) (first : f ∈ g) (second : h ∈ g) :
    f.ord = h.ord := by
  have chain : g.IsChain fun a b => decide (a.ord = b.ord) = true :=
    List.isChain_of_mem_splitBy inside
  have trans : IsTrans (DataFile ρ) fun a b => decide (a.ord = b.ord) = true := by
    refine ⟨fun a b c left right => ?_⟩
    rw [decide_eq_true_eq] at left right ⊢
    exact left.trans right
  have symmetric : Std.Symm fun a b : DataFile ρ => decide (a.ord = b.ord) = true := by
    refine ⟨fun a b same => ?_⟩
    rw [decide_eq_true_eq] at same ⊢
    exact same.symm
  exact of_decide_eq_true (chain.pairwise.forall_of_forall (fun x _ => decide_eq_true rfl) first second)

theorem mem_entries (f : DataFile ρ) (e : Nat × ρ) :
    e ∈ f.entries ↔ e.1 = logOrd f.ord 0 ∧ e.2 ∈ f.rows := by
  rw [DataFile.entries, List.mem_map]
  constructor
  · rintro ⟨r, inside, rfl⟩
    exact ⟨rfl, inside⟩
  · rintro ⟨is, inside⟩
    exact ⟨e.2, inside, Prod.ext is.symm rfl⟩

theorem entries_rows (f : DataFile ρ) : f.entries.map Prod.snd = f.rows := by
  rw [DataFile.entries, List.map_map]
  exact List.map_id _

/-- Files of one row a key in each generation, all before the log read. -/
structure Sound (files : List (DataFile ρ)) (log : List (Nat × List ρ)) (after : Nat) : Prop where
  below : ∀ f ∈ files, f.ord ≤ after
  once : ∀ f ∈ files, (f.rows.map t.key).Nodup
  apart : files.Pairwise fun f g => f.ord = g.ord →
    ∀ r ∈ f.rows, ∀ x ∈ g.rows, t.key r ≠ t.key x
  numbered : Numbered log

variable [DecidableEq κ]

def Keyed.rowsOf (k : κ) (rows : List ρ) : List ρ := rows.filter fun r => decide (t.key r = k)

@[simp] theorem rowsOf_nil (k : κ) : t.rowsOf k [] = [] := rfl

theorem rowsOf_cons (k : κ) (r : ρ) (rest : List ρ) :
    t.rowsOf k (r :: rest) = if t.key r = k then r :: t.rowsOf k rest else t.rowsOf k rest := by
  by_cases same : t.key r = k <;> simp [Keyed.rowsOf, same]

theorem rowsOf_append (k : κ) (before after : List ρ) :
    t.rowsOf k (before ++ after) = t.rowsOf k before ++ t.rowsOf k after := List.filter_append ..

theorem entriesOf_rows (k : κ) (entries : List (Nat × ρ)) :
    (t.entriesOf k entries).map Prod.snd = t.rowsOf k (entries.map Prod.snd) := by
  rw [Keyed.entriesOf, Keyed.rowsOf, List.filter_map]
  rfl

theorem mem_rowsOf (k : κ) (rows : List ρ) (r : ρ) :
    r ∈ t.rowsOf k rows ↔ r ∈ rows ∧ t.key r = k := by
  rw [Keyed.rowsOf, List.mem_filter, decide_eq_true_eq]

/-- Rows of a file, of one key: one at most. -/
theorem rowsOf_once (k : κ) (rows : List ρ) (once : (rows.map t.key).Nodup) :
    (t.rowsOf k rows).length ≤ 1 := by
  induction rows with
  | nil => exact Nat.zero_le _
  | cons r rest ih =>
    rw [List.map_cons, List.nodup_cons] at once
    by_cases same : t.key r = k
    · have none : t.rowsOf k rest = [] := by
        rw [List.eq_nil_iff_forall_not_mem]
        intro x inside
        obtain ⟨there, is⟩ := (mem_rowsOf t k rest x).mp inside
        exact once.1 (List.mem_map.mpr ⟨x, there, is.trans same.symm⟩)
      rw [rowsOf_cons, if_pos same, none]
      exact Nat.le_refl _
    · rw [rowsOf_cons, if_neg same]
      exact ih once.2

/-- A key's rows oldest first: the files' by age, then the log's. -/
def Keyed.line (k : κ) (files : List (DataFile ρ)) (log : List (Nat × List ρ)) (after upto : Nat) :
    List (Nat × ρ) :=
  t.entriesOf k ((byAge files).flatMap DataFile.entries ++ tail log after upto)

variable {t}

theorem line_ascending (files : List (DataFile ρ)) (log : List (Nat × List ρ)) (after : Nat)
    (sound : Sound t files log after) (k : κ) (upto : Nat) :
    Ascending (t.line k files log after upto) := by
  rw [Ascending, Keyed.line, Keyed.entriesOf, List.filter_append, List.pairwise_append]
  refine ⟨?_, (tail_ascending log sound.numbered after upto).filter _, ?_⟩
  · rw [List.filter_flatMap, List.pairwise_flatMap]
    constructor
    · intro f inside
      have one := rowsOf_once t k f.rows (sound.once f ((byAge_perm files).mem_iff.mp inside))
      rw [← entries_rows, ← entriesOf_rows, List.length_map] at one
      change (t.entriesOf k f.entries).Pairwise _
      generalize t.entriesOf k f.entries = entries at one
      cases entries with
      | nil => exact List.Pairwise.nil
      | cons e rest =>
        cases rest with
        | nil => exact List.pairwise_singleton _ _
        | cons x more =>
          rw [List.length_cons, List.length_cons] at one
          omega
    · have apart : (byAge files).Pairwise fun f g => f.ord = g.ord →
          ∀ r ∈ f.rows, ∀ x ∈ g.rows, t.key r ≠ t.key x := by
        refine ((byAge_perm files).pairwise_iff ?_).mpr sound.apart
        intro f g far same r inside x there equal
        exact far same.symm x there r inside equal.symm
      refine (apart.and (byAge_sorted files)).imp fun {f g} both a first b second => ?_
      obtain ⟨inside, of⟩ := List.mem_filter.mp first
      obtain ⟨there, too⟩ := List.mem_filter.mp second
      obtain ⟨is, row⟩ := (mem_entries f a).mp inside
      obtain ⟨was, other⟩ := (mem_entries g b).mp there
      rw [is, was]
      rcases Nat.lt_or_ge f.ord g.ord with less | more
      · exact logOrd_lt _ _ less 0
      · exact absurd ((of_decide_eq_true of).trans (of_decide_eq_true too).symm)
          (both.1 (Nat.le_antisymm both.2 more) a.2 row b.2 other)
  · intro a first b second
    obtain ⟨f, file, inside⟩ := List.mem_flatMap.mp (List.mem_filter.mp first).1
    obtain ⟨seg, _, later, _, there⟩ := (mem_tail log after upto b).mp (List.mem_filter.mp second).1
    obtain ⟨i, _, is⟩ := mem_placed seg b there
    have below := sound.below f ((byAge_perm files).mem_iff.mp file)
    rw [((mem_entries f a).mp inside).1, is]
    exact logOrd_lt _ _ (by omega) i

theorem line_perm (files : List (DataFile ρ)) (log : List (Nat × List ρ)) (after upto : Nat)
    (k : κ) : (t.entriesOf k (raw files log after upto)).Perm (t.line k files log after upto) := by
  rw [Keyed.line, raw]
  refine (List.perm_append_comm.trans ?_).filter _
  exact ((byAge_perm files).symm.flatMap_right _).append_right _

/-- One row a key. -/
theorem latest_of (entries : List (Nat × ρ)) (k : κ) :
    t.rowsOf k (t.latest entries) = (t.best (t.entriesOf k entries)).toList := by
  have keyed : ∀ (k' : κ) (r : ρ), t.best (t.entriesOf k' entries) = some r → t.key r = k' := by
    intro k' r best
    obtain ⟨e, inside, rfl⟩ := best_mem t _ r best
    exact of_decide_eq_true (List.mem_filter.mp inside).2
  have whole : ∀ keys : List κ, keys.Nodup →
      t.rowsOf k (keys.filterMap fun k' => t.best (t.entriesOf k' entries)) =
        if k ∈ keys then (t.best (t.entriesOf k entries)).toList else [] := by
    intro keys once
    induction keys with
    | nil => rfl
    | cons k' rest ih =>
      rw [List.nodup_cons] at once
      have others := ih once.2
      cases best : t.best (t.entriesOf k' entries) with
      | none =>
        rw [List.filterMap_cons, best]
        refine others.trans ?_
        by_cases same : k = k'
        · subst same
          rw [if_neg once.1, best, if_pos List.mem_cons_self]
          rfl
        · simp only [List.mem_cons, same, false_or]
      | some r =>
        have of := keyed k' r best
        rw [List.filterMap_cons, best]
        change t.rowsOf k (r :: rest.filterMap _) = _
        rw [rowsOf_cons, of, others]
        by_cases same : k = k'
        · subst same
          rw [if_pos rfl, if_neg once.1, if_pos List.mem_cons_self, best]
          rfl
        · rw [if_neg (Ne.symm same)]
          simp only [List.mem_cons, same, false_or]
  refine (whole _ (List.nodup_dedup _)).trans ?_
  by_cases inside : k ∈ (entries.map fun e => t.key e.2).dedup
  · rw [if_pos inside]
  · have none : t.entriesOf k entries = [] := by
      rw [Keyed.entriesOf, List.filter_eq_nil_iff]
      intro e there same
      exact inside (List.mem_dedup.mpr (List.mem_map.mpr ⟨e, there, of_decide_eq_true same⟩))
    rw [if_neg inside, none]
    rfl

/-- The newest row of a key, of files and log. -/
def Keyed.newest (t : Keyed ρ κ) (k : κ) (files : List (DataFile ρ)) (log : List (Nat × List ρ))
    (after upto : Nat) : Option ρ := pick t.rank ((t.line k files log after upto).map Prod.snd)

theorem latest_newest (files : List (DataFile ρ)) (log : List (Nat × List ρ)) (after : Nat)
    (sound : Sound t files log after) (k : κ) (upto : Nat) :
    t.rowsOf k (t.latest (raw files log after upto)) = (t.newest k files log after upto).toList := by
  rw [latest_of, best_line t _ _ (line_perm files log after upto k)
    (line_ascending files log after sound k upto), Keyed.newest]

theorem newest_rows (t : Keyed ρ κ) (k : κ) (files : List (DataFile ρ)) (log : List (Nat × List ρ))
    (after upto : Nat) :
    t.newest k files log after upto = pick t.rank
      (t.rowsOf k ((byAge files).flatMap (·.rows)) ++ t.rowsOf k ((tail log after upto).map Prod.snd)) := by
  rw [Keyed.newest, Keyed.line, entriesOf_rows, List.map_append, rowsOf_append, List.map_flatMap]
  simp only [entries_rows]

/-! ### Reads -/

/-- A generation has one row of a key at most. -/
theorem generation_once (files : List (DataFile ρ)) (log : List (Nat × List ρ)) (after : Nat)
    (sound : Sound t files log after) (k : κ) (g : List (DataFile ρ))
    (inside : g ∈ generations files) : (t.rowsOf k (g.flatMap (·.rows))).length ≤ 1 := by
  have ascending := line_ascending files log after sound k 0
  have part : (t.entriesOf k (g.flatMap DataFile.entries)).Sublist (t.line k files log after 0) := by
    have within := List.sublist_flatten_of_mem inside
    rw [generations_flatten] at within
    exact ((within.flatMap _).trans (List.sublist_append_left _ _)).filter _
  have few := ascending.sublist part
  have rows : t.rowsOf k (g.flatMap (·.rows)) =
      (t.entriesOf k (g.flatMap DataFile.entries)).map Prod.snd := by
    rw [entriesOf_rows, List.map_flatMap]
    simp only [entries_rows]
  have same : ∀ e ∈ t.entriesOf k (g.flatMap DataFile.entries),
      ∀ x ∈ t.entriesOf k (g.flatMap DataFile.entries), e.1 = x.1 := by
    intro e first x second
    obtain ⟨f, file, of⟩ := List.mem_flatMap.mp (List.mem_filter.mp first).1
    obtain ⟨h, other, too⟩ := List.mem_flatMap.mp (List.mem_filter.mp second).1
    rw [((mem_entries f e).mp of).1, ((mem_entries h x).mp too).1,
      generation_ord files g inside f h file other]
  rw [rows, List.length_map]
  generalize t.entriesOf k (g.flatMap DataFile.entries) = entries at few same
  cases entries with
  | nil => exact Nat.zero_le _
  | cons e rest =>
    cases rest with
    | nil => exact Nat.le_refl _
    | cons x more =>
      rw [List.pairwise_cons] at few
      have less := few.1 x List.mem_cons_self
      have := same e List.mem_cons_self x (List.mem_cons_of_mem _ List.mem_cons_self)
      omega

/-- Where no row ranks above another, a key's row is that of the newest source with one. -/
theorem shadowed_of (flat : ∀ a b : ρ, t.rank a ≤ t.rank b) (k : κ) (sources : List (List ρ))
    (once : ∀ source ∈ sources, (t.rowsOf k source).length ≤ 1) (newer : List κ) :
    t.rowsOf k (t.shadowed newer sources) =
      if k ∈ newer then [] else (pick t.rank (t.rowsOf k sources.reverse.flatten)).toList := by
  induction sources generalizing newer with
  | nil =>
    rw [Keyed.shadowed]
    split <;> rfl
  | cons source older ih =>
    have others := ih (fun s inside => once s (List.mem_cons_of_mem _ inside))
      (newer ++ source.map t.key)
    have mine : t.rowsOf k (source.filter fun r => decide (t.key r ∉ newer)) =
        if k ∈ newer then [] else t.rowsOf k source := by
      rw [Keyed.rowsOf, List.filter_filter]
      split
      · rename_i there
        rw [List.filter_eq_nil_iff]
        intro r _ both
        rw [Bool.and_eq_true, decide_eq_true_eq, decide_eq_true_eq] at both
        exact both.2 (both.1 ▸ there)
      · rename_i none
        refine List.filter_congr fun r _ => ?_
        by_cases same : t.key r = k
        · rw [same, decide_eq_true none, Bool.and_true]
        · rw [decide_eq_false same, Bool.false_and]
    rw [Keyed.shadowed, rowsOf_append, others, mine, List.reverse_cons, List.flatten_append,
      List.flatten_singleton, rowsOf_append, pick_append]
    by_cases there : k ∈ newer
    · rw [if_pos there, if_pos there, if_pos (List.mem_append_left _ there)]
      rfl
    · rw [if_neg there, if_neg there]
      have few := once source List.mem_cons_self
      cases rows : t.rowsOf k source with
      | nil =>
        have none : k ∉ newer ++ source.map t.key := by
          intro inside
          rcases List.mem_append.mp inside with old | new
          · exact there old
          · obtain ⟨r, found, is⟩ := List.mem_map.mp new
            have : r ∈ t.rowsOf k source := (mem_rowsOf t k source r).mpr ⟨found, is⟩
            rw [rows] at this
            cases this
        rw [if_neg none, pick_nil, merge_none]
        rfl
      | cons r rest =>
        have one : rest = [] := by
          rw [rows, List.length_cons] at few
          exact List.length_eq_zero_iff.mp (by omega)
        have inside : r ∈ t.rowsOf k source := rows ▸ List.mem_cons_self
        obtain ⟨found, is⟩ := (mem_rowsOf t k source r).mp inside
        rw [one, if_pos (List.mem_append_right _ (is ▸ List.mem_map_of_mem found)), pick_singleton,
          merge_flat t.rank flat]
        rfl

theorem upsertView_of (s : Table ρ) (unordered : t.order = none)
    (sound : Sound t s.files s.log s.tiered) (k : κ) :
    t.rowsOf k (t.upsertView s) = (t.newest k s.files s.log s.tiered s.visible).toList := by
  have alone : t.rowsOf k (t.latest (tail s.log s.tiered s.visible)) =
      (pick t.rank (t.rowsOf k ((tail s.log s.tiered s.visible).map Prod.snd))).toList := by
    have empty : Sound t [] s.log s.tiered :=
      ⟨fun f inside => (List.not_mem_nil inside).elim,
        fun f inside => (List.not_mem_nil inside).elim, List.Pairwise.nil, sound.numbered⟩
    have whole := latest_newest [] s.log s.tiered empty k s.visible
    rw [raw, List.flatMap_nil, List.append_nil, newest_rows] at whole
    exact whole
  have once : ∀ source ∈ t.latest (tail s.log s.tiered s.visible) ::
      (generations s.files).reverse.map (fun g => g.flatMap (·.rows)),
      (t.rowsOf k source).length ≤ 1 := by
    intro source inside
    rcases List.mem_cons.mp inside with rfl | there
    · rw [alone]
      cases pick t.rank (t.rowsOf k ((tail s.log s.tiered s.visible).map Prod.snd)) <;> simp
    · obtain ⟨g, of, rfl⟩ := List.mem_map.mp there
      exact generation_once s.files s.log s.tiered sound k g (List.mem_reverse.mp of)
  rw [Keyed.upsertView, shadowed_of (flat_rank t unordered) k _ once, if_neg List.not_mem_nil,
    List.reverse_cons, List.flatten_append, List.flatten_singleton, ← List.map_reverse,
    List.reverse_reverse, rowsOf_append, alone, newest_rows, ← generations_flatten,
    pick_append, pick_toList, ← pick_append, ← List.flatMap_def, ← List.flatMap_id,
    List.flatMap_assoc]
  rfl

theorem tail_none (log : List (Nat × List ρ)) (after : Nat) : tail log after after = [] := by
  rw [List.eq_nil_iff_forall_not_mem]
  intro e inside
  obtain ⟨seg, _, above, below, _⟩ := (mem_tail log after after e).mp inside
  omega

/-- A table of one file and nothing in its log after it reads as the file. -/
theorem plain_of (s : Table ρ) (sound : Sound t s.files s.log s.tiered)
    (few : s.files.length ≤ 1) (k : κ) :
    t.rowsOf k ((raw s.files s.log s.tiered s.tiered).map Prod.snd) =
      (t.newest k s.files s.log s.tiered s.tiered).toList := by
  rw [newest_rows, raw, tail_none, List.nil_append, List.map_nil, rowsOf_nil, List.append_nil,
    List.map_flatMap]
  simp only [entries_rows]
  cases files : s.files with
  | nil => rfl
  | cons f rest =>
    rw [files, List.length_cons] at few
    rw [List.length_eq_zero_iff.mp (show rest.length = 0 by omega)]
    have one := rowsOf_once t k f.rows (sound.once f (files ▸ List.mem_cons_self))
    change t.rowsOf k (f.rows ++ []) = (pick t.rank (t.rowsOf k (f.rows ++ []))).toList
    rw [List.append_nil, pick_few t.rank _ one]

/-- A read's row of a key is its newest, where that is live. -/
theorem read_of (s : Table ρ) (sound : Sound t s.files s.log s.tiered) (now : Int) (k : κ) :
    t.rowsOf k (t.read s now) =
      ((t.newest k s.files s.log s.tiered s.visible).filter (t.live now)).toList := by
  rw [Keyed.read, Keyed.rowsOf, List.filter_comm, Option.toList_filter]
  congr 1
  change t.rowsOf k _ = _
  cases order : t.order with
  | none => exact upsertView_of s order sound k
  | some o =>
    change t.rowsOf k (if _ then _ else _) = _
    split
    · exact latest_newest s.files s.log s.tiered sound k s.visible
    · rename_i plain
      rw [not_or, not_lt, not_not] at plain
      rw [plain.2]
      exact plain_of s sound plain.1 k

end Pondra.Tier
