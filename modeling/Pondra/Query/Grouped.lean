import Pondra.Query.Newest

set_option autoImplicit false

namespace Pondra.Query

open Tier

section groups

variable {γ ν : Type} [DecidableEq ν] (t : Upsert γ)

theorem mem_groups (entries : List (Nat × Row γ ν)) (k : List (Option ν))
    (g : List (Nat × Row γ ν)) :
    (k, g) ∈ t.groups entries ↔ (∃ e ∈ entries, t.keyOf e.2 = k) ∧
      g = entries.filter fun e => decide (t.keyOf e.2 = k) := by
  rw [Upsert.groups, List.mem_map]
  constructor
  · intro ⟨key, inside, same⟩
    obtain ⟨rfl, rfl⟩ := Prod.mk.inj same
    exact ⟨List.mem_map.mp (List.mem_dedup.mp inside), rfl⟩
  · intro ⟨some_, same⟩
    exact ⟨k, List.mem_dedup.mpr (List.mem_map.mpr some_), by rw [same]⟩

theorem groups_keys (entries : List (Nat × Row γ ν)) :
    (t.groups entries).map Prod.fst = (entries.map fun e => t.keyOf e.2).dedup := by
  rw [Upsert.groups, List.map_map]
  exact List.map_id _

/-- A row's partners among what is worked out for each group: its own group's, where its key has no
NULL. -/
theorem any_groups {α : Type} (entries : List (Nat × Row γ ν)) (e : Nat × Row γ ν)
    (inside : e ∈ entries) (f : List (Nat × Row γ ν) → α) (p : α → Bool) :
    ((t.groups entries).map fun g => (g.1, f g.2)).any
        (fun g => sqlOn (t.keyOf e.2) g.1 && p g.2) =
      (decide (none ∉ t.keyOf e.2) &&
        p (f (entries.filter fun x => decide (t.keyOf x.2 = t.keyOf e.2)))) := by
  have same : ∀ x ∈ entries, (sqlOn (t.keyOf e.2) (t.keyOf x.2) = true ↔
      t.keyOf e.2 = t.keyOf x.2 ∧ none ∉ t.keyOf e.2) := fun x _ =>
    sqlOn_iff _ _ (by rw [Upsert.keyOf, Upsert.keyOf, List.length_map, List.length_map])
  rw [Bool.eq_iff_iff, List.any_eq_true, Bool.and_eq_true, decide_eq_true_eq]
  constructor
  · intro ⟨g, there, both⟩
    obtain ⟨⟨k, rows⟩, group, rfl⟩ := List.mem_map.mp there
    obtain ⟨⟨x, other, rfl⟩, rfl⟩ := (mem_groups t entries k rows).mp group
    rw [Bool.and_eq_true] at both
    obtain ⟨key, full⟩ := (same x other).mp both.1
    refine ⟨full, ?_⟩
    rw [key]
    exact both.2
  · intro ⟨full, holds⟩
    refine ⟨(t.keyOf e.2, f (entries.filter fun x => decide (t.keyOf x.2 = t.keyOf e.2))), ?_, ?_⟩
    · exact List.mem_map.mpr ⟨(t.keyOf e.2, _),
        (mem_groups t entries _ _).mpr ⟨⟨e, inside, rfl⟩, rfl⟩, rfl⟩
    · rw [Bool.and_eq_true]
      exact ⟨(same e inside).mpr ⟨rfl, full⟩, holds⟩

/-- One partner at most. -/
theorem groups_one {α : Type} (entries : List (Nat × Row γ ν)) (f : List (Nat × Row γ ν) → α)
    (p : Nat × Row γ ν → α → Bool) (e : Nat × Row γ ν) :
    ((t.groups entries).map fun g => (g.1, f g.2)).Pairwise fun a b =>
      ¬((sqlOn (t.keyOf e.2) a.1 && p e a.2) = true ∧
        (sqlOn (t.keyOf e.2) b.1 && p e b.2) = true) := by
  have once : ((t.groups entries).map Prod.fst).Nodup := by
    rw [groups_keys]
    exact List.nodup_dedup _
  apply List.pairwise_map.mpr
  apply List.Pairwise.imp_of_mem _ (List.pairwise_map.mp once)
  intro a b first second differ both
  have width : ∀ g ∈ t.groups entries, (t.keyOf e.2).length = g.1.length := by
    intro g there
    obtain ⟨⟨x, _, key⟩, _⟩ := (mem_groups t entries g.1 g.2).mp there
    rw [← key, Upsert.keyOf, Upsert.keyOf, List.length_map, List.length_map]
  rw [Bool.and_eq_true, Bool.and_eq_true] at both
  have left := ((sqlOn_iff _ _ (width a first)).mp both.1.1).1
  have right := ((sqlOn_iff _ _ (width b second)).mp both.2.1).1
  exact differ (left.symm.trans right)

/-- Joined with what is worked out for each group, rows with a NULL in their key are left out. -/
theorem joined_groups {α : Type} (entries : List (Nat × Row γ ν))
    (f : List (Nat × Row γ ν) → α) (p : Nat × Row γ ν → α → Bool) :
    joined (fun e (g : List (Option ν) × α) => sqlOn (t.keyOf e.2) g.1 && p e g.2) entries
        ((t.groups entries).map fun g => (g.1, f g.2)) =
      entries.filter fun e => decide (none ∉ t.keyOf e.2) &&
        p e (f (entries.filter fun x => decide (t.keyOf x.2 = t.keyOf e.2))) := by
  rw [joined_filter _ _ _ (groups_one t entries f p)]
  apply List.filter_congr
  intro e inside
  exact any_groups t entries e inside f (p e)

end groups

/-! ### The newest row of each key -/

/-- `first_value … ORDER BY "_ord" DESC` is a value of one of the rows with the greatest `_ord`. -/
def Lawful {γ ν : Type} (first : γ → List (Nat × Row γ ν) → Option ν) : Prop :=
  ∀ c g, g ≠ [] → ∃ e ∈ g, (∀ x ∈ g, x.1 ≤ e.1) ∧ first c g = e.2 c

section rows

variable {γ ν : Type} [DecidableEq γ] [LinearOrder ν] {t : Upsert γ}
  {first : γ → List (Nat × Row γ ν) → Option ν} {entries : List (Nat × Row γ ν)}

/-- A group's row, column by column, is its newest. -/
theorem group_row (lawful : Lawful first) (unordered : t.order = none) (apart : Apart t entries)
    (r : Row γ ν) (newest : Newest t entries r) (g : List (Nat × Row γ ν))
    (of_ : g = entries.filter fun e => decide (t.keyOf e.2 = t.keyOf r)) :
    (fun c => if c ∈ t.key then g.head?.bind fun e => e.2 c else first c g) = r := by
  obtain ⟨ord, inside, most⟩ := newest
  have here : (ord, r) ∈ g := by
    rw [of_]
    exact List.mem_filter.mpr ⟨inside, decide_eq_true rfl⟩
  have members : ∀ e ∈ g, e ∈ entries ∧ t.keyOf e.2 = t.keyOf r := by
    intro e there
    rw [of_] at there
    obtain ⟨entry, key⟩ := List.mem_filter.mp there
    exact ⟨entry, of_decide_eq_true key⟩
  have flat : ∀ x : Row γ ν, t.rank x = ⊥ := fun x => by rw [Upsert.rank, unordered]
  funext c
  by_cases key : c ∈ t.key
  · rw [if_pos key]
    cases rows : g with
    | nil => rw [rows] at here; cases here
    | cons e rest =>
      have same := (members e (by rw [rows]; exact List.mem_cons_self)).2
      exact List.map_inj_left.mp same c key
  · rw [if_neg key]
    obtain ⟨e, there, top, value⟩ := lawful c g (List.ne_nil_of_mem here)
    obtain ⟨entry, same⟩ := members e there
    have below : e.1 ≤ ord := by
      rcases most e entry same with less | ⟨_, le⟩
      · rw [flat, flat] at less
        exact absurd less (lt_irrefl _)
      · exact le
    have is := apart_same apart e (ord, r) entry inside same (Nat.le_antisymm below (top _ here))
    rw [value, is]

/-- Without `order_by`: a row for each key, its newest. -/
theorem byOrd_rows (lawful : Lawful first) (unordered : t.order = none) (apart : Apart t entries) :
    ((t.byOrd first entries).map t.keyOf).Nodup ∧
      ∀ r, r ∈ t.byOrd first entries ↔ Newest t entries r := by
  have each : ∀ k g, (k, g) ∈ t.groups entries → ∃ r, Newest t entries r ∧ t.keyOf r = k ∧
      (fun c => if c ∈ t.key then g.head?.bind fun e => e.2 c else first c g) = r := by
    intro k g there
    obtain ⟨⟨e, inside, rfl⟩, of_⟩ := (mem_groups t entries k g).mp there
    obtain ⟨r, newest, key⟩ := newest_some t entries e inside
    exact ⟨r, newest, key, group_row lawful unordered apart r newest g (by rw [key]; exact of_)⟩
  constructor
  · have keys : (t.byOrd first entries).map t.keyOf = (t.groups entries).map Prod.fst := by
      rw [Upsert.byOrd, List.map_map]
      apply List.map_congr_left
      intro ⟨k, g⟩ there
      obtain ⟨r, _, key, is⟩ := each k g there
      rw [← key, ← is]
      rfl
    rw [keys, groups_keys]
    exact List.nodup_dedup _
  · intro r
    rw [Upsert.byOrd, List.mem_map]
    constructor
    · intro ⟨⟨k, g⟩, there, is⟩
      obtain ⟨x, newest, _, same⟩ := each k g there
      rw [← is]
      exact same ▸ newest
    · intro newest
      have ⟨ord, inside, _⟩ := newest
      refine ⟨(t.keyOf r, entries.filter fun e => decide (t.keyOf e.2 = t.keyOf r)),
        (mem_groups t entries _ _).mpr ⟨⟨(ord, r), inside, rfl⟩, rfl⟩, ?_⟩
      exact group_row lawful unordered apart r newest _ rfl

omit [DecidableEq γ] in
/-- With `order_by`: a row for each key without a NULL, its newest. -/
theorem byOrder_rows (o : γ) (ordered : t.order = some o) (apart : Apart t entries) :
    ((t.byOrder o entries).map t.keyOf).Nodup ∧
      ∀ r, r ∈ t.byOrder o entries ↔ Newest t entries r ∧ none ∉ t.keyOf r := by
  have ranks : ∀ r : Row γ ν, t.rank r = placeOf (r o) := fun r => by rw [Upsert.rank, ordered]
  have rows := joined_groups t entries (fun g => greatest (g.map fun e => placeOf (e.2 o)))
    (fun e most => decide (placeOf (e.2 o) = most))
  -- the rows of their key's greatest `order_by`
  have highest : ∀ e : Nat × Row γ ν, e ∈ entries.filter (fun e => decide (none ∉ t.keyOf e.2) &&
      decide (placeOf (e.2 o) = greatest ((entries.filter fun x =>
        decide (t.keyOf x.2 = t.keyOf e.2)).map fun e => placeOf (e.2 o)))) ↔
      e ∈ entries ∧ none ∉ t.keyOf e.2 ∧
        ∀ x ∈ entries, t.keyOf x.2 = t.keyOf e.2 → t.rank x.2 ≤ t.rank e.2 := by
    intro e
    rw [List.mem_filter, Bool.and_eq_true, decide_eq_true_eq, decide_eq_true_eq]
    apply and_congr_right
    intro inside
    rw [eq_greatest]
    · apply and_congr_right
      intro _
      constructor
      · intro most x other key
        rw [ranks, ranks]
        exact most _ (List.mem_map.mpr
          ⟨x, List.mem_filter.mpr ⟨other, decide_eq_true key⟩, rfl⟩)
      · intro most w there
        obtain ⟨x, found, rfl⟩ := List.mem_map.mp there
        obtain ⟨other, key⟩ := List.mem_filter.mp found
        have below := most x other (of_decide_eq_true key)
        rwa [ranks, ranks] at below
    · exact List.mem_map.mpr ⟨e, List.mem_filter.mpr ⟨inside, decide_eq_true rfl⟩, rfl⟩
  rw [Upsert.byOrder, rows]
  generalize picked : entries.filter (fun e => decide (none ∉ t.keyOf e.2) &&
      decide (placeOf (e.2 o) = greatest ((entries.filter fun x =>
        decide (t.keyOf x.2 = t.keyOf e.2)).map fun e => placeOf (e.2 o)))) = c at highest ⊢
  have apart' : Apart t c := by
    rw [← picked]
    exact List.Pairwise.filter _ apart
  rw [joined_groups t c (fun g => greatest (g.map Prod.fst))
    (fun e (most : Nat) => decide (e.1 = most))]
  -- and of these, those of the greatest `_ord`
  have last : ∀ e : Nat × Row γ ν, e ∈ c.filter (fun e => decide (none ∉ t.keyOf e.2) &&
      decide (e.1 = greatest ((c.filter fun x =>
        decide (t.keyOf x.2 = t.keyOf e.2)).map Prod.fst))) ↔
      e ∈ c ∧ ∀ x ∈ c, t.keyOf x.2 = t.keyOf e.2 → x.1 ≤ e.1 := by
    intro e
    rw [List.mem_filter, Bool.and_eq_true, decide_eq_true_eq, decide_eq_true_eq]
    apply and_congr_right
    intro inside
    have full := ((highest e).mp inside).2.1
    rw [eq_greatest, and_iff_right full]
    · constructor
      · intro most x other key
        exact most _ (List.mem_map.mpr
          ⟨x, List.mem_filter.mpr ⟨other, decide_eq_true key⟩, rfl⟩)
      · intro most w there
        obtain ⟨x, found, rfl⟩ := List.mem_map.mp there
        obtain ⟨other, key⟩ := List.mem_filter.mp found
        exact most x other (of_decide_eq_true key)
    · exact List.mem_map.mpr ⟨e, List.mem_filter.mpr ⟨inside, decide_eq_true rfl⟩, rfl⟩
  constructor
  · rw [List.map_map]
    apply List.pairwise_map.mpr
    apply List.Pairwise.imp_of_mem _ (List.Pairwise.filter _ apart')
    intro a b first second differ key
    obtain ⟨a_, most⟩ := (last a).mp first
    obtain ⟨b_, top⟩ := (last b).mp second
    exact differ key (Nat.le_antisymm (top a a_ key) (most b b_ key.symm))
  · intro r
    rw [List.mem_map]
    constructor
    · intro ⟨e, there, is⟩
      obtain ⟨inside, most⟩ := (last e).mp there
      obtain ⟨entry, full, top⟩ := (highest e).mp inside
      rw [← is]
      refine ⟨⟨e.1, entry, fun x other key => ?_⟩, full⟩
      rcases lt_or_eq_of_le (top x other key) with less | same
      · exact Or.inl less
      · refine Or.inr ⟨same, most x ((highest x).mpr ⟨other, ?_, ?_⟩) key⟩
        · rw [key]
          exact full
        · intro y later with_
          rw [same]
          exact top y later (with_.trans key)
    · intro ⟨⟨ord, inside, most⟩, full⟩
      refine ⟨(ord, r), (last (ord, r)).mpr ⟨(highest (ord, r)).mpr ⟨inside, full, ?_⟩, ?_⟩, rfl⟩
      · intro x other key
        rcases most x other key with less | ⟨same, _⟩
        · exact le_of_lt less
        · exact le_of_eq same
      · intro x there key
        obtain ⟨other, _, top⟩ := (highest x).mp there
        rcases most x other key with less | ⟨_, le⟩
        · exact absurd (top (ord, r) inside key.symm) (not_le_of_gt less)
        · exact le

end rows

end Pondra.Query
