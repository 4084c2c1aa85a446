import Pondra.Query.Grouped

set_option autoImplicit false

namespace Pondra.Query

open Tier

section shadowed

variable {γ ν : Type} {t : Upsert γ}

/-! ### Sources, newest first -/

/-- A row of the first source that has its key, no newer row having it. -/
def First (t : Upsert γ) : List (Row γ ν) → List (List (Row γ ν)) → Row γ ν → Prop
  | _, [], _ => False
  | newer, source :: older, r =>
    (r ∈ source ∧ ∀ n ∈ newer, t.keyOf n ≠ t.keyOf r) ∨ First t (newer ++ source) older r

theorem First.apart (newer : List (Row γ ν)) (sources : List (List (Row γ ν))) (r : Row γ ν)
    (first : First t newer sources r) : ∀ n ∈ newer, t.keyOf n ≠ t.keyOf r := by
  induction sources generalizing newer with
  | nil => cases first
  | cons source older ih =>
    intro n inside
    rcases first with ⟨_, apart⟩ | later
    · exact apart n inside
    · exact ih (newer ++ source) later n (List.mem_append_left source inside)

/-- Rows with a NULL in their key that are live lie under no row of their key. -/
def Bare (t : Upsert γ) (values : Scalars ν) (now : Int) (newer older : List (Row γ ν)) : Prop :=
  ∀ r ∈ older, none ∈ t.keyOf r → t.live values now r = true → ∀ n ∈ newer, t.keyOf n ≠ t.keyOf r

theorem bare_append (values : Scalars ν) (now : Int) (a b older : List (Row γ ν)) :
    Bare t values now (a ++ b) older ↔ Bare t values now a older ∧ Bare t values now b older := by
  constructor
  · intro bare
    exact ⟨fun r inside null live n there =>
        bare r inside null live n (List.mem_append_left b there),
      fun r inside null live n there =>
        bare r inside null live n (List.mem_append_right a there)⟩
  · intro ⟨left, right⟩ r inside null live n there
    rcases List.mem_append.mp there with before | after
    · exact left r inside null live n before
    · exact right r inside null live n after

variable [DecidableEq ν]

/-- A row is shadowed by the rows of its key, unless the key has a NULL. -/
theorem sqlOn_rows (r n : Row γ ν) : sqlOn (t.keyOf r) (t.keyOf n) = true ↔
    t.keyOf n = t.keyOf r ∧ none ∉ t.keyOf r := by
  have width : (t.keyOf r).length = (t.keyOf n).length := by
    rw [Upsert.keyOf, Upsert.keyOf, List.length_map, List.length_map]
  rw [sqlOn_iff _ _ width, eq_comm]

section shadows

variable (values : Scalars ν) (now : Int)

/-- What is shown of sources under `newer` is the first row of each key, where that is live. -/
def Shows (t : Upsert γ) (newer : List (Row γ ν)) (sources : List (List (Row γ ν))) : Prop :=
  (((t.shadowed newer sources).filter (t.live values now)).map t.keyOf).Nodup ∧
    ∀ r, r ∈ (t.shadowed newer sources).filter (t.live values now) ↔
      First t newer sources r ∧ t.live values now r = true

/-- The rows of a source that nothing newer shadows. -/
theorem mem_unshadowed (newer source : List (Row γ ν)) (r : Row γ ν) :
    r ∈ (source.filter fun r => !newer.any fun n => sqlOn (t.keyOf r) (t.keyOf n)).filter
        (t.live values now) ↔
      r ∈ source ∧ t.live values now r = true ∧
        (none ∉ t.keyOf r → ∀ n ∈ newer, t.keyOf n ≠ t.keyOf r) := by
  rw [List.mem_filter, List.mem_filter, Bool.not_eq_true', List.any_eq_false]
  constructor
  · intro ⟨⟨inside, apart⟩, live⟩
    refine ⟨inside, live, fun full n there same => ?_⟩
    exact apart n there ((sqlOn_rows r n).mpr ⟨same, full⟩)
  · intro ⟨inside, live, apart⟩
    refine ⟨⟨inside, fun n there on => ?_⟩, live⟩
    obtain ⟨same, full⟩ := (sqlOn_rows r n).mp on
    exact apart full n there same

/-- One source more: what is under it must be shown, and its own bare rows lie under nothing. -/
theorem shows_cons (newer source : List (Row γ ν)) (older : List (List (Row γ ν)))
    (once : (source.map t.keyOf).Nodup) :
    Shows values now t newer (source :: older) ↔
      Bare t values now newer source ∧ Shows values now t (newer ++ source) older := by
  have one : ∀ a ∈ source, ∀ b ∈ source, t.keyOf a = t.keyOf b → a = b := fun a first b second =>
    List.inj_on_of_nodup_map once first second
  have here := mem_unshadowed (t := t) values now newer source
  have part : ((source.filter fun r => !newer.any fun n => sqlOn (t.keyOf r) (t.keyOf n)).filter
      (t.live values now)).Sublist source := List.filter_sublist.trans List.filter_sublist
  rw [Shows, Upsert.shadowed, List.filter_append, List.map_append, List.nodup_append]
  generalize (source.filter fun r => !newer.any fun n => sqlOn (t.keyOf r) (t.keyOf n)).filter
    (t.live values now) = own at here part ⊢
  constructor
  · intro ⟨⟨_, rest, disjoint⟩, rows⟩
    refine ⟨fun r inside null live n there => ?_, rest, fun r => ⟨fun shown => ?_, fun wanted => ?_⟩⟩
    · have shown := (here r).mpr ⟨inside, live, fun full => absurd null full⟩
      have first := ((rows r).mp (List.mem_append_left _ shown)).1
      exact First.apart newer (source :: older) r first n there
    · obtain ⟨first, live⟩ := (rows r).mp (List.mem_append_right own shown)
      rcases first with ⟨inside, apart⟩ | later
      · -- a row that this source has too is shown twice
        have twice := (here r).mpr ⟨inside, live, fun _ => apart⟩
        exact absurd rfl (disjoint (t.keyOf r) (List.mem_map_of_mem twice) (t.keyOf r)
          (List.mem_map_of_mem shown))
      · exact ⟨later, live⟩
    · rcases List.mem_append.mp ((rows r).mpr ⟨Or.inr wanted.1, wanted.2⟩) with mine | others
      · have apart := First.apart (newer ++ source) older r wanted.1 r
          (List.mem_append_right newer ((here r).mp mine).1)
        exact absurd rfl apart
      · exact others
  · intro ⟨bare, rest, rows⟩
    refine ⟨⟨?_, rest, fun k first k' second same => ?_⟩, fun r => ?_⟩
    · exact once.sublist (part.map t.keyOf)
    · obtain ⟨a, inside, rfl⟩ := List.mem_map.mp first
      obtain ⟨b, shown, rfl⟩ := List.mem_map.mp second
      have apart := First.apart (newer ++ source) older b ((rows b).mp shown).1 a
        (List.mem_append_right newer (part.subset inside))
      exact apart same
    · rw [List.mem_append, here r, rows r]
      constructor
      · intro shown
        rcases shown with ⟨inside, live, apart⟩ | ⟨later, live⟩
        · refine ⟨Or.inl ⟨inside, ?_⟩, live⟩
          by_cases full : none ∈ t.keyOf r
          · exact bare r inside full live
          · exact apart full
        · exact ⟨Or.inr later, live⟩
      · intro ⟨first, live⟩
        rcases first with ⟨inside, apart⟩ | later
        · exact Or.inl ⟨inside, live, fun _ => apart⟩
        · exact Or.inr ⟨later, live⟩

/-- Sources show the first row of each key where live rows with a NULL in their key lie under no row
of that key. -/
theorem shows_iff (sources : List (List (Row γ ν)))
    (once : ∀ source ∈ sources, (source.map t.keyOf).Nodup) (newer : List (Row γ ν)) :
    Shows values now t newer sources ↔ (newer :: sources).Pairwise (Bare t values now) := by
  induction sources generalizing newer with
  | nil =>
    constructor
    · intro _
      exact List.pairwise_singleton _ _
    · intro _
      refine ⟨List.nodup_nil, fun r => ⟨fun inside => ?_, fun wanted => ?_⟩⟩
      · cases inside
      · cases wanted.1
  | cons source older ih =>
    rw [shows_cons values now newer source older (once source List.mem_cons_self),
      ih (fun s inside => once s (List.mem_cons_of_mem source inside)), List.pairwise_cons,
      List.pairwise_cons, List.pairwise_cons]
    constructor
    · intro ⟨first, both, rest⟩
      refine ⟨fun s inside => ?_, fun s inside => ?_, rest⟩
      · rcases List.mem_cons.mp inside with rfl | later
        · exact first
        · exact ((bare_append values now newer source s).mp (both s later)).1
      · exact ((bare_append values now newer source s).mp (both s inside)).2
    · intro ⟨all, own, rest⟩
      refine ⟨all source List.mem_cons_self, fun s inside => ?_, rest⟩
      exact (bare_append values now newer source s).mpr
        ⟨all s (List.mem_cons_of_mem source inside), own s inside⟩

end shadows

end shadowed

/-! ### Files and log as sources -/

section blocks

variable {γ ν : Type} {t : Upsert γ}

/-- A key's rows come in the order of their `_ord`. -/
def Rising (t : Upsert γ) (entries : List (Nat × Row γ ν)) : Prop :=
  entries.Pairwise fun a b => t.keyOf a.2 = t.keyOf b.2 → a.1 < b.1

/-- The table by its key alone. -/
def Upsert.keyed (t : Upsert γ) : Keyed (Row γ ν) (List (Option ν)) :=
  ⟨t.keyOf, fun _ => false, none, none, none⟩

/-- Every generation of files has a row of a key at most, and the log's rows are after them. -/
def Stored.Sound (t : Upsert γ) (s : Stored γ ν) : Prop :=
  Tier.Sound t.keyed s.files s.log s.tiered

/-- Generations of files, then the log, oldest first. -/
def Stored.blocks (s : Stored γ ν) (upto : Nat) : List (List (Nat × Row γ ν)) :=
  (generations s.files).map (fun g => g.flatMap DataFile.entries) ++ [tail s.log s.tiered upto]

theorem blocks_flatten (s : Stored γ ν) (upto : Nat) :
    (s.blocks upto).flatten =
      (byAge s.files).flatMap DataFile.entries ++ tail s.log s.tiered upto := by
  rw [Stored.blocks, List.flatten_append, List.flatten_singleton, ← generations_flatten,
    ← List.flatMap_def, ← List.flatMap_id, List.flatMap_assoc]
  rfl

theorem raw_perm (s : Stored γ ν) (upto : Nat) : (s.raw upto).Perm (s.blocks upto).flatten := by
  rw [blocks_flatten, Stored.raw, Tier.raw]
  apply List.perm_append_comm.trans
  exact ((byAge_perm s.files).symm.flatMap_right _).append_right _

theorem blocks_order (s : Stored γ ν) (sound : s.Sound t) (upto : Nat) :
    Rising t (s.blocks upto).flatten := by
  classical
  have each : ∀ k, ((s.blocks upto).flatten.filter fun e => decide (t.keyOf e.2 = k)).Pairwise
      fun a b => a.1 < b.1 := by
    intro k
    rw [blocks_flatten]
    exact line_ascending s.files s.log s.tiered sound k upto
  rw [Rising, List.pairwise_iff_getElem]
  intro i j low high less same
  have one := List.pairwise_filter.mp (each (t.keyOf ((s.blocks upto).flatten[i]).2))
  exact List.pairwise_iff_getElem.mp one i j low high less (decide_eq_true rfl)
    (decide_eq_true same.symm)

theorem Rising.apart {entries : List (Nat × Row γ ν)} (order : Rising t entries) :
    Apart t entries :=
  List.Pairwise.imp (fun less same => Nat.ne_of_lt (less same)) order

theorem raw_apart (s : Stored γ ν) (sound : s.Sound t) (upto : Nat) : Apart t (s.raw upto) := by
  apply ((raw_perm s upto).pairwise_iff _).mpr (blocks_order s sound upto).apart
  intro a b far same ord
  exact far same.symm ord.symm

end blocks

/-! ### The newest rows, by source -/

section newest

variable {γ ν : Type} [LinearOrder ν] {t : Upsert γ}

theorem newest_perm {entries line : List (Nat × Row γ ν)} (perm : entries.Perm line) (r : Row γ ν) :
    Newest t entries r ↔ Newest t line r := by
  simp only [Newest, perm.mem_iff]

/-- Without `order_by`, the newest is the row of the greatest `_ord`. -/
theorem newest_flat (unordered : t.order = none) (entries : List (Nat × Row γ ν)) (r : Row γ ν) :
    Newest t entries r ↔ ∃ ord, (ord, r) ∈ entries ∧
      ∀ e ∈ entries, t.keyOf e.2 = t.keyOf r → e.1 ≤ ord := by
  have flat : ∀ x : Row γ ν, t.rank x = ⊥ := fun x => by rw [Upsert.rank, unordered]
  simp only [Newest, flat, lt_irrefl, false_or, true_and]

/-- Under newer rows, a row is the newest where its key is none of theirs. -/
theorem newest_append (unordered : t.order = none) (older newer : List (Nat × Row γ ν))
    (order : Rising t (older ++ newer)) (r : Row γ ν) :
    Newest t (older ++ newer) r ↔
      Newest t newer r ∨ ((∀ e ∈ newer, t.keyOf e.2 ≠ t.keyOf r) ∧ Newest t older r) := by
  have past := (List.pairwise_append.mp order).2.2
  rw [newest_flat unordered, newest_flat unordered, newest_flat unordered]
  constructor
  · intro ⟨ord, inside, most⟩
    rcases List.mem_append.mp inside with before | after
    · right
      refine ⟨fun e there same => ?_, ord, before, fun e there => ?_⟩
      · have below := most e (List.mem_append_right older there) same
        have above := past (ord, r) before e there same.symm
        omega
      · exact most e (List.mem_append_left newer there)
    · exact Or.inl ⟨ord, after, fun e there => most e (List.mem_append_right older there)⟩
  · intro either
    rcases either with ⟨ord, inside, most⟩ | ⟨none_, ord, inside, most⟩
    · refine ⟨ord, List.mem_append_right older inside, fun e there same => ?_⟩
      rcases List.mem_append.mp there with before | after
      · exact Nat.le_of_lt (past e before (ord, r) inside same)
      · exact most e after same
    · refine ⟨ord, List.mem_append_left newer inside, fun e there same => ?_⟩
      rcases List.mem_append.mp there with before | after
      · exact most e before same
      · exact absurd same (none_ e after)

/-- A source that gives the newest row of each key of a block. -/
def Of (t : Upsert γ) (source : List (Row γ ν)) (block : List (Nat × Row γ ν)) : Prop :=
  (source.map t.keyOf).Nodup ∧ ∀ r, r ∈ source ↔ Newest t block r

theorem Of.keys {source : List (Row γ ν)} {block : List (Nat × Row γ ν)} (of_ : Of t source block)
    (k : List (Option ν)) :
    (∀ n ∈ source, t.keyOf n ≠ k) ↔ ∀ e ∈ block, t.keyOf e.2 ≠ k := by
  constructor
  · intro none_ e inside same
    obtain ⟨r, newest, key⟩ := newest_some t block e inside
    exact none_ r ((of_.2 r).mpr newest) (key.trans same)
  · intro none_ n inside same
    obtain ⟨ord, there, _⟩ := (of_.2 n).mp inside
    exact none_ (ord, n) there same

/-- The first row of a key, source by source, is the newest of them all. -/
theorem first_newest (unordered : t.order = none) (sources : List (List (Row γ ν)))
    (blocks : List (List (Nat × Row γ ν))) (of_ : List.Forall₂ (Of t) sources blocks)
    (order : Rising t blocks.reverse.flatten) (newer : List (Row γ ν)) (r : Row γ ν) :
    First t newer sources r ↔
      (∀ n ∈ newer, t.keyOf n ≠ t.keyOf r) ∧ Newest t blocks.reverse.flatten r := by
  induction of_ generalizing newer with
  | nil =>
    constructor
    · intro first
      cases first
    · intro ⟨_, _, inside, _⟩
      cases inside
  | @cons source block sources blocks here rest ih =>
    rw [List.reverse_cons, List.flatten_append, List.flatten_singleton] at order ⊢
    have old := (List.pairwise_append.mp order).1
    have others := ih old (newer ++ source)
    rw [newest_append unordered _ _ order r, First, others, here.2 r, ← here.keys (t.keyOf r)]
    constructor
    · intro either
      rcases either with ⟨newest, apart⟩ | ⟨apart, newest⟩
      · exact ⟨apart, Or.inl newest⟩
      · exact ⟨fun n inside => apart n (List.mem_append_left source inside),
          Or.inr ⟨fun n inside => apart n (List.mem_append_right newer inside), newest⟩⟩
    · intro ⟨apart, either⟩
      rcases either with newest | ⟨none_, newest⟩
      · exact Or.inl ⟨newest, apart⟩
      · refine Or.inr ⟨fun n inside => ?_, newest⟩
        rcases List.mem_append.mp inside with before | after
        · exact apart n before
        · exact none_ n after

/-- A generation's rows are each the newest of their key there. -/
theorem generation_of (unordered : t.order = none) (files : List (DataFile (Row γ ν)))
    (g : List (DataFile (Row γ ν))) (inside : g ∈ generations files)
    (order : Rising t (g.flatMap DataFile.entries)) :
    Of t (g.flatMap (·.rows)) (g.flatMap DataFile.entries) := by
  have rows : (g.flatMap DataFile.entries).map Prod.snd = g.flatMap (·.rows) := by
    rw [List.map_flatMap]
    simp only [entries_rows]
  have same : ∀ a ∈ g.flatMap DataFile.entries, ∀ b ∈ g.flatMap DataFile.entries, a.1 = b.1 := by
    intro a first b second
    obtain ⟨f, file, of_⟩ := List.mem_flatMap.mp first
    obtain ⟨h, other, too⟩ := List.mem_flatMap.mp second
    rw [((mem_entries f a).mp of_).1, ((mem_entries h b).mp too).1,
      generation_ord files g inside f h file other]
  rw [← rows]
  constructor
  · rw [List.map_map]
    apply List.pairwise_map.mpr
    apply List.Pairwise.imp_of_mem _ order
    intro a b first second less key
    have := same a first b second
    exact absurd (less key) (by omega)
  · intro r
    rw [newest_flat unordered, List.mem_map]
    constructor
    · intro ⟨e, there, is⟩
      exact ⟨e.1, is ▸ there, fun x other _ => Nat.le_of_eq (same x other e there)⟩
    · intro ⟨ord, there, _⟩
      exact ⟨(ord, r), there, rfl⟩

end newest

end Pondra.Query
