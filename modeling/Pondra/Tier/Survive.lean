import Pondra.Tier.Merges

set_option autoImplicit false

namespace Pondra.Tier

open Foremost Machines

variable {ρ κ : Type} {t : Keyed ρ κ} {s : Table ρ}

/-! ### A mark moved along -/

theorem idle_tidy (tidy : Tidy t s) (least hwm : Nat) : Tidy t (idled s least hwm) := by
  rw [idled]
  split
  · rename_i moves
    have below : min hwm s.visible < s.next := by
      have := tidy.tiered
      rw [Table.visible]
      omega
    refine ⟨⟨fun f inside => ?_, tidy.sound.once, tidy.sound.apart, tidy.sound.numbered⟩,
      tidy.begins, tidy.room, below, tidy.paths, tidy.used⟩
    exact Nat.le_trans (tidy.sound.below f inside) (Nat.le_of_lt moves.1)
  · exact tidy

/-! ### Expired rows -/

theorem fresh_before (early late : Int) (less : early ≤ late) (r : ρ)
    (fresh : t.fresh late r = true) : t.fresh early r = true := by
  rw [Keyed.fresh] at fresh ⊢
  split at fresh
  · rfl
  · rename_i c secs _
    obtain ⟨us, value, within⟩ := (Option.any_eq_true _ _).mp fresh
    rw [decide_eq_true_eq] at within
    exact (Option.any_eq_true _ _).mpr ⟨us, value, decide_eq_true (by omega)⟩

/-- A dead row that a read may give is one that a job found expired. -/
theorem dead_expired (r : ρ) (now : Int) (dead : t.dead s r = true) (live : t.live now r = true) :
    ∃ ran ∈ s.times, t.fresh ran r = false := by
  rw [Keyed.live, Bool.and_eq_true, Bool.not_eq_true'] at live
  rw [Keyed.dead, live.1, Bool.false_or, List.any_eq_true] at dead
  obtain ⟨ran, inside, past⟩ := dead
  exact ⟨ran, inside, by simpa using past⟩

variable [DecidableEq κ]

/-- A mark moves along over no rows. -/
theorem idle_none {least upto : Nat}
    (none : (tail s.log (min least s.tiered) upto).isEmpty = true) (k : κ) :
    t.logRow s.log k s.tiered upto = Option.none := by
  have few : tail s.log s.tiered upto = [] := by
    rw [List.eq_nil_iff_forall_not_mem]
    intro e inside
    obtain ⟨seg, of, after, upto, there⟩ := (mem_tail _ _ _ e).mp inside
    have found : e ∈ tail s.log (min least s.tiered) _ :=
      (mem_tail _ _ _ e).mpr ⟨seg, of, by omega, upto, there⟩
    rw [List.isEmpty_iff.mp none] at found
    cases found
  rw [Keyed.logRow, few]
  rfl

theorem idle_same (same : Same t s) (least hwm : Nat) : Same t (idled s least hwm) := by
  refine ⟨idle_tidy same.tidy least hwm, fun k => ?_⟩
  have alike := same.alike k
  rw [idled]
  split
  · rename_i moves
    obtain ⟨less, none⟩ := moves
    rw [now_eq, logRow_split same.tidy.sound.numbered k s.tiered (min hwm s.visible) s.visible
      (by omega) (Nat.min_le_right _ _), idle_none none k, none_merge] at alike
    rw [now_eq]
    exact alike
  · exact alike

/-! ### Runs -/

theorem next_tidy (tidy : Tidy t s) (op : TierOp ρ) : Tidy t (t.next s op) := by
  cases op with
  | commit rows most => exact commit_tidy tidy rows most
  | tier hwm fill nodes now =>
    rw [Keyed.next]
    rcases tier_step tidy hwm fill nodes now with ⟨_, is⟩ | ⟨upto, covers, within, _, is⟩
    · rw [is]
      exact tidy
    · rw [is]
      exact landed_tidy tidy _ _ upto (folds_land tidy now _ upto covers within) _
  | maintain published anyway now =>
    rw [Keyed.next]
    rcases maintain_step tidy published anyway now with ⟨_, is⟩ | ⟨_, is⟩ | ⟨_, is⟩ <;> rw [is]
    · exact tidy
    · exact landed_tidy tidy _ _ _ (compact_land tidy now) _
    · exact landed_tidy tidy _ _ _ (squash_land tidy now) _
  | idle least hwm => exact idle_tidy tidy least hwm

theorem next_same (same : Same t s) (op : TierOp ρ) (sure : t.Sure s op) : Same t (t.next s op) := by
  cases op with
  | commit rows most => exact commit_same same rows most sure
  | tier hwm fill nodes now => exact tier_same same hwm fill nodes now sure
  | maintain published anyway now => exact maintain_same same published anyway now sure
  | idle least hwm => exact idle_same same least hwm

theorem made_same (n : Nat) : Same t (Table.made n) := by
  refine ⟨⟨⟨?_, ?_, List.Pairwise.nil, List.Pairwise.nil⟩, ?_, ?_, Nat.lt_succ_self n, ?_, ?_⟩,
    fun k => .inl rfl⟩
  all_goals first | exact List.nodup_nil | (intro x inside; cases inside)

theorem run_tidy (ops : List (TierOp ρ)) (tidy : Tidy t s) : Tidy t ((tables t).run s ops) := by
  induction ops generalizing s with
  | nil => exact tidy
  | cons op rest ih => exact ih (next_tidy tidy op)

theorem run_same (ops : List (TierOp ρ)) (same : Same t s)
    (legal : ((tables t).only t.Sure).Legal s ops) : Same t ((tables t).run s ops) := by
  induction ops generalizing s with
  | nil => exact same
  | cons op rest ih => exact ih (next_same same op legal.1.2) legal.2

/-- Without `order_by` no row ranks below another. -/
theorem unordered_sure (unordered : t.order = none) (op : TierOp ρ) : t.Sure s op := by
  have flat := flat_rank t unordered
  cases op with
  | commit rows most => exact fun k _ _ b _ => .inr fun d _ => flat d b
  | tier hwm fill nodes now => exact fun kind _ _ k _ x _ _ y _ => .inl (flat x y)
  | maintain published anyway now => exact fun kind _ _ k _ x _ _ y _ => .inl (flat x y)
  | idle least hwm => exact True.intro

theorem unordered_legal (unordered : t.order = none) (ops : List (TierOp ρ)) :
    ((tables t).only t.Sure).Legal s ops := by
  induction ops generalizing s with
  | nil => trivial
  | cons op rest ih => exact ⟨⟨trivial, unordered_sure unordered op⟩, ih⟩

/-! ### Reads -/

theorem rows_perm (t : Keyed ρ κ) (a b : List ρ) (same : ∀ k, t.rowsOf k a = t.rowsOf k b) : a.Perm b := by
  have whole : ∀ rows : List ρ, (∀ r ∈ rows, t.key r ∈ ((a ++ b).map t.key).dedup) →
      (((a ++ b).map t.key).dedup.flatMap fun k => t.rowsOf k rows).Perm rows := by
    intro rows known
    refine (Grouping.flatMap_filter_perm t.key _ (List.nodup_dedup _) rows).trans ?_
    rw [List.filter_eq_self.mpr fun r inside => decide_eq_true (known r inside)]
  have first := whole a fun r inside =>
    List.mem_dedup.mpr (List.mem_map_of_mem (List.mem_append_left _ inside))
  have second := whole b fun r inside =>
    List.mem_dedup.mpr (List.mem_map_of_mem (List.mem_append_right _ inside))
  simp only [same] at first
  exact first.symm.trans second

/-- A read of the log alone. -/
theorem read_alone (tidy : Tidy t s) (now : Int) (k : κ) :
    t.rowsOf k (t.read s.logged now) = ((t.alone s k).filter (t.live now)).toList := by
  rw [read_of s.logged (logged_sound tidy.sound.numbered) now k, ← logged_newest]
  rfl

/-- Rows that a read gives, of those that may be kept: none dead. -/
theorem read_same (same : Same t s) (now : Int) (keeps : ρ → Bool)
    (none : ∀ r, t.dead s r = true → t.live now r = true → keeps r = false) :
    ((t.read s now).filter keeps).Perm ((t.read s.logged now).filter keeps) := by
  refine rows_perm t _ _ fun k => ?_
  have swap : ∀ rows : List ρ, t.rowsOf k (rows.filter keeps) = (t.rowsOf k rows).filter keeps :=
    fun rows => List.filter_comm ..
  have lost : ∀ o : Option ρ, (∀ r ∈ o, t.dead s r = true) →
      (((o.filter (t.live now)).toList).filter keeps) = [] := by
    intro o dead
    rw [List.filter_eq_nil_iff]
    intro r inside kept
    obtain ⟨is, live⟩ := Option.filter_eq_some_iff.mp (Option.mem_toList.mp inside)
    rw [none r (dead r is) live] at kept
    cases kept
  rw [swap, swap, read_of s same.tidy.sound, read_alone same.tidy]
  change (((t.now s k).filter (t.live now)).toList).filter keeps = _
  rcases same.alike k with is | ⟨first, second, _⟩
  · rw [is]
  · rw [lost _ first, lost _ second]

/-- Not past its TTL for any job that dropped rows. -/
def Keyed.unexpired (t : Keyed ρ κ) (s : Table ρ) (r : ρ) : Bool :=
  s.times.all fun ran => t.fresh ran r

/-! ### What drops rows -/

/-- A step's jobs: a round's ranges follow one another from mark to mark, a merge takes the newest
generations, and a job that drops rows leaves none older than what it reads. -/
structure Fitting (t : Keyed ρ κ) (s : Table ρ) : Prop where
  folds : ∀ hwm fill nodes now, let op := TierOp.tier hwm fill nodes now
    (dealt s op = [] ∧ t.next s op = s) ∨ Covers s.tiered (dealt s op) (t.next s op).tiered
  run : ∃ since, ∀ f, f ∈ runOf s.files ↔ f ∈ s.files ∧ since ≤ f.ord
  drops : ∀ op, ∀ kind ∈ dealt s op, drops s kind = true →
    ∀ e ∈ raw s.files s.log s.tiered s.visible,
      e ∈ inputs s kind ∨ ∀ i ∈ inputs s kind, i.1 < e.1

theorem drops_older (tidy : Tidy t s) (op : TierOp ρ) (kind : Kind ρ) (inside : kind ∈ dealt s op)
    (dropping : drops s kind = true) (e : Nat × ρ)
    (stored : e ∈ raw s.files s.log s.tiered s.visible) :
    e ∈ inputs s kind ∨ ∀ i ∈ inputs s kind, i.1 < e.1 := by
  cases op with
  | tier hwm fill nodes now =>
    change kind ∈ folds s (foldEnd hwm fill) nodes at inside
    obtain ⟨covers, _, within⟩ := folds_cover tidy (foldEnd hwm fill) nodes
      (List.ne_nil_of_mem inside)
    generalize folds s (foldEnd hwm fill) nodes = jobs at inside covers
    cases jobs with
    | nil => cases inside
    | cons first rest =>
      obtain ⟨seg, rows, rfl, less, others⟩ := covers
      rcases List.mem_cons.mp inside with rfl | there
      · change (s.files.isEmpty && decide (s.tiered = s.tiered) || false) = true at dropping
        rw [Bool.or_false, Bool.and_eq_true, List.isEmpty_iff] at dropping
        have end_le := covers_le seg rest _ others
        have whole := tail_split s.log tidy.sound.numbered s.tiered seg s.visible (by omega)
          (by rw [Table.visible]; omega)
        have order := tail_ascending s.log tidy.sound.numbered s.tiered s.visible
        rw [raw, dropping.1, List.flatMap_nil, List.append_nil, whole] at stored
        rw [whole, Ascending, List.pairwise_append] at order
        rw [inputs, raw, List.flatMap_nil, List.append_nil]
        rcases List.mem_append.mp stored with read | after
        · exact .inl read
        · exact .inr fun i of => order.2.2 i of e after
      · rw [covers_drops seg rest _ others less kind there] at dropping
        cases dropping
  | maintain published anyway now =>
    rcases maintain_step tidy published anyway now with ⟨none, _⟩ | ⟨job, _⟩ | ⟨job, _⟩
    · rw [none] at inside
      cases inside
    · rw [job] at inside
      obtain rfl := List.mem_singleton.mp inside
      rw [inputs, raw, tail_none, List.nil_append]
      rcases List.mem_append.mp stored with after | read
      · refine .inr fun i of => ?_
        obtain ⟨f, file, entry⟩ := List.mem_flatMap.mp of
        obtain ⟨seg, _, later, _, there⟩ := (mem_tail _ _ _ e).mp after
        obtain ⟨j, _, is⟩ := mem_placed seg e there
        have below := tidy.sound.below f file
        rw [((mem_entries f i).mp entry).1, is]
        exact logOrd_lt _ _ (by omega) j
      · exact .inl read
    · rw [job] at inside
      obtain rfl := List.mem_singleton.mp inside
      cases dropping
  | commit rows most => cases inside
  | idle least hwm => cases inside

theorem fitting (tidy : Tidy t s) : Fitting t s where
  folds hwm fill nodes now := by
    change (folds s (foldEnd hwm fill) nodes = [] ∧ t.tierTable s hwm fill nodes now = s) ∨
      Covers s.tiered (folds s (foldEnd hwm fill) nodes) (t.tierTable s hwm fill nodes now).tiered
    rcases tier_step tidy hwm fill nodes now with none | ⟨upto, covers, _, _, is⟩
    · exact .inl none
    · rw [is]
      exact .inr covers
  run := ⟨runFrom (sizes s.files), mem_runOf s.files⟩
  drops := drops_older tidy

section decided

variable (t) (s) [DecidableEq ρ]

instance (rows : List ρ) : Decidable (t.Later s rows) :=
  inferInstanceAs (Decidable (∀ k ∈ rows.map t.key, t.held s k ≠ t.held s.logged k →
    ∀ b ∈ t.best (t.entriesOf k (placed (s.next, rows))),
      t.dead s b = true ∨ ∀ d ∈ t.held s.logged k, t.rank d ≤ t.rank b))

instance (now : Int) (kind : Kind ρ) : Decidable (t.Clear s now kind) :=
  inferInstanceAs (Decidable (∀ k ∈ (inputs s kind).map fun e => t.key e.2,
    ∀ x ∈ t.best (t.entriesOf k (inputs s kind)), t.live now x = false →
      ∀ y ∈ t.best (t.entriesOf k (tail s.log (ordOf kind) s.visible)),
        t.rank x ≤ t.rank y ∨ t.dead s y = true ∨ t.live now y = false))

instance : (op : TierOp ρ) → Decidable (((tables t).only t.Sure).Allows s op)
  | .commit rows _ => inferInstanceAs (Decidable (True ∧ t.Later s rows))
  | .tier hwm fill nodes now =>
    inferInstanceAs (Decidable (True ∧ ∀ kind ∈ dealt s (.tier hwm fill nodes now),
      drops s kind = true → t.Clear s now kind))
  | .maintain published anyway now =>
    inferInstanceAs (Decidable (True ∧ ∀ kind ∈ dealt s (.maintain published anyway now),
      drops s kind = true → t.Clear s now kind))
  | .idle _ _ => inferInstanceAs (Decidable (True ∧ True))

end decided

/-- A user's latest login, by its time: user, seconds and whether it is taken back. -/
def logins : Keyed (Nat × Int × Bool) Nat :=
  ⟨fun r => r.1, fun r => r.2.2, some (fun r => some (r.2.1 * 1000000), 100),
    some fun r => some r.2.1, some fun r => if r.2.2 then "gone" else "here"⟩

/-- Two nodes fold the first round; a late login comes before the marker it is behind is dropped. -/
def month : List (TierOp (Nat × Int × Bool)) :=
  [.commit [(1, 10, false), (2, 20, false)] 1, .commit [(2, 30, true), (3, 40, false)] 1,
    .tier 9 none 2 0, .commit [(2, 25, false), (1, 60, false)] 1, .tier 9 none 1 50000000,
    .maintain true true 60000000, .commit [(2, 70, false), (3, 35, false)] 1,
    .maintain true true 145000000]

/-- A login taken back at 30, and a late one of 25. -/
def lateLogin : Table (Nat × Int × Bool) :=
  (tables logins).run (Table.made 0)
    [.commit [(2, 20, false)] 1, .commit [(2, 30, true)] 1, .tier 9 none 1 0,
      .commit [(2, 25, false)] 1]

end Pondra.Tier
