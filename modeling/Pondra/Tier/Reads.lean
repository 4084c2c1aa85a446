import Pondra.Tier.Folds

set_option autoImplicit false

namespace Pondra.Tier

open Foremost Machines

variable {ρ κ : Type} {t : Keyed ρ κ} {s : Table ρ}

/-! ### Commits -/

theorem span_room (rows most : Nat) : rows ≤ span rows most * 2 ^ ordBits := by
  rw [span, ordBits]
  omega

theorem span_positive (rows most : Nat) : 0 < span rows most := by
  rw [span, ordBits]
  omega

theorem tail_commit (tidy : Tidy t s) (rows : List ρ) (most after : Nat) (less : after < s.next) :
    tail (s.log ++ [(s.next, rows)]) after (s.next + span rows.length most - 1) =
      tail s.log after s.visible ++ placed (s.next, rows) := by
  have positive := span_positive rows.length most
  have old : s.log.filter (fun g =>
      decide (after < g.1) && decide (g.1 ≤ s.next + span rows.length most - 1)) =
        s.log.filter fun g => decide (after < g.1) && decide (g.1 ≤ s.visible) := by
    refine List.filter_congr fun g inside => ?_
    have := (tidy.room g inside).1
    rw [Table.visible, decide_eq_true (by omega : g.1 ≤ s.next + span rows.length most - 1),
      decide_eq_true (by omega : g.1 ≤ s.next - 1)]
  have new : (decide (after < s.next) &&
      decide (s.next ≤ s.next + span rows.length most - 1)) = true := by
    rw [decide_eq_true less, decide_eq_true (by omega), Bool.and_true]
  rw [tail, List.filter_append, old, List.filter_cons, new, if_pos rfl, List.filter_nil,
    List.flatMap_append, List.flatMap_cons, List.flatMap_nil, List.append_nil]
  rfl

theorem commit_tidy (tidy : Tidy t s) (rows : List ρ) (most : Nat) :
    Tidy t { s with next := s.next + span rows.length most, log := s.log ++ [(s.next, rows)] } := by
  have positive := span_positive rows.length most
  have space := span_room rows.length most
  have rises : ∀ i, logOrd s.next i ≤ logOrd (s.next + span rows.length most) 0 ↔
      i ≤ span rows.length most * 2 ^ ordBits := by
    intro i
    rw [logOrd, logOrd, Nat.add_mul]
    omega
  refine ⟨⟨tidy.sound.below, tidy.sound.once, tidy.sound.apart, ?_⟩, ?_, ?_, ?_, tidy.paths, tidy.used⟩
  · rw [Numbered, List.pairwise_append]
    refine ⟨tidy.sound.numbered, List.pairwise_singleton _ _, ?_⟩
    intro g inside h last
    obtain rfl := List.mem_singleton.mp last
    exact tidy.room g inside
  · intro g inside
    rcases List.mem_append.mp inside with old | new
    · exact tidy.begins g old
    · obtain rfl := List.mem_singleton.mp new
      have := tidy.tiered
      change 0 < s.next
      omega
  · intro g inside
    change g.1 < s.next + span rows.length most ∧ _ ≤ logOrd (s.next + span rows.length most) 0
    rcases List.mem_append.mp inside with old | new
    · obtain ⟨less, room⟩ := tidy.room g old
      exact ⟨by omega, Nat.le_trans room ((rises 0).mpr (Nat.zero_le _))⟩
    · obtain rfl := List.mem_singleton.mp new
      exact ⟨by change s.next < _; omega, (rises rows.length).mpr space⟩
  · have := tidy.tiered
    change s.tiered < s.next + span rows.length most
    omega

theorem logged_sound (numbered : Numbered s.log) : Sound t s.logged.files s.logged.log 0 :=
  ⟨fun _ inside => (List.not_mem_nil inside).elim, fun _ inside => (List.not_mem_nil inside).elim,
    List.Pairwise.nil, numbered⟩

/-! ### Dead rows -/

theorem dead_later (now : Int) (jobs : List (Kind ρ)) (s' : Table ρ)
    (times : s'.times = s.times ++ ran s now jobs) (r : ρ) (dead : t.dead s r = true) :
    t.dead s' r = true := by
  rw [Keyed.dead, Bool.or_eq_true] at dead ⊢
  rw [times, List.any_append, Bool.or_eq_true]
  rcases dead with deleted | past
  · exact .inl deleted
  · exact .inr (.inl past)

theorem dead_now (now : Int) (jobs : List (Kind ρ)) (s' : Table ρ)
    (times : s'.times = s.times ++ ran s now jobs) (dropping : jobs.any (drops s) = true) (r : ρ)
    (gone : t.live now r = false) : t.dead s' r = true := by
  rw [Keyed.live, Bool.and_eq_false_iff, Bool.not_eq_false'] at gone
  rw [Keyed.dead, times, ran, if_pos dropping, List.any_append, Bool.or_eq_true]
  rcases gone with deleted | past
  · exact .inl deleted
  · refine .inr ?_
    rw [Bool.or_eq_true]
    exact .inr (by simp [past])

variable [DecidableEq κ]

/-! ### What a table holds, and what its log alone holds -/

def Keyed.now (t : Keyed ρ κ) (s : Table ρ) (k : κ) : Option ρ :=
  t.newest k s.files s.log s.tiered s.visible

def Keyed.alone (t : Keyed ρ κ) (s : Table ρ) (k : κ) : Option ρ := t.logRow s.log k 0 s.visible

/-- A key's newest row in the files. -/
def Keyed.fileRow (t : Keyed ρ κ) (files : List (DataFile ρ)) (k : κ) : Option ρ :=
  pick t.rank (t.rowsOf k ((byAge files).flatMap (·.rows)))

theorem now_eq (k : κ) : t.now s k =
    merge t.rank (t.fileRow s.files k) (t.logRow s.log k s.tiered s.visible) := by
  rw [Keyed.now, newest_rows, pick_append]
  rfl

theorem logged_newest (k : κ) :
    t.newest k s.logged.files s.logged.log 0 s.logged.visible = t.alone s k := by
  rw [newest_rows]
  rfl

theorem held_now (tidy : Tidy t s) (k : κ) : t.held s k = t.now s k :=
  best_line t _ _ (line_perm _ _ _ _ k) (line_ascending _ _ _ tidy.sound k _)

theorem held_alone (tidy : Tidy t s) (k : κ) : t.held s.logged k = t.alone s k := by
  rw [← logged_newest]
  exact best_line t _ _ (line_perm _ _ _ _ k)
    (line_ascending _ _ _ (logged_sound tidy.sound.numbered) k _)

/-- Each key's row in the table is that of the log alone, or both are dead. -/
structure Same (t : Keyed ρ κ) (s : Table ρ) : Prop where
  tidy : Tidy t s
  alike : ∀ k, Alike t.rank (fun r => t.dead s r = true) (t.now s k) (t.alone s k)

theorem commit_rows (tidy : Tidy t s) (rows : List ρ) (most : Nat) (k : κ) :
    let s' := { s with next := s.next + span rows.length most, log := s.log ++ [(s.next, rows)] }
    t.now s' k = merge t.rank (t.now s k) (pick t.rank (t.rowsOf k rows)) ∧
      t.alone s' k = merge t.rank (t.alone s k) (pick t.rank (t.rowsOf k rows)) := by
  have new : ∀ after, after < s.next →
      t.logRow (s.log ++ [(s.next, rows)]) k after (s.next + span rows.length most - 1) =
        merge t.rank (t.logRow s.log k after s.visible) (pick t.rank (t.rowsOf k rows)) := by
    intro after less
    rw [Keyed.logRow, tail_commit tidy rows most after less, List.map_append, rowsOf_append,
      pick_append, placed_rows]
    rfl
  refine ⟨?_, new 0 (by have := tidy.tiered; omega)⟩
  rw [now_eq, now_eq, merge_assoc]
  exact congrArg _ (new s.tiered tidy.tiered)

theorem best_placed (rows : List ρ) (n : Nat) (k : κ) :
    t.best (t.entriesOf k (placed (n, rows))) = pick t.rank (t.rowsOf k rows) := by
  have line : Ascending (t.entriesOf k (placed (n, rows))) := (placed_ascending (n, rows)).filter _
  rw [best_line t _ _ (List.Perm.refl _) line, entriesOf_rows, placed_rows]

theorem commit_same (same : Same t s) (rows : List ρ) (most : Nat) (later : t.Later s rows) :
    Same t { s with next := s.next + span rows.length most, log := s.log ++ [(s.next, rows)] } := by
  refine ⟨commit_tidy same.tidy rows most, fun k => ?_⟩
  obtain ⟨held, logged⟩ := commit_rows same.tidy rows most k
  rw [held, logged]
  refine alike_merge _ _ _ (same.alike k) fun differs b newest => ?_
  have inside := (mem_rowsOf t k rows b).mp (pick_mem _ _ _ newest)
  have found := later k (List.mem_map.mpr ⟨b, inside⟩)
  rw [held_now same.tidy, held_alone same.tidy, best_placed] at found
  exact found differs b newest

/-! ### Jobs that drop rows -/

/-- A job that drops a key's newest row leaves the table's row as the log's, or both dead. -/
theorem drop_alike (tidy : Tidy t s) (now : Int) (jobs : List (Kind ρ)) (kind : Kind ρ)
    (dealt : kind ∈ jobs) (dropping : drops s kind = true) (clear : t.Clear s now kind)
    (s' : Table ρ) (times : s'.times = s.times ++ ran s now jobs) (k : κ) (x logged : Option ρ)
    (read : t.best (t.entriesOf k (inputs s kind)) = x)
    (alike : Alike t.rank (fun r => t.dead s r = true)
      (merge t.rank x (t.logRow s.log k (ordOf kind) s.visible)) logged) :
    Alike t.rank (fun r => t.dead s' r = true)
      (merge t.rank (x.filter (t.live now)) (t.logRow s.log k (ordOf kind) s.visible)) logged := by
  have any : jobs.any (drops s) = true := List.any_eq_true.mpr ⟨kind, dealt, dropping⟩
  have gone := dead_now (t := t) now jobs s' times any
  refine alike_drop x _ logged (t.live now)
    (alike_later _ (dead_later now jobs s' times) _ _ alike) (fun r _ => gone r) ?_
  intro r is lost y after
  rw [← best_tail tidy.sound.numbered] at after
  rw [← read] at is
  obtain ⟨e, inside, rfl⟩ := best_mem t _ r is
  obtain ⟨there, of⟩ := List.mem_filter.mp inside
  have known : k ∈ (inputs s kind).map fun e => t.key e.2 :=
    List.mem_map.mpr ⟨e, there, of_decide_eq_true of⟩
  rcases clear k known _ is lost y after with above | dead | past
  · exact .inl above
  · exact .inr (dead_later now jobs s' times y dead)
  · exact .inr (gone y past)

/-! ### Rounds -/

theorem folds_land (tidy : Tidy t s) (now : Int) (jobs : List (Kind ρ)) (upto : Nat)
    (covers : Covers s.tiered jobs upto) (within : upto < s.next) :
    Lands t s s.files now jobs upto where
  part := List.Sublist.refl _
  rising := covers_rising _ _ _ covers
  newer f left d there := by
    obtain ⟨kind, of, is⟩ := drafts_ord s now jobs d there
    have below := tidy.sound.below f left
    have := (covers_ord _ _ _ covers kind of).1
    omega
  upto d there := by
    obtain ⟨kind, of, is⟩ := drafts_ord s now jobs d there
    have := (covers_ord _ _ _ covers kind of).2
    omega
  further := covers_le _ _ _ covers
  within := within

/-- A key's row once a round's files are in: only what the first job drops is gone. -/
theorem folds_now (tidy : Tidy t s) (now : Int) (seg rows : Nat) (rest : List (Kind ρ)) (upto : Nat)
    (less : s.tiered < seg) (covers : Covers seg rest upto) (within : upto < s.next)
    (times : List Int) (k : κ) :
    t.now (landed s s.files (t.drafts s now (.fold s.tiered seg rows :: rest)) upto times) k =
      merge t.rank (t.fileRow s.files k)
        (merge t.rank (t.writes s now (.fold s.tiered seg rows) k)
          (t.logRow s.log k seg s.visible)) := by
  have whole : Covers s.tiered (.fold s.tiered seg rows :: rest) upto := ⟨seg, rows, rfl, less, covers⟩
  have lands := folds_land tidy now _ upto whole within
  have end_le := covers_le seg rest upto covers
  have others := covers_writes (t := t) tidy.sound.numbered now k seg rest upto covers less
  refine (landed_newest _ _ _ lands k s.visible).trans ?_
  rw [pick_append, pick_append, Keyed.drafts, List.flatMap_cons,
    List.flatMap_append, rowsOf_append, pick_append, runJob_of, pick_toList, merge_assoc, merge_assoc]
  refine congrArg _ (congrArg _ ?_)
  rw [logRow_split tidy.sound.numbered k seg upto s.visible end_le (by rw [Table.visible]; omega)]
  exact congrArg (fun x => merge t.rank x _) others

theorem fold_reads (tidy : Tidy t s) (seg : Nat) (less : s.tiered < seg) (within : seg < s.next)
    (k : κ) : t.now s k = merge t.rank (t.fileRow s.files k)
      (merge t.rank (t.logRow s.log k s.tiered seg) (t.logRow s.log k seg s.visible)) := by
  rw [now_eq, logRow_split tidy.sound.numbered k s.tiered seg s.visible (by omega)
    (by rw [Table.visible]; omega)]

/-- A round leaves the table as it was, or its jobs' files are in it. -/
theorem tier_step (tidy : Tidy t s) (hwm : Nat) (fill : Option Nat) (nodes : Nat) (now : Int) :
    (folds s (foldEnd hwm fill) nodes = [] ∧ t.tierTable s hwm fill nodes now = s) ∨
      ∃ upto, Covers s.tiered (folds s (foldEnd hwm fill) nodes) upto ∧ upto < s.next ∧
        s.tiered < upto ∧ t.tierTable s hwm fill nodes now =
          landed s s.files (t.drafts s now (folds s (foldEnd hwm fill) nodes)) upto
            (s.times ++ ran s now (folds s (foldEnd hwm fill) nodes)) := by
  by_cases none : folds s (foldEnd hwm fill) nodes = []
  · refine .inl ⟨none, ?_⟩
    rw [Keyed.tierTable, none]
    rfl
  · obtain ⟨covers, less, within⟩ := folds_cover tidy (foldEnd hwm fill) nodes none
    refine .inr ⟨_, covers, within, less, ?_⟩
    rw [Keyed.tierTable, if_neg fun empty => none (List.isEmpty_iff.mp empty)]
    rfl

theorem tier_same (same : Same t s) (hwm : Nat) (fill : Option Nat) (nodes : Nat) (now : Int)
    (sure : t.Sure s (.tier hwm fill nodes now)) : Same t (t.tierTable s hwm fill nodes now) := by
  have clear : ∀ kind ∈ folds s (foldEnd hwm fill) nodes, drops s kind = true →
      t.Clear s now kind := sure
  rcases tier_step same.tidy hwm fill nodes now with ⟨_, is⟩ | ⟨upto, covers, within, further, is⟩
  · rw [is]
    exact same
  · rw [is]
    generalize folds s (foldEnd hwm fill) nodes = jobs at covers clear
    have tidy := landed_tidy same.tidy s.files jobs upto
      (folds_land same.tidy now jobs upto covers within) (s.times ++ ran s now jobs)
    refine ⟨tidy, fun k => ?_⟩
    cases jobs with
    | nil =>
      have same : s.tiered = upto := covers
      omega
    | cons kind rest =>
      obtain ⟨seg, rows, rfl, less, others⟩ := covers
      have end_le := covers_le seg rest upto others
      have before := fold_reads same.tidy seg less (by omega) k
      have alike := same.alike k
      rw [folds_now same.tidy now seg rows rest upto less others within]
      rw [before] at alike
      have read : t.best (t.entriesOf k (inputs s (.fold s.tiered seg rows))) =
          t.logRow s.log k s.tiered seg := best_fold same.tidy.sound.numbered k s.tiered seg rows
      cases dropping : drops s (.fold s.tiered seg rows) with
      | false =>
        have all : t.writes s now (.fold s.tiered seg rows) k = t.logRow s.log k s.tiered seg := by
          rw [Keyed.writes, dropping, read]
          cases t.logRow s.log k s.tiered seg <;> rfl
        rw [all]
        exact alike_later _ (dead_later now _ _ rfl) _ _ alike
      | true =>
        -- there are no files
        have files : s.files = [] := by
          change (s.files.isEmpty && decide (s.tiered = s.tiered) || false) = true at dropping
          rw [Bool.or_false, Bool.and_eq_true, List.isEmpty_iff] at dropping
          exact dropping.1
        have empty : t.fileRow s.files k = none := by
          rw [files]
          rfl
        have some : t.writes s now (.fold s.tiered seg rows) k =
            (t.logRow s.log k s.tiered seg).filter (t.live now) := by
          rw [Keyed.writes, dropping, read]
          rfl
        rw [empty, none_merge] at alike ⊢
        rw [some]
        exact drop_alike same.tidy now _ _ List.mem_cons_self dropping
          (clear _ List.mem_cons_self dropping) _ rfl k _ _ read alike

end Pondra.Tier
