import Pondra.Tier.Rounds

set_option autoImplicit false

namespace Pondra.Tier

open Foremost

variable {ρ κ : Type} {t : Keyed ρ κ} {s : Table ρ}

/-! ### The ranges of a round -/

theorem taken_front (n : Nat) (l : List (Nat × Nat)) : taken n l <+: l := by
  induction l generalizing n with
  | nil => exact List.prefix_rfl
  | cons g rest ih =>
    rw [taken]
    split
    · exact List.cons_prefix_cons.mpr ⟨rfl, List.nil_prefix⟩
    · exact List.cons_prefix_cons.mpr ⟨rfl, ih (n + g.2)⟩

theorem segs_rising (numbered : Numbered s.log) (hwm : Nat) :
    (segs s hwm).Pairwise fun a b => a.1 < b.1 := by
  refine List.Pairwise.sublist (taken_front 0 _).sublist ?_
  rw [List.pairwise_map]
  exact (numbered.filter _).imp fun {a b} order => order.1

theorem mem_segs (hwm : Nat) (g : Nat × Nat) (inside : g ∈ segs s hwm) :
    s.tiered < g.1 ∧ g.1 ≤ hwm ∧ ∃ seg ∈ s.log, seg.1 = g.1 := by
  obtain ⟨seg, there, rfl⟩ := List.mem_map.mp ((taken_front 0 _).subset inside)
  obtain ⟨of, within⟩ := List.mem_filter.mp there
  rw [Bool.and_eq_true, decide_eq_true_eq, decide_eq_true_eq] at within
  exact ⟨within.1, within.2, seg, of, rfl⟩

theorem ranges_cover (nodes n upto : Nat) (l : List (Nat × Nat)) (some : l ≠ [])
    (rising : l.Pairwise fun a b => a.1 < b.1) (last : l.getLast?.map Prod.fst = Option.some upto)
    (jobs since acc done : Nat) (after : ∀ g ∈ l, since < g.1) :
    @Covers ρ since (ranges nodes n upto jobs since acc done l) upto := by
  induction l generalizing jobs since acc done with
  | nil => exact absurd rfl some
  | cons g rest ih =>
    obtain ⟨seg, r⟩ := g
    rw [List.pairwise_cons] at rising
    have more := after (seg, r) List.mem_cons_self
    rw [ranges]
    cases rest with
    | nil =>
      have same : seg = upto := Option.some.inj last
      rw [if_pos (.inr same)]
      exact ⟨seg, _, rfl, more, same⟩
    | cons next others =>
      have final : (next :: others).getLast?.map Prod.fst = Option.some upto := by
        rwa [List.getLast?_cons_cons] at last
      split
      · exact ⟨seg, _, rfl, more, ih (List.cons_ne_nil _ _) rising.2 final _ _ _ _ rising.1⟩
      · exact ih (List.cons_ne_nil _ _) rising.2 final _ _ _ _ fun g inside =>
          after g (List.mem_cons_of_mem _ inside)

/-- A round's jobs cover the log from the table's mark to where the round ends. -/
theorem folds_cover (tidy : Tidy t s) (hwm nodes : Nat) (some : folds s hwm nodes ≠ []) :
    Covers s.tiered (folds s hwm nodes) (segsEnd s hwm) ∧ s.tiered < segsEnd s hwm ∧
      segsEnd s hwm < s.next := by
  rw [folds] at some ⊢
  split at some
  · exact absurd rfl some
  · rename_i rows
    rw [if_neg rows]
    have taken : segs s hwm ≠ [] := fun none => rows (by rw [none]; rfl)
    obtain ⟨last, is⟩ : ∃ last, (segs s hwm).getLast? = Option.some last :=
      ⟨_, List.getLast?_eq_some_getLast taken⟩
    have ends : segsEnd s hwm = last.1 := by rw [segsEnd, is]; rfl
    obtain ⟨after, _, seg, of, same⟩ := mem_segs hwm last (List.mem_of_getLast? is)
    rw [ends]
    refine ⟨?_, after, same ▸ (tidy.room seg of).1⟩
    refine ranges_cover nodes _ last.1 (segs s hwm) taken (segs_rising tidy.sound.numbered hwm) ?_
      0 s.tiered 0 0 fun g inside => (mem_segs hwm g inside).1
    rw [is]
    rfl

theorem covers_le (after : Nat) (jobs : List (Kind ρ)) (upto : Nat) (covers : Covers after jobs upto) :
    after ≤ upto := by
  induction jobs generalizing after with
  | nil => exact Nat.le_of_eq covers
  | cons kind rest ih =>
    obtain ⟨seg, _, _, less, others⟩ := covers
    have := ih seg others
    omega

theorem covers_ord (after : Nat) (jobs : List (Kind ρ)) (upto : Nat) (covers : Covers after jobs upto)
    (kind : Kind ρ) (inside : kind ∈ jobs) : after < ordOf kind ∧ ordOf kind ≤ upto := by
  induction jobs generalizing after with
  | nil => cases inside
  | cons first rest ih =>
    obtain ⟨seg, _, rfl, less, others⟩ := covers
    rcases List.mem_cons.mp inside with rfl | there
    · exact ⟨less, covers_le seg rest upto others⟩
    · have := ih seg others there
      omega

theorem covers_rising (after : Nat) (jobs : List (Kind ρ)) (upto : Nat)
    (covers : Covers after jobs upto) : jobs.Pairwise fun a b => ordOf a < ordOf b := by
  induction jobs generalizing after with
  | nil => exact List.Pairwise.nil
  | cons first rest ih =>
    obtain ⟨seg, _, rfl, _, others⟩ := covers
    refine List.Pairwise.cons (fun kind inside => ?_) (ih seg others)
    exact (covers_ord seg rest upto others kind inside).1

/-- Only a table's first file drops rows: the round's first job writes it, where there are none. -/
theorem covers_drops (after : Nat) (jobs : List (Kind ρ)) (upto : Nat)
    (covers : Covers after jobs upto) (later : s.tiered < after) (kind : Kind ρ)
    (inside : kind ∈ jobs) : drops s kind = false := by
  induction jobs generalizing after with
  | nil => cases inside
  | cons first rest ih =>
    obtain ⟨seg, _, rfl, less, others⟩ := covers
    rcases List.mem_cons.mp inside with rfl | there
    · have other : ¬after = s.tiered := by omega
      change (s.files.isEmpty && decide (after = s.tiered) || false) = false
      rw [decide_eq_false other, Bool.and_false, Bool.or_false]
    · exact ih seg others (by omega) there

variable [DecidableEq κ]

/-! ### What a round writes -/

/-- A key's newest row in part of the log. -/
def Keyed.logRow (t : Keyed ρ κ) (log : List (Nat × List ρ)) (k : κ) (after upto : Nat) : Option ρ :=
  pick t.rank (t.rowsOf k ((tail log after upto).map Prod.snd))

theorem logRow_split (numbered : Numbered s.log) (k : κ) (a b c : Nat) (before : a ≤ b)
    (after : b ≤ c) :
    t.logRow s.log k a c = merge t.rank (t.logRow s.log k a b) (t.logRow s.log k b c) := by
  rw [Keyed.logRow, tail_split s.log numbered a b c before after, List.map_append, rowsOf_append,
    pick_append]
  rfl

theorem best_tail (numbered : Numbered s.log) (k : κ) (after upto : Nat) :
    t.best (t.entriesOf k (tail s.log after upto)) = t.logRow s.log k after upto := by
  have line : Ascending (t.entriesOf k (tail s.log after upto)) :=
    (tail_ascending s.log numbered after upto).filter _
  rw [best_line t _ _ (List.Perm.refl _) line, entriesOf_rows]
  rfl

theorem best_fold (numbered : Numbered s.log) (k : κ) (after upto rows : Nat) :
    t.best (t.entriesOf k (inputs s (.fold after upto rows))) = t.logRow s.log k after upto := by
  rw [inputs, raw, List.flatMap_nil, List.append_nil, best_tail numbered]

theorem covers_writes (numbered : Numbered s.log) (now : Int) (k : κ) (after : Nat)
    (jobs : List (Kind ρ)) (upto : Nat) (covers : Covers after jobs upto)
    (later : s.tiered < after) :
    pick t.rank (t.rowsOf k ((t.drafts s now jobs).flatMap (·.2.2.2))) =
      t.logRow s.log k after upto := by
  have keeps := covers_drops after jobs upto covers later
  induction jobs generalizing after with
  | nil =>
    obtain rfl : after = upto := covers
    rw [Keyed.logRow, tail_none]
    rfl
  | cons kind rest ih =>
    have all := keeps kind List.mem_cons_self
    obtain ⟨seg, _, rfl, less, others⟩ := covers
    have more := ih seg others (by omega) fun kind inside => keeps kind (List.mem_cons_of_mem _ inside)
    rw [Keyed.drafts, List.flatMap_cons, List.flatMap_append, rowsOf_append, pick_append, runJob_of,
      pick_toList, Keyed.writes, best_fold numbered, all, logRow_split numbered k after seg upto
      (by omega) (covers_le seg rest upto others)]
    refine congr (congrArg _ ?_) more
    cases t.logRow s.log k after seg <;> rfl

end Pondra.Tier
