import Mathlib.Data.Finset.Card
import Mathlib.Order.Interval.Finset.Nat
import Pondra.Locks.Runs

set_option autoImplicit false

namespace Pondra.Locks

open Relation Walks

/-- Does `a` stand behind `b` in the lock's queue? -/
def Lock.Behind (lock : Lock) (a b : String) : Prop :=
  ∃ wa wb, wa.owner = a ∧ wb.owner = b ∧ [wb, wa].Sublist lock.queue

def Lock.Queues (lock : Lock) (owner : String) : Prop :=
  ∃ w ∈ lock.queue, w.owner = owner

namespace Table

/-- The wait-for graph: a queued owner points at the holder whose lease lasts and at the owners
queued before it. -/
def Waits (t : Table) (now : Nat) (a b : String) : Prop :=
  ∃ key, ((t.locks key).Queues a ∧ (t.locks key).holder = some b ∧ t.lasts b now = true) ∨
    (t.locks key).Behind a b

/-- The waits of the owners that count. -/
def WaitsOf (t : Table) (now : Nat) (counts : String → Prop) (a b : String) : Prop :=
  counts a ∧ t.Waits now a b

theorem Waits.queued {t : Table} {now : Nat} {a b : String} (waits : t.Waits now a b) :
    ∃ key, (t.locks key).Queues a := by
  obtain ⟨key, ⟨queued, _⟩ | ⟨wa, wb, rfl, _, sub⟩⟩ := waits
  · exact ⟨key, queued⟩
  · exact ⟨key, wa, sub.subset (by simp), rfl⟩

/-- Shorter queues and fewer live holders make fewer waits. -/
theorem Waits.mono {t u : Table} {now later : Nat}
    (queues : ∀ key, (u.locks key).queue.Sublist (t.locks key).queue)
    (holders : ∀ key b, (u.locks key).queue ≠ [] → (u.locks key).holder = some b →
      u.lasts b later = true → (t.locks key).holder = some b ∧ t.lasts b now = true)
    {a b : String} (waits : u.Waits later a b) : t.Waits now a b := by
  obtain ⟨key, ⟨⟨w, inside, owner⟩, holder, live⟩ | ⟨wa, wb, first, second, sub⟩⟩ := waits
  · obtain ⟨holder, live⟩ := holders key b (List.ne_nil_of_mem inside) holder live
    exact ⟨key, .inl ⟨⟨w, (queues key).subset inside, owner⟩, holder, live⟩⟩
  · exact ⟨key, .inr ⟨wa, wb, first, second, sub.trans (queues key)⟩⟩

theorem acyclic_later {t : Table} {now later : Nat} (le : now ≤ later)
    (acyclic : Acyclic (t.Waits now)) : Acyclic (t.Waits later) :=
  acyclic.mono fun _ _ => Waits.mono (fun _ => List.Sublist.refl _)
    fun _ _ _ holder live => ⟨holder, lasts_later le live⟩

/-- The owner a key is handed to waits for nothing any more, so no loop goes through it. -/
theorem settled_acyclic {t u : Table} {key : String} {now : Nat} (counts : String → Prop)
    (queues : t.Queues) (acyclic : Acyclic (t.WaitsOf now counts))
    (settled : Settled t key now u) : Acyclic (u.WaitsOf now counts) := by
  cases settled with
  | stays busy => exact acyclic
  | empties free deaf =>
    refine acyclic.mono fun a b waits => ⟨waits.1, Waits.mono ?_ ?_ waits.2⟩
    · intro k
      by_cases same : k = key
      · subst same
        simp
      · simp [Function.update_of_ne same]
    · intro k owner full holder live
      by_cases same : k = key
      · subst same
        simp at full
      · simp only [setLock_locks, vacate_locks, Function.update_of_ne same] at holder
        exact ⟨holder, live⟩
  | hands free skipped w rest queue deaf hears =>
    obtain ⟨_, _, apart, elsewhere⟩ := queues.others queue
    have base : Acyclic (fun a b => t.WaitsOf now counts a b ∧ a ≠ w.owner) :=
      acyclic.mono fun a b edge => edge.1
    refine base.add_into w.owner ?_
    rintro a b ⟨counted, waits⟩
    have other : a ≠ w.owner := by
      obtain ⟨k, r, inside, rfl⟩ := waits.queued
      by_cases same : k = key
      · subst same
        simp only [hand_locks, Function.update_self] at inside
        exact apart r inside
      · simp only [hand_locks, vacate_locks, Function.update_of_ne same] at inside
        exact elsewhere k same r inside
    by_cases into : b = w.owner
    · right
      refine ⟨into, fun walk => ?_⟩
      rcases ReflTransGen.cases_head walk with rfl | ⟨next, edge, _⟩
      · exact other rfl
      · exact edge.2 rfl
    · left
      refine ⟨⟨counted, ?_⟩, other⟩
      obtain ⟨k, ⟨⟨r, inside, owner⟩, holder, live⟩ | ⟨wa, wb, first, second, sub⟩⟩ := waits
      · have ne : k ≠ key := by
          rintro rfl
          simp only [hand_locks, Function.update_self, Option.some.injEq] at holder
          exact into holder.symm
        simp only [hand_locks, vacate_locks, Function.update_of_ne ne] at inside holder
        refine ⟨k, .inl ⟨⟨r, inside, owner⟩, holder, ?_⟩⟩
        simpa [lasts, Function.update_of_ne into] using live
      · by_cases same : k = key
        · subst same
          simp only [hand_locks, Function.update_self] at sub
          refine ⟨k, .inr ⟨wa, wb, first, second, sub.trans ?_⟩⟩
          rw [queue]
          exact (List.sublist_cons_self _ _).trans (List.sublist_append_right _ _)
        · simp only [hand_locks, vacate_locks, Function.update_of_ne same] at sub
          exact ⟨k, .inr ⟨wa, wb, first, second, sub⟩⟩

theorem waitsOf_all {t : Table} {now : Nat} :
    Acyclic (t.WaitsOf now fun _ => True) ↔ Acyclic (t.Waits now) := by
  constructor
  · exact fun acyclic => acyclic.mono fun a b waits => ⟨trivial, waits⟩
  · exact fun acyclic => acyclic.mono fun a b waits => waits.2

theorem settle_acyclic (t : Table) (key : String) (now : Nat) (queues : t.Queues)
    (acyclic : Acyclic (t.Waits now)) : Acyclic ((t.settle key now).Waits now) :=
  waitsOf_all.mp
    (settled_acyclic _ queues (waitsOf_all.mpr acyclic) (settle_settled t key now))

theorem forget_waits {t : Table} {key : String} {token now : Nat} {a b : String}
    (waits : (t.forget key token).Waits now a b) : t.Waits now a b := by
  refine Waits.mono ?_ ?_ waits
  · intro k
    change (Function.update t.locks key _ k).queue.Sublist _
    rw [Function.update_apply]
    split
    · rename_i same
      rw [same]
      exact List.filter_sublist
    · exact List.Sublist.refl _
  · intro k owner _ holder live
    rw [forget_holder] at holder
    exact ⟨holder, live⟩

theorem unwait_acyclic (t : Table) (owner : String) (now : Nat) (counts : String → Prop)
    (valid : t.Valid now) (acyclic : Acyclic (t.WaitsOf now counts)) :
    Acyclic ((t.unwait owner now).WaitsOf now counts) := by
  cases waits : t.waiting owner with
  | none => simpa [unwait, waits] using acyclic
  | some place =>
    obtain ⟨key, token⟩ := place
    have queues := valid.sound.toQueues
    rw [unwait_eq t owner key token now queues waits]
    exact settled_acyclic counts
      (forget_sound t key owner token now valid.sound (queues.named owner _ waits)).toQueues
      (acyclic.mono fun a b edge => ⟨edge.1, forget_waits edge.2⟩) (settle_settled _ key now)

/-! ### Leases that come back -/

/-- `owner`'s lapsed lease would come back while it waits, directly or through others, for an owner
queued on a key it still holds. -/
def Revives (t : Table) (owner : String) (now : Nat) : Prop :=
  t.isEnded owner now = false ∧ t.lasts owner now = false ∧
    ∃ key a, (t.locks key).holder = some owner ∧ (t.locks key).Queues a ∧
      ReflTransGen (t.Waits now) owner a

theorem renew_waits {t : Table} {owner : String} {now : Nat} {a b : String}
    (waits : (t.renew owner now).Waits now a b) :
    t.Waits now a b ∨ (b = owner ∧ t.isEnded owner now = false ∧ t.lasts owner now = false ∧
      ∃ key, (t.locks key).holder = some owner ∧ (t.locks key).Queues a) := by
  unfold renew at waits
  split at waits
  · exact .inl waits
  · rename_i open_
    obtain ⟨key, ⟨queued, holder, live⟩ | behind⟩ := waits
    · by_cases into : b = owner
      · subst into
        by_cases lasts : t.lasts b now = true
        · exact .inl ⟨key, .inl ⟨queued, holder, lasts⟩⟩
        · exact .inr ⟨rfl, by simpa using open_, by simpa using lasts, key, holder, queued⟩
      · refine .inl ⟨key, .inl ⟨queued, holder, ?_⟩⟩
        simpa [lasts, Function.update_of_ne into] using live
    · exact .inl ⟨key, .inr behind⟩

theorem renew_acyclic (t : Table) (owner : String) (now : Nat)
    (barred : ¬ t.Revives owner now) (acyclic : Acyclic (t.Waits now)) :
    Acyclic ((t.renew owner now).Waits now) := by
  refine acyclic.add_into owner ?_
  intro a b waits
  rcases renew_waits waits with old | ⟨into, open_, lapsed, key, holder, queued⟩
  · exact .inl old
  · exact .inr ⟨into, fun walk => barred ⟨open_, lapsed, key, a, holder, queued, walk⟩⟩

/-- The condition is exact: a lease that comes back so closes a loop. -/
theorem renew_closes (t : Table) (owner : String) (now : Nat) (long : 0 < t.lease)
    (revives : t.Revives owner now) : ¬ Acyclic ((t.renew owner now).Waits now) := by
  obtain ⟨open_, _, key, a, holder, ⟨w, inside, rfl⟩, walk⟩ := revives
  have renewed : t.renew owner now =
      { t with leases := Function.update t.leases owner (some (now + t.lease)) } := by
    simp [renew, open_]
  have old : ∀ a b, t.Waits now a b → (t.renew owner now).Waits now a b := by
    intro a b waits
    refine Waits.mono (t := t.renew owner now) ?_ ?_ waits
    · intro k
      rw [renewed]
    · intro k b _ holder live
      rw [renewed]
      refine ⟨holder, ?_⟩
      by_cases into : b = owner
      · subst into
        simp [lasts, long]
      · simpa [lasts, Function.update_of_ne into] using live
  have closing : (t.renew owner now).Waits now w.owner owner := by
    rw [renewed]
    exact ⟨key, .inl ⟨⟨w, inside, rfl⟩, holder, by simp [lasts, long]⟩⟩
  intro acyclic
  exact acyclic owner (TransGen.tail'_iff.mpr ⟨w.owner, ReflTransGen.mono old _ _ walk, closing⟩)

/-! ### The walk of `loops` -/

/-- Every place waited at is in its queue, and its receiver listens. -/
structure Present (t : Table) : Prop where
  queued : ∀ owner key token, t.waiting owner = some (key, token) →
    ⟨owner, token⟩ ∈ (t.locks key).queue
  listens : ∀ key, ∀ w ∈ (t.locks key).queue, w.token ∉ t.gone

theorem mem_ahead {t : Table} {key owner b : String} {now : Nat} :
    b ∈ t.ahead key owner now ↔
      ((t.locks key).holder = some b ∧ b ≠ owner ∧ t.lasts b now = true) ∨
        ∃ w ∈ (t.locks key).queue.takeWhile (fun w => w.owner ≠ owner), w.owner = b := by
  unfold ahead
  simp only [List.mem_append, List.mem_map, Option.mem_toList, Option.filter_eq_some_iff,
    Bool.and_eq_true, decide_eq_true_eq]

theorem Queues.split {t : Table} (queues : t.Queues) {key : String} {w : Waiter}
    (inside : w ∈ (t.locks key).queue) :
    ∃ front back, (t.locks key).queue = front ++ w :: back ∧
      (∀ r ∈ front, r.token < w.token) ∧ (∀ r ∈ back, w.token < r.token) ∧
      (t.locks key).queue.takeWhile (fun r => r.owner ≠ w.owner) = front := by
  obtain ⟨front, back, queue⟩ := List.append_of_mem inside
  obtain ⟨before, after, _, _⟩ := queues.others queue
  refine ⟨front, back, queue, before, after, ?_⟩
  have apart : ∀ r ∈ front, r.owner ≠ w.owner := by
    intro r early same
    have within : r ∈ (t.locks key).queue := by simp [queue, early]
    have less := before r early
    rw [(queues.alone within inside same).2] at less
    exact Nat.lt_irrefl _ less
  rw [queue, List.takeWhile_append_of_pos (by simpa using apart)]
  simp

theorem waits_behind {t : Table} {now : Nat} {a b : String} (queues : t.Queues)
    (waits : t.Waits now a b) : b ∈ t.behind now a := by
  obtain ⟨key, ⟨⟨w, inside, rfl⟩, holder, live⟩ | ⟨wa, wb, rfl, rfl, sub⟩⟩ := waits
  · have placed := queues.place key w inside
    simp only [behind, placed]
    refine mem_ahead.mpr (.inl ⟨holder, ?_, live⟩)
    rintro rfl
    exact queues.apart key w inside holder
  · have inside : wa ∈ (t.locks key).queue := sub.subset (by simp)
    have placed := queues.place key wa inside
    obtain ⟨front, back, queue, _, after, before⟩ := queues.split inside
    have less : wb.token < wa.token := by
      simpa using (queues.ordered key).sublist sub
    have early : wb ∈ front := by
      have within : wb ∈ (t.locks key).queue := sub.subset (by simp)
      rw [queue] at within
      rcases List.mem_append.mp within with early | late
      · exact early
      · rcases List.mem_cons.mp late with rfl | late
        · exact absurd less (Nat.lt_irrefl _)
        · have := after wb late
          omega
    simp only [behind, placed]
    exact mem_ahead.mpr (.inr ⟨wb, by rw [before]; exact early, rfl⟩)

theorem behind_waits {t : Table} {now : Nat} {a b : String} (queues : t.Queues)
    (present : t.Present) (behind : b ∈ t.behind now a) : t.Waits now a b := by
  unfold Table.behind at behind
  split at behind
  · rename_i key token waits
    have inside := present.queued a key token waits
    rcases mem_ahead.mp behind with ⟨holder, _, live⟩ | ⟨wb, early, rfl⟩
    · exact ⟨key, .inl ⟨⟨_, inside, rfl⟩, holder, live⟩⟩
    · obtain ⟨front, back, queue, _, _, before⟩ := queues.split inside
      rw [before] at early
      refine ⟨key, .inr ⟨⟨a, token⟩, wb, rfl, rfl, ?_⟩⟩
      rw [queue]
      exact (List.singleton_sublist.mpr early).append
        ((List.nil_sublist back).cons_cons ⟨a, token⟩)
  · simp at behind

theorem queue_length {t : Table} (queues : t.Queues) (key : String) :
    (t.locks key).queue.length ≤ t.tokens := by
  have distinct : ((t.locks key).queue.map (·.token)).Nodup := by
    rw [List.nodup_iff_pairwise_ne, List.pairwise_map]
    exact (queues.ordered key).imp fun less => Nat.ne_of_lt less
  have within : ((t.locks key).queue.map (·.token)).toFinset ⊆ Finset.Icc 1 t.tokens := by
    intro token inside
    obtain ⟨w, queued, rfl⟩ := List.mem_map.mp (List.mem_toFinset.mp inside)
    have numbered := queues.numbered _ _ _ (queues.named _ _ (queues.place key w queued))
    exact Finset.mem_Icc.mpr ⟨numbered.1, numbered.2⟩
  have card := Finset.card_le_card within
  rwa [List.toFinset_card_of_nodup distinct, List.length_map, Nat.card_Icc,
    Nat.add_sub_cancel] at card

theorem behind_length {t : Table} (queues : t.Queues) (now : Nat) (owner : String) :
    (t.behind now owner).length ≤ t.tokens + 1 := by
  unfold behind
  split
  · rename_i key token waits
    unfold ahead
    have places := (List.takeWhile_sublist (l := (t.locks key).queue)
      (fun w => decide (w.owner ≠ owner))).length_le
    have bound := queue_length queues key
    simp only [List.length_append, List.length_map]
    have first := Option.length_toList_le
      (o := (t.locks key).holder.filter fun h => decide (h ≠ owner) && t.lasts h now)
    omega
  · simp

/-- The owners that wait, each at a token of its own. -/
def waiters (t : Table) : Finset String :=
  (t.past.filterMap fun
    | .queued _ owner _ => some owner
    | _ => none).toFinset.filter fun owner => t.waiting owner ≠ none

theorem mem_waiters {t : Table} (queues : t.Queues) (owner : String) :
    owner ∈ t.waiters ↔ t.waiting owner ≠ none := by
  simp only [waiters, Finset.mem_filter, List.mem_toFinset, List.mem_filterMap,
    and_iff_right_iff_imp]
  intro waits
  obtain ⟨place, waits⟩ := Option.ne_none_iff_exists'.mp waits
  exact ⟨_, queues.named owner place waits, rfl⟩

theorem waiters_card {t : Table} (queues : t.Queues) : t.waiters.card ≤ t.tokens := by
  have card : t.waiters.card ≤ (Finset.Icc 1 t.tokens).card := by
    refine Finset.card_le_card_of_injOn (fun owner => ((t.waiting owner).map (·.2)).getD 0) ?_ ?_
    · intro owner inside
      obtain ⟨place, waits⟩ :=
        Option.ne_none_iff_exists'.mp ((mem_waiters queues owner).mp inside)
      have numbered := queues.numbered _ _ _ (queues.named owner place waits)
      simp only [waits, Option.map_some, Option.getD_some, Finset.coe_Icc, Set.mem_Icc]
      omega
    · intro owner inside other inside' same
      obtain ⟨place, waits⟩ :=
        Option.ne_none_iff_exists'.mp ((mem_waiters queues owner).mp inside)
      obtain ⟨place', waits'⟩ :=
        Option.ne_none_iff_exists'.mp ((mem_waiters queues other).mp inside')
      simp only [waits, waits', Option.map_some, Option.getD_some] at same
      exact (queues.owner_eq waits waits' same).1
  rwa [Nat.card_Icc, Nat.add_sub_cancel] at card

/-- The walk always answers: the fuel is more than it can use. -/
theorem loops_answers {t : Table} (queues : t.Queues) (start : List String) (owner : String)
    (now : Nat) : ∃ answer,
      Walks.search (t.behind now) owner (t.rounds start) start.reverse ∅ = some answer := by
  refine Walks.search_answers (t.behind now) owner t.waiters (t.tokens + 1) ?_
    (behind_length queues now) _ _ _ ?_
  · intro other idle
    have none : t.waiting other = none := by
      by_contra waits
      exact idle ((mem_waiters queues other).mpr waits)
    simp [behind, none]
  · have card := Nat.mul_le_mul_right (t.tokens + 1) (waiters_card queues)
    simp only [List.length_reverse, Finset.sdiff_empty, rounds]
    omega

/-- What `loops` answers is whether the waits lead back. -/
theorem loops_false {t : Table} (queues : t.Queues) {start : List String} {owner : String}
    {now : Nat} (clear : t.loops start owner now = false) (b : String) (first : b ∈ start) :
    ¬ ReflTransGen (t.Waits now) b owner := by
  obtain ⟨answer, result⟩ := loops_answers queues start owner now
  have absent : answer = false := by
    cases answer with
    | false => rfl
    | true => simp [loops, result] at clear
  subst absent
  have unreached := Walks.search_complete (t.behind now) owner _ _ ∅ (by simp [Walks.Behind]) result b
    (.inl (List.mem_reverse.mpr first))
  exact fun walk => unreached (ReflTransGen.mono (fun _ _ => waits_behind queues) _ _ walk)

theorem loops_true {t : Table} (queues : t.Queues) (present : t.Present) {start : List String}
    {owner : String} {now : Nat} (loop : t.loops start owner now = true) :
    ∃ b ∈ start, ReflTransGen (t.Waits now) b owner := by
  obtain ⟨b, first, walk⟩ := Walks.search_sound (t.behind now) owner _ _ ∅ (of_decide_eq_true loop)
  exact ⟨b, List.mem_reverse.mp first,
    ReflTransGen.mono (fun _ _ => behind_waits queues present) _ _ walk⟩

end Table

end Pondra.Locks
