import Mathlib.Data.List.TakeWhile
import Pondra.Locks.Waits

set_option autoImplicit false

namespace Pondra.Locks

open Relation Walks Machines

namespace Table

/-! ### Places and receivers -/

/-- Callers drop a receiver after its place left the queue (`Queued` cancels first), so what
waits is queued and listens. -/
structure Live (t : Table) : Prop extends Present t where
  known : ∀ token ∈ t.gone, token ≤ t.tokens

theorem Live.congr {t u : Table} (live : t.Live) (locks : ∀ key, (u.locks key).queue = (t.locks key).queue)
    (fewer : ∀ owner place, u.waiting owner = some place → t.waiting owner = some place)
    (tokens : u.tokens = t.tokens) (gone : u.gone = t.gone) : u.Live where
  queued owner key token waits := by
    rw [locks]
    exact live.queued owner key token (fewer owner (key, token) waits)
  listens key w inside := by
    rw [locks] at inside
    rw [gone]
    exact live.listens key w inside
  known token inside := by
    rw [gone] at inside
    rw [tokens]
    exact live.known token inside

theorem settled_live' {t u : Table} {key : String} {now : Nat} (queues : t.Queues) (live : t.Live)
    (settled : Settled t key now u) : u.Live := by
  cases settled with
  | stays busy => exact live
  | empties free deaf =>
    refine live.congr ?_ (fun _ _ => id) rfl rfl
    intro k
    by_cases same : k = key
    · subst same
      have empty : (t.locks k).queue = [] := by
        refine List.eq_nil_iff_forall_not_mem.mpr ?_
        intro w inside
        exact live.listens k w inside (deaf w inside)
      simp [empty]
    · simp [Function.update_of_ne same]
  | hands free skipped w rest queue deaf hears =>
    have inside : w ∈ (t.locks key).queue := by simp [queue]
    have placed := queues.place key w inside
    have none : skipped = [] := by
      refine List.eq_nil_iff_forall_not_mem.mpr ?_
      intro s early
      exact live.listens key s (by simp [queue, early]) (deaf s early)
    subst none
    have waiting : ((t.vacate key).hand key w rest now).waiting =
        Function.update t.waiting w.owner Option.none := hand_waiting _ _ _ _ _ placed
    refine ⟨⟨?_, ?_⟩, live.known⟩
    · intro owner k token waits
      rw [waiting, Function.update_apply] at waits
      split at waits
      · simp at waits
      · rename_i other
        have before := live.queued owner k token waits
        by_cases same : k = key
        · subst same
          rw [queue] at before
          simp only [hand_locks, Function.update_self]
          rcases List.mem_cons.mp before with equal | later
          · exact absurd (congrArg Waiter.owner equal) other
          · exact later
        · simpa [Function.update_of_ne same] using before
    · intro k r stays
      by_cases same : k = key
      · subst same
        simp only [hand_locks, Function.update_self] at stays
        exact live.listens k r (by simp [queue, stays])
      · simp only [hand_locks, vacate_locks, Function.update_of_ne same] at stays
        exact live.listens k r stays

theorem settle_live (t : Table) (key : String) (now : Nat) (queues : t.Queues) (live : t.Live) :
    (t.settle key now).Live :=
  settled_live' queues live (settle_settled t key now)

theorem forget_live (t : Table) (key : String) (token : Nat) (live : t.Live) :
    (t.forget key token).Live := by
  have queue : ∀ k, (∀ w ∈ (t.locks k).queue, w.token ≠ token →
      w ∈ ((t.forget key token).locks k).queue) ∧
      ((t.forget key token).locks k).queue.Sublist (t.locks k).queue := by
    intro k
    change (∀ w ∈ (t.locks k).queue, w.token ≠ token →
      w ∈ (Function.update t.locks key _ k).queue) ∧ (Function.update t.locks key _ k).queue.Sublist _
    rw [Function.update_apply]
    split
    · rename_i same
      rw [same]
      exact ⟨fun w inside other => List.mem_filter.mpr ⟨inside, by simpa using other⟩,
        List.filter_sublist⟩
    · exact ⟨fun w inside _ => inside, List.Sublist.refl _⟩
  refine ⟨⟨?_, ?_⟩, live.known⟩
  · intro owner k n waits
    obtain ⟨waits, other⟩ := Option.filter_eq_some_iff.mp waits
    exact (queue k).1 _ (live.queued owner k n waits) (by simpa using other)
  · intro k w inside
    exact live.listens k w ((queue k).2.subset inside)

theorem unwait_live (t : Table) (owner : String) (now : Nat) (valid : t.Valid now)
    (live : t.Live) : (t.unwait owner now).Live := by
  cases waits : t.waiting owner with
  | none => simpa [unwait, waits] using live
  | some place =>
    obtain ⟨key, token⟩ := place
    have queues := valid.sound.toQueues
    rw [unwait_eq t owner key token now queues waits]
    exact settle_live _ key now
      (forget_sound t key owner token now valid.sound (queues.named owner _ waits)).toQueues
      (forget_live t key token live)

/-! ### A new place -/

theorem enqueue_waits (t : Table) (owner key : String) (now : Nat) (queues : t.Queues)
    (idle : t.waiting owner = none) (notHolder : (t.locks key).holder ≠ some owner) (a b : String) :
    (t.enqueue owner key).Waits now a b ↔
      t.Waits now a b ∨ (a = owner ∧ b ∈ t.ahead key owner now) := by
  have elsewhere : ∀ w ∈ (t.locks key).queue, w.owner ≠ owner := by
    intro w inside same
    have placed := queues.place key w inside
    rw [same, idle] at placed
    contradiction
  have all : (t.locks key).queue.takeWhile (fun w => w.owner ≠ owner) = (t.locks key).queue :=
    List.takeWhile_eq_self_iff.mpr (by simpa using elsewhere)
  have locks : ∀ k, k ≠ key → (t.enqueue owner key).locks k = t.locks k := by
    intro k ne
    simp [enqueue, Function.update_of_ne ne]
  have lock : (t.enqueue owner key).locks key =
      { t.locks key with queue := (t.locks key).queue ++ [⟨owner, t.tokens + 1⟩] } := by
    simp [enqueue]
  constructor
  · rintro ⟨k, ⟨⟨w, inside, rfl⟩, holder, live⟩ | ⟨wa, wb, rfl, rfl, sub⟩⟩
    · by_cases same : k = key
      · subst same
        rw [lock] at inside holder
        rcases List.mem_append.mp inside with old | new
        · exact .inl ⟨k, .inl ⟨⟨w, old, rfl⟩, holder, live⟩⟩
        · rw [List.mem_singleton.mp new]
          refine .inr ⟨rfl, mem_ahead.mpr (.inl ⟨holder, ?_, live⟩)⟩
          rintro rfl
          exact notHolder holder
      · rw [locks k same] at inside holder
        exact .inl ⟨k, .inl ⟨⟨w, inside, rfl⟩, holder, live⟩⟩
    · by_cases same : k = key
      · subst same
        rw [lock] at sub
        obtain ⟨l₁, l₂, split, first, last⟩ := List.sublist_append_iff.mp sub
        rcases List.sublist_singleton.mp last with rfl | rfl
        · rw [List.append_nil] at split
          exact .inl ⟨k, .inr ⟨wa, wb, rfl, rfl, split ▸ first⟩⟩
        · obtain ⟨rfl, rfl⟩ : [wb] = l₁ ∧ wa = ⟨owner, t.tokens + 1⟩ := by
            have pair : [wb] ++ [wa] = l₁ ++ [⟨owner, t.tokens + 1⟩] := split
            have parts := List.append_inj' pair rfl
            exact ⟨parts.1, List.cons.inj parts.2 |>.1⟩
          refine .inr ⟨rfl, mem_ahead.mpr (.inr ⟨wb, ?_, rfl⟩)⟩
          rw [all]
          exact List.singleton_sublist.mp first
      · rw [locks k same] at sub
        exact .inl ⟨k, .inr ⟨wa, wb, rfl, rfl, sub⟩⟩
  · rintro (⟨k, ⟨⟨w, inside, rfl⟩, holder, live⟩ | ⟨wa, wb, rfl, rfl, sub⟩⟩ | ⟨rfl, ahead⟩)
    · refine ⟨k, .inl ⟨⟨w, ?_, rfl⟩, ?_, live⟩⟩ <;> by_cases same : k = key
      · subst same
        rw [lock]
        exact List.mem_append_left _ inside
      · rwa [locks k same]
      · subst same
        rw [lock]
        exact holder
      · rwa [locks k same]
    · refine ⟨k, .inr ⟨wa, wb, rfl, rfl, ?_⟩⟩
      by_cases same : k = key
      · subst same
        rw [lock]
        exact sub.trans (List.sublist_append_left _ _)
      · rwa [locks k same]
    · rcases mem_ahead.mp ahead with ⟨holder, _, live⟩ | ⟨wb, inside, rfl⟩
      · refine ⟨key, .inl ⟨⟨⟨a, t.tokens + 1⟩, ?_, rfl⟩, ?_, live⟩⟩
        · rw [lock]
          simp
        · rw [lock]
          exact holder
      · rw [all] at inside
        refine ⟨key, .inr ⟨⟨a, t.tokens + 1⟩, wb, rfl, rfl, ?_⟩⟩
        rw [lock]
        exact (List.singleton_sublist.mpr inside).append (List.Sublist.refl _)

theorem enqueue_acyclic (t : Table) (owner key : String) (now : Nat) (queues : t.Queues)
    (idle : t.waiting owner = none) (notHolder : (t.locks key).holder ≠ some owner)
    (clear : t.loops (t.ahead key owner now) owner now = false) (acyclic : Acyclic (t.Waits now)) :
    Acyclic ((t.enqueue owner key).Waits now) := by
  refine acyclic.add_from owner ?_
  intro a b waits
  rcases (enqueue_waits t owner key now queues idle notHolder a b).mp waits with old | ⟨mine, ahead⟩
  · exact .inl old
  · exact .inr ⟨mine, loops_false queues clear b ahead⟩

theorem enqueue_deadlock (t : Table) (owner key : String) (now : Nat) (queues : t.Queues)
    (live : t.Live) (idle : t.waiting owner = none) (notHolder : (t.locks key).holder ≠ some owner)
    (loop : t.loops (t.ahead key owner now) owner now = true) :
    ¬ Acyclic ((t.enqueue owner key).Waits now) := by
  obtain ⟨b, ahead, walk⟩ := loops_true queues live.toPresent loop
  have edges := enqueue_waits t owner key now queues idle notHolder
  exact not_acyclic_of_leads (fun a b old => (edges a b).mpr (.inl old))
    ((edges owner b).mpr (.inr ⟨rfl, ahead⟩)) walk

theorem enqueue_live (t : Table) (owner key : String) (live : t.Live) :
    (t.enqueue owner key).Live := by
  have queue : ∀ k, ∀ w ∈ ((t.enqueue owner key).locks k).queue,
      w ∈ (t.locks k).queue ∨ w = ⟨owner, t.tokens + 1⟩ := by
    intro k w inside
    simp only [enqueue, setLock_locks, Function.update_apply] at inside
    split at inside
    · rename_i same
      simpa [same] using inside
    · exact .inl inside
  refine ⟨⟨?_, ?_⟩, ?_⟩
  · intro o k token waits
    simp only [enqueue, Function.update_apply] at waits
    simp only [enqueue, setLock_locks, Function.update_apply]
    split at waits
    · rename_i same
      simp only [Option.some.injEq, Prod.mk.injEq] at waits
      obtain ⟨rfl, rfl⟩ := waits
      simp [same]
    · have before := live.queued o k token waits
      split
      · rename_i same
        exact List.mem_append_left _ (same ▸ before)
      · exact before
  · intro k w inside gone
    rcases queue k w inside with old | rfl
    · exact live.listens k w old gone
    · have := live.known _ gone
      simp only at this
      omega
  · intro token gone
    have := live.known token gone
    change token ≤ t.tokens + 1
    omega

/-! ### `ask` -/

/-- Renewing the asker makes no loop among the waits of the others: theirs lead to it, its own do
not count. -/
theorem renew_others (t : Table) (owner : String) (now : Nat) (acyclic : Acyclic (t.Waits now)) :
    Acyclic ((t.renew owner now).WaitsOf now (· ≠ owner)) := by
  have base : Acyclic (t.WaitsOf now (· ≠ owner)) := acyclic.mono fun a b waits => waits.2
  refine base.add_into owner ?_
  rintro a b ⟨other, waits⟩
  rcases renew_waits waits with old | ⟨into, _⟩
  · exact .inl ⟨other, old⟩
  · refine .inr ⟨into, fun walk => ?_⟩
    rcases ReflTransGen.cases_head walk with rfl | ⟨next, edge, _⟩
    · exact other rfl
    · exact edge.1 rfl

theorem settled_lease {t u : Table} {key owner : String} {now : Nat}
    (lease : t.leases owner = some (now + t.lease)) (settled : Settled t key now u) :
    u.leases owner = some (now + u.lease) := by
  cases settled with
  | stays busy => exact lease
  | empties free deaf => exact lease
  | hands free skipped w rest queue deaf hears =>
    simp only [hand_leases, hand_lease, vacate_leases, vacate_lease, Function.update_apply]
    split
    · rfl
    · exact lease

theorem grant_acyclic (t : Table) (owner key : String) (now : Nat) (led : t.Led)
    (free : (t.locks key).holder = none) (lease : t.leases owner = some (now + t.lease))
    (acyclic : Acyclic (t.Waits now)) : Acyclic ((t.grant owner key now).Waits now) := by
  have empty := led key free
  have leases : (t.grant owner key now).leases = t.leases := by
    simp only [grant, ← lease]
    exact Function.update_eq_self owner t.leases
  refine acyclic.mono fun a b => Waits.mono ?_ ?_
  · intro k
    simp only [grant, setLock_locks, Function.update_apply]
    split
    · rename_i same
      rw [same]
    · exact List.Sublist.refl _
  · intro k b full holder live
    rw [lasts_congr leases] at live
    refine ⟨?_, live⟩
    simp only [grant, setLock_locks, Function.update_apply] at full holder
    split at full
    · exact absurd empty full
    · rename_i ne
      rwa [if_neg ne] at holder

/-- An ask that is answered at once brings back a lease as a renewal does. -/
def AskRevives (t : Table) (owner key : String) (now : Nat) : Prop :=
  (((t.renew owner now).settle key now).locks key).holder ∈ [none, some owner] ∧
    t.Revives owner now

theorem ask_acyclic (t : Table) (owner key : String) (now : Nat) (valid : t.Valid now)
    (barred : ¬ t.AskRevives owner key now) (acyclic : Acyclic (t.Waits now)) :
    Acyclic ((t.ask owner key now).1.Waits now) := by
  have renewed := renew_valid t owner now valid
  have settled := settle_valid (t.renew owner now) key now renewed
  have done := settle_settled (t.renew owner now) key now
  have others := settled_acyclic (· ≠ owner) renewed.sound.toQueues (renew_others t owner now acyclic)
    done
  have granted : ((t.renew owner now).settle key now |>.locks key).holder ∈ [none, some owner] →
      Acyclic (((t.renew owner now).settle key now).Waits now) := fun free =>
    settle_acyclic _ key now renewed.sound.toQueues
      (renew_acyclic t owner now (fun revives => barred ⟨free, revives⟩) acyclic)
  have lease : t.isEnded owner now = false →
      ((t.renew owner now).settle key now).leases owner =
        some (now + ((t.renew owner now).settle key now).lease) := by
    intro open_
    exact settled_lease (by simp [renew, open_]) done
  have long := fun holder => settle_long (t.renew owner now) key holder now renewed
  have asked := ask_asked t owner key now
  generalize (t.renew owner now).settle key now = s at settled done others granted lease long asked
  generalize t.ask owner key now = answer at asked ⊢
  have unwaited := unwait_valid s owner now settled
  obtain ⟨idle, _⟩ := unwait_idle s owner now settled
  have after : Acyclic ((s.unwait owner now).Waits now) := by
    refine (unwait_acyclic s owner now (· ≠ owner) settled others).mono ?_
    intro a b waits
    refine ⟨?_, waits⟩
    rintro rfl
    obtain ⟨k, w, inside, owner⟩ := waits.queued
    have placed := unwaited.sound.place k w inside
    rw [owner, idle] at placed
    contradiction
  cases asked with
  | ended refused => exact acyclic
  | held open_ mine => exact granted (by simp [mine])
  | took open_ free =>
    exact grant_acyclic s owner key now settled.led free (lease open_) (granted (by simp [free]))
  | deadlock open_ holder held other loop => exact after
  | waits open_ holder held other clear =>
    refine enqueue_acyclic _ owner key now unwaited.sound.toQueues idle ?_ (by simpa using clear) after
    rw [unwait_keeps s owner key holder now settled held (settled_live (long holder held) done held)]
    exact fun same => other (Option.some.inj same)

/-- `ask` refuses a wait only where granting it would close a loop. -/
theorem ask_deadlock (t : Table) (owner key : String) (now : Nat) (valid : t.Valid now)
    (live : t.Live) (refused : (t.ask owner key now).2 = .deadlock) :
    ¬ Acyclic (((t.ask owner key now).1.enqueue owner key).Waits now) := by
  have renewed := renew_valid t owner now valid
  have settled := settle_valid (t.renew owner now) key now renewed
  have done := settle_settled (t.renew owner now) key now
  have present : ((t.renew owner now).settle key now).Live := by
    refine settle_live _ key now renewed.sound.toQueues (live.congr ?_ ?_ ?_ ?_) <;>
      unfold renew <;> split <;> simp
  have long := fun holder => settle_long (t.renew owner now) key holder now renewed
  have asked := ask_asked t owner key now
  generalize (t.renew owner now).settle key now = s at settled done present long asked
  generalize t.ask owner key now = answer at asked refused ⊢
  cases asked with
  | ended _ => simp at refused
  | held open_ mine => simp at refused
  | took open_ free => simp at refused
  | deadlock open_ holder held other loop =>
    have unwaited := unwait_valid s owner now settled
    obtain ⟨idle, _⟩ := unwait_idle s owner now settled
    refine enqueue_deadlock _ owner key now unwaited.sound.toQueues
      (unwait_live s owner now settled present) idle ?_ loop
    rw [unwait_keeps s owner key holder now settled held (settled_live (long holder held) done held)]
    exact fun same => other (Option.some.inj same)
  | waits open_ holder held other clear => simp at refused

theorem ask_live (t : Table) (owner key : String) (now : Nat) (valid : t.Valid now)
    (live : t.Live) : (t.ask owner key now).1.Live := by
  have renewed := renew_valid t owner now valid
  have settled := settle_valid (t.renew owner now) key now renewed
  have present : ((t.renew owner now).settle key now).Live := by
    refine settle_live _ key now renewed.sound.toQueues (live.congr ?_ ?_ ?_ ?_) <;>
      unfold renew <;> split <;> simp
  have asked := ask_asked t owner key now
  generalize (t.renew owner now).settle key now = s at settled present asked
  generalize t.ask owner key now = answer at asked ⊢
  cases asked with
  | ended refused => exact live
  | held open_ mine => exact present
  | took open_ free =>
    refine present.congr ?_ (fun _ _ => id) rfl rfl
    intro k
    simp only [grant, setLock_locks, Function.update_apply]
    split
    · rename_i same
      rw [same]
    · rfl
  | deadlock open_ holder held other loop => exact unwait_live s owner now settled present
  | waits open_ holder held other clear =>
    exact enqueue_live _ owner key (unwait_live s owner now settled present)

/-! ### `release` and `sweep` -/

theorem letGo_calm (t : Table) (owner key : String) (keys : List String) (now : Nat)
    (releasing : t.Releasing owner (key :: keys) now) :
    (t.Live → (t.letGo owner key now).Live) ∧
      (Acyclic (t.Waits now) → Acyclic ((t.letGo owner key now).Waits now)) := by
  have holder : (t.locks key).holder = some owner :=
    (releasing.held key owner).mp (.inr ⟨rfl, List.mem_cons_self⟩)
  unfold letGo
  simp only [holder, ↓reduceIte]
  have queues := (releasing.sound.free key).toQueues
  have same : ∀ k, ((t.setLock key ⟨none, (t.locks key).queue⟩).locks k).queue =
      (t.locks k).queue := by
    intro k
    rw [setLock_locks, Function.update_apply]
    split
    · rename_i equal
      rw [equal]
    · rfl
  refine ⟨fun live => settle_live _ key now queues (live.congr same (fun _ _ => id) rfl rfl),
    fun acyclic => settle_acyclic _ key now queues ?_⟩
  refine acyclic.mono fun a b => Waits.mono (fun k => by rw [same]) ?_
  intro k b _ held lasts
  rw [setLock_locks, Function.update_apply] at held
  split at held
  · simp at held
  · exact ⟨held, lasts⟩

theorem foldl_letGo_calm (t : Table) (owner : String) (keys : List String) (now : Nat)
    (nodup : keys.Nodup) (releasing : t.Releasing owner keys now) :
    (t.Live → (keys.foldl (fun t key => t.letGo owner key now) t).Live) ∧
      (Acyclic (t.Waits now) →
        Acyclic ((keys.foldl (fun t key => t.letGo owner key now) t).Waits now)) := by
  induction keys generalizing t with
  | nil => exact ⟨id, id⟩
  | cons key rest ih =>
    obtain ⟨fresh, nodup⟩ := List.nodup_cons.mp nodup
    obtain ⟨live, acyclic⟩ := letGo_calm t owner key rest now releasing
    obtain ⟨live', acyclic'⟩ :=
      ih _ nodup (letGo_releasing t owner key rest now fresh releasing)
    exact ⟨fun before => live' (live before), fun before => acyclic' (acyclic before)⟩

theorem release_calm (t : Table) (owner : String) (keys : List String) (now : Nat)
    (nodup : keys.Nodup) (all : ∀ key, key ∈ keys ↔ key ∈ t.held owner) (valid : t.Valid now) :
    (t.Live → (t.release owner keys now).Live) ∧
      (Acyclic (t.Waits now) → Acyclic ((t.release owner keys now).Waits now)) := by
  have start := release_start t owner keys now all valid
  have done := foldl_letGo_releasing _ owner keys now nodup start
  obtain ⟨live, acyclic⟩ := foldl_letGo_calm _ owner keys now nodup start
  unfold release
  simp only
  generalize keys.foldl (fun t key => letGo t owner key now) _ = s at done live acyclic
  have refused := done.refused
  constructor
  · intro before
    have live' : (s.refuse owner now).Live :=
      (live (before.congr (fun _ => rfl) (fun _ _ => id) rfl rfl)).congr (fun _ => rfl)
        (fun _ _ => id) rfl rfl
    exact (unwait_live _ owner now refused live').congr (fun _ => rfl) (fun _ _ => id) rfl rfl
  · intro before
    have acyclic' : Acyclic ((s.refuse owner now).Waits now) := by
      refine (acyclic before).mono fun a b => Waits.mono (t := s) (u := s.refuse owner now)
        (fun k => List.Sublist.refl _) ?_
      intro k b _ held lasts
      refine ⟨held, ?_⟩
      by_cases same : b = owner
      · subst same
        simp [Table.lasts, refuse] at lasts
      · simpa [Table.lasts, refuse, Function.update_of_ne same] using lasts
    exact waitsOf_all.mp (unwait_acyclic _ owner now _ refused (waitsOf_all.mpr acyclic'))

theorem foldl_settle_calm (t : Table) (keys : List String) (now : Nat) (valid : t.Valid now) :
    (t.Live → (keys.foldl (fun t key => t.settle key now) t).Live) ∧
      (Acyclic (t.Waits now) →
        Acyclic ((keys.foldl (fun t key => t.settle key now) t).Waits now)) := by
  induction keys generalizing t with
  | nil => exact ⟨id, id⟩
  | cons key rest ih =>
    have queues := valid.sound.toQueues
    obtain ⟨live, acyclic⟩ := ih _ (settle_valid t key now valid)
    exact ⟨fun before => live (settle_live t key now queues before),
      fun before => acyclic (settle_acyclic t key now queues before)⟩

theorem sweep_calm (t : Table) (keys : List String) (now : Nat) (valid : t.Valid now) :
    (t.Live → (t.sweep keys now).Live) ∧
      (Acyclic (t.Waits now) → Acyclic ((t.sweep keys now).Waits now)) := by
  have lasting : ∀ owner, (t.expire now).lasts owner now = true → t.lasts owner now = true := by
    intro owner lasts
    by_contra lapsed
    have gone : (t.expire now).leases owner = none := by simp [expire, lapsed]
    simp [Table.lasts, gone] at lasts
  obtain ⟨live, acyclic⟩ := foldl_settle_calm (t.expire now) keys now (expire_valid t now valid)
  constructor
  · intro before
    refine (live (before.congr (fun _ => rfl) (fun _ _ => id) rfl rfl)).congr (fun _ => rfl) ?_ rfl
      rfl
    intro owner place waits
    exact (Option.filter_eq_some_iff.mp waits).1
  · intro before
    exact acyclic (before.mono fun a b => Waits.mono (t := t) (u := t.expire now)
      (fun _ => List.Sublist.refl _) fun k b _ held lasts => ⟨held, lasting b lasts⟩)

end Table

/-! ### Runs -/

/-- The receiver of a place is dropped after the place left its queue. -/
def Op.Drops (t : Table) : Op → Prop
  | .drop token => ∀ key, ∀ w ∈ (t.locks key).queue, w.token ≠ token
  | _ => True

/-- The operations that bring a lease back (a renewal, a waiter's look, an append that goes on, an
ask answered at once), where the owner waits for an owner that waits for one of its keys. -/
def Op.Revives (t : Table) (now : Nat) : Op → Prop
  | .ask owner key => t.AskRevives owner key now
  | .renew owner => t.Revives owner now
  | .tick owner key => (t.settle key now).Revives owner now
  | .enter owner table => (t.enter owner table now).2 = true ∧ t.Revives owner now
  | _ => False

/-- The callers' runs of a table. -/
def callers : Machine Clocked (Nat × Op) :=
  lakeLocks.only fun s input => input.2.Drops s.table

theorem renew_live (t : Table) (owner : String) (now : Nat) (live : t.Live) :
    (t.renew owner now).Live := by
  unfold Table.renew
  split
  · exact live
  · exact live.congr (fun _ => rfl) (fun _ _ => id) rfl rfl

theorem apply_live (t : Table) (now : Nat) (op : Op) (fits : op.Fits t) (drops : op.Drops t)
    (valid : t.Valid now) (live : t.Live) : (op.apply t now).Live := by
  have queues := valid.sound.toQueues
  cases op with
  | ask owner key => exact t.ask_live owner key now valid live
  | release owner keys =>
    have all : ∀ key, key ∈ keys ↔ key ∈ t.held owner := by
      intro key
      rw [← fits.2, List.mem_toFinset]
    exact (t.release_calm owner keys now fits.1 all valid).1 live
  | cancel key token =>
    obtain ⟨owner, queued⟩ := fits
    exact Table.settle_live _ key now (t.forget_sound key owner token now valid.sound queued).toQueues
      (t.forget_live key token live)
  | renew owner => exact renew_live t owner now live
  | settle key => exact t.settle_live key now queues live
  | tick owner key => exact renew_live _ owner now (t.settle_live key now queues live)
  | sweep keys => exact (t.sweep_calm keys now valid).1 live
  | enter owner table =>
    change (t.enter owner table now).1.Live
    unfold Table.enter
    split
    · exact live
    · exact (renew_live t owner now live).congr (fun _ => rfl) (fun _ _ => id) rfl rfl
  | leave owner table => exact live.congr (fun _ => rfl) (fun _ _ => id) rfl rfl
  | close table => exact live.congr (fun _ => rfl) (fun _ _ => id) rfl rfl
  | open_ table => exact live.congr (fun _ => rfl) (fun _ _ => id) rfl rfl
  | drop token =>
    refine ⟨⟨live.queued, ?_⟩, ?_⟩
    · intro key w inside gone
      rcases Finset.mem_insert.mp gone with same | old
      · exact drops key w inside same
      · exact live.listens key w inside old
    · intro n gone
      rcases Finset.mem_insert.mp gone with rfl | old
      · exact fits
      · exact live.known n old

theorem apply_acyclic (t : Table) (now : Nat) (op : Op) (fits : op.Fits t)
    (valid : t.Valid now) (barred : ¬ op.Revives t now)
    (acyclic : Acyclic (t.Waits now)) : Acyclic ((op.apply t now).Waits now) := by
  have queues := valid.sound.toQueues
  cases op with
  | ask owner key => exact t.ask_acyclic owner key now valid barred acyclic
  | release owner keys =>
    have all : ∀ key, key ∈ keys ↔ key ∈ t.held owner := by
      intro key
      rw [← fits.2, List.mem_toFinset]
    exact (t.release_calm owner keys now fits.1 all valid).2 acyclic
  | cancel key token =>
    obtain ⟨owner, queued⟩ := fits
    exact Table.settle_acyclic _ key now
      (t.forget_sound key owner token now valid.sound queued).toQueues
      (acyclic.mono fun a b => Table.forget_waits)
  | renew owner => exact t.renew_acyclic owner now barred acyclic
  | settle key => exact t.settle_acyclic key now queues acyclic
  | tick owner key =>
    exact Table.renew_acyclic _ owner now barred (t.settle_acyclic key now queues acyclic)
  | sweep keys => exact (t.sweep_calm keys now valid).2 acyclic
  | enter owner table =>
    change Acyclic ((t.enter owner table now).1.Waits now)
    by_cases enters : (t.enter owner table now).2 = true
    · have renewed := t.renew_acyclic owner now (fun revives => barred ⟨enters, revives⟩) acyclic
      unfold Table.enter
      split
      · exact acyclic
      · exact renewed
    · unfold Table.enter at enters ⊢
      split
      · exact acyclic
      · rename_i open_
        simp [open_] at enters
  | leave owner table => exact acyclic
  | close table => exact acyclic
  | open_ table => exact acyclic
  | drop token => exact acyclic

theorem new_live (lease start : Nat) : (Table.new lease start).Live := by
  refine ⟨⟨?_, ?_⟩, ?_⟩ <;> simp [Table.new]

theorem new_acyclic (lease start : Nat) : Acyclic ((Table.new lease start).Waits start) := by
  intro owner cycle
  obtain ⟨next, waits, _⟩ := TransGen.head'_iff.mp cycle
  obtain ⟨key, w, inside, _⟩ := waits.queued
  simp [Table.new] at inside

theorem run_live (lease start : Nat) (inputs : List (Nat × Op))
    (legal : callers.Legal (.new lease start) inputs) :
    let s := callers.run (.new lease start) inputs
    s.table.Valid s.clock ∧ s.table.Live := by
  refine callers.run_invariant (fun s => s.table.Valid s.clock ∧ s.table.Live) ?_ _ inputs
    ⟨Table.new_valid lease start, new_live lease start⟩ legal
  rintro s ⟨now, op⟩ ⟨valid, live⟩ ⟨⟨later, fits⟩, drops⟩
  have valid := valid.later later
  exact ⟨apply_valid s.table now op fits valid, apply_live s.table now op fits drops valid live⟩

/-- Where no lapsed lease comes back to close a loop, no loop of waits is ever there; and in every
run `ask` refuses a wait only where granting it would close one. -/
theorem run_waits_acyclic (lease start : Nat) (inputs : List (Nat × Op))
    (legal : callers.Legal (.new lease start) inputs) :
    let s := callers.run (.new lease start) inputs
    ((callers.only fun s input => ¬ input.2.Revives s.table input.1).Legal (.new lease start) inputs →
      ∀ now, s.clock ≤ now → Acyclic (s.table.Waits now)) ∧
    ∀ owner key now, s.clock ≤ now → (s.table.ask owner key now).2 = .deadlock →
      ¬ Acyclic (((s.table.ask owner key now).1.enqueue owner key).Waits now) := by
  intro s
  obtain ⟨valid, live⟩ := run_live lease start inputs legal
  constructor
  · intro barred now later
    refine Table.acyclic_later later ?_
    have both := Machine.run_invariant _
      (fun s => s.table.Valid s.clock ∧ Acyclic (s.table.Waits s.clock)) ?_ _ inputs
      ⟨Table.new_valid lease start, new_acyclic lease start⟩ barred
    · exact both.2
    rintro s ⟨now, op⟩ ⟨valid, acyclic⟩ ⟨⟨⟨later, fits⟩, drops⟩, barred⟩
    have valid := valid.later later
    exact ⟨apply_valid s.table now op fits valid,
      apply_acyclic s.table now op fits valid barred (Table.acyclic_later later acyclic)⟩
  · intro owner key now later
    exact s.table.ask_deadlock owner key now (valid.later later) live

/-- A waits for B's key, and B's ask for A's is refused. -/
def crossedAsks : List (Nat × Op) :=
  [(0, .ask "A" "x"), (0, .ask "B" "y"), (1, .ask "A" "y")]

theorem crossedAsks_refused :
    Acyclic ((callers.run (.new 60 0) crossedAsks).table.Waits 2) ∧
      ¬ Acyclic ((((callers.run (.new 60 0) crossedAsks).table.ask "B" "x" 2).1.enqueue "B" "x").Waits
        2) := by
  have legal : callers.Legal (.new 60 0) crossedAsks :=
    ⟨⟨⟨by decide, trivial⟩, trivial⟩, ⟨⟨by decide, trivial⟩, trivial⟩,
      ⟨⟨by decide, trivial⟩, trivial⟩, trivial⟩
  have first : ¬ (Table.new 60 0).AskRevives "A" "x" 0 := by
    rintro ⟨_, _, _, key, a, holder, _⟩
    simp [Table.new] at holder
  have second : ¬ ((Table.new 60 0).ask "A" "x" 0).1.AskRevives "B" "y" 0 := by
    rintro ⟨_, _, _, key, a, _, ⟨w, inside, _⟩, _⟩
    have locks : ((Table.new 60 0).ask "A" "x" 0).1.locks =
        Function.update (Function.update (fun _ => ⟨none, []⟩) "x" ⟨none, []⟩) "x"
          ⟨some "A", []⟩ := rfl
    rw [locks, Function.update_idem, Function.update_apply] at inside
    split at inside <;> simp at inside
  have third : ¬ (((Table.new 60 0).ask "A" "x" 0).1.ask "B" "y" 0).1.AskRevives "A" "y" 1 := by
    rintro ⟨_, _, lapsed, _⟩
    revert lapsed
    decide
  have run := run_waits_acyclic 60 0 crossedAsks legal
  exact ⟨run.1 ⟨⟨legal.1, first⟩, ⟨legal.2.1, second⟩, ⟨legal.2.2.1, third⟩, trivial⟩ 2 (by decide),
    run.2 "B" "x" 2 (by decide) (by decide)⟩

/-- A waits for B's `y` and B for C's `z`. B is silent past its lease, C's ask for A's `x` finds no loop
as B's lease lapsed, and B's next look at its own wait brings the lease back. -/
def revivedLoop : List (Nat × Op) :=
  [(0, .ask "A" "x"), (0, .ask "B" "y"), (0, .ask "C" "z"), (1, .ask "A" "y"), (1, .ask "B" "z"),
    (30, .renew "A"), (30, .renew "C"), (61, .ask "C" "x"), (62, .tick "B" "z")]

theorem revivedLoop_deadlocks :
    callers.Legal (.new 60 0) revivedLoop ∧
      ¬ Acyclic ((callers.run (.new 60 0) revivedLoop).table.Waits 62) := by
  have step : ∀ owner now op, callers.Allows owner (now, op) ↔
      (owner.clock ≤ now ∧ op.Fits owner.table) ∧ op.Drops owner.table := fun _ _ _ => Iff.rfl
  constructor
  · simp only [revivedLoop, Machine.Legal, step]
    refine ⟨⟨⟨?_, trivial⟩, trivial⟩, ⟨⟨?_, trivial⟩, trivial⟩, ⟨⟨?_, trivial⟩, trivial⟩,
      ⟨⟨?_, trivial⟩, trivial⟩, ⟨⟨?_, trivial⟩, trivial⟩, ⟨⟨?_, trivial⟩, trivial⟩,
      ⟨⟨?_, trivial⟩, trivial⟩, ⟨⟨?_, trivial⟩, trivial⟩, ⟨⟨?_, trivial⟩, trivial⟩, trivial⟩ <;>
      decide
  · intro acyclic
    have first : (callers.run (.new 60 0) revivedLoop).table.Waits 62 "A" "B" :=
      ⟨"y", .inl ⟨⟨⟨"A", 1⟩, by decide, rfl⟩, by decide, by decide⟩⟩
    have second : (callers.run (.new 60 0) revivedLoop).table.Waits 62 "B" "C" :=
      ⟨"z", .inl ⟨⟨⟨"B", 2⟩, by decide, rfl⟩, by decide, by decide⟩⟩
    have third : (callers.run (.new 60 0) revivedLoop).table.Waits 62 "C" "A" :=
      ⟨"x", .inl ⟨⟨⟨"C", 3⟩, by decide, rfl⟩, by decide, by decide⟩⟩
    exact acyclic "A" (.tail (.tail (.single first) second) third)

end Pondra.Locks
