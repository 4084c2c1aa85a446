import Pondra.Locks.Table

set_option autoImplicit false

namespace Pondra.Locks.Table

/-- Nothing stands between `key` and its queue: it has no holder, or its holder's lease lapsed. -/
def Free (t : Table) (key : String) (now : Nat) : Prop :=
  ∀ owner, (t.locks key).holder = some owner → t.lasts owner now = false

/-- `key` taken from its holder, whoever it is. -/
def vacate (t : Table) (key : String) : Table :=
  { t.setLock key ⟨none, (t.locks key).queue⟩ with
    held := fun owner =>
      if (t.locks key).holder = some owner then (t.held owner).erase key else t.held owner }

/-! ### Fields of the states the operations make -/

section fields

variable (t : Table) (key : String) (lock : Lock) (event : Event) (owner : String)
  (w : Waiter) (rest : List Waiter) (token now : Nat)

@[simp] theorem setLock_locks : (t.setLock key lock).locks = Function.update t.locks key lock := rfl
@[simp] theorem setLock_held : (t.setLock key lock).held = t.held := rfl
@[simp] theorem setLock_leases : (t.setLock key lock).leases = t.leases := rfl
@[simp] theorem setLock_ended : (t.setLock key lock).ended = t.ended := rfl
@[simp] theorem setLock_waiting : (t.setLock key lock).waiting = t.waiting := rfl
@[simp] theorem setLock_flying : (t.setLock key lock).flying = t.flying := rfl
@[simp] theorem setLock_closed : (t.setLock key lock).closed = t.closed := rfl
@[simp] theorem setLock_tokens : (t.setLock key lock).tokens = t.tokens := rfl
@[simp] theorem setLock_lease : (t.setLock key lock).lease = t.lease := rfl
@[simp] theorem setLock_gone : (t.setLock key lock).gone = t.gone := rfl
@[simp] theorem setLock_past : (t.setLock key lock).past = t.past := rfl

@[simp] theorem vacate_locks :
    (t.vacate key).locks = Function.update t.locks key ⟨none, (t.locks key).queue⟩ := rfl
@[simp] theorem vacate_held : (t.vacate key).held owner =
    if (t.locks key).holder = some owner then (t.held owner).erase key else t.held owner := rfl
@[simp] theorem vacate_leases : (t.vacate key).leases = t.leases := rfl
@[simp] theorem vacate_ended : (t.vacate key).ended = t.ended := rfl
@[simp] theorem vacate_waiting : (t.vacate key).waiting = t.waiting := rfl
@[simp] theorem vacate_flying : (t.vacate key).flying = t.flying := rfl
@[simp] theorem vacate_closed : (t.vacate key).closed = t.closed := rfl
@[simp] theorem vacate_tokens : (t.vacate key).tokens = t.tokens := rfl
@[simp] theorem vacate_lease : (t.vacate key).lease = t.lease := rfl
@[simp] theorem vacate_gone : (t.vacate key).gone = t.gone := rfl
@[simp] theorem vacate_past : (t.vacate key).past = t.past := rfl

@[simp] theorem hand_locks :
    (t.hand key w rest now).locks = Function.update t.locks key ⟨some w.owner, rest⟩ := rfl
@[simp] theorem hand_held : (t.hand key w rest now).held =
    Function.update t.held w.owner (insert key (t.held w.owner)) := rfl
@[simp] theorem hand_leases : (t.hand key w rest now).leases =
    Function.update t.leases w.owner (some (now + t.lease)) := rfl
@[simp] theorem hand_ended : (t.hand key w rest now).ended = t.ended := rfl
@[simp] theorem hand_flying : (t.hand key w rest now).flying = t.flying := rfl
@[simp] theorem hand_closed : (t.hand key w rest now).closed = t.closed := rfl
@[simp] theorem hand_tokens : (t.hand key w rest now).tokens = t.tokens := rfl
@[simp] theorem hand_lease : (t.hand key w rest now).lease = t.lease := rfl
@[simp] theorem hand_gone : (t.hand key w rest now).gone = t.gone := rfl
@[simp] theorem hand_past :
    (t.hand key w rest now).past = .granted key w.owner w.token now :: t.past := rfl

theorem hand_waiting (placed : t.waiting w.owner = some (key, w.token)) :
    (t.hand key w rest now).waiting = Function.update t.waiting w.owner none := by
  simp [hand, placed]

@[simp] theorem log_past : (t.log event).past = event :: t.past := rfl
@[simp] theorem log_locks : (t.log event).locks = t.locks := rfl
@[simp] theorem log_held : (t.log event).held = t.held := rfl
@[simp] theorem log_leases : (t.log event).leases = t.leases := rfl
@[simp] theorem log_ended : (t.log event).ended = t.ended := rfl
@[simp] theorem log_waiting : (t.log event).waiting = t.waiting := rfl
@[simp] theorem log_flying : (t.log event).flying = t.flying := rfl
@[simp] theorem log_closed : (t.log event).closed = t.closed := rfl
@[simp] theorem log_tokens : (t.log event).tokens = t.tokens := rfl
@[simp] theorem log_lease : (t.log event).lease = t.lease := rfl
@[simp] theorem log_gone : (t.log event).gone = t.gone := rfl

end fields

theorem lasts_congr {t u : Table} (same : u.leases = t.leases) (owner : String) (now : Nat) :
    u.lasts owner now = t.lasts owner now := by
  unfold lasts
  rw [same]

theorem isEnded_congr {t u : Table} (same : u.ended = t.ended) (owner : String) (now : Nat) :
    u.isEnded owner now = t.isEnded owner now := by
  unfold isEnded
  rw [same]

theorem lasts_later {t : Table} {now later : Nat} (le : now ≤ later) {owner : String}
    (live : t.lasts owner later = true) : t.lasts owner now = true := by
  unfold lasts at live ⊢
  split at live
  · rename_i till lease
    simp only [decide_eq_true_eq] at live ⊢
    omega
  · simp at live

/-! ### What `settle` can do -/

theorem lapse_busy (t : Table) (key : String) (now : Nat) (busy : ¬ t.Free key now) :
    t.lapse key now = t ∧ (t.locks key).holder.isSome := by
  unfold Free at busy
  push Not at busy
  obtain ⟨owner, holder, live⟩ := busy
  simp only [lapse, holder, Option.isSome_some, and_true]
  rw [if_pos (by simpa using live)]

theorem lapse_free (t : Table) (key : String) (now : Nat) (free : t.Free key now) :
    t.lapse key now = t.vacate key := by
  unfold lapse
  split
  · rename_i none
    have lock : t.locks key = ⟨Option.none, (t.locks key).queue⟩ := by rw [← none]
    have locks : (t.vacate key).locks = t.locks := by
      rw [vacate_locks, ← lock, Function.update_eq_self]
    have held : (t.vacate key).held = t.held := by
      funext owner
      simp [none]
    change t = { t with locks := (t.vacate key).locks, held := (t.vacate key).held }
    rw [locks, held]
  · rename_i old holder
    rw [if_neg (by simp [free old holder])]
    have held : (t.vacate key).held = Function.update t.held old ((t.held old).erase key) := by
      funext owner
      rw [vacate_held, holder, Function.update_apply]
      by_cases same : owner = old
      · subst same
        simp
      · rw [if_neg same, if_neg (fun equal => same (Option.some.inj equal).symm)]
    unfold vacate at held ⊢
    simp only at held
    rw [held]

/-- What `settle` does to a key: nothing while its holder's lease lasts; else its queue is
walked to the first waiter that still listens. -/
inductive Settled (t : Table) (key : String) (now : Nat) : Table → Prop
  | stays (busy : ¬ t.Free key now) : Settled t key now t
  | empties (free : t.Free key now) (deaf : ∀ w ∈ (t.locks key).queue, w.token ∈ t.gone) :
      Settled t key now ((t.vacate key).setLock key ⟨none, []⟩)
  | hands (free : t.Free key now) (skipped : List Waiter) (w : Waiter) (rest : List Waiter)
      (queue : (t.locks key).queue = skipped ++ w :: rest)
      (deaf : ∀ s ∈ skipped, s.token ∈ t.gone) (hears : w.token ∉ t.gone) :
      Settled t key now ((t.vacate key).hand key w rest now)

theorem handOver_cases (t : Table) (key : String) (now : Nat) (queue : List Waiter) :
    ((∀ w ∈ queue, w.token ∈ t.gone) ∧
      t.handOver key now queue = t.setLock key ⟨none, []⟩) ∨
    ∃ skipped w rest, queue = skipped ++ w :: rest ∧ (∀ s ∈ skipped, s.token ∈ t.gone) ∧
      w.token ∉ t.gone ∧ t.handOver key now queue = t.hand key w rest now := by
  induction queue with
  | nil => exact .inl ⟨by simp, rfl⟩
  | cons w rest ih =>
    unfold handOver
    split
    · rename_i deaf
      rcases ih with ⟨all, result⟩ | ⟨skipped, first, after, queue, before, hears, result⟩
      · exact .inl ⟨List.forall_mem_cons.mpr ⟨deaf, all⟩, result⟩
      · exact .inr ⟨w :: skipped, first, after, by rw [queue]; rfl,
          List.forall_mem_cons.mpr ⟨deaf, before⟩, hears, result⟩
    · rename_i hears
      exact .inr ⟨[], w, rest, rfl, by simp, hears, rfl⟩

theorem settle_settled (t : Table) (key : String) (now : Nat) :
    Settled t key now (t.settle key now) := by
  unfold settle
  by_cases free : t.Free key now
  · simp only [lapse_free t key now free, vacate_locks, Function.update_self, Option.isSome_none,
      Bool.false_eq_true, ↓reduceIte]
    rcases handOver_cases (t.vacate key) key now (t.locks key).queue with
      ⟨deaf, result⟩ | ⟨skipped, w, rest, queue, deaf, hears, result⟩
    · rw [result]
      exact .empties free deaf
    · rw [result]
      exact .hands free skipped w rest queue deaf hears
  · obtain ⟨same, holder⟩ := lapse_busy t key now free
    simp only [same, holder, ↓reduceIte]
    exact .stays free

/-- `settle` of one key moves no other lock, and nothing of gates, refusals and tokens. -/
theorem Settled.frame {t u : Table} {key : String} {now : Nat} (settled : Settled t key now u) :
    (∀ other, other ≠ key → u.locks other = t.locks other) ∧ u.flying = t.flying ∧
      u.closed = t.closed ∧ u.ended = t.ended ∧ u.lease = t.lease ∧ u.tokens = t.tokens ∧
      u.gone = t.gone := by
  cases settled with
  | stays busy => exact ⟨fun _ _ => rfl, rfl, rfl, rfl, rfl, rfl, rfl⟩
  | empties free deaf =>
    exact ⟨fun other ne => by simp [Function.update_of_ne ne], rfl, rfl, rfl, rfl, rfl, rfl⟩
  | hands free skipped w rest queue deaf hears =>
    exact ⟨fun other ne => by simp [Function.update_of_ne ne], rfl, rfl, rfl, rfl, rfl, rfl⟩

section settle

variable (t : Table) (key : String) (now : Nat)

theorem settle_locks_of_ne (other : String) (ne : other ≠ key) :
    (t.settle key now).locks other = t.locks other :=
  (settle_settled t key now).frame.1 other ne

@[simp] theorem settle_flying : (t.settle key now).flying = t.flying :=
  (settle_settled t key now).frame.2.1

@[simp] theorem settle_closed : (t.settle key now).closed = t.closed :=
  (settle_settled t key now).frame.2.2.1

@[simp] theorem settle_ended : (t.settle key now).ended = t.ended :=
  (settle_settled t key now).frame.2.2.2.1

@[simp] theorem settle_lease : (t.settle key now).lease = t.lease :=
  (settle_settled t key now).frame.2.2.2.2.1

@[simp] theorem settle_tokens : (t.settle key now).tokens = t.tokens :=
  (settle_settled t key now).frame.2.2.2.2.2.1

@[simp] theorem settle_gone : (t.settle key now).gone = t.gone :=
  (settle_settled t key now).frame.2.2.2.2.2.2

/-- After `settle` a key that has no holder has no queue. -/
theorem settle_led (free : ((t.settle key now).locks key).holder = none) :
    ((t.settle key now).locks key).queue = [] := by
  have settled := settle_settled t key now
  generalize t.settle key now = u at settled free ⊢
  cases settled with
  | stays busy =>
    refine absurd ?_ busy
    intro owner holder
    simp [free] at holder
  | empties free deaf => simp
  | hands free' skipped w rest queue deaf hears => simp at free

end settle

end Pondra.Locks.Table
