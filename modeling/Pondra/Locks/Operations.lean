import Pondra.Locks.Invariant

set_option autoImplicit false

namespace Pondra.Locks.Table

/-! ### `settle` -/

/-- The waiter `settle` gives a key to waits nowhere else in the key's queue, and nothing that
waits elsewhere is its owner's. -/
theorem Queues.others {t : Table} (queues : t.Queues) {key : String} {skipped rest : List Waiter}
    {w : Waiter} (queue : (t.locks key).queue = skipped ++ w :: rest) :
    (∀ s ∈ skipped, s.token < w.token) ∧ (∀ r ∈ rest, w.token < r.token) ∧
      (∀ r ∈ rest, r.owner ≠ w.owner) ∧
      ∀ other, other ≠ key → ∀ r ∈ (t.locks other).queue, r.owner ≠ w.owner := by
  have ordered := queues.ordered key
  rw [queue, List.pairwise_append] at ordered
  obtain ⟨_, tail, across⟩ := ordered
  have inside : w ∈ (t.locks key).queue := by simp [queue]
  have after : ∀ r ∈ rest, w.token < r.token := (List.pairwise_cons.mp tail).1
  refine ⟨fun s before => across s before w List.mem_cons_self, after, ?_, ?_⟩
  · intro r later same
    have within : r ∈ (t.locks key).queue := by simp [queue, later]
    have equal := (queues.alone within inside same).2
    have := after r later
    rw [equal] at this
    omega
  · intro other ne r elsewhere same
    exact ne (queues.alone elsewhere inside same).1

theorem Sound.admits {t : Table} {now : Nat} (sound : t.Sound now) {owner : String}
    (waits : t.waiting owner ≠ none) (time : Nat) (released : .released owner time ∈ t.past) :
    time + t.lease ≤ now := by
  by_contra soon
  exact waits (sound.refused owner time released (by omega)).2.1

theorem settled_sound {t u : Table} {key : String} {now : Nat} (sound : t.Sound now)
    (settled : Settled t key now u) : u.Sound now := by
  cases settled with
  | stays busy => exact sound
  | empties free deaf =>
    refine sound.relock key ⟨none, []⟩ [] (by simp) rfl (by simp) rfl rfl rfl sound.heard sound.fair
      sound.quiet (List.nil_sublist _) ?_ (by simp) (by simp) (fun _ _ => id) (fun _ _ _ => rfl)
    intro w inside
    exact .inr (.inr (.inr (sound.heard w.token (deaf w inside))))
  | hands free skipped w rest queue deaf hears =>
    have inside : w ∈ (t.locks key).queue := by simp [queue]
    have placed := sound.place key w inside
    obtain ⟨before, after, apart, elsewhere⟩ := sound.toQueues.others queue
    have waiting : ((t.vacate key).hand key w rest now).waiting =
        Function.update t.waiting w.owner none := hand_waiting _ _ _ _ _ placed
    refine sound.relock key ⟨some w.owner, rest⟩ [.granted key w.owner w.token now] (by simp) rfl
      (by simp) rfl rfl rfl ?_ ?_ ?_ (by simp [queue]) ?_ ?_ ?_ ?_ ?_
    · intro token gone
      exact List.mem_cons_of_mem _ (sound.heard token gone)
    · refine ⟨⟨sound.named _ _ placed, ?_⟩, sound.fair⟩
      intro owner earlier queued less
      rcases sound.kept key owner earlier queued with answered | waits
      · exact answered
      · rw [queue] at waits
        rcases List.mem_append.mp waits with skip | later
        · exact .inr (.inr (sound.heard earlier (deaf _ skip)))
        · rcases List.mem_cons.mp later with rfl | rest
          · simp at less
          · have := after _ rest
            simp only at this
            omega
    · exact ⟨fun time released => sound.admits (by simp [placed]) time released, sound.quiet⟩
    · intro r within
      rw [queue] at within
      rcases List.mem_append.mp within with skip | later
      · exact .inr (.inr (.inr (List.mem_cons_of_mem _ (sound.heard _ (deaf r skip)))))
      · rcases List.mem_cons.mp later with rfl | stays
        · exact .inr (.inl ⟨key, r.owner, now, List.mem_cons_self⟩)
        · exact .inl stays
    · intro r stays same
      exact apart r stays (Option.some.inj same).symm
    · intro owner same
      right
      intro time released
      obtain rfl := Option.some.inj same
      exact sound.admits (by simp [placed]) time released
    · intro owner place waits
      rw [waiting, Function.update_apply] at waits
      split at waits
      · simp at waits
      · exact waits
    · intro other r stays
      rw [waiting, Function.update_of_ne]
      rw [hand_locks, Function.update_apply] at stays
      split at stays
      · exact apart r stays
      · rename_i ne
        rw [vacate_locks, Function.update_of_ne ne] at stays
        exact elsewhere other ne r stays

theorem settle_sound (t : Table) (key : String) (now : Nat) (sound : t.Sound now) :
    (t.settle key now).Sound now :=
  settled_sound sound (settle_settled t key now)

/-- `settle` gives keys only to owners that wait, and starts no wait. -/
theorem settled_gives {t u : Table} {key : String} {now : Nat} (queues : t.Queues)
    (settled : Settled t key now u) :
    (∀ owner place, u.waiting owner = some place → t.waiting owner = some place) ∧
      ∀ k owner, (u.locks k).holder = some owner →
        (t.locks k).holder = some owner ∨ t.waiting owner ≠ none := by
  cases settled with
  | stays busy => exact ⟨fun _ _ => id, fun _ _ => .inl⟩
  | empties free deaf =>
    refine ⟨fun _ _ => id, fun k owner holder => ?_⟩
    by_cases same : k = key
    · subst same
      simp at holder
    · simp only [setLock_locks, vacate_locks, Function.update_of_ne same] at holder
      exact .inl holder
  | hands free skipped w rest queue deaf hears =>
    have inside : w ∈ (t.locks key).queue := by simp [queue]
    have placed := queues.place key w inside
    refine ⟨?_, fun k owner holder => ?_⟩
    · intro owner place waits
      have waiting : ((t.vacate key).hand key w rest now).waiting =
          Function.update t.waiting w.owner none := hand_waiting _ _ _ _ _ placed
      rw [waiting, Function.update_apply] at waits
      split at waits
      · simp at waits
      · exact waits
    · by_cases same : k = key
      · subst same
        simp only [hand_locks, Function.update_self, Option.some.injEq] at holder
        right
        simp [← holder, placed]
      · simp only [hand_locks, vacate_locks, Function.update_of_ne same] at holder
        exact .inl holder

/-- No lease is longer than the table's. -/
def Span (t : Table) (now : Nat) : Prop :=
  ∀ owner till, t.leases owner = some till → till ≤ now + t.lease

theorem Span.later {t : Table} {now later : Nat} (span : t.Span now) (le : now ≤ later) :
    t.Span later := by
  intro owner till lease
  have := span owner till lease
  omega

theorem Span.update {t : Table} {now : Nat} (span : t.Span now) (owner other : String) (till : Nat)
    (lease : Function.update t.leases owner (some (now + t.lease)) other = some till) :
    till ≤ now + t.lease := by
  rw [Function.update_apply] at lease
  split at lease
  · exact le_of_eq (Option.some.inj lease).symm
  · exact span other till lease

theorem settled_span {t u : Table} {key : String} {now : Nat} (span : t.Span now)
    (settled : Settled t key now u) : u.Span now := by
  cases settled with
  | stays busy => exact span
  | empties free deaf => exact span
  | hands free skipped w rest queue deaf hears => exact span.update w.owner

/-- Where leases have no length nobody was ever queued. -/
def Brief (t : Table) : Prop :=
  t.lease = 0 → ∀ key owner token, .queued key owner token ∉ t.past

theorem settled_brief {t u : Table} {key : String} {now : Nat} (brief : t.Brief)
    (settled : Settled t key now u) : u.Brief := by
  cases settled with
  | stays busy => exact brief
  | empties free deaf => exact brief
  | hands free skipped w rest queue deaf hears =>
    intro short k owner token queued
    simp only [hand_past, List.mem_cons, reduceCtorEq, false_or] at queued
    exact brief short k owner token queued

/-- `settle` leaves a holder whose lease lasts. -/
theorem settled_keeps {t u : Table} {key k owner : String} {now : Nat}
    (holder : (t.locks k).holder = some owner) (live : t.lasts owner now = true)
    (settled : Settled t key now u) : (u.locks k).holder = some owner := by
  by_cases same : k = key
  · subst same
    cases settled with
    | stays busy => exact holder
    | empties free deaf => simp [free owner holder] at live
    | hands free skipped w rest queue deaf hears => simp [free owner holder] at live
  · rw [settled.frame.1 k same]
    exact holder

/-- Whoever holds a key that was just settled has a lease that lasts. -/
theorem settled_live {t u : Table} {key owner : String} {now : Nat} (long : 0 < t.lease)
    (settled : Settled t key now u) (holder : (u.locks key).holder = some owner) :
    u.lasts owner now = true := by
  cases settled with
  | stays busy =>
    simp only [Free, not_forall] at busy
    obtain ⟨first, same, live⟩ := busy
    rw [holder] at same
    obtain rfl := Option.some.inj same
    simpa using live
  | empties free deaf => simp at holder
  | hands free skipped w rest queue deaf hears =>
    simp only [hand_locks, Function.update_self, Option.some.injEq] at holder
    subst holder
    simp [lasts, long]

theorem settle_ledBut (t : Table) (key : String) (now : Nat) (led : t.LedBut key) :
    (t.settle key now).Led := by
  intro other free
  by_cases same : other = key
  · subst same
    exact settle_led t other now free
  · rw [settle_locks_of_ne t key now other same] at free ⊢
    exact led other same free

theorem Led.but {t : Table} (led : t.Led) (key : String) : t.LedBut key :=
  fun other _ => led other

theorem settled_heldBut {t u : Table} {key owner : String} {keys : List String} {now : Nat}
    (held : t.HeldBut owner keys) (fresh : key ∉ keys) (settled : Settled t key now u) :
    u.HeldBut owner keys := by
  cases settled with
  | stays busy => exact held
  | empties free deaf =>
    intro k other
    have before := held k other
    by_cases same : k = key
    · subst same
      by_cases holder : (t.locks k).holder = some other
      · simp [holder, fresh]
      · simp [holder] at before ⊢
        tauto
    · by_cases holder : (t.locks key).holder = some other
      · simpa [Function.update_of_ne same, holder, same] using before
      · simpa [Function.update_of_ne same, holder] using before
  | hands free skipped w rest queue deaf hears =>
    intro k other
    have before := held k other
    by_cases same : k = key
    · subst same
      by_cases mine : other = w.owner
      · subst mine
        simp
      · have before' := held k other
        by_cases holder : (t.locks k).holder = some other
        · simp [Function.update_of_ne mine, holder, fresh, Ne.symm mine]
        · simp [Function.update_of_ne mine, holder, Ne.symm mine] at before' ⊢
          tauto
    · by_cases mine : other = w.owner
      · subst mine
        by_cases holder : (t.locks key).holder = some w.owner
        · simpa [Function.update_of_ne same, holder, same] using before
        · simpa [Function.update_of_ne same, holder, same] using before
      · by_cases holder : (t.locks key).holder = some other
        · simpa [Function.update_of_ne same, Function.update_of_ne mine, holder, same] using before
        · simpa [Function.update_of_ne same, Function.update_of_ne mine, holder] using before

theorem settle_held (t : Table) (key : String) (now : Nat) (held : t.Held) :
    (t.settle key now).Held :=
  (heldBut_nil _ "").mp
    (settled_heldBut ((heldBut_nil t "").mpr held) (by simp) (settle_settled t key now))

/-! ### The operations -/

/-- The invariant of the table between operations. With a lease of no length no lock lasts, so
nobody ever waits. -/
structure Valid (t : Table) (now : Nat) : Prop where
  sound : t.Sound now
  led : t.Led
  held : t.Held
  span : t.Span now
  brief : t.Brief

theorem new_valid (lease now : Nat) : (new lease now).Valid now := by
  refine ⟨⟨⟨?_, ?_, ?_, ?_, ?_, ?_⟩, ⟨?_, ?_, trivial, trivial, ?_, ?_⟩⟩, ?_, ?_, ?_, ?_⟩ <;>
    simp [new, Led, Held, Span, Brief]

theorem Valid.later {t : Table} {now later : Nat} (valid : t.Valid now) (le : now ≤ later) :
    t.Valid later :=
  ⟨valid.sound.later le, valid.led, valid.held, valid.span.later le, valid.brief⟩

theorem settle_valid (t : Table) (key : String) (now : Nat) (valid : t.Valid now) :
    (t.settle key now).Valid now :=
  ⟨settle_sound t key now valid.sound, settle_ledBut t key now (valid.led.but key),
    settle_held t key now valid.held, settled_span valid.span (settle_settled t key now),
    settled_brief valid.brief (settle_settled t key now)⟩

theorem foldl_settle_valid (t : Table) (keys : List String) (now : Nat) (valid : t.Valid now) :
    (keys.foldl (fun t key => t.settle key now) t).Valid now := by
  induction keys generalizing t with
  | nil => exact valid
  | cons key rest ih => exact ih _ (settle_valid t key now valid)

/-- Only leases and gates differ. -/
theorem Valid.congr {t u : Table} {now : Nat} (valid : t.Valid now) (locks : u.locks = t.locks)
    (held : u.held = t.held) (waiting : u.waiting = t.waiting) (past : u.past = t.past)
    (tokens : u.tokens = t.tokens) (gone : u.gone = t.gone) (lease : u.lease = t.lease)
    (ended : u.ended = t.ended) (span : u.Span now) : u.Valid now where
  sound := valid.sound.congr locks waiting past tokens gone lease ended
  led := by unfold Led; rw [locks]; exact valid.led
  held := by unfold Held; rw [locks, held]; exact valid.held
  span := span
  brief := by unfold Brief; rw [lease, past]; exact valid.brief

theorem renew_valid (t : Table) (owner : String) (now : Nat) (valid : t.Valid now) :
    (t.renew owner now).Valid now := by
  unfold renew
  split
  · exact valid
  · exact valid.congr rfl rfl rfl rfl rfl rfl rfl rfl (valid.span.update owner)

/-- A place leaves the queue of `key`, and no owner waits at it. -/
def forget (t : Table) (key : String) (token : Nat) : Table :=
  { (t.unqueue key token).log (.left token) with
    waiting := fun owner => (t.waiting owner).filter (·.2 ≠ token) }

theorem filter_other {place : String × Nat} {token : Nat} (other : place.2 ≠ token) :
    (some place).filter (·.2 ≠ token) = some place :=
  Option.filter_eq_some_iff.mpr ⟨rfl, by simpa using other⟩

theorem cancel_eq (t : Table) (key : String) (token now : Nat) :
    t.cancel key token now = (t.forget key token).settle key now := rfl

theorem unwait_eq (t : Table) (owner key : String) (token now : Nat) (queues : t.Queues)
    (waits : t.waiting owner = some (key, token)) :
    t.unwait owner now = (t.forget key token).settle key now := by
  have same : Function.update t.waiting owner none =
      fun other => (t.waiting other).filter (·.2 ≠ token) := by
    funext other
    rw [Function.update_apply]
    split
    · rename_i equal
      rw [equal, waits]
      simp [Option.filter]
    · rename_i ne
      cases elsewhere : t.waiting other with
      | none => rfl
      | some place =>
        have apart : place.2 ≠ token := by
          intro equal
          exact ne (queues.owner_eq elsewhere waits equal).1
        exact (filter_other apart).symm
  unfold unwait forget
  rw [waits]
  simp only [same]
  rfl

theorem forget_sound (t : Table) (key owner : String) (token now : Nat) (sound : t.Sound now)
    (queued : .queued key owner token ∈ t.past) : (t.forget key token).Sound now := by
  refine sound.relock key { t.locks key with
      queue := (t.locks key).queue.filter (·.token ≠ token) } [.left token] rfl rfl (by simp)
    rfl rfl rfl ?_ sound.fair sound.quiet List.filter_sublist ?_ ?_ ?_ ?_ ?_
  · intro n gone
    exact List.mem_cons_of_mem _ (sound.heard n gone)
  · intro w inside
    by_cases same : w.token = token
    · exact .inr (.inr (.inl (by rw [same]; exact List.mem_cons_self)))
    · exact .inl (List.mem_filter.mpr ⟨inside, by simpa using same⟩)
  · intro w inside
    exact sound.apart key w (List.mem_of_mem_filter inside)
  · intro other holder
    exact .inl holder
  · intro other place waits
    exact (Option.filter_eq_some_iff.mp waits).1
  · intro other w inside
    have both : w ∈ (t.locks other).queue ∧ w.token ≠ token := by
      change w ∈ (Function.update t.locks key _ other).queue at inside
      rw [Function.update_apply] at inside
      split at inside
      · rename_i same
        have := List.mem_filter.mp inside
        exact ⟨same ▸ this.1, by simpa using this.2⟩
      · rename_i ne
        refine ⟨inside, ?_⟩
        rintro rfl
        have placed := sound.named _ _ (sound.place other w inside)
        exact ne (sound.once _ _ _ _ _ placed queued).1
    have placed := sound.place other w both.1
    change (t.waiting w.owner).filter (·.2 ≠ token) = t.waiting w.owner
    rw [placed]
    exact filter_other both.2

@[simp] theorem forget_holder (t : Table) (key : String) (token : Nat) (other : String) :
    ((t.forget key token).locks other).holder = (t.locks other).holder := by
  change (Function.update t.locks key _ other).holder = (t.locks other).holder
  rw [Function.update_apply]
  split
  · rename_i same
    rw [same]
  · rfl

theorem forget_valid (t : Table) (key owner : String) (token now : Nat) (valid : t.Valid now)
    (queued : .queued key owner token ∈ t.past) : (t.forget key token).Valid now := by
  refine ⟨forget_sound t key owner token now valid.sound queued, ?_, ?_, valid.span, ?_⟩
  · intro other free
    change (Function.update t.locks key _ other).holder = none at free
    change (Function.update t.locks key _ other).queue = []
    rw [Function.update_apply] at free ⊢
    split at free
    · rename_i same
      rw [if_pos same]
      simp [valid.led key free]
    · rename_i ne
      rw [if_neg ne]
      exact valid.led other free
  · intro other holder
    rw [forget_holder]
    exact valid.held other holder
  · intro short k o n queued'
    simp only [forget, log_past, List.mem_cons, reduceCtorEq, false_or] at queued'
    exact valid.brief short k o n queued'

theorem unwait_valid (t : Table) (owner : String) (now : Nat) (valid : t.Valid now) :
    (t.unwait owner now).Valid now := by
  cases waits : t.waiting owner with
  | none => simpa [unwait, waits] using valid
  | some place =>
    obtain ⟨key, token⟩ := place
    rw [unwait_eq t owner key token now valid.sound.toQueues waits]
    exact settle_valid _ _ _
      (forget_valid t key owner token now valid (valid.sound.named owner _ waits))

/-- After `unwait` an owner has no place, and holds nothing it did not hold before. -/
theorem unwait_idle (t : Table) (owner : String) (now : Nat) (valid : t.Valid now) :
    (t.unwait owner now).waiting owner = none ∧
      ∀ key, ((t.unwait owner now).locks key).holder = some owner →
        (t.locks key).holder = some owner := by
  cases waits : t.waiting owner with
  | none => simp [unwait, waits]
  | some place =>
    obtain ⟨key, token⟩ := place
    have queues := valid.sound.toQueues
    have queued := queues.named owner _ waits
    rw [unwait_eq t owner key token now queues waits]
    have idle : (t.forget key token).waiting owner = none := by
      change (t.waiting owner).filter (·.2 ≠ token) = none
      simp [waits, Option.filter]
    have gives := settled_gives (forget_sound t key owner token now valid.sound queued).toQueues
      (settle_settled (t.forget key token) key now)
    constructor
    · cases later : ((t.forget key token).settle key now).waiting owner with
      | none => rfl
      | some place =>
        have before := gives.1 owner place later
        rw [idle] at before
        contradiction
    · intro k holder
      rcases gives.2 k owner holder with same | waiting
      · rw [forget_holder] at same
        exact same
      · exact absurd idle waiting

/-! #### `ask` -/

theorem grant_valid (t : Table) (owner key : String) (now : Nat) (valid : t.Valid now)
    (free : (t.locks key).holder = none)
    (admitted : ∀ time, .released owner time ∈ t.past → time + t.lease ≤ now) :
    (t.grant owner key now).Valid now := by
  have empty := valid.led key free
  refine ⟨?_, ?_, ?_, valid.span.update owner, ?_⟩
  · refine valid.sound.relock key { t.locks key with holder := some owner }
      [.took key owner now] rfl rfl (by simp) rfl rfl rfl ?_ valid.sound.fair
      ⟨admitted, valid.sound.quiet⟩ (List.Sublist.refl _) (fun _ => .inl) (by simp [empty]) ?_
      (fun _ _ => id) (fun _ _ _ => rfl)
    · intro token gone
      exact List.mem_cons_of_mem _ (valid.sound.heard token gone)
    · intro other same
      obtain rfl := Option.some.inj same
      exact .inr admitted
  · intro other holder
    simp only [grant, setLock_locks, Function.update_apply] at holder ⊢
    split at holder
    · simp at holder
    · rename_i ne
      rw [if_neg ne]
      exact valid.led other holder
  · intro k other
    have before := valid.held k other
    simp only [grant, setLock_locks, Function.update_apply]
    by_cases same : k = key
    · subst same
      by_cases mine : other = owner
      · simp [mine]
      · rw [free] at before
        simp only [mine, ↓reduceIte, before, reduceCtorEq, Option.some.injEq, false_iff]
        exact fun equal => mine equal.symm
    · by_cases mine : other = owner
      · subst mine
        simp [same, before]
      · simp [same, mine, before]
  · intro short k o token queued
    simp only [grant, List.mem_cons, reduceCtorEq, false_or] at queued
    exact valid.brief short k o token queued

theorem enqueue_valid (t : Table) (owner key : String) (now : Nat) (valid : t.Valid now)
    (idle : t.waiting owner = none) (held : (t.locks key).holder ≠ none)
    (other : (t.locks key).holder ≠ some owner) (long : 0 < t.lease)
    (admitted : ∀ time, .released owner time ∈ t.past → time + t.lease ≤ now) :
    (t.enqueue owner key).Valid now := by
  have sound := valid.sound
  have fresh : ∀ key' owner' token, .queued key' owner' token ∈ t.past → token < t.tokens + 1 := by
    intro key' owner' token queued
    have := (sound.numbered key' owner' token queued).2
    omega
  have queue : ∀ k, ∀ w ∈ ((t.enqueue owner key).locks k).queue,
      w ∈ (t.locks k).queue ∨ (k = key ∧ w = ⟨owner, t.tokens + 1⟩) := by
    intro k w inside
    simp only [enqueue, setLock_locks, Function.update_apply] at inside
    split at inside
    · rename_i same
      simp only [List.mem_append, List.mem_singleton] at inside
      exact inside.imp (fun old => same ▸ old) (fun new => ⟨same, new⟩)
    · exact .inl inside
  have holder : ∀ k, ((t.enqueue owner key).locks k).holder = (t.locks k).holder := by
    intro k
    simp only [enqueue, setLock_locks, Function.update_apply]
    split
    · rename_i same
      rw [same]
    · rfl
  have elsewhere : ∀ k, ∀ w ∈ (t.locks k).queue, w.owner ≠ owner := by
    intro k w inside same
    have placed := sound.place k w inside
    rw [same, idle] at placed
    contradiction
  refine ⟨⟨⟨?_, ?_, ?_, ?_, ?_, ?_⟩, ⟨?_, ?_, ?_, sound.quiet, ?_, ?_⟩⟩, ?_, ?_, valid.span,
    ?_⟩
  · intro k w inside
    rcases queue k w inside with old | ⟨rfl, rfl⟩
    · simp only [enqueue, Function.update_of_ne (elsewhere k w old)]
      exact sound.place k w old
    · simp [enqueue]
  · intro k w inside
    rw [holder]
    rcases queue k w inside with old | ⟨rfl, rfl⟩
    · exact sound.apart k w old
    · exact other
  · intro k
    simp only [enqueue, setLock_locks, Function.update_apply]
    split
    · rename_i same
      rw [List.pairwise_append]
      refine ⟨sound.ordered key, List.pairwise_singleton _ _, ?_⟩
      intro w inside w' last
      rw [List.mem_singleton.mp last]
      exact fresh _ _ _ (sound.named _ _ (sound.place key w inside))
    · exact sound.ordered k
  · intro other' place waits
    simp only [enqueue, Function.update_apply] at waits ⊢
    split at waits
    · rename_i same
      obtain rfl := Option.some.inj waits
      rw [same]
      exact List.mem_cons_self
    · exact List.mem_cons_of_mem _ (sound.named other' place waits)
  · intro k o k' o' token first second
    simp only [enqueue, List.mem_cons, Event.queued.injEq] at first second
    rcases first with ⟨rfl, rfl, rfl⟩ | first <;> rcases second with ⟨rfl, rfl, same⟩ | second
    · exact ⟨rfl, rfl⟩
    · have := fresh _ _ _ second
      omega
    · have := fresh _ _ _ first
      omega
    · exact sound.once k o k' o' token first second
  · intro k o token queued
    simp only [enqueue, List.mem_cons, Event.queued.injEq] at queued ⊢
    rcases queued with ⟨rfl, rfl, rfl⟩ | queued
    · omega
    · have := sound.numbered k o token queued
      omega
  · intro k o token queued
    simp only [enqueue, List.mem_cons, Event.queued.injEq] at queued
    simp only [enqueue, setLock_locks, Function.update_apply]
    rcases queued with ⟨rfl, rfl, rfl⟩ | queued
    · right
      simp
    · rcases sound.kept k o token queued with answered | waits
      · exact .inl (answered.cons _)
      · right
        split
        · rename_i same
          exact List.mem_append_left _ (same ▸ waits)
        · exact waits
  · intro token gone
    exact List.mem_cons_of_mem _ (sound.heard token gone)
  · exact ⟨fresh, sound.fair⟩
  · intro o time released
    simp only [enqueue, List.mem_cons, reduceCtorEq, false_or] at released
    exact sound.since o time released
  · intro o time released soon
    simp only [enqueue, List.mem_cons, reduceCtorEq, false_or] at released soon
    obtain ⟨refusal, quiet, none⟩ := sound.refused o time released soon
    have ne : o ≠ owner := by
      rintro rfl
      have := admitted time released
      simp only [setLock_lease] at soon
      omega
    refine ⟨refusal, ?_, ?_⟩
    · simpa only [enqueue, Function.update_of_ne ne] using quiet
    · intro k
      rw [holder]
      exact none k
  · intro k free
    rw [holder] at free
    simp only [enqueue, setLock_locks, Function.update_apply]
    split
    · rename_i same
      exact absurd (same ▸ free) held
    · exact valid.led k free
  · intro k o
    rw [holder]
    exact valid.held k o
  · intro short
    exact absurd short (Nat.pos_iff_ne_zero.mp long)

theorem Valid.admits {t : Table} {now : Nat} (valid : t.Valid now) {owner : String}
    (open_ : t.isEnded owner now = false) (time : Nat) (released : .released owner time ∈ t.past) :
    time + t.lease ≤ now := by
  by_contra soon
  obtain ⟨⟨till, ended, late⟩, _⟩ := valid.sound.refused owner time released (by omega)
  simp only [isEnded, ended, decide_eq_false_iff_not, Nat.not_lt] at open_
  omega

@[simp] theorem renew_ended (t : Table) (owner : String) (now : Nat) :
    (t.renew owner now).ended = t.ended := by
  unfold renew
  split <;> rfl

@[simp] theorem renew_lease (t : Table) (owner : String) (now : Nat) :
    (t.renew owner now).lease = t.lease := by
  unfold renew
  split <;> rfl

/-- A key that has a holder after `settle` has one whose lease lasts: with leases of no length
there is no such key. -/
theorem settle_long (t : Table) (key owner : String) (now : Nat) (valid : t.Valid now)
    (holder : ((t.settle key now).locks key).holder = some owner) : 0 < t.lease := by
  have settled := settle_settled t key now
  generalize t.settle key now = u at settled holder
  cases settled with
  | stays busy =>
    simp only [Free, not_forall] at busy
    obtain ⟨first, same, live⟩ := busy
    simp only [lasts] at live
    split at live
    · rename_i till lease
      have := valid.span first till lease
      simp only [decide_eq_false_iff_not, Nat.not_lt, Nat.not_le] at live
      omega
    · simp at live
  | empties free deaf => simp at holder
  | hands free skipped w rest queue deaf hears =>
    by_contra short
    have inside : w ∈ (t.locks key).queue := by simp [queue]
    exact valid.brief (by omega) _ _ _ (valid.sound.named _ _ (valid.sound.place key w inside))

/-- Giving up a place moves no lock whose holder's lease lasts. -/
theorem unwait_keeps (t : Table) (owner key holder : String) (now : Nat) (valid : t.Valid now)
    (holds : (t.locks key).holder = some holder) (live : t.lasts holder now = true) :
    ((t.unwait owner now).locks key).holder = some holder := by
  cases waits : t.waiting owner with
  | none => simpa [unwait, waits] using holds
  | some place =>
    obtain ⟨other, token⟩ := place
    rw [unwait_eq t owner other token now valid.sound.toQueues waits]
    exact settled_keeps (t := t.forget other token) (by rw [forget_holder]; exact holds) live
      (settle_settled _ other now)

@[simp] theorem unwait_lease (t : Table) (owner : String) (now : Nat) :
    (t.unwait owner now).lease = t.lease := by
  unfold unwait
  split <;> simp [unqueue]

@[simp] theorem unwait_ended (t : Table) (owner : String) (now : Nat) :
    (t.unwait owner now).ended = t.ended := by
  unfold unwait
  split <;> simp [unqueue]

/-- What `ask` can do, in the state `s` its renewal and its settling leave. -/
inductive Asked (t : Table) (owner key : String) (now : Nat) (s : Table) : Table × Ask → Prop
  | ended (refused : t.isEnded owner now = true) : Asked t owner key now s (t, .ended)
  | held (open_ : t.isEnded owner now = false) (mine : (s.locks key).holder = some owner) :
      Asked t owner key now s (s, .granted)
  | took (open_ : t.isEnded owner now = false) (free : (s.locks key).holder = none) :
      Asked t owner key now s (s.grant owner key now, .granted)
  | deadlock (open_ : t.isEnded owner now = false) (holder : String)
      (held : (s.locks key).holder = some holder) (other : holder ≠ owner)
      (loop : (s.unwait owner now).loops ((s.unwait owner now).ahead key owner now) owner now) :
      Asked t owner key now s (s.unwait owner now, .deadlock)
  | waits (open_ : t.isEnded owner now = false) (holder : String)
      (held : (s.locks key).holder = some holder) (other : holder ≠ owner)
      (clear : ¬ (s.unwait owner now).loops ((s.unwait owner now).ahead key owner now) owner now) :
      Asked t owner key now s
        ((s.unwait owner now).enqueue owner key, .wait ((s.unwait owner now).tokens + 1))

theorem ask_asked (t : Table) (owner key : String) (now : Nat) :
    Asked t owner key now ((t.renew owner now).settle key now) (t.ask owner key now) := by
  unfold ask
  split
  · rename_i refused
    exact .ended refused
  · rename_i open_
    simp only [Bool.not_eq_true] at open_
    simp only [holds, decide_eq_true_eq]
    split
    · rename_i mine
      exact .held open_ mine
    · rename_i notMine
      split
      · rename_i free
        exact .took open_ (Option.isNone_iff_eq_none.mp free)
      · rename_i busy
        obtain ⟨holder, held⟩ := Option.ne_none_iff_exists'.mp (by simpa using busy)
        have other : holder ≠ owner := by
          rintro rfl
          exact notMine held
        split
        · rename_i loop
          exact .deadlock open_ holder held other loop
        · rename_i clear
          exact .waits open_ holder held other clear

theorem ask_valid (t : Table) (owner key : String) (now : Nat) (valid : t.Valid now) :
    (t.ask owner key now).1.Valid now := by
  have renewed := renew_valid t owner now valid
  have settled := settle_valid (t.renew owner now) key now renewed
  have done := settle_settled (t.renew owner now) key now
  have long := fun holder => settle_long (t.renew owner now) key holder now renewed
  have ended : ((t.renew owner now).settle key now).isEnded owner now = t.isEnded owner now :=
    isEnded_congr (by simp) owner now
  have asked := ask_asked t owner key now
  generalize (t.renew owner now).settle key now = s at settled done long ended asked
  generalize t.ask owner key now = answer at asked ⊢
  cases asked with
  | ended refused => exact valid
  | held open_ mine => exact settled
  | took open_ free =>
    exact grant_valid s owner key now settled free (settled.admits (ended.trans open_))
  | deadlock open_ holder held other loop => exact unwait_valid s owner now settled
  | waits open_ holder held other clear =>
    have unwaited := unwait_valid s owner now settled
    obtain ⟨idle, _⟩ := unwait_idle s owner now settled
    have kept := unwait_keeps s owner key holder now settled held
      (settled_live (long holder held) done held)
    have open' : (s.unwait owner now).isEnded owner now = false := by
      rw [isEnded_congr (unwait_ended s owner now), ended]
      exact open_
    refine enqueue_valid _ owner key now unwaited idle (by simp [kept]) ?_ ?_
      (unwaited.admits open')
    · rw [kept]
      exact fun same => other (Option.some.inj same)
    · rw [unwait_lease, done.frame.2.2.2.2.1]
      exact long holder held

/-! #### `release` -/

/-- The loop of `release`: `keys` are still to be let go, and nothing else is `owner`'s. -/
structure Releasing (t : Table) (owner : String) (keys : List String) (now : Nat) : Prop where
  sound : t.Sound now
  led : t.Led
  held : t.HeldBut owner keys
  span : t.Span now
  brief : t.Brief
  none : t.held owner = ∅
  mine : ∀ key, (t.locks key).holder = some owner → key ∈ keys

theorem Sound.free {t : Table} {now : Nat} (sound : t.Sound now) (key : String) :
    (t.setLock key ⟨none, (t.locks key).queue⟩).Sound now :=
  sound.relock key ⟨none, (t.locks key).queue⟩ [] rfl rfl (by simp) rfl rfl rfl sound.heard
    sound.fair sound.quiet (List.Sublist.refl _) (fun _ => .inl) (by simp) (by simp)
    (fun _ _ => id) (fun _ _ _ => rfl)

theorem letGo_releasing (t : Table) (owner key : String) (keys : List String) (now : Nat)
    (fresh : key ∉ keys) (releasing : t.Releasing owner (key :: keys) now) :
    (t.letGo owner key now).Releasing owner keys now := by
  have holder : (t.locks key).holder = some owner :=
    (releasing.held key owner).mp (.inr ⟨rfl, List.mem_cons_self⟩)
  have sound := releasing.sound
  unfold letGo
  simp only [holder, ↓reduceIte]
  have free := sound.free key
  have led : (t.setLock key ⟨none, (t.locks key).queue⟩).LedBut key := by
    intro other ne free
    rw [setLock_locks, Function.update_of_ne ne] at free ⊢
    exact releasing.led other free
  have held : (t.setLock key ⟨none, (t.locks key).queue⟩).HeldBut owner keys := by
    intro k other
    have before := releasing.held k other
    by_cases same : k = key
    · subst same
      rw [setLock_locks, Function.update_self]
      simp only [setLock_held, reduceCtorEq, iff_false, not_or, not_and]
      refine ⟨?_, fun _ => fresh⟩
      intro inside
      have mine := before.mp (.inl inside)
      rw [holder] at mine
      obtain rfl := Option.some.inj mine
      simp [releasing.none] at inside
    · rw [setLock_locks, Function.update_of_ne same, ← before]
      simp [same]
  have settled := settle_settled (t.setLock key ⟨none, (t.locks key).queue⟩) key now
  refine ⟨settled_sound free settled, settle_ledBut _ key now led,
    settled_heldBut held fresh settled, settled_span (t := t.setLock key _) releasing.span settled,
    settled_brief (t := t.setLock key _) releasing.brief settled, ?_, ?_⟩
  · generalize settle _ key now = u at settled
    cases settled with
    | stays busy => exact releasing.none
    | empties free deaf => simpa using releasing.none
    | hands free skipped w rest queue deaf hears =>
      have ne : owner ≠ w.owner := by
        rintro rfl
        simp only [setLock_locks, Function.update_self] at queue
        exact sound.apart key w (by simp [queue]) holder
      simpa [Function.update_of_ne ne] using releasing.none
  · intro k mine
    have ne : k ≠ key := by
      rintro rfl
      generalize settle _ k now = u at settled mine
      cases settled with
      | stays busy => simp at mine
      | empties free deaf => simp at mine
      | hands free skipped w rest queue deaf hears =>
        simp only [hand_locks, Function.update_self, Option.some.injEq] at mine
        simp only [setLock_locks, Function.update_self] at queue
        exact sound.apart k w (by simp [queue]) (by rw [holder, mine])
    rw [settle_locks_of_ne _ _ _ _ ne, setLock_locks, Function.update_of_ne ne] at mine
    exact (List.mem_cons.mp (releasing.mine k mine)).resolve_left ne

theorem foldl_letGo_releasing (t : Table) (owner : String) (keys : List String) (now : Nat)
    (nodup : keys.Nodup) (releasing : t.Releasing owner keys now) :
    (keys.foldl (fun t key => t.letGo owner key now) t).Releasing owner [] now := by
  induction keys generalizing t with
  | nil => exact releasing
  | cons key rest ih =>
    obtain ⟨fresh, nodup⟩ := List.nodup_cons.mp nodup
    exact ih _ nodup (letGo_releasing t owner key rest now fresh releasing)

theorem refuse_sound (t : Table) (owner : String) (now : Nat) (sound : t.Sound now) :
    (t.refuse owner now).Sound now where
  place := sound.place
  apart := sound.apart
  ordered := sound.ordered
  named := sound.named
  once := sound.once
  numbered := sound.numbered
  kept := sound.kept
  heard := sound.heard
  fair := sound.fair
  quiet := sound.quiet
  since := sound.since
  refused := by
    intro other time released soon
    obtain ⟨⟨till, ended, late⟩, idle, none⟩ := sound.refused other time released soon
    refine ⟨?_, idle, none⟩
    by_cases same : other = owner
    · subst same
      have before := sound.since other time released
      refine ⟨now + t.lease, by simp [refuse], ?_⟩
      change time + t.lease ≤ now + t.lease
      omega
    · exact ⟨till, by simp [refuse, Function.update_of_ne same, ended], late⟩

/-- The end of `release`: an owner with no place and no lock, refused for a lease, is on record as
released. -/
theorem log_released_valid (t : Table) (owner : String) (now : Nat) (valid : t.Valid now)
    (ended : t.ended owner = some (now + t.lease)) (idle : t.waiting owner = none)
    (empty : ∀ key, (t.locks key).holder ≠ some owner) :
    (t.log (.released owner now)).Valid now := by
  have sound := valid.sound
  refine ⟨⟨⟨sound.place, sound.apart, sound.ordered, ?_, ?_, ?_⟩,
    ⟨?_, ?_, sound.fair, sound.quiet, ?_, ?_⟩⟩, valid.led, valid.held, valid.span, ?_⟩
  · intro other place waits
    exact List.mem_cons_of_mem _ (sound.named other place waits)
  · intro k o k' o' token first second
    simp only [log_past, List.mem_cons, reduceCtorEq, false_or] at first second
    exact sound.once k o k' o' token first second
  · intro k o token queued
    simp only [log_past, List.mem_cons, reduceCtorEq, false_or] at queued
    exact sound.numbered k o token queued
  · intro k o token queued
    simp only [log_past, List.mem_cons, reduceCtorEq, false_or] at queued
    exact (sound.kept k o token queued).imp_left fun answered => answered.cons _
  · intro token gone
    exact List.mem_cons_of_mem _ (sound.heard token gone)
  · intro other time released
    simp only [log_past, List.mem_cons, Event.released.injEq] at released
    rcases released with ⟨_, rfl⟩ | released
    · exact le_refl _
    · exact sound.since other time released
  · intro other time released soon
    simp only [log_past, List.mem_cons, Event.released.injEq] at released
    rcases released with ⟨rfl, rfl⟩ | released
    · exact ⟨⟨time + t.lease, ended, le_refl _⟩, idle, empty⟩
    · exact sound.refused other time released soon
  · intro short k o token queued
    simp only [log_past, List.mem_cons, reduceCtorEq, false_or] at queued
    exact valid.brief short k o token queued

theorem release_start (t : Table) (owner : String) (keys : List String) (now : Nat)
    (all : ∀ key, key ∈ keys ↔ key ∈ t.held owner) (valid : t.Valid now) :
    Releasing { t with held := Function.update t.held owner ∅ } owner keys now := by
  refine ⟨valid.sound.congr rfl rfl rfl rfl rfl rfl rfl, valid.led, ?_, valid.span, valid.brief,
    by simp, ?_⟩
  · intro key other
    rw [← valid.held key other, all]
    by_cases same : other = owner
    · subst same
      simp
    · simp [same]
  · intro key mine
    exact (all key).mpr ((valid.held key owner).mpr mine)

theorem Releasing.refused {t : Table} {owner : String} {now : Nat}
    (done : t.Releasing owner [] now) : (t.refuse owner now).Valid now := by
  refine ⟨refuse_sound t owner now done.sound, done.led, (heldBut_nil t owner).mp done.held, ?_,
    done.brief⟩
  intro other till lease
  simp only [refuse, Function.update_apply] at lease
  split at lease
  · simp at lease
  · exact done.span other till lease

theorem release_valid (t : Table) (owner : String) (keys : List String) (now : Nat)
    (nodup : keys.Nodup) (all : ∀ key, key ∈ keys ↔ key ∈ t.held owner) (valid : t.Valid now) :
    (t.release owner keys now).Valid now := by
  have start := release_start t owner keys now all valid
  have done := foldl_letGo_releasing _ owner keys now nodup start
  unfold release
  simp only
  generalize keys.foldl (fun t key => letGo t owner key now) _ = s at done
  have refused := done.refused
  obtain ⟨idle, mine⟩ := unwait_idle _ owner now refused
  have released : (((s.refuse owner now).unwait owner now).log (.released owner now)).Valid now := by
    refine log_released_valid _ owner now (unwait_valid _ owner now refused) ?_ idle ?_
    · rw [unwait_ended, unwait_lease]
      simp [refuse]
    · intro key holder
      have := done.mine key (mine key holder)
      simp at this
  exact released.congr rfl rfl rfl rfl rfl rfl rfl rfl released.span

/-! #### Gates, receivers, sweeps -/

theorem enter_valid (t : Table) (owner table : String) (now : Nat) (valid : t.Valid now) :
    (t.enter owner table now).1.Valid now := by
  have renewed := renew_valid t owner now valid
  unfold enter
  split
  · exact valid
  · exact renewed.congr rfl rfl rfl rfl rfl rfl rfl rfl renewed.span

theorem drop_valid (t : Table) (token now : Nat) (valid : t.Valid now) :
    (t.drop token).Valid now := by
  have sound := valid.sound
  refine ⟨?_, valid.led, valid.held, valid.span, ?_⟩
  · refine sound.relock "" (t.locks "") [.dropped token] (by simp [drop]) rfl (by simp) rfl rfl rfl
      ?_ sound.fair sound.quiet (List.Sublist.refl _) (fun _ => .inl) (sound.apart "")
      (fun _ => .inl) (fun _ _ => id) (fun _ _ _ => rfl)
    intro n gone
    rcases Finset.mem_insert.mp gone with rfl | old
    · exact List.mem_cons_self
    · exact List.mem_cons_of_mem _ (sound.heard n old)
  · intro short k o n queued
    simp only [drop, log_past, List.mem_cons, reduceCtorEq, false_or] at queued
    exact valid.brief short k o n queued

theorem settled_queue {t u : Table} {key k : String} {now : Nat}
    (empty : (t.locks k).queue = []) (settled : Settled t key now u) :
    (u.locks k).queue = [] := by
  by_cases same : k = key
  · subst same
    cases settled with
    | stays busy => exact empty
    | empties free deaf => simp
    | hands free skipped w rest queue deaf hears => simp [empty] at queue
  · rw [settled.frame.1 k same]
    exact empty

theorem foldl_settle_queue (t : Table) (keys : List String) (now : Nat) (key : String)
    (empty : (t.locks key).queue = []) :
    ((keys.foldl (fun t key => t.settle key now) t).locks key).queue = [] := by
  induction keys generalizing t with
  | nil => exact empty
  | cons first rest ih => exact ih _ (settled_queue empty (settle_settled t first now))

theorem expire_valid (t : Table) (now : Nat) (valid : t.Valid now) : (t.expire now).Valid now := by
  have sound := valid.sound
  refine ⟨⟨sound.toQueues.congr rfl rfl rfl rfl, ⟨sound.kept, sound.heard, sound.fair, sound.quiet,
    sound.since, ?_⟩⟩, valid.led, valid.held, ?_, valid.brief⟩
  · intro owner time released soon
    obtain ⟨⟨till, ended, late⟩, rest⟩ := sound.refused owner time released soon
    refine ⟨⟨till, ?_, late⟩, rest⟩
    have lasts : t.isEnded owner now = true := by
      change now < time + t.lease at soon
      simp only [isEnded, ended, decide_eq_true_eq]
      omega
    simp [expire, lasts, ended]
  · intro owner till lease
    simp only [expire] at lease
    split at lease
    · exact valid.span owner till lease
    · simp at lease

theorem sweep_valid (t : Table) (keys : List String) (now : Nat)
    (all : ∀ key, (t.locks key).queue ≠ [] → key ∈ keys) (valid : t.Valid now) :
    (t.sweep keys now).Valid now := by
  have settled := foldl_settle_valid (t.expire now) keys now (expire_valid t now valid)
  have listed : ∀ key, ((keys.foldl (fun t key => t.settle key now) (t.expire now)).locks key).queue ≠ [] →
      key ∈ keys := by
    intro key waits
    by_contra missing
    have empty : ((t.expire now).locks key).queue = [] := by
      by_contra queue
      exact missing (all key queue)
    exact waits (foldl_settle_queue _ keys now key empty)
  unfold sweep
  simp only
  generalize keys.foldl (fun t key => settle t key now) (t.expire now) = s at settled listed
  have sound := settled.sound
  refine ⟨⟨⟨?_, sound.apart, sound.ordered, ?_, sound.once, sound.numbered⟩,
    ⟨sound.kept, sound.heard, sound.fair, sound.quiet, sound.since, ?_⟩⟩, settled.led, settled.held,
    settled.span, settled.brief⟩
  · intro key w inside
    have placed := sound.place key w inside
    refine Option.filter_eq_some_iff.mpr ⟨placed, ?_⟩
    simp only [decide_eq_true_eq, List.mem_flatMap, List.mem_map]
    exact ⟨key, listed key (List.ne_nil_of_mem inside), w, inside, rfl⟩
  · intro owner place waits
    exact sound.named owner place (Option.filter_eq_some_iff.mp waits).1
  · intro owner time released soon
    obtain ⟨refusal, idle, none⟩ := sound.refused owner time released soon
    refine ⟨refusal, ?_, none⟩
    change (s.waiting owner).filter _ = Option.none
    rw [idle]
    rfl

end Pondra.Locks.Table
