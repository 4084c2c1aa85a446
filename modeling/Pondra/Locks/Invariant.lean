import Mathlib.Data.List.Pairwise
import Pondra.Locks.Settle

set_option autoImplicit false

namespace Pondra.Locks

/-! ### The record -/

/-- The place `token` was granted, gave up its wait (cancelled, or its owner ended or asked anew), or
nobody listened for it any more. -/
def Answered (token : Nat) (past : List Event) : Prop :=
  (∃ key owner time, .granted key owner token time ∈ past) ∨ .left token ∈ past ∨
    .dropped token ∈ past

theorem Answered.cons {token : Nat} {past : List Event} (answered : Answered token past)
    (event : Event) : Answered token (event :: past) := by
  rcases answered with ⟨key, owner, time, granted⟩ | left | dropped
  · exact .inl ⟨key, owner, time, List.mem_cons_of_mem _ granted⟩
  · exact .inr (.inl (List.mem_cons_of_mem _ left))
  · exact .inr (.inr (List.mem_cons_of_mem _ dropped))

theorem Answered.append {token : Nat} {past : List Event} (answered : Answered token past)
    (new : List Event) : Answered token (new ++ past) := by
  induction new with
  | nil => exact answered
  | cons event rest ih => exact ih.cons event

/-- Tokens are given in order, and a place is granted only after every place queued before it on
its key was answered. -/
def Fair : List Event → Prop
  | [] => True
  | .queued _ _ token :: before =>
    (∀ key owner earlier, .queued key owner earlier ∈ before → earlier < token) ∧ Fair before
  | .granted key owner token _ :: before =>
    (.queued key owner token ∈ before ∧
      ∀ other earlier, .queued key other earlier ∈ before → earlier < token →
        Answered earlier before) ∧ Fair before
  | _ :: before => Fair before

theorem Fair.suffix {past : List Event} (after : List Event) (fair : Fair (after ++ past)) :
    Fair past := by
  induction after with
  | nil => exact fair
  | cons event rest ih =>
    refine ih ?_
    cases event with
    | queued key owner token => exact fair.2
    | granted key owner token time => exact fair.2
    | took key owner time => exact fair
    | left token => exact fair
    | dropped token => exact fair
    | released owner time => exact fair

/-- No lock is given to an owner within a lease of its release. -/
def Quiet (lease : Nat) : List Event → Prop
  | [] => True
  | .granted _ owner _ time :: before =>
    (∀ ended, .released owner ended ∈ before → ended + lease ≤ time) ∧ Quiet lease before
  | .took _ owner time :: before =>
    (∀ ended, .released owner ended ∈ before → ended + lease ≤ time) ∧ Quiet lease before
  | _ :: before => Quiet lease before

theorem Quiet.suffix {lease : Nat} {past : List Event} (after : List Event)
    (quiet : Quiet lease (after ++ past)) : Quiet lease past := by
  induction after with
  | nil => exact quiet
  | cons event rest ih =>
    refine ih ?_
    cases event with
    | queued key owner token => exact quiet
    | granted key owner token time => exact quiet.2
    | took key owner time => exact quiet.2
    | left token => exact quiet
    | dropped token => exact quiet
    | released owner time => exact quiet

namespace Table

/-! ### The invariant -/

/-- A key without a holder has no queue. -/
def Led (t : Table) : Prop :=
  ∀ key, (t.locks key).holder = none → (t.locks key).queue = []

def LedBut (t : Table) (but : String) : Prop :=
  ∀ key, key ≠ but → (t.locks key).holder = none → (t.locks key).queue = []

/-- `held` is the inverse of the locks' holders. -/
def Held (t : Table) : Prop :=
  ∀ key owner, key ∈ t.held owner ↔ (t.locks key).holder = some owner

/-- `held` in the middle of `release`: `owner` still holds `keys`, which its entry no longer lists. -/
def HeldBut (t : Table) (owner : String) (keys : List String) : Prop :=
  ∀ key other, (key ∈ t.held other ∨ (other = owner ∧ key ∈ keys)) ↔
    (t.locks key).holder = some other

theorem heldBut_nil (t : Table) (owner : String) : t.HeldBut owner [] ↔ t.Held := by
  simp [HeldBut, Held]

/-- Every queued place is its owner's one place, in the order of the tokens, and no owner waits for
a key it holds. -/
structure Queues (t : Table) : Prop where
  place : ∀ key, ∀ w ∈ (t.locks key).queue, t.waiting w.owner = some (key, w.token)
  apart : ∀ key, ∀ w ∈ (t.locks key).queue, (t.locks key).holder ≠ some w.owner
  ordered : ∀ key, (t.locks key).queue.Pairwise (·.token < ·.token)
  named : ∀ owner place, t.waiting owner = some place →
    .queued place.1 owner place.2 ∈ t.past
  once : ∀ key owner key' owner' token, .queued key owner token ∈ t.past →
    .queued key' owner' token ∈ t.past → key = key' ∧ owner = owner'
  numbered : ∀ key owner token, .queued key owner token ∈ t.past → 0 < token ∧ token ≤ t.tokens

/-- What the record says of the places and the refusals as they stand at `now`. -/
structure Recorded (t : Table) (now : Nat) : Prop where
  kept : ∀ key owner token, .queued key owner token ∈ t.past →
    Answered token t.past ∨ ⟨owner, token⟩ ∈ (t.locks key).queue
  heard : ∀ token ∈ t.gone, .dropped token ∈ t.past
  fair : Fair t.past
  quiet : Quiet t.lease t.past
  since : ∀ owner time, .released owner time ∈ t.past → time ≤ now
  refused : ∀ owner time, .released owner time ∈ t.past → now < time + t.lease →
    (∃ till, t.ended owner = some till ∧ time + t.lease ≤ till) ∧ t.waiting owner = none ∧
      ∀ key, (t.locks key).holder ≠ some owner

structure Sound (t : Table) (now : Nat) : Prop extends Queues t, Recorded t now

theorem Sound.later {t : Table} {now later : Nat} (sound : t.Sound now) (le : now ≤ later) :
    t.Sound later where
  toQueues := sound.toQueues
  kept := sound.kept
  heard := sound.heard
  fair := sound.fair
  quiet := sound.quiet
  since owner time released := Nat.le_trans (sound.since owner time released) le
  refused owner time released soon :=
    sound.refused owner time released (Nat.lt_of_le_of_lt le soon)

theorem Queues.congr {t u : Table} (queues : t.Queues) (locks : u.locks = t.locks)
    (waiting : u.waiting = t.waiting) (past : u.past = t.past) (tokens : u.tokens = t.tokens) :
    u.Queues where
  place := by rw [locks, waiting]; exact queues.place
  apart := by rw [locks]; exact queues.apart
  ordered := by rw [locks]; exact queues.ordered
  named := by rw [waiting, past]; exact queues.named
  once := by rw [past]; exact queues.once
  numbered := by rw [past, tokens]; exact queues.numbered

/-- Leases, gates and the order of the clock are no part of the invariant. -/
theorem Sound.congr {t u : Table} {now : Nat} (sound : t.Sound now) (locks : u.locks = t.locks)
    (waiting : u.waiting = t.waiting) (past : u.past = t.past) (tokens : u.tokens = t.tokens)
    (gone : u.gone = t.gone) (lease : u.lease = t.lease) (ended : u.ended = t.ended) :
    u.Sound now where
  toQueues := sound.toQueues.congr locks waiting past tokens
  kept := by rw [past, locks]; exact sound.kept
  heard := by rw [gone, past]; exact sound.heard
  fair := by rw [past]; exact sound.fair
  quiet := by rw [past, lease]; exact sound.quiet
  since := by rw [past]; exact sound.since
  refused := by rw [past, lease, ended, waiting, locks]; exact sound.refused

theorem Queues.alone {t : Table} (queues : t.Queues) {key key' : String} {w w' : Waiter}
    (inside : w ∈ (t.locks key).queue) (inside' : w' ∈ (t.locks key').queue)
    (same : w.owner = w'.owner) : key = key' ∧ w = w' := by
  have first := queues.place key w inside
  have second := queues.place key' w' inside'
  rw [same, second] at first
  simp only [Option.some.injEq, Prod.mk.injEq] at first
  exact ⟨first.1.symm, by cases w; cases w'; simp_all⟩

/-- Two owners never wait at one token. -/
theorem Queues.owner_eq {t : Table} (queues : t.Queues) {owner owner' : String}
    {place place' : String × Nat} (waits : t.waiting owner = some place)
    (waits' : t.waiting owner' = some place') (same : place.2 = place'.2) :
    owner = owner' ∧ place = place' := by
  have first := queues.named owner place waits
  have second := queues.named owner' place' waits'
  rw [same] at first
  have equal := queues.once _ _ _ _ _ first second
  exact ⟨equal.2, Prod.ext equal.1 same⟩

/-- The one argument behind `settle`, `cancel`, `unwait` and a direct grant: `key` gets a holder who
is not refused and a part of its queue, and the places that went were answered. -/
theorem Sound.relock {t u : Table} {now : Nat} (sound : t.Sound now) (key : String) (lock : Lock)
    (new : List Event)
    (locks : u.locks = Function.update t.locks key lock)
    (past : u.past = new ++ t.past)
    (plain : ∀ event ∈ new, (∀ key owner token, event ≠ .queued key owner token) ∧
      ∀ owner time, event ≠ .released owner time)
    (tokens : u.tokens = t.tokens) (lease : u.lease = t.lease) (ended : u.ended = t.ended)
    (heard : ∀ token ∈ u.gone, .dropped token ∈ u.past)
    (fair : Fair u.past) (quiet : Quiet t.lease u.past)
    (sub : lock.queue.Sublist (t.locks key).queue)
    (answered : ∀ w ∈ (t.locks key).queue, w ∈ lock.queue ∨ Answered w.token u.past)
    (apart : ∀ w ∈ lock.queue, lock.holder ≠ some w.owner)
    (holder : ∀ owner, lock.holder = some owner → (t.locks key).holder = some owner ∨
      ∀ time, .released owner time ∈ t.past → time + t.lease ≤ now)
    (fewer : ∀ owner place, u.waiting owner = some place → t.waiting owner = some place)
    (still : ∀ other, ∀ w ∈ (u.locks other).queue, u.waiting w.owner = t.waiting w.owner) :
    u.Sound now := by
  have queued : ∀ k owner token, .queued k owner token ∈ u.past ↔
      .queued k owner token ∈ t.past := by
    intro k owner token
    rw [past, List.mem_append]
    exact or_iff_right fun fresh => (plain _ fresh).1 k owner token rfl
  have released : ∀ owner time, .released owner time ∈ u.past ↔
      .released owner time ∈ t.past := by
    intro owner time
    rw [past, List.mem_append]
    exact or_iff_right fun fresh => (plain _ fresh).2 owner time rfl
  have old : ∀ k, ∀ w ∈ (u.locks k).queue, w ∈ (t.locks k).queue := by
    intro k w inside
    rw [locks, Function.update_apply] at inside
    split at inside
    · rename_i same
      exact same ▸ sub.subset inside
    · exact inside
  constructor
  · constructor
    · intro k w inside
      rw [still k w inside]
      exact sound.place k w (old k w inside)
    · intro k w inside
      rw [locks, Function.update_apply] at inside ⊢
      split at inside
      · rename_i same
        rw [if_pos same]
        exact apart w inside
      · rename_i other
        rw [if_neg other]
        exact sound.apart k w inside
    · intro k
      rw [locks, Function.update_apply]
      split
      · exact (sound.ordered key).sublist sub
      · exact sound.ordered k
    · intro owner place waits
      rw [queued]
      exact sound.named owner place (fewer owner place waits)
    · intro k owner k' owner' token
      rw [queued, queued]
      exact sound.once k owner k' owner' token
    · intro k owner token
      rw [queued, tokens]
      exact sound.numbered k owner token
  · constructor
    · intro k owner token inside
      rw [queued] at inside
      rcases sound.kept k owner token inside with done | waits
      · left
        rw [past]
        exact done.append new
      · by_cases same : k = key
        · subst same
          rcases answered _ waits with stays | done
          · right
            rw [locks, Function.update_self]
            exact stays
          · exact .inl done
        · right
          rw [locks, Function.update_of_ne same]
          exact waits
    · exact heard
    · exact fair
    · rw [lease]
      exact quiet
    · intro owner time
      rw [released]
      exact sound.since owner time
    · intro owner time inside soon
      rw [released] at inside
      rw [lease] at soon ⊢
      obtain ⟨refusal, idle, none⟩ := sound.refused owner time inside soon
      refine ⟨by rw [ended]; exact refusal, ?_, ?_⟩
      · cases waits : u.waiting owner with
        | none => rfl
        | some place =>
          have before := fewer owner place waits
          rw [idle] at before
          contradiction
      · intro k
        rw [locks, Function.update_apply]
        split
        · intro held
          rcases holder owner held with same | allowed
          · exact none key same
          · have := allowed time inside
            omega
        · exact none k

end Table

end Pondra.Locks
