import Mathlib.Data.Finset.Dedup
import Pondra.Base.Machine
import Pondra.Locks.Operations

set_option autoImplicit false

namespace Pondra.Locks

open Machines

/-- One operation on a lake's table, with the order in which it walks a hash map. `tick` is the
waiter's look (`wait_for`), which settles and renews under one hold of the mutex. -/
inductive Op
  | ask (owner key : String)
  | release (owner : String) (keys : List String)
  | cancel (key : String) (token : Nat)
  | renew (owner : String)
  | settle (key : String)
  | tick (owner key : String)
  | sweep (keys : List String)
  | enter (owner table : String)
  | leave (owner table : String)
  | close (table : String)
  | open_ (table : String)
  | drop (token : Nat)

def Op.apply (t : Table) (now : Nat) : Op → Table
  | .ask owner key => (t.ask owner key now).1
  | .release owner keys => t.release owner keys now
  | .cancel key token => t.cancel key token now
  | .renew owner => t.renew owner now
  | .settle key => t.settle key now
  | .tick owner key => t.tick owner key now
  | .sweep keys => t.sweep keys now
  | .enter owner table => (t.enter owner table now).1
  | .leave owner table => t.leave owner table
  | .close table => t.close table
  | .open_ table => t.open_ table
  | .drop token => t.drop token

/-- The orders name each key there is, and a place is cancelled under the key and the token that
`ask` answered (`take`, `Queued`). -/
def Op.Fits (t : Table) : Op → Prop
  | .release owner keys => keys.Nodup ∧ keys.toFinset = t.held owner
  | .sweep keys => ∀ key, t.locks key ≠ ⟨none, []⟩ → key ∈ keys
  | .cancel key token => ∃ owner, .queued key owner token ∈ t.past
  | .drop token => token ≤ t.tokens
  | _ => True

/-- A table and the time of its last operation. -/
structure Clocked where
  table : Table
  clock : Nat

def Clocked.new (lease start : Nat) : Clocked := ⟨.new lease start, start⟩

/-- Any operations on a table, at times that never go back. -/
def lakeLocks : Machine Clocked (Nat × Op) where
  next s input := ⟨input.2.apply s.table input.1, input.1⟩
  Allows s input := s.clock ≤ input.1 ∧ input.2.Fits s.table

theorem apply_valid (t : Table) (now : Nat) (op : Op) (fits : op.Fits t) (valid : t.Valid now) :
    (op.apply t now).Valid now := by
  cases op with
  | ask owner key => exact t.ask_valid owner key now valid
  | release owner keys =>
    refine t.release_valid owner keys now fits.1 ?_ valid
    intro key
    rw [← fits.2, List.mem_toFinset]
  | cancel key token =>
    obtain ⟨owner, queued⟩ := fits
    exact Table.settle_valid _ key now (t.forget_valid key owner token now valid queued)
  | renew owner => exact t.renew_valid owner now valid
  | settle key => exact t.settle_valid key now valid
  | tick owner key => exact Table.renew_valid _ owner now (t.settle_valid key now valid)
  | sweep keys =>
    refine t.sweep_valid keys now (fun key waits => fits key ?_) valid
    intro default
    rw [default] at waits
    exact waits rfl
  | enter owner table => exact t.enter_valid owner table now valid
  | leave owner table => exact valid.congr rfl rfl rfl rfl rfl rfl rfl rfl valid.span
  | close table => exact valid.congr rfl rfl rfl rfl rfl rfl rfl rfl valid.span
  | open_ table => exact valid.congr rfl rfl rfl rfl rfl rfl rfl rfl valid.span
  | drop token => exact t.drop_valid token now valid

theorem next_valid (s : Clocked) (input : Nat × Op) (valid : s.table.Valid s.clock)
    (allowed : lakeLocks.Allows s input) :
    (lakeLocks.next s input).table.Valid (lakeLocks.next s input).clock :=
  apply_valid s.table input.1 input.2 allowed.2 (valid.later allowed.1)

theorem run_valid (lease start : Nat) (inputs : List (Nat × Op))
    (legal : lakeLocks.Legal (.new lease start) inputs) :
    (lakeLocks.run (.new lease start) inputs).table.Valid
      (lakeLocks.run (.new lease start) inputs).clock :=
  lakeLocks.run_invariant (fun s => s.table.Valid s.clock) next_valid (.new lease start) inputs
    (Table.new_valid lease start) legal

theorem foldl_settle_lease (t : Table) (keys : List String) (now : Nat) :
    (keys.foldl (fun t key => t.settle key now) t).lease = t.lease := by
  induction keys generalizing t with
  | nil => rfl
  | cons key rest ih => exact (ih _).trans (t.settle_lease key now)

theorem foldl_letGo_lease (t : Table) (owner : String) (keys : List String) (now : Nat) :
    (keys.foldl (fun t key => t.letGo owner key now) t).lease = t.lease := by
  induction keys generalizing t with
  | nil => rfl
  | cons key rest ih =>
    refine (ih _).trans ?_
    change (Table.letGo t owner key now).lease = t.lease
    unfold Table.letGo
    rw [Table.settle_lease]
    split <;> rfl

theorem ask_lease (t : Table) (owner key : String) (now : Nat) :
    (t.ask owner key now).1.lease = t.lease := by
  have asked := t.ask_asked owner key now
  have settled : ((t.renew owner now).settle key now).lease = t.lease := by simp
  generalize (t.renew owner now).settle key now = s at asked settled
  generalize t.ask owner key now = answer at asked ⊢
  cases asked with
  | ended refused => rfl
  | held open_ mine => exact settled
  | took open_ free => exact settled
  | deadlock open_ holder held other loop => exact (s.unwait_lease owner now).trans settled
  | waits open_ holder held other clear => exact (s.unwait_lease owner now).trans settled

theorem apply_lease (t : Table) (now : Nat) (op : Op) : (op.apply t now).lease = t.lease := by
  cases op with
  | ask owner key => exact ask_lease t owner key now
  | release owner keys =>
    have loop := foldl_letGo_lease { t with held := Function.update t.held owner ∅ } owner keys now
    change ((Table.refuse _ owner now).unwait owner now).lease = t.lease
    rw [Table.unwait_lease]
    exact loop
  | cancel key token => exact (t.forget key token).settle_lease key now
  | renew owner => exact t.renew_lease owner now
  | settle key => exact t.settle_lease key now
  | tick owner key => exact (Table.renew_lease _ owner now).trans (t.settle_lease key now)
  | sweep keys => exact foldl_settle_lease (t.expire now) keys now
  | enter owner table =>
    change (t.enter owner table now).1.lease = t.lease
    unfold Table.enter
    split
    · rfl
    · exact t.renew_lease owner now
  | leave owner table => rfl
  | close table => rfl
  | open_ table => rfl
  | drop token => rfl

theorem run_lease (lease start : Nat) (inputs : List (Nat × Op)) :
    (lakeLocks.run (.new lease start) inputs).table.lease = lease := by
  have keeps : ∀ s : Clocked, (lakeLocks.run s inputs).table.lease = s.table.lease := by
    induction inputs with
    | nil => exact fun s => rfl
    | cons input rest ih => exact fun s => (ih _).trans (apply_lease s.table input.1 input.2)
  exact keeps (.new lease start)

/-! ### Mutual exclusion and order -/

theorem Fair.order {past after before : List Event} {key owner : String} {token time : Nat}
    (fair : Fair past) (record : past = after ++ .granted key owner token time :: before) :
    ∃ between first, before = between ++ .queued key owner token :: first ∧
      ∀ other earlier, .queued key other earlier ∈ first → Answered earlier before := by
  rw [record] at fair
  obtain ⟨⟨queued, answered⟩, rest⟩ := fair.suffix after
  obtain ⟨between, first, split⟩ := List.append_of_mem queued
  refine ⟨between, first, split, ?_⟩
  intro other earlier inside
  have within : .queued key other earlier ∈ before := by
    rw [split]
    exact List.mem_append_right _ (List.mem_cons_of_mem _ inside)
  refine answered other earlier within ?_
  rw [split] at rest
  exact (rest.suffix between).1 key other earlier inside

theorem Quiet.granted {lease : Nat} {past after before : List Event} {key owner : String}
    {token time ended : Nat} (quiet : Quiet lease past)
    (record : past = after ++ .granted key owner token time :: before)
    (released : .released owner ended ∈ before) : ended + lease ≤ time := by
  rw [record] at quiet
  exact (quiet.suffix after).1 ended released

theorem Quiet.took {lease : Nat} {past after before : List Event} {key owner : String}
    {time ended : Nat} (quiet : Quiet lease past)
    (record : past = after ++ .took key owner time :: before)
    (released : .released owner ended ∈ before) : ended + lease ≤ time := by
  rw [record] at quiet
  exact (quiet.suffix after).1 ended released

/-- An owner within a lease of its release is told so. -/
theorem Table.Valid.ask_ended {t : Table} {clock now ended : Nat} {owner : String}
    (valid : t.Valid clock) (key : String) (released : .released owner ended ∈ t.past)
    (later : clock ≤ now) (soon : now < ended + t.lease) : (t.ask owner key now).2 = .ended := by
  obtain ⟨⟨till, refusal, late⟩, _⟩ :=
    (valid.later later).sound.refused owner ended released soon
  have lasts : t.isEnded owner now = true := by
    simp only [Table.isEnded, refusal, decide_eq_true_eq]
    omega
  simp [Table.ask, lasts]

theorem Table.Valid.refused_holds_nothing {t : Table} {clock ended : Nat} {owner : String}
    (valid : t.Valid clock) (released : .released owner ended ∈ t.past)
    (soon : clock < ended + t.lease) : t.waiting owner = none ∧ t.held owner = ∅ := by
  obtain ⟨_, idle, none⟩ := valid.sound.refused owner ended released soon
  refine ⟨idle, Finset.eq_empty_of_forall_notMem ?_⟩
  intro key inside
  exact none key ((valid.held key owner).mp inside)

/-- In every run each lock has one holder and one queue that four maps agree on, its places are
granted in order, and an owner that let its locks go gets none for a lease's time. -/
theorem run_exclusive (lease start : Nat) (inputs : List (Nat × Op))
    (legal : lakeLocks.Legal (.new lease start) inputs) :
    let s := lakeLocks.run (.new lease start) inputs
    (∀ key owner, key ∈ s.table.held owner ↔ (s.table.locks key).holder = some owner) ∧
    (∀ key, ∀ w ∈ (s.table.locks key).queue, s.table.waiting w.owner = some (key, w.token)) ∧
    (∀ key key', ∀ w ∈ (s.table.locks key).queue, ∀ w' ∈ (s.table.locks key').queue,
      w.owner = w'.owner → key = key' ∧ w = w') ∧
    (∀ key, (s.table.locks key).queue.Nodup) ∧
    (∀ key, (s.table.locks key).queue ≠ [] → (s.table.locks key).holder ≠ none) ∧
    (∀ after before key owner token time,
      s.table.past = after ++ .granted key owner token time :: before →
      ∃ between first, before = between ++ .queued key owner token :: first ∧
        ∀ other earlier, .queued key other earlier ∈ first → Answered earlier before) ∧
    (∀ after before key owner token time ended,
      s.table.past = after ++ .granted key owner token time :: before →
      .released owner ended ∈ before → ended + lease ≤ time) ∧
    (∀ after before key owner time ended,
      s.table.past = after ++ .took key owner time :: before →
      .released owner ended ∈ before → ended + lease ≤ time) ∧
    (∀ owner ended, .released owner ended ∈ s.table.past →
      (s.clock < ended + lease → s.table.waiting owner = none ∧ s.table.held owner = ∅) ∧
      ∀ key now, s.clock ≤ now → now < ended + lease →
        (s.table.ask owner key now).2 = .ended) := by
  have valid := run_valid lease start inputs legal
  have same := run_lease lease start inputs
  generalize lakeLocks.run (.new lease start) inputs = s at valid same
  have sound := valid.sound
  have quiet : Quiet lease s.table.past := same ▸ sound.quiet
  refine ⟨valid.held, sound.place, ?_, ?_, ?_, ?_, ?_, ?_, ?_⟩
  · intro key key' w inside w' inside'
    exact sound.toQueues.alone inside inside'
  · intro key
    refine (sound.ordered key).imp ?_
    rintro a b less rfl
    exact Nat.lt_irrefl _ less
  · intro key waits free
    exact waits (valid.led key free)
  · intro after before key owner token time record
    exact sound.fair.order record
  · intro after before key owner token time ended record
    exact quiet.granted record
  · intro after before key owner time ended record
    exact quiet.took record
  · intro owner ended released
    refine ⟨fun soon => valid.refused_holds_nothing released (by rw [same]; exact soon), ?_⟩
    intro key now later soon
    exact valid.ask_ended key released later (by rw [same]; exact soon)

theorem run_exclusive_handover :
    let s := lakeLocks.run (.new 60 0)
      [(0, .ask "A" "x"), (1, .ask "B" "x"), (2, .release "A" ["x"])]
    (s.table.locks "x").holder = some "B" ∧ (s.table.ask "A" "x" 61).2 = .ended := by
  have legal : lakeLocks.Legal (.new 60 0)
      [(0, .ask "A" "x"), (1, .ask "B" "x"), (2, .release "A" ["x"])] :=
    ⟨⟨by decide, trivial⟩, ⟨by decide, trivial⟩, ⟨by decide, And.intro (by decide) (by decide)⟩,
      trivial⟩
  have exclusive := run_exclusive 60 0 _ legal
  refine ⟨by decide, ?_⟩
  exact (exclusive.2.2.2.2.2.2.2.2 "A" 2 (by decide)).2 "x" 61 (by decide) (by decide)

end Pondra.Locks
