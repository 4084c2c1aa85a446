import Mathlib.Data.Finset.Basic
import Mathlib.Logic.Function.Basic
import Pondra.Base.Walk

set_option autoImplicit false

namespace Pondra.Locks

/-- A place in a lock's queue: its owner and the token that names it. The channel that grants it
is known by its token. -/
structure Waiter where
  owner : String
  token : Nat
  deriving DecidableEq

/-- Who holds a lock, and who waits for it, in order. -/
structure Lock where
  holder : Option String
  queue : List Waiter

/-- What happened to the places and the locks. No operation reads it: the claims about order and
time are about this record. -/
inductive Event
  | queued (key owner : String) (token : Nat)
  | granted (key owner : String) (token time : Nat)
  | took (key owner : String) (time : Nat)
  | left (token : Nat)
  | dropped (token : Nat)
  | released (owner : String) (time : Nat)
  deriving DecidableEq

/-- One lake's locks. A map is a function: of `locks`, `held`, `flying` and `closed` a key that is
absent has the default value (a free lock with no queue, no keys, no owners, no closer). `gone`
are the channels whose receiver was dropped. -/
structure Table where
  lease : Nat
  locks : String → Lock
  held : String → Finset String
  leases : String → Option Nat
  ended : String → Option Nat
  waiting : String → Option (String × Nat)
  flying : String → Finset String
  closed : String → Nat
  tokens : Nat
  swept : Nat
  gone : Finset Nat
  past : List Event

/-- The answer to asking for a lock. -/
inductive Ask
  | granted
  | deadlock
  | wait (token : Nat)
  | ended
  deriving DecidableEq

namespace Table

/-- `Table::new`. -/
def new (lease now : Nat) : Table where
  lease := lease
  locks _ := ⟨none, []⟩
  held _ := ∅
  leases _ := none
  ended _ := none
  waiting _ := none
  flying _ := ∅
  closed _ := 0
  tokens := 0
  swept := now
  gone := ∅
  past := []

def setLock (t : Table) (key : String) (lock : Lock) : Table :=
  { t with locks := Function.update t.locks key lock }

def log (t : Table) (event : Event) : Table :=
  { t with past := event :: t.past }

/-- Does `owner` have a lease that lasts? -/
def lasts (t : Table) (owner : String) (now : Nat) : Bool :=
  match t.leases owner with
  | some deadline => now < deadline
  | none => false

def isEnded (t : Table) (owner : String) (now : Nat) : Bool :=
  match t.ended owner with
  | some deadline => now < deadline
  | none => false

def holds (t : Table) (key owner : String) : Bool :=
  (t.locks key).holder = some owner

def renew (t : Table) (owner : String) (now : Nat) : Table :=
  if t.isEnded owner now then t
  else { t with leases := Function.update t.leases owner (some (now + t.lease)) }

/-- The first step of `settle`: a holder whose lease lapsed no longer has the key. -/
def lapse (t : Table) (key : String) (now : Nat) : Table :=
  match (t.locks key).holder with
  | none => t
  | some old =>
    if t.lasts old now then t
    else { t.setLock key { t.locks key with holder := none } with
      held := Function.update t.held old ((t.held old).erase key) }

/-- A waiter whose receiver still listens is given the key. -/
def hand (t : Table) (key : String) (w : Waiter) (rest : List Waiter) (now : Nat) : Table :=
  { t.setLock key ⟨some w.owner, rest⟩ with
    leases := Function.update t.leases w.owner (some (now + t.lease))
    held := Function.update t.held w.owner (insert key (t.held w.owner))
    waiting :=
      if (t.waiting w.owner).any (·.2 = w.token) then Function.update t.waiting w.owner none
      else t.waiting
    past := .granted key w.owner w.token now :: t.past }

/-- The loop of `settle` over the queue of a free key. -/
def handOver (t : Table) (key : String) (now : Nat) : List Waiter → Table
  | [] => t.setLock key ⟨none, []⟩
  | w :: rest => if w.token ∈ t.gone then t.handOver key now rest else t.hand key w rest now

/-- Gives `key` to its queue, in order, once its holder is gone. -/
def settle (t : Table) (key : String) (now : Nat) : Table :=
  let t := t.lapse key now
  if (t.locks key).holder.isSome then t else t.handOver key now (t.locks key).queue

def grant (t : Table) (owner key : String) (now : Nat) : Table :=
  { t.setLock key { t.locks key with holder := some owner } with
    held := Function.update t.held owner (insert key (t.held owner))
    leases := Function.update t.leases owner (some (now + t.lease))
    past := .took key owner now :: t.past }

/-- `lock.queue.retain(|w| w.token != token)` -/
def unqueue (t : Table) (key : String) (token : Nat) : Table :=
  t.setLock key { t.locks key with queue := (t.locks key).queue.filter (·.token ≠ token) }

/-- Gives up `owner`'s place in a queue, if it has one. -/
def unwait (t : Table) (owner : String) (now : Nat) : Table :=
  match t.waiting owner with
  | none => t
  | some (key, token) =>
    let t := { t with waiting := Function.update t.waiting owner none }
    ((t.unqueue key token).log (.left token)).settle key now

/-- Who `owner` would wait behind for `key`. -/
def ahead (t : Table) (key owner : String) (now : Nat) : List String :=
  let lock := t.locks key
  let holder := lock.holder.filter fun h => h ≠ owner && t.lasts h now
  holder.toList ++ (lock.queue.takeWhile (fun w => w.owner ≠ owner)).map (·.owner)

/-- The owners that an owner waits behind. -/
def behind (t : Table) (now : Nat) (owner : String) : List String :=
  match t.waiting owner with
  | some (key, _) => t.ahead key owner now
  | none => []

/-- More rounds than the walk of `loops` can take: each of the `tokens` places given so far is
walked once, past at most as many places and a holder. -/
def rounds (t : Table) (start : List String) : Nat :=
  start.length + t.tokens * (t.tokens + 1) + 1

/-- Does a wait by `owner` on `start` lead back to `owner`? -/
def loops (t : Table) (start : List String) (owner : String) (now : Nat) : Bool :=
  Walks.search (t.behind now) owner (t.rounds start) start.reverse ∅ = some true

/-- The end of `ask`: a new place at the back of the queue. -/
def enqueue (t : Table) (owner key : String) : Table :=
  let token := t.tokens + 1
  { t.setLock key { t.locks key with queue := (t.locks key).queue ++ [⟨owner, token⟩] } with
    tokens := token
    waiting := Function.update t.waiting owner (some (key, token))
    past := .queued key owner token :: t.past }

def ask (t : Table) (owner key : String) (now : Nat) : Table × Ask :=
  if t.isEnded owner now then (t, .ended)
  else
    let t := (t.renew owner now).settle key now
    if t.holds key owner then (t, .granted)
    else if (t.locks key).holder.isNone then (t.grant owner key now, .granted)
    else
      let t := t.unwait owner now
      if t.loops (t.ahead key owner now) owner now then (t, .deadlock)
      else (t.enqueue owner key, .wait (t.tokens + 1))

/-- The holder `owner` lets go of one key. -/
def letGo (t : Table) (owner key : String) (now : Nat) : Table :=
  let t := if (t.locks key).holder = some owner then
    t.setLock key { t.locks key with holder := none } else t
  t.settle key now

/-- `owner` has no lease, and takes no lock for the time of one. -/
def refuse (t : Table) (owner : String) (now : Nat) : Table :=
  { t with
    leases := Function.update t.leases owner none
    ended := Function.update t.ended owner (some (now + t.lease)) }

def leaveAll (t : Table) (owner : String) : Table :=
  { t with flying := fun table => (t.flying table).erase owner }

/-- `release`, taking the keys `owner` held in the order `keys`. -/
def release (t : Table) (owner : String) (keys : List String) (now : Nat) : Table :=
  let t := { t with held := Function.update t.held owner ∅ }
  let t := keys.foldl (fun t key => t.letGo owner key now) t
  (((t.refuse owner now).unwait owner now).log (.released owner now)).leaveAll owner

def enter (t : Table) (owner table : String) (now : Nat) : Table × Bool :=
  if owner ∉ t.flying table ∧ 0 < t.closed table then (t, false)
  else
    let t := t.renew owner now
    ({ t with flying := Function.update t.flying table (insert owner (t.flying table)) }, true)

def leave (t : Table) (owner table : String) : Table :=
  { t with flying := Function.update t.flying table ((t.flying table).erase owner) }

/-- Does an owner with a lease that lasts append to `table`? -/
def appending (t : Table) (table : String) (now : Nat) : Prop :=
  ∃ owner ∈ t.flying table, t.lasts owner now

instance (t : Table) (table : String) (now : Nat) : Decidable (t.appending table now) :=
  inferInstanceAs (Decidable (∃ owner ∈ t.flying table, t.lasts owner now = true))

def close (t : Table) (table : String) : Table :=
  { t with closed := Function.update t.closed table (t.closed table + 1) }

def open_ (t : Table) (table : String) : Table :=
  { t with closed := Function.update t.closed table (t.closed table - 1) }

/-- The place `token` names stops waiting for `key`. -/
def cancel (t : Table) (key : String) (token now : Nat) : Table :=
  let t := (t.unqueue key token).log (.left token)
  let t := { t with waiting := fun owner => (t.waiting owner).filter (·.2 ≠ token) }
  t.settle key now

/-- The leases and refusals that ran out go, and so do the appenders without a lease. -/
def expire (t : Table) (now : Nat) : Table :=
  let t := { t with
    leases := fun owner => if t.lasts owner now then t.leases owner else none
    ended := fun owner => if t.isEnded owner now then t.ended owner else none }
  { t with flying := fun table => (t.flying table).filter fun owner => (t.leases owner).isSome }

/-- Drops what has lapsed, settling the locks there are in the order `keys`. -/
def sweep (t : Table) (keys : List String) (now : Nat) : Table :=
  let t := keys.foldl (fun t key => t.settle key now) (t.expire now)
  let queued := keys.flatMap fun key => (t.locks key).queue.map (·.token)
  { t with
    waiting := fun owner => (t.waiting owner).filter (·.2 ∈ queued)
    swept := now }

/-- The receiver of a place's channel is dropped. -/
def drop (t : Table) (token : Nat) : Table :=
  { t.log (.dropped token) with gone := insert token t.gone }

/-- A waiter's look at its lock (`wait_for`): a lapsed holder gives way, and its own locks last. -/
def tick (t : Table) (owner key : String) (now : Nat) : Table :=
  (t.settle key now).renew owner now

end Table

end Pondra.Locks
