import Mathlib.Algebra.Group.Nat.Defs
import Mathlib.Algebra.Order.Ring.Int
import Mathlib.Data.List.Sort
import Mathlib.Order.Lattice

set_option autoImplicit false

/-! ### A consumer group, as its coordinator holds it -/

namespace Pondra.Groups

/-- A protocol's metadata, or an assignment. -/
abbrev Blob := List UInt8

/-- An `i32` operation's result, wrapped as a release build has it. -/
def wrap32 (x : Int) : Int := x.bmod (2 ^ 32)

def notCoordinator : Nat := 16
def illegalGeneration : Nat := 22
def unknownMemberId : Nat := 25
def rebalanceInProgress : Nat := 27

structure Member (ι : Type) where
  id : ι
  protocols : List (String × Blob)
  session : Nat
  seen : Nat
  joined : Bool
  assignment : Blob
deriving DecidableEq

/-- The answer to a JoinGroup. -/
structure Joined (ι : Type) where
  error : Nat
  generation : Int
  protocol : String
  leader : Option ι
  member : Option ι
  members : List (ι × Blob)
deriving DecidableEq

/-- A SyncGroup is answered with the generation and member it named. -/
inductive Answer (ι : Type)
  | joined (answer : Joined ι)
  | synced (generation : Int) (member : ι) (error : Nat) (assignment : Blob)
  | code (error : Nat)
deriving DecidableEq

/-- A rebalance's timer. -/
structure Timer where
  round : Nat
  start : Nat
  timeout : Nat
deriving DecidableEq

/-- A generation as it began: its members with the names of the protocols they know. -/
structure Made (ι : Type) where
  generation : Int
  protocol : String
  leader : ι
  members : List (ι × List String)

/-- What a generation's leader assigned a member in it. -/
structure Sent (ι : Type) where
  generation : Int
  leader : ι
  member : ι
  assignment : Blob

/-- A group, and past the source's own fields: the timers it started, what the last request or
timer answered, and its generations and what their leaders assigned, the newest first. A sync
that waits is known by the generation it asked in. -/
structure Group (ι : Type) where
  generation : Int
  protocol : String
  leader : Option ι
  members : List (Member ι)
  round : Nat
  joining : Bool
  synced : Bool
  joins : List ι
  syncs : List (ι × Int)
  timers : List Timer
  out : List (Answer ι)
  made : List (Made ι)
  sent : List (Sent ι)

structure JoinGroup (ι : Type) where
  session : Int
  /-- From version 1 on. -/
  rebalance : Option Int
  member : Option ι
  protocols : List (String × Blob)

def JoinGroup.sessionTimeout {ι : Type} (r : JoinGroup ι) : Nat := (max r.session 1000).toNat

def JoinGroup.rebalanceTimeout {ι : Type} (r : JoinGroup ι) : Nat :=
  r.rebalance.elim r.sessionTimeout fun ms => (max ms 1000).toNat

namespace Group

variable {ι : Type}

def default : Group ι := ⟨0, "", none, [], 0, false, false, [], [], [], [], [], []⟩

variable [LinearOrder ι] (g : Group ι)

def has (id : ι) : Bool := g.members.any fun m => decide (m.id = id)

def answer (a : Answer ι) : Group ι := { g with out := g.out ++ [a] }

/-- Everyone must join again. -/
def rebalance (timeout now : Nat) : Group ι :=
  if g.joining then g
  else { g with
    joining := true
    synced := false
    round := g.round + 1
    members := g.members.map fun m => { m with joined := false }
    timers := g.timers ++ [⟨g.round + 1, now, timeout⟩] }

/-- A protocol that every member named. -/
def common (p : String) : Bool := g.members.all fun m => m.protocols.any fun q => decide (q.1 = p)

/-- The first of the leader's that every member named. -/
def choose : String :=
  ((g.members.find? fun m => decide (some m.id = g.leader)).bind fun m =>
    (m.protocols.map (·.1)).find? g.common).getD ""

/-- A member's metadata for the protocol chosen. -/
def metadata (m : Member ι) : Blob :=
  ((m.protocols.find? fun q => decide (q.1 = g.protocol)).map (·.2)).getD []

def all : List (ι × Blob) := g.members.map fun m => (m.id, g.metadata m)

/-- The answer to a member that waited to join. -/
def welcome (member : ι) : Answer ι :=
  .joined ⟨0, g.generation, g.protocol, g.leader, some member,
    if some member = g.leader then g.all else []⟩

/-- The leader, if it is still there. -/
def elect (first : ι) : ι :=
  match g.leader with
  | some id => if g.has id then id else first
  | none => first

/-- A new generation of the members there are, of which one is `first`. -/
def begins (first : ι) : Group ι :=
  let leader := g.elect first
  let g := { g with leader := some leader, generation := wrap32 (g.generation + 1) }
  let g := { g with protocol := g.choose }
  { g with
    out := g.out ++ g.joins.map g.welcome
    joins := []
    made := ⟨g.generation, g.protocol, leader,
      g.members.map fun m => (m.id, m.protocols.map (·.1))⟩ :: g.made }

/-- The rebalance can end: every member joined, or it is `force`d. -/
def ends (force : Bool) : Bool := g.joining && (force || g.members.all (·.joined))

def complete (force : Bool) : Group ι :=
  if g.ends force then
    let g := { g with members := g.members.filter (·.joined), joining := false }
    match g.members with
    | [] => g
    | first :: _ => g.begins first.id
  else g

/-- Drop members; someone leaving means a new generation. -/
def drop (keep : Member ι → Bool) (now : Nat) : Group ι :=
  let kept := g.members.filter keep
  if kept.length < g.members.length ∧ kept ≠ [] then { g with members := kept }.rebalance 30000 now
  else { g with members := kept }

/-- Drop members silent past their session timeout. -/
def expire (now : Nat) : Group ι := g.drop (fun m => decide (now - m.seen < m.session)) now

/-- Is a member in this generation? (An error code if not.) -/
def check (member : ι) (generation : Int) : Nat :=
  if !g.has member then unknownMemberId
  else if generation ≠ g.generation then illegalGeneration
  else if g.joining then rebalanceInProgress
  else 0

/-- One member's entry changed. -/
def update (id : ι) (f : Member ι → Member ι) : Group ι :=
  { g with members := g.members.map fun m => if m.id = id then f m else m }

/-- A member was heard of. -/
def touch (id : ι) (now : Nat) : Group ι := g.update id fun m => { m with seen := now }

/-- A member joins, all but the end of the rebalance it starts or finds. -/
def enter (r : JoinGroup ι) (id : ι) (now : Nat) : Group ι :=
  let new : Member ι := ⟨id, [], r.sessionTimeout, now, false, []⟩
  let g := if g.has id then g
    else { g with members := g.members.orderedInsert (fun a b => a.id ≤ b.id) new }
  let g := g.update id fun m =>
    { m with protocols := r.protocols, session := r.sessionTimeout, seen := now }
  let g := (g.rebalance r.rebalanceTimeout now).update id fun m => { m with joined := true }
  { g with joins := g.joins ++ [id] }

/-- JoinGroup; a new member's id is `fresh`. -/
def join (r : JoinGroup ι) (fresh : ι) (now : Nat) : Group ι :=
  let g := g.expire now
  match r.member with
  | some id =>
    if g.has id then (g.enter r id now).complete false
    else g.answer (.joined ⟨unknownMemberId, 0, "", none, some id, []⟩)
  | none => (g.enter r fresh now).complete false

/-- A member's assignment, nothing if it is not there. -/
def held (id : ι) : Blob := ((g.members.find? fun m => decide (m.id = id)).map (·.assignment)).getD []

/-- The leader's assignments, of the members there are. -/
def assign (leader : ι) (assignments : List (ι × Blob)) : Group ι :=
  assignments.foldl (fun g a =>
    { g.update a.1 (fun m => { m with assignment := a.2 }) with
      sent := ⟨g.generation, leader, a.1, a.2⟩ :: g.sent }) g

/-- The syncs that waited for the assignments. -/
def answerSyncs : Group ι :=
  { g with out := g.out ++ g.syncs.map fun w => .synced w.2 w.1 0 (g.held w.1), syncs := [] }

/-- The leader's sync. -/
def lead (leader : ι) (assignments : List (ι × Blob)) : Group ι :=
  { g.assign leader assignments with synced := true }.answerSyncs

/-- SyncGroup. -/
def sync (generation : Int) (member : ι) (assignments : List (ι × Blob)) (now : Nat) : Group ι :=
  let error := g.check member generation
  if error ≠ 0 then g.answer (.synced generation member error [])
  else
    let g := g.touch member now
    let g := if some member = g.leader then g.lead member assignments else g
    if g.synced then g.answer (.synced generation member 0 (g.held member))
    else { g with syncs := g.syncs ++ [(member, generation)] }

def heartbeat (generation : Int) (member : ι) (now : Nat) : Group ι :=
  let g := (g.expire now).touch member now
  g.answer (.code (g.check member generation))

/-- LeaveGroup. -/
def leave (leaving : List ι) (now : Nat) : Group ι :=
  (g.drop (fun m => decide (m.id ∉ leaving)) now).answer (.code 0)

/-- The silent ones drop out of a rebalance. -/
def lapse (now : Nat) : Group ι :=
  { g with members := g.members.filter fun m => m.joined || decide (now - m.seen < m.session) }

/-- A timer wakes; it ends with its rebalance. -/
def tick (t : Timer) (now : Nat) : Group ι :=
  if g.round = t.round ∧ g.joining then (g.lapse now).complete (decide (t.timeout < now - t.start))
  else { g with timers := g.timers.erase t }

/-- A request to the group, or a timer of it. -/
inductive Ask (ι : Type)
  | join (r : JoinGroup ι) (fresh : ι)
  | sync (generation : Int) (member : ι) (assignments : List (ι × Blob))
  | heartbeat (generation : Int) (member : ι)
  | leave (leaving : List ι)
  | tick (t : Timer)

/-- The group as the next step finds it, its last answers gone. -/
def clear : Group ι := { g with out := [] }

def ask (now : Nat) (request : Ask ι) : Group ι :=
  match request with
  | .join r fresh => g.join r fresh now
  | .sync generation member assignments => g.sync generation member assignments now
  | .heartbeat generation member => g.heartbeat generation member now
  | .leave leaving => g.leave leaving now
  | .tick t => g.tick t now

end Group

end Pondra.Groups
