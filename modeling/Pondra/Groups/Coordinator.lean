import Pondra.Base.Dict
import Pondra.Base.Machine
import Pondra.Groups.Group

set_option autoImplicit false

/-! ### The coordinator of every group, and their offsets -/

namespace Pondra.Groups

open Dicts Machines

def unknownTopic : Int := 3

/-- An `i64` operation's result, wrapped as a release build has it. -/
def wrap64 (x : Int) : Int := x.bmod (2 ^ 64)

/-- The producer whose progress is a group's offset in a topic. -/
def offsetsKey (group topic : String) : String := "kafka-group:" ++ group ++ ":" ++ topic

/-- A partition of a topic in an OffsetCommit. -/
structure Item where
  topic : String
  index : Int
  offset : Int
deriving DecidableEq

/-- An OffsetCommit that was checked, with what of it is still to be written. -/
structure Writing (ι : Type) where
  group : String
  generation : Int
  member : ι
  error : Nat
  rest : List Item
deriving DecidableEq

/-- An offset that a commit put into the log. -/
structure Taken where
  group : String
  topic : String
  offset : Int
deriving DecidableEq

inductive Reply (ι : Type)
  | committed (item : Item) (code : Int)
  | took (w : Writing ι) (item : Item)
  | fetched (group topic : String) (index offset : Int) (code : Nat)
  | listed (group : String) (topics : List String)
deriving DecidableEq

/-- The groups by name, the producers' progress, the commits being written, the offsets taken so
far, and what the last step answered. -/
structure Coordinator (ι : Type) where
  leads : Bool
  groups : String → Group ι
  marks : Dict String Nat
  writing : List (Writing ι)
  taken : List Taken
  out : List (Reply ι)

inductive Op (ι : Type)
  | group (name : String) (now : Nat) (request : Group.Ask ι)
  | commit (name : String) (generation : Int) (member : ι) (items : List Item)
  /-- The next of a commit's items: is the topic there, was the append written, was it answered. -/
  | write (k : Nat) (there wrote ok : Bool)
  | fetch (name topic : String) (index : Int)
  | list (name : String)

namespace Coordinator

variable {ι : Type} [LinearOrder ι] (s : Coordinator ι)

def start (leads : Bool) : Coordinator ι := ⟨leads, fun _ => .default, ∅, [], [], []⟩

/-- What a node that does not coordinate answers. -/
def refusal : Group.Ask ι → List (Answer ι)
  | .join _ _ => [.joined ⟨notCoordinator, 0, "", none, none, []⟩]
  | .sync generation member _ => [.synced generation member notCoordinator []]
  | .heartbeat _ _ => [.code notCoordinator]
  | .leave _ => [.code notCoordinator]
  | .tick _ => []

def request (name : String) (now : Nat) (request : Group.Ask ι) : Coordinator ι :=
  let g := (s.groups name).clear
  let g := if s.leads then g.ask now request else { g with out := refusal request }
  { s with groups := fun other => if other = name then g else s.groups other }

/-- OffsetCommit's check; a consumer outside any generation assigns partitions itself. -/
def commit (name : String) (generation : Int) (member : ι) (items : List Item) : Coordinator ι :=
  let error :=
    if !s.leads then notCoordinator
    else if generation < 0 then 0
    else (s.groups name).check member generation
  { s with writing := s.writing ++ [⟨name, generation, member, error, items⟩] }

/-- An empty append that only moves its producer's seq. -/
def append (producer : String) (seq : Nat) : Coordinator ι :=
  if (s.marks.lookup producer).any fun last => decide (seq ≤ last) then s
  else { s with marks := s.marks.insert producer seq }

def reply (r : Reply ι) : Coordinator ι := { s with out := s.out ++ [r] }

/-- One offset put into the log. -/
def take (w : Writing ι) (item : Item) : Coordinator ι :=
  let s := s.append (offsetsKey w.group item.topic) (item.offset.toNat + 1)
  { s with taken := ⟨w.group, item.topic, item.offset⟩ :: s.taken }.reply (.took w item)

/-- A commit's next item. -/
def write (k : Nat) (there wrote ok : Bool) : Coordinator ι :=
  match s.writing[k]? with
  | none => s
  | some w =>
    match w.rest with
    | [] => s
    | item :: rest =>
      let s := { s with writing := s.writing.set k { w with rest := rest } }
      if w.error ≠ 0 then s.reply (.committed item w.error)
      else if there ∧ item.index = 0 ∧ 0 ≤ item.offset then
        (if wrote then s.take w item else s).reply (.committed item (if ok then 0 else -1))
      else s.reply (.committed item unknownTopic)

/-- OffsetFetch, one partition of a topic. -/
def fetch (name topic : String) (index : Int) : Coordinator ι :=
  let committed := s.marks.lookup (offsetsKey name topic)
  let offset := (committed.filter fun _ => decide (index = 0)).elim (-1) fun seq =>
    wrap64 (wrap64 seq - 1)
  s.reply (.fetched name topic index offset (if s.leads then 0 else notCoordinator))

/-- The topics of an OffsetFetch that asks for all: the marks under the group's name. -/
def list (name : String) : Coordinator ι :=
  let start := (offsetsKey name "").toList
  s.reply (.listed name ((s.marks.keys.filter fun k => start.isPrefixOf k.toList).map fun k =>
    String.ofList (k.toList.drop start.length)))

def next : Op ι → Coordinator ι
  | .group name now request => { s with out := [] }.request name now request
  | .commit name generation member items => { s with out := [] }.commit name generation member items
  | .write k there wrote ok => { s with out := [] }.write k there wrote ok
  | .fetch name topic index => { s with out := [] }.fetch name topic index
  | .list name => { s with out := [] }.list name

/-- A timer is one that was started; an append answered was written; offsets are `i64`s. -/
def Allows : Op ι → Prop
  | .group name _ (.tick t) => t ∈ (s.groups name).timers
  | .commit _ _ _ items => ∀ item ∈ items, item.offset < 2 ^ 63
  | .write _ _ wrote ok => ok = true → wrote = true
  | _ => True

def coordinator : Machine (Coordinator ι) (Op ι) := ⟨next, Allows⟩

end Coordinator

end Pondra.Groups
