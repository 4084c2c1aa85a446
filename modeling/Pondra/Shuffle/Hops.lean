import Pondra.Base.Dict
import Pondra.Base.Machine
import Pondra.Shuffle.Filled

set_option autoImplicit false

namespace Pondra.Shuffle

open Bytes Framing Machines Dicts

variable {Row : Type}

/-! ### Buckets over the wire -/

/-- The pieces as bytes, each with its length before it. -/
def framed (arrow : Arrow Row) (disk : Disk) : List (Piece Row) → Except String (List UInt8)
  | [] => .ok []
  | piece :: pieces =>
    match piece.bytes arrow disk, framed arrow disk pieces with
    | .ok bytes, .ok rest => .ok (frame bytes ++ rest)
    | .error e, _ => .error e
    | _, .error e => .error e

/-- Buckets one after another, each after a frame of how many pieces it has. -/
def replyParts (arrow : Arrow Row) (disk : Disk) : List (Spill Row) → Except String (List UInt8)
  | [] => .ok []
  | spill :: spills =>
    match framed arrow disk spill.parts, replyParts arrow disk spills with
    | .ok bytes, .ok rest => .ok (frame (toLe 4 (spill.count % 2 ^ 32)) ++ bytes ++ rest)
    | .error e, _ => .error e
    | _, .error e => .error e

/-- A stage's reply as it goes on the wire: what its rows are of, how many buckets, the buckets. -/
def reply (arrow : Arrow Row) (disk : Disk) (shape : List UInt8) (parts : List (Spill Row)) :
    Except String (List UInt8) :=
  match replyParts arrow disk parts with
  | .error e => .error e
  | .ok body => .ok (frame shape ++ frame (toLe 4 (parts.length % 2 ^ 32)) ++ body)

/-- The bucket `p` of a reply read back. -/
def partKey (dir name : String) (p : Nat) : Key := (dir, name ++ "-" ++ Nat.repr p)

/-- `n` buckets read back, from the bucket `p` on. -/
def readParts (arrow : Arrow Row) (most : Nat) (room : Path → Bool) (dir name : String) :
    Nat → Nat → Frames → Disk → Except String (List (Spill Row)) × Disk
  | _, 0, _, disk => (.ok [], disk)
  | p, n + 1, frames, disk =>
    match frames.count with
    | .error e => (.error e, disk)
    | .ok (pieces, frames) =>
      match Spill.take arrow most room dir (partKey dir name p).2 frames pieces disk with
      | (.error e, disk) => (.error e, disk)
      | (.ok (spill, frames), disk) =>
        match readParts arrow most room dir name (p + 1) n frames disk with
        | (.error e, disk) => (.error e, disk)
        | (.ok spills, disk) => (.ok (spill :: spills), disk)

/-- A `reply` read back onto this node's disk, a piece at a time. -/
def readReply (arrow : Arrow Row) (most : Nat) (room : Path → Bool) (dir name : String)
    (frames : Frames) (disk : Disk) : Except String (List (Spill Row)) × Disk :=
  match frames.next with
  | .error e => (.error e, disk)
  | .ok (none, _) => (.error "an empty reply", disk)
  | .ok (some _, frames) =>
    match frames.count with
    | .error e => (.error e, disk)
    | .ok (n, frames) => readParts arrow most room dir name 0 n frames disk

/-! ### The buckets of nodes, step after step -/

/-- A bucket, and the rows put in it in the order they were. -/
structure Held (Row : Type) where
  spill : Spill Row
  put : List Row

/-- What was sent of a reply, what came of it, and what was refused. -/
structure Hop where
  sent : List UInt8
  came : List UInt8
  failed : Option String

structure State (Row : Type) where
  disk : Disk
  buckets : Dict Key (Held Row)
  used : List Key
  hops : List Hop

inductive Op (Row : Type) where
  | new (key : Key)
  | push (piece : Nat) (room : Path → Bool) (key : Key) (batch : Batch Row)
  | absorb (piece : Nat) (room : Path → Bool) (key other : Key)
  | hop (piece : Nat) (room : Path → Bool) (shape : List UInt8) (from_ : List Key)
      (dir name : String) (chunks : List (List UInt8))

def initial : State Row := { disk := [], buckets := ∅, used := [], hops := [] }

/-- The buckets a reply is made of. -/
def State.parts (s : State Row) (from_ : List Key) : List (Held Row) :=
  from_.filterMap s.buckets.lookup

/-- The places of the buckets it is read back into. -/
def intoKeys (dir name : String) (n : Nat) : List Key := (List.range n).map (partKey dir name)

def insertAll (buckets : Dict Key (Held Row)) (helds : List (Held Row)) : Dict Key (Held Row) :=
  helds.foldl (fun buckets held => buckets.insert held.spill.key held) buckets

/-- A bucket after an operation that worked on it: where it failed, the job drops the bucket. -/
def State.put (s : State Row) (key : Key) (rows : List Row)
    (result : Except String (Spill Row) × Disk) : State Row :=
  match result with
  | (.ok spill, disk) =>
    { s with disk := disk, buckets := s.buckets.insert key { spill := spill, put := rows } }
  | (.error _, disk) => { s with disk := disk, buckets := s.buckets.erase key }

def next (arrow : Arrow Row) (s : State Row) : Op Row → State Row
  | .new key =>
    { s with
      buckets := s.buckets.insert key { spill := Spill.new key.1 key.2, put := [] }
      used := key :: s.used }
  | .push piece room key batch =>
    match s.buckets.lookup key with
    | none => s
    | some held =>
      s.put key (held.put ++ batch.rows) (held.spill.push arrow piece room batch s.disk)
  | .absorb piece room key other =>
    match s.buckets.lookup key, s.buckets.lookup other with
    | some held, some held' =>
      { s with buckets := s.buckets.erase other }.put key (held.put ++ held'.put)
        (held.spill.absorb arrow piece room held'.spill s.disk)
    | _, _ => s
  | .hop piece room shape from_ dir name chunks =>
    match reply arrow s.disk shape ((s.parts from_).map Held.spill) with
    | .error _ => s
    | .ok sent =>
      match readReply arrow piece room dir name ⟨chunks, []⟩ s.disk with
      | (.error e, disk) =>
        { s with
          disk := disk
          used := intoKeys dir name (s.parts from_).length ++ s.used
          hops := ⟨sent, chunks.flatten, some e⟩ :: s.hops }
      | (.ok spills, disk) =>
        { disk := disk
          buckets := insertAll s.buckets
            (List.zipWith Held.mk spills ((s.parts from_).map Held.put))
          used := intoKeys dir name (s.parts from_).length ++ s.used
          hops := ⟨sent, chunks.flatten, none⟩ :: s.hops }

/-- A new bucket has a name of its own, and the chunks that come are what was sent, or its
beginning. -/
def Allows (arrow : Arrow Row) (s : State Row) : Op Row → Prop
  | .new key => key ∉ s.used
  | .push .. => True
  | .absorb _ _ key other => key ≠ other
  | .hop _ _ shape from_ dir name chunks =>
    (∀ key ∈ intoKeys dir name (s.parts from_).length, key ∉ s.used) ∧
      ∀ sent, reply arrow s.disk shape ((s.parts from_).map Held.spill) = .ok sent →
        chunks.flatten <+: sent

def machine (arrow : Arrow Row) : Machine (State Row) (Op Row) where
  next := next arrow
  Allows := Allows arrow

/-- A piece whose length 32 bits hold. -/
def Small (arrow : Arrow Row) (disk : Disk) (piece : Piece Row) : Prop :=
  ∀ bytes, piece.bytes arrow disk = .ok bytes → bytes.length < 2 ^ 32

/-- Every length and count that goes on the wire fits in 32 bits. -/
def Fits (arrow : Arrow Row) (s : State Row) : Op Row → Prop
  | .hop _ _ shape from_ _ _ _ =>
    shape.length < 2 ^ 32 ∧ (s.parts from_).length < 2 ^ 32 ∧
      ∀ held ∈ s.parts from_, held.spill.count < 2 ^ 32 ∧
        ∀ piece ∈ held.spill.parts, Small arrow s.disk piece
  | _ => True

section decisions

/-- What holds of a value, if there is one. -/
instance decidableOk {ε α : Type} (p : α → Prop) [DecidablePred p] :
    (x : Except ε α) → Decidable (∀ a, x = .ok a → p a)
  | .error _ => .isTrue fun _ failed => by cases failed
  | .ok a => decidable_of_iff (p a) ⟨fun held b same => by cases same; exact held,
      fun all => all a rfl⟩

instance decidableSmall (arrow : Arrow Row) (disk : Disk) (piece : Piece Row) :
    Decidable (Small arrow disk piece) :=
  inferInstanceAs (Decidable (∀ bytes, piece.bytes arrow disk = .ok bytes → bytes.length < 2 ^ 32))

instance decidableAllows (arrow : Arrow Row) (s : State Row) :
    (op : Op Row) → Decidable ((machine arrow).Allows s op)
  | .new key => inferInstanceAs (Decidable (key ∉ s.used))
  | .push .. => .isTrue trivial
  | .absorb _ _ key other => inferInstanceAs (Decidable (key ≠ other))
  | .hop _ _ shape from_ dir name chunks => inferInstanceAs (Decidable
      ((∀ key ∈ intoKeys dir name (s.parts from_).length, key ∉ s.used) ∧
        ∀ sent, reply arrow s.disk shape ((s.parts from_).map Held.spill) = .ok sent →
          chunks.flatten <+: sent))

instance decidableFits (arrow : Arrow Row) (s : State Row) :
    (op : Op Row) → Decidable (((machine arrow).only (Fits arrow)).Allows s op)
  | .new key => inferInstanceAs (Decidable ((machine arrow).Allows s (.new key) ∧ True))
  | .push piece room key batch =>
    inferInstanceAs (Decidable ((machine arrow).Allows s (.push piece room key batch) ∧ True))
  | .absorb piece room key other =>
    inferInstanceAs (Decidable ((machine arrow).Allows s (.absorb piece room key other) ∧ True))
  | .hop piece room shape from_ dir name chunks => inferInstanceAs (Decidable
      ((machine arrow).Allows s (.hop piece room shape from_ dir name chunks) ∧
        shape.length < 2 ^ 32 ∧ (s.parts from_).length < 2 ^ 32 ∧
          ∀ held ∈ s.parts from_, held.spill.count < 2 ^ 32 ∧
            ∀ piece ∈ held.spill.parts, Small arrow s.disk piece))

end decisions

/-- Rows move once and in order. -/
structure Moved (arrow : Arrow Row) (s : State Row) : Prop where
  rows : ∀ key held, s.buckets.lookup key = some held →
    chain arrow s.disk held.spill.parts = .ok held.put
  files : s.disk.paths.Nodup
  cut : ∀ hop ∈ s.hops, hop.came ≠ hop.sent → ∃ e, hop.failed = some e
  whole : ∀ hop ∈ s.hops, hop.came = hop.sent → ∀ e, hop.failed = some e → Refused arrow e

end Pondra.Shuffle
