import Pondra.Wire.Rd

set_option autoImplicit false

/-! ### Record batches (format v2) -/

namespace Pondra.Wire

open Bytes

/-! ### Written -/

/-- A record's key and value, each null or bytes. -/
abbrev Pair := Option (List UInt8) × Option (List UInt8)

/-- A number of so many bytes, the highest first. -/
def put (width : Nat) (v : Int) : List UInt8 := toBe width (v % 2 ^ (8 * width)).toNat

def putVarint (v : Int) : List UInt8 := Varint.varint (Varint.zigzag v)

def putField : Option (List UInt8) → List UInt8
  | none => putVarint (-1)
  | some f => putVarint f.length ++ f

/-- Attributes, the deltas of its timestamp and its offset, its fields, and no headers. -/
def putRecord (i : Nat) (pair : Pair) : List UInt8 :=
  [0] ++ putVarint 0 ++ putVarint i ++ putField pair.1 ++ putField pair.2 ++ putVarint 0

def bodyFrom : Nat → List Pair → List UInt8
  | _, [] => []
  | i, pair :: rest => putVarint (putRecord i pair).length ++ putRecord i pair ++ bodyFrom (i + 1) rest

def body (recs : List Pair) : List UInt8 := bodyFrom 0 recs

/-- From attributes on: what the CRC covers. -/
def tail (ts : Int) (recs : List Pair) : List UInt8 :=
  put 2 0 ++ put 4 (recs.length - 1) ++ put 8 ts ++ put 8 ts ++ put 8 (-1) ++ put 2 (-1) ++
    put 4 (-1) ++ put 4 recs.length ++ body recs

variable (crc32c : List UInt8 → UInt32)

/-- A record batch, uncompressed, of consecutive offsets from `base`. -/
def encodeBatch (base ts : Int) (recs : List Pair) : List UInt8 :=
  put 8 base ++ put 4 ((tail ts recs).length + 9) ++ put 4 0 ++ put 1 2 ++
    toBe 4 (crc32c (tail ts recs)).toNat ++ tail ts recs

/-! ### Read -/

/-- The most that batches may hold decompressed, all together. -/
def MOST : Nat := 256 <<< 20

/-- What a codec makes of bytes, or its error; `most` bounds what is read of it. -/
abbrev Codec := Nat → List UInt8 → Nat → Except String (List UInt8)

variable (inflate : Codec)

def decompress (codec : Nat) (data : List UInt8) (most : Nat) : Ends (List UInt8) :=
  match codec with
  | 0 => room data
  | 1 | 2 | 3 | 4 =>
    match inflate codec data most with
    | .ok out => room out
    | .error text => .error text
  | c => .error ("compression codec " ++ toString c)
where
  room (out : List UInt8) : Ends (List UInt8) :=
    if out.length ≤ most then .value out
    else .error ("record batches over " ++ toString (MOST >>> 20) ++ " MB decompressed")

/-- A batch's fields before its records. -/
structure Head where
  attributes : Int
  lastDelta : Int
  baseTs : Int
  maxTs : Int
  producerId : Int
  epoch : Int
  baseSeq : Int
  count : Int

def head : Reading Head := do
  let attributes ← Rd.i16
  let lastDelta ← Rd.i32
  let baseTs ← Rd.i64
  let maxTs ← Rd.i64
  let producerId ← Rd.i64
  let epoch ← Rd.i16
  let baseSeq ← Rd.i32
  let count ← Rd.i32
  pure ⟨attributes, lastDelta, baseTs, maxTs, producerId, epoch, baseSeq, count⟩

namespace Head

variable (h : Head)

def codec : Nat := (h.attributes % 8).toNat

def logAppend : Bool := h.attributes / 8 % 2 = 1

def transactional : Bool := h.attributes / 0x10 % 2 = 1

def control : Bool := h.attributes / 0x20 % 2 = 1

end Head

/-- A record as it is read: its deltas and its fields. -/
structure Entry where
  delta : Int
  place : Int
  key : Option (List UInt8)
  value : Option (List UInt8)

/-- A reading done so many times. -/
def times {α : Type} (f : Reading α) : Nat → Reading (List α)
  | 0 => pure []
  | n + 1 => do
    let first ← f
    let rest ← times f n
    pure (first :: rest)

/-- A header's key and value: not kept. -/
def header : Reading Unit := do
  let _ ← Rd.vbytes
  let _ ← Rd.vbytes
  pure ()

def entry : Reading Entry := do
  let _ ← Rd.varint
  let _ ← Rd.i8
  let delta ← Rd.varint
  let place ← Rd.varint
  let key ← Rd.vbytes
  let value ← Rd.vbytes
  let headers ← Rd.varint
  let _ ← times header headers.toNat
  pure ⟨delta, place, key, value⟩

/-- A batch's length, from its own: of 64 bits, without a check. -/
def lengthAt (b : List UInt8) : Nat :=
  ((signed 32 (ofBe ((b.drop 8).take 4)) % 2 ^ 64).toNat + 12) % 2 ^ 64

/-- A batch of format 2 whose CRC is right, from attributes on. -/
def opened (format : Nat → String) (mismatch : String) (batch : List UInt8) : Ends Rd :=
  match batch[16]? with
  | none => .panic
  | some magic =>
    if magic ≠ 2 then .error (format magic.toNat)
    else if batch.length < 21 then .panic
    else if ofBe ((batch.drop 17).take 4) = (crc32c (batch.drop 21)).toNat then
      .value ⟨batch.drop 21, 0⟩
    else .error mismatch

structure Rec where
  key : Option (List UInt8)
  value : Option (List UInt8)
  ts : Int

structure Batch where
  producerId : Int
  epoch : Int
  baseSeq : Int
  recs : List Rec

/-- A record of a batch, at its own time or at the time it is appended. -/
def Entry.rec_ (h : Head) (now : Int) (e : Entry) : Rec :=
  ⟨e.key, e.value, if h.logAppend then now else wrap64 (h.baseTs + e.delta)⟩

/-- A batch of a produce request, and what may still be decompressed after it. -/
def decodeBatch (now : Int) (left : Nat) (batch : List UInt8) : Ends (Batch × Nat) := do
  let r ← opened crc32c (fun v => "record batch format v" ++ toString v ++ " (only v2)")
    "record batch CRC mismatch" batch
  let (h, r) ← head r
  let body ← decompress inflate h.codec (r.b.drop r.at_) left
  let (recs, _) ← times entry h.count.toNat ⟨body, 0⟩
  pure (⟨h.producerId, h.epoch, h.baseSeq, recs.map (Entry.rec_ h now)⟩, left - body.length)

/-- With as many turns as there are bytes, the loop ends by its own condition. -/
def decodeBatchesFrom (now : Int) : Nat → Nat → List UInt8 → Ends (List Batch)
  | 0, _, _ => .value []
  | turns + 1, left, b =>
    if b.length < 61 then .value []
    else if 61 ≤ lengthAt b ∧ lengthAt b ≤ b.length then do
      let (batch, left) ← decodeBatch crc32c inflate now left (b.take (lengthAt b))
      let rest ← decodeBatchesFrom now turns left (b.drop (lengthAt b))
      pure (batch :: rest)
    else .error "truncated record batch"

def decodeBatches (now : Int) (b : List UInt8) : Ends (List Batch) :=
  decodeBatchesFrom crc32c inflate now b.length MOST b

/-! ### Read by the client -/

structure Record where
  offset : Int
  ts : Int
  key : Option (List UInt8)
  value : Option (List UInt8)

/-- The records so far, the offset after them, what may still be decompressed, the producers whose
transactions are being left out, and the starts of those to come. -/
structure Fetch where
  out : List Record
  next : Int
  left : Nat
  aborting : List Int
  starts : List (Int × Int)

def Entry.record (h : Head) (base : Int) (e : Entry) : Record :=
  ⟨wrap64 (base + e.place), if h.logAppend then h.baseTs else wrap64 (h.baseTs + e.delta), e.key, e.value⟩

namespace Fetch

/-- The transactions that start at an offset or before it. -/
def opening (base : Int) : List (Int × Int) → List Int → List (Int × Int) × List Int
  | [], aborting => ([], aborting)
  | s :: rest, aborting =>
    if s.2 ≤ base then opening base rest (s.1 :: aborting) else (s :: rest, aborting)

/-- A fetched batch's records; none where it comes first in the next fetch. -/
def batch (from_ : Int) (most : Nat) (f : Fetch) (batch : List UInt8) : Ends (Option Fetch) := do
  let r ← opened crc32c (fun v => "a record batch of format v" ++ toString v ++ " (v2 only)")
    "a record batch's CRC doesn't match" batch
  let base := signed 64 (ofBe (batch.take 8))
  let (h, r) ← head r
  let after := wrap64 (wrap64 (base + h.lastDelta) + 1)
  let (starts, aborting) := opening base f.starts f.aborting
  let f := { f with starts := starts, aborting := aborting }
  if h.control then
    pure (some { f with aborting := f.aborting.filter (· ≠ h.producerId), next := max f.next after })
  else if h.transactional ∧ h.producerId ∈ f.aborting then
    pure (some { f with next := max f.next after })
  else
    match decompress inflate h.codec (r.b.drop r.at_) f.left with
    | .error text => if f.left < most then pure none else .error text
    | .panic => .panic
    | .value body => do
      let (entries, _) ← times entry h.count.toNat ⟨body, 0⟩
      pure (some { f with
        out := f.out ++ (entries.map (Entry.record h base)).filter fun r => from_ ≤ r.offset
        next := max f.next after
        left := f.left - body.length })

def turns (from_ : Int) (most : Nat) : Nat → Fetch → List UInt8 → Ends Fetch
  | 0, f, _ => .value f
  | n + 1, f, b =>
    if b.length < 61 then .value f
    else if b.length < lengthAt b then .value f
    else do
      match ← f.batch crc32c inflate from_ most (b.take (lengthAt b)) with
      | none => .value f
      | some f => turns from_ most n f (b.drop (lengthAt b))

end Fetch

/-- A fetch's batches as records from an offset on, and the offset after the last whole batch. -/
def decode (b : List UInt8) (from_ : Int) (aborted : List (Int × Int)) (most : Nat) :
    Ends (List Record × Int) := do
  let starts := aborted.mergeSort fun a b => decide (a.2 ≤ b.2)
  let f ← Fetch.turns crc32c inflate from_ most b.length ⟨[], from_, most, [], starts⟩ b
  pure (f.out, f.next)

end Pondra.Wire
