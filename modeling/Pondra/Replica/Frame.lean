import Pondra.Base.Bytes

set_option autoImplicit false

namespace Pondra.Replica

open Bytes

/-- One commit of the leader, as it is streamed and kept. -/
structure Delta where
  id : Nat
  puts : List (String × List UInt8)
  deletes : List String
  deriving DecidableEq

/-- What the leader streams to the other nodes, in order. -/
inductive Frame
  | start (term : Nat) (replicated : Bool)
  | change (d : Delta)
  | committed (id : Nat)
  | durable (id : Nat)
  deriving DecidableEq

def textBytes (text : String) : List UInt8 := text.toUTF8.data.toList

/-- A length and the bytes; `as u32` keeps the low 32 bits of the length. -/
def putField (bytes : List UInt8) : List UInt8 := toLe 4 bytes.length ++ bytes

def putPair (pair : String × List UInt8) : List UInt8 :=
  putField (textBytes pair.1) ++ putField pair.2

namespace Frame

/-- The kind and the body of a frame. -/
def body : Frame → List UInt8
  | start term replicated => 0 :: (toLe 8 term ++ [if replicated then 1 else 0])
  | change d =>
    1 :: (toLe 8 d.id ++ toLe 4 d.puts.length ++ d.puts.flatMap putPair ++
      toLe 4 d.deletes.length ++ d.deletes.flatMap (fun key => putField (textBytes key)))
  | committed id => 2 :: toLe 8 id
  | durable id => 3 :: toLe 8 id

/-- Wire format: u32 length, u8 kind, body. -/
def encode (frame : Frame) : List UInt8 := toLe 4 frame.body.length ++ frame.body

end Frame

/-! ### Reading -/

def next (n : Nat) (f : List UInt8) : Except String (List UInt8 × List UInt8) :=
  if n ≤ f.length then .ok (f.take n, f.drop n) else .error "truncated frame"

def u64 (f : List UInt8) : Except String (Nat × List UInt8) := do
  let (bytes, f) ← next 8 f
  .ok (ofLe bytes, f)

def count (f : List UInt8) : Except String (Nat × List UInt8) := do
  let (bytes, f) ← next 4 f
  .ok (ofLe bytes, f)

def field (f : List UInt8) : Except String (List UInt8 × List UInt8) := do
  let (n, f) ← count f
  next n f

/-- A field that is UTF-8. -/
def text (f : List UInt8) : Except String (String × List UInt8) := do
  let (bytes, f) ← field f
  match String.fromUTF8? ⟨bytes.toArray⟩ with
  | some text => .ok (text, f)
  | none => .error "invalid utf-8 sequence"

def pair (f : List UInt8) : Except String ((String × List UInt8) × List UInt8) := do
  let (key, f) ← text f
  let (value, f) ← field f
  .ok ((key, value), f)

namespace Frame

/-- The body of a frame; what is left of it is not looked at. -/
def decode (f : List UInt8) : Except String Frame := do
  let (kind, f) ← next 1 f
  match kind with
  | [0] => do
    let (term, f) ← u64 f
    let (flag, _) ← next 1 f
    .ok (.start term (flag = [1]))
  | [1] => do
    let (id, f) ← u64 f
    let (n, f) ← count f
    let (puts, f) ← readMany pair n f
    let (n, f) ← count f
    let (deletes, _) ← readMany text n f
    .ok (.change ⟨id, puts, deletes⟩)
  | [2] => do
    let (id, _) ← u64 f
    .ok (.committed id)
  | [3] => do
    let (id, _) ← u64 f
    .ok (.durable id)
  | kind :: _ => .error ("unknown frame kind " ++ toString kind.toNat)
  | [] => .error "truncated frame"

/-- One whole frame off the front of `buf`, if it has one. -/
def take (buf : List UInt8) : Except String (Option (Frame × List UInt8)) :=
  if buf.length < 4 ∨ buf.length < 4 + ofLe (buf.take 4) then .ok none
  else
    let n := ofLe (buf.take 4)
    (decode ((buf.drop 4).take n)).map fun frame => some (frame, buf.drop (4 + n))

end Frame

/-! ### Round trip -/

theorem next_append (bytes rest : List UInt8) :
    next bytes.length (bytes ++ rest) = .ok (bytes, rest) := by
  simp [next]

theorem u64_append (n : Nat) (fits : n < 2 ^ 64) (rest : List UInt8) :
    u64 (toLe 8 n ++ rest) = .ok (n, rest) := by
  have step := next_append (toLe 8 n) rest
  rw [length_toLe] at step
  simp only [u64, step, bind, Except.bind, ofLe_toLe 8 n (by omega)]

theorem count_append (n : Nat) (fits : n < 2 ^ 32) (rest : List UInt8) :
    count (toLe 4 n ++ rest) = .ok (n, rest) := by
  have step := next_append (toLe 4 n) rest
  rw [length_toLe] at step
  simp only [count, step, bind, Except.bind, ofLe_toLe 4 n (by omega)]

theorem field_append (bytes : List UInt8) (fits : bytes.length < 2 ^ 32) (rest : List UInt8) :
    field (putField bytes ++ rest) = .ok (bytes, rest) := by
  simp only [field, putField, List.append_assoc, count_append _ fits, bind, Except.bind, next_append]

theorem text_append (key : String) (fits : (textBytes key).length < 2 ^ 32) (rest : List UInt8) :
    text (putField (textBytes key) ++ rest) = .ok (key, rest) := by
  have back : String.fromUTF8? ⟨(textBytes key).toArray⟩ = some key := by
    simp only [textBytes, String.fromUTF8?]
    exact dif_pos key.isValidUTF8
  simp only [text, field_append _ fits, bind, Except.bind, back]

theorem pair_append (kv : String × List UInt8) (fits : (putPair kv).length < 2 ^ 32)
    (rest : List UInt8) : pair (putPair kv ++ rest) = .ok (kv, rest) := by
  have lengths : (putPair kv).length = (textBytes kv.1).length + kv.2.length + 8 := by
    simp only [putPair, putField, List.length_append, length_toLe]
    omega
  simp only [pair, putPair, List.append_assoc, text_append kv.1 (by omega), field_append kv.2 (by omega),
    bind, Except.bind]

/-- A change whose frame has a length that fits is read back as it was written. -/
theorem decode_change (d : Delta) (id : d.id < 2 ^ 64)
    (fits : (Frame.change d).body.length < 2 ^ 32) :
    Frame.decode (Frame.change d).body = .ok (.change d) := by
  have lengths : (Frame.change d).body.length = 17 + (d.puts.flatMap putPair).length +
      (d.deletes.flatMap fun key => putField (textBytes key)).length := by
    simp only [Frame.body, List.length_cons, List.length_append, length_toLe]
    omega
  have puts : d.puts.length < 2 ^ 32 := by
    have := count_le_flatMap putPair d.puts fun kv _ => by
      simp only [putPair, putField, List.length_append, length_toLe]
      omega
    omega
  have deletes : d.deletes.length < 2 ^ 32 := by
    have := count_le_flatMap (fun key => putField (textBytes key)) d.deletes
      fun key _ => by
        simp only [putField, List.length_append, length_toLe]
        omega
    omega
  have pairs := readMany_flatMap pair putPair d.puts fun kv inside =>
    pair_append kv (by have := length_le_flatMap putPair d.puts kv inside; omega)
  have keys := readMany_flatMap text (fun key => putField (textBytes key)) d.deletes
    fun key inside => text_append key (by
      have := length_le_flatMap (fun key => putField (textBytes key)) d.deletes key inside
      simp only [putField, List.length_append, length_toLe] at this lengths fits ⊢
      omega)
  have kind := next_append [1] (toLe 8 d.id ++ (toLe 4 d.puts.length ++ (d.puts.flatMap putPair ++
    (toLe 4 d.deletes.length ++ (d.deletes.flatMap (fun key => putField (textBytes key)) ++ [])))))
  have shape : (Frame.change d).body = [1] ++ (toLe 8 d.id ++ (toLe 4 d.puts.length ++
      (d.puts.flatMap putPair ++ (toLe 4 d.deletes.length ++
        (d.deletes.flatMap (fun key => putField (textBytes key)) ++ []))))) := by
    simp [Frame.body]
  rw [shape]
  simp only [Frame.decode, List.length_singleton] at kind ⊢
  simp only [kind, bind, Except.bind, u64_append d.id id, count_append _ puts, pairs,
    count_append _ deletes, keys]

theorem take_encode (d : Delta) (id : d.id < 2 ^ 64)
    (fits : (Frame.change d).body.length < 2 ^ 32) (rest : List UInt8) :
    Frame.take ((Frame.change d).encode ++ rest) = .ok (some (.change d, rest)) := by
  have length : ofLe (toLe 4 (Frame.change d).body.length) = (Frame.change d).body.length :=
    ofLe_toLe 4 _ (by omega)
  have head : ((Frame.change d).encode ++ rest).take 4 = toLe 4 (Frame.change d).body.length := by
    simp [Frame.encode]
  have tail : ((Frame.change d).encode ++ rest).drop 4 = (Frame.change d).body ++ rest := by
    simp [Frame.encode]
  have whole : ((Frame.change d).encode ++ rest).length =
      4 + (Frame.change d).body.length + rest.length := by
    simp [Frame.encode]
    omega
  unfold Frame.take
  rw [if_neg (by rw [head, length, whole]; omega)]
  simp only [head, length]
  rw [← List.drop_drop, tail, List.take_left, List.drop_left, decode_change d id fits]
  rfl

/-- A frame cut short is no frame yet. -/
theorem take_cut (d : Delta) (fits : (Frame.change d).body.length < 2 ^ 32) (k : Nat)
    (cut : k < (Frame.change d).encode.length) :
    Frame.take ((Frame.change d).encode.take k) = .ok none := by
  have length : ofLe (toLe 4 (Frame.change d).body.length) = (Frame.change d).body.length :=
    ofLe_toLe 4 _ (by omega)
  have whole : (Frame.change d).encode.length = 4 + (Frame.change d).body.length := by
    simp [Frame.encode]
  unfold Frame.take
  rw [if_pos]
  by_cases short : k < 4
  · left
    rw [List.length_take]
    omega
  · right
    have head : ((Frame.change d).encode.take k).take 4 = toLe 4 (Frame.change d).body.length := by
      rw [List.take_take, Nat.min_eq_left (by omega)]
      simp [Frame.encode]
    rw [head, length, List.length_take]
    omega

end Pondra.Replica
