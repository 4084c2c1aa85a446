import Mathlib.Algebra.Group.Nat.Defs
import Mathlib.Algebra.Order.Ring.Int
import Pondra.Base.Hex
import Pondra.Base.Slices
import Pondra.Base.Varint
set_option autoImplicit false

namespace Pondra.Avro

open Bytes Varint

/-! ### How a call ends -/

/-- A panic is an index or a sum out of its range (of a sum where the build checks sums); a call that
would recurse deeper than it is given is `endless`. -/
inductive Outcome (α : Type) where
  | ok (value : α)
  | error (text : String)
  | panic (text : String)
  | endless

def Outcome.bind {α β : Type} : Outcome α → (α → Outcome β) → Outcome β
  | .ok a, f => f a
  | .error text, _ => .error text
  | .panic text, _ => .panic text
  | .endless, _ => .endless

instance : Monad Outcome where
  pure := .ok
  bind := Outcome.bind

@[simp] theorem bind_ok {α β : Type} (a : α) (f : α → Outcome β) :
    (Outcome.ok a >>= f) = f a := rfl

/-! ### JSON -/

/-- A JSON value: an integer of 64 bits or a finite float by its bits; an object's entries are in the
order of their keys. -/
inductive Json where
  | null
  | bool (b : Bool)
  | int (n : Int)
  | float (bits : Nat)
  | string (text : String)
  | array (items : List Json)
  | object (entries : List (String × Json))

mutual

/-- JSON's equality, in which a float's zeros are one. -/
def Json.same : Json → Json → Bool
  | .null, .null => true
  | .bool a, .bool b => a == b
  | .int a, .int b => a == b
  | .float a, .float b => a == b || (a % 2 ^ 63 == 0 && b % 2 ^ 63 == 0)
  | .string a, .string b => a == b
  | .array a, .array b => sameItems a b
  | .object a, .object b => sameEntries a b
  | _, _ => false

def sameItems : List Json → List Json → Bool
  | [], [] => true
  | v :: rest, w :: others => v.same w && sameItems rest others
  | _, _ => false

def sameEntries : List (String × Json) → List (String × Json) → Bool
  | [], [] => true
  | (key, v) :: rest, (other, w) :: others => key == other && v.same w && sameEntries rest others
  | _, _ => false

end

instance : BEq Json := ⟨Json.same⟩

def Json.str : Json → Option String
  | .string text => some text
  | _ => none

/-- An array's items; of anything else none. -/
def Json.items : Json → List Json
  | .array items => items
  | _ => []

def Json.get (v : Json) (key : String) : Option Json :=
  match v with
  | .object entries => entries.lookup key
  | _ => none

/-- `v["key"]`: null where there is none. -/
def Json.field (v : Json) (key : String) : Json := (v.get key).getD .null

/-- `map["key"]`, which panics where there is none. -/
def index (entries : List (String × Json)) (key : String) : Outcome Json :=
  match entries.lookup key with
  | some v => .ok v
  | none => .panic "no entry found for key"

/-- An entry put in the order of the keys, over one of its key. -/
def insert (entries : List (String × Json)) (entry : String × Json) : List (String × Json) :=
  match entries with
  | [] => [entry]
  | first :: rest =>
    if entry.1 < first.1 then entry :: first :: rest
    else if entry.1 = first.1 then entry :: rest
    else first :: insert rest entry

/-- An object of entries that come one after another. -/
def objectOf (entries : List (String × Json)) : Json := .object (entries.foldl insert [])

/-! ### Types by name -/

inductive Primitive where
  | null
  | boolean
  | int
  | long
  | float
  | double
  | bytes
  | string

def primitive (t : String) : Option Primitive :=
  match t with
  | "null" => some .null
  | "boolean" => some .boolean
  | "int" => some .int
  | "long" => some .long
  | "float" => some .float
  | "double" => some .double
  | "bytes" => some .bytes
  | "string" => some .string
  | _ => none

inductive Complex where
  | record
  | enum
  | array
  | map
  | fixed

def complex (t : String) : Option Complex :=
  match t with
  | "record" => some .record
  | "enum" => some .enum
  | "array" => some .array
  | "map" => some .map
  | "fixed" => some .fixed
  | _ => none

inductive Kind where
  | record
  | enum
  | fixed

def Kind.text : Kind → String
  | .record => "record"
  | .enum => "enum"
  | .fixed => "fixed"

/-- A type that has a name: a record, an enum or a fixed. -/
structure Definition where
  entries : List (String × Json)
  kind : Kind
  type_ : entries.lookup "type" = some (.string kind.text)

abbrev Names := List (String × Definition)

/-- The text under a key. -/
def textAt (entries : List (String × Json)) (key : String) : Option String :=
  (entries.lookup key).bind Json.str

def definition (entries : List (String × Json)) : Option Definition :=
  match same : entries.lookup "type" with
  | some (.string "record") => some ⟨entries, .record, same⟩
  | some (.string "enum") => some ⟨entries, .enum, same⟩
  | some (.string "fixed") => some ⟨entries, .fixed, same⟩
  | _ => none

/-- An object's own name, and its full name where it has a namespace. -/
def define (entries : List (String × Json)) (names : Names) : Names :=
  match textAt entries "name", definition entries with
  | some n, some d =>
    match textAt entries "namespace" with
    | some ns => (ns ++ "." ++ n, d) :: (n, d) :: names
    | none => (n, d) :: names
  | _, _ => names

/-- A record's fields. -/
def fields (entries : List (String × Json)) : List Json :=
  ((entries.lookup "fields").map Json.items).getD []

theorem lookup_lt (entries : List (String × Json)) (key : String) (v : Json)
    (found : entries.lookup key = some v) : sizeOf v < sizeOf entries := by
  obtain ⟨before, after, rfl, _⟩ := List.lookup_eq_some_iff.mp found
  have entry : sizeOf (key, v) < sizeOf (before ++ (key, v) :: after) :=
    List.sizeOf_lt_of_mem (List.mem_append_right before List.mem_cons_self)
  simp only [Prod.mk.sizeOf_spec] at entry
  omega

theorem item_lt (v item : Json) (inside : item ∈ v.items) : sizeOf item < sizeOf v := by
  cases v with
  | array items =>
    have less := List.sizeOf_lt_of_mem inside
    simp only [Json.items, Json.array.sizeOf_spec] at less ⊢
    omega
  | _ => cases inside

theorem field_le (v : Json) (key : String) : sizeOf (v.field key) ≤ sizeOf v := by
  have least : ∀ w : Json, 1 ≤ sizeOf w := by
    intro w
    cases w <;> simp
  rw [Json.field]
  cases found : v.get key with
  | none => simpa using least v
  | some w =>
    cases v with
    | object entries =>
      have less := lookup_lt entries key w found
      simp only [Option.getD_some, Json.object.sizeOf_spec]
      omega
    | _ => cases found

theorem fields_lt (entries : List (String × Json)) (f : Json) (inside : f ∈ fields entries) :
    sizeOf f < sizeOf entries := by
  rw [fields] at inside
  cases found : entries.lookup "fields" with
  | none =>
    rw [found] at inside
    cases inside
  | some v =>
    rw [found] at inside
    exact Nat.lt_trans (item_lt v f inside) (lookup_lt entries "fields" v found)

/-- Every named type in a schema, by name (and full name). -/
def named : Json → Names → Names
  | .object o, names =>
    let names := define o names
    let names := (fields o).attach.foldl (fun names f => named (f.1.field "type") names) names
    ["items", "values", "type"].foldl (fun names key =>
      match _found : o.lookup key with
      | some v => if !v.str.isSome || o.lookup "type" != some v then named v names else names
      | none => names) names
  | .array a, names => a.attach.foldl (fun names v => named v.1 names) names
  | _, names => names
termination_by s => sizeOf s
decreasing_by
  · have less := fields_lt o f.1 f.2
    have most := field_le f.1 "type"
    simp only [Json.object.sizeOf_spec]
    omega
  · have less := lookup_lt o key v _found
    simp only [Json.object.sizeOf_spec]
    omega
  · have less := List.sizeOf_lt_of_mem v.2
    simp only [Json.array.sizeOf_spec]
    omega

/-- What is outside: JSON's text, the codecs, text of any bytes, and floats of 32 bits. -/
structure Outside where
  parse : List UInt8 → Except String Json
  print : Json → String
  lossy : List UInt8 → String
  inflate : List UInt8 → Except String (List UInt8)
  unsnap : List UInt8 → Except String (List UInt8)
  unzstd : List UInt8 → Except String (List UInt8)
  narrow : Nat → Nat
  widen : Nat → Nat
  ofInt : Int → Nat

/-- A text's bytes. -/
def utf8 (text : String) : List UInt8 := text.toByteArray.data.toList

def fromUtf8 (bytes : List UInt8) : Outcome String :=
  match String.fromUTF8? ⟨bytes.toArray⟩ with
  | some text => .ok text
  | none => .error "invalid utf-8 sequence"

def ofExcept {α : Type} : Except String α → Outcome α
  | .ok a => .ok a
  | .error text => .error text

/-! ### The reader -/

/-- `n` bytes at a place. -/
def take (b : List UInt8) (at_ n : Nat) : Outcome (List UInt8 × Nat) :=
  if 2 ^ 64 ≤ at_ + n then .panic "attempt to add with overflow"
  else
    match slice b at_ n with
    | some s => .ok (s, at_ + n)
    | none => .error "an Avro file cut short"

/-- A number's bytes from a shift on; `left` more may follow the next one (a shift is below 64). -/
def longFrom (b : List UInt8) : Nat → Nat → Nat → Nat → Outcome (Int × Nat)
  | left, v, shift, at_ => do
    let s ← take b at_ 1
    let byte := (s.1.headD 0).toNat
    let v := v ||| ((byte &&& 0x7f) <<< shift) % 2 ^ 64
    if byte &&& 0x80 = 0 then .ok (unzigzag v, s.2)
    else
      match left with
      | 0 => .error "an Avro number too long"
      | left + 1 => longFrom b left v (shift + 7) s.2

def long (b : List UInt8) (at_ : Nat) : Outcome (Int × Nat) := longFrom b 9 0 0 at_

/-- A number as a length or an index: a negative one is its two's complement. -/
def asUsize (n : Int) : Nat := (n % 2 ^ 64).toNat

/-- A block's count of items (a negative count is followed by the block's size). -/
def count (b : List UInt8) (at_ : Nat) : Outcome (Nat × Nat) := do
  let n ← long b at_
  if n.1 < 0 then do
    let size ← long b n.2
    .ok (n.1.natAbs, size.2)
  else .ok (n.1.natAbs, n.2)

def bytes (b : List UInt8) (at_ : Nat) : Outcome (List UInt8 × Nat) := do
  let n ← long b at_
  take b n.2 (asUsize n.1)

def string (b : List UInt8) (at_ : Nat) : Outcome (String × Nat) := do
  let s ← bytes b at_
  let text ← fromUtf8 s.1
  .ok (text, s.2)

/-! ### Items -/

section items

variable {α : Type}

/-- `n` items, one after another. -/
def items (read : Nat → Outcome (α × Nat)) : Nat → Nat → Outcome (List α × Nat)
  | 0, at_ => .ok ([], at_)
  | n + 1, at_ => do
    let first ← read at_
    let rest ← items read n first.2
    .ok (first.1 :: rest.1, rest.2)

/-- Blocks of items, up to one of none. -/
def blocks (b : List UInt8) (read : Nat → Outcome (α × Nat)) : Nat → Nat → Outcome (List α × Nat)
  | 0, _ => .endless
  | fuel + 1, at_ => do
    let n ← count b at_
    if n.1 = 0 then .ok ([], n.2)
    else do
      let first ← items read n.1 n.2
      let rest ← blocks b read fuel first.2
      .ok (first.1 ++ rest.1, rest.2)

end items

/-- A record's values by their fields' names. -/
def recordFields (read : Json → Nat → Outcome (Json × Nat)) :
    List Json → Nat → Outcome (List (String × Json) × Nat)
  | [], at_ => .ok ([], at_)
  | f :: rest, at_ => do
    let v ← read (f.field "type") at_
    let others ← recordFields read rest v.2
    .ok ((((f.field "name").str).getD "", v.1) :: others.1, others.2)

/-- A map's key and its value. -/
def pair (b : List UInt8) (read : Nat → Outcome (Json × Nat)) (at_ : Nat) :
    Outcome ((String × Json) × Nat) := do
  let k ← string b at_
  let v ← read k.2
  .ok ((k.1, v.1), v.2)

/-- Bytes as hex text. -/
def hexText (bytes : List UInt8) : Json := .string (String.ofList (Hex.hex bytes))

/-- A float as JSON has it: null where it isn't finite. -/
def number (bits : Nat) : Json := if bits / 2 ^ 52 % 2 ^ 11 = 2 ^ 11 - 1 then .null else .float bits

/-! ### A value, as its schema has it -/

section values

variable (o : Outside) (names : Names) (b : List UInt8)

/-- One value, with as many calls within calls as there is fuel. -/
def value : Nat → Json → Nat → Outcome (Json × Nat)
  | 0, _, _ => .endless
  | fuel + 1, .string t, at_ =>
    match primitive t with
    | some .null => .ok (.null, at_)
    | some .boolean => do
      let s ← take b at_ 1
      .ok (.bool (s.1.headD 0 != 0), s.2)
    | some .int | some .long => do
      let n ← long b at_
      .ok (.int n.1, n.2)
    | some .float => do
      let s ← take b at_ 4
      .ok (number (o.widen (ofLe s.1)), s.2)
    | some .double => do
      let s ← take b at_ 8
      .ok (number (ofLe s.1), s.2)
    | some .bytes => do
      let s ← bytes b at_
      .ok (hexText s.1, s.2)
    | some .string => do
      let s ← string b at_
      .ok (.string s.1, s.2)
    | none =>
      match names.lookup t with
      | some d => value fuel (.object d.entries) at_
      | none => .error ("an Avro type " ++ t ++ " never defined")
  | fuel + 1, .array branches, at_ => do
    let i ← long b at_
    match branches[asUsize i.1]? with
    | some branch => value fuel branch i.2
    | none => .error "an Avro union branch out of range"
  | fuel + 1, .object entries, at_ =>
    match textAt entries "type" with
    | none => .error "an Avro type without a name"
    | some t =>
      match complex t with
      | some .record => do
        let m ← recordFields (value fuel) (fields entries) at_
        .ok (objectOf m.1, m.2)
      | some .enum => do
        let i ← long b at_
        let symbols ← index entries "symbols"
        match symbols.items[asUsize i.1]? with
        | some symbol => .ok (symbol, i.2)
        | none => .error "an Avro enum out of range"
      | some .array => do
        let each ← blocks b (fun at_ => do
          let item ← index entries "items"
          value fuel item at_) fuel at_
        .ok (.array each.1, each.2)
      | some .map => do
        let each ← blocks b (pair b fun at_ => do
          let item ← index entries "values"
          value fuel item at_) fuel at_
        .ok (objectOf each.1, each.2)
      | some .fixed => do
        let size ← index entries "size"
        match size with
        | .int n =>
          if 0 ≤ n then do
            let s ← take b at_ n.toNat
            .ok (hexText s.1, s.2)
          else .error "a fixed without its size"
        | _ => .error "a fixed without its size"
      | none => value fuel (.string t) at_
  | _ + 1, other, _ => .error ("an Avro type " ++ o.print other)

end values

/-! ### A file -/

section files

variable (o : Outside)

/-- The pairs of a file's metadata. -/
def header (file : List UInt8) : Outcome (List (String × List UInt8) × Nat) :=
  blocks file (fun at_ => do
    let k ← string file at_
    let v ← bytes file k.2
    .ok ((k.1, v.1), v.2)) (file.length + 1) 4

/-- What a key was last given. -/
def lastOf (entries : List (String × List UInt8)) (key : String) : Option (List UInt8) :=
  entries.reverse.lookup key

/-- A block's bytes, by the file's codec. -/
def unpacked (codec : String) (raw : List UInt8) : Outcome (List UInt8) :=
  match codec with
  | "null" => .ok raw
  | "deflate" => ofExcept (o.inflate raw)
  | "snappy" => ofExcept (o.unsnap (raw.take (raw.length - 4)))
  | "zstandard" => ofExcept (o.unzstd raw)
  | c => .error ("Avro blocks compressed as " ++ c ++ " aren't read")

/-- The blocks of a file, up to its end. -/
def fileBlocks (file : List UInt8) (codec : String) (sync : List UInt8)
    (read : List UInt8 → Nat → Outcome (Json × Nat)) : Nat → Nat → Outcome (List Json)
  | 0, _ => .endless
  | fuel + 1, at_ =>
    if file.length ≤ at_ then .ok []
    else do
      let n ← long file at_
      let size ← long file n.2
      let raw ← take file size.2 (asUsize size.1)
      let block ← unpacked o codec raw.1
      let first ← items (read block) n.1.toNat 0
      let mark ← take file raw.2 16
      if mark.1 = sync then do
        let rest ← fileBlocks file codec sync read fuel mark.2
        .ok (first.1 ++ rest)
      else .error "an Avro file out of step (its sync marker)"

/-- The records of an Avro object container file. -/
def records (fuel : Nat) (file : List UInt8) : Outcome (List Json) :=
  if file.take 4 ≠ [79, 98, 106, 1] then .error "not an Avro file"
  else do
    let entries ← header file
    match lastOf entries.1 "avro.schema" with
    | none => .error "an Avro file without a schema"
    | some text => do
      let schema ← ofExcept (o.parse text)
      let codec := ((lastOf entries.1 "avro.codec").map o.lossy).getD "null"
      let sync ← take file entries.2 16
      fileBlocks o file codec sync.1
        (fun block => value o (named schema []) block fuel schema) (file.length + 1) sync.2

end files

end Pondra.Avro
