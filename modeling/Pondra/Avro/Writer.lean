import Mathlib.Data.Nat.Bitwise
import Pondra.Avro.Json

set_option autoImplicit false

namespace Pondra.Avro

open Bytes Varint

/-! ### Numbers and bytes -/

def putLong (v : Int) : List UInt8 := varint (zigzag v)

/-- A length as a number of 64 bits. -/
def asLong (n : Nat) : Int := ((n : Int) + 2 ^ 63) % 2 ^ 64 - 2 ^ 63

def putBytes (v : List UInt8) : List UInt8 := putLong (asLong v.length) ++ v

/-- The byte of two hex digits (a plus may stand for the first). -/
def radix16 (c d : Char) : Outcome UInt8 :=
  match Hex.value d with
  | none => .error "invalid digit found in string"
  | some low =>
    if c = '+' then .ok low
    else
      match Hex.value c with
      | some high => .ok (high <<< 4 ||| low)
      | none => .error "invalid digit found in string"

def unhexChars : List Char → Outcome (List UInt8)
  | [] => .ok []
  | [_] => .error "odd hex"
  | c :: d :: rest => do
    let byte ← radix16 c d
    let others ← unhexChars rest
    .ok (byte :: others)

/-- Hex text back to bytes (a character that isn't ASCII is no digit). -/
def unhex (text : String) : Outcome (List UInt8) := unhexChars text.toList

/-! ### A value, by its schema -/

def Json.isString (v : Json) : Bool := v.str.isSome

def Json.isObject : Json → Bool
  | .object _ => true
  | _ => false

/-- A number as a long. -/
def Json.long : Json → Option Int
  | .int n => if -2 ^ 63 ≤ n ∧ n < 2 ^ 63 then some n else none
  | _ => none

/-- A number as a float's bits. -/
def Json.double (o : Outside) : Json → Option Nat
  | .int n => some (o.ofInt n)
  | .float bits => some bits
  | _ => none

/-- `context`: what is missing is an error. -/
def ofOption {α : Type} (text : String) : Option α → Outcome α
  | some a => .ok a
  | none => .error text

section fits

variable (names : Names)

/-- Does a value fit a named type? -/
def fitsName (n : String) (v : Json) : Bool :=
  match primitive n with
  | some .null => match v with
    | .null => true
    | _ => false
  | some .boolean => match v with
    | .bool _ => true
    | _ => false
  | some .int | some .long => v.long.isSome
  | some .float | some .double => match v with
    | .int _ | .float _ => true
    | _ => false
  | some .bytes | some .string => v.isString
  | none => (names.lookup n).any fun d =>
    match d.kind with
    | .record => v.isObject
    | .enum | .fixed => v.isString

/-- Does `v` fit type `t` (to choose a union's branch)? -/
def fits (t v : Json) : Bool :=
  match t with
  | .string n => fitsName names n v
  | .object entries =>
    match textAt entries "type" with
    | some t =>
      match complex t with
      | some .record | some .map => v.isObject
      | some .array => match v with
        | .array _ => true
        | _ => false
      | some .fixed | some .enum => v.isString
      | none => fitsName names t v
    | none => false
  | _ => false

end fits

/-- Pieces written one after another. -/
def putAll {α : Type} (write : α → Outcome (List UInt8)) : List α → Outcome (List UInt8)
  | [] => .ok []
  | x :: rest => do
    let first ← write x
    let others ← putAll write rest
    .ok (first ++ others)

/-- A block of items, unless there are none, and the block of none after it. -/
def putBlock {α : Type} (write : α → Outcome (List UInt8)) (all : List α) : Outcome (List UInt8) := do
  let body ← putAll write all
  .ok ((if all.isEmpty then [] else putLong (asLong all.length) ++ body) ++ putLong 0)

/-- A field's value: null where it is left out. -/
def given (v f : Json) : Json := v.field (((f.field "name").str).getD "")

def within (text : String) : Outcome (List UInt8) → Outcome (List UInt8)
  | .error inner => .error (text ++ ": " ++ inner)
  | other => other

section put

variable (o : Outside) (names : Names)

/-- One value, as `schema` says; a union takes the first branch the value fits. -/
def put : Nat → Json → Json → Outcome (List UInt8)
  | 0, _, _ => .endless
  | fuel + 1, .string t, v =>
    match primitive t with
    | some .null => match v with
      | .null => .ok []
      | _ => .error (o.print v ++ " for an Avro null")
    | some .boolean => match v with
      | .bool yes => .ok [if yes then 1 else 0]
      | _ => .error "a boolean"
    | some .int | some .long => do
      let n ← ofOption (o.print v ++ " for an Avro " ++ t) v.long
      .ok (putLong n)
    | some .float => do
      let x ← ofOption "a float" (v.double o)
      .ok (toLe 4 (o.narrow x))
    | some .double => do
      let x ← ofOption "a double" (v.double o)
      .ok (toLe 8 x)
    | some .bytes => do
      let text ← ofOption "bytes as hex" v.str
      let raw ← unhex text
      .ok (putBytes raw)
    | some .string => do
      let text ← ofOption (o.print v ++ " for an Avro string") v.str
      .ok (putBytes (utf8 text))
    | none =>
      match names.lookup t with
      | some d => put fuel (.object d.entries) v
      | none => .error ("an Avro type " ++ t ++ " never defined")
  | fuel + 1, .array branches, v =>
    match branches.findIdx? fun t => fits names t v with
    | some i => do
      let rest ← put fuel (branches.getD i .null) v
      .ok (putLong (asLong i) ++ rest)
    | none => .error (o.print v ++ " fits no branch of " ++ o.print (.array branches))
  | fuel + 1, .object entries, v =>
    match textAt entries "type" with
    | none => .error "an Avro type without a name"
    | some t =>
      match complex t with
      | some .record =>
        putAll (fun f => within ("field " ++ o.print (f.field "name"))
          (put fuel (f.field "type") (given v f))) (fields entries)
      | some .array => match v with
        | .array each => putBlock (fun v => do
          let item ← index entries "items"
          put fuel item v) each
        | _ => .error "an array"
      | some .map => match v with
        | .object each => putBlock (fun (entry : String × Json) => do
          let item ← index entries "values"
          let rest ← put fuel item entry.2
          .ok (putBytes (utf8 entry.1) ++ rest)) each
        | _ => .error "a map"
      | some .fixed => do
        let text ← ofOption "fixed as hex" v.str
        unhex text
      | some .enum => do
        let symbols ← index entries "symbols"
        let i ← ofOption "an enum symbol" (symbols.items.findIdx? fun symbol => symbol == v)
        .ok (putLong (asLong i))
      | none => put fuel (.string t) v
  | _ + 1, other, _ => .error ("an Avro type " ++ o.print other)

/-- An Avro object container file of `records`, written by `schema`, uncompressed, with the metadata
given. -/
def write (fuel : Nat) (sync : List UInt8) (schema : Json) (entries : List (String × String))
    (records : List Json) : Outcome (List UInt8) := do
  let body ← putAll (put o (named schema []) fuel schema) records
  let all := [("avro.schema", o.print schema), ("avro.codec", "null")] ++ entries
  .ok ([79, 98, 106, 1] ++ putLong (asLong all.length) ++
    all.flatMap (fun entry => putBytes (utf8 entry.1) ++ putBytes (utf8 entry.2)) ++ putLong 0 ++
    sync ++
    (if records.isEmpty then []
    else putLong (asLong records.length) ++ putLong (asLong body.length) ++ body ++ sync))

end put

/-! ### Bytes at a place -/

/-- Bytes lie at a place among others. -/
def Lies (b : List UInt8) (at_ : Nat) (piece : List UInt8) : Prop :=
  ∃ before after, b = before ++ (piece ++ after) ∧ before.length = at_

theorem Lies.append {b : List UInt8} {at_ : Nat} {p q : List UInt8} (lies : Lies b at_ (p ++ q)) :
    Lies b at_ p ∧ Lies b (at_ + p.length) q := by
  obtain ⟨before, after, rfl, rfl⟩ := lies
  constructor
  · exact ⟨before, q ++ after, by rw [List.append_assoc p], rfl⟩
  · exact ⟨before ++ p, after, by simp only [List.append_assoc], List.length_append⟩

theorem Lies.length {b : List UInt8} {at_ : Nat} {p : List UInt8} (lies : Lies b at_ p) :
    at_ + p.length ≤ b.length := by
  obtain ⟨before, after, rfl, rfl⟩ := lies
  rw [List.length_append, List.length_append]
  omega

theorem take_of {b : List UInt8} (held : b.length < 2 ^ 63) {at_ : Nat} {p : List UInt8}
    (lies : Lies b at_ p) : take b at_ p.length = .ok (p, at_ + p.length) := by
  have inside := lies.length
  obtain ⟨before, after, split_, place⟩ := lies
  rw [take, if_neg (by omega), slice_of b before p after at_ _ split_ place rfl]

/-! ### Numbers -/

/-- One byte of a number. -/
theorem longFrom_byte {b : List UInt8} (held : b.length < 2 ^ 63) (left v shift at_ : Nat)
    (c : UInt8) (below : v < 2 ^ shift) (fits : v + c.toNat % 128 * 2 ^ shift < 2 ^ 64)
    (lies : Lies b at_ [c]) :
    longFrom b left v shift at_ =
      if c.toNat < 128 then .ok (unzigzag (v + c.toNat % 128 * 2 ^ shift), at_ + 1)
      else
        match left with
        | 0 => .error "an Avro number too long"
        | left + 1 => longFrom b left (v + c.toNat % 128 * 2 ^ shift) (shift + 7) (at_ + 1) := by
  have took := take_of held lies
  rw [List.length_singleton] at took
  cases left with
  | zero =>
    rw [longFrom, took]
    simp only [bind_ok, List.headD_cons, and_7f, and_80, add_bits v _ shift below fits]
  | succ left =>
    rw [longFrom, took]
    simp only [bind_ok, List.headD_cons, and_7f, and_80, add_bits v _ shift below fits]

/-- A number's bytes, lowest seven bits first, are added above what is already read. -/
theorem longFrom_varint {b : List UInt8} (held : b.length < 2 ^ 63) (left v shift at_ z : Nat)
    (below : v < 2 ^ shift) (fits : v + z * 2 ^ shift < 2 ^ 64) (few : z < 2 ^ (7 * (left + 1)))
    (lies : Lies b at_ (varint z)) :
    longFrom b left v shift at_ =
      .ok (unzigzag (v + z * 2 ^ shift), at_ + (varint z).length) := by
  induction left generalizing v shift at_ z with
  | zero =>
    have small : z < 128 := by simpa using few
    have one : varint z = [UInt8.ofNat z] := by rw [varint_eq, if_neg (by omega)]
    have byte : (UInt8.ofNat z).toNat = z := by
      rw [UInt8.toNat_ofNat']
      omega
    rw [one] at lies ⊢
    rw [longFrom_byte held 0 v shift at_ _ below (by rwa [byte, Nat.mod_eq_of_lt small]) lies, byte,
      if_pos small, Nat.mod_eq_of_lt small, List.length_singleton]
  | succ left ih =>
    by_cases more : 0x80 ≤ z
    · have step : varint z = UInt8.ofNat (z % 128 + 128) :: varint (z / 128) := by
        rw [varint_eq, if_pos more]
      have byte : (UInt8.ofNat (z % 128 + 128)).toNat = z % 128 + 128 := by
        rw [UInt8.toNat_ofNat']
        omega
      have low : (z % 128 + 128) % 128 = z % 128 := by omega
      have whole : v + z % 128 * 2 ^ shift + z / 128 * 2 ^ (shift + 7) = v + z * 2 ^ shift := by
        have parts : z = z % 128 + z / 128 * 128 := by omega
        rw [Nat.pow_add, show (2 : Nat) ^ 7 = 128 from rfl]
        conv => rhs; rw [parts, Nat.add_mul]
        rw [Nat.mul_comm (2 ^ shift) 128, ← Nat.mul_assoc, Nat.add_assoc]
      have first : v + z % 128 * 2 ^ shift < 2 ^ (shift + 7) := by
        have most : z % 128 * 2 ^ shift ≤ 127 * 2 ^ shift :=
          Nat.mul_le_mul_right _ (by omega)
        rw [Nat.pow_add, show (2 : Nat) ^ 7 = 128 from rfl]
        omega
      rw [step, ← List.singleton_append] at lies
      obtain ⟨here, rest⟩ := lies.append
      rw [List.length_singleton] at rest
      have others := ih (v + z % 128 * 2 ^ shift) (shift + 7) (at_ + 1) (z / 128) first
        (by rwa [whole]) (by
          rw [Nat.div_lt_iff_lt_mul (by decide)]
          rw [show 7 * (left + 1 + 1) = 7 * (left + 1) + 7 by omega, Nat.pow_add] at few
          exact few) rest
      rw [longFrom_byte held (left + 1) v shift at_ _ below (by rw [byte, low]; omega) here, byte,
        if_neg (by omega), low]
      dsimp only
      rw [others, whole, step, List.length_cons]
      congr 2
      omega
    · have small : z < 128 := by omega
      have one : varint z = [UInt8.ofNat z] := by rw [varint_eq, if_neg more]
      have byte : (UInt8.ofNat z).toNat = z := by
        rw [UInt8.toNat_ofNat']
        omega
      rw [one] at lies ⊢
      rw [longFrom_byte held (left + 1) v shift at_ _ below (by rwa [byte, Nat.mod_eq_of_lt small])
        lies, byte, if_pos small, Nat.mod_eq_of_lt small, List.length_singleton]

/-- A number of 64 bits is read back. -/
theorem long_of {b : List UInt8} (held : b.length < 2 ^ 63) (v : Int) (low : -2 ^ 63 ≤ v)
    (high : v < 2 ^ 63) (at_ : Nat) (lies : Lies b at_ (putLong v)) :
    long b at_ = .ok (v, at_ + (putLong v).length) := by
  have small := zigzag_lt v low high
  rw [long, longFrom_varint held 9 0 0 at_ (zigzag v) (by decide) (by omega)
    (by omega) lies, Nat.pow_zero, Nat.mul_one, Nat.zero_add,
    unzigzag_zigzag, putLong]

theorem asLong_eq (n : Nat) (small : n < 2 ^ 63) : asLong n = n := by
  rw [asLong]
  omega

theorem asUsize_eq (n : Nat) (small : n < 2 ^ 63) : asUsize n = n := by
  rw [asUsize]
  omega

theorem count_of {b : List UInt8} (held : b.length < 2 ^ 63) (n : Nat) (small : n < 2 ^ 63)
    (at_ : Nat) (lies : Lies b at_ (putLong (asLong n))) :
    count b at_ = .ok (n, at_ + (putLong (asLong n)).length) := by
  have read := long_of held (asLong n) (by rw [asLong_eq n small]; omega)
    (by rw [asLong_eq n small]; omega) at_ lies
  rw [count, read, bind_ok]
  dsimp only
  rw [if_neg (by rw [asLong_eq n small]; omega), asLong_eq n small, Int.natAbs_natCast]

/-! ### Bytes and text -/

theorem bytes_of {b : List UInt8} (held : b.length < 2 ^ 63) (v : List UInt8) (at_ : Nat)
    (lies : Lies b at_ (putBytes v)) : bytes b at_ = .ok (v, at_ + (putBytes v).length) := by
  obtain ⟨size, rest⟩ := lies.append
  have small : v.length < 2 ^ 63 := by
    have := rest.length
    omega
  have read := long_of held (asLong v.length) (by rw [asLong_eq _ small]; omega)
    (by rw [asLong_eq _ small]; omega) at_ size
  rw [bytes, read, bind_ok]
  dsimp only
  rw [asLong_eq _ small, asUsize_eq _ small, ← asLong_eq _ small, take_of held rest, putBytes,
    List.length_append, Nat.add_assoc]

theorem fromUtf8_utf8 (text : String) : fromUtf8 (utf8 text) = .ok text := by
  have same : (⟨(utf8 text).toArray⟩ : ByteArray) = text.toByteArray := by
    rw [utf8, Array.toArray_toList]
  have back : String.fromUTF8? ⟨(utf8 text).toArray⟩ = some text := by
    rw [same, String.fromUTF8?, dif_pos text.isValidUTF8]
    rfl
  rw [fromUtf8, back]

theorem string_of {b : List UInt8} (held : b.length < 2 ^ 63) (text : String) (at_ : Nat)
    (lies : Lies b at_ (putBytes (utf8 text))) :
    string b at_ = .ok (text, at_ + (putBytes (utf8 text)).length) := by
  rw [string, bytes_of held _ at_ lies, bind_ok]
  dsimp only
  rw [fromUtf8_utf8, bind_ok]

/-! ### Hex -/

theorem unhexChars_hex (raw : List UInt8) : unhexChars (Hex.hex raw) = .ok raw := by
  induction raw with
  | nil => rfl
  | cons byte rest ih =>
    obtain ⟨c, d, high, low, digits, first, second, whole, inside, _⟩ := Hex.pair_spec byte
    have plus : c ≠ '+' := by
      intro same
      rw [same] at inside
      exact absurd inside (by decide)
    rw [Hex.hex] at ih
    rw [Hex.hex, List.flatMap_cons, digits]
    simp only [List.cons_append, List.nil_append, unhexChars, radix16, second, first, plus, if_false,
      bind_ok, ih, whole]

theorem unhex_hex (raw : List UInt8) : unhex (String.ofList (Hex.hex raw)) = .ok raw := by
  rw [unhex, String.toList_ofList, unhexChars_hex]

end Pondra.Avro
