import Pondra.Base.Hex

set_option autoImplicit false

/-! ### bytea's text -/

namespace Pondra.Bytea

/-- Why a text isn't a bytea, with its SQLSTATE. -/
structure Bad where
  code : String
  message : String
  deriving DecidableEq

def invalid : Bad := ⟨"22P02", "invalid input syntax for type bytea"⟩

/-- A text's UTF-8 bytes. -/
def asBytes (text : List Char) : List UInt8 := text.flatMap String.utf8EncodeChar

def backslash : UInt8 := 92

/-! ### The escape form -/

/-- The byte of an escape `\ooo` at the start: a backslash and three octal digits, the first 0 to 3. -/
def octal (s : List UInt8) : Option UInt8 :=
  let digit (i : Nat) (most : UInt8) : Option UInt8 :=
    (s[i]?.filter fun c => decide (48 ≤ c) && decide (c ≤ 48 + most)).map fun c => c - 48
  (digit 1 3).bind fun a => (digit 2 7).bind fun b => (digit 3 7).map fun c => a * 64 + b * 8 + c

def unescapeBytes : List UInt8 → Except Bad (List UInt8)
  | [] => .ok []
  | c :: rest =>
    if c ≠ backslash then (unescapeBytes rest).map (c :: ·)
    else if rest[0]? = some backslash then (unescapeBytes (rest.drop 1)).map (backslash :: ·)
    else
      match octal (c :: rest) with
      | some byte => (unescapeBytes (rest.drop 3)).map (byte :: ·)
      | none => .error invalid
  termination_by bytes => bytes.length
  decreasing_by all_goals simp only [List.length_cons, List.length_drop]; omega

/-- The escape form alone. -/
def unescape (text : List Char) : Except Bad (List UInt8) := unescapeBytes (asBytes text)

/-- A byte as three octal digits. -/
def octalDigits (b : UInt8) : List Char := (Nat.toDigits 8 b.toNat).leftpad 3 '0'

def escapeByte (b : UInt8) : List Char :=
  if b = 0 ∨ 0x80 ≤ b then '\\' :: octalDigits b
  else if b = backslash then ['\\', '\\']
  else [Char.ofUInt8 b]

/-- A byte 0 and every byte from 0x80 up as `\ooo`, a backslash as two, and every other byte as itself. -/
def escape (bytes : List UInt8) : List Char := bytes.flatMap escapeByte

/-! ### The hex form -/

def digit (c : Char) : Except Bad UInt8 :=
  match Hex.value c with
  | some d => .ok d
  | none => .error ⟨"22023", "invalid hexadecimal digit: \"" ++ c.toString ++ "\""⟩

/-- The hex form's digits: a pair a byte, with whitespace allowed between pairs. -/
def unhex : List Char → Except Bad (List UInt8)
  | [] => .ok []
  | c :: rest =>
    if c ∈ [' ', '\t', '\n', '\r'] then unhex rest
    else
      (digit c).bind fun high =>
        match rest with
        | [] => .error ⟨"22023", "invalid hexadecimal data: odd number of digits"⟩
        | d :: rest => (digit d).bind fun low => (unhex rest).map ((high <<< 4 ||| low) :: ·)

/-- A bytea from its text: the hex form `\x…` or the escape form. -/
def parse : List Char → Except Bad (List UInt8)
  | '\\' :: 'x' :: hex => unhex hex
  | text => unescape text

/-- A bytea as it is written: `\x` and lower-case hex. -/
def text (bytes : List UInt8) : List Char := '\\' :: 'x' :: Hex.hex bytes

/-! ### Round trips -/

theorem unhex_pair (b : UInt8) (rest : List Char) : unhex (Hex.pair b ++ rest) = (unhex rest).map (b :: ·) := by
  obtain ⟨c, d, high, low, is, first, second, whole, inside, _⟩ := Hex.pair_spec b
  have solid : c ∉ [' ', '\t', '\n', '\r'] := by
    have apart : (Hex.digits.all fun c => c ∉ [' ', '\t', '\n', '\r']) = true := by decide +kernel
    exact of_decide_eq_true (List.all_eq_true.mp apart c inside)
  have left : digit c = .ok high := by rw [digit, first]
  have right : digit d = .ok low := by rw [digit, second]
  rw [is, List.cons_append, List.cons_append, List.nil_append, unhex, if_neg solid, left]
  simp only [Except.bind, right, whole]

theorem unhex_hex (bytes : List UInt8) : unhex (Hex.hex bytes) = .ok bytes := by
  induction bytes with
  | nil => rfl
  | cons b rest ih =>
    rw [Hex.hex, List.flatMap_cons, unhex_pair]
    exact congrArg (Except.map (b :: ·)) ih

theorem parse_text (bytes : List UInt8) : parse (text bytes) = .ok bytes := unhex_hex bytes

/-- An escaped byte is itself, two backslashes, or a backslash and three digits. -/
theorem escapeByte_cases (b : UInt8) :
    (asBytes (escapeByte b) = [b] ∧ b ≠ backslash) ∨
      (asBytes (escapeByte b) = [backslash, backslash] ∧ b = backslash) ∨
      ∃ x y z, asBytes (escapeByte b) = [backslash, x, y, z] ∧ x ≠ backslash ∧
        octal [backslash, x, y, z] = some b := by
  have each : ∀ b : UInt8, let e := asBytes (escapeByte b)
      (e = [b] ∧ b ≠ backslash) ∨ (e = [backslash, backslash] ∧ b = backslash) ∨
        e.length = 4 ∧ e[0]? = some backslash ∧ e[1]? ≠ some backslash ∧ octal e = some b := by
    apply Hex.forall_byte
    decide +kernel
  rcases each b with plain | two | ⟨long, first, second, reads⟩
  · exact .inl plain
  · exact .inr (.inl two)
  · obtain ⟨w, x, y, z, is⟩ := List.length_eq_four.mp long
    rw [is] at first second reads
    have slash : w = backslash := Option.some.inj first
    rw [slash] at is reads
    exact .inr (.inr ⟨x, y, z, is, fun same => second (congrArg some same), reads⟩)

theorem unescape_byte (b : UInt8) (rest : List UInt8) :
    unescapeBytes (asBytes (escapeByte b) ++ rest) = (unescapeBytes rest).map (b :: ·) := by
  rcases escapeByte_cases b with ⟨is, plain⟩ | ⟨is, rfl⟩ | ⟨x, y, z, is, other, reads⟩
  · rw [is, List.singleton_append, unescapeBytes, if_pos plain]
  · rw [is, List.cons_append, unescapeBytes, if_neg (not_not_intro rfl)]
    rfl
  · have next : ([x, y, z] ++ rest)[0]? ≠ some backslash := fun same => other (Option.some.inj same)
    have here : octal (backslash :: ([x, y, z] ++ rest)) = some b := reads
    rw [is, List.cons_append, unescapeBytes, if_neg (not_not_intro rfl), if_neg next, here]
    rfl

theorem unescape_escape (bytes : List UInt8) : unescape (escape bytes) = .ok bytes := by
  rw [unescape]
  induction bytes with
  | nil =>
    rw [escape, List.flatMap_nil, asBytes, List.flatMap_nil, unescapeBytes]
  | cons b rest ih =>
    have split : asBytes (escape (b :: rest)) = asBytes (escapeByte b) ++ asBytes (escape rest) := by
      rw [escape, List.flatMap_cons, asBytes, List.flatMap_append]
      rfl
    rw [split, unescape_byte, ih]
    rfl

/-- A backslash before x is no escape. -/
theorem unescape_hex (rest : List Char) : unescape ('\\' :: 'x' :: rest) = .error invalid := by
  have slash : String.utf8EncodeChar '\\' = [backslash] := by decide
  have letter : String.utf8EncodeChar 'x' = [120] := by decide
  rw [unescape, asBytes, List.flatMap_cons, List.flatMap_cons, slash, letter, List.singleton_append,
    List.singleton_append, unescapeBytes, if_neg (not_not_intro rfl)]
  have next : (120 :: rest.flatMap String.utf8EncodeChar)[0]? ≠ some backslash := by
    rw [List.getElem?_cons_zero]
    decide
  rw [if_neg next]
  rfl

/-- No escape form begins with the hex form's prefix. -/
theorem escape_apart (bytes : List UInt8) (rest : List Char) : escape bytes ≠ '\\' :: 'x' :: rest := by
  intro same
  have reads := unescape_escape bytes
  rw [same, unescape_hex] at reads
  cases reads

theorem parse_escape (bytes : List UInt8) : parse (escape bytes) = .ok bytes := by
  rw [parse]
  · exact unescape_escape bytes
  · exact fun rest same => escape_apart bytes rest same

/-- bytea's text forms round-trip, and are never confused. -/
theorem forms_roundTrip :
    (∀ b, parse (text b) = .ok b ∧ unescape (escape b) = .ok b ∧ parse (escape b) = .ok b) ∧
      (∀ t b, parse t = .ok b → parse (text b) = parse t) ∧
      (∀ b rest, escape b ≠ '\\' :: 'x' :: rest) ∧
      ∀ rest, unescape ('\\' :: 'x' :: rest) = .error invalid := by
  refine ⟨fun b => ⟨parse_text b, unescape_escape b, parse_escape b⟩, fun t b is => ?_, escape_apart, unescape_hex⟩
  rw [is, parse_text]

theorem forms_upper : parse (text [0x5c, 0xff]) = parse ['\\', 'x', '5', 'C', ' ', 'F', 'f'] :=
  forms_roundTrip.2.1 ['\\', 'x', '5', 'C', ' ', 'F', 'f'] [0x5c, 0xff] (by rfl)

end Pondra.Bytea
