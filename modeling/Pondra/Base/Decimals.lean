import Pondra.Base.Words

set_option autoImplicit false

/- Whole numbers as decimal text. -/
namespace Decimals

open Words

/-- A number's digits, the highest first. -/
def digits (n : Nat) : List Char := Nat.toDigits 10 n

/-- The number some digits write: at least one, and nothing else. -/
def natOf (text : List Char) : Option Nat :=
  if text ≠ [] ∧ text.all Char.isDigit then some (Nat.ofDigitChars 10 text 0) else none

/-- An i64 as it is printed. -/
def written (v : Int64) : List Char :=
  if v.toInt < 0 then '-' :: digits v.toInt.natAbs else digits v.toInt.natAbs

/-- A text's sign, and what follows it. -/
def signed : List Char → Bool × List Char
  | '-' :: rest => (true, rest)
  | '+' :: rest => (false, rest)
  | rest => (false, rest)

/-- The i64 a text is parsed as: a sign or none, then digits, in range. -/
def parseI64 (text : List Char) : Option Int64 :=
  (natOf (signed text).2).bind fun n => arith true (if (signed text).1 then -n else n)

theorem digits_ne_nil (n : Nat) : digits n ≠ [] := Nat.toDigits_ne_nil

theorem isDigit_digits {n : Nat} {c : Char} (inside : c ∈ digits n) : c.isDigit = true :=
  Nat.isDigit_of_mem_toDigits (by decide) (by decide) inside

theorem natOf_digits (n : Nat) : natOf (digits n) = some n := by
  unfold natOf
  rw [if_pos ⟨digits_ne_nil n, List.all_eq_true.mpr fun c inside => isDigit_digits inside⟩]
  exact congrArg some Nat.ofDigitChars_ten_toDigits

theorem signed_digits (n : Nat) : signed (digits n) = (false, digits n) := by
  cases is : digits n with
  | nil => exact (digits_ne_nil n is).elim
  | cons c rest =>
    have digit : c.isDigit = true := isDigit_digits (n := n) (is ▸ List.mem_cons_self)
    unfold signed
    split
    · next same =>
      cases same
      exact absurd digit (by decide)
    · next same =>
      cases same
      exact absurd digit (by decide)
    · rfl

theorem parseI64_written (v : Int64) : parseI64 (written v) = some v := by
  have fits := fits_toInt v
  unfold written
  by_cases negative : v.toInt < 0
  · have abs : -(v.toInt.natAbs : Int) = v.toInt := by omega
    rw [if_pos negative, parseI64]
    show (natOf (digits v.toInt.natAbs)).bind (fun n => arith true (-n)) = some v
    rw [natOf_digits, Option.bind_some, abs, fits.arith, Int64.ofInt_toInt]
  · have abs : (v.toInt.natAbs : Int) = v.toInt := by omega
    rw [if_neg negative, parseI64, signed_digits]
    show (natOf (digits v.toInt.natAbs)).bind (fun n => arith true n) = some v
    rw [natOf_digits, Option.bind_some, abs, fits.arith, Int64.ofInt_toInt]

end Decimals
