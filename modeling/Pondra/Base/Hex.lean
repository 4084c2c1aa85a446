import Mathlib.Data.Fintype.Basic

set_option autoImplicit false

/-! ### Bytes as hex digits -/

namespace Hex

/-- What holds of each of the 256 bytes holds of every byte. -/
theorem forall_byte {P : UInt8 → Prop} (each : ∀ n : Fin 256, P (UInt8.ofNat n)) (b : UInt8) : P b := by
  have all := each ⟨b.toNat, b.toNat_lt⟩
  rwa [UInt8.ofNat_toNat] at all

def digits : List Char := "0123456789abcdef".toList

def pair (b : UInt8) : List Char := [digits.getD (b >>> 4).toNat '0', digits.getD (b &&& 15).toNat '0']

/-- The hex digits of bytes, two a byte, in lower case. -/
def hex (bytes : List UInt8) : List Char := bytes.flatMap pair

/-- The value of a hex digit of either case. -/
def value (c : Char) : Option UInt8 :=
  if '0' ≤ c ∧ c ≤ '9' then some (c.toUInt8 - 48)
  else if 'a' ≤ c ∧ c ≤ 'f' then some (c.toUInt8 - 87)
  else if 'A' ≤ c ∧ c ≤ 'F' then some (c.toUInt8 - 55)
  else none

/-- A byte's digits give its halves, and its halves the byte. -/
theorem pair_spec (b : UInt8) : ∃ c d high low, pair b = [c, d] ∧ value c = some high ∧ value d = some low ∧
    high <<< 4 ||| low = b ∧ c ∈ digits ∧ d ∈ digits := by
  refine ⟨digits.getD (b >>> 4).toNat '0', digits.getD (b &&& 15).toNat '0', b >>> 4, b &&& 15, rfl, ?_⟩
  revert b
  apply forall_byte
  decide +kernel

end Hex
