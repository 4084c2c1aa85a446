import Mathlib.Algebra.Group.Nat.Defs
import Mathlib.Data.Nat.Bitwise
import Pondra.Base.Hex

set_option autoImplicit false

/-! Numbers of 64 bits written seven bits a byte. -/

namespace Varint

/-- `(v << 1) ^ (v >> 63)` of 64 bits. -/
def zigzag (v : Int) : Nat := if 0 ≤ v then (2 * v).toNat else (-2 * v - 1).toNat

/-- Seven bits a byte, the lowest first, marked where more follow. -/
def varint (z : Nat) : List UInt8 :=
  if 0x80 ≤ z then UInt8.ofNat ((z &&& 0x7f) ||| 0x80) :: varint (z >>> 7)
  else [UInt8.ofNat z]
termination_by z
decreasing_by
  rw [Nat.shiftRight_eq_div_pow]
  omega

/-- `(v >> 1) ^ -(v & 1)` of 64 bits. -/
def unzigzag (v : Nat) : Int := if v % 2 = 0 then (v / 2 : Nat) else -(v / 2 : Nat) - 1

theorem unzigzag_zigzag (v : Int) : unzigzag (zigzag v) = v := by
  rw [zigzag, unzigzag]
  split <;> split <;> omega

theorem zigzag_lt (v : Int) (low : -2 ^ 63 ≤ v) (high : v < 2 ^ 63) : zigzag v < 2 ^ 64 := by
  rw [zigzag]
  split <;> omega

theorem and_7f (n : Nat) : n &&& 0x7f = n % 128 := Nat.and_two_pow_sub_one_eq_mod n 7

theorem and_80 (c : UInt8) : c.toNat &&& 0x80 = 0 ↔ c.toNat < 128 := by
  revert c
  apply Hex.forall_byte
  decide +kernel

theorem varint_eq (z : Nat) : varint z =
    if 0x80 ≤ z then UInt8.ofNat (z % 128 + 128) :: varint (z / 128) else [UInt8.ofNat z] := by
  have high : z % 128 ||| 0x80 = z % 128 + 128 := by
    have sum : 2 ^ 7 * 1 + z % 128 = 2 ^ 7 * 1 ||| z % 128 :=
      Nat.two_pow_add_eq_or_of_lt (Nat.mod_lt z (by decide)) 1
    calc z % 128 ||| 0x80 = 2 ^ 7 * 1 ||| z % 128 := Nat.or_comm _ _
      _ = 2 ^ 7 * 1 + z % 128 := sum.symm
      _ = z % 128 + 128 := by omega
  rw [varint, and_7f, high, Nat.shiftRight_eq_div_pow]

/-- A byte for each seven bits. -/
theorem length_varint_le (k z : Nat) (small : z < 2 ^ (7 * (k + 1))) : (varint z).length ≤ k + 1 := by
  induction k generalizing z with
  | zero =>
    have one : z < 128 := by simpa using small
    rw [varint_eq, if_neg (by omega)]
    exact Nat.le_refl 1
  | succ k ih =>
    rw [varint_eq]
    split
    · rw [show 7 * (k + 1 + 1) = 7 * (k + 1) + 7 by omega, Nat.pow_add] at small
      have rest := ih (z / 128) ((Nat.div_lt_iff_lt_mul (by decide)).mpr small)
      rw [List.length_cons]
      omega
    · rw [List.length_singleton]
      omega

/-- Seven bits are added above the bits below a shift. -/
theorem add_bits (v d shift : Nat) (below : v < 2 ^ shift) (fits : v + d * 2 ^ shift < 2 ^ 64) :
    v ||| (d <<< shift) % 2 ^ 64 = v + d * 2 ^ shift := by
  rw [Nat.shiftLeft_eq, Nat.mod_eq_of_lt (by omega), Nat.or_comm, Nat.mul_comm,
    ← Nat.two_pow_add_eq_or_of_lt below, Nat.add_comm]

end Varint
