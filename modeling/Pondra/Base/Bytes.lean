import Mathlib.Algebra.Group.Nat.Defs
import Mathlib.Data.List.Basic
import Mathlib.Data.Nat.Basic

set_option autoImplicit false

namespace Bytes

/-- The `width` low bytes of a number, lowest first. -/
def toLe : Nat → Nat → List UInt8
  | 0, _ => []
  | width + 1, n => UInt8.ofNat (n % 256) :: toLe width (n / 256)

def ofLe : List UInt8 → Nat
  | [] => 0
  | byte :: rest => byte.toNat + 256 * ofLe rest

@[simp] theorem length_toLe (width n : Nat) : (toLe width n).length = width := by
  induction width generalizing n with
  | zero => rfl
  | succ width ih => simp only [toLe, List.length_cons, ih]

theorem ofLe_toLe_mod (width n : Nat) : ofLe (toLe width n) = n % 256 ^ width := by
  induction width generalizing n with
  | zero => simp [toLe, ofLe, Nat.mod_one]
  | succ width ih =>
    have byte : (UInt8.ofNat (n % 256)).toNat = n % 256 := by
      rw [UInt8.toNat_ofNat']
      exact Nat.mod_eq_of_lt (Nat.mod_lt n (by decide))
    rw [toLe, ofLe, ih, byte, Nat.pow_succ', Nat.mod_mul]

theorem ofLe_toLe (width n : Nat) (fits : n < 256 ^ width) : ofLe (toLe width n) = n := by
  rw [ofLe_toLe_mod, Nat.mod_eq_of_lt fits]

theorem toLe_ofLe (bytes : List UInt8) : toLe bytes.length (ofLe bytes) = bytes := by
  induction bytes with
  | nil => rfl
  | cons byte rest ih =>
    have low : (byte.toNat + 256 * ofLe rest) % 256 = byte.toNat := by
      have small := byte.toNat_lt
      omega
    have high : (byte.toNat + 256 * ofLe rest) / 256 = ofLe rest := by
      have small := byte.toNat_lt
      omega
    rw [List.length_cons, toLe, ofLe, low, high, ih, UInt8.ofNat_toNat]

theorem ofLe_lt (bytes : List UInt8) : ofLe bytes < 256 ^ bytes.length := by
  induction bytes with
  | nil => exact Nat.one_pos
  | cons byte rest ih =>
    have small := byte.toNat_lt
    rw [ofLe, List.length_cons, Nat.pow_succ]
    omega

/-! ### Highest byte first -/

/-- A number of bytes, the highest first. -/
def ofBe (bytes : List UInt8) : Nat := ofLe bytes.reverse

def toBe (width n : Nat) : List UInt8 := (toLe width n).reverse

theorem toBe_ofBe (bytes : List UInt8) (width : Nat) (length : bytes.length = width) :
    toBe width (ofBe bytes) = bytes := by
  rw [toBe, ofBe, ← length, ← List.length_reverse, toLe_ofLe, List.reverse_reverse]

@[simp] theorem length_toBe (width n : Nat) : (toBe width n).length = width := by
  rw [toBe, List.length_reverse, length_toLe]

theorem ofBe_toBe (width n : Nat) (fits : n < 256 ^ width) : ofBe (toBe width n) = n := by
  rw [ofBe, toBe, List.reverse_reverse, ofLe_toLe width n fits]

/-! ### Items one after another -/

section items

variable {α : Type} {ε : Type}

/-- `n` items read one after another. -/
def readMany (item : List UInt8 → Except ε (α × List UInt8)) :
    Nat → List UInt8 → Except ε (List α × List UInt8)
  | 0, bytes => .ok ([], bytes)
  | n + 1, bytes => do
    let (first, bytes) ← item bytes
    let (rest, bytes) ← readMany item n bytes
    .ok (first :: rest, bytes)

/-- Items that are each read back are read back in a row. -/
theorem readMany_flatMap (item : List UInt8 → Except ε (α × List UInt8)) (write : α → List UInt8)
    (items : List α) (back : ∀ x ∈ items, ∀ rest, item (write x ++ rest) = .ok (x, rest))
    (rest : List UInt8) :
    readMany item items.length (items.flatMap write ++ rest) = .ok (items, rest) := by
  induction items with
  | nil => rfl
  | cons x xs ih =>
    have head := back x List.mem_cons_self (xs.flatMap write ++ rest)
    have tail := ih fun y inside => back y (List.mem_cons_of_mem _ inside)
    simp only [List.length_cons, List.flatMap_cons, List.append_assoc, readMany, head, tail, bind,
      Except.bind]

theorem length_le_flatMap (write : α → List UInt8) (items : List α) (x : α) (inside : x ∈ items) :
    (write x).length ≤ (items.flatMap write).length := by
  obtain ⟨before, after, rfl⟩ := List.append_of_mem inside
  simp only [List.flatMap_append, List.flatMap_cons, List.length_append]
  omega

/-- Items that take room take at least as much as there are items. -/
theorem count_le_flatMap (write : α → List UInt8) (items : List α)
    (room : ∀ x ∈ items, 0 < (write x).length) : items.length ≤ (items.flatMap write).length := by
  induction items with
  | nil => exact Nat.le_refl _
  | cons x xs ih =>
    have head := room x List.mem_cons_self
    have tail := ih fun y inside => room y (List.mem_cons_of_mem _ inside)
    simp only [List.length_cons, List.flatMap_cons, List.length_append]
    omega

end items

end Bytes
