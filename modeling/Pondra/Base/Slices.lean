import Pondra.Base.Bytes

set_option autoImplicit false

namespace Bytes

/-! ### Bytes at a place -/

/-- `n` bytes at a place, if they are all there. -/
def slice (bytes : List UInt8) (at_ n : Nat) : Option (List UInt8) :=
  if at_ + n ≤ bytes.length then some ((bytes.drop at_).take n) else none

/-- A number at a place, lowest byte first. -/
def leAt (width : Nat) (bytes : List UInt8) (at_ : Nat) : Option Nat :=
  (slice bytes at_ width).map ofLe

theorem slice_of (bytes before piece after : List UInt8) (at_ n : Nat)
    (split_ : bytes = before ++ (piece ++ after)) (place : before.length = at_)
    (length : piece.length = n) : slice bytes at_ n = some piece := by
  subst split_
  subst place
  subst length
  rw [slice, if_pos (by rw [List.length_append, List.length_append]; omega), List.drop_left,
    List.take_left]

theorem leAt_of (bytes before after : List UInt8) (width at_ n : Nat)
    (split_ : bytes = before ++ (toLe width n ++ after)) (place : before.length = at_)
    (fits : n < 256 ^ width) : leAt width bytes at_ = some n := by
  rw [leAt, slice_of bytes before _ after at_ width split_ place (length_toLe width n),
    Option.map_some, ofLe_toLe width n fits]

section items

variable {α : Type}

/-- An item of one width among others. -/
theorem flatMap_at (write : α → List UInt8) (width : Nat)
    (wide : ∀ x, (write x).length = width) (items : List α) (i : Nat) (x : α)
    (here : items[i]? = some x) :
    ∃ before after, items.flatMap write = before ++ (write x ++ after) ∧
      before.length = width * i := by
  induction items generalizing i with
  | nil => cases here
  | cons y ys ih =>
    cases i with
    | zero =>
      cases here
      exact ⟨[], ys.flatMap write, rfl, (Nat.mul_zero width).symm⟩
    | succ i =>
      obtain ⟨before, after, split_, place⟩ := ih i here
      refine ⟨write y ++ before, after, ?_, ?_⟩
      · rw [List.flatMap_cons, split_, List.append_assoc]
      · rw [List.length_append, wide, place, Nat.mul_succ, Nat.add_comm]

theorem length_flatMap_wide (write : α → List UInt8) (width : Nat)
    (wide : ∀ x, (write x).length = width) (items : List α) :
    (items.flatMap write).length = width * items.length := by
  induction items with
  | nil => rfl
  | cons y ys ih => rw [List.flatMap_cons, List.length_append, wide, ih, List.length_cons,
      Nat.mul_succ, Nat.add_comm]

/-- Numbers of one width, one after another. -/
theorem leAt_flatMap (bytes before after : List UInt8) (width at_ : Nat) (ns : List Nat)
    (split_ : bytes = before ++ (ns.flatMap (toLe width) ++ after)) (place : before.length = at_)
    (i n : Nat) (here : ns[i]? = some n) (fits : n < 256 ^ width) :
    leAt width bytes (at_ + width * i) = some n := by
  obtain ⟨first, last, item, length⟩ :=
    flatMap_at (toLe width) width (length_toLe width) ns i n here
  apply leAt_of bytes (before ++ first) (last ++ after) width _ n _ _ fits
  · rw [split_, item]
    simp only [List.append_assoc]
  · rw [List.length_append, place, length]

/-- What is read of `n` places from the `i`-th on. -/
def collect (read : Nat → Except String α) : Nat → Nat → Except String (List α)
  | _, 0 => .ok []
  | i, n + 1 =>
    match read i with
    | .error e => .error e
    | .ok x =>
      match collect read (i + 1) n with
      | .error e => .error e
      | .ok xs => .ok (x :: xs)

theorem collect_all (read : Nat → Except String α) (items : List α) (start : Nat)
    (each : ∀ i x, items[i]? = some x → read (start + i) = .ok x) :
    collect read start items.length = .ok items := by
  induction items generalizing start with
  | nil => rfl
  | cons x xs ih =>
    have first := each 0 x rfl
    have others := ih (start + 1) fun i y here => by
      rw [Nat.add_assoc, Nat.add_comm 1 i]
      exact each (i + 1) y here
    rw [Nat.add_zero] at first
    simp only [List.length_cons, collect, first, others]

end items

end Bytes
