import Mathlib.Order.Lattice

set_option autoImplicit false

/-! ### One-sided bounds of a linear order -/

namespace Edges

variable {V : Type} [LinearOrder V]

/-- A bound: its value, and whether the value is within; none for no bound on that side. -/
abbrev Edge (V : Type) : Type := Option (V × Bool)

/-- The values a low bound lets in. -/
def Above : Edge V → V → Prop
  | none, _ => True
  | some (v, true), x => v ≤ x
  | some (v, false), x => v < x

/-- The values a high bound lets in. -/
def Below : Edge V → V → Prop
  | none, _ => True
  | some (v, true), x => x ≤ v
  | some (v, false), x => x < v

/-- Low bounds in order, a value that is within before one that isn't. -/
def Before : Edge V → Edge V → Prop
  | none, _ => True
  | some _, none => False
  | some (v, i), some (w, j) => v < w ∨ v = w ∧ (j = true → i = true)

instance decidableBefore : (a b : Edge V) → Decidable (Before a b)
  | none, _ => inferInstanceAs (Decidable True)
  | some _, none => inferInstanceAs (Decidable False)
  | some (v, i), some (w, j) => inferInstanceAs (Decidable (v < w ∨ v = w ∧ (j = true → i = true)))

/-- Between the two lies a value, as far as their own values tell. -/
def Full : Edge V → Edge V → Prop
  | some (v, i), some (w, j) => v < w ∨ v = w ∧ i = true ∧ j = true
  | _, _ => True

theorem before_total (a b : Edge V) : Before a b ∨ Before b a := by
  rcases a with _ | ⟨v, i⟩
  · exact .inl trivial
  rcases b with _ | ⟨w, j⟩
  · exact .inr trivial
  rcases lt_trichotomy v w with less | rfl | more
  · exact .inl (.inl less)
  · cases i with
    | true => exact .inl (.inr ⟨rfl, fun _ => rfl⟩)
    | false => exact .inr (.inr ⟨rfl, fun no => by cases no⟩)
  · exact .inr (.inl more)

theorem before_trans {a b c : Edge V} (first : Before a b) (second : Before b c) : Before a c := by
  rcases a with _ | ⟨u, i⟩
  · trivial
  rcases b with _ | ⟨v, j⟩
  · exact first.elim
  rcases c with _ | ⟨w, k⟩
  · exact second.elim
  rcases first with less | ⟨rfl, within⟩
  · rcases second with more | ⟨rfl, -⟩
    · exact .inl (less.trans more)
    · exact .inl less
  · rcases second with more | ⟨rfl, also⟩
    · exact .inl more
    · exact .inr ⟨rfl, fun inside => within (also inside)⟩

/-- An earlier low bound lets in what a later one does. -/
theorem Before.above {a b : Edge V} (before : Before a b) {x : V} (in_ : Above b x) : Above a x := by
  rcases a with _ | ⟨v, i⟩
  · trivial
  rcases b with _ | ⟨w, j⟩
  · exact before.elim
  rcases before with less | ⟨rfl, within⟩
  · have past : v < x := by
      cases j with
      | true => exact less.trans_le in_
      | false => exact less.trans in_
    cases i with
    | true => exact past.le
    | false => exact past
  · cases j with
    | true =>
      rw [within rfl]
      exact in_
    | false =>
      cases i with
      | true => exact le_of_lt in_
      | false => exact in_

/-- What a high bound lets in, a greater one does. -/
theorem below_of_lt {v w : V} {i j : Bool} (less : v < w) {x : V} (in_ : Below (some (v, i)) x) :
    Below (some (w, j)) x := by
  have short : x < w := by
    cases i with
    | true => exact lt_of_le_of_lt in_ less
    | false => exact lt_trans in_ less
  cases j with
  | true => exact short.le
  | false => exact short

theorem none_full (high : Edge V) : Full none high := by
  cases high <;> trivial

theorem full_none (low : Edge V) : Full low none := by
  cases low <;> trivial

/-- A range from `low` that grows to a part from further on it reaches holds what was in it and the part. -/
theorem above_joined {low l high h wide : Edge V} (further : Before low l)
    (reached : ∀ x, Below high x ∨ Above l x) (wider : ∀ x, Below wide x ↔ Below high x ∨ Below h x)
    (x : V) : Above low x ∧ Below wide x ↔ (Above low x ∧ Below high x) ∨ (Above l x ∧ Below h x) := by
  rw [wider]
  constructor
  · rintro ⟨above, inside | part⟩
    · exact .inl ⟨above, inside⟩
    · rcases reached x with inside | start
      · exact .inl ⟨above, inside⟩
      · exact .inr ⟨start, part⟩
  · rintro (⟨above, inside⟩ | ⟨start, part⟩)
    · exact ⟨above, .inl inside⟩
    · exact ⟨further.above start, .inr part⟩

end Edges
