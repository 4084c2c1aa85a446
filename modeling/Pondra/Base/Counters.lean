import Mathlib.Algebra.Order.Ring.Int
import Mathlib.Data.List.Nodup
import Mathlib.Tactic.Ring

set_option autoImplicit false

/- Counters that go one step at a time between two bounds, over all whole numbers. -/
namespace Counters

structure Counter where
  step : Int
  low : Int
  high : Int
  wraps : Bool
  moves : step ≠ 0
  room : low ≤ high

/-- Where a counter stands: its last value, or the first one to come. -/
structure Place where
  last : Int
  called : Bool

namespace Counter

variable (c : Counter)

def Within (v : Int) : Prop := c.low ≤ v ∧ v ≤ c.high

instance (v : Int) : Decidable (c.Within v) := inferInstanceAs (Decidable (_ ∧ _))

def wanted (p : Place) : Int := if p.called then p.last + c.step else p.last

/-- The end a counter starts again at. -/
def turn : Int := if 0 < c.step then c.low else c.high

/-- One value: the next in bounds, else the other end where the counter may wrap. -/
def draw (p : Place) : Option (Int × Place) :=
  if c.Within (c.wanted p) then some (c.wanted p, ⟨c.wanted p, true⟩)
  else if c.wraps then some (c.turn, ⟨c.turn, true⟩)
  else none

def draws : Nat → Place → Option (List Int × Place)
  | 0, p => some ([], p)
  | n + 1, p =>
    (c.draw p).bind fun drawn => (draws n drawn.2).map fun rest => (drawn.1 :: rest.1, rest.2)

/-- `n` values a step apart. -/
def stretch (first : Int) (n : Nat) : List Int := (List.range n).map fun i : Nat => first + i * c.step

/-- One value comes after another in the counter's direction. -/
def After (a b : Int) : Prop := if 0 < c.step then a < b else b < a

theorem turn_within : c.Within c.turn := by
  have := c.room
  unfold turn Within
  split <;> omega

theorem draw_eq_none (p : Place) : c.draw p = none ↔ ¬ c.Within (c.wanted p) ∧ c.wraps = false := by
  unfold draw
  split <;> cases c.wraps <;> simp [*]

theorem draw_eq_some {p next : Place} {v : Int} (drawn : c.draw p = some (v, next)) :
    c.Within v ∧ next = ⟨v, true⟩ ∧ (c.wraps = false → v = c.wanted p) := by
  unfold draw at drawn
  split at drawn
  · next inside =>
    cases drawn
    exact ⟨inside, rfl, fun _ => rfl⟩
  · split at drawn
    · next wraps =>
      cases drawn
      exact ⟨c.turn_within, rfl, fun no => by rw [no] at wraps; cases wraps⟩
    · cases drawn

/-- In bounds at both ends is in bounds between them. -/
theorem between {first : Int} {n i : Nat} (start : c.Within first)
    (stop : c.Within (first + n * c.step)) (inside : i ≤ n) : c.Within (first + i * c.step) := by
  unfold Within at *
  have ordered : (i : Int) ≤ n := by omega
  rcases lt_or_gt_of_ne c.moves with down | up
  · have less : (n : Int) * c.step ≤ i * c.step := mul_le_mul_of_nonpos_right ordered (by omega)
    have none_ : (i : Int) * c.step ≤ 0 := mul_nonpos_of_nonneg_of_nonpos (by omega) (by omega)
    omega
  · have more : (i : Int) * c.step ≤ n * c.step := mul_le_mul_of_nonneg_right ordered (by omega)
    have some_ : 0 ≤ (i : Int) * c.step := mul_nonneg (by omega) (by omega)
    omega

theorem stretch_succ (first : Int) (n : Nat) :
    c.stretch first (n + 1) = first :: c.stretch (first + c.step) n := by
  unfold stretch
  rw [List.range_succ_eq_map, List.map_cons, List.map_map]
  congr 1
  · simp
  · apply List.map_congr_left
    intro i _
    simp only [Function.comp, Nat.cast_succ]
    ring

/-- From a value in bounds, `n` more steps that stay in bounds are `n` draws. -/
theorem draws_stretch (n : Nat) {v : Int} (start : c.Within v)
    (stop : c.Within (v + n * c.step)) :
    c.draws n ⟨v, true⟩ = some (c.stretch (v + c.step) n, ⟨v + n * c.step, true⟩) := by
  induction n generalizing v with
  | zero => simp [draws, stretch]
  | succ n ih =>
    have first : c.Within (v + c.step) := by
      have := c.between (i := 1) start stop (by omega)
      simpa using this
    have last : v + c.step + n * c.step = v + ((n + 1 : Nat) : Int) * c.step := by
      push_cast
      ring
    have drawn : c.draw ⟨v, true⟩ = some (v + c.step, ⟨v + c.step, true⟩) := by
      simp [draw, wanted, first]
    rw [draws, drawn, Option.bind_some, ih first (last ▸ stop), Option.map_some, stretch_succ, last]

/-- A block drawn at once: its first value, and steps that stay in bounds. -/
theorem draws_block {p next : Place} {first : Int} (n : Nat)
    (drawn : c.draw p = some (first, next)) (stop : c.Within (first + n * c.step)) :
    c.draws (n + 1) p = some (c.stretch first (n + 1), ⟨first + n * c.step, true⟩) := by
  obtain ⟨inside, rfl, _⟩ := c.draw_eq_some drawn
  rw [draws, drawn, Option.bind_some, c.draws_stretch n inside stop, Option.map_some, stretch_succ]

theorem stretch_within {first : Int} {n : Nat} (start : c.Within first)
    (stop : c.Within (first + n * c.step)) : ∀ v ∈ c.stretch first (n + 1), c.Within v := by
  intro v inside
  obtain ⟨i, below, rfl⟩ := List.mem_map.mp inside
  exact c.between start stop (by have := List.mem_range.mp below; omega)

theorem stretch_nodup (first : Int) (n : Nat) : (c.stretch first n).Nodup := by
  apply List.Nodup.map _ List.nodup_range
  intro i j same
  have equal : (i : Int) * c.step = j * c.step := by simpa using same
  exact_mod_cast mul_right_cancel₀ c.moves equal

/-- Taking some values off a stretch's front leaves a stretch. -/
theorem stretch_split (first : Int) (k n : Nat) :
    c.stretch first (k + n) = c.stretch first k ++ c.stretch (first + k * c.step) n := by
  unfold stretch
  rw [List.range_add, List.map_append, List.map_map]
  congr 1
  apply List.map_congr_left
  intro i _
  simp only [Function.comp]
  push_cast
  ring

/-! ### A counter that doesn't wrap -/

/-- A value the counter has drawn, or has gone past. -/
def Drawn (p : Place) (v : Int) : Prop := p.called = true ∧ c.Within v ∧ ¬ c.After p.last v

section forward

variable {c} (forward : c.wraps = false)

include forward

theorem draw_fresh {p next : Place} {v : Int} (drawn : c.draw p = some (v, next)) :
    ¬ c.Drawn p v ∧ c.Drawn next v ∧ ∀ w, c.Drawn p w → c.Drawn next w := by
  obtain ⟨inside, rfl, exact_⟩ := c.draw_eq_some drawn
  have is := exact_ forward
  have moves := c.moves
  unfold wanted at is
  refine ⟨?_, ⟨rfl, inside, ?_⟩, ?_⟩
  · rintro ⟨called, _, past⟩
    rw [if_pos called] at is
    unfold After at past
    split at past <;> omega
  · show ¬ c.After v v
    unfold After
    split <;> omega
  · rintro w ⟨called, within, past⟩
    rw [if_pos called] at is
    refine ⟨rfl, within, ?_⟩
    show ¬ c.After v w
    unfold After at past ⊢
    by_cases up : 0 < c.step
    · rw [if_pos up] at past ⊢
      omega
    · rw [if_neg up] at past ⊢
      omega

/-- What is drawn was never drawn before, and stays drawn. -/
theorem draws_fresh {p next : Place} {n : Nat} {vs : List Int} (drawn : c.draws n p = some (vs, next)) :
    (∀ v ∈ vs, ¬ c.Drawn p v ∧ c.Drawn next v) ∧ ∀ w, c.Drawn p w → c.Drawn next w := by
  induction n generalizing p vs with
  | zero =>
    cases drawn
    exact ⟨fun v no => (List.not_mem_nil no).elim, fun w was => was⟩
  | succ n ih =>
    rw [draws, Option.bind_eq_some_iff] at drawn
    obtain ⟨⟨v, middle⟩, one, rest⟩ := drawn
    rw [Option.map_eq_some_iff] at rest
    obtain ⟨⟨others, last⟩, more, same⟩ := rest
    cases same
    obtain ⟨new, now, kept⟩ := draw_fresh forward one
    obtain ⟨fresh, later⟩ := ih more
    refine ⟨?_, fun w was => later w (kept w was)⟩
    intro u inside
    rcases List.mem_cons.mp inside with rfl | inside
    · exact ⟨new, later _ now⟩
    · exact ⟨fun was => (fresh u inside).1 (kept u was), (fresh u inside).2⟩

end forward

end Counter

end Counters
