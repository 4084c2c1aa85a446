import Mathlib.Tactic.ByContra

set_option autoImplicit false

namespace Layers

/-- A map that commits change one after another: what it holds at each, and the keys each changes. -/
structure Versions (κ ν : Type) where
  asOf : Nat → κ → Option ν
  touches : Nat → κ → Prop
  kept : ∀ i k, ¬ touches (i + 1) k → asOf (i + 1) k = asOf i k

/-- Changes laid over a base: by key, the commit that made it and the value, `none` for a key that is
gone. -/
abbrev Overlay (κ ν : Type) := κ → Option (Nat × Option ν)

variable {κ ν : Type} (versions : Versions κ ν)

/-- No commit after `low` and up to `high` changes the key. -/
def Versions.Still (low high : Nat) (k : κ) : Prop :=
  ∀ i, low < i → i ≤ high → ¬ versions.touches i k

theorem Versions.same {low high : Nat} {k : κ} (ordered : low ≤ high)
    (still : versions.Still low high k) : versions.asOf low k = versions.asOf high k := by
  induction high with
  | zero =>
    obtain rfl : low = 0 := by omega
    rfl
  | succ high ih =>
    by_cases last : low = high + 1
    · rw [last]
    · rw [versions.kept high k (still (high + 1) (by omega) (by omega))]
      exact ih (by omega) fun i above below => still i above (by omega)

/-- What each change of the overlay says is the newest word on its key, as of `upto`. -/
def Fresh (among : κ → Prop) (overlay : Overlay κ ν) (upto : Nat) : Prop :=
  ∀ k change, among k → overlay k = some change →
    change.1 ≤ upto ∧ change.2 = versions.asOf change.1 k ∧ versions.Still change.1 upto k

/-- The overlay has every key that a commit after `low` and up to `upto` changes. -/
def Covers (among : κ → Prop) (overlay : Overlay κ ν) (low upto : Nat) : Prop :=
  ∀ k i, among k → low < i → i ≤ upto → versions.touches i k → (overlay k).isSome

variable {versions} {among : κ → Prop} {overlay : Overlay κ ν} {low upto : Nat}

theorem Fresh.value (fresh : Fresh versions among overlay upto) {k : κ} {change : Nat × Option ν}
    (inside : among k) (found : overlay k = some change) : change.2 = versions.asOf upto k := by
  obtain ⟨below, value, still⟩ := fresh k change inside found
  rw [value]
  exact versions.same below still

theorem Covers.mono {low' : Nat} (covers : Covers versions among overlay low upto)
    (higher : low ≤ low') : Covers versions among overlay low' upto :=
  fun k i inside above below touches => covers k i inside (by omega) below touches

/-- A key that the overlay doesn't have is the same at every commit it covers. -/
theorem Covers.same {i : Nat} {k : κ}
    (covers : Covers versions among overlay low upto) (inside : among k) (above : low ≤ i)
    (below : i ≤ upto) (absent : overlay k = none) : versions.asOf i k = versions.asOf upto k := by
  apply versions.same below
  intro j after before touches
  have found := covers k j inside (by omega) before touches
  rw [absent] at found
  cases found

/-- The overlay after commit `id`, which makes `changes`. -/
def Overlay.extend (overlay : Overlay κ ν) (id : Nat) (changes : κ → Option (Option ν)) :
    Overlay κ ν :=
  fun k => match changes k with
    | some value => some (id, value)
    | none => overlay k

/-- `changes` are what commit `id` does. -/
def Versions.Makes (versions : Versions κ ν) (id : Nat) (changes : κ → Option (Option ν)) : Prop :=
  ∀ k, (versions.touches id k ↔ (changes k).isSome) ∧
    ∀ value, changes k = some value → value = versions.asOf id k

theorem fresh_empty (upto : Nat) : Fresh versions among (fun _ => none) upto := by
  intro k change _ found
  cases found

theorem covers_empty (ordered : upto ≤ low) : Covers versions among (fun _ => none) low upto := by
  intro k i _ above below
  omega

theorem Fresh.extend {id : Nat} {changes : κ → Option (Option ν)}
    (fresh : Fresh versions among overlay upto) (makes : versions.Makes id changes)
    (ordered : upto ≤ id)
    (untouched : ∀ k change, among k → overlay k = some change → versions.Still upto (id - 1) k) :
    Fresh versions among (overlay.extend id changes) id := by
  intro k change inside found
  unfold Overlay.extend at found
  cases made : changes k with
  | some value =>
    rw [made] at found
    cases found
    exact ⟨Nat.le_refl _, (makes k).2 value made, fun i above below => by omega⟩
  | none =>
    rw [made] at found
    obtain ⟨below, value, still⟩ := fresh k change inside found
    refine ⟨by omega, value, ?_⟩
    intro i above before touches
    by_cases old : i ≤ upto
    · exact still i above old touches
    · by_cases last : i = id
      · rw [last] at touches
        have := (makes k).1.mp touches
        rw [made] at this
        cases this
      · exact untouched k change inside found i (by omega) (by omega) touches

theorem Covers.extend {id : Nat} {changes : κ → Option (Option ν)}
    (covers : Covers versions among overlay low upto) (makes : versions.Makes id changes)
    (near : id ≤ low + 1 ∨ id ≤ upto + 1) :
    Covers versions among (overlay.extend id changes) low id := by
  intro k i inside above below touches
  unfold Overlay.extend
  cases made : changes k with
  | some value => rfl
  | none =>
    by_cases last : i = id
    · rw [last] at touches
      have := (makes k).1.mp touches
      rw [made] at this
      cases this
    · exact covers k i inside above (by omega) touches

theorem Fresh.drop {overlay' : Overlay κ ν} (fresh : Fresh versions among overlay upto)
    (sub : ∀ k change, among k → overlay' k = some change → overlay k = some change) :
    Fresh versions among overlay' upto :=
  fun k change inside found => fresh k change inside (sub k change inside found)

/-- Changes at or below `id` may go: what they say, the base has from `low` on. -/
theorem Covers.drop {overlay' : Overlay κ ν} {id : Nat} (fresh : Fresh versions among overlay upto)
    (covers : Covers versions among overlay low upto) (older : id ≤ low)
    (spared : ∀ k change, among k → overlay k = some change → id < change.1 →
      (overlay' k).isSome) : Covers versions among overlay' low upto := by
  intro k i inside above below touches
  obtain ⟨change, found⟩ := Option.isSome_iff_exists.mp (covers k i inside above below touches)
  apply spared k change inside found
  by_contra old
  exact (fresh k change inside found).2.2 i (by omega) below touches

end Layers
