import Mathlib.Data.List.Nodup
import Mathlib.Logic.Function.Basic

set_option autoImplicit false

/-! Places lent one after another: each taker gets the first free place that suits it. -/

namespace Lending

variable {α : Type} (suits : α → List Nat)

/-- The place each taker gets, in order; a place is free until it is lent. -/
def lend : (Nat → Bool) → List α → List (Option Nat)
  | _, [] => []
  | free, a :: rest =>
    match (suits a).find? free with
    | some i => some i :: lend (Function.update free i false) rest
    | none => none :: lend free rest

/-- What is lent: free places that suit, each once, and one to each taker a place is left for. -/
structure Lent (free : Nat → Bool) (takers : List α) (out : List (Option Nat)) : Prop where
  length : out.length = takers.length
  once : (out.filterMap id).Nodup
  open_ : ∀ i, some i ∈ out → free i = true
  fits : ∀ (n i : Nat), out[n]? = some (some i) → ∃ a, takers[n]? = some a ∧ i ∈ suits a
  left : ∀ (n : Nat) (a : α), takers[n]? = some a → out[n]? = some none → ∀ i ∈ suits a, free i = true →
    some i ∈ out.take n

variable {suits} {free : Nat → Bool} {takers : List α} {a : α}

theorem Lent.none_ (none_ : (suits a).find? free = none) {out : List (Option Nat)}
    (rest : Lent suits free takers out) : Lent suits free (a :: takers) (none :: out) := by
  constructor
  · rw [List.length_cons, List.length_cons, rest.length]
  · exact rest.once
  · intro i inside
    cases inside with
    | tail _ inside => exact rest.open_ i inside
  · intro n i here
    cases n with
    | zero => cases here
    | succ n => exact rest.fits n i here
  · intro n b taker empty i fits open_
    cases n with
    | zero =>
      cases taker
      have closed := List.find?_eq_none.mp none_ i fits
      exact absurd open_ closed
    | succ n =>
      rw [List.take_succ_cons]
      exact List.mem_cons_of_mem _ (rest.left n b taker empty i fits open_)

theorem Lent.some_ {i : Nat} (found : (suits a).find? free = some i) {out : List (Option Nat)}
    (rest : Lent suits (Function.update free i false) takers out) :
    Lent suits free (a :: takers) (some i :: out) := by
  have fresh : some i ∉ out := by
    intro inside
    have still := rest.open_ i inside
    rw [Function.update_self] at still
    cases still
  constructor
  · rw [List.length_cons, List.length_cons, rest.length]
  · rw [List.filterMap_cons_some (show id (some i) = some i from rfl), List.nodup_cons]
    refine ⟨?_, rest.once⟩
    intro inside
    obtain ⟨o, listed, same⟩ := List.mem_filterMap.mp inside
    have is : o = some i := same
    exact fresh (is ▸ listed)
  · intro k inside
    cases inside with
    | head => exact List.find?_some found
    | tail _ inside =>
      have still := rest.open_ k inside
      have apart : k ≠ i := by
        intro same
        exact fresh (same ▸ inside)
      rwa [Function.update_of_ne apart] at still
  · intro n k here
    cases n with
    | zero =>
      cases here
      exact ⟨a, rfl, List.mem_of_find?_eq_some found⟩
    | succ n => exact rest.fits n k here
  · intro n b taker empty k fits open_
    cases n with
    | zero => cases empty
    | succ n =>
      rw [List.take_succ_cons]
      by_cases same : k = i
      · rw [same]
        exact List.mem_cons_self
      · apply List.mem_cons_of_mem
        apply rest.left n b taker empty k fits
        rw [Function.update_of_ne same]
        exact open_

theorem lend_lent (suits : α → List Nat) (free : Nat → Bool) (takers : List α) :
    Lent suits free takers (lend suits free takers) := by
  induction takers generalizing free with
  | nil =>
    constructor
    · rfl
    · exact List.nodup_nil
    · exact nofun
    · exact nofun
    · exact nofun
  | cons a rest ih =>
    unfold lend
    cases found : (suits a).find? free with
    | none => exact (ih free).none_ found
    | some i => exact (ih _).some_ found

end Lending
