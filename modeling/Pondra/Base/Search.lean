import Mathlib.Data.List.Basic

set_option autoImplicit false

namespace Searches

/-! ### Binary search for where a probe turns true -/

/-- The search between `lo` and `hi`, halving. -/
def search (probe : Nat → Bool) : Nat → Nat → Nat → Nat
  | 0, lo, _ => lo
  | fuel + 1, lo, hi =>
    if lo < hi then
      if probe ((lo + hi) / 2) then search probe fuel lo ((lo + hi) / 2)
      else search probe fuel ((lo + hi) / 2 + 1) hi
    else lo

/-- The places it looks at, in order. -/
def probes (probe : Nat → Bool) : Nat → Nat → Nat → List Nat
  | 0, _, _ => []
  | fuel + 1, lo, hi =>
    if lo < hi then
      (lo + hi) / 2 :: if probe ((lo + hi) / 2) then probes probe fuel lo ((lo + hi) / 2)
        else probes probe fuel ((lo + hi) / 2 + 1) hi
    else []

/-- Where a search ends, by what its probes found: at or under each one that was true and past each one
that wasn't, and between two neighbours of these. -/
structure Ends (probe : Nat → Bool) (lo hi : Nat) (seen : List Nat) (found : Nat) : Prop where
  low : lo ≤ found
  high : found ≤ hi
  under : ∀ mid ∈ seen, probe mid = true → found ≤ mid
  past : ∀ mid ∈ seen, probe mid = false → mid < found
  start : found = lo ∨ ∃ mid ∈ seen, probe mid = false ∧ mid + 1 = found
  stop : found = hi ∨ found ∈ seen ∧ probe found = true

theorem search_ends (probe : Nat → Bool) (fuel lo hi : Nat) (within : lo ≤ hi)
    (enough : hi - lo ≤ fuel) :
    Ends probe lo hi (probes probe fuel lo hi) (search probe fuel lo hi) := by
  induction fuel generalizing lo hi with
  | zero =>
    have same : lo = hi := by omega
    subst same
    exact ⟨Nat.le_refl _, Nat.le_refl _, fun _ none => absurd none List.not_mem_nil,
      fun _ none => absurd none List.not_mem_nil, .inl rfl, .inl rfl⟩
  | succ fuel ih =>
    unfold search probes
    by_cases more : lo < hi
    · rw [if_pos more, if_pos more]
      generalize middle : (lo + hi) / 2 = mid
      have between : lo ≤ mid ∧ mid < hi := by omega
      cases found : probe mid with
      | true =>
        rw [if_pos rfl, if_pos rfl]
        obtain ⟨low, high, under, past, start, stop⟩ := ih lo mid between.1 (by omega)
        refine ⟨low, by omega, ?_, ?_, ?_, ?_⟩
        · intro other inside true'
          rcases List.mem_cons.mp inside with rfl | inside
          · exact high
          · exact under other inside true'
        · intro other inside false'
          rcases List.mem_cons.mp inside with rfl | inside
          · rw [found] at false'
            cases false'
          · exact past other inside false'
        · rcases start with same | ⟨other, inside, rest⟩
          · exact .inl same
          · exact .inr ⟨other, List.mem_cons_of_mem _ inside, rest⟩
        · rcases stop with same | ⟨inside, true'⟩
          · rw [same]
            exact .inr ⟨List.mem_cons_self, found⟩
          · exact .inr ⟨List.mem_cons_of_mem _ inside, true'⟩
      | false =>
        rw [if_neg Bool.false_ne_true, if_neg Bool.false_ne_true]
        obtain ⟨low, high, under, past, start, stop⟩ := ih (mid + 1) hi between.2 (by omega)
        refine ⟨by omega, high, ?_, ?_, ?_, ?_⟩
        · intro other inside true'
          rcases List.mem_cons.mp inside with rfl | inside
          · rw [found] at true'
            cases true'
          · exact under other inside true'
        · intro other inside false'
          rcases List.mem_cons.mp inside with rfl | inside
          · exact low
          · exact past other inside false'
        · rcases start with same | ⟨other, inside, rest⟩
          · rw [same]
            exact .inr ⟨mid, List.mem_cons_self, found, rfl⟩
          · exact .inr ⟨other, List.mem_cons_of_mem _ inside, rest⟩
        · rcases stop with same | ⟨inside, true'⟩
          · exact .inl same
          · exact .inr ⟨List.mem_cons_of_mem _ inside, true'⟩
    · have same : lo = hi := by omega
      subst same
      rw [if_neg more, if_neg more]
      exact ⟨Nat.le_refl _, Nat.le_refl _, fun _ none => absurd none List.not_mem_nil,
        fun _ none => absurd none List.not_mem_nil, .inl rfl, .inl rfl⟩

end Searches
