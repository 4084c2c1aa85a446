import Mathlib.Algebra.Group.Nat.Defs
import Mathlib.Data.List.Basic

set_option autoImplicit false

/-! ### Gray codes, the highest bit first -/

namespace Grays

/-- A bit after which the bits before it were added up, without carry. -/
def run : Bool → List Bool → List Bool
  | _, [] => []
  | c, b :: rest => xor c b :: run (xor c b) rest

def parity (l : List Bool) : Bool := l.foldl xor false

/-- The number whose Gray code these bits are; with `true` before them, counted from the other end. -/
def rank : Bool → List Bool → Nat
  | _, [] => 0
  | c, b :: rest => (xor c b).toNat * 2 ^ rest.length + rank (xor c b) rest

/-- The code of the last number: one bit, then none. -/
def crest : Nat → List Bool
  | 0 => []
  | k + 1 => true :: List.replicate k false

@[simp] theorem run_length (c : Bool) (l : List Bool) : (run c l).length = l.length := by
  induction l generalizing c with
  | nil => rfl
  | cons b rest ih => rw [run, List.length_cons, ih, List.length_cons]

theorem foldl_xor (c : Bool) (l : List Bool) : l.foldl xor c = xor c (parity l) := by
  unfold parity
  induction l generalizing c with
  | nil => rw [List.foldl_nil, List.foldl_nil, Bool.xor_false]
  | cons b rest ih =>
    rw [List.foldl_cons, List.foldl_cons, ih, ih (xor false b), Bool.false_xor, Bool.xor_assoc]

theorem parity_cons (b : Bool) (l : List Bool) : parity (b :: l) = xor b (parity l) := by
  rw [parity, List.foldl_cons, Bool.false_xor, foldl_xor]

theorem parity_append (front back : List Bool) :
    parity (front ++ back) = xor (parity front) (parity back) := by
  rw [parity, List.foldl_append, foldl_xor]
  rfl

theorem run_append (c : Bool) (front back : List Bool) :
    run c (front ++ back) = run c front ++ run (xor c (parity front)) back := by
  induction front generalizing c with
  | nil =>
    rw [show parity [] = false from rfl, Bool.xor_false]
    rfl
  | cons b rest ih =>
    rw [List.cons_append, run, ih, run, parity_cons, ← Bool.xor_assoc]
    rfl

theorem run_getElem (c : Bool) (l : List Bool) (i : Nat) (bound : i < (run c l).length) :
    (run c l)[i] = xor c (parity (l.take (i + 1))) := by
  induction l generalizing c i with
  | nil => cases bound
  | cons b rest ih =>
    rw [List.take_succ_cons, parity_cons, ← Bool.xor_assoc]
    cases i with
    | zero =>
      rw [List.take_zero, show parity [] = false from rfl, Bool.xor_false]
      rfl
    | succ i => exact ih (xor c b) i (by simpa using bound)

theorem foldl_run (c : Bool) (l : List Bool) (h : Nat) :
    (run c l).foldl (fun h b => 2 * h + b.toNat) h = h * 2 ^ l.length + rank c l := by
  induction l generalizing c h with
  | nil => simp [run, rank]
  | cons b rest ih =>
    rw [run, List.foldl_cons, ih, rank, List.length_cons, Nat.pow_succ, Nat.add_mul]
    have : 2 * h * 2 ^ rest.length = h * (2 ^ rest.length * 2) := by
      rw [Nat.mul_comm (2 ^ rest.length) 2, ← Nat.mul_assoc, Nat.mul_comm 2 h]
    omega

theorem rank_lt (c : Bool) (l : List Bool) : rank c l < 2 ^ l.length := by
  induction l generalizing c with
  | nil => exact Nat.one_pos
  | cons b rest ih =>
    rw [rank, List.length_cons, Nat.pow_succ]
    have low := ih (xor c b)
    have digit := (xor c b).toNat_le
    generalize (xor c b).toNat = d at digit
    generalize rank (xor c b) rest = r at low
    have top : d * 2 ^ rest.length ≤ 1 * 2 ^ rest.length := Nat.mul_le_mul_right _ digit
    omega

theorem rank_append (c : Bool) (front back : List Bool) :
    rank c (front ++ back) = rank c front * 2 ^ back.length + rank (xor c (parity front)) back := by
  induction front generalizing c with
  | nil =>
    rw [show parity [] = false from rfl, Bool.xor_false, List.nil_append]
    simp [rank]
  | cons b rest ih =>
    rw [List.cons_append, rank, ih, rank, parity_cons, ← Bool.xor_assoc, List.length_append,
      Nat.pow_add, Nat.add_mul, Nat.mul_assoc, Nat.add_assoc]

/-- Counted from the other end. -/
theorem rank_not (c : Bool) (l : List Bool) : rank (!c) l + rank c l = 2 ^ l.length - 1 := by
  induction l generalizing c with
  | nil => rfl
  | cons b rest ih =>
    rw [rank, rank, List.length_cons, Nat.pow_succ, Bool.not_xor]
    have both := ih (xor c b)
    have some : 0 < 2 ^ rest.length := Nat.two_pow_pos _
    cases held : xor c b with
    | false =>
      rw [held] at both
      rw [Bool.toNat_false, Bool.not_false, Bool.toNat_true]
      rw [Bool.not_false] at both
      omega
    | true =>
      rw [held] at both
      rw [Bool.toNat_true, Bool.not_true, Bool.toNat_false]
      rw [Bool.not_true] at both
      omega

theorem rank_injective (c : Bool) (l l' : List Bool) (same : l.length = l'.length)
    (ranks : rank c l = rank c l') : l = l' := by
  induction l generalizing c l' with
  | nil => exact (List.length_eq_zero_iff.mp same.symm).symm
  | cons b rest ih =>
    cases l' with
    | nil => cases same
    | cons b' rest' =>
      have lengths : rest.length = rest'.length := Nat.succ.inj same
      rw [rank, rank, ← lengths] at ranks
      have low := rank_lt (xor c b) rest
      have low' := rank_lt (xor c b') rest'
      rw [← lengths] at low'
      have bits : xor c b = xor c b' := by
        cases first : xor c b with
        | false =>
          cases second : xor c b' with
          | false => rfl
          | true =>
            rw [first, second, Bool.toNat_false, Bool.toNat_true] at ranks
            rw [first] at low
            omega
        | true =>
          cases second : xor c b' with
          | true => rfl
          | false =>
            rw [first, second, Bool.toNat_false, Bool.toNat_true] at ranks
            rw [second] at low'
            omega
      have heads : b = b' := Bool.xor_right_inj.mp bits
      subst heads
      rw [ih (xor c b) rest' lengths (by omega)]

theorem rank_false_replicate (k : Nat) : rank false (List.replicate k false) = 0 := by
  induction k with
  | zero => rfl
  | succ k ih =>
    rw [List.replicate_succ, rank, Bool.xor_false, ih]
    simp

theorem rank_true_crest (k : Nat) : rank true (crest k) = 0 := by
  cases k with
  | zero => rfl
  | succ k =>
    rw [crest, rank, Bool.xor_self, rank_false_replicate]
    simp

theorem crest_length (k : Nat) : (crest k).length = k := by
  cases k with
  | zero => rfl
  | succ k => rw [crest, List.length_cons, List.length_replicate]

theorem parity_replicate (k : Nat) : parity (List.replicate k false) = false := by
  induction k with
  | zero => rfl
  | succ k ih => rw [List.replicate_succ, parity_cons, ih, Bool.false_xor]

theorem parity_crest (l : List Bool) (crests : l = crest l.length) :
    parity l = decide (l ≠ []) := by
  rw [crests]
  cases l with
  | nil => rfl
  | cons b rest =>
    rw [List.length_cons, crest, parity_cons, parity_replicate]
    simp

theorem rank_true_zero (l : List Bool) (first : rank true l = 0) : l = crest l.length :=
  rank_injective true _ _ (crest_length _).symm (first.trans (rank_true_crest _).symm)

/-- The codes of a number and of the next one differ in one bit, with nothing after it or a crest; and the
bits before what follows them add up to that. -/
theorem rank_next (c : Bool) (l l' : List Bool) (same : l.length = l'.length)
    (next : rank c l' = rank c l + 1) : ∃ front b back, l = front ++ b :: back ∧
      l' = front ++ (!b) :: back ∧ back = crest back.length ∧
      xor c (parity l) = decide (back ≠ []) ∧ xor c (parity l') = decide (back = []) := by
  induction l generalizing c l' with
  | nil =>
    rw [List.length_eq_zero_iff.mp same.symm] at next
    exact absurd next (Nat.ne_of_lt (Nat.lt_succ_self _))
  | cons b rest ih =>
    cases l' with
    | nil => cases same
    | cons b' rest' =>
      have lengths : rest.length = rest'.length := Nat.succ.inj same
      rw [rank, rank, ← lengths] at next
      by_cases heads : b' = b
      · subst heads
        obtain ⟨front, d, back, left, right, crests, here, after⟩ :=
          ih (xor c b') rest' lengths (by omega)
        refine ⟨b' :: front, d, back, by rw [left]; rfl, by rw [right]; rfl, crests, ?_, ?_⟩
        · rw [parity_cons, ← Bool.xor_assoc]
          exact here
        · rw [parity_cons, ← Bool.xor_assoc]
          exact after
      · have flip : b' = !b := Bool.eq_not.mpr heads
        subst flip
        have low := rank_lt (xor c b) rest
        have low' := rank_lt (xor c !b) rest'
        rw [← lengths] at low'
        rw [Bool.xor_not] at next low'
        cases held : xor c b with
        | true =>
          rw [held, Bool.not_true, Bool.toNat_false, Bool.toNat_true] at next
          rw [held, Bool.not_true] at low'
          omega
        | false =>
          rw [held, Bool.not_false, Bool.toNat_false, Bool.toNat_true] at next
          rw [held] at low
          have ends : rank true rest' = 0 := by omega
          have last : rank true rest = 0 := by
            have both := rank_not false rest
            rw [Bool.not_false] at both
            omega
          have crests := rank_true_zero rest last
          have crests' := rank_true_zero rest' ends
          have one : rest' = rest := by
            rw [crests', ← lengths, ← crests]
          subst one
          have after := parity_crest rest' crests
          refine ⟨[], b, rest', rfl, rfl, crests, ?_, ?_⟩
          · rw [parity_cons, ← Bool.xor_assoc, held, Bool.false_xor, after]
          · rw [parity_cons, ← Bool.xor_assoc, Bool.xor_not, held, Bool.not_false, after]
            simp

end Grays
