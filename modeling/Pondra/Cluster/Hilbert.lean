import Mathlib.Data.Fintype.BigOperators
import Mathlib.Data.Fintype.Pi
import Mathlib.Data.Nat.Bitwise
import Pondra.Base.Curve

set_option autoImplicit false

/-! ### Hilbert order: the distance along the curve -/

namespace Pondra.Cluster

open Curves Grays

variable {n : Nat} [NeZero n]

/-- The masks of `while q > 1 { …; q >>= 1 }`. -/
def masks (q : UInt32) : List UInt32 :=
  ((List.range 32).map fun k => q >>> UInt32.ofNat k).takeWhile (1 < ·)

/-- One axis of the transform, at one mask. -/
def exchange (q : UInt32) (x : Fin n → UInt32) (i : Fin n) : Fin n → UInt32 :=
  let p := q - 1
  if x i &&& q ≠ 0 then Function.update x 0 (x 0 ^^^ p)
  else
    let t := (x 0 ^^^ x i) &&& p
    let x := Function.update x 0 (x 0 ^^^ t)
    Function.update x i (x i ^^^ t)

/-- The loop over the axes. -/
def level (x : Fin n → UInt32) (q : UInt32) : Fin n → UInt32 := (List.finRange n).foldl (exchange q) x

/-- `for i in 1..n { x[i] ^= x[i - 1]; }` -/
def gray (x : Fin n → UInt32) : Fin n → UInt32 :=
  (List.finRange n).tail.foldl (fun x i => Function.update x i (x i ^^^ x (i - 1))) x

/-- `x[n - 1]` -/
def final (x : Fin n → UInt32) : UInt32 := x ⟨n - 1, Nat.sub_one_lt (NeZero.ne n)⟩

/-- The bits that the transposed coordinates are turned round by. -/
def flips (last : UInt32) (q : UInt32) : UInt32 :=
  (masks q).foldl (fun t q => if last &&& q ≠ 0 then t ^^^ (q - 1) else t) 0

/-- The bits interleaved, most significant first. -/
def interleave (x : Fin n → UInt32) (bits : UInt32) : UInt64 :=
  (List.range bits.toNat).reverse.foldl (fun h b => (List.finRange n).foldl
    (fun h i => (h <<< 1) ||| ((x i >>> UInt32.ofNat b) &&& 1).toUInt64) h) 0

/-- The distance along a Hilbert curve of a point. -/
def index (x : Fin n → UInt32) (bits : UInt32) : UInt64 :=
  let q := 1 <<< (bits - 1)
  let x := gray ((masks q).foldl level x)
  let t := flips (final x) q
  interleave (fun i => x i ^^^ t) bits

/-- The curve of order 1 in two dimensions. -/
example : [(0, 0), (0, 1), (1, 1), (1, 0)].map
    (fun p : UInt32 × UInt32 => index (fun i : Fin 2 => if i = 0 then p.1 else p.2) 1) = [0, 1, 2, 3] := by
  decide +kernel

def bit (v : UInt32) (j : Nat) : Bool := v.toNat.testBit j

/-- The bits of one weight. -/
def plane (x : Fin n → UInt32) (j : Nat) : Plane n := fun i => bit (x i) j

/-- The planes below a weight, the highest first. -/
def planesOf (x : Fin n → UInt32) : Nat → List (Plane n)
  | 0 => []
  | k + 1 => plane x k :: planesOf x k

def power (k : Nat) : UInt32 := 1 <<< UInt32.ofNat k

def powers : Nat → List UInt32
  | 0 => []
  | k + 1 => power (k + 1) :: powers k

theorem masks_power (k : Nat) (bound : k < 32) : masks (power k) = powers k := by
  have all : ∀ k : Fin 32, masks (power k.val) = powers k.val := by decide +kernel
  exact all ⟨k, bound⟩

theorem power_toNat (k : Nat) (bound : k < 32) : (power k).toNat = 2 ^ k := by
  have all : ∀ k : Fin 32, (power k.val).toNat = 2 ^ k.val := by decide +kernel
  exact all ⟨k, bound⟩

theorem below_toNat (k : Nat) (bound : k < 32) : (power k - 1).toNat = 2 ^ k - 1 := by
  have all : ∀ k : Fin 32, (power k.val - 1).toNat = 2 ^ k.val - 1 := by decide +kernel
  exact all ⟨k, bound⟩

@[simp] theorem bit_xor (v w : UInt32) (j : Nat) : bit (v ^^^ w) j = xor (bit v j) (bit w j) := by
  simp [bit]

@[simp] theorem bit_and (v w : UInt32) (j : Nat) : bit (v &&& w) j = (bit v j && bit w j) := by
  simp [bit]

@[simp] theorem bit_zero (j : Nat) : bit 0 j = false := by
  simp [bit]

theorem bit_below (k : Nat) (bound : k < 32) (j : Nat) : bit (power k - 1) j = decide (j < k) := by
  rw [bit, below_toNat k bound, Nat.testBit_two_pow_sub_one]

theorem and_power (v : UInt32) (k : Nat) (bound : k < 32) : v &&& power k ≠ 0 ↔ bit v k = true := by
  rw [ne_eq, ← UInt32.toNat_inj, UInt32.toNat_and, power_toNat k bound, Nat.and_two_pow, bit]
  have some : 2 ^ k ≠ 0 := Nat.pos_iff_ne_zero.mp (Nat.two_pow_pos k)
  cases v.toNat.testBit k with
  | true => simp
  | false => simp

/-- At a mask the planes below it are turned, the others kept. -/
theorem exchange_plane (k : Nat) (bound : k < 32) (x : Fin n → UInt32) (i : Fin n) (j : Nat) :
    plane (exchange (power k) x i) j = if j < k then turn (plane x k i) i (plane x j) else plane x j := by
  have set := and_power (x i) k bound
  funext l
  unfold exchange
  by_cases held : bit (x i) k = true
  · rw [if_pos (set.mpr held)]
    have turned : plane x k i = true := held
    rw [turned]
    by_cases first : l = 0
    · subst first
      by_cases low : j < k
      · simp [plane, turn, bit_below k bound, low]
      · simp [plane, bit_below k bound, low]
    · by_cases low : j < k
      · simp [plane, turn, low, first]
      · simp [plane, low, first]
  · rw [if_neg (fun on => held (set.mp on))]
    have turned : plane x k i = false := Bool.not_eq_true _ ▸ held
    rw [turned]
    by_cases low : j < k
    · by_cases here : l = i
      · subst here
        by_cases first : l = 0
        · subst first
          simp [plane, turn, low]
        · have back : xor (bit (x l) j) (xor (bit (x 0) j) (bit (x l) j)) = bit (x 0) j := by
            rw [Bool.xor_left_comm, Bool.xor_self, Bool.xor_false]
          simp [plane, turn, low, first, bit_below k bound, back]
      · by_cases first : l = 0
        · subst first
          simp [plane, turn, low, here, bit_below k bound]
        · simp [plane, turn, low, here, first, Equiv.swap_apply_of_ne_of_ne]
    · by_cases here : l = i
      · subst here
        by_cases first : l = 0
        · subst first
          simp [plane, low]
        · simp [plane, low, first, bit_below k bound]
      · by_cases first : l = 0
        · subst first
          simp [plane, low, here, bit_below k bound]
        · simp [plane, low, here, first]

theorem exchanges_plane (k : Nat) (bound : k < 32) (axes : List (Fin n)) (x : Fin n → UInt32) (j : Nat) :
    plane (axes.foldl (exchange (power k)) x) j =
      if j < k then axes.foldl (fun v i => turn (plane x k i) i v) (plane x j) else plane x j := by
  induction axes generalizing x with
  | nil =>
    rw [List.foldl_nil, List.foldl_nil, ite_self]
  | cons i rest ih =>
    rw [List.foldl_cons, ih, exchange_plane k bound x i j, exchange_plane k bound x i k,
      if_neg (Nat.lt_irrefl k)]
    by_cases low : j < k
    · rw [if_pos low, if_pos low, if_pos low, List.foldl_cons]
    · rw [if_neg low, if_neg low, if_neg low]

theorem level_plane (k : Nat) (bound : k < 32) (x : Fin n → UInt32) (j : Nat) :
    plane (level x (power k)) j = if j < k then turns (plane x k) (plane x j) else plane x j :=
  exchanges_plane k bound _ x j

theorem powers_plane (k : Nat) (bound : k < 32) (x : Fin n → UInt32) (j : Nat) (high : k ≤ j) :
    plane ((powers k).foldl level x) j = plane x j := by
  induction k generalizing x with
  | zero => rfl
  | succ k ih =>
    rw [powers, List.foldl_cons, ih (by omega) _ (by omega), level_plane _ bound,
      if_neg (by omega)]

omit [NeZero n] in
@[simp] theorem planesOf_length (x : Fin n → UInt32) (k : Nat) : (planesOf x k).length = k := by
  induction k with
  | zero => rfl
  | succ k ih => rw [planesOf, List.length_cons, ih]

omit [NeZero n] in
theorem planesOf_map (f : Plane n → Plane n) (x y : Fin n → UInt32) (k : Nat)
    (each : ∀ j, j < k → plane y j = f (plane x j)) : planesOf y k = (planesOf x k).map f := by
  induction k with
  | zero => rfl
  | succ k ih =>
    rw [planesOf, planesOf, List.map_cons, each k (by omega), ih fun j low => each j (by omega)]

/-- The transform walks the planes. -/
theorem powers_walk (k : Nat) (bound : k < 32) (x : Fin n → UInt32) :
    planesOf ((powers k).foldl level x) (k + 1) = walk id (planesOf x (k + 1)) := by
  induction k generalizing x with
  | zero => rfl
  | succ k ih =>
    have turned : planesOf (level x (power (k + 1))) (k + 1) =
        (planesOf x (k + 1)).map (turns (plane x (k + 1))) := by
      apply planesOf_map
      intro j low
      rw [level_plane _ bound, if_pos low]
    have kept : plane ((powers (k + 1)).foldl level x) (k + 1) = plane x (k + 1) :=
      powers_plane (k + 1) bound x (k + 1) (Nat.le_refl _)
    rw [planesOf, kept, powers, List.foldl_cons, ih (by omega), turned]
    show _ = walk id (plane x (k + 1) :: planesOf x (k + 1))
    rw [walk_cons]

/-- Each coordinate's bit is the parity of those up to it. -/
theorem prefixes_bit (x : Fin n → UInt32) (j k a : Nat) (left : n = k + a + 1) (y : Fin n → UInt32)
    (done : ∀ i : Fin n, bit (y i) j =
      if i.val ≤ a then parity ((List.ofFn (plane x j)).take (i.val + 1)) else bit (x i) j)
    (i : Fin n) :
    bit (((List.finRange n).drop (a + 1)).foldl
      (fun x i => Function.update x i (x i ^^^ x (i - 1))) y i) j =
      parity ((List.ofFn (plane x j)).take (i.val + 1)) := by
  induction k generalizing a y with
  | zero =>
    rw [List.drop_of_length_le (by rw [List.length_finRange]; omega), List.foldl_nil, done,
      if_pos (by omega)]
  | succ k ih =>
    have bound : a + 1 < n := by omega
    rw [List.drop_eq_getElem_cons (by rw [List.length_finRange]; exact bound), List.foldl_cons]
    apply ih (a + 1) (by omega)
    intro l
    have later : (⟨a + 1, bound⟩ : Fin n) ≠ 0 := by
      intro first
      exact absurd (congrArg Fin.val first) (Nat.succ_ne_zero a)
    rw [List.getElem_finRange]
    show bit (Function.update y ⟨a + 1, bound⟩ (y ⟨a + 1, bound⟩ ^^^ y (⟨a + 1, bound⟩ - 1)) l) j = _
    by_cases here : l = ⟨a + 1, bound⟩
    · subst here
      have before : (⟨a + 1, bound⟩ - 1 : Fin n).val = a := Fin.val_sub_one_of_ne_zero later
      rw [Function.update_self, bit_xor, done, done, if_neg (Nat.not_succ_le_self a), before,
        if_pos (Nat.le_refl a), if_pos (Nat.le_refl (a + 1)),
        List.take_succ_eq_append_getElem (i := a + 1) (by rw [List.length_ofFn]; exact bound),
        parity_append,
        List.getElem_ofFn, Bool.xor_comm]
      show _ = xor _ (xor false (plane x j ⟨a + 1, bound⟩))
      rw [Bool.false_xor]
      rfl
    · rw [Function.update_of_ne here, done]
      have apart : l.val ≠ a + 1 := fun same => here (Fin.ext same)
      by_cases low : l.val ≤ a
      · rw [if_pos low, if_pos (by omega)]
      · rw [if_neg low, if_neg (by omega)]

theorem gray_bit (x : Fin n → UInt32) (j : Nat) (i : Fin n) :
    bit (gray x i) j = parity ((List.ofFn (plane x j)).take (i.val + 1)) := by
  have some : 0 < n := Nat.pos_of_neZero n
  unfold gray
  rw [← List.drop_one]
  apply prefixes_bit x j (n - 1) 0 (by omega)
  intro l
  by_cases first : l.val ≤ 0
  · have zero : l = ⟨0, some⟩ := Fin.ext (Nat.le_zero.mp first)
    subst zero
    rw [if_pos (Nat.le_refl 0), List.take_succ_eq_append_getElem (by rw [List.length_ofFn]; exact some),
      List.take_zero, List.nil_append, List.getElem_ofFn]
    show _ = xor false (plane x j ⟨0, some⟩)
    rw [Bool.false_xor]
    rfl
  · rw [if_neg first]

theorem final_bit (x : Fin n → UInt32) (j : Nat) :
    bit (final (gray x)) j = parity (List.ofFn (plane x j)) := by
  have some : 0 < n := Nat.pos_of_neZero n
  rw [final, gray_bit]
  show parity ((List.ofFn (plane x j)).take (n - 1 + 1)) = _
  rw [List.take_of_length_le (by rw [List.length_ofFn]; omega)]

/-- The last coordinate's bits above a weight, added up without carry. -/
def carry (last : UInt32) : Nat → Nat → Bool
  | 0, _ => false
  | k + 1, j => xor (decide (j < k + 1) && bit last (k + 1)) (carry last k j)

theorem flips_bit (last : UInt32) (k : Nat) (bound : k < 32) (t : UInt32) (j : Nat) :
    bit ((powers k).foldl (fun t q => if last &&& q ≠ 0 then t ^^^ (q - 1) else t) t) j =
      xor (bit t j) (carry last k j) := by
  induction k generalizing t with
  | zero => rw [powers, List.foldl_nil, carry, Bool.xor_false]
  | succ k ih =>
    rw [powers, List.foldl_cons, ih (by omega), carry, ← Bool.xor_assoc]
    apply congrArg (xor · _)
    by_cases set : bit last (k + 1) = true
    · rw [if_pos ((and_power last (k + 1) bound).mpr set), bit_xor, bit_below _ bound, set,
        Bool.and_true]
    · rw [if_neg fun on => set ((and_power last (k + 1) bound).mp on), eq_false_of_ne_true set,
        Bool.and_false, Bool.xor_false]

theorem carry_high (last : UInt32) (k j : Nat) (high : k ≤ j) : carry last k j = false := by
  induction k with
  | zero => rfl
  | succ k ih => rw [carry, ih (by omega), decide_eq_false (by omega), Bool.false_and, Bool.false_xor]

theorem carry_succ (last : UInt32) (k j : Nat) (low : j < k) :
    carry last k j = xor (carry last k (j + 1)) (bit last (j + 1)) := by
  induction k with
  | zero => cases low
  | succ k ih =>
    rw [carry, carry, decide_eq_true low, Bool.true_and]
    by_cases top : j = k
    · subst top
      rw [decide_eq_false (Nat.lt_irrefl _), carry_high last j j (Nat.le_refl _),
        carry_high last j (j + 1) (Nat.le_succ _), Bool.false_and, Bool.xor_false, Bool.xor_false,
        Bool.false_xor]
    · rw [decide_eq_true (by omega), ih (by omega), Bool.true_and, Bool.xor_assoc]

omit [NeZero n] in
/-- What the transform leaves runs through the planes' bits. -/
theorem planes_run (x v : Fin n → UInt32) (c : Nat → Bool) (k : Nat)
    (bits : ∀ j, j ≤ k → ∀ i : Fin n,
      bit (v i) j = xor (c j) (parity ((List.ofFn (plane x j)).take (i.val + 1))))
    (carries : ∀ j, j < k → c j = xor (c (j + 1)) (parity (List.ofFn (plane x (j + 1))))) :
    bitsOf (planesOf v (k + 1)) = run (c k) (bitsOf (planesOf x (k + 1))) := by
  have one (j : Nat) (low : j ≤ k) :
      List.ofFn (plane v j) = run (c j) (List.ofFn (plane x j)) := by
    apply List.ext_getElem
    · rw [run_length, List.length_ofFn, List.length_ofFn]
    · intro i left right
      rw [run_getElem, List.getElem_ofFn]
      exact bits j low ⟨i, by rw [List.length_ofFn] at left; exact left⟩
  have both (y : Fin n → UInt32) (j : Nat) :
      bitsOf (planesOf y (j + 1)) = List.ofFn (plane y j) ++ bitsOf (planesOf y j) := rfl
  induction k with
  | zero =>
    rw [both, both, one 0 (Nat.le_refl 0), run_append]
    rfl
  | succ k ih =>
    have rest := ih (fun j low => bits j (by omega)) (fun j low => carries j (by omega))
      (fun j low => one j (by omega))
    rw [both v (k + 1), both x (k + 1), one (k + 1) (Nat.le_refl _), rest, run_append, carries k (Nat.lt_succ_self k)]

theorem low_bit (v : UInt32) (b : Nat) (bound : b < 32) :
    ((v >>> UInt32.ofNat b) &&& 1).toUInt64.toNat = (bit v b).toNat := by
  have shift : (UInt32.ofNat b).toNat % 32 = b := by
    rw [UInt32.toNat_ofNat_of_lt' (Nat.lt_trans bound (by decide))]
    omega
  rw [UInt32.toNat_toUInt64, UInt32.toNat_and, UInt32.toNat_shiftRight, shift, bit, Nat.toNat_testBit,
    Nat.shiftRight_eq_div_pow]
  exact Nat.and_one_is_mod _

theorem push_toNat (h : UInt64) (v : UInt32) (b : Nat) (bound : b < 32) :
    ((h <<< 1) ||| ((v >>> UInt32.ofNat b) &&& 1).toUInt64).toNat =
      (2 * h.toNat + (bit v b).toNat) % 2 ^ 64 := by
  have digit := (bit v b).toNat_le
  have size := h.toNat_lt
  rw [UInt64.toNat_or, low_bit v b bound, UInt64.toNat_shiftLeft]
  show h.toNat <<< 1 % 2 ^ 64 ||| _ = _
  have even : h.toNat <<< 1 % 2 ^ 64 = (h.toNat % 2 ^ 63) <<< 1 := by
    rw [Nat.shiftLeft_eq, Nat.shiftLeft_eq]
    omega
  rw [even, ← Nat.shiftLeft_add_eq_or_of_lt (by omega), Nat.shiftLeft_eq]
  omega

omit [NeZero n] in
theorem interleave_toNat (x : Fin n → UInt32) (bits : UInt32) (bound : bits.toNat ≤ 32) :
    (interleave x bits).toNat =
      ((bitsOf (planesOf x bits.toNat)).foldl (fun h b => 2 * h + b.toNat) 0) % 2 ^ 64 := by
  have row (b : Nat) (low : b < 32) (axes : List (Fin n)) (h : UInt64) (k : Nat)
      (start : h.toNat = k % 2 ^ 64) :
      (axes.foldl (fun (h : UInt64) i => (h <<< 1) ||| ((x i >>> UInt32.ofNat b) &&& 1).toUInt64) h).toNat =
        ((axes.map (plane x b)).foldl (fun h b => 2 * h + b.toNat) k) % 2 ^ 64 := by
    induction axes generalizing h k with
    | nil => exact start
    | cons i rest ih =>
      rw [List.foldl_cons, List.map_cons, List.foldl_cons]
      apply ih
      rw [push_toNat _ _ b low, start]
      show _ = (2 * k + (bit (x i) b).toNat) % 2 ^ 64
      omega
  have rows (m : Nat) (low : m ≤ 32) (h : UInt64) (k : Nat) (start : h.toNat = k % 2 ^ 64) :
      ((List.range m).reverse.foldl (fun h b => (List.finRange n).foldl
        (fun (h : UInt64) i => (h <<< 1) ||| ((x i >>> UInt32.ofNat b) &&& 1).toUInt64) h) h).toNat =
        ((bitsOf (planesOf x m)).foldl (fun h b => 2 * h + b.toNat) k) % 2 ^ 64 := by
    induction m generalizing h k with
    | zero => exact start
    | succ m ih =>
      rw [List.range_succ, List.reverse_append, List.reverse_singleton, List.singleton_append,
        List.foldl_cons, planesOf, bitsOf, List.flatMap_cons, List.foldl_append, ofFn_eq_map]
      apply ih (by omega)
      exact row m (by omega) _ h k start
  exact rows bits.toNat bound 0 0 rfl

/-- The index is a place on the curve. -/
theorem index_place (x : Fin n → UInt32) (bits : UInt32) (some : 1 ≤ bits.toNat)
    (bound : bits.toNat ≤ 32) (fits : n * bits.toNat ≤ 63) :
    (index x bits).toNat = place false (planesOf x bits.toNat) := by
  obtain ⟨k, top⟩ : ∃ k, bits.toNat = k + 1 := ⟨bits.toNat - 1, by omega⟩
  have low : k < 32 := by omega
  have mask : 1 <<< (bits - 1) = power k := by
    rw [power]
    apply congrArg
    apply UInt32.toNat_inj.mp
    rw [UInt32.toNat_sub_of_le bits 1 (UInt32.le_iff_toNat_le.mpr some),
      UInt32.toNat_ofNat_of_lt' (Nat.lt_trans low (by decide)), top]
    rfl
  simp only [index]
  rw [mask, masks_power k low]
  have walked := powers_walk k low x
  generalize (powers k).foldl level x = y at walked
  have turned : bitsOf (planesOf (fun i => gray y i ^^^ flips (final (gray y)) (power k)) (k + 1)) =
      run false (bitsOf (planesOf y (k + 1))) := by
    rw [← carry_high (final (gray y)) k k (Nat.le_refl k)]
    apply planes_run y _ (carry (final (gray y)) k)
    · intro j _ i
      rw [bit_xor, gray_bit, flips, masks_power k low, flips_bit _ k low, bit_zero, Bool.false_xor,
        Bool.xor_comm]
    · intro j below
      rw [carry_succ _ k j below, final_bit]
  rw [interleave_toNat _ _ bound, top, turned, foldl_run, Nat.zero_mul, Nat.zero_add, walked]
  have less := place_lt false (planesOf x (k + 1))
  rw [planesOf_length] at less
  have wide : 2 ^ (n * (k + 1)) ≤ 2 ^ 63 := Nat.pow_le_pow_right (by omega) (top ▸ fits)
  apply Nat.mod_eq_of_lt
  show place false (planesOf x (k + 1)) < _
  omega

omit [NeZero n] in
theorem coord_planesOf (x : Fin n → UInt32) (k : Nat) (i : Fin n) :
    coord (planesOf x k) i = (x i).toNat % 2 ^ k := by
  induction k with
  | zero => rw [planesOf, coord, Nat.pow_zero, Nat.mod_one]
  | succ k ih =>
    rw [planesOf, coord, ih, planesOf_length, Nat.mod_pow_succ, Nat.add_comm, Nat.mul_comm]
    show _ + _ * ((x i).toNat.testBit k).toNat = _
    rw [Nat.toNat_testBit]

/-- The points with coordinates below a power of two. -/
def points (n bits : Nat) : Set (Fin n → UInt32) := {x | ∀ i, (x i).toNat < 2 ^ bits}

omit [NeZero n] in
theorem coord_point (x : Fin n → UInt32) (bits : Nat) (inside : x ∈ points n bits) :
    coord (planesOf x bits) = fun i => (x i).toNat := by
  funext i
  rw [coord_planesOf, Nat.mod_eq_of_lt (inside i)]

theorem index_injOn (bits : UInt32) (some : 1 ≤ bits.toNat) (bound : bits.toNat ≤ 32)
    (fits : n * bits.toNat ≤ 63) :
    Set.InjOn (fun x : Fin n → UInt32 => (index x bits).toNat) (points n bits.toNat) := by
  intro x inside y inside' same
  have places : place false (planesOf x bits.toNat) = place false (planesOf y bits.toNat) := by
    rw [← index_place x bits some bound fits, ← index_place y bits some bound fits]
    exact same
  have planes := place_injective false _ _
    ((planesOf_length x bits.toNat).trans (planesOf_length y bits.toNat).symm) places
  have coords := coord_point x bits.toNat inside
  rw [planes, coord_point y bits.toNat inside'] at coords
  funext i
  exact UInt32.toNat_inj.mp (congrFun coords i).symm

theorem index_mapsTo (bits : UInt32) (some : 1 ≤ bits.toNat) (bound : bits.toNat ≤ 32)
    (fits : n * bits.toNat ≤ 63) (x : Fin n → UInt32) :
    (index x bits).toNat < 2 ^ (n * bits.toNat) := by
  have less := place_lt false (planesOf x bits.toNat)
  rw [planesOf_length] at less
  rw [index_place x bits some bound fits]
  exact less

/-- There are as many points as numbers, so every number is a point's. -/
theorem index_surjOn (bits : UInt32) (some : 1 ≤ bits.toNat) (bound : bits.toNat ≤ 32)
    (fits : n * bits.toNat ≤ 63) :
    Set.SurjOn (fun x : Fin n → UInt32 => (index x bits).toNat) (points n bits.toNat)
      {k | k < 2 ^ (n * bits.toNat)} := by
  let point (p : Fin n → Fin (2 ^ bits.toNat)) (i : Fin n) : UInt32 := UInt32.ofNat (p i).val
  have wide : 2 ^ bits.toNat ≤ 2 ^ 32 := Nat.pow_le_pow_right (by omega) bound
  have toNat (p : Fin n → Fin (2 ^ bits.toNat)) (i : Fin n) : (point p i).toNat = (p i).val :=
    UInt32.toNat_ofNat_of_lt' (Nat.lt_of_lt_of_le (p i).isLt wide)
  have inside (p : Fin n → Fin (2 ^ bits.toNat)) : point p ∈ points n bits.toNat := by
    intro i
    rw [toNat]
    exact (p i).isLt
  let number (p : Fin n → Fin (2 ^ bits.toNat)) : Fin (2 ^ (n * bits.toNat)) :=
    ⟨(index (point p) bits).toNat, index_mapsTo bits some bound fits (point p)⟩
  have injective : Function.Injective number := by
    intro p p' same
    have numbers : (index (point p) bits).toNat = (index (point p') bits).toNat :=
      Fin.mk.inj same
    have points := index_injOn bits some bound fits (inside p) (inside p') numbers
    funext i
    have coords := congrArg UInt32.toNat (congrFun points i)
    rw [toNat, toNat] at coords
    exact Fin.ext coords
  have sizes : Fintype.card (Fin n → Fin (2 ^ bits.toNat)) = Fintype.card (Fin (2 ^ (n * bits.toNat))) := by
    rw [Fintype.card_fun, Fintype.card_fin, Fintype.card_fin, Fintype.card_fin, ← Nat.pow_mul,
      Nat.mul_comm]
  have bijective := (Fintype.bijective_iff_injective_and_card number).mpr ⟨injective, sizes⟩
  intro k low
  obtain ⟨p, found⟩ := bijective.surjective ⟨k, low⟩
  exact ⟨point p, inside p, congrArg Fin.val found⟩

theorem index_bijOn (bits : UInt32) (some : 1 ≤ bits.toNat) (bound : bits.toNat ≤ 32)
    (fits : n * bits.toNat ≤ 63) :
    Set.BijOn (fun x : Fin n → UInt32 => (index x bits).toNat) (points n bits.toNat)
      {k | k < 2 ^ (n * bits.toNat)} :=
  ⟨fun x _ => index_mapsTo bits some bound fits x, index_injOn bits some bound fits,
    index_surjOn bits some bound fits⟩

/-- Points with consecutive indices are neighbours. -/
theorem index_adjacent (bits : UInt32) (some : 1 ≤ bits.toNat) (bound : bits.toNat ≤ 32)
    (fits : n * bits.toNat ≤ 63) (x y : Fin n → UInt32) (inside : x ∈ points n bits.toNat)
    (inside' : y ∈ points n bits.toNat) (next : (index y bits).toNat = (index x bits).toNat + 1) :
    Adjacent (fun i => (x i).toNat) (fun i => (y i).toNat) := by
  rw [index_place x bits some bound fits, index_place y bits some bound fits] at next
  have near := place_adjacent false _ _
    ((planesOf_length x bits.toNat).trans (planesOf_length y bits.toNat).symm) next
  rw [coord_point x bits.toNat inside, coord_point y bits.toNat inside'] at near
  exact near

end Pondra.Cluster
