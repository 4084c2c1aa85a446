import Mathlib.Algebra.GroupWithZero.Nat
import Mathlib.Data.Fintype.Basic
import Mathlib.Data.List.FinRange
import Mathlib.Logic.Equiv.Basic
import Pondra.Base.Gray

set_option autoImplicit false

/-! ### A Hilbert curve, one plane of bits after another -/

namespace Curves

open Grays

variable {n : Nat} [NeZero n]

/-- One bit of each coordinate. -/
abbrev Plane (n : Nat) := Fin n → Bool

/-- The turn an axis gives the planes below it: where its bit is set the first axis is turned round, else
the two are exchanged. -/
def turn (e : Bool) (i : Fin n) (v : Plane n) : Plane n :=
  if e then Function.update v 0 (!v 0) else fun j => v (Equiv.swap 0 i j)

/-- The turns of a plane's bits, the first axis first. -/
def turns (e : Plane n) (v : Plane n) : Plane n :=
  (List.finRange n).foldl (fun v i => turn (e i) i v) v

/-- The turns undone. -/
def unturn (e : Plane n) (axes : List (Fin n)) (v : Plane n) : Plane n :=
  axes.foldr (fun i v => turn (e i) i v) v

/-- The planes as the turns of those above leave each, the highest first. -/
def walk : (Plane n → Plane n) → List (Plane n) → List (Plane n)
  | _, [] => []
  | f, p :: rest => f p :: walk (fun v => turns (f p) (f v)) rest

/-- The planes' bits, the highest plane first, and of a plane the first axis first. -/
def bitsOf (planes : List (Plane n)) : List Bool := planes.flatMap List.ofFn

/-- The place of a point on the curve. -/
def place (c : Bool) (planes : List (Plane n)) : Nat := rank c (bitsOf (walk id planes))

/-- A coordinate of the point these planes are. -/
def coord : List (Plane n) → Fin n → Nat
  | [], _ => 0
  | p :: rest, i => (p i).toNat * 2 ^ rest.length + coord rest i

/-- Points one apart in one coordinate. -/
def Adjacent (p q : Fin n → Nat) : Prop :=
  ∃ d, (p d + 1 = q d ∨ q d + 1 = p d) ∧ ∀ i, i ≠ d → p i = q i

omit [NeZero n] in
theorem Adjacent.symm {p q : Fin n → Nat} (near : Adjacent p q) : Adjacent q p := by
  obtain ⟨d, one, others⟩ := near
  exact ⟨d, one.symm, fun i apart => (others i apart).symm⟩

@[simp] theorem turn_turn (e : Bool) (i : Fin n) (v : Plane n) : turn e i (turn e i v) = v := by
  cases e with
  | true =>
    funext j
    by_cases first : j = 0
    · subst first
      simp [turn]
    · simp [turn, first]
  | false =>
    funext j
    simp [turn]

theorem unturn_foldl (e : Plane n) (axes : List (Fin n)) (v : Plane n) :
    unturn e axes (axes.foldl (fun v i => turn (e i) i v) v) = v := by
  induction axes generalizing v with
  | nil => rfl
  | cons i rest ih =>
    rw [List.foldl_cons]
    show turn (e i) i (unturn e rest _) = v
    rw [ih, turn_turn]

theorem unturn_turns (e v : Plane n) : unturn e (List.finRange n) (turns e v) = v :=
  unturn_foldl e _ v

theorem turns_injective (e : Plane n) : Function.Injective (turns e) :=
  Function.LeftInverse.injective (unturn_turns e)

theorem walk_comp (f g : Plane n → Plane n) (planes : List (Plane n)) :
    walk (fun v => f (g v)) planes = walk f (planes.map g) := by
  induction planes generalizing f with
  | nil => rfl
  | cons p rest ih =>
    rw [walk, List.map_cons, walk]
    apply congrArg
    exact ih fun v => turns (f (g p)) (f v)

theorem walk_cons (p : Plane n) (rest : List (Plane n)) :
    walk id (p :: rest) = p :: walk id (rest.map (turns p)) := by
  rw [walk]
  apply congrArg
  exact walk_comp id (turns p) rest

@[simp] theorem walk_length (f : Plane n → Plane n) (planes : List (Plane n)) :
    (walk f planes).length = planes.length := by
  induction planes generalizing f with
  | nil => rfl
  | cons p rest ih => rw [walk, List.length_cons, ih, List.length_cons]

theorem walk_injective (f : Plane n → Plane n) (injective : Function.Injective f)
    (planes planes' : List (Plane n)) (same : walk f planes = walk f planes') :
    planes = planes' := by
  induction planes generalizing f planes' with
  | nil =>
    cases planes' with
    | nil => rfl
    | cons p rest => cases same
  | cons p rest ih =>
    cases planes' with
    | nil => cases same
    | cons p' rest' =>
      rw [walk, walk, List.cons.injEq] at same
      have heads := injective same.1
      subst heads
      rw [ih (fun v => turns (f p) (f v)) ((turns_injective (f p)).comp injective) rest' same.2]

omit [NeZero n] in
theorem bitsOf_length (planes : List (Plane n)) : (bitsOf planes).length = n * planes.length := by
  induction planes with
  | nil => rfl
  | cons p rest ih =>
    rw [bitsOf, List.flatMap_cons, List.length_append, List.length_ofFn, List.length_cons,
      Nat.mul_succ, Nat.add_comm]
    exact congrArg (· + n) ih

omit [NeZero n] in
theorem bitsOf_injective (planes planes' : List (Plane n)) (lengths : planes.length = planes'.length)
    (same : bitsOf planes = bitsOf planes') : planes = planes' := by
  induction planes generalizing planes' with
  | nil => exact (List.length_eq_zero_iff.mp lengths.symm).symm
  | cons p rest ih =>
    cases planes' with
    | nil => cases lengths
    | cons p' rest' =>
      unfold bitsOf at same
      rw [List.flatMap_cons, List.flatMap_cons] at same
      obtain ⟨heads, tails⟩ := List.append_inj same (by rw [List.length_ofFn, List.length_ofFn])
      rw [List.ofFn_injective heads, ih rest' (Nat.succ.inj lengths) tails]

theorem place_injective (c : Bool) (planes planes' : List (Plane n))
    (lengths : planes.length = planes'.length) (same : place c planes = place c planes') :
    planes = planes' := by
  apply walk_injective id Function.injective_id
  apply bitsOf_injective
  · rw [walk_length, walk_length, lengths]
  · apply rank_injective c _ _ _ same
    rw [bitsOf_length, bitsOf_length, walk_length, walk_length, lengths]

theorem place_lt (c : Bool) (planes : List (Plane n)) : place c planes < 2 ^ (n * planes.length) := by
  have low := rank_lt c (bitsOf (walk id planes))
  rw [bitsOf_length, walk_length] at low
  exact low

theorem place_not (c : Bool) (planes : List (Plane n)) :
    place (!c) planes + place c planes = 2 ^ (n * planes.length) - 1 := by
  have both := rank_not c (bitsOf (walk id planes))
  rw [bitsOf_length, walk_length] at both
  exact both

theorem place_cons (c : Bool) (p : Plane n) (rest : List (Plane n)) :
    place c (p :: rest) = rank c (List.ofFn p) * 2 ^ (n * rest.length) +
      place (xor c (parity (List.ofFn p))) (rest.map (turns p)) := by
  unfold place
  rw [walk_cons, bitsOf, List.flatMap_cons, rank_append]
  show _ * 2 ^ (bitsOf _).length + _ = _
  rw [bitsOf_length, walk_length, List.length_map]
  rfl

/-! ### Turns keep neighbours -/

omit [NeZero n] in
theorem coord_lt (planes : List (Plane n)) (i : Fin n) : coord planes i < 2 ^ planes.length := by
  induction planes with
  | nil => exact Nat.one_pos
  | cons p rest ih =>
    rw [coord, List.length_cons, Nat.pow_succ]
    have digit := (p i).toNat_le
    have top : (p i).toNat * 2 ^ rest.length ≤ 1 * 2 ^ rest.length := Nat.mul_le_mul_right _ digit
    omega

theorem coord_exchange (i : Fin n) (planes : List (Plane n)) (j : Fin n) :
    coord (planes.map (turn false i)) j = coord planes (Equiv.swap 0 i j) := by
  induction planes with
  | nil => rfl
  | cons p rest ih =>
    rw [List.map_cons, coord, coord, ih, List.length_map]
    rfl

theorem coord_reverse (i : Fin n) (planes : List (Plane n)) (j : Fin n) :
    coord (planes.map (turn true i)) j + (if j = 0 then coord planes 0 else 0) =
      if j = 0 then 2 ^ planes.length - 1 else coord planes j := by
  by_cases first : j = 0
  · subst first
    rw [if_pos rfl, if_pos rfl]
    induction planes with
    | nil => rfl
    | cons p rest ih =>
      rw [List.map_cons, coord, coord, List.length_map, List.length_cons, Nat.pow_succ]
      have flipped : turn true i p 0 = !p 0 := by simp [turn]
      have some : 0 < 2 ^ rest.length := Nat.two_pow_pos _
      rw [flipped]
      cases p 0 with
      | false =>
        rw [Bool.not_false, Bool.toNat_true, Bool.toNat_false]
        omega
      | true =>
        rw [Bool.not_true, Bool.toNat_true, Bool.toNat_false]
        omega
  · rw [if_neg first, if_neg first, Nat.add_zero]
    induction planes with
    | nil => rfl
    | cons p rest ih =>
      rw [List.map_cons, coord, coord, ih, List.length_map]
      have kept : turn true i p j = p j := by simp [turn, first]
      rw [kept]

theorem turn_adjacent (e : Bool) (i : Fin n) (planes planes' : List (Plane n))
    (lengths : planes.length = planes'.length) (near : Adjacent (coord planes) (coord planes')) :
    Adjacent (coord (planes.map (turn e i))) (coord (planes'.map (turn e i))) := by
  obtain ⟨d, one, others⟩ := near
  cases e with
  | false =>
    refine ⟨Equiv.swap 0 i d, ?_, fun j apart => ?_⟩
    · rw [coord_exchange, coord_exchange, Equiv.swap_apply_self]
      exact one
    · rw [coord_exchange, coord_exchange]
      apply others
      intro same
      exact apart (by rw [← same, Equiv.swap_apply_self])
  | true =>
    refine ⟨d, ?_, fun j apart => ?_⟩
    · have here := coord_reverse i planes d
      have here' := coord_reverse i planes' d
      rw [← lengths] at here'
      by_cases first : d = 0
      · subst first
        rw [if_pos rfl, if_pos rfl] at here here'
        have low := coord_lt planes 0
        have low' := coord_lt planes' 0
        rw [← lengths] at low'
        omega
      · rw [if_neg first, if_neg first] at here here'
        omega
    · have here := coord_reverse i planes j
      have here' := coord_reverse i planes' j
      rw [← lengths] at here'
      have same := others j apart
      by_cases first : j = 0
      · subst first
        rw [if_pos rfl, if_pos rfl] at here here'
        omega
      · rw [if_neg first, if_neg first] at here here'
        omega

theorem unturn_adjacent (e : Plane n) (axes : List (Fin n)) (planes planes' : List (Plane n))
    (lengths : planes.length = planes'.length) (near : Adjacent (coord planes) (coord planes')) :
    Adjacent (coord (planes.map (unturn e axes))) (coord (planes'.map (unturn e axes))) := by
  induction axes with
  | nil =>
    rw [show unturn e [] = id from rfl, List.map_id, List.map_id]
    exact near
  | cons i rest ih =>
    have step := turn_adjacent (e i) i (planes.map (unturn e rest)) (planes'.map (unturn e rest))
      (by rw [List.length_map, List.length_map, lengths]) ih
    rw [List.map_map, List.map_map] at step
    exact step

/-! ### From one cell to the next -/

/-- A plane of no bit, and one of the first axis' alone. -/
def none : Plane n := fun _ => false

def only (d : Fin n) : Plane n := Function.update none d true

theorem turn_false_none (i : Fin n) : turn false i (none : Plane n) = none := rfl

theorem turn_true_none (i : Fin n) : turn true i (none : Plane n) = only 0 := rfl

theorem turn_true_only (i : Fin n) : turn true i (only 0 : Plane n) = none := by
  rw [← turn_true_none i, turn_turn]

theorem turn_false_only (i : Fin n) : turn false i (only 0 : Plane n) = only i := by
  funext j
  by_cases here : j = i
  · subst here
    simp [turn, only]
  · by_cases first : j = 0
    · subst first
      have apart : i ≠ 0 := fun same => here same.symm
      simp [turn, only, apart, here, none]
    · simp [turn, only, here, first, none, Equiv.swap_apply_of_ne_of_ne first here]

theorem turns_none : turns (none : Plane n) none = none := by
  unfold turns
  generalize List.finRange n = axes
  induction axes with
  | nil => rfl
  | cons i rest ih => exact ih

/-- The curve starts at the origin. -/
theorem place_none (k : Nat) : place false (List.replicate k (none : Plane n)) = 0 := by
  induction k with
  | zero => rfl
  | succ k ih =>
    have bits : List.ofFn (none : Plane n) = List.replicate n false := List.ofFn_const n false
    rw [List.replicate_succ, place_cons, bits, rank_false_replicate, parity_replicate,
      List.map_replicate, turns_none, Bool.xor_false, ih, Nat.zero_mul]

omit [NeZero n] in
theorem ofFn_eq_map (e : Plane n) : List.ofFn e = (List.finRange n).map e := List.ofFn_eq_map

/-- The axes, the first first. -/
theorem finRange_head : ∃ rest, List.finRange n = (0 : Fin n) :: rest ∧ ∀ i ∈ rest, i ≠ 0 := by
  obtain ⟨m, rfl⟩ := Nat.exists_eq_succ_of_ne_zero (NeZero.ne n)
  refine ⟨_, List.finRange_succ, fun i inside => ?_⟩
  obtain ⟨j, _, rfl⟩ := List.mem_map.mp inside
  exact Fin.succ_ne_zero j

theorem turns_only : turns (only 0 : Plane n) (only 0) = none := by
  obtain ⟨rest, axes, apart⟩ := finRange_head (n := n)
  unfold turns
  rw [axes, List.foldl_cons]
  have here : (only 0 : Plane n) 0 = true := by simp [only]
  rw [here, turn_true_only]
  clear axes
  induction rest with
  | nil => rfl
  | cons i rest ih =>
    have off : (only 0 : Plane n) i = false := by
      simp [only, apart i List.mem_cons_self, none]
    rw [List.foldl_cons, off, turn_false_none]
    exact ih fun j inside => apart j (List.mem_cons_of_mem _ inside)

theorem ofFn_only : List.ofFn (only 0 : Plane n) = crest n := by
  obtain ⟨m, rfl⟩ := Nat.exists_eq_succ_of_ne_zero (NeZero.ne n)
  rw [List.ofFn_succ, crest]
  congr 1
  have off : (fun i : Fin m => (only 0 : Plane (m + 1)) i.succ) = fun _ => false := by
    funext i
    simp [only, Fin.succ_ne_zero, none]
  rw [off, List.ofFn_const]

/-- And it ends at the far end of the first axis. -/
theorem place_only (k : Nat) : place true (List.replicate k (only 0 : Plane n)) = 0 := by
  cases k with
  | zero => rfl
  | succ k =>
    have crests := parity_crest (crest n) (by rw [crest_length])
    have some : crest n ≠ [] := by
      intro empty
      have length := crest_length n
      rw [empty] at length
      exact NeZero.ne n length.symm
    rw [List.replicate_succ, place_cons, ofFn_only, rank_true_crest, crests, decide_eq_true some,
      List.map_replicate, turns_only, Bool.xor_self, place_none, Nat.zero_mul]

omit [NeZero n] in
theorem coord_replicate (k : Nat) (v : Plane n) (i : Fin n) :
    coord (List.replicate k v) i = (v i).toNat * (2 ^ k - 1) := by
  induction k with
  | zero => rfl
  | succ k ih =>
    rw [List.replicate_succ, coord, ih, List.length_replicate, ← Nat.mul_add, Nat.pow_succ]
    have some : 0 < 2 ^ k := Nat.two_pow_pos _
    have sum : 2 ^ k + (2 ^ k - 1) = 2 ^ k * 2 - 1 := by omega
    rw [sum]

theorem turn_update (e : Bool) (i d : Fin n) (apart : i ≠ d) (later : d ≠ 0) (v : Plane n) (x : Bool) :
    turn e i (Function.update v d x) = Function.update (turn e i v) d x := by
  cases e with
  | true =>
    funext j
    by_cases here : j = d
    · subst here
      simp [turn, later]
    · by_cases first : j = 0
      · subst first
        simp [turn, here]
      · simp [turn, here, first]
  | false =>
    funext j
    by_cases here : j = d
    · subst here
      simp [turn, Equiv.swap_apply_of_ne_of_ne later (Ne.symm apart)]
    · have off : Equiv.swap 0 i j ≠ d := by
        intro same
        apply here
        rw [← Equiv.swap_apply_self 0 i j, same, Equiv.swap_apply_of_ne_of_ne later (Ne.symm apart)]
      simp [turn, here, off]

/-- Turns of earlier axes leave an axis as it is. -/
theorem unturn_update (e : Plane n) (axes : List (Fin n)) (d : Fin n) (apart : d ∉ axes)
    (later : axes ≠ [] → d ≠ 0) (v : Plane n) (x : Bool) :
    unturn e axes (Function.update v d x) = Function.update (unturn e axes v) d x := by
  induction axes with
  | nil => rfl
  | cons i rest ih =>
    have first : d ≠ 0 := later (List.cons_ne_nil _ _)
    rw [List.mem_cons, not_or] at apart
    show turn (e i) i (unturn e rest _) = _
    rw [ih apart.2 fun _ => first, turn_update _ i d (Ne.symm apart.1) first]
    rfl

theorem unturn_congr (e e' : Plane n) (axes : List (Fin n)) (same : axes.map e = axes.map e')
    (v : Plane n) : unturn e axes v = unturn e' axes v := by
  induction axes with
  | nil => rfl
  | cons i rest ih =>
    rw [List.map_cons, List.map_cons, List.cons.injEq] at same
    show turn (e i) i (unturn e rest v) = turn (e' i) i (unturn e' rest v)
    rw [ih same.2, same.1]

theorem unturn_none (e : Plane n) (axes : List (Fin n)) (k : Nat)
    (off : axes.map e = List.replicate k false) : unturn e axes none = none := by
  induction axes generalizing k with
  | nil => rfl
  | cons i rest ih =>
    cases k with
    | zero => cases off
    | succ k =>
      rw [List.map_cons, List.replicate_succ, List.cons.injEq] at off
      show turn (e i) i (unturn e rest none) = none
      rw [ih k off.2, off.1, turn_false_none]

/-- The plane the lower ones of a cell all are, where the curve goes on from it. -/
def gate (back : List Bool) : Plane n := if back = [] then only 0 else none

theorem unturn_gate (e : Plane n) (axes : List (Fin n)) (back : List Bool)
    (crests : back = crest back.length) (bits : axes.map e = back) :
    unturn e axes (gate back) = only 0 := by
  cases axes with
  | nil =>
    subst bits
    rfl
  | cons i rest =>
    subst bits
    rw [List.map_cons, List.length_cons, crest, List.cons.injEq] at crests
    have some : gate ((i :: rest).map e) = (none : Plane n) := rfl
    rw [some]
    show turn (e i) i (unturn e rest none) = only 0
    rw [unturn_none e rest _ crests.2, crests.1, turn_true_none]

/-- Where two cells follow one another, the curve's way out of one is beside its way into the next. -/
theorem gates_adjacent (e e' : Plane n) (front : List Bool) (b : Bool) (back : List Bool) (k : Nat)
    (left : List.ofFn e = front ++ b :: back) (right : List.ofFn e' = front ++ (!b) :: back)
    (crests : back = crest back.length) :
    Adjacent
      (coord (e :: List.replicate k (unturn e (List.finRange n) (gate back))))
      (coord (e' :: List.replicate k (unturn e' (List.finRange n) (gate back)))) := by
  rw [ofFn_eq_map, List.map_eq_append_iff] at left
  obtain ⟨first, more, axes, fronts, rests⟩ := left
  obtain ⟨d, last, rfl, here, backs⟩ := List.map_eq_cons_iff.mp rests
  rw [ofFn_eq_map, axes, List.map_append, List.map_cons] at right
  obtain ⟨fronts', rests'⟩ := List.append_inj right (by rw [List.length_map, ← fronts, List.length_map])
  rw [List.cons.injEq] at rests'
  obtain ⟨here', backs'⟩ := rests'
  have nodup := List.nodup_finRange n
  rw [axes, List.nodup_append, List.nodup_cons] at nodup
  obtain ⟨_, ⟨notLast, _⟩, apart⟩ := nodup
  have notFirst : d ∉ first := fun inside => apart d inside d List.mem_cons_self rfl
  have later : first ≠ [] → d ≠ 0 := by
    intro some zero
    obtain ⟨rest, heads, others⟩ := finRange_head (n := n)
    rw [axes] at heads
    cases first with
    | nil => exact some rfl
    | cons i more =>
      rw [List.cons_append, List.cons.injEq] at heads
      exact notFirst (by rw [zero, heads.1]; exact List.mem_cons_self)
  -- the bits that are not the axis' own are the same
  have bits : ∀ i, i ≠ d → e i = e' i := by
    intro i other
    have inside := List.mem_finRange i
    rw [axes, List.mem_append, List.mem_cons] at inside
    rcases inside with inside | same | inside
    · exact List.map_inj_left.mp (fronts.trans fronts'.symm) i inside
    · exact absurd same other
    · exact List.map_inj_left.mp (backs.trans backs'.symm) i inside
  have lower (f : Plane n) (fs : first.map f = first.map e) (bs : last.map f = back) :
      unturn f (List.finRange n) (gate back) =
        if f d then unturn e first none else Function.update (unturn e first none) d true := by
    rw [axes]
    show unturn f (first ++ d :: last) (gate back) = _
    unfold unturn
    rw [List.foldr_append, List.foldr_cons]
    show unturn f first (turn (f d) d (unturn f last (gate back))) = _
    rw [unturn_gate f last back crests bs, unturn_congr f e first fs]
    cases f d with
    | true =>
      rw [turn_true_only]
      rfl
    | false =>
      rw [turn_false_only]
      exact unturn_update e first d notFirst later none true
  have off : unturn e first (none : Plane n) d = false := by
    have kept := unturn_update e first d notFirst later none false
    have still : Function.update (none : Plane n) d false = none := Function.update_eq_self d none
    rw [still] at kept
    rw [kept, Function.update_self]
  rw [lower e rfl backs, lower e' (fronts'.trans fronts.symm) backs', here, here']
  have some : 0 < 2 ^ k := Nat.two_pow_pos _
  refine ⟨d, ?_, fun i other => ?_⟩
  · rw [coord, coord, coord_replicate, coord_replicate, List.length_replicate, List.length_replicate,
      here, here']
    cases b with
    | true =>
      simp [off]
      omega
    | false =>
      simp [off]
      omega
  · rw [coord, coord, coord_replicate, coord_replicate, List.length_replicate, List.length_replicate,
      bits i other]
    cases b with
    | true => simp [other]
    | false => simp [other]

/-- The lower planes of a cell's last place, and of the next one's first. -/
theorem gate_of_place (e : Plane n) (c : Bool) (rest : List (Plane n)) (back : List Bool)
    (carried : c = decide (back = [])) (first : place c (rest.map (turns e)) = 0) :
    rest = List.replicate rest.length (unturn e (List.finRange n) (gate back)) := by
  have turned : rest.map (turns e) = List.replicate rest.length (gate back) := by
    apply place_injective c
    · rw [List.length_map, List.length_replicate]
    · rw [first, carried]
      unfold gate
      split
      · rename_i empty
        rw [decide_eq_true empty, place_only]
      · rename_i some
        rw [decide_eq_false some, place_none]
  calc rest = (rest.map (turns e)).map (unturn e (List.finRange n)) := by
        rw [List.map_map]
        symm
        apply List.map_id''
        exact unturn_turns e
    _ = _ := by rw [turned, List.map_replicate]

/-- Points at places one apart are neighbours. -/
theorem place_adjacent (c : Bool) (planes planes' : List (Plane n))
    (lengths : planes.length = planes'.length) (next : place c planes' = place c planes + 1) :
    Adjacent (coord planes) (coord planes') := by
  generalize depth : planes.length = k at lengths
  induction k generalizing c planes planes' with
  | zero =>
    rw [List.length_eq_zero_iff.mp lengths.symm, List.length_eq_zero_iff.mp depth] at next
    exact absurd next (Nat.ne_of_lt (Nat.lt_succ_self _))
  | succ k ih =>
    cases planes with
    | nil => cases depth
    | cons e rest =>
    cases planes' with
    | nil => cases lengths
    | cons e' rest' =>
      have below : rest.length = k := Nat.succ.inj depth
      have rests : rest.length = rest'.length := below.trans (Nat.succ.inj lengths)
      rw [place_cons, place_cons, ← rests] at next
      have low := place_lt (xor c (parity (List.ofFn e))) (rest.map (turns e))
      have low' := place_lt (xor c (parity (List.ofFn e'))) (rest'.map (turns e'))
      rw [List.length_map] at low low'
      rw [← rests] at low'
      have ofFns : (List.ofFn e).length = (List.ofFn e').length := by
        rw [List.length_ofFn, List.length_ofFn]
      generalize size : 2 ^ (n * rest.length) = N at next low low'
      -- the next place is in the same cell, or the first of the next one
      have cells : rank c (List.ofFn e') = rank c (List.ofFn e) ∨
          rank c (List.ofFn e') = rank c (List.ofFn e) + 1 := by
        have upper : rank c (List.ofFn e') * N < (rank c (List.ofFn e) + 2) * N := by
          rw [Nat.add_mul]
          omega
        have lower : rank c (List.ofFn e) * N < (rank c (List.ofFn e') + 1) * N := by
          rw [Nat.add_mul]
          omega
        have upper := Nat.lt_of_mul_lt_mul_right upper
        have lower := Nat.lt_of_mul_lt_mul_right lower
        omega
      rcases cells with same | step
      · have heads : e = e' := List.ofFn_injective (rank_injective c _ _ ofFns same.symm)
        subst heads
        have near := ih (xor c (parity (List.ofFn e))) (rest.map (turns e)) (rest'.map (turns e))
          (by omega) (by rw [List.length_map, below]) (by rw [List.length_map, ← rests, below])
        have back := unturn_adjacent e (List.finRange n) _ _
          (by rw [List.length_map, List.length_map, rests]) near
        have undone (planes : List (Plane n)) :
            (planes.map (turns e)).map (unturn e (List.finRange n)) = planes := by
          rw [List.map_map]
          exact List.map_id'' (unturn_turns e) planes
        rw [undone, undone] at back
        obtain ⟨d, one, others⟩ := back
        refine ⟨d, ?_, fun i apart => ?_⟩
        · rw [coord, coord, ← rests]
          omega
        · rw [coord, coord, ← rests, others i apart]
      · rw [step, Nat.add_mul, Nat.one_mul] at next
        obtain ⟨front, b, back, left, right, crests, here, after⟩ := rank_next c _ _ ofFns step
        have last := place_not (xor c (parity (List.ofFn e))) (rest.map (turns e))
        rw [List.length_map, size] at last
        have out := gate_of_place e (!(xor c (parity (List.ofFn e)))) rest back
          (by simp only [here, ne_eq, decide_not, Bool.not_not]) (by omega)
        have into := gate_of_place e' (xor c (parity (List.ofFn e'))) rest' back after (by omega)
        rw [out, into, ← rests]
        exact gates_adjacent e e' front b back rest.length left right crests

end Curves
