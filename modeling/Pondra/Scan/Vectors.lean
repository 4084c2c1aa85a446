import Mathlib.Data.List.Sort
import Pondra.Base.Radix
import Pondra.Scan.Roaring

set_option autoImplicit false

namespace Pondra.Scan

open Bytes Radix Roaring

/-! ### Positions as a deletion vector -/

/-- The positions by their high half, then by their next 16 bits. -/
def byHigh (positions : List Nat) : List (Nat × List (Nat × List Nat)) :=
  positions.foldl (fun map p =>
    entry ((p >>> 32) % 2 ^ 32) (fun containers =>
      entry ((p >>> 16) % 2 ^ 16) (fun lows => lows.getD [] ++ [p % 2 ^ 16])
        (containers.getD [])) map) []

/-- 1,024 words with a bit for each low. -/
def words (lows : List Nat) : List Nat :=
  lows.foldl (fun words l => words.modify (l / 64) (· ||| 1 <<< (l % 64))) (List.replicate 1024 0)

def containerBytes (lows : List Nat) : List UInt8 :=
  if 4096 < lows.length then (words lows).flatMap (toLe 8) else lows.flatMap (toLe 2)

def containerOffsets : Nat → List (Nat × List Nat) → List UInt8
  | _, [] => []
  | at_, c :: rest =>
    toLe 4 (at_ % 2 ^ 32) ++
      containerOffsets (at_ + if 4096 < c.2.length then 8192 else 2 * c.2.length) rest

/-- The bitmap of one high half: no run containers. -/
def halfBytes (containers : List (Nat × List Nat)) : List UInt8 :=
  toLe 4 12346 ++ toLe 4 (containers.length % 2 ^ 32) ++
    (containers.flatMap fun c => toLe 2 c.1 ++ toLe 2 ((c.2.length - 1) % 2 ^ 16)) ++
    containerOffsets (8 + 8 * containers.length) containers ++
    (containers.flatMap fun c => containerBytes c.2)

/-- Positions as Delta's deletion vector. -/
def roaringBytes (positions : List Nat) : List UInt8 :=
  toLe 4 1681511377 ++ toLe 8 (byHigh positions).length ++
    (byHigh positions).flatMap fun half => toLe 4 half.1 ++ halfBytes half.2

/-- `n` bitmaps from a place on, each under its high half. -/
def halves (b : List UInt8) : Nat → Nat → Except String (List Nat)
  | 0, _ => .ok []
  | n + 1, at_ =>
    match leAt 4 b at_ with
    | none => .error "a deletion vector cut short"
    | some high => do
      let low ← roaring (b.drop (at_ + 4))
      let rest ← halves b n (at_ + (4 + low.2))
      .ok (low.1.map (high <<< 32 ||| ·) ++ rest)

/-- A deletion vector's positions. -/
def roaringArray (b : List UInt8) : Except String (List Nat) :=
  if b.length < 12 then .error ("a deletion vector of " ++ toString b.length ++ " bytes")
  else if ofLe (b.take 4) ≠ 1681511377 then
    .error "not a deletion vector (its magic number)"
  else do
    let out ← halves b (ofLe ((b.drop 4).take 8)) 12
    .ok (out.mergeSort fun a c => decide (a ≤ c))

/-! ### The positions by their halves -/

def GoodLows (lows : List Nat) : Prop :=
  lows ≠ [] ∧ lows.Pairwise (· < ·) ∧ ∀ l ∈ lows, l < 2 ^ 16

def GoodContainers (containers : List (Nat × List Nat)) : Prop :=
  Ordered GoodLows containers ∧ containers ≠ [] ∧ ∀ c ∈ containers, c.1 < 2 ^ 16

/-- The 32-bit values of containers. -/
def lowsOf (containers : List (Nat × List Nat)) : List Nat := flat (2 ^ 16) id containers

def pushLow (low : Nat) (lows : Option (List Nat)) : List Nat := lows.getD [] ++ [low]

def pushContainer (low : Nat) (containers : Option (List (Nat × List Nat))) :
    List (Nat × List Nat) :=
  entry (low / 2 ^ 16) (pushLow (low % 2 ^ 16)) (containers.getD [])

theorem pushLow_pushes : Pushes (2 ^ 16) id GoodLows pushLow where
  fresh low small := by
    refine ⟨⟨List.cons_ne_nil _ _, List.pairwise_singleton _ _, fun l inside => ?_⟩, rfl⟩
    rw [List.mem_singleton.mp inside]
    exact small
  more low lows small good past := by
    obtain ⟨_, order, bound⟩ := good
    refine ⟨⟨?_, ?_, fun l inside => ?_⟩, rfl⟩
    · exact List.append_ne_nil_of_right_ne_nil _ (List.cons_ne_nil _ _)
    · apply List.pairwise_append.mpr
      refine ⟨order, List.pairwise_singleton _ _, fun x inside y here => ?_⟩
      rw [List.mem_singleton.mp here]
      exact past x inside
    · rcases List.mem_append.mp inside with before | here
      · exact bound l before
      · rw [List.mem_singleton.mp here]
        exact small
  some_ lows good := good.1

theorem lowsOf_ne_nil (containers : List (Nat × List Nat)) (good : GoodContainers containers) :
    lowsOf containers ≠ [] := by
  obtain ⟨ordered, some_, _⟩ := good
  obtain ⟨c, inside⟩ := List.exists_mem_of_ne_nil _ some_
  obtain ⟨l, held⟩ := List.exists_mem_of_ne_nil _ (ordered.each c inside).1
  exact List.ne_nil_of_mem (List.mem_flatMap.mpr ⟨c, inside, List.mem_map_of_mem held⟩)

theorem pushContainer_good (containers : List (Nat × List Nat)) (low : Nat)
    (ordered : Ordered GoodLows containers) (keys : ∀ c ∈ containers, c.1 < 2 ^ 16)
    (small : low < 2 ^ 32) (past : ∀ x ∈ lowsOf containers, x < low) :
    GoodContainers (pushContainer low (some containers)) ∧
      lowsOf (pushContainer low (some containers)) = lowsOf containers ++ [low] := by
  obtain ⟨ordered', values, from_⟩ :=
    entry_flat pushLow_pushes containers ordered low (by decide) past
  refine ⟨⟨ordered', ?_, fun c inside => ?_⟩, values⟩
  · intro none_
    have empty : lowsOf (pushContainer low (some containers)) = [] := by rw [none_]; rfl
    rw [show lowsOf (pushContainer low (some containers)) = _ from values] at empty
    exact absurd empty (List.append_ne_nil_of_right_ne_nil _ (List.cons_ne_nil _ _))
  · rcases from_ c inside with here | ⟨v, before⟩
    · rw [here]
      exact Nat.div_lt_of_lt_mul small
    · exact keys (c.1, v) before

theorem pushContainer_pushes : Pushes (2 ^ 32) lowsOf GoodContainers pushContainer where
  fresh low small := pushContainer_good [] low
    ⟨List.Pairwise.nil, fun _ inside => absurd inside List.not_mem_nil⟩
    (fun _ inside => absurd inside List.not_mem_nil) small
    fun _ inside => absurd inside List.not_mem_nil
  more low containers small good past :=
    pushContainer_good containers low good.1 good.2.2 small past
  some_ := lowsOf_ne_nil

/-- The positions, kept by their halves, are the positions. -/
theorem byHigh_flat (positions : List Nat) (order : positions.Pairwise (· < ·))
    (small : ∀ p ∈ positions, p < 2 ^ 64) :
    Ordered GoodContainers (byHigh positions) ∧
      flat (2 ^ 32) lowsOf (byHigh positions) = positions ∧
      ∀ half ∈ byHigh positions, half.1 < 2 ^ 32 := by
  have from_ : ∀ (todo done : List Nat) (map : List (Nat × List (Nat × List Nat))),
      Ordered GoodContainers map → flat (2 ^ 32) lowsOf map = done →
      (∀ half ∈ map, half.1 < 2 ^ 32) → (done ++ todo).Pairwise (· < ·) →
      (∀ p ∈ todo, p < 2 ^ 64) →
      Ordered GoodContainers (todo.foldl (fun map p =>
        entry ((p >>> 32) % 2 ^ 32) (fun containers =>
          entry ((p >>> 16) % 2 ^ 16) (fun lows => lows.getD [] ++ [p % 2 ^ 16])
            (containers.getD [])) map) map) ∧
        flat (2 ^ 32) lowsOf (todo.foldl (fun map p =>
          entry ((p >>> 32) % 2 ^ 32) (fun containers =>
            entry ((p >>> 16) % 2 ^ 16) (fun lows => lows.getD [] ++ [p % 2 ^ 16])
              (containers.getD [])) map) map) = done ++ todo ∧
        ∀ half ∈ todo.foldl (fun map p =>
          entry ((p >>> 32) % 2 ^ 32) (fun containers =>
            entry ((p >>> 16) % 2 ^ 16) (fun lows => lows.getD [] ++ [p % 2 ^ 16])
              (containers.getD [])) map) map, half.1 < 2 ^ 32 := by
    intro todo
    induction todo with
    | nil =>
      intro done map ordered values keys _ _
      rw [List.append_nil]
      exact ⟨ordered, values, keys⟩
    | cons p todo ih =>
      intro done map ordered values keys order small
      have fits := small p List.mem_cons_self
      have split_ : done ++ p :: todo = (done ++ [p]) ++ todo := by
        rw [List.append_assoc, List.singleton_append]
      have past : ∀ x ∈ flat (2 ^ 32) lowsOf map, x < p := by
        intro x inside
        rw [values] at inside
        exact (List.pairwise_append.mp order).2.2 x inside p List.mem_cons_self
      obtain ⟨ordered', values', from_⟩ :=
        entry_flat pushContainer_pushes map ordered p (by decide) past
      have half_lt : p / 2 ^ 32 < 2 ^ 32 := by omega
      have high : (p >>> 32) % 2 ^ 32 = p / 2 ^ 32 := by
        rw [Nat.shiftRight_eq_div_pow, Nat.mod_eq_of_lt half_lt]
      have middle : (p >>> 16) % 2 ^ 16 = p % 2 ^ 32 / 2 ^ 16 := by
        rw [Nat.shiftRight_eq_div_pow]
        omega
      have low : p % 2 ^ 16 = p % 2 ^ 32 % 2 ^ 16 := by omega
      rw [List.foldl_cons, split_]
      rw [split_] at order
      apply ih
      · rw [high, middle, low]
        exact ordered'
      · rw [high, middle, low, ← values]
        exact values'
      · rw [high, middle, low]
        intro half inside
        rcases from_ half inside with here | ⟨v, before⟩
        · rw [here]
          exact half_lt
        · exact keys (half.1, v) before
      · exact order
      · exact fun q inside => small q (List.mem_cons_of_mem _ inside)
  exact from_ positions [] [] ⟨List.Pairwise.nil, fun _ inside => absurd inside List.not_mem_nil⟩
    rfl (fun _ inside => absurd inside List.not_mem_nil) order small

/-! ### A half's bitmap -/

theorem foldl_modify (lows start : List Nat) (small : ∀ l ∈ lows, l < 64 * start.length) :
    (lows.foldl (fun words l => words.modify (l / 64) (· ||| 1 <<< (l % 64))) start).length =
        start.length ∧
      ∀ v, ((lows.foldl (fun words l => words.modify (l / 64) (· ||| 1 <<< (l % 64)))
        start).getD (v / 64) 0).testBit (v % 64) = true ↔
          (start.getD (v / 64) 0).testBit (v % 64) = true ∨ v ∈ lows := by
  induction lows generalizing start with
  | nil => simp
  | cons l lows ih =>
    have here := small l List.mem_cons_self
    obtain ⟨length, bits⟩ := ih (start.modify (l / 64) (· ||| 1 <<< (l % 64))) (fun m inside => by
      rw [List.length_modify]
      exact small m (List.mem_cons_of_mem _ inside))
    rw [List.length_modify] at length
    rw [List.foldl_cons]
    refine ⟨length, fun v => ?_⟩
    rw [bits v, List.mem_cons]
    have one : ((start.modify (l / 64) (· ||| 1 <<< (l % 64))).getD (v / 64) 0).testBit (v % 64) =
        true ↔ (start.getD (v / 64) 0).testBit (v % 64) = true ∨ v = l := by
      rw [List.getD_eq_getElem?_getD, List.getD_eq_getElem?_getD, List.getElem?_modify]
      by_cases word : l / 64 = v / 64
      · have inside : v / 64 < start.length := by omega
        rw [List.getElem?_eq_getElem inside]
        simp only [word, ↓reduceIte, Option.map_eq_map, Option.map_some, Option.getD_some, Nat.testBit_or,
          Nat.one_shiftLeft, Nat.testBit_two_pow, Bool.or_eq_true, decide_eq_true_eq]
        have same : l % 64 = v % 64 ↔ v = l := by omega
        rw [same]
      · have other : v ≠ l := fun same => word (by rw [same])
        cases start[v / 64]? with
        | none => simp only [word, ↓reduceIte, Option.map_eq_map, Option.map_none, other, or_false]
        | some before =>
          simp only [word, ↓reduceIte, Option.map_eq_map, Option.map_some, other, or_false]
    rw [one, or_assoc]

theorem words_small (lows start : List Nat) (small : ∀ word ∈ start, word < 2 ^ 64) :
    ∀ word ∈ lows.foldl (fun words l => words.modify (l / 64) (· ||| 1 <<< (l % 64))) start,
      word < 2 ^ 64 := by
  induction lows generalizing start with
  | nil => exact small
  | cons l lows ih =>
    apply ih
    intro word inside
    obtain ⟨i, found⟩ := List.getElem?_of_mem inside
    rw [List.getElem?_modify] at found
    cases old : start[i]? with
    | none => rw [old] at found; simp at found
    | some before =>
      have fits := small before (List.mem_of_getElem? old)
      have bit : 2 ^ (l % 64) < 2 ^ 64 :=
        Nat.pow_lt_pow_right (by decide) (Nat.mod_lt l (by decide))
      rw [old] at found
      by_cases here : l / 64 = i
      · simp only [here, ↓reduceIte, Option.map_eq_map, Option.map_some, Option.some.injEq] at found
        rw [← found, Nat.one_shiftLeft]
        exact Nat.or_lt_two_pow fits bit
      · simp only [here, ↓reduceIte, Option.map_eq_map, Option.map_some, Option.some.injEq] at found
        rw [← found]
        exact fits

theorem words_bits (lows : List Nat) (good : GoodLows lows) :
    (words lows).length = 1024 ∧ (∀ word ∈ words lows, word < 2 ^ 64) ∧
      bitsOf (words lows) = lows := by
  obtain ⟨_, order, small⟩ := good
  obtain ⟨length, bits⟩ := foldl_modify lows (List.replicate 1024 0) fun l inside => by
    rw [List.length_replicate]
    exact small l inside
  refine ⟨by rw [words, length, List.length_replicate], ?_, ?_⟩
  · apply words_small
    intro word inside
    rw [List.eq_of_mem_replicate inside]
    decide
  · apply List.Pairwise.eq_of_mem_iff (bitsOf_order _) order
    intro v
    rw [mem_bitsOf, words, bits v]
    constructor
    · rintro (zero | inside)
      · exfalso
        rw [List.getD_eq_getElem?_getD, List.getElem?_replicate] at zero
        split at zero
        · simp at zero
        · simp at zero
      · exact inside
    · exact Or.inr

def containerOf (lows : List Nat) : Container :=
  if 4096 < lows.length then .bitmap (words lows) else .array lows

def bitmapOf (containers : List (Nat × List Nat)) : Bitmap :=
  { marked := false, containers := containers.map fun c => (c.1, containerOf c.2) }

theorem containerOf_values (lows : List Nat) (good : GoodLows lows) :
    (containerOf lows).values = lows := by
  unfold containerOf
  split
  · exact (words_bits lows good).2.2
  · rfl

theorem containerOf_wellFormed (lows : List Nat) (good : GoodLows lows) :
    (containerOf lows).WellFormed where
  some_ := by
    rw [containerOf_values lows good]
    exact List.length_pos_of_ne_nil good.1
  order := by
    rw [containerOf_values lows good]
    exact good.2.1
  low := by
    rw [containerOf_values lows good]
    exact good.2.2
  array held same := by
    unfold containerOf at same
    split at same
    · cases same
    · rename_i few
      cases same
      exact Nat.not_lt.mp few
  bitmap held same := by
    have values := containerOf_values lows good
    unfold containerOf at same values ⊢
    split at same
    · rename_i many
      cases same
      obtain ⟨length, small, bits⟩ := words_bits lows good
      rw [if_pos many] at values ⊢
      rw [values]
      exact ⟨length, small, many⟩
    · cases same
  runs held same := by
    unfold containerOf at same
    split at same <;> cases same

theorem containerOf_bytes (lows : List Nat) : (containerOf lows).bytes = containerBytes lows := by
  unfold containerOf containerBytes
  split
  · rfl
  · rfl

theorem bitmapOf_wellFormed (containers : List (Nat × List Nat))
    (good : GoodContainers containers) : (bitmapOf containers).WellFormed where
  keys := by
    rw [bitmapOf, List.map_map]
    exact good.1.order
  small c inside := by
    obtain ⟨d, listed, rfl⟩ := List.mem_map.mp inside
    exact good.2.2 d listed
  each c inside := by
    obtain ⟨d, listed, rfl⟩ := List.mem_map.mp inside
    exact containerOf_wellFormed d.2 (good.1.each d listed)
  some_ marked := by cases marked
  unmarked _ c inside := by
    obtain ⟨d, listed, rfl⟩ := List.mem_map.mp inside
    unfold containerOf
    split
    · rfl
    · rfl

theorem bitmapOf_values (containers : List (Nat × List Nat)) (good : GoodContainers containers) :
    (bitmapOf containers).values = lowsOf containers := by
  rw [Bitmap.values, bitmapOf, List.flatMap_map, lowsOf, flat]
  apply List.flatMap_congr
  intro c inside
  rw [containerOf_values c.2 (good.1.each c inside)]
  rfl

theorem toLe_mod (width n : Nat) : toLe width (n % 256 ^ width) = toLe width n := by
  induction width generalizing n with
  | zero => rfl
  | succ width ih =>
    rw [toLe, toLe, Nat.pow_succ', Nat.mod_mul_right_mod, Nat.mod_mul_right_div_self, ih]

theorem offsets_eq (at_ : Nat) (containers : List (Nat × List Nat))
    (good : ∀ c ∈ containers, GoodLows c.2) :
    containerOffsets at_ containers =
      offsets at_ (containers.map fun c => (c.1, containerOf c.2)) := by
  induction containers generalizing at_ with
  | nil => rfl
  | cons c rest ih =>
    have length : (containerOf c.2).bytes.length =
        if 4096 < c.2.length then 8192 else 2 * c.2.length := by
      unfold containerOf
      split
      · rw [Container.bytes, length_flatMap_wide (toLe 8) 8 (length_toLe 8),
          (words_bits c.2 (good c List.mem_cons_self)).1]
      · rw [Container.bytes, length_flatMap_wide (toLe 2) 2 (length_toLe 2)]
    rw [containerOffsets, List.map_cons, offsets, length,
      ih _ fun d inside => good d (List.mem_cons_of_mem _ inside)]
    rw [show (2 : Nat) ^ 32 = 256 ^ 4 by rfl, toLe_mod]

/-- What is written of a high half is its portable bitmap. -/
theorem halfBytes_eq (containers : List (Nat × List Nat)) (good : GoodContainers containers) :
    halfBytes containers = (bitmapOf containers).bytes := by
  have headers_eq : (containers.flatMap fun c =>
      toLe 2 c.1 ++ toLe 2 ((c.2.length - 1) % 2 ^ 16)) =
      headers (containers.map fun c => (c.1, containerOf c.2)) := by
    rw [headers, List.flatMap_map]
    apply List.flatMap_congr
    intro c inside
    rw [containerOf_values c.2 (good.1.each c inside), show (2 : Nat) ^ 16 = 256 ^ 2 by rfl, toLe_mod]
  have bodies_eq : (containers.flatMap fun c => containerBytes c.2) =
      bodies (containers.map fun c => (c.1, containerOf c.2)) := by
    rw [bodies, List.flatMap_map]
    apply List.flatMap_congr
    intro c _
    exact (containerOf_bytes c.2).symm
  have count : toLe 4 (containers.length % 2 ^ 32) = toLe 4 containers.length :=
    toLe_mod 4 containers.length
  rw [halfBytes, headers_eq, bodies_eq, offsets_eq _ _ good.1.each, count, Bitmap.bytes, bitmapOf]
  simp only [Bool.false_eq_true, ↓reduceIte, List.length_map]

/-! ### Back to the positions -/

theorem halves_read (b before after : List UInt8) (map : List (Nat × List (Nat × List Nat)))
    (good : ∀ half ∈ map, GoodContainers half.2) (small : ∀ half ∈ map, half.1 < 2 ^ 32)
    (split_ : b = before ++ ((map.flatMap fun half => toLe 4 half.1 ++ halfBytes half.2) ++ after)) :
    halves b map.length before.length = .ok (flat (2 ^ 32) lowsOf map) := by
  induction map generalizing before with
  | nil => rfl
  | cons half map ih =>
    have here := good half List.mem_cons_self
    have bytes := halfBytes_eq half.2 here
    rw [List.flatMap_cons, List.append_assoc, List.append_assoc] at split_
    have high := leAt_of b before _ 4 before.length half.1 split_ rfl (small half List.mem_cons_self)
    have dropped : b.drop (before.length + 4) = (bitmapOf half.2).bytes ++
        ((map.flatMap fun half => toLe 4 half.1 ++ halfBytes half.2) ++ after) := by
      rw [split_, ← bytes, ← List.append_assoc]
      exact List.drop_left' (by rw [List.length_append, length_toLe])
    have low := roaring_read (bitmapOf half.2) (bitmapOf_wellFormed half.2 here)
      ((map.flatMap fun half => toLe 4 half.1 ++ halfBytes half.2) ++ after)
    rw [← dropped, bitmapOf_values half.2 here] at low
    have rest := ih (before ++ (toLe 4 half.1 ++ halfBytes half.2))
      (fun h inside => good h (List.mem_cons_of_mem _ inside))
      (fun h inside => small h (List.mem_cons_of_mem _ inside))
      (by rw [split_]; simp only [List.append_assoc])
    rw [List.length_append, List.length_append, length_toLe, bytes] at rest
    have above : (lowsOf half.2).map (half.1 <<< 32 ||| ·) =
        (lowsOf half.2).map (half.1 * 2 ^ 32 + ·) := by
      apply List.map_congr_left
      intro v inside
      obtain ⟨c, listed, held⟩ := List.mem_flatMap.mp inside
      obtain ⟨l, low_, rfl⟩ := List.mem_map.mp held
      have key := here.2.2 c listed
      have digit := (here.1.each c listed).2.2 l low_
      rw [← Nat.shiftLeft_add_eq_or_of_lt (by omega), Nat.shiftLeft_eq]
    simp only [List.length_cons, halves, high, low, rest, bind, Except.bind, above, flat,
      List.flatMap_cons]

/-- Positions in order are read back from the vector they are written as. -/
theorem roaringArray_roaringBytes (positions : List Nat) (order : positions.Pairwise (· < ·))
    (small : ∀ p ∈ positions, p < 2 ^ 64) :
    roaringArray (roaringBytes positions) = .ok positions := by
  obtain ⟨ordered, values, keys⟩ := byHigh_flat positions order small
  have few : (byHigh positions).length < 2 ^ 64 := by
    have most := length_le ((byHigh positions).map Prod.fst) ordered.order 0 (2 ^ 32)
      (fun key inside => by
        obtain ⟨half, listed, same⟩ := List.mem_map.mp inside
        exact ⟨Nat.zero_le key, same ▸ keys half listed⟩) (Nat.zero_le _)
    rw [List.length_map] at most
    omega
  have long : ¬ (roaringBytes positions).length < 12 := by
    rw [roaringBytes, List.length_append, List.length_append, length_toLe, length_toLe]
    omega
  have magic : (roaringBytes positions).take 4 = toLe 4 1681511377 := by
    rw [roaringBytes, List.append_assoc, List.take_left' (length_toLe _ _)]
  have count : ((roaringBytes positions).drop 4).take 8 = toLe 8 (byHigh positions).length := by
    rw [roaringBytes, List.append_assoc, List.drop_left' (length_toLe _ _),
      List.take_left' (length_toLe _ _)]
  have read := halves_read (roaringBytes positions)
    (toLe 4 1681511377 ++ toLe 8 (byHigh positions).length) [] (byHigh positions) ordered.each keys
    (by rw [List.append_nil]; rfl)
  rw [List.length_append, length_toLe, length_toLe, values] at read
  have sorted : positions.mergeSort (fun a c => decide (a ≤ c)) = positions := by
    apply List.mergeSort_of_pairwise
    exact order.imp fun less => decide_eq_true (Nat.le_of_lt less)
  rw [roaringArray, if_neg long, magic, count, ofLe_toLe 4 _ (by decide), ofLe_toLe 8 _ few]
  simp only [ne_eq, not_true_eq_false, ↓reduceIte, read, bind, Except.bind, sorted]

end Pondra.Scan
