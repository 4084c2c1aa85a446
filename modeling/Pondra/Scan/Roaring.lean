import Mathlib.Data.Nat.Bitwise
import Pondra.Base.Roaring

set_option autoImplicit false

namespace Pondra.Scan

open Bytes Roaring

/-! ### A standard 32-bit roaring bitmap, read -/

def u16s (b : List UInt8) (at_ : Nat) : Except String Nat :=
  match leAt 2 b at_ with
  | some n => .ok n
  | none => .error "a bitmap cut short"

def u32s (b : List UInt8) (at_ : Nat) : Except String Nat :=
  match leAt 4 b at_ with
  | some n => .ok n
  | none => .error "a bitmap cut short"

def u64s (b : List UInt8) (at_ : Nat) : Except String Nat :=
  match leAt 8 b at_ with
  | some n => .ok n
  | none => .error "a bitmap cut short"

/-- The run `r` of the runs at `at_`: its start, and how many come after it. -/
def runAt (b : List UInt8) (at_ r : Nat) : Except String (Nat × Nat) := do
  let start ← u16s b (at_ + 2 + 4 * r)
  let len ← u16s b (at_ + 4 + 4 * r)
  .ok (start, len)

/-- A container's values above `base`, and where it ends. -/
def container (b : List UInt8) (run : Bool) (base card at_ : Nat) :
    Except String (List Nat × Nat) :=
  if run then do
    let n ← u16s b at_
    let runs ← collect (runAt b at_) 0 n
    .ok (runs.flatMap fun run => (List.range' run.1 (run.2 + 1)).map (base ||| ·),
      at_ + 2 + 4 * n)
  else if 4096 < card then do
    let words ← collect (fun w => u64s b (at_ + 8 * w)) 0 1024
    .ok (words.zipIdx.flatMap fun word =>
        ((List.range 64).filter fun bit => decide (word.1 &&& (1 <<< bit) ≠ 0)).map
          fun bit => base ||| (word.2 * 64 + bit),
      at_ + 8192)
  else do
    let lows ← collect (fun j => u16s b (at_ + 2 * j)) 0 card
    .ok (lows.map (base ||| ·), at_ + 2 * card)

/-- The containers of headers (a high half and a count of values), from the `i`-th on. -/
def containers (b : List UInt8) (isRun : Nat → Bool) :
    Nat → List (Nat × Nat) → Nat → Except String (List Nat × Nat)
  | _, [], at_ => .ok ([], at_)
  | i, header :: headers, at_ => do
    let first ← container b (isRun i) (header.1 <<< 16) header.2 at_
    let rest ← containers b isRun (i + 1) headers first.2
    .ok (first.1 ++ rest.1, rest.2)

/-- The headers, and past them. -/
def headersAt (b : List UInt8) (count at_ : Nat) : Except String (List (Nat × Nat)) :=
  collect (fun i => do
    let key ← u16s b (at_ + 4 * i)
    let card ← u16s b (at_ + 4 * i + 2)
    .ok (key, card + 1)) 0 count

/-- The values of a bitmap of `count` containers whose headers are at `at_`. -/
def body (b : List UInt8) (count : Nat) (runs : Option (List UInt8)) (at_ : Nat) :
    Except String (List Nat × Nat) := do
  let headers ← headersAt b count at_
  let isRun := fun i => runs.any fun f =>
    decide ((f.getD (i / 8) 0).toNat &&& (1 <<< (i % 8)) ≠ 0)
  -- (offsets to each container: not needed reading them in order)
  let skipped := if runs.isNone || decide (4 ≤ count) then 4 * count else 0
  containers b isRun 0 headers (at_ + 4 * count + skipped)

/-- Its values, and its length. -/
def roaring (b : List UInt8) : Except String (List Nat × Nat) := do
  let cookie ← u32s b 0
  if cookie &&& 0xFFFF = 12347 then
    let count := (cookie >>> 16) + 1
    match slice b 4 ((count + 7) / 8) with
    | none => .error "a bitmap cut short"
    | some flags => body b count (some flags) (4 + (count + 7) / 8)
  else if cookie = 12346 then do
    let count ← u32s b 4
    body b count none 8
  else .error ("not a roaring bitmap (cookie " ++ toString cookie ++ ")")

/-! ### What it reads of a well-formed one -/

theorem u16s_of (b before after : List UInt8) (at_ n : Nat)
    (split_ : b = before ++ (toLe 2 n ++ after)) (place : before.length = at_)
    (fits : n < 2 ^ 16) : u16s b at_ = .ok n := by
  rw [u16s, leAt_of b before after 2 at_ n split_ place fits]

theorem u32s_of (b before after : List UInt8) (at_ n : Nat)
    (split_ : b = before ++ (toLe 4 n ++ after)) (place : before.length = at_)
    (fits : n < 2 ^ 32) : u32s b at_ = .ok n := by
  rw [u32s, leAt_of b before after 4 at_ n split_ place fits]

theorem bit_ne_zero (word bit : Nat) : decide (word &&& (1 <<< bit) ≠ 0) = word.testBit bit := by
  rw [Nat.one_shiftLeft, Nat.and_two_pow]
  cases word.testBit bit with
  | true => simp
  | false => simp

theorem or_low (key low : Nat) (small : low < 2 ^ 16) :
    key <<< 16 ||| low = key * 2 ^ 16 + low := by
  rw [← Nat.shiftLeft_add_eq_or_of_lt small, Nat.shiftLeft_eq]

/-- One container, among the others. -/
theorem container_read (b before after : List UInt8) (key : Nat) (c : Container)
    (good : c.WellFormed) (split_ : b = before ++ (c.bytes ++ after)) :
    container b c.isRun (key <<< 16) c.values.length before.length =
      .ok (c.values.map (key * 2 ^ 16 + ·), before.length + c.bytes.length) := by
  have moved : c.values.map (key <<< 16 ||| ·) = c.values.map (key * 2 ^ 16 + ·) :=
    List.map_congr_left fun v inside => or_low key v (good.low v inside)
  cases c with
  | array lows =>
    have few := good.array lows rfl
    have read : collect (fun j => u16s b (before.length + 2 * j)) 0 lows.length = .ok lows := by
      apply collect_all
      intro j low here
      have small := good.low low (List.mem_of_getElem? here)
      rw [u16s, Nat.zero_add, leAt_flatMap b before after 2 _ lows split_ rfl j low here small]
    have length := length_flatMap_wide (toLe 2) 2 (length_toLe 2) lows
    simp only [Container.values] at moved
    simp only [container, Container.isRun, Container.values, Container.bytes, Bool.false_eq_true,
      ↓reduceIte, if_neg (Nat.not_lt.mpr few), read, bind, Except.bind, moved, length]
  | bitmap words =>
    obtain ⟨whole, small, many⟩ := good.bitmap words rfl
    have read : collect (fun w => u64s b (before.length + 8 * w)) 0 1024 = .ok words := by
      rw [← whole]
      apply collect_all
      intro w word here
      have fits := small word (List.mem_of_getElem? here)
      rw [u64s, Nat.zero_add, leAt_flatMap b before after 8 _ words split_ rfl w word here fits]
    have length := length_flatMap_wide (toLe 8) 8 (length_toLe 8) words
    rw [whole] at length
    have bits : (words.zipIdx.flatMap fun word =>
        ((List.range 64).filter fun bit => decide (word.1 &&& (1 <<< bit) ≠ 0)).map
          fun bit => key <<< 16 ||| (word.2 * 64 + bit)) =
        (bitsOf words).map (key <<< 16 ||| ·) := by
      simp only [bitsOf, List.map_flatMap, List.map_map, bit_ne_zero]
      rfl
    simp only [Container.values] at moved many
    simp only [container, Container.isRun, Container.values, Container.bytes, Bool.false_eq_true,
      ↓reduceIte, if_pos many, read, bind, Except.bind, bits, moved, length]
  | runs rs =>
    obtain ⟨few, ends⟩ := good.runs rs rfl
    rw [Container.bytes] at split_
    have first : u16s b before.length = .ok rs.length :=
      u16s_of b before ((rs.flatMap fun run => toLe 2 run.1 ++ toLe 2 run.2) ++ after)
        before.length rs.length (by rw [split_]; simp only [List.append_assoc]) rfl few
    have wide : ∀ run : Nat × Nat, (toLe 2 run.1 ++ toLe 2 run.2).length = 4 := by
      intro run
      rw [List.length_append, length_toLe, length_toLe]
    have read : collect (runAt b before.length) 0 rs.length = .ok rs := by
      apply collect_all
      intro r run here
      have within := ends run (List.mem_of_getElem? here)
      obtain ⟨left, right, items, place⟩ :=
        flatMap_at (fun run : Nat × Nat => toLe 2 run.1 ++ toLe 2 run.2) 4 wide rs r run here
      have start := u16s_of b (before ++ (toLe 2 rs.length ++ left)) (toLe 2 run.2 ++ (right ++ after))
        (before.length + 2 + 4 * r) run.1 (by rw [split_, items]; simp only [List.append_assoc]) (by
          rw [List.length_append, List.length_append, length_toLe, place]
          omega) (by omega)
      have len := u16s_of b (before ++ (toLe 2 rs.length ++ (left ++ toLe 2 run.1))) (right ++ after)
        (before.length + 4 + 4 * r) run.2 (by rw [split_, items]; simp only [List.append_assoc]) (by
          simp only [List.length_append, length_toLe, place]
          omega) (by omega)
      simp only [runAt, Nat.zero_add, start, len, bind, Except.bind]
    have length := length_flatMap_wide (fun run : Nat × Nat => toLe 2 run.1 ++ toLe 2 run.2) 4 wide rs
    simp only [Container.values, List.map_flatMap] at moved
    simp only [container, Container.isRun, Container.values, Container.bytes, ↓reduceIte, first, read,
      bind, Except.bind, List.map_flatMap, moved, List.length_append, length_toLe, length]
    rw [Nat.add_assoc]

/-- The containers of a bitmap from one on. -/
theorem containers_read (b before : List UInt8) (isRun : Nat → Bool) (i : Nat)
    (cs : List (Nat × Container)) (after : List UInt8) (good : ∀ c ∈ cs, c.2.WellFormed)
    (runs : ∀ j c, cs[j]? = some c → isRun (i + j) = c.2.isRun)
    (split_ : b = before ++ (bodies cs ++ after)) :
    containers b isRun i (cs.map fun c => (c.1, c.2.values.length)) before.length =
      .ok (cs.flatMap fun c => c.2.values.map (c.1 * 2 ^ 16 + ·),
        before.length + (bodies cs).length) := by
  induction cs generalizing i before with
  | nil => rfl
  | cons c cs ih =>
    have here := runs 0 c rfl
    rw [Nat.add_zero] at here
    rw [bodies, List.flatMap_cons, List.append_assoc] at split_
    have first := container_read b before _ c.1 c.2 (good c List.mem_cons_self) split_
    have rest := ih (before ++ c.2.bytes) (i + 1)
      (fun d inside => good d (List.mem_cons_of_mem _ inside))
      (fun j d there => by
        rw [Nat.add_assoc, Nat.add_comm 1 j]
        exact runs (j + 1) d there)
      (by rw [split_, List.append_assoc]; rfl)
    rw [List.length_append] at rest
    simp only [List.map_cons, containers, here, first, bind, Except.bind, rest, List.flatMap_cons,
      bodies, List.length_append, Nat.add_assoc]

theorem headersAt_read (b before after : List UInt8) (cs : List (Nat × Container))
    (keys : ∀ c ∈ cs, c.1 < 2 ^ 16) (good : ∀ c ∈ cs, c.2.WellFormed)
    (split_ : b = before ++ (headers cs ++ after)) :
    headersAt b cs.length before.length = .ok (cs.map fun c => (c.1, c.2.values.length)) := by
  have wide : ∀ c : Nat × Container,
      (toLe 2 c.1 ++ toLe 2 (c.2.values.length - 1)).length = 4 := by
    intro c
    rw [List.length_append, length_toLe, length_toLe]
  rw [headersAt, ← List.length_map (f := fun c : Nat × Container => (c.1, c.2.values.length))]
  apply collect_all
  intro i header here
  rw [List.getElem?_map] at here
  obtain ⟨c, found, rfl⟩ := Option.map_eq_some_iff.mp here
  have inside := List.mem_of_getElem? found
  have some_ := (good c inside).some_
  have most := (good c inside).count
  obtain ⟨left, right, items, place⟩ := flatMap_at
    (fun c : Nat × Container => toLe 2 c.1 ++ toLe 2 (c.2.values.length - 1)) 4 wide cs i c found
  rw [headers, items] at split_
  have key := u16s_of b (before ++ left) (toLe 2 (c.2.values.length - 1) ++ (right ++ after))
    (before.length + 4 * i) c.1 (by rw [split_]; simp only [List.append_assoc]) (by
      rw [List.length_append, place]) (keys c inside)
  have card := u16s_of b (before ++ (left ++ toLe 2 c.1)) (right ++ after)
    (before.length + 4 * i + 2) (c.2.values.length - 1)
    (by rw [split_]; simp only [List.append_assoc]) (by
      simp only [List.length_append, length_toLe, place]
      omega) (by omega)
  simp only [Nat.zero_add, key, card, bind, Except.bind, Nat.sub_add_cancel some_]

/-- The part after the cookie: headers, offsets (or none) and containers. -/
theorem body_read (b before skipped after : List UInt8) (m : Bitmap) (good : m.WellFormed)
    (runs : Option (List UInt8))
    (marks : ∀ i c, m.containers[i]? = some c → (runs.any fun f =>
      decide ((f.getD (i / 8) 0).toNat &&& (1 <<< (i % 8)) ≠ 0)) = c.2.isRun)
    (length : skipped.length =
      if runs.isNone || decide (4 ≤ m.containers.length) then 4 * m.containers.length else 0)
    (split_ : b = before ++ (headers m.containers ++ (skipped ++ (bodies m.containers ++ after)))) :
    body b m.containers.length runs before.length =
      .ok (m.values, before.length + (headers m.containers).length + skipped.length +
        (bodies m.containers).length) := by
  have read := headersAt_read b before _ m.containers good.small good.each split_
  have rest := containers_read b (before ++ (headers m.containers ++ skipped))
    (fun i => runs.any fun f => decide ((f.getD (i / 8) 0).toNat &&& (1 <<< (i % 8)) ≠ 0)) 0
    m.containers after good.each (fun i c here => by
      rw [Nat.zero_add]
      exact marks i c here)
    (by rw [split_]; simp only [List.append_assoc])
  simp only [List.length_append, length_headers, ← Nat.add_assoc] at rest
  simp only [body, read, bind, Except.bind, ← length, rest, length_headers, Bitmap.values]

/-- Any well-formed bitmap is read to its values and its length, whatever comes after it. -/
theorem roaring_read (m : Bitmap) (good : m.WellFormed) (after : List UInt8) :
    roaring (m.bytes ++ after) = .ok (m.values, m.bytes.length) := by
  have count := good.count
  cases marked : m.marked with
  | true =>
    have some_ : 0 < m.containers.length := List.length_pos_of_ne_nil (good.some_ marked)
    have cookie : 12347 + (m.containers.length - 1) * 2 ^ 16 < 2 ^ 32 := by omega
    have low : (12347 + (m.containers.length - 1) * 2 ^ 16) &&& 0xFFFF = 12347 := by
      rw [show 0xFFFF = 2 ^ 16 - 1 by rfl, Nat.and_two_pow_sub_one_eq_mod]
      omega
    have high : (12347 + (m.containers.length - 1) * 2 ^ 16) >>> 16 = m.containers.length - 1 := by
      rw [Nat.shiftRight_eq_div_pow]
      omega
    generalize skipped_eq : (if 4 ≤ m.containers.length then
      offsets (4 + (m.containers.length + 7) / 8 + 8 * m.containers.length) m.containers
      else []) = skipped
    have bytes : m.bytes = toLe 4 (12347 + (m.containers.length - 1) * 2 ^ 16) ++
        flags m.containers ++ headers m.containers ++ skipped ++ bodies m.containers := by
      rw [Bitmap.bytes, marked, skipped_eq]
      rfl
    have first := u32s_of (m.bytes ++ after) [] (flags m.containers ++ (headers m.containers ++
      (skipped ++ (bodies m.containers ++ after)))) 0 _ (by
        rw [bytes]; simp only [List.append_assoc, List.nil_append]) rfl cookie
    have marks := slice_of (m.bytes ++ after)
      (toLe 4 (12347 + (m.containers.length - 1) * 2 ^ 16)) (flags m.containers)
      (headers m.containers ++ (skipped ++ (bodies m.containers ++ after))) 4
      ((m.containers.length + 7) / 8) (by rw [bytes]; simp only [List.append_assoc])
      (length_toLe _ _) (length_flags m.containers)
    have rest := body_read (m.bytes ++ after)
      (toLe 4 (12347 + (m.containers.length - 1) * 2 ^ 16) ++ flags m.containers) skipped after m
      good (some (flags m.containers)) (fun i c here => by
        rw [Option.any_some, bit_ne_zero]
        exact flag_at m.containers i c here) (by
        rw [← skipped_eq]
        simp only [Option.isNone_some, Bool.false_or, decide_eq_true_eq]
        split
        · exact length_offsets _ _
        · rfl) (by rw [bytes]; simp only [List.append_assoc])
    have length : m.bytes.length = 4 + (m.containers.length + 7) / 8 +
        (headers m.containers).length + skipped.length + (bodies m.containers).length := by
      rw [bytes]
      simp only [List.length_append, length_toLe, length_flags]
    rw [List.length_append, length_toLe, length_flags] at rest
    simp only [roaring, first, bind, Except.bind, low, high, ↓reduceIte, Nat.sub_add_cancel some_,
      marks, rest, length]
  | false =>
    have bytes : m.bytes = toLe 4 12346 ++ toLe 4 m.containers.length ++ headers m.containers ++
        offsets (8 + 8 * m.containers.length) m.containers ++ bodies m.containers := by
      rw [Bitmap.bytes, marked]
      rfl
    have first := u32s_of (m.bytes ++ after) [] (toLe 4 m.containers.length ++
      (headers m.containers ++ (offsets (8 + 8 * m.containers.length) m.containers ++
        (bodies m.containers ++ after)))) 0 12346 (by
        rw [bytes]; simp only [List.append_assoc, List.nil_append]) rfl (by decide)
    have second := u32s_of (m.bytes ++ after) (toLe 4 12346)
      (headers m.containers ++ (offsets (8 + 8 * m.containers.length) m.containers ++
        (bodies m.containers ++ after))) 4 m.containers.length (by
        rw [bytes]; simp only [List.append_assoc]) (length_toLe _ _) (by omega)
    have rest := body_read (m.bytes ++ after) (toLe 4 12346 ++ toLe 4 m.containers.length)
      (offsets (8 + 8 * m.containers.length) m.containers) after m good none (fun i c here => by
        rw [good.unmarked marked c (List.mem_of_getElem? here)]
        rfl) (by
        rw [length_offsets]
        rfl) (by rw [bytes]; simp only [List.append_assoc])
    have length : m.bytes.length = 4 + 4 + (headers m.containers).length +
        (offsets (8 + 8 * m.containers.length) m.containers).length +
          (bodies m.containers).length := by
      rw [bytes]
      simp only [List.length_append, length_toLe]
    rw [List.length_append, length_toLe, length_toLe] at rest
    have other : ¬ 12346 &&& 0xFFFF = 12347 := by decide
    simp only [roaring, first, second, bind, Except.bind, if_neg other, ↓reduceIte, rest, length]

end Pondra.Scan
