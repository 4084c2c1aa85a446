import Mathlib.Data.Nat.Init
import Mathlib.Algebra.Group.Nat.Defs
import Pondra.Base.Slices

set_option autoImplicit false

/-! Sets of 32-bit numbers as portable roaring bitmaps: a container for each high half that has
numbers, as the format has them. -/

namespace Roaring

open Bytes

/-- The low halves a container holds: each by itself, a bit each of 1,024 words, or runs (a start,
and how many come after it). -/
inductive Container where
  | array (lows : List Nat)
  | bitmap (words : List Nat)
  | runs (runs : List (Nat × Nat))

/-- The bits that are set in words of 64. -/
def bitsOf (words : List Nat) : List Nat :=
  words.zipIdx.flatMap fun word =>
    ((List.range 64).filter word.1.testBit).map fun bit => word.2 * 64 + bit

def Container.values : Container → List Nat
  | .array lows => lows
  | .bitmap words => bitsOf words
  | .runs rs => rs.flatMap fun run => List.range' run.1 (run.2 + 1)

def Container.isRun : Container → Bool
  | .runs _ => true
  | _ => false

/-- A container as the format has it: up to 4,096 values are an array and more a bitmap, unless they
are runs; there are values, in order, of 16 bits. -/
structure Container.WellFormed (c : Container) : Prop where
  some_ : 0 < c.values.length
  order : c.values.Pairwise (· < ·)
  low : ∀ v ∈ c.values, v < 2 ^ 16
  array : ∀ lows, c = .array lows → lows.length ≤ 4096
  bitmap : ∀ words, c = .bitmap words →
    words.length = 1024 ∧ (∀ word ∈ words, word < 2 ^ 64) ∧ 4096 < c.values.length
  runs : ∀ runs, c = .runs runs → runs.length < 2 ^ 16 ∧ ∀ run ∈ runs, run.1 + run.2 < 2 ^ 16

def Container.bytes : Container → List UInt8
  | .array lows => lows.flatMap (toLe 2)
  | .bitmap words => words.flatMap (toLe 8)
  | .runs rs => toLe 2 rs.length ++ rs.flatMap fun run => toLe 2 run.1 ++ toLe 2 run.2

/-- A bitmap: containers by their high half, with the cookie that marks runs or the one that
doesn't. -/
structure Bitmap where
  marked : Bool
  containers : List (Nat × Container)

def Bitmap.values (m : Bitmap) : List Nat :=
  m.containers.flatMap fun c => c.2.values.map (c.1 * 2 ^ 16 + ·)

structure Bitmap.WellFormed (m : Bitmap) : Prop where
  keys : (m.containers.map Prod.fst).Pairwise (· < ·)
  small : ∀ c ∈ m.containers, c.1 < 2 ^ 16
  each : ∀ c ∈ m.containers, c.2.WellFormed
  some_ : m.marked = true → m.containers ≠ []
  unmarked : m.marked = false → ∀ c ∈ m.containers, c.2.isRun = false

/-- A bit for each container that is runs. -/
def flags (containers : List (Nat × Container)) : List UInt8 :=
  (List.range ((containers.length + 7) / 8)).map fun j : Nat =>
    UInt8.ofNat (Nat.ofBits fun k : Fin 8 =>
      (containers[8 * j + k.val]?).any fun c => c.2.isRun)

/-- Each container's high half, and its count of values less one. -/
def headers (containers : List (Nat × Container)) : List UInt8 :=
  containers.flatMap fun c => toLe 2 c.1 ++ toLe 2 (c.2.values.length - 1)

/-- Where each container is, from the start of the bitmap. -/
def offsets : Nat → List (Nat × Container) → List UInt8
  | _, [] => []
  | at_, c :: rest => toLe 4 at_ ++ offsets (at_ + c.2.bytes.length) rest

def bodies (containers : List (Nat × Container)) : List UInt8 :=
  containers.flatMap fun c => c.2.bytes

/-- The portable serialization. -/
def Bitmap.bytes (m : Bitmap) : List UInt8 :=
  if m.marked then
    toLe 4 (12347 + (m.containers.length - 1) * 2 ^ 16) ++ flags m.containers ++
      headers m.containers ++
      (if 4 ≤ m.containers.length then
        offsets (4 + (m.containers.length + 7) / 8 + 8 * m.containers.length) m.containers
      else []) ++
      bodies m.containers
  else
    toLe 4 12346 ++ toLe 4 m.containers.length ++ headers m.containers ++
      offsets (8 + 8 * m.containers.length) m.containers ++ bodies m.containers

/-! ### Lengths -/

theorem length_flags (containers : List (Nat × Container)) :
    (flags containers).length = (containers.length + 7) / 8 := by
  rw [flags, List.length_map, List.length_range]

theorem length_headers (containers : List (Nat × Container)) :
    (headers containers).length = 4 * containers.length := by
  apply length_flatMap_wide
  intro c
  rw [List.length_append, length_toLe, length_toLe]

theorem length_offsets (at_ : Nat) (containers : List (Nat × Container)) :
    (offsets at_ containers).length = 4 * containers.length := by
  induction containers generalizing at_ with
  | nil => rfl
  | cons c rest ih =>
    rw [offsets, List.length_append, length_toLe, ih, List.length_cons]
    omega

/-- A container's flag is its bit. -/
theorem flag_at (containers : List (Nat × Container)) (i : Nat) (c : Nat × Container)
    (here : containers[i]? = some c) :
    (((flags containers).getD (i / 8) 0).toNat).testBit (i % 8) = c.2.isRun := by
  have inside : i < containers.length := (List.getElem?_eq_some_iff.mp here).1
  have byte : i / 8 < (flags containers).length := by
    rw [length_flags]
    omega
  have bit : i % 8 < 8 := Nat.mod_lt i (by decide)
  have whole : 8 * (i / 8) + i % 8 = i := Nat.div_add_mod i 8
  rw [List.getD_eq_getElem?_getD, List.getElem?_eq_getElem byte, Option.getD_some]
  simp only [flags, List.getElem_map, List.getElem_range]
  rw [UInt8.toNat_ofNat', Nat.mod_eq_of_lt (Nat.ofBits_lt_two_pow _), Nat.testBit_ofBits_lt _ _ bit]
  simp only [whole, here, Option.any_some]

/-! ### How many values there can be -/

theorem length_le (ns : List Nat) (order : ns.Pairwise (· < ·)) (low high : Nat)
    (within : ∀ n ∈ ns, low ≤ n ∧ n < high) (some_ : low ≤ high) : ns.length + low ≤ high := by
  induction ns generalizing low with
  | nil => rwa [List.length_nil, Nat.zero_add]
  | cons n ns ih =>
    obtain ⟨first, rest⟩ := List.pairwise_cons.mp order
    obtain ⟨above, below⟩ := within n List.mem_cons_self
    have others := ih rest (n + 1)
      (fun m inside => ⟨first m inside, (within m (List.mem_cons_of_mem _ inside)).2⟩) below
    rw [List.length_cons]
    omega

theorem Container.WellFormed.count {c : Container} (good : c.WellFormed) :
    c.values.length ≤ 2 ^ 16 :=
  length_le c.values good.order 0 (2 ^ 16) (fun v inside => ⟨Nat.zero_le v, good.low v inside⟩)
    (Nat.zero_le _)

theorem Bitmap.WellFormed.count {m : Bitmap} (good : m.WellFormed) :
    m.containers.length ≤ 2 ^ 16 := by
  have keys := length_le (m.containers.map Prod.fst) good.keys 0 (2 ^ 16) (fun key inside => by
    obtain ⟨c, listed, same⟩ := List.mem_map.mp inside
    exact ⟨Nat.zero_le key, same ▸ good.small c listed⟩) (Nat.zero_le _)
  rwa [List.length_map] at keys

/-! ### Bits -/

theorem mem_bitsOf (words : List Nat) (v : Nat) :
    v ∈ bitsOf words ↔ (words.getD (v / 64) 0).testBit (v % 64) = true := by
  rw [bitsOf, List.mem_flatMap, List.getD_eq_getElem?_getD]
  constructor
  · intro ⟨word, listed, inside⟩
    obtain ⟨bit, set_, rfl⟩ := List.mem_map.mp inside
    obtain ⟨range, held⟩ := List.mem_filter.mp set_
    have small := List.mem_range.mp range
    have place : (word.2 * 64 + bit) / 64 = word.2 := by omega
    have rest : (word.2 * 64 + bit) % 64 = bit := by omega
    rw [place, rest, List.mem_zipIdx_iff_getElem?.mp listed, Option.getD_some]
    exact held
  · intro set_
    cases found : words[v / 64]? with
    | none =>
      rw [found, Option.getD_none, Nat.zero_testBit] at set_
      cases set_
    | some word =>
      rw [found, Option.getD_some] at set_
      refine ⟨(word, v / 64), List.mem_zipIdx_iff_getElem?.mpr found, List.mem_map.mpr
        ⟨v % 64, List.mem_filter.mpr ⟨List.mem_range.mpr (by omega), set_⟩, ?_⟩⟩
      dsimp only
      omega

theorem bitsOf_order (words : List Nat) : (bitsOf words).Pairwise (· < ·) := by
  have from_ : ∀ start, ((words.zipIdx start).flatMap fun word =>
      ((List.range 64).filter word.1.testBit).map fun bit => word.2 * 64 + bit).Pairwise (· < ·) ∧
      ∀ v ∈ (words.zipIdx start).flatMap fun word =>
        ((List.range 64).filter word.1.testBit).map fun bit => word.2 * 64 + bit,
        start * 64 ≤ v := by
    induction words with
    | nil => exact fun _ => ⟨List.Pairwise.nil, fun _ inside => absurd inside List.not_mem_nil⟩
    | cons word words ih =>
      intro start
      obtain ⟨order, above⟩ := ih (start + 1)
      have first : ∀ v ∈ ((List.range 64).filter word.testBit).map fun bit => start * 64 + bit,
          start * 64 ≤ v ∧ v < (start + 1) * 64 := by
        intro v inside
        obtain ⟨bit, held, rfl⟩ := List.mem_map.mp inside
        have small := List.mem_range.mp (List.mem_of_mem_filter held)
        omega
      rw [List.zipIdx_cons, List.flatMap_cons]
      constructor
      · apply List.pairwise_append.mpr
        refine ⟨List.pairwise_map.mpr ?_, order, fun v low w high => ?_⟩
        · apply List.Pairwise.filter
          exact List.pairwise_lt_range.imp fun less => Nat.add_lt_add_left less _
        · exact Nat.lt_of_lt_of_le (first v low).2 (above w high)
      · intro v inside
        rcases List.mem_append.mp inside with here | later
        · exact (first v here).1
        · have high := above v later
          omega
  exact (from_ 0).1

end Roaring
