import Mathlib.Data.List.Pairwise
import Mathlib.Algebra.Group.Nat.Defs
import Pondra.Base.Search
import Pondra.Log.Places

set_option autoImplicit false

namespace Pondra.Kafka

open Dicts Searches Log

/-! ### What a fetch finds of the log -/

/-- The log's segments that are still kept, by number, and the last number that is visible. -/
structure Tail where
  segs : List (Nat × Segment)
  visible : Nat

/-- The segments with these numbers. -/
def Tail.between (tail : Tail) (low high : Nat) : List (Nat × Segment) :=
  tail.segs.filter fun seg => decide (low ≤ seg.1 ∧ seg.1 < high)

/-- How many numbers the search for the oldest segment looks at together. -/
def window : Nat := 4096

/-- The first segment of a window. -/
def Tail.first (tail : Tail) (low : Nat) : Option Nat :=
  (tail.between low (low + window)).head?.map Prod.fst

def Tail.held (tail : Tail) (mid : Nat) : Bool := (tail.first mid).isSome

/-- Where the search for the oldest segment looks. -/
def Tail.firstProbes (tail : Tail) : List Nat :=
  probes tail.held (tail.visible + 1) 0 (tail.visible + 1)

/-- The oldest segment still in the log. -/
def Tail.firstSegment (tail : Tail) : Nat :=
  let low := search tail.held (tail.visible + 1) 0 (tail.visible + 1)
  (tail.first low).getD low

/-- Was a number's segment committed at or after this time? One without a segment is taken to be. -/
def Tail.late (tail : Tail) (time : Int) (mid : Nat) : Bool :=
  match tail.segs.lookup mid with
  | some seg => !decide ((seg.tsMs : Int) < time)
  | none => true

def Tail.timeProbes (tail : Tail) (time : Int) : List Nat :=
  probes (tail.late time) (tail.visible + 1) tail.firstSegment (tail.visible + 1)

/-- The first segment committed at or after a time. -/
def Tail.afterTime (tail : Tail) (time : Int) : Nat :=
  search (tail.late time) (tail.visible + 1) tail.firstSegment (tail.visible + 1)

/-- The offset a time asks for: -1 the next one to be written, -2 the earliest. -/
def Tail.listOffset (tail : Tail) (time : Int) : Nat :=
  if time = -1 then ord (tail.visible + 1) 0
  else if time = -2 then ord tail.firstSegment 0
  else ord (tail.afterTime time) 0

/-! ### Reading records -/

/-- The records read so far: their segments and rows, and the bytes they take. -/
structure Read where
  rows : List (Nat × Nat)
  size : Nat

/-- The rows of a file commit that one fetch reads, at most. -/
def pieceOf (limit : Nat) : Nat := max 1000 (min (limit / 64) 1000000)

section read

variable (table : String) (bytes : Nat × Segment → Nat → Nat → Nat) (offset limit : Nat)

/-- One segment's records from the offset on, and whether the fetch stops before its last row. `bytes` is
the size of the batch of some of its rows. -/
def readSegment (seg : Nat × Segment) (out : Read) : Read × Bool :=
  let rows := seg.2.rows table
  if ord seg.1 rows ≤ offset ∨ limit ≤ out.size then (out, false)
  else
    let start := min (offset - ord seg.1 0) rows
    let logged := rowsOf (Shelf.of seg.2.parts table)
    let skipped := start - logged
    -- a file commit's rows, a piece at a time
    let count := (logged - start) + min (pieceOf limit) (rows - logged - skipped)
    (if 0 < count then
        ⟨out.rows ++ (List.range' start count).map fun row => (seg.1, row),
          out.size + bytes seg start count⟩
      else out,
      decide (skipped + pieceOf limit < rows - logged))

def readWindow : List (Nat × Segment) → Read → Read × Bool
  | [], out => (out, false)
  | seg :: rest, out =>
    let read := readSegment table bytes offset limit seg out
    if read.2 then (read.1, true) else readWindow rest read.1

/-- Segments without the table are skipped, 4,096 at a time. -/
def readFrom (tail : Tail) : Nat → Nat → Read
  | 0, _ => ⟨[], 0⟩
  | fuel + 1, low =>
    if low ≤ tail.visible then
      let upto := min tail.visible (low + 4095)
      let read := readWindow table bytes offset limit (tail.between low (upto + 1)) ⟨[], 0⟩
      if read.2 ∨ read.1.rows ≠ [] then read.1 else readFrom tail fuel (upto + 1)
    else ⟨[], 0⟩

/-- Records of the table from the offset on: from a few segments back, as a big one's rows run on past its
number. -/
def read (tail : Tail) : Read :=
  readFrom table bytes offset limit tail (tail.visible + 1) ((offset >>> ordBits) - 64)

end read

/-- A fetch's records of one topic from an offset on, or that the offset is out of range. -/
def fetch (tail : Tail) (table : String) (bytes : Nat × Segment → Nat → Nat → Nat)
    (offset limit : Nat) : Option (List (Nat × Nat)) :=
  let low := max offset (ord tail.firstSegment 0)
  if low ≤ ord (tail.visible + 1) 0 then some (read table bytes low limit tail).rows else none

/-! ### Numbers in order -/

/-- The numbers rise, and what is visible ends with a segment's last number. -/
structure Tail.Sound (tail : Tail) : Prop where
  rises : tail.segs.Pairwise fun a b => a.1 + a.2.span ≤ b.1
  whole : ∀ seg ∈ tail.segs, seg.1 ≤ tail.visible → seg.1 + seg.2.span ≤ tail.visible + 1

theorem span_pos (segment : Segment) : 0 < segment.span := by
  unfold Segment.span Log.span
  omega

namespace Tail

variable {tail : Tail}

theorem Sound.numbers (sound : tail.Sound) : tail.segs.Pairwise fun a b => a.1 < b.1 := by
  refine sound.rises.imp ?_
  intro a b after
  have more := span_pos a.2
  omega

theorem mem_between (low high : Nat) (seg : Nat × Segment) :
    seg ∈ tail.between low high ↔ seg ∈ tail.segs ∧ low ≤ seg.1 ∧ seg.1 < high := by
  rw [between, List.mem_filter, decide_eq_true_eq]

/-- Two ranges of numbers one after another. -/
theorem Sound.between_append (sound : tail.Sound) (low mid high : Nat) (first : low ≤ mid)
    (second : mid ≤ high) :
    tail.between low high = tail.between low mid ++ tail.between mid high := by
  have numbers := sound.numbers
  unfold between
  generalize tail.segs = segs at numbers
  induction segs with
  | nil => rfl
  | cons seg rest ih =>
    obtain ⟨above, numbers⟩ := List.pairwise_cons.mp numbers
    have later := ih numbers
    by_cases under : seg.1 < mid
    · by_cases from' : low ≤ seg.1
      · rw [List.filter_cons_of_pos (by simpa using ⟨from', by omega⟩),
          List.filter_cons_of_pos (by simpa using ⟨from', under⟩),
          List.filter_cons_of_neg (by simp; omega), later, List.cons_append]
      · rw [List.filter_cons_of_neg (by simp; omega), List.filter_cons_of_neg (by simp; omega),
          List.filter_cons_of_neg (by simp; omega), later]
    · have none : (rest.filter fun seg => decide (low ≤ seg.1 ∧ seg.1 < mid)) = [] := by
        rw [List.filter_eq_nil_iff]
        intro other inside
        have beyond := above other inside
        simp only [decide_eq_true_eq]
        omega
      rw [none, List.nil_append] at later
      have out : ¬ (low ≤ seg.1 ∧ seg.1 < mid) := by omega
      have mine : ((seg :: rest).filter fun seg => decide (low ≤ seg.1 ∧ seg.1 < mid)) = [] := by
        rw [List.filter_cons_of_neg (by simpa using out), none]
      rw [mine, List.nil_append]
      by_cases inside : seg.1 < high
      · rw [List.filter_cons_of_pos (by simp; omega), List.filter_cons_of_pos (by simp; omega), later]
      · rw [List.filter_cons_of_neg (by simp; omega), List.filter_cons_of_neg (by simp; omega), later]

/-! ### The oldest segment -/

theorem first_some (low n : Nat) (found : tail.first low = some n) :
    (∃ seg ∈ tail.segs, seg.1 = n) ∧ low ≤ n ∧ n < low + window := by
  rw [first, Option.map_eq_some_iff] at found
  obtain ⟨seg, head, rfl⟩ := found
  obtain ⟨inside, within⟩ := (mem_between low (low + window) seg).mp (List.mem_of_head? head)
  exact ⟨⟨seg, inside, rfl⟩, within⟩

theorem held_iff (low : Nat) : tail.held low = true ↔
    ∃ seg ∈ tail.segs, low ≤ seg.1 ∧ seg.1 < low + window := by
  rw [held, first, Option.isSome_map, List.isSome_head?]
  constructor
  · intro some
    obtain ⟨seg, inside⟩ := List.exists_mem_of_ne_nil _ some
    obtain ⟨held, within⟩ := (mem_between low (low + window) seg).mp inside
    exact ⟨seg, held, within⟩
  · rintro ⟨seg, held, within⟩
    exact List.ne_nil_of_mem ((mem_between low (low + window) seg).mpr ⟨held, within⟩)

theorem firstSegment_ge : search tail.held (tail.visible + 1) 0 (tail.visible + 1) ≤
    tail.firstSegment := by
  unfold firstSegment
  simp only
  cases found : tail.first (search tail.held (tail.visible + 1) 0 (tail.visible + 1)) with
  | none => exact Nat.le_refl _
  | some n => exact (first_some _ n found).2.1

/-- The answer is the oldest segment exactly when the search comes to no empty window past it. -/
theorem Sound.firstSegment_iff (sound : tail.Sound) (seg : Nat × Segment)
    (rest : List (Nat × Segment)) (segs : tail.segs = seg :: rest) (shown : seg.1 ≤ tail.visible) :
    tail.firstSegment = seg.1 ↔
      ∀ mid ∈ tail.firstProbes, tail.held mid = false → mid ≤ seg.1 := by
  have numbers := sound.numbers
  rw [segs, List.pairwise_cons] at numbers
  have least : ∀ other ∈ tail.segs, seg.1 ≤ other.1 := by
    intro other inside
    rw [segs] at inside
    rcases List.mem_cons.mp inside with rfl | inside
    · exact Nat.le_refl _
    · exact Nat.le_of_lt (numbers.1 other inside)
  have mine : seg ∈ tail.segs := by
    rw [segs]
    exact List.mem_cons_self
  have ends := search_ends tail.held (tail.visible + 1) 0 (tail.visible + 1) (Nat.zero_le _)
    (by omega)
  constructor
  · intro right mid probed empty
    have past := ends.past mid probed empty
    have beyond : _ ≤ tail.firstSegment := firstSegment_ge
    omega
  · intro right
    have under : search tail.held (tail.visible + 1) 0 (tail.visible + 1) ≤ seg.1 := by
      rcases ends.start with same | ⟨mid, probed, empty, same⟩
      · omega
      · have low := right mid probed empty
        by_contra beyond
        have out : ¬ (mid ≤ seg.1 ∧ seg.1 < mid + window) := by
          intro within
          rw [(held_iff mid).mpr ⟨seg, mine, within⟩] at empty
          cases empty
        have wide : window = 4096 := rfl
        omega
    have near : seg.1 < search tail.held (tail.visible + 1) 0 (tail.visible + 1) + window := by
      rcases ends.stop with same | ⟨_, held⟩
      · omega
      · obtain ⟨other, inside, _, within⟩ := (held_iff _).mp held
        have low := least other inside
        omega
    unfold firstSegment
    simp only
    generalize search tail.held (tail.visible + 1) 0 (tail.visible + 1) = low at under near
    have head : tail.first low = some seg.1 := by
      rw [first, between, segs, List.filter_cons_of_pos (by simpa using ⟨under, near⟩)]
      rfl
    rw [head]
    rfl

/-- With no segment that is visible the answer is past what is; with none at all, the next number. -/
theorem firstSegment_none (hidden : ∀ seg ∈ tail.segs, tail.visible < seg.1) :
    tail.visible < tail.firstSegment ∧
      (tail.segs = [] → tail.firstSegment = tail.visible + 1) := by
  have ends := search_ends tail.held (tail.visible + 1) 0 (tail.visible + 1) (Nat.zero_le _)
    (by omega)
  have within : _ ≤ tail.firstSegment := firstSegment_ge
  refine ⟨?_, fun none => ?_⟩
  · rcases ends.stop with same | ⟨_, held⟩
    · omega
    · unfold firstSegment
      simp only
      generalize search tail.held (tail.visible + 1) 0 (tail.visible + 1) = low at held
      cases found : tail.first low with
      | none =>
        rw [Tail.held, found] at held
        cases held
      | some n =>
        obtain ⟨⟨seg, inside, rfl⟩, _⟩ := first_some low n found
        exact hidden seg inside
  · have never (mid : Nat) : tail.first mid = Option.none := by
      rw [first, between, none]
      rfl
    have top : search tail.held (tail.visible + 1) 0 (tail.visible + 1) = tail.visible + 1 := by
      rcases ends.stop with same | ⟨_, held⟩
      · exact same
      · rw [Tail.held, never] at held
        cases held
    unfold firstSegment
    simp only [top, never]
    rfl

/-! ### The first segment at or after a time -/

theorem Sound.lookup (sound : tail.Sound) (seg : Nat × Segment) (inside : seg ∈ tail.segs) :
    tail.segs.lookup seg.1 = some seg.2 := by
  have numbers := sound.numbers
  generalize tail.segs = segs at numbers inside
  induction segs with
  | nil => cases inside
  | cons first rest ih =>
    obtain ⟨above, numbers⟩ := List.pairwise_cons.mp numbers
    rcases List.mem_cons.mp inside with rfl | inside
    · exact List.lookup_cons_self
    · have beyond := above seg inside
      rw [List.lookup_cons, beq_false_of_ne (by omega)]
      exact ih numbers inside

/-- The segments' times don't go back. -/
def Rising (tail : Tail) : Prop := tail.segs.Pairwise fun a b => a.2.tsMs ≤ b.2.tsMs

theorem Sound.rising (sound : tail.Sound) (rising : tail.Rising) (a b : Nat × Segment)
    (first : a ∈ tail.segs) (second : b ∈ tail.segs) (order : a.1 ≤ b.1) :
    a.2.tsMs ≤ b.2.tsMs := by
  have ahead : tail.segs.Pairwise fun a b => a.1 ≤ b.1 → a.2.tsMs ≤ b.2.tsMs := by
    refine List.Pairwise.imp ?_ rising
    intro a b after _
    exact after
  have back : tail.segs.Pairwise fun a b => b.1 ≤ a.1 → b.2.tsMs ≤ a.2.tsMs :=
    sound.numbers.imp fun {_ _} less order => absurd order (Nat.not_le_of_lt less)
  exact List.Pairwise.forall_of_forall_of_flip
    (R := fun a b : Nat × Segment => a.1 ≤ b.1 → a.2.tsMs ≤ b.2.tsMs)
    (fun _ _ _ => Nat.le_refl _) ahead back first second order

theorem late_eq_false (time : Int) (mid : Nat) (early : tail.late time mid = false) :
    ∃ seg, tail.segs.lookup mid = some seg ∧ (seg.tsMs : Int) < time := by
  unfold late at early
  cases found : tail.segs.lookup mid with
  | none =>
    rw [found] at early
    cases early
  | some seg =>
    rw [found] at early
    exact ⟨seg, rfl, by simpa using early⟩

theorem late_eq_true (time : Int) (mid : Nat) (seg : Segment)
    (found : tail.segs.lookup mid = some seg) (late' : tail.late time mid = true) :
    time ≤ seg.tsMs := by
  unfold late at late'
  rw [found] at late'
  simpa using late'

/-- A number without a segment that the search for a time comes to has no segment committed before the
time after it. -/
def Dated (tail : Tail) (time : Int) : Prop :=
  ∀ mid ∈ tail.timeProbes time, tail.segs.lookup mid = none →
    ∀ seg ∈ tail.segs, seg.1 ≤ tail.visible → mid < seg.1 → time ≤ seg.2.tsMs

/-- With the times rising, and the search for the oldest segment right, no visible segment committed at or
after the time is skipped; and exactly then none committed before it is let through. -/
theorem Sound.afterTime_iff (sound : tail.Sound) (rising : tail.Rising) (time : Int)
    (begins : ∀ seg ∈ tail.segs, seg.1 ≤ tail.visible → tail.firstSegment ≤ seg.1) :
    (∀ seg ∈ tail.segs, seg.1 ≤ tail.visible → time ≤ seg.2.tsMs → tail.afterTime time ≤ seg.1) ∧
    ((∀ seg ∈ tail.segs, seg.1 ≤ tail.visible → tail.afterTime time ≤ seg.1 → time ≤ seg.2.tsMs) ↔ tail.Dated time) := by
  have ends (some : tail.firstSegment ≤ tail.visible + 1) :=
    search_ends (tail.late time) (tail.visible + 1) tail.firstSegment (tail.visible + 1) some
      (by omega)
  refine ⟨fun seg inside shown due => ?_, fun through mid probed hole seg inside shown after => ?_,
    fun holes seg inside shown from' => ?_⟩
  · have first := begins seg inside shown
    rcases (ends (by omega)).start with same | ⟨mid, _, early, same⟩
    · exact (show tail.afterTime time = _ from same) ▸ first
    · by_contra beyond
      obtain ⟨other, found, before⟩ := late_eq_false time mid early
      have end' : mid + 1 = tail.afterTime time := same
      have held := mem_of_lookup mid tail.segs other found
      have older := sound.rising rising seg (mid, other) inside held (by
        show seg.1 ≤ mid
        omega)
      have older : seg.2.tsMs ≤ other.tsMs := older
      omega
  · have first := begins seg inside shown
    have true' : tail.late time mid = true := by
      unfold late
      rw [hole]
    have under := (ends (by omega)).under mid probed true'
    have under : tail.afterTime time ≤ mid := under
    exact through seg inside shown (by omega)
  · have first := begins seg inside shown
    rcases (ends (by omega)).stop with same | ⟨probed, late'⟩
    · have end' : tail.afterTime time = tail.visible + 1 := same
      omega
    · have probed : tail.afterTime time ∈ tail.timeProbes time := probed
      have late' : tail.late time (tail.afterTime time) = true := late'
      cases found : tail.segs.lookup (tail.afterTime time) with
      | none =>
        rcases Nat.lt_or_eq_of_le from' with after | same
        · exact holes _ probed found seg inside shown after
        · rw [same, sound.lookup seg inside] at found
          cases found
      | some other =>
        have due := late_eq_true time _ other found late'
        have held := mem_of_lookup _ tail.segs other found
        have newer := sound.rising rising (tail.afterTime time, other) seg held inside from'
        have newer : other.tsMs ≤ seg.2.tsMs := newer
        omega

end Tail

end Pondra.Kafka
