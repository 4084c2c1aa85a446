import Pondra.Scan.Vectors

set_option autoImplicit false

namespace Pondra.Scan

open Bytes Roaring

/-! ### Z85 -/

def alphabet : List UInt8 :=
  ("0123456789abcdefghijklmnopqrstuvwxyzABCDEFGHIJKLMNOPQRSTUVWXYZ.-:+=^!/*?&<>()[]\x7b\x7d@%$#".toList).map
    fun c => UInt8.ofNat c.toNat

/-- Five digits of base 85, the highest first. -/
def digits (n : Nat) : List UInt8 :=
  [n / 85 ^ 4 % 85, n / 85 ^ 3 % 85, n / 85 ^ 2 % 85, n / 85 % 85, n % 85].map
    fun d => alphabet.getD d 0

/-- Bytes as Z85, padded with zeros to a multiple of four first. -/
def z85Of : List UInt8 → List UInt8
  | a :: b :: c :: d :: rest => digits (ofBe [a, b, c, d]) ++ z85Of rest
  | [] => []
  | chunk => digits (ofBe (chunk ++ List.replicate (4 - chunk.length) 0))

def value (c : UInt8) : Except String Nat :=
  match alphabet.idxOf? c with
  | some d => .ok d
  | none => .error ((Char.ofNat c.toNat).quote ++ " isn't Z85")

/-- A chunk's digits as a number. -/
def number : Nat → List UInt8 → Except String Nat
  | n, [] => .ok n
  | n, c :: rest => do
    let d ← value c
    number (n * 85 + d) rest

def chunks : List UInt8 → Except String (List UInt8)
  | a :: b :: c :: d :: e :: rest => do
    let n ← number 0 [a, b, c, d, e]
    let others ← chunks rest
    .ok (toBe 4 (n % 2 ^ 32) ++ others)
  | _ => .ok []

def z85 (s : List UInt8) : Except String (List UInt8) :=
  if s.length % 5 ≠ 0 then
    .error ("Z85 comes in fives, not " ++ toString s.length ++ " characters")
  else chunks s

theorem value_digit : ∀ d < 85, value (alphabet.getD d 0) = .ok d := by
  have found : ∀ d < 85, alphabet.idxOf? (alphabet.getD d 0) = some d := by decide +kernel
  intro d small
  rw [value, found d small]

/-- Five digits are read to the number, and its four bytes. -/
theorem number_digits (n : Nat) (small : n < 2 ^ 32) : number 0 (digits n) = .ok n := by
  have each : ∀ k, value (alphabet.getD (k % 85) 0) = .ok (k % 85) := fun k =>
    value_digit (k % 85) (Nat.mod_lt k (by decide))
  simp only [digits, List.map_cons, List.map_nil, number, each, bind, Except.bind, Except.ok.injEq]
  omega

theorem length_digits (n : Nat) : (digits n).length = 5 := rfl

/-- A chunk of four bytes as five digits, read back before the rest. -/
theorem chunks_digits (chunk rest : List UInt8) (length : chunk.length = 4) :
    chunks (digits (ofBe chunk) ++ rest) =
      (chunks rest).map fun others => chunk ++ others := by
  have small : ofBe chunk < 2 ^ 32 := by
    have bound := ofLe_lt chunk.reverse
    rwa [List.length_reverse, length] at bound
  have read := number_digits (ofBe chunk) small
  have back := toBe_ofBe chunk 4 length
  simp only [digits, List.map_cons, List.map_nil, List.cons_append, List.nil_append] at read ⊢
  simp only [chunks, read, bind, Except.bind, Nat.mod_eq_of_lt small, back]
  cases chunks rest with
  | error e => rfl
  | ok others => rfl

/-- How many zeros bring a length to a multiple of four. -/
def padding (length : Nat) : Nat := (4 - length % 4) % 4

theorem chunks_z85Of (bytes : List UInt8) :
    chunks (z85Of bytes) = .ok (bytes ++ List.replicate (padding bytes.length) 0) := by
  induction bytes using z85Of.induct with
  | case1 a b c d rest ih =>
    have same : padding (rest.length + 4) = padding rest.length := by
      unfold padding
      omega
    rw [z85Of, chunks_digits [a, b, c, d] _ rfl, ih]
    simp only [Except.map, List.cons_append, List.nil_append, List.length_cons, same]
  | case2 => rfl
  | case3 chunk many some_ =>
    have short : chunk.length < 4 := by
      rcases chunk with _ | ⟨a, _ | ⟨b, _ | ⟨c, _ | ⟨d, rest⟩⟩⟩⟩
      · exact Nat.succ_pos 3
      · simp only [List.length_cons, List.length_nil, Nat.reduceAdd, Nat.reduceLT]
      · simp only [List.length_cons, List.length_nil, Nat.reduceAdd, Nat.reduceLT]
      · simp only [List.length_cons, List.length_nil, Nat.reduceAdd, Nat.reduceLT]
      · exact absurd rfl (many a b c d rest)
    have ne : chunk.length ≠ 0 := fun zero => some_ (List.length_eq_zero_iff.mp zero)
    have pad : padding chunk.length = 4 - chunk.length := by
      unfold padding
      omega
    rw [z85Of, ← List.append_nil (digits _), chunks_digits _ _ (by
      rw [List.length_append, List.length_replicate]
      omega), pad]
    · simp only [chunks, Except.map, List.append_nil]
    · exact many
    · exact some_

theorem length_z85Of (bytes : List UInt8) : (z85Of bytes).length % 5 = 0 := by
  induction bytes using z85Of.induct with
  | case1 a b c d rest ih =>
    rw [z85Of, List.length_append, length_digits]
    omega
  | case2 => rfl
  | case3 chunk many some_ =>
    rw [z85Of, length_digits]
    · exact many
    · exact some_

theorem z85_z85Of (bytes : List UInt8) :
    z85 (z85Of bytes) = .ok (bytes ++ List.replicate (padding bytes.length) 0) := by
  rw [z85, if_neg (by rw [length_z85Of]; decide), chunks_z85Of]

/-! ### The rows a scan reads of a file -/

/-- Rows read, or left out, one after another. -/
inductive Selector where
  | select (rows : Nat)
  | skip (rows : Nat)

/-- Whether each row of a selector is read. -/
def Selector.rows : Selector → List Bool
  | .select n => List.replicate n true
  | .skip n => List.replicate n false

/-- Parquet's row selections: made of selectors, or of ranges of rows one after another, and
intersected. `rows` is what one reads, row by row. -/
structure Parquet (σ : Type) where
  of_ : List Selector → σ
  ranges : List (Nat × Nat) → Nat → σ
  intersection : σ → σ → σ
  rows : σ → List Bool

/-- Ranges in order and apart, within a file's rows. -/
def Apart : Nat → List (Nat × Nat) → Nat → Prop
  | start, [], total => start ≤ total
  | start, range :: ranges, total =>
    start ≤ range.1 ∧ range.1 ≤ range.2 ∧ Apart range.2 ranges total

structure Parquet.Lawful {σ : Type} (parquet : Parquet σ) : Prop where
  of_ : ∀ selectors, parquet.rows (parquet.of_ selectors) = selectors.flatMap Selector.rows
  ranges : ∀ ranges total, Apart 0 ranges total →
    parquet.rows (parquet.ranges ranges total) = (List.range total).map fun i =>
      ranges.any fun range => decide (range.1 ≤ i) && decide (i < range.2)
  intersection : ∀ a b, (parquet.rows a).length = (parquet.rows b).length →
    parquet.rows (parquet.intersection a b) = List.zipWith and (parquet.rows a) (parquet.rows b)

/-- A file to scan: its rows, the places deleted, and the part of it that is read. -/
structure File where
  rows : Nat
  deleted : Option (List Nat)
  range : Option (Nat × Nat)
  only : Option (List Nat)

/-- The selectors of the rows from `at_` on, up to the last of `gone`, and where they end. -/
def keptFrom : Nat → List Nat → List Selector × Nat
  | at_, [] => ([], at_)
  | at_, g :: gone =>
    let rest := keptFrom (if at_ ≤ g then g + 1 else at_) gone
    ((if at_ < g then [.select (g - at_)] else []) ++ (if at_ ≤ g then [.skip 1] else []) ++ rest.1,
      rest.2)

section scans

variable {σ : Type} (parquet : Parquet σ)

/-- The rows a file keeps: all of its `rows` but the positions `gone`. -/
def kept (gone : List Nat) (rows : Nat) : σ :=
  let out := keptFrom 0 (gone.filter fun g => decide (g < rows))
  parquet.of_ (out.1 ++ if out.2 < rows then [.select (rows - out.2)] else [])

/-- The rows of a file a scan reads: those its deletes leave, in its range; or those at its
places. -/
def selected (f : File) : σ :=
  match f.only with
  | some places =>
    parquet.ranges ((places.filter fun p => decide (p < f.rows)).map fun p => (p, p + 1)) f.rows
  | none =>
    match f.range with
    | some range =>
      parquet.intersection (kept parquet (f.deleted.getD []) f.rows)
        (parquet.ranges [(range.1, min range.2 f.rows)] f.rows)
    | none => kept parquet (f.deleted.getD []) f.rows

end scans

/-- Whether a row is among the places from `at_` on. -/
theorem keptFrom_rows (at_ : Nat) (gone : List Nat) (order : gone.Pairwise (· ≤ ·)) (rows : Nat)
    (within : ∀ g ∈ gone, g < rows) (low : at_ ≤ rows) :
    at_ ≤ (keptFrom at_ gone).2 ∧ (keptFrom at_ gone).2 ≤ rows ∧
      (keptFrom at_ gone).1.flatMap Selector.rows =
        (List.range' at_ ((keptFrom at_ gone).2 - at_)).map (fun i => decide (i ∉ gone)) ∧
      ∀ g ∈ gone, g < (keptFrom at_ gone).2 := by
  induction gone generalizing at_ with
  | nil => simp [keptFrom, low]
  | cons g gone ih =>
    obtain ⟨first, rest⟩ := List.pairwise_cons.mp order
    have here := within g List.mem_cons_self
    have others := fun h inside => within h (List.mem_cons_of_mem g inside)
    rw [keptFrom]
    dsimp only
    by_cases past : at_ ≤ g
    · rw [if_pos past, if_pos past]
      obtain ⟨up, most, selectors, all⟩ := ih (g + 1) rest others here
      generalize keptFrom (g + 1) gone = out at up most selectors all ⊢
      have before : (if at_ < g then [Selector.select (g - at_)] else []).flatMap Selector.rows =
          (List.range' at_ (g - at_)).map (fun i => decide (i ∉ g :: gone)) := by
        have read : (List.range' at_ (g - at_)).map (fun i => decide (i ∉ g :: gone)) =
            List.replicate (g - at_) true := by
          apply List.eq_replicate_iff.mpr
          rw [List.length_map, List.length_range']
          refine ⟨rfl, fun b inside => ?_⟩
          obtain ⟨i, range, rfl⟩ := List.mem_map.mp inside
          have small := List.mem_range'_1.mp range
          apply decide_eq_true
          intro listed
          rcases List.mem_cons.mp listed with same | later
          · omega
          · have above := first i later
            omega
        rw [read]
        split
        · simp [Selector.rows]
        · rename_i none_
          rw [show g - at_ = 0 by omega]
          rfl
      have after : (List.range' (g + 1) (out.2 - (g + 1))).map (fun i => decide (i ∉ g :: gone)) =
          (List.range' (g + 1) (out.2 - (g + 1))).map (fun i => decide (i ∉ gone)) := by
        apply List.map_congr_left
        intro i range
        have high := (List.mem_range'_1.mp range).1
        have other : i ≠ g := by omega
        simp [other]
      have whole : List.range' at_ (out.2 - at_) =
          List.range' at_ (g - at_) ++ g :: List.range' (g + 1) (out.2 - (g + 1)) := by
        have parts : out.2 - at_ = (g - at_) + ((out.2 - (g + 1)) + 1) := by omega
        rw [parts, ← List.range'_append_1, List.range'_succ, show at_ + (g - at_) = g by omega]
      refine ⟨by omega, most, ?_, fun h inside => ?_⟩
      · rw [whole, List.map_append, List.map_cons, List.flatMap_append, List.flatMap_append, before,
          after, selectors]
        simp [Selector.rows]
      · rcases List.mem_cons.mp inside with rfl | later
        · exact up
        · exact all h later
    · rw [if_neg past, if_neg past, if_neg (by omega)]
      obtain ⟨up, most, selectors, all⟩ := ih at_ rest others low
      generalize keptFrom at_ gone = out at up most selectors all ⊢
      refine ⟨up, most, ?_, fun h inside => ?_⟩
      · rw [List.nil_append, List.nil_append, selectors]
        apply List.map_congr_left
        intro i range
        have high := (List.mem_range'_1.mp range).1
        have other : i ≠ g := by omega
        simp [other]
      · rcases List.mem_cons.mp inside with rfl | later
        · omega
        · exact all h later

section scans

variable {σ : Type} {parquet : Parquet σ} (lawful : parquet.Lawful)
include lawful

/-- What is kept covers the file, and is every row that isn't deleted. -/
theorem kept_rows (gone : List Nat) (order : gone.Pairwise (· ≤ ·)) (rows : Nat) :
    parquet.rows (kept parquet gone rows) =
      (List.range rows).map fun i => decide (i ∉ gone) := by
  have within : ∀ g ∈ gone.filter (fun g => decide (g < rows)), g < rows :=
    fun g inside => of_decide_eq_true (List.mem_filter.mp inside).2
  obtain ⟨_, most, selectors, all⟩ := keptFrom_rows 0 (gone.filter fun g => decide (g < rows))
    (List.Pairwise.filter _ order) rows within (Nat.zero_le rows)
  rw [kept]
  generalize keptFrom 0 (gone.filter fun g => decide (g < rows)) = out at most selectors all ⊢
  have rest : (if out.2 < rows then [Selector.select (rows - out.2)] else []).flatMap Selector.rows =
      (List.range' out.2 (rows - out.2)).map
        (fun i => decide (i ∉ gone.filter fun g => decide (g < rows))) := by
    have read : (List.range' out.2 (rows - out.2)).map
        (fun i => decide (i ∉ gone.filter fun g => decide (g < rows))) =
          List.replicate (rows - out.2) true := by
      apply List.eq_replicate_iff.mpr
      rw [List.length_map, List.length_range']
      refine ⟨rfl, fun b inside => ?_⟩
      obtain ⟨i, range, rfl⟩ := List.mem_map.mp inside
      have high := (List.mem_range'_1.mp range).1
      apply decide_eq_true
      intro listed
      have below := all i listed
      omega
    rw [read]
    split
    · simp [Selector.rows]
    · rw [show rows - out.2 = 0 by omega]
      rfl
  have whole : List.range rows =
      List.range' 0 (out.2 - 0) ++ List.range' out.2 (rows - out.2) := by
    rw [List.range_eq_range', show rows = (out.2 - 0) + (rows - out.2) by omega,
      ← List.range'_append_1]
    simp
  rw [lawful.of_, List.flatMap_append, selectors, rest, ← List.map_append, ← whole]
  apply List.map_congr_left
  intro i range
  have small := List.mem_range.mp range
  simp [small]

/-- Within a range, what is kept of the range. -/
theorem selected_range (f : File) (places : f.only = none) (low high : Nat)
    (range : f.range = some (low, high)) (within : low ≤ min high f.rows)
    (order : (f.deleted.getD []).Pairwise (· ≤ ·)) :
    parquet.rows (selected parquet f) = (List.range f.rows).map fun i =>
      decide (i ∉ f.deleted.getD []) && (decide (low ≤ i) && decide (i < high)) := by
  have rows := kept_rows lawful (f.deleted.getD []) order f.rows
  have part := lawful.ranges [(low, min high f.rows)] f.rows
    ⟨Nat.zero_le low, within, Nat.min_le_right high f.rows⟩
  simp only [selected, places, range]
  rw [lawful.intersection _ _ (by rw [rows, part, List.length_map, List.length_map]), rows, part,
    List.zipWith_map, List.zipWith_self]
  apply List.map_congr_left
  intro i inside
  have small := List.mem_range.mp inside
  have same : decide (i < min high f.rows) = decide (i < high) := by
    rw [decide_eq_decide]
    omega
  simp only [List.any_cons, List.any_nil, Bool.or_false, same]

end scans

theorem padding_whole (length : Nat) :
    padding length < 4 ∧ (length + padding length) % 4 = 0 := by
  unfold padding
  omega

/-! ### Deletion vectors, there and back -/

/-- Selections as the rows themselves. -/
def plainRows : Parquet (List Bool) where
  of_ selectors := selectors.flatMap Selector.rows
  ranges ranges total := (List.range total).map fun i =>
    ranges.any fun range => decide (range.1 ≤ i) && decide (i < range.2)
  intersection a b := List.zipWith and a b
  rows := id

theorem plainRows_lawful : plainRows.Lawful where
  of_ _ := rfl
  ranges _ _ _ := rfl
  intersection _ _ _ := rfl

/-- A bitmap with an array, and one run that ends at its container's last value. -/
def runToEnd : Bitmap := ⟨true, [(0, .array [1, 7]), (2, .runs [(65534, 1)])]⟩

theorem runToEnd_wellFormed : runToEnd.WellFormed where
  keys := by decide
  small := by decide
  each c inside := by
    simp only [runToEnd, List.mem_cons, List.not_mem_nil, or_false] at inside
    rcases inside with rfl | rfl
    · exact ⟨by decide, by decide, by decide, by simp, by simp, by simp⟩
    · exact ⟨by decide, by decide, by decide, by simp, by simp, by simp⟩
  some_ := by decide
  unmarked := by decide

end Pondra.Scan
