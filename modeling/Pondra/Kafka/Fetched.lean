import Pondra.Base.Machine
import Pondra.Kafka.Consume

set_option autoImplicit false

namespace Pondra.Kafka

open Dicts Searches Machines Log

/-! ### The rows from an offset on -/

/-- A segment's rows of the table with a place at the offset or after it. -/
def left (table : String) (offset : Nat) (seg : Nat × Segment) : List (Nat × Nat) :=
  ((List.range (seg.2.rows table)).filter fun row => decide (offset ≤ ord seg.1 row)).map fun row =>
    (seg.1, row)

/-- The table's visible rows from the offset on, in the order of the log. -/
def rowsFrom (tail : Tail) (table : String) (offset : Nat) : List (Nat × Nat) :=
  (tail.between 0 (tail.visible + 1)).flatMap (left table offset)

/-- The commit numbers that places tell apart, and a consumer's signed offsets. -/
def Tail.Small (tail : Tail) : Prop := tail.visible + 1 ≤ 2 ^ 39

theorem ord_of_lt (seg row : Nat) (fits : seg * 2 ^ 24 + row < 2 ^ 64) :
    ord seg row = seg * 2 ^ 24 + row := by
  have shifted : seg <<< ordBits = seg * 2 ^ 24 := Nat.shiftLeft_eq seg 24
  have inner : seg * 2 ^ 24 % 2 ^ 64 = seg * 2 ^ 24 :=
    Nat.mod_eq_of_lt ((Nat.le_add_right _ _).trans_lt fits)
  rw [ord, shifted, inner, Nat.mod_eq_of_lt fits]

theorem ord_zero (seg : Nat) (fits : seg * 2 ^ 24 < 2 ^ 64) : ord seg 0 = seg * 2 ^ 24 := by
  have place := ord_of_lt seg 0 ((Nat.add_zero _).symm ▸ fits)
  rw [place, Nat.add_zero]

theorem rows_le (segment : Segment) (table : String) : segment.rows table ≤ segment.span * 2 ^ 24 := by
  cases rows : segment.rows table with
  | zero => exact Nat.zero_le _
  | succ row => exact segment.rows_lt table row (by omega)

theorem filter_range (least count : Nat) :
    ((List.range count).filter fun row => decide (least ≤ row)) =
      List.range' (min least count) (count - min least count) := by
  induction count with
  | zero => simp
  | succ count ih =>
    rw [List.range_succ, List.filter_append, ih]
    by_cases under : least ≤ count
    · rw [List.filter_cons_of_pos (by simpa using under), List.filter_nil]
      have low : min least (count + 1) = min least count := by omega
      have more : count + 1 - min least (count + 1) = count - min least count + 1 := by omega
      rw [more, low, List.range'_concat]
      congr 2
      omega
    · rw [List.filter_cons_of_neg (by simpa using under), List.filter_nil, List.append_nil]
      have low : min least count = count := by omega
      have low' : min least (count + 1) = count + 1 := by omega
      rw [low, low', Nat.sub_self, Nat.sub_self]
      rfl

section read

variable {table : String} {bytes : Nat × Segment → Nat → Nat → Nat} {offset limit : Nat}

/-- A segment whose rows' places are what they should be. -/
def InPlace (seg : Nat × Segment) : Prop := seg.1 + seg.2.span ≤ 2 ^ 39

theorem InPlace.ord {seg : Nat × Segment} (fits : InPlace seg) (table : String) (row : Nat)
    (within : row ≤ seg.2.rows table) : Log.ord seg.1 row = seg.1 * 2 ^ 24 + row := by
  have most := rows_le seg.2 table
  have whole : seg.1 + seg.2.span ≤ 2 ^ 39 := fits
  have fits : seg.1 * 2 ^ 24 + row < 2 ^ 64 := by omega
  exact ord_of_lt seg.1 row fits

theorem left_eq (seg : Nat × Segment) (fits : InPlace seg) :
    left table offset seg =
      (List.range' (min (offset - Log.ord seg.1 0) (seg.2.rows table))
        (seg.2.rows table - min (offset - Log.ord seg.1 0) (seg.2.rows table))).map fun row =>
          (seg.1, row) := by
  have low := fits.ord table 0 (Nat.zero_le _)
  rw [left, ← filter_range]
  refine congrArg (List.map fun row => (seg.1, row)) (List.filter_congr ?_)
  intro row inside
  have place := fits.ord table row (Nat.le_of_lt (List.mem_range.mp inside))
  rw [place, low]
  simp only [decide_eq_decide]
  omega

theorem range'_split (start count more : Nat) (within : count ≤ more) :
    List.range' start more = List.range' start count ++ List.range' (start + count) (more - count) := by
  have whole : more = count + (more - count) := by omega
  conv_lhs => rw [whole]
  rw [List.range'_append_1]

/-- What a read of some segments takes of their rows: the first ones; all of them unless it stops, or has
its bytes. -/
structure Takes (table : String) (offset limit : Nat) (segs : List (Nat × Segment)) (out : Read)
    (read : Read × Bool) : Prop where
  splits : ∃ taken rest, read.1.rows = out.rows ++ taken ∧
    segs.flatMap (left table offset) = taken ++ rest ∧
    (rest = [] ∨ read.2 = true ∨ limit ≤ read.1.size)
  stops : read.2 = true → read.1.rows ≠ []
  empty : read.1.rows = [] → read.1.size = 0

theorem readSegment_takes (seg : Nat × Segment) (fits : InPlace seg) (out : Read)
    (empty : out.rows = [] → out.size = 0) :
    Takes table offset limit [seg] out (readSegment table bytes offset limit seg out) := by
  have single : [seg].flatMap (left table offset) = left table offset seg := by
    rw [List.flatMap_cons, List.flatMap_nil, List.append_nil]
  have logged : rowsOf (Shelf.of seg.2.parts table) ≤ seg.2.rows table := by
    rw [Segment.rows, tableRows]
    exact Nat.le_add_right _ _
  have whole := fits.ord table (seg.2.rows table) (Nat.le_refl _)
  have low := fits.ord table 0 (Nat.zero_le _)
  have piece : 1000 ≤ pieceOf limit := Nat.le_max_left _ _
  unfold readSegment
  simp only
  split
  · rename_i skipped
    refine ⟨⟨[], left table offset seg, (List.append_nil _).symm, single, ?_⟩,
      fun stop => (by cases stop), empty⟩
    rcases skipped with before | full
    · have none : seg.2.rows table - min (offset - Log.ord seg.1 0) (seg.2.rows table) = 0 := by
        omega
      rw [left_eq seg fits, none]
      exact .inl rfl
    · exact .inr (.inr full)
  · rename_i reads
    generalize held : seg.2.rows table = rows at *
    generalize begun : min (offset - Log.ord seg.1 0) rows = start at *
    generalize rowsOf (Shelf.of seg.2.parts table) = parts at *
    generalize counted : (parts - start) + min (pieceOf limit) (rows - parts - (start - parts)) =
      count at *
    have within : count ≤ rows - start := by omega
    have splits : left table offset seg = (List.range' start count).map (fun row => (seg.1, row)) ++
        (List.range' (start + count) (rows - start - count)).map fun row => (seg.1, row) := by
      rw [left_eq seg fits, held, begun, range'_split start count _ within, List.map_append]
    have rest : (List.range' (start + count) (rows - start - count)).map (fun row => (seg.1, row)) =
        [] ∨ decide (start - parts + pieceOf limit < rows - parts) = true := by
      by_cases stops : start - parts + pieceOf limit < rows - parts
      · exact .inr (by simpa using stops)
      · have all : rows - start - count = 0 := by omega
        rw [all]
        exact .inl rfl
    have some (stops : decide (start - parts + pieceOf limit < rows - parts) = true) : 0 < count := by
      have stops := of_decide_eq_true stops
      omega
    by_cases more : 0 < count
    · rw [if_pos more]
      have filled : out.rows ++ (List.range' start count).map (fun row => (seg.1, row)) ≠ [] := by
        intro none
        have length := congrArg List.length none
        rw [List.length_append, List.length_map, List.length_range', List.length_nil] at length
        omega
      refine ⟨⟨_, _, rfl, single.trans splits, ?_⟩, fun _ => filled, fun none => absurd none filled⟩
      rcases rest with none | stops
      · exact .inl none
      · exact .inr (.inl stops)
    · rw [if_neg more]
      have none : count = 0 := by omega
      rw [none] at splits rest
      refine ⟨⟨[], _, (List.append_nil _).symm, single.trans splits, ?_⟩,
        fun stops => absurd (some stops) more, empty⟩
      rcases rest with none | stops
      · exact .inl none
      · exact .inr (.inl stops)

/-- Once it has its bytes it reads no more. -/
theorem readWindow_full (segs : List (Nat × Segment)) (out : Read) (full : limit ≤ out.size) :
    readWindow table bytes offset limit segs out = (out, false) := by
  induction segs with
  | nil => rfl
  | cons seg rest ih =>
    have skips : readSegment table bytes offset limit seg out = (out, false) :=
      if_pos (.inr full)
    rw [readWindow, skips]
    exact ih

theorem readWindow_takes (segs : List (Nat × Segment)) (fits : ∀ seg ∈ segs, InPlace seg) (out : Read)
    (empty : out.rows = [] → out.size = 0) :
    Takes table offset limit segs out (readWindow table bytes offset limit segs out) := by
  induction segs generalizing out with
  | nil => exact ⟨⟨[], [], (List.append_nil _).symm, rfl, .inl rfl⟩, fun stop => (by cases stop), empty⟩
  | cons seg rest ih =>
    have first : Takes table offset limit [seg] out (readSegment table bytes offset limit seg out) :=
      readSegment_takes seg (fits seg List.mem_cons_self) out empty
    unfold readWindow
    simp only
    generalize readSegment table bytes offset limit seg out = one at first
    obtain ⟨⟨taken, skipped, rows, split, why⟩, stops, none⟩ := first
    rw [List.flatMap_cons, List.flatMap_nil, List.append_nil] at split
    split
    · rename_i stop
      refine ⟨⟨taken, skipped ++ rest.flatMap (left table offset), rows, ?_, .inr (.inl rfl)⟩,
        fun _ => stops stop, none⟩
      rw [List.flatMap_cons, split, List.append_assoc]
    · rename_i goes
      have later := ih (fun other inside => fits other (List.mem_cons_of_mem _ inside)) one.1 none
      by_cases whole : skipped = []
      · obtain ⟨⟨more, others, rows', split', why'⟩, stops', none'⟩ := later
        refine ⟨⟨taken ++ more, others, ?_, ?_, why'⟩, stops', none'⟩
        · rw [rows', rows, List.append_assoc]
        · rw [List.flatMap_cons, split, split', whole, List.append_nil, List.append_assoc]
      · have full : limit ≤ one.1.size := by
          rcases why with none | stop | full
          · exact absurd none whole
          · exact absurd stop goes
          · exact full
        have same : readWindow table bytes offset limit rest one.1 = (one.1, false) :=
          readWindow_full rest one.1 full
        rw [same]
        refine ⟨⟨taken, skipped ++ rest.flatMap (left table offset), rows, ?_, .inr (.inr full)⟩,
          fun stop => (by cases stop), none⟩
        rw [List.flatMap_cons, split, List.append_assoc]

variable {tail : Tail}

theorem Tail.Sound.fits (sound : tail.Sound) (small : tail.Small) (seg : Nat × Segment)
    (inside : seg ∈ tail.segs) (shown : seg.1 ≤ tail.visible) : InPlace seg :=
  (sound.whole seg inside shown).trans small

/-- With no bytes to take it takes none. -/
theorem readFrom_none (fuel low : Nat) :
    (readFrom table bytes offset 0 tail fuel low).rows = [] := by
  induction fuel generalizing low with
  | zero => rfl
  | succ fuel ih =>
    unfold readFrom
    simp only [readWindow_full _ _ (Nat.zero_le _)]
    split
    · rw [if_neg (by simp)]
      exact ih _
    · rfl

/-- Window after window, a fetch takes the first rows from a number on, at least one if there is one and
it may take any. -/
theorem readFrom_takes (sound : tail.Sound) (small : tail.Small) (fuel low : Nat)
    (enough : tail.visible + 1 - low ≤ fuel) :
    ∃ rest, (tail.between low (tail.visible + 1)).flatMap (left table offset) =
        (readFrom table bytes offset limit tail fuel low).rows ++ rest ∧
      (0 < limit → (readFrom table bytes offset limit tail fuel low).rows = [] → rest = []) := by
  have ends (low : Nat) (past : tail.visible < low) : tail.between low (tail.visible + 1) = [] := by
    rw [List.eq_nil_iff_forall_not_mem]
    intro seg inside
    have within := (Tail.mem_between low _ seg).mp inside
    omega
  induction fuel generalizing low with
  | zero => exact ⟨[], by rw [ends low (by omega)]; rfl, fun _ _ => rfl⟩
  | succ fuel ih =>
    unfold readFrom
    by_cases more : low ≤ tail.visible
    · rw [if_pos more]
      simp only
      have takes : Takes table offset limit (tail.between low (min tail.visible (low + 4095) + 1))
          ⟨[], 0⟩ (readWindow table bytes offset limit
            (tail.between low (min tail.visible (low + 4095) + 1)) ⟨[], 0⟩) :=
        readWindow_takes _ (fun seg inside => by
          have within := (Tail.mem_between low _ seg).mp inside
          exact sound.fits small seg within.1 (by omega)) ⟨[], 0⟩ fun _ => rfl
      have splits := sound.between_append low (min tail.visible (low + 4095) + 1) (tail.visible + 1)
        (by omega) (by omega)
      generalize readWindow table bytes offset limit
        (tail.between low (min tail.visible (low + 4095) + 1)) ⟨[], 0⟩ = window at takes
      obtain ⟨⟨taken, rest, rows, split, why⟩, stops, empty⟩ := takes
      rw [List.nil_append] at rows
      rw [splits, List.flatMap_append, split]
      split
      · rename_i done
        rw [rows]
        refine ⟨_, List.append_assoc _ _ _, fun _ none => ?_⟩
        rcases done with stop | some
        · exact absurd (rows.trans none) (stops stop)
        · exact absurd (rows.trans none) some
      · rename_i on'
        rw [not_or, not_not] at on'
        obtain ⟨goes, none⟩ := on'
        obtain ⟨later, whole, all⟩ := ih (min tail.visible (low + 4095) + 1) (by omega)
        have blank : taken = [] := rows.symm.trans none
        rw [blank, List.nil_append, whole]
        by_cases skipped : rest = []
        · rw [skipped, List.nil_append]
          exact ⟨later, rfl, all⟩
        · have full : limit = 0 := by
            have size := empty none
            rcases why with none | stop | full
            · exact absurd none skipped
            · exact absurd stop goes
            · omega
          have nothing : (readFrom table bytes offset limit tail fuel
              (min tail.visible (low + 4095) + 1)).rows = [] := by
            rw [full]
            exact readFrom_none fuel _
          rw [nothing]
          exact ⟨rest ++ later, rfl, fun some => by omega⟩
    · rw [if_neg more]
      exact ⟨[], by rw [ends low (by omega)]; rfl, fun _ _ => rfl⟩

/-- Does the search for the oldest segment come to no empty window past a visible one? -/
def Tail.Found (tail : Tail) : Prop :=
  ∀ mid ∈ tail.firstProbes, tail.held mid = false →
    ∀ seg ∈ tail.segs, seg.1 ≤ tail.visible → mid ≤ seg.1

instance (tail : Tail) : Decidable tail.Found :=
  inferInstanceAs (Decidable (∀ mid ∈ tail.firstProbes, _ = _ → ∀ seg ∈ tail.segs, _ ≤ _ → _ ≤ _))

/-- No segment more than 64 numbers before an offset's own has rows of the table from the offset on. -/
def Tail.Near (tail : Tail) (table : String) (offset : Nat) : Prop :=
  ∀ seg ∈ tail.segs, seg.1 ≤ tail.visible → seg.1 + 64 < offset >>> ordBits →
    ord seg.1 (seg.2.rows table) ≤ offset

instance (tail : Tail) (table : String) (offset : Nat) : Decidable (tail.Near table offset) :=
  inferInstanceAs (Decidable (∀ seg ∈ tail.segs, _ ≤ _ → _ < _ → _ ≤ _))

theorem Tail.Sound.found_iff (sound : tail.Sound) (seg : Nat × Segment)
    (rest : List (Nat × Segment)) (segs : tail.segs = seg :: rest) (shown : seg.1 ≤ tail.visible) :
    tail.firstSegment = seg.1 ↔ tail.Found := by
  have numbers := sound.numbers
  rw [segs, List.pairwise_cons] at numbers
  rw [sound.firstSegment_iff seg rest segs shown]
  constructor
  · intro low mid probed empty other inside _
    have first := low mid probed empty
    rw [segs] at inside
    rcases List.mem_cons.mp inside with rfl | inside
    · exact first
    · have after := numbers.1 other inside
      omega
  · intro found mid probed empty
    exact found mid probed empty seg (by rw [segs]; exact List.mem_cons_self) shown

theorem Tail.Sound.begins (sound : tail.Sound) (found : tail.Found) (seg : Nat × Segment)
    (inside : seg ∈ tail.segs) (shown : seg.1 ≤ tail.visible) : tail.firstSegment ≤ seg.1 := by
  have numbers := sound.numbers
  cases segs : tail.segs with
  | nil =>
    rw [segs] at inside
    cases inside
  | cons first rest =>
    rw [segs] at numbers inside
    have least : first.1 ≤ seg.1 := by
      rcases List.mem_cons.mp inside with rfl | inside
      · exact Nat.le_refl _
      · exact Nat.le_of_lt ((List.pairwise_cons.mp numbers).1 seg inside)
    have same := (sound.found_iff first rest segs (by omega)).mpr found
    omega

theorem left_none (seg : Nat × Segment) (fits : InPlace seg)
    (before : Log.ord seg.1 (seg.2.rows table) ≤ offset) : left table offset seg = [] := by
  have whole := fits.ord table _ (Nat.le_refl (seg.2.rows table))
  have low := fits.ord table 0 (Nat.zero_le _)
  have none : seg.2.rows table - min (offset - Log.ord seg.1 0) (seg.2.rows table) = 0 := by omega
  rw [left_eq seg fits, none]
  rfl

/-- A fetch takes the first of the rows from its offset on, at least one if there is one and it may take
any. -/
theorem fetch_takes (sound : tail.Sound) (small : tail.Small) (found : tail.Found)
    (near : tail.Near table offset) :
    ∃ rest, rowsFrom tail table offset =
        (fetch tail table bytes offset limit).getD [] ++ rest ∧
      (0 < limit → (fetch tail table bytes offset limit).getD [] = [] → rest = []) := by
  have small' : tail.visible + 1 ≤ 2 ^ 39 := small
  have shown (seg : Nat × Segment) (inside : seg ∈ tail.between 0 (tail.visible + 1)) :
      seg ∈ tail.segs ∧ seg.1 ≤ tail.visible ∧ InPlace seg ∧ tail.firstSegment ≤ seg.1 := by
    obtain ⟨held, _, within⟩ := (Tail.mem_between 0 _ seg).mp inside
    exact ⟨held, by omega, sound.fits small seg held (by omega),
      sound.begins found seg held (by omega)⟩
  have high : Log.ord (tail.visible + 1) 0 = (tail.visible + 1) * 2 ^ 24 :=
    ord_zero _ (by omega)
  have first (some : tail.firstSegment ≤ tail.visible) :
      Log.ord tail.firstSegment 0 = tail.firstSegment * 2 ^ 24 := ord_zero _ (by omega)
  have ends (seg : Nat × Segment) (fits : InPlace seg) (held : seg ∈ tail.segs)
      (within : seg.1 ≤ tail.visible) :
      Log.ord seg.1 (seg.2.rows table) ≤ Log.ord (tail.visible + 1) 0 := by
    have whole := sound.whole seg held within
    have most := rows_le seg.2 table
    rw [fits.ord table _ (Nat.le_refl _), high]
    omega
  have none (nothing : ∀ seg ∈ tail.between 0 (tail.visible + 1), left table offset seg = []) :
      rowsFrom tail table offset = [] := List.flatMap_eq_nil_iff.mpr nothing
  unfold fetch
  simp only
  generalize start : max offset (Log.ord tail.firstSegment 0) = low
  have same : rowsFrom tail table offset = rowsFrom tail table low := by
    refine List.flatMap_congr fun seg inside => ?_
    obtain ⟨_, within, fits, least⟩ := shown seg inside
    have begun := first (by omega)
    have zero := fits.ord table 0 (Nat.zero_le _)
    rw [left_eq seg fits, left_eq seg fits]
    have above : offset - Log.ord seg.1 0 = low - Log.ord seg.1 0 := by omega
    rw [above]
  split
  · rename_i within
    rw [same, Option.getD_some]
    have from' : tail.between 0 (tail.visible + 1) =
        tail.between 0 (min (low >>> ordBits - 64) (tail.visible + 1)) ++
          tail.between (min (low >>> ordBits - 64) (tail.visible + 1)) (tail.visible + 1) :=
      sound.between_append _ _ _ (Nat.zero_le _) (Nat.min_le_right _ _)
    have front : (tail.between 0 (min (low >>> ordBits - 64) (tail.visible + 1))).flatMap
        (left table low) = [] := by
      refine List.flatMap_eq_nil_iff.mpr fun seg inside => ?_
      have back : seg ∈ tail.between 0 (tail.visible + 1) := by
        rw [from']
        exact List.mem_append_left _ inside
      obtain ⟨held, within, fits, least⟩ := shown seg back
      obtain ⟨_, _, before⟩ := (Tail.mem_between _ _ seg).mp inside
      apply left_none seg fits
      have begun := first (by omega)
      have shifted : low >>> ordBits = low / 2 ^ 24 := Nat.shiftRight_eq_div_pow low 24
      rcases Nat.le_total offset (Log.ord tail.firstSegment 0) with less | more
      · omega
      · have own : low = offset := by omega
        rw [own]
        exact near seg held within (by rw [← own]; omega)
    obtain ⟨rest, whole, all⟩ := @readFrom_takes table bytes low limit tail sound small
      (tail.visible + 1) (low >>> ordBits - 64) (by omega)
    refine ⟨rest, ?_, all⟩
    rw [rowsFrom, from', List.flatMap_append, front, List.nil_append]
    rcases Nat.le_total (low >>> ordBits - 64) (tail.visible + 1) with less | more
    · rw [Nat.min_eq_left less]
      exact whole
    · have shifted : low >>> ordBits = low / 2 ^ 24 := Nat.shiftRight_eq_div_pow low 24
      omega
  · rename_i beyond
    refine ⟨[], ?_, fun _ _ => rfl⟩
    rw [same]
    refine List.flatMap_eq_nil_iff.mpr fun seg inside => ?_
    obtain ⟨held, within, fits, _⟩ := shown seg inside
    have before := ends seg fits held within
    exact left_none seg fits (by omega)

end read

end Pondra.Kafka
