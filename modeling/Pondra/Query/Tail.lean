import Mathlib.Algebra.GroupWithZero.Nat
import Mathlib.Data.List.Basic

set_option autoImplicit false

namespace Pondra.Query

/-- What a log tail is read with: a key's `_ord`, the system columns, the fields. -/
structure Form where
  keyed : Bool
  sys : Bool
  fields : String
deriving DecidableEq

/-- A segment of the log: its batches of the table's rows, if it has the table, and its time. -/
structure Segment (Row : Type) where
  parts : Option (List (List Row))
  ts : Nat

section tail

variable {Row Out : Type}

/-- The log's segments by number, in the order of their commits. -/
abbrev Log (Row : Type) := List (Nat × Segment Row)

/-- A log row as a form's readers take it (its segment, its place there, its time): conformed, with
its system columns and its `_ord`. -/
abbrev Made (Row Out : Type) := Form → Nat → Nat → Nat → Row → Out

/-- A segment's batches, each row by its place in the segment. -/
def placed (f : Nat → Row → Out) : Nat → List (List Row) → List (List Out)
  | _, [] => []
  | pos, batch :: batches =>
    batch.mapIdx (fun i row => f (pos + i) row) :: placed f (pos + batch.length) batches

/-- The segments of `(after, upto]` a scan as of the commit `view` finds. -/
def scanned (log : Log Row) (view after : Nat) (upto : Option Nat) : Log Row :=
  log.filter fun entry =>
    decide (after + 1 ≤ entry.1) && upto.all (fun u => decide (entry.1 < u + 1)) &&
      decide (entry.1 ≤ view)

/-- The table's rows a segment at a time, and the newest segment the scan saw, of any table. -/
def tailSegments (made : Made Row Out) (form : Form) (log : Log Row) (view after : Nat)
    (upto : Option Nat) : List (Nat × List (List Out)) × Nat :=
  ((scanned log view after upto).filterMap fun entry =>
      entry.2.parts.map fun parts =>
        (entry.1, placed (made form entry.1 · entry.2.ts) 0 parts),
    (scanned log view after upto).foldl (fun seen entry => max seen entry.1) after)

/-- A table's log tail as its queries read it, kept from one query to the next. -/
structure Tail (Out : Type) where
  /-- The table's `tiered` mark it was read after, and the form it was read with. -/
  mark : Nat
  form : Form
  /-- Every segment up to here is in it. -/
  through : Nat
  rows : List (List Out)
  /-- Each segment with rows of the table, and the rows up to its end. -/
  ends : List (Nat × Nat)
  bytes : Nat

def tailBatch : Nat := 8192

/-- The first `left` rows of batches. -/
def slices : Nat → List (List Out) → List (List Out)
  | _, [] => []
  | left, batch :: batches =>
    if left = 0 then []
    else
      (if min left batch.length = batch.length then batch else batch.take (min left batch.length)) ::
        slices (left - min left batch.length) batches

/-- Its rows up to segment `u`: a prefix. -/
def Tail.upto (t : Tail Out) (u : Nat) : List (List Out) :=
  slices (((t.ends.takeWhile fun e => decide (e.1 ≤ u)).getLast?).elim 0 Prod.snd) t.rows

/-- The new segments' batches that have rows, and where each segment ends, after `total` rows. -/
def ended : Nat → List (Nat × List (List Out)) → List (List Out) × List (Nat × Nat)
  | _, [] => ([], [])
  | total, (n, batches) :: segs =>
    let some_ := batches.filter fun b => decide (0 < b.length)
    let rest := ended (total + (some_.map List.length).sum) segs
    (some_ ++ rest.1,
      if total < total + (some_.map List.length).sum then
        (n, total + (some_.map List.length).sum) :: rest.2
      else rest.2)

/-- A batch's rows in slices of `tailBatch`. -/
def cut (all : List Out) : List (List Out) :=
  (List.range ((all.length + (tailBatch - 1)) / tailBatch)).map fun i =>
    (all.drop (i * tailBatch)).take tailBatch

/-- How many batches at the end are small. -/
def smallAtEnd (rows : List (List Out)) : Nat :=
  (rows.reverse.takeWhile fun b => decide (b.length < tailBatch)).length

/-- `size` is the memory a batch takes. -/
def Tail.add (size : List Out → Nat) (t : Tail Out) (segs : List (Nat × List (List Out))) :
    Tail Out :=
  let (new, ends) := ended (t.ends.getLast?.elim 0 Prod.snd) segs
  let t := { t with
    ends := t.ends ++ ends
    bytes := t.bytes + (new.map size).sum
    rows := t.rows ++ new }
  let small := smallAtEnd t.rows
  let tail := t.rows.drop (t.rows.length - small)
  -- the small batches at the end become one once they would fill it
  if 1 < small ∧ tailBatch ≤ (tail.map List.length).sum then
    { t with
      bytes := t.bytes + size tail.flatten - (tail.map size).sum
      rows := t.rows.take (t.rows.length - small) ++ cut tail.flatten }
  else t

/-- A tail with the segments a scan as of the commit `view` finds after it. -/
def Tail.extended (made : Made Row Out) (size : List Out → Nat) (log : Log Row) (view : Nat)
    (upto : Option Nat) (t : Tail Out) : Tail Out :=
  { t.add size (tailSegments made t.form log view t.through upto).1 with
    through := max t.through (tailSegments made t.form log view t.through upto).2 }

/-! ### What a tail holds -/

/-- The segments of `(after, upto]`. -/
def entries (log : Log Row) (after upto : Nat) : Log Row :=
  log.filter fun entry => decide (after < entry.1) && decide (entry.1 ≤ upto)

/-- A segment's rows of the table, as a form's readers take them. -/
def rowsOf (made : Made Row Out) (form : Form) (entry : Nat × Segment Row) : List Out :=
  (entry.2.parts.getD []).flatten.mapIdx fun pos row => made form entry.1 pos entry.2.ts row

/-- The table's rows of the segments of `(after, upto]`, in order. -/
def rowsBetween (made : Made Row Out) (form : Form) (log : Log Row) (after upto : Nat) :
    List Out :=
  (entries log after upto).flatMap (rowsOf made form)

/-- Where each of some segments with rows ends, after `total` rows. -/
def endsOf : Nat → List (Nat × List Out) → List (Nat × Nat)
  | _, [] => []
  | total, (n, rows) :: segs =>
    if rows.isEmpty then endsOf total segs
    else (n, total + rows.length) :: endsOf (total + rows.length) segs

/-- The numbers of segments only grow. -/
def InOrder {α : Type} (segs : List (Nat × α)) : Prop := segs.Pairwise fun a b => a.1 < b.1

/-- A tail of a log: exactly the rows of its segments after its mark, and their ends. -/
structure Tail.Of (made : Made Row Out) (log : Log Row) (t : Tail Out) : Prop where
  low : t.mark ≤ t.through
  rows : t.rows.flatten = rowsBetween made t.form log t.mark t.through
  ends : t.ends = endsOf 0 ((entries log t.mark t.through).map fun entry =>
    (entry.1, rowsOf made t.form entry))

/-! ### Batches -/

theorem flatten_placed (f : Nat → Row → Out) (pos : Nat) (batches : List (List Row)) :
    (placed f pos batches).flatten = batches.flatten.mapIdx fun i row => f (pos + i) row := by
  induction batches generalizing pos with
  | nil => rfl
  | cons batch batches ih =>
    rw [placed, List.flatten_cons, List.flatten_cons, ih, List.mapIdx_append]
    congr 1
    apply List.mapIdx_eq_mapIdx_iff.mpr
    intro i _
    rw [Nat.add_assoc, Nat.add_comm batch.length i]

theorem flatten_slices (left : Nat) (batches : List (List Out)) :
    (slices left batches).flatten = batches.flatten.take left := by
  induction batches generalizing left with
  | nil => rw [slices, List.flatten_nil, List.take_nil]
  | cons batch batches ih =>
    rw [slices]
    split
    · rename_i none_
      rw [none_, List.flatten_nil, List.take_zero]
    · rw [List.flatten_cons, List.flatten_cons, ih, List.take_append]
      by_cases whole : min left batch.length = batch.length
      · have all : batch.take left = batch := List.take_of_length_le (by omega)
        rw [if_pos whole, whole, all]
      · have less : min left batch.length = left := by omega
        rw [if_neg whole, less, Nat.sub_self, List.take_zero, Nat.sub_eq_zero_of_le (by omega),
          List.take_zero]

theorem flatten_filter_some (batches : List (List Out)) :
    (batches.filter fun b => decide (0 < b.length)).flatten = batches.flatten := by
  induction batches with
  | nil => rfl
  | cons batch batches ih =>
    cases batch with
    | nil => simpa using ih
    | cons x xs =>
      rw [List.filter_cons_of_pos (by simp), List.flatten_cons, List.flatten_cons, ih]

theorem flatten_cut (all : List Out) : (cut all).flatten = all := by
  have prefixes : ∀ k, ((List.range k).map fun i => (all.drop (i * tailBatch)).take tailBatch).flatten =
      all.take (k * tailBatch) := by
    intro k
    induction k with
    | zero => rw [Nat.zero_mul, List.take_zero]; rfl
    | succ k ih =>
      rw [List.range_succ, List.map_append, List.flatten_append, ih, Nat.succ_mul, List.take_add]
      simp
  rw [cut, prefixes, List.take_of_length_le]
  have ceil := Nat.div_add_mod (all.length + (tailBatch - 1)) tailBatch
  have rest := Nat.mod_lt (all.length + (tailBatch - 1)) (show 0 < tailBatch by decide)
  have one : 0 < tailBatch := by decide
  rw [Nat.mul_comm] at ceil
  omega

/-- The new batches have the segments' rows, and the ends are theirs. -/
theorem ended_eq (total : Nat) (segs : List (Nat × List (List Out))) :
    (ended total segs).1.flatten = segs.flatMap (fun seg => seg.2.flatten) ∧
      (ended total segs).2 = endsOf total (segs.map fun seg => (seg.1, seg.2.flatten)) := by
  induction segs generalizing total with
  | nil => exact ⟨rfl, rfl⟩
  | cons seg segs ih =>
    obtain ⟨n, batches⟩ := seg
    have count : ((batches.filter fun b => decide (0 < b.length)).map List.length).sum =
        batches.flatten.length := by
      rw [← List.length_flatten, flatten_filter_some]
    obtain ⟨rows, ends⟩ := ih (total + batches.flatten.length)
    constructor
    · simp only [ended, count, List.flatten_append, flatten_filter_some, rows, List.flatMap_cons]
    · simp only [ended, count, ends, List.map_cons, endsOf, List.isEmpty_iff]
      by_cases none_ : batches.flatten = []
      · rw [if_pos none_, none_, List.length_nil, Nat.add_zero, if_neg (Nat.lt_irrefl total)]
      · have some_ := List.length_pos_of_ne_nil none_
        rw [if_neg none_, if_pos (by omega)]

/-- Joining small batches moves no row. -/
theorem Tail.flatten_add (size : List Out → Nat) (t : Tail Out)
    (segs : List (Nat × List (List Out))) :
    (t.add size segs).rows.flatten =
      t.rows.flatten ++ segs.flatMap (fun seg => seg.2.flatten) := by
  unfold Tail.add
  dsimp only
  split
  · rw [List.flatten_append, flatten_cut, ← List.flatten_append, List.take_append_drop,
      List.flatten_append, (ended_eq _ segs).1]
  · rw [List.flatten_append, (ended_eq _ segs).1]

theorem Tail.ends_add (size : List Out → Nat) (t : Tail Out)
    (segs : List (Nat × List (List Out))) :
    (t.add size segs).ends = t.ends ++ endsOf (t.ends.getLast?.elim 0 Prod.snd)
      (segs.map fun seg => (seg.1, seg.2.flatten)) := by
  unfold Tail.add
  dsimp only
  split
  · rw [(ended_eq _ segs).2]
  · rw [(ended_eq _ segs).2]

theorem Tail.add_same (size : List Out → Nat) (t : Tail Out)
    (segs : List (Nat × List (List Out))) :
    (t.add size segs).mark = t.mark ∧ (t.add size segs).form = t.form ∧
      (t.add size segs).through = t.through := by
  unfold Tail.add
  dsimp only
  split
  · exact ⟨rfl, rfl, rfl⟩
  · exact ⟨rfl, rfl, rfl⟩

/-! ### Ends -/

theorem endsOf_append (total : Nat) (first second : List (Nat × List Out)) :
    endsOf total (first ++ second) = endsOf total first ++
      endsOf (total + (first.flatMap Prod.snd).length) second := by
  induction first generalizing total with
  | nil => rfl
  | cons seg first ih =>
    obtain ⟨n, rows⟩ := seg
    rw [List.cons_append, endsOf, endsOf, List.flatMap_cons, List.length_append]
    split
    · rename_i none_
      rw [ih, List.isEmpty_iff.mp none_, List.length_nil, Nat.zero_add]
    · rw [ih, List.cons_append, Nat.add_assoc]

/-- The last end is the rows there are. -/
theorem last_endsOf (total : Nat) (segs : List (Nat × List Out)) :
    (endsOf total segs).getLast?.elim total Prod.snd =
      total + (segs.flatMap Prod.snd).length := by
  induction segs generalizing total with
  | nil => rfl
  | cons seg segs ih =>
    obtain ⟨n, rows⟩ := seg
    rw [endsOf, List.flatMap_cons, List.length_append]
    split
    · rename_i none_
      rw [ih, List.isEmpty_iff.mp none_, List.length_nil, Nat.zero_add]
    · have rest := ih (total + rows.length)
      rw [List.getLast?_cons, Option.elim_some, ← Nat.add_assoc, ← rest]
      cases (endsOf (total + rows.length) segs).getLast? with
      | none => rfl
      | some e => rfl

/-- Segments up to `u` are the first of those in order. -/
theorem filter_split {α : Type} (segs : List (Nat × α)) (order : InOrder segs) (u : Nat) :
    segs = segs.filter (fun seg => decide (seg.1 ≤ u)) ++
      segs.filter (fun seg => !decide (seg.1 ≤ u)) := by
  induction segs with
  | nil => rfl
  | cons seg segs ih =>
    obtain ⟨first, rest⟩ := List.pairwise_cons.mp order
    by_cases low : seg.1 ≤ u
    · have here := ih rest
      rw [List.filter_cons_of_pos (by simpa using low), List.filter_cons_of_neg (by simpa using low),
        List.cons_append, ← here]
    · have none_ : (seg :: segs).filter (fun s => decide (s.1 ≤ u)) = [] := by
        apply List.filter_eq_nil_iff.mpr
        intro s inside
        have above : ¬ s.1 ≤ u := by
          rcases List.mem_cons.mp inside with rfl | later
          · exact low
          · have := first s later
            omega
        simpa using above
      have all : (seg :: segs).filter (fun s => !decide (s.1 ≤ u)) = seg :: segs := by
        apply List.filter_eq_self.mpr
        intro s inside
        have above : ¬ s.1 ≤ u := by
          rcases List.mem_cons.mp inside with rfl | later
          · exact low
          · have := first s later
            omega
        simpa using above
      rw [none_, all, List.nil_append]

theorem takeWhile_endsOf (total : Nat) (segs : List (Nat × List Out)) (order : InOrder segs)
    (u : Nat) : (endsOf total segs).takeWhile (fun e => decide (e.1 ≤ u)) =
      endsOf total (segs.filter fun seg => decide (seg.1 ≤ u)) := by
  induction segs generalizing total with
  | nil => rfl
  | cons seg segs ih =>
    obtain ⟨n, rows⟩ := seg
    obtain ⟨first, rest⟩ := List.pairwise_cons.mp order
    by_cases low : n ≤ u
    · rw [List.filter_cons_of_pos (by simpa using low), endsOf, endsOf]
      split
      · exact ih total rest
      · rw [List.takeWhile_cons_of_pos (by simpa using low), ih _ rest]
    · have later : segs.filter (fun seg => decide (seg.1 ≤ u)) = [] := by
        apply List.filter_eq_nil_iff.mpr
        intro s inside
        have above := first s inside
        simpa using Nat.lt_of_lt_of_le (Nat.lt_of_not_le low) (Nat.le_of_lt above)
      rw [List.filter_cons_of_neg (by simpa using low), endsOf, later, endsOf]
      split
      · rw [ih total rest, later, endsOf]
      · rw [List.takeWhile_cons_of_neg (by simpa using low)]

/-! ### The log -/

theorem entries_order (log : Log Row) (order : InOrder log) (after upto : Nat) :
    InOrder (entries log after upto) := List.Pairwise.filter _ order

/-- Segments of a range are those of its two parts. -/
theorem entries_split (log : Log Row) (order : InOrder log) (after middle upto : Nat)
    (low : after ≤ middle) (high : middle ≤ upto) :
    entries log after upto = entries log after middle ++ entries log middle upto := by
  have parts := filter_split _ (entries_order log order after upto) middle
  rw [parts]
  unfold entries
  rw [List.filter_filter, List.filter_filter]
  congr 1
  · apply List.filter_congr
    intro entry _
    simp only [← Bool.decide_and, decide_eq_decide]
    omega
  · apply List.filter_congr
    intro entry _
    rw [← decide_not]
    simp only [← Bool.decide_and, decide_eq_decide]
    omega

theorem foldl_max_spec {α : Type} (segs : List (Nat × α)) (start : Nat) :
    start ≤ segs.foldl (fun seen entry => max seen entry.1) start ∧
      (∀ entry ∈ segs, entry.1 ≤ segs.foldl (fun seen entry => max seen entry.1) start) ∧
      (segs.foldl (fun seen entry => max seen entry.1) start = start ∨
        ∃ entry ∈ segs, segs.foldl (fun seen entry => max seen entry.1) start = entry.1) := by
  induction segs generalizing start with
  | nil => exact ⟨Nat.le_refl _, fun _ inside => absurd inside List.not_mem_nil, Or.inl rfl⟩
  | cons seg segs ih =>
    obtain ⟨low, all, value⟩ := ih (max start seg.1)
    rw [List.foldl_cons]
    refine ⟨by omega, fun entry inside => ?_, ?_⟩
    · rcases List.mem_cons.mp inside with rfl | later
      · omega
      · exact all entry later
    · rcases value with same | ⟨entry, inside, same⟩
      · rcases Nat.le_total start seg.1 with up | down
        · exact Or.inr ⟨seg, List.mem_cons_self, by omega⟩
        · exact Or.inl (by omega)
      · exact Or.inr ⟨entry, List.mem_cons_of_mem _ inside, same⟩

/-- What a scan finds is every segment up to the newest it saw. -/
theorem scanned_eq (log : Log Row) (view after : Nat) (upto : Option Nat) :
    scanned log view after upto = entries log after
      ((scanned log view after upto).foldl (fun seen entry => max seen entry.1) after) := by
  obtain ⟨_, all, value⟩ := foldl_max_spec (scanned log view after upto) after
  apply List.filter_congr
  intro entry inside
  simp only [← Bool.decide_and]
  rw [Bool.eq_iff_iff]
  constructor
  · intro found
    have listed : entry ∈ scanned log view after upto := List.mem_filter.mpr ⟨inside, found⟩
    have high := all entry listed
    simp only [Bool.and_eq_true, decide_eq_true_eq] at found
    exact decide_eq_true ⟨by omega, high⟩
  · intro within
    obtain ⟨low, high⟩ := of_decide_eq_true within
    rcases value with same | ⟨newest, found, same⟩
    · omega
    · have conditions := (List.mem_filter.mp found).2
      rw [same] at high
      cases upto with
      | none =>
        simp only [Bool.and_eq_true, decide_eq_true_eq, Option.all_none, and_true] at conditions ⊢
        omega
      | some u =>
        simp only [Bool.and_eq_true, decide_eq_true_eq, Option.all_some] at conditions ⊢
        omega

/-- What the scan gives of the log: the segments with the table, each with its rows. -/
theorem tailSegments_rows (made : Made Row Out) (form : Form) (log : Log Row) (total view after : Nat)
    (upto : Option Nat) :
    (tailSegments made form log view after upto).1.flatMap (fun seg => seg.2.flatten) =
        (scanned log view after upto).flatMap (rowsOf made form) ∧
      endsOf total ((tailSegments made form log view after upto).1.map
          fun seg => (seg.1, seg.2.flatten)) =
        endsOf total ((scanned log view after upto).map
          fun entry => (entry.1, rowsOf made form entry)) := by
  simp only [tailSegments]
  induction scanned log view after upto generalizing total with
  | nil => exact ⟨rfl, rfl⟩
  | cons entry entries ih =>
    obtain ⟨n, seg⟩ := entry
    cases held : seg.parts with
    | none =>
      have none_ : rowsOf made form (n, seg) = [] := by
        simp only [rowsOf, held, Option.getD_none, List.flatten_nil, List.mapIdx_nil]
      rw [List.filterMap_cons_none (by simp only [held, Option.map_none]), List.flatMap_cons,
        List.map_cons, none_, List.nil_append, endsOf]
      exact ih total
    | some parts =>
      have rows : (placed (fun pos => made form n pos seg.ts) 0 parts).flatten =
          rowsOf made form (n, seg) := by
        simp only [flatten_placed, rowsOf, held, Option.getD_some, Nat.zero_add]
      rw [List.filterMap_cons_some (b := (n, placed (fun pos => made form n pos seg.ts) 0 parts))
        (by simp only [held, Option.map_some]), List.flatMap_cons, List.flatMap_cons,
        List.map_cons, List.map_cons, endsOf, endsOf, rows]
      constructor
      · rw [(ih total).1]
      · rw [(ih total).2, (ih (total + (rowsOf made form (n, seg)).length)).2]

/-- A tail with no rows yet. -/
def Tail.empty (mark : Nat) (form : Form) : Tail Out :=
  { mark := mark, form := form, through := mark, rows := [], ends := [], bytes := 0 }

theorem entries_none (log : Log Row) (after upto : Nat) (none_ : upto ≤ after) :
    entries log after upto = [] := by
  apply List.filter_eq_nil_iff.mpr
  intro entry _
  simp only [← Bool.decide_and, decide_eq_true_eq]
  omega

theorem Tail.empty_of (made : Made Row Out) (log : Log Row) (mark : Nat) (form : Form) :
    (Tail.empty mark form : Tail Out).Of made log where
  low := Nat.le_refl mark
  rows := by
    rw [rowsBetween]
    dsimp only [Tail.empty]
    rw [entries_none log mark mark (Nat.le_refl mark)]
    rfl
  ends := by
    dsimp only [Tail.empty]
    rw [entries_none log mark mark (Nat.le_refl mark)]
    rfl

theorem Tail.extended_same (made : Made Row Out) (size : List Out → Nat) (log : Log Row)
    (view : Nat) (upto : Option Nat) (t : Tail Out) :
    (t.extended made size log view upto).mark = t.mark ∧
      (t.extended made size log view upto).form = t.form ∧
      (t.extended made size log view upto).through =
        (tailSegments made t.form log view t.through upto).2 := by
  obtain ⟨mark, form, _⟩ := t.add_same size (tailSegments made t.form log view t.through upto).1
  exact ⟨mark, form, Nat.max_eq_right (foldl_max_spec _ t.through).1⟩

/-- A tail extended by what a scan finds is a tail of the log. -/
theorem Tail.Of.extended {made : Made Row Out} {log : Log Row} {t : Tail Out}
    (of_ : t.Of made log) (order : InOrder log) (size : List Out → Nat) (view : Nat)
    (upto : Option Nat) : (t.extended made size log view upto).Of made log := by
  obtain ⟨mark, form, through⟩ := t.extended_same made size log view upto
  have low : t.through ≤ (tailSegments made t.form log view t.through upto).2 :=
    (foldl_max_spec _ t.through).1
  have split_ := entries_split log order t.mark t.through _ of_.low low
  have found : scanned log view t.through upto = entries log t.through
      (tailSegments made t.form log view t.through upto).2 := scanned_eq log view t.through upto
  obtain ⟨rows, ends⟩ := tailSegments_rows made t.form log
    (t.ends.getLast?.elim 0 Prod.snd) view t.through upto
  constructor
  case low =>
    rw [mark, through]
    exact Nat.le_trans of_.low low
  case rows =>
    rw [mark, form, through, Tail.extended]
    dsimp only
    rw [t.flatten_add, rows, of_.rows, found, rowsBetween, rowsBetween, split_,
      List.flatMap_append]
  case ends =>
    rw [mark, form, through, Tail.extended]
    dsimp only
    rw [t.ends_add, ends, found, split_, List.map_append, endsOf_append, of_.ends, last_endsOf]

/-- The rows of the first segments are the first rows. -/
theorem take_rows (segs : List (Nat × List Out)) (order : InOrder segs) (u : Nat) :
    (segs.flatMap Prod.snd).take
        ((segs.filter fun seg => decide (seg.1 ≤ u)).flatMap Prod.snd).length =
      (segs.filter fun seg => decide (seg.1 ≤ u)).flatMap Prod.snd := by
  conv_lhs => arg 2; rw [filter_split segs order u]
  rw [List.flatMap_append, List.take_left]

/-- A tail's prefix is the rows of its segments at or below `u`. -/
theorem Tail.Of.upto {made : Made Row Out} {log : Log Row} {t : Tail Out} (of_ : t.Of made log)
    (order : InOrder log) (u : Nat) :
    (t.upto u).flatten = rowsBetween made t.form log t.mark (min u t.through) := by
  have sorted : InOrder ((entries log t.mark t.through).map
      fun entry => (entry.1, rowsOf made t.form entry)) :=
    List.pairwise_map.mpr (entries_order log order t.mark t.through)
  have rows : t.rows.flatten = ((entries log t.mark t.through).map
      fun entry => (entry.1, rowsOf made t.form entry)).flatMap Prod.snd := by
    rw [of_.rows, rowsBetween, List.flatMap_map]
  have below : entries log t.mark (min u t.through) =
      (entries log t.mark t.through).filter fun entry => decide (entry.1 ≤ u) := by
    unfold entries
    rw [List.filter_filter]
    apply List.filter_congr
    intro entry _
    simp only [← Bool.decide_and, decide_eq_decide]
    omega
  rw [Tail.upto, flatten_slices, rows, of_.ends, takeWhile_endsOf 0 _ sorted, last_endsOf,
    Nat.zero_add, take_rows _ sorted, rowsBetween, below, List.filter_map, List.flatMap_map]
  rfl

end tail

end Pondra.Query
