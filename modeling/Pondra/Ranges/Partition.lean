import Pondra.Ranges.Slices

set_option autoImplicit false

/-! ### A scheme's parts hold each row once -/

namespace Pondra.Ranges

open Dicts Slots

section slicing

variable {T ν F : Type} [LinearOrder ν] [DecidableEq T] (values : Values T ν) (d : Doubles F)

/-! ### What a piece holds -/

/-- The piece's statistics cover its rows. -/
def Piece.Covers (column : String) (t : T) (p : Piece ν) : Prop :=
  ∀ lo hi a b, p.stats column = some (lo, hi) → values.parse t lo = some a →
    values.parse t hi = some b → a ≤ b ∧ ∀ row ∈ p.rows,
      match row column with
      | none => p.mayNull column = true
      | some v => a ≤ v ∧ v ≤ b

/-- Every file's, and every sealed manifest's. -/
def TableMeta.Covered (table : TableMeta T ν) : Prop :=
  ∀ c ∈ table.columns,
    (∀ p ∈ table.files, p.Covers values c.stored c.type) ∧ ∀ m ∈ table.manifests,
      m.piece.Covers values c.stored c.type ∧ ∀ p ∈ m.files, p.Covers values c.stored c.type

/-- The rows of a table's files. -/
def TableMeta.rows (table : TableMeta T ν) : List (Row ν) :=
  (table.files ++ table.manifests.flatMap (·.files)).flatMap (·.rows)

omit [LinearOrder ν] [DecidableEq T] in
theorem pieces_rows (table : TableMeta T ν) (n : Nat) :
    (pieces table n).flatMap (·.rows) = table.rows := by
  unfold pieces TableMeta.rows
  split
  · rw [List.flatMap_append, List.flatMap_append, List.flatMap_map, List.flatMap_assoc]
    rfl
  · rfl

omit [DecidableEq T] in
theorem pieces_covers (table : TableMeta T ν) (covered : table.Covered values) (n : Nat)
    (c : Column T) (inside : c ∈ table.columns) (p : Piece ν) (here : p ∈ pieces table n) :
    p.Covers values c.stored c.type := by
  have each := covered c inside
  unfold pieces at here
  rw [List.mem_append] at here
  cases here with
  | inl file => exact each.1 p file
  | inr sealed =>
    split at sealed
    · obtain ⟨m, within, rfl⟩ := List.mem_map.mp sealed
      exact (each.2 m within).1
    · obtain ⟨m, within, file⟩ := List.mem_flatMap.mp sealed
      exact (each.2 m within).2 p file

/-- The range a row is in. -/
def rowSlot (cuts : List ν) (column : String) (row : Row ν) : Nat :=
  match row column with
  | none => 0
  | some v => slot cuts v

theorem rowSlot_le (cuts : List ν) (column : String) (row : Row ν) :
    rowSlot cuts column row ≤ cuts.length := by
  unfold rowSlot
  split
  · exact Nat.zero_le _
  · exact slot_le cuts _

theorem held_iff (cuts : List ν) (rising : cuts.Pairwise (· < ·)) (column : String) (i : Nat)
    (within : i ≤ cuts.length) (row : Row ν) :
    Held cuts column i row ↔ rowSlot cuts column row = i := by
  unfold Held rowSlot
  cases row column with
  | none => exact eq_comm
  | some v =>
    simp only
    rw [in_iff cuts rising v i within]
    exact eq_comm

omit [DecidableEq T] in
/-- A piece with a row in a range overlaps the range. -/
theorem overlaps_held (column : String) (t : T) (s : Span ν) (cuts : List ν) (i : Nat)
    (found : span values column t s.piece = some s) (covers : s.piece.Covers values column t)
    (within : i ≤ cuts.length) (row : Row ν) (inside : row ∈ s.piece.rows)
    (held : Held cuts column i row) : overlaps s cuts i = true := by
  obtain ⟨_, _, _, nulls, lo, hi, stats, low, high⟩ := span_piece values column t s.piece s found
  have bounds := (covers lo hi s.lo s.hi stats low high).2 row inside
  unfold Held at held
  unfold overlaps
  cases value : row column with
  | none =>
    rw [value] at held bounds
    simp only at held bounds
    simp [held, nulls, bounds]
  | some v =>
    rw [value] at held bounds
    simp only at held bounds
    have meet := meets held bounds.1 bounds.2
    have after : (decide (i = 0) || cuts[i - 1]?.all fun c => decide (¬ s.hi < c)) = true := by
      rw [Bool.or_eq_true, decide_eq_true_eq, Option.all_eq_true]
      by_cases first : i = 0
      · exact .inl first
      · refine .inr fun c here => ?_
        rw [decide_eq_true_eq]
        exact not_lt.mpr (meet.1 c (Nat.pos_of_ne_zero first) here)
    have before : (decide (i = cuts.length) || cuts[i]?.any fun c => decide (s.lo < c)) = true := by
      rw [Bool.or_eq_true, decide_eq_true_eq]
      by_cases last : i = cuts.length
      · exact .inl last
      · have short : i < cuts.length := by omega
        have above := meet.2 cuts[i] (List.getElem?_eq_getElem short)
        rw [List.getElem?_eq_getElem short, Option.any_some, decide_eq_true_eq]
        exact .inr above
    rw [after, before]
    rfl

/-! ### What the parts hold -/

/-- The parts split a table: every row is in one node's range, the piece with it is among that
node's, and the nodes' reads together are the table's rows and the tail's. -/
structure Splits (table : TableMeta T ν) (t : T) (n : Nat) (ps : List (Part ν)) : Prop where
  length : ps.length = n
  one : ∀ row : Row ν, ∃! i : Nat, ∃ (part : Part ν) (keeps : Row ν → Bool),
    ps[i]? = some part ∧ part.range.expr values t = some keeps ∧ keeps row = true
  held : ∀ p ∈ pieces table n, ∀ row ∈ p.rows, ∀ part ∈ ps, ∀ keeps,
    part.range.expr values t = some keeps → keeps row = true → p ∈ part.files ++ part.manifests
  whole : ∀ tail, ∃ reads, ps.mapM (·.read values t tail) = some reads ∧
    reads.flatten.Perm (table.rows ++ tail)

/-- What is read a part at a time, one part after another. -/
theorem mapM_flatten {α β γ : Type} (part : α → β) (f : β → Option (List γ)) (g : α → List γ)
    (l : List α) (each : ∀ a ∈ l, ∃ out, f (part a) = some out ∧ out.Perm (g a)) :
    ∃ outs, (l.map part).mapM f = some outs ∧ outs.flatten.Perm (l.flatMap g) := by
  induction l with
  | nil => exact ⟨[], rfl, .nil⟩
  | cons a rest ih =>
    obtain ⟨out, first, perm⟩ := each a List.mem_cons_self
    obtain ⟨outs, others, perms⟩ := ih fun b inside => each b (List.mem_cons_of_mem a inside)
    refine ⟨out :: outs, ?_, ?_⟩
    · rw [List.map_cons, List.mapM_cons, first, others]
      rfl
    · rw [List.flatten_cons, List.flatMap_cons]
      exact perm.append perms

omit [LinearOrder ν] [DecidableEq T] in
/-- Leaving out pieces without a row the filter keeps loses nothing. -/
theorem flatMap_filter_only (ps : List (Span ν)) (only : Span ν → Bool) (keeps : Row ν → Bool)
    (needed : ∀ s ∈ ps, ∀ row ∈ s.piece.rows, keeps row = true → only s = true) :
    ((ps.filter only).flatMap fun s => s.piece.rows).filter keeps =
      (ps.flatMap fun s => s.piece.rows).filter keeps := by
  induction ps with
  | nil => rfl
  | cons s rest ih =>
    have others := ih fun u inside => needed u (List.mem_cons_of_mem s inside)
    rw [List.flatMap_cons, List.filter_append, ← others]
    cases kept : only s with
    | true => rw [List.filter_cons_of_pos kept, List.flatMap_cons, List.filter_append]
    | false =>
      have none : s.piece.rows.filter keeps = [] := by
        rw [List.filter_eq_nil_iff]
        intro row inside keep
        have := needed s List.mem_cons_self row inside keep
        rw [kept] at this
        cases this
      rw [List.filter_cons_of_neg (by simp [kept]), none, List.nil_append]

/-- One part of a table sliced by a column. -/
def partOf (spans : List (Span ν)) (cuts : List ν) (texts : List String) (column : String)
    (n i : Nat) : Part ν :=
  let held := (spans.filter fun s => overlaps s cuts i).map (·.piece)
  ⟨held.filter fun p => !p.whole, held.filter (·.whole),
    ⟨column, if 0 < i then texts[i - 1]? else none, if i + 1 < n then texts[i]? else none⟩⟩

theorem partOf_pieces (spans : List (Span ν)) (cuts : List ν) (texts : List String)
    (column : String) (n i : Nat) :
    ((partOf spans cuts texts column n i).files ++
      (partOf spans cuts texts column n i).manifests).Perm
        ((spans.filter fun s => overlaps s cuts i).map (·.piece)) := by
  have split := List.filter_append_perm (fun p : Piece ν => !p.whole)
    ((spans.filter fun s => overlaps s cuts i).map (·.piece))
  simp only [Bool.not_not] at split
  exact split

variable {values} in
omit [DecidableEq T] in
/-- By rising cuts that can be written down, of pieces that cover their rows. -/
theorem parts_split (table : TableMeta T ν) (column : String) (t : T) (cuts : List ν)
    (spans : List (Span ν)) (texts : List String) (rising : cuts.Pairwise (· < ·))
    (typed : ∀ cut ∈ cuts, values.type cut = t)
    (found : Ranges.spans values (pieces table (cuts.length + 1)) column t = some spans)
    (written : cuts.mapM values.text = some texts)
    (covers : ∀ p ∈ pieces table (cuts.length + 1), p.Covers values column t) :
    Splits values table t (cuts.length + 1)
      ((List.range (cuts.length + 1)).map
        (partOf spans cuts texts column (cuts.length + 1))) := by
  obtain ⟨perm, each⟩ := spans_spec values column t _ spans found
  have range (i : Nat) (within : i ≤ cuts.length) :
      (partOf spans cuts texts column (cuts.length + 1) i).range.expr values t =
        some fun row => decide (rowSlot cuts column row = i) := by
    obtain ⟨keeps, expr, holds⟩ := range_expr values t cuts texts column i typed written within
    refine expr.trans (congrArg some (funext fun row => ?_))
    rw [Bool.eq_iff_iff, holds row, held_iff cuts rising column i within row, decide_eq_true_eq]
  have needed (i : Nat) (within : i ≤ cuts.length) (s : Span ν) (inside : s ∈ spans)
      (row : Row ν) (of : row ∈ s.piece.rows) (here : rowSlot cuts column row = i) :
      overlaps s cuts i = true := by
    apply overlaps_held values column t s cuts i (each s inside) _ within row of
    · exact (held_iff cuts rising column i within row).mpr here
    · exact covers s.piece (perm.mem_iff.mp (List.mem_map_of_mem inside))
  have listed (i : Nat) (part : Part ν) : ((List.range (cuts.length + 1)).map
      (partOf spans cuts texts column (cuts.length + 1)))[i]? = some part ↔
        i ≤ cuts.length ∧ part = partOf spans cuts texts column (cuts.length + 1) i := by
    rw [List.getElem?_eq_some_iff]
    constructor
    · intro there
      obtain ⟨short, is⟩ := there
      rw [List.length_map, List.length_range] at short
      rw [List.getElem_map, List.getElem_range] at is
      exact ⟨by omega, is.symm⟩
    · intro there
      refine ⟨by rw [List.length_map, List.length_range]; omega, ?_⟩
      rw [List.getElem_map, List.getElem_range]
      exact there.2.symm
  constructor
  · rw [List.length_map, List.length_range]
  · intro row
    have within := rowSlot_le cuts column row
    refine ⟨rowSlot cuts column row, ⟨_, _, (listed _ _).mpr ⟨within, rfl⟩, range _ within,
      decide_eq_true rfl⟩, fun j there => ?_⟩
    obtain ⟨part, keeps, at', expr, keep⟩ := there
    obtain ⟨short, rfl⟩ := (listed j part).mp at'
    rw [range j short] at expr
    cases expr
    exact (of_decide_eq_true keep).symm
  · intro p here row inside part there keeps expr keep
    obtain ⟨i, at', rfl⟩ := List.mem_map.mp there
    have within : i ≤ cuts.length := by
      rw [List.mem_range] at at'
      omega
    rw [range i within] at expr
    cases expr
    rw [(partOf_pieces spans cuts texts column _ i).mem_iff, List.mem_map]
    obtain ⟨s, sliced, rfl⟩ := List.mem_map.mp (perm.mem_iff.mpr here)
    refine ⟨s, List.mem_filter.mpr ⟨sliced, ?_⟩, rfl⟩
    exact needed i within s sliced row inside (of_decide_eq_true keep)
  · intro tail
    have all : (spans.flatMap fun s => s.piece.rows).Perm table.rows := by
      rw [← pieces_rows table (cuts.length + 1), ← List.flatMap_map Span.piece Piece.rows]
      exact perm.flatMap_right _
    have each' (i : Nat) (within : i ≤ cuts.length) : ∃ read,
        (partOf spans cuts texts column (cuts.length + 1) i).read values t tail = some read ∧
          read.Perm ((table.rows ++ tail).filter fun row =>
            decide (rowSlot cuts column row = i)) := by
      unfold Part.read
      rw [range i within]
      refine ⟨_, rfl, ?_⟩
      rw [List.filter_append, List.filter_append]
      apply List.Perm.append_right
      have held := ((partOf_pieces spans cuts texts column (cuts.length + 1) i).flatMap_right
        Piece.rows).filter fun row => decide (rowSlot cuts column row = i)
      rw [List.flatMap_map, flatMap_filter_only] at held
      · exact held.trans (all.filter _)
      · exact fun s inside row of keep => needed i within s inside row of (of_decide_eq_true keep)
    have grouped := Grouping.flatMap_filter_perm (rowSlot cuts column)
      (List.range (cuts.length + 1)) List.nodup_range (table.rows ++ tail)
    have every : (table.rows ++ tail).filter (fun row =>
        decide (rowSlot cuts column row ∈ List.range (cuts.length + 1))) = table.rows ++ tail := by
      rw [List.filter_eq_self]
      intro row _
      have within := rowSlot_le cuts column row
      rw [decide_eq_true_eq, List.mem_range]
      omega
    rw [every] at grouped
    obtain ⟨reads, found', perms⟩ := mapM_flatten
      (partOf spans cuts texts column (cuts.length + 1)) (Part.read values · t tail) _ _ fun i inside =>
      each' i (Nat.lt_succ_iff.mp (List.mem_range.mp inside))
    exact ⟨reads, found', perms.trans grouped⟩

/-! ### What a scheme slices by -/

/-- A column of a table to slice by: its pieces all have ranges of it. -/
structure Chosen (table : TableMeta T ν) (n : Nat) (t : T) (column : String)
    (spans : List (Span ν)) : Prop where
  inside : ∃ c ∈ table.columns, c.stored = column ∧ c.type = t
  found : Ranges.spans values (pieces table n) column t = some spans

omit [DecidableEq T] in
theorem named_mem (table : TableMeta T ν) (spoken : String → Bool) (column : String) (t : T)
    (listed : (column, t) ∈ named values table spoken) :
    ∃ c ∈ table.columns, c.stored = column ∧ c.type = t := by
  unfold named at listed
  obtain ⟨c, kept, same⟩ := List.mem_map.mp listed
  cases same
  exact ⟨c, List.mem_of_mem_filter kept, rfl, rfl⟩

omit [DecidableEq T] in
theorem best_spec (table : TableMeta T ν) (spoken : String → Bool) (n : Nat) (read : F)
    (column : String) (t : T) (cuts : List ν)
    (found : best values d table spoken n = some (read, column, t, cuts)) :
    ∃ spans, Chosen values table n t column spans ∧ Ranges.cuts values d spans n = some cuts ∧
      ∀ c ∈ cuts, (values.text c).isSome = true := by
  revert read column t cuts
  unfold best
  refine List.foldlRecOn (motive := fun b => ∀ read column t cuts,
    b = some (read, column, t, cuts) → ∃ spans, Chosen values table n t column spans ∧
      Ranges.cuts values d spans n = some cuts ∧ ∀ c ∈ cuts, (values.text c).isSome = true)
    _ _ nofun ?_
  intro b kept next listed read column t cuts is
  obtain ⟨column', t'⟩ := next
  simp only at is
  split at is
  · exact kept read column t cuts is
  · rename_i spans sliced
    split at is
    · exact kept read column t cuts is
    · rename_i cuts' filtered
      rw [Option.filter_eq_some_iff, List.all_eq_true] at filtered
      split at is
      · cases is
        exact ⟨spans, ⟨named_mem values table spoken _ _ listed, sliced⟩, filtered⟩
      · exact kept read column t cuts is

theorem pick_spec (table : TableMeta T ν) (spoken : String → Bool) (n : Nat) (t : T)
    (cuts : List ν) (read : F) (column : String)
    (found : pick values d table spoken n t cuts = some (read, column)) :
    ∃ spans, Chosen values table n t column spans := by
  revert read column
  unfold pick
  refine List.foldlRecOn (motive := fun p => ∀ read column, p = some (read, column) →
    ∃ spans, Chosen values table n t column spans) _ _ nofun ?_
  intro p kept next listed read column is
  obtain ⟨column', t'⟩ := next
  rw [List.mem_filter, decide_eq_true_eq] at listed
  simp only at is
  split at is
  · exact kept read column is
  · rename_i spans sliced
    split at is
    · cases is
      exact ⟨spans, listed.2 ▸ named_mem values table spoken _ _ listed.1, sliced⟩
    · exact kept read column is

/-- Of tables named once each, a scheme slices by columns of the type its cuts are of. -/
theorem scheme_spec (spoken : String → Bool) (tables : List (String × TableMeta T ν)) (n : Nat)
    (once : (tables.map (·.1)).Nodup) (out : Scheme ν)
    (found : scheme values d spoken tables n = some out) :
    ∃ t table column spans, Chosen values table n t column spans ∧
      cuts values d spans n = some out.cuts ∧ (∀ c ∈ out.cuts, (values.text c).isSome = true) ∧
        ∀ pair ∈ tables, ∀ column, out.columns.lookup pair.1 = some column →
          ∃ spans, Chosen values pair.2 n t column spans := by
  unfold scheme at found
  split at found
  · cases found
  · rename_i main table rest
    split at found
    · cases found
    · rename_i read column t cuts top
      cases found
      obtain ⟨spans, chosen, cut, written⟩ := best_spec values d table spoken n read column t cuts top
      rw [List.map_cons, List.nodup_cons] at once
      refine ⟨t, table, column, spans, chosen, cut, written, ?_⟩
      -- a name is one table's
      have same (a b : String × TableMeta T ν) (here : a ∈ (main, table) :: rest)
          (there : b ∈ (main, table) :: rest) (name : a.1 = b.1) : a = b := by
        apply List.inj_on_of_nodup_map (f := Prod.fst) _ here there name
        rw [List.map_cons, List.nodup_cons]
        exact once
      refine List.foldlRecOn (motive := fun columns : Dict String String =>
        ∀ pair ∈ (main, table) :: rest, ∀ column, columns.lookup pair.1 = some column →
          ∃ spans, Chosen values pair.2 n t column spans) _ _ ?_ ?_
      · intro pair inside column' held
        rw [lookup_insert_eq] at held
        split at held
        · rename_i name
          cases held
          have is := same pair (main, table) inside List.mem_cons_self name
          rw [is]
          exact ⟨spans, chosen⟩
        · cases held
      · intro columns kept next listed pair inside column' held
        obtain ⟨other, theirs⟩ := next
        simp only at held
        split at held
        · rename_i read' picked found'
          rw [lookup_insert_eq] at held
          split at held
          · rename_i name
            cases held
            have is := same pair (other, theirs) inside (List.mem_cons_of_mem _ listed) name
            rw [is]
            exact pick_spec values d theirs spoken n t cuts read' column' found'
          · exact kept pair inside column' held
        · exact kept pair inside column' held

omit [DecidableEq T] in
theorem all_texts (cuts : List ν) (written : ∀ c ∈ cuts, (values.text c).isSome = true) :
    ∃ texts, cuts.mapM values.text = some texts := by
  induction cuts with
  | nil => exact ⟨[], rfl⟩
  | cons c rest ih =>
    obtain ⟨text, first⟩ := Option.isSome_iff_exists.mp (written c List.mem_cons_self)
    obtain ⟨texts, others⟩ := ih fun u inside => written u (List.mem_cons_of_mem c inside)
    rw [List.mapM_cons, first, others]
    exact ⟨text :: texts, rfl⟩

omit [LinearOrder ν] [DecidableEq T] in
theorem find_stored (table : TableMeta T ν) (c : Column T) (inside : c ∈ table.columns) :
    table.columns.find? (fun other => decide (other.stored = c.stored)) = some c := by
  have once := table.once
  generalize table.columns = columns at inside once
  induction columns with
  | nil => cases inside
  | cons first rest ih =>
    rw [List.map_cons, List.nodup_cons] at once
    rw [List.find?_cons]
    cases inside with
    | head => simp
    | tail _ later =>
      have other : first.stored ≠ c.stored := fun same =>
        once.1 (same ▸ List.mem_map_of_mem later)
      rw [decide_eq_false other]
      exact ih later once.2

omit [DecidableEq T] in
theorem chosen_typed (table : TableMeta T ν) (n : Nat) (t : T) (column : String)
    (spans : List (Span ν)) (chosen : Chosen values table n t column spans) (s : Span ν)
    (inside : s ∈ spans) : values.type s.lo = t :=
  (span_piece values column t s.piece s
    ((spans_spec values column t _ spans chosen.found).2 s inside)).2.1

omit [DecidableEq T] in
/-- A table sliced by rising cuts of its column's type. -/
theorem parts_chosen (table : TableMeta T ν) (covered : table.Covered values) (name : String)
    (scheme : Scheme ν) (n : Nat) (t : T) (column : String) (spans : List (Span ν))
    (chosen : Chosen values table n t column spans)
    (sliced : scheme.columns.lookup name = some column) (rising : scheme.cuts.Pairwise (· < ·))
    (typed : ∀ cut ∈ scheme.cuts, values.type cut = t) (length : scheme.cuts.length + 1 = n)
    (written : ∀ c ∈ scheme.cuts, (values.text c).isSome = true) :
    ∃ ps, parts values table name scheme n = some ps ∧ Splits values table t n ps := by
  obtain ⟨c, inside, rfl, rfl⟩ := chosen.inside
  obtain ⟨texts, all⟩ := all_texts values scheme.cuts written
  subst length
  refine ⟨_, ?_, parts_split table c.stored c.type scheme.cuts spans texts rising typed chosen.found
    all fun p here => pieces_covers values table covered _ c inside p here⟩
  unfold parts
  rw [sliced, Option.bind_eq_bind, Option.bind_some, find_stored table c inside,
    Option.bind_eq_bind, Option.bind_some, chosen.found, Option.bind_eq_bind, Option.bind_some, all]
  rfl

/-- A piece's bounds, in order and of one type. -/
def Bounded (t : T) (s : Span ν) : Prop :=
  values.type s.lo = t ∧ values.type s.hi = t ∧ s.lo ≤ s.hi

omit [DecidableEq T] in
theorem bounded_ordered (t : T) (s : Span ν) (bounded : Bounded values t s) :
    Ordered values s := fun whole lo hi first last =>
  values.rises s.lo s.hi lo hi (bounded.1.trans bounded.2.1.symm) whole bounded.2.2 first last

/-- Sliced by any scheme accepted, each table's parts hold each of its rows, and the tail's, once;
and cuts rise, and wrap nothing exactly where every piece of whole numbers one falls inside is
narrow. -/
theorem scheme_splits (spoken : String → Bool) (tables : List (String × TableMeta T ν)) (n : Nat)
    (once : (tables.map (·.1)).Nodup) (covered : ∀ pair ∈ tables, pair.2.Covered values)
    (out : Scheme ν) (found : scheme values d spoken tables n = some out) :
    (∀ pair ∈ tables, ∀ column, out.columns.lookup pair.1 = some column →
      ∃ c ∈ pair.2.columns, c.stored = column ∧
        ∃ ps, parts values pair.2 pair.1 out n = some ps ∧ Splits values pair.2 c.type n ps) ∧
    ∀ t spans k, 1 ≤ k → (∀ s ∈ spans, Bounded values t s) →
      (Clear values spans k → (cutting values d spans k).wrapped = false) ∧
      ∀ cut, cuts values d spans k = some cut →
        cut.Pairwise (· < ·) ∧ ((cutting values d spans k).wrapped = false → Clear values spans k) := by
  constructor
  · obtain ⟨t, main, column, spans, chosen, cut, written, each⟩ :=
      scheme_spec values d spoken tables n once out found
    obtain ⟨rising, typed, length⟩ := cuts_rise values d t spans n out.cuts
      (chosen_typed values main n t column spans chosen) cut
    intro pair inside column' held
    obtain ⟨theirs, chosen'⟩ := each pair inside column' held
    obtain ⟨c, within, stored, type⟩ := chosen'.inside
    refine ⟨c, within, stored, ?_⟩
    rw [type]
    exact parts_chosen values pair.2 (covered pair inside) pair.1 out n t column' theirs chosen' held
      rising typed length written
  · intro t spans k first bounded
    have typed (s : Span ν) (inside : s ∈ spans) : values.type s.lo = t := (bounded s inside).1
    have ordered (s : Span ν) (inside : s ∈ spans) : Ordered values s :=
      bounded_ordered values t s (bounded s inside)
    refine ⟨cutting_unwrapped values d spans k first ordered, fun cut given => ?_⟩
    exact ⟨(cuts_rise values d t spans k cut typed given).1,
      (cuts_unwrapped values d t spans k cut typed ordered given).mp⟩

end slicing

/-! ### Whole numbers -/

/-- Some numbers' texts. -/
def numerals : List (String × Int) := [("1", 1), ("10", 10), ("11", 11), ("20", 20),
  ("-9223372036854775808", -2 ^ 63), ("-9223372036854775807", -2 ^ 63 + 1),
  ("9223372036854775807", 2 ^ 63 - 1)]

/-- A column of `i64`s. -/
def wholes : Values Unit Int where
  type _ := ()
  key _ := true
  isInteger _ := true
  parse _ s := (numerals.find? fun numeral => numeral.1 = s).map (·.2)
  text v := (numerals.find? fun numeral => numeral.2 = v).map (·.1)
  int v := if fits v then some v else none
  cast _ x := some x
  parsed _ _ _ _ := rfl
  casted _ _ _ _ := rfl
  exact v s text := by
    obtain ⟨numeral, found, rfl⟩ := Option.map_eq_some_iff.mp text
    have value := List.find?_some found
    have each : ∀ numeral ∈ numerals,
        (numerals.find? fun other => other.1 = numeral.1).map (·.2) = some numeral.2 := by decide
    rw [each numeral (List.mem_of_find?_eq_some found)]
    simpa using value
  ranged v x here := by
    split at here
    · cases here
      assumption
    · cases here
  rises u v x y _ _ le first last := by
    split at first <;> split at last <;> simp_all

/-- Exact fractions of whole numbers. -/
def fractions : Doubles (Int × Int) where
  ofInt x := (x, 1)
  add a b := (a.1 * b.2 + b.1 * a.2, a.2 * b.2)
  mul a b := (a.1 * b.1, a.2 * b.2)
  div a b := (a.1 * b.2, a.2 * b.1)
  max a b := if a.1 * b.2 ≤ b.1 * a.2 then b else a
  le a b := a.1 * b.2 ≤ b.1 * a.2
  lt a b := a.1 * b.2 < b.1 * a.2
  toInt a := a.1.tdiv a.2
  hundredth := (1, 100)
  threeHalves := (3, 2)
  within width x y low _ less := by
    simp only [Int.mul_one, Int.one_mul]
    have up : 0 ≤ width * (x : Int) := Int.mul_nonneg low (Int.natCast_nonneg x)
    rw [Int.tdiv_eq_ediv_of_nonneg up]
    have positive : (0 : Int) < y := by omega
    constructor
    · exact Int.ediv_nonneg up (Int.le_of_lt positive)
    · apply Int.ediv_le_of_le_mul positive
      exact Int.mul_le_mul_of_nonneg_left (by omega) low

def numbers : List (Column Unit) := [⟨"c1", "n", (), false⟩]

def file (lo hi : String) (rows : List (Option Int)) : Piece Int :=
  ⟨false, 100, fun _ => some (lo, hi), some [], rows.map fun value _ => value⟩

/-- A table of two files, the second of which may hold NULLs. -/
def narrowFiles : TableMeta Unit Int :=
  ⟨numbers, [file "1" "10" [some 1, some 10],
    { file "11" "20" [some 11, none, some 20] with nulls := some ["c1"] }], [], by decide⟩

theorem narrowFiles_covered : narrowFiles.Covered wholes := by
  intro c inside
  rw [List.mem_singleton.mp inside]
  constructor
  · intro p here lo hi a b stats low high
    have two : p = file "1" "10" [some 1, some 10] ∨
        p = { file "11" "20" [some 11, none, some 20] with nulls := some ["c1"] } := by
      simpa [narrowFiles] using here
    cases two with
    | inl first =>
      subst first
      cases stats
      cases low
      cases high
      simp [file]
    | inr second =>
      subst second
      cases stats
      cases low
      cases high
      simp [file, Piece.mayNull]
  · nofun

theorem narrowFiles_splits : ∃ out ps,
    scheme wholes fractions (fun _ => true) [("t", narrowFiles)] 2 = some out ∧
      out.columns.lookup "t" = some "c1" ∧ parts wholes narrowFiles "t" out 2 = some ps ∧
        Splits wholes narrowFiles () 2 ps := by
  have given : (scheme wholes fractions (fun _ => true) [("t", narrowFiles)] 2).map
      (·.columns.lookup "t") = some (some "c1") := by
    decide +kernel
  obtain ⟨out, found, sliced⟩ := Option.map_eq_some_iff.mp given
  obtain ⟨c, _, _, ps, all, splits⟩ := (scheme_splits wholes fractions (fun _ => true)
    [("t", narrowFiles)] 2 (by decide) (fun pair inside =>
      List.mem_singleton.mp inside ▸ narrowFiles_covered) out found).1 ("t", narrowFiles)
        List.mem_cons_self "c1" sliced
  exact ⟨out, ps, found, sliced, all, splits⟩

/-- A table of one file, of the least and the greatest `i64`. -/
def widest : TableMeta Unit Int :=
  ⟨numbers, [file "-9223372036854775808" "9223372036854775807" [some (-2 ^ 63), some (2 ^ 63 - 1)]],
    [], by decide⟩

theorem widest_wraps : (scheme wholes fractions (fun _ => true) [("t", widest)] 2).isSome = true ∧
    (spans wholes (pieces widest 2) "c1" ()).map
      (fun spans => (cutting wholes fractions spans 2).wrapped) = some true := by
  decide +kernel

end Pondra.Ranges
