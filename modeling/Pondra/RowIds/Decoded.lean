import Pondra.RowIds.Lasting

set_option autoImplicit false

/- What a logged batch's slices are read back as. -/

namespace Pondra.RowIds

open Decimals Dicts Traverse Words

variable {ν β : Type} {b part : Batch ν} {start n : Nat} {checked : Bool}

namespace Batch

theorem firstKept_slice (is : b.slice start n = some part) : part.firstKept = b.firstKept := by
  rw [firstKept, firstKept, (slice_eq_some is).2.2.1]

theorem firstKept_bare (b : Batch ν) (first : Int64) : (b.bare first).firstKept = some first := by
  show (AList.lookup firstId (b.metadata.insert firstId (String.ofList (written first)))).bind _ = _
  rw [AList.lookup_insert, Option.bind_some, String.toList_ofList, parseI64_written]

/-- The rows of a batch with other ids, as they are read back: one after another. -/
def numbered (b : Batch ν) (first : Int64) (i : Nat) :
    List (String × Option (Cell ν)) × Option (Cell ν) :=
  (b.others.map fun c => (c.1, c.2.cell i), some (.int64 (some (Int64.ofInt (first.toInt + i)))))

/-- A slice whose metadata names the first id gets its ids back, from as many on as come before it. -/
theorem expand_named {first : Int64} (named : b.firstKept = some first) (columns : b.columns ≠ [])
    (is : b.slice start n = some part) (room : first.toInt + b.rows < 2 ^ 63) (checked : Bool) :
    ∃ whole, expand checked part (Int64.ofNat start) = some whole ∧
      whole.rowsOf = (List.range' start n).map (b.numbered first) := by
  obtain ⟨fits, cols, _, rows⟩ := slice_eq_some is
  have small := b.small
  have low := fits_toInt first
  have count : (Int64.ofNat start).toInt = start := Int64.toInt_ofNat_of_lt (by omega)
  have sum : Fits (first.toInt + start) := by
    unfold Fits at *
    omega
  have from_ := sum.toInt_ofInt
  have kept : part.columns ≠ [] := by
    rw [cols]
    exact fun no => columns (List.map_eq_nil_iff.mp no)
  have long : (Column.int64 (ν := ν)
      ((upFrom (Int64.ofInt (first.toInt + start)) part.rows).map some)).length = part.rows := by
    rw [Column.length, List.length_map, upFrom_length]
  obtain ⟨whole, done, placed_, _, rows'⟩ :=
    set_of ⟨part.columns, ∅, part.rows, part.even, part.small⟩ long
  refine ⟨whole, ?_, ?_⟩
  · unfold expand
    rw [firstKept_slice is, named]
    show (add checked first (Int64.ofNat start)).bind _ = _
    rw [add, count, sum.arith, Option.bind_some, tryNew_of kept part.even part.small, Option.bind_some,
      fresh_eq part.small (by rw [from_, rows]; omega), Option.bind_some]
    exact done
  · obtain ⟨ids, others⟩ := ids_placed placed_
    rw [rowsOf, rows', rows, List.range'_eq_map_range, List.map_map]
    apply List.map_congr_left
    intro i inside
    have less := List.mem_range.mp inside
    have here : i < part.rows := by omega
    have far : first.toInt + start + (i : Int) = first.toInt + ((start + i : Nat) : Int) := by omega
    show whole.row i = b.numbered first (start + i)
    rw [row, numbered, others, ids, Option.bind_some, Column.cell, List.getElem?_map,
      upFrom_get here, from_, far]
    show ((part.columns.eraseP isIds).map _, _) = _
    rw [cols, erase_slice, cells_slice _ less]
    rfl

/-- A build that checks reads no ids that don't fit. -/
theorem expand_checked {first : Int64} {whole : Batch ν} (named : b.firstKept = some first)
    (is : b.slice start n = some part)
    (done : expand true part (Int64.ofNat start) = some whole) :
    b.columns ≠ [] ∧ first.toInt + (start + n : Nat) < 2 ^ 63 := by
  obtain ⟨fits, cols, _, rows⟩ := slice_eq_some is
  have small := b.small
  have count : (Int64.ofNat start).toInt = start := Int64.toInt_ofNat_of_lt (by omega)
  unfold expand at done
  rw [firstKept_slice is, named] at done
  obtain ⟨from_, sum, done⟩ := Option.bind_eq_some_iff.mp done
  obtain ⟨made, tried, done⟩ := Option.bind_eq_some_iff.mp done
  obtain ⟨_, new, _⟩ := Option.bind_eq_some_iff.mp done
  obtain ⟨kept, columns, _⟩ := tryNew_eq_some tried
  have many : made.rows = n := by
    rw [tryNew_of kept part.even part.small] at tried
    cases tried
    exact rows
  have room := fresh_checked made.small (Option.isSome_of_mem new)
  have fits := (arith_checked_isSome _).mp (Option.isSome_of_mem sum)
  rw [arith_eq_ofInt sum, fits.toInt_ofInt, count, many] at room
  refine ⟨fun no => kept ?_, by omega⟩
  rw [cols, no]
  rfl

end Batch

/-- How far the slices before it have come is counted as it is. -/
theorem skip_eq (is : b.slice start n = some part) (checked : Bool) :
    add checked (Int64.ofNat start) (Int64.ofNat part.rows) = some (Int64.ofNat (start + n)) := by
  obtain ⟨fits, _, _, rows⟩ := Batch.slice_eq_some is
  have small := b.small
  have low : (Int64.ofNat start).toInt = start := Int64.toInt_ofNat_of_lt (by omega)
  have high : (Int64.ofNat n).toInt = n := Int64.toInt_ofNat_of_lt (by omega)
  have room : Fits ((start : Int) + n) := by
    unfold Fits
    omega
  rw [add, rows, low, high, room.arith]
  rfl

namespace Tiles

variable {parts : List (Batch ν)}

/-- Slices that name no first id are read as they are. -/
theorem plain (tiles : Tiles b start parts) (unnamed : b.firstKept = none) (checked : Bool) :
    expandFrom checked (Int64.ofNat start) parts = some parts := by
  induction tiles with
  | done => rfl
  | next here others ih =>
    rw [expandFrom, expand, Batch.firstKept_slice here, unnamed]
    show (add checked _ _).bind _ = _
    rw [skip_eq here, Option.bind_some, ih, Option.map_some]

theorem named {first : Int64} (tiles : Tiles b start parts) (named : b.firstKept = some first)
    (columns : b.columns ≠ []) (room : first.toInt + b.rows < 2 ^ 63) (checked : Bool) :
    ∃ out, expandFrom checked (Int64.ofNat start) parts = some out ∧
      out.flatMap Batch.rowsOf = (List.range' start (b.rows - start)).map (b.numbered first) := by
  induction tiles with
  | done => exact ⟨[], rfl, by simp⟩
  | @next start n part rest here others ih =>
    obtain ⟨out, read, rows⟩ := ih
    obtain ⟨whole, one, first_⟩ := Batch.expand_named named columns here room checked
    have fits := (Batch.slice_eq_some here).1
    refine ⟨whole :: out, ?_, ?_⟩
    · rw [expandFrom, one, Option.bind_some, skip_eq here, Option.bind_some, read, Option.map_some]
    · rw [List.flatMap_cons, first_, rows, ← List.map_append, List.range'_append_1]
      congr 2
      omega

/-- In a build that checks, they are read only where every id fits. -/
theorem named_checked {first : Int64} {out : List (Batch ν)} (tiles : Tiles b start parts)
    (named : b.firstKept = some first) (some_ : start < b.rows)
    (read : expandFrom true (Int64.ofNat start) parts = some out) :
    b.columns ≠ [] ∧ first.toInt + b.rows < 2 ^ 63 := by
  induction tiles generalizing out with
  | done => exact (Nat.lt_irrefl _ some_).elim
  | @next start n part rest here others ih =>
    obtain ⟨whole, one, read⟩ := Option.bind_eq_some_iff.mp read
    obtain ⟨skip, sum, read⟩ := Option.bind_eq_some_iff.mp read
    obtain ⟨more, last, _⟩ := Option.map_eq_some_iff.mp read
    rw [skip_eq here] at sum
    cases sum
    have now := Batch.expand_checked named here one
    by_cases further : start + n < b.rows
    · exact ih further last
    · have fits := (Batch.slice_eq_some here).1
      have all : start + n = b.rows := by omega
      rw [all] at now
      exact now

end Tiles

section reading

variable (ipc : Ipc ν β) (valuesOf : Batch ν → Nat) {k : Nat}

/-- A batch whose cuts can be counted is read as its slices are. -/
theorem read_slices (fits : b.dictionaries = false → min k b.rows * b.rows < 2 ^ 64) (checked : Bool) :
    ∃ parts, Tiles b 0 parts ∧
      (encodeSliced checked ipc valuesOf (fun _ => k) [b]).bind (decodePart checked ipc) =
        expandFrom checked 0 parts := by
  have small := b.small
  have counted_ : (if b.dictionaries then 1 else min k b.rows) * b.rows < 2 ^ 64 := by
    cases dictionaries : b.dictionaries with
    | true =>
      rw [if_pos rfl]
      omega
    | false => exact fits dictionaries
  obtain ⟨parts, cut, tiles, one⟩ := @pieces_tiles ν checked b _ counted_
  have single : b.dictionaries = true → parts.length = 1 := fun is => one (by rw [is]; exact le_refl _)
  refine ⟨parts, tiles, ?_⟩
  rw [encode_one, cut, Option.map_some, Option.bind_some, decodePart, ipc.reads b parts tiles.schema single,
    Option.bind_some]

/-- A build that checks logs no batch whose cuts can't be counted. -/
theorem counted_of_encoded (done : (encodeSliced true ipc valuesOf (fun _ => k) [b]).isSome)
    (plain : b.dictionaries = false) : min k b.rows * b.rows < 2 ^ 64 := by
  apply Nat.lt_of_not_le
  intro large
  have small := b.small
  have many : 1 < min k b.rows := by
    apply Nat.lt_of_not_le
    intro few
    have := Nat.mul_le_mul_right b.rows few
    omega
  rw [encode_one, plain, if_neg Bool.false_ne_true, pieces_large many large] at done
  cases done

theorem compact_run {f : Int64} {rest : List Int64} (held : b.i64 = some (f :: rest)) :
    compact checked b = (runsOn checked (f :: rest)).map fun on => if on then b.bare f else b := by
  unfold compact
  change b.ids.bind Column.whole = _ at held
  rw [held]

theorem compact_plain (none_ : ∀ f rest, b.i64 ≠ some (f :: rest)) : compact checked b = some b := by
  unfold compact
  split
  · next f rest held => exact (none_ f rest held).elim
  · rfl

theorem logged_eq {b' : Batch ν} (compacted : compact checked b = some b') :
    logged checked ipc valuesOf k b =
      ((encodeSliced checked ipc valuesOf (fun _ => k) [b']).bind (decodePart checked ipc)).map
        fun parts => parts.flatMap Batch.rowsOf := by
  rw [logged, compacted, Option.bind_some, Option.map_bind]
  rfl

theorem dictionaries_bare {is : List Int64} (held : b.i64 = some is) (f : Int64)  :
    (b.bare f).dictionaries = b.dictionaries := by
  obtain ⟨c, found, whole⟩ := Option.bind_eq_some_iff.mp held
  rw [Batch.dictionaries_eq b, found, whole_eq_some.mp whole]
  exact (Bool.or_false _).symm

/-- Ids that all run on and stop before the last i64 leave room after them. -/
theorem runs_room {f : Int64} {rest : List Int64} (held : b.i64 = some (f :: rest))
    (runs : leading (f :: rest) = f :: rest) (short : Int64.maxValue ∉ leading (f :: rest)) :
    f.toInt + b.rows < 2 ^ 63 := by
  have long : rest.length + 1 = b.rows := Batch.i64_length held
  obtain ⟨same, fits⟩ := upFrom_of_leading runs
  have low := fits_toInt f
  have last : (f :: rest)[rest.length]? = some (Int64.ofInt (f.toInt + rest.length)) := by
    rw [same]
    exact upFrom_get (Nat.lt_succ_self _)
  have apart : Int64.ofInt (f.toInt + rest.length) ≠ Int64.maxValue := fun is => by
    apply short
    rw [runs, ← is]
    exact List.mem_of_getElem? last
  have within : Fits (f.toInt + rest.length) := by
    unfold Fits at *
    omega
  have next := fits_succ.mpr apart
  rw [within.toInt_ofInt] at next
  have high := next.2
  omega

/-- Ids that all run on are the first one, and so many more. -/
theorem numbered_bare {f : Int64} {rest : List Int64} (held : b.i64 = some (f :: rest))
    (runs : leading (f :: rest) = f :: rest) (apart : ∀ c ∈ b.others, c.1 ≠ rowId) :
    (List.range b.rows).map ((b.bare f).numbered f) = b.rowsOf := by
  have long : rest.length + 1 = b.rows := Batch.i64_length held
  apply List.map_congr_left
  intro i inside
  have same : (b.bare f).others = b.others := by
    apply List.eraseP_of_forall_not
    intro c there
    rw [isIds, decide_eq_true_eq]
    exact apart c there
  rw [Batch.numbered, Batch.row, same, Batch.i64_cell held, (upFrom_of_leading runs).1, long,
    upFrom_get (List.mem_range.mp inside)]
  rfl

/-- Whichever build logs it, a batch that keeps its ids is read as it was. -/
theorem logged_of_keeps (keeps : b.Keeps b.i64 b.dictionaries k) (columns : b.columns ≠ [])
    (checked : Bool) : logged checked ipc valuesOf k b = some b.rowsOf := by
  have left (compacted : compact checked b = some b) (unnamed : b.rows ≠ 0 → b.firstKept = none) :
      logged checked ipc valuesOf k b = some b.rowsOf := by
    obtain ⟨parts, tiles, read⟩ := read_slices ipc valuesOf keeps.counted checked
    rw [logged_eq ipc valuesOf compacted, read]
    cases named : b.firstKept with
    | none =>
      have plain := tiles.plain named checked
      have rows := tiles.rows
      rw [Nat.sub_zero, ← List.range_eq_range'] at rows
      exact (congrArg _ plain).trans (congrArg some rows)
    | some f =>
      have empty : b.rows = 0 := Classical.byContradiction fun rows => by
        rw [unnamed rows] at named
        cases named
      have low := fits_toInt f
      have room : f.toInt + b.rows < 2 ^ 63 := by
        rw [empty]
        exact (Int.add_zero f.toInt).symm ▸ low.2
      obtain ⟨out, done, rows⟩ := tiles.named named columns room checked
      refine (congrArg _ done).trans (congrArg some (rows.trans ?_))
      rw [Batch.rowsOf, empty]
      rfl
  by_cases run : ∃ f rest, b.i64 = some (f :: rest)
  · obtain ⟨f, rest, held⟩ := run
    have on := runsOn_eq checked (keeps.short _ held)
    by_cases runs : leading (f :: rest) = f :: rest
    · obtain ⟨beside, apart⟩ := keeps.beside _ held (List.cons_ne_nil f rest) runs
      have compacted : compact checked b = some (b.bare f) := by
        rw [compact_run held, on, decide_eq_true runs]
        rfl
      have counted_ : (b.bare f).dictionaries = false → min k (b.bare f).rows * (b.bare f).rows < 2 ^ 64 := by
        rw [dictionaries_bare held]
        exact keeps.counted
      obtain ⟨parts, tiles, read⟩ := read_slices ipc valuesOf counted_ checked
      have room := runs_room held runs (keeps.short _ held)
      obtain ⟨out, done, rows⟩ := tiles.named (b.firstKept_bare f) beside room checked
      rw [Nat.sub_zero, ← List.range_eq_range'] at rows
      rw [logged_eq ipc valuesOf compacted, read]
      exact (congrArg _ done).trans (congrArg some (rows.trans (numbered_bare held runs apart)))
    · apply left
      · rw [compact_run held, on, decide_eq_false runs]
        rfl
      · intro rows
        apply keeps.unnamed rows
        intro is same
        rw [held] at same
        exact Option.some.inj same ▸ runs
  · apply left (compact_plain fun f rest held => run ⟨f, rest, held⟩)
    intro rows
    apply keeps.unnamed rows
    intro is held
    cases is with
    | nil => exact absurd (Batch.i64_length held).symm rows
    | cons f rest => exact absurd ⟨f, rest, held⟩ run

/-- A build that checks gives back the rows of a batch whose metadata names a first id under the ids
from it on, all of which fit. -/
theorem named_of_logged {f : Int64} {b' : Batch ν} (compacted : compact true b = some b')
    (named : b'.firstKept = some f) (same : b'.rows = b.rows) (some_ : 0 < b.rows)
    (done : logged true ipc valuesOf k b = some b.rowsOf) :
    b'.columns ≠ [] ∧ f.toInt + b.rows < 2 ^ 63 ∧ ∀ i, i < b.rows → b'.numbered f i = b.row i := by
  rw [logged_eq ipc valuesOf compacted] at done
  obtain ⟨out, decoded, back⟩ := Option.map_eq_some_iff.mp done
  obtain ⟨bytes, written_, _⟩ := Option.bind_eq_some_iff.mp decoded
  have counted_ := counted_of_encoded ipc valuesOf (Option.isSome_of_mem written_)
  obtain ⟨parts, tiles, read⟩ := read_slices ipc valuesOf counted_ true
  rw [read] at decoded
  obtain ⟨columns, room⟩ := tiles.named_checked named (same ▸ some_) decoded
  obtain ⟨out', done', rows⟩ := tiles.named named columns room true
  cases decoded.symm.trans done'
  rw [Nat.sub_zero, ← List.range_eq_range', same, back, Batch.rowsOf] at rows
  refine ⟨columns, same ▸ room, fun i inside => ?_⟩
  exact (List.map_inj_left.mp rows i (List.mem_range.mpr inside)).symm

theorem counted_of_logged {b' : Batch ν} (compacted : compact true b = some b')
    (done : logged true ipc valuesOf k b = some b.rowsOf) :
    b'.dictionaries = false → min k b'.rows * b'.rows < 2 ^ 64 := by
  rw [logged_eq ipc valuesOf compacted] at done
  obtain ⟨out, decoded, _⟩ := Option.map_eq_some_iff.mp done
  obtain ⟨bytes, written_, _⟩ := Option.bind_eq_some_iff.mp decoded
  exact counted_of_encoded ipc valuesOf (Option.isSome_of_mem written_)

/-- A batch given back without one of its ids' columns isn't the one it was. -/
theorem others_whole {f : Int64} {b' : Batch ν} (columns : b'.columns = b.others)
    (row : b'.numbered f 0 = b.row 0) : ∀ c ∈ b.others, c.1 ≠ rowId := by
  intro c inside is
  have cells := congrArg (fun row => row.1.length) row
  simp only [Batch.numbered, Batch.row, List.length_map] at cells
  rw [Batch.others, columns] at cells
  have fewer := List.length_eraseP_of_mem inside (p := isIds) (decide_eq_true is)
  have positive := List.length_pos_of_mem inside
  omega

/-- A batch that a build that checks reads as it was keeps its ids. -/
theorem keeps_of_logged (done : logged true ipc valuesOf k b = some b.rowsOf) :
    b.Keeps b.i64 b.dictionaries k := by
  have left (compacted : compact true b = some b)
      (front : ∀ is, b.i64 = some is → Int64.maxValue ∉ leading is)
      (apart : ∀ is, b.i64 = some is → is ≠ [] → leading is ≠ is) : b.Keeps b.i64 b.dictionaries k := by
    refine ⟨front, fun is held some_ runs => (apart is held some_ runs).elim, fun rows runless => ?_,
      counted_of_logged ipc valuesOf compacted done⟩
    cases named : b.firstKept with
    | none => rfl
    | some f =>
      have positive := Nat.pos_of_ne_zero rows
      obtain ⟨_, room, same⟩ := named_of_logged ipc valuesOf compacted named rfl positive done
      have ids := Batch.i64_of_cells rows fun i inside => (congrArg Prod.snd (same i inside)).symm
      exact (runless _ ids (leading_upFrom (Int.le_of_lt room))).elim
  by_cases run : ∃ f rest, b.i64 = some (f :: rest)
  · obtain ⟨f, rest, held⟩ := run
    have compacted := @compact_run ν b true f rest held
    cases on : runsOn true (f :: rest) with
    | none =>
      rw [on] at compacted
      rw [logged, compacted] at done
      cases done
    | some yes =>
      obtain ⟨is, short⟩ := runsOn_checked on
      rw [on, Option.map_some] at compacted
      cases yes with
      | false =>
        have apart := of_decide_eq_false is.symm
        apply left compacted
        · intro is' same
          rw [held] at same
          cases same
          exact short rfl
        · intro is' same _
          rw [held] at same
          cases same
          exact apart
      | true =>
        have runs := of_decide_eq_true is.symm
        have long : rest.length + 1 = b.rows := Batch.i64_length held
        have positive : 0 < b.rows := by omega
        obtain ⟨beside, room, same⟩ :=
          named_of_logged ipc valuesOf compacted (b.firstKept_bare f) rfl positive done
        have counted_ := counted_of_logged ipc valuesOf compacted done
        rw [if_pos rfl, dictionaries_bare held f] at counted_
        refine ⟨?_, ?_, ?_, counted_⟩
        · intro is' same'
          rw [held] at same'
          cases same'
          rw [runs, (upFrom_of_leading runs).1, long]
          intro inside
          obtain ⟨i, less, last⟩ := List.mem_map.mp inside
          have below := List.mem_range.mp less
          have low := fits_toInt f
          have within : Fits (f.toInt + (i : Int) + 1) := by
            unfold Fits at *
            omega
          have here : Fits (f.toInt + (i : Int)) := by
            unfold Fits at *
            omega
          rw [← here.toInt_ofInt] at within
          exact fits_succ.mp within last
        · exact fun _ _ _ _ => ⟨beside, others_whole rfl (same 0 positive)⟩
        · intro _ runless
          exact (runless _ held runs).elim
  · apply left (compact_plain fun f rest held => run ⟨f, rest, held⟩)
    · intro is held
      cases is with
      | nil => exact List.not_mem_nil
      | cons f rest => exact (run ⟨f, rest, held⟩).elim
    · intro is held
      cases is with
      | nil => exact fun no => (no rfl).elim
      | cons f rest => exact (run ⟨f, rest, held⟩).elim

/-- A build stamps a batch, and the log gives back its rows, each with its id as stamped. -/
def Survives (checked : Bool) (cast : Cast ν) (b : Batch ν) (first : Int64) (k : Nat) : Prop :=
  ∃ s, stamp checked cast b first = some s ∧ s.rows = b.rows ∧ s.others = b.others ∧
    logged checked ipc valuesOf k s = some s.rowsOf

/-- Both builds do, for a batch whose ids can be cast, exactly where its new ids fit and it keeps
those it is given. -/
theorem survives_iff {cast : Cast ν} {first : Int64} (castable : b.Castable cast) :
    (∀ checked, Survives ipc valuesOf checked cast b first k) ↔
      (b.Owed → first.toInt + b.rows < 2 ^ 63) ∧ b.Keeps (b.given cast first) b.uncut k := by
  have same {s : Batch ν} (stamped : Batch.Stamped cast b first s) :
      s.Keeps s.i64 s.dictionaries k ↔ b.Keeps (b.given cast first) b.uncut k := by
    have named : s.firstKept = b.firstKept := by rw [Batch.firstKept, stamped.metadata, Batch.firstKept]
    rw [stamped.ids, stamped.dictionaries]
    constructor
    · rintro ⟨short, beside, unnamed, counted⟩
      rw [stamped.others] at beside
      rw [stamped.rows, named] at unnamed
      rw [stamped.rows] at counted
      exact ⟨short, beside, unnamed, counted⟩
    · rintro ⟨short, beside, unnamed, counted⟩
      rw [← stamped.others] at beside
      rw [← stamped.rows, ← named] at unnamed
      rw [← stamped.rows] at counted
      exact ⟨short, beside, unnamed, counted⟩
  constructor
  · intro survives
    obtain ⟨s, made, _, _, back⟩ := survives true
    have room : b.Owed → first.toInt + b.rows < 2 ^ 63 := fun owed =>
      Batch.stamp_checked owed (Option.isSome_of_mem made)
    obtain ⟨s', each, stamped⟩ := Batch.stamp_of castable room
    cases made.symm.trans (each true)
    exact ⟨room, (same stamped).mp (keeps_of_logged ipc valuesOf back)⟩
  · rintro ⟨room, keeps⟩ checked
    obtain ⟨s, each, stamped⟩ := Batch.stamp_of castable room
    exact ⟨s, each checked, stamped.rows, stamped.others,
      logged_of_keeps ipc valuesOf ((same stamped).mpr keeps) stamped.columns checked⟩

end reading

end Pondra.RowIds
