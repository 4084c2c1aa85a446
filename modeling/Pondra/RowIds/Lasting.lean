import Pondra.RowIds.Slices

set_option autoImplicit false

/- Which batches the log gives back with the row ids they were stamped with. -/

namespace Pondra.RowIds

open Decimals Traverse Words

variable {ν β : Type}

/-- As many ids, one after another. -/
def upFrom (first : Int64) (n : Nat) : List Int64 :=
  (List.range n).map fun i : Nat => Int64.ofInt (first.toInt + i)

/-- The ids at the front that each come right after the one before. -/
def leading : List Int64 → List Int64
  | [] => []
  | [a] => [a]
  | a :: b :: rest => if b.toInt = a.toInt + 1 then a :: leading (b :: rest) else [a]

namespace Batch

/-- The ids of a column of them without nulls. -/
def i64 (b : Batch ν) : Option (List Int64) := b.ids.bind Column.whole

/-- A batch whose ids have nulls that it can be stamped in spite of. -/
def Castable (cast : Cast ν) (b : Batch ν) : Prop :=
  ∀ c, b.ids = some c → c.nullCount ≠ 0 → ∃ old, c.toInt64 cast = some old

/-- Some row of the batch has no id yet. -/
def Owed (b : Batch ν) : Prop := ∀ c, b.ids = some c → c.nullCount ≠ 0

/-- The 64-bit ids of the rows once they are stamped: those they carry, and new ones for the rest. -/
def given (cast : Cast ν) (b : Batch ν) (first : Int64) : Option (List Int64) :=
  match b.ids with
  | none => some (upFrom first b.rows)
  | some c =>
    if c.nullCount = 0 then c.whole
    else (c.toInt64 cast).map fun old => List.zipWith Option.getD old (upFrom first b.rows)

/-- A column other than the ids that are rewritten holds a dictionary. -/
def uncut (b : Batch ν) : Bool :=
  b.others.any (fun c => c.2.dtype.2) ||
    match b.ids with
    | none => false
    | some c => decide (c.nullCount = 0) && c.dtype.2

/-- A batch whose rows keep these ids in the log, cut into at most `k` slices: the run of ids at its
front stops before the last i64; ids that all run on leave other columns, none of them ids; beside
any other ids its metadata names no first one; and its cuts can be counted. -/
structure Keeps (b : Batch ν) (ids : Option (List Int64)) (dictionaries : Bool) (k : Nat) : Prop where
  short : ∀ is, ids = some is → Int64.maxValue ∉ leading is
  beside : ∀ is, ids = some is → is ≠ [] → leading is = is →
    b.others ≠ [] ∧ ∀ c ∈ b.others, c.1 ≠ rowId
  unnamed : b.rows ≠ 0 → (∀ is, ids = some is → leading is ≠ is) → b.firstKept = none
  counted : dictionaries = false → min k b.rows * b.rows < 2 ^ 64

end Batch

/-- The rows that the log gives back of a batch. -/
def logged (checked : Bool) (ipc : Ipc ν β) (valuesOf : Batch ν → Nat) (k : Nat) (b : Batch ν) :
    Option (List (List (String × Option (Cell ν)) × Option (Cell ν))) :=
  (compact checked b).bind fun b =>
    (encodeSliced checked ipc valuesOf (fun _ => k) [b]).bind fun bytes =>
      (decodePart checked ipc bytes).map fun parts => parts.flatMap Batch.rowsOf

/-! ### Ids that run on -/

theorem upFrom_length (first : Int64) (n : Nat) : (upFrom first n).length = n := by
  rw [upFrom, List.length_map, List.length_range]

theorem upFrom_get {first : Int64} {n i : Nat} (inside : i < n) :
    (upFrom first n)[i]? = some (Int64.ofInt (first.toInt + i)) := by
  rw [upFrom, List.getElem?_map, List.getElem?_range inside]
  rfl

theorem upFrom_succ (first : Int64) (n : Nat) :
    upFrom first (n + 1) = first :: upFrom (Int64.ofInt (first.toInt + 1)) n := by
  unfold upFrom
  rw [List.range_succ_eq_map, List.map_cons, List.map_map]
  congr 1
  · simp
  · apply List.map_congr_left
    intro i _
    have sum : first.toInt + ((i + 1 : Nat) : Int) = i + (first.toInt + 1) := by omega
    show Int64.ofInt (first.toInt + ((i + 1 : Nat) : Int)) = _
    rw [sum, ← ofInt_add_toInt, Int.add_comm]

theorem leading_upFrom {first : Int64} {n : Nat} (fits : first.toInt + n ≤ 2 ^ 63) :
    leading (upFrom first n) = upFrom first n := by
  induction n generalizing first with
  | zero => rfl
  | succ n ih =>
    cases n with
    | zero => rfl
    | succ n =>
      have low := fits_toInt first
      have next : (Int64.ofInt (first.toInt + 1)).toInt = first.toInt + 1 := by
        apply Fits.toInt_ofInt
        unfold Fits at *
        omega
      have rest := @ih (Int64.ofInt (first.toInt + 1)) (by rw [next]; omega)
      rw [upFrom_succ] at rest ⊢
      rw [upFrom_succ, leading, if_pos next, rest]

/-- Ids that all run on are those from the first. -/
theorem upFrom_of_leading {first : Int64} {rest : List Int64}
    (runs : leading (first :: rest) = first :: rest) :
    first :: rest = upFrom first (rest.length + 1) ∧ first.toInt + rest.length < 2 ^ 63 := by
  induction rest generalizing first with
  | nil =>
    have fits := fits_toInt first
    refine ⟨by rw [List.length_nil, upFrom_succ]; rfl, ?_⟩
    unfold Fits at fits
    rw [List.length_nil]
    omega
  | cons second rest ih =>
    unfold leading at runs
    split at runs
    · next after =>
      obtain ⟨same, fits⟩ := ih (List.cons.inj runs).2
      have next : Int64.ofInt (first.toInt + 1) = second := by rw [← after, Int64.ofInt_toInt]
      refine ⟨by rw [List.length_cons, upFrom_succ, next, ← same], ?_⟩
      rw [List.length_cons]
      omega
    · cases (List.cons.inj runs).2

theorem ofInt_eq_iff {a b : Int64} (room : Fits (a.toInt + 1)) :
    b = Int64.ofInt (a.toInt + 1) ↔ b.toInt = a.toInt + 1 := by
  constructor
  · rintro rfl
    exact room.toInt_ofInt
  · intro same
    rw [← same, Int64.ofInt_toInt]

theorem fits_succ {a : Int64} : Fits (a.toInt + 1) ↔ a ≠ Int64.maxValue := by
  have within := fits_toInt a
  have last : Int64.maxValue.toInt = 2 ^ 63 - 1 := rfl
  have same : a = Int64.maxValue ↔ a.toInt = Int64.maxValue.toInt := Int64.toInt_inj.symm
  unfold Fits at *
  rw [Ne, same, last]
  omega

theorem toInt_one : (1 : Int64).toInt = 1 := rfl

theorem mem_leading (a : Int64) (rest : List Int64) : a ∈ leading (a :: rest) := by
  cases rest with
  | nil => exact List.mem_cons_self
  | cons b rest =>
    unfold leading
    split <;> exact List.mem_cons_self

theorem runsOn_eq (checked : Bool) {ids : List Int64} (short : Int64.maxValue ∉ leading ids) :
    runsOn checked ids = some (decide (leading ids = ids)) := by
  induction ids with
  | nil => rfl
  | cons a rest ih =>
    cases rest with
    | nil => simp [runsOn, leading]
    | cons b rest =>
      have room : Fits (a.toInt + 1) := fits_succ.mpr fun last => short (last ▸ mem_leading a _)
      have after : add checked a 1 = some (Int64.ofInt (a.toInt + 1)) := by
        rw [add, toInt_one, room.arith]
      rw [runsOn, after, Option.bind_some]
      by_cases next : b.toInt = a.toInt + 1
      · have front : leading (a :: b :: rest) = a :: leading (b :: rest) := if_pos next
        rw [front] at short ⊢
        rw [if_pos ((ofInt_eq_iff room).mpr next), ih fun inside => short (List.mem_cons_of_mem a inside)]
        simp
      · have front : leading (a :: b :: rest) = [a] := if_neg next
        rw [if_neg fun is => next ((ofInt_eq_iff room).mp is), front]
        simp

/-- A build that checks comes to an end only where the run of ids at the front does, or is all. -/
theorem runsOn_checked {ids : List Int64} {on : Bool} (done : runsOn true ids = some on) :
    on = decide (leading ids = ids) ∧ (on = false → Int64.maxValue ∉ leading ids) := by
  induction ids with
  | nil =>
    cases done
    exact ⟨rfl, fun no => by cases no⟩
  | cons a rest ih =>
    cases rest with
    | nil =>
      cases done
      exact ⟨by simp [leading], fun no => by cases no⟩
    | cons b rest =>
      rw [runsOn, add, toInt_one] at done
      obtain ⟨after, sum, done⟩ := Option.bind_eq_some_iff.mp done
      have room : Fits (a.toInt + 1) := (arith_checked_isSome _).mp (Option.isSome_of_mem sum)
      have apart : Int64.maxValue ≠ a := fun last => fits_succ.mp room last.symm
      rw [arith_eq_ofInt sum] at done
      by_cases next : b.toInt = a.toInt + 1
      · have front : leading (a :: b :: rest) = a :: leading (b :: rest) := if_pos next
        rw [if_pos ((ofInt_eq_iff room).mpr next)] at done
        obtain ⟨is, short⟩ := ih done
        rw [front]
        refine ⟨by rw [is]; simp, fun off inside => ?_⟩
        exact (List.mem_cons.mp inside).elim apart (short off)
      · have front : leading (a :: b :: rest) = [a] := if_neg next
        rw [if_neg fun is => next ((ofInt_eq_iff room).mp is)] at done
        cases done
        rw [front]
        exact ⟨by simp, fun _ inside => apart (List.mem_singleton.mp inside)⟩

/-! ### Columns of ids -/

theorem whole_eq_some {c : Column ν} {is : List Int64} :
    c.whole = some is ↔ c = .int64 (is.map some) := by
  cases c with
  | other dtype dictionary values => exact ⟨fun no => (by cases no), fun no => (by cases no)⟩
  | int64 values =>
    have each : (is.map some).mapM id = some is := by
      rw [List.mapM_map]
      exact (mapM_some fun i _ => rfl).trans (congrArg some (List.map_id is))
    constructor
    · intro done
      have same : values = is.map some := by
        clear each
        induction values generalizing is with
        | nil =>
          cases done
          rfl
        | cons v rest ih =>
          change (v :: rest).mapM id = some is at done
          rw [List.mapM_cons] at done
          obtain ⟨i, one, done⟩ := Option.bind_eq_some_iff.mp done
          obtain ⟨others, more, done⟩ := Option.bind_eq_some_iff.mp done
          cases done
          rw [List.map_cons, ← ih more]
          exact congrArg (· :: rest) one
      rw [same]
    · intro same
      cases same
      exact each

namespace Batch

variable {b s : Batch ν}

theorem i64_length {is : List Int64} (held : b.i64 = some is) : is.length = b.rows := by
  obtain ⟨c, found, whole⟩ := Option.bind_eq_some_iff.mp held
  have long := b.ids_length found
  rw [whole_eq_some.mp whole, Column.length, List.length_map] at long
  exact long

theorem i64_cell {is : List Int64} (held : b.i64 = some is) (i : Nat) :
    b.ids.bind (Column.cell i) = is[i]?.map fun v => Cell.int64 (some v) := by
  obtain ⟨c, found, whole⟩ := Option.bind_eq_some_iff.mp held
  rw [found, Option.bind_some, whole_eq_some.mp whole, Column.cell, List.getElem?_map, Option.map_map]
  rfl

/-- Cells that are i64s one after another are a column of them. -/
theorem i64_of_cells {first : Int64} (some_ : b.rows ≠ 0)
    (each : ∀ i, i < b.rows →
      b.ids.bind (Column.cell i) = some (Cell.int64 (some (Int64.ofInt (first.toInt + i))))) :
    b.i64 = some (upFrom first b.rows) := by
  obtain ⟨c, found, here⟩ := Option.bind_eq_some_iff.mp (each 0 (Nat.pos_of_ne_zero some_))
  have long := b.ids_length found
  cases c with
  | other dtype dictionary values =>
    obtain ⟨v, _, no⟩ := Option.map_eq_some_iff.mp here
    cases no
  | int64 values =>
    change values.length = b.rows at long
    have same : values = (upFrom first b.rows).map some := by
      apply List.ext_getElem?
      intro i
      by_cases inside : i < b.rows
      · have is := each i inside
        rw [found, Option.bind_some] at is
        obtain ⟨v, there, value⟩ := Option.map_eq_some_iff.mp is
        rw [there, List.getElem?_map, upFrom_get inside, Option.map_some]
        exact congrArg some (Cell.int64.inj value)
      · rw [List.getElem?_eq_none (by omega), List.getElem?_eq_none]
        rw [List.length_map, upFrom_length]
        omega
    rw [i64, found, Option.bind_some, same]
    exact whole_eq_some.mpr rfl

/-- What a stamped batch is. -/
structure Stamped (cast : Cast ν) (b : Batch ν) (first : Int64) (s : Batch ν) : Prop where
  rows : s.rows = b.rows
  others : s.others = b.others
  metadata : s.metadata = b.metadata
  ids : s.i64 = b.given cast first
  dictionaries : s.dictionaries = b.uncut
  columns : s.columns ≠ []

theorem any_columns (p : String × Column ν → Bool) (columns : List (String × Column ν)) :
    columns.any p = ((columns.eraseP isIds).any p || ((columns.find? isIds).map p).getD false) := by
  induction columns with
  | nil => rfl
  | cons c rest ih =>
    rw [List.eraseP_cons, List.find?_cons]
    cases named : isIds c with
    | true => simp [Bool.or_comm]
    | false => simp [ih, Bool.or_assoc]

theorem dictionaries_eq (b : Batch ν) : b.dictionaries =
    (b.others.any (fun c => c.2.dtype.2) || (b.ids.map fun c => c.dtype.2).getD false) := by
  rw [dictionaries, any_columns, others, ids, Option.map_map]
  rfl

theorem fresh_eq {first : Int64} {rows : Nat} (small : rows < 2 ^ 63)
    (room : first.toInt + rows < 2 ^ 63) (checked : Bool) :
    fresh checked first rows = some (upFrom first rows) := by
  have low := fits_toInt first
  have count : (Int64.ofNat rows).toInt = rows := Int64.toInt_ofNat_of_lt small
  have fits : Fits (first.toInt + rows) := by
    unfold Fits at *
    omega
  have many : ((Int64.ofInt (first.toInt + rows)).toInt - first.toInt).toNat = rows := by
    rw [fits.toInt_ofInt]
    omega
  rw [fresh, add, count, fits.arith, Option.map_some, between, many]
  rfl

theorem fresh_checked {first : Int64} {rows : Nat} (small : rows < 2 ^ 63)
    (done : (fresh true first rows).isSome) : first.toInt + rows < 2 ^ 63 := by
  rw [fresh, Option.isSome_map, add, arith_checked_isSome, Int64.toInt_ofNat_of_lt small] at done
  exact done.2

/-- Ids set in a batch of rows. -/
theorem stamped_set {cast : Cast ν} {first : Int64} {is : List Int64} (long : is.length = b.rows)
    (given : b.given cast first = some is) (owed : b.Owed) :
    ∃ s, b.set rowId (.int64 (is.map some)) = some s ∧ Stamped cast b first s := by
  have even : (Column.int64 (ν := ν) (is.map some)).length = b.rows := by
    rw [Column.length, List.length_map, long]
  obtain ⟨s, done, columns, metadata, rows⟩ := b.set_of even
  obtain ⟨ids, others⟩ := ids_placed columns
  have held : s.i64 = some is := by
    rw [i64, ids, Option.bind_some]
    exact whole_eq_some.mpr rfl
  have plain : b.uncut = b.others.any fun c => c.2.dtype.2 := by
    unfold uncut
    cases found : b.ids with
    | none => simp
    | some c => simp [owed c found]
  refine ⟨s, done, rows, others, metadata, held.trans given.symm, ?_, columns ▸ placed_ne_nil _ _⟩
  rw [dictionaries_eq, ids, others, plain]
  simp [Column.dtype, Batch.others]

/-- Where new ids fit, a batch is stamped, in either build. -/
theorem stamp_of {cast : Cast ν} {first : Int64} (castable : b.Castable cast)
    (room : b.Owed → first.toInt + b.rows < 2 ^ 63) :
    ∃ s, (∀ checked, stamp checked cast b first = some s) ∧ Stamped cast b first s := by
  unfold stamp
  cases found : b.ids with
  | none =>
    have owed : b.Owed := fun c no => by rw [found] at no; cases no
    have given : b.given cast first = some (upFrom first b.rows) := by rw [Batch.given, found]
    obtain ⟨s, done, stamped⟩ := stamped_set (upFrom_length first b.rows) given owed
    exact ⟨s, fun checked => by rw [fresh_eq b.small (room owed)]; exact done, stamped⟩
  | some c =>
    by_cases full : c.nullCount = 0
    · have given : b.i64 = b.given cast first := by simp [Batch.given, i64, found, full]
      have plain : b.dictionaries = b.uncut := by rw [dictionaries_eq, uncut, found]; simp [full]
      have columns : b.columns ≠ [] := fun no => by
        rw [ids, no] at found
        cases found
      exact ⟨b, fun checked => if_pos full, rfl, rfl, rfl, given, plain, columns⟩
    · obtain ⟨old, is⟩ := castable c found full
      have owed : b.Owed := fun c' same => by
        rw [found] at same
        exact Option.some.inj same ▸ full
      have count : old.length = b.rows := by
        have long := b.ids_length found
        cases c with
        | int64 values =>
          cases is
          exact long
        | other dtype dictionary values => exact (cast.keeps _ _ _ is).trans long
      have given : b.given cast first =
          some (List.zipWith Option.getD old (upFrom first b.rows)) := by
        simp [Batch.given, found, full, is]
      have long : (List.zipWith Option.getD old (upFrom first b.rows)).length = b.rows := by
        rw [List.length_zipWith, upFrom_length, count, Nat.min_self]
      obtain ⟨s, done, stamped⟩ := stamped_set long given owed
      refine ⟨s, fun checked => ?_, stamped⟩
      show (if c.nullCount = 0 then some b else _) = _
      rw [if_neg full, is, Option.bind_some, fresh_eq b.small (room owed), Option.bind_some, ← done,
        List.map_zipWith]
      congr 3
      funext o f
      cases o <;> rfl

theorem stamp_checked {cast : Cast ν} {first : Int64} (owed : b.Owed)
    (done : (stamp true cast b first).isSome) : first.toInt + b.rows < 2 ^ 63 := by
  apply fresh_checked b.small
  obtain ⟨s, is⟩ := Option.isSome_iff_exists.mp done
  unfold stamp at is
  split at is
  · next c found =>
    rw [if_neg (owed c found)] at is
    obtain ⟨_, _, is⟩ := Option.bind_eq_some_iff.mp is
    obtain ⟨_, new, _⟩ := Option.bind_eq_some_iff.mp is
    exact Option.isSome_of_mem new
  · obtain ⟨_, new, _⟩ := Option.bind_eq_some_iff.mp is
    exact Option.isSome_of_mem new

end Batch

end Pondra.RowIds
