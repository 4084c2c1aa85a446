import Mathlib.Algebra.GroupWithZero.Nat
import Mathlib.Data.List.Count
import Mathlib.Data.List.Forall2
import Mathlib.Data.List.Perm.Basic
import Pondra.Base.Machine
import Pondra.Txns.Kept

set_option autoImplicit false

namespace Pondra.Txns

open Machines

section texts

/-- No part holds the separator, where there is more than one. -/
def Plain (parts : List String) : Prop :=
  2 ≤ parts.length → ∀ part ∈ parts, Char.ofNat 1 ∉ part.toList

theorem append_sep_inj (sep : Char) {a a' : List Char} {b b' : List Char} (plain : sep ∉ a)
    (plain' : sep ∉ a') (same : a ++ sep :: b = a' ++ sep :: b') : a = a' ∧ b = b' := by
  induction a generalizing a' with
  | nil =>
    cases a' with
    | nil => exact ⟨rfl, (List.cons.inj same).2⟩
    | cons c rest => exact absurd (List.cons.inj same).1 fun equal => plain' (by simp [equal])
  | cons c rest ih =>
    cases a' with
    | nil => exact absurd (List.cons.inj same).1 fun equal => plain (by simp [equal])
    | cons c' rest' =>
      obtain ⟨rfl, rests⟩ := List.cons.inj same
      obtain ⟨rfl, tails⟩ := ih (fun inside => plain (List.mem_cons_of_mem c inside))
        (fun inside => plain' (List.mem_cons_of_mem c inside)) rests
      exact ⟨rfl, tails⟩

/-- Keys of as many columns, none of which holds the separator, have different texts. -/
theorem joined_inj {parts parts' : List String} (plain : Plain parts) (plain' : Plain parts')
    (lengths : parts.length = parts'.length) (same : joined parts = joined parts') :
    parts = parts' := by
  induction parts generalizing parts' with
  | nil => exact (List.length_eq_zero_iff.mp lengths.symm).symm
  | cons part rest ih =>
    match parts', lengths with
    | part' :: rest', lengths =>
      have lengths : rest.length = rest'.length := Nat.succ.inj lengths
      match rest, rest', lengths with
      | [], [], _ => rw [show part = part' from same]
      | next :: rest, next' :: rest', lengths =>
        have two : 2 ≤ (part :: next :: rest).length := by simp
        have two' : 2 ≤ (part' :: next' :: rest').length := by simp
        have lists := congrArg String.toList same
        simp only [joined, String.toList_append, keySep, String.toList_singleton, List.append_assoc,
          List.singleton_append] at lists
        obtain ⟨first, tails⟩ := append_sep_inj _ (plain two part List.mem_cons_self)
          (plain' two' part' List.mem_cons_self) lists
        rw [String.toList_inj.mp first, ih
          (fun _ other inside => plain two other (List.mem_cons_of_mem _ inside))
          (fun _ other inside => plain' two' other (List.mem_cons_of_mem _ inside)) lengths
          (String.toList_inj.mp tails)]

end texts

section counts

theorem added_live (by' : ByKey) (texts : List String) (k : String) :
    (by'.added texts).live k = by'.live k + texts.count k := by
  induction texts generalizing by' with
  | nil => rfl
  | cons text rest ih =>
    have step := ih { by' with live := Function.update by'.live text (by'.live text + 1) }
    simp only [ByKey.added, List.foldl_cons] at step ⊢
    rw [step, List.count_cons]
    by_cases same : k = text
    · subst same
      simp only [Function.update_self, beq_self_eq_true, if_true]
      omega
    · rw [Function.update_of_ne same, if_neg (by simpa using Ne.symm same)]
      omega

theorem dropped_live (by' : ByKey) (texts : List String) (k : String) :
    (by'.dropped texts).live k = by'.live k - texts.count k := by
  induction texts generalizing by' with
  | nil => rfl
  | cons text rest ih =>
    have step := ih { by' with live := Function.update by'.live text (by'.live text - 1) }
    simp only [ByKey.dropped, List.foldl_cons] at step ⊢
    rw [step, List.count_cons]
    by_cases same : k = text
    · subst same
      simp only [Function.update_self, beq_self_eq_true, if_true]
      omega
    · rw [Function.update_of_ne same, if_neg (by simpa using Ne.symm same)]
      omega

end counts

section stamped

/-- What a statement's new rows are kept as: each with the id it carries, or a temporary one that no
row had. -/
structure Stamped (next : Int) (new : List New) (kept : List Row) (after : Int) : Prop where
  lower : after ≤ next
  ids : ∀ row ∈ kept, some row.id ∈ new.map (·.given) ∨ after < row.id ∧ row.id ≤ next
  own : ∀ row ∈ kept, row.version = none
  cells : kept.map (·.cell) = new.map (·.cell)
  distinct : (new.filterMap (·.given)).Nodup → (∀ id ∈ new.filterMap (·.given), next < id) →
    (kept.map (·.id)).Nodup

theorem stamped_spec (next : Int) (new : List New) :
    Stamped next new (stamped next new).1 (stamped next new).2 := by
  induction new generalizing next with
  | nil => exact ⟨Int.le_refl _, fun _ inside => absurd inside List.not_mem_nil,
      fun _ inside => absurd inside List.not_mem_nil, rfl, fun _ _ => List.nodup_nil⟩
  | cons row rest ih =>
    unfold stamped
    cases given : row.given with
    | some id =>
      have spec := ih next
      refine ⟨spec.lower, ?_, ?_, ?_, ?_⟩
      · intro kept inside
        rcases List.mem_cons.mp inside with rfl | inside
        · exact .inl (by simp [given])
        · rcases spec.ids kept inside with carried | temporary
          · exact .inl (List.mem_cons_of_mem _ carried)
          · exact .inr temporary
      · intro kept inside
        rcases List.mem_cons.mp inside with rfl | inside
        · rfl
        · exact spec.own kept inside
      · simp only [List.map_cons, spec.cells]
      · intro distinct above
        rw [List.filterMap_cons_some given] at distinct above
        obtain ⟨apart, distinct⟩ := List.nodup_cons.mp distinct
        have lower := above id List.mem_cons_self
        refine List.nodup_cons.mpr ⟨?_, spec.distinct distinct
          fun other inside => above other (List.mem_cons_of_mem _ inside)⟩
        intro found
        obtain ⟨kept, inside, same⟩ := List.mem_map.mp found
        rcases spec.ids kept inside with carried | temporary
        · apply apart
          rw [← show kept.id = id from same]
          obtain ⟨other, inRest, gives⟩ := List.mem_map.mp carried
          exact List.mem_filterMap.mpr ⟨other, inRest, gives⟩
        · have : kept.id = id := same
          omega
    | none =>
      have spec := ih (next - 1)
      have lower := spec.lower
      refine ⟨Int.le_trans lower (by omega), ?_, ?_, ?_, ?_⟩
      · intro kept inside
        rcases List.mem_cons.mp inside with rfl | inside
        · exact .inr ⟨by show (stamped (next - 1) rest).2 < next; omega, Int.le_refl _⟩
        · rcases spec.ids kept inside with carried | temporary
          · exact .inl (List.mem_cons_of_mem _ carried)
          · exact .inr ⟨temporary.1, by omega⟩
      · intro kept inside
        rcases List.mem_cons.mp inside with rfl | inside
        · rfl
        · exact spec.own kept inside
      · simp only [List.map_cons, spec.cells]
      · intro distinct above
        rw [List.filterMap_cons_none given] at distinct above
        refine List.nodup_cons.mpr ⟨?_, spec.distinct distinct fun other inside => ?_⟩
        · intro found
          obtain ⟨kept, inside, same⟩ := List.mem_map.mp found
          have same : kept.id = next := same
          rcases spec.ids kept inside with carried | temporary
          · obtain ⟨other, inRest, gives⟩ := List.mem_map.mp carried
            have := above kept.id (List.mem_filterMap.mpr ⟨other, inRest, gives⟩)
            omega
          · omega
        · have := above other inside
          omega

end stamped

/-- The table after a statement: its old rows out, its new rows in. A keyed table's new row takes the
place of its key's. -/
def exec (key : List String) (rows old kept : List Row) : List Row :=
  (rows.filter fun row =>
    row.id ∉ old.map (·.id) ∧ (key = [] ∨ keysOf key row ∉ kept.map (keysOf key))) ++ kept

/-- The table after the commit of what a transaction sends: its old rows taken out by `_row_id`, a keyed
table's by key, and its new rows put in, where a keyed table's row takes the place of its key's. -/
def applied (key : List String) (base old : List Row) (sent : List Sent) : List Sent :=
  fresh (base.filter fun row =>
    if key = [] then row.id ∉ old.map (·.id)
    else keysOf key row ∉ old.map (keysOf key) ∧ keysOf key row ∉ sent.map fun new => key.map new.cell)
    ++ sent

/-- A row of the snapshot that the transaction took or put another in the place of. -/
def Hidden (key : List String) (c : Changes) (row : Row) : Prop :=
  row.id ∈ c.old.map (·.id) ∨ key ≠ [] ∧ keysOf key row ∈ (c.old ++ c.new).map (keysOf key)

instance (key : List String) (c : Changes) : DecidablePred (Hidden key c) := fun _ =>
  inferInstanceAs (Decidable (_ ∨ _))

/-- A snapshot of a table's rows. -/
structure Snapshot (key : List String) (base : List Row) : Prop where
  versions : ∀ row ∈ base, row.version.isSome
  ids : (base.map (·.id)).Nodup
  positive : ∀ row ∈ base, 0 ≤ row.id
  keys : key ≠ [] → (base.map (keysOf key)).Nodup
  plain : ∀ row ∈ base, Plain (keysOf key row)

/-- What holds of a table's changes over its snapshot, where `rows` is what its statements make of it. -/
structure Holds (key : List String) (base rows : List Row) (c : Changes) (next : Int) : Prop where
  old : ∀ row ∈ c.old, row ∈ base
  ids : (c.new.map (·.id)).Nodup
  temporary : ∀ row ∈ c.new, row.id < 0 → next < row.id
  carried : ∀ row ∈ c.new, 0 ≤ row.id → row.id ∈ c.old.map (·.id)
  own : ∀ row ∈ c.new, row.version = none
  keys : key ≠ [] → (c.new.map (keysOf key)).Nodup
  plain : ∀ row ∈ c.new, Plain (keysOf key row)
  shown : rows = (base.filter fun row => ¬ Hidden key c row) ++ c.new

/-- What holds of a keyed table's index of its kept rows. -/
structure Indexed (key : List String) (c : Changes) (by' : ByKey) : Prop where
  live : ∀ text, by'.live text = (c.new.map (keyText key)).count text
  gone : ∀ text, text ∈ by'.gone ↔ text ∈ c.old.map (keyText key)

section overlaid

variable {key : List String} {base rows : List Row} {c : Changes} {by' : ByKey} {next : Int}

theorem of_indexed (key : List String) (c : Changes) : Indexed key c (.of key c) := by
  refine ⟨?_, fun _ => Iff.rfl⟩
  intro text
  rw [ByKey.of, added_live]
  exact Nat.zero_add _

theorem keyText_inj {row row' : Row} (plain : Plain (keysOf key row))
    (plain' : Plain (keysOf key row')) :
    keyText key row = keyText key row' ↔ keysOf key row = keysOf key row' := by
  refine ⟨joined_inj plain plain' ?_, fun same => congrArg joined same⟩
  rw [keysOf, keysOf, List.length_map, List.length_map]

/-- A row's key is among those of other rows exactly where its text is among theirs. -/
theorem keyText_mem {row : Row} {others : List Row} (plain : Plain (keysOf key row))
    (plains : ∀ other ∈ others, Plain (keysOf key other)) :
    keyText key row ∈ others.map (keyText key) ↔ keysOf key row ∈ others.map (keysOf key) := by
  rw [List.mem_map, List.mem_map]
  constructor
  · rintro ⟨other, inside, same⟩
    exact ⟨other, inside, (keyText_inj (plains other inside) plain).mp same⟩
  · rintro ⟨other, inside, same⟩
    exact ⟨other, inside, (keyText_inj (plains other inside) plain).mpr same⟩

theorem overlaid_eq {t : Txn} {table : String} (snapshot : Snapshot key base)
    (holds : Holds key base rows (t.tables table) next)
    (indexed : key ≠ [] → Indexed key (t.tables table) (t.byKey table)) :
    t.overlaid table key base = rows := by
  have ids : ∀ row ∈ base, row.id ∈ ((((t.tables table).old ++ (t.tables table).new).map
      (·.id)).filter (0 ≤ ·)) ↔ row.id ∈ (t.tables table).old.map (·.id) := by
    intro row inside
    rw [List.mem_filter, List.map_append, List.mem_append]
    constructor
    · rintro ⟨old | new, positive⟩
      · exact old
      · obtain ⟨own, found, same⟩ := List.mem_map.mp new
        rw [← same]
        exact holds.carried own found (by rw [same]; exact snapshot.positive row inside)
    · intro old
      exact ⟨.inl old, decide_eq_true (snapshot.positive row inside)⟩
  rw [holds.shown]
  unfold Txn.overlaid
  simp only
  congr 1
  by_cases keyed : key = []
  · rw [if_pos (List.isEmpty_iff.mpr keyed)]
    apply List.filter_congr
    intro row inside
    rw [decide_eq_decide, ids row inside, Hidden, not_or, not_and]
    exact ⟨fun kept => ⟨kept, fun some_ => absurd keyed some_⟩, fun kept => kept.1⟩
  · rw [if_neg (fun empty => keyed (List.isEmpty_iff.mp empty)), List.filter_filter]
    apply List.filter_congr
    intro row inside
    have plain := snapshot.plain row inside
    have live : (t.byKey table).live (keyText key row) = 0 ↔
        keysOf key row ∉ (t.tables table).new.map (keysOf key) := by
      rw [(indexed keyed).live, List.count_eq_zero, keyText_mem plain holds.plain]
    have gone : keyText key row ∉ (t.byKey table).gone ↔
        keysOf key row ∉ (t.tables table).old.map (keysOf key) := by
      rw [(indexed keyed).gone, keyText_mem plain fun other found =>
        snapshot.plain other (holds.old other found)]
    rw [← Bool.decide_and, decide_eq_decide, live, gone, ids row inside, Hidden, List.map_append,
      List.mem_append, not_or, not_and, not_or]
    constructor
    · rintro ⟨⟨new, old⟩, id⟩
      exact ⟨id, fun _ => ⟨old, new⟩⟩
    · rintro ⟨id, both⟩
      exact ⟨⟨(both keyed).2, (both keyed).1⟩, id⟩

theorem Snapshot.of_id {row row' : Row} (snapshot : Snapshot key base) (inside : row ∈ base)
    (inside' : row' ∈ base) (same : row.id = row'.id) : row = row' :=
  List.inj_on_of_nodup_map snapshot.ids inside inside' same

theorem Snapshot.of_key {row row' : Row} (snapshot : Snapshot key base) (keyed : key ≠ [])
    (inside : row ∈ base) (inside' : row' ∈ base) (same : keysOf key row = keysOf key row') :
    row = row' :=
  List.inj_on_of_nodup_map (snapshot.keys keyed) inside inside' same

/-- What a commit sends gives the table that the transaction reads, but for temporary ids. -/
theorem applied_eq (snapshot : Snapshot key base) (holds : Holds key base rows c next) :
    applied key base c.old (fresh c.new) = fresh rows := by
  have sent : (fresh c.new).map (fun new => key.map new.cell) = c.new.map (keysOf key) := by
    rw [fresh, List.map_map]
    rfl
  rw [holds.shown, applied, sent, fresh, fresh, fresh, List.map_append]
  congr 2
  apply List.filter_congr
  intro row inside
  by_cases keyed : key = []
  · rw [if_pos keyed, decide_eq_decide, Hidden, not_or, not_and]
    exact ⟨fun kept => ⟨kept, fun some_ => absurd keyed some_⟩, fun kept => kept.1⟩
  · rw [if_neg keyed, decide_eq_decide, Hidden, List.map_append, List.mem_append, not_or, not_and,
      not_or]
    constructor
    · intro both
      refine ⟨?_, fun _ => both⟩
      intro found
      obtain ⟨old, inOld, same⟩ := List.mem_map.mp found
      rw [snapshot.of_id inside (holds.old old inOld) same.symm] at both
      exact both.1 (List.mem_map_of_mem inOld)
    · intro both
      exact both.2 keyed

end overlaid

/-- A statement's rows: the old ones are rows it is shown, each once, and a new one that carries an id
carries an old one's. -/
structure Takes (rows old : List Row) (new : List New) : Prop where
  shown : ∀ row ∈ old, row ∈ rows
  once : (old.map (·.id)).Nodup
  carried : ∀ id ∈ new.filterMap (·.given), id ∈ old.map (·.id)
  distinct : (new.filterMap (·.given)).Nodup

/-- On a keyed table: the rows of the transaction's own, once a statement's old ones are out, hold none of
its new rows' keys, which differ; an own row goes without a new one of its key only where the table's row
of the key, if it has one, was taken too; and no key's text holds the separator. -/
structure Free (key : List String) (base : List Row) (c : Changes) (old kept : List Row) : Prop where
  distinct : key ≠ [] → (kept.map (keysOf key)).Nodup
  apart : key ≠ [] → ∀ row ∈ dropRows c.new ((old.filter (·.version.isNone)).map (·.id)),
    keysOf key row ∉ kept.map (keysOf key)
  goes : key ≠ [] → ∀ own ∈ old, own.version = none → keysOf key own ∉ kept.map (keysOf key) →
    ∀ row ∈ base, keysOf key row = keysOf key own → row ∈ c.old ∨ row ∈ old
  plain : ∀ row ∈ kept, Plain (keysOf key row)

section keep

variable {key : List String} {base rows old kept : List Row} {new : List New} {c : Changes}
  {next after : Int}

/-- An old row with a `_version` is the table's. -/
theorem Holds.theirs (holds : Holds key base rows c next) (takes : Takes rows old new) {row : Row}
    (inside : row ∈ old) (version : row.version.isSome) : row ∈ base ∧ ¬ Hidden key c row := by
  have shown := takes.shown row inside
  rw [holds.shown, List.mem_append, List.mem_filter, decide_eq_true_eq] at shown
  rcases shown with table | own
  · exact table
  · rw [holds.own row own] at version
    cases version

/-- An old row without one is the transaction's own. -/
theorem Holds.mine (snapshot : Snapshot key base) (holds : Holds key base rows c next)
    (takes : Takes rows old new) {row : Row} (inside : row ∈ old) (version : row.version = none) :
    row ∈ c.new := by
  have shown := takes.shown row inside
  rw [holds.shown, List.mem_append, List.mem_filter] at shown
  rcases shown with ⟨table, _⟩ | own
  · have some_ := snapshot.versions row table
    rw [version] at some_
    cases some_
  · exact own

/-- An own row that a statement doesn't take has no id of its old rows. -/
theorem Holds.left (snapshot : Snapshot key base) (holds : Holds key base rows c next)
    (takes : Takes rows old new) {row : Row}
    (inside : row ∈ dropRows c.new ((old.filter (·.version.isNone)).map (·.id))) :
    row ∈ c.new ∧ row.id ∉ old.map (·.id) := by
  obtain ⟨inside, apart⟩ := List.mem_filter.mp inside
  rw [decide_eq_true_eq] at apart
  refine ⟨inside, ?_⟩
  intro found
  obtain ⟨other, inOld, same⟩ := List.mem_map.mp found
  cases version : other.version with
  | none =>
    apply apart
    exact List.mem_map.mpr ⟨other, List.mem_filter.mpr ⟨inOld, by rw [version]; rfl⟩, same⟩
  | some v =>
    obtain ⟨table, shown⟩ := holds.theirs takes inOld (by rw [version]; rfl)
    apply shown
    refine .inl ?_
    rw [same]
    exact holds.carried row inside (by rw [← same]; exact snapshot.positive other table)

/-- The table's rows that a statement leaves are those that neither were hidden nor go now. -/
theorem Holds.hidden (snapshot : Snapshot key base) (holds : Holds key base rows c next)
    (takes : Takes rows old new) (free : Free key base c old kept) {row : Row}
    (inside : row ∈ base) :
    Hidden key ⟨dropRows c.new ((old.filter (·.version.isNone)).map (·.id)) ++ kept,
        c.old ++ old.filter (·.version.isSome)⟩ row ↔
      Hidden key c row ∨
        ¬ (row.id ∉ old.map (·.id) ∧ (key = [] ∨ keysOf key row ∉ kept.map (keysOf key))) := by
  constructor
  · rintro (taken | ⟨keyed, found⟩)
    · rw [List.map_append, List.mem_append] at taken
      rcases taken with before | now
      · exact .inl (.inl before)
      · obtain ⟨other, inOld, same⟩ := List.mem_map.mp now
        exact .inr fun both => both.1 (same ▸ List.mem_map_of_mem (List.mem_filter.mp inOld).1)
    · obtain ⟨other, found, same⟩ := List.mem_map.mp found
      rcases List.mem_append.mp found with taken | own
      · rcases List.mem_append.mp taken with before | now
        · exact .inl (.inr ⟨keyed, List.mem_map.mpr ⟨other, List.mem_append_left _ before, same⟩⟩)
        · obtain ⟨inOld, version⟩ := List.mem_filter.mp now
          have equal := snapshot.of_key keyed (holds.theirs takes inOld version).1 inside same
          exact .inr fun both => both.1 (equal ▸ List.mem_map_of_mem inOld)
      · rcases List.mem_append.mp own with left | put
        · have before := (holds.left snapshot takes left).1
          exact .inl (.inr ⟨keyed, List.mem_map.mpr ⟨other, List.mem_append_right _ before, same⟩⟩)
        · refine .inr fun both => ?_
          rcases both.2 with empty | apart
          · exact keyed empty
          · exact apart (List.mem_map.mpr ⟨other, put, same⟩)
  · -- a row that was hidden by an own row of its key stays so by `goes` when that row goes
    have taken : row ∈ c.old ∨ row ∈ old →
        row.id ∈ (c.old ++ old.filter (·.version.isSome)).map (·.id) := by
      rintro (before | now)
      · exact List.mem_map_of_mem (List.mem_append_left _ before)
      · exact List.mem_map_of_mem (List.mem_append_right _
          (List.mem_filter.mpr ⟨now, snapshot.versions row inside⟩))
    rintro ((before | ⟨keyed, found⟩) | goes)
    · rw [Hidden, List.map_append, List.mem_append]
      exact .inl (.inl before)
    · obtain ⟨other, found, same⟩ := List.mem_map.mp found
      rcases List.mem_append.mp found with before | own
      · exact .inr ⟨keyed, List.mem_map.mpr
          ⟨other, List.mem_append_left _ (List.mem_append_left _ before), same⟩⟩
      · by_cases dropped : other.id ∈ (old.filter (·.version.isNone)).map (·.id)
        · obtain ⟨gone, inOld, equal⟩ := List.mem_map.mp dropped
          obtain ⟨inOld, version⟩ := List.mem_filter.mp inOld
          have version : gone.version = none := Option.isNone_iff_eq_none.mp version
          have mine := holds.mine snapshot takes inOld version
          obtain rfl : gone = other := List.inj_on_of_nodup_map holds.ids mine own equal
          by_cases put : keysOf key gone ∈ kept.map (keysOf key)
          · obtain ⟨by', inKept, equal⟩ := List.mem_map.mp put
            exact .inr ⟨keyed, List.mem_map.mpr ⟨by', List.mem_append_right _
              (List.mem_append_right _ inKept), equal.trans same⟩⟩
          · exact .inl (taken (free.goes keyed gone inOld version put row inside same.symm))
        · refine .inr ⟨keyed, List.mem_map.mpr
            ⟨other, List.mem_append_right _ (List.mem_append_left _ ?_), same⟩⟩
          exact List.mem_filter.mpr ⟨own, decide_eq_true dropped⟩
    · rw [not_and_or, not_not, not_or, not_not] at goes
      rcases goes with id | ⟨keyed, put⟩
      · obtain ⟨other, inOld, same⟩ := List.mem_map.mp id
        cases version : other.version with
        | some v =>
          refine .inl (List.mem_map.mpr ⟨other, List.mem_append_right _ ?_, same⟩)
          exact List.mem_filter.mpr ⟨inOld, by rw [version]; rfl⟩
        | none =>
          have own := holds.mine snapshot takes inOld version
          have before := holds.carried other own (by
            rw [show other.id = row.id from same]
            exact snapshot.positive row inside)
          rw [show other.id = row.id from same] at before
          rw [Hidden, List.map_append, List.mem_append]
          exact .inl (.inl before)
      · obtain ⟨by', inKept, equal⟩ := List.mem_map.mp put
        exact .inr ⟨keyed, List.mem_map.mpr ⟨by', List.mem_append_right _
          (List.mem_append_right _ inKept), equal⟩⟩

/-- A statement that is kept is executed. -/
theorem Holds.keep (snapshot : Snapshot key base) (holds : Holds key base rows c next)
    (negative : next < 0) (takes : Takes rows old new) (spec : Stamped next new kept after)
    (free : Free key base c old kept) :
    Holds key base (exec key rows old kept)
      ⟨dropRows c.new ((old.filter (·.version.isNone)).map (·.id)) ++ kept,
        c.old ++ old.filter (·.version.isSome)⟩ after := by
  have sub : (dropRows c.new ((old.filter (·.version.isNone)).map (·.id))).Sublist c.new :=
    List.filter_sublist
  have carried : ∀ id ∈ new.filterMap (·.given), next < id := by
    intro id gives
    obtain ⟨other, inOld, rfl⟩ := List.mem_map.mp (takes.carried id gives)
    cases version : other.version with
    | none =>
      have own := holds.mine snapshot takes inOld version
      by_cases temporary : other.id < 0
      · exact holds.temporary other own temporary
      · omega
    | some v =>
      have table := (holds.theirs takes inOld (by rw [version]; rfl)).1
      have := snapshot.positive other table
      omega
  have gives : ∀ row ∈ kept, row.id ∈ new.filterMap (·.given) ∨ after < row.id ∧ row.id ≤ next := by
    intro row inside
    rcases spec.ids row inside with found | temporary
    · obtain ⟨other, inNew, same⟩ := List.mem_map.mp found
      exact .inl (List.mem_filterMap.mpr ⟨other, inNew, same⟩)
    · exact .inr temporary
  have lower := spec.lower
  refine ⟨?_, ?_, ?_, ?_, ?_, ?_, ?_, ?_⟩
  · intro row inside
    rcases List.mem_append.mp inside with before | now
    · exact holds.old row before
    · obtain ⟨inOld, version⟩ := List.mem_filter.mp now
      exact (holds.theirs takes inOld version).1
  · rw [List.map_append, List.nodup_append]
    refine ⟨holds.ids.sublist (sub.map _), spec.distinct takes.distinct carried, ?_⟩
    intro id left id' put same
    obtain ⟨row, inLeft, rfl⟩ := List.mem_map.mp left
    obtain ⟨row', inKept, rfl⟩ := List.mem_map.mp put
    obtain ⟨own, apart⟩ := holds.left snapshot takes inLeft
    rcases gives row' inKept with given | temporary
    · exact apart (same ▸ takes.carried _ given)
    · have := holds.temporary row own (by omega)
      omega
  · intro row inside temporary
    rcases List.mem_append.mp inside with left | put
    · have := holds.temporary row (sub.subset left) temporary
      omega
    · rcases gives row put with given | between
      · have := carried row.id given
        omega
      · exact between.1
  · intro row inside positive
    rw [List.map_append, List.mem_append]
    rcases List.mem_append.mp inside with left | put
    · exact .inl (holds.carried row (sub.subset left) positive)
    · rcases gives row put with given | between
      · obtain ⟨other, inOld, same⟩ := List.mem_map.mp (takes.carried row.id given)
        cases version : other.version with
        | none =>
          refine .inl (same ▸ holds.carried other (holds.mine snapshot takes inOld version) ?_)
          rw [show other.id = row.id from same]
          exact positive
        | some v =>
          refine .inr (List.mem_map.mpr ⟨other, List.mem_filter.mpr ⟨inOld, ?_⟩, same⟩)
          rw [version]
          rfl
      · omega
  · intro row inside
    rcases List.mem_append.mp inside with left | put
    · exact holds.own row (sub.subset left)
    · exact spec.own row put
  · intro keyed
    rw [List.map_append, List.nodup_append]
    refine ⟨(holds.keys keyed).sublist (sub.map _), free.distinct keyed, ?_⟩
    intro k left k' put same
    obtain ⟨row, inLeft, rfl⟩ := List.mem_map.mp left
    exact free.apart keyed row inLeft (same ▸ put)
  · intro row inside
    rcases List.mem_append.mp inside with left | put
    · exact holds.plain row (sub.subset left)
    · exact free.plain row put
  · rw [exec, holds.shown, List.filter_append, ← List.append_assoc]
    congr 1
    rw [List.filter_filter]
    congr 1
    · apply List.filter_congr
      intro row inside
      rw [← Bool.decide_and, decide_eq_decide, holds.hidden snapshot takes free inside, not_or,
        not_not]
      exact And.comm
    · apply List.filter_congr
      intro row inside
      rw [decide_eq_decide]
      constructor
      · intro both found
        obtain ⟨other, inOwn, same⟩ := List.mem_map.mp found
        exact both.1 (same ▸ List.mem_map_of_mem (List.mem_filter.mp inOwn).1)
      · intro apart
        have left : row ∈ dropRows c.new ((old.filter (·.version.isNone)).map (·.id)) :=
          List.mem_filter.mpr ⟨inside, decide_eq_true apart⟩
        refine ⟨(holds.left snapshot takes left).2, ?_⟩
        by_cases keyed : key = []
        · exact .inl keyed
        · exact .inr (free.apart keyed row left)

/-- The own rows that a statement takes and those it leaves are all there were. -/
theorem Holds.split (snapshot : Snapshot key base) (holds : Holds key base rows c next)
    (takes : Takes rows old new) :
    c.new.Perm (old.filter (·.version.isNone) ++
      dropRows c.new ((old.filter (·.version.isNone)).map (·.id))) := by
  have mine : ∀ row ∈ old.filter (·.version.isNone), row ∈ c.new := by
    intro row inside
    obtain ⟨inOld, version⟩ := List.mem_filter.mp inside
    exact holds.mine snapshot takes inOld (Option.isNone_iff_eq_none.mp version)
  rw [List.perm_ext_iff_of_nodup (List.Nodup.of_map _ holds.ids)]
  · intro row
    rw [List.mem_append]
    constructor
    · intro inside
      by_cases dropped : row.id ∈ (old.filter (·.version.isNone)).map (·.id)
      · obtain ⟨other, inOwn, same⟩ := List.mem_map.mp dropped
        rw [← List.inj_on_of_nodup_map holds.ids (mine other inOwn) inside same]
        exact .inl inOwn
      · exact .inr (List.mem_filter.mpr ⟨inside, decide_eq_true dropped⟩)
    · rintro (own | left)
      · exact mine row own
      · exact (List.mem_filter.mp left).1
  · rw [List.nodup_append]
    refine ⟨(List.Nodup.of_map _ takes.once).filter _, (List.Nodup.of_map _ holds.ids).filter _, ?_⟩
    rintro row own row' left rfl
    exact absurd (List.mem_map_of_mem own) (of_decide_eq_true (List.mem_filter.mp left).2)

theorem Indexed.keep {by' : ByKey} (indexed : Indexed key c by') (snapshot : Snapshot key base)
    (holds : Holds key base rows c next) (takes : Takes rows old new) :
    Indexed key ⟨dropRows c.new ((old.filter (·.version.isNone)).map (·.id)) ++ kept,
        c.old ++ old.filter (·.version.isSome)⟩
      (((by'.taken ((old.filter (·.version.isSome)).map (keyText key))).dropped
        ((old.filter (·.version.isNone)).map (keyText key))).added (kept.map (keyText key))) := by
  refine ⟨?_, ?_⟩
  · intro text
    have split := ((holds.split snapshot takes).map (keyText key)).count_eq text
    rw [List.map_append, List.count_append] at split
    rw [added_live, dropped_live, List.map_append, List.count_append]
    show by'.live text - _ + _ = _
    rw [indexed.live, split]
    omega
  · intro text
    show text ∈ by'.gone ++ (old.filter (·.version.isSome)).map (keyText key) ↔ _
    rw [List.mem_append, indexed.gone, List.map_append, List.mem_append]

end keep

/-- A statement of a transaction, or a word of its savepoints. -/
inductive Op where
  | keep (table : String) (old : List Row) (new : List New) (at' : Nat) (keys : Option (List Key))
  | lock (table : String) (keys : List Key) (at' : Nat)
  | savepoint (name : String)
  | release (name : String)
  | rollbackTo (name : String)

/-- A transaction, and what its kept statements make of each table: now, and as each savepoint was
taken. -/
structure Session where
  txn : Txn
  rows : String → List Row
  saved : List (String → List Row)

/-- A transaction over a snapshot `base` of the tables, whose keys are `keys`. -/
def session (keys : String → List String) (base : String → List Row) : Machine Session Op where
  next s
    | .keep table old new at' locked =>
      let kept := (stamped s.txn.next new).1
      { s with
        txn := s.txn.keep table (keys table) old new at' locked
        rows := Function.update s.rows table (exec (keys table) (s.rows table) old kept) }
    | .lock table locked at' => { s with txn := s.txn.readKeys table locked at' }
    | .savepoint name => { s with txn := s.txn.savepoint name, saved := s.saved ++ [s.rows] }
    | .release name =>
      match s.txn.markOf name with
      | some i => { s with txn := s.txn.releaseSavepoint name, saved := s.saved.take i }
      | none => s
    | .rollbackTo name =>
      match s.txn.markOf name with
      | some i =>
        { txn := s.txn.rollbackTo keys name
          rows := s.saved[i]?.getD s.rows
          saved := s.saved.take (i + 1) }
      | none => s
  Allows s
    | .keep table old new _ _ => Takes (s.txn.overlaid table (keys table) (base table)) old new
    | _ => True

/-- Where the rows shown are those the statements make: on a keyed table, `Free`. -/
def Session.Clear (keys : String → List String) (base : String → List Row) (s : Session) : Op → Prop
  | .keep table old new _ _ =>
    Free (keys table) (base table) (s.txn.tables table) old (stamped s.txn.next new).1
  | _ => True

def Session.start (base : String → List Row) : Session := ⟨.start, base, []⟩

/-- What a transaction reads of a table, what its statements make of it and what its commit would make of
it are one; it sends, of its own rows, those that are there; and no two of them have one id. -/
structure Session.Right (keys : String → List String) (base : String → List Row) (s : Session)
    (table : String) : Prop where
  reads : s.txn.overlaid table (keys table) (base table) = s.rows table
  commits : applied (keys table) (base table) (s.txn.tables table).old
    (fresh (s.txn.tables table).new) = fresh (s.rows table)
  sends : (s.txn.tables table).new = (s.rows table).filter (·.version.isNone)
  ids : ((s.rows table).map (·.id)).Nodup

/-- What holds of a transaction between its statements. -/
structure Session.Sound (keys : String → List String) (base : String → List Row) (s : Session) :
    Prop where
  negative : s.txn.next < 0
  tables : ∀ table, Holds (keys table) (base table) (s.rows table) (s.txn.tables table) s.txn.next
  indexed : ∀ table, keys table ≠ [] →
    Indexed (keys table) (s.txn.tables table) (s.txn.byKey table)
  marks : List.Forall₂ (fun (mark : Mark) (rows : String → List Row) => ∀ table,
    Holds (keys table) (base table) (rows table) (mark.tables table) s.txn.next) s.txn.marks s.saved

section runs

variable {keys : String → List String} {base : String → List Row} {s : Session}

theorem Holds.lower {key : List String} {rows base : List Row} {c : Changes} {next after : Int}
    (holds : Holds key base rows c next) (below : after ≤ next) : Holds key base rows c after :=
  { holds with temporary := fun row inside temporary =>
      Int.lt_of_le_of_lt below (holds.temporary row inside temporary) }

theorem start_sound : (Session.start base).Sound keys base := by
  refine ⟨show (-1 : Int) < 0 by decide, ?_, ?_, .nil⟩
  · intro table
    refine ⟨fun _ inside => absurd inside List.not_mem_nil, List.nodup_nil,
      fun _ inside => absurd inside List.not_mem_nil, fun _ inside => absurd inside List.not_mem_nil,
      fun _ inside => absurd inside List.not_mem_nil, fun _ => List.nodup_nil,
      fun _ inside => absurd inside List.not_mem_nil, ?_⟩
    show base table = _ ++ []
    rw [List.append_nil, eq_comm, List.filter_eq_self]
    intro row _
    rw [decide_eq_true_eq]
    rintro (taken | ⟨_, found⟩)
    · exact absurd taken List.not_mem_nil
    · exact absurd found List.not_mem_nil
  · intro table _
    exact ⟨fun _ => rfl, fun _ => Iff.rfl⟩

theorem Session.Sound.overlaid (sound : s.Sound keys base)
    (snapshots : ∀ table, Snapshot (keys table) (base table)) (table : String) :
    s.txn.overlaid table (keys table) (base table) = s.rows table :=
  overlaid_eq (snapshots table) (sound.tables table) (sound.indexed table)

theorem Session.Sound.keep {table : String} {old : List Row} {new : List New} {at' : Nat}
    {locked : Option (List Key)} (sound : s.Sound keys base)
    (snapshots : ∀ table, Snapshot (keys table) (base table))
    (takes : Takes (s.txn.overlaid table (keys table) (base table)) old new)
    (free : Free (keys table) (base table) (s.txn.tables table) old (stamped s.txn.next new).1) :
    ((session keys base).next s (.keep table old new at' locked)).Sound keys base := by
  rw [sound.overlaid snapshots table] at takes
  have spec := stamped_spec s.txn.next new
  have negative := sound.negative
  have lower := spec.lower
  refine ⟨Int.lt_of_le_of_lt lower negative, ?_, ?_, ?_⟩
  · intro other
    show Holds _ _ (Function.update s.rows table _ other) (Function.update s.txn.tables table _ other)
      (stamped s.txn.next new).2
    by_cases same : other = table
    · subst same
      rw [Function.update_self, Function.update_self]
      exact (sound.tables other).keep (snapshots other) negative takes spec free
    · rw [Function.update_of_ne same, Function.update_of_ne same]
      exact (sound.tables other).lower lower
  · intro other keyed
    show Indexed _ (Function.update s.txn.tables table _ other)
      (Function.update s.txn.byKey table _ other)
    by_cases same : other = table
    · subst same
      rw [Function.update_self, Function.update_self,
        if_neg fun empty => keyed (List.isEmpty_iff.mp empty)]
      exact (sound.indexed other keyed).keep (snapshots other) (sound.tables other) takes
    · rw [Function.update_of_ne same, Function.update_of_ne same]
      exact sound.indexed other keyed
  · exact sound.marks.imp fun mark rows holds table => (holds table).lower lower

/-- The newest savepoint of a name is one of the savepoints. -/
theorem markOf_lt {t : Txn} {name : String} {i : Nat} (found : t.markOf name = some i) :
    i < t.marks.length := by
  obtain ⟨j, at', same⟩ := Option.map_eq_some_iff.mp found
  have inside := (List.findIdx?_eq_some_iff_findIdx_eq.mp at').1
  rw [List.length_reverse] at inside
  omega

theorem Session.Sound.rollbackTo {name : String} (sound : s.Sound keys base) :
    ((session keys base).next s (.rollbackTo name)).Sound keys base := by
  simp only [session]
  cases found : s.txn.markOf name with
  | none => exact sound
  | some i =>
    have inside := markOf_lt found
    have lengths := sound.marks.length_eq
    have inside' : i < s.saved.length := lengths ▸ inside
    have mark := sound.marks.get inside inside'
    simp only [Txn.rollbackTo, found, List.getElem?_eq_getElem inside,
      List.getElem?_eq_getElem inside', Option.getD_some]
    refine ⟨sound.negative, fun table => mark table, ?_, List.forall₂_take (i + 1) sound.marks⟩
    intro table keyed
    simp only
    rw [if_neg fun empty => keyed (List.isEmpty_iff.mp empty)]
    exact of_indexed _ _

theorem Session.Sound.next {op : Op} (sound : s.Sound keys base)
    (snapshots : ∀ table, Snapshot (keys table) (base table))
    (allowed : (session keys base).Allows s op) (clear : s.Clear keys base op) :
    ((session keys base).next s op).Sound keys base := by
  cases op with
  | keep table old new at' locked => exact sound.keep snapshots allowed clear
  | lock table locked at' => exact ⟨sound.negative, sound.tables, sound.indexed, sound.marks⟩
  | savepoint name =>
    exact ⟨sound.negative, sound.tables, sound.indexed,
      List.rel_append sound.marks (.cons sound.tables .nil)⟩
  | release name =>
    simp only [session]
    cases found : s.txn.markOf name with
    | none => exact sound
    | some i =>
      simp only [Txn.releaseSavepoint, found]
      exact ⟨sound.negative, sound.tables, sound.indexed, List.forall₂_take i sound.marks⟩
  | rollbackTo name => exact sound.rollbackTo

theorem Session.Sound.right (sound : s.Sound keys base)
    (snapshots : ∀ table, Snapshot (keys table) (base table)) (table : String) :
    s.Right keys base table := by
  have holds := sound.tables table
  have snapshot := snapshots table
  refine ⟨sound.overlaid snapshots table, applied_eq snapshot holds, ?_, ?_⟩
  · rw [holds.shown, List.filter_append]
    have none_ : ((base table).filter fun row =>
        ¬ Hidden (keys table) (s.txn.tables table) row).filter (·.version.isNone) = [] := by
      rw [List.filter_eq_nil_iff]
      intro row inside version
      have some_ := snapshot.versions row (List.mem_filter.mp inside).1
      rw [Option.isNone_iff_eq_none.mp version] at some_
      cases some_
    rw [none_, List.nil_append, eq_comm, List.filter_eq_self]
    intro row inside
    rw [holds.own row inside]
    rfl
  · rw [holds.shown, List.map_append, List.nodup_append]
    refine ⟨snapshot.ids.sublist (List.filter_sublist.map _), holds.ids, ?_⟩
    intro id table' id' own same
    obtain ⟨row, inBase, rfl⟩ := List.mem_map.mp table'
    obtain ⟨row', inNew, rfl⟩ := List.mem_map.mp own
    obtain ⟨inBase, shown⟩ := List.mem_filter.mp inBase
    have positive := snapshot.positive row inBase
    refine of_decide_eq_true shown (.inl ?_)
    rw [same]
    exact holds.carried row' inNew (by rw [← same]; exact positive)

end runs

/-- In every transaction whose statements put keyed rows where no other row of its own is (`Free`), with
savepoints and rollbacks anywhere between, what it reads of each table is what its kept statements make
of the snapshot one after another, and what its commit sends makes of it too. -/
theorem run_shown (keys : String → List String) (base : String → List Row)
    (snapshots : ∀ table, Snapshot (keys table) (base table)) (ops : List Op)
    (legal : ((session keys base).only (Session.Clear keys base)).Legal (.start base) ops)
    (table : String) : ((session keys base).run (.start base) ops).Right keys base table := by
  have sound := ((session keys base).only (Session.Clear keys base)).run_invariant
    (Session.Sound keys base)
    (fun _ _ sound allowed => sound.next snapshots allowed.1 allowed.2)
    (.start base) ops start_sound legal
  exact sound.right snapshots table

/-- The cells of a row of two columns. -/
def cells (a b : String) (column : String) : String := if column = "a" then a else b

def keyA (_ : String) : List String := ["a"]

/-- A table of one row. -/
def lone (row : Row) (_ : String) : List Row := [row]

def heldRow : Row := ⟨1, some 1, cells "k" "old"⟩

/-- The row is updated, its new version deleted and a new row put under its key; what is inserted after
the savepoint is rolled back. -/
def editedRun : List Op :=
  [.keep "t" [heldRow] [⟨some 1, cells "k" "new"⟩] 5 none,
   .keep "t" [⟨1, none, cells "k" "new"⟩] [] 5 none,
   .keep "t" [] [⟨none, cells "k" "again"⟩] 5 none,
   .savepoint "s",
   .keep "t" [⟨-1, none, cells "k" "again"⟩] [⟨some (-1), cells "k" "last"⟩, ⟨none, cells "l" "x"⟩] 5
     none,
   .rollbackTo "s"]

theorem lone_snapshot {row : Row} (version : row.version.isSome = true) (positive : 0 ≤ row.id)
    (table : String) : Snapshot (keyA table) (lone row table) := by
  have only : ∀ other ∈ lone row table, other = row := fun other inside => List.mem_singleton.mp inside
  refine ⟨?_, List.nodup_singleton _, ?_, fun _ => List.nodup_singleton _, ?_⟩
  · intro other inside
    rw [only other inside]
    exact version
  · intro other inside
    rw [only other inside]
    exact positive
  · intro other _ two
    exact absurd (show 2 ≤ 1 from two) (by decide)

theorem keyA_plain (kept : List Row) : ∀ row ∈ kept, Plain (keysOf ["a"] row) :=
  fun _ _ two => absurd (show 2 ≤ 1 from two) (by decide)

theorem editedRun_right :
    (((session keyA (lone heldRow)).run (.start (lone heldRow)) editedRun).rows "t").map
      (fun row => (row.id, row.cell "b")) = [(-1, "again")] ∧
    ((session keyA (lone heldRow)).run (.start (lone heldRow)) editedRun).Right keyA (lone heldRow)
      "t" :=
  ⟨by decide, run_shown keyA (lone heldRow) (lone_snapshot rfl (by decide)) editedRun
    ⟨⟨⟨fun row inside => List.mem_singleton.mp inside ▸ List.mem_singleton_self _,
        by decide, by decide, by decide⟩,
      ⟨fun _ => by decide, fun _ => by decide,
        fun _ own inside version => (by
          rw [List.mem_singleton.mp inside] at version
          cases version),
        keyA_plain _⟩⟩,
     ⟨⟨fun row inside => List.mem_singleton.mp inside ▸ List.mem_singleton_self _,
        by decide, by decide, by decide⟩,
      ⟨fun _ => by decide, fun _ => by decide, fun _ _ _ _ _ row inside _ => .inl inside,
        keyA_plain _⟩⟩,
     ⟨⟨fun row inside => absurd inside List.not_mem_nil, by decide, by decide, by decide⟩,
      ⟨fun _ => by decide, fun _ => by decide,
        fun _ own inside => absurd inside List.not_mem_nil, keyA_plain _⟩⟩,
     ⟨trivial, trivial⟩,
     ⟨⟨fun row inside => List.mem_singleton.mp inside ▸ List.mem_singleton_self _,
        by decide, by decide, by decide⟩,
      ⟨fun _ => by decide, fun _ => by decide,
        fun _ own inside _ apart => absurd (List.mem_singleton.mp inside ▸ by decide) apart,
        keyA_plain _⟩⟩,
     ⟨trivial, trivial⟩, trivial⟩ "t"⟩

/-- Two new rows under one key. -/
def twiceRun : List Op :=
  [.keep "t" [] [⟨none, cells "n" "1"⟩] 5 none, .keep "t" [] [⟨none, cells "n" "2"⟩] 5 none]

/-- A new row over the table's row of its key, and its delete. -/
def backRun : List Op :=
  [.keep "t" [] [⟨none, cells "k" "new"⟩] 5 none, .keep "t" [⟨-1, none, cells "k" "new"⟩] [] 5 none]

def keyAB (_ : String) : List String := ["a", "b"]

/-- A row whose key's text is that of another key. -/
def splitRow : Row := ⟨1, some 1, cells ("x" ++ keySep ++ "y") "z"⟩

def splitRun : List Op := [.keep "t" [] [⟨none, cells "x" ("y" ++ keySep ++ "z")⟩] 5 none]

/-- A row of the table without a `_version`. -/
def bareRow : Row := ⟨1, none, cells "k" "old"⟩

def bareRun : List Op := [.keep "t" [bareRow] [] 5 none]

/-- Transactions that read rows other than those their statements make: two of one key; the table's row
back under a deleted one's key; another key's row hidden; and a row they deleted. -/
theorem shown_other :
    ((session keyA fun _ => []).Legal (.start fun _ => []) twiceRun ∧
      (((session keyA fun _ => []).run (.start fun _ => []) twiceRun).txn.overlaid "t" ["a"]
        []).length = 2 ∧
      (((session keyA fun _ => []).run (.start fun _ => []) twiceRun).rows "t").length = 1) ∧
    ((session keyA (lone heldRow)).Legal (.start (lone heldRow)) backRun ∧
      (((session keyA (lone heldRow)).run (.start (lone heldRow)) backRun).txn.overlaid "t" ["a"]
        [heldRow]).length = 1 ∧
      (((session keyA (lone heldRow)).run (.start (lone heldRow)) backRun).rows "t").length = 0) ∧
    ((session keyAB (lone splitRow)).Legal (.start (lone splitRow)) splitRun ∧
      (((session keyAB (lone splitRow)).run (.start (lone splitRow)) splitRun).txn.overlaid "t"
        ["a", "b"] [splitRow]).length = 1 ∧
      (((session keyAB (lone splitRow)).run (.start (lone splitRow)) splitRun).rows "t").length = 2) ∧
    ((session keyA (lone bareRow)).Legal (.start (lone bareRow)) bareRun ∧
      (((session keyA (lone bareRow)).run (.start (lone bareRow)) bareRun).txn.overlaid "t" ["a"]
        [bareRow]).length = 1 ∧
      (((session keyA (lone bareRow)).run (.start (lone bareRow)) bareRun).rows "t").length = 0) := by
  have nothing : ∀ (rows : List Row) (new : List New), new.filterMap (·.given) = [] →
      Takes rows [] new := by
    intro rows new none_
    refine ⟨fun _ inside => absurd inside List.not_mem_nil, List.nodup_nil, ?_, ?_⟩
    · rw [none_]
      exact fun _ inside => absurd inside List.not_mem_nil
    · rw [none_]
      exact List.nodup_nil
  refine ⟨⟨⟨nothing _ _ rfl, nothing _ _ rfl, trivial⟩, by decide, by decide⟩,
    ⟨⟨nothing _ _ rfl, ⟨?_, by decide, by decide, by decide⟩, trivial⟩, by decide, by decide⟩,
    ⟨⟨nothing _ _ rfl, trivial⟩, by decide, by decide⟩,
    ⟨⟨⟨?_, by decide, by decide, by decide⟩, trivial⟩, by decide, by decide⟩⟩
  · exact fun row inside => List.mem_singleton.mp inside ▸ List.mem_singleton_self _
  · exact fun row inside => List.mem_singleton.mp inside ▸ List.mem_singleton_self _

end Pondra.Txns
