import Mathlib.Data.List.Perm.Basic
import Pondra.Watermark.Newest

set_option autoImplicit false

namespace Pondra.Watermark

open Machines Dicts Manifests

variable {τ ν : Type}

/-- What the reading of times rests on: text reads back, the time column is one of the table's, its values have
texts, and µs keep their order. -/
structure Lawful (t : Times τ ν) : Prop where
  sound : Sound t.scalars
  typed : t.schema.lookup t.time = some t.type
  written : ∀ s v, t.scalars.parse t.type s = some v → (t.scalars.text v).isSome
  mono : ∀ a b, Least.NotAfter t.scalars.cmp a b → t.us a ≤ t.us b

/-- One newest time is at least another, where there is another. -/
def AtLeast (a b : Option Int) : Prop := ∀ y, b = some y → ∃ x, a = some x ∧ y ≤ x

theorem AtLeast.refl (a : Option Int) : AtLeast a a := fun y is => ⟨y, is, Int.le_refl y⟩

theorem AtLeast.trans {a b c : Option Int} (first : AtLeast a b) (then_ : AtLeast b c) : AtLeast a c := by
  intro z is
  obtain ⟨y, isB, le⟩ := then_ z is
  obtain ⟨x, isA, le'⟩ := first y isB
  exact ⟨x, isA, Int.le_trans le le'⟩

variable {t : Times τ ν}

section bumps

variable {parts : Parts}

@[simp] theorem newest_bump (v : Int) : newest (bump parts v) = some ((newest parts).elim v (max · v)) := by
  rw [newest, bump, AList.lookup_insert]

theorem bump_atLeast (v : Int) : AtLeast (newest (bump parts v)) (newest parts) := by
  intro y is
  rw [newest_bump, is]
  exact ⟨max y v, rfl, Int.le_max_left y v⟩

theorem bump_value (v : Int) : ∃ x, newest (bump parts v) = some x ∧ v ≤ x := by
  rw [newest_bump]
  cases newest parts with
  | none => exact ⟨v, rfl, Int.le_refl v⟩
  | some y => exact ⟨max y v, rfl, Int.le_max_right y v⟩

theorem bump_either {v x : Int} (is : newest (bump parts v) = some x) : newest parts = some x ∨ x = v := by
  rw [newest_bump] at is
  have is := Option.some.inj is
  cases held : newest parts with
  | none =>
    rw [held] at is
    exact .inr is.symm
  | some y =>
    rw [held] at is
    rcases Int.le_total y v with le | le
    · exact .inr (is.symm.trans (Int.max_eq_right le))
    · exact .inl (congrArg some ((Int.max_eq_left le).symm.trans is))

/-- Rows read into what was known: no less than it, no less than any of them, and one of these. -/
theorem bumps_spec (rows : List (Option ν)) (parts : Parts) :
    AtLeast (newest (bumps t parts rows)) (newest parts) ∧
      (∀ v, some v ∈ rows → ∃ x, newest (bumps t parts rows) = some x ∧ t.us v ≤ x) ∧
      ∀ x, newest (bumps t parts rows) = some x → newest parts = some x ∨ ∃ v, some v ∈ rows ∧ x = t.us v := by
  induction rows generalizing parts with
  | nil => exact ⟨AtLeast.refl _, fun v inside => absurd inside List.not_mem_nil, fun x is => .inl is⟩
  | cons row rest ih =>
    cases row with
    | none =>
      obtain ⟨more, all, one⟩ := ih parts
      refine ⟨more, ?_, ?_⟩
      · intro v inside
        rcases List.mem_cons.mp inside with same | inside
        · cases same
        · exact all v inside
      · intro x is
        rcases one x is with before | ⟨v, inside, same⟩
        · exact .inl before
        · exact .inr ⟨v, List.mem_cons_of_mem _ inside, same⟩
    | some w =>
      obtain ⟨more, all, one⟩ := ih (bump parts (t.us w))
      refine ⟨more.trans (bump_atLeast _), ?_, ?_⟩
      · intro v inside
        rcases List.mem_cons.mp inside with same | inside
        · obtain ⟨x, is, le⟩ := (bump_value (t.us w) : ∃ x, newest (bump parts _) = some x ∧ _)
          obtain ⟨y, isY, le'⟩ := more x is
          rw [Option.some.inj same]
          exact ⟨y, isY, Int.le_trans le le'⟩
        · exact all v inside
      · intro x is
        rcases one x is with before | ⟨v, inside, same⟩
        · rcases bump_either before with known | equal
          · exact .inl known
          · exact .inr ⟨w, List.mem_cons_self, equal⟩
        · exact .inr ⟨v, List.mem_cons_of_mem _ inside, same⟩

end bumps

section entries

variable {e : Entry ν}

/-- An entry whose files' and manifests' ranges are true. -/
structure EntryOk (t : Times τ ν) (e : Entry ν) : Prop where
  files : ∀ f ∈ e.files, Told t f
  manifests : ∀ m ∈ e.manifests, ToldAll t m

/-- A container's ranges and rows: its range of the time column, where it has one, covers its rows' times and ends
at one of them. -/
def PartOk (t : Times τ ν) (stats : Stats) (rows : List (Option ν)) : Prop :=
  ∀ lo hi, rangeIn t.scalars t.type t.time stats = some (lo, hi) →
    (∀ v, some v ∈ rows → t.us v ≤ t.us hi) ∧ ∃ v, some v ∈ rows ∧ t.us hi ≤ t.us v

theorem Told.part (lawful : Lawful t) {f : File ν} (told : Told t f) : PartOk t f.stats f.rows := by
  intro lo hi is
  constructor
  · intro v inside
    obtain ⟨lo', hi', is', le⟩ := told.covers v inside
    rw [is] at is'
    rw [(Prod.mk.inj (Option.some.inj is')).2]
    exact lawful.mono v hi' le
  · obtain ⟨v, inside, le⟩ := told.ends lo hi is
    exact ⟨v, inside, lawful.mono hi v le⟩

/-- Ranges over containers are theirs together. -/
theorem union_part (lawful : Lawful t) (pairs : List (Stats × List (Option ν)))
    (each : ∀ p ∈ pairs, PartOk t p.1 p.2) :
    PartOk t (union t.scalars (pairs.map Prod.fst) t.schema) (pairs.flatMap Prod.snd) := by
  intro lo hi is
  obtain ⟨range, found, low, high⟩ := rangeIn_some.mp is
  have some_ : pairs.map Prod.fst ≠ [] := by
    intro none
    rw [none] at found
    cases found
  rw [union_lookup some_, lawful.typed, Option.bind_some] at found
  obtain ⟨lo', hi', low', high', all⟩ := spanning_spec lawful.sound found
  obtain ⟨part, inPairs, _, last, is', ends⟩ := spanning_ends lawful.sound found
  have same : hi' = hi := Option.some.inj (high'.symm.trans high)
  have same' : last = hi := Option.some.inj (ends.symm.trans high)
  constructor
  · intro v inside
    obtain ⟨p, held, inside⟩ := List.mem_flatMap.mp inside
    obtain ⟨lo₁, hi₁, is₁, _, le⟩ := all p.1 (List.mem_map_of_mem held)
    have here := (each p held lo₁ hi₁ is₁).1 v inside
    have above := lawful.mono hi₁ hi' le
    rw [same] at above
    exact Int.le_trans here above
  · obtain ⟨p, held, rfl⟩ := List.mem_map.mp inPairs
    obtain ⟨v, inside, le⟩ := (each p held _ last is').2
    rw [same'] at le
    exact ⟨v, List.mem_flatMap.mpr ⟨p, held, inside⟩, le⟩

theorem ToldAll.part (lawful : Lawful t) {m : SealedFiles ν} (told : ToldAll t m) :
    PartOk t m.stats (m.files.flatMap File.rows) := by
  have whole := union_part lawful (m.files.map fun f => (f.stats, f.rows)) (by
    intro p inside
    obtain ⟨f, held, rfl⟩ := List.mem_map.mp inside
    exact (told.1 f held).part lawful)
  rw [List.map_map, List.flatMap_map] at whole
  rw [told.2]
  exact whole

/-- The ranges of a table's whole contents cover its rows' times and end at one of them. -/
theorem EntryOk.part (lawful : Lawful t) (ok : EntryOk t e) :
    PartOk t (union t.scalars e.parts t.schema) e.rows := by
  have whole := union_part lawful
    (e.manifests.map (fun m => (m.stats, m.files.flatMap File.rows)) ++ e.files.map fun f => (f.stats, f.rows)) (by
      intro p inside
      rcases List.mem_append.mp inside with sealed | own
      · obtain ⟨m, held, rfl⟩ := List.mem_map.mp sealed
        exact (ok.manifests m held).part lawful
      · obtain ⟨f, held, rfl⟩ := List.mem_map.mp own
        exact (ok.files f held).part lawful)
  rw [List.map_append, List.map_map, List.map_map, List.flatMap_append, List.flatMap_map,
    List.flatMap_map] at whole
  exact whole

/-- A table whose containers each have a range has one, unless it has no files. -/
theorem ranged_some (lawful : Lawful t) (each : ∀ part ∈ e.parts, (rangeIn t.scalars t.type t.time part).isSome)
    (none_ : (union t.scalars e.parts t.schema).lookup t.time = none) : e.rows = [] := by
  by_cases empty : e.parts = []
  · rw [Entry.parts, List.append_eq_nil_iff, List.map_eq_nil_iff, List.map_eq_nil_iff] at empty
    rw [Entry.rows, empty.1, empty.2]
    rfl
  · have spans := spanning_some lawful.written empty each
    rw [union_lookup empty, lawful.typed, Option.bind_some] at none_
    rw [none_] at spans
    cases spans

end entries

/-! ### What a call finds -/

/-- `parts` is the newest time of the rows committed up to `seen`: no less than any of them, and one of these up
to `bound`. -/
structure Reach (t : Times τ ν) (committed : List (Nat × Option ν)) (seen bound : Nat) (parts : Parts) : Prop where
  covers : ∀ n v, (n, some v) ∈ committed → n ≤ seen → ∃ x, newest parts = some x ∧ t.us v ≤ x
  ends : ∀ x, newest parts = some x → ∃ n v, (n, some v) ∈ committed ∧ n ≤ bound ∧ x ≤ t.us v

/-- More was read: no less is known. -/
theorem Reach.atLeast {committed : List (Nat × Option ν)} {seen bound more bound' : Nat} {parts parts' : Parts}
    (reach : Reach t committed seen bound parts) (further : Reach t committed more bound' parts')
    (le : bound ≤ more) : AtLeast (newest parts') (newest parts) := by
  intro y is
  obtain ⟨n, v, inside, before, ends⟩ := reach.ends y is
  obtain ⟨x, isX, above⟩ := further.covers n v inside (Nat.le_trans before le)
  exact ⟨x, isX, Int.le_trans ends above⟩

/-- Rows committed later than `seen` change nothing of it. -/
theorem Reach.later {committed new : List (Nat × Option ν)} {seen bound : Nat} {parts : Parts}
    (reach : Reach t committed seen bound parts) (after : ∀ r ∈ new, seen < r.1) :
    Reach t (committed ++ new) seen bound parts where
  covers n v inside le := by
    rcases List.mem_append.mp inside with was | new
    · exact reach.covers n v was le
    · exact absurd (after _ new) (Nat.not_lt.mpr le)
  ends x is := by
    obtain ⟨n, v, inside, before, ends⟩ := reach.ends x is
    exact ⟨n, v, List.mem_append_left _ inside, before, ends⟩

/-- The files' ranges folded into what was known: all rows up to where the files reach. -/
theorem fold_reach (lawful : Lawful t) {committed : List (Nat × Option ν)} {e : Entry ν} {began seen : Nat}
    {parts : Parts} {found : Nat × Parts} (ok : EntryOk t e)
    (there : ∀ r ∈ committed, r.1 ≤ e.tiered → r.2 ∈ e.rows)
    (from_ : ∀ row ∈ e.rows, ∃ n ≤ began, (n, row) ∈ committed) (known : Reach t committed seen seen parts)
    (ranged : seen < e.tiered → (∀ part ∈ e.parts, (rangeIn t.scalars t.type t.time part).isSome) ∨
      ∀ v, some v ∈ e.rows → ∃ y, newest parts = some y ∧ t.us v ≤ y)
    (is : fold t e seen parts = some found) :
    found.1 = max seen e.tiered ∧ Reach t committed found.1 (max seen began) found.2 := by
  rw [fold] at is
  by_cases behind : seen < e.tiered
  · rw [if_pos behind] at is
    have top : e.tiered = max seen e.tiered := (Nat.max_eq_right (Nat.le_of_lt behind)).symm
    cases range : (union t.scalars e.parts t.schema).lookup t.time with
    | none =>
      rw [range] at is
      rw [← Option.some.inj is]
      refine ⟨top, ?_, ?_⟩
      · intro n v inside le
        rcases ranged behind with each | newer
        · have empty := ranged_some lawful each range
          have held := there (n, some v) inside le
          rw [empty] at held
          cases held
        · exact newer v (there (n, some v) inside le)
      · intro x isX
        obtain ⟨n, v, inside, before, ends⟩ := known.ends x isX
        exact ⟨n, v, inside, Nat.le_trans before (Nat.le_max_left _ _), ends⟩
    | some r =>
      rw [range] at is
      obtain ⟨hi, high, found_eq⟩ := Option.map_eq_some_iff.mp is
      rw [← found_eq]
      have some_ : e.parts ≠ [] := by
        intro none
        rw [none] at range
        cases range
      have spans := range
      rw [union_lookup some_, lawful.typed, Option.bind_some] at spans
      obtain ⟨lo, _, low, _, _⟩ := spanning_spec lawful.sound spans
      obtain ⟨covers, w, inRows, ends⟩ := ok.part lawful lo hi (rangeIn_some.mpr ⟨r, range, low, high⟩)
      refine ⟨top, ?_, ?_⟩
      · intro n v inside le
        obtain ⟨x, isX, above⟩ := (bump_value (t.us hi) : ∃ x, newest (bump parts _) = some x ∧ _)
        exact ⟨x, isX, Int.le_trans (covers v (there (n, some v) inside le)) above⟩
      · intro x isX
        rcases bump_either isX with before | equal
        · obtain ⟨n, v, inside, le, above⟩ := known.ends x before
          exact ⟨n, v, inside, Nat.le_trans le (Nat.le_max_left _ _), above⟩
        · obtain ⟨n, le, inside⟩ := from_ (some w) inRows
          exact ⟨n, w, inside, Nat.le_trans le (Nat.le_max_right _ _), by rw [equal]; exact ends⟩
  · rw [if_neg behind] at is
    rw [← Option.some.inj is]
    refine ⟨(Nat.max_eq_left (Nat.not_lt.mp behind)).symm, known.covers, ?_⟩
    intro x isX
    obtain ⟨n, v, inside, before, ends⟩ := known.ends x isX
    exact ⟨n, v, inside, Nat.le_trans before (Nat.le_max_left _ _), ends⟩

/-- The log's rows after them read too: all rows up to `upto`. -/
theorem look_reach (lawful : Lawful t) {committed : List (Nat × Option ν)} {log : List (Segment ν)} {e : Entry ν}
    {began upto seen gone : Nat} {parts : Parts} {found : Nat × Parts} (ok : EntryOk t e)
    (there : ∀ r ∈ committed, r.1 ≤ e.tiered → r.2 ∈ e.rows)
    (from_ : ∀ row ∈ e.rows, ∃ n ≤ began, (n, row) ∈ committed) (known : Reach t committed seen seen parts)
    (ranged : seen < e.tiered → (∀ part ∈ e.parts, (rangeIn t.scalars t.type t.time part).isSome) ∨
      ∀ v, some v ∈ e.rows → ∃ y, newest parts = some y ∧ t.us v ≤ y)
    (logged : ∀ seg ∈ log, ∀ row ∈ seg.logged ++ seg.filed, (seg.n, row) ∈ committed)
    (here : ∀ r ∈ committed, r.1 ≤ gone ∨ ∃ seg ∈ log, seg.n = r.1 ∧ r.2 ∈ seg.logged ++ seg.filed)
    (kept : gone ≤ e.tiered) (before : e.tiered ≤ began) (after : began ≤ upto)
    (is : look t log e upto seen parts = some found) :
    upto ≤ found.1 ∧ found.1 ≤ max seen upto ∧ Reach t committed found.1 found.1 found.2 := by
  obtain ⟨folded, isFold, found_eq⟩ := Option.map_eq_some_iff.mp is
  obtain ⟨top, reach⟩ := fold_reach lawful ok there from_ known ranged isFold
  rw [← found_eq]
  by_cases less : folded.1 < upto
  · rw [if_pos less]
    obtain ⟨more, all, one⟩ := bumps_spec (t := t) (tail log folded.1 upto) folded.2
    refine ⟨Nat.le_refl _, Nat.le_max_right _ _, ?_, ?_⟩
    · intro n v inside le
      by_cases old : n ≤ folded.1
      · obtain ⟨x, isX, above⟩ := reach.covers n v inside old
        obtain ⟨y, isY, above'⟩ := more x isX
        exact ⟨y, isY, Int.le_trans above above'⟩
      · apply all
        rcases here (n, some v) inside with lost | ⟨seg, held, number, row⟩
        · have lost : n ≤ gone := lost
          omega
        · have number : seg.n = n := number
          refine List.mem_flatMap.mpr ⟨seg, List.mem_filter.mpr ⟨held, decide_eq_true ?_⟩, row⟩
          omega
    · intro x isX
      rcases one x isX with known' | ⟨v, inTail, same⟩
      · obtain ⟨n, v, inside, le, above⟩ := reach.ends x known'
        exact ⟨n, v, inside, by omega, above⟩
      · obtain ⟨seg, held, row⟩ := List.mem_flatMap.mp inTail
        obtain ⟨held, between⟩ := List.mem_filter.mp held
        have between := of_decide_eq_true between
        exact ⟨seg.n, v, logged seg held _ row, between.2, by rw [same]⟩
  · rw [if_neg less]
    refine ⟨Nat.not_lt.mp less, by omega, reach.covers, ?_⟩
    intro x isX
    obtain ⟨n, v, inside, le, above⟩ := reach.ends x isX
    exact ⟨n, v, inside, by omega, above⟩

end Pondra.Watermark
