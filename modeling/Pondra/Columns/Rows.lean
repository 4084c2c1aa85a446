import Pondra.Columns.Stored

set_option autoImplicit false

namespace Pondra.Columns

section rows

variable {α : Type} (l : Stored)

/-- Has any column been renamed or dropped? -/
def mapped : Bool := l.columns.any (·.stored.isSome) || l.columns.any (·.dropped)

/-- The column SQL calls `name`: its stored name. -/
def storedOf (name : String) : Option String := (l.live.find? (·.name = name)).map (·.storedName)

/-- Up to this many columns, `recordCol` looks through them. -/
def scanned : Nat := 16

/-- The column stored as `stored`: looked through, or found by an index of a wide table's names. -/
def recordCol (stored : String) : Option Col :=
  if l.columns.length ≤ scanned then l.col stored
  else l.columns.reverse.find? (·.storedName = stored)

/-- Rows (columns by their SQL names) as stored. A column under a name SQL no longer knows is left out,
never taken for the column now stored under it. -/
def toStored (b : List (String × α)) : List (String × α) :=
  if !mapped l then b
  else b.filterMap fun f =>
    match storedOf l f.1 with
    | some s => some (s, f.2)
    | none => if (recordCol l f.1).isSome then none else some f

/-- The column stored as `stored`, first looked for after the last one found; and where to look next. -/
def lookupFind (next : Nat) (stored : String) : Option (Col × Nat) :=
  let position := (l.columns.findIdx? (·.storedName = stored)).bind fun i =>
    (l.columns[i]?).map (·, i + 1)
  match l.columns[next]? with
  | some c => if c.storedName = stored then some (c, next + 1) else position
  | none => position

def logicalLoop : Nat → List (String × α) → List (String × α)
  | _, [] => []
  | next, f :: rest =>
    match lookupFind l next f.1 with
    | some (c, after) =>
      if c.dropped then logicalLoop after rest else (c.name, f.2) :: logicalLoop after rest
    | none => f :: logicalLoop next rest

/-- Rows (as stored) under the names SQL knows their columns by, dropped columns left out. -/
def toLogical (b : List (String × α)) : List (String × α) :=
  if !mapped l then b else logicalLoop l 0 b

/-- A field of stored rows as SQL sees it: none of a dropped column. -/
def shownField (f : String × α) : Option (String × α) :=
  match l.col f.1 with
  | some c => if c.dropped then none else some (c.name, f.2)
  | none => some f

variable {l}

theorem find?_storedName (distinct : (l.columns.map (·.storedName)).Nodup) {c : Col}
    (inside : c ∈ l.columns) : l.col c.storedName = some c := by
  cases found : l.col c.storedName with
  | none =>
    have apart := List.find?_eq_none.mp found c inside
    exact absurd (decide_eq_true rfl) apart
  | some other =>
    have eq := List.find?_some found
    rw [List.inj_on_of_nodup_map distinct (List.mem_of_find?_eq_some found) inside
      (of_decide_eq_true eq)]

/-- Every way to look for a stored name finds its column. -/
theorem recordCol_eq (distinct : (l.columns.map (·.storedName)).Nodup) (s : String) :
    recordCol l s = l.col s := by
  unfold recordCol
  split
  · rfl
  · cases found : l.columns.reverse.find? (·.storedName = s) with
    | some c =>
      have eq := List.find?_some found
      have inside := List.mem_reverse.mp (List.mem_of_find?_eq_some found)
      rw [← of_decide_eq_true eq, find?_storedName distinct inside]
    | none =>
      refine (List.find?_eq_none.mpr fun c inside => ?_).symm
      exact List.find?_eq_none.mp found c (List.mem_reverse.mpr inside)

theorem lookupFind_eq (distinct : (l.columns.map (·.storedName)).Nodup) (next : Nat) (s : String) :
    (lookupFind l next s).map (·.1) = l.col s := by
  have position : ((l.columns.findIdx? (·.storedName = s)).bind fun i =>
      (l.columns[i]?).map (·, i + 1)).map (·.1) = l.col s := by
    rw [Stored.col, List.find?_eq_bind_findIdx?_getElem?, Option.map_bind]
    refine congrArg _ (funext fun i => ?_)
    simp only [Function.comp_apply, Option.map_map, Function.comp_def, Option.map_id']
  unfold lookupFind
  simp only
  split
  · rename_i c here
    split
    · rename_i same
      rw [Option.map_some, ← same, find?_storedName distinct (List.mem_of_getElem? here)]
    · exact position
  · exact position

theorem logicalLoop_eq (distinct : (l.columns.map (·.storedName)).Nodup) (next : Nat)
    (b : List (String × α)) : logicalLoop l next b = b.filterMap (shownField l) := by
  induction b generalizing next with
  | nil => rfl
  | cons f rest ih =>
    have found := lookupFind_eq distinct next f.1
    unfold logicalLoop
    cases looked : lookupFind l next f.1 with
    | none =>
      rw [looked, Option.map_none] at found
      rw [List.filterMap_cons_some (by rw [shownField, ← found]), ih]
    | some pair =>
      obtain ⟨c, after⟩ := pair
      rw [looked, Option.map_some] at found
      simp only
      cases gone : c.dropped with
      | true =>
        rw [if_pos rfl, List.filterMap_cons_none (by simp [shownField, ← found, gone]), ih]
      | false =>
        rw [if_neg (by decide),
          List.filterMap_cons_some (b := (c.name, f.2)) (by simp [shownField, ← found, gone]), ih]

theorem unmapped {c : Col} (plain : mapped l = false) (inside : c ∈ l.columns) :
    c.stored = none ∧ c.dropped = false := by
  rw [mapped, Bool.or_eq_false_iff] at plain
  have renamed := List.any_eq_false.mp plain.1 c inside
  have gone := List.any_eq_false.mp plain.2 c inside
  exact ⟨Option.not_isSome_iff_eq_none.mp renamed, Bool.eq_false_iff.mpr gone⟩

/-- Stored rows as SQL sees them: each live column under its name, no dropped one. -/
theorem toLogical_eq (distinct : (l.columns.map (·.storedName)).Nodup) (b : List (String × α)) :
    toLogical l b = b.filterMap (shownField l) := by
  unfold toLogical
  cases plain : mapped l with
  | true => exact logicalLoop_eq distinct 0 b
  | false =>
    refine (List.filterMap_some.symm.trans (List.filterMap_congr fun f _ => ?_))
    unfold shownField
    cases found : l.col f.1 with
    | none => rfl
    | some c =>
      obtain ⟨renamed, gone⟩ := unmapped plain (List.mem_of_find?_eq_some found)
      have eq := List.find?_some found
      have name : c.name = f.1 := by
        have stored := of_decide_eq_true eq
        rw [Col.storedName, renamed] at stored
        exact stored
      simp [gone, name]

/-- Rows under SQL's names come back as they were, without the columns of names SQL no longer knows. -/
theorem toLogical_toStored (distinct : (l.columns.map (·.storedName)).Nodup)
    (b : List (String × α)) : toLogical l (toStored l b) =
      b.filter fun f => (storedOf l f.1).isSome || (l.col f.1).isNone := by
  rw [toLogical_eq distinct, ← List.filterMap_eq_filter]
  unfold toStored
  cases plain : mapped l with
  | true =>
    rw [Bool.not_true, if_neg (by decide), List.filterMap_filterMap]
    refine List.filterMap_congr fun f _ => ?_
    cases known : storedOf l f.1 with
    | some s =>
      obtain ⟨c, found, rfl⟩ := Option.map_eq_some_iff.mp known
      have name := List.find?_some found
      obtain ⟨inside, live⟩ := List.mem_filter.mp (List.mem_of_find?_eq_some found)
      rw [Bool.not_eq_true'] at live
      simp [Option.guard, shownField, find?_storedName distinct inside, live,
        of_decide_eq_true name, known]
    | none =>
      rw [recordCol_eq distinct]
      cases column : l.col f.1 with
      | some c => simp [Option.guard, known, column]
      | none => simp [Option.guard, shownField, column]
  | false =>
    rw [Bool.not_false, if_pos rfl]
    refine List.filterMap_congr fun f _ => ?_
    unfold shownField
    cases column : l.col f.1 with
    | none => simp [Option.guard, column]
    | some c =>
      have inside := List.mem_of_find?_eq_some column
      obtain ⟨renamed, gone⟩ := unmapped plain inside
      have eq := List.find?_some column
      have name : c.name = f.1 := by
        have stored := of_decide_eq_true eq
        rw [Col.storedName, renamed] at stored
        exact stored
      have known : (storedOf l f.1).isSome = true := by
        rw [storedOf, Option.isSome_map, List.find?_isSome]
        exact ⟨c, List.mem_filter.mpr ⟨inside, by rw [gone]; rfl⟩, decide_eq_true name⟩
      simp [Option.guard, gone, name, known]

end rows

end Pondra.Columns
