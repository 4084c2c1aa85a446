import Pondra.Base.Dict
import Pondra.Base.Machine

set_option autoImplicit false

namespace Pondra.Columns

open Dicts

/-- A column that is an identity: ALWAYS or not, its options, and its sequence. -/
structure Identity where
  always : Bool
  declared : List String
  sequence : String

/-- An enum column's labels, and the type it is of. -/
structure Enum where
  of : Option String
  labels : List String

/-- What a column means, by key, as JSON. -/
abbrev About := Dict String String

/-- One column of a table: its id, the name SQL knows it by, the name its files and the log hold it
under when it was renamed, and every fact about it. -/
structure Col where
  id : Nat
  name : String
  stored : Option String
  dtype : String
  sqlType : Option String
  dropped : Bool
  notNull : Bool
  default : Option String
  identity : Option Identity
  held : Option String
  labels : Option Enum
  about : Option About

namespace Col

/-- The name its files and the log hold it under. -/
def storedName (c : Col) : String := c.stored.getD c.name

end Col

/-- A table's columns: every column, dropped ones too, in field-id order, and SQL's order of them by id
when it isn't the stored one. -/
@[ext] structure Stored where
  columns : List Col
  order : List Nat

/-! ### Names -/

/-- A stored name for a new column: its name, then `~2`, `~3`, … after it. -/
def candidate (name : String) (i : Nat) : String :=
  if i = 1 then name else name ++ "~" ++ Nat.repr i

/-- The first that no column is stored under. -/
def freeName (name : String) (taken : List String) : String :=
  (((List.range' 1 (taken.length + 1)).map (candidate name)).find? (· ∉ taken)).getD name

theorem candidate_inj (name : String) {i j : Nat} (same : candidate name i = candidate name j) :
    i = j := by
  have longer : ∀ k, name ++ "~" ++ Nat.repr k ≠ name := fun k eq => by
    have long := congrArg String.length eq
    rw [String.length_append, String.length_append] at long
    have : "~".length = 1 := rfl
    omega
  unfold candidate at same
  split at same
  · split at same
    · omega
    · exact absurd same.symm (longer j)
  · split at same
    · exact absurd same (longer i)
    · have digits := congrArg String.toList ((String.append_right_inj _).mp same)
      rw [Nat.toList_repr, Nat.toList_repr] at digits
      rw [← Nat.ofDigitChars_toDigits (b := 10) (n := i) (by decide) (by decide), digits,
        Nat.ofDigitChars_toDigits (by decide) (by decide)]

/-- Among one more than there are names, one is free. -/
theorem freeName_free (name : String) (taken : List String) : freeName name taken ∉ taken := by
  unfold freeName
  cases found : ((List.range' 1 (taken.length + 1)).map (candidate name)).find? (· ∉ taken) with
  | some s =>
    have free := List.find?_some found
    exact of_decide_eq_true free
  | none =>
    have all : (List.range' 1 (taken.length + 1)).map (candidate name) ⊆ taken := fun s inside => by
      have not := List.find?_eq_none.mp found s inside
      simpa using not
    have distinct : ((List.range' 1 (taken.length + 1)).map (candidate name)).Nodup := by
      refine (List.nodup_map_iff_inj_on List.nodup_range').mpr fun i _ j _ same => ?_
      exact candidate_inj name same
    have short := (List.subperm_of_subset distinct all).length_le
    rw [List.length_map, List.length_range'] at short
    omega

/-! ### The edits to a table's columns, on the list -/

/-- The first that a test takes, changed. -/
def modifyFirst {α : Type} (test : α → Bool) (change : α → α) : List α → List α
  | [] => []
  | x :: rest => if test x then change x :: rest else x :: modifyFirst test change rest

namespace Stored

variable (l : Stored)

/-- The place of the column whose id is `id`: `id - 1`, else found by its id. -/
def place (id : Nat) : Option Nat :=
  if id = 0 then none
  else
    match l.columns[id - 1]? with
    | some c => if c.id = id then some (id - 1) else l.columns.findIdx? (·.id = id)
    | none => l.columns.findIdx? (·.id = id)

/-- The id a new column takes: one past the highest. -/
def nextId : Nat := (l.columns.map (·.id)).foldr max 0 + 1

/-- The column stored as `stored` (a dropped one too). -/
def col (stored : String) : Option Col := l.columns.find? (·.storedName = stored)

/-- The column stored as `stored`, changed. -/
def at' (stored : String) (change : Col → Col) : Stored :=
  { l with columns := modifyFirst (·.storedName = stored) change l.columns }

def addColumn (name dtype : String) (held : Option String) (labels : Option Enum) : Stored :=
  let stored := freeName name (l.columns.map (·.storedName))
  let c : Col := ⟨l.nextId, name, if stored = name then none else some stored, dtype, none, false,
    false, none, none, held, labels, none⟩
  { l with columns := l.columns ++ [c] }

def renameColumn (stored name : String) : Stored :=
  l.at' stored fun c =>
    if name = stored then { c with name := stored, stored := none }
    else { c with name := name, stored := some stored }

def dropColumn (stored : String) : Stored :=
  l.at' stored fun c => { c with name := stored, stored := none, dropped := true }

def retypeColumn (stored dtype : String) : Stored := l.at' stored fun c => { c with dtype := dtype }

def holdColumn (stored : String) (held : Option String) : Stored :=
  l.at' stored fun c =>
    let c := if held.isNone then { c with labels := none } else c
    { c with held := held }

/-- The live columns' stored names, but the delete markers', in stored order. -/
def asStored : List String :=
  ((l.columns.filter fun c => !c.dropped && decide (c.storedName ≠ "_deleted"))).map (·.storedName)

def setOrder (stored : List String) : Stored :=
  { l with
    order := if stored.isPrefixOf l.asStored then []
      else (stored.filterMap fun s => l.columns.find? (·.storedName = s)).map (·.id) }

def setDefault (stored : String) (expr : Option String) : Stored :=
  l.at' stored fun c => { c with default := expr }

def setNotNull (stored : String) (notNull : Bool) : Stored :=
  l.at' stored fun c => { c with notNull := notNull }

end Stored

inductive Edit where
  | add (name dtype : String) (held : Option String) (labels : Option Enum)
  | rename (stored name : String)
  | drop (stored : String)
  | retype (stored dtype : String)
  | hold (stored : String) (held : Option String)
  | setOrder (stored : List String)
  | setDefault (stored : String) (expr : Option String)
  | setNotNull (stored : String) (notNull : Bool)

namespace Stored

def edit (l : Stored) : Edit → Stored
  | .add name dtype held labels => l.addColumn name dtype held labels
  | .rename stored name => l.renameColumn stored name
  | .drop stored => l.dropColumn stored
  | .retype stored dtype => l.retypeColumn stored dtype
  | .hold stored held => l.holdColumn stored held
  | .setOrder stored => l.setOrder stored
  | .setDefault stored expr => l.setDefault stored expr
  | .setNotNull stored notNull => l.setNotNull stored notNull

/-- The live columns. -/
def live (l : Stored) : List Col := l.columns.filter fun c => !c.dropped

/-- Each edit names live columns, and a new SQL name is no live column's. -/
def Allows (l : Stored) : Edit → Prop
  | .add name _ _ _ => name ∉ l.live.map (·.name)
  | .rename stored name => stored ∈ l.live.map (·.storedName) ∧ name ∉ l.live.map (·.name)
  | .drop stored | .retype stored _ | .hold stored _ | .setDefault stored _ | .setNotNull stored _ =>
    stored ∈ l.live.map (·.storedName)
  | .setOrder stored => ∀ s ∈ stored, s ∈ l.live.map (·.storedName)

instance (l : Stored) : (e : Edit) → Decidable (l.Allows e)
  | .add name _ _ _ => inferInstanceAs (Decidable (name ∉ l.live.map (·.name)))
  | .rename stored name => inferInstanceAs (Decidable
    (stored ∈ l.live.map (·.storedName) ∧ name ∉ l.live.map (·.name)))
  | .drop stored | .retype stored _ | .hold stored _ | .setDefault stored _ | .setNotNull stored _ =>
    inferInstanceAs (Decidable (stored ∈ l.live.map (·.storedName)))
  | .setOrder stored => inferInstanceAs (Decidable (∀ s ∈ stored, s ∈ l.live.map (·.storedName)))

/-- The list without what the columns mean, which format 5's fields have no place for. -/
def withoutAbout (l : Stored) : Stored :=
  { l with columns := l.columns.map fun c => { c with about := none } }

end Stored

end Pondra.Columns
