import Mathlib.Data.List.Perm.Basic
import Pondra.Iceberg.Alter

set_option autoImplicit false

/-! ### When a commit gives the schema asked for, or changes nothing -/

namespace Pondra.Iceberg

/-! ### What is taken, of the two schemas -/

section taken

variable (e : Engine) (t : Table) (was : List Field)

/-- A column that may be altered under a name. -/
def altersOk (name : String) : Bool := !system name && !t.readers

/-- A column of so many may go. -/
def dropOk (n : Nat) (w : Field) : Bool :=
  altersOk t w.name && decide (w.id.toNat ∉ t.stays) && decide (1 < n)

/-- A name is free among others. -/
def renameOk (names : List String) (w f : Field) : Bool :=
  altersOk t w.name && decide (f.name ≠ "") && !system f.name && decide (f.name ∉ names)

def retypeOk (w f : Field) : Bool := altersOk t f.name && e.widens ⟨w.id.toNat, f.name, w.type⟩ f.type

def addOk (names : List String) (f : Field) : Bool := decide (f.name ∉ names) && e.takes f.name f.type

/-- What a field asks for is taken, among other columns' names. -/
def fieldOk (names : List String) (f : Field) : Bool :=
  match known was f with
  | some w => (decide (w.name = f.name) || renameOk t names w f) &&
      (decide (w.type = f.type) || retypeOk e t w f)
  | none => addOk e names f

def dropsOk : Nat → List Field → Bool
  | _, [] => true
  | n, w :: rest => dropOk t n w && dropsOk (n - 1) rest

/-- Each name is free of those before it in the new schema, and of the columns kept that come after. -/
def fieldsOk : List String → List Field → List Field → Bool
  | _, _, [] => true
  | earlier, rest, f :: fs => fieldOk e t was (earlier ++ rest.map (·.name)) f &&
      fieldsOk (earlier ++ [f.name]) (if isKept was f then rest.tail else rest) fs

/-- A field that asks for a change. -/
def changes (f : Field) : Bool :=
  match known was f with
  | some w => decide (w.name ≠ f.name) || decide (w.type ≠ f.type)
  | none => true

/-- The first change of a field is taken. -/
def firstOfField (f : Field) : Bool :=
  match known was f with
  | some w => if w.name ≠ f.name then renameOk t (was.map (·.name)) w f else retypeOk e t w f
  | none => addOk e (was.map (·.name)) f

def propertiesOk (updates : List Update) : Bool :=
  (propertiesSql updates).all fun
    | .set properties => e.sets properties
    | _ => true

/-- The first change asked for is taken: a column gone, else a field's, else the properties'. -/
def firstOk (now : List Field) (updates : List Update) : Bool :=
  match gone was now with
  | w :: _ => dropOk t was.length w
  | [] =>
    match now.find? (changes was) with
    | some f => firstOfField e t was f
    | none => propertiesOk e updates

/-- The columns of the current schema that are kept. -/
def kept (now : List Field) : List Field := was.filter fun w => now.any fun f => f.id = w.id

def allOk (now : List Field) (updates : List Update) : Bool :=
  dropsOk t was.length (gone was now) && fieldsOk e t was [] (kept was now) now && propertiesOk e updates

/-- No column kept comes after one added. -/
def addedLast (now : List Field) : Bool := (now.dropWhile (isKept was)).all fun f => !isKept was f

/-- A field that `schema_sql` has statements for. -/
def fieldAnswered (f : Field) : Bool :=
  match known was f with
  | some w => decide (w.required = f.required) && (decide (w.type = f.type) || (sqlType f.type).isOk)
  | none => !f.required && (sqlType f.type).isOk

end taken

def answered (old new : Schema) : Bool :=
  decide (old.identifierFieldIds = new.identifierFieldIds) && inOrder old.fields new.fields &&
    new.fields.all (fieldAnswered old.fields)

/-! ### Statements -/

/-- A field's statements, where it has them. -/
def statements (was : List Field) (f : Field) : List Statement :=
  match known was f with
  | some w => (if w.name ≠ f.name then [.rename (quoted w.name) (quoted f.name)] else []) ++
      (if w.type ≠ f.type then [.retype (quoted f.name) f.type] else [])
  | none => [.add (quoted f.name) f.type]

theorem fieldSql_eq (was : List Field) (f : Field) :
    (fieldAnswered was f = true → fieldSql was f = .ok (statements was f)) ∧
      (fieldAnswered was f = false → ∃ text, fieldSql was f = .error text) := by
  unfold fieldAnswered fieldSql statements
  cases known was f with
  | none =>
    dsimp only
    cases required : f.required with
    | true => exact ⟨fun is => (by cases is), fun _ => ⟨_, if_pos rfl⟩⟩
    | false =>
      rw [if_neg Bool.false_ne_true]
      cases sqlType f.type with
      | error text => exact ⟨fun is => (by cases is), fun _ => ⟨text, rfl⟩⟩
      | ok text => exact ⟨fun _ => rfl, fun is => (by cases is)⟩
  | some w =>
    dsimp only
    by_cases required : w.required = f.required
    · rw [if_neg (fun ne => ne required), decide_eq_true required, Bool.true_and]
      by_cases type : w.type = f.type
      · have same : ¬w.type ≠ f.type := fun ne => ne type
        rw [if_neg same, if_neg same, decide_eq_true type, Bool.true_or, List.append_nil]
        exact ⟨fun _ => rfl, fun is => (by cases is)⟩
      · rw [if_pos type, if_pos type, decide_eq_false type, Bool.false_or]
        cases sqlType f.type with
        | error text => exact ⟨fun is => (by cases is), fun _ => ⟨text, rfl⟩⟩
        | ok text => exact ⟨fun _ => rfl, fun is => (by cases is)⟩
    · rw [if_pos required, decide_eq_false required, Bool.false_and]
      exact ⟨fun is => (by cases is), fun _ => ⟨_, rfl⟩⟩

theorem fieldsSql_eq (was now : List Field) :
    (now.all (fieldAnswered was) = true → fieldsSql was now = .ok (now.flatMap (statements was))) ∧
      (now.all (fieldAnswered was) = false → ∃ text, fieldsSql was now = .error text) := by
  induction now with
  | nil => exact ⟨fun _ => rfl, fun is => (by cases is)⟩
  | cons f rest ih =>
    obtain ⟨taken, refused⟩ := fieldSql_eq was f
    rw [List.all_cons, fieldsSql, List.flatMap_cons]
    cases is : fieldAnswered was f with
    | false =>
      obtain ⟨text, error⟩ := refused is
      rw [error]
      exact ⟨fun is => (by cases is), fun _ => ⟨text, rfl⟩⟩
    | true =>
      rw [taken is, Bool.true_and]
      constructor
      · intro all
        rw [ih.1 all]
        rfl
      · intro not_all
        obtain ⟨text, error⟩ := ih.2 not_all
        rw [error]
        exact ⟨text, rfl⟩

/-- A commit's statements. -/
def commitSql (was now : List Field) : List Statement :=
  (gone was now).map (fun w => .drop (quoted w.name)) ++ now.flatMap (statements was)

theorem schemaSql_eq {m : Meta} {asked : Commit} {old new : Schema} (adds : added asked.updates none = .ok (some new))
    (current : m.current = some old) :
    (answered old new = true → schemaSql m asked = .ok (commitSql old.fields new.fields)) ∧
      (answered old new = false → ∃ text, schemaSql m asked = .error text) := by
  obtain ⟨taken, refused⟩ := fieldsSql_eq old.fields new.fields
  have start : schemaSql m asked =
      if old.identifierFieldIds ≠ new.identifierFieldIds then
        .error "a key changed: a Pondra table keeps its key"
      else if inOrder old.fields new.fields then do
        let rest ← fieldsSql old.fields new.fields
        .ok ((gone old.fields new.fields).map (fun w => .drop (quoted w.name)) ++ rest)
      else .error "columns reordered: a Pondra table's columns keep their order, and a new one goes last" := by
    unfold schemaSql
    rw [adds]
    simp only [bind, Except.bind, current]
  unfold answered
  rw [start]
  by_cases keys : old.identifierFieldIds = new.identifierFieldIds
  · rw [if_neg (fun ne => ne keys), decide_eq_true keys, Bool.true_and]
    cases order : inOrder old.fields new.fields with
    | false => exact ⟨fun is => (by cases is), fun _ => ⟨_, if_neg Bool.false_ne_true⟩⟩
    | true =>
      rw [if_pos rfl, Bool.true_and]
      constructor
      · intro all
        rw [taken all]
        rfl
      · intro not_all
        obtain ⟨text, error⟩ := refused not_all
        rw [error]
        exact ⟨text, rfl⟩
  · rw [if_pos keys, decide_eq_false keys, Bool.false_and]
    exact ⟨fun is => (by cases is), fun _ => ⟨_, rfl⟩⟩

end Pondra.Iceberg
