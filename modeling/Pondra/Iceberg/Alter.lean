import Mathlib.Data.List.Basic

set_option autoImplicit false

/-! ### A table's columns, and the statements that change them -/

namespace Pondra.Iceberg

/-! ### Names -/

def mark : Char := Char.ofNat 34

/-- A name as SQL quotes it: its own marks doubled. -/
def quoted (name : String) : List Char :=
  mark :: (name.toList.flatMap fun c => if c = mark then [mark, mark] else [c]) ++ [mark]

/-- A quoted name's rest, up to the mark that ends it. -/
def unquote : List Char → Option (List Char)
  | [] => none
  | [c] => if c = mark then some [] else none
  | c :: d :: rest =>
    if c = mark then (if d = mark then (unquote rest).map (mark :: ·) else none)
    else (unquote (d :: rest)).map (c :: ·)

def ident : List Char → Option String
  | [] => none
  | c :: rest => if c = mark then (unquote rest).map String.ofList else none

theorem unquote_flatMap (cs : List Char) :
    unquote ((cs.flatMap fun c => if c = mark then [mark, mark] else [c]) ++ [mark]) = some cs := by
  induction cs with
  | nil => rfl
  | cons c rest ih =>
    rw [List.flatMap_cons]
    by_cases same : c = mark
    · rw [if_pos same, List.append_assoc, List.cons_append, List.cons_append, List.nil_append, unquote,
        if_pos rfl, if_pos rfl, ih, same]
      rfl
    · rw [if_neg same, List.append_assoc, List.cons_append, List.nil_append]
      cases is : (rest.flatMap fun c => if c = mark then [mark, mark] else [c]) ++ [mark] with
      | nil => exact absurd (congrArg List.length is) (by simp)
      | cons d more =>
        rw [is] at ih
        rw [unquote, if_neg same, ih]
        rfl

/-- A name of any characters is read back. -/
@[simp] theorem ident_quoted (name : String) : ident (quoted name) = some name := by
  rw [quoted, List.cons_append, ident, if_pos rfl, unquote_flatMap, Option.map_some, String.ofList_toList]

/-! ### Types -/

/-- A field's type, as JSON has it. -/
inductive Ty
  | named (text : String)
  | list (element : String) (elementId : Int)
  | other (type : String)
  deriving DecidableEq

def prim (t : String) : Except String String :=
  if t = "boolean" then .ok "BOOLEAN"
  else if t = "int" then .ok "INT"
  else if t = "long" then .ok "BIGINT"
  else if t = "float" then .ok "REAL"
  else if t = "double" then .ok "DOUBLE"
  else if t = "date" then .ok "DATE"
  else if t = "timestamp" then .ok "TIMESTAMP"
  else if t = "timestamptz" then .ok "TIMESTAMPTZ"
  else if t = "string" then .ok "VARCHAR"
  else if t = "binary" then .ok "BYTEA"
  else if "decimal(".toList.isPrefixOf t.toList then .ok t.toUpper
  else .error ("an Iceberg " ++ t ++ " column: not one Pondra has (boolean, int, long, float, double, " ++
    "date, timestamp, timestamptz, string, binary, decimal, and lists of them)")

def sqlType : Ty → Except String String
  | .named t => prim t
  | .list element _ => (prim element).map (· ++ "[]")
  | .other t => .error ("an Iceberg " ++ t ++ " column: not one Pondra has (lists of plain values are)")

/-! ### Statements -/

/-- `ALTER TABLE` with a column's quoted name; a type is what its SQL was spelled from. -/
inductive Statement
  | drop (column : List Char)
  | rename (column to_ : List Char)
  | retype (column : List Char) (type : Ty)
  | add (column : List Char) (type : Ty)
  | set (properties : List (String × String))
  deriving DecidableEq

/-- A column: its id, which its files know it by, and what SQL knows. -/
structure Col where
  id : Nat
  name : String
  type : Ty
  deriving DecidableEq

/-- The live columns in SQL's order, the id a new one takes, the columns that a key, a partition, a TTL
or an order keeps, whether a view or a task reads the table, and its properties. -/
structure Table where
  cols : List Col
  next : Nat
  stays : List Nat
  readers : Bool
  properties : List (String × String)
  deriving DecidableEq

/-- What else a statement's own rules take: a wider type, a new column, a property. -/
structure Engine where
  widens : Col → Ty → Bool
  takes : String → Ty → Bool
  sets : List (String × String) → Bool

def names : List String := ["_row_id", "_version", "_created_at", "_updated_at"]

def system (c : String) : Bool := names.contains c || c == "_old_version" || c == "_deleted" || c.toList.contains '~'

namespace Table

variable (e : Engine) (t : Table)

def dropColumn (c : Col) : Table := { t with cols := t.cols.filter fun d => d.id ≠ c.id }

def changeColumn (id : Nat) (change : Col → Col) : Table :=
  { t with cols := t.cols.map fun d => if d.id = id then change d else d }

def addColumn (name : String) (type : Ty) : Table :=
  { t with cols := t.cols ++ [⟨t.next, name, type⟩], next := t.next + 1 }

/-- The column a statement names; none where it isn't there, or may not be altered. -/
def altered (column : List Char) : Option Col :=
  (ident column).bind fun name =>
    if system name || t.readers then none else t.cols.find? fun c => c.name = name

/-- One statement; none where it is refused. -/
def alter : Statement → Option Table
  | .drop column => (t.altered column).bind fun c =>
    if c.id ∈ t.stays ∨ t.cols.length ≤ 1 then none else some (t.dropColumn c)
  | .rename column to_ => (t.altered column).bind fun c => (ident to_).bind fun to_ =>
    if to_ = "" ∨ system to_ ∨ t.cols.any (·.name = to_) then none
    else some (t.changeColumn c.id fun d => { d with name := to_ })
  | .retype column type => (t.altered column).bind fun c =>
    if e.widens c type then some (t.changeColumn c.id fun d => { d with type := type }) else none
  | .add column type => (ident column).bind fun name =>
    if t.cols.any (·.name = name) ∨ ¬e.takes name type then none else some (t.addColumn name type)
  | .set properties =>
    if e.sets properties then some { t with properties := t.properties ++ properties } else none

/-- Statements run one by one, each as a change of its own, up to one that is refused. -/
def run (t : Table) : List Statement → Table × Bool
  | [] => (t, true)
  | s :: rest =>
    match t.alter e s with
    | none => (t, false)
    | some t' => run t' rest

theorem run_append (first second : List Statement) : t.run e (first ++ second) =
    if (t.run e first).2 then (t.run e first).1.run e second else t.run e first := by
  induction first generalizing t with
  | nil => rfl
  | cons s rest ih =>
    rw [List.cons_append, run, run]
    cases t.alter e s with
    | none => rfl
    | some t' => exact ih t'

end Table

/-! ### A commit that changes the schema -/

/-- A field of a schema; one without an id has -1. -/
structure Field where
  id : Int
  name : String
  type : Ty
  required : Bool
  deriving DecidableEq

structure Schema where
  schemaId : Int
  fields : List Field
  identifierFieldIds : List Int

/-- A table's metadata, as it is published. -/
structure Meta where
  uuid : String
  currentSchemaId : Int
  lastColumnId : Int
  currentSnapshotId : Option Int
  schemas : List Schema

inductive Update
  | addSchema (schema : Schema)
  | setCurrentSchema
  | setProperties (updates : List (String × String))
  | removeProperties (removals : List String)
  | other (action : String)

inductive Requirement
  | tableUuid (uuid : String)
  | currentSchemaId (id : Int)
  | lastAssignedFieldId (id : Int)
  | refSnapshotId (id : Option Int)
  | other (kind : String)

structure Commit where
  requirements : List Requirement
  updates : List Update

/-- A requirement that the table stands as the writer read it. -/
def Requirement.stands (m : Meta) : Requirement → Bool
  | .tableUuid uuid => uuid = m.uuid
  | .currentSchemaId id => id = m.currentSchemaId
  | .lastAssignedFieldId id => id = m.lastColumnId
  | .refSnapshotId id => id = m.currentSnapshotId
  | .other _ => false

def requirements (m : Meta) (asked : Commit) : Bool := asked.requirements.all (·.stands m)

/-- The schema a commit adds: one, and nothing else but properties. -/
def added : List Update → Option Schema → Except String (Option Schema)
  | [], new => .ok new
  | .addSchema s :: rest, none => added rest (some s)
  | .addSchema _ :: _, some _ =>
    .error "add-schema with a schema change: a commit changes the schema alone"
  | .setCurrentSchema :: rest, new => added rest new
  | .setProperties _ :: rest, new => added rest new
  | .removeProperties _ :: rest, new => added rest new
  | .other action :: _, _ => .error (action ++ " with a schema change: a commit changes the schema alone")

section fields

variable (was : List Field)

/-- The field of the current schema that a field is. -/
def known (f : Field) : Option Field := was.find? fun w => w.id = f.id

def isKept (f : Field) : Bool := was.any fun w => w.id = f.id

/-- A field's statements. -/
def fieldSql (f : Field) : Except String (List Statement) :=
  match known was f with
  | some w =>
    if w.required ≠ f.required then
      .error (f.name ++ ": required or optional, a column stays as it was")
    else
      let renamed := if w.name ≠ f.name then [.rename (quoted w.name) (quoted f.name)] else []
      if w.type ≠ f.type then do
        let _ ← sqlType f.type
        .ok (renamed ++ [.retype (quoted f.name) f.type])
      else .ok renamed
  | none =>
    if f.required then
      .error (f.name ++ ": a column added can't be required (NOT NULL): the rows already there have no value for it")
    else do
      let _ ← sqlType f.type
      .ok [.add (quoted f.name) f.type]

def fieldsSql : List Field → Except String (List Statement)
  | [] => .ok []
  | f :: rest => do
    let first ← fieldSql was f
    let others ← fieldsSql rest
    .ok (first ++ others)

/-- The columns that are gone. -/
def gone (now : List Field) : List Field := was.filter fun w => !now.any fun f => f.id = w.id

/-- The place after the last column that is kept. -/
def lastOld (now : List Field) : Nat := (now.reverse.dropWhile fun f => !isKept was f).length

/-- The columns kept are in the order they were in, and none comes after the last of them. -/
def inOrder (now : List Field) : Bool :=
  let kept := (now.filter (isKept was)).map (·.id)
  let before := (was.map (·.id)).filter fun i => kept.contains i
  kept == before && (now.drop (lastOld was now)).all fun f => !kept.contains f.id

end fields

def Meta.current (m : Meta) : Option Schema := m.schemas.find? fun s => s.schemaId = m.currentSchemaId

/-- `schema_sql`: a commit's change of the schema as statements. -/
def schemaSql (m : Meta) (asked : Commit) : Except String (List Statement) := do
  match ← added asked.updates none with
  | none => .error "a schema change without its schema"
  | some new =>
    match m.current with
    | none => .error "the table's current schema"
    | some old =>
      if old.identifierFieldIds ≠ new.identifierFieldIds then
        .error "a key changed: a Pondra table keeps its key"
      else if inOrder old.fields new.fields then do
        let rest ← fieldsSql old.fields new.fields
        .ok ((gone old.fields new.fields).map (fun w => .drop (quoted w.name)) ++ rest)
      else .error "columns reordered: a Pondra table's columns keep their order, and a new one goes last"

def own (k : String) : Bool := ["schema.name-mapping.default", "written-by"].contains k

/-- `properties_sql`: the properties set, '' taking one out. -/
def propertiesSql (updates : List Update) : List Statement :=
  let set := updates.flatMap fun
    | .setProperties updates => updates.filter fun p => !own p.1
    | .removeProperties removals => (removals.filter fun k => !own k).map fun k => (k, "")
    | _ => []
  if set.isEmpty then [] else [.set set]

def Update.addsSchema : Update → Bool
  | .addSchema _ => true
  | _ => false

/-- `update`, for a commit with no snapshot: the table after it, and whether it was taken. -/
def update (e : Engine) (t : Table) (m : Meta) (asked : Commit) : Table × Bool :=
  if requirements m asked then
    match if asked.updates.any Update.addsSchema then schemaSql m asked else .ok [] with
    | .error _ => (t, false)
    | .ok sql => t.run e (sql ++ propertiesSql asked.updates)
  else (t, false)

end Pondra.Iceberg
