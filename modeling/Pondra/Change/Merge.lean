import Mathlib.Data.List.Perm.Basic

set_option autoImplicit false

namespace Pondra.Change

/-! ### SQL's values and expressions -/

/-- Are a key column's type and its source's the same, or both text? -/
def sameKeyType (key source : String) : Bool :=
  let text := ["Utf8", "Utf8View", "LargeUtf8"]
  decide (key = source) || (decide (key ∈ text) && decide (source ∈ text))

/-- The values that are not NULL, and what SQL does with them: `=`, the cast a write makes, the
conditions among them. Values of one type, or of text types, compare as the cast makes them. -/
structure Sql (V : Type) where
  typeOf : V → String
  same : V → V → Bool
  cast : String → V → V
  ofBool : Bool → V
  truth : V → Option Bool
  typed : ∀ t v, typeOf (cast t v) = t
  same_self : ∀ v, same v v = true
  same_comm : ∀ v w, same v w = same w v
  compared : ∀ t v w, typeOf w = t → sameKeyType t (typeOf v) = true →
    (same w v = true ↔ w = cast t v)
  truth_ofBool : ∀ b, truth (ofBool b) = some b

/-- A row of the target: its `_row_id` and its columns by SQL's names. -/
structure Target (V : Type) where
  id : Nat
  cols : String → Option V

/-- A row of the source: its columns by the name of the table or subquery and their own. -/
abbrev Source (V : Type) := String → String → Option V

/-- The rows a clause's expressions read. -/
structure Scope (V : Type) where
  target : Option (Target V)
  source : Option (Source V)

inductive Expr (V : Type) where
  | name (q c : String)
  | eq (l r : Expr V)
  | and (l r : Expr V)
  | nested (e : Expr V)
  | other (value : Scope V → Option V)

/-- SQL's AND. -/
def and3 : Option Bool → Option Bool → Option Bool
  | some false, _ => some false
  | _, some false => some false
  | some true, some true => some true
  | _, _ => none

section values

variable {V : Type} (sql : Sql V) (called : String)

/-- The value of `q.c`: the target's under its alias, else the source's. -/
def Scope.value (sc : Scope V) (q c : String) : Option V :=
  if q = called then sc.target.bind fun t => t.cols c else sc.source.bind fun s => s q c

namespace Expr

def eval (sc : Scope V) : Expr V → Option V
  | name q c => sc.value called q c
  | eq l r =>
    match l.eval sc, r.eval sc with
    | some v, some w => some (sql.ofBool (sql.same v w))
    | _, _ => none
  | and l r => (and3 ((l.eval sc).bind sql.truth) ((r.eval sc).bind sql.truth)).map sql.ofBool
  | nested e => e.eval sc
  | other value => value sc

/-- Is a condition true: neither false nor NULL? -/
def holds (e : Expr V) (sc : Scope V) : Bool := ((e.eval sql called sc).bind sql.truth).getD false

/-- The terms an AND joins, through parentheses (any other condition is one term). -/
def conjuncts : Expr V → List (Expr V)
  | and l r => l.conjuncts ++ r.conjuncts
  | nested e => e.conjuncts
  | e => [e]

/-- `q.c` as (q, c); none for anything else. -/
def qualified : Expr V → Option (String × String)
  | name q c => some (q, c)
  | _ => none

end Expr

end values

/-! ### The statement -/

inductive Kind where
  | matched
  | notMatched
  | notMatchedBySource
  deriving DecidableEq

/-- A value written in a clause: an expression, or DEFAULT (none). -/
abbrev Written (V : Type) := Option (Expr V)

inductive Action (V : Type) where
  | update (set : List (String × Written V))
  | delete
  | insert (columns : List String) (values : List (Written V))

structure Clause (V : Type) where
  kind : Kind
  when : Option (Expr V)
  action : Action V

/-- `INSERT … ON CONFLICT`: `width` is its rows' width where it is known, `oneRow` says they are one
row of VALUES. -/
structure Upsert (V : Type) where
  columns : List String
  width : Option Nat
  oneRow : Bool
  on : List String
  update : Option (List (String × Written V) × Option (Expr V))

/-- A MERGE's pieces. `stmt`: it was written as one; `semi`: a DELETE … USING's. -/
structure Merge (V : Type) where
  stmt : Bool
  called : String
  on : Expr V
  clauses : List (Clause V)
  semi : Bool
  upsert : Option (Upsert V)

/-- A table as SQL names it: its columns with their types in stored order, SQL's order of them, its
key, and its columns' defaults. -/
structure Meta (V : Type) where
  columns : List (String × String)
  sqlNames : List String
  key : List String
  default : String → Option (Expr V)
  distinct : (columns.map (·.1)).Nodup
  keyOnce : key.Nodup
  keyed : ∀ k ∈ key, k ∈ columns.map (·.1)
  unmarked : "_deleted" ∉ key

/-- The system columns' names. -/
def systemNames : List String := ["_row_id", "_version", "_created_at", "_updated_at"]

/-- The columns an INSERT without a column list fills: the first `width` of the table's. -/
def implicit (columns : List String) (width : Option Nat) : List String :=
  match width with
  | some n => if n < columns.length then columns.take n else columns
  | none => columns

/-- A new row: with the id it keeps, where it is a new version. -/
structure NewRow (V : Type) where
  id : Option Nat
  cols : String → Option V

section merge

variable {V : Type} (sql : Sql V) (table : Meta V)

/-- An expression as a column's value: DEFAULT is its default, NULL with none. -/
def Meta.value (c : String) (called : String) (sc : Scope V) (written : Written V) : Option V :=
  (written.or (table.default c)).bind fun e => e.eval sql called sc

/-- A value cast to its column's type, as every write casts it. -/
def Meta.cast (c : String) (v : Option V) : Option V :=
  (table.columns.lookup c).bind fun t => v.map (sql.cast t)

/-- The new version of the target's row: `set`, and the row's own values. -/
def updated (called : String) (set : List (String × Written V)) (sc : Scope V) : NewRow V where
  id := sc.target.map (·.id)
  cols c :=
    table.cast sql c <| match set.lookup c with
      | some e => table.value sql c called sc e
      | none => sc.target.bind fun t => t.cols c

/-- The row an INSERT clause adds: `given` columns of `values`, the others their defaults. -/
def inserted (called : String) (given : List String) (values : List (Written V)) (sc : Scope V) :
    NewRow V where
  id := none
  cols c :=
    table.cast sql c (table.value sql c called sc (((given.zip values).lookup c).getD none))

/-- The columns an INSERT clause fills: those it names, else the table's first in SQL's order. -/
def givenColumns (columns : List String) (values : List (Written V)) : List String :=
  if columns.isEmpty then implicit table.sqlNames (some values.length) else columns

variable (m : Merge V)

/-- Does the ON hold for the two rows? -/
def Merge.matching (t : Target V) (s : Source V) : Bool :=
  m.on.holds sql m.called ⟨some t, some s⟩

def Clause.holds (called : String) (c : Clause V) (sc : Scope V) : Bool :=
  match c.when with
  | some e => e.holds sql called sc
  | none => true

/-- A clause's WHERE: its condition, and none of the `earlier` ones' of its kind. -/
def Clause.takes (called : String) (earlier : List (Clause V)) (c : Clause V) (sc : Scope V) : Bool :=
  c.holds sql called sc &&
    (earlier.filter fun e => decide (e.kind = c.kind)).all fun e => !e.holds sql called sc

/-- A clause's FROM: the rows joined (for DELETE … USING half joined), or each side's left alone. -/
def Merge.scopes (target : List (Target V)) (source : List (Source V)) : Kind → List (Scope V)
  | .matched =>
    if m.semi then
      (target.filter fun t => source.any fun s => m.matching sql t s).map fun t => ⟨some t, none⟩
    else
      target.flatMap fun t => (source.filter fun s => m.matching sql t s).map fun s => ⟨some t, some s⟩
  | .notMatched =>
    (source.filter fun s => !target.any fun t => m.matching sql t s).map fun s => ⟨none, some s⟩
  | .notMatchedBySource =>
    (target.filter fun t => !source.any fun s => m.matching sql t s).map fun t => ⟨some t, none⟩

/-- What a clause's query gives: the old versions of the rows it takes, and its new rows. -/
def Clause.query (called : String) (c : Clause V) (rows : List (Scope V)) :
    List (Target V) × List (NewRow V) :=
  match c.action with
  | .update set => (rows.filterMap (·.target), rows.map (updated sql table called set))
  | .delete => (rows.filterMap (·.target), [])
  | .insert columns values =>
    ([], rows.map (inserted sql table called (givenColumns table columns values) values))

/-- What a clause is refused for. -/
def Clause.refused (what : String) (c : Clause V) : Option String :=
  match c.action, c.kind with
  | .insert _ _, .matched | .insert _ _, .notMatchedBySource =>
    some "MERGE: INSERT goes with WHEN NOT MATCHED"
  | .update _, .notMatched | .delete, .notMatched =>
    some "MERGE: WHEN NOT MATCHED takes an INSERT"
  | .update set, _ =>
    match set.find? fun c => decide (c.1 ∈ table.key) with
    | some c => some (what ++ ": UPDATE of the key column " ++ c.1 ++
        " isn't taken here: delete the row, then insert it with its new key")
    | none =>
      if set.all fun c => decide (c.1 ∈ table.columns.map (·.1)) && decide (c.1 ∉ systemNames) then
        none
      else some (what ++ ": UPDATE sets the table's own columns")
  | .delete, _ => none
  | .insert columns values, .notMatched =>
    let given := givenColumns table columns values
    if given.length < values.length then
      some "INSERT has more expressions than target columns"
    else if values.length < given.length then
      some "INSERT has more target columns than expressions"
    else if given.all fun c => decide (c ∈ table.columns.map (·.1)) then none
    else some "MERGE: INSERT names the table's own columns"

/-- The loop over the clauses, `earlier` those before. -/
def Merge.run (what : String) (target : List (Target V)) (source : List (Source V)) :
    List (Clause V) → List (Clause V) → Except String (List (Target V) × List (NewRow V))
  | _, [] => .ok ([], [])
  | earlier, c :: rest =>
    match c.refused table what with
    | some e => .error e
    | none => do
      let rows := (m.scopes sql target source c.kind).filter (c.takes sql m.called earlier)
      let (o, n) := c.query sql table m.called rows
      let (old, new) ← Merge.run what target source (earlier ++ [c]) rest
      .ok (o ++ old, n ++ new)

/-- Does a row of the target match more than one source row? -/
def Merge.twice (target : List (Target V)) (source : List (Source V)) : Bool :=
  let ids := target.flatMap fun t =>
    (source.filter fun s => m.matching sql t s).map fun _ => t.id
  ids.any fun id => decide (1 < ids.count id)

/-- The MERGE's queries, where a target row matching two source rows is refused but for an upsert's
(its keys are unique by now) and a DELETE … USING's. -/
def Merge.queries (upsert : Bool) (target : List (Target V)) (source : List (Source V)) :
    Except String (List (Target V) × List (NewRow V)) :=
  let what := if upsert then "INSERT … ON CONFLICT" else "MERGE"
  if !m.semi && !upsert && m.twice sql target source then
    .error (if m.stmt then "MERGE command cannot affect row a second time: ensure that not more " ++
        "than one source row matches any one target row"
      else what ++ ": a row of the table matches more than one source row")
  else m.run sql table what target source [] m.clauses

/-! ### An upsert as a MERGE -/

variable (u : Upsert V)

def Upsert.onColumns : Except String (List String) :=
  let on := if u.on.isEmpty then table.key else u.on
  if on.isEmpty then .error "INSERT … ON CONFLICT: name the columns a conflict is on"
  else .ok on

/-- The columns the rows give. -/
def Upsert.given : Except String (List String) :=
  let given := if u.columns.isEmpty then implicit table.sqlNames u.width else u.columns
  if u.width.any fun w => decide (w ≠ given.length) then .error "INSERT has another width"
  else do
    let on ← u.onColumns table
    if on.all fun c => decide (c ∈ given) then .ok given
    else .error "INSERT … ON CONFLICT: the rows must give those columns"

/-- A row's values in the conflict's columns; none where one is NULL. -/
def conflictKey (on : List String) (row : String → Option V) : Option (List V) := on.mapM row

/-- Each conflict key's first row, and every row NULL in a conflict column. -/
def firstOfEach [DecidableEq V] (on : List String) (seen : List (List V)) :
    List (String → Option V) → List (String → Option V)
  | [] => []
  | row :: rest =>
    match conflictKey on row with
    | none => row :: firstOfEach on seen rest
    | some key =>
      if key ∈ seen then firstOfEach on seen rest
      else row :: firstOfEach on (key :: seen) rest

/-- The conditions of an ON joined by AND, left to right. -/
def conjunction : List (Expr V) → Expr V
  | [] => .other fun _ => none
  | e :: rest => rest.foldl .and e

/-- The MERGE an upsert is: a row whose conflict columns match one of the table's updates it or is
skipped, the others are inserted. -/
def Upsert.merge (called : String) (on given : List String) : Merge V :=
  let x := "excluded"
  let columns := (table.columns.map (·.1)).filter fun c =>
    decide (c ≠ "_deleted") || decide (c ∈ given)
  let insert : Clause V := ⟨.notMatched, none, .insert columns (columns.map fun c => some (.name x c))⟩
  let matched := match u.update with
    | none => []
    | some (set, when) =>
      let set := if set.isEmpty then
          (given.filter fun c => decide (c ∉ on)).map fun c => (c, some (.name x c))
        else set
      if set.isEmpty then [] else [(⟨.matched, when, .update set⟩ : Clause V)]
  { stmt := false
    called := called
    on := conjunction (on.map fun c => .eq (.name called c) (.name x c))
    clauses := matched ++ [insert]
    semi := false
    upsert := none }

/-- The proposed rows as the MERGE's source. -/
def excluded (rows : List (String → Option V)) : List (Source V) :=
  rows.map fun row q c => if q = "excluded" then row c else none

/-- What a MERGE (or an upsert, of its proposed rows) changes: the old versions of the rows it
replaces, and its new rows. -/
def Merge.merge [DecidableEq V] (target : List (Target V)) (source : List (Source V))
    (proposed : List (String → Option V)) : Except String (List (Target V) × List (NewRow V)) :=
  match m.upsert with
  | none => m.queries sql table false target source
  | some u => do
    let given ← u.given table
    let on ← u.onColumns table
    let twice := !u.oneRow && !decide (proposed.filterMap (conflictKey on)).Nodup
    if twice && u.update.isSome then
      .error "ON CONFLICT DO UPDATE command cannot affect row a second time"
    else if m.called = "excluded" then
      -- planning the clauses' joins refuses two tables of one name
      .error "Schema contains duplicate qualified field name"
    else
      let rows := if twice then firstOfEach on [] proposed else proposed
      (u.merge table m.called on given).queries sql table true target (excluded rows)

/-! ### Does it match on the key alone? -/

/-- The key column a term of the ON compares, and the source's column. -/
def Merge.term (e : Expr V) : Option (String × (String × String)) :=
  match e with
  | .eq left right =>
    [(left, right), (right, left)].findSome? fun sides => do
      let (q, k) ← sides.1.qualified
      let source ← sides.2.qualified
      if q = m.called ∧ k ∈ table.key ∧ source.1 ≠ m.called then some (k, source) else none
  | _ => none

/-- The terms' key columns and source columns; none for another term or a column twice. -/
def Merge.terms : List (Expr V) → Option (List (String × (String × String)))
  | [] => some []
  | e :: rest => do
    let found ← m.term table e
    let others ← Merge.terms rest
    if found.1 ∈ others.map (·.1) then none else some (found :: others)

/-- The source column each key column is matched on, in the key's order. -/
def Merge.keySources : Option (List (String × (String × String))) := do
  let matched ← m.terms table m.on.conjuncts
  table.key.mapM fun k => (matched.lookup k).map fun s => (k, s)

/-- Does this match on the key alone, so that the rows it inserts have keys no row holds? -/
def Merge.onKey : Bool :=
  match m.upsert with
  | some u => u.on.isEmpty ||
      (decide (u.on.length = table.key.length) && table.key.all fun k => decide (k ∈ u.on))
  | none =>
    match m.keySources table with
    | none => false
    | some sources =>
      let all := (table.columns.map (·.1)).filter fun c => decide (c ≠ "_deleted")
      (m.clauses.filter fun c => decide (c.kind = .notMatched)).all fun c =>
        match c.action with
        | .insert columns values =>
          let given := if columns.isEmpty then all else columns
          sources.all fun source =>
            let written := (given.idxOf? source.1).bind fun i => values[i]?
            decide ((written.bind fun w => w.bind Expr.qualified) = some source.2)
        | _ => false

/-- Does the ON compare each key column with its source column in the key's own type, or both as
text? `types` are the source's columns'. -/
def comparedAsKeys (types : String → String → Option String)
    (sources : List (String × (String × String))) : Bool :=
  sources.all fun source =>
    match table.columns.lookup source.1, types source.2.1 source.2.2 with
    | some key, some t => sameKeyType key t
    | _, _ => false

end merge

end Pondra.Change
