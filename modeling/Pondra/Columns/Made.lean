import Pondra.Columns.Stored

set_option autoImplicit false

namespace Pondra.Columns

open Dicts

/-- A table's column fields by stored name, format 5's shape. -/
structure Made where
  columns : List (String × String)
  names : Dict String String
  dropped : List String
  shown : List String
  notNull : List String
  defaults : Dict String String
  identity : Dict String Identity
  enums : Dict String Enum
  sqlTypes : Dict String String
  logicalTypes : Dict String String

namespace Made

/-! ### The column edits as they were made on the fields -/

variable (m : Made)

def addColumn (name dtype : String) (held : Option String) (labels : Option Enum) : Made :=
  let stored := freeName name (m.columns.map (·.1))
  { m with
    names := if stored ≠ name then m.names.insert stored name else m.names
    enums := match labels with
      | some e => m.enums.insert stored e
      | none => m.enums
    sqlTypes := match held with
      | some t => m.sqlTypes.insert stored t
      | none => m.sqlTypes
    columns := m.columns ++ [(stored, dtype)] }

def renameColumn (stored name : String) : Made :=
  { m with names := if name = stored then m.names.erase stored else m.names.insert stored name }

def dropColumn (stored : String) : Made :=
  { m with names := m.names.erase stored, dropped := m.dropped ++ [stored] }

def retypeColumn (stored dtype : String) : Made :=
  { m with columns := modifyFirst (·.1 = stored) (fun c => (c.1, dtype)) m.columns }

def holdColumn (stored : String) (held : Option String) : Made :=
  match held with
  | some t => { m with sqlTypes := m.sqlTypes.insert stored t }
  | none => { m with sqlTypes := m.sqlTypes.erase stored, enums := m.enums.erase stored }

def asStored : List String :=
  (m.columns.map (·.1)).filter fun s => decide (s ∉ m.dropped) && decide (s ≠ "_deleted")

def setOrder (stored : List String) : Made :=
  { m with shown := if stored.isPrefixOf m.asStored then [] else stored }

def setDefault (stored : String) (expr : Option String) : Made :=
  { m with
    defaults := match expr with
      | some e => m.defaults.insert stored e
      | none => m.defaults.erase stored }

def setNotNull (stored : String) (notNull : Bool) : Made :=
  { m with
    notNull := (m.notNull.filter (· ≠ stored)) ++ if notNull then [stored] else [] }

def edit : Edit → Made
  | .add name dtype held labels => m.addColumn name dtype held labels
  | .rename stored name => m.renameColumn stored name
  | .drop stored => m.dropColumn stored
  | .retype stored dtype => m.retypeColumn stored dtype
  | .hold stored held => m.holdColumn stored held
  | .setOrder stored => m.setOrder stored
  | .setDefault stored expr => m.setDefault stored expr
  | .setNotNull stored notNull => m.setNotNull stored notNull

/-! ### The list from the fields -/

/-- The fields without what a column took out of them. -/
def without (s : String) : Made :=
  { m with
    names := m.names.erase s
    defaults := m.defaults.erase s
    identity := m.identity.erase s
    enums := m.enums.erase s
    sqlTypes := m.sqlTypes.erase s
    logicalTypes := m.logicalTypes.erase s }

/-- A column of the fields, with its facts. -/
def colOf (id : Nat) (s dtype : String) : Col where
  id := id
  name := (m.names.lookup s).getD s
  stored := if (m.names.lookup s).isSome then some s else none
  dtype := dtype
  sqlType := m.logicalTypes.lookup s
  dropped := decide (s ∈ m.dropped)
  notNull := decide (s ∈ m.notNull)
  default := m.defaults.lookup s
  identity := m.identity.lookup s
  held := m.sqlTypes.lookup s
  labels := m.enums.lookup s
  about := none

end Made

/-- Each name, type and fact moved into its column. -/
def cols : Nat → Made → List (String × String) → List Col
  | _, _, [] => []
  | id, m, (s, dtype) :: rest => m.colOf id s dtype :: cols (id + 1) (m.without s) rest

def fromFields (m : Made) : Stored where
  columns := cols 1 m m.columns
  order := if m.shown.isEmpty then []
    else m.shown.filterMap fun s => (m.columns.findIdx? (·.1 = s)).map (· + 1)

/-! ### Each column by its own facts -/

/-- A column's facts are the same in both. -/
structure Made.Same (m m' : Made) (s : String) : Prop where
  names : m.names.lookup s = m'.names.lookup s
  dropped : s ∈ m.dropped ↔ s ∈ m'.dropped
  notNull : s ∈ m.notNull ↔ s ∈ m'.notNull
  defaults : m.defaults.lookup s = m'.defaults.lookup s
  identity : m.identity.lookup s = m'.identity.lookup s
  enums : m.enums.lookup s = m'.enums.lookup s
  sqlTypes : m.sqlTypes.lookup s = m'.sqlTypes.lookup s
  logicalTypes : m.logicalTypes.lookup s = m'.logicalTypes.lookup s

theorem Made.Same.colOf {m m' : Made} {s : String} (same : m.Same m' s) (id : Nat) (dtype : String) :
    m.colOf id s dtype = m'.colOf id s dtype := by
  obtain ⟨names, dropped, notNull, defaults, identity, enums, sqlTypes, logicalTypes⟩ := same
  simp only [Made.colOf, names, dropped, notNull, defaults, identity, enums, sqlTypes, logicalTypes]

theorem Made.without_same (m : Made) {s other : String} (apart : other ≠ s) :
    (m.without s).Same m other where
  names := AList.lookup_erase_ne apart
  dropped := .rfl
  notNull := .rfl
  defaults := AList.lookup_erase_ne apart
  identity := AList.lookup_erase_ne apart
  enums := AList.lookup_erase_ne apart
  sqlTypes := AList.lookup_erase_ne apart
  logicalTypes := AList.lookup_erase_ne apart

/-- Columns of names of their own: each has its own facts. -/
theorem cols_eq (id : Nat) (m m' : Made) (columns : List (String × String))
    (distinct : (columns.map (·.1)).Nodup) (same : ∀ c ∈ columns, m.Same m' c.1) :
    cols id m columns =
      (columns.zipIdx id).map fun c => m'.colOf c.2 c.1.1 c.1.2 := by
  induction columns generalizing id m with
  | nil => rfl
  | cons c rest ih =>
    obtain ⟨s, dtype⟩ := c
    rw [List.map_cons, List.nodup_cons] at distinct
    rw [cols, List.zipIdx_cons, List.map_cons, (same (s, dtype) List.mem_cons_self).colOf]
    refine congrArg _ (ih (id + 1) (m.without s) distinct.2 fun other inside => ?_)
    have apart : other.1 ≠ s := fun eq =>
      distinct.1 (List.mem_map.mpr ⟨other, inside, eq⟩)
    have kept := same other (List.mem_cons_of_mem _ inside)
    have without := m.without_same apart
    exact ⟨without.names.trans kept.names, without.dropped.trans kept.dropped,
      without.notNull.trans kept.notNull, without.defaults.trans kept.defaults,
      without.identity.trans kept.identity, without.enums.trans kept.enums,
      without.sqlTypes.trans kept.sqlTypes, without.logicalTypes.trans kept.logicalTypes⟩

theorem fromFields_columns {m : Made} (distinct : (m.columns.map (·.1)).Nodup) :
    (fromFields m).columns =
      (m.columns.zipIdx 1).map fun c => m.colOf c.2 c.1.1 c.1.2 :=
  cols_eq 1 m m m.columns distinct fun _ _ =>
    ⟨rfl, .rfl, .rfl, rfl, rfl, rfl, rfl, rfl⟩

@[simp] theorem colOf_storedName (m : Made) (id : Nat) (s dtype : String) :
    (m.colOf id s dtype).storedName = s := by
  cases found : m.names.lookup s <;> simp [Made.colOf, Col.storedName, found]

theorem map_zipIdx {α β : Type} (f : α → β) (l : List α) (n : Nat) :
    (l.zipIdx n).map (fun c => f c.1) = l.map f := by
  show (l.zipIdx n).map (f ∘ Prod.fst) = l.map f
  rw [← List.map_map, List.zipIdx_map_fst]

/-- The list's stored names are the fields'. -/
theorem fromFields_names {m : Made} (distinct : (m.columns.map (·.1)).Nodup) :
    (fromFields m).columns.map (·.storedName) = m.columns.map (·.1) := by
  rw [fromFields_columns distinct, List.map_map]
  have each : ((·.storedName) ∘ fun c : (String × String) × Nat => m.colOf c.2 c.1.1 c.1.2) =
      fun c => c.1.1 := funext fun c => colOf_storedName m c.2 c.1.1 c.1.2
  rw [each]
  exact map_zipIdx (·.1) m.columns 1

/-- The ids are the places, from one. -/
theorem fromFields_ids {m : Made} (distinct : (m.columns.map (·.1)).Nodup) :
    (fromFields m).columns.map (·.id) = List.range' 1 m.columns.length := by
  rw [fromFields_columns distinct, List.map_map]
  show (m.columns.zipIdx 1).map Prod.snd = _
  rw [List.zipIdx_map_snd]

theorem fromFields_order (m : Made) : (fromFields m).order = if m.shown.isEmpty then [] else
    m.shown.filterMap fun s => ((m.columns.map (·.1)).findIdx? (· = s)).map (· + 1) := by
  simp only [fromFields, List.findIdx?_map]
  rfl

/-! ### The edits in step -/

/-- No column has the name, and nothing is said of it. -/
structure Made.Bare (m : Made) (s : String) : Prop where
  names : m.names.lookup s = none
  dropped : s ∉ m.dropped
  shown : s ∉ m.shown
  notNull : s ∉ m.notNull
  defaults : m.defaults.lookup s = none
  identity : m.identity.lookup s = none
  enums : m.enums.lookup s = none
  sqlTypes : m.sqlTypes.lookup s = none
  logicalTypes : m.logicalTypes.lookup s = none

/-- Stored names are distinct, and facts are those of columns. -/
structure Made.Whole (m : Made) : Prop where
  distinct : (m.columns.map (·.1)).Nodup
  own : ∀ s, s ∉ m.columns.map (·.1) → m.Bare s

theorem modifyFirst_eq {α : Type} (name : α → String) (s : String) (change : α → α) (l : List α)
    (distinct : (l.map name).Nodup) : modifyFirst (fun x => decide (name x = s)) change l =
      l.map fun x => if name x = s then change x else x := by
  induction l with
  | nil => rfl
  | cons x rest ih =>
    rw [List.map_cons, List.nodup_cons] at distinct
    rw [modifyFirst, List.map_cons]
    by_cases here : name x = s
    · have others : rest.map (fun x => if name x = s then change x else x) = rest := by
        refine (List.map_congr_left fun y inside => if_neg fun eq => distinct.1 ?_).trans
          (List.map_id rest)
        exact here.trans eq.symm ▸ List.mem_map_of_mem inside
      rw [if_pos (decide_eq_true here), if_pos here, others]
    · rw [if_neg (by simpa using here), if_neg here, ih distinct.2]

/-- An edit of one column's facts. -/
structure Made.Alone (m m' : Made) (s : String) (re : String → String) : Prop where
  columns : m'.columns = m.columns.map fun c => if c.1 = s then (c.1, re c.2) else c
  shown : m'.shown = m.shown
  others : ∀ other, other ≠ s → m'.Same m other

section edits

variable {m m' : Made} {s : String}

theorem Made.Alone.names {re : String → String} (alone : m.Alone m' s re) :
    m'.columns.map (·.1) = m.columns.map (·.1) := by
  rw [alone.columns, List.map_map]
  refine List.map_congr_left fun c _ => ?_
  show (if c.1 = s then (c.1, re c.2) else c).1 = c.1
  split <;> rfl

theorem Made.Alone.whole {re : String → String} (alone : m.Alone m' s re) (whole : m.Whole)
    (inside : s ∈ m.columns.map (·.1)) : m'.Whole := by
  refine ⟨alone.names ▸ whole.distinct, fun other out => ?_⟩
  rw [alone.names] at out
  have bare := whole.own other out
  have same := alone.others other fun eq => out (eq ▸ inside)
  exact ⟨same.names.trans bare.names, fun gone => bare.dropped (same.dropped.mp gone),
    alone.shown ▸ bare.shown, fun not => bare.notNull (same.notNull.mp not),
    same.defaults.trans bare.defaults, same.identity.trans bare.identity,
    same.enums.trans bare.enums, same.sqlTypes.trans bare.sqlTypes,
    same.logicalTypes.trans bare.logicalTypes⟩

/-- An edit of one column's facts, on the fields and on the list. -/
theorem fromFields_at {re : String → String} (alone : m.Alone m' s re) (change : Col → Col)
    (distinct : (m.columns.map (·.1)).Nodup)
    (here : ∀ id dtype, m'.colOf id s (re dtype) = change (m.colOf id s dtype)) :
    fromFields m' = (fromFields m).at' s change := by
  have names := alone.names
  obtain ⟨columns, shown, others⟩ := alone
  have cols : (fromFields m').columns =
      modifyFirst (·.storedName = s) change (fromFields m).columns := by
    rw [modifyFirst_eq (·.storedName) s change _ ((fromFields_names distinct).symm ▸ distinct),
      fromFields_columns (names.symm ▸ distinct), fromFields_columns distinct, columns,
      List.zipIdx_map, List.map_map, List.map_map]
    refine List.map_congr_left fun c _ => ?_
    simp only [Function.comp_apply, Prod.map, colOf_storedName]
    by_cases same : c.1.1 = s
    · simp only [same, if_true, id_eq]
      exact here c.2 c.1.2
    · simp only [same, if_false, id_eq]
      exact (others c.1.1 same).colOf c.2 c.1.2
  have order : (fromFields m').order = (fromFields m).order := by
    rw [fromFields_order, fromFields_order, names, shown]
  exact Stored.ext cols order

theorem same_columns (columns : List (String × String)) (s : String) :
    columns = columns.map fun c => if c.1 = s then (c.1, id c.2) else c := by
  refine (List.map_id columns).symm.trans (List.map_congr_left fun c _ => ?_)
  split <;> rfl

theorem findIdx?_zipIdx {α : Type} (test : α → Bool) (make : α × Nat → Col) (l : List α) (n : Nat)
    (ids : ∀ x i, (make (x, i)).id = i) (f : Col → Bool) (same : ∀ x i, f (make (x, i)) = test x) :
    (((l.zipIdx n).map make).find? f).map (·.id) = (l.findIdx? test).map (· + n) := by
  induction l generalizing n with
  | nil => rfl
  | cons x rest ih =>
    rw [List.zipIdx_cons, List.map_cons, List.find?_cons, List.findIdx?_cons, same]
    cases test x with
    | true => simp [ids]
    | false =>
      simp only [Bool.false_eq_true, if_false, ih (n + 1), Option.map_map]
      refine congrArg (Option.map · _) (funext fun i => ?_)
      simp only [Function.comp_apply]
      omega

theorem alone_rename (m : Made) (s name : String) : m.Alone (m.renameColumn s name) s id := by
  refine ⟨same_columns _ s, rfl, fun other apart => ⟨?_, .rfl, .rfl, rfl, rfl, rfl, rfl, rfl⟩⟩
  simp only [Made.renameColumn]
  split
  · exact AList.lookup_erase_ne apart
  · exact AList.lookup_insert_ne apart

theorem edit_rename (distinct : (m.columns.map (·.1)).Nodup) (s name : String) :
    fromFields (m.renameColumn s name) = (fromFields m).renameColumn s name := by
  refine fromFields_at (alone_rename m s name) _ distinct fun id' dtype => ?_
  by_cases same : name = s
  · simp [Made.renameColumn, Made.colOf, same]
  · simp [Made.renameColumn, Made.colOf, same]

theorem alone_drop (m : Made) (s : String) : m.Alone (m.dropColumn s) s id := by
  refine ⟨same_columns _ s, rfl, fun other apart =>
    ⟨AList.lookup_erase_ne apart, ?_, .rfl, rfl, rfl, rfl, rfl, rfl⟩⟩
  simp [Made.dropColumn, apart]

theorem edit_drop (distinct : (m.columns.map (·.1)).Nodup) (s : String) :
    fromFields (m.dropColumn s) = (fromFields m).dropColumn s := by
  refine fromFields_at (alone_drop m s) _ distinct fun id' dtype => ?_
  simp only [Made.colOf, Made.dropColumn, AList.lookup_erase, Option.getD_none, Option.isSome_none,
    Bool.false_eq_true, if_false, List.mem_append, List.mem_singleton, or_true, decide_true, id_eq]
  rfl

theorem alone_retype (distinct : (m.columns.map (·.1)).Nodup) (s dtype : String) :
    m.Alone (m.retypeColumn s dtype) s fun _ => dtype :=
  ⟨modifyFirst_eq Prod.fst s _ _ distinct, rfl,
    fun _ _ => ⟨rfl, .rfl, .rfl, rfl, rfl, rfl, rfl, rfl⟩⟩

theorem edit_retype (distinct : (m.columns.map (·.1)).Nodup) (s dtype : String) :
    fromFields (m.retypeColumn s dtype) = (fromFields m).retypeColumn s dtype :=
  fromFields_at (alone_retype distinct s dtype) _ distinct fun _ _ => rfl

theorem alone_hold (m : Made) (s : String) (held : Option String) :
    m.Alone (m.holdColumn s held) s id := by
  cases held with
  | some t =>
    exact ⟨same_columns _ s, rfl, fun other apart =>
      ⟨rfl, .rfl, .rfl, rfl, rfl, rfl, AList.lookup_insert_ne apart, rfl⟩⟩
  | none =>
    exact ⟨same_columns _ s, rfl, fun other apart => ⟨rfl, .rfl, .rfl, rfl, rfl,
      AList.lookup_erase_ne apart, AList.lookup_erase_ne apart, rfl⟩⟩

theorem edit_hold (distinct : (m.columns.map (·.1)).Nodup) (s : String) (held : Option String) :
    fromFields (m.holdColumn s held) = (fromFields m).holdColumn s held := by
  refine fromFields_at (alone_hold m s held) _ distinct fun id' dtype => ?_
  cases held with
  | some t =>
    simp only [Made.colOf, Made.holdColumn, AList.lookup_insert, Option.isNone_some,
      Bool.false_eq_true, if_false, id_eq]
    rfl
  | none =>
    simp only [Made.colOf, Made.holdColumn, AList.lookup_erase, Option.isNone_none, if_true, id_eq]
    rfl

theorem alone_setDefault (m : Made) (s : String) (expr : Option String) :
    m.Alone (m.setDefault s expr) s id := by
  refine ⟨same_columns _ s, rfl, fun other apart => ⟨rfl, .rfl, .rfl, ?_, rfl, rfl, rfl, rfl⟩⟩
  cases expr with
  | some e => exact AList.lookup_insert_ne apart
  | none => exact AList.lookup_erase_ne apart

theorem edit_setDefault (distinct : (m.columns.map (·.1)).Nodup) (s : String)
    (expr : Option String) :
    fromFields (m.setDefault s expr) = (fromFields m).setDefault s expr := by
  refine fromFields_at (alone_setDefault m s expr) _ distinct fun id' dtype => ?_
  cases expr <;>
    simp only [Made.colOf, Made.setDefault, AList.lookup_insert, AList.lookup_erase, id_eq] <;> rfl

theorem alone_setNotNull (m : Made) (s : String) (notNull : Bool) :
    m.Alone (m.setNotNull s notNull) s id := by
  refine ⟨same_columns _ s, rfl, fun other apart => ⟨rfl, .rfl, ?_, rfl, rfl, rfl, rfl, rfl⟩⟩
  cases notNull <;> simp [Made.setNotNull, apart]

theorem edit_setNotNull (distinct : (m.columns.map (·.1)).Nodup) (s : String) (notNull : Bool) :
    fromFields (m.setNotNull s notNull) = (fromFields m).setNotNull s notNull := by
  refine fromFields_at (alone_setNotNull m s notNull) _ distinct fun id' dtype => ?_
  cases notNull <;> simp [Made.setNotNull, Made.colOf]

theorem asStored_eq (distinct : (m.columns.map (·.1)).Nodup) :
    (fromFields m).asStored = m.asStored := by
  rw [Stored.asStored, fromFields_columns distinct, List.filter_map, List.map_map, Made.asStored,
    ← map_zipIdx (·.1) m.columns 1, List.filter_map]
  have names : ((·.storedName) ∘ fun c : (String × String) × Nat => m.colOf c.2 c.1.1 c.1.2) =
      fun c => c.1.1 := funext fun c => colOf_storedName m c.2 c.1.1 c.1.2
  have tests : ((fun c : Col => !c.dropped && decide (c.storedName ≠ "_deleted")) ∘
      fun c : (String × String) × Nat => m.colOf c.2 c.1.1 c.1.2) =
      (fun s => decide (s ∉ m.dropped) && decide (s ≠ "_deleted")) ∘ fun c => c.1.1 := by
    refine funext fun c => ?_
    show (!decide (c.1.1 ∈ m.dropped) && decide ((m.colOf c.2 c.1.1 c.1.2).storedName ≠ "_deleted"))
      = _
    rw [colOf_storedName]
    simp only [Function.comp_apply, decide_not]
  rw [names, tests]

theorem edit_setOrder (distinct : (m.columns.map (·.1)).Nodup) (stored : List String) :
    fromFields (m.setOrder stored) = (fromFields m).setOrder stored := by
  have cols : (fromFields (m.setOrder stored)).columns = (fromFields m).columns := by
    rw [fromFields_columns distinct]
    exact fromFields_columns (m := m.setOrder stored) distinct
  have order : (fromFields (m.setOrder stored)).order = ((fromFields m).setOrder stored).order := by
    rw [fromFields_order, Stored.setOrder, asStored_eq distinct]
    by_cases same : stored.isPrefixOf m.asStored = true
    · simp [Made.setOrder, same]
    · have some' : stored.isEmpty = false := by
        cases stored with
        | nil => exact absurd rfl same
        | cons _ _ => rfl
      simp only [Made.setOrder, same, if_false, some', Bool.false_eq_true, List.map_filterMap]
      refine congrArg (List.filterMap · stored) (funext fun s => ?_)
      rw [fromFields_columns distinct, List.findIdx?_map]
      exact (findIdx?_zipIdx (fun x : String × String => decide (x.1 = s))
        (fun c => m.colOf c.2 c.1.1 c.1.2) m.columns 1 (fun _ _ => rfl)
        (fun c => decide (c.storedName = s)) fun x i => by simp only [colOf_storedName]).symm
  exact Stored.ext cols order

theorem nextId_eq (distinct : (m.columns.map (·.1)).Nodup) :
    (fromFields m).nextId = m.columns.length + 1 := by
  rw [Stored.nextId, fromFields_ids distinct]
  have top : ∀ n first, (List.range' (first + 1) n).foldr max 0 =
      if n = 0 then 0 else first + n := by
    intro n
    induction n with
    | zero => exact fun _ => rfl
    | succ n ih =>
      intro first
      rw [List.range'_succ, List.foldr_cons, ih (first + 1), if_neg (Nat.succ_ne_zero n)]
      split <;> omega
  rw [top m.columns.length 0]
  split <;> omega

theorem add_whole (whole : m.Whole) (name dtype : String) (held : Option String)
    (labels : Option Enum) : (m.addColumn name dtype held labels).Whole := by
  let s := freeName name (m.columns.map (·.1))
  have free : s ∉ m.columns.map (·.1) := freeName_free name _
  have names : (m.addColumn name dtype held labels).columns.map (·.1) =
      m.columns.map (·.1) ++ [s] := by
    show (m.columns ++ [(s, dtype)]).map (·.1) = _
    rw [List.map_append]
    rfl
  refine ⟨?_, fun other out => ?_⟩
  · rw [names, List.nodup_append]
    refine ⟨whole.distinct, List.nodup_singleton _, fun a inside b last eq => free ?_⟩
    have same : a = s := eq.trans (List.mem_singleton.mp last)
    exact same ▸ inside
  · rw [names, List.mem_append, not_or, List.mem_singleton] at out
    obtain ⟨out, apart⟩ := out
    have bare := whole.own other out
    refine ⟨?_, bare.dropped, bare.shown, bare.notNull, bare.defaults, bare.identity, ?_, ?_,
      bare.logicalTypes⟩
    · show (if s ≠ name then m.names.insert s name else m.names).lookup other = none
      split
      · exact (AList.lookup_insert_ne apart).trans bare.names
      · exact bare.names
    · cases labels with
      | some e => exact (AList.lookup_insert_ne apart).trans bare.enums
      | none => exact bare.enums
    · cases held with
      | some t => exact (AList.lookup_insert_ne apart).trans bare.sqlTypes
      | none => exact bare.sqlTypes

theorem edit_add (whole : m.Whole) (name dtype : String) (held : Option String)
    (labels : Option Enum) :
    fromFields (m.addColumn name dtype held labels) =
      (fromFields m).addColumn name dtype held labels := by
  have distinct := whole.distinct
  let s := freeName name (m.columns.map (·.1))
  have free : s ∉ m.columns.map (·.1) := freeName_free name _
  have bare := whole.own s free
  let m' := m.addColumn name dtype held labels
  have distinct' : (m'.columns.map (·.1)).Nodup := (add_whole whole name dtype held labels).distinct
  have others : ∀ c ∈ m.columns, m'.Same m c.1 := fun c inside => by
    have apart : c.1 ≠ s := fun eq => free (eq ▸ List.mem_map_of_mem inside)
    refine ⟨?_, .rfl, .rfl, rfl, rfl, ?_, ?_, rfl⟩
    · show (if s ≠ name then m.names.insert s name else m.names).lookup c.1 = _
      split
      · exact AList.lookup_insert_ne apart
      · rfl
    · cases labels with
      | some e => exact AList.lookup_insert_ne apart
      | none => rfl
    · cases held with
      | some t => exact AList.lookup_insert_ne apart
      | none => rfl
  have last : m'.colOf (m.columns.length + 1) s dtype = ⟨m.columns.length + 1, name,
      if s = name then none else some s, dtype, none, false, false, none, none, held, labels,
      none⟩ := by
    have names : m'.names.lookup s = if s = name then none else some name := by
      show (if s ≠ name then m.names.insert s name else m.names).lookup s = _
      by_cases same : s = name
      · rw [if_neg (not_not.mpr same), if_pos same, bare.names]
      · rw [if_pos same, if_neg same, AList.lookup_insert]
    have enums : m'.enums.lookup s = labels := by
      cases labels with
      | some e => exact AList.lookup_insert _
      | none => exact bare.enums
    have types : m'.sqlTypes.lookup s = held := by
      cases held with
      | some t => exact AList.lookup_insert _
      | none => exact bare.sqlTypes
    have logical : m'.logicalTypes.lookup s = none := bare.logicalTypes
    have defaults : m'.defaults.lookup s = none := bare.defaults
    have identity : m'.identity.lookup s = none := bare.identity
    have dropped : s ∉ m'.dropped := bare.dropped
    have notNull : s ∉ m'.notNull := bare.notNull
    simp only [Made.colOf, names, enums, types, logical, defaults, identity, dropped, notNull,
      decide_false]
    by_cases same : s = name
    · simp [same]
    · simp [same]
  have cols : (fromFields m').columns = (fromFields m).columns ++ [⟨m.columns.length + 1, name,
      if s = name then none else some s, dtype, none, false, false, none, none, held, labels,
      none⟩] := by
    rw [fromFields_columns distinct', fromFields_columns distinct]
    show ((m.columns ++ [(s, dtype)]).zipIdx 1).map _ = _
    rw [List.zipIdx_append, List.map_append, ← last, Nat.add_comm m.columns.length 1]
    refine congrArg₂ _ (List.map_congr_left fun c inside => ?_) rfl
    exact (others c.1 (List.fst_mem_of_mem_zipIdx inside)).colOf c.2 c.1.2
  have order : (fromFields m').order = (fromFields m).order := by
    rw [fromFields_order, fromFields_order]
    show (if m.shown.isEmpty then [] else m.shown.filterMap fun x =>
      (((m.columns ++ [(s, dtype)]).map (·.1)).findIdx? (· = x)).map (· + 1)) = _
    split
    · rfl
    · refine List.filterMap_congr fun x shown => ?_
      have inside : x ∈ m.columns.map (·.1) := by
        by_contra out
        exact (whole.own x out).shown shown
      rw [List.map_append, List.findIdx?_append]
      cases found : (m.columns.map (·.1)).findIdx? (· = x) with
      | some i => rfl
      | none =>
        have absent := List.findIdx?_eq_none_iff.mp found x inside
        simp at absent
  show fromFields m' = _
  rw [Stored.addColumn, fromFields_names distinct, nextId_eq distinct, ← order, ← cols]

theorem setOrder_whole (whole : m.Whole) (stored : List String)
    (inside : ∀ s ∈ stored, s ∈ m.columns.map (·.1)) : (m.setOrder stored).Whole := by
  refine ⟨whole.distinct, fun other out => ?_⟩
  have bare := whole.own other out
  refine ⟨bare.names, bare.dropped, ?_, bare.notNull, bare.defaults, bare.identity, bare.enums,
    bare.sqlTypes, bare.logicalTypes⟩
  simp only [Made.setOrder]
  split
  · exact List.not_mem_nil
  · exact fun shown => out (inside other shown)

end edits

/-- A live column's stored name is a column's. -/
theorem live_mem {m : Made} (whole : m.Whole) {s : String}
    (live : s ∈ (fromFields m).live.map (·.storedName)) : s ∈ m.columns.map (·.1) := by
  rw [← fromFields_names whole.distinct]
  obtain ⟨c, inside, eq⟩ := List.mem_map.mp live
  exact List.mem_map.mpr ⟨c, List.mem_of_mem_filter inside, eq⟩

/-- An edit of the fields is that edit of their list. -/
theorem edit_eq {m : Made} (whole : m.Whole) (e : Edit) :
    fromFields (m.edit e) = (fromFields m).edit e := by
  cases e with
  | add name dtype held labels => exact edit_add whole name dtype held labels
  | rename s name => exact edit_rename whole.distinct s name
  | drop s => exact edit_drop whole.distinct s
  | retype s dtype => exact edit_retype whole.distinct s dtype
  | hold s held => exact edit_hold whole.distinct s held
  | setOrder stored => exact edit_setOrder whole.distinct stored
  | setDefault s expr => exact edit_setDefault whole.distinct s expr
  | setNotNull s notNull => exact edit_setNotNull whole.distinct s notNull

theorem edit_whole {m : Made} (whole : m.Whole) (e : Edit) (allowed : (fromFields m).Allows e) :
    (m.edit e).Whole := by
  cases e with
  | add name dtype held labels => exact add_whole whole name dtype held labels
  | rename s name => exact (alone_rename m s name).whole whole (live_mem whole allowed.1)
  | drop s => exact (alone_drop m s).whole whole (live_mem whole allowed)
  | retype s dtype =>
    exact (alone_retype whole.distinct s dtype).whole whole (live_mem whole allowed)
  | hold s held => exact (alone_hold m s held).whole whole (live_mem whole allowed)
  | setOrder stored => exact setOrder_whole whole stored fun s inside => live_mem whole (allowed s inside)
  | setDefault s expr => exact (alone_setDefault m s expr).whole whole (live_mem whole allowed)
  | setNotNull s notNull =>
    exact (alone_setNotNull m s notNull).whole whole (live_mem whole allowed)

end Pondra.Columns
