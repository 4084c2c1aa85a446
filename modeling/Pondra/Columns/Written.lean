import Pondra.Columns.Made

set_option autoImplicit false

namespace Pondra.Columns

open Dicts

/-! ### The list as lake format 6 writes it -/

/-- A column's facts past its name, type and flags, each left out at its default. -/
structure Facts where
  id : Option Nat
  stored : Option String
  default : Option String
  identity : Option Identity
  held : Option String
  labels : Option Enum
  sqlType : Option String
  about : Option About

def Facts.any (f : Facts) : Bool :=
  f.id.isSome || f.stored.isSome || f.default.isSome || f.identity.isSome || f.held.isSome ||
    f.labels.isSome || f.sqlType.isSome || f.about.isSome

/-- An element of a column as it is written. -/
inductive Element where
  | text (s : String)
  | facts (f : Facts)

/-- A column at its place in the list: its id is written only when it isn't `place`. -/
def writeCol (c : Col) (place : Nat) : List Element :=
  let facts : Facts := ⟨if c.id ≠ place then some c.id else none, c.stored, c.default, c.identity,
    c.held, c.labels, c.sqlType, c.about⟩
  [.text c.name, .text c.dtype] ++ (if c.notNull then [.text "not null"] else []) ++
    (if c.dropped then [.text "dropped"] else []) ++ if facts.any then [.facts facts] else []

/-- `[columns]`, or `[columns, order]`. -/
structure Written where
  columns : List (List Element)
  order : Option (List Nat)

def write (l : Stored) : Written where
  columns := (l.columns.zipIdx 1).map fun c => writeCol c.1 c.2
  order := if l.order.isEmpty then none else some l.order

/-- What follows a column's name and type: flags, or its facts. -/
def readRest : Col → List Element → Option Col
  | c, [] => some c
  | c, .text s :: rest =>
    if s = "not null" then readRest { c with notNull := true } rest
    else if s = "dropped" then readRest { c with dropped := true } rest
    else none
  | c, .facts f :: rest =>
    readRest { c with
      id := f.id.getD 0
      stored := f.stored
      default := f.default
      identity := f.identity
      held := f.held
      labels := f.labels
      sqlType := f.sqlType
      about := f.about } rest

/-- A column as it is written, its id 0 when the list gives it none. -/
def readCol : List Element → Option Col
  | .text name :: .text dtype :: rest =>
    readRest ⟨0, name, none, dtype, none, false, false, none, none, none, none, none⟩ rest
  | _ => none

def read (w : Written) : Option Stored :=
  (w.columns.mapM readCol).map fun columns =>
    { columns := (columns.zipIdx 1).map fun c => if c.1.id = 0 then { c.1 with id := c.2 } else c.1
      order := w.order.getD [] }

theorem readCol_writeCol (c : Col) (place : Nat) :
    readCol (writeCol c place) = some { c with id := if c.id = place then 0 else c.id } := by
  obtain ⟨id, name, stored, dtype, sqlType, dropped, notNull, default, identity, held, labels,
    about⟩ := c
  have flags : ∀ (c : Col) (f : Facts) (n d : Bool),
      readRest { c with notNull := false, dropped := false }
        ((if n then [.text "not null"] else []) ++ (if d then [.text "dropped"] else []) ++
          if f.any then [.facts f] else []) =
        readRest { c with notNull := n, dropped := d } (if f.any then [.facts f] else []) := by
    intro c f n d
    cases n <;> cases d <;> simp [readRest]
  have start := flags ⟨0, name, none, dtype, none, false, false, none, none, none, none, none⟩
    ⟨if id ≠ place then some id else none, stored, default, identity, held, labels, sqlType, about⟩
    notNull dropped
  simp only [writeCol, List.append_assoc, List.cons_append, List.nil_append, readCol] at start ⊢
  rw [start]
  by_cases any : Facts.any ⟨if id ≠ place then some id else none, stored, default, identity, held,
      labels, sqlType, about⟩ = true
  · rw [if_pos any]
    by_cases same : id = place <;> simp [readRest, same]
  · rw [if_neg any]
    simp only [Facts.any, Bool.or_eq_true, not_or, Bool.not_eq_true, Option.isSome_eq_false_iff,
      Option.isNone_iff_eq_none] at any
    obtain ⟨⟨⟨⟨⟨⟨⟨here, rfl⟩, rfl⟩, rfl⟩, rfl⟩, rfl⟩, rfl⟩, rfl⟩ := any
    have same : id = place := by
      by_contra apart
      rw [if_pos apart] at here
      cases here
    simp [readRest, same]

/-- The list read back is the list. -/
theorem read_write (l : Stored) (ids : ∀ c ∈ l.columns, c.id ≠ 0) : read (write l) = some l := by
  have cols : ∀ (columns : List Col) (n : Nat), (∀ c ∈ columns, c.id ≠ 0) →
      ∃ read, ((columns.zipIdx n).map fun c => writeCol c.1 c.2).mapM readCol = some read ∧
        ((read.zipIdx n).map fun c => if c.1.id = 0 then { c.1 with id := c.2 } else c.1) =
          columns := by
    intro columns
    induction columns with
    | nil => exact fun _ _ => ⟨[], rfl, rfl⟩
    | cons c rest ih =>
      intro n ids
      obtain ⟨read, eq, back⟩ := ih (n + 1) fun c inside => ids c (List.mem_cons_of_mem _ inside)
      refine ⟨{ c with id := if c.id = n then 0 else c.id } :: read, ?_, ?_⟩
      · rw [List.zipIdx_cons, List.map_cons, List.mapM_cons, readCol_writeCol, eq]
        rfl
      · rw [List.zipIdx_cons, List.map_cons, back]
        by_cases same : c.id = n
        · simp only [same, if_true]
          rw [← same]
        · have some' := ids c List.mem_cons_self
          simp [same, some']
  obtain ⟨columns, eq, back⟩ := cols l.columns 1 ids
  rw [read, write, eq, Option.map_some, back]
  refine congrArg some (Stored.ext rfl ?_)
  cases l.order <;> rfl

/-! ### The fields as format 5 writes them -/

/-- Each column's fact by its stored name, where it has one. -/
def collect {ν : Type} (fact : Col → Option ν) (columns : List Col) : Dict String ν :=
  columns.foldl (fun facts c =>
    match fact c with
    | some v => facts.insert c.storedName v
    | none => facts) ∅

/-- The fields by stored name from the list. -/
def Stored.fields (l : Stored) : Made where
  columns := l.columns.map fun c => (c.storedName, c.dtype)
  names := collect (fun c => if c.stored.isSome then some c.name else none) l.columns
  dropped := (l.columns.filter (·.dropped)).map (·.storedName)
  shown := (l.order.filterMap fun id => (l.place id).bind (l.columns[·]?)).map (·.storedName)
  notNull := (l.columns.filter (·.notNull)).map (·.storedName)
  defaults := collect (·.default) l.columns
  identity := collect (·.identity) l.columns
  enums := collect (·.labels) l.columns
  sqlTypes := collect (·.held) l.columns
  logicalTypes := collect (·.sqlType) l.columns

theorem lookup_collect {ν : Type} (fact : Col → Option ν) (columns : List Col)
    (distinct : (columns.map (·.storedName)).Nodup) (c : Col) (inside : c ∈ columns) :
    (collect fact columns).lookup c.storedName = fact c := by
  have fold : ∀ (columns : List Col) (facts : Dict String ν) (s : String),
      s ∉ columns.map (·.storedName) → (columns.foldl (fun facts c =>
        match fact c with
        | some v => facts.insert c.storedName v
        | none => facts) facts).lookup s = facts.lookup s := by
    intro columns
    induction columns with
    | nil => exact fun _ _ _ => rfl
    | cons other rest ih =>
      intro facts s absent
      rw [List.map_cons, List.mem_cons, not_or] at absent
      rw [List.foldl_cons, ih _ s absent.2]
      split
      · exact AList.lookup_insert_ne absent.1
      · rfl
  have found : ∀ (columns : List Col) (facts : Dict String ν),
      (columns.map (·.storedName)).Nodup → c ∈ columns → facts.lookup c.storedName = none →
      (columns.foldl (fun facts c =>
        match fact c with
        | some v => facts.insert c.storedName v
        | none => facts) facts).lookup c.storedName = fact c := by
    intro columns
    induction columns with
    | nil => exact fun _ _ none => nomatch none
    | cons other rest ih =>
      intro facts distinct inside bare
      rw [List.map_cons, List.nodup_cons] at distinct
      rw [List.foldl_cons]
      rcases List.mem_cons.mp inside with rfl | later
      · rw [fold rest _ _ distinct.1]
        split
        · rename_i v here
          rw [AList.lookup_insert, here]
        · rename_i here
          rw [bare, here]
      · have apart : c.storedName ≠ other.storedName := fun eq =>
          distinct.1 (eq ▸ List.mem_map_of_mem (f := Col.storedName) later)
        refine ih _ distinct.2 later ?_
        split
        · exact (AList.lookup_insert_ne apart).trans bare
        · exact bare
  exact found columns ∅ distinct inside rfl

/-- Of columns of stored names of their own, those of a kind. -/
theorem mem_kind {columns : List Col} (distinct : (columns.map (·.storedName)).Nodup)
    (kind : Col → Bool) {c : Col} (inside : c ∈ columns) :
    c.storedName ∈ (columns.filter kind).map (·.storedName) ↔ kind c = true := by
  refine ⟨fun named => ?_, fun is => List.mem_map_of_mem (List.mem_filter.mpr ⟨inside, is⟩)⟩
  obtain ⟨other, held, eq⟩ := List.mem_map.mp named
  obtain ⟨held, is⟩ := List.mem_filter.mp held
  rw [← List.inj_on_of_nodup_map distinct held inside eq]
  exact is

/-- The list whose ids are its places, and whose order names its columns, read back from its fields. -/
theorem fromFields_fields (l : Stored) (distinct : (l.columns.map (·.storedName)).Nodup)
    (ids : l.columns.map (·.id) = List.range' 1 l.columns.length)
    (order : ∀ id ∈ l.order, id ∈ l.columns.map (·.id)) :
    fromFields l.fields = l.withoutAbout := by
  have names : l.fields.columns.map (·.1) = l.columns.map (·.storedName) := by
    rw [Stored.fields, List.map_map]
    rfl
  have idOf : ∀ (i : Nat) (c : Col), l.columns[i]? = some c → c.id = i + 1 := fun i c here => by
    have at' := congrArg (·[i]?) ids
    simp only [List.getElem?_map, here, Option.map_some] at at'
    have short := (List.getElem?_eq_some_iff.mp here).1
    rw [List.getElem?_range' short, Option.some.injEq] at at'
    omega
  refine Stored.ext ?_ ?_
  · rw [fromFields_columns (names.symm ▸ distinct)]
    simp only [Stored.withoutAbout, Stored.fields, List.zipIdx_map, List.map_map]
    refine List.ext_getElem? fun i => ?_
    rw [List.getElem?_map, List.getElem?_map, List.getElem?_zipIdx]
    cases here : l.columns[i]? with
    | none => rfl
    | some c =>
      have inside := List.mem_of_getElem? here
      have dropped := mem_kind distinct (·.dropped) inside
      have notNull := mem_kind distinct (·.notNull) inside
      simp only [Option.map_some, Function.comp_apply, Prod.map, id_eq, Option.some.injEq,
        Made.colOf, lookup_collect _ _ distinct c inside, dropped, notNull, Bool.decide_eq_true]
      have place := idOf i c here
      rw [place, Nat.add_comm 1 i]
      obtain ⟨id, name, stored, dtype, sqlType, dropped, notNull, default, identity, held, labels,
        about⟩ := c
      cases stored <;> simp [Col.storedName]
  · rw [fromFields_order, names]
    show (if l.fields.shown.isEmpty then [] else _) = l.order
    have back : ∀ ids : List Nat, (∀ id ∈ ids, id ∈ l.columns.map (·.id)) →
        ((ids.filterMap fun id => (l.place id).bind (l.columns[·]?)).map (·.storedName)).filterMap
          (fun s => ((l.columns.map (·.storedName)).findIdx? (· = s)).map (· + 1)) = ids := by
      intro ids within
      induction ids with
      | nil => rfl
      | cons id rest ih =>
        obtain ⟨c, inside, rfl⟩ := List.mem_map.mp (within id List.mem_cons_self)
        obtain ⟨i, short, here⟩ := List.mem_iff_getElem.mp inside
        have here? : l.columns[i]? = some c := by rw [List.getElem?_eq_getElem short, here]
        have eq := idOf i c here?
        have place : l.place c.id = some i := by
          rw [Stored.place, eq, if_neg (Nat.succ_ne_zero i), Nat.add_sub_cancel, here?]
          exact if_pos eq
        have named : (l.columns.map (·.storedName)).findIdx? (· = c.storedName) = some i := by
          refine List.findIdx?_eq_some_iff_getElem.mpr
            ⟨by rwa [List.length_map], by simp [here], fun j before same => ?_⟩
          have other := of_decide_eq_true same
          have once := List.nodup_iff_injective_get.mp distinct
          have twice := @once ⟨j, by rw [List.length_map]; omega⟩
            ⟨i, by rwa [List.length_map]⟩ (by simpa [here] using other)
          have := Fin.mk.inj_iff.mp twice
          omega
        rw [List.filterMap_cons_some (by rw [place]; exact here?), List.map_cons,
          List.filterMap_cons_some (b := c.id) (by rw [named, eq]; rfl),
          ih fun id inside => within id (List.mem_cons_of_mem _ inside)]
    split
    · rename_i empty
      have none := back l.order order
      rw [show (l.order.filterMap fun id => (l.place id).bind (l.columns[·]?)).map (·.storedName)
        = [] from List.isEmpty_iff.mp empty] at none
      exact none
    · exact back l.order order

end Pondra.Columns
