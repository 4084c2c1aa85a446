import Mathlib.Data.List.Nodup
import Pondra.Base.Traverse
import Pondra.Change.OnKey

set_option autoImplicit false

namespace Pondra.Change

variable {V : Type} (sql : Sql V) (table : Meta V) (m : Merge V)

/-! ### An upsert's rows have keys of their own -/

section keys

variable [DecidableEq V] (on : List String)

theorem firstOfEach_sublist (seen : List (List V)) (rows : List (String → Option V)) :
    (firstOfEach on seen rows).Sublist rows := by
  induction rows generalizing seen with
  | nil => exact List.Sublist.slnil
  | cons row rest ih =>
    rw [firstOfEach]
    split
    · exact (ih seen).cons_cons row
    · split
      · exact (ih seen).cons row
      · exact (ih _).cons_cons row

theorem firstOfEach_once (seen : List (List V)) (rows : List (String → Option V)) :
    (∀ key ∈ (firstOfEach on seen rows).filterMap (conflictKey on), key ∉ seen) ∧
      ((firstOfEach on seen rows).filterMap (conflictKey on)).Nodup := by
  induction rows generalizing seen with
  | nil => simp [firstOfEach]
  | cons row rest ih =>
    rw [firstOfEach]
    cases own : conflictKey on row with
    | none =>
      dsimp only
      rw [List.filterMap_cons_none own]
      exact ih seen
    | some key =>
      dsimp only
      split
      · exact ih seen
      · rename_i fresh
        obtain ⟨apart, nodup⟩ := ih (key :: seen)
        rw [List.filterMap_cons_some own]
        refine ⟨?_, List.nodup_cons.mpr ⟨fun again => apart key again List.mem_cons_self, nodup⟩⟩
        intro other inside
        rcases List.mem_cons.mp inside with rfl | inside
        · exact fresh
        · exact fun before => apart other inside (List.mem_cons_of_mem _ before)

end keys

/-- A row of the target meets a proposed row where their conflict columns are the same. -/
theorem upsert_matching (u : Upsert V) (called : String) (on given : List String)
    (apart : called ≠ "excluded") (some : on ≠ []) (t : Target V) (row : String → Option V)
    (typed : table.Typed sql t.cols) (shaped : table.Typed sql row) :
    (u.merge table called on given).matching sql t
        (fun q c => if q = "excluded" then row c else none) = true ↔
      ∀ c ∈ on, ∃ v, t.cols c = Option.some v ∧ row c = Option.some v := by
  obtain ⟨first, others, rfl⟩ := List.exists_cons_of_ne_nil some
  have each : ∀ c, (Expr.eq (.name called c) (.name "excluded" c)).holds sql called
      ⟨Option.some t, Option.some fun q c => if q = "excluded" then row c else none⟩ = true ↔
      ∃ v, t.cols c = Option.some v ∧ row c = Option.some v := by
    intro c
    rw [holds_eq]
    have source : ((Expr.name "excluded" c).eval sql called ⟨Option.some t,
        Option.some fun q c => if q = "excluded" then row c else none⟩) = row c := by
      rw [Expr.eval, value_source _ _ called ("excluded", c) (Ne.symm apart)]
      rfl
    rw [source, Expr.eval, value_target]
    constructor
    · rintro ⟨v, w, old, new, same⟩
      have types : sql.typeOf v = sql.typeOf w :=
        Option.some.inj ((typed c v old).symm.trans (shaped c w new))
      exact ⟨v, old, by rw [new, (same_typed sql v w types).mp same]⟩
    · rintro ⟨v, old, new⟩
      exact ⟨v, v, old, new, sql.same_self v⟩
  rw [Merge.matching]
  change (conjunction ((first :: others).map fun c =>
    .eq (.name called c) (.name "excluded" c))).holds sql called _ = true ↔ _
  rw [List.map_cons, holds_conjunction, List.all_cons, List.all_map, Bool.and_eq_true,
    List.all_eq_true, List.forall_mem_cons, each]
  exact and_congr Iff.rfl (forall₂_congr fun c _ => each c)

/-- No row of the target meets two rows of an upsert, whose keys all differ. -/
theorem upsert_single (u : Upsert V) (called : String) (on given : List String)
    (apart : called ≠ "excluded") (some : on ≠ []) (target : List (Target V))
    (rows : List (String → Option V)) (typed : ∀ t ∈ target, table.Typed sql t.cols)
    (shaped : ∀ row ∈ rows, table.Typed sql row)
    (once : (rows.filterMap (conflictKey on)).Nodup) :
    (u.merge table called on given).Single sql target (excluded rows) := by
  intro t inside _
  rw [excluded, List.filter_map, List.length_map]
  have meets : ∀ row ∈ rows.filter ((fun s => (u.merge table called on given).matching sql t s) ∘
      fun row q c => if q = "excluded" then row c else none),
      ∀ c ∈ on, ∃ v, t.cols c = Option.some v ∧ row c = Option.some v := by
    intro row there
    rw [List.mem_filter] at there
    exact (upsert_matching sql table u called on given apart some t row (typed t inside)
      (shaped row there.1)).mp there.2
  generalize kept : rows.filter _ = found at meets ⊢
  have part : found.Sublist rows := kept ▸ List.filter_sublist
  cases found with
  | nil => simp
  | cons row others =>
    have values : ∀ row' ∈ row :: others, conflictKey on row' = on.mapM t.cols := fun row' there =>
      Traverse.mapM_congr fun c of => by
        obtain ⟨v, old, new⟩ := meets row' there c of
        rw [old, new]
    obtain ⟨key, whole⟩ := Traverse.mapM_exists fun c of =>
      (meets row List.mem_cons_self c of).imp fun v both => both.1
    have keys : (row :: others).filterMap (conflictKey on) =
        List.replicate (row :: others).length key := by
      rw [← List.map_const', ← List.filterMap_eq_map]
      exact List.filterMap_congr fun row' there => (values row' there).trans whole
    have nodup := once.sublist (part.filterMap (conflictKey on))
    rw [keys, List.nodup_replicate] at nodup
    exact nodup

/-- An upsert's INSERT clause writes each proposed row's own values. -/
theorem upsert_inserted (u : Upsert V) (called : String) (on given : List String)
    (apart : called ≠ "excluded") (row : String → Option V) (k : String) (key : k ∈ table.key)
    (shaped : table.Typed sql row) (columns : List String) (values : List (Written V))
    (c : Clause V) (inside : c ∈ (u.merge table called on given).clauses)
    (is : c.action = .insert columns values) :
    (inserted sql table called (givenColumns table columns values) values
      ⟨none, some fun q c => if q = "excluded" then row c else none⟩).cols k = row k := by
  have both : columns = ((table.columns.map (·.1)).filter fun c =>
        decide (c ≠ "_deleted") || decide (c ∈ given)) ∧
      values = columns.map fun c => some (.name "excluded" c) := by
    change c ∈ _ ++ [_] at inside
    rcases List.mem_append.mp inside with update | insert
    · split at update
      · cases update
      · rename_i set when _
        split at update
        all_goals
          dsimp only at update
          split at update
          · cases update
          · rw [List.mem_singleton.mp update] at is
            cases is
    · rw [List.mem_singleton.mp insert] at is
      cases is
      exact ⟨rfl, rfl⟩
  obtain ⟨rfl, rfl⟩ := both
  have inside : k ∈ (table.columns.map (·.1)).filter fun c =>
      decide (c ≠ "_deleted") || decide (c ∈ given) := by
    have marked : k ≠ "_deleted" := fun same => table.unmarked (same ▸ key)
    exact List.mem_filter.mpr ⟨table.keyed k key, by simp [marked]⟩
  generalize (table.columns.map (·.1)).filter (fun c =>
      decide (c ≠ "_deleted") || decide (c ∈ given)) = columns at inside ⊢
  have some : columns.isEmpty = false := by
    cases columns
    · cases inside
    · rfl
  rw [givenColumns, some, if_neg (by simp)]
  change table.cast sql k (table.value sql k called _ (((columns.zip _).lookup k).getD none)) = _
  rw [lookup_zip_map columns _ k inside, Option.getD_some, Meta.value, Option.some_or,
    Option.bind_some, Expr.eval, value_source none _ called ("excluded", k) (Ne.symm apart)]
  change table.cast sql k (row k) = row k
  cases own : row k with
  | none => simp [Meta.cast]
  | some v => rw [Meta.cast, shaped k v own, Option.bind_some, Option.map_some, cast_self]

/-! ### The statement -/

/-- The MERGE run, with its source's rows: the statement itself, or the one its upsert is. -/
def Merge.Planned [DecidableEq V] (source : List (Source V)) (proposed : List (String → Option V))
    (p : Merge V) (rows : List (Source V)) : Prop :=
  match m.upsert with
  | none => p = m ∧ rows = source
  | some u => ∃ given on, u.given table = .ok given ∧ u.onColumns table = .ok on ∧
      p = u.merge table m.called on given ∧
      (rows = excluded proposed ∨ rows = excluded (firstOfEach on [] proposed))

theorem onColumns_some (u : Upsert V) (on : List String) (answer : u.onColumns table = .ok on) :
    on ≠ [] ∧ on = if u.on.isEmpty then table.key else u.on := by
  simp only [Upsert.onColumns] at answer
  generalize (if u.on.isEmpty then table.key else u.on) = chosen at answer ⊢
  split at answer
  · cases answer
  · rename_i some
    cases answer
    exact ⟨fun empty => some (List.isEmpty_iff.mpr empty), rfl⟩

/-- An upsert that matches on the key has no conflict column that isn't the key's. -/
theorem onKey_columns (u : Upsert V) (is : m.upsert = some u) (onKey : m.onKey table = true)
    (on : List String) (answer : u.onColumns table = .ok on) : ∀ c ∈ on, c ∈ table.key := by
  obtain ⟨_, rfl⟩ := onColumns_some table u on answer
  rw [Merge.onKey, is] at onKey
  intro c inside
  split at inside
  · exact inside
  · rename_i some
    simp only [some, Bool.false_or, Bool.and_eq_true, decide_eq_true_eq, List.all_eq_true]
      at onKey
    have part : table.key.Subperm u.on :=
      List.subperm_of_subset table.keyOnce fun k of => onKey.2 k of
    exact (part.perm_of_length_le (Nat.le_of_eq onKey.1)).mem_iff.mpr inside

/-- New rows without an id are an INSERT's, for source rows that no row of the target matches. -/
theorem come_inserted (p : Merge V) (target : List (Target V)) (rows : List (Source V))
    (fine : ∃ what, ∀ c ∈ p.clauses, c.refused table what = none) (n : NewRow V)
    (inside : n ∈ p.come sql table target rows) (new : n.id = none) :
    ∃ s ∈ rows, (∀ t ∈ target, p.matching sql t s = false) ∧ ∃ c ∈ p.clauses,
      c.kind = .notMatched ∧ ∃ columns values, c.action = .insert columns values ∧
        n = inserted sql table p.called (givenColumns table columns values) values
          ⟨none, some s⟩ := by
  obtain ⟨what, fine⟩ := fine
  have made : ∀ (kind : Kind) (sc : Scope V) (c : Clause V), p.first sql kind sc = some c →
      c.makes sql table p.called sc = some n → (kind ≠ .notMatched → sc.target.isSome) →
      kind = .notMatched ∧ ∃ columns values, c.action = .insert columns values ∧
        n = inserted sql table p.called (givenColumns table columns values) values sc := by
    intro kind sc c found makes whole
    obtain ⟨there, of⟩ := first_spec sql p kind sc c found
    have free := fine c there
    obtain ⟨k, when, action⟩ := c
    subst of
    cases action with
    | update set =>
      cases makes
      cases k with
      | notMatched => simp [Clause.refused] at free
      | matched | notMatchedBySource =>
        obtain ⟨t, is⟩ := Option.isSome_iff_exists.mp (whole (by simp))
        simp [updated, is] at new
    | delete => cases makes
    | insert columns values =>
      cases makes
      cases k with
      | notMatched => exact ⟨rfl, columns, values, rfl, rfl⟩
      | matched | notMatchedBySource => simp [Clause.refused] at free
  rw [Merge.come, List.mem_append, List.mem_filterMap, List.mem_filterMap] at inside
  rcases inside with ⟨t, there, makes⟩ | ⟨s, there, makes⟩
  · obtain ⟨c, found, makes⟩ := Option.bind_eq_some_iff.mp makes
    obtain ⟨kind, same⟩ := standing_target sql p rows t
    exact absurd (made _ _ c found makes fun _ => by rw [same]; rfl).1 kind
  · obtain ⟨c, found, makes⟩ := Option.bind_eq_some_iff.mp makes
    rw [Merge.sourceTakes] at found
    split at found
    · cases found
    · rename_i unmatched
      rw [List.any_eq_true] at unmatched
      push Not at unmatched
      obtain ⟨inside, of⟩ := first_spec sql p _ _ c found
      refine ⟨s, there, fun t held => Bool.eq_false_iff.mpr (unmatched t held), c, inside, of, ?_⟩
      exact (made _ _ c found makes fun other => absurd rfl other).2

/-- The ON of a MERGE compares each key column with its source column in the key's own type. -/
def Merge.Compared (source : List (Source V)) : Prop :=
  m.upsert = none → ∃ sources types, m.keySources table = some sources ∧
    comparedAsKeys table types sources = true ∧
    ∀ s ∈ source, ∀ q c w, s q c = some w → types q c = some (sql.typeOf w)

variable [DecidableEq V]

/-- What is run for a statement: its MERGE, in which no row of the target matches two rows. -/
theorem merge_planned (target : List (Target V)) (source : List (Source V))
    (proposed : List (String → Option V)) (old : List (Target V)) (new : List (NewRow V))
    (typed : ∀ t ∈ target, table.Typed sql t.cols) (shaped : ∀ row ∈ proposed, table.Typed sql row)
    (one : ∀ u, m.upsert = some u → u.oneRow = true → proposed.length ≤ 1)
    (answer : m.merge sql table target source proposed = .ok (old, new)) :
    ∃ p rows what, m.Planned table source proposed p rows ∧ p.Single sql target rows ∧
      (m.upsert ≠ none → m.called ≠ "excluded") ∧
      p.run sql table what target rows [] p.clauses = .ok (old, new) := by
  rw [Merge.merge] at answer
  cases is : m.upsert with
  | none =>
    simp only [is, Merge.queries] at answer
    split at answer
    · cases answer
    · rename_i once
      refine ⟨m, source, _, by simp [Merge.Planned, is], ?_, fun some => absurd rfl some, answer⟩
      cases semi : m.semi with
      | true => exact fun t _ joined => absurd (semi.symm.trans joined) (by simp)
      | false =>
        refine single_of_once sql m target source ?_
        simpa [semi] using once
  | some u =>
    simp only [is] at answer
    cases given : u.given table with
    | error e =>
      rw [given] at answer
      cases answer
    | ok columns =>
      cases conflict : u.onColumns table with
      | error e =>
        rw [given, conflict] at answer
        cases answer
      | ok on =>
        rw [given, conflict] at answer
        simp only [bind, Except.bind] at answer
        split at answer
        · cases answer
        · split at answer
          · cases answer
          · rename_i apart
            have some := (onColumns_some table u on conflict).1
            rw [Merge.queries] at answer
            simp only [Bool.not_true, Bool.and_false, Bool.false_and, Bool.false_eq_true,
              if_false] at answer
            refine ⟨_, _, _, ?_, ?_, fun _ => apart, answer⟩
            · rw [Merge.Planned, is]
              refine ⟨columns, on, given, conflict, rfl, ?_⟩
              split
              · exact .inr rfl
              · exact .inl rfl
            · split
              · refine upsert_single sql table u m.called on columns apart some target _ typed ?_
                  (firstOfEach_once on [] proposed).2
                exact fun row inside =>
                  shaped row ((firstOfEach_sublist on [] proposed).subset inside)
              · rename_i once
                refine upsert_single sql table u m.called on columns apart some target _ typed
                  shaped ?_
                cases row : u.oneRow with
                | true =>
                  have few := List.length_filterMap_le (conflictKey on) proposed
                  have single := one u is row
                  match keys : proposed.filterMap (conflictKey on) with
                  | [] => exact List.nodup_nil
                  | [_] => exact by simp
                  | _ :: _ :: _ =>
                    rw [keys, List.length_cons, List.length_cons] at few
                    omega
                | false => simpa [row] using once

/-- A MERGE's rows (and an upsert's) are those of SQL's rule, no row of the target is replaced
twice, and where it matches on the key alone the rows it inserts have keys that no row holds. -/
theorem merge_taken (target : List (Target V)) (source : List (Source V))
    (proposed : List (String → Option V)) (old : List (Target V)) (new : List (NewRow V))
    (ids : (target.map (·.id)).Nodup) (typed : ∀ t ∈ target, table.Typed sql t.cols)
    (shaped : ∀ row ∈ proposed, table.Typed sql row)
    (one : ∀ u, m.upsert = some u → u.oneRow = true → proposed.length ≤ 1)
    (answer : m.merge sql table target source proposed = .ok (old, new)) :
    ∃ p rows, m.Planned table source proposed p rows ∧
      old.Perm (p.gone sql target rows) ∧ new.Perm (p.come sql table target rows) ∧
      (old.map (·.id)).Nodup ∧
      (m.onKey table = true → m.Compared sql table source → m.InOrder table →
        ∀ n ∈ new, n.id = none → ∀ t ∈ target, ¬table.HoldsKey t n) := by
  obtain ⟨p, rows, what, planned, single, apart, run⟩ :=
    merge_planned sql table m target source proposed old new typed shaped one answer
  obtain ⟨gone, come⟩ := run_taken sql table p target rows single what old new run
  refine ⟨p, rows, planned, gone, come,
    (gone.map _).nodup_iff.mpr (gone_nodup sql p target rows ids), ?_⟩
  intro onKey compared order n inside fresh t held
  have fine := (run_eq sql table p what target rows [] p.clauses old new run).1
  obtain ⟨s, there, unmatched, c, ofMerge, of, columns, values, is, rfl⟩ :=
    come_inserted sql table p target rows ⟨what, fine⟩ n (come.mem_iff.mp inside) fresh
  rw [Merge.Planned] at planned
  cases upsert : m.upsert with
  | none =>
    simp only [upsert] at planned
    obtain ⟨rfl, rfl⟩ := planned
    obtain ⟨sources, types, found, compares, plans⟩ := compared upsert
    have written := onKey_written table p upsert onKey sources found order c ofMerge of columns
      values is
    have others := (keySources_spec sql table p sources found).2.1
    exact apart_of_unmatched sql table p types sources found compares t s _ (typed t held)
      (plans s there) (fun f there => inserted_column sql table p s _ _ f.1 f.2 (others f there)
        (written f there)) (unmatched t held)
  | some u =>
    simp only [upsert] at planned
    obtain ⟨given, on, _, conflict, rfl, source⟩ := planned
    have named := apart (by simp [upsert])
    obtain ⟨row, proposal, rfl⟩ : ∃ row ∈ proposed,
        s = fun q c => if q = "excluded" then row c else none := by
      rcases source with rfl | rfl
      · obtain ⟨row, of, rfl⟩ := List.mem_map.mp there
        exact ⟨row, of, rfl⟩
      · obtain ⟨row, of, rfl⟩ := List.mem_map.mp there
        exact ⟨row, (firstOfEach_sublist on [] proposed).subset of, rfl⟩
    intro keys
    have all := (upsert_matching sql table u m.called on given named
      (onColumns_some table u on conflict).1 t row (typed t held) (shaped row proposal)).mpr
      fun k inside => by
        have key := onKey_columns table m u upsert onKey on conflict k inside
        obtain ⟨v, old, new⟩ := keys k key
        exact ⟨v, old, (upsert_inserted sql table u m.called on given named row k key
          (shaped row proposal) columns values c ofMerge is).symm.trans new⟩
    rw [unmatched t held] at all
    cases all

/-! ### Numbers with tenths, and integers -/

/-- A number of a type, in tenths; an Int64 is whole. -/
@[ext] structure Num where
  type : String
  tenths : Int
  whole : type = "Int64" → tenths % 10 = 0
  deriving DecidableEq

def Num.cast (t : String) (v : Num) : Num where
  type := t
  tenths := if t = "Int64" then v.tenths / 10 * 10 else v.tenths
  whole is := by rw [if_pos is]; omega

theorem Num.cast_tenths (t : String) (v : Num) (same : sameKeyType t v.type = true) :
    (v.cast t).tenths = v.tenths := by
  rw [Num.cast]
  dsimp only
  split
  · rename_i is
    subst is
    have whole : v.type = "Int64" := by
      have apart : "Int64" ∉ ["Utf8", "Utf8View", "LargeUtf8"] := by decide
      simp only [sameKeyType, apart, decide_false, Bool.false_and, Bool.or_false,
        decide_eq_true_eq] at same
      exact same.symm
    have := v.whole whole
    omega
  · rfl

def numbers : Sql Num where
  typeOf v := v.type
  same v w := decide (v.tenths = w.tenths)
  cast t v := v.cast t
  ofBool b := ⟨"Boolean", if b then 10 else 0, by simp⟩
  truth v := some (decide (v.tenths ≠ 0))
  typed _ _ := rfl
  same_self v := decide_eq_true rfl
  same_comm v w := by simp [eq_comm]
  compared t v w is same := by
    have tenths := v.cast_tenths t same
    rw [decide_eq_true_eq]
    constructor
    · exact fun equal => Num.ext is (equal.trans tenths.symm)
    · rintro rfl
      exact tenths
  truth_ofBool b := by cases b <;> rfl

/-- A row with these cells. -/
def cells (row : List (String × Num)) (c : String) : Option Num := row.lookup c

theorem cells_typed (table : Meta Num) (row : List (String × Num))
    (typed : ∀ p ∈ row, table.columns.lookup p.1 = some p.2.type) :
    table.Typed numbers (cells row) :=
  fun c v found => typed (c, v) (Dicts.mem_of_lookup c row v found)

def int (n : Int) : Num := ⟨"Int64", n * 10, by omega⟩

def stock : Meta Num where
  columns := [("id", "Int64"), ("n", "Int64"), ("_deleted", "Boolean")]
  sqlNames := ["id", "n"]
  key := ["id"]
  default _ := none
  distinct := by decide
  keyOnce := by decide
  keyed := by decide
  unmarked := by decide

def stockRows : List (Target Num) :=
  [⟨1, cells [("id", int 2), ("n", int 5)]⟩, ⟨2, cells [("id", int 3), ("n", int 6)]⟩,
    ⟨3, cells [("n", int 8)]⟩]

/-- MERGE INTO stock AS t USING s ON t.id = s.id: a matched row of the source's `n` is deleted, the
other matched ones take it, and the source's other rows are inserted. -/
def restock : Merge Num where
  stmt := true
  called := "t"
  on := .eq (.name "t" "id") (.name "s" "id")
  clauses := [⟨.matched, some (.eq (.name "t" "n") (.name "s" "n")), .delete⟩,
    ⟨.matched, none, .update [("n", some (.name "s" "n"))]⟩,
    ⟨.notMatched, none, .insert [] [some (.name "s" "id"), some (.name "s" "n")]⟩]
  semi := false
  upsert := none

def arrived (rows : List (List (String × Num))) : List (Source Num) :=
  rows.map fun row q c => if q = "s" then cells row c else none

def arrivals : List (Source Num) :=
  arrived [[("id", int 2), ("n", int 5)], [("id", int 3), ("n", int 7)], [("id", int 4)]]

theorem restock_taken : ∃ old new,
    restock.merge numbers stock stockRows arrivals [] = .ok (old, new) ∧
    old.map (·.id) = [1, 2] ∧ new.map (fun n => (n.id, n.cols "id", n.cols "n")) =
      [(some 2, some (int 3), some (int 7)), (none, some (int 4), none)] ∧
    ∃ p rows, restock.Planned stock arrivals [] p rows ∧
      old.Perm (p.gone numbers stockRows rows) ∧
      new.Perm (p.come numbers stock stockRows rows) ∧ (old.map (·.id)).Nodup ∧
      (restock.onKey stock = true → restock.Compared numbers stock arrivals →
        restock.InOrder stock → ∀ n ∈ new, n.id = none → ∀ t ∈ stockRows, ¬stock.HoldsKey t n) := by
  refine ⟨_, _, rfl, by decide, by decide, ?_⟩
  refine merge_taken numbers stock restock stockRows arrivals [] _ _ (by decide) ?_ (by simp) ?_ rfl
  · intro t inside
    simp only [stockRows, List.mem_cons, List.not_mem_nil, or_false] at inside
    rcases inside with rfl | rfl | rfl <;> exact cells_typed stock _ (by decide)
  · intro u is
    cases is

/-- A MERGE matches on the key alone, and yet inserts a key that a row holds: one rounded from a
fraction, which the ON compares as it is, and one that is NULL. -/
theorem restock_held :
    (restock.onKey stock = true ∧ restock.InOrder stock) ∧
    ∀ source ∈ [arrived [[("id", ⟨"Decimal128(10, 1)", 24, by decide⟩)]], arrived [[("n", int 1)]]],
      ∃ old new, restock.merge numbers stock stockRows source [] = .ok (old, new) ∧
        ∃ n ∈ new, n.id = none ∧ ∃ t ∈ stockRows, ∀ k ∈ stock.key, t.cols k = n.cols k := by
  refine ⟨⟨by decide, .inl (by decide)⟩, ?_⟩
  intro source inside
  simp only [List.mem_cons, List.not_mem_nil, or_false] at inside
  rcases inside with rfl | rfl
  · refine ⟨_, _, rfl, _, List.mem_singleton_self _, rfl, stockRows[0], by simp [stockRows], ?_⟩
    decide
  · refine ⟨_, _, rfl, _, List.mem_singleton_self _, rfl, stockRows[2], by simp [stockRows], ?_⟩
    decide

end Pondra.Change
