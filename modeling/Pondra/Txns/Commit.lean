import Pondra.Base.Machine
import Pondra.Log.Places
import Pondra.Txns.Kept

set_option autoImplicit false

namespace Pondra.Txns

open Machines
open Log (ord ordBits)

/-- A commit's part of a table: its log rows (a keyed table's with its deletes), the row ids in
`{t}$deleted`, and those another engine took out of files. -/
structure Change where
  rows : List Row
  deleted : List Int
  takenOut : List Int

/-- A commit, the first number of its segment and how many it takes. -/
structure Commit where
  first : Nat
  span : Nat
  changes : String → Change

/-- A row id as a key. -/
def idKey (id : Int) : Key := [toString id]

/-- The keys of the rows a write changes. -/
def writeKeys (key : List String) (old new : List Row) : List Key :=
  if key.isEmpty then ((old.map (·.id)).filter (0 ≤ ·)).map idKey
  else (old ++ new).map (keysOf key)

/-- `ON`, then each conflict column with its value. -/
def onKey (columns values : List String) : Key :=
  "ON" :: (columns.zip values).flatMap fun pair => [pair.1, pair.2]

def isOn (key : Key) : Bool :=
  decide (3 ≤ key.length) && decide (key.length % 2 = 1) && decide (key.head? = some "ON")

/-- Every other part. -/
def stepBy2 : List String → List String
  | [] => []
  | [part] => [part]
  | part :: _ :: rest => part :: stepBy2 rest

/-- The columns of an ON key. -/
def onColumns (key : Key) : List String := stepBy2 (key.drop 1)

/-- The keys an INSERT … ON CONFLICT takes on an append table. -/
def conflictKeys (on : List String) (rows : List Row) : List Key :=
  if on.isEmpty then [] else rows.map fun row => onKey on (keysOf on row)

/-- Each with its place in the log. -/
def placed {α : Type} (first : Nat) (all : List α) : List (α × Nat) :=
  all.zipIdx.map fun each => (each.1, ord first each.2)

section reads

variable (log : List Commit) (table : String) (after : Nat)

/-- A table's log rows after a commit. -/
def tail : List (Row × Nat) :=
  (log.filter (after < ·.first)).flatMap fun c => placed c.first (c.changes table).rows

def tailOfDeleted : List (Int × Nat) :=
  (log.filter (after < ·.first)).flatMap fun c => placed c.first (c.changes table).deleted

/-- The rows taken out of files after a commit, each with the commit that took it. -/
def takenOut : List (Int × Nat) :=
  (log.filter (after < ·.first)).flatMap fun c => (c.changes table).takenOut.map (·, c.first)

end reads

/-- A log position's commit. -/
def commitOf (place : Nat) : Nat := place >>> ordBits

/-- The rows of a table that commits after `after` changed, each with its commit. -/
def changed (log : List Commit) (table : String) (key : List String) (mine : List Key)
    (after : Nat) : List (Key × Nat) :=
  if key.isEmpty then
    (tailOfDeleted log table after).map (fun row => (idKey row.1, commitOf row.2)) ++
      (takenOut log table after).map (fun row => (idKey row.1, row.2)) ++
      ((mine.filter isOn).map onColumns).flatMap fun columns =>
        (tail log table after).map fun row => (onKey columns (keysOf columns row.1), commitOf row.2)
  else (tail log table after).map fun row => (keysOf key row.1, commitOf row.2)

/-- Whether a row of `mine` was changed after the point it was read at. -/
def conflicts (log : List Commit) (visible : Nat) (table : String) (key : List String)
    (reads : Reads) (mine : List Key) : Bool :=
  match (mine.map reads.point).min? with
  | none => false
  | some «from» =>
    if visible ≤ «from» then false
    else (changed log table key mine «from»).any fun row =>
      decide (row.1 ∈ mine) && decide (reads.point row.1 < row.2)

/-- The rows of a table whose versions a commit checks. -/
def mineOf (key : List String) (c : Changes) (reads : Reads) : List Key :=
  writeKeys key c.old c.new ++ if key.isEmpty then reads.keys.keys.filter isOn else []

/-- A change of a table as its commit writes it: a keyed table's new rows, and the old ones whose key
none of them has, marked deleted. -/
def appends (key : List String) (c : Changes) : Change :=
  if key.isEmpty then ⟨c.new, c.old.map (·.id), []⟩
  else ⟨c.new ++ c.old.filter fun row => keysOf key row ∉ c.new.map (keysOf key), [], []⟩

/-- A commit changes the row that a key names. -/
def Commit.Alters (c : Commit) (table : String) (key : List String) (k : Key) : Prop :=
  if key.isEmpty then
    k ∈ (c.changes table).deleted.map idKey ∨ k ∈ (c.changes table).takenOut.map idKey ∨
      isOn k = true ∧ k ∈ (c.changes table).rows.map fun row =>
        onKey (onColumns k) (keysOf (onColumns k) row)
  else k ∈ (c.changes table).rows.map (keysOf key)

/-- A commit's rows have places of their own. -/
def Commit.Placed (c : Commit) : Prop :=
  c.first + c.span ≤ 2 ^ 40 ∧ ∀ table,
    (c.changes table).rows.length ≤ c.span * 2 ^ 24 ∧
      (c.changes table).deleted.length ≤ c.span * 2 ^ 24

/-! ### The row keys -/

theorem onKey_isOn (columns values : List String) (some' : columns ≠ [])
    (same : values.length = columns.length) : isOn (onKey columns values) = true := by
  have long : ((columns.zip values).flatMap fun pair => [pair.1, pair.2]).length =
      columns.length * 2 := by
    rw [List.length_flatMap]
    simp [same]
  have one : 1 ≤ columns.length := List.length_pos_iff.mpr some'
  simp only [isOn, onKey, List.length_cons, long, List.head?_cons, decide_true, Bool.and_true,
    Bool.and_eq_true, decide_eq_true_eq]
  omega

theorem conflictKeys_isOn (on : List String) (rows : List Row) (k : Key)
    (inside : k ∈ conflictKeys on rows) : isOn k = true := by
  unfold conflictKeys at inside
  split at inside
  · cases inside
  · rename_i some'
    obtain ⟨row, -, rfl⟩ := List.mem_map.mp inside
    refine onKey_isOn on _ (fun empty => some' ?_) (List.length_map _)
    rw [empty, List.isEmpty_nil]

theorem writeKeys_old {key : List String} {old new : List Row} {row : Row} {k : Key}
    (inside : row ∈ old) (here : k ∈ writeKeys key [row] []) : k ∈ writeKeys key old new := by
  unfold writeKeys at here ⊢
  split
  · rename_i append
    rw [if_pos append] at here
    simp only [List.mem_map, List.mem_filter, List.mem_singleton] at here ⊢
    obtain ⟨id, ⟨⟨other, same, rfl⟩, positive⟩, rfl⟩ := here
    exact ⟨_, ⟨⟨row, inside, same ▸ rfl⟩, positive⟩, rfl⟩
  · rename_i keyed
    rw [if_neg keyed] at here
    simp only [List.append_nil, List.map_singleton, List.mem_singleton] at here
    exact here ▸ List.mem_map_of_mem (List.mem_append_left _ inside)

/-- A key of a write is one of an old row's, or a keyed table's new row's. -/
theorem writeKeys_cases {key : List String} {old new : List Row} {k : Key}
    (inside : k ∈ writeKeys key old new) :
    (∃ row ∈ old, k ∈ writeKeys key [row] []) ∨
      key.isEmpty = false ∧ ∃ row ∈ new, keysOf key row = k := by
  unfold writeKeys at inside
  split at inside
  · rename_i append
    simp only [List.mem_map, List.mem_filter] at inside
    obtain ⟨id, ⟨⟨row, held, rfl⟩, positive⟩, rfl⟩ := inside
    refine .inl ⟨row, held, ?_⟩
    rw [writeKeys, if_pos append]
    refine List.mem_map_of_mem (List.mem_filter.mpr ⟨?_, positive⟩)
    exact List.mem_singleton.mpr rfl
  · rename_i keyed
    obtain ⟨row, held, rfl⟩ := List.mem_map.mp inside
    rcases List.mem_append.mp held with old | new
    · refine .inl ⟨row, old, ?_⟩
      rw [writeKeys, if_neg keyed]
      exact List.mem_singleton.mpr rfl
    · exact .inr ⟨Bool.eq_false_iff.mpr keyed, row, new, rfl⟩

/-! ### What the check finds -/

theorem placed_mem {α : Type} (first span : Nat) (all : List α) (row : α)
    (small : first + span ≤ 2 ^ 40) (few : all.length ≤ span * 2 ^ 24) (inside : row ∈ all) :
    ∃ place, (row, place) ∈ placed first all ∧ first ≤ commitOf place := by
  obtain ⟨i, short, rfl⟩ := List.mem_iff_getElem.mp inside
  refine ⟨ord first i, ?_, ?_⟩
  · have zipped : (all[i], i) ∈ all.zipIdx := List.mk_mem_zipIdx_iff_getElem?.mpr
      (List.getElem?_eq_getElem short)
    exact List.mem_map_of_mem (f := fun each : α × Nat => (each.1, ord first each.2)) zipped
  · have eq : ord first i = first * 2 ^ 24 + i := Log.ord_eq first i span (by omega) small
    rw [commitOf, eq, ordBits, Nat.shiftRight_eq_div_pow, Nat.le_div_iff_mul_le (by decide)]
    exact Nat.le_add_right _ _

section check

variable {log : List Commit} {table : String} {key : List String} {after : Nat} {c : Commit}

theorem tail_mem (held : c ∈ log) (later : after < c.first) (fits : c.Placed) (row : Row)
    (inside : row ∈ (c.changes table).rows) :
    ∃ place, (row, place) ∈ tail log table after ∧ c.first ≤ commitOf place := by
  obtain ⟨place, found, high⟩ := placed_mem c.first c.span _ row fits.1 (fits.2 table).1 inside
  exact ⟨place, List.mem_flatMap.mpr
    ⟨c, List.mem_filter.mpr ⟨held, decide_eq_true later⟩, found⟩, high⟩

theorem tailOfDeleted_mem (held : c ∈ log) (later : after < c.first) (fits : c.Placed) (id : Int)
    (inside : id ∈ (c.changes table).deleted) :
    ∃ place, (id, place) ∈ tailOfDeleted log table after ∧ c.first ≤ commitOf place := by
  obtain ⟨place, found, high⟩ := placed_mem c.first c.span _ id fits.1 (fits.2 table).2 inside
  exact ⟨place, List.mem_flatMap.mpr
    ⟨c, List.mem_filter.mpr ⟨held, decide_eq_true later⟩, found⟩, high⟩

/-- The scan gives each row of `mine` that a commit after its start changes, with that commit or a
later number of its. -/
theorem changed_mem (mine : List Key) (held : c ∈ log) (later : after < c.first) (fits : c.Placed)
    (k : Key) (inside : k ∈ mine) (alters : c.Alters table key k) :
    ∃ n, (k, n) ∈ changed log table key mine after ∧ c.first ≤ n := by
  unfold Commit.Alters at alters
  unfold changed
  split
  · rename_i append
    rw [if_pos append] at alters
    rcases alters with deleted | taken | ⟨on, row⟩
    · obtain ⟨id, gone, rfl⟩ := List.mem_map.mp deleted
      obtain ⟨place, found, high⟩ := tailOfDeleted_mem held later fits id gone
      exact ⟨_, List.mem_append_left _ (List.mem_append_left _ (List.mem_map_of_mem found)), high⟩
    · obtain ⟨id, gone, rfl⟩ := List.mem_map.mp taken
      have found : (id, c.first) ∈ takenOut log table after := List.mem_flatMap.mpr
        ⟨c, List.mem_filter.mpr ⟨held, decide_eq_true later⟩, List.mem_map_of_mem gone⟩
      exact ⟨_, List.mem_append_left _ (List.mem_append_right _ (List.mem_map_of_mem found)), le_rfl⟩
    · obtain ⟨row, written, same⟩ := List.mem_map.mp row
      obtain ⟨place, found, high⟩ := tail_mem held later fits row written
      have columns : onColumns k ∈ (mine.filter isOn).map onColumns :=
        List.mem_map_of_mem (List.mem_filter.mpr ⟨inside, on⟩)
      refine ⟨commitOf place, List.mem_append_right _ (List.mem_flatMap.mpr ⟨_, columns, ?_⟩), high⟩
      exact List.mem_map.mpr ⟨_, found, by rw [same]⟩
  · rename_i keyed
    rw [if_neg keyed] at alters
    obtain ⟨row, written, rfl⟩ := List.mem_map.mp alters
    obtain ⟨place, found, high⟩ := tail_mem held later fits row written
    exact ⟨_, List.mem_map_of_mem (f := fun row : Row × Nat => (keysOf key row.1, commitOf row.2))
      found, high⟩

/-- A check that passes: no row of `mine` was changed after its point. -/
theorem conflicts_false {visible : Nat} {reads : Reads} {mine : List Key}
    (log' : ∀ c ∈ log, c.first ≤ visible ∧ c.Placed)
    (passed : conflicts log visible table key reads mine = false) (k : Key) (inside : k ∈ mine)
    (held : c ∈ log) (later : reads.point k < c.first) : ¬ c.Alters table key k := by
  intro alters
  unfold conflicts at passed
  have point : reads.point k ∈ mine.map reads.point := List.mem_map_of_mem inside
  split at passed
  · rename_i empty
    rw [List.min?_eq_none_iff.mp empty] at point
    cases point
  · rename_i start least
    have below : start ≤ reads.point k := (List.min?_eq_some_iff.mp least).2 _ point
    split at passed
    · rename_i past
      exact absurd ((log' c held).1.trans past) (Nat.not_le.mpr (below.trans_lt later))
    · obtain ⟨n, found, high⟩ := changed_mem mine held (below.trans_lt later) (log' c held).2 k
        inside alters
      have free := List.any_eq_false.mp passed _ found
      simp only [Bool.and_eq_true, decide_eq_true_eq, not_and, not_lt] at free
      exact absurd (free inside) (Nat.not_le.mpr (later.trans_le high))

end check

end Pondra.Txns
