import Pondra.Columns.Rows
import Pondra.Columns.Written

set_option autoImplicit false

namespace Pondra.Columns

open Machines Dicts

/-! ### What a column means is left alone -/

def Col.plain (c : Col) : Col := { c with about := none }

theorem modifyFirst_map {α β : Type} (f : α → β) (test : α → Bool) (test' : β → Bool)
    (change : α → α) (change' : β → β) (same : ∀ x, test' (f x) = test x)
    (commute : ∀ x, test x = true → change' (f x) = f (change x)) (l : List α) :
    modifyFirst test' change' (l.map f) = (modifyFirst test change l).map f := by
  induction l with
  | nil => rfl
  | cons x rest ih =>
    rw [List.map_cons, modifyFirst, modifyFirst, same]
    split
    · rename_i here
      rw [List.map_cons, commute x here]
    · rw [List.map_cons, ih]

section about

variable (l : Stored)

theorem withoutAbout_names : l.withoutAbout.columns.map (·.storedName) =
    l.columns.map (·.storedName) := by
  rw [Stored.withoutAbout, List.map_map]
  rfl

theorem withoutAbout_ids : l.withoutAbout.columns.map (·.id) = l.columns.map (·.id) := by
  rw [Stored.withoutAbout, List.map_map]
  rfl

theorem withoutAbout_live : l.withoutAbout.live = l.live.map Col.plain := by
  rw [Stored.live, Stored.withoutAbout, List.filter_map]
  rfl

theorem withoutAbout_at (s : String) (change : Col → Col)
    (commute : ∀ c : Col, change c.plain = (change c).plain) :
    (l.at' s change).withoutAbout = l.withoutAbout.at' s change :=
  Stored.ext (modifyFirst_map Col.plain (fun c => decide (c.storedName = s))
    (fun c => decide (c.storedName = s)) change change (fun _ => rfl) (fun c _ => commute c)
    l.columns).symm rfl

theorem withoutAbout_setOrder (stored : List String) :
    (l.setOrder stored).withoutAbout = l.withoutAbout.setOrder stored := by
  refine Stored.ext rfl ?_
  have as : l.withoutAbout.asStored = l.asStored := by
    rw [Stored.asStored, Stored.withoutAbout, List.filter_map, List.map_map]
    rfl
  show (if stored.isPrefixOf l.asStored then [] else _) = if _ then [] else _
  rw [as]
  split
  · rfl
  · rw [List.map_filterMap, List.map_filterMap]
    refine List.filterMap_congr fun s _ => ?_
    rw [Stored.withoutAbout, List.find?_map, Option.map_map]
    rfl

theorem withoutAbout_edit (e : Edit) : (l.edit e).withoutAbout = l.withoutAbout.edit e := by
  cases e with
  | add name dtype held labels =>
    refine Stored.ext ?_ rfl
    show (l.columns ++ [_]).map Col.plain = l.columns.map Col.plain ++ [_]
    rw [List.map_append, withoutAbout_names, Stored.nextId, Stored.nextId, withoutAbout_ids]
    rfl
  | rename s name =>
    refine withoutAbout_at l s _ fun c => ?_
    simp only [Col.plain]
    split <;> rfl
  | drop s => exact withoutAbout_at l s _ fun _ => rfl
  | retype s dtype => exact withoutAbout_at l s _ fun _ => rfl
  | hold s held =>
    refine withoutAbout_at l s _ fun c => ?_
    simp only [Col.plain]
    split <;> rfl
  | setOrder stored => exact withoutAbout_setOrder l stored
  | setDefault s expr => exact withoutAbout_at l s _ fun _ => rfl
  | setNotNull s notNull => exact withoutAbout_at l s _ fun _ => rfl

theorem withoutAbout_allows (e : Edit) : l.withoutAbout.Allows e ↔ l.Allows e := by
  have names : l.withoutAbout.live.map (·.name) = l.live.map (·.name) := by
    rw [withoutAbout_live, List.map_map]
    rfl
  have stored : l.withoutAbout.live.map (·.storedName) = l.live.map (·.storedName) := by
    rw [withoutAbout_live, List.map_map]
    rfl
  cases e <;> simp only [Stored.Allows, names, stored]

end about

/-! ### Live names -/

/-- An edit of one column leaves the live columns' names distinct where its own is no other's. -/
theorem live_at {l : Stored} (distinct : (l.columns.map (·.storedName)).Nodup)
    (live : (l.live.map (·.name)).Nodup) (s : String) (change : Col → Col)
    (own : ∀ c ∈ l.columns, c.storedName = s → (change c).dropped = false →
      ∀ other ∈ l.live, other.storedName ≠ s → (change c).name ≠ other.name) :
    ((l.at' s change).live.map (·.name)).Nodup := by
  simp only [Stored.live, Stored.at', modifyFirst_eq (·.storedName) s change _ distinct]
  rw [List.Nodup, List.pairwise_map, List.pairwise_filter, List.pairwise_map]
  have apart : l.columns.Pairwise fun a b => a.storedName ≠ b.storedName :=
    List.pairwise_map.mp distinct
  have names : l.columns.Pairwise fun a b =>
      (!a.dropped) = true → (!b.dropped) = true → a.name ≠ b.name :=
    List.pairwise_filter.mp (List.pairwise_map.mp live)
  refine (apart.and names).imp_of_mem fun {a b} inside inside' both alive alive' => ?_
  obtain ⟨apart, names⟩ := both
  by_cases here : a.storedName = s
  · have there : b.storedName ≠ s := fun eq => apart (here.trans eq.symm)
    rw [if_pos here] at alive ⊢
    rw [if_neg there] at alive' ⊢
    exact own a inside here (by simpa using alive) b (List.mem_filter.mpr ⟨inside', alive'⟩) there
  · rw [if_neg here] at alive ⊢
    by_cases there : b.storedName = s
    · rw [if_pos there] at alive' ⊢
      exact (own b inside' there (by simpa using alive') a (List.mem_filter.mpr ⟨inside, alive⟩)
        here).symm
    · rw [if_neg there] at alive' ⊢
      exact names alive alive'

/-- An edit that leaves its column's name, and whether it is live, as they are. -/
theorem live_kept {l : Stored} (distinct : (l.columns.map (·.storedName)).Nodup)
    (live : (l.live.map (·.name)).Nodup) (s : String) (change : Col → Col)
    (name : ∀ c, (change c).name = c.name) (dropped : ∀ c, (change c).dropped = c.dropped) :
    ((l.at' s change).live.map (·.name)).Nodup := by
  refine live_at distinct live s change fun c inside here alive other held apart eq => apart ?_
  have mine : c ∈ l.live := List.mem_filter.mpr ⟨inside, by rw [← dropped c, alive]; rfl⟩
  rw [← List.inj_on_of_nodup_map live mine held ((name c).symm.trans eq)]
  exact here

theorem live_edit {l : Stored} (distinct : (l.columns.map (·.storedName)).Nodup)
    (live : (l.live.map (·.name)).Nodup) (e : Edit) (allowed : l.Allows e) :
    ((l.edit e).live.map (·.name)).Nodup := by
  cases e with
  | add name dtype held labels =>
    have added : (l.addColumn name dtype held labels).live.map (·.name) =
        l.live.map (·.name) ++ [name] := by
      rw [Stored.addColumn, Stored.live, List.filter_append, List.map_append]
      rfl
    show ((l.addColumn name dtype held labels).live.map (·.name)).Nodup
    rw [added, List.nodup_append]
    refine ⟨live, List.nodup_singleton _, fun a inside b last eq => allowed ?_⟩
    exact (List.mem_singleton.mp last ▸ eq) ▸ inside
  | rename s name =>
    refine live_at distinct live s _ fun c _ _ _ other held _ eq => allowed.2 ?_
    have new : other.name = name := by
      rw [← eq]
      split
      · rename_i same
        exact same.symm
      · rfl
    exact new ▸ List.mem_map_of_mem (f := Col.name) held
  | drop s => exact live_at distinct live s _ fun _ _ _ alive => Bool.noConfusion alive
  | retype s dtype => exact live_kept distinct live s _ (fun _ => rfl) fun _ => rfl
  | hold s held =>
    refine live_kept distinct live s _ (fun c => ?_) fun c => ?_
    · simp only
      split <;> rfl
    · simp only
      split <;> rfl
  | setOrder stored => exact live
  | setDefault s expr => exact live_kept distinct live s _ (fun _ => rfl) fun _ => rfl
  | setNotNull s notNull => exact live_kept distinct live s _ (fun _ => rfl) fun _ => rfl

/-! ### Ids and stored names stay with their columns -/

/-- Each column stays, at its place, with its id and its stored name; a dropped one stays dropped. -/
def Kept (l l' : Stored) : Prop :=
  ∀ (i : Nat) (c : Col), l.columns[i]? = some c → ∃ c', l'.columns[i]? = some c' ∧ c'.id = c.id ∧
    c'.storedName = c.storedName ∧ (c.dropped = true → c'.dropped = true)

theorem Kept.rfl' (l : Stored) : Kept l l := fun _ c here => ⟨c, here, rfl, rfl, id⟩

theorem Kept.trans' {l l' l'' : Stored} (first : Kept l l') (then' : Kept l' l'') : Kept l l'' := by
  intro i c here
  obtain ⟨c', here', id', stored', gone'⟩ := first i c here
  obtain ⟨c'', here'', id'', stored'', gone''⟩ := then' i c' here'
  exact ⟨c'', here'', id''.trans id', stored''.trans stored', fun gone => gone'' (gone' gone)⟩

theorem modifyFirst_getElem? {α : Type} (test : α → Bool) (change : α → α) (l : List α) (i : Nat)
    (x : α) (here : l[i]? = some x) : (modifyFirst test change l)[i]? = some x ∨
      test x = true ∧ (modifyFirst test change l)[i]? = some (change x) := by
  induction l generalizing i with
  | nil => cases here
  | cons y rest ih =>
    unfold modifyFirst
    split
    · rename_i found
      cases i with
      | zero =>
        obtain rfl := Option.some.inj here
        exact .inr ⟨found, rfl⟩
      | succ i => exact .inl here
    · cases i with
      | zero => exact .inl here
      | succ i => exact ih i here

theorem kept_at (l : Stored) (s : String) (change : Col → Col)
    (id' : ∀ c, (change c).id = c.id) (stored : ∀ c, c.storedName = s → (change c).storedName = s)
    (gone : ∀ c : Col, c.dropped = true → (change c).dropped = true) : Kept l (l.at' s change) := by
  intro i c here
  rcases modifyFirst_getElem? (·.storedName = s) change l.columns i c here with same | ⟨test, now⟩
  · exact ⟨c, same, rfl, rfl, id⟩
  · have named := of_decide_eq_true test
    exact ⟨change c, now, id' c, (stored c named).trans named.symm, gone c⟩

theorem kept_edit (l : Stored) (e : Edit) : Kept l (l.edit e) := by
  cases e with
  | add name dtype held labels =>
    intro i c here
    refine ⟨c, ?_, rfl, rfl, id⟩
    show (l.columns ++ [_])[i]? = some c
    rw [List.getElem?_append_left (List.getElem?_eq_some_iff.mp here).1, here]
  | rename s name =>
    refine kept_at l s _ (fun c => ?_) (fun c named => ?_) fun c gone => ?_
    · split <;> rfl
    · split <;> rfl
    · split <;> exact gone
  | drop s => exact kept_at l s _ (fun _ => rfl) (fun _ _ => rfl) fun _ _ => rfl
  | retype s dtype => exact kept_at l s _ (fun _ => rfl) (fun _ named => named) fun _ gone => gone
  | hold s held =>
    refine kept_at l s _ (fun c => ?_) (fun c named => ?_) fun c gone => ?_
    · simp only
      split <;> rfl
    · simp only
      split <;> exact named
    · simp only
      split <;> exact gone
  | setOrder stored => exact .rfl' l
  | setDefault s expr => exact kept_at l s _ (fun _ => rfl) (fun _ named => named) fun _ gone => gone
  | setNotNull s notNull =>
    exact kept_at l s _ (fun _ => rfl) (fun _ named => named) fun _ gone => gone

/-! ### Runs -/

/-- A table's columns, edited as the list and as format 5's fields. -/
structure Table where
  fields : Made
  list : Stored

def table : Machine Table Edit where
  next t e := ⟨t.fields.edit e, t.list.edit e⟩
  Allows t e := t.list.Allows e

instance (t : Table) (e : Edit) : Decidable (table.Allows t e) :=
  inferInstanceAs (Decidable (t.list.Allows e))

/-- A table whose list is that of its fields, each fact a column's, its live columns' names distinct. -/
structure Table.Right (t : Table) : Prop where
  whole : t.fields.Whole
  same : t.list.withoutAbout = fromFields t.fields
  live : (t.list.live.map (·.name)).Nodup

/-- The list and the fields are in step. -/
structure Table.InStep (t : Table) : Prop where
  fields : t.list.withoutAbout = fromFields t.fields
  list : read (write t.list) = some t.list
  written : fromFields t.list.fields = t.list.withoutAbout
  ids : (t.list.columns.map (·.id)).Nodup
  stored : (t.list.columns.map (·.storedName)).Nodup
  live : (t.list.live.map (·.name)).Nodup
  known : ∀ c ∈ t.list.live, storedOf t.list c.name = some c.storedName
  back : ∀ (α : Type) (b : List (String × α)), toLogical t.list (toStored t.list b) =
    b.filter fun f => decide (f.1 ∈ t.list.live.map (·.name)) || (t.list.col f.1).isNone
  shown : ∀ (α : Type) (b : List (String × α)),
    toLogical t.list b = b.filterMap (shownField t.list)

theorem Table.Right.next {t : Table} (right : t.Right) (e : Edit) (allowed : t.list.Allows e) :
    (table.next t e).Right := by
  have distinct : (t.list.columns.map (·.storedName)).Nodup := by
    rw [← withoutAbout_names, right.same, fromFields_names right.whole.distinct]
    exact right.whole.distinct
  refine ⟨edit_whole right.whole e ?_, ?_, live_edit distinct right.live e allowed⟩
  · rw [← right.same, withoutAbout_allows]
    exact allowed
  · show (t.list.edit e).withoutAbout = fromFields (t.fields.edit e)
    rw [withoutAbout_edit, right.same, edit_eq right.whole]

theorem Table.Right.inStep {t : Table} (right : t.Right) : t.InStep := by
  have names : t.list.columns.map (·.storedName) = t.fields.columns.map (·.1) := by
    rw [← withoutAbout_names, right.same, fromFields_names right.whole.distinct]
  have distinct := names.symm ▸ right.whole.distinct
  have ids : t.list.columns.map (·.id) = List.range' 1 t.list.columns.length := by
    rw [← withoutAbout_ids, right.same, fromFields_ids right.whole.distinct]
    have long := congrArg List.length names
    rw [List.length_map, List.length_map] at long
    rw [long]
  have order : ∀ id ∈ t.list.order, id ∈ t.list.columns.map (·.id) := fun id inside => by
    have here : id ∈ (fromFields t.fields).order := right.same ▸ inside
    rw [fromFields] at here
    simp only at here
    rw [← withoutAbout_ids, right.same, fromFields_ids right.whole.distinct, List.mem_range'_1]
    split at here
    · cases here
    · obtain ⟨s, -, eq⟩ := List.mem_filterMap.mp here
      obtain ⟨i, found, rfl⟩ := Option.map_eq_some_iff.mp eq
      have := (List.findIdx?_eq_some_iff_getElem.mp found).1
      omega
  have known : ∀ c ∈ t.list.live, storedOf t.list c.name = some c.storedName := fun c inside => by
    rw [storedOf]
    cases found : t.list.live.find? (·.name = c.name) with
    | none =>
      have apart := List.find?_eq_none.mp found c inside
      exact absurd (decide_eq_true rfl) apart
    | some other =>
      have eq := List.find?_some found
      rw [List.inj_on_of_nodup_map right.live (List.mem_of_find?_eq_some found) inside
        (of_decide_eq_true eq), Option.map_some]
  refine ⟨right.same, read_write t.list fun c inside => ?_,
    fromFields_fields t.list distinct ids order, ids ▸ List.nodup_range', distinct, right.live, known,
    fun α b => ?_, fun α b => toLogical_eq distinct b⟩
  · have one : c.id ∈ t.list.columns.map (·.id) := List.mem_map_of_mem inside
    rw [ids, List.mem_range'_1] at one
    omega
  · rw [toLogical_toStored distinct]
    refine List.filter_congr fun f _ => congrArg (· || _) ?_
    rw [storedOf, Option.isSome_map, Bool.eq_iff_iff, List.find?_isSome, decide_eq_true_eq]
    simp only [decide_eq_true_eq, List.mem_map]

theorem edits_kept (t : Table) (edits : List Edit) : Kept t.list (table.run t edits).list := by
  induction edits generalizing t with
  | nil => exact .rfl' _
  | cons e rest ih => exact (kept_edit t.list e).trans' (ih (table.next t e))

/-- Column edits keep the list and the fields in step, and a column its id and its stored name. -/
theorem run_inStep (t : Table) (right : t.Right) (edits : List Edit) (legal : table.Legal t edits) :
    (table.run t edits).InStep ∧ ∀ before after, edits = before ++ after →
      Kept (table.run t before).list (table.run t edits).list := by
  refine ⟨(table.run_invariant Table.Right (fun _ e right allowed => right.next e allowed) t edits
    right legal).inStep, fun before after eq => ?_⟩
  rw [eq, Machine.run_append]
  exact edits_kept _ after

/-- A table as it is made, with nothing but its columns. -/
def newTable (columns : List (String × String)) : Table :=
  let m : Made := ⟨columns, ∅, [], [], [], ∅, ∅, ∅, ∅, ∅⟩
  ⟨m, fromFields m⟩

theorem newTable_right (columns : List (String × String)) (distinct : (columns.map (·.1)).Nodup)
    (live : ((newTable columns).list.live.map (·.name)).Nodup) : (newTable columns).Right where
  whole := ⟨distinct, fun _ _ => ⟨rfl, List.not_mem_nil, List.not_mem_nil, List.not_mem_nil, rfl,
    rfl, rfl, rfl, rfl⟩⟩
  same := by
    refine Stored.ext ?_ rfl
    show (newTable columns).list.columns.map Col.plain = (fromFields (newTable columns).fields).columns
    rw [newTable, fromFields_columns distinct, List.map_map]
    rfl
  live := live

def movedEdits : List Edit :=
  [.add "b" "Utf8" (some "uuid") none, .rename "a" "c", .drop "b", .add "a" "Int64" none none,
    .add "b" "Utf8" none none, .setOrder ["a~2", "k"], .setNotNull "a~2" true, .rename "a~2" "a~2",
    .setDefault "k" (some "0"), .hold "b~2" (some "json"), .retype "k" "Int32", .drop "a"]

theorem movedEdits_inStep :
    (table.run (newTable [("k", "Int64"), ("a", "Utf8")]) movedEdits).list.columns.map
        (fun c => (c.id, c.storedName, c.name, c.dropped)) =
      [(1, "k", "k", false), (2, "a", "a", true), (3, "b", "b", true), (4, "a~2", "a~2", false),
        (5, "b~2", "b", false)] ∧
      (table.run (newTable [("k", "Int64"), ("a", "Utf8")]) movedEdits).InStep ∧
        ∀ before after, movedEdits = before ++ after →
          Kept (table.run (newTable [("k", "Int64"), ("a", "Utf8")]) before).list
            (table.run (newTable [("k", "Int64"), ("a", "Utf8")]) movedEdits).list :=
  ⟨by decide, run_inStep _ (newTable_right _ (by decide) (by decide)) movedEdits
    (by decide)⟩

end Pondra.Columns
