import Mathlib.Data.List.Infix
import Pondra.Txns.Lasts

set_option autoImplicit false

namespace Pondra.Txns.Index

open Machines Dicts

variable (key : List String)

structure Inv (t : Txn) : Prop where
  kept : Kept t.next t.made t.kept.new
  agrees : Agrees key t.held t.kept
  low : t.next < 0
  marks : ∀ mark ∈ t.marks, Kept t.next t.made mark.kept.new

variable {key}

theorem Kept.later {next after : Int} {made now : Nat} {bs : List Batch} (kept : Kept next made bs)
    (lower : after ≤ next) (more : made ≤ now) : Kept after now bs where
  ids := kept.ids
  above row inside := Int.lt_of_le_of_lt lower (kept.above row inside)
  own := kept.own
  stamps := kept.stamps
  earlier b inside := Nat.lt_of_lt_of_le (kept.earlier b inside) more

section drop

variable {t : Txn} {own : List Row}

theorem dropBatches_nil (bs : List Batch) (held : ByKey) (made : Nat) :
    dropBatches key [] bs held made = (bs, held, made) := by
  induction bs generalizing held made with
  | nil => rfl
  | cons b rest ih => simp [dropBatches, ih]

theorem dropBatches_unmade (mine : List Int) (bs : List Batch) (held : ByKey) (made : Nat)
    (unmade : held.rows = none) : (dropBatches key mine bs held made).2.1.rows = none := by
  induction bs generalizing held made with
  | nil => exact unmade
  | cons b rest ih =>
    rw [dropBatches]
    split
    · exact ih _ _ (by simp [ByKey.shrunk, unmade])
    · exact ih held made unmade

/-- The own rows a statement takes, each once, are the kept rows of their ids. -/
theorem mine_perm (inv : Inv key t) (inside : ∀ row ∈ own, row ∈ t.rows)
    (once : (own.map (·.id)).Nodup) :
    (t.rows.filter fun row => row.id ∈ own.map (·.id)).Perm own := by
  have rows : t.rows.Nodup := List.Nodup.of_map _ inv.kept.ids
  apply (List.perm_ext_iff_of_nodup (rows.filter _) (List.Nodup.of_map _ once)).mpr
  intro row
  rw [List.mem_filter, decide_eq_true_eq]
  constructor
  · rintro ⟨held, found⟩
    obtain ⟨other, taken, same⟩ := List.mem_map.mp found
    rwa [← List.inj_on_of_nodup_map inv.kept.ids (inside other taken) held same]
  · intro taken
    exact ⟨inside row taken, List.mem_map_of_mem taken⟩

/-- The kept rows of a key are those that go and those that stay. -/
theorem count_left (inv : Inv key t) (inside : ∀ row ∈ own, row ∈ t.rows)
    (once : (own.map (·.id)).Nodup) (k : String) :
    count key own k + count key (dropRows t.rows (own.map (·.id))) k = count key t.rows k := by
  have goes : count key (t.rows.filter fun row => row.id ∈ own.map (·.id)) k = count key own k :=
    ((mine_perm inv inside once).map _).count_eq k
  have split := (List.filter_append_perm (fun row : Row => decide (row.id ∈ own.map (·.id))) t.rows)
  have whole := (split.map (keyText key)).count_eq k
  rw [List.map_append, List.count_append] at whole
  rw [← goes, count, count, count, ← whole]
  congr 3
  apply List.filter_congr
  intro row _
  exact decide_not

/-- What a statement's old rows leave: the index of what is left. -/
theorem drop_agrees (inv : Inv key t) (old : List (List Row)) (inside : ∀ row ∈ ours old.flatten, row ∈ t.rows)
    (once : ((ours old.flatten).map (·.id)).Nodup) :
    Agrees key
      ((old.foldl (Txn.takeOld key) t).dropMine key ((ours old.flatten).map (·.id))).held
      ((old.foldl (Txn.takeOld key) t).dropMine key ((ours old.flatten).map (·.id))).kept := by
  have flat : old.flatMap ours = ours old.flatten := by
    rw [ours, List.filter_flatten, List.flatMap_def]
    rfl
  have flat' : (old.map theirs).flatten = theirs old.flatten := by
    rw [theirs, List.filter_flatten]
    rfl
  have enough : ∀ k, ((ours old.flatten).map (keyText key)).count k ≤ count key t.rows k := by
    intro k
    have := count_left inv inside once k
    rw [count] at this
    omega
  obtain ⟨counts, rows⟩ := uncounts_spec ((ours old.flatten).map (keyText key)) inv.agrees.live enough
  rw [takeOlds_eq, flat]
  constructor
  · intro k
    have left := count_left inv inside once k
    simp only [Txn.dropMine, dropBatches_rows, (dropBatches_index _ _).1]
    rw [counts k]
    congr 1
    show count key t.rows k - count key (ours old.flatten) k =
      count key (dropRows t.rows ((ours old.flatten).map (·.id))) k
    omega
  · intro k
    simp only [Txn.dropMine, (dropBatches_index _ _).2, List.mem_append, List.flatten_append,
      List.map_append, flat', inv.agrees.gone]
    rw [← flat', List.flatMap_def]
  · intro rows' found k
    simp only [Txn.dropMine] at found ⊢
    cases made : (((ours old.flatten).map (keyText key)).foldl ByKey.uncounted t.held).rows with
    | none =>
      rw [dropBatches_unmade] at found
      · cases found
      · exact made
    | some before =>
      obtain ⟨all, first, held, looked⟩ := rows before made
      -- Every own row of a key that goes, goes.
      have ids : ∀ row ∈ t.rows, row.id ∈ (ours old.flatten).map (·.id) ↔
          keyText key row ∈ (ours old.flatten).map (keyText key) := by
        intro row kept
        constructor
        · intro goes
          have taken := (mine_perm inv inside once).mem_iff.mp
            (List.mem_filter.mpr ⟨kept, decide_eq_true goes⟩)
          exact List.mem_map_of_mem taken
        · intro goes
          have left := count_left inv inside once (keyText key row)
          have full := all _ goes
          by_contra stays
          have some_ : 0 < count key (dropRows t.rows ((ours old.flatten).map (·.id))) (keyText key row) :=
            count_pos.mpr ⟨row, List.mem_filter.mpr ⟨kept, decide_eq_true stays⟩, rfl⟩
          have : count key t.rows (keyText key row) = count key (ours old.flatten) (keyText key row) := full
          omega
      have pointed : Points key (· ∈ (ours old.flatten).map (keyText key)) before
          ([] ++ entries t.kept.new) := by
        intro k
        rw [looked]
        refine ⟨fun goes => if_pos goes, fun stays => ?_⟩
        rw [if_neg stays]
        exact inv.agrees.rows first held k
      have points := dropBatches_points [] ids inv.kept.stamps inv.kept.earlier
        (fun _ none => absurd none List.not_mem_nil)
        (by
          intro rows same
          rwa [← Option.some.inj (made.symm.trans same)]) rows' found k
      by_cases goes : k ∈ (ours old.flatten).map (keyText key)
      · rw [points.1 goes]
        symm
        rw [newest_batches_none, dropBatches_rows]
        intro row left same
        obtain ⟨kept, stays⟩ := List.mem_filter.mp left
        rw [decide_eq_true_eq] at stays
        apply stays
        rw [ids row kept, same]
        exact goes
      · rw [← made]
        exact points.2 goes

end drop

section add

variable {t : Txn}

/-- Ids that statements' new versions carry: of their own, and of no kept row. -/
structure Carried (t : Txn) (new : List New) : Prop where
  distinct : (new.filterMap (·.given)).Nodup
  above : ∀ id ∈ new.filterMap (·.given), t.next < id
  fresh : ∀ id ∈ new.filterMap (·.given), id ∉ t.rows.map (·.id)

theorem addNew_rows (t : Txn) (b : List New) :
    (t.addNew key b).rows = t.rows ++ (stamped t.next b).1 := by
  rw [Txn.rows, Txn.addNew, List.flatMap_append, List.flatMap_singleton, Txn.rows]

theorem addNew_inv (inv : Inv key t) (b : List New) (rest : List New) (carried : Carried t (b ++ rest)) :
    Inv key (t.addNew key b) ∧ Carried (t.addNew key b) rest := by
  obtain ⟨distinct, above, fresh⟩ := carried
  rw [List.filterMap_append] at distinct above fresh
  have spec := stamped_spec t.next b
  have lower := spec.lower
  have ids : ∀ row ∈ (stamped t.next b).1, row.id ∈ b.filterMap (·.given) ∨
      (stamped t.next b).2 < row.id ∧ row.id ≤ t.next := by
    intro row inside
    rcases spec.ids row inside with given | temporary
    · obtain ⟨new, held, same⟩ := List.mem_map.mp given
      exact .inl (List.mem_filterMap.mpr ⟨new, held, same⟩)
    · exact .inr temporary
  have apart : ∀ row ∈ (stamped t.next b).1, row.id ∉ t.rows.map (·.id) := by
    intro row inside found
    rcases ids row inside with given | temporary
    · exact fresh row.id (List.mem_append_left _ given) found
    · obtain ⟨other, held, same⟩ := List.mem_map.mp found
      have := inv.kept.above other held
      have : other.id = row.id := same
      omega
  have kept : Kept (t.addNew key b).next (t.addNew key b).made (t.addNew key b).kept.new := by
    constructor
    · show ((t.addNew key b).rows.map (·.id)).Nodup
      rw [addNew_rows, List.map_append, List.nodup_append]
      refine ⟨inv.kept.ids, spec.distinct distinct.of_append_left
        fun id inside => above id (List.mem_append_left _ inside), ?_⟩
      intro id held other new same
      obtain ⟨row, inside, equal⟩ := List.mem_map.mp new
      apply apart row inside
      rwa [equal, ← same]
    · show ∀ row ∈ (t.addNew key b).rows, (stamped t.next b).2 < row.id
      rw [addNew_rows]
      intro row inside
      rcases List.mem_append.mp inside with was | new
      · exact Int.lt_of_le_of_lt lower (inv.kept.above row was)
      · rcases ids row new with given | temporary
        · exact Int.lt_of_le_of_lt lower (above _ (List.mem_append_left _ given))
        · exact temporary.1
    · show ∀ row ∈ (t.addNew key b).rows, row.version = none
      rw [addNew_rows]
      intro row inside
      rcases List.mem_append.mp inside with was | new
      · exact inv.kept.own row was
      · exact spec.own row new
    · show ((t.kept.new ++ [Batch.mk t.made (stamped t.next b).1]).map Batch.stamp).Nodup
      rw [List.map_append, List.nodup_append]
      refine ⟨inv.kept.stamps, List.nodup_singleton _, ?_⟩
      intro stamp was other new same
      obtain ⟨batch, held, equal⟩ := List.mem_map.mp was
      have := inv.kept.earlier batch held
      have : other = t.made := List.mem_singleton.mp new
      have : batch.stamp = stamp := equal
      omega
    · intro batch inside
      show batch.stamp < t.made + 1
      rcases List.mem_append.mp inside with was | new
      · exact Nat.lt_succ_of_lt (inv.kept.earlier batch was)
      · rw [List.mem_singleton.mp new]
        exact Nat.lt_succ_self t.made
  refine ⟨⟨kept, added_agrees inv.agrees _, ?_, ?_⟩, ?_, ?_, ?_⟩
  · exact Int.lt_of_le_of_lt lower inv.low
  · exact fun mark inside => (inv.marks mark inside).later lower (Nat.le_succ _)
  · exact distinct.of_append_right
  · intro id inside
    exact Int.lt_of_le_of_lt lower (above id (List.mem_append_right _ inside))
  · intro id inside found
    rw [addNew_rows, List.map_append, List.mem_append] at found
    rcases found with was | new
    · exact fresh id (List.mem_append_right _ inside) was
    · obtain ⟨row, held, same⟩ := List.mem_map.mp new
      have same : row.id = id := same
      rcases ids row held with given | temporary
      · rw [same] at given
        exact List.disjoint_of_nodup_append distinct given inside
      · have := above id (List.mem_append_right _ inside)
        omega

/-- A statement's new batches, each after the others: the rows they add, and that the index follows. -/
theorem addNews_spec (inv : Inv key t) (new : List (List New)) (carried : Carried t new.flatten) :
    Inv key (new.foldl (Txn.addNew key) t) ∧
      ∃ added, (new.foldl (Txn.addNew key) t).rows = t.rows ++ added ∧
        added.map (·.cell) = new.flatten.map (·.cell) := by
  induction new generalizing t with
  | nil => exact ⟨inv, [], (List.append_nil _).symm, rfl⟩
  | cons b rest ih =>
    rw [List.flatten_cons] at carried
    obtain ⟨step, left⟩ := addNew_inv inv b rest.flatten carried
    obtain ⟨whole, added, rows, cells⟩ := ih step left
    refine ⟨whole, (stamped t.next b).1 ++ added, ?_, ?_⟩
    · rw [List.foldl_cons, rows, addNew_rows, List.append_assoc]
    · rw [List.map_append, cells, (stamped_spec t.next b).cells, List.flatten_cons, List.map_append]

end add

section keep

variable {t : Txn} {base : List Row} {old : List (List Row)} {new : List (List New)}

theorem flatten_filled {α : Type} (bs : List (List α)) :
    (bs.filter fun b => !b.isEmpty).flatten = bs.flatten := by
  induction bs with
  | nil => rfl
  | cons b rest ih =>
    cases b with
    | nil => exact ih
    | cons row others => exact congrArg ((row :: others) ++ ·) ih

theorem keep_eq (t : Txn) (old : List (List Row)) (new : List (List New)) :
    t.keep key old new =
      (new.filter fun b => !b.isEmpty).foldl (Txn.addNew key)
        (((old.filter fun b => !b.isEmpty).foldl (Txn.takeOld key) t).dropMine key
          ((ours old.flatten).map (·.id))) := by
  have flat : (old.filter fun b => !b.isEmpty).flatMap ours = ours old.flatten := by
    rw [← flatten_filled old, ours, List.filter_flatten, List.flatMap_def]
    rfl
  simp only [Txn.keep, flat]
  split
  · rename_i none
    rw [List.isEmpty_iff.mp none, Txn.dropMine, dropBatches_nil]
  · rfl

/-- An old row of a statement is an own row kept, or the table's, shown and of an id of its own. -/
theorem shown_spec (inv : Inv key t) (fits : Fits key t (.keep base old new)) {row : Row}
    (inside : row ∈ old.flatten) :
    row ∈ t.rows ∧ row ∈ ours old.flatten ∨
      row.version.isSome ∧ 0 ≤ row.id ∧ row.id ∉ t.rows.map (·.id) := by
  obtain ⟨table, takes⟩ := fits
  have shown := takes.shown row inside
  rw [Txn.overlaid, List.mem_append, List.mem_filter, decide_eq_true_eq] at shown
  rcases shown with ⟨ofTable, apart, _⟩ | own
  · obtain ⟨version, positive⟩ := table row ofTable
    refine .inr ⟨version, positive, ?_⟩
    intro found
    apply apart
    rw [List.mem_filter, List.map_append, List.mem_append]
    exact ⟨.inr found, decide_eq_true positive⟩
  · refine .inl ⟨own, List.mem_filter.mpr ⟨inside, ?_⟩⟩
    rw [inv.kept.own row own]
    rfl

theorem dropMine_kept (kept : Kept t.next t.made t.kept.new) (mine : List Int) :
    Kept (t.dropMine key mine).next (t.dropMine key mine).made (t.dropMine key mine).kept.new ∧
      t.made ≤ (t.dropMine key mine).made := by
  have rows : (t.dropMine key mine).kept.new.flatMap Batch.rows = dropRows t.rows mine :=
    dropBatches_rows _ _
  obtain ⟨stamps, from_, grows⟩ := dropBatches_stamps t.held t.made kept.stamps kept.earlier
  refine ⟨⟨?_, ?_, ?_, stamps, ?_⟩, grows⟩
  · rw [rows]
    exact kept.ids.sublist (List.filter_sublist.map _)
  · rw [rows]
    exact fun row inside => kept.above row (List.mem_filter.mp inside).1
  · rw [rows]
    exact fun row inside => kept.own row (List.mem_filter.mp inside).1
  · intro b inside
    rcases from_ b inside with was | new
    · obtain ⟨other, held, same⟩ := List.mem_map.mp was
      rw [← show other.stamp = b.stamp from same]
      exact Nat.lt_of_lt_of_le (kept.earlier other held) grows
    · exact new.2

theorem keep_spec (inv : Inv key t) (fits : Fits key t (.keep base old new)) :
    Inv key (t.keep key old new) ∧
      ∃ added, (t.keep key old new).rows = dropRows t.rows ((ours old.flatten).map (·.id)) ++ added ∧
        added.map (·.cell) = new.flatten.map (·.cell) := by
  have takes := fits.2
  have inside : ∀ row ∈ ours old.flatten, row ∈ t.rows := by
    intro row taken
    obtain ⟨inOld, version⟩ := List.mem_filter.mp taken
    rcases shown_spec inv fits inOld with own | table
    · exact own.1
    · rw [Option.isNone_iff_eq_none] at version
      rw [version] at table
      cases table.1
  have once : ((ours old.flatten).map (·.id)).Nodup :=
    takes.once.sublist (List.filter_sublist.map _)
  have left := drop_agrees inv (old.filter fun b => !b.isEmpty)
    (by rwa [flatten_filled]) (by rwa [flatten_filled])
  rw [flatten_filled] at left
  rw [keep_eq]
  generalize begun : (old.filter fun b => !b.isEmpty).foldl (Txn.takeOld key) t = t' at left ⊢
  rw [takeOlds_eq] at begun
  have same : t'.kept.new = t.kept.new ∧ t'.next = t.next ∧ t'.made = t.made ∧ t'.marks = t.marks := by
    rw [← begun]
    exact ⟨rfl, rfl, rfl, rfl⟩
  obtain ⟨batches, next, made, marks⟩ := same
  have kept : Kept t'.next t'.made t'.kept.new := by
    rw [batches, next, made]
    exact inv.kept
  obtain ⟨filtered, more⟩ := dropMine_kept kept ((ours old.flatten).map (·.id))
  have rows : (t'.dropMine key ((ours old.flatten).map (·.id))).rows =
      dropRows t.rows ((ours old.flatten).map (·.id)) := by
    rw [Txn.rows, Txn.dropMine, dropBatches_rows, batches]
    rfl
  have marked : ∀ mark ∈ (t'.dropMine key ((ours old.flatten).map (·.id))).marks,
      Kept t'.next (t'.dropMine key ((ours old.flatten).map (·.id))).made mark.kept.new := by
    intro mark held
    have held : mark ∈ t'.marks := held
    rw [marks] at held
    rw [next]
    exact (inv.marks mark held).later (Int.le_refl _) (by rw [← made]; exact more)
  have dropped : Inv key (t'.dropMine key ((ours old.flatten).map (·.id))) :=
    ⟨filtered, left, by show t'.next < 0; rw [next]; exact inv.low, marked⟩
  have carried : Carried (t'.dropMine key ((ours old.flatten).map (·.id)))
      (new.filter fun b => !b.isEmpty).flatten := by
    rw [flatten_filled]
    have each : ∀ id ∈ new.flatten.filterMap (·.given), t.next < id ∧
        id ∉ (dropRows t.rows ((ours old.flatten).map (·.id))).map (·.id) := by
      intro id given
      obtain ⟨row, inOld, same⟩ := List.mem_map.mp (takes.carried id given)
      have same : row.id = id := same
      rcases shown_spec inv fits inOld with ⟨own, mine⟩ | ⟨_, positive, apart⟩
      · refine ⟨by rw [← same]; exact inv.kept.above row own, ?_⟩
        intro found
        obtain ⟨other, stays, equal⟩ := List.mem_map.mp found
        have out := of_decide_eq_true (List.mem_filter.mp stays).2
        apply out
        rw [show other.id = id from equal, ← same]
        exact List.mem_map_of_mem mine
      · refine ⟨by have := inv.low; omega, ?_⟩
        intro found
        obtain ⟨other, stays, equal⟩ := List.mem_map.mp found
        apply apart
        rw [same, ← show other.id = id from equal]
        exact List.mem_map_of_mem (List.mem_filter.mp stays).1
    refine ⟨takes.distinct, ?_, ?_⟩
    · intro id given
      show t'.next < id
      rw [next]
      exact (each id given).1
    · rw [rows]
      exact fun id given => (each id given).2
  obtain ⟨whole, added, after, cells⟩ := addNews_spec dropped _ carried
  refine ⟨whole, added, ?_, ?_⟩
  · rw [after, rows]
  · rw [cells, flatten_filled]

end keep

section answers

variable {held : ByKey} {c : Changes} {t : Txn} {k : String}

/-- The rows an index makes, or holds made, are each key's newest. -/
theorem made_lookup (agrees : Agrees key held c) :
    (held.made key c.new).lookup k = newest key k (entries c.new) := by
  cases made : held.rows with
  | some rows =>
    rw [ByKey.made, made]
    exact agrees.rows rows made k
  | none =>
    rw [ByKey.made, made, Option.getD_none, indexes_lookup, entries_filled]
    exact Option.or_none

theorem own_agrees (agrees : Agrees key held c) (k : String) : Agrees key (held.own key k c.new).1 c where
  live := agrees.live
  gone := agrees.gone
  rows rows made other := by
    rw [← Option.some.inj made]
    exact made_lookup agrees

theorem own_eq (agrees : Agrees key held c) :
    (held.own key k c.new).2 =
      (((c.new.flatMap Batch.rows).reverse.find? fun row => keyText key row = k).map some).or
        (if k ∈ c.old.flatten.map (keyText key) then some none else none) := by
  simp only [ByKey.own, made_lookup agrees, newest_row]
  cases (c.new.flatMap Batch.rows).reverse.find? fun row => keyText key row = k with
  | some row => rfl
  | none => exact if_congr (agrees.gone k) rfl rfl

theorem kept_eq (agrees : Agrees key held c) (ks : List String) :
    held.kept ks = ks.map fun k =>
      if 0 < count key (c.new.flatMap Batch.rows) k then some true
      else if k ∈ c.old.flatten.map (keyText key) then some false
      else none := by
  rw [ByKey.kept]
  apply List.map_congr_left
  intro k _
  have live : (held.live.lookup k).isSome = true ↔ 0 < count key (c.new.flatMap Batch.rows) k := by
    rw [agrees.live, positive]
    split
    · rename_i zero
      rw [zero]
      exact ⟨fun is => (by cases is), fun less => absurd less (Nat.lt_irrefl 0)⟩
    · rename_i some_
      exact ⟨fun _ => Nat.pos_of_ne_zero some_, fun _ => rfl⟩
  exact if_congr live rfl (if_congr (agrees.gone k) rfl rfl)

end answers

theorem next_inv (t : Txn) (op : Op) (inv : Inv key t) (fits : Fits key t op) :
    Inv key (next key t op) := by
  cases op with
  | keep base old new => exact (keep_spec inv fits).1
  | own k => exact ⟨inv.kept, own_agrees inv.agrees k, inv.low, inv.marks⟩
  | elsewhere n =>
    have lower : t.next - n ≤ t.next := by omega
    refine ⟨inv.kept.later lower (Nat.le_refl _), inv.agrees, ?_, ?_⟩
    · exact Int.lt_of_le_of_lt lower inv.low
    · exact fun mark inside => (inv.marks mark inside).later lower (Nat.le_refl _)
  | savepoint name =>
    refine ⟨inv.kept, inv.agrees, inv.low, ?_⟩
    intro mark inside
    rcases List.mem_append.mp inside with was | new
    · exact inv.marks mark was
    · rw [List.mem_singleton.mp new]
      exact inv.kept
  | release name =>
    simp only [next]
    split
    · exact ⟨inv.kept, inv.agrees, inv.low, fun mark inside => inv.marks mark (List.mem_of_mem_take inside)⟩
    · exact inv
  | rollbackTo name =>
    simp only [next, Txn.rollbackTo]
    split
    · exact inv
    · split
      · exact inv
      · rename_i i _ mark held
        exact ⟨inv.marks mark (List.mem_of_getElem? held), of_agrees mark.kept, inv.low,
          fun mark inside => inv.marks mark (List.mem_of_mem_take inside)⟩

theorem begun_inv : Inv key .begun where
  kept := ⟨List.nodup_nil, nofun, nofun, List.nodup_nil, nofun⟩
  agrees := empty_agrees
  low := by decide
  marks := nofun

variable (key)

/-- The index answers as one worked out now from the rows kept, and tells the truth of them; and what a
statement keeps are the own rows it left and its new ones. -/
structure Holds (t : Txn) : Prop where
  kept : ∀ ks, t.held.kept ks = (ByKey.of key t.kept).kept ks
  own : ∀ k, (t.held.own key k t.kept.new).2 = ((ByKey.of key t.kept).own key k t.kept.new).2
  live : ∀ k, t.held.kept [k] = [some true] ↔ ∃ row ∈ t.rows, keyText key row = k
  gone : ∀ k, t.held.kept [k] = [some false] ↔ (¬ ∃ row ∈ t.rows, keyText key row = k) ∧
    ∃ row ∈ t.kept.old.flatten, keyText key row = k
  newest : ∀ k row, (t.held.own key k t.kept.new).2 = some (some row) ↔
    t.rows.reverse.find? (fun row => keyText key row = k) = some row
  taken : ∀ k, (t.held.own key k t.kept.new).2 = some none ↔ t.held.kept [k] = [some false]
  neither : ∀ k, (t.held.own key k t.kept.new).2 = none ↔ t.held.kept [k] = [none]
  left : ∀ base old new, Fits key t (.keep base old new) → ∃ added,
    (t.keep key old new).rows = dropRows t.rows ((ours old.flatten).map (·.id)) ++ added ∧
      added.map (·.cell) = new.flatten.map (·.cell)

variable {key}

theorem Inv.holds {t : Txn} (inv : Inv key t) : Holds key t := by
  have agrees := inv.agrees
  have unfound : ∀ k, (t.rows.reverse.find? fun row => keyText key row = k) = none ↔
      ¬ 0 < count key t.rows k := by
    intro k
    rw [count_pos]
    simp
  have kept : ∀ k, t.held.kept [k] = [if 0 < count key t.rows k then some true
      else if k ∈ t.kept.old.flatten.map (keyText key) then some false else none] :=
    fun k => kept_eq agrees [k]
  have own : ∀ k, (t.held.own key k t.kept.new).2 =
      ((t.rows.reverse.find? fun row => keyText key row = k).map some).or
        (if k ∈ t.kept.old.flatten.map (keyText key) then some none else none) :=
    fun k => own_eq agrees
  have asked : ∀ k, (t.held.own key k t.kept.new).2 = some none ↔ t.held.kept [k] = [some false] := by
    intro k
    rw [own, kept]
    cases found : t.rows.reverse.find? fun row => keyText key row = k with
    | some row =>
      have some_ : 0 < count key t.rows k := by
        by_contra none
        rw [(unfound k).mpr none] at found
        cases found
      simp [some_]
    | none =>
      rw [if_neg ((unfound k).mp found)]
      split <;> simp
  have missing : ∀ k, (t.held.own key k t.kept.new).2 = none ↔ t.held.kept [k] = [none] := by
    intro k
    rw [own, kept]
    cases found : t.rows.reverse.find? fun row => keyText key row = k with
    | some row =>
      have some_ : 0 < count key t.rows k := by
        by_contra none
        rw [(unfound k).mpr none] at found
        cases found
      simp [some_]
    | none =>
      rw [if_neg ((unfound k).mp found)]
      split <;> simp
  refine ⟨?_, ?_, ?_, ?_, ?_, asked, missing, fun base old new fits => (keep_spec inv fits).2⟩
  · intro ks
    rw [kept_eq agrees, kept_eq (of_agrees t.kept)]
  · intro k
    rw [own_eq agrees, own_eq (of_agrees t.kept)]
  · intro k
    rw [kept, ← count_pos]
    by_cases some_ : 0 < count key t.rows k
    · simp only [some_, if_true]
    · rw [if_neg some_]
      split <;> simp [some_]
  · intro k
    rw [kept, ← count_pos, ← List.mem_map]
    by_cases some_ : 0 < count key t.rows k
    · simp [some_]
    · by_cases gone : k ∈ t.kept.old.flatten.map (keyText key)
      · rw [if_neg some_, if_pos gone]
        exact ⟨fun _ => ⟨some_, gone⟩, fun _ => rfl⟩
      · rw [if_neg some_, if_neg gone]
        exact ⟨fun same => absurd (List.cons.inj same).1 nofun, fun both => absurd both.2 gone⟩
  · intro k row
    rw [own]
    cases t.rows.reverse.find? fun row => keyText key row = k with
    | some row' => simp
    | none =>
      split <;> simp

/-- After any statements, reads of own rows and savepoints of a transaction, the index holds. -/
theorem run_indexed (key : List String) (ops : List Op) (legal : (txn key).Legal .begun ops) :
    Holds key ((txn key).run .begun ops) :=
  ((txn key).run_invariant (Inv key) next_inv .begun ops begun_inv legal).holds

/-- Two own rows of one key in a batch, one replaced once its key was asked for, and a rollback. -/
def asked : List Op :=
  [.keep [] [] [[⟨none, fun _ => "a"⟩, ⟨none, fun _ => "a"⟩], [⟨none, fun _ => "b"⟩]], .own "a",
    .savepoint "s", .keep [] [[⟨-3, none, fun _ => "b"⟩]] [[⟨some (-3), fun _ => "b"⟩]], .own "b",
    .rollbackTo "s", .elsewhere 2]

theorem asked_indexed : Holds ["id"] ((txn ["id"]).run .begun asked) := by
  apply run_indexed
  refine ⟨⟨nofun, nofun, List.nodup_nil, nofun, List.nodup_nil⟩, trivial, trivial, ⟨nofun, ?_, ?_, ?_, ?_⟩,
    trivial, trivial, trivial, trivial⟩
  · intro row inside
    rw [List.mem_singleton.mp inside]
    exact List.mem_append_right _ (List.mem_of_getElem? (i := 2) rfl)
  · exact List.nodup_singleton _
  · intro id inside
    exact inside
  · exact List.nodup_singleton _

end Pondra.Txns.Index
