import Mathlib.Data.List.Nodup
import Mathlib.Data.List.TakeWhile
import Pondra.Iceberg.Steps

set_option autoImplicit false

namespace Pondra.Iceberg

/-! ### A commit's statements, all of them -/

/-- A table as its current schema has it. -/
structure Standing (t : Table) (was : List Field) : Prop where
  proper : t.Proper
  cols : t.cols = was.map colOf
  ids : ∀ w ∈ was, 0 ≤ w.id

variable (e : Engine) {t : Table} {was : List Field}

theorem Standing.nodup (standing : Standing t was) : (was.map (·.id)).Nodup := by
  have ids := standing.proper.ids
  rw [standing.cols, List.map_map] at ids
  apply List.Nodup.of_map Int.toNat
  rw [List.map_map]
  exact ids

theorem known_of {was : List Field} (ids : (was.map (·.id)).Nodup) {w f : Field} (inside : w ∈ was)
    (same : w.id = f.id) : known was f = some w := by
  unfold known
  induction was with
  | nil => cases inside
  | cons v rest ih =>
    rw [List.map_cons, List.nodup_cons] at ids
    rw [List.find?_cons]
    rcases List.mem_cons.mp inside with rfl | later
    · rw [decide_eq_true same]
    · have other : v.id ≠ f.id := by
        intro is
        apply ids.1
        rw [is, ← same]
        exact List.mem_map_of_mem later
      rw [decide_eq_false other]
      exact ih ids.2 later

theorem isKept_known {f : Field} : isKept was f = (known was f).isSome := by
  unfold isKept known
  rw [Bool.eq_iff_iff, List.any_eq_true, List.find?_isSome]

/-- The columns kept, in the order they were in. -/
theorem order_of (now : List Field) (order : inOrder was now = true) :
    (now.filter (isKept was)).map (·.id) = (kept was now).map (·.id) := by
  unfold inOrder at order
  rw [Bool.and_eq_true, beq_iff_eq] at order
  rw [order.1, List.filter_map]
  congr 1
  apply List.filter_congr
  intro w inside
  dsimp only [Function.comp]
  rw [Bool.eq_iff_iff, List.contains_iff_mem, List.mem_map, List.any_eq_true]
  constructor
  · rintro ⟨f, listed, same⟩
    exact ⟨f, (List.mem_filter.mp listed).1, decide_eq_true same⟩
  · rintro ⟨f, listed, same⟩
    have is := of_decide_eq_true same
    exact ⟨f, List.mem_filter.mpr ⟨listed, List.any_eq_true.mpr ⟨w, inside, decide_eq_true is.symm⟩⟩, is⟩

/-- The properties' statement leaves the columns. -/
theorem run_properties (t : Table) (updates : List Update) :
    (t.run e (propertiesSql updates)).2 = propertiesOk e updates ∧
      (t.run e (propertiesSql updates)).1.cols = t.cols ∧
      (propertiesOk e updates = false → t.run e (propertiesSql updates) = (t, false)) := by
  unfold propertiesOk propertiesSql
  dsimp only
  split
  · exact ⟨rfl, rfl, fun no => by cases no⟩
  · generalize (updates.flatMap _ : List (String × String)) = set
    have step : t.alter e (.set set) =
        if e.sets set then some { t with properties := t.properties ++ set } else none := rfl
    rw [Table.run, step]
    simp only [List.all_cons, List.all_nil, Bool.and_true]
    cases e.sets set with
    | false => exact ⟨rfl, rfl, fun _ => rfl⟩
    | true => exact ⟨rfl, rfl, fun no => by cases no⟩

/-- All statements are taken where each is, and then the columns kept come first, then those added. -/
theorem run_all (standing : Standing t was) (now : List Field) (order : inOrder was now = true)
    (updates : List Update) :
    (t.run e (commitSql was now ++ propertiesSql updates)).2 = allOk e t was now updates ∧
      ((t.run e (commitSql was now ++ propertiesSql updates)).2 = true → ∃ news : List Col,
        (t.run e (commitSql was now ++ propertiesSql updates)).1.cols =
          (now.filter (isKept was)).map colOf ++ news ∧
        news.map (fun c => (c.name, c.type)) =
          (now.filter fun f => !isKept was f).map fun f => (f.name, f.type)) := by
  have length : t.cols.length = was.length := by rw [standing.cols, List.length_map]
  obtain ⟨dropped, left⟩ := run_drops e (fun w => !now.any fun f => f.id = w.id) [] was standing.proper
    standing.cols
  have same : (was.filter fun w => !!now.any fun f => f.id = w.id) = kept was now := by
    unfold kept
    simp only [Bool.not_not]
  rw [List.nil_append, same] at left
  rw [length] at dropped
  obtain ⟨proper, follows⟩ := standing.proper.run (e := e) ((gone was now).map fun w => .drop (quoted w.name))
  unfold allOk commitSql
  rw [List.append_assoc, Table.run_append]
  unfold gone at proper follows ⊢
  generalize t.run e ((was.filter fun w => !now.any fun f => f.id = w.id).map fun w => .drop (quoted w.name)) =
    r at dropped left proper follows ⊢
  cases ok : dropsOk t was.length (was.filter fun w => !now.any fun f => f.id = w.id) with
  | false =>
    rw [ok] at dropped
    rw [dropped, if_neg Bool.false_ne_true, dropped]
    exact ⟨rfl, fun no => by cases no⟩
  | true =>
    rw [ok] at dropped
    have cols : r.1.cols = [] ++ (kept was now).map colOf ++ [] := by
      rw [left dropped, List.nil_append, List.append_nil]
    have walked := run_fields e was now proper cols (order_of now order) (by
      intro w inside f id
      exact known_of standing.nodup (List.mem_of_mem_filter inside) id)
      (show ∀ n, n ∈ ([] : List String) ↔ n ∈ (([] : List Col) ++ []).map (fun c : Col => c.name) from fun _ => Iff.rfl)
    rw [dropped, if_pos rfl, Table.run_append]
    generalize r.1.run e (now.flatMap (statements was)) = r' at walked ⊢
    have taken := walked.ok
    rw [fieldsOk_congr follows.readers] at taken
    cases fields : fieldsOk e t was [] (kept was now) now with
    | false =>
      rw [fields] at taken
      rw [taken, if_neg Bool.false_ne_true, taken]
      exact ⟨rfl, fun no => by cases no⟩
    | true =>
      rw [fields] at taken
      obtain ⟨properties, unchanged, _⟩ := run_properties e r'.1 updates
      obtain ⟨news, is, types⟩ := walked.cols taken
      rw [taken, if_pos rfl, properties, unchanged, is]
      refine ⟨rfl, fun _ => ⟨news, ?_, types⟩⟩
      rw [List.append_nil, List.nil_append]

/-! ### The first statement -/

theorem not_changed {now : List Field} (same : ∀ f ∈ now, changes was f = false) :
    now.flatMap (statements was) = [] ∧ now.filter (isKept was) = now := by
  have each : ∀ f ∈ now, statements was f = [] ∧ isKept was f = true := by
    intro f inside
    have unchanged := same f inside
    unfold changes at unchanged
    rw [isKept_known]
    unfold statements
    cases is : known was f with
    | none =>
      rw [is] at unchanged
      cases unchanged
    | some w =>
      rw [is] at unchanged
      rw [Bool.or_eq_false_iff, decide_eq_false_iff_not, decide_eq_false_iff_not] at unchanged
      dsimp only
      rw [if_neg unchanged.1, if_neg unchanged.2]
      exact ⟨rfl, rfl⟩
  constructor
  · rw [List.flatMap_eq_nil_iff]
    exact fun f inside => (each f inside).1
  · exact List.filter_eq_self.mpr fun f inside => (each f inside).2

theorem listed_names (cols : t.cols = was.map colOf) (n : String) :
    n ∈ was.map (·.name) ↔ n ∈ t.cols.map (·.name) := by
  rw [cols, List.map_map]
  exact Iff.rfl

/-- A field's first statement is refused where its first change is. -/
theorem first_refused (standing : Standing t was) {f : Field} (changed : changes was f = true)
    (refused : firstOfField e t was f = false) (more : List Statement) :
    t.run e (statements was f ++ more) = (t, false) := by
  have listed := listed_names standing.cols
  unfold firstOfField at refused
  unfold changes at changed
  unfold statements
  cases is : known was f with
  | none =>
    rw [is] at refused
    dsimp only at refused
    have step := Table.alter_add e (f := f) _ listed
    rw [refused, if_neg Bool.false_ne_true] at step
    dsimp only
    rw [List.singleton_append, Table.run, step]
  | some w =>
    rw [is] at refused changed
    dsimp only at refused changed ⊢
    have inside : colOf w ∈ t.cols := by
      rw [standing.cols]
      exact List.mem_map_of_mem (List.mem_of_find?_eq_some is)
    by_cases name : w.name = f.name
    · have none_ : ¬w.name ≠ f.name := fun ne => ne name
      rw [decide_eq_false none_, Bool.false_or, decide_eq_true_iff] at changed
      rw [if_neg none_] at refused
      have step := standing.proper.alter_retype e (w := w) (f := f) inside (by rw [colOf, name])
      rw [refused, if_neg Bool.false_ne_true] at step
      rw [if_neg none_, if_pos changed, List.nil_append, List.singleton_append, Table.run, step]
    · rw [if_pos name] at refused
      have step := standing.proper.alter_rename e (w := w) (f := f) inside rfl _ listed
      rw [refused, if_neg Bool.false_ne_true] at step
      rw [if_pos name, List.append_assoc, List.singleton_append, Table.run, step]

/-- No column is lost but by a `DROP`. -/
theorem run_longer (stmts : List Statement) (adds : ∀ s ∈ stmts, ∀ column, s ≠ .drop column) (t : Table) :
    t.cols.length ≤ (t.run e stmts).1.cols.length := by
  induction stmts generalizing t with
  | nil => exact Nat.le_refl _
  | cons s rest ih =>
    have others := ih fun s inside => adds s (List.mem_cons_of_mem _ inside)
    unfold Table.run
    cases is : t.alter e s with
    | none => exact Nat.le_refl _
    | some t' =>
      apply Nat.le_trans _ (others t')
      cases s with
      | drop column => exact absurd rfl (adds _ List.mem_cons_self column)
      | rename column to_ =>
        obtain ⟨c, _, is⟩ := Option.bind_eq_some_iff.mp is
        obtain ⟨name, _, is⟩ := Option.bind_eq_some_iff.mp is
        split at is
        · cases is
        · cases is
          exact Nat.le_of_eq (List.length_map _).symm
      | retype column type =>
        obtain ⟨c, _, is⟩ := Option.bind_eq_some_iff.mp is
        split at is
        · cases is
          exact Nat.le_of_eq (List.length_map _).symm
        · cases is
      | add column type =>
        obtain ⟨name, _, is⟩ := Option.bind_eq_some_iff.mp is
        split at is
        · cases is
        · cases is
          exact (List.prefix_append _ _).length_le
      | set properties =>
        have set_ : t.alter e (.set properties) =
          if e.sets properties then some { t with properties := t.properties ++ properties } else none := rfl
        rw [set_] at is
        split at is
        · cases is
          exact Nat.le_refl _
        · cases is

theorem statements_keep (f : Field) : ∀ s ∈ statements was f, ∀ column, s ≠ .drop column := by
  intro s inside column same
  subst same
  unfold statements at inside
  split at inside
  · rcases List.mem_append.mp inside with first | second
    · split at first
      · cases List.mem_singleton.mp first
      · cases first
    · split at second
      · cases List.mem_singleton.mp second
      · cases second
  · cases List.mem_singleton.mp inside

theorem properties_keep (updates : List Update) : ∀ s ∈ propertiesSql updates, ∀ column, s ≠ .drop column := by
  intro s inside column same
  subst same
  unfold propertiesSql at inside
  dsimp only at inside
  split at inside
  · cases inside
  · cases List.mem_singleton.mp inside

/-- A field's first statement taken, the table is not what it was, whatever comes after. -/
theorem first_taken (standing : Standing t was) {pre post : List Field} {f : Field}
    (same : ∀ g ∈ pre, changes was g = false) (changed : changes was f = true)
    (order : ((pre ++ f :: post).filter (isKept was)).map (·.id) = was.map (·.id))
    (taken : firstOfField e t was f = true) (updates : List Update) :
    (t.run e (statements was f ++ (post.flatMap (statements was) ++ propertiesSql updates))).1 ≠ t := by
  have listed := listed_names standing.cols
  unfold firstOfField at taken
  cases is : known was f with
  | none =>
    rw [is] at taken
    dsimp only at taken
    have step := Table.alter_add e (f := f) _ listed
    rw [taken, if_pos rfl] at step
    have longer := run_longer e (post.flatMap (statements was) ++ propertiesSql updates) (by
      intro s inside
      rcases List.mem_append.mp inside with first | second
      · obtain ⟨g, _, own⟩ := List.mem_flatMap.mp first
        exact statements_keep g s own
      · exact properties_keep updates s second) (t.addColumn f.name f.type)
    have sql : statements was f = [.add (quoted f.name) f.type] := by
      unfold statements
      rw [is]
    rw [sql, List.singleton_append, Table.run, step]
    intro eq
    have shorter := congrArg (fun t : Table => t.cols.length) eq
    dsimp only at shorter
    rw [shorter] at longer
    unfold Table.addColumn at longer
    rw [List.length_append, List.length_singleton] at longer
    omega
  | some w =>
    rw [is] at taken
    have inside := List.mem_of_find?_eq_some is
    have id : w.id = f.id := by
      have found := is
      unfold known at found
      have matches_ := List.find?_some found
      exact of_decide_eq_true matches_
    obtain ⟨a, b, split_⟩ := List.append_of_mem inside
    have nodup := standing.nodup
    have place : t.cols = a.map colOf ++ colOf w :: b.map colOf := by
      rw [standing.cols, split_, List.map_append, List.map_cons]
    obtain ⟨t', c, changed_, all, some_⟩ := run_known e was id is standing.proper place _ listed
      (post.flatMap (statements was) ++ propertiesSql updates)
    -- the columns kept after this one are those still to come
    have old : isKept was f = true := by
      rw [isKept_known, is]
      rfl
    have rest : (post.filter (isKept was)).map (·.id) = b.map (·.id) := by
      have unmoved := (not_changed same).2
      have mapped : was.map (·.id) = a.map (·.id) ++ w.id :: b.map (·.id) := by
        rw [split_, List.map_append, List.map_cons]
      rw [List.filter_append, unmoved, List.filter_cons_of_pos old, List.map_append, List.map_cons,
        mapped, ← id] at order
      rw [mapped] at nodup
      have own : (pre.map (·.id) ++ w.id :: (post.filter (isKept was)).map (·.id)).Nodup := by
        rw [order]
        exact nodup
      have apart := List.nodup_middle.mp own
      rw [List.nodup_cons, List.mem_append, not_or] at apart
      exact ((List.append_cons_inj_of_notMem apart.1.1 apart.1.2).mp order).2.2
    have first : (a.map colOf ++ [c]) <+:
        (t.run e (statements was f ++ (post.flatMap (statements was) ++ propertiesSql updates))).1.cols := by
      cases ok : fieldOk e t was (was.map (·.name)) f with
      | false =>
        rw [some_ ok]
        dsimp only
        rw [changed_.cols]
        exact ⟨b.map colOf, by rw [List.append_assoc, List.singleton_append]⟩
      | true =>
        obtain ⟨own, run⟩ := all ok
        have cols : t'.cols = (a.map colOf ++ [c]) ++ b.map colOf ++ [] := by
          rw [changed_.cols, List.append_nil, List.append_assoc, List.singleton_append]
        have walked := run_fields e was post changed_.proper cols rest (by
          intro v later g same
          apply known_of nodup _ same
          rw [split_]
          exact List.mem_append_right _ (List.mem_cons_of_mem _ later)) (fun _ => Iff.rfl)
        rw [run, Table.run_append]
        split
        · rw [(run_properties e _ updates).2.1]
          exact walked.first
        · exact walked.first
    have other : c ≠ colOf w := by
      intro eq
      dsimp only at taken
      by_cases name : w.name = f.name
      · have none_ : ¬w.name ≠ f.name := fun ne => ne name
        unfold changes at changed
        rw [is] at changed
        dsimp only at changed
        rw [decide_eq_false none_, Bool.false_or, decide_eq_true_iff] at changed
        rw [if_neg none_] at taken
        have type := changed_.retyped name changed taken
        rw [eq] at type
        exact changed type
      · rw [if_pos name] at taken
        have new := changed_.renamed name taken
        rw [eq] at new
        exact name new
    intro eq
    rw [eq, place] at first
    obtain ⟨more, is⟩ := first
    rw [List.append_assoc, List.append_cancel_left_eq, List.singleton_append, List.cons.injEq] at is
    exact other is.1

/-- The table is as it was where the first change is refused, and not otherwise where one is. -/
theorem run_first (standing : Standing t was) (now : List Field) (order : inOrder was now = true)
    (updates : List Update) :
    (firstOk e t was now updates = false → t.run e (commitSql was now ++ propertiesSql updates) = (t, false)) ∧
      (firstOk e t was now updates = true →
        (t.run e (commitSql was now ++ propertiesSql updates)).2 = false →
        (t.run e (commitSql was now ++ propertiesSql updates)).1 ≠ t) := by
  have length : t.cols.length = was.length := by rw [standing.cols, List.length_map]
  have ordered := order_of now order
  unfold firstOk commitSql
  cases gone_ : gone was now with
  | cons w rest =>
    have inside : w ∈ was := by
      have listed : w ∈ gone was now := by
        rw [gone_]
        exact List.mem_cons_self
      exact (List.mem_filter.mp listed).1
    have member : colOf w ∈ t.cols := by
      rw [standing.cols]
      exact List.mem_map_of_mem inside
    have step := standing.proper.alter_drop e (w := w) member rfl rfl
    rw [length] at step
    dsimp only
    rw [List.map_cons, List.cons_append, List.cons_append, Table.run, step]
    cases ok : dropOk t was.length w with
    | false => exact ⟨fun _ => rfl, fun no => (by cases no)⟩
    | true =>
      refine ⟨fun no => (by cases no), fun _ _ eq => ?_⟩
      rw [if_pos rfl] at eq
      dsimp only at eq
      obtain ⟨proper, follows⟩ := standing.proper.dropColumn (colOf w)
      have later := (proper.run (e := e) (rest.map (fun w => .drop (quoted w.name)) ++
        now.flatMap (statements was) ++ propertiesSql updates)).2
      rw [eq] at later
      rcases later.ids (colOf w) member with old | new
      · obtain ⟨d, left, same⟩ := List.mem_map.mp old
        have gone := (List.mem_filter.mp left).2
        rw [same] at gone
        exact absurd rfl (of_decide_eq_true gone)
      · have below := standing.proper.below (colOf w) member
        have next := follows.next
        omega
  | nil =>
    have all : kept was now = was := by
      apply List.filter_eq_self.mpr
      intro w inside
      cases left : now.any fun f => decide (f.id = w.id) with
      | true => rfl
      | false =>
        have listed : w ∈ gone was now := List.mem_filter.mpr ⟨inside, by rw [left]; rfl⟩
        rw [gone_] at listed
        cases listed
    rw [all] at ordered
    dsimp only
    rw [List.map_nil, List.nil_append]
    cases found : now.find? (changes was) with
    | some f =>
      obtain ⟨changed, pre, post, split_, same⟩ := List.find?_eq_some_iff_append.mp found
      have unchanged : ∀ g ∈ pre, changes was g = false := by
        intro g inside
        exact (Bool.not_eq_true' _).mp (same g inside)
      have sql : now.flatMap (statements was) ++ propertiesSql updates =
          statements was f ++ (post.flatMap (statements was) ++ propertiesSql updates) := by
        rw [split_, List.flatMap_append, (not_changed unchanged).1, List.nil_append, List.flatMap_cons,
          List.append_assoc]
      rw [split_] at ordered
      rw [sql]
      dsimp only
      constructor
      · intro refused
        exact first_refused e standing changed refused _
      · intro taken _
        exact first_taken e standing unchanged changed ordered taken updates
    | none =>
      have none_ : ∀ f ∈ now, changes was f = false := by
        intro f inside
        exact (Bool.not_eq_true _).mp (List.find?_eq_none.mp found f inside)
      obtain ⟨taken, _, refused⟩ := run_properties e t updates
      rw [(not_changed none_).1, List.nil_append]
      refine ⟨refused, fun ok no => ?_⟩
      rw [taken] at no
      dsimp only at ok
      rw [no] at ok
      cases ok

/-! ### The schema asked for -/

/-- A commit that was refused left the table as it was; one that was taken gave the schema asked for,
its names and types in its order, with every column kept still its own. -/
structure Right (t : Table) (m : Meta) (asked : Commit) (r : Table × Bool) : Prop where
  refused : r.2 = false → r.1 = t
  done : r.2 = true → ∀ old new, m.current = some old → added asked.updates none = .ok (some new) →
    r.1.cols.map (fun c => (c.name, c.type)) = new.fields.map (fun f => (f.name, f.type)) ∧
      ∀ (p : Nat) (c : Col) (f : Field), r.1.cols[p]? = some c → new.fields[p]? = some f →
        isKept old.fields f = true → (c.id : Int) = f.id

/-- A commit is refused, or its first statement is; or all its statements are taken, and no column kept
comes after one added. -/
def Meets (e : Engine) (t : Table) (m : Meta) (asked : Commit) : Prop :=
  requirements m asked = false ∨ ∀ old new, m.current = some old → added asked.updates none = .ok (some new) →
    answered old new = false ∨ firstOk e t old.fields new.fields asked.updates = false ∨
      (allOk e t old.fields new.fields asked.updates = true ∧ addedLast old.fields new.fields = true)

theorem dropWhile_kept (P : Field → Bool) (now : List Field) (last : (now.dropWhile P).all fun f => !P f) :
    now.filter P ++ (now.filter fun f => !P f) = now := by
  have split_ := List.takeWhile_append_dropWhile (p := P) (l := now)
  have first : ∀ f ∈ now.takeWhile P, P f = true := fun f inside =>
    List.all_eq_true.mp List.all_takeWhile f inside
  have second : ∀ f ∈ now.dropWhile P, P f = false := fun f inside =>
    (Bool.not_eq_true' _).mp (List.all_eq_true.mp last f inside)
  generalize now.takeWhile P = a at split_ first
  generalize now.dropWhile P = b at split_ second
  subst split_
  have none_ : b.filter P = [] := List.filter_eq_nil_iff.mpr fun f inside no => by
    rw [second f inside] at no
    cases no
  have nothing : (a.filter fun f => !P f) = [] := List.filter_eq_nil_iff.mpr fun f inside no => by
    rw [first f inside] at no
    cases no
  have kept_ : a.filter P = a := List.filter_eq_self.mpr first
  have fresh : (b.filter fun f => !P f) = b := List.filter_eq_self.mpr fun f inside => by
    rw [second f inside]
    rfl
  rw [List.filter_append, List.filter_append, none_, nothing, kept_, fresh, List.append_nil, List.nil_append]

theorem eq_of_names {a b : List Field} (inside : ∀ f ∈ a, f ∈ b) (names : (b.map (·.name)).Nodup)
    (same : a.map (·.name) = b.map (·.name)) : a = b := by
  have length := congrArg List.length same
  rw [List.length_map, List.length_map] at length
  apply List.ext_getElem length
  intro i first second
  have at_i := List.getElem_of_eq same (by rw [List.length_map]; exact first)
  rw [List.getElem_map, List.getElem_map] at at_i
  exact List.inj_on_of_nodup_map names (inside _ (List.getElem_mem first)) (List.getElem_mem second) at_i

/-- Columns kept before columns added are a schema's just where none kept comes after one added. -/
theorem parts_iff (P : Field → Bool) (now : List Field) (names : (now.map (·.name)).Nodup) :
    (now.filter P ++ (now.filter fun f => !P f)).map (fun f => (f.name, f.type)) =
        now.map (fun f => (f.name, f.type)) ↔ ((now.dropWhile P).all fun f => !P f) = true := by
  constructor
  · intro same
    have named := congrArg (List.map Prod.fst) same
    rw [List.map_map, List.map_map] at named
    have whole : now.filter P ++ (now.filter fun f => !P f) = now := by
      apply eq_of_names _ names named
      intro f inside
      rcases List.mem_append.mp inside with first | second
      · exact List.mem_of_mem_filter first
      · exact List.mem_of_mem_filter second
    have gone : (now.filter P).dropWhile P = [] :=
      List.dropWhile_eq_nil_iff.mpr fun f inside => (List.mem_filter.mp inside).2
    rw [← whole, List.dropWhile_append, gone, if_pos List.isEmpty_nil]
    apply List.all_eq_true.mpr
    intro f inside
    have listed := (List.dropWhile_sublist _).subset inside
    exact (List.mem_filter.mp listed).2
  · intro last
    rw [dropWhile_kept P now last]

/-- A commit that changes the schema gives the schema asked for, or changes nothing, just where it is
refused at once, or all its statements are taken and the columns added come last. -/
theorem update_exact (e : Engine) (t : Table) (m : Meta) (asked : Commit)
    (standing : ∀ old, m.current = some old → Standing t old.fields)
    (schema : asked.updates.any Update.addsSchema = true) :
    Right t m asked (update e t m asked) ↔ Meets e t m asked := by
  have refusal : Right t m asked (t, false) := ⟨fun _ => rfl, fun no => by cases no⟩
  unfold update Meets
  cases stands : requirements m asked with
  | false =>
    rw [if_neg Bool.false_ne_true]
    exact ⟨fun _ => .inl rfl, fun _ => refusal⟩
  | true =>
    rw [if_pos rfl, if_pos schema]
    -- without a schema of its own, or the table's, the commit is refused
    have missing : (∀ old new, ¬(m.current = some old ∧ added asked.updates none = .ok (some new))) →
        ∃ text, schemaSql m asked = .error text := by
      intro none_
      unfold schemaSql
      cases adds : added asked.updates none with
      | error text => exact ⟨text, rfl⟩
      | ok new =>
        cases new with
        | none => exact ⟨_, rfl⟩
        | some new =>
          cases current : m.current with
          | none => exact ⟨_, rfl⟩
          | some old => exact absurd ⟨current, adds⟩ (none_ old new)
    by_cases both : ∃ old new, m.current = some old ∧ added asked.updates none = .ok (some new)
    · obtain ⟨old, new, current, adds⟩ := both
      obtain ⟨taken, refused⟩ := schemaSql_eq adds current
      have stood := standing old current
      have only : (∀ old' new', m.current = some old' → added asked.updates none = .ok (some new') →
          answered old' new' = false ∨ firstOk e t old'.fields new'.fields asked.updates = false ∨
            (allOk e t old'.fields new'.fields asked.updates = true ∧
              addedLast old'.fields new'.fields = true)) ↔
          (answered old new = false ∨ firstOk e t old.fields new.fields asked.updates = false ∨
            (allOk e t old.fields new.fields asked.updates = true ∧ addedLast old.fields new.fields = true)) := by
        constructor
        · intro each
          exact each old new current adds
        · intro one old' new' current' adds'
          rw [current] at current'
          rw [adds] at adds'
          cases current'
          cases adds'
          exact one
      rw [only]
      cases answers : answered old new with
      | false =>
        obtain ⟨text, error⟩ := refused answers
        rw [error]
        exact ⟨fun _ => .inr (.inl rfl), fun _ => refusal⟩
      | true =>
        rw [taken answers]
        dsimp only
        have order : inOrder old.fields new.fields = true := by
          unfold answered at answers
          rw [Bool.and_eq_true, Bool.and_eq_true] at answers
          exact answers.1.2
        obtain ⟨all, cols⟩ := run_all e stood new.fields order asked.updates
        obtain ⟨atOnce, later⟩ := run_first e stood new.fields order asked.updates
        have proper := (stood.proper.run (e := e)
          (commitSql old.fields new.fields ++ propertiesSql asked.updates)).1
        generalize t.run e (commitSql old.fields new.fields ++ propertiesSql asked.updates) = r at *
        have shape : r.2 = true → r.1.cols.map (fun c => (c.name, c.type)) =
            (new.fields.filter (isKept old.fields) ++
              (new.fields.filter fun f => !isKept old.fields f)).map (fun f => (f.name, f.type)) := by
          intro ok
          obtain ⟨news, is, types⟩ := cols ok
          rw [is, List.map_append, List.map_append, types, List.map_map]
          rfl
        constructor
        · intro right
          right
          right
          cases ok : r.2 with
          | false =>
            left
            cases first : firstOk e t old.fields new.fields asked.updates with
            | false => rfl
            | true => exact absurd (right.refused ok) (later first ok)
          | true =>
            right
            have asked_ := (right.done ok old new current adds).1
            have named : new.fields.map (·.name) = r.1.cols.map (·.name) := by
              have names := congrArg (List.map Prod.fst) asked_
              rw [List.map_map, List.map_map] at names
              exact names.symm
            have distinct := proper.names
            rw [← named] at distinct
            rw [shape ok] at asked_
            rw [ok] at all
            exact ⟨all.symm, (parts_iff (isKept old.fields) new.fields distinct).mp asked_⟩
        · rintro (no | no | first | ⟨ok, last⟩)
          · cases no
          · cases no
          · rw [atOnce first]
            exact refusal
          · rw [ok] at all
            refine ⟨fun no => ?_, fun _ old' new' current' adds' => ?_⟩
            · rw [all] at no
              cases no
            · rw [current] at current'
              rw [adds] at adds'
              cases current'
              cases adds'
              obtain ⟨news, is, _⟩ := cols all
              have whole := dropWhile_kept (isKept old.fields) new.fields last
              constructor
              · rw [shape all, whole]
              · intro p c f here asks kept_
                rw [is] at here
                rw [← whole] at asks
                have short : p < (new.fields.filter (isKept old.fields)).length := by
                  rcases Nat.lt_or_ge p (new.fields.filter (isKept old.fields)).length with short | long
                  · exact short
                  · rw [List.getElem?_append_right long] at asks
                    have fresh := (List.mem_filter.mp (List.mem_of_getElem? asks)).2
                    rw [kept_] at fresh
                    cases fresh
                rw [List.getElem?_append_left short] at asks
                rw [List.getElem?_append_left (by rw [List.length_map]; exact short), List.getElem?_map, asks] at here
                obtain rfl := Option.some.inj here
                obtain ⟨w, inside, same⟩ := List.any_eq_true.mp kept_
                have positive := stood.ids w inside
                rw [of_decide_eq_true same] at positive
                exact Int.toNat_of_nonneg positive
    · have each : ∀ old new, ¬(m.current = some old ∧ added asked.updates none = .ok (some new)) :=
        fun old new here => both ⟨old, new, here⟩
      obtain ⟨text, error⟩ := missing each
      rw [error]
      exact ⟨fun _ => .inr fun old new current adds => absurd ⟨current, adds⟩ (each old new), fun _ => refusal⟩

/-! ### Commits -/

def plain (id : Int) (name : String) : Field := ⟨id, name, .named "int", false⟩

def three : List Field := [plain 1 "a", plain 2 "b", plain 3 "c"]

def threeTable : Table := ⟨three.map colOf, 4, [], false, []⟩

def threeMeta : Meta := ⟨"u", 0, 3, none, [⟨0, three, []⟩]⟩

/-- Any wider type, new column and property are taken. -/
def easy : Engine := ⟨fun _ _ => true, fun _ _ => true, fun _ => true⟩

def commitTo (fields : List Field) : Commit :=
  ⟨[.tableUuid "u", .currentSchemaId 0], [.addSchema ⟨1, fields, []⟩, .setCurrentSchema]⟩

theorem three_standing : ∀ old, threeMeta.current = some old → Standing threeTable old.fields := by
  intro old is
  obtain rfl := Option.some.inj is
  refine ⟨⟨by decide +kernel, by decide +kernel, by decide +kernel⟩, rfl, by decide +kernel⟩

/-- A column renamed to the name of one that is dropped, and one added after them. -/
theorem renamed_right : Right threeTable threeMeta (commitTo [plain 1 "a", plain 2 "c", plain 9 "b"])
    (update easy threeTable threeMeta (commitTo [plain 1 "a", plain 2 "c", plain 9 "b"])) := by
  apply (update_exact easy threeTable threeMeta _ three_standing (by decide +kernel)).mpr
  right
  intro old new current adds
  obtain rfl := Option.some.inj current
  obtain rfl := Option.some.inj (Except.ok.inj adds)
  right
  right
  decide +kernel

/-- Two names swapped while a column is dropped: it is dropped, and then the commit is refused. And a
column added between others comes after them. -/
theorem swapped_wrong :
    ¬Right threeTable threeMeta (commitTo [plain 1 "b", plain 2 "a"])
        (update easy threeTable threeMeta (commitTo [plain 1 "b", plain 2 "a"])) ∧
      ¬Right threeTable threeMeta (commitTo [plain 1 "a", plain 9 "x", plain 2 "b", plain 3 "c"])
        (update easy threeTable threeMeta (commitTo [plain 1 "a", plain 9 "x", plain 2 "b", plain 3 "c"])) := by
  constructor
  · intro right
    have same := right.refused (by decide +kernel)
    revert same
    decide +kernel
  · intro right
    have asked := (right.done (by decide +kernel) _ _ rfl rfl).1
    revert asked
    decide +kernel

end Pondra.Iceberg
