import Pondra.Base.Dict
import Pondra.Change.Taken

set_option autoImplicit false

namespace Pondra.Change

variable {V : Type} (sql : Sql V)

/-! ### When a condition holds -/

section conditions

variable (called : String) (sc : Scope V)

theorem holds_and (l r : Expr V) :
    (Expr.and l r).holds sql called sc = (l.holds sql called sc && r.holds sql called sc) := by
  have truth : ∀ x : Option Bool, (x.map sql.ofBool).bind sql.truth = x := by
    rintro (_ | b)
    · rfl
    · exact sql.truth_ofBool b
  rw [Expr.holds, Expr.eval, truth, Expr.holds, Expr.holds]
  rcases (l.eval sql called sc).bind sql.truth with _ | _ | _ <;>
    rcases (r.eval sql called sc).bind sql.truth with _ | _ | _ <;> rfl

theorem holds_eq (l r : Expr V) :
    (Expr.eq l r).holds sql called sc = true ↔
      ∃ v w, l.eval sql called sc = some v ∧ r.eval sql called sc = some w ∧ sql.same v w = true := by
  rw [Expr.holds, Expr.eval]
  rcases l.eval sql called sc with _ | v <;> rcases r.eval sql called sc with _ | w
  all_goals simp [sql.truth_ofBool]

/-- An ON holds where each term that AND joins holds. -/
theorem holds_conjuncts (e : Expr V) :
    e.holds sql called sc = e.conjuncts.all fun c => c.holds sql called sc := by
  induction e with
  | and l r left right => rw [holds_and, left, right, Expr.conjuncts, List.all_append]
  | nested e ih => exact ih
  | name q c => simp [Expr.conjuncts]
  | eq l r => simp [Expr.conjuncts]
  | other value => simp [Expr.conjuncts]

theorem holds_conjunction (first : Expr V) (others : List (Expr V)) :
    (conjunction (first :: others)).holds sql called sc =
      (first :: others).all fun c => c.holds sql called sc := by
  rw [conjunction]
  induction others generalizing first with
  | nil => simp
  | cons e rest ih =>
    rw [List.foldl_cons, ih, List.all_cons, List.all_cons, List.all_cons, holds_and, Bool.and_assoc]

end conditions

/-! ### Rows with the table's types -/

/-- The row's values have the types of the table's columns. -/
def Meta.Typed (table : Meta V) (cols : String → Option V) : Prop :=
  ∀ c v, cols c = some v → table.columns.lookup c = some (sql.typeOf v)

theorem cast_self (v : V) : sql.cast (sql.typeOf v) v = v :=
  ((sql.compared (sql.typeOf v) v v rfl (by simp [sameKeyType])).mp (sql.same_self v)).symm

/-- Values of one column are the same where they are one value. -/
theorem same_typed (v w : V) (types : sql.typeOf v = sql.typeOf w) :
    sql.same v w = true ↔ v = w := by
  rw [sql.compared (sql.typeOf w) w v types (by simp [sameKeyType]), cast_self]

variable (table : Meta V) (m : Merge V)

/-! ### The terms of an ON on the key -/

/-- The two columns are equal, neither NULL. -/
def Meets (t : Target V) (s : Source V) (k : String) (column : String × String) : Prop :=
  ∃ v w, t.cols k = some v ∧ s column.1 column.2 = some w ∧ sql.same v w = true

theorem qualified_eval (called : String) (sc : Scope V) (e : Expr V) (column : String × String)
    (named : e.qualified = some column) :
    e.eval sql called sc = sc.value called column.1 column.2 := by
  cases e <;> simp [Expr.qualified] at named
  subst named
  rfl

theorem value_target (t : Target V) (s : Source V) (called k : String) :
    (⟨some t, some s⟩ : Scope V).value called called k = t.cols k := by
  simp [Scope.value]

theorem value_source (target : Option (Target V)) (s : Source V) (called : String)
    (column : String × String) (other : column.1 ≠ called) :
    (⟨target, some s⟩ : Scope V).value called column.1 column.2 = s column.1 column.2 := by
  simp [Scope.value, other]

/-- A term that `keySources` takes compares a key column with a column of the source. -/
theorem term_spec (e : Expr V) (k : String) (column : String × String)
    (found : m.term table e = some (k, column)) :
    k ∈ table.key ∧ column.1 ≠ m.called ∧ ∀ t s,
      e.holds sql m.called ⟨some t, some s⟩ = true ↔ Meets sql t s k column := by
  cases e with
  | eq left right =>
    have sides : ∀ l r : Expr V, (l.qualified.bind fun name => r.qualified.bind fun source =>
          if name.1 = m.called ∧ name.2 ∈ table.key ∧ source.1 ≠ m.called then
            some (name.2, source) else none) = some (k, column) →
        l.qualified = some (m.called, k) ∧ r.qualified = some column ∧ k ∈ table.key ∧
          column.1 ≠ m.called := by
      intro l r both
      cases named : l.qualified with
      | none => simp [named] at both
      | some name =>
        cases source : r.qualified with
        | none => simp [named, source] at both
        | some other =>
          obtain ⟨q, c⟩ := name
          simp only [named, source, Option.bind_some] at both
          split at both
          · rename_i fine
            obtain ⟨rfl, inside, apart⟩ := fine
            cases both
            exact ⟨rfl, rfl, inside, apart⟩
          · cases both
    have meets : ∀ l r : Expr V, l.qualified = some (m.called, k) → r.qualified = some column →
        column.1 ≠ m.called → ∀ t s,
        (Expr.eq l r).holds sql m.called ⟨some t, some s⟩ = true ↔ Meets sql t s k column := by
      intro l r named source apart t s
      rw [holds_eq, qualified_eval sql m.called _ l _ named,
        qualified_eval sql m.called _ r _ source, value_target, value_source _ _ _ _ apart, Meets]
    rw [Merge.term, List.findSome?_cons] at found
    split at found
    · rename_i answer
      cases found
      obtain ⟨named, source, inside, apart⟩ := sides left right answer
      exact ⟨inside, apart, meets left right named source apart⟩
    · rw [List.findSome?_cons] at found
      split at found
      · rename_i answer
        cases found
        obtain ⟨named, source, inside, apart⟩ := sides right left answer
        refine ⟨inside, apart, fun t s => ?_⟩
        rw [← meets right left named source apart t s, holds_eq, holds_eq]
        constructor
        · rintro ⟨v, w, l, r, same⟩
          exact ⟨w, v, r, l, by rwa [sql.same_comm]⟩
        · rintro ⟨v, w, l, r, same⟩
          exact ⟨w, v, r, l, by rwa [sql.same_comm]⟩
      · cases found
  | name q c => cases found
  | and l r => cases found
  | nested e => cases found
  | other value => cases found

/-- The terms taken, each for a key column of its own. -/
theorem terms_spec (es : List (Expr V)) (found : List (String × (String × String)))
    (taken : m.terms table es = some found) :
    (found.map (·.1)).Nodup ∧ (∀ f ∈ found, ∃ e ∈ es, m.term table e = some f) ∧
      ∀ e ∈ es, ∃ f ∈ found, m.term table e = some f := by
  induction es generalizing found with
  | nil =>
    cases taken
    simp
  | cons e rest ih =>
    unfold Merge.terms at taken
    cases one : m.term table e with
    | none => simp [one] at taken
    | some f =>
      cases others : m.terms table rest with
      | none => simp [one, others] at taken
      | some fs =>
        simp only [one, others, Option.bind_eq_bind, Option.bind_some] at taken
        split at taken
        · cases taken
        · rename_i apart
          cases taken
          obtain ⟨nodup, of, each⟩ := ih fs others
          refine ⟨List.nodup_cons.mpr ⟨apart, nodup⟩, ?_, ?_⟩
          · intro g inside
            rcases List.mem_cons.mp inside with rfl | inside
            · exact ⟨e, List.mem_cons_self, one⟩
            · obtain ⟨e', there, is⟩ := of g inside
              exact ⟨e', List.mem_cons_of_mem _ there, is⟩
          · intro e' inside
            rcases List.mem_cons.mp inside with rfl | inside
            · exact ⟨f, List.mem_cons_self, one⟩
            · obtain ⟨g, there, is⟩ := each e' inside
              exact ⟨g, List.mem_cons_of_mem _ there, is⟩

/-! ### Finding by name -/

section names

variable {α : Type}

theorem lookup_of_mem (l : List (String × α)) (once : (l.map (·.1)).Nodup) (k : String) (b : α)
    (inside : (k, b) ∈ l) : l.lookup k = some b := by
  obtain ⟨before, after, rfl⟩ := List.append_of_mem inside
  refine List.lookup_eq_some_iff.mpr ⟨before, after, rfl, fun p earlier => ?_⟩
  rw [List.map_append, List.map_cons, List.nodup_append] at once
  have other := once.2.2 p.1 (List.mem_map_of_mem earlier) k List.mem_cons_self
  simpa using other.symm

theorem lookup_zip (names : List String) (values : List α) (k : String) (i : Nat)
    (found : names.idxOf? k = some i) : (names.zip values).lookup k = values[i]? := by
  induction names generalizing values i with
  | nil => simp at found
  | cons name rest ih =>
    rw [List.idxOf?_cons] at found
    cases values with
    | nil => simp
    | cons v others =>
      rw [List.zip_cons_cons, List.lookup_cons]
      by_cases same : name = k
      · subst same
        simp only [beq_self_eq_true, if_true, Option.some.injEq] at found ⊢
        subst found
        rfl
      · rw [beq_false_of_ne same, if_neg (by simp)] at found
        obtain ⟨j, there, rfl⟩ := Option.map_eq_some_iff.mp found
        rw [beq_false_of_ne (Ne.symm same), ih others j there, List.getElem?_cons_succ]

theorem lookup_zip_map (names : List String) (f : String → α) (k : String) (inside : k ∈ names) :
    (names.zip (names.map f)).lookup k = some (f k) := by
  induction names with
  | nil => cases inside
  | cons name rest ih =>
    rw [List.map_cons, List.zip_cons_cons, List.lookup_cons]
    by_cases same : k = name
    · simp [same]
    · rw [beq_false_of_ne same]
      exact ih ((List.mem_cons.mp inside).resolve_left same)

theorem zip_implicit (names : List String) (values : List α) :
    (implicit names (some values.length)).zip values = names.zip values := by
  simp only [implicit]
  split
  · rename_i fewer
    rw [@List.zip_eq_zip_take_min _ _ names values, Nat.min_eq_right (Nat.le_of_lt fewer), List.take_length]
  · rfl

theorem mapM_lookup (l : List (String × α)) (key : List String) (found : List (String × α))
    (each : (key.mapM fun k => (l.lookup k).map fun s => (k, s)) = some found) :
    found.map (·.1) = key ∧ ∀ f, f ∈ found ↔ f.1 ∈ key ∧ l.lookup f.1 = some f.2 := by
  induction key generalizing found with
  | nil =>
    cases each
    simp
  | cons k rest ih =>
    rw [List.mapM_cons] at each
    cases one : l.lookup k with
    | none => simp [one] at each
    | some b =>
      cases others : rest.mapM fun k => (l.lookup k).map fun s => (k, s) with
      | none => simp [one, others] at each
      | some fs =>
        rw [one, others] at each
        cases each
        obtain ⟨names, inside⟩ := ih fs others
        refine ⟨by rw [List.map_cons, names], fun f => ?_⟩
        rw [List.mem_cons, inside, List.mem_cons]
        constructor
        · rintro (rfl | ⟨there, is⟩)
          · exact ⟨.inl rfl, one⟩
          · exact ⟨.inr there, is⟩
        · rintro ⟨same | there, is⟩
          · rw [same, one] at is
            exact .inl (Prod.ext same (Option.some.inj is).symm)
          · exact .inr ⟨there, is⟩

end names

/-- The ON is the key: rows match where each key column meets its source column. -/
theorem keySources_spec (sources : List (String × (String × String)))
    (found : m.keySources table = some sources) :
    sources.map (·.1) = table.key ∧ (∀ f ∈ sources, f.2.1 ≠ m.called) ∧
      ∀ t s, m.matching sql t s = true ↔ ∀ f ∈ sources, Meets sql t s f.1 f.2 := by
  rw [Merge.keySources] at found
  cases taken : m.terms table m.on.conjuncts with
  | none => simp [taken] at found
  | some matched =>
    rw [taken] at found
    obtain ⟨once, of, each⟩ := terms_spec table m _ matched taken
    obtain ⟨names, inside⟩ := mapM_lookup matched table.key sources found
    refine ⟨names, fun f there => ?_, fun t s => ?_⟩
    · obtain ⟨e, _, is⟩ := of _ (Dicts.mem_of_lookup f.1 matched f.2 ((inside f).mp there).2)
      exact (term_spec sql table m e f.1 f.2 is).2.1
    · rw [Merge.matching, holds_conjuncts, List.all_eq_true]
      constructor
      · intro all f there
        obtain ⟨e, at_, is⟩ := of _ (Dicts.mem_of_lookup f.1 matched f.2 ((inside f).mp there).2)
        exact ((term_spec sql table m e f.1 f.2 is).2.2 t s).mp (all e at_)
      · intro all e there
        obtain ⟨f, one, is⟩ := each e there
        obtain ⟨key, _, meets⟩ := term_spec sql table m e f.1 f.2 is
        exact (meets t s).mpr (all f ((inside f).mpr ⟨key, lookup_of_mem matched once f.1 f.2 one⟩))

/-! ### The keys of the rows inserted -/

/-- The row holds the new row's key, which has no NULL. -/
def Meta.HoldsKey (t : Target V) (n : NewRow V) : Prop :=
  ∀ k ∈ table.key, ∃ v, t.cols k = some v ∧ n.cols k = some v

/-- INSERTs without a column list fill the columns in the order they are stored in. -/
def Merge.InOrder : Prop :=
  table.sqlNames = (table.columns.map (·.1)).filter (fun c => decide (c ≠ "_deleted")) ∨
    ∀ c ∈ m.clauses, ∀ values, c.action ≠ .insert [] values

theorem inserted_column (s : Source V) (given : List String) (values : List (Written V)) (k : String)
    (column : String × String) (apart : column.1 ≠ m.called)
    (written : (((given.zip values).lookup k).bind fun w => w.bind Expr.qualified) = some column) :
    (inserted sql table m.called given values ⟨none, some s⟩).cols k =
      table.cast sql k (s column.1 column.2) := by
  rcases found : (given.zip values).lookup k with _ | _ | e
  · simp [found] at written
  · simp [found] at written
  · rw [found] at written
    change table.cast sql k (table.value sql k m.called ⟨none, some s⟩
      (((given.zip values).lookup k).getD none)) = _
    rw [found, Option.getD_some, Meta.value, Option.some_or, Option.bind_some,
      qualified_eval sql m.called _ e column written, value_source _ _ _ _ apart]

/-- A row whose key columns are cast from the source columns that the ON compares them with, in
their own types, has no key that a row it doesn't match holds. -/
theorem apart_of_unmatched (types : String → String → Option String)
    (sources : List (String × (String × String))) (found : m.keySources table = some sources)
    (compared : comparedAsKeys table types sources = true) (t : Target V) (s : Source V)
    (row : NewRow V) (typed : table.Typed sql t.cols)
    (planned : ∀ q c w, s q c = some w → types q c = some (sql.typeOf w))
    (cast : ∀ f ∈ sources, row.cols f.1 = table.cast sql f.1 (s f.2.1 f.2.2))
    (unmatched : m.matching sql t s = false) : ¬table.HoldsKey t row := by
  obtain ⟨names, _, matching⟩ := keySources_spec sql table m sources found
  intro held
  have all : m.matching sql t s = true := by
    rw [matching]
    intro f inside
    have key : f.1 ∈ table.key := by
      rw [← names]
      exact List.mem_map_of_mem inside
    obtain ⟨v, old, new⟩ := held f.1 key
    rw [cast f inside, Meta.cast, typed f.1 v old, Option.bind_some] at new
    obtain ⟨w, there, is⟩ := Option.map_eq_some_iff.mp new
    have same := List.all_eq_true.mp compared f inside
    rw [typed f.1 v old, planned _ _ w there] at same
    exact ⟨v, w, old, there, (sql.compared _ w v rfl same).mpr is.symm⟩
  rw [unmatched] at all
  cases all

/-- Each INSERT writes the key columns the source columns they are matched on. -/
theorem onKey_written (plain : m.upsert = none) (onKey : m.onKey table = true)
    (sources : List (String × (String × String))) (found : m.keySources table = some sources)
    (order : m.InOrder table) (c : Clause V) (inside : c ∈ m.clauses) (of : c.kind = .notMatched)
    (columns : List String) (values : List (Written V)) (is : c.action = .insert columns values) :
    ∀ f ∈ sources, ((((givenColumns table columns values).zip values).lookup f.1).bind
      fun w => w.bind Expr.qualified) = some f.2 := by
  intro f there
  rw [Merge.onKey, plain, found, List.all_eq_true] at onKey
  have written := onKey c (List.mem_filter.mpr ⟨inside, decide_eq_true of⟩)
  rw [is] at written
  have named := List.all_eq_true.mp written f there
  simp only [decide_eq_true_eq] at named
  have zipped : (givenColumns table columns values).zip values =
      ((if columns.isEmpty then (table.columns.map (·.1)).filter fun c => decide (c ≠ "_deleted")
        else columns).zip values) := by
    rw [givenColumns]
    split
    · rename_i empty
      rcases order with same | names
      · rw [zip_implicit, same]
      · rw [List.isEmpty_iff] at empty
        subst empty
        exact absurd is (names c inside values)
    · rfl
  rw [zipped]
  cases place : (if columns.isEmpty then (table.columns.map (·.1)).filter fun c =>
      decide (c ≠ "_deleted") else columns).idxOf? f.1 with
  | none =>
    rw [place] at named
    cases named
  | some i =>
    rw [lookup_zip _ _ _ i place]
    rwa [place, Option.bind_some] at named

end Pondra.Change
