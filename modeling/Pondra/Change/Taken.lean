import Pondra.Change.Merge

set_option autoImplicit false

namespace Pondra.Change

/-! ### Clauses over rows, rows over clauses -/

theorem flatMap_swap {α β γ : Type} (l : List α) (r : List β) (f : α → β → List γ) :
    (l.flatMap fun a => r.flatMap fun b => f a b).Perm
      (r.flatMap fun b => l.flatMap fun a => f a b) := by
  induction l with
  | nil => simp
  | cons a rest ih =>
    rw [List.flatMap_cons]
    refine (List.Perm.append_left _ ih).trans ?_
    simp only [List.flatMap_cons]
    exact List.flatMap_append_perm r (f a) _

theorem map_filter_flatMap {α β : Type} (l : List α) (keeps : α → Bool) (f : α → β) :
    (l.filter keeps).map f = l.flatMap fun a => if keeps a then [f a] else [] := by
  induction l with
  | nil => rfl
  | cons a rest ih =>
    rw [List.flatMap_cons, ← ih]
    cases h : keeps a
    · rw [List.filter_cons_of_neg (by simp [h])]
      rfl
    · rw [List.filter_cons_of_pos h]
      rfl

theorem flatMap_nil {α β : Type} (l : List α) : (l.flatMap fun _ => ([] : List β)) = [] := by
  simp

/-- Each element with those before it. -/
def numbered {α : Type} : List α → List α → List (List α × α)
  | _, [] => []
  | earlier, c :: rest => (earlier, c) :: numbered (earlier ++ [c]) rest

variable {V : Type} (sql : Sql V) (table : Meta V) (m : Merge V)

/-! ### SQL's rule -/

/-- The first clause of a kind whose condition is true. -/
def Merge.first (kind : Kind) (sc : Scope V) : Option (Clause V) :=
  m.clauses.find? fun c => decide (c.kind = kind) && c.holds sql m.called sc

/-- What a row of the target is to the clauses: matched (with its source row, but for a
DELETE … USING), or matched by no source row. -/
def Merge.standing (source : List (Source V)) (t : Target V) : Kind × Scope V :=
  match source.filter fun s => m.matching sql t s with
  | [] => (.notMatchedBySource, ⟨some t, none⟩)
  | s :: _ => (.matched, if m.semi then ⟨some t, none⟩ else ⟨some t, some s⟩)

/-- The clause a row of the target takes. -/
def Merge.targetTakes (source : List (Source V)) (t : Target V) : Option (Clause V) :=
  m.first sql (m.standing sql source t).1 (m.standing sql source t).2

/-- The clause a row of the source takes: none where a row of the target matches it. -/
def Merge.sourceTakes (target : List (Target V)) (s : Source V) : Option (Clause V) :=
  if target.any fun t => m.matching sql t s then none else m.first sql .notMatched ⟨none, some s⟩

/-- The new row a clause makes of a row it takes. -/
def Clause.makes (called : String) (c : Clause V) (sc : Scope V) : Option (NewRow V) :=
  match c.action with
  | .update set => some (updated sql table called set sc)
  | .delete => none
  | .insert columns values =>
    some (inserted sql table called (givenColumns table columns values) values sc)

/-! ### The loop -/

/-- What a clause gives of one row it takes. -/
def Clause.gives (called : String) (c : Clause V) (sc : Scope V) :
    List (Target V) × List (NewRow V) :=
  match c.action with
  | .insert _ _ => ([], (c.makes sql table called sc).toList)
  | _ => (sc.target.toList, (c.makes sql table called sc).toList)

theorem query_eq (called : String) (c : Clause V) (rows : List (Scope V)) :
    c.query sql table called rows =
      (rows.flatMap fun sc => (c.gives sql table called sc).1,
        rows.flatMap fun sc => (c.gives sql table called sc).2) := by
  have olds : ∀ rows : List (Scope V), rows.filterMap (·.target) =
      rows.flatMap fun sc => sc.target.toList := fun rows => List.filterMap_eq_flatMap_toList _ rows
  obtain ⟨kind, when, action⟩ := c
  cases action with
  | update set =>
    refine Prod.ext (olds rows) ?_
    exact List.map_eq_flatMap
  | delete => exact Prod.ext (olds rows) (by simp [Clause.gives, Clause.makes, Clause.query])
  | insert columns values =>
    refine Prod.ext (by simp [Clause.gives, Clause.query]) ?_
    exact List.map_eq_flatMap

theorem run_eq (what : String) (target : List (Target V)) (source : List (Source V))
    (earlier clauses : List (Clause V)) (old : List (Target V)) (new : List (NewRow V))
    (answer : m.run sql table what target source earlier clauses = .ok (old, new)) :
    (∀ c ∈ clauses, c.refused table what = none) ∧
    old = ((numbered earlier clauses).flatMap fun p =>
      ((m.scopes sql target source p.2.kind).filter (p.2.takes sql m.called p.1)).flatMap
        fun sc => (p.2.gives sql table m.called sc).1) ∧
    new = (numbered earlier clauses).flatMap fun p =>
      ((m.scopes sql target source p.2.kind).filter (p.2.takes sql m.called p.1)).flatMap
        fun sc => (p.2.gives sql table m.called sc).2 := by
  induction clauses generalizing earlier old new with
  | nil =>
    cases answer
    exact ⟨by simp, rfl, rfl⟩
  | cons c rest ih =>
    unfold Merge.run at answer
    split at answer
    · cases answer
    · rename_i fine
      simp only [query_eq] at answer
      cases later : m.run sql table what target source (earlier ++ [c]) rest with
      | error e =>
        rw [later] at answer
        cases answer
      | ok pair =>
        obtain ⟨olds, news⟩ := pair
        rw [later] at answer
        cases answer
        obtain ⟨others, rfl, rfl⟩ := ih _ _ _ later
        refine ⟨?_, rfl, rfl⟩
        intro other inside
        rcases List.mem_cons.mp inside with rfl | inside
        · exact fine
        · exact others other inside

section scopes

variable (target : List (Target V)) (source : List (Source V))

/-- No row of the target matches two source rows, but for a DELETE … USING's. -/
def Merge.Single : Prop :=
  ∀ t ∈ target, m.semi = false → (source.filter fun s => m.matching sql t s).length ≤ 1

theorem any_matching (t : Target V) :
    (source.any fun s => m.matching sql t s) = true ↔
      (source.filter fun s => m.matching sql t s) ≠ [] := by
  rw [List.any_eq_true, ne_eq, List.filter_eq_nil_iff]
  push Not
  rfl

/-- The rows each clause looks at, by the target's rows and the source's. -/
theorem scopes_eq (single : m.Single sql target source) (kind : Kind) :
    m.scopes sql target source kind =
      (target.flatMap fun t => if (m.standing sql source t).1 = kind then
        [(m.standing sql source t).2] else []) ++
      source.flatMap fun s =>
        if kind = .notMatched ∧ (target.any fun t => m.matching sql t s) = false then
          [⟨none, some s⟩] else [] := by
  cases kind with
  | matched =>
    simp only [reduceCtorEq, false_and, if_false, flatMap_nil, List.append_nil, Merge.scopes]
    split
    · rename_i semi
      rw [map_filter_flatMap]
      refine List.flatMap_congr fun t _ => ?_
      cases found : source.filter fun s => m.matching sql t s with
      | nil =>
        rw [if_neg fun any => (any_matching sql m source t).mp any found, Merge.standing, found,
          if_neg (by simp)]
      | cons s rest =>
        rw [if_pos ((any_matching sql m source t).mpr (by rw [found]; simp)), Merge.standing, found]
        simp [semi]
    · rename_i joined
      refine List.flatMap_congr fun t inside => ?_
      have one := single t inside (by simpa using joined)
      cases found : source.filter fun s => m.matching sql t s with
      | nil => rw [Merge.standing, found, if_neg (by simp), List.map_nil]
      | cons s rest =>
        rw [found, List.length_cons] at one
        have none : rest = [] := List.eq_nil_of_length_eq_zero (by omega)
        rw [Merge.standing, found, none]
        simp [joined]
  | notMatched =>
    have none : (target.flatMap fun t => if (m.standing sql source t).1 = .notMatched then
        [(m.standing sql source t).2] else []) = [] := by
      rw [List.flatMap_eq_nil_iff]
      refine fun t _ => if_neg ?_
      unfold Merge.standing
      split <;> simp
    rw [none, List.nil_append]
    simp only [Merge.scopes]
    rw [map_filter_flatMap]
    refine List.flatMap_congr fun s _ => ?_
    simp
  | notMatchedBySource =>
    simp only [reduceCtorEq, false_and, if_false, flatMap_nil, List.append_nil, Merge.scopes]
    rw [map_filter_flatMap]
    refine List.flatMap_congr fun t _ => ?_
    cases found : source.filter fun s => m.matching sql t s with
    | nil =>
      have no : (source.any fun s => m.matching sql t s) = false := by
        rw [← Bool.not_eq_true, any_matching, found]
        simp
      rw [Merge.standing, found, no]
      rfl
    | cons s rest =>
      have yes := (any_matching sql m source t).mpr (by rw [found]; simp)
      rw [Merge.standing, found, yes]
      simp

/-- A row that an earlier clause takes is left by the later ones. -/
theorem numbered_passed {α : Type} (kind : Kind) (sc : Scope V) (out : Clause V → List α)
    (earlier clauses : List (Clause V))
    (taken : ∃ c ∈ earlier, c.kind = kind ∧ c.holds sql m.called sc = true) :
    ((numbered earlier clauses).flatMap fun p =>
      if kind = p.2.kind ∧ p.2.takes sql m.called p.1 sc = true then out p.2 else []) = [] := by
  induction clauses generalizing earlier with
  | nil => rfl
  | cons c rest ih =>
    obtain ⟨e, inside, of, holds⟩ := taken
    rw [numbered, List.flatMap_cons, ih _ ⟨e, List.mem_append_left _ inside, of, holds⟩,
      List.append_nil]
    refine if_neg fun both => ?_
    obtain ⟨same, takes⟩ := both
    rw [Clause.takes, Bool.and_eq_true, List.all_eq_true] at takes
    have no := takes.2 e (List.mem_filter.mpr ⟨inside, decide_eq_true (of.trans same)⟩)
    rw [holds] at no
    cases no

/-- A row goes to the first clause of its kind whose condition is true, and to no other. -/
theorem numbered_takes {α : Type} (kind : Kind) (sc : Scope V) (out : Clause V → List α)
    (earlier clauses : List (Clause V))
    (passed : ∀ c ∈ earlier, c.kind = kind → c.holds sql m.called sc = false) :
    ((numbered earlier clauses).flatMap fun p =>
      if kind = p.2.kind ∧ p.2.takes sql m.called p.1 sc = true then out p.2 else []) =
    ((clauses.find? fun c => decide (c.kind = kind) && c.holds sql m.called sc).map out).getD [] := by
  induction clauses generalizing earlier with
  | nil => rfl
  | cons c rest ih =>
    rw [numbered, List.flatMap_cons, List.find?_cons]
    by_cases of : c.kind = kind
    · have none : ((earlier.filter fun e => decide (e.kind = c.kind)).all
          fun e => !e.holds sql m.called sc) = true := by
        rw [List.all_eq_true]
        intro e inside
        rw [List.mem_filter, decide_eq_true_eq] at inside
        rw [passed e inside.1 (inside.2.trans of), Bool.not_false]
      cases holds : c.holds sql m.called sc with
      | true =>
        have taken : c.takes sql m.called earlier sc = true := by
          rw [Clause.takes, holds, none]
          rfl
        rw [if_pos ⟨of.symm, taken⟩, numbered_passed sql m kind sc out (earlier ++ [c]) rest
          ⟨c, List.mem_append_right _ List.mem_cons_self, of, holds⟩]
        simp [of]
      | false =>
        have left : c.takes sql m.called earlier sc = false := by rw [Clause.takes, holds]; rfl
        rw [if_neg (by simp [left]), List.nil_append, ih]
        · simp
        · intro e inside same
          rcases List.mem_append.mp inside with before | last
          · exact passed e before same
          · rw [List.mem_singleton.mp last]
            exact holds
    · rw [if_neg fun both => of both.1.symm, List.nil_append, ih]
      · simp [of]
      · intro e inside same
        rcases List.mem_append.mp inside with before | last
        · exact passed e before same
        · rw [List.mem_singleton.mp last] at same
          exact absurd same of

theorem singleton_takes {α : Type} (p : Prop) [Decidable p] (keeps : Scope V → Bool)
    (out : Scope V → List α) (sc : Scope V) :
    ((if p then [sc] else []).filter keeps).flatMap out =
      if p ∧ keeps sc = true then out sc else [] := by
  by_cases here : p
  · cases kept : keeps sc <;> simp [here, kept]
  · simp [here]

/-- What the clauses give, row by row: each of the target's and the source's goes to one clause. -/
theorem loop_perm {α : Type} (single : m.Single sql target source)
    (out : Clause V → Scope V → List α) :
    ((numbered [] m.clauses).flatMap fun p =>
      ((m.scopes sql target source p.2.kind).filter (p.2.takes sql m.called p.1)).flatMap
        (out p.2)).Perm
    ((target.flatMap fun t => ((m.targetTakes sql source t).map
        fun c => out c (m.standing sql source t).2).getD []) ++
      source.flatMap fun s => ((m.sourceTakes sql target s).map
        fun c => out c ⟨none, some s⟩).getD []) := by
  have parts : ∀ p : List (Clause V) × Clause V,
      ((m.scopes sql target source p.2.kind).filter (p.2.takes sql m.called p.1)).flatMap
        (out p.2) =
      (target.flatMap fun t => if (m.standing sql source t).1 = p.2.kind ∧
          p.2.takes sql m.called p.1 (m.standing sql source t).2 = true then
        out p.2 (m.standing sql source t).2 else []) ++
      source.flatMap fun s => if (p.2.kind = .notMatched ∧
          (target.any fun t => m.matching sql t s) = false) ∧
          p.2.takes sql m.called p.1 ⟨none, some s⟩ = true then
        out p.2 ⟨none, some s⟩ else [] := fun p => by
    rw [scopes_eq sql m target source single, List.filter_append, List.flatMap_append,
      List.filter_flatMap, List.filter_flatMap, List.flatMap_assoc, List.flatMap_assoc]
    simp only [singleton_takes]
  simp only [parts]
  refine (List.flatMap_append_perm _ _ _).symm.trans (List.Perm.append ?_ ?_)
  · refine (flatMap_swap _ _ _).trans (List.Perm.of_eq (List.flatMap_congr fun t _ => ?_))
    exact numbered_takes sql m _ _ (fun c => out c (m.standing sql source t).2) [] m.clauses
      (by simp)
  · refine (flatMap_swap _ _ _).trans (List.Perm.of_eq (List.flatMap_congr fun s _ => ?_))
    rw [Merge.sourceTakes]
    split
    · rename_i matched
      simp [matched]
    · rename_i unmatched
      simp only [Bool.not_eq_true] at unmatched
      simp only [unmatched, and_true]
      refine Eq.trans (List.flatMap_congr fun p _ => ?_) (numbered_takes sql m .notMatched
        ⟨none, some s⟩ (fun c => out c ⟨none, some s⟩) [] m.clauses (by simp))
      simp only [eq_comm]

/-- No row of the target matches two of the source's where the check of that found none. -/
theorem single_of_once (once : m.twice sql target source = false) : m.Single sql target source := by
  intro t inside _
  by_contra more
  have matched : (source.filter fun s => m.matching sql t s).map (fun _ => t.id) =
      List.replicate (source.filter fun s => m.matching sql t s).length t.id :=
    List.map_const' ..
  rw [Merge.twice, List.any_eq_false] at once
  have some : t.id ∈ target.flatMap fun t =>
      (source.filter fun s => m.matching sql t s).map fun _ => t.id := by
    refine List.mem_flatMap.mpr ⟨t, inside, ?_⟩
    rw [matched]
    exact List.mem_replicate.mpr ⟨by omega, rfl⟩
  refine once _ some (decide_eq_true ?_)
  have part := (List.sublist_flatten_of_mem (List.mem_map_of_mem (f := fun t =>
    (source.filter fun s => m.matching sql t s).map fun _ => t.id) inside)).count_le t.id
  rw [matched, List.count_replicate_self, ← List.flatMap_def] at part
  omega

/-- What a clause taken does with a row's old version: a matched one goes, a new one has none. -/
theorem gives_old (called what : String) (c : Clause V) (sc : Scope V)
    (fine : c.refused table what = none) :
    (c.gives sql table called sc).1 = if c.kind = .notMatched then [] else sc.target.toList := by
  obtain ⟨kind, when, action⟩ := c
  cases action <;> cases kind <;>
    first
    | rfl
    | simp [Clause.refused] at fine

theorem gives_new (called : String) (c : Clause V) (sc : Scope V) :
    (c.gives sql table called sc).2 = (c.makes sql table called sc).toList := by
  obtain ⟨kind, when, action⟩ := c
  cases action <;> rfl

theorem first_spec (kind : Kind) (sc : Scope V) (c : Clause V)
    (found : m.first sql kind sc = some c) : c ∈ m.clauses ∧ c.kind = kind := by
  have holds := List.find?_some found
  rw [Bool.and_eq_true, decide_eq_true_eq] at holds
  exact ⟨List.mem_of_find?_eq_some found, holds.1⟩

theorem standing_target (t : Target V) :
    (m.standing sql source t).1 ≠ .notMatched ∧
      (m.standing sql source t).2.target = some t := by
  unfold Merge.standing
  split
  · exact ⟨by simp, rfl⟩
  · refine ⟨by simp, ?_⟩
    dsimp only
    split <;> rfl

/-- The rows that go: those of the target that take a clause. -/
def Merge.gone : List (Target V) :=
  target.filter fun t => (m.targetTakes sql source t).isSome

/-- The rows that come: what the clauses taken make of the target's rows, and of the source's. -/
def Merge.come : List (NewRow V) :=
  (target.filterMap fun t => (m.targetTakes sql source t).bind fun c =>
    c.makes sql table m.called (m.standing sql source t).2) ++
  source.filterMap fun s => (m.sourceTakes sql target s).bind fun c =>
    c.makes sql table m.called ⟨none, some s⟩

/-- The loop's rows are SQL's rule. -/
theorem run_taken (single : m.Single sql target source) (what : String)
    (old : List (Target V)) (new : List (NewRow V))
    (answer : m.run sql table what target source [] m.clauses = .ok (old, new)) :
    old.Perm (m.gone sql target source) ∧ new.Perm (m.come sql table target source) := by
  obtain ⟨fine, rfl, rfl⟩ := run_eq sql table m what target source [] m.clauses old new answer
  constructor
  · refine (loop_perm sql m target source single
      fun c sc => (c.gives sql table m.called sc).1).trans (List.Perm.of_eq ?_)
    have none : (source.flatMap fun s => ((m.sourceTakes sql target s).map fun c =>
        (c.gives sql table m.called ⟨none, some s⟩).1).getD []) = [] := by
      rw [List.flatMap_eq_nil_iff]
      intro s _
      rw [Merge.sourceTakes]
      split
      · rfl
      · cases found : m.first sql .notMatched ⟨none, some s⟩ with
        | none => rfl
        | some c =>
          obtain ⟨inside, of⟩ := first_spec sql m _ _ c found
          simp [gives_old sql table m.called what c _ (fine c inside), of]
    rw [none, List.append_nil, Merge.gone, ← List.map_id (List.filter _ _), map_filter_flatMap]
    refine List.flatMap_congr fun t _ => ?_
    obtain ⟨kind, same⟩ := standing_target sql m source t
    cases found : m.targetTakes sql source t with
    | none => rfl
    | some c =>
      obtain ⟨inside, of⟩ := first_spec sql m _ _ c found
      rw [Option.map_some, Option.getD_some,
        gives_old sql table m.called what c _ (fine c inside), of, if_neg kind, same]
      rfl
  · refine (loop_perm sql m target source single
      fun c sc => (c.gives sql table m.called sc).2).trans (List.Perm.of_eq ?_)
    simp only [Merge.come, gives_new, List.filterMap_eq_flatMap_toList]
    refine congrArg₂ _ (List.flatMap_congr fun t _ => ?_) (List.flatMap_congr fun s _ => ?_)
    · cases m.targetTakes sql source t <;> rfl
    · cases m.sourceTakes sql target s <;> rfl

theorem gone_nodup (ids : (target.map (·.id)).Nodup) : ((m.gone sql target source).map (·.id)).Nodup :=
  ids.sublist (List.Sublist.map _ List.filter_sublist)

end scopes

end Pondra.Change
