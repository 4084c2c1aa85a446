import Mathlib.Data.List.Basic
import Mathlib.Data.List.Dedup
import Mathlib.Data.List.Nodup
import Mathlib.Data.List.Lattice
import Pondra.Base.Dict
import Pondra.Base.Sources
import Pondra.Runs.Moments

set_option autoImplicit false

/-! ### Tasks and what they follow -/

namespace Pondra.Runs

open Sources

/-- A scheduled task, or one that follows others. -/
structure Task where
  schedule : Every
  after : List String
  suspended : Bool
  created : Nat
  deriving DecidableEq

abbrev Tasks := List (String × Task)

def graph (all : Tasks) : Graph String := fun name => (all.lookup name).map Task.after

/-- The scheduled tasks a task's graph starts from, through what it follows; refused if it would
follow itself. The names on the way are other tasks', so as many turns as there are tasks will do. -/
def roots (all : Tasks) : Nat → String → Task → List String → Except String (List String)
  | 0, name, _, seen =>
    .error ("AFTER: " ++ " → ".intercalate (seen ++ [name]) ++ " would follow itself")
  | turns + 1, name, task, seen =>
    if task.after = [] then .ok [name]
    else if name ∈ seen then
      .error ("AFTER: " ++ " → ".intercalate seen ++ " would follow itself")
    else
      task.after.foldlM (fun out a =>
        match all.lookup a with
        | none => .error ("AFTER " ++ a ++ ": no task " ++ a)
        | some t => (roots all turns a t (seen ++ [name])).map (out ∪ ·)) []

def rootsOf (all : Tasks) (name : String) (task : Task) : Except String (List String) :=
  roots all (all.length + 1) name task []

def put (all : Tasks) (name : String) (task : Task) : Tasks :=
  (name, task) :: all.filter fun p => decide (p.1 ≠ name)

/-- A branch's task waits for a RESUME; one replaced keeps the state it had. -/
def inBranch (branch : Bool) (old : Option Task) (task : Task) : Task :=
  if branch then { task with suspended := old.all Task.suspended } else task

/-- Keep a task; its first tick is the first after now. -/
def createTask (tasks : Tasks) (name : String) (task : Task) (replace branch : Bool) (now : Nat) :
    Except String Tasks :=
  let old := tasks.lookup name
  if !replace && old.isSome then
    .error ("task " ++ name ++ " already exists (CREATE OR REPLACE TASK)")
  else
    let task := inBranch branch old task
    let all := put tasks name task
    match rootsOf all name task with
    | .error why => .error why
    | .ok graphs =>
      if graphs.length ≠ 1 then .error "AFTER: those tasks start from different schedules"
      else
        let others := all.filter fun p => decide (p.1 ≠ name) && decide (name ∈ p.2.after)
        match others.mapM fun p => rootsOf all p.1 p.2 with
        | .error why => .error why
        | .ok _ => .ok (put tasks name { task with created := now })

def dropTask (tasks : Tasks) (name : String) : Except String Tasks :=
  if (tasks.lookup name).isNone then .error ("no task " ++ name)
  else match tasks.find? fun p => decide (name ∈ p.2.after) with
    | some p => .error ("task " ++ p.1 ++ " runs after " ++ name)
    | none => .ok (tasks.filter fun p => decide (p.1 ≠ name))

def alterTask (tasks : Tasks) (name : String) (suspended : Bool) : Except String Tasks :=
  match tasks.lookup name with
  | none => .error ("no task " ++ name)
  | some task => .ok (put tasks name { task with suspended := suspended })

/-- Every task follows tasks there are, none follows itself, and each starts from one. -/
structure Rooted (all : Tasks) : Prop where
  distinct : (all.map Prod.fst).Nodup
  closed : (graph all).Closed
  apart : ∀ name, Acc (graph all).Before name
  single : ∀ name, graph all name ≠ none → ∃ r, ∀ r', (graph all).Starts name r' ↔ r' = r

/-! ### The entries -/

theorem lookup_put (all : Tasks) (name other : String) (task : Task) :
    (put all name task).lookup other = if other = name then some task else all.lookup other := by
  unfold put
  split
  · rename_i same
    simp [same]
  · rename_i apart
    rw [List.lookup_cons, beq_false_of_ne apart]
    induction all with
    | nil => rfl
    | cons p rest ih =>
      obtain ⟨n, t⟩ := p
      by_cases here : n = name
      · rw [List.filter_cons_of_neg (by simp [here]), List.lookup_cons, ih,
          beq_false_of_ne (by rw [here]; exact apart)]
      · rw [List.filter_cons_of_pos (by simp [here]), List.lookup_cons, List.lookup_cons]
        cases other == n
        · exact ih
        · rfl

theorem graph_put (all : Tasks) (name other : String) (task : Task) :
    graph (put all name task) other = if other = name then some task.after else graph all other := by
  rw [graph, graph, lookup_put]
  split <;> rfl

theorem distinct_put (all : Tasks) (name : String) (task : Task)
    (distinct : (all.map Prod.fst).Nodup) : ((put all name task).map Prod.fst).Nodup := by
  apply List.nodup_cons.mpr
  refine ⟨?_, distinct.sublist (List.filter_sublist.map _)⟩
  intro inside
  obtain ⟨p, here, same⟩ := List.mem_map.mp inside
  exact of_decide_eq_true (List.mem_filter.mp here).2 same

theorem name_mem (all : Tasks) (name : String) (task : Task) (found : all.lookup name = some task) :
    name ∈ all.map Prod.fst :=
  List.mem_map.mpr ⟨_, Dicts.mem_of_lookup name all task found, rfl⟩

/-! ### What the search finds -/

/-- The search's step over the names a task follows. -/
def joined (all : Tasks) (search : String → Task → Except String (List String))
    (out : List String) (a : String) : Except String (List String) :=
  match all.lookup a with
  | none => .error ("AFTER " ++ a ++ ": no task " ++ a)
  | some t => (search a t).map (out ∪ ·)

theorem roots_succ (all : Tasks) (turns : Nat) (name : String) (task : Task) (seen : List String)
    (follows : task.after ≠ []) (new : name ∉ seen) :
    roots all (turns + 1) name task seen =
      task.after.foldlM (joined all fun a t => roots all turns a t (seen ++ [name])) [] := by
  rw [roots, if_neg follows, if_neg new]
  rfl

/-- What the joined searches found: what each did. -/
theorem joined_ok (all : Tasks) (search : String → Task → Except String (List String))
    (after out found : List String) (distinct : out.Nodup)
    (ok : after.foldlM (joined all search) out = .ok found)
    (each : ∀ a t r, all.lookup a = some t → search a t = .ok r → r.Nodup) :
    found.Nodup ∧ (∀ a ∈ after, ∃ t r, all.lookup a = some t ∧ search a t = .ok r) ∧
      ∀ n, n ∈ found ↔ n ∈ out ∨
        ∃ a ∈ after, ∃ t r, all.lookup a = some t ∧ search a t = .ok r ∧ n ∈ r := by
  induction after generalizing out with
  | nil =>
    obtain rfl : out = found := Except.ok.inj ok
    exact ⟨distinct, by simp, by simp⟩
  | cons a rest ih =>
    rw [List.foldlM_cons] at ok
    cases look : all.lookup a with
    | none =>
      simp only [joined, look] at ok
      cases ok
    | some t =>
      cases result : search a t with
      | error why =>
        simp only [joined, look, result] at ok
        cases ok
      | ok r =>
        have first : joined all search out a = .ok (out ∪ r) := by
          simp only [joined, look, result]
          rfl
        rw [first] at ok
        have more := ih (out ∪ r) ((each a t r look result).union out) ok
        obtain ⟨single, there, members⟩ := more
        refine ⟨single, ?_, ?_⟩
        · intro b inside
          rcases List.mem_cons.mp inside with rfl | inside
          · exact ⟨t, r, look, result⟩
          · exact there b inside
        · intro n
          rw [members, List.mem_union_iff]
          constructor
          · rintro ((old | new) | ⟨b, inside, t', r', look', result', here⟩)
            · exact .inl old
            · exact .inr ⟨a, List.mem_cons_self, t, r, look, result, new⟩
            · exact .inr ⟨b, List.mem_cons_of_mem _ inside, t', r', look', result', here⟩
          · rintro (old | ⟨b, inside, t', r', look', result', here⟩)
            · exact .inl (.inl old)
            · rcases List.mem_cons.mp inside with rfl | inside
              · rw [look] at look'
                cases look'
                rw [result] at result'
                cases result'
                exact .inl (.inr here)
              · exact .inr ⟨b, inside, t', r', look', result', here⟩

/-- What the search finds are the tasks the graph starts from, and none on the way follows itself. -/
structure Searched (all : Tasks) (name : String) (out : List String) : Prop where
  distinct : out.Nodup
  acc : Acc (graph all).Before name
  starts : ∀ r, r ∈ out ↔ (graph all).Starts name r

theorem roots_ok (all : Tasks) (turns : Nat) (name : String) (task : Task) (seen out : List String)
    (there : all.lookup name = some task) (ok : roots all turns name task seen = .ok out) :
    Searched all name out ∧ ∀ a ∈ task.after, graph all a ≠ none := by
  have node : graph all name = some task.after := by rw [graph, there]; rfl
  induction turns generalizing name task seen out with
  | zero => cases ok
  | succ turns ih =>
    by_cases source : task.after = []
    · rw [roots, if_pos source] at ok
      obtain rfl := Except.ok.inj ok
      rw [source] at node
      refine ⟨⟨List.nodup_singleton _, ⟨name, ?_⟩, ?_⟩, by simp [source]⟩
      · rintro a ⟨after, here, inside⟩
        rw [node] at here
        cases here
        cases inside
      · intro r
        rw [List.mem_singleton, starts_source _ _ _ node]
    · by_cases new : name ∈ seen
      · rw [roots, if_neg source, if_pos new] at ok
        cases ok
      · rw [roots_succ all turns name task seen source new] at ok
        have below (a : String) (t : Task) (r : List String) (look : all.lookup a = some t)
            (found : roots all turns a t (seen ++ [name]) = .ok r) : Searched all a r :=
          (ih a t (seen ++ [name]) r look found (by rw [graph, look]; rfl)).1
        obtain ⟨distinct, each, members⟩ := joined_ok all _ task.after [] out List.nodup_nil ok
          (fun a t r look found => (below a t r look found).distinct)
        refine ⟨⟨distinct, ⟨name, ?_⟩, ?_⟩, ?_⟩
        · rintro a ⟨after, here, inside⟩
          rw [node] at here
          cases here
          obtain ⟨t, r, look, found⟩ := each a inside
          exact (below a t r look found).acc
        · intro r
          rw [members, starts_after _ name r task.after node source]
          constructor
          · rintro (none_ | ⟨a, inside, t, found, look, result, here⟩)
            · cases none_
            · exact ⟨a, inside, ((below a t found look result).starts r).mp here⟩
          · rintro ⟨a, inside, starts⟩
            obtain ⟨t, found, look, result⟩ := each a inside
            exact .inr ⟨a, inside, t, found, look, result,
              ((below a t found look result).starts r).mpr starts⟩
        · intro a inside
          obtain ⟨t, r, look, found⟩ := each a inside
          simp [graph, look]

/-- A search that succeeds for each name succeeds over them. -/
theorem joined_total (all : Tasks) (search : String → Task → Except String (List String))
    (after out : List String)
    (each : ∀ a ∈ after, ∃ t r, all.lookup a = some t ∧ search a t = .ok r) :
    ∃ found, after.foldlM (joined all search) out = .ok found := by
  induction after generalizing out with
  | nil => exact ⟨out, rfl⟩
  | cons a rest ih =>
    obtain ⟨t, r, look, result⟩ := each a List.mem_cons_self
    have first : joined all search out a = .ok (out ∪ r) := by
      simp only [joined, look, result]
      rfl
    obtain ⟨found, ok⟩ := ih (out ∪ r) (fun b inside => each b (List.mem_cons_of_mem _ inside))
    refine ⟨found, ?_⟩
    rw [List.foldlM_cons, first]
    exact ok

/-- Where every name is there and no descent is infinite, the search finds the tasks a graph starts
from: the names on its way are of different tasks. -/
theorem roots_total (all : Tasks) (closed : (graph all).Closed)
    (apart : ∀ name, Acc (graph all).Before name) (turns : Nat) (name : String) (task : Task)
    (seen : List String) (there : all.lookup name = some task)
    (distinct : seen.Nodup) (named : ∀ s ∈ seen, s ∈ all.map Prod.fst)
    (above : ∀ s ∈ seen, Relation.TransGen (graph all).Before name s)
    (enough : all.length < turns + seen.length) : ∃ out, roots all turns name task seen = .ok out := by
  induction turns generalizing name task seen with
  | zero =>
    have few := (List.subperm_of_subset distinct named).length_le
    rw [List.length_map] at few
    omega
  | succ turns ih =>
    have node : graph all name = some task.after := by rw [graph, there]; rfl
    by_cases source : task.after = []
    · exact ⟨[name], by rw [roots, if_pos source]⟩
    · have new : name ∉ seen := fun inside =>
        acc_apart (graph all) name (apart name) (above name inside)
      rw [roots_succ all turns name task seen source new]
      apply joined_total
      intro a inside
      have listed := closed name task.after node a inside
      cases look : all.lookup a with
      | none => exact absurd (by rw [graph, look]; rfl) listed
      | some t =>
        have before : (graph all).Before a name := ⟨task.after, node, inside⟩
        obtain ⟨out, ok⟩ := ih a t (seen ++ [name]) look
          (List.nodup_append.mpr ⟨distinct, List.nodup_singleton _, by
            intro x old y last equal
            rw [List.mem_singleton.mp last] at equal
            exact new (equal ▸ old)⟩)
          (by
            intro s inside
            rcases List.mem_append.mp inside with old | last
            · exact named s old
            · rw [List.mem_singleton.mp last]
              exact name_mem all name task there)
          (by
            intro s inside
            rcases List.mem_append.mp inside with old | last
            · exact Relation.TransGen.head before (above s old)
            · rw [List.mem_singleton.mp last]
              exact .single before)
          (by
            simp only [List.length_append, List.length_singleton]
            omega)
        exact ⟨t, out, rfl, ok⟩

/-! ### What a change of the tasks keeps -/

theorem one_of_length {out : List String} (one : out.length = 1) (starts : String → Prop)
    (members : ∀ r, r ∈ out ↔ starts r) : ∃ r, ∀ r', starts r' ↔ r' = r := by
  obtain ⟨r, rfl⟩ := List.length_eq_one_iff.mp one
  exact ⟨r, fun r' => by rw [← members r', List.mem_singleton]⟩

/-- What a search finds doesn't depend on when tasks were made, or are suspended. -/
theorem roots_graph (all all' : Tasks) (same : graph all = graph all') (turns : Nat) (name : String)
    (task task' : Task) (after : task.after = task'.after) (seen : List String) :
    roots all turns name task seen = roots all' turns name task' seen := by
  induction turns generalizing name task task' seen with
  | zero => rfl
  | succ turns ih =>
    rw [roots, roots, after]
    split
    · rfl
    · split
      · rfl
      · congr 1
        funext out a
        have here := congrFun same a
        rw [graph, graph] at here
        cases look : all.lookup a with
        | none =>
          rw [look] at here
          cases look' : all'.lookup a with
          | none => rfl
          | some t' => rw [look'] at here; cases here
        | some t =>
          rw [look] at here
          cases look' : all'.lookup a with
          | none => rw [look'] at here; cases here
          | some t' =>
            rw [look'] at here
            simp only [ih a t t' (Option.some.inj here) (seen ++ [name])]

/-- A task is kept only when its graph starts from one. -/
theorem createTask_ok (tasks all : Tasks) (name : String) (task : Task) (replace branch : Bool)
    (now : Nat) (ok : createTask tasks name task replace branch now = .ok all) :
    ∃ kept : Task, kept.after = task.after ∧ kept.schedule = task.schedule ∧ kept.created = now ∧
      all = put tasks name kept ∧ ∃ out, rootsOf all name kept = .ok out ∧ out.length = 1 := by
  have given (old : Option Task) :
      (inBranch branch old task).after = task.after ∧
        (inBranch branch old task).schedule = task.schedule := by
    unfold inBranch
    split <;> exact ⟨rfl, rfl⟩
  simp only [createTask] at ok
  split at ok
  · cases ok
  · have given := given (tasks.lookup name)
    generalize inBranch branch (tasks.lookup name) task = kept at ok given
    split at ok
    · cases ok
    · rename_i graphs search
      split at ok
      · cases ok
      · rename_i one
        split at ok
        · cases ok
        · obtain rfl := Except.ok.inj ok
          refine ⟨{ kept with created := now }, given.1, given.2, rfl, rfl, graphs, ?_,
            Decidable.not_not.mp one⟩
          have same : graph (put tasks name kept) = graph (put tasks name { kept with created := now }) := by
            funext other
            rw [graph_put, graph_put]
          rw [← search, rootsOf, rootsOf]
          have length : (put tasks name { kept with created := now }).length =
              (put tasks name kept).length := rfl
          rw [length]
          exact (roots_graph _ _ same _ name kept { kept with created := now } rfl []).symm

/-- Does a task start from one, if its search ends well? -/
def single (all : Tasks) (p : String × Task) : Bool :=
  match rootsOf all p.1 p.2 with
  | .ok out => out.length == 1
  | .error _ => true

/-- A task kept leaves the graphs in order when each other task still starts from one. -/
theorem create_rooted {tasks all : Tasks} (rooted : Rooted tasks) (name : String) (task : Task)
    (replace branch : Bool) (now : Nat)
    (ok : createTask tasks name task replace branch now = .ok all)
    (others : ∀ p ∈ all, p.1 ≠ name → single all p = true) : Rooted all := by
  obtain ⟨kept, -, -, -, rfl, out, search, one⟩ := createTask_ok tasks all name task replace branch now ok
  have there : (put tasks name kept).lookup name = some kept := by rw [lookup_put, if_pos rfl]
  have node : graph (put tasks name kept) name = some kept.after := by rw [graph, there]; rfl
  have same : ∀ x, x ≠ name → graph (put tasks name kept) x = graph tasks x := by
    intro x away
    rw [graph_put, if_neg away]
  obtain ⟨found, follows⟩ := roots_ok _ _ name kept [] out there search
  have closed := closed_changed same kept.after node follows rooted.closed
  have apart (x : String) : Acc (graph (put tasks name kept)).Before x :=
    acc_changed same found.acc (rooted.apart x)
  refine ⟨distinct_put tasks name kept rooted.distinct, closed, apart, ?_⟩
  intro x known
  by_cases here : x = name
  · rw [here]
    exact one_of_length one _ found.starts
  · cases look : (put tasks name kept).lookup x with
    | none => exact absurd (by rw [graph, look]; rfl) known
    | some t =>
      obtain ⟨out, ok⟩ := roots_total _ closed apart ((put tasks name kept).length + 1) x t [] look
        List.nodup_nil (by simp) (by simp) (by simp)
      have alone := others (x, t) (Dicts.mem_of_lookup x _ t look) here
      rw [single, rootsOf, ok] at alone
      exact one_of_length (by simpa using alone) _ (roots_ok _ _ x t [] out look ok).1.starts

theorem lookup_without (tasks : Tasks) (name other : String) :
    (tasks.filter fun p => decide (p.1 ≠ name)).lookup other =
      if other = name then none else tasks.lookup other := by
  have here := lookup_put tasks name other ⟨.seconds 1 (by decide), [], false, 0⟩
  rw [put, List.lookup_cons] at here
  by_cases same : other = name
  · rw [if_pos same]
    apply List.lookup_eq_none_iff.mpr
    intro p inside
    have away := of_decide_eq_true (List.mem_filter.mp inside).2
    rw [same]
    exact bne_iff_ne.mpr (Ne.symm away)
  · rw [if_neg same] at here
    rw [if_neg same, ← here, beq_false_of_ne same]

/-- A task goes when none follows it. -/
theorem drop_rooted {tasks all : Tasks} (rooted : Rooted tasks) (name : String)
    (ok : dropTask tasks name = .ok all) : Rooted all := by
  unfold dropTask at ok
  split at ok
  · cases ok
  · split at ok
    · cases ok
    · rename_i alone
      obtain rfl := Except.ok.inj ok
      have same : ∀ x, x ≠ name →
          graph (tasks.filter fun p => decide (p.1 ≠ name)) x = graph tasks x := by
        intro x away
        rw [graph, lookup_without, if_neg away]
        rfl
      have gone : graph (tasks.filter fun p => decide (p.1 ≠ name)) name = none := by
        rw [graph, lookup_without, if_pos rfl]
        rfl
      have unfollowed (x : String) (after : List String) (node : graph tasks x = some after) :
          name ∉ after := by
        intro inside
        rw [graph, Option.map_eq_some_iff] at node
        obtain ⟨t, look, rfl⟩ := node
        have none_ := List.find?_eq_none.mp alone (x, t) (Dicts.mem_of_lookup x tasks t look)
        simp [inside] at none_
      have away (x : String) (other : x ≠ name) : ¬Relation.ReflTransGen (graph tasks).Before name x := by
        intro path
        rcases Relation.ReflTransGen.cases_head path with here | ⟨y, ⟨after, node, inside⟩, -⟩
        · exact other here.symm
        · exact unfollowed y after node inside
      refine ⟨rooted.distinct.sublist (List.filter_sublist.map _), ?_, ?_, ?_⟩
      · intro x after node a inside
        by_cases here : x = name
        · rw [here, gone] at node
          cases node
        · rw [same x here] at node
          rw [same a (fun equal => unfollowed x after node (equal ▸ inside))]
          exact rooted.closed x after node a inside
      · intro x
        refine acc_changed same ⟨name, ?_⟩ (rooted.apart x)
        rintro a ⟨after, node, -⟩
        rw [gone] at node
        cases node
      · intro x known
        by_cases here : x = name
        · rw [here] at known
          exact absurd gone known
        · rw [same x here] at known
          obtain ⟨r, starts⟩ := rooted.single x known
          exact ⟨r, fun r' => (starts_same same (away x here) r').trans (starts r')⟩

theorem Rooted.congr {tasks all : Tasks} (rooted : Rooted tasks) (same : graph all = graph tasks)
    (distinct : (all.map Prod.fst).Nodup) : Rooted all := by
  refine ⟨distinct, ?_, ?_, ?_⟩
  · rw [same]
    exact rooted.closed
  · rw [same]
    exact rooted.apart
  · rw [same]
    exact rooted.single

theorem alter_rooted {tasks all : Tasks} (rooted : Rooted tasks) (name : String) (suspended : Bool)
    (ok : alterTask tasks name suspended = .ok all) : Rooted all := by
  unfold alterTask at ok
  split at ok
  · cases ok
  · rename_i task look
    obtain rfl := Except.ok.inj ok
    refine rooted.congr ?_ (distinct_put _ _ _ rooted.distinct)
    funext other
    rw [graph_put]
    split
    · rename_i same
      rw [same, graph, look]
      rfl
    · rfl

end Pondra.Runs
