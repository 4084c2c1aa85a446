import Pondra.Base.Machine
import Pondra.Runs.Graph

set_option autoImplicit false

/-! ### The scheduler's rounds -/

namespace Pondra.Runs

open Machines Sources

/-- A run's values, as SQL. -/
abbrev Params := List (String × String)

inductive Status
  | ok
  | failed
  | skipped
  deriving DecidableEq

/-- The tick a task last took on (a scheduled task's own; a following task's, its graph's), whether
it finished, and how (none: ok, from before graphs). History: `start`, the task its run started at. -/
structure Tick where
  time : Nat
  done : Bool
  status : Option Status
  params : Params
  asked : Bool
  start : String
  deriving DecidableEq

/-- Ended, and well enough for what follows it. -/
def Tick.passed (t : Tick) : Bool := t.done && decide (t.status ≠ some .failed)

/-- A scheduled task's moment and when it was worked out; or the tasks still to look at, and the tick of
the last one. -/
inductive Found
  | scheduled (time now : Nat)
  | following (todo : List String) (before : Option Tick)
  deriving DecidableEq

/-- A task looked at: as the round has it, with the tick it was found at. -/
structure Look where
  name : String
  task : Task
  last : Option Tick
  found : Found
  deriving DecidableEq

/-- An `EXECUTE TASK` that read the task's tick. -/
structure Ask where
  name : String
  last : Option Tick
  params : Params
  deriving DecidableEq

structure Run where
  name : String
  tick : Tick
  deriving DecidableEq

inductive By
  | schedule (now : Nat)
  | graph
  | execute
  deriving DecidableEq

/-- A tick committed, and the task it is of, as the catalog had it. -/
structure Claim where
  name : String
  tick : Tick
  task : Option Task
  by_ : By
  deriving DecidableEq

/-- A tick that ended; or, not passed, one whose task was dropped. -/
structure End where
  name : String
  time : Nat
  passed : Bool
  params : Params
  deriving DecidableEq

/-- A run of a tick, and its job. -/
structure Ran where
  name : String
  time : Nat
  job : String
  deriving DecidableEq

structure State where
  tasks : Tasks
  ticks : String → Option Tick
  /-- The tasks a round goes over, and the one it looks at. -/
  round : Tasks
  looking : Option Look
  asking : Option Ask
  running : List Run
  -- history
  claims : List Claim
  ends : List End
  ran : List Ran

inductive Op
  | create (name : String) (task : Task) (replace branch : Bool) (now : Nat)
  | drop (name : String)
  | alter (name : String) (suspended : Bool)
  | ask (name : String) (params : Params)
  | asked (now : Nat)
  | round
  | look (name : String) (now : Nat)
  | peek
  | claim (params : Params)
  | finish (i : Nat) (status : Status)
  | stop (i : Nat)
  | crash

/-- The job of a tick's run. -/
def jobOf (name : String) (time : Nat) : String := "task:" ++ name ++ ":" ++ Nat.repr time

def State.record (s : State) (name : String) (tick : Tick) (by_ : By) : State :=
  { s with
    ticks := fun n => if n = name then some tick else s.ticks n
    claims := s.claims ++ [⟨name, tick, s.tasks.lookup name, by_⟩] }

/-- A tick's run starts. -/
def State.start (s : State) (name : String) (tick : Tick) : State :=
  { s with
    running := s.running ++ [⟨name, tick⟩]
    ran := s.ran ++ [⟨name, tick.time, jobOf name tick.time⟩] }

def drop (s : State) (name : String) : State :=
  match dropTask s.tasks name with
  | .error _ => s
  | .ok tasks =>
    { s with
      tasks := tasks
      ticks := fun n => if n = name then none else s.ticks n
      ends := s.ends ++ (((s.ticks name).filter fun t => !t.done).map fun t =>
        ⟨name, t.time, false, t.params⟩).toList }

def ask (s : State) (name : String) (params : Params) : State :=
  if (s.tasks.lookup name).isNone then s
  else if (s.ticks name).any fun t => !t.done then s
  else { s with asking := some ⟨name, s.ticks name, params⟩ }

/-- A tick claimed now for `EXECUTE TASK`. -/
def Ask.tick (q : Ask) (now : Nat) : Tick :=
  ⟨max now ((q.last.map fun t => t.time + 1).getD 0), false, none, q.params, true, q.name⟩

def asked (s : State) (now : Nat) : State :=
  match s.asking with
  | none => s
  | some q => { s with asking := none }.record q.name (q.tick now) .execute

variable (zone : String → Nat → Local)

/-- What is due: a tick claimed and not finished; for a scheduled task, the latest that has come since
the last; for one that follows others, it looks at their ticks. -/
def look (s : State) (name : String) (now : Nat) : State :=
  match s.round.lookup name with
  | none => s
  | some task =>
    if s.running.any fun r => decide (r.name = name) then s
    else
      let last := s.ticks name
      match last.filter fun t => !t.done with
      | some t => s.start name t
      | none =>
        if task.after = [] then
          if task.suspended then s
          else
            let after := (last.map fun t => max t.time task.created).getD task.created
            match latest zone task.schedule after now with
            | none => s
            | some time => { s with looking := some ⟨name, task, last, .scheduled time now⟩ }
        else { s with looking := some ⟨name, task, last, .following task.after none⟩ }

/-- The tick of the next task it follows: in the run of those before it. -/
def peek (s : State) : State :=
  match s.looking with
  | some ⟨name, task, last, .following (a :: todo) before⟩ =>
    match (s.ticks a).filter Tick.passed with
    | none => { s with looking := none }
    | some t =>
      if before.any fun b => decide (b.time ≠ t.time) then { s with looking := none }
      else { s with looking := some ⟨name, task, last, .following todo (some t)⟩ }
  | _ => s

/-- The tick due, if one is, and who asks for it. -/
def Look.tick (l : Look) (params : Params) : Option (Tick × By) :=
  match l.found with
  | .scheduled time now => some (⟨time, false, none, params, false, l.name⟩, .schedule now)
  | .following [] (some b) =>
    if l.task.created < b.time ∧ (∀ t ∈ l.last, t.time < b.time) ∧ ¬(l.task.suspended ∧ !b.asked) then
      some (⟨b.time, false, none, b.params, b.asked, b.start⟩, .graph)
    else none
  | .following _ _ => none

/-- Claimed (committed before it runs). -/
def claim (s : State) (params : Params) : State :=
  match s.looking with
  | none => s
  | some l =>
    match l.tick params with
    | none => { s with looking := none }
    | some (tick, by_) => ({ s with looking := none }.record l.name tick by_).start l.name tick

/-- The tick is marked done, with how it went. -/
def finish (s : State) (i : Nat) (status : Status) : State :=
  match s.running[i]? with
  | none => s
  | some r =>
    let tick : Tick := { r.tick with done := true, status := some status }
    { s with
      ticks := fun n => if n = r.name then some tick else s.ticks n
      running := s.running.eraseIdx i
      ends := s.ends ++ [⟨r.name, tick.time, tick.passed, tick.params⟩] }

def next (s : State) : Op → State
  | .create name task replace branch now =>
    match createTask s.tasks name task replace branch now with
    | .error _ => s
    | .ok tasks => { s with tasks := tasks }
  | .drop name => drop s name
  | .alter name suspended =>
    match alterTask s.tasks name suspended with
    | .error _ => s
    | .ok tasks => { s with tasks := tasks }
  | .ask name params => ask s name params
  | .asked now => asked s now
  | .round => { s with round := s.tasks }
  | .look name now => look zone s name now
  | .peek => peek s
  | .claim params => claim s params
  | .finish i status => finish s i status
  | .stop i => { s with running := s.running.eraseIdx i }
  | .crash => { s with round := [], looking := none, asking := none, running := [] }

/-- Statements about tasks take the leader's lock; the scheduler looks at a task at a time. -/
def Allows (s : State) : Op → Prop
  | .create .. => s.asking = none
  | .drop _ => s.asking = none
  | .alter .. => s.asking = none
  | .ask .. => s.asking = none
  | .look _ now => s.looking = none ∧ now < never
  | _ => True

instance decidableAllows (s : State) : (op : Op) → Decidable (Allows s op)
  | .create .. => inferInstanceAs (Decidable (s.asking = none))
  | .drop _ => inferInstanceAs (Decidable (s.asking = none))
  | .alter .. => inferInstanceAs (Decidable (s.asking = none))
  | .ask .. => inferInstanceAs (Decidable (s.asking = none))
  | .asked _ => inferInstanceAs (Decidable True)
  | .round => inferInstanceAs (Decidable True)
  | .look _ now => inferInstanceAs (Decidable (s.looking = none ∧ now < never))
  | .peek => inferInstanceAs (Decidable True)
  | .claim _ => inferInstanceAs (Decidable True)
  | .finish .. => inferInstanceAs (Decidable True)
  | .stop _ => inferInstanceAs (Decidable True)
  | .crash => inferInstanceAs (Decidable True)

def scheduler : Machine State Op where
  next := next zone
  Allows := Allows

/-- A lake with no task. -/
def lake : State := ⟨[], fun _ => none, [], none, none, [], [], [], []⟩

/-- Task graphs run once per run and in order. -/
structure Holds (s : State) : Prop where
  graphs : ∀ name, graph s.tasks name ≠ none →
    (∃ r, ∀ r', (graph s.tasks).Starts name r' ↔ r' = r) ∧
      ¬Relation.TransGen (graph s.tasks).Before name name
  /-- A task's ticks increase, and one is claimed when the one before it has ended. -/
  grows : s.claims.Pairwise fun c d => c.name = d.name →
    c.tick.time < d.tick.time ∧ ∃ e ∈ s.ends, e.name = c.name ∧ e.time = c.tick.time
  committed : ∀ r ∈ s.ran, r.job = jobOf r.name r.time ∧
    ∃ c ∈ s.claims, c.name = r.name ∧ c.tick.time = r.time
  follows : ∀ c ∈ s.claims, c.by_ = .graph → ∃ task, c.task = some task ∧ task.after ≠ [] ∧
    ∀ a ∈ task.after, ∃ e ∈ s.ends,
      e.name = a ∧ e.time = c.tick.time ∧ e.passed = true ∧ e.params = c.tick.params
  scheduled : ∀ c ∈ s.claims, ∀ now, c.by_ = .schedule now → ∃ task, c.task = some task ∧
    task.after = [] ∧ task.schedule.At zone c.tick.time ∧ c.tick.time ≤ now

/-- The set a task is kept in leaves one start to each other task, and the task is not made before a
tick's moment. -/
def Kept (s : State) (name : String) (now : Nat) : Except String Tasks → Prop
  | .error _ => True
  | .ok all => (∀ p ∈ all, p.1 ≠ name → single all p = true) ∧ ∀ c ∈ s.claims, c.tick.time ≤ now

/-- A task kept leaves one start to each task that follows it, and its moment is not before a tick's; an
`EXECUTE TASK` and the scheduler claim a tick while the task's last one is as they read it, the first at a
moment no tick has and not before the task was made, the second for a task that is still as its round has
it, a scheduled one's at no moment `EXECUTE TASK` took; and a run ends while its tick is the task's, or the
task has none. -/
def Sure (s : State) : Op → Prop
  | .create name task replace branch now =>
    Kept s name now (createTask s.tasks name task replace branch now)
  | .asked now => ∀ q ∈ s.asking, s.ticks q.name = q.last ∧
      (∀ c ∈ s.claims, c.tick.time ≠ (q.tick now).time) ∧
      ∀ t ∈ s.tasks.lookup q.name, t.created ≤ (q.tick now).time
  | .claim params => ∀ l ∈ s.looking, ∀ found ∈ l.tick params, s.ticks l.name = l.last ∧
      (∃ t ∈ s.tasks.lookup l.name, t.after = l.task.after ∧ t.schedule = l.task.schedule ∧
        t.created = l.task.created) ∧
      (l.task.after = [] → ∀ c ∈ s.claims, c.tick.asked = true → c.tick.time ≠ found.1.time)
  | .finish i _ => ∀ r ∈ s.running[i]?, ∀ t ∈ s.ticks r.name, t.time = r.tick.time ∧ t.done = false
  | _ => True

instance decidableKept (s : State) (name : String) (now : Nat) :
    (made : Except String Tasks) → Decidable (Kept s name now made)
  | .error _ => inferInstanceAs (Decidable True)
  | .ok all => inferInstanceAs (Decidable
      ((∀ p ∈ all, p.1 ≠ name → single all p = true) ∧ ∀ c ∈ s.claims, c.tick.time ≤ now))

instance decidableSure (s : State) : (op : Op) → Decidable (Sure s op)
  | .create name task replace branch now =>
    decidableKept s name now (createTask s.tasks name task replace branch now)
  | .drop _ => inferInstanceAs (Decidable True)
  | .alter .. => inferInstanceAs (Decidable True)
  | .ask .. => inferInstanceAs (Decidable True)
  | .asked now => inferInstanceAs (Decidable (∀ q ∈ s.asking, s.ticks q.name = q.last ∧
      (∀ c ∈ s.claims, c.tick.time ≠ (q.tick now).time) ∧
      ∀ t ∈ s.tasks.lookup q.name, t.created ≤ (q.tick now).time))
  | .round => inferInstanceAs (Decidable True)
  | .look .. => inferInstanceAs (Decidable True)
  | .peek => inferInstanceAs (Decidable True)
  | .claim params => inferInstanceAs (Decidable (∀ l ∈ s.looking, ∀ found ∈ l.tick params,
      s.ticks l.name = l.last ∧
      (∃ t ∈ s.tasks.lookup l.name, t.after = l.task.after ∧ t.schedule = l.task.schedule ∧
        t.created = l.task.created) ∧
      (l.task.after = [] → ∀ c ∈ s.claims, c.tick.asked = true → c.tick.time ≠ found.1.time)))
  | .finish i _ => inferInstanceAs (Decidable (∀ r ∈ s.running[i]?, ∀ t ∈ s.ticks r.name,
      t.time = r.tick.time ∧ t.done = false))
  | .stop _ => inferInstanceAs (Decidable True)
  | .crash => inferInstanceAs (Decidable True)

instance (zone : String → Nat → Local) (s : State) (op : Op) :
    Decidable ((scheduler zone).Allows s op) := decidableAllows s op

instance (zone : String → Nat → Local) (s : State) (op : Op) :
    Decidable (((scheduler zone).only Sure).Allows s op) :=
  inferInstanceAs (Decidable (Allows s op ∧ Sure s op))

end Pondra.Runs
