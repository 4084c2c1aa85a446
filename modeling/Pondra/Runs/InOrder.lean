import Pondra.Runs.Ticks

set_option autoImplicit false

/-! ### Runs in order -/

namespace Pondra.Runs

open Machines Sources

/-- A tick is a claim's. -/
structure Claim.Is (c : Claim) (name : String) (t : Tick) : Prop where
  name : c.name = name
  time : c.tick.time = t.time
  params : c.tick.params = t.params
  asked : c.tick.asked = t.asked
  start : c.tick.start = t.start

/-- A task passed at a moment, with values. -/
def Passed (ends : List End) (name : String) (time : Nat) (params : Params) : Prop :=
  ∃ e ∈ ends, e.name = name ∧ e.time = time ∧ e.passed = true ∧ e.params = params

def Ended (ends : List End) (name : String) (time : Nat) : Prop :=
  ∃ e ∈ ends, e.name = name ∧ e.time = time

/-- A graph of the tasks as they were when a run of this moment began: the tasks made before it are
still in it, and the run's ticks are of tasks that start where it did. -/
structure Began (tasks : Tasks) (claims : List Claim) (time : Nat) (g : Graph String) : Prop where
  unique : ∀ n r r', g.Starts n r → g.Starts n r' → r = r'
  made : ∀ n t, tasks.lookup n = some t → t.created < time → g n = some t.after
  starts : ∀ c ∈ claims, c.tick.time = time → c.tick.asked = false → g.Starts c.name c.tick.start

/-- What holds of the tasks, their ticks and what was claimed and ended. -/
structure Core (zone : String → Nat → Local) (tasks : Tasks) (ticks : String → Option Tick)
    (claims : List Claim) (ends : List End) : Prop where
  rooted : Rooted tasks
  latest : ∀ n t, tasks.lookup n = some t → ∀ c ∈ claims, c.name = n →
    c.tick.time ≤ t.created ∨ ∃ T ∈ ticks n, c.tick.time ≤ T.time
  tick : ∀ n, ∀ T ∈ ticks n, ∃ c ∈ claims, c.Is n T
  passed : ∀ n, ∀ T ∈ ticks n, T.passed = true → Passed ends n T.time T.params
  ended : ∀ c ∈ claims, Ended ends c.name c.tick.time ∨
    ∃ T ∈ ticks c.name, T.time = c.tick.time ∧ T.done = false
  values : ∀ c ∈ claims, ∀ d ∈ claims, c.tick.time = d.tick.time → c.tick.start = d.tick.start →
    c.tick.params = d.tick.params
  alone : ∀ c ∈ claims, ∀ d ∈ claims, c.tick.time = d.tick.time → c.tick.asked = true →
    c.tick.start = d.tick.start
  began : ∀ time, ∃ g, Began tasks claims time g
  origin : ∀ c ∈ claims, ∃ d ∈ claims, d.name = c.tick.start ∧ d.tick.time = c.tick.time
  grows : claims.Pairwise fun c d => c.name = d.name →
    c.tick.time < d.tick.time ∧ Ended ends c.name c.tick.time
  follows : ∀ c ∈ claims, c.by_ = .graph → ∃ task, c.task = some task ∧ task.after ≠ [] ∧
    ∀ a ∈ task.after, Passed ends a c.tick.time c.tick.params
  scheduled : ∀ c ∈ claims, ∀ now, c.by_ = .schedule now → ∃ task, c.task = some task ∧
    task.after = [] ∧ task.schedule.At zone c.tick.time ∧ c.tick.time ≤ now

/-- What was looked at. -/
structure Looked (zone : String → Nat → Local) (claims : List Claim) (ends : List End) (l : Look) :
    Prop where
  last : ∀ t ∈ l.last, t.done = true
  scheduled : ∀ time now, l.found = .scheduled time now → l.task.after = [] ∧ now < never ∧
    Runs.latest zone l.task.schedule
      ((l.last.map fun t => max t.time l.task.created).getD l.task.created) now = some time
  following : ∀ todo before, l.found = .following todo before → l.task.after ≠ [] ∧
    ∃ seen, l.task.after = seen ++ todo ∧ (before = none → seen = []) ∧
      ∀ b ∈ before, (∃ n, ∃ c ∈ claims, n ∈ seen ∧ c.Is n b) ∧
        ∀ a ∈ seen, ∃ c ∈ claims, c.name = a ∧ c.tick.time = b.time ∧
          Passed ends a b.time c.tick.params

structure Inv (zone : String → Nat → Local) (s : State) : Prop where
  core : Core zone s.tasks s.ticks s.claims s.ends
  looking : ∀ l ∈ s.looking, Looked zone s.claims s.ends l
  asking : ∀ q ∈ s.asking, (∀ t ∈ q.last, t.done = true) ∧ s.tasks.lookup q.name ≠ none
  running : ∀ r ∈ s.running, r.tick.done = false ∧ ∃ c ∈ s.claims, c.Is r.name r.tick
  ran : ∀ r ∈ s.ran, r.job = jobOf r.name r.time ∧
    ∃ c ∈ s.claims, c.name = r.name ∧ c.tick.time = r.time

variable {zone : String → Nat → Local}

theorem lake_inv : Inv zone lake where
  core := by
    refine ⟨⟨List.nodup_nil, ?_, ?_, ?_⟩, ?_, ?_, ?_, ?_, ?_, ?_, ?_, ?_, List.Pairwise.nil, ?_, ?_⟩
    · intro n after node
      cases node
    · intro n
      refine ⟨n, ?_⟩
      rintro a ⟨after, node, -⟩
      cases node
    · exact fun n known => absurd rfl known
    · exact fun n t look => by cases look
    · exact fun n t here => by cases here
    · exact fun n t here => by cases here
    · exact fun c here => (List.not_mem_nil here).elim
    · exact fun c here => (List.not_mem_nil here).elim
    · exact fun c here => (List.not_mem_nil here).elim
    · refine fun time => ⟨fun _ => none, ?_, ?_, ?_⟩
      · rintro n r r' ⟨source, -⟩ -
        cases source
      · exact fun n t look => by cases look
      · exact fun c here => (List.not_mem_nil here).elim
    · exact fun c here => (List.not_mem_nil here).elim
    · exact fun c here => (List.not_mem_nil here).elim
    · exact fun c here => (List.not_mem_nil here).elim
  looking l here := by cases here
  asking q here := by cases here
  running r here := (List.not_mem_nil here).elim
  ran r here := (List.not_mem_nil here).elim

theorem Inv.holds {s : State} (inv : Inv zone s) : Holds zone s where
  graphs name known :=
    ⟨inv.core.rooted.single name known, acc_apart _ name (inv.core.rooted.apart name)⟩
  grows := inv.core.grows
  committed := inv.ran
  follows := inv.core.follows
  scheduled := inv.core.scheduled

/-- A task starts from one. -/
theorem Rooted.unique {tasks : Tasks} (rooted : Rooted tasks) (n r r' : String)
    (first : (graph tasks).Starts n r) (second : (graph tasks).Starts n r') : r = r' := by
  have known : graph tasks n ≠ none := by
    intro gone
    rcases Relation.ReflTransGen.cases_tail first.2 with rfl | ⟨a, -, after, node, -⟩
    · rw [first.1] at gone
      cases gone
    · rw [node] at gone
      cases gone
  obtain ⟨r₀, only⟩ := rooted.single n known
  rw [(only r).mp first, (only r').mp second]

/-! ### The tasks change -/

section Tasks

variable {tasks all : Tasks} {ticks : String → Option Tick} {claims : List Claim} {ends : List End}

/-- The moments so far are behind a task made now, so it takes on no run of theirs. -/
theorem Core.create (core : Core zone tasks ticks claims ends) (name : String) (task : Task)
    (replace branch : Bool) (now : Nat) (ok : createTask tasks name task replace branch now = .ok all)
    (others : ∀ p ∈ all, p.1 ≠ name → single all p = true)
    (behind : ∀ c ∈ claims, c.tick.time ≤ now) : Core zone all ticks claims ends := by
  have rooted := create_rooted core.rooted name task replace branch now ok others
  obtain ⟨kept, -, -, made, rfl, -⟩ := createTask_ok tasks all name task replace branch now ok
  refine { core with rooted := rooted, latest := ?_, began := ?_ }
  · intro n t look c inside same
    rw [lookup_put] at look
    split at look
    · obtain rfl := Option.some.inj look
      exact .inl (made ▸ behind c inside)
    · exact core.latest n t look c inside same
  · intro time
    by_cases old : time ≤ now
    · obtain ⟨g, began⟩ := core.began time
      refine ⟨g, began.unique, ?_, began.starts⟩
      intro n t look before
      rw [lookup_put] at look
      split at look
      · obtain rfl := Option.some.inj look
        omega
      · exact began.made n t look before
    · refine ⟨graph (put tasks name kept), rooted.unique, ?_, ?_⟩
      · intro n t look _
        rw [graph, look]
        rfl
      · intro c inside same
        have past := behind c inside
        omega

theorem Core.alter (core : Core zone tasks ticks claims ends) (name : String) (suspended : Bool)
    (ok : alterTask tasks name suspended = .ok all) : Core zone all ticks claims ends := by
  have rooted := alter_rooted core.rooted name suspended ok
  have entry (n : String) (t : Task) (look : all.lookup n = some t) :
      ∃ old, tasks.lookup n = some old ∧ old.after = t.after ∧ old.created = t.created := by
    unfold alterTask at ok
    split at ok
    · cases ok
    · rename_i task there
      obtain rfl := Except.ok.inj ok
      rw [lookup_put] at look
      split at look
      · rename_i same
        obtain rfl := Option.some.inj look
        exact ⟨task, same ▸ there, rfl, rfl⟩
      · exact ⟨t, look, rfl, rfl⟩
  refine { core with rooted := rooted, latest := ?_, began := ?_ }
  · intro n t look c inside same
    obtain ⟨old, there, -, made⟩ := entry n t look
    rw [← made]
    exact core.latest n old there c inside same
  · intro time
    obtain ⟨g, began⟩ := core.began time
    refine ⟨g, began.unique, ?_, began.starts⟩
    intro n t look before
    obtain ⟨old, there, after, made⟩ := entry n t look
    rw [← after]
    exact began.made n old there (by omega)

theorem Passed.mono (more : List End) {name : String} {time : Nat} {params : Params}
    (passed : Passed ends name time params) : Passed (ends ++ more) name time params := by
  obtain ⟨e, inside, same⟩ := passed
  exact ⟨e, List.mem_append_left _ inside, same⟩

theorem Ended.mono (more : List End) {name : String} {time : Nat} (ended : Ended ends name time) :
    Ended (ends ++ more) name time := by
  obtain ⟨e, inside, same⟩ := ended
  exact ⟨e, List.mem_append_left _ inside, same⟩

theorem grows_mono (more : List End)
    (grows : claims.Pairwise fun c d => c.name = d.name →
      c.tick.time < d.tick.time ∧ Ended ends c.name c.tick.time) :
    claims.Pairwise fun c d => c.name = d.name →
      c.tick.time < d.tick.time ∧ Ended (ends ++ more) c.name c.tick.time :=
  grows.imp fun before same => ⟨(before same).1, Ended.mono more (before same).2⟩

theorem follows_mono (more : List End)
    (follows : ∀ c ∈ claims, c.by_ = .graph → ∃ task, c.task = some task ∧ task.after ≠ [] ∧
      ∀ a ∈ task.after, Passed ends a c.tick.time c.tick.params) :
    ∀ c ∈ claims, c.by_ = .graph → ∃ task, c.task = some task ∧ task.after ≠ [] ∧
      ∀ a ∈ task.after, Passed (ends ++ more) a c.tick.time c.tick.params := by
  intro c inside graph_
  obtain ⟨task, here, after, each⟩ := follows c inside graph_
  exact ⟨task, here, after, fun a member => Passed.mono more (each a member)⟩

/-- A task goes, and its tick with it. -/
theorem Core.drop (core : Core zone tasks ticks claims ends) (name : String)
    (ok : dropTask tasks name = .ok all) :
    Core zone all (fun n => if n = name then none else ticks n) claims
      (ends ++ (((ticks name).filter fun t => !t.done).map fun t =>
        ⟨name, t.time, false, t.params⟩).toList) := by
  have rooted := drop_rooted core.rooted name ok
  have entry (n : String) (t : Task) (look : all.lookup n = some t) :
      n ≠ name ∧ tasks.lookup n = some t := by
    unfold dropTask at ok
    split at ok
    · cases ok
    · split at ok
      · cases ok
      · obtain rfl := Except.ok.inj ok
        rw [lookup_without] at look
        split at look
        · cases look
        · rename_i away
          exact ⟨away, look⟩
  refine ⟨rooted, ?_, ?_, ?_, ?_, core.values, core.alone, ?_, core.origin,
    grows_mono _ core.grows, follows_mono _ core.follows, core.scheduled⟩
  · intro n t look c inside same
    obtain ⟨away, look⟩ := entry n t look
    rw [if_neg away]
    exact core.latest n t look c inside same
  · intro n T here
    split at here
    · cases here
    · exact core.tick n T here
  · intro n T here passed
    split at here
    · cases here
    · exact Passed.mono _ (core.passed n T here passed)
  · intro c inside
    rcases core.ended c inside with ended | ⟨T, here, time, undone⟩
    · exact .inl (Ended.mono _ ended)
    · by_cases same : c.name = name
      · left
        rw [same] at here ⊢
        refine ⟨⟨name, T.time, false, T.params⟩, List.mem_append_right _ ?_, rfl, time⟩
        rw [Option.mem_def] at here
        simp [here, undone]
      · right
        rw [if_neg same]
        exact ⟨T, here, time, undone⟩
  · intro time
    obtain ⟨g, began⟩ := core.began time
    exact ⟨g, began.unique, fun n t look => began.made n t (entry n t look).2, began.starts⟩

end Tasks

/-! ### Ticks are claimed and end -/

section Ticks

variable {tasks : Tasks} {ticks : String → Option Tick} {claims : List Claim} {ends : List End}

/-- What a tick must be to be claimed. -/
structure Claims (zone : String → Nat → Local) (tasks : Tasks) (ticks : String → Option Tick)
    (claims : List Claim) (ends : List End) (name : String) (tick : Tick) (by_ : By) : Prop where
  last : ∀ T ∈ ticks name, T.done = true
  undone : tick.done = false
  later : ∀ c ∈ claims, c.name = name → c.tick.time < tick.time
  values : ∀ c ∈ claims, c.tick.time = tick.time → c.tick.start = tick.start →
    c.tick.params = tick.params
  alone : ∀ c ∈ claims, c.tick.time = tick.time → (c.tick.asked = true ∨ tick.asked = true) →
    c.tick.start = tick.start
  starts : tick.asked = false → ∀ g, Began tasks claims tick.time g → g.Starts name tick.start
  origin : tick.start = name ∨ ∃ d ∈ claims, d.name = tick.start ∧ d.tick.time = tick.time
  follows : by_ = .graph → ∃ task, tasks.lookup name = some task ∧ task.after ≠ [] ∧
    ∀ a ∈ task.after, Passed ends a tick.time tick.params
  scheduled : ∀ now, by_ = .schedule now → ∃ task, tasks.lookup name = some task ∧
    task.after = [] ∧ task.schedule.At zone tick.time ∧ tick.time ≤ now

theorem Core.record (core : Core zone tasks ticks claims ends) (name : String) (tick : Tick)
    (by_ : By) (new : Claims zone tasks ticks claims ends name tick by_) :
    Core zone tasks (fun n => if n = name then some tick else ticks n)
      (claims ++ [⟨name, tick, tasks.lookup name, by_⟩]) ends := by
  have ended (c : Claim) (inside : c ∈ claims) (same : c.name = name) :
      Ended ends c.name c.tick.time := by
    rcases core.ended c inside with ended | ⟨T, here, -, undone⟩
    · exact ended
    · rw [same] at here
      rw [new.last T here] at undone
      cases undone
  have cases_ (c : Claim) (inside : c ∈ claims ++ [⟨name, tick, tasks.lookup name, by_⟩]) :
      c ∈ claims ∨ c = ⟨name, tick, tasks.lookup name, by_⟩ := by
    rcases List.mem_append.mp inside with old | last
    · exact .inl old
    · exact .inr (List.mem_singleton.mp last)
  have mine := List.mem_append_right claims
    (List.mem_singleton_self (⟨name, tick, tasks.lookup name, by_⟩ : Claim))
  refine ⟨core.rooted, ?_, ?_, ?_, ?_, ?_, ?_, ?_, ?_, ?_, ?_, ?_⟩
  · intro n t look c inside same
    by_cases here : n = name
    · right
      rw [if_pos here]
      refine ⟨tick, rfl, ?_⟩
      rcases cases_ c inside with old | rfl
      · exact Nat.le_of_lt (new.later c old (same.trans here))
      · exact Nat.le_refl _
    · rw [if_neg here]
      rcases cases_ c inside with old | rfl
      · exact core.latest n t look c old same
      · exact absurd same.symm here
  · intro n T here
    split at here
    · rename_i same
      obtain rfl := Option.some.inj here
      exact ⟨_, mine, same.symm, rfl, rfl, rfl, rfl⟩
    · obtain ⟨c, inside, is⟩ := core.tick n T here
      exact ⟨c, List.mem_append_left _ inside, is⟩
  · intro n T here passed
    split at here
    · obtain rfl := Option.some.inj here
      simp [Tick.passed, new.undone] at passed
    · exact core.passed n T here passed
  · intro c inside
    rcases cases_ c inside with old | rfl
    · by_cases same : c.name = name
      · exact .inl (ended c old same)
      · rw [if_neg same]
        exact core.ended c old
    · right
      rw [if_pos rfl]
      exact ⟨tick, rfl, rfl, new.undone⟩
  · intro c inside d inside' time start
    rcases cases_ c inside with old | rfl <;> rcases cases_ d inside' with old' | rfl
    · exact core.values c old d old' time start
    · exact new.values c old time start
    · exact (new.values d old' time.symm start.symm).symm
    · rfl
  · intro c inside d inside' time asked
    rcases cases_ c inside with old | rfl <;> rcases cases_ d inside' with old' | rfl
    · exact core.alone c old d old' time asked
    · exact new.alone c old time (.inl asked)
    · exact (new.alone d old' time.symm (.inr asked)).symm
    · rfl
  · intro time
    obtain ⟨g, began⟩ := core.began time
    refine ⟨g, began.unique, began.made, ?_⟩
    intro c inside same unasked
    rcases cases_ c inside with old | rfl
    · exact began.starts c old same unasked
    · subst same
      exact new.starts unasked g began
  · intro c inside
    rcases cases_ c inside with old | rfl
    · obtain ⟨d, there, same⟩ := core.origin c old
      exact ⟨d, List.mem_append_left _ there, same⟩
    · rcases new.origin with own | ⟨d, there, same⟩
      · exact ⟨_, mine, own.symm, rfl⟩
      · exact ⟨d, List.mem_append_left _ there, same⟩
  · apply List.pairwise_append.mpr
    refine ⟨core.grows, List.pairwise_singleton _ _, ?_⟩
    intro c inside d last same
    obtain rfl := List.mem_singleton.mp last
    exact ⟨new.later c inside same, ended c inside same⟩
  · intro c inside graph_
    rcases cases_ c inside with old | rfl
    · exact core.follows c old graph_
    · exact new.follows graph_
  · intro c inside now schedule
    rcases cases_ c inside with old | rfl
    · exact core.scheduled c old now schedule
    · exact new.scheduled now schedule

/-- A run ends while its tick is the task's, or the task has none. -/
theorem Core.finish (core : Core zone tasks ticks claims ends) (r : Run) (status : Status)
    (run : ∃ c ∈ claims, c.Is r.name r.tick)
    (current : ∀ T ∈ ticks r.name, T.time = r.tick.time ∧ T.done = false) (tick : Tick)
    (ended : tick = { r.tick with done := true, status := some status }) :
    Core zone tasks (fun n => if n = r.name then some tick else ticks n) claims
      (ends ++ [⟨r.name, tick.time, tick.passed, tick.params⟩]) := by
  have time : tick.time = r.tick.time := by rw [ended]
  refine ⟨core.rooted, ?_, ?_, ?_, ?_, core.values, core.alone, core.began,
    core.origin, grows_mono _ core.grows, follows_mono _ core.follows, core.scheduled⟩
  · intro n t look c inside same
    rcases core.latest n t look c inside same with made | ⟨T, here, below⟩
    · exact .inl made
    · right
      split
      · rename_i mine
        rw [mine] at here
        refine ⟨tick, rfl, ?_⟩
        rw [time, ← (current T here).1]
        exact below
      · exact ⟨T, here, below⟩
  · intro n T here
    split at here
    · rename_i same
      obtain rfl := Option.some.inj here
      obtain ⟨c, inside, is⟩ := run
      rw [ended]
      exact ⟨c, inside, is.name.trans same.symm, is.time, is.params, is.asked, is.start⟩
    · exact core.tick n T here
  · intro n T here passed
    split at here
    · rename_i same
      obtain rfl := Option.some.inj here
      exact ⟨_, List.mem_append_right _ (List.mem_singleton_self _), same.symm, rfl, passed, rfl⟩
    · exact Passed.mono _ (core.passed n T here passed)
  · intro c inside
    rcases core.ended c inside with old | ⟨T, here, same, undone⟩
    · exact .inl (Ended.mono _ old)
    · by_cases mine : c.name = r.name
      · left
        rw [mine] at here
        refine ⟨_, List.mem_append_right _ (List.mem_singleton_self _), mine.symm, ?_⟩
        rw [← same, (current T here).1]
        exact time
      · right
        rw [if_neg mine]
        exact ⟨T, here, same, undone⟩

/-- What the scheduler looked at is due while the task and its tick are as they were. -/
theorem Looked.due {l : Look} (looked : Looked zone claims ends l)
    (core : Core zone tasks ticks claims ends) (params : Params) (tick : Tick) (by_ : By)
    (due : l.tick params = some (tick, by_)) (last : ticks l.name = l.last) (t : Task)
    (there : tasks.lookup l.name = some t) (after : t.after = l.task.after)
    (schedule : t.schedule = l.task.schedule) (created : t.created = l.task.created)
    (unasked : l.task.after = [] → ∀ c ∈ claims, c.tick.asked = true → c.tick.time ≠ tick.time) :
    Claims zone tasks ticks claims ends l.name tick by_ := by
  have done : ∀ T ∈ ticks l.name, T.done = true := by
    rw [last]
    exact looked.last
  unfold Look.tick at due
  split at due
  · rename_i time now found
    obtain ⟨rfl, rfl⟩ := Prod.mk.inj (Option.some.inj due)
    obtain ⟨source, soon, moment⟩ := looked.scheduled time now found
    obtain ⟨next, past, good⟩ := latest_at zone _ _ now time soon moment
    have least : l.task.created ≤ (l.last.map fun t => max t.time l.task.created).getD l.task.created := by
      cases l.last with
      | none => exact Nat.le_refl _
      | some T => exact Nat.le_max_right _ _
    have later : ∀ c ∈ claims, c.name = l.name → c.tick.time < time := by
      intro c inside same
      rcases core.latest l.name t there c inside same with made | ⟨T, here, below⟩
      · omega
      · rw [last, Option.mem_def] at here
        rw [here, Option.map_some, Option.getD_some] at next
        omega
    have apart (c : Claim) (inside : c ∈ claims) (start : c.tick.start = l.name)
        (same : c.tick.time = time) : False := by
      obtain ⟨d, inside, name, time_⟩ := core.origin c inside
      have before := later d inside (name.trans start)
      omega
    refine ⟨done, rfl, later, ?_, ?_, ?_, .inl rfl, by simp, ?_⟩
    · exact fun c inside same start => (apart c inside start same).elim
    · rintro c inside same (asked | no)
      · exact absurd same (unasked source c inside asked)
      · cases no
    · intro _ g began
      have before : t.created < time := by omega
      have node := began.made l.name t there before
      rw [after, source] at node
      exact (starts_source g l.name l.name node).mpr rfl
    · intro now' schedule'
      cases schedule'
      exact ⟨t, there, after.trans source, by rw [schedule]; exact good, past⟩
  · rename_i b found
    split at due
    · rename_i guard
      obtain ⟨rfl, rfl⟩ := Prod.mk.inj (Option.some.inj due)
      obtain ⟨follows, seen, all, -, each⟩ := looked.following [] (some b) found
      rw [List.append_nil] at all
      obtain ⟨⟨n, cb, bound, member, is⟩, each⟩ := each b rfl
      rw [← all] at member each
      have begins (g : Graph String) (began : Began tasks claims b.time g) (a : String) (r : String)
          (inside : a ∈ l.task.after) (starts : g.Starts a r) : g.Starts l.name r := by
        have node := began.made l.name t there (by omega)
        rw [after] at node
        exact (starts_after g l.name r l.task.after node follows).mpr ⟨a, inside, starts⟩
      have run (c : Claim) (inside : c ∈ claims) (same : c.tick.time = b.time)
          (asked : c.tick.asked = true ∨ b.asked = true) : c.tick.start = b.start := by
        rcases asked with asked | asked
        · rw [core.alone c inside cb bound (same.trans is.time.symm) asked, is.start]
        · rw [← is.start]
          exact (core.alone cb bound c inside (is.time.trans same.symm) (is.asked.trans asked)).symm
      have value (c : Claim) (inside : c ∈ claims) (same : c.tick.time = b.time)
          (start : c.tick.start = b.start) : c.tick.params = b.params := by
        rw [core.values c inside cb bound (same.trans is.time.symm) (start.trans is.start.symm), is.params]
      refine ⟨done, rfl, ?_, value, run, ?_, ?_, ?_, by simp⟩
      · intro c inside same
        rcases core.latest l.name t there c inside same with made | ⟨T, here, below⟩
        · exact Nat.lt_of_le_of_lt (created ▸ made) guard.1
        · rw [last] at here
          exact Nat.lt_of_le_of_lt below (guard.2.1 T here)
      · intro no g began
        have starts := began.starts cb bound is.time (is.asked.trans no)
        rw [is.name, is.start] at starts
        exact begins g began n b.start member starts
      · obtain ⟨d, there, name, time⟩ := core.origin cb bound
        exact .inr ⟨d, there, name.trans is.start, time.trans is.time⟩
      · intro _
        refine ⟨t, there, after ▸ follows, ?_⟩
        intro a inside
        rw [after] at inside
        obtain ⟨c, here, name, time, passed⟩ := each a inside
        have start : c.tick.start = b.start := by
          by_cases asked : c.tick.asked = true ∨ b.asked = true
          · exact run c here time asked
          · -- both are of the run of the one task they start from
            simp only [not_or, Bool.not_eq_true] at asked
            obtain ⟨g, began⟩ := core.began b.time
            have one := began.starts c here time asked.1
            have other := began.starts cb bound is.time (is.asked.trans asked.2)
            rw [name] at one
            rw [is.name, is.start] at other
            exact began.unique l.name _ _ (begins g began a _ inside one)
              (begins g began n _ member other)
        rw [value c here time start] at passed
        exact passed
    · cases due
  · cases due

/-- `EXECUTE TASK` claims a moment of its own. -/
theorem asked_claims (core : Core zone tasks ticks claims ends) (q : Ask) (now : Nat)
    (done : ∀ T ∈ q.last, T.done = true) (known : tasks.lookup q.name ≠ none)
    (last : ticks q.name = q.last) (fresh : ∀ c ∈ claims, c.tick.time ≠ (q.tick now).time)
    (made : ∀ t ∈ tasks.lookup q.name, t.created ≤ (q.tick now).time) :
    Claims zone tasks ticks claims ends q.name (q.tick now) .execute := by
  refine ⟨by rw [last]; exact done, rfl, ?_, ?_, ?_, ?_, .inl rfl, ?_, ?_⟩
  · intro c inside same
    have apart := fresh c inside
    cases look : tasks.lookup q.name with
    | none => exact absurd look known
    | some t =>
      rcases core.latest q.name t look c inside same with before | ⟨T, here, before⟩
      · have made := made t look
        omega
      · rw [last, Option.mem_def] at here
        have least : T.time + 1 ≤ (q.tick now).time := by
          simp only [Ask.tick, here, Option.map_some, Option.getD_some]
          omega
        omega
  · exact fun c inside same => absurd same (fresh c inside)
  · exact fun c inside same => absurd same (fresh c inside)
  · exact fun no => by cases no
  · exact fun no => by cases no
  · exact fun now' no => by cases no

end Ticks

/-! ### Runs -/

/-- What was looked at stays as it was found. -/
theorem Looked.mono {claims : List Claim} {ends : List End} {l : Look}
    (looked : Looked zone claims ends l) (more : List Claim) (others : List End) :
    Looked zone (claims ++ more) (ends ++ others) l := by
  refine ⟨looked.last, looked.scheduled, ?_⟩
  intro todo before found
  obtain ⟨follows, seen, all, first, each⟩ := looked.following todo before found
  refine ⟨follows, seen, all, first, ?_⟩
  intro b here
  obtain ⟨⟨n, c, inside, member, is⟩, each⟩ := each b here
  refine ⟨⟨n, c, List.mem_append_left _ inside, member, is⟩, ?_⟩
  intro a member
  obtain ⟨c, inside, name, time, passed⟩ := each a member
  exact ⟨c, List.mem_append_left _ inside, name, time, passed.mono others⟩

theorem Inv.create {s : State} (inv : Inv zone s) (name : String) (task : Task)
    (replace branch : Bool) (now : Nat) (tasks : Tasks)
    (ok : createTask s.tasks name task replace branch now = .ok tasks) (free : s.asking = none)
    (others : ∀ p ∈ tasks, p.1 ≠ name → single tasks p = true)
    (behind : ∀ c ∈ s.claims, c.tick.time ≤ now) : Inv zone { s with tasks := tasks } where
  core := inv.core.create name task replace branch now ok others behind
  looking := inv.looking
  asking q here := by
    rw [free] at here
    cases here
  running := inv.running
  ran := inv.ran

theorem Inv.alter {s : State} (inv : Inv zone s) (name : String) (suspended : Bool) (tasks : Tasks)
    (ok : alterTask s.tasks name suspended = .ok tasks) (free : s.asking = none) :
    Inv zone { s with tasks := tasks } where
  core := inv.core.alter name suspended ok
  looking := inv.looking
  asking q here := by
    rw [free] at here
    cases here
  running := inv.running
  ran := inv.ran

theorem Inv.drop {s : State} (inv : Inv zone s) (name : String) (free : s.asking = none) :
    Inv zone (drop s name) := by
  unfold Runs.drop
  split
  · exact inv
  · rename_i tasks ok
    refine ⟨inv.core.drop name ok, ?_, ?_, inv.running, inv.ran⟩
    · intro l here
      have looked := (inv.looking l here).mono [] (((s.ticks name).filter fun t => !t.done).map
        fun t => ⟨name, t.time, false, t.params⟩).toList
      rwa [List.append_nil] at looked
    · intro q here
      rw [free] at here
      cases here

theorem Inv.ask {s : State} (inv : Inv zone s) (name : String) (params : Params) :
    Inv zone (ask s name params) := by
  unfold Runs.ask
  split
  · exact inv
  · rename_i known
    split
    · exact inv
    · rename_i ended
      refine ⟨inv.core, inv.looking, ?_, inv.running, inv.ran⟩
      intro q here
      obtain rfl := Option.some.inj here
      refine ⟨?_, fun gone => known (by rw [gone]; rfl)⟩
      intro t here
      change s.ticks name = some t at here
      rw [here] at ended
      simpa using ended

/-- A claim recorded. -/
theorem Inv.record {s : State} (inv : Inv zone s) (name : String) (tick : Tick) (by_ : By)
    (claims : Claims zone s.tasks s.ticks s.claims s.ends name tick by_) :
    Inv zone (s.record name tick by_) := by
  refine ⟨inv.core.record name tick by_ claims, ?_, inv.asking, ?_, ?_⟩
  · intro l here
    have looked := (inv.looking l here).mono [⟨name, tick, s.tasks.lookup name, by_⟩] []
    rwa [List.append_nil] at looked
  · intro r here
    obtain ⟨undone, c, inside, is⟩ := inv.running r here
    exact ⟨undone, c, List.mem_append_left _ inside, is⟩
  · intro r here
    obtain ⟨job, c, inside, same⟩ := inv.ran r here
    exact ⟨job, c, List.mem_append_left _ inside, same⟩

/-- A claimed tick's run starts. -/
theorem Inv.start {s : State} (inv : Inv zone s) (name : String) (tick : Tick)
    (undone : tick.done = false) (claimed : ∃ c ∈ s.claims, c.Is name tick) :
    Inv zone (s.start name tick) := by
  refine ⟨inv.core, inv.looking, inv.asking, ?_, ?_⟩
  · intro r here
    rcases List.mem_append.mp here with old | new
    · exact inv.running r old
    · obtain rfl := List.mem_singleton.mp new
      exact ⟨undone, claimed⟩
  · intro r here
    rcases List.mem_append.mp here with old | new
    · exact inv.ran r old
    · obtain rfl := List.mem_singleton.mp new
      obtain ⟨c, inside, is⟩ := claimed
      exact ⟨rfl, c, inside, is.name, is.time⟩

/-- The scheduler looks at something else. -/
theorem Inv.looks {s : State} (inv : Inv zone s) (looking : Option Look)
    (looked : ∀ l ∈ looking, Looked zone s.claims s.ends l) :
    Inv zone { s with looking := looking } :=
  ⟨inv.core, looked, inv.asking, inv.running, inv.ran⟩

theorem Inv.look {s : State} (inv : Inv zone s) (name : String) (now : Nat) (soon : now < never) :
    Inv zone (look zone s name now) := by
  unfold Runs.look
  split
  · exact inv
  · rename_i task _
    split
    · exact inv
    · dsimp only
      split
      · rename_i t unfinished
        obtain ⟨here, undone⟩ := Option.filter_eq_some_iff.mp unfinished
        exact inv.start name t (by simpa using undone) (inv.core.tick name t here)
      · rename_i finished
        have done : ∀ t ∈ s.ticks name, t.done = true := by
          intro t here
          have no := Option.filter_eq_none_iff.mp finished t here
          simpa using no
        split
        · rename_i source
          split
          · exact inv
          · split
            · exact inv
            · rename_i time moment
              refine inv.looks _ ?_
              intro l here
              obtain rfl := Option.some.inj here
              refine ⟨done, ?_, fun todo before no => by cases no⟩
              intro time' now' found
              cases found
              exact ⟨source, soon, moment⟩
        · rename_i follows
          refine inv.looks _ ?_
          intro l here
          obtain rfl := Option.some.inj here
          refine ⟨done, fun time now' no => by (cases no), ?_⟩
          intro todo before found
          cases found
          exact ⟨follows, [], rfl, fun _ => rfl, fun b no => by cases no⟩

theorem Inv.peek {s : State} (inv : Inv zone s) : Inv zone (peek s) := by
  unfold Runs.peek
  split
  · rename_i name task last a todo before here
    split
    · exact inv.looks none (fun l no => by cases no)
    · rename_i t passed
      split
      · exact inv.looks none (fun l no => by cases no)
      · rename_i together
        refine inv.looks _ ?_
        intro l found
        obtain rfl := Option.some.inj found
        have looked := inv.looking _ here
        obtain ⟨follows, seen, all, first, each⟩ := looked.following (a :: todo) before rfl
        obtain ⟨ticked, ended⟩ := Option.filter_eq_some_iff.mp passed
        obtain ⟨c, inside, is⟩ := inv.core.tick a t ticked
        have last_ := inv.core.passed a t ticked ended
        refine ⟨looked.last, fun time now no => by (cases no), ?_⟩
        intro todo' before' same
        cases same
        refine ⟨follows, seen ++ [a], by rw [all]; simp, fun no => by (cases no), ?_⟩
        intro b equal
        obtain rfl := Option.some.inj equal
        refine ⟨⟨a, c, inside, List.mem_append_right _ (List.mem_singleton_self _), is⟩, ?_⟩
        intro n member
        rcases List.mem_append.mp member with old | new
        · cases before with
          | none =>
            rw [first rfl] at old
            cases old
          | some b =>
            have time : b.time = t.time := by simpa using together
            rw [← time]
            exact (each b rfl).2 n old
        · obtain rfl := List.mem_singleton.mp new
          rw [is.params.symm] at last_
          exact ⟨c, inside, is.name, is.time, last_⟩
  · exact inv

theorem Inv.claim {s : State} (inv : Inv zone s) (params : Params)
    (sure : Sure s (.claim params)) : Inv zone (claim s params) := by
  unfold Runs.claim
  split
  · exact inv
  · rename_i l here
    split
    · exact inv.looks none (fun l no => by cases no)
    · rename_i tick by_ due
      obtain ⟨last, ⟨t, there, after, schedule, created⟩, unasked⟩ := sure l here (tick, by_) due
      have claims := (inv.looking l here).due inv.core params tick by_ due last t there after
        schedule created unasked
      have idle := inv.looks none (fun l no => by cases no)
      have recorded := idle.record l.name tick by_ claims
      exact recorded.start l.name tick claims.undone
        ⟨_, List.mem_append_right _ (List.mem_singleton_self _), rfl, rfl, rfl, rfl, rfl⟩

theorem Inv.asked {s : State} (inv : Inv zone s) (now : Nat) (sure : Sure s (.asked now)) :
    Inv zone (asked s now) := by
  unfold Runs.asked
  split
  · exact inv
  · rename_i q here
    obtain ⟨last, fresh, made⟩ := sure q here
    obtain ⟨done, known⟩ := inv.asking q here
    have free : Inv zone { s with asking := none } :=
      ⟨inv.core, inv.looking, fun q no => by (cases no), inv.running, inv.ran⟩
    exact free.record q.name (q.tick now) .execute
      (asked_claims inv.core q now done known last fresh made)

theorem Inv.finish {s : State} (inv : Inv zone s) (i : Nat) (status : Status)
    (sure : Sure s (.finish i status)) : Inv zone (finish s i status) := by
  unfold Runs.finish
  split
  · exact inv
  · rename_i r there
    obtain ⟨-, claimed⟩ := inv.running r (List.mem_of_getElem? there)
    refine ⟨inv.core.finish r status claimed (sure r there) _ rfl, ?_, inv.asking, ?_, inv.ran⟩
    · intro l here
      have looked := (inv.looking l here).mono [] [⟨r.name, r.tick.time,
        Tick.passed { r.tick with done := true, status := some status }, r.tick.params⟩]
      rwa [List.append_nil] at looked
    · intro r' here
      exact inv.running r' (List.mem_of_mem_eraseIdx here)

theorem next_inv (s : State) (op : Op) (inv : Inv zone s)
    (allowed : ((scheduler zone).only Sure).Allows s op) :
    Inv zone (((scheduler zone).only Sure).next s op) := by
  obtain ⟨allows, sure⟩ := allowed
  cases op with
  | create name task replace branch now =>
    simp only [Machine.only_next, scheduler, next]
    simp only [Sure] at sure
    split
    · exact inv
    · rename_i tasks ok
      rw [ok] at sure
      exact inv.create name task replace branch now tasks ok allows sure.1 sure.2
  | drop name => exact inv.drop name allows
  | alter name suspended =>
    simp only [Machine.only_next, scheduler, next]
    split
    · exact inv
    · rename_i tasks ok
      exact inv.alter name suspended tasks ok allows
  | ask name params => exact inv.ask name params
  | asked now => exact inv.asked now sure
  | round => exact ⟨inv.core, inv.looking, inv.asking, inv.running, inv.ran⟩
  | look name now => exact inv.look name now allows.2
  | peek => exact inv.peek
  | claim params => exact inv.claim params sure
  | finish i status => exact inv.finish i status sure
  | stop i =>
    exact ⟨inv.core, inv.looking, inv.asking,
      fun r here => inv.running r (List.mem_of_mem_eraseIdx here), inv.ran⟩
  | crash =>
    exact ⟨inv.core, fun l no => by (cases no), fun q no => by (cases no),
      fun r here => (List.not_mem_nil here).elim, inv.ran⟩

/-- In every run whose claims and ends find the ticks as they were read, and whose replaced tasks leave
those that follow them one start, the graphs run once a run and in order. -/
theorem run_inOrder (zone : String → Nat → Local) (ops : List Op)
    (legal : ((scheduler zone).only Sure).Legal lake ops) :
    Holds zone ((scheduler zone).run lake ops) :=
  (((scheduler zone).only Sure).run_invariant (Inv zone) next_inv lake ops lake_inv legal).holds

/-- A scheduled task every minute, and one that follows others. -/
def everyMinute : Task := ⟨.seconds 60 (by decide), [], false, 0⟩
def afterThose (names : List String) : Task := ⟨.seconds 1 (by decide), names, false, 0⟩

/-- Coordinated universal time's first minute. -/
def epoch : String → Nat → Local := fun _ _ => ⟨0, 0, 1, 1, 4⟩

theorem diamond_inOrder :
    Holds epoch ((scheduler epoch).run lake [.create "r" everyMinute false false 1000,
      .create "a" (afterThose ["r"]) false false 1000, .create "b" (afterThose ["r"]) false false 1000,
      .create "f" (afterThose ["a", "b"]) false false 1000, .round, .look "r" 61000,
      .claim [("day", "1")], .finish 0 .ok, .look "a" 61000, .peek, .claim [], .look "b" 61000, .peek,
      .claim [], .finish 0 .ok, .finish 0 .skipped, .look "f" 61000, .peek, .peek, .claim [], .crash,
      .round, .look "f" 61500, .finish 0 .ok, .ask "r" [], .asked 62000, .look "r" 62000,
      .finish 0 .failed, .alter "b" true, .create "f" (afterThose ["b"]) true false 63000, .drop "a"]) :=
  run_inOrder epoch _ (by decide +kernel)

/-- A task of two others that start from one schedule, when one of those is made to follow another. -/
theorem replaced_twoStarts :
    ¬∀ zone ops, (scheduler zone).Legal lake ops → Holds zone ((scheduler zone).run lake ops) := by
  intro every
  have holds := every epoch [.create "r" everyMinute false false 1000,
    .create "q" everyMinute false false 1000, .create "a" (afterThose ["r"]) false false 1000,
    .create "b" (afterThose ["r"]) false false 1000,
    .create "f" (afterThose ["a", "b"]) false false 1000,
    .create "b" (afterThose ["q"]) true false 2000] (by decide +kernel)
  obtain ⟨⟨r, only⟩, -⟩ := holds.graphs "f" (by decide +kernel)
  have first := (only "r").mp ⟨by decide +kernel,
    (Relation.ReflTransGen.single ⟨["r"], by decide +kernel, by decide⟩ : Relation.ReflTransGen _ "r" "a").tail
      ⟨["a", "b"], by decide +kernel, by decide⟩⟩
  have second := (only "q").mp ⟨by decide +kernel,
    (Relation.ReflTransGen.single ⟨["q"], by decide +kernel, by decide⟩ : Relation.ReflTransGen _ "q" "b").tail
      ⟨["a", "b"], by decide +kernel, by decide⟩⟩
  rw [← second] at first
  revert first
  decide

end Pondra.Runs
