import Pondra.Base.Dict
import Pondra.Base.Machine

set_option autoImplicit false

namespace Pondra.Tier

open Dicts Machines

/-! ### The catalog, as retention reads it -/

/-- A file commit's part of a segment: the rows of the files it adds, and whether it took files out
or deleted rows from them. -/
structure Filed where
  added : Nat
  removed : Bool
  deleted : Bool
  deriving DecidableEq

structure Segment where
  n : Nat
  ts : Nat
  parts : List (String × Nat)
  files : List (String × Filed)
  deriving DecidableEq

/-- Rows of `table` this segment gives the log's readers. -/
def Segment.rowsOf (s : Segment) (table : String) : Nat :=
  (s.parts.lookup table).getD 0 + ((s.files.lookup table).map (·.added)).getD 0

/-- Has the segment changed `source`'s rows? -/
def Segment.moved (s : Segment) (source : String) : Bool :=
  decide (0 < s.rowsOf source) || decide (0 < s.rowsOf (source ++ "$deleted")) ||
    (s.files.lookup source).any fun f => f.removed || f.deleted

/-- A task. `made` is history: how many segments were gone when it was made. -/
structure Task where
  source : String
  shards : Nat
  made : Nat

/-- The producer names that carry a task's progress, one per shard. -/
def producers (name : String) (task : Task) : List String :=
  match task.shards with
  | 1 => ["task:" ++ name]
  | n => (List.range n).map fun s => "task:" ++ name ++ ":" ++ toString s

/-- A view that runs its query again, with the tables it follows. -/
structure View where
  follows : List String
  made : Nat

section entries

variable {α : Type}

/-- A catalog's entry put, in its key's order. -/
def put (key : String) (value : α) : List (String × α) → List (String × α)
  | [] => [(key, value)]
  | e :: rest =>
    if key = e.1 then (key, value) :: rest
    else if key < e.1 then (key, value) :: e :: rest
    else e :: put key value rest

def remove (key : String) (entries : List (String × α)) : List (String × α) :=
  entries.filter fun e => decide (e.1 ≠ key)

end entries

/-- The tables' marks (`tiered`), the tasks and the rerun views, and the producers' marks. -/
structure Lake where
  hwm : Nat
  segments : List Segment
  tables : List (String × Nat)
  tasks : List (String × Task)
  views : List (String × View)
  marks : Dict String Nat

/-- Who reads the log: a task's shard or a rerun view, with the segments it has to read. -/
structure Reader where
  producer : String
  reads : Segment → Bool
  made : Nat

def taskReaders (name : String) (task : Task) : List Reader :=
  (producers name task).map fun p => ⟨p, fun s => decide (0 < s.rowsOf task.source), task.made⟩

def viewReader (name : String) (v : View) : Reader :=
  ⟨"rerun:" ++ name, fun s => v.follows.any s.moved, v.made⟩

namespace Lake

variable (lake : Lake)

def done (producer : String) : Nat := (lake.marks.lookup producer).getD 0

/-- The segments in (after, upto]. -/
def between (after upto : Nat) : List Segment :=
  lake.segments.filter fun s => decide (after < s.n) && decide (s.n ≤ upto)

def readers : List Reader :=
  lake.tasks.flatMap (fun t => taskReaders t.1 t.2) ++ lake.views.map fun v => viewReader v.1 v.2

def lowest (none : Nat) : Nat := (lake.tables.map (·.2)).min?.getD none

/-- Has the log rows of the table to tier? -/
def pending (table : String) : Bool :=
  (lake.between (lake.lowest lake.hwm) lake.hwm).any fun s => (s.parts.lookup table).isSome

/-- Tables with nothing new in the log have their marks moved to the end of it. -/
def jumped : Lake :=
  { lake with
    tables := lake.tables.map fun t =>
      if t.2 < lake.hwm ∧ lake.pending t.1 = false then (t.1, lake.hwm) else t }

/-- The floor, for a reader that may still have to read segments below it. -/
def lower (floor : Nat) (r : Reader) : Nat :=
  if lake.done r.producer < floor ∧ (lake.between (lake.done r.producer) floor).any r.reads = true then
    lake.done r.producer
  else floor

/-- The tables' marks with a new table's, where it isn't there. -/
def made (table : String) (tiered : Nat) : List (String × Nat) :=
  if (lake.tables.lookup table).isSome then lake.tables else put table tiered lake.tables

def floor : Nat := lake.readers.foldl lake.lower (lake.lowest 0)

end Lake

/-! ### The rounds -/

/-- The floors of `grace_ms` ago and since. -/
def passed (cutoff : Nat) : List (Nat × Nat) → List (Nat × Nat)
  | a :: b :: rest => if b.1 ≤ cutoff then passed cutoff (b :: rest) else a :: b :: rest
  | floors => floors

/-- `floors` is the node's queue. History: `rounds` has every floor there was, `gone` the segments
deleted. -/
structure State where
  lake : Lake
  floors : List (Nat × Nat)
  clock : Nat
  rounds : List (Nat × Nat)
  gone : List Segment

inductive Op where
  | commit (ts : Nat) (parts : List (String × Nat)) (files : List (String × Filed))
  | tier (table : String) (upto : Nat)
  | makeTable (table : String)
  | dropTable (table : String)
  | makeTask (name source : String) (shards : Nat) (target : String)
  | dropTask (name : String)
  | makeView (name : String) (follows : List String)
  | dropView (name : String)
  | mark (producer : String) (seq : Nat)
  | expire (start pushed last grace changelog : Nat)
  | restart

/-- A round of retention. The clock is read three times: `start` gives the cutoff, `pushed` the
floor's time, `last` how far the change feed is kept. -/
def expire (start pushed last grace changelog : Nat) (s : State) : State :=
  let cutoff := start - grace
  let lake := s.lake.jumped
  let floors := passed cutoff (s.floors ++ [(pushed, lake.floor)])
  let floor := match floors.head? with
    | some f => if f.1 ≤ cutoff then f.2 else 0
    | none => 0
  let dead (seg : Segment) : Bool :=
    decide (1 ≤ seg.n) && decide (seg.n ≤ floor) && decide (seg.ts < min cutoff (last - changelog))
  { lake := { lake with segments := lake.segments.filter fun seg => !dead seg }
    floors := floors
    clock := last
    rounds := s.rounds ++ [(pushed, lake.floor)]
    gone := s.gone ++ lake.segments.filter dead }

def next (s : State) : Op → State
  | .commit ts parts files =>
    let n := s.lake.hwm + 1
    { s with lake := { s.lake with
        hwm := n, segments := s.lake.segments ++ [⟨n, ts, parts, files⟩] } }
  | .tier table upto =>
    match s.lake.tables.lookup table with
    | some tiered =>
      if tiered < upto ∧ upto ≤ s.lake.hwm then
        { s with lake := { s.lake with tables := put table upto s.lake.tables } }
      else s
    | none => s
  | .makeTable table => { s with lake := { s.lake with tables := s.lake.made table s.lake.hwm } }
  | .dropTable table => { s with lake := { s.lake with tables := remove table s.lake.tables } }
  | .makeTask name source shards target =>
    { s with lake := { s.lake with
        tables := s.lake.made target 0 -- an entry with no mark yet
        tasks := put name ⟨source, shards, s.gone.length⟩ s.lake.tasks } }
  | .dropTask name =>
    match s.lake.tasks.lookup name with
    | some task =>
      { s with lake := { s.lake with
          tasks := remove name s.lake.tasks
          marks := without s.lake.marks (producers name task) } }
    | none => s
  | .makeView name follows =>
    { s with lake := { s.lake with
        tables := s.lake.made name s.lake.hwm
        views := put name ⟨follows, s.gone.length⟩ s.lake.views } }
  | .dropView name =>
    { s with lake := { s.lake with
        tables := remove name s.lake.tables
        views := remove name s.lake.views
        marks := without s.lake.marks ["rerun:" ++ name] } }
  | .mark producer seq =>
    if s.lake.done producer < seq then
      { s with lake := { s.lake with marks := s.lake.marks.insert producer seq } }
    else s
  | .expire start pushed last grace changelog => expire start pushed last grace changelog s
  | .restart => { s with floors := [] }

/-- The clock never goes back. -/
def Allows (s : State) : Op → Prop
  | .expire start pushed last _ _ => s.clock ≤ start ∧ start ≤ pushed ∧ pushed ≤ last
  | _ => True

def retention : Machine State Op where
  next := next
  Allows := Allows

/-! ### What a round may delete -/

/-- The reader has no row to read past its mark, up to a floor. -/
def Lake.Read (lake : Lake) (floor : Nat) (r : Reader) : Prop :=
  ∀ seg ∈ lake.segments, lake.done r.producer < seg.n → seg.n ≤ floor → r.reads seg = false

/-- A segment goes only where every table has tiered past it, every reader has read past it or has
no row in it, and a round `grace_ms` ago or more had its floor at or above it. -/
structure Kept (grace start : Nat) (s after : State) (seg : Segment) : Prop where
  tables : ∀ t ∈ after.lake.tables, seg.n ≤ t.2
  readers : ∀ r ∈ s.lake.readers, seg.n ≤ s.lake.done r.producer ∨ r.reads seg = false
  old : ∃ round ∈ after.rounds, round.1 + grace ≤ start ∧ seg.n ≤ round.2

/-- Segments go in a round only, and as they may. -/
def KeepsUnread (s : State) (op : Op) : Prop :=
  ∀ seg ∈ s.lake.segments, seg ∉ (next s op).lake.segments →
    ∃ start pushed last grace changelog, op = .expire start pushed last grace changelog ∧
      Kept grace start s (next s op) seg

/-- No reader finds a segment gone, since it was made, with rows it has not read. -/
def State.Finds (s : State) : Prop :=
  ∀ r ∈ s.lake.readers, ∀ seg ∈ s.gone.drop r.made,
    seg.n ≤ s.lake.done r.producer ∨ r.reads seg = false

/-- What is made has nothing to read (and a task's new target nothing to tier) at or below a floor
in the queue, and what is dropped takes no mark that another reader goes by. -/
def Sure (s : State) : Op → Prop
  | .makeTask name source shards target =>
    (∀ f ∈ s.floors, ∀ r ∈ taskReaders name ⟨source, shards, s.gone.length⟩, s.lake.Read f.2 r) ∧
      ((s.lake.tables.lookup target).isSome = false → ∀ f ∈ s.floors, f.2 = 0)
  | .makeView name follows =>
    ∀ f ∈ s.floors, s.lake.Read f.2 (viewReader name ⟨follows, s.gone.length⟩)
  | .dropTask name =>
    match s.lake.tasks.lookup name with
    | some task => ∀ r ∈ (next s (.dropTask name)).lake.readers, r.producer ∉ producers name task
    | none => True
  | .dropView name => ∀ r ∈ (next s (.dropView name)).lake.readers, r.producer ≠ "rerun:" ++ name
  | _ => True

instance (lake : Lake) (floor : Nat) (r : Reader) : Decidable (lake.Read floor r) :=
  inferInstanceAs (Decidable (∀ seg ∈ lake.segments, _ → _ → _))

instance (s : State) : Decidable s.Finds :=
  inferInstanceAs (Decidable (∀ r ∈ s.lake.readers, ∀ seg ∈ s.gone.drop r.made, _))

instance (s : State) (op : Op) : Decidable (retention.Allows s op) :=
  match op with
  | .expire .. => inferInstanceAs (Decidable (_ ∧ _ ∧ _))
  | .commit .. | .tier .. | .makeTable _ | .dropTable _ | .makeTask .. | .dropTask _
  | .makeView .. | .dropView _ | .mark .. | .restart => inferInstanceAs (Decidable True)

instance (s : State) (op : Op) : Decidable (Sure s op) := by
  unfold Sure
  split
  · infer_instance
  · infer_instance
  · split <;> infer_instance
  · infer_instance
  · infer_instance

instance (s : State) (op : Op) : Decidable ((retention.only Sure).Allows s op) :=
  inferInstanceAs (Decidable (_ ∧ _))

end Pondra.Tier
