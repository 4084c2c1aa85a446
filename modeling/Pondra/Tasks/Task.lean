import Mathlib
import Pondra.Base.Dict
import Pondra.Base.Machine

set_option autoImplicit false

namespace Pondra.Tasks

open Dicts Machines

/-- A streaming task: its SQL runs over the new rows of `source`, its output goes to `target`. -/
structure Task where
  source : String
  target : String
  shards : Nat
  shardBy : Option String
  deriving DecidableEq

/-- The producer names that carry a task's progress, one a shard. -/
def producers (name : String) (task : Task) : List String :=
  match task.shards with
  | 1 => ["task:" ++ name]
  | n => (List.range n).map fun s => "task:" ++ name ++ ":" ++ toString s

theorem producers_length (name : String) (task : Task) :
    (producers name task).length = task.shards := by
  unfold producers
  split
  · rename_i one
    rw [one, List.length_singleton]
  · rw [List.length_map, List.length_range]

theorem producers_nodup (name : String) (task : Task) : (producers name task).Nodup := by
  unfold producers
  split
  · exact List.nodup_singleton _
  · apply List.Nodup.map _ List.nodup_range
    intro s t same
    exact Nat.repr_inj.mp (String.append_right_inj _ |>.mp same)

/-- A node's copy of the catalog: the last commit it includes, the tasks (`k/`) and the producers' marks
(`p/`). Each making of a task has a number, as if it were stored with it. -/
structure Copy where
  visible : Nat
  tasks : Dict String (Nat × Task)
  marks : Dict String Nat

/-- The seq a producer's mark stands at. -/
def Copy.mark (copy : Copy) (producer : String) : Nat := (copy.marks.lookup producer).getD 0

/-- The rows of one commit, a table at a time. -/
abbrev Segment (ρ : Type) := Dict String (List ρ)

/-- A row of a table: the commit it came with, its place there, and what it holds. -/
abbrev Row (ρ : Type) := (Nat × Nat) × ρ

variable {ρ : Type}

/-- A table's rows of one commit. -/
def rowsAt (log : Dict Nat (Segment ρ)) (table : String) (n : Nat) : List (Row ρ) :=
  ((((log.lookup n).bind fun seg => seg.lookup table).getD []).zipIdx).map fun x => ((n, x.2), x.1)

/-- A table's rows of the commits after `after`, up to `upto`, in order. -/
def tail (log : Dict Nat (Segment ρ)) (table : String) (after upto : Nat) : List (Row ρ) :=
  (List.range' (after + 1) (upto - after)).flatMap (rowsAt log table)

theorem tail_append (log : Dict Nat (Segment ρ)) (table : String) (a b c : Nat) (first : a ≤ b)
    (second : b ≤ c) : tail log table a b ++ tail log table b c = tail log table a c := by
  unfold tail
  rw [← List.flatMap_append]
  apply congrArg (List.flatMap (rowsAt log table))
  have starts : b + 1 = a + 1 + 1 * (b - a) := by omega
  have spans : b - a + (c - b) = c - a := by omega
  rw [starts, List.range'_append, spans]

theorem rowsAt_place {log : Dict Nat (Segment ρ)} {table : String} {n : Nat} {row : Row ρ}
    (inside : row ∈ rowsAt log table n) : row.1.1 = n := by
  obtain ⟨x, _, rfl⟩ := List.mem_map.mp inside
  rfl

theorem mem_tail (log : Dict Nat (Segment ρ)) (table : String) (after upto : Nat) (row : Row ρ) :
    row ∈ tail log table after upto ↔
      after < row.1.1 ∧ row.1.1 ≤ upto ∧ row ∈ rowsAt log table row.1.1 := by
  unfold tail
  rw [List.mem_flatMap]
  constructor
  · rintro ⟨n, within, inside⟩
    have place := rowsAt_place inside
    subst place
    rw [List.mem_range'_1] at within
    exact ⟨by omega, by omega, inside⟩
  · rintro ⟨low, high, inside⟩
    refine ⟨row.1.1, ?_, inside⟩
    rw [List.mem_range'_1]
    omega

/-- Each row is read at one place. -/
theorem tail_nodup (log : Dict Nat (Segment ρ)) (table : String) (after upto : Nat) :
    ((tail log table after upto).map Prod.fst).Nodup := by
  unfold tail
  rw [List.map_flatMap, List.nodup_flatMap]
  constructor
  · intro n _
    unfold rowsAt
    generalize ((log.lookup n).bind fun seg => seg.lookup table).getD [] = rows
    have places : (rows.zipIdx.map Prod.snd).Nodup := by
      rw [List.zipIdx_map_snd]
      exact List.nodup_range'
    have numbered : (rows.zipIdx.map fun x => ((n, x.2), x.1)).map Prod.fst =
        (rows.zipIdx.map Prod.snd).map fun i => (n, i) := by
      rw [List.map_map, List.map_map]
      rfl
    rw [numbered]
    exact places.map fun i j same => (Prod.mk.inj same).2
  · apply List.Pairwise.imp _ List.nodup_range'
    intro m n apart place inM inN
    obtain ⟨r, hereM, rfl⟩ := List.mem_map.mp inM
    obtain ⟨r', hereN, same⟩ := List.mem_map.mp inN
    have left := rowsAt_place hereM
    have right := rowsAt_place hereN
    rw [same] at right
    exact apart (left.symm.trans right)

/-- A commit of another number moves no row read before it. -/
theorem tail_insert (log : Dict Nat (Segment ρ)) (table : String) (after upto n : Nat)
    (segment : Segment ρ) (later : upto < n) :
    tail (log.insert n segment) table after upto = tail log table after upto := by
  unfold tail
  apply List.flatMap_congr
  intro m within
  rw [List.mem_range'_1] at within
  unfold rowsAt
  rw [lookup_insert_eq, if_neg (by omega)]

/-! ### A round of one shard -/

section runs

variable (hash : String → ρ → Nat)

/-- The rows whose column hashes to the shard; the column is asked for where there is more than one. -/
def Task.shardRows (task : Task) (shard : Nat) (rows : List (Row ρ)) : Option (List (Row ρ)) :=
  if 1 < task.shards then
    task.shardBy.map fun column =>
      rows.filter fun row => hash column row.2 % task.shards == shard
  else some rows

/-- A run's rows on their way to the target, and the progress they carry: `out` if it is still at `done`. -/
structure Run (ρ : Type) where
  task : Nat
  target : String
  shard : Nat
  producer : String
  done : Nat
  hwm : Nat
  input : List (Row ρ)
  out : List ρ

structure State (ρ : Type) where
  catalog : Copy
  past : List Copy
  log : Dict Nat (Segment ρ)
  last : Dict String Nat
  made : List (String × Task)
  runs : List (Run ρ)
  committed : List (Run ρ)

/-- The copies nodes may still read. -/
def State.copies (s : State ρ) : List Copy := s.past ++ [s.catalog]

/-- Where a producer stands as the sequencer sees it: what it remembers, then the catalog. -/
def State.seqOf (s : State ρ) (producer : String) : Nat :=
  (s.last.lookup producer).getD (s.catalog.mark producer)

/-- The sequencer takes a run whose progress still stands where the run read it. -/
def State.Takes (s : State ρ) (run : Run ρ) : Prop :=
  s.seqOf run.producer < run.hwm ∧ run.done = s.seqOf run.producer

instance (s : State ρ) (run : Run ρ) : Decidable (s.Takes run) :=
  inferInstanceAs (Decidable (_ ∧ _))

/-- The catalog after a commit of it. -/
def State.commit (s : State ρ) (catalog : Copy) : State ρ :=
  { s with catalog, past := s.copies }

/-- What a shard's round runs on a node whose reads include `hwm`: nothing where nothing is new. -/
def State.round (s : State ρ) (hwm : Nat) (scanned looked : Copy) (name : String) (shard : Nat)
    (out : List ρ) : Option (Run ρ) :=
  (scanned.tasks.lookup name).bind fun entry =>
    ((producers name entry.2)[shard]?).bind fun producer =>
      if hwm ≤ looked.mark producer then none
      else if tail s.log entry.2.source (looked.mark producer) hwm = [] then none
      else (entry.2.shardRows hash shard
        (tail s.log entry.2.source (looked.mark producer) hwm)).map fun input =>
          ⟨entry.1, entry.2.target, shard, producer, looked.mark producer, hwm, input, out⟩

inductive Op (ρ : Type) where
  /-- Rows of any tables, committed under a number past the last one. -/
  | write (number : Nat) (segment : Segment ρ)
  | create (name : String) (task : Task)
  | drop (name : String)
  /-- A node's round for one shard: it takes what its reads include, scans the tasks, then looks at the
  shard's mark, each in the copy it has then. -/
  | round (hwm scanned looked : Nat) (name : String) (shard : Nat) (out : List ρ)
  /-- A run's append gets to the sequencer, which may have other reasons to refuse it. -/
  | append (run : Nat) (number : Nat) (refused : Bool)
  /-- A run's append isn't sent again. -/
  | stop (run : Nat)
  /-- Another leader sequences: what the one before remembered is gone. -/
  | lead

/-- A task's entry and its target's, where the task is a proper one. -/
def State.create (s : State ρ) (name : String) (task : Task) : State ρ :=
  if 1 < task.shards ∧ task.shardBy = none then s
  else { s.commit { s.catalog with tasks := s.catalog.tasks.insert name (s.made.length, task) } with
    made := s.made ++ [(name, task)] }

/-- A task's entry and its shards' progress go in one commit. -/
def State.drop (s : State ρ) (name : String) : State ρ :=
  match s.catalog.tasks.lookup name with
  | none => s
  | some entry => s.commit { s.catalog with
      tasks := s.catalog.tasks.erase name
      marks := without s.catalog.marks (producers name entry.2) }

/-- A run's rows and its progress, in one commit. -/
def State.take (s : State ρ) (run : Run ρ) (number : Nat) : State ρ :=
  { s.commit { s.catalog with
      visible := number
      marks := s.catalog.marks.insert run.producer run.hwm } with
    log := s.log.insert number ((∅ : Segment ρ).insert run.target run.out)
    last := s.last.insert run.producer run.hwm
    committed := s.committed ++ [run] }

def State.next (s : State ρ) : Op ρ → State ρ
  | .write number segment =>
    { s.commit { s.catalog with visible := number } with log := s.log.insert number segment }
  | .create name task => s.create name task
  | .drop name => s.drop name
  | .round hwm scanned looked name shard out =>
    match s.copies[scanned]?, s.copies[looked]? with
    | some tasks, some marks =>
      { s with runs := s.runs ++ (s.round hash hwm tasks marks name shard out).toList }
    | _, _ => s
  | .append i number refused =>
    match s.runs[i]? with
    | none => s
    | some run => if refused = false ∧ s.Takes run then s.take run number else s
  | .stop i => { s with runs := s.runs.eraseIdx i }
  | .lead => { s with last := ∅ }

/-- Commits are numbered in order, and a copy is never older than one its node read before. -/
def State.Allows (s : State ρ) : Op ρ → Prop
  | .write number _ => s.catalog.visible < number
  | .append _ number _ => s.catalog.visible < number
  | .round hwm scanned looked _ _ _ =>
    scanned ≤ looked ∧ looked < s.copies.length ∧ ∀ copy ∈ s.copies[scanned]?, hwm ≤ copy.visible
  | _ => True

def machine : Machine (State ρ) (Op ρ) := ⟨State.next hash, State.Allows⟩

/-- A lake with no task yet. -/
def start (ρ : Type) : State ρ := ⟨⟨0, ∅, ∅⟩, [], ∅, ∅, [], [], []⟩

end runs

end Pondra.Tasks
