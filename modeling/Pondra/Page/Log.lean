import Mathlib.Algebra.GroupWithZero.Nat
import Pondra.Base.Dict
import Pondra.Base.Machine

set_option autoImplicit false

namespace Pondra.Page

open Machines Dicts

abbrev Keys := Dict String (List UInt8)

structure Batch where
  puts : List (String × List UInt8)
  deletes : List String

/-- Puts, then deletes: a key both put and deleted ends deleted. -/
def apply (keys : Keys) (batch : Batch) : Keys :=
  without (batch.puts.foldl (fun keys put => keys.insert put.1 put.2) keys) batch.deletes

/-! ### The objects' bytes: lengths are `u32`s -/

def pairsLength (pairs : List (String × List UInt8)) : Nat :=
  4 + (pairs.map fun pair => 4 + pair.1.utf8ByteSize + (4 + pair.2.length)).sum

def batchLength (batch : Batch) : Nat :=
  pairsLength batch.puts + (4 + (batch.deletes.map fun key => 4 + key.utf8ByteSize).sum)

def snapshotLength (keys : Keys) : Nat :=
  8 + pairsLength (keys.entries.map fun entry => (entry.1, entry.2))

/-- The most logs above the last snapshot before a checkpoint is due. -/
def mostLogs : Nat := 1024

/-- Is a snapshot due? Once the logs above the last one hold as many bytes as it does (and at least
`floor`), or once there are `mostLogs` of them. -/
def due (logged logs snapshot floor : Nat) : Bool :=
  decide (0 < logs) && (decide (max floor snapshot ≤ logged) || decide (mostLogs ≤ logs))

/-- A batch, and which of the calls of `write` it is of. -/
structure Write where
  id : Nat
  batch : Batch

/-- The catalog's objects: a batch a log, every key and value a snapshot, by sequence number. -/
structure Lake where
  logs : Dict Nat Write
  snapshots : Dict Nat Keys

/-- The logs or the snapshots in the lake, in sequence order. -/
def list {ν : Type} (folder : Dict Nat ν) : List Nat := folder.keys.insertionSort (· ≤ ·)

/-- Has a newer writer checkpointed past `seq`? -/
def passed (lake : Lake) (seq : Nat) : Bool := (list lake.snapshots).getLast?.any (seq ≤ ·)

/-! ### Replays -/

/-- The catalog as the lake's objects hold it: the last sequence number seen, the keys, and what the
snapshot and the logs above it weigh. -/
structure Replayed where
  last : Nat
  keys : Keys
  snapshot : Nat
  logged : Nat
  logs : Nat

/-- What a replay does next: list the logs, list the snapshots, read the last one, or read a log above
it. -/
inductive Replay where
  | logs
  | snapshots (logs : List Nat)
  | snapshot (logs : List Nat) (covered : Nat)
  | log (covered : Nat) (state : Replayed) (seq : Nat) (rest : List Nat)

namespace Replay

/-- The logs from here on: those the snapshot has are skipped. -/
def goOn (covered : Nat) : Replayed → List Nat → Replay ⊕ Replayed
  | state, [] => .inr state
  | state, seq :: rest =>
    let state := { state with last := max state.last seq }
    if seq ≤ covered then goOn covered state rest else .inl (.log covered state seq rest)

/-- One store call of a replay. It begins again where an object it listed is gone. -/
def step (lake : Lake) : Replay → Replay ⊕ Replayed
  | logs => .inl (.snapshots (list lake.logs))
  | snapshots listed =>
    match (list lake.snapshots).getLast? with
    | some covered => .inl (.snapshot listed covered)
    | none => goOn 0 ⟨0, ∅, 0, 0, 0⟩ listed
  | snapshot listed covered =>
    match lake.snapshots.lookup covered with
    | some keys => goOn covered ⟨covered, keys, snapshotLength keys, 0, 0⟩ listed
    | none => .inl .logs
  | log covered state seq rest =>
    match lake.logs.lookup seq with
    | some write =>
      let state := { state with
        keys := apply state.keys write.batch
        logged := state.logged + batchLength write.batch
        logs := state.logs + 1 }
      goOn covered state rest
    | none => .inl .logs

/-- The logs a replay has still to read, none of them below its snapshot. -/
def awaits : Replay → List Nat
  | logs | snapshots _ => []
  | snapshot listed covered => listed.filter (covered < ·)
  | log covered _ seq rest => (seq :: rest).filter (covered < ·)

end Replay

/-! ### Writers and readers -/

/-- A `write` that has created its log. `early`: no snapshot was at its number or past it then. -/
structure Writing where
  seq : Nat
  write : Write
  early : Bool

/-- What a checkpoint does next: put its snapshot, look whether a newer one passed it, list the logs,
delete those it covers (then list the snapshots), delete those below it. -/
inductive Stage where
  | put
  | check
  | logs
  | deleteLogs (rest : List Nat)
  | deleteSnapshots (rest : List Nat)

structure Folding where
  covered : Nat
  keys : Keys
  logged : Nat
  logs : Nat
  stage : Stage

/-- What a catch-up does next: list the logs, read those above its last, or replay. -/
inductive Catching where
  | list
  | logs (rest : List Nat) (batches : List Write)
  | replay (replay : Replay)

/-- An open catalog; `since` is how many writes had their answers when its last open or catch-up
began. -/
structure Log where
  writer : Bool
  keys : Keys
  next : Nat
  logged : Nat
  logs : Nat
  snapshot : Nat
  writing : Option Writing
  folding : Option Folding
  catching : Option (Nat × Catching)
  since : Nat

inductive Agent where
  | out
  | opening (writer : Bool) (since : Nat) (replay : Replay)
  | opened (log : Log)

/-- A write's answer: it is in, its log was there, or a snapshot is at its number or past it. -/
inductive Outcome where
  | ok
  | found
  | passed (early : Bool)
  deriving DecidableEq

structure Answer where
  agent : Nat
  seq : Nat
  write : Write
  outcome : Outcome

/-- The lake with everyone on it, the calls of `write` so far and their answers; `history` are the
batches that were the first at their numbers. -/
structure Tabs where
  lake : Lake
  agents : Nat → Agent
  tried : List Write
  answers : List Answer
  history : List Write

inductive Act where
  | «open» (a : Nat) (writer : Bool)
  | replay (a : Nat)
  | create (a : Nat) (batch : Batch)
  | check (a : Nat)
  | dropWrite (a : Nat)
  | checkpoint (a : Nat)
  | fold (a : Nat)
  | dropFold (a : Nat)
  | catchUp (a : Nat)
  | after (a : Nat)
  | dropCatching (a : Nat)

def Log.of (writer : Bool) (since : Nat) (state : Replayed) : Log :=
  ⟨writer, state.keys, state.last + 1, state.logged, state.logs, state.snapshot, none, none, none,
    since⟩

namespace Tabs

def start : Tabs := ⟨⟨∅, ∅⟩, fun _ => .out, [], [], []⟩

def put (s : Tabs) (a : Nat) (agent : Agent) : Tabs :=
  { s with agents := Function.update s.agents a agent }

/-- A write's create of its log. -/
def create (s : Tabs) (a : Nat) (log : Log) (batch : Batch) : Tabs :=
  let write : Write := ⟨s.tried.length, batch⟩
  match s.lake.logs.lookup log.next with
  | some _ =>
    { s with
      tried := s.tried ++ [write]
      answers := s.answers ++ [⟨a, log.next, write, .found⟩] }
  | none =>
    let early := !passed s.lake log.next
    { s.put a (.opened { log with writing := some ⟨log.next, write, early⟩ }) with
      lake := { s.lake with logs := s.lake.logs.insert log.next write }
      tried := s.tried ++ [write]
      history := if early then s.history ++ [write] else s.history }

/-- A write's look for a snapshot past it, and its answer. -/
def check (s : Tabs) (a : Nat) (log : Log) (w : Writing) : Tabs :=
  if passed s.lake w.seq then
    { s.put a (.opened { log with writing := none }) with
      answers := s.answers ++ [⟨a, w.seq, w.write, .passed w.early⟩] }
  else
    let log := { log with
      keys := apply log.keys w.write.batch
      next := w.seq + 1
      logged := log.logged + batchLength w.write.batch
      logs := log.logs + 1
      writing := none }
    { s.put a (.opened log) with answers := s.answers ++ [⟨a, w.seq, w.write, .ok⟩] }

/-- A checkpoint begins: the state it folds is taken between writes. -/
def checkpoint (s : Tabs) (floor a : Nat) (log : Log) : Tabs :=
  if due log.logged log.logs log.snapshot floor then
    s.put a (.opened { log with
      folding := some ⟨log.next - 1, log.keys, log.logged, log.logs, .put⟩ })
  else s

/-- One store call of a checkpoint. -/
def fold (s : Tabs) (a : Nat) (log : Log) (f : Folding) : Tabs :=
  let at' (stage : Stage) : Tabs := s.put a (.opened { log with folding := some { f with stage } })
  match f.stage with
  | .put =>
    match s.lake.snapshots.lookup f.covered with
    | some _ => at' .check
    | none =>
      { at' .check with
        lake := { s.lake with snapshots := s.lake.snapshots.insert f.covered f.keys } }
  | .check =>
    if passed s.lake (f.covered + 1) then s.put a (.opened { log with folding := none })
    else at' .logs
  | .logs => at' (.deleteLogs ((list s.lake.logs).filter (· ≤ f.covered)))
  | .deleteLogs (seq :: rest) =>
    { at' (.deleteLogs rest) with lake := { s.lake with logs := s.lake.logs.erase seq } }
  | .deleteLogs [] => at' (.deleteSnapshots ((list s.lake.snapshots).filter (· < f.covered)))
  | .deleteSnapshots (seq :: rest) =>
    { at' (.deleteSnapshots rest) with
      lake := { s.lake with snapshots := s.lake.snapshots.erase seq } }
  | .deleteSnapshots [] =>
    s.put a (.opened { log with
      logged := log.logged - f.logged
      logs := log.logs - f.logs
      snapshot := snapshotLength f.keys
      folding := none })

/-- One store call of a catch-up: the batches above its last, or the whole catalog when a checkpoint
has folded some of them. -/
def after (s : Tabs) (a : Nat) (log : Log) (since : Nat) (c : Catching) : Tabs :=
  let at' (c : Catching) : Tabs := s.put a (.opened { log with catching := some (since, c) })
  match c with
  | .list => at' (.logs ((list s.lake.logs).filter (log.next - 1 < ·)) [])
  | .logs (seq :: rest) batches =>
    if seq ≠ log.next + batches.length then at' (.replay .logs)
    else
      match s.lake.logs.lookup seq with
      | some write => at' (.logs rest (batches ++ [write]))
      | none => at' (.replay .logs)
  | .logs [] batches =>
    if passed s.lake log.next then at' (.replay .logs)
    else
      s.put a (.opened { log with
        keys := batches.foldl (fun keys write => apply keys write.batch) log.keys
        next := log.next + batches.length
        catching := none
        since := since })
  | .replay r =>
    match r.step s.lake with
    | .inl r => at' (.replay r)
    | .inr state =>
      s.put a (.opened { log with
        keys := state.keys
        next := state.last + 1
        catching := none
        since := since })

end Tabs

/-- Any number of writers and readers on one lake, each store call a step. A call that stops leaves what
it has done. A reader's `fresh` reads do no call. -/
def page (floor : Nat) : Machine Tabs Act where
  next s
    | .open a writer =>
      match s.agents a with
      | .out => s.put a (.opening writer s.answers.length .logs)
      | _ => s
    | .replay a =>
      match s.agents a with
      | .opening writer since r =>
        match r.step s.lake with
        | .inl r => s.put a (.opening writer since r)
        | .inr state => s.put a (.opened (.of writer since state))
      | _ => s
    | .create a batch =>
      match s.agents a with
      | .opened log => if log.writer && log.writing.isNone then s.create a log batch else s
      | _ => s
    | .check a =>
      match s.agents a with
      | .opened log =>
        match log.writing with
        | some w => s.check a log w
        | none => s
      | _ => s
    | .dropWrite a =>
      match s.agents a with
      | .opened log => s.put a (.opened { log with writing := none })
      | _ => s
    | .checkpoint a =>
      match s.agents a with
      | .opened log =>
        if log.writer && log.writing.isNone && log.folding.isNone then s.checkpoint floor a log else s
      | _ => s
    | .fold a =>
      match s.agents a with
      | .opened log =>
        match log.folding with
        | some f => s.fold a log f
        | none => s
      | _ => s
    | .dropFold a =>
      match s.agents a with
      | .opened log => s.put a (.opened { log with folding := none })
      | _ => s
    | .catchUp a =>
      match s.agents a with
      | .opened log =>
        if !log.writer && log.catching.isNone then
          s.put a (.opened { log with catching := some (s.answers.length, .list) })
        else s
      | _ => s
    | .after a =>
      match s.agents a with
      | .opened log =>
        match log.catching with
        | some (since, c) => s.after a log since c
        | none => s
      | _ => s
    | .dropCatching a =>
      match s.agents a with
      | .opened log => s.put a (.opened { log with catching := none })
      | _ => s
  Allows _ _ := True

def Agent.awaits : Agent → List Nat
  | .opening _ _ r => r.awaits
  | .opened ⟨_, _, _, _, _, _, _, _, some (_, .replay r), _⟩ => r.awaits
  | _ => []

/-- No log that a snapshot covers is created again while a replay that listed it, as one above its
snapshot, has still to read it. -/
def Tabs.Clear (s : Tabs) : Act → Prop
  | .create a _ => ∀ log, s.agents a = .opened log → s.lake.logs.lookup log.next = none →
    passed s.lake log.next = true → ∀ b, log.next ∉ (s.agents b).awaits
  | _ => True

/-- The keys after the first `n` batches of a history. -/
def shown (history : List Write) (n : Nat) : Keys :=
  (history.take n).foldl (fun keys write => apply keys write.batch) ∅

/-- One history: every `write` answered Ok is in it once, at its number; one answered fenced is not,
but where its log was the first at its number (a snapshot that covers it came before its check); and
every open catalog shows a prefix of it, with every write answered before its last open or catch-up
began, a writer's with all its own. -/
structure Tabs.OneHistory (s : Tabs) : Prop where
  once : (s.history.map (·.id)).Nodup
  ok : ∀ answer ∈ s.answers, answer.outcome = .ok →
    1 ≤ answer.seq ∧ s.history[answer.seq - 1]? = some answer.write
  fenced : ∀ answer ∈ s.answers, answer.outcome ≠ .ok →
    (answer.write.id ∈ s.history.map (·.id) ↔ answer.outcome = .passed true)
  keys : ∀ a log, s.agents a = .opened log → log.next - 1 ≤ s.history.length ∧
    log.keys = shown s.history (log.next - 1) ∧
    (∀ answer ∈ s.answers.take log.since, answer.outcome = .ok → answer.seq < log.next) ∧
    ∀ answer ∈ s.answers, answer.agent = a → answer.outcome = .ok → answer.seq < log.next

end Pondra.Page
