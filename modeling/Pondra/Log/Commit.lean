import Pondra.Base.Machine
import Pondra.Log.Flush
import Pondra.Log.Window
import Mathlib.Data.Prod.Lex
import Mathlib.Data.String.Basic

set_option autoImplicit false

namespace Pondra.Log

open Dicts Machines

/-! ### The catalog, as a commit reads and writes it -/

/-- An expiry key: when the mark of a producer is due. Keys go by due time, then by name. -/
structure Expiry where
  due : Nat
  producer : String

def Expiry.place (key : Expiry) : Nat ×ₗ String := toLex (key.due, key.producer)

theorem Expiry.place_injective : Function.Injective Expiry.place := by
  intro a b same
  have parts : (a.due, a.producer) = (b.due, b.producer) := toLex.injective same
  cases a
  cases b
  simpa using parts

instance : LinearOrder Expiry := LinearOrder.lift' Expiry.place Expiry.place_injective

/-- Where the old marks' pass is. -/
inductive Pass where
  | cursor (producer : String)
  | done
  deriving DecidableEq

structure Catalog where
  marks : Dict String Nat
  expiries : Dict Expiry Nat
  pass : Option Pass
  n : Option Nat
  b : Option Nat

/-- A flush's answer, and the parts of it that the commit took, with their places in it. -/
structure Answer where
  flush : Flush
  outcome : Outcome
  taken : List (Part × Nat)
  deriving DecidableEq

/-- One catalog write. `answers` are what its flushes are told once it is committed. -/
structure Write where
  marks : Dict String Nat
  dropped : List String
  expiries : Dict Expiry Nat
  expired : List Expiry
  pass : Option Pass
  n : Nat
  b : Option Nat
  segs : List (Nat × Segment)
  data : List (Nat × List UInt8)
  tables : List (String × TableMeta)
  also : List (String × List UInt8)
  quiet : Bool
  answers : List Answer

/-- The puts, then the deletes. -/
def Catalog.apply (catalog : Catalog) (write : Write) : Catalog where
  marks := without (write.marks ∪ catalog.marks) write.dropped
  expiries := without (write.expiries ∪ catalog.expiries) write.expired
  pass := write.pass.or catalog.pass
  n := some write.n
  b := write.b.or catalog.b

/-! ### The sequencer -/

/-- The leader's sequencer, over the catalog it found and the writes made since. The leader's copy
of the catalog lags: `landed` of the writes are known to be in it. -/
structure Sequencer where
  base : Catalog
  wrote : List Write
  landed : Nat
  next : Nat
  block : Nat
  last : Dict String Nat
  started : Nat
  pass : Pass
  forgotten : List String
  clock : Nat

/-- The catalog after the first `n` writes. -/
def Sequencer.copy (s : Sequencer) (n : Nat) : Catalog :=
  (s.wrote.take n).foldl Catalog.apply s.base

/-- The catalog with every write in it. -/
def Sequencer.full (s : Sequencer) : Catalog := s.wrote.foldl Catalog.apply s.base

/-- A sequencer started on what is in the catalog. -/
def Sequencer.start (base : Catalog) (wrote : List Write) (now : Nat) : Sequencer :=
  let found := wrote.foldl Catalog.apply base
  { base := base
    wrote := wrote
    landed := wrote.length
    next := found.n.getD 1
    block := found.b.getD (found.n.getD 1)
    last := ∅
    started := now
    pass := found.pass.getD (.cursor "")
    forgotten := []
    clock := now }

/-- The seq a producer's mark stands at: pending here first, then remembered, then the catalog's. -/
def seqOf (catalog : Catalog) (last : Dict String Nat) (pending : List (Dict String Nat))
    (producer : String) : Nat :=
  (((pending.findSome? fun seqs => seqs.lookup producer).or (last.lookup producer)).or
    (catalog.marks.lookup producer)).getD 0

/-! ### One flush -/

/-- The inline views, as the sequencer holds flushes to them. -/
structure Inline where
  bySource : String → List String
  tables : List String

/-- What a commit finds as it looks at one flush: how much of the catalog its copy holds, the tables
held, the entry of each part's table, a sequence's answer, and the time. -/
structure Seen where
  copy : Nat
  held : List String
  found : Nat → Option TableMeta
  counter : Outcome
  ms : Nat

def Part.written (p : Part) : Bool := p.src.isSome && decide (0 < p.rows)

namespace Flush

def derived (f : Flush) : List String := (f.parts.filter fun p => p.src.isNone).map (·.table)

/-- The tables of a file commit's rows. -/
def filedTables (f : Flush) : List String :=
  (f.filed.filter fun x => !x.added.isEmpty || !x.removed.isEmpty || !x.deleted.isEmpty).map
    (·.table)

/-- Was it packed with other views than the ones its tables have now? -/
def stale (f : Flush) (views : Inline) : Bool :=
  (((f.parts.filter fun p => decide (0 < p.rows)).map (·.table) ++ f.filedTables).flatMap
    views.bySource).any (fun view => !f.derived.contains view) ||
  f.derived.any fun table => !views.tables.contains table

/-- Has it rows for a table whose entry is moving? -/
def waits (f : Flush) (held : List String) : Bool :=
  (f.parts.filter Part.written).any fun p => held.contains p.table

/-- Why a written part can't go into the table that is there. -/
def bar (f : Flush) (entry : Option TableMeta) (p : Part) : Option Skip :=
  match entry with
  | none => some .gone
  | some entry =>
    if !f.checked && entry.enforced then some .refused
    else if p.placed.any fun placed => !entry.placings.contains placed then some .moved
    else none

/-- The parts whose tables don't take them, in order. -/
def barred (f : Flush) (found : Nat → Option TableMeta) : List (Nat × Skip) :=
  f.parts.zipIdx.filterMap fun part =>
    if part.1.written then (f.bar (found part.2) part.1).map fun skip => (part.2, skip) else none

end Flush

/-- What the check of retries has found so far: the marks this flush moves, the parts it skips. -/
structure Checked where
  mine : Dict String Nat
  stale : List (Nat × Skip)

/-- One part's check: a retry of a committed batch, or one whose `prev` no longer holds, is skipped. -/
def checkPart (standing : Dict String Nat → String → Nat) (barred : List Nat) (checked : Checked)
    (part : Part × Nat) : Checked :=
  match part.1.src with
  | none => checked
  | some src =>
    if part.2 ∈ barred ∨ src.producer = "" then checked
    else if src.seq ≤ standing checked.mine src.producer then
      { checked with stale := checked.stale ++ [(part.2, .duplicate)] }
    else if src.prev.any fun prev => prev ≠ standing checked.mine src.producer then
      { checked with stale := checked.stale ++ [(part.2, .conflict)] }
    else { checked with mine := checked.mine.insert src.producer src.seq }

namespace Flush

def check (f : Flush) (standing : Dict String Nat → String → Nat) (barred : List Nat) : Checked :=
  f.parts.zipIdx.foldl (checkPart standing barred) ⟨∅, []⟩

/-- The parts' acks: why each one skipped was, and where the others' rows start. -/
def acks (f : Flush) (bad : List (Nat × Skip)) (rows : List (Nat × Nat)) (seg : Nat) : List Ack :=
  f.parts.zipIdx.map fun part =>
    match bad.lookup part.2 with
    | some skip => skip.ack
    | none => { Ack.blank with seg := seg, row := (rows.lookup part.2).getD 0 }

/-- The parts that are not skipped. -/
def good (f : Flush) (bad : List (Nat × Skip)) : List (Part × Nat) :=
  f.parts.zipIdx.filter fun part => (bad.lookup part.2).isNone

end Flush

/-- The parts of a flush as its segment names them, and where each part's rows start. -/
structure Laid where
  parts : Shelf
  rows : List (Nat × Nat)

def layPart (base : Nat) (before : String → Nat) (laid : Laid) (part : Part × Nat) : Laid where
  parts := Shelf.push laid.parts part.1.table
    ⟨base + part.1.off, part.1.len, part.1.rows, part.1.src⟩
  rows := laid.rows ++
    [(part.2, before part.1.table + rowsOf (Shelf.of laid.parts part.1.table))]

def Flush.lay (f : Flush) (bad : List (Nat × Skip)) (base : Nat) (before : String → Nat) : Laid :=
  ((f.good bad).filter fun part => decide (0 < part.1.rows)).foldl (layPart base before) ⟨∅, []⟩

/-! ### One commit -/

/-- What a commit has made of the flushes it has looked at. -/
structure Batch where
  next : Nat
  block : Nat
  seqs : Dict String Nat
  answers : List Answer
  inlined : List UInt8
  inlineParts : Shelf
  segs : List (Nat × Segment)
  data : List (Nat × List UInt8)
  tables : List (String × TableMeta)
  also : List (String × List UInt8)
  lost : List String
  takes : Option Bool

namespace Batch

def answer (b : Batch) (f : Flush) (outcome : Outcome) (taken : List (Part × Nat)) :
    Batch :=
  { b with answers := b.answers ++ [⟨f, outcome, taken⟩] }

/-- A sequence's op: a number of its own, and the counter's answer. -/
def count (b : Batch) (op : SequenceOp) (counter : Outcome) (f : Flush) : Batch :=
  { b with
    takes := some (b.takes.getD true && decide (op = SequenceOp.take))
    next := b.next + 1 }.answer f counter []

/-- The most a commit number or a block may be: what a `_version` holds. -/
def i64Max : Nat := 2 ^ 63 - 1

/-- Numbers no segment will take, and blocks of row ids. -/
def reserve (b : Batch) (ms : Nat) (f : Flush) : Batch :=
  let after := b.next + f.reserve
  let blocks := b.block + f.block.toNat + f.blocks
  if after ≤ i64Max ∧ blocks ≤ i64Max then
    { b with
      takes := some (b.takes.getD true)
      next := after
      block := blocks }.answer f
      (.acks [{ Ack.blank with seg := b.next, ms := ms, block := b.block }]) []
  else b.answer f (.refused "a flush may not reserve so many") []

/-- An object flush, or a file commit, becomes the next segment. -/
def segment (b : Batch) (ms : Nat) (f : Flush) (laid : Laid) : Batch :=
  let seg := b.next
  let files := f.filed.foldl (fun files (x : Filing) =>
    files.insert x.table
      ⟨x.added.map fun file => stampFile file seg ms, x.removed, x.deleted⟩) (∅ : Dict String Filed)
  { b with
    next := b.next + span laid.parts files
    segs := b.segs ++ [(seg, ⟨f.path, laid.parts, ms, files⟩)]
    data := if f.path = "" ∧ f.data ≠ [] then b.data ++ [(seg, f.data)] else b.data
    tables := b.tables ++ f.filed.map fun x =>
      (x.table, { x.entry with
        files := x.entry.files ++ x.added.map fun file => stampFile file seg ms
        rowsAt := seg })
    also := b.also ++ f.filed.flatMap (·.also)
    lost := b.lost ++ f.filed.flatMap (·.gone) }

/-- Does it go into the segment of all inline flushes? -/
def inline (f : Flush) : Bool := decide (f.path = "" ∧ f.filed = [])

/-- A flush's parts as its segment will name them. -/
def laid (b : Batch) (f : Flush) (bad : List (Nat × Skip)) : Laid :=
  f.lay bad (if inline f then b.inlined.length else 0)
    fun table => if inline f then rowsOf (Shelf.of b.inlineParts table) else 0

/-- A flush whose parts are taken, but for the ones skipped. -/
def take (b : Batch) (ms : Nat) (f : Flush) (mine : Dict String Nat) (bad : List (Nat × Skip)) :
    Batch :=
  let laid := b.laid f bad
  let b := { b with seqs := mine ∪ b.seqs }
  if laid.parts.entries = [] ∧ f.filed = [] then
    b.answer f (.acks (f.acks bad laid.rows 0)) (f.good bad)
  else if inline f then
    { b with
      inlined := b.inlined ++ f.data
      inlineParts := Shelf.extend b.inlineParts laid.parts }.answer f
      -- the inline segment's number, set by `finish`
      (.acks (f.acks bad laid.rows u64Max)) (f.good bad)
  else (b.segment ms f laid).answer f (.acks (f.acks bad laid.rows b.next)) (f.good bad)

end Batch

/-- What the marks are for a flush looked at now: its own first, then this commit's. -/
def Sequencer.standing (s : Sequencer) (copy : Nat) (seqs mine : Dict String Nat)
    (producer : String) : Nat :=
  seqOf (s.copy copy) s.last [mine, seqs] producer

def Sequencer.checked (s : Sequencer) (seen : Seen) (seqs : Dict String Nat) (f : Flush) : Checked :=
  f.check (s.standing seen.copy seqs) ((f.barred seen.found).map Prod.fst)

/-- The parts a flush is to do without: first those whose tables don't take them, then the retries. -/
def Sequencer.bad (s : Sequencer) (seen : Seen) (seqs : Dict String Nat) (f : Flush) :
    List (Nat × Skip) :=
  f.barred seen.found ++ (s.checked seen seqs f).stale

/-- One flush of a commit. -/
def takeFlush (s : Sequencer) (views : Inline) (b : Batch) (x : Seen × Flush) : Batch :=
  let (seen, f) := x
  match f.sequence with
  | some op => b.count op seen.counter f
  | none =>
  if 0 < f.reserve ∨ f.block ∨ 0 < f.blocks then b.reserve seen.ms f
  else if f.stale views then b.answer f (.retry []) []
  else if f.waits seen.held then b.answer f (.retry []) []
  else
  let bad := s.bad seen b.seqs f
  if bad ≠ [] ∧ f.filed ≠ [] then b.answer f (.acks (f.acks bad [] 0)) []
  else if bad ≠ [] ∧ f.parts.any (fun p => p.src.isNone) then
    b.answer f (.retry (bad.map fun skipped => (skipped.1, skipped.2.ack))) []
  else b.take seen.ms f (s.checked seen b.seqs f).mine bad

/-- The inline segment's number, for the acks that wait for it. -/
def Ack.number (seg : Nat) (a : Ack) : Ack := if a.seg = u64Max then { a with seg := seg } else a

def Answer.number (seg : Nat) (a : Answer) : Answer :=
  match a.outcome with
  | .acks acks => { a with outcome := .acks (acks.map (Ack.number seg)) }
  | _ => a

/-- All inline flushes are one segment, numbered last. -/
def Batch.finish (b : Batch) (ms : Nat) : Batch :=
  if b.inlineParts.entries = [] then b
  else
    { b with
      next := b.next + span b.inlineParts ∅
      data := b.data ++ [(b.next, b.inlined)]
      segs := b.segs ++ [(b.next, ⟨"", b.inlineParts, ms, ∅⟩)]
      answers := b.answers.map (Answer.number b.next) }

/-! ### The marks' expiry -/

/-- Expiry keys and marks one commit works through, at most. -/
def perCommit : Nat := 10000

/-- Each mark a commit makes gets an expiry key, due its window from now. -/
def keyMarks (config : Config) (now : Nat) (seqs : Dict String Nat) : Dict Expiry Nat :=
  seqs.entries.foldl (fun puts (mark : Σ _ : String, Nat) =>
    if 0 < keptMs config mark.1 now then
      puts.insert ⟨now + keptMs config mark.1 now, mark.1⟩ mark.2
    else puts) ∅

/-- The marks the due keys take with them, and what is remembered then. -/
def expireMarks (catalog : Catalog) (seqs : Dict String Nat) :
    List (Σ _ : Expiry, Nat) → Dict String Nat × List String → Dict String Nat × List String
  | [], gone => gone
  | ⟨key, seq⟩ :: rest, (last, going) =>
    if key.producer ∈ seqs ∨ seqOf catalog last [seqs] key.producer ≠ seq ∨ key.producer ∈ going then
      expireMarks catalog seqs rest (last, going)
    else expireMarks catalog seqs rest (last.erase key.producer, going ++ [key.producer])

/-- The old marks a commit keys. -/
def keyPage (config : Config) (now : Nat) (catalog : Catalog) (last seqs : Dict String Nat)
    (page : List (Σ _ : String, Nat)) (puts : Dict Expiry Nat) : Dict Expiry Nat :=
  page.foldl (fun puts mark =>
    let kept := keptMs config mark.1 now
    let seq := seqOf catalog last [seqs] mark.1
    if kept = 0 ∨ mark.1 ∈ seqs ∨ seq = 0 then puts
    else puts.insert ⟨now + kept, mark.1⟩ seq) puts

/-- What a commit does with producers' marks. -/
structure Settled where
  last : Dict String Nat
  pass : Pass
  expiries : Dict Expiry Nat
  moved : Option Pass
  expired : List Expiry
  dropped : List String

/-- The expiry keys that are due, oldest first. A sequencer expires nothing in its first window. -/
def Sequencer.due (s : Sequencer) (config : Config) (now copy : Nat) : List (Σ _ : Expiry, Nat) :=
  if s.started + retryMs config ≤ now then
    scanFirst (s.copy copy).expiries (fun key => decide (key.due ≤ now)) perCommit
  else []

def Sequencer.settle (s : Sequencer) (config : Config) (now copy : Nat) (last seqs : Dict String Nat) :
    Settled :=
  let catalog := s.copy copy
  let puts := keyMarks config now seqs
  let due := s.due config now copy
  let gone := expireMarks catalog seqs due (last, [])
  let expired := due.map (·.1)
  match s.pass with
  | .done => ⟨gone.1, .done, puts, none, expired, gone.2⟩
  | .cursor after =>
    let page := scanFirst catalog.marks (fun producer => decide (after < producer)) perCommit
    let pass := match page.getLast? with
      | some mark => if page.length = perCommit then .cursor mark.1 else .done
      | none => .done
    ⟨gone.1, pass, keyPage config now catalog gone.1 seqs page puts, some pass, expired, gone.2⟩

/-! ### Commits and restarts -/

/-- What a commit finds: whether the lake is a backup, the producers forgotten since the last one, the
views, when it starts and when it settles the marks, and its copy of the catalog then. -/
structure Env where
  frozen : Bool
  forgets : List String
  views : Inline
  start : Nat
  now : Nat
  copy : Nat

/-- What is remembered, but for the producers to forget. -/
def Sequencer.forget (s : Sequencer) (env : Env) : Sequencer :=
  { s with last := without s.last (s.forgotten ++ env.forgets) }

/-- A commit that has looked at some flushes. -/
def Sequencer.upTo (s : Sequencer) (env : Env) (batch : List (Seen × Flush)) : Batch :=
  batch.foldl (takeFlush (s.forget env) env.views)
    ⟨s.next, s.block, ∅, [], [], ∅, [], [], [], [], [], none⟩

/-- A commit's flushes, sequenced. -/
def Sequencer.sequence (s : Sequencer) (env : Env) (batch : List (Seen × Flush)) : Batch :=
  (s.upTo env batch).finish env.start

def Sequencer.settled (s : Sequencer) (config : Config) (env : Env) (batch : List (Seen × Flush)) :
    Settled :=
  s.settle config env.now env.copy (s.forget env).last (s.sequence env batch).seqs

/-- The one catalog write of a commit. -/
def Sequencer.write (s : Sequencer) (config : Config) (env : Env) (batch : List (Seen × Flush)) :
    Write :=
  let b := s.sequence env batch
  let settled := s.settled config env batch
  { marks := b.seqs
    dropped := b.lost ++ settled.dropped
    expiries := settled.expiries
    expired := settled.expired
    pass := settled.moved
    n := b.next
    b := if b.block ≠ s.block then some b.block else none
    segs := b.segs
    data := b.data
    tables := b.tables
    also := b.also
    quiet := decide (b.takes = some true)
    answers := b.answers }

/-- What each flush of a commit is told. -/
def Sequencer.answers (s : Sequencer) (env : Env) (batch : List (Seen × Flush)) : List Answer :=
  if env.frozen then batch.map fun x => ⟨x.2, .refused "a backup takes no rows", []⟩
  else (s.sequence env batch).answers

/-- Sequence a batch of flushes and write them as one catalog commit. -/
def Sequencer.commit (s : Sequencer) (config : Config) (env : Env) (batch : List (Seen × Flush)) :
    Sequencer :=
  if env.frozen then { s with forgotten := s.forgotten ++ env.forgets }
  else
    let b := s.sequence env batch
    let settled := s.settled config env batch
    { s with
      wrote := s.wrote ++ [s.write config env batch]
      landed := env.copy
      next := b.next
      block := b.block
      last := b.seqs ∪ settled.last
      pass := settled.pass
      forgotten := (b.lost ++ settled.dropped).filter (startsWith "job:")
      clock := env.now }

inductive Op where
  | commit (env : Env) (batch : List (Seen × Flush))
  -- the sequencer failed or another leads: of the writes in flight, the first ones are in the catalog
  | restart (kept now : Nat)

/-- Commits look at copies of the catalog that hold what is known to be in it, and the clock doesn't
go back. -/
def Sequencer.Allows (s : Sequencer) : Op → Prop
  | .commit env batch =>
    s.clock ≤ env.start ∧ env.start ≤ env.now ∧
    s.landed ≤ env.copy ∧ env.copy ≤ s.wrote.length ∧
    ∀ x ∈ batch, s.landed ≤ x.1.copy ∧ x.1.copy ≤ env.copy
  | .restart kept now => s.landed ≤ kept ∧ kept ≤ s.wrote.length ∧ s.clock ≤ now

def Sequencer.step (config : Config) (s : Sequencer) : Op → Sequencer
  | .commit env batch => s.commit config env batch
  | .restart kept now => .start s.base (s.wrote.take kept) now

/-- Runs of a leader's sequencer, and of the ones started after it on the same catalog. -/
def sequencer (config : Config) : Machine Sequencer Op where
  next := Sequencer.step config
  Allows := Sequencer.Allows

end Pondra.Log
