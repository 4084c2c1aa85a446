import Pondra.Base.Machine

set_option autoImplicit false

/-! ### COPY INTO: the loads of a table's files -/

namespace Pondra.Copy

open Machines

/-- The table's folder and the file. -/
abbrev Key := String × String

/-- A file loaded into a table, as its job names it; `run` is set by FORCE. -/
structure Load where
  folder : String
  file : String
  version : String
  run : Option Nat
  deriving DecidableEq

def Load.key (l : Load) : Key := (l.folder, l.file)

/-- A file's record. -/
structure Entry where
  version : String
  time : Nat
  job : Load
  deriving DecidableEq

/-- A file a statement found to load. `read` is the version its rows were read at, once they are.
History: `tried` once it was sent, `turn` and `after` the file's record and the commits it found. -/
structure Piece where
  load : Load
  modified : Nat
  read : Option String
  tried : Bool
  turn : Nat
  after : Nat
  deriving DecidableEq

/-- Rows recorded: those of version `of_` of the file. -/
structure Commit where
  n : Nat
  load : Load
  of_ : String
  time : Nat
  deriving DecidableEq

/-- The records, as a node's view of the catalog has them; and, history, how often each changed. -/
abbrev View := List (Key × Entry) × (Key → Nat)

structure State where
  /-- Each file's versions and when they were written, the first one first. -/
  files : String → List (String × Nat)
  records : List (Key × Entry)
  /-- The job marks. -/
  marks : List Load
  pieces : List Piece
  /-- What leaders found past the retention, to delete. -/
  listings : List (List (Key × Entry))
  clock : Nat
  -- history
  turns : Key → Nat
  views : List View
  commits : List Commit
  count : Nat
  /-- Records deleted before their time or replaced by an older version's, and loads sent again that
  were recorded after another one. -/
  early : List Entry
  late : List Load

inductive Op
  | change (file version : String) (modified : Nat)
  | copy (folder : String) (files : List String) (run : Option Nat) (leads : Bool) (view now : Nat)
  | read (i : Nat)
  | submit (i now : Nat)
  | lose (i : Nat)
  | expire (i : Nat)
  | letGo (folders : List String)

/-- Is a file to load? Its record says this version was loaded, or it is so old that its record may be
gone: only FORCE loads it. -/
def wanted (retention : Nat) (s : State) (view : View) (folder : String) (run : Option Nat) (now : Nat)
    (file : String) : Option Piece :=
  match (s.files file).getLast? with
  | none => none
  | some (version, modified) =>
    let done := (view.1.lookup (folder, file)).any fun e => decide (e.version = version)
    let old := decide (modified + retention < now)
    if run.isNone && (done || old) then none
    else some ⟨⟨folder, file, version, run⟩, modified, none, false, view.2 (folder, file), s.count⟩

/-- The records a folder keeps past the retention. -/
def overdue (retention : Nat) (folder : String) (now : Nat) (records : List (Key × Entry)) :
    List (Key × Entry) :=
  records.filter fun r => decide (r.1.1 = folder) && decide (r.2.time < now - retention)

def copyInto (retention : Nat) (s : State) (folder : String) (files : List String) (run : Option Nat)
    (leads : Bool) (view : View) (now : Nat) : State :=
  { s with
    pieces := s.pieces ++ files.filterMap (wanted retention s view folder run now)
    listings := if leads then s.listings ++ [overdue retention folder now view.1] else s.listings
    clock := max s.clock now }

/-- The records after a change to some keys' are a view from then on. -/
def State.changed (s : State) (records : List (Key × Entry)) (keys : Key → Bool) : State :=
  let turns := fun k => if keys k then s.turns k + 1 else s.turns k
  { s with records := records, turns := turns, views := (records, turns) :: s.views }

/-- Which of its file's versions a load's is. -/
def State.rank (s : State) (l : Load) : Nat := ((s.files l.file).map Prod.fst).idxOf l.version

/-- A file's rows and its record, in one commit, which deletes the mark of the load it replaces. -/
def record (s : State) (p : Piece) (version : String) (now : Nat) : State :=
  let key := p.load.key
  let lost := ((s.records.lookup key).filter fun e => decide (e.job ≠ p.load)).map Entry.job
  let entry : Entry := ⟨p.load.version, now, p.load⟩
  let records := (key, entry) :: s.records.filter fun r => decide (r.1 ≠ key)
  { s.changed records (fun k => decide (k = key)) with
    marks := p.load :: s.marks.filter fun l => decide (some l ≠ lost)
    clock := max s.clock now
    commits := s.commits ++ [⟨s.count, p.load, version, now⟩]
    count := s.count + 1
    early := s.early ++ ((s.records.filter fun r =>
      decide (r.1 = key) && decide (s.rank p.load < s.rank r.2.job)).map Prod.snd)
    late := if p.tried ∧ ∃ c ∈ s.commits, c.load.key = key ∧ c.load ≠ p.load ∧ p.after ≤ c.n
      then s.late ++ [p.load] else s.late }

/-- A load's INSERT, sent once its rows are written, the first time or again. -/
def submit (s : State) (i now : Nat) : State :=
  match s.pieces[i]? with
  | none => s
  | some p =>
    match p.read with
    | none => s
    | some version =>
      let sent := { s with pieces := s.pieces.set i { p with tried := true } }
      if p.load ∈ s.marks then { sent with clock := max s.clock now }
      else record sent p version now

/-- An INSERT that dies before its commit. -/
def lose (s : State) (i : Nat) : State :=
  match s.pieces[i]? with
  | none => s
  | some p => { s with pieces := s.pieces.set i { p with tried := true } }

/-- A piece's file is read. -/
def readFile (s : State) (i : Nat) : State :=
  match s.pieces[i]? with
  | none => s
  | some p =>
    let version := (s.files p.load.file).getLast?.map Prod.fst
    { s with pieces := s.pieces.set i { p with read := version } }

/-- The records listed and their job marks go. -/
def sweep (retention : Nat) (s : State) (listing : List (Key × Entry)) : State :=
  let keys := listing.map Prod.fst
  { s.changed (s.records.filter fun r => decide (r.1 ∉ keys)) (fun k => decide (k ∈ keys)) with
    marks := s.marks.filter fun l => decide (l ∉ listing.map fun r => r.2.job)
    early := s.early ++ ((s.records.filter fun r =>
      decide (r.1 ∈ keys) && !decide (r.2.time + retention < s.clock)).map Prod.snd) }

/-- Folders no table uses any more: their records, and their job marks. -/
def letGo (s : State) (folders : List String) : State :=
  let gone := s.records.filter fun r => decide (r.1.1 ∈ folders)
  { s.changed (s.records.filter fun r => decide (r.1.1 ∉ folders)) (fun k => decide (k.1 ∈ folders)) with
    marks := s.marks.filter fun l => decide (l ∉ gone.map fun r => r.2.job)
    commits := s.commits.filter fun c => decide (c.load.folder ∉ folders) }

def next (retention : Nat) (s : State) : Op → State
  | .change file version modified =>
    { s with files := fun f => if f = file then s.files f ++ [(version, modified)] else s.files f }
  | .copy folder files run leads view now =>
    match s.views[view]? with
    | none => s
    | some view => copyInto retention s folder files run leads view now
  | .read i => readFile s i
  | .submit i now => submit s i now
  | .lose i => lose s i
  | .expire i =>
    match s.listings[i]? with
    | none => s
    | some listing => sweep retention s listing
  | .letGo folders => letGo s folders

/-- Clocks don't go back, a FORCE statement's run is its own, and a file's change time is not after the time
it is loaded. -/
def Allows (s : State) : Op → Prop
  | .copy _ _ run _ _ now => s.clock ≤ now ∧ ∀ p ∈ s.pieces, run.isSome → p.load.run ≠ run
  | .submit i now => s.clock ≤ now ∧ ∀ p ∈ s.pieces[i]?, p.modified ≤ now
  | _ => True

def loads (retention : Nat) : Machine State Op where
  next := next retention
  Allows := Allows

instance decidableAllows (s : State) : (op : Op) → Decidable (Allows s op)
  | .change .. => inferInstanceAs (Decidable True)
  | .copy _ _ run _ _ now => inferInstanceAs (Decidable
      (s.clock ≤ now ∧ ∀ p ∈ s.pieces, run.isSome → p.load.run ≠ run))
  | .read _ => inferInstanceAs (Decidable True)
  | .submit i now => inferInstanceAs (Decidable (s.clock ≤ now ∧ ∀ p ∈ s.pieces[i]?, p.modified ≤ now))
  | .lose _ => inferInstanceAs (Decidable True)
  | .expire _ => inferInstanceAs (Decidable True)
  | .letGo _ => inferInstanceAs (Decidable True)

/-- A lake with no load yet. -/
def lake : State := ⟨fun _ => [], [], [], [], [], 0, fun _ => 0, [([], fun _ => 0)], [], 0, [], []⟩

/-- The rows of a file's version are in once, and once more for each FORCE statement; a record is of its
rows' commit, and goes by a load as new, past the retention or with its folder; and no load sent again
after another of its file adds rows. -/
structure Holds (s : State) : Prop where
  once : ∀ k version run, (s.commits.filter fun c =>
    decide (c.load.key = k ∧ c.of_ = version ∧ c.load.run = run)).length ≤ 1
  together : ∀ r ∈ s.records, ∃ c ∈ s.commits,
    c.load = r.2.job ∧ c.load.key = r.1 ∧ c.of_ = r.2.version ∧ c.time = r.2.time
  kept : s.early = []
  again : s.late = []

/-- A file never gets a version it had before; a load is sent while its mark is kept, or while its file's
record is as its statement found it, with the rows of the version it found; and what a leader found past
the retention is deleted while no newer record is there. -/
def Sure (s : State) : Op → Prop
  | .change file version _ => version ∉ (s.files file).map Prod.fst
  | .submit i _ => ∀ p ∈ s.pieces[i]?, p.load ∈ s.marks ∨
      (p.turn = s.turns p.load.key ∧ ∀ v ∈ p.read, v = p.load.version)
  | .expire i => ∀ listing ∈ s.listings[i]?, ∀ r ∈ listing, ∀ q ∈ s.records, q.1 = r.1 → q = r
  | _ => True

instance decidableSure (s : State) : (op : Op) → Decidable (Sure s op)
  | .change file version _ =>
    inferInstanceAs (Decidable (version ∉ (s.files file).map Prod.fst))
  | .copy .. => inferInstanceAs (Decidable True)
  | .read _ => inferInstanceAs (Decidable True)
  | .submit i _ => inferInstanceAs (Decidable (∀ p ∈ s.pieces[i]?, p.load ∈ s.marks ∨
      (p.turn = s.turns p.load.key ∧ ∀ v ∈ p.read, v = p.load.version)))
  | .lose _ => inferInstanceAs (Decidable True)
  | .expire i => inferInstanceAs (Decidable
      (∀ listing ∈ s.listings[i]?, ∀ r ∈ listing, ∀ q ∈ s.records, q.1 = r.1 → q = r))
  | .letGo _ => inferInstanceAs (Decidable True)

instance (retention : Nat) (s : State) (op : Op) : Decidable ((loads retention).Allows s op) :=
  decidableAllows s op

instance (retention : Nat) (s : State) (op : Op) :
    Decidable (((loads retention).only Sure).Allows s op) :=
  inferInstanceAs (Decidable (Allows s op ∧ Sure s op))

end Pondra.Copy
