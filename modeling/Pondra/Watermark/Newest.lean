import Mathlib.Algebra.Order.Ring.Int
import Pondra.Base.Machine
import Pondra.Manifests.Ranges

set_option autoImplicit false

/-! ### The newest event time of a table, for its watermark -/

namespace Pondra.Watermark

open Machines Dicts Manifests

/-- A data file's ranges, and its rows' times (a row may have none). -/
structure File (ν : Type) where
  stats : Stats
  rows : List (Option ν)

/-- A manifest's ranges, and its files. -/
structure SealedFiles (ν : Type) where
  stats : Stats
  files : List (File ν)

/-- A table's entry: the log segment its files reach to, and its files. -/
structure Entry (ν : Type) where
  tiered : Nat
  files : List (File ν)
  manifests : List (SealedFiles ν)

def Entry.rows {ν : Type} (e : Entry ν) : List (Option ν) :=
  e.manifests.flatMap (fun m => m.files.flatMap File.rows) ++ e.files.flatMap File.rows

/-- The ranges a table's whole contents are covered by. -/
def Entry.parts {ν : Type} (e : Entry ν) : List Stats := e.manifests.map (·.stats) ++ e.files.map (·.stats)

/-- A commit's rows of the table: those in the log, and those of the files it put in. -/
structure Segment (ν : Type) where
  n : Nat
  logged : List (Option ν)
  filed : List (Option ν)

/-- Each part's newest time. -/
abbrev Parts := Dict String Int

/-- The part of a table a row's progress is counted in: today a table is one part. -/
def partOf (_producer : Option String) : String := ""

def newest (parts : Parts) : Option Int := parts.lookup (partOf none)

def bump (parts : Parts) (v : Int) : Parts :=
  parts.insert (partOf none) ((newest parts).elim v (max · v))

/-- A call of `newest_parts`: the entry it read (and what was visible then), how far it is to read, what was
known, and what it found. -/
inductive Phase
  | started
  | looked (upto : Nat)
  | loaded (upto : Nat) (seen : Nat) (parts : Parts)
  | read (seen : Nat) (parts : Parts)
  | over_

structure Call (ν : Type) where
  entry : Entry ν
  began : Nat
  phase : Phase

/-- A call that returned: what was visible when it began and when it returned, and its answer. -/
structure Answer where
  began : Nat
  now : Nat
  parts : Parts

/-- A table, the node's log and what it knows of the table's newest time. History: each row committed, with its
commit; the segments let go; and the answers, the first first. -/
structure Node (ν : Type) where
  entry : Entry ν
  log : List (Segment ν)
  visible : Nat
  known : Option (Nat × Parts)
  calls : List (Call ν)
  committed : List (Nat × Option ν)
  gone : Nat
  answers : List Answer

variable {τ ν : Type}

/-- What the reading of times rests on: the types' values, the table's time column and its type, and a value's
time in µs. -/
structure Times (τ ν : Type) where
  scalars : Scalars τ ν
  schema : Schema τ
  time : String
  type : τ
  us : ν → Int

variable (t : Times τ ν)

/-- The files' ranges, where the table went into files since: how new they say its rows are. None: the range
can't be read. -/
def fold (e : Entry ν) (seen : Nat) (parts : Parts) : Option (Nat × Parts) :=
  if seen < e.tiered then
    match (union t.scalars e.parts t.schema).lookup t.time with
    | some range => (t.scalars.parse t.type range.2).map fun hi => (e.tiered, bump parts (t.us hi))
    | none => some (e.tiered, parts)
  else some (seen, parts)

/-- The rows of the log's segments in (after, upto], file commits' too. -/
def tail (log : List (Segment ν)) (after upto : Nat) : List (Option ν) :=
  (log.filter fun s => decide (after < s.n ∧ s.n ≤ upto)).flatMap fun s => s.logged ++ s.filed

def bumps (parts : Parts) (rows : List (Option ν)) : Parts :=
  rows.foldl (fun parts row => row.elim parts fun v => bump parts (t.us v)) parts

/-- What a call that knew `parts` of the rows up to `seen` finds. -/
def look (log : List (Segment ν)) (e : Entry ν) (upto seen : Nat) (parts : Parts) : Option (Nat × Parts) :=
  (fold t e seen parts).map fun folded =>
    if folded.1 < upto then (upto, bumps t folded.2 (tail log folded.1 upto)) else folded

inductive Op (ν : Type)
  | commit (logged : List (Option ν)) (files : List (File ν))
  | tier (upto : Nat) (files : List (File ν))
  | refile (files : List (File ν)) (manifests : List (SealedFiles ν))
  | expire (upto : Nat)
  | start
  | look (i : Nat)
  | load (i : Nat)
  | tail (i : Nat)
  | finish (i : Nat)

namespace Node

/-- Nothing yet. -/
def new (tiered : Nat) : Node ν := ⟨⟨tiered, [], []⟩, [], tiered, none, [], [], tiered, []⟩

def setCall (s : Node ν) (i : Nat) (c : Call ν) (phase : Phase) : Node ν :=
  { s with calls := s.calls.set i { c with phase := phase } }

/-- Views run side by side: the state that read further is kept, and its parts with it. -/
def finish (s : Node ν) (i : Nat) (c : Call ν) (seen : Nat) (parts : Parts) : Node ν :=
  let kept := s.known.getD (seen, parts)
  let kept := if kept.1 < seen then (seen, parts) else kept
  { s.setCall i c .over_ with
    known := some kept
    answers := s.answers ++ [⟨c.began, s.visible, kept.2⟩] }

end Node

def next (s : Node ν) : Op ν → Node ν
  | .commit logged files =>
    let filed := files.flatMap File.rows
    { s with
      entry := { s.entry with files := s.entry.files ++ files }
      log := s.log ++ [⟨s.visible + 1, logged, filed⟩]
      visible := s.visible + 1
      committed := s.committed ++ (logged ++ filed).map fun row => (s.visible + 1, row) }
  | .tier upto files =>
    { s with entry := { s.entry with tiered := upto, files := s.entry.files ++ files } }
  | .refile files manifests =>
    { s with entry := { s.entry with files := files, manifests := manifests } }
  | .expire upto =>
    { s with log := s.log.filter (fun seg => decide (upto < seg.n)), gone := max s.gone upto }
  | .start => { s with calls := s.calls ++ [⟨s.entry, s.visible, .started⟩] }
  | .look i =>
    match s.calls[i]? with
    | some c =>
      match c.phase with
      | .started => s.setCall i c (.looked s.visible)
      | _ => s
    | none => s
  | .load i =>
    match s.calls[i]? with
    | some c =>
      match c.phase with
      | .looked upto =>
        let known := s.known.getD (0, ∅)
        s.setCall i c (.loaded upto known.1 known.2)
      | _ => s
    | none => s
  | .tail i =>
    match s.calls[i]? with
    | some c =>
      match c.phase with
      | .loaded upto seen parts =>
        match look t s.log c.entry upto seen parts with
        | some found => s.setCall i c (.read found.1 found.2)
        | none => s.setCall i c .over_
      | _ => s
    | none => s
  | .finish i =>
    match s.calls[i]? with
    | some c =>
      match c.phase with
      | .read seen parts => s.finish i c seen parts
      | _ => s
    | none => s

/-- A file's range of the time column covers its rows' times, and ends at one of them. -/
structure Told (f : File ν) : Prop where
  covers : ∀ v, some v ∈ f.rows → ∃ lo hi, rangeIn t.scalars t.type t.time f.stats = some (lo, hi) ∧
    Least.NotAfter t.scalars.cmp v hi
  ends : ∀ lo hi, rangeIn t.scalars t.type t.time f.stats = some (lo, hi) → ∃ v, some v ∈ f.rows ∧
    Least.NotAfter t.scalars.cmp hi v

/-- A manifest's ranges are those over its files. -/
def ToldAll (m : SealedFiles ν) : Prop :=
  (∀ f ∈ m.files, Told t f) ∧ m.stats = union t.scalars (m.files.map (·.stats)) t.schema

/-- Files' ranges cover their rows; tiering puts the log's rows into files, and merging and sealing keep the rows; a
segment goes once it is in files of the entry of every call still running (its grace). -/
def Fits (s : Node ν) : Op ν → Prop
  | .commit _ files => ∀ f ∈ files, Told t f
  | .tier upto files =>
    s.entry.tiered ≤ upto ∧ upto ≤ s.visible ∧ (∀ f ∈ files, Told t f) ∧
      (files.flatMap File.rows).Perm
        ((s.log.filter fun seg => decide (s.entry.tiered < seg.n ∧ seg.n ≤ upto)).flatMap (·.logged))
  | .refile files manifests =>
    (∀ f ∈ files, Told t f) ∧ (∀ m ∈ manifests, ToldAll t m) ∧
      (Entry.rows { s.entry with files := files, manifests := manifests }).Perm s.entry.rows
  | .expire upto => upto ≤ s.entry.tiered ∧ ∀ c ∈ s.calls, c.phase = .over_ ∨ upto ≤ c.entry.tiered
  | _ => True

def table : Machine (Node ν) (Op ν) where
  next := next t
  Allows := Fits t

/-- Where a call folds in the files' ranges, each of the table's manifests and files has a range of the time
column, or what the node knew is as new as each row in them. -/
def Ranged (s : Node ν) : Op ν → Prop
  | .tail i => ∀ c, s.calls[i]? = some c → ∀ upto seen parts, c.phase = .loaded upto seen parts →
      seen < c.entry.tiered →
        (∀ part ∈ c.entry.parts, (rangeIn t.scalars t.type t.time part).isSome) ∨
          ∀ v, some v ∈ c.entry.rows → ∃ y, newest parts = some y ∧ t.us v ≤ y
  | _ => True

/-! ### The watermark -/

def wrap64 (n : Int) : Int := n.bmod (2 ^ 64)

/-- For each part of each table and time, its newest time and when it was first seen. -/
abbrev Since := Dict String (Int × Nat)

/-- The clock from when a part's newest time was first seen. -/
def since (s : Since) (part : String) (time : Int) (now : Nat) : Since × Nat :=
  let e := (s.lookup part).getD (time, now)
  let e := if e.1 < time then (time, now) else e
  (s.insert part e, e.2)

/-- A part's newest time less the lateness, moved on by how long the part has been quiet. -/
def ofPart (time : Int) (lateness : Nat) (idle : Option Nat) (since now : Nat) : Int :=
  let wm := wrap64 (time - wrap64 (lateness * 1000000))
  match idle with
  | none => wm
  | some idle =>
    let quiet := now - since
    if idle * 1000 % 2 ^ 64 ≤ quiet then wrap64 (wm + wrap64 (quiet * 1000)) else wm

def leastStep (lateness : Nat) (idle : Option Nat) (now : Nat) (acc : Since × Option Int) (p : Σ _ : String, Int) :
    Since × Option Int :=
  let e := if idle.isSome then since acc.1 p.1 p.2 now else (acc.1, 0)
  let wm := ofPart p.2 lateness idle e.2 now
  (e.1, some (acc.2.elim wm (min · wm)))

/-- The least watermark over the parts. -/
def leastOf (s : Since) (parts : Parts) (lateness : Nat) (idle : Option Nat) (now : Nat) : Since × Option Int :=
  parts.entries.foldl (leastStep lateness idle now) (s, none)

/-- The watermarks of calls that all find the same newest times, by the clock of each. -/
def marks (parts : Parts) (lateness : Nat) (idle : Option Nat) : Since → List Nat → List (Option Int)
  | _, [] => []
  | s, now :: rest =>
    let e := leastOf s parts lateness idle now
    e.2 :: marks parts lateness idle e.1 rest

end Pondra.Watermark
