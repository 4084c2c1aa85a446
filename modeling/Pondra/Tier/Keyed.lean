import Mathlib
import Pondra.Base.Machine

set_option autoImplicit false

namespace Pondra.Tier

open Machines

/-! ### A keyed table -/

/-- A keyed table without merge functions: its key, `_deleted`, TTL column (µs) and seconds, its
`order_by` column and its partition. -/
structure Keyed (ρ κ : Type) where
  key : ρ → κ
  deleted : ρ → Bool
  ttl : Option ((ρ → Option Int) × Nat)
  order : Option (ρ → Option Int)
  partition : Option (ρ → String)

/-- A file: one row a key in the files of one `ord`. -/
structure DataFile (ρ : Type) where
  path : Nat
  ord : Nat
  whole : Bool
  part : String
  rows : List ρ

/-- The log's segments with this table's rows in each, and the table's entry. `times` is history:
when the jobs that drop rows ran. -/
structure Table (ρ : Type) where
  next : Nat
  log : List (Nat × List ρ)
  tiered : Nat
  files : List (DataFile ρ)
  paths : Nat
  times : List Int

inductive Kind (ρ : Type) where
  | fold (after upto rows : Nat)
  | compact (upto rows : Nat)
  | squash (files : List (DataFile ρ))

inductive TierOp (ρ : Type) where
  | commit (rows : List ρ) (most : Nat)
  | tier (hwm : Nat) (fill : Option Nat) (nodes : Nat) (now : Int)
  | maintain (published anyway : Bool) (now : Int)
  | idle (least hwm : Nat)

section keyed

variable {ρ κ : Type} (t : Keyed ρ κ)

/-- Not past its TTL. -/
def Keyed.fresh (now : Int) (r : ρ) : Bool :=
  match t.ttl with
  | none => true
  | some (c, secs) => (c r).any fun us => decide (now - secs * 1000000 ≤ us)

def Keyed.live (now : Int) (r : ρ) : Bool := !t.deleted r && t.fresh now r

def Keyed.orderOf (r : ρ) : Option Int := t.order.bind fun o => o r

/-- NULL ranks lowest. -/
def Keyed.rank (r : ρ) : WithBot Int := t.orderOf r

/-! ### Reading -/

def ordBits : Nat := 24

/-- A log row's place: its segment's number, then its position. -/
def logOrd (seg row : Nat) : Nat := seg * 2 ^ ordBits + row

/-- The numbers a segment takes. -/
def span (rows most : Nat) : Nat := 1 + (max rows most - 1) / 2 ^ ordBits

/-- A segment's rows with their places. -/
def placed (seg : Nat × List ρ) : List (Nat × ρ) :=
  seg.2.zipIdx.map fun r => (logOrd seg.1 r.2, r.1)

/-- The log's rows in segments (after, upto]. -/
def tail (log : List (Nat × List ρ)) (after upto : Nat) : List (Nat × ρ) :=
  (log.filter fun s => decide (after < s.1) && decide (s.1 ≤ upto)).flatMap placed

def DataFile.entries (f : DataFile ρ) : List (Nat × ρ) := f.rows.map fun r => (logOrd f.ord 0, r)

/-- The rows of files and of the log in (after, upto], each with its `_ord`. -/
def raw (files : List (DataFile ρ)) (log : List (Nat × List ρ)) (after upto : Nat) :
    List (Nat × ρ) :=
  tail log after upto ++ files.flatMap DataFile.entries

/-- Of one key's rows: those of the greatest `order_by` (NULL: below every other), and of these the
one of the greatest `_ord`. -/
def Keyed.best (entries : List (Nat × ρ)) : Option ρ :=
  let most := (entries.filterMap fun e => t.orderOf e.2).max?
  ((entries.filter fun e => decide (t.orderOf e.2 = most)).argmax Prod.fst).map Prod.snd

/-- Files oldest first. -/
def byAge (files : List (DataFile ρ)) : List (DataFile ρ) :=
  files.insertionSort fun a b => a.ord ≤ b.ord

/-- Files of one `ord` together, oldest first. -/
def generations (files : List (DataFile ρ)) : List (List (DataFile ρ)) :=
  (byAge files).splitBy fun a b => decide (a.ord = b.ord)

/-- What is visible: every segment there is. -/
def Table.visible (s : Table ρ) : Nat := s.next - 1

variable [DecidableEq κ]

/-- One row a key. -/
def Keyed.latest (entries : List (Nat × ρ)) : List ρ :=
  (entries.map fun e => t.key e.2).dedup.filterMap fun k =>
    t.best (entries.filter fun e => decide (t.key e.2 = k))

/-- Sources' rows, newest source first, but those whose key a newer source has. -/
def Keyed.shadowed (newer : List κ) : List (List ρ) → List ρ
  | [] => []
  | source :: older =>
    source.filter (fun r => decide (t.key r ∉ newer)) ++
      Keyed.shadowed (newer ++ source.map t.key) older

/-- The log's newest rows over the files', a generation at a time. -/
def Keyed.upsertView (s : Table ρ) : List ρ :=
  t.shadowed [] (t.latest (tail s.log s.tiered s.visible) ::
    (generations s.files).reverse.map fun g => g.flatMap (·.rows))

/-- The table as its users see it. -/
def Keyed.read (s : Table ρ) (now : Int) : List ρ :=
  let rows :=
    match t.order with
    | none => t.upsertView s
    | some _ =>
      let entries := raw s.files s.log s.tiered s.visible
      if 1 < s.files.length ∨ s.visible ≠ s.tiered then t.latest entries
      else entries.map Prod.snd
  rows.filter (t.live now)

/-- The table with its log alone. -/
def Table.logged (s : Table ρ) : Table ρ := { s with tiered := 0, files := [] }

/-! ### Jobs -/

variable (s : Table ρ)

/-- A table's first file: nothing older to shadow. -/
def first : Kind ρ → Bool
  | .fold after _ _ => s.files.isEmpty && decide (after = s.tiered)
  | _ => false

/-- Does a job drop delete markers and expired rows? -/
def drops (kind : Kind ρ) : Bool :=
  first s kind || match kind with
    | .compact _ _ => true
    | _ => false

/-- What a job reads. -/
def inputs : Kind ρ → List (Nat × ρ)
  | .fold after upto _ => raw [] s.log after upto
  | .compact upto _ => raw s.files s.log s.tiered upto
  | .squash files => raw files s.log s.tiered s.tiered

/-- The `ord` of what it writes. -/
def ordOf : Kind ρ → Nat
  | .fold _ upto _ => upto
  | .compact upto _ => upto
  | .squash files => ((files.map DataFile.ord).max?).getD 0

/-- The rows it writes. -/
def Keyed.output (now : Int) (kind : Kind ρ) : List ρ :=
  (t.latest (inputs s kind)).filter fun r => !drops s kind || t.live now r

/-- Rows split by partition. -/
def Keyed.split (rows : List ρ) : List (String × List ρ) :=
  match t.partition with
  | none => [("", rows)]
  | some of => (rows.map of).dedup.map fun p => (p, rows.filter fun r => decide (of r = p))

/-- A job's files, one a partition. -/
def Keyed.runJob (now : Int) (kind : Kind ρ) : List (Nat × Bool × String × List ρ) :=
  ((t.split (t.output s now kind)).filter fun p => !p.2.isEmpty).map fun p =>
    (ordOf kind, drops s kind, p)

/-- The files of a round's jobs, each written under a new path. -/
def Keyed.deal (now : Int) (jobs : List (Kind ρ)) : List (DataFile ρ) :=
  ((jobs.flatMap (t.runJob s now)).zipIdx s.paths).map fun f =>
    ⟨f.2, f.1.1, f.1.2.1, f.1.2.2.1, f.1.2.2.2⟩

/-! ### Tiering -/

def maxRows : Nat := 4000000

/-- Segments with the table's rows in each, up to `maxRows`. -/
def taken : Nat → List (Nat × Nat) → List (Nat × Nat)
  | _, [] => []
  | n, (seg, r) :: rest => (seg, r) :: if maxRows ≤ n + r then [] else taken (n + r) rest

/-- One range of segments per node. -/
def ranges (nodes n upto : Nat) : Nat → Nat → Nat → Nat → List (Nat × Nat) → List (Kind ρ)
  | _, _, _, _, [] => []
  | jobs, since, acc, done, (seg, r) :: rest =>
    if n * (jobs + 1) ≤ (acc + r) * nodes ∨ seg = upto then
      .fold since seg (acc + r - done) ::
        ranges nodes n upto (jobs + 1) seg (acc + r) (acc + r) rest
    else ranges nodes n upto jobs since (acc + r) done rest

/-- A keyed table's log is folded no further than where a view is filled from it. -/
def foldEnd (hwm : Nat) : Option Nat → Nat
  | none => hwm
  | some e => min hwm e

/-- The segments a round takes. -/
def segs (hwm : Nat) : List (Nat × Nat) :=
  taken 0 ((s.log.filter fun g => decide (s.tiered < g.1) && decide (g.1 ≤ hwm)).map fun g =>
    (g.1, g.2.length))

/-- Where it ends. -/
def segsEnd (hwm : Nat) : Nat := ((segs s hwm).getLast?.map Prod.fst).getD hwm

def folds (hwm nodes : Nat) : List (Kind ρ) :=
  let n := ((segs s hwm).map Prod.snd).sum
  if n = 0 then [] else ranges nodes n (segsEnd s hwm) 0 s.tiered 0 0 (segs s hwm)

/-- When a job that drops rows ran. -/
def ran (now : Int) (jobs : List (Kind ρ)) : List Int := if jobs.any (drops s) then [now] else []

def Keyed.tierTable (hwm : Nat) (fill : Option Nat) (nodes : Nat) (now : Int) : Table ρ :=
  let jobs := folds s (foldEnd hwm fill) nodes
  if jobs.isEmpty then s
  else
    let files := t.deal s now jobs
    { s with
      files := s.files ++ files
      tiered := segsEnd s (foldEnd hwm fill)
      paths := s.paths + files.length
      times := s.times ++ ran s now jobs }

/-! ### Keeping the file count down -/

/-- How many older generations, newest first, join `rows` newer rows. -/
def joined (rows : Nat) : List (Nat × Nat) → Nat
  | [] => 0
  | g :: older => if g.2 ≤ 2 * max rows 1 then 1 + joined (rows + g.2) older else 0

/-- Each generation's `ord` and rows, oldest first. -/
def sizes (files : List (DataFile ρ)) : List (Nat × Nat) :=
  (generations files).map fun g =>
    ((g.head?.map DataFile.ord).getD 0, (g.map fun f => f.rows.length).sum)

/-- The generations merged next begin at this `ord`. -/
def runFrom (gens : List (Nat × Nat)) : Nat :=
  let n := 1 + joined ((gens.getLast?.map Prod.snd).getD 0) gens.reverse.tail
  let n := if 2 ≤ n then n else min 8 gens.length
  ((gens[gens.length - n]?).map Prod.fst).getD 0

/-- A table's files to merge next. -/
def runOf (files : List (DataFile ρ)) : List (DataFile ρ) :=
  (byAge files).filter fun f => decide (runFrom (sizes files) ≤ f.ord)

/-- The files swapped for new ones. -/
def replace (files old new : List (DataFile ρ)) : List (DataFile ρ) :=
  files.filter (fun f => !old.any fun o => o.path == f.path) ++ new

/-- Does a table need a merge? -/
def merges (published anyway : Bool) : Bool :=
  let gens := (s.files.map DataFile.ord).dedup.length
  decide (8 ≤ gens) ||
    (anyway && published && (decide (1 < gens) || s.files.any fun f => !f.whole))

/-- The files it merges. -/
def merged (published : Bool) : List (DataFile ρ) :=
  if published then s.files else runOf s.files

def mergeJob (published : Bool) : Kind ρ :=
  if (merged s published).length = s.files.length then .compact s.tiered 0
  else .squash (merged s published)

def Keyed.maintain (published anyway : Bool) (now : Int) : Table ρ :=
  if merges s published anyway then
    let files := t.deal s now [mergeJob s published]
    { s with
      files := replace s.files (merged s published) files
      paths := s.paths + files.length
      times := s.times ++ ran s now [mergeJob s published] }
  else s

/-- A table with nothing new in the log, from the least mark of any table on, moves its mark
along. -/
def idled (least hwm : Nat) : Table ρ :=
  let hwm := min hwm s.visible
  if s.tiered < hwm ∧ (tail s.log (min least s.tiered) hwm).isEmpty then { s with tiered := hwm }
  else s

/-- The jobs a step deals. -/
def dealt : TierOp ρ → List (Kind ρ)
  | .tier hwm fill nodes _ => folds s (foldEnd hwm fill) nodes
  | .maintain published anyway _ => if merges s published anyway then [mergeJob s published] else []
  | _ => []

/-- Fold jobs' ranges, one after another from a mark to another. -/
def Covers : Nat → List (Kind ρ) → Nat → Prop
  | after, [], upto => after = upto
  | after, kind :: rest, upto =>
    ∃ seg rows, kind = .fold after seg rows ∧ after < seg ∧ Covers seg rest upto

def Keyed.next : TierOp ρ → Table ρ
  | .commit rows most =>
    { s with next := s.next + span rows.length most, log := s.log ++ [(s.next, rows)] }
  | .tier hwm fill nodes now => t.tierTable s hwm fill nodes now
  | .maintain published anyway now => t.maintain s published anyway now
  | .idle least hwm => idled s least hwm

/-- A table just made, with its mark at the log's end. -/
def Table.made (n : Nat) : Table ρ := ⟨n + 1, [], n, [], 0, []⟩

/-! ### Late rows -/

/-- Deleted, or past its TTL for a job that dropped rows. -/
def Keyed.dead (r : ρ) : Bool := t.deleted r || s.times.any fun now => !t.fresh now r

def Keyed.entriesOf (k : κ) (entries : List (Nat × ρ)) : List (Nat × ρ) :=
  entries.filter fun e => decide (t.key e.2 = k)

/-- A key's newest row in the table. -/
def Keyed.held (k : κ) : Option ρ :=
  t.best (t.entriesOf k (raw s.files s.log s.tiered s.visible))

/-- A row that comes after its key's newest was dropped ranks at or above it, or is dead. -/
def Keyed.Later (rows : List ρ) : Prop :=
  ∀ k ∈ rows.map t.key, t.held s k ≠ t.held s.logged k →
    ∀ b ∈ t.best (t.entriesOf k (placed (s.next, rows))),
      t.dead s b = true ∨ ∀ d ∈ t.held s.logged k, t.rank d ≤ t.rank b

/-- A job that drops a key's newest row leaves none in the log after it that ranks below it, but
dead ones. -/
def Keyed.Clear (now : Int) (kind : Kind ρ) : Prop :=
  ∀ k ∈ (inputs s kind).map fun e => t.key e.2,
    ∀ x ∈ t.best (t.entriesOf k (inputs s kind)), t.live now x = false →
      ∀ y ∈ t.best (t.entriesOf k (tail s.log (ordOf kind) s.visible)),
        t.rank x ≤ t.rank y ∨ t.dead s y = true ∨ t.live now y = false

def Keyed.Sure : TierOp ρ → Prop
  | .commit rows _ => t.Later s rows
  | .tier hwm fill nodes now =>
    ∀ kind ∈ dealt s (.tier hwm fill nodes now), drops s kind = true → t.Clear s now kind
  | .maintain published anyway now =>
    ∀ kind ∈ dealt s (.maintain published anyway now), drops s kind = true → t.Clear s now kind
  | .idle _ _ => True

def tables : Machine (Table ρ) (TierOp ρ) where
  next := t.next
  Allows _ _ := True

end keyed

end Pondra.Tier
