import Pondra.Base.Machine
import Pondra.Tier.Retention

set_option autoImplicit false

/-! ### Pins, and what a round of retention deletes -/

namespace Pondra.Branch

open Machines

/-- The parts of a lake an orphan sweep looks at: the log, and the folders under `data/`. -/
inductive Part
  | log
  | data (folder : String)
  deriving DecidableEq

structure Path where
  part : Part
  name : String
  deriving DecidableEq

structure DataFile where
  path : Path
  /-- The position-delete files that name it. -/
  deletes : List Path
  deriving DecidableEq

def DataFile.named (f : DataFile) : List Path := f.path :: f.deletes

/-- A table's entry. Its files are the inline and the sealed ones; a manifest, or their list, is a file
without deletes. -/
structure TableMeta where
  folder : String
  files : List DataFile
  garbage : List (Path × Nat)
  garbageDeletes : List (Path × Nat)
  shares : List String
  deriving DecidableEq

namespace TableMeta

/-- The objects it lists. -/
def named (m : TableMeta) : List Path := m.files.flatMap DataFile.named

/-- What was taken out of it and when. -/
def old (m : TableMeta) : List (Path × Nat) := m.garbage ++ m.garbageDeletes

/-- Files replaced or taken out: they go after the retention period, and their position-delete files
with them. -/
def discard (m : TableMeta) (out : List DataFile) (now : Nat) : TableMeta :=
  { m with
    garbage := m.garbage ++ out.map fun f => (f.path, now)
    garbageDeletes := m.garbageDeletes ++ (out.flatMap DataFile.deletes).map fun p => (p, now) }

def path (m : TableMeta) (name : String) : Path := ⟨.data m.folder, name⟩

/-- A commit: files taken out, rows of others deleted by position, files added. -/
def change (m : TableMeta) (out : List Path) (marks : List (Path × String))
    (into : List (String × List String)) (now : Nat) : TableMeta :=
  let taken := m.files.filter (·.path ∈ out)
  let files := (m.files.filter (·.path ∉ out)).map fun f =>
    { f with deletes := f.deletes ++ (marks.filter (·.1 = f.path)).map fun mark => m.path mark.2 }
  { m.discard taken now with
    files := files ++ into.map fun f => ⟨m.path f.1, f.2.map m.path⟩ }

/-- Does it list files in this folder? -/
def At (m : TableMeta) (folder : String) : Prop := m.folder = folder ∨ folder ∈ m.shares

instance (m : TableMeta) (folder : String) : Decidable (m.At folder) :=
  inferInstanceAs (Decidable (_ ∨ _))

end TableMeta

/-- A dropped table kept to be undropped: its entry, and its changed rows' old versions'. -/
structure Dropped where
  name : String
  atMs : Nat
  keepMs : Nat
  entries : List (String × TableMeta)
  deriving DecidableEq

/-- A log segment: the object it is in, and the files of a file commit. -/
structure Segment where
  n : Nat
  ts : Nat
  path : Option Path
  files : List Path
  deriving DecidableEq

structure Pin where
  ms : Nat
  atMs : Nat
  lease : Bool
  deriving DecidableEq

structure Catalog where
  /-- The log's last segment. -/
  hwm : Nat
  tables : List (String × TableMeta)
  dropped : List Dropped
  segments : List Segment
  pins : List (String × Pin)
  deriving DecidableEq

namespace Catalog

/-- The entries of all tables, those kept to be undropped too. -/
def metas (c : Catalog) : List TableMeta :=
  c.tables.map Prod.snd ++ c.dropped.flatMap fun d => d.entries.map Prod.snd

/-- A branch's snapshot: the objects its base lists, at a version that holds its pin, written at
`at_ms` or later. -/
def snapshot (c : Catalog) (pin : String) (atMs : Nat) : Option (List Path) :=
  match c.pins.lookup pin with
  | some p => if atMs ≤ p.atMs then some (c.tables.flatMap fun t => t.2.named) else none
  | none => none

/-- The oldest and the newest pin. -/
def ends (c : Catalog) : Option (Nat × Nat) :=
  match (c.pins.map (·.2.ms)).min?, (c.pins.map (·.2.ms)).max? with
  | some oldest, some newest => some (oldest, newest)
  | _, _ => none

/-- The paths in use in a part of the lake. -/
def used (c : Catalog) : Part → List Path
  | .log => c.segments.filterMap Segment.path
  | .data folder => (c.metas.filter (·.At folder)).flatMap fun m => m.named ++ m.old.map Prod.fst

end Catalog

structure State where
  catalog : Catalog
  /-- The objects, and when each was last written. -/
  bucket : List (Path × Nat)
  /-- The leader's floors. -/
  floors : List (Nat × Nat)
  /-- History: the latest time a leader's clock gave. -/
  latest : Nat
  deriving DecidableEq

structure Settings where
  grace : Nat
  changelog : Nat
  lease : Nat
  openFormat : Path → Bool

def margin : Nat := 60000
def hour : Nat := 3600000
def day : Nat := 24 * hour

/-- What a round's orphan sweep finds: the pins whose branches are gone, the parts whose turn it is, and
the paths its filter takes for used though they aren't. -/
structure Sweep where
  gone : List String
  due : List Part
  seen : List Path

inductive Op
  /-- Another node leads. -/
  | lead
  | upload (path : Path) (at_ : Nat)
  | create (name folder : String)
  | change (name : String) (out : List Path) (marks : List (Path × String))
      (into : List (String × List String)) (now : Nat)
  | clone (name folder source : String)
  | drop (name : String) (kept : Option Nat) (now : Nat)
  | undrop (name : String)
  | append (ts : Nat) (path : Option String) (files : List Path)
  | pin (branch : String) (ms : Option Nat) (lease : Bool) (now : Nat)
  | unpin (branch : String)
  | expire (now floor : Nat) (sweep : Option Sweep)

/-- A table's changed rows' old versions are a table of their own. -/
def deletedOf (name : String) : String := name ++ "$deleted"

def Pin.lapsed (set : Settings) (now : Nat) (p : Pin) : Bool := p.lease && decide (p.atMs + set.lease < now)

/-- A pin made, or made again: it is never of a later time, nor off its lease. -/
def pinned (before : Option Pin) (ms : Option Nat) (lease : Bool) (now : Nat) : Pin :=
  let at_ := ms.getD (now - margin)
  match before with
  | some p => ⟨min at_ p.ms, now, lease || p.lease⟩
  | none => ⟨at_, now, lease⟩

/-! ### A round -/

/-- The floor as it was a grace ago. -/
def floorAt (cutoff : Nat) (floors : List (Nat × Nat)) : Nat :=
  match floors.head? with
  | some f => if f.1 ≤ cutoff then f.2 else 0
  | none => 0

/-- The log segments a round takes. -/
def done (floor logCutoff : Nat) (s : Segment) : Bool :=
  decide (1 ≤ s.n) && decide (s.n ≤ floor) && decide (s.ts < logCutoff)

/-- When the first log segment was written that a round keeps. -/
def firstKept (c : Catalog) (floor logCutoff : Nat) : Option Nat :=
  match c.segments.find? fun s => decide (1 ≤ s.n) && decide (s.n ≤ floor) && !done floor logCutoff s with
  | some s => some s.ts
  | none => (c.segments.find? fun s => decide (floor < s.n) && decide (s.n ≤ floor + 1000)).map Segment.ts

/-- Garbage of before this goes. -/
def filesCutoff (cutoff : Nat) (kept : Option Nat) (ends : Option (Nat × Nat)) : Nat :=
  let least := match kept with
    | some ts => min cutoff ts
    | none => cutoff
  match ends with
  | some e => min least e.1
  | none => least

def Dropped.expired (now : Nat) (ends : Option (Nat × Nat)) (d : Dropped) : Bool :=
  decide (d.atMs + d.keepMs ≤ now) && ends.all fun e => decide (d.atMs < e.1)

/-- A folder a clone shares: files there go only by the orphan sweep. -/
def Catalog.shared (c : Catalog) (p : Path) : Bool :=
  match p.part with
  | .log => false
  | .data folder => c.metas.any fun m => decide (folder ∈ m.shares)

/-- A table's garbage of before the cutoff. -/
def dead (c : Catalog) (cutoff : Nat) (m : TableMeta) : List Path :=
  let old := m.garbage.filter (·.2 < cutoff)
  let deletes := m.garbageDeletes.filter (·.2 < cutoff)
  let named := if deletes.isEmpty then [] else m.files.flatMap DataFile.deletes
  ((old ++ deletes).map Prod.fst).filter fun p => decide (p ∉ named) && !c.shared p

def TableMeta.kept (m : TableMeta) (cutoff : Nat) : TableMeta :=
  { m with
    garbage := m.garbage.filter fun g => !decide (g.2 < cutoff)
    garbageDeletes := m.garbageDeletes.filter fun g => !decide (g.2 < cutoff) }

/-- An object that no catalog entry points to and that is a day old. One that was there when a branch was
made may be one of its files. -/
def orphan (set : Settings) (now : Nat) (sweep : Sweep) (c : Catalog) (o : Path × Nat) : Bool :=
  let newest := (c.ends.map Prod.snd).getD 0
  decide (o.1.part ∈ sweep.due) && decide (o.2 + day < now) && decide (newest < o.2) &&
    decide (o.1 ∉ c.used o.1.part) && decide (o.1 ∉ sweep.seen) && !set.openFormat o.1

def collectOrphans (set : Settings) (now : Nat) (sweep : Sweep) (s : State) : State :=
  let c := { s.catalog with
    pins := s.catalog.pins.filter fun p => !(decide (p.2.atMs + hour < now) && decide (p.1 ∈ sweep.gone)) }
  { s with
    catalog := c
    bucket := s.bucket.filter fun o => !orphan set now sweep c o }

def expire (set : Settings) (now floor : Nat) (sweep : Option Sweep) (s : State) : State :=
  let cutoff := now - set.grace
  let floors := Tier.passed cutoff (s.floors ++ [(now, floor)])
  let floor := floorAt cutoff floors
  let logCutoff := min cutoff (now - set.changelog)
  -- pins on lease not renewed go before the files they kept are counted
  let c := { s.catalog with pins := s.catalog.pins.filter fun p => !p.2.lapsed set now }
  let files := filesCutoff cutoff (firstKept c floor logCutoff) c.ends
  let paths := (c.segments.filter (done floor logCutoff)).filterMap Segment.path ++
    c.tables.flatMap fun t => dead c files t.2
  let after : State :=
    { catalog :=
        { c with
          tables := c.tables.map fun t => (t.1, t.2.kept files)
          dropped := c.dropped.filter fun d => !d.expired now c.ends
          segments := c.segments.filter fun s => !done floor logCutoff s }
      bucket := s.bucket.filter fun o => decide (o.1 ∉ paths)
      floors := floors
      latest := s.latest }
  match sweep with
  | some sweep => collectOrphans set now sweep after
  | none => after

/-! ### The steps, each under the lake's lock -/

def act (set : Settings) (s : State) : Op → State
  | .lead => { s with floors := [] }
  | .upload path at_ => { s with bucket := (path, at_) :: s.bucket.filter (·.1 ≠ path) }
  | .create name folder =>
    if (s.catalog.tables.lookup name).isSome then s
    else { s with catalog := { s.catalog with
      tables := s.catalog.tables ++ [(name, ⟨folder, [], [], [], []⟩)] } }
  | .change name out marks into now =>
    { s with catalog := { s.catalog with
      tables := s.catalog.tables.map fun t =>
        if t.1 = name then (t.1, t.2.change out marks into now) else t } }
  | .clone name folder source =>
    match s.catalog.tables.lookup name, s.catalog.tables.lookup source with
    | none, some m => { s with catalog := { s.catalog with
        tables := s.catalog.tables ++ [(name, ⟨folder, m.files, [], [], m.folder :: m.shares⟩)] } }
    | _, _ => s
  | .drop name kept now =>
    let entries := s.catalog.tables.filter fun t => decide (t.1 = name ∨ t.1 = deletedOf name)
    { s with catalog := { s.catalog with
      tables := s.catalog.tables.filter fun t => !decide (t.1 = name ∨ t.1 = deletedOf name)
      dropped := match kept with
        | some keepMs => s.catalog.dropped ++ [⟨name, now, keepMs, entries⟩]
        | none => s.catalog.dropped } }
  | .undrop name =>
    if (s.catalog.tables.lookup name).isSome then s
    else match s.catalog.dropped.reverse.find? (·.name = name) with
      | some d => { s with catalog := { s.catalog with
          tables := s.catalog.tables ++ d.entries
          dropped := s.catalog.dropped.erase d } }
      | none => s
  | .append ts path files =>
    let n := s.catalog.hwm + 1
    { s with catalog := { s.catalog with
      hwm := n
      segments := s.catalog.segments ++ [⟨n, ts, path.map fun name => ⟨.log, name⟩, files⟩] } }
  | .pin branch ms lease now =>
    { s with catalog := { s.catalog with
      pins := (branch, pinned (s.catalog.pins.lookup branch) ms lease now) ::
        s.catalog.pins.filter (·.1 ≠ branch) } }
  | .unpin branch =>
    { s with catalog := { s.catalog with pins := s.catalog.pins.filter (·.1 ≠ branch) } }
  | .expire now floor sweep => expire set now floor sweep s

/-- The leader's clock in a step. -/
def Op.now : Op → Option Nat
  | .change _ _ _ _ now | .drop _ _ now | .pin _ _ _ now | .expire now _ _ => some now
  | _ => none

def next (set : Settings) (s : State) (op : Op) : State :=
  { act set s op with latest := max s.latest (op.now.getD 0) }

/-- Names of new delete files. -/
def newDeletes (marks : List (Path × String)) (into : List (String × List String)) : List String :=
  marks.map Prod.snd ++ into.flatMap Prod.snd

/-- New objects have names of their own. -/
def Fresh (c : Catalog) (name : String) (marks : List (Path × String))
    (into : List (String × List String)) : Prop :=
  (∀ t ∈ c.tables, t.1 = name → ∀ n ∈ into.map Prod.fst ++ newDeletes marks into, ∀ m ∈ c.metas,
    t.2.path n ∉ m.named ++ m.old.map Prod.fst) ∧
  ∀ n ∈ into.map Prod.fst, n ∉ newDeletes marks into

/-- Leaders' clocks are apart by less than a pin's margin, so none gives a time that much before one
given already. A table's folder is free, and a pin's given time is as old as a pin's. -/
def Allows (s : State) (op : Op) : Prop :=
  (∀ now ∈ op.now, s.latest < now + margin) ∧
  match op with
  | .create _ folder | .clone _ folder _ => ∀ m ∈ s.catalog.metas, m.folder ≠ folder
  | .change name _ marks into _ => Fresh s.catalog name marks into
  | .pin _ ms _ now => ∀ x ∈ ms, x + margin ≤ now
  | _ => True

def base (set : Settings) : Machine State Op where
  next := next set
  Allows := Allows

instance (c : Catalog) (name : String) (marks : List (Path × String))
    (into : List (String × List String)) : Decidable (Fresh c name marks into) :=
  inferInstanceAs (Decidable ((∀ t ∈ c.tables, t.1 = name → ∀ n ∈ into.map Prod.fst ++ newDeletes marks into,
    ∀ m ∈ c.metas, t.2.path n ∉ m.named ++ m.old.map Prod.fst) ∧
    ∀ n ∈ into.map Prod.fst, n ∉ newDeletes marks into))

instance (s : State) (op : Op) : Decidable (Allows s op) := by
  unfold Allows
  cases op <;> infer_instance

end Pondra.Branch
