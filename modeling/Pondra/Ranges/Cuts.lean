import Mathlib.Algebra.GroupWithZero.Nat
import Mathlib.Algebra.Order.Ring.Int
import Mathlib.Data.List.Sort
import Pondra.Base.Dict

set_option autoImplicit false

/-! ### Tables sliced by ranges of a column -/

namespace Pondra.Ranges

open Dicts

/-- An `i64` operation's result, wrapped as a release build has it. -/
def wrap (x : Int) : Int := x.bmod (2 ^ 64)

/-- Without wrapping. -/
def fits (x : Int) : Bool := decide (-2 ^ 63 ≤ x) && decide (x < 2 ^ 63)

/-- A column's values: their types, their order, their texts and casts. -/
structure Values (T ν : Type) [LE ν] where
  type : ν → T
  /-- A type a table may be sliced by a column of. -/
  key : T → Bool
  isInteger : T → Bool
  /-- `ScalarValue::try_from_string`. -/
  parse : T → String → Option ν
  /-- `data_file::text`. -/
  text : ν → Option String
  /-- The cast to Int64. -/
  int : ν → Option Int
  /-- An Int64 cast to a type. -/
  cast : T → Int → Option ν
  parsed : ∀ t s v, parse t s = some v → type v = t
  casted : ∀ t x v, cast t x = some v → type v = t
  exact : ∀ v s, text v = some s → parse (type v) s = some v
  ranged : ∀ v x, int v = some x → fits x = true
  rises : ∀ u v x y, type u = type v → isInteger (type u) = true → u ≤ v → int u = some x →
    int v = some y → x ≤ y

/-- The arithmetic of `f64`, and the cast of a width's share back to `i64`. -/
structure Doubles (F : Type) where
  ofInt : Int → F
  add : F → F → F
  mul : F → F → F
  div : F → F → F
  max : F → F → F
  le : F → F → Bool
  lt : F → F → Bool
  toInt : F → Int
  hundredth : F
  threeHalves : F
  within : ∀ (width : Int) (x y : Nat), 0 ≤ width → fits width = true → x < y →
    0 ≤ toInt (div (mul (ofInt width) (ofInt x)) (ofInt y)) ∧
      toInt (div (mul (ofInt width) (ofInt x)) (ofInt y)) ≤ width

/-- A row, by its table's stored column names. -/
abbrev Row (ν : Type) := String → Option ν

/-- A file, or a sealed manifest of them, with what its statistics say. -/
structure Piece (ν : Type) where
  whole : Bool
  bytes : Nat
  stats : String → Option (String × String)
  nulls : Option (List String)
  rows : List (Row ν)

structure Manifest (ν : Type) where
  bytes : Nat
  stats : String → Option (String × String)
  nulls : Option (List String)
  files : List (Piece ν)

structure Column (T : Type) where
  stored : String
  name : String
  type : T
  dropped : Bool

structure TableMeta (T ν : Type) where
  columns : List (Column T)
  files : List (Piece ν)
  manifests : List (Manifest ν)
  once : (columns.map (·.stored)).Nodup

/-- One node's range of a key: `lo` to `hi`, unbounded where none. The first also holds NULLs. -/
structure Range where
  column : String
  lo : Option String
  hi : Option String

structure Span (ν : Type) where
  piece : Piece ν
  lo : ν
  hi : ν
  nulls : Bool

structure Scheme (ν : Type) where
  cuts : List ν
  columns : Dict String String

structure Part (ν : Type) where
  files : List (Piece ν)
  manifests : List (Piece ν)
  range : Range

section slicing

variable {T ν F : Type} [LinearOrder ν] [DecidableEq T] (values : Values T ν) (d : Doubles F)

/-- The rows of a table in a range: a comparison with a NULL keeps no row. -/
def Range.expr (r : Range) (t : T) : Option (Row ν → Bool) :=
  match r.lo, r.hi with
  | none, none => some fun _ => true
  | none, some hi => do
    let hi ← values.parse t hi
    some fun row => (row r.column).all fun v => decide (v < hi)
  | some lo, none => do
    let lo ← values.parse t lo
    some fun row => (row r.column).any fun v => decide (lo ≤ v)
  | some lo, some hi => do
    let lo ← values.parse t lo
    let hi ← values.parse t hi
    some fun row => (row r.column).any fun v => decide (lo ≤ v) && decide (v < hi)

def Piece.size (p : Piece ν) : Nat := max p.bytes 1

/-- Not knowing counts as yes. -/
def Piece.mayNull (p : Piece ν) (column : String) : Bool :=
  p.nulls.all fun nulls => nulls.any fun c => decide (c = column)

def Manifest.piece (m : Manifest ν) : Piece ν :=
  ⟨true, m.bytes, m.stats, m.nulls, m.files.flatMap (·.rows)⟩

/-- The table's files, and its manifests whole when there are enough of them to go round. -/
def pieces (table : TableMeta T ν) (n : Nat) : List (Piece ν) :=
  table.files ++
    if 4 * n ≤ table.manifests.length then table.manifests.map Manifest.piece
    else table.manifests.flatMap (·.files)

/-- A piece with its range of a column, if it has one. -/
def span (column : String) (t : T) (p : Piece ν) : Option (Span ν) := do
  let (lo, hi) ← p.stats column
  some ⟨p, ← values.parse t lo, ← values.parse t hi, p.mayNull column⟩

def spans (ps : List (Piece ν)) (column : String) (t : T) : Option (List (Span ν)) :=
  (ps.mapM (span values column t)).map fun out => out.insertionSort fun a b => a.lo ≤ b.lo

/-- The cuts so far, the bytes of the pieces before, whether two met, and whether any arithmetic
wrapped. -/
structure Cutting (ν : Type) where
  out : List ν
  before : Nat
  stopped : Bool
  wrapped : Bool

def Cutting.push (c : Cutting ν) : Option ν → Cutting ν
  | none => { c with stopped := true }
  | some cut =>
    if c.out.getLast?.any fun last => decide (¬ last < cut) then { c with stopped := true }
    else { c with out := c.out ++ [cut] }

/-- A cut inside a piece of whole numbers, as if its values were spread evenly. -/
def inside (s : Span ν) (before want : Nat) (c : Cutting ν) : Cutting ν :=
  match values.int s.lo, values.int s.hi with
  | some lo, some hi =>
    let width := wrap (hi - lo)
    let share := d.toInt (d.div (d.mul (d.ofInt width) (d.ofInt (want - before : Nat)))
      (d.ofInt s.piece.size))
    let at' := max (wrap (lo + share)) (wrap (lo + 1))
    { c with wrapped := c.wrapped || !fits (hi - lo) || !fits (lo + share) || !fits (lo + 1) }.push
      (values.cast (values.type s.lo) at')
  | _, _ => { c with stopped := true }

/-- The cuts one piece gives, at most `k`. -/
def fill (total n : Nat) (s : Span ν) : Nat → Cutting ν → Cutting ν
  | 0, c => c
  | k + 1, c =>
    let want := total * (c.out.length + 1) / n
    if c.stopped then c
    else if want ≤ c.before then fill total n s k (c.push (some s.lo))
    else if want < c.before + s.piece.size ∧ values.isInteger (values.type s.lo) then
      fill total n s k (inside values d s c.before want c)
    else c

def cutting (spans : List (Span ν)) (n : Nat) : Cutting ν :=
  let total := (spans.map (·.piece.size)).sum
  spans.foldl (fun c s =>
    if c.stopped then c
    else
      let c := fill values d total n s (n - 1 - c.out.length) c
      { c with before := c.before + s.piece.size }) ⟨[], 0, false, false⟩

/-- Where to cut the biggest table's pieces into `n` ranges of about equal bytes. -/
def cuts (spans : List (Span ν)) (n : Nat) : Option (List ν) :=
  let c := cutting values d spans n
  if c.stopped = false ∧ c.out.length + 1 = n then some c.out else none

/-- Whether a piece can hold rows of range `i`. -/
def overlaps (s : Span ν) (cuts : List ν) (i : Nat) : Bool :=
  (decide (i = 0) || cuts[i - 1]?.all fun c => decide (¬ s.hi < c)) &&
      (decide (i = cuts.length) || cuts[i]?.any fun c => decide (s.lo < c)) ||
    decide (i = 0) && s.nulls

/-- The share of a piece's bytes range `i` keeps. -/
def share (s : Span ν) (cuts : List ν) (i nodes : Nat) : F :=
  match values.int s.lo, values.int s.hi with
  | some lo, some hi =>
    if lo < hi then
      let a := if i = 0 then lo else max (((cuts[i - 1]?).bind values.int).getD lo) lo
      let b := if i = cuts.length then wrap (hi + 1)
        else min (((cuts[i]?).bind values.int).getD hi) (wrap (hi + 1))
      d.div (d.ofInt (max (wrap (b - a)) 0)) (d.ofInt (wrap (wrap (hi + 1) - lo)))
    else d.div (d.ofInt 1) (d.ofInt nodes)
  | _, _ => d.div (d.ofInt 1) (d.ofInt nodes)

/-- What slicing by `cuts` costs: the bytes every node reads, and the most any node keeps, both over
the table's. -/
def cost (spans : List (Span ν)) (cuts : List ν) : F × F :=
  let n := cuts.length + 1
  let total := d.ofInt (spans.map (·.piece.size)).sum
  let nodes (s : Span ν) : List Nat := (List.range n).filter fun i => overlaps s cuts i
  let read := spans.foldl (fun read s => d.add read (d.ofInt (s.piece.size * (nodes s).length : Nat)))
    (d.ofInt 0)
  let kept (i : Nat) : F := spans.foldl (fun kept s =>
    if i ∈ nodes s then
      d.add kept (d.mul (d.ofInt s.piece.size) (share values d s cuts i (nodes s).length))
    else kept) (d.ofInt 0)
  (d.div read total, d.div ((List.range n).foldl (fun most i => d.max most (kept i)) (d.ofInt 0)) total)

/-- The most a table's slicing may read, over its size: each cut through one piece. -/
def straddled (spans : List (Span ν)) (n : Nat) : F :=
  let total := (spans.map (·.piece.size)).sum
  let biggest := (spans.map (·.piece.size)).foldl max 0
  d.add (d.add (d.ofInt 1)
    (d.div (d.mul (d.ofInt ((n : Int) - 1)) (d.ofInt biggest)) (d.ofInt (max total 1)))) d.hundredth

/-- The columns a query names that have an order, by their stored names. -/
def named (table : TableMeta T ν) (spoken : String → Bool) : List (String × T) :=
  (table.columns.filter fun c => !c.dropped && spoken c.name && values.key c.type).map fun c =>
    (c.stored, c.type)

/-- The biggest table's column that reads least, with its cuts. -/
def best (table : TableMeta T ν) (spoken : String → Bool) (n : Nat) :
    Option (F × String × T × List ν) :=
  (named values table spoken).foldl (fun best (column, t) =>
    match spans values (pieces table n) column t with
    | none => best
    | some spans =>
      match (cuts values d spans n).filter fun cuts => cuts.all fun c => (values.text c).isSome with
      | none => best
      | some cuts =>
        let (read, _) := cost values d spans cuts
        if d.le read (straddled d spans n) && best.all fun b => d.lt read b.1 then
          some (read, column, t, cuts)
        else best) none

/-- Another table's column to slice by the same cuts. -/
def pick (table : TableMeta T ν) (spoken : String → Bool) (n : Nat) (t : T) (cuts : List ν) :
    Option (F × String) :=
  ((named values table spoken).filter fun c => decide (c.2 = t)).foldl (fun pick (column, _) =>
    match spans values (pieces table n) column t with
    | none => pick
    | some spans =>
      let (read, most) := cost values d spans cuts
      if d.le read (d.max (straddled d spans n) (d.ofInt 2)) &&
          d.le most (d.div d.threeHalves (d.ofInt n)) && pick.all fun p => d.lt read p.1 then
        some (read, column)
      else pick) none

/-- How to slice a query's big tables by ranges, the biggest one first. -/
def scheme (spoken : String → Bool) (tables : List (String × TableMeta T ν)) (n : Nat) :
    Option (Scheme ν) :=
  match tables with
  | [] => none
  | (main, table) :: rest =>
    match best values d table spoken n with
    | none => none
    | some (_, column, t, cuts) =>
      some ⟨cuts, rest.foldl (fun columns (name, table) =>
        match pick values d table spoken n t cuts with
        | some (_, column) => columns.insert name column
        | none => columns) ((∅ : Dict String String).insert main column)⟩

/-- A table's parts by the scheme's ranges, one a node; none is an error. -/
def parts (table : TableMeta T ν) (name : String) (scheme : Scheme ν) (n : Nat) :
    Option (List (Part ν)) := do
  let column ← scheme.columns.lookup name
  let c ← table.columns.find? fun c => decide (c.stored = column)
  let spans ← spans values (pieces table n) column c.type
  let texts ← scheme.cuts.mapM values.text
  some <| (List.range n).map fun i =>
    let held := (spans.filter fun s => overlaps s scheme.cuts i).map (·.piece)
    ⟨held.filter fun p => !p.whole, held.filter (·.whole),
      ⟨column, if 0 < i then texts[i - 1]? else none, if i + 1 < n then texts[i]? else none⟩⟩

/-- The rows a node reads: its pieces', and the log tail's, in its range. -/
def Part.read (part : Part ν) (t : T) (tail : List (Row ν)) : Option (List (Row ν)) := do
  let keeps ← part.range.expr values t
  some <| ((part.files ++ part.manifests).flatMap (·.rows) ++ tail).filter keeps

end slicing

end Pondra.Ranges
