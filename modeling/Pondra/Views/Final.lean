import Mathlib.Algebra.GroupWithZero.Nat
import Mathlib.Order.Lattice
import Pondra.Base.Grouped
import Pondra.Base.Machine

set_option autoImplicit false

namespace Pondra.Views

open Grouping Machines

/-! ### A view of groups that are over -/

/-- The time bucket a view groups by: an expression that only grows with the time, whose column has
a unit of its own (`micros` its values in µs, `ofMicros` a watermark as one of its values). -/
structure Window (β : Type) [LinearOrder β] where
  bucket : Int → Option β
  micros : Int → Int
  ofMicros : Int → Int
  grows : ∀ a b x y, a ≤ b → bucket a = some x → bucket b = some y → x ≤ y
  casts : ∀ a b, a ≤ b → ofMicros a ≤ ofMicros b
  later : ∀ d t, 0 < d → d ≤ micros t → ofMicros d ≤ t

/-- A row of the source: its time, the rest of its group, and what it adds to the group. -/
structure Row (κ μ : Type) where
  time : Option Int
  key : κ
  value : μ
  deriving DecidableEq

/-- A flush's rows, packed: what the view derives of them, and how many of them were late.
History: `seen` is the mark they were counted against. -/
structure Packed (β κ μ : Type) where
  batches : List (List (Row κ μ))
  partials : List ((Option β × κ) × μ)
  late : Nat
  seen : Nat

/-- A round of `emit`: the mark it goes on from and its watermark, their buckets, and once it read
them the groups between. History: how many rows the source had then. -/
structure Round (β κ μ : Type) where
  prev : Nat
  seq : Nat
  lo : Option β
  hi : β
  rows : Option (List ((β × κ) × μ))
  read : Nat

/-- A group kept. History: how many rows the source had when it was appended. -/
structure Entry (β κ μ : Type) where
  group : β × κ
  value : μ
  upto : Nat
  deriving DecidableEq

/-- History: each row of the source is with whether its flush counted it as late. -/
structure Final (β κ μ : Type) where
  source : List (Row κ μ × Bool)
  opened : List ((Option β × κ) × μ)
  view : List (Entry β κ μ)
  late : Nat
  mark : Nat
  flushes : List (Packed β κ μ)
  rounds : List (Round β κ μ)

inductive Op (κ μ : Type) where
  | pack (batches : List (List (Row κ μ)))
  | land (i : Nat)
  | sendBack (i : Nat)
  | look (wm : Int)
  | read (i : Nat)
  | append (i : Nat)

section emit

variable {β κ μ : Type} [LinearOrder β] (w : Window β)

def Window.marks (us : Int) : Option β := w.bucket (w.ofMicros us)

def Row.bucket (r : Row κ μ) : Option β := r.time.bind w.bucket

/-- What a row is in the view's query: its group and what it adds. -/
def Row.derived (r : Row κ μ) : (Option β × κ) × μ := ((r.bucket w, r.key), r.value)

/-- Is the row's bucket before the mark's? -/
def Window.kept (done : Nat) (r : Row κ μ) : Bool :=
  match r.bucket w, w.marks done with
  | some b, some lo => decide (b < lo)
  | _, _ => false

/-- How many of a flush's rows came for groups already kept. -/
def Window.late (done : Nat) (batches : List (List (Row κ μ))) : Nat :=
  if done = 0 then 0
  else
    (batches.map fun rows =>
      -- (nothing older than the watermark: no group of it is kept yet)
      if (rows.filterMap fun r => r.time.map w.micros).min?.all fun m => decide ((done : Int) ≤ m)
      then 0 else rows.countP (w.kept done)).sum

/-- The buckets of the last mark and of the watermark, where it moved past a bucket. -/
def Window.range (done : Nat) (wm : Int) : Option (Option β × β) :=
  if wm ≤ done then none
  else
    match w.marks wm with
    | none => none
    | some hi => if 0 < done ∧ w.marks done = some hi then none else some (w.marks done, hi)

/-- Is a bucket before `hi`, and not before `lo` once something was kept? -/
def inRange (done : Nat) (lo : Option β) (hi b : β) : Bool :=
  decide (b < hi) && (decide (done = 0) || lo.any fun l => decide (l ≤ b))

variable [DecidableEq κ] [AddCommMonoid μ]

/-- The open groups between the buckets, each combined. -/
def taken (done : Nat) (lo : Option β) (hi : β) (opened : List ((Option β × κ) × μ)) :
    List ((β × κ) × μ) :=
  (grouped opened).filterMap fun r => r.1.1.bind fun b =>
    if inRange done lo hi b then some ((b, r.1.2), r.2) else none

def next (s : Final β κ μ) : Op κ μ → Final β κ μ
  | .pack batches =>
    { s with flushes := s.flushes ++
        [⟨batches, grouped (batches.flatten.map (·.derived w)), w.late s.mark batches, s.mark⟩] }
  | .land i =>
    match s.flushes[i]? with
    | some f =>
      { s with
        source := s.source ++ f.batches.flatten.map fun r => (r, decide (f.seen ≠ 0) && w.kept f.seen r)
        opened := s.opened ++ f.partials
        late := s.late + f.late
        flushes := s.flushes.eraseIdx i }
    | none => s
  | .sendBack i => { s with flushes := s.flushes.eraseIdx i }
  | .look wm =>
    match w.range s.mark wm with
    | some (lo, hi) => { s with rounds := s.rounds ++ [⟨s.mark, wm.toNat, lo, hi, none, 0⟩] }
    | none => s
  | .read i =>
    { s with rounds := s.rounds.modify i fun r =>
        match r.rows with
        | some _ => r
        | none => { r with rows := some (taken r.prev r.lo r.hi s.opened), read := s.source.length } }
  | .append i =>
    match s.rounds[i]? with
    | some r =>
      match r.rows with
      | some rows =>
        -- refused where another round moved the mark; a resent one is a duplicate
        if r.prev = s.mark ∧ s.mark < r.seq then
          { s with
            view := s.view ++ rows.map fun g => ⟨g.1, g.2, s.source.length⟩
            mark := r.seq }
        else s
      | none => s
    | none => s

def final : Machine (Final β κ μ) (Op κ μ) where
  next := next w
  Allows _ _ := True

/-- A view just made. -/
def made : Final β κ μ := ⟨[], [], [], 0, 0, [], []⟩

/-! ### What is kept, and what is counted -/

/-- Each group is kept once, whole; a row before the mark is in its group or is counted. -/
structure Final.Right (s : Final β κ μ) : Prop where
  once : (s.view.map (·.group)).Nodup
  whole : ∀ e ∈ s.view, e.upto ≤ s.source.length ∧
    e.value = combined ((s.source.take e.upto).map fun r => r.1.derived w) (some e.group.1, e.group.2)
  ended : ∀ e ∈ s.view, ∃ hi, w.marks s.mark = some hi ∧ e.group.1 < hi
  each : ∀ (i : Nat) (r : Row κ μ) (late : Bool), s.source[i]? = some (r, late) → 0 < s.mark →
    w.kept s.mark r = true →
    if late = true then ∀ e ∈ s.view, r.bucket w = some e.group.1 → r.key = e.group.2 → e.upto ≤ i
    else ∃ e ∈ s.view, r.bucket w = some e.group.1 ∧ r.key = e.group.2 ∧ i < e.upto
  counted : s.late = s.source.countP (·.2)

/-- The flush that lands has no row that the mark passed since its late rows were counted; the
round that is appended read every row of its groups there is. -/
def Sure (s : Final β κ μ) : Op κ μ → Prop
  | .land i => ∀ f ∈ s.flushes[i]?, ∀ r ∈ f.batches.flatten, w.kept s.mark r = true → 0 < s.mark →
      f.seen ≠ 0 ∧ w.kept f.seen r = true
  | .append i => ∀ r ∈ s.rounds[i]?, r.rows ≠ none → r.prev = s.mark → s.mark < r.seq →
      ∀ row ∈ s.source.drop r.read, ∀ b ∈ row.1.bucket w, inRange r.prev r.lo r.hi b = false
  | _ => True

end emit

end Pondra.Views
