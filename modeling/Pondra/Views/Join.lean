import Mathlib.Data.List.Perm.Basic
import Pondra.Base.Machine

set_option autoImplicit false

namespace Pondra.Views

open Machines

/-! ### Times -/

inductive TimeUnit where
  | second
  | milli
  | micro
  | nano
  deriving DecidableEq

/-- A column's values in µs, as a cast makes them. -/
def TimeUnit.micros (unit : TimeUnit) (t : Int) : Int :=
  match unit with
  | .second => t * 1000000
  | .milli => t * 1000
  | .micro => t
  | .nano => t.tdiv 1000

/-- A time in µs as a column's, as a cast makes it. -/
def TimeUnit.ofMicros (unit : TimeUnit) (us : Int) : Int :=
  match unit with
  | .second => us.tdiv 1000000
  | .milli => us.tdiv 1000
  | .micro => us
  | .nano => us * 1000

/-- What a column's values are, in ns. -/
def TimeUnit.nanos (unit : TimeUnit) (t : Int) : Int :=
  match unit with
  | .second => t * 1000000000
  | .milli => t * 1000000
  | .micro => t * 1000
  | .nano => t

/-- A table's time column. -/
structure Timed (ρ : Type) where
  unit : TimeUnit
  time : ρ → Option Int

section span

variable {ρ σ : Type}

/-- The time range (µs) `within_secs` around the rows' times (none: no rows). -/
def span (rows : List ρ) (c : Timed ρ) (within : Nat) : Option (Int × Int) := do
  let us := rows.filterMap fun r => (c.time r).map c.unit.micros
  let lo ← us.min?
  let hi ← us.max?
  pure (lo - within * 1000000, hi + within * 1000000)

/-- Is the other side's row in the range its partners can be in? -/
def inSpan (mine : Timed σ) (range : Option (Int × Int)) (r : σ) : Bool :=
  match range with
  | none => true
  | some (lo, hi) => (mine.time r).any fun t =>
      decide (mine.unit.ofMicros lo ≤ t) && decide (t ≤ mine.unit.ofMicros hi)

end span

/-! ### A join of two streams -/

/-- An inner join of two tables' rows, its time columns and `within_secs` if they are given. -/
structure Join (α β ο : Type) where
  on : α → β → Bool
  row : α → β → ο
  time : Option (Timed α × Timed β)
  within : Option Nat

/-- A run: the rows it found for commits (prev, seq]. -/
structure JoinRun (ο : Type) where
  prev : Nat
  seq : Nat
  rows : List ο

/-- Two append tables, each row with the commit that wrote it, and the view. -/
structure Streams (α β ο : Type) where
  hwm : Nat
  a : List (Nat × α)
  b : List (Nat × β)
  mark : Nat
  out : List ο
  runs : List (JoinRun ο)

inductive JoinOp (α β : Type) where
  | commit (a : List α) (b : List β)
  | look
  | append (i : Nat)

section join

variable {α β ο ρ : Type} (j : Join α β ο)

/-- A table's rows written by commits (after, upto]; from the first on with no `after`. -/
def versions (rows : List (Nat × ρ)) (after : Option Nat) (upto : Nat) : List ρ :=
  (rows.filter fun r => after.all (fun n => decide (n < r.1)) && decide (r.1 ≤ upto)).map (·.2)

/-- The join's rows over some rows of each table. -/
def Join.query (as : List α) (bs : List β) : List ο :=
  as.flatMap fun x => (bs.filter (j.on x)).map (j.row x)

/-- The range the second table's rows pair in with the fresh rows of the first. -/
def Join.boundB (fresh : List α) (y : β) : Bool :=
  match j.time, j.within with
  | some (theirs, mine), some w => inSpan mine (span fresh theirs w) y
  | _, _ => true

/-- The range the first table's rows pair in with the fresh rows of the second. -/
def Join.boundA (fresh : List β) (x : α) : Bool :=
  match j.time, j.within with
  | some (mine, theirs), some w => inSpan mine (span fresh theirs w) x
  | _, _ => true

variable (s : Streams α β ο)

def Streams.newA (done now : Nat) : List α := versions s.a (some done) now

def Streams.newB (done now : Nat) : List β := versions s.b (some done) now

/-- The pairs commits (done, now] made. -/
def Join.pairs (done now : Nat) : List ο :=
  let otherB := (versions s.b none now).filter (j.boundB (s.newA done now))
  let otherA := (versions s.a none done).filter (j.boundA (s.newB done now))
  j.query (s.newA done now) otherB ++ j.query otherA (s.newB done now)

def joinNext : JoinOp α β → Streams α β ο
  | .commit as bs =>
    let n := s.hwm + 1
    { s with hwm := n, a := s.a ++ as.map (n, ·), b := s.b ++ bs.map (n, ·) }
  | .look =>
    if s.hwm ≤ s.mark ∨ (s.newA s.mark s.hwm = [] ∧ s.newB s.mark s.hwm = []) then s
    else { s with runs := s.runs ++ [⟨s.mark, s.hwm, j.pairs s s.mark s.hwm⟩] }
  | .append i =>
    match s.runs[i]? with
    | some r =>
      -- refused where another run moved the mark; a repeated one is a duplicate
      if r.prev = s.mark ∧ s.mark < r.seq then { s with out := s.out ++ r.rows, mark := r.seq }
      else s
    | none => s

/-- A view just made: the rows there pair with none but those written from now on. -/
structure Streams.Made : Prop where
  mark : s.mark = s.hwm
  a : ∀ r ∈ s.a, r.1 ≤ s.hwm
  b : ∀ r ∈ s.b, r.1 ≤ s.hwm
  out : s.out = []
  runs : s.runs = []

/-- No pair is outside the ranges of commits (done, now]. -/
structure Join.Whole (done now : Nat) : Prop where
  ofA : ∀ x ∈ s.newA done now, ∀ y ∈ versions s.b none now, j.on x y = true →
    j.boundB (s.newA done now) y = true
  ofB : ∀ y ∈ s.newB done now, ∀ x ∈ versions s.a none done, j.on x y = true →
    j.boundA (s.newB done now) x = true

/-- A run appended cut no pair off. -/
def joinSure : JoinOp α β → Prop
  | .append i => ∀ r ∈ s.runs[i]?, r.prev = s.mark → s.mark < r.seq → j.Whole s r.prev r.seq
  | _ => True

def joins : Machine (Streams α β ο) (JoinOp α β) where
  next := joinNext j
  Allows _ _ := True

/-- The query gives only pairs whose times differ by `within_secs` at most, where it is given. -/
def Join.Bounded : Prop :=
  ∀ ta tb w, j.time = some (ta, tb) → j.within = some w → ∀ x y, j.on x y = true →
    ∃ t u, ta.time x = some t ∧ tb.time y = some u ∧
      ta.unit.nanos t - tb.unit.nanos u ≤ w * 1000000000 ∧
      tb.unit.nanos u - ta.unit.nanos t ≤ w * 1000000000

end join

end Pondra.Views
