import Pondra.Base.Machine
import Pondra.Median.Native

set_option autoImplicit false

/-! ### Accumulators, and the states they pass on -/

namespace Pondra.Median

open Machines

/-- The groups' values, and the bytes their chunks hold, kept as they grow. -/
structure Chunked where
  groups : List Group
  held : Nat

/-- Values of the type, NULLs among them. -/
structure Batch (t : Native) where
  values : List (Option Int)
  typed : ∀ value ∈ values, ∀ v ∈ value, t.Holds v

/-- A state: a list of values a group, or NULL. -/
abbrev Lists := List (Option (List Int))

abbrev Filter := Option (List (Option Bool))

inductive EmitTo
  | All
  | First (n : Nat)

variable (grow : Nat → Nat) (t : Native)

/-- The bytes of a value. -/
def size : Nat := t.bits / 8

namespace Chunked

def new : Chunked := ⟨[], 0⟩

/-- Nothing where it panics: no such group, or `held` below zero. -/
def push (c : Chunked) (group : Nat) (v : Int) : Option Chunked :=
  match c.groups[group]? with
  | none => none
  | some g =>
    if g.filling.length = g.capacity then
      let before := g.bytes (size t)
      let g := g.room grow
      if before ≤ c.held + g.bytes (size t) then
        some ⟨c.groups.set group (g.put v), c.held + g.bytes (size t) - before⟩
      else none
    else some { c with groups := c.groups.set group (g.put v) }

def pushAll : List (Nat × Int) → Chunked → Option Chunked
  | [], c => some c
  | (group, v) :: rest, c => (c.push grow t group v).bind (pushAll rest)

def resize (total : Nat) (c : Chunked) : Chunked :=
  { c with groups := c.groups.take total ++ List.replicate (total - c.groups.length) Group.new }

/-- `EmitTo::take_needed`: the groups emitted, and those left. -/
def takeNeeded {α : Type} (groups : List α) : EmitTo → Option (List α × List α)
  | .All => some (groups, [])
  | .First n => if n ≤ groups.length then some (groups.take n, groups.drop n) else none

def emit (c : Chunked) (to_ : EmitTo) : Option (List Group × Chunked) :=
  match takeNeeded c.groups to_ with
  | none => none
  | some (out, rest) =>
    let freed := (out.map (Group.bytes (size t))).sum
    if freed ≤ c.held then some (out, ⟨rest, c.held - freed⟩) else none

/-- A row that is not filtered out. -/
def keeps (filter : Filter) (i : Nat) : Bool := filter.all fun f => f[i]? = some (some true)

/-- The values of a batch, each with its group; with no NULL and no filter, without a look at either. -/
def pairs (values : List (Option Int)) (groups : List Nat) (filter : Filter) : List (Nat × Int) :=
  if values.all Option.isSome && filter.isNone then
    (groups.zip values).filterMap fun p => p.2.map fun v => (p.1, v)
  else
    (groups.zip values).zipIdx.filterMap fun p =>
      if keeps filter p.2 then p.1.2.map fun v => (p.1.1, v) else none

def updateBatch (c : Chunked) (values : List (Option Int)) (groups : List Nat) (filter : Filter)
    (total : Nat) : Option Chunked :=
  (c.resize total).pushAll grow t (pairs values groups filter)

/-- The values of states, each with its group. -/
def merged (lists : Lists) (groups : List Nat) : List (Nat × Int) :=
  (groups.zip lists).flatMap fun p => (p.2.getD []).map fun v => (p.1, v)

def mergeBatch (c : Chunked) (lists : Lists) (groups : List Nat) (total : Nat) : Option Chunked :=
  if lists.length < groups.length then none else (c.resize total).pushAll grow t (merged lists groups)

/-- The groups' values as a state; its offsets are of 32 bits. -/
def state (c : Chunked) (to_ : EmitTo) : Option (Except String Lists × Chunked) :=
  match c.emit t to_ with
  | none => none
  | some (out, c) =>
    if (out.map Group.len).sum < 2 ^ 31 then some (.ok (out.map fun g => some g.values), c)
    else some (.error "a median's state holds more than 2^31 values", c)

def evaluate (c : Chunked) (to_ : EmitTo) : Option (List (Option Int) × Chunked) :=
  match c.emit t to_ with
  | none => none
  | some (out, c) => (out.mapM (picked t)).map fun answers => (answers, c)

/-- Each row as its own group's state. -/
def convertToState (values : List (Option Int)) (filter : Filter) : Lists :=
  values.zipIdx.map fun p => if keeps filter p.2 then p.1.map fun v => [v] else none

end Chunked

/-- Accumulators by number, the states made, and each evaluation's answers. -/
structure State where
  accs : Nat → Chunked
  states : List Lists
  answers : List (List (Option Int))
  panicked : Bool

inductive Op (t : Native)
  | update (acc : Nat) (batch : Batch t) (groups : List Nat) (filter : Filter) (total : Nat)
  | merge (acc state : Nat) (groups : List Nat) (total : Nat)
  | state (acc : Nat) (to_ : EmitTo)
  | convert (batch : Batch t) (filter : Filter)
  | evaluate (acc : Nat) (to_ : EmitTo)

namespace State

def new : State := ⟨fun _ => Chunked.new, [], [], false⟩

def put (s : State) (acc : Nat) (c : Chunked) : State := { s with accs := Function.update s.accs acc c }

def next (s : State) : Op t → State
  | .update acc batch groups filter total =>
    match (s.accs acc).updateBatch grow t batch.values groups filter total with
    | none => { s with panicked := true }
    | some c => s.put acc c
  | .merge acc from_ groups total =>
    match (s.accs acc).mergeBatch grow t (s.states.getD from_ []) groups total with
    | none => { s with panicked := true }
    | some c => s.put acc c
  | .state acc to_ =>
    match (s.accs acc).state t to_ with
    | none => { s with panicked := true }
    | some (.ok lists, c) => { s.put acc c with states := s.states ++ [lists] }
    | some (.error _, c) => s.put acc c
  | .convert batch filter =>
    { s with states := s.states ++ [Chunked.convertToState batch.values filter] }
  | .evaluate acc to_ =>
    match (s.accs acc).evaluate t to_ with
    | none => { s with panicked := true }
    | some (answers, c) => { s.put acc c with answers := s.answers ++ [answers] }

/-- A filter has an entry for each value. -/
def Fits (batch : Batch t) (filter : Filter) : Prop := ∀ f ∈ filter, f.length = batch.values.length

/-- As DataFusion calls a groups accumulator: groups are below their number, which only emitting
lowers; a state that is merged was made, and has as many lists; no more are emitted than there are. -/
def Allows (s : State) : Op t → Prop
  | .update acc batch groups filter total =>
    (s.accs acc).groups.length ≤ total ∧ (∀ g ∈ groups, g < total) ∧ Fits t batch filter
  | .merge acc from_ groups total => (s.accs acc).groups.length ≤ total ∧ (∀ g ∈ groups, g < total) ∧
      groups.length ≤ (s.states.getD from_ []).length
  | .state acc to_ => ∀ n, to_ = .First n → n ≤ (s.accs acc).groups.length
  | .convert batch filter => Fits t batch filter
  | .evaluate acc to_ => ∀ n, to_ = .First n → n ≤ (s.accs acc).groups.length

instance decidableFits (batch : Batch t) (filter : Filter) : Decidable (Fits t batch filter) :=
  inferInstanceAs (Decidable (∀ f ∈ filter, f.length = batch.values.length))

instance decidableAllows (s : State) (op : Op t) : Decidable (Allows t s op) :=
  match op with
  | .update acc batch groups filter total => inferInstanceAs (Decidable
      ((s.accs acc).groups.length ≤ total ∧ (∀ g ∈ groups, g < total) ∧ Fits t batch filter))
  | .merge acc from_ groups total => inferInstanceAs (Decidable
      ((s.accs acc).groups.length ≤ total ∧ (∀ g ∈ groups, g < total) ∧
        groups.length ≤ (s.states.getD from_ []).length))
  | .state acc .All => isTrue fun _ is => by cases is
  | .state acc (.First n) => decidable_of_iff (n ≤ (s.accs acc).groups.length) ⟨fun enough _ is => by
      cases is
      exact enough, fun allows => allows n rfl⟩
  | .convert batch filter => inferInstanceAs (Decidable (Fits t batch filter))
  | .evaluate acc .All => isTrue fun _ is => by cases is
  | .evaluate acc (.First n) => decidable_of_iff (n ≤ (s.accs acc).groups.length) ⟨fun enough _ is => by
      cases is
      exact enough, fun allows => allows n rfl⟩

end State

def accumulators : Machine State (Op t) := ⟨State.next grow t, State.Allows t⟩

instance decidableAllowed (s : State) (op : Op t) : Decidable ((accumulators grow t).Allows s op) :=
  State.decidableAllows t s op

/-! ### What they are for: the values given to each group -/

/-- The values each group was given, the states made of them, and the answers. -/
structure Given where
  accs : Nat → List (List Int)
  states : List Lists
  answers : List (List (Option Int))

namespace Given

def new : Given := ⟨fun _ => [], [], []⟩

/-- Values given to their groups, of so many. -/
def give (total : Nat) (pairs : List (Nat × Int)) (groups : List (List Int)) : List (List Int) :=
  pairs.foldl (fun groups p => groups.modify p.1 (· ++ [p.2]))
    (groups ++ List.replicate (total - groups.length) [])

/-- The rows of a batch that count. -/
def rows (values : List (Option Int)) (groups : List Nat) (filter : Filter) : List (Nat × Int) :=
  (groups.zip values).zipIdx.filterMap fun p =>
    if Chunked.keeps filter p.2 then p.1.2.map fun v => (p.1.1, v) else none

/-- The groups emitted, and those left. -/
def emitted (groups : List (List Int)) : EmitTo → List (List Int) × List (List Int)
  | .All => (groups, [])
  | .First n => (groups.take n, groups.drop n)

def put (g : Given) (acc : Nat) (groups : List (List Int)) : Given :=
  { g with accs := Function.update g.accs acc groups }

def next (g : Given) : Op t → Given
  | .update acc batch groups filter total =>
    g.put acc (give total (rows batch.values groups filter) (g.accs acc))
  | .merge acc from_ groups total =>
    g.put acc (give total (Chunked.merged (g.states.getD from_ []) groups) (g.accs acc))
  | .state acc to_ =>
    let parts := emitted (g.accs acc) to_
    let g' := g.put acc parts.2
    if (parts.1.map List.length).sum < 2 ^ 31 then { g' with states := g.states ++ [parts.1.map some] } else g'
  | .convert batch filter =>
    { g with states := g.states ++ [Chunked.convertToState batch.values filter] }
  | .evaluate acc to_ =>
    let parts := emitted (g.accs acc) to_
    { g.put acc parts.2 with answers := g.answers ++ [parts.1.map median] }

def run (g : Given) (ops : List (Op t)) : Given := ops.foldl (next t) g

end Given

end Pondra.Median
