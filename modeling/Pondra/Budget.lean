import Mathlib.Data.List.Basic
import Mathlib.Order.Lattice
import Pondra.Base.Machine

set_option autoImplicit false

/-! ### A bucket's turns -/

namespace Pondra.Budget

open Machines

/-- `turns` are those free and `out` the requests that have one. `halved` is history: the requests
that had one when `cap` last halved. -/
structure Gate where
  turns : Nat
  out : List Nat
  cap : Nat
  owed : Nat
  calm : Nat
  shrunk : Nat
  most : Nat
  peak : Nat
  requests : Nat
  halved : List Nat
deriving DecidableEq

def Gate.new (start : Nat) : Gate where
  turns := start
  out := []
  cap := start
  owed := 0
  calm := 0
  shrunk := 0
  most := start * 4
  peak := 0
  requests := 0
  halved := []

/-- A request's turn. -/
def Gate.take (g : Gate) : Gate :=
  let turns := g.turns - 1
  { g with
    turns
    out := g.requests :: g.out
    peak := max g.peak (g.cap - turns)
    requests := g.requests + 1 }

/-- The store said slow down: half the turns, once a second at most. -/
def Gate.slowDown (g : Gate) (now : Nat) : Gate :=
  if now - g.shrunk < 1000 then g
  else
    let g := { g with shrunk := now, calm := 0 }
    let less := g.cap - min (max (g.cap / 2) 4) g.cap
    if less = 0 then g
    else
      -- those free now; the rest as they come back
      let taken := min less g.turns
      { g with
        cap := g.cap - less
        turns := g.turns - taken
        owed := g.owed + (less - taken)
        halved := g.out }

/-- An answer without a slow-down: a run of `cap` of them adds a turn. -/
def Gate.calmed (g : Gate) : Gate :=
  let calm := g.calm + 1
  if g.cap ≤ calm ∧ g.cap < g.most then
    if g.owed = 0 then { g with calm := 0, cap := g.cap + 1, turns := g.turns + 1 }
    else { g with calm := 0, cap := g.cap + 1, owed := g.owed - 1 }
  else { g with calm }

inductive Answer where
  | slowDown
  | calm
  | none
deriving DecidableEq

def Gate.heard (g : Gate) (answer : Answer) (now : Nat) : Gate :=
  match answer with
  | .slowDown => g.slowDown now
  | .calm => g.calmed
  | .none => g

/-- A turn handed back: kept, or taken back if owed. -/
def Gate.handBack (g : Gate) (request : Nat) : Gate :=
  let out := g.out.erase request
  if g.owed = 0 then { g with out, turns := g.turns + 1 }
  else { g with out, owed := g.owed - 1 }

/-- A request dropped before its answer: its turn is free again. -/
def Gate.drop (g : Gate) (request : Nat) : Gate :=
  { g with out := g.out.erase request, turns := g.turns + 1 }

inductive Op where
  | take
  | heard (answer : Answer) (now : Nat)
  | handBack (request : Nat)
  | drop (request : Nat)
deriving DecidableEq

def next (g : Gate) : Op → Gate
  | .take => g.take
  | .heard answer now => g.heard answer now
  | .handBack request => g.handBack request
  | .drop request => g.drop request

/-- A turn is taken of those free, and ended by a request that has one. -/
def Allows (g : Gate) : Op → Prop
  | .take => 0 < g.turns
  | .heard _ _ => True
  | .handBack request => request ∈ g.out
  | .drop request => request ∈ g.out

def machine : Machine Gate Op := ⟨next, Allows⟩

instance decidableAllows : ∀ (g : Gate) (op : Op), Decidable (machine.Allows g op)
  | g, .take => inferInstanceAs (Decidable (0 < g.turns))
  | _, .heard _ _ => inferInstanceAs (Decidable True)
  | g, .handBack request => inferInstanceAs (Decidable (request ∈ g.out))
  | g, .drop request => inferInstanceAs (Decidable (request ∈ g.out))

/-! ### What adds up -/

/-- Turns free and out are `cap` and those owed, `cap` is within its bounds, no more are owed than
are out, and once the requests that had a turn when `cap` halved have ended no more than `cap` have
one. -/
structure AddsUp (start : Nat) (g : Gate) : Prop where
  sum : g.turns + g.out.length = g.cap + g.owed
  least : min 4 start ≤ g.cap
  most : g.cap ≤ start * 4
  owed : g.owed ≤ g.out.length
  ended : (∀ request ∈ g.out, request ∉ g.halved) → g.out.length ≤ g.cap

/-- No request is dropped while turns are owed. -/
def Paid (g : Gate) : Op → Prop
  | .drop _ => g.owed = 0
  | _ => True

instance decidablePaid : ∀ (g : Gate) (op : Op), Decidable ((machine.only Paid).Allows g op)
  | g, .take => inferInstanceAs (Decidable (0 < g.turns ∧ True))
  | _, .heard _ _ => inferInstanceAs (Decidable (True ∧ True))
  | g, .handBack request => inferInstanceAs (Decidable (request ∈ g.out ∧ True))
  | g, .drop request => inferInstanceAs (Decidable (request ∈ g.out ∧ g.owed = 0))

/-- While turns are owed none is free, so those out had theirs when `cap` halved. -/
structure Inv (start : Nat) (g : Gate) : Prop where
  sum : g.turns + g.out.length = g.cap + g.owed
  least : min 4 start ≤ g.cap
  most : g.cap ≤ start * 4
  top : g.most = start * 4
  none_ : g.owed = 0 ∨ g.turns = 0
  since : g.owed = 0 ∨ ∀ request ∈ g.out, request ∈ g.halved

theorem Inv.addsUp {start : Nat} {g : Gate} (inv : Inv start g) : AddsUp start g where
  sum := inv.sum
  least := inv.least
  most := inv.most
  owed := by
    have sum := inv.sum
    rcases inv.none_ with paid | none_
    · omega
    · omega
  ended apart := by
    have sum := inv.sum
    rcases inv.since with paid | since
    · omega
    · have empty : g.out = [] := List.eq_nil_iff_forall_not_mem.mpr fun request inside =>
        apart request inside (since request inside)
      rw [empty, List.length_nil]
      exact Nat.zero_le g.cap

theorem new_inv (start : Nat) : Inv start (Gate.new start) where
  sum := rfl
  least := Nat.min_le_right 4 start
  most := Nat.le_mul_of_pos_right start (by decide)
  top := rfl
  none_ := Or.inl rfl
  since := Or.inl rfl

variable {start : Nat} {g : Gate}

theorem Inv.take (inv : Inv start g) (free : 0 < g.turns) : Inv start g.take := by
  have paid : g.owed = 0 := by
    rcases inv.none_ with paid | none_
    · exact paid
    · omega
  have sum := inv.sum
  refine ⟨?_, inv.least, inv.most, inv.top, Or.inl paid, Or.inl paid⟩
  simp only [Gate.take, List.length_cons]
  omega

theorem Inv.slowDown (inv : Inv start g) (now : Nat) : Inv start (g.slowDown now) := by
  obtain ⟨sum, least, most, top, none_, since⟩ := inv
  rw [Gate.slowDown]
  split
  · exact ⟨sum, least, most, top, none_, since⟩
  · dsimp only
    generalize fewer : g.cap - min (max (g.cap / 2) 4) g.cap = less
    have within : less ≤ g.cap := by omega
    split
    · exact ⟨sum, least, most, top, none_, since⟩
    · rename_i some_
      refine ⟨?_, ?_, ?_, top, ?_, ?_⟩
      · dsimp only
        omega
      · dsimp only
        omega
      · dsimp only
        omega
      · -- more than were free are owed only where none is free any longer
        dsimp only
        omega
      · exact Or.inr fun request inside => inside

theorem Inv.calmed (inv : Inv start g) : Inv start g.calmed := by
  obtain ⟨sum, least, most, top, none_, since⟩ := inv
  rw [Gate.calmed]
  split
  · rename_i grows
    split
    · rename_i paid
      refine ⟨?_, ?_, ?_, top, Or.inl paid, Or.inl paid⟩
      · dsimp only
        omega
      · dsimp only
        omega
      · dsimp only
        omega
    · rename_i owing
      have free : g.turns = 0 := none_.resolve_left owing
      refine ⟨?_, ?_, ?_, top, Or.inr free, Or.inr (since.resolve_left owing)⟩
      · dsimp only
        omega
      · dsimp only
        omega
      · dsimp only
        omega
  · exact ⟨sum, least, most, top, none_, since⟩

theorem Inv.handBack (inv : Inv start g) (request : Nat) (has : request ∈ g.out) :
    Inv start (g.handBack request) := by
  obtain ⟨sum, least, most, top, none_, since⟩ := inv
  have one := List.length_pos_of_mem has
  rw [Gate.handBack]
  split
  · rename_i paid
    refine ⟨?_, least, most, top, Or.inl paid, Or.inl paid⟩
    dsimp only
    rw [List.length_erase_of_mem has]
    omega
  · rename_i owing
    refine ⟨?_, least, most, top, Or.inr (none_.resolve_left owing), Or.inr fun other inside => ?_⟩
    · dsimp only
      rw [List.length_erase_of_mem has]
      omega
    · exact since.resolve_left owing other (List.mem_of_mem_erase inside)

theorem Inv.drop (inv : Inv start g) (request : Nat) (has : request ∈ g.out) (paid : g.owed = 0) :
    Inv start (g.drop request) := by
  have sum := inv.sum
  have one := List.length_pos_of_mem has
  refine ⟨?_, inv.least, inv.most, inv.top, Or.inl paid, Or.inl paid⟩
  simp only [Gate.drop]
  rw [List.length_erase_of_mem has]
  omega

theorem next_inv (g : Gate) (op : Op) (inv : Inv start g) (allows : (machine.only Paid).Allows g op) :
    Inv start (next g op) := by
  cases op with
  | take => exact inv.take allows.1
  | heard answer now =>
    cases answer with
    | slowDown => exact inv.slowDown now
    | calm => exact inv.calmed
    | none => exact inv
  | handBack request => exact inv.handBack request allows.1
  | drop request => exact inv.drop request allows.1 allows.2

/-- In every run in which no request is dropped while turns are owed, the turns add up. -/
theorem run_addsUp (start : Nat) (ops : List Op)
    (legal : (machine.only Paid).Legal (Gate.new start) ops) :
    AddsUp start (machine.run (Gate.new start) ops) := by
  have inv := (machine.only Paid).run_invariant (Inv start) next_inv (Gate.new start) ops
    (new_inv start) legal
  exact inv.addsUp

/-- Eight requests, the bucket asks to slow down, and they are answered. -/
theorem eight_answered :
    AddsUp 8 (machine.run (Gate.new 8) (List.replicate 8 .take ++ [.heard .slowDown 1000] ++
      (List.range 8).map .handBack ++ List.replicate 4 .take)) :=
  run_addsUp 8 _ (by decide)

/-- Eight requests, the bucket asks to slow down, they are all dropped, and eight more. -/
def eightDropped : List Op :=
  List.replicate 8 .take ++ [.heard .slowDown 1000] ++ (List.range 8).map .drop ++
    List.replicate 8 .take

/-- Four turns are still owed when none is out, and twice `cap` requests run at once. -/
theorem eight_dropped :
    machine.Legal (Gate.new 8) eightDropped ∧
    ((machine.run (Gate.new 8) (eightDropped.take 17)).owed,
      (machine.run (Gate.new 8) (eightDropped.take 17)).out) = (4, []) ∧
    (machine.run (Gate.new 8) eightDropped).cap = 4 ∧
    (machine.run (Gate.new 8) eightDropped).out.length = 8 ∧
    ¬AddsUp 8 (machine.run (Gate.new 8) eightDropped) := by
  refine ⟨by decide, by decide, by decide, by decide, fun adds => ?_⟩
  exact absurd (adds.ended (by decide)) (by decide)

end Pondra.Budget
