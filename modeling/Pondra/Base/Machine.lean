import Mathlib.Order.Defs.PartialOrder

set_option autoImplicit false

namespace Machines

/-- A machine whose every choice (a time, an order of iteration, what a write does) is part of
its input: `next` computes, `Allows` says which inputs a state may be given. -/
structure Machine (σ ι : Type) where
  next : σ → ι → σ
  Allows : σ → ι → Prop

variable {σ ι : Type}

namespace Machine

/-- The state after a list of inputs. -/
def run (machine : Machine σ ι) (start : σ) (inputs : List ι) : σ :=
  inputs.foldl machine.next start

/-- Each input is allowed in the state it finds. -/
def Legal (machine : Machine σ ι) : σ → List ι → Prop
  | _, [] => True
  | state, input :: rest => machine.Allows state input ∧ machine.Legal (machine.next state input) rest

instance decidableLegal (machine : Machine σ ι)
    [allows : ∀ state input, Decidable (machine.Allows state input)] (start : σ) :
    (inputs : List ι) → Decidable (machine.Legal start inputs)
  | [] => inferInstanceAs (Decidable True)
  | input :: rest =>
    match allows start input, decidableLegal machine (machine.next start input) rest with
    | isTrue first, isTrue others => isTrue ⟨first, others⟩
    | isFalse no, _ => isFalse fun legal => no legal.1
    | _, isFalse no => isFalse fun legal => no legal.2

/-- The machine whose inputs meet one more condition on the state they find. -/
def only (machine : Machine σ ι) (condition : σ → ι → Prop) : Machine σ ι where
  next := machine.next
  Allows state input := machine.Allows state input ∧ condition state input

@[simp] theorem run_nil (machine : Machine σ ι) (start : σ) : machine.run start [] = start := rfl

@[simp] theorem run_cons (machine : Machine σ ι) (start : σ) (input : ι) (rest : List ι) :
    machine.run start (input :: rest) = machine.run (machine.next start input) rest := rfl

theorem run_append (machine : Machine σ ι) (start : σ) (before after : List ι) :
    machine.run start (before ++ after) = machine.run (machine.run start before) after :=
  List.foldl_append

@[simp] theorem only_next (machine : Machine σ ι) (condition : σ → ι → Prop) :
    (machine.only condition).next = machine.next := rfl

@[simp] theorem only_run (machine : Machine σ ι) (condition : σ → ι → Prop) (start : σ)
    (inputs : List ι) : (machine.only condition).run start inputs = machine.run start inputs := rfl

theorem legal_append (machine : Machine σ ι) (start : σ) (before after : List ι) :
    machine.Legal start (before ++ after) ↔
      machine.Legal start before ∧ machine.Legal (machine.run start before) after := by
  induction before generalizing start with
  | nil => simp [Legal]
  | cons input rest ih => simp only [List.cons_append, Legal, run_cons, ih, and_assoc]

theorem only_legal (machine : Machine σ ι) (condition : σ → ι → Prop) (start : σ)
    (inputs : List ι) (legal : (machine.only condition).Legal start inputs) :
    machine.Legal start inputs := by
  induction inputs generalizing start with
  | nil => trivial
  | cons input rest ih => exact ⟨legal.1.1, ih _ legal.2⟩

/-- What every allowed input preserves holds after a legal run. -/
theorem run_invariant (machine : Machine σ ι) (invariant : σ → Prop)
    (preserved : ∀ state input, invariant state → machine.Allows state input →
      invariant (machine.next state input))
    (start : σ) (inputs : List ι) (initial : invariant start)
    (legal : machine.Legal start inputs) : invariant (machine.run start inputs) := by
  induction inputs generalizing start with
  | nil => exact initial
  | cons input rest ih => exact ih _ (preserved start input initial legal.1) legal.2

/-- A measure that no allowed input lowers only grows along a legal run. -/
theorem run_monotone {β : Type} [Preorder β] (machine : Machine σ ι) (invariant : σ → Prop)
    (measure : σ → β)
    (preserved : ∀ state input, invariant state → machine.Allows state input →
      invariant (machine.next state input))
    (grows : ∀ state input, invariant state → machine.Allows state input →
      measure state ≤ measure (machine.next state input))
    (start : σ) (inputs : List ι) (initial : invariant start)
    (legal : machine.Legal start inputs) : measure start ≤ measure (machine.run start inputs) := by
  induction inputs generalizing start with
  | nil => exact le_refl _
  | cons input rest ih =>
    exact le_trans (grows start input initial legal.1)
      (ih _ (preserved start input initial legal.1) legal.2)

/-- A flag that goes up exactly where a condition isn't met, and stays up: it is down after the runs
whose every input met the condition. -/
theorem run_flag (machine : Machine σ ι) (invariant flag : σ → Prop) (condition : σ → ι → Prop)
    (preserved : ∀ state input, invariant state → machine.Allows state input →
      invariant (machine.next state input))
    (raised : ∀ state input, invariant state → machine.Allows state input →
      (flag (machine.next state input) ↔ flag state ∨ ¬ condition state input))
    (start : σ) (inputs : List ι) (initial : invariant start) (legal : machine.Legal start inputs) :
    ¬ flag (machine.run start inputs) ↔ ¬ flag start ∧ (machine.only condition).Legal start inputs := by
  induction inputs generalizing start with
  | nil => exact ⟨fun down => ⟨down, trivial⟩, fun down => down.1⟩
  | cons input rest ih =>
    rw [run_cons, ih _ (preserved start input initial legal.1) legal.2,
      raised start input initial legal.1, not_or, Classical.not_not]
    exact ⟨fun ⟨⟨down, met⟩, others⟩ => ⟨down, ⟨legal.1, met⟩, others⟩,
      fun ⟨down, ⟨_, met⟩, others⟩ => ⟨⟨down, met⟩, others⟩⟩

end Machine

end Machines
