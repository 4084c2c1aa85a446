import Pondra.Base.Machine
import Pondra.Sequences.Held

set_option autoImplicit false

/- The blocks of values each node hands out, and the runs of nodes that take them. -/

namespace Pondra.Sequences

open Counters Machines Words

/-- A block of values a node hands out: `left` more from `next` on, `step` apart. -/
structure Block where
  version : Nat := 0
  next : Int64 := 0
  left : UInt64 := 0
  step : Int64 := 0
  size : UInt64 := 0
  at_ : Option Nat := none

/-- A node's first block. -/
def first : UInt64 := 32

def most : UInt64 := (1 : UInt64) <<< (20 : UInt64)

namespace Block

/-- The size of the block after this one, at a clock's milliseconds. -/
def grown (b : Block) (base : UInt64) (now : Nat) : UInt64 :=
  match b.at_ with
  | none => base
  | some t =>
    if now - t < 1000 then Min.min (b.size * 2) most
    else if now - t > 60000 then Max.max (b.size / 2) base
    else b.size

/-- Its next `k` values, as a build works them out. -/
def values (checked : Bool) (b : Block) (k : UInt64) : Option (List Int64) :=
  (List.range k.toInt64.toInt.toNat).mapM fun i =>
    (mul checked (Int64.ofNat i) b.step).bind (add checked b.next)

/-- `k` values handed out; past the block's end, where the next one would be wraps. -/
def handOut (checked : Bool) (b : Block) (k : UInt64) : Option (List Int64 × Block) :=
  (b.values checked k).bind fun out =>
    (mul checked k.toInt64 b.step).map fun far =>
      (out, { b with left := b.left - k, next := b.next + far })

end Block

/-- A node's call for `want` values, and those it has so far. -/
structure Call where
  name : String
  want : Nat
  base : UInt64
  out : List Int64

/-- The sequencer's counters, the nodes' blocks, and what has been handed out; `over` holds the
sequences that a step of it went over i64 for. -/
structure Lake where
  cat : Catalog
  held : Held
  next : Nat
  blocks : Nat → String → Block
  calls : Nat → Option Call
  given : List (String × Int64)
  over_ : List String

/-- An op of anyone's, or a step of a node: its call for values begins, takes a block at a clock's
reading, hands out of the block, is answered; the node stops; another sequencer leads. -/
inductive Input where
  | commits (op : Op)
  | begins (node : Nat) (name : String) (want : Nat) (known : Bool)
  | refills (node : Nat) (now : Nat)
  | hands (node : Nat)
  | answers (node : Nat)
  | stops (node : Nat)
  | leads

/-- How many values a call takes from its node's block at once. -/
def Call.takes (c : Call) (b : Block) : UInt64 := Min.min (UInt64.ofNat (c.want - c.out.length)) b.left

namespace Lake

def setCall (l : Lake) (node : Nat) (c : Option Call) : Lake :=
  { l with calls := Function.update l.calls node c }

def setBlock (l : Lake) (node : Nat) (name : String) (b : Block) : Lake :=
  { l with blocks := Function.update l.blocks node (Function.update (l.blocks node) name b) }

def commits (l : Lake) (op : Op) : Outcome × Lake :=
  let (outcome, cat, held) := commit l.cat l.held op l.next
  (outcome, { l with cat, held, next := l.next + 1 })

/-- A call begins: a block from before the sequence's last change goes. -/
def begins (l : Lake) (node : Nat) (name : String) (want : Nat) (known : Bool) : Lake :=
  match l.cat name with
  | none => l
  | some s =>
    match shape s.declared with
    | .error _ => l
    | .ok sh =>
      let base := Max.max sh.cache.toUInt64 (if known then first else 1)
      let b := l.blocks node name
      (l.setBlock node name (if b.version < s.version then {} else b)).setCall node
        (some ⟨name, want, base, []⟩)

def refills (l : Lake) (node now : Nat) : Lake :=
  match l.calls node with
  | none => l
  | some c =>
    let size := (l.blocks node c.name).grown c.base now
    match l.commits (.take c.name (Max.max size (UInt64.ofNat (c.want - c.out.length)))) with
    | (.acks (a :: _), l) =>
      l.setBlock node c.name ⟨a.seg, a.block.toInt64, a.row, a.ms.toInt64, size, some now⟩
    | (_, l) => l.setCall node none

/-- Values go to a call; a build that checks stops the call where a step goes over. -/
def hands (checked : Bool) (l : Lake) (node : Nat) : Lake :=
  match l.calls node with
  | none => l
  | some c =>
    let b := l.blocks node c.name
    let k := c.takes b
    let l := if (b.handOut true k).isSome then l else { l with over_ := l.over_.insert c.name }
    match b.handOut checked k with
    | none => l.setCall node none
    | some (out, b) =>
      let l := (l.setBlock node c.name b).setCall node (some { c with out := c.out ++ out })
      { l with given := l.given ++ out.map fun v => (c.name, v) }

end Lake

def next (checked : Bool) (l : Lake) : Input → Lake
  | .commits op => (l.commits op).2
  | .begins node name want known => l.begins node name want known
  | .refills node now => l.refills node now
  | .hands node => l.hands checked node
  | .answers node => l.setCall node none
  | .stops node => { l.setCall node none with blocks := Function.update l.blocks node fun _ => {} }
  | .leads => { l with held := .new }

/-- A node has one call at a time, of values that its memory holds; it takes a block once the last
one has run out. -/
def Allows (l : Lake) : Input → Prop
  | .begins node _ want _ => l.calls node = none ∧ want * 8 < 2 ^ 63
  | .refills node _ => ∃ c, l.calls node = some c ∧ c.out.length < c.want ∧
      (l.blocks node c.name).left = 0
  | .hands node => ∃ c, l.calls node = some c ∧ c.out.length < c.want ∧
      (l.blocks node c.name).left ≠ 0
  | .answers node => ∃ c, l.calls node = some c ∧ c.want ≤ c.out.length
  | _ => True

def nodes (checked : Bool) : Machine Lake Input where
  next := next checked
  Allows := Allows

namespace Lake

variable (l : Lake) (node other : Nat) (name name' : String)

@[simp] theorem setBlock_blocks (b : Block) : (l.setBlock node name b).blocks other name' =
    if other = node ∧ name' = name then b else l.blocks other name' := by
  unfold setBlock
  by_cases same : other = node
  · subst same
    by_cases named : name' = name <;> simp [named]
  · simp [same]

@[simp] theorem setCall_blocks (c : Option Call) : (l.setCall node c).blocks = l.blocks := rfl

@[simp] theorem setCall_calls (c : Option Call) : (l.setCall node c).calls other =
    if other = node then c else l.calls other := by
  unfold setCall
  by_cases same : other = node
  · subst same
    simp
  · simp [same]

end Lake

/-- No op but takes is about the sequence. -/
def Takes (name : String) (_ : Lake) : Input → Prop
  | .commits op => op.Quiet name
  | _ => True

end Pondra.Sequences
