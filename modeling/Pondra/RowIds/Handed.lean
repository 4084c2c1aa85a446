import Mathlib.Algebra.Order.Ring.Int
import Mathlib.Data.List.Nodup
import Mathlib.Data.List.Perm.Basic
import Mathlib.Logic.Function.Basic
import Pondra.Base.Machine
import Pondra.RowIds.Decoded

set_option autoImplicit false

/- The blocks of row ids that the sequencer gives nodes, and the ids that these give new rows. -/

namespace Pondra.RowIds

open Machines Words

variable {ν : Type}

/-- A node's block of row ids, and the next one of it. -/
abbrev Ids := Option (UInt64 × UInt64)

namespace Ids

/-- As many consecutive ids, if the block has them. -/
def take (ids : Ids) (rows : UInt64) : Option Int64 × Ids :=
  match ids with
  | none => (none, none)
  | some (block, next) =>
    if (1 : UInt64) <<< 32 < next + rows then (none, none)
    else (some ((block <<< 32) + next).toInt64, some (block, next + rows))

def refill (block : UInt64) : Ids := some (block, 0)

end Ids

namespace Batch

/-- Has a row no id of its own? -/
def owes (cast : Cast ν) (b : Batch ν) (i : Nat) : Bool :=
  match b.ids with
  | none => true
  | some c => decide (c.nullCount ≠ 0) && (c.toInt64 cast).any fun old => decide (old[i]? = some none)

def idAt (b : Batch ν) (i : Nat) : Option Int64 :=
  match b.ids.bind (Column.cell i) with
  | some (.int64 v) => v
  | _ => none

end Batch

/-- The ids that a batch's rows without one get. -/
def newIds (checked : Bool) (cast : Cast ν) (b : Batch ν) (first : Int64) : List Int64 :=
  ((stamp checked cast b first).map fun s =>
    ((List.range b.rows).filter (b.owes cast)).filterMap s.idAt).getD []

/-- What a flush asks the sequencer for: a reservation, with its node, or the numbers its rows take. -/
inductive Asked where
  | reserves (node : Nat) (reserve : UInt64) (block : Bool) (blocks : UInt64)
  | numbers (n : Nat)
deriving DecidableEq

/-- The sequencer's next number and block after a flush, and the answer to a node that asked for a
block; it refuses what would take either past i64. -/
def answer (next block : Nat) : Asked → Nat × Nat × List (Nat × UInt64)
  | .numbers n => (next + n, block, [])
  | .reserves node reserve takes blocks =>
    let after := next + reserve.toNat
    let last := block + (if takes then 1 else 0) + blocks.toNat
    if after < 2 ^ 63 ∧ last < 2 ^ 63 then
      (after, last, if takes then [(node, UInt64.ofNat block)] else [])
    else (next, block, [])

def answerAll (next block : Nat) : List Asked → Nat × Nat × List (Nat × UInt64)
  | [] => (next, block, [])
  | a :: rest =>
    let (next, block, one) := answer next block a
    let (next, block, others) := answerAll next block rest
    (next, block, one ++ others)

/-- One write to the catalog, and the answers that wait for it. -/
structure Commit where
  next : Nat
  block : Option Nat
  answers : List (Nat × UInt64)
deriving DecidableEq

/-- The catalog's number and block, the leader's, its writes not yet durable, the answers on their
way, the nodes' blocks, and the ids given to new rows. -/
structure Lake where
  keptNext : Nat
  kept : Option Nat
  next : Nat
  block : Nat
  flight : List Commit
  answered : List (Nat × UInt64)
  nodes : Nat → Ids
  given : List Int64

/-- The leader commits what some flushes ask for; its oldest write lands; another leads; an answer
arrives, or is lost; a node stamps a batch; a node stops. -/
inductive Input (ν : Type) where
  | commits (asked : List Asked)
  | lands
  | leads
  | refills (i : Nat)
  | loses (i : Nat)
  | stamps (node : Nat) (b : Batch ν)
  | stops (node : Nat)

namespace Lake

def commits (l : Lake) (asked : List Asked) : Lake :=
  let (next, block, answers) := answerAll l.next l.block asked
  { l with
    next, block
    flight := l.flight ++ [⟨next, if block = l.block then none else some block, answers⟩] }

def lands (l : Lake) : Lake :=
  match l.flight with
  | [] => l
  | c :: rest =>
    { l with
      keptNext := c.next
      kept := c.block.or l.kept
      flight := rest
      answered := l.answered ++ c.answers }

def leads (l : Lake) : Lake :=
  { l with next := l.keptNext, block := l.kept.getD l.keptNext, flight := [] }

def setNode (l : Lake) (node : Nat) (ids : Ids) : Lake :=
  { l with nodes := Function.update l.nodes node ids }

def refills (l : Lake) (i : Nat) : Lake :=
  match l.answered[i]? with
  | none => l
  | some (node, block) =>
    { l.setNode node (.refill block) with answered := l.answered.eraseIdx i }

def loses (l : Lake) (i : Nat) : Lake := { l with answered := l.answered.eraseIdx i }

def stamps (checked : Bool) (cast : Cast ν) (l : Lake) (node : Nat) (b : Batch ν) : Lake :=
  let (first, ids) := (l.nodes node).take (UInt64.ofNat b.rows)
  { l.setNode node ids with
    given := l.given ++ (first.map (newIds checked cast b)).getD [] }

/-- A lake just opened: no node has a block yet. -/
def Opened (l : Lake) : Prop :=
  l.block = l.kept.getD l.keptNext ∧ l.flight = [] ∧ l.answered = [] ∧ (∀ node, l.nodes node = none) ∧
    l.given = []

end Lake

def next (checked : Bool) (cast : Cast ν) (l : Lake) : Input ν → Lake
  | .commits asked => l.commits asked
  | .lands => l.lands
  | .leads => l.leads
  | .refills i => l.refills i
  | .loses i => l.loses i
  | .stamps node b => l.stamps checked cast node b
  | .stops node => l.setNode node none

/-- Ids are taken of blocks below 2^31. -/
def Low (l : Lake) : Input ν → Prop
  | .stamps node _ => ∀ block next, l.nodes node = some (block, next) → block.toNat < 2 ^ 31
  | _ => True

def fleet (checked : Bool) (cast : Cast ν) : Machine Lake (Input ν) where
  next := next checked cast
  Allows := Low

/-! ### Ids of a batch's new rows -/

section ids

variable {checked : Bool} {cast : Cast ν} {b s : Batch ν} {first : Int64} {i : Nat} {v : Int64}

theorem fresh_get {rows : Nat} {new : List Int64} (made : fresh checked first rows = some new)
    (here : new[i]? = some v) : v = Int64.ofInt (first.toInt + i) := by
  obtain ⟨stop, _, rfl⟩ := Option.map_eq_some_iff.mp made
  rw [between, List.getElem?_map] at here
  obtain ⟨j, inside, rfl⟩ := Option.map_eq_some_iff.mp here
  obtain ⟨_, rfl⟩ := List.getElem?_eq_some_iff.mp inside
  rw [List.getElem_range]

theorem idAt_set {values : List (Option Int64)} (done : b.set rowId (.int64 values) = some s) :
    s.idAt i = values[i]?.join := by
  obtain ⟨_, columns, _⟩ := Batch.tryNew_eq_some done
  have ids := (Batch.ids_placed columns).1
  unfold Batch.idAt
  rw [ids, Option.bind_some, Column.cell]
  cases values[i]? <;> rfl

/-- A row without an id of its own gets the one as far from the first as the row is. -/
theorem idAt_stamp (made : stamp checked cast b first = some s) (owes : b.owes cast i = true)
    (given : s.idAt i = some v) : v = Int64.ofInt (first.toInt + i) := by
  unfold stamp at made
  unfold Batch.owes at owes
  split at made
  · next c found =>
    rw [found] at owes
    obtain ⟨nulls, free⟩ := Bool.and_eq_true_iff.mp owes
    rw [if_neg (of_decide_eq_true nulls)] at made
    obtain ⟨old, is, made⟩ := Option.bind_eq_some_iff.mp made
    obtain ⟨new, fresh_, made⟩ := Option.bind_eq_some_iff.mp made
    rw [is] at free
    have none_ : old[i]? = some none := of_decide_eq_true free
    rw [idAt_set made, List.getElem?_zipWith, none_] at given
    cases there : new[i]? with
    | none =>
      rw [there] at given
      cases given
    | some w =>
      rw [there] at given
      cases given
      exact fresh_get fresh_ there
  · obtain ⟨new, fresh_, made⟩ := Option.bind_eq_some_iff.mp made
    rw [idAt_set made, List.getElem?_map] at given
    cases there : new[i]? with
    | none =>
      rw [there] at given
      cases given
    | some w =>
      rw [there] at given
      cases given
      exact fresh_get fresh_ there

theorem mem_newIds (inside : v ∈ newIds checked cast b first) :
    ∃ i, i < b.rows ∧ v = Int64.ofInt (first.toInt + i) := by
  unfold newIds at inside
  cases made : stamp checked cast b first with
  | none =>
    rw [made] at inside
    exact (List.not_mem_nil inside).elim
  | some s =>
    rw [made] at inside
    obtain ⟨i, row, given⟩ := List.mem_filterMap.mp inside
    obtain ⟨below, owes⟩ := List.mem_filter.mp row
    exact ⟨i, List.mem_range.mp below, idAt_stamp made owes given⟩

/-- Where they fit, they are all different. -/
theorem newIds_nodup (fits : ∀ i < b.rows, Fits (first.toInt + i)) :
    (newIds checked cast b first).Nodup := by
  unfold newIds
  cases made : stamp checked cast b first with
  | none => exact List.nodup_nil
  | some s =>
    have each : ∀ i ∈ (List.range b.rows).filter (b.owes cast), ∀ v, s.idAt i = some v →
        v.toInt = first.toInt + i := by
      intro i row v given
      obtain ⟨below, owes⟩ := List.mem_filter.mp row
      rw [idAt_stamp made owes given]
      exact (fits i (List.mem_range.mp below)).toInt_ofInt
    show (((List.range b.rows).filter (b.owes cast)).filterMap s.idAt).Nodup
    have rows : ((List.range b.rows).filter (b.owes cast)).Nodup := List.nodup_range.filter _
    rw [List.Nodup, List.pairwise_filterMap]
    apply List.Pairwise.imp_of_mem _ rows
    intro i j here there apart v is w is' same
    have one := each i here v is
    have two := each j there w is'
    rw [same] at one
    omega

end ids

/-! ### The sequencer's blocks -/

theorem answer_spec (next block : Nat) (a : Asked) :
    block ≤ (answer next block a).2.1 ∧
      (∀ w ∈ (answer next block a).2.2, block ≤ w.2.toNat ∧ w.2.toNat < (answer next block a).2.1) ∧
      ((answer next block a).2.2.map fun w => w.2.toNat).Nodup := by
  cases a with
  | numbers n => exact ⟨le_refl _, fun _ no => (List.not_mem_nil no).elim, List.nodup_nil⟩
  | reserves node reserve takes blocks =>
    by_cases fits : next + reserve.toNat < 2 ^ 63 ∧
        block + (if takes then 1 else 0) + blocks.toNat < 2 ^ 63
    · have is : answer next block (.reserves node reserve takes blocks) =
          (next + reserve.toNat, block + (if takes then 1 else 0) + blocks.toNat,
            if takes then [(node, UInt64.ofNat block)] else []) := if_pos fits
      rw [is]
      cases takes with
      | false =>
        have up : block ≤ block + 0 + blocks.toNat := by omega
        exact ⟨up, fun _ no => (List.not_mem_nil no).elim, List.nodup_nil⟩
      | true =>
        rw [if_pos rfl] at fits
        have small : block < 2 ^ 64 := by omega
        have same : (UInt64.ofNat block).toNat = block := UInt64.toNat_ofNat_of_lt' small
        rw [if_pos rfl, if_pos rfl]
        have up : block ≤ block + 1 + blocks.toNat := by omega
        refine ⟨up, ?_, List.nodup_singleton _⟩
        intro w inside
        rw [List.mem_singleton.mp inside]
        show block ≤ (UInt64.ofNat block).toNat ∧ (UInt64.ofNat block).toNat < block + 1 + blocks.toNat
        omega
    · have is : answer next block (.reserves node reserve takes blocks) = (next, block, []) := if_neg fits
      rw [is]
      exact ⟨le_refl _, fun _ no => (List.not_mem_nil no).elim, List.nodup_nil⟩

/-- The blocks that one write's answers give are new ones, each given once. -/
theorem answerAll_spec (next block : Nat) (asked : List Asked) :
    block ≤ (answerAll next block asked).2.1 ∧
      (∀ w ∈ (answerAll next block asked).2.2,
        block ≤ w.2.toNat ∧ w.2.toNat < (answerAll next block asked).2.1) ∧
      ((answerAll next block asked).2.2.map fun w => w.2.toNat).Nodup := by
  induction asked generalizing next block with
  | nil => exact ⟨le_refl _, fun _ no => (List.not_mem_nil no).elim, List.nodup_nil⟩
  | cons a rest ih =>
    obtain ⟨up, within, once⟩ := answer_spec next block a
    obtain ⟨up', within', once'⟩ := ih (answer next block a).1 (answer next block a).2.1
    have is : answerAll next block (a :: rest) =
        ((answerAll (answer next block a).1 (answer next block a).2.1 rest).1,
          (answerAll (answer next block a).1 (answer next block a).2.1 rest).2.1,
          (answer next block a).2.2 ++
            (answerAll (answer next block a).1 (answer next block a).2.1 rest).2.2) := rfl
    rw [is]
    refine ⟨Nat.le_trans up up', ?_, ?_⟩
    · intro w inside
      rcases List.mem_append.mp inside with here | there
      · exact ⟨(within w here).1, Nat.lt_of_lt_of_le (within w here).2 up'⟩
      · exact ⟨Nat.le_trans up (within' w there).1, (within' w there).2⟩
    · show (List.map _ (_ ++ _)).Nodup
      rw [List.map_append]
      apply List.Nodup.append once once'
      intro n here there
      obtain ⟨w, first, is⟩ := List.mem_map.mp here
      obtain ⟨w', second, is'⟩ := List.mem_map.mp there
      have low := within w first
      have high := within' w' second
      omega

/-- Writes under way from one block up to another: each gives blocks of its own. -/
inductive Flying : Nat → List Commit → Nat → Prop where
  | none_ (low : Nat) : Flying low [] low
  | next {low mid high : Nat} {c : Commit} {rest : List Commit} (up : low ≤ mid)
      (within : ∀ w ∈ c.answers, low ≤ w.2.toNat ∧ w.2.toNat < mid)
      (once : (c.answers.map fun w => w.2.toNat).Nodup)
      (put : c.block = some mid ∨ c.block = none ∧ mid = low) (others : Flying mid rest high) :
      Flying low (c :: rest) high

theorem Flying.append {low mid high : Nat} {flight rest : List Commit} (first : Flying low flight mid)
    (second : Flying mid rest high) : Flying low (flight ++ rest) high := by
  induction first with
  | none_ => exact second
  | next up within once put others ih => exact .next up within once put (ih second)

/-! ### Each block in one place -/

/-- The block of an id, and its place in it. -/
def blockOf (v : Int64) : Nat := (v.toInt / 2 ^ 32).toNat

def placeOf (v : Int64) : Nat := (v.toInt % 2 ^ 32).toNat

/-- A block is out: on its way to a node, with one, or used. -/
inductive Lake.Out (l : Lake) : Nat → Prop where
  | answered {node : Nat} {block : UInt64} (here : (node, block) ∈ l.answered) : Out l block.toNat
  | held {node : Nat} {block j : UInt64} (here : l.nodes node = some (block, j)) : Out l block.toNat
  | used {v : Int64} (here : v ∈ l.given) : Out l (blockOf v)

/-- The blocks that are out are below the next to give, each in one place, and used up to where its
node stands. -/
structure Inv (l : Lake) : Prop where
  above : ∃ low, Flying low l.flight l.block ∧ (∀ kept, l.kept = some kept → kept = low) ∧
    (∀ n, l.Out n → n < low ∧ l.kept ≠ none)
  once : (l.answered.map fun w => w.2.toNat).Nodup
  apart : ∀ w ∈ l.answered, ∀ node block j, l.nodes node = some (block, j) → block.toNat ≠ w.2.toNat
  unused : ∀ w ∈ l.answered, ∀ v ∈ l.given, blockOf v ≠ w.2.toNat
  alone : ∀ node other block block' j j', l.nodes node = some (block, j) →
    l.nodes other = some (block', j') → block.toNat = block'.toNat → node = other
  ahead : ∀ node block j, l.nodes node = some (block, j) → j.toNat ≤ 2 ^ 32 ∧
    ∀ v ∈ l.given, blockOf v = block.toNat → placeOf v < j.toNat
  nodup : l.given.Nodup

namespace Inv

variable {l l' : Lake} (inv : Inv l)

theorem opened (opened : l.Opened) : Inv l := by
  obtain ⟨block, flight, answered, nodes, given⟩ := opened
  have none_ : ∀ n, ¬ l.Out n := by
    intro n out
    cases out with
    | answered here =>
      rw [answered] at here
      exact List.not_mem_nil here
    | held here =>
      rw [nodes] at here
      cases here
    | used here =>
      rw [given] at here
      exact List.not_mem_nil here
  have empty : ∀ w, w ∉ l.answered := fun w here => none_ _ (.answered here)
  exact {
    above := by
      refine ⟨l.block, flight ▸ .none_ _, ?_, fun n out => (none_ n out).elim⟩
      intro kept is
      rw [block, is]
      rfl
    once := by
      rw [answered]
      exact List.nodup_nil
    apart := fun w here => (empty w here).elim
    unused := fun w here => (empty w here).elim
    alone := fun node other block block' j j' here => (none_ _ (.held here)).elim
    ahead := fun node block j here => (none_ _ (.held here)).elim
    nodup := by
      rw [given]
      exact List.nodup_nil }

include inv

/-- Answers lost, or a node stopped. -/
theorem shrinks (flight : l'.flight = l.flight) (block : l'.block = l.block) (kept : l'.kept = l.kept)
    (answered : l'.answered.Sublist l.answered)
    (nodes : ∀ node, l'.nodes node = none ∨ l'.nodes node = l.nodes node)
    (given : l'.given = l.given) : Inv l' := by
  have held : ∀ node block j, l'.nodes node = some (block, j) → l.nodes node = some (block, j) := by
    intro node block j here
    rcases nodes node with none_ | same
    · rw [none_] at here
      cases here
    · rw [← same]
      exact here
  have out : ∀ n, l'.Out n → l.Out n := by
    intro n out
    cases out with
    | answered here => exact .answered (answered.subset here)
    | held here => exact .held (held _ _ _ here)
    | used here => exact .used (given ▸ here)
  obtain ⟨low, flying, is, below⟩ := inv.above
  exact {
    above := ⟨low, by rw [flight, block]; exact flying, kept ▸ is, fun n n' => kept ▸ below n (out n n')⟩
    once := inv.once.sublist (answered.map _)
    apart := fun w here node block j there => inv.apart w (answered.subset here) node block j (held _ _ _ there)
    unused := fun w here => given ▸ inv.unused w (answered.subset here)
    alone := fun node other block block' j j' one two =>
      inv.alone node other block block' j j' (held _ _ _ one) (held _ _ _ two)
    ahead := fun node block j here => given ▸ inv.ahead node block j (held _ _ _ here)
    nodup := given ▸ inv.nodup }

theorem stops (node : Nat) : Inv (l.setNode node none) := by
  have nodes : ∀ other, (l.setNode node none).nodes other = none ∨
      (l.setNode node none).nodes other = l.nodes other := by
    intro other
    by_cases here : other = node
    · subst here
      exact .inl (Function.update_self ..)
    · exact .inr (Function.update_of_ne here ..)
  exact inv.shrinks rfl rfl rfl (List.Sublist.refl _) nodes rfl

theorem loses (i : Nat) : Inv (l.loses i) :=
  inv.shrinks rfl rfl rfl (List.eraseIdx_sublist _ i) (fun _ => .inr rfl) rfl

theorem commits (asked : List Asked) : Inv (l.commits asked) := by
  obtain ⟨low, flying, is, below⟩ := inv.above
  obtain ⟨up, within, once⟩ := answerAll_spec l.next l.block asked
  have put : ∀ high, (if high = l.block then none else some high) = some high ∨
      (if high = l.block then none else some high) = none ∧ high = l.block := by
    intro high
    by_cases same : high = l.block
    · exact .inr ⟨if_pos same, same⟩
    · exact .inl (if_neg same)
  have out : ∀ n, (l.commits asked).Out n → l.Out n := by
    intro n out
    cases out with
    | answered here => exact .answered here
    | held here => exact .held here
    | used here => exact .used here
  exact {
    above := ⟨low, flying.append (.next up within once (put _) (.none_ _)), is, fun n n' => below n (out n n')⟩
    once := inv.once
    apart := inv.apart
    unused := inv.unused
    alone := inv.alone
    ahead := inv.ahead
    nodup := inv.nodup }

theorem leads : Inv l.leads := by
  obtain ⟨low, flying, is, below⟩ := inv.above
  have out : ∀ n, l.leads.Out n → l.Out n := by
    intro n out
    cases out with
    | answered here => exact .answered here
    | held here => exact .held here
    | used here => exact .used here
  exact {
    above := by
      refine ⟨l.kept.getD l.keptNext, .none_ _, ?_, ?_⟩
      · intro kept same
        have there : l.kept = some kept := same
        rw [there]
        rfl
      · intro n outside
        obtain ⟨less, some_⟩ := below n (out n outside)
        obtain ⟨kept, there⟩ := Option.ne_none_iff_exists'.mp some_
        refine ⟨?_, some_⟩
        rw [there, is kept there]
        exact less
    once := inv.once
    apart := inv.apart
    unused := inv.unused
    alone := inv.alone
    ahead := inv.ahead
    nodup := inv.nodup }

/-- A write that lands lets its answers go: their blocks were none that is out. -/
theorem lands : Inv l.lands := by
  obtain ⟨low, flying, is, below⟩ := inv.above
  unfold Lake.lands
  cases held : l.flight with
  | nil => exact inv
  | cons c rest =>
    rw [held] at flying
    obtain ⟨⟩ | @⟨_, mid, _, _, _, up, within, once, put, others⟩ := flying
    have new : ∀ w ∈ c.answers, ∀ n, l.Out n → n ≠ w.2.toNat := by
      intro w here n out same
      have := within w here
      have := (below n out).1
      omega
    have kept : c.block.or l.kept = some mid ∨ c.block.or l.kept = l.kept ∧ mid = low := by
      rcases put with some_ | ⟨none_, same⟩
      · exact .inl (by rw [some_, Option.some_or])
      · exact .inr ⟨by rw [none_, Option.none_or], same⟩
    exact {
      above := by
        refine ⟨mid, others, ?_, ?_⟩
        · intro n same
          rcases kept with some_ | ⟨left, middle⟩
          · exact Option.some.inj (same.symm.trans some_)
          · rw [middle]
            exact is n (left.symm.trans same)
        · intro n out
          have lower : n < mid ∧ (n < low → l.kept ≠ none) ∧ (mid = low → n < low) := by
            cases out with
            | answered here =>
              rcases List.mem_append.mp here with old | fresh
              · have := below _ (.answered old)
                exact ⟨by omega, fun _ => this.2, fun _ => this.1⟩
              · have := within _ fresh
                exact ⟨this.2, fun less => absurd this.1 (Nat.not_le_of_lt less), fun same => same ▸ this.2⟩
            | held here =>
              have := below _ (.held here)
              exact ⟨by omega, fun _ => this.2, fun _ => this.1⟩
            | used here =>
              have := below _ (.used here)
              exact ⟨by omega, fun _ => this.2, fun _ => this.1⟩
          refine ⟨lower.1, ?_⟩
          rcases kept with some_ | ⟨left, middle⟩
          · exact fun none_ => by cases some_.symm.trans none_
          · exact fun none_ => lower.2.1 (lower.2.2 middle) (left.symm.trans none_)
      once := by
        show (List.map _ (_ ++ _)).Nodup
        rw [List.map_append]
        apply List.Nodup.append inv.once once
        intro n here there
        obtain ⟨w, old, same⟩ := List.mem_map.mp here
        obtain ⟨w', fresh, same'⟩ := List.mem_map.mp there
        exact new w' fresh _ (.answered old) (same.trans same'.symm)
      apart := by
        intro w here node block j there
        rcases List.mem_append.mp here with old | fresh
        · exact inv.apart w old node block j there
        · exact new w fresh _ (.held there)
      unused := by
        intro w here v there
        rcases List.mem_append.mp here with old | fresh
        · exact inv.unused w old v there
        · exact new w fresh _ (.used there)
      alone := inv.alone
      ahead := inv.ahead
      nodup := inv.nodup }

/-- An answer that arrives is a block that was nowhere else. -/
theorem refills (i : Nat) : Inv (l.refills i) := by
  unfold Lake.refills
  split
  · exact inv
  · next node block here =>
    obtain ⟨inside, is⟩ := List.getElem?_eq_some_iff.mp here
    have sub := List.eraseIdx_sublist l.answered i
    have there : (node, block) ∈ l.answered := List.mem_of_getElem? here
    have gone : ∀ w ∈ l.answered.eraseIdx i, block.toNat ≠ w.2.toNat := by
      intro w inside' same
      have all := (List.getElem_cons_eraseIdx_perm inside).map fun w => w.2.toNat
      have once := all.nodup_iff.mpr inv.once
      rw [List.map_cons, List.nodup_cons, is] at once
      exact once.1 (List.mem_map.mpr ⟨w, inside', same.symm⟩)
    have nodes : ∀ node' block' j, Function.update l.nodes node (Ids.refill block) node' = some (block', j) →
        node' = node ∧ block' = block ∧ j = 0 ∨ node' ≠ node ∧ l.nodes node' = some (block', j) := by
      intro node' block' j held
      by_cases same : node' = node
      · subst same
        rw [Function.update_self] at held
        cases held
        exact .inl ⟨rfl, rfl, rfl⟩
      · rw [Function.update_of_ne same] at held
        exact .inr ⟨same, held⟩
    obtain ⟨low, flying, kept, below⟩ := inv.above
    exact {
      above := by
        refine ⟨low, flying, kept, fun n out => ?_⟩
        apply below
        cases out with
        | answered here => exact .answered (sub.subset here)
        | held here =>
          rcases nodes _ _ _ here with ⟨_, rfl, _⟩ | ⟨_, was⟩
          · exact .answered there
          · exact .held was
        | used here => exact .used here
      once := inv.once.sublist (sub.map _)
      apart := by
        intro w inside' node' block' j held
        rcases nodes _ _ _ held with ⟨_, rfl, _⟩ | ⟨_, was⟩
        · exact gone w inside'
        · exact inv.apart w (sub.subset inside') node' block' j was
      unused := fun w inside' => inv.unused w (sub.subset inside')
      alone := by
        intro node₁ node₂ block₁ block₂ j₁ j₂ one two same
        rcases nodes _ _ _ one with ⟨rfl, rfl, _⟩ | ⟨_, was₁⟩
        · rcases nodes _ _ _ two with ⟨rfl, _, _⟩ | ⟨_, was₂⟩
          · rfl
          · exact (inv.apart _ there _ _ _ was₂ same.symm).elim
        · rcases nodes _ _ _ two with ⟨_, rfl, _⟩ | ⟨_, was₂⟩
          · exact (inv.apart _ there _ _ _ was₁ same).elim
          · exact inv.alone _ _ _ _ _ _ was₁ was₂ same
      ahead := by
        intro node' block' j held
        rcases nodes _ _ _ held with ⟨_, rfl, rfl⟩ | ⟨_, was⟩
        · exact ⟨Nat.zero_le _, fun v used same => (inv.unused _ there v used same).elim⟩
        · exact inv.ahead node' block' j was
      nodup := inv.nodup }

end Inv

section stamping

variable {checked : Bool} {cast : Cast ν} {b : Batch ν} {block j : UInt64} {v : Int64}

/-- The ids that a batch is given of a block are that block's, from its place on. -/
theorem first_toInt (low : block.toNat < 2 ^ 31) (room : j.toNat < 2 ^ 32) :
    ((block <<< 32) + j).toInt64.toInt = block.toNat * 2 ^ 32 + j.toNat := by
  have shifted : (block <<< 32).toNat = block.toNat * 2 ^ 32 := by
    rw [UInt64.toNat_shiftLeft]
    show block.toNat <<< 32 % 2 ^ 64 = _
    rw [Nat.shiftLeft_eq]
    omega
  have sum : ((block <<< 32) + j).toNat = block.toNat * 2 ^ 32 + j.toNat := by
    rw [UInt64.toNat_add, shifted]
    omega
  rw [toInt_small (by omega), sum]
  push_cast
  rfl

theorem newIds_block (low : block.toNat < 2 ^ 31) (room : j.toNat + b.rows ≤ 2 ^ 32)
    (inside : v ∈ newIds checked cast b ((block <<< 32) + j).toInt64) :
    blockOf v = block.toNat ∧ j.toNat ≤ placeOf v ∧ placeOf v < j.toNat + b.rows := by
  obtain ⟨i, below, rfl⟩ := mem_newIds inside
  have within : Fits (((block <<< 32) + j).toInt64.toInt + i) := by
    rw [first_toInt low (by omega)]
    unfold Fits
    omega
  unfold blockOf placeOf
  rw [within.toInt_ofInt, first_toInt low (by omega)]
  omega

theorem take_room (most : j.toNat ≤ 2 ^ 32) (rows : Nat) (small : rows < 2 ^ 63) :
    ((1 : UInt64) <<< 32 < j + UInt64.ofNat rows ↔ 2 ^ 32 < j.toNat + rows) ∧
      (j + UInt64.ofNat rows).toNat = j.toNat + rows := by
  have below : rows < 2 ^ 64 := by omega
  have count : (UInt64.ofNat rows).toNat = rows := UInt64.toNat_ofNat_of_lt' below
  have sum : (j + UInt64.ofNat rows).toNat = j.toNat + rows := by
    rw [UInt64.toNat_add, count]
    omega
  have bound : ((1 : UInt64) <<< 32).toNat = 2 ^ 32 := rfl
  rw [UInt64.lt_iff_toNat_lt, bound, sum]
  exact ⟨Iff.rfl, rfl⟩

/-- Ids that a node gives of its block, from its place on, were none that is given. -/
theorem Inv.gives {l : Lake} (inv : Inv l) {node : Nat} (held : l.nodes node = some (block, j))
    (low : block.toNat < 2 ^ 31) (most : j.toNat ≤ 2 ^ 32) (room : j.toNat + b.rows ≤ 2 ^ 32) :
    Inv { l.setNode node (some (block, j + UInt64.ofNat b.rows)) with
      given := l.given ++ newIds checked cast b ((block <<< 32) + j).toInt64 } := by
  obtain ⟨_, used⟩ := inv.ahead node block j held
  obtain ⟨_, sum⟩ := take_room most b.rows b.small
  have new : ∀ v ∈ newIds checked cast b ((block <<< 32) + j).toInt64,
      blockOf v = block.toNat ∧ j.toNat ≤ placeOf v ∧ placeOf v < j.toNat + b.rows :=
    fun v inside => newIds_block low room inside
  have nodes : ∀ node' block' j',
      Function.update l.nodes node (some (block, j + UInt64.ofNat b.rows)) node' = some (block', j') →
      ∃ was, l.nodes node' = some (block', was) ∧
        (node' = node ∧ j' = j + UInt64.ofNat b.rows ∨ node' ≠ node ∧ j' = was) := by
    intro node' block' j' there
    by_cases same : node' = node
    · subst same
      rw [Function.update_self] at there
      cases there
      exact ⟨j, held, .inl ⟨rfl, rfl⟩⟩
    · rw [Function.update_of_ne same] at there
      exact ⟨j', there, .inr ⟨same, rfl⟩⟩
  obtain ⟨low_, flying, kept, below⟩ := inv.above
  exact {
    above := by
      refine ⟨low_, flying, kept, fun n out => ?_⟩
      apply below
      cases out with
      | answered here => exact .answered here
      | held here =>
        obtain ⟨was, there, _⟩ := nodes _ _ _ here
        exact .held there
      | used here =>
        rcases List.mem_append.mp here with old | fresh
        · exact .used old
        · rw [(new _ fresh).1]
          exact .held held
    once := inv.once
    apart := by
      intro w here node' block' j' there
      obtain ⟨was, before, _⟩ := nodes _ _ _ there
      exact inv.apart w here node' block' was before
    unused := by
      intro w here v there
      rcases List.mem_append.mp there with old | fresh
      · exact inv.unused w here v old
      · rw [(new v fresh).1]
        exact inv.apart w here node block j held
    alone := by
      intro node₁ node₂ block₁ block₂ j₁ j₂ one two
      obtain ⟨_, was₁, _⟩ := nodes _ _ _ one
      obtain ⟨_, was₂, _⟩ := nodes _ _ _ two
      exact inv.alone _ _ _ _ _ _ was₁ was₂
    ahead := by
      intro node' block' j' there
      obtain ⟨was, before, moved⟩ := nodes _ _ _ there
      obtain ⟨most', used'⟩ := inv.ahead node' block' was before
      rcases moved with ⟨rfl, rfl⟩ | ⟨other, rfl⟩
      · cases held.symm.trans before
        rw [sum]
        refine ⟨room, fun v here same => ?_⟩
        rcases List.mem_append.mp here with old | fresh
        · have := used v old same
          omega
        · exact (new v fresh).2.2
      · refine ⟨most', fun v here same => ?_⟩
        rcases List.mem_append.mp here with old | fresh
        · exact used' v old same
        · exact (other (inv.alone _ _ _ _ _ _ before held (same.symm.trans (new v fresh).1))).elim
    nodup := by
      apply List.Nodup.append inv.nodup
      · apply newIds_nodup
        intro i row
        rw [first_toInt low (by omega)]
        unfold Fits
        omega
      · intro v old fresh
        obtain ⟨same, past, _⟩ := new v fresh
        have := used v old same
        omega }

/-- New rows' ids are of the node's own block, past all it has given. -/
theorem Inv.stamps {l : Lake} (inv : Inv l) {node : Nat}
    (low : ∀ block j, l.nodes node = some (block, j) → block.toNat < 2 ^ 31) :
    Inv (l.stamps checked cast node b) := by
  have kept (is : (l.nodes node).take (UInt64.ofNat b.rows) = (none, none)) :
      Inv (l.stamps checked cast node b) := by
    have same : l.stamps checked cast node b = { l.setNode node none with given := l.given ++ [] } := by
      rw [Lake.stamps, is]
      rfl
    rw [List.append_nil] at same
    exact same ▸ inv.stops node
  cases held : l.nodes node with
  | none => exact kept (by rw [held]; rfl)
  | some at_ =>
    obtain ⟨block, j⟩ := at_
    obtain ⟨most, used⟩ := inv.ahead node block j held
    obtain ⟨full, sum⟩ := take_room most b.rows b.small
    by_cases room : j.toNat + b.rows ≤ 2 ^ 32
    · have taken : (l.nodes node).take (UInt64.ofNat b.rows) =
          (some ((block <<< 32) + j).toInt64, some (block, j + UInt64.ofNat b.rows)) := by
        rw [held]
        exact if_neg fun over_ => absurd (full.mp over_) (Nat.not_lt_of_le room)
      have same : l.stamps checked cast node b =
          { l.setNode node (some (block, j + UInt64.ofNat b.rows)) with
            given := l.given ++ newIds checked cast b ((block <<< 32) + j).toInt64 } := by
        rw [Lake.stamps, taken]
        rfl
      rw [same]
      exact inv.gives held (low block j held) most room
    · apply kept
      rw [held]
      exact if_pos (full.mpr (Nat.lt_of_not_le room))

theorem Inv.next {l : Lake} (inv : Inv l) (input : Input ν) (low : Low l input) :
    Inv (next checked cast l input) := by
  cases input with
  | commits asked => exact inv.commits asked
  | lands => exact inv.lands
  | leads => exact inv.leads
  | refills i => exact inv.refills i
  | loses i => exact inv.loses i
  | stamps node b => exact inv.stamps low
  | stops node => exact inv.stops node

end stamping

/-- Streams kept as the batches written to them. -/
def plainIpc : Ipc Int (List (Batch Int)) where
  write _ parts := parts
  read := some
  reads _ _ _ _ := rfl

theorem cast_length {dtype : String} {values : List (Option Int)} {is : List (Option Int64)}
    (done : (if dtype = "Int32" then some (values.map (Option.map Int64.ofInt)) else none) = some is) :
    is.length = values.length := by
  obtain ⟨_, same⟩ := Option.ite_none_right_eq_some.mp done
  rw [← Option.some.inj same, List.length_map]

/-- The cast of a column of 32-bit integers; no other type is cast. -/
def castInt32 : Cast Int where
  ids dtype values := if dtype = "Int32" then some (values.map (Option.map Int64.ofInt)) else none
  keeps _ _ _ := cast_length

/-- One row, whose id is the last i64. -/
def lastId : Batch Int where
  columns := [("a", .other "Int32" false [some 5]), (rowId, .int64 [some Int64.maxValue])]
  metadata := ∅
  rows := 1
  even := by decide
  small := by decide

/-- Rows with ids of another type, one without. -/
def threeRows : Batch Int where
  columns := [("a", .other "Int32" false [some 5, some 6, none]),
    (rowId, .other "Int32" false [some 7, none, some 9])]
  metadata := ∅
  rows := 3
  even := by decide
  small := by decide

def newLake : Lake := ⟨1, none, 1, 1, [], [], fun _ => none, []⟩

/-- Two nodes take a block each, and stamp. -/
def twoNodes : List (Input Int) :=
  [.commits [.reserves 0 0 true 0, .reserves 1 0 true 0], .lands, .refills 0, .refills 0,
    .stamps 0 threeRows, .stamps 1 threeRows, .stamps 0 threeRows]

end Pondra.RowIds
