import Pondra.Log.Send
import Pondra.Log.Marks

set_option autoImplicit false

namespace Pondra.Log

open Dicts Machines

/-! ### Holds, counted by table -/

/-- One more hold names these tables. -/
def bump (held : Dict String Nat) (tables : List String) : Dict String Nat :=
  tables.foldl (fun held table => held.insert table ((held.lookup table).getD 0 + 1)) held

/-- One of the holds that name a table is dropped. -/
def lower (held : Dict String Nat) (table : String) : Dict String Nat :=
  match held.lookup table with
  | none => held
  | some n => if n - 1 = 0 then held.erase table else held.insert table (n - 1)

/-- A hold of these tables is dropped. -/
def release (held : Dict String Nat) (tables : List String) : Dict String Nat :=
  tables.foldl lower held

/-- How many holds name a table. -/
def heldBy (held : Dict String Nat) (table : String) : Nat := (held.lookup table).getD 0

/-- A table that no hold names has no count. -/
def Counts (held : Dict String Nat) : Prop := ∀ table, held.lookup table ≠ some 0

theorem bump_spec (held : Dict String Nat) (tables : List String) (counts : Counts held) :
    Counts (bump held tables) ∧
      ∀ table, heldBy (bump held tables) table = heldBy held table + tables.count table := by
  induction tables generalizing held with
  | nil => exact ⟨counts, fun _ => rfl⟩
  | cons first rest ih =>
    have counts' : Counts (held.insert first ((held.lookup first).getD 0 + 1)) := by
      intro table zero
      rw [lookup_insert_eq] at zero
      split at zero
      · exact absurd (Option.some.inj zero) (Nat.succ_ne_zero _)
      · exact counts table zero
    obtain ⟨clean, adds⟩ := ih _ counts'
    refine ⟨clean, fun table => ?_⟩
    have added := adds table
    rw [bump, List.foldl_cons]
    refine added.trans ?_
    rw [heldBy, lookup_insert_eq, List.count_cons]
    by_cases same : table = first
    · subst same
      simp [heldBy]
      omega
    · simp [heldBy, same, Ne.symm same]

theorem lower_spec (held : Dict String Nat) (table : String) (counts : Counts held) :
    Counts (lower held table) ∧
      ∀ other, heldBy (lower held table) other =
        heldBy held other - if other = table then 1 else 0 := by
  unfold lower
  cases found : held.lookup table with
  | none =>
    refine ⟨counts, fun other => ?_⟩
    by_cases same : other = table
    · subst same
      simp [heldBy, found]
    · simp [same]
  | some n =>
    have some' : n ≠ 0 := fun zero => counts table (by rw [found, zero])
    simp only
    by_cases last : n - 1 = 0
    · rw [if_pos last]
      refine ⟨fun other => ?_, fun other => ?_⟩
      · by_cases same : other = table
        · subst same
          rw [AList.lookup_erase]
          exact fun zero => by cases zero
        · rw [AList.lookup_erase_ne same]
          exact counts other
      · by_cases same : other = table
        · subst same
          simp only [heldBy, AList.lookup_erase, found, if_true, Option.getD_none, Option.getD_some]
          omega
        · simp [heldBy, AList.lookup_erase_ne same, same]
    · rw [if_neg last]
      refine ⟨fun other => ?_, fun other => ?_⟩
      · rw [lookup_insert_eq]
        split
        · exact fun zero => last (Option.some.inj zero)
        · exact counts other
      · rw [heldBy, lookup_insert_eq]
        by_cases same : other = table
        · subst same
          simp [heldBy, found]
        · simp [heldBy, same]

theorem release_spec (held : Dict String Nat) (tables : List String) (counts : Counts held) :
    Counts (release held tables) ∧
      ∀ table, heldBy (release held tables) table = heldBy held table - tables.count table := by
  induction tables generalizing held with
  | nil => exact ⟨counts, fun _ => rfl⟩
  | cons first rest ih =>
    obtain ⟨counts', lowers⟩ := lower_spec held first counts
    obtain ⟨clean, subs⟩ := ih _ counts'
    refine ⟨clean, fun table => ?_⟩
    rw [release, List.foldl_cons]
    refine (subs table).trans ?_
    rw [lowers, List.count_cons]
    by_cases same : table = first
    · subst same
      simp
      omega
    · simp [same, Ne.symm same]

/-- A table that a hold names is among the ones flushes are held for. -/
theorem mem_keys_of_held (held : Dict String Nat) (table : String) (some' : 0 < heldBy held table) :
    table ∈ held.keys := by
  rw [← AList.mem_keys, ← AList.lookup_isSome]
  cases found : held.lookup table with
  | none =>
    rw [heldBy, found] at some'
    exact absurd some' (Nat.lt_irrefl 0)
  | some _ => rfl

/-! ### The sequencer's task, its channel and the senders -/

/-- A flush in the sequencer's channel, and the node's `send` it is of, if it is one's. -/
structure Ticket where
  no : Nat
  sender : Option Nat
  flush : Flush
  deriving DecidableEq

/-- A `Hold`: its tables, the number it waits for, and whether `hold` has returned it. -/
structure Holding where
  tables : List String
  ticket : Nat
  returned : Bool
  deriving DecidableEq

/-- One commit: its flushes, what they are told once it is durable, and its write, if it made one. -/
structure Commit where
  tickets : List Ticket
  answers : List Answer
  write : Option Write

/-- A leader: its sequencer, the holds, the channel, the commit being made, those made (`settled` of them
are durable), and the sends of its nodes. -/
structure House where
  seq : Sequencer
  held : Dict String Nat
  holds : List Holding
  tickets : Nat
  queue : List Ticket
  batch : List Ticket
  looked : List (Ticket × Seen)
  commits : List Commit
  settled : Nat
  sends : Nat → Sending
  out : Nat → Option Nat

/-- `number`: a commit number of its own. -/
def numberFlush : Flush := ⟨"", [], [], 1, false, 0, [], none, false⟩

/-- The answer of a flush whose commit is durable, or wrote nothing. -/
def House.told (h : House) (no : Nat) : Option Answer :=
  h.commits.zipIdx.findSome? fun commit =>
    if commit.2 < h.settled ∨ commit.1.write.isNone then
      (commit.1.tickets.zip commit.1.answers).findSome? fun x => if x.1.no = no then some x.2 else none
    else none

inductive Act where
  -- `hold`, up to where it waits
  | hold (tables : List String)
  | returns (i : Nat)
  | drop (i : Nat)
  -- a node's `send` packs what is pending
  | submit (n : Nat) (inlineBytes : Nat) (path : String) (derived : List Derived)
  | enqueue (flush : Flush)
  -- the sequencer's task takes what is in the channel
  | collect (k : Nat)
  | look (seen : Seen)
  | commit (env : Env)
  | settle
  | reply (n : Nat)
  -- the answer is lost, or the packing failed
  | lose (n : Nat) (why : String) (lost : Bool)
  -- a view refuses rows as they are packed
  | refuse (n : Nat) (why : String) (alone : Append → Option String)

namespace House

variable (h : House)

def send (flush : Flush) (sender : Option Nat) : House :=
  { h with
    tickets := h.tickets + 1
    queue := h.queue ++ [⟨h.tickets, sender, flush⟩] }

/-- The flushes of a commit, with what the commit found as it looked at each. -/
def seens (looked : List (Ticket × Seen)) : List (Seen × Flush) :=
  looked.map fun x => (x.2, x.1.flush)

def step (config : Config) : Act → House
  | .hold tables =>
    send
      { h with
        held := bump h.held tables
        holds := h.holds ++ [⟨tables, h.tickets, false⟩] } numberFlush none
  | .returns i => { h with holds := h.holds.modify i fun x => { x with returned := true } }
  | .drop i =>
    { h with
      held := release h.held (h.holds[i]?.elim [] (·.tables))
      holds := h.holds.eraseIdx i }
  | .submit n inlineBytes path derived =>
    send { h with out := Function.update h.out n (some h.tickets) }
      (pack inlineBytes path (h.sends n).pending derived) (some n)
  | .enqueue flush => h.send flush none
  | .collect k => { h with queue := h.queue.drop k, batch := h.queue.take k }
  | .look seen =>
    match h.batch with
    | [] => h
    | ticket :: rest =>
      { h with
        batch := rest
        looked := h.looked ++ [(ticket, { seen with held := h.held.keys })] }
  | .commit env =>
    { h with
      seq := h.seq.commit config env (seens h.looked)
      looked := []
      commits := h.commits ++ [{
        tickets := h.looked.map (·.1)
        answers := h.seq.answers env (seens h.looked)
        write := if env.frozen then none else some (h.seq.write config env (seens h.looked)) }] }
  | .settle => { h with settled := h.settled + 1 }
  | .reply n =>
    match (h.out n).bind h.told with
    | none => h
    | some a =>
      { h with
        sends := Function.update h.sends n ((h.sends n).receive (.outcome a.outcome))
        out := Function.update h.out n none }
  | .lose n why lost =>
    { h with
      sends := Function.update h.sends n ((h.sends n).receive (.failed why lost))
      out := Function.update h.out n none }
  | .refuse n why alone =>
    { h with sends := Function.update h.sends n ((h.sends n).receive (.rowsRefused why alone)) }

/-- `hold` returns once its number is answered; a send has one flush out; the task takes flushes when it
is done with the commit before, and looks at each. -/
def Allows : Act → Prop
  | .hold _ => True
  | .returns i => ∃ x acks, h.holds[i]? = some x ∧ x.returned = false ∧
      (h.told x.ticket).map (·.outcome) = some (.acks acks)
  | .drop i => i < h.holds.length
  | .submit n _ _ _ => (h.sends n).pending ≠ [] ∧ h.out n = none
  | .enqueue _ => True
  | .collect k => h.batch = [] ∧ h.looked = [] ∧ 0 < k ∧ k ≤ h.queue.length
  | .look _ => h.batch ≠ []
  | .commit env => h.batch = [] ∧ h.looked ≠ [] ∧ h.seq.Allows (.commit env (seens h.looked))
  | .settle => h.settled < h.commits.length
  | .reply n => ∃ no, h.out n = some no ∧ (h.told no).isSome
  | .lose n _ _ => (h.sends n).pending ≠ []
  | .refuse n _ _ => (h.sends n).pending ≠ [] ∧ h.out n = none

end House

/-- A leader's holds, flushes and commits, in any order. -/
def house (config : Config) : Machine House Act where
  next := fun h => h.step config
  Allows := House.Allows

end Pondra.Log
