import Pondra.Base.Machine

set_option autoImplicit false

/-! ### Leadership terms -/

namespace Pondra.Terms

open Machines

/-- The newest terms whose leadership records a lake keeps. -/
def keep : Nat := 16

structure Term where
  n : Nat
  addr : String
  lock : String
  bell : Bool
deriving DecidableEq

/-- Is a claim's silence when rung its end? Not a node's that replicates. -/
def answersBell (addr : String) (replicas : Nat) : Bool := addr.isEmpty || decide (replicas ≤ 1)

/-- A leadership record by its path: under `cluster/term`, `cluster/alive` or `cluster/left`. -/
inductive Record
  | term (n : Nat)
  | alive (n : Nat)
  | left (n : Nat)
deriving DecidableEq

def Record.n : Record → Nat
  | term n => n
  | alive n => n
  | left n => n

/-- The records in the bucket. An alive mark is put again and again, and has whose put was last. -/
structure Bucket where
  term : List Term
  alive : List (Nat × Nat)
  left : List Nat

namespace Bucket

variable (b : Bucket)

/-- A listing of `cluster/term`, as numbers. -/
def numbered : List Nat := b.term.map (·.n)

/-- A HEAD of a term's record. -/
def has (n : Nat) : Bool := decide (n ∈ b.numbered)

/-- The number of the newest record, 0 if there is none. -/
def newest : Nat := b.numbered.foldr max 0

/-- The record's put, which takes effect only if there is none. -/
def create (t : Term) : Bucket := if b.has t.n then b else { b with term := b.term ++ [t] }

def mark (n i : Nat) : Bucket :=
  { b with alive := b.alive.filter (fun mark => decide (mark.1 ≠ n)) ++ [(n, i)] }

def leave (n : Nat) : Bucket := if n ∈ b.left then b else { b with left := b.left ++ [n] }

def delete : Record → Bucket
  | .term n => { b with term := b.term.filter fun t => decide (t.n ≠ n) }
  | .alive n => { b with alive := b.alive.filter fun mark => decide (mark.1 ≠ n) }
  | .left n => { b with left := b.left.filter fun m => decide (m ≠ n) }

end Bucket

/-- A claimer, between one store call and the next: `latest`'s, then those of `claim` and its
`prune`. -/
inductive Claimer
  | idle
  | listed (n : Nat)
  | saw (latest : Option Term)
  | putting (t : Term)
  | joining (t : Term) (listed : Option (List Nat)) (marked : Bool)
  | aside (t : Term)
  | pruning (t : Term) (terms : List Nat) (alive left : Option (List Nat))
  | deleting (t : Term) (gone : List Record)
  | won (t : Term) (late : List Record)
  | lost (t : Term)

namespace Claimer

/-- The record's put is answered: the listing of terms and the alive mark go at once. -/
def created (t : Term) (there : Bool) : Claimer := if there then lost t else joining t none false

/-- `prune`, up to its first calls: most claims make none. -/
def prune (t : Term) (terms : List Nat) : Claimer :=
  if terms.length ≤ 2 * keep then deleting t [] else pruning t terms none none

/-- Both have answered. A newer term in the listing, and the claimer steps aside. -/
def joined (t : Term) : Option (List Nat) → Bool → Claimer
  | some terms, true => if terms.any fun k => decide (t.n < k) then aside t else prune t terms
  | terms, marked => joining t terms marked

/-- The records below the newest `keep` terms, once `alive` and `left` are listed too. -/
def trim (t : Term) (terms : List Nat) : Option (List Nat) → Option (List Nat) → Claimer
  | some alive, some left =>
    deleting t <| (terms.map Record.term ++ alive.map Record.alive ++ left.map Record.left).filter fun r =>
      decide (r.n < t.n + 1 - keep)
  | alive, left => pruning t terms alive left

/-- The deletes still to be sent, or sent and not answered. -/
def gone : Claimer → List Record
  | deleting _ gone => gone
  | won _ late => late
  | _ => []

def without (k : Nat) : Claimer → Claimer
  | deleting t gone => deleting t (gone.eraseIdx k)
  | won t late => won t (late.eraseIdx k)
  | c => c

end Claimer

/-- `superseded`, between its two HEADs: `owing` if a claim of a newer term had answered when it
began. -/
inductive Check
  | next (m : Nat) (owing : Bool)
  | answered (m : Nat) (owing superseded : Bool)
deriving DecidableEq

/-- The bucket, the processes at it, and the terms whose claims answered Some. -/
structure Lake where
  bucket : Bucket
  claims : Nat → Claimer
  checks : List Check
  answered : List Nat

/-- A store call of a process, or what it does between two. -/
inductive Op
  | list (i : Nat)
  | read (i : Nat)
  | claim (i : Nat) (addr lock : String) (replicas : Nat)
  | put (i : Nat)
  | terms (i : Nat)
  | mark (i : Nat)
  | unmark (i : Nat)
  | alive (i : Nat)
  | left (i : Nat)
  | delete (i k : Nat)
  | answer (i : Nat)
  | leave (i : Nat)
  | release (i : Nat)
  | ask (m : Nat)
  | own (j : Nat)
deriving DecidableEq

namespace Lake

variable (s : Lake)

def start : Lake := ⟨⟨[], [], []⟩, fun _ => .idle, [], []⟩

def set (i : Nat) (c : Claimer) : Lake :=
  { s with claims := fun j => if j = i then c else s.claims j }

def write (b : Bucket) : Lake := { s with bucket := b }

/-- `latest`'s listing; it has its answer if there are no terms. -/
def list (i : Nat) : Lake :=
  match s.claims i with
  | .idle => s.set i (if s.bucket.term = [] then .saw none else .listed s.bucket.newest)
  | _ => s

/-- `latest` reads the record listed; one deleted since is an error. -/
def read (i : Nat) : Lake :=
  match s.claims i with
  | .listed n =>
    s.set i (match s.bucket.term.find? fun t => decide (t.n = n) with
      | some t => .saw (some t)
      | none => .idle)
  | _ => s

/-- `claim` of the term after the one seen, with its lock file's id. -/
def claim (i : Nat) (addr lock : String) (replicas : Nat) : Lake :=
  match s.claims i with
  | .saw latest =>
    s.set i (.putting ⟨(latest.map (·.n)).elim 1 (· + 1), addr, lock, answersBell addr replicas⟩)
  | _ => s

def put (i : Nat) : Lake :=
  match s.claims i with
  | .putting t => (s.write (s.bucket.create t)).set i (.created t (s.bucket.has t.n))
  | _ => s

def terms (i : Nat) : Lake :=
  match s.claims i with
  | .joining t none marked => s.set i (.joined t (some s.bucket.numbered) marked)
  | _ => s

/-- The alive mark of a claim, or of a leader every 10 s, its last in flight as it stepped down. -/
def mark (i : Nat) : Lake :=
  match s.claims i with
  | .joining t listed false => (s.write (s.bucket.mark t.n i)).set i (.joined t listed true)
  | .won t _ => s.write (s.bucket.mark t.n i)
  | _ => s

def unmark (i : Nat) : Lake :=
  match s.claims i with
  | .aside t => (s.write (s.bucket.delete (.alive t.n))).set i (.lost t)
  | _ => s

def alive (i : Nat) : Lake :=
  match s.claims i with
  | .pruning t terms none left => s.set i (.trim t terms (some (s.bucket.alive.map (·.1))) left)
  | _ => s

def left (i : Nat) : Lake :=
  match s.claims i with
  | .pruning t terms alive none => s.set i (.trim t terms alive (some s.bucket.left))
  | _ => s

/-- A delete of a prune takes effect: they go at once, and come in any order. -/
def delete (i k : Nat) : Lake :=
  match (s.claims i).gone[k]? with
  | some r => (s.write (s.bucket.delete r)).set i ((s.claims i).without k)
  | none => s

/-- `claim` answers Some, with its prune done or cut off. -/
def answer (i : Nat) : Lake :=
  match s.claims i with
  | .pruning t _ _ _ => { s.set i (.won t []) with answered := s.answered ++ [t.n] }
  | .deleting t gone => { s.set i (.won t gone) with answered := s.answered ++ [t.n] }
  | _ => s

/-- `step_down`'s record, before its `release`. -/
def leave (i : Nat) : Lake :=
  match s.claims i with
  | .won t _ => s.write (s.bucket.leave t.n)
  | _ => s

def release (i : Nat) : Lake :=
  match s.claims i with
  | .won t _ => s.write (s.bucket.delete (.alive t.n))
  | _ => s

/-- `superseded`'s look for the next term. -/
def ask (m : Nat) : Lake :=
  let owing := s.answered.any fun n => decide (m < n)
  { s with checks := s.checks ++
      [if s.bucket.has (m + 1) then .answered m owing true else .next m owing] }

/-- Its look for the term's own record. -/
def own (j : Nat) : Lake :=
  match s.checks[j]? with
  | some (.next m owing) =>
    { s with checks := s.checks.set j (.answered m owing (!s.bucket.has m)) }
  | _ => s

def next : Op → Lake
  | .list i => s.list i
  | .read i => s.read i
  | .claim i addr lock replicas => s.claim i addr lock replicas
  | .put i => s.put i
  | .terms i => s.terms i
  | .mark i => s.mark i
  | .unmark i => s.unmark i
  | .alive i => s.alive i
  | .left i => s.left i
  | .delete i k => s.delete i k
  | .answer i => s.answer i
  | .leave i => s.leave i
  | .release i => s.release i
  | .ask m => s.ask m
  | .own j => s.own j

end Lake

/-- Store calls in any order, of any processes. -/
def terms : Machine Lake Op where
  next := Lake.next
  Allows _ _ := True

/-! ### The newest record -/

namespace Bucket

variable {b : Bucket}

theorem has_iff (n : Nat) : b.has n = true ↔ ∃ t ∈ b.term, t.n = n := by
  simp [has, numbered]

theorem le_top (l : List Nat) (n : Nat) (inside : n ∈ l) : n ≤ l.foldr max 0 := by
  induction l with
  | nil => cases inside
  | cons k rest ih =>
    rw [List.foldr_cons]
    cases inside with
    | head => omega
    | tail _ later =>
      have := ih later
      omega

theorem top_le (l : List Nat) (n : Nat) (all : ∀ k ∈ l, k ≤ n) : l.foldr max 0 ≤ n := by
  induction l with
  | nil => exact Nat.zero_le n
  | cons k rest ih =>
    have first := all k List.mem_cons_self
    have others := ih fun j inside => all j (List.mem_cons_of_mem k inside)
    rw [List.foldr_cons]
    omega

theorem top_mem (l : List Nat) (some : l ≠ []) : l.foldr max 0 ∈ l := by
  induction l with
  | nil => exact absurd rfl some
  | cons k rest ih =>
    rw [List.foldr_cons]
    by_cases last : rest = []
    · simp [last]
    · have inside := ih last
      by_cases above : rest.foldr max 0 ≤ k
      · rw [Nat.max_eq_left above]
        exact List.mem_cons_self
      · rw [Nat.max_eq_right (by omega)]
        exact List.mem_cons_of_mem k inside

theorem has_le (n : Nat) (here : b.has n = true) : n ≤ b.newest :=
  le_top b.numbered n (of_decide_eq_true here)

theorem has_newest (some : b.term ≠ []) : b.has b.newest = true :=
  decide_eq_true (top_mem b.numbered fun none => some (List.map_eq_nil_iff.mp none))

theorem newest_le (n : Nat) (all : ∀ t ∈ b.term, t.n ≤ n) : b.newest ≤ n := by
  apply top_le
  intro k inside
  obtain ⟨t, held, rfl⟩ := List.mem_map.mp inside
  exact all t held

theorem has_create (t : Term) (n : Nat) : (b.create t).has n = (b.has n || decide (n = t.n)) := by
  rw [create]
  by_cases there : b.has t.n = true
  · rw [if_pos there]
    by_cases same : n = t.n
    · rw [same, there, Bool.true_or]
    · simp [same]
  · rw [if_neg there]
    simp [has, numbered]

theorem newest_create (t : Term) : (b.create t).newest = max b.newest t.n := by
  apply Nat.le_antisymm
  · apply newest_le
    intro other inside
    have here := (has_iff other.n).mpr ⟨other, inside, rfl⟩
    rw [has_create, Bool.or_eq_true, decide_eq_true_eq] at here
    cases here with
    | inl old =>
      have := has_le other.n old
      omega
    | inr new => omega
  · apply Nat.max_le.mpr
    constructor
    · by_cases none : b.term = []
      · simp [newest, numbered, none]
      · apply has_le
        rw [has_create, has_newest none, Bool.true_or]
    · apply has_le
      rw [has_create]
      simp

theorem has_delete (m n : Nat) :
    (b.delete (.term m)).has n = (b.has n && decide (n ≠ m)) := by
  simp [delete, has, numbered]
  grind

/-- Only a record below the newest is deleted, so the newest stays. -/
theorem newest_delete (m : Nat) (below : m < b.newest) :
    (b.delete (.term m)).newest = b.newest := by
  apply Nat.le_antisymm
  · apply newest_le
    intro t inside
    exact has_le t.n ((has_iff t.n).mpr ⟨t, (List.mem_filter.mp inside).1, rfl⟩)
  · have some : b.term ≠ [] := by
      intro none
      simp [newest, numbered, none] at below
    apply has_le
    rw [has_delete, has_newest some]
    simp
    omega

end Bucket

end Pondra.Terms
