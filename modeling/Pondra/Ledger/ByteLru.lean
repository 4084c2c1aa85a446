import Mathlib.Algebra.Group.Nat.Defs
import Mathlib.Algebra.GroupWithZero.Nat
import Mathlib.Algebra.BigOperators.Group.List.Basic
import Pondra.Base.Machine
import Pondra.Base.Recency

set_option autoImplicit false

namespace Pondra.Ledger

open Machines Recency

/-! ### Sums of a machine word -/

def plus (a b : Nat) : Nat := (a + b) % 2 ^ 64

def minus (a b : Nat) : Nat := (a + 2 ^ 64 - b) % 2 ^ 64

theorem plus_eq {a b : Nat} (fits : a + b < 2 ^ 64) : plus a b = a + b := Nat.mod_eq_of_lt fits

theorem minus_eq {a b : Nat} (within : b ≤ a) (fits : a < 2 ^ 64) : minus a b = a - b := by
  unfold minus
  omega

variable {κ ν : Type}

/-! ### Entries and their charges -/

/-- What entries are charged together. -/
def charges (entries : List (κ × ν × Nat)) : Nat := (entries.map fun e => e.2.2).sum

def values (entries : List (κ × ν × Nat)) : List (κ × ν) := entries.map fun e => (e.1, e.2.1)

theorem charges_append (front back : List (κ × ν × Nat)) :
    charges (front ++ back) = charges front + charges back := by
  unfold charges
  rw [List.map_append, List.sum_append]

theorem charges_cons (e : κ × ν × Nat) (rest : List (κ × ν × Nat)) :
    charges (e :: rest) = e.2.2 + charges rest := by
  unfold charges
  rw [List.map_cons, List.sum_cons]

theorem charges_perm {a b : List (κ × ν × Nat)} (perm : a.Perm b) : charges a = charges b :=
  (perm.map _).sum_eq

theorem charges_sublist {a b : List (κ × ν × Nat)} (sub : a.Sublist b) : charges a ≤ charges b := by
  induction sub with
  | slnil => exact Nat.le_refl _
  | cons e _ ih =>
    rw [charges_cons]
    omega
  | cons_cons e _ ih =>
    rw [charges_cons, charges_cons]
    omega

section bounded

variable [DecidableEq κ]

/-! ### The cache bounded by bytes -/

/-- A map that keeps its most recently used entries within a byte bound and a count bound. Each entry is
charged the bytes its `put` is given. -/
structure ByteLru (lru : LruMap κ (ν × Nat)) where
  map : lru.Map
  bytes : Nat
  most : Nat
  count : Nat

namespace ByteLru

variable {lru : LruMap κ (ν × Nat)}

/-- A cache holding at most `most` bytes, however many entries that is. -/
def new (lru : LruMap κ (ν × Nat)) (most : Nat) : ByteLru lru := ⟨lru.empty, 0, most, 2 ^ 64 - 1⟩

def withCount (c : ByteLru lru) (count : Nat) : ByteLru lru := { c with count := count }

/-- The entries with their charges, the most recently used first. -/
def entries (c : ByteLru lru) : List (κ × ν × Nat) := lru.entries c.map

/-- Drops the least recently used entries while a bound is passed, in at most so many rounds. -/
def trimFrom : Nat → ByteLru lru → ByteLru lru × List (κ × ν)
  | 0, c => (c, [])
  | rounds + 1, c =>
    if c.most < c.bytes ∨ c.count < c.entries.length then
      match (lru.popLru c.map).2 with
      | none => (c, [])
      | some (key, value, charge) =>
        let rest := trimFrom rounds
          { c with map := (lru.popLru c.map).1, bytes := minus c.bytes charge }
        (rest.1, (key, value) :: rest.2)
    else (c, [])

/-- No more rounds than entries have anything to drop. -/
def trim (c : ByteLru lru) : ByteLru lru × List (κ × ν) := trimFrom c.entries.length c

/-- The total without the charge of what a key held. -/
def without (c : ByteLru lru) (old : Option (ν × Nat)) : Nat :=
  match old with
  | some (_, charge) => minus c.bytes charge
  | none => c.bytes

def put (c : ByteLru lru) (key : κ) (value : ν) (bytes : Nat) : ByteLru lru × List (κ × ν) :=
  if c.most < bytes ∨ c.count = 0 then
    ({ c with map := (lru.pop c.map key).1, bytes := c.without (lru.pop c.map key).2 },
      [(key, value)])
  else trim { c with
    map := (lru.push c.map key (value, bytes)).1
    bytes := plus (c.without (lru.push c.map key (value, bytes)).2) bytes }

def setMost (c : ByteLru lru) (most : Nat) : ByteLru lru × List (κ × ν) := trim { c with most := most }

def shedFrom (bytes entries : Nat) :
    Nat → Nat → Nat → ByteLru lru → ByteLru lru × List (κ × ν)
  | 0, _, _, c => (c, [])
  | rounds + 1, freed, left, c =>
    if freed < bytes ∧ left < entries then
      match (lru.popLru c.map).2 with
      | none => (c, [])
      | some (key, value, charge) =>
        let rest := shedFrom bytes entries rounds (plus freed charge) (left + 1)
          { c with map := (lru.popLru c.map).1, bytes := minus c.bytes charge }
        (rest.1, (key, value) :: rest.2)
    else (c, [])

/-- Lets go of the least recently used entries until `bytes` have left, or so many entries have. -/
def shed (c : ByteLru lru) (bytes entries : Nat) : ByteLru lru × List (κ × ν) :=
  shedFrom bytes entries c.entries.length 0 0 c

def get (c : ByteLru lru) (key : κ) : ByteLru lru × Option ν :=
  ({ c with map := (lru.touch c.map key id).1 }, (lru.touch c.map key id).2.map Prod.fst)

/-- The value under a key, changed in place: its charge stays. -/
def getMut (c : ByteLru lru) (key : κ) (change : ν → ν) : ByteLru lru × Option ν :=
  let touched := lru.touch c.map key fun held => (change held.1, held.2)
  ({ c with map := touched.1 }, touched.2.map Prod.fst)

def peek (c : ByteLru lru) (key : κ) : Option ν := (c.entries.lookup key).map Prod.fst

def contains (c : ByteLru lru) (key : κ) : Bool := (c.entries.lookup key).isSome

def pop (c : ByteLru lru) (key : κ) : ByteLru lru × Option ν :=
  ({ c with map := (lru.pop c.map key).1, bytes := c.without (lru.pop c.map key).2 },
    (lru.pop c.map key).2.map Prod.fst)

def popEach : List κ → ByteLru lru → ByteLru lru × List (κ × ν)
  | [], c => (c, [])
  | key :: rest, c =>
    let others := popEach rest (c.pop key).1
    (others.1, ((c.pop key).2.map fun value => (key, value)).toList ++ others.2)

/-- Takes out every entry `keep` refuses. -/
def retain (c : ByteLru lru) (keep : κ → ν → Bool) : ByteLru lru × List (κ × ν) :=
  popEach ((c.entries.filter fun e => !keep e.1 e.2.1).map Prod.fst) c

def clear (c : ByteLru lru) : ByteLru lru := { c with map := lru.empty, bytes := 0 }

inductive Op (κ ν : Type) where
  | put (key : κ) (value : ν) (bytes : Nat)
  | get (key : κ)
  | getMut (key : κ) (change : ν → ν)
  | peek (key : κ)
  | contains (key : κ)
  | pop (key : κ)
  | retain (keep : κ → ν → Bool)
  | shed (bytes entries : Nat)
  | setMost (most : Nat)
  | clear

/-- The cache after an operation, and the entries it hands back. -/
def step (c : ByteLru lru) : Op κ ν → ByteLru lru × List (κ × ν)
  | .put key value bytes => c.put key value bytes
  | .get key => ((c.get key).1, [])
  | .getMut key change => ((c.getMut key change).1, [])
  | .peek _ => (c, [])
  | .contains _ => (c, [])
  | .pop key => ((c.pop key).1, ((c.pop key).2.map fun value => (key, value)).toList)
  | .retain keep => c.retain keep
  | .shed bytes entries => c.shed bytes entries
  | .setMost most => c.setMost most
  | .clear => (c.clear, [])

/-- Charges and bounds are machine words. -/
def Allows (_ : ByteLru lru) : Op κ ν → Prop
  | .put _ _ bytes => bytes < 2 ^ 64
  | .setMost most => most < 2 ^ 64
  | _ => True

def machine (lru : LruMap κ (ν × Nat)) : Machine (ByteLru lru) (Op κ ν) where
  next c op := (c.step op).1
  Allows := Allows

end ByteLru

/-! ### What the total, the bounds and the entries handed back are -/

namespace ByteLru

/-- Entries within both bounds. -/
def Within (most count : Nat) (entries : List (κ × ν × Nat)) : Prop :=
  charges entries ≤ most ∧ entries.length ≤ count

/-- The entries at the end of a list go, the last first: as few of them as bring it within the bounds. -/
structure Trimmed (most count : Nat) (entries kept : List (κ × ν × Nat)) (left : List (κ × ν)) :
    Prop where
  within : Within most count kept
  shortest : ∃ gone, entries = kept ++ gone ∧ left = (values gone).reverse ∧
    ∀ front back, gone = front ++ back → front ≠ [] → ¬ Within most count (kept ++ front)

variable {lru : LruMap κ (ν × Nat)}

/-- The total is the entries' charges, within the bounds. -/
structure Sound (c : ByteLru lru) : Prop where
  word : c.most < 2 ^ 64
  total : c.bytes = charges c.entries
  within : Within c.most c.count c.entries

theorem popLru_last {c : ByteLru lru} {init : List (κ × ν × Nat)} {last : κ × ν × Nat}
    (split : c.entries = init ++ [last]) :
    (lru.popLru c.map).2 = some last ∧ lru.entries (lru.popLru c.map).1 = init := by
  rw [lru.popLru_value, lru.entries_popLru, show lru.entries c.map = _ from split]
  exact ⟨List.getLast?_concat, List.dropLast_concat⟩

theorem trimFrom_spec (rounds : Nat) (c : ByteLru lru) (enough : c.entries.length ≤ rounds)
    (total : c.bytes = charges c.entries) (word : c.bytes < 2 ^ 64) :
    (trimFrom rounds c).1.most = c.most ∧ (trimFrom rounds c).1.count = c.count ∧
      (trimFrom rounds c).1.bytes = charges (trimFrom rounds c).1.entries ∧
      Trimmed c.most c.count c.entries (trimFrom rounds c).1.entries (trimFrom rounds c).2 := by
  induction rounds generalizing c with
  | zero =>
    have empty : c.entries = [] := List.length_eq_zero_iff.mp (Nat.le_zero.mp enough)
    refine ⟨rfl, rfl, total, ?_, [], ?_, rfl, ?_⟩
    · show Within c.most c.count c.entries
      rw [empty]
      exact ⟨Nat.zero_le _, Nat.zero_le _⟩
    · show c.entries = c.entries ++ []
      rw [List.append_nil]
    · intro front back split some
      exact absurd (List.append_eq_nil_iff.mp split.symm).1 some
  | succ rounds ih =>
    unfold trimFrom
    split
    · rename_i past
      rcases List.eq_nil_or_concat c.entries with empty | ⟨init, last, split⟩
      · rw [empty] at past total
        change c.bytes = 0 at total
        rw [total] at past
        simp only [List.length_nil, Nat.not_lt_zero, or_self] at past
      · obtain ⟨key, value, charge⟩ := last
        rw [List.concat_eq_append] at split
        obtain ⟨ends, shorter⟩ := popLru_last split
        have sum : charges c.entries = charges init + charge := by
          rw [split, charges_append, charges_cons]
          rfl
        rw [ends]
        dsimp only
        generalize popped : ({ c with map := (lru.popLru c.map).1, bytes := minus c.bytes charge } :
          ByteLru lru) = less
        have entries' : less.entries = init := by
          rw [← popped]
          exact shorter
        have less_bytes : less.bytes = charges less.entries := by
          rw [entries', ← popped]
          show minus c.bytes charge = charges init
          rw [minus_eq (by omega) word]
          omega
        have rest := ih less (by
          rw [entries']
          have long : c.entries.length = init.length + 1 := by rw [split, List.length_append]; rfl
          omega) less_bytes (by rw [less_bytes, entries']; omega)
        have most : less.most = c.most := by rw [← popped]
        have count : less.count = c.count := by rw [← popped]
        rw [most, count, entries'] at rest
        obtain ⟨most', count', total', within, gone, whole, left, shortest⟩ := rest
        refine ⟨most', count', total', within, gone ++ [(key, value, charge)], ?_, ?_, ?_⟩
        · rw [split, whole, List.append_assoc]
        · rw [left, values, values, List.map_append, List.reverse_append]
          rfl
        · intro front back parts some
          rcases List.eq_nil_or_concat back with none | ⟨back', e, ends⟩
          · rw [none, List.append_nil] at parts
            rw [← parts, ← List.append_assoc]
            rw [← whole, ← split]
            intro ⟨light, few⟩
            omega
          · rw [ends, List.concat_eq_append, ← List.append_assoc] at parts
            exact shortest front back' (List.append_inj_left' parts rfl) some
    · rename_i inside
      have within : Within c.most c.count c.entries := ⟨by omega, by omega⟩
      refine ⟨rfl, rfl, total, within, [], ?_, rfl, ?_⟩
      · show c.entries = c.entries ++ []
        rw [List.append_nil]
      · intro front back split some
        exact absurd (List.append_eq_nil_iff.mp split.symm).1 some

theorem shedFrom_spec (bytes entries rounds freed left : Nat) (c : ByteLru lru)
    (total : c.bytes = charges c.entries) (word : c.bytes < 2 ^ 64) :
    ∃ gone, (shedFrom bytes entries rounds freed left c).1.most = c.most ∧
      (shedFrom bytes entries rounds freed left c).1.count = c.count ∧
      (shedFrom bytes entries rounds freed left c).1.bytes =
        charges (shedFrom bytes entries rounds freed left c).1.entries ∧
      c.entries = (shedFrom bytes entries rounds freed left c).1.entries ++ gone ∧
      (shedFrom bytes entries rounds freed left c).2 = (values gone).reverse := by
  have still : ∃ gone, c.most = c.most ∧ c.count = c.count ∧ c.bytes = charges c.entries ∧
      c.entries = c.entries ++ gone ∧ ([] : List (κ × ν)) = (values gone).reverse :=
    ⟨[], rfl, rfl, total, (List.append_nil _).symm, rfl⟩
  induction rounds generalizing c freed left with
  | zero => exact still
  | succ rounds ih =>
    unfold shedFrom
    split
    · rcases List.eq_nil_or_concat c.entries with empty | ⟨init, last, split⟩
      · have none : (lru.popLru c.map).2 = none := by
          rw [lru.popLru_value, show lru.entries c.map = [] from empty]
          rfl
        rw [none]
        exact still
      · obtain ⟨key, value, charge⟩ := last
        rw [List.concat_eq_append] at split
        obtain ⟨ends, shorter⟩ := popLru_last split
        have sum : charges c.entries = charges init + charge := by
          rw [split, charges_append, charges_cons]
          rfl
        rw [ends]
        dsimp only
        generalize popped : ({ c with map := (lru.popLru c.map).1, bytes := minus c.bytes charge } :
          ByteLru lru) = less
        have entries' : less.entries = init := by
          rw [← popped]
          exact shorter
        have less_bytes : less.bytes = charges less.entries := by
          rw [entries', ← popped]
          show minus c.bytes charge = charges init
          rw [minus_eq (by omega) word]
          omega
        obtain ⟨gone, most, count, total', whole, handed⟩ := ih (plus freed charge) (left + 1) less
          less_bytes (by rw [less_bytes, entries']; omega)
          ⟨[], rfl, rfl, less_bytes, (List.append_nil _).symm, rfl⟩
        have most' : less.most = c.most := by rw [← popped]
        have count' : less.count = c.count := by rw [← popped]
        refine ⟨gone ++ [(key, value, charge)], most.trans most', count.trans count', total', ?_, ?_⟩
        · rw [split, ← entries', whole, List.append_assoc]
        · rw [handed, values, values, List.map_append, List.reverse_append]
          rfl
    · exact still

/-- The entries without a key's. -/
def besides (key : κ) (entries : List (κ × ν × Nat)) : List (κ × ν × Nat) :=
  entries.filter fun e => decide (e.1 ≠ key)

theorem besides_sublist (key : κ) (entries : List (κ × ν × Nat)) :
    (besides key entries).Sublist entries := List.filter_sublist

omit [DecidableEq κ] in
theorem Within.sublist {most count : Nat} {a b : List (κ × ν × Nat)} (within : Within most count b)
    (sub : a.Sublist b) : Within most count a :=
  ⟨Nat.le_trans (charges_sublist sub) within.1, Nat.le_trans sub.length_le within.2⟩

/-- What a key held, beside the others. -/
theorem perm_besides (c : ByteLru lru) (key : κ) :
    c.entries.Perm (((c.entries.lookup key).map fun held => (key, held)).toList ++
      besides key c.entries) :=
  perm_of_lookup c.entries (lru.nodup c.map) key

theorem without_eq (c : ByteLru lru) (total : c.bytes = charges c.entries) (word : c.bytes < 2 ^ 64)
    (key : κ) : c.without (c.entries.lookup key) = charges (besides key c.entries) := by
  have sums := charges_perm (perm_besides c key)
  unfold without
  cases held : c.entries.lookup key with
  | none =>
    rw [held] at sums
    exact total.trans sums
  | some old =>
    rw [held, charges_append] at sums
    have own : charges ([(key, old)] : List (κ × ν × Nat)) = old.2 := by
      rw [charges_cons]
      rfl
    change charges c.entries = charges [(key, old)] + charges (besides key c.entries) at sums
    show minus c.bytes old.2 = _
    rw [minus_eq (by omega) word]
    omega

theorem pop_spec (c : ByteLru lru) (total : c.bytes = charges c.entries) (word : c.bytes < 2 ^ 64)
    (key : κ) : (c.pop key).1.most = c.most ∧ (c.pop key).1.count = c.count ∧
      (c.pop key).1.entries = besides key c.entries ∧
      (c.pop key).1.bytes = charges (c.pop key).1.entries ∧
      (values c.entries).Perm (((c.pop key).2.map fun value => (key, value)).toList ++
        values (c.pop key).1.entries) := by
  have entries' : (c.pop key).1.entries = besides key c.entries := lru.entries_pop c.map key
  refine ⟨rfl, rfl, entries', ?_, ?_⟩
  · rw [entries']
    show c.without (lru.pop c.map key).2 = _
    rw [lru.pop_value]
    exact without_eq c total word key
  · rw [entries']
    have parts := (perm_besides c key).map fun e => (e.1, e.2.1)
    rw [List.map_append] at parts
    show (values c.entries).Perm ((((lru.pop c.map key).2.map Prod.fst).map _).toList ++ _)
    rw [lru.pop_value]
    change (values c.entries).Perm (List.map _ _ ++ values (besides key c.entries)) at parts
    cases held : c.entries.lookup key with
    | none =>
      rw [held] at parts
      rw [show (lru.entries c.map).lookup key = none from held]
      exact parts
    | some old =>
      rw [held] at parts
      rw [show (lru.entries c.map).lookup key = some old from held]
      exact parts

theorem popEach_spec (keys : List κ) (c : ByteLru lru) (total : c.bytes = charges c.entries)
    (word : c.bytes < 2 ^ 64) :
    (popEach keys c).1.most = c.most ∧ (popEach keys c).1.count = c.count ∧
      (popEach keys c).1.entries = c.entries.filter (fun e => decide (e.1 ∉ keys)) ∧
      (popEach keys c).1.bytes = charges (popEach keys c).1.entries ∧
      (values c.entries).Perm ((popEach keys c).2 ++ values (popEach keys c).1.entries) := by
  induction keys generalizing c with
  | nil =>
    refine ⟨rfl, rfl, ?_, total, List.Perm.refl _⟩
    show c.entries = _
    rw [List.filter_eq_self.mpr fun e _ => decide_eq_true List.not_mem_nil]
  | cons key rest ih =>
    obtain ⟨most, count, entries', total', parts⟩ := c.pop_spec total word key
    have light : (c.pop key).1.bytes < 2 ^ 64 := by
      have less := charges_sublist (besides_sublist key c.entries)
      rw [total', entries']
      omega
    obtain ⟨most', count', left, total'', parts'⟩ := ih (c.pop key).1 total' light
    unfold popEach
    refine ⟨most'.trans most, count'.trans count, ?_, total'', ?_⟩
    · rw [left, entries']
      unfold besides
      rw [List.filter_filter]
      apply List.filter_congr
      intro e _
      rw [← Bool.decide_and, decide_eq_decide, List.mem_cons, not_or, and_comm]
    · rw [List.append_assoc]
      exact parts.trans (parts'.append_left _)

/-! ### Every operation -/

/-- The total and a new entry's charge are a machine word together, where the entry is kept. -/
def Fits (c : ByteLru lru) : Op κ ν → Prop
  | .put key _ bytes =>
    c.most < bytes ∨ c.count = 0 ∨ charges (besides key c.entries) + bytes < 2 ^ 64
  | _ => True

/-- The values there are once an operation has brought its own. -/
def brings (c : ByteLru lru) : Op κ ν → List (κ × ν)
  | .put key value _ => (key, value) :: values c.entries
  | .getMut key change =>
    (values c.entries).map fun e => if e.1 = key then (e.1, change e.2) else e
  | _ => values c.entries

/-- The values an operation lets go of without a word: a replaced one, and what `clear` empties. -/
def drops (c : ByteLru lru) : Op κ ν → List (κ × ν)
  | .put key _ _ => (values c.entries).filter fun e => decide (e.1 = key)
  | .clear => values c.entries
  | _ => []

/-- What an operation does to a cache. -/
structure Right (c : ByteLru lru) (op : Op κ ν) : Prop where
  sound : (c.step op).1.Sound
  handed : (c.brings op).Perm (values (c.step op).1.entries ++ (c.step op).2 ++ c.drops op)
  put : ∀ key value bytes, op = .put key value bytes → bytes ≤ c.most → c.count ≠ 0 →
    Trimmed c.most c.count ((key, value, bytes) :: besides key c.entries) (c.step op).1.entries
      (c.step op).2
  setMost : ∀ most, op = .setMost most →
    Trimmed most c.count c.entries (c.step op).1.entries (c.step op).2
  refused : ∀ key value bytes, op = .put key value bytes → c.most < bytes ∨ c.count = 0 →
    (c.step op).1.entries = besides key c.entries ∧ (c.step op).2 = [(key, value)]

omit [DecidableEq κ] in
theorem Trimmed.perm {most count : Nat} {entries kept : List (κ × ν × Nat)} {left : List (κ × ν)}
    (trimmed : Trimmed most count entries kept left) : (values entries).Perm (values kept ++ left) := by
  obtain ⟨_, gone, whole, handed, _⟩ := trimmed
  rw [whole, handed, values, List.map_append]
  exact ((values gone).reverse_perm.symm).append_left _

variable {c : ByteLru lru}

theorem Sound.light (sound : c.Sound) : c.bytes < 2 ^ 64 := by
  have light := sound.within.1
  have small := sound.word
  have total := sound.total
  omega

/-- A key's values and the others'. -/
theorem values_split (key : κ) (entries : List (κ × ν × Nat)) :
    (values entries).Perm
      (values (besides key entries) ++ (values entries).filter fun e => decide (e.1 = key)) := by
  have others : values (besides key entries) =
      (values entries).filter fun e => !decide (e.1 = key) := by
    unfold values besides
    rw [List.filter_map]
    apply congrArg
    apply List.filter_congr
    intro e _
    exact decide_not
  rw [others]
  exact (List.perm_append_comm.trans (List.filter_append_perm _ _)).symm

theorem Sound.put (sound : c.Sound) (key : κ) (value : ν) (bytes : Nat)
    (fits : Fits c (.put key value bytes)) : c.Right (.put key value bytes) := by
  by_cases past : c.most < bytes ∨ c.count = 0
  · have entries' : (c.step (.put key value bytes)).1.entries = besides key c.entries := by
      show (c.put key value bytes).1.entries = _
      unfold ByteLru.put
      rw [if_pos past]
      exact lru.entries_pop c.map key
    have left : (c.step (.put key value bytes)).2 = [(key, value)] := by
      show (c.put key value bytes).2 = _
      unfold ByteLru.put
      rw [if_pos past]
    have most : (c.step (.put key value bytes)).1.most = c.most := by
      show (c.put key value bytes).1.most = _
      unfold ByteLru.put
      rw [if_pos past]
    have count : (c.step (.put key value bytes)).1.count = c.count := by
      show (c.put key value bytes).1.count = _
      unfold ByteLru.put
      rw [if_pos past]
    have total : (c.step (.put key value bytes)).1.bytes = charges (besides key c.entries) := by
      show (c.put key value bytes).1.bytes = _
      unfold ByteLru.put
      rw [if_pos past]
      show c.without (lru.pop c.map key).2 = _
      rw [lru.pop_value]
      exact without_eq c sound.total sound.light key
    constructor
    · constructor
      · rw [most]
        exact sound.word
      · rw [entries', total]
      · rw [entries', most, count]
        exact sound.within.sublist (besides_sublist key c.entries)
    · rw [entries', left]
      have parts := (values_split key c.entries).cons (key, value)
      rw [← List.cons_append] at parts
      exact parts.trans ((@List.perm_append_comm _ [(key, value)] _).append_right _)
    · intro key' value' bytes' same few some
      cases same
      omega
    · intro most same
      cases same
    · intro key' value' bytes' same _
      cases same
      exact ⟨entries', left⟩
  · have pushed : c.step (.put key value bytes) = trim { c with
        map := (lru.push c.map key (value, bytes)).1
        bytes := plus (c.without (lru.push c.map key (value, bytes)).2) bytes } := by
      show c.put key value bytes = _
      unfold ByteLru.put
      rw [if_neg past]
    generalize held : ({ c with
      map := (lru.push c.map key (value, bytes)).1
      bytes := plus (c.without (lru.push c.map key (value, bytes)).2) bytes } : ByteLru lru) = full
      at pushed
    have entries' : full.entries = (key, value, bytes) :: besides key c.entries := by
      rw [← held]
      exact lru.entries_push c.map key (value, bytes)
    have room : charges (besides key c.entries) + bytes < 2 ^ 64 := by
      rcases fits with more | none | room
      · omega
      · omega
      · exact room
    have bytes' : full.bytes = charges (besides key c.entries) + bytes := by
      rw [← held]
      show plus (c.without (lru.push c.map key (value, bytes)).2) bytes = _
      rw [lru.push_old, show c.without ((lru.entries c.map).lookup key) = _ from
        without_eq c sound.total sound.light key, plus_eq room]
    have total : full.bytes = charges full.entries := by
      rw [bytes', entries', charges_cons]
      exact Nat.add_comm _ _
    have spec := trimFrom_spec full.entries.length full (Nat.le_refl _) total (by omega)
    rw [show trimFrom full.entries.length full = c.step (.put key value bytes) from pushed.symm]
      at spec
    have most : full.most = c.most := by rw [← held]
    have count : full.count = c.count := by rw [← held]
    rw [most, count, entries'] at spec
    obtain ⟨most', count', total', trimmed⟩ := spec
    constructor
    · constructor
      · rw [most']
        exact sound.word
      · exact total'
      · rw [most', count']
        exact trimmed.within
    · have parts := (values_split key c.entries).cons (key, value)
      rw [← List.cons_append] at parts
      exact parts.trans (trimmed.perm.append_right _)
    · intro key' value' bytes' same _ _
      cases same
      exact trimmed
    · intro most same
      cases same
    · intro key' value' bytes' same more
      cases same
      exact absurd more past

theorem Sound.setMost (sound : c.Sound) (most : Nat) (word : most < 2 ^ 64) :
    c.Right (.setMost most) := by
  have spec := trimFrom_spec c.entries.length { c with most := most } (Nat.le_refl _) sound.total
    sound.light
  change (c.step (.setMost most)).1.most = most ∧ (c.step (.setMost most)).1.count = c.count ∧
    (c.step (.setMost most)).1.bytes = charges (c.step (.setMost most)).1.entries ∧
    Trimmed most c.count c.entries (c.step (.setMost most)).1.entries
      (c.step (.setMost most)).2 at spec
  obtain ⟨most', count', total', trimmed⟩ := spec
  constructor
  · constructor
    · rw [most']
      exact word
    · exact total'
    · rw [most', count']
      exact trimmed.within
  · show (values c.entries).Perm (_ ++ [])
    rw [List.append_nil]
    exact trimmed.perm
  · intro key value bytes same
    cases same
  · intro most₂ same
    cases same
    exact trimmed
  · intro key value bytes same
    cases same

/-- An operation that is neither a `put` nor a new bound, and leaves entries that were there. -/
theorem Right.of_fewer (op : Op κ ν) (notPut : ∀ key value bytes, op ≠ .put key value bytes)
    (notMost : ∀ most, op ≠ .setMost most) (sound : (c.step op).1.Sound)
    (handed : (c.brings op).Perm (values (c.step op).1.entries ++ (c.step op).2 ++ c.drops op)) :
    c.Right op where
  sound := sound
  handed := handed
  put key value bytes same := absurd same (notPut key value bytes)
  setMost most same := absurd same (notMost most)
  refused key value bytes same := absurd same (notPut key value bytes)

theorem Sound.touch (sound : c.Sound) (key : κ) (change : ν → ν) : c.Right (.getMut key change) := by
  have entries' : (c.step (.getMut key change)).1.entries =
      (((c.entries.lookup key).map fun held => (key, change held.1, held.2)).toList ++
        besides key c.entries) :=
    lru.entries_touch c.map key _
  have parts := perm_besides c key
  have kept : charges (c.step (.getMut key change)).1.entries = charges c.entries ∧
      (c.step (.getMut key change)).1.entries.length = c.entries.length := by
    rw [entries', charges_perm parts, parts.length_eq]
    cases c.entries.lookup key with
    | none => exact ⟨rfl, rfl⟩
    | some held =>
      rw [charges_append, charges_append]
      exact ⟨rfl, rfl⟩
  apply Right.of_fewer
  · intro key value bytes same
    cases same
  · intro most same
    cases same
  · constructor
    · exact sound.word
    · exact sound.total.trans kept.1.symm
    · exact ⟨kept.1.trans_le sound.within.1, kept.2.trans_le sound.within.2⟩
  · show ((values c.entries).map _).Perm (_ ++ [] ++ [])
    rw [List.append_nil, List.append_nil, entries']
    have others : (values (besides key c.entries)).map
        (fun e => if e.1 = key then (e.1, change e.2) else e) = values (besides key c.entries) := by
      apply List.map_congr_left ?_ |>.trans (List.map_id _)
      intro e inside
      obtain ⟨held, among, rfl⟩ := List.mem_map.mp inside
      rw [if_neg (of_decide_eq_true (List.mem_filter.mp among).2)]
      rfl
    have mapped := (parts.map fun e => (e.1, e.2.1)).map
      fun e => if e.1 = key then (e.1, change e.2) else e
    rw [List.map_append, List.map_append] at mapped
    change ((values c.entries).map _).Perm
      (_ ++ (values (besides key c.entries)).map _) at mapped
    rw [others] at mapped
    apply mapped.trans
    unfold values
    rw [List.map_append]
    cases c.entries.lookup key with
    | none => exact List.Perm.refl _
    | some held =>
      show ((if key = key then (key, change held.1) else (key, held.1)) :: _).Perm _
      rw [if_pos rfl]
      exact List.Perm.refl _

theorem Sound.step (sound : c.Sound) (op : Op κ ν) (allows : c.Allows op) (fits : Fits c op) :
    c.Right op := by
  cases op with
  | put key value bytes => exact sound.put key value bytes fits
  | setMost most => exact sound.setMost most allows
  | getMut key change => exact sound.touch key change
  | get key =>
    have touched := sound.touch key id
    have same : (values c.entries).map (fun e => if e.1 = key then (e.1, id e.2) else e) =
        values c.entries := by
      apply List.map_congr_left ?_ |>.trans (List.map_id _)
      intro e _
      split
      · rfl
      · rfl
    apply Right.of_fewer
    · intro key value bytes same
      cases same
    · intro most same
      cases same
    · exact touched.sound
    · have handed := touched.handed
      change ((values c.entries).map _).Perm _ at handed
      rw [same] at handed
      exact handed
  | peek key =>
    apply Right.of_fewer
    · intro key value bytes same
      cases same
    · intro most same
      cases same
    · exact sound
    · show (values c.entries).Perm (values c.entries ++ [] ++ [])
      rw [List.append_nil, List.append_nil]
  | contains key =>
    apply Right.of_fewer
    · intro key value bytes same
      cases same
    · intro most same
      cases same
    · exact sound
    · show (values c.entries).Perm (values c.entries ++ [] ++ [])
      rw [List.append_nil, List.append_nil]
  | pop key =>
    obtain ⟨most, count, entries', total, parts⟩ := c.pop_spec sound.total sound.light key
    apply Right.of_fewer
    · intro key value bytes same
      cases same
    · intro most same
      cases same
    · constructor
      · exact sound.word
      · exact total
      · show Within c.most c.count (c.pop key).1.entries
        rw [entries']
        exact sound.within.sublist (besides_sublist key c.entries)
    · show (values c.entries).Perm (values (c.pop key).1.entries ++
        ((c.pop key).2.map fun value => (key, value)).toList ++ [])
      rw [List.append_nil]
      exact parts.trans List.perm_append_comm
  | retain keep =>
    obtain ⟨most, count, entries', total, parts⟩ := popEach_spec
      ((c.entries.filter fun e => !keep e.1 e.2.1).map Prod.fst) c sound.total sound.light
    apply Right.of_fewer
    · intro key value bytes same
      cases same
    · intro most same
      cases same
    · constructor
      · exact Nat.lt_of_le_of_lt (Nat.le_of_eq most) sound.word
      · exact total
      · show Within (popEach _ c).1.most (popEach _ c).1.count (popEach _ c).1.entries
        rw [most, count, entries']
        exact sound.within.sublist List.filter_sublist
    · show (values c.entries).Perm (values (popEach _ c).1.entries ++ (popEach _ c).2 ++ [])
      rw [List.append_nil]
      exact parts.trans List.perm_append_comm
  | shed bytes entries =>
    obtain ⟨gone, most, count, total, whole, left⟩ := shedFrom_spec bytes entries c.entries.length
      0 0 c sound.total sound.light
    apply Right.of_fewer
    · intro key value bytes same
      cases same
    · intro most same
      cases same
    · constructor
      · exact Nat.lt_of_le_of_lt (Nat.le_of_eq most) sound.word
      · exact total
      · show Within (shedFrom bytes entries _ 0 0 c).1.most (shedFrom bytes entries _ 0 0 c).1.count
          (shedFrom bytes entries _ 0 0 c).1.entries
        rw [most, count]
        have part := List.sublist_append_left (shedFrom bytes entries c.entries.length 0 0 c).1.entries
          gone
        rw [← whole] at part
        exact sound.within.sublist part
    · show (values c.entries).Perm (values (shedFrom bytes entries _ 0 0 c).1.entries ++
        (shedFrom bytes entries _ 0 0 c).2 ++ [])
      rw [List.append_nil, left]
      have split : values c.entries = values (shedFrom bytes entries c.entries.length 0 0 c).1.entries ++
          values gone := by
        unfold values
        rw [← List.map_append, ← whole]
      rw [split]
      exact ((values gone).reverse_perm.symm).append_left _
  | clear =>
    apply Right.of_fewer
    · intro key value bytes same
      cases same
    · intro most same
      cases same
    · constructor
      · exact sound.word
      · show 0 = charges (lru.entries lru.empty)
        rw [lru.entries_empty]
        rfl
      · show Within c.most c.count (lru.entries lru.empty)
        rw [lru.entries_empty]
        exact ⟨Nat.zero_le _, Nat.zero_le _⟩
    · show (values c.entries).Perm (values (lru.entries lru.empty) ++ [] ++ values c.entries)
      rw [lru.entries_empty]
      exact List.Perm.refl _

end ByteLru

/-- Over every run of operations whose kept entries' charges fit a machine word with the total, on any
map of that order: the total is the entries' charges, within the bounds; and each further operation hands
back what leaves it, takes out the fewest of the least recently used it can, and of an entry past the
whole bound no other. -/
theorem run_bounded (lru : LruMap κ (ν × Nat)) (most count : Nat) (word : most < 2 ^ 64)
    (ops : List (ByteLru.Op κ ν))
    (legal : ((ByteLru.machine lru).only ByteLru.Fits).Legal
      ((ByteLru.new lru most).withCount count) ops) :
    let c := (ByteLru.machine lru).run ((ByteLru.new lru most).withCount count) ops
    c.Sound ∧ ∀ op, c.Allows op → ByteLru.Fits c op → c.Right op := by
  have begins : ((ByteLru.new lru most).withCount count).Sound := by
    constructor
    · exact word
    · show 0 = charges (lru.entries lru.empty)
      rw [lru.entries_empty]
      rfl
    · show ByteLru.Within most count (lru.entries lru.empty)
      rw [lru.entries_empty]
      exact ⟨Nat.zero_le _, Nat.zero_le _⟩
  have sound := Machine.run_invariant ((ByteLru.machine lru).only ByteLru.Fits) ByteLru.Sound
    (fun c op sound allowed => (sound.step op allowed.1 allowed.2).sound) _ ops begins legal
  exact ⟨sound, fun op allows fits => sound.step op allows fits⟩

section runs

instance decidableAllows {lru : LruMap κ (ν × Nat)} (c : ByteLru lru) (op : ByteLru.Op κ ν) :
    Decidable ((ByteLru.machine lru).Allows c op) :=
  match op with
  | .put _ _ bytes => inferInstanceAs (Decidable (bytes < 2 ^ 64))
  | .setMost most => inferInstanceAs (Decidable (most < 2 ^ 64))
  | .get _ => inferInstanceAs (Decidable True)
  | .getMut _ _ => inferInstanceAs (Decidable True)
  | .peek _ => inferInstanceAs (Decidable True)
  | .contains _ => inferInstanceAs (Decidable True)
  | .pop _ => inferInstanceAs (Decidable True)
  | .retain _ => inferInstanceAs (Decidable True)
  | .shed _ _ => inferInstanceAs (Decidable True)
  | .clear => inferInstanceAs (Decidable True)

instance decidableFits {lru : LruMap κ (ν × Nat)} (c : ByteLru lru) (op : ByteLru.Op κ ν) :
    Decidable (ByteLru.Fits c op) :=
  match op with
  | .put key _ bytes => inferInstanceAs (Decidable (c.most < bytes ∨ c.count = 0 ∨
      charges (ByteLru.besides key c.entries) + bytes < 2 ^ 64))
  | .setMost _ => inferInstanceAs (Decidable True)
  | .get _ => inferInstanceAs (Decidable True)
  | .getMut _ _ => inferInstanceAs (Decidable True)
  | .peek _ => inferInstanceAs (Decidable True)
  | .contains _ => inferInstanceAs (Decidable True)
  | .pop _ => inferInstanceAs (Decidable True)
  | .retain _ => inferInstanceAs (Decidable True)
  | .shed _ _ => inferInstanceAs (Decidable True)
  | .clear => inferInstanceAs (Decidable True)

instance {lru : LruMap κ (ν × Nat)} (c : ByteLru lru) (op : ByteLru.Op κ ν) :
    Decidable (((ByteLru.machine lru).only ByteLru.Fits).Allows c op) :=
  inferInstanceAs (Decidable ((ByteLru.machine lru).Allows c op ∧ ByteLru.Fits c op))

/-- Two kept, one of them read, the other dropped for a third, which is put anew; then a lower bound. -/
def used : List (ByteLru.Op String Nat) :=
  [.put "a" 1 40, .put "b" 2 40, .get "a", .put "c" 3 40, .getMut "a" (· + 10), .put "c" 4 60,
    .shed 1 5, .retain fun key _ => key == "c", .setMost 50, .put "d" 5 51]

theorem used_legal : ((ByteLru.machine (LruMap.ofList String (Nat × Nat))).only ByteLru.Fits).Legal
    ((ByteLru.new _ 100).withCount 3) used := by
  decide +kernel

theorem used_bounded :
    let c := (ByteLru.machine (LruMap.ofList String (Nat × Nat))).run
      ((ByteLru.new _ 100).withCount 3) used
    c.Sound ∧ c.Right (.put "e" 6 10) := by
  have bounded := run_bounded (LruMap.ofList String (Nat × Nat)) 100 3 (by decide) used used_legal
  exact ⟨bounded.1, bounded.2 (.put "e" 6 10) (show 10 < 2 ^ 64 by decide) (by decide +kernel)⟩

/-- `clear` hands nothing back; and with no bound on the bytes a charge wraps the total. -/
theorem clear_wraps :
    (∃ c : ByteLru (LruMap.ofList String (Nat × Nat)), c = ((ByteLru.new _ 100).put "a" 1 40).1 ∧
      c.Sound ∧ values c.entries = [("a", 1)] ∧ (c.step .clear).1.entries = [] ∧
        (c.step .clear).2 = []) ∧
    ∃ c : ByteLru (LruMap.ofList String (Nat × Nat)),
      c = ((ByteLru.new _ (2 ^ 64 - 1)).put "a" 1 (2 ^ 64 - 1)).1 ∧ c.Sound ∧
        (c.put "b" 2 1).1.bytes = 0 ∧ charges (c.put "b" 2 1).1.entries = 2 ^ 64 :=
  ⟨⟨_, rfl, ⟨by decide +kernel, by decide +kernel, by decide +kernel, by decide +kernel⟩,
    by decide +kernel, rfl, rfl⟩, ⟨_, rfl, ⟨by decide +kernel, by decide +kernel, by decide +kernel,
    by decide +kernel⟩, by decide +kernel, by decide +kernel⟩⟩

end runs

end bounded

end Pondra.Ledger
