import Pondra.Ledger.ByteLru

set_option autoImplicit false

namespace Pondra.Ledger

open Machines

/-! ### The line, and a lake's part of it -/

/-- A lake's consumers and what they hold. -/
structure Part where
  consumers : Nat
  spillers : Nat
  spillable : Nat
  unspillable : Nat
  deriving DecidableEq

/-- What a consumer of a lake's pool holds. -/
structure Reservation where
  lake : Nat
  spills : Bool
  size : Nat
  deriving DecidableEq

/-- A cache charged to the line, in the order they give back: what it holds now, and what it would give
back at most. -/
structure Cache where
  name : String
  inside : Bool
  held : Nat
  gives : Nat
  deriving DecidableEq

/-- The line, its lakes' parts and their reservations. -/
structure Line where
  line : Nat
  whole : Nat
  hard : Bool
  reserved : Nat
  busy : Nat
  cached : Nat
  dry : Bool
  parts : List Part
  reservations : List Reservation
  deriving DecidableEq

def Part.of (p : Part) (spills : Bool) : Nat := if spills then p.spillable else p.unspillable

/-- The part with other bytes held of a kind. -/
def Part.with (p : Part) (spills : Bool) (held : Nat) : Part :=
  if spills then { p with spillable := held } else { p with unspillable := held }

namespace Line

/-- A lake's share now: the line among the lakes running queries, at least one. -/
def share (l : Line) : Nat := l.line / max l.busy 1

/-- What a lake's queries may hold now: the line less what the other lakes' hold; of a spiller at least
the lake's even share. -/
def room (l : Line) (p : Part) (spills : Bool) : Nat :=
  let free := l.line - (l.reserved - plus p.spillable p.unspillable)
  if spills then max free l.share else free

/-- A spiller's part of what the lake's unspillable memory leaves of its room. -/
def partOf (l : Line) (p : Part) : Nat :=
  if p.spillers = 0 then l.room p true else (l.room p true - p.unspillable) / p.spillers

/-- What a reservation may grow by, and the lake's room. -/
def available (l : Line) (p : Part) (r : Reservation) : Nat × Nat :=
  (if r.spills then l.partOf p - r.size
    else l.room p false - plus p.unspillable p.spillable, l.room p r.spills)

/-- How far so much more would pass the whole line, beside what the caches hold; sums stop at the
largest word. -/
def excess (l : Line) (additional : Nat) : Nat :=
  min (min (l.reserved + additional) (2 ^ 64 - 1) + l.cached) (2 ^ 64 - 1) - l.whole

/-- What the caches inside the whole line hold, for the grows to go by. -/
def note (l : Line) (caches : List Cache) : Line :=
  { l with cached := ((caches.filter (·.inside)).map (·.held)).sum, dry := false }

/-- Asks caches for bytes, one after another until enough came back: what came back, and what of it from
caches inside the whole line. -/
def takeFrom (bytes : Nat) (insideOnly : Bool) (kind : Option String) :
    List Cache → Nat → Nat → Nat × Nat
  | [], freed, inside => (freed, inside)
  | c :: rest, freed, inside =>
    if bytes ≤ freed then (freed, inside)
    else if (insideOnly && !c.inside) || kind.any (fun kind => kind != c.name) then
      takeFrom bytes insideOnly kind rest freed inside
    else
      let got := min c.gives (bytes - freed)
      takeFrom bytes insideOnly kind rest (freed + got) (if c.inside then inside + got else inside)

def take (l : Line) (bytes : Nat) (insideOnly : Bool) (kind : Option String) (caches : List Cache) :
    Line × Nat :=
  let back := takeFrom bytes insideOnly kind caches 0 0
  ({ l with cached := l.cached - back.2 }, back.1)

def register (l : Line) (lake : Nat) (spills : Bool) : Line :=
  match l.parts[lake]? with
  | none => l
  | some p => { l with
      busy := if p.consumers = 0 then l.busy + 1 else l.busy
      parts := l.parts.set lake { p with
        consumers := p.consumers + 1
        spillers := p.spillers + spills.toNat } }

def unregister (l : Line) (lake : Nat) (spills : Bool) : Line :=
  match l.parts[lake]? with
  | none => l
  | some p => { l with
      busy := if p.consumers - 1 = 0 then l.busy - 1 else l.busy
      parts := l.parts.set lake { p with
        consumers := p.consumers - 1
        spillers := p.spillers - spills.toNat } }

/-- A reservation holds so much more: in its lake's part, in the line's total and in its own size. -/
def add (l : Line) (i : Nat) (r : Reservation) (p : Part) (additional : Nat) : Line :=
  { l with
    reserved := plus l.reserved additional
    parts := l.parts.set r.lake (p.with r.spills (plus (p.of r.spills) additional))
    reservations := l.reservations.set i { r with size := r.size + additional } }

def grow (l : Line) (i additional : Nat) : Line :=
  match l.reservations[i]? with
  | none => l
  | some r =>
    match l.parts[r.lake]? with
    | none => l
    | some p => l.add i r p additional

def shrink (l : Line) (i less : Nat) : Line :=
  match l.reservations[i]? with
  | none => l
  | some r =>
    match l.parts[r.lake]? with
    | none => l
    | some p => { l with
        reserved := minus l.reserved less
        parts := l.parts.set r.lake (p.with r.spills (p.of r.spills - less))
        reservations := l.reservations.set i { r with size := r.size - less } }

/-- Notes the caches first where the last look is too old. -/
def fresh (l : Line) (stale : Bool) (caches : List Cache) : Line :=
  if stale then l.note caches else l

/-- Asks the caches inside the whole line for what passes it, unless they came back short since the last
look: whether they come back short. -/
def ask (l : Line) (additional : Nat) (caches : List Cache) : Line × Bool :=
  if l.dry then (l, true)
  else
    let taken := l.take (l.excess additional) true none caches
    let short := decide (taken.2 < l.excess additional)
    ({ taken.1 with dry := l.dry || short }, short)

/-- A grow that may be refused, with what is available and the room. -/
def tryGrowOf (l : Line) (i : Nat) (r : Reservation) (p : Part) (additional : Nat)
    (caches : List Cache) : Line × Except (Nat × Nat) Unit :=
  if (l.available p r).1 < additional then (l, .error (l.available p r))
  else if l.excess additional = 0 then (l.add i r p additional, .ok ())
  else
    let asked := l.ask additional caches
    -- (the share is read again, after the caches were asked outside the lake's lock)
    if l.dry = false ∧ (asked.1.available p r).1 < additional then
      (asked.1, .error (asked.1.available p r))
    else if asked.2 = true ∧ l.hard = true ∧ r.spills = true ∧ 0 < r.size then
      (asked.1, .error (0, asked.1.room p true))
    else (asked.1.add i r p additional, .ok ())

def tryGrow (l : Line) (i additional : Nat) (stale : Bool) (caches : List Cache) :
    Line × Except (Nat × Nat) Unit :=
  match (l.fresh stale caches).reservations[i]? with
  | none => (l, .ok ())
  | some r =>
    match (l.fresh stale caches).parts[r.lake]? with
    | none => (l, .ok ())
    | some p => (l.fresh stale caches).tryGrowOf i r p additional caches

inductive Op where
  /-- A new lake's pool. -/
  | pool
  | register (lake : Nat) (spills : Bool)
  | unregister (lake : Nat) (spills : Bool)
  /-- A consumer's new reservation, which holds nothing yet. -/
  | reserve (lake : Nat) (spills : Bool)
  | grow (i additional : Nat)
  | shrink (i less : Nat)
  | tryGrow (i additional : Nat) (stale : Bool) (caches : List Cache)
  /-- The memory watch's look, and its taking memory back; a load's decode, while it runs. -/
  | note (caches : List Cache)
  | giveBack (bytes : Nat) (kind : Option String) (caches : List Cache)
  | cacheGrew (bytes : Nat)
  | cacheShrank (bytes : Nat)

def next (l : Line) : Op → Line
  | .pool => { l with parts := l.parts ++ [⟨0, 0, 0, 0⟩] }
  | .register lake spills => l.register lake spills
  | .unregister lake spills => l.unregister lake spills
  | .reserve lake spills => { l with reservations := l.reservations ++ [⟨lake, spills, 0⟩] }
  | .grow i additional => l.grow i additional
  | .shrink i less => l.shrink i less
  | .tryGrow i additional stale caches => (l.tryGrow i additional stale caches).1
  | .note caches => l.note caches
  | .giveBack bytes kind caches => (l.take bytes false kind caches).1
  | .cacheGrew bytes => { l with cached := plus l.cached bytes }
  | .cacheShrank bytes => { l with cached := l.cached - bytes }

/-- A reservation is of a lake there is, a consumer unregistered once for each time it was registered, and
nothing shrunk below what it holds. -/
def Allows (l : Line) : Op → Prop
  | .register lake _ => lake < l.parts.length
  | .unregister lake spills =>
    ∃ p ∈ l.parts[lake]?, if spills then 0 < p.spillers else p.spillers < p.consumers
  | .reserve lake _ => lake < l.parts.length
  | .shrink i less => ∃ r ∈ l.reservations[i]?, less ≤ r.size
  | _ => True

def machine : Machine Line Op := ⟨next, Allows⟩

/-- A line with no lake yet. -/
def new (line whole : Nat) (hard : Bool) : Line := ⟨line, whole, hard, 0, 0, 0, false, [], []⟩

end Line

/-! ### The accounts -/

/-- What the lakes hold together. -/
def total (parts : List Part) : Nat := (parts.map fun p => p.spillable + p.unspillable).sum

/-- How many lakes have a consumer. -/
def running (parts : List Part) : Nat := (parts.map fun p => if 0 < p.consumers then 1 else 0).sum

/-- What a lake's reservations of a kind hold together. -/
def heldBy (reservations : List Reservation) (lake : Nat) (spills : Bool) : Nat :=
  (reservations.map fun r => if r.lake = lake ∧ r.spills = spills then r.size else 0).sum

theorem sum_set {α : Type} (f : α → Nat) (l : List α) (i : Nat) (a b : α) (found : l[i]? = some a) :
    ((l.set i b).map f).sum + f a = (l.map f).sum + f b := by
  induction l generalizing i with
  | nil => cases found
  | cons x rest ih =>
    cases i with
    | zero =>
      obtain rfl := Option.some.inj found
      simp only [List.set_cons_zero, List.map_cons, List.sum_cons]
      omega
    | succ i =>
      have later := ih i found
      simp only [List.set_cons_succ, List.map_cons, List.sum_cons]
      omega

theorem sum_mem {α : Type} (f : α → Nat) (l : List α) (i : Nat) (a : α) (found : l[i]? = some a) :
    f a ≤ (l.map f).sum := by
  induction l generalizing i with
  | nil => cases found
  | cons x rest ih =>
    rw [List.map_cons, List.sum_cons]
    cases i with
    | zero =>
      obtain rfl := Option.some.inj found
      omega
    | succ i =>
      have later := ih i found
      omega

@[simp] theorem Part.with_of (p : Part) (spills : Bool) (held : Nat) :
    (p.with spills held).of spills = held := by
  cases spills with
  | false => rfl
  | true => rfl

@[simp] theorem Part.with_of_not (p : Part) (spills : Bool) (held : Nat) :
    (p.with spills held).of (!spills) = p.of (!spills) := by
  cases spills with
  | false => rfl
  | true => rfl

theorem Part.of_add (p : Part) (spills : Bool) :
    p.spillable + p.unspillable = p.of spills + p.of (!spills) := by
  cases spills with
  | false => exact Nat.add_comm _ _
  | true => rfl

@[simp] theorem Part.with_consumers (p : Part) (spills : Bool) (held : Nat) :
    (p.with spills held).consumers = p.consumers := by
  cases spills with
  | false => rfl
  | true => rfl

@[simp] theorem Part.with_spillers (p : Part) (spills : Bool) (held : Nat) :
    (p.with spills held).spillers = p.spillers := by
  cases spills with
  | false => rfl
  | true => rfl

namespace Line

/-- `reserved` is what the lakes hold, and `busy` how many have a consumer. -/
structure Exact (l : Line) : Prop where
  reserved : l.reserved = total l.parts
  busy : l.busy = running l.parts

structure Inv (l : Line) : Prop where
  exact : l.Exact
  word : l.reserved < 2 ^ 64
  lakes : ∀ r ∈ l.reservations, r.lake < l.parts.length
  parts : ∀ lake p, l.parts[lake]? = some p → p.spillers ≤ p.consumers ∧
    ∀ spills, p.of spills = heldBy l.reservations lake spills

/-- What is reserved, asked for and counted of the caches is a machine word together. -/
def Fits (l : Line) : Op → Prop
  | .grow _ additional => l.reserved + additional < 2 ^ 64
  | .tryGrow _ additional stale caches =>
    l.reserved + additional + (l.fresh stale caches).cached < 2 ^ 64
  | _ => True

variable {l : Line}

/-- A line that differs in what is said of the caches. -/
theorem Inv.caches (inv : l.Inv) (cached : Nat) (dry : Bool) :
    ({ l with cached := cached, dry := dry } : Line).Inv :=
  ⟨⟨inv.exact.reserved, inv.exact.busy⟩, inv.word, inv.lakes, inv.parts⟩

theorem Inv.light (inv : l.Inv) {lake : Nat} {p : Part} (found : l.parts[lake]? = some p) :
    p.spillable + p.unspillable ≤ l.reserved := by
  rw [inv.exact.reserved]
  exact sum_mem (fun p => p.spillable + p.unspillable) l.parts lake p found

/-- What each reservation holds is among its lake's. -/
theorem Inv.size (inv : l.Inv) {i : Nat} {r : Reservation} {p : Part}
    (here : l.reservations[i]? = some r) (found : l.parts[r.lake]? = some p) :
    r.size ≤ p.of r.spills := by
  rw [(inv.parts r.lake p found).2]
  have among := sum_mem (fun s : Reservation => if s.lake = r.lake ∧ s.spills = r.spills then s.size
    else 0) l.reservations i r here
  rw [if_pos ⟨rfl, rfl⟩] at among
  exact among

/-- A reservation's size, its lake's part and the line's total move together. -/
theorem Inv.move (inv : l.Inv) {i : Nat} {r : Reservation} {p : Part}
    (here : l.reservations[i]? = some r) (found : l.parts[r.lake]? = some p) (size reserved : Nat)
    (held : Nat) (kept : held + r.size = p.of r.spills + size)
    (whole : reserved + r.size = l.reserved + size) (word : reserved < 2 ^ 64) :
    ({ l with
      reserved := reserved
      parts := l.parts.set r.lake (p.with r.spills held)
      reservations := l.reservations.set i { r with size := size } } : Line).Inv := by
  have split := p.of_add r.spills
  have split' := (p.with r.spills held).of_add r.spills
  rw [Part.with_of, Part.with_of_not] at split'
  constructor
  · constructor
    · show reserved = total (l.parts.set r.lake _)
      have sums := sum_set (fun p : Part => p.spillable + p.unspillable) l.parts r.lake p
        (p.with r.spills held) found
      have before := inv.exact.reserved
      unfold total at before ⊢
      omega
    · show l.busy = running (l.parts.set r.lake _)
      have sums := sum_set (fun p : Part => if 0 < p.consumers then 1 else 0) l.parts r.lake p
        (p.with r.spills held) found
      have before := inv.exact.busy
      unfold running at before ⊢
      rw [Part.with_consumers] at sums
      omega
  · exact word
  · intro s inside
    rw [List.length_set]
    rcases List.mem_or_eq_of_mem_set inside with old | rfl
    · exact inv.lakes s old
    · exact inv.lakes r (List.mem_of_getElem? here)
  · intro lake q at'
    have sums (spills : Bool) := sum_set
      (fun s : Reservation => if s.lake = lake ∧ s.spills = spills then s.size else 0)
      l.reservations i r { r with size := size } here
    by_cases mine : lake = r.lake
    · subst mine
      have bound := (List.getElem?_eq_some_iff.mp found).1
      rw [List.getElem?_set_self bound] at at'
      obtain rfl := Option.some.inj at'
      have before := inv.parts r.lake p found
      refine ⟨?_, fun spills => ?_⟩
      · rw [Part.with_spillers, Part.with_consumers]
        exact before.1
      · have old := before.2 spills
        have sums := sums spills
        unfold heldBy at old ⊢
        dsimp only
        by_cases kind : r.spills = spills
        · subst kind
          simp only [and_self, if_true] at sums
          rw [Part.with_of]
          omega
        · rw [if_neg fun both => kind both.2, if_neg fun both => kind both.2] at sums
          have other : spills = !r.spills := Bool.eq_not.mpr fun same => kind same.symm
          subst other
          rw [Part.with_of_not]
          omega
    · rw [List.getElem?_set_ne (Ne.symm mine)] at at'
      have before := inv.parts lake q at'
      refine ⟨before.1, fun spills => ?_⟩
      have old := before.2 spills
      have sums := sums spills
      unfold heldBy at old ⊢
      dsimp only
      rw [if_neg fun both => mine both.1.symm, if_neg fun both => mine both.1.symm] at sums
      omega

theorem Inv.add (inv : l.Inv) {i : Nat} {r : Reservation} {p : Part}
    (here : l.reservations[i]? = some r) (found : l.parts[r.lake]? = some p) (additional : Nat)
    (fits : l.reserved + additional < 2 ^ 64) : (l.add i r p additional).Inv := by
  have light := inv.light found
  have split := p.of_add r.spills
  unfold Line.add
  rw [plus_eq fits, plus_eq (by omega : p.of r.spills + additional < 2 ^ 64)]
  exact inv.move here found _ _ _ (by omega) (by omega) fits

theorem Inv.shrink (inv : l.Inv) (i less : Nat) (allows : l.Allows (.shrink i less)) :
    (l.shrink i less).Inv := by
  unfold Line.shrink
  split
  · exact inv
  rename_i r here
  split
  · exact inv
  rename_i p found
  obtain ⟨r', here', under⟩ := allows
  rw [here] at here'
  obtain rfl := Option.some.inj here'
  have size := inv.size here found
  have light := inv.light found
  have split := p.of_add r.spills
  have word := inv.word
  rw [minus_eq (by omega) word]
  exact inv.move here found _ _ _ (by omega) (by omega) (by omega)

/-- A lake's counts of consumers move, and what it holds stays. -/
theorem Inv.count (inv : l.Inv) {lake : Nat} {p : Part} (found : l.parts[lake]? = some p)
    (consumers spillers busy : Nat) (few : spillers ≤ consumers)
    (counts : busy + (if 0 < p.consumers then 1 else 0) =
      l.busy + if 0 < consumers then 1 else 0) :
    ({ l with
      busy := busy
      parts := l.parts.set lake { p with consumers := consumers, spillers := spillers } } :
        Line).Inv := by
  constructor
  · constructor
    · show l.reserved = total (l.parts.set lake _)
      have sums := sum_set (fun p : Part => p.spillable + p.unspillable) l.parts lake p
        { p with consumers := consumers, spillers := spillers } found
      have before := inv.exact.reserved
      unfold total at before ⊢
      simp only at sums
      omega
    · show busy = running (l.parts.set lake _)
      have sums := sum_set (fun p : Part => if 0 < p.consumers then 1 else 0) l.parts lake p
        { p with consumers := consumers, spillers := spillers } found
      have before := inv.exact.busy
      unfold running at before ⊢
      simp only at sums
      omega
  · exact inv.word
  · intro r inside
    rw [List.length_set]
    exact inv.lakes r inside
  · intro other q at'
    by_cases mine : other = lake
    · subst mine
      rw [List.getElem?_set_self (List.getElem?_eq_some_iff.mp found).1] at at'
      obtain rfl := Option.some.inj at'
      exact ⟨few, fun spills => (inv.parts other p found).2 spills⟩
    · rw [List.getElem?_set_ne (Ne.symm mine)] at at'
      exact inv.parts other q at'

theorem Inv.register (inv : l.Inv) (lake : Nat) (spills : Bool) : (l.register lake spills).Inv := by
  unfold Line.register
  split
  · exact inv
  rename_i p found
  have few := (inv.parts lake p found).1
  have one := spills.toNat_le
  apply inv.count found
  · omega
  · split
    · rename_i none
      rw [none]
      rfl
    · rename_i some
      rw [if_pos (by omega), if_pos (by omega)]

theorem Inv.unregister (inv : l.Inv) (lake : Nat) (spills : Bool)
    (allows : l.Allows (.unregister lake spills)) : (l.unregister lake spills).Inv := by
  unfold Line.unregister
  split
  · exact inv
  rename_i p found
  obtain ⟨q, found', some⟩ := allows
  rw [found] at found'
  obtain rfl := Option.some.inj found'
  have few := (inv.parts lake p found).1
  have consumers : 0 < p.consumers ∧ p.spillers - spills.toNat ≤ p.consumers - 1 := by
    cases spills with
    | false =>
      have some : p.spillers < p.consumers := some
      exact ⟨by omega, by rw [Bool.toNat_false]; omega⟩
    | true =>
      have some : 0 < p.spillers := some
      exact ⟨by omega, by rw [Bool.toNat_true]; omega⟩
  -- the lake is one of those counted
  have counted := sum_mem (fun p : Part => if 0 < p.consumers then 1 else 0) l.parts lake p found
  have before := inv.exact.busy
  unfold running at before
  rw [if_pos consumers.1] at counted
  apply inv.count found
  · exact consumers.2
  · rw [if_pos consumers.1]
    split
    · rename_i none
      rw [none, if_neg (by omega)]
      omega
    · rename_i more
      rw [if_pos (by omega)]

theorem Inv.pool (inv : l.Inv) : (l.next .pool).Inv := by
  constructor
  · constructor
    · show l.reserved = total (l.parts ++ _)
      rw [total, List.map_append, List.sum_append]
      exact inv.exact.reserved
    · show l.busy = running (l.parts ++ _)
      rw [running, List.map_append, List.sum_append]
      exact inv.exact.busy
  · exact inv.word
  · intro r inside
    show r.lake < (l.parts ++ _).length
    rw [List.length_append]
    exact Nat.lt_add_right _ (inv.lakes r inside)
  · intro lake p found
    have found : (l.parts ++ [⟨0, 0, 0, 0⟩])[lake]? = some p := found
    by_cases old : lake < l.parts.length
    · rw [List.getElem?_append_left old] at found
      exact inv.parts lake p found
    · rw [List.getElem?_append_right (by omega)] at found
      have new : p = ⟨0, 0, 0, 0⟩ := List.mem_singleton.mp (List.mem_of_getElem? found)
      subst new
      refine ⟨Nat.le_refl _, fun spills => ?_⟩
      -- no reservation is of a lake that was not there
      have none : heldBy l.reservations lake spills = 0 := by
        unfold heldBy
        rw [List.sum_eq_zero]
        intro size inside
        obtain ⟨r, among, rfl⟩ := List.mem_map.mp inside
        have bound := inv.lakes r among
        rw [if_neg (by omega)]
      show Part.of _ spills = heldBy l.reservations lake spills
      rw [none]
      cases spills with
      | false => rfl
      | true => rfl

theorem Inv.reserve (inv : l.Inv) (lake : Nat) (spills : Bool) (here : lake < l.parts.length) :
    (l.next (.reserve lake spills)).Inv where
  exact := ⟨inv.exact.reserved, inv.exact.busy⟩
  word := inv.word
  lakes r inside := by
    rcases List.mem_append.mp inside with old | new
    · exact inv.lakes r old
    · rw [List.mem_singleton.mp new]
      exact here
  parts other p found := by
    refine ⟨(inv.parts other p found).1, fun kind => ?_⟩
    show p.of kind = heldBy (l.reservations ++ _) other kind
    rw [heldBy, List.map_append, List.sum_append, (inv.parts other p found).2 kind]
    simp [heldBy]

/-! ### A grow that may be refused -/

/-- What is asked of caches inside the whole line alone is counted. -/
theorem takeFrom_inside (bytes : Nat) (kind : Option String) (caches : List Cache) (freed : Nat) :
    (takeFrom bytes true kind caches freed freed).2 = (takeFrom bytes true kind caches freed freed).1 := by
  induction caches generalizing freed with
  | nil => rfl
  | cons c rest ih =>
    unfold takeFrom
    split
    · rfl
    · split
      · exact ih freed
      · rename_i _ asked
        have inside : c.inside = true := by
          cases held : c.inside with
          | true => rfl
          | false =>
            rw [held] at asked
            exact absurd rfl asked
        simp only [inside, if_true]
        exact ih _

/-- What the caches would give back to a grow that asked them for what passes the whole line. -/
def back (l : Line) (additional : Nat) (caches : List Cache) : Nat :=
  (takeFrom (l.excess additional) true none caches 0 0).1

/-- How a grow ends: refused, with nothing but the count of the caches moved, or within what is available;
and of a spiller that holds memory already, on a hard line, where what passes the whole line came back. -/
inductive Ends (l : Line) (i : Nat) (r : Reservation) (p : Part) (additional : Nat)
    (caches : List Cache) : Line × Except (Nat × Nat) Unit → Prop
  | refused (cached : Nat) (dry : Bool) (why : Nat × Nat) :
    Ends l i r p additional caches ({ l with cached := cached, dry := dry }, .error why)
  | grown (cached : Nat) (dry : Bool) (within : additional ≤ (l.available p r).1)
    (covered : l.hard = true → r.spills = true → 0 < r.size →
      l.excess additional = 0 ∧ cached = l.cached ∨
        l.excess additional ≤ l.back additional caches ∧ cached = l.cached - l.back additional caches) :
    Ends l i r p additional caches
      (({ l with cached := cached, dry := dry } : Line).add i r p additional, .ok ())

theorem ask_spec (l : Line) (additional : Nat) (caches : List Cache) :
    ∃ cached dry, (l.ask additional caches).1 = { l with cached := cached, dry := dry } ∧
      ((l.ask additional caches).2 = false → l.excess additional ≤ l.back additional caches ∧
        cached = l.cached - l.back additional caches) := by
  unfold ask
  split
  · refine ⟨l.cached, l.dry, rfl, fun enough => ?_⟩
    cases enough
  · refine ⟨_, _, rfl, fun enough => ⟨Nat.le_of_not_lt (of_decide_eq_false enough), ?_⟩⟩
    show l.cached - (takeFrom (l.excess additional) true none caches 0 0).2 = _
    rw [takeFrom_inside]
    rfl

theorem tryGrowOf_ends (l : Line) (i : Nat) (r : Reservation) (p : Part) (additional : Nat)
    (caches : List Cache) : Ends l i r p additional caches (l.tryGrowOf i r p additional caches) := by
  unfold tryGrowOf
  split
  · exact .refused l.cached l.dry _
  rename_i within
  split
  · rename_i none
    exact .grown l.cached l.dry (Nat.le_of_not_lt within) fun _ _ _ => .inl ⟨none, rfl⟩
  obtain ⟨cached, dry, same, enough⟩ := l.ask_spec additional caches
  dsimp only
  rw [same]
  split
  · exact .refused cached dry _
  · split
    · exact .refused cached dry _
    · rename_i soft
      refine .grown cached dry (Nat.le_of_not_lt within) fun hard spills some => .inr (enough ?_)
      cases short : (l.ask additional caches).2 with
      | false => rfl
      | true => exact absurd ⟨short, hard, spills, some⟩ soft

/-- What the caches inside the whole line give back to this grow is what they are counted for. -/
def Counted (l : Line) (additional : Nat) (caches : List Cache) : Prop :=
  l.back additional caches ≤ l.cached

/-- What a grow that may be refused does: nothing to the accounts where it fails; and where it succeeds,
for some bytes, what can't spill is within the line, a spiller within its part, and on a hard line one that
holds memory already within the whole line with the caches counted. -/
structure Grows (l : Line) (i additional : Nat) (stale : Bool) (caches : List Cache) : Prop where
  refused : ∀ why, (l.tryGrow i additional stale caches).2 = .error why →
    (l.tryGrow i additional stale caches).1.parts = l.parts ∧
    (l.tryGrow i additional stale caches).1.reservations = l.reservations ∧
    (l.tryGrow i additional stale caches).1.reserved = l.reserved ∧
    (l.tryGrow i additional stale caches).1.busy = l.busy
  grown : ∀ r p, l.reservations[i]? = some r → l.parts[r.lake]? = some p →
    (l.tryGrow i additional stale caches).2 = .ok () →
      (l.tryGrow i additional stale caches).1.reservations =
        l.reservations.set i { r with size := r.size + additional } ∧
      (0 < additional → r.spills = false →
        total (l.tryGrow i additional stale caches).1.parts ≤ l.line) ∧
      (0 < additional → r.spills = true → r.size + additional ≤ l.partOf p) ∧
      (l.hard = true → r.spills = true → 0 < r.size →
        (l.fresh stale caches).Counted additional caches →
        total (l.tryGrow i additional stale caches).1.parts +
          (l.tryGrow i additional stale caches).1.cached ≤ l.whole)

theorem Inv.fresh (inv : l.Inv) (stale : Bool) (caches : List Cache) : (l.fresh stale caches).Inv := by
  unfold Line.fresh
  split
  · exact inv.caches _ _
  · exact inv

theorem fresh_eq (l : Line) (stale : Bool) (caches : List Cache) :
    ∃ cached dry, l.fresh stale caches = { l with cached := cached, dry := dry } := by
  unfold Line.fresh
  split
  · exact ⟨_, _, rfl⟩
  · exact ⟨l.cached, l.dry, rfl⟩

theorem Inv.tryGrow (inv : l.Inv) (i additional : Nat) (stale : Bool) (caches : List Cache)
    (fits : Fits l (.tryGrow i additional stale caches)) :
    (l.tryGrow i additional stale caches).1.Inv := by
  have fresh := inv.fresh stale caches
  have same : (l.fresh stale caches).reserved = l.reserved := by
    obtain ⟨cached, dry, same⟩ := fresh_eq l stale caches
    rw [same]
  have fits : l.reserved + additional + (l.fresh stale caches).cached < 2 ^ 64 := fits
  unfold Line.tryGrow
  split
  · exact inv
  rename_i r here
  split
  · exact inv
  rename_i p found
  have ends := tryGrowOf_ends (l.fresh stale caches) i r p additional caches
  generalize (l.fresh stale caches).tryGrowOf i r p additional caches = result at ends
  cases ends with
  | refused cached dry why => exact fresh.caches cached dry
  | grown cached dry _ _ =>
    exact (fresh.caches cached dry).add here found additional (by
      show (l.fresh stale caches).reserved + additional < 2 ^ 64
      omega)

theorem Inv.grows (inv : l.Inv) (i additional : Nat) (stale : Bool) (caches : List Cache)
    (fits : Fits l (.tryGrow i additional stale caches)) : l.Grows i additional stale caches := by
  have after := inv.tryGrow i additional stale caches fits
  have fits : l.reserved + additional + (l.fresh stale caches).cached < 2 ^ 64 := fits
  obtain ⟨cached₀, dry₀, same⟩ := fresh_eq l stale caches
  constructor
  · intro why
    unfold Line.tryGrow
    split
    · intro failed
      cases failed
    rename_i r here
    split
    · intro failed
      cases failed
    rename_i p found
    have ends := tryGrowOf_ends (l.fresh stale caches) i r p additional caches
    generalize (l.fresh stale caches).tryGrowOf i r p additional caches = result at ends
    cases ends with
    | refused cached dry _ =>
      intro _
      rw [same]
      exact ⟨rfl, rfl, rfl, rfl⟩
    | grown cached dry _ _ =>
      intro failed
      cases failed
  · intro r p here found taken
    have tried : l.tryGrow i additional stale caches =
        (l.fresh stale caches).tryGrowOf i r p additional caches := by
      unfold Line.tryGrow
      rw [same]
      simp only [here, found]
    rw [tried] at after taken ⊢
    have ends := tryGrowOf_ends (l.fresh stale caches) i r p additional caches
    generalize (l.fresh stale caches).tryGrowOf i r p additional caches = result
      at ends after taken
    cases ends with
    | refused cached dry _ => cases taken
    | grown cached dry within covered =>
      have sum := after.exact.reserved
      have light := inv.light found
      have size := inv.size here found
      have split := p.of_add r.spills
      have reserved : ((({ l.fresh stale caches with cached := cached, dry := dry } : Line).add i r p
          additional).reserved) = l.reserved + additional := by
        rw [same]
        exact plus_eq (show l.reserved + additional < 2 ^ 64 by omega)
      rw [reserved] at sum
      have rooms : (l.fresh stale caches).available p r = l.available p r := by rw [same]; rfl
      rw [rooms] at within
      refine ⟨by rw [same]; rfl, fun some kind => ?_, fun some kind => ?_, fun hard kind some counted => ?_⟩
      · rw [← sum]
        unfold Line.available Line.room at within
        rw [kind] at within
        have word := inv.word
        rw [plus_eq (show p.spillable + p.unspillable < 2 ^ 64 by omega),
          plus_eq (show p.unspillable + p.spillable < 2 ^ 64 by omega)] at within
        simp only [Bool.false_eq_true, if_false] at within
        omega
      · unfold Line.available at within
        rw [kind] at within
        simp only [if_true] at within
        omega
      · rw [← sum]
        have covered := covered (by rw [same]; exact hard) kind some
        have whole : (l.fresh stale caches).whole = l.whole := by rw [same]
        have same' : (l.fresh stale caches).reserved = l.reserved := by rw [same]
        have excess : (l.fresh stale caches).excess additional =
            l.reserved + additional + (l.fresh stale caches).cached - l.whole := by
          unfold Line.excess
          rw [whole, same']
          omega
        rw [excess] at covered
        have counted : (l.fresh stale caches).back additional caches ≤
          (l.fresh stale caches).cached := counted
        show l.reserved + additional + cached ≤ l.whole
        omega

theorem Inv.next (inv : l.Inv) (op : Op) (allows : l.Allows op) (fits : Fits l op) :
    (l.next op).Inv := by
  cases op with
  | pool => exact inv.pool
  | register lake spills => exact inv.register lake spills
  | unregister lake spills => exact inv.unregister lake spills allows
  | reserve lake spills => exact inv.reserve lake spills allows
  | grow i additional =>
    show (l.grow i additional).Inv
    unfold Line.grow
    split
    · exact inv
    rename_i r here
    split
    · exact inv
    rename_i p found
    exact inv.add here found additional fits
  | shrink i less => exact inv.shrink i less allows
  | tryGrow i additional stale caches => exact inv.tryGrow i additional stale caches fits
  | note caches => exact inv.caches _ _
  | giveBack bytes kind caches => exact inv.caches _ _
  | cacheGrew bytes => exact inv.caches _ _
  | cacheShrank bytes => exact inv.caches _ _

end Line

/-- Over every run of any lakes' calls whose bytes fit a machine word together: what is reserved is what the
lakes hold, busy are those with a consumer, and each further grow that may be refused keeps within its
bounds, or leaves the accounts as they were. -/
theorem run_exact (line whole : Nat) (hard : Bool) (ops : List Line.Op)
    (legal : (Line.machine.only Line.Fits).Legal (Line.new line whole hard) ops) :
    let l := Line.machine.run (Line.new line whole hard) ops
    l.Exact ∧ ∀ i additional stale caches, Line.Fits l (.tryGrow i additional stale caches) →
      l.Grows i additional stale caches := by
  have begins : (Line.new line whole hard).Inv := by
    refine ⟨⟨rfl, rfl⟩, (by decide : 0 < 2 ^ 64), fun r inside => ?_, fun lake p found => ?_⟩
    · cases inside
    · cases found
  have inv := Machine.run_invariant (Line.machine.only Line.Fits) Line.Inv
    (fun l op inv allowed => inv.next op allowed.1 allowed.2) _ ops begins legal
  exact ⟨inv.exact, fun i additional stale caches fits => inv.grows i additional stale caches fits⟩

section runs

instance decidableCalls (l : Line) (op : Line.Op) : Decidable (l.Allows op) :=
  match op with
  | .register lake _ => inferInstanceAs (Decidable (lake < l.parts.length))
  | .unregister lake spills => inferInstanceAs (Decidable
      (∃ p ∈ l.parts[lake]?, if spills then 0 < p.spillers else p.spillers < p.consumers))
  | .reserve lake _ => inferInstanceAs (Decidable (lake < l.parts.length))
  | .shrink i less => inferInstanceAs (Decidable (∃ r ∈ l.reservations[i]?, less ≤ r.size))
  | .pool => inferInstanceAs (Decidable True)
  | .grow _ _ => inferInstanceAs (Decidable True)
  | .tryGrow _ _ _ _ => inferInstanceAs (Decidable True)
  | .note _ => inferInstanceAs (Decidable True)
  | .giveBack _ _ _ => inferInstanceAs (Decidable True)
  | .cacheGrew _ => inferInstanceAs (Decidable True)
  | .cacheShrank _ => inferInstanceAs (Decidable True)

instance decidableWords (l : Line) (op : Line.Op) : Decidable (Line.Fits l op) :=
  match op with
  | .grow _ additional => inferInstanceAs (Decidable (l.reserved + additional < 2 ^ 64))
  | .tryGrow _ additional stale caches => inferInstanceAs (Decidable
      (l.reserved + additional + (l.fresh stale caches).cached < 2 ^ 64))
  | .register _ _ => inferInstanceAs (Decidable True)
  | .unregister _ _ => inferInstanceAs (Decidable True)
  | .reserve _ _ => inferInstanceAs (Decidable True)
  | .shrink _ _ => inferInstanceAs (Decidable True)
  | .pool => inferInstanceAs (Decidable True)
  | .note _ => inferInstanceAs (Decidable True)
  | .giveBack _ _ _ => inferInstanceAs (Decidable True)
  | .cacheGrew _ => inferInstanceAs (Decidable True)
  | .cacheShrank _ => inferInstanceAs (Decidable True)

instance (l : Line) (op : Line.Op) : Decidable (Line.machine.Allows l op) := decidableCalls l op

instance (l : Line) (op : Line.Op) : Decidable ((Line.machine.only Line.Fits).Allows l op) :=
  inferInstanceAs (Decidable (l.Allows op ∧ Line.Fits l op))

/-- Two lakes, of which one comes and goes, and a cache that gives back what a spiller's grow asks. -/
def shared : List Line.Op :=
  [.pool, .pool, .register 0 true, .reserve 0 true, .tryGrow 0 50 true [⟨"hot", true, 60, 60⟩],
    .register 1 false, .reserve 1 false, .grow 1 10, .shrink 1 4, .unregister 1 false, .shrink 0 20]

theorem shared_legal : (Line.machine.only Line.Fits).Legal (Line.new 100 100 true) shared := by
  decide +kernel

/-- Thirty-six bytes are held, fifty of the cache's are counted, and a lake runs. -/
theorem shared_exact :
    let l := Line.machine.run (Line.new 100 100 true) shared
    l.Exact ∧ l.Grows 0 30 false [⟨"hot", true, 50, 50⟩] ∧
      (l.reserved, l.busy, l.cached) = (36, 1, 50) := by
  have exact' := run_exact 100 100 true shared shared_legal
  exact ⟨exact'.1, exact'.2 0 30 false [⟨"hot", true, 50, 50⟩] (by decide +kernel), by decide +kernel⟩

/-- A spiller that holds fifty bytes beside a cache that holds forty. -/
def beside : List Line.Op :=
  [.pool, .register 0 true, .reserve 0 true, .tryGrow 0 50 true [⟨"hot", true, 40, 0⟩]]

/-- What can't spill, grown past the line. -/
def grown : List Line.Op := [.pool, .register 0 false, .reserve 0 false, .grow 0 200]

/-- Two spillers that hold 95 bytes together, no cache counted. -/
def filled : List Line.Op :=
  [.pool, .register 0 true, .reserve 0 true, .tryGrow 0 90 true [], .register 0 true, .reserve 0 true,
    .tryGrow 1 5 false []]

/-- A grow that fails has had the caches give back bytes; one of no bytes succeeds past the line; and on a
hard line a spiller grows past the whole line, where a cache gives back what it held uncounted. -/
theorem tryGrow_passes :
    ((Line.machine.only Line.Fits).Legal (Line.new 100 100 true) beside ∧
      let l := Line.machine.run (Line.new 100 100 true) beside
      (l.tryGrow 0 20 false [⟨"hot", true, 40, 5⟩]).2 = .error (0, 100) ∧
        l.cached = 40 ∧ (l.tryGrow 0 20 false [⟨"hot", true, 40, 5⟩]).1.cached = 35) ∧
    ((Line.machine.only Line.Fits).Legal (Line.new 100 100 true) grown ∧
      let l := Line.machine.run (Line.new 100 100 true) grown
      (l.tryGrow 0 0 false []).2 = .ok () ∧ total (l.tryGrow 0 0 false []).1.parts = 200) ∧
    (Line.machine.only Line.Fits).Legal (Line.new 100 100 true) filled ∧
      let l := Line.machine.run (Line.new 100 100 true) filled
      (l.tryGrow 1 20 false [⟨"hot", true, 50, 50⟩]).2 = .ok () ∧
        total (l.tryGrow 1 20 false [⟨"hot", true, 50, 50⟩]).1.parts = 115 := by
  decide +kernel

end runs

/-! ### What each lake may have -/

/-- A spiller's grow within its part of its lake's even share. -/
def Line.InShare (l : Line) (r : Reservation) (p : Part) (additional : Nat) : Prop :=
  r.spills = true ∧ r.size + additional ≤ (l.share - p.unspillable) / p.spillers

theorem Line.InShare.available {l : Line} {r : Reservation} {p : Part} {additional : Nat}
    (inside : l.InShare r p additional) : additional ≤ (l.available p r).1 := by
  have room : l.share ≤ l.room p true := Nat.le_max_right _ _
  have most := inside.2
  rw [Line.available, inside.1]
  dsimp only
  rw [if_pos rfl, Line.partOf]
  split
  · rename_i none
    rw [none, Nat.div_zero] at most
    omega
  · have more : (l.share - p.unspillable) / p.spillers ≤ (l.room p true - p.unspillable) / p.spillers :=
      Nat.div_le_div_right (by omega)
    omega

theorem tryGrowOf_share {l : Line} (i : Nat) {r : Reservation} {p : Part} {additional : Nat}
    (caches : List Cache) (inside : l.InShare r p additional) (soft : l.hard = false ∨ r.size = 0) :
    (l.tryGrowOf i r p additional caches).2 = .ok () := by
  have enough := inside.available
  rw [Line.tryGrowOf, if_neg (by omega)]
  by_cases none : l.excess additional = 0
  · rw [if_pos none]
  · obtain ⟨cached, dry, is, _⟩ := l.ask_spec additional caches
    have again : ((l.ask additional caches).1.available p r).1 = (l.available p r).1 := by
      rw [is]
      rfl
    rw [if_neg none]
    dsimp only
    rw [if_neg (by rw [again]; omega), if_neg]
    rintro ⟨_, hard, _, some_⟩
    rcases soft with soft | soft
    · exact absurd (soft.symm.trans hard) Bool.false_ne_true
    · omega

/-- Over every run, a lake holds what its reservations hold; and a spiller that stays within its part of its
lake's even share is never refused, unless it holds something on a hard line: whatever the other lakes
hold, and the caches give back. -/
theorem run_fair (line whole : Nat) (hard : Bool) (ops : List Line.Op)
    (legal : (Line.machine.only Line.Fits).Legal (Line.new line whole hard) ops) :
    let l := Line.machine.run (Line.new line whole hard) ops
    (∀ lake p, l.parts[lake]? = some p → p.spillable = heldBy l.reservations lake true ∧
      p.unspillable = heldBy l.reservations lake false) ∧
    ∀ i r p additional stale caches, l.reservations[i]? = some r → l.parts[r.lake]? = some p →
      l.InShare r p additional → (l.hard = false ∨ r.size = 0) →
      (l.tryGrow i additional stale caches).2 = .ok () := by
  have begins : (Line.new line whole hard).Inv := by
    refine ⟨⟨rfl, rfl⟩, (by decide : 0 < 2 ^ 64), fun r inside => ?_, fun lake p found => ?_⟩
    · cases inside
    · cases found
  have inv := Machine.run_invariant (Line.machine.only Line.Fits) Line.Inv
    (fun l op inv allowed => inv.next op allowed.1 allowed.2) _ ops begins legal
  refine ⟨fun lake p found => ⟨(inv.parts lake p found).2 true, (inv.parts lake p found).2 false⟩, ?_⟩
  intro i r p additional stale caches here found inside soft
  obtain ⟨cached, dry, is⟩ := Line.fresh_eq (Line.machine.run (Line.new line whole hard) ops) stale caches
  rw [Line.tryGrow, is]
  dsimp only
  rw [here]
  dsimp only
  rw [found]
  exact tryGrowOf_share i caches inside soft

/-- What can't spill fills another lake's line nearly whole. -/
def crowd : List Line.Op :=
  [.pool, .pool, .register 0 true, .reserve 0 true, .register 1 false, .reserve 1 false, .grow 1 90]

/-- Half the line is granted beside ninety bytes of a hundred. -/
theorem crowd_fair :
    let l := Line.machine.run (Line.new 100 100 false) crowd
    heldBy l.reservations 1 false = 90 ∧ (l.tryGrow 0 50 false []).2 = .ok () := by
  have fair := run_fair 100 100 false crowd (by decide +kernel)
  exact ⟨((fair.1 1 ⟨1, 0, 0, 90⟩ (by decide +kernel)).2).symm, fair.2 0 ⟨0, true, 0⟩ ⟨1, 1, 0, 0⟩ 50
    false [] (by decide +kernel) (by decide +kernel) ⟨rfl, by decide +kernel⟩ (.inr rfl)⟩

end Pondra.Ledger
