import Mathlib.Algebra.GroupWithZero.Nat
import Pondra.Base.Machine
import Pondra.Base.Versions
import Pondra.Replica.Frame

set_option autoImplicit false

namespace Pondra.Store

open Machines
open Replica (Delta)
open Layers

abbrev Value := List UInt8

/-- The decimal digits of a number, the lowest `fuel` of them. -/
def digits : Nat → Nat → Value
  | 0, _ => []
  | fuel + 1, n =>
    if n < 10 then [UInt8.ofNat (48 + n)] else digits fuel (n / 10) ++ [UInt8.ofNat (48 + n % 10)]

/-- A number as the catalog keeps it. -/
def json (n : Nat) : Value := digits (n + 1) n

/-- One more digit of a number read so far. -/
def digit (n : Nat) (byte : UInt8) : Option Nat :=
  if 48 ≤ byte.toNat ∧ byte.toNat ≤ 57 then some (10 * n + (byte.toNat - 48)) else none

/-- `from_slice` of a number; a value `json` never writes is refused. -/
def fromJson (value : Value) : Option Nat := if value = [] then none else value.foldlM digit 0

theorem digit_read (n low : Nat) (small : low < 10) :
    digit n (UInt8.ofNat (48 + low)) = some (10 * n + low) := by
  have byte : (UInt8.ofNat (48 + low)).toNat = 48 + low := by
    rw [UInt8.toNat_ofNat']
    omega
  unfold digit
  rw [byte, if_pos (by omega)]
  congr 2
  omega

theorem digits_read (fuel n : Nat) (enough : n < fuel) :
    digits fuel n ≠ [] ∧ (digits fuel n).foldlM digit 0 = some n := by
  induction fuel generalizing n with
  | zero => omega
  | succ fuel ih =>
    unfold digits
    by_cases small : n < 10
    · rw [if_pos small, List.foldlM_cons, digit_read 0 n small]
      exact ⟨by simp, by simp⟩
    · obtain ⟨_, read⟩ := ih (n / 10) (by omega)
      rw [if_neg small, List.foldlM_append, read]
      refine ⟨by simp, ?_⟩
      show ([UInt8.ofNat (48 + n % 10)] : Value).foldlM digit (n / 10) = some n
      rw [List.foldlM_cons, digit_read (n / 10) (n % 10) (by omega)]
      show some (10 * (n / 10) + n % 10) = some n
      congr 1
      omega

@[simp] theorem fromJson_json (n : Nat) : fromJson (json n) = some n := by
  obtain ⟨some, read⟩ := digits_read (n + 1) n (by omega)
  rw [fromJson, json, if_neg some]
  exact read

/-- The last put of a key. -/
def lastPut (puts : List (String × Value)) (k : String) : Option Value :=
  puts.foldl (fun found put => if put.1 = k then some put.2 else found) none

/-- What a batch does to a key: the puts, then the deletes. -/
def effect (d : Delta) (k : String) : Option (Option Value) :=
  if k ∈ d.deletes then some none else (lastPut d.puts k).map some

/-- The leader's commits, in order, over the catalog as it was before them. Each puts its number last,
as `c`. -/
structure History where
  base : String → Option Value
  change : Nat → Delta
  numbered : ∀ i, (change i).id = i
  counted : ∀ i, ∃ puts, (change i).puts = puts ++ [("c", json i)]
  kept : ∀ i, "c" ∉ (change i).deletes
  new : base "c" = none

namespace History

/-- The commits on an empty catalog that put these keys and delete those. -/
def ofEmpty (puts : Nat → List (String × Value)) (deletes : Nat → List String)
    (kept : ∀ i, "c" ∉ deletes i) : History where
  base _ := none
  change i := ⟨i, puts i ++ [("c", json i)], deletes i⟩
  numbered _ := rfl
  counted _ := ⟨_, rfl⟩
  kept := kept
  new := rfl

def ofPuts (puts : Nat → List (String × Value)) : History :=
  ofEmpty puts (fun _ => []) fun _ => List.not_mem_nil

variable (h : History)

/-- The catalog as of a commit. -/
def asOf : Nat → String → Option Value
  | 0, k => h.base k
  | i + 1, k =>
    match effect (h.change (i + 1)) k with
    | some value => value
    | none => asOf i k

/-- The number a view at commit `view` keeps under a key. -/
def number (view : Nat) (key : String) : Nat := ((h.asOf view key).bind fromJson).getD 0

theorem lastPut_append (puts : List (String × Value)) (k : String) (value : Value) :
    lastPut (puts ++ [(k, value)]) k = some value := by
  rw [lastPut, List.foldl_append]
  simp

/-- A view's `c` is its commit. -/
@[simp] theorem number_c (view : Nat) : h.number view "c" = view := by
  cases view with
  | zero => simp [number, asOf, h.new]
  | succ i =>
    obtain ⟨puts, last⟩ := h.counted (i + 1)
    have made : effect (h.change (i + 1)) "c" = some (some (json (i + 1))) := by
      rw [effect, if_neg (h.kept (i + 1)), last, lastPut_append]
      rfl
    simp [number, asOf, made]

def versions : Versions String Value where
  asOf := h.asOf
  touches i k := (effect (h.change i) k).isSome
  kept i k untouched := by
    rw [Bool.not_eq_true, Option.isSome_eq_false_iff, Option.isNone_iff_eq_none] at untouched
    rw [asOf, untouched]

theorem makes {id : Nat} (positive : 1 ≤ id) : h.versions.Makes id (effect (h.change id)) := by
  intro k
  refine ⟨Iff.rfl, ?_⟩
  intro value made
  obtain ⟨i, rfl⟩ : ∃ i, id = i + 1 := ⟨id - 1, by omega⟩
  show value = h.asOf (i + 1) k
  rw [asOf, made]

end History

/-- Inline segment data. -/
def inline (key : String) : Bool := "d/".toList.isPrefixOf key.toList

def inRange (lo hi key : String) : Bool := decide (lo ≤ key) && decide (key < hi)

/-- What a node that is not the leader keeps of the catalog beside its view of the bucket. `view` is
the view's marks: its commit and its `n`. A pin is kept with the task that took it. -/
structure Catalog where
  overlay : Overlay String Value
  lastN : Nat
  view : Nat × Nat
  pruned : Nat
  pins : List (Nat × Nat)
  streamed : Nat
  hold : Nat
  mirror : Bool
  follows : Bool

namespace Catalog

def empty (follows : Bool) : Catalog := ⟨fun _ => none, 0, (0, 0), 0, [], 0, 0, false, follows⟩

/-- The puts and then the deletes of a change, laid over what is there. -/
def lay (cat : Catalog) (d : Delta) : Overlay String Value :=
  let overlay := d.puts.foldl (fun (overlay : Overlay String Value) put =>
    Function.update overlay put.1 (some (d.id, some put.2))) cat.overlay
  d.deletes.foldl (fun (overlay : Overlay String Value) k =>
    Function.update overlay k (if cat.mirror then none else some (d.id, none))) overlay

/-- The start of `apply`: at a gap, what is held is no longer a prefix of the lake, and goes. -/
def gap (cat : Catalog) (id : Nat) : Catalog :=
  let covered := if cat.mirror then cat.streamed else max cat.streamed cat.view.1
  if covered + 1 < id then
    { cat with overlay := fun _ => none, mirror := false, hold := max cat.hold (id - 1) }
  else cat

def apply (cat : Catalog) (d : Delta) : Catalog :=
  if d.id ≤ cat.pruned then cat
  else
    let cat := cat.gap d.id
    let lastN := match d.puts.find? (·.1 = "n") with
      | some put => max cat.lastN ((fromJson put.2).getD 1)
      | none => cat.lastN
    { cat with lastN := lastN, overlay := cat.lay d, streamed := max cat.streamed d.id }

def overlayOk (cat : Catalog) (c : Nat) : Bool := decide (cat.hold ≤ c) && decide (c ≤ cat.streamed)

/-- The end of `mark`: the marks move, and the oldest commit that a scan in progress holds. -/
def mark (cat : Catalog) (n c : Nat) : Catalog × Nat :=
  ({ cat with view := (max cat.view.1 c, max cat.view.2 n) },
    (cat.pins.map (·.2)).foldl min c)

/-- The part of `refresh` after the marks moved. -/
def prune (cat : Catalog) (upto : Nat) : Catalog :=
  if cat.mirror then
    { cat with overlay := fun k => (cat.overlay k).filter fun e => decide (upto < e.1) || !inline k }
  else
    { cat with
      pruned := max cat.pruned upto
      overlay := fun k => (cat.overlay k).filter fun e => decide (upto < e.1) }

def pin (cat : Catalog) (task : Nat) : Catalog :=
  { cat with pins := (task, cat.view.1) :: cat.pins }

def unpin (cat : Catalog) (task : Nat) : Catalog :=
  { cat with pins := cat.pins.filter (·.1 ≠ task) }

/-- The snapshot of `seed`, with the newer streamed changes over it. -/
def seeded (cat : Catalog) (c : Nat) (all : String → Option Value) : Overlay String Value :=
  fun k =>
    let kept := (cat.overlay k).filter fun e => decide (c < e.1) || inline k
    (kept <|> (all k).map fun v => (c, some v)).filter fun e => e.2.isSome

/-- The end of `seed`. -/
def seed (cat : Catalog) (before : Nat) (all : String → Option Value) (after n : Nat) : Catalog :=
  let covered := decide (after ≤ cat.streamed)
  if decide (before < cat.hold) || cat.mirror || (decide (after ≠ before) && !covered) then cat
  else
    { cat with
      overlay := cat.seeded before all
      pruned := max cat.pruned before
      streamed := max cat.streamed before
      lastN := max cat.lastN n
      mirror := true }

/-- What the in-memory catalog answers. -/
def inMemory (cat : Catalog) (k : String) : Option Value := (cat.overlay k).bind (·.2)

/-- A scan's entries with the streamed changes over them. -/
def overlaid (cat : Catalog) (lo hi : String) (all : String → Option Value) (k : String) :
    Option Value :=
  match cat.overlay k with
  | some e => if inRange lo hi k then e.2 else all k
  | none => all k

/-- The `n` of the newest commit that the node's reads include. -/
def visibleN (cat : Catalog) : Nat :=
  if cat.mirror then cat.lastN
  else if cat.overlayOk cat.view.1 then max cat.view.2 cat.lastN else cat.view.2

end Catalog

/-- Where a call stands, with what it has read. A `floor` is what scans had answered as of when the
scan started, and `began` the view's commit when the read did. -/
inductive Task where
  | idle
  | atNow (lo hi : String) (floor : Nat)
  | scanPin (lo hi : String) (floor : Nat)
  | scanBefore (lo hi : String) (floor : Nat)
  | scanAll (lo hi : String) (floor before : Nat)
  | scanAfter (lo hi : String) (floor before : Nat) (all : String → Option Value)
  | scanDecide (lo hi : String) (floor before : Nat) (all : String → Option Value) (after : Nat)
  | scanAlone (lo hi : String) (floor before : Nat) (all : String → Option Value)
    (after streamed : Nat)
  | scanned (lo hi : String) (floor : Nat) (all : String → Option Value) (at_ : Nat) (pinned : Bool)
  | getView (key : String) (began : Nat)
  | getCheck (key : String) (began c : Nat)
  | getKv (key : String) (began : Nat)
  | got (key : String) (began : Nat) (value : Option Value) (at_ : Nat) (mirrored : Bool)
  | markN (refresh : Bool)
  | markC (refresh : Bool) (n : Nat)
  | markMove (refresh : Bool) (n c : Nat)
  | prune (c upto : Nat)
  | seeds (c : Nat)
  | seedPin
  | seedBefore
  | seedAll (before : Nat)
  | seedAfter (before : Nat) (all : String → Option Value)
  | seedEnd (before : Nat) (all : String → Option Value) (after : Nat)
  | unpin

inductive Call where
  | scan (lo hi : String)
  | get (key : String)
  | settle
  | refresh

/-- A node, the commit its view of the bucket is at, its calls, and the newest commit a scan of it has
answered as of. -/
structure Follower where
  bucket : Nat
  cat : Catalog
  tasks : Nat → Task
  answered : Nat

inductive Op where
  | move (bucket : Nat)
  | apply (id : Nat)
  | call (task : Nat) (call : Call)
  | step (task : Nat) (reads : String → Nat)
  | fail (task : Nat)

namespace Follower

def start (bucket : Nat) (follows : Bool) : Follower := ⟨bucket, .empty follows, fun _ => .idle, 0⟩

/-- The call goes on with `task`, and the node with `cat`. -/
def goes (s : Follower) (t : Nat) (cat : Catalog) (task : Task) : Follower :=
  { s with cat := cat, tasks := Function.update s.tasks t task }

/-- A scan answers. -/
def answers (s : Follower) (t : Nat) (lo hi : String) (floor : Nat) (all : String → Option Value)
    (at_ : Nat) (pinned : Bool) : Follower :=
  { s.goes t s.cat (.scanned lo hi floor all at_ pinned) with answered := max s.answered at_ }

/-- A scan or a read of one key up to its first wait, and the starts of `settle` and `refresh`. -/
def call (s : Follower) (t : Nat) : Call → Follower
  | .scan lo hi =>
    if hi ≤ lo then
      if s.cat.mirror then s.answers t lo hi s.answered (fun _ => none) s.cat.streamed false
      else s.goes t s.cat (.atNow lo hi s.answered)
    else if s.cat.mirror then
      s.answers t lo hi s.answered (fun k => if inRange lo hi k then s.cat.inMemory k else none)
        s.cat.streamed false
    else s.goes t s.cat (.scanPin lo hi s.answered)
  | .get key =>
    if s.cat.mirror && !inline key then
      s.goes t s.cat (.got key s.bucket (s.cat.inMemory key) s.cat.streamed true)
    else if inline key then s.goes t s.cat (.getCheck key s.bucket 0)
    else s.goes t s.cat (.getView key s.bucket)
  | .settle => if s.cat.mirror then s.goes t s.cat .idle else s.goes t s.cat (.markN false)
  | .refresh => s.goes t s.cat (.markN true)

/-- The entries in `inside` as a scan of the view finds them, each at the commit the view is at when
it comes to it. -/
def entries (h : History) (inside : String → Bool) (reads : String → Nat) (k : String) :
    Option Value :=
  if inside k then h.asOf (reads k) k else none

/-- The whole catalog but inline data, as `seed` scans it. -/
def whole (key : String) : Bool := decide (key < "d/") || decide ("d0" ≤ key)

/-- What a call does from one wait to the next. -/
def step (h : History) (s : Follower) (t : Nat) (reads : String → Nat) : Follower :=
  match s.tasks t with
  | .idle => s
  | .atNow lo hi floor => s.answers t lo hi floor (fun _ => none) (h.number s.bucket "c") false
  | .scanPin lo hi floor => s.goes t (s.cat.pin t) (.scanBefore lo hi floor)
  | .scanBefore lo hi floor => s.goes t s.cat (.scanAll lo hi floor (h.number s.bucket "c"))
  | .scanAll lo hi floor before =>
    s.goes t s.cat (.scanAfter lo hi floor before (entries h (inRange lo hi) reads))
  | .scanAfter lo hi floor before all =>
    s.goes t s.cat (.scanDecide lo hi floor before all (h.number s.bucket "c"))
  | .scanDecide lo hi floor before all after =>
    if s.cat.hold ≤ before ∧ after ≤ s.cat.streamed then
      s.answers t lo hi floor (s.cat.overlaid lo hi all) s.cat.streamed true
    else s.goes t s.cat (.scanAlone lo hi floor before all after s.cat.streamed)
  | .scanAlone lo hi floor before all after streamed =>
    if (streamed ≤ before ∨ before < s.cat.hold) ∧ before = after then
      s.answers t lo hi floor all before true
    else s.goes t s.cat (.scanBefore lo hi floor)
  | .scanned lo hi floor all at_ _ =>
    s.goes t (s.cat.unpin t) (.scanned lo hi floor all at_ false)
  | .getView key began => s.goes t s.cat (.getCheck key began (h.number s.bucket "c"))
  | .getCheck key began c =>
    match (s.cat.overlay key).filter fun _ => inline key || s.cat.overlayOk c with
    | some e => s.goes t s.cat (.got key began e.2 s.cat.streamed false)
    | none => s.goes t s.cat (.getKv key began)
  | .getKv key began => s.goes t s.cat (.got key began (h.asOf s.bucket key) s.bucket false)
  | .got .. => s
  | .markN refresh => s.goes t s.cat (.markC refresh (max (h.number s.bucket "n") 1))
  | .markC refresh n => s.goes t s.cat (.markMove refresh n (h.number s.bucket "c"))
  | .markMove refresh n c =>
    let (cat, upto) := s.cat.mark n c
    s.goes t cat (if refresh then .prune c upto else .idle)
  | .prune c upto => s.goes t (s.cat.prune upto) (.seeds c)
  | .seeds c =>
    if s.cat.follows && !s.cat.mirror && decide (s.cat.hold ≤ c) then s.goes t s.cat .seedPin
    else s.goes t s.cat .idle
  | .seedPin => s.goes t (s.cat.pin t) .seedBefore
  | .seedBefore => s.goes t s.cat (.seedAll (h.number s.bucket "c"))
  | .seedAll before => s.goes t s.cat (.seedAfter before (entries h whole reads))
  | .seedAfter before all => s.goes t s.cat (.seedEnd before all (h.number s.bucket "c"))
  | .seedEnd before all after =>
    match (all "n").elim (some 1) fromJson with
    | some n => s.goes t (s.cat.seed before all after n) .unpin
    | none => s.goes t s.cat .unpin
  | .unpin => s.goes t (s.cat.unpin t) .idle

/-- A call that is over: its task can be another call's. -/
def Over : Task → Prop
  | .idle | .got .. => True
  | .scanned _ _ _ _ _ pinned => pinned = false
  | _ => False

/-- The view of the bucket only moves forward, and a scan of it reads each key while it goes on. -/
def Reads (s : Follower) (reads : String → Nat) : Task → Prop
  | .scanAll _ _ _ before | .seedAll before => ∀ k, before ≤ reads k ∧ reads k ≤ s.bucket
  | _ => True

end Follower

/-- A follower's calls, the stream's changes and its view of the bucket, in any order. -/
def follower (h : History) : Machine Follower Op where
  next s
    | .move bucket => { s with bucket := bucket }
    | .apply id => { s with cat := s.cat.apply (h.change id) }
    | .call t call => s.call t call
    | .step t reads => s.step h t reads
    | .fail t => s.goes t (s.cat.unpin t) .idle
  Allows s
    | .move bucket => s.bucket ≤ bucket
    | .apply id => 1 ≤ id
    | .call t _ => Follower.Over (s.tasks t)
    | .step t reads => s.Reads reads (s.tasks t)
    | .fail _ => True

end Pondra.Store
