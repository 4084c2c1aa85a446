import Mathlib.Algebra.GroupWithZero.Nat
import Mathlib.Data.Finset.Card
import Mathlib.Order.Interval.Finset.Nat
import Pondra.Base.Paging
import Pondra.Store.Snapshot

set_option autoImplicit false

namespace Pondra.Store

open Machines
open Replica (Delta)
open Layers
open Paging

/-- The keys in `lo`..`hi` that the reader may see. -/
def within (lo hi : String) (keep : String → Bool) (k : String) : Bool := inRange lo hi k && keep k

/-- The entries of a range that `keep` allows; `listing` has the range's keys in order. -/
def allowed (all : String → Option Value) (listing : List String) (keep : String → Bool) :
    List (String × Value) :=
  (listing.filter keep).filterMap fun k => (all k).map (k, ·)

/-- The first `n` of them. -/
def scanPage (all : String → Option Value) (listing : List String) (n : Nat)
    (keep : String → Bool) : List (String × Value) :=
  (allowed all listing keep).take n

/-- Whether a commit between `since` and `at'` changed a key of the range, as far as `recent` goes. -/
def movedSince (recent : List Delta) (lo hi : String) (since at' : Nat) (keep : String → Bool) :
    Bool :=
  let after := min since at'
  let upto := max since at'
  if after = upto then false
  else
    let counted := recent.filter fun d => decide (after < d.id) && decide (d.id ≤ upto)
    let touched := counted.any fun d =>
      d.puts.any (fun put => within lo hi keep put.1) || d.deletes.any (within lo hi keep)
    touched || decide ((counted.map (·.id)).toFinset.card < upto - after)

/-- The bounds of a page on `GET /cluster/kv`. -/
def kvKeys : Nat := 5000
def kvBytes : Nat := 8 <<< 20

/-- The entries of a page whose values fit, and whether it was cut before one that doesn't: the first
always fits. -/
def fill (bytes : Nat) (any : Bool) : List (String × Value) → List (String × Value) × Bool
  | [] => ([], false)
  | e :: rest =>
    if any && decide (kvBytes < bytes + e.2.length) then ([], true)
    else
      let (kept, cut) := fill (bytes + e.2.length) true rest
      (e :: kept, cut)

/-- A node's answer for a page of a range. -/
structure Many where
  entries : List (String × Value)
  more : Bool
  at' : Nat
  moved : Bool

/-- The answer of `kv` for a page from a scan of the range that is as of `at'`. -/
def kv (recent : List Delta) (start hi : String) (limit : Nat) (since : Option Nat)
    (keep : String → Bool) (all : String → Option Value) (listing : List String) (at' : Nat) :
    Many :=
  let asked := max 1 (min limit kvKeys)
  let got := scanPage all listing (asked + 1) keep
  let (kept, cut) := fill 0 false (got.take asked)
  ⟨kept, decide (asked < got.length) || cut, at',
    since.elim false fun since => movedSince recent start hi since at' keep⟩

/-- The bound a range's next page starts from: the first key past `last`. -/
def nextFrom (last : String) : String := last.push (Char.ofNat 0)

/-- How many times a range starts over before it fails. -/
def restartsMost : Nat := 3

/-- Where a read of a range stands: about to ask for a page, waiting for it, or ended. -/
inductive Phase where
  | ready
  | asking
  | ok
  | empty
  | moving
  | lost
  deriving DecidableEq

/-- A call of `read_pages`. `taken` counts the pages answered. -/
structure Reader where
  lo : String
  hi : String
  keep : String → Bool
  limit : Nat
  restarts : Nat
  all : List (String × Value)
  begins : String
  since : Option Nat
  phase : Phase
  taken : Nat

namespace Reader

def new (lo hi : String) (keep : String → Bool) (limit : Nat) : Reader :=
  ⟨lo, hi, keep, limit, 0, [], lo, none, .ready, 0⟩

/-- What `read_pages` does with a page. -/
def takes (r : Reader) (got : Many) : Reader :=
  let r := { r with taken := r.taken + 1 }
  if got.more && got.entries.isEmpty then { r with phase := .empty }
  else if got.moved then
    let restarts := r.restarts + 1
    if restartsMost < restarts then { r with restarts := restarts, phase := .moving }
    else { r with restarts := restarts, all := [], begins := r.lo, since := none, phase := .ready }
  else
    let r := { r with since := some (r.since.getD got.at'), all := r.all ++ got.entries }
    match got.entries.getLast? with
    | some last =>
      if got.more then { r with begins := nextFrom last.1, phase := .ready } else { r with phase := .ok }
    | none => { r with phase := .ok }

end Reader

/-- A node, the changes of the last frames it sent on, and a read of a range that asks it page by page.
The node's call 0 is the page's scan. -/
structure Paged where
  node : Follower
  recent : List Delta
  reader : Reader

/-- `send` puts one more change in `recent`, and lets the oldest `drop` go. -/
inductive PageOp where
  | node (op : Op)
  | send (d : Delta) (drop : Nat)
  | read (lo hi : String) (keep : String → Bool) (limit : Nat)
  | ask
  | take (listing : List String)
  | lose

namespace Paged

/-- The node answers the page that was asked for. -/
def take (s : Paged) (listing : List String) : Paged :=
  match s.node.tasks 0 with
  | .scanned _ _ _ all at' _ =>
    let r := s.reader
    { s with reader := r.takes (kv s.recent r.lo r.hi r.limit r.since r.keep all listing at') }
  | _ => s

/-- The keys of the range that a scan found, in order. -/
structure Listing (all : String → Option Value) (lo hi : String) (listing : List String) : Prop where
  ascending : listing.Pairwise (· < ·)
  found : ∀ k, k ∈ listing ↔ inRange lo hi k = true ∧ (all k).isSome

/-- The page's scan is the read's own, and it is over. -/
def Answers (s : Paged) (listing : List String) : Prop :=
  match s.node.tasks 0 with
  | .scanned _ _ _ all _ pinned =>
    pinned = false ∧ Listing all s.reader.begins s.reader.hi listing
  | _ => False

/-- What a follower's step leaves to the read of the range. -/
def Apart (s : Paged) : Op → Prop
  | .call t _ => t ≠ 0
  | .fail t => t = 0 → s.reader.phase ≠ .asking
  | _ => True

end Paged

/-- A node's steps, its commit stream, and a range read page by page, in any order. -/
def paged (h : History) : Machine Paged PageOp where
  next s
    | .node op => { s with node := (follower h).next s.node op }
    | .send d drop => { s with recent := (s.recent ++ [d]).drop drop }
    | .read lo hi keep limit => { s with reader := .new lo hi keep limit }
    | .ask =>
      { s with
        node := s.node.call 0 (.scan s.reader.begins s.reader.hi)
        reader := { s.reader with phase := .asking } }
    | .take listing => s.take listing
    | .lose => { s with reader := { s.reader with phase := .lost } }
  Allows s
    | .node op => (follower h).Allows s.node op ∧ s.Apart op
    | .send _ drop => drop ≤ s.recent.length
    | .read .. => s.reader.phase ≠ .asking
    | .ask => s.reader.phase = .ready ∧ Follower.Over (s.node.tasks 0)
    | .take listing => s.reader.phase = .asking ∧ s.Answers listing
    | .lose => s.reader.phase = .asking ∨ s.reader.phase = .ready

/-- Where a commit's own change is not in `recent`, no other one of its id stands for it there, unless
the commit changes nothing of the range. -/
def Paged.Told (h : History) (s : Paged) (at' : Nat) : Prop :=
  ∀ since, s.reader.since = some since → ∀ i, min since at' < i → i ≤ max since at' →
    (∃ d ∈ s.recent, d.id = i) → h.change i ∈ s.recent ∨
      ∀ k, within s.reader.lo s.reader.hi s.reader.keep k = true → effect (h.change i) k = none

/-- Where pages read one commit's range: the node's scans do, and no change of another term hides a
commit that `recent` doesn't hold. -/
def Paged.Clear (h : History) (s : Paged) : PageOp → Prop
  | .node op => Store.Clear h s.node op
  | .take _ =>
    match s.node.tasks 0 with
    | .scanned _ _ _ _ at' _ => s.Told h at'
    | _ => True
  | _ => True

section moved

variable {h : History} {recent : List Delta} {lo hi : String} {since at' : Nat}
  {keep : String → Bool}

/-- A change that a range's `touched` doesn't see does nothing to its keys. -/
theorem untouched {d : Delta} {inside : String → Bool}
    (none_ : (d.puts.any (fun put => inside put.1) || d.deletes.any inside) = false) {k : String}
    (mine : inside k = true) : effect d k = none := by
  rw [Bool.or_eq_false_iff, List.any_eq_false, List.any_eq_false] at none_
  have kept : k ∉ d.deletes := fun found => none_.2 k found mine
  have noPut : lastPut d.puts k = none := by
    have all : ∀ put ∈ d.puts, put.1 ≠ k := by
      intro put found same
      exact none_.1 put found (same ▸ mine)
    clear none_
    generalize d.puts = puts at all
    induction puts using List.reverseRecOn with
    | nil => rfl
    | append_singleton puts put ih =>
      rw [lastPut, List.foldl_append]
      simp only [List.foldl_cons, List.foldl_nil]
      rw [if_neg (all put (by simp))]
      exact ih fun earlier found => all earlier (List.mem_append_left _ found)
  rw [effect, if_neg kept, noPut]
  rfl

/-- A range that nothing says moved is the same as of both commits. -/
theorem movedSince_same (still : movedSince recent lo hi since at' keep = false)
    (told : ∀ i, min since at' < i → i ≤ max since at' → (∃ d ∈ recent, d.id = i) →
      h.change i ∈ recent ∨ ∀ k, within lo hi keep k = true → effect (h.change i) k = none)
    {k : String} (mine : within lo hi keep k = true) : h.asOf since k = h.asOf at' k := by
  have span : h.versions.Still (min since at') (max since at') k := by
    intro i above below touches
    have apart : min since at' ≠ max since at' := by omega
    unfold movedSince at still
    rw [if_neg apart, Bool.or_eq_false_iff, List.any_eq_false, decide_eq_false_iff_not,
      not_lt] at still
    obtain ⟨quiet, every⟩ := still
    -- every commit between the two has a change of its id there
    have whole : ((recent.filter fun d => decide (min since at' < d.id) &&
        decide (d.id ≤ max since at')).map (·.id)).toFinset =
          Finset.Ioc (min since at') (max since at') := by
      apply Finset.eq_of_subset_of_card_le
      · intro j found
        rw [List.mem_toFinset, List.mem_map] at found
        obtain ⟨d, found, rfl⟩ := found
        have bounds := (List.mem_filter.mp found).2
        rw [Bool.and_eq_true, decide_eq_true_eq, decide_eq_true_eq] at bounds
        exact Finset.mem_Ioc.mpr bounds
      · rw [Nat.card_Ioc]
        exact every
    have held : ∃ d ∈ recent, d.id = i := by
      have found : i ∈ Finset.Ioc (min since at') (max since at') := Finset.mem_Ioc.mpr ⟨above, below⟩
      rw [← whole, List.mem_toFinset, List.mem_map] at found
      obtain ⟨d, found, same⟩ := found
      exact ⟨d, (List.mem_filter.mp found).1, same⟩
    have nothing : effect (h.change i) k = none := by
      rcases told i above below held with own | other
      · apply untouched _ mine
        have counted : h.change i ∈ recent.filter fun d => decide (min since at' < d.id) &&
            decide (d.id ≤ max since at') := by
          rw [List.mem_filter, h.numbered, decide_eq_true above, decide_eq_true below]
          exact ⟨own, rfl⟩
        exact (Bool.not_eq_true _).mp (quiet _ counted)
      · exact other k mine
    have touched : (effect (h.change i) k).isSome := touches
    rw [nothing] at touched
    cases touched
  have same := h.versions.same (Nat.le_trans (Nat.min_le_left _ _) (Nat.le_max_left _ _)) span
  rcases Nat.le_total since at' with before | after
  · rw [Nat.min_eq_left before, Nat.max_eq_right before] at same
    exact same
  · rw [Nat.min_eq_right after, Nat.max_eq_left after] at same
    exact same.symm

end moved

section bounds

/-- No character is below NUL. -/
theorem not_lt_nul (c : Char) : ¬ c < Char.ofNat 0 := by
  intro less
  have : c.val.toNat < 0 := less
  omega

theorem lt_append_nul (ls ks : List Char) : ks < ls ++ [Char.ofNat 0] ↔ ¬ ls < ks := by
  induction ls generalizing ks with
  | nil =>
    cases ks with
    | nil => simp
    | cons c cs =>
      rw [List.nil_append, List.cons_lt_cons_iff]
      simp [not_lt_nul]
  | cons l ls ih =>
    cases ks with
    | nil => simp
    | cons c cs =>
      rw [List.cons_append, List.cons_lt_cons_iff, List.cons_lt_cons_iff, ih]
      constructor
      · rintro (less | ⟨rfl, rest⟩)
        · rintro (more | ⟨rfl, _⟩)
          · exact absurd (lt_trans less more) (lt_irrefl c)
          · exact lt_irrefl _ less
        · rintro (more | ⟨_, less⟩)
          · exact lt_irrefl _ more
          · exact rest less
      · intro apart
        rcases lt_trichotomy c l with less | rfl | more
        · exact .inl less
        · exact .inr ⟨rfl, fun less => apart (.inr ⟨rfl, less⟩)⟩
        · exact absurd (.inl more) apart

/-- Nothing lies between a key and the key with a NUL added. -/
theorem lt_nextFrom (k last : String) : k < nextFrom last ↔ k ≤ last := by
  rw [← not_lt, String.lt_iff, String.lt_iff, nextFrom, String.toList_push]
  exact lt_append_nul last.toList k.toList

theorem inRange_iff {lo hi k : String} : inRange lo hi k = true ↔ lo ≤ k ∧ k < hi := by
  rw [inRange, Bool.and_eq_true, decide_eq_true_eq, decide_eq_true_eq]

theorem within_iff {lo hi k : String} {keep : String → Bool} :
    within lo hi keep k = true ↔ (lo ≤ k ∧ k < hi) ∧ keep k = true := by
  rw [within, Bool.and_eq_true, inRange_iff]

end bounds

section page

theorem fill_prefix (bytes : Nat) (any : Bool) (entries : List (String × Value)) :
    ∃ rest, entries = (fill bytes any entries).1 ++ rest ∧
      ((fill bytes any entries).2 = false → rest = []) := by
  induction entries generalizing bytes any with
  | nil => exact ⟨[], rfl, fun _ => rfl⟩
  | cons e entries ih =>
    unfold fill
    split
    · exact ⟨e :: entries, rfl, fun whole => Bool.noConfusion whole⟩
    · obtain ⟨rest, whole, cut⟩ := ih (bytes + e.2.length) true
      exact ⟨rest, congrArg (e :: ·) whole, cut⟩

/-- A page's first entry always fits. -/
theorem fill_first (entries : List (String × Value)) (some_ : entries ≠ []) :
    (fill 0 false entries).1 ≠ [] := by
  cases entries with
  | nil => exact absurd rfl some_
  | cons e entries =>
    unfold fill
    simp

theorem fill_page (full : List (String × Value)) {asked : Nat} (positive : 1 ≤ asked) {more : Bool}
    (follows : more = (decide (asked < (full.take (asked + 1)).length) ||
      (fill 0 false (full.take asked)).2)) :
    ∃ rest, full = (fill 0 false (full.take asked)).1 ++ rest ∧ (more = false → rest = []) ∧
      (more = true → (fill 0 false (full.take asked)).1 ≠ []) := by
  rw [List.length_take] at follows
  obtain ⟨rest, whole, cut⟩ := fill_prefix 0 false (full.take asked)
  refine ⟨rest ++ full.drop asked, ?_, ?_, ?_⟩
  · rw [← List.append_assoc, ← whole, List.take_append_drop]
  · intro last
    rw [last, eq_comm, Bool.or_eq_false_iff, decide_eq_false_iff_not] at follows
    have short : full.length ≤ asked := by omega
    rw [cut follows.2, List.drop_eq_nil_of_le short]
    rfl
  · intro some_
    apply fill_first
    intro none_
    have short : full.length = 0 := by
      have := congrArg List.length none_
      rw [List.length_take, List.length_nil] at this
      omega
    rw [some_, none_, short] at follows
    simp [fill] at follows

/-- A page has the range's first entries, all of them where it doesn't say that more follow, and some
where it does. -/
theorem kv_entries {recent : List Delta} {start hi : String} {limit : Nat} {since : Option Nat}
    {keep : String → Bool} {all : String → Option Value} {listing : List String} {at' : Nat}
    {got : Many} (answer : got = kv recent start hi limit since keep all listing at') :
    ∃ rest, allowed all listing keep = got.entries ++ rest ∧ (got.more = false → rest = []) ∧
      (got.more = true → got.entries ≠ []) := by
  subst answer
  simp only [kv, scanPage]
  rw [List.take_take, Nat.min_eq_left (Nat.le_succ _)]
  exact fill_page _ (Nat.le_max_left _ _) rfl

/-- What a page's scan found, where it is right as of a commit. -/
theorem allowed_part {h : History} {lo hi : String} {at' : Nat} {all : String → Option Value}
    {listing : List String} (keep : String → Bool)
    (right : ∀ k, Listed k → all k = if inRange lo hi k then h.asOf at' k else none)
    (listed : Paged.Listing all lo hi listing) :
    Part Listed (h.asOf at') (fun k => within lo hi keep k = true) (allowed all listing keep) := by
  have member : ∀ k v, (k, v) ∈ allowed all listing keep ↔
      k ∈ listing ∧ keep k = true ∧ all k = some v := by
    intro k v
    rw [allowed, List.mem_filterMap]
    constructor
    · rintro ⟨key, found, made⟩
      obtain ⟨value, read, same⟩ := Option.map_eq_some_iff.mp made
      cases same
      exact ⟨(List.mem_filter.mp found).1, (List.mem_filter.mp found).2, read⟩
    · rintro ⟨found, kept, read⟩
      exact ⟨k, List.mem_filter.mpr ⟨found, kept⟩, by rw [read]; rfl⟩
  refine ⟨?_, ?_, ?_⟩
  · rw [allowed, List.pairwise_filterMap]
    apply (listed.ascending.sublist List.filter_sublist).imp
    rintro k k' less e made e' made'
    obtain ⟨_, _, rfl⟩ := Option.map_eq_some_iff.mp made
    obtain ⟨_, _, rfl⟩ := Option.map_eq_some_iff.mp made'
    exact less
  · rintro ⟨k, v⟩ found
    obtain ⟨found, kept, _⟩ := (member k v).mp found
    rw [within, ((listed.found k).mp found).1, kept]
    rfl
  · intro k v spoken inside
    obtain ⟨ranged, kept⟩ := Bool.and_eq_true_iff.mp inside
    rw [member, listed.found, right k spoken, if_pos ranged]
    constructor
    · rintro ⟨_, _, read⟩
      exact read
    · intro read
      exact ⟨⟨ranged, by rw [read]; rfl⟩, kept, read⟩

end page

/-- A read of a range that goes on: what it has is the range's part below its next bound, as of the
first page's commit. -/
structure Reader.Going (h : History) (r : Reader) : Prop where
  above : r.lo ≤ r.begins
  first : r.since = none → r.all = [] ∧ r.begins = r.lo
  part : ∀ c, r.since = some c →
    Part Listed (h.asOf c) (fun k => within r.lo r.hi r.keep k = true ∧ k < r.begins) r.all

/-- What a read of a range answers: exactly the range as of its first page's commit. -/
def Reader.Whole (h : History) (r : Reader) : Prop :=
  ∃ c, r.since = some c ∧
    Part Listed (h.asOf c) (fun k => within r.lo r.hi r.keep k = true) r.all

/-- No commit has more than `n` keys of the range, and it holds no inline data. -/
def Reader.Few (h : History) (r : Reader) (n : Nat) : Prop :=
  (∀ k, within r.lo r.hi r.keep k = true → Listed k) ∧
    ∀ c, ∀ keys : List String, keys.Nodup →
      (∀ k ∈ keys, within r.lo r.hi r.keep k = true ∧ (h.asOf c k).isSome) → keys.length ≤ n

/-- What a read of a range comes to: what it answers is the range as of one commit, it starts over no
more than it may, no page says that keys follow and has none, and it takes a bounded number of pages. -/
structure Reader.Right (h : History) (r : Reader) : Prop where
  whole : r.phase = .ok → r.Whole h
  restarts : r.restarts ≤ restartsMost ∨ r.restarts = restartsMost + 1 ∧ r.phase = .moving
  some_ : r.phase ≠ .empty
  ends : ∀ n, r.Few h n → r.taken ≤ (restartsMost + 1) * (n + 1)

/-- What holds of a read of a range between steps. -/
structure Reader.Sound (h : History) (r : Reader) : Prop where
  going : r.phase = .ready ∨ r.phase = .asking → r.Going h ∧ r.restarts ≤ restartsMost ∧
    ∀ n, r.Few h n → r.taken ≤ r.restarts * (n + 1) + r.all.length
  right : r.Right h

section takes

variable {h : History} {r : Reader} {got : Many} {listing : List String} {at' : Nat}
  {all : String → Option Value}

theorem Reader.new_sound (lo hi : String) (keep : String → Bool) (limit : Nat) :
    (Reader.new lo hi keep limit).Sound h := by
  refine ⟨?_, fun done => Phase.noConfusion done, .inl (Nat.zero_le _),
    fun none_ => Phase.noConfusion none_, fun _ _ => Nat.zero_le _⟩
  intro _
  refine ⟨⟨le_refl _, fun _ => ⟨rfl, rfl⟩, ?_⟩, Nat.zero_le _, fun _ _ => Nat.zero_le _⟩
  intro c since
  cases since

/-- What a read that goes on has is a part of the range below its bound, as of any first page too. -/
theorem Reader.Going.has (going : r.Going h) (c : Nat) :
    Part Listed (h.asOf (r.since.getD c))
      (fun k => within r.lo r.hi r.keep k = true ∧ k < r.begins) r.all := by
  cases first : r.since with
  | some since => exact going.part since first
  | none =>
    obtain ⟨empty, begins⟩ := going.first first
    rw [empty]
    apply Part.nil
    rintro k ⟨inside, below⟩
    have := (within_iff.mp inside).1.1
    rw [begins] at below
    exact absurd (lt_of_le_of_lt this below) (lt_irrefl _)

theorem Reader.Going.few {n : Nat} (going : r.Going h) (few : r.Few h n) : r.all.length ≤ n :=
  (going.has 0).length_le (fun k inside => few.1 k inside.1) fun keys distinct inside =>
    few.2 _ keys distinct fun k found => ⟨(inside k found).1.1, (inside k found).2⟩

/-- The keys of a page are the range's keys from its bound on. -/
theorem within_begins (above : r.lo ≤ r.begins) {k : String} :
    within r.begins r.hi r.keep k = true ↔ within r.lo r.hi r.keep k = true ∧ r.begins ≤ k := by
  rw [within_iff, within_iff]
  constructor
  · rintro ⟨⟨from_, below⟩, kept⟩
    exact ⟨⟨⟨le_trans above from_, below⟩, kept⟩, from_⟩
  · rintro ⟨⟨⟨_, below⟩, kept⟩, from_⟩
    exact ⟨⟨from_, below⟩, kept⟩

/-- Nothing of the range is left after a page that doesn't say that more follow. -/
theorem Reader.Going.ends {c : Nat} (going : r.Going h) {entries page : List (String × Value)}
    (part : Part Listed (h.asOf c)
      (fun k => within r.lo r.hi r.keep k = true ∧ k < r.begins) entries)
    (next : Part Listed (h.asOf c) (fun k => within r.begins r.hi r.keep k = true) page) :
    Part Listed (h.asOf c) (fun k => within r.lo r.hi r.keep k = true) (entries ++ page) := by
  apply (part.append next ?_).congr ?_ fun _ _ _ => rfl
  · intro k k' old new
    exact lt_of_lt_of_le old.2 ((within_begins going.above).mp new).2
  · intro k
    rw [within_begins going.above]
    constructor
    · rintro (⟨inside, _⟩ | ⟨inside, _⟩)
      · exact inside
      · exact inside
    · intro inside
      rcases lt_or_ge k r.begins with below | above
      · exact .inl ⟨inside, below⟩
      · exact .inr ⟨inside, above⟩

theorem Reader.Going.past {c : Nat} (going : r.Going h) {page rest : List (String × Value)}
    {last : String × Value}
    (next : Part Listed (h.asOf c) (fun k => within r.begins r.hi r.keep k = true) (page ++ rest))
    (ends : page.getLast? = some last) : r.begins ≤ last.1 := by
  have found := List.mem_append_left rest (List.mem_of_getLast? ends)
  exact ((within_begins going.above).mp (next.within last found)).2

/-- Up to the next page's bound, what was read is the range's part. -/
theorem Reader.Going.grows {c : Nat} (going : r.Going h) {entries page rest : List (String × Value)}
    {last : String × Value}
    (part : Part Listed (h.asOf c)
      (fun k => within r.lo r.hi r.keep k = true ∧ k < r.begins) entries)
    (next : Part Listed (h.asOf c) (fun k => within r.begins r.hi r.keep k = true) (page ++ rest))
    (ends : page.getLast? = some last) :
    Part Listed (h.asOf c)
      (fun k => within r.lo r.hi r.keep k = true ∧ k < nextFrom last.1) (entries ++ page) := by
  have past := going.past next ends
  apply (part.append (next.first ends) ?_).congr ?_ fun _ _ _ => rfl
  · intro k k' old new
    exact lt_of_lt_of_le old.2 ((within_begins going.above).mp new.1).2
  · intro k
    rw [within_begins going.above, lt_nextFrom]
    constructor
    · rintro (⟨inside, below⟩ | ⟨⟨inside, _⟩, upto⟩)
      · exact ⟨inside, le_trans (le_of_lt below) past⟩
      · exact ⟨inside, upto⟩
    · rintro ⟨inside, upto⟩
      rcases lt_or_ge k r.begins with below | above
      · exact .inl ⟨inside, below⟩
      · exact .inr ⟨⟨inside, above⟩, upto⟩

/-- A read that has restarted no more than it may, with the pages it took counted. -/
theorem Reader.Going.sound (going : r.Going h) (waits : r.phase = .ready ∨ r.phase = .asking)
    (restarts : r.restarts ≤ restartsMost)
    (taken : ∀ n, r.Few h n → r.taken ≤ r.restarts * (n + 1) + r.all.length) : r.Sound h := by
  refine ⟨fun _ => ⟨going, restarts, taken⟩, ?_, .inl restarts, ?_, ?_⟩
  · intro done
    rw [done] at waits
    rcases waits with waits | waits <;> exact Phase.noConfusion waits
  · intro none_
    rw [none_] at waits
    rcases waits with waits | waits <;> exact Phase.noConfusion waits
  · intro n few
    have counted := taken n few
    have short := going.few few
    have most := Nat.mul_le_mul_right (n + 1) restarts
    rw [Nat.add_mul, Nat.one_mul]
    omega

/-- A read that is over. -/
theorem Reader.Right.sound (right : r.Right h) (ended : r.phase ≠ .ready ∧ r.phase ≠ .asking) :
    r.Sound h := by
  refine ⟨?_, right⟩
  rintro (ready | asking)
  · exact absurd ready ended.1
  · exact absurd asking ended.2

theorem Reader.takes_sound (going : r.Going h) (restarts : r.restarts ≤ restartsMost)
    (taken : ∀ n, r.Few h n → r.taken ≤ r.restarts * (n + 1) + r.all.length)
    {full rest : List (String × Value)} (whole : full = got.entries ++ rest)
    (last : got.more = false → rest = []) (some_ : got.more = true → got.entries ≠ [])
    (part : Part Listed (h.asOf got.at') (fun k => within r.begins r.hi r.keep k = true) full)
    (same : got.moved = false → ∀ c, r.since = some c → ∀ k,
      within r.lo r.hi r.keep k = true → h.asOf c k = h.asOf got.at' k) :
    (r.takes got).Sound h := by
  -- the page's own count, under the bound of a read that ends here
  have counted : ∀ n, r.Few h n → r.taken + 1 ≤ (r.restarts + 1) * (n + 1) := by
    intro n few
    have := taken n few
    have := going.few few
    rw [Nat.add_mul, Nat.one_mul]
    omega
  have most : ∀ n, r.Few h n → r.taken + 1 ≤ (restartsMost + 1) * (n + 1) := fun n few =>
    Nat.le_trans (counted n few) (Nat.mul_le_mul_right _ (Nat.succ_le_succ restarts))
  have old := going.has got.at'
  have next : got.moved = false → Part Listed (h.asOf (r.since.getD got.at'))
      (fun k => within r.begins r.hi r.keep k = true) full := by
    intro still
    apply part.congr fun _ => Iff.rfl
    intro k _ inside
    cases first : r.since with
    | none => rfl
    | some c => exact (same still c first k ((within_begins going.above).mp inside).1).symm
  have all : got.moved = false → got.more = false →
      Part Listed (h.asOf (r.since.getD got.at')) (fun k => within r.lo r.hi r.keep k = true)
        (r.all ++ got.entries) := by
    intro still ends
    have page := next still
    rw [whole, last ends, List.append_nil] at page
    exact going.ends old page
  unfold Reader.takes
  simp only
  split
  · rename_i none_
    rw [Bool.and_eq_true, List.isEmpty_iff] at none_
    exact absurd none_.2 (some_ none_.1)
  · rename_i found
    split
    · split
      · rename_i ended
        apply Right.sound ⟨fun done => Phase.noConfusion done, ?_, Phase.noConfusion, most⟩
          ⟨Phase.noConfusion, Phase.noConfusion⟩
        have last : r.restarts + 1 = restartsMost + 1 := by omega
        exact .inr ⟨last, rfl⟩
      · rename_i again
        apply Going.sound ⟨le_refl _, fun _ => ⟨rfl, rfl⟩, ?_⟩ (.inl rfl) (not_lt.mp again) counted
        intro c since
        cases since
    · rename_i moved
      have still : got.moved = false := (Bool.not_eq_true _).mp moved
      cases ends : got.entries.getLast? with
      | none =>
        have ended : got.more = false := by
          rw [← Bool.not_eq_true]
          intro more
          exact some_ more (List.getLast?_eq_none_iff.mp ends)
        exact Right.sound
          ⟨fun _ => ⟨_, rfl, all still ended⟩, .inl restarts, Phase.noConfusion, most⟩
          ⟨Phase.noConfusion, Phase.noConfusion⟩
      | some final =>
        simp only
        split
        · have page := next still
          rw [whole] at page
          have grows := going.grows old page ends
          have below : r.lo < nextFrom final.1 :=
            (lt_nextFrom _ _).mpr (le_trans going.above (going.past page ends))
          refine Going.sound ⟨le_of_lt below, ?_, ?_⟩ (.inl rfl) restarts ?_
          · intro since
            cases since
          · intro c since
            cases since
            exact grows
          · intro n few
            have := taken n few
            have some_ : 0 < got.entries.length :=
              List.length_pos_iff.mpr fun none_ => by rw [none_] at ends; cases ends
            simp only [List.length_append]
            omega
        · rename_i more
          exact Right.sound
            ⟨fun _ => ⟨_, rfl, all still ((Bool.not_eq_true _).mp more)⟩, .inl restarts,
              Phase.noConfusion, most⟩ ⟨Phase.noConfusion, Phase.noConfusion⟩

/-- A page taken is no longer waited for. -/
theorem Reader.takes_phase : (r.takes got).phase ≠ .asking := by
  unfold Reader.takes
  simp only
  split
  · exact Phase.noConfusion
  · split
    · split
      · exact Phase.noConfusion
      · exact Phase.noConfusion
    · split
      · split
        · exact Phase.noConfusion
        · exact Phase.noConfusion
      · exact Phase.noConfusion

end takes

/-- The range that a scan reads. -/
def Task.range : Task → Option (String × String)
  | .atNow lo hi _ | .scanPin lo hi _ | .scanBefore lo hi _ | .scanAll lo hi _ _
  | .scanAfter lo hi _ _ _ | .scanDecide lo hi _ _ _ _ | .scanAlone lo hi _ _ _ _ _
  | .scanned lo hi _ _ _ _ => some (lo, hi)
  | _ => none

section scans

variable {h : History} {s : Follower} {t : Nat}

theorem goes_other {cat : Catalog} {task : Task} {other : Nat} (apart : other ≠ t) :
    (s.goes t cat task).tasks other = s.tasks other := Function.update_of_ne apart _ _

theorem answers_other {lo hi : String} {floor at_ : Nat} {all : String → Option Value}
    {pinned : Bool} {other : Nat} (apart : other ≠ t) :
    (s.answers t lo hi floor all at_ pinned).tasks other = s.tasks other :=
  Function.update_of_ne apart _ _

/-- A call's step leaves the other calls where they are. -/
theorem step_other {reads : String → Nat} {other : Nat} (apart : other ≠ t) :
    (s.step h t reads).tasks other = s.tasks other := by
  unfold Follower.step
  cases s.tasks t with
  | scanDecide lo hi floor before all after =>
    simp only
    split
    · exact answers_other apart
    · exact goes_other apart
  | scanAlone lo hi floor before all after streamed =>
    simp only
    split
    · exact answers_other apart
    · exact goes_other apart
  | getCheck key began c =>
    simp only
    split
    · exact goes_other apart
    · exact goes_other apart
  | seeds c =>
    simp only
    split
    · exact goes_other apart
    · exact goes_other apart
  | seedEnd before all after =>
    simp only
    split
    · exact goes_other apart
    · exact goes_other apart
  | idle => rfl
  | got key began value at_ mirrored => rfl
  | atNow lo hi floor => exact answers_other apart
  | _ => exact goes_other apart

theorem call_other {call : Call} {other : Nat} (apart : other ≠ t) :
    (s.call t call).tasks other = s.tasks other := by
  cases call with
  | scan lo hi =>
    simp only [Follower.call]
    split
    · split
      · exact answers_other apart
      · exact goes_other apart
    · split
      · exact answers_other apart
      · exact goes_other apart
  | get key =>
    simp only [Follower.call]
    split
    · exact goes_other apart
    · split
      · exact goes_other apart
      · exact goes_other apart
  | settle =>
    simp only [Follower.call]
    split
    · exact goes_other apart
    · exact goes_other apart
  | refresh => exact goes_other apart

theorem goes_own {cat : Catalog} {task : Task} : (s.goes t cat task).tasks t = task :=
  Function.update_self _ _ _

theorem answers_own {lo hi : String} {floor at_ : Nat} {all : String → Option Value}
    {pinned : Bool} : (s.answers t lo hi floor all at_ pinned).tasks t =
      .scanned lo hi floor all at_ pinned := Function.update_self _ _ _

/-- A scan goes on in its range. -/
theorem step_range {reads : String → Nat} {lo hi : String}
    (scans : (s.tasks t).range = some (lo, hi)) :
    ((s.step h t reads).tasks t).range = some (lo, hi) := by
  unfold Follower.step
  cases task : s.tasks t with
  | scanDecide lo' hi' floor before all after =>
    rw [task] at scans
    simp only
    split
    · rw [answers_own]
      exact scans
    · rw [goes_own]
      exact scans
  | scanAlone lo' hi' floor before all after streamed =>
    rw [task] at scans
    simp only
    split
    · rw [answers_own]
      exact scans
    · rw [goes_own]
      exact scans
  | atNow lo' hi' floor =>
    rw [task] at scans
    simp only [answers_own]
    exact scans
  | scanPin lo' hi' floor | scanBefore lo' hi' floor | scanAll lo' hi' floor before
  | scanAfter lo' hi' floor before all | scanned lo' hi' floor all at_ pinned =>
    rw [task] at scans
    simp only [goes_own]
    exact scans
  | _ =>
    rw [task] at scans
    cases scans

theorem call_range {lo hi : String} : ((s.call t (.scan lo hi)).tasks t).range = some (lo, hi) := by
  simp only [Follower.call]
  split
  · split
    · rw [answers_own]
      rfl
    · rw [goes_own]
      rfl
  · split
    · rw [answers_own]
      rfl
    · rw [goes_own]
      rfl

end scans

/-- What holds of a node and a read of a range between steps. -/
structure Paged.Sound (h : History) (s : Paged) : Prop where
  node : Consistent h s.node
  reader : s.reader.Sound h
  scan : s.reader.phase = .asking →
    (s.node.tasks 0).range = some (s.reader.begins, s.reader.hi)

section runs

variable {h : History} {s : Paged}

theorem Paged.Sound.node_step {op : Op} (sound : s.Sound h)
    (allowed : (follower h).Allows s.node op) (apart : s.Apart op) (clear : Store.Clear h s.node op) :
    ({ s with node := (follower h).next s.node op } : Paged).Sound h := by
  refine ⟨sound.node.next allowed clear, sound.reader, ?_⟩
  intro asking
  have scans := sound.scan asking
  cases op with
  | move bucket => exact scans
  | apply id => exact scans
  | call t call =>
    have other : (0 : Nat) ≠ t := fun same => apart same.symm
    show ((s.node.call t call).tasks 0).range = _
    rw [call_other other]
    exact scans
  | step t reads =>
    show ((s.node.step h t reads).tasks 0).range = _
    by_cases own : 0 = t
    · subst own
      exact step_range scans
    · rw [step_other own]
      exact scans
  | fail t =>
    have other : (0 : Nat) ≠ t := fun same => apart same.symm asking
    show ((s.node.goes t (s.node.cat.unpin t) .idle).tasks 0).range = _
    rw [goes_other other]
    exact scans

theorem Paged.Sound.take {listing : List String} (sound : s.Sound h)
    (asking : s.reader.phase = .asking) (answers : s.Answers listing)
    (clear : s.Clear h (.take listing)) : (s.take listing).Sound h := by
  have scans := sound.scan asking
  have right := (sound.node.tasks 0).right
  unfold Paged.Answers at answers
  simp only [Paged.Clear] at clear
  unfold Paged.take
  cases task : s.node.tasks 0 with
  | scanned lo hi floor all at' pinned =>
    rw [task] at scans right answers clear
    obtain ⟨rfl, rfl⟩ : s.reader.begins = lo ∧ s.reader.hi = hi := by
      cases scans
      exact ⟨rfl, rfl⟩
    obtain ⟨going, restarts, taken⟩ := sound.reader.going (.inr asking)
    simp only
    generalize answer : kv s.recent s.reader.lo s.reader.hi s.reader.limit s.reader.since
      s.reader.keep all listing at' = got
    obtain ⟨rest, whole, last, some_⟩ := kv_entries answer.symm
    have read : got.at' = at' := by rw [← answer]; rfl
    have moved : got.moved = s.reader.since.elim false fun since =>
        movedSince s.recent s.reader.lo s.reader.hi since at' s.reader.keep := by rw [← answer]; rfl
    have part := allowed_part s.reader.keep right answers.2
    rw [← read] at part
    refine ⟨sound.node, Reader.takes_sound going restarts taken whole last some_ part ?_,
      fun waits => absurd waits Reader.takes_phase⟩
    intro still c first k inside
    rw [moved, first] at still
    rw [read]
    exact movedSince_same still (clear c first) inside
  | _ =>
    rw [task] at answers
    exact answers.elim

theorem Paged.Sound.next {op : PageOp} (sound : s.Sound h) (allowed : (paged h).Allows s op)
    (clear : s.Clear h op) : ((paged h).next s op).Sound h := by
  cases op with
  | node op => exact sound.node_step allowed.1 allowed.2 clear
  | send d drop => exact ⟨sound.node, sound.reader, sound.scan⟩
  | read lo hi keep limit =>
    exact ⟨sound.node, Reader.new_sound lo hi keep limit, fun asks => Phase.noConfusion asks⟩
  | ask =>
    obtain ⟨going, restarts, taken⟩ := sound.reader.going (.inl allowed.1)
    have node : Consistent h (s.node.call 0 (.scan s.reader.begins s.reader.hi)) := sound.node.call _
    exact ⟨node, Reader.Going.sound ⟨going.above, going.first, going.part⟩ (.inr rfl)
      restarts taken, fun _ => call_range⟩
  | take listing => exact sound.take allowed.1 allowed.2 clear
  | lose =>
    obtain ⟨_, restarts, _⟩ := sound.reader.going (Or.comm.mp allowed)
    exact ⟨sound.node, Reader.Right.sound ⟨fun done => Phase.noConfusion done, .inl restarts,
      Phase.noConfusion, sound.reader.right.ends⟩ ⟨Phase.noConfusion, Phase.noConfusion⟩,
      fun asks => Phase.noConfusion asks⟩

end runs

/-- A leader's catalog as it opens: the whole of it in memory, as of commit `c`. -/
def Follower.leads (h : History) (c : Nat) : Follower :=
  let overlay : Overlay String Value := fun k =>
    if inline k then none else (h.asOf c k).map fun v => (c, some v)
  ⟨c, ⟨overlay, h.number c "n", (0, 0), 0, [], c, 0, true, false⟩, fun _ => .idle, 0⟩

/-- A node as it opens: a follower or a reader of its view of the bucket, or the leader. -/
inductive Opens (h : History) : Follower → Prop where
  | reader (bucket : Nat) (follows : Bool) : Opens h (.start bucket follows)
  | writer (c : Nat) : Opens h (.leads h c)

theorem opens_consistent {h : History} {node : Follower} (opens : Opens h node) :
    Consistent h node := by
  cases opens with
  | reader bucket follows => exact start_consistent bucket follows
  | writer c =>
    refine ⟨⟨Nat.zero_le _, fun pin inside => (List.not_mem_nil inside).elim, ?_, ?_, ?_⟩,
      fun _ => trivial⟩
    · intro _ k listed
      show ((if inline k then none else (h.asOf c k).map fun v => (c, some v)).bind (·.2)) =
        h.asOf c k
      rw [show inline k = false from listed]
      cases h.asOf c k <;> rfl
    · intro off
      cases off
    · intro b _ off
      cases off

/-- A node as it opens, before it is asked for anything. -/
def Paged.start (node : Follower) : Paged := ⟨node, [], .new "" "" (fun _ => true) 0⟩

/-- In a run where the node's own scans are right, and no other change stands in `recent` for a commit
that is missing there, what a read of a range page by page answers is exactly the range as of the first
page's commit, and it ends. -/
theorem run_pages (h : History) {node : Follower} (opens : Opens h node) (ops : List PageOp)
    (legal : ((paged h).only (Paged.Clear h)).Legal (.start node) ops) :
    ((paged h).run (.start node) ops).reader.Right h := by
  have initial : (Paged.start node).Sound h :=
    ⟨opens_consistent opens, Reader.new_sound _ _ _ _, fun asks => Phase.noConfusion asks⟩
  exact (((paged h).only (Paged.Clear h)).run_invariant (Paged.Sound h)
    (fun _ _ sound allowed => sound.next allowed.1 allowed.2) (.start node) ops initial
    legal).reader.right

/-- `dropped` has no other keys. -/
theorem dropped_else (i : Nat) {k : String} (other : k ∉ ["c", "t/a", "t/b"]) :
    dropped.asOf i k = none ∧ effect (dropped.change i) k = none := by
  simp only [List.mem_cons, List.not_mem_nil, or_false, not_or] at other
  obtain ⟨notC, notA, notB⟩ := other
  have nothing : ∀ i, effect (dropped.change i) k = none := by
    intro i
    by_cases first : i = 1 <;> by_cases second : i = 2 <;>
      simp [effect, dropped, History.ofEmpty, lastPut, first, second, notB, Ne.symm notC, Ne.symm notA, Ne.symm notB]
  refine ⟨?_, nothing i⟩
  induction i with
  | zero => rfl
  | succ i ih =>
    rw [History.asOf, nothing (i + 1)]
    exact ih

theorem dropped_listing {all : String → Option Value} {lo : String} {keys : List String}
    (ascending : keys.Pairwise (· < ·)) (few : ∀ k ∈ keys, k ∈ ["c", "t/a", "t/b"])
    (three : ∀ k ∈ ["c", "t/a", "t/b"], k ∈ keys ↔ inRange lo "t0" k = true ∧ (all k).isSome = true)
    (others : ∀ k, k ∉ ["c", "t/a", "t/b"] → all k = none) : Paged.Listing all lo "t0" keys := by
  refine ⟨ascending, ?_⟩
  intro k
  by_cases known : k ∈ ["c", "t/a", "t/b"]
  · exact three k known
  · rw [others k known]
    exact ⟨fun found => absurd (few k found) known, fun ⟨_, none_⟩ => Bool.noConfusion none_⟩

section absent

variable {cat : Catalog} {d : Delta} {lo hi k : String} {all : String → Option Value}

theorem inMemory_none (lo hi : String) (absent : cat.overlay k = none) :
    (if inRange lo hi k then cat.inMemory k else none) = none := by
  rw [Catalog.inMemory, absent]
  split <;> rfl

theorem overlaid_none (absent : cat.overlay k = none) (noEntry : all k = none) :
    cat.overlaid lo hi all k = none := by
  rw [Catalog.overlaid, absent]
  exact noEntry

theorem entries_none (inside : String → Bool) (reads : String → Nat)
    (other : k ∉ ["c", "t/a", "t/b"]) : Follower.entries dropped inside reads k = none := by
  rw [Follower.entries, (dropped_else _ other).1]
  split <;> rfl

theorem apply_none (absent : cat.overlay k = none) (untouched : effect d k = none) :
    (cat.apply d).overlay k = none := by
  have ends := apply_cases cat d
  generalize cat.apply d = after at ends
  cases ends with
  | pruned old => exact absent
  | gap new far missing lastN grows =>
    simp only [Overlay.extend, untouched]
  | next new lastN grows near hidden =>
    show cat.lay d k = none
    rw [lay_apply, untouched]
    exact absent

theorem leads_none {c : Nat} (other : k ∉ ["c", "t/a", "t/b"]) :
    (Follower.leads dropped c).cat.overlay k = none := by
  show (if inline k then none else (dropped.asOf c k).map fun v => (c, some v)) = none
  rw [(dropped_else c other).1]
  split <;> rfl

theorem seeded_none (before : Nat) (absent : cat.overlay k = none) (noEntry : all k = none) :
    cat.seeded before all k = none := by
  rw [Catalog.seeded, absent, noEntry]
  rfl

theorem prune_none {upto : Nat} (absent : cat.overlay k = none) :
    (cat.prune upto).overlay k = none := by
  unfold Catalog.prune
  split
  · show (cat.overlay k).filter _ = none
    rw [absent]
    rfl
  · show (cat.overlay k).filter _ = none
    rw [absent]
    rfl

end absent

/-- Pages of one key from a leader, with a drop between the first and the second. -/
def movedRun : List PageOp :=
  [.read "t/" "t0" (fun _ => true) 1, .ask, .take ["t/a", "t/b"], .send (dropped.change 2) 0,
   .node (.apply 2), .ask, .take [], .ask, .take ["t/a"]]

theorem movedRun_right :
    ((paged dropped).run (.start (.leads dropped 1)) movedRun).reader.all = [("t/a", json 7)] ∧
    ((paged dropped).run (.start (.leads dropped 1)) movedRun).reader.Right dropped :=
  ⟨by decide, run_pages dropped (.writer 1) movedRun
    ⟨⟨Phase.noConfusion, trivial⟩, ⟨⟨rfl, trivial⟩, trivial⟩,
     ⟨⟨rfl, rfl, dropped_listing (by decide) (by decide) (by decide) fun k other =>
        inMemory_none _ _ (leads_none other)⟩, fun _ first => by cases first⟩,
     ⟨le rfl, trivial⟩,
     ⟨⟨le rfl, trivial⟩, .inr (le rfl), fun hides => Bool.noConfusion hides.1⟩,
     ⟨⟨rfl, rfl⟩, trivial⟩,
     ⟨⟨rfl, rfl, dropped_listing (by decide) (by decide) (by decide) fun k other =>
        inMemory_none _ _ (apply_none (leads_none other) (dropped_else 2 other).2)⟩,
      fun _ first i above upto _ => by
        cases first
        have last : i = 2 := Nat.le_antisymm upto above
        rw [last]
        exact .inl List.mem_cons_self⟩,
     ⟨⟨rfl, rfl⟩, trivial⟩,
     ⟨⟨rfl, rfl, dropped_listing (by decide) (by decide) (by decide) fun k other =>
        inMemory_none _ _ (apply_none (leads_none other) (dropped_else 2 other).2)⟩,
      fun _ first => by cases first⟩, trivial⟩⟩

/-- Steps of a call, each of which finds the view at one commit. -/
def steps (task count commit : Nat) : List PageOp :=
  List.replicate count (.node (.step task (at_ commit)))

/-- A change of an older term stands in `recent` for commit 2, which the stream never brought. -/
def maskedRun : List PageOp :=
  .read "c" "t0" (fun _ => true) 1 :: .ask :: steps 0 7 1 ++
    .take ["c", "t/a", "t/b"] :: .send ⟨2, [], []⟩ 0 :: .node (.move 2) :: .ask :: steps 0 7 2 ++
      [.take ["t/a"]]

/-- Change 2 never arrives, and `settle` moves the marks past it: what change 1 laid over the view
stays. -/
def stalePages : List PageOp :=
  .node (.apply 1) :: .node (.move 2) :: .node (.call 1 .settle) :: steps 1 3 0 ++
    .node (.apply 3) :: .read "t/" "t0" (fun _ => true) 5 :: .ask :: steps 0 6 2 ++
      [.take ["t/a", "t/b"]]

/-- The same, under a page's scan that began before change 2. -/
def begunPages : List PageOp :=
  .read "t/" "t0" (fun _ => true) 5 :: .ask :: steps 0 2 0 ++
    .node (.move 2) :: .node (.call 1 .settle) :: steps 1 3 0 ++
      .node (.apply 3) :: steps 0 4 1 ++ [.take ["t/a", "t/b"]]

/-- The catalog is seeded under a page's scan that has read a table which is dropped since. -/
def seededPages : List PageOp :=
  .read "t/" "t0" (fun _ => true) 5 :: .ask :: steps 0 3 1 ++
    .node (.move 2) :: .node (.call 1 .refresh) :: steps 1 11 2 ++
      steps 0 3 2 ++ [.take ["t/a", "t/b"]]

/-- Change 1 arrives again after change 2. -/
def replayedPages : List PageOp :=
  .node (.apply 1) :: .node (.apply 2) :: .node (.apply 1) ::
    .read "t/" "t0" (fun _ => true) 5 :: .ask :: steps 0 6 0 ++ [.take ["t/a", "t/b"]]

/-- A commit of inline data. -/
def inlined : History := .ofPuts fun i => if i = 1 then [("d/1", json 7)] else []

/-- The leader keeps no inline data in memory. -/
def inlinePages : List PageOp := [.read "d/" "d0" (fun _ => true) 5, .ask, .take []]

theorem not_whole {h : History} {r : Reader} (c : Nat) (k : String) (v : Value) (listed : inline k = false)
    (inside : within r.lo r.hi r.keep k = true) (since : r.since = some c)
    (differs : ¬ ((k, v) ∈ r.all ↔ h.asOf c k = some v)) : ¬ r.Whole h := by
  rintro ⟨first, same, part⟩
  rw [since] at same
  cases same
  exact differs (part.exact k v listed inside)

theorem maskedRun_legal : (paged dropped).Legal (.start (.start 1 false)) maskedRun := by
  refine ⟨Phase.noConfusion, ⟨rfl, trivial⟩, ⟨trivial, trivial⟩, ⟨trivial, trivial⟩,
    ⟨fun _ => ⟨le rfl, le rfl⟩, trivial⟩, ⟨trivial, trivial⟩, ⟨trivial, trivial⟩,
    ⟨trivial, trivial⟩, ⟨trivial, trivial⟩, ⟨rfl, rfl, ?_⟩, le rfl, ⟨le rfl, trivial⟩, ⟨rfl, rfl⟩,
    ⟨trivial, trivial⟩, ⟨trivial, trivial⟩,
    ⟨fun _ => ⟨le rfl, le rfl⟩, trivial⟩, ⟨trivial, trivial⟩, ⟨trivial, trivial⟩,
    ⟨trivial, trivial⟩, ⟨trivial, trivial⟩, ⟨rfl, rfl, ?_⟩, trivial⟩
  · exact dropped_listing (by decide) (by decide) (by decide) fun k other => entries_none _ _ other
  · exact dropped_listing (by decide) (by decide) (by decide) fun k other => entries_none _ _ other

theorem stalePages_legal : (paged dropped).Legal (.start (.start 0 false)) stalePages := by
  refine ⟨⟨le rfl, trivial⟩, ⟨le rfl, trivial⟩, ⟨trivial, Nat.succ_ne_zero 0⟩, ⟨trivial, trivial⟩,
    ⟨trivial, trivial⟩, ⟨trivial, trivial⟩, ⟨le rfl, trivial⟩, Phase.noConfusion, ⟨rfl, trivial⟩,
    ⟨trivial, trivial⟩, ⟨trivial, trivial⟩, ⟨fun _ => ⟨le rfl, le rfl⟩, trivial⟩,
    ⟨trivial, trivial⟩, ⟨trivial, trivial⟩, ⟨trivial, trivial⟩, ⟨rfl, rfl, ?_⟩, trivial⟩
  refine dropped_listing (by decide) (by decide) (by decide) fun k other => ?_
  have first : ((Catalog.empty false).apply (dropped.change 1)).overlay k = none :=
    apply_none (show (Catalog.empty false).overlay k = none from rfl) (dropped_else 1 other).2
  have last : ((((Catalog.empty false).apply (dropped.change 1)).mark 1 2).1.apply
      (dropped.change 3)).overlay k = none := apply_none first (dropped_else 3 other).2
  exact overlaid_none last (entries_none _ _ other)

theorem begunPages_legal : (paged dropped).Legal (.start (.start 0 false)) begunPages := by
  refine ⟨Phase.noConfusion, ⟨rfl, trivial⟩, ⟨trivial, trivial⟩, ⟨trivial, trivial⟩,
    ⟨le rfl, trivial⟩, ⟨trivial, Nat.succ_ne_zero 0⟩, ⟨trivial, trivial⟩, ⟨trivial, trivial⟩,
    ⟨trivial, trivial⟩, ⟨le rfl, trivial⟩, ⟨fun _ => ⟨le rfl, le rfl⟩, trivial⟩,
    ⟨trivial, trivial⟩, ⟨trivial, trivial⟩, ⟨trivial, trivial⟩, ⟨rfl, rfl, ?_⟩, trivial⟩
  refine dropped_listing (by decide) (by decide) (by decide) fun k other => ?_
  have last : ((((Catalog.empty false).pin 0).mark 1 2).1.apply (dropped.change 3)).overlay k = none :=
    apply_none (show (((Catalog.empty false).pin 0).mark 1 2).1.overlay k = none from rfl)
      (dropped_else 3 other).2
  exact overlaid_none last (entries_none _ _ other)

theorem seededPages_legal : (paged dropped).Legal (.start (.start 1 true)) seededPages := by
  refine ⟨Phase.noConfusion, ⟨rfl, trivial⟩, ⟨trivial, trivial⟩, ⟨trivial, trivial⟩,
    ⟨fun _ => ⟨le rfl, le rfl⟩, trivial⟩, ⟨le rfl, trivial⟩, ⟨trivial, Nat.succ_ne_zero 0⟩,
    ⟨trivial, trivial⟩, ⟨trivial, trivial⟩, ⟨trivial, trivial⟩, ⟨trivial, trivial⟩,
    ⟨trivial, trivial⟩, ⟨trivial, trivial⟩, ⟨trivial, trivial⟩,
    ⟨fun _ => ⟨le rfl, le rfl⟩, trivial⟩, ⟨trivial, trivial⟩, ⟨trivial, trivial⟩,
    ⟨trivial, trivial⟩, ⟨trivial, trivial⟩, ⟨trivial, trivial⟩, ⟨trivial, trivial⟩,
    ⟨rfl, rfl, ?_⟩, trivial⟩
  refine dropped_listing (by decide) (by decide) (by decide) fun k other => ?_
  have pruned : ((((Catalog.empty true).pin 0).mark 1 2).1.prune 0).overlay k = none :=
    prune_none (show (((Catalog.empty true).pin 0).mark 1 2).1.overlay k = none from rfl)
  have last := seeded_none 2 pruned (entries_none Follower.whole (at_ 2) other)
  exact overlaid_none last (entries_none _ _ other)

theorem replayedPages_legal : (paged dropped).Legal (.start (.start 0 false)) replayedPages := by
  refine ⟨⟨le rfl, trivial⟩, ⟨le rfl, trivial⟩, ⟨le rfl, trivial⟩, Phase.noConfusion,
    ⟨rfl, trivial⟩, ⟨trivial, trivial⟩, ⟨trivial, trivial⟩,
    ⟨fun _ => ⟨le rfl, le rfl⟩, trivial⟩, ⟨trivial, trivial⟩, ⟨trivial, trivial⟩,
    ⟨trivial, trivial⟩, ⟨rfl, rfl, ?_⟩, trivial⟩
  refine dropped_listing (by decide) (by decide) (by decide) fun k other => ?_
  have first : ((Catalog.empty false).apply (dropped.change 1)).overlay k = none :=
    apply_none (show (Catalog.empty false).overlay k = none from rfl) (dropped_else 1 other).2
  exact overlaid_none (apply_none (apply_none first (dropped_else 2 other).2) (dropped_else 1 other).2)
    (entries_none _ _ other)

/-- Reads of a range that are not the range as of their first page's commit: a torn one, where a change
of an older term hides a commit; those whose one page is a scan that is of no one commit; and one of
inline data. -/
theorem pages_torn :
    ((paged dropped).Legal (.start (.start 1 false)) maskedRun ∧
      ((paged dropped).run (.start (.start 1 false)) maskedRun).reader.phase = .ok ∧
      ¬ ((paged dropped).run (.start (.start 1 false)) maskedRun).reader.Whole dropped) ∧
    ((paged dropped).Legal (.start (.start 0 false)) stalePages ∧
      ((paged dropped).run (.start (.start 0 false)) stalePages).reader.phase = .ok ∧
      ¬ ((paged dropped).run (.start (.start 0 false)) stalePages).reader.Whole dropped) ∧
    ((paged dropped).Legal (.start (.start 0 false)) begunPages ∧
      ((paged dropped).run (.start (.start 0 false)) begunPages).reader.phase = .ok ∧
      ¬ ((paged dropped).run (.start (.start 0 false)) begunPages).reader.Whole dropped) ∧
    ((paged dropped).Legal (.start (.start 1 true)) seededPages ∧
      ((paged dropped).run (.start (.start 1 true)) seededPages).reader.phase = .ok ∧
      ¬ ((paged dropped).run (.start (.start 1 true)) seededPages).reader.Whole dropped) ∧
    ((paged dropped).Legal (.start (.start 0 false)) replayedPages ∧
      ((paged dropped).run (.start (.start 0 false)) replayedPages).reader.phase = .ok ∧
      ¬ ((paged dropped).run (.start (.start 0 false)) replayedPages).reader.Whole dropped) ∧
    ((paged inlined).Legal (.start (.leads inlined 1)) inlinePages ∧
      ((paged inlined).run (.start (.leads inlined 1)) inlinePages).reader.phase = .ok ∧
      ((paged inlined).run (.start (.leads inlined 1)) inlinePages).reader.all = [] ∧
      inlined.asOf 1 "d/1" = some (json 7)) := by
  refine ⟨⟨maskedRun_legal, by decide, ?_⟩, ⟨stalePages_legal, by decide, ?_⟩,
    ⟨begunPages_legal, by decide, ?_⟩, ⟨seededPages_legal, by decide, ?_⟩,
    ⟨replayedPages_legal, by decide, ?_⟩, ?_, by decide, by decide, by decide⟩
  · exact not_whole 1 "t/b" (json 8) (by decide) (by decide) (by decide) (by decide)
  · exact not_whole 3 "t/b" (json 8) (by decide) (by decide) (by decide) (by decide)
  · exact not_whole 3 "t/b" (json 8) (by decide) (by decide) (by decide) (by decide)
  · exact not_whole 2 "t/b" (json 8) (by decide) (by decide) (by decide) (by decide)
  · exact not_whole 2 "t/b" (json 8) (by decide) (by decide) (by decide) (by decide)
  · refine ⟨Phase.noConfusion, ⟨rfl, trivial⟩, ⟨rfl, rfl, .nil, ?_⟩, trivial⟩
    intro k
    refine ⟨fun found => (List.not_mem_nil found).elim, ?_⟩
    rintro ⟨inside, found⟩
    have absent : (Follower.leads inlined 1).cat.overlay k = none := by
      show (if inline k then none else (inlined.asOf 1 k).map fun v => (1, some v)) = none
      split
      · rfl
      · rename_i listed
        have notData : k ≠ "d/1" := fun same => listed (same ▸ rfl)
        have notC : k ≠ "c" := fun same => absurd inside (same ▸ by decide)
        simp [History.asOf, inlined, History.ofPuts, History.ofEmpty, effect, lastPut, Ne.symm notData, Ne.symm notC]
    have noEntry := inMemory_none "d/" "d0" absent
    exact absurd (found.symm.trans (congrArg Option.isSome noEntry)) (by decide)

end Pondra.Store
