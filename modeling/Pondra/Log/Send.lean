import Pondra.Base.Removals
import Pondra.Log.Answers
import Pondra.Base.Machine

set_option autoImplicit false

namespace Pondra.Log

open Dicts Removals Machines

/-! ### Appends, and the flush they are packed into -/

/-- A batch to append: its rows as the log keeps them, and the channel its answer goes to. -/
structure Append where
  table : String
  src : Src
  rows : Nat
  bytes : List UInt8
  placed : Option Nat
  ack : Nat
  deriving DecidableEq

/-- A view's rows. -/
structure Derived where
  table : String
  rows : Nat
  bytes : List UInt8
  deriving DecidableEq

def addPart (packed : List UInt8 × List Part) (table : String) (rows : Nat) (bytes : List UInt8)
    (src : Option Src) (placed : Option Nat) : List UInt8 × List Part :=
  let data := if 0 < rows then packed.1 ++ bytes else packed.1
  (data, packed.2 ++
    [⟨table, packed.1.length, data.length - packed.1.length, rows, src, placed⟩])

/-- The producers' batches, then their views' output. -/
def packParts (pending : List Append) (derived : List Derived) : List UInt8 × List Part :=
  derived.foldl (fun packed d => addPart packed d.table d.rows d.bytes none none)
    (pending.foldl (fun packed a => addPart packed a.table a.rows a.bytes (some a.src) a.placed)
      ([], []))

/-- One flush of what is pending: an object at `path` when its bytes don't ride inside the commit. -/
def pack (inlineBytes : Nat) (path : String) (pending : List Append) (derived : List Derived) :
    Flush :=
  let packed := packParts pending derived
  let big := inlineBytes < packed.1.length
  { path := if big then path else ""
    parts := packed.2
    data := if big then [] else packed.1
    reserve := 0
    block := false
    blocks := 0
    filed := []
    sequence := none
    checked := false }

theorem packParts_srcs (pending : List Append) (derived : List Derived) :
    (packParts pending derived).2.map (·.src) =
      pending.map (fun a => some a.src) ++ derived.map fun _ => none := by
  have views (packed : List UInt8 × List Part) :
      (derived.foldl (fun packed d => addPart packed d.table d.rows d.bytes none none) packed).2.map
        (·.src) = packed.2.map (·.src) ++ derived.map fun _ => none := by
    induction derived generalizing packed with
    | nil => simp
    | cons d rest ih =>
      rw [List.foldl_cons, ih]
      simp [addPart]
  have appends (packed : List UInt8 × List Part) :
      (pending.foldl (fun packed a => addPart packed a.table a.rows a.bytes (some a.src) a.placed)
        packed).2.map (·.src) = packed.2.map (·.src) ++ pending.map fun a => some a.src := by
    induction pending generalizing packed with
    | nil => simp
    | cons a rest ih =>
      rw [List.foldl_cons, ih]
      simp [addPart]
  rw [packParts, views, appends]
  rfl

section pack

variable (inlineBytes : Nat) (path : String) (pending : List Append) (derived : List Derived)

theorem pack_length : (pack inlineBytes path pending derived).parts.length =
    pending.length + derived.length := by
  have srcs := congrArg List.length (packParts_srcs pending derived)
  rw [List.length_map, List.length_append, List.length_map, List.length_map] at srcs
  exact srcs

/-- Only the appends' parts have a source. -/
theorem pack_sent (part : Part × Nat)
    (inside : part ∈ (pack inlineBytes path pending derived).parts.zipIdx)
    (sent : part.1.src ≠ none) : part.2 < pending.length := by
  have held := List.mem_zipIdx_iff_getElem?.mp inside
  have src : ((packParts pending derived).2.map (·.src))[part.2]? = some part.1.src := by
    rw [List.getElem?_map, show (packParts pending derived).2[part.2]? = some part.1 from held]
    rfl
  rw [packParts_srcs] at src
  by_contra far
  rw [List.getElem?_append_right (by simpa using far), List.getElem?_map] at src
  cases found : derived[part.2 - (pending.map fun a => some a.src).length]? with
  | none =>
    rw [found] at src
    cases src
  | some d =>
    rw [found] at src
    exact sent (Option.some.inj src).symm

end pack

/-! ### Answers -/

/-- Why an append failed, and whether the answer was lost. -/
structure Refusal where
  why : String
  lost : Bool
  deriving DecidableEq

def movedWhy (table : String) : String :=
  "could not serialize the INSERT into " ++ table ++ ": its columns moved while it was written, " ++
    "so it fills them by an order that is gone. Run it again"

/-- An append's answer: its ack, or why the sequencer refused it. -/
def answer (a : Append) (ack : Ack) : Except Refusal Ack :=
  if ack.refused then
    .error ⟨a.table ++ " has a UNIQUE constraint: it takes rows through SQL's INSERT, UPDATE and " ++
      "MERGE, which check them on the leader", false⟩
  else if ack.gone then .error ⟨"no table " ++ a.table, false⟩
  else if ack.moved then .error ⟨movedWhy a.table, false⟩
  else .ok ack

/-- What comes of sending a flush. An error packing it may be a view's refusal of some rows: `alone`
has those of the appends whose own rows it refuses. -/
inductive Reply where
  | outcome (outcome : Outcome)
  | rowsRefused (why : String) (alone : Append → Option String)
  | failed (why : String) (lost : Bool)

/-- One flush being sent: the appends not answered yet, and the answers given. -/
structure Sending where
  pending : List Append
  answered : List (Append × Except Refusal Ack)
  waits : Nat
  panicked : Bool

namespace Sending

/-- One answer of a `Retry`: the append at that index goes out of the list. -/
def strike (st : Sending) (skipped : Nat × Ack) : Sending :=
  if st.panicked then st
  else
    match st.pending[skipped.1]? with
    | none => { st with panicked := true }
    | some a =>
      { st with
        pending := st.pending.eraseIdx skipped.1
        answered := st.answered ++ [(a, answer a skipped.2)] }

/-- Every append still pending gets the same error. -/
def fail (st : Sending) (refusal : Refusal) : Sending :=
  { st with
    pending := []
    answered := st.answered ++ st.pending.map fun a => (a, .error refusal) }

/-- What `send` does with a reply. -/
def receive (st : Sending) : Reply → Sending
  | .outcome (.acks acks) =>
    { st with
      pending := []
      answered := st.answered ++ (st.pending.zip acks).map fun x => (x.1, answer x.1 x.2) }
  | .outcome (.refused why) => st.fail ⟨why, false⟩
  | .outcome (.retry skipped) =>
    let st := if skipped = [] then { st with waits := st.waits + 1 } else st
    skipped.reverse.foldl strike st
  | .rowsRefused why alone =>
    if 1 < st.pending.length then
      let kept := st.pending.filter fun a => (alone a).isNone
      let told := st.pending.filterMap fun a =>
        (alone a).map fun why => ((a, .error ⟨why, false⟩) : Append × Except Refusal Ack)
      if kept.length = st.pending.length then st.fail ⟨why, false⟩
      else { st with pending := kept, answered := st.answered ++ told }
    else st.fail ⟨why, false⟩
  | .failed why lost => st.fail ⟨why, lost⟩

end Sending

/-! ### Each append is given its own answer -/

/-- The answer an outcome has for the append at a place. -/
def Outcome.own (outcome : Outcome) (x : Append × Nat) : Option (Except Refusal Ack) :=
  match outcome with
  | .acks each => each[x.2]?.map (answer x.1)
  | .refused why => some (.error ⟨why, false⟩)
  | .retry skipped => (skipped.lookup x.2).map (answer x.1)

/-- Each append that the outcome answers is given its own answer once; the others are still pending, in
their order. -/
def Sending.Right (st : Sending) (outcome : Outcome) (next : Sending) : Prop :=
  next.panicked = false ∧
    next.pending =
      (st.pending.zipIdx.filter fun x => (outcome.own x).isNone).map Prod.fst ∧
    ∃ given, next.answered = st.answered ++ given ∧
      given.Perm (st.pending.zipIdx.filterMap fun x =>
        (outcome.own x).map fun told => (x.1, told))

/-- Indices that are skipped, apart from the acks. -/
def places (skipped : List (Nat × Ack)) : List Nat := skipped.map Prod.fst

theorem foldl_strike (skipped : List (Nat × Ack)) (st : Sending) (calm : st.panicked = false) :
    match removeEach (places skipped) st.pending with
    | none => (skipped.foldl Sending.strike st).panicked = true
    | some (gone, left) => skipped.foldl Sending.strike st =
        { st with
          pending := left
          answered := st.answered ++ (gone.zip skipped).map fun x => (x.1, answer x.1 x.2.2) } := by
  have stuck (skipped : List (Nat × Ack)) (st : Sending) (panicked : st.panicked = true) :
      (skipped.foldl Sending.strike st).panicked = true := by
    induction skipped generalizing st with
    | nil => exact panicked
    | cons x rest ih =>
      refine ih _ ?_
      unfold Sending.strike
      rw [if_pos panicked]
      exact panicked
  induction skipped generalizing st with
  | nil =>
    show st = { st with pending := st.pending, answered := st.answered ++ [] }
    rw [List.append_nil]
  | cons x rest ih =>
    rw [places, List.map_cons, removeEach, List.foldl_cons]
    cases held : st.pending[x.1]? with
    | none =>
      refine stuck rest _ ?_
      unfold Sending.strike
      rw [calm, held]
      rfl
    | some a =>
      have struck : st.strike x =
          { st with
            pending := st.pending.eraseIdx x.1
            answered := st.answered ++ [(a, answer a x.2)] } := by
        unfold Sending.strike
        rw [calm, held]
        rfl
      have rested := ih (st.strike x) (by rw [struck]; exact calm)
      rw [struck] at rested ⊢
      simp only at rested ⊢
      change match (removeEach (places rest) (st.pending.eraseIdx x.1)).map
          fun done => (a :: done.1, done.2) with
        | none => _
        | some (gone, left) => _
      cases removed : removeEach (places rest) (st.pending.eraseIdx x.1) with
      | none =>
        rw [removed] at rested
        exact rested
      | some done =>
        rw [removed] at rested
        simp only [Option.map_some]
        rw [rested]
        simp

theorem zip_standing (skipped : List (Nat × Ack)) (pending : List Append)
    (within : ∀ i ∈ places skipped, i < pending.length) :
    ((standing (places skipped) pending).zip skipped).map (fun x => (x.1, answer x.1 x.2.2)) =
      skipped.filterMap fun y => pending[y.1]?.map fun a => (a, answer a y.2) := by
  induction skipped with
  | nil => rfl
  | cons y rest ih =>
    have held := List.getElem?_eq_getElem (within y.1 (by simp [places]))
    have first : standing (places (y :: rest)) pending =
        pending.get ⟨y.1, within y.1 (by simp [places])⟩ :: standing (places rest) pending :=
      List.filterMap_cons_some held
    rw [first, List.zip_cons_cons, List.map_cons, List.filterMap_cons_some (by rw [held]; rfl),
      ih fun i inside => within i (List.mem_cons_of_mem _ inside)]
    rfl

/-- A `Retry` is met rightly exactly when its indices rise. -/
theorem retry_right_iff (st : Sending) (calm : st.panicked = false)
    (distinct : (st.pending.map (·.ack)).Nodup) (skipped : List (Nat × Ack))
    (within : ∀ i ∈ places skipped, i < st.pending.length) (alone : (places skipped).Nodup) :
    st.Right (.retry skipped) (st.receive (.outcome (.retry skipped))) ↔
      (places skipped).Pairwise (· < ·) := by
  have nodup : st.pending.Nodup := distinct.of_map _
  have back : places skipped.reverse = (places skipped).reverse := by
    rw [places, List.map_reverse]
    rfl
  have within' : ∀ i ∈ places skipped.reverse, i < st.pending.length := by
    intro i inside
    rw [back, List.mem_reverse] at inside
    exact within i inside
  have alone' : (places skipped.reverse).Nodup := by
    rw [back]
    exact List.nodup_reverse.mpr alone
  have falls : (places skipped.reverse).Pairwise (· > ·) ↔ (places skipped).Pairwise (· < ·) := by
    rw [back, List.pairwise_reverse]
  have own (x : Append × Nat) : ((Outcome.retry skipped).own x).isNone ↔
      x.2 ∉ places skipped.reverse := by
    have found : (Outcome.retry skipped).own x = (skipped.lookup x.2).map (answer x.1) := rfl
    rw [found, Option.isNone_map, Option.isNone_iff_eq_none, List.lookup_eq_none_iff, back,
      List.mem_reverse]
    constructor
    · intro none inside
      obtain ⟨y, held, same⟩ := List.mem_map.mp inside
      have differs := none y held
      rw [same] at differs
      simp at differs
    · intro out y held
      have differs : x.2 ≠ y.1 := fun same => out (same ▸ List.mem_map_of_mem held)
      simpa using differs
  have unanswered : (st.pending.zipIdx.filter fun x =>
      ((Outcome.retry skipped).own x).isNone).map Prod.fst =
        spare (places skipped.reverse) 0 st.pending := by
    rw [spare_eq]
    congr 1
    refine List.filter_congr fun x _ => ?_
    rw [Bool.eq_iff_iff, own, decide_eq_true_iff]
  have waited : ∃ waits, st.receive (.outcome (.retry skipped)) =
      skipped.reverse.foldl Sending.strike { st with waits := waits } := by
    unfold Sending.receive
    by_cases empty : skipped = []
    · exact ⟨st.waits + 1, by simp only [if_pos empty]⟩
    · exact ⟨st.waits, by simp only [if_neg empty]⟩
  obtain ⟨waits, received⟩ := waited
  have strikes := foldl_strike skipped.reverse { st with waits := waits } calm
  rw [received, ← falls]
  constructor
  · rintro ⟨calm', pending, _⟩
    simp only at strikes
    cases removed : removeEach (places skipped.reverse) st.pending with
    | none =>
      rw [removed] at strikes
      rw [strikes] at calm'
      cases calm'
    | some done =>
      rw [removed] at strikes
      simp only at strikes
      rw [strikes, unanswered] at pending
      obtain ⟨gone, left⟩ := done
      have left : left = spare (places skipped.reverse) 0 st.pending := pending
      exact removeEach_left st.pending nodup _ within' alone' gone (left ▸ removed)
  · intro falling
    have removed := (removeEach_iff st.pending nodup _ within' alone').mpr falling
    simp only at strikes
    rw [removed] at strikes
    simp only at strikes
    rw [strikes]
    refine ⟨calm, unanswered.symm, _, rfl, ?_⟩
    rw [zip_standing _ _ within', List.filterMap_reverse]
    refine (List.reverse_perm _).trans ?_
    have met := filterMap_lookup (fun a ack => (a, answer a ack)) st.pending 0 skipped
      (falls.mp falling) fun i inside => ⟨Nat.zero_le i, by rw [Nat.zero_add]; exact within i inside⟩
    simp only [Nat.sub_zero] at met
    rw [← met]
    refine List.Perm.of_eq (List.filterMap_congr fun x _ => ?_)
    show _ = ((skipped.lookup x.2).map (answer x.1)).map _
    rw [Option.map_map]
    rfl

/-- Acks for each part, or one refusal, are always met rightly. -/
theorem acks_right (st : Sending) (calm : st.panicked = false) (each : List Ack)
    (enough : st.pending.length ≤ each.length) :
    st.Right (.acks each) (st.receive (.outcome (.acks each))) := by
  have own (x : Append × Nat) (inside : x ∈ st.pending.zipIdx) :
      (Outcome.acks each).own x = (each[x.2]?).map (answer x.1) ∧ x.2 < each.length := by
    refine ⟨rfl, ?_⟩
    have bound := (List.mem_zipIdx inside).2.1
    omega
  refine ⟨calm, ?_, _, rfl, ?_⟩
  · have none : (st.pending.zipIdx.filter fun x => ((Outcome.acks each).own x).isNone) = [] := by
      rw [List.filter_eq_nil_iff]
      intro x inside
      obtain ⟨found, bound⟩ := own x inside
      rw [found, List.getElem?_eq_getElem bound]
      simp
    rw [none]
    rfl
  · refine List.Perm.of_eq ?_
    have met : ∀ (pending : List Append) (k : Nat) (acks : List Ack),
        pending.length ≤ acks.length → (∀ i, each[k + i]? = acks[i]?) →
        (pending.zip acks).map (fun x => (x.1, answer x.1 x.2)) =
          (pending.zipIdx k).filterMap fun x =>
            ((Outcome.acks each).own x).map fun told => (x.1, told) := by
      intro pending
      induction pending with
      | nil => intros; rfl
      | cons a rest ih =>
        intro k acks enough same
        cases acks with
        | nil => exact absurd enough (by simp)
        | cons ack acks =>
          have first : each[k]? = some ack := same 0
          rw [List.zipIdx_cons, List.zip_cons_cons, List.map_cons,
            List.filterMap_cons_some (b := (a, answer a ack)) (by simp [Outcome.own, first])]
          congr 1
          refine ih (k + 1) acks (by simpa using enough) fun i => ?_
          rw [show k + 1 + i = k + (i + 1) by omega, same (i + 1), List.getElem?_cons_succ]
    exact met st.pending 0 each enough fun i => by rw [Nat.zero_add]

theorem refused_right (st : Sending) (calm : st.panicked = false) (why : String) :
    st.Right (.refused why) (st.receive (.outcome (.refused why))) := by
  refine ⟨calm, ?_, _, rfl, ?_⟩
  · have none : (st.pending.zipIdx.filter fun x => ((Outcome.refused why).own x).isNone) = [] :=
      List.filter_eq_nil_iff.mpr fun x _ => by simp [Outcome.own]
    rw [none]
    rfl
  · refine List.Perm.of_eq ?_
    have each : ∀ (pending : List Append) (k : Nat),
        pending.map (fun a => ((a, .error ⟨why, false⟩) : Append × Except Refusal Ack)) =
          (pending.zipIdx k).filterMap fun x =>
            ((Outcome.refused why).own x).map fun told => (x.1, told) := by
      intro pending
      induction pending with
      | nil => intros; rfl
      | cons a rest ih =>
        intro k
        rw [List.zipIdx_cons, List.map_cons, ih (k + 1)]
        rfl
    exact each st.pending 0

/-! ### One flush, sent to the sequencer -/

theorem upTo_answers (s : Sequencer) (env : Env) (batch : List (Seen × Flush)) (b : Batch) :
    (batch.foldl (takeFlush s env.views) b).answers.length = b.answers.length + batch.length ∧
      b.answers <+: (batch.foldl (takeFlush s env.views) b).answers := by
  induction batch generalizing b with
  | nil => exact ⟨rfl, List.prefix_refl _⟩
  | cons x rest ih =>
    obtain ⟨outcome, taken, answers, _⟩ := (takeFlush_handled s env.views b x.1 x.2).answered
    obtain ⟨counts, keeps⟩ := ih (takeFlush s env.views b x)
    have answers : (takeFlush s env.views b x).answers = b.answers ++ [⟨x.2, outcome, taken⟩] :=
      answers
    rw [answers] at counts keeps
    rw [List.foldl_cons]
    refine ⟨?_, (List.prefix_append _ _).trans keeps⟩
    rw [counts, List.length_append, List.length_cons, List.length_cons, List.length_nil]
    omega

/-- The answer of a flush in the middle of a commit is what looking at it gave, its acks numbered. -/
theorem answers_at (s : Sequencer) (env : Env) (before after : List (Seen × Flush))
    (x : Seen × Flush) (open' : env.frozen = false) (a : Answer)
    (told : (s.answers env (before ++ x :: after))[before.length]? = some a) :
    ∃ raw, (takeFlush (s.forget env) env.views (s.upTo env before) x).answers =
      (s.upTo env before).answers ++ [raw] ∧ (a = raw ∨ ∃ seg, a = raw.number seg) := by
  have handled := takeFlush_handled (s.forget env) env.views (s.upTo env before) x.1 x.2
  obtain ⟨outcome, taken, answers, _⟩ := handled.answered
  refine ⟨⟨x.2, outcome, taken⟩, answers, ?_⟩
  have count : (s.upTo env before).answers.length = before.length := by
    have counted := (upTo_answers (s.forget env) env before
      ⟨s.next, s.block, ∅, [], [], ∅, [], [], [], [], [], none⟩).1
    rw [List.length_nil, Nat.zero_add] at counted
    exact counted
  have kept := (upTo_answers (s.forget env) env after
    (takeFlush (s.forget env) env.views (s.upTo env before) x)).2
  have whole : s.upTo env (before ++ x :: after) =
      after.foldl (takeFlush (s.forget env) env.views)
        (takeFlush (s.forget env) env.views (s.upTo env before) x) := by
    unfold Sequencer.upTo
    rw [List.foldl_append, List.foldl_cons]
  rw [← whole] at kept
  have answers : (takeFlush (s.forget env) env.views (s.upTo env before) x).answers =
      (s.upTo env before).answers ++ [⟨x.2, outcome, taken⟩] := answers
  rw [answers] at kept
  obtain ⟨rest, all⟩ := kept
  have at' : (s.upTo env (before ++ x :: after)).answers[before.length]? =
      some ⟨x.2, outcome, taken⟩ := by
    rw [← all, List.append_assoc, List.getElem?_append_right (by omega), count]
    simp
  unfold Sequencer.answers Sequencer.sequence Batch.finish at told
  rw [open'] at told
  simp only [Bool.false_eq_true, if_false] at told
  split at told
  · rw [at'] at told
    exact .inl (Option.some.inj told).symm
  · simp only [List.getElem?_map, at', Option.map_some, Option.some.injEq] at told
    exact .inr ⟨_, told.symm⟩

/-- A retry, or a batch whose `prev` no longer holds, stands in a flush before a part whose table doesn't
take it, and the flush goes back because a view derived rows from it. -/
def Sequencer.Crossed (s : Sequencer) (env : Env) (before : List (Seen × Flush)) (seen : Seen)
    (f : Flush) : Prop :=
  env.frozen = false ∧ ¬ f.stale env.views ∧ ¬ f.waits seen.held ∧ (∃ p ∈ f.parts, p.src = none) ∧
    ∃ i j, i < j ∧ (s.forget env).Retried seen (s.upTo env before).seqs f i ∧
      j ∈ (f.barred seen.found).map Prod.fst

theorem places_acks (bad : List (Nat × Skip)) :
    places (bad.map fun skipped => (skipped.1, skipped.2.ack)) = bad.map Prod.fst := by
  rw [places, List.map_map]
  rfl

theorem acks_length (f : Flush) (bad : List (Nat × Skip)) (rows : List (Nat × Nat)) (seg : Nat) :
    (f.acks bad rows seg).length = f.parts.length := by
  simp [Flush.acks]

theorem receive_number (st : Sending) (raw : Answer) (seg : Nat) (calm : st.panicked = false)
    (each : List Ack) (acks : raw.outcome = .acks each) (enough : st.pending.length ≤ each.length) :
    st.Right (raw.number seg).outcome (st.receive (.outcome (raw.number seg).outcome)) := by
  have same : (raw.number seg).outcome = .acks (each.map (Ack.number seg)) := by
    unfold Answer.number
    rw [acks]
  rw [same]
  exact acks_right st calm _ (by rw [List.length_map]; exact enough)

section sent

variable (s : Sequencer) (env : Env) (before after : List (Seen × Flush)) (seen : Seen)
  (st : Sending) (inlineBytes : Nat) (path : String) (derived : List Derived) (a : Answer)

/-- Whatever a commit answers a flush of the pending appends, each append is given its own answer exactly
when no retry crosses a part whose table doesn't take it. -/
theorem receive_right_iff (calm : st.panicked = false) (distinct : (st.pending.map (·.ack)).Nodup)
    (told : (s.answers env (before ++
      (seen, pack inlineBytes path st.pending derived) :: after))[before.length]? = some a) :
    st.Right a.outcome (st.receive (.outcome a.outcome)) ↔
      ¬ s.Crossed env before seen (pack inlineBytes path st.pending derived) := by
  cases frozen : env.frozen with
  | true =>
    have refused : a.outcome = .refused "a backup takes no rows" := by
      unfold Sequencer.answers at told
      rw [if_pos frozen, List.getElem?_map, List.getElem?_append_right (Nat.le_refl _)] at told
      simp only [Nat.sub_self, List.getElem?_cons_zero, Option.map_some, Option.some.injEq] at told
      rw [← told]
    rw [refused]
    refine ⟨fun _ crossed => ?_, fun _ => refused_right st calm _⟩
    rw [crossed.1] at frozen
    cases frozen
  | false =>
    have length := pack_length inlineBytes path st.pending derived
    have sent := pack_sent inlineBytes path st.pending derived
    have plain : (pack inlineBytes path st.pending derived).sequence = none ∧
        ¬ (0 < (pack inlineBytes path st.pending derived).reserve ∨
          (pack inlineBytes path st.pending derived).block ∨
          0 < (pack inlineBytes path st.pending derived).blocks) ∧
        (pack inlineBytes path st.pending derived).filed = [] := by
      simp [pack]
    generalize pack inlineBytes path st.pending derived = f at told length sent plain ⊢
    obtain ⟨raw, answers, same⟩ := answers_at s env before after (seen, f) frozen a told
    have handled := takeFlush_handled (s.forget env) env.views (s.upTo env before) seen f
    generalize takeFlush (s.forget env) env.views (s.upTo env before) (seen, f) = later
      at answers handled
    have retry (skipped : List (Nat × Ack)) (raw' : raw.outcome = .retry skipped) :
        a.outcome = .retry skipped := by
      rcases same with rfl | ⟨seg, rfl⟩
      · exact raw'
      · unfold Answer.number
        rw [raw']
        exact raw'
    have acks (each : List Ack) (raw' : raw.outcome = .acks each)
        (enough : st.pending.length ≤ each.length) :
        st.Right a.outcome (st.receive (.outcome a.outcome)) := by
      rcases same with rfl | ⟨seg, rfl⟩
      · rw [raw']
        exact acks_right st calm each enough
      · exact receive_number st raw seg calm each raw' enough
    have only (outcome : Outcome) (taken : List (Part × Nat))
        (grown : later.answers = (s.upTo env before).answers ++ [⟨f, outcome, taken⟩]) :
        raw.outcome = outcome := by
      rw [grown] at answers
      rw [← (List.cons.inj (List.append_cancel_left answers)).1]
    cases handled with
    | counted op asks => rw [plain.1] at asks; cases asks
    | reserved asks => exact absurd asks plain.2.1
    | inAlready _ files => exact absurd plain.2.2 files
    | sentBack why =>
      rw [retry [] (only _ _ rfl)]
      refine ⟨fun _ crossed => ?_, fun _ => (retry_right_iff st calm distinct [] (by simp [places])
        List.nodup_nil).mpr List.Pairwise.nil⟩
      rcases why with stale | waits
      · exact crossed.2.1 stale
      · exact crossed.2.2.1 waits
    | redone fresh free bad files views =>
      obtain ⟨alone, rises⟩ := (s.forget env).bad_rises seen (s.upTo env before).seqs f
      rw [retry _ (only _ _ rfl), retry_right_iff st calm distinct _ ?_ (by rw [places_acks]; exact alone),
        places_acks, rises]
      · constructor
        · rintro uncrossed ⟨_, _, _, _, crossed⟩
          exact uncrossed crossed
        · exact fun uncrossed crossed => uncrossed ⟨frozen, fresh, free, views, crossed⟩
      · intro i inside
        rw [places_acks] at inside
        obtain ⟨skipped, held, rfl⟩ := List.mem_map.mp inside
        obtain ⟨part, zipped, place, src⟩ := (s.forget env).bad_sent seen (s.upTo env before).seqs f
          skipped held
        exact place ▸ sent part zipped src
    | taken asks fresh free whole =>
      have right : st.Right a.outcome (st.receive (.outcome a.outcome)) := by
        have enough (rows : List (Nat × Nat)) (seg : Nat) : st.pending.length ≤ (f.acks
            ((s.forget env).bad seen (s.upTo env before).seqs f) rows seg).length := by
          rw [acks_length, length]
          exact Nat.le_add_right _ _
        unfold Batch.take at only
        simp only at only
        split at only
        · exact acks _ (only _ _ rfl) (enough _ _)
        · split at only
          · exact acks _ (only _ _ rfl) (enough _ _)
          · exact acks _ (only _ _ rfl) (enough _ _)
      refine ⟨fun _ crossed => ?_, fun _ => right⟩
      obtain ⟨_, _, _, ⟨p, inside, view⟩, i, j, _, _, barred⟩ := crossed
      rcases whole with none | ⟨_, all⟩
      · have inBad : j ∈ ((s.forget env).bad seen (s.upTo env before).seqs f).map Prod.fst := by
          rw [Sequencer.bad, List.map_append]
          exact List.mem_append_left _ barred
        rw [none] at inBad
        exact List.not_mem_nil inBad
      · exact all p inside view

end sent

/-! ### Until nothing is pending -/

/-- One round of `send`: a flush of what is pending sent to the sequencer, or an error on the way. -/
inductive Round where
  | sent (s : Sequencer) (env : Env) (before after : List (Seen × Flush)) (seen : Seen)
      (inlineBytes : Nat) (path : String) (derived : List Derived)
  | rowsRefused (why : String) (alone : Append → Option String)
  | failed (why : String) (lost : Bool)

/-- What comes of a round. -/
def Sending.reply (st : Sending) : Round → Reply
  | .sent s env before after seen inlineBytes path derived =>
    match (s.answers env (before ++
      (seen, pack inlineBytes path st.pending derived) :: after))[before.length]? with
    | some a => .outcome a.outcome
    | none => .failed "sequencer stopped" true
  | .rowsRefused why alone => .rowsRefused why alone
  | .failed why lost => .failed why lost

/-- `send`, which goes on while an append is pending. -/
def sender : Machine Sending Round where
  next st round := st.receive (st.reply round)
  Allows st _ := st.pending ≠ []

/-- No retry crosses a part whose table doesn't take it. -/
def Sending.Uncrossed (st : Sending) : Round → Prop
  | .sent s env before _ seen inlineBytes path derived =>
    ¬ s.Crossed env before seen (pack inlineBytes path st.pending derived)
  | _ => True

/-- Every append has one answer or is still pending, in its order. -/
structure Sending.Whole (all : List Append) (st : Sending) : Prop where
  calm : st.panicked = false
  once : (st.answered.map Prod.fst ++ st.pending).Perm all
  order : st.pending.Sublist all

theorem parted (pending : List Append) (own : Append × Nat → Option (Except Refusal Ack))
    (given : List (Append × Except Refusal Ack))
    (perm : given.Perm (pending.zipIdx.filterMap fun x =>
      (own x).map fun told => (x.1, told))) :
    (given.map Prod.fst ++ (pending.zipIdx.filter fun x => (own x).isNone).map Prod.fst).Perm
      pending := by
  have firsts : (pending.zipIdx.filterMap fun x => (own x).map fun told => (x.1, told)).map
      Prod.fst = (pending.zipIdx.filter fun x => (own x).isSome).map Prod.fst := by
    generalize pending.zipIdx = zipped
    induction zipped with
    | nil => rfl
    | cons x rest ih =>
      cases told : own x with
      | none =>
        rw [List.filterMap_cons_none (by rw [told]; rfl),
          List.filter_cons_of_neg (by rw [told]; simp), ih]
      | some answer =>
        rw [List.filterMap_cons_some (b := (x.1, answer)) (by rw [told]; rfl),
          List.filter_cons_of_pos (by rw [told]; rfl), List.map_cons, List.map_cons, ih]
  have whole : pending.zipIdx.map Prod.fst = pending := by
    rw [List.zipIdx_eq_zip_range', List.map_fst_zip (by simp)]
  refine (List.Perm.append_right _ (perm.map Prod.fst)).trans ?_
  rw [firsts, ← List.map_append]
  have split := (List.filter_append_perm (fun x : Append × Nat => (own x).isSome) pending.zipIdx)
  have both := split.map Prod.fst
  rw [whole] at both
  refine List.Perm.trans (List.Perm.of_eq ?_) both
  congr 2
  refine List.filter_congr fun x _ => ?_
  cases own x with
  | none => rfl
  | some _ => rfl

theorem Sending.Whole.grow {all : List Append} {st next : Sending} (whole : st.Whole all)
    (calm : next.panicked = false) (given : List (Append × Except Refusal Ack))
    (answered : next.answered = st.answered ++ given)
    (once : (given.map Prod.fst ++ next.pending).Perm st.pending)
    (order : next.pending.Sublist st.pending) : next.Whole all where
  calm := calm
  once := by
    rw [answered, List.map_append, List.append_assoc]
    exact (List.Perm.append_left _ once).trans whole.once
  order := order.trans whole.order

theorem Sending.Whole.right {all : List Append} {st next : Sending} (whole : st.Whole all)
    {outcome : Outcome} (right : st.Right outcome next) : next.Whole all := by
  obtain ⟨calm, pending, given, answered, perm⟩ := right
  refine whole.grow calm given answered ?_ ?_
  · rw [pending]
    exact parted st.pending outcome.own given perm
  · rw [pending]
    have firsts : st.pending.zipIdx.map Prod.fst = st.pending := by
      rw [List.zipIdx_eq_zip_range', List.map_fst_zip (by simp)]
    have sub := (List.filter_sublist (p := fun x => (outcome.own x).isNone)
      (l := st.pending.zipIdx)).map Prod.fst
    rw [firsts] at sub
    exact sub

theorem Sending.Whole.fail {all : List Append} {st : Sending} (whole : st.Whole all)
    (refusal : Refusal) : (st.fail refusal).Whole all := by
  refine whole.grow whole.calm _ rfl ?_ (List.nil_sublist _)
  show ((st.pending.map fun a => ((a, .error refusal) : Append × Except Refusal Ack)).map Prod.fst
    ++ []).Perm st.pending
  rw [List.append_nil, List.map_map]
  exact List.Perm.of_eq (List.map_id _)

theorem Sending.Whole.step {all : List Append} {st : Sending} (whole : st.Whole all)
    (distinct : (all.map (·.ack)).Nodup) (round : Round) (uncrossed : st.Uncrossed round) :
    (sender.next st round).Whole all := by
  have alone : (st.pending.map (·.ack)).Nodup := distinct.sublist (whole.order.map _)
  cases round with
  | sent s env before after seen inlineBytes path derived =>
    show (st.receive (st.reply _)).Whole all
    unfold Sending.reply
    simp only
    split
    · rename_i a told
      exact whole.right ((receive_right_iff s env before after seen st inlineBytes path derived a
        whole.calm alone told).mpr uncrossed)
    · exact whole.fail _
  | failed why lost => exact whole.fail ⟨why, lost⟩
  | rowsRefused why alone =>
    show (st.receive (.rowsRefused why alone)).Whole all
    unfold Sending.receive
    simp only
    split
    · split
      · exact whole.fail _
      · refine whole.grow whole.calm _ rfl ?_ List.filter_sublist
        have parts := parted st.pending
          (fun x => (alone x.1).map fun why => (.error ⟨why, false⟩ : Except Refusal Ack)) _
          (List.Perm.refl _)
        have told : ∀ (pending : List Append) (k : Nat), (pending.zipIdx k).filterMap (fun x =>
            ((alone x.1).map fun why => (.error ⟨why, false⟩ : Except Refusal Ack)).map
              fun told => (x.1, told)) = pending.filterMap fun a => (alone a).map
                fun why => ((a, .error ⟨why, false⟩) : Append × Except Refusal Ack) := by
          intro pending
          induction pending with
          | nil => intros; rfl
          | cons a rest ih =>
            intro k
            rw [List.zipIdx_cons, List.filterMap_cons, List.filterMap_cons, ih (k + 1),
              Option.map_map]
            rfl
        have kept : ∀ (pending : List Append) (k : Nat), ((pending.zipIdx k).filter fun x =>
            ((alone x.1).map fun why =>
              (.error ⟨why, false⟩ : Except Refusal Ack)).isNone).map Prod.fst =
                pending.filter fun a => (alone a).isNone := by
          intro pending
          induction pending with
          | nil => intros; rfl
          | cons a rest ih =>
            intro k
            rw [List.zipIdx_cons, List.filter_cons, List.filter_cons, ← ih (k + 1), Option.isNone_map]
            split
            · rfl
            · rfl
        rw [told, kept] at parts
        exact parts
    · exact whole.fail _

theorem run_whole (all : List Append) (distinct : (all.map (·.ack)).Nodup) (rounds : List Round)
    (st : Sending) (whole : st.Whole all)
    (legal : (sender.only Sending.Uncrossed).Legal st rounds) :
    (sender.run st rounds).Whole all := by
  induction rounds generalizing st with
  | nil => exact whole
  | cons round rest ih =>
    obtain ⟨⟨_, uncrossed⟩, legal⟩ := legal
    exact ih _ (whole.step distinct round uncrossed) legal

/-- Each append is given its own answer, and the others are sent again in their order, exactly when no
retry crosses a part whose table doesn't take it; and where none does, in any round, every append has
one answer or is still pending. -/
theorem send_answers (st : Sending) (calm : st.panicked = false)
    (distinct : (st.pending.map (·.ack)).Nodup) (fresh : st.answered = []) :
    (∀ (s : Sequencer) (env : Env) (before after : List (Seen × Flush)) (seen : Seen)
      (inlineBytes : Nat) (path : String) (derived : List Derived) (a : Answer),
      (s.answers env (before ++
        (seen, pack inlineBytes path st.pending derived) :: after))[before.length]? = some a →
      (st.Right a.outcome (st.receive (.outcome a.outcome)) ↔
        ¬ s.Crossed env before seen (pack inlineBytes path st.pending derived))) ∧
    ∀ rounds : List Round, (sender.only Sending.Uncrossed).Legal st rounds →
      (sender.run st rounds).Whole st.pending := by
  refine ⟨fun s env before after seen inlineBytes path derived a told =>
    receive_right_iff s env before after seen st inlineBytes path derived a calm distinct told, ?_⟩
  refine fun rounds legal => run_whole st.pending distinct rounds st ⟨calm, ?_, .refl _⟩ legal
  rw [fresh]
  exact List.Perm.refl _

section runs

def appendOf (producer table : String) (seq ack : Nat) : Append :=
  ⟨table, ⟨producer, seq, none⟩, 1, [7], none, ack⟩

/-- A retry and a new batch, with a view's rows: the retry is answered, and the other is sent again. -/
def twoAppends : Sending := ⟨[appendOf "p" "t" 1 0, appendOf "q" "t" 1 1], [], 0, false⟩

/-- Four appends: the first is a retry, and the third's table was dropped. -/
def fourAppends : Sending :=
  ⟨[appendOf "p" "t" 1 0, appendOf "q" "t" 1 1, appendOf "q" "u" 2 2, appendOf "r" "t" 1 3], [], 0,
    false⟩

/-- A sequencer that has committed `p`'s batch 1. -/
def knowsP : Sequencer :=
  Sequencer.start ⟨AList.singleton "p" 1, ∅, none, none, none⟩ [] 0

/-- View `v` follows table `t`. -/
def followedEnv : Env :=
  ⟨false, [], ⟨fun table => if table = "t" then ["v"] else [], ["v"]⟩, 0, 0, 0⟩

def droppedSeen : Seen :=
  ⟨0, [], fun i => if i = 2 then none else some ⟨[], 0, false, []⟩, .refused "no sequence", 0⟩

def viewRows : List Derived := [⟨"v", 1, [8]⟩]

def standingSeen : Seen :=
  ⟨0, [], fun _ => some ⟨[], 0, false, []⟩, .refused "no sequence", 0⟩

def twoRounds : List Round :=
  [.sent knowsP followedEnv [] [] standingSeen 100 "" viewRows,
    .sent knowsP followedEnv [] [] standingSeen 100 "" viewRows]

theorem twoAppends_whole : (sender.run twoAppends twoRounds).Whole twoAppends.pending :=
  (send_answers twoAppends rfl (by decide) rfl).2 twoRounds
    ⟨⟨List.cons_ne_nil _ _, by
        rintro ⟨_, _, _, _, i, j, _, _, barred⟩
        exact List.not_mem_nil barred⟩,
      ⟨List.cons_ne_nil _ _, by
        rintro ⟨_, _, _, _, i, j, _, _, barred⟩
        exact List.not_mem_nil barred⟩, trivial⟩

/-- The answer for the third append goes to the fourth, which is not sent again, and the third is. -/
theorem fourAppends_crossed : ∃ a,
    (knowsP.answers followedEnv
      [(droppedSeen, pack 100 "" fourAppends.pending viewRows)])[0]? = some a ∧
    (fourAppends.receive (.outcome a.outcome)).answered =
      [(appendOf "p" "t" 1 0, .ok { Ack.blank with duplicate := true }),
        (appendOf "r" "t" 1 3, .error ⟨"no table t", false⟩)] ∧
    ¬ fourAppends.Right a.outcome (fourAppends.receive (.outcome a.outcome)) := by
  refine ⟨_, rfl, by decide, ?_⟩
  rintro ⟨_, pending, _⟩
  revert pending
  decide

end runs

end Pondra.Log
