import Mathlib.Algebra.GroupWithZero.Nat
import Pondra.Base.Machine

set_option autoImplicit false

/-! ### A joined page's own statements, on their way to its node -/

namespace Pondra.Records

open Machines

/-- Unsent lines a page holds: past this the oldest go, and are counted. -/
def maxLines : Nat := 2000

/-- Lines in one batch at most, and bytes. -/
def batchLines : Nat := 256
def batchBytes : Nat := 524288

/-- One statement a page ran. -/
structure Line where
  statement : String
  outcome : String
  error : Option String
  ms : Int
  deriving DecidableEq

def Line.size (l : Line) : Nat := l.statement.utf8ByteSize + (l.error.map String.utf8ByteSize).getD 0

/-- Its lines, and how many lines the page dropped unsent since its last batch. -/
structure Batch where
  lines : List Line
  dropped : Nat
  deriving DecidableEq

/-- What a page holds unsent. -/
structure Buffer where
  lines : List Line
  dropped : Nat
  ended : Bool
  deriving DecidableEq

/-- Past `maxLines` the oldest go, counted. -/
def Buffer.bounded (b : Buffer) : Buffer :=
  { b with
    lines := b.lines.drop (b.lines.length - maxLines)
    dropped := b.dropped + (b.lines.length - maxLines) }

def Buffer.push (b : Buffer) (line : Line) : Buffer :=
  if b.ended then b else { b with lines := b.lines ++ [line] }.bounded

/-- The oldest lines, up to `batchLines` and `batchBytes`, with the rest; `n` and `bytes` are in already. -/
def taking : Nat → Nat → List Line → List Line × List Line
  | _, _, [] => ([], [])
  | n, bytes, line :: rest =>
    if n = batchLines ∨ (n ≠ 0 ∧ batchBytes < bytes + line.size) then ([], line :: rest)
    else
      let more := taking (n + 1) (bytes + line.size) rest
      (line :: more.1, more.2)

/-- The next batch, with the lines dropped since the last; none when nothing waits. -/
def Buffer.take (b : Buffer) : Option (Batch × Buffer) :=
  if b.lines = [] ∧ b.dropped = 0 then none
  else
    let taken := taking 0 0 b.lines
    some (⟨taken.1, b.dropped⟩, { b with lines := taken.2, dropped := 0 })

/-- A batch that didn't reach its node goes back to the front, for the next second. -/
def Buffer.giveBack (b : Buffer) (batch : Batch) : Buffer :=
  { b with lines := batch.lines ++ b.lines, dropped := b.dropped + batch.dropped }.bounded

/-- What becomes of a batch sent: the node takes it, refuses it as it is (a 4xx), refuses the sign-in (a 401
or 403), fails (a 5xx), or no answer comes, and the node took it or not. -/
inductive Outcome
  | accepted
  | refused
  | unauthorised
  | failed
  | unanswered (took : Bool)
  deriving DecidableEq

/-- The buffer, and the batches on their way, the first taken first. History: what the node took, the drops it
was told of, and the lines pushed. -/
structure State where
  buffer : Buffer
  sent : List Batch
  node : List Line
  told : Nat
  pushed : List Line

inductive Op
  | push (line : Line)
  | take
  | answer (i : Nat) (outcome : Outcome)

def State.tells (s : State) (b : Batch) : State :=
  { s with node := s.node ++ b.lines, told := s.told + b.dropped }

def answer (s : State) (i : Nat) (b : Batch) : Outcome → State
  | .accepted => { s with sent := s.sent.eraseIdx i }.tells b
  | .refused =>
    { s with
      sent := s.sent.eraseIdx i
      buffer := { s.buffer with dropped := s.buffer.dropped + b.lines.length } }
  | .unauthorised => { s with sent := s.sent.eraseIdx i, buffer := ⟨[], 0, true⟩ }
  | .failed => { s with sent := s.sent.eraseIdx i, buffer := s.buffer.giveBack b }
  | .unanswered took =>
    let s := if took then s.tells b else s
    { s with sent := s.sent.eraseIdx i, buffer := s.buffer.giveBack b }

def next (s : State) : Op → State
  | .push line =>
    { s with
      buffer := s.buffer.push line
      pushed := if s.buffer.ended then s.pushed else s.pushed ++ [line] }
  | .take =>
    match s.buffer.take with
    | none => s
    | some (batch, buffer) => { s with buffer := buffer, sent := s.sent ++ [batch] }
  | .answer i outcome =>
    match s.sent[i]? with
    | none => s
    | some b => answer s i b outcome

def page : Machine State Op where
  next := next
  Allows _ _ := True

def opened : State := ⟨⟨[], 0, false⟩, [], [], 0, []⟩

/-- The lines on their way. -/
def State.flying (s : State) : List Line := s.sent.flatMap Batch.lines

/-- Until the sign-in ends, each line pushed is taken, told or still to be told as dropped, or waiting; the node
takes lines in the order pushed, none twice; and the buffer holds no more than its maximum. -/
structure Holds (s : State) : Prop where
  counted : s.buffer.ended = false →
    s.node.length + s.told + s.buffer.dropped + (s.sent.map Batch.dropped).sum + s.flying.length +
      s.buffer.lines.length = s.pushed.length
  ordered : s.node.Sublist s.pushed
  bounded : s.buffer.lines.length ≤ maxLines

def State.noOlder (s : State) (i : Nat) : Prop := ∀ b ∈ s.sent.take i, b.lines = []

def State.noNewer (s : State) (i : Nat) : Prop := ∀ b ∈ s.sent.drop (i + 1), b.lines = []

instance (s : State) (i : Nat) : Decidable (s.noOlder i) :=
  inferInstanceAs (Decidable (∀ b ∈ s.sent.take i, b.lines = []))

instance (s : State) (i : Nat) : Decidable (s.noNewer i) :=
  inferInstanceAs (Decidable (∀ b ∈ s.sent.drop (i + 1), b.lines = []))

/-- A batch is taken by the node while no older line is on its way, refused when it tells of no drops, and comes
back while no newer line is on its way and the node did not take it. -/
def Sure (s : State) : Op → Prop
  | .answer i .accepted => s.noOlder i
  | .answer i .refused => ∀ b ∈ s.sent[i]?, b.dropped = 0
  | .answer i .failed => s.noNewer i
  | .answer i (.unanswered took) => s.noNewer i ∧ took = false
  | _ => True

instance decidableSure (s : State) : (op : Op) → Decidable (Sure s op)
  | .push _ => inferInstanceAs (Decidable True)
  | .take => inferInstanceAs (Decidable True)
  | .answer i .accepted => inferInstanceAs (Decidable (s.noOlder i))
  | .answer i .refused => inferInstanceAs (Decidable (∀ b ∈ s.sent[i]?, b.dropped = 0))
  | .answer _ .unauthorised => inferInstanceAs (Decidable True)
  | .answer i .failed => inferInstanceAs (Decidable (s.noNewer i))
  | .answer i (.unanswered took) =>
    inferInstanceAs (Decidable (s.noNewer i ∧ took = false))

instance (s : State) (op : Op) : Decidable (page.Allows s op) := inferInstanceAs (Decidable True)

instance (s : State) (op : Op) : Decidable ((page.only Sure).Allows s op) :=
  inferInstanceAs (Decidable (True ∧ Sure s op))

/-! ### The buffer's steps -/

theorem taking_append (n bytes : Nat) (lines : List Line) :
    (taking n bytes lines).1 ++ (taking n bytes lines).2 = lines := by
  induction lines generalizing n bytes with
  | nil => rfl
  | cons line rest ih =>
    rw [taking]
    split
    · rfl
    · simp only [List.cons_append, ih]

theorem sub_excess (n most : Nat) : n - (n - most) ≤ most := by omega

theorem bounded_length (b : Buffer) : b.bounded.lines.length ≤ maxLines := by
  rw [Buffer.bounded, List.length_drop]
  exact sub_excess _ _

/-- What goes is counted. -/
theorem bounded_count (b : Buffer) :
    b.bounded.dropped + b.bounded.lines.length = b.dropped + b.lines.length := by
  have excess (n most dropped : Nat) : dropped + (n - most) + (n - (n - most)) = dropped + n := by
    omega
  rw [Buffer.bounded, List.length_drop]
  exact excess _ _ _

theorem bounded_ended (b : Buffer) : b.bounded.ended = b.ended := by
  simp only [Buffer.bounded]

theorem bounded_sublist (b : Buffer) : b.bounded.lines.Sublist b.lines := by
  simp only [Buffer.bounded]
  exact List.drop_sublist (b.lines.length - maxLines) b.lines

/-! ### The invariant -/

structure Inv (s : State) : Prop where
  counted : s.buffer.ended = false →
    s.node.length + s.told + s.buffer.dropped + (s.sent.map Batch.dropped).sum + s.flying.length +
      s.buffer.lines.length = s.pushed.length
  ordered : (s.node ++ s.flying ++ s.buffer.lines).Sublist s.pushed
  bounded : s.buffer.lines.length ≤ maxLines

theorem Inv.holds {s : State} (inv : Inv s) : Holds s where
  counted := inv.counted
  ordered := by
    have first := List.sublist_append_left s.node (s.flying ++ s.buffer.lines)
    rw [← List.append_assoc] at first
    exact first.trans inv.ordered
  bounded := inv.bounded

theorem opened_inv : Inv opened where
  counted _ := rfl
  ordered := List.Sublist.refl _
  bounded := Nat.zero_le _

theorem Inv.push {s : State} (inv : Inv s) (line : Line) : Inv (next s (.push line)) := by
  cases ended : s.buffer.ended with
  | true =>
    have same : next s (.push line) = s := by
      simp [next, Buffer.push, ended]
    rw [same]
    exact inv
  | false =>
    obtain ⟨b, made⟩ : ∃ b, { s.buffer with lines := s.buffer.lines ++ [line] }.bounded = b := ⟨_, rfl⟩
    have step : next s (.push line) = { s with buffer := b, pushed := s.pushed ++ [line] } := by
      rw [← made]
      simp only [next, Buffer.push, ended, Bool.false_eq_true, if_false]
    have kept := bounded_count { s.buffer with lines := s.buffer.lines ++ [line] }
    have stay := bounded_sublist { s.buffer with lines := s.buffer.lines ++ [line] }
    have few := bounded_length { s.buffer with lines := s.buffer.lines ++ [line] }
    have counted := inv.counted ended
    have longer := inv.ordered.append (List.Sublist.refl [line])
    rw [List.append_assoc (s.node ++ s.flying)] at longer
    rw [made] at kept stay few
    rw [step]
    refine ⟨fun _ => ?_, ((List.Sublist.refl (s.node ++ s.flying)).append stay).trans longer, few⟩
    simp only [List.length_append, List.length_singleton, State.flying] at kept counted ⊢
    omega

theorem take_spec (b taken : Buffer) (batch : Batch) (found : b.take = some (batch, taken)) :
    batch.lines ++ taken.lines = b.lines ∧ batch.dropped = b.dropped ∧ taken.dropped = 0 ∧
      taken.ended = b.ended := by
  unfold Buffer.take at found
  split at found
  · cases found
  · obtain ⟨rfl, rfl⟩ := Prod.mk.inj (Option.some.inj found)
    exact ⟨taking_append 0 0 b.lines, rfl, rfl, rfl⟩

theorem flatMap_concat (sent : List Batch) (batch : Batch) :
    (sent ++ [batch]).flatMap Batch.lines = sent.flatMap Batch.lines ++ batch.lines := by
  simp

theorem Inv.take {s : State} (inv : Inv s) : Inv (next s .take) := by
  simp only [next]
  split
  · exact inv
  · rename_i batch taken found
    obtain ⟨lines, dropped, none_, ended⟩ := take_spec s.buffer taken batch found
    have length : batch.lines.length + taken.lines.length = s.buffer.lines.length := by
      rw [← lines, List.length_append]
    refine ⟨fun open_ => ?_, ?_, ?_⟩
    · have counted := inv.counted (ended ▸ open_)
      simp only [State.flying, flatMap_concat, List.map_append, List.map_cons, List.map_nil,
        List.sum_append, List.sum_cons, List.sum_nil, List.length_append] at counted ⊢
      omega
    · have ordered := inv.ordered
      rw [← lines] at ordered
      simp only [State.flying, flatMap_concat]
      simpa only [State.flying, List.append_assoc] using ordered
    · have bounded := inv.bounded
      simp only
      omega

/-- The batches before and after the one answered. -/
theorem around (sent : List Batch) (i : Nat) (b : Batch) (found : sent[i]? = some b) :
    sent = sent.take i ++ b :: sent.drop (i + 1) ∧ sent.eraseIdx i = sent.take i ++ sent.drop (i + 1) := by
  obtain ⟨bound, at_⟩ := List.getElem?_eq_some_iff.mp found
  refine ⟨?_, List.eraseIdx_eq_take_drop_succ sent i⟩
  rw [← at_, List.getElem_cons_drop bound, List.take_append_drop]

theorem no_lines (sent : List Batch) (none_ : ∀ b ∈ sent, b.lines = []) : sent.flatMap Batch.lines = [] :=
  List.flatMap_eq_nil_iff.mpr none_

/-- What leaves with the batch answered. -/
theorem State.flying_erase (s : State) (i : Nat) (b : Batch) (found : s.sent[i]? = some b) :
    s.flying.length = b.lines.length + ((s.sent.eraseIdx i).flatMap Batch.lines).length ∧
      (s.sent.map Batch.dropped).sum = b.dropped + ((s.sent.eraseIdx i).map Batch.dropped).sum ∧
      ((s.sent.eraseIdx i).flatMap Batch.lines).Sublist s.flying := by
  obtain ⟨whole, erased⟩ := around s.sent i b found
  rw [State.flying, erased]
  generalize s.sent.take i = older at whole ⊢
  generalize s.sent.drop (i + 1) = newer at whole ⊢
  rw [whole]
  simp only [List.flatMap_append, List.flatMap_cons, List.map_append, List.map_cons, List.sum_append,
    List.sum_cons, List.length_append]
  refine ⟨by omega, by omega, ?_⟩
  exact (List.Sublist.refl _).append (List.sublist_append_right _ _)

theorem State.flying_first (s : State) (i : Nat) (b : Batch) (found : s.sent[i]? = some b)
    (first : s.noOlder i) : s.flying = b.lines ++ (s.sent.eraseIdx i).flatMap Batch.lines := by
  obtain ⟨whole, erased⟩ := around s.sent i b found
  have none_ := no_lines _ first
  have split := congrArg (List.flatMap Batch.lines) whole
  rw [List.flatMap_append, List.flatMap_cons, none_] at split
  rw [State.flying, erased, List.flatMap_append, none_, split]
  rfl

theorem State.flying_last (s : State) (i : Nat) (b : Batch) (found : s.sent[i]? = some b)
    (last : s.noNewer i) : s.flying = (s.sent.eraseIdx i).flatMap Batch.lines ++ b.lines := by
  obtain ⟨whole, erased⟩ := around s.sent i b found
  have none_ := no_lines _ last
  have split := congrArg (List.flatMap Batch.lines) whole
  rw [List.flatMap_append, List.flatMap_cons, none_, List.append_nil] at split
  rw [State.flying, erased, List.flatMap_append, none_, List.append_nil, split]

theorem Inv.accepted {s : State} (inv : Inv s) (i : Nat) (b : Batch) (found : s.sent[i]? = some b)
    (first : s.noOlder i) : Inv (answer s i b .accepted) := by
  obtain ⟨length, dropped, -⟩ := s.flying_erase i b found
  refine ⟨fun open_ => ?_, ?_, inv.bounded⟩
  · have counted := inv.counted open_
    simp only [answer, State.tells, State.flying, List.length_append] at counted length ⊢
    omega
  · have ordered := inv.ordered
    rw [s.flying_first i b found first] at ordered
    simp only [answer, State.tells, State.flying]
    simpa only [List.append_assoc] using ordered

theorem Inv.refused {s : State} (inv : Inv s) (i : Nat) (b : Batch) (found : s.sent[i]? = some b)
    (untold : b.dropped = 0) : Inv (answer s i b .refused) := by
  obtain ⟨length, dropped, fewer⟩ := s.flying_erase i b found
  refine ⟨fun open_ => ?_, ?_, inv.bounded⟩
  · have counted := inv.counted open_
    simp only [answer, State.flying] at counted length ⊢
    omega
  · have less := ((List.Sublist.refl s.node).append fewer).append (List.Sublist.refl s.buffer.lines)
    exact less.trans inv.ordered

theorem Inv.unauthorised {s : State} (inv : Inv s) (i : Nat) (b : Batch)
    (found : s.sent[i]? = some b) : Inv (answer s i b .unauthorised) := by
  obtain ⟨-, -, fewer⟩ := s.flying_erase i b found
  refine ⟨fun open_ => ?_, ?_, Nat.zero_le _⟩
  · cases open_
  · have less := ((List.Sublist.refl s.node).append fewer).append (List.nil_sublist s.buffer.lines)
    exact less.trans inv.ordered

theorem Inv.gaveBack {s : State} (inv : Inv s) (i : Nat) (b : Batch) (found : s.sent[i]? = some b)
    (last : s.noNewer i) :
    Inv { s with sent := s.sent.eraseIdx i, buffer := s.buffer.giveBack b } := by
  obtain ⟨length, dropped, -⟩ := s.flying_erase i b found
  have kept := bounded_count
    { s.buffer with lines := b.lines ++ s.buffer.lines, dropped := s.buffer.dropped + b.dropped }
  have stay := bounded_sublist
    { s.buffer with lines := b.lines ++ s.buffer.lines, dropped := s.buffer.dropped + b.dropped }
  have few := bounded_length
    { s.buffer with lines := b.lines ++ s.buffer.lines, dropped := s.buffer.dropped + b.dropped }
  have ended := bounded_ended
    { s.buffer with lines := b.lines ++ s.buffer.lines, dropped := s.buffer.dropped + b.dropped }
  rw [← Buffer.giveBack] at kept stay few ended
  generalize s.buffer.giveBack b = back at kept stay few ended ⊢
  refine ⟨fun open_ => ?_, ?_, few⟩
  · have counted := inv.counted (ended ▸ open_)
    simp only [State.flying, List.length_append] at counted length kept ⊢
    omega
  · have ordered := inv.ordered
    rw [s.flying_last i b found last] at ordered
    simp only [State.flying, List.append_assoc] at ordered ⊢
    have less := (List.Sublist.refl (s.node ++ (s.sent.eraseIdx i).flatMap Batch.lines)).append stay
    rw [List.append_assoc, List.append_assoc] at less
    exact less.trans ordered

theorem next_inv (s : State) (op : Op) (inv : Inv s) (sure : Sure s op) : Inv (next s op) := by
  cases op with
  | push line => exact inv.push line
  | take => exact inv.take
  | answer i outcome =>
    cases found : s.sent[i]? with
    | none =>
      simp only [next, found]
      exact inv
    | some b =>
      simp only [next, found]
      cases outcome with
      | accepted => exact inv.accepted i b found sure
      | refused => exact inv.refused i b found (sure b found)
      | unauthorised => exact inv.unauthorised i b found
      | failed => exact inv.gaveBack i b found sure
      | unanswered took =>
        obtain ⟨last, rfl⟩ := sure
        exact inv.gaveBack i b found last

def spoken : Line := ⟨"SELECT 1", "ok", none, 3⟩


end Pondra.Records
