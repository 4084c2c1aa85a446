import Mathlib
import Pondra.Log.InOrder

set_option autoImplicit false

namespace Pondra.Kafka

open Ladders Log

/-! ### A produce request's record batches -/

/-- A record batch, decoded. `rows` of its records are rows of the table: a tombstone or a change event
may make none. -/
structure Batch where
  producerId : Int
  epoch : Int
  baseSeq : Int
  recs : Nat
  rows : Nat
  kept : rows ≤ recs

/-- The producer a batch is written as: each epoch is one of its own. -/
def producerOf (producerId epoch : Int) (table : String) : String :=
  "kafka:" ++ ((if epoch = 0 then toString producerId
    else toString producerId ++ "/" ++ toString epoch) ++ ":" ++ table)

/-- Who sent a batch. One that isn't idempotent is written at least once, as in Kafka. -/
def Batch.src (b : Batch) (table : String) : Src :=
  if 0 ≤ b.producerId ∧ 0 ≤ b.baseSeq then
    ⟨producerOf b.producerId b.epoch table, b.baseSeq.toNat + b.recs, some b.baseSeq.toNat⟩
  else ⟨"", 0, none⟩

/-- A partition's error codes. -/
inductive Code where
  | none
  | outOfOrderSequence
  | invalidRecord
  | topicAuthorizationFailed
  | failed (why : String)
  deriving DecidableEq

/-- What becomes of a batch before it is in the log's queue. -/
inductive Put where
  | queued
  | invalid
  | denied
  | failed (why : String)

/-- The batches of a request that wait for the log, and the code it ends with at once. -/
structure Waits where
  acks : List Batch
  early : Option Code

/-- Queue one partition's record batches in the log, in order. -/
def queue : List (Batch × Put) → Waits
  | [] => ⟨[], none⟩
  | (b, .queued) :: rest => ⟨b :: (queue rest).acks, (queue rest).early⟩
  | (_, .invalid) :: _ => ⟨[], some .invalidRecord⟩
  | (_, .denied) :: _ => ⟨[], some .topicAuthorizationFailed⟩
  | (_, .failed why) :: _ => ⟨[], some (.failed why)⟩

/-- An append's answer: its ack, or why the sequencer refused it. -/
def answer (ack : Ack) : Except String Ack :=
  if ack.refused then .error "the table has a UNIQUE constraint"
  else if ack.gone then .error "no such table"
  else if ack.moved then .error "the table's columns moved"
  else .ok ack

/-- The ack, or that of the batch sent again while it was overtaken: `again` are the answers that come in
the time there is. -/
def sentAgain : Except String Ack → List (Except String Ack) → Except String Ack
  | ack, [] => ack
  | .error why, _ :: _ => .error why
  | .ok ack, next :: again => if ack.conflict then sentAgain next again else .ok ack

/-- A request's code and its first row's place, from its batches' answers. -/
def outcome : Option Nat → List (Except String Ack) → Code × Option Nat
  | first, [] => (.none, first)
  | _, .error why :: _ => (.failed why, none)
  | first, .ok ack :: rest =>
    if ack.conflict then (.outOfOrderSequence, none)
    else if ack.duplicate then outcome first rest
    else outcome (first.or (some (ord ack.seg ack.row))) rest

/-- A produce request's answer for one partition. -/
def produce (puts : List (Batch × Put)) (answers : List (Except String Ack)) : Code × Option Nat :=
  match (queue puts).early with
  | some code => (code, none)
  | none => outcome none answers

theorem queue_early (puts : List (Batch × Put)) (code : Code) (ends : (queue puts).early = some code) :
    code ≠ .none := by
  induction puts with
  | nil => cases ends
  | cons x rest ih =>
    obtain ⟨b, put⟩ := x
    cases put with
    | queued => exact ih ends
    | invalid =>
      rw [← Option.some.inj ends]
      exact Code.noConfusion
    | denied =>
      rw [← Option.some.inj ends]
      exact Code.noConfusion
    | failed why =>
      rw [← Option.some.inj ends]
      exact Code.noConfusion

theorem queue_whole (puts : List (Batch × Put)) (whole : (queue puts).early = none) :
    (queue puts).acks = puts.map Prod.fst := by
  induction puts with
  | nil => rfl
  | cons x rest ih =>
    obtain ⟨b, put⟩ := x
    cases put with
    | queued => exact congrArg (b :: ·) (ih whole)
    | invalid => cases whole
    | denied => cases whole
    | failed why => cases whole

theorem sentAgain_mem (ack : Except String Ack) (again : List (Except String Ack)) :
    sentAgain ack again ∈ ack :: again := by
  induction again generalizing ack with
  | nil => exact List.mem_singleton.mpr rfl
  | cons next rest ih =>
    cases ack with
    | error why => exact List.mem_cons_self
    | ok ack =>
      rw [sentAgain]
      split
      · exact List.mem_cons_of_mem _ (ih next)
      · exact List.mem_cons_self

/-- A request without an error has each of its batches taken, now or before. -/
theorem outcome_none (first : Option Nat) (answers : List (Except String Ack))
    (fine : (outcome first answers).1 = .none) :
    ∀ said ∈ answers, ∃ ack, said = .ok ack ∧ ack.conflict = false := by
  induction answers generalizing first with
  | nil => exact fun said inside => absurd inside List.not_mem_nil
  | cons said rest ih =>
    cases said with
    | error why => cases fine
    | ok ack =>
      rw [outcome] at fine
      split at fine
      · cases fine
      · rename_i taken
        have others : ∀ said ∈ rest, ∃ ack, said = .ok ack ∧ ack.conflict = false := by
          split at fine
          · exact ih _ fine
          · exact ih _ fine
        intro other inside
        rcases List.mem_cons.mp inside with rfl | inside
        · exact ⟨ack, rfl, by simpa using taken⟩
        · exact others other inside

theorem answer_ok (ack said : Ack) (fine : answer ack = .ok said) :
    said = ack ∧ ack.refused = false ∧ ack.gone = false ∧ ack.moved = false := by
  unfold answer at fine
  split at fine
  · cases fine
  · rename_i refused
    split at fine
    · cases fine
    · rename_i gone
      split at fine
      · cases fine
      · rename_i moved
        exact ⟨(Except.ok.inj fine).symm, by simpa using refused, by simpa using gone,
          by simpa using moved⟩

/-! ### The names producers are written under -/

/-- Who a batch is from: its producer, and its epoch but the first. -/
def idText (producerId epoch : Int) : List Char :=
  if epoch = 0 then (toString producerId).toList
  else (toString producerId).toList ++ '/' :: (toString epoch).toList

theorem producerOf_toList (producerId epoch : Int) (table : String) :
    (producerOf producerId epoch table).toList =
      "kafka:".toList ++ (idText producerId epoch ++ ':' :: table.toList) := by
  unfold producerOf idText
  split
  · simp
  · simp

theorem producerOf_ne_empty (producerId epoch : Int) (table : String) :
    producerOf producerId epoch table ≠ "" := by
  intro same
  have chars := congrArg String.toList same
  rw [producerOf_toList] at chars
  cases chars

/-- A Kafka producer's mark is kept for good. -/
theorem keptMs_producerOf (config : Config) (producerId epoch : Int) (table : String) (now : Nat) :
    keptMs config (producerOf producerId epoch table) now = 0 := by
  have starts (start : String) (other : start.toList.isPrefixOf
      ("kafka:".toList ++ (idText producerId epoch ++ ':' :: table.toList)) = false) :
      startsWith start (producerOf producerId epoch table) = false ∧
        stripPrefix start (producerOf producerId epoch table) = none := by
    rw [startsWith, stripPrefix, producerOf_toList, other]
    exact ⟨rfl, rfl⟩
  unfold keptMs
  rw [(starts "sql:" rfl).2, (starts "txn:job-" rfl).2, (starts "txn:" rfl).1,
    (starts "copy:" rfl).1, (starts "job:load:" rfl).1, (starts "job:iceberg:" rfl).1,
    (starts "job:" rfl).2]
  rfl

/-! ### How Kafka numbers a producer's batches -/

/-- The records of a producer before its batch `i`. -/
def starts (batches : List Batch) (i : Nat) : Nat := ((batches.take i).map (·.recs)).sum

/-- A producer's batches in one epoch: their base sequences go on from 0, again from 0 after
2^31 - 1. -/
structure Stream (producerId epoch : Int) (batches : List Batch) : Prop where
  named : 0 ≤ producerId
  sender : ∀ b ∈ batches, b.producerId = producerId ∧ b.epoch = epoch
  records : ∀ b ∈ batches, 0 < b.recs
  numbered : ∀ b ∈ batches.zipIdx, b.1.baseSeq = ((starts batches b.2 % 2 ^ 31 : Nat) : Int)

/-- The batch `i` as the log knows it, before the numbers wrap. -/
def rung (producer : String) (batches : List Batch) (i : Nat) : Src :=
  ⟨producer, starts batches (i + 1), some (starts batches i)⟩

theorem starts_succ (batches : List Batch) (i : Nat) (b : Batch) (held : batches[i]? = some b) :
    starts batches (i + 1) = starts batches i + b.recs := by
  rw [starts, List.take_add_one, held, List.map_append, List.sum_append]
  simp [starts]

namespace Stream

variable {producerId epoch : Int} {batches : List Batch}

theorem rises (stream : Stream producerId epoch batches) (i j : Nat) (less : i < j)
    (within : j ≤ batches.length) : starts batches i < starts batches j := by
  induction j with
  | zero => omega
  | succ j ih =>
    obtain ⟨b, held⟩ : ∃ b, batches[j]? = some b :=
      ⟨_, List.getElem?_eq_getElem (by omega)⟩
    have more := stream.records b (List.mem_of_getElem? held)
    rw [starts_succ batches j b held]
    by_cases same : i = j
    · subst same
      omega
    · have before := ih (by omega) (by omega)
      omega

theorem src (stream : Stream producerId epoch batches) (table : String) (i : Nat) (b : Batch)
    (held : batches[i]? = some b) (low : starts batches i < 2 ^ 31) :
    b.src table = rung (producerOf producerId epoch table) batches i := by
  obtain ⟨id, epochs⟩ := stream.sender b (List.mem_of_getElem? held)
  have base := stream.numbered (b, i) (List.mem_zipIdx_iff_getElem?.mpr held)
  simp only [Nat.mod_eq_of_lt low] at base
  unfold Batch.src rung
  rw [if_pos ⟨by rw [id]; exact stream.named, by rw [base]; omega⟩, id, epochs, base,
    Int.toNat_natCast, starts_succ batches i b held]

end Stream

end Pondra.Kafka
