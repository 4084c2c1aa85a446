import Pondra.Base.Bytes

set_option autoImplicit false

/-! Pieces sent one after another on a stream, each with its length before it. -/

namespace Framing

open Bytes

/-- One piece with its length before it, in 32 bits. -/
def frame (piece : List UInt8) : List UInt8 := toLe 4 (piece.length % 2 ^ 32) ++ piece

/-- The first piece of the bytes held, if all of it is there, and the bytes after it. -/
def whole (buf : List UInt8) : Option (List UInt8 × List UInt8) :=
  if 4 ≤ buf.length then
    if 4 + ofLe (buf.take 4) ≤ buf.length then
      some ((buf.drop 4).take (ofLe (buf.take 4)), buf.drop (4 + ofLe (buf.take 4)))
    else none
  else none

/-- A stream of pieces: the chunks to come, and the bytes that came and weren't read. -/
structure Frames where
  body : List (List UInt8)
  buf : List UInt8

/-- The bytes not read yet, however they are cut into chunks. -/
def Frames.rest (frames : Frames) : List UInt8 := frames.buf ++ frames.body.flatten

/-- `Frames::next` over the chunks to come. -/
def nextOf : List (List UInt8) → List UInt8 → Except String (Option (List UInt8) × Frames)
  | [], buf =>
    match whole buf with
    | some (piece, after) => .ok (some piece, ⟨[], after⟩)
    | none => if buf.isEmpty then .ok (none, ⟨[], []⟩) else .error "a piece was cut short"
  | chunk :: body, buf =>
    match whole buf with
    | some (piece, after) => .ok (some piece, ⟨chunk :: body, after⟩)
    | none => nextOf body (buf ++ chunk)

def Frames.next (frames : Frames) : Except String (Option (List UInt8) × Frames) :=
  nextOf frames.body frames.buf

/-- The next piece read as a count. -/
def Frames.count (frames : Frames) : Except String (Nat × Frames) :=
  match frames.next with
  | .error e => .error e
  | .ok (none, _) => .error "the stream ended early"
  | .ok (some piece, frames) =>
    if piece.length = 4 then .ok (ofLe piece, frames) else .error "could not convert slice to array"

/-! ### One piece -/

theorem whole_append (buf more piece after : List UInt8) (found : whole buf = some (piece, after)) :
    whole (buf ++ more) = some (piece, after ++ more) := by
  unfold whole at found
  split at found
  case isFalse => cases found
  case isTrue head =>
    split at found
    case isFalse => cases found
    case isTrue long =>
      simp only [Option.some.injEq, Prod.mk.injEq] at found
      have same : (buf ++ more).take 4 = buf.take 4 := List.take_append_of_le_length head
      have held : ofLe (buf.take 4) ≤ (buf.drop 4).length := by
        rw [List.length_drop]
        omega
      have head' : 4 ≤ (buf ++ more).length := by
        rw [List.length_append]
        omega
      have long' : 4 + ofLe (buf.take 4) ≤ (buf ++ more).length := by
        rw [List.length_append]
        omega
      rw [whole, same, if_pos head', if_pos long', List.drop_append_of_le_length head,
        List.take_append_of_le_length held, List.drop_append_of_le_length long, found.1, found.2]

/-- Chunks don't matter: the next piece is the first of all the bytes left. -/
theorem next_some (frames : Frames) (piece after : List UInt8)
    (found : whole frames.rest = some (piece, after)) :
    ∃ later : Frames, frames.next = .ok (some piece, later) ∧ later.rest = after := by
  obtain ⟨body, buf⟩ := frames
  unfold Frames.next
  simp only [Frames.rest] at found
  induction body generalizing buf with
  | nil =>
    simp only [List.flatten_nil, List.append_nil] at found
    exact ⟨⟨[], after⟩, by simp only [nextOf, found], by simp [Frames.rest]⟩
  | cons chunk body ih =>
    cases held : whole buf with
    | none =>
      simp only [nextOf, held]
      apply ih
      rw [List.append_assoc]
      exact found
    | some first =>
      have same := whole_append buf (chunk :: body).flatten first.1 first.2 held
      rw [found] at same
      simp only [Option.some.injEq, Prod.mk.injEq] at same
      exact ⟨⟨chunk :: body, first.2⟩, by simp only [nextOf, held, same.1], by
        simp only [Frames.rest, same.2]⟩

theorem nextOf_none (body : List (List UInt8)) (buf : List UInt8)
    (short : whole (buf ++ body.flatten) = none) :
    nextOf body buf = if (buf ++ body.flatten).isEmpty then .ok (none, ⟨[], []⟩)
      else .error "a piece was cut short" := by
  induction body generalizing buf with
  | nil =>
    rw [List.flatten_nil, List.append_nil] at short ⊢
    simp only [nextOf, short]
  | cons chunk body ih =>
    rw [List.flatten_cons, ← List.append_assoc] at short ⊢
    cases held : whole buf with
    | none =>
      simp only [nextOf, held]
      exact ih (buf ++ chunk) short
    | some first =>
      have longer := whole_append buf (chunk ++ body.flatten) first.1 first.2 held
      rw [← List.append_assoc, short] at longer
      cases longer

theorem next_none (frames : Frames) (short : whole frames.rest = none) :
    frames.next = if frames.rest.isEmpty then .ok (none, ⟨[], []⟩)
      else .error "a piece was cut short" :=
  nextOf_none frames.body frames.buf short

/-! ### A piece as it is sent -/

theorem take_frame (piece rest : List UInt8) :
    ofLe ((frame piece ++ rest).take 4) = piece.length % 2 ^ 32 := by
  have head : (frame piece ++ rest).take 4 = toLe 4 (piece.length % 2 ^ 32) := by
    rw [frame, List.append_assoc]
    exact List.take_left' (length_toLe _ _)
  rw [head, ofLe_toLe]
  exact Nat.mod_lt _ (by decide)

theorem drop_frame (piece rest : List UInt8) :
    (frame piece ++ rest).drop 4 = piece ++ rest := by
  rw [frame, List.append_assoc]
  exact List.drop_left' (length_toLe _ _)

@[simp] theorem length_frame (piece : List UInt8) : (frame piece).length = 4 + piece.length := by
  rw [frame, List.length_append, length_toLe]

/-- What is read of a piece is as long as its length in 32 bits has it. -/
theorem whole_frame_mod (piece rest : List UInt8) :
    whole (frame piece ++ rest) =
      some (piece.take (piece.length % 2 ^ 32),
        piece.drop (piece.length % 2 ^ 32) ++ rest) := by
  have low : piece.length % 2 ^ 32 ≤ piece.length := Nat.mod_le _ _
  have head : 4 ≤ (frame piece ++ rest).length := by
    rw [List.length_append, length_frame]
    omega
  have long : 4 + piece.length % 2 ^ 32 ≤ (frame piece ++ rest).length := by
    rw [List.length_append, length_frame]
    omega
  rw [whole, if_pos head, take_frame, if_pos long, ← List.drop_drop, drop_frame,
    List.take_append_of_le_length low, List.drop_append_of_le_length low]

theorem whole_frame (piece rest : List UInt8) (small : piece.length < 2 ^ 32) :
    whole (frame piece ++ rest) = some (piece, rest) := by
  rw [whole_frame_mod, Nat.mod_eq_of_lt small, List.take_length, List.drop_length,
    List.nil_append]

/-- A piece that is there has its length before it. -/
theorem whole_found (buf piece after : List UInt8) (found : whole buf = some (piece, after)) :
    piece.length < 2 ^ 32 ∧ buf = frame piece ++ after := by
  unfold whole at found
  split at found
  case isFalse => cases found
  case isTrue head =>
    split at found
    case isFalse => cases found
    case isTrue long =>
      cases found
      have width : (buf.take 4).length = 4 := List.length_take_of_le head
      have small := ofLe_lt (buf.take 4)
      have same : ((buf.drop 4).take (ofLe (buf.take 4))).length = ofLe (buf.take 4) := by
        rw [List.length_take, List.length_drop]
        omega
      rw [width] at small
      have mark : toLe 4 (ofLe (buf.take 4)) = buf.take 4 := by
        have back := toLe_ofLe (buf.take 4)
        rwa [width] at back
      rw [frame, same]
      refine ⟨by omega, ?_⟩
      rw [Nat.mod_eq_of_lt (by omega), mark, ← List.drop_drop, List.append_assoc,
        List.take_append_drop, List.take_append_drop]

/-- A piece cut short is not there. -/
theorem whole_cut (piece cut : List UInt8) (small : piece.length < 2 ^ 32)
    (first : cut <+: frame piece) (short : cut.length < (frame piece).length) :
    whole cut = none := by
  obtain ⟨lost, joined⟩ := first
  by_cases head : 4 ≤ cut.length
  · have same : cut.take 4 = (frame piece).take 4 := by
      rw [← joined, List.take_append_of_le_length head]
    have length := take_frame piece []
    rw [List.append_nil, Nat.mod_eq_of_lt small] at length
    rw [length_frame] at short
    rw [whole, if_pos head, same, length, if_neg (by omega)]
  · rw [whole, if_neg head]

theorem next_frame (frames : Frames) (piece rest : List UInt8) (small : piece.length < 2 ^ 32)
    (sent : frames.rest = frame piece ++ rest) :
    ∃ later : Frames, frames.next = .ok (some piece, later) ∧ later.rest = rest := by
  apply next_some
  rw [sent]
  exact whole_frame piece rest small

/-- Past a piece cut short there is nothing, or an error. -/
theorem next_cut (frames : Frames) (piece : List UInt8) (small : piece.length < 2 ^ 32)
    (first : frames.rest <+: frame piece) (short : frames.rest.length < (frame piece).length) :
    frames.next = .ok (none, ⟨[], []⟩) ∨ frames.next = .error "a piece was cut short" := by
  rw [next_none frames (whole_cut piece frames.rest small first short)]
  split
  · exact Or.inl rfl
  · exact Or.inr rfl

/-- A stream that is cut short anywhere (`missing` was cut off) reads a piece as it was sent, or
doesn't read one. -/
theorem next_sent (frames : Frames) (piece rest missing : List UInt8)
    (small : piece.length < 2 ^ 32) (sent : frames.rest ++ missing = frame piece ++ rest) :
    (∃ later : Frames, frames.next = .ok (some piece, later) ∧ later.rest ++ missing = rest) ∨
      missing ≠ [] ∧ (frames.next = .ok (none, ⟨[], []⟩) ∨
        frames.next = .error "a piece was cut short") := by
  by_cases inside : frames.rest.length < (frame piece).length
  · apply Or.inr
    constructor
    · intro whole
      rw [whole, List.append_nil] at sent
      rw [sent, List.length_append] at inside
      omega
    · apply next_cut frames piece small _ inside
      exact List.prefix_of_prefix_length_le ⟨missing, sent⟩ (List.prefix_append _ _)
        (Nat.le_of_lt inside)
  · apply Or.inl
    obtain ⟨more, held⟩ := List.prefix_of_prefix_length_le (List.prefix_append (frame piece) rest)
      ⟨missing, sent⟩ (Nat.le_of_not_lt inside)
    obtain ⟨later, read, left⟩ := next_frame frames piece more small held.symm
    rw [← held, List.append_assoc] at sent
    exact ⟨later, read, by rw [left]; exact List.append_cancel_left sent⟩

theorem count_sent (frames : Frames) (n : Nat) (rest missing : List UInt8) (small : n < 2 ^ 32)
    (sent : frames.rest ++ missing = frame (toLe 4 n) ++ rest) :
    (∃ later : Frames, frames.count = .ok (n, later) ∧ later.rest ++ missing = rest) ∨
      missing ≠ [] ∧ ∃ e, frames.count = .error e := by
  rcases next_sent frames (toLe 4 n) rest missing (by rw [length_toLe]; decide) sent with
    ⟨later, read, left⟩ | ⟨cut, ended | failed⟩
  · exact Or.inl ⟨later, by
      simp only [Frames.count, read, length_toLe, ↓reduceIte, ofLe_toLe 4 n small], left⟩
  · exact Or.inr ⟨cut, "the stream ended early", by simp only [Frames.count, ended]⟩
  · exact Or.inr ⟨cut, "a piece was cut short", by simp only [Frames.count, failed]⟩

end Framing
