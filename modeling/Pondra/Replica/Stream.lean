import Pondra.Base.Frames
import Pondra.Replica.Frame

set_option autoImplicit false

/-! The commit stream as it is read: chunks of bytes, cut anywhere, made frames again. -/

namespace Pondra.Replica

open Bytes Framing

/-- A chunk of a body, or the failure that ends it. -/
abbrev Chunk := Except String (List UInt8)

/-- The next frame, with the chunks and the bytes left: of what is held, or of that and the chunks
to come. None: every chunk was read, and what is held is not a whole frame. -/
def nextFrame : List Chunk → List UInt8 → Except String (Option (Frame × List Chunk × List UInt8))
  | chunks, buf =>
    match Frame.take buf with
    | .error e => .error e
    | .ok (some (frame, rest)) => .ok (some (frame, chunks, rest))
    | .ok none =>
      match chunks with
      | [] => .ok none
      | .error e :: _ => .error e
      | .ok chunk :: chunks => nextFrame chunks (buf ++ chunk)

/-- What `frames` answers when it is asked `n` times: a frame each time, until the chunks end or
an error ends it. -/
def frames : Nat → List Chunk → List UInt8 → List (Except String (Option Frame))
  | 0, _, _ => []
  | n + 1, chunks, buf =>
    match nextFrame chunks buf with
    | .error e => [.error e]
    | .ok none => [.ok none]
    | .ok (some (frame, chunks, buf)) => .ok (some frame) :: frames n chunks buf

/-! ### One frame -/

/-- The number a frame carries. -/
def Frame.number : Frame → Nat
  | .start term _ => term
  | .change d => d.id
  | .committed id => id
  | .durable id => id

/-- The number is one of 64 bits, and the frame's length one of 32. -/
structure Frame.Fits (frame : Frame) : Prop where
  number : frame.number < 2 ^ 64
  length : frame.body.length < 2 ^ 32

theorem next_byte (byte : UInt8) (rest : List UInt8) : next 1 (byte :: rest) = .ok ([byte], rest) :=
  next_append [byte] rest

theorem decode_body (frame : Frame) (fits : frame.Fits) : Frame.decode frame.body = .ok frame := by
  obtain ⟨number, length⟩ := fits
  cases frame with
  | start term replicated =>
    simp only [Frame.decode, Frame.body, next_byte, bind, Except.bind, u64_append term number]
    cases replicated <;> rfl
  | change d => exact decode_change d number length
  | committed id =>
    have read := u64_append id number []
    rw [List.append_nil] at read
    simp only [Frame.decode, Frame.body, next_byte, bind, Except.bind, read]
  | durable id =>
    have read := u64_append id number []
    rw [List.append_nil] at read
    simp only [Frame.decode, Frame.body, next_byte, bind, Except.bind, read]

theorem encode_frame (frame : Frame) (fits : frame.Fits) : frame.encode = Framing.frame frame.body := by
  rw [Frame.encode, Framing.frame, Nat.mod_eq_of_lt fits.length]

/-- `take` decodes the first piece of the bytes, and nothing else. -/
theorem take_whole (buf : List UInt8) : Frame.take buf =
    match Framing.whole buf with
    | none => .ok none
    | some (piece, after) => (Frame.decode piece).map fun frame => some (frame, after) := by
  unfold Frame.take Framing.whole
  by_cases head : 4 ≤ buf.length
  · by_cases long : 4 + ofLe (buf.take 4) ≤ buf.length
    · rw [if_neg (by omega), if_pos head, if_pos long]
    · rw [if_pos (by omega), if_pos head, if_neg long]
  · rw [if_pos (by omega), if_neg head]

theorem take_sent (frame : Frame) (fits : frame.Fits) (rest : List UInt8) :
    Frame.take (frame.encode ++ rest) = .ok (some (frame, rest)) := by
  rw [encode_frame frame fits, take_whole, whole_frame frame.body rest fits.length]
  dsimp only
  rw [decode_body frame fits]
  rfl

/-! ### Chunks -/

/-- Chunks that make no whole frame are gathered. -/
theorem nextFrame_short (chunks : List (List UInt8)) (more : List Chunk) (buf : List UInt8)
    (short : Framing.whole (buf ++ chunks.flatten) = none) :
    nextFrame (chunks.map .ok ++ more) buf = nextFrame more (buf ++ chunks.flatten) := by
  induction chunks generalizing buf with
  | nil => rw [List.map_nil, List.nil_append, List.flatten_nil, List.append_nil]
  | cons chunk chunks ih =>
    rw [List.flatten_cons, ← List.append_assoc] at short ⊢
    cases held : Framing.whole buf with
    | none =>
      rw [List.map_cons, List.cons_append, nextFrame, take_whole, held]
      exact ih (buf ++ chunk) short
    | some first =>
      have longer := whole_append buf (chunk ++ chunks.flatten) first.1 first.2 held
      rw [← List.append_assoc, short] at longer
      cases longer

/-- Chunks don't matter: the next frame is the first of all the bytes left. -/
theorem nextFrame_whole (chunks : List (List UInt8)) (buf piece after : List UInt8)
    (found : Framing.whole (buf ++ chunks.flatten) = some (piece, after)) :
    ∃ (chunks' : List (List UInt8)) (buf' : List UInt8), buf' ++ chunks'.flatten = after ∧
      nextFrame (chunks.map .ok) buf =
        (Frame.decode piece).map fun frame => some (frame, chunks'.map .ok, buf') := by
  induction chunks generalizing buf with
  | nil =>
    rw [List.flatten_nil, List.append_nil] at found
    refine ⟨[], after, List.append_nil after, ?_⟩
    rw [List.map_nil, nextFrame, take_whole, found]
    dsimp only
    cases Frame.decode piece <;> rfl
  | cons chunk chunks ih =>
    cases held : Framing.whole buf with
    | none =>
      rw [List.flatten_cons, ← List.append_assoc] at found
      obtain ⟨chunks', buf', left, answer⟩ := ih (buf ++ chunk) found
      refine ⟨chunks', buf', left, ?_⟩
      rw [List.map_cons, nextFrame, take_whole, held]
      exact answer
    | some first =>
      have same := whole_append buf (chunk :: chunks).flatten first.1 first.2 held
      rw [found, Option.some.injEq, Prod.mk.injEq] at same
      refine ⟨chunk :: chunks, first.2, same.2.symm, ?_⟩
      rw [List.map_cons, nextFrame, take_whole, held, same.1]
      dsimp only
      cases Frame.decode first.1 <;> rfl

theorem nextFrame_sent (chunks : List (List UInt8)) (buf rest : List UInt8) (frame : Frame)
    (fits : frame.Fits) (sent : buf ++ chunks.flatten = frame.encode ++ rest) :
    ∃ (chunks' : List (List UInt8)) (buf' : List UInt8), buf' ++ chunks'.flatten = rest ∧
      nextFrame (chunks.map .ok) buf = .ok (some (frame, chunks'.map .ok, buf')) := by
  have found := whole_frame frame.body rest fits.length
  rw [← encode_frame frame fits, ← sent] at found
  obtain ⟨chunks', buf', left, answer⟩ := nextFrame_whole chunks buf frame.body rest found
  rw [decode_body frame fits] at answer
  exact ⟨chunks', buf', left, answer⟩

theorem nextFrame_cut (chunks : List (List UInt8)) (buf : List UInt8)
    (short : Framing.whole (buf ++ chunks.flatten) = none) : nextFrame (chunks.map .ok) buf = .ok none := by
  have gathered := nextFrame_short chunks [] buf short
  rw [List.append_nil] at gathered
  rw [gathered, nextFrame, take_whole, short]

/-! ### The stream -/

/-- Of the frames sent, the first `k` are in the bytes that came, and the next is not all there. -/
structure Arrived (sent : List Frame) (k : Nat) (bytes : List UInt8) : Prop where
  within : k ≤ sent.length
  held : (sent.take k).flatMap Frame.encode <+: bytes
  cut : k < sent.length → bytes.length < ((sent.take (k + 1)).flatMap Frame.encode).length

/-- All the bytes have all the frames. -/
theorem Arrived.all {sent : List Frame} {k : Nat} (arrived : Arrived sent k (sent.flatMap Frame.encode)) :
    k = sent.length := by
  apply Nat.le_antisymm arrived.within
  apply Nat.le_of_not_lt
  intro less
  have cut := arrived.cut less
  have split := congrArg List.length
    (congrArg (List.flatMap Frame.encode) (List.take_append_drop (k + 1) sent))
  rw [List.flatMap_append, List.length_append] at split
  omega

theorem frames_sent (sent : List Frame) (fits : ∀ frame ∈ sent, frame.Fits)
    (chunks : List (List UInt8)) (buf : List UInt8)
    (came : buf ++ chunks.flatten <+: sent.flatMap Frame.encode) :
    ∃ k, Arrived sent k (buf ++ chunks.flatten) ∧ ∀ n, frames n (chunks.map .ok) buf =
      ((sent.take k).map (fun frame => Except.ok (some frame)) ++ [Except.ok none]).take n := by
  induction sent generalizing chunks buf with
  | nil =>
    have none_ := List.prefix_nil.mp came
    refine ⟨0, ⟨Nat.le_refl 0, ?_, nofun⟩, ?_⟩
    · exact List.nil_prefix
    · intro n
      cases n with
      | zero => rfl
      | succ n =>
        rw [frames, nextFrame_cut chunks buf (by rw [none_]; rfl), List.take_nil, List.map_nil,
          List.nil_append, List.take_succ_cons, List.take_nil]
  | cons frame rest ih =>
    rw [List.flatMap_cons] at came
    have own := fits frame List.mem_cons_self
    by_cases inside : (buf ++ chunks.flatten).length < frame.encode.length
    · refine ⟨0, ⟨Nat.zero_le _, List.nil_prefix, ?_⟩, ?_⟩
      · intro _
        rw [List.take_succ_cons, List.take_zero, List.flatMap_cons, List.flatMap_nil, List.append_nil]
        exact inside
      · have first := List.prefix_of_prefix_length_le came (List.prefix_append _ _)
          (Nat.le_of_lt inside)
        rw [encode_frame frame own] at first inside
        have short := whole_cut frame.body _ own.length first inside
        intro n
        cases n with
        | zero => rfl
        | succ n =>
          rw [frames, nextFrame_cut chunks buf short, List.take_zero, List.map_nil, List.nil_append,
            List.take_succ_cons, List.take_nil]
    · obtain ⟨left, held⟩ := List.prefix_of_prefix_length_le (List.prefix_append frame.encode _) came
        (Nat.le_of_not_lt inside)
      rw [← held] at came
      have behind := (List.prefix_append_right_inj _).mp came
      obtain ⟨chunks', buf', same, answer⟩ := nextFrame_sent chunks buf left frame own held.symm
      rw [← same] at behind
      obtain ⟨k, arrived, answers⟩ := ih (fun f listed => fits f (List.mem_cons_of_mem _ listed))
        chunks' buf' behind
      rw [same] at arrived
      refine ⟨k + 1, ⟨Nat.succ_le_succ arrived.within, ?_, ?_⟩, ?_⟩
      · rw [List.take_succ_cons, List.flatMap_cons, ← held]
        exact (List.prefix_append_right_inj _).mpr arrived.held
      · intro less
        have cut := arrived.cut (Nat.lt_of_succ_lt_succ less)
        rw [List.take_succ_cons, List.flatMap_cons, ← held, List.length_append, List.length_append]
        omega
      · intro n
        cases n with
        | zero => rfl
        | succ n =>
          rw [frames, answer, List.take_succ_cons, List.map_cons, List.cons_append, List.take_succ_cons]
          exact congrArg _ (answers n)

/-! ### Any bytes

What is read was there: of a piece that is decoded, the frame's own bytes come first. -/

section Found

variable {f rest : List UInt8} {n : Nat}

theorem bind_ok {α β : Type} {read : Except String α} {then_ : α → Except String β} {b : β}
    (made : (read >>= then_) = .ok b) : ∃ a, read = .ok a ∧ then_ a = .ok b := by
  cases read with
  | error e => cases made
  | ok a => exact ⟨a, rfl, made⟩

theorem next_found {bytes : List UInt8} (read : next n f = .ok (bytes, rest)) :
    f = bytes ++ rest ∧ bytes.length = n := by
  unfold next at read
  split at read
  · cases read
    exact ⟨(List.take_append_drop n f).symm, List.length_take_of_le ‹_›⟩
  · cases read

theorem u64_found (read : u64 f = .ok (n, rest)) : f = toLe 8 n ++ rest := by
  obtain ⟨⟨bytes, rest'⟩, took, same⟩ := bind_ok read
  obtain ⟨is, width⟩ := next_found took
  cases same
  rw [is, ← width, toLe_ofLe]

theorem count_found (read : count f = .ok (n, rest)) : f = toLe 4 n ++ rest := by
  obtain ⟨⟨bytes, rest'⟩, took, same⟩ := bind_ok read
  obtain ⟨is, width⟩ := next_found took
  cases same
  rw [is, ← width, toLe_ofLe]

theorem field_found {bytes : List UInt8} (read : field f = .ok (bytes, rest)) :
    f = putField bytes ++ rest := by
  obtain ⟨⟨n, f'⟩, counted, took⟩ := bind_ok read
  obtain ⟨is, width⟩ := next_found took
  rw [count_found counted, putField, width, is, List.append_assoc]

theorem text_found {key : String} (read : text f = .ok (key, rest)) :
    f = putField (textBytes key) ++ rest := by
  obtain ⟨⟨bytes, rest'⟩, took, same⟩ := bind_ok read
  dsimp only at same
  split at same
  case h_2 => cases same
  case h_1 _ found valid =>
    cases same
    have back : textBytes key = bytes := by
      unfold String.fromUTF8? at valid
      split at valid
      · cases valid
        rfl
      · cases valid
    rw [back]
    exact field_found took

theorem pair_found {kv : String × List UInt8} (read : pair f = .ok (kv, rest)) :
    f = putPair kv ++ rest := by
  obtain ⟨⟨key, f'⟩, first, more⟩ := bind_ok read
  obtain ⟨⟨value, f''⟩, second, same⟩ := bind_ok more
  cases same
  rw [text_found first, field_found second, putPair, List.append_assoc]

theorem readMany_found {α : Type} {item : List UInt8 → Except String (α × List UInt8)}
    {write : α → List UInt8} {items : List α}
    (each : ∀ {f x rest}, item f = .ok (x, rest) → f = write x ++ rest)
    (read : readMany item n f = .ok (items, rest)) :
    f = items.flatMap write ++ rest ∧ items.length = n := by
  induction n generalizing f items with
  | zero =>
    cases read
    exact ⟨rfl, rfl⟩
  | succ n ih =>
    obtain ⟨⟨x, f'⟩, first, more⟩ := bind_ok read
    obtain ⟨⟨xs, f''⟩, others, same⟩ := bind_ok more
    cases same
    obtain ⟨is, count⟩ := ih others
    rw [each first, is, List.flatMap_cons, List.append_assoc, List.length_cons, count]
    exact ⟨rfl, rfl⟩

end Found

/-- The piece begins with the frame's bytes; of a start's last byte, anything but 1 is read as no. -/
def Frame.Heads (frame : Frame) (piece : List UInt8) : Prop :=
  frame.body <+: piece ∨
    ∃ term flag, flag ≠ 0 ∧ flag ≠ 1 ∧ frame = .start term false ∧ 0 :: (toLe 8 term ++ [flag]) <+: piece

theorem decode_found {piece : List UInt8} {frame : Frame} (read : Frame.decode piece = .ok frame) :
    frame.Heads piece := by
  obtain ⟨⟨kind, f⟩, first, made⟩ := bind_ok read
  obtain ⟨is, width⟩ := next_found first
  clear read first
  subst is
  dsimp only at made
  split at made
  · obtain ⟨⟨term, f'⟩, number, made⟩ := bind_ok made
    obtain ⟨⟨flag, f''⟩, last, same⟩ := bind_ok made
    obtain ⟨is, one⟩ := next_found last
    obtain ⟨byte, rfl⟩ := List.length_eq_one_iff.mp one
    cases same
    dsimp only at is ⊢
    rw [u64_found number, is]
    by_cases yes : byte = 1
    · left
      subst yes
      exact ⟨f'', by simp [Frame.body]⟩
    · by_cases no : byte = 0
      · left
        subst no
        exact ⟨f'', by simp [Frame.body]⟩
      · right
        exact ⟨term, byte, no, yes, by simp [yes], f'', by simp⟩
  · obtain ⟨⟨id, f'⟩, number, made⟩ := bind_ok made
    obtain ⟨⟨n, f₁⟩, counted, made⟩ := bind_ok made
    obtain ⟨⟨puts, f₂⟩, pairs, made⟩ := bind_ok made
    obtain ⟨⟨m, f₃⟩, counted', made⟩ := bind_ok made
    obtain ⟨⟨deletes, f₄⟩, keys, same⟩ := bind_ok made
    cases same
    dsimp only at counted pairs counted' keys ⊢
    obtain ⟨puts_is, puts_count⟩ := readMany_found pair_found pairs
    have found : ∀ {f : List UInt8} {key : String} {rest : List UInt8}, text f = .ok (key, rest) →
        f = (fun key => putField (textBytes key)) key ++ rest := text_found
    obtain ⟨keys_is, keys_count⟩ := readMany_found found keys
    left
    refine ⟨f₄, ?_⟩
    rw [u64_found number, count_found counted, puts_is, count_found counted', keys_is, ← puts_count,
      ← keys_count]
    simp [Frame.body]
  · obtain ⟨⟨id, f'⟩, number, same⟩ := bind_ok made
    cases same
    left
    exact ⟨f', by rw [u64_found number]; simp [Frame.body]⟩
  · obtain ⟨⟨id, f'⟩, number, same⟩ := bind_ok made
    cases same
    left
    exact ⟨f', by rw [u64_found number]; simp [Frame.body]⟩
  · cases made
  · cases made

/-- What `take` answers of any bytes: nothing until the length they declare is there, then an error
or a frame that length begins with, whatever comes after it. -/
inductive Declared (bytes : List UInt8) : Prop
  | short (none_ : Frame.take bytes = .ok none)
    (cut : ∀ piece, piece.length < 2 ^ 32 → ¬ frame piece <+: bytes)
  | refused (piece after : List UInt8) (small : piece.length < 2 ^ 32)
    (is : bytes = frame piece ++ after) (e : String)
    (answer : ∀ after', Frame.take (frame piece ++ after') = .error e)
  | read (piece after : List UInt8) (small : piece.length < 2 ^ 32)
    (is : bytes = frame piece ++ after) (found : Frame) (heads : found.Heads piece)
    (answer : ∀ after', Frame.take (frame piece ++ after') = .ok (some (found, after')))

theorem take_declared (bytes : List UInt8) : Declared bytes := by
  cases held : Framing.whole bytes with
  | none =>
    apply Declared.short
    · rw [take_whole, held]
    · intro piece small first
      obtain ⟨after, is⟩ := first
      rw [← is, whole_frame piece after small] at held
      cases held
  | some first =>
    obtain ⟨piece, after⟩ := first
    obtain ⟨small, is⟩ := whole_found bytes piece after held
    have answer (after' : List UInt8) : Frame.take (frame piece ++ after') =
        (Frame.decode piece).map fun frame => some (frame, after') := by
      rw [take_whole, whole_frame piece after' small]
    cases decoded : Frame.decode piece with
    | error e =>
      apply Declared.refused piece after small is e
      intro after'
      rw [answer, decoded]
      rfl
    | ok found =>
      apply Declared.read piece after small is found (decode_found decoded)
      intro after'
      rw [answer, decoded]
      rfl

/-- Frames sent as bytes cut into chunks anywhere are the frames read, in order, each once it is all
there; and of other bytes nothing past the length they declare is read. -/
theorem frames_exact (sent : List Frame) (fits : ∀ frame ∈ sent, frame.Fits) :
    (∀ chunks : List (List UInt8), chunks.flatten <+: sent.flatMap Frame.encode →
      ∃ k, Arrived sent k chunks.flatten ∧
        (chunks.flatten = sent.flatMap Frame.encode → k = sent.length) ∧
        ∀ n, frames n (chunks.map .ok) [] =
          ((sent.take k).map (fun frame => Except.ok (some frame)) ++ [Except.ok none]).take n) ∧
      ∀ bytes, Declared bytes := by
  constructor
  · intro chunks came
    obtain ⟨k, arrived, answers⟩ := frames_sent sent fits chunks [] came
    rw [List.nil_append] at arrived
    refine ⟨k, arrived, ?_, answers⟩
    intro all
    rw [all] at arrived
    exact arrived.all
  · exact take_declared

theorem three_fit : ∀ frame ∈ [Frame.start 3 true, .change ⟨7, [("a", [1, 2])], ["b"]⟩, .committed 7],
    frame.Fits := by
  intro frame inside
  simp only [List.mem_cons, List.not_mem_nil, or_false] at inside
  rcases inside with rfl | rfl | rfl
  · exact ⟨by decide, by decide⟩
  · exact ⟨by decide, by decide⟩
  · exact ⟨by decide, by decide⟩

/-- Three frames in chunks cut within a length and within a frame, the last byte not there yet. -/
theorem three_exact :
    ∃ k, Arrived [Frame.start 3 true, .change ⟨7, [("a", [1, 2])], ["b"]⟩, .committed 7] k
      [10, 0, 0, 0, 0, 3, 0, 0, 0, 0, 0, 0, 0, 1, 33, 0, 0, 0, 1, 7] ∧
      ∀ n, frames n [.ok [10, 0], .ok [0, 0, 0, 3, 0, 0, 0, 0, 0, 0, 0, 1, 33], .ok [0, 0, 0, 1, 7]] [] =
        ((([Frame.start 3 true, .change ⟨7, [("a", [1, 2])], ["b"]⟩, .committed 7]).take k).map
          (fun frame => Except.ok (some frame)) ++ [Except.ok none]).take n := by
  obtain ⟨k, arrived, _, answers⟩ := (frames_exact _ three_fit).1
    [[10, 0], [0, 0, 0, 3, 0, 0, 0, 0, 0, 0, 0, 1, 33], [0, 0, 0, 1, 7]]
    (List.prefix_iff_eq_take.mpr (by decide))
  exact ⟨k, arrived, answers⟩

/-- A frame's bytes and one more inside the length: read as that frame. -/
theorem longer_read : ¬ ∀ bytes : List UInt8,
    (∃ (frame : Frame) (rest : List UInt8), frame.Fits ∧ bytes = frame.encode ++ rest) ∨ Frame.take bytes = .ok none ∨
      ∃ e, Frame.take bytes = .error e := by
  intro all
  have read : Frame.take [10, 0, 0, 0, 2, 7, 0, 0, 0, 0, 0, 0, 0, 99] = .ok (some (.committed 7, [])) := rfl
  rcases all [10, 0, 0, 0, 2, 7, 0, 0, 0, 0, 0, 0, 0, 99] with ⟨frame, rest, fits, same⟩ | none_ | ⟨e, refused⟩
  · rw [same, take_sent frame fits rest] at read
    cases read
    revert same
    decide
  · rw [read] at none_
    cases none_
  · rw [read] at refused
    cases refused

end Pondra.Replica
