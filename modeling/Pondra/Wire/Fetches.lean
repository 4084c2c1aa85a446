import Pondra.Wire.RoundTrip

set_option autoImplicit false

/-! ### What the client reads of a log -/

namespace Pondra.Wire

open Bytes

variable (crc32c : List UInt8 → UInt32) (inflate : Codec)

/-- The records of a batch, from an offset on. -/
def recordsFrom (offset ts : Int) : List Pair → List Record
  | [] => []
  | pair :: rest => ⟨offset, ts, pair.1, pair.2⟩ :: recordsFrom (offset + 1) ts rest

def recordsOf (offset : Int) : List Cut → List Record
  | [] => []
  | c :: rest => recordsFrom offset c.1 c.2 ++ recordsOf (offset + c.2.length) rest

def count (cuts : List Cut) : Nat := (cuts.map fun c => c.2.length).sum

/-- The batches that are whole within so many bytes, and within what may be decompressed. -/
def whole : Nat → Nat → List Cut → List Cut
  | _, _, [] => []
  | bytes, left, c :: rest =>
    if sizeOf c.2 ≤ bytes ∧ (body c.2).length ≤ left then
      c :: whole (bytes - sizeOf c.2) (left - (body c.2).length) rest
    else []

theorem records_read {ts : Int} {recs : List Pair} (fits : Fits ts recs) (base : Int) (low : -2 ^ 63 ≤ base)
    (i : Nat) (pairs : List Pair) (high : base + i + pairs.length < 2 ^ 63) :
    (entriesFrom i pairs).map (Entry.record (headOf ts recs) base) = recordsFrom (base + i) ts pairs := by
  have at_ : wrap64 (ts + 0) = ts := by
    rw [Int.add_zero]
    exact wrap64_eq fits.low fits.high
  induction pairs generalizing i with
  | nil => rfl
  | cons pair rest ih =>
    rw [List.length_cons] at high
    have place : wrap64 (base + i) = base + i := wrap64_eq (by omega) (by omega)
    have others := ih (i + 1) (by omega)
    rw [show base + ((i + 1 : Nat) : Int) = base + i + 1 by omega] at others
    rw [entriesFrom, List.map_cons, others, recordsFrom]
    unfold Entry.record entryOf headOf
    dsimp only
    rw [at_, place]
    rfl

/-- What a whole batch adds to a fetch. -/
def Fetch.more (from_ base : Int) (c : Cut) (f : Fetch) : Fetch where
  out := f.out ++ (recordsFrom base c.1 c.2).filter fun r => from_ ≤ r.offset
  next := max f.next (base + c.2.length)
  left := f.left - (body c.2).length
  aborting := (Fetch.opening base f.starts f.aborting).2
  starts := (Fetch.opening base f.starts f.aborting).1

theorem batch_encode {c : Cut} (fits : Fits c.1 c.2) (from_ base : Int) (low : -2 ^ 63 ≤ base)
    (high : base + c.2.length < 2 ^ 63) (most : Nat) (f : Fetch) :
    f.batch crc32c inflate from_ most (encodeBatch crc32c base c.1 c.2) =
      if (body c.2).length ≤ f.left then .value (some (f.more from_ base c))
      else if f.left < most then .value none
      else .error ("record batches over " ++ toString (MOST >>> 20) ++ " MB decompressed") := by
  obtain ⟨r, read, rest⟩ := head_encode fits
  obtain ⟨r', each⟩ := records_encode fits
  have start : (put 8 base).length = 8 := length_put 8 base
  have first : signed 64 (ofBe ((encodeBatch crc32c base c.1 c.2).take 8)) = base := by
    unfold encodeBatch
    simp only [List.append_assoc]
    rw [List.take_left' start]
    have power : (2 : Int) ^ (8 * 8) = 2 ^ 64 := rfl
    exact @signed_put 8 base (by omega) (by omega)
  have records := records_read fits base low 0 c.2 (by omega)
  rw [show base + ((0 : Nat) : Int) = base by omega] at records
  have after : wrap64 (wrap64 (base + (headOf c.1 c.2).lastDelta) + 1) = base + c.2.length := by
    have last : (headOf c.1 c.2).lastDelta = (c.2.length : Int) - 1 := rfl
    have place : wrap64 (base + c.2.length) = base + c.2.length := wrap64_eq (by omega) high
    unfold wrap64 at place ⊢
    rw [last, Int.bmod_add_bmod, show base + ((c.2.length : Int) - 1) + 1 = base + c.2.length by omega, place]
  have control : (headOf c.1 c.2).control = false := rfl
  have transactional : (headOf c.1 c.2).transactional = false := rfl
  unfold Fetch.batch
  rw [opened_encode, Ends.bind_value, first, read, Ends.bind_value]
  dsimp only
  rw [after, control, transactional, codec_encode, rest, decompress_plain, if_neg Bool.false_ne_true,
    if_neg (fun both => Bool.false_ne_true both.1)]
  by_cases fit : (body c.2).length ≤ f.left
  · rw [if_pos fit, if_pos fit]
    dsimp only
    rw [each, Ends.bind_value]
    dsimp only
    rw [records]
    rfl
  · rw [if_neg fit, if_neg fit]
    rfl

/-- What a fetch has after batches: the records from an offset on, and the offset after the last. -/
structure Fetch.Has (from_ base : Int) (cuts : List Cut) (f f' : Fetch) : Prop where
  out : f'.out = f.out ++ (recordsOf base cuts).filter fun r => from_ ≤ r.offset
  next : f'.next = if cuts = [] then f.next else max f.next (base + count cuts)

theorem Fetch.has_none (from_ base : Int) (f : Fetch) : f.Has from_ base [] f :=
  ⟨(List.append_nil _).symm, rfl⟩

theorem Fetch.Has.cons {from_ base : Int} {c : Cut} {cuts : List Cut} {f f' : Fetch}
    (has : (f.more from_ base c).Has from_ (base + c.2.length) cuts f') : f.Has from_ base (c :: cuts) f' := by
  have sum : count (c :: cuts) = c.2.length + count cuts := by
    unfold count
    rw [List.map_cons, List.sum_cons]
  constructor
  · rw [has.out, recordsOf, List.filter_append]
    unfold Fetch.more
    rw [List.append_assoc]
  · rw [has.next, if_neg (List.cons_ne_nil c cuts), sum]
    unfold Fetch.more
    dsimp only
    split
    · rename_i none_
      rw [none_]
      unfold count
      rw [List.map_nil, List.sum_nil, Nat.add_zero]
    · omega

/-- The whole batches of a log cut anywhere are read, and the rest left for the next fetch. -/
theorem turns_log (from_ : Int) (most : Nat) (cuts : List Cut) (fits : ∀ c ∈ cuts, Fits c.1 c.2)
    (small : ∀ c ∈ cuts, (body c.2).length ≤ most) (base : Int) (low : -2 ^ 63 ≤ base)
    (high : base + count cuts < 2 ^ 63) (bytes turns : Nat) (f : Fetch)
    (enough : ((log crc32c base cuts).take bytes).length ≤ turns) :
    ∃ f', Fetch.turns crc32c inflate from_ most turns f ((log crc32c base cuts).take bytes) = .value f' ∧
      f.Has from_ base (whole bytes f.left cuts) f' := by
  induction cuts generalizing base bytes turns f with
  | nil =>
    refine ⟨f, ?_, f.has_none from_ base⟩
    rw [log, List.take_nil]
    cases turns with
    | zero => rfl
    | succ turns => rfl
  | cons c rest ih =>
    have own := fits c List.mem_cons_self
    have size := length_encodeBatch crc32c base c.1 c.2
    have sum : count (c :: rest) = c.2.length + count rest := by
      unfold count
      rw [List.map_cons, List.sum_cons]
    rw [log, List.take_append, size] at enough ⊢
    by_cases cut : sizeOf c.2 ≤ bytes
    · rw [List.take_of_length_le (by omega)] at enough ⊢
      rw [List.length_append, size] at enough
      have some_ : 61 ≤ sizeOf c.2 := Nat.le_add_right 61 _
      cases turns with
      | zero => omega
      | succ turns =>
        have here : lengthAt (encodeBatch crc32c base c.1 c.2 ++
            (log crc32c (base + c.2.length) rest).take (bytes - sizeOf c.2)) = sizeOf c.2 := by
          rw [encodeBatch]
          simp only [List.append_assoc]
          exact lengthAt_encode own base _
        unfold Fetch.turns
        rw [here, List.length_append, size, if_neg (by omega), if_neg (by omega), ← size, List.take_left,
          List.drop_left, batch_encode crc32c inflate own from_ base low (by omega), size]
        unfold whole
        by_cases fit : (body c.2).length ≤ f.left
        · obtain ⟨f', done, has⟩ := ih (fun d inside => fits d (List.mem_cons_of_mem _ inside))
            (fun d inside => small d (List.mem_cons_of_mem _ inside)) (base + c.2.length) (by omega) (by omega)
            (bytes - sizeOf c.2) turns (f.more from_ base c) (by omega)
          rw [if_pos fit, if_pos ⟨cut, fit⟩, Ends.bind_value]
          exact ⟨f', done, has.cons⟩
        · have own_small := small c List.mem_cons_self
          rw [if_neg fit, if_pos (by omega), if_neg (fun both => fit both.2), Ends.bind_value]
          exact ⟨f, rfl, f.has_none from_ base⟩
    · have short : ((encodeBatch crc32c base c.1 c.2).take bytes).length = bytes := by
        rw [List.length_take]
        omega
      rw [show bytes - sizeOf c.2 = 0 by omega, List.take_zero, List.append_nil] at enough ⊢
      unfold whole
      rw [if_neg (fun both => cut both.1)]
      refine ⟨f, ?_, f.has_none from_ base⟩
      cases turns with
      | zero => rfl
      | succ turns =>
        unfold Fetch.turns
        rw [short]
        split
        · rfl
        · rename_i long
          have here : lengthAt ((encodeBatch crc32c base c.1 c.2).take bytes) = sizeOf c.2 := by
            have start : (put 8 base).length = 8 := length_put 8 base
            have wide : (put 4 ((tail c.1 c.2).length + 9)).length = 4 := length_put 4 _
            unfold encodeBatch
            simp only [List.append_assoc]
            rw [List.take_append, List.take_of_length_le (by omega), start, List.take_append,
              List.take_of_length_le (by omega)]
            exact lengthAt_encode own base _
          rw [here, if_pos (by omega)]

/-! ### Any bytes at all -/

theorem always_head : Always head fun _ => True := by
  apply (Rd.always_number (by decide)).bind
  intro _ _
  apply (Rd.always_number (by decide)).bind
  intro _ _
  apply (Rd.always_number (by decide)).bind
  intro _ _
  apply (Rd.always_number (by decide)).bind
  intro _ _
  apply (Rd.always_number (by decide)).bind
  intro _ _
  apply (Rd.always_number (by decide)).bind
  intro _ _
  apply (Rd.always_number (by decide)).bind
  intro _ _
  apply (Rd.always_number (by decide)).bind
  intro _ _
  exact always_pure trivial

theorem always_times {α : Type} {f : Reading α} {gives : α → Prop} (always : Always f gives) (n : Nat) :
    Always (times f n) fun _ => True := by
  induction n with
  | zero => exact always_pure trivial
  | succ n ih =>
    apply always.bind
    intro _ _
    apply ih.bind
    intro _ _
    exact always_pure trivial

theorem always_header : Always header fun _ => True :=
  Rd.always_vbytes.bind fun _ _ => Rd.always_vbytes.bind fun _ _ => always_pure trivial

theorem always_entry : Always entry fun _ => True := by
  apply Rd.always_varint.bind
  intro _ _
  apply (Rd.always_number (by decide)).bind
  intro _ _
  apply Rd.always_varint.bind
  intro _ _
  apply Rd.always_varint.bind
  intro _ _
  apply Rd.always_vbytes.bind
  intro _ _
  apply Rd.always_vbytes.bind
  intro _ _
  apply Rd.always_varint.bind
  intro headers _
  apply (always_times always_header headers.toNat).bind
  intro _ _
  exact always_pure trivial

theorem room_sound (most : Nat) (out : List UInt8) : (decompress.room most out).Sound ∧
    ∀ body, decompress.room most out = .value body → body.length ≤ most := by
  unfold decompress.room
  split
  · rename_i few
    exact ⟨trivial, fun body is => by cases is; exact few⟩
  · exact ⟨trivial, fun body is => by cases is⟩

/-- What is decompressed is within its room. -/
theorem decompress_sound (codec : Nat) (data : List UInt8) (most : Nat) :
    (decompress inflate codec data most).Sound ∧
      ∀ body, decompress inflate codec data most = .value body → body.length ≤ most := by
  unfold decompress
  split
  · exact room_sound most data
  · split
    · exact room_sound most _
    · exact ⟨trivial, fun _ is => by cases is⟩
  · split
    · exact room_sound most _
    · exact ⟨trivial, fun _ is => by cases is⟩
  · split
    · exact room_sound most _
    · exact ⟨trivial, fun _ is => by cases is⟩
  · split
    · exact room_sound most _
    · exact ⟨trivial, fun _ is => by cases is⟩
  · exact ⟨trivial, fun _ is => by cases is⟩

theorem opened_sound (format : Nat → String) (mismatch : String) {batch : List UInt8}
    (long : 61 ≤ batch.length) : (opened crc32c format mismatch batch).Sound ∧
      ∀ r, opened crc32c format mismatch batch = .value r → r = ⟨batch.drop 21, 0⟩ := by
  unfold opened
  rw [List.getElem?_eq_getElem (by omega)]
  dsimp only
  split
  · exact ⟨trivial, fun _ is => by cases is⟩
  · rw [if_neg (by omega)]
    split
    · exact ⟨trivial, fun _ is => by cases is; rfl⟩
    · exact ⟨trivial, fun _ is => by cases is⟩

theorem decodeBatch_sound (now : Int) {left : Nat} (small : left ≤ MOST) {batch : List UInt8}
    (long : 61 ≤ batch.length) (held : batch.length < 2 ^ 63) :
    (decodeBatch crc32c inflate now left batch).Sound ∧
      ∀ b left', decodeBatch crc32c inflate now left batch = .value (b, left') → left' ≤ left := by
  obtain ⟨first, starts⟩ := opened_sound crc32c
    (fun v => "record batch format v" ++ toString v ++ " (only v2)") "record batch CRC mismatch" long
  unfold decodeBatch
  cases is : opened crc32c (fun v => "record batch format v" ++ toString v ++ " (only v2)")
    "record batch CRC mismatch" batch with
  | error text => exact ⟨trivial, fun _ _ is => by cases is⟩
  | panic =>
    rw [is] at first
    exact first.elim
  | value r =>
    obtain rfl := starts r is
    have within : Rd.Within ⟨batch.drop 21, 0⟩ := by
      constructor
      · exact Nat.zero_le _
      · rw [List.length_drop]
        omega
    have fields := always_head _ within
    rw [Ends.bind_value]
    cases read : head ⟨batch.drop 21, 0⟩ with
    | error text => exact ⟨trivial, fun _ _ is => by cases is⟩
    | panic =>
      have sound := fields.sound
      rw [read] at sound
      exact sound.elim
    | value pair =>
      obtain ⟨h, r⟩ := pair
      obtain ⟨roomy, few⟩ := decompress_sound inflate h.codec (r.b.drop r.at_) left
      rw [Ends.bind_value]
      dsimp only
      cases plain : decompress inflate h.codec (r.b.drop r.at_) left with
      | error text => exact ⟨trivial, fun _ _ is => by cases is⟩
      | panic =>
        rw [plain] at roomy
        exact roomy.elim
      | value body =>
        have short := few body plain
        have room : MOST < 2 ^ 63 := by decide
        have records := always_times always_entry h.count.toNat ⟨body, 0⟩
          ⟨Nat.zero_le _, by dsimp only; omega⟩
        rw [Ends.bind_value]
        cases each : times entry h.count.toNat ⟨body, 0⟩ with
        | error text => exact ⟨trivial, fun _ _ is => by cases is⟩
        | panic =>
          have sound := records.sound
          rw [each] at sound
          exact sound.elim
        | value pair =>
          refine ⟨trivial, fun b left' is => ?_⟩
          cases is
          exact Nat.sub_le _ _

/-- Batches of any bytes are read, or refused. -/
theorem decodeBatchesFrom_sound (now : Int) (turns : Nat) {left : Nat} (small : left ≤ MOST) {b : List UInt8}
    (held : b.length < 2 ^ 63) : (decodeBatchesFrom crc32c inflate now turns left b).Sound := by
  induction turns generalizing left b with
  | zero => trivial
  | succ turns ih =>
    unfold decodeBatchesFrom
    generalize lengthAt b = size
    by_cases short : b.length < 61
    · rw [if_pos short]
      trivial
    · rw [if_neg short]
      by_cases fit : 61 ≤ size ∧ size ≤ b.length
      · rw [if_pos fit]
        have length : (b.take size).length = size := List.length_take_of_le fit.2
        obtain ⟨sound, less⟩ := decodeBatch_sound crc32c inflate now small
          (show 61 ≤ (b.take size).length by omega) (by omega)
        apply sound.bind
        intro pair is
        obtain ⟨batch, left'⟩ := pair
        have room := less batch left' is
        dsimp only
        apply (ih (by omega) (by rw [List.length_drop]; omega)).bind
        intro _ _
        exact trivial
      · rw [if_neg fit]
        trivial

/-- Batches written are read as they were, by the broker within its room and by the client up to where
they are cut or its room ends; and reads of any bytes end, the position never back nor past the end. -/
theorem batches_exact (now base : Int) (cuts : List Cut) (fits : ∀ c ∈ cuts, Fits c.1 c.2)
    (low : -2 ^ 63 ≤ base) (high : base + count cuts < 2 ^ 63) :
    (decodeBatches crc32c inflate now (log crc32c base cuts) =
        if total cuts ≤ MOST then .value (cuts.map batchOf) else over_) ∧
      (∀ from_ aborted most bytes, (∀ c ∈ cuts, (body c.2).length ≤ most) →
        decode crc32c inflate ((log crc32c base cuts).take bytes) from_ aborted most =
          .value ((recordsOf base (whole bytes most cuts)).filter fun r => from_ ≤ r.offset,
            if whole bytes most cuts = [] then from_ else max from_ (base + count (whole bytes most cuts)))) ∧
      ∀ b : List UInt8, b.length < 2 ^ 63 → (decodeBatches crc32c inflate now b).Sound ∧
        ∀ ops, Tame ops ⟨b, 0⟩ → Advances (reads ops) (fun _ => True) ⟨b, 0⟩ := by
  refine ⟨?_, ?_, ?_⟩
  · unfold decodeBatches
    exact decodeBatchesFrom_log crc32c inflate now cuts fits base MOST _ (Nat.le_refl _)
  · intro from_ aborted most bytes small
    obtain ⟨f, is, has⟩ := turns_log crc32c inflate from_ most cuts fits small base low high bytes _
      ⟨[], from_, most, [], aborted.mergeSort fun a b => decide (a.2 ≤ b.2)⟩ (Nat.le_refl _)
    unfold decode
    dsimp only
    rw [is, Ends.bind_value, has.out, has.next]
    rfl
  · intro b held
    refine ⟨decodeBatchesFrom_sound crc32c inflate now _ (Nat.le_refl _) held, fun ops tame => ?_⟩
    exact reads_advance ops ⟨b, 0⟩ ⟨Nat.zero_le _, held⟩ tame

/-! ### Sizes -/

theorem length_putVarint (v : Int) (low : -2 ^ 63 ≤ v) (high : v < 2 ^ 63) : (putVarint v).length ≤ 10 := by
  have small := Varint.zigzag_lt v low high
  exact Varint.length_varint_le 9 _ (by omega)

theorem length_putField (f : Option (List UInt8)) (held : (f.getD []).length < 2 ^ 63) :
    (putField f).length ≤ 10 + (f.getD []).length := by
  cases f with
  | none => exact length_putVarint (-1) (by decide) (by decide)
  | some f =>
    rw [Option.getD_some] at held ⊢
    have size := length_putVarint f.length (by omega) (by omega)
    rw [putField, List.length_append]
    omega

/-- A batch of one record takes more bytes than its value, and at most 61 more than its key and its value. -/
theorem length_body_one (pair : Pair) (key : (pair.1.getD []).length < 2 ^ 61)
    (value : (pair.2.getD []).length < 2 ^ 61) :
    (pair.2.getD []).length < (body [pair]).length ∧
      (body [pair]).length ≤ 61 + (pair.1.getD []).length + (pair.2.getD []).length := by
  have first := length_putField pair.1 (by omega)
  have second := length_putField pair.2 (by omega)
  have zero := length_putVarint 0 (by decide) (by decide)
  unfold body bodyFrom bodyFrom putRecord
  simp only [List.length_append, List.length_singleton, List.length_nil]
  have size := length_putVarint ((1 + (putVarint 0).length + (putVarint ((0 : Nat) : Int)).length +
    (putField pair.1).length + (putField pair.2).length + (putVarint 0).length : Nat) : Int) (by omega)
    (by
      rw [Int.natCast_zero]
      omega)
  have holds : (pair.2.getD []).length ≤ (putField pair.2).length := by
    cases pair.2 with
    | none => exact Nat.zero_le _
    | some f =>
      rw [putField, List.length_append, Option.getD_some]
      exact Nat.le_add_left _ _
  rw [Int.natCast_zero] at size ⊢
  omega

theorem fits_one (pair : Pair) (key : (pair.1.getD []).length < 2 ^ 29)
    (value : (pair.2.getD []).length < 2 ^ 29) : Fits 0 [pair] := by
  have size := (length_body_one pair (by omega) (by omega)).2
  refine ⟨?_, by decide, by decide⟩
  rw [length_tail]
  omega

/-- Two batches of a record each. -/
def two : List Cut := [(0, [(none, some [1, 2])]), (0, [(none, none)])]

theorem two_read : decodeBatches (fun _ => 0) (fun _ _ _ => .error "") 0 (log (fun _ => 0) 7 two) =
    .value [batchOf (0, [(none, some [1, 2])]), batchOf (0, [(none, none)])] := by
  have fits : ∀ c ∈ two, Fits c.1 c.2 := by
    intro c inside
    rcases List.mem_cons.mp inside with rfl | more
    · exact fits_one _ (by decide) (by decide)
    · rw [List.mem_singleton.mp more]
      exact fits_one _ (by decide) (by decide)
  have first := (length_body_one (none, some [1, 2]) (by decide) (by decide)).2
  have second := (length_body_one (none, none) (by decide) (by decide)).2
  have value : ((some [1, 2] : Option (List UInt8)).getD []).length = 2 := rfl
  have none_ : ((none : Option (List UInt8)).getD []).length = 0 := rfl
  have most : MOST = 268435456 := rfl
  have room : total two ≤ MOST := by
    unfold total two
    simp only [List.map_cons, List.map_nil, List.sum_cons, List.sum_nil]
    dsimp only at first second
    omega
  have is := (batches_exact (fun _ => 0) (fun _ _ _ => .error "") 0 7 two fits (by decide) (by decide)).1
  rw [if_pos room] at is
  exact is

/-- One record of as many bytes as batches may hold. -/
def big : List Pair := [(none, some (List.replicate MOST 0))]

theorem big_refused : Fits 0 big ∧ decodeBatches (fun _ => 0) (fun _ _ _ => .error "") 0
    (log (fun _ => 0) 0 [(0, big)]) ≠ .value [batchOf (0, big)] := by
  have most : MOST = 268435456 := rfl
  have value : ((some (List.replicate MOST (0 : UInt8))).getD []).length = MOST := by
    rw [Option.getD_some, List.length_replicate]
  have size := (length_body_one (none, some (List.replicate MOST 0)) (by decide) (by rw [value]; omega)).1
  have fits : Fits 0 big := fits_one _ (by decide) (by rw [value]; omega)
  refine ⟨fits, ?_⟩
  have read := decodeBatchesFrom_log (fun _ => 0) (fun _ _ _ => .error "") 0 [(0, big)]
    (fun c inside => by rw [List.mem_singleton.mp inside]; exact fits) 0 MOST _ (Nat.le_refl _)
  have sum : ¬total [(0, big)] ≤ MOST := by
    unfold total big
    rw [List.map_singleton, List.sum_singleton]
    rw [value] at size
    exact Nat.not_le.mpr size
  rw [if_neg sum] at read
  unfold decodeBatches
  rw [read]
  intro same
  cases same

end Pondra.Wire
