import Pondra.Wire.Batches

set_option autoImplicit false

/-! ### What is written is read back -/

namespace Pondra.Wire

open Bytes

/-- Among other bytes, a piece is read whole and gives a value. -/
def Reads {α : Type} (f : Reading α) (piece : List UInt8) (a : α) : Prop :=
  ∀ before after : List UInt8, (before ++ (piece ++ after)).length < 2 ^ 63 →
    f ⟨before ++ (piece ++ after), before.length⟩ =
      .value (a, ⟨before ++ (piece ++ after), before.length + piece.length⟩)

section reads

variable {α β : Type}

theorem reads_pure (a : α) : Reads (pure a) [] a := fun _ _ _ => rfl

theorem Reads.bind {f : Reading α} {g : α → Reading β} {p q : List UInt8} {a : α} {b : β}
    (first : Reads f p a) (second : Reads (g a) q b) : Reads (f >>= g) (p ++ q) b := by
  intro before after held
  rw [List.append_assoc] at held ⊢
  have here := first before (q ++ after) held
  rw [← List.append_assoc] at held
  have there := second (before ++ p) after held
  rw [Reading.bind_eq, here]
  dsimp only
  rw [← List.append_assoc, ← List.length_append, there]
  simp only [List.length_append, Nat.add_assoc]

theorem reads_take (piece : List UInt8) : Reads (Rd.take piece.length) piece piece := by
  intro before after held
  rw [List.length_append, List.length_append] at held
  unfold Rd.take
  dsimp only
  rw [Nat.mod_eq_of_lt (by omega), List.length_append, List.length_append, if_neg (by omega),
    if_neg (by omega), List.drop_left, Nat.add_sub_cancel_left, List.take_left]

/-- A number is what its bytes hold. -/
theorem signed_put {width : Nat} {v : Int} (low : -2 ^ (8 * width) ≤ 2 * v)
    (high : 2 * v < 2 ^ (8 * width)) : signed (8 * width) (ofBe (put width v)) = v := by
  have power : (0 : Int) < 2 ^ (8 * width) := Int.pow_pos (by decide)
  have start := Int.emod_nonneg v power.ne'
  have stop := Int.emod_lt_of_pos v power
  have cast : ((2 ^ (8 * width) : Nat) : Int) = 2 ^ (8 * width) := by norm_cast
  have small : (v % 2 ^ (8 * width)).toNat < 256 ^ width := by
    rw [show (256 : Nat) = 2 ^ 8 from rfl, ← Nat.pow_mul]
    omega
  rw [put, ofBe_toBe _ _ small, signed, Int.toNat_of_nonneg start, ← cast, Int.emod_bmod]
  apply Int.bmod_eq_of_le <;> omega

theorem reads_number {width : Nat} {v : Int} (low : -2 ^ (8 * width) ≤ 2 * v)
    (high : 2 * v < 2 ^ (8 * width)) : Reads (Rd.number width) (put width v) v := by
  have back := signed_put low high
  have taken := reads_take (put width v)
  rw [show (put width v).length = width from length_toBe width _] at taken
  have is := taken.bind (g := fun s => pure (signed (8 * width) (ofBe s))) (reads_pure _)
  rw [back, List.append_nil] at is
  exact is

/-! ### Varints -/

/-- The last byte, above those below its shift. -/
theorem uvarintFrom_last (left v shift : Nat) (c : UInt8) (below : v < 2 ^ shift)
    (fits : v + c.toNat * 2 ^ shift < 2 ^ 64) (last : c.toNat < 128) :
    Reads (Rd.uvarintFrom left v shift) [c] (v + c.toNat * 2 ^ shift) := by
  have low : c.toNat % 128 = c.toNat := Nat.mod_eq_of_lt last
  have sum := Varint.add_bits v c.toNat shift below fits
  rw [← List.append_nil [c]]
  cases left with
  | zero =>
    apply (reads_take [c]).bind
    simp only [List.headD_cons, Varint.and_7f, low, sum, if_pos last]
    exact reads_pure _
  | succ left =>
    apply (reads_take [c]).bind
    simp only [List.headD_cons, Varint.and_7f, low, sum, if_pos last]
    exact reads_pure _

/-- A byte that more follow. -/
theorem uvarintFrom_more (left v shift : Nat) (c : UInt8) (below : v < 2 ^ shift)
    (fits : v + c.toNat % 128 * 2 ^ shift < 2 ^ 64) (more : 128 ≤ c.toNat) {q : List UInt8} {z : Nat}
    (then_ : Reads (Rd.uvarintFrom left (v + c.toNat % 128 * 2 ^ shift) (shift + 7)) q z) :
    Reads (Rd.uvarintFrom (left + 1) v shift) (c :: q) z := by
  have sum := Varint.add_bits v (c.toNat % 128) shift below fits
  apply (reads_take [c]).bind
  simp only [List.headD_cons, Varint.and_7f, sum, if_neg (Nat.not_lt.mpr more)]
  exact then_

/-- Seven bits a byte, the lowest first, are added above what is already read. -/
theorem reads_uvarintFrom (left v shift z : Nat) (below : v < 2 ^ shift)
    (fits : v + z * 2 ^ shift < 2 ^ 64) (few : z < 2 ^ (7 * (left + 1))) :
    Reads (Rd.uvarintFrom left v shift) (Varint.varint z) (v + z * 2 ^ shift) := by
  induction left generalizing v shift z with
  | zero =>
    have small : z < 128 := by simpa using few
    have byte : (UInt8.ofNat z).toNat = z := by
      rw [UInt8.toNat_ofNat']
      omega
    have is := uvarintFrom_last 0 v shift (UInt8.ofNat z) below (by rwa [byte]) (by rwa [byte])
    rw [byte] at is
    rwa [Varint.varint_eq, if_neg (by omega)]
  | succ left ih =>
    by_cases more : 0x80 ≤ z
    · have byte : (UInt8.ofNat (z % 128 + 128)).toNat = z % 128 + 128 := by
        rw [UInt8.toNat_ofNat']
        omega
      have low : (z % 128 + 128) % 128 = z % 128 := by omega
      have whole : v + z % 128 * 2 ^ shift + z / 128 * 2 ^ (shift + 7) = v + z * 2 ^ shift := by
        have parts : z = z % 128 + z / 128 * 128 := by omega
        rw [Nat.pow_add, show (2 : Nat) ^ 7 = 128 from rfl]
        conv => rhs; rw [parts, Nat.add_mul]
        rw [Nat.mul_comm (2 ^ shift) 128, ← Nat.mul_assoc, Nat.add_assoc]
      have first : v + z % 128 * 2 ^ shift < 2 ^ (shift + 7) := by
        have most : z % 128 * 2 ^ shift ≤ 127 * 2 ^ shift := Nat.mul_le_mul_right _ (by omega)
        rw [Nat.pow_add, show (2 : Nat) ^ 7 = 128 from rfl]
        omega
      have others := ih (v + z % 128 * 2 ^ shift) (shift + 7) (z / 128) first (by rwa [whole]) (by
        rw [Nat.div_lt_iff_lt_mul (by decide)]
        rw [show 7 * (left + 1 + 1) = 7 * (left + 1) + 7 by omega, Nat.pow_add] at few
        exact few)
      rw [whole] at others
      rw [Varint.varint_eq, if_pos more]
      apply uvarintFrom_more left v shift _ below
      · rw [byte, low]
        omega
      · rw [byte]
        omega
      · rw [byte, low]
        exact others
    · have small : z < 128 := by omega
      have byte : (UInt8.ofNat z).toNat = z := by
        rw [UInt8.toNat_ofNat']
        omega
      have is := uvarintFrom_last (left + 1) v shift (UInt8.ofNat z) below (by rwa [byte]) (by rwa [byte])
      rw [byte] at is
      rwa [Varint.varint_eq, if_neg more]

theorem reads_varint {v : Int} (low : -2 ^ 63 ≤ v) (high : v < 2 ^ 63) :
    Reads Rd.varint (putVarint v) v := by
  have small := Varint.zigzag_lt v low high
  have number := reads_uvarintFrom 9 0 0 (Varint.zigzag v) (by decide) (by omega) (by omega)
  rw [Nat.pow_zero, Nat.mul_one, Nat.zero_add] at number
  have is := number.bind (g := fun v => pure (Varint.unzigzag v)) (reads_pure _)
  rw [List.append_nil, Varint.unzigzag_zigzag] at is
  exact is

theorem reads_length {n : Nat} (held : n < 2 ^ 63) : Reads Rd.varint (putVarint n) n :=
  reads_varint (by omega) (by omega)

theorem reads_vbytes (f : Option (List UInt8)) (held : (putField f).length < 2 ^ 63) :
    Reads Rd.vbytes (putField f) f := by
  cases f with
  | none =>
    have number : Reads Rd.varint (putVarint (-1)) (-1) := reads_varint (by decide) (by decide)
    rw [← List.append_nil (putField none)]
    apply number.bind
    rw [if_pos (by decide)]
    exact reads_pure none
  | some f =>
    rw [putField, List.length_append] at held
    apply (reads_length (by omega)).bind
    rw [if_neg (by omega), Int.toNat_natCast, ← List.append_nil f]
    rw [List.append_nil]
    have taken := (reads_take f).bind (g := fun s => pure (some s)) (reads_pure _)
    rw [List.append_nil] at taken
    exact taken

/-! ### Records -/

/-- The record at a place, as it is read. -/
def entryOf (i : Nat) (pair : Pair) : Entry := ⟨0, i, pair.1, pair.2⟩

def entriesFrom : Nat → List Pair → List Entry
  | _, [] => []
  | i, pair :: rest => entryOf i pair :: entriesFrom (i + 1) rest

theorem reads_entry (i : Nat) (pair : Pair) (few : i < 2 ^ 63) (held : (putRecord i pair).length < 2 ^ 63) :
    Reads entry (putVarint (putRecord i pair).length ++ putRecord i pair) (entryOf i pair) := by
  have short := held
  unfold putRecord at short
  simp only [List.length_append] at short
  have nothing : Reads Rd.varint (putVarint 0) 0 := reads_varint (by decide) (by decide)
  have attributes : Reads Rd.i8 (put 1 0) 0 := reads_number (by decide) (by decide)
  have zero : put 1 0 = [0] := by decide
  rw [zero] at attributes
  unfold entry
  unfold putRecord at held ⊢
  simp only [List.append_assoc] at held ⊢
  apply (reads_length held).bind
  apply attributes.bind
  apply nothing.bind
  apply (reads_length few).bind
  apply (reads_vbytes pair.1 (by omega)).bind
  apply (reads_vbytes pair.2 (by omega)).bind
  rw [← List.append_nil (putVarint 0)]
  apply nothing.bind
  exact reads_pure _

theorem count_le_body (i : Nat) (recs : List Pair) : recs.length ≤ (bodyFrom i recs).length := by
  induction recs generalizing i with
  | nil => exact Nat.le_refl _
  | cons pair rest ih =>
    have later := ih (i + 1)
    rw [bodyFrom, putRecord]
    simp only [List.length_append, List.length_cons]
    omega

theorem reads_body (i : Nat) (recs : List Pair) (held : i + (bodyFrom i recs).length < 2 ^ 63) :
    Reads (times entry recs.length) (bodyFrom i recs) (entriesFrom i recs) := by
  induction recs generalizing i with
  | nil => exact reads_pure []
  | cons pair rest ih =>
    rw [bodyFrom, List.length_append, List.length_append] at held
    have some_ : 0 < (putRecord i pair).length := by
      rw [putRecord]
      simp only [List.length_append, List.length_cons]
      omega
    have first := reads_entry i pair (by omega) (by omega)
    have others := (ih (i + 1) (by omega)).bind (g := fun rest => pure (entryOf i pair :: rest)) (reads_pure _)
    rw [List.append_nil] at others
    exact first.bind others

/-! ### Batches -/

/-- What a batch's fields hold. -/
structure Fits (ts : Int) (recs : List Pair) : Prop where
  length : (tail ts recs).length + 9 < 2 ^ 31
  low : -2 ^ 63 ≤ ts
  high : ts < 2 ^ 63

theorem length_put (width : Nat) (v : Int) : (put width v).length = width := length_toBe width _

theorem length_tail (ts : Int) (recs : List Pair) : (tail ts recs).length = 40 + (body recs).length := by
  unfold tail
  simp only [List.length_append, length_put]

def headOf (ts : Int) (recs : List Pair) : Head :=
  ⟨0, (recs.length : Int) - 1, ts, ts, -1, -1, -1, recs.length⟩

/-- The fields before the records. -/
def headBytes (ts : Int) (recs : List Pair) : List UInt8 :=
  put 2 0 ++ put 4 (recs.length - 1) ++ put 8 ts ++ put 8 ts ++ put 8 (-1) ++ put 2 (-1) ++
    put 4 (-1) ++ put 4 recs.length

theorem reads_head {ts : Int} {recs : List Pair} (fits : Fits ts recs) :
    Reads head (headBytes ts recs) (headOf ts recs) := by
  have length := fits.length
  rw [length_tail] at length
  have few : recs.length ≤ (body recs).length := count_le_body 0 recs
  have low := fits.low
  have high := fits.high
  have attributes : Reads Rd.i16 (put 2 0) 0 := reads_number (by decide) (by decide)
  have lastDelta : Reads Rd.i32 (put 4 ((recs.length : Int) - 1)) ((recs.length : Int) - 1) :=
    reads_number (by omega) (by omega)
  have time : Reads Rd.i64 (put 8 ts) ts := reads_number (by omega) (by omega)
  have producer : Reads Rd.i64 (put 8 (-1)) (-1) := reads_number (by decide) (by decide)
  have epoch : Reads Rd.i16 (put 2 (-1)) (-1) := reads_number (by decide) (by decide)
  have seq : Reads Rd.i32 (put 4 (-1)) (-1) := reads_number (by decide) (by decide)
  have count : Reads Rd.i32 (put 4 recs.length) recs.length := reads_number (by omega) (by omega)
  unfold head headBytes
  simp only [List.append_assoc]
  apply attributes.bind
  apply lastDelta.bind
  apply time.bind
  apply time.bind
  apply producer.bind
  apply epoch.bind
  apply seq.bind
  rw [← List.append_nil (put 4 (recs.length : Int))]
  apply count.bind
  exact reads_pure _

end reads

variable (crc32c : List UInt8 → UInt32) (inflate : Codec)

/-- A batch's bytes. -/
def sizeOf (recs : List Pair) : Nat := 61 + (body recs).length

theorem length_encodeBatch (base ts : Int) (recs : List Pair) :
    (encodeBatch crc32c base ts recs).length = sizeOf recs := by
  unfold encodeBatch
  simp only [List.length_append, length_put, length_toBe, length_tail, sizeOf]
  omega

/-- Its length, from its first twelve bytes. -/
theorem lengthAt_encode {ts : Int} {recs : List Pair} (fits : Fits ts recs) (base : Int)
    (rest : List UInt8) : lengthAt (put 8 base ++ (put 4 ((tail ts recs).length + 9) ++ rest)) = sizeOf recs := by
  have length := fits.length
  have start : (put 8 base).length = 8 := length_put 8 base
  have wide : (put 4 ((tail ts recs).length + 9)).length = 4 := length_put 4 _
  have is : signed 32 (ofBe (put 4 ((tail ts recs).length + 9))) = (tail ts recs).length + 9 :=
    @signed_put 4 _ (by omega) (by omega)
  unfold lengthAt
  rw [List.drop_left' start, List.take_left' wide, is]
  rw [length_tail] at length ⊢
  rw [sizeOf]
  omega

theorem opened_encode (format : Nat → String) (mismatch : String) (base ts : Int) (recs : List Pair) :
    opened crc32c format mismatch (encodeBatch crc32c base ts recs) = .value ⟨tail ts recs, 0⟩ := by
  have split_ : encodeBatch crc32c base ts recs =
      (put 8 base ++ put 4 ((tail ts recs).length + 9) ++ put 4 0) ++
        ([2] ++ (toBe 4 (crc32c (tail ts recs)).toNat ++ tail ts recs)) := by
    have two : put 1 2 = [2] := by decide
    unfold encodeBatch
    rw [two]
    simp only [List.append_assoc]
  have start : (put 8 base ++ put 4 ((tail ts recs).length + 9) ++ put 4 0).length = 16 := by
    simp only [List.length_append, length_put]
  have magic : (encodeBatch crc32c base ts recs)[16]? = some 2 := by
    rw [split_, List.getElem?_append_right (by omega), start]
    rfl
  have past : ((put 8 base ++ put 4 ((tail ts recs).length + 9) ++ put 4 0) ++ [2]).length = 17 := by
    rw [List.length_append, start]
    rfl
  have crc : (encodeBatch crc32c base ts recs).drop 17 =
      toBe 4 (crc32c (tail ts recs)).toNat ++ tail ts recs := by
    rw [split_, ← List.append_assoc, List.drop_left' past]
  have wide : (toBe 4 (crc32c (tail ts recs)).toNat).length = 4 := length_toBe 4 _
  have rest : (encodeBatch crc32c base ts recs).drop 21 = tail ts recs := by
    have two : (21 : Nat) = 17 + 4 := rfl
    rw [two, ← List.drop_drop, crc, List.drop_left' wide]
  have long := length_encodeBatch crc32c base ts recs
  unfold sizeOf at long
  have small := (crc32c (tail ts recs)).toNat_lt
  unfold opened
  rw [magic]
  dsimp only
  rw [if_neg (fun ne => ne rfl), if_neg (by omega), crc, List.take_left' wide, ofBe_toBe _ _ (by omega),
    rest, if_pos rfl]

/-- A batch's fields, then its records. -/
theorem tail_eq (ts : Int) (recs : List Pair) : tail ts recs = headBytes ts recs ++ body recs := rfl

theorem head_encode {ts : Int} {recs : List Pair} (fits : Fits ts recs) :
    ∃ r, head ⟨tail ts recs, 0⟩ = .value (headOf ts recs, r) ∧ r.b.drop r.at_ = body recs := by
  have length := fits.length
  rw [tail_eq] at length ⊢
  have is := reads_head fits [] (body recs) (by rw [List.nil_append]; omega)
  refine ⟨_, is, ?_⟩
  dsimp only
  rw [List.nil_append, List.length_nil, Nat.zero_add, List.drop_left]

theorem records_encode {ts : Int} {recs : List Pair} (fits : Fits ts recs) :
    ∃ r, times entry (headOf ts recs).count.toNat ⟨body recs, 0⟩ = .value (entriesFrom 0 recs, r) := by
  have length := fits.length
  rw [length_tail] at length
  have is := reads_body 0 recs (by unfold body at length; omega) [] [] (by
    rw [List.nil_append, List.append_nil]
    unfold body at length
    omega)
  rw [List.nil_append, List.append_nil] at is
  exact ⟨_, is⟩

theorem codec_encode (ts : Int) (recs : List Pair) : (headOf ts recs).codec = 0 := rfl

theorem decompress_plain (data : List UInt8) (most : Nat) : decompress inflate 0 data most =
    if data.length ≤ most then .value data
    else .error ("record batches over " ++ toString (MOST >>> 20) ++ " MB decompressed") := rfl

/-! ### A produce request's -/

/-- A batch of one timestamp. -/
abbrev Cut := Int × List Pair

def recsOf (c : Cut) : List Rec := c.2.map fun pair => ⟨pair.1, pair.2, c.1⟩

def batchOf (c : Cut) : Batch := ⟨-1, -1, -1, recsOf c⟩

theorem wrap64_eq {v : Int} (low : -2 ^ 63 ≤ v) (high : v < 2 ^ 63) : wrap64 v = v := by
  unfold wrap64
  apply Int.bmod_eq_of_le <;> omega

theorem recs_encode {ts : Int} {recs : List Pair} (fits : Fits ts recs) (now : Int) (i : Nat) (pairs : List Pair) :
    (entriesFrom i pairs).map (Entry.rec_ (headOf ts recs) now) = recsOf (ts, pairs) := by
  have at_ : wrap64 (ts + 0) = ts := by
    rw [Int.add_zero]
    exact wrap64_eq fits.low fits.high
  induction pairs generalizing i with
  | nil => rfl
  | cons pair rest ih =>
    rw [entriesFrom, List.map_cons, ih (i + 1)]
    unfold Entry.rec_ entryOf headOf
    dsimp only
    rw [at_]
    rfl

/-- What is over the batches' room. -/
def over_ : Ends (List Batch) :=
  .error ("record batches over " ++ toString (MOST >>> 20) ++ " MB decompressed")

theorem decodeBatch_encode {ts : Int} {recs : List Pair} (fits : Fits ts recs) (base now : Int) (left : Nat) :
    decodeBatch crc32c inflate now left (encodeBatch crc32c base ts recs) =
      if (body recs).length ≤ left then .value (batchOf (ts, recs), left - (body recs).length)
      else .error ("record batches over " ++ toString (MOST >>> 20) ++ " MB decompressed") := by
  obtain ⟨r, read, rest⟩ := head_encode fits
  obtain ⟨r', each⟩ := records_encode fits
  unfold decodeBatch
  rw [opened_encode, Ends.bind_value, read, Ends.bind_value]
  dsimp only
  rw [codec_encode, rest, decompress_plain]
  split
  · rw [Ends.bind_value, each, Ends.bind_value]
    dsimp only
    rw [recs_encode fits]
    rfl
  · rfl

/-- Batches one after another, of consecutive offsets. -/
def log (base : Int) : List Cut → List UInt8
  | [] => []
  | c :: rest => encodeBatch crc32c base c.1 c.2 ++ log (base + c.2.length) rest

def total (cuts : List Cut) : Nat := (cuts.map fun c => (body c.2).length).sum

theorem decodeBatchesFrom_log (now : Int) (cuts : List Cut) (fits : ∀ c ∈ cuts, Fits c.1 c.2) (base : Int)
    (left turns : Nat) (enough : (log crc32c base cuts).length ≤ turns) :
    decodeBatchesFrom crc32c inflate now turns left (log crc32c base cuts) =
      if total cuts ≤ left then .value (cuts.map batchOf) else over_ := by
  induction cuts generalizing base left turns with
  | nil =>
    cases turns with
    | zero => rfl
    | succ turns => rfl
  | cons c rest ih =>
    have own := fits c List.mem_cons_self
    have size := length_encodeBatch crc32c base c.1 c.2
    have all : (log crc32c base (c :: rest)).length =
        sizeOf c.2 + (log crc32c (base + c.2.length) rest).length := by
      rw [log, List.length_append, size]
    have some_ : 61 ≤ sizeOf c.2 := Nat.le_add_right 61 _
    cases turns with
    | zero => omega
    | succ turns =>
      have here : lengthAt (log crc32c base (c :: rest)) = sizeOf c.2 := by
        rw [log, encodeBatch]
        simp only [List.append_assoc]
        exact lengthAt_encode own base _
      have others := ih (fun d inside => fits d (List.mem_cons_of_mem _ inside)) (base + c.2.length)
      have sum : total (c :: rest) = (body c.2).length + total rest := by
        unfold total
        rw [List.map_cons, List.sum_cons]
      unfold decodeBatchesFrom
      rw [here, if_neg (by omega), if_pos ⟨some_, by omega⟩, log, ← size, List.take_left, List.drop_left,
        decodeBatch_encode crc32c inflate own]
      by_cases fit : (body c.2).length ≤ left
      · rw [if_pos fit, Ends.bind_value]
        dsimp only
        rw [others (left - (body c.2).length) turns (by omega)]
        by_cases all : total rest ≤ left - (body c.2).length
        · rw [if_pos all, if_pos (by omega)]
          rfl
        · rw [if_neg all, if_neg (by omega)]
          rfl
      · rw [if_neg fit, if_neg (by omega)]
        rfl

end Pondra.Wire
