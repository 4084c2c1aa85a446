import Pondra.Shuffle.Moved

set_option autoImplicit false

namespace Pondra.Shuffle

open Bytes Framing Machines Dicts

variable {Row : Type}

/-- Every bucket is whole under its own paths, every file is a bucket's, and every hop that was
taken came whole. -/
structure Inv (arrow : Arrow Row) (s : State Row) : Prop where
  fresh : s.disk.paths.Nodup
  named : ∀ path ∈ s.disk.paths, ∃ key ∈ s.used, ∃ n, path = pathOf key n
  live : ∀ key held, s.buckets.lookup key = some held →
    Filled arrow s.disk held.spill held.put ∧ held.spill.key = key ∧ key ∈ s.used
  cut : ∀ hop ∈ s.hops, hop.came ≠ hop.sent → ∃ e, hop.failed = some e
  whole : ∀ hop ∈ s.hops, hop.came = hop.sent → ∀ e, hop.failed = some e → Refused arrow e

theorem Inv.moved {arrow : Arrow Row} {s : State Row} (inv : Inv arrow s) : Moved arrow s where
  rows key held found := (inv.live key held found).1.parts
  files := inv.fresh
  cut := inv.cut
  whole := inv.whole

theorem initial_inv (arrow : Arrow Row) : Inv arrow (initial : State Row) where
  fresh := List.nodup_nil
  named _ inside := absurd inside List.not_mem_nil
  live key held found := by
    have none_ : (initial : State Row).buckets.lookup key = none := AList.lookup_empty key
    rw [none_] at found
    cases found
  cut _ inside := absurd inside List.not_mem_nil
  whole _ inside := absurd inside List.not_mem_nil

/-- A bucket dropped is one less to keep. -/
theorem Inv.erase {arrow : Arrow Row} {s : State Row} (inv : Inv arrow s) (key : Key) :
    Inv arrow { s with buckets := s.buckets.erase key } where
  fresh := inv.fresh
  named := inv.named
  live other held found := by
    by_cases same : other = key
    · subst same
      rw [AList.lookup_erase] at found
      cases found
    · rw [AList.lookup_erase_ne same] at found
      exact inv.live other held found
  cut := inv.cut
  whole := inv.whole

/-- Files of buckets that aren't there leave everything as it is. -/
theorem Inv.adds {arrow : Arrow Row} {s : State Row} (inv : Inv arrow s) {keys : List Key}
    {disk : Disk} (adds : Adds keys s.disk disk)
    (away : ∀ key ∈ keys, s.buckets.lookup key = none) (more : List Key)
    (used : ∀ key ∈ keys, key ∈ more ++ s.used) :
    Inv arrow { s with disk := disk, used := more ++ s.used } where
  fresh := adds.fresh inv.fresh
  named path inside := by
    rcases adds.ours path inside with before | ⟨key, listed, n, same⟩
    · obtain ⟨key, held, n, same⟩ := inv.named path before
      exact ⟨key, List.mem_append_right _ held, n, same⟩
    · exact ⟨key, used key listed, n, same⟩
  live key held found := by
    obtain ⟨filled, same, listed⟩ := inv.live key held found
    have other : held.spill.key ∉ keys := by
      intro inside
      rw [same] at inside
      rw [away key inside] at found
      cases found
    exact ⟨filled.later adds other, same, List.mem_append_right _ listed⟩
  cut := inv.cut
  whole := inv.whole

/-- One more bucket, of rows its pieces hold. -/
theorem Inv.insert {arrow : Arrow Row} {s : State Row} (inv : Inv arrow s) (held : Held Row)
    (filled : Filled arrow s.disk held.spill held.put) (used : held.spill.key ∈ s.used) :
    Inv arrow { s with buckets := s.buckets.insert held.spill.key held } where
  fresh := inv.fresh
  named := inv.named
  live key other found := by
    rw [lookup_insert_eq] at found
    split at found
    · rename_i same
      cases found
      exact ⟨filled, same.symm, same ▸ used⟩
    · exact inv.live key other found
  cut := inv.cut
  whole := inv.whole

theorem Inv.insertAll {arrow : Arrow Row} {s : State Row} (inv : Inv arrow s)
    (helds : List (Held Row)) (each : ∀ held ∈ helds,
      Filled arrow s.disk held.spill held.put ∧ held.spill.key ∈ s.used) :
    Inv arrow { s with buckets := insertAll s.buckets helds } := by
  induction helds generalizing s with
  | nil => exact inv
  | cons held helds ih =>
    obtain ⟨filled, used⟩ := each held List.mem_cons_self
    exact ih (inv.insert held filled used) fun h inside => each h (List.mem_cons_of_mem _ inside)

theorem Inv.hop {arrow : Arrow Row} {s : State Row} (inv : Inv arrow s) (hop : Hop)
    (cut : hop.came ≠ hop.sent → ∃ e, hop.failed = some e)
    (whole : hop.came = hop.sent → ∀ e, hop.failed = some e → Refused arrow e) :
    Inv arrow { s with hops := hop :: s.hops } where
  fresh := inv.fresh
  named := inv.named
  live := inv.live
  cut other inside := by
    rcases List.mem_cons.mp inside with rfl | before
    · exact cut
    · exact inv.cut other before
  whole other inside := by
    rcases List.mem_cons.mp inside with rfl | before
    · exact whole
    · exact inv.whole other before

/-- An operation on a bucket, whose other buckets are gone. -/
theorem Inv.put {arrow : Arrow Row} {s : State Row} (inv : Inv arrow s) {keys : List Key}
    {key : Key} {rows : List Row} {result : Except String (Spill Row) × Disk}
    (does : Does arrow keys s.disk result key rows) (used : ∀ k ∈ keys, k ∈ s.used)
    (ours : key ∈ s.used) (away : ∀ k ∈ keys, k ≠ key → s.buckets.lookup k = none) :
    Inv arrow (s.put key rows result) := by
  obtain ⟨outcome, disk⟩ := result
  have dropped : Inv arrow { s with disk := disk, buckets := s.buckets.erase key } := by
    have gone : ∀ k ∈ keys, (s.buckets.erase key).lookup k = none := by
      intro k inside
      by_cases same : k = key
      · rw [same, AList.lookup_erase]
      · rw [AList.lookup_erase_ne same]
        exact away k inside same
    have wider := (inv.erase key).adds does.adds gone [] used
    exact wider
  cases outcome with
  | error e => exact dropped
  | ok spill =>
    obtain ⟨filled, same⟩ := does.filled spill rfl
    have inserted := dropped.insert ⟨spill, rows⟩ filled (by rw [same]; exact ours)
    constructor
    case fresh => exact inserted.fresh
    case named => exact inserted.named
    case live =>
      intro k held found
      apply inserted.live k held
      simp only [State.put] at found
      rw [lookup_insert_eq] at found ⊢
      dsimp only at found ⊢
      rw [same]
      split at found
      · rename_i here
        rw [if_pos here]
        exact found
      · rename_i there
        rw [if_neg there, AList.lookup_erase_ne there]
        exact found
    case cut => exact inserted.cut
    case whole => exact inserted.whole

/-- A bucket that was never there has no files. -/
theorem Inv.free {arrow : Arrow Row} {s : State Row} (inv : Inv arrow s) (key : Key)
    (new : key ∉ s.used) (n : Nat) : pathOf key n ∉ s.disk.paths := by
  intro inside
  obtain ⟨other, used, m, same⟩ := inv.named _ inside
  exact new ((pathOf_inj _ _ _ _ same).1 ▸ used)

theorem Inv.parts {arrow : Arrow Row} {s : State Row} (inv : Inv arrow s) (from_ : List Key)
    (held : Held Row) (inside : held ∈ s.parts from_) :
    chain arrow s.disk held.spill.parts = .ok held.put := by
  obtain ⟨key, _, found⟩ := List.mem_filterMap.mp inside
  exact (inv.live key held found).1.parts

/-! ### Each operation -/

theorem new_inv {arrow : Arrow Row} {s : State Row} (inv : Inv arrow s) (key : Key)
    (new : key ∉ s.used) : Inv arrow (next arrow s (.new key)) := by
  have named : Inv arrow { s with disk := s.disk, used := [key] ++ s.used } :=
    inv.adds (Adds.refl [] s.disk) (fun _ inside => absurd inside List.not_mem_nil) [key]
      fun _ inside => absurd inside List.not_mem_nil
  have empty : Filled arrow s.disk (Spill.new key.1 key.2) ([] : List Row) :=
    ⟨⟨[], rfl, rfl⟩, fun n inside => absurd inside (inv.free key new n)⟩
  exact named.insert ⟨Spill.new key.1 key.2, []⟩ empty List.mem_cons_self

section steps

variable {arrow : Arrow Row} (lawful : arrow.Lawful)
include lawful

theorem push_inv {s : State Row} (inv : Inv arrow s) (piece : Nat) (room : Path → Bool)
    (key : Key) (batch : Batch Row) : Inv arrow (next arrow s (.push piece room key batch)) := by
  simp only [next]
  cases found : s.buckets.lookup key with
  | none => exact inv
  | some held =>
    obtain ⟨filled, same, used⟩ := inv.live key held found
    have does := push_does lawful piece room batch filled
    rw [same] at does
    apply inv.put does
    · intro k inside
      rw [List.mem_singleton.mp inside]
      exact used
    · exact used
    · intro k inside other
      exact absurd (List.mem_singleton.mp inside) other

theorem absorb_inv {s : State Row} (inv : Inv arrow s) (piece : Nat) (room : Path → Bool)
    (key other : Key) (apart : key ≠ other) :
    Inv arrow (next arrow s (.absorb piece room key other)) := by
  simp only [next]
  cases found : s.buckets.lookup key with
  | none => exact inv
  | some held =>
    cases found' : s.buckets.lookup other with
    | none => exact inv
    | some held' =>
      obtain ⟨filled, same, used⟩ := inv.live key held found
      obtain ⟨filled', same', used'⟩ := inv.live other held' found'
      have does := absorb_does lawful piece room filled filled' (by rw [same, same']; exact apart)
      rw [same, same'] at does
      dsimp only
      apply (inv.erase other).put does
      · intro k inside
        rcases List.mem_cons.mp inside with rfl | later
        · exact used
        · rw [List.mem_singleton.mp later]
          exact used'
      · exact used
      · intro k inside ne
        rcases List.mem_cons.mp inside with here | later
        · exact absurd here ne
        · rw [List.mem_singleton.mp later]
          exact AList.lookup_erase _ _

/-- A reply that fits in 32 bits: read back whole it is the buckets, cut short it is an error. -/
theorem readReply_read {s : State Row} (inv : Inv arrow s) (piece : Nat) (room : Path → Bool)
    (shape : List UInt8) (from_ : List Key) (dir name : String) (chunks : List (List UInt8))
    (fits : Fits arrow s (.hop piece room shape from_ dir name chunks))
    (new : ∀ key ∈ intoKeys dir name (s.parts from_).length, key ∉ s.used)
    (sent : List UInt8)
    (replied : reply arrow s.disk shape ((s.parts from_).map Held.spill) = .ok sent)
    (came : chunks.flatten <+: sent) :
    Adds (intoKeys dir name (s.parts from_).length) s.disk
        (readReply arrow piece room dir name ⟨chunks, []⟩ s.disk).2 ∧
      (∀ spills, (readReply arrow piece room dir name ⟨chunks, []⟩ s.disk).1 = .ok spills →
        chunks.flatten = sent ∧
        ∀ held ∈ List.zipWith Held.mk spills ((s.parts from_).map Held.put),
          Filled arrow (readReply arrow piece room dir name ⟨chunks, []⟩ s.disk).2
            held.spill held.put ∧
          held.spill.key ∈ intoKeys dir name (s.parts from_).length) ∧
      (chunks.flatten = sent →
        ∀ e, (readReply arrow piece room dir name ⟨chunks, []⟩ s.disk).1 = .error e →
          Refused arrow e) := by
  obtain ⟨short, few, each⟩ := fits
  obtain ⟨missing, joined⟩ := came
  unfold reply at replied
  cases body : replyParts arrow s.disk ((s.parts from_).map Held.spill) with
  | error e => simp only [body] at replied; cases replied
  | ok bytes =>
    simp only [body, Except.ok.injEq] at replied
    obtain ⟨bodies, good, bytes_eq, puts⟩ :=
      replyParts_sent lawful s.disk (s.parts from_) bytes (inv.parts from_) each body
    have length : (s.parts from_).length = bodies.length := by
      have lengths := congrArg List.length puts
      rwa [List.length_map, List.length_map] at lengths
    have whole_iff : chunks.flatten = sent ↔ missing = [] := by
      rw [← joined]
      constructor
      · intro same
        exact @List.append_cancel_left _ chunks.flatten _ _
          (by rw [List.append_nil]; exact same.symm)
      · intro none_
        rw [none_, List.append_nil]
    rw [List.length_map, Nat.mod_eq_of_lt few, length] at replied
    have stream : (⟨chunks, []⟩ : Frames).rest ++ missing =
        frame shape ++ (frame (toLe 4 bodies.length) ++ bodies.flatMap wire) := by
      rw [Frames.rest, List.nil_append, joined, ← replied, bytes_eq, List.append_assoc]
    rw [length] at new few ⊢
    rw [puts, whole_iff]
    unfold readReply
    rcases next_sent _ shape _ missing short stream with ⟨later, read, left⟩ | ⟨lost, ended | failed⟩
    · simp only [read]
      rcases count_sent later bodies.length _ missing few left with
        ⟨later', read', left'⟩ | ⟨lost, e, failed⟩
      · simp only [read']
        have free : ∀ i, 0 ≤ i → i < 0 + bodies.length →
            ∀ n, pathOf (partKey dir name i) n ∉ s.disk.paths := by
          intro i _ high n
          apply inv.free
          exact new _ (List.mem_map_of_mem (List.mem_range.mpr (by omega)))
        obtain ⟨adds, taken, refused⟩ :=
          readParts_read lawful piece room dir name bodies good 0 free missing left'
        rw [← List.range_eq_range'] at adds
        refine ⟨adds, fun spills ok => ?_, refused⟩
        obtain ⟨none_, filled⟩ := taken spills ok
        refine ⟨none_, fun held inside => ?_⟩
        obtain ⟨here, i, _, high, same⟩ := filled held inside
        exact ⟨here, by
          rw [same]
          exact List.mem_map_of_mem (List.mem_range.mpr (by omega))⟩
      · simp only [failed]
        exact ⟨Adds.refl _ _, fun _ same => by (cases same), fun none_ => absurd none_ lost⟩
    · simp only [ended]
      exact ⟨Adds.refl _ _, fun _ same => by (cases same), fun none_ => absurd none_ lost⟩
    · simp only [failed]
      exact ⟨Adds.refl _ _, fun _ same => by (cases same), fun none_ => absurd none_ lost⟩

theorem hop_inv {s : State Row} (inv : Inv arrow s) (piece : Nat) (room : Path → Bool)
    (shape : List UInt8) (from_ : List Key) (dir name : String) (chunks : List (List UInt8))
    (allowed : Allows arrow s (.hop piece room shape from_ dir name chunks))
    (fits : Fits arrow s (.hop piece room shape from_ dir name chunks)) :
    Inv arrow (next arrow s (.hop piece room shape from_ dir name chunks)) := by
  obtain ⟨new, begins⟩ := allowed
  simp only [next]
  cases replied : reply arrow s.disk shape ((s.parts from_).map Held.spill) with
  | error e => exact inv
  | ok sent =>
    obtain ⟨adds, taken, refused⟩ := readReply_read lawful inv piece room shape from_ dir name
      chunks fits new sent replied (begins sent replied)
    have away : ∀ key ∈ intoKeys dir name (s.parts from_).length,
        s.buckets.lookup key = none := by
      intro key inside
      cases found : s.buckets.lookup key with
      | none => rfl
      | some held => exact absurd (inv.live key held found).2.2 (new key inside)
    cases result : readReply arrow piece room dir name ⟨chunks, []⟩ s.disk with
    | mk outcome disk =>
      rw [result] at adds taken refused
      have wider := inv.adds adds away (intoKeys dir name (s.parts from_).length)
        fun key inside => List.mem_append_left _ inside
      cases outcome with
      | error e =>
        apply wider.hop ⟨sent, chunks.flatten, some e⟩
        · intro _
          exact ⟨e, rfl⟩
        · intro same e' failed
          cases failed
          exact refused same e rfl
      | ok spills =>
        obtain ⟨whole, filled⟩ := taken spills rfl
        have inserted := wider.insertAll _ fun held inside =>
          ⟨(filled held inside).1, List.mem_append_left _ (filled held inside).2⟩
        apply inserted.hop ⟨sent, chunks.flatten, none⟩
        · intro lost
          exact absurd whole lost
        · intro _ e failed
          cases failed

theorem next_inv {s : State Row} (inv : Inv arrow s) (op : Op Row)
    (allowed : ((machine arrow).only (Fits arrow)).Allows s op) : Inv arrow (next arrow s op) := by
  obtain ⟨allowed, fits⟩ := allowed
  cases op with
  | new key => exact new_inv inv key allowed
  | push piece room key batch => exact push_inv lawful inv piece room key batch
  | absorb piece room key other => exact absorb_inv lawful inv piece room key other allowed
  | hop piece room shape from_ dir name chunks =>
    exact hop_inv lawful inv piece room shape from_ dir name chunks allowed fits

/-- Where every length on the wire fits in 32 bits, every run moves its rows once and in order. -/
theorem run_moved (ops : List (Op Row))
    (legal : ((machine arrow).only (Fits arrow)).Legal initial ops) :
    Moved arrow ((machine arrow).run initial ops) := by
  have inv := ((machine arrow).only (Fits arrow)).run_invariant (Inv arrow)
    (fun _ op held allowed => next_inv lawful held op allowed) initial ops (initial_inv arrow)
    legal
  rw [Machine.only_run] at inv
  exact inv.moved

end steps

/-! ### A stream of one byte a row -/

/-- Rows that are bytes, after a byte that marks a stream. -/
def plain : Arrow UInt8 where
  encode batches := .ok (1 :: batches.flatMap Batch.rows)
  decode
    | [] => .error "failed to fill whole buffer"
    | _ :: rows => .ok [{ schema := "b", rows := rows }]
  size batch := batch.rows.length

theorem plain_lawful : plain.Lawful where
  back batches bytes encoded := by
    cases encoded
    exact ⟨_, rfl, List.flatMap_singleton _ _⟩
  empty read decoded := by cases decoded

def anyRoom : Path → Bool := fun _ => true

/-- Two buckets filled, joined and sent to another node. -/
def joinedOps : List (Op UInt8) :=
  [.new ("d", "a"), .new ("d", "a-1"), .push 2 anyRoom ("d", "a") ⟨"b", [1, 2]⟩,
    .push 9 anyRoom ("d", "a") ⟨"b", [3]⟩, .push 1 anyRoom ("d", "a-1") ⟨"b", [4]⟩,
    .absorb 9 anyRoom ("d", "a") ("d", "a-1"),
    .hop 9 anyRoom [7] [("d", "a")] "e" "from"
      [frame [7] ++ frame [1, 0, 0, 0] ++ frame [3, 0, 0, 0],
        frame [1, 1, 2] ++ frame [1, 3] ++ frame [1, 4]]]

theorem joined_moved :
    Moved plain ((machine plain).run initial joinedOps) ∧
      (((machine plain).run initial joinedOps).buckets.lookup ("e", "from-0")).map Held.put =
        some [1, 2, 3, 4] := by
  constructor
  · exact run_moved plain_lawful joinedOps (by decide)
  · decide

/-! ### A piece of 4 GiB -/

/-- A bucket of one batch, sent to another node. -/
def bigOps (rows : List UInt8) : List (Op UInt8) :=
  [.new ("d", "a"), .push (64 * 2 ^ 20) anyRoom ("d", "a") ⟨"b", rows⟩,
    .hop (64 * 2 ^ 20) anyRoom [] [("d", "a")] "e" "from"
      [frame [] ++ frame (toLe 4 1) ++ (frame (toLe 4 1) ++ frame (1 :: rows))]]

/-- The bucket once it is written. -/
def bigSpill : Spill UInt8 :=
  { dir := "d", name := "a", schema := some "b", rows := [], bytes := 0,
    files := [pathOf ("d", "a") 0] }

def bigState (rows : List UInt8) : State UInt8 :=
  { disk := [(pathOf ("d", "a") 0, 1 :: rows)]
    buckets := (∅ : Dict Key (Held UInt8)).insert ("d", "a") ⟨bigSpill, rows⟩
    used := [("d", "a")]
    hops := [] }

theorem big_written (rows : List UInt8) (big : rows.length + 1 = 2 ^ 32) :
    (machine plain).run initial ((bigOps rows).take 2) = bigState rows := by
  have full : 67108864 ≤ rows.length := by omega
  simp [bigOps, machine, next, initial, Spill.push, Spill.new, Spill.write, plain, full, anyRoom,
    State.put, Spill.key, bigState, bigSpill, -AList.insert_empty]

theorem big_parts (rows : List UInt8) :
    (bigState rows).parts [("d", "a")] = [⟨bigSpill, rows⟩] := by
  simp [State.parts, bigState, -AList.insert_empty]

theorem big_reply (rows : List UInt8) :
    reply plain (bigState rows).disk [] [bigSpill] =
      .ok (frame [] ++ frame (toLe 4 1) ++ (frame (toLe 4 1) ++ frame (1 :: rows))) := by
  simp [reply, replyParts, framed, Spill.parts, Spill.count, bigSpill, bigState, Piece.bytes]

/-- The piece's length is 0 in 32 bits: no rows are read. -/
theorem big_read (rows : List UInt8) (big : rows.length + 1 = 2 ^ 32) (disk : Disk) :
    readReply plain (64 * 2 ^ 20) anyRoom "e" "from"
      ⟨[frame [] ++ frame (toLe 4 1) ++ (frame (toLe 4 1) ++ frame (1 :: rows))], []⟩ disk =
      (.ok [Spill.new "e" "from-0"], disk) := by
  have stream : (⟨[frame [] ++ frame (toLe 4 1) ++ (frame (toLe 4 1) ++ frame (1 :: rows))], []⟩ :
      Frames).rest = frame [] ++ (frame (toLe 4 1) ++ (frame (toLe 4 1) ++ frame (1 :: rows))) := by
    simp [Frames.rest]
  obtain ⟨second, shape, left⟩ := next_frame _ _ _ (by decide) stream
  have one_ : ∀ (frames : Frames) (rest : List UInt8), frames.rest = frame (toLe 4 1) ++ rest →
      ∃ later : Frames, frames.count = .ok (1, later) ∧ later.rest = rest := by
    intro frames rest sent
    rcases count_sent frames 1 rest [] (by decide) (by rw [List.append_nil]; exact sent) with
      ⟨later, read, left⟩ | ⟨lost, _⟩
    · exact ⟨later, read, by rwa [List.append_nil] at left⟩
    · exact absurd rfl lost
  obtain ⟨third, parts, left'⟩ := one_ second _ left
  obtain ⟨fourth, pieces, left''⟩ := one_ third _ left'
  have zero : (1 :: rows).length % 2 ^ 32 = 0 := by
    rw [List.length_cons, big, Nat.mod_self]
  have found := whole_frame_mod (1 :: rows) []
  rw [zero, List.take_zero, List.append_nil, ← left''] at found
  obtain ⟨fifth, piece, _⟩ := next_some _ _ _ found
  simp only [readReply, shape, parts, readParts, pieces, Spill.take, Spill.takeInto, piece,
    Spill.keep, List.isEmpty_nil, ↓reduceIte]
  rfl

/-- A bucket whose piece is 4 GiB arrives empty. -/
theorem big_lost : plain.Lawful ∧ ∃ ops : List (Op UInt8), (machine plain).Legal initial ops ∧
    ¬ Moved plain ((machine plain).run initial ops) := by
  obtain ⟨rows, length⟩ : ∃ rows : List UInt8, rows.length + 1 = 2 ^ 32 :=
    ⟨List.replicate (2 ^ 32 - 1) 7, by
      rw [List.length_replicate]
      exact Nat.sub_add_cancel (by decide)⟩
  have split_ : bigOps rows = (bigOps rows).take 2 ++ (bigOps rows).drop 2 :=
    (List.take_append_drop 2 _).symm
  refine ⟨plain_lawful, bigOps rows, ?_, ?_⟩
  · rw [split_, Machine.legal_append, big_written rows length]
    refine ⟨⟨?_, trivial, trivial⟩, ⟨?_, ?_⟩, trivial⟩
    · intro inside
      exact absurd inside List.not_mem_nil
    · intro key inside
      rw [big_parts] at inside
      rw [List.mem_singleton.mp inside]
      simp [bigState, partKey]
    · intro sent replied
      rw [big_parts, List.map_cons, List.map_nil, big_reply] at replied
      cases replied
      exact ⟨[], by rw [List.flatten_singleton, List.append_nil]⟩
  · intro moved
    rw [split_, Machine.run_append, big_written rows length] at moved
    have arrived : ((machine plain).run (bigState rows) ((bigOps rows).drop 2)).buckets.lookup
        ("e", "from-0") = some ⟨Spill.new "e" "from-0", rows⟩ := by
      simp only [bigOps, List.drop_succ_cons, List.drop_zero, Machine.run_cons, Machine.run_nil,
        machine, next, big_reply, big_read rows length, big_parts, List.map_cons, List.map_nil,
        List.zipWith_cons_cons, List.zipWith_nil_left, insertAll, List.foldl_cons, List.foldl_nil]
      exact AList.lookup_insert _
    have lost := moved.rows ("e", "from-0") ⟨Spill.new "e" "from-0", rows⟩ arrived
    have none_ : rows = [] := (Except.ok.inj lost).symm
    rw [none_, List.length_nil] at length
    exact absurd length (by decide)

end Pondra.Shuffle
