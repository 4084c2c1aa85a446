import Pondra.Shuffle.Hops

set_option autoImplicit false

namespace Pondra.Shuffle

open Bytes Framing Machines Dicts

variable {Row : Type}

/-! ### What is on the wire -/

/-- A piece's bytes and its rows, as they can be sent and read back. -/
structure Sent (arrow : Arrow Row) (piece : List UInt8 × List Row) : Prop where
  small : piece.1.length < 2 ^ 32
  back : ∃ batches, arrow.decode piece.1 = .ok batches ∧ batches.flatMap Batch.rows = piece.2

/-- A bucket on the wire: how many pieces, then each. -/
def wire (pieces : List (List UInt8 × List Row)) : List UInt8 :=
  frame (toLe 4 pieces.length) ++ pieces.flatMap fun piece => frame piece.1

/-- The rows of a bucket on the wire. -/
def carried (pieces : List (List UInt8 × List Row)) : List Row := pieces.flatMap Prod.snd

/-- A bucket that can be sent and read back. -/
structure Carries (arrow : Arrow Row) (pieces : List (List UInt8 × List Row)) : Prop where
  count : pieces.length < 2 ^ 32
  sent : ∀ piece ∈ pieces, Sent arrow piece

theorem piece_sent {arrow : Arrow Row} (lawful : arrow.Lawful) (disk : Disk) (piece : Piece Row)
    (batches : List (Batch Row)) (bytes : List UInt8) (small : Small arrow disk piece)
    (read : piece.read arrow disk = .ok batches) (sent : piece.bytes arrow disk = .ok bytes) :
    Sent arrow (bytes, batches.flatMap Batch.rows) := by
  constructor
  case small => exact small bytes sent
  case back =>
    cases piece with
    | rows kept =>
      simp only [Piece.read, Except.ok.injEq] at read
      rw [← read]
      exact lawful.back kept bytes sent
    | file path =>
      simp only [Piece.read, Piece.bytes] at read sent
      cases found : disk.lookup path with
      | none => simp only [found] at read; cases read
      | some stored =>
        simp only [found, Except.ok.injEq] at read sent
        subst sent
        exact ⟨batches, read, rfl⟩

theorem framed_sent {arrow : Arrow Row} (lawful : arrow.Lawful) (disk : Disk)
    (pieces : List (Piece Row)) (rows : List Row) (bytes : List UInt8)
    (small : ∀ piece ∈ pieces, Small arrow disk piece)
    (read : chain arrow disk pieces = .ok rows) (sent : framed arrow disk pieces = .ok bytes) :
    ∃ out : List (List UInt8 × List Row), out.length = pieces.length ∧
      (∀ piece ∈ out, Sent arrow piece) ∧ bytes = out.flatMap (fun piece => frame piece.1) ∧
      rows = carried out := by
  induction pieces generalizing rows bytes with
  | nil =>
    cases read
    cases sent
    exact ⟨[], rfl, fun _ inside => absurd inside List.not_mem_nil, rfl, rfl⟩
  | cons piece pieces ih =>
    simp only [chain] at read
    simp only [framed] at sent
    cases held : piece.read arrow disk with
    | error e => simp only [held] at read; cases read
    | ok batches =>
      cases others : chain arrow disk pieces with
      | error e => simp only [held, others] at read; cases read
      | ok rows' =>
        cases head : piece.bytes arrow disk with
        | error e => simp only [head] at sent; cases sent
        | ok first =>
          cases tail : framed arrow disk pieces with
          | error e => simp only [head, tail] at sent; cases sent
          | ok rest =>
            simp only [held, others, Except.ok.injEq] at read
            simp only [head, tail, Except.ok.injEq] at sent
            obtain ⟨out, length, all, bytes_eq, rows_eq⟩ :=
              ih rows' rest (fun p inside => small p (List.mem_cons_of_mem _ inside)) others tail
            have good := piece_sent lawful disk piece batches first
              (small piece List.mem_cons_self) held head
            refine ⟨(first, batches.flatMap Batch.rows) :: out, ?_, ?_, ?_, ?_⟩
            · rw [List.length_cons, List.length_cons, length]
            · intro p inside
              rcases List.mem_cons.mp inside with rfl | later
              · exact good
              · exact all p later
            · rw [← sent, bytes_eq, List.flatMap_cons]
            · rw [← read, rows_eq, carried, carried, List.flatMap_cons]

theorem length_parts (spill : Spill Row) : spill.parts.length = spill.count := by
  unfold Spill.parts Spill.count
  rw [List.length_append, List.length_map]
  split
  · rfl
  · rfl

/-- What is sent of buckets, each with its rows. -/
theorem replyParts_sent {arrow : Arrow Row} (lawful : arrow.Lawful) (disk : Disk)
    (helds : List (Held Row)) (bytes : List UInt8)
    (filled : ∀ held ∈ helds, chain arrow disk held.spill.parts = .ok held.put)
    (fits : ∀ held ∈ helds, held.spill.count < 2 ^ 32 ∧
      ∀ piece ∈ held.spill.parts, Small arrow disk piece)
    (sent : replyParts arrow disk (helds.map Held.spill) = .ok bytes) :
    ∃ bodies : List (List (List UInt8 × List Row)), (∀ body ∈ bodies, Carries arrow body) ∧
      bytes = bodies.flatMap wire ∧ helds.map Held.put = bodies.map carried := by
  induction helds generalizing bytes with
  | nil =>
    cases sent
    exact ⟨[], fun _ inside => absurd inside List.not_mem_nil, rfl, rfl⟩
  | cons held helds ih =>
    simp only [List.map_cons, replyParts] at sent
    cases head : framed arrow disk held.spill.parts with
    | error e => simp only [head] at sent; cases sent
    | ok first =>
      cases tail : replyParts arrow disk (helds.map Held.spill) with
      | error e => simp only [head, tail] at sent; cases sent
      | ok rest =>
        simp only [head, tail, Except.ok.injEq] at sent
        obtain ⟨bodies, all, bytes_eq, puts⟩ := ih rest
          (fun h inside => filled h (List.mem_cons_of_mem _ inside))
          (fun h inside => fits h (List.mem_cons_of_mem _ inside)) tail
        obtain ⟨few, small⟩ := fits held List.mem_cons_self
        obtain ⟨out, length, good, first_eq, rows_eq⟩ := framed_sent lawful disk held.spill.parts
          held.put first small (filled held List.mem_cons_self) head
        rw [length_parts] at length
        refine ⟨out :: bodies, ?_, ?_, ?_⟩
        · intro body inside
          rcases List.mem_cons.mp inside with rfl | later
          · exact ⟨by rw [length]; exact few, good⟩
          · exact all body later
        · rw [← sent, List.flatMap_cons, wire, first_eq, bytes_eq, length, Nat.mod_eq_of_lt few]
        · rw [List.map_cons, List.map_cons, rows_eq, puts]

/-! ### Reading it back -/

/-- What reading one bucket does, of a stream whose end (`missing`) was cut off. -/
structure Took (arrow : Arrow Row) (disk : Disk) (missing rest : List UInt8)
    (result : Except String (Spill Row × Frames) × Disk) (key : Key) (rows : List Row) : Prop where
  adds : Adds [key] disk result.2
  filled : ∀ spill later, result.1 = .ok (spill, later) →
    Filled arrow result.2 spill rows ∧ spill.key = key ∧ later.rest ++ missing = rest
  refused : missing = [] → ∀ e, result.1 = .error e → Refused arrow e

section reading

variable {arrow : Arrow Row} (lawful : arrow.Lawful)
include lawful

theorem takeInto_took (most : Nat) (room : Path → Bool) (pieces : List (List UInt8 × List Row))
    (good : ∀ piece ∈ pieces, Sent arrow piece) {spill : Spill Row} {frames : Frames}
    {disk : Disk} {rows : List Row} (filled : Filled arrow disk spill rows)
    (missing rest : List UInt8)
    (stream : frames.rest ++ missing = pieces.flatMap (fun piece => frame piece.1) ++ rest) :
    Took arrow disk missing rest (Spill.takeInto arrow most room pieces.length spill frames disk)
      spill.key (rows ++ carried pieces) := by
  induction pieces generalizing spill frames disk rows with
  | nil =>
    constructor
    case adds => exact Adds.refl _ _
    case filled =>
      intro same later same_eq
      cases same_eq
      rw [carried, List.flatMap_nil, List.append_nil]
      exact ⟨filled, rfl, stream⟩
    case refused =>
      intro _ e failed
      cases failed
  | cons piece pieces ih =>
    have head := good piece List.mem_cons_self
    rw [List.flatMap_cons, List.append_assoc] at stream
    rw [List.length_cons, Spill.takeInto]
    rcases next_sent frames piece.1 _ missing head.small stream with
      ⟨later, read, left⟩ | ⟨cut, ended | failed⟩
    · obtain ⟨batches, decoded, rows_eq⟩ := head.back
      have kept := keep_does lawful most room filled decoded
      simp only [read]
      cases result : spill.keep arrow most room piece.1 disk with
      | mk first after =>
        rw [result] at kept
        cases first with
        | error e =>
          constructor
          case adds => exact kept.adds
          case filled =>
            intro _ _ same
            cases same
          case refused =>
            intro _ e' failed
            cases failed
            exact kept.refused e rfl
        | ok spill' =>
          obtain ⟨held, same⟩ := kept.filled spill' rfl
          have others := ih (fun p inside => good p (List.mem_cons_of_mem _ inside)) held left
          rw [same, rows_eq, List.append_assoc] at others
          rw [carried, List.flatMap_cons]
          exact ⟨kept.adds.trans others.adds, others.filled, others.refused⟩
    · simp only [ended]
      exact ⟨Adds.refl _ _, fun _ _ same => by (cases same), fun whole => absurd whole cut⟩
    · simp only [failed]
      exact ⟨Adds.refl _ _, fun _ _ same => by (cases same), fun whole => absurd whole cut⟩

theorem take_took (most : Nat) (room : Path → Bool) (dir name : String)
    (pieces : List (List UInt8 × List Row)) (good : ∀ piece ∈ pieces, Sent arrow piece)
    {frames : Frames} {disk : Disk} (free : ∀ n, pathOf (dir, name) n ∉ disk.paths)
    (missing rest : List UInt8)
    (stream : frames.rest ++ missing = pieces.flatMap (fun piece => frame piece.1) ++ rest) :
    Took arrow disk missing rest (Spill.take arrow most room dir name frames pieces.length disk)
      (dir, name) (carried pieces) := by
  have empty : Filled arrow disk (Spill.new dir name) ([] : List Row) :=
    ⟨⟨[], rfl, rfl⟩, fun n inside => absurd inside (free n)⟩
  exact takeInto_took lawful most room pieces good empty missing rest stream

omit lawful in
theorem partKey_inj (dir name : String) (p q : Nat)
    (same : partKey dir name p = partKey dir name q) : p = q := by
  have names := congrArg Prod.snd same
  exact Nat.repr_inj.mp ((String.append_right_inj _).mp names)

/-- What reading buckets one after another does. -/
theorem readParts_read (most : Nat) (room : Path → Bool) (dir name : String)
    (bodies : List (List (List UInt8 × List Row))) (good : ∀ body ∈ bodies, Carries arrow body)
    (p : Nat) {frames : Frames} {disk : Disk}
    (free : ∀ i, p ≤ i → i < p + bodies.length →
      ∀ n, pathOf (partKey dir name i) n ∉ disk.paths)
    (missing : List UInt8) (stream : frames.rest ++ missing = bodies.flatMap wire) :
    Adds ((List.range' p bodies.length).map (partKey dir name)) disk
        (readParts arrow most room dir name p bodies.length frames disk).2 ∧
      (∀ spills, (readParts arrow most room dir name p bodies.length frames disk).1 = .ok spills →
        missing = [] ∧
        ∀ held ∈ List.zipWith Held.mk spills (bodies.map carried),
          Filled arrow (readParts arrow most room dir name p bodies.length frames disk).2
            held.spill held.put ∧
          ∃ i, p ≤ i ∧ i < p + bodies.length ∧ held.spill.key = partKey dir name i) ∧
      (missing = [] → ∀ e, (readParts arrow most room dir name p bodies.length frames disk).1 =
        .error e → Refused arrow e) := by
  induction bodies generalizing p frames disk with
  | nil =>
    rw [List.flatMap_nil, List.append_eq_nil_iff] at stream
    refine ⟨Adds.refl _ _, fun spills same => ⟨stream.2, ?_⟩, fun _ e failed => by cases failed⟩
    cases same
    intro held inside
    exact absurd inside List.not_mem_nil
  | cons body bodies ih =>
    obtain ⟨few, sent⟩ := good body List.mem_cons_self
    have here : ∀ n, pathOf (partKey dir name p) n ∉ disk.paths :=
      free p (Nat.le_refl p) (by rw [List.length_cons]; omega)
    rw [List.flatMap_cons, wire, List.append_assoc] at stream
    rw [List.length_cons, readParts, List.range'_succ, List.map_cons]
    rcases count_sent frames body.length _ missing few stream with
      ⟨later, read, left⟩ | ⟨cut, e, failed⟩
    · have took := take_took lawful most room dir (partKey dir name p).2 body sent here missing _
        left
      simp only [read]
      cases result : Spill.take arrow most room dir (partKey dir name p).2 later body.length disk
        with
      | mk first after =>
        rw [result] at took
        have adds := took.adds.mono (show [partKey dir name p] ⊆ partKey dir name p ::
          (List.range' (p + 1) bodies.length).map (partKey dir name) by
            intro key inside
            rw [List.mem_singleton.mp inside]
            exact List.mem_cons_self)
        cases first with
        | error e =>
          exact ⟨adds, fun _ same => by (cases same), fun whole e' failed => by
            cases failed
            exact took.refused whole e rfl⟩
        | ok pair =>
          obtain ⟨spill, frames'⟩ := pair
          obtain ⟨held, same, left'⟩ := took.filled spill frames' rfl
          have free' : ∀ i, p + 1 ≤ i → i < p + 1 + bodies.length →
              ∀ n, pathOf (partKey dir name i) n ∉ after.paths := by
            intro i low high n inside
            rcases took.adds.ours _ inside with before | ⟨key, listed, m, path_eq⟩
            · exact free i (by omega) (by rw [List.length_cons]; omega) n before
            · have key_eq := (pathOf_inj _ _ _ _ path_eq).1
              rw [List.mem_singleton.mp listed] at key_eq
              have number := partKey_inj dir name i p key_eq
              omega
          obtain ⟨adds', others, refused⟩ := ih (fun b inside =>
            good b (List.mem_cons_of_mem _ inside)) (p + 1) free' left'
          dsimp only
          cases result' : readParts arrow most room dir name (p + 1) bodies.length frames' after
            with
          | mk second last =>
            rw [result'] at adds' others refused
            have both := adds.trans (adds'.mono (List.subset_cons_self (partKey dir name p)
              ((List.range' (p + 1) bodies.length).map (partKey dir name))))
            cases second with
            | error e =>
              exact ⟨both, fun _ same => by (cases same), fun whole e' failed => by
                cases failed
                exact refused whole e rfl⟩
            | ok spills =>
              obtain ⟨none_, each⟩ := others spills rfl
              refine ⟨both, fun all all_eq => ⟨none_, ?_⟩, fun _ e failed => by cases failed⟩
              cases all_eq
              intro h inside
              rw [List.map_cons, List.zipWith_cons_cons] at inside
              rcases List.mem_cons.mp inside with rfl | later'
              · constructor
                · apply held.later adds'
                  rw [same]
                  intro listed
                  obtain ⟨i, range, key_eq⟩ := List.mem_map.mp listed
                  have number := partKey_inj dir name i p key_eq
                  have low := (List.mem_range'_1.mp range).1
                  omega
                · exact ⟨p, Nat.le_refl p, by omega, same⟩
              · obtain ⟨filled, i, low, high, key_eq⟩ := each h later'
                exact ⟨filled, i, by omega, by omega, key_eq⟩
    · simp only [failed]
      exact ⟨Adds.refl _ _, fun _ same => by (cases same), fun whole => absurd whole cut⟩

end reading

end Pondra.Shuffle
