import Pondra.Shuffle.Spill

set_option autoImplicit false

namespace Pondra.Shuffle

open Framing

variable {Row : Type}

/-! ### Pieces read one after another -/

theorem chain_append (arrow : Arrow Row) (disk : Disk) (first second : List (Piece Row))
    (before after : List Row) (left : chain arrow disk first = .ok before)
    (right : chain arrow disk second = .ok after) :
    chain arrow disk (first ++ second) = .ok (before ++ after) := by
  induction first generalizing before with
  | nil =>
    simp only [chain, Except.ok.injEq] at left
    rw [List.nil_append, right, ← left, List.nil_append]
  | cons piece rest ih =>
    simp only [chain] at left
    cases held : piece.read arrow disk with
    | error e => simp only [held] at left; cases left
    | ok batches =>
      cases others : chain arrow disk rest with
      | error e => simp only [held, others] at left; cases left
      | ok rows =>
        simp only [held, others, Except.ok.injEq] at left
        rw [List.cons_append, chain, held, ih rows others, ← left, List.append_assoc]

theorem chain_stays (arrow : Arrow Row) {keys : List Key} {disk later : Disk}
    (adds : Adds keys disk later) (pieces : List (Piece Row)) (rows : List Row)
    (read : chain arrow disk pieces = .ok rows) : chain arrow later pieces = .ok rows := by
  induction pieces generalizing rows with
  | nil => exact read
  | cons piece rest ih =>
    simp only [chain] at read
    cases held : piece.read arrow disk with
    | error e => simp only [held] at read; cases read
    | ok batches =>
      cases others : chain arrow disk rest with
      | error e => simp only [held, others] at read; cases read
      | ok rows' =>
        have same : piece.read arrow later = .ok batches := by
          cases piece with
          | rows batches => exact held
          | file path =>
            simp only [Piece.read] at held ⊢
            cases found : disk.lookup path with
            | none => simp only [found] at held; cases held
            | some bytes =>
              simp only [found] at held
              simp only [adds.stays path bytes found, held]
        simp only [held, others] at read
        simp only [chain, same, ih rows' others, read]

theorem chain_file (arrow : Arrow Row) (disk : Disk) (path : Path) (bytes : List UInt8)
    (batches : List (Batch Row)) (decoded : arrow.decode bytes = .ok batches) :
    chain arrow ((path, bytes) :: disk) [.file path] = .ok (batches.flatMap Batch.rows) := by
  simp only [chain, Piece.read, List.lookup_cons, beq_self_eq_true, decoded, List.append_nil]

/-! ### What a bucket holds -/

/-- A bucket's pieces hold these rows, and no file on the disk has a path of its later pieces. -/
structure Filled (arrow : Arrow Row) (disk : Disk) (spill : Spill Row) (rows : List Row) :
    Prop where
  read : ∃ written, chain arrow disk (spill.files.map .file) = .ok written ∧
    rows = written ++ spill.rows.flatMap Batch.rows
  below : ∀ n, pathOf spill.key n ∈ disk.paths → n < spill.files.length

theorem Filled.parts {arrow : Arrow Row} {disk : Disk} {spill : Spill Row} {rows : List Row}
    (filled : Filled arrow disk spill rows) : chain arrow disk spill.parts = .ok rows := by
  obtain ⟨written, read, rfl⟩ := filled.read
  apply chain_append arrow disk _ _ written _ read
  cases held : spill.rows with
  | nil => rfl
  | cons batch rest => simp [chain, Piece.read]

theorem Filled.free {arrow : Arrow Row} {disk : Disk} {spill : Spill Row} {rows : List Row}
    (filled : Filled arrow disk spill rows) :
    pathOf spill.key spill.files.length ∉ disk.paths :=
  fun inside => Nat.lt_irrefl _ (filled.below _ inside)

/-- Files of other buckets leave a bucket as it is. -/
theorem Filled.later {arrow : Arrow Row} {disk later : Disk} {spill : Spill Row} {rows : List Row}
    {keys : List Key} (filled : Filled arrow disk spill rows) (adds : Adds keys disk later)
    (other : spill.key ∉ keys) : Filled arrow later spill rows where
  read := by
    obtain ⟨written, read, same⟩ := filled.read
    exact ⟨written, chain_stays arrow adds _ _ read, same⟩
  below n inside := by
    rcases adds.ours _ inside with before | ⟨key, listed, m, same⟩
    · exact filled.below n before
    · exact absurd ((pathOf_inj _ _ _ _ same).1 ▸ listed) other

/-- The errors that are the disk's or the encoder's. -/
def Refused (arrow : Arrow Row) (e : String) : Prop :=
  e = "no room on the spill disk" ∨ ∃ batches, arrow.encode batches = .error e

/-- What an operation on a bucket does: files added under some buckets' paths, and the bucket
holding the rows, unless the disk or the encoder refused. -/
structure Does (arrow : Arrow Row) (keys : List Key) (disk : Disk)
    (result : Except String (Spill Row) × Disk) (key : Key) (rows : List Row) : Prop where
  adds : Adds keys disk result.2
  filled : ∀ spill, result.1 = .ok spill → Filled arrow result.2 spill rows ∧ spill.key = key
  refused : ∀ e, result.1 = .error e → Refused arrow e

theorem Does.ok {arrow : Arrow Row} {keys : List Key} {disk : Disk} {spill : Spill Row}
    {rows : List Row} (filled : Filled arrow disk spill rows) :
    Does arrow keys disk (.ok spill, disk) spill.key rows where
  adds := Adds.refl keys disk
  filled spill' same := by
    cases same
    exact ⟨filled, rfl⟩
  refused _ failed := by cases failed

theorem Does.failed {arrow : Arrow Row} {keys : List Key} {disk after : Disk} {key : Key}
    {e : String} {rows : List Row} (adds : Adds keys disk after) (refused : Refused arrow e) :
    Does arrow keys disk (.error e, after) key rows where
  adds := adds
  filled _ same := by cases same
  refused _ same := by
    cases same
    exact refused

/-- The next piece's file: what a write of memory and a piece off the wire have in common. -/
theorem Does.filed {arrow : Arrow Row} {disk : Disk} {spill t : Spill Row}
    {written : List Row} {bytes : List UInt8} {batches : List (Batch Row)}
    (read : chain arrow disk (spill.files.map .file) = .ok written)
    (below : ∀ n, pathOf spill.key n ∈ disk.paths → n < spill.files.length)
    (decoded : arrow.decode bytes = .ok batches) (same : t.key = spill.key)
    (empty : t.rows = [])
    (files : t.files = spill.files ++ [pathOf spill.key spill.files.length]) :
    Does arrow [spill.key] disk
      (.ok t, (pathOf spill.key spill.files.length, bytes) :: disk) spill.key
      (written ++ batches.flatMap Batch.rows) := by
  have free : pathOf spill.key spill.files.length ∉ disk.paths :=
    fun inside => Nat.lt_irrefl _ (below _ inside)
  have adds := adds_file spill.key spill.files.length bytes disk free
  constructor
  case adds => exact adds
  case filled =>
    intro kept kept_eq
    cases kept_eq
    constructor
    · constructor
      case read =>
        rw [files, empty, List.map_append]
        refine ⟨_, chain_append arrow _ _ _ _ _ (chain_stays arrow adds _ _ read)
          (chain_file arrow disk _ bytes batches decoded), ?_⟩
        rw [List.flatMap_nil, List.append_nil]
      case below =>
        intro n inside
        rw [same] at inside
        rw [files, List.length_append, List.length_singleton]
        rcases List.mem_cons.mp inside with here | before
        · have number := (pathOf_inj _ _ _ _ here).2
          omega
        · have under := below n before
          omega
    · exact same
  case refused =>
    intro e failed
    cases failed

/-! ### One operation -/

section operations

variable {arrow : Arrow Row} (lawful : arrow.Lawful)
include lawful

theorem write_does (room : Path → Bool) {spill : Spill Row} {disk : Disk} {rows : List Row}
    (filled : Filled arrow disk spill rows) :
    Does arrow [spill.key] disk (spill.write arrow room disk) spill.key rows := by
  unfold Spill.write
  split
  · exact Does.ok filled
  · split
    · rename_i e failed
      exact Does.failed (Adds.refl _ disk) (Or.inr ⟨_, failed⟩)
    · rename_i bytes encoded
      split
      · obtain ⟨batches, decoded, same⟩ := lawful.back _ bytes encoded
        obtain ⟨written, read, rfl⟩ := filled.read
        rw [← same]
        exact Does.filed read filled.below decoded rfl rfl rfl
      · exact Does.failed (Adds.refl _ disk) (Or.inl rfl)

omit lawful in
theorem write_empties (room : Path → Bool) (spill later : Spill Row) (disk : Disk)
    (wrote : (spill.write arrow room disk).1 = .ok later) : later.rows = [] := by
  unfold Spill.write at wrote
  split at wrote
  · rename_i empty
    cases wrote
    exact List.isEmpty_iff.mp empty
  · split at wrote
    · cases wrote
    · split at wrote
      · cases wrote
        rfl
      · cases wrote

theorem push_does (piece : Nat) (room : Path → Bool) {spill : Spill Row} (batch : Batch Row)
    {disk : Disk} {rows : List Row} (filled : Filled arrow disk spill rows) :
    Does arrow [spill.key] disk (spill.push arrow piece room batch disk) spill.key
      (rows ++ batch.rows) := by
  have held : Filled arrow disk { spill with
      schema := some (spill.schema.getD batch.schema)
      bytes := spill.bytes + arrow.size batch
      rows := spill.rows ++ [batch] } (rows ++ batch.rows) := by
    obtain ⟨written, read, rfl⟩ := filled.read
    constructor
    case read =>
      refine ⟨written, read, ?_⟩
      rw [List.flatMap_append, List.flatMap_singleton, List.append_assoc]
    case below => exact filled.below
  unfold Spill.push
  dsimp only
  split
  · exact write_does lawful room held
  · exact Does.ok held

theorem pushAll_does (piece : Nat) (room : Path → Bool) {spill : Spill Row}
    (batches : List (Batch Row)) {disk : Disk} {rows : List Row}
    (filled : Filled arrow disk spill rows) :
    Does arrow [spill.key] disk (spill.pushAll arrow piece room batches disk) spill.key
      (rows ++ batches.flatMap Batch.rows) := by
  induction batches generalizing spill disk rows with
  | nil =>
    rw [List.flatMap_nil, List.append_nil]
    exact Does.ok filled
  | cons batch batches ih =>
    have first := push_does lawful piece room batch filled
    cases pushed : spill.push arrow piece room batch disk with
    | mk result after =>
      rw [pushed] at first
      cases result with
      | error e =>
        simp only [Spill.pushAll, pushed]
        exact Does.failed first.adds (first.refused e rfl)
      | ok later =>
        obtain ⟨held, same⟩ := first.filled later rfl
        have others := ih held
        simp only [Spill.pushAll, pushed]
        rw [List.flatMap_cons, ← List.append_assoc]
        rw [same] at others
        exact ⟨first.adds.trans others.adds, others.filled, others.refused⟩

theorem absorb_does (piece : Nat) (room : Path → Bool) {spill other : Spill Row} {disk : Disk}
    {rows more : List Row} (filled : Filled arrow disk spill rows)
    (filled' : Filled arrow disk other more) (apart : spill.key ≠ other.key) :
    Does arrow [spill.key, other.key] disk (spill.absorb arrow piece room other disk) spill.key
      (rows ++ more) := by
  unfold Spill.absorb
  split
  · rename_i unwritten
    obtain ⟨written, read, rfl⟩ := filled'.read
    rw [List.isEmpty_iff.mp unwritten, List.map_nil] at read
    cases read
    have pushed := pushAll_does lawful piece room other.rows filled
    exact ⟨pushed.adds.mono (by simp), pushed.filled, pushed.refused⟩
  · have first := write_does lawful room filled
    cases wrote : spill.write arrow room disk with
    | mk result after =>
      rw [wrote] at first
      have adds : Adds [spill.key, other.key] disk after := first.adds.mono (by simp)
      cases result with
      | error e => exact Does.failed adds (first.refused e rfl)
      | ok ours =>
        obtain ⟨held, same⟩ := first.filled ours rfl
        have second := write_does lawful room
          (filled'.later first.adds (by simpa using apart.symm))
        have empty := write_empties room spill ours disk (by rw [wrote])
        dsimp only
        cases wrote' : other.write arrow room after with
        | mk result' last =>
          rw [wrote'] at second
          have adds' : Adds [spill.key, other.key] after last := second.adds.mono (by simp)
          cases result' with
          | error e => exact Does.failed (adds.trans adds') (second.refused e rfl)
          | ok theirs =>
            obtain ⟨held', same'⟩ := second.filled theirs rfl
            have empty' := write_empties room other theirs after (by rw [wrote'])
            have stays := held.later second.adds (by rw [same]; simpa using apart)
            obtain ⟨before, read, rfl⟩ := stays.read
            obtain ⟨behind, read', rfl⟩ := held'.read
            constructor
            case adds => exact adds.trans adds'
            case filled =>
              intro joined joined_eq
              cases joined_eq
              refine ⟨⟨⟨before ++ behind, ?_, ?_⟩, fun n inside => ?_⟩, same⟩
              · rw [List.map_append]
                exact chain_append arrow _ _ _ _ _ read read'
              · rw [empty, empty', List.flatMap_nil, List.append_nil, List.append_nil,
                  List.append_nil]
              · have under := stays.below n inside
                rw [List.length_append]
                omega
            case refused =>
              intro e failed
              cases failed

/-- A piece off the wire: its rows come after those kept before it. -/
theorem keep_does (most : Nat) (room : Path → Bool) {spill : Spill Row} {bytes : List UInt8}
    {batches : List (Batch Row)} {disk : Disk} {rows : List Row}
    (filled : Filled arrow disk spill rows) (decoded : arrow.decode bytes = .ok batches) :
    Does arrow [spill.key] disk (spill.keep arrow most room bytes disk) spill.key
      (rows ++ batches.flatMap Batch.rows) := by
  have some_ : bytes.isEmpty = false := by
    cases bytes with
    | nil => exact absurd decoded (lawful.empty batches)
    | cons byte rest => rfl
  simp only [Spill.keep, some_, Bool.false_eq_true, ↓reduceIte]
  split
  · rename_i alone
    simp only [Bool.and_eq_true, decide_eq_true_eq, List.isEmpty_iff] at alone
    obtain ⟨⟨unwritten, _⟩, empty⟩ := alone
    obtain ⟨written, read, rfl⟩ := filled.read
    simp only [decoded]
    rw [empty, List.flatMap_nil, List.append_nil]
    exact Does.ok ⟨⟨written, read, rfl⟩, filled.below⟩
  · have first := write_does lawful room filled
    cases wrote : spill.write arrow room disk with
    | mk result after =>
      rw [wrote] at first
      cases result with
      | error e => exact Does.failed first.adds (first.refused e rfl)
      | ok later =>
        obtain ⟨held, same⟩ := first.filled later rfl
        have empty := write_empties room spill later disk (by rw [wrote])
        obtain ⟨written, read, rfl⟩ := held.read
        dsimp only
        split
        · have none_ : later.rows.flatMap Batch.rows = [] := by rw [empty, List.flatMap_nil]
          have second := Does.filed (t := { later with
            files := later.files ++ [pathOf later.key later.files.length] })
            read held.below decoded rfl empty rfl
          rw [none_, List.append_nil]
          rw [same] at second ⊢
          exact ⟨first.adds.trans second.adds, second.filled, second.refused⟩
        · exact Does.failed first.adds (Or.inl rfl)

end operations

end Pondra.Shuffle
