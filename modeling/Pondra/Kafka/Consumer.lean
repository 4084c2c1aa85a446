import Pondra.Kafka.Fetched

set_option autoImplicit false

namespace Pondra.Kafka

open Dicts Searches Machines Log

/-! ### A consumer of one topic, while the log goes on -/

/-- The log, every segment ever written, the first `expired` of them gone with retention; and a consumer
that starts from an offset and goes on from one past the last it got. -/
structure Consumer where
  log : List (Nat × Segment)
  expired : Nat
  next : Nat
  visible : Nat
  start : Nat
  offset : Nat
  got : List (Nat × Nat)

namespace Consumer

def tail (s : Consumer) : Tail := ⟨s.log.drop s.expired, s.visible⟩

def begin (start : Nat) : Consumer := ⟨[], 0, 1, 0, start, start, []⟩

inductive Op where
  -- a catalog write's segments, and the next number
  | write (segs : List (Nat × Segment)) (next : Nat)
  -- what was written up to a number is durable
  | reveal (upto : Nat)
  | expire (count : Nat)
  | fetch (limit : Nat)

/-- The offset of a row. -/
def place (row : Nat × Nat) : Nat := ord row.1 row.2

variable (table : String) (bytes : Nat × Segment → Nat → Nat → Nat)

def fetched (s : Consumer) (limit : Nat) : List (Nat × Nat) :=
  (Kafka.fetch s.tail table bytes s.offset limit).getD []

def step (s : Consumer) : Op → Consumer
  | .write segs next => { s with log := s.log ++ segs, next := next }
  | .reveal upto => { s with visible := upto }
  | .expire count => { s with expired := s.expired + count }
  | .fetch limit =>
    { s with
      got := s.got ++ s.fetched table bytes limit
      offset := match (s.fetched table bytes limit).getLast? with
        | some row => place row + 1
        | none => s.offset }

/-- A write numbers its segments from the next number on; what shows ends with a whole segment; and only
what shows expires, oldest first. -/
def Allows (s : Consumer) : Op → Prop
  | .write segs next => Spaced s.next segs next
  | .reveal upto => s.visible ≤ upto ∧ upto + 1 ≤ s.next ∧
    ∀ seg ∈ s.log, seg.1 ≤ upto → seg.1 + seg.2.span ≤ upto + 1
  | .expire count => s.expired + count ≤ s.log.length ∧
    ∀ seg ∈ (s.log.drop s.expired).take count, seg.1 ≤ s.visible
  | .fetch _ => True

/-- What shows are numbers that places tell apart; and a fetch finds no empty window on the way to the
oldest segment, and no segment that reaches too far past its number. -/
def Clear (s : Consumer) : Op → Prop
  | .reveal upto => upto + 1 ≤ 2 ^ 39
  | .fetch _ => s.tail.Found ∧ s.tail.Near table s.offset
  | _ => True

def consumer : Machine Consumer Op where
  next := step table bytes
  Allows := Allows

/-- What a consumer has got: rows of the topic, each once and in order, and every one still in the log
between the offset it started from and the one it is at. -/
structure Got (s : Consumer) : Prop where
  rises : (s.got.map place).Pairwise (· < ·)
  rows : ∀ row ∈ s.got, s.start ≤ place row ∧ place row < s.offset ∧
    ∃ seg ∈ s.log, seg.1 = row.1 ∧ seg.1 ≤ s.visible ∧ row.2 < seg.2.rows table
  all : ∀ row ∈ rowsFrom s.tail table s.start, place row < s.offset → row ∈ s.got

/-- What holds of the log and of the consumer's offset. -/
structure Inv (s : Consumer) : Prop where
  spaced : ∃ low, Spaced low s.log s.next
  whole : ∀ seg ∈ s.log, seg.1 ≤ s.visible → seg.1 + seg.2.span ≤ s.visible + 1
  shown : s.visible + 1 ≤ s.next
  kept : s.expired ≤ s.log.length
  small : s.tail.Small
  offset : s.start ≤ s.offset ∧ (s.offset = s.start ∨ s.offset ≤ (s.visible + 1) * 2 ^ 24)
  got : s.Got table

end Consumer

theorem mem_left (table : String) (offset : Nat) (seg : Nat × Segment) (row : Nat × Nat) :
    row ∈ left table offset seg ↔
      row.1 = seg.1 ∧ row.2 < seg.2.rows table ∧ offset ≤ ord row.1 row.2 := by
  unfold left
  constructor
  · intro inside
    obtain ⟨n, held, rfl⟩ := List.mem_map.mp inside
    obtain ⟨ranged, after⟩ := List.mem_filter.mp held
    exact ⟨rfl, List.mem_range.mp ranged, by simpa using after⟩
  · rintro ⟨same, below, after⟩
    refine List.mem_map.mpr ⟨row.2, List.mem_filter.mpr ⟨List.mem_range.mpr below, ?_⟩, ?_⟩
    · rw [← same]
      simpa using after
    · rw [← same]

theorem mem_rowsFrom (tail : Tail) (table : String) (offset : Nat) (row : Nat × Nat) :
    row ∈ rowsFrom tail table offset ↔ ∃ seg ∈ tail.segs, seg.1 ≤ tail.visible ∧ row.1 = seg.1 ∧
      row.2 < seg.2.rows table ∧ offset ≤ ord row.1 row.2 := by
  unfold rowsFrom
  rw [List.mem_flatMap]
  constructor
  · rintro ⟨seg, inside, held⟩
    obtain ⟨among, _, within⟩ := (Tail.mem_between 0 _ seg).mp inside
    exact ⟨seg, among, by omega, (mem_left table offset seg row).mp held⟩
  · rintro ⟨seg, among, within, held⟩
    exact ⟨seg, (Tail.mem_between 0 _ seg).mpr ⟨among, Nat.zero_le _, by omega⟩,
      (mem_left table offset seg row).mpr held⟩

/-- The rows from an offset on come in the order of their places. -/
theorem rowsFrom_rises (tail : Tail) (sound : tail.Sound) (small : tail.Small) (table : String)
    (offset : Nat) : ((rowsFrom tail table offset).map Consumer.place).Pairwise (· < ·) := by
  have rises := sound.rises.filter fun seg => decide (0 ≤ seg.1 ∧ seg.1 < tail.visible + 1)
  have fits : ∀ seg ∈ tail.between 0 (tail.visible + 1), InPlace seg := by
    intro seg inside
    obtain ⟨among, _, within⟩ := (Tail.mem_between 0 _ seg).mp inside
    exact sound.fits small seg among (by omega)
  unfold rowsFrom
  change (tail.between 0 (tail.visible + 1)).Pairwise _ at rises
  generalize tail.between 0 (tail.visible + 1) = segs at rises fits
  rw [List.pairwise_map]
  induction segs with
  | nil => exact List.Pairwise.nil
  | cons seg rest ih =>
    obtain ⟨after, rises⟩ := List.pairwise_cons.mp rises
    have mine := fits seg List.mem_cons_self
    rw [List.flatMap_cons, List.pairwise_append]
    refine ⟨?_, ih rises fun other inside => fits other (List.mem_cons_of_mem _ inside), ?_⟩
    · unfold left
      rw [List.pairwise_map]
      refine List.Pairwise.imp_of_mem ?_ (List.pairwise_lt_range.filter _)
      intro a b inA inB less
      have lowA := mine.ord table a (Nat.le_of_lt (List.mem_range.mp (List.mem_filter.mp inA).1))
      have lowB := mine.ord table b (Nat.le_of_lt (List.mem_range.mp (List.mem_filter.mp inB).1))
      show ord seg.1 a < ord seg.1 b
      omega
    · intro a inA b inB
      obtain ⟨other, among, held⟩ := List.mem_flatMap.mp inB
      obtain ⟨sameA, belowA, _⟩ := (mem_left table offset seg a).mp inA
      obtain ⟨sameB, belowB, _⟩ := (mem_left table offset other b).mp held
      have beyond := after other among
      have placeA := mine.ord table a.2 (Nat.le_of_lt belowA)
      have placeB := (fits other (List.mem_cons_of_mem _ among)).ord table b.2 (Nat.le_of_lt belowB)
      have most := rows_le seg.2 table
      show ord a.1 a.2 < ord b.1 b.2
      rw [sameA, sameB, placeA, placeB]
      omega

namespace Consumer

variable {table : String} {bytes : Nat × Segment → Nat → Nat → Nat} {s : Consumer}

theorem Inv.sound (inv : s.Inv table) : s.tail.Sound where
  rises := by
    obtain ⟨low, spaced⟩ := inv.spaced
    have whole (segs : List (Nat × Segment)) (low high : Nat) (spaced : Spaced low segs high) :
        segs.Pairwise fun a b => a.1 + a.2.span ≤ b.1 := by
      induction segs generalizing low with
      | nil => exact List.Pairwise.nil
      | cons seg rest ih =>
        exact List.pairwise_cons.mpr ⟨fun other inside => (spaced.2.mem other inside).1,
          ih _ spaced.2⟩
    exact (whole s.log low s.next spaced).drop
  whole := fun seg inside => inv.whole seg (List.mem_of_mem_drop inside)

theorem begin_inv (start : Nat) : (begin start).Inv table where
  spaced := ⟨1, Nat.le_refl _⟩
  whole := fun _ none => absurd none List.not_mem_nil
  shown := Nat.le_refl _
  kept := Nat.le_refl _
  small := by
    show 0 + 1 ≤ 2 ^ 39
    omega
  offset := ⟨Nat.le_refl _, .inl rfl⟩
  got := ⟨List.Pairwise.nil, fun _ none => absurd none List.not_mem_nil, fun row inside => by
    obtain ⟨seg, none, _⟩ := (mem_rowsFrom _ table _ row).mp inside
    exact absurd none List.not_mem_nil⟩

theorem Inv.write (inv : s.Inv table) (segs : List (Nat × Segment)) (next : Nat)
    (spaced : Spaced s.next segs next) : (s.step table bytes (.write segs next)).Inv table := by
  have new : ∀ seg ∈ segs, s.visible < seg.1 := by
    intro seg inside
    have low := (spaced.mem seg inside).1
    have shown := inv.shown
    omega
  refine ⟨?_, ?_, inv.shown.trans spaced.le, ?_, inv.small, inv.offset, inv.got.rises, ?_, ?_⟩
  · obtain ⟨low, before⟩ := inv.spaced
    exact ⟨low, before.append spaced⟩
  · intro seg inside within
    rcases List.mem_append.mp inside with old | added
    · exact inv.whole seg old within
    · exact absurd within (Nat.not_le_of_lt (new seg added))
  · show s.expired ≤ (s.log ++ segs).length
    rw [List.length_append]
    exact inv.kept.trans (Nat.le_add_right _ _)
  · intro row inside
    obtain ⟨low, high, seg, held, rest⟩ := inv.got.rows row inside
    exact ⟨low, high, seg, List.mem_append_left _ held, rest⟩
  · intro row inside before
    obtain ⟨seg, held, within, rest⟩ := (mem_rowsFrom _ table _ row).mp inside
    have held : seg ∈ (s.log ++ segs).drop s.expired := held
    rw [List.drop_append_of_le_length inv.kept] at held
    rcases List.mem_append.mp held with old | added
    · exact inv.got.all row ((mem_rowsFrom _ table _ row).mpr ⟨seg, old, within, rest⟩) before
    · exact absurd within (Nat.not_le_of_lt (new seg added))

theorem Inv.reveal (inv : s.Inv table) (upto : Nat) (more : s.visible ≤ upto)
    (within : upto + 1 ≤ s.next)
    (whole : ∀ seg ∈ s.log, seg.1 ≤ upto → seg.1 + seg.2.span ≤ upto + 1)
    (small : upto + 1 ≤ 2 ^ 39) : (s.step table bytes (.reveal upto)).Inv table := by
  refine ⟨inv.spaced, whole, within, inv.kept, small, ⟨inv.offset.1, ?_⟩, inv.got.rises, ?_, ?_⟩
  · rcases inv.offset.2 with same | low
    · exact .inl same
    · exact .inr (low.trans (Nat.mul_le_mul_right _ (by
        show s.visible + 1 ≤ upto + 1
        omega)))
  · intro row inside
    obtain ⟨low, high, seg, held, same, shown, below⟩ := inv.got.rows row inside
    exact ⟨low, high, seg, held, same, shown.trans more, below⟩
  · intro row inside before
    obtain ⟨seg, held, shown, same, below, after⟩ := (mem_rowsFrom _ table _ row).mp inside
    have held : seg ∈ s.log.drop s.expired := held
    have shown : seg.1 ≤ upto := shown
    have before : place row < s.offset := before
    have after : s.start ≤ ord row.1 row.2 := after
    by_cases old : seg.1 ≤ s.visible
    · exact inv.got.all row ((mem_rowsFrom _ table _ row).mpr
        ⟨seg, held, old, same, below, after⟩) before
    · have fits : InPlace seg := (whole seg (List.mem_of_mem_drop held) shown).trans small
      have own := fits.ord table row.2 (Nat.le_of_lt below)
      rw [← same] at own
      have before : ord row.1 row.2 < s.offset := before
      rcases inv.offset.2 with start | low
      · omega
      · omega

theorem Inv.expire (inv : s.Inv table) (count : Nat) (within : s.expired + count ≤ s.log.length) :
    (s.step table bytes (.expire count)).Inv table := by
  refine ⟨inv.spaced, inv.whole, inv.shown, within, inv.small, inv.offset, inv.got.rises,
    inv.got.rows, ?_⟩
  intro row inside before
  obtain ⟨seg, held, rest⟩ := (mem_rowsFrom _ table _ row).mp inside
  have held : seg ∈ s.log.drop (s.expired + count) := held
  rw [← List.drop_drop] at held
  exact inv.got.all row ((mem_rowsFrom _ table _ row).mpr
    ⟨seg, List.mem_of_mem_drop held, rest⟩) before

/-- A row with a place at the offset or after it is among those from there on. -/
theorem mem_later (tail : Tail) (start offset : Nat) (row : Nat × Nat)
    (inside : row ∈ rowsFrom tail table start) (after : offset ≤ place row) :
    row ∈ rowsFrom tail table offset := by
  obtain ⟨seg, held, shown, same, below, _⟩ := (mem_rowsFrom tail table start row).mp inside
  exact (mem_rowsFrom tail table offset row).mpr ⟨seg, held, shown, same, below, after⟩

theorem Inv.fetch (inv : s.Inv table) (limit : Nat) (found : s.tail.Found)
    (near : s.tail.Near table s.offset) : (s.step table bytes (.fetch limit)).Inv table := by
  obtain ⟨rest, whole, _⟩ := @fetch_takes table bytes s.offset limit s.tail inv.sound inv.small found
    near
  have rises := rowsFrom_rises s.tail inv.sound inv.small table s.offset
  have from' : ∀ row ∈ rowsFrom s.tail table s.offset, s.offset ≤ place row ∧
      place row < (s.visible + 1) * 2 ^ 24 ∧
      ∃ seg ∈ s.log, seg.1 = row.1 ∧ seg.1 ≤ s.visible ∧ row.2 < seg.2.rows table := by
    intro row inside
    obtain ⟨seg, held, shown, same, below, after⟩ := (mem_rowsFrom _ table _ row).mp inside
    have held' := List.mem_of_mem_drop held
    have fits := inv.sound.fits inv.small seg held shown
    have own := fits.ord table row.2 (Nat.le_of_lt below)
    rw [← same] at own
    have ends := inv.whole seg held' shown
    have most := rows_le seg.2 table
    have own : place row = row.1 * 2 ^ 24 + row.2 := own
    exact ⟨after, by omega, seg, held', same.symm, shown, below⟩
  have taken : s.fetched table bytes limit = (Kafka.fetch s.tail table bytes s.offset limit).getD [] :=
    rfl
  rw [← taken] at whole
  rw [whole, List.map_append, List.pairwise_append] at rises
  obtain ⟨order, _, across⟩ := rises
  have last (row : Nat × Nat) (inside : row ∈ s.fetched table bytes limit) : ∃ final : Nat × Nat,
      (s.fetched table bytes limit).getLast? = some final ∧
        final ∈ s.fetched table bytes limit ∧ place row ≤ place final := by
    obtain ⟨final, ends⟩ := Option.isSome_iff_exists.mp
      (List.getLast?_isSome.mpr (List.ne_nil_of_mem inside))
    refine ⟨final, ends, List.mem_of_getLast? ends, ?_⟩
    obtain ⟨front, same⟩ := List.getLast?_eq_some_iff.mp ends
    rw [same, List.map_append, List.pairwise_append] at order
    rw [same] at inside
    rcases List.mem_append.mp inside with earlier | only
    · exact Nat.le_of_lt (order.2.2 _ (List.mem_map_of_mem earlier) _
        (List.mem_map_of_mem List.mem_cons_self))
    · rw [List.mem_singleton.mp only]
  have offset (row : Nat × Nat) (inside : row ∈ s.fetched table bytes limit) :
      place row < (s.step table bytes (.fetch limit)).offset := by
    obtain ⟨final, ends, _, below⟩ := last row inside
    show place row < match (s.fetched table bytes limit).getLast? with
      | some row => place row + 1
      | none => s.offset
    rw [ends]
    exact Nat.lt_succ_of_le below
  have more : s.offset ≤ (s.step table bytes (.fetch limit)).offset := by
    show s.offset ≤ match (s.fetched table bytes limit).getLast? with
      | some row => place row + 1
      | none => s.offset
    cases ends : (s.fetched table bytes limit).getLast? with
    | none => exact Nat.le_refl _
    | some row =>
      have held := (from' row (by
        rw [whole]
        exact List.mem_append_left _ (List.mem_of_getLast? ends))).1
      exact held.trans (Nat.le_succ _)
  refine ⟨inv.spaced, inv.whole, inv.shown, inv.kept, inv.small, ⟨inv.offset.1.trans more, ?_⟩, ?_,
    ?_, ?_⟩
  · show (match (s.fetched table bytes limit).getLast? with
      | some row => place row + 1
      | none => s.offset) = s.start ∨ (match (s.fetched table bytes limit).getLast? with
      | some row => place row + 1
      | none => s.offset) ≤ (s.visible + 1) * 2 ^ 24
    cases ends : (s.fetched table bytes limit).getLast? with
    | none => exact inv.offset.2
    | some row => exact .inr (from' row (by
        rw [whole]
        exact List.mem_append_left _ (List.mem_of_getLast? ends))).2.1
  · show ((s.got ++ s.fetched table bytes limit).map place).Pairwise (· < ·)
    rw [List.map_append, List.pairwise_append]
    refine ⟨inv.got.rises, order, ?_⟩
    intro a inA b inB
    obtain ⟨x, heldX, rfl⟩ := List.mem_map.mp inA
    obtain ⟨y, heldY, rfl⟩ := List.mem_map.mp inB
    have before := (inv.got.rows x heldX).2.1
    have after := (from' y (by
      rw [whole]
      exact List.mem_append_left _ heldY)).1
    omega
  · intro row inside
    rcases List.mem_append.mp inside with old | new
    · obtain ⟨low, high, held⟩ := inv.got.rows row old
      exact ⟨low, high.trans_le more, held⟩
    · obtain ⟨after, _, held⟩ := from' row (by
        rw [whole]
        exact List.mem_append_left _ new)
      exact ⟨inv.offset.1.trans after, offset row new, held⟩
  · intro row inside before
    by_cases old : place row < s.offset
    · exact List.mem_append_left _ (inv.got.all row inside old)
    · have later : row ∈ rowsFrom s.tail table s.offset :=
        mem_later s.tail s.start s.offset row inside (by omega)
      rw [whole] at later
      rcases List.mem_append.mp later with taken | untaken
      · exact List.mem_append_right _ taken
      · exfalso
        have before : place row < match (s.fetched table bytes limit).getLast? with
          | some row => place row + 1
          | none => s.offset := before
        cases ends : (s.fetched table bytes limit).getLast? with
        | none =>
          rw [ends] at before
          exact old before
        | some final =>
          rw [ends] at before
          have apart := across _ (List.mem_map_of_mem (List.mem_of_getLast? ends)) _
            (List.mem_map_of_mem untaken)
          simp only at before
          omega

theorem run_inv (ops : List Op) (inv : s.Inv table)
    (legal : ((consumer table bytes).only (Clear table)).Legal s ops) :
    ((consumer table bytes).run s ops).Inv table := by
  refine Machine.run_invariant ((consumer table bytes).only (Clear table))
    (fun s => s.Inv table) ?_ s ops inv legal
  rintro s op inv ⟨allowed, clear⟩
  cases op with
  | write segs next => exact @Inv.write table bytes s inv segs next allowed
  | reveal upto => exact @Inv.reveal table bytes s inv upto allowed.1 allowed.2.1 allowed.2.2 clear
  | expire count => exact @Inv.expire table bytes s inv count allowed.1
  | fetch limit => exact @Inv.fetch table bytes s inv limit clear.1 clear.2

end Consumer

/-- The offsets of a batch of a segment's rows: one after another from the first row's place. -/
def batchOffsets (seg : Nat × Segment) (first count : Nat) : List Nat :=
  (List.range count).map fun i => ord seg.1 first + i

theorem batchOffsets_places (table : String) (seg : Nat × Segment) (fits : InPlace seg)
    (first count : Nat) (within : first + count ≤ seg.2.rows table) :
    batchOffsets seg first count = (List.range' first count).map (ord seg.1) := by
  rw [List.range'_eq_map_range, List.map_map]
  refine List.map_congr_left fun i inside => ?_
  have below := List.mem_range.mp inside
  have low := fits.ord table first (by omega)
  have high := fits.ord table (first + i) (by omega)
  show ord seg.1 first + i = ord seg.1 (first + i)
  omega

/-- What the searches for the oldest segment and for a time answer, and when they are right. -/
structure Tail.Searched (tail : Tail) : Prop where
  first : ∀ seg rest, tail.segs = seg :: rest → seg.1 ≤ tail.visible →
    (tail.firstSegment = seg.1 ↔ tail.Found)
  none : tail.segs = [] → tail.firstSegment = tail.visible + 1
  time : tail.Rising → tail.Found → ∀ time : Int,
    (∀ seg ∈ tail.segs, seg.1 ≤ tail.visible → time ≤ seg.2.tsMs → tail.afterTime time ≤ seg.1) ∧
    ((∀ seg ∈ tail.segs, seg.1 ≤ tail.visible → tail.afterTime time ≤ seg.1 → time ≤ seg.2.tsMs) ↔
      tail.Dated time)

theorem Tail.Sound.searched {tail : Tail} (sound : tail.Sound) : tail.Searched where
  first := fun seg rest segs shown => sound.found_iff seg rest segs shown
  none := fun segs => (Tail.firstSegment_none fun seg inside => by
    rw [segs] at inside
    cases inside).2 segs
  time := fun rising found time => sound.afterTime_iff rising time (sound.begins found)

/-- Over every log and every run of a consumer's fetches in which the numbers shown are below 2^39 and
each fetch finds the log clear: what it has got are the topic's rows, each once and in order, all that are
still in the log up to its offset; a fetch that may take any takes one if there is one; a batch's offsets
are its rows' places. And in every such state the searches are right exactly when their probes are. -/
theorem run_consumes (table : String) (bytes : Nat × Segment → Nat → Nat → Nat) (start : Nat)
    (ops : List Consumer.Op)
    (legal : ((Consumer.consumer table bytes).only (Consumer.Clear table)).Legal
      (Consumer.begin start) ops) :
    let s := (Consumer.consumer table bytes).run (Consumer.begin start) ops
    s.Got table ∧
      (∀ limit, 0 < limit → s.tail.Found → s.tail.Near table s.offset →
        s.fetched table bytes limit = [] → rowsFrom s.tail table s.offset = []) ∧
      (∀ seg ∈ s.tail.segs, seg.1 ≤ s.visible → ∀ first count,
        first + count ≤ seg.2.rows table →
          batchOffsets seg first count = (List.range' first count).map (ord seg.1)) ∧
      s.tail.Searched := by
  have inv := Consumer.run_inv ops (Consumer.begin_inv start) legal
  refine ⟨inv.got, ?_, ?_, inv.sound.searched⟩
  · intro limit some found near empty
    obtain ⟨rest, whole, all⟩ := @fetch_takes table bytes _ limit _ inv.sound inv.small found near
    have empty : (fetch _ table bytes _ limit).getD [] = [] := empty
    rw [whole, empty, all some empty]
    rfl
  · intro seg inside shown first count within
    exact batchOffsets_places table seg (inv.sound.fits inv.small seg inside shown) first count within

section runs

instance decidableSpaced (low : Nat) (segs : List (Nat × Segment)) (high : Nat) :
    Decidable (Spaced low segs high) :=
  match segs with
  | [] => inferInstanceAs (Decidable (low ≤ high))
  | seg :: rest =>
    have := decidableSpaced (seg.1 + seg.2.span) rest high
    inferInstanceAs (Decidable (low ≤ seg.1 ∧ Spaced (seg.1 + seg.2.span) rest high))

instance decidableClear (table : String) (s : Consumer) (op : Consumer.Op) :
    Decidable (Consumer.Clear table s op) :=
  match op with
  | .reveal upto => inferInstanceAs (Decidable (upto + 1 ≤ 2 ^ 39))
  | .fetch _ => inferInstanceAs (Decidable (s.tail.Found ∧ s.tail.Near table s.offset))
  | .write _ _ => inferInstanceAs (Decidable True)
  | .expire _ => inferInstanceAs (Decidable True)

instance (tail : Tail) : Decidable tail.Rising :=
  inferInstanceAs (Decidable (tail.segs.Pairwise _))

/-- A segment of so many rows of table `t`, committed at this time. -/
def segmentOf (rows ms : Nat) : Segment := ⟨"", Shelf.push ∅ "t" ⟨0, rows, rows, none⟩, ms, ∅⟩

/-- A file commit of so many rows of table `t`. -/
def filingOf (rows ms : Nat) : Segment :=
  ⟨"", ∅, ms, (∅ : Dict String Filed).insert "t" ⟨[⟨"a.parquet", rows, 0, none⟩], [], []⟩⟩

/-- A batch's bytes: its head, and a few for each row. -/
def sizeOf (_ : Nat × Segment) (_ count : Nat) : Nat := 61 + 20 * count

/-- Two segments read one by one, a number between them that holds none, and the first one expired. -/
def readOn : List Consumer.Op :=
  [.write [(1, segmentOf 3 100)] 2, .write [(3, segmentOf 2 200)] 4, .reveal 3, .fetch 1, .expire 1,
    .fetch 1, .fetch 1]

theorem readOn_legal : ((Consumer.consumer "t" sizeOf).only (Consumer.Clear "t")).Legal
    (Consumer.begin 0) readOn :=
  ⟨⟨⟨by decide, by decide⟩, trivial⟩, ⟨⟨by decide, by decide⟩, trivial⟩,
    ⟨⟨by decide, by decide, by decide⟩, by decide⟩, ⟨trivial, by decide +kernel, by decide +kernel⟩,
    ⟨⟨by decide, by decide⟩, trivial⟩, ⟨trivial, by decide +kernel, by decide +kernel⟩,
    ⟨trivial, by decide +kernel, by decide +kernel⟩, trivial⟩

/-- All five rows are got, each once. -/
theorem readOn_consumes :
    ((Consumer.consumer "t" sizeOf).run (Consumer.begin 0) readOn).Got "t" ∧
      ((Consumer.consumer "t" sizeOf).run (Consumer.begin 0) readOn).got =
        [(1, 0), (1, 1), (1, 2), (3, 0), (3, 1)] :=
  ⟨(run_consumes "t" sizeOf 0 readOn readOn_legal).1, by decide +kernel⟩

/-- One segment, and then numbers reserved that hold none. -/
def reserved : List Consumer.Op := [.write [(1, segmentOf 1 100)] 11, .reveal 10, .fetch 1000]

/-- Segments in the order of their times, one number of which holds none. -/
def dated : Tail :=
  ⟨[(1, segmentOf 1 100), (2, segmentOf 1 100), (4, segmentOf 1 200), (5, segmentOf 1 900)], 5⟩

/-- A file commit of 2^31 rows, which takes 128 numbers; read from far inside it. -/
def huge : List Consumer.Op := [.write [(1, filingOf (2 ^ 31) 100)] 129, .reveal 128, .fetch 1000]

/-- A consumer from the start gets nothing of the one segment, when the search for it comes past it to an
empty window; a time asked for lets a segment through that was committed before it; and a consumer inside a
file commit of many rows gets none of the rest of it. -/
theorem consumer_misses :
    ((Consumer.consumer "t" sizeOf).Legal (Consumer.begin 0) reserved ∧
      let s := (Consumer.consumer "t" sizeOf).run (Consumer.begin 0) reserved
      s.got = [] ∧ rowsFrom s.tail "t" s.offset = [(1, 0)] ∧ s.tail.firstSegment = 11) ∧
    (dated.Sound ∧ dated.Rising ∧ dated.afterTime 500 = 3) ∧
    ((Consumer.consumer "t" sizeOf).Legal (Consumer.begin (ord 1 (2 ^ 30 + 2 ^ 25))) huge ∧
      let s := (Consumer.consumer "t" sizeOf).run (Consumer.begin (ord 1 (2 ^ 30 + 2 ^ 25))) huge
      s.got = [] ∧ (1, 2 ^ 30 + 2 ^ 25) ∈ rowsFrom s.tail "t" s.offset) := by
  refine ⟨⟨⟨⟨by decide, by decide⟩, ⟨by decide, by decide, by decide⟩, trivial, trivial⟩,
    by decide +kernel, by decide +kernel, by decide +kernel⟩,
    ⟨⟨by decide, by decide⟩, by decide, by decide +kernel⟩,
    ⟨⟨by decide, by decide⟩, ⟨by decide, by decide, by decide⟩, trivial, trivial⟩,
    by decide +kernel, ?_⟩
  rw [mem_rowsFrom]
  have held : ((Consumer.consumer "t" sizeOf).run (Consumer.begin (ord 1 (2 ^ 30 + 2 ^ 25)))
      huge).tail.segs = [(1, filingOf (2 ^ 31) 100)] := rfl
  rw [held]
  exact ⟨(1, filingOf (2 ^ 31) 100), List.mem_singleton_self _, by decide, rfl, by decide +kernel,
    by decide +kernel⟩

end runs

end Pondra.Kafka
