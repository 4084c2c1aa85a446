import Pondra.Kafka.Produce

set_option autoImplicit false

namespace Pondra.Kafka

open Dicts Ladders Machines Log

/-! ### What a batch is told -/

/-- The flush's answer has this ack for a part sent so. -/
def Told (a : Answer) (src : Src) (ack : Ack) : Prop :=
  ∃ i p, a.flush.parts[i]? = some p ∧ p.src = some src ∧
    match a.outcome with
    | .acks acks => acks[i]? = some ack
    | .retry skipped => (i, ack) ∈ skipped
    | .refused _ => False

/-- Of a producer's batches the first `before` are written before this answer, the first `later` with
it: one it answers without an error is among these, and one it calls out of order has a predecessor
that wasn't written. -/
def Fair (producer : String) (batches : List Batch) (before later : Nat) (a : Answer) : Prop :=
  ∀ i < batches.length, ∀ ack, Told a (rung producer batches i) ack →
    (ack.refused = false → ack.gone = false → ack.moved = false → ack.conflict = false →
      i < later) ∧
    (ack.conflict = true → before < i)

/-- Each answer is fair, given how many of the producer's batches were written before the first. -/
def Tells (producer : String) (batches : List Batch) : Nat → List Answer → Prop
  | _, [] => True
  | before, a :: rest =>
    let later := before + (srcsOf producer a.taken).length
    Fair producer batches before later a ∧ Tells producer batches later rest

theorem tells_append (producer : String) (batches : List Batch) (before : Nat)
    (first rest : List Answer) : Tells producer batches before (first ++ rest) ↔
      Tells producer batches before first ∧
        Tells producer batches (before + (takenOf producer first).length) rest := by
  induction first generalizing before with
  | nil => simp [Tells, takenOf]
  | cons a first ih =>
    have count : before + (srcsOf producer a.taken).length + (takenOf producer first).length =
        before + (takenOf producer (a :: first)).length := by
      rw [takenOf, takenOf, List.flatMap_cons, List.length_append]
      omega
    rw [List.cons_append, Tells, Tells, ih, count, and_assoc]

/-- The inline segment's number changes nothing of it. -/
theorem told_number (a : Answer) (seg : Nat) (src : Src) (ack : Ack)
    (told : Told (a.number seg) src ack) : ∃ before, Told a src before ∧
      ack.refused = before.refused ∧ ack.gone = before.gone ∧ ack.moved = before.moved ∧
      ack.conflict = before.conflict := by
  obtain ⟨i, p, held, sent, given⟩ := told
  rw [number_flush] at held
  obtain ⟨f, outcome, taken⟩ := a
  cases outcome with
  | retry skipped => exact ⟨ack, ⟨i, p, held, sent, given⟩, rfl, rfl, rfl, rfl⟩
  | refused why => exact given.elim
  | acks acks =>
    have given : (acks.map (Ack.number seg))[i]? = some ack := given
    rw [List.getElem?_map, Option.map_eq_some_iff] at given
    obtain ⟨before, found, rfl⟩ := given
    refine ⟨before, ⟨i, p, held, sent, found⟩, ?_⟩
    unfold Ack.number
    split
    · exact ⟨rfl, rfl, rfl, rfl⟩
    · exact ⟨rfl, rfl, rfl, rfl⟩

theorem tells_number (producer : String) (batches : List Batch) (before seg : Nat)
    (answers : List Answer) (tells : Tells producer batches before answers) :
    Tells producer batches before (answers.map (Answer.number seg)) := by
  induction answers generalizing before with
  | nil => trivial
  | cons a rest ih =>
    obtain ⟨fair, others⟩ := tells
    rw [List.map_cons, Tells, number_taken]
    refine ⟨fun i within ack told => ?_, ih _ others⟩
    obtain ⟨old, told, refused, gone, moved, conflict⟩ := told_number a seg _ ack told
    rw [refused, gone, moved, conflict]
    exact fair i within old told

/-! ### What the nodes send -/

/-- The parts a producer has in a flush are batches of its, with the rows these make, for its topic's
table; and it is a flush of rows, no file commit. -/
def Sends (producer table : String) (batches : List Batch) (f : Flush) : Prop :=
  ∀ p ∈ f.parts, ∀ src ∈ p.src, src.producer = producer →
    f.Rows ∧ f.filed = [] ∧ p.table = table ∧
      ∃ b ∈ batches, src = b.src table ∧ p.rows = b.rows

/-- The sequence numbers don't wrap. -/
def Unwrapped (batches : List Batch) : Prop := ∀ i < batches.length, starts batches i < 2 ^ 31

instance (batches : List Batch) : Decidable (Unwrapped batches) :=
  inferInstanceAs (Decidable (∀ i < _, _ < _))

/-- A flush that a view's rows make to be packed again holds no batch of the producer twice that isn't
written yet. -/
def Fresh (s : Sequencer) (views : Inline) (producer : String) (b : Log.Batch) (x : Seen × Flush) :
    Prop :=
  x.2.stale views = false → x.2.waits x.1.held = false → (∃ p ∈ x.2.parts, p.src = none) →
    ∀ part ∈ x.2.parts.zipIdx, ∀ src ∈ part.1.src, src.producer = producer →
      (part.2, Skip.duplicate) ∈ (s.checked x.1 b.seqs x.2).stale →
        src.seq ≤ s.standing x.1.copy b.seqs ∅ producer

/-- Each flush of a commit finds the commit so. -/
def Orderly (s : Sequencer) (views : Inline) (producer table : String) :
    Log.Batch → List (Seen × Flush) → Prop
  | _, [] => True
  | b, x :: rest => s.InTurn views producer table b x ∧ Fresh s views producer b x ∧
      Orderly s views producer table (takeFlush s views b x) rest

instance (s : Sequencer) (views : Inline) (producer : String) (b : Log.Batch) (x : Seen × Flush) :
    Decidable (Fresh s views producer b x) :=
  inferInstanceAs (Decidable (_ = _ → _ = _ → (∃ p ∈ x.2.parts, p.src = none) →
    ∀ part ∈ x.2.parts.zipIdx, ∀ src ∈ part.1.src, _ = _ → _ ∈ _ → _ ≤ _))

instance decidableOrderly (s : Sequencer) (views : Inline) (producer table : String) :
    (b : Log.Batch) → (batch : List (Seen × Flush)) →
      Decidable (Orderly s views producer table b batch)
  | _, [] => inferInstanceAs (Decidable True)
  | b, x :: rest =>
    have := decidableOrderly s views producer table (takeFlush s views b x) rest
    inferInstanceAs (Decidable (_ ∧ _ ∧ _))

section flush

variable {producerId epoch : Int} {table : String} {batches : List Batch}

theorem rung_injective (stream : Stream producerId epoch batches) (producer : String) (i j : Nat)
    (within : i < batches.length) (within' : j < batches.length)
    (same : rung producer batches i = rung producer batches j) : i = j := by
  have seqs : starts batches (i + 1) = starts batches (j + 1) := congrArg Src.seq same
  rcases Nat.lt_trichotomy i j with less | same | more
  · exact absurd (stream.rises (i + 1) (j + 1) (by omega) within') (by omega)
  · exact same
  · exact absurd (stream.rises (j + 1) (i + 1) (by omega) within) (by omega)

/-- A batch is skipped as a duplicate if it is among the first so many, else for a predecessor. -/
theorem why_place (stream : Stream producerId epoch batches) (producer : String) (skip : Skip)
    (i j : Nat) (within : i < batches.length) (within' : j ≤ batches.length)
    (why : skip.Why (rung producer batches i) (starts batches j)) :
    skip = .duplicate ∧ i < j ∨ skip = .conflict ∧ j < i := by
  rcases why with ⟨same, old⟩ | ⟨same, newer, prev, expects, differs⟩
  · refine .inl ⟨same, ?_⟩
    by_contra beyond
    have less := stream.rises j (i + 1) (by omega) within
    have old : starts batches (i + 1) ≤ starts batches j := old
    omega
  · refine .inr ⟨same, ?_⟩
    by_contra beyond
    have expects : some (starts batches i) = some prev := expects
    have newer : starts batches j < starts batches (i + 1) := newer
    have apart : i ≠ j := by
      rintro rfl
      exact differs (Option.some.inj expects).symm
    have before := stream.rises i j (by omega) within'
    by_cases next : i + 1 = j
    · rw [next] at newer
      omega
    · have more := stream.rises (i + 1) j (by omega) within'
      omega

/-- What climbs from the first batches on batches of the stream are the next ones. -/
theorem climbs_next (stream : Stream producerId epoch batches) (producer : String) (k : Nat)
    (within : k ≤ batches.length) (srcs : List Src)
    (climbs : Climbs (·.seq) (·.prev) (starts batches k) srcs)
    (among : ∀ src ∈ srcs, ∃ i < batches.length, src = rung producer batches i) :
    k + srcs.length ≤ batches.length ∧
      srcs = (List.range' k srcs.length).map (rung producer batches) ∧
      top (·.seq) (starts batches k) srcs = starts batches (k + srcs.length) := by
  have links : ∀ j < batches.length, (rung producer batches j).seq = starts batches (j + 1) ∧
      (rung producer batches j).prev = some (starts batches j) := fun j _ => ⟨rfl, rfl⟩
  exact climbs.chained links stream.rises within among

theorem mem_srcsOf (producer : String) (parts : List (Part × Nat)) (src : Src) :
    src ∈ srcsOf producer parts ↔
      src.producer = producer ∧ ∃ part ∈ parts, part.1.src = some src := by
  unfold srcsOf
  rw [List.mem_filterMap]
  constructor
  · rintro ⟨part, inside, sent⟩
    rw [Option.filter_eq_some_iff] at sent
    exact ⟨by simpa using sent.2, part, inside, sent.1⟩
  · rintro ⟨mine, part, inside, sent⟩
    exact ⟨part, inside, by rw [sent, Option.filter_some_pos (by simpa using mine)]⟩

/-- A part of the producer's is a batch of its stream, with its rows. -/
def Fits (producer table : String) (batches : List Batch) (p : Part) : Prop :=
  ∀ src, p.src = some src → src.producer = producer → p.table = table ∧
    ∃ (i : Nat) (b : Batch), i < batches.length ∧ batches[i]? = some b ∧
      src = rung producer batches i ∧ p.rows = b.rows

theorem sends_fits (stream : Stream producerId epoch batches) (unwrapped : Unwrapped batches)
    (f : Flush) (sends : Sends (producerOf producerId epoch table) table batches f) (p : Part)
    (inside : p ∈ f.parts) : Fits (producerOf producerId epoch table) table batches p := by
  intro src sent mine
  obtain ⟨_, _, named, b, among, rfl, rows⟩ := sends p inside src sent mine
  obtain ⟨i, held⟩ := List.getElem?_of_mem among
  have within := (List.getElem?_eq_some_iff.mp held).1
  exact ⟨named, i, b, within, held, stream.src table i b held (unwrapped i within), rows⟩

theorem fits_among (producer : String) (parts : List (Part × Nat))
    (fits : ∀ part ∈ parts, Fits producer table batches part.1) :
    ∀ src ∈ srcsOf producer parts, ∃ i < batches.length, src = rung producer batches i := by
  intro src inside
  obtain ⟨mine, part, held, sent⟩ := (mem_srcsOf producer parts src).mp inside
  obtain ⟨_, i, _, within, _, same, _⟩ := fits part held src sent mine
  exact ⟨i, within, same⟩

theorem bar_why (f : Flush) (entry : Option TableMeta) (p : Part) (skip : Skip)
    (why : f.bar entry p = some skip) :
    skip = .gone ∨ skip = .refused ∨ skip = .moved := by
  unfold Flush.bar at why
  cases entry with
  | none => exact .inl (Option.some.inj why).symm
  | some entry =>
    simp only at why
    split at why
    · exact .inr (.inl (Option.some.inj why).symm)
    · split at why
      · exact .inr (.inr (Option.some.inj why).symm)
      · cases why

/-- Where the batches of a commit stand: what it has taken climbs from the first `written` ones. -/
structure Stands (producer table : String) (batches : List Batch) (written : Nat) (b : Log.Batch) :
    Prop where
  marks : b.Marks producer
  climbs : Climbs (·.seq) (·.prev) (starts batches written) (takenOf producer b.answers)
  fits : ∀ a ∈ b.answers, ∀ part ∈ a.taken, Fits producer table batches part.1
  tells : Tells producer batches written b.answers

theorem Stands.place (stream : Stream producerId epoch batches) {producer : String} {written : Nat}
    {b : Log.Batch} (stands : Stands producer table batches written b)
    (within : written ≤ batches.length) :
    written + (takenOf producer b.answers).length ≤ batches.length ∧
      top (·.seq) (starts batches written) (takenOf producer b.answers) =
        starts batches (written + (takenOf producer b.answers).length) := by
  have among := fits_among producer (b.answers.flatMap (·.taken)) fun part inside => by
    obtain ⟨a, held, taken⟩ := List.mem_flatMap.mp inside
    exact stands.fits a held part taken
  rw [← takenOf_srcs] at among
  obtain ⟨room, _, ends⟩ := climbs_next stream producer written within _ stands.climbs among
  exact ⟨room, ends⟩

variable {s : Sequencer} {views : Inline} {b later : Log.Batch} {seen : Seen} {f : Flush}
  {written : Nat}

/-- A flush's batches that it is to do without are told so fairly. -/
theorem bad_fair (stream : Stream producerId epoch batches) (unwrapped : Unwrapped batches)
    (sends : Sends (producerOf producerId epoch table) table batches f) (k : Nat)
    (within : k ≤ batches.length) (stood : s.standing seen.copy b.seqs ∅
      (producerOf producerId epoch table) = starts batches k) (i place : Nat)
    (below : i < batches.length) (p : Part) (held : f.parts[place]? = some p)
    (sent : p.src = some (rung (producerOf producerId epoch table) batches i)) (skip : Skip)
    (bad : (place, skip) ∈ s.bad seen b.seqs f) :
    k + (srcsOf (producerOf producerId epoch table) (f.good (s.bad seen b.seqs f))).length ≤
        batches.length ∧
      (skip.ack.refused = false → skip.ack.gone = false → skip.ack.moved = false →
        skip.ack.conflict = false →
          i < k + (srcsOf (producerOf producerId epoch table)
              (f.good (s.bad seen b.seqs f))).length ∧
            (place, Skip.duplicate) ∈ (s.checked seen b.seqs f).stale) ∧
      (skip.ack.conflict = true → k < i) := by
  generalize mine : producerOf producerId epoch table = producer at *
  have named : producer ≠ "" := by
    rw [← mine]
    exact producerOf_ne_empty producerId epoch table
  have fits : ∀ part ∈ f.good (s.bad seen b.seqs f), Fits producer table batches part.1 := by
    intro part good
    have inside := (List.mem_filter.mp good).1
    have held := List.mem_of_getElem? (List.mem_zipIdx_iff_getElem?.mp inside)
    rw [← mine] at sends ⊢
    exact sends_fits stream unwrapped f sends part.1 held
  obtain ⟨climbs, _⟩ := s.bad_climbs seen b.seqs f producer named
  rw [stood] at climbs
  have among := fits_among producer _ fits
  obtain ⟨room, _, _⟩ := climbs_next stream producer k within _ climbs among
  refine ⟨room, ?_⟩
  rcases List.mem_append.mp bad with barred | stale
  · obtain ⟨part, inside, same, _, why⟩ := barred_written f seen.found (place, skip) barred
    rcases bar_why f _ _ skip why with rfl | rfl | rfl
    · exact ⟨fun _ gone => (by cases gone), fun conflict => (by cases conflict)⟩
    · exact ⟨fun refused => (by cases refused), fun conflict => (by cases conflict)⟩
    · exact ⟨fun _ _ moved => (by cases moved), fun conflict => (by cases conflict)⟩
  · obtain ⟨p', src, before, after, held', sent', _, split, why⟩ :=
      s.stale_why seen b.seqs f place skip stale
    obtain rfl := Option.some.inj (held.symm.trans held')
    obtain rfl := Option.some.inj (sent.symm.trans sent')
    have why : skip.Why (rung producer batches i)
        (top (·.seq) (starts batches k) (srcsOf producer before)) := stood ▸ why
    have front : srcsOf producer (f.good (s.bad seen b.seqs f)) =
        srcsOf producer before ++ srcsOf producer after := by
      rw [split, srcsOf_append]
    rw [front] at climbs among
    obtain ⟨first, _⟩ := (climbs_append _ _ _ _ _).mp climbs
    obtain ⟨low, _, ends⟩ := climbs_next stream producer k within _ first
      fun src inside => among src (List.mem_append_left _ inside)
    rw [ends] at why
    have shorter : (srcsOf producer before).length ≤
        (srcsOf producer (f.good (s.bad seen b.seqs f))).length := by
      rw [front, List.length_append]
      omega
    rcases why_place stream producer skip i _ below low why with ⟨rfl, old⟩ | ⟨rfl, ahead⟩
    · refine ⟨fun _ _ _ _ => ⟨by omega, stale⟩, fun conflict => (by cases conflict)⟩
    · exact ⟨fun _ _ _ conflict => (by cases conflict), fun _ => by omega⟩

/-- A flush taken is answered by its acks. -/
theorem take_answer (b : Log.Batch) (ms : Nat) (f : Flush) (mine : Dict String Nat)
    (bad : List (Nat × Skip)) : ∃ rows seg, (b.take ms f mine bad).answers =
      b.answers ++ [⟨f, .acks (f.acks bad rows seg), f.good bad⟩] := by
  unfold Log.Batch.take
  simp only
  split
  · exact ⟨_, _, rfl⟩
  · split
    · exact ⟨_, _, rfl⟩
    · exact ⟨_, _, rfl⟩

/-- A flush is answered fairly. -/
theorem handled_fair (handled : Handled s views b seen f later)
    (stream : Stream producerId epoch batches) (unwrapped : Unwrapped batches)
    (sends : Sends (producerOf producerId epoch table) table batches f)
    (fresh : Fresh s views (producerOf producerId epoch table) b (seen, f)) (k : Nat)
    (within : k ≤ batches.length) (stood : s.standing seen.copy b.seqs ∅
      (producerOf producerId epoch table) = starts batches k) :
    ∃ a, later.answers = b.answers ++ [a] ∧
      (∀ part ∈ a.taken, Fits (producerOf producerId epoch table) table batches part.1) ∧
      Fair (producerOf producerId epoch table) batches k
        (k + (srcsOf (producerOf producerId epoch table) a.taken).length) a := by
  have rows (p : Part) (place i : Nat) (held : f.parts[place]? = some p)
      (sent : p.src = some (rung (producerOf producerId epoch table) batches i)) :
      f.Rows ∧ f.filed = [] := by
    obtain ⟨rows, files, _⟩ := sends p (List.mem_of_getElem? held) _ sent rfl
    exact ⟨rows, files⟩
  have untaken (outcome : Outcome) (never : ∀ i ack,
      ¬ Told ⟨f, outcome, []⟩ (rung (producerOf producerId epoch table) batches i) ack) :
      (∀ part ∈ (⟨f, outcome, []⟩ : Answer).taken,
        Fits (producerOf producerId epoch table) table batches part.1) ∧
      Fair (producerOf producerId epoch table) batches k
        (k + (srcsOf (producerOf producerId epoch table) []).length) ⟨f, outcome, []⟩ :=
    ⟨fun part inside => absurd inside List.not_mem_nil,
      fun i _ ack told => absurd told (never i ack)⟩
  cases handled with
  | counted op asks =>
    refine ⟨_, rfl, untaken _ ?_⟩
    rintro i ack ⟨place, p, held, sent, _⟩
    have none := (rows p place i held sent).1.1
    rw [asks] at none
    cases none
  | reserved asks =>
    have never (outcome : Outcome) : ∀ i ack,
        ¬ Told ⟨f, outcome, []⟩ (rung (producerOf producerId epoch table) batches i) ack := by
      rintro i ack ⟨place, p, held, sent, _⟩
      exact (rows p place i held sent).1.2 asks
    unfold Log.Batch.reserve
    simp only
    split
    · exact ⟨_, rfl, untaken _ (never _)⟩
    · exact ⟨_, rfl, untaken _ (never _)⟩
  | sentBack _ =>
    refine ⟨_, rfl, untaken _ ?_⟩
    rintro i ack ⟨place, p, held, sent, given⟩
    exact List.not_mem_nil given
  | inAlready _ files =>
    refine ⟨_, rfl, untaken _ ?_⟩
    rintro i ack ⟨place, p, held, sent, _⟩
    exact files (rows p place i held sent).2
  | redone current free _ _ derived =>
    refine ⟨_, rfl, fun part inside => absurd inside List.not_mem_nil, ?_⟩
    rintro i below ack ⟨place, p, held, sent, given⟩
    obtain ⟨⟨other, skip⟩, bad, same⟩ := List.mem_map.mp given
    obtain ⟨rfl, rfl⟩ := Prod.mk.inj same
    obtain ⟨_, settled, behind⟩ := bad_fair stream unwrapped sends k within stood i other below p
      held sent skip bad
    refine ⟨fun refused gone moved conflict => ?_, behind⟩
    have twice := (settled refused gone moved conflict).2
    have old := fresh (by simpa using current) (by simpa using free) derived (p, other)
      (List.mem_zipIdx_iff_getElem?.mpr held) _ sent rfl twice
    rw [stood] at old
    have old : starts batches (i + 1) ≤ starts batches k := old
    by_contra beyond
    have less := stream.rises k (i + 1) (by
      rw [srcsOf_nil, List.length_nil] at beyond
      omega) below
    omega
  | taken _ _ _ _ =>
    obtain ⟨laid, seg, answers⟩ := take_answer b seen.ms f (s.checked seen b.seqs f).mine
      (s.bad seen b.seqs f)
    refine ⟨_, answers, ?_, ?_⟩
    · intro part good
      have inside := (List.mem_filter.mp good).1
      exact sends_fits stream unwrapped f sends part.1
        (List.mem_of_getElem? (List.mem_zipIdx_iff_getElem?.mp inside))
    · rintro i below ack ⟨place, p, held, sent, given⟩
      have inside : (p, place) ∈ f.parts.zipIdx := List.mem_zipIdx_iff_getElem?.mpr held
      have found := acks_at f (s.bad seen b.seqs f) laid seg (p, place) inside
      have given : (f.acks (s.bad seen b.seqs f) laid seg)[place]? = some ack := given
      rw [given, Option.some.injEq] at found
      cases skipped : (s.bad seen b.seqs f).lookup place with
      | some skip =>
        simp only [skipped] at found
        subst found
        obtain ⟨_, settled, behind⟩ := bad_fair stream unwrapped sends k within stood i place below p
          held sent skip (mem_of_lookup place _ skip skipped)
        exact ⟨fun refused gone moved conflict => (settled refused gone moved conflict).1, behind⟩
      | none =>
        simp only [skipped] at found
        subst found
        refine ⟨fun _ _ _ _ => ?_, fun conflict => by cases conflict⟩
        have good : (p, place) ∈ f.good (s.bad seen b.seqs f) :=
          List.mem_filter.mpr ⟨inside, by simpa using skipped⟩
        have mine := (mem_srcsOf (producerOf producerId epoch table) _ _).mpr
          ⟨rfl, (p, place), good, sent⟩
        obtain ⟨climbs, _⟩ := s.bad_climbs seen b.seqs f _
          (producerOf_ne_empty producerId epoch table)
        rw [stood] at climbs
        have among := @fits_among table batches
          (producerOf producerId epoch table) (f.good (s.bad seen b.seqs f)) fun part good =>
            sends_fits stream unwrapped f sends part.1 (List.mem_of_getElem?
              (List.mem_zipIdx_iff_getElem?.mp (List.mem_filter.mp good).1))
        obtain ⟨room, whole, _⟩ := climbs_next stream _ k within _ climbs among
        rw [whole, List.mem_map] at mine
        obtain ⟨j, ranged, same⟩ := mine
        obtain ⟨low, high⟩ := List.mem_range'_1.mp ranged
        obtain rfl := rung_injective stream _ i j below (by omega) same.symm
        show i < k + (srcsOf _ (f.good (s.bad seen b.seqs f))).length
        omega

theorem Stands.handled (stands : Stands (producerOf producerId epoch table) table batches written b)
    (handled : Handled s views b seen f later) (stream : Stream producerId epoch batches)
    (unwrapped : Unwrapped batches)
    (sends : Sends (producerOf producerId epoch table) table batches f)
    (fresh : Fresh s views (producerOf producerId epoch table) b (seen, f))
    (within : written ≤ batches.length)
    (stood : seqOf (s.copy seen.copy) s.last [] (producerOf producerId epoch table) =
      starts batches written) :
    Stands (producerOf producerId epoch table) table batches written later := by
  have named := producerOf_ne_empty producerId epoch table
  obtain ⟨room, ends⟩ := stands.place stream within
  have standing : s.standing seen.copy b.seqs ∅ (producerOf producerId epoch table) =
      starts batches (written + (takenOf (producerOf producerId epoch table) b.answers).length) := by
    rw [s.standing_seqs, stood, stands.marks, ← top_eq, ends]
  obtain ⟨a, answers, fits, fair⟩ := handled_fair handled stream unwrapped sends fresh _ room standing
  refine ⟨handled.marks _ named stands.marks,
    handled.climbs _ named stands.marks _ stood stands.climbs, ?_, ?_⟩
  · intro other inside
    rw [answers] at inside
    rcases List.mem_append.mp inside with old | new
    · exact stands.fits other old
    · rw [List.mem_singleton.mp new]
      exact fits
  · rw [answers, tells_append]
    exact ⟨stands.tells, fair, trivial⟩

/-- A commit that finds the first `written` batches written goes on from there. -/
theorem foldl_stands (stream : Stream producerId epoch batches) (unwrapped : Unwrapped batches)
    (within : written ≤ batches.length) (batch : List (Seen × Flush))
    (stood : ∀ x ∈ batch, seqOf (s.copy x.1.copy) s.last [] (producerOf producerId epoch table) =
      starts batches written)
    (sends : ∀ x ∈ batch, Sends (producerOf producerId epoch table) table batches x.2)
    (orderly : Orderly s views (producerOf producerId epoch table) table b batch)
    (stands : Stands (producerOf producerId epoch table) table batches written b)
    (order : b.InOrder (producerOf producerId epoch table) table) :
    Stands (producerOf producerId epoch table) table batches written
        (batch.foldl (takeFlush s views) b) ∧
      (batch.foldl (takeFlush s views) b).InOrder (producerOf producerId epoch table) table := by
  induction batch generalizing b with
  | nil => exact ⟨stands, order⟩
  | cons x rest ih =>
    obtain ⟨turn, fresh, later⟩ := orderly
    have handled := takeFlush_handled s views b x.1 x.2
    exact ih (fun y inside => stood y (List.mem_cons_of_mem _ inside))
      (fun y inside => sends y (List.mem_cons_of_mem _ inside)) later
      (stands.handled handled stream unwrapped (sends x List.mem_cons_self) fresh within
        (stood x List.mem_cons_self))
      (handled.inOrder _ table turn order)

end flush

/-! ### Runs -/

/-- What an op's flushes hold of the producer. -/
def Op.Sends (producer table : String) (batches : List Batch) : Op → Prop
  | .commit _ batch => ∀ x ∈ batch, Kafka.Sends producer table batches x.2
  | .restart _ _ => True

/-- What the conditions on a commit's flushes say of an op. -/
def Calm (producer table : String) (s : Sequencer) : Op → Prop
  | .commit env batch => env.frozen = false →
    Orderly (s.forget env) env.views producer table
      ⟨s.next, s.block, ∅, [], [], ∅, [], [], [], [], [], none⟩ batch
  | .restart _ _ => True

/-- How the log stands with a producer's batches. -/
structure Ran (producer table : String) (batches : List Batch) (s : Sequencer) : Prop where
  lasting : s.Lasting 0 producer
  fits : ∀ a ∈ s.answered, ∀ part ∈ a.taken, Fits producer table batches part.1
  tells : Tells producer batches 0 s.answered
  order : ∀ write ∈ s.wrote, sentRows producer (tableEntries table write.segs) =
    partRows producer table (rowsTaken write.answers)

theorem finish_stands {producer table : String} {batches : List Batch} {written : Nat}
    (b : Log.Batch) (ms : Nat) (stands : Stands producer table batches written b)
    (order : b.InOrder producer table) :
    (∀ a ∈ (b.finish ms).answers, ∀ part ∈ a.taken, Fits producer table batches part.1) ∧
      Tells producer batches written (b.finish ms).answers ∧
      sentRows producer (tableEntries table (b.finish ms).segs) =
        partRows producer table (rowsTaken (b.finish ms).answers) := by
  rw [finish_rowsTaken]
  unfold Log.Batch.finish
  split
  · rename_i empty
    refine ⟨stands.fits, stands.tells, ?_⟩
    have none : Shelf.of b.inlineParts table = [] := by
      rw [Shelf.of, AList.lookup_eq_none.mpr fun inside => by
        rw [AList.mem_keys, AList.keys, empty] at inside
        exact List.not_mem_nil inside]
      rfl
    rw [Log.Batch.InOrder, none, List.append_nil] at order
    exact order
  · refine ⟨?_, tells_number producer batches written b.next b.answers stands.tells, ?_⟩
    · intro a inside
      obtain ⟨old, held, rfl⟩ := List.mem_map.mp inside
      rw [number_taken]
      exact stands.fits old held
    · show sentRows producer (tableEntries table (b.segs ++ [_])) = _
      rw [tableEntries_append, ← order]
      congr 2
      rw [tableEntries, List.flatMap_cons, List.flatMap_nil, List.append_nil]

section runs

variable {producerId epoch : Int} {table : String} {batches : List Batch} {s : Sequencer}

/-- The first batches are written, and the next one's mark is what the log has. -/
theorem Ran.place (ran : Ran (producerOf producerId epoch table) table batches s)
    (stream : Stream producerId epoch batches) :
    (takenOf (producerOf producerId epoch table) s.answered).length ≤ batches.length ∧
      takenOf (producerOf producerId epoch table) s.answered =
        (List.range (takenOf (producerOf producerId epoch table) s.answered).length).map
          (rung (producerOf producerId epoch table) batches) ∧
      top (·.seq) 0 (takenOf (producerOf producerId epoch table) s.answered) =
        starts batches (takenOf (producerOf producerId epoch table) s.answered).length := by
  have among := fits_among (producerOf producerId epoch table) (s.answered.flatMap (·.taken))
    fun part inside => by
      obtain ⟨a, held, taken⟩ := List.mem_flatMap.mp inside
      exact ran.fits a held part taken
  rw [← takenOf_srcs] at among
  obtain ⟨room, whole, ends⟩ := climbs_next stream _ 0 (Nat.zero_le _) _ ran.lasting.once.climbs among
  rw [Nat.zero_add] at room ends
  rw [← List.range_eq_range'] at whole
  exact ⟨room, whole, ends⟩

theorem Ran.commit (ran : Ran (producerOf producerId epoch table) table batches s)
    (stream : Stream producerId epoch batches) (unwrapped : Unwrapped batches) (config : Config)
    (env : Env) (batch : List (Seen × Flush)) (allowed : s.Allows (.commit env batch))
    (spares : Op.Spares (producerOf producerId epoch table) (.commit env batch))
    (sends : ∀ x ∈ batch, Sends (producerOf producerId epoch table) table batches x.2)
    (calm : Calm (producerOf producerId epoch table) table s (.commit env batch)) :
    Ran (producerOf producerId epoch table) table batches (s.commit config env batch) := by
  have lasting := ran.lasting.commit (producerOf_ne_empty producerId epoch table) config env batch
    allowed (keptMs_producerOf config producerId epoch table env.now) spares
  cases open' : env.frozen with
  | true =>
    rw [s.commit_frozen config env batch open'] at lasting ⊢
    exact ⟨lasting, ran.fits, ran.tells, ran.order⟩
  | false =>
    obtain ⟨room, _, ends⟩ := ran.place stream
    have stood : ∀ x ∈ batch, seqOf ((s.forget env).copy x.1.copy) (s.forget env).last []
        (producerOf producerId epoch table) =
          starts batches (takenOf (producerOf producerId epoch table) s.answered).length := by
      intro x inside
      obtain ⟨_, _, _, most, copies⟩ := allowed
      rw [seqOf_congr _ _ s.last _ _ (ran.lasting.once.tracks.forget env spares.1), ← ends]
      exact ran.lasting.once.stands _ (copies x inside).1 ((copies x inside).2.trans most)
    have begun : Stands (producerOf producerId epoch table) table batches
        (takenOf (producerOf producerId epoch table) s.answered).length
        ⟨s.next, s.block, ∅, [], [], ∅, [], [], [], [], [], none⟩ :=
      ⟨rfl, trivial, fun _ inside => absurd inside List.not_mem_nil, trivial⟩
    obtain ⟨stands, order⟩ := foldl_stands stream unwrapped room batch stood sends (calm open') begun rfl
    obtain ⟨fits, tells, rows⟩ := finish_stands _ env.start stands order
    have answered : (s.commit config env batch).answered =
        s.answered ++ ((s.upTo env batch).finish env.start).answers := by
      rw [s.commit_eq config env batch open']
      show (s.wrote ++ [s.write config env batch]).flatMap (·.answers) = _
      rw [List.flatMap_append, List.flatMap_cons, List.flatMap_nil, List.append_nil]
      rfl
    refine ⟨lasting, ?_, ?_, ?_⟩
    · intro a inside
      rw [answered] at inside
      rcases List.mem_append.mp inside with old | new
      · exact ran.fits a old
      · exact fits a new
    · rw [answered, tells_append, Nat.zero_add]
      exact ⟨ran.tells, tells⟩
    · rw [s.commit_eq config env batch open']
      intro write inside
      rcases List.mem_append.mp inside with old | new
      · exact ran.order write old
      · rw [List.mem_singleton.mp new]
        exact rows

theorem Ran.restart {producer : String} (ran : Ran producer table batches s) (kept now : Nat)
    (within : kept ≤ s.wrote.length) :
    Ran producer table batches (Sequencer.start s.base (s.wrote.take kept) now) := by
  have split : s.answered = (s.wrote.take kept).flatMap (·.answers) ++
      (s.wrote.drop kept).flatMap (·.answers) := by
    rw [← List.flatMap_append, List.take_append_drop]
    rfl
  have tells := ran.tells
  rw [split, tells_append] at tells
  refine ⟨ran.lasting.restart kept now within, ?_, tells.1, ?_⟩
  · intro a inside
    exact ran.fits a (by rw [split]; exact List.mem_append_left _ inside)
  · intro write inside
    exact ran.order write (List.mem_of_mem_take inside)

theorem run_ran (stream : Stream producerId epoch batches) (unwrapped : Unwrapped batches)
    (config : Config) (ops : List Op)
    (ran : Ran (producerOf producerId epoch table) table batches s)
    (legal : ((sequencer config).only
      (Calm (producerOf producerId epoch table) table)).Legal s ops)
    (spares : ∀ op ∈ ops, op.Spares (producerOf producerId epoch table))
    (sends : ∀ op ∈ ops, Op.Sends (producerOf producerId epoch table) table batches op) :
    Ran (producerOf producerId epoch table) table batches ((sequencer config).run s ops) := by
  induction ops generalizing s with
  | nil => exact ran
  | cons op rest ih =>
    obtain ⟨⟨allowed, calm⟩, legal⟩ := legal
    refine ih ?_ legal (fun other inside => spares other (List.mem_cons_of_mem _ inside))
      (fun other inside => sends other (List.mem_cons_of_mem _ inside))
    cases op with
    | commit env batch =>
      exact ran.commit stream unwrapped config env batch allowed (spares _ List.mem_cons_self)
        (sends _ List.mem_cons_self) calm
    | restart kept now => exact ran.restart kept now allowed.2.1

/-! ### The rows in the log -/

/-- The rows a batch of the stream makes. -/
def rowsAt (batches : List Batch) (i : Nat) : Nat := (batches[i]?.map (·.rows)).getD 0

/-- A table's rows of the producer in the log: who sent them, and how many. -/
def logged (producer table : String) (s : Sequencer) : List (Option Src × Nat) :=
  (sentRows producer (tableEntries table (s.wrote.flatMap (·.segs)))).map fun tag => (tag.1, tag.2.2)

theorem partRows_rungs (stream : Stream producerId epoch batches) (producer : String)
    (parts : List (Part × Nat)) (fits : ∀ part ∈ parts, Fits producer table batches part.1)
    (places : List Nat) (below : ∀ i ∈ places, i < batches.length)
    (sent : srcsOf producer parts = places.map (rung producer batches)) :
    (partRows producer table ((parts.map Prod.fst).filter fun p => decide (0 < p.rows))).map
        (fun tag => (tag.1, tag.2.2)) =
      (places.filter fun i => decide (0 < rowsAt batches i)).map fun i =>
        (some (rung producer batches i), rowsAt batches i) := by
  induction parts generalizing places with
  | nil =>
    cases places with
    | nil => rfl
    | cons i rest => cases sent
  | cons part rest ih =>
    have later := ih fun other inside => fits other (List.mem_cons_of_mem _ inside)
    by_cases mine : sentBy producer part.1.src = true
    · obtain ⟨src, from', same⟩ : ∃ src, part.1.src = some src ∧ src.producer = producer := by
        simpa [sentBy, Option.any_eq_true] using mine
      have split : srcsOf producer (part :: rest) = src :: srcsOf producer rest := by
        refine List.filterMap_cons_some ?_
        rw [from', Option.filter_some_pos (by simpa using same)]
      rw [split] at sent
      cases places with
      | nil => cases sent
      | cons i places =>
        obtain ⟨rfl, others⟩ := List.cons.inj sent
        obtain ⟨named, j, b, within, held, rungs, rows⟩ :=
          fits part List.mem_cons_self _ from' same
        obtain rfl := rung_injective stream producer i j (below i List.mem_cons_self) within rungs
        have count : rowsAt batches i = part.1.rows := by
          rw [rowsAt, held, rows]
          rfl
        have next := later places (fun k inside => below k (List.mem_cons_of_mem _ inside)) others
        by_cases some : 0 < part.1.rows
        · rw [List.map_cons, List.filter_cons_of_pos (by simpa using some),
            List.filter_cons_of_pos (by rw [count]; simpa using some), List.map_cons, ← next, count,
            partRows, List.filter_cons_of_pos (by simpa using named), List.map_cons,
            List.filter_cons_of_pos (p := fun tag : Option Src × Nat × Nat => sentBy producer tag.1)
              mine, List.map_cons,
            Part.tag, from']
          rfl
        · rw [List.map_cons, List.filter_cons_of_neg (by simpa using some),
            List.filter_cons_of_neg (by rw [count]; simpa using some)]
          exact next
    · have split : srcsOf producer (part :: rest) = srcsOf producer rest := by
        refine List.filterMap_cons_none ?_
        cases from' : part.1.src with
        | none => rfl
        | some src =>
          rw [Option.filter_some_neg]
          rw [from'] at mine
          simpa [sentBy] using mine
      rw [split] at sent
      rw [← later places below sent, List.map_cons, List.filter_cons]
      split
      · rw [partRows, List.filter_cons]
        split
        · rw [List.map_cons, List.filter_cons_of_neg (p := fun tag : Option Src × Nat × Nat =>
            sentBy producer tag.1) mine]
          rfl
        · rfl
      · rfl

/-- The log holds the rows of the batches taken, in their order. -/
theorem Ran.logged (ran : Ran (producerOf producerId epoch table) table batches s)
    (stream : Stream producerId epoch batches) :
    logged (producerOf producerId epoch table) table s =
      ((List.range (takenOf (producerOf producerId epoch table) s.answered).length).filter
        fun i => decide (0 < rowsAt batches i)).map fun i =>
          (some (rung (producerOf producerId epoch table) batches i), rowsAt batches i) := by
  obtain ⟨room, whole, _⟩ := ran.place stream
  have rows (writes : List Write) (order : ∀ write ∈ writes,
      sentRows (producerOf producerId epoch table) (tableEntries table write.segs) =
        partRows (producerOf producerId epoch table) table (rowsTaken write.answers)) :
      sentRows (producerOf producerId epoch table) (tableEntries table (writes.flatMap (·.segs))) =
        partRows (producerOf producerId epoch table) table
          (rowsTaken (writes.flatMap (·.answers))) := by
    induction writes with
    | nil => rfl
    | cons write rest ih =>
      rw [List.flatMap_cons, tableEntries_append, sentRows_append, List.flatMap_cons,
        rowsTaken_append, partRows_append, order write List.mem_cons_self,
        ih fun other inside => order other (List.mem_cons_of_mem _ inside)]
  rw [Kafka.logged, rows s.wrote ran.order]
  refine partRows_rungs stream _ (s.answered.flatMap (·.taken)) (fun part inside => ?_) _
    (fun i inside => ?_) ?_
  · obtain ⟨a, held, taken⟩ := List.mem_flatMap.mp inside
    exact ran.fits a held part taken
  · have below := List.mem_range.mp inside
    omega
  · rw [← takenOf_srcs]
    exact whole

theorem tells_mem (producer : String) (before : Nat) (answers : List Answer)
    (tells : Tells producer batches before answers) (a : Answer) (inside : a ∈ answers) :
    ∃ first later, later ≤ before + (takenOf producer answers).length ∧
      Fair producer batches first later a := by
  obtain ⟨front, back, rfl⟩ := List.append_of_mem inside
  obtain ⟨_, fair, _⟩ := (tells_append producer batches before front (a :: back)).mp tells
  refine ⟨_, _, ?_, fair⟩
  have split : takenOf producer (a :: back) = srcsOf producer a.taken ++ takenOf producer back :=
    List.flatMap_cons
  rw [takenOf_append, List.length_append, split, List.length_append]
  omega

/-- What a request reads as a batch's answer: an ack of it that a commit gave, the last of several if it
was sent again, or no ack at all. -/
def Answered (s : Sequencer) (table : String) (b : Batch) (answered : Except String Ack) : Prop :=
  ∃ first again, answered = sentAgain first again ∧ ∀ one ∈ first :: again, ∀ ack, one = .ok ack →
    ∃ a ∈ s.answered, ∃ told, Told a (b.src table) told ∧ answer told = .ok ack

theorem Ran.answered (ran : Ran (producerOf producerId epoch table) table batches s)
    (stream : Stream producerId epoch batches) (unwrapped : Unwrapped batches) (b : Batch)
    (among : b ∈ batches) (ack : Ack) (taken : ack.conflict = false)
    (given : Answered s table b (.ok ack)) :
    ∃ i < (takenOf (producerOf producerId epoch table) s.answered).length, batches[i]? = some b := by
  obtain ⟨i, held⟩ := List.getElem?_of_mem among
  have within := (List.getElem?_eq_some_iff.mp held).1
  obtain ⟨first, again, same, told⟩ := given
  obtain ⟨a, inside, before, told, said⟩ := told _ (sentAgain_mem first again) ack same.symm
  obtain ⟨rfl, refused, gone, moved⟩ := answer_ok before ack said
  rw [stream.src table i b held (unwrapped i within)] at told
  obtain ⟨k, later, most, fair⟩ := tells_mem _ 0 _ ran.tells a inside
  have below := (fair i within ack told).1 refused gone moved taken
  exact ⟨i, by omega, held⟩

end runs

/-- Each batch of a request has its answer. -/
def Requested (s : Sequencer) (table : String) (batches : List Batch) (puts : List (Batch × Put))
    (answers : List (Except String Ack)) : Prop :=
  (∀ x ∈ puts, x.1 ∈ batches) ∧ List.Forall₂ (Answered s table) (queue puts).acks answers

/-- A producer's records are written exactly once: the rows in the log are those of its first batches,
once each and in order; each answer is fair; and a request answered without an error has every batch of
it among the ones written. -/
structure ExactlyOnce (producer table : String) (batches : List Batch) (s : Sequencer) (written : Nat) :
    Prop where
  within : written ≤ batches.length
  rows : logged producer table s = ((List.range written).filter fun i =>
    decide (0 < rowsAt batches i)).map fun i => (some (rung producer batches i), rowsAt batches i)
  tells : Tells producer batches 0 s.answered
  requests : ∀ puts answers, Requested s table batches puts answers →
    (produce puts answers).1 = .none → ∀ x ∈ puts, ∃ i < written, batches[i]? = some x.1

/-- Over every run of the log's sequencers, restarts included, in which a producer's numbers don't wrap,
no object flush takes rows of it after inline ones in one commit, and no flush packed again for a view
holds a new batch twice. -/
theorem run_idempotent (config : Config) (producerId epoch : Int) (table : String)
    (batches : List Batch) (stream : Stream producerId epoch batches)
    (unwrapped : Unwrapped batches) (base : Catalog) (now : Nat)
    (unmarked : base.marks.lookup (producerOf producerId epoch table) = none)
    (unkeyed : ∀ key seq, base.expiries.lookup key = some seq →
      key.producer ≠ producerOf producerId epoch table) (ops : List Op)
    (legal : ((sequencer config).only (Calm (producerOf producerId epoch table) table)).Legal
      (Sequencer.start base [] now) ops)
    (spares : ∀ op ∈ ops, op.Spares (producerOf producerId epoch table))
    (sends : ∀ op ∈ ops, Op.Sends (producerOf producerId epoch table) table batches op) :
    let s := (sequencer config).run (Sequencer.start base [] now) ops
    ExactlyOnce (producerOf producerId epoch table) table batches s
      (takenOf (producerOf producerId epoch table) s.answered).length := by
  have begun := start_lasting base now _ unkeyed
  rw [unmarked] at begun
  have ran := run_ran stream unwrapped config ops
    (⟨begun, fun _ inside => absurd inside List.not_mem_nil, trivial,
      fun _ inside => absurd inside List.not_mem_nil⟩ :
      Ran (producerOf producerId epoch table) table batches (Sequencer.start base [] now))
    legal spares sends
  refine ⟨(ran.place stream).1, ran.logged stream, ran.tells, ?_⟩
  rintro puts answers ⟨among, answered⟩ fine x inside
  unfold produce at fine
  cases early : (queue puts).early with
  | some code =>
    rw [early] at fine
    exact absurd fine (queue_early puts code early)
  | none =>
    rw [early] at fine
    rw [queue_whole puts early] at answered
    obtain ⟨place, held⟩ := List.getElem?_of_mem (List.mem_map_of_mem (f := Prod.fst) inside)
    have long := (List.getElem?_eq_some_iff.mp held).1
    have short : place < answers.length := answered.length_eq ▸ long
    have pair := answered.get long short
    rw [List.get_eq_getElem, List.get_eq_getElem, (List.getElem?_eq_some_iff.mp held).2] at pair
    obtain ⟨ack, said, taken⟩ := outcome_none none answers fine _ (List.getElem_mem short)
    rw [said] at pair
    exact ran.answered stream unwrapped x.1 (among x inside) ack taken pair

section cases

/-- A producer's part of a flush: one of its batches. -/
def partOf (b : Batch) : Part := ⟨"t", 0, 1, b.rows, some (b.src "t"), none⟩

def flushOf (path : String) (parts : List Part) : Flush :=
  ⟨path, parts, [7], 0, false, 0, [], none, false⟩

def firstTwo : List Batch := [⟨5, 0, 0, 2, 1, by decide⟩, ⟨5, 0, 2, 3, 3, by decide⟩]

theorem firstTwo_stream : Stream 5 0 firstTwo := ⟨by decide, by decide, by decide, by decide⟩

/-- The second batch comes first; then the first one; then both again. -/
def overtaken : List Op :=
  [.commit (plainEnv 0 0) [(plainSeen 0, flushOf "" [partOf firstTwo[1]])],
    .commit (plainEnv 0 0) [(plainSeen 0, flushOf "" [partOf firstTwo[0]])],
    .commit (plainEnv 1 1) [(plainSeen 0, flushOf "" [partOf firstTwo[1], partOf firstTwo[0]])]]

theorem overtaken_legal : ((sequencer usual).only (Calm (producerOf 5 0 "t") "t")).Legal
    (Sequencer.start emptyCatalog [] 0) overtaken :=
  ⟨⟨⟨by decide, by decide, by decide, by decide, by decide⟩, fun _ => by decide +kernel⟩,
    ⟨⟨by decide, by decide, by decide, by decide, by decide⟩, fun _ => by decide +kernel⟩,
    ⟨⟨by decide, by decide, by decide, by decide, by decide⟩, fun _ => by decide +kernel⟩, trivial⟩

theorem sends_parts (f : Flush) (batches : List Batch) (producer : String) (rows : f.Rows)
    (files : f.filed = []) (among : ∀ p ∈ f.parts, p.src = none ∨ ∃ b ∈ batches, p = partOf b) :
    Sends producer "t" batches f := by
  intro p inside src sent _
  rcases among p inside with derived | ⟨b, held, rfl⟩
  · rw [derived] at sent
    cases sent
  · exact ⟨rows, files, rfl, b, held, (Option.some.inj sent).symm, rfl⟩

theorem overtaken_sends : ∀ op ∈ overtaken,
    Op.Sends (producerOf 5 0 "t") "t" firstTwo op := by
  intro op inside
  simp only [overtaken, List.mem_cons, List.not_mem_nil, or_false] at inside
  rcases inside with rfl | rfl | rfl
  · intro x held
    rw [List.mem_singleton.mp held]
    refine sends_parts _ _ _ (by decide) rfl fun p mine => .inr ⟨firstTwo[1], by simp [firstTwo], ?_⟩
    exact List.mem_singleton.mp mine
  · intro x held
    rw [List.mem_singleton.mp held]
    refine sends_parts _ _ _ (by decide) rfl fun p mine => .inr ⟨firstTwo[0], by simp [firstTwo], ?_⟩
    exact List.mem_singleton.mp mine
  · intro x held
    rw [List.mem_singleton.mp held]
    refine sends_parts _ _ _ (by decide) rfl fun p mine => .inr ?_
    rcases List.mem_cons.mp mine with rfl | mine
    · exact ⟨firstTwo[1], by simp [firstTwo], rfl⟩
    · exact ⟨firstTwo[0], by simp [firstTwo], List.mem_singleton.mp mine⟩

/-- A batch that overtakes the one before it goes again, and both are written once. -/
theorem overtaken_exact :
    let s := (sequencer usual).run (Sequencer.start emptyCatalog [] 0) overtaken
    ExactlyOnce (producerOf 5 0 "t") "t" firstTwo s
      (takenOf (producerOf 5 0 "t") s.answered).length :=
  run_idempotent usual 5 0 "t" firstTwo firstTwo_stream (by decide +kernel) emptyCatalog 0 rfl
    (fun _ _ found => by cases found) overtaken overtaken_legal (by decide +kernel) overtaken_sends

/-- Tombstones of a table without a key, as many in each batch as its bytes let in, until the numbers
wrap. -/
def tombstones : List Batch :=
  (List.range 128).map fun i => ⟨5, 0, i * 2 ^ 24, 2 ^ 24, 0, Nat.zero_le _⟩

/-- The row after them. -/
def wrapped : Batch := ⟨5, 0, 0, 1, 1, by decide⟩

def wrapping : List Op :=
  [.commit (plainEnv 0 0) [(plainSeen 0, flushOf "" (tombstones.map partOf))],
    .commit (plainEnv 1 1) [(plainSeen 1, flushOf "" [partOf wrapped])]]

/-- An inline flush, and an object flush after it, in one commit. -/
def overlaid : List Op :=
  [.commit (plainEnv 0 0) [(plainSeen 0, flushOf "" [partOf firstTwo[0]]),
    (plainSeen 0, flushOf "a" [partOf firstTwo[1]])]]

/-- A batch, a view's rows of it, and the batch sent again, in one flush. -/
def doubled : List Op :=
  [.commit ⟨false, [], ⟨fun _ => ["v"], ["v"]⟩, 0, 0, 0⟩ [(plainSeen 0, flushOf ""
    [partOf firstTwo[0], ⟨"v", 1, 1, 1, none, none⟩, partOf firstTwo[0]])]]

theorem sends_single (env : Env) (seen : Seen) (f : Flush) (batches : List Batch) (producer : String)
    (sends : Sends producer "t" batches f) :
    Op.Sends producer "t" batches (.commit env [(seen, f)]) := by
  intro x inside
  rw [List.mem_singleton.mp inside]
  exact sends

/-- An answer that says a batch was written. -/
theorem answered_duplicate (s : Sequencer) (b : Batch) (a : Answer) (inside : a ∈ s.answered)
    (told : Told a (b.src "t") Skip.duplicate.ack) :
    Answered s "t" b (.ok Skip.duplicate.ack) := by
  refine ⟨_, [], rfl, fun one only ack same => ⟨a, inside, Skip.duplicate.ack, told, ?_⟩⟩
  rw [List.mem_singleton.mp only] at same
  rw [← Except.ok.inj same]
  rfl

/-- The record after the 2^31 first ones is answered as written, and isn't; rows of an object flush come
before the inline ones sequenced before it; and a batch sent twice in a flush that goes back is answered
as written before it is. -/
theorem idempotent_breaks :
    (((sequencer usual).Legal (Sequencer.start emptyCatalog [] 0) wrapping ∧
      (∀ op ∈ wrapping, Op.Sends (producerOf 5 0 "t") "t" (tombstones ++ [wrapped]) op)) ∧
      let s := (sequencer usual).run (Sequencer.start emptyCatalog [] 0) wrapping
      Requested s "t" (tombstones ++ [wrapped]) [(wrapped, .queued)] [.ok Skip.duplicate.ack] ∧
        (produce [(wrapped, .queued)] [.ok Skip.duplicate.ack]).1 = .none ∧
        logged (producerOf 5 0 "t") "t" s = []) ∧
    (((sequencer usual).Legal (Sequencer.start emptyCatalog [] 0) overlaid ∧
      (∀ op ∈ overlaid, Op.Sends (producerOf 5 0 "t") "t" firstTwo op)) ∧
      let s := (sequencer usual).run (Sequencer.start emptyCatalog [] 0) overlaid
      logged (producerOf 5 0 "t") "t" s =
        [(some (firstTwo[1].src "t"), 3), (some (firstTwo[0].src "t"), 1)]) ∧
    (((sequencer usual).Legal (Sequencer.start emptyCatalog [] 0) doubled ∧
      (∀ op ∈ doubled, Op.Sends (producerOf 5 0 "t") "t" firstTwo op)) ∧
      let s := (sequencer usual).run (Sequencer.start emptyCatalog [] 0) doubled
      Requested s "t" firstTwo [(firstTwo[0], .queued)] [.ok Skip.duplicate.ack] ∧
        (produce [(firstTwo[0], .queued)] [.ok Skip.duplicate.ack]).1 = .none ∧
        logged (producerOf 5 0 "t") "t" s = []) := by
  have first : firstTwo[0] ∈ firstTwo := by simp [firstTwo]
  have second : firstTwo[1] ∈ firstTwo := by simp [firstTwo]
  refine ⟨⟨⟨?_, ?_⟩, ⟨?_, .cons ?_ .nil⟩, rfl, by decide +kernel⟩, ⟨⟨?_, ?_⟩, by decide +kernel⟩,
    ⟨?_, ?_⟩, ⟨?_, .cons ?_ .nil⟩, rfl, by decide +kernel⟩
  · exact ⟨⟨by decide, by decide, by decide, by decide, by decide⟩,
      ⟨by decide, by decide, by decide, by decide, by decide⟩, trivial⟩
  · intro op inside
    rcases List.mem_cons.mp inside with rfl | inside
    · refine sends_single _ _ _ _ _ (sends_parts _ _ _ (by decide) rfl fun p mine => .inr ?_)
      obtain ⟨b, held, rfl⟩ := List.mem_map.mp mine
      exact ⟨b, List.mem_append_left _ held, rfl⟩
    · rw [List.mem_singleton.mp inside]
      refine sends_single _ _ _ _ _ (sends_parts _ _ _ (by decide) rfl fun p mine => .inr ?_)
      exact ⟨wrapped, List.mem_append_right _ List.mem_cons_self, List.mem_singleton.mp mine⟩
  · intro x inside
    rw [List.mem_singleton.mp inside]
    exact List.mem_append_right _ List.mem_cons_self
  · exact answered_duplicate _ wrapped
      ⟨flushOf "" [partOf wrapped], .acks [Skip.duplicate.ack], []⟩ (by decide +kernel)
      ⟨0, partOf wrapped, rfl, rfl, rfl⟩
  · exact ⟨⟨by decide, by decide, by decide, by decide, by decide⟩, trivial⟩
  · intro op inside
    rw [List.mem_singleton.mp inside]
    intro x held
    rcases List.mem_cons.mp held with rfl | held
    · exact sends_parts _ _ _ (by decide) rfl fun p mine =>
        .inr ⟨firstTwo[0], first, List.mem_singleton.mp mine⟩
    · rw [List.mem_singleton.mp held]
      exact sends_parts _ _ _ (by decide) rfl fun p mine =>
        .inr ⟨firstTwo[1], second, List.mem_singleton.mp mine⟩
  · exact ⟨⟨by decide, by decide, by decide, by decide, by decide⟩, trivial⟩
  · intro op inside
    rw [List.mem_singleton.mp inside]
    refine sends_single _ _ _ _ _ (sends_parts _ _ _ (by decide) rfl fun p mine => ?_)
    rcases List.mem_cons.mp mine with rfl | mine
    · exact .inr ⟨firstTwo[0], first, rfl⟩
    · rcases List.mem_cons.mp mine with rfl | mine
      · exact .inl rfl
      · exact .inr ⟨firstTwo[0], first, List.mem_singleton.mp mine⟩
  · intro x inside
    rw [List.mem_singleton.mp inside]
    exact first
  · exact answered_duplicate _ firstTwo[0]
      ⟨flushOf "" [partOf firstTwo[0], ⟨"v", 1, 1, 1, none, none⟩, partOf firstTwo[0]],
        .retry [(2, Skip.duplicate.ack)], []⟩ (by decide +kernel)
      ⟨2, partOf firstTwo[0], rfl, rfl, List.mem_cons_self⟩

end cases

end Pondra.Kafka
