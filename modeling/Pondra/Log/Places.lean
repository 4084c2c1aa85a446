import Pondra.Log.Once

set_option autoImplicit false

namespace Pondra.Log

open Dicts Machines

/-! ### Rows' places -/

theorem le_foldr_max (numbers : List Nat) (n : Nat) (inside : n ∈ numbers) :
    n ≤ numbers.foldr max 0 := by
  induction numbers with
  | nil => exact absurd inside List.not_mem_nil
  | cons first rest ih =>
    rw [List.foldr_cons]
    rcases List.mem_cons.mp inside with rfl | inside
    · exact Nat.le_max_left _ _
    · exact (ih inside).trans (Nat.le_max_right _ _)

/-- A segment takes numbers enough for every table's rows in it. -/
theorem Segment.rows_lt (segment : Segment) (table : String) (row : Nat)
    (inside : row < segment.rows table) : row < segment.span * 2 ^ 24 := by
  have named : table ∈ segment.parts.keys ++ segment.files.keys := by
    by_contra absent
    rw [List.mem_append, not_or] at absent
    have parts : Shelf.of segment.parts table = [] := by
      rw [Shelf.of, AList.lookup_eq_none.mpr fun held => absent.1 (AList.mem_keys.mp held)]
      rfl
    have files : filedRows segment.files table = 0 := by
      rw [filedRows, AList.lookup_eq_none.mpr fun held => absent.2 (AList.mem_keys.mp held)]
      rfl
    have none : segment.rows table = 0 := by
      rw [Segment.rows, tableRows, parts, files]
      rfl
    omega
  have most := le_foldr_max _ _ (List.mem_map_of_mem
    (f := fun table => (tableRows segment.parts segment.files table - 1) >>> ordBits) named)
  have numbers : segment.span = 1 + ((segment.parts.keys ++ segment.files.keys).map fun table =>
      (tableRows segment.parts segment.files table - 1) >>> ordBits).foldr max 0 := rfl
  have rows : segment.rows table = tableRows segment.parts segment.files table := rfl
  rw [Nat.shiftRight_eq_div_pow] at most
  have bits : ordBits = 24 := rfl
  rw [bits] at most numbers
  generalize ((segment.parts.keys ++ segment.files.keys).map fun table =>
    (tableRows segment.parts segment.files table - 1) >>> 24).foldr max 0 = top at most numbers
  have whole := Nat.div_add_mod (tableRows segment.parts segment.files table - 1) (2 ^ 24)
  have part := Nat.mod_lt (tableRows segment.parts segment.files table - 1)
    (Nat.two_pow_pos 24)
  omega

/-- Below the bound on numbers a place is the number, then the row, and fits 64 bits. -/
theorem ord_eq (seg row span : Nat) (inside : row < span * 2 ^ 24) (small : seg + span ≤ 2 ^ 40) :
    ord seg row = seg * 2 ^ 24 + row := by
  have fits : seg * 2 ^ 24 + row < 2 ^ 64 := by omega
  have shifted : seg <<< ordBits = seg * 2 ^ 24 := Nat.shiftLeft_eq seg 24
  have inner : seg * 2 ^ 24 % 2 ^ 64 = seg * 2 ^ 24 := Nat.mod_eq_of_lt ((Nat.le_add_right _ _).trans_lt fits)
  rw [ord, shifted, inner, Nat.mod_eq_of_lt fits]

/-! ### Segments' numbers -/

/-- Segments one after another from `low` on, each taking its own numbers, below `high`. -/
def Spaced : Nat → List (Nat × Segment) → Nat → Prop
  | low, [], high => low ≤ high
  | low, seg :: rest, high => low ≤ seg.1 ∧ Spaced (seg.1 + seg.2.span) rest high

theorem Spaced.le {low high : Nat} {segs : List (Nat × Segment)} (spaced : Spaced low segs high) :
    low ≤ high := by
  induction segs generalizing low with
  | nil => exact spaced
  | cons seg rest ih =>
    have later := ih spaced.2
    have first := spaced.1
    omega

theorem Spaced.low {low lower high : Nat} {segs : List (Nat × Segment)}
    (spaced : Spaced low segs high) (under : lower ≤ low) : Spaced lower segs high := by
  cases segs with
  | nil => exact under.trans spaced
  | cons seg rest => exact ⟨under.trans spaced.1, spaced.2⟩

theorem Spaced.append {low mid high : Nat} {before after : List (Nat × Segment)}
    (first : Spaced low before mid) (second : Spaced mid after high) :
    Spaced low (before ++ after) high := by
  induction before generalizing low with
  | nil => exact second.low first
  | cons seg rest ih => exact ⟨first.1, ih first.2⟩

theorem Spaced.mem {low high : Nat} {segs : List (Nat × Segment)} (spaced : Spaced low segs high)
    (seg : Nat × Segment) (inside : seg ∈ segs) : low ≤ seg.1 ∧ seg.1 + seg.2.span ≤ high := by
  induction segs generalizing low with
  | nil => exact absurd inside List.not_mem_nil
  | cons first rest ih =>
    rcases List.mem_cons.mp inside with rfl | inside
    · exact ⟨spaced.1, spaced.2.le⟩
    · have later := ih spaced.2 inside
      have low' := spaced.1
      omega

/-- The places of a table's rows, segment after segment: its parts' rows, then its files'. -/
def tablePlaces (table : String) (segs : List (Nat × Segment)) : List Nat :=
  segs.flatMap fun seg => (List.range (seg.2.rows table)).map (ord seg.1)

/-- Below the bound on numbers, the places of a table's rows rise strictly. -/
theorem Spaced.places {low high : Nat} {segs : List (Nat × Segment)} (spaced : Spaced low segs high)
    (small : high ≤ 2 ^ 40) (table : String) :
    (tablePlaces table segs).Pairwise (· < ·) ∧ ∀ place ∈ tablePlaces table segs,
      low * 2 ^ 24 ≤ place := by
  induction segs generalizing low with
  | nil => exact ⟨List.Pairwise.nil, fun _ none => absurd none List.not_mem_nil⟩
  | cons seg rest ih =>
    obtain ⟨first, others⟩ := spaced
    obtain ⟨rises, above⟩ := ih others
    have bound := others.le
    have place (row : Nat) (inside : row < seg.2.rows table) :
        ord seg.1 row = seg.1 * 2 ^ 24 + row ∧ row < seg.2.span * 2 ^ 24 := by
      have low' := seg.2.rows_lt table row inside
      exact ⟨ord_eq seg.1 row seg.2.span low' (bound.trans small), low'⟩
    have whole : tablePlaces table (seg :: rest) =
        (List.range (seg.2.rows table)).map (ord seg.1) ++ tablePlaces table rest :=
      List.flatMap_cons
    rw [whole, List.pairwise_append]
    refine ⟨⟨?_, rises, ?_⟩, ?_⟩
    · rw [List.pairwise_map]
      refine List.Pairwise.imp_of_mem ?_ List.pairwise_lt_range
      intro a b inA inB less
      rw [(place a (List.mem_range.mp inA)).1, (place b (List.mem_range.mp inB)).1]
      omega
    · intro x inX y inY
      obtain ⟨row, inside, rfl⟩ := List.mem_map.mp inX
      obtain ⟨same, within⟩ := place row (List.mem_range.mp inside)
      have far := above y inY
      rw [Nat.add_mul] at far
      rw [same]
      exact (Nat.add_lt_add_left within _).trans_le far
    · intro x inX
      rcases List.mem_append.mp inX with mine | later
      · obtain ⟨row, inside, rfl⟩ := List.mem_map.mp mine
        rw [(place row (List.mem_range.mp inside)).1]
        exact (Nat.mul_le_mul_right _ first).trans (Nat.le_add_right _ _)
      · exact (Nat.mul_le_mul_right _ (first.trans (Nat.le_add_right _ _))).trans (above x later)

/-! ### One commit's segments -/

/-- What a flush adds to its commit's segments takes the numbers it moves past. -/
def Batch.Grows (b later : Batch) : Prop :=
  ∃ more, later.segs = b.segs ++ more ∧ Spaced b.next more later.next

theorem Batch.Grows.refl (b : Batch) : b.Grows b := ⟨[], by simp, Nat.le_refl _⟩

theorem Batch.Grows.trans {a b c : Batch} (first : a.Grows b) (second : b.Grows c) : a.Grows c := by
  obtain ⟨more, segs, spaced⟩ := first
  obtain ⟨others, segs', spaced'⟩ := second
  exact ⟨more ++ others, by rw [segs', segs, List.append_assoc], spaced.append spaced'⟩

theorem Handled.grows {s : Sequencer} {views : Inline} {b later : Batch} {seen : Seen} {f : Flush}
    (handled : Handled s views b seen f later) : b.Grows later := by
  have counted (next : Nat) (after : b.next ≤ next) (later : Batch) (segs : later.segs = b.segs)
      (numbers : later.next = next) : b.Grows later :=
    ⟨[], by rw [segs, List.append_nil], by rw [numbers]; exact after⟩
  cases handled with
  | counted op _ => exact counted (b.next + 1) (Nat.le_succ _) _ rfl rfl
  | reserved _ =>
    unfold Batch.reserve
    simp only
    split
    · exact counted (b.next + f.reserve) (Nat.le_add_right _ _) _ rfl rfl
    · exact counted b.next (Nat.le_refl _) _ rfl rfl
  | sentBack _ => exact counted b.next (Nat.le_refl _) _ rfl rfl
  | inAlready _ _ => exact counted b.next (Nat.le_refl _) _ rfl rfl
  | redone _ _ _ _ _ => exact counted b.next (Nat.le_refl _) _ rfl rfl
  | taken _ _ _ _ =>
    unfold Batch.take
    simp only
    split
    · exact counted b.next (Nat.le_refl _) _ rfl rfl
    · split
      · exact counted b.next (Nat.le_refl _) _ rfl rfl
      · exact ⟨[_], rfl, Nat.le_refl _, Nat.le_refl _⟩

theorem foldl_grows (s : Sequencer) (views : Inline) (batch : List (Seen × Flush)) (b : Batch) :
    b.Grows (batch.foldl (takeFlush s views) b) := by
  induction batch generalizing b with
  | nil => exact .refl b
  | cons x rest ih => exact (takeFlush_handled s views b x.1 x.2).grows.trans (ih _)

theorem finish_grows (b : Batch) (ms : Nat) : b.Grows (b.finish ms) := by
  unfold Batch.finish
  split
  · exact .refl b
  · exact ⟨[_], rfl, Nat.le_refl _, Nat.le_refl _⟩

theorem Sequencer.write_spaced (s : Sequencer) (config : Config) (env : Env)
    (batch : List (Seen × Flush)) :
    Spaced s.next (s.write config env batch).segs (s.write config env batch).n := by
  obtain ⟨more, segs, spaced⟩ := (foldl_grows (s.forget env) env.views batch
    ⟨s.next, s.block, ∅, [], [], ∅, [], [], [], [], [], none⟩).trans (finish_grows _ env.start)
  rw [List.nil_append] at segs
  have same : (s.write config env batch).segs = more := segs
  rw [same]
  exact spaced

/-! ### Runs -/

/-- Writes one after another, each numbering its segments from where the one before it ended. -/
def Numbered : Nat → List Write → Prop
  | _, [] => True
  | low, write :: rest => Spaced low write.segs write.n ∧ Numbered write.n rest

/-- The next number after some writes. -/
def nextAfter (low : Nat) (writes : List Write) : Nat := writes.foldl (fun _ write => write.n) low

theorem numbered_append (low : Nat) (before after : List Write) :
    Numbered low (before ++ after) ↔ Numbered low before ∧ Numbered (nextAfter low before) after := by
  induction before generalizing low with
  | nil => simp [Numbered, nextAfter]
  | cons write rest ih =>
    rw [List.cons_append, Numbered, Numbered, ih, and_assoc]
    rfl

theorem Numbered.spaced {low : Nat} {writes : List Write} (numbered : Numbered low writes) :
    Spaced low (writes.flatMap (·.segs)) (nextAfter low writes) := by
  induction writes generalizing low with
  | nil => exact Nat.le_refl low
  | cons write rest ih =>
    rw [List.flatMap_cons]
    exact numbered.1.append (ih numbered.2)

/-- The sequencer's next number is the catalog's, and every write's segments have their own numbers. -/
structure Sequencer.Numbers (s : Sequencer) : Prop where
  next : s.next = nextAfter (s.base.n.getD 1) s.wrote
  wrote : Numbered (s.base.n.getD 1) s.wrote

theorem foldl_n (writes : List Write) (catalog : Catalog) :
    (writes.foldl Catalog.apply catalog).n.getD 1 = nextAfter (catalog.n.getD 1) writes := by
  induction writes generalizing catalog with
  | nil => rfl
  | cons write rest ih =>
    rw [List.foldl_cons, ih]
    rfl

theorem start_numbers (base : Catalog) (wrote : List Write) (now : Nat)
    (numbered : Numbered (base.n.getD 1) wrote) : (Sequencer.start base wrote now).Numbers :=
  ⟨foldl_n wrote base, numbered⟩

theorem step_numbers (config : Config) (s : Sequencer) (op : Op) (numbers : s.Numbers) :
    (s.step config op).Numbers := by
  cases op with
  | restart kept now =>
    refine start_numbers s.base (s.wrote.take kept) now ?_
    have all := numbers.wrote
    rw [← List.take_append_drop kept s.wrote] at all
    exact ((numbered_append _ _ _).mp all).1
  | commit env batch =>
    show (s.commit config env batch).Numbers
    cases open' : env.frozen with
    | true =>
      unfold Sequencer.commit
      rw [if_pos open']
      exact ⟨numbers.next, numbers.wrote⟩
    | false =>
      rw [s.commit_eq config env batch open']
      refine ⟨?_, (numbered_append _ _ _).mpr ⟨numbers.wrote, ?_, trivial⟩⟩
      · show _ = nextAfter _ (s.wrote ++ [s.write config env batch])
        rw [nextAfter, List.foldl_append]
        rfl
      · rw [← numbers.next]
        exact s.write_spaced config env batch

/-! ### Where an acked part is -/

/-- A segment's parts hold this one: the rows of its table before it are `row` many, and its bytes are
a range of the flush's object, or the part's own of what the segment holds inline. -/
def Holds (path : String) (parts : Shelf) (bytes : List UInt8) (f : Flush) (p : Part) (row : Nat) :
    Prop :=
  path = f.path ∧ ∃ before entry after, parts.of p.table = before ++ entry :: after ∧
    rowsOf before = row ∧ entry.len = p.len ∧ entry.rows = p.rows ∧ entry.src = p.src ∧
    if path = "" then p.off + p.len ≤ f.data.length →
      (bytes.drop entry.off).take entry.len = (f.data.drop p.off).take p.len
    else entry.off = p.off

/-- One of these segments has this number, and holds the part. -/
def Names (segs : List (Nat × Segment)) (data : List (Nat × List UInt8)) (f : Flush) (p : Part)
    (ack : Ack) : Prop :=
  ∃ segment, (ack.seg, segment) ∈ segs ∧
    Holds segment.path segment.parts ((data.lookup ack.seg).getD []) f p ack.row

/-- A file commit that is in already takes nothing: some part is told why, the others name no segment. -/
def Answer.inAlready (a : Answer) (acks : List Ack) (ack : Ack) : Prop :=
  a.flush.filed ≠ [] ∧ a.taken = [] ∧ ack.seg = 0 ∧ ∃ other ∈ acks, other.skipped = true

/-- Each part with rows that the answer doesn't skip is where its ack has it. -/
def Answer.Placed (a : Answer) (placed : Flush → Part → Ack → Prop) : Prop :=
  ∀ acks, a.outcome = .acks acks → a.flush.Rows → ∀ part ∈ a.flush.parts.zipIdx, ∀ ack,
    acks[part.2]? = some ack → ack.skipped = false → 0 < part.1.rows →
      placed a.flush part.1 ack ∨ a.inAlready acks ack

theorem Answer.Placed.imp {a : Answer} {placed other : Flush → Part → Ack → Prop}
    (held : a.Placed placed) (more : ∀ p ack, placed a.flush p ack → other a.flush p ack) :
    a.Placed other :=
  fun acks outcome rows part inside ack found fine some =>
    (held acks outcome rows part inside ack found fine some).imp_left (more _ _)

/-- While a commit looks at its flushes: in a segment made already, or in the inline one to come. -/
def Batch.Places (b : Batch) : Prop :=
  (∀ record ∈ b.data, record.1 < b.next) ∧ (∀ seg ∈ b.segs, seg.1 < b.next) ∧
  ∀ a ∈ b.answers, a.Placed fun f p ack => Names b.segs b.data f p ack ∨
    ack.seg = u64Max ∧ Holds "" b.inlineParts b.inlined f p ack.row

theorem slice_append (bytes more slice : List UInt8) (off len : Nat)
    (same : (bytes.drop off).take len = slice) (whole : slice.length = len) :
    ((bytes ++ more).drop off).take len = slice := by
  have within : len ≤ (bytes.drop off).length := by
    have short := congrArg List.length same
    rw [List.length_take, whole] at short
    omega
  rw [List.drop_append, List.take_append_of_le_length within, same]

/-- What is inline stays where it is as more is added. -/
theorem Holds.extend {parts more : Shelf} {bytes data : List UInt8} {f : Flush} {p : Part} {row : Nat}
    (holds : Holds "" parts bytes f p row) :
    Holds "" (Shelf.extend parts more) (bytes ++ data) f p row := by
  obtain ⟨path, before, entry, after, split, rows, len, count, src, range⟩ := holds
  refine ⟨path, before, entry, after ++ Shelf.of more p.table, ?_, rows, len, count, src, ?_⟩
  · rw [Shelf.of_extend, split, List.append_assoc, List.cons_append]
  · rw [if_pos rfl] at range ⊢
    intro inside
    refine slice_append _ _ _ _ _ (range inside) ?_
    rw [List.length_take, List.length_drop, len]
    omega

/-! ### Where a flush's parts are laid -/

/-- Once some parts are laid, those before are where they were, and each of these has its place. -/
theorem foldl_layPart_places (base : Nat) (before : String → Nat) (parts : List (Part × Nat))
    (laid : Laid) (once : (parts.map Prod.snd).Nodup)
    (new : ∀ part ∈ parts, laid.rows.lookup part.2 = none) :
    let later := parts.foldl (layPart base before) laid
    (∀ table, ∃ more, Shelf.of later.parts table = Shelf.of laid.parts table ++ more) ∧
    (∀ i row, laid.rows.lookup i = some row → later.rows.lookup i = some row) ∧
    ∀ part ∈ parts, ∃ ahead after,
      Shelf.of later.parts part.1.table =
        ahead ++ ⟨base + part.1.off, part.1.len, part.1.rows, part.1.src⟩ :: after ∧
      later.rows.lookup part.2 = some (before part.1.table + rowsOf ahead) := by
  induction parts generalizing laid with
  | nil => exact ⟨fun _ => ⟨[], by simp⟩, fun _ _ held => held, fun _ none => absurd none List.not_mem_nil⟩
  | cons part rest ih =>
    obtain ⟨alone, once⟩ := List.nodup_cons.mp once
    have rows (i : Nat) : (layPart base before laid part).rows.lookup i =
        (laid.rows.lookup i).or (if i = part.2 then
          some (before part.1.table + rowsOf (Shelf.of laid.parts part.1.table)) else none) := by
      show (laid.rows ++ [_]).lookup i = _
      rw [List.lookup_append]
      congr 1
      by_cases same : i = part.2
      · subst same
        simp
      · rw [List.lookup_cons, beq_false_of_ne same, if_neg same]
        rfl
    have shelf (table : String) : Shelf.of (layPart base before laid part).parts table =
        Shelf.of laid.parts table ++ if table = part.1.table then
          [⟨base + part.1.off, part.1.len, part.1.rows, part.1.src⟩] else [] := by
      show Shelf.of (Shelf.push laid.parts part.1.table _) table = _
      rw [Shelf.of_push]
      split
      · rfl
      · rw [List.append_nil]
    obtain ⟨grown, kept, placed⟩ := ih (layPart base before laid part) once fun other inside => by
      have differs : other.2 ≠ part.2 := fun same => alone (same ▸ List.mem_map_of_mem inside)
      rw [rows, new other (List.mem_cons_of_mem _ inside), if_neg differs]
      rfl
    rw [List.foldl_cons]
    refine ⟨fun table => ?_, fun i row held => ?_, fun other inside => ?_⟩
    · obtain ⟨more, all⟩ := grown table
      rw [all, shelf, List.append_assoc]
      exact ⟨_, rfl⟩
    · refine kept i row ?_
      rw [rows, held]
      rfl
    · rcases List.mem_cons.mp inside with rfl | inside
      · obtain ⟨more, all⟩ := grown other.1.table
        refine ⟨Shelf.of laid.parts other.1.table, more, ?_, ?_⟩
        · rw [all, shelf, if_pos rfl, List.append_assoc]
          rfl
        · refine kept _ _ ?_
          rw [rows, new other List.mem_cons_self, if_pos rfl]
          rfl
      · exact placed other inside

/-- A part that a flush is taken with, and its ack. -/
theorem acks_good (f : Flush) (bad : List (Nat × Skip)) (rows : List (Nat × Nat)) (seg : Nat)
    (part : Part × Nat) (inside : part ∈ f.parts.zipIdx) (ack : Ack)
    (found : (f.acks bad rows seg)[part.2]? = some ack) (fine : ack.skipped = false) :
    part ∈ f.good bad ∧ ack.seg = seg ∧ ack.row = (rows.lookup part.2).getD 0 := by
  rw [acks_at f bad rows seg part inside, Option.some.injEq] at found
  subst found
  cases skipped : bad.lookup part.2 with
  | none => exact ⟨List.mem_filter.mpr ⟨inside, by rw [skipped]; rfl⟩, rfl, rfl⟩
  | some skip =>
    rw [skipped] at fine
    cases (Skip.ack_skipped skip).symm.trans fine

/-- A flush with parts to do without tells one of them so. -/
theorem acks_bad (s : Sequencer) (seen : Seen) (seqs : Dict String Nat) (f : Flush)
    (bad : s.bad seen seqs f ≠ []) (rows : List (Nat × Nat)) (seg : Nat) :
    ∃ ack ∈ f.acks (s.bad seen seqs f) rows seg, ack.skipped = true := by
  obtain ⟨skipped, rest, all⟩ := List.exists_cons_of_ne_nil bad
  obtain ⟨part, inside, same, _⟩ := s.bad_sent seen seqs f skipped (by rw [all]; simp)
  have told := acks_at f (s.bad seen seqs f) rows seg part inside
  have why : (s.bad seen seqs f).lookup part.2 = some skipped.2 := by
    rw [all, same]
    exact List.lookup_cons_self
  rw [why] at told
  exact ⟨_, List.mem_of_getElem? told, Skip.ack_skipped _⟩

theorem of_entries (shelf : Shelf) (empty : shelf.entries = []) (table : String) :
    Shelf.of shelf table = [] := by
  show (shelf.entries.dlookup table).getD [] = []
  rw [empty]
  rfl

theorem span_pos (parts : Shelf) (files : Dict String Filed) : 0 < span parts files :=
  Nat.lt_add_right _ Nat.zero_lt_one

/-- Where the parts of a flush are among those laid of it. -/
theorem laid_places (b : Batch) (f : Flush) (bad : List (Nat × Skip)) (part : Part × Nat)
    (good : part ∈ f.good bad) (some : 0 < part.1.rows) :
    ∃ before after, Shelf.of (b.laid f bad).parts part.1.table =
        before ++ ⟨(if Batch.inline f then b.inlined.length else 0) + part.1.off, part.1.len,
          part.1.rows, part.1.src⟩ :: after ∧
      ((b.laid f bad).rows.lookup part.2).getD 0 =
        (if Batch.inline f then rowsOf (Shelf.of b.inlineParts part.1.table) else 0) +
          rowsOf before := by
  have once : ((f.good bad).filter fun part => decide (0 < part.1.rows)).map Prod.snd |>.Nodup :=
    (zipIdx_nodup f).sublist ((List.filter_sublist.trans List.filter_sublist).map _)
  obtain ⟨_, _, placed⟩ := foldl_layPart_places _ _ _ ⟨∅, []⟩ once fun _ _ => rfl
  obtain ⟨before, after, split, row⟩ := placed part
    (List.mem_filter.mpr ⟨good, decide_eq_true some⟩)
  refine ⟨before, after, split, ?_⟩
  have at' : (b.laid f bad).rows.lookup part.2 = _ := row
  rw [at']
  rfl

/-! ### Where a commit's parts are -/

theorem lookup_more (data : List (Nat × List UInt8)) (next seg : Nat) (bytes : List UInt8)
    (other : seg ≠ next) : (data ++ [(next, bytes)]).lookup seg = data.lookup seg := by
  rw [List.lookup_append, List.lookup_cons, beq_false_of_ne other]
  exact Option.or_none

theorem lookup_none (data : List (Nat × List UInt8)) (next : Nat)
    (old : ∀ record ∈ data, record.1 < next) : data.lookup next = none := by
  rw [List.lookup_eq_none_iff]
  intro record inside
  simpa using Nat.ne_of_gt (old record inside)

theorem lookup_new (data : List (Nat × List UInt8)) (next : Nat) (bytes : List UInt8)
    (old : ∀ record ∈ data, record.1 < next) :
    (data ++ [(next, bytes)]).lookup next = some bytes := by
  rw [List.lookup_append, lookup_none _ _ old, List.lookup_cons_self]
  rfl

/-- A segment made before, with its data, is there still. -/
theorem Names.later {segs more : List (Nat × Segment)} {data grown : List (Nat × List UInt8)}
    {next : Nat} {f : Flush} {p : Part} {ack : Ack} (old : ∀ seg ∈ segs, seg.1 < next)
    (same : ∀ seg, seg < next → grown.lookup seg = data.lookup seg)
    (names : Names segs data f p ack) : Names (segs ++ more) grown f p ack := by
  obtain ⟨segment, inside, holds⟩ := names
  refine ⟨segment, List.mem_append_left _ inside, ?_⟩
  rw [same ack.seg (old _ inside)]
  exact holds

/-- The data of a flush's own segment, if it is inline. -/
theorem segment_lookup (b : Batch) (ms : Nat) (f : Flush) (laid : Laid)
    (old : ∀ record ∈ b.data, record.1 < b.next) :
    (f.path = "" → ((b.segment ms f laid).data.lookup b.next).getD [] = f.data) ∧
      ∀ seg, seg < b.next → (b.segment ms f laid).data.lookup seg = b.data.lookup seg := by
  unfold Batch.segment
  simp only
  split
  · refine ⟨fun _ => ?_, fun seg under => lookup_more _ _ _ _ (Nat.ne_of_lt under)⟩
    rw [lookup_new _ _ _ old]
    rfl
  · rename_i none
    refine ⟨fun path => ?_, fun _ _ => rfl⟩
    have empty : f.data = [] := by
      by_contra some
      exact none ⟨path, some⟩
    rw [lookup_none _ _ old, empty]
    rfl

theorem segment_data (b : Batch) (ms : Nat) (f : Flush) (laid : Laid) (record : Nat × List UInt8)
    (inside : record ∈ (b.segment ms f laid).data) : record ∈ b.data ∨ record.1 = b.next := by
  unfold Batch.segment at inside
  simp only at inside
  split at inside
  · rcases List.mem_append.mp inside with old | new
    · exact .inl old
    · exact .inr (congrArg Prod.fst (List.mem_singleton.mp new))
  · exact .inl inside

theorem segment_segs (b : Batch) (ms : Nat) (f : Flush) (laid : Laid) :
    ∃ segment : Segment, (b.segment ms f laid).segs = b.segs ++ [(b.next, segment)] ∧
      segment.path = f.path ∧ segment.parts = laid.parts :=
  ⟨_, rfl, rfl, rfl⟩

/-- An object flush's or a file commit's parts are in its own segment. -/
theorem segment_places (b : Batch) (ms : Nat) (f : Flush) (bad : List (Nat × Skip))
    (places : b.Places) (own : Batch.inline f = false) (part : Part × Nat)
    (good : part ∈ f.good bad) (some : 0 < part.1.rows) (ack : Ack) (seg : ack.seg = b.next)
    (row : ack.row = ((b.laid f bad).rows.lookup part.2).getD 0) :
    Names (b.segment ms f (b.laid f bad)).segs (b.segment ms f (b.laid f bad)).data f part.1 ack := by
  obtain ⟨before, after, split, starts⟩ := laid_places b f bad part good some
  rw [own, if_neg Bool.false_ne_true, Nat.zero_add] at split starts
  obtain ⟨segment, segs, path, parts⟩ := segment_segs b ms f (b.laid f bad)
  rw [← parts] at split
  refine ⟨segment, ?_, path, before, ⟨part.1.off, part.1.len, part.1.rows, part.1.src⟩, after, split,
    ?_, rfl, rfl, rfl, ?_⟩
  · rw [segs, seg]
    exact List.mem_append_right _ (List.mem_singleton_self _)
  · rw [row, starts]
  · rw [path]
    split
    · rename_i path
      intro _
      rw [seg, (segment_lookup b ms f _ places.1).1 path]
    · rfl

/-- An inline flush's parts are after what is inline already. -/
theorem inline_places (b : Batch) (f : Flush) (bad : List (Nat × Skip)) (own : Batch.inline f = true)
    (part : Part × Nat) (good : part ∈ f.good bad) (some : 0 < part.1.rows) (row : Nat)
    (at' : row = ((b.laid f bad).rows.lookup part.2).getD 0) :
    Holds "" (Shelf.extend b.inlineParts (b.laid f bad).parts) (b.inlined ++ f.data) f part.1 row := by
  obtain ⟨before, after, split, starts⟩ := laid_places b f bad part good some
  rw [own, if_pos rfl] at split starts
  have path : "" = f.path := (of_decide_eq_true own).1.symm
  refine ⟨path, Shelf.of b.inlineParts part.1.table ++ before,
    ⟨b.inlined.length + part.1.off, part.1.len, part.1.rows, part.1.src⟩, after, ?_, ?_,
    rfl, rfl, rfl, ?_⟩
  · rw [Shelf.of_extend, split, List.append_assoc]
  · rw [rowsOf_append, at', starts]
  · rw [if_pos rfl]
    intro _
    show ((b.inlined ++ f.data).drop (b.inlined.length + part.1.off)).take part.1.len = _
    rw [List.drop_length_add_append]

theorem Handled.places {s : Sequencer} {views : Inline} {b later : Batch} {seen : Seen} {f : Flush}
    (handled : Handled s views b seen f later) (places : b.Places) : later.Places := by
  have added (next : Batch) (outcome : Outcome) (taken : List (Part × Nat))
      (data : next.data = b.data) (segs : next.segs = b.segs) (parts : next.inlineParts = b.inlineParts)
      (inlined : next.inlined = b.inlined) (numbers : b.next ≤ next.next)
      (answers : next.answers = b.answers ++ [⟨f, outcome, taken⟩])
      (new : Answer.Placed ⟨f, outcome, taken⟩ fun _ _ _ => False) : next.Places := by
    refine ⟨?_, ?_, ?_⟩
    · rw [data]
      exact fun record inside => (places.1 record inside).trans_le numbers
    · rw [segs]
      exact fun seg inside => (places.2.1 seg inside).trans_le numbers
    · rw [answers, data, segs, parts, inlined]
      intro a inside
      rcases List.mem_append.mp inside with old | last
      · exact places.2.2 a old
      · rw [List.mem_singleton.mp last]
        exact new.imp fun _ _ => False.elim
  have sent (skipped : List (Nat × Ack)) : (b.answer f (.retry skipped) []).Places :=
    added _ _ _ rfl rfl rfl rfl (Nat.le_refl _) rfl fun _ none => by cases none
  cases handled with
  | counted op asks =>
    refine added _ _ _ rfl rfl rfl rfl (Nat.le_succ _) rfl fun _ _ rows => ?_
    rw [rows.1] at asks
    cases asks
  | reserved asks =>
    unfold Batch.reserve
    simp only
    split
    · exact added _ _ _ rfl rfl rfl rfl (Nat.le_add_right _ _) rfl fun _ _ rows =>
        absurd asks rows.2
    · exact added _ _ _ rfl rfl rfl rfl (Nat.le_refl _) rfl fun _ none => by cases none
  | sentBack _ => exact sent _
  | redone _ _ _ _ _ => exact sent _
  | inAlready bad files =>
    refine added _ _ _ rfl rfl rfl rfl (Nat.le_refl _) rfl ?_
    intro acks same _ part inside ack found fine _
    obtain rfl := Outcome.acks.inj same
    obtain ⟨_, seg, _⟩ := acks_good f _ _ _ part inside ack found fine
    exact .inr ⟨files, rfl, seg, acks_bad s seen b.seqs f bad [] 0⟩
  | taken _ _ _ _ =>
    have own (seg : Nat) (placed : Flush → Part → Ack → Prop)
        (here : ∀ part ∈ f.good (s.bad seen b.seqs f), 0 < part.1.rows → ∀ ack, ack.seg = seg →
          ack.row = ((b.laid f (s.bad seen b.seqs f)).rows.lookup part.2).getD 0 →
            placed f part.1 ack) :
        Answer.Placed ⟨f, .acks (f.acks (s.bad seen b.seqs f)
          (b.laid f (s.bad seen b.seqs f)).rows seg), f.good (s.bad seen b.seqs f)⟩ placed := by
      intro acks same _ part inside ack found fine some
      obtain rfl := Outcome.acks.inj same
      obtain ⟨good, number, row⟩ := acks_good f _ _ _ part inside ack found fine
      exact .inl (here part good some ack number row)
    unfold Batch.take
    simp only
    split
    · rename_i empty
      refine added _ _ _ rfl rfl rfl rfl (Nat.le_refl _) rfl (own 0 _ ?_)
      intro part good some _ _ _
      obtain ⟨before, after, split, _⟩ := laid_places b f _ part good some
      have none := congrArg List.length (split.symm.trans (of_entries _ empty.1 part.1.table))
      simp at none
    · split
      · rename_i mine
        refine ⟨places.1, places.2.1, fun a inside => ?_⟩
        rcases List.mem_append.mp inside with old | last
        · exact (places.2.2 a old).imp fun p ack => Or.imp_right fun ⟨seg, holds⟩ =>
            ⟨seg, holds.extend⟩
        · rw [List.mem_singleton.mp last]
          exact own u64Max _ fun part good some ack seg row =>
            .inr ⟨seg, inline_places b f _ mine part good some ack.row row⟩
      · rename_i mine
        have after : b.next < (b.segment seen.ms f (b.laid f (s.bad seen b.seqs f))).next :=
          Nat.lt_add_of_pos_right (span_pos _ _)
        refine ⟨fun record inside => ?_, fun seg inside => ?_, fun a inside => ?_⟩
        · rcases segment_data b seen.ms f (b.laid f (s.bad seen b.seqs f)) record inside with old | new
          · exact (places.1 record old).trans after
          · exact new.trans_lt after
        · rcases List.mem_append.mp inside with old | new
          · exact (places.2.1 seg old).trans after
          · rw [List.mem_singleton.mp new]
            exact after
        · rcases List.mem_append.mp inside with old | last
          · exact (places.2.2 a old).imp fun p ack => Or.imp_left fun names =>
              names.later places.2.1
                (segment_lookup b seen.ms f (b.laid f (s.bad seen b.seqs f)) places.1).2
          · rw [List.mem_singleton.mp last]
            exact own b.next _ fun part good some ack seg row =>
              .inl (segment_places b seen.ms f _ places (Bool.not_eq_true _ ▸ mine) part good some
                ack seg row)

theorem foldl_places (s : Sequencer) (views : Inline) (batch : List (Seen × Flush)) (b : Batch)
    (places : b.Places) : (batch.foldl (takeFlush s views) b).Places := by
  induction batch generalizing b with
  | nil => exact places
  | cons x rest ih => exact ih _ ((takeFlush_handled s views b x.1 x.2).places places)

@[simp] theorem number_skipped (ack : Ack) (seg : Nat) : (ack.number seg).skipped = ack.skipped := by
  unfold Ack.number
  split
  · rfl
  · rfl

/-- Once a commit's inline segment has its number, its acks name it. -/
theorem finish_places (b : Batch) (ms : Nat) (places : b.Places) (small : b.next ≤ u64Max)
    (a : Answer) (inside : a ∈ (b.finish ms).answers) :
    a.Placed fun f p ack => Names (b.finish ms).segs (b.finish ms).data f p ack := by
  unfold Batch.finish at inside ⊢
  split
  · rename_i empty
    rw [if_pos empty] at inside
    refine (places.2.2 a inside).imp fun p ack => ?_
    rintro (names | ⟨_, _, before, entry, after, split, _⟩)
    · exact names
    · rw [of_entries _ empty] at split
      simp at split
  · rename_i some
    rw [if_neg some] at inside
    obtain ⟨old, held, rfl⟩ := List.mem_map.mp inside
    intro acks outcome rows part at' ack found fine some
    rw [number_flush] at rows at'
    have placed := places.2.2 old held
    cases told : old.outcome with
    | retry _ =>
      rw [Answer.number, told] at outcome
      cases told.symm.trans outcome
    | refused _ =>
      rw [Answer.number, told] at outcome
      cases told.symm.trans outcome
    | acks before =>
      rw [Answer.number, told] at outcome
      obtain rfl := Outcome.acks.inj outcome
      rw [List.getElem?_map] at found
      obtain ⟨was, first, rfl⟩ := Option.map_eq_some_iff.mp found
      rw [number_skipped] at fine
      rcases placed before told rows part at' was first fine some with named | already
      · refine .inl ?_
        rcases named with names | ⟨sentinel, holds⟩
        · have other : was.seg ≠ u64Max := by
            obtain ⟨_, held, _⟩ := names
            exact Nat.ne_of_lt ((places.2.1 _ held).trans_le small)
          rw [Ack.number, if_neg other, number_flush]
          exact names.later places.2.1 fun seg under => lookup_more _ _ _ _ (Nat.ne_of_lt under)
        · rw [Ack.number, if_pos sentinel, number_flush]
          refine ⟨_, List.mem_append_right _ (List.mem_singleton_self _), ?_⟩
          rw [lookup_new _ _ _ places.1]
          exact holds
      · obtain ⟨files, none, seg, other, inside, skipped⟩ := already
        refine .inr ⟨?_, ?_, ?_, other.number b.next, List.mem_map_of_mem inside, ?_⟩
        · rwa [number_flush]
        · rwa [number_taken]
        · rw [Ack.number, if_neg (by rw [seg]; decide)]
          exact seg
        · rw [number_skipped]
          exact skipped

/-- Every answer of a write has its parts where it tells. -/
def Write.Placed (write : Write) : Prop :=
  ∀ a ∈ write.answers, a.Placed fun f p ack => Names write.segs write.data f p ack

theorem Sequencer.write_placed (s : Sequencer) (config : Config) (env : Env)
    (batch : List (Seen × Flush)) (small : (s.write config env batch).n ≤ 2 ^ 40) :
    (s.write config env batch).Placed := by
  intro a inside
  have places := foldl_places (s.forget env) env.views batch
    ⟨s.next, s.block, ∅, [], [], ∅, [], [], [], [], [], none⟩
    ⟨fun _ none => absurd none List.not_mem_nil, fun _ none => absurd none List.not_mem_nil,
      fun _ none => absurd none List.not_mem_nil⟩
  refine finish_places (s.upTo env batch) env.start places ?_ a inside
  obtain ⟨_, _, spaced⟩ := finish_grows (s.upTo env batch) env.start
  have numbers : (s.upTo env batch).next ≤ 2 ^ 40 := spaced.le.trans small
  exact numbers.trans (by decide)

/-! ### Where all runs' rows are -/

theorem Numbered.le {low : Nat} {writes : List Write} (numbered : Numbered low writes) :
    low ≤ nextAfter low writes :=
  numbered.spaced.le

theorem Numbered.n_le {low : Nat} {writes : List Write} (numbered : Numbered low writes)
    (write : Write) (inside : write ∈ writes) : write.n ≤ nextAfter low writes := by
  induction writes generalizing low with
  | nil => exact absurd inside List.not_mem_nil
  | cons first rest ih =>
    rcases List.mem_cons.mp inside with rfl | inside
    · exact numbered.2.le
    · exact ih numbered.2 inside

theorem Spaced.rises {low high : Nat} {segs : List (Nat × Segment)} (spaced : Spaced low segs high) :
    (segs.map Prod.fst).Pairwise (· < ·) := by
  induction segs generalizing low with
  | nil => exact List.Pairwise.nil
  | cons seg rest ih =>
    rw [List.map_cons, List.pairwise_cons]
    refine ⟨fun number inside => ?_, ih spaced.2⟩
    obtain ⟨other, held, rfl⟩ := List.mem_map.mp inside
    have after := (spaced.2.mem other held).1
    have some := span_pos seg.2.parts seg.2.files
    rw [Segment.span] at after
    omega

theorem step_placed (config : Config) (s : Sequencer) (op : Op)
    (placed : ∀ write ∈ s.wrote, write.n ≤ 2 ^ 40 → write.Placed) :
    ∀ write ∈ (s.step config op).wrote, write.n ≤ 2 ^ 40 → write.Placed := by
  cases op with
  | restart kept now => exact fun write inside => placed write (List.mem_of_mem_take inside)
  | commit env batch =>
    show ∀ write ∈ (s.commit config env batch).wrote, _
    cases open' : env.frozen with
    | true =>
      unfold Sequencer.commit
      rw [if_pos open']
      exact placed
    | false =>
      rw [s.commit_eq config env batch open']
      intro write inside
      rcases List.mem_append.mp inside with old | new
      · exact placed write old
      · rw [List.mem_singleton.mp new]
        exact s.write_placed config env batch

/-- While commit numbers fit the places' bits: segments' numbers and every table's places rise, and each
acked part is where its ack has it. -/
theorem run_places (config : Config) (base : Catalog) (now : Nat) (ops : List Op)
    (legal : (sequencer config).Legal (Sequencer.start base [] now) ops)
    (small : ((sequencer config).run (Sequencer.start base [] now) ops).next ≤ 2 ^ 40) :
    let writes := ((sequencer config).run (Sequencer.start base [] now) ops).wrote
    ((writes.flatMap (·.segs)).map Prod.fst).Pairwise (· < ·) ∧
      (∀ table, (tablePlaces table (writes.flatMap (·.segs))).Pairwise (· < ·)) ∧
      ∀ write ∈ writes, write.Placed := by
  have numbers := (sequencer config).run_invariant Sequencer.Numbers
    (fun s op numbers _ => step_numbers config s op numbers) _ ops
    (start_numbers base [] now trivial) legal
  have placed := (sequencer config).run_invariant
    (fun s => ∀ write ∈ s.wrote, write.n ≤ 2 ^ 40 → write.Placed)
    (fun s op placed _ => step_placed config s op placed) _ ops
    (fun _ none => absurd none List.not_mem_nil) legal
  rw [numbers.next] at small
  have spaced := numbers.wrote.spaced
  exact ⟨spaced.rises, fun table => (spaced.places small table).1, fun write inside =>
    placed write inside ((numbers.wrote.n_le write inside).trans small)⟩

section runs

/-- An object flush of one row more than a number has places for. -/
def longFlush : Flush :=
  ⟨"o1", [⟨"t", 0, 9, 2 ^ 24 + 1, some ⟨"sql:b", 1, none⟩, none⟩], [], 0, false, 0, [], none, false⟩

/-- Some numbers, a long object flush and two inline ones in one commit, and one more after them. -/
def mixedRun : List Op :=
  [.commit (plainEnv 0 0) [(plainSeen 0, ⟨"", [], [], 3, false, 0, [], none, false⟩),
      (plainSeen 0, oneRow "sql:a" 1), (plainSeen 0, longFlush), (plainSeen 0, oneRow "sql:a" 2)],
    .commit (plainEnv 0 1) [(plainSeen 0, oneRow "sql:a" 3)]]

theorem mixedRun_legal :
    (sequencer usual).Legal (Sequencer.start emptyCatalog [] 0) mixedRun :=
  ⟨⟨by decide, by decide, by decide, by decide, by decide⟩,
    ⟨by decide, by decide, by decide, by decide, by decide⟩, trivial⟩

/-- The rows of a table rise over a segment of two numbers and the inline ones. -/
theorem mixedRun_places :
    (tablePlaces "t" (((sequencer usual).run (Sequencer.start emptyCatalog [] 0) mixedRun).wrote.flatMap
      (·.segs))).Pairwise (· < ·) :=
  (run_places usual emptyCatalog 0 mixedRun mixedRun_legal (by decide)).2.1 "t"

end runs

end Pondra.Log
