import Pondra.Log.Once
import Pondra.Log.Places
import Pondra.Log.Resend

set_option autoImplicit false

namespace Pondra.Log

open Dicts Ladders Machines

/-! ### Producers whose marks are kept for good -/

/-- What holds of a producer whose mark is kept for good, over restarts too. -/
structure Sequencer.Lasting (s : Sequencer) (foot : Nat) (producer : String) : Prop where
  once : s.Once foot producer
  marks : ∀ n ≤ s.wrote.length, ((s.copy n).marks.lookup producer).getD 0 =
    top (·.seq) foot (takenOf producer ((s.wrote.take n).flatMap (·.answers)))
  unkeyed : ∀ n ≤ s.wrote.length, ∀ key seq,
    (s.copy n).expiries.lookup key = some seq → key.producer ≠ producer

namespace Sequencer.Lasting

variable {s : Sequencer} {foot : Nat} {producer : String}

/-- No key of it is ever due. -/
theorem undue (lasting : s.Lasting foot producer) (config : Config) (env : Env)
    (batch : List (Seen × Flush)) (allowed : s.Allows (.commit env batch)) :
    ∀ mark ∈ s.due config env.now env.copy, mark.1.producer ≠ producer := by
  intro mark inside
  exact lasting.unkeyed env.copy allowed.2.2.2.1 mark.1 mark.2
    (s.due_mem config env.now env.copy mark inside).1

theorem commit (lasting : s.Lasting foot producer) (named : producer ≠ "") (config : Config)
    (env : Env) (batch : List (Seen × Flush)) (allowed : s.Allows (.commit env batch))
    (good : keptMs config producer env.now = 0)
    (spares : Op.Spares producer (.commit env batch)) :
    (s.commit config env batch).Lasting foot producer := by
  have once := lasting.once.commit named config env batch allowed
    (lasting.undue config env batch allowed) spares
  cases open' : env.frozen with
  | true =>
    rw [s.commit_frozen config env batch open'] at once ⊢
    exact ⟨once, lasting.marks, lasting.unkeyed⟩
  | false =>
    have wrote : (s.commit config env batch).wrote = s.wrote ++ [s.write config env batch] := by
      rw [s.commit_eq config env batch open']
    have long : (s.commit config env batch).wrote.length = s.wrote.length + 1 := by
      rw [wrote]
      simp
    refine ⟨once, fun n within => ?_, fun n within key seq found => ?_⟩
    · by_cases old : n ≤ s.wrote.length
      · rw [s.copy_commit config env batch n old, wrote, List.take_append_of_le_length old]
        exact lasting.marks n old
      · have all : n = (s.commit config env batch).wrote.length := by omega
        rw [all, copy_full, List.take_length]
        exact once.mark
    · by_cases old : n ≤ s.wrote.length
      · rw [s.copy_commit config env batch n old] at found
        exact lasting.unkeyed n old key seq found
      · have last : n = s.wrote.length + 1 := by omega
        rw [last, s.copy_last config env batch open', apply_expiries] at found
        split at found
        · cases found
        · cases own : (s.write config env batch).expiries.lookup key with
          | some put =>
            intro same
            have made := (s.settle_made config _ _ _ _ key put own).2
            rw [same, good] at made
            exact Nat.lt_irrefl 0 made
          | none =>
            rw [own, Option.none_or, ← copy_full] at found
            exact lasting.unkeyed _ (Nat.le_refl _) key seq found

/-- A sequencer started again on the first writes. -/
theorem restart (lasting : s.Lasting foot producer) (kept now : Nat)
    (within : kept ≤ s.wrote.length) :
    (Sequencer.start s.base (s.wrote.take kept) now).Lasting foot producer := by
  have length : (s.wrote.take kept).length = kept := List.length_take_of_le within
  have copies (n : Nat) (le : n ≤ kept) := s.copy_restart kept now n le
  have climbs : Climbs (·.seq) (·.prev) foot
      (takenOf producer ((s.wrote.take kept).flatMap (·.answers))) := by
    have all := lasting.once.climbs
    have split : s.answered = (s.wrote.take kept).flatMap (·.answers) ++
        (s.wrote.drop kept).flatMap (·.answers) := by
      rw [← List.flatMap_append, List.take_append_drop]
      rfl
    rw [split, takenOf_append, climbs_append] at all
    exact all.1
  refine ⟨⟨start_tracks s.base _ now producer, fun write inside => ?_, climbs, ?_⟩,
    fun n le => ?_, fun n le key seq found => ?_⟩
  · exact lasting.once.lasts write (List.mem_of_mem_take inside)
  · have full := lasting.marks kept within
    rw [← copies kept (Nat.le_refl _)] at full
    rw [← copy_full]
    show ((copy _ (s.wrote.take kept).length).marks.lookup producer).getD 0 = _
    rw [length]
    exact full
  · have le : n ≤ kept := length ▸ le
    rw [copies n le]
    show _ = top _ foot (takenOf producer (((s.wrote.take kept).take n).flatMap (·.answers)))
    rw [List.take_take, Nat.min_eq_left le]
    exact lasting.marks n (le.trans within)
  · have le : n ≤ kept := length ▸ le
    rw [copies n le] at found
    exact lasting.unkeyed n (le.trans within) key seq found

end Sequencer.Lasting

theorem start_lasting (base : Catalog) (now : Nat) (producer : String)
    (unkeyed : ∀ key seq, base.expiries.lookup key = some seq → key.producer ≠ producer) :
    (Sequencer.start base [] now).Lasting ((base.marks.lookup producer).getD 0) producer := by
  refine ⟨start_once base now producer, fun n _ => ?_, fun n _ key seq found => ?_⟩
  · have none : (Sequencer.start base [] now).wrote.take n = [] := List.take_nil
    simp only [Sequencer.copy, none]
    rfl
  · have found : ((([] : List Write).take n).foldl Catalog.apply base).expiries.lookup key =
        some seq := found
    rw [List.take_nil] at found
    exact unkeyed key seq found

/-! ### A producer's rows, in the order of the log -/

/-- Did this producer send it? -/
def sentBy (producer : String) (src : Option Src) : Bool :=
  src.any fun src => decide (src.producer = producer)

/-- A producer's rows among some entries, in their order. -/
def sentRows (producer : String) (entries : List Entry) : List (Option Src × Nat × Nat) :=
  (entries.map Entry.tag).filter fun tag => sentBy producer tag.1

theorem sentRows_append (producer : String) (before after : List Entry) :
    sentRows producer (before ++ after) = sentRows producer before ++ sentRows producer after := by
  simp [sentRows]

/-- A table's entries, segment after segment. -/
def tableEntries (table : String) (segs : List (Nat × Segment)) : List Entry :=
  segs.flatMap fun seg => Shelf.of seg.2.parts table

theorem tableEntries_append (table : String) (before after : List (Nat × Segment)) :
    tableEntries table (before ++ after) =
      tableEntries table before ++ tableEntries table after :=
  List.flatMap_append

/-- The rows of a producer that some parts have for a table. -/
def partRows (producer table : String) (parts : List Part) : List (Option Src × Nat × Nat) :=
  ((parts.filter fun p => decide (p.table = table)).map Part.tag).filter fun tag =>
    sentBy producer tag.1

theorem partRows_append (producer table : String) (before after : List Part) :
    partRows producer table (before ++ after) =
      partRows producer table before ++ partRows producer table after := by
  simp [partRows]

/-- The parts of a flush that have rows, but for the ones skipped. -/
def Flush.goodRows (f : Flush) (bad : List (Nat × Skip)) : List Part :=
  ((f.good bad).map Prod.fst).filter fun p => decide (0 < p.rows)

theorem rowsTaken_single (f : Flush) (outcome : Outcome) (bad : List (Nat × Skip)) :
    rowsTaken [⟨f, outcome, f.good bad⟩] = f.goodRows bad := by
  simp [rowsTaken, Flush.goodRows]

/-- The rows of a commit are in the log as its flushes were answered. -/
def Batch.InOrder (b : Batch) (producer table : String) : Prop :=
  sentRows producer (tableEntries table b.segs ++ Shelf.of b.inlineParts table) =
    partRows producer table (rowsTaken b.answers)

theorem foldl_layPart_of (base : Nat) (before : String → Nat) (parts : List (Part × Nat))
    (laid : Laid) (table : String) :
    (Shelf.of (parts.foldl (layPart base before) laid).parts table).map Entry.tag =
      (Shelf.of laid.parts table).map Entry.tag ++
        ((parts.map Prod.fst).filter fun p => decide (p.table = table)).map Part.tag := by
  induction parts generalizing laid with
  | nil => simp
  | cons part rest ih =>
    rw [List.foldl_cons, ih]
    show (Shelf.of (Shelf.push laid.parts part.1.table _) table).map Entry.tag ++ _ = _
    rw [Shelf.of_push, List.map_cons]
    by_cases here : part.1.table = table
    · rw [if_pos here.symm, List.filter_cons_of_pos (by simpa using here), List.map_append,
        List.map_cons, List.append_assoc]
      rfl
    · rw [if_neg (Ne.symm here), List.filter_cons_of_neg (by simpa using here)]

theorem laid_of (b : Batch) (f : Flush) (bad : List (Nat × Skip)) (producer table : String) :
    sentRows producer (Shelf.of (b.laid f bad).parts table) =
      partRows producer table (f.goodRows bad) := by
  have laid := foldl_layPart_of (if Batch.inline f then b.inlined.length else 0)
    (fun table => if Batch.inline f then rowsOf (Shelf.of b.inlineParts table) else 0)
    ((f.good bad).filter fun part => decide (0 < part.1.rows)) ⟨∅, []⟩ table
  have lays : (b.laid f bad).parts = (((f.good bad).filter fun part => decide (0 < part.1.rows)).foldl
    (layPart (if Batch.inline f then b.inlined.length else 0) fun table =>
      if Batch.inline f then rowsOf (Shelf.of b.inlineParts table) else 0) ⟨∅, []⟩).parts := rfl
  have rows : ((f.good bad).filter fun part => decide (0 < part.1.rows)).map Prod.fst =
      f.goodRows bad := by
    rw [Flush.goodRows, List.filter_map]
    rfl
  rw [sentRows, lays, laid, rows, Shelf.of_empty, List.map_nil, List.nil_append]
  rfl

/-- Is the flush taken, but for the parts it is to do without? -/
def Sequencer.Takes (s : Sequencer) (views : Inline) (b : Batch) (seen : Seen) (f : Flush) : Prop :=
  f.Rows ∧ f.stale views = false ∧ f.waits seen.held = false ∧
    (s.bad seen b.seqs f = [] ∨ f.filed = [] ∧ ∀ p ∈ f.parts, p.src ≠ none)

instance (f : Flush) : Decidable f.Rows := inferInstanceAs (Decidable (_ ∧ ¬ (_ ∨ _ ∨ _)))

instance (s : Sequencer) (views : Inline) (b : Batch) (seen : Seen) (f : Flush) :
    Decidable (s.Takes views b seen f) := inferInstanceAs (Decidable (_ ∧ _ ∧ _ ∧ (_ ∨ _ ∧ _)))

/-- An object flush doesn't take rows of the producer while the commit holds other rows of it inline:
the inline segment is numbered last. -/
def Sequencer.InTurn (s : Sequencer) (views : Inline) (producer table : String) (b : Batch)
    (x : Seen × Flush) : Prop :=
  s.Takes views b x.1 x.2 → Batch.inline x.2 = false →
    partRows producer table (x.2.goodRows (s.bad x.1 b.seqs x.2)) ≠ [] →
      sentRows producer (Shelf.of b.inlineParts table) = []

instance (s : Sequencer) (views : Inline) (producer table : String) (b : Batch) (x : Seen × Flush) :
    Decidable (s.InTurn views producer table b x) :=
  inferInstanceAs (Decidable (_ → _ = _ → _ ≠ _ → _ = _))

theorem Handled.inOrder {s : Sequencer} {views : Inline} {b later : Batch} {seen : Seen} {f : Flush}
    (handled : Handled s views b seen f later) (producer table : String)
    (turn : s.InTurn views producer table b (seen, f)) (order : b.InOrder producer table) :
    later.InOrder producer table := by
  have untouched (outcome : Outcome) (next : Batch) (segs : next.segs = b.segs)
      (parts : next.inlineParts = b.inlineParts)
      (answers : next.answers = b.answers ++ [⟨f, outcome, []⟩]) : next.InOrder producer table := by
    have none : rowsTaken (b.answers ++ [⟨f, outcome, []⟩]) = rowsTaken b.answers := by
      rw [rowsTaken_append]
      exact List.append_nil _
    unfold Batch.InOrder
    rw [segs, parts, answers, none]
    exact order
  cases handled with
  | counted op _ => exact untouched _ _ rfl rfl rfl
  | reserved _ =>
    unfold Batch.reserve
    simp only
    split
    · exact untouched _ _ rfl rfl rfl
    · exact untouched _ _ rfl rfl rfl
  | sentBack _ => exact untouched _ _ rfl rfl rfl
  | inAlready _ _ => exact untouched _ _ rfl rfl rfl
  | redone _ _ _ _ _ => exact untouched _ _ rfl rfl rfl
  | taken asks fresh free whole =>
    have takes : s.Takes views b seen f :=
      ⟨asks, by simpa using fresh, by simpa using free, whole⟩
    have laid := laid_of b f (s.bad seen b.seqs f) producer table
    have added (outcome : Outcome) : partRows producer table (rowsTaken (b.answers ++
        [⟨f, outcome, f.good (s.bad seen b.seqs f)⟩])) =
          partRows producer table (rowsTaken b.answers) ++
            partRows producer table (f.goodRows (s.bad seen b.seqs f)) := by
      rw [rowsTaken_append, rowsTaken_single, partRows_append]
    unfold Batch.InOrder at order
    unfold Batch.take
    simp only
    split
    · rename_i empty
      have none : partRows producer table (f.goodRows (s.bad seen b.seqs f)) = [] := by
        rw [← laid, Shelf.of]
        have nothing : (b.laid f (s.bad seen b.seqs f)).parts.lookup table = none :=
          AList.lookup_eq_none.mpr fun inside => by
            rw [AList.mem_keys, AList.keys, empty.1] at inside
            exact List.not_mem_nil inside
        rw [nothing]
        rfl
      unfold Batch.InOrder
      show sentRows producer (tableEntries table b.segs ++ Shelf.of b.inlineParts table) =
        partRows producer table (rowsTaken (b.answers ++ _))
      rw [added, none, List.append_nil]
      exact order
    · split
      · unfold Batch.InOrder
        show sentRows producer (tableEntries table b.segs ++
            Shelf.of (Shelf.extend b.inlineParts _) table) =
          partRows producer table (rowsTaken (b.answers ++ _))
        rw [added, Shelf.of_extend, ← List.append_assoc, sentRows_append, order, laid]
      · rename_i object
        unfold Batch.InOrder
        show sentRows producer (tableEntries table (b.segs ++ [_]) ++ Shelf.of b.inlineParts table) =
          partRows producer table (rowsTaken (b.answers ++ _))
        have single : tableEntries table [(b.next, (⟨f.path, (b.laid f (s.bad seen b.seqs f)).parts,
            seen.ms, f.filed.foldl (fun files (x : Filing) => files.insert x.table
              ⟨x.added.map fun file => stampFile file b.next seen.ms, x.removed, x.deleted⟩)
              (∅ : Dict String Filed)⟩ : Segment))] =
            Shelf.of (b.laid f (s.bad seen b.seqs f)).parts table := by
          rw [tableEntries, List.flatMap_cons, List.flatMap_nil, List.append_nil]
        rw [added, tableEntries_append, sentRows_append, sentRows_append, ← order, sentRows_append,
          ← laid, List.append_assoc, List.append_assoc]
        congr 1
        show sentRows producer (tableEntries table [_]) ++ _ = _
        rw [single]
        by_cases none : partRows producer table (f.goodRows (s.bad seen b.seqs f)) = []
        · rw [laid, none, List.nil_append, List.append_nil]
        · rw [turn takes (by simpa using object) none, List.nil_append, List.append_nil]

/-! ### Why a batch is skipped -/

/-- A batch of this seq and prev is skipped so where its producer's mark stands there. -/
def Skip.Why (skip : Skip) (src : Src) (stood : Nat) : Prop :=
  skip = .duplicate ∧ src.seq ≤ stood ∨
    skip = .conflict ∧ stood < src.seq ∧ ∃ prev, src.prev = some prev ∧ prev ≠ stood

theorem kept_append (bad : List (Nat × Skip)) (before after : List (Part × Nat)) :
    kept bad (before ++ after) = kept bad before ++ kept bad after :=
  List.filter_append ..

/-- The check of some parts skips one of them for where the parts before it, as far as they are
taken, leave its producer's mark. -/
theorem foldl_check_why {standing : Dict String Nat → String → Nat} (defers : Defers standing)
    (barred : List (Nat × Skip)) (front back : List (Part × Nat)) (part : Part × Nat)
    (places : ((front ++ part :: back).map Prod.snd).Nodup) (skip : Skip)
    (inside : (part.2, skip) ∈ ((front ++ part :: back).foldl
      (checkPart standing (barred.map Prod.fst)) ⟨∅, []⟩).stale) :
    ∃ src, part.1.src = some src ∧ src.producer ≠ "" ∧ skip.Why src
      (top (·.seq) (standing ∅ src.producer) (srcsOf src.producer (kept (barred ++
        ((front ++ part :: back).foldl (checkPart standing (barred.map Prod.fst)) ⟨∅, []⟩).stale)
          front))) := by
  rw [List.map_append, List.map_cons, List.nodup_append, List.nodup_cons] at places
  obtain ⟨first, ⟨notAfter, _⟩, apart⟩ := places
  obtain ⟨early, begun, within, _⟩ := foldl_check_stale standing (barred.map Prod.fst) front ⟨∅, []⟩
  have climbs (producer : String) (named : producer ≠ "") :=
    foldl_check_climbs defers barred producer named front first ⟨∅, []⟩ early begun
  rw [List.foldl_append, List.foldl_cons] at inside ⊢
  generalize front.foldl (checkPart standing (barred.map Prod.fst)) ⟨∅, []⟩ = reached
    at begun climbs inside ⊢
  obtain ⟨late, tail, within', _⟩ := foldl_check_stale standing (barred.map Prod.fst) back
    (checkPart standing (barred.map Prod.fst) reached part)
  have checks := checkPart_checks standing (barred.map Prod.fst) reached part
  generalize checkPart standing (barred.map Prod.fst) reached part = found
    at checks tail inside ⊢
  have notEarly : ∀ other, (part.2, other) ∉ early := fun other held =>
    apart part.2 (within.subset (List.mem_map_of_mem held)) part.2 List.mem_cons_self rfl
  have notLate : ∀ other, (part.2, other) ∉ late := fun other held =>
    notAfter (within'.subset (List.mem_map_of_mem held))
  have started : reached.stale = early := by rw [begun, List.nil_append]
  rw [tail, List.mem_append] at inside
  replace inside := inside.resolve_right (notLate skip)
  rw [tail]
  cases checks with
  | free _ =>
    rw [started] at inside
    exact absurd inside (notEarly skip)
  | fine _ _ _ _ _ _ =>
    rw [show reached.stale = early from started] at inside
    exact absurd inside (notEarly skip)
  | skipped src why sent named open' reason =>
    rw [started, List.mem_append] at inside
    have mine := List.mem_singleton.mp (inside.resolve_left (notEarly skip))
    obtain rfl : skip = why := congrArg Prod.snd mine
    have same : kept (barred ++ (early ++ [(part.2, skip)] ++ late)) front =
        kept (barred ++ early) front := by
      refine kept_congr _ _ _ fun other held => ?_
      have place := List.mem_map_of_mem (f := Prod.snd) held
      have differs : other.2 ≠ part.2 := apart other.2 place part.2 List.mem_cons_self
      have notBack : other.2 ∉ late.map Prod.fst := fun held' =>
        apart other.2 place other.2 (List.mem_cons_of_mem _ (within'.subset held')) rfl
      simp only [List.map_append, List.mem_append, List.map_cons, List.map_nil,
        List.mem_singleton]
      tauto
    obtain ⟨_, stands, _⟩ := climbs src.producer named
    refine ⟨src, sent, named, ?_⟩
    show skip.Why src (top _ _ (srcsOf _ (kept (barred ++ (reached.stale ++ [_] ++ late)) front)))
    rw [started, same, ← stands]
    exact reason

/-- A flush does without a batch for where the ones it takes before it leave the mark. -/
theorem Sequencer.stale_why (s : Sequencer) (seen : Seen) (seqs : Dict String Nat) (f : Flush)
    (i : Nat) (skip : Skip) (inside : (i, skip) ∈ (s.checked seen seqs f).stale) :
    ∃ p src before after, f.parts[i]? = some p ∧ p.src = some src ∧ src.producer ≠ "" ∧
      f.good (s.bad seen seqs f) = before ++ after ∧
      skip.Why src (top (·.seq) (s.standing seen.copy seqs ∅ src.producer)
        (srcsOf src.producer before)) := by
  obtain ⟨more, stale, _, retries⟩ := foldl_check_stale (s.standing seen.copy seqs)
    ((f.barred seen.found).map Prod.fst) f.parts.zipIdx ⟨∅, []⟩
  have stale : (s.checked seen seqs f).stale = more := stale
  obtain ⟨_, _, part, held, place, _⟩ := retries (i, skip) (stale ▸ inside)
  obtain ⟨front, back, split⟩ := List.append_of_mem held
  have nodup := zipIdx_nodup f
  obtain rfl : part.2 = i := place
  have checked : (s.checked seen seqs f).stale = ((front ++ part :: back).foldl
      (checkPart (s.standing seen.copy seqs) ((f.barred seen.found).map Prod.fst)) ⟨∅, []⟩).stale := by
    rw [← split]
    rfl
  rw [split] at nodup
  obtain ⟨src, sent, named, why⟩ := foldl_check_why (s.standing_defers seen.copy seqs)
    (f.barred seen.found) front back part nodup skip (checked ▸ inside)
  refine ⟨part.1, src, kept (s.bad seen seqs f) front, kept (s.bad seen seqs f) (part :: back),
    List.mem_zipIdx_iff_getElem?.mp held, sent, named, ?_, ?_⟩
  · rw [good_eq, split, kept_append]
  · rw [← checked] at why
    exact why

end Pondra.Log
