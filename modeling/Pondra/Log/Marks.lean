import Pondra.Log.Answers

set_option autoImplicit false

namespace Pondra.Log

open Dicts Ladders Machines

/-! ### The marks of one commit -/

/-- The batches of a producer that some answers take, in order. -/
def takenOf (producer : String) (answers : List Answer) : List Src :=
  answers.flatMap fun a => srcsOf producer a.taken

theorem takenOf_append (producer : String) (before after : List Answer) :
    takenOf producer (before ++ after) = takenOf producer before ++ takenOf producer after :=
  List.flatMap_append

theorem takenOf_single (producer : String) (a : Answer) :
    takenOf producer [a] = srcsOf producer a.taken := by
  simp [takenOf]

theorem takenOf_number (producer : String) (seg : Nat) (answers : List Answer) :
    takenOf producer (answers.map (Answer.number seg)) = takenOf producer answers := by
  simp [takenOf, List.flatMap_map]

/-- A commit's mark of a producer is the last batch of it that the commit takes. -/
def Batch.Marks (b : Batch) (producer : String) : Prop :=
  b.seqs.lookup producer = (takenOf producer b.answers).getLast?.map (·.seq)

theorem top_last (foot : Nat) (srcs : List Src) (some : srcs ≠ []) :
    Option.some (top (·.seq) foot srcs) = srcs.getLast?.map (·.seq) := by
  rw [top_eq, List.getLast?_eq_some_getLast some]
  rfl

section flush

variable {s : Sequencer} {views : Inline} {b later : Batch} {seen : Seen} {f : Flush}

theorem Handled.marks (handled : Handled s views b seen f later) (producer : String)
    (named : producer ≠ "") (marks : b.Marks producer) : later.Marks producer := by
  obtain ⟨outcome, taken, answers, _, effect⟩ := handled.answered
  unfold Batch.Marks
  rw [answers, takenOf_append, takenOf_single]
  rcases effect with ⟨rfl, seqs⟩ | ⟨rfl, seqs⟩
  · rw [seqs, srcsOf_nil, List.append_nil]
    exact marks
  · obtain ⟨_, ends⟩ := s.bad_climbs seen b.seqs f producer named
    rw [seqs, ends]
    split
    · rename_i empty
      rw [empty, List.append_nil]
      exact marks
    · rename_i some
      rw [top_last _ _ some, List.getLast?_append_of_ne_nil _ some]

/-- Where a producer's mark stood at `foot`, what a commit takes of it climbs from there. -/
theorem Handled.climbs (handled : Handled s views b seen f later) (producer : String)
    (named : producer ≠ "") (marks : b.Marks producer) (foot : Nat)
    (stands : seqOf (s.copy seen.copy) s.last [] producer = foot)
    (climbs : Climbs (·.seq) (·.prev) foot (takenOf producer b.answers)) :
    Climbs (·.seq) (·.prev) foot (takenOf producer later.answers) := by
  obtain ⟨outcome, taken, answers, _, effect⟩ := handled.answered
  rw [answers, takenOf_append, takenOf_single]
  rcases effect with ⟨rfl, _⟩ | ⟨rfl, _⟩
  · rw [srcsOf_nil, List.append_nil]
    exact climbs
  · obtain ⟨more, _⟩ := s.bad_climbs seen b.seqs f producer named
    rw [s.standing_seqs, stands, marks, ← top_eq] at more
    exact (climbs_append _ _ _ _ _).mpr ⟨climbs, more⟩

end flush

theorem foldl_marks (s : Sequencer) (views : Inline) (producer : String) (named : producer ≠ "")
    (batch : List (Seen × Flush)) (b : Batch) (marks : b.Marks producer) :
    (batch.foldl (takeFlush s views) b).Marks producer := by
  induction batch generalizing b with
  | nil => exact marks
  | cons x rest ih => exact ih _ ((takeFlush_handled s views b x.1 x.2).marks producer named marks)

theorem foldl_climbs (s : Sequencer) (views : Inline) (producer : String) (named : producer ≠ "")
    (foot : Nat) (batch : List (Seen × Flush)) (b : Batch) (marks : b.Marks producer)
    (stands : ∀ x ∈ batch, seqOf (s.copy x.1.copy) s.last [] producer = foot)
    (climbs : Climbs (·.seq) (·.prev) foot (takenOf producer b.answers)) :
    Climbs (·.seq) (·.prev) foot (takenOf producer (batch.foldl (takeFlush s views) b).answers) := by
  induction batch generalizing b with
  | nil => exact climbs
  | cons x rest ih =>
    have handled := takeFlush_handled s views b x.1 x.2
    exact ih _ (handled.marks producer named marks)
      (fun y inside => stands y (List.mem_cons_of_mem _ inside))
      (handled.climbs producer named marks foot (stands x List.mem_cons_self) climbs)

theorem finish_taken (b : Batch) (ms : Nat) (producer : String) :
    takenOf producer (b.finish ms).answers = takenOf producer b.answers := by
  unfold Batch.finish
  split
  · rfl
  · exact takenOf_number producer b.next b.answers

theorem finish_seqs (b : Batch) (ms : Nat) : (b.finish ms).seqs = b.seqs := by
  unfold Batch.finish
  split
  · rfl
  · rfl

namespace Sequencer

variable (s : Sequencer) (env : Env) (batch : List (Seen × Flush))

/-- The mark a commit writes is the last batch it takes of the producer, if it takes one. -/
theorem sequence_marks (producer : String) (named : producer ≠ "") :
    (s.sequence env batch).seqs.lookup producer =
      (takenOf producer (s.sequence env batch).answers).getLast?.map (·.seq) := by
  unfold sequence
  rw [finish_seqs, finish_taken]
  exact foldl_marks (s.forget env) env.views producer named batch _ rfl

theorem sequence_climbs (producer : String) (named : producer ≠ "") (foot : Nat)
    (stands : ∀ x ∈ batch, seqOf (s.copy x.1.copy) (s.forget env).last [] producer = foot) :
    Climbs (·.seq) (·.prev) foot (takenOf producer (s.sequence env batch).answers) := by
  unfold sequence
  rw [finish_taken]
  exact foldl_climbs (s.forget env) env.views producer named foot batch _ rfl stands trivial

end Sequencer

/-! ### The rows of one commit -/

/-- Whose rows these are, and how many. -/
def Entry.tag (entry : Entry) : Option Src × Nat × Nat := (entry.src, entry.len, entry.rows)

def Part.tag (p : Part) : Option Src × Nat × Nat := (p.src, p.len, p.rows)

/-- The parts with rows that some answers take. -/
def rowsTaken (answers : List Answer) : List Part :=
  ((answers.flatMap (·.taken)).map Prod.fst).filter fun p => decide (0 < p.rows)

theorem rowsTaken_append (before after : List Answer) :
    rowsTaken (before ++ after) = rowsTaken before ++ rowsTaken after := by
  simp [rowsTaken]

def segEntries (segs : List (Nat × Segment)) : List Entry := segs.flatMap fun seg => seg.2.parts.all

/-- The rows in a commit's segments are those of the parts it takes, once each. -/
def Batch.Rows (b : Batch) : Prop :=
  ((segEntries b.segs ++ b.inlineParts.all).map Entry.tag).Perm
    ((rowsTaken b.answers).map Part.tag)

theorem foldl_layPart_all (base : Nat) (before : String → Nat) (parts : List (Part × Nat))
    (laid : Laid) :
    ((parts.foldl (layPart base before) laid).parts.all.map Entry.tag).Perm
      (laid.parts.all.map Entry.tag ++ parts.map fun part => part.1.tag) := by
  induction parts generalizing laid with
  | nil => simp
  | cons part rest ih =>
    rw [List.foldl_cons]
    refine (ih _).trans ?_
    have pushed := (Shelf.all_push laid.parts part.1.table
      ⟨base + part.1.off, part.1.len, part.1.rows, part.1.src⟩).map Entry.tag
    refine (List.Perm.append_right _ pushed).trans ?_
    rw [List.map_append, List.append_assoc, List.map_cons]
    rfl

theorem laid_all (b : Batch) (f : Flush) (bad : List (Nat × Skip)) :
    ((b.laid f bad).parts.all.map Entry.tag).Perm
      (((f.good bad).map Prod.fst).filter (fun p => decide (0 < p.rows)) |>.map Part.tag) := by
  refine (foldl_layPart_all _ _ _ _).trans ?_
  rw [List.filter_map, List.map_map]
  exact List.Perm.refl _

theorem all_of_entries (shelf : Shelf) (empty : shelf.entries = []) : shelf.all = [] := by
  rw [Shelf.all, empty]
  rfl

theorem Handled.rows {s : Sequencer} {views : Inline} {b later : Batch} {seen : Seen} {f : Flush}
    (handled : Handled s views b seen f later) (rows : b.Rows) : later.Rows := by
  have untouched (outcome : Outcome) (next : Batch) (segs : next.segs = b.segs)
      (parts : next.inlineParts = b.inlineParts)
      (answers : next.answers = b.answers ++ [⟨f, outcome, []⟩]) : next.Rows := by
    have none : rowsTaken (b.answers ++ [⟨f, outcome, []⟩]) = rowsTaken b.answers := by
      rw [rowsTaken_append]
      exact List.append_nil _
    unfold Batch.Rows
    rw [segs, parts, answers, none]
    exact rows
  cases handled with
  | counted op _ => exact untouched _ _ rfl rfl rfl
  | reserved _ =>
    unfold Batch.reserve
    simp only
    split
    · exact untouched _ _ rfl rfl rfl
    · exact untouched _ _ rfl rfl rfl
  | sentBack _ => exact untouched _ _ rfl rfl rfl
  | inAlready _ _ => exact untouched _ _ rfl rfl rfl
  | redone _ _ _ _ _ => exact untouched _ _ rfl rfl rfl
  | taken _ _ _ _ =>
    have added (outcome : Outcome) : (rowsTaken (b.answers ++
        [⟨f, outcome, f.good (s.bad seen b.seqs f)⟩])).map Part.tag =
          (rowsTaken b.answers).map Part.tag ++
          (((f.good (s.bad seen b.seqs f)).map Prod.fst).filter
            fun p => decide (0 < p.rows)).map Part.tag := by
      rw [rowsTaken_append, List.map_append]
      simp [rowsTaken]
    have all := laid_all b f (s.bad seen b.seqs f)
    unfold Batch.take
    simp only
    split
    · rename_i empty
      unfold Batch.Rows
      show ((segEntries b.segs ++ b.inlineParts.all).map Entry.tag).Perm
        ((rowsTaken (b.answers ++ _)).map Part.tag)
      rw [all_of_entries _ empty.1] at all
      rw [added, List.nil_perm.mp all, List.append_nil]
      exact rows
    · split
      · unfold Batch.Rows
        show ((segEntries b.segs ++ (Shelf.extend b.inlineParts _).all).map Entry.tag).Perm
          ((rowsTaken (b.answers ++ _)).map Part.tag)
        rw [added, List.map_append]
        refine (List.Perm.append_left _ ((Shelf.all_extend _ _).map Entry.tag)).trans ?_
        rw [List.map_append, ← List.append_assoc, ← List.map_append]
        exact List.Perm.append rows all
      · unfold Batch.Rows
        show ((segEntries (b.segs ++ [_]) ++ b.inlineParts.all).map Entry.tag).Perm
          ((rowsTaken (b.answers ++ _)).map Part.tag)
        rw [added]
        refine List.Perm.trans ?_ (List.Perm.append rows all)
        simp only [segEntries, List.flatMap_append, List.flatMap_cons, List.flatMap_nil,
          List.append_nil, List.map_append, List.append_assoc]
        exact List.Perm.append_left _ List.perm_append_comm

theorem finish_entries (b : Batch) (ms : Nat) :
    segEntries (b.finish ms).segs = segEntries b.segs ++ b.inlineParts.all := by
  unfold Batch.finish
  split
  · rename_i empty
    rw [all_of_entries _ empty, List.append_nil]
  · simp [segEntries]

theorem finish_rowsTaken (b : Batch) (ms : Nat) :
    rowsTaken (b.finish ms).answers = rowsTaken b.answers := by
  unfold Batch.finish
  split
  · rfl
  · simp [rowsTaken, List.flatMap_map]

theorem finish_exact (b : Batch) (ms : Nat) (exact' : ∀ a ∈ b.answers, a.Exact) :
    ∀ a ∈ (b.finish ms).answers, a.Exact := by
  unfold Batch.finish
  split
  · exact exact'
  · intro a inside
    obtain ⟨before, held, rfl⟩ := List.mem_map.mp inside
    exact exact_number before b.next (exact' before held)

theorem foldl_rows (s : Sequencer) (views : Inline) (batch : List (Seen × Flush)) (b : Batch)
    (rows : b.Rows) : (batch.foldl (takeFlush s views) b).Rows := by
  induction batch generalizing b with
  | nil => exact rows
  | cons x rest ih => exact ih _ ((takeFlush_handled s views b x.1 x.2).rows rows)

theorem foldl_exact (s : Sequencer) (views : Inline) (batch : List (Seen × Flush)) (b : Batch)
    (exact' : ∀ a ∈ b.answers, a.Exact) :
    ∀ a ∈ (batch.foldl (takeFlush s views) b).answers, a.Exact := by
  induction batch generalizing b with
  | nil => exact exact'
  | cons x rest ih =>
    refine ih _ fun a inside => ?_
    obtain ⟨outcome, taken, answers, new, _⟩ := (takeFlush_handled s views b x.1 x.2).answered
    rw [answers] at inside
    rcases List.mem_append.mp inside with held | added
    · exact exact' a held
    · rw [List.mem_singleton.mp added]
      exact new

/-- What a catalog write holds is what its flushes were told: no rows but those of the parts taken,
each once, and as marks the last batch taken of each producer. -/
structure Write.Exact (write : Write) : Prop where
  answers : ∀ a ∈ write.answers, a.Exact
  rows : ((segEntries write.segs).map Entry.tag).Perm ((rowsTaken write.answers).map Part.tag)
  marks : ∀ producer, producer ≠ "" →
    write.marks.lookup producer = (takenOf producer write.answers).getLast?.map (·.seq)

theorem Sequencer.write_exact (s : Sequencer) (config : Config) (env : Env)
    (batch : List (Seen × Flush)) : (s.write config env batch).Exact where
  answers := finish_exact _ _ (foldl_exact _ _ batch _ fun _ none => absurd none List.not_mem_nil)
  rows := by
    show ((segEntries (s.sequence env batch).segs).map Entry.tag).Perm
      ((rowsTaken (s.sequence env batch).answers).map Part.tag)
    unfold Sequencer.sequence
    rw [finish_entries, finish_rowsTaken]
    exact foldl_rows _ _ batch _ (List.Perm.refl _)
  marks := fun producer named => s.sequence_marks env batch producer named

end Pondra.Log
