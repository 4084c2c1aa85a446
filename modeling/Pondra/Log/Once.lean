import Pondra.Log.Expire

set_option autoImplicit false

namespace Pondra.Log

open Dicts Ladders Machines

/-! ### Exactly once on one leader -/

/-- One leader's commits, in which no expiry key is due. -/
def Sequencer.Quiet (config : Config) (s : Sequencer) : Op → Prop
  | .commit env _ => s.due config env.now env.copy = []
  | .restart _ _ => False

instance (config : Config) (s : Sequencer) (op : Op) : Decidable (s.Quiet config op) :=
  match op with
  | .commit _ _ => decidable_of_iff (_ = true) List.isEmpty_iff
  | .restart _ _ => inferInstanceAs (Decidable False)

/-- The answers of all commits, in order. -/
def Sequencer.answered (s : Sequencer) : List Answer := s.wrote.flatMap (·.answers)

/-- Is this the batch? -/
def isBatch (producer : String) (seq : Nat) (src : Option Src) : Bool :=
  src.any fun src => decide (src.producer = producer ∧ src.seq = seq)

/-- The rows of a batch in all segments. -/
def Sequencer.rowsFor (s : Sequencer) (producer : String) (seq : Nat) : List Entry :=
  (s.wrote.flatMap fun write => segEntries write.segs).filter fun entry =>
    isBatch producer seq entry.src

theorem start_tracks (base : Catalog) (wrote : List Write) (now : Nat) (producer : String) :
    (Sequencer.start base wrote now).Tracks producer where
  knows := by
    refine .inr (.inl ⟨rfl, fun n lagging within => ?_⟩)
    have all : n = wrote.length := Nat.le_antisymm within lagging
    rw [all]
    exact congrArg (fun catalog : Catalog => catalog.marks.lookup producer)
      (Sequencer.copy_full (Sequencer.start base wrote now))
  forgotten := fun none => absurd none List.not_mem_nil

/-- What holds of a producer whose mark is neither deleted nor forgotten. -/
structure Sequencer.Once (s : Sequencer) (foot : Nat) (producer : String) : Prop where
  tracks : s.Tracks producer
  lasts : ∀ write ∈ s.wrote, producer ∉ write.dropped
  climbs : Climbs (·.seq) (·.prev) foot (takenOf producer s.answered)
  mark : (s.full.marks.lookup producer).getD 0 = top (·.seq) foot (takenOf producer s.answered)

theorem foldl_marks_some (writes : List Write) (catalog : Catalog) (producer : String)
    (lasts : ∀ write ∈ writes, producer ∉ write.dropped)
    (some : (catalog.marks.lookup producer).isSome) :
    ((writes.foldl Catalog.apply catalog).marks.lookup producer).isSome := by
  induction writes generalizing catalog with
  | nil => exact some
  | cons write rest ih =>
    refine ih _ (fun other inside => lasts other (List.mem_cons_of_mem _ inside)) ?_
    rw [apply_marks, if_neg (lasts write List.mem_cons_self), Option.isSome_or, some, Bool.or_true]

namespace Sequencer.Once

variable {s : Sequencer} {foot : Nat} {producer : String}

/-- Whatever its copy of the catalog, a commit finds where the mark stands. -/
theorem stands (once : s.Once foot producer) (n : Nat) (lagging : s.landed ≤ n)
    (within : n ≤ s.wrote.length) :
    Log.seqOf (s.copy n) s.last [] producer = top (·.seq) foot (takenOf producer s.answered) := by
  rw [← once.mark]
  cases mark : s.full.marks.lookup producer with
  | some seq => exact once.tracks.seqOf n lagging within seq mark
  | none =>
    have old : (s.copy n).marks.lookup producer = none := by
      cases held : (s.copy n).marks.lookup producer with
      | none => rfl
      | some seq =>
        have later := foldl_marks_some (s.wrote.drop n) (s.copy n) producer
          (fun write inside => once.lasts write (List.mem_of_mem_drop inside))
          (by rw [held]; rfl)
        rw [Sequencer.copy, ← List.foldl_append, List.take_append_drop] at later
        have full : (s.full.marks.lookup producer).isSome := later
        rw [mark] at full
        cases full
    have last : s.last.lookup producer = none := by
      rcases once.tracks.knows with ⟨seq, _, full⟩ | ⟨last, _⟩ | ⟨last, _⟩
      · rw [mark] at full
        cases full
      · exact last
      · exact last
    unfold Log.seqOf
    rw [last, old]
    rfl

theorem commit (once : s.Once foot producer) (named : producer ≠ "") (config : Config) (env : Env)
    (batch : List (Seen × Flush)) (allowed : s.Allows (.commit env batch))
    (undue : ∀ mark ∈ s.due config env.now env.copy, mark.1.producer ≠ producer)
    (spares : Op.Spares producer (.commit env batch)) :
    (s.commit config env batch).Once foot producer := by
  have tracks := once.tracks.commit config env batch allowed spares
  cases open' : env.frozen with
  | true =>
    have same : s.commit config env batch = { s with forgotten := s.forgotten ++ env.forgets } := by
      unfold Sequencer.commit
      rw [if_pos open']
    rw [same] at tracks ⊢
    exact ⟨tracks, once.lasts, once.climbs, once.mark⟩
  | false =>
    obtain ⟨_, _, landed, within, copies⟩ := allowed
    obtain ⟨_, _, goes⟩ := s.settle_spec config env.now env.copy (s.forget env).last
      (s.sequence env batch).seqs
    have stays : producer ∉ (s.write config env batch).dropped := by
      intro inside
      rcases List.mem_append.mp inside with lost | gone
      · exact s.sequence_lost env batch producer spares lost
      · obtain ⟨_, mark, due, same, _⟩ := (goes producer).mp gone
        exact undue mark due same
    have climbs := s.sequence_climbs env batch producer named
      (top (·.seq) foot (takenOf producer s.answered)) (fun x inside => by
        rw [seqOf_congr _ _ s.last _ _ (once.tracks.forget env spares.1)]
        exact once.stands _ (copies x inside).1 ((copies x inside).2.trans within))
    have marks := s.sequence_marks env batch producer named
    have full := s.full_commit config env batch open'
    rw [s.commit_eq config env batch open'] at tracks full ⊢
    have answered : takenOf producer ((s.wrote ++ [s.write config env batch]).flatMap (·.answers)) =
        takenOf producer s.answered ++ takenOf producer (s.sequence env batch).answers := by
      rw [List.flatMap_append, takenOf_append]
      simp only [List.flatMap_cons, List.flatMap_nil, List.append_nil]
      rfl
    refine ⟨tracks, ?_, ?_, ?_⟩
    · intro write inside
      rcases List.mem_append.mp inside with old | new
      · exact once.lasts write old
      · rw [List.mem_singleton.mp new]
        exact stays
    · show Climbs _ _ foot (takenOf producer ((s.wrote ++ [s.write config env batch]).flatMap (·.answers)))
      rw [answered]
      exact (climbs_append _ _ _ _ _).mpr ⟨once.climbs, climbs⟩
    · show _ = top _ foot (takenOf producer ((s.wrote ++ [s.write config env batch]).flatMap (·.answers)))
      rw [full, answered, top_append, apply_marks, if_neg stays, ← once.mark, top_eq]
      have written : (s.write config env batch).marks.lookup producer =
          (takenOf producer (s.sequence env batch).answers).getLast?.map (·.seq) := marks
      rw [written]
      cases (takenOf producer (s.sequence env batch).answers).getLast? with
      | none => rfl
      | some src => rfl

end Sequencer.Once

theorem start_once (base : Catalog) (now : Nat) (producer : String) :
    (Sequencer.start base [] now).Once ((base.marks.lookup producer).getD 0) producer where
  tracks := start_tracks base [] now producer
  lasts := fun _ none => absurd none List.not_mem_nil
  climbs := trivial
  mark := rfl

/-- Each catalog write holds exactly what its flushes were told. -/
theorem step_exact (config : Config) (s : Sequencer) (op : Op)
    (exact' : ∀ write ∈ s.wrote, write.Exact) : ∀ write ∈ (s.step config op).wrote, write.Exact := by
  cases op with
  | restart kept now => exact fun write inside => exact' write (List.mem_of_mem_take inside)
  | commit env batch =>
    show ∀ write ∈ (s.commit config env batch).wrote, write.Exact
    cases open' : env.frozen with
    | true =>
      unfold Sequencer.commit
      rw [if_pos open']
      exact exact'
    | false =>
      rw [s.commit_eq config env batch open']
      intro write inside
      rcases List.mem_append.mp inside with old | new
      · exact exact' write old
      · rw [List.mem_singleton.mp new]
        exact s.write_exact config env batch

theorem run_tracked (config : Config) (producer : String) (named : producer ≠ "") (foot : Nat)
    (ops : List Op) (s : Sequencer) (once : s.Once foot producer)
    (legal : ((sequencer config).only (Sequencer.Quiet config)).Legal s ops)
    (spares : ∀ op ∈ ops, op.Spares producer) :
    ((sequencer config).run s ops).Once foot producer := by
  induction ops generalizing s with
  | nil => exact once
  | cons op rest ih =>
    obtain ⟨⟨allowed, quiet⟩, legal⟩ := legal
    refine ih _ ?_ legal fun other inside => spares other (List.mem_cons_of_mem _ inside)
    cases op with
    | restart kept now => exact quiet.elim
    | commit env batch =>
      refine once.commit named config env batch allowed (fun mark due => ?_)
        (spares _ List.mem_cons_self)
      rw [show s.due config env.now env.copy = [] from quiet] at due
      exact absurd due List.not_mem_nil

theorem takenOf_srcs (producer : String) (answers : List Answer) :
    takenOf producer answers = srcsOf producer (answers.flatMap (·.taken)) := by
  induction answers with
  | nil => rfl
  | cons a rest ih =>
    rw [List.flatMap_cons, srcsOf_append, ← ih]
    rfl

theorem countP_srcsOf (producer : String) (seq : Nat) (parts : List (Part × Nat)) :
    (parts.map Prod.fst).countP (fun p => isBatch producer seq p.src) =
      ((srcsOf producer parts).map (·.seq)).count seq := by
  induction parts with
  | nil => rfl
  | cons part rest ih =>
    rw [List.map_cons, List.countP_cons, ih]
    cases sent : part.1.src with
    | none =>
      have passed : srcsOf producer (part :: rest) = srcsOf producer rest :=
        List.filterMap_cons_none (by rw [sent]; rfl)
      rw [passed]
      simp [isBatch]
    | some src =>
      by_cases same : src.producer = producer
      · have mine : srcsOf producer (part :: rest) = src :: srcsOf producer rest :=
          List.filterMap_cons_some (by rw [sent, Option.filter_some_pos (by simpa using same)])
        rw [mine, List.map_cons, List.count_cons]
        simp [isBatch, same]
      · have others : srcsOf producer (part :: rest) = srcsOf producer rest :=
          List.filterMap_cons_none (by rw [sent, Option.filter_some_neg (by simpa using same)])
        rw [others]
        simp [isBatch, same]

theorem Write.Exact.rowsFor {write : Write} (exact' : write.Exact) (producer : String) (seq : Nat) :
    ((segEntries write.segs).filter fun entry => isBatch producer seq entry.src).length ≤
      ((takenOf producer write.answers).map (·.seq)).count seq := by
  rw [← List.countP_eq_length_filter]
  have tagged : (segEntries write.segs).countP (fun entry => isBatch producer seq entry.src) =
      ((segEntries write.segs).map Entry.tag).countP fun tag => isBatch producer seq tag.1 := by
    rw [List.countP_map]
    rfl
  rw [tagged, exact'.rows.countP_eq, List.countP_map, takenOf_srcs, ← countP_srcsOf]
  exact List.filter_sublist.countP_le

/-- The rows of a batch in the segments are those its producer's batches were taken with. -/
theorem rowsFor_le (s : Sequencer) (exact' : ∀ write ∈ s.wrote, write.Exact) (producer : String)
    (seq : Nat) : (s.rowsFor producer seq).length ≤
      ((takenOf producer s.answered).map (·.seq)).count seq := by
  unfold Sequencer.rowsFor Sequencer.answered
  generalize s.wrote = writes at exact'
  induction writes with
  | nil => exact Nat.zero_le _
  | cons write rest ih =>
    have first := (exact' write List.mem_cons_self).rowsFor producer seq
    have others := ih fun other inside => exact' other (List.mem_cons_of_mem _ inside)
    rw [List.flatMap_cons, List.filter_append, List.length_append, List.flatMap_cons,
      takenOf_append, List.map_append, List.count_append]
    exact Nat.add_le_add first others

/-- On one leader, with no expiry due: each catalog write holds exactly what its flushes were told; and
for a producer whose mark is neither deleted by a file commit nor forgotten, the batches taken climb from
its first mark, the mark is the last of them, and no batch has its rows in the log twice. -/
theorem run_once (config : Config) (base : Catalog) (now : Nat) (ops : List Op)
    (legal : ((sequencer config).only (Sequencer.Quiet config)).Legal
      (Sequencer.start base [] now) ops) :
    let s := (sequencer config).run (Sequencer.start base [] now) ops
    (∀ write ∈ s.wrote, write.Exact) ∧
      ∀ producer, producer ≠ "" → (∀ op ∈ ops, op.Spares producer) →
        let foot := (base.marks.lookup producer).getD 0
        Climbs (·.seq) (·.prev) foot (takenOf producer s.answered) ∧
          (s.full.marks.lookup producer).getD 0 = top (·.seq) foot (takenOf producer s.answered) ∧
          ∀ seq, (s.rowsFor producer seq).length ≤ 1 := by
  have exact' : ∀ write ∈ ((sequencer config).run (Sequencer.start base [] now) ops).wrote,
      write.Exact :=
    (sequencer config).run_invariant (fun s => ∀ write ∈ s.wrote, write.Exact)
      (fun s op held _ => step_exact config s op held) _ ops
      (fun _ none => absurd none List.not_mem_nil) ((sequencer config).only_legal _ _ ops legal)
  refine ⟨exact', fun producer named spares => ?_⟩
  have once := run_tracked config producer named _ ops _ (start_once base now producer) legal spares
  exact ⟨once.climbs, once.mark, fun seq =>
    (rowsFor_le _ exact' producer seq).trans (once.climbs.once seq)⟩

section runs

def emptyCatalog : Catalog := ⟨∅, ∅, none, none, none⟩

/-- Two minutes' lease window, and 64 days. -/
def usual : Config := ⟨60, 5529600000⟩

/-- A commit at `now`, over a copy of the catalog with `copy` writes in it. -/
def plainEnv (copy now : Nat) : Env := ⟨false, [], ⟨fun _ => [], []⟩, now, now, copy⟩

def plainSeen (copy : Nat) : Seen :=
  ⟨copy, [], fun _ => some ⟨[], 0, false, []⟩, .refused "no sequence", 0⟩

/-- A flush of one row of table `t`, sent as this batch. -/
def oneRow (producer : String) (seq : Nat) : Flush :=
  ⟨"", [⟨"t", 0, 1, 1, some ⟨producer, seq, none⟩, none⟩], [7], 0, false, 0, [], none, false⟩

/-- A file loaded as the version that replaces an older load's, whose mark goes. -/
def replacing (older newer : String) : Flush :=
  ⟨"", [⟨"t", 0, 0, 0, some ⟨newer, 1, none⟩, none⟩], [], 0, false, 0,
    [⟨"t", ⟨[], 0, false, []⟩, [⟨"b.parquet", 5, 0, none⟩], [], [], [], [older]⟩], none, false⟩

def resentRun : List Op :=
  [.commit (plainEnv 0 0) [(plainSeen 0, oneRow "sql:a" 1)],
    .commit (plainEnv 0 1) [(plainSeen 0, oneRow "sql:a" 1), (plainSeen 0, oneRow "sql:a" 2)]]

theorem resentRun_legal : ((sequencer usual).only (Sequencer.Quiet usual)).Legal
    (Sequencer.start emptyCatalog [] 0) resentRun :=
  ⟨⟨⟨by decide, by decide, by decide, by decide, by decide⟩, by decide⟩,
    ⟨⟨by decide, by decide, by decide, by decide, by decide⟩, by decide⟩, trivial⟩

/-- A batch sent twice while its first commit is in flight. -/
theorem resentRun_once :
    (((sequencer usual).run (Sequencer.start emptyCatalog [] 0) resentRun).rowsFor "sql:a" 1).length
      ≤ 1 :=
  ((run_once usual emptyCatalog 0 resentRun resentRun_legal).2 "sql:a" (by decide)
    (by unfold resentRun; decide)).2.2 1

def replacedRun : List Op :=
  [.commit (plainEnv 0 0) [(plainSeen 0, oneRow "job:load:a" 1)],
    .commit (plainEnv 1 1) [(plainSeen 1, replacing "job:load:a" "job:load:b")],
    .commit (plainEnv 2 2) [(plainSeen 2, oneRow "job:load:a" 1)]]

/-- A file commit takes out the mark of the load it replaces; that load's batch is taken again. -/
theorem replacedRun_twice :
    ((sequencer usual).only (Sequencer.Quiet usual)).Legal
      (Sequencer.start emptyCatalog [] 0) replacedRun ∧
    (((sequencer usual).run (Sequencer.start emptyCatalog [] 0) replacedRun).rowsFor
      "job:load:a" 1).length = 2 :=
  ⟨⟨⟨⟨by decide, by decide, by decide, by decide, by decide⟩, by decide⟩,
    ⟨⟨by decide, by decide, by decide, by decide, by decide⟩, by decide⟩,
    ⟨⟨by decide, by decide, by decide, by decide, by decide⟩, by decide⟩, trivial⟩, by decide⟩

end runs

end Pondra.Log
