import Pondra.Log.Marks

set_option autoImplicit false

namespace Pondra.Log

open Dicts Machines

/-! ### What the due keys take -/

theorem seqOf_congr (catalog : Catalog) (last other : Dict String Nat)
    (pending : List (Dict String Nat)) (producer : String)
    (same : last.lookup producer = other.lookup producer) :
    seqOf catalog last pending producer = seqOf catalog other pending producer := by
  unfold seqOf
  rw [same]

theorem seqOf_pending (catalog : Catalog) (last seqs : Dict String Nat) (producer : String) :
    seqOf catalog last [seqs] producer =
      (seqs.lookup producer).getD (seqOf catalog last [] producer) := by
  unfold seqOf
  cases pending : seqs.lookup producer with
  | some seq => simp [pending]
  | none => simp [pending]

/-- What is remembered once some producers' marks went. -/
def LetGo (before last : Dict String Nat) (going : List String) : Prop :=
  ∀ producer, last.lookup producer = if producer ∈ going then none else before.lookup producer

/-- A mark goes with a due key that holds its seq, unless this commit moves it; and with each such key. -/
theorem expireMarks_spec (catalog : Catalog) (seqs before : Dict String Nat)
    (due : List (Σ _ : Expiry, Nat)) (last : Dict String Nat) (going : List String)
    (letGo : LetGo before last going) :
    let gone := expireMarks catalog seqs due (last, going)
    LetGo before gone.1 gone.2 ∧
      (∀ producer, producer ∈ gone.2 ↔ producer ∈ going ∨
        producer ∉ seqs ∧ ∃ mark ∈ due, mark.1.producer = producer ∧
          (seqOf catalog before [seqs] producer = mark.2)) := by
  induction due generalizing last going with
  | nil =>
    refine ⟨letGo, fun producer => ?_⟩
    simp [expireMarks]
  | cons mark rest ih =>
    obtain ⟨key, seq⟩ := mark
    simp only [expireMarks]
    split
    · rename_i stays
      obtain ⟨after, goes⟩ := ih last going letGo
      refine ⟨after, fun producer => ?_⟩
      rw [goes]
      constructor
      · rintro (held | ⟨free, mark, inside, rest⟩)
        · exact .inl held
        · exact .inr ⟨free, mark, List.mem_cons_of_mem _ inside, rest⟩
      · rintro (held | ⟨free, mark, inside, rfl, same⟩)
        · exact .inl held
        · rcases List.mem_cons.mp inside with rfl | inside
          · by_cases already : key.producer ∈ going
            · exact .inl already
            · have kept : seqOf catalog last [seqs] key.producer =
                  seqOf catalog before [seqs] key.producer :=
                seqOf_congr _ _ _ _ _ (by rw [letGo, if_neg already])
              rw [kept] at stays
              rcases stays with pending | differs | held
              · exact absurd pending free
              · exact absurd same differs
              · exact .inl held
          · exact .inr ⟨free, mark, inside, rfl, same⟩
    · rename_i goes'
      rw [not_or, not_or, not_not] at goes'
      obtain ⟨free, same, new⟩ := goes'
      have letGo' : LetGo before (last.erase key.producer) (going ++ [key.producer]) := by
        intro producer
        by_cases hit : producer = key.producer
        · subst hit
          rw [AList.lookup_erase, if_pos (by simp)]
        · rw [AList.lookup_erase_ne hit, letGo]
          simp [hit]
      obtain ⟨after, goes⟩ := ih _ _ letGo'
      refine ⟨after, fun producer => ?_⟩
      rw [goes]
      have kept : seqOf catalog before [seqs] key.producer = seq := by
        rw [← same]
        exact seqOf_congr _ _ _ _ _ (by rw [letGo, if_neg new])
      constructor
      · rintro (held | ⟨free', mark, inside, rest⟩)
        · rcases List.mem_append.mp held with held | hit
          · exact .inl held
          · rw [List.mem_singleton.mp hit]
            exact .inr ⟨free, ⟨key, seq⟩, List.mem_cons_self, rfl, kept⟩
        · exact .inr ⟨free', mark, List.mem_cons_of_mem _ inside, rest⟩
      · rintro (held | ⟨free', mark, inside, rfl, same'⟩)
        · exact .inl (List.mem_append_left _ held)
        · rcases List.mem_cons.mp inside with rfl | inside
          · exact .inl (List.mem_append_right _ (List.mem_singleton.mpr rfl))
          · exact .inr ⟨free', mark, inside, rfl, same'⟩

theorem letGo_none (last : Dict String Nat) : LetGo last last [] := by
  intro producer
  simp

namespace Sequencer

variable (s : Sequencer) (config : Config)

/-- What a commit does with the marks: which go, and what is remembered then. -/
theorem settle_spec (now copy : Nat) (last seqs : Dict String Nat) :
    let settled := s.settle config now copy last seqs
    let due := s.due config now copy
    LetGo last settled.last settled.dropped ∧ settled.expired = due.map (·.1) ∧
      ∀ producer, producer ∈ settled.dropped ↔ producer ∉ seqs ∧
        ∃ mark ∈ due, mark.1.producer = producer ∧
          seqOf (s.copy copy) last [seqs] producer = mark.2 := by
  obtain ⟨letGo, goes⟩ := expireMarks_spec (s.copy copy) seqs last (s.due config now copy) last []
    (letGo_none last)
  have gone : ∀ producer,
      producer ∈ (expireMarks (s.copy copy) seqs (s.due config now copy) (last, [])).2 ↔
        producer ∉ seqs ∧ ∃ mark ∈ s.due config now copy, mark.1.producer = producer ∧
          seqOf (s.copy copy) last [seqs] producer = mark.2 := by
    intro producer
    rw [goes]
    simp
  unfold settle
  cases s.pass with
  | done => exact ⟨letGo, rfl, gone⟩
  | cursor after => exact ⟨letGo, rfl, gone⟩

/-- A due key is in the copy the commit looked at, and its time has come. -/
theorem due_mem (now copy : Nat) (mark : Σ _ : Expiry, Nat)
    (inside : mark ∈ s.due config now copy) :
    (s.copy copy).expiries.lookup mark.1 = some mark.2 ∧ mark.1.due ≤ now := by
  unfold due at inside
  split at inside
  · obtain ⟨held, ranged⟩ := scanFirst_mem _ _ _ _ inside
    exact ⟨held, of_decide_eq_true ranged⟩
  · exact absurd inside List.not_mem_nil

/-! ### Copies of the catalog -/

theorem copy_full : s.copy s.wrote.length = s.full := by
  rw [copy, List.take_length]
  rfl

variable (env : Env) (batch : List (Seen × Flush))

theorem commit_eq (open' : env.frozen = false) :
    s.commit config env batch =
      { s with
        wrote := s.wrote ++ [s.write config env batch]
        landed := env.copy
        next := (s.sequence env batch).next
        block := (s.sequence env batch).block
        last := (s.sequence env batch).seqs ∪ (s.settled config env batch).last
        pass := (s.settled config env batch).pass
        forgotten := ((s.sequence env batch).lost ++
          (s.settled config env batch).dropped).filter (startsWith "job:")
        clock := env.now } := by
  unfold commit
  rw [open']
  rfl

theorem copy_commit (n : Nat) (within : n ≤ s.wrote.length) :
    (s.commit config env batch).copy n = s.copy n := by
  cases open' : env.frozen with
  | true =>
    unfold commit
    rw [if_pos open']
    rfl
  | false =>
    rw [s.commit_eq config env batch open']
    show ((s.wrote ++ _).take n).foldl Catalog.apply s.base = _
    rw [List.take_append_of_le_length within]
    rfl

theorem full_commit (open' : env.frozen = false) :
    (s.commit config env batch).full = s.full.apply (s.write config env batch) := by
  rw [s.commit_eq config env batch open']
  show (s.wrote ++ [_]).foldl Catalog.apply s.base = _
  rw [List.foldl_append]
  rfl

end Sequencer

theorem apply_marks (catalog : Catalog) (write : Write) (producer : String) :
    (catalog.apply write).marks.lookup producer =
      if producer ∈ write.dropped then none
      else (write.marks.lookup producer).or (catalog.marks.lookup producer) := by
  show (without _ _).lookup producer = _
  rw [lookup_without, lookup_union]

theorem apply_expiries (catalog : Catalog) (write : Write) (key : Expiry) :
    (catalog.apply write).expiries.lookup key =
      if key ∈ write.expired then none
      else (write.expiries.lookup key).or (catalog.expiries.lookup key) := by
  show (without _ _).lookup key = _
  rw [lookup_without, lookup_union]

/-! ### What the sequencer knows of a mark -/

/-- A producer that an op neither has forgotten nor whose mark its file commits delete. -/
def Op.Spares (producer : String) : Op → Prop
  | .commit env batch => producer ∉ env.forgets ∧
      ∀ x ∈ batch, ∀ filing ∈ x.2.filed, producer ∉ filing.gone
  | .restart _ _ => True

instance (producer : String) (op : Op) : Decidable (op.Spares producer) :=
  match op with
  | .commit _ _ => inferInstanceAs (Decidable (_ ∧ _))
  | .restart _ _ => inferInstanceAs (Decidable True)

/-- What is remembered of a producer is its mark; one not remembered has the mark it has in every copy
of the catalog, or none is left. -/
def Sequencer.Knows (s : Sequencer) (producer : String) : Prop :=
  (∃ seq, s.last.lookup producer = some seq ∧ s.full.marks.lookup producer = some seq) ∨
  (s.last.lookup producer = none ∧ ∀ n, s.landed ≤ n → n ≤ s.wrote.length →
    (s.copy n).marks.lookup producer = s.full.marks.lookup producer) ∨
  (s.last.lookup producer = none ∧ s.full.marks.lookup producer = none)

structure Sequencer.Tracks (s : Sequencer) (producer : String) : Prop where
  knows : s.Knows producer
  forgotten : producer ∈ s.forgotten → s.last.lookup producer = none

theorem lost_of (s : Sequencer) (views : Inline) (batch : List (Seen × Flush)) (b : Batch)
    (producer : String) (spares : ∀ x ∈ batch, ∀ filing ∈ x.2.filed, producer ∉ filing.gone)
    (none : producer ∉ b.lost) : producer ∉ (batch.foldl (takeFlush s views) b).lost := by
  induction batch generalizing b with
  | nil => exact none
  | cons x rest ih =>
    refine ih _ (fun y inside => spares y (List.mem_cons_of_mem _ inside)) ?_
    have handled := takeFlush_handled s views b x.1 x.2
    show producer ∉ (takeFlush s views b (x.1, x.2)).lost
    generalize takeFlush s views b (x.1, x.2) = later at handled
    cases handled with
    | counted _ _ => exact none
    | reserved _ =>
      unfold Batch.reserve
      simp only
      split
      · exact none
      · exact none
    | sentBack _ => exact none
    | inAlready _ _ => exact none
    | redone _ _ _ _ _ => exact none
    | taken _ _ _ _ =>
      unfold Batch.take
      simp only
      split
      · exact none
      · split
        · exact none
        · show producer ∉ b.lost ++ x.2.filed.flatMap (·.gone)
          rw [List.mem_append, not_or, List.mem_flatMap]
          refine ⟨none, ?_⟩
          rintro ⟨filing, held, gone⟩
          exact spares x List.mem_cons_self filing held gone

theorem Sequencer.sequence_lost (s : Sequencer) (env : Env) (batch : List (Seen × Flush))
    (producer : String) (spares : Op.Spares producer (.commit env batch)) :
    producer ∉ (s.sequence env batch).lost := by
  have none := lost_of (s.forget env) env.views batch
    ⟨s.next, s.block, ∅, [], [], ∅, [], [], [], [], [], none⟩ producer spares.2 List.not_mem_nil
  unfold Sequencer.sequence Batch.finish
  split
  · exact none
  · exact none

namespace Sequencer.Tracks

variable {s : Sequencer} {producer : String}

/-- A mark that is kept is what a commit finds, whatever its copy of the catalog. -/
theorem seqOf (tracks : s.Tracks producer) (n : Nat) (lagging : s.landed ≤ n)
    (within : n ≤ s.wrote.length) (seq : Nat) (mark : s.full.marks.lookup producer = some seq) :
    Log.seqOf (s.copy n) s.last [] producer = seq := by
  unfold Log.seqOf
  rcases tracks.knows with ⟨seq', last, full⟩ | ⟨last, copies⟩ | ⟨last, none⟩
  · rw [mark, Option.some.injEq] at full
    subst full
    simp [last]
  · rw [copies n lagging within, mark]
    simp [last]
  · rw [mark] at none
    cases none

theorem forget (tracks : s.Tracks producer) (env : Env) (spares : producer ∉ env.forgets) :
    (s.forget env).last.lookup producer = s.last.lookup producer := by
  show (without s.last (s.forgotten ++ env.forgets)).lookup producer = _
  rw [lookup_without]
  split
  · rename_i inside
    rcases List.mem_append.mp inside with forgot | forgets
    · exact (tracks.forgotten forgot).symm
    · exact absurd forgets spares
  · rfl

theorem commit (tracks : s.Tracks producer) (config : Config) (env : Env)
    (batch : List (Seen × Flush)) (allowed : s.Allows (.commit env batch))
    (spares : Op.Spares producer (.commit env batch)) :
    (s.commit config env batch).Tracks producer := by
  obtain ⟨_, _, landed, within, _⟩ := allowed
  cases open' : env.frozen with
  | true =>
    unfold Sequencer.commit
    rw [if_pos open']
    refine ⟨tracks.knows, fun forgot => ?_⟩
    rcases List.mem_append.mp forgot with forgot | forgets
    · exact tracks.forgotten forgot
    · exact absurd forgets spares.1
  | false =>
    have full := s.full_commit config env batch open'
    have copies := s.copy_commit config env batch
    obtain ⟨letGo, _, goes⟩ := s.settle_spec config env.now env.copy (s.forget env).last
      (s.sequence env batch).seqs
    have lost := s.sequence_lost env batch producer spares
    rw [s.commit_eq config env batch open'] at full copies ⊢
    have mark := apply_marks s.full (s.write config env batch) producer
    rw [← full] at mark
    have last : ((s.sequence env batch).seqs ∪ (s.settled config env batch).last).lookup producer =
        ((s.sequence env batch).seqs.lookup producer).or
          (if producer ∈ (s.settled config env batch).dropped then none
          else s.last.lookup producer) := by
      rw [lookup_union]
      congr 1
      rw [← tracks.forget env spares.1]
      exact letGo producer
    have dropped : producer ∈ (s.write config env batch).dropped ↔
        producer ∈ (s.settled config env batch).dropped := by
      show producer ∈ (s.sequence env batch).lost ++ _ ↔ _
      rw [List.mem_append]
      exact ⟨fun inside => inside.resolve_left lost, .inr⟩
    have unmoved (gone : producer ∈ (s.settled config env batch).dropped) :
        (s.sequence env batch).seqs.lookup producer = none :=
      AList.lookup_eq_none.mpr ((goes producer).mp gone).1
    refine ⟨?_, ?_⟩
    · unfold Knows
      simp only [last, mark, dropped]
      by_cases gone : producer ∈ (s.settled config env batch).dropped
      · rw [if_pos gone, if_pos gone, unmoved gone]
        exact .inr (.inr ⟨rfl, rfl⟩)
      · rw [if_neg gone, if_neg gone]
        show _ ∨ _ ∨ _
        cases moved : (s.sequence env batch).seqs.lookup producer with
        | some seq =>
          have written : (s.write config env batch).marks.lookup producer = some seq := moved
          rw [written]
          exact .inl ⟨seq, rfl, rfl⟩
        | none =>
          have written : (s.write config env batch).marks.lookup producer = none := moved
          rw [written, Option.none_or, Option.none_or]
          rcases tracks.knows with known | ⟨unknown, lagging⟩ | none
          · exact .inl known
          · refine .inr (.inl ⟨unknown, fun n after within' => ?_⟩)
            rw [List.length_append, List.length_singleton] at within'
            by_cases old : n ≤ s.wrote.length
            · rw [copies n old]
              exact lagging n (landed.trans after) old
            · have new : n = s.wrote.length + 1 := by omega
              rw [new, copy, List.take_of_length_le (by simp)]
              refine mark.trans ?_
              rw [if_neg fun inside => gone (dropped.mp inside), written, Option.none_or]
          · exact .inr (.inr none)
    · intro forgot
      show _ = none
      rw [last]
      have inside := List.mem_of_mem_filter forgot
      rcases List.mem_append.mp inside with gone | gone
      · exact absurd gone lost
      · rw [if_pos gone, unmoved gone]
        rfl

end Sequencer.Tracks

end Pondra.Log
