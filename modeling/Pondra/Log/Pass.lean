import Pondra.Log.Resend

set_option autoImplicit false

namespace Pondra.Log

open Dicts Ladders Machines

/-! ### Marks with keys -/

/-- An expiry key of the producer holds this seq. -/
def Catalog.Keyed (catalog : Catalog) (producer : String) (seq : Nat) : Prop :=
  ∃ due, catalog.expiries.lookup ⟨due, producer⟩ = some seq

/-- The old marks' pass hasn't come to the producer yet. -/
def Pass.Before (producer : String) : Pass → Prop
  | .cursor after => after < producer
  | .done => False

/-- Where the pass is, as a sequencer that starts on the catalog finds it. -/
def Catalog.passed (catalog : Catalog) : Pass := catalog.pass.getD (.cursor "")

/-- Each mark that isn't kept for good has a key with its seq, or the pass is still to come to it. -/
def Catalog.Covered (config : Config) (catalog : Catalog) : Prop :=
  ∀ producer now seq, 0 < keptMs config producer now → catalog.marks.lookup producer = some seq →
    0 < seq ∧ (catalog.Keyed producer seq ∨ catalog.passed.Before producer)

/-- The expiry keys in flight are not due yet: the leader's copy isn't a window behind. -/
def Sequencer.Prompt (s : Sequencer) : Op → Prop
  | .commit env _ => ∀ write ∈ s.wrote.drop env.copy, ∀ key ∈ write.expiries.keys, env.now < key.due
  | .restart _ _ => True

instance (s : Sequencer) (op : Op) : Decidable (s.Prompt op) :=
  match op with
  | .commit _ _ => inferInstanceAs (Decidable (∀ write ∈ _, ∀ key ∈ _, _))
  | .restart _ _ => inferInstanceAs (Decidable True)

/-! ### The keys of one commit -/

namespace Sequencer

variable (s : Sequencer) (config : Config)

theorem settle_moved (now copy : Nat) (last seqs : Dict String Nat) (producer : String) (seq : Nat)
    (kept : 0 < keptMs config producer now) (moved : seqs.lookup producer = some seq) :
    (s.settle config now copy last seqs).expiries.lookup
      ⟨now + keptMs config producer now, producer⟩ = some seq := by
  have keyed := (keyMarks_lookup config now seqs ⟨now + keptMs config producer now, producer⟩
    seq).mpr ⟨⟨rfl, kept⟩, moved⟩
  have inside : producer ∈ seqs := by
    rw [← AList.lookup_isSome, moved]
    rfl
  unfold settle
  cases s.pass with
  | done => exact keyed
  | cursor after =>
    refine (keyPage_lookup _ _ _ _ _ _ _ _ _).mpr (.inr ⟨fun paged => ?_, keyed⟩)
    exact paged.2.2.1 inside

/-- A key that a commit makes holds the seq the mark stands at. -/
theorem settle_same (now copy : Nat) (last seqs : Dict String Nat) (key : Expiry) (seq : Nat)
    (found : (s.settle config now copy last seqs).expiries.lookup key = some seq) :
    seqs.lookup key.producer = some seq ∨ key.producer ∉ seqs ∧
      seqOf (s.copy copy) (s.settle config now copy last seqs).last [seqs] key.producer = seq := by
  unfold settle at found ⊢
  cases pass : s.pass with
  | done =>
    rw [pass] at found
    exact .inl ((keyMarks_lookup _ _ _ _ _).mp found).2
  | cursor after =>
    rw [pass] at found
    rcases (keyPage_lookup _ _ _ _ _ _ _ _ _).mp found with ⟨paged, stands⟩ | ⟨_, held⟩
    · exact .inr ⟨paged.2.2.1, stands⟩
    · exact .inl ((keyMarks_lookup _ _ _ _ _).mp held).2

/-- The pass keys an old mark it comes to, or stops before it. -/
theorem settle_paged (now copy : Nat) (last seqs : Dict String Nat) (producer : String) (seq : Nat)
    (kept : 0 < keptMs config producer now) (ahead : s.pass.Before producer)
    (held : (s.copy copy).marks.lookup producer = some seq) (unmoved : producer ∉ seqs)
    (stands : seqOf (s.copy copy) (s.settle config now copy last seqs).last [seqs] producer = seq)
    (some' : 0 < seq) :
    (s.settle config now copy last seqs).expiries.lookup
        ⟨now + keptMs config producer now, producer⟩ = some seq ∨
      (s.settle config now copy last seqs).pass.Before producer := by
  unfold settle at stands ⊢
  cases pass : s.pass with
  | done =>
    rw [pass] at ahead
    exact ahead.elim
  | cursor after =>
    rw [pass] at ahead stands
    have ahead : after < producer := ahead
    by_cases inside : (⟨producer, seq⟩ : Σ _ : String, Nat) ∈ scanFirst (s.copy copy).marks
        (fun producer => decide (after < producer)) perCommit
    · refine .inl ((keyPage_lookup _ _ _ _ _ _ _ _ _).mpr (.inl ⟨⟨⟨rfl, kept⟩, ?_, unmoved, ?_⟩,
        stands⟩))
      · exact List.mem_map_of_mem (f := fun mark : (Σ _ : String, Nat) => mark.1) inside
      · exact (Nat.ne_of_gt some') ∘ stands.symm.trans
    · obtain ⟨full, before⟩ := scanFirst_rest _ _ _ _ _ held (decide_eq_true ahead) inside
      refine .inr ?_
      simp only
      generalize page : scanFirst (s.copy copy).marks (fun producer => decide (after < producer))
        perCommit = marks at inside full before
      have some : marks ≠ [] := by
        intro empty
        rw [empty] at full
        cases full
      rw [List.getLast?_eq_some_getLast some]
      simp only [full, if_true]
      show (marks.getLast some).1 < producer
      have last := List.getLast_mem some
      refine lt_of_le_of_ne (before _ last) fun same => inside ?_
      have scanned : marks.getLast some ∈ scanFirst (s.copy copy).marks
          (fun producer => decide (after < producer)) perCommit := by
        rw [page]
        exact last
      have found := (scanFirst_mem _ _ _ _ scanned).1
      rw [same, held, Option.some.injEq] at found
      have whole : (⟨producer, seq⟩ : Σ _ : String, Nat) = marks.getLast some := by
        rw [← same, found]
      rw [whole]
      exact last

theorem settle_pass (now copy : Nat) (last seqs : Dict String Nat) :
    (s.settle config now copy last seqs).pass =
      ((s.settle config now copy last seqs).moved).getD s.pass := by
  unfold settle
  cases s.pass with
  | done => rfl
  | cursor after => rfl

end Sequencer

/-! ### What writes leave as it was -/

/-- A mark that no write put is the one there was. -/
theorem foldl_unput (writes : List Write) (catalog : Catalog) (producer : String) (seq : Nat)
    (unput : ∀ write ∈ writes, producer ∉ write.marks)
    (held : (writes.foldl Catalog.apply catalog).marks.lookup producer = some seq) :
    catalog.marks.lookup producer = some seq := by
  induction writes generalizing catalog with
  | nil => exact held
  | cons write rest ih =>
    have later := ih _ (fun other inside => unput other (List.mem_cons_of_mem _ inside)) held
    rw [apply_marks] at later
    split at later
    · cases later
    · rwa [AList.lookup_eq_none.mpr (unput write List.mem_cons_self), Option.none_or] at later

/-- A key that no write put is the one there was. -/
theorem foldl_expiries (writes : List Write) (catalog : Catalog) (key : Expiry) (seq : Nat)
    (held : (writes.foldl Catalog.apply catalog).expiries.lookup key = some seq) :
    catalog.expiries.lookup key = some seq ∨ ∃ write ∈ writes, key ∈ write.expiries := by
  induction writes generalizing catalog with
  | nil => exact .inl held
  | cons write rest ih =>
    rcases ih _ held with later | ⟨other, inside, put⟩
    · rw [apply_expiries] at later
      split at later
      · cases later
      · cases own : write.expiries.lookup key with
        | none => exact .inl (by rwa [own, Option.none_or] at later)
        | some _ =>
          refine .inr ⟨write, List.mem_cons_self, ?_⟩
          rw [← AList.lookup_isSome, own]
          rfl
    · exact .inr ⟨other, List.mem_cons_of_mem _ inside, put⟩

namespace Sequencer

variable (s : Sequencer)

theorem full_drop (n : Nat) : s.full = (s.wrote.drop n).foldl Catalog.apply (s.copy n) := by
  rw [copy, ← List.foldl_append, List.take_append_drop]
  rfl

/-- The batches a commit takes have seqs above 0. -/
theorem foldl_positive (views : Inline) (producer : String) (named : producer ≠ "")
    (batch : List (Seen × Flush)) (b : Batch)
    (before : ∀ src ∈ takenOf producer b.answers, 0 < src.seq) :
    ∀ src ∈ takenOf producer (batch.foldl (takeFlush s views) b).answers, 0 < src.seq := by
  induction batch generalizing b with
  | nil => exact before
  | cons x rest ih =>
    refine ih (takeFlush s views b x) ?_
    obtain ⟨outcome, taken, answers, _, effect⟩ := (takeFlush_handled s views b x.1 x.2).answered
    have answers' : (takeFlush s views b x).answers = _ := answers
    rw [answers', takenOf_append, takenOf_single]
    intro src inside
    rcases List.mem_append.mp inside with old | new
    · exact before src old
    · rcases effect with ⟨rfl, _⟩ | ⟨rfl, _⟩
      · exact absurd new List.not_mem_nil
      · obtain ⟨climbs, _⟩ := s.bad_climbs x.1 b.seqs x.2 producer named
        exact Nat.zero_lt_of_lt (climbs.rises.1 src new)

theorem sequence_positive (env : Env) (batch : List (Seen × Flush)) (producer : String)
    (named : producer ≠ "") (seq : Nat)
    (moved : (s.sequence env batch).seqs.lookup producer = some seq) : 0 < seq := by
  have marks := s.sequence_marks env batch producer named
  rw [moved] at marks
  obtain ⟨src, last, rfl⟩ := Option.map_eq_some_iff.mp marks.symm
  have taken := List.mem_of_getLast? last
  unfold sequence at taken
  rw [finish_taken] at taken
  exact foldl_positive (s.forget env) env.views producer named batch _
    (fun _ none => absurd none List.not_mem_nil) src taken

/-! ### Every mark has its key -/

/-- What holds of a producer's mark in every copy of the catalog: it has a key with its seq, or the pass is
still to come to it and no write has moved it. -/
structure Covers (config : Config) (producer : String) : Prop where
  tracks : s.Tracks producer
  pass : s.pass = s.full.passed
  marks : ∀ n, n ≤ s.wrote.length → ∀ seq, (s.copy n).marks.lookup producer = some seq → 0 < seq ∧
    ((s.copy n).Keyed producer seq ∨ (s.copy n).passed.Before producer ∧
      ∀ write ∈ s.wrote.take n, producer ∉ write.marks)

end Sequencer

theorem start_covers (config : Config) (base : Catalog) (began : Nat) (producer : String) (now : Nat)
    (kept : 0 < keptMs config producer now) (covered : base.Covered config) :
    (Sequencer.start base [] began).Covers config producer where
  tracks := start_tracks base [] began producer
  pass := rfl
  marks := by
    intro n within seq held
    have none : n = 0 := Nat.le_zero.mp within
    subst none
    obtain ⟨some, keyed⟩ := covered producer now seq kept held
    refine ⟨some, keyed.imp id fun before => ⟨before, ?_⟩⟩
    exact fun _ none => absurd none List.not_mem_nil

namespace Sequencer.Covers

variable {s : Sequencer} {config : Config} {producer : String}

theorem restart (covers : s.Covers config producer) (kept now : Nat) (within : kept ≤ s.wrote.length) :
    (Sequencer.start s.base (s.wrote.take kept) now).Covers config producer := by
  have long : (s.wrote.take kept).length = kept := by
    rw [List.length_take, Nat.min_eq_left within]
  refine ⟨start_tracks _ _ _ _, rfl, fun n inside seq held => ?_⟩
  have inside : n ≤ kept := long ▸ inside
  rw [s.copy_restart kept now n inside] at held ⊢
  obtain ⟨some, keyed⟩ := covers.marks n (inside.trans within) seq held
  refine ⟨some, keyed.imp id fun ⟨before, unput⟩ => ⟨before, fun write held => ?_⟩⟩
  refine unput write ?_
  have held : write ∈ (s.wrote.take kept).take n := held
  rwa [List.take_take, Nat.min_eq_left inside] at held

/-- A mark that a commit leaves has its key after it. -/
theorem commit_keyed (covers : s.Covers config producer) (named : producer ≠ "") (env : Env)
    (batch : List (Seen × Flush)) (kept : 0 < keptMs config producer env.now)
    (allowed : s.Allows (.commit env batch)) (prompt : s.Prompt (.commit env batch))
    (spares : Op.Spares producer (.commit env batch)) (seq : Nat)
    (held : (s.full.apply (s.write config env batch)).marks.lookup producer = some seq) :
    0 < seq ∧ ((s.full.apply (s.write config env batch)).Keyed producer seq ∨
      (s.settled config env batch).pass.Before producer ∧
        ∀ write ∈ s.wrote ++ [s.write config env batch], producer ∉ write.marks) := by
  obtain ⟨_, _, landed, within, _⟩ := allowed
  obtain ⟨letGo, expired, goes⟩ := s.settle_spec config env.now env.copy (s.forget env).last
    (s.sequence env batch).seqs
  have forgot := covers.tracks.forget env spares.1
  have fresh : (⟨env.now + keptMs config producer env.now, producer⟩ : Expiry) ∉
      (s.write config env batch).expired := by
    intro inside
    have inside : _ ∈ (s.settle config env.now env.copy (s.forget env).last
      (s.sequence env batch).seqs).expired := inside
    rw [expired] at inside
    obtain ⟨mark, due, same⟩ := List.mem_map.mp inside
    have past := (s.due_mem config env.now env.copy mark due).2
    rw [same] at past
    exact absurd past (by simp only; omega)
  rw [apply_marks] at held
  split at held
  · cases held
  · rename_i stays
    have unsettled : producer ∉ (s.settled config env batch).dropped := fun gone =>
      stays (List.mem_append_right _ gone)
    cases moved : (s.sequence env batch).seqs.lookup producer with
    | some other =>
      have written : (s.write config env batch).marks.lookup producer = some other := moved
      rw [written, Option.some_or, Option.some.injEq] at held
      subst held
      refine ⟨s.sequence_positive env batch producer named other moved,
        .inl ⟨env.now + keptMs config producer env.now, ?_⟩⟩
      have keyed : (s.write config env batch).expiries.lookup
          ⟨env.now + keptMs config producer env.now, producer⟩ = some other :=
        s.settle_moved config env.now env.copy _ _ producer other kept moved
      rw [apply_expiries, if_neg fresh, keyed]
      rfl
    | none =>
      have unmoved : producer ∉ (s.sequence env batch).seqs := AList.lookup_eq_none.mp moved
      have written : (s.write config env batch).marks.lookup producer = none := moved
      rw [written, Option.none_or] at held
      have found := covers.tracks.seqOf env.copy landed within seq held
      have stands (last : Dict String Nat) (same : last.lookup producer = s.last.lookup producer) :
          seqOf (s.copy env.copy) last [(s.sequence env batch).seqs] producer = seq := by
        rw [seqOf_pending, moved, Option.getD_none, seqOf_congr _ _ s.last _ _ same]
        exact found
      have settled : (s.settled config env batch).last.lookup producer = s.last.lookup producer := by
        refine (letGo producer).trans ?_
        exact (if_neg unsettled).trans forgot
      rw [← s.copy_full] at held
      obtain ⟨some', keyed⟩ := covers.marks s.wrote.length (Nat.le_refl _) seq held
      rw [s.copy_full] at held keyed
      refine ⟨some', ?_⟩
      rcases keyed with ⟨due, key⟩ | ⟨before, unput⟩
      · refine .inl ⟨due, ?_⟩
        have lasts : (⟨due, producer⟩ : Expiry) ∉ (s.write config env batch).expired := by
          intro inside
          have inside : _ ∈ (s.settle config env.now env.copy (s.forget env).last
            (s.sequence env batch).seqs).expired := inside
          rw [expired] at inside
          obtain ⟨⟨expiry, value⟩, isDue, rfl⟩ := List.mem_map.mp inside
          obtain ⟨copied, past⟩ := s.due_mem config env.now env.copy _ isDue
          rw [s.full_drop env.copy] at key
          rcases foldl_expiries _ _ _ _ key with same | ⟨write, flying, put⟩
          · rw [copied, Option.some.injEq] at same
            exact unsettled ((goes producer).mpr ⟨unmoved, _, isDue, rfl,
              (stands _ forgot).trans same.symm⟩)
          · have later := prompt write flying _ (AList.mem_keys.mp put)
            exact absurd later (Nat.not_lt.mpr past)
        rw [apply_expiries, if_neg lasts]
        cases own : (s.write config env batch).expiries.lookup ⟨due, producer⟩ with
        | none => exact key
        | some value =>
          rcases s.settle_same config env.now env.copy _ _ _ _ own with moved' | ⟨_, same⟩
          · rw [moved] at moved'
            cases moved'
          · rw [← same]
            exact congrArg some (stands _ settled)
      · have copied := foldl_unput (s.wrote.drop env.copy) (s.copy env.copy) producer seq
          (fun write inside => unput write (by
            rw [List.take_length]
            exact List.mem_of_mem_drop inside)) (by rw [← s.full_drop]; exact held)
        rw [← covers.pass] at before
        rcases s.settle_paged config env.now env.copy (s.forget env).last _ producer seq kept before
          copied unmoved (stands _ settled) some' with keyed | ahead
        · refine .inl ⟨env.now + keptMs config producer env.now, ?_⟩
          have keyed : (s.write config env batch).expiries.lookup
            ⟨env.now + keptMs config producer env.now, producer⟩ = some seq := keyed
          rw [apply_expiries, if_neg fresh, keyed]
          rfl
        · refine .inr ⟨ahead, fun write inside => ?_⟩
          rcases List.mem_append.mp inside with old | new
          · exact unput write (by rwa [List.take_length])
          · rw [List.mem_singleton.mp new]
            exact unmoved

theorem commit (covers : s.Covers config producer) (named : producer ≠ "") (env : Env)
    (batch : List (Seen × Flush)) (kept : 0 < keptMs config producer env.now)
    (allowed : s.Allows (.commit env batch)) (prompt : s.Prompt (.commit env batch))
    (spares : Op.Spares producer (.commit env batch)) :
    (s.commit config env batch).Covers config producer := by
  have tracks := covers.tracks.commit config env batch allowed spares
  cases open' : env.frozen with
  | true =>
    rw [s.commit_frozen config env batch open'] at tracks ⊢
    exact ⟨tracks, covers.pass, covers.marks⟩
  | false =>
    have long : (s.commit config env batch).wrote.length = s.wrote.length + 1 := by
      rw [s.commit_eq config env batch open']
      simp
    have wrote : (s.commit config env batch).wrote = s.wrote ++ [s.write config env batch] := by
      rw [s.commit_eq config env batch open']
    have passed : (s.settled config env batch).pass =
        (s.full.apply (s.write config env batch)).passed := by
      refine (s.settle_pass config env.now env.copy _ _).trans ?_
      rw [covers.pass]
      show (s.settled config env batch).moved.getD s.full.passed =
        ((s.settled config env batch).moved.or s.full.pass).getD _
      cases (s.settled config env batch).moved with
      | none => rfl
      | some _ => rfl
    refine ⟨tracks, ?_, fun n inside seq held => ?_⟩
    · rw [s.full_commit config env batch open', ← passed, s.commit_eq config env batch open']
    · rw [wrote]
      by_cases old : n ≤ s.wrote.length
      · rw [s.copy_commit config env batch n old] at held ⊢
        rw [List.take_append_of_le_length old]
        exact covers.marks n old seq held
      · rw [long] at inside
        have new : n = s.wrote.length + 1 := by omega
        rw [new, s.copy_last config env batch open'] at held ⊢
        rw [← passed, List.take_of_length_le (by simp)]
        exact covers.commit_keyed named env batch kept allowed prompt spares seq held

end Sequencer.Covers

theorem run_covers (config : Config) (producer : String) (named : producer ≠ "") (now : Nat)
    (kept : 0 < keptMs config producer now) (ops : List Op) (s : Sequencer)
    (covers : s.Covers config producer)
    (legal : ((sequencer config).only Sequencer.Prompt).Legal s ops)
    (spares : ∀ op ∈ ops, op.Spares producer) :
    ((sequencer config).run s ops).Covers config producer := by
  induction ops generalizing s with
  | nil => exact covers
  | cons op rest ih =>
    obtain ⟨⟨allowed, prompt⟩, legal⟩ := legal
    refine ih _ ?_ legal fun other inside => spares other (List.mem_cons_of_mem _ inside)
    cases op with
    | restart kept now => exact covers.restart kept now allowed.2.1
    | commit env batch =>
      exact covers.commit named env batch (keptMs_pos config producer now env.now kept) allowed prompt
        (spares _ List.mem_cons_self)

theorem keptMs_unnamed (config : Config) (now : Nat) : keptMs config "" now = 0 := by
  have sql : stripPrefix "sql:" "" = none := by decide
  have txn : stripPrefix "txn:job-" "" = none := by decide
  have job : stripPrefix "job:" "" = none := by decide
  have other : (startsWith "txn:" "" || startsWith "copy:" "") = false := by decide
  unfold keptMs
  rw [sql, txn, job, other]
  simp only [Bool.false_eq_true, if_false, ite_self]

/-- In every run of a sequencer and those started after it, whatever is due: a resend within its batch's
window adds nothing, and is told so. Where no commit looks at a copy a window behind: once the old marks'
pass is done, each mark that isn't kept for good has an expiry key with its seq. -/
theorem run_windows (config : Config) (base : Catalog) (began : Nat) (ops : List Op)
    (legal : (sequencer config).Legal (Sequencer.start base [] began) ops)
    (proper : ∀ op ∈ ops, op.Proper config) :
    (∀ r : Resending, r.ops = ops → r.Sent config base began →
      r.again.start < endsAt config r.src.producer r.env.now → r.Answered config base began) ∧
    (base.Covered config →
      ((sequencer config).only Sequencer.Prompt).Legal (Sequencer.start base [] began) ops →
      let s := (sequencer config).run (Sequencer.start base [] began) ops
      ∀ n, n ≤ s.wrote.length → (s.copy n).pass = some .done →
        ∀ producer now seq, 0 < keptMs config producer now →
          (s.copy n).marks.lookup producer = some seq → (s.copy n).Keyed producer seq) := by
  refine ⟨?_, ?_⟩
  · rintro r rfl sent soon
    exact run_resent config base began r legal proper sent soon
  · intro covered prompt s n within done producer now seq kept held
    have named : producer ≠ "" := by
      rintro rfl
      rw [keptMs_unnamed] at kept
      exact Nat.lt_irrefl 0 kept
    have covers := run_covers config producer named now kept ops _
      (start_covers config base began producer now kept covered) prompt
      fun op inside => (proper op inside).spares producer now kept
    rcases (covers.marks n within seq held).2 with keyed | ⟨before, _⟩
    · exact keyed
    · rw [Catalog.passed, done] at before
      exact before.elim

section runs

/-- A batch resent within its window, over a restart. -/
def resentOver : Resending where
  earlier := []
  env := plainEnv 0 0
  batch := [(plainSeen 0, oneRow "copy:b" 1)]
  between := [.commit (plainEnv 1 60000) [], .restart 2 70000]
  again := plainEnv 2 100000
  before := [(plainSeen 2, oneRow "copy:c" 1)]
  seen := plainSeen 2
  flush := oneRow "copy:b" 1
  after := []
  src := ⟨"copy:b", 1, none⟩
  part := (⟨"t", 0, 1, 1, some ⟨"copy:b", 1, none⟩, none⟩, 0)

theorem resentOver_legal :
    ((sequencer usual).only Sequencer.Prompt).Legal (Sequencer.start emptyCatalog [] 0)
      resentOver.ops :=
  ⟨⟨⟨by decide, by decide, by decide, by decide, by decide⟩, by decide⟩,
    ⟨⟨by decide, by decide, by decide, by decide, by decide⟩, by decide⟩,
    ⟨⟨by decide, by decide, by decide⟩, by decide⟩,
    ⟨⟨by decide, by decide, by decide, by decide, by decide⟩, by decide⟩, trivial⟩

theorem resentOver_windows :
    resentOver.Answered usual emptyCatalog 0 ∧
      ((((sequencer usual).run (Sequencer.start emptyCatalog [] 0) resentOver.ops).copy 3).Keyed
        "copy:b" 1) := by
  have windows := run_windows usual emptyCatalog 0 resentOver.ops
    ((sequencer usual).only_legal _ _ _ resentOver_legal) (by unfold Resending.ops; decide)
  refine ⟨windows.1 resentOver rfl ⟨by decide, by decide, by decide, ?_, by decide,
    ⟨"copy:b", 1, none⟩, by decide, by decide, by decide⟩ (by decide), ?_⟩
  · intro n _ within key value found
    obtain rfl := Nat.le_zero.mp within
    cases found
  · refine windows.2 (fun _ _ _ _ held => by cases held) resentOver_legal 3 (by decide) (by decide)
      "copy:b" 0 1 (by decide) (by decide)

/-- A mark with its key, from before its sequencer: the pass stands before it. -/
def keyedCatalog : Catalog :=
  ⟨(∅ : Dict String Nat).insert "copy:b" 5,
    (∅ : Dict Expiry Nat).insert ⟨150000, "copy:b"⟩ 5, some (.cursor "a"), some 1, none⟩

/-- The pass keys the mark once more; its own key takes it, it is taken as new past its window, and the
pass's key takes it again. -/
def reopenedRun : Resending where
  earlier := [.commit (plainEnv 0 110000) [], .commit (plainEnv 1 225000) []]
  env := plainEnv 2 226000
  batch := [(plainSeen 2, oneRow "copy:b" 5)]
  between := [.commit (plainEnv 3 231000) []]
  again := plainEnv 4 240000
  before := []
  seen := plainSeen 4
  flush := oneRow "copy:b" 5
  after := []
  src := ⟨"copy:b", 5, none⟩
  part := (⟨"t", 0, 1, 1, some ⟨"copy:b", 5, none⟩, none⟩, 0)

/-- A batch resent once its table is gone. -/
def goneRun : Resending :=
  { resentOver with seen := { plainSeen 2 with found := fun _ => none } }

/-- A commit that looks at a copy of the catalog two minutes old. -/
def laggedRun : List Op :=
  [.commit (plainEnv 0 1000) [(plainSeen 0, oneRow "copy:b" 5)],
    .commit (plainEnv 1 1000) [(plainSeen 1, oneRow "copy:b" 6)], .commit (plainEnv 1 121000) []]

/-- A batch is taken twice within its window; a resend within its window is told that its table is gone;
and a mark of a pass that is done has no key. -/
theorem reopenedRun_twice :
    (sequencer usual).Legal (Sequencer.start keyedCatalog [] 100000) reopenedRun.ops ∧
    reopenedRun.src ∈ takenOf "copy:b" ((reopenedRun.first usual keyedCatalog 100000).answers
      reopenedRun.env reopenedRun.batch) ∧
    reopenedRun.again.start < endsAt usual "copy:b" reopenedRun.env.now ∧
    (((sequencer usual).run (Sequencer.start keyedCatalog [] 100000) reopenedRun.ops).rowsFor
      "copy:b" 5).length = 2 ∧
    (sequencer usual).Legal (Sequencer.start emptyCatalog [] 0) goneRun.ops ∧
    goneRun.again.start < endsAt usual "copy:b" goneRun.env.now ∧
    ((goneRun.last usual emptyCatalog 0).answers goneRun.again
      (goneRun.before ++ [(goneRun.seen, goneRun.flush)]))[1]?.map (·.outcome) =
        some (.acks [Skip.gone.ack]) ∧
    (sequencer usual).Legal (Sequencer.start emptyCatalog [] 0) laggedRun ∧
    ((sequencer usual).run (Sequencer.start emptyCatalog [] 0) laggedRun).full.pass = some .done ∧
    ((sequencer usual).run (Sequencer.start emptyCatalog [] 0) laggedRun).full.marks.lookup "copy:b" =
      some 6 ∧
    ((sequencer usual).run (Sequencer.start emptyCatalog [] 0) laggedRun).full.expiries.entries =
      [] := by
  refine ⟨?_, by decide, by decide, by decide, ?_, by decide, by decide, ?_, by decide, by decide,
    by decide⟩
  · exact ⟨⟨by decide, by decide, by decide, by decide, by decide⟩,
      ⟨by decide, by decide, by decide, by decide, by decide⟩,
      ⟨by decide, by decide, by decide, by decide, by decide⟩,
      ⟨by decide, by decide, by decide, by decide, by decide⟩,
      ⟨by decide, by decide, by decide, by decide, by decide⟩, trivial⟩
  · exact ⟨⟨by decide, by decide, by decide, by decide, by decide⟩,
      ⟨by decide, by decide, by decide, by decide, by decide⟩, ⟨by decide, by decide, by decide⟩,
      ⟨by decide, by decide, by decide, by decide, by decide⟩, trivial⟩
  · exact ⟨⟨by decide, by decide, by decide, by decide, by decide⟩,
      ⟨by decide, by decide, by decide, by decide, by decide⟩,
      ⟨by decide, by decide, by decide, by decide, by decide⟩, trivial⟩

end runs

end Pondra.Log
