import Pondra.Log.Once

set_option autoImplicit false

namespace Pondra.Log

open Dicts Ladders Machines

/-! ### The expiry keys a commit makes -/

/-- Where a key made now for a producer is. -/
def Expiry.Made (config : Config) (now : Nat) (key : Expiry) : Prop :=
  key.due = now + keptMs config key.producer now ∧ 0 < keptMs config key.producer now

theorem Expiry.ext' (key other : Expiry) (due : key.due = other.due)
    (producer : key.producer = other.producer) : key = other := by
  cases key
  cases other
  cases due
  cases producer
  rfl

theorem Expiry.Made.eq {config : Config} {now : Nat} {key : Expiry} (made : key.Made config now) :
    key = ⟨now + keptMs config key.producer now, key.producer⟩ :=
  Expiry.ext' _ _ made.1 rfl

/-- A mark that a commit makes has a key due its window from now, if it isn't kept for good. -/
theorem keyMarks_lookup (config : Config) (now : Nat) (seqs : Dict String Nat) (key : Expiry)
    (seq : Nat) : (keyMarks config now seqs).lookup key = some seq ↔
      key.Made config now ∧ seqs.lookup key.producer = some seq := by
  have spec (marks : List (Σ _ : String, Nat)) (once : marks.NodupKeys) (puts : Dict Expiry Nat) :
      (marks.foldl (fun puts (mark : Σ _ : String, Nat) =>
        if 0 < keptMs config mark.1 now then
          puts.insert ⟨now + keptMs config mark.1 now, mark.1⟩ mark.2
        else puts) puts).lookup key = some seq ↔
      key.Made config now ∧ marks.dlookup key.producer = some seq ∨
        ¬ (key.Made config now ∧ (marks.dlookup key.producer).isSome) ∧
          puts.lookup key = some seq := by
    induction marks generalizing puts with
    | nil => simp
    | cons mark rest ih =>
      obtain ⟨producer, value⟩ := mark
      obtain ⟨new, once⟩ := List.nodupKeys_cons.mp once
      rw [List.foldl_cons, ih once]
      by_cases same : key.producer = producer
      · subst same
        rw [List.dlookup_cons_eq, List.dlookup_eq_none.mpr new]
        by_cases kept : 0 < keptMs config key.producer now
        · simp only [kept, if_true, lookup_insert_eq]
          by_cases due : key.due = now + keptMs config key.producer now
          · have made : key.Made config now := ⟨due, kept⟩
            have here := made.eq
            simp [made, ← here]
          · have other : key ≠ ⟨now + keptMs config key.producer now, key.producer⟩ := fun here =>
              due (congrArg Expiry.due here)
            simp [Expiry.Made, due, other]
        · simp [Expiry.Made, kept]
      · rw [List.dlookup_cons_ne _ _ same]
        by_cases kept : 0 < keptMs config producer now
        · have other : key ≠ ⟨now + keptMs config producer now, producer⟩ := fun here =>
            same (congrArg Expiry.producer here)
          simp only [kept, if_true, lookup_insert_eq, other, if_false]
        · simp only [kept, if_false]
  unfold keyMarks
  rw [spec seqs.entries seqs.nodupKeys ∅]
  simp only [AList.lookup_empty, reduceCtorEq, and_false, or_false]
  exact Iff.rfl

/-- The old marks' pass makes this key. -/
def Expiry.Paged (config : Config) (now : Nat) (catalog : Catalog) (last seqs : Dict String Nat)
    (page : List (Σ _ : String, Nat)) (key : Expiry) : Prop :=
  key.Made config now ∧ key.producer ∈ page.map (·.1) ∧ key.producer ∉ seqs ∧
    seqOf catalog last [seqs] key.producer ≠ 0

/-- A mark that the pass comes to has a key, with the seq it stands at. -/
theorem keyPage_lookup (config : Config) (now : Nat) (catalog : Catalog) (last seqs : Dict String Nat)
    (page : List (Σ _ : String, Nat)) (puts : Dict Expiry Nat) (key : Expiry) (seq : Nat) :
    (keyPage config now catalog last seqs page puts).lookup key = some seq ↔
      key.Paged config now catalog last seqs page ∧ seqOf catalog last [seqs] key.producer = seq ∨
      ¬ key.Paged config now catalog last seqs page ∧ puts.lookup key = some seq := by
  unfold keyPage
  induction page generalizing puts with
  | nil => simp [Expiry.Paged]
  | cons mark rest ih =>
    obtain ⟨producer, value⟩ := mark
    simp only [List.foldl_cons]
    rw [ih]
    by_cases same : key.producer = producer
    · subst same
      by_cases keyed : key.Made config now ∧ key.producer ∉ seqs ∧
          seqOf catalog last [seqs] key.producer ≠ 0
      · obtain ⟨made, free, stands⟩ := keyed
        have open' : ¬ (keptMs config key.producer now = 0 ∨ key.producer ∈ seqs ∨
            seqOf catalog last [seqs] key.producer = 0) := by
          rintro (never | inside | none)
          · exact absurd never (Nat.ne_of_gt made.2)
          · exact free inside
          · exact stands none
        have whole : key.Paged config now catalog last seqs (⟨key.producer, value⟩ :: rest) :=
          ⟨made, by simp, free, stands⟩
        rw [if_neg open', ← made.eq, AList.lookup_insert, Option.some.injEq]
        simp only [whole, true_and, not_true_eq_false, false_and, or_false]
        by_cases later : key.Paged config now catalog last seqs rest
        · simp [later]
        · simp [later]
      · have unpaged (marks : List (Σ _ : String, Nat)) :
            ¬ key.Paged config now catalog last seqs marks := fun paged =>
          keyed ⟨paged.1, paged.2.2.1, paged.2.2.2⟩
        simp only [unpaged, false_and, not_false_eq_true, true_and, false_or]
        by_cases skips : keptMs config key.producer now = 0 ∨ key.producer ∈ seqs ∨
            seqOf catalog last [seqs] key.producer = 0
        · rw [if_pos skips]
        · rw [if_neg skips]
          rw [not_or, not_or] at skips
          have other : key ≠ ⟨now + keptMs config key.producer now, key.producer⟩ := fun here =>
            keyed ⟨⟨congrArg Expiry.due here, Nat.pos_of_ne_zero skips.1⟩, skips.2⟩
          rw [lookup_insert_eq, if_neg other]
    · have paged : key.Paged config now catalog last seqs (⟨producer, value⟩ :: rest) ↔
          key.Paged config now catalog last seqs rest := by
        simp [Expiry.Paged, same]
      rw [paged]
      split
      · rfl
      · have other : key ≠ ⟨now + keptMs config producer now, producer⟩ := fun here =>
          same (congrArg Expiry.producer here)
        rw [lookup_insert_eq, if_neg other]

namespace Sequencer

variable (s : Sequencer) (config : Config)

/-- A key a commit makes is due its producer's window from then. -/
theorem settle_made (now copy : Nat) (last seqs : Dict String Nat) (key : Expiry) (seq : Nat)
    (found : (s.settle config now copy last seqs).expiries.lookup key = some seq) :
    key.Made config now := by
  unfold settle at found
  cases pass : s.pass with
  | done =>
    rw [pass] at found
    exact ((keyMarks_lookup _ _ _ _ _).mp found).1
  | cursor after =>
    rw [pass] at found
    rcases (keyPage_lookup _ _ _ _ _ _ _ _ _).mp found with ⟨paged, _⟩ | ⟨_, held⟩
    · exact paged.1
    · exact ((keyMarks_lookup _ _ _ _ _).mp held).1

/-! ### Copies of the catalog after a commit -/

variable (env : Env) (batch : List (Seen × Flush))

theorem copy_last (open' : env.frozen = false) :
    (s.commit config env batch).copy (s.wrote.length + 1) =
      s.full.apply (s.write config env batch) := by
  have all : (s.commit config env batch).wrote.length = s.wrote.length + 1 := by
    rw [s.commit_eq config env batch open']
    simp
  rw [← all, copy_full, s.full_commit config env batch open']

theorem copy_restart (kept now n : Nat) (within : n ≤ kept) :
    (Sequencer.start s.base (s.wrote.take kept) now).copy n = s.copy n := by
  show ((s.wrote.take kept).take n).foldl Catalog.apply s.base = _
  rw [List.take_take, Nat.min_eq_left within]
  rfl

theorem commit_frozen (frozen : env.frozen = true) :
    s.commit config env batch = { s with forgotten := s.forgotten ++ env.forgets } := by
  unfold commit
  rw [if_pos frozen]

end Sequencer

/-! ### A mark in its window -/

/-- When the window of a mark made then ends. -/
def endsAt (config : Config) (producer : String) (made : Nat) : Nat :=
  made + keptMs config producer made

/-- No expiry key that the sequencer may look at takes a mark of the producer, at this seq or a later one,
before `ends`. -/
def Sequencer.Unkeyed (s : Sequencer) (producer : String) (seq ends : Nat) : Prop :=
  ∀ n, s.landed ≤ n → n ≤ s.wrote.length → ∀ key value,
    (s.copy n).expiries.lookup key = some value → key.producer = producer → seq ≤ value →
      ends ≤ key.due

/-- The batch was taken by the last of the first `index` writes, at `made`; its window isn't over. -/
structure Sequencer.Guards (s : Sequencer) (config : Config) (producer : String)
    (seq made index : Nat) : Prop where
  tracks : s.Tracks producer
  clock : made ≤ s.clock
  within : index ≤ s.wrote.length
  marks : ∀ n, index ≤ n → n ≤ s.wrote.length →
    ∃ mark, (s.copy n).marks.lookup producer = some mark ∧ seq ≤ mark
  unkeyed : s.Unkeyed producer seq (endsAt config producer made)

namespace Sequencer

variable (s : Sequencer) (config : Config) (env : Env) (batch : List (Seen × Flush))

/-- The keys of a commit's own window: none of an older mark's. -/
theorem commit_unkeyed (producer : String) (seq made : Nat) (open' : env.frozen = false)
    (allowed : s.Allows (.commit env batch)) (began : made ≤ env.now)
    (unkeyed : s.Unkeyed producer seq (endsAt config producer made)) :
    (s.commit config env batch).Unkeyed producer seq (endsAt config producer made) := by
  obtain ⟨_, _, landed, within, _⟩ := allowed
  intro n lagging inside key value found named later
  have long : (s.commit config env batch).wrote.length = s.wrote.length + 1 := by
    rw [s.commit_eq config env batch open']
    simp
  have copied : (s.commit config env batch).landed = env.copy := by
    rw [s.commit_eq config env batch open']
  rw [copied] at lagging
  rw [long] at inside
  by_cases old : n ≤ s.wrote.length
  · rw [s.copy_commit config env batch n old] at found
    exact unkeyed n (landed.trans lagging) old key value found named later
  · have new : n = s.wrote.length + 1 := by omega
    rw [new, s.copy_last config env batch open', apply_expiries] at found
    split at found
    · cases found
    · cases own : (s.write config env batch).expiries.lookup key with
      | some put =>
        have due := (s.settle_made config _ _ _ _ key put own).1
        have ends := keptMs_mono config key.producer made env.now began
        rw [named] at due ends
        unfold endsAt
        omega
      | none =>
        rw [own, Option.none_or, ← copy_full] at found
        exact unkeyed _ (landed.trans within) (Nat.le_refl _) key value found named later

/-- The mark a commit makes of a producer is at or past every batch of it that the commit takes. -/
theorem foldl_reached (views : Inline) (producer : String) (named : producer ≠ "") (b : Batch)
    (before : ∀ src ∈ takenOf producer b.answers,
      ∃ mark, b.seqs.lookup producer = some mark ∧ src.seq ≤ mark) :
    let later := batch.foldl (takeFlush s views) b
    ∀ src ∈ takenOf producer later.answers,
      ∃ mark, later.seqs.lookup producer = some mark ∧ src.seq ≤ mark := by
  induction batch generalizing b with
  | nil => exact before
  | cons x rest ih =>
    refine ih (takeFlush s views b x) ?_
    obtain ⟨outcome, taken, answers, _, effect⟩ :=
      (takeFlush_handled s views b x.1 x.2).answered
    have answers' : (takeFlush s views b x).answers = _ := answers
    rw [answers', takenOf_append, takenOf_single]
    rcases effect with ⟨rfl, seqs⟩ | ⟨rfl, seqs⟩
    · have seqs' : (takeFlush s views b x).seqs = _ := seqs
      rw [srcsOf_nil, List.append_nil, seqs']
      exact before
    · have seqs' : (takeFlush s views b x).seqs = _ := seqs
      obtain ⟨climbs, ends⟩ := s.bad_climbs x.1 b.seqs x.2 producer named
      obtain ⟨low, all⟩ := climbs.under
      rw [seqs', ends]
      intro src inside
      rcases List.mem_append.mp inside with old | new
      · obtain ⟨mark, held, after⟩ := before src old
        split
        · exact ⟨mark, held, after⟩
        · refine ⟨_, rfl, after.trans ?_⟩
          rw [s.standing_seqs, held] at low ⊢
          exact low
      · rw [if_neg (List.ne_nil_of_mem new)]
        exact ⟨_, rfl, all src new⟩

theorem sequence_reached (producer : String) (named : producer ≠ "") (src : Src)
    (taken : src ∈ takenOf producer (s.sequence env batch).answers) :
    ∃ mark, (s.sequence env batch).seqs.lookup producer = some mark ∧ src.seq ≤ mark := by
  unfold sequence at taken ⊢
  rw [finish_taken] at taken
  rw [finish_seqs]
  exact foldl_reached (s.forget env) batch env.views producer named _
    (fun _ none => absurd none List.not_mem_nil) src taken

end Sequencer

theorem run_clock (config : Config) (ops : List Op) (s : Sequencer)
    (legal : (sequencer config).Legal s ops) : s.clock ≤ ((sequencer config).run s ops).clock := by
  refine (sequencer config).run_monotone (fun _ => True) (·.clock) (fun _ _ _ _ => trivial)
    ?_ s ops trivial legal
  intro s op _ allowed
  cases op with
  | restart kept now => exact allowed.2.2
  | commit env batch =>
    show s.clock ≤ (s.commit config env batch).clock
    cases open' : env.frozen with
    | true => rw [s.commit_frozen config env batch open']
    | false =>
      rw [s.commit_eq config env batch open']
      exact allowed.1.trans allowed.2.1

/-- A restart keeps the first `index` writes. -/
def Op.Keeps (index : Nat) : Op → Prop
  | .commit _ _ => True
  | .restart kept _ => index ≤ kept

instance (index : Nat) (op : Op) : Decidable (op.Keeps index) :=
  match op with
  | .commit _ _ => inferInstanceAs (Decidable True)
  | .restart _ _ => inferInstanceAs (Decidable (_ ≤ _))

namespace Sequencer.Guards

variable {s : Sequencer} {config : Config} {producer : String} {seq made index : Nat}

/-- Whatever its copy of the catalog, a commit finds the mark at the batch or later. -/
theorem stands (guards : s.Guards config producer seq made index) (n : Nat) (lagging : s.landed ≤ n)
    (within : n ≤ s.wrote.length) :
    ∃ mark, seq ≤ mark ∧ s.full.marks.lookup producer = some mark ∧
      seqOf (s.copy n) s.last [] producer = mark := by
  obtain ⟨mark, full, after⟩ := guards.marks s.wrote.length guards.within (Nat.le_refl _)
  rw [s.copy_full] at full
  exact ⟨mark, after, full, guards.tracks.seqOf n lagging within mark full⟩

theorem restart (guards : s.Guards config producer seq made index) (kept now : Nat)
    (allowed : s.Allows (.restart kept now)) (holds : index ≤ kept) :
    (Sequencer.start s.base (s.wrote.take kept) now).Guards config producer seq made index := by
  obtain ⟨landed, within, clock⟩ := allowed
  have long : (s.wrote.take kept).length = kept := by
    rw [List.length_take, Nat.min_eq_left within]
  refine ⟨start_tracks _ _ _ _, guards.clock.trans clock, ?_, ?_, ?_⟩
  · show index ≤ (s.wrote.take kept).length
    rw [long]
    exact holds
  · intro n after inside
    have inside : n ≤ kept := long ▸ inside
    rw [s.copy_restart kept now n inside]
    exact guards.marks n after (inside.trans within)
  · intro n lagging inside key value found
    have inside : n ≤ kept := long ▸ inside
    have lagging : kept ≤ n := long ▸ lagging
    rw [s.copy_restart kept now n inside] at found
    exact guards.unkeyed n (landed.trans lagging) (inside.trans within) key value found

theorem commit (guards : s.Guards config producer seq made index) (named : producer ≠ "")
    (env : Env) (batch : List (Seen × Flush)) (allowed : s.Allows (.commit env batch))
    (spares : Op.Spares producer (.commit env batch))
    (soon : (s.commit config env batch).clock < endsAt config producer made) :
    (s.commit config env batch).Guards config producer seq made index := by
  have tracks := guards.tracks.commit config env batch allowed spares
  cases open' : env.frozen with
  | true =>
    rw [s.commit_frozen config env batch open'] at tracks ⊢
    exact ⟨tracks, guards.clock, guards.within, guards.marks, guards.unkeyed⟩
  | false =>
    have began : made ≤ env.now := guards.clock.trans (allowed.1.trans allowed.2.1)
    have unkeyed := s.commit_unkeyed config env batch producer seq made open' allowed began
      guards.unkeyed
    have long : (s.commit config env batch).wrote.length = s.wrote.length + 1 := by
      rw [s.commit_eq config env batch open']
      simp
    have soon : env.now < endsAt config producer made := by
      rw [s.commit_eq config env batch open'] at soon
      exact soon
    refine ⟨tracks, ?_, ?_, ?_, unkeyed⟩
    · rw [s.commit_eq config env batch open']
      exact began
    · rw [long]
      exact guards.within.trans (Nat.le_succ _)
    · intro n after inside
      by_cases old : n ≤ s.wrote.length
      · rw [s.copy_commit config env batch n old]
        exact guards.marks n after old
      · rw [long] at inside
        have new : n = s.wrote.length + 1 := by omega
        rw [new, s.copy_last config env batch open', apply_marks]
        obtain ⟨_, _, landed, within, copies⟩ := allowed
        obtain ⟨mark, later, full, found⟩ := guards.stands env.copy landed within
        have forgot := guards.tracks.forget env spares.1
        obtain ⟨_, _, goes⟩ := s.settle_spec config env.now env.copy (s.forget env).last
          (s.sequence env batch).seqs
        have stays : producer ∉ (s.write config env batch).dropped := by
          intro inside
          rcases List.mem_append.mp inside with lost | gone
          · exact s.sequence_lost env batch producer spares lost
          · obtain ⟨free, ⟨key, value⟩, due, name, same⟩ := (goes producer).mp gone
            obtain ⟨held, past⟩ := s.due_mem config env.now env.copy _ due
            rw [seqOf_pending, AList.lookup_eq_none.mpr free, Option.getD_none,
              seqOf_congr _ _ s.last _ _ forgot, found] at same
            have ends := guards.unkeyed env.copy landed within key value held name
              (later.trans (Nat.le_of_eq same))
            exact absurd (past.trans_lt soon) (Nat.not_lt.mpr ends)
        rw [if_neg stays]
        show ∃ mark, ((s.sequence env batch).seqs.lookup producer).or _ = some mark ∧ seq ≤ mark
        have marks := s.sequence_marks env batch producer named
        cases moved : (takenOf producer (s.sequence env batch).answers).getLast? with
        | none =>
          rw [marks, moved]
          exact ⟨mark, full, later⟩
        | some src =>
          rw [marks, moved]
          have taken := List.mem_of_getLast? moved
          have climbs := s.sequence_climbs env batch producer named mark fun x inside => by
            rw [seqOf_congr _ _ s.last _ _ forgot]
            obtain ⟨other, _, full', found'⟩ := guards.stands x.1.copy (copies x inside).1
              ((copies x inside).2.trans within)
            rw [full, Option.some.injEq] at full'
            exact found'.trans full'.symm
          exact ⟨src.seq, rfl, later.trans (Nat.le_of_lt (climbs.rises.1 src taken))⟩

/-- A commit that takes the batch, where no older key takes its mark within its window. -/
theorem taken (tracks : s.Tracks producer) (named : producer ≠ "")
    (env : Env) (batch : List (Seen × Flush)) (allowed : s.Allows (.commit env batch))
    (spares : Op.Spares producer (.commit env batch)) (open' : env.frozen = false) (src : Src)
    (inside : src ∈ takenOf producer (s.sequence env batch).answers)
    (unkeyed : s.Unkeyed producer src.seq (endsAt config producer env.now)) :
    (s.commit config env batch).Guards config producer src.seq env.now (s.wrote.length + 1) := by
  have long : (s.commit config env batch).wrote.length = s.wrote.length + 1 := by
    rw [s.commit_eq config env batch open']
    simp
  refine ⟨tracks.commit config env batch allowed spares, ?_, Nat.le_of_eq long.symm, ?_,
    s.commit_unkeyed config env batch producer src.seq env.now open' allowed (Nat.le_refl _) unkeyed⟩
  · rw [s.commit_eq config env batch open']
  · intro n after within
    rw [long] at within
    obtain rfl := Nat.le_antisymm within after
    obtain ⟨mark, moved, reached⟩ := s.sequence_reached env batch producer named src inside
    obtain ⟨_, _, goes⟩ := s.settle_spec config env.now env.copy (s.forget env).last
      (s.sequence env batch).seqs
    rw [s.copy_last config env batch open', apply_marks, if_neg]
    · show ∃ mark, ((s.sequence env batch).seqs.lookup producer).or _ = some mark ∧ _
      rw [moved]
      exact ⟨mark, rfl, reached⟩
    · intro dropped
      rcases List.mem_append.mp dropped with lost | gone
      · exact s.sequence_lost env batch producer spares lost
      · have free := ((goes producer).mp gone).1
        rw [AList.lookup_eq_none.mpr free] at moved
        cases moved

/-- Through ops whose clock is short of the window's end, and restarts that keep its write. -/
theorem run (named : producer ≠ "") (ops : List Op) (guards : s.Guards config producer seq made index)
    (legal : (sequencer config).Legal s ops) (spares : ∀ op ∈ ops, op.Spares producer)
    (keeps : ∀ op ∈ ops, op.Keeps index)
    (soon : ((sequencer config).run s ops).clock < endsAt config producer made) :
    ((sequencer config).run s ops).Guards config producer seq made index := by
  induction ops generalizing s with
  | nil => exact guards
  | cons op rest ih =>
    obtain ⟨allowed, legal⟩ := legal
    have later := run_clock config rest _ legal
    refine ih ?_ legal (fun other inside => spares other (List.mem_cons_of_mem _ inside))
      (fun other inside => keeps other (List.mem_cons_of_mem _ inside)) soon
    have holds := keeps op List.mem_cons_self
    have spared := spares op List.mem_cons_self
    cases op with
    | commit env batch => exact guards.commit named env batch allowed spared (later.trans_lt soon)
    | restart kept now => exact guards.restart kept now allowed holds

end Sequencer.Guards

/-! ### What a resend is told -/

/-- The check skips a batch that its producer's mark is at or past, as a duplicate. -/
theorem foldl_check_old {standing : Dict String Nat → String → Nat} (defers : Defers standing)
    (barred : List Nat) (parts : List (Part × Nat)) (checked : Checked) (part : Part × Nat)
    (inside : part ∈ parts) (open' : part.2 ∉ barred) (src : Src) (sent : part.1.src = some src)
    (named : src.producer ≠ "") (old : src.seq ≤ standing checked.mine src.producer) :
    (part.2, Skip.duplicate) ∈ (parts.foldl (checkPart standing barred) checked).stale := by
  induction parts generalizing checked with
  | nil => exact absurd inside List.not_mem_nil
  | cons first rest ih =>
    rw [List.foldl_cons]
    have checks := checkPart_checks standing barred checked first
    obtain ⟨more, stale, _⟩ := foldl_check_stale standing barred rest
      (checkPart standing barred checked first)
    rcases List.mem_cons.mp inside with rfl | inside
    · rw [stale]
      refine List.mem_append_left _ ?_
      generalize checkPart standing barred checked part = found at checks
      cases checks with
      | free unnamed =>
        rcases unnamed src sent with shut | blank
        · exact absurd shut open'
        · exact absurd blank named
      | skipped other skip sent' _ _ why =>
        obtain rfl := Option.some.inj (sent.symm.trans sent')
        rcases why with ⟨rfl, _⟩ | ⟨_, newer, _⟩
        · exact List.mem_append_right _ (List.mem_singleton_self _)
        · exact absurd old (Nat.not_le.mpr newer)
      | fine other sent' _ _ newer _ =>
        obtain rfl := Option.some.inj (sent.symm.trans sent')
        exact absurd old (Nat.not_le.mpr newer)
    · refine ih _ inside ?_
      generalize checkPart standing barred checked first = found at checks
      cases checks with
      | free _ => exact old
      | skipped _ _ _ _ _ _ => exact old
      | fine other _ _ _ newer _ =>
        rw [defers, lookup_insert_eq]
        split
        · rename_i same
          rw [same] at old
          exact old.trans (Nat.le_of_lt newer)
        · rw [← defers]
          exact old

theorem lookup_of_mem (bad : List (Nat × Skip)) (once : (bad.map Prod.fst).Nodup) (i : Nat)
    (skip : Skip) (inside : (i, skip) ∈ bad) : bad.lookup i = some skip := by
  induction bad with
  | nil => exact absurd inside List.not_mem_nil
  | cons first rest ih =>
    obtain ⟨alone, once⟩ := List.nodup_cons.mp once
    rcases List.mem_cons.mp inside with rfl | inside
    · exact List.lookup_cons_self
    · have other : i ≠ first.1 := fun same =>
        alone (same ▸ List.mem_map_of_mem (f := Prod.fst) inside)
      rw [List.lookup_cons, beq_false_of_ne other]
      exact ih once inside

/-- The part at a place is told that its batch is in already. -/
def Answer.Duplicate (a : Answer) (i : Nat) : Prop :=
  match a.outcome with
  | .acks acks => acks[i]? = some Skip.duplicate.ack
  | .retry skipped => (i, Skip.duplicate.ack) ∈ skipped
  | .refused _ => False

/-- The check of retries comes to a part: its flush is one of rows, isn't sent back before, and the table
takes the part. -/
def Flush.Comes (f : Flush) (views : Inline) (seen : Seen) (i : Nat) : Prop :=
  f.Rows ∧ ¬ f.stale views ∧ ¬ f.waits seen.held ∧ i ∉ (f.barred seen.found).map Prod.fst

/-- A resend isn't taken, and is told so where the check of retries comes to it. -/
def Answer.Resent (a : Answer) (views : Inline) (seen : Seen) (i : Nat) : Prop :=
  (∀ part ∈ a.taken, part.2 ≠ i) ∧ (a.flush.Comes views seen i → a.Duplicate i)

theorem takeFlush_resent (s : Sequencer) (views : Inline) (b : Batch) (seen : Seen) (f : Flush)
    (part : Part × Nat) (inside : part ∈ f.parts.zipIdx) (src : Src) (sent : part.1.src = some src)
    (named : src.producer ≠ "") (old : src.seq ≤ s.standing seen.copy b.seqs ∅ src.producer) :
    ∃ a, (takeFlush s views b (seen, f)).answers = b.answers ++ [a] ∧ a.flush = f ∧
      a.Resent views seen part.2 := by
  have once := (s.bad_rises seen b.seqs f).1
  have skipped (open' : part.2 ∉ (f.barred seen.found).map Prod.fst) :
      (part.2, Skip.duplicate) ∈ s.bad seen b.seqs f :=
    List.mem_append_right _ (foldl_check_old (s.standing_defers seen.copy b.seqs) _ _ ⟨∅, []⟩ part
      inside open' src sent named old)
  have found (open' : part.2 ∉ (f.barred seen.found).map Prod.fst) :
      (s.bad seen b.seqs f).lookup part.2 = some .duplicate :=
    lookup_of_mem _ once _ _ (skipped open')
  have out : part.2 ∈ (s.bad seen b.seqs f).map Prod.fst := by
    by_cases open' : part.2 ∈ (f.barred seen.found).map Prod.fst
    · rw [Sequencer.bad, List.map_append]
      exact List.mem_append_left _ open'
    · exact List.mem_map_of_mem (f := Prod.fst) (skipped open')
  have told (rows : List (Nat × Nat)) (seg : Nat)
      (open' : part.2 ∉ (f.barred seen.found).map Prod.fst) :
      (f.acks (s.bad seen b.seqs f) rows seg)[part.2]? = some Skip.duplicate.ack := by
    rw [acks_at f _ rows seg part inside, found open']
  have good : ∀ other ∈ f.good (s.bad seen b.seqs f), other.2 ≠ part.2 := by
    intro other held same
    have clean := (lookup_isNone _ _).mp (List.mem_filter.mp held).2
    exact clean (same ▸ out)
  have handled := takeFlush_handled s views b seen f
  generalize takeFlush s views b (seen, f) = later at handled
  have nothing (a : Answer) (flush : a.flush = f) (taken : a.taken = [])
      (no : ¬ f.Comes views seen part.2) : a.flush = f ∧ a.Resent views seen part.2 :=
    ⟨flush, by rw [taken]; exact fun _ none => absurd none List.not_mem_nil, fun comes =>
      absurd (flush ▸ comes) no⟩
  cases handled with
  | counted op asks =>
    refine ⟨_, rfl, nothing _ rfl rfl fun comes => ?_⟩
    rw [comes.1.1] at asks
    cases asks
  | reserved asks =>
    unfold Batch.reserve
    simp only
    split
    · exact ⟨_, rfl, nothing _ rfl rfl fun comes => comes.1.2 asks⟩
    · exact ⟨_, rfl, nothing _ rfl rfl fun comes => comes.1.2 asks⟩
  | sentBack why =>
    refine ⟨_, rfl, nothing _ rfl rfl fun comes => ?_⟩
    rcases why with stale | held
    · exact comes.2.1 stale
    · exact comes.2.2.1 held
  | inAlready _ _ =>
    exact ⟨_, rfl, rfl, fun _ none => absurd none List.not_mem_nil, fun comes =>
      told _ _ comes.2.2.2⟩
  | redone _ _ _ _ _ =>
    refine ⟨_, rfl, rfl, fun _ none => absurd none List.not_mem_nil, fun comes => ?_⟩
    show (part.2, Skip.duplicate.ack) ∈ List.map _ _
    exact List.mem_map_of_mem (f := fun skipped : Nat × Skip => (skipped.1, skipped.2.ack))
      (skipped comes.2.2.2)
  | taken _ _ _ _ =>
    unfold Batch.take
    simp only
    split
    · exact ⟨_, rfl, rfl, good, fun comes => told _ _ comes.2.2.2⟩
    · split
      · exact ⟨_, rfl, rfl, good, fun comes => told _ _ comes.2.2.2⟩
      · exact ⟨_, rfl, rfl, good, fun comes => told _ _ comes.2.2.2⟩

/-- Each flush is answered in its turn. -/
theorem foldl_answers (s : Sequencer) (views : Inline) (batch : List (Seen × Flush)) (b : Batch) :
    ∃ more, (batch.foldl (takeFlush s views) b).answers = b.answers ++ more ∧
      more.length = batch.length := by
  induction batch generalizing b with
  | nil => exact ⟨[], by simp, rfl⟩
  | cons x rest ih =>
    obtain ⟨more, answers, long⟩ := ih (takeFlush s views b x)
    obtain ⟨outcome, taken, first, _⟩ := (takeFlush_handled s views b x.1 x.2).answered
    have first' : (takeFlush s views b x).answers = _ := first
    rw [List.foldl_cons, answers, first', List.append_assoc]
    exact ⟨_, rfl, by rw [List.length_append, long]; simp; omega⟩

theorem Answer.Resent.number {a : Answer} {views : Inline} {seen : Seen} {i : Nat}
    (resent : a.Resent views seen i) (seg : Nat) : (a.number seg).Resent views seen i := by
  refine ⟨?_, fun comes => ?_⟩
  · rw [number_taken]
    exact resent.1
  · rw [number_flush] at comes
    have told := resent.2 comes
    unfold Answer.number
    unfold Answer.Duplicate at told ⊢
    cases outcome : a.outcome with
    | retry skipped =>
      rw [outcome] at told
      simp only [outcome]
      exact told
    | refused _ =>
      rw [outcome] at told
      exact told.elim
    | acks acks =>
      rw [outcome] at told
      show (acks.map (Ack.number seg))[i]? = _
      rw [List.getElem?_map, told]
      rfl

namespace Sequencer.Guards

variable {s : Sequencer} {config : Config} {producer : String} {seq made index : Nat}

/-- A resend of the batch that reaches a commit: it isn't taken, and is told so. -/
theorem resent (guards : s.Guards config producer seq made index) (named : producer ≠ "")
    (env : Env) (before after : List (Seen × Flush)) (seen : Seen) (f : Flush)
    (allowed : s.Allows (.commit env (before ++ (seen, f) :: after)))
    (spares : producer ∉ env.forgets) (part : Part × Nat) (inside : part ∈ f.parts.zipIdx)
    (src : Src) (sent : part.1.src = some src) (same : src.producer = producer)
    (old : src.seq ≤ seq) :
    ∃ a, (s.answers env (before ++ (seen, f) :: after))[before.length]? = some a ∧ a.flush = f ∧
      (∀ other ∈ a.taken, other.2 ≠ part.2) ∧
      (env.frozen = false → f.Comes env.views seen part.2 → a.Duplicate part.2) := by
  subst same
  obtain ⟨_, _, _, within, copies⟩ := allowed
  unfold Sequencer.answers
  cases frozen : env.frozen with
  | true =>
    refine ⟨⟨f, .refused "a backup takes no rows", []⟩, ?_, rfl, ?_, ?_⟩
    · simp
    · exact fun _ none => absurd none List.not_mem_nil
    · intro no
      cases no
  | false =>
    have reaches (x : Seen × Flush) (held : x ∈ before ++ (seen, f) :: after) :
        ∃ mark, seq ≤ mark ∧ s.full.marks.lookup src.producer = some mark ∧
          seqOf (s.copy x.1.copy) (s.forget env).last [] src.producer = mark := by
      obtain ⟨mark, later, full, found⟩ := guards.stands x.1.copy (copies x held).1
        ((copies x held).2.trans within)
      refine ⟨mark, later, full, ?_⟩
      rw [seqOf_congr _ _ s.last _ _ (guards.tracks.forget env spares)]
      exact found
    obtain ⟨mark, later, full, found⟩ := reaches (seen, f) (by simp)
    have climbs := foldl_climbs (s.forget env) env.views src.producer named mark before
      ⟨s.next, s.block, ∅, [], [], ∅, [], [], [], [], [], none⟩ rfl (fun x held => by
        obtain ⟨other, _, full', found'⟩ := reaches x (List.mem_append_left _ held)
        rw [full, Option.some.injEq] at full'
        exact found'.trans full'.symm) trivial
    have marks := foldl_marks (s.forget env) env.views src.producer named before
      ⟨s.next, s.block, ∅, [], [], ∅, [], [], [], [], [], none⟩ rfl
    obtain ⟨ahead, answers, long⟩ := foldl_answers (s.forget env) env.views before
      ⟨s.next, s.block, ∅, [], [], ∅, [], [], [], [], [], none⟩
    generalize reached : before.foldl (takeFlush (s.forget env) env.views)
      ⟨s.next, s.block, ∅, [], [], ∅, [], [], [], [], [], none⟩ = b at climbs marks answers
    have stands : src.seq ≤ (s.forget env).standing seen.copy b.seqs ∅ src.producer := by
      rw [Sequencer.standing_seqs, marks]
      cases last : (takenOf src.producer b.answers).getLast? with
      | none =>
        show src.seq ≤ seqOf (s.copy seen.copy) (s.forget env).last [] src.producer
        rw [found]
        exact old.trans later
      | some taken =>
        have above := climbs.rises.1 taken (List.mem_of_getLast? last)
        show src.seq ≤ taken.seq
        omega
    obtain ⟨a, added, flush, told⟩ := takeFlush_resent (s.forget env) env.views b seen f part inside
      src sent named stands
    obtain ⟨rest, all, _⟩ := foldl_answers (s.forget env) env.views after
      (takeFlush (s.forget env) env.views b (seen, f))
    have whole : (s.upTo env (before ++ (seen, f) :: after)).answers = ahead ++ a :: rest := by
      unfold Sequencer.upTo
      rw [List.foldl_append, List.foldl_cons, reached, all, added, answers]
      simp
    have at' : (s.upTo env (before ++ (seen, f) :: after)).answers[before.length]? = some a := by
      rw [whole, ← long]
      simp
    rw [if_neg Bool.false_ne_true]
    unfold Sequencer.sequence Batch.finish
    split
    · exact ⟨a, at', flush, told.1, fun _ comes => told.2 (flush ▸ comes)⟩
    · let seg := (s.upTo env (before ++ (seen, f) :: after)).next
      refine ⟨a.number seg, ?_, (number_flush a seg).trans flush, (told.number seg).1,
        fun _ comes => ?_⟩
      · show ((s.upTo env (before ++ (seen, f) :: after)).answers.map _)[_]? = _
        rw [List.getElem?_map, at']
        rfl
      · refine (told.number seg).2 ?_
        rw [number_flush, flush]
        exact comes

end Sequencer.Guards

/-! ### Resends in all runs -/

/-- Others have only producers forgotten, or their marks deleted, that are kept for good. -/
def Op.Proper (config : Config) : Op → Prop
  | .commit env batch => (∀ producer ∈ env.forgets, keptMs config producer env.now = 0) ∧
      ∀ x ∈ batch, ∀ filing ∈ x.2.filed, ∀ producer ∈ filing.gone,
        keptMs config producer env.now = 0
  | .restart _ _ => True

instance (config : Config) (op : Op) : Decidable (op.Proper config) :=
  match op with
  | .commit _ _ => inferInstanceAs (Decidable (_ ∧ _))
  | .restart _ _ => inferInstanceAs (Decidable True)

theorem Op.Proper.spares {config : Config} {op : Op} (proper : op.Proper config) (producer : String)
    (now : Nat) (kept : 0 < keptMs config producer now) : op.Spares producer := by
  cases op with
  | restart _ _ => trivial
  | commit env batch =>
    have still := keptMs_pos config producer now env.now kept
    refine ⟨fun forgets => ?_, fun x inside filing held gone => ?_⟩
    · exact absurd (proper.1 producer forgets) (Nat.ne_of_gt still)
    · exact absurd (proper.2 x inside filing held producer gone) (Nat.ne_of_gt still)

theorem step_tracks (config : Config) (producer : String) (s : Sequencer) (op : Op)
    (tracks : s.Tracks producer) (allowed : s.Allows op) (spares : op.Spares producer) :
    (s.step config op).Tracks producer := by
  cases op with
  | restart kept now => exact start_tracks _ _ _ _
  | commit env batch => exact tracks.commit config env batch allowed spares

theorem run_tracks (config : Config) (producer : String) (ops : List Op) (s : Sequencer)
    (tracks : s.Tracks producer) (legal : (sequencer config).Legal s ops)
    (spares : ∀ op ∈ ops, op.Spares producer) :
    ((sequencer config).run s ops).Tracks producer := by
  induction ops generalizing s with
  | nil => exact tracks
  | cons op rest ih =>
    exact ih _ (step_tracks config producer s op tracks legal.1 (spares op List.mem_cons_self))
      legal.2 fun other inside => spares other (List.mem_cons_of_mem _ inside)

/-- A batch taken by one commit, and a resend of it in a later one. -/
structure Resending where
  earlier : List Op
  env : Env
  batch : List (Seen × Flush)
  between : List Op
  again : Env
  before : List (Seen × Flush)
  seen : Seen
  flush : Flush
  after : List (Seen × Flush)
  src : Src
  part : Part × Nat

namespace Resending

variable (r : Resending) (config : Config) (base : Catalog) (began : Nat)

/-- The ops up to the resend's commit. -/
def ops : List Op :=
  r.earlier ++ .commit r.env r.batch ::
    (r.between ++ [.commit r.again (r.before ++ (r.seen, r.flush) :: r.after)])

/-- The sequencer as the batch's commit finds it. -/
def first : Sequencer := (sequencer config).run (Sequencer.start base [] began) r.earlier

/-- The sequencer as the resend's commit finds it. -/
def last : Sequencer :=
  (sequencer config).run ((r.first config base began).commit config r.env r.batch) r.between

/-- The first commit takes the batch and its write is not lost; the part is one of it sent again, or of an
earlier one; no expiry key there then takes the mark before the batch's window ends. -/
structure Sent : Prop where
  named : r.src.producer ≠ ""
  taken : r.src ∈ takenOf r.src.producer ((r.first config base began).answers r.env r.batch)
  kept : ∀ op ∈ r.between, op.Keeps ((r.first config base began).wrote.length + 1)
  unkeyed : (r.first config base began).Unkeyed r.src.producer r.src.seq
    (endsAt config r.src.producer r.env.now)
  inside : r.part ∈ r.flush.parts.zipIdx
  sent : ∃ src, r.part.1.src = some src ∧ src.producer = r.src.producer ∧ src.seq ≤ r.src.seq

/-- The resend's flush is answered, its part isn't taken, and where the check of retries comes to the part
it is told that its batch is in already. -/
def Answered : Prop :=
  ∃ a, ((r.last config base began).answers r.again
      (r.before ++ (r.seen, r.flush) :: r.after))[r.before.length]? = some a ∧ a.flush = r.flush ∧
    (∀ other ∈ a.taken, other.2 ≠ r.part.2) ∧
    (r.again.frozen = false → r.flush.Comes r.again.views r.seen r.part.2 → a.Duplicate r.part.2)

end Resending

theorem run_resent (config : Config) (base : Catalog) (began : Nat) (r : Resending)
    (legal : (sequencer config).Legal (Sequencer.start base [] began) r.ops)
    (proper : ∀ op ∈ r.ops, op.Proper config) (sent : r.Sent config base began)
    (soon : r.again.start < endsAt config r.src.producer r.env.now) :
    r.Answered config base began := by
  obtain ⟨named, taken, kept, unkeyed, inside, src, same, producer, old⟩ := sent
  rw [Resending.ops, Machine.legal_append] at legal
  obtain ⟨first, allowed, rest⟩ := legal
  rw [Machine.legal_append] at rest
  obtain ⟨between, again, _⟩ := rest
  have open' : r.env.frozen = false := by
    by_contra shut
    rw [Sequencer.answers, if_pos (by simpa using shut), takenOf, List.flatMap_map] at taken
    simp at taken
  have clock := run_clock config r.between _ between
  have later := again.1
  have counts : 0 < keptMs config r.src.producer r.env.now := by
    have began' : r.env.now ≤ r.again.start := by
      refine Nat.le_trans ?_ (clock.trans later)
      show r.env.now ≤ (Sequencer.commit _ config r.env r.batch).clock
      rw [Sequencer.commit_eq _ config r.env r.batch open']
    unfold endsAt at soon
    omega
  have spares (op : Op) (held : op ∈ r.ops) : op.Spares r.src.producer :=
    (proper op held).spares r.src.producer r.env.now counts
  have held (op : Op) (inside : op ∈ r.earlier ++ .commit r.env r.batch ::
    (r.between ++ [.commit r.again (r.before ++ (r.seen, r.flush) :: r.after)])) : op ∈ r.ops := inside
  have tracks := run_tracks config r.src.producer r.earlier _ (start_tracks base [] began _) first
    fun op inside => spares op (held op (by simp [inside]))
  have guards := Sequencer.Guards.taken tracks named r.env r.batch allowed
    (spares _ (held _ (by simp))) open' r.src (by
      rw [Resending.first, Sequencer.answers, if_neg (by rw [open']; exact Bool.false_ne_true)]
        at taken
      exact taken) unkeyed
  have reached := guards.run named r.between between
    (fun op inside => spares op (held op (by simp [inside]))) kept (later.trans_lt soon)
  have spared : Op.Spares r.src.producer (.commit r.again (r.before ++ (r.seen, r.flush) :: r.after)) :=
    spares _ (held _ (by simp))
  exact reached.resent named r.again r.before r.after r.seen r.flush again spared.1 r.part inside src
    same producer old

end Pondra.Log
