import Pondra.Log.Hold

set_option autoImplicit false

namespace Pondra.Log

open Dicts Machines

/-! ### Commits without a table's rows -/

/-- No producer's rows of the table are in the write's segments. -/
def Write.Free (write : Write) (table : String) : Prop :=
  ∀ seg ∈ write.segs, ∀ entry ∈ Shelf.of seg.2.parts table, entry.src = none

def Commit.Free (c : Commit) (table : String) : Prop :=
  ∀ write, c.write = some write → write.Free table

/-- None is in what a commit has made so far. -/
def Batch.Free (b : Batch) (table : String) : Prop :=
  (∀ seg ∈ b.segs, ∀ entry ∈ Shelf.of seg.2.parts table, entry.src = none) ∧
    ∀ entry ∈ Shelf.of b.inlineParts table, entry.src = none

theorem foldl_layPart_mem (base : Nat) (before : String → Nat) (parts : List (Part × Nat))
    (laid : Laid) (table : String) (entry : Entry)
    (inside : entry ∈ Shelf.of (parts.foldl (layPart base before) laid).parts table) :
    entry ∈ Shelf.of laid.parts table ∨
      ∃ part ∈ parts, part.1.table = table ∧ entry.src = part.1.src := by
  induction parts generalizing laid with
  | nil => exact .inl inside
  | cons part rest ih =>
    rw [List.foldl_cons] at inside
    rcases ih _ inside with held | ⟨other, later, same, src⟩
    · have held : entry ∈ Shelf.of (Shelf.push laid.parts part.1.table
        ⟨base + part.1.off, part.1.len, part.1.rows, part.1.src⟩) table := held
      rw [Shelf.of_push] at held
      split at held
      · rename_i same
        rcases List.mem_append.mp held with old | new
        · exact .inl old
        · refine .inr ⟨part, List.mem_cons_self, same.symm, ?_⟩
          rw [List.mem_singleton.mp new]
      · exact .inl held
    · exact .inr ⟨other, List.mem_cons_of_mem _ later, same, src⟩

/-- A flush looked at while the table is held brings none of its producers' rows. -/
theorem laid_free (b : Batch) (f : Flush) (bad : List (Nat × Skip)) (held : List String)
    (free : ¬ f.waits held) (table : String) (inside : table ∈ held) (entry : Entry)
    (laid : entry ∈ Shelf.of (b.laid f bad).parts table) : entry.src = none := by
  rcases foldl_layPart_mem _ _ _ _ _ _ laid with none | ⟨part, part', same, src⟩
  · exact absurd none List.not_mem_nil
  · obtain ⟨good, some⟩ := List.mem_filter.mp part'
    have zipped := (List.mem_filter.mp good).1
    have mine : part.1 ∈ f.parts := List.mem_of_getElem? (List.mem_zipIdx_iff_getElem?.mp zipped)
    rw [src]
    by_contra sent
    refine free (List.any_eq_true.mpr ⟨part.1, List.mem_filter.mpr ⟨mine, ?_⟩, ?_⟩)
    · rw [Part.written, Option.isSome_iff_ne_none.mpr sent, Bool.true_and]
      exact some
    · rw [same]
      exact List.contains_iff_mem.mpr inside

theorem Handled.free {s : Sequencer} {views : Inline} {b later : Batch} {seen : Seen} {f : Flush}
    (handled : Handled s views b seen f later) (table : String) (held : table ∈ seen.held)
    (clean : b.Free table) : later.Free table := by
  cases handled with
  | counted _ _ => exact clean
  | reserved _ =>
    unfold Batch.reserve
    simp only
    split
    · exact clean
    · exact clean
  | sentBack _ => exact clean
  | inAlready _ _ => exact clean
  | redone _ _ _ _ _ => exact clean
  | taken _ _ free _ =>
    have laid := laid_free b f (s.bad seen b.seqs f) seen.held free table held
    unfold Batch.take
    simp only
    split
    · exact clean
    · split
      · refine ⟨clean.1, fun entry inside => ?_⟩
        have inside : entry ∈ Shelf.of (Shelf.extend b.inlineParts _) table := inside
        rw [Shelf.of_extend] at inside
        rcases List.mem_append.mp inside with old | new
        · exact clean.2 entry old
        · exact laid entry new
      · refine ⟨fun seg inside entry => ?_, clean.2⟩
        have inside : seg ∈ b.segs ++ [_] := inside
        rcases List.mem_append.mp inside with old | new
        · exact clean.1 seg old entry
        · rw [List.mem_singleton.mp new]
          exact laid entry

theorem foldl_free (s : Sequencer) (views : Inline) (table : String) (batch : List (Seen × Flush))
    (b : Batch) (held : ∀ x ∈ batch, table ∈ x.1.held) (clean : b.Free table) :
    (batch.foldl (takeFlush s views) b).Free table := by
  induction batch generalizing b with
  | nil => exact clean
  | cons x rest ih =>
    exact ih _ (fun y inside => held y (List.mem_cons_of_mem _ inside))
      ((takeFlush_handled s views b x.1 x.2).free table (held x List.mem_cons_self) clean)

/-- A commit that found the table held, whichever flush it looked at, has none of its rows. -/
theorem Sequencer.write_free (s : Sequencer) (config : Config) (env : Env)
    (batch : List (Seen × Flush)) (table : String) (held : ∀ x ∈ batch, table ∈ x.1.held) :
    (s.write config env batch).Free table := by
  have clean := foldl_free (s.forget env) env.views table batch
    ⟨s.next, s.block, ∅, [], [], ∅, [], [], [], [], [], none⟩ held
    ⟨fun _ none => absurd none List.not_mem_nil, fun _ none => absurd none List.not_mem_nil⟩
  intro seg inside entry
  have inside : seg ∈ ((s.upTo env batch).finish env.start).segs := inside
  unfold Batch.finish at inside
  split at inside
  · exact clean.1 seg inside entry
  · rcases List.mem_append.mp inside with old | new
    · exact clean.1 seg old entry
    · rw [List.mem_singleton.mp new]
      exact clean.2 entry

theorem answers_length (s : Sequencer) (env : Env) (batch : List (Seen × Flush)) :
    (s.answers env batch).length = batch.length := by
  unfold Sequencer.answers
  split
  · simp
  · have count := (upTo_answers (s.forget env) env batch
      ⟨s.next, s.block, ∅, [], [], ∅, [], [], [], [], [], none⟩).1
    rw [List.length_nil, Nat.zero_add] at count
    unfold Sequencer.sequence Batch.finish
    split
    · exact count
    · rw [← count]
      exact List.length_map _

/-! ### What holds of a leader -/

/-- The flushes not yet committed, oldest first. -/
def House.waiting (h : House) : List Ticket := h.looked.map (·.1) ++ h.batch ++ h.queue

/-- Every flush, oldest first. -/
def House.all (h : House) : List Ticket := h.commits.flatMap (·.tickets) ++ h.waiting

/-- The counts are the holds', the flushes are taken in the order they came, and what is looked at after a
hold began to wait finds its tables held. -/
structure House.Sound (h : House) : Prop where
  counts : Counts h.held
  held : ∀ table, heldBy h.held table = (h.holds.map fun x => x.tables.count table).sum
  order : h.all.map (·.no) = List.range h.tickets
  whole : ∀ c ∈ h.commits, c.tickets ≠ [] ∧ c.answers.length = c.tickets.length
  refuses : ∀ c ∈ h.commits, c.write = none → ∀ a ∈ c.answers, ∃ why, a.outcome = .refused why
  exact' : ∀ c ∈ h.commits, ∀ write, c.write = some write →
    write.Exact ∧ write.answers = c.answers
  committed : ∀ x ∈ h.holds, ∀ table ∈ x.tables, ∀ c ∈ h.commits,
    (∃ k ∈ c.tickets, x.ticket ≤ k.no) → c.Free table
  looked : ∀ x ∈ h.holds, ∀ table ∈ x.tables,
    (∃ k ∈ h.looked.map (·.1) ++ h.batch, x.ticket ≤ k.no) → ∀ y ∈ h.looked, table ∈ y.2.held

namespace House

variable {h : House}

theorem count_pos (sound : h.Sound) (x : Holding) (inside : x ∈ h.holds) (table : String)
    (named : table ∈ x.tables) : 0 < heldBy h.held table := by
  rw [sound.held]
  exact List.sum_pos_iff_exists_pos_nat.mpr
    ⟨_, List.mem_map_of_mem inside, List.count_pos_iff.mpr named⟩

theorem Sound.send (sound : h.Sound) (flush : Flush) (sender : Option Nat) :
    (h.send flush sender).Sound := by
  refine ⟨sound.counts, sound.held, ?_, sound.whole, sound.refuses, sound.exact', sound.committed,
    sound.looked⟩
  have all : (h.send flush sender).all = h.all ++ [⟨h.tickets, sender, flush⟩] := by
    simp [House.all, House.waiting, House.send]
  rw [all, List.map_append, sound.order]
  exact List.range_succ.symm

/-- No flush has the number that comes next. -/
theorem Sound.before (sound : h.Sound) (k : Ticket) (inside : k ∈ h.all) : k.no < h.tickets := by
  have held := List.mem_map_of_mem (f := Ticket.no) inside
  rw [sound.order] at held
  exact List.mem_range.mp held

theorem Sound.bump (sound : h.Sound) (tables : List String) :
    House.Sound { h with
      held := bump h.held tables
      holds := h.holds ++ [⟨tables, h.tickets, false⟩] } := by
  obtain ⟨counts, adds⟩ := bump_spec h.held tables sound.counts
  have early (x : Holding) (inside : x ∈ h.holds ++ [⟨tables, h.tickets, false⟩]) (k : Ticket)
      (held : k ∈ h.all) (late : x.ticket ≤ k.no) : x ∈ h.holds := by
    rcases List.mem_append.mp inside with old | new
    · exact old
    · rw [List.mem_singleton.mp new] at late
      exact absurd (sound.before k held) (Nat.not_lt.mpr late)
  refine ⟨counts, fun table => ?_, sound.order, sound.whole, sound.refuses, sound.exact',
    fun x inside table named c made ⟨k, held, late⟩ => ?_,
    fun x inside table named ⟨k, held, late⟩ => ?_⟩
  · rw [adds, sound.held]
    simp
  · have all : k ∈ h.all := List.mem_append_left _ (List.mem_flatMap.mpr ⟨c, made, held⟩)
    exact sound.committed x (early x inside k all late) table named c made ⟨k, held, late⟩
  · have all : k ∈ h.all := by
      exact List.mem_append_right _ (List.mem_append_left _ held)
    exact sound.looked x (early x inside k all late) table named ⟨k, held, late⟩

theorem mem_modify (holds : List Holding) (i : Nat) (x : Holding)
    (inside : x ∈ holds.modify i fun x => { x with returned := true }) :
    ∃ y ∈ holds, x.tables = y.tables ∧ x.ticket = y.ticket := by
  obtain ⟨j, bound, rfl⟩ := List.getElem_of_mem inside
  rw [List.getElem_modify]
  have bound' : j < holds.length := by simpa using bound
  split
  · exact ⟨holds[j], List.getElem_mem bound', rfl, rfl⟩
  · exact ⟨holds[j], List.getElem_mem bound', rfl, rfl⟩

theorem Sound.returns (sound : h.Sound) (i : Nat) :
    House.Sound { h with holds := h.holds.modify i fun x => { x with returned := true } } := by
  refine ⟨sound.counts, fun table => ?_, sound.order, sound.whole, sound.refuses, sound.exact', ?_, ?_⟩
  · rw [sound.held]
    congr 1
    refine List.ext_getElem? fun j => ?_
    simp only [List.getElem?_map, List.getElem?_modify]
    cases h.holds[j]? with
    | none => rfl
    | some x =>
      simp only [Option.map_some]
      split
      · rfl
      · rfl
  · intro x inside table named c made late
    obtain ⟨y, held, tables, ticket⟩ := mem_modify h.holds i x inside
    rw [ticket] at late
    exact sound.committed y held table (tables ▸ named) c made late
  · intro x inside table named late
    obtain ⟨y, held, tables, ticket⟩ := mem_modify h.holds i x inside
    rw [ticket] at late
    exact sound.looked y held table (tables ▸ named) late

theorem Sound.drop (sound : h.Sound) (i : Nat) (within : i < h.holds.length) :
    House.Sound { h with
      held := release h.held (h.holds[i]?.elim [] (·.tables))
      holds := h.holds.eraseIdx i } := by
  obtain ⟨counts, subs⟩ := release_spec h.held (h.holds[i]?.elim [] (·.tables)) sound.counts
  refine ⟨counts, fun table => ?_, sound.order, sound.whole, sound.refuses, sound.exact',
    fun x inside => sound.committed x (List.mem_of_mem_eraseIdx inside),
    fun x inside => sound.looked x (List.mem_of_mem_eraseIdx inside)⟩
  have split : h.holds = h.holds.take i ++ h.holds[i] :: h.holds.drop (i + 1) := by
    rw [← List.drop_eq_getElem_cons, List.take_append_drop]
  have sums : (h.holds.map fun x => x.tables.count table).sum =
      h.holds[i].tables.count table + ((h.holds.eraseIdx i).map fun x => x.tables.count table).sum := by
    conv_lhs => rw [split]
    rw [List.eraseIdx_eq_take_drop_succ]
    simp only [List.map_append, List.map_cons, List.sum_append, List.sum_cons]
    omega
  rw [subs, sound.held, sums, List.getElem?_eq_getElem within]
  simp

theorem Sound.collect (sound : h.Sound) (k : Nat) (none : h.batch = []) (idle : h.looked = []) :
    House.Sound { h with queue := h.queue.drop k, batch := h.queue.take k } := by
  refine ⟨sound.counts, sound.held, ?_, sound.whole, sound.refuses, sound.exact', sound.committed, ?_⟩
  · have order := sound.order
    rw [House.all, House.waiting, none, List.append_nil] at order
    rw [House.all, House.waiting, List.append_assoc (h.looked.map _), List.take_append_drop]
    exact order
  · intro x _ table _ _ y inside
    have inside : y ∈ h.looked := inside
    rw [idle] at inside
    exact absurd inside List.not_mem_nil

theorem Sound.look (sound : h.Sound) (ticket : Ticket) (rest : List Ticket)
    (next : h.batch = ticket :: rest) (seen : Seen) :
    House.Sound { h with
      batch := rest
      looked := h.looked ++ [(ticket, { seen with held := h.held.keys })] } := by
  have same (found : Seen) : (h.looked ++ [(ticket, found)]).map (·.1) ++ rest =
      h.looked.map (·.1) ++ h.batch := by
    rw [next]
    simp
  refine ⟨sound.counts, sound.held, ?_, sound.whole, sound.refuses, sound.exact', sound.committed, ?_⟩
  · have order := sound.order
    rw [House.all, House.waiting] at order ⊢
    refine Eq.trans ?_ order
    exact congrArg (fun tickets => (h.commits.flatMap (·.tickets) ++ (tickets ++ h.queue)).map (·.no))
      (same _)
  · intro x inside table named late y held
    obtain ⟨k, seen', after⟩ := late
    have late : ∃ k ∈ h.looked.map (·.1) ++ h.batch, x.ticket ≤ k.no := ⟨k, same _ ▸ seen', after⟩
    rcases List.mem_append.mp held with old | new
    · exact sound.looked x inside table named late y old
    · rw [List.mem_singleton.mp new]
      exact mem_keys_of_held h.held table (count_pos sound x inside table named)

theorem Sound.commit (sound : h.Sound) (config : Config) (env : Env) (none : h.batch = [])
    (some : h.looked ≠ []) : (h.step config (.commit env)).Sound := by
  have tickets : (seens h.looked).length = (h.looked.map (·.1)).length := by simp [seens]
  refine ⟨sound.counts, sound.held, ?_, fun c inside => ?_, fun c inside => ?_, fun c inside => ?_,
    fun x held table named c inside => ?_, ?_⟩
  · have order := sound.order
    rw [House.all, House.waiting, none, List.append_nil] at order
    rw [House.all, House.waiting]
    simp only [House.step, none, List.flatMap_append, List.flatMap_cons, List.flatMap_nil,
      List.append_nil, List.map_nil, List.nil_append, List.append_assoc]
    exact order
  · rcases List.mem_append.mp inside with old | new
    · exact sound.whole c old
    · rw [List.mem_singleton.mp new]
      exact ⟨by simpa using some, (answers_length _ _ _).trans tickets⟩
  · rcases List.mem_append.mp inside with old | new
    · exact sound.refuses c old
    · rw [List.mem_singleton.mp new]
      intro unwritten a told
      have frozen : env.frozen = true := by
        by_contra open'
        simp only [if_neg open'] at unwritten
        cases unwritten
      have told : a ∈ h.seq.answers env (seens h.looked) := told
      unfold Sequencer.answers at told
      rw [if_pos frozen] at told
      obtain ⟨x, _, rfl⟩ := List.mem_map.mp told
      exact ⟨_, rfl⟩
  · rcases List.mem_append.mp inside with old | new
    · exact sound.exact' c old
    · rw [List.mem_singleton.mp new]
      intro write written
      cases frozen : env.frozen with
      | true =>
        simp only [frozen, if_true] at written
        cases written
      | false =>
        simp only [frozen, Bool.false_eq_true, if_false, Option.some.injEq] at written
        subst written
        refine ⟨h.seq.write_exact config env _, ?_⟩
        show _ = h.seq.answers env _
        unfold Sequencer.answers
        rw [frozen]
        rfl
  · rintro ⟨k, mine, late⟩
    rcases List.mem_append.mp inside with old | new
    · exact sound.committed x held table named c old ⟨k, mine, late⟩
    · rw [List.mem_singleton.mp new] at mine ⊢
      intro write written
      have finds := sound.looked x held table named ⟨k, List.mem_append_left _ mine, late⟩
      cases frozen : env.frozen with
      | true =>
        simp only [frozen, if_true] at written
        cases written
      | false =>
        simp only [frozen, Bool.false_eq_true, if_false, Option.some.injEq] at written
        subst written
        refine h.seq.write_free config env _ table fun y looked => ?_
        obtain ⟨z, seen, rfl⟩ := List.mem_map.mp looked
        exact finds z seen
  · intro x _ table _ _ y inside
    exact absurd inside List.not_mem_nil

theorem step_sound (config : Config) (act : Act) (sound : h.Sound) (allowed : h.Allows act) :
    (h.step config act).Sound := by
  cases act with
  | hold tables => exact (sound.bump tables).send numberFlush none
  | returns i => exact sound.returns i
  | drop i => exact sound.drop i allowed
  | submit n inlineBytes path derived =>
    refine Sound.send ?_ _ _
    exact ⟨sound.counts, sound.held, sound.order, sound.whole, sound.refuses, sound.exact',
      sound.committed, sound.looked⟩
  | enqueue flush => exact sound.send flush none
  | collect k => exact sound.collect k allowed.1 allowed.2.1
  | look seen =>
    obtain ⟨ticket, rest, next⟩ := List.exists_cons_of_ne_nil allowed
    have looks := sound.look ticket rest next seen
    unfold House.step
    rw [next]
    exact looks
  | commit env => exact sound.commit config env allowed.1 allowed.2.1
  | settle =>
    exact ⟨sound.counts, sound.held, sound.order, sound.whole, sound.refuses, sound.exact',
      sound.committed, sound.looked⟩
  | reply n =>
    unfold House.step
    simp only
    split
    · exact sound
    · exact ⟨sound.counts, sound.held, sound.order, sound.whole, sound.refuses, sound.exact',
        sound.committed, sound.looked⟩
  | lose n why lost =>
    exact ⟨sound.counts, sound.held, sound.order, sound.whole, sound.refuses, sound.exact',
      sound.committed, sound.looked⟩
  | refuse n why alone =>
    exact ⟨sound.counts, sound.held, sound.order, sound.whole, sound.refuses, sound.exact',
      sound.committed, sound.looked⟩

/-! ### Answers -/

/-- An answer that is there is one of a commit that is durable, or that wrote nothing. -/
theorem told_some (no : Nat) (a : Answer) (told : h.told no = some a) :
    ∃ c ∈ h.commits, (c ∈ h.commits.take h.settled ∨ c.write = none) ∧
      ∃ k, (k, a) ∈ c.tickets.zip c.answers ∧ k.no = no := by
  obtain ⟨⟨c, i⟩, zipped, found⟩ := List.exists_of_findSome?_eq_some told
  simp only at found
  split at found
  · rename_i done
    obtain ⟨⟨k, b⟩, inside, same⟩ := List.exists_of_findSome?_eq_some found
    simp only at same
    split at same
    · rename_i mine
      obtain rfl := Option.some.inj same
      have held := List.mem_zipIdx_iff_getElem?.mp zipped
      refine ⟨c, List.mem_of_getElem? held, done.imp (fun before => ?_) Option.isNone_iff_eq_none.mp,
        k, inside, mine⟩
      refine List.mem_of_getElem? (i := i) ?_
      rw [List.getElem?_take, if_pos before]
      exact held
    · cases same
  · cases found

/-- Each flush of a durable commit has its answer. -/
theorem told_of (sound : h.Sound) (c : Commit) (inside : c ∈ h.commits.take h.settled) (k : Ticket)
    (mine : k ∈ c.tickets) : ∃ a, h.told k.no = some a := by
  rw [← Option.isSome_iff_exists, House.told, List.findSome?_isSome_iff]
  obtain ⟨i, held⟩ := List.getElem?_of_mem inside
  rw [List.getElem?_take] at held
  split at held
  · rename_i before
    refine ⟨(c, i), List.mem_zipIdx_iff_getElem?.mpr held, ?_⟩
    simp only [before, true_or, if_true, List.findSome?_isSome_iff]
    obtain ⟨j, place⟩ := List.getElem?_of_mem mine
    have long := (sound.whole c (List.mem_of_getElem? held)).2
    obtain ⟨bound, _⟩ := List.getElem?_eq_some_iff.mp place
    have answer := List.getElem?_eq_getElem (l := c.answers) (i := j) (by omega)
    have both : (c.tickets.zip c.answers)[j]? = some (k, c.answers[j]) :=
      List.getElem?_zip_eq_some.mpr ⟨place, answer⟩
    exact ⟨(k, c.answers[j]), List.mem_of_getElem? both, by simp⟩
  · cases held

/-- What came later is later in the order, whichever commits come between. -/
theorem Sound.rises (sound : h.Sound) : (h.all.map (·.no)).Pairwise (· < ·) := by
  rw [sound.order]
  exact List.pairwise_lt_range

theorem all_split (h : House) (n : Nat) : h.all =
    (h.commits.take n).flatMap (·.tickets) ++ ((h.commits.drop n).flatMap (·.tickets) ++ h.waiting) := by
  rw [House.all, ← List.append_assoc, ← List.flatMap_append, List.take_append_drop]

/-- What is in a durable commit came before what isn't. -/
theorem Sound.earlier (sound : h.Sound) (c : Commit) (inside : c ∈ h.commits.take h.settled)
    (k : Ticket) (mine : k ∈ c.tickets) (later : Ticket)
    (after : later ∈ (h.commits.drop h.settled).flatMap (·.tickets) ++ h.waiting) : k.no < later.no := by
  have rises := sound.rises
  rw [all_split h h.settled, List.map_append, List.pairwise_append] at rises
  exact rises.2.2 _ (List.mem_map_of_mem (List.mem_flatMap.mpr ⟨c, inside, mine⟩)) _
    (List.mem_map_of_mem after)

/-- The flushes before one in a durable commit are in durable commits. -/
theorem Sound.before_settled (sound : h.Sound) (c : Commit) (inside : c ∈ h.commits.take h.settled)
    (k : Ticket) (mine : k ∈ c.tickets) (no : Nat) (before : no < k.no) :
    ∃ a, h.told no = some a := by
  have early := sound.before k (List.mem_append_left _ (List.mem_flatMap.mpr
    ⟨c, List.mem_of_mem_take inside, mine⟩))
  have held : no ∈ h.all.map (·.no) := by
    rw [sound.order]
    exact List.mem_range.mpr (before.trans early)
  obtain ⟨other, all, rfl⟩ := List.mem_map.mp held
  rw [all_split h h.settled] at all
  rcases List.mem_append.mp all with settled | later
  · obtain ⟨d, taken, own⟩ := List.mem_flatMap.mp settled
    exact told_of sound d taken other own
  · exact absurd (sound.earlier c inside k mine other later) (Nat.lt_asymm before)

/-! ### Held and still -/

/-- No flush of the commit being made was looked at before the table was held, and no commit on its way has
its rows. -/
structure Still (h : House) (table : String) : Prop where
  looked : ∀ y ∈ h.looked, table ∈ y.2.held
  free : ∀ c ∈ h.commits.drop h.settled, c.Free table

theorem returned (sound : h.Sound) (x : Holding) (inside : x ∈ h.holds) (acks : List Ack)
    (told : (h.told x.ticket).map (·.outcome) = some (.acks acks)) :
    (∀ no, no < x.ticket → ∃ a, h.told no = some a) ∧ ∀ table ∈ x.tables, h.Still table := by
  obtain ⟨a, found, outcome⟩ := Option.map_eq_some_iff.mp told
  obtain ⟨c, made, done, k, zipped, same⟩ := told_some x.ticket a found
  have mine := (List.of_mem_zip zipped).1
  have settled : c ∈ h.commits.take h.settled := by
    refine done.resolve_right fun unwritten => ?_
    obtain ⟨why, refused⟩ := sound.refuses c made unwritten a (List.of_mem_zip zipped).2
    rw [refused] at outcome
    cases outcome
  refine ⟨fun no before => sound.before_settled c settled k mine no (same ▸ before), ?_⟩
  intro table named
  refine ⟨fun y held => ?_, fun d way => ?_⟩
  · have after : y.1 ∈ (h.commits.drop h.settled).flatMap (·.tickets) ++ h.waiting :=
      List.mem_append_right _ (List.mem_append_left _ (List.mem_append_left _
        (List.mem_map_of_mem held)))
    have later := sound.earlier c settled k mine y.1 after
    exact sound.looked x inside table named
      ⟨y.1, List.mem_append_left _ (List.mem_map_of_mem held), same ▸ Nat.le_of_lt later⟩ y held
  · have made' := List.mem_of_mem_drop way
    obtain ⟨first, rest, some⟩ := List.exists_cons_of_ne_nil (sound.whole d made').1
    have own : first ∈ d.tickets := by rw [some]; exact List.mem_cons_self
    have later := sound.earlier c settled k mine first
      (List.mem_append_left _ (List.mem_flatMap.mpr ⟨d, way, own⟩))
    exact sound.committed x inside table named d made' ⟨first, own, same ▸ Nat.le_of_lt later⟩

/-- The commits made by a step, after those there were. -/
theorem step_commits (config : Config) (act : Act) :
    ∃ more, (h.step config act).commits = h.commits ++ more := by
  cases act with
  | commit env => exact ⟨_, rfl⟩
  | look seen =>
    unfold House.step
    simp only
    split
    · exact ⟨[], by simp⟩
    · exact ⟨[], by simp⟩
  | reply n =>
    unfold House.step
    simp only
    split
    · exact ⟨[], by simp⟩
    · exact ⟨[], by simp⟩
  | _ => exact ⟨[], by simp [House.step, House.send]⟩

/-- While a table is held, it stays still: a commit made meanwhile has none of its rows. -/
theorem Still.step (config : Config) (table : String) (still : h.Still table)
    (held : 0 < heldBy h.held table) (act : Act) :
    (h.step config act).Still table ∧
      ∀ more, (h.step config act).commits = h.commits ++ more → ∀ c ∈ more, c.Free table := by
  have same (next : House) (looked : next.looked = h.looked) (commits : next.commits = h.commits)
      (settled : next.settled = h.settled) : next.Still table ∧
        ∀ more, next.commits = h.commits ++ more → ∀ c ∈ more, c.Free table := by
    refine ⟨⟨by rw [looked]; exact still.looked, by rw [commits, settled]; exact still.free⟩, ?_⟩
    intro more grown c inside
    rw [commits, List.self_eq_append_right] at grown
    rw [grown] at inside
    exact absurd inside List.not_mem_nil
  cases act with
  | hold tables => exact same _ rfl rfl rfl
  | returns i => exact same _ rfl rfl rfl
  | drop i => exact same _ rfl rfl rfl
  | submit n inlineBytes path derived => exact same _ rfl rfl rfl
  | enqueue flush => exact same _ rfl rfl rfl
  | collect k => exact same _ rfl rfl rfl
  | lose n why lost => exact same _ rfl rfl rfl
  | refuse n why alone => exact same _ rfl rfl rfl
  | reply n =>
    unfold House.step
    simp only
    split
    · exact same _ rfl rfl rfl
    · exact same _ rfl rfl rfl
  | look seen =>
    unfold House.step
    simp only
    split
    · exact same _ rfl rfl rfl
    · refine ⟨⟨fun y inside => ?_, still.free⟩, ?_⟩
      · rcases List.mem_append.mp inside with old | new
        · exact still.looked y old
        · rw [List.mem_singleton.mp new]
          exact mem_keys_of_held h.held table held
      · exact (same h rfl rfl rfl).2
  | settle =>
    refine ⟨⟨still.looked, fun c inside => ?_⟩, (same h rfl rfl rfl).2⟩
    refine still.free c ?_
    have inside : c ∈ h.commits.drop (h.settled + 1) := inside
    rw [← List.drop_drop] at inside
    exact List.mem_of_mem_drop inside
  | commit env =>
    have free : ∀ c ∈ [({
        tickets := h.looked.map (·.1)
        answers := h.seq.answers env (seens h.looked)
        write := if env.frozen then none else some (h.seq.write config env (seens h.looked)) } :
          Commit)], c.Free table := by
      intro c inside
      rw [List.mem_singleton.mp inside]
      intro write written
      cases frozen : env.frozen with
      | true =>
        simp only [frozen, if_true] at written
        cases written
      | false =>
        simp only [frozen, Bool.false_eq_true, if_false, Option.some.injEq] at written
        subst written
        refine h.seq.write_free config env _ table fun y looked => ?_
        obtain ⟨z, seen, rfl⟩ := List.mem_map.mp looked
        exact still.looked z seen
    refine ⟨⟨fun _ none => absurd none List.not_mem_nil, fun c inside => ?_⟩, ?_⟩
    · have inside : c ∈ (h.commits ++ [_]).drop h.settled := inside
      rcases List.mem_append.mp (List.drop_append ▸ inside) with old | new
      · exact still.free c old
      · exact free c (List.mem_of_mem_drop new)
    · intro more grown c inside
      have grown : h.commits ++ [_] = h.commits ++ more := grown
      rw [← List.append_cancel_left grown] at inside
      exact free c inside

/-- While holds that name it live on, no commit has a producer's rows for the table. -/
theorem Still.run (config : Config) (table : String) (acts : List Act) (h : House)
    (still : h.Still table) (sound : h.Sound) (legal : (house config).Legal h acts)
    (named : ∀ before, before <+: acts →
      ∃ x ∈ ((house config).run h before).holds, table ∈ x.tables) :
    ∃ more, ((house config).run h acts).commits = h.commits ++ more ∧ ∀ c ∈ more, c.Free table := by
  induction acts generalizing h with
  | nil => exact ⟨[], by simp, fun _ none => absurd none List.not_mem_nil⟩
  | cons act rest ih =>
    obtain ⟨x, inside, mine⟩ := named [] (List.nil_prefix)
    have held := count_pos sound x inside table mine
    obtain ⟨still', free⟩ := still.step config table held act
    obtain ⟨first, grown⟩ := step_commits (h := h) config act
    obtain ⟨more, all, clean⟩ := ih (h.step config act) still' (step_sound config act sound legal.1)
      legal.2 fun before within => named (act :: before) (List.prefix_cons_inj act |>.mpr within)
    refine ⟨first ++ more, ?_, fun c made => ?_⟩
    · rw [← List.append_assoc, ← grown]
      exact all
    · rcases List.mem_append.mp made with one | later
      · exact free first grown c one
      · exact clean c later

end House

end Pondra.Log
