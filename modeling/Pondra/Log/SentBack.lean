import Pondra.Log.Once
import Pondra.Log.Still

set_option autoImplicit false

namespace Pondra.Log

open Dicts Machines

/-! ### What a node's flush is told -/

section sent

variable (s : Sequencer) (env : Env) (before after : List (Seen × Flush)) (seen : Seen)
  (st : Sending) (inlineBytes : Nat) (path : String) (derived : List Derived) (a : Answer)

/-- A commit that isn't a backup's, of a flush that isn't sent back: acks for each append, each of them
taken or told why not; or the skipped ones, if a view derived rows from them. -/
theorem told_cases (open' : env.frozen = false)
    (fresh : ¬ (pack inlineBytes path st.pending derived).stale env.views)
    (free : ¬ (pack inlineBytes path st.pending derived).waits seen.held)
    (told : (s.answers env (before ++
      (seen, pack inlineBytes path st.pending derived) :: after))[before.length]? = some a) :
    (∃ acks, a.outcome = .acks acks ∧
      ∀ part ∈ (pack inlineBytes path st.pending derived).parts.zipIdx, part ∈ a.taken ∨
        ∃ ack, acks[part.2]? = some ack ∧ ack.skipped = true) ∨
    ∃ skipped, skipped ≠ [] ∧ a.outcome = .retry skipped ∧
      ∀ x ∈ skipped, x.1 < st.pending.length := by
  have sent := pack_sent inlineBytes path st.pending derived
  have plain : (pack inlineBytes path st.pending derived).Rows ∧
      (pack inlineBytes path st.pending derived).filed = [] := by
    simp [pack, Flush.Rows]
  generalize pack inlineBytes path st.pending derived = f at told sent plain fresh free ⊢
  obtain ⟨raw, answers, same⟩ := answers_at s env before after (seen, f) open' a told
  have handled := takeFlush_handled (s.forget env) env.views (s.upTo env before) seen f
  generalize takeFlush (s.forget env) env.views (s.upTo env before) (seen, f) = later
    at answers handled
  have only (outcome : Outcome) (taken : List (Part × Nat))
      (grown : later.answers = (s.upTo env before).answers ++ [⟨f, outcome, taken⟩]) :
      raw = ⟨f, outcome, taken⟩ := by
    rw [grown] at answers
    exact ((List.cons.inj (List.append_cancel_left answers)).1).symm
  cases handled with
  | counted op asks => rw [plain.1.1] at asks; cases asks
  | reserved asks => exact absurd asks plain.1.2
  | inAlready _ files => exact absurd plain.2 files
  | sentBack why =>
    rcases why with stale | waits
    · exact absurd stale fresh
    · exact absurd waits free
  | redone _ _ bad _ _ =>
    have raw' := only _ _ rfl
    refine .inr ⟨((s.forget env).bad seen (s.upTo env before).seqs f).map fun skipped =>
      (skipped.1, skipped.2.ack), ?_, ?_, fun x inside => ?_⟩
    · exact fun empty => bad (List.map_eq_nil_iff.mp empty)
    · rcases same with rfl | ⟨seg, rfl⟩
      · rw [raw']
      · rw [raw']
        rfl
    · obtain ⟨skipped, held, rfl⟩ := List.mem_map.mp inside
      obtain ⟨part, zipped, place, src⟩ := (s.forget env).bad_sent seen (s.upTo env before).seqs f
        skipped held
      exact place ▸ sent part zipped src
  | taken _ _ _ _ =>
    have acked (rows : List (Nat × Nat)) (seg : Nat) (raw' : raw = ⟨f, .acks (f.acks ((s.forget env).bad
        seen (s.upTo env before).seqs f) rows seg), f.good ((s.forget env).bad seen
          (s.upTo env before).seqs f)⟩) : ∃ acks, a.outcome = .acks acks ∧ ∀ part ∈ f.parts.zipIdx,
            part ∈ a.taken ∨ ∃ ack, acks[part.2]? = some ack ∧ ack.skipped = true := by
      have each (part : Part × Nat) (inside : part ∈ f.parts.zipIdx) :
          part ∈ f.good ((s.forget env).bad seen (s.upTo env before).seqs f) ∨
          ∃ ack, (f.acks ((s.forget env).bad seen (s.upTo env before).seqs f) rows seg)[part.2]? =
            some ack ∧ ack.skipped = true := by
        have at' := acks_at f ((s.forget env).bad seen (s.upTo env before).seqs f) rows seg part inside
        cases skipped : ((s.forget env).bad seen (s.upTo env before).seqs f).lookup part.2 with
        | none => exact .inl (List.mem_filter.mpr ⟨inside, by rw [skipped]; rfl⟩)
        | some skip =>
          rw [skipped] at at'
          exact .inr ⟨_, at', Skip.ack_skipped skip⟩
      rcases same with rfl | ⟨number, rfl⟩
      · rw [raw']
        exact ⟨_, rfl, each⟩
      · rw [raw']
        refine ⟨_, rfl, fun part inside => (each part inside).imp_right ?_⟩
        rintro ⟨ack, at', skipped⟩
        refine ⟨ack.number number, ?_, ?_⟩
        · rw [List.getElem?_map, at']
          rfl
        · unfold Ack.number
          split
          · exact skipped
          · exact skipped
    unfold Batch.take at only
    simp only at only
    split at only
    · exact .inl (acked _ _ (only _ _ rfl))
    · split at only
      · exact .inl (acked _ _ (only _ _ rfl))
      · exact .inl (acked _ _ (only _ _ rfl))

theorem strike_shorter (st : Sending) (x : Nat × Ack) :
    (st.strike x).pending.length ≤ st.pending.length := by
  unfold Sending.strike
  split
  · exact Nat.le_refl _
  · split
    · exact Nat.le_refl _
    · exact List.length_eraseIdx_le _ _

theorem foldl_strike_shorter (skipped : List (Nat × Ack)) (st : Sending) :
    (skipped.foldl Sending.strike st).pending.length ≤ st.pending.length := by
  induction skipped generalizing st with
  | nil => exact Nat.le_refl _
  | cons x rest ih => exact (ih _).trans (strike_shorter st x)

/-- An answer leaves no append pending that wasn't. -/
theorem receive_le (st : Sending) (outcome : Outcome) :
    (st.receive (.outcome outcome)).pending.length ≤ st.pending.length := by
  cases outcome with
  | acks _ => exact Nat.zero_le _
  | refused _ => exact Nat.zero_le _
  | retry skipped =>
    unfold Sending.receive
    simp only
    split
    · exact foldl_strike_shorter skipped.reverse _
    · exact foldl_strike_shorter skipped.reverse _

/-- A flush that isn't sent back has at least one of its appends answered. -/
theorem receive_shorter (calm : st.panicked = false) (some' : st.pending ≠ [])
    (open' : env.frozen = false)
    (fresh : ¬ (pack inlineBytes path st.pending derived).stale env.views)
    (free : ¬ (pack inlineBytes path st.pending derived).waits seen.held)
    (told : (s.answers env (before ++
      (seen, pack inlineBytes path st.pending derived) :: after))[before.length]? = some a) :
    (st.receive (.outcome a.outcome)).pending.length < st.pending.length := by
  rcases told_cases s env before after seen st inlineBytes path derived a open' fresh free told with
    ⟨acks, outcome, _⟩ | ⟨skipped, some, outcome, within⟩
  · rw [outcome]
    exact List.length_pos_iff.mpr some'
  · rw [outcome]
    show (skipped.reverse.foldl Sending.strike (if skipped = [] then _ else st)).pending.length < _
    rw [if_neg some]
    obtain ⟨x, rest, last⟩ := List.exists_cons_of_ne_nil (mt List.reverse_eq_nil_iff.mp some)
    have inside : x ∈ skipped := by
      rw [← List.mem_reverse, last]
      exact List.mem_cons_self
    have short := within x inside
    rw [last, List.foldl_cons]
    refine (foldl_strike_shorter rest _).trans_lt ?_
    unfold Sending.strike
    rw [if_neg (by rw [calm]; exact Bool.false_ne_true), List.getElem?_eq_getElem short]
    show (st.pending.eraseIdx x.1).length < _
    rw [List.length_eraseIdx_of_lt short]
    exact Nat.sub_lt (List.length_pos_iff.mpr some') Nat.one_pos

end sent

/-! ### No append is taken twice -/

def Outcome.isAcks : Outcome → Bool
  | .acks _ => true
  | _ => false

/-- The flushes of a commit, with their answers. -/
def House.replies (h : House) : List (Ticket × Answer) :=
  h.commits.flatMap fun c => c.tickets.zip c.answers

/-- The flushes of a send that were taken. -/
def House.acked (h : House) (n : Nat) : List Ticket :=
  (h.replies.filter fun x => decide (x.1.sender = some n) && x.2.outcome.isAcks).map Prod.fst

/-- Those, and the ones of it that aren't committed yet. -/
def House.live (h : House) (n : Nat) : List Ticket :=
  h.acked n ++ h.waiting.filter fun k => decide (k.sender = some n)

/-- A send has one flush out, and is done once one was taken. -/
def House.Once (h : House) : Prop :=
  ∀ n, (h.live n).length ≤ 1 ∧ ∀ k ∈ h.live n, h.out n = some k.no ∨ (h.sends n).pending = []

namespace House

variable {h : House}

/-- A send that may pack again has no flush on its way, and none taken. -/
theorem Once.idle (once : h.Once) (n : Nat) (free : h.out n = none) (some' : (h.sends n).pending ≠ []) :
    h.live n = [] := by
  rw [List.eq_nil_iff_forall_not_mem]
  intro k inside
  rcases (once n).2 k inside with out | done
  · rw [free] at out
    cases out
  · exact some' done

theorem Once.sublist (once : h.Once) (next : House) (live : ∀ n, (next.live n).Sublist (h.live n))
    (out : next.out = h.out) (sends : next.sends = h.sends) : next.Once := by
  intro n
  refine ⟨(live n).length_le.trans (once n).1, fun k inside => ?_⟩
  rw [out, sends]
  exact (once n).2 k ((live n).subset inside)

theorem replies_no (sound : h.Sound) : h.replies.map (·.1.no) = (h.commits.flatMap (·.tickets)).map (·.no) := by
  unfold House.replies
  have lengths := sound.whole
  generalize h.commits = commits at lengths
  induction commits with
  | nil => rfl
  | cons c rest ih =>
    have first : (c.tickets.zip c.answers).map (·.1.no) = c.tickets.map (·.no) := by
      have fsts : (c.tickets.zip c.answers).map Prod.fst = c.tickets :=
        List.map_fst_zip (Nat.le_of_eq (lengths c List.mem_cons_self).2.symm)
      conv_rhs => rw [← fsts, List.map_map]
      rfl
    rw [List.flatMap_cons, List.flatMap_cons, List.map_append, List.map_append, first,
      ih fun d inside => lengths d (List.mem_cons_of_mem _ inside)]

/-- Two answers to one number are the same. -/
theorem replies_once (sound : h.Sound) (x y : Ticket × Answer) (first : x ∈ h.replies) (second : y ∈ h.replies)
    (same : x.1.no = y.1.no) : x = y := by
  have nodup : (h.replies.map (·.1.no)).Nodup := by
    rw [replies_no sound]
    have all := sound.rises
    rw [House.all, List.map_append, List.pairwise_append] at all
    exact all.1.imp fun {_ _} => Nat.ne_of_lt
  exact List.inj_on_of_nodup_map nodup first second same

theorem told_mem (no : Nat) (a : Answer) (told : h.told no = some a) :
    ∃ k, (k, a) ∈ h.replies ∧ k.no = no := by
  obtain ⟨c, made, _, k, zipped, same⟩ := told_some no a told
  exact ⟨k, List.mem_flatMap.mpr ⟨c, made, zipped⟩, same⟩

/-- A send whose flush is sent back has none on its way, and none taken. -/
theorem Once.sentBack (once : h.Once) (sound : h.Sound) (n no : Nat) (out : h.out n = some no)
    (some' : (h.sends n).pending ≠ []) (a : Answer) (told : h.told no = some a)
    (back : a.outcome.isAcks = false) : h.live n = [] := by
  obtain ⟨k, answered, same⟩ := told_mem no a told
  rw [List.eq_nil_iff_forall_not_mem]
  intro other inside
  have number : other.no = no := by
    rcases (once n).2 other inside with held | done
    · exact (Option.some.inj (out.symm.trans held)).symm
    · exact absurd done some'
  rcases List.mem_append.mp inside with taken | waiting
  · obtain ⟨x, held, rfl⟩ := List.mem_map.mp taken
    obtain ⟨told', acks⟩ := List.mem_filter.mp held
    have one := replies_once sound x (k, a) told' answered (number.trans same.symm)
    rw [one, Bool.and_eq_true, back] at acks
    exact absurd acks.2 Bool.false_ne_true
  · have rises := sound.rises
    rw [House.all, List.map_append, List.pairwise_append, ← replies_no sound] at rises
    have less := rises.2.2 _ (List.mem_map_of_mem answered) _
      (List.mem_map_of_mem (List.mem_of_mem_filter waiting))
    exact absurd (same.trans number.symm) (Nat.ne_of_lt less)

theorem live_send (flush : Flush) (sender : Option Nat) (n : Nat) : (h.send flush sender).live n =
    h.live n ++ if sender = some n then [⟨h.tickets, sender, flush⟩] else [] := by
  have open' : (h.send flush sender).waiting = h.waiting ++ [⟨h.tickets, sender, flush⟩] := by
    simp [House.waiting, House.send]
  show h.acked n ++ (h.send flush sender).waiting.filter _ = _
  rw [open', List.filter_append, ← List.append_assoc]
  congr 1
  by_cases mine : sender = some n
  · simp [mine]
  · simp [mine]

/-- A commit only settles which of its flushes are taken. -/
theorem live_commit (config : Config) (env : Env) (none : h.batch = []) (n : Nat) :
    ((h.step config (.commit env)).live n).Sublist (h.live n) := by
  have told : (h.step config (.commit env)).replies =
      h.replies ++ (h.looked.map (·.1)).zip (h.seq.answers env (seens h.looked)) := by
    simp [House.replies, House.step]
  have lengths : (h.looked.map (·.1)).length ≤ (h.seq.answers env (seens h.looked)).length := by
    rw [answers_length]
    simp [seens]
  have open' : h.waiting = h.looked.map (·.1) ++ h.queue := by
    rw [House.waiting, none, List.append_nil]
  have rest : (h.step config (.commit env)).waiting = h.queue := by
    simp [House.waiting, House.step, none]
  rw [House.live, House.live, House.acked, House.acked, told, rest, open', List.filter_append,
    List.map_append, List.append_assoc, List.filter_append]
  refine List.Sublist.append_left (List.Sublist.append_right ?_ _) _
  have fsts : ((h.looked.map (·.1)).zip (h.seq.answers env (seens h.looked))).map Prod.fst =
      h.looked.map (·.1) := List.map_fst_zip lengths
  conv_rhs => rw [← fsts, List.filter_map]
  refine List.Sublist.map _ ?_
  refine List.monotone_filter_right _ fun x taken => ?_
  rw [Bool.and_eq_true] at taken
  exact taken.1

theorem step_once (config : Config) (act : Act) (once : h.Once) (sound : h.Sound)
    (allowed : h.Allows act) : (h.step config act).Once := by
  have still (next : House) (commits : next.commits = h.commits) (open' : next.waiting = h.waiting)
      (out : next.out = h.out) (sends : next.sends = h.sends) : next.Once := by
    refine once.sublist next (fun n => ?_) out sends
    rw [House.live, House.live, House.acked, House.acked, House.replies, House.replies, commits, open']
  -- a send that changes has none on its way, or is done
  have changed (next : House) (n : Nat) (commits : next.commits = h.commits)
      (open' : next.waiting = h.waiting) (out : ∀ m, m ≠ n → next.out m = h.out m)
      (sends : ∀ m, m ≠ n → next.sends m = h.sends m)
      (done : h.live n = [] ∨ (next.sends n).pending = []) : next.Once := by
    intro m
    have live : next.live m = h.live m := by
      rw [House.live, House.live, House.acked, House.acked, House.replies, House.replies, commits, open']
    rw [live]
    refine ⟨(once m).1, fun k inside => ?_⟩
    by_cases same : m = n
    · subst same
      rcases done with idle | empty
      · rw [idle] at inside
        exact absurd inside List.not_mem_nil
      · exact .inr empty
    · rw [out m same, sends m same]
      exact (once m).2 k inside
  cases act with
  | hold tables =>
    refine once.sublist _ (fun n => ?_) rfl rfl
    have live := live_send (h := { h with
      held := bump h.held tables
      holds := h.holds ++ [⟨tables, h.tickets, false⟩] }) numberFlush none n
    rw [if_neg (by simp), List.append_nil] at live
    have same : (h.step config (.hold tables)).live n = h.live n := live
    rw [same]
  | enqueue flush =>
    refine once.sublist _ (fun n => ?_) rfl rfl
    have live := live_send (h := h) flush none n
    rw [if_neg (by simp), List.append_nil] at live
    have same : (h.step config (.enqueue flush)).live n = h.live n := live
    rw [same]
  | returns i => exact still _ rfl rfl rfl rfl
  | drop i => exact still _ rfl rfl rfl rfl
  | settle => exact still _ rfl rfl rfl rfl
  | collect k =>
    refine still _ rfl ?_ rfl rfl
    rw [House.waiting, House.waiting, allowed.1, List.append_nil]
    show h.looked.map (·.1) ++ h.queue.take k ++ h.queue.drop k = _
    rw [List.append_assoc, List.take_append_drop]
  | look seen =>
    obtain ⟨ticket, rest, next⟩ := List.exists_cons_of_ne_nil allowed
    unfold House.step
    rw [next]
    refine still _ rfl ?_ rfl rfl
    rw [House.waiting, House.waiting, next]
    simp
  | commit env =>
    exact once.sublist _ (live_commit config env allowed.1) rfl rfl
  | lose n why lost =>
    refine changed _ n rfl rfl (fun m other => Function.update_of_ne other _ _)
      (fun m other => Function.update_of_ne other _ _) (.inr ?_)
    show (Function.update h.sends n _ n).pending = []
    rw [Function.update_self]
    rfl
  | refuse n why alone =>
    exact changed _ n rfl rfl (fun _ _ => rfl) (fun m other => Function.update_of_ne other _ _)
      (.inl (once.idle n allowed.2 allowed.1))
  | reply n =>
    obtain ⟨no, out, found⟩ := allowed
    obtain ⟨a, told⟩ := Option.isSome_iff_exists.mp found
    unfold House.step
    simp only [out, Option.bind_some, told]
    refine changed _ n rfl rfl (fun m other => Function.update_of_ne other _ _)
      (fun m other => Function.update_of_ne other _ _) ?_
    show h.live n = [] ∨ (Function.update h.sends n _ n).pending = []
    rw [Function.update_self]
    by_cases empty : (h.sends n).pending = []
    · have short := receive_le (h.sends n) a.outcome
      rw [empty] at short
      exact .inr (List.eq_nil_of_length_eq_zero (Nat.le_zero.mp short))
    · cases outcome : a.outcome with
      | acks each => exact .inr rfl
      | refused why => exact .inr rfl
      | retry skipped =>
        exact .inl (once.sentBack sound n no out empty a told (by rw [outcome]; rfl))
  | submit n inlineBytes path derived =>
    have idle := once.idle n allowed.2 allowed.1
    intro m
    have live := live_send (h := { h with out := Function.update h.out n (some h.tickets) })
      (pack inlineBytes path (h.sends n).pending derived) (some n) m
    have live : (h.step config (.submit n inlineBytes path derived)).live m = h.live m ++
      if some n = some m then [⟨h.tickets, some n, pack inlineBytes path (h.sends n).pending derived⟩]
      else [] := live
    rw [live]
    by_cases same : m = n
    · subst same
      rw [idle, if_pos rfl]
      refine ⟨Nat.le_refl _, fun k inside => .inl ?_⟩
      rw [List.mem_singleton.mp inside]
      exact Function.update_self _ _ _
    · rw [if_neg fun eq => same (Option.some.inj eq).symm, List.append_nil]
      refine ⟨(once m).1, fun k inside => ?_⟩
      have out : (h.step config (.submit n inlineBytes path derived)).out m = h.out m :=
        Function.update_of_ne same _ _
      rw [out]
      exact (once m).2 k inside

end House

/-! ### A table held is still -/

/-- A leader that starts. -/
def House.opened (seq : Sequencer) (sends : Nat → Sending) : House where
  seq := seq
  held := ∅
  holds := []
  tickets := 0
  queue := []
  batch := []
  looked := []
  commits := []
  settled := 0
  sends := sends
  out := fun _ => none

theorem opened_sound (seq : Sequencer) (sends : Nat → Sending) : (House.opened seq sends).Sound where
  counts := fun _ zero => by cases zero
  held := fun _ => rfl
  order := rfl
  whole := fun _ none => absurd none List.not_mem_nil
  refuses := fun _ none => absurd none List.not_mem_nil
  exact' := fun _ none => absurd none List.not_mem_nil
  committed := fun _ none => absurd none List.not_mem_nil
  looked := fun _ none => absurd none List.not_mem_nil

/-- What `hold` finds as it returns, and what holds of its tables from then on. -/
def House.Returned (config : Config) (h : House) (i : Nat) (during : List Act) : Prop :=
  ∀ x, h.holds[i]? = some x →
    (∀ no, no < x.ticket → ∃ a, h.told no = some a) ∧
    ∀ table ∈ x.tables, (∀ c ∈ h.commits.drop h.settled, c.Free table) ∧
      ((∀ before, before <+: during →
          ∃ y ∈ ((house config).run (h.step config (.returns i)) before).holds, table ∈ y.tables) →
        ∃ more, ((house config).run (h.step config (.returns i)) during).commits = h.commits ++ more ∧
          ∀ c ∈ more, c.Free table)

/-- A flush sent back: nothing of it was taken, and its appends are all still pending. -/
def House.SentBack (config : Config) (h : House) : Prop :=
  ∀ n no a, h.out n = some no → h.told no = some a → a.outcome = .retry [] → a.taken = [] ∧
    ((h.step config (.reply n)).sends n).pending = (h.sends n).pending ∧
    ((h.step config (.reply n)).sends n).answered = (h.sends n).answered ∧
    (h.step config (.reply n)).out n = none

theorem sentBack_of (config : Config) (h : House) (sound : h.Sound) : h.SentBack config := by
  intro n no a out told back
  obtain ⟨c, made, _, k, zipped, _⟩ := House.told_some no a told
  have answered := (List.of_mem_zip zipped).2
  refine ⟨?_, ?_⟩
  · cases written : c.write with
    | none =>
      obtain ⟨why, refused⟩ := sound.refuses c made written a answered
      rw [refused] at back
      cases back
    | some write =>
      obtain ⟨exact', answers⟩ := sound.exact' c made write written
      have told := exact'.answers a (answers ▸ answered)
      unfold Answer.Exact at told
      rw [back] at told
      exact told
  · have stepped : h.step config (.reply n) =
        { h with
          sends := Function.update h.sends n ((h.sends n).receive (.outcome a.outcome))
          out := Function.update h.out n none } := by
      unfold House.step
      simp only [out, Option.bind_some, told]
    rw [stepped, back]
    refine ⟨?_, ?_, Function.update_self _ _ _⟩
    · show (Function.update h.sends n _ n).pending = _
      rw [Function.update_self]
      rfl
    · show (Function.update h.sends n _ n).answered = _
      rw [Function.update_self]
      rfl

/-- In every run of holds, drops, appends and flushes: when `hold` returns, the flushes queued before it are
answered and none of its tables' rows are on their way; until the last hold that names a table is dropped,
no commit has a producer's rows for it. What is sent back is all still pending, no append is in two flushes
that are taken, and a flush that finds none of its tables held has an append of it answered at least. -/
theorem run_still (config : Config) (seq : Sequencer) (sends : Nat → Sending) (acts : List Act)
    (legal : (house config).Legal (.opened seq sends) acts) :
    (∀ before i during, acts = before ++ .returns i :: during →
      ((house config).run (.opened seq sends) before).Returned config i during) ∧
    ((house config).run (.opened seq sends) acts).SentBack config ∧
    (∀ n, (((house config).run (.opened seq sends) acts).acked n).length ≤ 1) ∧
    ∀ (s : Sequencer) (env : Env) (before after : List (Seen × Flush)) (seen : Seen) (st : Sending)
      (inlineBytes : Nat) (path : String) (derived : List Derived) (a : Answer),
      st.panicked = false → st.pending ≠ [] → env.frozen = false →
      ¬ (pack inlineBytes path st.pending derived).stale env.views →
      ¬ (pack inlineBytes path st.pending derived).waits seen.held →
      (s.answers env (before ++
        (seen, pack inlineBytes path st.pending derived) :: after))[before.length]? = some a →
      (st.receive (.outcome a.outcome)).pending.length < st.pending.length ∧
      ((∃ acks, a.outcome = .acks acks ∧
        ∀ part ∈ (pack inlineBytes path st.pending derived).parts.zipIdx, part ∈ a.taken ∨
          ∃ ack, acks[part.2]? = some ack ∧ ack.skipped = true) ∨
      ∃ skipped, skipped ≠ [] ∧ a.outcome = .retry skipped ∧
        ∀ x ∈ skipped, x.1 < st.pending.length) := by
  have sound (h : House) (ops : List Act) (first : h.Sound) (ops' : (house config).Legal h ops) :
      ((house config).run h ops).Sound :=
    (house config).run_invariant House.Sound
      (fun _ act sound allowed => House.step_sound config act sound allowed) h ops first ops'
  refine ⟨?_, sentBack_of config _ (sound _ _ (opened_sound seq sends) legal), fun n => ?_, ?_⟩
  · rintro before i during rfl x found
    rw [Machine.legal_append] at legal
    obtain ⟨first, allowed, rest⟩ := legal
    have reached := sound _ before (opened_sound seq sends) first
    obtain ⟨y, acks, found', _, told⟩ := allowed
    obtain rfl := Option.some.inj (found.symm.trans found')
    obtain ⟨answered, still⟩ := House.returned reached x (List.mem_of_getElem? found) acks told
    refine ⟨answered, fun table named => ⟨(still table named).free, fun lives => ?_⟩⟩
    exact House.Still.run config table during _ ⟨(still table named).looked, (still table named).free⟩
      (reached.returns i) rest lives
  · have once := (house config).run_invariant (fun h => h.Sound ∧ h.Once)
      (fun h act held allowed => ⟨House.step_sound config act held.1 allowed,
        House.step_once config act held.2 held.1 allowed⟩) _ acts
      ⟨opened_sound seq sends, fun _ => ⟨Nat.zero_le _, fun _ none => absurd none List.not_mem_nil⟩⟩
      legal
    have live := (once.2 n).1
    rw [House.live, List.length_append] at live
    exact Nat.le_trans (Nat.le_add_right _ _) live
  · intro s env before after seen st inlineBytes path derived a calm some' open' fresh free told
    exact ⟨receive_shorter s env before after seen st inlineBytes path derived a calm some' open' fresh
      free told, told_cases s env before after seen st inlineBytes path derived a open' fresh free told⟩

section runs

/-- A node with an append to `t`, and one with an append to `u`. -/
def twoNodes (n : Nat) : Sending :=
  if n = 0 then ⟨[appendOf "p" "t" 1 0], [], 0, false⟩
  else if n = 1 then ⟨[appendOf "q" "u" 1 1], [], 0, false⟩
  else ⟨[], [], 0, false⟩

def plainHouse : House := .opened (.start emptyCatalog [] 0) twoNodes

/-- Its table is gone. -/
def goneSeen (copy : Nat) : Seen := { plainSeen copy with found := fun _ => none }

def holdActs : List Act :=
  [.hold ["t"], .collect 1, .look (plainSeen 0), .commit (plainEnv 0 0), .settle]

/-- A flush for `t` comes while it is held, and again once it isn't. -/
def heldActs : List Act :=
  [.submit 0 100 "" [], .collect 1, .look (plainSeen 0), .commit (plainEnv 0 1), .settle, .reply 0,
    .drop 0, .submit 0 100 "" [], .collect 1, .look (plainSeen 0), .commit (plainEnv 0 2), .settle,
    .reply 0]

theorem heldActs_legal :
    (house usual).Legal plainHouse (holdActs ++ .returns 0 :: heldActs) :=
  ⟨trivial, ⟨by decide, by decide, by decide, by decide⟩, List.cons_ne_nil _ _,
   ⟨by decide, by decide, by decide, by decide, by decide, by decide, by decide⟩, Nat.zero_lt_one,
   ⟨_, _, rfl, rfl, rfl⟩, ⟨by decide, by decide⟩, ⟨by decide, by decide, by decide, by decide⟩,
   List.cons_ne_nil _ _,
   ⟨by decide, by decide, by decide, by decide, by decide, by decide, by decide⟩,
   Nat.lt_succ_self _, ⟨_, rfl, by decide⟩, Nat.zero_lt_one, ⟨by decide, by decide⟩,
   ⟨by decide, by decide, by decide, by decide⟩, List.cons_ne_nil _ _,
   ⟨by decide, by decide, by decide, by decide, by decide, by decide, by decide⟩,
   Nat.lt_succ_self _, ⟨_, rfl, by decide⟩, trivial⟩

theorem heldActs_still :
    ((house usual).run plainHouse holdActs).Returned usual 0 heldActs ∧
      (((house usual).run plainHouse (holdActs ++ .returns 0 :: heldActs)).acked 0).length ≤ 1 := by
  have still := run_still usual (.start emptyCatalog [] 0) twoNodes _ heldActs_legal
  exact ⟨still.1 holdActs 0 heldActs rfl, still.2.2.1 0⟩

/-- An append to `u` is in a commit on its way as `hold` returns. -/
def passedActs : List Act :=
  [.hold ["t"], .collect 1, .look (plainSeen 0), .commit (plainEnv 0 0), .submit 1 100 "" [],
    .collect 1, .look (plainSeen 0), .commit (plainEnv 0 1), .settle, .returns 0]

/-- A flush sent back while `t` is held comes again once `t` is dropped. -/
def goneActs : List Act :=
  holdActs ++ [.returns 0, .submit 0 100 "" [], .collect 1, .look (plainSeen 0),
    .commit (plainEnv 0 1), .settle, .reply 0, .drop 0, .submit 0 100 "" [], .collect 1,
    .look (goneSeen 0), .commit (plainEnv 0 2), .settle, .reply 0]

/-- `hold` returns though an append sequenced before is neither committed nor answered; and an append sent
back is told, once the hold is gone, that its table is gone. -/
theorem passedActs_open :
    (house usual).Legal plainHouse passedActs ∧
    ((house usual).run plainHouse passedActs).holds = [⟨["t"], 0, true⟩] ∧
    (((house usual).run plainHouse passedActs).acked 1).map (·.no) = [1] ∧
    ((house usual).run plainHouse passedActs).told 1 = none ∧
    (((house usual).run plainHouse passedActs).sends 1).answered = [] ∧
    (house usual).Legal plainHouse goneActs ∧
    ((house usual).run plainHouse goneActs).holds = [] ∧
    (((house usual).run plainHouse goneActs).sends 0).answered =
      [(appendOf "p" "t" 1 0, .error ⟨"no table t", false⟩)] := by
  refine ⟨?_, by decide, by decide, by decide, by decide, ?_, by decide, by decide⟩
  · exact
      ⟨trivial, ⟨by decide, by decide, by decide, by decide⟩, List.cons_ne_nil _ _,
       ⟨by decide, by decide, by decide, by decide, by decide, by decide, by decide⟩,
       ⟨by decide, by decide⟩, ⟨by decide, by decide, by decide, by decide⟩, List.cons_ne_nil _ _,
       ⟨by decide, by decide, by decide, by decide, by decide, by decide, by decide⟩,
       Nat.zero_lt_succ _, ⟨_, _, rfl, rfl, rfl⟩, trivial⟩
  · exact
      ⟨trivial, ⟨by decide, by decide, by decide, by decide⟩, List.cons_ne_nil _ _,
       ⟨by decide, by decide, by decide, by decide, by decide, by decide, by decide⟩,
       Nat.zero_lt_one, ⟨_, _, rfl, rfl, rfl⟩, ⟨by decide, by decide⟩,
       ⟨by decide, by decide, by decide, by decide⟩, List.cons_ne_nil _ _,
       ⟨by decide, by decide, by decide, by decide, by decide, by decide, by decide⟩,
       Nat.lt_succ_self _, ⟨_, rfl, by decide⟩, Nat.zero_lt_one, ⟨by decide, by decide⟩,
       ⟨by decide, by decide, by decide, by decide⟩, List.cons_ne_nil _ _,
       ⟨by decide, by decide, by decide, by decide, by decide, by decide, by decide⟩,
       Nat.lt_succ_self _, ⟨_, rfl, by decide⟩, trivial⟩

end runs

end Pondra.Log
