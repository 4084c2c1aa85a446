import Mathlib.Data.List.Range
import Pondra.Page.Log

set_option autoImplicit false

namespace Pondra.Page

open Machines Dicts

/-! ### Listings -/

section listings

variable {ν : Type} {folder : Dict Nat ν}

theorem mem_list {seq : Nat} : seq ∈ list folder ↔ seq ∈ folder :=
  (List.mem_insertionSort _).trans AList.mem_keys.symm

theorem list_sorted : (list folder).Pairwise (· < ·) := by
  have ordered : (list folder).Pairwise (· ≤ ·) := List.pairwise_insertionSort _ _
  have distinct : (list folder).Nodup := (List.perm_insertionSort _ _).nodup_iff.mpr folder.keys_nodup
  exact (ordered.and distinct).imp fun both => Nat.lt_of_le_of_ne both.1 both.2

theorem last_le {l : List Nat} (sorted : l.Pairwise (· < ·)) {c : Nat} (last : l.getLast? = some c)
    (seq : Nat) (inside : seq ∈ l) : seq ≤ c := by
  obtain ⟨init, rfl⟩ := List.getLast?_eq_some_iff.mp last
  rcases List.mem_append.mp inside with before | same
  · exact Nat.le_of_lt ((List.pairwise_append.mp sorted).2.2 seq before c (List.mem_singleton.mpr rfl))
  · exact Nat.le_of_eq (List.mem_singleton.mp same)

/-- A list in order, of all numbers above one and up to another. -/
theorem eq_range' {l : List Nat} (sorted : l.Pairwise (· < ·)) (after upTo : Nat)
    (all : ∀ seq, seq ∈ l ↔ after < seq ∧ seq ≤ upTo) : l = List.range' (after + 1) (upTo - after) := by
  refine List.Pairwise.eq_of_mem_iff sorted List.pairwise_lt_range' fun seq => ?_
  rw [all, List.mem_range'_1]
  omega

end listings

theorem passed_iff {lake : Lake} {seq : Nat} :
    passed lake seq = true ↔ ∃ c ∈ lake.snapshots, seq ≤ c := by
  unfold passed
  cases last : (list lake.snapshots).getLast? with
  | none =>
    have empty := List.getLast?_eq_none_iff.mp last
    refine ⟨(fun none => nomatch none), fun ⟨c, held, _⟩ => ?_⟩
    rw [← mem_list, empty] at held
    cases held
  | some c =>
    have held : c ∈ list lake.snapshots := List.mem_of_getLast? last
    simp only [Option.any_some, decide_eq_true_eq]
    exact ⟨fun le => ⟨c, mem_list.mp held, le⟩,
      fun ⟨d, there, le⟩ => le.trans (last_le list_sorted last d (mem_list.mpr there))⟩

theorem passed_mono {lake : Lake} {seq other : Nat} (le : seq ≤ other)
    (past : passed lake other = true) : passed lake seq = true := by
  obtain ⟨c, held, above⟩ := passed_iff.mp past
  exact passed_iff.mpr ⟨c, held, le.trans above⟩

/-! ### Keys of a history -/

theorem shown_succ {history : List Write} {n : Nat} {write : Write}
    (here : history[n]? = some write) :
    shown history (n + 1) = apply (shown history n) write.batch := by
  rw [shown, List.take_add_one, here, List.foldl_append]
  rfl

theorem shown_add (history : List Write) (n k : Nat) :
    shown history (n + k) = ((history.drop n).take k).foldl
      (fun keys write => apply keys write.batch) (shown history n) := by
  rw [shown, List.take_add, List.foldl_append]
  rfl

theorem shown_front {history longer : List Write} (grows : history <+: longer) {n : Nat}
    (within : n ≤ history.length) : shown longer n = shown history n := by
  obtain ⟨more, rfl⟩ := grows
  rw [shown, List.take_append_of_le_length within]
  rfl

theorem getElem?_prefix {history longer : List Write} (grows : history <+: longer) {n : Nat}
    {write : Write} (here : history[n]? = some write) : longer[n]? = some write := by
  obtain ⟨more, rfl⟩ := grows
  rw [List.getElem?_append_left (List.getElem?_eq_some_iff.mp here).1]
  exact here

/-! ### What holds of the lake -/

/-- Each snapshot is the keys of its batches, and each log of the history is there until a snapshot is
at it or past it. -/
structure Lake.Holds (lake : Lake) (history : List Write) : Prop where
  snapshots : ∀ c keys, lake.snapshots.lookup c = some keys →
    c ≤ history.length ∧ keys = shown history c
  logs : ∀ seq, 1 ≤ seq → seq ≤ history.length →
    lake.logs.lookup seq = history[seq - 1]? ∨ passed lake seq = true
  within : ∀ seq write, lake.logs.lookup seq = some write → 1 ≤ seq ∧ seq ≤ history.length

namespace Lake.Holds

variable {lake : Lake} {history : List Write}

theorem passed_le (holds : lake.Holds history) {seq : Nat} (past : passed lake seq = true) :
    seq ≤ history.length := by
  obtain ⟨c, held, le⟩ := passed_iff.mp past
  obtain ⟨keys, found⟩ := Option.isSome_iff_exists.mp (AList.lookup_isSome.mpr held)
  exact le.trans (holds.snapshots c keys found).1

/-- A log that no snapshot has passed is the history's. -/
theorem read (holds : lake.Holds history) {seq : Nat} {write : Write}
    (found : lake.logs.lookup seq = some write) (free : passed lake seq ≠ true) :
    history[seq - 1]? = some write := by
  obtain ⟨one, within⟩ := holds.within seq write found
  rcases holds.logs seq one within with same | past
  · exact same ▸ found
  · exact absurd past free

theorem listed (holds : lake.Holds history) {seq : Nat} (one : 1 ≤ seq)
    (within : seq ≤ history.length) : seq ∈ list lake.logs ∨ passed lake seq = true := by
  refine (holds.logs seq one within).imp_left fun same => mem_list.mpr (AList.lookup_isSome.mp ?_)
  rw [same, List.getElem?_eq_getElem (by omega)]
  rfl

theorem list_within (holds : lake.Holds history) {seq : Nat} (inside : seq ∈ list lake.logs) :
    1 ≤ seq ∧ seq ≤ history.length := by
  obtain ⟨write, found⟩ := Option.isSome_iff_exists.mp
    (AList.lookup_isSome.mpr (mem_list.mp inside))
  exact holds.within seq write found

/-- Where no log is at the number after a history's last batches, either a snapshot passed it or it is
the next. -/
theorem create (holds : lake.Holds history) (seq : Nat) (write : Write) (one : 1 ≤ seq)
    (next : seq ≤ history.length + 1) (absent : lake.logs.lookup seq = none) :
    if passed lake seq then
      Lake.Holds ⟨lake.logs.insert seq write, lake.snapshots⟩ history
    else seq = history.length + 1 ∧
      Lake.Holds ⟨lake.logs.insert seq write, lake.snapshots⟩ (history ++ [write]) := by
  split
  · rename_i past
    refine ⟨holds.snapshots, fun other above within => ?_, fun other held found => ?_⟩
    · rw [lookup_insert_eq]
      by_cases same : other = seq
      · exact .inr (same ▸ past)
      · rw [if_neg same]
        exact holds.logs other above within
    · rw [lookup_insert_eq] at found
      split at found
      · rename_i same
        exact same ▸ ⟨one, holds.passed_le past⟩
      · exact holds.within other held found
  · rename_i free
    have last : seq = history.length + 1 := by
      by_contra before
      rcases holds.logs seq one (by omega) with same | past
      · rw [absent, List.getElem?_eq_getElem (by omega)] at same
        cases same
      · exact free past
    refine ⟨last, fun c keys found => ?_, fun other above within => ?_, fun other held found => ?_⟩
    · obtain ⟨le, eq⟩ := holds.snapshots c keys found
      rw [List.length_append]
      exact ⟨le.trans (Nat.le_add_right _ _), eq.trans (shown_front ⟨[write], rfl⟩ le).symm⟩
    · rw [lookup_insert_eq]
      by_cases same : other = seq
      · rw [if_pos same, same, last, Nat.add_sub_cancel, List.getElem?_concat_length]
        exact .inl rfl
      · rw [List.length_append, List.length_singleton] at within
        rw [if_neg same, List.getElem?_append_left (by omega)]
        exact holds.logs other above (by omega)
    · rw [List.length_append, List.length_singleton]
      rw [lookup_insert_eq] at found
      split at found
      · rename_i same
        omega
      · have := holds.within other held found
        omega

theorem putSnapshot (holds : lake.Holds history) (covered : Nat)
    (within : covered ≤ history.length) :
    Lake.Holds ⟨lake.logs, lake.snapshots.insert covered (shown history covered)⟩ history := by
  refine ⟨fun c keys found => ?_, fun seq one upTo => ?_, holds.within⟩
  · rw [lookup_insert_eq] at found
    split at found
    · rename_i same
      exact same ▸ ⟨within, (Option.some.inj found).symm⟩
    · exact holds.snapshots c keys found
  · refine (holds.logs seq one upTo).imp_right fun past => ?_
    obtain ⟨c, held, le⟩ := passed_iff.mp past
    exact passed_iff.mpr ⟨c, AList.mem_insert _ |>.mpr (.inr held), le⟩

theorem deleteLog (holds : lake.Holds history) (seq : Nat) (past : passed lake seq = true) :
    Lake.Holds ⟨lake.logs.erase seq, lake.snapshots⟩ history := by
  refine ⟨holds.snapshots, fun other one upTo => ?_, fun other write found => ?_⟩
  · by_cases same : other = seq
    · exact .inr (same ▸ past)
    · rw [AList.lookup_erase_ne same]
      exact holds.logs other one upTo
  · by_cases same : other = seq
    · rw [same, AList.lookup_erase] at found
      cases found
    · rw [AList.lookup_erase_ne same] at found
      exact holds.within other write found

/-- A snapshot below another's number passes nothing alone. -/
theorem deleted_passed {lake : Lake} {c covered : Nat} (below : c < covered)
    (past : passed lake covered = true) {seq : Nat} (was : passed lake seq = true) :
    passed ⟨lake.logs, lake.snapshots.erase c⟩ seq = true := by
  obtain ⟨top, held, le⟩ := passed_iff.mp past
  obtain ⟨d, there, above⟩ := passed_iff.mp was
  by_cases same : d = c
  · refine passed_iff.mpr ⟨top, AList.mem_erase.mpr ⟨?_, held⟩, ?_⟩ <;> omega
  · exact passed_iff.mpr ⟨d, AList.mem_erase.mpr ⟨same, there⟩, above⟩

theorem deleteSnapshot (holds : lake.Holds history) {c covered : Nat} (below : c < covered)
    (past : passed lake covered = true) :
    Lake.Holds ⟨lake.logs, lake.snapshots.erase c⟩ history := by
  refine ⟨fun d keys found => ?_, fun seq one upTo => ?_, holds.within⟩
  · by_cases same : d = c
    · rw [same, AList.lookup_erase] at found
      cases found
    · rw [AList.lookup_erase_ne same] at found
      exact holds.snapshots d keys found
  · exact (holds.logs seq one upTo).imp_right (deleted_passed below past)

end Lake.Holds

/-! ### What holds of those on it -/

/-- The writes that had their answers before a call began are among the first `n` batches. -/
def Answered (s : Tabs) (since n : Nat) : Prop :=
  ∀ answer ∈ s.answers.take since, answer.outcome = .ok → answer.seq ≤ n

/-- A replay's logs from here on: what is left of them above its snapshot is the next ones, and those
there now are the history's. -/
structure Going (s : Tabs) (since covered : Nat) (state : Replayed) (rest : List Nat) (upTo : Nat) :
    Prop where
  keys : state.keys = shown s.history state.last
  past : covered ≤ state.last
  within : upTo ≤ s.history.length
  left : rest.filter (covered < ·) = List.range' (state.last + 1) (upTo - state.last)
  last : state.last ≤ upTo
  since : Answered s since upTo
  logs : ∀ seq ∈ rest, covered < seq → ∀ write, s.lake.logs.lookup seq = some write →
    s.history[seq - 1]? = some write

def Replay.Right (s : Tabs) (since : Nat) : Replay → Prop
  | .logs => True
  | .snapshots listed => listed.Pairwise (· < ·) ∧ ∃ n ≤ s.history.length, Answered s since n ∧
    (∀ seq ∈ listed, 1 ≤ seq ∧ seq ≤ n) ∧
      ∀ seq, 1 ≤ seq → seq ≤ n → seq ∈ listed ∨ passed s.lake seq = true
  | .snapshot listed covered => covered ≤ s.history.length ∧ listed.Pairwise (· < ·) ∧
    (∃ n ≤ s.history.length, Answered s since n ∧ (∀ seq ∈ listed, 1 ≤ seq ∧ seq ≤ n) ∧
      ∀ seq, 1 ≤ seq → seq ≤ n → seq ∈ listed ∨ seq ≤ covered) ∧
    ∀ seq ∈ listed, covered < seq → ∀ write, s.lake.logs.lookup seq = some write →
      s.history[seq - 1]? = some write
  | .log covered state seq rest => covered < seq ∧ state.last = seq ∧
    ∃ upTo, Going s since covered { state with last := seq - 1 } (seq :: rest) upTo

/-- A replay that is done. -/
def Replayed.Right (s : Tabs) (since : Nat) (state : Replayed) : Prop :=
  state.keys = shown s.history state.last ∧ state.last ≤ s.history.length ∧
    Answered s since state.last

section replays

variable {s : Tabs} {since : Nat}

theorem goOn_right (upTo : Nat) {covered : Nat} {state : Replayed} {rest : List Nat}
    (going : Going s since covered state rest upTo) :
    match Replay.goOn covered state rest with
    | .inl r => r.Right s since
    | .inr state => state.Right s since := by
  induction rest generalizing state with
  | nil =>
    have none : upTo - state.last = 0 := by
      have long := congrArg List.length going.left
      rw [List.length_range'] at long
      exact long.symm
    have all : state.last = upTo := Nat.le_antisymm going.last (by omega)
    exact ⟨going.keys, all ▸ going.within, all ▸ going.since⟩
  | cons seq rest ih =>
    by_cases skipped : seq ≤ covered
    · have same : max state.last seq = state.last := max_eq_left (skipped.trans going.past)
      simp only [Replay.goOn, if_pos skipped, same]
      refine ih ⟨going.keys, going.past, going.within, ?_, going.last, going.since,
        fun other inside => going.logs other (List.mem_cons_of_mem _ inside)⟩
      have shorter := going.left
      rw [List.filter_cons_of_neg (by simpa using skipped)] at shorter
      exact shorter
    · simp only [Replay.goOn, if_neg skipped]
      have rest' := going.left
      rw [List.filter_cons_of_pos (by simpa using skipped)] at rest'
      have first : seq = state.last + 1 := by
        cases k : upTo - state.last with
        | zero =>
          rw [k] at rest'
          cases rest'
        | succ k =>
          rw [k, List.range'_succ] at rest'
          exact (List.cons.inj rest').1
      have before : seq - 1 = state.last := by omega
      refine ⟨Nat.lt_of_not_le skipped, by show max state.last seq = seq; omega, upTo, ?_⟩
      simp only [before]
      exact going

theorem Replay.Right.step {r : Replay} (right : r.Right s since)
    (holds : s.lake.Holds s.history) (known : Answered s since s.history.length) :
    match r.step s.lake with
    | .inl r => r.Right s since
    | .inr state => state.Right s since := by
  cases r with
  | logs =>
    exact ⟨list_sorted, _, le_rfl, known, fun seq inside => holds.list_within inside,
      fun seq one within => holds.listed one within⟩
  | snapshots listed =>
    obtain ⟨sorted, n, within, answered, bounds, all⟩ := right
    unfold Replay.step
    simp only
    cases last : (list s.lake.snapshots).getLast? with
    | some covered =>
      have held := mem_list.mp (List.mem_of_getLast? last)
      have top : ∀ seq, covered < seq → passed s.lake seq ≠ true := fun seq above past => by
        obtain ⟨c, there, le⟩ := passed_iff.mp past
        have := last_le list_sorted last c (mem_list.mpr there)
        omega
      refine ⟨holds.passed_le (passed_iff.mpr ⟨covered, held, le_rfl⟩), sorted,
        ⟨n, within, answered, bounds, fun seq one upTo => (all seq one upTo).imp_right fun past => ?_⟩,
        fun seq _ above write found => holds.read found (top seq above)⟩
      by_contra above
      exact top seq (Nat.lt_of_not_le above) past
    | none =>
      have free : ∀ seq, passed s.lake seq ≠ true := fun seq past => by
        obtain ⟨c, there, -⟩ := passed_iff.mp past
        rw [← mem_list, List.getLast?_eq_none_iff.mp last] at there
        cases there
      refine goOn_right n ⟨rfl, le_rfl, within, ?_, Nat.zero_le _, answered,
        fun seq _ _ write found => holds.read found (free seq)⟩
      refine eq_range' (sorted.filter _) 0 n fun seq => ?_
      simp only [List.mem_filter, decide_eq_true_eq]
      exact ⟨fun inside => ⟨inside.2, (bounds seq inside.1).2⟩,
        fun ⟨one, le⟩ => ⟨(all seq one le).resolve_right (free seq), one⟩⟩
  | snapshot listed covered =>
    obtain ⟨low, sorted, ⟨n, within, answered, bounds, all⟩, logs⟩ := right
    unfold Replay.step
    simp only
    cases found : s.lake.snapshots.lookup covered with
    | none => trivial
    | some keys =>
      refine goOn_right (max covered n) ⟨(holds.snapshots covered keys found).2, le_rfl,
        max_le low within, ?_, le_max_left _ _,
        fun answer inside ok => (answered answer inside ok).trans (le_max_right _ _), logs⟩
      refine eq_range' (sorted.filter _) covered _ fun seq => ?_
      simp only [List.mem_filter, decide_eq_true_eq]
      refine ⟨fun inside => ⟨inside.2, (bounds seq inside.1).2.trans (le_max_right _ _)⟩,
        fun ⟨above, le⟩ => ⟨(all seq (by omega) (by omega)).resolve_right (by omega), above⟩⟩
  | log covered state seq rest =>
    obtain ⟨above, last, upTo, going⟩ := right
    unfold Replay.step
    simp only
    cases found : s.lake.logs.lookup seq with
    | none => trivial
    | some write =>
      have here := going.logs seq List.mem_cons_self above write found
      have rest' := going.left
      rw [List.filter_cons_of_pos (by simpa using above)] at rest'
      have low : seq - 1 < upTo := by
        by_contra high
        rw [Nat.sub_eq_zero_of_le (Nat.le_of_not_lt high)] at rest'
        cases rest'
      have keys := shown_succ here
      have one : seq - 1 + 1 = seq := by omega
      rw [one] at keys
      refine goOn_right upTo ⟨?_, (show covered ≤ state.last by omega), going.within, ?_,
        (show state.last ≤ upTo by omega), going.since,
        fun other inside => going.logs other (List.mem_cons_of_mem _ inside)⟩
      · rw [last, keys, ← going.keys]
      · have count : upTo - (seq - 1) = (upTo - seq) + 1 := by omega
        simp only [count, List.range'_succ] at rest'
        rw [last, (List.cons.inj rest').2, one]

end replays

def Catching.Right (s : Tabs) (since next : Nat) : Catching → Prop
  | .list => True
  -- where no snapshot has passed the reader, what it reads is the history's next batches
  | .logs rest batches => passed s.lake next = true ∨
    batches = (s.history.drop (next - 1)).take batches.length ∧
      rest = List.range' (next + batches.length) rest.length ∧
      next - 1 + batches.length + rest.length ≤ s.history.length ∧
      Answered s since (next - 1 + batches.length + rest.length)
  | .replay r => r.Right s since

def Writing.Right (s : Tabs) (next : Nat) (w : Writing) : Prop :=
  w.seq = next ∧ w.write.id < s.tried.length ∧
    if w.early then s.history[w.seq - 1]? = some w.write
    else passed s.lake w.seq = true ∧ w.write.id ∉ s.history.map (·.id)

def Stage.Right (s : Tabs) (covered : Nat) : Stage → Prop
  | .put => True
  | .check | .logs => passed s.lake covered = true
  | .deleteLogs rest => passed s.lake covered = true ∧ ∀ seq ∈ rest, seq ≤ covered
  | .deleteSnapshots rest => passed s.lake covered = true ∧ ∀ c ∈ rest, c < covered

structure Log.Right (s : Tabs) (log : Log) : Prop where
  next : 1 ≤ log.next ∧ log.next - 1 ≤ s.history.length
  keys : log.keys = shown s.history (log.next - 1)
  since : log.since ≤ s.answers.length ∧ Answered s log.since (log.next - 1)
  writing : ∀ w, log.writing = some w → log.writer = true ∧ w.Right s log.next
  folding : ∀ f, log.folding = some f → f.covered ≤ s.history.length ∧
    f.keys = shown s.history f.covered ∧ f.stage.Right s f.covered
  catching : ∀ since c, log.catching = some (since, c) →
    log.writer = false ∧ since ≤ s.answers.length ∧ c.Right s since log.next

def Agent.Right (s : Tabs) : Agent → Prop
  | .out => True
  | .opening _ since r => since ≤ s.answers.length ∧ r.Right s since
  | .opened log => log.Right s

/-! ### What a step leaves for the others -/

/-- The history and the answers only grow, what a snapshot passed stays so, and only a log that one
passed is created again. -/
structure Grows (s s' : Tabs) : Prop where
  history : s.history <+: s'.history
  fresh : ∀ w ∈ s'.history, w ∈ s.history ∨ s.tried.length ≤ w.id
  tried : s.tried.length ≤ s'.tried.length
  answers : s.answers <+: s'.answers
  passed : ∀ seq, passed s.lake seq = true → passed s'.lake seq = true

section grows

variable {s s' : Tabs} {since : Nat}

theorem Answered.mono {n : Nat} (answered : Answered s since n) (grows : s.answers <+: s'.answers)
    (within : since ≤ s.answers.length) : Answered s' since n := by
  obtain ⟨more, eq⟩ := grows
  intro answer inside ok
  rw [← eq, List.take_append_of_le_length within] at inside
  exact answered answer inside ok

theorem Replay.Right.mono {r : Replay} (right : r.Right s since) (grows : Grows s s')
    (within : since ≤ s.answers.length)
    (same : ∀ seq ∈ r.awaits, ∀ write, s'.lake.logs.lookup seq = some write →
      s.lake.logs.lookup seq = some write) : r.Right s' since := by
  have long := grows.history.length_le
  cases r with
  | logs => trivial
  | snapshots listed =>
    obtain ⟨sorted, n, le, answered, bounds, all⟩ := right
    exact ⟨sorted, n, le.trans long, answered.mono grows.answers within, bounds,
      fun seq one upTo => (all seq one upTo).imp_right (grows.passed seq)⟩
  | snapshot listed covered =>
    obtain ⟨low, sorted, ⟨n, le, answered, bounds, all⟩, logs⟩ := right
    refine ⟨low.trans long, sorted,
      ⟨n, le.trans long, answered.mono grows.answers within, bounds, all⟩,
      fun seq inside above write found => getElem?_prefix grows.history ?_⟩
    refine logs seq inside above write (same seq ?_ write found)
    exact List.mem_filter.mpr ⟨inside, decide_eq_true above⟩
  | log covered state seq rest =>
    obtain ⟨above, last, upTo, going⟩ := right
    refine ⟨above, last, upTo, ?_, going.past, going.within.trans long, going.left, going.last,
      going.since.mono grows.answers within,
      fun other inside high write found => getElem?_prefix grows.history ?_⟩
    · rw [shown_front grows.history (going.last.trans going.within)]
      exact going.keys
    · refine going.logs other inside high write (same other ?_ write found)
      exact List.mem_filter.mpr ⟨inside, decide_eq_true high⟩

theorem Catching.Right.mono {c : Catching} {next : Nat} (right : c.Right s since next)
    (grows : Grows s s') (within : since ≤ s.answers.length)
    (same : ∀ r, c = .replay r → ∀ seq ∈ r.awaits, ∀ write,
      s'.lake.logs.lookup seq = some write → s.lake.logs.lookup seq = some write) :
    c.Right s' since next := by
  cases c with
  | list => trivial
  | logs rest batches =>
    refine right.imp (grows.passed next) fun ⟨same, left, le, answered⟩ => ⟨?_, left,
      le.trans grows.history.length_le, answered.mono grows.answers within⟩
    obtain ⟨more, eq⟩ := grows.history
    rw [← eq, List.drop_append_of_le_length (by omega),
      List.take_append_of_le_length (by rw [List.length_drop]; omega)]
    exact same
  | replay r => exact Replay.Right.mono right grows within (same r rfl)

theorem Writing.Right.mono {w : Writing} {next : Nat} (right : w.Right s next) (grows : Grows s s') :
    w.Right s' next := by
  obtain ⟨seq, id, here⟩ := right
  refine ⟨seq, id.trans_le grows.tried, ?_⟩
  split
  · rename_i early
    rw [if_pos early] at here
    exact getElem?_prefix grows.history here
  · rename_i late
    rw [if_neg late] at here
    refine ⟨grows.passed _ here.1, fun inside => ?_⟩
    obtain ⟨other, held, eq⟩ := List.mem_map.mp inside
    rcases grows.fresh other held with old | new
    · exact here.2 (List.mem_map.mpr ⟨other, old, eq⟩)
    · omega

theorem Stage.Right.mono {stage : Stage} {covered : Nat} (right : stage.Right s covered)
    (grows : Grows s s') : stage.Right s' covered := by
  cases stage with
  | put => trivial
  | check => exact grows.passed covered right
  | logs => exact grows.passed covered right
  | deleteLogs rest => exact ⟨grows.passed covered right.1, right.2⟩
  | deleteSnapshots rest => exact ⟨grows.passed covered right.1, right.2⟩

theorem Log.Right.mono {log : Log} (right : log.Right s) (grows : Grows s s')
    (same : ∀ since r, log.catching = some (since, .replay r) → ∀ seq ∈ r.awaits, ∀ write,
      s'.lake.logs.lookup seq = some write → s.lake.logs.lookup seq = some write) :
    log.Right s' where
  next := ⟨right.next.1, right.next.2.trans grows.history.length_le⟩
  keys := right.keys.trans (shown_front grows.history right.next.2).symm
  since := ⟨right.since.1.trans grows.answers.length_le,
    right.since.2.mono grows.answers right.since.1⟩
  writing w here := ⟨(right.writing w here).1, (right.writing w here).2.mono grows⟩
  folding f here := by
    obtain ⟨le, keys, stage⟩ := right.folding f here
    exact ⟨le.trans grows.history.length_le, keys.trans (shown_front grows.history le).symm,
      stage.mono grows⟩
  catching since c here := by
    obtain ⟨reader, within, catching⟩ := right.catching since c here
    refine ⟨reader, within.trans grows.answers.length_le, catching.mono grows within ?_⟩
    rintro r rfl
    exact same since r here

theorem awaits_opened {log : Log} {since : Nat} {r : Replay}
    (here : log.catching = some (since, .replay r)) : (Agent.opened log).awaits = r.awaits := by
  cases log
  cases here
  rfl

theorem Agent.Right.mono {agent : Agent} (right : agent.Right s) (grows : Grows s s')
    (same : ∀ seq ∈ agent.awaits, ∀ write, s'.lake.logs.lookup seq = some write →
      s.lake.logs.lookup seq = some write) : agent.Right s' := by
  cases agent with
  | out => trivial
  | opening writer since r =>
    exact ⟨right.1.trans grows.answers.length_le, right.2.mono grows right.1 same⟩
  | opened log =>
    refine Log.Right.mono right grows fun since r here seq inside => same seq ?_
    rw [awaits_opened here]
    exact inside

end grows

theorem Replay.Right.awaits_le {s : Tabs} {since : Nat} {r : Replay} (right : r.Right s since)
    {seq : Nat} (inside : seq ∈ r.awaits) : seq ≤ s.history.length := by
  cases r with
  | logs => cases inside
  | snapshots listed => cases inside
  | snapshot listed covered =>
    obtain ⟨-, -, ⟨n, le, -, bounds, -⟩, -⟩ := right
    exact (bounds seq (List.mem_of_mem_filter inside)).2.trans le
  | log covered state first rest =>
    obtain ⟨-, -, upTo, going⟩ := right
    have within := going.within
    have last := going.last
    have ranged : seq ∈ (first :: rest).filter (covered < ·) := inside
    rw [going.left, List.mem_range'_1] at ranged
    simp only at last ranged
    omega

/-- Nothing awaited is above the history. -/
theorem Agent.Right.awaits_le {s : Tabs} {agent : Agent} (right : agent.Right s) {seq : Nat}
    (inside : seq ∈ agent.awaits) : seq ≤ s.history.length := by
  cases agent with
  | out => cases inside
  | opening writer since r => exact right.2.awaits_le inside
  | opened log =>
    cases catching : log.catching with
    | none =>
      cases log
      cases catching
      cases inside
    | some pair =>
      obtain ⟨since, c⟩ := pair
      cases c with
      | replay r =>
        rw [awaits_opened catching] at inside
        exact Replay.Right.awaits_le (Log.Right.catching right since _ catching).2.2 inside
      | list =>
        cases log
        cases catching
        cases inside
      | logs rest batches =>
        cases log
        cases catching
        cases inside

/-! ### Runs -/

def Answer.Right (s : Tabs) (answer : Answer) : Prop :=
  answer.write.id < s.tried.length ∧
    (∃ log, s.agents answer.agent = .opened log ∧ log.writer = true ∧
      (answer.outcome = .ok → answer.seq < log.next)) ∧
    match answer.outcome with
    | .ok => 1 ≤ answer.seq ∧ s.history[answer.seq - 1]? = some answer.write
    | .found => answer.write.id ∉ s.history.map (·.id)
    | .passed early => answer.write.id ∈ s.history.map (·.id) ↔ early = true

namespace Tabs

structure Right (s : Tabs) : Prop where
  lake : s.lake.Holds s.history
  once : (s.history.map (·.id)).Nodup
  ids : ∀ w ∈ s.history, w.id < s.tried.length
  agents : ∀ a, (s.agents a).Right s
  answers : ∀ answer ∈ s.answers, answer.Right s

theorem Right.start : Tabs.start.Right where
  lake := ⟨(fun _ _ found => nomatch found), fun _ one none => absurd (one.trans none) (by decide),
    fun _ _ found => nomatch found⟩
  once := List.nodup_nil
  ids := fun _ none => nomatch none
  agents := fun _ => trivial
  answers := fun _ none => nomatch none

theorem Right.known {s : Tabs} (right : s.Right) (since : Nat) :
    Answered s since s.history.length := by
  intro answer inside ok
  obtain ⟨-, -, here⟩ := right.answers answer (List.mem_of_mem_take inside)
  rw [ok] at here
  have := (List.getElem?_eq_some_iff.mp here.2).1
  omega

theorem grows_same {s s' : Tabs} (lake : s'.lake = s.lake) (history : s'.history = s.history)
    (tried : s'.tried = s.tried) (answers : s.answers <+: s'.answers) : Grows s s' where
  history := history ▸ List.prefix_rfl
  fresh _ held := .inl (history ▸ held)
  tried := tried ▸ le_rfl
  answers := answers
  passed _ past := lake ▸ past

theorem grows_put {s t : Tabs} (grows : Grows s t) (a : Nat) (agent : Agent) :
    Grows s (t.put a agent) := ⟨grows.1, grows.2, grows.3, grows.4, grows.5⟩

/-- A step of one of them. -/
theorem Right.of {s t : Tabs} (right : s.Right) (a : Nat) (agent : Agent)
    (agents : t.agents = s.agents) (grows : Grows s t) (lake : t.lake.Holds t.history)
    (once : (t.history.map (·.id)).Nodup) (ids : ∀ w ∈ t.history, w.id < t.tried.length)
    (same : ∀ b, ∀ seq ∈ (s.agents b).awaits, ∀ write,
      t.lake.logs.lookup seq = some write → s.lake.logs.lookup seq = some write)
    (here : agent.Right t)
    (kept : ∀ log, s.agents a = .opened log → ∃ log', agent = .opened log' ∧
      log'.writer = log.writer ∧ (log.writer = true → log.next ≤ log'.next))
    (answers : ∀ answer ∈ t.answers, answer ∈ s.answers ∨ answer.Right (t.put a agent)) :
    (t.put a agent).Right where
  lake := lake
  once := once
  ids := ids
  agents b := by
    by_cases now : b = a
    · simp only [now, Tabs.put, Function.update_self]
      exact here.mono (grows_same rfl rfl rfl List.prefix_rfl) fun _ _ _ found => found
    · have stays : (t.put a agent).agents b = s.agents b := by
        simp only [Tabs.put, Function.update_of_ne now, agents]
      rw [stays]
      exact (right.agents b).mono (grows_put grows a agent) (same b)
  answers answer inside := by
    rcases answers answer inside with old | new
    · obtain ⟨id, ⟨log, opened, writer, next⟩, outcome⟩ := right.answers answer old
      refine ⟨id.trans_le grows.tried, ?_, ?_⟩
      · by_cases now : answer.agent = a
        · obtain ⟨log', put, eq, le⟩ := kept log (now ▸ opened)
          refine ⟨log', ?_, eq ▸ writer, fun ok => (next ok).trans_le (le writer)⟩
          simp only [now, Tabs.put, Function.update_self]
          exact put
        · refine ⟨log, ?_, writer, next⟩
          simp only [Tabs.put, Function.update_of_ne now, agents]
          exact opened
      · have stays : answer.write.id ∈ t.history.map (·.id) ↔
            answer.write.id ∈ s.history.map (·.id) := by
          refine ⟨fun inside => ?_, fun inside => ?_⟩
          · obtain ⟨w, held, eq⟩ := List.mem_map.mp inside
            rcases grows.fresh w held with old | new
            · exact List.mem_map.mpr ⟨w, old, eq⟩
            · omega
          · obtain ⟨w, held, eq⟩ := List.mem_map.mp inside
            exact List.mem_map.mpr ⟨w, grows.history.subset held, eq⟩
        split at outcome
        · exact ⟨outcome.1, getElem?_prefix grows.history outcome.2⟩
        · exact fun inside => outcome (stays.mp inside)
        · exact stays.trans outcome
    · exact new

variable {s : Tabs} {a : Nat}

/-- A step that leaves the lake as it is. -/
theorem Right.put (right : s.Right) (agent : Agent) (here : agent.Right s)
    (kept : ∀ log, s.agents a = .opened log → ∃ log', agent = .opened log' ∧
      log'.writer = log.writer ∧ (log.writer = true → log.next ≤ log'.next)) :
    (s.put a agent).Right :=
  right.of a agent rfl (grows_same rfl rfl rfl List.prefix_rfl) right.lake right.once right.ids
    (fun _ _ _ _ found => found) here kept fun _ inside => .inl inside

theorem kept_of {log : Log} (was : s.agents a = .opened log) (log' : Log)
    (writer : log'.writer = log.writer) (next : log.writer = true → log.next ≤ log'.next)
    (other : Log) (opened : s.agents a = .opened other) :
    ∃ log'', Agent.opened log' = .opened log'' ∧ log''.writer = other.writer ∧
      (other.writer = true → other.next ≤ log''.next) := by
  obtain rfl := Agent.opened.inj (was.symm.trans opened)
  exact ⟨log', rfl, writer, next⟩

theorem Right.putLog (right : s.Right) {log : Log} (was : s.agents a = .opened log) (log' : Log)
    (here : log'.Right s) (writer : log'.writer = log.writer)
    (next : log.writer = true → log.next ≤ log'.next) : (s.put a (.opened log')).Right :=
  right.put _ here (kept_of was log' writer next)

theorem Right.log (right : s.Right) {log : Log} (opened : s.agents a = .opened log) :
    log.Right s := by
  have here := right.agents a
  rw [opened] at here
  exact here

/-- A write's create of its log. -/
theorem Right.create (right : s.Right) {log : Log} (opened : s.agents a = .opened log)
    (writer : log.writer = true) (batch : Batch)
    (clear : s.lake.logs.lookup log.next = none → passed s.lake log.next = true →
      ∀ b, log.next ∉ (s.agents b).awaits) : (s.create a log batch).Right := by
  have now := right.log opened
  unfold Tabs.create
  simp only
  have new : s.tried.length ∉ s.history.map (·.id) := fun inside => by
    obtain ⟨w, held, eq⟩ := List.mem_map.mp inside
    have := right.ids w held
    omega
  have more : s.tried.length < (s.tried ++ [(⟨s.tried.length, batch⟩ : Write)]).length := by simp
  cases found : s.lake.logs.lookup log.next with
  | some other =>
    let t : Tabs := { s with
      tried := s.tried ++ [⟨s.tried.length, batch⟩]
      answers := s.answers ++ [⟨a, log.next, ⟨s.tried.length, batch⟩, .found⟩] }
    have grows : Grows s t := ⟨List.prefix_rfl, fun _ held => .inl held, more.le,
      List.prefix_append _ _, fun _ past => past⟩
    have eq : t.put a (.opened log) = t := by
      rw [Tabs.put, ← opened]
      show { t with agents := Function.update s.agents a (s.agents a) } = t
      rw [Function.update_eq_self]
    show t.Right
    rw [← eq]
    refine right.of (t := t) a (.opened log) rfl grows right.lake right.once
      (fun w held => (right.ids w held).trans more) (fun _ _ _ _ found => found)
      (Log.Right.mono now grows fun _ _ _ _ _ _ found => found)
      (kept_of opened log rfl fun _ => le_rfl) fun answer inside => ?_
    rcases List.mem_append.mp inside with old | last
    · exact .inl old
    · obtain rfl := List.mem_singleton.mp last
      exact .inr ⟨more, ⟨log, by rw [eq]; exact opened, writer, fun ok => nomatch ok⟩, new⟩
  | none =>
    have holds := right.lake.create log.next ⟨s.tried.length, batch⟩ now.next.1
      (by have := now.next.2; omega) found
    have same : ∀ (b : Nat) (clear : log.next ∉ (s.agents b).awaits), ∀ seq ∈ (s.agents b).awaits,
        ∀ write, (s.lake.logs.insert log.next ⟨s.tried.length, batch⟩).lookup seq = some write →
          s.lake.logs.lookup seq = some write := fun b clear seq inside write found' => by
      rw [lookup_insert_eq, if_neg fun eq : seq = log.next => clear (eq ▸ inside)] at found'
      exact found'
    cases past : passed s.lake log.next with
    | true =>
      rw [past, if_pos rfl] at holds
      let t : Tabs := { s with
        lake := { s.lake with logs := s.lake.logs.insert log.next ⟨s.tried.length, batch⟩ }
        tried := s.tried ++ [⟨s.tried.length, batch⟩] }
      have grows : Grows s t :=
        ⟨List.prefix_rfl, fun _ held => .inl held, more.le, List.prefix_rfl, fun _ was => was⟩
      have free := clear found past
      have kept := (right.agents a).mono grows (same a (free a))
      rw [opened] at kept
      refine right.of (t := t) a _ rfl grows holds right.once
        (fun w held => (right.ids w held).trans more) (fun b => same b (free b))
        ⟨kept.next, kept.keys, kept.since, fun w here => ?_, kept.folding, kept.catching⟩
        (kept_of opened _ rfl fun _ => le_rfl) fun answer inside => .inl inside
      obtain rfl := Option.some.inj here
      exact ⟨writer, rfl, more, past, new⟩
    | false =>
      rw [past, if_neg (by decide)] at holds
      obtain ⟨last, holds⟩ := holds
      let t : Tabs := { s with
        lake := { s.lake with logs := s.lake.logs.insert log.next ⟨s.tried.length, batch⟩ }
        tried := s.tried ++ [⟨s.tried.length, batch⟩]
        history := s.history ++ [⟨s.tried.length, batch⟩] }
      have grows : Grows s t := by
        refine ⟨List.prefix_append _ _, fun w held => ?_, more.le, List.prefix_rfl, fun _ was => was⟩
        rcases List.mem_append.mp held with old | new
        · exact .inl old
        · exact .inr (by rw [List.mem_singleton.mp new])
      have free : ∀ b, log.next ∉ (s.agents b).awaits := fun b inside => by
        have := (right.agents b).awaits_le inside
        omega
      have kept := (right.agents a).mono grows (same a (free a))
      rw [opened] at kept
      refine right.of (t := t) a _ rfl grows holds ?_ (fun w held => ?_) (fun b => same b (free b))
        ⟨kept.next, kept.keys, kept.since, fun w here => ?_, kept.folding, kept.catching⟩
        (kept_of opened _ rfl fun _ => le_rfl) fun answer inside => .inl inside
      · rw [List.map_append, List.nodup_append]
        refine ⟨right.once, List.nodup_singleton _, fun id old last new' eq => new ?_⟩
        rw [List.map_singleton, List.mem_singleton] at new'
        have same : id = s.tried.length := eq.trans new'
        exact same ▸ old
      · rcases List.mem_append.mp held with old | new
        · exact (right.ids w old).trans more
        · rw [List.mem_singleton.mp new]
          exact more
      · obtain rfl := Option.some.inj here
        refine ⟨writer, rfl, more, ?_⟩
        show (s.history ++ [_])[log.next - 1]? = some _
        rw [last, Nat.add_sub_cancel, List.getElem?_concat_length]

theorem mem_ids {history : List Write} {n : Nat} {write : Write}
    (here : history[n]? = some write) : write.id ∈ history.map (·.id) :=
  List.mem_map_of_mem (List.mem_of_getElem? here)

/-- A write's look for a snapshot past it, and its answer. -/
theorem Right.check (right : s.Right) {log : Log} (opened : s.agents a = .opened log) {w : Writing}
    (writing : log.writing = some w) : (s.check a log w).Right := by
  have now := right.log opened
  obtain ⟨writer, same, id, here⟩ := now.writing w writing
  have one : 1 ≤ w.seq := same ▸ now.next.1
  unfold Tabs.check
  have grows : ∀ outcome, Grows s { s with
      answers := s.answers ++ [⟨a, w.seq, w.write, outcome⟩] } := fun _ =>
    grows_same rfl rfl rfl (List.prefix_append _ _)
  have kept := fun outcome => Log.Right.mono now (grows outcome) fun _ _ _ _ _ _ found => found
  cases past : passed s.lake w.seq with
  | true =>
    refine right.of (t := { s with answers := s.answers ++ [⟨a, w.seq, w.write, .passed w.early⟩] })
      a _ rfl (grows _) right.lake right.once right.ids (fun _ _ _ _ found => found)
      ⟨(kept _).next, (kept _).keys, (kept _).since, (fun _ none => nomatch none),
        (kept _).folding, (kept _).catching⟩
      (kept_of opened _ rfl fun _ => le_rfl) fun answer inside => ?_
    rcases List.mem_append.mp inside with old | last
    · exact .inl old
    · obtain rfl := List.mem_singleton.mp last
      refine .inr ⟨id, ⟨_, Function.update_self .., writer, fun ok => nomatch ok⟩, ?_⟩
      show w.write.id ∈ s.history.map (·.id) ↔ w.early = true
      split at here
      · rename_i early
        exact ⟨fun _ => early, fun _ => mem_ids here⟩
      · rename_i late
        exact ⟨fun inside => absurd inside here.2, fun early => absurd early late⟩
  | false =>
    have early : s.history[w.seq - 1]? = some w.write := by
      split at here
      · exact here
      · exact absurd here.1 (by rw [past]; decide)
    have within := (List.getElem?_eq_some_iff.mp early).1
    have keys := shown_succ early
    rw [Nat.sub_add_cancel one] at keys
    refine right.of (t := { s with answers := s.answers ++ [⟨a, w.seq, w.write, .ok⟩] })
      a _ rfl (grows _) right.lake right.once right.ids (fun _ _ _ _ found => found)
      ⟨⟨Nat.le_add_left 1 _, ?_⟩, ?_, ⟨(kept .ok).since.1, fun answer inside ok => ?_⟩,
        (fun _ none => nomatch none), (kept .ok).folding, fun since c catching => ?_⟩
      (kept_of opened _ rfl fun _ => ?_) fun answer inside => ?_
    · show w.seq + 1 - 1 ≤ s.history.length
      omega
    · show apply log.keys w.write.batch = shown s.history (w.seq + 1 - 1)
      rw [now.keys, Nat.add_sub_cancel, keys, same]
    · have below := (kept .ok).since.2 answer inside ok
      show answer.seq ≤ w.seq + 1 - 1
      omega
    · exact absurd ((now.catching since c catching).1) (by rw [writer]; decide)
    · show log.next ≤ w.seq + 1
      omega
    · rcases List.mem_append.mp inside with old | last
      · exact .inl old
      · obtain rfl := List.mem_singleton.mp last
        exact .inr ⟨id, ⟨_, Function.update_self .., writer, fun _ => Nat.lt_succ_self _⟩, one, early⟩

theorem Right.checkpoint (right : s.Right) (floor : Nat) {log : Log}
    (opened : s.agents a = .opened log) : (s.checkpoint floor a log).Right := by
  have now := right.log opened
  unfold Tabs.checkpoint
  split
  · refine right.putLog opened _ ⟨now.next, now.keys, now.since, now.writing, fun f here => ?_,
      now.catching⟩ rfl fun _ => le_rfl
    obtain rfl := Option.some.inj here
    exact ⟨now.next.2, now.keys, trivial⟩
  · exact right

/-- The log with its checkpoint further on. -/
theorem folded {t : Tabs} {log : Log} (kept : log.Right t) {f : Folding} (stage : Stage)
    (here : f.covered ≤ t.history.length ∧ f.keys = shown t.history f.covered)
    (right : stage.Right t f.covered) :
    Log.Right t { log with folding := some { f with stage } } := by
  refine ⟨kept.next, kept.keys, kept.since, kept.writing, fun g same => ?_, kept.catching⟩
  obtain rfl := Option.some.inj same
  exact ⟨here.1, here.2, right⟩

/-- One store call of a checkpoint. -/
theorem Right.fold (right : s.Right) {log : Log} (opened : s.agents a = .opened log) {f : Folding}
    (folding : log.folding = some f) : (s.fold a log f).Right := by
  have now := right.log opened
  obtain ⟨within, keys, stage⟩ := now.folding f folding
  have stays : ∀ stage : Stage, stage.Right s f.covered →
      (s.put a (.opened { log with folding := some { f with stage } })).Right := fun stage here =>
    right.putLog opened _ (folded now stage ⟨within, keys⟩ here) rfl fun _ => le_rfl
  -- a step that changes the lake: what is read above stays, and no log is created
  have moves : ∀ (lake : Lake) (stage : Stage), lake.Holds s.history →
      (∀ seq, passed s.lake seq = true → passed lake seq = true) →
      (∀ seq write, lake.logs.lookup seq = some write → s.lake.logs.lookup seq = some write) →
      stage.Right { s with lake := lake } f.covered →
      (({ s with lake := lake } : Tabs).put a
        (.opened { log with folding := some { f with stage } })).Right :=
    fun lake stage holds past same here => by
      have grows : Grows s { s with lake := lake } :=
        ⟨List.prefix_rfl, fun _ held => .inl held, le_rfl, List.prefix_rfl, past⟩
      exact right.of (t := { s with lake := lake }) a _ rfl grows holds right.once right.ids
        (fun _ seq _ write found => same seq write found)
        (folded (Log.Right.mono now grows fun _ _ _ seq _ write found => same seq write found) stage
          ⟨within, keys⟩ here)
        (kept_of opened _ rfl fun _ => le_rfl) fun _ inside => .inl inside
  unfold Tabs.fold
  cases here : f.stage with
  | put =>
    simp only
    cases found : s.lake.snapshots.lookup f.covered with
    | some other =>
      exact stays .check (passed_iff.mpr ⟨_, AList.lookup_isSome.mp (by rw [found]; rfl), le_rfl⟩)
    | none =>
      have holds := right.lake.putSnapshot f.covered within
      rw [← keys] at holds
      refine moves _ .check holds (fun seq past => ?_) (fun _ _ found => found) ?_
      · obtain ⟨c, held, le⟩ := passed_iff.mp past
        exact passed_iff.mpr ⟨c, AList.mem_insert _ |>.mpr (.inr held), le⟩
      · exact passed_iff.mpr ⟨f.covered, AList.mem_insert _ |>.mpr (.inl rfl), le_rfl⟩
  | check =>
    rw [here] at stage
    simp only
    split
    · exact right.putLog opened _ ⟨now.next, now.keys, now.since, now.writing,
        (fun _ none => nomatch none), now.catching⟩ rfl fun _ => le_rfl
    · exact stays .logs stage
  | logs =>
    rw [here] at stage
    exact stays _ ⟨stage, fun seq inside => of_decide_eq_true (List.mem_filter.mp inside).2⟩
  | deleteLogs rest =>
    rw [here] at stage
    obtain ⟨past, below⟩ := stage
    cases rest with
    | nil =>
      exact stays _ ⟨past, fun seq inside => of_decide_eq_true (List.mem_filter.mp inside).2⟩
    | cons seq rest =>
      refine moves _ (.deleteLogs rest)
        (right.lake.deleteLog seq (passed_mono (below seq List.mem_cons_self) past))
        (fun _ past => past) (fun other write found => ?_)
        ⟨past, fun other inside => below other (List.mem_cons_of_mem _ inside)⟩
      by_cases same : other = seq
      · rw [same, AList.lookup_erase] at found
        cases found
      · rw [AList.lookup_erase_ne same] at found
        exact found
  | deleteSnapshots rest =>
    rw [here] at stage
    obtain ⟨past, below⟩ := stage
    cases rest with
    | nil =>
      exact right.putLog opened _ ⟨now.next, now.keys, now.since, now.writing,
        (fun _ none => nomatch none), now.catching⟩ rfl fun _ => le_rfl
    | cons c rest =>
      have low := below c List.mem_cons_self
      exact moves _ (.deleteSnapshots rest) (right.lake.deleteSnapshot low past)
        (fun seq was => Lake.Holds.deleted_passed low past was) (fun _ _ found => found)
        ⟨Lake.Holds.deleted_passed low past past,
          fun other inside => below other (List.mem_cons_of_mem _ inside)⟩

/-- The log with its catch-up further on. -/
theorem caught {log : Log} (now : log.Right s) {since : Nat} {c : Catching}
    (here : log.writer = false ∧ since ≤ s.answers.length) (right : c.Right s since log.next) :
    Log.Right s { log with catching := some (since, c) } := by
  refine ⟨now.next, now.keys, now.since, now.writing, now.folding, fun other d same => ?_⟩
  obtain ⟨rfl, rfl⟩ := Prod.mk.inj (Option.some.inj same)
  exact ⟨here.1, here.2, right⟩

/-- A reader that has caught up. -/
theorem finished {log : Log} (now : log.Right s) (reader : log.writer = false) {since last : Nat}
    {keys : Keys} (within : since ≤ s.answers.length) (le : last ≤ s.history.length)
    (same : keys = shown s.history last) (answered : Answered s since last) :
    Log.Right s { log with keys := keys, next := last + 1, catching := none, since := since } where
  next := ⟨Nat.le_add_left 1 _, le⟩
  keys := same
  since := ⟨within, answered⟩
  writing w here := absurd (now.writing w here).1 (by rw [reader]; decide)
  folding := now.folding
  catching _ _ none := nomatch none

/-- One store call of a catch-up. -/
theorem Right.after (right : s.Right) {log : Log} (opened : s.agents a = .opened log) {since : Nat}
    {c : Catching} (catching : log.catching = some (since, c)) : (s.after a log since c).Right := by
  have now := right.log opened
  obtain ⟨reader, within, here⟩ := now.catching since c catching
  have known := right.known since
  have stays : ∀ c : Catching, c.Right s since log.next →
      (s.put a (.opened { log with catching := some (since, c) })).Right := fun c here =>
    right.putLog opened _ (caught now ⟨reader, within⟩ here) rfl fun _ => le_rfl
  have ends : ∀ (last : Nat) (keys : Keys), last ≤ s.history.length →
      keys = shown s.history last → Answered s since last →
      (s.put a (.opened { log with
        keys := keys, next := last + 1, catching := none, since := since })).Right :=
    fun last keys le same answered =>
      right.putLog opened _ (finished now reader within le same answered) rfl
        fun writer => absurd writer (by rw [reader]; decide)
  unfold Tabs.after
  cases c with
  | list =>
    refine stays _ ?_
    cases past : passed s.lake log.next with
    | true => exact .inl past
    | false =>
      have low := now.next
      have free : ∀ seq, log.next ≤ seq → passed s.lake seq ≠ true := fun seq above was => by
        rw [passed_mono above was] at past
        cases past
      have all : (list s.lake.logs).filter (log.next - 1 < ·) =
          List.range' (log.next - 1 + 1) (s.history.length - (log.next - 1)) := by
        refine eq_range' (list_sorted.filter _) _ _ fun seq => ?_
        simp only [List.mem_filter, decide_eq_true_eq]
        refine ⟨fun inside => ⟨inside.2, (right.lake.list_within inside.1).2⟩,
          fun ⟨above, le⟩ => ⟨?_, above⟩⟩
        exact (right.lake.listed (by omega) le).resolve_right (free seq (by omega))
      have long : ((list s.lake.logs).filter (log.next - 1 < ·)).length =
          s.history.length - (log.next - 1) := by rw [all, List.length_range']
      have upTo : log.next - 1 + 0 + (s.history.length - (log.next - 1)) = s.history.length := by
        omega
      refine .inr ⟨rfl, ?_, ?_, ?_⟩
      · rw [long, all, List.length_nil, Nat.sub_add_cancel low.1, Nat.add_zero]
      · rw [long, List.length_nil, upTo]
      · rw [long, List.length_nil, upTo]
        exact known
  | logs rest batches =>
    cases rest with
    | nil =>
      simp only
      split
      · exact stays _ trivial
      · rename_i free
        obtain ⟨same, -, le, answered⟩ := Or.resolve_left here free
        rw [List.length_nil, Nat.add_zero] at le answered
        have next : log.next + batches.length = log.next - 1 + batches.length + 1 := by
          have := now.next.1
          omega
        rw [next]
        refine ends _ _ le ?_ answered
        rw [shown_add, ← same, now.keys]
    | cons seq rest =>
      simp only
      split
      · exact stays _ trivial
      · rename_i follows
        cases found : s.lake.logs.lookup seq with
        | none => exact stays _ trivial
        | some write =>
          refine stays _ ?_
          by_cases past : passed s.lake log.next = true
          · exact .inl past
          · obtain ⟨same, left, le, answered⟩ := Or.resolve_left here past
            have low := now.next.1
            have index : seq - 1 = log.next - 1 + batches.length := by omega
            have read := right.lake.read found fun was => past (passed_mono (by omega) was)
            rw [index] at read
            simp only [List.length_cons, List.range'_succ] at left le answered
            have shift : log.next - 1 + (batches.length + 1) + rest.length =
                log.next - 1 + batches.length + (rest.length + 1) := by omega
            refine .inr ⟨?_, ?_, ?_, ?_⟩
            · rw [List.length_append, List.length_singleton, List.take_add_one, ← same,
                List.getElem?_drop, read]
              rfl
            · rw [List.length_append, List.length_singleton]
              exact (List.cons.inj left).2
            · rw [List.length_append, List.length_singleton, shift]
              exact le
            · rw [List.length_append, List.length_singleton, shift]
              exact answered
  | replay r =>
    have step := Replay.Right.step here right.lake known
    simp only
    cases eq : r.step s.lake with
    | inl r' =>
      rw [eq] at step
      exact stays _ step
    | inr state =>
      rw [eq] at step
      exact ends _ _ step.2.1 step.1 step.2.2

/-- Each step of a clear run keeps it. -/
theorem Right.next (right : s.Right) (floor : Nat) (act : Act) (clear : s.Clear act) :
    ((page floor).next s act).Right := by
  unfold page
  cases act with
  | «open» a writer =>
    cases here : s.agents a <;> simp only [here]
    · refine right.put _ ⟨le_rfl, trivial⟩ fun log opened => ?_
      rw [here] at opened
      cases opened
    · exact right
    · exact right
  | replay a =>
    cases here : s.agents a <;> simp only [here]
    · exact right
    · rename_i writer since r
      have agent := right.agents a
      rw [here] at agent
      obtain ⟨within, replay⟩ := agent
      have step := Replay.Right.step replay right.lake (right.known since)
      have none : ∀ log, s.agents a ≠ .opened log := fun log opened => by
        rw [here] at opened
        cases opened
      cases eq : r.step s.lake with
      | inl r' =>
        rw [eq] at step
        exact right.put _ ⟨within, step⟩ fun log opened => absurd opened (none log)
      | inr state =>
        rw [eq] at step
        refine right.put _ ⟨⟨Nat.le_add_left 1 _, step.2.1⟩, step.1, ⟨within, step.2.2⟩,
          (fun _ none => nomatch none), (fun _ none => nomatch none), fun _ _ none => nomatch none⟩
          fun log opened => absurd opened (none log)
    · exact right
  | create a batch =>
    cases here : s.agents a <;> simp only [here]
    · exact right
    · exact right
    · rename_i log
      split
      · rename_i may
        exact right.create here (Bool.and_eq_true_iff.mp may).1 batch (clear log here)
      · exact right
  | check a =>
    cases here : s.agents a <;> simp only [here]
    · exact right
    · exact right
    · rename_i log
      cases writing : log.writing <;> simp only
      · exact right
      · exact right.check here writing
  | dropWrite a =>
    cases here : s.agents a <;> simp only [here]
    · exact right
    · exact right
    · have now := right.log here
      exact right.putLog here _ ⟨now.next, now.keys, now.since, (fun _ none => nomatch none),
        now.folding, now.catching⟩ rfl fun _ => le_rfl
  | checkpoint a =>
    cases here : s.agents a <;> simp only [here]
    · exact right
    · exact right
    · split
      · exact right.checkpoint floor here
      · exact right
  | fold a =>
    cases here : s.agents a <;> simp only [here]
    · exact right
    · exact right
    · rename_i log
      cases folding : log.folding <;> simp only
      · exact right
      · exact right.fold here folding
  | dropFold a =>
    cases here : s.agents a <;> simp only [here]
    · exact right
    · exact right
    · have now := right.log here
      exact right.putLog here _ ⟨now.next, now.keys, now.since, now.writing,
        (fun _ none => nomatch none), now.catching⟩ rfl fun _ => le_rfl
  | catchUp a =>
    cases here : s.agents a <;> simp only [here]
    · exact right
    · exact right
    · split
      · rename_i may
        have reader := (Bool.and_eq_true_iff.mp may).1
        rw [Bool.not_eq_true'] at reader
        exact right.putLog here _ (caught (right.log here) (c := .list) ⟨reader, le_rfl⟩ trivial) rfl
          fun _ => le_rfl
      · exact right
  | after a =>
    cases here : s.agents a <;> simp only [here]
    · exact right
    · exact right
    · rename_i log
      cases catching : log.catching <;> simp only
      · exact right
      · exact right.after here catching
  | dropCatching a =>
    cases here : s.agents a <;> simp only [here]
    · exact right
    · exact right
    · have now := right.log here
      exact right.putLog here _ ⟨now.next, now.keys, now.since, now.writing, now.folding,
        fun _ _ none => nomatch none⟩ rfl fun _ => le_rfl

theorem Right.oneHistory (right : s.Right) : s.OneHistory where
  once := right.once
  ok answer inside ok := by
    obtain ⟨-, -, here⟩ := right.answers answer inside
    rw [ok] at here
    exact here
  fenced answer inside fenced := by
    obtain ⟨-, -, here⟩ := right.answers answer inside
    split at here
    · rename_i ok
      exact absurd ok fenced
    · rename_i found
      rw [found]
      exact ⟨fun held => absurd held here, fun passed => nomatch passed⟩
    · rename_i early passed
      rw [passed, here]
      exact ⟨fun early => early ▸ rfl, fun eq => Outcome.passed.inj eq⟩
  keys a log opened := by
    have now := right.log opened
    have low := now.next.1
    refine ⟨now.next.2, now.keys, fun answer inside ok => ?_, fun answer inside mine ok => ?_⟩
    · have := now.since.2 answer inside ok
      omega
    · obtain ⟨-, ⟨log', here, -, next⟩, -⟩ := right.answers answer inside
      obtain rfl := Agent.opened.inj (opened.symm.trans (mine ▸ here))
      exact next ok

end Tabs

/-! ### The history only grows -/

section grown

variable (s : Tabs) (a : Nat) (log : Log)

theorem create_history (batch : Batch) : s.history <+: (s.create a log batch).history := by
  unfold Tabs.create
  simp only
  split
  · exact List.prefix_rfl
  · simp only
    split
    · exact List.prefix_append _ _
    · exact List.prefix_rfl

theorem check_history (w : Writing) : (s.check a log w).history = s.history := by
  unfold Tabs.check
  split <;> rfl

theorem checkpoint_history (floor : Nat) : (s.checkpoint floor a log).history = s.history := by
  unfold Tabs.checkpoint
  split <;> rfl

theorem fold_history (f : Folding) : (s.fold a log f).history = s.history := by
  unfold Tabs.fold
  simp only
  split
  · split <;> rfl
  · split <;> rfl
  · rfl
  · rfl
  · rfl
  · rfl
  · rfl

theorem after_history (since : Nat) (c : Catching) :
    (s.after a log since c).history = s.history := by
  unfold Tabs.after
  simp only
  split
  · rfl
  · split
    · rfl
    · split <;> rfl
  · split <;> rfl
  · split <;> rfl

end grown

theorem next_history (floor : Nat) (s : Tabs) (act : Act) :
    s.history <+: ((page floor).next s act).history := by
  unfold page
  cases act with
  | create a batch =>
    simp only
    split
    · split
      · exact create_history s a _ batch
      · exact List.prefix_rfl
    · exact List.prefix_rfl
  | «open» a writer => simp only; split <;> exact List.prefix_rfl
  | replay a =>
    simp only
    split
    · split <;> exact List.prefix_rfl
    · exact List.prefix_rfl
  | check a =>
    simp only
    split
    · split
      · exact check_history s a _ _ ▸ List.prefix_rfl
      · exact List.prefix_rfl
    · exact List.prefix_rfl
  | checkpoint a =>
    simp only
    split
    · split
      · exact checkpoint_history s a _ floor ▸ List.prefix_rfl
      · exact List.prefix_rfl
    · exact List.prefix_rfl
  | fold a =>
    simp only
    split
    · split
      · exact fold_history s a _ _ ▸ List.prefix_rfl
      · exact List.prefix_rfl
    · exact List.prefix_rfl
  | after a =>
    simp only
    split
    · split
      · exact after_history s a _ _ _ ▸ List.prefix_rfl
      · exact List.prefix_rfl
    · exact List.prefix_rfl
  | catchUp a =>
    simp only
    split
    · split <;> exact List.prefix_rfl
    · exact List.prefix_rfl
  | dropWrite a => simp only; split <;> exact List.prefix_rfl
  | dropFold a => simp only; split <;> exact List.prefix_rfl
  | dropCatching a => simp only; split <;> exact List.prefix_rfl

theorem run_history (floor : Nat) (s : Tabs) (acts : List Act) :
    s.history <+: ((page floor).run s acts).history := by
  induction acts generalizing s with
  | nil => exact List.prefix_rfl
  | cons act rest ih => exact (next_history floor s act).trans (ih _)

/-- One history: in every clear run, at its end, and with each earlier one its prefix. -/
theorem run_oneHistory (floor : Nat) (acts : List Act)
    (legal : ((page floor).only Tabs.Clear).Legal .start acts) :
    ((page floor).run .start acts).OneHistory ∧
      ∀ before after, acts = before ++ after →
        ((page floor).run .start before).history <+: ((page floor).run .start acts).history := by
  refine ⟨?_, fun before after eq => ?_⟩
  · exact (((page floor).only Tabs.Clear).run_invariant Tabs.Right
      (fun _ act right allowed => right.next floor act allowed.2) .start acts .start
      legal).oneHistory
  · rw [eq, Machine.run_append]
    exact run_history floor _ after

def putOne (key : String) (value : UInt8) : Batch := ⟨[(key, [value])], []⟩

/-- A writer whose create finds a snapshot past it, its log deleted. -/
def fencedActs : List Act :=
  [.open 0 true, .replay 0, .replay 0, .open 1 true, .replay 1, .replay 1, .create 0 (putOne "a" 1),
    .check 0, .checkpoint 0, .fold 0, .fold 0, .fold 0, .fold 0, .create 1 (putOne "b" 2), .check 1]

theorem fencedActs_clear : ((page 0).only Tabs.Clear).Legal .start fencedActs := by
  refine ⟨⟨trivial, trivial⟩, ⟨trivial, trivial⟩, ⟨trivial, trivial⟩, ⟨trivial, trivial⟩,
    ⟨trivial, trivial⟩, ⟨trivial, trivial⟩, ⟨trivial, fun log opened _ past => ?_⟩,
    ⟨trivial, trivial⟩, ⟨trivial, trivial⟩, ⟨trivial, trivial⟩, ⟨trivial, trivial⟩,
    ⟨trivial, trivial⟩, ⟨trivial, trivial⟩, ⟨trivial, fun log opened _ _ b => ?_⟩,
    ⟨trivial, trivial⟩, trivial⟩
  · cases opened
    exact absurd past (by decide)
  · cases opened
    match b with
    | 0 => decide
    | 1 => decide
    | _ + 2 => exact List.not_mem_nil

theorem fencedActs_oneHistory :
    (((page 0).run .start fencedActs).answers.map (·.outcome)) = [.ok, .passed false] ∧
      ((page 0).run .start fencedActs).OneHistory ∧
        ∀ before after, fencedActs = before ++ after →
          ((page 0).run .start before).history <+: ((page 0).run .start fencedActs).history :=
  ⟨by decide, run_oneHistory 0 fencedActs fencedActs_clear⟩

/-! ### Runs that are not as one history -/

/-- A writer that another has got ahead of. -/
def aheadActs : List Act :=
  [.open 0 true, .replay 0, .replay 0, .open 1 true, .replay 1, .replay 1, .create 0 (putOne "a" 1),
    .check 0]

/-- A snapshot that covers a write before its check. -/
def overtakenActs : List Act :=
  [.open 0 true, .replay 0, .replay 0, .create 0 (putOne "a" 1), .open 1 true, .replay 1, .replay 1,
    .replay 1, .checkpoint 1, .fold 1, .check 0]

/-- A log that is deleted and created again between a replay's list and its read. -/
def replacedActs : List Act :=
  [.open 0 true, .replay 0, .replay 0, .create 0 (putOne "a" 1), .check 0,
    .open 1 true, .replay 1, .replay 1, .replay 1, .create 0 (putOne "b" 2), .check 0,
    .open 2 false, .replay 2, .replay 2, .replay 2,
    .checkpoint 0, .fold 0, .fold 0, .fold 0, .fold 0, .fold 0,
    .create 1 (putOne "c" 3), .replay 2, .check 1]

/-- A sequence of writes tried, each answered Ok in it once and none answered fenced, of which every
open catalog shows a prefix: a writer's own reads with all answered, a reader's with all answered
before its open or catch-up began. -/
def Tabs.Sequence (s : Tabs) (history : List Write) : Prop :=
  (∀ w ∈ history, w ∈ s.tried) ∧ (history.map (·.id)).Nodup ∧
    (∀ answer ∈ s.answers, answer.outcome = .ok → answer.write ∈ history) ∧
    (∀ answer ∈ s.answers, answer.outcome ≠ .ok → answer.write ∉ history) ∧
    ∀ a log, s.agents a = .opened log → ∃ n, log.keys = shown history n ∧
      ∀ answer ∈ s.answers, log.writer = true ∨ answer ∈ s.answers.take log.since →
        answer.outcome = .ok → answer.write ∈ history.take n

theorem apply_none {keys : Keys} {batch : Batch} {key : String} (before : keys.lookup key = none)
    (absent : key ∉ batch.puts.map (·.1)) : (apply keys batch).lookup key = none := by
  have puts : ∀ (puts : List (String × List UInt8)) (keys : Keys), keys.lookup key = none →
      key ∉ puts.map (·.1) →
      (puts.foldl (fun keys put => keys.insert put.1 put.2) keys).lookup key = none := by
    intro puts
    induction puts with
    | nil => exact fun _ before _ => before
    | cons put rest ih =>
      intro keys before absent
      rw [List.map_cons, List.mem_cons, not_or] at absent
      refine ih _ ?_ absent.2
      rw [lookup_insert_eq, if_neg absent.1]
      exact before
  rw [apply, lookup_without]
  split
  · rfl
  · exact puts batch.puts keys before absent

/-- A key that no batch of a history puts is not shown. -/
theorem shown_none {history : List Write} {key : String}
    (absent : ∀ w ∈ history, key ∉ w.batch.puts.map (·.1)) (n : Nat) :
    (shown history n).lookup key = none := by
  have fold : ∀ (l : List Write) (keys : Keys), keys.lookup key = none →
      (∀ w ∈ l, key ∉ w.batch.puts.map (·.1)) →
      (l.foldl (fun keys write => apply keys write.batch) keys).lookup key = none := by
    intro l
    induction l with
    | nil => exact fun _ before _ => before
    | cons w rest ih =>
      intro keys before absent
      exact ih _ (apply_none before (absent w List.mem_cons_self))
        fun other inside => absent other (List.mem_cons_of_mem _ inside)
  exact fold _ ∅ rfl fun w inside => absent w (List.mem_of_mem_take inside)

/-- Without the conditions: a writer's own reads show a prefix without another's answered write, a write
is answered fenced and shown, and a replay reads a fenced write's batch. -/
theorem histories_parted :
    (¬ ∃ history, ((page 0).run .start aheadActs).Sequence history) ∧
      (¬ ∃ history, ((page 0).run .start overtakenActs).Sequence history) ∧
      ¬ ∃ history, ((page 0).run .start replacedActs).Sequence history := by
  refine ⟨?_, ?_, ?_⟩
  · rintro ⟨history, tried, -, -, -, keys⟩
    obtain ⟨n, shown', all⟩ := keys 1 _ rfl
    have inside := all _ List.mem_cons_self (.inl rfl) rfl
    obtain ⟨init, last, eq⟩ :=
      (List.eq_nil_or_concat' (history.take n)).resolve_left (List.ne_nil_of_mem inside)
    have of : last ∈ history := List.mem_of_mem_take (eq ▸ List.mem_append_right _ List.mem_cons_self)
    obtain rfl := List.mem_singleton.mp (tried last of)
    rw [shown, eq, List.foldl_append] at shown'
    have here := congrArg (AList.lookup "a") shown'
    rw [List.foldl_cons, List.foldl_nil, apply, putOne, without, List.foldl_nil, List.foldl_cons,
      List.foldl_nil, AList.lookup_insert] at here
    exact absurd here (by decide)
  · rintro ⟨history, tried, -, -, fenced, keys⟩
    obtain ⟨n, shown', -⟩ := keys 1 _ rfl
    have free : ∀ w ∈ history, "a" ∉ w.batch.puts.map (·.1) := fun w inside => by
      obtain rfl := List.mem_singleton.mp (tried w inside)
      exact absurd inside (fenced _ List.mem_cons_self (by decide))
    have none := shown_none free n
    rw [← shown'] at none
    exact absurd none (by decide)
  · rintro ⟨history, tried, -, -, fenced, keys⟩
    obtain ⟨n, shown', -⟩ := keys 2 _ rfl
    have free : ∀ w ∈ history, "c" ∉ w.batch.puts.map (·.1) := fun w inside => by
      have which := tried w inside
      rcases List.mem_cons.mp which with rfl | which
      · decide
      · rcases List.mem_cons.mp which with rfl | which
        · decide
        · obtain rfl := List.mem_singleton.mp which
          exact absurd inside (fenced _ (List.mem_cons_of_mem _ (List.mem_cons_of_mem _
            List.mem_cons_self)) (by decide))
    have none := shown_none free n
    rw [← shown'] at none
    exact absurd none (by decide)

end Pondra.Page
