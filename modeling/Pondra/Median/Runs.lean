import Mathlib.Algebra.BigOperators.Group.List.Basic
import Pondra.Median.Chunked

set_option autoImplicit false

/-! ### Every answer is the median of the values given -/

namespace Pondra.Median

open Machines

variable (grow : Nat → Nat) (t : Native)

theorem sum_set (l : List Nat) (i a b : Nat) (is : l[i]? = some b) : (l.set i a).sum + b = l.sum + a := by
  induction l generalizing i with
  | nil => cases is
  | cons c rest ih =>
    cases i with
    | zero =>
      obtain rfl : c = b := Option.some.inj is
      rw [List.set_cons_zero, List.sum_cons, List.sum_cons]
      omega
    | succ i =>
      have later := ih i is
      rw [List.set_cons_succ, List.sum_cons, List.sum_cons]
      omega

/-! ### Accumulators that hold what their groups were given -/

/-- The bytes of groups' chunks. -/
def bytes (groups : List Group) : Nat := (groups.map (Group.bytes (size t))).sum

/-- The groups hold the values given to them, in whole chunks, and their bytes are counted. -/
structure Chunked.Holding (c : Chunked) (given : List (List Int)) : Prop where
  whole : ∀ g ∈ c.groups, g.Whole
  held : c.held = bytes t c.groups
  values : c.groups.map Group.values = given

namespace Chunked.Holding

variable {t}

theorem start : Holding t Chunked.new [] :=
  ⟨fun _ inside => (List.not_mem_nil inside).elim, rfl, rfl⟩

theorem count {c : Chunked} {given : List (List Int)} (holds : Holding t c given) :
    c.groups.length = given.length := by
  rw [← holds.values, List.length_map]

/-- A group replaced by one that holds one value more. -/
theorem replaced {c : Chunked} {given : List (List Int)} (holds : Holding t c given) {group : Nat}
    {g g' : Group} (is : c.groups[group]? = some g) (whole : g'.Whole) {v : Int}
    (more : g'.values = g.values ++ [v]) {held : Nat}
    (counted : held + g.bytes (size t) = c.held + g'.bytes (size t)) :
    Holding t ⟨c.groups.set group g', held⟩ (given.modify group (· ++ [v])) := by
  constructor
  · intro other inside
    rcases List.mem_or_eq_of_mem_set inside with old | rfl
    · exact holds.whole other old
    · exact whole
  · have sums := sum_set (c.groups.map (Group.bytes (size t))) group (g'.bytes (size t)) (g.bytes (size t))
      (by rw [List.getElem?_map, is, Option.map_some])
    have before := holds.held
    unfold bytes at before ⊢
    rw [List.map_set]
    dsimp only
    omega
  · have was : given[group]? = some g.values := by
      rw [← holds.values, List.getElem?_map, is, Option.map_some]
    rw [List.map_set, holds.values, more, List.modify_eq_set, was, Option.getD_some]

/-- A value pushed joins its group's, and `held` is never below what a chunk had. -/
theorem push {c : Chunked} {given : List (List Int)} (holds : Holding t c given) {group : Nat}
    (listed : group < given.length) (v : Int) :
    ∃ c', c.push grow t group v = some c' ∧ Holding t c' (given.modify group (· ++ [v])) := by
  rw [← holds.count] at listed
  have is : c.groups[group]? = some c.groups[group] := List.getElem?_eq_getElem listed
  have member := List.getElem_mem listed
  have whole := holds.whole _ member
  generalize c.groups[group] = g at is member whole
  have within : g.bytes (size t) ≤ c.held := by
    have without := sum_set (c.groups.map (Group.bytes (size t))) group 0 (g.bytes (size t))
      (by rw [List.getElem?_map, is, Option.map_some])
    rw [holds.held, bytes]
    omega
  unfold Chunked.push
  rw [is]
  dsimp only
  split
  · rename_i none_
    obtain ⟨roomy, has⟩ := whole.room grow none_
    rw [if_pos (by omega)]
    refine ⟨_, rfl, holds.replaced is (roomy.put has v) ?_ ?_⟩
    · rw [Group.put_values, Group.room_values]
    · rw [Group.put_bytes]
      omega
  · rename_i some_
    have has : g.filling.length < g.capacity := Nat.lt_of_le_of_ne whole.within some_
    exact ⟨_, rfl, holds.replaced is (whole.put has v) (Group.put_values g v) (by rw [Group.put_bytes])⟩

theorem pushAll (pairs : List (Nat × Int)) {c : Chunked} {given : List (List Int)}
    (holds : Holding t c given) (listed : ∀ p ∈ pairs, p.1 < given.length) :
    ∃ c', c.pushAll grow t pairs = some c' ∧
      Holding t c' (pairs.foldl (fun groups p => groups.modify p.1 (· ++ [p.2])) given) := by
  induction pairs generalizing c given with
  | nil => exact ⟨c, rfl, holds⟩
  | cons p rest ih =>
    obtain ⟨group, v⟩ := p
    obtain ⟨c', pushed, holds'⟩ := holds.push grow (listed (group, v) List.mem_cons_self) v
    have rest_listed : ∀ p ∈ rest, p.1 < (given.modify group (· ++ [v])).length := by
      intro p inside
      rw [List.length_modify]
      exact listed p (List.mem_cons_of_mem _ inside)
    obtain ⟨c'', done, holds''⟩ := ih holds' rest_listed
    refine ⟨c'', ?_, holds''⟩
    rw [Chunked.pushAll, pushed, Option.bind_some, done]

theorem bytes_new (n : Nat) : bytes t (List.replicate n Group.new) = 0 := by
  unfold bytes
  rw [List.map_replicate, List.sum_replicate]
  have none_ : Group.new.bytes (size t) = 0 := by
    unfold Group.bytes Group.new
    simp only [List.length_nil, Nat.zero_mul, Nat.add_zero]
  rw [none_, nsmul_zero]

theorem resize {c : Chunked} {given : List (List Int)} (holds : Holding t c given) {total : Nat}
    (more : given.length ≤ total) :
    Holding t (c.resize total) (given ++ List.replicate (total - given.length) []) := by
  have count := holds.count
  unfold Chunked.resize
  rw [List.take_of_length_le (by omega), count]
  constructor
  · intro g inside
    rcases List.mem_append.mp inside with old | new
    · exact holds.whole g old
    · rw [List.eq_of_mem_replicate new]
      exact Group.whole_new
  · have none_ := bytes_new (t := t) (total - given.length)
    have before := holds.held
    unfold bytes at none_ before ⊢
    rw [List.map_append, List.sum_append, none_, Nat.add_zero]
    exact before
  · rw [List.map_append, holds.values, List.map_replicate]
    rfl

/-- Groups are emitted with their values, and those left keep theirs. -/
theorem emit {c : Chunked} {given : List (List Int)} (holds : Holding t c given) (to_ : EmitTo)
    (enough : ∀ n, to_ = .First n → n ≤ c.groups.length) :
    ∃ out rest, c.emit t to_ = some (out, rest) ∧ (∀ g ∈ out, g.Whole) ∧
      out.map Group.values = (Given.emitted given to_).1 ∧ Holding t rest (Given.emitted given to_).2 := by
  have before := holds.held
  unfold Chunked.emit Chunked.takeNeeded Given.emitted
  unfold bytes at before
  cases to_ with
  | All =>
    dsimp only
    rw [if_pos (Nat.le_of_eq before.symm)]
    refine ⟨_, _, rfl, holds.whole, holds.values,
      ⟨fun _ inside => (List.not_mem_nil inside).elim, ?_, rfl⟩⟩
    dsimp only
    rw [before, Nat.sub_self]
    rfl
  | First n =>
    have parts := List.take_append_drop n (c.groups.map (Group.bytes (size t)))
    rw [← parts, List.sum_append, ← List.map_take, ← List.map_drop] at before
    dsimp only
    rw [if_pos (enough n rfl)]
    dsimp only
    rw [if_pos (by omega)]
    refine ⟨_, _, rfl, ?_, ?_, ⟨?_, ?_, ?_⟩⟩
    · intro g inside
      exact holds.whole g (List.mem_of_mem_take inside)
    · rw [List.map_take, holds.values]
    · intro g inside
      exact holds.whole g (List.mem_of_mem_drop inside)
    · dsimp only
      unfold bytes
      omega
    · rw [List.map_drop, holds.values]

end Chunked.Holding

/-! ### What the calls do -/

/-- With no NULL and no filter, every row counts. -/
theorem pairs_rows (values : List (Option Int)) (groups : List Nat) (filter : Filter) :
    Chunked.pairs values groups filter = Given.rows values groups filter := by
  unfold Chunked.pairs Given.rows
  split
  · rename_i plain
    rw [Bool.and_eq_true] at plain
    obtain rfl := Option.isNone_iff_eq_none.mp plain.2
    have every : ∀ i, Chunked.keeps none i = true := fun i => rfl
    simp only [every, if_true]
    have unzipped := List.zipIdx_map_fst 0 (groups.zip values)
    generalize (groups.zip values).zipIdx = numbered at unzipped ⊢
    rw [← unzipped, List.filterMap_map]
    rfl
  · rfl

variable {t}

/-- The answers of groups emitted are their values' middles. -/
theorem answers_of {out : List Group} {given : List (List Int)} (whole : ∀ g ∈ out, g.Whole)
    (values : out.map Group.values = given) (typed : ∀ values ∈ given, ∀ v ∈ values, t.Holds v) :
    out.mapM (picked t) = some (given.map median) := by
  subst values
  induction out with
  | nil => rfl
  | cons g rest ih =>
    have first := picked_middle t (whole g List.mem_cons_self)
    have is := middle_median t g.values (typed g.values List.mem_cons_self)
    have others := ih (fun g inside => whole g (List.mem_cons_of_mem _ inside))
      fun values inside => typed values (List.mem_cons_of_mem _ inside)
    rw [List.mapM_cons, first, others, is]
    rfl

/-- Values given are of the type where those before were and what is given is. -/
theorem give_typed {given : List (List Int)} (total : Nat) (pairs : List (Nat × Int))
    (typed : ∀ values ∈ given, ∀ v ∈ values, t.Holds v) (fresh : ∀ p ∈ pairs, t.Holds p.2) :
    ∀ values ∈ Given.give total pairs given, ∀ v ∈ values, t.Holds v := by
  unfold Given.give
  have start : ∀ values ∈ given ++ List.replicate (total - given.length) [], ∀ v ∈ values, t.Holds v := by
    intro values inside v listed
    rcases List.mem_append.mp inside with old | new
    · exact typed values old v listed
    · rw [List.eq_of_mem_replicate new] at listed
      cases listed
  generalize given ++ List.replicate (total - given.length) [] = groups at start
  induction pairs generalizing groups with
  | nil => exact start
  | cons p rest ih =>
    apply ih fun q inside => fresh q (List.mem_cons_of_mem _ inside)
    intro values inside v listed
    obtain ⟨i, at_i⟩ := List.mem_iff_getElem?.mp inside
    rw [List.getElem?_modify] at at_i
    cases was : groups[i]? with
    | none =>
      rw [was] at at_i
      cases at_i
    | some old =>
      rw [was, Option.map_eq_map, Option.map_some] at at_i
      have before := start old (List.mem_of_getElem? was)
      split at at_i
      · obtain rfl := Option.some.inj at_i
        rcases List.mem_append.mp listed with earlier | new
        · exact before v earlier
        · rw [List.mem_singleton.mp new]
          exact fresh p List.mem_cons_self
      · obtain rfl := Option.some.inj at_i
        exact before v listed

/-! ### Runs -/

variable (t)

/-- The accumulators hold what was given, and have made its states and its answers. -/
structure Follows (s : State) (g : Given) : Prop where
  sound : s.panicked = false
  holds : ∀ acc, Chunked.Holding t (s.accs acc) (g.accs acc)
  states : s.states = g.states
  answers : s.answers = g.answers
  typed : ∀ acc, ∀ values ∈ g.accs acc, ∀ v ∈ values, t.Holds v
  stated : ∀ lists ∈ g.states, ∀ values, some values ∈ lists → ∀ v ∈ values, t.Holds v

theorem follows_new : Follows t State.new Given.new where
  sound := rfl
  holds _ := Chunked.Holding.start
  states := rfl
  answers := rfl
  typed _ _ inside := (List.not_mem_nil inside).elim
  stated _ inside := (List.not_mem_nil inside).elim

variable {t}

namespace Follows

/-- One accumulator's change. -/
theorem put {s : State} {g : Given} (follows : Follows t s g) (acc : Nat) {c : Chunked}
    {given : List (List Int)} (holds : Chunked.Holding t c given)
    (typed : ∀ values ∈ given, ∀ v ∈ values, t.Holds v) : Follows t (s.put acc c) (g.put acc given) where
  sound := follows.sound
  holds other := by
    by_cases same : other = acc
    · subst same
      simp only [State.put, Given.put, Function.update_self]
      exact holds
    · simp only [State.put, Given.put, Function.update_of_ne same]
      exact follows.holds other
  states := follows.states
  answers := follows.answers
  typed other := by
    by_cases same : other = acc
    · subst same
      simp only [Given.put, Function.update_self]
      exact typed
    · simp only [Given.put, Function.update_of_ne same]
      exact follows.typed other
  stated := follows.stated

/-- One more state. -/
theorem stating {s : State} {g : Given} (follows : Follows t s g) (lists : Lists)
    (typed : ∀ values, some values ∈ lists → ∀ v ∈ values, t.Holds v) :
    Follows t { s with states := s.states ++ [lists] } { g with states := g.states ++ [lists] } where
  sound := follows.sound
  holds := follows.holds
  states := congrArg (· ++ [lists]) follows.states
  answers := follows.answers
  typed := follows.typed
  stated := by
    intro other inside
    rcases List.mem_append.mp inside with old | new
    · exact follows.stated other old
    · rw [List.mem_singleton.mp new]
      exact typed

/-- Values given to groups below their number. -/
theorem giving {s : State} {g : Given} (follows : Follows t s g) (acc : Nat) {total : Nat}
    (pairs : List (Nat × Int)) (more : (s.accs acc).groups.length ≤ total)
    (listed : ∀ p ∈ pairs, p.1 < total) (typed : ∀ p ∈ pairs, t.Holds p.2) :
    ∃ c, ((s.accs acc).resize total).pushAll grow t pairs = some c ∧
      Follows t (s.put acc c) (g.put acc (Given.give total pairs (g.accs acc))) := by
  have holds := follows.holds acc
  rw [holds.count] at more
  have resized := holds.resize more
  obtain ⟨c, is, now⟩ := resized.pushAll grow pairs (by
    rw [List.length_append, List.length_replicate]
    intro p inside
    have below := listed p inside
    omega)
  exact ⟨c, is, follows.put acc now (give_typed total pairs (follows.typed acc) typed)⟩

theorem emitted_typed {given : List (List Int)} (typed : ∀ values ∈ given, ∀ v ∈ values, t.Holds v)
    (to_ : EmitTo) : (∀ values ∈ (Given.emitted given to_).1, ∀ v ∈ values, t.Holds v) ∧
      ∀ values ∈ (Given.emitted given to_).2, ∀ v ∈ values, t.Holds v := by
  cases to_ with
  | All => exact ⟨typed, fun _ inside => (List.not_mem_nil inside).elim⟩
  | First n =>
    exact ⟨fun values inside => typed values (List.mem_of_mem_take inside),
      fun values inside => typed values (List.mem_of_mem_drop inside)⟩

theorem next {s : State} {g : Given} (follows : Follows t s g) (op : Op t) (allows : State.Allows t s op) :
    Follows t (State.next grow t s op) (Given.next t g op) := by
  cases op with
  | update acc batch groups filter total =>
    obtain ⟨more, listed, _⟩ := allows
    have of_ : ∀ p ∈ Given.rows batch.values groups filter, p.1 < total ∧ t.Holds p.2 := by
      intro p inside
      obtain ⟨row, numbered, is⟩ := List.mem_filterMap.mp inside
      have zipped := List.of_mem_zip (List.fst_mem_of_mem_zipIdx numbered)
      split at is
      · obtain ⟨v, value, rfl⟩ := Option.map_eq_some_iff.mp is
        rw [value] at zipped
        exact ⟨listed _ zipped.1, batch.typed _ zipped.2 v rfl⟩
      · cases is
    obtain ⟨c, is, now⟩ := follows.giving grow acc (Given.rows batch.values groups filter) more
      (fun p inside => (of_ p inside).1) fun p inside => (of_ p inside).2
    unfold State.next Chunked.updateBatch
    dsimp only
    rw [pairs_rows, is]
    exact now
  | merge acc from_ groups total =>
    obtain ⟨more, listed, enough⟩ := allows
    rw [follows.states] at enough
    have of_ : ∀ p ∈ Chunked.merged (g.states.getD from_ []) groups, p.1 < total ∧ t.Holds p.2 := by
      intro p inside
      obtain ⟨row, zipped, value⟩ := List.mem_flatMap.mp inside
      obtain ⟨v, member, rfl⟩ := List.mem_map.mp value
      have parts := List.of_mem_zip zipped
      refine ⟨listed _ parts.1, ?_⟩
      cases is : row.2 with
      | none =>
        rw [is] at member
        cases member
      | some values =>
        rw [is] at member parts
        cases made : g.states[from_]? with
        | none =>
          rw [List.getD_eq_getElem?_getD, made] at parts
          cases parts.2
        | some lists =>
          rw [List.getD_eq_getElem?_getD, made] at parts
          exact follows.stated lists (List.mem_of_getElem? made) values parts.2 v member
    obtain ⟨c, is, now⟩ := follows.giving grow acc (Chunked.merged (g.states.getD from_ []) groups) more
      (fun p inside => (of_ p inside).1) fun p inside => (of_ p inside).2
    unfold State.next Chunked.mergeBatch
    dsimp only
    rw [follows.states, if_neg (by omega), is]
    exact now
  | state acc to_ =>
    obtain ⟨out, rest, is, whole, values, left⟩ := (follows.holds acc).emit to_ allows
    obtain ⟨emitted, kept⟩ := emitted_typed (follows.typed acc) to_
    have now := follows.put acc left kept
    have lengths : out.map Group.len = (Given.emitted (g.accs acc) to_).1.map List.length := by
      rw [← values, List.map_map]
      apply List.map_congr_left
      intro group inside
      exact (whole group inside).length_values.symm
    have lists : out.map (fun group => some group.values) = (Given.emitted (g.accs acc) to_).1.map some := by
      rw [← values, List.map_map]
      rfl
    unfold State.next Given.next Chunked.state
    dsimp only
    rw [is]
    dsimp only
    rw [lengths, lists]
    by_cases few : ((Given.emitted (g.accs acc) to_).1.map List.length).sum < 2 ^ 31
    · rw [if_pos few, if_pos few]
      apply now.stating
      intro values inside
      obtain ⟨_, member, same⟩ := List.mem_map.mp inside
      rw [← Option.some.inj same]
      exact emitted _ member
    · rw [if_neg few, if_neg few]
      exact now
  | convert batch filter =>
    apply follows.stating
    intro values inside v member
    obtain ⟨row, numbered, is⟩ := List.mem_map.mp inside
    have listed := List.fst_mem_of_mem_zipIdx numbered
    split at is
    · obtain ⟨w, value, rfl⟩ := Option.map_eq_some_iff.mp is
      rw [List.mem_singleton.mp member]
      rw [value] at listed
      exact batch.typed _ listed w rfl
    · cases is
  | evaluate acc to_ =>
    obtain ⟨out, rest, is, whole, values, left⟩ := (follows.holds acc).emit to_ allows
    obtain ⟨emitted, kept⟩ := emitted_typed (follows.typed acc) to_
    have now := follows.put acc left kept
    have answers := answers_of whole values emitted
    unfold State.next Given.next Chunked.evaluate
    dsimp only
    rw [is]
    dsimp only
    rw [answers]
    exact { now with answers := congrArg (· ++ [_]) follows.answers }

theorem run {s : State} {g : Given} (follows : Follows t s g) (ops : List (Op t))
    (legal : (accumulators grow t).Legal s ops) :
    Follows t ((accumulators grow t).run s ops) (g.run t ops) := by
  induction ops generalizing s g with
  | nil => exact follows
  | cons op rest ih =>
    exact ih (follows.next grow op legal.1) legal.2

end Follows

/-- After any calls a contract allows, each answer is the median of all the values given to its group,
each accumulator holds what its groups were given, in whole chunks, and counts the bytes of them; and
whatever values are drawn from a group of whole chunks, its middle is picked. -/
theorem medians_exact (data : DataType) (ops : List (Op data.native))
    (legal : (accumulators grow data.native).Legal State.new ops) :
    let s := (accumulators grow data.native).run State.new ops
    let g := Given.new.run data.native ops
    (s.panicked = false ∧ s.answers = g.answers ∧ s.states = g.states ∧
      ∀ acc, (s.accs acc).groups.map Group.values = g.accs acc ∧
        (s.accs acc).held = bytes data.native (s.accs acc).groups ∧ ∀ group ∈ (s.accs acc).groups, group.Whole) ∧
      ∀ group : Group, group.Whole → picked data.native group = some (middle data.native group.values) ∧
        ∀ sample, sample.length = sampled →
          pickedFrom data.native group sample = some (middle data.native group.values) := by
  intro s g
  have follows : Follows data.native s g := (follows_new data.native).run grow ops legal
  constructor
  · refine ⟨follows.sound, follows.answers, follows.states, fun acc => ?_⟩
    have holds := follows.holds acc
    exact ⟨holds.values, holds.held, holds.whole⟩
  · intro group whole
    refine ⟨picked_middle _ whole, fun sample drawn => ?_⟩
    exact pickedFrom_middle _ whole sample drawn

/-- Two accumulators' values, the first's state merged into the second, and the answer of both. -/
def twoRuns : List (Op DataType.Int8.native) :=
  [.update 0 ⟨[some 127, none, some 126], by decide +kernel⟩ [0, 0, 0] none 1,
    .update 1 ⟨[some 5, some 127, some 9], by decide +kernel⟩ [0, 1, 1]
      (some [some false, some true, none]) 2,
    .state 0 .All, .merge 1 0 [1] 2, .evaluate 1 (.First 1), .evaluate 1 .All]

theorem twoRuns_answers : ((accumulators (fun _ => 4) DataType.Int8.native).run State.new twoRuns).answers =
    [[none], [some 127]] := by
  have legal : (accumulators (fun _ => 4) DataType.Int8.native).Legal State.new twoRuns := by
    decide +kernel
  rw [(medians_exact (fun _ => 4) .Int8 twoRuns legal).1.2.1]
  decide +kernel

end Pondra.Median
