import Pondra.Sequences.Take

set_option autoImplicit false

/- The sequencer's copy of the counters: it alone moves them, in its commits. -/

namespace Pondra.Sequences

/-- What the sequencer is asked to do to the counters. -/
inductive Op where
  | take (name : String) (count : UInt64)
  | make (name : String) (declared : List Opt) (owned : Option String)
  | alter (name : String) (declared : List Opt) (restart : Option (Option Int64))
  | set (name : String) (value : Int64) (called : Bool)
  | rename (name : String) (to_ : String)
  | drop (name : String)

def Op.name : Op → String
  | take name _ | make name _ _ | alter name _ _ | set name _ _ | rename name _ | drop name => name

/-- An op's ack: a block's first value, how many and its step, and the commit. -/
structure Ack where
  seg : Nat := 0
  row : UInt64 := 0
  ms : UInt64 := 0
  block : UInt64 := 0

inductive Outcome where
  | acks (acks : List Ack)
  | refused (why : String)

/-- The sequences the catalog keeps, by name. -/
abbrev Catalog := String → Option Sequence

/-- The counters the sequencer has touched, and which this commit changed. -/
structure Held where
  known : String → Option (Option Sequence)
  touched : List String

namespace Held

def new : Held := ⟨fun _ => none, []⟩

variable (cat : Catalog) (held : Held)

/-- A sequence as the sequencer knows it, read from the catalog the first time. -/
def get (name : String) : Option Sequence := (held.known name).getD (cat name)

/-- The sequence's slot filled, without a mark that it changed. -/
def fill (name : String) (slot : Option Sequence) : Held :=
  { held with known := Function.update held.known name (some slot) }

def touch (name : String) : Held := { held with touched := held.touched.insert name }

/-- An op that changed its sequence: its ack. -/
def moved (name : String) (slot : Option Sequence) (version : Nat)
    (answer : Int64 × UInt64 × Int64) : Outcome × Held :=
  (.acks [{ seg := version, row := answer.2.1, ms := answer.2.2.toUInt64, block := answer.1.toUInt64 }],
    (held.fill name slot).touch name)

/-- One op carried out as commit `version`. -/
def apply (op : Op) (version : Nat) : Outcome × Held :=
  let held' := held.fill op.name (held.get cat op.name)
  let refused (why : String) : Outcome × Held := (.refused why, held')
  match op, held.get cat op.name with
  | .make name declared owned, _ =>
    match shape declared with
    | .ok sh => held'.moved name (some ⟨declared, sh.start, false, version, owned⟩) version (0, 0, 0)
    | .error why => refused why
  | op, none => refused s!"relation \"{op.name}\" does not exist"
  | .take name count, some s =>
    match take s name count with
    | (.ok block, s) => held'.moved name (some s) version block
    | (.error why, _) => refused why
  | .alter name declared restart, some s =>
    let all := s.declared ++ declared
    match shape all with
    | .ok sh =>
      let s := match restart with
        | some at_ => { s with last := at_.getD sh.start, called := false }
        | none => s
      held'.moved name (some { s with declared := all, version }) version (0, 0, 0)
    | .error why => refused why
  | .set name value called, some s =>
    match shape s.declared with
    | .error _ => refused s!"sequence {name}'s options don't hold"
    | .ok sh =>
      if sh.min ≤ value ∧ value ≤ sh.max then
        held'.moved name (some { s with last := value, called, version }) version (0, 0, 0)
      else refused
        s!"setval: value {value} is out of bounds for sequence \"{name}\" ({sh.min}..{sh.max})"
  | .rename name to_, some s =>
    (.acks [{}], (((held'.fill name none).touch name).fill to_ (some { s with version })).touch to_)
  | .drop name, some _ => held'.moved name none version (0, 0, 0)

/-- What a commit leaves in the catalog: the sequences it changed, without those it dropped. -/
def writes : Catalog × Held :=
  (fun name => if name ∈ held.touched then held.get cat name else cat name, { held with touched := [] })

end Held

/-- An op that leaves a sequence be, or takes values of it. -/
def Op.Quiet (name : String) : Op → Prop
  | .take _ _ => True
  | .rename from_ to_ => from_ ≠ name ∧ to_ ≠ name
  | op => op.name ≠ name

/-! ### What one op does -/

namespace Held

variable {cat : Catalog} {held : Held} {version : Nat}

@[simp] theorem get_fill (name other : String) (slot : Option Sequence) :
    (held.fill name slot).get cat other = if other = name then slot else held.get cat other := by
  unfold get fill
  by_cases same : other = name
  · rw [if_pos same, same]
    simp
  · rw [if_neg same]
    simp [Function.update_of_ne same]

@[simp] theorem get_touch (name other : String) :
    (held.touch name).get cat other = held.get cat other := rfl

@[simp] theorem touched_fill (name : String) (slot : Option Sequence) :
    (held.fill name slot).touched = held.touched := rfl

@[simp] theorem get_known (name other : String) :
    (held.fill name (held.get cat name)).get cat other = held.get cat other := by
  rw [get_fill]
  by_cases same : other = name
  · rw [if_pos same, same]
  · rw [if_neg same]

/-- The slot an op leaves its sequence in, and its answer. -/
def Fills (cat : Catalog) (held : Held) (op : Op) (slot : Option Sequence)
    (answer : Int64 × UInt64 × Int64) : Prop :=
  ∀ name count, op = .take name count →
    ∃ s left, held.get cat name = some s ∧ take s name count = (.ok answer, left) ∧ slot = some left

theorem apply_absent {op : Op} (absent : held.get cat op.name = none)
    (old : ∀ name declared owned, op ≠ .make name declared owned) :
    ∃ why, held.apply cat op version = (.refused why, held.fill op.name (held.get cat op.name)) := by
  refine ⟨s!"relation \"{op.name}\" does not exist", ?_⟩
  cases op with
  | make name declared owned => exact (old _ _ _ rfl).elim
  | take _ _ | alter _ _ _ | set _ _ _ | rename _ _ | drop _ => simp only [apply, absent]

/-- An op is refused, moves its own sequence, or renames one. -/
theorem apply_cases (op : Op) :
    (∃ why, held.apply cat op version = (.refused why, held.fill op.name (held.get cat op.name))) ∨
    (∃ slot answer, Fills cat held op slot answer ∧ held.apply cat op version =
      (held.fill op.name (held.get cat op.name)).moved op.name slot version answer) ∨
    (∃ from_ to_ s, op = .rename from_ to_ ∧ held.get cat from_ = some s ∧
      held.apply cat op version = (.acks [{}], (((((held.fill from_ (some s)).fill from_ none).touch
        from_).fill to_ (some { s with version })).touch to_))) := by
  cases op with
  | make name declared owned =>
    cases shaped : shape declared with
    | error why =>
      refine .inl ⟨why, ?_⟩
      simp only [apply, shaped]
    | ok sh =>
      exact .inr (.inl ⟨_, _, (by intro _ _ no; cases no), (by
        simp only [apply, shaped, Op.name]
        rfl)⟩)
  | take name count =>
    cases there : held.get cat name with
    | none => exact .inl (apply_absent there (by intro _ _ _ no; cases no))
    | some s =>
      rcases taken : take s name count with ⟨answer | answer, left⟩
      · refine .inl ⟨answer, ?_⟩
        simp only [apply, Op.name, there, taken]
      · refine .inr (.inl ⟨some left, answer, ?_, ?_⟩)
        · intro _ _ same
          cases same
          exact ⟨s, left, there, taken, rfl⟩
        · simp only [apply, Op.name, there, taken]
  | alter name declared restart =>
    cases there : held.get cat name with
    | none => exact .inl (apply_absent there (by intro _ _ _ no; cases no))
    | some s =>
      cases shaped : shape (s.declared ++ declared) with
      | error why =>
        refine .inl ⟨why, ?_⟩
        simp only [apply, Op.name, there, shaped]
      | ok sh =>
        exact .inr (.inl ⟨_, _, (by intro _ _ no; cases no), (by
          simp only [apply, Op.name, there, shaped]
          rfl)⟩)
  | set name value called =>
    cases there : held.get cat name with
    | none => exact .inl (apply_absent there (by intro _ _ _ no; cases no))
    | some s =>
      cases shaped : shape s.declared with
      | error why =>
        refine .inl ⟨s!"sequence {name}'s options don't hold", ?_⟩
        simp only [apply, Op.name, there, shaped]
      | ok sh =>
        by_cases inside : sh.min ≤ value ∧ value ≤ sh.max
        · exact .inr (.inl ⟨_, _, (by intro _ _ no; cases no), (by
            simp only [apply, Op.name, there, shaped, if_pos inside]
            rfl)⟩)
        · exact .inl ⟨_, (by
            simp only [apply, Op.name, there, shaped, if_neg inside]
            rfl)⟩
  | rename from_ to_ =>
    cases there : held.get cat from_ with
    | none => exact .inl (apply_absent there (by intro _ _ _ no; cases no))
    | some s =>
      refine .inr (.inr ⟨from_, to_, s, rfl, there, ?_⟩)
      simp only [apply, Op.name, there]
  | drop name =>
    cases there : held.get cat name with
    | none => exact .inl (apply_absent there (by intro _ _ _ no; cases no))
    | some s =>
      exact .inr (.inl ⟨_, _, (by intro _ _ no; cases no), (by
        simp only [apply, Op.name, there]
        rfl)⟩)

/-- What an op doesn't touch stays as it was. -/
theorem apply_untouched {op : Op} {name : String}
    (not : name ∉ (held.apply cat op version).2.touched) :
    (held.apply cat op version).2.get cat name = held.get cat name := by
  rcases @apply_cases cat held version op with
    ⟨why, is⟩ | ⟨slot, answer, _, is⟩ | ⟨from_, to_, s, _, there, is⟩
  · rw [is, get_known]
  · rw [is] at not ⊢
    have other : name ≠ op.name := by
      intro same
      exact not (same ▸ List.mem_insert_self)
    rw [moved, get_touch, get_fill, if_neg other, get_known]
  · rw [is] at not ⊢
    have first : name ≠ from_ := by
      intro same
      exact not (same ▸ List.mem_insert_of_mem List.mem_insert_self)
    have second : name ≠ to_ := by
      intro same
      exact not (same ▸ List.mem_insert_self)
    simp only [get_touch, get_fill, if_neg first, if_neg second]

/-- An op that is quiet about a sequence leaves it as it was, or takes a block of it. -/
theorem apply_quiet {op : Op} {name : String} (quiet : op.Quiet name) :
    (held.apply cat op version).2.get cat name = held.get cat name ∨
    ∃ count s answer left, op = .take name count ∧ held.get cat name = some s ∧
      take s name count = (.ok answer, left) ∧
      (held.apply cat op version).2.get cat name = some left := by
  rcases @apply_cases cat held version op with
    ⟨why, is⟩ | ⟨slot, answer, fills, is⟩ | ⟨from_, to_, s, rfl, there, is⟩
  · exact .inl (by rw [is, get_known])
  · by_cases same : name = op.name
    · cases op with
      | take other count =>
        obtain ⟨s, left, there, taken, rfl⟩ := fills other count rfl
        cases same
        refine .inr ⟨count, s, answer, left, rfl, there, taken, ?_⟩
        rw [is, moved, get_touch, get_fill]
        exact if_pos rfl
      | rename from_ to_ => exact (quiet.1 same.symm).elim
      | make _ _ _ | alter _ _ _ | set _ _ _ | drop _ => exact (quiet same.symm).elim
    · exact .inl (by rw [is, moved, get_touch, get_fill, if_neg same, get_known])
  · refine .inl ?_
    rw [is]
    simp only [get_touch, get_fill, if_neg (Ne.symm quiet.1), if_neg (Ne.symm quiet.2)]

theorem apply_take {s left : Sequence} {name : String} {count n : UInt64} {first step : Int64}
    (there : held.get cat name = some s) (taken : take s name count = (.ok (first, n, step), left)) :
    (held.apply cat (.take name count) version).1 =
      .acks [{ seg := version, row := n, ms := step.toUInt64, block := first.toUInt64 }] := by
  simp only [apply, Op.name, there, taken]
  rfl

theorem apply_take_refused {s : Sequence} {name why : String} {count : UInt64}
    (there : held.get cat name = some s) (refused : take s name count = (.error why, s)) :
    (held.apply cat (.take name count) version).1 = .refused why := by
  simp only [apply, Op.name, there, refused]

end Held

/-! ### One commit -/

/-- One op as a commit of its own: what it answers, and the catalog it leaves. -/
def commit (cat : Catalog) (held : Held) (op : Op) (version : Nat) : Outcome × Catalog × Held :=
  let (outcome, held) := held.apply cat op version
  (outcome, held.writes cat)

/-- Between commits the sequencer knows each sequence as the catalog has it. -/
structure Synced (cat : Catalog) (held : Held) : Prop where
  touched : held.touched = []
  known : ∀ name slot, held.known name = some slot → slot = cat name

namespace Synced

variable {cat : Catalog} {held : Held} (synced : Synced cat held)

theorem new : Synced cat .new := ⟨rfl, fun _ _ no => by cases no⟩

include synced

theorem get (name : String) : held.get cat name = cat name := by
  unfold Held.get
  cases there : held.known name with
  | none => rfl
  | some slot => exact synced.known name slot there

theorem catalog (op : Op) (version : Nat) (name : String) :
    (commit cat held op version).2.1 name = (held.apply cat op version).2.get cat name := by
  by_cases inside : name ∈ (held.apply cat op version).2.touched
  · simp only [Sequences.commit, Held.writes, if_pos inside]
  · simp only [Sequences.commit, Held.writes, if_neg inside]
    rw [Held.apply_untouched inside, synced.get]

theorem commit (op : Op) (version : Nat) :
    Synced (commit cat held op version).2.1 (commit cat held op version).2.2 where
  touched := rfl
  known name slot there := by
    rw [synced.catalog]
    have same : (held.apply cat op version).2.known name = some slot := there
    rw [Held.get, same]
    rfl

end Synced

end Pondra.Sequences
