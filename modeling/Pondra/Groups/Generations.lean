import Pondra.Groups.Group

set_option autoImplicit false

/-! ### The generations of a group -/

namespace Pondra.Groups

namespace Group

variable {ι : Type} [LinearOrder ι]

/-- What a generation's leader assigned a member last, nothing if it named it not. -/
def given (sent : List (Sent ι)) (generation : Int) (member : ι) : Blob :=
  ((sent.find? fun e => decide (e.generation = generation ∧ e.member = member)).map
    (·.assignment)).getD []

/-- What holds of the generations whatever the members do. -/
structure Past (g : Group ι) : Prop where
  falls : g.made.Pairwise fun later earlier => earlier.generation < later.generation
  newest : ∀ m ∈ g.made, m.generation ≤ g.generation
  low : 0 ≤ g.generation
  high : g.generation < 2 ^ 31
  common : ∀ m ∈ g.made, ∀ x ∈ m.members, m.protocol ∈ x.2
  sent : ∀ e ∈ g.sent, ∃ m ∈ g.made, m.generation = e.generation ∧ m.leader = e.leader
  waits : ∀ w ∈ g.syncs, w.2 ≤ g.generation ∧ ∀ e ∈ g.sent, e.generation ≠ w.2

/-- What holds of a group with members while no rebalance is on. -/
structure Settled (g : Group ι) : Prop where
  began : ∃ m, g.made.head? = some m ∧ m.generation = g.generation ∧ g.protocol = m.protocol ∧
    g.leader = some m.leader ∧ ∀ x ∈ g.members, x.id ∈ m.members.map (·.1)
  unsent : g.synced = false → ∀ e ∈ g.sent, e.generation ≠ g.generation
  given : g.synced = true → g.syncs = [] ∧
    ∀ m ∈ g.members, m.assignment = Group.given g.sent g.generation m.id
  waiting : ∀ w ∈ g.syncs, w.2 = g.generation → g.has w.1 = true

structure Inv (g : Group ι) : Prop where
  past : Past g
  joining : g.joining = true → g.synced = false
  settled : g.joining = false → g.members ≠ [] → Settled g

/-- An answer that is right by the generations and what their leaders assigned. -/
def Fair (made : List (Made ι)) (sent : List (Sent ι)) : Answer ι → Prop
  | .joined j => j.error = 0 → ∃ m ∈ made, m.generation = j.generation ∧ m.protocol = j.protocol ∧
      j.leader = some m.leader ∧ (j.member = j.leader → j.members.map (·.1) = m.members.map (·.1))
  | .synced generation member error assignment =>
    error = 0 → assignment = given sent generation member
  | .code _ => True

def Told (g : Group ι) : Prop := ∀ a ∈ g.out, Fair g.made g.sent a

/-! ### What a rebalance needs -/

/-- A rebalance that ends finds a protocol all who joined named, and a next generation. -/
def Meets (g : Group ι) (force : Bool) : Prop :=
  g.ends force = true → g.members.filter (·.joined) ≠ [] →
    g.generation + 1 < 2 ^ 31 ∧ ∃ p ∈ g.members.flatMap fun m => m.protocols.map (·.1),
      ∀ m ∈ g.members, m.joined = true → p ∈ m.protocols.map (·.1)

/-- The leader names each member that has an assignment of an earlier generation, and assigns
nothing to one whose sync of an earlier generation still waits. -/
def Names (g : Group ι) (member : ι) (assignments : List (ι × Blob)) : Prop :=
  (∀ m ∈ g.members, m.id ∈ assignments.map (·.1) ∨ m.assignment = []) ∧
    ∀ w ∈ g.syncs, w.2 = g.generation ∨ (g.assign member assignments).held w.1 = []

/-- A join that ends its rebalance. -/
def Joins (g : Group ι) (r : JoinGroup ι) (fresh : ι) (now : Nat) : Prop :=
  match r.member with
  | some id => g.has id = true → Meets (g.enter r id now) false
  | none => Meets (g.enter r fresh now) false

/-- The condition on a request, or a timer. -/
def Sure (g : Group ι) (now : Nat) : Ask ι → Prop
  | .join r fresh => Joins (g.expire now) r fresh now
  | .sync generation member assignments =>
    g.check member generation = 0 → some member = g.leader → g.synced = false →
      Names (g.touch member now) member assignments
  | .tick t => g.round = t.round → g.joining = true →
      Meets (g.lapse now) (decide (t.timeout < now - t.start))
  | _ => True

section decidable

variable (g : Group ι) (now : Nat)

instance (force : Bool) : Decidable (Meets g force) :=
  inferInstanceAs (Decidable (_ → _ → _ ∧ _))

instance (member : ι) (assignments : List (ι × Blob)) : Decidable (Names g member assignments) :=
  inferInstanceAs (Decidable (_ ∧ _))

instance (r : JoinGroup ι) (fresh : ι) : Decidable (Joins g r fresh now) :=
  match h : r.member with
  | some id => decidable_of_iff (g.has id = true → Meets (g.enter r id now) false) (by rw [Joins, h])
  | none => decidable_of_iff (Meets (g.enter r fresh now) false) (by rw [Joins, h])

instance (request : Ask ι) : Decidable (Sure g now request) :=
  match request with
  | .join r fresh => inferInstanceAs (Decidable (Joins (g.expire now) r fresh now))
  | .sync .. | .tick _ => inferInstanceAs (Decidable (_ → _ → _))
  | .heartbeat .. | .leave _ => .isTrue trivial

end decidable

/-! ### What a member's coming and going keeps -/

variable {g : Group ι}

omit [LinearOrder ι] in
theorem Past.same (past : Past g) (h : Group ι) (generation : h.generation = g.generation)
    (made : h.made = g.made) (sent : h.sent = g.sent) (syncs : h.syncs = g.syncs) : Past h := by
  obtain ⟨falls, newest, low, high, common, assigned, waits⟩ := past
  constructor <;> simp only [generation, made, sent, syncs] <;> assumption

theorem rebalance_inv (timeout now : Nat) (past : Past g) (on : g.joining = true → Inv g) :
    Inv (g.rebalance timeout now) := by
  unfold rebalance
  split
  · exact on ‹_›
  · exact ⟨past.same _ rfl rfl rfl rfl, fun _ => rfl, nofun⟩

omit [LinearOrder ι] in
theorem rebalance_out (timeout now : Nat) :
    (g.rebalance timeout now).out = g.out ∧ (g.rebalance timeout now).made = g.made ∧
      (g.rebalance timeout now).sent = g.sent := by
  unfold rebalance
  split <;> exact ⟨rfl, rfl, rfl⟩

omit [LinearOrder ι] in
theorem rebalance_joining (timeout now : Nat) : (g.rebalance timeout now).joining = true := by
  unfold rebalance
  split
  · assumption
  · rfl

theorem drop_inv (keep : Member ι → Bool) (now : Nat) (inv : Inv g) : Inv (g.drop keep now) := by
  unfold drop
  simp only
  have past : Past { g with members := g.members.filter keep } := inv.past.same _ rfl rfl rfl rfl
  split
  · apply rebalance_inv _ _ past
    intro on
    exact ⟨past, inv.joining, fun off => Bool.noConfusion (on.symm.trans off)⟩
  · rename_i whole
    refine ⟨past, inv.joining, fun off some => ?_⟩
    -- all were kept
    have same : g.members.filter keep = g.members := by
      apply (List.filter_sublist).eq_of_length
      have le := List.length_filter_le keep g.members
      have := not_and_or.mp whole
      cases this with
      | inl long => omega
      | inr none => exact absurd some none
    have settled := inv.settled off (same ▸ some)
    simp only [same]
    exact settled

omit [LinearOrder ι] in
theorem drop_out (keep : Member ι → Bool) (now : Nat) :
    (g.drop keep now).out = g.out ∧ (g.drop keep now).made = g.made ∧
      (g.drop keep now).sent = g.sent := by
  unfold drop
  simp only
  split
  · exact rebalance_out _ _
  · exact ⟨rfl, rfl, rfl⟩

theorem update_members (id : ι) (f : Member ι → Member ι) (m : Member ι)
    (inside : m ∈ (g.update id f).members) :
    ∃ old ∈ g.members, m = if old.id = id then f old else old := by
  obtain ⟨old, there, same⟩ := List.mem_map.mp inside
  exact ⟨old, there, same.symm⟩

theorem update_has (id other : ι) (f : Member ι → Member ι) (name : ∀ m, (f m).id = m.id) :
    (g.update id f).has other = g.has other := by
  unfold has update
  rw [List.any_map]
  congr 1
  funext m
  simp only [Function.comp_apply]
  split
  · rw [name]
  · rfl

/-- A change of a member that leaves its name and assignment. -/
theorem update_inv (id : ι) (f : Member ι → Member ι) (name : ∀ m, (f m).id = m.id)
    (assigned : ∀ m, (f m).assignment = m.assignment) (inv : Inv g) : Inv (g.update id f) := by
  refine ⟨inv.past.same _ rfl rfl rfl rfl, inv.joining, fun off some => ?_⟩
  have settled := inv.settled off fun none => some (by simp [update, none])
  have each (m : Member ι) (inside : m ∈ (g.update id f).members) :
      ∃ old ∈ g.members, m.id = old.id ∧ m.assignment = old.assignment := by
    obtain ⟨old, there, rfl⟩ := update_members id f m inside
    refine ⟨old, there, ?_⟩
    split
    · exact ⟨name old, assigned old⟩
    · exact ⟨rfl, rfl⟩
  constructor
  · obtain ⟨m, top, generation, protocol, leader, members⟩ := settled.began
    refine ⟨m, top, generation, protocol, leader, fun x inside => ?_⟩
    obtain ⟨old, there, same, _⟩ := each x inside
    exact same ▸ members old there
  · exact settled.unsent
  · intro on
    refine ⟨(settled.given on).1, fun m inside => ?_⟩
    obtain ⟨old, there, same, is⟩ := each m inside
    rw [is, same]
    exact (settled.given on).2 old there
  · intro w inside now
    rw [update_has id w.1 f name]
    exact settled.waiting w inside now

/-! ### A rebalance -/

theorem enter_spec (r : JoinGroup ι) (id : ι) (now : Nat) :
    (g.enter r id now).joining = true ∧ (g.enter r id now).out = g.out ∧
      (g.enter r id now).made = g.made ∧ (g.enter r id now).sent = g.sent ∧
        (g.enter r id now).generation = g.generation ∧ (g.enter r id now).syncs = g.syncs ∧
          ((g.joining = true → g.synced = false) → (g.enter r id now).synced = false) := by
  unfold enter rebalance update
  simp only
  cases was : g.joining with
  | true =>
    by_cases there : g.has id = true
    · simp [there, was]
    · simp [there]
  | false =>
    by_cases there : g.has id = true
    · simp [there, was]
    · simp [there]

theorem enter_inv (r : JoinGroup ι) (id : ι) (now : Nat) (inv : Inv g) :
    Inv (g.enter r id now) := by
  obtain ⟨joining, _, made, sent, generation, syncs, unsynced⟩ := enter_spec (g := g) r id now
  exact ⟨inv.past.same _ generation made sent syncs, fun _ => unsynced inv.joining, fun none =>
    Bool.noConfusion (joining.symm.trans none)⟩

theorem elect_mem (first : ι) (here : g.has first = true) : g.has (g.elect first) = true := by
  unfold elect
  split
  · split
    · assumption
    · exact here
  · exact here

/-- The protocol chosen is one that all named. -/
theorem choose_common (leads : ∃ m ∈ g.members, some m.id = g.leader) (p : String)
    (all : ∀ x ∈ g.members, p ∈ x.protocols.map (·.1)) :
    ∀ x ∈ g.members, g.choose ∈ x.protocols.map (·.1) := by
  have named (p : String) : g.common p = true ↔ ∀ x ∈ g.members, p ∈ x.protocols.map (·.1) := by
    unfold common
    simp only [List.all_eq_true, List.any_eq_true, decide_eq_true_eq, List.mem_map]
  unfold choose
  cases found : g.members.find? fun m => decide (some m.id = g.leader) with
  | none =>
    obtain ⟨m, inside, same⟩ := leads
    have := List.find?_eq_none.mp found m inside
    simp [same] at this
  | some m =>
    have inside := List.mem_of_find?_eq_some found
    rw [Option.bind_some]
    cases chosen : (m.protocols.map (·.1)).find? g.common with
    | none =>
      have := List.find?_eq_none.mp chosen p (all m inside)
      exact absurd ((named p).mpr all) this
    | some q => exact (named q).mp (List.find?_some chosen)

theorem wrap32_below (x : Int) (low : 0 ≤ x) (high : x < 2 ^ 31) : wrap32 x = x := by
  unfold wrap32
  apply Int.bmod_eq_of_le <;> omega

theorem has_iff (id : ι) : g.has id = true ↔ ∃ m ∈ g.members, m.id = id := by
  unfold has
  simp only [List.any_eq_true, decide_eq_true_eq]

/-- The group as its next generation chooses a protocol. -/
def elected (g : Group ι) (first : ι) : Group ι :=
  { g with leader := some (g.elect first), generation := wrap32 (g.generation + 1) }

/-- The generation that begins. -/
def beginning (g : Group ι) (first : ι) : Made ι :=
  ⟨wrap32 (g.generation + 1), (g.elected first).choose, g.elect first,
    g.members.map fun m => (m.id, m.protocols.map (·.1))⟩

theorem begins_made (first : ι) : (g.begins first).made = g.beginning first :: g.made := rfl

/-- The leader is told of all the members. -/
theorem welcome_all (member : ι) (leads : some member = g.leader) :
    (if some member = g.leader then g.all else []).map (·.1) = g.members.map (·.id) := by
  rw [if_pos leads, all, List.map_map]
  rfl

theorem begins_fair (first : ι) (member : ι) :
    Fair (g.beginning first :: g.made) g.sent
      ({ g.elected first with protocol := (g.elected first).choose }.welcome member) := by
  intro _
  refine ⟨g.beginning first, List.mem_cons_self, rfl, rfl, rfl, fun leads => ?_⟩
  refine (welcome_all (g := { g.elected first with protocol := (g.elected first).choose }) member
    leads).trans ?_
  unfold beginning
  rw [List.map_map]
  rfl

theorem begins_past (first : ι) (past : Past g) (next : g.generation + 1 < 2 ^ 31)
    (here : g.has first = true) (agreed : ∃ p, ∀ m ∈ g.members, p ∈ m.protocols.map (·.1)) :
    Past (g.begins first) := by
  have number : wrap32 (g.generation + 1) = g.generation + 1 := by
    have low := past.low
    apply wrap32_below <;> omega
  have now : (g.begins first).generation = g.generation + 1 := number
  have newer : (g.beginning first).generation = g.generation + 1 := number
  constructor
  · rw [begins_made, List.pairwise_cons]
    refine ⟨fun m inside => ?_, past.falls⟩
    have := past.newest m inside
    omega
  · rw [begins_made, now]
    intro m inside
    cases inside with
    | head => omega
    | tail _ old =>
      have := past.newest m old
      omega
  · have := past.low
    omega
  · omega
  · rw [begins_made]
    intro m inside x
    cases inside with
    | head =>
      intro of
      obtain ⟨p, all⟩ := agreed
      obtain ⟨y, there, rfl⟩ := List.mem_map.mp of
      obtain ⟨leader, within, same⟩ := (has_iff _).mp (elect_mem first here)
      exact choose_common (g := g.elected first) ⟨leader, within, congrArg some same⟩ p all y there
    | tail _ old => exact past.common m old x
  · rw [begins_made]
    intro e inside
    obtain ⟨m, old, same⟩ := past.sent e inside
    exact ⟨m, List.mem_cons_of_mem _ old, same⟩
  · intro w inside
    have waits := past.waits w inside
    exact ⟨by omega, waits.2⟩

theorem begins_inv (first : ι) (past : Past g) (next : g.generation + 1 < 2 ^ 31)
    (here : g.has first = true) (unsynced : g.synced = false)
    (agreed : ∃ p, ∀ m ∈ g.members, p ∈ m.protocols.map (·.1)) (told : Told g) :
    Inv (g.begins first) ∧ Told (g.begins first) := by
  have past' := begins_past first past next here agreed
  have number : (g.begins first).generation = g.generation + 1 := by
    have low := past.low
    apply wrap32_below <;> omega
  refine ⟨⟨past', fun _ => unsynced, fun _ _ => ⟨?_, ?_, ?_, ?_⟩⟩, ?_⟩
  · refine ⟨g.beginning first, rfl, rfl, rfl, rfl, fun x inside => ?_⟩
    exact List.mem_map.mpr ⟨_, List.mem_map_of_mem inside, rfl⟩
  · intro _ e inside same
    obtain ⟨m, old, is, _⟩ := past.sent e inside
    have := past.newest m old
    omega
  · intro on
    exact Bool.noConfusion (on.symm.trans unsynced)
  · intro w inside same
    have := (past.waits w inside).1
    omega
  · intro a inside
    cases List.mem_append.mp inside with
    | inl old =>
      have fair := told a old
      cases a with
      | joined j =>
        intro none
        obtain ⟨m, there, is⟩ := fair none
        exact ⟨m, List.mem_cons_of_mem _ there, is⟩
      | synced generation member error assignment => exact fair
      | code error => trivial
    | inr new =>
      obtain ⟨member, _, rfl⟩ := List.mem_map.mp new
      exact begins_fair first member

theorem complete_inv (force : Bool) (inv : Inv g) (meets : Meets g force) (told : Told g) :
    Inv (g.complete force) ∧ Told (g.complete force) := by
  unfold complete
  split
  · rename_i last
    have on : g.joining = true := (Bool.and_eq_true_iff.mp last).1
    have unsynced := inv.joining on
    have past : Past { g with members := g.members.filter (·.joined), joining := false } :=
      inv.past.same _ rfl rfl rfl rfl
    simp only
    split
    · rename_i none
      exact ⟨⟨past, fun off => Bool.noConfusion off, fun _ some => absurd none some⟩, told⟩
    · rename_i first rest here
      have some : g.members.filter (·.joined) ≠ [] := by
        rw [here]
        exact List.cons_ne_nil first rest
      obtain ⟨next, p, _, all⟩ := meets last some
      apply begins_inv first.id past next _ unsynced _ told
      · rw [has_iff]
        exact ⟨first, by rw [here]; exact List.mem_cons_self, rfl⟩
      · refine ⟨p, fun m inside => ?_⟩
        have kept := List.mem_filter.mp inside
        exact all m kept.1 kept.2
  · exact ⟨inv, told⟩

/-! ### The leader's assignments -/

/-- One of them. -/
def assignOne (g : Group ι) (leader : ι) (a : ι × Blob) : Group ι :=
  { g.update a.1 (fun m => { m with assignment := a.2 }) with
    sent := ⟨g.generation, leader, a.1, a.2⟩ :: g.sent }

theorem assign_cons (leader : ι) (a : ι × Blob) (rest : List (ι × Blob)) :
    g.assign leader (a :: rest) = (g.assignOne leader a).assign leader rest := rfl

/-- What assigning leaves. -/
theorem assign_spec (leader : ι) (assignments : List (ι × Blob)) :
    (g.assign leader assignments).made = g.made ∧
      (g.assign leader assignments).generation = g.generation ∧
        (g.assign leader assignments).syncs = g.syncs ∧
          (g.assign leader assignments).joining = g.joining ∧
            (g.assign leader assignments).protocol = g.protocol ∧
              (g.assign leader assignments).leader = g.leader ∧
                (g.assign leader assignments).out = g.out ∧
                  ∀ id, (g.assign leader assignments).has id = g.has id := by
  induction assignments generalizing g with
  | nil => exact ⟨rfl, rfl, rfl, rfl, rfl, rfl, rfl, fun _ => rfl⟩
  | cons a rest ih =>
    obtain ⟨made, generation, syncs, joining, protocol, leads, out, has⟩ :=
      ih (g := g.assignOne leader a)
    rw [assign_cons]
    refine ⟨made, generation, syncs, joining, protocol, leads, out, fun id => ?_⟩
    exact (has id).trans (update_has a.1 id _ fun _ => rfl)

theorem given_cons (e : Sent ι) (sent : List (Sent ι)) (generation : Int) (member : ι) :
    given (e :: sent) generation member =
      if e.generation = generation ∧ e.member = member then e.assignment
      else given sent generation member := by
  unfold given
  rw [List.find?_cons]
  by_cases same : e.generation = generation ∧ e.member = member
  · rw [if_pos same]
    simp [same]
  · rw [if_neg same]
    simp [same]

/-- Each member the leader named has what it assigned last; the others have what they had. -/
theorem assign_members (leader : ι) (assignments : List (ι × Blob)) (m : Member ι)
    (inside : m ∈ (g.assign leader assignments).members) :
    ∃ old ∈ g.members, m.id = old.id ∧
      (m.assignment = given (g.assign leader assignments).sent g.generation m.id ∨
        m.id ∉ assignments.map (·.1) ∧ m.assignment = old.assignment ∧
          given (g.assign leader assignments).sent g.generation m.id =
            given g.sent g.generation m.id) := by
  induction assignments generalizing g with
  | nil => exact ⟨m, inside, rfl, .inr ⟨List.not_mem_nil, rfl, rfl⟩⟩
  | cons a rest ih =>
    obtain ⟨one, there, name, is⟩ := ih (g := g.assignOne leader a) inside
    obtain ⟨old, within, rfl⟩ := update_members a.1 _ one there
    have same : m.id = old.id := by
      rw [name]
      split <;> rfl
    refine ⟨old, within, same, ?_⟩
    rw [assign_cons]
    cases is with
    | inl last => exact .inl last
    | inr left =>
      obtain ⟨unnamed, assigned, kept⟩ := left
      have now : given (g.assignOne leader a).sent g.generation m.id =
          if a.1 = m.id then a.2 else given g.sent g.generation m.id := by
        refine (given_cons _ _ _ _).trans ?_
        simp
      by_cases named : old.id = a.1
      · left
        rw [if_pos named] at assigned
        refine assigned.trans (.trans ?_ kept.symm)
        exact (now.trans (if_pos (same.trans named).symm)).symm
      · right
        have other : a.1 ≠ m.id := fun eq => named (same.symm.trans eq.symm)
        rw [if_neg named] at assigned
        refine ⟨?_, assigned, kept.trans (now.trans (if_neg other))⟩
        rw [List.map_cons, List.mem_cons, not_or]
        exact ⟨fun eq => other eq.symm, unnamed⟩

theorem assign_sent (leader : ι) (assignments : List (ι × Blob)) (e : Sent ι)
    (inside : e ∈ (g.assign leader assignments).sent) :
    e ∈ g.sent ∨ e.generation = g.generation ∧ e.leader = leader := by
  induction assignments generalizing g with
  | nil => exact .inl inside
  | cons a rest ih =>
    cases ih (g := g.assignOne leader a) inside with
    | inl old =>
      cases old with
      | head => exact .inr ⟨rfl, rfl⟩
      | tail _ older => exact .inl older
    | inr new => exact .inr new

/-! ### A sync -/

theorem given_none (sent : List (Sent ι)) (generation : Int) (member : ι)
    (none : ∀ e ∈ sent, e.generation ≠ generation) : given sent generation member = [] := by
  unfold given
  have : sent.find? (fun e => decide (e.generation = generation ∧ e.member = member)) = .none := by
    rw [List.find?_eq_none]
    intro e inside
    simp [none e inside]
  rw [this]
  rfl

theorem held_mem (id : ι) (here : g.has id = true) :
    ∃ m ∈ g.members, m.id = id ∧ g.held id = m.assignment := by
  unfold held
  cases found : g.members.find? fun m => decide (m.id = id) with
  | none =>
    obtain ⟨m, inside, same⟩ := (has_iff id).mp here
    have := List.find?_eq_none.mp found m inside
    simp [same] at this
  | some m =>
    exact ⟨m, List.mem_of_find?_eq_some found, by simpa using List.find?_some found, rfl⟩

theorem check_zero (member : ι) (generation : Int) (fine : g.check member generation = 0) :
    g.has member = true ∧ generation = g.generation ∧ g.joining = false := by
  unfold check at fine
  split at fine
  · cases fine
  · rename_i here
    split at fine
    · cases fine
    · rename_i same
      split at fine
      · cases fine
      · rename_i off
        exact ⟨by simpa using here, by simpa using same, by simpa using off⟩

theorem has_some (member : ι) (here : g.has member = true) : g.members ≠ [] := by
  intro none
  unfold has at here
  rw [none] at here
  cases here

/-- What the leader assigned is what its members hold, and what their waiting syncs are told. -/
theorem assign_inv (inv : Inv g) (member : ι) (assignments : List (ι × Blob))
    (here : g.has member = true) (off : g.joining = false) (leads : some member = g.leader)
    (names : g.synced = false → Names g member assignments) :
    Inv { g.assign member assignments with synced := true, syncs := [] } ∧
      ∀ w ∈ g.syncs, (g.assign member assignments).held w.1 =
        given (g.assign member assignments).sent w.2 w.1 := by
  obtain ⟨made, generation, _, joining, protocol, leader, _, has⟩ :=
    assign_spec (g := g) member assignments
  have settled := inv.settled off (has_some member here)
  obtain ⟨top, newest, number, chosen, first, members⟩ := settled.began
  have top_mem : top ∈ g.made := List.mem_of_mem_head? newest
  have led : top.leader = member := Option.some.inj (first.symm.trans leads.symm)
  have each : ∀ m ∈ (g.assign member assignments).members,
      m.assignment = given (g.assign member assignments).sent g.generation m.id := by
    intro m inside
    obtain ⟨old, there, same, is⟩ := assign_members member assignments m inside
    cases is with
    | inl last => exact last
    | inr left =>
      obtain ⟨unnamed, kept, before⟩ := left
      rw [before, kept]
      cases synced : g.synced with
      | true => exact same ▸ (settled.given synced).2 old there
      | false =>
        rw [given_none _ _ _ (settled.unsent synced)]
        exact ((names synced).1 old there).resolve_left (same ▸ unnamed)
  refine ⟨⟨?_, fun on => ?_, fun _ _ => ⟨?_, nofun, fun _ => ⟨rfl, ?_⟩, nofun⟩⟩, ?_⟩
  · have past := inv.past
    refine ⟨made ▸ past.falls, ?_, generation ▸ past.low, generation ▸ past.high,
      made ▸ past.common, ?_, nofun⟩
    · simp only [made, generation]
      exact past.newest
    · intro e inside
      simp only [made]
      cases assign_sent member assignments e inside with
      | inl old => exact past.sent e old
      | inr new => exact ⟨top, top_mem, number.trans new.1.symm, led.trans new.2.symm⟩
  · exact Bool.noConfusion (on.symm.trans (joining.trans off))
  · simp only [made, generation, protocol, leader]
    refine ⟨top, newest, number, chosen, first, fun x inside => ?_⟩
    obtain ⟨old, there, same, _⟩ := assign_members member assignments x inside
    exact same ▸ members old there
  · simp only [generation]
    exact each
  · intro w inside
    have unsynced : g.synced = false := by
      cases synced : g.synced with
      | false => rfl
      | true => rw [(settled.given synced).1] at inside; cases inside
    by_cases now : w.2 = g.generation
    · obtain ⟨m, there, name, held⟩ := held_mem (g := g.assign member assignments) w.1
        ((has w.1).trans (settled.waiting w inside now))
      rw [held, each m there, name, now]
    · rw [((names unsynced).2 w inside).resolve_left now]
      symm
      apply given_none
      intro e sent
      cases assign_sent member assignments e sent with
      | inl old => exact (inv.past.waits w inside).2 e old
      | inr new => exact fun same => now (same.symm.trans new.1)

theorem out_inv (out : List (Answer ι)) (inv : Inv g) : Inv { g with out := out } :=
  ⟨inv.past.same _ rfl rfl rfl rfl, inv.joining, fun off some =>
    have settled := inv.settled off some
    ⟨settled.began, settled.unsent, settled.given, settled.waiting⟩⟩

theorem answer_inv (a : Answer ι) (inv : Inv g) : Inv (g.answer a) := out_inv _ inv

theorem answer_told (a : Answer ι) (told : Told g) (fair : Fair g.made g.sent a) :
    Told (g.answer a) := by
  intro b inside
  cases List.mem_append.mp inside with
  | inl old => exact told b old
  | inr new => exact List.mem_singleton.mp new ▸ fair

theorem touch_inv (id : ι) (now : Nat) (inv : Inv g) : Inv (g.touch id now) :=
  update_inv id _ (fun _ => rfl) (fun _ => rfl) inv

/-- A member of a generation that has its assignments holds its own. -/
theorem held_given (inv : Inv g) (member : ι) (generation : Int)
    (fine : g.check member generation = 0) (synced : g.synced = true) :
    g.held member = given g.sent generation member := by
  obtain ⟨here, same, off⟩ := check_zero member generation fine
  obtain ⟨m, inside, name, held⟩ := held_mem member here
  rw [held, same, ← name]
  exact ((inv.settled off (has_some member here)).given synced).2 m inside

theorem touch_check (id member : ι) (now : Nat) (generation : Int) :
    (g.touch id now).check member generation = g.check member generation := by
  unfold check
  rw [show (g.touch id now).has member = g.has member from update_has id member _ fun _ => rfl]
  rfl

/-- A sync that must wait. -/
theorem wait_inv (inv : Inv g) (member : ι) (generation : Int)
    (fine : g.check member generation = 0) (unsynced : g.synced = false) :
    Inv { g with syncs := g.syncs ++ [(member, generation)] } := by
  obtain ⟨here, same, off⟩ := check_zero member generation fine
  have settled := inv.settled off (has_some member here)
  have past := inv.past
  refine ⟨⟨past.falls, past.newest, past.low, past.high, past.common, past.sent, ?_⟩, inv.joining,
    fun _ _ => ⟨settled.began, settled.unsent, fun on => Bool.noConfusion (on.symm.trans unsynced),
      ?_⟩⟩
  · intro w inside
    cases List.mem_append.mp inside with
    | inl old => exact past.waits w old
    | inr new =>
      rw [List.mem_singleton.mp new, same]
      exact ⟨le_refl _, settled.unsent unsynced⟩
  · intro w inside now
    cases List.mem_append.mp inside with
    | inl old => exact settled.waiting w old now
    | inr new =>
      rw [List.mem_singleton.mp new]
      exact here

theorem lead_inv (inv : Inv g) (none : g.out = []) (member : ι) (generation : Int)
    (assignments : List (ι × Blob)) (fine : g.check member generation = 0)
    (leads : some member = g.leader) (names : g.synced = false → Names g member assignments) :
    Inv (g.lead member assignments) ∧ Told (g.lead member assignments) ∧
      (g.lead member assignments).check member generation = 0 := by
  obtain ⟨here, same, off⟩ := check_zero member generation fine
  obtain ⟨assigned, waited⟩ := assign_inv inv member assignments here off leads names
  obtain ⟨_, number, syncs, joining, _, _, out, has⟩ := assign_spec (g := g) member assignments
  refine ⟨out_inv _ assigned, fun a inside => ?_, ?_⟩
  · cases List.mem_append.mp inside with
    | inl old =>
      have old : a ∈ (g.assign member assignments).out := old
      rw [out, none] at old
      cases old
    | inr new =>
      obtain ⟨w, waits, rfl⟩ := List.mem_map.mp new
      exact fun _ => waited w (syncs ▸ waits)
  · have again : (g.lead member assignments).check member generation =
        (g.assign member assignments).check member generation := rfl
    rw [again]
    unfold check
    rw [has member, here, number, same, joining, off]
    simp

theorem sync_inv (generation : Int) (member : ι) (assignments : List (ι × Blob)) (now : Nat)
    (inv : Inv g) (none : g.out = []) (sure : g.check member generation = 0 →
      some member = g.leader → g.synced = false →
        Names (g.touch member now) member assignments) :
    Inv (g.sync generation member assignments now) ∧
      Told (g.sync generation member assignments now) := by
  have told : Told g := by
    intro a inside
    rw [none] at inside
    cases inside
  unfold sync
  simp only
  split
  · rename_i refused
    exact ⟨answer_inv _ inv, answer_told _ told fun none => absurd none refused⟩
  · rename_i fine
    have fine : g.check member generation = 0 := not_not.mp fine
    have inv' := touch_inv (g := g) member now inv
    have fine' : (g.touch member now).check member generation = 0 :=
      (touch_check member member now generation).trans fine
    by_cases leads : some member = (g.touch member now).leader
    · rw [if_pos leads]
      obtain ⟨led, told', still⟩ := lead_inv inv' none member generation assignments fine' leads
        (sure fine leads)
      have synced : ((g.touch member now).lead member assignments).synced = true := rfl
      rw [if_pos synced]
      exact ⟨answer_inv _ led, answer_told _ told' fun _ =>
        held_given led member generation still synced⟩
    · rw [if_neg leads]
      split
      · rename_i synced
        exact ⟨answer_inv _ inv', answer_told _ told fun _ =>
          held_given inv' member generation fine' synced⟩
      · rename_i unsynced
        exact ⟨wait_inv inv' member generation fine' (by simpa using unsynced), told⟩

/-! ### Any request -/

theorem told_empty (empty : g.out = []) : Told g := by
  intro a inside
  rw [empty] at inside
  cases inside

theorem join_inv (r : JoinGroup ι) (fresh : ι) (now : Nat) (inv : Inv g) (empty : g.out = [])
    (sure : Joins (g.expire now) r fresh now) :
    Inv (g.join r fresh now) ∧ Told (g.join r fresh now) := by
  have inv' : Inv (g.expire now) := drop_inv _ now inv
  have out : (g.expire now).out = [] := (drop_out _ now).1.trans empty
  have entered (id : ι) : Told ((g.expire now).enter r id now) :=
    told_empty ((enter_spec r id now).2.1.trans out)
  unfold join
  unfold Joins at sure
  simp only
  split
  · rename_i id member
    rw [member] at sure
    split
    · rename_i here
      exact complete_inv false (enter_inv r id now inv') (sure here) (entered id)
    · exact ⟨answer_inv _ inv', answer_told _ (told_empty out) nofun⟩
  · rename_i member
    rw [member] at sure
    exact complete_inv false (enter_inv r fresh now inv') sure (entered fresh)

theorem tick_inv (t : Timer) (now : Nat) (inv : Inv g) (empty : g.out = [])
    (sure : g.round = t.round → g.joining = true →
      Meets (g.lapse now) (decide (t.timeout < now - t.start))) :
    Inv (g.tick t now) ∧ Told (g.tick t now) := by
  unfold tick
  split
  · rename_i on
    have lapsed : Inv (g.lapse now) := ⟨inv.past.same _ rfl rfl rfl rfl, inv.joining, fun off =>
      Bool.noConfusion (on.2.symm.trans off)⟩
    exact complete_inv _ lapsed (sure on.1 on.2) (told_empty empty)
  · exact ⟨⟨inv.past.same _ rfl rfl rfl rfl, inv.joining, fun off some =>
      have settled := inv.settled off some
      ⟨settled.began, settled.unsent, settled.given, settled.waiting⟩⟩, told_empty empty⟩

/-- A request that meets the condition is answered right. -/
theorem ask_inv (now : Nat) (request : Ask ι) (inv : Inv g) (empty : g.out = [])
    (sure : Sure g now request) : Inv (g.ask now request) ∧ Told (g.ask now request) := by
  cases request with
  | join r fresh => exact join_inv r fresh now inv empty sure
  | sync generation member assignments =>
    exact sync_inv generation member assignments now inv empty sure
  | heartbeat generation member =>
    have out : ((g.expire now).touch member now).out = [] := (drop_out _ now).1.trans empty
    exact ⟨answer_inv _ (touch_inv member now (drop_inv _ now inv)),
      answer_told _ (told_empty out) trivial⟩
  | leave leaving =>
    exact ⟨answer_inv _ (drop_inv _ now inv),
      answer_told _ (told_empty ((drop_out _ now).1.trans empty)) trivial⟩
  | tick t => exact tick_inv t now inv empty sure

/-! ### The generation never goes back -/

omit [LinearOrder ι] in
theorem drop_generation (keep : Member ι → Bool) (now : Nat) :
    (g.drop keep now).generation = g.generation := by
  unfold drop rebalance
  simp only
  split
  · split <;> rfl
  · rfl

theorem complete_grows (force : Bool) (past : Past g) (meets : Meets g force) :
    g.generation ≤ (g.complete force).generation := by
  unfold complete
  split
  · rename_i last
    simp only
    split
    · exact le_refl _
    · rename_i first rest here
      have some : g.members.filter (·.joined) ≠ [] := by
        rw [here]
        exact List.cons_ne_nil first rest
      have next := (meets last some).1
      have low := past.low
      show g.generation ≤ wrap32 (g.generation + 1)
      rw [wrap32_below (g.generation + 1) (by omega) next]
      omega
  · exact le_refl _

theorem sync_generation (number : Int) (id : ι) (assignments : List (ι × Blob)) (now : Nat) :
    (g.sync number id assignments now).generation = g.generation := by
  unfold sync
  simp only
  split
  · rfl
  · by_cases leads : some id = (g.touch id now).leader
    · rw [if_pos leads]
      have synced : ((g.touch id now).lead id assignments).synced = true := rfl
      rw [if_pos synced]
      exact (assign_spec (g := g.touch id now) id assignments).2.1
    · rw [if_neg leads]
      split <;> rfl

theorem join_grows (r : JoinGroup ι) (fresh : ι) (now : Nat) (inv : Inv g)
    (sure : Joins (g.expire now) r fresh now) : g.generation ≤ (g.join r fresh now).generation := by
  have expired : (g.expire now).generation = g.generation := drop_generation _ now
  have entered (id : ι) : g.generation ≤ ((g.expire now).enter r id now).generation := by
    rw [(enter_spec r id now).2.2.2.2.1, expired]
  have past (id : ι) : Past ((g.expire now).enter r id now) :=
    (enter_inv r id now (drop_inv _ now inv)).past
  unfold Joins at sure
  unfold join
  simp only
  split
  · rename_i id member
    rw [member] at sure
    split
    · rename_i here
      exact (entered id).trans (complete_grows false (past id) (sure here))
    · exact expired.ge
  · rename_i member
    rw [member] at sure
    exact (entered fresh).trans (complete_grows false (past fresh) sure)

theorem ask_grows (now : Nat) (request : Ask ι) (inv : Inv g) (sure : Sure g now request) :
    g.generation ≤ (g.ask now request).generation := by
  cases request with
  | join r fresh => exact join_grows r fresh now inv sure
  | sync number id assignments => exact (sync_generation number id assignments now).ge
  | heartbeat number id => exact (drop_generation (g := g) _ now).ge
  | leave leaving => exact (drop_generation (g := g) _ now).ge
  | tick t =>
    unfold ask tick
    simp only
    split
    · rename_i on
      exact complete_grows (g := g.lapse now) _ (inv.past.same _ rfl rfl rfl rfl) (sure on.1 on.2)
    · exact le_refl _

/-! ### No rebalance starts -/

/-- No member is silent, none leaves, and no join is let in. -/
def Calm (g : Group ι) (now : Nat) : Ask ι → Prop
  | .join r _ => (∀ m ∈ g.members, now - m.seen < m.session) ∧
      r.member.any (fun id => !g.has id) = true
  | .heartbeat _ _ => ∀ m ∈ g.members, now - m.seen < m.session
  | .leave leaving => ∀ m ∈ g.members, m.id ∉ leaving
  | _ => True

instance (g : Group ι) (now : Nat) (request : Ask ι) : Decidable (Calm g now request) :=
  match request with
  | .join .. => inferInstanceAs (Decidable (_ ∧ _))
  | .heartbeat .. | .leave _ => inferInstanceAs (Decidable (∀ m ∈ g.members, _))
  | .sync .. | .tick _ => .isTrue trivial

omit [LinearOrder ι] in
theorem drop_all (keep : Member ι → Bool) (now : Nat) (all : ∀ m ∈ g.members, keep m = true) :
    g.drop keep now = g := by
  unfold drop
  have same : g.members.filter keep = g.members := List.filter_eq_self.mpr all
  simp only [same]
  rw [if_neg fun less => Nat.lt_irrefl _ less.1]

theorem check_same (h : Group ι) (member : ι) (generation : Int)
    (has : h.has member = g.has member) (number : h.generation = g.generation)
    (joining : h.joining = g.joining) : h.check member generation = g.check member generation := by
  unfold check
  rw [has, number, joining]

theorem sync_check (number : Int) (id : ι) (assignments : List (ι × Blob)) (now : Nat) (member : ι)
    (generation : Int) :
    (g.sync number id assignments now).check member generation = g.check member generation := by
  have led := assign_spec (g := g.touch id now) id assignments
  obtain ⟨_, same, _, joining, _, _, _, has⟩ := led
  have touched : (g.touch id now).has member = g.has member := update_has id member _ fun _ => rfl
  unfold sync
  simp only
  split
  · rfl
  · by_cases leads : some id = (g.touch id now).leader
    · rw [if_pos leads]
      have synced : ((g.touch id now).lead id assignments).synced = true := rfl
      rw [if_pos synced]
      exact check_same _ member generation ((has member).trans touched) same joining
    · rw [if_neg leads]
      split
      · exact touch_check id member now generation
      · exact touch_check id member now generation

theorem calm_check (now : Nat) (request : Ask ι) (calm : Calm g now request) (member : ι)
    (generation : Int) (fine : g.check member generation = 0) :
    (g.ask now request).check member generation = 0 := by
  have awake (all : ∀ m ∈ g.members, now - m.seen < m.session) : g.expire now = g :=
    drop_all _ now fun m inside => decide_eq_true (all m inside)
  cases request with
  | join r fresh =>
    obtain ⟨all, gone⟩ := calm
    rw [Option.any_eq_true] at gone
    obtain ⟨id, named, gone⟩ := gone
    rw [Bool.not_eq_true'] at gone
    unfold ask join
    simp only [awake all, named, gone]
    exact fine
  | sync number id assignments => exact (sync_check number id assignments now member _).trans fine
  | heartbeat number id =>
    unfold ask heartbeat
    simp only [awake calm]
    exact (touch_check id member now generation).trans fine
  | leave leaving =>
    unfold ask leave
    simp only [drop_all (g := g) _ now fun m inside => decide_eq_true (calm m inside)]
    exact fine
  | tick t =>
    unfold ask tick
    simp only
    rw [if_neg fun on => Bool.noConfusion (on.2.symm.trans (check_zero member generation fine).2.2)]
    exact fine

end Group

end Pondra.Groups
