import Pondra.Groups.Coordinator
import Pondra.Groups.Generations

set_option autoImplicit false

/-! ### One assignment a generation, and the offsets taken -/

namespace Pondra.Groups

open Dicts Machines

variable {ι : Type} [LinearOrder ι]

/-- What is so of a group: its generations only grow, its members are its newest generation's while
no rebalance is on, all of a generation named its protocol, its leaders assigned in their own, and
what the last step answered is right by them. -/
structure Group.Right (g : Group ι) : Prop where
  falls : g.made.Pairwise fun later earlier => earlier.generation < later.generation
  newest : ∀ m ∈ g.made, m.generation ≤ g.generation
  current : g.joining = false → ∀ x ∈ g.members, ∃ m, g.made.head? = some m ∧
    m.generation = g.generation ∧ x.id ∈ m.members.map (·.1)
  common : ∀ m ∈ g.made, ∀ x ∈ m.members, m.protocol ∈ x.2
  sent : ∀ e ∈ g.sent, ∃ m ∈ g.made, m.generation = e.generation ∧ m.leader = e.leader
  told : ∀ a ∈ g.out, Group.Fair g.made g.sent a

theorem Group.Inv.right {g : Group ι} (inv : g.Inv) (told : g.Told) : g.Right where
  falls := inv.past.falls
  newest := inv.past.newest
  current off x inside := by
    obtain ⟨m, top, number, _, _, members⟩ :=
      (inv.settled off (List.ne_nil_of_mem inside)).began
    exact ⟨m, top, number, members x inside⟩
  common := inv.past.common
  sent := inv.past.sent
  told := told

/-- The highest offset taken for exactly a group and topic; -1 if none was. -/
structure Highest (taken : List Taken) (group topic : String) (offset : Int) : Prop where
  above : ∀ t ∈ taken, t.group = group → t.topic = topic → t.offset ≤ offset
  one : offset = -1 ∨ ∃ t ∈ taken, t.group = group ∧ t.topic = topic ∧ t.offset = offset

namespace Coordinator

/-- A commit that was let through and is still being written. -/
def Open (w : Writing ι) : Prop := w.error = 0 ∧ 0 ≤ w.generation ∧ w.rest ≠ []

/-- What is so of the answers to the last step about offsets. -/
structure Told (s : Coordinator ι) : Prop where
  /-- An offset with a generation was taken from a member of the group's current one. -/
  took : ∀ w item, .took w item ∈ s.out → 0 ≤ w.generation →
    (s.groups w.group).check w.member w.generation = 0
  fetched : ∀ name topic offset code, .fetched name topic 0 offset code ∈ s.out →
    Highest s.taken name topic offset
  listed : ∀ name topics, .listed name topics ∈ s.out →
    ∀ topic, topic ∈ topics ↔ ∃ t ∈ s.taken, t.group = name ∧ t.topic = topic

structure Right (s : Coordinator ι) : Prop where
  groups : ∀ name, (s.groups name).Right
  told : Told s

/-- The condition on a step. -/
def Sure (s : Coordinator ι) : Op ι → Prop
  | .group name now request =>
    (s.leads = true → (s.groups name).clear.Sure now request) ∧
      ((∃ w ∈ s.writing, w.group = name ∧ Open w) → (s.groups name).clear.Calm now request)
  | .fetch name topic _ =>
    ∀ t ∈ s.taken, offsetsKey t.group t.topic = offsetsKey name topic →
      t.group = name ∧ t.topic = topic
  | .list name =>
    ∀ t ∈ s.taken, (offsetsKey name "").toList <+: (offsetsKey t.group t.topic).toList →
      t.group = name
  | _ => True

structure Inv (s : Coordinator ι) : Prop where
  groups : ∀ name, (s.groups name).Inv
  told : ∀ name, (s.groups name).Told
  writing : ∀ w ∈ s.writing, Open w → (s.groups w.group).check w.member w.generation = 0
  items : ∀ w ∈ s.writing, ∀ item ∈ w.rest, item.offset < 2 ^ 63
  taken : ∀ t ∈ s.taken, ∃ seq, s.marks.lookup (offsetsKey t.group t.topic) = some seq ∧
    t.offset + 1 ≤ seq
  marks : ∀ key seq, s.marks.lookup key = some seq →
    ∃ t ∈ s.taken, offsetsKey t.group t.topic = key ∧ (seq : Int) = t.offset + 1
  low : ∀ t ∈ s.taken, 0 ≤ t.offset ∧ t.offset < 2 ^ 63

variable {s : Coordinator ι}

theorem clear_inv {g : Group ι} (inv : g.Inv) : g.clear.Inv := Group.out_inv [] inv

theorem refusal_fair (request : Group.Ask ι) (made : List (Made ι)) (sent : List (Sent ι))
    (a : Answer ι) (inside : a ∈ refusal request) : Group.Fair made sent a := by
  cases request with
  | tick t => cases inside
  | join | sync | heartbeat | leave =>
    rw [List.mem_singleton.mp inside]
    first | trivial | nofun

/-- The group a request was made to, after it. -/
def asked (s : Coordinator ι) (name : String) (now : Nat) (request : Group.Ask ι) : Group ι :=
  if s.leads then (s.groups name).clear.ask now request
  else { (s.groups name).clear with out := refusal request }

theorem request_groups (name : String) (now : Nat) (request : Group.Ask ι) (other : String) :
    (s.request name now request).groups other =
      if other = name then s.asked name now request else s.groups other :=
  rfl

theorem asked_inv (inv : Inv s) (name : String) (now : Nat) (request : Group.Ask ι)
    (sure : Sure s (.group name now request)) :
    (s.asked name now request).Inv ∧ (s.asked name now request).Told := by
  unfold asked
  split
  · rename_i leads
    exact Group.ask_inv now request (clear_inv (inv.groups name)) rfl (sure.1 leads)
  · exact ⟨Group.out_inv _ (clear_inv (inv.groups name)), refusal_fair request _ _⟩

theorem request_inv (inv : Inv s) (name : String) (now : Nat) (request : Group.Ask ι)
    (sure : Sure s (.group name now request)) : Inv (s.request name now request) := by
  obtain ⟨inv', told⟩ := asked_inv inv name now request sure
  constructor
  · intro other
    rw [request_groups]
    split
    · exact inv'
    · exact inv.groups other
  · intro other
    rw [request_groups]
    split
    · exact told
    · exact inv.told other
  · intro w inside goes
    have fine := inv.writing w inside goes
    rw [request_groups]
    split
    · rename_i same
      rw [same] at fine
      unfold asked
      split
      · exact Group.calm_check now request (sure.2 ⟨w, inside, same, goes⟩) w.member w.generation fine
      · exact fine
    · exact fine
  · exact inv.items
  · exact inv.taken
  · exact inv.marks
  · exact inv.low

omit [LinearOrder ι] in
/-- The higher of two, if there is one. -/
theorem append_lookup (producer : String) (seq : Nat) (key : String) :
    (s.append producer seq).marks.lookup key =
      if key = producer then some (((s.marks.lookup producer).elim seq) (max seq))
      else s.marks.lookup key := by
  unfold append
  cases found : s.marks.lookup producer with
  | none =>
    rw [Option.any_none, if_neg (by decide)]
    exact lookup_insert_eq _ _ _ _
  | some last =>
    rw [Option.any_some, Option.elim_some]
    split
    · rename_i le
      rw [decide_eq_true_eq] at le
      rw [max_eq_right le]
      split
      · rename_i same
        rw [same, found]
      · rfl
    · rename_i less
      rw [decide_eq_true_eq, not_le] at less
      rw [max_eq_left less.le]
      exact lookup_insert_eq _ _ _ _

omit [LinearOrder ι] in
theorem append_groups (producer : String) (seq : Nat) :
    (s.append producer seq).groups = s.groups ∧ (s.append producer seq).writing = s.writing ∧
      (s.append producer seq).taken = s.taken ∧ (s.append producer seq).out = s.out := by
  unfold append
  split <;> exact ⟨rfl, rfl, rfl, rfl⟩

/-- An offset put into the log. -/
theorem take_inv (inv : Inv s) (w : Writing ι) (item : Item) (low : 0 ≤ item.offset)
    (high : item.offset < 2 ^ 63) : Inv (s.take w item) := by
  obtain ⟨groups, writing, taken, _⟩ :=
    append_groups (s := s) (offsetsKey w.group item.topic) (item.offset.toNat + 1)
  have marks (key : String) : (s.take w item).marks.lookup key = _ :=
    append_lookup (s := s) (offsetsKey w.group item.topic) (item.offset.toNat + 1) key
  have now : (s.take w item).taken = ⟨w.group, item.topic, item.offset⟩ :: s.taken :=
    congrArg (_ :: ·) taken
  have groups : (s.take w item).groups = s.groups := groups
  have writing : (s.take w item).writing = s.writing := writing
  constructor
  · rw [groups]
    exact inv.groups
  · rw [groups]
    exact inv.told
  · rw [groups, writing]
    exact inv.writing
  · rw [writing]
    exact inv.items
  · intro t inside
    rw [marks]
    rw [now] at inside
    cases inside with
    | head =>
      simp only [if_true]
      refine ⟨_, rfl, ?_⟩
      cases s.marks.lookup (offsetsKey w.group item.topic) with
      | none =>
        rw [Option.elim_none]
        omega
      | some last =>
        rw [Option.elim_some]
        omega
    | tail _ old =>
      obtain ⟨seq, there, above⟩ := inv.taken t old
      split
      · rename_i same
        rw [same] at there
        rw [there, Option.elim_some]
        exact ⟨_, rfl, by omega⟩
      · exact ⟨seq, there, above⟩
  · intro key seq there
    rw [marks] at there
    rw [now]
    split at there
    · rename_i same
      have new : ∃ t ∈ (⟨w.group, item.topic, item.offset⟩ : Taken) :: s.taken,
          offsetsKey t.group t.topic = key ∧ ((item.offset.toNat + 1 : Nat) : Int) = t.offset + 1 := by
        refine ⟨_, List.mem_cons_self, same.symm, ?_⟩
        show ((item.offset.toNat + 1 : Nat) : Int) = item.offset + 1
        omega
      cases found : s.marks.lookup (offsetsKey w.group item.topic) with
      | none =>
        rw [found, Option.elim_none] at there
        cases there
        exact new
      | some last =>
        rw [found, Option.elim_some] at there
        cases there
        cases le_total (item.offset.toNat + 1) last with
        | inl le =>
          obtain ⟨t, old, is, at'⟩ := inv.marks _ last found
          rw [max_eq_right le]
          exact ⟨t, List.mem_cons_of_mem _ old, is.trans same.symm, at'⟩
        | inr ge =>
          rw [max_eq_left ge]
          exact new
    · obtain ⟨t, old, is⟩ := inv.marks key seq there
      exact ⟨t, List.mem_cons_of_mem _ old, is⟩
  · rw [now]
    intro t inside
    cases inside with
    | head => exact ⟨low, high⟩
    | tail _ old => exact inv.low t old

theorem reply_inv (inv : Inv s) (r : Reply ι) : Inv (s.reply r) :=
  ⟨inv.groups, inv.told, inv.writing, inv.items, inv.taken, inv.marks, inv.low⟩

/-- A commit's next item, off its list. -/
theorem rest_inv (inv : Inv s) (k : Nat) (w : Writing ι) (item : Item) (rest : List Item)
    (found : s.writing[k]? = some w) (items : w.rest = item :: rest) :
    Inv { s with writing := s.writing.set k { w with rest := rest } } := by
  have here := List.mem_of_getElem? found
  refine ⟨inv.groups, inv.told, fun v inside goes => ?_, fun v inside => ?_, inv.taken, inv.marks,
    inv.low⟩
  · cases List.mem_or_eq_of_mem_set inside with
    | inl old => exact inv.writing v old goes
    | inr new =>
      subst new
      exact inv.writing w here ⟨goes.1, goes.2.1, by rw [items]; exact List.cons_ne_nil _ _⟩
  · cases List.mem_or_eq_of_mem_set inside with
    | inl old => exact inv.items v old
    | inr new =>
      subst new
      intro i of
      exact inv.items w here i (by rw [items]; exact List.mem_cons_of_mem _ of)

theorem write_inv (inv : Inv s) (k : Nat) (there wrote ok : Bool) :
    Inv (s.write k there wrote ok) := by
  unfold write
  split
  · exact inv
  · rename_i w found
    split
    · exact inv
    · rename_i item rest items
      have inv' := rest_inv inv k w item rest found items
      have high : item.offset < 2 ^ 63 := inv.items w (List.mem_of_getElem? found) item
        (by rw [items]; exact List.mem_cons_self)
      simp only
      split
      · exact reply_inv inv' _
      · split
        · rename_i low
          apply reply_inv
          split
          · exact take_inv inv' w item low.2.2 high
          · exact inv'
        · exact reply_inv inv' _

theorem commit_inv (inv : Inv s) (name : String) (generation : Int) (member : ι)
    (items : List Item) (whole : ∀ item ∈ items, item.offset < 2 ^ 63) :
    Inv (s.commit name generation member items) := by
  refine ⟨inv.groups, inv.told, fun w inside goes => ?_, fun w inside => ?_, inv.taken, inv.marks,
    inv.low⟩
  · cases List.mem_append.mp inside with
    | inl old => exact inv.writing w old goes
    | inr new =>
      rw [List.mem_singleton.mp new] at goes ⊢
      have fine := goes.1
      simp only at fine
      split at fine
      · cases fine
      · rw [if_neg (not_lt.mpr goes.2.1)] at fine
        exact fine
  · cases List.mem_append.mp inside with
    | inl old => exact inv.items w old
    | inr new =>
      rw [List.mem_singleton.mp new]
      exact whole

/-! ### What is answered -/

omit [LinearOrder ι] in
theorem take_out (w : Writing ι) (item : Item) :
    (s.take w item).out = s.out ++ [.took w item] := by
  have out := (append_groups (s := s) (offsetsKey w.group item.topic)
    (item.offset.toNat + 1)).2.2.2
  unfold take reply
  simp only [out]

omit [LinearOrder ι] in
theorem take_groups (w : Writing ι) (item : Item) : (s.take w item).groups = s.groups :=
  (append_groups _ _).1

omit [LinearOrder ι] in
theorem write_groups (k : Nat) (there wrote ok : Bool) :
    (s.write k there wrote ok).groups = s.groups := by
  unfold write
  split
  · rfl
  · split
    · rfl
    · simp only
      split
      · rfl
      · split
        · split
          · exact take_groups _ _
          · rfl
        · rfl

theorem write_told (inv : Inv s) (empty : s.out = []) (k : Nat) (there wrote ok : Bool) :
    Told (s.write k there wrote ok) := by
  have none : Told s := ⟨by simp [empty], by simp [empty], by simp [empty]⟩
  unfold write
  split
  · exact none
  · rename_i w found
    split
    · exact none
    · rename_i item rest items
      have refused (code : Int) : Told ({ s with
          writing := s.writing.set k { w with rest := rest } }.reply (.committed item code)) := by
        constructor <;> simp [reply, empty]
      simp only
      split
      · exact refused _
      · rename_i fine
        split
        · split
          · constructor
            · intro v i inside low
              have same : v = w := by
                simp only [reply, take_out, empty, List.nil_append, List.mem_append,
                  List.mem_singleton] at inside
                cases inside with
                | inl took =>
                  injection took
                | inr other => cases other
              rw [same] at low ⊢
              show ((Coordinator.take _ w item).groups w.group).check w.member w.generation = 0
              rw [take_groups]
              exact inv.writing w (List.mem_of_getElem? found) ⟨not_not.mp fine, low, by
                rw [items]
                exact List.cons_ne_nil _ _⟩
            · simp [reply, take_out, empty]
            · simp [reply, take_out, empty]
          · exact refused _
        · exact refused _

theorem wrap64_seq (x : Int) (low : 0 ≤ x) (high : x < 2 ^ 63) : wrap64 (wrap64 (x + 1) - 1) = x := by
  unfold wrap64
  rw [Int.bmod_sub_bmod, show x + 1 - 1 = x by omega]
  apply Int.bmod_eq_of_le <;> omega

theorem fetch_told (inv : Inv s) (empty : s.out = []) (name topic : String) (index : Int)
    (sure : Sure s (.fetch name topic index)) : Told (s.fetch name topic index) := by
  constructor
  · simp [fetch, reply, empty]
  · intro name' topic' offset code inside
    simp only [fetch, reply, empty, List.nil_append, List.mem_singleton] at inside
    injection inside with same same' first is _
    subst same same' first
    rw [is]
    cases found : s.marks.lookup (offsetsKey name' topic') with
    | none =>
      refine ⟨fun t old group topic => ?_, .inl rfl⟩
      obtain ⟨seq, there, _⟩ := inv.taken t old
      rw [group, topic, found] at there
      cases there
    | some seq =>
      obtain ⟨t, old, key, at'⟩ := inv.marks _ seq found
      obtain ⟨group, topic⟩ := sure t old key
      have all : Option.filter (fun _ => decide ((0 : Int) = 0)) (some seq) = some seq := rfl
      rw [all, Option.elim_some, at', wrap64_seq t.offset (inv.low t old).1 (inv.low t old).2]
      refine ⟨fun u other group' topic' => ?_, .inr ⟨t, old, group, topic, rfl⟩⟩
      obtain ⟨seq', there, above⟩ := inv.taken u other
      rw [group', topic', found] at there
      cases there
      omega
  · simp [fetch, reply, empty]

theorem offsetsKey_toList (group topic : String) :
    (offsetsKey group topic).toList = (offsetsKey group "").toList ++ topic.toList := by
  simp [offsetsKey]

theorem list_told (inv : Inv s) (empty : s.out = []) (name : String) (sure : Sure s (.list name)) :
    Told (s.list name) := by
  constructor
  · simp [list, reply, empty]
  · simp [list, reply, empty]
  · intro name' topics inside topic
    simp only [list, reply, empty, List.nil_append, List.mem_singleton] at inside
    injection inside with same is
    subst same
    rw [is, List.mem_map]
    constructor
    · intro listed
      obtain ⟨key, kept, drop⟩ := listed
      obtain ⟨marked, start⟩ := List.mem_filter.mp kept
      obtain ⟨seq, found⟩ := Option.isSome_iff_exists.mp
        (AList.lookup_isSome.mpr (AList.mem_keys.mp marked))
      obtain ⟨t, old, same, _⟩ := inv.marks key seq found
      have group := sure t old (by rw [same]; exact List.isPrefixOf_iff_prefix.mp start)
      refine ⟨t, old, group, ?_⟩
      rw [← drop, ← same, group, offsetsKey_toList name' t.topic, List.drop_left]
      exact String.ofList_toList.symm
    · intro one
      obtain ⟨t, old, group, is⟩ := one
      obtain ⟨seq, there, _⟩ := inv.taken t old
      refine ⟨offsetsKey t.group t.topic, List.mem_filter.mpr ⟨?_, ?_⟩, ?_⟩
      · exact AList.mem_keys.mpr (AList.lookup_isSome.mp (by rw [there]; rfl))
      · rw [List.isPrefixOf_iff_prefix, group, offsetsKey_toList name' t.topic]
        exact List.prefix_append _ _
      · rw [group, is, offsetsKey_toList name' topic, List.drop_left]
        exact String.ofList_toList

/-! ### Every run -/

theorem next_inv (inv : Inv s) (op : Op ι) (allowed : s.Allows op) (sure : Sure s op) :
    Inv (s.next op) ∧ Told (s.next op) := by
  have clear : Inv { s with out := [] } :=
    ⟨inv.groups, inv.told, inv.writing, inv.items, inv.taken, inv.marks, inv.low⟩
  cases op with
  | group name now request =>
    exact ⟨request_inv clear name now request sure, nofun, nofun, nofun⟩
  | commit name generation member items =>
    exact ⟨commit_inv clear name generation member items allowed, nofun, nofun, nofun⟩
  | write k there wrote ok => exact ⟨write_inv clear k there wrote ok, write_told clear rfl ..⟩
  | fetch name topic index => exact ⟨reply_inv clear _, fetch_told clear rfl name topic index sure⟩
  | list name => exact ⟨reply_inv clear _, list_told clear rfl name sure⟩

theorem next_grows (inv : Inv s) (op : Op ι) (sure : Sure s op) (name : String) :
    (s.groups name).generation ≤ ((s.next op).groups name).generation := by
  cases op with
  | group other now request =>
    show (s.groups name).generation ≤
      (({ s with out := [] }.request other now request).groups name).generation
    rw [request_groups]
    split
    · rename_i same
      rw [same]
      unfold asked
      split
      · rename_i leads
        exact Group.ask_grows now request (clear_inv (inv.groups other)) (sure.1 leads)
      · exact le_refl _
    · exact le_refl _
  | commit name generation member items => exact le_refl _
  | write k there wrote ok => exact (congrArg (fun groups => (groups name).generation)
      (write_groups (s := { s with out := [] }) k there wrote ok)).ge
  | fetch name topic index => exact le_refl _
  | list name => exact le_refl _

theorem start_inv (leads : Bool) : Inv (start (ι := ι) leads) where
  groups name := by
    have high : ((start (ι := ι) leads).groups name).generation < 2 ^ 31 := by
      show (0 : Int) < 2 ^ 31
      decide
    exact ⟨⟨.nil, nofun, le_refl _, high, nofun, nofun, nofun⟩, fun _ => rfl, fun _ some =>
      absurd rfl some⟩
  told _ := nofun
  writing := nofun
  items := nofun
  taken := nofun
  marks := nofun
  low := nofun

/-- In every run whose steps meet the condition, each group's generations only grow, and what is
answered, of members, assignments and offsets, is right. -/
theorem run_groups (leads : Bool) (ops more : List (Op ι))
    (legal : (coordinator.only Sure).Legal (start leads) (ops ++ more)) :
    Right (coordinator.run (start leads) (ops ++ more)) ∧ ∀ name,
      ((coordinator.run (start leads) ops).groups name).generation ≤
        ((coordinator.run (start leads) (ops ++ more)).groups name).generation := by
  have step (s : Coordinator ι) (op : Op ι) (both : Inv s ∧ Told s)
      (allowed : (coordinator.only Sure).Allows s op) : Inv (s.next op) ∧ Told (s.next op) :=
    next_inv both.1 op allowed.1 allowed.2
  have first : Inv (start (ι := ι) leads) ∧ Told (start (ι := ι) leads) :=
    ⟨start_inv leads, nofun, nofun, nofun⟩
  constructor
  · have last := (coordinator.only Sure).run_invariant (fun s => Inv s ∧ Told s) step
      (start leads) (ops ++ more) first legal
    exact ⟨fun name => (last.1.groups name).right (last.1.told name), last.2⟩
  · intro name
    rw [(coordinator.only Sure).legal_append] at legal
    have middle := (coordinator.only Sure).run_invariant (fun s => Inv s ∧ Told s) step
      (start leads) ops first legal.1
    rw [coordinator.run_append]
    exact (coordinator.only Sure).run_monotone (fun s => Inv s ∧ Told s)
      (fun s => (s.groups name).generation) step
      (fun s op both allowed => next_grows both.1 op allowed.2 name) _ more middle legal.2

section decidable

variable (s : Coordinator ι)

instance (w : Writing ι) : Decidable (Open w) := inferInstanceAs (Decidable (_ ∧ _ ∧ _))

instance (op : Op ι) : Decidable (Sure s op) :=
  match op with
  | .group .. => inferInstanceAs (Decidable (_ ∧ _))
  | .fetch .. => inferInstanceAs (Decidable (∀ t ∈ s.taken, _))
  | .list _ => inferInstanceAs (Decidable (∀ t ∈ s.taken, _))
  | .commit .. | .write .. => .isTrue trivial

instance (op : Op ι) : Decidable (s.Allows op) :=
  match op with
  | .group name _ (.tick t) => inferInstanceAs (Decidable (t ∈ (s.groups name).timers))
  | .commit .. => inferInstanceAs (Decidable (∀ item ∈ _, _))
  | .write .. => inferInstanceAs (Decidable (_ → _))
  | .group _ _ (.join ..) | .group _ _ (.sync ..) | .group _ _ (.heartbeat ..)
  | .group _ _ (.leave _) | .fetch .. | .list _ => .isTrue trivial

instance (op : Op ι) : Decidable (coordinator.Allows s op) :=
  inferInstanceAs (Decidable (s.Allows op))

instance (op : Op ι) : Decidable ((coordinator.only Sure).Allows s op) :=
  inferInstanceAs (Decidable (s.Allows op ∧ _))

end decidable

/-! ### A group of two, then three -/

def joins (id : Option Nat) (fresh now : Nat) (protocols : List String) : Op Nat :=
  .group "g" now (.join ⟨10000, none, id, protocols.map fun p => (p, [])⟩ fresh)

def syncs (generation : Int) (id now : Nat) (assignments : List (Nat × Blob)) : Op Nat :=
  .group "g" now (.sync generation id assignments)

/-- Two members of generation 2, the second of which asks for its assignment first. -/
def waits : List (Op Nat) :=
  [joins none 1 0 ["range"], joins none 2 10 ["range"], joins (some 1) 0 20 ["range"],
    syncs 2 2 30 []]

/-- The leader answers them both; then the second commits an offset. -/
def assigned : List (Op Nat) :=
  waits ++ [syncs 2 1 40 [(1, [5]), (2, [6])], .commit "g" 2 2 [⟨"t", 0, 7⟩], .write 0 true true true,
    .fetch "g" "t" 0]

theorem assigned_right : Right (coordinator.run (start true) assigned) ∧
    Reply.fetched "g" "t" 0 7 0 ∈ (coordinator.run (start (ι := Nat) true) assigned).out :=
  ⟨(run_groups true assigned [] (by decide +kernel)).1, by decide +kernel⟩

/-- A third joins while the second waits, and the leader names the second in generation 3. -/
def waitsOn : List (Op Nat) :=
  waits ++ [joins none 3 40 ["range"], joins (some 1) 0 50 ["range"], joins (some 2) 0 60 ["range"],
    syncs 3 1 70 [(2, [7])]]

/-- The third leaves, and in generation 4 the leader names itself alone. -/
def kept : List (Op Nat) :=
  waitsOn ++ [.group "g" 80 (.leave [3]), joins (some 1) 0 90 ["range"],
    joins (some 2) 0 100 ["range"], syncs 4 1 110 [(1, [8])], syncs 4 2 120 []]

/-- The second knows another protocol than the first. -/
def disagree : List (Op Nat) :=
  [joins none 1 0 ["range"], joins none 2 10 ["roundrobin"], joins (some 1) 0 20 ["range"]]

/-- A commit is checked before a second member joins, and written after. -/
def raced : List (Op Nat) :=
  [joins none 1 0 ["range"], .commit "g" 1 1 [⟨"t", 0, 7⟩], joins none 2 10 ["range"],
    .write 0 true true true]

/-- Group `a:b` commits an offset in topic `c`, and group `a` asks for its in topic `b:c`. -/
def collide : List (Op Nat) :=
  [.commit "a:b" (-1) 0 [⟨"c", 0, 7⟩], .write 0 true true true, .fetch "a" "b:c" 0]

/-- The coordinator after a run, and the group of it. -/
def after (ops : List (Op Nat)) : Coordinator Nat := coordinator.run (start true) ops

def groupAfter (ops : List (Op Nat)) : Group Nat := (after ops).groups "g"

theorem waitsOn_unfair :
    (∀ ops ∈ [waitsOn, kept, disagree, raced, collide], coordinator.Legal (start true) ops) ∧
    (Answer.synced 2 2 0 [7] ∈ (groupAfter waitsOn).out ∧
      Group.given (groupAfter waitsOn).sent 2 2 = []) ∧
    (Answer.synced 4 2 0 [7] ∈ (groupAfter kept).out ∧
      Group.given (groupAfter kept).sent 4 2 = []) ∧
    (groupAfter disagree).made.map (·.protocol) = ["", "range"] ∧
    (Reply.took ⟨"g", 1, 1, 0, [⟨"t", 0, 7⟩]⟩ ⟨"t", 0, 7⟩ ∈ (after raced).out ∧
      (groupAfter raced).check 1 1 ≠ 0) ∧
    (Reply.fetched "a" "b:c" 0 7 0 ∈ (after collide).out ∧
      (after collide).taken = [⟨"a:b", "c", 7⟩]) := by
  decide +kernel

end Coordinator

end Pondra.Groups
