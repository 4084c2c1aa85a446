import Pondra.Tasks.Task

set_option autoImplicit false

namespace Pondra.Tasks

open Dicts Machines

variable {ρ : Type} (hash : String → ρ → Nat)

/-! ### The rows of a shard -/

section rows

variable {hash} {task : Task} {shard : Nat}

theorem shardRows_append {a b x y : List (Row ρ)} (first : task.shardRows hash shard a = some x)
    (second : task.shardRows hash shard b = some y) :
    task.shardRows hash shard (a ++ b) = some (x ++ y) := by
  unfold Task.shardRows at *
  split at first
  · rename_i several
    rw [if_pos several] at second ⊢
    obtain ⟨column, named, rfl⟩ := Option.map_eq_some_iff.mp first
    rw [named, Option.map_some] at second
    rw [named, Option.map_some, List.filter_append, ← Option.some.inj second]
  · rename_i single
    rw [if_neg single] at second ⊢
    rw [← Option.some.inj first, ← Option.some.inj second]

theorem shardRows_sublist {rows kept : List (Row ρ)}
    (made : task.shardRows hash shard rows = some kept) : kept.Sublist rows := by
  unfold Task.shardRows at made
  split at made
  · obtain ⟨column, _, rfl⟩ := Option.map_eq_some_iff.mp made
    exact List.filter_sublist
  · rw [Option.some.inj made]

variable (hash) in
/-- The shard of a row: the hash's, or the only one. -/
def Task.shardOf (task : Task) (row : Row ρ) : Nat :=
  if 1 < task.shards then hash (task.shardBy.getD "") row.2 % task.shards else 0

variable (hash) in
theorem shardOf_lt (row : Row ρ) (some : 0 < task.shards) :
    task.shardOf hash row < task.shards := by
  unfold Task.shardOf
  split
  · exact Nat.mod_lt _ some
  · exact some

theorem mem_shardRows {rows kept : List (Row ρ)} (within : shard < task.shards)
    (made : task.shardRows hash shard rows = some kept) (row : Row ρ) :
    row ∈ kept ↔ row ∈ rows ∧ task.shardOf hash row = shard := by
  unfold Task.shardRows at made
  unfold Task.shardOf
  split at made
  · rename_i several
    obtain ⟨column, named, rfl⟩ := Option.map_eq_some_iff.mp made
    rw [if_pos several, named, Option.getD_some, List.mem_filter, beq_iff_eq]
  · rename_i single
    rw [if_neg single, ← Option.some.inj made]
    constructor
    · intro inside
      exact ⟨inside, by omega⟩
    · exact And.left

end rows

/-! ### What holds along a run -/

/-- The rows that the committed runs of a task's shard read. -/
def State.inputsOf (s : State ρ) (id shard : Nat) : List (Row ρ) :=
  (s.committed.filter fun run => run.task == id && run.shard == shard).flatMap Run.input

/-- A run of one making of a task: it read its shard's rows of the commits after `done`, up to `hwm`. -/
structure Run.Of (s : State ρ) (name : String) (task : Task) (run : Run ρ) : Prop where
  known : s.made[run.task]? = some (name, task)
  carries : (producers name task)[run.shard]? = some run.producer
  within : run.hwm ≤ s.catalog.visible
  fresh : run.done < run.hwm
  reads : task.shardRows hash run.shard (tail s.log task.source run.done run.hwm) = some run.input

/-- Where a shard's progress stands: its runs read all of its rows so far. -/
structure Stands (s : State ρ) (id : Nat) (task : Task) (shard : Nat) (producer : String) : Prop where
  within : s.catalog.mark producer ≤ s.catalog.visible
  agreed : s.seqOf producer = s.catalog.mark producer
  read : task.shardRows hash shard (tail s.log task.source 0 (s.catalog.mark producer)) =
    some (s.inputsOf id shard)

structure Inv (s : State ρ) : Prop where
  copies : ∀ copy ∈ s.copies, copy.visible ≤ s.catalog.visible ∧ ∀ name entry,
    copy.tasks.lookup name = some entry → s.made[entry.1]? = some (name, entry.2)
  proper : ∀ x ∈ s.made, 0 < x.2.shards ∧ (1 < x.2.shards → x.2.shardBy ≠ none)
  runs : ∀ run ∈ s.runs ++ s.committed, ∃ name task, run.Of hash s name task
  alone : ∀ name other entry entry', s.catalog.tasks.lookup name = some entry →
    s.catalog.tasks.lookup other = some entry' →
    ∀ producer ∈ producers name entry.2, producer ∈ producers other entry'.2 → name = other
  stands : ∀ name entry, s.catalog.tasks.lookup name = some entry → ∀ shard producer,
    (producers name entry.2)[shard]? = some producer → Stands hash s entry.1 entry.2 shard producer

/-- A state after another: what was committed then is as it was. -/
structure Later (s s' : State ρ) : Prop where
  visible : s.catalog.visible ≤ s'.catalog.visible
  made : ∀ (i : Nat) x, s.made[i]? = some x → s'.made[i]? = some x
  tails : ∀ table after upto, upto ≤ s.catalog.visible →
    tail s'.log table after upto = tail s.log table after upto

section

variable {hash} {s s' : State ρ}

theorem Later.of_eq (visible : s'.catalog.visible = s.catalog.visible) (made : s'.made = s.made)
    (log : s'.log = s.log) : Later s s' where
  visible := Nat.le_of_eq visible.symm
  made i x at' := by rw [made]; exact at'
  tails table after upto _ := by rw [log]

theorem Later.of_insert {number : Nat} {segment : Segment ρ} (next : s.catalog.visible < number)
    (visible : s'.catalog.visible = number) (made : s'.made = s.made)
    (log : s'.log = s.log.insert number segment) : Later s s' where
  visible := by omega
  made i x at' := by rw [made]; exact at'
  tails table after upto low := by
    rw [log]
    exact tail_insert s.log table after upto number segment (by omega)

theorem Run.Of.later {name : String} {task : Task} {run : Run ρ} (of : run.Of hash s name task)
    (later : Later s s') : run.Of hash s' name task where
  known := later.made _ _ of.known
  carries := of.carries
  within := Nat.le_trans of.within later.visible
  fresh := of.fresh
  reads := by
    rw [later.tails _ _ _ of.within]
    exact of.reads

theorem Stands.later {id shard : Nat} {task : Task} {producer : String}
    (stands : Stands hash s id task shard producer) (later : Later s s')
    (mark : s'.catalog.mark producer = s.catalog.mark producer)
    (seqOf : s'.seqOf producer = s.seqOf producer)
    (inputs : s'.inputsOf id shard = s.inputsOf id shard) :
    Stands hash s' id task shard producer where
  within := by
    rw [mark]
    exact Nat.le_trans stands.within later.visible
  agreed := by rw [mark, seqOf, stands.agreed]
  read := by
    rw [mark, inputs, later.tails _ _ _ stands.within]
    exact stands.read

end

/-! ### When a task reads once -/

/-- A task starts with progress of its own: its shards are some, no other task's producers are its own,
and of none of them is progress left, in the catalog or in what the sequencer remembers. And a run is
not taken that another making of its task computed. -/
def Sure (s : State ρ) : Op ρ → Prop
  | .create name task =>
    0 < task.shards ∧ ∀ producer ∈ producers name task,
      s.catalog.mark producer = 0 ∧ s.seqOf producer = 0 ∧
        ∀ x ∈ s.catalog.tasks.entries, producer ∈ producers x.1 x.2.2 → x.1 = name
  | .append i _ refused => ∀ run ∈ s.runs[i]?, refused = false → s.Takes run →
      ∀ x ∈ s.catalog.tasks.entries, run.producer ∈ producers x.1 x.2.2 → x.2.1 = run.task
  | _ => True

section steps

variable {hash} {s : State ρ}

theorem catalog_mem (s : State ρ) : s.catalog ∈ s.copies :=
  List.mem_append_right _ (List.mem_singleton_self _)

theorem mem_entries {tasks : Dict String (Nat × Task)} {name : String} {entry : Nat × Task}
    (live : tasks.lookup name = some entry) : (⟨name, entry⟩ : Σ _ : String, Nat × Task) ∈ tasks.entries :=
  AList.mem_lookup_iff.mp live

theorem Inv.known (inv : Inv hash s) {name : String} {entry : Nat × Task}
    (live : s.catalog.tasks.lookup name = some entry) : s.made[entry.1]? = some (name, entry.2) :=
  (inv.copies _ (catalog_mem s)).2 name entry live

theorem inv_start : Inv hash (start ρ) where
  copies copy inside := by
    rw [List.mem_singleton.mp inside]
    exact ⟨Nat.le_refl _, fun name entry live => by cases live⟩
  proper x inside := by cases inside
  runs run inside := by cases inside
  alone name other entry entry' live := by cases live
  stands name entry live := by cases live

/-- A commit that leaves the tasks as they are. -/
theorem Inv.copies_later (inv : Inv hash s) {s' : State ρ} (later : Later s s')
    (copies : ∀ copy ∈ s'.copies, copy ∈ s.copies ∨
      (copy.visible = s'.catalog.visible ∧ copy.tasks = s.catalog.tasks)) (copy : Copy)
    (inside : copy ∈ s'.copies) : copy.visible ≤ s'.catalog.visible ∧ ∀ name entry,
      copy.tasks.lookup name = some entry → s'.made[entry.1]? = some (name, entry.2) := by
  cases copies copy inside with
  | inl old =>
    have known := inv.copies copy old
    exact ⟨Nat.le_trans known.1 later.visible, fun name entry live =>
      later.made _ _ (known.2 name entry live)⟩
  | inr fresh =>
    refine ⟨Nat.le_of_eq fresh.1, fun name entry live => later.made _ _ (inv.known ?_)⟩
    rw [← fresh.2]
    exact live

theorem Inv.write (inv : Inv hash s) (number : Nat) (segment : Segment ρ)
    (next : s.catalog.visible < number) : Inv hash (s.next hash (.write number segment)) := by
  have later : Later s (s.next hash (.write number segment)) := Later.of_insert next rfl rfl rfl
  constructor
  · apply inv.copies_later later
    intro copy inside
    rw [show (s.next hash (.write number segment)).copies = s.copies ++ [_] from rfl,
      List.mem_append, List.mem_singleton] at inside
    exact inside.imp_right fun same => by rw [same]; exact ⟨rfl, rfl⟩
  · exact inv.proper
  · intro run inside
    obtain ⟨name, task, of⟩ := inv.runs run inside
    exact ⟨name, task, of.later later⟩
  · exact inv.alone
  · intro name entry live shard producer carries
    exact (inv.stands name entry live shard producer carries).later later rfl rfl rfl

theorem Inv.create (inv : Inv hash s) (name : String) (task : Task)
    (sure : Sure s (.create name task)) : Inv hash (s.next hash (.create name task)) := by
  show Inv hash (s.create name task)
  unfold State.create
  split
  · exact inv
  rename_i named
  have fresh : s.made.length < (s.made ++ [(name, task)]).length := by
    rw [List.length_append, List.length_singleton]
    omega
  generalize made' : ({ s.commit { s.catalog with
      tasks := s.catalog.tasks.insert name (s.made.length, task) } with
      made := s.made ++ [(name, task)] } : State ρ) = s'
  have made : s'.made = s.made ++ [(name, task)] := by rw [← made']
  have later : Later s s' := by
    constructor
    · rw [← made']
      exact Nat.le_refl _
    · intro i x at'
      rw [made, List.getElem?_append_left (List.getElem?_eq_some_iff.mp at').1, at']
    · intro table after upto _
      rw [← made']
      rfl
  have live' : ∀ other entry, s'.catalog.tasks.lookup other = some entry →
      (other = name ∧ entry = (s.made.length, task)) ∨
        (other ≠ name ∧ s.catalog.tasks.lookup other = some entry) := by
    intro other entry live
    rw [← made'] at live
    have inserted : (s.catalog.tasks.insert name (s.made.length, task)).lookup other =
      some entry := live
    rw [lookup_insert_eq] at inserted
    split at inserted
    · rename_i same
      exact .inl ⟨same, (Option.some.inj inserted).symm⟩
    · rename_i apart
      exact .inr ⟨apart, inserted⟩
  have known' : s'.made[s.made.length]? = some (name, task) := by
    rw [made, List.getElem?_append_right (Nat.le_refl _), Nat.sub_self]
    rfl
  constructor
  · intro copy inside
    have copies : s'.copies = s.copies ++ [s'.catalog] := by rw [← made']; rfl
    have visible : s'.catalog.visible = s.catalog.visible := by rw [← made']; rfl
    rw [copies, List.mem_append, List.mem_singleton] at inside
    cases inside with
    | inl old =>
      have known := inv.copies copy old
      exact ⟨Nat.le_trans known.1 later.visible, fun other entry live =>
        later.made _ _ (known.2 other entry live)⟩
    | inr new =>
      rw [new]
      refine ⟨Nat.le_refl _, fun other entry live => ?_⟩
      cases live' other entry live with
      | inl mine =>
        rw [mine.1, mine.2]
        exact known'
      | inr old => exact later.made _ _ (inv.known old.2)
  · intro x inside
    rw [made, List.mem_append, List.mem_singleton] at inside
    cases inside with
    | inl old => exact inv.proper x old
    | inr new =>
      rw [new]
      exact ⟨sure.1, fun several none => named ⟨several, none⟩⟩
  · intro run inside
    rw [← made'] at inside
    obtain ⟨other, of, ran⟩ := inv.runs run inside
    exact ⟨other, of, ran.later later⟩
  · intro one other entry entry' live live₂ producer mine theirs
    cases live' one entry live with
    | inl new =>
      cases live' other entry' live₂ with
      | inl new₂ => rw [new.1, new₂.1]
      | inr old₂ =>
        rw [new.1, new.2] at mine
        exact absurd ((sure.2 producer mine).2.2 _ (mem_entries old₂.2) theirs) old₂.1
    | inr old =>
      cases live' other entry' live₂ with
      | inl new₂ =>
        rw [new₂.1, new₂.2] at theirs
        exact absurd ((sure.2 producer theirs).2.2 _ (mem_entries old.2) mine) old.1
      | inr old₂ => exact inv.alone one other entry entry' old.2 old₂.2 producer mine theirs
  · intro other entry live shard producer carries
    have mark : s'.catalog.mark producer = s.catalog.mark producer := by rw [← made']; rfl
    have seqOf : s'.seqOf producer = s.seqOf producer := by rw [← made']; rfl
    have inputs : ∀ id, s'.inputsOf id shard = s.inputsOf id shard := by
      intro id
      rw [← made']
      rfl
    cases live' other entry live with
    | inr old =>
      exact (inv.stands other entry old.2 shard producer carries).later later mark seqOf (inputs _)
    | inl new =>
      rw [new.1, new.2] at carries
      rw [new.2]
      have clean := sure.2 producer (List.mem_of_getElem? carries)
      -- no run of this making was computed yet
      have unread : s.inputsOf s.made.length shard = [] := by
        unfold State.inputsOf
        rw [List.filter_eq_nil_iff.mpr, List.flatMap_nil]
        intro run inside
        obtain ⟨_, _, of⟩ := inv.runs run (List.mem_append_right _ inside)
        have below := (List.getElem?_eq_some_iff.mp of.known).1
        simp only [Bool.and_eq_true, beq_iff_eq, not_and]
        intro same
        omega
      constructor
      · rw [mark, clean.1]
        exact Nat.zero_le _
      · rw [mark, seqOf, clean.1, clean.2.1]
      · rw [mark, clean.1, inputs, unread]
        unfold Task.shardRows
        split
        · rename_i several
          cases column : task.shardBy with
          | none => exact absurd ⟨several, column⟩ named
          | some column => rfl
        · rfl

theorem Inv.drop (inv : Inv hash s) (name : String) : Inv hash (s.next hash (.drop name)) := by
  show Inv hash (s.drop name)
  unfold State.drop
  split
  · exact inv
  rename_i entry found
  generalize dropped : s.commit { s.catalog with
    tasks := s.catalog.tasks.erase name
    marks := without s.catalog.marks (producers name entry.2) } = s'
  have later : Later s s' := by
    rw [← dropped]
    exact Later.of_eq rfl rfl rfl
  have live' : ∀ other entry', s'.catalog.tasks.lookup other = some entry' →
      other ≠ name ∧ s.catalog.tasks.lookup other = some entry' := by
    intro other entry' live
    rw [← dropped] at live
    have erased : (s.catalog.tasks.erase name).lookup other = some entry' := live
    by_cases same : other = name
    · rw [same, AList.lookup_erase] at erased
      cases erased
    · rw [AList.lookup_erase_ne same] at erased
      exact ⟨same, erased⟩
  constructor
  · intro copy inside
    have copies : s'.copies = s.copies ++ [s'.catalog] := by rw [← dropped]; rfl
    rw [copies, List.mem_append, List.mem_singleton] at inside
    cases inside with
    | inl old =>
      have known := inv.copies copy old
      exact ⟨Nat.le_trans known.1 later.visible, fun other entry live =>
        later.made _ _ (known.2 other entry live)⟩
    | inr new =>
      rw [new]
      exact ⟨Nat.le_refl _, fun other entry' live => later.made _ _ (inv.known (live' _ _ live).2)⟩
  · rw [← dropped]
    exact inv.proper
  · intro run inside
    rw [← dropped] at inside
    obtain ⟨other, of, ran⟩ := inv.runs run inside
    exact ⟨other, of, ran.later later⟩
  · intro one other entry₁ entry₂ live live₂
    exact inv.alone one other entry₁ entry₂ (live' _ _ live).2 (live' _ _ live₂).2
  · intro other entry' live shard producer carries
    obtain ⟨apart, old⟩ := live' other entry' live
    have kept : producer ∉ producers name entry.2 := fun shared => apart
      (inv.alone other name entry' entry old found producer (List.mem_of_getElem? carries) shared)
    have mark : s'.catalog.mark producer = s.catalog.mark producer := by
      rw [← dropped]
      show ((without s.catalog.marks (producers name entry.2)).lookup producer).getD 0 = _
      rw [lookup_without, if_neg kept]
      rfl
    have seqOf : s'.seqOf producer = s.seqOf producer := by
      unfold State.seqOf
      rw [mark, ← dropped]
      rfl
    refine (inv.stands other entry' old shard producer carries).later later mark seqOf ?_
    rw [← dropped]
    rfl

/-- What a round computes is a run of the task it found. -/
theorem round_of (inv : Inv hash s) {hwm : Nat} {scanned looked : Copy} {name : String} {shard : Nat}
    {out : List ρ} {run : Run ρ} (inside : scanned ∈ s.copies) (within : hwm ≤ scanned.visible)
    (made : s.round hash hwm scanned looked name shard out = some run) :
    ∃ entry, scanned.tasks.lookup name = some entry ∧ run.task = entry.1 ∧ run.shard = shard ∧
      run.hwm = hwm ∧ run.done = looked.mark run.producer ∧ run.Of hash s name entry.2 := by
  unfold State.round at made
  obtain ⟨entry, live, made⟩ := Option.bind_eq_some_iff.mp made
  obtain ⟨producer, carries, made⟩ := Option.bind_eq_some_iff.mp made
  split at made
  · cases made
  rename_i fresh
  split at made
  · cases made
  obtain ⟨input, reads, rfl⟩ := Option.map_eq_some_iff.mp made
  refine ⟨entry, live, rfl, rfl, rfl, rfl, ?_⟩
  constructor
  · exact (inv.copies scanned inside).2 name entry live
  · exact carries
  · exact Nat.le_trans within (inv.copies scanned inside).1
  · exact Nat.lt_of_not_le fresh
  · exact reads

/-- A change of the runs under way alone. -/
theorem Inv.under (inv : Inv hash s) (runs : List (Run ρ))
    (of : ∀ run ∈ runs, ∃ name task, run.Of hash s name task) :
    Inv hash { s with runs := runs } where
  copies := inv.copies
  proper := inv.proper
  runs run inside := by
    have later : Later s { s with runs := runs } := Later.of_eq rfl rfl rfl
    rw [List.mem_append] at inside
    cases inside with
    | inl under =>
      obtain ⟨name, task, ran⟩ := of run under
      exact ⟨name, task, ran.later later⟩
    | inr done =>
      obtain ⟨name, task, ran⟩ := inv.runs run (List.mem_append_right _ done)
      exact ⟨name, task, ran.later later⟩
  alone := inv.alone
  stands name entry live shard producer carries :=
    (inv.stands name entry live shard producer carries).later (Later.of_eq rfl rfl rfl) rfl rfl rfl

theorem Inv.round (inv : Inv hash s) (hwm scanned looked : Nat) (name : String) (shard : Nat)
    (out : List ρ) (allows : s.Allows (.round hwm scanned looked name shard out)) :
    Inv hash (s.next hash (.round hwm scanned looked name shard out)) := by
  unfold State.next
  dsimp only
  split
  · rename_i tasks marks found _
    apply inv.under
    intro run inside
    rw [List.mem_append] at inside
    cases inside with
    | inl old => exact inv.runs run (List.mem_append_left _ old)
    | inr new =>
      have read := round_of inv (List.mem_of_getElem? found) (allows.2.2 tasks found)
        (Option.mem_toList.mp new)
      obtain ⟨entry, _, _, _, _, _, of⟩ := read
      exact ⟨name, entry.2, of⟩
  · exact inv

theorem Inv.stop (inv : Inv hash s) (i : Nat) : Inv hash (s.next hash (.stop i)) :=
  inv.under _ fun run inside =>
    inv.runs run (List.mem_append_left _ (List.mem_of_mem_eraseIdx inside))

theorem Inv.lead (inv : Inv hash s) : Inv hash (s.next hash .lead) where
  copies := inv.copies
  proper := inv.proper
  runs run inside := by
    obtain ⟨name, task, of⟩ := inv.runs run inside
    exact ⟨name, task, of.later (Later.of_eq rfl rfl rfl)⟩
  alone := inv.alone
  stands name entry live shard producer carries := by
    have stands := inv.stands name entry live shard producer carries
    exact ⟨stands.within, rfl, stands.read⟩

theorem inputsOf_take (s : State ρ) (run : Run ρ) (number id shard : Nat) :
    (s.take run number).inputsOf id shard = s.inputsOf id shard ++
      if run.task = id ∧ run.shard = shard then run.input else [] := by
  unfold State.inputsOf State.take
  rw [List.filter_append, List.flatMap_append]
  apply congrArg ((s.inputsOf id shard) ++ ·)
  by_cases mine : run.task = id ∧ run.shard = shard
  · rw [if_pos mine, List.filter_cons_of_pos (by simp [mine]), List.filter_nil, List.flatMap_singleton]
  · rw [if_neg mine, List.filter_cons_of_neg (by simpa using mine), List.filter_nil, List.flatMap_nil]

theorem mark_take (s : State ρ) (run : Run ρ) (number : Nat) (producer : String) :
    (s.take run number).catalog.mark producer =
      if producer = run.producer then run.hwm else s.catalog.mark producer := by
  show ((s.catalog.marks.insert run.producer run.hwm).lookup producer).getD 0 = _
  rw [lookup_insert_eq]
  split
  · rfl
  · rfl

theorem seqOf_take (s : State ρ) (run : Run ρ) (number : Nat) (producer : String) :
    (s.take run number).seqOf producer =
      if producer = run.producer then run.hwm else s.seqOf producer := by
  unfold State.seqOf
  rw [mark_take]
  show ((s.last.insert run.producer run.hwm).lookup producer).getD _ = _
  rw [lookup_insert_eq]
  split
  · rfl
  · rfl

theorem Inv.take (inv : Inv hash s) (run : Run ρ) (number : Nat) (sent : run ∈ s.runs)
    (taken : s.Takes run) (next : s.catalog.visible < number)
    (own : ∀ x ∈ s.catalog.tasks.entries, run.producer ∈ producers x.1 x.2.2 → x.2.1 = run.task) :
    Inv hash (s.take run number) := by
  have later : Later s (s.take run number) := Later.of_insert next rfl rfl rfl
  obtain ⟨name, task, of⟩ := inv.runs run (List.mem_append_left _ sent)
  constructor
  · apply inv.copies_later later
    intro copy inside
    rw [show (s.take run number).copies = s.copies ++ [_] from rfl, List.mem_append,
      List.mem_singleton] at inside
    exact inside.imp_right fun same => by rw [same]; exact ⟨rfl, rfl⟩
  · exact inv.proper
  · intro other inside
    have old : other ∈ s.runs ++ s.committed := by
      rw [List.mem_append] at inside ⊢
      cases inside with
      | inl under => exact .inl under
      | inr done =>
        cases List.mem_append.mp done with
        | inl before => exact .inr before
        | inr mine => exact .inl (List.mem_singleton.mp mine ▸ sent)
    obtain ⟨name', task', ran⟩ := inv.runs other old
    exact ⟨name', task', ran.later later⟩
  · exact inv.alone
  · intro other entry live shard producer carries
    have live : s.catalog.tasks.lookup other = some entry := live
    have stands := inv.stands other entry live shard producer carries
    by_cases mine : producer = run.producer
    · -- the task is the run's own, and the shard is
      have same : entry.1 = run.task :=
        own _ (mem_entries live) (mine ▸ List.mem_of_getElem? carries)
      have known := inv.known live
      rw [same, of.known] at known
      obtain ⟨rfl, same₂⟩ := Prod.mk.inj (Option.some.inj known)
      have carries₂ := of.carries
      rw [same₂, ← mine] at carries₂
      have shards : run.shard = shard := by
        have bound := (List.getElem?_eq_some_iff.mp carries₂).1
        exact (List.getElem?_inj bound (producers_nodup name entry.2)).mp (carries₂.trans carries.symm)
      have mark : (s.take run number).catalog.mark producer = run.hwm := by
        rw [mark_take, if_pos mine]
      constructor
      · rw [mark]
        exact Nat.le_trans of.within later.visible
      · rw [mark, seqOf_take, if_pos mine]
      · rw [mark, inputsOf_take, if_pos ⟨same.symm, shards⟩, later.tails _ _ _ of.within]
        have done : run.done = s.catalog.mark producer := by
          rw [taken.2, ← mine, stands.agreed]
        have reads := of.reads
        rw [shards, same₂, done] at reads
        have low : s.catalog.mark producer ≤ run.hwm := by
          have fresh := of.fresh
          omega
        rw [← tail_append s.log entry.2.source 0 (s.catalog.mark producer) run.hwm
          (Nat.zero_le _) low]
        exact shardRows_append stands.read reads
    · apply stands.later later
      · rw [mark_take, if_neg mine]
      · rw [seqOf_take, if_neg mine]
      · rw [inputsOf_take, if_neg, List.append_nil]
        intro same
        apply mine
        have known := inv.known live
        rw [← same.1, of.known] at known
        obtain ⟨rfl, same₂⟩ := Prod.mk.inj (Option.some.inj known)
        have carries₂ := of.carries
        rw [same₂, same.2, carries] at carries₂
        exact Option.some.inj carries₂

theorem Inv.append (inv : Inv hash s) (i number : Nat) (refused : Bool)
    (allows : s.Allows (.append i number refused)) (sure : Sure s (.append i number refused)) :
    Inv hash (s.next hash (.append i number refused)) := by
  unfold State.next
  dsimp only
  split
  · exact inv
  rename_i run found
  split
  · rename_i taken
    exact inv.take run number (List.mem_of_getElem? found) taken.2 allows
      (sure run found taken.1 taken.2)
  · exact inv

theorem Inv.next (inv : Inv hash s) (op : Op ρ) (allows : s.Allows op) (sure : Sure s op) :
    Inv hash (s.next hash op) := by
  cases op with
  | write number segment => exact inv.write number segment allows
  | create name task => exact inv.create name task sure
  | drop name => exact inv.drop name
  | round hwm scanned looked name shard out =>
    exact inv.round hwm scanned looked name shard out allows
  | append i number refused => exact inv.append i number refused allows sure
  | stop i => exact inv.stop i
  | lead => exact inv.lead

end steps

/-! ### Each row once -/

/-- The places of the rows a run read, if it is one of this making of a task. -/
def Run.placesOf (id : Nat) (run : Run ρ) : List (Nat × Nat) :=
  if run.task = id then run.input.map Prod.fst else []

/-- A row is in the input of one committed run of a task, once, and of no other. -/
def State.Once (s : State ρ) (id : Nat) (row : Row ρ) : Prop :=
  ∃ before run after, s.committed = before ++ run :: after ∧
    (run.placesOf id).count row.1 = 1 ∧ ∀ other ∈ before ++ after, row.1 ∉ other.placesOf id

/-- A round of a shard that nothing disturbs: it reads all there is, and its append is next. -/
def State.rounded (s : State ρ) (name : String) (shard : Nat) (out : List ρ) (number : Nat) :
    State ρ :=
  (machine hash).run s [.round s.catalog.visible s.past.length s.past.length name shard out,
    .append s.runs.length number false]

/-- Each task there is reads each row of its source once: a row has one shard, whose runs alone read it;
up to where the shard's progress stands each is in the input of one committed run, past it in none yet;
and the shard's next round takes it. -/
structure ReadsOnce (s : State ρ) : Prop where
  once : ∀ name id task, s.catalog.tasks.lookup name = some (id, task) →
    ∀ row ∈ tail s.log task.source 0 s.catalog.visible, ∃ shard producer,
      (producers name task)[shard]? = some producer ∧
      (∀ run ∈ s.committed, row.1 ∈ run.placesOf id → run.shard = shard) ∧
      (row.1.1 ≤ s.catalog.mark producer → s.Once id row) ∧
      (s.catalog.mark producer < row.1.1 → ∀ run ∈ s.committed, row.1 ∉ run.placesOf id) ∧
      ∀ out number, s.catalog.visible < number → (s.rounded hash name shard out number).Once id row

section once

variable {hash} {s : State ρ}

theorem mem_of_splits {α β : Type} [BEq β] [LawfulBEq β] (l : List α) (f : α → List β) (x : β)
    (each : ∀ a ∈ l, (f a).Nodup) (apart : l.Pairwise fun a b => List.Disjoint (f a) (f b))
    (inside : ∃ a ∈ l, x ∈ f a) : ∃ before a after, l = before ++ a :: after ∧
      (f a).count x = 1 ∧ ∀ b ∈ before ++ after, x ∉ f b := by
  obtain ⟨a, among, held⟩ := inside
  obtain ⟨before, after, rfl⟩ := List.append_of_mem among
  refine ⟨before, a, after, rfl, List.count_eq_one_of_mem (each a among) held, ?_⟩
  rw [List.pairwise_append, List.pairwise_cons] at apart
  intro b others
  cases List.mem_append.mp others with
  | inl first => exact fun also => apart.2.2 b first a List.mem_cons_self also held
  | inr later => exact fun also => apart.2.1.1 b later held also

/-- The rows of a shard's committed runs. -/
theorem mem_inputsOf (id shard : Nat) (row : Row ρ) :
    row ∈ s.inputsOf id shard ↔
      ∃ run ∈ s.committed, run.task = id ∧ run.shard = shard ∧ row ∈ run.input := by
  unfold State.inputsOf
  rw [List.mem_flatMap]
  constructor
  · rintro ⟨run, kept, held⟩
    rw [List.mem_filter, Bool.and_eq_true, beq_iff_eq, beq_iff_eq] at kept
    exact ⟨run, kept.1, kept.2.1, kept.2.2, held⟩
  · rintro ⟨run, inside, task, shards, held⟩
    refine ⟨run, ?_, held⟩
    rw [List.mem_filter, Bool.and_eq_true, beq_iff_eq, beq_iff_eq]
    exact ⟨inside, task, shards⟩

/-- Two rows of a table at one place are one. -/
theorem tail_place {log : Dict Nat (Segment ρ)} {table : String} {after upto : Nat} {a b : Row ρ}
    (first : a ∈ tail log table after upto) (second : b ∈ tail log table after upto)
    (same : a.1 = b.1) : a = b :=
  List.inj_on_of_nodup_map (tail_nodup log table after upto) first second same

variable {name : String} {id : Nat} {task : Task}

/-- A row that a committed run of a task read: a row of its source, of the run's shard. -/
theorem Inv.reads (inv : Inv hash s) (live : s.catalog.tasks.lookup name = some (id, task))
    {run : Run ρ} (inside : run ∈ s.committed) (mine : run.task = id) :
    ∃ producer, (producers name task)[run.shard]? = some producer ∧ ∀ row ∈ run.input,
      row ∈ tail s.log task.source 0 (s.catalog.mark producer) ∧
        task.shardOf hash row = run.shard := by
  obtain ⟨name', task', of⟩ := inv.runs run (List.mem_append_right _ inside)
  have known := inv.known live
  rw [← mine, of.known] at known
  obtain ⟨rfl, rfl⟩ := Prod.mk.inj (Option.some.inj known)
  refine ⟨run.producer, of.carries, fun row held => ?_⟩
  have stands := inv.stands name' (id, task') live run.shard run.producer of.carries
  have bound := (List.getElem?_eq_some_iff.mp of.carries).1
  rw [producers_length] at bound
  exact (mem_shardRows bound stands.read row).mp
    ((mem_inputsOf id run.shard row).mpr ⟨run, inside, mine, rfl, held⟩)

/-- Up to a shard's mark each of its rows is in one committed run. -/
theorem Inv.once (inv : Inv hash s) (live : s.catalog.tasks.lookup name = some (id, task))
    {row : Row ρ} {shard : Nat} {producer : String}
    (carries : (producers name task)[shard]? = some producer)
    (mine : task.shardOf hash row = shard)
    (inside : row ∈ tail s.log task.source 0 s.catalog.visible)
    (low : row.1.1 ≤ s.catalog.mark producer) : s.Once id row := by
  have stands := inv.stands name (id, task) live shard producer carries
  have bound := (List.getElem?_eq_some_iff.mp carries).1
  rw [producers_length] at bound
  have read : row ∈ s.inputsOf id shard := by
    rw [mem_shardRows bound stands.read row]
    refine ⟨?_, mine⟩
    rw [mem_tail] at inside ⊢
    exact ⟨inside.1, low, inside.2.2⟩
  obtain ⟨run, committed, own, _, held⟩ := (mem_inputsOf id shard row).mp read
  refine mem_of_splits s.committed (Run.placesOf id) row.1 ?_ ?_ ?_
  · intro run inside
    unfold Run.placesOf
    split
    · rename_i mine
      obtain ⟨_, _, of⟩ := inv.runs run (List.mem_append_right _ inside)
      exact (tail_nodup s.log _ run.done run.hwm).sublist ((shardRows_sublist of.reads).map _)
    · exact List.nodup_nil
  · rw [List.pairwise_iff_getElem]
    intro i j low high before place inI inJ
    unfold Run.placesOf at inI inJ
    split at inI
    · split at inJ
      · rename_i ownI ownJ
        obtain ⟨a, heldI, rfl⟩ := List.mem_map.mp inI
        obtain ⟨b, heldJ, same⟩ := List.mem_map.mp inJ
        obtain ⟨producerI, carriesI, readI⟩ := inv.reads live (List.getElem_mem low) ownI
        obtain ⟨producerJ, carriesJ, readJ⟩ := inv.reads live (List.getElem_mem high) ownJ
        have standsI := inv.stands name (id, task) live _ producerI carriesI
        have standsJ := inv.stands name (id, task) live _ producerJ carriesJ
        have one : a = b := by
          have inA := (mem_tail _ _ _ _ _).mp (readI a heldI).1
          have inB := (mem_tail _ _ _ _ _).mp (readJ b heldJ).1
          exact tail_place
            ((mem_tail _ _ _ s.catalog.visible _).mpr ⟨inA.1, inA.2.1.trans standsI.within, inA.2.2⟩)
            ((mem_tail _ _ _ s.catalog.visible _).mpr ⟨inB.1, inB.2.1.trans standsJ.within, inB.2.2⟩)
            same.symm
        subst one
        have shards : s.committed[i].shard = s.committed[j].shard :=
          (readI a heldI).2.symm.trans (readJ a heldJ).2
        -- both are of one shard, whose runs' rows are its rows, each once
        have bound := (List.getElem?_eq_some_iff.mp carriesI).1
        rw [producers_length] at bound
        have nodup : (s.inputsOf id s.committed[i].shard).Nodup :=
          ((List.Nodup.of_map _ (tail_nodup s.log task.source 0 _)).sublist
            (shardRows_sublist standsI.read))
        unfold State.inputsOf at nodup
        rw [List.nodup_flatMap, List.pairwise_filter, List.pairwise_iff_getElem] at nodup
        have apart := nodup.2 i j low high before (by simp [ownI]) (by simp [ownJ, shards])
        exact apart heldI heldJ
      · cases inJ
    · cases inI
  · refine ⟨run, committed, ?_⟩
    unfold Run.placesOf
    rw [if_pos own]
    exact List.mem_map_of_mem held

theorem Inv.rounded (inv : Inv hash s) (live : s.catalog.tasks.lookup name = some (id, task))
    {row : Row ρ} {shard : Nat} {producer : String}
    (carries : (producers name task)[shard]? = some producer)
    (mine : task.shardOf hash row = shard)
    (inside : row ∈ tail s.log task.source 0 s.catalog.visible) (out : List ρ) (number : Nat)
    (next : s.catalog.visible < number) : (s.rounded hash name shard out number).Once id row := by
  have stands := inv.stands name (id, task) live shard producer carries
  have current : s.copies[s.past.length]? = some s.catalog := by
    unfold State.copies
    rw [List.getElem?_append_right (Nat.le_refl _), Nat.sub_self]
    rfl
  have allows : s.Allows (.round s.catalog.visible s.past.length s.past.length name shard out) := by
    refine ⟨Nat.le_refl _, ?_, ?_⟩
    · exact (List.getElem?_eq_some_iff.mp current).1
    · intro copy found
      rw [current] at found
      rw [← Option.some.inj found]
  have inv₁ := inv.round _ _ _ _ _ _ allows
  have read : s.next hash (.round s.catalog.visible s.past.length s.past.length name shard out) =
      { s with runs := s.runs ++
        (s.round hash s.catalog.visible s.catalog s.catalog name shard out).toList } := by
    unfold State.next
    dsimp only
    rw [current]
  unfold State.rounded
  rw [Machine.run_cons, Machine.run_cons, Machine.run_nil]
  show (State.next hash (s.next hash (.round s.catalog.visible s.past.length s.past.length name
    shard out)) (.append s.runs.length number false)).Once id row
  rw [read] at inv₁ ⊢
  cases made : s.round hash s.catalog.visible s.catalog s.catalog name shard out with
  | none =>
    rw [made] at inv₁
    rw [Option.toList_none, List.append_nil] at inv₁ ⊢
    have nothing : State.next hash s (.append s.runs.length number false) = s := by
      unfold State.next
      dsimp only
      rw [List.getElem?_eq_none (Nat.le_refl _)]
    show (State.next hash s _).Once id row
    rw [nothing]
    apply inv.once live carries mine inside
    -- nothing new: the row is read already
    unfold State.round at made
    rw [live, Option.bind_some] at made
    dsimp only at made
    rw [carries, Option.bind_some] at made
    split at made
    · rename_i caught
      exact ((mem_tail _ _ _ _ _).mp inside).2.1.trans caught
    split at made
    · rename_i empty
      by_contra beyond
      have among : row ∈ tail s.log task.source (s.catalog.mark producer) s.catalog.visible := by
        rw [mem_tail] at inside ⊢
        exact ⟨by omega, inside.2⟩
      rw [empty] at among
      cases among
    · rw [Option.map_eq_none_iff] at made
      have shards := inv.proper _ (List.mem_of_getElem? (inv.known live))
      unfold Task.shardRows at made
      split at made
      · rename_i several
        exact absurd (Option.map_eq_none_iff.mp made) (shards.2 several)
      · cases made
  | some run =>
    rw [made] at inv₁
    rw [Option.toList_some] at inv₁ ⊢
    obtain ⟨entry, found, task', shard', hwm, done, of⟩ := round_of inv (catalog_mem s)
      (Nat.le_refl _) made
    rw [live] at found
    obtain rfl := Option.some.inj found
    have carried : run.producer = producer := by
      have own := of.carries
      rw [shard', carries] at own
      exact (Option.some.inj own).symm
    generalize middle : ({ s with runs := s.runs ++ [run] } : State ρ) = s₁ at inv₁ ⊢
    have same : s₁.catalog = s.catalog := by rw [← middle]
    have seqOf : s₁.seqOf = s.seqOf := by rw [← middle]; rfl
    have found : s₁.runs[s.runs.length]? = some run := by
      rw [← middle]
      show (s.runs ++ [run])[s.runs.length]? = some run
      rw [List.getElem?_append_right (Nat.le_refl _), Nat.sub_self]
      rfl
    have taken : s₁.Takes run := by
      have fresh := of.fresh
      rw [done, carried] at fresh
      unfold State.Takes
      rw [seqOf, carried, stands.agreed, done, carried]
      exact ⟨fresh, rfl⟩
    have took : State.next hash s₁ (.append s.runs.length number false) = s₁.take run number := by
      unfold State.next
      dsimp only
      rw [found]
      exact if_pos ⟨rfl, taken⟩
    show (State.next hash s₁ _).Once id row
    rw [took]
    have inv₂ := inv₁.take run number (List.mem_of_getElem? found) taken (same ▸ next) (by
      intro x among also
      rw [same] at among
      have other := AList.mem_lookup_iff.mpr among
      rw [carried] at also
      have one := inv.alone name x.1 (id, task) x.2 live other producer
        (List.mem_of_getElem? carries) also
      rw [← one, live] at other
      rw [← Option.some.inj other, task'])
    have later : Later s (s₁.take run number) := by
      apply Later.of_insert next
      · rfl
      · rw [← middle]
        rfl
      · rw [← middle]
        rfl
    apply inv₂.once _ carries mine
    · rw [mem_tail]
      have within := (mem_tail _ _ _ _ _).mp inside
      refine ⟨within.1, within.2.1.trans later.visible, ?_⟩
      have kept := later.tails task.source 0 s.catalog.visible (Nat.le_refl _)
      rw [← kept, mem_tail] at inside
      exact inside.2.2
    · rw [mark_take, if_pos carried.symm, hwm]
      exact ((mem_tail _ _ _ _ _).mp inside).2.1
    · show s₁.catalog.tasks.lookup name = some (id, task)
      rw [same]
      exact live

theorem Inv.readsOnce (inv : Inv hash s) : ReadsOnce hash s where
  once name id task live row inside := by
    have proper := inv.proper _ (List.mem_of_getElem? (inv.known live))
    have bound : task.shardOf hash row < (producers name task).length := by
      rw [producers_length]
      exact shardOf_lt hash row proper.1
    have carries := List.getElem?_eq_getElem bound
    refine ⟨task.shardOf hash row, _, carries, ?_, ?_, ?_, ?_⟩
    · intro run committed held
      unfold Run.placesOf at held
      split at held
      · rename_i mine
        obtain ⟨r, among, same⟩ := List.mem_map.mp held
        obtain ⟨producer, carries', reads⟩ := inv.reads live committed mine
        have stands := inv.stands name (id, task) live _ producer carries'
        have within := (mem_tail _ _ _ _ _).mp (reads r among).1
        have one := tail_place ((mem_tail _ _ _ s.catalog.visible _).mpr
          ⟨within.1, within.2.1.trans stands.within, within.2.2⟩) inside same
        rw [← one, (reads r among).2]
      · cases held
    · exact inv.once live carries rfl inside
    · intro beyond run committed held
      unfold Run.placesOf at held
      split at held
      · rename_i mine
        obtain ⟨r, among, same⟩ := List.mem_map.mp held
        obtain ⟨producer, carries', reads⟩ := inv.reads live committed mine
        have stands := inv.stands name (id, task) live _ producer carries'
        have within := (mem_tail _ _ _ _ _).mp (reads r among).1
        have one := tail_place ((mem_tail _ _ _ s.catalog.visible _).mpr
          ⟨within.1, within.2.1.trans stands.within, within.2.2⟩) inside same
        subst one
        have shards := (reads r among).2
        rw [← shards, carries] at carries'
        rw [Option.some.inj carries'] at beyond
        omega
      · cases held
    · exact fun out number next => inv.rounded live carries rfl inside out number next

end once

/-- Over every run (commits to any tables, tasks made and dropped, rounds of any shards on nodes with any
copies, appends in any order, sent again or never, and leaders that change) whose steps meet the condition,
each task there is reads each row of its source once, from its own start on. -/
theorem run_readsOnce (ops : List (Op ρ)) (legal : ((machine hash).only Sure).Legal (start ρ) ops) :
    ReadsOnce hash ((machine hash).run (start ρ) ops) := by
  have inv := Machine.run_invariant ((machine hash).only Sure) (Inv hash)
    (fun s op inv allowed => inv.next op allowed.1 allowed.2) (start ρ) ops inv_start legal
  exact inv.readsOnce

section traces

instance decidableAllows (s : State ρ) (op : Op ρ) : Decidable (s.Allows op) :=
  match op with
  | .write number _ => inferInstanceAs (Decidable (s.catalog.visible < number))
  | .append _ number _ => inferInstanceAs (Decidable (s.catalog.visible < number))
  | .round hwm scanned looked _ _ _ => inferInstanceAs (Decidable (scanned ≤ looked ∧
      looked < s.copies.length ∧ ∀ copy ∈ s.copies[scanned]?, hwm ≤ copy.visible))
  | .create _ _ => inferInstanceAs (Decidable True)
  | .drop _ => inferInstanceAs (Decidable True)
  | .stop _ => inferInstanceAs (Decidable True)
  | .lead => inferInstanceAs (Decidable True)

instance decidableSure (s : State ρ) (op : Op ρ) : Decidable (Sure s op) :=
  match op with
  | .create name task => inferInstanceAs (Decidable (0 < task.shards ∧
      ∀ producer ∈ producers name task, s.catalog.mark producer = 0 ∧ s.seqOf producer = 0 ∧
        ∀ x ∈ s.catalog.tasks.entries, producer ∈ producers x.1 x.2.2 → x.1 = name))
  | .append i _ refused => inferInstanceAs (Decidable (∀ run ∈ s.runs[i]?, refused = false →
      s.Takes run → ∀ x ∈ s.catalog.tasks.entries, run.producer ∈ producers x.1 x.2.2 →
        x.2.1 = run.task))
  | .write _ _ => inferInstanceAs (Decidable True)
  | .round _ _ _ _ _ _ => inferInstanceAs (Decidable True)
  | .drop _ => inferInstanceAs (Decidable True)
  | .stop _ => inferInstanceAs (Decidable True)
  | .lead => inferInstanceAs (Decidable True)

instance (s : State ρ) (op : Op ρ) : Decidable ((machine hash).Allows s op) := decidableAllows s op

instance (s : State ρ) (op : Op ρ) : Decidable (((machine hash).only Sure).Allows s op) :=
  inferInstanceAs (Decidable (s.Allows op ∧ Sure s op))

/-- Rows that are numbers, each its own hash. -/
def plain (_ : String) (row : Nat) : Nat := row

def halves : Task := ⟨"t", "o", 2, some "n"⟩

def whole : Task := ⟨"t", "o", 1, none⟩

def rowsOf (rows : List Nat) : Segment Nat := (∅ : Segment Nat).insert "t" rows

/-- Two shards, a run sent twice, one that is too late, and another leader before the last. -/
def shared : List (Op Nat) :=
  [.create "a" halves, .write 1 (rowsOf [1, 2, 3]), .round 1 2 2 "a" 0 [20], .append 0 2 false,
    .round 1 2 2 "a" 1 [], .append 0 3 false, .write 4 (rowsOf [5]), .append 1 5 false, .lead,
    .round 5 5 5 "a" 1 [50], .append 2 6 false]

theorem shared_legal : ((machine plain).only Sure).Legal (start Nat) shared := by
  decide +kernel

/-- Each shard's runs read its rows. -/
theorem shared_reads : ReadsOnce plain ((machine plain).run (start Nat) shared) ∧
    ((machine plain).run (start Nat) shared).inputsOf 0 0 = [((1, 1), 2)] ∧
    ((machine plain).run (start Nat) shared).inputsOf 0 1 = [((1, 0), 1), ((1, 2), 3), ((4, 0), 5)] :=
  ⟨run_readsOnce plain shared shared_legal, by decide +kernel, by decide +kernel⟩

/-- A task dropped and made again, under the sequencer that committed its runs. -/
def remade : List (Op Nat) :=
  [.create "a" whole, .write 1 (rowsOf [1]), .round 1 2 2 "a" 0 [10], .append 0 2 false, .drop "a",
    .create "a" whole, .write 3 (rowsOf [2])]

/-- A task dropped while a run of it is under way, and made again under another leader. -/
def outlived : List (Op Nat) :=
  [.create "a" whole, .write 1 (rowsOf [1]), .round 1 2 2 "a" 0 [10], .drop "a", .append 0 2 false,
    .lead, .create "a" whole]

/-- A task of no shard. -/
def shardless : List (Op Nat) := [.create "a" ⟨"t", "o", 0, none⟩, .write 1 (rowsOf [1])]

/-- A task made again is refused each of its runs, for what the sequencer remembers of the one before; one
made after a run outlived its task starts past rows it never reads; and a task may have no shard at all. -/
theorem remade_misses :
    ((machine plain).Legal (start Nat) remade ∧
      ¬ ReadsOnce plain ((machine plain).run (start Nat) remade)) ∧
    ((machine plain).Legal (start Nat) outlived ∧
      ¬ ReadsOnce plain ((machine plain).run (start Nat) outlived)) ∧
    ((machine plain).Legal (start Nat) shardless ∧
      ¬ ReadsOnce plain ((machine plain).run (start Nat) shardless)) := by
  have only (shard : Nat) (producer : String)
      (carries : (producers "a" whole)[shard]? = some producer) :
      shard = 0 ∧ producer = "task:a" := by
    have bound : shard < 1 := (List.getElem?_eq_some_iff.mp carries).1
    have first : shard = 0 := by omega
    subst first
    exact ⟨rfl, (Option.some.inj carries).symm⟩
  refine ⟨⟨by decide +kernel, fun reads => ?_⟩, ⟨by decide +kernel, fun reads => ?_⟩,
    ⟨by decide +kernel, fun reads => ?_⟩⟩
  · obtain ⟨shard, producer, carries, _, _, _, next⟩ := reads.once "a" 1 whole (by decide +kernel)
      ((3, 0), 2) (by decide +kernel)
    obtain ⟨rfl, rfl⟩ := only shard producer carries
    obtain ⟨before, run, after, split, count, _⟩ := next [20] 4 (by decide +kernel)
    have none : ∀ run ∈ (((machine plain).run (start Nat) remade).rounded plain "a" 0 [20]
        4).committed, run.placesOf 1 = [] := by decide +kernel
    rw [none run (split ▸ List.mem_append_right _ List.mem_cons_self)] at count
    cases count
  · obtain ⟨shard, producer, carries, _, read, _⟩ := reads.once "a" 1 whole (by decide +kernel)
      ((1, 0), 1) (by decide +kernel)
    obtain ⟨rfl, rfl⟩ := only shard producer carries
    obtain ⟨before, run, after, split, count, _⟩ := read (by decide +kernel)
    have none : ∀ run ∈ ((machine plain).run (start Nat) outlived).committed,
        run.placesOf 1 = [] := by decide +kernel
    rw [none run (split ▸ List.mem_append_right _ List.mem_cons_self)] at count
    cases count
  · obtain ⟨shard, producer, carries, _⟩ := reads.once "a" 0 ⟨"t", "o", 0, none⟩ (by decide +kernel)
      ((1, 0), 1) (by decide +kernel)
    cases carries

end traces

end Pondra.Tasks
