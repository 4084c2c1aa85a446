import Pondra.Replica.Kept

set_option autoImplicit false

namespace Pondra.Replica

open Machines

variable {stream : Stream}

namespace Node

def empty : Node := ⟨.empty, fun _ => none, fun _ _ => false, fun _ _ => false, 0⟩

section parts

variable (node : Node) (term id : Nat) (aged : Bool)

@[simp] theorem turn_run : (node.turn term aged).st.run = node.st.run := by
  rcases rotate_cases { node.st with seen := term } term aged with ⟨same, _⟩ | ⟨_, _, closed⟩
  · rw [turn, same]
  · rw [turn, closed]
    rfl

theorem openFile_cases :
    (∃ o, node.st.opened = some o ∧ node.openFile term id = node) ∨
      (node.st.opened = none ∧ node.openFile term id =
        { node with
          st := { node.st with opened := some ⟨(term, id), term, 0⟩ }
          disk := Function.update node.disk (term, id) (some []) }) := by
  unfold openFile
  cases node.st.opened with
  | none => exact .inr ⟨rfl, rfl⟩
  | some o => exact .inl ⟨o, rfl, rfl⟩

@[simp] theorem openFile_run : (node.openFile term id).st.run = node.st.run := by
  rcases openFile_cases node term id with ⟨_, _, same⟩ | ⟨_, new⟩
  · rw [same]
  · rw [new]

@[simp] theorem openFile_runTerm : (node.openFile term id).runTerm = node.runTerm := by
  rcases openFile_cases node term id with ⟨_, _, same⟩ | ⟨_, new⟩
  · rw [same]
  · rw [new]

@[simp] theorem openFile_seen : (node.openFile term id).st.seen = node.st.seen := by
  rcases openFile_cases node term id with ⟨_, _, same⟩ | ⟨_, new⟩
  · rw [same]
  · rw [new]

theorem openFile_owes {t i : Nat} : (node.openFile term id).Owes t i ↔ node.Owes t i := by
  rcases openFile_cases node term id with ⟨_, _, same⟩ | ⟨_, new⟩
  · rw [same]
  · rw [new]
    rfl

theorem retainFiles_owes {t i : Nat} (drops : Path × Nat × Nat → Bool) (stuck : List Path) :
    (node.retainFiles drops stuck).Owes t i ↔ node.Owes t i := by
  rw [retainFiles]
  rfl

end parts

end Node

/-- The ways a `hold` ends. -/
inductive Held (node : Node) (term : Nat) (d : Delta) (writing : Writing) :
    Node × Option (Nat × Nat) → Prop where
  | refused (older : term < node.st.seen) : Held node term d writing (node, none)
  | uncreated (known : node.st.seen ≤ term) :
    Held node term d writing (node.turn term writing.aged, none)
  | torn (o : OpenFile) (written : Nat) (known : node.st.seen ≤ term)
    (writes : (node.turn term writing.aged).st.opened.isSome ∨ writing.created = true)
    (opened : ((node.turn term writing.aged).openFile term d.id).st.opened = some o) :
    Held node term d writing
      (((node.turn term writing.aged).openFile term d.id).append o.path
        ((record term d).take written), none)
  | noted (o : OpenFile) (known : node.st.seen ≤ term)
    (writes : (node.turn term writing.aged).st.opened.isSome ∨ writing.created = true)
    (opened : ((node.turn term writing.aged).openFile term d.id).st.opened = some o)
    (whole : writing.cut = none) (after : Node)
    (same : after = (((node.turn term writing.aged).openFile term d.id).append o.path
      (record term d)).note o term d) :
    Held node term d writing (after, some after.st.run)

theorem hold_cases (node : Node) (term : Nat) (d : Delta) (writing : Writing) :
    Held node term d writing (node.hold term d writing) := by
  unfold Node.hold
  split
  · rename_i older
    exact .refused older
  · rename_i newer
    have known : node.st.seen ≤ term := by omega
    simp only
    split
    · exact .uncreated known
    · rename_i can
      have writes : (node.turn term writing.aged).st.opened.isSome ∨ writing.created = true := by
        cases opened : (node.turn term writing.aged).st.opened with
        | none => right; simpa [opened] using can
        | some o => exact .inl rfl
      split
      · rename_i closed
        rcases Node.openFile_cases (node.turn term writing.aged) term d.id with
          ⟨o, before, same⟩ | ⟨_, new⟩
        · rw [same, before] at closed
          cases closed
        · rw [new] at closed
          cases closed
      · rename_i o written opened _
        exact .torn o written known writes opened
      · rename_i o opened whole
        exact .noted o known writes opened whole _ rfl

/-- When a `hold` that writes is sure: the frame's length fits its four bytes, the run it extends was
held in this term, the file it creates isn't there yet, the file it appends to has no torn write, and
no copy of this change that is still owed is another term's. -/
structure SureHold (stream : Stream) (node : Node) (term id : Nat) (writing : Writing) : Prop where
  fits : stream.Fits term id
  joins : writing.cut = none → 0 < node.st.run.2 → id = (node.st.run.2 + 1) % 2 ^ 64 →
    node.runTerm = term
  fresh : (node.turn term writing.aged).st.opened = none → node.disk (term, id) = none
  clean : ∀ o bytes, (node.turn term writing.aged).st.opened = some o →
    node.disk o.path = some bytes → leftover bytes.length bytes = []
  owed : ∀ t, node.Owes t id → t = term

inductive Op where
  | hold (term id : Nat) (writing : Writing)
  | prune (id : Nat) (stuck : List Path)
  | start (term : Nat) (stuck : List Path)
  | serve (term after : Nat)
  | crash (order : List Path)

/-- The operations on a follower's log. The numbers are u64, and a restart lists every file once. -/
def replicaLog (stream : Stream) : Machine Node Op where
  next node
    | .hold term id writing => (node.hold term (stream.delta term id) writing).1
    | .prune id stuck => node.prune id stuck
    | .start term stuck => node.start term stuck
    | .serve term after => (node.serve term after).1
    | .crash order => node.crash order
  Allows node
    | .hold term id _ => term < 2 ^ 64 ∧ id < 2 ^ 64
    | .prune id _ => id < 2 ^ 64
    | .start term _ => term < 2 ^ 64
    | .serve term after => term < 2 ^ 64 ∧ after < 2 ^ 64
    | .crash order => Lists node.disk order

def Sure (stream : Stream) (node : Node) : Op → Prop
  | .hold term id writing =>
    node.st.seen ≤ term →
      ((node.turn term writing.aged).st.opened.isSome ∨ writing.created = true) →
        SureHold stream node term id writing
  | _ => True

section steps

variable {node : Node} {ids : Path → List Nat}

theorem Stored.hold {term id : Nat} {writing : Writing} (stored : Stored stream node ids)
    (sure : Sure stream node (.hold term id writing)) :
    ∃ ids', Stored stream (node.hold term (stream.delta term id) writing).1 ids' := by
  -- a write into the file that is open once `hold` has made one
  have write : ∀ o (written : Nat), (known : node.st.seen ≤ term) →
      (writes : (node.turn term writing.aged).st.opened.isSome ∨ writing.created = true) →
      ((node.turn term writing.aged).openFile term id).st.opened = some o →
      ∃ ids', Stored stream (((node.turn term writing.aged).openFile term id).append o.path
        ((stream.record term id).take written)) ids' ∧
        ((stream.record term id).length ≤ written → id ∈ ids' o.path) := by
    intro o written known writes opened
    have sure := sure known writes
    have ready : Stored stream ((node.turn term writing.aged).openFile term id) ids :=
      (stored.turn writing.aged known).openFile sure.fresh
    refine ready.append opened (openFile_opened (fun _ => turn_opened) opened) ?_ sure.fits written
      ?_ (fun t owes => sure.owed t ((Node.openFile_owes (node.turn term writing.aged) term id).mp owes))
    · rw [Node.openFile_seen, turn_seen]
    · intro bytes found
      rcases Node.openFile_cases (node.turn term writing.aged) term id with
        ⟨other, before, same⟩ | ⟨_, new⟩
      · rw [same] at opened found
        exact sure.clean o bytes opened found
      · rw [new] at opened found
        cases opened
        simp only [Function.update_self, Option.some.injEq] at found
        rw [← found]
        rfl
  have ends := hold_cases node term (stream.delta term id) writing
  generalize node.hold term (stream.delta term id) writing = result at ends ⊢
  cases ends with
  | refused older => exact ⟨ids, stored⟩
  | uncreated known => exact ⟨ids, stored.turn writing.aged known⟩
  | torn o written known writes opened =>
    obtain ⟨ids', still, _⟩ := write o written known writes opened
    exact ⟨ids', still⟩
  | noted o known writes opened whole after same =>
    obtain ⟨ids', still, inside⟩ := write o (stream.record term id).length known writes opened
    rw [List.take_length] at still
    have sure := sure known writes
    rw [same]
    refine ⟨ids', still.note opened (openFile_opened (fun _ => turn_opened) opened) ?_
      (inside (Nat.le_refl _)) ?_ ?_⟩
    · exact (Node.openFile_seen (node.turn term writing.aged) term id).trans (turn_seen _ _)
    · intro positive next
      simp only [Node.append, Node.openFile_run, Node.turn_run] at positive next
      exact (Node.openFile_runTerm (node.turn term writing.aged) term id).trans
        (sure.joins whole positive next)
    · exact fun t owes =>
        sure.owed t ((Node.openFile_owes (node.turn term writing.aged) term id).mp owes)

theorem Stored.crash (stored : Stored stream node ids) {order : List Path}
    (lists : Lists node.disk order) : Stored stream (node.crash order) ids := by
  have loaded := reload_spec stored.onDisk order
  have there : ∀ path, ids path ≠ [] → path ∈ order := by
    intro path some
    rw [lists.2 path]
    cases found : node.disk path with
    | none => exact absurd (stored.onDisk.absent path found) some
    | some bytes => rfl
  refine ⟨stored.onDisk, fun path some => loaded.seen path (there path some) some, ?_, ?_, ?_,
    stored.newest, ?_, ?_, ?_, ?_⟩
  · exact loaded.within (by intro i copy found; simp [State.empty] at found)
  · exact fun term id owes => stored.kept.found term id order owes lists
  · intro term id owes
    obtain ⟨path, same, inside, _⟩ := stored.stored term id owes
    refine ⟨path, same, inside, .inr ⟨(ids path).foldl max 0, ?_, mem_le_foldl_max inside 0⟩⟩
    have some := List.ne_nil_of_mem inside
    have listed : path ∈ (State.reload node.disk order).files.map (·.1) := by
      rw [loaded.paths]
      exact there path some
    obtain ⟨file, holds, named⟩ := List.mem_map.mp listed
    have whole : file = (path, path.1, (ids path).foldl max 0) := by
      rcases loaded.files file holds with old | read
      · simp [State.empty] at old
      · have rest := read (named ▸ some)
        rw [named] at rest
        exact Prod.ext named rest
    exact whole ▸ holds
  · intro o isOpen
    have none : (State.reload node.disk order).opened = none := loaded.opened
    rw [show (State.reload node.disk order).opened = some o from isOpen] at none
    cases none
  · show ((State.reload node.disk order).files.map (·.1)).Nodup
    rw [loaded.paths]
    exact lists.1
  · intro file inside
    apply (lists.2 file.1).mp
    have : file.1 ∈ (State.reload node.disk order).files.map (·.1) := List.mem_map_of_mem inside
    rwa [loaded.paths] at this
  · intro id positive
    rw [show (node.crash order).st.run = (0, 0) from loaded.run] at positive
    simp at positive

theorem stored_empty : Stored stream .empty fun _ => [] := by
  refine ⟨⟨?_, fun _ _ => rfl⟩, ?_, ?_, ?_, ?_, ?_, ?_, List.nodup_nil, ?_, ?_⟩ <;>
    simp [Node.empty, State.empty, Node.Owes, Within]

theorem next_stored {op : Op} (stored : ∃ ids, Stored stream node ids)
    (allowed : (replicaLog stream).Allows node op) (sure : Sure stream node op) :
    ∃ ids, Stored stream ((replicaLog stream).next node op) ids := by
  obtain ⟨ids, stored⟩ := stored
  cases op with
  | hold term id writing => exact stored.hold sure
  | prune id stuck => exact stored.prune id stuck
  | start term stuck => exact stored.start term stuck
  | serve term after => exact ⟨ids, stored.serve term after⟩
  | crash order => exact ⟨ids, stored.crash allowed⟩

end steps

/-- The answer of a `hold` is acknowledged, every change of it. -/
theorem hold_acked {node : Node} {term : Nat} {d : Delta} {writing : Writing} {first last : Nat}
    (answer : (node.hold term d writing).2 = some (first, last)) {i : Nat} (above : first ≤ i)
    (below : i ≤ last) : (node.hold term d writing).1.acked term i = true := by
  have ends := hold_cases node term d writing
  generalize node.hold term d writing = result at answer ends ⊢
  cases ends with
  | refused older => cases answer
  | uncreated known => cases answer
  | torn o written known writes opened => cases answer
  | noted o known writes opened whole after same =>
    simp only [Option.some.injEq] at answer
    rw [same] at answer ⊢
    simp only [Node.note] at answer ⊢
    rw [answer]
    simp [above, below]

/-- The operations that may remove a change: `prune` of an id at or above it, `start` of a newer
term. -/
def Op.Covers (term id : Nat) : Op → Prop
  | .prune through _ => id ≤ through
  | .start newer _ => term < newer
  | _ => False

theorem next_owes {node : Node} {op : Op} {term id : Nat} (owes : node.Owes term id)
    (uncovered : ¬ op.Covers term id) : ((replicaLog stream).next node op).Owes term id := by
  obtain ⟨acked, held⟩ := owes
  cases op with
  | hold t i writing =>
    have ends := hold_cases node t (stream.delta t i) writing
    show (node.hold t (stream.delta t i) writing).1.Owes term id
    generalize node.hold t (stream.delta t i) writing = result at ends ⊢
    have opened := (Node.openFile_owes (t := term) (i := id) (node.turn t writing.aged) t i).mpr
      ⟨acked, held⟩
    cases ends with
    | refused older => exact ⟨acked, held⟩
    | uncreated known => exact ⟨acked, held⟩
    | torn o written known writes _ => exact opened
    | noted o known writes _ whole after same =>
      rw [same]
      have acked : (Node.openFile (node.turn t writing.aged) t i).acked term id = true := opened.1
      have held : (Node.openFile (node.turn t writing.aged) t i).letGo term id = false := opened.2
      exact ⟨by simp [Node.note, Node.append, Stream.delta, acked],
        by simp [Node.note, Node.append, Stream.delta, held]⟩
  | prune through stuck =>
    apply (Node.retainFiles_owes _ _ _).mpr
    refine ⟨acked, ?_⟩
    have above : ¬ id ≤ through := uncovered
    simp [held]
    omega
  | start newer stuck =>
    apply (Node.retainFiles_owes _ _ _).mpr
    refine ⟨acked, ?_⟩
    have above : ¬ term < newer := uncovered
    simp [held]
    omega
  | serve term after => exact ⟨acked, held⟩
  | crash order => exact ⟨acked, held⟩

theorem run_owes {node : Node} {ops : List Op} {term id : Nat} (owes : node.Owes term id)
    (uncovered : ∀ op ∈ ops, ¬ op.Covers term id) :
    ((replicaLog stream).run node ops).Owes term id := by
  induction ops generalizing node with
  | nil => exact owes
  | cons op rest ih =>
    rw [Machine.run_cons]
    exact ih (next_owes owes (uncovered op List.mem_cons_self))
      (fun other inside => uncovered other (List.mem_cons_of_mem _ inside))

theorem run_stored (stream : Stream) (ops : List Op)
    (legal : ((replicaLog stream).only (Sure stream)).Legal .empty ops) :
    ∃ ids, Stored stream ((replicaLog stream).run .empty ops) ids :=
  ((replicaLog stream).only (Sure stream)).run_invariant (fun node => ∃ ids, Stored stream node ids)
    (fun _ _ stored allowed => next_stored stored allowed.1 allowed.2)
    .empty ops ⟨_, stored_empty⟩ legal

/-- In a run whose every `hold` is sure, each change of a run that `hold` answers is kept, in memory
and should the follower crash, until a `prune` or a newer term covers it. -/
theorem run_kept (stream : Stream) (before after : List Op) (term id : Nat) (writing : Writing)
    (first last i : Nat)
    (legal : ((replicaLog stream).only (Sure stream)).Legal .empty
      (before ++ .hold term id writing :: after))
    (answer : (((replicaLog stream).run .empty before).hold term (stream.delta term id)
      writing).2 = some (first, last))
    (above : first ≤ i) (below : i ≤ last)
    (uncovered : ((replicaLog stream).run .empty (before ++ [.hold term id writing])).letGo term i =
      false)
    (since : ∀ op ∈ after, ¬ op.Covers term i) :
    let node := (replicaLog stream).run .empty (before ++ .hold term id writing :: after)
    node.st.held[i]? = some (term, stream.frame term i) ∧
      ∀ order, Lists node.disk order →
        (State.reload node.disk order).held[i]? = some (term, stream.frame term i) := by
  intro node
  have owes : ((replicaLog stream).run .empty (before ++ [.hold term id writing])).Owes term i := by
    refine ⟨?_, uncovered⟩
    rw [Machine.run_append]
    exact hold_acked answer above below
  have still : node.Owes term i := by
    have later : ((replicaLog stream).run _ after).Owes term i := run_owes owes since
    rwa [← Machine.run_append, List.append_assoc, List.singleton_append] at later
  obtain ⟨ids, stored⟩ := run_stored stream _ legal
  exact ⟨stored.held term i still, fun order lists => stored.kept.found term i order still lists⟩

/-- A stream of changes that put and delete nothing. -/
def plain : Stream := fun _ _ => ([], [])

/-- A write that ends well, in a file less than 2 s old. -/
def whole : Writing := ⟨false, true, none⟩

/-- Changes 5 and 6 streamed in one term, and a crash: both are kept. -/
theorem run_kept_two :
    let node := (replicaLog plain).run .empty [.hold 1 5 whole, .hold 1 6 whole]
    node.st.held[5]? = some (1, plain.frame 1 5) ∧
      ∀ order, Lists node.disk order →
        (State.reload node.disk order).held[5]? = some (1, plain.frame 1 5) := by
  refine run_kept plain [.hold 1 5 whole] [] 1 6 whole 5 6 5 ?_ (by decide) (by decide) (by decide)
    (by decide) (by simp)
  refine ⟨⟨⟨by decide, by decide⟩, fun _ _ => ⟨⟨by decide, by decide, by decide⟩, ?_, fun _ => rfl,
      ?_, ?_⟩⟩,
    ⟨⟨by decide, by decide⟩, fun _ _ => ⟨⟨by decide, by decide, by decide⟩, fun _ _ _ => rfl, ?_,
      ?_, ?_⟩⟩, trivial⟩
  · intro _ positive
    cases positive
  · intro o bytes opened
    cases opened
  · intro t owes
    cases owes.1
  · intro closed
    cases closed
  · intro o bytes opened found
    cases opened
    cases found
    decide
  · intro t owes
    have acked : (decide (t = 1) && decide (5 ≤ 6) && decide (6 ≤ 5)) = true := owes.1
    simp at acked

/-- The run outlives the term it was held in: after `start` of term 2, change 6 of that term is
answered with change 5, which the follower has never seen in it. -/
theorem startedRun_acked :
    (replicaLog plain).Legal .empty [.hold 1 5 whole, .start 2 [], .hold 2 6 whole] ∧
      (((replicaLog plain).run .empty [.hold 1 5 whole, .start 2 []]).hold 2 (plain.delta 2 6)
        whole).2 = some (5, 6) ∧
      ((replicaLog plain).run .empty
        [.hold 1 5 whole, .start 2 [], .hold 2 6 whole]).letGo 2 5 = false ∧
      ((replicaLog plain).run .empty
        [.hold 1 5 whole, .start 2 [], .hold 2 6 whole]).st.held[5]? = none := by
  refine ⟨⟨⟨by decide, by decide⟩, (by decide : 2 < 2 ^ 64), ⟨by decide, by decide⟩, trivial⟩,
    by decide, by decide, ?_⟩
  show (keep ((keep ∅ 5 1 _).filter _) 6 2 _)[5]? = none
  rw [keep_other _ _ (by decide), Std.ExtTreeMap.getElem?_filter', keep_self _ (by simp)]
  rfl

end Pondra.Replica
