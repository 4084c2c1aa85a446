import Pondra.Replica.Reload

set_option autoImplicit false

namespace Pondra.Replica

variable {stream : Stream}

namespace Node

/-- The follower acknowledged the change, and no prune or newer term has covered it since. -/
def Owes (node : Node) (term id : Nat) : Prop :=
  node.acked term id = true ∧ node.letGo term id = false

end Node

/-- The file is listed to be deleted only with a change at or above `id`. -/
def State.Guards (st : State) (path : Path) (id : Nat) : Prop :=
  (∃ o, st.opened = some o ∧ o.path = path ∧ id ≤ o.last) ∨
    ∃ last, (path, path.1, last) ∈ st.files ∧ id ≤ last

/-- What holds of a follower between operations, with the changes `ids` that each file's whole
records are of. -/
structure Stored (stream : Stream) (node : Node) (ids : Path → List Nat) : Prop where
  onDisk : OnDisk stream node.disk ids
  known : ∀ path, ids path ≠ [] → path.1 ≤ node.st.seen
  within : Within node.st.held node.st.seen
  held : ∀ term id, node.Owes term id → node.st.held[id]? = some (term, stream.frame term id)
  stored : ∀ term id, node.Owes term id →
    ∃ path, path.1 = term ∧ id ∈ ids path ∧ node.st.Guards path id
  newest : ∀ term id, node.Owes term id → ∀ path, id ∈ ids path → path.1 ≤ term
  opened : ∀ o, node.st.opened = some o →
    (node.disk o.path).isSome ∧ o.path.1 = o.term ∧ ∀ file ∈ node.st.files, file.1 ≠ o.path
  distinct : (node.st.files.map (·.1)).Nodup
  listed : ∀ file ∈ node.st.files, (node.disk file.1).isSome
  run : ∀ id, 0 < node.st.run.2 → node.st.run.1 ≤ id → id ≤ node.st.run.2 →
    node.acked node.runTerm id = true

/-- What a follower acknowledged it has, in memory and, should it crash now, on disk. -/
structure Kept (stream : Stream) (node : Node) : Prop where
  held : ∀ term id, node.Owes term id → node.st.held[id]? = some (term, stream.frame term id)
  found : ∀ term id order, node.Owes term id → Lists node.disk order →
    (State.reload node.disk order).held[id]? = some (term, stream.frame term id)

theorem Stored.kept {node : Node} {ids : Path → List Nat} (stored : Stored stream node ids) :
    Kept stream node := by
  refine ⟨stored.held, ?_⟩
  intro term id order owes lists
  obtain ⟨path, same, inside, _⟩ := stored.stored term id owes
  exact reload_finds stored.onDisk lists same inside (stored.newest term id owes)

section steps

variable {node : Node} {ids : Path → List Nat}

theorem rotate_cases (st : State) (term : Nat) (aged : Bool) :
    (st.rotate term aged = st ∧ ∀ o, st.opened = some o → o.term = term) ∨
      ∃ o, st.opened = some o ∧ st.rotate term aged = st.close o := by
  unfold State.rotate
  cases found : st.opened with
  | none => exact .inl ⟨rfl, by simp⟩
  | some o =>
    by_cases closes : o.term ≠ term || aged
    · exact .inr ⟨o, rfl, by simp only [if_pos closes]⟩
    · refine .inl ⟨by simp only [if_neg closes], ?_⟩
      intro other same
      cases same
      simp only [ne_eq, Bool.or_eq_true, decide_eq_true_eq, not_or, Decidable.not_not] at closes
      exact closes.1

/-- Closing the open file lists it. -/
theorem Stored.close {o : OpenFile} (stored : Stored stream node ids)
    (opened : node.st.opened = some o) :
    Stored stream { node with st := node.st.close o } ids := by
  obtain ⟨there, named, apart⟩ := stored.opened o opened
  refine ⟨stored.onDisk, stored.known, stored.within, stored.held, ?_, stored.newest, ?_, ?_,
    ?_, stored.run⟩
  · intro term id owes
    obtain ⟨path, same, inside, guards⟩ := stored.stored term id owes
    refine ⟨path, same, inside, .inr ?_⟩
    rcases guards with ⟨other, isOpen, at_, below⟩ | ⟨last, listed, below⟩
    · rw [opened] at isOpen
      cases isOpen
      refine ⟨o.last, List.mem_append_right _ ?_, below⟩
      rw [← at_, named]
      exact List.mem_cons_self
    · exact ⟨last, List.mem_append_left _ listed, below⟩
  · intro other isOpen
    cases isOpen
  · show ((node.st.files ++ [(o.path, o.term, o.last)]).map (·.1)).Nodup
    rw [List.map_append, List.nodup_append]
    refine ⟨stored.distinct, by simp, ?_⟩
    intro path old other new
    obtain ⟨file, inside, rfl⟩ := List.mem_map.mp old
    simp only [List.map_cons, List.map_nil, List.mem_singleton] at new
    rw [new]
    exact apart file inside
  · intro file inside
    rcases List.mem_append.mp inside with old | new
    · exact stored.listed file old
    · rw [List.mem_singleton.mp new]
      exact there

theorem Stored.raise {term : Nat} (stored : Stored stream node ids)
    (raised : node.st.seen ≤ term) :
    Stored stream { node with st := { node.st with seen := term } } ids :=
  ⟨stored.onDisk, fun path some => Nat.le_trans (stored.known path some) raised,
    stored.within.mono raised, stored.held, stored.stored, stored.newest, stored.opened,
    stored.distinct, stored.listed, stored.run⟩

theorem Stored.turn {term : Nat} (stored : Stored stream node ids) (aged : Bool)
    (raised : node.st.seen ≤ term) : Stored stream (node.turn term aged) ids := by
  have seen := stored.raise raised
  rcases rotate_cases { node.st with seen := term } term aged with ⟨same, _⟩ | ⟨o, opened, closed⟩
  · rw [Node.turn, same]
    exact seen
  · rw [Node.turn, closed]
    exact seen.close opened

theorem turn_opened {term : Nat} {aged : Bool} {o : OpenFile}
    (opened : (node.turn term aged).st.opened = some o) : o.term = term := by
  rcases rotate_cases { node.st with seen := term } term aged with ⟨same, here⟩ | ⟨_, _, closed⟩
  · rw [Node.turn, same] at opened
    exact here o opened
  · rw [Node.turn, closed] at opened
    cases opened

theorem turn_seen (term : Nat) (aged : Bool) : (node.turn term aged).st.seen = term := by
  rcases rotate_cases { node.st with seen := term } term aged with ⟨same, _⟩ | ⟨_, _, closed⟩
  · rw [Node.turn, same]
  · rw [Node.turn, closed]
    rfl

theorem Stored.openFile {term id : Nat} (stored : Stored stream node ids)
    (fresh : node.st.opened = none → node.disk (term, id) = none) :
    Stored stream (node.openFile term id) ids := by
  cases opened : node.st.opened with
  | some o => simpa only [Node.openFile, opened] using stored
  | none =>
    have absent := fresh opened
    have empty := stored.onDisk.absent _ absent
    simp only [Node.openFile, opened]
    refine ⟨⟨?_, ?_⟩, stored.known, stored.within, stored.held, ?_, stored.newest, ?_,
      stored.distinct, ?_, stored.run⟩
    · intro path bytes found
      simp only at found
      by_cases same : path = (term, id)
      · subst same
        rw [Function.update_self] at found
        cases found
        rw [empty]
        exact ⟨by simp, [], .inl rfl, rfl⟩
      · rw [Function.update_of_ne same] at found
        exact stored.onDisk.whole path bytes found
    · intro path none
      simp only at none
      by_cases same : path = (term, id)
      · rw [same, empty]
      · rw [Function.update_of_ne same] at none
        exact stored.onDisk.absent path none
    · intro t i owes
      obtain ⟨path, same, inside, guards⟩ := stored.stored t i owes
      refine ⟨path, same, inside, ?_⟩
      rcases guards with ⟨o, isOpen, _⟩ | listed
      · rw [opened] at isOpen
        cases isOpen
      · exact .inr listed
    · intro o isOpen
      cases isOpen
      refine ⟨by simp, rfl, ?_⟩
      intro file inside same
      have there := stored.listed file inside
      rw [same, absent] at there
      cases there
    · intro file inside
      have there := stored.listed file inside
      simp only
      by_cases same : file.1 = (term, id)
      · rw [same, Function.update_self]
        rfl
      · rw [Function.update_of_ne same]
        exact there

theorem openFile_opened {term id : Nat} {o : OpenFile}
    (here : ∀ o, node.st.opened = some o → o.term = term)
    (opened : (node.openFile term id).st.opened = some o) : o.term = term := by
  cases before : node.st.opened with
  | some other =>
    simp only [Node.openFile, before] at opened
    exact here o (before.trans (by simpa using opened))
  | none =>
    simp only [Node.openFile, before] at opened
    cases opened
    rfl

/-- A write into the open file, whole or cut short, after whole records only. -/
theorem Stored.append {term id : Nat} {o : OpenFile} (stored : Stored stream node ids)
    (opened : node.st.opened = some o) (here : o.term = term) (seen : node.st.seen = term)
    (fits : stream.Fits term id) (written : Nat)
    (clean : ∀ bytes, node.disk o.path = some bytes → leftover bytes.length bytes = [])
    (owed : ∀ t, node.Owes t id → t = term) :
    ∃ ids', Stored stream (node.append o.path ((stream.record term id).take written)) ids' ∧
      ((stream.record term id).length ≤ written → id ∈ ids' o.path) := by
  obtain ⟨there, named, apart⟩ := stored.opened o opened
  obtain ⟨bytes, found⟩ := Option.isSome_iff_exists.mp there
  obtain ⟨whole, tail, cut, content⟩ := stored.onDisk.whole _ _ found
  have noTail : tail = [] := by
    rw [← leftover_records (ids o.path) tail bytes.length whole cut (by rw [content]), ← content]
    exact clean bytes found
  subst noTail
  rw [List.append_nil] at content
  have same : o.path.1 = term := named.trans here
  set added := if (stream.record term id).length ≤ written then [id] else [] with addedDef
  have appended : ((node.disk o.path).map (· ++ (stream.record term id).take written)) =
      some (bytes ++ (stream.record term id).take written) := by rw [found]; rfl
  refine ⟨Function.update ids o.path (ids o.path ++ added), ⟨⟨?_, ?_⟩, ?_, stored.within,
    stored.held, ?_, ?_, ?_, stored.distinct, ?_, stored.run⟩, ?_⟩
  · intro path content' found'
    by_cases samePath : path = o.path
    · subst samePath
      simp only [Node.append, Function.update_self, appended] at found'
      cases found'
      rw [Function.update_self, content, same]
      by_cases full : (stream.record term id).length ≤ written
      · rw [addedDef, if_pos full, List.take_of_length_le full]
        refine ⟨?_, [], .inl rfl, by simp⟩
        intro other inside
        rcases List.mem_append.mp inside with old | new
        · rw [← same]
          exact whole other old
        · rw [List.mem_singleton.mp new]
          exact fits
      · rw [addedDef, if_neg full, List.append_nil]
        rw [same] at whole
        exact ⟨whole, _, .inr ⟨id, written, fits, by omega, rfl⟩, rfl⟩
    · simp only [Node.append, Function.update_of_ne samePath] at found'
      rw [Function.update_of_ne samePath]
      exact stored.onDisk.whole path content' found'
  · intro path none
    by_cases samePath : path = o.path
    · subst samePath
      simp only [Node.append, Function.update_self, appended] at none
      cases none
    · simp only [Node.append, Function.update_of_ne samePath] at none
      rw [Function.update_of_ne samePath]
      exact stored.onDisk.absent path none
  · intro path some
    by_cases samePath : path = o.path
    · simp only [Node.append, samePath, same, seen]
      exact Nat.le_refl _
    · rw [Function.update_of_ne samePath] at some
      exact stored.known path some
  · intro t i owes
    obtain ⟨path, sameTerm, inside, guards⟩ := stored.stored t i owes
    refine ⟨path, sameTerm, ?_, guards⟩
    by_cases samePath : path = o.path
    · subst samePath
      rw [Function.update_self]
      exact List.mem_append_left _ inside
    · rwa [Function.update_of_ne samePath]
  · intro t i owes path inside
    by_cases samePath : path = o.path
    · subst samePath
      rw [Function.update_self] at inside
      rcases List.mem_append.mp inside with old | new
      · exact stored.newest t i owes _ old
      · have equal : i = id := by
          rw [addedDef] at new
          split at new
          · exact List.mem_singleton.mp new
          · simp at new
        rw [equal] at owes
        rw [owed t owes, same]
    · rw [Function.update_of_ne samePath] at inside
      exact stored.newest t i owes path inside
  · intro other isOpen
    have sameOpen : other = o := by
      rw [show node.st.opened = some other from isOpen] at opened
      exact Option.some.inj opened
    subst sameOpen
    exact ⟨by simp only [Node.append, Function.update_self, appended]; rfl, named, apart⟩
  · intro file inside
    simp only [Node.append, Function.update_of_ne (apart file inside)]
    exact stored.listed file inside
  · intro full
    rw [Function.update_self, addedDef, if_pos full]
    exact List.mem_append_right _ List.mem_cons_self

/-- What is owed after a change is noted: the change, and what was owed before. -/
theorem note_owes {o : OpenFile} {term : Nat} {d : Delta}
    (run : ∀ id, 0 < node.st.run.2 → node.st.run.1 ≤ id → id ≤ node.st.run.2 →
      node.acked node.runTerm id = true)
    (joins : 0 < node.st.run.2 → d.id = (node.st.run.2 + 1) % 2 ^ 64 → node.runTerm = term)
    {t i : Nat} (owes : (node.note o term d).Owes t i) :
    (t = term ∧ i = d.id) ∨ ((t = term → i ≠ d.id) ∧ node.Owes t i) := by
  by_cases both : t = term ∧ i = d.id
  · exact .inl both
  · right
    obtain ⟨acked, letGo⟩ := owes
    have apart : t = term → i ≠ d.id := fun same equal => both ⟨same, equal⟩
    have still : node.letGo t i = false := by
      simp only [Node.note, Bool.and_eq_false_iff, Bool.not_eq_false', Bool.and_eq_true,
        decide_eq_true_eq] at letGo
      exact letGo.resolve_right both
    refine ⟨apart, ?_, still⟩
    simp only [Node.note, Bool.or_eq_true, Bool.and_eq_true, decide_eq_true_eq] at acked
    rcases acked with old | ⟨⟨same, above⟩, below⟩
    · exact old
    · have different := apart same
      unfold extend at above below
      split at above
      · rename_i extends_
        rw [if_pos extends_] at below
        have sameTerm := joins extends_.1 extends_.2
        rw [same, ← sameTerm]
        exact run i extends_.1 above (by have := extends_.2; simp only at below; omega)
      · rename_i restarts
        rw [if_neg restarts] at below
        simp only at above below
        omega

theorem Stored.note {term id : Nat} {o : OpenFile} (stored : Stored stream node ids)
    (opened : node.st.opened = some o) (here : o.term = term) (seen : node.st.seen = term)
    (inside : id ∈ ids o.path)
    (joins : 0 < node.st.run.2 → id = (node.st.run.2 + 1) % 2 ^ 64 → node.runTerm = term)
    (owed : ∀ t, node.Owes t id → t = term) :
    Stored stream (node.note o term (stream.delta term id)) ids := by
  obtain ⟨there, named, apart⟩ := stored.opened o opened
  refine ⟨stored.onDisk, stored.known, ?_, ?_, ?_, ?_, ?_, stored.distinct, stored.listed, ?_⟩
  · exact stored.within.keep (by rw [seen])
  · intro t i owes
    rcases note_owes stored.run joins owes with ⟨rfl, rfl⟩ | ⟨different, before⟩
    · exact keep_self _ fun copy found => seen ▸ stored.within _ copy found
    · have other : i ≠ id := by
        intro same
        rw [same] at before
        exact different (owed t before) same
      rw [← stored.held t i before]
      exact keep_other _ _ other
  · intro t i owes
    rcases note_owes stored.run joins owes with ⟨rfl, rfl⟩ | ⟨_, before⟩
    · exact ⟨o.path, named.trans here, inside, .inl ⟨_, rfl, rfl, Nat.le_max_right _ _⟩⟩
    · obtain ⟨path, same, holds, guards⟩ := stored.stored t i before
      refine ⟨path, same, holds, ?_⟩
      rcases guards with ⟨other, isOpen, at_, below⟩ | listed
      · rw [opened] at isOpen
        cases isOpen
        exact .inl ⟨_, rfl, at_, Nat.le_trans below (Nat.le_max_left _ _)⟩
      · exact .inr listed
  · intro t i owes path holds
    rcases note_owes stored.run joins owes with ⟨rfl, rfl⟩ | ⟨_, before⟩
    · exact seen ▸ stored.known path (List.ne_nil_of_mem holds)
    · exact stored.newest t i before path holds
  · intro other isOpen
    cases isOpen
    exact ⟨there, named, apart⟩
  · intro i _ above below
    simp only [Node.note] at above below ⊢
    simp [above, below]

theorem mem_of_filter {held : Std.ExtTreeMap Nat (Nat × List UInt8)}
    {keeps : Nat → Nat × List UInt8 → Bool} {i : Nat} {copy : Nat × List UInt8}
    (found : (held.filter keeps)[i]? = some copy) : held[i]? = some copy := by
  rw [Std.ExtTreeMap.getElem?_filter'] at found
  exact (Option.filter_eq_some_iff.mp found).1

theorem filter_keeps {held : Std.ExtTreeMap Nat (Nat × List UInt8)}
    {keeps : Nat → Nat × List UInt8 → Bool} {i : Nat} {copy : Nat × List UInt8}
    (found : held[i]? = some copy) (kept : keeps i copy = true) :
    (held.filter keeps)[i]? = some copy := by
  rw [Std.ExtTreeMap.getElem?_filter']
  exact Option.filter_eq_some_iff.mpr ⟨found, kept⟩

/-- What `retain` does: a file is gone only where `drops` says so, and then its name is off the list. -/
structure Retained (drops : Path × Nat × Nat → Bool) (files files' : List (Path × Nat × Nat))
    (disk disk' : Disk) : Prop where
  sub : files'.Sublist files
  spared : ∀ file ∈ files, drops file = false → file ∈ files'
  there : ∀ file ∈ files', disk' file.1 = disk file.1
  gone : ∀ path, disk' path = disk path ∨
    (disk' path = none ∧ ∃ file ∈ files, file.1 = path ∧ drops file = true)

theorem retain_spec (drops : Path × Nat × Nat → Bool) (stuck : List Path)
    (files : List (Path × Nat × Nat)) (disk : Disk) (distinct : (files.map (·.1)).Nodup) :
    Retained drops files (Node.retain drops stuck files disk).1 disk
      (Node.retain drops stuck files disk).2 := by
  induction files generalizing disk with
  | nil => exact ⟨List.Sublist.refl _, by simp, by simp [Node.retain], fun _ => .inl rfl⟩
  | cons file rest ih =>
    rw [List.map_cons, List.nodup_cons] at distinct
    obtain ⟨alone, distinct⟩ := distinct
    have apart : ∀ other ∈ rest, other.1 ≠ file.1 :=
      fun other inside same => alone (List.mem_map.mpr ⟨other, inside, same⟩)
    unfold Node.retain
    split
    · rename_i removed
      simp only [Bool.and_eq_true] at removed
      obtain ⟨⟨drop, _⟩, _⟩ := removed
      have later := ih (Function.update disk file.1 none) distinct
      refine ⟨later.sub.trans (List.sublist_cons_self _ _), ?_, ?_, ?_⟩
      · intro other inside spare
        rcases List.mem_cons.mp inside with rfl | inside
        · rw [drop] at spare
          cases spare
        · exact later.spared other inside spare
      · intro other inside
        rw [later.there other inside, Function.update_of_ne (apart other (later.sub.subset inside))]
      · intro path
        rcases later.gone path with same | ⟨none, other, inside, named, drops⟩
        · by_cases at_ : path = file.1
          · rw [same, at_, Function.update_self]
            exact .inr ⟨rfl, file, List.mem_cons_self, rfl, drop⟩
          · rw [same, Function.update_of_ne at_]
            exact .inl rfl
        · exact .inr ⟨none, other, List.mem_cons_of_mem _ inside, named, drops⟩
    · have later := ih disk distinct
      refine ⟨later.sub.cons_cons file, ?_, ?_, ?_⟩
      · intro other inside spare
        rcases List.mem_cons.mp inside with rfl | inside
        · exact List.mem_cons_self
        · exact List.mem_cons_of_mem _ (later.spared other inside spare)
      · intro other inside
        rcases List.mem_cons.mp inside with rfl | inside
        · rcases later.gone other.1 with same | ⟨_, file, holds, named, _⟩
          · exact same
          · exact absurd named (apart file holds)
        · exact later.there other inside
      · intro path
        rcases later.gone path with same | ⟨none, other, inside, named, drops⟩
        · exact .inl same
        · exact .inr ⟨none, other, List.mem_cons_of_mem _ inside, named, drops⟩

/-- Deleting listed files that guard nothing owed. -/
theorem Stored.retainFiles (stored : Stored stream node ids) (drops : Path × Nat × Nat → Bool)
    (stuck : List Path)
    (spares : ∀ term id, node.Owes term id → ∀ file : Path × Nat × Nat, file.2.1 = term →
      id ≤ file.2.2 → drops file = false) :
    ∃ ids', Stored stream (node.retainFiles drops stuck) ids' := by
  have kept := retain_spec drops stuck node.st.files node.disk stored.distinct
  rw [Node.retainFiles]
  generalize (Node.retain drops stuck node.st.files node.disk) = result at kept ⊢
  obtain ⟨files, disk⟩ := result
  simp only at kept ⊢
  have same : ∀ path, (disk path).isSome → disk path = node.disk path := by
    intro path there
    rcases kept.gone path with same | ⟨none, _⟩
    · exact same
    · rw [none] at there
      cases there
  have stays : ∀ path, (∀ file ∈ node.st.files, file.1 ≠ path) → disk path = node.disk path := by
    intro path apart
    rcases kept.gone path with same | ⟨_, file, inside, named, _⟩
    · exact same
    · exact absurd named (apart file inside)
  refine ⟨fun path => if (disk path).isSome then ids path else [], ⟨⟨?_, ?_⟩, ?_, stored.within,
    stored.held, ?_, ?_, ?_, ?_, ?_, stored.run⟩⟩
  · intro path bytes found
    have there : (disk path).isSome = true := by rw [show disk path = some bytes from found]; rfl
    rw [if_pos there]
    exact stored.onDisk.whole path bytes ((same path there).symm.trans found)
  · intro path absent
    rw [show disk path = none from absent]
    rfl
  · intro path some
    split at some
    · exact stored.known path some
    · exact absurd rfl some
  · intro term id owes
    obtain ⟨path, at_, inside, guards⟩ := stored.stored term id owes
    have there : (disk path).isSome = true ∧
        State.Guards { node.st with files := files } path id := by
      rcases guards with ⟨o, isOpen, named, below⟩ | ⟨last, listed, below⟩
      · obtain ⟨there, _, apart⟩ := stored.opened o isOpen
        refine ⟨?_, .inl ⟨o, isOpen, named, below⟩⟩
        rw [stays path (named ▸ apart), ← named]
        exact there
      · have spare := kept.spared _ listed (spares term id owes _ at_ below)
        refine ⟨?_, .inr ⟨last, spare, below⟩⟩
        rw [kept.there _ spare]
        exact stored.listed _ listed
    exact ⟨path, at_, by rw [if_pos there.1]; exact inside, there.2⟩
  · intro term id owes path inside
    split at inside
    · exact stored.newest term id owes path inside
    · simp at inside
  · intro o isOpen
    obtain ⟨there, named, apart⟩ := stored.opened o isOpen
    refine ⟨?_, named, fun file inside => apart file (kept.sub.subset inside)⟩
    show (disk o.path).isSome = true
    rw [stays o.path apart]
    exact there
  · exact stored.distinct.sublist (kept.sub.map _)
  · intro file inside
    show (disk file.1).isSome = true
    rw [kept.there file inside]
    exact stored.listed file (kept.sub.subset inside)

theorem Stored.closeThrough (stored : Stored stream node ids) (id : Nat) :
    Stored stream { node with st := node.st.closeThrough id } ids := by
  unfold State.closeThrough
  cases opened : node.st.opened with
  | none => exact stored
  | some o =>
    simp only
    split
    · exact stored.close opened
    · exact stored

theorem Stored.prune (stored : Stored stream node ids) (id : Nat) (stuck : List Path) :
    ∃ ids', Stored stream (node.prune id stuck) ids' := by
  set dropped : Node := { node with
    st := { node.st with held := node.st.held.filter fun i _ => (id + 1) % 2 ^ 64 ≤ i }
    letGo := fun t i => node.letGo t i || i ≤ id } with droppedDef
  have before : ∀ t i, dropped.Owes t i → node.Owes t i ∧ id < i := by
    intro t i owes
    obtain ⟨acked, letGo⟩ := owes
    simp only [droppedDef, Bool.or_eq_false_iff, decide_eq_false_iff_not] at letGo
    exact ⟨⟨acked, letGo.1⟩, by omega⟩
  have still : Stored stream dropped ids := by
    refine ⟨stored.onDisk, stored.known, fun i copy found => stored.within i copy (mem_of_filter found),
      ?_, fun t i owes => stored.stored t i (before t i owes).1,
      fun t i owes => stored.newest t i (before t i owes).1, stored.opened, stored.distinct,
      stored.listed, stored.run⟩
    intro t i owes
    obtain ⟨owed, above⟩ := before t i owes
    apply filter_keeps (stored.held t i owed)
    have := Nat.mod_le (id + 1) (2 ^ 64)
    simp only [decide_eq_true_eq]
    omega
  refine (still.closeThrough id).retainFiles _ stuck ?_
  intro t i owes file _ below
  have := (before t i owes).2
  simp only [decide_eq_false_iff_not]
  omega

theorem Stored.start (stored : Stored stream node ids) (term : Nat) (stuck : List Path) :
    ∃ ids', Stored stream (node.start term stuck) ids' := by
  have before : ∀ t i, Node.Owes { node with letGo := fun t i => node.letGo t i || t < term } t i →
      node.Owes t i ∧ term ≤ t := by
    intro t i owes
    obtain ⟨acked, letGo⟩ := owes
    simp only [Bool.or_eq_false_iff, decide_eq_false_iff_not] at letGo
    exact ⟨⟨acked, letGo.1⟩, by omega⟩
  have grown : node.st.seen ≤ max node.st.seen term := Nat.le_max_left _ _
  unfold Node.start
  have still : Stored stream { node with
      st := { node.st with
        seen := max node.st.seen term
        held := node.st.held.filter fun _ copy => term ≤ copy.1
        opened := node.st.opened.filter fun o => term ≤ o.term }
      letGo := fun t i => node.letGo t i || t < term } ids := by
    refine ⟨stored.onDisk, fun path some => Nat.le_trans (stored.known path some) grown, ?_, ?_,
      ?_, fun t i owes => stored.newest t i (before t i owes).1, ?_, stored.distinct,
      stored.listed, stored.run⟩
    · exact fun i copy found => Nat.le_trans (stored.within i copy (mem_of_filter found)) grown
    · intro t i owes
      obtain ⟨owed, above⟩ := before t i owes
      exact filter_keeps (stored.held t i owed) (decide_eq_true above)
    · intro t i owes
      obtain ⟨owed, above⟩ := before t i owes
      obtain ⟨path, same, inside, guards⟩ := stored.stored t i owed
      refine ⟨path, same, inside, ?_⟩
      rcases guards with ⟨o, isOpen, at_, below⟩ | listed
      · obtain ⟨_, named, _⟩ := stored.opened o isOpen
        refine .inl ⟨o, ?_, at_, below⟩
        apply Option.filter_eq_some_iff.mpr
        refine ⟨isOpen, decide_eq_true ?_⟩
        rw [← named, at_, same]
        exact above
      · exact .inr listed
    · intro o isOpen
      exact stored.opened o (Option.filter_eq_some_iff.mp isOpen).1
  refine still.retainFiles _ stuck ?_
  intro t i owes file same _
  have := (before t i owes).2
  simp only [decide_eq_false_iff_not]
  omega

theorem Stored.serve (stored : Stored stream node ids) (term after : Nat) :
    Stored stream (node.serve term after).1 ids :=
  stored.raise (Nat.le_max_left _ _)

end steps

end Pondra.Replica
