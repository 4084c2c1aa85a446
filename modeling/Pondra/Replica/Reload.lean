import Pondra.Replica.Files

set_option autoImplicit false

namespace Pondra.Replica

/-- After `keep`, a change's copy is the one given, or the one held before where that is another
change's or of a newer term. -/
theorem keep_cases (held : Std.ExtTreeMap Nat (Nat × List UInt8)) (id term i : Nat)
    (frame : List UInt8) :
    (i = id ∧ (∀ copy : Nat × List UInt8, held[id]? = some copy → copy.1 ≤ term) ∧
      (keep held id term frame)[i]? = some (term, frame)) ∨
    ((i = id → ∃ copy : Nat × List UInt8, held[id]? = some copy ∧ term < copy.1) ∧
      (keep held id term frame)[i]? = held[i]?) := by
  unfold keep
  cases found : held[id]? with
  | none =>
    simp only [Std.ExtTreeMap.getElem?_insert, Nat.compare_eq_eq]
    by_cases same : id = i
    · exact .inl ⟨same.symm, by simp, by rw [if_pos same]⟩
    · exact .inr ⟨fun equal => absurd equal.symm same, by rw [if_neg same]⟩
  | some copy =>
    obtain ⟨t, bytes⟩ := copy
    by_cases older : t ≤ term
    · simp only [if_pos older, Std.ExtTreeMap.getElem?_insert, Nat.compare_eq_eq]
      by_cases same : id = i
      · exact .inl ⟨same.symm, by simpa using older, by rw [if_pos same]⟩
      · exact .inr ⟨fun equal => absurd equal.symm same, by rw [if_neg same]⟩
    · simp only [if_neg older]
      exact .inr ⟨fun _ => ⟨(t, bytes), rfl, by simpa using older⟩, trivial⟩

theorem keep_other (held : Std.ExtTreeMap Nat (Nat × List UInt8)) {id term i : Nat}
    (frame : List UInt8) (other : i ≠ id) : (keep held id term frame)[i]? = held[i]? := by
  rcases keep_cases held id term i frame with ⟨same, _⟩ | ⟨_, unchanged⟩
  · exact absurd same other
  · exact unchanged

theorem keep_self {held : Std.ExtTreeMap Nat (Nat × List UInt8)} {id term : Nat}
    (frame : List UInt8)
    (older : ∀ copy : Nat × List UInt8, held[id]? = some copy → copy.1 ≤ term) :
    (keep held id term frame)[id]? = some (term, frame) := by
  rcases keep_cases held id term id frame with ⟨_, _, new⟩ | ⟨newer, _⟩
  · exact new
  · obtain ⟨copy, found, above⟩ := newer rfl
    have := older copy found
    omega

/-- No copy is of a newer term than `seen`. -/
def Within (held : Std.ExtTreeMap Nat (Nat × List UInt8)) (seen : Nat) : Prop :=
  ∀ (i : Nat) (copy : Nat × List UInt8), held[i]? = some copy → copy.1 ≤ seen

theorem Within.keep {held : Std.ExtTreeMap Nat (Nat × List UInt8)} {seen id term : Nat}
    {frame : List UInt8} (within : Within held seen) (known : term ≤ seen) :
    Within (Replica.keep held id term frame) seen := by
  intro i copy found
  rcases keep_cases held id term i frame with ⟨_, _, new⟩ | ⟨_, unchanged⟩
  · rw [new] at found
    cases found
    exact known
  · rw [unchanged] at found
    exact within i copy found

theorem Within.mono {held : Std.ExtTreeMap Nat (Nat × List UInt8)} {seen seen' : Nat}
    (within : Within held seen) (grown : seen ≤ seen') : Within held seen' := by
  intro i copy found
  have := within i copy found
  omega

section copies

variable {stream : Stream}

theorem keepAll_cons (held : Std.ExtTreeMap Nat (Nat × List UInt8)) (copy : Nat × Nat)
    (copies : List (Nat × Nat)) :
    keepAll stream held (copy :: copies) =
      keepAll stream (keep held copy.2 copy.1 (stream.frame copy.1 copy.2)) copies := rfl

theorem keepAll_append (held : Std.ExtTreeMap Nat (Nat × List UInt8))
    (first second : List (Nat × Nat)) :
    keepAll stream held (first ++ second) =
      keepAll stream (keepAll stream held first) second :=
  List.foldl_append

/-- A copy stays when none of a newer term is read after it. -/
theorem keepAll_stays {held : Std.ExtTreeMap Nat (Nat × List UInt8)} {copies : List (Nat × Nat)}
    {term id : Nat} (newest : ∀ copy ∈ copies, copy.2 = id → copy.1 ≤ term)
    (kept : held[id]? = some (term, stream.frame term id)) :
    (keepAll stream held copies)[id]? = some (term, stream.frame term id) := by
  induction copies generalizing held with
  | nil => exact kept
  | cons copy rest ih =>
    rw [keepAll_cons]
    apply ih (fun other inside => newest other (List.mem_cons_of_mem _ inside))
    rcases keep_cases held copy.2 copy.1 id (stream.frame copy.1 copy.2) with
      ⟨same, newer, new⟩ | ⟨_, unchanged⟩
    · have above : term ≤ copy.1 := newer (term, stream.frame term id) (same ▸ kept)
      have below : copy.1 ≤ term := newest copy List.mem_cons_self same.symm
      rw [new, same, Nat.le_antisymm below above]
    · rw [unchanged]
      exact kept

/-- The copy of the newest term read is the one kept. -/
theorem keepAll_newest {held : Std.ExtTreeMap Nat (Nat × List UInt8)}
    {copies : List (Nat × Nat)} {term id : Nat} (read : (term, id) ∈ copies)
    (newest : ∀ copy ∈ copies, copy.2 = id → copy.1 ≤ term)
    (older : ∀ copy : Nat × List UInt8, held[id]? = some copy → copy.1 ≤ term) :
    (keepAll stream held copies)[id]? = some (term, stream.frame term id) := by
  induction copies generalizing held with
  | nil => simp at read
  | cons copy rest ih =>
    rw [keepAll_cons]
    have later : ∀ other ∈ rest, other.2 = id → other.1 ≤ term :=
      fun other inside => newest other (List.mem_cons_of_mem _ inside)
    rcases List.mem_cons.mp read with same | inside
    · subst same
      exact keepAll_stays later (keep_self _ older)
    · apply ih inside later
      intro found present
      rcases keep_cases held copy.2 copy.1 id (stream.frame copy.1 copy.2) with
        ⟨equal, _, new⟩ | ⟨_, unchanged⟩
      · rw [new] at present
        cases present
        exact newest copy List.mem_cons_self equal.symm
      · rw [unchanged] at present
        exact older found present

/-- The changes read from the files of `order`, with their terms. -/
def copiesOf (ids : Path → List Nat) (order : List Path) : List (Nat × Nat) :=
  order.flatMap fun path => (ids path).map fun id => (path.1, id)

theorem mem_copiesOf {ids : Path → List Nat} {order : List Path} {copy : Nat × Nat} :
    copy ∈ copiesOf ids order ↔ ∃ path ∈ order, path.1 = copy.1 ∧ copy.2 ∈ ids path := by
  obtain ⟨term, id⟩ := copy
  simp only [copiesOf, List.mem_flatMap, List.mem_map, Prod.mk.injEq]
  constructor
  · rintro ⟨path, inside, id, holds, rfl, rfl⟩
    exact ⟨path, inside, rfl, holds⟩
  · rintro ⟨path, inside, same, holds⟩
    exact ⟨path, inside, id, holds, same, rfl⟩

theorem copiesOf_cons (ids : Path → List Nat) (path : Path) (order : List Path) :
    copiesOf ids (path :: order) = copiesOf ids [path] ++ copiesOf ids order := by
  simp [copiesOf]

theorem foldl_seen (ids : List Nat) (term seen : Nat) :
    ids.foldl (fun seen _ => max seen term) seen = if ids = [] then seen else max seen term := by
  induction ids generalizing seen with
  | nil => rfl
  | cons id rest ih =>
    rw [List.foldl_cons, ih]
    split <;> simp

theorem le_foldl_max (ids : List Nat) (first : Nat) : first ≤ ids.foldl max first := by
  induction ids generalizing first with
  | nil => exact Nat.le_refl _
  | cons id rest ih => exact Nat.le_trans (Nat.le_max_left _ _) (ih _)

theorem mem_le_foldl_max {ids : List Nat} {id : Nat} (inside : id ∈ ids) (first : Nat) :
    id ≤ ids.foldl max first := by
  induction ids generalizing first with
  | nil => simp at inside
  | cons head rest ih =>
    rcases List.mem_cons.mp inside with rfl | inside
    · exact Nat.le_trans (Nat.le_max_right _ _) (le_foldl_max _ _)
    · exact ih inside _

/-- What is on disk, file by file: the whole records that can be read back. -/
structure OnDisk (stream : Stream) (disk : Disk) (ids : Path → List Nat) : Prop where
  whole : ∀ path bytes, disk path = some bytes → stream.Holds path.1 (ids path) bytes
  absent : ∀ path, disk path = none → ids path = []

/-- The files of `order` as `reload` finds them, from `st` to `st'`. -/
structure Reloaded (stream : Stream) (ids : Path → List Nat) (order : List Path)
    (st st' : State) : Prop where
  held : st'.held = keepAll stream st.held (copiesOf ids order)
  grown : st.seen ≤ st'.seen
  seen : ∀ path ∈ order, ids path ≠ [] → path.1 ≤ st'.seen
  within : Within st.held st.seen → Within st'.held st'.seen
  paths : st'.files.map (·.1) = st.files.map (·.1) ++ order
  files : ∀ file ∈ st'.files, file ∈ st.files ∨
    (ids file.1 ≠ [] → file.2 = (file.1.1, (ids file.1).foldl max 0))
  opened : st'.opened = st.opened
  run : st'.run = st.run

theorem within_keepAll {held : Std.ExtTreeMap Nat (Nat × List UInt8)} {seen : Nat}
    {copies : List (Nat × Nat)} (within : Within held seen)
    (known : ∀ copy ∈ copies, copy.1 ≤ seen) : Within (keepAll stream held copies) seen := by
  induction copies generalizing held with
  | nil => exact within
  | cons copy rest ih =>
    rw [keepAll_cons]
    exact ih (within.keep (known copy List.mem_cons_self))
      (fun other inside => known other (List.mem_cons_of_mem _ inside))

/-- One file read. -/
theorem load_reloaded {disk : Disk} {ids : Path → List Nat} (onDisk : OnDisk stream disk ids)
    (st : State) (path : Path) :
    Reloaded stream ids [path] st
      (let bytes := (disk path).getD []
       let (st, term, last) := State.load bytes.length st bytes 0 0
       { st with files := st.files ++ [(path, term, last)] }) := by
  have holds : stream.Holds path.1 (ids path) ((disk path).getD []) := by
    cases found : disk path with
    | none =>
      rw [onDisk.absent path found]
      exact ⟨by simp, [], .inl rfl, by simp⟩
    | some bytes => exact onDisk.whole path bytes found
  obtain ⟨fits, tail, cut, bytes⟩ := holds
  rw [bytes]
  obtain ⟨read, settled, loaded⟩ :=
    load_records (ids path) tail _ st 0 0 fits cut (Nat.le_refl _)
  simp only [loaded, foldl_seen]
  have copies : copiesOf ids [path] = (ids path).map fun id => (path.1, id) := by simp [copiesOf]
  refine ⟨by rw [copies], ?_, ?_, ?_, by simp, ?_, rfl, rfl⟩
  · simp only
    split <;> omega
  · intro other inside some
    obtain rfl := List.mem_singleton.mp inside
    simp only [if_neg some]
    omega
  · intro within
    simp only
    by_cases none : ids path = []
    · simpa [none, keepAll] using within
    · rw [if_neg none]
      apply within_keepAll (within.mono (by omega))
      intro copy inside
      obtain ⟨id, _, rfl⟩ := List.mem_map.mp inside
      exact Nat.le_max_right _ _
  · intro file inside
    rcases List.mem_append.mp inside with old | new
    · exact .inl old
    · obtain rfl := List.mem_singleton.mp new
      exact .inr fun some => by rw [settled (.inl some)]

theorem reload_from {disk : Disk} {ids : Path → List Nat} (onDisk : OnDisk stream disk ids)
    (order : List Path) (st : State) :
    Reloaded stream ids order st (order.foldl (fun st path =>
      let bytes := (disk path).getD []
      let (st, term, last) := State.load bytes.length st bytes 0 0
      { st with files := st.files ++ [(path, term, last)] }) st) := by
  induction order generalizing st with
  | nil =>
    exact ⟨rfl, Nat.le_refl _, by simp, id, by simp, fun _ inside => .inl inside, rfl, rfl⟩
  | cons path rest ih =>
    rw [List.foldl_cons]
    have first := load_reloaded onDisk st path
    generalize (let bytes := (disk path).getD []
       let (st, term, last) := State.load bytes.length st bytes 0 0
       { st with files := st.files ++ [(path, term, last)] } : State) = middle at first ⊢
    have later := ih middle
    refine ⟨?_, ?_, ?_, fun within => later.within (first.within within), ?_, ?_, ?_, ?_⟩
    · rw [later.held, first.held, ← keepAll_append, ← copiesOf_cons]
    · exact Nat.le_trans first.grown later.grown
    · intro other inside some
      rcases List.mem_cons.mp inside with rfl | inside
      · exact Nat.le_trans (first.seen other List.mem_cons_self some) later.grown
      · exact later.seen other inside some
    · rw [later.paths, first.paths, List.append_assoc]
      rfl
    · intro file inside
      rcases later.files file inside with old | new
      · exact first.files file old
      · exact .inr new
    · rw [later.opened, first.opened]
    · rw [later.run, first.run]

/-- `open` finds every whole record of the files, and nothing else. -/
theorem reload_spec {disk : Disk} {ids : Path → List Nat} (onDisk : OnDisk stream disk ids)
    (order : List Path) : Reloaded stream ids order .empty (.reload disk order) :=
  reload_from onDisk order .empty

/-- `order` lists the files of `disk`, each once. -/
def Lists (disk : Disk) (order : List Path) : Prop :=
  order.Nodup ∧ ∀ path, path ∈ order ↔ (disk path).isSome

theorem reload_finds {disk : Disk} {ids : Path → List Nat} (onDisk : OnDisk stream disk ids)
    {order : List Path} (lists : Lists disk order) {term id : Nat} {path : Path}
    (same : path.1 = term) (stored : id ∈ ids path)
    (newest : ∀ other, id ∈ ids other → other.1 ≤ term) :
    (State.reload disk order).held[id]? = some (term, stream.frame term id) := by
  rw [(reload_spec onDisk order).held]
  apply keepAll_newest
  · refine mem_copiesOf.mpr ⟨path, (lists.2 path).mpr ?_, same, stored⟩
    cases found : disk path with
    | none =>
      rw [onDisk.absent path found] at stored
      simp at stored
    | some bytes => rfl
  · intro copy inside sameId
    obtain ⟨other, _, sameTerm, holds⟩ := mem_copiesOf.mp inside
    rw [sameId] at holds
    have := newest other holds
    omega
  · intro copy found
    simp [State.empty] at found

end copies

end Pondra.Replica
