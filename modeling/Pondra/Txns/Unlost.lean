import Pondra.Txns.Leader

set_option autoImplicit false

namespace Pondra.Txns

open Machines Dicts

/-- What a transaction kept of a table, against the statements it kept it by. -/
structure Sound (log : List Commit) (visible : Nat) (table : String) (key : List String)
    (c : Changes) (r : Reads) (stmts : List Statement) : Prop where
  -- a key's point is not before a change that one of its reads missed
  read : ∀ stmt ∈ stmts, ∀ k, stmt.Covers k → ∃ p, (r.keys.lookup k).or r.floor = some p ∧
    ∀ c ∈ log, stmt.at' < c.first → c.first ≤ p → ¬ c.Alters table key k
  keys : ∀ k p, r.keys.lookup k = some p → p ≤ visible ∧ ∃ stmt ∈ stmts, stmt.Covers k
  floor : ∀ p, r.floor = some p → p ≤ visible
  old : ∀ row ∈ c.old, ∃ stmt ∈ stmts, row ∈ stmt.old ∧
    ∀ k ∈ writeKeys key [row] [], stmt.Covers k
  new : key.isEmpty = false → ∀ row ∈ c.new, ∃ stmt ∈ stmts, stmt.Covers (keysOf key row)
  targets : ∀ stmt ∈ stmts, stmt.keys ≠ none → ∀ k ∈ stmt.targets,
    isOn k = true ∧ (r.keys.lookup k).isSome = true

namespace Sound

variable {log : List Commit} {visible : Nat} {table : String} {key : List String}
  {c : Changes} {r : Reads} {stmts : List Statement}

theorem start : Sound log visible table key ⟨[], []⟩ .empty [] where
  read := fun _ none => nomatch none
  keys := fun _ _ found => nomatch found
  floor := fun _ found => nomatch found
  old := fun _ none => nomatch none
  new := fun _ _ none => nomatch none
  targets := fun _ none => nomatch none

theorem point_le (sound : Sound log visible table key c r stmts) {k : Key} {p : Nat}
    (found : (r.keys.lookup k).or r.floor = some p) : p ≤ visible := by
  rcases Option.or_eq_some_iff.mp found with own | ⟨-, floor⟩
  · exact (sound.keys k p own).1
  · exact sound.floor p floor

/-- A commit that lands is after every point. -/
theorem land (sound : Sound log visible table key c r stmts) (new : Commit)
    (next : new.first = visible + 1) (last : Nat) (le : visible ≤ last) :
    Sound (log ++ [new]) last table key c r stmts where
  read stmt held k covers := by
    obtain ⟨p, found, right⟩ := sound.read stmt held k covers
    refine ⟨p, found, fun other inside after upTo => ?_⟩
    rcases List.mem_append.mp inside with old | new'
    · exact right other old after upTo
    · rw [List.mem_singleton.mp new', next] at upTo
      exact absurd (sound.point_le found) (Nat.not_le.mpr upTo)
  keys k p found := ⟨(sound.keys k p found).1.trans le, (sound.keys k p found).2⟩
  floor p found := (sound.floor p found).trans le
  old := sound.old
  new := sound.new
  targets := sound.targets

/-- A statement's locked keys keep the points of what was read before, or earlier ones. -/
theorem lock_read (sound : Sound log visible table key c r stmts) (keys : List Key) (at' : Nat)
    (stmt : Statement) (held : stmt ∈ stmts) (k : Key) (covers : stmt.Covers k) :
    ∃ p, (((r.note (some keys) at').keys.lookup k).or (r.note (some keys) at').floor) = some p ∧
      ∀ c ∈ log, stmt.at' < c.first → c.first ≤ p → ¬ c.Alters table key k := by
  obtain ⟨p, found, right⟩ := sound.read stmt held k covers
  obtain ⟨floor, lookup⟩ := @note_locked r at' k keys
  rw [floor, lookup, found]
  split
  · exact ⟨min p at', rfl, fun c inside after upTo => right c inside after (by omega)⟩
  · exact ⟨p, found, right⟩

/-- A statement with locks, its changes `c'` over those kept. -/
theorem locked (sound : Sound log visible table key c r stmts) (keys : List Key) (at' : Nat)
    (past : at' ≤ visible) (old : List Row) (targets : List Key) (c' : Changes)
    (olds : ∀ row ∈ c'.old, row ∈ c.old ∨ row ∈ old ∧ ∀ k ∈ writeKeys key [row] [], k ∈ keys)
    (news : key.isEmpty = false → ∀ row ∈ c'.new, row ∈ c.new ∨ keysOf key row ∈ keys)
    (ons : ∀ k ∈ targets, isOn k = true ∧ k ∈ keys) :
    Sound log visible table key c' (r.note (some keys) at')
      (⟨some keys, at', old, targets⟩ :: stmts) where
  read stmt held k covers := by
    rcases List.mem_cons.mp held with rfl | before
    · have inside : k ∈ keys := covers
      obtain ⟨floor, lookup⟩ := @note_locked r at' k keys
      rw [floor, lookup, if_pos inside, Option.some_or]
      exact ⟨_, rfl, fun c _ after upTo =>
        absurd (upTo.trans (earliest_le _)) (Nat.not_le.mpr after)⟩
    · exact sound.lock_read keys at' stmt before k covers
  keys k p found := by
    rw [(note_locked keys).2] at found
    split at found
    · rename_i inside
      refine ⟨?_, _, List.mem_cons_self, inside⟩
      rw [← Option.some.inj found]
      exact (earliest_le _).trans past
    · obtain ⟨le, stmt, held, covers⟩ := sound.keys k p found
      exact ⟨le, stmt, List.mem_cons_of_mem _ held, covers⟩
  floor p found := sound.floor p ((note_locked (k := []) keys).1 ▸ found)
  old row inside := by
    rcases olds row inside with before | ⟨here, covers⟩
    · obtain ⟨stmt, held, right⟩ := sound.old row before
      exact ⟨stmt, List.mem_cons_of_mem _ held, right⟩
    · exact ⟨_, List.mem_cons_self, here, covers⟩
  new keyed row inside := by
    rcases news keyed row inside with before | here
    · obtain ⟨stmt, held, covers⟩ := sound.new keyed row before
      exact ⟨stmt, List.mem_cons_of_mem _ held, covers⟩
    · exact ⟨_, List.mem_cons_self, here⟩
  targets stmt held locks k target := by
    rw [(note_locked keys).2]
    rcases List.mem_cons.mp held with rfl | before
    · rw [if_pos (ons k target).2]
      exact ⟨(ons k target).1, rfl⟩
    · obtain ⟨on, recorded⟩ := sound.targets stmt before locks k target
      refine ⟨on, ?_⟩
      split
      · rfl
      · exact recorded

/-- A statement without locks, not as of a commit before a recorded key's change. -/
theorem unlocked (sound : Sound log visible table key c r stmts) (at' : Nat) (past : at' ≤ visible)
    (clear : ∀ k p, r.keys.lookup k = some p → ∀ c ∈ log, at' < c.first → c.first ≤ p →
      ¬ c.Alters table key k)
    (old : List Row) (targets : List Key) (c' : Changes)
    (olds : ∀ row ∈ c'.old, row ∈ c.old ∨ row ∈ old) :
    Sound log visible table key c' (r.note none at') (⟨none, at', old, targets⟩ :: stmts) where
  read stmt held k covers := by
    obtain ⟨keys, floor⟩ := @note_unlocked r at'
    rw [keys, floor]
    cases own : r.keys.lookup k with
    | some p =>
      refine ⟨p, rfl, fun c inside after upTo => ?_⟩
      rcases List.mem_cons.mp held with rfl | before
      · exact clear k p own c inside after upTo
      · obtain ⟨q, found, right⟩ := sound.read stmt before k covers
        rw [own, Option.some_or, Option.some.injEq] at found
        exact right c inside after (found ▸ upTo)
    | none =>
      refine ⟨_, rfl, fun c inside after upTo => ?_⟩
      rcases List.mem_cons.mp held with rfl | before
      · exact absurd (upTo.trans (earliest_le _)) (Nat.not_le.mpr after)
      · obtain ⟨q, found, right⟩ := sound.read stmt before k covers
        rw [own, Option.none_or] at found
        rw [found, Option.elim_some] at upTo
        exact right c inside after (upTo.trans (Nat.min_le_left _ _))
  keys k p found := by
    obtain ⟨le, stmt, held, covers⟩ := sound.keys k p found
    exact ⟨le, stmt, List.mem_cons_of_mem _ held, covers⟩
  floor p found := by
    rw [note_unlocked.2, Option.some.injEq] at found
    exact found ▸ (earliest_le _).trans past
  old row inside := by
    rcases olds row inside with before | here
    · obtain ⟨stmt, held, right⟩ := sound.old row before
      exact ⟨stmt, List.mem_cons_of_mem _ held, right⟩
    · exact ⟨_, List.mem_cons_self, here, fun _ _ => trivial⟩
  new _ _ _ := ⟨_, List.mem_cons_self, trivial⟩
  targets stmt held locks k target := by
    rcases List.mem_cons.mp held with rfl | before
    · exact absurd rfl locks
    · exact sound.targets stmt before locks k target

end Sound

/-! ### Transactions -/

/-- The tables of a transaction and those at each of its savepoints. -/
structure Open.Sound (log : List Commit) (visible : Nat) (key : String → List String)
    (o : Open) : Prop where
  here : ∀ table, Txns.Sound log visible table (key table) (o.txn.tables table)
    (o.txn.reads table) (o.stmts table)
  saved : o.txn.marks.Forall₂ (fun mark stmts => ∀ table, Txns.Sound log visible table (key table)
    (mark.tables table) (mark.reads table) (stmts table)) o.saved

namespace Open.Sound

variable {log : List Commit} {visible : Nat} {key : String → List String} {o : Open}

theorem start : Open.start.Sound log visible key := ⟨fun _ => .start, .nil⟩

theorem land (sound : o.Sound log visible key) (new : Commit) (next : new.first = visible + 1)
    (last : Nat) (le : visible ≤ last) : o.Sound (log ++ [new]) last key :=
  ⟨fun table => (sound.here table).land new next last le,
    sound.saved.imp fun _ _ right table => (right table).land new next last le⟩

theorem keep (sound : o.Sound log visible key) (table : String) (on : List String)
    (old : List Row) (new : List New) (at' : Nat) (locked : Option (List Key))
    (past : at' ≤ visible)
    (covered : ∀ keys, locked = some keys →
      ∀ k ∈ writeKeys (key table) old (stamped o.txn.next new).1 ++
        conflictKeys on (stamped o.txn.next new).1, k ∈ keys)
    (clear : locked = none → ∀ k p, (o.txn.reads table).keys.lookup k = some p →
      ∀ c ∈ log, at' < c.first → c.first ≤ p → ¬ c.Alters table (key table) k) :
    (o.keep table (key table) on old new at' locked).Sound log visible key := by
  refine ⟨fun other => ?_, sound.saved⟩
  simp only [Open.keep, Txn.keep]
  by_cases same : other = table
  · subst same
    simp only [Function.update_self]
    cases locked with
    | some keys =>
      have all := covered keys rfl
      refine (sound.here other).locked keys at' past old _ _ (fun row inside => ?_)
        (fun keyed row inside => ?_) (fun k target => ?_)
      · rcases List.mem_append.mp inside with before | theirs
        · exact .inl before
        · have held := List.mem_of_mem_filter theirs
          exact .inr ⟨held, fun k here => all k (List.mem_append_left _ (writeKeys_old held here))⟩
      · rcases List.mem_append.mp inside with before | kept
        · exact .inl (List.mem_of_mem_filter before)
        · refine .inr (all _ (List.mem_append_left _ ?_))
          rw [writeKeys, if_neg (Bool.eq_false_iff.mp keyed)]
          exact List.mem_map_of_mem (List.mem_append_right _ kept)
      · exact ⟨conflictKeys_isOn on _ k target, all k (List.mem_append_right _ target)⟩
    | none =>
      refine (sound.here other).unlocked at' past (clear rfl) old _ _ fun row inside => ?_
      rcases List.mem_append.mp inside with before | theirs
      · exact .inl before
      · exact .inr (List.mem_of_mem_filter theirs)
  · simp only [Function.update_of_ne same]
    exact sound.here other

theorem lock (sound : o.Sound log visible key) (table : String) (keys : List Key) (at' : Nat)
    (past : at' ≤ visible) : (o.lock table keys at').Sound log visible key := by
  refine ⟨fun other => ?_, sound.saved⟩
  simp only [Open.lock, Txn.readKeys]
  by_cases same : other = table
  · subst same
    simp only [Function.update_self]
    exact (sound.here other).locked keys at' past [] [] _ (fun _ inside => .inl inside)
      (fun _ _ inside => .inl inside) (fun _ none => nomatch none)
  · simp only [Function.update_of_ne same]
    exact sound.here other

theorem savepoint (sound : o.Sound log visible key) (name : String) :
    (o.savepoint name).Sound log visible key :=
  ⟨sound.here, List.rel_append sound.saved (.cons sound.here .nil)⟩

theorem release (sound : o.Sound log visible key) (name : String) :
    (o.release name).Sound log visible key := by
  unfold Open.release
  cases found : o.txn.markOf name with
  | none => exact sound
  | some i =>
    simp only [Txn.releaseSavepoint, found]
    exact ⟨sound.here, List.forall₂_take i sound.saved⟩

theorem rollbackTo (sound : o.Sound log visible key) (name : String) :
    (o.rollbackTo key name).Sound log visible key := by
  unfold Open.rollbackTo
  cases found : o.txn.markOf name with
  | none => exact sound
  | some i =>
    have long := sound.saved.length_eq
    simp only [Txn.rollbackTo, found]
    cases mark : o.txn.marks[i]? with
    | none =>
      have beyond : o.txn.marks.length ≤ i := List.getElem?_eq_none_iff.mp mark
      simp only [List.getElem?_eq_none (long ▸ beyond), Option.getD_none,
        List.take_of_length_le (long ▸ beyond.trans (Nat.le_succ i))]
      exact sound
    | some mark' =>
      obtain ⟨short, eq⟩ := List.getElem?_eq_some_iff.mp mark
      have short' : i < o.saved.length := long ▸ short
      have right := sound.saved.get short short'
      simp only [List.getElem?_eq_getElem short', Option.getD_some]
      refine ⟨fun table => ?_, List.forall₂_take (i + 1) sound.saved⟩
      have here := right table
      simp only [List.get_eq_getElem, eq] at here
      exact here

end Open.Sound

/-! ### Commits -/

/-- What a commit has of a table, as its transaction kept it. -/
def Part.Sound (log : List Commit) (visible : Nat) (key : String → List String) (p : Part) : Prop :=
  Txns.Sound log visible p.table (key p.table) p.changes p.reads p.stmts

/-- Nothing the commit checks of a table was changed since a statement read it. -/
def Part.Clean (log : List Commit) (key : String → List String) (p : Part) : Prop :=
  ∀ k ∈ mineOf (key p.table) p.changes p.reads, ∀ stmt ∈ p.stmts, stmt.Covers k →
    ∀ c ∈ log, stmt.at' < c.first → ¬ c.Alters p.table (key p.table) k

theorem Part.Sound.clean {log : List Commit} {visible : Nat} {key : String → List String}
    {p : Part} (sound : p.Sound log visible key) (log' : ∀ c ∈ log, c.first ≤ visible ∧ c.Placed)
    (passed : conflicts log visible p.table (key p.table) p.reads
      (mineOf (key p.table) p.changes p.reads) = false) : p.Clean log key := by
  intro k mine stmt held covers c inside after
  obtain ⟨point, found, right⟩ := sound.read stmt held k covers
  have eq : p.reads.point k = point := by rw [Reads.point, found, Option.getD_some]
  by_cases upTo : c.first ≤ point
  · exact right c inside after upTo
  · exact conflicts_false log' passed k mine inside (eq ▸ Nat.lt_of_not_le upTo)

/-- Each key a commit checks is one that a statement of the transaction covers. -/
theorem Part.Sound.covered {log : List Commit} {visible : Nat} {key : String → List String}
    {p : Part} (sound : p.Sound log visible key) (k : Key)
    (mine : k ∈ mineOf (key p.table) p.changes p.reads) : ∃ stmt ∈ p.stmts, stmt.Covers k := by
  rcases List.mem_append.mp mine with written | on
  · rcases writeKeys_cases written with ⟨row, old, here⟩ | ⟨keyed, row, new, rfl⟩
    · obtain ⟨stmt, held, -, covers⟩ := sound.old row old
      exact ⟨stmt, held, covers k here⟩
    · exact sound.new keyed row new
  · split at on
    · have recorded := AList.mem_keys.mp (List.mem_of_mem_filter on)
      obtain ⟨p, found⟩ := Option.isSome_iff_exists.mp (AList.lookup_isSome.mpr recorded)
      exact (sound.keys k p found).2
    · cases on

theorem Part.right {log : List Commit} {visible : Nat} {key : String → List String} {p : Part}
    (sound : p.Sound log visible key) (clean : p.Clean log key) (first : Nat) (more : List Commit)
    (after : ∀ c ∈ more, first ≤ c.first) : (⟨first, [p]⟩ : Written).Right key (log ++ more) := by
  intro part held
  obtain rfl := List.mem_singleton.mp held
  refine ⟨fun k mine => ⟨sound.covered k mine, fun stmt held covers c inside later before => ?_⟩,
    fun row old => ?_, fun append stmt held locks k target => ?_⟩
  · rcases List.mem_append.mp inside with old | new
    · exact clean k mine stmt held covers c old later
    · exact absurd (after c new) (Nat.not_le.mpr before)
  · obtain ⟨stmt, held, read, covers⟩ := sound.old row old
    exact ⟨stmt, held, read, fun k here =>
      ⟨covers k here, List.mem_append_left _ (writeKeys_old old here)⟩⟩
  · obtain ⟨on, recorded⟩ := sound.targets stmt held locks k target
    refine List.mem_append_right _ ?_
    rw [if_pos append]
    exact List.mem_filter.mpr ⟨AList.mem_keys.mpr (AList.lookup_isSome.mp recorded), on⟩

/-- Later commits leave what was written right. -/
theorem Written.Right.land {key : String → List String} {log : List Commit} {w : Written}
    (right : w.Right key log) (c : Commit) (after : w.first ≤ c.first) :
    w.Right key (log ++ [c]) := by
  intro part held
  obtain ⟨clean, old, targets⟩ := right part held
  refine ⟨fun k mine => ⟨(clean k mine).1, fun stmt here covers other inside later before => ?_⟩,
    old, targets⟩
  rcases List.mem_append.mp inside with old | new
  · exact (clean k mine).2 stmt here covers other old later before
  · rw [List.mem_singleton.mp new] at before
    exact absurd after (Nat.not_le.mpr before)

namespace Leader

/-- What holds of the leader in a clear run. -/
structure Right (key : String → List String) (s : Leader) : Prop where
  log : ∀ c ∈ s.log, c.first ≤ s.visible ∧ c.Placed
  txns : ∀ t, (s.txns t).Sound s.log s.visible key
  sound : ∀ c, s.committing = some c → ∀ part ∈ c.rest ++ c.checked,
    part.Sound s.log s.visible key
  clean : ∀ c, s.committing = some c → ∀ part ∈ c.checked, part.Clean s.log key
  written : ∀ w ∈ s.written, w.first ≤ s.visible ∧ w.Right key s.log

variable {key : String → List String} {s : Leader}

theorem Right.start : Leader.start.Right key where
  log := fun _ none => nomatch none
  txns := fun _ => .start
  sound := fun _ none => nomatch none
  clean := fun _ none => nomatch none
  written := fun _ none => nomatch none

theorem Right.put (right : s.Right key) (t : Nat) (o : Open)
    (sound : o.Sound s.log s.visible key) : (s.put t o).Right key where
  log := right.log
  txns other := by
    simp only [Leader.put, Function.update_apply]
    split
    · exact sound
    · exact right.txns other
  sound := right.sound
  clean := right.clean
  written := right.written

/-- A commit that lands, where it changes nothing that one in progress has checked. -/
theorem Right.land (right : s.Right key) (c : Commit) (fits : s.Fits c)
    (clear : ∀ committing, s.committing = some committing → ∀ part ∈ committing.checked,
      ∀ k ∈ mineOf (key part.table) part.changes part.reads,
        ¬ c.Alters part.table (key part.table) k) : (s.land c).Right key := by
  obtain ⟨next, one, placed⟩ := fits
  have le : s.visible ≤ c.first + c.span - 1 := by omega
  refine ⟨fun other inside => ?_, fun t => ?_, fun committing here part held => ?_,
    fun committing here part held k mine stmt read covers other inside later => ?_,
    fun w inside => ?_⟩
  · rcases List.mem_append.mp inside with old | new
    · exact ⟨(right.log other old).1.trans le, (right.log other old).2⟩
    · obtain rfl := List.mem_singleton.mp new
      exact ⟨Nat.le_sub_one_of_lt (Nat.lt_add_of_pos_right one), placed⟩
  · exact (right.txns t).land c next _ le
  · exact (right.sound committing here part held).land c next _ le
  · rcases List.mem_append.mp inside with old | new
    · exact right.clean committing here part held k mine stmt read covers other old later
    · rw [List.mem_singleton.mp new]
      exact clear committing here part held k mine
  · obtain ⟨before, kept⟩ := right.written w inside
    exact ⟨before.trans le, kept.land c (by omega)⟩

/-- The check of the next table of a commit. -/
theorem Right.check (right : s.Right key) : ((leader key).next s .check).Right key := by
  unfold leader
  simp only
  split
  · rename_i part rest checked here
    have sound := right.sound _ here
    split
    · exact ⟨right.log, right.txns, (fun _ none => nomatch none), (fun _ none => nomatch none),
        right.written⟩
    · rename_i passed
      refine ⟨right.log, right.txns, fun committing now other held => ?_,
        fun committing now other held => ?_, right.written⟩
      · obtain rfl := Option.some.inj now
        refine sound other ?_
        simp only [List.mem_append, List.mem_cons, List.not_mem_nil, or_false] at held ⊢
        tauto
      · obtain rfl := Option.some.inj now
        rcases List.mem_append.mp held with before | last
        · exact right.clean _ here other before
        · obtain rfl := List.mem_singleton.mp last
          exact (sound other (List.mem_append_left _ List.mem_cons_self)).clean right.log
            (Bool.eq_false_iff.mpr passed)
  · exact right

/-- The write of a commit whose every table was checked. -/
theorem Right.write (right : s.Right key) (checked : List Part) (span : Nat)
    (here : s.committing = some ⟨[], checked⟩) (fits : s.Fits (s.own key checked span)) :
    ((leader key).next s (.write span)).Right key := by
  let t : Leader := { s with committing := none }
  have idle : t.Right key := ⟨right.log, right.txns, (fun _ none => nomatch none),
    (fun _ none => nomatch none), right.written⟩
  have landed : (t.land (s.own key checked span)).Right key :=
    idle.land _ fits fun _ none => nomatch none
  have eq : (leader key).next s (.write span) =
      { t.land (s.own key checked span) with
        written := s.written ++ [⟨s.visible + 1, checked⟩] } := by
    simp only [leader, here, Leader.land, t]
  rw [eq]
  refine ⟨landed.log, landed.txns, landed.sound, landed.clean, fun w inside => ?_⟩
  rcases List.mem_append.mp inside with old | new
  · exact landed.written w old
  · obtain rfl := List.mem_singleton.mp new
    refine ⟨(landed.log _ (List.mem_append_right _ (List.mem_singleton.mpr rfl))).1,
      fun part held => ?_⟩
    have sound := right.sound _ here part (List.mem_append_right _ held)
    exact part.right sound (right.clean _ here part held) (s.visible + 1) [s.own key checked span]
      (fun c inside => by rw [List.mem_singleton.mp inside]; exact le_rfl) part
      (List.mem_singleton.mpr rfl)

/-- Each input of a clear run keeps it. -/
theorem Right.next (right : s.Right key) (act : Act)
    (allowed : ((leader key).only (Clear key)).Allows s act) :
    ((leader key).next s act).Right key := by
  obtain ⟨legal, clear⟩ := allowed
  cases act with
  | begin t => exact right.put t _ .start
  | keep t table on old new at' locked =>
    refine right.put t _ ((right.txns t).keep table on old new at' locked legal.1 legal.2 ?_)
    rintro rfl
    exact clear
  | lock t table keys at' => exact right.put t _ ((right.txns t).lock table keys at' legal)
  | savepoint t name => exact right.put t _ ((right.txns t).savepoint name)
  | release t name => exact right.put t _ ((right.txns t).release name)
  | rollbackTo t name => exact right.put t _ ((right.txns t).rollbackTo name)
  | commit t tables =>
    have idle := right.put t _ (@Open.Sound.start s.log s.visible key)
    refine ⟨idle.log, idle.txns, fun committing now part held => ?_,
      fun committing now part held => ?_, idle.written⟩
    · obtain rfl := Option.some.inj now
      obtain ⟨table, -, rfl⟩ := List.mem_map.mp (List.append_nil _ ▸ held)
      exact (right.txns t).here table
    · obtain rfl := Option.some.inj now
      cases held
  | check => exact right.check
  | write span =>
    obtain ⟨checked, here, fits⟩ := legal
    exact right.write checked span here fits
  | other c => exact right.land c legal clear

end Leader

/-- No update is lost: in every clear run, what each COMMIT wrote is right in the log. -/
theorem run_unlost (key : String → List String) (acts : List Act)
    (legal : ((leader key).only (Leader.Clear key)).Legal .start acts) :
    ∀ w ∈ ((leader key).run .start acts).written,
      w.Right key ((leader key).run .start acts).log :=
  fun w inside => ((((leader key).only (Leader.Clear key)).run_invariant (Leader.Right key)
    (fun _ act right allowed => right.next act allowed) .start acts .start legal).written w
    inside).2

/-! ### Runs that lose an update -/

def byK : String → List String := fun _ => ["k"]

def rowOf (version : Option Nat) (value : String) : Row := ⟨1, version, fun _ => value⟩

/-- A commit of one row, of any table. -/
def rowCommit (first : Nat) (value : String) : Commit :=
  ⟨first, 1, fun _ => ⟨[rowOf none value], [], []⟩⟩

theorem rowCommit_fits {s : Leader} {first : Nat} (value : String) (next : first = s.visible + 1)
    (small : first < 8) : s.Fits (rowCommit first value) :=
  ⟨next, Nat.le_refl 1, Nat.le_of_lt_succ (Nat.lt_trans (Nat.succ_lt_succ small) (by decide)),
    fun _ => ⟨(by decide : 1 ≤ 1 * 2 ^ 24), Nat.zero_le _⟩⟩

theorem own_fits {s : Leader} {key : String → List String} {checked : List Part}
    (small : s.visible < 8)
    (few : ∀ part ∈ checked, (appends (key part.table) part.changes).rows.length ≤ 2 ∧
      (appends (key part.table) part.changes).deleted.length ≤ 2) :
    s.Fits (s.own key checked 1) := by
  refine ⟨rfl, Nat.le_refl 1, ?_, fun table => ?_⟩
  · show s.visible + 1 + 1 ≤ 2 ^ 40
    omega
  · simp only [Leader.own]
    split
    · rename_i part found
      obtain ⟨rows, deleted⟩ := few part (List.mem_of_find?_eq_some found)
      have room : 2 ≤ 1 * 2 ^ 24 := by decide
      have same := List.find?_some found
      rw [of_decide_eq_true same] at rows deleted
      exact ⟨rows.trans room, deleted.trans room⟩
    · exact ⟨Nat.zero_le _, Nat.zero_le _⟩

/-- A key locked at 2, and then read as of 1 without locks. -/
def staleActs : List Act :=
  [.other (rowCommit 1 "a"), .other (rowCommit 2 "a"), .begin 1, .lock 1 "t" [["a"]] 2,
    .keep 1 "t" [] [rowOf (some 1) "a"] [⟨some 1, fun _ => "a"⟩] 1 none, .commit 1 ["t"], .check,
    .write 1]

/-- A commit of the row between a transaction's check and its write. -/
def racedActs : List Act :=
  [.other (rowCommit 1 "a"), .begin 1,
    .keep 1 "t" [] [rowOf (some 1) "a"] [⟨some 1, fun _ => "a"⟩] 1 (some [["a"]]), .commit 1 ["t"],
    .check, .other (rowCommit 2 "a"), .write 1]

/-- An INSERT … ON CONFLICT (u) without locks on an append table, and another of its value. -/
def targetActs : List Act :=
  [.begin 1, .keep 1 "t" ["u"] [] [⟨none, fun _ => "x"⟩] 0 none, .other (rowCommit 1 "x"),
    .commit 1 ["t"], .check, .write 1]

theorem only_t {s : Leader} {t : Nat}
    (others : ∀ other, other ≠ "t" → (s.txns t).txn.tables other = ⟨[], []⟩)
    (table : String) (changed : ((s.txns t).txn.tables table).new ≠ [] ∨
      ((s.txns t).txn.tables table).old ≠ []) : table ∈ ["t"] := by
  by_cases same : table = "t"
  · exact List.mem_singleton.mpr same
  · simp [others table same] at changed

theorem staleActs_legal : (leader byK).Legal .start staleActs := by
  refine ⟨rowCommit_fits "a" rfl (by decide), rowCommit_fits "a" rfl (by decide), trivial,
    Nat.le_refl 2, ⟨by decide, fun _ locked => nomatch locked⟩, 
    ⟨rfl, by decide, only_t fun _ other => Function.update_of_ne other _ _⟩,
    trivial, ⟨_, rfl, own_fits (by decide) ?_⟩, trivial⟩
  intro part held
  obtain rfl := List.mem_singleton.mp held
  exact ⟨by decide, by decide⟩

theorem racedActs_legal : (leader byK).Legal .start racedActs := by
  refine ⟨rowCommit_fits "a" rfl (by decide), trivial, ⟨Nat.le_refl 1, fun keys locked => ?_⟩,
    ⟨rfl, by decide, only_t fun _ other => Function.update_of_ne other _ _⟩, trivial,
    rowCommit_fits "a" rfl (by decide),
    ⟨_, rfl, own_fits (by decide) ?_⟩, trivial⟩
  · obtain rfl := Option.some.inj locked
    decide
  · intro part held
    obtain rfl := List.mem_singleton.mp held
    exact ⟨by decide, by decide⟩

theorem targetActs_legal : (leader fun _ => []).Legal .start targetActs := by
  refine ⟨trivial, ⟨Nat.le_refl 0, fun _ locked => nomatch locked⟩,
    rowCommit_fits "x" rfl (by decide),
    ⟨rfl, by decide, only_t fun _ other => Function.update_of_ne other _ _⟩, trivial,
    ⟨_, rfl, own_fits (by decide) ?_⟩, trivial⟩
  intro part held
  obtain rfl := List.mem_singleton.mp held
  exact ⟨by decide, by decide⟩

/-- Updates are lost where a statement without locks reads below a key's grant, where a commit lands
between another's check and its write, and at a conflict target that no lock recorded. -/
theorem updates_lost :
    ((leader byK).Legal .start staleActs ∧ ∃ w ∈ ((leader byK).run .start staleActs).written,
      ¬ w.Right byK ((leader byK).run .start staleActs).log) ∧
    ((leader byK).Legal .start racedActs ∧ ∃ w ∈ ((leader byK).run .start racedActs).written,
      ¬ w.Right byK ((leader byK).run .start racedActs).log) ∧
    ((leader fun _ => []).Legal .start targetActs ∧
      ∃ w ∈ ((leader fun _ => []).run .start targetActs).written, ∃ part ∈ w.parts,
        ∃ stmt ∈ part.stmts, ∃ k ∈ stmt.targets,
          ∃ c ∈ ((leader fun _ => []).run .start targetActs).log,
            stmt.at' < c.first ∧ c.first < w.first ∧ c.Alters part.table [] k) := by
  refine ⟨⟨staleActs_legal, _, List.mem_singleton.mpr rfl, fun right => ?_⟩,
    ⟨racedActs_legal, _, List.mem_singleton.mpr rfl, fun right => ?_⟩,
    targetActs_legal, _, List.mem_singleton.mpr rfl, _, List.mem_singleton.mpr rfl,
    _, List.mem_singleton.mpr rfl, ["ON", "u", "x"], by decide, rowCommit 1 "x", List.mem_cons_self,
    by decide, by decide, ?_⟩
  · exact ((right _ (List.mem_singleton.mpr rfl)).1 ["a"] (by decide)).2 _ List.mem_cons_self trivial
      (rowCommit 2 "a") (List.mem_cons_of_mem _ List.mem_cons_self) (by decide) (by decide)
      (List.mem_singleton.mpr rfl)
  · exact ((right _ (List.mem_singleton.mpr rfl)).1 ["a"] (by decide)).2 _ List.mem_cons_self
      (List.mem_singleton.mpr rfl) (rowCommit 2 "a") (List.mem_cons_of_mem _ List.mem_cons_self)
      (by decide) (by decide) (List.mem_singleton.mpr rfl)
  · exact .inr (.inr ⟨rfl, List.mem_singleton.mpr rfl⟩)

/-- A key locked at 2 after a read of it at 1, with another row changed between and a lock undone. -/
def keptActs : List Act :=
  [.other (rowCommit 1 "a"), .begin 1, .keep 1 "t" [] [] [⟨none, fun _ => "b"⟩] 1 none,
    .other (rowCommit 2 "c"), .savepoint 1 "p", .lock 1 "t" [["c"]] 2, .rollbackTo 1 "p",
    .keep 1 "t" [] [rowOf (some 1) "a"] [⟨some 1, fun _ => "a"⟩] 2 (some [["a"]]),
    .commit 1 ["t"], .check, .write 1]

theorem keptActs_legal : ((leader byK).only (Leader.Clear byK)).Legal .start keptActs := by
  refine ⟨⟨rowCommit_fits "a" rfl (by decide), fun _ none => nomatch none⟩, ⟨trivial, trivial⟩,
    ⟨⟨Nat.le_refl 1, fun _ locked => nomatch locked⟩, fun _ _ found => nomatch found⟩,
    ⟨rowCommit_fits "c" rfl (by decide), fun _ none => nomatch none⟩, ⟨trivial, trivial⟩,
    ⟨Nat.le_refl 2, trivial⟩, ⟨trivial, trivial⟩, ⟨⟨Nat.le_refl 2, fun keys locked => ?_⟩, trivial⟩,
    ⟨⟨rfl, by decide, only_t fun _ other =>
      (Function.update_of_ne other _ _).trans (Function.update_of_ne other _ _)⟩, trivial⟩,
    ⟨trivial, trivial⟩, ⟨⟨_, rfl, own_fits (by decide) ?_⟩, trivial⟩, trivial⟩
  · obtain rfl := Option.some.inj locked
    decide
  · intro part held
    obtain rfl := List.mem_singleton.mp held
    exact ⟨by decide, by decide⟩

theorem keptActs_unlost : ((leader byK).run .start keptActs).written.length = 1 ∧
    ∀ w ∈ ((leader byK).run .start keptActs).written,
      w.Right byK ((leader byK).run .start keptActs).log :=
  ⟨rfl, run_unlost byK keptActs keptActs_legal⟩

end Pondra.Txns
