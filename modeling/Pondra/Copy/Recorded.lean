import Mathlib.Data.List.Basic
import Mathlib.Data.List.Nodup
import Pondra.Base.Dict
import Pondra.Copy.Loads

set_option autoImplicit false

/-! ### A file's version is loaded once -/

namespace Pondra.Copy

open Machines

/-! ### The order of a file's versions -/

/-- The last of a list without repeats is after every other. -/
theorem last_rank (versions : List String) (last : String) (distinct : versions.Nodup)
    (found : versions.getLast? = some last) (version : String) (member : version ∈ versions) :
    versions.idxOf version ≤ versions.idxOf last := by
  obtain ⟨before, rfl⟩ := List.getLast?_eq_some_iff.mp found
  have apart : last ∉ before := by
    have split := List.nodup_append.mp distinct
    intro inside
    exact split.2.2 last inside last (List.mem_singleton_self last) rfl
  have inside := List.idxOf_lt_length_of_mem member
  rw [List.idxOf_append_of_notMem apart]
  simp only [List.length_append, List.length_singleton, List.idxOf_cons_self] at inside ⊢
  omega

/-- A file's versions as they were, and perhaps one more. -/
def State.Grown (s t : State) : Prop := ∀ file, ∃ more, t.files file = s.files file ++ more

theorem Grown.rank {s t : State} (grown : s.Grown t) (l : Load)
    (member : l.version ∈ (s.files l.file).map Prod.fst) : t.rank l = s.rank l := by
  obtain ⟨more, same⟩ := grown l.file
  rw [State.rank, State.rank, same, List.map_append, List.idxOf_append_of_mem member]

theorem Grown.member {s t : State} (grown : s.Grown t) (file : String) (v : String × Nat)
    (member : v ∈ s.files file) : v ∈ t.files file := by
  obtain ⟨more, same⟩ := grown file
  rw [same]
  exact List.mem_append_left _ member

theorem version_member (s : State) (file version : String) (modified : Nat)
    (member : (version, modified) ∈ s.files file) : version ∈ (s.files file).map Prod.fst :=
  List.mem_map.mpr ⟨_, member, rfl⟩

/-- A version was written at one time. -/
theorem modified_unique (s : State) (file version : String) (m n : Nat)
    (distinct : ((s.files file).map Prod.fst).Nodup) (first : (version, m) ∈ s.files file)
    (second : (version, n) ∈ s.files file) : m = n := by
  have same := List.inj_on_of_nodup_map distinct first second rfl
  exact (Prod.mk.inj same).2

/-! ### The invariant -/

/-- A commit's version was written so long ago that no statement without FORCE loads it. -/
def Past (retention : Nat) (s : State) (c : Commit) : Prop :=
  ∃ m, (c.load.version, m) ∈ s.files c.load.file ∧ m + retention < s.clock

/-- A piece whose file's record is as its statement found it: its load is not in yet, and all the file's
loads that are, are of no later version and were in before. -/
structure Fresh (s : State) (p : Piece) : Prop where
  unloaded : ∀ c ∈ s.commits, c.load ≠ p.load
  latest : ∀ c ∈ s.commits, c.load.key = p.load.key → s.rank c.load ≤ s.rank p.load
  before : ∀ c ∈ s.commits, c.load.key = p.load.key → c.n < p.after

/-- What holds of a piece. -/
structure Found (s : State) (p : Piece) : Prop where
  dated : (p.load.version, p.modified) ∈ s.files p.load.file
  turn : p.turn ≤ s.turns p.load.key
  fresh : p.turn = s.turns p.load.key → Fresh s p

/-- What holds of a commit. -/
structure Rows (s : State) (c : Commit) : Prop where
  version : c.of_ = c.load.version
  number : c.n < s.count
  time : c.time ≤ s.clock
  dated : ∃ m, (c.load.version, m) ∈ s.files c.load.file ∧ m ≤ c.time
  forced : c.load.run.isSome → ∃ p ∈ s.pieces, p.load.run = c.load.run

/-- What holds of a record: it is of the file's newest load. -/
structure Newest (s : State) (r : Key × Entry) : Prop where
  key : r.2.job.key = r.1
  version : r.2.job.version = r.2.version
  commit : ∃ c ∈ s.commits, c.load = r.2.job ∧ c.time = r.2.time
  newest : ∀ c ∈ s.commits, c.load.key = r.1 → s.rank c.load ≤ s.rank r.2.job ∧ c.time ≤ r.2.time

/-- What holds of a view: a key that did not change since has the record it had. -/
def Seen (s : State) (v : View) : Prop :=
  ∀ k, v.2 k ≤ s.turns k ∧ (v.2 k = s.turns k → v.1.lookup k = s.records.lookup k)

structure Inv (retention : Nat) (s : State) : Prop where
  distinct : ∀ file, ((s.files file).map Prod.fst).Nodup
  single : (s.records.map Prod.fst).Nodup
  records : ∀ r ∈ s.records, Newest s r
  commits : ∀ c ∈ s.commits, Rows s c
  past : ∀ c ∈ s.commits, (∀ r ∈ s.records, r.1 ≠ c.load.key) → Past retention s c
  pieces : ∀ p ∈ s.pieces, Found s p
  views : ∀ v ∈ s.views, Seen s v
  due : ∀ listing ∈ s.listings, ∀ r ∈ listing, r.2.time + retention < s.clock
  once : (s.commits.map Commit.load).Nodup
  kept : s.early = []
  again : s.late = []

variable {retention : Nat}

theorem lake_inv : Inv retention lake where
  distinct _ := List.nodup_nil
  single := List.nodup_nil
  records _ here := (List.not_mem_nil here).elim
  commits _ here := (List.not_mem_nil here).elim
  past _ here := (List.not_mem_nil here).elim
  pieces _ here := (List.not_mem_nil here).elim
  views v here := by
    intro k
    obtain rfl := List.mem_singleton.mp here
    exact ⟨Nat.le_refl _, fun _ => rfl⟩
  due _ here := (List.not_mem_nil here).elim
  once := List.nodup_nil
  kept := rfl
  again := rfl

/-- A record is found by its key. -/
theorem Inv.lookup {s : State} (inv : Inv retention s) (r : Key × Entry) (here : r ∈ s.records) :
    s.records.lookup r.1 = some r.2 := by
  have found : ∃ e, s.records.lookup r.1 = some e := by
    cases have_ : s.records.lookup r.1 with
    | some e => exact ⟨e, rfl⟩
    | none =>
      have apart := List.lookup_eq_none_iff.mp have_ r here
      simp at apart
  obtain ⟨e, found⟩ := found
  have member := Dicts.mem_of_lookup r.1 s.records e found
  have same := List.inj_on_of_nodup_map inv.single member here rfl
  rw [found, ← same]

theorem Rows.member {s : State} {c : Commit} (rows : Rows s c) :
    c.load.version ∈ (s.files c.load.file).map Prod.fst := by
  obtain ⟨m, dated, -⟩ := rows.dated
  exact version_member s _ _ m dated

/-- Of a list without repeats, at most one is a given value. -/
theorem alone {α : Type} (l : List α) (a : α) (distinct : l.Nodup) (same : ∀ x ∈ l, x = a) :
    l.length ≤ 1 := by
  have every := List.eq_replicate_of_mem same
  rw [every] at distinct
  exact List.nodup_replicate.mp distinct

/-- What is loaded once holds of the rows. -/
theorem Inv.holds {s : State} (inv : Inv retention s) : Holds s where
  once k version run := by
    have distinct := inv.once.sublist ((List.filter_sublist (p := fun c =>
      decide (c.load.key = k ∧ c.of_ = version ∧ c.load.run = run)) (l := s.commits)).map Commit.load)
    have single := alone _ ⟨k.1, k.2, version, run⟩ distinct (by
      intro l member
      obtain ⟨c, inside, rfl⟩ := List.mem_map.mp member
      obtain ⟨here, fits⟩ := List.mem_filter.mp inside
      obtain ⟨rfl, rfl, rfl⟩ := of_decide_eq_true fits
      rw [(inv.commits c here).version]
      rfl)
    rwa [List.length_map] at single
  together r here := by
    have record := inv.records r here
    obtain ⟨c, inside, load, time⟩ := record.commit
    refine ⟨c, inside, load, ?_, ?_, time⟩
    · rw [load, record.key]
    · rw [(inv.commits c inside).version, load, record.version]
  kept := inv.kept
  again := inv.again

/-! ### Steps that change no record -/

structure Quiet (s t : State) : Prop where
  grown : s.Grown t
  records : t.records = s.records
  turns : t.turns = s.turns
  views : t.views = s.views
  commits : t.commits = s.commits
  count : t.count = s.count
  clock : s.clock ≤ t.clock
  early : t.early = s.early
  late : t.late = s.late

theorem State.Grown.refl (s : State) : s.Grown s := fun _ => ⟨[], (List.append_nil _).symm⟩

theorem Quiet.found {s t : State} (quiet : Quiet s t) (inv : Inv retention s) (p : Piece)
    (found : Found s p) : Found t p where
  dated := Grown.member quiet.grown _ _ found.dated
  turn := by
    rw [quiet.turns]
    exact found.turn
  fresh same := by
    rw [quiet.turns] at same
    have fresh := found.fresh same
    refine ⟨?_, ?_, ?_⟩
    · rw [quiet.commits]
      exact fresh.unloaded
    · rw [quiet.commits]
      intro c inside key
      rw [Grown.rank quiet.grown _ (inv.commits c inside).member,
        Grown.rank quiet.grown _ (version_member s _ _ _ found.dated)]
      exact fresh.latest c inside key
    · rw [quiet.commits]
      exact fresh.before

/-- A step that changes no record keeps the invariant when what it does to the pieces does. -/
theorem Quiet.inv {s t : State} (quiet : Quiet s t) (inv : Inv retention s)
    (distinct : ∀ file, ((t.files file).map Prod.fst).Nodup)
    (pieces : ∀ p ∈ t.pieces, Found t p)
    (stay : ∀ p ∈ s.pieces, ∃ q ∈ t.pieces, q.load = p.load)
    (due : ∀ listing ∈ t.listings, ∀ r ∈ listing, r.2.time + retention < t.clock) :
    Inv retention t where
  distinct := distinct
  single := by
    rw [quiet.records]
    exact inv.single
  records r here := by
    rw [quiet.records] at here
    have record := inv.records r here
    refine ⟨record.key, record.version, ?_, ?_⟩
    · rw [quiet.commits]
      exact record.commit
    · rw [quiet.commits]
      intro c inside key
      obtain ⟨own, mine, load, -⟩ := record.commit
      have member : r.2.job.version ∈ (s.files r.2.job.file).map Prod.fst := by
        rw [← load]
        exact (inv.commits own mine).member
      rw [Grown.rank quiet.grown _ (inv.commits c inside).member, Grown.rank quiet.grown _ member]
      exact record.newest c inside key
  commits c here := by
    rw [quiet.commits] at here
    have rows := inv.commits c here
    refine ⟨rows.version, ?_, Nat.le_trans rows.time quiet.clock, ?_, ?_⟩
    · rw [quiet.count]
      exact rows.number
    · obtain ⟨m, dated, early⟩ := rows.dated
      exact ⟨m, Grown.member quiet.grown _ _ dated, early⟩
    · intro forced
      obtain ⟨p, inside, same⟩ := rows.forced forced
      obtain ⟨q, there, load⟩ := stay p inside
      exact ⟨q, there, by rw [load, same]⟩
  past c here unrecorded := by
    rw [quiet.commits] at here
    rw [quiet.records] at unrecorded
    obtain ⟨m, dated, old⟩ := inv.past c here unrecorded
    exact ⟨m, Grown.member quiet.grown _ _ dated, Nat.lt_of_lt_of_le old quiet.clock⟩
  pieces := pieces
  views v here k := by
    rw [quiet.views] at here
    rw [quiet.turns, quiet.records]
    exact inv.views v here k
  due := due
  once := by
    rw [quiet.commits]
    exact inv.once
  kept := quiet.early.trans inv.kept
  again := quiet.late.trans inv.again

/-- A file gets a version it had not before. -/
theorem Inv.change {s : State} (inv : Inv retention s) (file version : String) (modified : Nat)
    (fresh : version ∉ (s.files file).map Prod.fst) :
    Inv retention (next retention s (.change file version modified)) := by
  have grown : s.Grown (next retention s (.change file version modified)) := by
    intro other
    by_cases same : other = file
    · subst same
      exact ⟨[(version, modified)], if_pos rfl⟩
    · exact ⟨[], (if_neg same).trans (List.append_nil _).symm⟩
  have quiet : Quiet s (next retention s (.change file version modified)) :=
    ⟨grown, rfl, rfl, rfl, rfl, rfl, Nat.le_refl _, rfl, rfl⟩
  apply quiet.inv inv
  · intro other
    by_cases same : other = file
    · subst same
      simp only [next, if_true, List.map_append, List.map_cons, List.map_nil]
      exact List.nodup_append.mpr ⟨inv.distinct other, List.nodup_singleton _, by
        intro a inside b last equal
        rw [List.mem_singleton.mp last] at equal
        exact fresh (equal ▸ inside)⟩
    · simp only [next, if_neg same]
      exact inv.distinct other
  · intro p inside
    exact quiet.found inv p (inv.pieces p inside)
  · exact fun p inside => ⟨p, inside, rfl⟩
  · exact inv.due

/-- What the pieces are of stays when one is replaced by one of the same load and listing. -/
theorem set_stays (pieces : List Piece) (i : Nat) (p q : Piece) (there : pieces[i]? = some p)
    (load : q.load = p.load) : ∀ r ∈ pieces, ∃ r' ∈ pieces.set i q, r'.load = r.load := by
  intro r inside
  obtain ⟨j, bound, rfl⟩ := List.mem_iff_getElem.mp inside
  by_cases same : j = i
  · subst same
    refine ⟨q, List.mem_set bound _, ?_⟩
    rw [List.getElem?_eq_getElem bound] at there
    rw [load, Option.some.inj there]
  · exact ⟨_, List.getElem_mem (l := pieces.set i q) (by simpa using bound),
      by rw [List.getElem_set_ne (Ne.symm same)]⟩

/-- A piece is read, or its INSERT is sent and lost. -/
theorem Inv.set {s : State} (inv : Inv retention s) (i : Nat) (p q : Piece)
    (there : s.pieces[i]? = some p) (load : q.load = p.load) (modified : q.modified = p.modified)
    (turn : q.turn = p.turn) (after : q.after = p.after) :
    Inv retention { s with pieces := s.pieces.set i q } := by
  have quiet : Quiet s { s with pieces := s.pieces.set i q } :=
    ⟨State.Grown.refl s, rfl, rfl, rfl, rfl, rfl, Nat.le_refl _, rfl, rfl⟩
  apply quiet.inv inv inv.distinct
  · intro r inside
    apply quiet.found inv
    rcases List.mem_or_eq_of_mem_set inside with old | rfl
    · exact inv.pieces r old
    · have found := inv.pieces p (List.mem_of_getElem? there)
      refine ⟨by rw [load, modified]; exact found.dated, by rw [load, turn]; exact found.turn, ?_⟩
      intro same
      rw [load, turn] at same
      have fresh := found.fresh same
      refine ⟨?_, ?_, ?_⟩
      · rw [load]
        exact fresh.unloaded
      · rw [load]
        exact fresh.latest
      · rw [load, after]
        exact fresh.before
  · exact set_stays s.pieces i p q there load
  · exact inv.due

/-- Time passes. -/
theorem Inv.tick {s : State} (inv : Inv retention s) (now : Nat) :
    Inv retention { s with clock := max s.clock now } := by
  have quiet : Quiet s { s with clock := max s.clock now } :=
    ⟨State.Grown.refl s, rfl, rfl, rfl, rfl, rfl, Nat.le_max_left _ _, rfl, rfl⟩
  apply quiet.inv inv inv.distinct
  · exact fun p inside => quiet.found inv p (inv.pieces p inside)
  · exact fun p inside => ⟨p, inside, rfl⟩
  · intro listing inside r here
    exact Nat.lt_of_lt_of_le (inv.due listing inside r here) (Nat.le_max_left _ _)

/-! ### A statement's files -/

/-- What a statement found to load. -/
theorem wanted_found {s : State} (inv : Inv retention s) (view : View) (seen : Seen s view)
    (folder file : String) (run : Option Nat) (now : Nat) (later : s.clock ≤ now)
    (mine : ∀ p ∈ s.pieces, run.isSome → p.load.run ≠ run) (p : Piece)
    (found : wanted retention s view folder run now file = some p) : Found s p := by
  unfold wanted at found
  split at found
  · cases found
  · rename_i version modified last
    dsimp only at found
    split at found
    · cases found
    · rename_i load
      obtain rfl := Option.some.inj found
      have dated : (version, modified) ∈ s.files file := List.mem_of_getLast? last
      have final : ((s.files file).map Prod.fst).getLast? = some version := by
        rw [List.getLast?_map, last]
        rfl
      have top : ∀ c ∈ s.commits, c.load.key = (folder, file) →
          s.rank c.load ≤ s.rank ⟨folder, file, version, run⟩ := by
        intro c inside key
        have file_ : c.load.file = file := (Prod.mk.inj key).2
        have member := (inv.commits c inside).member
        rw [State.rank, State.rank, file_]
        rw [file_] at member
        exact last_rank _ version (inv.distinct file) final _ member
      refine ⟨dated, (seen (folder, file)).1, fun same => ⟨?_, top, ?_⟩⟩
      · intro c inside equal
        have key : c.load.key = (folder, file) := by rw [equal]; rfl
        cases run with
        | some n =>
          obtain ⟨q, there, shared⟩ := (inv.commits c inside).forced (by rw [equal]; rfl)
          exact mine q there rfl (by rw [shared, equal])
        | none =>
          simp only [Option.isNone_none, Bool.true_and, Bool.or_eq_true, not_or] at load
          obtain ⟨done, old⟩ := load
          by_cases recorded : ∃ r ∈ s.records, r.1 = (folder, file)
          · obtain ⟨r, here, at_⟩ := recorded
            -- the record is of a version as new as the commit's, which is the last: of this one
            have record := inv.records r here
            obtain ⟨own, there, job, -⟩ := record.commit
            have place : r.2.job.key = (folder, file) := record.key.trans at_
            have file_ : r.2.job.file = file := (Prod.mk.inj place).2
            have member : r.2.job.version ∈ (s.files file).map Prod.fst := by
              rw [← file_, ← job]
              exact (inv.commits own there).member
            have least := (record.newest c inside (key.trans at_.symm)).1
            rw [equal, State.rank, State.rank, file_] at least
            have most := last_rank _ version (inv.distinct file) final _ member
            have one := (List.idxOf_inj member).mp (Nat.le_antisymm most least)
            have lookup : view.1.lookup (folder, file) = some r.2 := by
              rw [(seen (folder, file)).2 same, ← at_]
              exact inv.lookup r here
            apply done
            rw [lookup, Option.any_some, decide_eq_true_eq, ← record.version]
            exact one
          · obtain ⟨m, when_, past⟩ := inv.past c inside (by
              intro r here at_
              exact recorded ⟨r, here, at_.trans key⟩)
            rw [equal] at when_
            have time := modified_unique s file version m modified (inv.distinct file) when_ dated
            apply old
            rw [decide_eq_true_eq]
            omega
      · exact fun c inside _ => (inv.commits c inside).number

theorem Inv.copy {s : State} (inv : Inv retention s) (folder : String) (files : List String)
    (run : Option Nat) (leads : Bool) (view : View) (now : Nat) (known : view ∈ s.views)
    (later : s.clock ≤ now) (mine : ∀ p ∈ s.pieces, run.isSome → p.load.run ≠ run) :
    Inv retention (copyInto retention s folder files run leads view now) := by
  have quiet : Quiet s (copyInto retention s folder files run leads view now) :=
    ⟨State.Grown.refl s, rfl, rfl, rfl, rfl, rfl, Nat.le_max_left _ _, rfl, rfl⟩
  apply quiet.inv inv inv.distinct
  · intro p inside
    apply quiet.found inv
    rcases List.mem_append.mp inside with old | new
    · exact inv.pieces p old
    · obtain ⟨file, -, found⟩ := List.mem_filterMap.mp new
      exact wanted_found inv view (inv.views view known) folder file run now later mine p found
  · exact fun p inside => ⟨p, List.mem_append_left _ inside, rfl⟩
  · intro listing inside r here
    have clock : now ≤ max s.clock now := Nat.le_max_right _ _
    simp only [copyInto] at inside ⊢
    split at inside
    · rcases List.mem_append.mp inside with old | new
      · have due := inv.due listing old r here
        omega
      · obtain rfl := List.mem_singleton.mp new
        obtain ⟨-, fits⟩ := List.mem_filter.mp here
        obtain ⟨-, due⟩ := Bool.and_eq_true_iff.mp fits
        have due := of_decide_eq_true due
        omega
    · have due := inv.due listing inside r here
      omega

/-! ### A load is recorded -/

theorem submit_spec (s : State) (i now : Nat) :
    submit s i now = s ∨ ∃ p, s.pieces[i]? = some p ∧ ∃ version, p.read = some version ∧
      let sent := { s with pieces := s.pieces.set i { p with tried := true } }
      (p.load ∈ s.marks ∧ submit s i now = { sent with clock := max s.clock now }) ∨
      (p.load ∉ s.marks ∧ submit s i now = record sent p version now) := by
  unfold submit
  split
  · exact .inl rfl
  · rename_i p there
    split
    · exact .inl rfl
    · rename_i version read
      right
      refine ⟨p, there, version, read, ?_⟩
      split
      · rename_i kept
        exact .inl ⟨kept, rfl⟩
      · rename_i lost
        exact .inr ⟨lost, rfl⟩

/-- A record at another key is one there was. -/
theorem other_record (s : State) (key : Key) (entry : Entry) (r : Key × Entry)
    (here : r ∈ (key, entry) :: s.records.filter fun r => decide (r.1 ≠ key)) :
    r = (key, entry) ∨ r ∈ s.records ∧ r.1 ≠ key := by
  rcases List.mem_cons.mp here with new | old
  · exact .inl new
  · obtain ⟨inside, other⟩ := List.mem_filter.mp old
    exact .inr ⟨inside, of_decide_eq_true other⟩

theorem turn_other (s : State) (records : List (Key × Entry)) (keys : Key → Bool) (k : Key)
    (other : keys k = false) : (s.changed records keys).turns k = s.turns k := by
  simp [State.changed, other]

theorem turn_next (s : State) (records : List (Key × Entry)) (keys : Key → Bool) (k : Key)
    (changed : keys k = true) : (s.changed records keys).turns k = s.turns k + 1 := by
  simp [State.changed, changed]

theorem turn_le (s : State) (records : List (Key × Entry)) (keys : Key → Bool) (k : Key) :
    s.turns k ≤ (s.changed records keys).turns k := by
  cases changed : keys k
  · rw [turn_other s records keys k changed]
  · rw [turn_next s records keys k changed]
    omega

/-- Views before a change to some keys' records are views after it. -/
theorem changed_seen {s : State} (inv : Inv retention s) (records : List (Key × Entry))
    (keys : Key → Bool)
    (rest : ∀ k, keys k = false → records.lookup k = s.records.lookup k) (v : View)
    (here : v ∈ (s.changed records keys).views) : Seen (s.changed records keys) v := by
  rcases List.mem_cons.mp here with rfl | old
  · exact fun k => ⟨Nat.le_refl _, fun _ => rfl⟩
  · intro k
    obtain ⟨below, same⟩ := inv.views v old k
    refine ⟨Nat.le_trans below (turn_le s records keys k), fun now_ => ?_⟩
    cases changed : keys k
    · rw [turn_other s records keys k changed] at now_
      exact (same now_).trans (rest k changed).symm
    · rw [turn_next s records keys k changed] at now_
      omega

/-- What is kept of every entry of a key is found as before. -/
theorem lookup_filter (records : List (Key × Entry)) (keep : Key → Bool) (k : Key)
    (stays : keep k = true) :
    (records.filter fun r => keep r.1).lookup k = records.lookup k := by
  induction records with
  | nil => rfl
  | cons r rest ih =>
    obtain ⟨key, entry⟩ := r
    by_cases same : k = key
    · subst same
      simp [stays]
    · have apart : (k == key) = false := beq_false_of_ne same
      cases here : keep key <;> simp [here, List.lookup_cons, apart, ih]

theorem record_turns (s : State) (p : Piece) (version : String) (now : Nat) :
    (record s p version now).turns =
      (s.changed s.records fun k => decide (k = p.load.key)).turns := rfl

/-- A load whose file's record is as its statement found it is recorded, with the rows it listed. -/
theorem Inv.record {s : State} (inv : Inv retention s) (p : Piece) (now : Nat)
    (found : Found s p) (same : p.turn = s.turns p.load.key)
    (there : ∃ q ∈ s.pieces, q.load = p.load) (later : s.clock ≤ now) (aged : p.modified ≤ now) :
    Inv retention (record s p p.load.version now) := by
  have fresh := found.fresh same
  have clock : now ≤ max s.clock now := Nat.le_max_right _ _
  have grows : s.clock ≤ max s.clock now := Nat.le_max_left _ _
  have other (c : Commit) (inside : c ∈ (Copy.record s p p.load.version now).commits) :
      c ∈ s.commits ∨ c = ⟨s.count, p.load, p.load.version, now⟩ := by
    rcases List.mem_append.mp inside with old | new
    · exact .inl old
    · exact .inr (List.mem_singleton.mp new)
  refine ⟨inv.distinct, ?_, ?_, ?_, ?_, ?_, ?_, ?_, ?_, ?_, ?_⟩
  · apply List.nodup_cons.mpr
    refine ⟨?_, inv.single.sublist (List.filter_sublist.map _)⟩
    intro inside
    obtain ⟨r, here, key⟩ := List.mem_map.mp inside
    exact of_decide_eq_true (List.mem_filter.mp here).2 key
  · intro r here
    rcases other_record s _ _ r here with rfl | ⟨old, apart⟩
    · refine ⟨rfl, rfl, ⟨_, List.mem_append_right _ (List.mem_singleton_self _), rfl, rfl⟩, ?_⟩
      intro c inside key
      rcases other c inside with old | rfl
      · exact ⟨fresh.latest c old key, Nat.le_trans (inv.commits c old).time later⟩
      · exact ⟨Nat.le_refl _, Nat.le_refl _⟩
    · have record := inv.records r old
      obtain ⟨own, mine, job, time⟩ := record.commit
      refine ⟨record.key, record.version, ⟨own, List.mem_append_left _ mine, job, time⟩, ?_⟩
      intro c inside key
      rcases other c inside with before | rfl
      · exact record.newest c before key
      · exact absurd key.symm apart
  · intro c inside
    rcases other c inside with old | rfl
    · have rows := inv.commits c old
      exact ⟨rows.version, Nat.lt_succ_of_lt rows.number, Nat.le_trans rows.time grows, rows.dated,
        rows.forced⟩
    · exact ⟨rfl, Nat.lt_succ_self _, clock, ⟨p.modified, found.dated, aged⟩,
        fun _ => there.imp fun q here => ⟨here.1, by rw [here.2]⟩⟩
  · intro c inside unrecorded
    have apart := unrecorded _ List.mem_cons_self
    rcases other c inside with old | rfl
    · obtain ⟨m, dated, past⟩ := inv.past c old (by
        intro r here key
        refine unrecorded r (List.mem_cons_of_mem _ (List.mem_filter.mpr ⟨here, ?_⟩)) key
        rw [decide_eq_true_eq, key]
        exact Ne.symm apart)
      exact ⟨m, dated, Nat.lt_of_lt_of_le past grows⟩
    · exact absurd rfl apart
  · intro q inside
    have listed := inv.pieces q inside
    have turn := turn_le s s.records (fun k => decide (k = p.load.key)) q.load.key
    rw [← record_turns s p p.load.version now] at turn
    refine ⟨listed.dated, Nat.le_trans listed.turn turn, ?_⟩
    intro now_
    rw [record_turns] at now_
    have apart : q.load.key ≠ p.load.key := by
      intro key
      rw [turn_next s _ _ _ (decide_eq_true key)] at now_
      have below := listed.turn
      omega
    rw [turn_other s _ _ _ (decide_eq_false apart)] at now_
    have old := listed.fresh now_
    refine ⟨?_, ?_, ?_⟩
    · intro c inside equal
      rcases other c inside with before | rfl
      · exact old.unloaded c before equal
      · exact apart (by rw [← equal])
    · intro c inside key
      rcases other c inside with before | rfl
      · exact old.latest c before key
      · exact absurd key.symm apart
    · intro c inside key
      rcases other c inside with before | rfl
      · exact old.before c before key
      · exact absurd key.symm apart
  · intro v here
    apply changed_seen inv _ _ ?_ v here
    intro k apart
    have apart := of_decide_eq_false apart
    rw [List.lookup_cons, beq_false_of_ne apart]
    exact lookup_filter s.records (fun k => decide (k ≠ p.load.key)) k (decide_eq_true apart)
  · intro listing inside r here
    exact Nat.lt_of_lt_of_le (inv.due listing inside r here) grows
  · have loads : (Copy.record s p p.load.version now).commits.map Commit.load =
        s.commits.map Commit.load ++ [p.load] := List.map_append
    rw [loads]
    apply List.nodup_append.mpr
    refine ⟨inv.once, List.nodup_singleton _, ?_⟩
    intro l inside l' last equal
    obtain ⟨c, here, rfl⟩ := List.mem_map.mp inside
    rw [List.mem_singleton.mp last] at equal
    exact fresh.unloaded c here equal
  · have none_ : (s.records.filter fun r => decide (r.1 = p.load.key) &&
        decide (s.rank p.load < s.rank r.2.job)) = [] := by
      apply List.filter_eq_nil_iff.mpr
      intro r here fits
      obtain ⟨key, newer⟩ := Bool.and_eq_true_iff.mp fits
      have record := inv.records r here
      obtain ⟨c, inside, job, -⟩ := record.commit
      have least := fresh.latest c inside (by
        rw [job, record.key]
        exact of_decide_eq_true key)
      rw [job] at least
      have newer := of_decide_eq_true newer
      omega
    show s.early ++ _ = []
    rw [none_, inv.kept]
    rfl
  · have none_ : ¬(p.tried ∧ ∃ c ∈ s.commits, c.load.key = p.load.key ∧ c.load ≠ p.load ∧
        p.after ≤ c.n) := by
      rintro ⟨-, c, inside, key, -, since⟩
      have before := fresh.before c inside key
      omega
    exact (if_neg none_).trans inv.again

/-! ### Records go -/

/-- The records of some keys go, and perhaps commits of those keys. -/
structure Cleared (s t : State) (gone : Key → Bool) (stays : Commit → Bool) : Prop where
  files : t.files = s.files
  records : t.records = s.records.filter fun r => !gone r.1
  turns : t.turns = (s.changed s.records gone).turns
  views : t.views = (t.records, t.turns) :: s.views
  pieces : t.pieces = s.pieces
  listings : t.listings = s.listings
  clock : t.clock = s.clock
  commits : t.commits = s.commits.filter stays
  count : t.count = s.count
  kept : ∀ c ∈ s.commits, gone c.load.key = false → stays c = true

theorem Cleared.rank {s t : State} {gone : Key → Bool} {stays : Commit → Bool}
    (cleared : Cleared s t gone stays) (l : Load) : t.rank l = s.rank l := by
  rw [State.rank, State.rank, cleared.files]

theorem Cleared.commit {s t : State} {gone : Key → Bool} {stays : Commit → Bool}
    (cleared : Cleared s t gone stays) (c : Commit) (inside : c ∈ t.commits) : c ∈ s.commits := by
  rw [cleared.commits] at inside
  exact (List.mem_filter.mp inside).1

theorem Cleared.record {s t : State} {gone : Key → Bool} {stays : Commit → Bool}
    (cleared : Cleared s t gone stays) (r : Key × Entry) :
    r ∈ t.records ↔ r ∈ s.records ∧ gone r.1 = false := by
  rw [cleared.records, List.mem_filter, Bool.not_eq_true']

theorem Cleared.inv {s t : State} {gone : Key → Bool} {stays : Commit → Bool}
    (cleared : Cleared s t gone stays) (inv : Inv retention s)
    (past : ∀ c ∈ t.commits, gone c.load.key = true → Past retention s c)
    (early : t.early = []) (late : t.late = s.late) : Inv retention t := by
  refine ⟨?_, ?_, ?_, ?_, ?_, ?_, ?_, ?_, ?_, early, late.trans inv.again⟩
  · rw [cleared.files]
    exact inv.distinct
  · rw [cleared.records]
    exact inv.single.sublist (List.filter_sublist.map _)
  · intro r here
    obtain ⟨old, stays_⟩ := (cleared.record r).mp here
    have record := inv.records r old
    obtain ⟨c, inside, job, time⟩ := record.commit
    refine ⟨record.key, record.version, ⟨c, ?_, job, time⟩, ?_⟩
    · rw [cleared.commits]
      refine List.mem_filter.mpr ⟨inside, cleared.kept c inside ?_⟩
      rw [job, record.key, stays_]
    · intro c inside key
      rw [cleared.rank, cleared.rank]
      exact record.newest c (cleared.commit c inside) key
  · intro c inside
    have rows := inv.commits c (cleared.commit c inside)
    refine ⟨rows.version, by rw [cleared.count]; exact rows.number,
      by rw [cleared.clock]; exact rows.time, by rw [cleared.files]; exact rows.dated, ?_⟩
    rw [cleared.pieces]
    exact rows.forced
  · intro c inside unrecorded
    rw [Past, cleared.files, cleared.clock]
    cases went : gone c.load.key
    · apply inv.past c (cleared.commit c inside)
      intro r here key
      exact unrecorded r ((cleared.record r).mpr ⟨here, by rw [key, went]⟩) key
    · exact past c inside went
  · intro p inside
    rw [cleared.pieces] at inside
    have found := inv.pieces p inside
    refine ⟨by rw [cleared.files]; exact found.dated, ?_, ?_⟩
    · rw [cleared.turns]
      exact Nat.le_trans found.turn (turn_le s _ _ _)
    · intro same
      have below := found.turn
      rw [cleared.turns] at same
      cases went : gone p.load.key
      · rw [turn_other s _ _ _ went] at same
        have fresh := found.fresh same
        refine ⟨fun c inside => fresh.unloaded c (cleared.commit c inside), ?_,
          fun c inside => fresh.before c (cleared.commit c inside)⟩
        intro c inside key
        rw [cleared.rank, cleared.rank]
        exact fresh.latest c (cleared.commit c inside) key
      · rw [turn_next s _ _ _ went] at same
        omega
  · intro v here
    have seen := changed_seen inv t.records gone (by
      intro k stays_
      rw [cleared.records]
      exact lookup_filter s.records (fun k => !gone k) k (by rw [stays_]; rfl)) v
    rw [cleared.views] at here
    have turns : (s.changed t.records gone).turns = t.turns := cleared.turns.symm
    have views : (s.changed t.records gone).views = t.views := by
      rw [cleared.views, ← turns]
      rfl
    rw [views, cleared.views] at seen
    intro k
    have one := seen here k
    rw [turns] at one
    exact one
  · rw [cleared.listings, cleared.clock]
    exact inv.due
  · rw [cleared.commits]
    exact inv.once.sublist (List.filter_sublist.map _)

/-- Records listed past the retention go while no newer one is there. -/
theorem Inv.sweep {s : State} (inv : Inv retention s) (listing : List (Key × Entry))
    (due : ∀ r ∈ listing, r.2.time + retention < s.clock)
    (still : ∀ r ∈ listing, ∀ q ∈ s.records, q.1 = r.1 → q = r) :
    Inv retention (sweep retention s listing) := by
  have overdue (q : Key × Entry) (here : q ∈ s.records) (listed : q.1 ∈ listing.map Prod.fst) :
      q.2.time + retention < s.clock := by
    obtain ⟨r, inside, key⟩ := List.mem_map.mp listed
    rw [still r inside q here key.symm]
    exact due r inside
  have cleared : Cleared s (Copy.sweep retention s listing)
      (fun k => decide (k ∈ listing.map Prod.fst)) (fun _ => true) := by
    refine ⟨rfl, ?_, rfl, rfl, rfl, rfl, rfl, (List.filter_true _).symm, rfl, fun _ _ _ => rfl⟩
    simp [Copy.sweep, State.changed]
  apply cleared.inv inv
  · intro c inside listed
    have inside := cleared.commit c inside
    by_cases recorded : ∃ r ∈ s.records, r.1 = c.load.key
    · obtain ⟨r, here, key⟩ := recorded
      have old := overdue r here (by rw [key]; exact of_decide_eq_true listed)
      obtain ⟨m, dated, early⟩ := (inv.commits c inside).dated
      have time := ((inv.records r here).newest c inside key.symm).2
      exact ⟨m, dated, by omega⟩
    · exact inv.past c inside (fun r here key => recorded ⟨r, here, key⟩)
  · have none_ : (s.records.filter fun r => decide (r.1 ∈ listing.map Prod.fst) &&
        !decide (r.2.time + retention < s.clock)) = [] := by
      apply List.filter_eq_nil_iff.mpr
      intro r here fits
      obtain ⟨listed, early⟩ := Bool.and_eq_true_iff.mp fits
      have old := overdue r here (of_decide_eq_true listed)
      simp [old] at early
    show s.early ++ _ = []
    rw [none_, inv.kept]
    rfl
  · rfl

/-- Folders go, with their records and rows. -/
theorem Inv.letGo {s : State} (inv : Inv retention s) (folders : List String) :
    Inv retention (letGo s folders) := by
  have cleared : Cleared s (Copy.letGo s folders) (fun k => decide (k.1 ∈ folders))
      (fun c => decide (c.load.folder ∉ folders)) := by
    refine ⟨rfl, ?_, rfl, rfl, rfl, rfl, rfl, rfl, rfl, ?_⟩
    · simp [Copy.letGo, State.changed]
    · intro c _ stays
      exact decide_eq_true (of_decide_eq_false stays)
  apply cleared.inv inv
  · intro c inside gone
    rw [cleared.commits] at inside
    exact absurd (of_decide_eq_true gone) (of_decide_eq_true (List.mem_filter.mp inside).2)
  · exact inv.kept
  · rfl

/-! ### Runs -/

theorem next_inv (s : State) (op : Op) (inv : Inv retention s)
    (allowed : ((loads retention).only Sure).Allows s op) :
    Inv retention (((loads retention).only Sure).next s op) := by
  obtain ⟨allows, sure⟩ := allowed
  cases op with
  | change file version modified => exact inv.change file version modified sure
  | copy folder files run leads view now =>
    simp only [Machine.only_next, loads, next]
    split
    · exact inv
    · rename_i view there
      exact inv.copy folder files run leads view now (List.mem_of_getElem? there) allows.1 allows.2
  | read i =>
    simp only [Machine.only_next, loads, next, readFile]
    split
    · exact inv
    · rename_i p there
      exact inv.set i p _ there rfl rfl rfl rfl
  | lose i =>
    simp only [Machine.only_next, loads, next, lose]
    split
    · exact inv
    · rename_i p there
      exact inv.set i p _ there rfl rfl rfl rfl
  | submit i now =>
    show Inv retention (submit s i now)
    rcases submit_spec s i now with same | ⟨p, there, version, read, sent⟩
    · rw [same]
      exact inv
    · have tried := inv.set i p { p with tried := true } there rfl rfl rfl rfl
      rcases sent with ⟨-, same⟩ | ⟨lost, same⟩
      · rw [same]
        exact tried.tick now
      · rcases sure p there with kept | ⟨turn, listed⟩
        · exact absurd kept lost
        · have version_ := listed version read
          subst version_
          have recorded := tried.record p now (by
            have found := inv.pieces p (List.mem_of_getElem? there)
            exact ⟨found.dated, found.turn, fun same =>
              ⟨(found.fresh same).unloaded, (found.fresh same).latest, (found.fresh same).before⟩⟩)
            turn (set_stays s.pieces i p { p with tried := true } there rfl p
              (List.mem_of_getElem? there))
            allows.1 (allows.2 p there)
          rw [same]
          exact recorded
  | expire i =>
    simp only [Machine.only_next, loads, next]
    split
    · exact inv
    · rename_i listing there
      exact inv.sweep listing (inv.due listing (List.mem_of_getElem? there)) (sure listing there)
  | letGo folders => exact inv.letGo folders

end Pondra.Copy
