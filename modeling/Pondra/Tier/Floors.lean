import Pondra.Tier.Retention

set_option autoImplicit false

namespace Pondra.Tier

open Dicts Machines

/-! ### Entries -/

section entries

variable {α : Type}

theorem mem_put (key : String) (value : α) (entries : List (String × α)) (e : String × α)
    (inside : e ∈ put key value entries) : e = (key, value) ∨ e ∈ entries := by
  induction entries with
  | nil => exact .inl (List.mem_singleton.mp inside)
  | cons first rest ih =>
    rw [put] at inside
    split at inside
    · exact (List.mem_cons.mp inside).imp id (List.mem_cons_of_mem _)
    · split at inside
      · exact List.mem_cons.mp inside
      · rcases List.mem_cons.mp inside with rfl | inside
        · exact .inr List.mem_cons_self
        · exact (ih inside).imp id (List.mem_cons_of_mem _)

theorem mem_remove (key : String) (entries : List (String × α)) (e : String × α)
    (inside : e ∈ remove key entries) : e ∈ entries :=
  (List.mem_filter.mp inside).1

end entries

theorem mem_made (lake : Lake) (table : String) (tiered : Nat) (t : String × Nat)
    (inside : t ∈ lake.made table tiered) :
    t ∈ lake.tables ∨ ((lake.tables.lookup table).isSome = false ∧ t = (table, tiered)) := by
  rw [Lake.made] at inside
  split at inside
  · exact .inl inside
  · rename_i new
    rcases mem_put table tiered _ t inside with is | inside
    · exact .inr ⟨Bool.eq_false_iff.mpr new, is⟩
    · exact .inl inside

/-! ### The floor -/

theorem mem_between (lake : Lake) (after upto : Nat) (seg : Segment) :
    seg ∈ lake.between after upto ↔ seg ∈ lake.segments ∧ after < seg.n ∧ seg.n ≤ upto := by
  simp [Lake.between]

theorem lowest_le (lake : Lake) (none : Nat) (t : String × Nat) (inside : t ∈ lake.tables) :
    lake.lowest none ≤ t.2 := by
  have there : t.2 ∈ lake.tables.map (·.2) := List.mem_map_of_mem inside
  rw [Lake.lowest]
  cases least : (lake.tables.map (·.2)).min? with
  | none =>
    rw [List.min?_eq_none_iff.mp least] at there
    cases there
  | some m => exact (List.min?_eq_some_iff.mp least).2 _ there

theorem lowest_hwm (lake : Lake) (marks : ∀ t ∈ lake.tables, t.2 ≤ lake.hwm) :
    lake.lowest 0 ≤ lake.hwm := by
  rw [Lake.lowest]
  cases least : (lake.tables.map (·.2)).min? with
  | none => exact Nat.zero_le _
  | some m =>
    obtain ⟨t, inside, rfl⟩ := List.mem_map.mp (List.min?_eq_some_iff.mp least).1
    exact marks t inside

theorem lower_le (lake : Lake) (floor : Nat) (r : Reader) : lake.lower floor r ≤ floor := by
  rw [Lake.lower]
  split
  · rename_i both
    exact both.1.le
  · exact Nat.le_refl _

theorem lower_read (lake : Lake) (floor : Nat) (r : Reader) :
    lake.Read (lake.lower floor r) r := by
  intro seg inside after upto
  rw [Lake.lower] at upto
  split at upto
  · omega
  · rename_i none
    by_contra reads
    refine none ⟨by omega, List.any_eq_true.mpr ⟨seg, ?_, by simpa using reads⟩⟩
    exact (mem_between lake _ _ seg).mpr ⟨inside, after, upto⟩

theorem read_mono (lake : Lake) (floor lower : Nat) (r : Reader) (less : lower ≤ floor)
    (read : lake.Read floor r) : lake.Read lower r :=
  fun seg inside after upto => read seg inside after (upto.trans less)

theorem foldl_lower (lake : Lake) (readers : List Reader) (floor : Nat) :
    readers.foldl lake.lower floor ≤ floor ∧
      ∀ r ∈ readers, lake.Read (readers.foldl lake.lower floor) r := by
  induction readers generalizing floor with
  | nil => simp
  | cons first rest ih =>
    rw [List.foldl_cons]
    obtain ⟨less, read⟩ := ih (lake.lower floor first)
    refine ⟨less.trans (lower_le lake floor first), fun r inside => ?_⟩
    rcases List.mem_cons.mp inside with rfl | inside
    · exact read_mono lake _ _ r less (lower_read lake floor r)
    · exact read r inside

/-- Nothing below the floor is still to be tiered or read. -/
structure Lake.Clear (lake : Lake) (floor : Nat) : Prop where
  within : floor ≤ lake.hwm
  tables : ∀ t ∈ lake.tables, floor ≤ t.2
  readers : ∀ r ∈ lake.readers, lake.Read floor r

theorem floor_clear (lake : Lake) (marks : ∀ t ∈ lake.tables, t.2 ≤ lake.hwm) :
    lake.Clear lake.floor where
  within := (foldl_lower lake lake.readers _).1.trans (lowest_hwm lake marks)
  tables t inside := (foldl_lower lake lake.readers _).1.trans (lowest_le lake 0 t inside)
  readers := (foldl_lower lake lake.readers _).2

/-! ### The queue -/

theorem passed_sublist (cutoff : Nat) (floors : List (Nat × Nat)) :
    (passed cutoff floors).Sublist floors := by
  induction floors with
  | nil => exact List.Sublist.refl _
  | cons a rest ih =>
    cases rest with
    | nil => exact List.Sublist.refl _
    | cons b others =>
      rw [passed]
      split
      · exact ih.cons a
      · exact List.Sublist.refl _

/-! ### Steps -/

structure Inv (s : State) : Prop where
  ends : ∀ seg ∈ s.lake.segments, seg.n ≤ s.lake.hwm
  marks : ∀ t ∈ s.lake.tables, t.2 ≤ s.lake.hwm
  clear : ∀ f ∈ s.floors, s.lake.Clear f.2
  queued : ∀ f ∈ s.floors, f ∈ s.rounds
  finds : s.Finds

/-- A step that deletes nothing leaves the queue and moves each mark on, or no further back than
the queue's floors. -/
structure Quiet (s after : State) : Prop where
  hwm : s.lake.hwm ≤ after.lake.hwm
  segments : ∀ seg ∈ after.lake.segments, seg ∈ s.lake.segments ∨
    (s.lake.hwm < seg.n ∧ seg.n ≤ after.lake.hwm)
  kept : ∀ seg ∈ s.lake.segments, seg ∈ after.lake.segments
  tables : ∀ t ∈ after.lake.tables, t.2 ≤ after.lake.hwm ∧
    ((∃ old ∈ s.lake.tables, old.2 ≤ t.2) ∨ ∀ f ∈ s.floors, f.2 ≤ t.2)
  readers : ∀ r ∈ after.lake.readers,
    (r ∈ s.lake.readers ∧ s.lake.done r.producer ≤ after.lake.done r.producer) ∨
    (r.made = s.gone.length ∧ s.lake.done r.producer = after.lake.done r.producer ∧
      ∀ f ∈ s.floors, s.lake.Read f.2 r)
  floors : ∀ f ∈ after.floors, f ∈ s.floors
  rounds : after.rounds = s.rounds
  gone : after.gone = s.gone

theorem quiet_inv (s after : State) (inv : Inv s) (quiet : Quiet s after) : Inv after where
  ends seg inside := by
    rcases quiet.segments seg inside with old | new
    · exact (inv.ends seg old).trans quiet.hwm
    · exact new.2
  marks t inside := (quiet.tables t inside).1
  clear f queued := by
    have queued := quiet.floors f queued
    have clear := inv.clear f queued
    refine ⟨clear.within.trans quiet.hwm, fun t inside => ?_, fun r inside seg there unread upto => ?_⟩
    · rcases (quiet.tables t inside).2 with ⟨old, was, less⟩ | above
      · exact (clear.tables old was).trans less
      · exact above f queued
    · rcases quiet.segments seg there with old | new
      · rcases quiet.readers r inside with ⟨was, less⟩ | ⟨_, same, read⟩
        · exact clear.readers r was seg old (less.trans_lt unread) upto
        · exact read f queued seg old (same ▸ unread) upto
      · have := clear.within
        omega
  queued f queued := quiet.rounds ▸ inv.queued f (quiet.floors f queued)
  finds r inside seg there := by
    rw [quiet.gone] at there
    rcases quiet.readers r inside with ⟨was, less⟩ | ⟨made, _, _⟩
    · exact (inv.finds r was seg there).imp (fun read => read.trans less) id
    · rw [made, List.drop_length] at there
      cases there

theorem mem_readers (lake : Lake) (r : Reader) :
    r ∈ lake.readers ↔ (∃ t ∈ lake.tasks, r ∈ taskReaders t.1 t.2) ∨
      ∃ v ∈ lake.views, viewReader v.1 v.2 = r := by
  rw [Lake.readers, List.mem_append, List.mem_flatMap, List.mem_map]

theorem tables_kept (s : State) (inv : Inv s) (t : String × Nat) (inside : t ∈ s.lake.tables) :
    t.2 ≤ s.lake.hwm ∧
      ((∃ old ∈ s.lake.tables, old.2 ≤ t.2) ∨ ∀ f ∈ s.floors, f.2 ≤ t.2) :=
  ⟨inv.marks t inside, .inl ⟨t, inside, Nat.le_refl _⟩⟩

/-- A table made with its mark at the log's end. -/
theorem tables_made (s : State) (inv : Inv s) (table : String) (t : String × Nat)
    (inside : t ∈ s.lake.made table s.lake.hwm) : t.2 ≤ s.lake.hwm ∧
      ((∃ old ∈ s.lake.tables, old.2 ≤ t.2) ∨ ∀ f ∈ s.floors, f.2 ≤ t.2) := by
  rcases mem_made s.lake table s.lake.hwm t inside with old | ⟨_, rfl⟩
  · exact tables_kept s inv t old
  · exact ⟨Nat.le_refl _, .inr fun f queued => (inv.clear f queued).within⟩

theorem done_without (lake : Lake) (names : List String) (p : String) (other : p ∉ names) :
    ((without lake.marks names).lookup p).getD 0 = lake.done p := by
  rw [lookup_without, if_neg other, Lake.done]

theorem done_insert (lake : Lake) (producer p : String) (seq : Nat) (more : lake.done producer < seq) :
    lake.done p ≤ ((lake.marks.insert producer seq).lookup p).getD 0 := by
  rw [lookup_insert_eq]
  split
  · rename_i same
    rw [same, Option.getD_some]
    exact more.le
  · exact Nat.le_refl _

theorem quiet_refl (s : State) (inv : Inv s) : Quiet s s where
  hwm := Nat.le_refl _
  segments _ inside := .inl inside
  kept _ inside := inside
  tables := tables_kept s inv
  readers _ inside := .inl ⟨inside, Nat.le_refl _⟩
  floors _ queued := queued
  rounds := rfl
  gone := rfl

theorem next_quiet (s : State) (op : Op) (inv : Inv s) (sure : Sure s op)
    (round : ∀ start pushed last grace changelog, op ≠ .expire start pushed last grace changelog) :
    Quiet s (next s op) := by
  have same := quiet_refl s inv
  cases op with
  | expire start pushed last grace changelog => exact absurd rfl (round _ _ _ _ _)
  | commit ts parts files =>
    refine { same with hwm := Nat.le_succ _, segments := ?_, kept := ?_, tables := ?_ }
    · intro seg inside
      rcases List.mem_append.mp inside with old | new
      · exact .inl old
      · rw [List.mem_singleton.mp new]
        exact .inr ⟨Nat.lt_succ_self _, Nat.le_refl _⟩
    · exact fun seg inside => List.mem_append_left _ inside
    · intro t inside
      obtain ⟨within, above⟩ := tables_kept s inv t inside
      exact ⟨within.trans (Nat.le_succ _), above⟩
  | tier table upto =>
    rw [next]
    split
    · rename_i tiered found
      split
      · rename_i rises
        refine { same with tables := fun t inside => ?_ }
        rcases mem_put table upto _ t inside with rfl | old
        · exact ⟨rises.2, .inl ⟨_, mem_of_lookup table _ tiered found, rises.1.le⟩⟩
        · exact tables_kept s inv t old
      · exact same
    · exact same
  | makeTable table => exact { same with tables := tables_made s inv table }
  | dropTable table =>
    exact { same with tables := fun t inside => tables_kept s inv t (mem_remove table _ t inside) }
  | makeTask name source shards target =>
    refine { same with tables := ?_, readers := ?_ }
    · intro t inside
      rcases mem_made s.lake target 0 t inside with old | ⟨new, rfl⟩
      · exact tables_kept s inv t old
      · exact ⟨Nat.zero_le _, .inr fun f queued => (sure.2 new f queued).le⟩
    · intro r inside
      rcases (mem_readers _ r).mp inside with ⟨t, there, of⟩ | view
      · rcases mem_put name _ _ t there with rfl | old
        · refine .inr ⟨?_, rfl, fun f queued => sure.1 f queued r of⟩
          obtain ⟨p, _, rfl⟩ := List.mem_map.mp of
          rfl
        · exact .inl ⟨(mem_readers s.lake r).mpr (.inl ⟨t, old, of⟩), Nat.le_refl _⟩
      · exact .inl ⟨(mem_readers s.lake r).mpr (.inr view), Nat.le_refl _⟩
  | dropTask name =>
    have apart := sure
    rw [Sure] at apart
    cases found : s.lake.tasks.lookup name with
    | none =>
      rw [next, found]
      exact same
    | some task =>
      simp only [found] at apart
      rw [next, found] at apart ⊢
      refine { same with readers := fun r inside => .inl ⟨?_, ?_⟩ }
      · rcases (mem_readers _ r).mp inside with ⟨t, there, of⟩ | view
        · exact (mem_readers s.lake r).mpr (.inl ⟨t, mem_remove name _ t there, of⟩)
        · exact (mem_readers s.lake r).mpr (.inr view)
      · exact (done_without s.lake _ _ (apart r inside)).ge
  | makeView name follows =>
    refine { same with tables := tables_made s inv name, readers := ?_ }
    intro r inside
    rcases (mem_readers _ r).mp inside with task | ⟨v, there, rfl⟩
    · exact .inl ⟨(mem_readers s.lake r).mpr (.inl task), Nat.le_refl _⟩
    · rcases mem_put name _ _ v there with rfl | old
      · exact .inr ⟨rfl, rfl, sure⟩
      · exact .inl ⟨(mem_readers s.lake _).mpr (.inr ⟨v, old, rfl⟩), Nat.le_refl _⟩
  | dropView name =>
    refine { same with
      tables := fun t inside => tables_kept s inv t (mem_remove name _ t inside)
      readers := fun r inside => .inl ⟨?_, ?_⟩ }
    · rcases (mem_readers _ r).mp inside with task | ⟨v, there, is⟩
      · exact (mem_readers s.lake r).mpr (.inl task)
      · exact (mem_readers s.lake r).mpr (.inr ⟨v, mem_remove name _ v there, is⟩)
    · exact (done_without s.lake _ _ (by simpa using sure r inside)).ge
  | mark producer seq =>
    rw [next]
    split
    · rename_i rises
      exact { same with readers := fun r inside => .inl ⟨inside, done_insert s.lake _ _ _ rises⟩ }
    · exact same
  | restart => exact { same with floors := fun f queued => absurd queued List.not_mem_nil }

/-! ### A round -/

theorem jumped_tables (lake : Lake) (marks : ∀ t ∈ lake.tables, t.2 ≤ lake.hwm) (t : String × Nat)
    (inside : t ∈ lake.jumped.tables) :
    t.2 ≤ lake.hwm ∧ ∃ old ∈ lake.tables, old.2 ≤ t.2 := by
  obtain ⟨old, there, rfl⟩ := List.mem_map.mp inside
  split
  · exact ⟨Nat.le_refl _, old, there, marks old there⟩
  · exact ⟨marks old there, old, there, Nat.le_refl _⟩

theorem jumped_clear (lake : Lake) (floor : Nat) (marks : ∀ t ∈ lake.tables, t.2 ≤ lake.hwm)
    (clear : lake.Clear floor) : lake.jumped.Clear floor where
  within := clear.within
  tables t inside := by
    obtain ⟨_, old, there, less⟩ := jumped_tables lake marks t inside
    exact (clear.tables old there).trans less
  readers := clear.readers

section round

variable (start pushed last grace changelog : Nat) (s : State) (inv : Inv s)

include inv

/-- The queue in a round, the new floor last, is of floors that are clear. -/
theorem round_clear (f : Nat × Nat)
    (queued : f ∈ (expire start pushed last grace changelog s).floors) :
    s.lake.jumped.Clear f.2 ∧ f ∈ s.rounds ++ [(pushed, s.lake.jumped.floor)] := by
  have queued := (passed_sublist _ _).subset queued
  rcases List.mem_append.mp queued with old | new
  · exact ⟨jumped_clear s.lake f.2 inv.marks (inv.clear f old),
      List.mem_append_left _ (inv.queued f old)⟩
  · rw [List.mem_singleton.mp new]
    refine ⟨floor_clear s.lake.jumped fun t inside => ?_, List.mem_append_right _ (by simp)⟩
    exact (jumped_tables s.lake inv.marks t inside).1

/-- What a round deletes is as old as a floor of long enough ago, and nothing below that floor is
still to be tiered or read. -/
theorem round_deletes (seg : Segment) (inside : seg ∈ s.lake.segments)
    (dead : seg ∉ (expire start pushed last grace changelog s).lake.segments) :
    Kept grace start s (expire start pushed last grace changelog s) seg := by
  have deleted : ∃ f ∈ (expire start pushed last grace changelog s).floors,
      f.1 ≤ start - grace ∧ seg.n ≤ f.2 ∧ seg.ts < start - grace := by
    simp only [expire, List.mem_filter, not_and, Bool.not_eq_true', Bool.not_eq_false] at dead
    have dead := dead inside
    rw [Bool.and_eq_true, Bool.and_eq_true, decide_eq_true_eq, decide_eq_true_eq,
      decide_eq_true_eq] at dead
    obtain ⟨⟨first, below⟩, young⟩ := dead
    cases head : (passed (start - grace) (s.floors ++ [(pushed, s.lake.jumped.floor)])).head? with
    | none =>
      rw [head] at below
      dsimp only at below
      omega
    | some f =>
      rw [head] at below
      dsimp only at below
      split at below
      · rename_i old
        exact ⟨f, List.mem_of_mem_head? head, old, below, by omega⟩
      · omega
  obtain ⟨f, queued, old, below, young⟩ := deleted
  obtain ⟨clear, recorded⟩ := round_clear start pushed last grace changelog s inv f queued
  refine ⟨fun t there => below.trans (clear.tables t there), fun r there => ?_,
    f, recorded, by omega, below⟩
  by_cases read : seg.n ≤ s.lake.done r.producer
  · exact .inl read
  · exact .inr (clear.readers r there seg inside (by simpa [Lake.done, Lake.jumped] using read) below)

theorem round_inv : Inv (expire start pushed last grace changelog s) where
  ends seg inside := inv.ends seg (List.mem_filter.mp inside).1
  marks t inside := (jumped_tables s.lake inv.marks t inside).1
  clear f queued := by
    obtain ⟨clear, _⟩ := round_clear start pushed last grace changelog s inv f queued
    exact ⟨clear.within, clear.tables, fun r there seg inside =>
      clear.readers r there seg (List.mem_filter.mp inside).1⟩
  queued f queued := (round_clear start pushed last grace changelog s inv f queued).2
  finds r there seg inside := by
    change seg ∈ (s.gone ++ _).drop r.made at inside
    rw [List.drop_append] at inside
    rcases List.mem_append.mp inside with before | now
    · exact inv.finds r there seg before
    · have dead := List.mem_filter.mp (List.mem_of_mem_drop now)
      refine (round_deletes start pushed last grace changelog s inv seg dead.1 ?_).readers r there
      intro kept
      have live := (List.mem_filter.mp kept).2
      dsimp only at live
      rw [dead.2] at live
      cases live

end round

/-! ### Runs -/

/-- A lake at a leader's first round: an empty queue, whatever the catalog has. -/
structure State.Fresh (s : State) : Prop where
  ends : ∀ seg ∈ s.lake.segments, seg.n ≤ s.lake.hwm
  marks : ∀ t ∈ s.lake.tables, t.2 ≤ s.lake.hwm
  floors : s.floors = []
  gone : s.gone = []

theorem fresh_inv (s : State) (fresh : s.Fresh) : Inv s where
  ends := fresh.ends
  marks := fresh.marks
  clear f queued := by
    rw [fresh.floors] at queued
    cases queued
  queued f queued := by
    rw [fresh.floors] at queued
    cases queued
  finds r _ seg inside := by
    rw [fresh.gone, List.drop_nil] at inside
    cases inside

theorem next_inv (s : State) (op : Op) (inv : Inv s) (allowed : (retention.only Sure).Allows s op) :
    Inv (next s op) := by
  by_cases round : ∃ start pushed last grace changelog, op = .expire start pushed last grace changelog
  · obtain ⟨start, pushed, last, grace, changelog, rfl⟩ := round
    exact round_inv start pushed last grace changelog s inv
  · refine quiet_inv s _ inv (next_quiet s op inv allowed.2 fun start pushed last grace changelog is => ?_)
    exact round ⟨start, pushed, last, grace, changelog, is⟩

theorem next_keeps (s : State) (op : Op) (inv : Inv s)
    (allowed : (retention.only Sure).Allows s op) : KeepsUnread s op := by
  intro seg inside dead
  by_cases round : ∃ start pushed last grace changelog, op = .expire start pushed last grace changelog
  · obtain ⟨start, pushed, last, grace, changelog, rfl⟩ := round
    exact ⟨start, pushed, last, grace, changelog, rfl,
      round_deletes start pushed last grace changelog s inv seg inside dead⟩
  · refine absurd ((next_quiet s op inv allowed.2 ?_).kept seg inside) dead
    exact fun start pushed last grace changelog is => round ⟨start, pushed, last, grace, changelog, is⟩

/-- Retention keeps what is still to be read: a segment goes in a round only where every table has
tiered past it, every task and rerun view has read past it or has no row in it, and a floor of
`grace_ms` ago was at or above it; and none of them finds a segment gone that it has to read. -/
theorem run_keeps (start : State) (ops : List Op) (fresh : start.Fresh)
    (legal : (retention.only Sure).Legal start ops) :
    (∀ before op after, ops = before ++ op :: after →
      KeepsUnread (retention.run start before) op) ∧ (retention.run start ops).Finds := by
  have invariant : ∀ ops, (retention.only Sure).Legal start ops → Inv (retention.run start ops) :=
    fun ops legal => (retention.only Sure).run_invariant Inv
      (fun s op inv allowed => next_inv s op inv allowed) start ops (fresh_inv start fresh) legal
  refine ⟨fun before op after is => ?_, (invariant ops legal).finds⟩
  rw [is, Machine.legal_append] at legal
  exact next_keeps _ op (invariant before legal.1) legal.2.1

/-- A table `t`, and nothing in the log. -/
def oneTable : State := ⟨⟨0, [], [("t", 0)], [], [], ∅⟩, [], 0, [], []⟩

/-- A row of `t` in segment 1, which a task reads and two rounds then let go. -/
def readRow : List Op :=
  [.commit 5 [("t", 1)] [], .tier "t" 1, .makeTask "k" "t" 1 "u", .expire 100 100 100 10 0,
    .mark "task:k" 1, .expire 110 110 110 10 0, .expire 120 120 120 10 0, .makeView "v" ["t"]]

theorem readRow_keeps : (retention.run oneTable readRow).gone.map (·.n) = [1] ∧
    (∀ before op after, readRow = before ++ op :: after →
      KeepsUnread (retention.run oneTable before) op) ∧ (retention.run oneTable readRow).Finds :=
  ⟨by decide, run_keeps oneTable readRow ⟨by decide, by decide, rfl, rfl⟩ (by decide)⟩

/-- A task made once a round had its floor above a row: the next round lets the row go. -/
def madeLate : List Op :=
  [.commit 5 [("t", 1)] [], .tier "t" 1, .expire 100 100 100 10 0, .makeTask "k" "t" 1 "u"]

theorem madeLate_loses : oneTable.Fresh ∧
    retention.Legal oneTable (madeLate ++ [.expire 110 110 110 10 0]) ∧
    ¬KeepsUnread (retention.run oneTable madeLate) (.expire 110 110 110 10 0) ∧
    ¬(retention.run oneTable (madeLate ++ [.expire 110 110 110 10 0])).Finds := by
  refine ⟨⟨by decide, by decide, rfl, rfl⟩, by decide, fun keeps => ?_, by decide⟩
  obtain ⟨_, _, _, _, _, _, kept⟩ := keeps ⟨1, 5, [("t", 1)], []⟩ (by decide) (by decide)
  have reads := kept.readers _ (List.mem_of_getElem? (i := 0) rfl)
  revert reads
  decide

end Pondra.Tier
