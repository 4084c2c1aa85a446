import Pondra.Store.Overlay

set_option autoImplicit false

namespace Pondra.Store

open Machines
open Layers

/-- What a finished read says. A scan: exactly the range's entries as of its commit. A read of one
key: its value as of a commit, which is not older than the view was when the read began unless the
in-memory catalog answered. -/
def Right (h : History) : Task → Prop
  | .scanned lo hi _ all at_ _ =>
    ∀ k, Listed k → all k = if inRange lo hi k then h.asOf at_ k else none
  | .got key began value at_ mirrored =>
    Listed key → value = h.asOf at_ key ∧ (mirrored = false → began ≤ at_)
  | _ => True

/-- The commit its view was at when a scan or a seed began to read, until it decides. -/
def Task.before : Task → Option Nat
  | .scanAll _ _ _ before | .scanAfter _ _ _ before _ | .scanDecide _ _ _ before _ _
  | .seedAll before | .seedAfter before _ | .seedEnd before _ _ => some before
  | _ => none

section tasks

variable {h : History} {cat : Catalog} {bucket t : Nat}

def Pinned (cat : Catalog) (t : Nat) : Prop := ∃ pin ∈ cat.pins, pin.1 = t

/-- A scan or a seed that began to read at `before`. -/
structure Begun (h : History) (cat : Catalog) (bucket t before : Nat) : Prop where
  pinned : ∃ pin ∈ cat.pins, pin.1 = t ∧ pin.2 ≤ before
  seen : before ≤ bucket
  floor : Floor h cat before

/-- What holds of a call between steps. -/
def TaskSound (h : History) (cat : Catalog) (bucket t : Nat) : Task → Prop
  | .scanBefore .. | .seedBefore => Pinned cat t
  | .scanAll _ _ _ before | .seedAll before => Begun h cat bucket t before
  | .scanAfter lo hi _ before all =>
    Begun h cat bucket t before ∧ Read h (inRange lo hi) all before bucket
  | .scanDecide lo hi _ before all after =>
    Begun h cat bucket t before ∧ Read h (inRange lo hi) all before after
  | .scanAlone lo hi _ before all after _ =>
    Pinned cat t ∧ Read h (inRange lo hi) all before after
  | .seedAfter before all =>
    Begun h cat bucket t before ∧ Read h Follower.whole all before bucket
  | .seedEnd before all after =>
    Begun h cat bucket t before ∧ Read h Follower.whole all before after
  | .atNow lo hi _ => hi ≤ lo
  | .getView _ began | .getKv _ began => began ≤ bucket
  | .getCheck key began c => began ≤ bucket ∧ (Listed key → began ≤ c)
  | .markMove _ _ c => c ≤ bucket
  | .prune _ upto => upto ≤ cat.view.1 ∧ ∀ pin ∈ cat.pins, upto ≤ pin.2
  | .scanned lo hi floor all at_ pinned => Right h (.scanned lo hi floor all at_ pinned)
  | .got key began value at_ mirrored => Right h (.got key began value at_ mirrored)
  | _ => True

theorem Read.mono {inside : String → Bool} {all : String → Option Value} {low high high' : Nat}
    (read : Read h inside all low high) (later : high ≤ high') : Read h inside all low high' := by
  intro k
  obtain ⟨i, above, below, value⟩ := read k
  exact ⟨i, above, Nat.le_trans below later, value⟩

theorem entries_read {inside : String → Bool} {reads : String → Nat} {low high : Nat}
    (within : ∀ k, low ≤ reads k ∧ reads k ≤ high) :
    Read h inside (Follower.entries h inside reads) low high :=
  fun k => ⟨reads k, (within k).1, (within k).2, rfl⟩

theorem TaskSound.right {task : Task} (sound : TaskSound h cat bucket t task) : Right h task := by
  cases task with
  | scanned lo hi floor all at_ pinned => exact sound
  | got key began value at_ mirrored => exact sound
  | _ => trivial

/-- What a call relies on survives a step of another. -/
theorem TaskSound.carry {cat' : Catalog} {bucket' : Nat} {task : Task}
    (sound : TaskSound h cat bucket t task) (forward : bucket ≤ bucket')
    (view : cat.view.1 ≤ cat'.view.1)
    (pins : ∀ pin ∈ cat.pins, pin.1 = t → pin ∈ cat'.pins)
    (new : ∀ pin ∈ cat'.pins, pin ∈ cat.pins ∨ cat.view.1 ≤ pin.2)
    (floor : ∀ before, task.before = some before → (∃ pin ∈ cat.pins, pin.2 ≤ before) →
      Floor h cat before → Floor h cat' before) : TaskSound h cat' bucket' t task := by
  have pinned : Pinned cat t → Pinned cat' t := by
    intro held
    obtain ⟨pin, inside, mine⟩ := held
    exact ⟨pin, pins pin inside mine, mine⟩
  have begun : ∀ before, task.before = some before → Begun h cat bucket t before →
      Begun h cat' bucket' t before := by
    intro before at_ begun
    obtain ⟨pin, inside, mine, below⟩ := begun.pinned
    exact ⟨⟨pin, pins pin inside mine, mine, below⟩, Nat.le_trans begun.seen forward,
      floor before at_ ⟨pin, inside, below⟩ begun.floor⟩
  cases task with
  | scanBefore lo hi floor => exact pinned sound
  | seedBefore => exact pinned sound
  | scanAll lo hi floor before => exact begun before rfl sound
  | seedAll before => exact begun before rfl sound
  | scanAfter lo hi floor before all => exact ⟨begun before rfl sound.1, sound.2.mono forward⟩
  | seedAfter before all => exact ⟨begun before rfl sound.1, sound.2.mono forward⟩
  | scanDecide lo hi floor before all after => exact ⟨begun before rfl sound.1, sound.2⟩
  | seedEnd before all after => exact ⟨begun before rfl sound.1, sound.2⟩
  | scanAlone lo hi floor before all after streamed => exact ⟨pinned sound.1, sound.2⟩
  | atNow lo hi floor => exact sound
  | getView key began => exact Nat.le_trans sound forward
  | getKv key began => exact Nat.le_trans sound forward
  | getCheck key began c => exact ⟨Nat.le_trans sound.1 forward, sound.2⟩
  | markMove refresh n c => exact Nat.le_trans sound forward
  | prune c upto =>
    refine ⟨Nat.le_trans sound.1 view, ?_⟩
    intro pin inside
    rcases new pin inside with old | newer
    · exact sound.2 pin old
    · exact Nat.le_trans sound.1 newer
  | scanned lo hi floor all at_ pinned => exact sound
  | got key began value at_ mirrored => exact sound
  | _ => trivial

end tasks

/-- What holds of a follower between steps. -/
structure Consistent (h : History) (s : Follower) : Prop where
  cat : Sound h s.cat s.bucket
  tasks : ∀ t, TaskSound h s.cat s.bucket t (s.tasks t)

/-- Where reads are of one commit. A change of the stream is not older than the newest one applied
(unless the view has it); where changes that never arrived are hidden by the view's marks, no entry
laid over the view is of a key they change, and no scan or seed began to read before them; and a scan
that decides after a seed found no key that the seeded catalog doesn't have. -/
def Clear (h : History) (s : Follower) : Op → Prop
  | .apply id =>
    (id ≤ s.cat.pruned ∨ s.cat.streamed ≤ id) ∧
      (s.cat.Hides id →
        (∀ k change, Listed k → s.cat.overlay k = some change →
          h.versions.Still s.cat.streamed (id - 1) k) ∧
        ∀ t before, (s.tasks t).before = some before → s.cat.hold ≤ before → id ≤ before + 1)
  | .step t _ =>
    match s.tasks t with
    | .scanDecide _ _ _ before all after =>
      s.cat.hold ≤ before → after ≤ s.cat.streamed → s.cat.mirror = true →
        ∀ k, Listed k → (all k).isSome → (s.cat.overlay k).isSome
    | _ => True
  | _ => True

section steps

variable {h : History} {s : Follower} {t : Nat}

theorem Consistent.goes {cat : Catalog} {task : Task} (consistent : Consistent h s)
    (sound : Sound h cat s.bucket) (frame : Frame h t s.cat cat)
    (mine : TaskSound h cat s.bucket t task) : Consistent h (s.goes t cat task) := by
  refine ⟨sound, ?_⟩
  intro other
  by_cases same : other = t
  · subst same
    simp only [Follower.goes, Function.update_self]
    exact mine
  · simp only [Follower.goes, Function.update_of_ne same]
    apply (consistent.tasks other).carry (Nat.le_refl _) frame.view ?_ frame.new
    · exact fun before _ => frame.floor before
    · intro pin inside own
      exact frame.pins pin inside (own ▸ same)

theorem Consistent.stays {task : Task} (consistent : Consistent h s)
    (mine : TaskSound h s.cat s.bucket t task) : Consistent h (s.goes t s.cat task) :=
  consistent.goes consistent.cat .refl mine

theorem Consistent.answers {lo hi : String} {floor at_ : Nat} {all : String → Option Value}
    {pinned : Bool} (consistent : Consistent h s)
    (right : ∀ k, Listed k → all k = if inRange lo hi k then h.asOf at_ k else none) :
    Consistent h (s.answers t lo hi floor all at_ pinned) := by
  have mine : TaskSound h s.cat s.bucket t (.scanned lo hi floor all at_ pinned) := right
  have goes := consistent.stays mine
  exact ⟨goes.cat, goes.tasks⟩

theorem inRange_empty {lo hi : String} (empty : hi ≤ lo) (k : String) : inRange lo hi k = false := by
  rw [inRange, ← Bool.not_eq_true, Bool.and_eq_true, decide_eq_true_eq, decide_eq_true_eq]
  intro inside
  exact absurd (lt_of_le_of_lt (le_trans empty inside.1) inside.2) (lt_irrefl _)

theorem empty_right {lo hi : String} (empty : hi ≤ lo) (at_ : Nat) (k : String) :
    (none : Option Value) = if inRange lo hi k then h.asOf at_ k else none := by
  rw [inRange_empty empty k]
  rfl

/-- A scan or a seed begins to read the view where it is. -/
theorem Consistent.begun (consistent : Consistent h s) (pinned : Pinned s.cat t) :
    Begun h s.cat s.bucket t (h.number s.bucket "c") := by
  obtain ⟨pin, inside, own⟩ := pinned
  have old := Nat.le_trans (consistent.cat.pinned pin inside) consistent.cat.marks
  rw [h.number_c]
  exact ⟨⟨pin, inside, own, old⟩, Nat.le_refl _, consistent.cat.ahead _ (Nat.le_refl _)⟩

theorem Consistent.call (consistent : Consistent h s) (call : Call) :
    Consistent h (s.call t call) := by
  cases call with
  | scan lo hi =>
    simp only [Follower.call]
    split
    · rename_i empty
      split
      · exact consistent.answers fun k _ => empty_right empty _ k
      · exact consistent.stays empty
    · split
      · rename_i mirror
        apply consistent.answers
        intro k listed
        simp only [consistent.cat.mirrored mirror k listed]
      · exact consistent.stays trivial
  | get key =>
    simp only [Follower.call]
    split
    · rename_i memory
      rw [Bool.and_eq_true] at memory
      apply consistent.stays
      intro listed
      exact ⟨consistent.cat.mirrored memory.1 key listed, fun off => by cases off⟩
    · split
      · rename_i data
        apply consistent.stays
        refine ⟨Nat.le_refl _, ?_⟩
        intro listed
        rw [show inline key = false from listed] at data
        cases data
      · exact consistent.stays (Nat.le_refl s.bucket)
  | settle =>
    simp only [Follower.call]
    split
    · exact consistent.stays trivial
    · exact consistent.stays trivial
  | refresh => exact consistent.stays trivial

/-- The streamed changes over what a scan of the view read are the range as of the last of them. -/
theorem over_right {lo hi : String} {before after : Nat} {all : String → Option Value}
    (sound : Sound h s.cat s.bucket) (floor : Floor h s.cat before)
    (read : Read h (inRange lo hi) all before after) (held : s.cat.hold ≤ before)
    (streamed : after ≤ s.cat.streamed)
    (found : s.cat.mirror = true → ∀ k, Listed k → (all k).isSome → (s.cat.overlay k).isSome)
    (k : String) (listed : Listed k) :
    s.cat.overlaid lo hi all k = if inRange lo hi k then h.asOf s.cat.streamed k else none := by
  obtain ⟨i, above, below, value⟩ := read k
  unfold Catalog.overlaid
  by_cases inside : inRange lo hi k = true
  · rw [if_pos inside] at value ⊢
    cases laid : s.cat.overlay k with
    | some change =>
      simp only [if_pos inside]
      cases mirror : s.cat.mirror with
      | false => exact (sound.fresh mirror).value listed laid
      | true =>
        rw [← sound.mirrored mirror k listed, Catalog.inMemory, laid]
        rfl
    | none =>
      simp only
      cases mirror : s.cat.mirror with
      | false =>
        rw [value]
        exact (floor mirror held).same listed above (by omega) laid
      | true =>
        have gone : all k = none := by
          by_contra some
          have := found mirror k listed (Option.isSome_iff_ne_none.mpr some)
          rw [laid] at this
          cases this
        rw [gone, ← sound.mirrored mirror k listed, Catalog.inMemory, laid]
        rfl
  · rw [if_neg inside] at value ⊢
    rw [value]
    cases s.cat.overlay k with
    | some change => simp only [if_neg inside]
    | none => rfl

theorem Consistent.step (consistent : Consistent h s) {reads : String → Nat}
    (within : s.Reads reads (s.tasks t)) (clear : Clear h s (.step t reads)) :
    Consistent h (s.step h t reads) := by
  have mine := consistent.tasks t
  simp only [Clear] at clear
  unfold Follower.step
  cases task : s.tasks t with
  | idle => exact consistent
  | atNow lo hi floor =>
    rw [task] at mine
    exact consistent.answers fun k _ => empty_right mine _ k
  | scanPin lo hi floor =>
    exact consistent.goes consistent.cat.pin .pin ⟨_, List.mem_cons_self, rfl⟩
  | seedPin => exact consistent.goes consistent.cat.pin .pin ⟨_, List.mem_cons_self, rfl⟩
  | scanBefore lo hi floor =>
    rw [task] at mine
    exact consistent.stays (consistent.begun mine)
  | seedBefore =>
    rw [task] at mine
    exact consistent.stays (consistent.begun mine)
  | scanAll lo hi floor before =>
    rw [task] at mine within
    exact consistent.stays ⟨mine, entries_read within⟩
  | seedAll before =>
    rw [task] at mine within
    exact consistent.stays ⟨mine, entries_read within⟩
  | scanAfter lo hi floor before all =>
    rw [task] at mine
    refine consistent.stays ⟨mine.1, ?_⟩
    rw [h.number_c]
    exact mine.2
  | seedAfter before all =>
    rw [task] at mine
    refine consistent.stays ⟨mine.1, ?_⟩
    rw [h.number_c]
    exact mine.2
  | scanDecide lo hi floor before all after =>
    rw [task] at mine clear
    simp only
    split
    · rename_i both
      exact consistent.answers
        (over_right consistent.cat mine.1.floor mine.2 both.1 both.2 (clear both.1 both.2))
    · obtain ⟨pin, inside, own, _⟩ := mine.1.pinned
      exact consistent.stays ⟨⟨pin, inside, own⟩, mine.2⟩
  | scanAlone lo hi floor before all after streamed =>
    rw [task] at mine
    simp only
    split
    · rename_i stood
      apply consistent.answers
      intro k _
      obtain ⟨i, above, below, value⟩ := mine.2 k
      obtain rfl : i = before := by omega
      exact value
    · exact consistent.stays mine.1
  | scanned lo hi floor all at_ pinned =>
    rw [task] at mine
    exact consistent.goes consistent.cat.unpin .unpin mine
  | getView key began =>
    rw [task] at mine
    refine consistent.stays ⟨mine, ?_⟩
    rw [h.number_c]
    exact fun _ => mine
  | getCheck key began c =>
    rw [task] at mine
    simp only
    split
    · rename_i change found
      apply consistent.stays
      intro listed
      obtain ⟨laid, fits⟩ := Option.filter_eq_some_iff.mp found
      have covered : s.cat.hold ≤ c ∧ c ≤ s.cat.streamed := by
        simpa [show inline key = false from listed, Catalog.overlayOk] using fits
      refine ⟨?_, fun _ => Nat.le_trans (mine.2 listed) covered.2⟩
      cases mirror : s.cat.mirror with
      | false => exact (consistent.cat.fresh mirror).value listed laid
      | true =>
        rw [← consistent.cat.mirrored mirror key listed, Catalog.inMemory, laid]
        rfl
    · exact consistent.stays mine.1
  | getKv key began =>
    rw [task] at mine
    exact consistent.stays fun _ => ⟨rfl, fun _ => mine⟩
  | got key began value at_ mirrored => exact consistent
  | markN refresh => exact consistent.stays trivial
  | markC refresh n => exact consistent.stays (le_of_eq (h.number_c s.bucket))
  | markMove refresh n c =>
    rw [task] at mine
    simp only
    apply consistent.goes (consistent.cat.mark mine) (.mark n c)
    obtain ⟨below, least⟩ := mark_upto s.cat n c
    split
    · exact ⟨Nat.le_trans below (Nat.le_max_right _ _), least⟩
    · trivial
  | prune c upto =>
    rw [task] at mine
    exact consistent.goes
      (consistent.cat.prune (Nat.le_trans mine.1 consistent.cat.marks))
      (.prune consistent.cat mine.2) trivial
  | seeds c =>
    simp only
    split
    · exact consistent.stays trivial
    · exact consistent.stays trivial
  | seedEnd before all after =>
    rw [task] at mine
    simp only
    split
    · exact consistent.goes (consistent.cat.seed mine.1.floor mine.2) (.seed _ _ _ _) trivial
    · exact consistent.stays trivial
  | unpin => exact consistent.goes consistent.cat.unpin .unpin trivial

theorem Consistent.next {op : Op} (consistent : Consistent h s) (allowed : (follower h).Allows s op)
    (clear : Clear h s op) : Consistent h ((follower h).next s op) := by
  cases op with
  | move bucket =>
    refine ⟨consistent.cat.move allowed, ?_⟩
    intro t
    exact (consistent.tasks t).carry allowed (Nat.le_refl _) (fun _ inside _ => inside)
      (fun _ inside => .inl inside) (fun _ _ _ floor => floor)
  | apply id =>
    have same : (s.cat.apply (h.change id)).view = s.cat.view ∧
        (s.cat.apply (h.change id)).pins = s.cat.pins := by
      have ends := apply_cases s.cat (h.change id)
      generalize s.cat.apply (h.change id) = after at ends ⊢
      cases ends with
      | pruned old => exact ⟨rfl, rfl⟩
      | gap new far missing lastN grows => exact ⟨rfl, rfl⟩
      | next new lastN grows near hidden => exact ⟨rfl, rfl⟩
    refine ⟨apply_sound consistent.cat allowed clear.1 fun hides => (clear.2 hides).1, ?_⟩
    intro t
    show TaskSound h (s.cat.apply (h.change id)) s.bucket t (s.tasks t)
    apply (consistent.tasks t).carry (Nat.le_refl _)
    · rw [same.1]
    · rw [same.2]
      exact fun _ inside _ => inside
    · rw [same.2]
      exact fun _ inside => .inl inside
    · intro before at_ _ floor
      exact apply_floor floor allowed clear.1 fun hides => (clear.2 hides).2 t before at_
  | call t call => exact consistent.call call
  | step t reads => exact consistent.step allowed clear
  | fail t => exact consistent.goes consistent.cat.unpin .unpin trivial

theorem start_consistent (bucket : Nat) (follows : Bool) :
    Consistent h (.start bucket follows) := by
  refine ⟨⟨Nat.zero_le _, ?_, ?_, ?_, ?_⟩, fun _ => trivial⟩
  · intro pin inside
    cases inside
  · intro mirror
    cases mirror
  · intro _ k change _ found
    cases found
  · intro b _ _ _ k i _ above below
    have : i ≤ 0 := below
    omega

end steps

/-- In a run where no change fills a hidden gap under older entries or older reads, and no scan misses
what a seed dropped, every scan that returns has exactly its range as of its commit, and every read of
a key its value as of one commit: the last streamed one where the in-memory catalog answers, else one
not older than the view was when the read began. -/
theorem run_right (h : History) (bucket : Nat) (follows : Bool) (ops : List Op)
    (legal : ((follower h).only (Clear h)).Legal (.start bucket follows) ops) (t : Nat) :
    Right h (((follower h).run (.start bucket follows) ops).tasks t) := by
  have consistent := ((follower h).only (Clear h)).run_invariant (Consistent h)
    (fun _ _ consistent allowed => consistent.next allowed.1 allowed.2)
    (.start bucket follows) ops (start_consistent bucket follows) legal
  exact (consistent.tasks t).right

/-- What a finished read says of a key, and the commit it is as of. -/
def Task.finds (k : String) : Task → Option (Option Value × Nat)
  | .scanned _ _ _ all at_ _ => some (all k, at_)
  | .got key _ value at_ _ => if key = k then some (value, at_) else none
  | _ => none

/-- Commit 1 makes two tables, commit 2 drops one of them, and later ones change neither. -/
def dropped : History :=
  .ofEmpty (fun i => if i = 1 then [("t/a", json 7), ("t/b", json 8)] else [])
    (fun i => if i = 2 then ["t/b"] else []) fun i => by by_cases second : i = 2 <;> simp [second]

theorem dropped_keeps (i : Nat) : dropped.asOf (i + 1) "t/a" = some (json 7) := by
  induction i with
  | zero => decide
  | succ i ih =>
    have untouched : effect (dropped.change (i + 1 + 1)) "t/a" = none := by
      simp [effect, dropped, History.ofEmpty, lastPut]
    rw [History.asOf, untouched]
    exact ih

/-- A scan of the view that finds every key at one commit. -/
def at_ (commit : Nat) (_ : String) : Nat := commit

theorem le {low high : Nat} (small : Nat.ble low high = true) : low ≤ high :=
  Nat.le_of_ble_eq_true small

/-- Change 1 is laid over a view that hasn't got it. -/
def laidRun : List Op :=
  [.apply 1, .call 1 (.scan "t/" "t0"), .step 1 (at_ 0), .step 1 (at_ 0), .step 1 (at_ 0),
   .step 1 (at_ 0), .step 1 (at_ 0)]

theorem laidRun_right :
    (((follower dropped).run (.start 0 false) laidRun).tasks 1).finds "t/b" = some (some (json 8), 1) ∧
      Right dropped (((follower dropped).run (.start 0 false) laidRun).tasks 1) :=
  ⟨by decide, run_right dropped 0 false laidRun
    ⟨⟨le rfl, .inr (le rfl), fun hides => absurd hides.2.2.1 (Nat.lt_irrefl 1)⟩,
     ⟨trivial, trivial⟩, ⟨trivial, trivial⟩, ⟨trivial, trivial⟩,
     ⟨fun _ => ⟨le rfl, le rfl⟩, trivial⟩, ⟨trivial, trivial⟩,
     ⟨trivial, fun _ _ on => Bool.noConfusion on⟩, trivial⟩ 1⟩

/-- The whole catalog is in memory, and the view is ahead of the stream. -/
def memoryRun : List Op :=
  [.call 0 .refresh, .step 0 (at_ 0), .step 0 (at_ 0), .step 0 (at_ 0), .step 0 (at_ 0),
   .step 0 (at_ 0), .step 0 (at_ 0), .step 0 (at_ 0), .step 0 (at_ 0), .step 0 (at_ 0),
   .step 0 (at_ 0), .step 0 (at_ 0), .move 1, .call 1 (.get "t/a")]

/-- Change 2 never arrives, and `settle` moves the marks past it: what change 1 laid over the view
stays. -/
def staleRun : List Op :=
  [.apply 1, .move 2, .call 0 .settle, .step 0 (at_ 0), .step 0 (at_ 0), .step 0 (at_ 0),
   .apply 3, .call 1 (.scan "t/" "t0"), .step 1 (at_ 2), .step 1 (at_ 2), .step 1 (at_ 2),
   .step 1 (at_ 2), .step 1 (at_ 2)]

/-- The same, under a scan that began to read before change 2. -/
def begunRun : List Op :=
  [.call 1 (.scan "t/" "t0"), .step 1 (at_ 0), .step 1 (at_ 0), .move 2, .call 0 .settle,
   .step 0 (at_ 0), .step 0 (at_ 0), .step 0 (at_ 0), .apply 3, .step 1 (at_ 1), .step 1 (at_ 0),
   .step 1 (at_ 0)]

/-- The catalog is seeded under a scan that has read a table which is dropped since. -/
def seededRun : List Op :=
  [.call 1 (.scan "t/" "t0"), .step 1 (at_ 0), .step 1 (at_ 0), .step 1 (at_ 1), .move 2,
   .call 0 .refresh, .step 0 (at_ 2), .step 0 (at_ 2), .step 0 (at_ 2), .step 0 (at_ 2),
   .step 0 (at_ 2), .step 0 (at_ 2), .step 0 (at_ 2), .step 0 (at_ 2), .step 0 (at_ 2),
   .step 0 (at_ 2), .step 0 (at_ 2), .step 1 (at_ 0), .step 1 (at_ 0)]

/-- Change 1 arrives again after change 2. -/
def replayedRun : List Op :=
  [.apply 1, .apply 2, .apply 1, .call 1 (.scan "t/" "t0"), .step 1 (at_ 0), .step 1 (at_ 0),
   .step 1 (at_ 0), .step 1 (at_ 0), .step 1 (at_ 0)]

/-- Reads that are of no one commit of theirs: one key from memory, older than the view was, and scans
that have a table which is dropped by the commit they are as of. -/
theorem reads_mixed :
    ((follower dropped).Legal (.start 0 true) memoryRun ∧
      (((follower dropped).run (.start 0 true) memoryRun).tasks 1).finds "t/a" = some (none, 0) ∧
      ((follower dropped).run (.start 0 true) memoryRun).bucket = 1 ∧
      ∀ i, 1 ≤ i → dropped.asOf i "t/a" ≠ none) ∧
    ((follower dropped).Legal (.start 0 false) staleRun ∧
      (((follower dropped).run (.start 0 false) staleRun).tasks 1).finds "t/b" =
        some (some (json 8), 3)) ∧
    ((follower dropped).Legal (.start 0 false) begunRun ∧
      (((follower dropped).run (.start 0 false) begunRun).tasks 1).finds "t/b" =
        some (some (json 8), 3)) ∧
    ((follower dropped).Legal (.start 1 true) seededRun ∧
      (((follower dropped).run (.start 1 true) seededRun).tasks 1).finds "t/b" =
        some (some (json 8), 2)) ∧
    ((follower dropped).Legal (.start 0 false) replayedRun ∧
      (((follower dropped).run (.start 0 false) replayedRun).tasks 1).finds "t/b" =
        some (some (json 8), 2)) ∧
    dropped.asOf 2 "t/b" = none ∧ dropped.asOf 3 "t/b" = none := by
  have kept : ∀ i, 1 ≤ i → dropped.asOf i "t/a" ≠ none := by
    intro i positive
    obtain ⟨j, rfl⟩ : ∃ j, i = j + 1 := ⟨i - 1, by omega⟩
    rw [dropped_keeps]
    simp
  refine ⟨⟨⟨trivial, trivial, trivial, trivial, trivial, trivial, trivial, trivial,
     fun _ => ⟨le rfl, le rfl⟩, trivial, trivial, trivial, le rfl, trivial, trivial⟩,
    by decide, by decide, kept⟩,
  ⟨⟨le rfl, le rfl, trivial, trivial, trivial, trivial, le rfl, trivial, trivial, trivial,
     fun _ => ⟨le rfl, le rfl⟩, trivial, trivial, trivial⟩,
    by decide⟩,
  ⟨⟨trivial, trivial, trivial, le rfl, trivial, trivial, trivial, trivial, le rfl,
     fun _ => ⟨le rfl, le rfl⟩, trivial, trivial, trivial⟩,
    by decide⟩,
  ⟨⟨trivial, trivial, trivial, fun _ => ⟨le rfl, le rfl⟩, le rfl, trivial, trivial, trivial,
     trivial, trivial, trivial, trivial, trivial, fun _ => ⟨le rfl, le rfl⟩, trivial, trivial,
     trivial, trivial, trivial, trivial⟩,
    by decide⟩,
  ⟨⟨le rfl, le rfl, le rfl, trivial, trivial, trivial, fun _ => ⟨le rfl, le rfl⟩, trivial,
     trivial, trivial⟩,
    by decide⟩,
  by decide, by decide⟩

end Pondra.Store
