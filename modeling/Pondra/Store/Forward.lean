import Pondra.Store.Snapshot

set_option autoImplicit false

namespace Pondra.Store

open Machines

/-- What scans had answered as of when a scan started. -/
def Task.floor : Task → Option Nat
  | .atNow _ _ floor | .scanPin _ _ floor | .scanBefore _ _ floor | .scanAll _ _ floor _
  | .scanAfter _ _ floor _ _ | .scanDecide _ _ floor _ _ _ | .scanAlone _ _ floor _ _ _ _
  | .scanned _ _ floor _ _ _ => some floor
  | _ => none

/-- A scan that has begun to read: its floor, and the commit its view was at. -/
def Task.scanning : Task → Option (Nat × Nat)
  | .scanAll _ _ floor before | .scanAfter _ _ floor before _ | .scanDecide _ _ floor before _ _
  | .scanAlone _ _ floor before _ _ _ => some (floor, before)
  | _ => none

/-- The commit a scan answered as of. -/
def Task.answer : Task → Option Nat
  | .scanned _ _ _ _ at_ _ => some at_
  | _ => none

/-- `apply` sees that changes before this one never arrived. -/
def Catalog.Gaps (cat : Catalog) (id : Nat) : Prop :=
  cat.pruned < id ∧ cat.streamed + 1 < id ∧ (cat.mirror = false → cat.view.1 + 1 < id)

/-- What the view had, or the stream has and laid over it, is not older than `floor`. -/
def Reaches (cat : Catalog) (floor before : Nat) : Prop :=
  floor ≤ before ∨ (cat.hold ≤ before ∧ floor ≤ cat.streamed)

/-- What holds of a scan, and of a seed that may put one right, between steps. -/
def Rises (cat : Catalog) (bucket answered : Nat) : Task → Prop
  | .atNow _ _ floor | .scanPin _ _ floor | .scanBefore _ _ floor => floor ≤ answered
  | .scanAll _ _ floor before | .scanAfter _ _ floor before _ =>
    floor ≤ answered ∧ before ≤ bucket ∧ Reaches cat floor before
  | .scanDecide _ _ floor before _ after =>
    floor ≤ answered ∧ before ≤ bucket ∧ Reaches cat floor before ∧ before ≤ after
  | .scanAlone _ _ floor before _ _ streamed =>
    floor ≤ answered ∧ before ≤ bucket ∧
      (floor ≤ before ∨ (cat.hold ≤ before ∧ floor ≤ streamed))
  | .scanned _ _ floor _ at_ _ => floor ≤ at_ ∧ at_ ≤ answered
  | .seedAll before | .seedAfter before _ | .seedEnd before _ _ => before ≤ bucket
  | _ => True

/-- What holds of a follower between steps, so that scans only go forward. -/
structure Rising (s : Follower) : Prop where
  memory : s.cat.mirror = true → s.answered ≤ s.cat.streamed ∧ s.cat.hold ≤ s.bucket
  reach : Reaches s.cat s.answered s.bucket
  tasks : ∀ t, Rises s.cat s.bucket s.answered (s.tasks t)

/-- Where scans and `visibleN` only go forward. Where `apply` drops what is held because of a gap, the
view has every commit a scan answered as of, scans in progress began with every commit answered before
them, and the view's `n` is not behind the stream's; a seed isn't older than what was answered, nor its
`n` than the view's; marks that pass the stream bring an `n` that isn't behind it; a scan of an empty
range finds the view at every commit answered before it; and no scan begun before the seed answers from
a view that is ahead of the seeded catalog. -/
def Steady (s : Follower) : Op → Prop
  | .apply id =>
    s.cat.Gaps id →
      s.answered ≤ s.bucket ∧
        (∀ t floor before, (s.tasks t).scanning = some (floor, before) → floor ≤ before) ∧
        (s.cat.mirror = true ∨ s.cat.overlayOk s.cat.view.1 = true → s.cat.lastN ≤ s.cat.view.2)
  | .step t _ =>
    match s.tasks t with
    | .atNow _ _ floor => floor ≤ s.bucket ∧ (s.cat.mirror = true → s.bucket ≤ s.cat.streamed)
    | .scanAlone _ _ _ before _ _ _ => s.cat.mirror = true → before ≤ s.cat.streamed
    | .markMove _ n c =>
      s.cat.mirror = false → s.cat.overlayOk s.cat.view.1 = true → s.cat.streamed < c →
        s.cat.lastN ≤ max s.cat.view.2 n
    | .seedEnd before all _ =>
      s.cat.mirror = false → s.cat.hold ≤ before →
        s.answered ≤ max s.cat.streamed before ∧
          ∀ n, (all "n").elim (some 1) fromJson = some n → s.cat.view.2 ≤ max s.cat.lastN n
    | _ => True
  | _ => True

section scans

variable {h : History} {s : Follower} {t : Nat}

theorem Rises.carry {cat cat' : Catalog} {bucket bucket' answered answered' : Nat} {task : Task}
    (rises : Rises cat bucket answered task) (forward : bucket ≤ bucket')
    (more : answered ≤ answered') (streamed : cat.streamed ≤ cat'.streamed)
    (held : cat'.hold = cat.hold ∨
      ∀ floor before, task.scanning = some (floor, before) → floor ≤ before) :
    Rises cat' bucket' answered' task := by
  have reaches : ∀ floor before, task.scanning = some (floor, before) →
      Reaches cat floor before → Reaches cat' floor before := by
    intro floor before begun reached
    rcases held with same | seen
    · rcases reached with view | ⟨fits, stream⟩
      · exact .inl view
      · exact .inr ⟨same ▸ fits, by omega⟩
    · exact .inl (seen floor before begun)
  cases task with
  | atNow lo hi floor => exact Nat.le_trans rises more
  | scanPin lo hi floor => exact Nat.le_trans rises more
  | scanBefore lo hi floor => exact Nat.le_trans rises more
  | scanAll lo hi floor before =>
    exact ⟨Nat.le_trans rises.1 more, Nat.le_trans rises.2.1 forward,
      reaches floor before rfl rises.2.2⟩
  | scanAfter lo hi floor before all =>
    exact ⟨Nat.le_trans rises.1 more, Nat.le_trans rises.2.1 forward,
      reaches floor before rfl rises.2.2⟩
  | scanDecide lo hi floor before all after =>
    exact ⟨Nat.le_trans rises.1 more, Nat.le_trans rises.2.1 forward,
      reaches floor before rfl rises.2.2.1, rises.2.2.2⟩
  | scanAlone lo hi floor before all after stream =>
    refine ⟨Nat.le_trans rises.1 more, Nat.le_trans rises.2.1 forward, ?_⟩
    rcases held with same | seen
    · rw [same]
      exact rises.2.2
    · exact .inl (seen floor before rfl)
  | scanned lo hi floor all at_ pinned => exact ⟨rises.1, Nat.le_trans rises.2 more⟩
  | seedAll before => exact Nat.le_trans rises forward
  | seedAfter before all => exact Nat.le_trans rises forward
  | seedEnd before all after => exact Nat.le_trans rises forward
  | _ => trivial

/-- A step that doesn't answer, and leaves the stream and the gap as they are. -/
theorem Rising.goes {cat : Catalog} {task : Task} (rising : Rising s)
    (streamed : cat.streamed = s.cat.streamed) (held : cat.hold = s.cat.hold)
    (mirror : cat.mirror = s.cat.mirror) (mine : Rises cat s.bucket s.answered task) :
    Rising (s.goes t cat task) := by
  refine ⟨?_, ?_, ?_⟩
  · show cat.mirror = true → s.answered ≤ cat.streamed ∧ cat.hold ≤ s.bucket
    rw [mirror, streamed, held]
    exact rising.memory
  · show s.answered ≤ s.bucket ∨ (cat.hold ≤ s.bucket ∧ s.answered ≤ cat.streamed)
    rw [held, streamed]
    exact rising.reach
  · intro other
    by_cases same : other = t
    · subst same
      simp only [Follower.goes, Function.update_self]
      exact mine
    · simp only [Follower.goes, Function.update_of_ne same]
      exact (rising.tasks other).carry (Nat.le_refl _) (Nat.le_refl _) (by rw [streamed]) (.inl held)

theorem Rising.stays {task : Task} (rising : Rising s)
    (mine : Rises s.cat s.bucket s.answered task) : Rising (s.goes t s.cat task) :=
  rising.goes rfl rfl rfl mine

/-- A scan answers at or above its floor, from memory where that is newest. -/
theorem Rising.answers {lo hi : String} {floor at_ : Nat} {all : String → Option Value}
    {pinned : Bool} (rising : Rising s) (above : floor ≤ at_)
    (memory : s.cat.mirror = true → at_ ≤ s.cat.streamed)
    (source : at_ ≤ s.bucket ∨ (s.cat.hold ≤ s.bucket ∧ at_ ≤ s.cat.streamed)) :
    Rising (s.answers t lo hi floor all at_ pinned) := by
  have reach : Reaches s.cat (max s.answered at_) s.bucket := by
    rcases rising.reach with view | ⟨fits, stream⟩
    · rcases source with read | ⟨fits, stream⟩
      · exact .inl (by omega)
      · by_cases behind : at_ ≤ s.bucket
        · exact .inl (by omega)
        · exact .inr ⟨fits, by omega⟩
    · rcases source with read | ⟨_, laid⟩
      · by_cases behind : at_ ≤ s.cat.streamed
        · exact .inr ⟨fits, by omega⟩
        · exact .inl (by omega)
      · exact .inr ⟨fits, by omega⟩
  refine ⟨?_, reach, ?_⟩
  · intro (mirror : s.cat.mirror = true)
    have old := rising.memory mirror
    have new := memory mirror
    exact ⟨Nat.max_le.mpr ⟨old.1, new⟩, old.2⟩
  · intro other
    by_cases same : other = t
    · subst same
      simp only [Follower.answers, Follower.goes, Function.update_self]
      exact ⟨above, Nat.le_max_right _ _⟩
    · simp only [Follower.answers, Follower.goes, Function.update_of_ne same]
      exact (rising.tasks other).carry (Nat.le_refl _) (Nat.le_max_left _ _) (Nat.le_refl _)
        (.inl rfl)

theorem Rising.call (rising : Rising s) (call : Call) : Rising (s.call t call) := by
  have memory : s.cat.mirror = true → s.answered ≤ s.cat.streamed ∧
      (s.cat.streamed ≤ s.bucket ∨ (s.cat.hold ≤ s.bucket ∧ s.cat.streamed ≤ s.cat.streamed)) :=
    fun mirror => ⟨(rising.memory mirror).1, .inr ⟨(rising.memory mirror).2, Nat.le_refl _⟩⟩
  cases call with
  | scan lo hi =>
    simp only [Follower.call]
    split
    · split
      · rename_i mirror
        exact rising.answers (memory mirror).1 (fun _ => Nat.le_refl _) (memory mirror).2
      · exact rising.stays (Nat.le_refl s.answered)
    · split
      · rename_i mirror
        exact rising.answers (memory mirror).1 (fun _ => Nat.le_refl _) (memory mirror).2
      · exact rising.stays (Nat.le_refl s.answered)
  | get key =>
    simp only [Follower.call]
    split
    · exact rising.stays trivial
    · split
      · exact rising.stays trivial
      · exact rising.stays trivial
  | settle =>
    simp only [Follower.call]
    split
    · exact rising.stays trivial
    · exact rising.stays trivial
  | refresh => exact rising.stays trivial

/-- A scan begins to read a view that reaches its floor. -/
theorem Rising.begun {floor : Nat} (rising : Rising s) (old : floor ≤ s.answered) :
    floor ≤ s.answered ∧ s.bucket ≤ s.bucket ∧ Reaches s.cat floor s.bucket := by
  refine ⟨old, Nat.le_refl _, ?_⟩
  rcases rising.reach with view | ⟨fits, stream⟩
  · exact .inl (by omega)
  · exact .inr ⟨fits, by omega⟩

theorem Rising.seed {before after n : Nat} {all : String → Option Value} (rising : Rising s)
    (seen : before ≤ s.bucket)
    (newer : s.cat.mirror = false → s.cat.hold ≤ before → s.answered ≤ max s.cat.streamed before) :
    Rising (s.goes t (s.cat.seed before all after n) .unpin) := by
  rcases seed_cases s.cat before all after n with same | ⟨view, fits, _, seeded⟩
  · rw [same]
    exact rising.stays trivial
  · have new := newer view fits
    rw [seeded]
    refine ⟨fun _ => ⟨new, Nat.le_trans fits seen⟩, ?_, ?_⟩
    · rcases rising.reach with view | ⟨fits, stream⟩
      · exact .inl view
      · exact .inr ⟨fits, Nat.le_trans stream (Nat.le_max_left _ _)⟩
    · intro other
      by_cases same : other = t
      · subst same
        simp only [Follower.goes, Function.update_self]
        trivial
      · simp only [Follower.goes, Function.update_of_ne same]
        exact (rising.tasks other).carry (Nat.le_refl _) (Nat.le_refl _) (Nat.le_max_left _ _)
          (.inl rfl)

theorem Rising.prune {upto : Nat} {task : Task} (rising : Rising s)
    (mine : ∀ cat, Rises cat s.bucket s.answered task) :
    Rising (s.goes t (s.cat.prune upto) task) := by
  unfold Catalog.prune
  split
  · exact rising.goes rfl rfl rfl (mine _)
  · exact rising.goes rfl rfl rfl (mine _)

theorem Rising.step (rising : Rising s) {reads : String → Nat}
    (steady : Steady s (.step t reads)) : Rising (s.step h t reads) := by
  have mine := rising.tasks t
  simp only [Steady] at steady
  unfold Follower.step
  cases task : s.tasks t with
  | idle => exact rising
  | atNow lo hi floor =>
    rw [task] at steady
    simp only [h.number_c]
    exact rising.answers steady.1 steady.2 (.inl (Nat.le_refl _))
  | scanPin lo hi floor =>
    rw [task] at mine
    exact rising.goes rfl rfl rfl mine
  | seedPin => exact rising.goes rfl rfl rfl trivial
  | scanBefore lo hi floor =>
    rw [task] at mine
    simp only [h.number_c]
    exact rising.stays (rising.begun mine)
  | seedBefore =>
    simp only [h.number_c]
    exact rising.stays (Nat.le_refl s.bucket)
  | scanAll lo hi floor before =>
    rw [task] at mine
    exact rising.stays mine
  | seedAll before =>
    rw [task] at mine
    exact rising.stays mine
  | scanAfter lo hi floor before all =>
    rw [task] at mine
    simp only [h.number_c]
    exact rising.stays ⟨mine.1, mine.2.1, mine.2.2, mine.2.1⟩
  | seedAfter before all =>
    rw [task] at mine
    exact rising.stays mine
  | scanDecide lo hi floor before all after =>
    rw [task] at mine
    obtain ⟨old, seen, reached, later⟩ := mine
    simp only
    split
    · rename_i both
      apply rising.answers
      · rcases reached with view | ⟨_, stream⟩
        · omega
        · exact stream
      · exact fun _ => Nat.le_refl _
      · exact .inr ⟨by omega, Nat.le_refl _⟩
    · exact rising.stays ⟨old, seen, reached⟩
  | scanAlone lo hi floor before all after streamed =>
    rw [task] at mine steady
    obtain ⟨old, seen, reached⟩ := mine
    simp only
    split
    · apply rising.answers
      · rcases reached with view | ⟨_, stream⟩
        · exact view
        · omega
      · exact steady
      · exact .inl seen
    · exact rising.stays old
  | scanned lo hi floor all at_ pinned =>
    rw [task] at mine
    exact rising.goes rfl rfl rfl mine
  | getView key began => exact rising.stays trivial
  | getCheck key began c =>
    simp only
    split
    · exact rising.stays trivial
    · exact rising.stays trivial
  | getKv key began => exact rising.stays trivial
  | got key began value at_ mirrored => exact rising
  | markN refresh => exact rising.stays trivial
  | markC refresh n => exact rising.stays trivial
  | markMove refresh n c =>
    simp only
    split
    · exact rising.goes rfl rfl rfl trivial
    · exact rising.goes rfl rfl rfl trivial
  | prune c upto => exact rising.prune fun _ => trivial
  | seeds c =>
    simp only
    split
    · exact rising.stays trivial
    · exact rising.stays trivial
  | seedEnd before all after =>
    rw [task] at mine steady
    simp only
    split
    · exact rising.seed mine fun view fits => (steady view fits).1
    · exact rising.stays trivial
  | unpin => exact rising.goes rfl rfl rfl trivial

theorem Rising.next {op : Op} (rising : Rising s) (allowed : (follower h).Allows s op)
    (steady : Steady s op) : Rising ((follower h).next s op) := by
  cases op with
  | move bucket =>
    have forward : s.bucket ≤ bucket := allowed
    refine ⟨fun mirror => ?_, ?_, ?_⟩
    · have := rising.memory mirror
      exact ⟨this.1, Nat.le_trans this.2 forward⟩
    · rcases rising.reach with view | ⟨fits, stream⟩
      · exact .inl (Nat.le_trans view forward)
      · exact .inr ⟨Nat.le_trans fits forward, stream⟩
    · intro t
      exact (rising.tasks t).carry forward (Nat.le_refl _) (Nat.le_refl _) (.inl rfl)
  | apply id =>
    have ends := apply_cases s.cat (h.change id)
    simp only [follower]
    generalize s.cat.apply (h.change id) = cat at ends ⊢
    have grows : s.cat.streamed ≤ max s.cat.streamed (h.change id).id := Nat.le_max_left _ _
    cases ends with
    | pruned old => exact rising
    | gap new far missing lastN more =>
      rw [h.numbered] at new far missing
      obtain ⟨view, begun, _⟩ := steady ⟨new, far, missing⟩
      refine ⟨fun mirror => Bool.noConfusion mirror, .inl view, ?_⟩
      intro t
      exact (rising.tasks t).carry (Nat.le_refl _) (Nat.le_refl _) grows (.inr (begun t))
    | next new lastN more near hidden =>
      refine ⟨fun mirror => ?_, ?_, ?_⟩
      · have := rising.memory mirror
        exact ⟨Nat.le_trans this.1 grows, this.2⟩
      · rcases rising.reach with view | ⟨fits, stream⟩
        · exact .inl view
        · exact .inr ⟨fits, Nat.le_trans stream grows⟩
      · intro t
        exact (rising.tasks t).carry (Nat.le_refl _) (Nat.le_refl _) grows (.inl rfl)
  | call t call => exact rising.call call
  | step t reads => exact rising.step steady
  | fail t => exact rising.goes rfl rfl rfl trivial

theorem start_rising (bucket : Nat) (follows : Bool) : Rising (.start bucket follows) :=
  ⟨fun mirror => Bool.noConfusion mirror, .inl (Nat.zero_le _), fun _ => trivial⟩

end scans

section visible

variable {h : History} {s : Follower}

theorem overlayOk_iff {cat : Catalog} {c : Nat} :
    cat.overlayOk c = true ↔ cat.hold ≤ c ∧ c ≤ cat.streamed := by
  simp [Catalog.overlayOk]

theorem le_visibleN {cat : Catalog} (view : cat.mirror = false) : cat.view.2 ≤ cat.visibleN := by
  unfold Catalog.visibleN
  rw [view]
  split
  · rename_i on
    cases on
  · split
    · exact Nat.le_max_left _ _
    · exact Nat.le_refl _

theorem visibleN_le (cat : Catalog) : cat.visibleN ≤ max cat.view.2 cat.lastN := by
  unfold Catalog.visibleN
  split
  · exact Nat.le_max_right _ _
  · split
    · exact Nat.le_refl _
    · exact Nat.le_max_left _ _

/-- Without a mirror, more of the stream over the same view shows no less. -/
theorem visibleN_grows {cat cat' : Catalog} (mirror : cat'.mirror = cat.mirror)
    (view : cat'.view = cat.view) (held : cat'.hold = cat.hold)
    (streamed : cat.streamed ≤ cat'.streamed) (more : cat.lastN ≤ cat'.lastN) :
    cat.visibleN ≤ cat'.visibleN := by
  unfold Catalog.visibleN
  rw [mirror, view]
  split
  · exact more
  · split
    · rename_i ok
      obtain ⟨fits, stream⟩ := overlayOk_iff.mp ok
      rw [if_pos (overlayOk_iff.mpr ⟨by omega, by omega⟩)]
      omega
    · split
      · exact Nat.le_max_left _ _
      · exact Nat.le_refl _

theorem visibleN_apply {id : Nat} (steady : Steady s (.apply id)) :
    s.cat.visibleN ≤ (s.cat.apply (h.change id)).visibleN := by
  have ends := apply_cases s.cat (h.change id)
  generalize s.cat.apply (h.change id) = cat at ends ⊢
  cases ends with
  | pruned old => exact Nat.le_refl _
  | gap new far missing lastN more =>
    rw [h.numbered] at new far missing
    obtain ⟨_, _, behind⟩ := steady ⟨new, far, missing⟩
    refine Nat.le_trans ?_ (le_visibleN rfl)
    show s.cat.visibleN ≤ s.cat.view.2
    unfold Catalog.visibleN
    split
    · rename_i mirror
      exact behind (.inl mirror)
    · split
      · rename_i ok
        have := behind (.inr ok)
        omega
      · exact Nat.le_refl _
  | next new lastN more near hidden =>
    exact visibleN_grows rfl rfl rfl (Nat.le_max_left _ _) more

theorem visibleN_mark {cat : Catalog} {n c : Nat}
    (behind : cat.mirror = false → cat.overlayOk cat.view.1 = true → cat.streamed < c →
      cat.lastN ≤ max cat.view.2 n) : cat.visibleN ≤ (cat.mark n c).1.visibleN := by
  cases mirror : cat.mirror with
  | true => simp [Catalog.visibleN, Catalog.mark, mirror]
  | false =>
    have shown : (cat.mark n c).1.view.2 ≤ (cat.mark n c).1.visibleN := le_visibleN mirror
    have moved : (cat.mark n c).1.view.2 = max cat.view.2 n := rfl
    by_cases ok : cat.overlayOk cat.view.1 = true
    · obtain ⟨fits, stream⟩ := overlayOk_iff.mp ok
      by_cases passes : cat.streamed < c
      · have := behind mirror ok passes
        have := visibleN_le cat
        omega
      · have still : (cat.mark n c).1.overlayOk (cat.mark n c).1.view.1 = true := by
          apply overlayOk_iff.mpr
          show cat.hold ≤ max cat.view.1 c ∧ max cat.view.1 c ≤ cat.streamed
          omega
        have new : (cat.mark n c).1.visibleN = max (max cat.view.2 n) cat.lastN := by
          unfold Catalog.visibleN
          rw [if_pos still]
          simp [Catalog.mark, mirror]
        have := visibleN_le cat
        omega
    · have old : cat.visibleN = cat.view.2 := by
        unfold Catalog.visibleN
        rw [if_neg ok]
        simp [mirror]
      omega

theorem visibleN_seed {cat : Catalog} {before after n : Nat} {all : String → Option Value}
    (newer : cat.mirror = false → cat.hold ≤ before → cat.view.2 ≤ max cat.lastN n) :
    cat.visibleN ≤ (cat.seed before all after n).visibleN := by
  rcases seed_cases cat before all after n with same | ⟨view, fits, _, seeded⟩
  · rw [same]
  · have := newer view fits
    have := visibleN_le cat
    rw [seeded]
    show cat.visibleN ≤ max cat.lastN n
    omega

theorem visibleN_prune {cat : Catalog} {upto : Nat} : (cat.prune upto).visibleN = cat.visibleN := by
  unfold Catalog.prune
  split
  · rfl
  · rfl

theorem visibleN_call (t : Nat) (call : Call) : (s.call t call).cat.visibleN = s.cat.visibleN := by
  cases call with
  | scan lo hi =>
    simp only [Follower.call]
    split <;> split <;> rfl
  | get key =>
    simp only [Follower.call]
    split
    · rfl
    · split <;> rfl
  | settle =>
    simp only [Follower.call]
    split <;> rfl
  | refresh => rfl

theorem visibleN_step {t : Nat} {reads : String → Nat} (steady : Steady s (.step t reads)) :
    s.cat.visibleN ≤ (s.step h t reads).cat.visibleN := by
  simp only [Steady] at steady
  unfold Follower.step
  cases task : s.tasks t with
  | markMove refresh n c =>
    rw [task] at steady
    exact visibleN_mark steady
  | prune c upto => exact le_of_eq visibleN_prune.symm
  | seedEnd before all after =>
    rw [task] at steady
    simp only
    split
    · rename_i n read
      exact visibleN_seed fun view fits => (steady view fits).2 n read
    · exact Nat.le_refl _
  | scanDecide lo hi floor before all after =>
    simp only
    split <;> exact Nat.le_refl _
  | scanAlone lo hi floor before all after streamed =>
    simp only
    split <;> exact Nat.le_refl _
  | getCheck key began c =>
    simp only
    split <;> exact Nat.le_refl _
  | seeds c =>
    simp only
    split <;> exact Nat.le_refl _
  | _ => exact Nat.le_refl _

theorem visibleN_next {op : Op} (steady : Steady s op) :
    s.cat.visibleN ≤ ((follower h).next s op).cat.visibleN := by
  cases op with
  | move bucket => exact Nat.le_refl _
  | apply id => exact visibleN_apply steady
  | call t call => exact le_of_eq (visibleN_call t call).symm
  | step t reads => exact visibleN_step steady
  | fail t => exact Nat.le_refl _

end visible

section later

variable {h : History} {s : Follower} {t a : Nat}

/-- A scan in call `t` started once `a` was answered, if one is there. -/
def Since (a t : Nat) (s : Follower) : Prop :=
  a ≤ s.answered ∧ ∀ floor, (s.tasks t).floor = some floor → a ≤ floor

theorem Since.goes {t' : Nat} {cat : Catalog} {task : Task} (since : Since a t s)
    (new : t = t' → ∀ floor, task.floor = some floor →
      (s.tasks t).floor = some floor ∨ floor = s.answered) : Since a t (s.goes t' cat task) := by
  refine ⟨since.1, ?_⟩
  intro floor started
  by_cases same : t = t'
  · subst same
    simp only [Follower.goes, Function.update_self] at started
    rcases new rfl floor started with old | now
    · exact since.2 floor old
    · rw [now]
      exact since.1
  · simp only [Follower.goes, Function.update_of_ne same] at started
    exact since.2 floor started

theorem Since.answers {t' : Nat} {lo hi : String} {floor at_ : Nat} {all : String → Option Value}
    {pinned : Bool} (since : Since a t s)
    (new : t = t' → (s.tasks t).floor = some floor ∨ floor = s.answered) :
    Since a t (s.answers t' lo hi floor all at_ pinned) := by
  have goes : Since a t (s.goes t' s.cat (.scanned lo hi floor all at_ pinned)) := by
    apply since.goes
    intro same other started
    cases started
    exact new same
  exact ⟨Nat.le_trans since.1 (Nat.le_max_left _ _), goes.2⟩

theorem Since.call (since : Since a t s) (t' : Nat) (call : Call) : Since a t (s.call t' call) := by
  have none : ∀ task : Task, task.floor = none → t = t' → ∀ floor, task.floor = some floor →
      (s.tasks t).floor = some floor ∨ floor = s.answered := by
    intro task nothing _ floor started
    rw [nothing] at started
    cases started
  have now : ∀ task : Task, task.floor = some s.answered → t = t' → ∀ floor,
      task.floor = some floor → (s.tasks t).floor = some floor ∨ floor = s.answered := by
    intro task starts _ floor started
    rw [starts] at started
    cases started
    exact .inr rfl
  cases call with
  | scan lo hi =>
    simp only [Follower.call]
    split
    · split
      · exact since.answers fun _ => .inr rfl
      · exact since.goes (now _ rfl)
    · split
      · exact since.answers fun _ => .inr rfl
      · exact since.goes (now _ rfl)
  | get key =>
    simp only [Follower.call]
    split
    · exact since.goes (none _ rfl)
    · split
      · exact since.goes (none _ rfl)
      · exact since.goes (none _ rfl)
  | settle =>
    simp only [Follower.call]
    split
    · exact since.goes (none _ rfl)
    · exact since.goes (none _ rfl)
  | refresh => exact since.goes (none _ rfl)

theorem Since.step (since : Since a t s) (t' : Nat) (reads : String → Nat) :
    Since a t (s.step h t' reads) := by
  unfold Follower.step
  cases task : s.tasks t' with
  | idle => exact since
  | got key began value at_ mirrored => exact since
  | atNow lo hi floor =>
    exact since.answers fun same => .inl (by rw [same, task]; rfl)
  | scanDecide lo hi floor before all after =>
    simp only
    split
    · exact since.answers fun same => .inl (by rw [same, task]; rfl)
    · exact since.goes fun same other started => .inl (by rw [same, task]; exact started)
  | scanAlone lo hi floor before all after streamed =>
    simp only
    split
    · exact since.answers fun same => .inl (by rw [same, task]; rfl)
    · exact since.goes fun same other started => .inl (by rw [same, task]; exact started)
  | getCheck key began c =>
    simp only
    split <;> exact since.goes fun _ _ started => by cases started
  | markMove refresh n c =>
    simp only
    split <;> exact since.goes fun _ _ started => by cases started
  | seeds c =>
    simp only
    split <;> exact since.goes fun _ _ started => by cases started
  | seedEnd before all after =>
    simp only
    split <;> exact since.goes fun _ _ started => by cases started
  | _ => exact since.goes fun same other started => .inl (by rw [same, task]; exact started)

theorem Since.next {op : Op} (since : Since a t s) : Since a t ((follower h).next s op) := by
  cases op with
  | move bucket => exact since
  | apply id => exact since
  | call t' call => exact since.call t' call
  | step t' reads => exact since.step t' reads
  | fail t' => exact since.goes fun _ _ started => by cases started

theorem Since.run (since : Since a t s) (ops : List Op) : Since a t ((follower h).run s ops) := by
  induction ops generalizing s with
  | nil => exact since
  | cons op rest ih => exact ih since.next

/-- A scan starts with what was answered as its floor. -/
theorem call_since (old : a ≤ s.answered) (lo hi : String) :
    Since a t (s.call t (.scan lo hi)) := by
  have goes : ∀ task : Task, task.floor = some s.answered → Since a t (s.goes t s.cat task) := by
    intro task starts
    refine ⟨old, ?_⟩
    intro floor started
    simp only [Follower.goes, Function.update_self, starts] at started
    cases started
    exact old
  have answers : ∀ all at_, Since a t (s.answers t lo hi s.answered all at_ false) := by
    intro all at_
    have started := goes (.scanned lo hi s.answered all at_ false) rfl
    exact ⟨Nat.le_trans old (Nat.le_max_left _ _), started.2⟩
  simp only [Follower.call]
  split
  · split
    · exact answers _ _
    · exact goes _ rfl
  · split
    · exact answers _ _
    · exact goes _ rfl

end later

theorem run_rising {h : History} {bucket : Nat} {follows : Bool} {ops : List Op}
    (legal : ((follower h).only Steady).Legal (.start bucket follows) ops) :
    Rising ((follower h).run (.start bucket follows) ops) :=
  ((follower h).only Steady).run_invariant Rising
    (fun _ _ rising allowed => rising.next allowed.1 allowed.2) _ ops
    (start_rising bucket follows) legal

theorem answer_scanned {task : Task} {a : Nat} (answered : task.answer = some a) :
    ∃ lo hi floor all pinned, task = .scanned lo hi floor all a pinned := by
  cases task with
  | scanned lo hi floor all at_ pinned =>
    cases answered
    exact ⟨lo, hi, floor, all, pinned, rfl⟩
  | _ => cases answered

/-- Every commit adds a log segment. -/
def segments : History := .ofPuts fun i => [("n", json (i + 1))]

/-- The catalog is seeded, and each of two changes is read from memory. -/
def seededReads : List Op :=
  [.call 0 .refresh, .step 0 (at_ 0), .step 0 (at_ 0), .step 0 (at_ 0), .step 0 (at_ 0),
   .step 0 (at_ 0), .step 0 (at_ 0), .step 0 (at_ 0), .step 0 (at_ 0), .step 0 (at_ 0),
   .step 0 (at_ 0), .step 0 (at_ 0), .apply 1, .call 1 (.scan "t/" "t0"), .apply 2]

/-- The whole catalog in memory, and two changes read from it; then change 3 never arrives, and what
is held is dropped while the view still has none of them. -/
def gapRun : List Op :=
  [.call 0 .refresh, .step 0 (at_ 0), .step 0 (at_ 0), .step 0 (at_ 0), .step 0 (at_ 0),
   .step 0 (at_ 0), .step 0 (at_ 0), .step 0 (at_ 0), .step 0 (at_ 0), .step 0 (at_ 0),
   .step 0 (at_ 0), .step 0 (at_ 0), .apply 1, .apply 2, .call 1 (.scan "t/" "t0")]

end Pondra.Store
