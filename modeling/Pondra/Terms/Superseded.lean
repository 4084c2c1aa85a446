import Mathlib.Data.List.Nodup
import Pondra.Terms.Claims

set_option autoImplicit false

/-! ### A term is won once, and a superseded leader can tell -/

namespace Pondra.Terms

open Machines

namespace Claimer

/-- The term `latest` told of. -/
def seen : Claimer → Option Nat
  | listed n => some n
  | saw latest => latest.map (·.n)
  | _ => none

/-- The term of a claim that put its record. -/
def created? : Claimer → Option Nat
  | joining t _ _ | aside t | pruning t _ _ _ | deleting t _ | won t _ => some t.n
  | _ => none

/-- The term of a claim whose listing has no newer one. -/
def ahead : Claimer → Option Nat
  | joining t (some terms) _ => if terms.any fun k => decide (t.n < k) then none else some t.n
  | pruning t _ _ _ | deleting t _ | won t _ => some t.n
  | _ => none

/-- The term a claim may have marked. -/
def marked : Claimer → Option Nat
  | joining t _ true | aside t | pruning t _ _ _ | deleting t _ | won t _ => some t.n
  | _ => none

theorem ahead_created (c : Claimer) (n : Nat) (here : c.ahead = some n) : c.created? = some n := by
  cases c with
  | joining t terms =>
    cases terms with
    | none => cases here
    | some l =>
      rw [ahead] at here
      split at here
      · cases here
      · exact here
  | pruning | deleting | won => exact here
  | idle | listed | saw | putting | aside | lost => cases here

end Claimer

/-- What a claimer holds of the bucket's terms: they were there, and the newest has not gone back. -/
structure Fits (b : Bucket) (c : Claimer) : Prop where
  seen : ∀ n, c.seen = some n → n ≤ b.newest
  putting : ∀ t, c = .putting t → t.n ≤ b.newest + 1
  created : ∀ n, c.created? = some n → b.has n = true ∨ n < b.newest
  gone : ∀ m, Record.term m ∈ c.gone → m < b.newest

/-- Two claims of one term: a newer one is there, and one of the two has seen it or will. -/
def Apart (b : Bucket) (c d : Claimer) : Prop :=
  ∀ n, c.created? = some n → d.created? = some n →
    n < b.newest ∧ ¬(c.ahead = some n ∧ d.ahead = some n)

/-- The bucket's terms may only grow, but for those below the newest. -/
structure Grows (b b' : Bucket) : Prop where
  newest : b.newest ≤ b'.newest
  keeps : ∀ n, b.has n = true → b'.has n = true ∨ n < b'.newest

section buckets

variable {b b' : Bucket} {c c' d : Claimer}

theorem Grows.refl : Grows b b := ⟨Nat.le_refl _, fun _ here => .inl here⟩

/-- The terms are the same. -/
theorem Grows.same (same : b'.term = b.term) : Grows b b' := by
  have numbered : b'.numbered = b.numbered := by rw [Bucket.numbered, same, Bucket.numbered]
  constructor
  · exact Nat.le_of_eq (by rw [Bucket.newest, Bucket.newest, numbered])
  · intro n here
    rw [Bucket.has, numbered]
    exact .inl here

theorem Grows.create (t : Term) : Grows b (b.create t) := by
  constructor
  · rw [Bucket.newest_create]
    omega
  · intro n here
    rw [Bucket.has_create, here]
    exact .inl rfl

theorem Grows.delete (r : Record) (below : ∀ m, r = .term m → m < b.newest) :
    Grows b (b.delete r) := by
  cases r with
  | term m =>
    have less := below m rfl
    have same := Bucket.newest_delete m less
    constructor
    · omega
    · intro n here
      rw [Bucket.has_delete, here, same]
      by_cases this : n = m
      · exact .inr (this ▸ less)
      · exact .inl (by simpa using this)
  | alive m => exact .same rfl
  | left m => exact .same rfl

theorem Fits.mono (fits : Fits b c) (grows : Grows b b') : Fits b' c where
  seen n here := Nat.le_trans (fits.seen n here) grows.newest
  putting t here := Nat.le_trans (fits.putting t here) (Nat.succ_le_succ grows.newest)
  created n here := by
    cases fits.created n here with
    | inl there => exact grows.keeps n there
    | inr less => exact .inr (Nat.lt_of_lt_of_le less grows.newest)
  gone m here := Nat.lt_of_lt_of_le (fits.gone m here) grows.newest

theorem Apart.mono (apart : Apart b c d) (grows : Grows b b')
    (created : ∀ n, c'.created? = some n → c.created? = some n)
    (ahead : ∀ n, c'.ahead = some n → c.ahead = some n) : Apart b' c' d := by
  intro n here there
  obtain ⟨less, both⟩ := apart n (created n here) there
  exact ⟨Nat.lt_of_lt_of_le less grows.newest, fun two => both ⟨ahead n two.1, two.2⟩⟩

theorem Apart.symm (apart : Apart b c d) : Apart b d c := by
  intro n here there
  obtain ⟨less, both⟩ := apart n there here
  exact ⟨less, fun two => both ⟨two.2, two.1⟩⟩

theorem Fits.le (fits : Fits b c) (n : Nat) (here : c.created? = some n) : n ≤ b.newest := by
  cases fits.created n here with
  | inl there => exact Bucket.has_le n there
  | inr less => omega

end buckets

/-- Of every state reached. -/
structure Inv (s : Lake) : Prop where
  fits : ∀ i, Fits s.bucket (s.claims i)
  apart : ∀ i j, i ≠ j → Apart s.bucket (s.claims i) (s.claims j)
  marks : ∀ n i, (n, i) ∈ s.bucket.alive → (s.claims i).marked = some n
  won : ∀ n ∈ s.answered, ∃ i t late, s.claims i = .won t late ∧ t.n = n
  once : s.answered.Nodup

section steps

variable {s : Lake}

theorem inv_start : Inv .start where
  fits _ := ⟨nofun, nofun, nofun, nofun⟩
  apart _ _ _ _ := nofun
  marks _ _ := nofun
  won _ := nofun
  once := .nil

/-- One claimer goes on, over a bucket whose newest term stays or grows. -/
theorem Inv.goes (inv : Inv s) (b : Bucket) (i : Nat) (c : Claimer) (grows : Grows s.bucket b)
    (fits : Fits b c) (apart : ∀ j, j ≠ i → Apart b c (s.claims j))
    (marks : ∀ n j, (n, j) ∈ b.alive →
      (j = i → c.marked = some n) ∧ (j ≠ i → (n, j) ∈ s.bucket.alive))
    (still : ∀ t late, s.claims i = .won t late → ∃ late', c = .won t late') :
    Inv ((s.write b).set i c) where
  fits j := by
    by_cases this : j = i
    · simpa only [Lake.set, Lake.write, if_pos this] using fits
    · simpa only [Lake.set, Lake.write, if_neg this] using (inv.fits j).mono grows
  apart j k differ := by
    simp only [Lake.set, Lake.write]
    by_cases this : j = i
    · have other : k ≠ i := fun same => differ (this.trans same.symm)
      rw [if_pos this, if_neg other]
      exact apart k other
    · rw [if_neg this]
      by_cases that : k = i
      · rw [if_pos that]
        exact (apart j this).symm
      · rw [if_neg that]
        exact (inv.apart j k differ).mono grows (fun _ here => here) fun _ here => here
  marks n j inside := by
    obtain ⟨mine, others⟩ := marks n j inside
    by_cases this : j = i
    · simpa only [Lake.set, Lake.write, if_pos this] using mine this
    · simpa only [Lake.set, Lake.write, if_neg this] using inv.marks n j (others this)
  won n inside := by
    obtain ⟨j, t, late, here, same⟩ := inv.won n inside
    by_cases this : j = i
    · obtain ⟨late', eq⟩ := still t late (this ▸ here)
      exact ⟨j, t, late', by simpa only [Lake.set, Lake.write, if_pos this] using eq, same⟩
    · exact ⟨j, t, late, by simpa only [Lake.set, Lake.write, if_neg this] using here, same⟩
  once := inv.once

/-- The claimer goes on in its claim, or lets go of it, over the same bucket. -/
theorem Inv.on (inv : Inv s) (i : Nat) (c : Claimer) (fits : Fits s.bucket c)
    (created : ∀ n, c.created? = some n → (s.claims i).created? = some n)
    (ahead : ∀ n, c.ahead = some n → (s.claims i).ahead = some n)
    (marks : ∀ n, (s.claims i).marked = some n → c.marked = some n)
    (still : ∀ t late, s.claims i = .won t late → ∃ late', c = .won t late') :
    Inv (s.set i c) := by
  apply inv.goes s.bucket i c .refl fits
  · intro j differ
    exact (inv.apart i j (Ne.symm differ)).mono .refl created ahead
  · intro n j inside
    exact ⟨fun same => marks n (same ▸ inv.marks n j inside), fun _ => inside⟩
  · exact still

/-- A write of an alive mark, or a delete of one, leaves the claims as they are. -/
theorem Inv.write (inv : Inv s) (b : Bucket) (same : b.term = s.bucket.term)
    (marks : ∀ n j, (n, j) ∈ b.alive → (s.claims j).marked = some n) : Inv (s.write b) where
  fits j := (inv.fits j).mono (.same same)
  apart i j differ :=
    (inv.apart i j differ).mono (.same same) (fun _ here => here) fun _ here => here
  marks := marks
  won := inv.won
  once := inv.once

/-- A claimer with no mark yet reads, and has put no record. -/
theorem Inv.look (inv : Inv s) (i : Nat) (c : Claimer) (fits : Fits s.bucket c)
    (unput : c.created? = none) (unmarked : (s.claims i).marked = none) : Inv (s.set i c) := by
  apply inv.on i c fits
  · intro n here
    rw [unput] at here
    cases here
  · intro n here
    have := c.ahead_created n here
    rw [unput] at this
    cases this
  · intro n here
    rw [unmarked] at here
    cases here
  · intro t late here
    rw [here] at unmarked
    cases unmarked

theorem inv_list (inv : Inv s) (i : Nat) : Inv (s.list i) := by
  unfold Lake.list
  cases here : s.claims i with
  | idle =>
    simp only
    split
    · exact inv.look i _ ⟨nofun, nofun, nofun, nofun⟩ rfl (by rw [here]; rfl)
    · apply inv.look i _ _ rfl (by rw [here]; rfl)
      constructor
      · intro n seen
        cases seen
        exact Nat.le_refl _
      · nofun
      · nofun
      · nofun
  | _ => exact inv

theorem inv_read (inv : Inv s) (i : Nat) : Inv (s.read i) := by
  unfold Lake.read
  cases here : s.claims i with
  | listed n =>
    simp only
    have seen : n ≤ s.bucket.newest := (inv.fits i).seen n (by rw [here]; rfl)
    cases found : s.bucket.term.find? fun t => decide (t.n = n) with
    | none => exact inv.look i _ ⟨nofun, nofun, nofun, nofun⟩ rfl (by rw [here]; rfl)
    | some t =>
      have same : t.n = n := by simpa using List.find?_some found
      apply inv.look i _ _ rfl (by rw [here]; rfl)
      constructor
      · intro k eq
        cases eq
        show t.n ≤ s.bucket.newest
        omega
      · nofun
      · nofun
      · nofun
  | _ => exact inv

theorem inv_claim (inv : Inv s) (i : Nat) (addr lock : String) (replicas : Nat) :
    Inv (s.claim i addr lock replicas) := by
  unfold Lake.claim
  cases here : s.claims i with
  | saw latest =>
    apply inv.look i _ _ rfl (by rw [here]; rfl)
    constructor
    · nofun
    · intro t eq
      cases eq
      cases latest with
      | none => exact Nat.succ_le_succ (Nat.zero_le _)
      | some t => exact Nat.succ_le_succ ((inv.fits i).seen t.n (by rw [here]; rfl))
    · nofun
    · nofun
  | _ => exact inv

theorem inv_put (inv : Inv s) (i : Nat) : Inv (s.put i) := by
  unfold Lake.put
  cases here : s.claims i with
  | putting t =>
    simp only
    cases there : s.bucket.has t.n with
    | true =>
      have same : s.bucket.create t = s.bucket := if_pos there
      rw [same]
      exact inv.look i (.lost t) ⟨nofun, nofun, nofun, nofun⟩ rfl (by rw [here]; rfl)
    | false =>
      apply inv.goes _ _ _ (.create t)
      · constructor
        · nofun
        · nofun
        · intro n eq
          cases eq
          rw [Bucket.has_create]
          exact .inl (by simp)
        · nofun
      · intro j differ n mine theirs
        cases mine
        have less : t.n < s.bucket.newest := by
          cases (inv.fits j).created t.n theirs with
          | inl was => exact absurd was (by rw [there]; decide)
          | inr less => exact less
        rw [Bucket.newest_create]
        exact ⟨by omega, fun both => nomatch both.1⟩
      · intro n j inside
        have old : (n, j) ∈ s.bucket.alive := by
          rw [Bucket.create, there] at inside
          exact inside
        refine ⟨fun same => ?_, fun _ => old⟩
        have marked := inv.marks n j old
        rw [same, here] at marked
        cases marked
      · intro u late eq
        rw [here] at eq
        cases eq
  | _ => exact inv

/-- A listing with no newer term is of a bucket that has none. -/
theorem unseen (t : Term)
    (none : s.bucket.numbered.any (fun k => decide (t.n < k)) = false) :
    s.bucket.newest ≤ t.n := by
  apply Bucket.newest_le
  intro other inside
  have := List.any_eq_false.mp none other.n (List.mem_map_of_mem inside)
  simpa using this

theorem joined_created (t : Term) (terms : Option (List Nat)) (marked : Bool) :
    (Claimer.joined t terms marked).created? = some t.n := by
  unfold Claimer.joined Claimer.prune
  grind [Claimer.created?]

theorem joined_ahead (t : Term) (terms : Option (List Nat)) (marked : Bool) :
    (Claimer.joined t terms marked).ahead = (Claimer.joining t terms marked).ahead := by
  unfold Claimer.joined Claimer.prune
  grind [Claimer.ahead]

theorem joined_marked (t : Term) (terms : Option (List Nat)) (marked : Bool) :
    (Claimer.joined t terms marked).marked = if marked then some t.n else none := by
  unfold Claimer.joined Claimer.prune
  grind [Claimer.marked]

theorem joined_gone (t : Term) (terms : Option (List Nat)) (marked : Bool) :
    (Claimer.joined t terms marked).gone = [] := by
  unfold Claimer.joined Claimer.prune
  grind [Claimer.gone]

theorem fits_created {b : Bucket} {c : Claimer} (n : Nat) (same : c.created? = some n)
    (created : b.has n = true ∨ n < b.newest)
    (gone : ∀ m, Record.term m ∈ c.gone → m < b.newest) : Fits b c where
  seen k eq := by
    cases c <;> grind [Claimer.created?, Claimer.seen]
  putting t eq := by
    rw [eq] at same
    cases same
  created k eq := by
    rw [same] at eq
    cases eq
    exact created
  gone := gone

theorem inv_terms (inv : Inv s) (i : Nat) : Inv (s.terms i) := by
  unfold Lake.terms
  cases here : s.claims i with
  | joining t listed marked =>
    cases listed with
    | some l => exact inv
    | none =>
      have mine : (s.claims i).created? = some t.n := by rw [here]; rfl
      apply inv.goes s.bucket i _ .refl
      · apply fits_created t.n (joined_created t _ marked) ((inv.fits i).created t.n mine)
        intro m inside
        rw [joined_gone] at inside
        cases inside
      · intro j differ n own theirs
        rw [joined_created] at own
        cases own
        have less := ((inv.apart i j (Ne.symm differ)) t.n mine theirs).1
        refine ⟨less, fun both => ?_⟩
        -- its listing has the newest, which is past the term
        have saw := both.1
        rw [joined_ahead, Claimer.ahead] at saw
        split at saw
        · cases saw
        · rename_i none
          have := unseen t (Bool.eq_false_iff.mpr none)
          omega
      · intro n j inside
        refine ⟨fun same => ?_, fun _ => inside⟩
        have old := inv.marks n j inside
        rw [same, here] at old
        rw [joined_marked]
        cases marked with
        | true => exact old
        | false => cases old
      · intro u late eq
        rw [here] at eq
        cases eq
  | _ => exact inv

theorem inv_mark (inv : Inv s) (i : Nat) : Inv (s.mark i) := by
  unfold Lake.mark
  have alive : ∀ (n : Nat) (j : Nat) (m : Nat), (m, j) ∈ (s.bucket.mark n i).alive →
      (m, j) ∈ s.bucket.alive ∨ m = n ∧ j = i := by
    intro n j m inside
    rw [Bucket.mark, List.mem_append, List.mem_filter, List.mem_singleton] at inside
    cases inside with
    | inl old => exact .inl old.1
    | inr new => exact .inr (Prod.mk.inj new)
  cases here : s.claims i with
  | joining t listed marked =>
    cases marked with
    | true => exact inv
    | false =>
      have mine : (s.claims i).created? = some t.n := by rw [here]; rfl
      simp only
      have fits : Fits s.bucket (.joined t listed true) := by
        apply fits_created t.n (joined_created t _ true) ((inv.fits i).created t.n mine)
        intro m inside
        rw [joined_gone] at inside
        cases inside
      apply inv.goes (s.bucket.mark t.n i) i _ (.same rfl) (fits.mono (.same rfl))
      · intro j differ
        apply (inv.apart i j (Ne.symm differ)).mono (.same rfl)
        · intro n own
          rw [joined_created] at own
          exact mine.trans own
        · intro n own
          rw [joined_ahead] at own
          rw [here]
          cases listed <;> exact own
      · intro n j inside
        have old := alive t.n j n inside
        refine ⟨fun same => ?_, fun differ => ?_⟩
        · rw [joined_marked]
          cases old with
          | inl was =>
            have marked := inv.marks n j was
            rw [same, here] at marked
            cases marked
          | inr new => rw [new.1, if_pos rfl]
        · cases old with
          | inl was => exact was
          | inr new => exact absurd new.2 differ
      · intro u late eq
        rw [here] at eq
        cases eq
  | won t late =>
    apply inv.write (s.bucket.mark t.n i) rfl
    intro n j inside
    cases alive t.n j n inside with
    | inl old => exact inv.marks n j old
    | inr new =>
      rw [new.2, here, new.1]
      rfl
  | _ => exact inv

theorem alive_delete (n : Nat) (mark : Nat × Nat)
    (inside : mark ∈ (s.bucket.delete (.alive n)).alive) : mark ∈ s.bucket.alive ∧ mark.1 ≠ n := by
  have := List.mem_filter.mp inside
  exact ⟨this.1, of_decide_eq_true this.2⟩

theorem inv_unmark (inv : Inv s) (i : Nat) : Inv (s.unmark i) := by
  unfold Lake.unmark
  cases here : s.claims i with
  | aside t =>
    simp only
    apply inv.goes (s.bucket.delete (.alive t.n)) i (.lost t) (.same rfl) ⟨nofun, nofun, nofun, nofun⟩
    · intro j differ n own
      cases own
    · intro n j inside
      obtain ⟨old, other⟩ := alive_delete t.n (n, j) inside
      refine ⟨fun same => ?_, fun _ => old⟩
      -- its own mark was the one deleted
      have mine := inv.marks n j old
      rw [same, here] at mine
      cases mine
      exact absurd rfl other
    · intro u late eq
      rw [here] at eq
      cases eq
  | _ => exact inv

theorem inv_trim (inv : Inv s) (i : Nat) (t : Term) (terms : List Nat)
    (alive left alive' left' : Option (List Nat))
    (here : s.claims i = .pruning t terms alive left) :
    Inv (s.set i (.trim t terms alive' left')) := by
  have mine : (s.claims i).created? = some t.n := by rw [here]; rfl
  have low := (inv.fits i).le t.n mine
  have same : (Claimer.trim t terms alive' left').created? = some t.n := by
    cases alive' <;> cases left' <;> rfl
  have first : (Claimer.trim t terms alive' left').ahead = some t.n := by
    cases alive' <;> cases left' <;> rfl
  have marked : (Claimer.trim t terms alive' left').marked = some t.n := by
    cases alive' <;> cases left' <;> rfl
  apply inv.on
  · apply fits_created t.n same ((inv.fits i).created t.n mine)
    intro m inside
    cases alive' <;> cases left' <;> try cases inside
    have below := of_decide_eq_true (List.mem_filter.mp inside).2
    simp only [Record.n, keep] at below
    omega
  · intro n own
    rw [same] at own
    exact mine.trans own
  · intro n own
    rw [first] at own
    rw [here]
    exact own
  · intro n own
    rw [here] at own
    rw [marked]
    exact own
  · intro u late eq
    rw [here] at eq
    cases eq

theorem inv_alive (inv : Inv s) (i : Nat) : Inv (s.alive i) := by
  unfold Lake.alive
  cases here : s.claims i with
  | pruning t terms alive left =>
    cases alive with
    | none => exact inv_trim inv i t terms _ _ _ _ here
    | some l => exact inv
  | _ => exact inv

theorem inv_left (inv : Inv s) (i : Nat) : Inv (s.left i) := by
  unfold Lake.left
  cases here : s.claims i with
  | pruning t terms alive left =>
    cases left with
    | none => exact inv_trim inv i t terms _ _ _ _ here
    | some l => exact inv
  | _ => exact inv

theorem inv_delete (inv : Inv s) (i k : Nat) : Inv (s.delete i k) := by
  unfold Lake.delete
  cases found : (s.claims i).gone[k]? with
  | none => exact inv
  | some r =>
    have inside := List.mem_of_getElem? found
    have grows : Grows s.bucket (s.bucket.delete r) := by
      apply Grows.delete
      intro m eq
      exact (inv.fits i).gone m (eq ▸ inside)
    have created : ((s.claims i).without k).created? = (s.claims i).created? := by
      cases s.claims i <;> rfl
    have ahead : ((s.claims i).without k).ahead = (s.claims i).ahead := by
      cases s.claims i <;> rfl
    have marked : ((s.claims i).without k).marked = (s.claims i).marked := by
      cases s.claims i <;> rfl
    have rest : ∀ r', r' ∈ ((s.claims i).without k).gone → r' ∈ (s.claims i).gone := by
      intro r' there
      cases eq : s.claims i <;> rw [eq] at there <;>
        first | exact there | exact List.mem_of_mem_eraseIdx there
    have alive : ∀ mark, mark ∈ (s.bucket.delete r).alive → mark ∈ s.bucket.alive := by
      intro mark there
      cases r with
      | alive m => exact (List.mem_filter.mp there).1
      | term | left => exact there
    have fits : Fits s.bucket ((s.claims i).without k) := by
      constructor
      · intro n eq
        apply (inv.fits i).seen n
        cases here : s.claims i <;> rw [here] at eq <;> exact eq
      · intro t eq
        apply (inv.fits i).putting t
        cases here : s.claims i <;> rw [here] at eq <;> first | exact eq | cases eq
      · intro n eq
        exact (inv.fits i).created n (created ▸ eq)
      · intro m there
        exact (inv.fits i).gone m (rest _ there)
    apply inv.goes (s.bucket.delete r) i _ grows (fits.mono grows)
    · intro j differ
      exact (inv.apart i j (Ne.symm differ)).mono grows (fun n eq => created ▸ eq)
        fun n eq => ahead ▸ eq
    · intro n j there
      refine ⟨fun same => ?_, fun _ => alive _ there⟩
      rw [marked, ← same]
      exact inv.marks n j (alive _ there)
    · intro t late eq
      rw [eq]
      exact ⟨_, rfl⟩

/-- The term of the claim that answers is won by no other. -/
theorem inv_answer (inv : Inv s) (i : Nat) : Inv (s.answer i) := by
  have wins (t : Term) (late : List Record) (created : (s.claims i).created? = some t.n)
      (ahead : (s.claims i).ahead = some t.n) (marked : (s.claims i).marked = some t.n)
      (unwon : ∀ u l, s.claims i ≠ .won u l) (gone : ∀ r ∈ late, r ∈ (s.claims i).gone) :
      Inv { s.set i (.won t late) with answered := s.answered ++ [t.n] } := by
    have same : Inv (s.set i (.won t late)) := by
      apply inv.on
      · apply fits_created t.n rfl ((inv.fits i).created t.n created)
        intro m inside
        exact (inv.fits i).gone m (gone _ inside)
      · intro n eq
        exact created.trans eq
      · intro n eq
        exact ahead.trans eq
      · intro n eq
        exact marked.symm.trans eq
      · intro u l eq
        exact absurd eq (unwon u l)
    refine ⟨same.fits, same.apart, same.marks, ?_, ?_⟩
    · intro n inside
      rw [List.mem_append, List.mem_singleton] at inside
      cases inside with
      | inl old => exact same.won n old
      | inr new => exact ⟨i, t, late, by simp [Lake.set], new.symm⟩
    · rw [List.nodup_append]
      refine ⟨inv.once, List.nodup_singleton _, fun n inside m new eq => ?_⟩
      rw [List.mem_singleton] at new
      obtain ⟨j, u, l, won, term⟩ := inv.won n inside
      have differ : i ≠ j := fun this => unwon u l (this ▸ won)
      have theirs : u.n = t.n := by omega
      apply (inv.apart i j differ t.n created (by rw [won, ← theirs]; rfl)).2
      rw [won, ← theirs]
      exact ⟨theirs ▸ ahead, rfl⟩
  unfold Lake.answer
  cases here : s.claims i with
  | pruning t terms alive left =>
    apply wins t [] <;> rw [here] <;> first | rfl | nofun
  | deleting t gone =>
    apply wins t gone <;> rw [here] <;> first | rfl | exact fun r inside => inside | nofun
  | _ => exact inv

theorem inv_leave (inv : Inv s) (i : Nat) : Inv (s.leave i) := by
  unfold Lake.leave Bucket.leave
  cases s.claims i with
  | won t late =>
    simp only
    split
    · exact inv
    · exact inv.write _ rfl fun n j inside => inv.marks n j inside
  | _ => exact inv

theorem inv_release (inv : Inv s) (i : Nat) : Inv (s.release i) := by
  unfold Lake.release
  cases s.claims i with
  | won t late =>
    exact inv.write (s.bucket.delete (.alive t.n)) rfl fun n j inside =>
      inv.marks n j (alive_delete t.n (n, j) inside).1
  | _ => exact inv

theorem inv_ask (inv : Inv s) (m : Nat) : Inv (s.ask m) :=
  ⟨inv.fits, inv.apart, inv.marks, inv.won, inv.once⟩

theorem inv_own (inv : Inv s) (j : Nat) : Inv (s.own j) := by
  unfold Lake.own
  split
  · exact ⟨inv.fits, inv.apart, inv.marks, inv.won, inv.once⟩
  · exact inv

/-- Any step keeps it. -/
theorem inv_next (inv : Inv s) (op : Op) : Inv (s.next op) := by
  cases op with
  | list i => exact inv_list inv i
  | read i => exact inv_read inv i
  | claim i addr lock replicas => exact inv_claim inv i addr lock replicas
  | put i => exact inv_put inv i
  | terms i => exact inv_terms inv i
  | mark i => exact inv_mark inv i
  | unmark i => exact inv_unmark inv i
  | alive i => exact inv_alive inv i
  | left i => exact inv_left inv i
  | delete i k => exact inv_delete inv i k
  | answer i => exact inv_answer inv i
  | leave i => exact inv_leave inv i
  | release i => exact inv_release inv i
  | ask m => exact inv_ask inv m
  | own j => exact inv_own inv j

/-- The newest term never goes back. -/
theorem newest_next (inv : Inv s) (op : Op) : s.bucket.newest ≤ (s.next op).bucket.newest := by
  cases op with
  | put i =>
    simp only [Lake.next, Lake.put]
    cases s.claims i with
    | putting t => exact (Grows.create t).newest
    | _ => exact Nat.le_refl _
  | delete i k =>
    simp only [Lake.next, Lake.delete]
    cases found : (s.claims i).gone[k]? with
    | none => exact Nat.le_refl _
    | some r =>
      apply (Grows.delete r _).newest
      intro m eq
      exact (inv.fits i).gone m (eq ▸ List.mem_of_getElem? found)
  | leave i =>
    simp only [Lake.next, Lake.leave, Bucket.leave]
    cases s.claims i with
    | won t late =>
      simp only
      split <;> exact Nat.le_refl _
    | _ => exact Nat.le_refl _
  | list i | read i | claim i | terms i | mark i | unmark i | alive i | left i | answer i
  | release i | own j =>
    simp only [Lake.next, Lake.list, Lake.read, Lake.claim, Lake.terms, Lake.mark, Lake.unmark,
      Lake.alive, Lake.left, Lake.answer, Lake.release, Lake.own]
    split <;> exact Nat.le_refl _
  | ask m => exact Nat.le_refl _

end steps

/-! ### The records that let a leader tell -/

/-- The term about to be put. -/
def Claimer.putting? : Claimer → Option Term
  | putting t => some t
  | _ => none

/-- A stale claim's record comes only under the next one's, and between no check's two looks. -/
def Under (s : Lake) (t : Term) : Prop :=
  s.bucket.has t.n = true ∨ s.bucket.newest < t.n ∨
    s.bucket.has (t.n + 1) = true ∧ Check.next t.n true ∉ s.checks

/-- A prune's delete of a term's record comes after those of the ones before. -/
def InOrder (s : Lake) : Record → Prop
  | .term m => s.bucket.has (m - 1) = false
  | _ => True

def Sure (s : Lake) : Op → Prop
  | .put i => ∀ t ∈ (s.claims i).putting?.toList, Under s t
  | .delete i k => ∀ r ∈ (s.claims i).gone[k]?.toList, InOrder s r
  | _ => True

/-- No record below the newest lacks the next, and a check that is owed finds its own gone. -/
structure Tells (s : Lake) : Prop where
  next : ∀ m, m < s.bucket.newest → s.bucket.has m = true → s.bucket.has (m + 1) = true
  waiting : ∀ m, Check.next m true ∈ s.checks → m < s.bucket.newest ∧ s.bucket.has m = false
  told : ∀ m answer, Check.answered m true answer ∈ s.checks → answer = true

section tells

variable {s : Lake}

theorem Tells.same (tells : Tells s) (s' : Lake) (term : s'.bucket.term = s.bucket.term)
    (checks : s'.checks = s.checks) : Tells s' := by
  have numbered : s'.bucket.numbered = s.bucket.numbered := by
    rw [Bucket.numbered, term, Bucket.numbered]
  have newest : s'.bucket.newest = s.bucket.newest := by
    rw [Bucket.newest, numbered, Bucket.newest]
  have has : ∀ n, s'.bucket.has n = s.bucket.has n := fun n => by
    rw [Bucket.has, numbered, Bucket.has]
  constructor
  · intro m less here
    rw [newest] at less
    rw [has] at here ⊢
    exact tells.next m less here
  · intro m inside
    rw [checks] at inside
    rw [newest, has]
    exact tells.waiting m inside
  · intro m answer inside
    exact tells.told m answer (checks ▸ inside)

theorem tells_put (tells : Tells s) (inv : Inv s) (i : Nat) (sure : Sure s (.put i)) :
    Tells (s.put i) := by
  unfold Lake.put
  cases here : s.claims i with
  | putting t =>
    simp only
    cases there : s.bucket.has t.n with
    | true =>
      exact tells.same _ (congrArg Bucket.term (if_pos there)) rfl
    | false =>
      have low := (inv.fits i).putting t here
      have new : Under s t := sure t (by rw [here]; exact List.mem_singleton_self t)
      unfold Under at new
      rw [there] at new
      have newest : ((s.write (s.bucket.create t)).set i (.created t false)).bucket.newest =
          max s.bucket.newest t.n := Bucket.newest_create t
      have has : ∀ n, ((s.write (s.bucket.create t)).set i (.created t false)).bucket.has n =
          (s.bucket.has n || decide (n = t.n)) := Bucket.has_create t
      constructor
      · intro m less before
        rw [newest] at less
        rw [has, Bool.or_eq_true, decide_eq_true_eq] at before ⊢
        by_cases own : m = t.n
        · -- the record put now: the next one is there
          rw [own] at less ⊢
          left
          cases new with
          | inl was => cases was
          | inr new =>
            cases new with
            | inl top => omega
            | inr past => exact past.1
        · cases before with
          | inr this => exact absurd this own
          | inl before =>
            have le := Bucket.has_le m before
            by_cases top : m = s.bucket.newest
            · right
              omega
            · exact .inl (tells.next m (by omega) before)
      · intro m inside
        have old := tells.waiting m inside
        rw [newest, has]
        have apart : m ≠ t.n := by
          intro same
          cases new with
          | inl was => cases was
          | inr new =>
            cases new with
            | inl top => omega
            | inr past => exact past.2 (same ▸ inside)
        refine ⟨by omega, ?_⟩
        rw [old.2, decide_eq_false apart, Bool.or_false]
      · exact tells.told
  | _ => exact tells

theorem tells_delete (tells : Tells s) (inv : Inv s) (i k : Nat) (sure : Sure s (.delete i k)) :
    Tells (s.delete i k) := by
  unfold Lake.delete
  cases found : (s.claims i).gone[k]? with
  | none => exact tells
  | some r =>
    cases r with
    | alive n => exact tells.same _ rfl rfl
    | left n => exact tells.same _ rfl rfl
    | term n =>
      have below := (inv.fits i).gone n (List.mem_of_getElem? found)
      have before : s.bucket.has (n - 1) = false :=
        sure (.term n) (by rw [found]; exact List.mem_singleton_self _)
      have newest : (s.bucket.delete (.term n)).newest = s.bucket.newest :=
        Bucket.newest_delete n below
      have has := Bucket.has_delete n (b := s.bucket)
      constructor
      · intro m less here
        replace less : m < (s.bucket.delete (.term n)).newest := less
        replace here : (s.bucket.delete (.term n)).has m = true := here
        show (s.bucket.delete (.term n)).has (m + 1) = true
        rw [newest] at less
        rw [has, Bool.and_eq_true] at here ⊢
        refine ⟨tells.next m less here.1, ?_⟩
        apply decide_eq_true
        intro same
        rw [← same, Nat.add_sub_cancel, here.1] at before
        cases before
      · intro m inside
        have old := tells.waiting m inside
        show m < (s.bucket.delete (.term n)).newest ∧ (s.bucket.delete (.term n)).has m = false
        rw [newest, has, old.2, Bool.false_and]
        exact ⟨old.1, rfl⟩
      · exact tells.told

theorem tells_ask (tells : Tells s) (inv : Inv s) (m : Nat) : Tells (s.ask m) := by
  have newer : s.answered.any (fun n => decide (m < n)) = true → m < s.bucket.newest := by
    intro owing
    obtain ⟨n, inside, above⟩ := List.any_eq_true.mp owing
    obtain ⟨i, t, late, won, same⟩ := inv.won n inside
    have le := (inv.fits i).le n (by rw [won, ← same]; rfl)
    have := of_decide_eq_true above
    omega
  unfold Lake.ask
  constructor
  · exact tells.next
  · intro k inside
    rw [List.mem_append, List.mem_singleton] at inside
    cases inside with
    | inl old => exact tells.waiting k old
    | inr new =>
      split at new
      · cases new
      · rename_i none
        injection new with same owing
        rw [same]
        have above := newer owing.symm
        refine ⟨above, ?_⟩
        apply Bool.eq_false_iff.mpr
        intro here
        exact none (tells.next m above here)
  · intro k answer inside
    rw [List.mem_append, List.mem_singleton] at inside
    cases inside with
    | inl old => exact tells.told k answer old
    | inr new =>
      split at new
      · injection new
      · cases new

theorem tells_own (tells : Tells s) (j : Nat) : Tells (s.own j) := by
  unfold Lake.own
  split
  · rename_i m owing found
    constructor
    · exact tells.next
    · intro k inside
      cases List.mem_or_eq_of_mem_set inside with
      | inl old => exact tells.waiting k old
      | inr new => cases new
    · intro k answer inside
      cases List.mem_or_eq_of_mem_set inside with
      | inl old => exact tells.told k answer old
      | inr new =>
        injection new with same owed told
        have waiting := tells.waiting m (owed ▸ List.mem_of_getElem? found)
        rw [told, waiting.2]
        rfl
  · exact tells

theorem tells_next (tells : Tells s) (inv : Inv s) (op : Op) (sure : Sure s op) :
    Tells (s.next op) := by
  cases op with
  | put i => exact tells_put tells inv i sure
  | delete i k => exact tells_delete tells inv i k sure
  | ask m => exact tells_ask tells inv m
  | own j => exact tells_own tells j
  | leave i =>
    simp only [Lake.next, Lake.leave, Bucket.leave]
    cases s.claims i with
    | won t late =>
      simp only
      split <;> exact tells.same _ rfl rfl
    | _ => exact tells
  | list i | read i | claim i | terms i | mark i | unmark i | alive i | left i | answer i
  | release i =>
    simp only [Lake.next, Lake.list, Lake.read, Lake.claim, Lake.terms, Lake.mark, Lake.unmark,
      Lake.alive, Lake.left, Lake.answer, Lake.release]
    split <;> exact tells.same _ rfl rfl

end tells

/-- What is so of the terms a run answers, whatever its store calls' order. -/
structure Lake.Right (s : Lake) : Prop where
  once : s.answered.Nodup
  newest : ∀ n ∈ s.answered, n ≤ s.bucket.newest
  lost : ∀ i t, s.claims i = .lost t → ∀ n, (n, i) ∉ s.bucket.alive

theorem Inv.right {s : Lake} (inv : Inv s) : s.Right where
  once := inv.once
  newest n inside := by
    obtain ⟨i, t, late, won, same⟩ := inv.won n inside
    exact (inv.fits i).le n (by rw [won, ← same]; rfl)
  lost i t here n inside := by
    have marked := inv.marks n i inside
    rw [here] at marked
    cases marked

theorem inv_run (s : Lake) (inv : Inv s) (ops : List Op) : Inv (terms.run s ops) := by
  induction ops generalizing s with
  | nil => exact inv
  | cons op rest ih => exact ih (s.next op) (inv_next inv op)

theorem newest_run (s : Lake) (inv : Inv s) (ops : List Op) :
    s.bucket.newest ≤ (terms.run s ops).bucket.newest := by
  induction ops generalizing s with
  | nil => exact Nat.le_refl _
  | cons op rest ih => exact Nat.le_trans (newest_next inv op) (ih _ (inv_next inv op))

theorem tells_start : Tells .start where
  next m less := absurd less (Nat.not_lt_zero m)
  waiting _ := nofun
  told _ _ := nofun

instance (s : Lake) (t : Term) : Decidable (Under s t) := inferInstanceAs (Decidable (_ ∨ _ ∨ _))

instance (s : Lake) (r : Record) : Decidable (InOrder s r) :=
  match r with
  | .term _ => inferInstanceAs (Decidable (_ = _))
  | .alive _ | .left _ => .isTrue trivial

instance (s : Lake) (op : Op) : Decidable (Sure s op) :=
  match op with
  | .put i => inferInstanceAs (Decidable (∀ t ∈ (s.claims i).putting?.toList, Under s t))
  | .delete i k => inferInstanceAs (Decidable (∀ r ∈ (s.claims i).gone[k]?.toList, InOrder s r))
  | .list _ | .read _ | .claim .. | .terms _ | .mark _ | .unmark _ | .alive _ | .left _
  | .answer _ | .leave _ | .release _ | .ask _ | .own _ => .isTrue trivial

instance (s : Lake) (op : Op) : Decidable ((terms.only Sure).Allows s op) :=
  inferInstanceAs (Decidable (True ∧ _))

/-! ### A lake of thirty-three terms -/

/-- One claimer looks, claims the next term, and wins it. -/
def term (i : Nat) : List Op :=
  [.list i, .read i, .claim i "" "" 1, .put i, .terms i, .mark i, .answer i]

/-- A claimer that looked before term 2 was won loses it, and the leader of 1 asks. -/
def lostTwo : List Op :=
  term 1 ++ [.list 3, .read 3, .claim 3 "" "" 1] ++ term 2 ++ [.put 3, .release 1, .ask 1]

example : (terms.only Sure).Legal .start lostTwo ∧ (terms.run .start lostTwo).answered = [1, 2] ∧
    (terms.run .start lostTwo).checks = [.answered 1 true true] := by
  decide

/-- Claimer 0 saw term 1 the newest, and claims 2 once it is pruned. -/
def prunedAgain : List Op :=
  term 1 ++ [.list 0, .read 0, .claim 0 "" "" 1] ++ ((List.range' 2 31).flatMap term) ++
    [.list 33, .read 33, .claim 33 "" "" 1, .put 33, .terms 33, .mark 33, .alive 33, .left 33] ++
    List.replicate 34 (.delete 33 0) ++ [.answer 33, .put 0, .ask 2, .own 0]

end Pondra.Terms
