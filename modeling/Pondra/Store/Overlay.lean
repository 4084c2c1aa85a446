import Mathlib.Data.List.Induction
import Mathlib.Data.String.Basic
import Pondra.Store.Follower

set_option autoImplicit false

namespace Pondra.Store

open Replica (Delta)
open Layers

/-- Every key but inline data is in one of the two ranges that `seed` scans. -/
theorem whole_of_listed {key : String} (listed : inline key = false) :
    Follower.whole key = true := by
  by_contra outside
  simp only [Follower.whole, Bool.not_eq_true, Bool.or_eq_false_iff, decide_eq_false_iff_not,
    not_lt, not_le] at outside
  obtain ⟨above, below⟩ := outside
  have above : ¬ key.toList < ['d', '/'] := fun less => absurd (String.lt_iff.mpr less)
    (not_lt.mpr above)
  have below : key.toList < ['d', '0'] := String.lt_iff.mp below
  have notPrefix : ¬ ['d', '/'] <+: key.toList := by
    intro isPrefix
    rw [inline, ← Bool.not_eq_true] at listed
    exact listed (List.isPrefixOf_iff_prefix.mpr isPrefix)
  match content : key.toList with
  | [] =>
    rw [content] at above
    exact above (by decide)
  | [first] =>
    rw [content] at above below
    simp only [List.cons_lt_cons_iff, List.nil_lt_cons, and_true] at above below
    exact above below
  | first :: second :: rest =>
    rw [content] at above below notPrefix
    simp only [List.cons_lt_cons_iff, List.not_lt_nil, and_false, or_false] at above below
    rcases below with less | ⟨rfl, less⟩
    · exact above (.inl less)
    · have slash : second = '/' := by
        have notLess : ¬ second < '/' := fun less => above (.inr ⟨rfl, less⟩)
        apply Char.ext
        apply UInt32.toNat_inj.mp
        have low : ¬ second.val.toNat < 47 := fun small => notLess small
        have high : second.val.toNat < 48 := less
        show second.val.toNat = 47
        omega
      rw [slash] at notPrefix
      exact notPrefix ⟨rest, rfl⟩

section lay

theorem foldl_puts (id : Nat) (puts : List (String × Value)) (overlay : Overlay String Value)
    (k : String) :
    puts.foldl (fun (overlay : Overlay String Value) put =>
      Function.update overlay put.1 (some (id, some put.2))) overlay k =
      match lastPut puts k with
      | some value => some (id, some value)
      | none => overlay k := by
  induction puts using List.reverseRecOn with
  | nil => rfl
  | append_singleton puts put ih =>
    rw [List.foldl_append, lastPut, List.foldl_append]
    simp only [List.foldl_cons, List.foldl_nil]
    by_cases same : k = put.1
    · rw [if_pos same.symm, same, Function.update_self]
    · rw [if_neg (fun equal => same equal.symm), Function.update_of_ne same, ih]
      rfl

theorem foldl_deletes (gone : Option (Nat × Option Value)) (deletes : List String)
    (overlay : Overlay String Value) (k : String) :
    deletes.foldl (fun (overlay : Overlay String Value) k => Function.update overlay k gone)
      overlay k = if k ∈ deletes then gone else overlay k := by
  induction deletes using List.reverseRecOn with
  | nil => rfl
  | append_singleton deletes key ih =>
    rw [List.foldl_append]
    simp only [List.foldl_cons, List.foldl_nil, List.mem_append, List.mem_singleton]
    by_cases same : k = key
    · rw [if_pos (.inr same), same, Function.update_self]
    · rw [Function.update_of_ne same, ih]
      simp only [same, or_false]

/-- What a change lays over a key. -/
theorem lay_apply (cat : Catalog) (d : Delta) (k : String) :
    cat.lay d k =
      match effect d k with
      | some (some value) => some (d.id, some value)
      | some none => if cat.mirror then none else some (d.id, none)
      | none => cat.overlay k := by
  rw [Catalog.lay, foldl_deletes, foldl_puts, effect]
  by_cases deleted : k ∈ d.deletes
  · rw [if_pos deleted, if_pos deleted]
  · rw [if_neg deleted, if_neg deleted]
    cases lastPut d.puts k <;> rfl

theorem lay_extend {cat : Catalog} (view : cat.mirror = false) (d : Delta) :
    cat.lay d = cat.overlay.extend d.id (effect d) := by
  funext k
  rw [lay_apply, Overlay.extend, view]
  cases effect d k with
  | none => rfl
  | some value => cases value <;> rfl

theorem inMemory_lay {cat : Catalog} (mirror : cat.mirror = true) (d : Delta) (k : String) :
    (cat.lay d k).bind (·.2) =
      match effect d k with
      | some value => value
      | none => cat.inMemory k := by
  rw [lay_apply, mirror]
  cases effect d k with
  | none => rfl
  | some value => cases value <;> rfl

end lay

/-- The keys that reads are right about: all but inline data. -/
def Listed (key : String) : Prop := inline key = false

/-- The streamed changes may be laid over a view that was at commit `b` when the read began. -/
def Floor (h : History) (cat : Catalog) (b : Nat) : Prop :=
  cat.mirror = false → cat.hold ≤ b → Covers h.versions Listed cat.overlay b cat.streamed

/-- What holds of the catalog between steps, with the view of the bucket at commit `bucket`. -/
structure Sound (h : History) (cat : Catalog) (bucket : Nat) : Prop where
  marks : cat.view.1 ≤ bucket
  pinned : ∀ pin ∈ cat.pins, pin.2 ≤ cat.view.1
  mirrored : cat.mirror = true → ∀ k, Listed k → cat.inMemory k = h.asOf cat.streamed k
  fresh : cat.mirror = false → Fresh h.versions Listed cat.overlay cat.streamed
  ahead : ∀ b, bucket ≤ b → Floor h cat b

/-- The change fills no gap that the view's marks hide, or nothing older is kept for what is missing. -/
def Catalog.Hides (cat : Catalog) (id : Nat) : Prop :=
  cat.mirror = false ∧ cat.pruned < id ∧ cat.streamed + 1 < id ∧ id ≤ cat.view.1 + 1

section apply

variable {h : History} {cat : Catalog} {bucket id : Nat}

/-- What `apply` does with a change. -/
inductive Applied (cat : Catalog) (d : Delta) : Catalog → Prop where
  | pruned (old : d.id ≤ cat.pruned) : Applied cat d cat
  | gap (new : cat.pruned < d.id) (far : cat.streamed + 1 < d.id)
    (missing : cat.mirror = false → cat.view.1 + 1 < d.id) (lastN : Nat)
    (grows : cat.lastN ≤ lastN) :
    Applied cat d { cat with
      overlay := Overlay.extend (fun _ => none) d.id (effect d), mirror := false
      hold := max cat.hold (d.id - 1), lastN := lastN, streamed := max cat.streamed d.id }
  | next (new : cat.pruned < d.id) (lastN : Nat) (grows : cat.lastN ≤ lastN)
    (near : cat.mirror = true → d.id ≤ cat.streamed + 1)
    (hidden : cat.mirror = false → d.id ≤ cat.streamed + 1 ∨ cat.Hides d.id) :
    Applied cat d { cat with
      lastN := lastN, overlay := cat.lay d, streamed := max cat.streamed d.id }

theorem lastN_le (n : Nat) (found : Option (String × Value)) :
    n ≤ match found with
      | some put => max n ((fromJson put.2).getD 1)
      | none => n := by
  cases found with
  | none => exact Nat.le_refl n
  | some put => exact Nat.le_max_left n _

theorem apply_cases (cat : Catalog) (d : Delta) : Applied cat d (cat.apply d) := by
  unfold Catalog.apply
  split
  · rename_i old
    exact .pruned old
  · rename_i newer
    have new : cat.pruned < d.id := by omega
    have grows := lastN_le cat.lastN (d.puts.find? (·.1 = "n"))
    simp only
    by_cases far : (if cat.mirror then cat.streamed else max cat.streamed cat.view.1) + 1 < d.id
    · have emptied : cat.gap d.id = { cat with
          overlay := fun _ => none, mirror := false, hold := max cat.hold (d.id - 1) } := by
        rw [Catalog.gap]
        simp only [if_pos far]
      rw [emptied, lay_extend rfl]
      refine Applied.gap new ?_ ?_ _ grows
      · split at far <;> omega
      · intro view
        rw [view] at far
        simp only [Bool.false_eq_true, if_false] at far
        omega
    · have same : cat.gap d.id = cat := by
        rw [Catalog.gap]
        simp only [if_neg far]
      rw [same]
      refine Applied.next new _ grows ?_ ?_
      · intro mirror
        rw [mirror] at far
        simp only [if_true] at far
        omega
      · intro view
        rw [view] at far
        simp only [Bool.false_eq_true, if_false] at far
        by_cases next : d.id ≤ cat.streamed + 1
        · exact .inl next
        · exact .inr ⟨view, new, by omega, by omega⟩

theorem apply_sound (sound : Sound h cat bucket) (positive : 1 ≤ id)
    (increasing : id ≤ cat.pruned ∨ cat.streamed ≤ id)
    (older : cat.Hides id → ∀ k change, Listed k → cat.overlay k = some change →
      h.versions.Still cat.streamed (id - 1) k) :
    Sound h (cat.apply (h.change id)) bucket := by
  have ends := apply_cases cat (h.change id)
  have makes := h.makes positive
  generalize cat.apply (h.change id) = after at ends
  cases ends with
  | pruned old => exact sound
  | gap new far missing lastN grows =>
    rw [h.numbered] at new far missing ⊢
    have last : max cat.streamed id = id := by omega
    refine ⟨sound.marks, sound.pinned, ?_, ?_, ?_⟩
    · intro mirror
      cases mirror
    · intro _
      show Fresh h.versions Listed _ (max cat.streamed id)
      rw [last]
      apply (fresh_empty (id - 1)).extend makes (by omega)
      intro k change _ found
      cases found
    · intro b _ _ held
      show Covers h.versions Listed _ b (max cat.streamed id)
      rw [last]
      have passed : id - 1 ≤ b := by
        simp only at held
        omega
      exact (covers_empty passed).extend makes (.inr (by omega))
  | next new lastN grows near hidden =>
    rw [h.numbered] at new near hidden ⊢
    have last : max cat.streamed id = id := by
      rcases increasing with old | grows
      · omega
      · omega
    refine ⟨sound.marks, sound.pinned, ?_, ?_, ?_⟩
    · intro (mirror : cat.mirror = true) k listed
      show (cat.lay (h.change id) k).bind (·.2) = h.asOf (max cat.streamed id) k
      rw [inMemory_lay mirror, last]
      cases made : effect (h.change id) k with
      | some value => exact (makes k).2 value made
      | none =>
        have near := near mirror
        have still : h.versions.Still cat.streamed id k := by
          intro i above below touches
          obtain rfl : i = id := by omega
          have touched := (makes k).1.mp touches
          rw [made] at touched
          cases touched
        rw [sound.mirrored mirror k listed]
        exact h.versions.same (by omega) still
    · intro (view : cat.mirror = false)
      show Fresh h.versions Listed (cat.lay (h.change id)) (max cat.streamed id)
      rw [last, lay_extend view, h.numbered]
      apply (sound.fresh view).extend makes (by omega)
      intro k change listed found
      rcases hidden view with next | hides
      · intro i above below
        omega
      · exact older hides k change listed found
    · intro b above (view : cat.mirror = false) held
      show Covers h.versions Listed (cat.lay (h.change id)) b (max cat.streamed id)
      rw [last, lay_extend view, h.numbered]
      apply (sound.ahead b above view held).extend makes
      have := sound.marks
      rcases hidden view with next | ⟨_, _, _, marked⟩
      · exact .inr next
      · exact .inl (by omega)

theorem apply_floor {b : Nat} (floor : Floor h cat b) (positive : 1 ≤ id)
    (increasing : id ≤ cat.pruned ∨ cat.streamed ≤ id)
    (begun : cat.Hides id → cat.hold ≤ b → id ≤ b + 1) :
    Floor h (cat.apply (h.change id)) b := by
  have ends := apply_cases cat (h.change id)
  have makes := h.makes positive
  generalize cat.apply (h.change id) = after at ends
  cases ends with
  | pruned old => exact floor
  | gap new far missing lastN grows =>
    rw [h.numbered] at new far missing ⊢
    intro _ held
    have last : max cat.streamed id = id := by omega
    show Covers h.versions Listed _ b (max cat.streamed id)
    rw [last]
    have passed : id - 1 ≤ b := by
      simp only at held
      omega
    exact (covers_empty passed).extend makes (.inr (by omega))
  | next new lastN grows near hidden =>
    rw [h.numbered] at new near hidden ⊢
    intro (view : cat.mirror = false) held
    have last : max cat.streamed id = id := by
      rcases increasing with old | grows
      · omega
      · omega
    show Covers h.versions Listed (cat.lay (h.change id)) b (max cat.streamed id)
    rw [last, lay_extend view, h.numbered]
    apply (floor view held).extend makes
    rcases hidden view with next | hides
    · exact .inr next
    · exact .inl (begun hides held)

end apply

/-- What a step of call `t` that changes the catalog leaves to the other calls. -/
structure Frame (h : History) (t : Nat) (cat cat' : Catalog) : Prop where
  view : cat.view.1 ≤ cat'.view.1
  pins : ∀ pin ∈ cat.pins, pin.1 ≠ t → pin ∈ cat'.pins
  new : ∀ pin ∈ cat'.pins, pin ∈ cat.pins ∨ cat.view.1 ≤ pin.2
  floor : ∀ b, (∃ pin ∈ cat.pins, pin.2 ≤ b) → Floor h cat b → Floor h cat' b

section steps

variable {h : History} {cat : Catalog} {bucket t : Nat}

theorem Frame.refl : Frame h t cat cat :=
  ⟨Nat.le_refl _, fun _ inside _ => inside, fun _ inside => .inl inside, fun _ _ floor => floor⟩

theorem Sound.move {bucket' : Nat} (sound : Sound h cat bucket) (forward : bucket ≤ bucket') :
    Sound h cat bucket' :=
  ⟨Nat.le_trans sound.marks forward, sound.pinned, sound.mirrored, sound.fresh,
    fun b above => sound.ahead b (Nat.le_trans forward above)⟩

theorem Sound.mark {n c : Nat} (sound : Sound h cat bucket) (seen : c ≤ bucket) :
    Sound h (cat.mark n c).1 bucket :=
  ⟨Nat.max_le.mpr ⟨sound.marks, seen⟩,
    fun pin inside => Nat.le_trans (sound.pinned pin inside) (Nat.le_max_left _ _),
    sound.mirrored, sound.fresh, sound.ahead⟩

theorem Frame.mark (n c : Nat) : Frame h t cat (cat.mark n c).1 :=
  ⟨Nat.le_max_left _ _, fun _ inside _ => inside, fun _ inside => .inl inside,
    fun _ _ floor => floor⟩

theorem foldl_min_le (pins : List Nat) (c : Nat) :
    pins.foldl min c ≤ c ∧ ∀ pin ∈ pins, pins.foldl min c ≤ pin := by
  induction pins generalizing c with
  | nil => exact ⟨Nat.le_refl _, by simp⟩
  | cons first rest ih =>
    obtain ⟨below, least⟩ := ih (min c first)
    rw [List.foldl_cons]
    refine ⟨by omega, ?_⟩
    intro pin inside
    rcases List.mem_cons.mp inside with rfl | inside
    · omega
    · exact least pin inside

/-- The oldest commit that a scan in progress holds. -/
theorem mark_upto (cat : Catalog) (n c : Nat) :
    (cat.mark n c).2 ≤ c ∧ ∀ pin ∈ cat.pins, (cat.mark n c).2 ≤ pin.2 := by
  obtain ⟨below, least⟩ := foldl_min_le (cat.pins.map (·.2)) c
  exact ⟨below, fun pin inside => least pin.2 (List.mem_map_of_mem inside)⟩

theorem prune_floor {upto b : Nat} (fresh : cat.mirror = false →
    Fresh h.versions Listed cat.overlay cat.streamed) (older : upto ≤ b) (floor : Floor h cat b) :
    Floor h (cat.prune upto) b := by
  intro view held
  unfold Catalog.prune at view held ⊢
  split at view
  · rename_i mirror
    rw [show cat.mirror = false from view] at mirror
    cases mirror
  · rename_i notMirror
    rw [if_neg notMirror] at held ⊢
    apply Covers.drop (fresh view) (floor view held) older
    intro k change _ found newer
    simp only [found, Option.filter, decide_eq_true newer, if_true, Option.isSome_some]

theorem Sound.prune {upto : Nat} (sound : Sound h cat bucket) (older : upto ≤ bucket) :
    Sound h (cat.prune upto) bucket := by
  have floors : ∀ b, bucket ≤ b → Floor h (cat.prune upto) b :=
    fun b above => prune_floor sound.fresh (by omega) (sound.ahead b above)
  unfold Catalog.prune at floors ⊢
  by_cases mirror : cat.mirror = true
  · rw [if_pos mirror] at floors ⊢
    refine ⟨sound.marks, sound.pinned, ?_, ?_, floors⟩
    · intro _ k listed
      rw [← sound.mirrored mirror k listed]
      simp only [Catalog.inMemory, show inline k = false from listed, Bool.not_false, Bool.or_true]
      cases cat.overlay k <;> rfl
    · intro view
      rw [show cat.mirror = false from view] at mirror
      cases mirror
  · rw [if_neg mirror] at floors ⊢
    refine ⟨sound.marks, sound.pinned, fun on => absurd on mirror, ?_, floors⟩
    intro view
    apply (sound.fresh view).drop
    intro k change _ found
    exact (Option.filter_eq_some_iff.mp found).1

theorem Frame.prune {upto : Nat} (sound : Sound h cat bucket)
    (older : ∀ pin ∈ cat.pins, upto ≤ pin.2) : Frame h t cat (cat.prune upto) := by
  have same : (cat.prune upto).view = cat.view ∧ (cat.prune upto).pins = cat.pins := by
    unfold Catalog.prune
    split
    · exact ⟨rfl, rfl⟩
    · exact ⟨rfl, rfl⟩
  refine ⟨by rw [same.1], ?_, ?_, ?_⟩
  · intro pin inside _
    rwa [same.2]
  · intro pin inside
    rw [same.2] at inside
    exact .inl inside
  · intro b begun floor
    obtain ⟨pin, inside, below⟩ := begun
    exact prune_floor sound.fresh (Nat.le_trans (older pin inside) below) floor

theorem Sound.pin (sound : Sound h cat bucket) : Sound h (cat.pin t) bucket := by
  refine ⟨sound.marks, ?_, sound.mirrored, sound.fresh, sound.ahead⟩
  intro pin inside
  rcases List.mem_cons.mp inside with rfl | inside
  · exact Nat.le_refl _
  · exact sound.pinned pin inside

theorem Frame.pin : Frame h t cat (cat.pin t) := by
  refine ⟨Nat.le_refl _, fun _ inside _ => List.mem_cons_of_mem _ inside, ?_, fun _ _ floor => floor⟩
  intro pin inside
  rcases List.mem_cons.mp inside with rfl | inside
  · exact .inr (Nat.le_refl _)
  · exact .inl inside

theorem Sound.unpin (sound : Sound h cat bucket) : Sound h (cat.unpin t) bucket :=
  ⟨sound.marks, fun pin inside => sound.pinned pin (List.mem_filter.mp inside).1, sound.mirrored,
    sound.fresh, sound.ahead⟩

theorem Frame.unpin : Frame h t cat (cat.unpin t) :=
  ⟨Nat.le_refl _, fun _ inside other => List.mem_filter.mpr ⟨inside, decide_eq_true other⟩,
    fun _ inside => .inl (List.mem_filter.mp inside).1, fun _ _ floor => floor⟩

/-- Each key in `inside` is as a view at some commit from `low` to `high` had it. -/
def Read (h : History) (inside : String → Bool) (all : String → Option Value) (low high : Nat) :
    Prop :=
  ∀ k, ∃ i, low ≤ i ∧ i ≤ high ∧ all k = if inside k then h.asOf i k else none

/-- With the newer streamed changes over it, the snapshot is the catalog as of the last of them. -/
theorem seeded_inMemory {before after : Nat} {all : String → Option Value}
    (fresh : Fresh h.versions Listed cat.overlay cat.streamed) (floor : Floor h cat before)
    (view : cat.mirror = false) (held : cat.hold ≤ before)
    (read : Read h Follower.whole all before after)
    (stood : after = before ∨ after ≤ cat.streamed) {k : String} (listed : Listed k) :
    (cat.seeded before all k).bind (·.2) = h.asOf (max cat.streamed before) k := by
  obtain ⟨i, above, below, value⟩ := read k
  rw [if_pos (whole_of_listed listed)] at value
  unfold Catalog.seeded
  simp only [show inline k = false from listed, Bool.or_false]
  -- where no streamed change newer than the snapshot is kept, the key hasn't changed since
  have snapshot : (∀ change, cat.overlay k = some change → change.1 ≤ before) →
      all k = h.asOf (max cat.streamed before) k := by
    intro old
    rw [value]
    apply h.versions.same
    · omega
    · intro j newer upto touches
      have inStream : j ≤ cat.streamed := by omega
      obtain ⟨change, found⟩ := Option.isSome_iff_exists.mp
        (floor view held k j listed (by omega) inStream touches)
      exact (fresh k change listed found).2.2 j (by have := old change found; omega) inStream
        touches
  cases found : cat.overlay k with
  | none =>
    rw [← snapshot (by simp [found])]
    cases all k <;> rfl
  | some change =>
    by_cases newer : before < change.1
    · have latest : max cat.streamed before = cat.streamed := by
        have := (fresh k change listed found).1
        omega
      rw [latest, ← show change.2 = h.asOf cat.streamed k from fresh.value listed found]
      simp only [Option.filter, decide_eq_true newer, if_true]
      cases kept : change.2 with
      | none => simp [kept]
      | some v => simp [kept]
    · rw [← snapshot (by
        intro other same
        rw [found] at same
        cases same
        omega)]
      simp only [Option.filter, decide_eq_false newer, Bool.false_eq_true, if_false]
      cases all k <;> rfl

theorem seed_cases (cat : Catalog) (before : Nat) (all : String → Option Value) (after n : Nat) :
    cat.seed before all after n = cat ∨
      (cat.mirror = false ∧ cat.hold ≤ before ∧ (after = before ∨ after ≤ cat.streamed) ∧
        cat.seed before all after n = { cat with
          overlay := cat.seeded before all
          pruned := max cat.pruned before
          streamed := max cat.streamed before
          lastN := max cat.lastN n
          mirror := true }) := by
  unfold Catalog.seed
  simp only
  split
  · exact .inl rfl
  · rename_i go
    simp only [Bool.or_eq_true, Bool.and_eq_true, decide_eq_true_eq, Bool.not_eq_true',
      decide_eq_false_iff_not, not_or, not_and, not_not] at go
    refine .inr ⟨by simpa using go.1.2, by omega, ?_, rfl⟩
    by_cases stood : after = before
    · exact .inl stood
    · exact .inr (go.2 stood)

theorem Sound.seed {before after n : Nat} {all : String → Option Value}
    (sound : Sound h cat bucket) (floor : Floor h cat before)
    (read : Read h Follower.whole all before after) :
    Sound h (cat.seed before all after n) bucket := by
  rcases seed_cases cat before all after n with same | ⟨view, held, stood, seeded⟩
  · rw [same]
    exact sound
  · rw [seeded]
    refine ⟨sound.marks, sound.pinned, ?_, ?_, ?_⟩
    · intro _ k listed
      exact seeded_inMemory (sound.fresh view) floor view held read stood listed
    · intro off
      cases off
    · intro b _ off
      cases off

theorem Frame.seed (before : Nat) (all : String → Option Value) (after n : Nat) :
    Frame h t cat (cat.seed before all after n) := by
  rcases seed_cases cat before all after n with same | ⟨_, _, _, seeded⟩
  · rw [same]
    exact .refl
  · rw [seeded]
    refine ⟨Nat.le_refl _, fun _ inside _ => inside, fun _ inside => .inl inside, ?_⟩
    intro b _ _ off
    cases off

end steps

end Pondra.Store
