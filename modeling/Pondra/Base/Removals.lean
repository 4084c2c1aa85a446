import Mathlib.Algebra.GroupWithZero.Nat
import Mathlib.Data.List.Basic
import Mathlib.Data.List.Nodup

set_option autoImplicit false

namespace Removals

variable {α : Type}

/-- Items taken out of a list by index, one after another: what was taken, and what is left. -/
def removeEach : List Nat → List α → Option (List α × List α)
  | [], xs => some ([], xs)
  | i :: rest, xs =>
    match xs[i]? with
    | none => none
    | some x => (removeEach rest (xs.eraseIdx i)).map fun done => (x :: done.1, done.2)

/-- What stands at places, counted from `k`, that are not among some. -/
def spare (idxs : List Nat) : Nat → List α → List α
  | _, [] => []
  | k, x :: xs => if k ∈ idxs then spare idxs (k + 1) xs else x :: spare idxs (k + 1) xs

/-- What stands at some places. -/
def standing (idxs : List Nat) (xs : List α) : List α := idxs.filterMap (xs[·]?)

theorem spare_congr (idxs others : List Nat) (k : Nat) (xs : List α)
    (same : ∀ i, k ≤ i → (i ∈ idxs ↔ i ∈ others)) : spare idxs k xs = spare others k xs := by
  induction xs generalizing k with
  | nil => rfl
  | cons x xs ih =>
    rw [spare, spare, ih (k + 1) fun i above => same i (by omega)]
    simp only [same k (Nat.le_refl k)]

theorem spare_nil (k : Nat) (xs : List α) : spare [] k xs = xs := by
  induction xs generalizing k with
  | nil => rfl
  | cons x xs ih =>
    rw [spare, if_neg List.not_mem_nil, ih]

/-- Below all that was taken, the places are as they were. -/
theorem spare_below (idxs : List Nat) (k i : Nat) (xs : List α) (below : ∀ j ∈ idxs, k + i < j) :
    (spare idxs k xs)[i]? = xs[i]? ∧
      (spare idxs k xs).eraseIdx i = spare ((k + i) :: idxs) k xs := by
  induction xs generalizing k i with
  | nil => exact ⟨rfl, rfl⟩
  | cons x xs ih =>
    have out : k ∉ idxs := by
      intro inside
      have far := below k inside
      omega
    rw [spare, if_neg out, spare]
    cases i with
    | zero =>
      refine ⟨rfl, ?_⟩
      rw [if_pos (by simp), List.eraseIdx_cons_zero]
      refine spare_congr _ _ _ _ fun i above => ?_
      have differs : i ≠ k + 0 := by omega
      rw [List.mem_cons]
      exact ⟨.inr, fun inside => inside.resolve_left differs⟩
    | succ i =>
      have place : k + (i + 1) = k + 1 + i := by omega
      obtain ⟨found, left⟩ := ih (k + 1) i fun j inside => place ▸ below j inside
      have apart : ¬ k ∈ (k + (i + 1)) :: idxs := by
        intro inside
        rcases List.mem_cons.mp inside with same | inside
        · omega
        · exact out inside
      rw [if_neg apart]
      refine ⟨found, ?_⟩
      rw [List.eraseIdx_cons_succ, left, place]

/-- A place of what is left holds what stood there or further on: further on, above something taken. -/
theorem spare_above (idxs : List Nat) (k i : Nat) (xs : List α) (y : α)
    (found : (spare idxs k xs)[i]? = some y) :
    ∃ m, i ≤ m ∧ xs[m]? = some y ∧ k + m ∉ idxs ∧
      (spare idxs k xs).eraseIdx i = spare ((k + m) :: idxs) k xs ∧
      ((∃ j ∈ idxs, k ≤ j ∧ j ≤ k + i) → i < m) := by
  induction xs generalizing k i with
  | nil => simp [spare] at found
  | cons x xs ih =>
    rw [spare] at found ⊢
    split at found
    · rename_i inside
      obtain ⟨m, after, held, out, left, _⟩ := ih (k + 1) i found
      have place : k + (m + 1) = k + 1 + m := by omega
      refine ⟨m + 1, by omega, held, place ▸ out, ?_, fun _ => by omega⟩
      rw [if_pos inside, left, spare, if_pos (List.mem_cons_of_mem _ inside), place]
    · rename_i out
      rw [if_neg out]
      cases i with
      | zero =>
        refine ⟨0, Nat.le_refl 0, found, out, ?_, ?_⟩
        · rw [List.eraseIdx_cons_zero, spare, if_pos (by simp)]
          refine spare_congr _ _ _ _ fun i above => ?_
          have differs : i ≠ k + 0 := by omega
          rw [List.mem_cons]
          exact ⟨.inr, fun inside => inside.resolve_left differs⟩
        · rintro ⟨j, inside, low, high⟩
          have same : j = k := by omega
          exact absurd (same ▸ inside) out
      | succ i =>
        obtain ⟨m, after, held, out', left, beyond⟩ := ih (k + 1) i found
        have place : k + (m + 1) = k + 1 + m := by omega
        refine ⟨m + 1, by omega, held, place ▸ out', ?_, ?_⟩
        · have apart : ¬ k ∈ (k + (m + 1)) :: idxs := by
            intro inside
            rcases List.mem_cons.mp inside with same | inside
            · omega
            · exact out inside
          rw [List.eraseIdx_cons_succ, left, spare, if_neg apart, place]
        · rintro ⟨j, inside, low, high⟩
          have differs : j ≠ k := fun same => out (same ▸ inside)
          have further := beyond ⟨j, inside, by omega, by omega⟩
          omega

theorem removeEach_spare (xs : List α) (nodup : xs.Nodup) (idxs done : List Nat)
    (within : ∀ i ∈ idxs, i < xs.length) (apart : ∀ i ∈ idxs, i ∉ done) (distinct : idxs.Nodup) :
    removeEach idxs (spare done 0 xs) = some (standing idxs xs, spare (idxs ++ done) 0 xs) ↔
      idxs.Pairwise (· > ·) ∧ ∀ i ∈ idxs, ∀ j ∈ done, i < j := by
  induction idxs generalizing done with
  | nil => simp [removeEach, standing]
  | cons i rest ih =>
    obtain ⟨x, at'⟩ : ∃ x, xs[i]? = some x :=
      ⟨_, List.getElem?_eq_getElem (within i List.mem_cons_self)⟩
    have taken : standing (i :: rest) xs = x :: standing rest xs := List.filterMap_cons_some at'
    rw [List.nodup_cons] at distinct
    by_cases below : ∀ j ∈ done, i < j
    · obtain ⟨found, left⟩ := spare_below done 0 i xs (by simpa using below)
      rw [Nat.zero_add] at left
      have rested := ih (i :: done) (fun j inside => within j (List.mem_cons_of_mem _ inside))
        (fun j inside => by
          rw [List.mem_cons, not_or]
          exact ⟨fun same => distinct.1 (same ▸ inside), apart j (List.mem_cons_of_mem _ inside)⟩)
        distinct.2
      have moved : spare (rest ++ i :: done) 0 xs = spare (i :: rest ++ done) 0 xs :=
        spare_congr _ _ _ _ fun j _ => by simp [or_left_comm]
      rw [removeEach, found, at', taken, ← moved]
      show (removeEach rest ((spare done 0 xs).eraseIdx i)).map _ = _ ↔ _
      rw [left, Option.map_eq_some_iff]
      constructor
      · rintro ⟨⟨got, kept⟩, done', same⟩
        obtain ⟨gots, kepts⟩ := Prod.mk.inj same
        have gots : got = standing rest xs := (List.cons.inj gots).2
        have kepts : kept = spare (rest ++ i :: done) 0 xs := kepts
        rw [gots, kepts] at done'
        obtain ⟨falls, under⟩ := rested.mp done'
        refine ⟨List.pairwise_cons.mpr ⟨fun j inside => under j inside i List.mem_cons_self, falls⟩, ?_⟩
        intro j inside k held
        rcases List.mem_cons.mp inside with rfl | inside
        · exact below k held
        · exact under j inside k (List.mem_cons_of_mem _ held)
      · rintro ⟨falls, under⟩
        obtain ⟨first, falls⟩ := List.pairwise_cons.mp falls
        refine ⟨_, rested.mpr ⟨falls, ?_⟩, rfl⟩
        intro j inside k held
        rcases List.mem_cons.mp held with rfl | held
        · exact first j inside
        · exact under j (List.mem_cons_of_mem _ inside) k held
    · constructor
      · intro right
        exfalso
        obtain ⟨j, held, beyond⟩ : ∃ j ∈ done, ¬ i < j := by
          by_contra none
          exact below fun j held => by
            by_contra beyond
            exact none ⟨j, held, beyond⟩
        rw [removeEach, taken] at right
        cases found : (spare done 0 xs)[i]? with
        | none =>
          rw [found] at right
          cases right
        | some y =>
          rw [found] at right
          obtain ⟨⟨got, kept⟩, _, same⟩ := Option.map_eq_some_iff.mp right
          have hit : y = x := (List.cons.inj (Prod.mk.inj same).1).1
          obtain ⟨m, _, later, _, _, beyond⟩ := spare_above done 0 i xs y found
          have further := beyond ⟨j, held, Nat.zero_le j, by omega⟩
          have same := (List.getElem?_inj (within i List.mem_cons_self) nodup).mp
            (at'.trans (hit ▸ later.symm))
          omega
      · rintro ⟨_, under⟩
        exact absurd (under i List.mem_cons_self) below

/-- Taking items out by index takes what stood there, and leaves the rest in order, exactly when the
indices fall. -/
theorem removeEach_iff (xs : List α) (nodup : xs.Nodup) (idxs : List Nat)
    (within : ∀ i ∈ idxs, i < xs.length) (distinct : idxs.Nodup) :
    removeEach idxs xs = some (standing idxs xs, spare idxs 0 xs) ↔ idxs.Pairwise (· > ·) := by
  have whole := removeEach_spare xs nodup idxs [] within (by simp) distinct
  rw [spare_nil, List.append_nil] at whole
  rw [whole]
  simp

/-- What is taken out stood where it was asked for or further on. -/
theorem removeEach_places (xs : List α) (idxs done : List Nat) (got left : List α)
    (removed : removeEach idxs (spare done 0 xs) = some (got, left)) :
    ∃ places, List.Forall₂ (· ≤ ·) idxs places ∧ places.Nodup ∧ (∀ m ∈ places, m ∉ done) ∧
      (∀ m ∈ places, m < xs.length) ∧ got = standing places xs ∧
      left = spare (places ++ done) 0 xs := by
  induction idxs generalizing done got left with
  | nil =>
    obtain ⟨rfl, rfl⟩ := Prod.mk.inj (Option.some.inj removed)
    exact ⟨[], .nil, List.nodup_nil, by simp, by simp, rfl, rfl⟩
  | cons i rest ih =>
    rw [removeEach] at removed
    cases found : (spare done 0 xs)[i]? with
    | none =>
      rw [found] at removed
      cases removed
    | some y =>
      rw [found] at removed
      obtain ⟨⟨gots, kept⟩, later, same⟩ := Option.map_eq_some_iff.mp removed
      obtain ⟨rfl, rfl⟩ := Prod.mk.inj same
      obtain ⟨m, after, held, out, erased, _⟩ := spare_above done 0 i xs y found
      rw [Nat.zero_add] at out erased
      rw [erased] at later
      obtain ⟨places, above, nodup, apart, within, taken, kept'⟩ := ih _ _ _ later
      refine ⟨m :: places, .cons after above, List.nodup_cons.mpr ⟨?_, nodup⟩, ?_, ?_, ?_, ?_⟩
      · intro inside
        exact apart m inside List.mem_cons_self
      · intro n inside
        rcases List.mem_cons.mp inside with rfl | inside
        · exact out
        · exact fun held => apart n inside (List.mem_cons_of_mem _ held)
      · intro n inside
        rcases List.mem_cons.mp inside with rfl | inside
        · exact (List.getElem?_eq_some_iff.mp held).1
        · exact within n inside
      · rw [taken]
        exact (List.filterMap_cons_some held).symm
      · rw [kept']
        exact spare_congr _ _ _ _ fun j _ => by simp [or_left_comm]

theorem mem_spare (idxs : List Nat) (k : Nat) (xs : List α) (x : α) :
    x ∈ spare idxs k xs ↔ ∃ m, xs[m]? = some x ∧ k + m ∉ idxs := by
  induction xs generalizing k with
  | nil => simp [spare]
  | cons y ys ih =>
    rw [spare]
    constructor
    · intro inside
      split at inside
      · obtain ⟨m, held, out⟩ := (ih (k + 1)).mp inside
        exact ⟨m + 1, held, by rwa [show k + (m + 1) = k + 1 + m by omega]⟩
      · rename_i free
        rcases List.mem_cons.mp inside with rfl | inside
        · exact ⟨0, rfl, free⟩
        · obtain ⟨m, held, out⟩ := (ih (k + 1)).mp inside
          exact ⟨m + 1, held, by rwa [show k + (m + 1) = k + 1 + m by omega]⟩
    · rintro ⟨m, held, out⟩
      cases m with
      | zero =>
        rw [Nat.add_zero] at out
        rw [if_neg out]
        exact List.mem_cons.mpr (.inl (Option.some.inj held).symm)
      | succ m =>
        have inside := (ih (k + 1)).mpr ⟨m, held, by rwa [show k + 1 + m = k + (m + 1) by omega]⟩
        split
        · exact inside
        · exact List.mem_cons_of_mem _ inside

theorem forall₂_sum (lows highs : List Nat) (under : List.Forall₂ (· ≤ ·) lows highs) :
    lows.sum ≤ highs.sum ∧ (lows.sum = highs.sum → lows = highs) := by
  induction under with
  | nil => exact ⟨Nat.le_refl _, fun _ => rfl⟩
  | cons less _ ih =>
    rw [List.sum_cons, List.sum_cons]
    refine ⟨by omega, fun same => ?_⟩
    have head : _ = _ := Nat.le_antisymm less (by omega)
    rw [head, ih.2 (by omega)]

/-- What is left is what stood at the other places only when the indices fall: each item taken stood
where it was asked for or further on, so none further on was taken. -/
theorem removeEach_left (xs : List α) (nodup : xs.Nodup) (idxs : List Nat)
    (within : ∀ i ∈ idxs, i < xs.length) (distinct : idxs.Nodup) (got : List α)
    (removed : removeEach idxs xs = some (got, spare idxs 0 xs)) : idxs.Pairwise (· > ·) := by
  obtain ⟨places, above, alone, _, inside, taken, left⟩ := removeEach_places xs idxs [] _ _
    ((congrArg (removeEach idxs) (spare_nil 0 xs)).trans removed)
  rw [List.append_nil] at left
  have same : ∀ m, m ∈ places ↔ m ∈ idxs := by
    intro m
    by_cases short : m < xs.length
    · have held := List.getElem?_eq_getElem short
      have only (list : List Nat) : xs[m] ∈ spare list 0 xs ↔ m ∉ list := by
        rw [mem_spare]
        constructor
        · rintro ⟨n, found, out⟩
          have same := (List.getElem?_inj short nodup).mp (held.trans found.symm)
          rw [Nat.zero_add, ← same] at out
          exact out
        · intro out
          exact ⟨m, held, by rwa [Nat.zero_add]⟩
      have both : m ∉ idxs ↔ m ∉ places := by
        rw [← only idxs, left, only places]
      exact (not_iff_not.mp both).symm
    · exact ⟨fun held => absurd (inside m held) short, fun held => absurd (within m held) short⟩
  have perm := (List.perm_ext_iff_of_nodup alone distinct).mpr same
  have equal := (forall₂_sum idxs places above).2 perm.sum_nat.symm
  rw [← equal] at taken
  exact (removeEach_iff xs nodup idxs within distinct).mp (by rw [removed, taken])

theorem spare_eq (idxs : List Nat) (k : Nat) (xs : List α) :
    spare idxs k xs = ((xs.zipIdx k).filter fun x => decide (x.2 ∉ idxs)).map Prod.fst := by
  induction xs generalizing k with
  | nil => rfl
  | cons x xs ih =>
    rw [spare, ih, List.zipIdx_cons]
    split
    · rename_i inside
      rw [List.filter_cons_of_neg (by simpa using inside)]
    · rename_i out
      rw [List.filter_cons_of_pos (by simpa using out)]
      rfl

/-- Labels at rising places, met in the order of the list they are places of. -/
theorem filterMap_lookup {β γ : Type} (f : α → β → γ) (xs : List α) (k : Nat)
    (labels : List (Nat × β)) (rises : (labels.map Prod.fst).Pairwise (· < ·))
    (within : ∀ i ∈ labels.map Prod.fst, k ≤ i ∧ i < k + xs.length) :
    ((xs.zipIdx k).filterMap fun x => (labels.lookup x.2).map (f x.1)) =
      labels.filterMap fun label => xs[label.1 - k]?.map fun x => f x label.2 := by
  induction xs generalizing k labels with
  | nil =>
    cases labels with
    | nil => rfl
    | cons label rest =>
      have bounds := within label.1 (by simp)
      simp at bounds
      omega
  | cons x xs ih =>
    have later (others : List (Nat × β)) (above : ∀ i ∈ others.map Prod.fst, k < i) :
        (others.filterMap fun label => (x :: xs)[label.1 - k]?.map fun y => f y label.2) =
          others.filterMap fun label => xs[label.1 - (k + 1)]?.map fun y => f y label.2 := by
      refine List.filterMap_congr fun label inside => ?_
      have far := above label.1 (List.mem_map_of_mem inside)
      rw [show label.1 - k = label.1 - (k + 1) + 1 by omega, List.getElem?_cons_succ]
    have beyond (others : List (Nat × β)) (above : ∀ i ∈ others.map Prod.fst, k < i)
        (inside : ∀ i ∈ others.map Prod.fst, i < k + (x :: xs).length) :
        ∀ i ∈ others.map Prod.fst, k + 1 ≤ i ∧ i < k + 1 + xs.length := by
      intro i held
      have low := above i held
      have high := inside i held
      rw [List.length_cons] at high
      omega
    rw [List.zipIdx_cons]
    by_cases first : k ∈ labels.map Prod.fst
    · cases labels with
      | nil => exact absurd first List.not_mem_nil
      | cons label rest =>
        obtain ⟨i, told⟩ := label
        rw [List.map_cons, List.pairwise_cons] at rises
        have same : i = k := by
          rcases List.mem_cons.mp first with hit | hit
          · exact hit.symm
          · have low := rises.1 k hit
            have high := (within i (by simp)).1
            omega
        subst same
        rw [List.filterMap_cons_some (b := f x told) (by simp),
          List.filterMap_cons_some (b := f x told) (by simp)]
        congr 1
        rw [later rest rises.1, ← ih (i + 1) rest rises.2 (beyond rest rises.1 fun j held =>
          (within j (List.mem_cons_of_mem _ held)).2)]
        refine List.filterMap_congr fun y inside => ?_
        have place := (List.mem_zipIdx inside).1
        rw [List.lookup_cons, beq_false_of_ne (by omega)]
    · have above : ∀ i ∈ labels.map Prod.fst, k < i := by
        intro i held
        have low := (within i held).1
        have differs : i ≠ k := fun same => first (same ▸ held)
        omega
      have absent : labels.lookup k = none := by
        rw [List.lookup_eq_none_iff]
        intro label inside
        have differs : k ≠ label.1 := fun same => first (same ▸ List.mem_map_of_mem inside)
        simpa using differs
      rw [List.filterMap_cons_none (by rw [absent]; rfl), later labels above,
        ih (k + 1) labels rises (beyond labels above fun i held => (within i held).2)]

end Removals
