import Mathlib.Data.List.Find
import Mathlib.Data.List.GetD
import Mathlib.Data.List.Perm.Basic
import Mathlib.Algebra.Group.Nat.Defs
import Pondra.Base.Lending

set_option autoImplicit false

/-! What a view's new run changes: the old rows that are not among the new ones, and the new rows
that are not among the old. -/

namespace Pondra.Rerun

open Lending

variable {V : Type} [DecidableEq V]

/-- A row's cells; NULL is none. -/
abbrev Row (V : Type) := List (Option V)

/-- A row of the view as its table holds it, with its id, its time and its version. -/
structure Held (V : Type) where
  row : Row V
  id : Option Int
  created : Option Int
  version : Option Int
  deriving DecidableEq

/-- A row as a run puts it, with the id and the time of the row it replaces. -/
structure Put (V : Type) where
  row : Row V
  id : Option Int
  created : Option Int
  deriving DecidableEq

/-- An index as Arrow's `take` is given it: `as u32`. -/
def u32 (n : Nat) : Nat := n % 2 ^ 32

/-- The row at an index. -/
def at_ (rows : List (Row V)) (i : Nat) : Row V := rows.getD i []

/-- A row's key: the cells of the key columns, all of them where there is no key column. -/
def keyOf (keys : List Nat) (row : Row V) : Row V :=
  match keys with
  | [] => row
  | _ => keys.map fun k => row.getD k none

/-- The old rows of a key, in order. -/
def byKey (keys : List Nat) (olds : List (Row V)) (key : Row V) : List Nat :=
  (List.range olds.length).filter fun i => keyOf keys (at_ olds i) = key

/-- The new rows whose key has an old row. -/
def matched (keys : List Nat) (olds new : List (Row V)) : List Nat :=
  (List.range new.length).filter fun j => byKey keys olds (keyOf keys (at_ new j)) ≠ []

structure Marks where
  gone : Nat → Bool
  kept : Nat → Bool

/-- A new row that came out the same stays as it is, with an old row of its own. -/
def keep (keys : List Nat) (olds new : List (Row V)) : List Nat → Marks → Marks
  | [], marks => marks
  | j :: rest, marks =>
    match (byKey keys olds (keyOf keys (at_ new j))).find? fun i =>
        marks.gone i && (keys.isEmpty || at_ olds i = at_ new (u32 j)) with
    | some i => keep keys olds new rest
        ⟨Function.update marks.gone i false, Function.update marks.kept j true⟩
    | none => keep keys olds new rest marks

/-- The old row each new row replaces: the first of its key that is gone and not replaced yet. -/
def prior (keys : List Nat) (olds new : List (Row V)) (gone : Nat → Bool) :
    List Nat → (Nat → Bool) → List (Option Nat)
  | [], _ => []
  | j :: rest, replaced =>
    match (byKey keys olds (keyOf keys (at_ new j))).find? fun i => gone i && !replaced i with
    | some i => some i :: prior keys olds new gone rest (Function.update replaced i true)
    | none => none :: prior keys olds new gone rest replaced

/-- A row that is put, of the id and the time taken from the old rows. -/
def putOf (old : List (Held V)) (row : Row V) (i : Option Nat) : Put V :=
  ⟨row, i.bind fun i => (old[u32 i]?).bind Held.id, i.bind fun i => (old[u32 i]?).bind Held.created⟩

/-- `diff`: the old rows taken out, and the new rows put in. -/
def diff (keys : List Nat) (old : List (Held V)) (new : List (Row V)) : List (Held V) × List (Put V) :=
  let olds := old.map Held.row
  let marks := keep keys olds new (matched keys olds new) ⟨fun _ => true, fun _ => false⟩
  let put := (List.range new.length).filter fun j => !marks.kept j
  let from_ := prior keys olds new marks.gone put fun _ => false
  let rows := if put.length = new.length then new else put.map fun j => at_ new (u32 j)
  (((List.range old.length).filter marks.gone).filterMap fun i => old[i]?,
    List.zipWith (putOf old) rows from_)

/-! ### What a diff is -/

/-- Which old row that is taken out each row put in is lent the id and the time of: one of its key,
each at most once, and none only where every one of its key is lent before. -/
structure Lends (keys : List Nat) (gone : List (Held V)) (put : List (Put V))
    (from_ : List (Option Nat)) : Prop where
  length : from_.length = put.length
  once : (from_.filterMap id).Nodup
  carries : ∀ (n : Nat) (p : Put V) (i : Nat), put[n]? = some p → from_[n]? = some (some i) →
    ∃ g : Held V, gone[i]? = some g ∧ keyOf keys g.row = keyOf keys p.row ∧ p.id = g.id ∧ p.created = g.created
  fresh : ∀ (n : Nat) (p : Put V), put[n]? = some p → from_[n]? = some none →
    p.id = none ∧ p.created = none ∧ ∀ (i : Nat) (g : Held V), gone[i]? = some g → keyOf keys g.row = keyOf keys p.row → some i ∈ from_.take n

/-- A part of the old rows taken out and a part of the new ones put in make the new rows of the old,
and nothing is both taken out and put in. -/
structure Exact (keys : List Nat) (old : List (Held V)) (new : List (Row V)) (gone : List (Held V))
    (put : List (Put V)) : Prop where
  out : gone.Sublist old
  into : (put.map Put.row).Sublist new
  sum : (old.map Held.row ++ put.map Put.row).Perm (new ++ gone.map Held.row)
  apart : ∀ g ∈ gone, ∀ p ∈ put, g.row ≠ p.row
  lends : ∃ from_, Lends keys gone put from_

/-- Indexes fit in 32 bits: past row 2^32 a new row has no old row's key, and no new row of so many
is an old one; past row 2^32 an old row has no new row's key. -/
structure Counted (keys : List Nat) (old : List (Held V)) (new : List (Row V)) : Prop where
  past : ∀ (j : Nat) (row : Row V), 2 ^ 32 ≤ j → new[j]? = some row →
    (∀ h ∈ old, keyOf keys h.row ≠ keyOf keys row) ∧ ∀ h ∈ old, h.row ∉ new
  lent : ∀ (i : Nat) (h : Held V), 2 ^ 32 ≤ i → old[i]? = some h → ∀ row ∈ new, keyOf keys h.row ≠ keyOf keys row

/-! ### Rows at indexes -/

omit [DecidableEq V] in
theorem map_at (rows : List (Row V)) : (List.range rows.length).map (at_ rows) = rows := by
  apply List.ext_getElem
  · rw [List.length_map, List.length_range]
  · intro i _ inside
    rw [List.getElem_map, List.getElem_range, at_, List.getD_eq_getElem _ _ inside]

omit [DecidableEq V] in
theorem at_mem {rows : List (Row V)} {i : Nat} (inside : i < rows.length) :
    rows[i]? = some (at_ rows i) := by
  rw [at_, List.getD_eq_getElem _ _ inside, List.getElem?_eq_getElem inside]

theorem u32_low {n : Nat} (low : n < 2 ^ 32) : u32 n = n := Nat.mod_eq_of_lt low

variable (keys : List Nat) (olds new : List (Row V))

theorem mem_byKey (key : Row V) (i : Nat) :
    i ∈ byKey keys olds key ↔ i < olds.length ∧ keyOf keys (at_ olds i) = key := by
  rw [byKey, List.mem_filter, List.mem_range, decide_eq_true_iff]

theorem mem_matched (j : Nat) : j ∈ matched keys olds new ↔
    j < new.length ∧ ∃ i < olds.length, keyOf keys (at_ olds i) = keyOf keys (at_ new j) := by
  rw [matched, List.mem_filter, List.mem_range, decide_eq_true_iff]
  apply and_congr_right
  intro _
  constructor
  · intro some_
    obtain ⟨i, inside⟩ := List.exists_mem_of_ne_nil _ some_
    exact ⟨i, (mem_byKey keys olds _ i).mp inside⟩
  · rintro ⟨i, held⟩
    exact List.ne_nil_of_mem ((mem_byKey keys olds _ i).mpr held)

/-! ### The two passes lend -/

/-- The old rows that are a new row, whole. -/
def sameRows (j : Nat) : List Nat :=
  (byKey keys olds (keyOf keys (at_ new j))).filter fun i => at_ olds i = at_ new j

theorem mem_sameRows (j i : Nat) :
    i ∈ sameRows keys olds new j ↔ i < olds.length ∧ at_ olds i = at_ new j := by
  rw [sameRows, List.mem_filter, mem_byKey, decide_eq_true_iff]
  constructor
  · intro held
    exact ⟨held.1.1, held.2⟩
  · intro held
    exact ⟨⟨held.1, by rw [held.2]⟩, held.2⟩

/-- What the first pass finds; with no key columns the key is the whole row already. -/
theorem found_same (gone : Nat → Bool) (j : Nat) (low : u32 j = j) :
    ((byKey keys olds (keyOf keys (at_ new j))).find? fun i =>
      gone i && (keys.isEmpty || at_ olds i = at_ new (u32 j))) =
      (sameRows keys olds new j).find? gone := by
  rw [low, sameRows, List.find?_filter]
  apply List.find?_congr
  intro i inside
  cases keys with
  | nil =>
    have same : at_ olds i = at_ new j := ((mem_byKey _ _ _ _).mp inside).2
    rw [Bool.eq_iff_iff]
    simp only [same, List.isEmpty_nil, decide_true, Bool.or_true, Bool.and_true, true_and, decide_eq_true_iff]
  | cons k ks =>
    rw [Bool.eq_iff_iff]
    simp only [List.isEmpty_cons, Bool.false_or, Bool.and_eq_true, decide_eq_true_iff, and_comm]

/-- The rows the first pass lends are the marks it leaves. -/
theorem keep_spec (todo : List Nat) (marks : Marks) (low : ∀ j ∈ todo, u32 j = j) :
    (∀ i, (keep keys olds new todo marks).gone i = true ↔
      marks.gone i = true ∧ some i ∉ lend (sameRows keys olds new) marks.gone todo) ∧
    ∀ j, (keep keys olds new todo marks).kept j = true ↔ marks.kept j = true ∨
      ∃ i, (j, some i) ∈ todo.zip (lend (sameRows keys olds new) marks.gone todo) := by
  induction todo generalizing marks with
  | nil =>
    refine ⟨fun i => ⟨fun gone => ⟨gone, List.not_mem_nil⟩, fun both => both.1⟩, fun j => ⟨.inl, ?_⟩⟩
    rintro (kept | ⟨i, inside⟩)
    · exact kept
    · exact absurd inside List.not_mem_nil
  | cons j rest ih =>
    have own := found_same keys olds new marks.gone j (low j List.mem_cons_self)
    have later : ∀ k ∈ rest, u32 k = k := fun k inside => low k (List.mem_cons_of_mem _ inside)
    rw [keep, own, lend]
    cases found : (sameRows keys olds new j).find? marks.gone with
    | none =>
      obtain ⟨gone, kept⟩ := ih marks later
      dsimp only
      refine ⟨fun i => ?_, fun k => ?_⟩
      · rw [gone, List.mem_cons]
        simp only [reduceCtorEq, false_or]
      · rw [kept, List.zip_cons_cons]
        simp only [List.mem_cons, Prod.mk.injEq, reduceCtorEq, and_false, false_or]
    | some i =>
      obtain ⟨gone, kept⟩ := ih ⟨Function.update marks.gone i false, Function.update marks.kept j true⟩ later
      dsimp only at gone kept ⊢
      refine ⟨fun k => ?_, fun k => ?_⟩
      · rw [gone, List.mem_cons, Option.some.injEq]
        by_cases same : k = i
        · rw [same, Function.update_self]
          simp only [Bool.false_eq_true, false_and, true_or, not_true_eq_false, and_false]
        · rw [Function.update_of_ne same]
          simp only [same, false_or]
      · rw [kept, List.zip_cons_cons]
        by_cases same : k = j
        · rw [same, Function.update_self]
          simp only [true_or, List.mem_cons, Prod.mk.injEq, true_and, true_iff]
          exact .inr ⟨i, .inl rfl⟩
        · rw [Function.update_of_ne same]
          simp only [List.mem_cons, Prod.mk.injEq, same, false_and, false_or]

/-- The old rows of a new row's key that are gone. -/
def goneRows (gone : Nat → Bool) (j : Nat) : List Nat :=
  (byKey keys olds (keyOf keys (at_ new j))).filter gone

theorem prior_lend (gone : Nat → Bool) (todo : List Nat) (replaced : Nat → Bool) :
    prior keys olds new gone todo replaced =
      lend (goneRows keys olds new gone) (fun i => !replaced i) todo := by
  induction todo generalizing replaced with
  | nil => rfl
  | cons j rest ih =>
    have same : ((byKey keys olds (keyOf keys (at_ new j))).find? fun i => gone i && !replaced i) =
        (goneRows keys olds new gone j).find? fun i => !replaced i := by
      rw [goneRows, List.find?_filter]
      apply List.find?_congr
      intro i _
      rw [Bool.eq_iff_iff, Bool.and_eq_true, decide_eq_true_iff]
    rw [prior, lend, same]
    cases (goneRows keys olds new gone j).find? fun i => !replaced i with
    | none => exact congrArg (none :: ·) (ih replaced)
    | some i =>
      have free : (fun k => !Function.update replaced i true k) =
          Function.update (fun k => !replaced k) i false := by
        funext k
        by_cases same : k = i
        · rw [same, Function.update_self, Function.update_self, Bool.not_true]
        · rw [Function.update_of_ne same, Function.update_of_ne same]
      dsimp only
      rw [ih, free]

/-! ### The rows that stay -/

section Pairs

variable {α : Type}

/-- Who was lent what, without those that were lent nothing. -/
def pairs (takers : List α) (out : List (Option Nat)) : List (Nat × α) :=
  (takers.zip out).filterMap fun p => p.2.map fun i => (i, p.1)

theorem pairs_fst (takers : List α) (out : List (Option Nat)) (length : out.length = takers.length) :
    (pairs takers out).map Prod.fst = out.filterMap id := by
  induction takers generalizing out with
  | nil =>
    rw [List.length_eq_zero_iff.mp length]
    rfl
  | cons a rest ih =>
    cases out with
    | nil => cases length
    | cons o out =>
      have tail := ih out (Nat.succ.inj length)
      cases o with
      | none => exact tail
      | some i => exact congrArg (i :: ·) tail

theorem pairs_snd (takers : List α) (out : List (Option Nat)) :
    ((pairs takers out).map Prod.snd).Sublist takers := by
  induction takers generalizing out with
  | nil => exact List.Sublist.refl _
  | cons a rest ih =>
    cases out with
    | nil => exact List.nil_sublist _
    | cons o out =>
      cases o with
      | none => exact (ih out).cons a
      | some i => exact (ih out).cons_cons a

theorem mem_pairs (takers : List α) (out : List (Option Nat)) (i : Nat) (a : α) :
    (i, a) ∈ pairs takers out ↔ (a, some i) ∈ takers.zip out := by
  rw [pairs, List.mem_filterMap]
  constructor
  · rintro ⟨⟨b, o⟩, inside, same⟩
    cases o with
    | none => cases same
    | some k =>
      cases same
      exact inside
  · intro inside
    exact ⟨(a, some i), inside, rfl⟩

end Pairs

variable {keys olds new}

/-- The marks the first pass leaves: some old rows stay, each as a new row of its own that is the
same, and of a new row that is put no old row that is the same is gone. -/
structure Stay (keys : List Nat) (olds new : List (Row V)) (marks : Marks) : Prop where
  stays : (((List.range olds.length).filter fun i => !marks.gone i).map (at_ olds)).Perm
    (((List.range new.length).filter marks.kept).map (at_ new))
  apart : ∀ i < olds.length, ∀ j < new.length, marks.gone i = true → marks.kept j = false →
    at_ olds i ≠ at_ new j
  some_ : ∀ j < new.length, marks.kept j = true → ∃ i < olds.length, at_ olds i = at_ new j

theorem keep_stay (low : ∀ j ∈ matched keys olds new, u32 j = j) :
    Stay keys olds new (keep keys olds new (matched keys olds new) ⟨fun _ => true, fun _ => false⟩) := by
  obtain ⟨gone, kept⟩ := keep_spec keys olds new (matched keys olds new)
    ⟨fun _ => true, fun _ => false⟩ low
  have lent := lend_lent (sameRows keys olds new) (fun _ => true) (matched keys olds new)
  generalize keep keys olds new (matched keys olds new) ⟨fun _ => true, fun _ => false⟩ = marks at gone kept
  generalize lend (sameRows keys olds new) (fun _ => true) (matched keys olds new) = out at gone kept lent
  have once : (matched keys olds new).Nodup := List.nodup_range.filter _
  have from_ : ∀ i j, (i, j) ∈ pairs (matched keys olds new) out →
      i < olds.length ∧ at_ olds i = at_ new j := by
    intro i j inside
    rw [mem_pairs] at inside
    obtain ⟨n, held⟩ := List.mem_iff_getElem?.mp inside
    rw [List.getElem?_zip_eq_some] at held
    obtain ⟨a, is, fits⟩ := lent.fits n i held.2
    rw [held.1] at is
    cases is
    exact (mem_sameRows keys olds new j i).mp fits
  have stays : ((List.range olds.length).filter fun i => !marks.gone i).Perm
      ((pairs (matched keys olds new) out).map Prod.fst) := by
    have single : ((pairs (matched keys olds new) out).map Prod.fst).Nodup := by
      rw [pairs_fst _ _ lent.length]
      exact lent.once
    apply (List.perm_ext_iff_of_nodup (List.nodup_range.filter _) single).mpr
    intro i
    rw [List.mem_filter, List.mem_range, Bool.not_eq_true', ← Bool.not_eq_true, gone,
      pairs_fst _ _ lent.length, List.mem_filterMap]
    simp only [true_and, Decidable.not_not, id, exists_eq_right]
    constructor
    · exact fun both => both.2
    · intro inside
      obtain ⟨n, here⟩ := List.mem_iff_getElem?.mp inside
      obtain ⟨a, _, fits⟩ := lent.fits n i here
      exact ⟨((mem_sameRows keys olds new a i).mp fits).1, inside⟩
  have keeps : ((List.range new.length).filter marks.kept).Perm
      ((pairs (matched keys olds new) out).map Prod.snd) := by
    apply (List.perm_ext_iff_of_nodup (List.nodup_range.filter _) ((pairs_snd _ _).nodup once)).mpr
    intro j
    rw [List.mem_filter, List.mem_range, kept, List.mem_map]
    constructor
    · rintro ⟨_, wrong | ⟨i, inside⟩⟩
      · cases wrong
      · exact ⟨(i, j), (mem_pairs _ _ _ _).mpr inside, rfl⟩
    · rintro ⟨⟨i, k⟩, inside, same⟩
      cases same
      rw [mem_pairs] at inside
      exact ⟨((mem_matched keys olds new k).mp (List.of_mem_zip inside).1).1, .inr ⟨i, inside⟩⟩
  constructor
  · apply (stays.map (at_ olds)).trans
    apply List.Perm.trans _ (keeps.map (at_ new)).symm
    rw [List.map_map, List.map_map]
    apply List.Perm.of_eq
    apply List.map_congr_left
    intro p inside
    exact (from_ p.1 p.2 inside).2
  · intro i inside j within isGone notKept same
    have listed : j ∈ matched keys olds new := (mem_matched keys olds new j).mpr
      ⟨within, i, inside, by rw [same]⟩
    obtain ⟨n, here⟩ := List.mem_iff_getElem?.mp listed
    have small : n < out.length := by
      rw [lent.length]
      exact (List.getElem?_eq_some_iff.mp here).1
    cases is : out[n] with
    | some k =>
      have there : (j, some k) ∈ (matched keys olds new).zip out := by
        apply List.mem_iff_getElem?.mpr
        exact ⟨n, List.getElem?_zip_eq_some.mpr ⟨here, by rw [List.getElem?_eq_getElem small, is]⟩⟩
      rw [(kept j).mpr (.inr ⟨k, there⟩)] at notKept
      cases notKept
    | none =>
      have lost := lent.left n j here (by rw [List.getElem?_eq_getElem small, is]) i
        ((mem_sameRows keys olds new j i).mpr ⟨inside, same⟩) rfl
      exact ((gone i).mp isGone).2 (List.mem_of_mem_take lost)
  · intro j _ isKept
    rcases (kept j).mp isKept with wrong | ⟨i, inside⟩
    · cases wrong
    · exact ⟨i, from_ i j ((mem_pairs _ _ _ _).mpr inside)⟩

/-! ### A run's diff -/

section Exact

variable {old : List (Held V)}

omit [DecidableEq V] in
theorem at_held {i : Nat} {h : Held V} (here : old[i]? = some h) : at_ (old.map Held.row) i = h.row := by
  rw [at_, List.getD_eq_getElem?_getD, List.getElem?_map, here]
  rfl

omit [DecidableEq V] in
theorem held_at {i : Nat} (inside : i < (old.map Held.row).length) : ∃ h, old[i]? = some h := by
  rw [List.length_map] at inside
  exact ⟨_, List.getElem?_eq_getElem inside⟩

omit [DecidableEq V] in
theorem taken_getElem? (is : List Nat) (inside : ∀ i ∈ is, i < old.length) (n : Nat) :
    (is.filterMap fun i => old[i]?)[n]? = is[n]?.bind fun i => old[i]? := by
  induction is generalizing n with
  | nil => rfl
  | cons i rest ih =>
    have here := List.getElem?_eq_getElem (inside i List.mem_cons_self)
    rw [List.filterMap_cons_some here]
    cases n with
    | zero => exact here.symm
    | succ n => exact ih (fun k listed => inside k (List.mem_cons_of_mem _ listed)) n

omit [DecidableEq V] in
theorem taken_rows (old : List (Held V)) (is : List Nat) (inside : ∀ i ∈ is, i < old.length) :
    (is.filterMap fun i => old[i]?).map Held.row = is.map (at_ (old.map Held.row)) := by
  induction is with
  | nil => rfl
  | cons i rest ih =>
    have here := List.getElem?_eq_getElem (inside i List.mem_cons_self)
    rw [List.filterMap_cons_some here, List.map_cons, List.map_cons, at_held here,
      ih fun k listed => inside k (List.mem_cons_of_mem _ listed)]

omit [DecidableEq V] in
theorem taken_sublist (gone : Nat → Bool) :
    (((List.range old.length).filter gone).filterMap fun i => old[i]?).Sublist old := by
  have all : (List.range old.length).filterMap (fun i => old[i]?) = old := by
    apply List.ext_getElem?
    intro n
    rw [taken_getElem? _ fun i inside => List.mem_range.mp inside]
    by_cases inside : n < old.length
    · rw [List.getElem?_range inside]
      rfl
    · rw [List.getElem?_eq_none (by rw [List.length_range]; omega), List.getElem?_eq_none (by omega)]
      rfl
  have part := (List.filter_sublist (p := gone) (l := List.range old.length)).filterMap fun i => old[i]?
  rwa [all] at part

omit [DecidableEq V] in
theorem put_rows (old : List (Held V)) (rows : List (Row V)) (from_ : List (Option Nat))
    (length : from_.length = rows.length) : (List.zipWith (putOf old) rows from_).map Put.row = rows := by
  induction rows generalizing from_ with
  | nil => rfl
  | cons row rest ih =>
    cases from_ with
    | nil => cases length
    | cons o from_ => exact congrArg (row :: ·) (ih from_ (Nat.succ.inj length))

theorem Counted.few (olds : old.length ≤ 2 ^ 32) (news : new.length ≤ 2 ^ 32) : Counted keys old new := by
  constructor
  · intro j row past here
    have inside := (List.getElem?_eq_some_iff.mp here).1
    omega
  · intro i h past here
    have inside := (List.getElem?_eq_some_iff.mp here).1
    omega

theorem Counted.matched_low (counted : Counted keys old new) :
    ∀ j ∈ matched keys (old.map Held.row) new, u32 j = j := by
  intro j inside
  obtain ⟨within, i, less, same⟩ := (mem_matched keys (old.map Held.row) new j).mp inside
  by_cases low : j < 2 ^ 32
  · exact u32_low low
  · obtain ⟨h, here⟩ := held_at less
    rw [at_held here] at same
    have apart := (counted.past j _ (by omega) (at_mem within)).1 h (List.mem_of_getElem? here)
    exact absurd same apart

omit [DecidableEq V] in
/-- The rows put are taken by their indexes. -/
theorem Counted.rows (counted : Counted keys old new) {marks : Marks}
    (stay : Stay keys (old.map Held.row) new marks) {put : List Nat}
    (is : put = (List.range new.length).filter fun j => !marks.kept j) :
    (if put.length = new.length then new else put.map fun j => at_ new (u32 j)) = put.map (at_ new) := by
  have part : put.Sublist (List.range new.length) := by
    rw [is]
    exact List.filter_sublist
  by_cases all : put.length = new.length
  · rw [if_pos all, part.eq_of_length (by rw [all, List.length_range]), map_at]
  · rw [if_neg all]
    apply List.map_congr_left
    intro j inside
    have within := List.mem_range.mp (part.subset inside)
    by_cases low : j < 2 ^ 32
    · rw [u32_low low]
    · have apart := (counted.past j _ (by omega) (at_mem within)).2
      have none_ : ∀ k ∈ List.range new.length, (!marks.kept k) = true := by
        intro k listed
        have less := List.mem_range.mp listed
        rw [Bool.not_eq_true', ← Bool.not_eq_true]
        intro kept
        obtain ⟨i, before, same⟩ := stay.some_ k less kept
        obtain ⟨h, here⟩ := held_at before
        rw [at_held here] at same
        exact apart h (List.mem_of_getElem? here) (same ▸ List.mem_of_getElem? (at_mem less))
      rw [List.filter_eq_self.mpr none_] at is
      rw [is, List.length_range] at all
      exact absurd rfl all

omit [DecidableEq V] in
theorem sum_perm {olds : List (Row V)} {marks : Marks} (stay : Stay keys olds new marks) :
    (olds ++ ((List.range new.length).filter fun j => !marks.kept j).map (at_ new)).Perm
      (new ++ ((List.range olds.length).filter marks.gone).map (at_ olds)) := by
  have oldParts := (List.filter_append_perm marks.gone (List.range olds.length)).map (at_ olds)
  have newParts := (List.filter_append_perm marks.kept (List.range new.length)).map (at_ new)
  rw [map_at, List.map_append] at oldParts newParts
  have stays := stay.stays
  generalize ((List.range olds.length).filter marks.gone).map (at_ olds) = gone at oldParts ⊢
  generalize ((List.range new.length).filter fun j => !marks.kept j).map (at_ new) = put at newParts ⊢
  apply (oldParts.symm.append_right put).trans
  apply ((stays.append_left gone).append_right put).trans
  rw [List.append_assoc]
  exact (newParts.append_left gone).trans List.perm_append_comm

theorem mem_goneRows (olds new : List (Row V)) (gone : Nat → Bool) (j i : Nat) :
    i ∈ goneRows keys olds new gone j ↔
      (i < olds.length ∧ keyOf keys (at_ olds i) = keyOf keys (at_ new j)) ∧ gone i = true := by
  rw [goneRows, List.mem_filter, mem_byKey]

/-- What the second pass lends, told by the rows taken out. -/
theorem Counted.lends (counted : Counted keys old new) (gone : Nat → Bool) (put : List Nat)
    (within : ∀ j ∈ put, j < new.length) {from_ : List (Option Nat)}
    (lent : Lent (goneRows keys (old.map Held.row) new gone) (fun _ => true) put from_) :
    Lends keys (((List.range old.length).filter gone).filterMap fun i => old[i]?)
      (List.zipWith (putOf old) (put.map (at_ new)) from_)
      (from_.map (Option.map ((List.range old.length).filter gone).idxOf)) := by
  have length : from_.length = (put.map (at_ new)).length := by rw [lent.length, List.length_map]
  have once : ((List.range old.length).filter gone).Nodup := List.nodup_range.filter _
  have members : ∀ i, i ∈ (List.range old.length).filter gone ↔ i < old.length ∧ gone i = true := by
    intro i
    rw [List.mem_filter, List.mem_range]
  generalize (List.range old.length).filter gone = is at once members ⊢
  have inside : ∀ i ∈ is, i < old.length := fun i listed => ((members i).mp listed).1
  have listed : ∀ j i, i ∈ goneRows keys (old.map Held.row) new gone j → i ∈ is := by
    intro j i fits
    obtain ⟨⟨less, _⟩, isGone⟩ := (mem_goneRows (old.map Held.row) new gone j i).mp fits
    rw [List.length_map] at less
    exact (members i).mpr ⟨less, isGone⟩
  have parts : ∀ (n : Nat) (p : Put V) (o : Option Nat),
      (List.zipWith (putOf old) (put.map (at_ new)) from_)[n]? = some p → from_[n]? = some o →
      ∃ j, put[n]? = some j ∧ p = putOf old (at_ new j) o := by
    intro n p o here there
    obtain ⟨row, o', isRow, isLent, same⟩ := List.getElem?_zipWith_eq_some.mp here
    rw [List.getElem?_map] at isRow
    obtain ⟨j, isPut, rfl⟩ := Option.map_eq_some_iff.mp isRow
    rw [there, Option.some.injEq] at isLent
    exact ⟨j, isPut, by rw [isLent, same]⟩
  constructor
  · rw [List.length_map, List.length_zipWith, length, Nat.min_self]
  · have mapped : (from_.map (Option.map is.idxOf)).filterMap id = (from_.filterMap id).map is.idxOf := by
      rw [List.filterMap_map, List.map_filterMap]
      rfl
    rw [mapped]
    apply List.Nodup.map_on _ lent.once
    intro i here k _ same
    obtain ⟨o, there, isSome⟩ := List.mem_filterMap.mp here
    obtain rfl : o = some i := isSome
    obtain ⟨n, at_n⟩ := List.mem_iff_getElem?.mp there
    obtain ⟨j, _, fits⟩ := lent.fits n i at_n
    exact (List.idxOf_inj (listed j i fits)).mp same
  · intro n p k here there
    rw [List.getElem?_map] at there
    obtain ⟨o, isLent, isSome⟩ := Option.map_eq_some_iff.mp there
    obtain ⟨i, rfl, rfl⟩ := Option.map_eq_some_iff.mp isSome
    obtain ⟨j, isPut, rfl⟩ := parts n p (some i) here isLent
    obtain ⟨j', isPut', fits⟩ := lent.fits n i isLent
    obtain rfl : j = j' := Option.some.inj (isPut.symm.trans isPut')
    obtain ⟨⟨less, same⟩, _⟩ := (mem_goneRows (old.map Held.row) new gone j i).mp fits
    obtain ⟨g, held⟩ := held_at less
    rw [at_held held] at same
    have row := at_mem (within j (List.mem_of_getElem? isPut))
    have low : u32 i = i := by
      apply u32_low
      apply Nat.lt_of_not_le
      intro past
      exact counted.lent i g past held _ (List.mem_of_getElem? row) same
    refine ⟨g, ?_, same, ?_, ?_⟩
    · rw [taken_getElem? is inside, List.getElem?_idxOf (listed j i fits)]
      exact held
    · show (old[u32 i]?).bind Held.id = g.id
      rw [low, held, Option.bind_some]
    · show (old[u32 i]?).bind Held.created = g.created
      rw [low, held, Option.bind_some]
  · intro n p here there
    rw [List.getElem?_map] at there
    obtain ⟨o, isLent, isNone⟩ := Option.map_eq_some_iff.mp there
    rw [Option.map_eq_none_iff] at isNone
    subst isNone
    obtain ⟨j, isPut, rfl⟩ := parts n p none here isLent
    refine ⟨rfl, rfl, ?_⟩
    intro k g held same
    rw [taken_getElem? is inside] at held
    obtain ⟨i, is_, heldAt⟩ := Option.bind_eq_some_iff.mp held
    obtain ⟨less, isGone⟩ := (members i).mp (List.mem_of_getElem? is_)
    have key : keyOf keys (at_ (old.map Held.row) i) = keyOf keys (at_ new j) := by
      rw [at_held heldAt]
      exact same
    have lost := lent.left n j isPut isLent i ((mem_goneRows (old.map Held.row) new gone j i).mpr
      ⟨⟨by rw [List.length_map]; exact less, key⟩, isGone⟩) rfl
    obtain ⟨short, at_k⟩ := List.getElem?_eq_some_iff.mp is_
    have place : is.idxOf i = k := by
      rw [← at_k]
      exact once.idxOf_getElem k short
    rw [← List.map_take, ← place]
    exact List.mem_map.mpr ⟨some i, lost, rfl⟩

end Exact

/-! ### Six rows held, and a run of seven -/

def sixHeld : List (Held Nat) :=
  [⟨[some 1, some 0], some 10, some 100, some 1⟩, ⟨[some 2, some 0], some 20, some 200, some 1⟩,
    ⟨[some 3, some 0], some 30, some 300, some 1⟩, ⟨[some 5, some 0], some 50, some 500, some 1⟩,
    ⟨[some 5, some 1], some 51, some 510, some 1⟩, ⟨[none, some 0], some 60, some 600, some 1⟩]

def sevenRows : List (Row Nat) :=
  [[some 4, some 0], [some 1, some 0], [some 2, some 9], [some 5, some 1], [some 5, some 8],
    [some 5, some 8], [none, some 7]]

example : (diff [0] sixHeld sevenRows).2 =
    [⟨[some 4, some 0], none, none⟩, ⟨[some 2, some 9], some 20, some 200⟩,
      ⟨[some 5, some 8], some 50, some 500⟩, ⟨[some 5, some 8], none, none⟩,
      ⟨[none, some 7], some 60, some 600⟩] := by decide

/-! ### More rows than 32 bits number -/

theorem put_taken (keys : List Nat) (old : List (Held V)) (new : List (Row V)) : ∃ put : List Nat,
    (diff keys old new).2.map Put.row =
      if put.length = new.length then new else put.map fun j => at_ new (u32 j) := by
  refine ⟨_, put_rows old _ _ ?_⟩
  rw [prior_lend, (lend_lent _ _ _).length]
  split
  · assumption
  · rw [List.length_map]

/-- One old row, and a run of it, many others alike, and a last one. -/
def crowded (n : Nat) : List (Row Nat) := [some 0] :: (List.replicate n [some 1] ++ [[some 2]])

theorem crowded_low (n i : Nat) (low : i < n + 1) : at_ (crowded n) i ≠ [some 2] := by
  rw [at_, crowded, List.getD_eq_getElem?_getD]
  cases i with
  | zero =>
    rw [List.getElem?_cons_zero]
    decide
  | succ i =>
    rw [List.getElem?_cons_succ, List.getElem?_append_left (by rw [List.length_replicate]; omega),
      List.getElem?_replicate_of_lt (by omega)]
    decide

end Pondra.Rerun
