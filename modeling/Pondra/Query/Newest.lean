import Mathlib.Data.Prod.Lex
import Mathlib.Order.WithBot
import Pondra.Tier.Line

set_option autoImplicit false

namespace Pondra.Query

open Tier

/-! ### SQL's pieces -/

/-- A row: each column's value, or NULL. -/
abbrev Row (γ ν : Type) := γ → Option ν

/-- `=`: a NULL equals nothing. -/
def sqlEq {ν : Type} [DecidableEq ν] : Option ν → Option ν → Bool
  | some a, some b => decide (a = b)
  | _, _ => false

/-- `s.k1 = n.k1 AND s.k2 = n.k2 AND …` -/
def sqlOn {ν : Type} [DecidableEq ν] (a b : List (Option ν)) : Bool :=
  (a.zip b).all fun pair => sqlEq pair.1 pair.2

/-- A join's left rows, each as often as it has a partner. -/
def joined {α β : Type} (on : α → β → Bool) (left : List α) (right : List β) : List α :=
  left.flatMap fun a => (right.filter (on a)).map fun _ => a

/-- A value in the order of its type, NULL below every one. -/
def placeOf {ν : Type} : Option ν → WithBot ν
  | none => ⊥
  | some v => v

/-- `max`, which passes NULLs over. -/
def greatest {α : Type} [LinearOrder α] [OrderBot α] (values : List α) : α := values.foldr max ⊥

/-- What a condition on a row takes of a value: is it true, and its time. -/
structure Scalars (ν : Type) where
  isTrue : ν → Bool
  micros : ν → Int

/-! ### A keyed table whose rows replace each other -/

/-- Its key, `order_by`, `_deleted` if it has the column, and its TTL (a column and seconds). -/
structure Upsert (γ : Type) where
  key : List γ
  order : Option γ
  deleted : Option γ
  ttl : Option (γ × Nat)

/-- Its files, its log's segments with its rows in each, and how far the log is in files. -/
structure Stored (γ ν : Type) where
  files : List (DataFile (Row γ ν))
  log : List (Nat × List (Row γ ν))
  tiered : Nat

section rows

variable {γ ν : Type} (t : Upsert γ)

def Upsert.keyOf (r : Row γ ν) : List (Option ν) := t.key.map r

/-- `"_deleted" IS NOT TRUE AND "c" >= now() - INTERVAL …` -/
def Upsert.live (values : Scalars ν) (now : Int) (r : Row γ ν) : Bool :=
  (match t.deleted with
    | none => true
    | some c => !(r c).any values.isTrue) &&
  (match t.ttl with
    | none => true
    | some (c, secs) => (r c).any fun v => decide (now - secs * 1000000 ≤ values.micros v))

/-- What `order_by` orders a row by. -/
def Upsert.rank (r : Row γ ν) : WithBot ν :=
  match t.order with
  | none => ⊥
  | some o => placeOf (r o)

/-- All rows, each with its `_ord`. -/
def Stored.raw (s : Stored γ ν) (upto : Nat) : List (Nat × Row γ ν) :=
  Tier.raw s.files s.log s.tiered upto

/-- The generations of files, newest first. -/
def Stored.older (s : Stored γ ν) : List (List (Row γ ν)) :=
  (generations s.files).reverse.map fun g => g.flatMap (·.rows)

variable [DecidableEq ν]

/-- `GROUP BY` the key: NULLs are one group. -/
def Upsert.groups (entries : List (Nat × Row γ ν)) :
    List (List (Option ν) × List (Nat × Row γ ν)) :=
  (entries.map fun e => t.keyOf e.2).dedup.map fun k =>
    (k, entries.filter fun e => decide (t.keyOf e.2 = k))

variable [DecidableEq γ]

/-- The key, and of every other column `first_value(c ORDER BY "_ord" DESC)`. -/
def Upsert.byOrd (first : γ → List (Nat × Row γ ν) → Option ν) (entries : List (Nat × Row γ ν)) :
    List (Row γ ν) :=
  (t.groups entries).map fun g c =>
    if c ∈ t.key then g.2.head?.bind fun e => e.2 c else first c g.2

/-- Each source's rows but those whose key a newer source has. -/
def Upsert.shadowed : List (Row γ ν) → List (List (Row γ ν)) → List (Row γ ν)
  | _, [] => []
  | newer, source :: older =>
    source.filter (fun r => !newer.any fun n => sqlOn (t.keyOf r) (t.keyOf n)) ++
      Upsert.shadowed (newer ++ source) older

end rows

section queries

variable {γ ν : Type} [DecidableEq γ] [LinearOrder ν] (t : Upsert γ)
  (first : γ → List (Nat × Row γ ν) → Option ν) (values : Scalars ν) (now : Int)

/-- Each key's greatest `order_by`, then the greatest `_ord` among rows that tie on it. -/
def Upsert.byOrder (o : γ) (entries : List (Nat × Row γ ν)) : List (Row γ ν) :=
  let m : List (List (Option ν) × WithBot ν) := (t.groups entries).map fun g =>
    (g.1, greatest (g.2.map fun e => placeOf (e.2 o)))
  let c := joined (fun (e : Nat × Row γ ν) (g : List (Option ν) × WithBot ν) =>
    sqlOn (t.keyOf e.2) g.1 && decide (placeOf (e.2 o) = g.2)) entries m
  let l : List (List (Option ν) × Nat) := (t.groups c).map fun g =>
    (g.1, greatest (g.2.map Prod.fst))
  (joined (fun (e : Nat × Row γ ν) (g : List (Option ν) × Nat) =>
    sqlOn (t.keyOf e.2) g.1 && decide (e.1 = g.2)) c l).map Prod.snd

/-- The newest row of each key; delete markers and expired rows too where they are kept. -/
def Upsert.latestSql (entries : List (Nat × Row γ ν)) (keepDeleted : Bool) : List (Row γ ν) :=
  let rows :=
    match t.order with
    | none => t.byOrd first entries
    | some o => t.byOrder o entries
  if keepDeleted then rows else rows.filter (t.live values now)

/-- A single file with nothing in the log after it is read as it is. -/
def Upsert.currentSql (s : Stored γ ν) (upto : Nat) : List (Row γ ν) :=
  if 1 < s.files.length ∨ upto ≠ s.tiered then t.latestSql first values now (s.raw upto) false
  else ((s.raw upto).map Prod.snd).filter (t.live values now)

/-- The log's newest rows, if it has any, over the files', a generation at a time. -/
def Upsert.upsertView (s : Stored γ ν) (upto : Nat) : List (Row γ ν) :=
  let tail := Tier.tail s.log s.tiered upto
  let newest := if tail.isEmpty then [] else [t.latestSql first values now tail true]
  (t.shadowed [] (newest ++ s.older)).filter (t.live values now)

/-- A table as its users see it. -/
def Upsert.view (s : Stored γ ν) (upto : Nat) : List (Row γ ν) :=
  if t.order.isNone then t.upsertView first values now s upto
  else t.currentSql first values now s upto

end queries

/-! ### What every way should read -/

section wanted

variable {γ ν : Type} [LinearOrder ν] (t : Upsert γ)

/-- The row of its key that is greatest by `order_by`, and by `_ord` among those that tie. -/
def Newest (entries : List (Nat × Row γ ν)) (r : Row γ ν) : Prop :=
  ∃ ord, (ord, r) ∈ entries ∧ ∀ e ∈ entries, t.keyOf e.2 = t.keyOf r →
    t.rank e.2 < t.rank r ∨ (t.rank e.2 = t.rank r ∧ e.1 ≤ ord)

/-- A row a key: its newest, where that is live. -/
structure Current (values : Scalars ν) (now : Int) (entries : List (Nat × Row γ ν))
    (rows : List (Row γ ν)) : Prop where
  once : (rows.map t.keyOf).Nodup
  rows : ∀ r, r ∈ rows ↔ Newest t entries r ∧ t.live values now r = true

end wanted

/-! ### SQL's pieces -/

theorem sqlEq_iff {ν : Type} [DecidableEq ν] (a b : Option ν) :
    sqlEq a b = true ↔ a = b ∧ a ≠ none := by
  cases a with
  | none => simp [sqlEq]
  | some x =>
    cases b with
    | none => simp [sqlEq]
    | some y => simp [sqlEq]

/-- Keys are equal as a join has it where they are the same and have no NULL. -/
theorem sqlOn_iff {ν : Type} [DecidableEq ν] (a b : List (Option ν)) (length : a.length = b.length) :
    sqlOn a b = true ↔ a = b ∧ none ∉ a := by
  induction a generalizing b with
  | nil =>
    rw [List.eq_nil_of_length_eq_zero length.symm]
    simp [sqlOn]
  | cons x a ih =>
    cases b with
    | nil => simp at length
    | cons y b =>
      have rest := ih b (by simpa using length)
      rw [sqlOn] at rest
      rw [sqlOn, List.zip_cons_cons, List.all_cons, Bool.and_eq_true, rest, sqlEq_iff,
        List.cons.injEq, List.mem_cons, not_or]
      constructor
      · intro ⟨⟨same, some_⟩, others, full⟩
        exact ⟨⟨same, others⟩, Ne.symm some_, full⟩
      · intro ⟨⟨same, others⟩, some_, full⟩
        exact ⟨⟨same, Ne.symm some_⟩, others, full⟩

/-- Where nothing has two partners, a join keeps the rows that have one. -/
theorem joined_filter {α β : Type} (on : α → β → Bool) (left : List α) (right : List β)
    (one : ∀ a, right.Pairwise fun b c => ¬(on a b = true ∧ on a c = true)) :
    joined on left right = left.filter fun a => right.any (on a) := by
  have single : ∀ a, (right.filter (on a)).length ≤ 1 := by
    intro a
    have apart := (one a).filter (on a)
    have partners : ∀ b ∈ right.filter (on a), on a b = true := fun b inside =>
      (List.mem_filter.mp inside).2
    cases found : right.filter (on a) with
    | nil => exact Nat.zero_le 1
    | cons b more =>
      cases more with
      | nil => exact Nat.le_refl 1
      | cons c more =>
        rw [found] at apart partners
        exact absurd ⟨partners b List.mem_cons_self,
          partners c (List.mem_cons_of_mem b List.mem_cons_self)⟩
          ((List.pairwise_cons.mp apart).1 c List.mem_cons_self)
  induction left with
  | nil => rfl
  | cons a left ih =>
    rw [joined] at ih
    rw [joined, List.flatMap_cons, ih, List.filter_cons]
    have few := single a
    cases found : right.filter (on a) with
    | nil =>
      have none_ : right.any (on a) = false := by
        rw [List.any_eq_false]
        intro b inside
        exact List.filter_eq_nil_iff.mp found b inside
      rw [none_]
      rfl
    | cons b more =>
      have here : b ∈ right.filter (on a) := by rw [found]; exact List.mem_cons_self
      obtain ⟨inside, partner⟩ := List.mem_filter.mp here
      have some_ : right.any (on a) = true := List.any_eq_true.mpr ⟨b, inside, partner⟩
      rw [found, List.length_cons] at few
      rw [some_, List.length_eq_zero_iff.mp (show more.length = 0 by omega)]
      rfl

theorem le_greatest {α : Type} [LinearOrder α] [OrderBot α] (values : List α) (v : α)
    (inside : v ∈ values) : v ≤ greatest values := by
  induction values with
  | nil => cases inside
  | cons w values ih =>
    rw [greatest, List.foldr_cons]
    rcases List.mem_cons.mp inside with rfl | later
    · exact le_max_left _ _
    · exact le_trans (ih later) (le_max_right _ _)

theorem greatest_le {α : Type} [LinearOrder α] [OrderBot α] (values : List α) (v : α)
    (most : ∀ w ∈ values, w ≤ v) : greatest values ≤ v := by
  induction values with
  | nil => exact bot_le
  | cons w values ih =>
    rw [greatest, List.foldr_cons]
    apply max_le
    · exact most w List.mem_cons_self
    · exact ih fun x inside => most x (List.mem_cons_of_mem w inside)

/-- A value is the greatest of those it is one of where none is greater. -/
theorem eq_greatest {α : Type} [LinearOrder α] [OrderBot α] (values : List α) (v : α)
    (inside : v ∈ values) : v = greatest values ↔ ∀ w ∈ values, w ≤ v := by
  constructor
  · intro same w there
    rw [same]
    exact le_greatest values w there
  · intro most
    exact le_antisymm (le_greatest values v inside) (greatest_le values v most)

/-! ### A key's rows -/

/-- No two rows of one key have one `_ord`. -/
def Apart {γ ν : Type} (t : Upsert γ) (entries : List (Nat × Row γ ν)) : Prop :=
  entries.Pairwise fun a b => t.keyOf a.2 = t.keyOf b.2 → a.1 ≠ b.1

theorem apart_same {γ ν : Type} {t : Upsert γ} {entries : List (Nat × Row γ ν)}
    (apart : Apart t entries) (a b : Nat × Row γ ν) (first : a ∈ entries) (second : b ∈ entries)
    (key : t.keyOf a.2 = t.keyOf b.2) (ord : a.1 = b.1) : a = b := by
  induction entries with
  | nil => cases first
  | cons e entries ih =>
    obtain ⟨here, rest⟩ := List.pairwise_cons.mp apart
    rcases List.mem_cons.mp first with rfl | before
    · rcases List.mem_cons.mp second with rfl | after
      · rfl
      · exact absurd ord (here b after key)
    · rcases List.mem_cons.mp second with rfl | after
      · exact absurd ord.symm (here a before key.symm)
      · exact ih rest before after

/-- Some row of a key's is its newest. -/
theorem newest_some {γ ν : Type} [LinearOrder ν] (t : Upsert γ) (entries : List (Nat × Row γ ν))
    (e : Nat × Row γ ν) (inside : e ∈ entries) :
    ∃ r, Newest t entries r ∧ t.keyOf r = t.keyOf e.2 := by
  -- the greatest of the key's rows by (`order_by`, `_ord`)
  have top : ∃ n ∈ entries.filter (fun x => decide (t.keyOf x.2 = t.keyOf e.2)),
      ∀ x ∈ entries.filter (fun x => decide (t.keyOf x.2 = t.keyOf e.2)),
        toLex (t.rank x.2, x.1) ≤ toLex (t.rank n.2, n.1) := by
    have some_ : entries.filter (fun x => decide (t.keyOf x.2 = t.keyOf e.2)) ≠ [] :=
      List.ne_nil_of_mem (List.mem_filter.mpr ⟨inside, decide_eq_true rfl⟩)
    cases found : (entries.filter fun x => decide (t.keyOf x.2 = t.keyOf e.2)).argmax
        fun x => toLex (t.rank x.2, x.1) with
    | none => exact absurd (List.argmax_eq_none.mp found) some_
    | some n =>
      refine ⟨n, List.argmax_mem found, fun x there => ?_⟩
      exact List.le_of_mem_argmax (f := fun x => toLex (t.rank x.2, x.1)) there found
  obtain ⟨n, there, most⟩ := top
  obtain ⟨entry, key⟩ := List.mem_filter.mp there
  have same := of_decide_eq_true key
  refine ⟨n.2, ⟨n.1, entry, fun x other with_ => ?_⟩, same⟩
  have below := most x (List.mem_filter.mpr ⟨other, decide_eq_true (with_.trans same)⟩)
  exact Prod.Lex.toLex_le_toLex.mp below

end Pondra.Query
