import Mathlib.Data.List.Sort
import Pondra.Cluster.Hilbert

set_option autoImplicit false

/-! ### Rows along the curve through their columns' ranks -/

namespace Pondra.Cluster

inductive Failure (Error : Type)
  | panic
  | missing (column : String)
  | arrow (error : Error)

/-- The arrow kernels a sort calls, over batches of one schema. -/
structure Arrow (Row Column Error : Type) where
  concatBatches : List (List Row) → Except Error (List Row)
  columnByName : List Row → String → Option Column
  /-- A rank for each row. -/
  rank : Column → Except Error (List UInt32)
  /-- As text. -/
  cast : Column → Except Error Column
  concat_rows : ∀ batches all, concatBatches batches = .ok all → all = batches.flatten

variable {Row Column Error : Type}

def ranksOf (arrow : Arrow Row Column Error) (all : List Row) (c : String) :
    Except (Failure Error) (List UInt32) :=
  match arrow.columnByName all c with
  | none => .error (.missing c)
  | some a =>
    match arrow.rank a with
    | .ok r => .ok r
    | .error _ => (arrow.cast a >>= arrow.rank).mapError .arrow

/-- The ranks as coordinates below `2 ^ bits`; no product reaches `2 ^ 63`. -/
def spread (bits : UInt32) (ranks : List UInt32) : List UInt32 :=
  let top := max ((ranks.map UInt32.toNat).max?.getD 0) 1
  ranks.map fun r => UInt32.ofNat (r.toNat * (2 ^ bits.toNat - 1) / top)

def dims (cols : List String) : Nat := min cols.length 8

def bitsFor (dims : Nat) : UInt32 := UInt32.ofNat (min (63 / dims) 31)

/-- The point of a row. -/
def point (coords : List (List UInt32)) {n : Nat} (i : Nat) (d : Fin n) : UInt32 :=
  (coords.getD d.val []).getD i 0

/-- The order of tuples. -/
def Before (a b : UInt64 × UInt32) : Prop := a.1 < b.1 ∨ (a.1 = b.1 ∧ a.2 ≤ b.2)

instance : DecidableRel Before := fun a b =>
  inferInstanceAs (Decidable (a.1 < b.1 ∨ (a.1 = b.1 ∧ a.2 ≤ b.2)))

/-- The positions of the rows along the curve. -/
def order : List (List UInt32) → Nat → List (UInt64 × UInt32)
  | [], _ => []
  | first :: rest, rows =>
    let bits := bitsFor (rest.length + 1)
    let coords := (first :: rest).map (spread bits)
    let keys := (List.range rows).map fun i =>
      (index (point coords i : Fin (rest.length + 1) → UInt32) bits, UInt32.ofNat i)
    keys.insertionSort Before

def take (all : List Row) (positions : List UInt32) : List Row :=
  positions.filterMap fun i => all[i.toNat]?

/-- The ranks of the columns the curve runs through. -/
def rankings (arrow : Arrow Row Column Error) (all : List Row) (cols : List String) :
    Except (Failure Error) (List (List UInt32)) :=
  (cols.take (dims cols)).mapM (ranksOf arrow all)

/-- Batches along a Hilbert curve through columns. -/
def sort (arrow : Arrow Row Column Error) (batches : List (List Row)) (cols : List String) :
    Except (Failure Error) (List (List Row)) :=
  if batches.isEmpty then .ok []
  else do
    let all ← (arrow.concatBatches batches).mapError .arrow
    -- `63 / cols.len()`
    if cols.isEmpty then .error .panic
    else
      let ranks ← rankings arrow all cols
      .ok [take all ((order ranks all.length).map Prod.snd)]

theorem Before.trans (a b c : UInt64 × UInt32) (first : Before a b) (second : Before b c) :
    Before a c := by
  simp only [Before, UInt64.lt_iff_toNat_lt, UInt32.le_iff_toNat_le, ← UInt64.toNat_inj] at *
  omega

theorem Before.total (a b : UInt64 × UInt32) : Before a b ∨ Before b a := by
  simp only [Before, UInt64.lt_iff_toNat_lt, UInt32.le_iff_toNat_le, ← UInt64.toNat_inj]
  omega

theorem order_perm (first : List UInt32) (rest : List (List UInt32)) (rows : Nat) :
    ((order (first :: rest) rows).map Prod.snd).Perm ((List.range rows).map UInt32.ofNat) := by
  unfold order
  apply (List.Perm.map Prod.snd (List.perm_insertionSort Before _)).trans
  rw [List.map_map]
  exact List.Perm.refl _

theorem filterMap_range (all : List Row) :
    (List.range all.length).filterMap (fun i => all[i]?) = all := by
  induction all with
  | nil => rfl
  | cons row rest ih =>
    rw [List.length_cons, List.range_succ_eq_map, List.filterMap_cons_some List.getElem?_cons_zero,
      List.filterMap_map]
    exact congrArg (row :: ·) ih

theorem take_range (all : List Row) (few : all.length ≤ 2 ^ 32) :
    take all ((List.range all.length).map UInt32.ofNat) = all := by
  unfold take
  rw [List.filterMap_map]
  have each (i : Nat) (inside : i ∈ List.range all.length) :
      ((fun i : UInt32 => all[i.toNat]?) ∘ UInt32.ofNat) i = all[i]? := by
    have low := List.mem_range.mp inside
    show all[(UInt32.ofNat i).toNat]? = _
    rw [UInt32.toNat_ofNat_of_lt' (Nat.lt_of_lt_of_le low few)]
  rw [List.filterMap_congr each]
  exact filterMap_range all

theorem mapM_length {α β ε : Type} (f : α → Except ε β) (l : List α) (r : List β)
    (done : l.mapM f = .ok r) : r.length = l.length := by
  induction l generalizing r with
  | nil =>
    cases done
    rfl
  | cons a rest ih =>
    rw [List.mapM_cons] at done
    cases head : f a with
    | error e =>
      rw [head] at done
      cases done
    | ok b =>
      cases tail : rest.mapM f with
      | error e =>
        rw [head, tail] at done
        cases done
      | ok bs =>
        rw [head, tail] at done
        cases done
        rw [List.length_cons, ih bs tail, List.length_cons]

theorem rankings_length (arrow : Arrow Row Column Error) (all : List Row) (cols : List String)
    (ranks : List (List UInt32)) (ranked : rankings arrow all cols = .ok ranks) :
    ranks.length = dims cols := by
  rw [mapM_length _ _ ranks ranked, List.length_take, dims]
  omega

/-- A sort's ranks are of at least one column, and its rows are taken in their order. -/
theorem sort_cases (arrow : Arrow Row Column Error) (batches : List (List Row)) (cols : List String)
    (sorted : List (List Row)) (done : sort arrow batches cols = .ok sorted) :
    (batches = [] ∧ sorted = []) ∨ ∃ first rest,
      rankings arrow batches.flatten cols = .ok (first :: rest) ∧
      sorted = [take batches.flatten ((order (first :: rest) batches.flatten.length).map Prod.snd)] := by
  unfold sort at done
  split at done
  · rename_i empty
    cases done
    exact .inl ⟨List.isEmpty_iff.mp empty, rfl⟩
  · right
    cases joined : arrow.concatBatches batches with
    | error e =>
      rw [joined] at done
      cases done
    | ok all =>
      rw [joined] at done
      have rows := arrow.concat_rows batches all joined
      subst rows
      change (if cols.isEmpty then _ else _) = _ at done
      split at done
      · cases done
      · rename_i columns
        cases ranked : rankings arrow batches.flatten cols with
        | error e =>
          rw [ranked] at done
          cases done
        | ok ranks =>
          rw [ranked] at done
          have lengths := rankings_length arrow _ cols ranks ranked
          cases ranks with
          | nil =>
            have none : cols.length ≠ 0 := by
              intro zero
              exact columns (List.isEmpty_iff.mpr (List.length_eq_zero_iff.mp zero))
            rw [List.length_nil, dims] at lengths
            omega
          | cons first rest =>
            cases done
            exact ⟨first, rest, rfl, rfl⟩

theorem sort_perm (arrow : Arrow Row Column Error) (batches : List (List Row)) (cols : List String)
    (sorted : List (List Row)) (done : sort arrow batches cols = .ok sorted)
    (few : batches.flatten.length ≤ 2 ^ 32) : sorted.flatten.Perm batches.flatten := by
  rcases sort_cases arrow batches cols sorted done with ⟨empty, none⟩ | ⟨first, rest, _, taken⟩
  · rw [empty, none]
  · rw [taken, List.flatten_singleton]
    have same := (order_perm first rest batches.flatten.length).filterMap
      fun i : UInt32 => batches.flatten[i.toNat]?
    apply same.trans
    show (take batches.flatten _).Perm _
    rw [take_range _ few]

/-- An index is a place on a Hilbert curve, where points at consecutive places are neighbours; and a sort
takes its rows, each once, in an order that is made of their columns' ranks. -/
theorem curve_ordered :
    (∀ (n : Nat) [NeZero n] (bits : UInt32), 1 ≤ bits.toNat → bits.toNat ≤ 32 → n * bits.toNat ≤ 63 →
      Set.BijOn (fun x : Fin n → UInt32 => (index x bits).toNat) (points n bits.toNat)
        {k | k < 2 ^ (n * bits.toNat)} ∧
      ∀ x ∈ points n bits.toNat, ∀ y ∈ points n bits.toNat,
        (index y bits).toNat = (index x bits).toNat + 1 →
        Curves.Adjacent (fun i => (x i).toNat) (fun i => (y i).toNat)) ∧
    ∀ (Row Column Error : Type) (arrow : Arrow Row Column Error) (batches : List (List Row))
      (cols : List String) (sorted : List (List Row)), sort arrow batches cols = .ok sorted →
      batches.flatten.length ≤ 2 ^ 32 →
      sorted.flatten.Perm batches.flatten ∧ (sorted = [] ∨ ∃ ranks,
        rankings arrow batches.flatten cols = .ok ranks ∧
        sorted.flatten = take batches.flatten ((order ranks batches.flatten.length).map Prod.snd)) := by
  constructor
  · intro n _ bits some bound fits
    exact ⟨index_bijOn bits some bound fits, fun x inside y inside' next =>
      index_adjacent bits some bound fits x y inside inside' next⟩
  · intro Row Column Error arrow batches cols sorted done few
    apply And.intro (sort_perm arrow batches cols sorted done few)
    rcases sort_cases arrow batches cols sorted done with ⟨_, none⟩ | ⟨first, rest, ranked, taken⟩
    · exact .inl none
    · exact .inr ⟨first :: rest, ranked, by rw [taken, List.flatten_singleton]⟩

/-- A table of two columns, where a value's rank counts those up to it. -/
def square : Arrow (Nat × Nat) (List Nat) Unit where
  concatBatches batches := .ok batches.flatten
  columnByName all c := if c = "a" then some (all.map Prod.fst) else
    if c = "b" then some (all.map Prod.snd) else none
  rank column := .ok (column.map fun v => UInt32.ofNat (column.countP (· ≤ v)))
  cast _ := .error ()
  concat_rows batches all joined := by
    cases joined
    rfl

/-- The corners of a square, walked round. -/
theorem square_ordered :
    Set.BijOn (fun x : Fin 2 → UInt32 => (index x 31).toNat) (points 2 31) {k | k < 2 ^ 62} ∧
    sort square [[(0, 0), (1, 0)], [(0, 1), (1, 1)]] ["a", "b"] =
      .ok [[(0, 0), (0, 1), (1, 1), (1, 0)]] ∧
    [(0, 0), (0, 1), (1, 1), (1, 0)].Perm [(0, 0), (1, 0), (0, 1), (1, 1)] := by
  have walked : sort square [[(0, 0), (1, 0)], [(0, 1), (1, 1)]] ["a", "b"] =
      .ok [[(0, 0), (0, 1), (1, 1), (1, 0)]] := by
    have positions : (order [[2, 4, 2, 4], [2, 2, 4, 4]] 4).map Prod.snd = [0, 2, 3, 1] := by
      decide +kernel
    show Except.ok [take _ ((order [[2, 4, 2, 4], [2, 2, 4, 4]] 4).map Prod.snd)] = _
    rw [positions]
    rfl
  exact ⟨(curve_ordered.1 2 31 (by decide) (by decide) (by decide)).1, walked,
    (curve_ordered.2 _ _ _ square _ _ _ walked (by decide)).1⟩

/-- Rows that are numbers, all of one rank. -/
def numbered : Arrow Nat Nat Unit where
  concatBatches batches := .ok batches.flatten
  columnByName all _ := some all.length
  rank rows := .ok (List.replicate rows 1)
  cast _ := .error ()
  concat_rows batches all joined := by
    cases joined
    rfl

/-- Coordinates are 32 bits, so past those there are more numbers than points; and so are positions, so
past `2 ^ 32` rows the last are lost. -/
theorem wide_misses :
    ¬ Set.BijOn (fun x : Fin 1 → UInt32 => (index x 33).toNat) (points 1 33) {k | k < 2 ^ (1 * 33)} ∧
    ∃ sorted, sort numbered [List.range (2 ^ 32 + 1)] ["a"] = .ok sorted ∧
      ¬ sorted.flatten.Perm [List.range (2 ^ 32 + 1)].flatten := by
  constructor
  · intro bijective
    have each (k : Fin (2 ^ 33)) : ∃ x : Fin 1 → UInt32, (index x 33).toNat = k.val := by
      obtain ⟨x, _, found⟩ := bijective.surjOn (show k.val < 2 ^ (1 * 33) from k.isLt)
      exact ⟨x, found⟩
    choose corner found using each
    have injective : Function.Injective fun k => (corner k 0).toFin := by
      intro k k' same
      have points : corner k = corner k' := by
        funext i
        rw [Subsingleton.elim i 0]
        exact UInt32.toFin_inj.mp same
      apply Fin.ext
      rw [← found k, ← found k', points]
    have sizes := Fintype.card_le_of_injective _ injective
    rw [Fintype.card_fin, Fintype.card_fin] at sizes
    exact absurd sizes (by decide)
  · refine ⟨[take (List.range (2 ^ 32 + 1)) ((order [List.replicate (List.range (2 ^ 32 + 1)).length 1]
      (List.range (2 ^ 32 + 1)).length).map Prod.snd)], ?_, ?_⟩
    · generalize List.range (2 ^ 32 + 1) = rows
      have joined : [rows].flatten = rows := List.flatten_singleton
      show (do
        let ranks ← rankings numbered [rows].flatten ["a"]
        _) = _
      rw [joined]
      rfl
    · intro same
      have lost : 2 ^ 32 ∈ [List.range (2 ^ 32 + 1)].flatten := by
        rw [List.flatten_singleton, List.mem_range]
        exact Nat.lt_succ_self _
      have found := same.mem_iff.mpr lost
      rw [List.flatten_singleton, take, List.mem_filterMap] at found
      obtain ⟨i, _, here⟩ := found
      obtain ⟨_, here⟩ := List.getElem?_eq_some_iff.mp here
      rw [List.getElem_range] at here
      exact absurd here (Nat.ne_of_lt i.toNat_lt)

end Pondra.Cluster
