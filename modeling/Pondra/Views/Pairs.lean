import Pondra.Views.Join

set_option autoImplicit false

namespace Pondra.Views

open Machines

/-! ### Casts -/

theorem tdiv_le (us t : Int) (k : Int) (positive : 0 < k) (above : us ≤ t * k) : us.tdiv k ≤ t := by
  rcases Int.le_total 0 us with whole | negative
  · rw [Int.tdiv_eq_ediv_of_nonneg whole]
    exact Int.ediv_le_of_le_mul positive above
  · obtain ⟨n, rfl⟩ : ∃ n, us = -n := ⟨-us, by omega⟩
    rw [Int.neg_tdiv, Int.tdiv_eq_ediv_of_nonneg (by omega)]
    have less : -t ≤ n / k := by
      rw [Int.le_ediv_iff_mul_le positive, Int.neg_mul]
      omega
    omega

theorem le_tdiv (us t : Int) (k : Int) (positive : 0 < k) (below : t * k ≤ us) : t ≤ us.tdiv k := by
  have mirrored := tdiv_le (-us) (-t) k positive (by rw [Int.neg_mul]; omega)
  rw [Int.neg_tdiv] at mirrored
  omega

/-- A time that is whole µs keeps its value in µs. -/
theorem nanos_micros (unit : TimeUnit) (coarse : unit ≠ .nano) (t : Int) :
    unit.nanos t = unit.micros t * 1000 := by
  cases unit with
  | nano => exact absurd rfl coarse
  | micro => rfl
  | second | milli =>
    simp only [TimeUnit.nanos, TimeUnit.micros]
    omega

/-- A time at or after one in µs is so in its column's unit, and at or before one. -/
theorem ofMicros_le (unit : TimeUnit) (us t : Int) (above : us * 1000 ≤ unit.nanos t) :
    unit.ofMicros us ≤ t := by
  cases unit with
  | second => exact tdiv_le us t 1000000 (by omega) (by simp only [TimeUnit.nanos] at above; omega)
  | milli => exact tdiv_le us t 1000 (by omega) (by simp only [TimeUnit.nanos] at above; omega)
  | micro =>
    simp only [TimeUnit.nanos, TimeUnit.ofMicros] at above ⊢
    omega
  | nano => exact above

theorem le_ofMicros (unit : TimeUnit) (us t : Int) (below : unit.nanos t ≤ us * 1000) :
    t ≤ unit.ofMicros us := by
  cases unit with
  | second => exact le_tdiv us t 1000000 (by omega) (by simp only [TimeUnit.nanos] at below; omega)
  | milli => exact le_tdiv us t 1000 (by omega) (by simp only [TimeUnit.nanos] at below; omega)
  | micro =>
    simp only [TimeUnit.nanos, TimeUnit.ofMicros] at below ⊢
    omega
  | nano => exact below

/-- A row within `within_secs` of one of the fresh rows is in their range, whose times are whole
µs. -/
theorem inSpan_near {ρ σ : Type} (fresh : List ρ) (theirs : Timed ρ) (mine : Timed σ) (within : Nat)
    (coarse : theirs.unit ≠ .nano) (x : ρ) (inside : x ∈ fresh) (y : σ) (t u : Int)
    (first : theirs.time x = some t) (second : mine.time y = some u)
    (early : theirs.unit.nanos t - mine.unit.nanos u ≤ within * 1000000000)
    (late : mine.unit.nanos u - theirs.unit.nanos t ≤ within * 1000000000) :
    inSpan mine (span fresh theirs within) y = true := by
  have there : theirs.unit.micros t ∈
      fresh.filterMap fun r => (theirs.time r).map theirs.unit.micros :=
    List.mem_filterMap.mpr ⟨x, inside, by rw [first]; rfl⟩
  have exactly := nanos_micros theirs.unit coarse t
  rw [span]
  cases least : (fresh.filterMap fun r => (theirs.time r).map theirs.unit.micros).min? with
  | none =>
    rw [List.min?_eq_none_iff.mp least] at there
    cases there
  | some lo =>
    cases most : (fresh.filterMap fun r => (theirs.time r).map theirs.unit.micros).max? with
    | none =>
      rw [List.max?_eq_none_iff.mp most] at there
      cases there
    | some hi =>
      have below := (List.min?_eq_some_iff.mp least).2 _ there
      have above := (List.max?_eq_some_iff.mp most).2 _ there
      change (mine.time y).any _ = true
      rw [second, Option.any_some, Bool.and_eq_true, decide_eq_true_eq, decide_eq_true_eq]
      exact ⟨ofMicros_le mine.unit _ u (by omega), le_ofMicros mine.unit _ u (by omega)⟩

section join

variable {α β ο ρ : Type} (j : Join α β ο)

/-- With times in µs or coarser no pair is outside the ranges. -/
theorem whole_coarse (bounded : j.Bounded)
    (coarse : ∀ ta tb, j.time = some (ta, tb) → ta.unit ≠ .nano ∧ tb.unit ≠ .nano)
    (s : Streams α β ο) (done now : Nat) : j.Whole s done now := by
  constructor
  · intro x fresh y _ pair
    rw [Join.boundB]
    split
    · rename_i ta tb w time within
      obtain ⟨t, u, first, second, early, late⟩ := bounded ta tb w time within x y pair
      exact inSpan_near _ ta tb w (coarse ta tb time).1 x fresh y t u first second early late
    · rfl
  · intro y fresh x _ pair
    rw [Join.boundA]
    split
    · rename_i ta tb w time within
      obtain ⟨t, u, first, second, early, late⟩ := bounded ta tb w time within x y pair
      exact inSpan_near _ tb ta w (coarse ta tb time).2 y fresh x u t second first late early
    · rfl

/-! ### Old rows and new -/

theorem query_left (as₁ as₂ : List α) (bs : List β) :
    j.query (as₁ ++ as₂) bs = j.query as₁ bs ++ j.query as₂ bs :=
  List.flatMap_append

theorem query_right (as : List α) (bs₁ bs₂ : List β) :
    (j.query as (bs₁ ++ bs₂)).Perm (j.query as bs₁ ++ j.query as bs₂) := by
  simp only [Join.query, List.filter_append, List.map_append]
  exact (List.flatMap_append_perm as _ _).symm

theorem query_perm (as₁ as₂ : List α) (bs₁ bs₂ : List β) (first : as₁.Perm as₂)
    (second : bs₁.Perm bs₂) : (j.query as₁ bs₁).Perm (j.query as₂ bs₂) :=
  (first.flatMap_right _).trans
    (List.Perm.flatMap_left _ fun _ _ => (second.filter _).map _)

/-- Rows that pair with none may be left out. -/
theorem query_filter_right (as : List α) (bs : List β) (keeps : β → Bool)
    (all : ∀ x ∈ as, ∀ y ∈ bs, j.on x y = true → keeps y = true) :
    j.query as (bs.filter keeps) = j.query as bs := by
  refine List.flatMap_congr fun x inside => ?_
  rw [List.filter_filter]
  refine congrArg (List.map (j.row x)) (List.filter_congr fun y there => ?_)
  cases pair : j.on x y with
  | false => rfl
  | true => rw [all x inside y there pair]; rfl

theorem query_filter_left (as : List α) (bs : List β) (keeps : α → Bool)
    (all : ∀ x ∈ as, ∀ y ∈ bs, j.on x y = true → keeps x = true) :
    j.query (as.filter keeps) bs = j.query as bs := by
  induction as with
  | nil => rfl
  | cons x rest ih =>
    have others := ih fun x' inside => all x' (List.mem_cons_of_mem _ inside)
    cases kept : keeps x with
    | true =>
      rw [List.filter_cons_of_pos kept, Join.query, List.flatMap_cons]
      exact congrArg _ others
    | false =>
      have none : bs.filter (j.on x) = [] := by
        rw [List.filter_eq_nil_iff]
        intro y there pair
        rw [all x List.mem_cons_self y there pair] at kept
        cases kept
      rw [List.filter_cons_of_neg (by simp [kept]), others]
      conv_rhs => rw [Join.query, List.flatMap_cons, none, List.map_nil, List.nil_append]
      rfl

/-- The rows of a later commit are an earlier one's and those written since. -/
theorem versions_split (rows : List (Nat × ρ)) (done now : Nat) (less : done ≤ now) :
    (versions rows none now).Perm (versions rows none done ++ versions rows (some done) now) := by
  rw [versions, versions, versions, ← List.map_append]
  refine List.Perm.map _ ?_
  induction rows with
  | nil => exact List.Perm.refl _
  | cons r rest ih =>
    by_cases old : r.1 ≤ done
    · rw [List.filter_cons_of_pos (by simp; omega), List.filter_cons_of_pos (by simp [old]),
        List.filter_cons_of_neg (by simp; omega)]
      exact ih.cons r
    · by_cases new : r.1 ≤ now
      · rw [List.filter_cons_of_pos (by simp [new]), List.filter_cons_of_neg (by simp [old]),
          List.filter_cons_of_pos (by simp [new]; omega)]
        exact (ih.cons r).trans List.perm_middle.symm
      · rw [List.filter_cons_of_neg (by simp [new]), List.filter_cons_of_neg (by simp [old]),
          List.filter_cons_of_neg (by simp [new])]
        exact ih

/-- A commit later than `now` changes none of the rows before it. -/
theorem versions_more (rows new : List (Nat × ρ)) (after : Option Nat) (now : Nat)
    (later : ∀ r ∈ new, now < r.1) : versions (rows ++ new) after now = versions rows after now := by
  rw [versions, List.filter_append, List.map_append]
  have none : new.filter (fun r => after.all (fun n => decide (n < r.1)) && decide (r.1 ≤ now)) = [] := by
    rw [List.filter_eq_nil_iff]
    intro r inside
    have := later r inside
    simp only [Bool.and_eq_true, decide_eq_true_eq, not_and]
    omega
  rw [none, List.map_nil, List.append_nil, versions]

/-- The query's rows as of a commit. -/
def Join.asOf (s : Streams α β ο) (n : Nat) : List ο :=
  j.query (versions s.a none n) (versions s.b none n)

/-- Δa ⋈ b ∪ a(done) ⋈ Δb are the pairs that are new. -/
theorem pairs_new (s : Streams α β ο) (done now : Nat) (less : done ≤ now)
    (whole : j.Whole s done now) :
    (j.asOf s done ++ j.pairs s done now).Perm (j.asOf s now) := by
  have ofA := query_filter_right j (s.newA done now) (versions s.b none now)
    (j.boundB (s.newA done now)) whole.ofA
  have ofB := query_filter_left j (versions s.a none done) (s.newB done now)
    (j.boundA (s.newB done now)) fun x inside y fresh => whole.ofB y fresh x inside
  have parts : (j.asOf s now).Perm
      (j.query (versions s.a none done) (versions s.b none now) ++
        j.query (s.newA done now) (versions s.b none now)) := by
    rw [← query_left]
    exact query_perm j _ _ _ _ (versions_split s.a done now less) (List.Perm.refl _)
  have olds : (j.query (versions s.a none done) (versions s.b none now)).Perm
      (j.asOf s done ++ j.query (versions s.a none done) (s.newB done now)) :=
    (query_perm j _ _ _ _ (List.Perm.refl _) (versions_split s.b done now less)).trans
      (query_right j _ _ _)
  rw [Join.pairs, ofA, ofB]
  refine List.Perm.trans ?_ (parts.trans (olds.append_right _)).symm
  rw [List.append_assoc]
  exact List.Perm.append_left _ List.perm_append_comm

/-! ### Runs -/

/-- What the view has, and what its runs found: `first` is the query as the view was made. -/
structure JoinInv (first : List ο) (s : Streams α β ο) : Prop where
  mark : s.mark ≤ s.hwm
  a : ∀ r ∈ s.a, r.1 ≤ s.hwm
  b : ∀ r ∈ s.b, r.1 ≤ s.hwm
  out : (first ++ s.out).Perm (j.asOf s s.mark)
  runs : ∀ r ∈ s.runs, r.seq ≤ s.hwm ∧ r.rows = j.pairs s r.prev r.seq ∧ r.prev ≤ r.seq

theorem joinNext_inv (first : List ο) (s : Streams α β ο) (op : JoinOp α β)
    (inv : JoinInv j first s) (sure : joinSure j s op) : JoinInv j first (joinNext j s op) := by
  cases op with
  | commit as bs =>
    have newer : ∀ (ρ : Type) (rows : List ρ) (n : Nat), n ≤ s.hwm →
        ∀ r ∈ rows.map (s.hwm + 1, ·), n < r.1 := by
      intro ρ rows n less r inside
      obtain ⟨_, _, rfl⟩ := List.mem_map.mp inside
      exact Nat.lt_succ_of_le less
    have same : ∀ after n, n ≤ s.hwm →
        versions (s.a ++ as.map (s.hwm + 1, ·)) after n = versions s.a after n ∧
        versions (s.b ++ bs.map (s.hwm + 1, ·)) after n = versions s.b after n :=
      fun after n less => ⟨versions_more s.a _ after n (newer α as n less),
        versions_more s.b _ after n (newer β bs n less)⟩
    refine ⟨Nat.le_succ_of_le inv.mark, ?_, ?_, ?_, ?_⟩
    · intro r inside
      rcases List.mem_append.mp inside with old | new
      · exact Nat.le_succ_of_le (inv.a r old)
      · obtain ⟨_, _, rfl⟩ := List.mem_map.mp new
        exact Nat.le_refl _
    · intro r inside
      rcases List.mem_append.mp inside with old | new
      · exact Nat.le_succ_of_le (inv.b r old)
      · obtain ⟨_, _, rfl⟩ := List.mem_map.mp new
        exact Nat.le_refl _
    · rw [Join.asOf, joinNext]
      dsimp only
      rw [(same none s.mark inv.mark).1, (same none s.mark inv.mark).2]
      exact inv.out
    · intro r inside
      obtain ⟨within, rows, order⟩ := inv.runs r inside
      refine ⟨Nat.le_succ_of_le within, ?_, order⟩
      have early := Nat.le_trans order within
      rw [rows, Join.pairs, Join.pairs, Streams.newA, Streams.newB, Streams.newA, Streams.newB,
        joinNext]
      dsimp only
      rw [(same (some r.prev) r.seq within).1, (same (some r.prev) r.seq within).2,
        (same none r.seq within).2, (same none r.prev early).1]
  | look =>
    rw [joinNext]
    split
    · exact inv
    · refine { inv with runs := fun r inside => ?_ }
      rcases List.mem_append.mp inside with old | new
      · exact inv.runs r old
      · rw [List.mem_singleton.mp new]
        exact ⟨Nat.le_refl _, rfl, inv.mark⟩
  | append i =>
    rw [joinNext]
    cases found : s.runs[i]? with
    | none => exact inv
    | some r =>
      dsimp only
      split
      · rename_i fits
        obtain ⟨within, rows, order⟩ := inv.runs r (List.mem_of_getElem? found)
        have whole := sure r found fits.1 fits.2
        refine ⟨within, inv.a, inv.b, ?_, inv.runs⟩
        change (first ++ (s.out ++ r.rows)).Perm (j.asOf s r.seq)
        rw [← List.append_assoc, rows]
        rw [fits.1] at whole order ⊢
        exact (inv.out.append_right _).trans (pairs_new j s s.mark r.seq order whole)
      · exact inv

/-- The rows appended up to a mark are the query's as of the mark, each pair's once, but those the
query had when the view was made. -/
theorem run_joined (start : Streams α β ο) (ops : List (JoinOp α β)) (made : start.Made)
    (legal : ((joins j).only (joinSure j)).Legal start ops) :
    let s := (joins j).run start ops
    (j.query (start.a.map (·.2)) (start.b.map (·.2)) ++ s.out).Perm (j.asOf s s.mark) := by
  refine (((joins j).only (joinSure j)).run_invariant (JoinInv j _)
    (fun s op inv allowed => joinNext_inv j _ s op inv allowed.2) start ops ?_ legal).out
  have all : ∀ (ρ : Type) (rows : List (Nat × ρ)), (∀ r ∈ rows, r.1 ≤ start.hwm) →
      versions rows none start.hwm = rows.map (·.2) := by
    intro ρ rows old
    rw [versions]
    refine congrArg _ (List.filter_eq_self.mpr fun r inside => ?_)
    simpa using old r inside
  refine ⟨Nat.le_of_eq made.mark, made.a, made.b, ?_, ?_⟩
  · rw [made.out, List.append_nil, Join.asOf, made.mark, all α _ made.a, all β _ made.b]
  · rw [made.runs]
    exact fun r inside => absurd inside List.not_mem_nil

end join

/-! ### Orders and payments -/

/-- Rows of an order's number and its time: an order and a payment within 10 s of it. -/
def paid (unit : TimeUnit) : Join (Nat × Int) (Nat × Int) (Nat × Int × Int) where
  on x y := decide (x.1 = y.1) &&
    decide (unit.nanos x.2 - unit.nanos y.2 ≤ 10 * 1000000000) &&
    decide (unit.nanos y.2 - unit.nanos x.2 ≤ 10 * 1000000000)
  row x y := (x.1, x.2, y.2)
  time := some (⟨unit, fun x => some x.2⟩, ⟨unit, fun y => some y.2⟩)
  within := some 10

theorem paid_bounded (unit : TimeUnit) : (paid unit).Bounded := by
  intro ta tb w time within x y pair
  cases time
  cases within
  simp only [paid, Bool.and_eq_true, decide_eq_true_eq] at pair
  exact ⟨x.2, y.2, rfl, rfl, pair.1.2, pair.2⟩

/-- A view made over an order already paid. -/
def orders : Streams (Nat × Int) (Nat × Int) (Nat × Int × Int) :=
  ⟨1, [(1, (1, 100))], [(1, (1, 105))], 1, [], []⟩

def paidLater : List (JoinOp (Nat × Int) (Nat × Int)) :=
  [.commit [(2, 120)] [], .look, .commit [(3, 150)] [(2, 130), (3, 161)], .look, .append 0, .append 1,
    .append 0, .look, .append 2, .append 2]

theorem paidLater_joined :
    let s := (joins (paid .second)).run orders paidLater
    s.out = [(2, 120, 130)] ∧
      ((paid .second).query [(1, 100)] [(1, 105)] ++ s.out).Perm ((paid .second).asOf s s.mark) := by
  have sure : ∀ (s : Streams (Nat × Int) (Nat × Int) (Nat × Int × Int))
      (op : JoinOp (Nat × Int) (Nat × Int)), joinSure (paid .second) s op := by
    intro s op
    cases op with
    | append i =>
      intro r _ _ _
      refine whole_coarse _ (paid_bounded .second) ?_ s r.prev r.seq
      intro ta tb time
      cases time
      exact ⟨by decide, by decide⟩
    | commit | look => trivial
  have legal : ∀ s (ops : List (JoinOp (Nat × Int) (Nat × Int))),
      ((joins (paid .second)).only (joinSure (paid .second))).Legal s ops := by
    intro s ops
    induction ops generalizing s with
    | nil => trivial
    | cons op rest ih => exact ⟨⟨trivial, sure s op⟩, ih _⟩
  exact ⟨by decide, run_joined (paid .second) orders paidLater
    ⟨rfl, by decide, by decide, rfl, rfl⟩ (legal _ _)⟩

/-- A view made over empty tables. -/
def noOrders : Streams (Nat × Int) (Nat × Int) (Nat × Int × Int) := ⟨0, [], [], 0, [], []⟩

def paidOnce : Streams (Nat × Int) (Nat × Int) (Nat × Int × Int) :=
  (joins (paid .nano)).run noOrders [.commit [(1, 1000999)] [(1, 10001000999)], .look, .append 0]

/-- The pair that was there when the view was made is not appended; and a pair 10 s apart is cut
off where the order's time in ns is rounded down to µs. -/
theorem paid_missing :
    (orders.Made ∧ ¬((joins (paid .second)).run orders paidLater).out.Perm
      ((paid .second).asOf ((joins (paid .second)).run orders paidLater)
        ((joins (paid .second)).run orders paidLater).mark)) ∧
    (noOrders.Made ∧ paidOnce.mark = 1 ∧ paidOnce.out = [] ∧
      (paid .nano).asOf paidOnce paidOnce.mark = [(1, 1000999, 10001000999)]) := by
  refine ⟨⟨⟨rfl, by decide, by decide, rfl, rfl⟩, fun same => ?_⟩,
    ⟨rfl, by decide, by decide, rfl, rfl⟩, by decide, by decide, by decide⟩
  have lengths := same.length_eq
  revert lengths
  decide

end Pondra.Views
