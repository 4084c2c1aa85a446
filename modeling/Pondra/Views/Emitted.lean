import Mathlib.Algebra.Group.Nat.Defs
import Mathlib.Data.Int.Order.Basic
import Mathlib.Order.Nat
import Pondra.Views.Final

set_option autoImplicit false

namespace Pondra.Views

open Grouping Machines

variable {β κ μ : Type} [LinearOrder β] (w : Window β)

/-! ### Marks and late rows -/

theorem marks_le (a b : Int) (x y : β) (less : a ≤ b) (first : w.marks a = some x)
    (second : w.marks b = some y) : x ≤ y :=
  w.grows _ _ x y (w.casts a b less) first second

theorem kept_iff (done : Nat) (r : Row κ μ) :
    w.kept done r = true ↔ ∃ b lo, r.bucket w = some b ∧ w.marks done = some lo ∧ b < lo := by
  rw [Window.kept]
  rcases r.bucket w with _ | b <;> rcases w.marks done with _ | lo
  all_goals simp

/-- A row before a mark's bucket is before any later mark's. -/
theorem kept_mono (done more : Nat) (r : Row κ μ) (less : done ≤ more)
    (marked : ∃ hi, w.marks more = some hi) (kept : w.kept done r = true) :
    w.kept more r = true := by
  obtain ⟨b, lo, own, mark, before⟩ := (kept_iff w done r).mp kept
  obtain ⟨hi, later⟩ := marked
  exact (kept_iff w more r).mpr ⟨b, hi, own, later,
    before.trans_le (marks_le w done more lo hi (by omega) mark later)⟩

/-- A row no older than the mark is not before its bucket. -/
theorem not_kept (done : Nat) (r : Row κ μ) (some : 0 < done)
    (newer : ∀ t, r.time = Option.some t → (done : Int) ≤ w.micros t) : w.kept done r = false := by
  by_contra kept
  obtain ⟨b, lo, own, mark, before⟩ := (kept_iff w done r).mp (by simpa using kept)
  obtain ⟨t, time, is⟩ := Option.bind_eq_some_iff.mp own
  have less := w.grows _ _ lo b (w.later done t (by omega) (newer t time)) mark is
  exact absurd before (not_lt_of_ge less)

/-- The count of late rows is each batch's rows before the mark's bucket. -/
theorem late_eq (done : Nat) (batches : List (List (Row κ μ))) :
    w.late done batches =
      batches.flatten.countP fun r => decide (done ≠ 0) && w.kept done r := by
  rw [Window.late]
  split
  · rename_i none
    subst none
    exact (List.countP_eq_zero.mpr fun r _ => by simp).symm
  · rename_i some
    rw [List.countP_flatten]
    refine congrArg List.sum (List.map_congr_left fun rows _ => ?_)
    have same : (fun r : Row κ μ => decide (done ≠ 0) && w.kept done r) = w.kept done := by
      funext r
      simp [some]
    rw [same]
    split
    · rename_i newer
      refine (List.countP_eq_zero.mpr fun r inside => ?_).symm
      rw [not_kept w done r (Nat.pos_of_ne_zero some) fun t time => ?_]
      · simp
      · have there : w.micros t ∈ rows.filterMap fun r => r.time.map w.micros :=
          List.mem_filterMap.mpr ⟨r, inside, by rw [time]; rfl⟩
        cases least : (rows.filterMap fun r => r.time.map w.micros).min? with
        | none =>
          rw [List.min?_eq_none_iff.mp least] at there
          cases there
        | some m =>
          rw [least] at newer
          exact Int.le_trans (of_decide_eq_true newer) ((List.min?_eq_some_iff.mp least).2 _ there)
    · rfl

theorem range_spec (done : Nat) (wm : Int) (lo : Option β) (hi : β)
    (range : w.range done wm = some (lo, hi)) :
    lo = w.marks done ∧ w.marks wm = some hi ∧ (done : Int) < wm := by
  rw [Window.range] at range
  split at range
  · cases range
  · rename_i more
    split at range
    · cases range
    · rename_i mark
      split at range
      · cases range
      · cases range
        exact ⟨rfl, mark, by omega⟩

/-! ### The groups read -/

/-- The source's rows as the view derives them. -/
def derivedRows (rows : List (Row κ μ × Bool)) : List ((Option β × κ) × μ) :=
  rows.map fun r => r.1.derived w

theorem derivedRows_append (before after : List (Row κ μ × Bool)) :
    derivedRows w (before ++ after) = derivedRows w before ++ derivedRows w after :=
  List.map_append

section groups

variable [DecidableEq κ] [AddCommMonoid μ]

theorem mem_taken (done : Nat) (lo : Option β) (hi : β) (opened : List ((Option β × κ) × μ))
    (g : (β × κ) × μ) : g ∈ taken done lo hi opened ↔
      inRange done lo hi g.1.1 = true ∧ (some g.1.1, g.1.2) ∈ opened.map (·.1) ∧
        g.2 = combined opened (some g.1.1, g.1.2) := by
  rw [taken, List.mem_filterMap]
  constructor
  · rintro ⟨r, inside, is⟩
    obtain ⟨b, bucket, is⟩ := Option.bind_eq_some_iff.mp is
    split at is
    · rename_i within
      cases is
      obtain ⟨there, value⟩ := (mem_grouped opened r).mp inside
      have group : r.1 = (some b, r.1.2) := Prod.ext bucket rfl
      exact ⟨within, group ▸ there, value.trans (by rw [group])⟩
    · cases is
  · rintro ⟨within, there, value⟩
    refine ⟨((some g.1.1, g.1.2), g.2), (mem_grouped opened _).mpr ⟨there, value⟩, ?_⟩
    rw [Option.bind_some, if_pos within]

theorem taken_nodup (done : Nat) (lo : Option β) (hi : β) (opened : List ((Option β × κ) × μ)) :
    ((taken done lo hi opened).map (·.1)).Nodup := by
  rw [taken]
  have groups : ∀ rows : List ((Option β × κ) × μ), (rows.map (·.1)).Nodup →
      ((rows.filterMap fun r => r.1.1.bind fun b =>
        if inRange done lo hi b then some ((b, r.1.2), r.2) else none).map (·.1)).Nodup := by
    intro rows once
    induction rows with
    | nil => simp
    | cons r rest ih =>
      rw [List.map_cons, List.nodup_cons] at once
      rw [List.filterMap_cons]
      split
      · exact ih once.2
      · rename_i g is
        rw [List.map_cons, List.nodup_cons]
        refine ⟨fun again => once.1 ?_, ih once.2⟩
        obtain ⟨other, inside, same⟩ := List.mem_map.mp again
        obtain ⟨r', there, is'⟩ := List.mem_filterMap.mp inside
        have group : ∀ (x : (Option β × κ) × μ) (y : (β × κ) × μ), (x.1.1.bind fun b =>
            if inRange done lo hi b then some ((b, x.1.2), x.2) else none) = some y →
            x.1 = (some y.1.1, y.1.2) := by
          intro x y is
          obtain ⟨b, bucket, is⟩ := Option.bind_eq_some_iff.mp is
          split at is
          · cases is
            exact Prod.ext bucket rfl
          · cases is
        rw [group r g is, ← same, ← group r' other is']
        exact List.mem_map_of_mem there
  exact groups _ (grouped_nodup opened)

/-! ### The invariant -/

structure Inv (s : Final β κ μ) : Prop where
  right : s.Right w
  sums : ∀ g, combined s.opened g = combined (derivedRows w s.source) g
  groups : ∀ g, g ∈ s.opened.map (·.1) ↔ g ∈ (derivedRows w s.source).map (·.1)
  marked : 0 < s.mark → ∃ hi, w.marks s.mark = some hi
  view : ∀ e ∈ s.view, 0 < s.mark
  behind : ∀ r ∈ s.source, r.2 = true → 0 < s.mark ∧ w.kept s.mark r.1 = true
  flushes : ∀ f ∈ s.flushes, f.seen ≤ s.mark ∧
    f.partials = grouped (f.batches.flatten.map (·.derived w)) ∧ f.late = w.late f.seen f.batches
  rounds : ∀ r ∈ s.rounds, r.lo = w.marks r.prev ∧ w.marks r.seq = some r.hi ∧
    ∀ rows ∈ r.rows, r.read ≤ s.source.length ∧ (rows.map (·.1)).Nodup ∧
      ∀ g : (β × κ) × μ, g ∈ rows ↔ inRange r.prev r.lo r.hi g.1.1 = true ∧
        (some g.1.1, g.1.2) ∈ (derivedRows w (s.source.take r.read)).map (·.1) ∧
        g.2 = combined (derivedRows w (s.source.take r.read)) (some g.1.1, g.1.2)

theorem right_of_same (s t : Final β κ μ) (source : t.source = s.source) (view : t.view = s.view)
    (late : t.late = s.late) (mark : t.mark = s.mark) (right : s.Right w) : t.Right w := by
  obtain ⟨once, whole, ended, each, counted⟩ := right
  refine ⟨?_, ?_, ?_, ?_, ?_⟩ <;> simp only [source, view, late, mark] <;> assumption

theorem made_inv : Inv w (made : Final β κ μ) where
  right := ⟨by simp [made], by simp [made], by simp [made], by simp [made], rfl⟩
  sums _ := rfl
  groups _ := Iff.rfl
  marked := by simp [made]
  view := by simp [made]
  behind := by simp [made]
  flushes := by simp [made]
  rounds := by simp [made]

section steps

variable (s : Final β κ μ) (inv : Inv w s)

include inv

theorem land_inv (i : Nat) (sure : Sure w s (.land i)) : Inv w (next w s (.land i)) := by
  rw [next]
  cases found : s.flushes[i]? with
  | none => exact inv
  | some f =>
    obtain ⟨seen, partials, late⟩ := inv.flushes f (List.mem_of_getElem? found)
    let counts (r : Row κ μ) : Bool := decide (f.seen ≠ 0) && w.kept f.seen r
    let new : List (Row κ μ × Bool) := f.batches.flatten.map fun r => (r, counts r)
    have rows : derivedRows w new = f.batches.flatten.map (·.derived w) := by
      rw [derivedRows, List.map_map]
      rfl
    have grown : s.source.length ≤ (s.source ++ new).length := by simp
    have caught := sure f found
    refine ⟨⟨inv.right.once, ?_, inv.right.ended, ?_, ?_⟩, ?_, ?_, inv.marked, inv.view, ?_, ?_, ?_⟩
    · intro e kept
      obtain ⟨within, value⟩ := inv.right.whole e kept
      refine ⟨within.trans grown, ?_⟩
      rw [value]
      dsimp only
      rw [List.take_append_of_le_length within]
    · intro j r flag at_ some kept
      rcases Nat.lt_or_ge j s.source.length with old | fresh
      · dsimp only at at_
        rw [List.getElem?_append_left old] at at_
        exact inv.right.each j r flag at_ some kept
      · dsimp only at at_
        rw [List.getElem?_append_right fresh] at at_
        obtain ⟨r', inside, is⟩ := List.mem_map.mp (List.mem_of_getElem? at_)
        cases is
        obtain ⟨counted, before⟩ := caught r inside kept some
        rw [before, decide_eq_true counted]
        exact fun e kept _ _ => (inv.right.whole e kept).1.trans fresh
    · dsimp only
      rw [List.countP_append, ← inv.right.counted, late, late_eq, List.countP_map]
      rfl
    · intro g
      change combined (s.opened ++ f.partials) g = combined (derivedRows w (s.source ++ new)) g
      rw [combined_append, derivedRows_append, combined_append, inv.sums, partials, combined_grouped,
        rows]
    · intro g
      change g ∈ (s.opened ++ f.partials).map (·.1) ↔
        g ∈ (derivedRows w (s.source ++ new)).map (·.1)
      rw [derivedRows_append, List.map_append, List.map_append, List.mem_append, List.mem_append,
        inv.groups, partials, mem_grouped_keys, rows]
    · intro r inside flagged
      rcases List.mem_append.mp inside with old | fresh
      · exact inv.behind r old flagged
      · obtain ⟨r', _, rfl⟩ := List.mem_map.mp fresh
        rw [Bool.and_eq_true, decide_eq_true_eq] at flagged
        have some : 0 < s.mark := by omega
        exact ⟨some, kept_mono w f.seen s.mark r' seen (inv.marked some) flagged.2⟩
    · exact fun other inside => inv.flushes other (List.mem_of_mem_eraseIdx inside)
    · intro r inside
      obtain ⟨lo, hi, read⟩ := inv.rounds r inside
      refine ⟨lo, hi, fun rows is => ?_⟩
      obtain ⟨within, once, groups⟩ := read rows is
      refine ⟨within.trans grown, once, fun g => ?_⟩
      dsimp only
      rw [List.take_append_of_le_length within]
      exact groups g

theorem read_inv (i : Nat) : Inv w (next w s (.read i)) := by
  refine { inv with
    right := right_of_same w s _ rfl rfl rfl rfl inv.right
    rounds := fun r inside => ?_ }
  obtain ⟨j, at_⟩ := List.mem_iff_getElem?.mp inside
  change (s.rounds.modify i _)[j]? = some r at at_
  rw [List.getElem?_modify] at at_
  obtain ⟨r', found, is⟩ := Option.map_eq_some_iff.mp at_
  obtain ⟨lo, hi, read⟩ := inv.rounds r' (List.mem_of_getElem? found)
  split at is
  · split at is
    · subst is
      exact ⟨lo, hi, read⟩
    · subst is
      refine ⟨lo, hi, fun rows is => ?_⟩
      cases is
      refine ⟨Nat.le_refl _, taken_nodup _ _ _ _, fun g => ?_⟩
      change _ ↔ _ ∧ _ ∈ (derivedRows w (s.source.take s.source.length)).map (·.1) ∧
        _ = combined (derivedRows w (s.source.take s.source.length)) _
      rw [mem_taken, List.take_length, inv.groups, inv.sums]
  · subst is
    exact ⟨lo, hi, read⟩

/-- A round appended: its groups come after those before its mark, each with all its rows. -/
theorem append_inv (i : Nat) (sure : Sure w s (.append i)) : Inv w (next w s (.append i)) := by
  rw [next]
  cases found : s.rounds[i]? with
  | none => exact inv
  | some r =>
    cases read : r.rows with
    | none =>
      simp only [read]
      exact inv
    | some rows =>
      simp only [read]
      split
      · rename_i fits
        obtain ⟨prev, more⟩ := fits
        obtain ⟨lo, hi, spec⟩ := inv.rounds r (List.mem_of_getElem? found)
        obtain ⟨within, once, groups⟩ := spec rows read
        have unread := sure r found (by simp [read]) prev more
        rw [prev] at lo groups unread
        have marks : 0 < s.mark → ∃ l, r.lo = some l ∧ l ≤ r.hi := fun some => by
          obtain ⟨l, mark⟩ := inv.marked some
          exact ⟨l, lo.trans mark, marks_le w s.mark r.seq l r.hi (by omega) mark hi⟩
        have fresh : ∀ g ∈ rows, g.1.1 < r.hi ∧ ∀ l, r.lo = some l → 0 < s.mark → l ≤ g.1.1 := by
          intro g inside
          have range := ((groups g).mp inside).1
          rw [inRange, Bool.and_eq_true, decide_eq_true_eq, Bool.or_eq_true, decide_eq_true_eq]
            at range
          refine ⟨range.1, fun l is some => ?_⟩
          rcases range.2 with none | above
          · omega
          · rw [is] at above
            exact of_decide_eq_true above
        refine ⟨⟨?_, ?_, ?_, ?_, inv.right.counted⟩, inv.sums, inv.groups, fun _ => ⟨_, hi⟩, ?_, ?_, ?_,
          inv.rounds⟩
        · dsimp only
          rw [List.map_append, List.map_map, List.nodup_append]
          refine ⟨inv.right.once, once, ?_⟩
          rintro _ old _ new rfl
          obtain ⟨e, kept, rfl⟩ := List.mem_map.mp old
          obtain ⟨g, inside, same⟩ := List.mem_map.mp new
          have some := inv.view e kept
          obtain ⟨l, mark, below⟩ := inv.right.ended e kept
          have above := (fresh g inside).2 l (lo.trans mark) some
          change g.1 = e.group at same
          rw [same] at above
          exact absurd below (not_lt_of_ge above)
        · intro e kept
          rcases List.mem_append.mp kept with old | new
          · exact inv.right.whole e old
          · obtain ⟨g, inside, rfl⟩ := List.mem_map.mp new
            obtain ⟨range, _, value⟩ := (groups g).mp inside
            refine ⟨Nat.le_refl _, ?_⟩
            change g.2 = combined (derivedRows w (s.source.take s.source.length)) _
            rw [List.take_length, value]
            have parts := congrArg (fun rows => combined (derivedRows w rows) (some g.1.1, g.1.2))
              (List.take_append_drop r.read s.source)
            rw [derivedRows_append, combined_append, combined_absent (derivedRows w (s.source.drop _)),
              add_zero] at parts
            · exact parts
            · intro later
              rw [derivedRows, List.map_map] at later
              obtain ⟨row, there, same⟩ := List.mem_map.mp later
              have out := unread row there g.1.1 (congrArg Prod.fst same)
              rw [range] at out
              cases out
        · intro e kept
          rcases List.mem_append.mp kept with old | new
          · obtain ⟨l, mark, below⟩ := inv.right.ended e old
            exact ⟨r.hi, hi, below.trans_le (marks_le w s.mark r.seq l r.hi (by omega) mark hi)⟩
          · obtain ⟨g, inside, rfl⟩ := List.mem_map.mp new
            exact ⟨r.hi, hi, (fresh g inside).1⟩
        · intro j row flag at_ _ before
          obtain ⟨b, h, own, mark, below⟩ := (kept_iff w r.seq row).mp before
          cases hi.symm.trans mark
          by_cases behind : 0 < s.mark ∧ w.kept s.mark row = true
          · have each := inv.right.each j row flag at_ behind.1 behind.2
            obtain ⟨b', l, own', mark', below'⟩ := (kept_iff w s.mark row).mp behind.2
            cases own.symm.trans own'
            cases flag with
            | true =>
              rw [if_pos rfl] at each ⊢
              intro e kept group key
              rcases List.mem_append.mp kept with old | new
              · exact each e old group key
              · obtain ⟨g, inside, rfl⟩ := List.mem_map.mp new
                cases own.symm.trans group
                exact absurd below' (not_lt_of_ge ((fresh g inside).2 l (lo.trans mark') behind.1))
            | false =>
              rw [if_neg (by simp)] at each ⊢
              obtain ⟨e, kept, rest⟩ := each
              exact ⟨e, List.mem_append_left _ kept, rest⟩
          · cases flag with
            | true => exact absurd (inv.behind (row, true) (List.mem_of_getElem? at_) rfl) behind
            | false =>
              rw [if_neg (by simp)]
              have range : inRange s.mark r.lo r.hi b = true := by
                rw [inRange, decide_eq_true below, Bool.true_and, Bool.or_eq_true, decide_eq_true_eq]
                rcases Nat.eq_zero_or_pos s.mark with none | some
                · exact .inl none
                · obtain ⟨l, is, _⟩ := marks some
                  refine .inr ?_
                  rw [is]
                  refine decide_eq_true (not_lt.mp fun less => behind ⟨some, ?_⟩)
                  exact (kept_iff w s.mark row).mpr ⟨b, l, own, lo.symm.trans is, less⟩
              rcases Nat.lt_or_ge j r.read with early | late
              · have there : (row, false) ∈ s.source.take r.read :=
                  List.mem_iff_getElem?.mpr ⟨j, by rw [List.getElem?_take_of_lt early]; exact at_⟩
                have inside : ((b, row.key), combined (derivedRows w (s.source.take r.read))
                    (some b, row.key)) ∈ rows := by
                  refine (groups _).mpr ⟨range, ?_, rfl⟩
                  rw [derivedRows, List.map_map]
                  exact List.mem_map.mpr ⟨_, there, Prod.ext own rfl⟩
                refine ⟨_, List.mem_append_right _ (List.mem_map_of_mem inside), own, rfl, ?_⟩
                exact early.trans_le within
              · have there : (row, false) ∈ s.source.drop r.read := by
                  refine List.mem_iff_getElem?.mpr ⟨j - r.read, ?_⟩
                  rw [List.getElem?_drop, Nat.add_sub_cancel' late]
                  exact at_
                have out := unread _ there b own
                rw [range] at out
                cases out
        · exact fun _ _ => by dsimp only; omega
        · intro row inside flagged
          obtain ⟨some, before⟩ := inv.behind row inside flagged
          exact ⟨by dsimp only; omega, kept_mono w s.mark r.seq row.1 more.le ⟨_, hi⟩ before⟩
        · intro f inside
          obtain ⟨seen, rest⟩ := inv.flushes f inside
          exact ⟨seen.trans more.le, rest⟩
      · exact inv

theorem next_inv (op : Op κ μ) (sure : Sure w s op) : Inv w (next w s op) := by
  cases op with
  | pack batches =>
    refine { inv with
      right := right_of_same w s _ rfl rfl rfl rfl inv.right
      flushes := fun f inside => ?_ }
    rcases List.mem_append.mp inside with old | new
    · exact inv.flushes f old
    · rw [List.mem_singleton.mp new]
      exact ⟨Nat.le_refl _, rfl, rfl⟩
  | land i => exact land_inv w s inv i sure
  | sendBack i =>
    exact { inv with
      right := right_of_same w s _ rfl rfl rfl rfl inv.right
      flushes := fun f inside => inv.flushes f (List.mem_of_mem_eraseIdx inside) }
  | look wm =>
    rw [next]
    split
    · rename_i lo hi range
      obtain ⟨is, mark, more⟩ := range_spec w s.mark wm lo hi range
      refine { inv with
        right := right_of_same w s _ rfl rfl rfl rfl inv.right
        rounds := fun r inside => ?_ }
      rcases List.mem_append.mp inside with old | new
      · exact inv.rounds r old
      · rw [List.mem_singleton.mp new]
        refine ⟨is, ?_, by simp⟩
        dsimp only
        rw [Int.toNat_of_nonneg (by omega)]
        exact mark
    · exact inv
  | read i => exact read_inv w s inv i
  | append i => exact append_inv w s inv i sure

end steps

theorem final_legal (s : Final β κ μ) (ops : List (Op κ μ)) : (final w).Legal s ops := by
  induction ops generalizing s with
  | nil => trivial
  | cons op rest ih => exact ⟨trivial, ih _⟩

end groups

/-! ### Minutes -/

/-- A row's minute, of times in µs, with rows of no time in no minute. -/
def minutes : Window Int where
  bucket t := some (t / 60000000)
  micros := id
  ofMicros := id
  grows a b x y less first second := by
    cases first
    cases second
    exact Int.ediv_le_ediv (by decide) less
  casts _ _ less := less
  later _ _ _ less := less

def sale (second value : Nat) (item : String) : Row String Nat :=
  ⟨some (second * 1000000), item, value⟩

instance (s : Final Int String Nat) (op : Op String Nat) : Decidable (Sure minutes s op) := by
  cases op <;> unfold Sure <;> infer_instance

instance (s : Final Int String Nat) (op : Op String Nat) :
    Decidable (((final minutes).only (Sure minutes)).Allows s op) :=
  inferInstanceAs (Decidable (True ∧ _))

/-- Two flushes, a minute kept by one of two rounds begun at one mark, a late row, and the next
minute. -/
def keptMinutes : List (Op String Nat) :=
  [.pack [[sale 10 3 "a", sale 20 4 "a"], [sale 70 5 "a"]], .land 0, .look 61000000, .look 62000000,
    .read 0, .read 1, .append 1, .append 0, .append 1, .pack [[sale 30 1 "a", sale 90 2 "b"]],
    .land 0, .look 130000000, .read 2, .append 2]

/-- A row lands between a round's read and its commit. -/
def landedBefore : List (Op String Nat) :=
  [.pack [[sale 10 3 "a"]], .land 0, .look 61000000, .read 0, .pack [[sale 30 1 "a"]], .land 0,
    .append 0]

/-- A row packed before a round's commit lands after it. -/
def landedAfter : List (Op String Nat) :=
  [.pack [[sale 10 3 "a"]], .land 0, .look 61000000, .read 0, .pack [[sale 30 1 "a"]], .append 0,
    .land 0]

end Pondra.Views
