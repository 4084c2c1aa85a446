import Mathlib
import Pondra.Watermark.Runs
import Std.Data.String.ToInt

set_option autoImplicit false

/-! ### The watermark of a fixed newest time -/

namespace Pondra.Watermark

open Machines Dicts Manifests

/-- A part's watermark stays within 64 bits. -/
structure Within64 (time : Int) (lateness now : Nat) : Prop where
  late : (lateness : Int) * 1000000 < 2 ^ 63
  low : -(2 ^ 63) ≤ time - lateness * 1000000
  high : time - lateness * 1000000 + now * 1000 < 2 ^ 63
  clock : (now : Int) * 1000 < 2 ^ 63

theorem wrap64_of_fits {n : Int} (low : -(2 ^ 63) ≤ n) (high : n < 2 ^ 63) : wrap64 n = n := by
  rw [wrap64]
  apply Int.bmod_eq_of_le <;> omega

theorem ofPart_fits {time : Int} {lateness now : Nat} (fits : Within64 time lateness now) (idle : Option Nat)
    (since : Nat) : ofPart time lateness idle since now = time - lateness * 1000000 +
      idle.elim 0 fun idle => if idle * 1000 % 2 ^ 64 ≤ now - since then ((now - since : Nat) : Int) * 1000 else 0 := by
  obtain ⟨late, low, high, clock⟩ := fits
  have early : wrap64 (time - wrap64 (lateness * 1000000)) = time - lateness * 1000000 := by
    rw [wrap64_of_fits (n := (lateness : Int) * 1000000) (by omega) late]
    apply wrap64_of_fits <;> omega
  have quiet : ((now - since : Nat) : Int) ≤ now := Int.ofNat_le.mpr (Nat.sub_le now since)
  cases idle with
  | none =>
    rw [Option.elim_none, Int.add_zero]
    exact early
  | some idle =>
    rw [Option.elim_some]
    simp only [ofPart]
    rw [early]
    by_cases long : idle * 1000 % 2 ^ 64 ≤ now - since
    · rw [if_pos long, if_pos long, wrap64_of_fits (n := ((now - since : Nat) : Int) * 1000) (by omega) (by omega)]
      apply wrap64_of_fits <;> omega
    · rw [if_neg long, if_neg long, Int.add_zero]

/-- The clock does not go back, nor does a part's watermark. -/
theorem ofPart_mono {time : Int} {lateness now later : Nat} (fits : Within64 time lateness now)
    (fits' : Within64 time lateness later) (le : now ≤ later) (idle : Option Nat) (since : Nat) :
    ofPart time lateness idle since now ≤ ofPart time lateness idle since later := by
  rw [ofPart_fits fits, ofPart_fits fits']
  apply Int.add_le_add_left
  cases idle with
  | none => exact Int.le_refl _
  | some idle =>
    rw [Option.elim_some, Option.elim_some]
    have quiet : now - since ≤ later - since := Nat.sub_le_sub_right le since
    split <;> split <;> omega

section clocks

variable {s s' : Since} {part : String} {time : Int} {now : Nat}

theorem since_congr (same : s.lookup part = s'.lookup part) : (since s part time now).2 = (since s' part time now).2 := by
  simp only [since, same]

theorem since_ne {other : String} (differ : other ≠ part) : (since s part time now).1.lookup other = s.lookup other :=
  AList.lookup_insert_ne differ

/-- A newest time once seen keeps its clock. -/
theorem since_again (later : Nat) (same : s'.lookup part = (since s part time now).1.lookup part) :
    (since s' part time later).2 = (since s part time now).2 := by
  simp only [since, AList.lookup_insert] at same ⊢
  rw [same, Option.getD_some]
  by_cases newer : ((s.lookup part).getD (time, now)).1 < time
  · simp only [if_pos newer, Int.lt_irrefl, if_false]
  · simp only [if_neg newer]

end clocks

/-- The time a part's quiet is counted from. -/
def clock (s : Since) (idle : Option Nat) (p : Σ _ : String, Int) (now : Nat) : Nat :=
  if idle.isSome then (since s p.1 p.2 now).2 else 0

theorem clock_congr {s s' : Since} {p : Σ _ : String, Int} (same : s.lookup p.1 = s'.lookup p.1) (idle : Option Nat)
    (now : Nat) : clock s idle p now = clock s' idle p now := by
  rw [clock, clock, since_congr same]

/-- The least watermark of parts whose quiet is counted from these clocks. -/
def leastBy (lateness : Nat) (idle : Option Nat) (now : Nat) (clocks : (Σ _ : String, Int) → Nat)
    (acc : Option Int) (entries : List (Σ _ : String, Int)) : Option Int :=
  entries.foldl (fun acc p =>
    let wm := ofPart p.2 lateness idle (clocks p) now
    some (acc.elim wm (min · wm))) acc

section steps

variable {lateness : Nat} {idle : Option Nat} {now : Nat}

theorem leastBy_congr {clocks clocks' : (Σ _ : String, Int) → Nat} {entries : List (Σ _ : String, Int)}
    (same : ∀ p ∈ entries, clocks p = clocks' p) (acc : Option Int) :
    leastBy lateness idle now clocks acc entries = leastBy lateness idle now clocks' acc entries := by
  apply List.foldl_ext
  intro acc p inside
  rw [same p inside]

/-- One part's step: its own clock starts, and no other part's changes. -/
theorem leastStep_spec (acc : Since × Option Int) (p : Σ _ : String, Int) :
    (leastStep lateness idle now acc p).2 = leastBy lateness idle now (fun p => clock acc.1 idle p now) acc.2 [p] ∧
      (∀ key, key ≠ p.1 → (leastStep lateness idle now acc p).1.lookup key = acc.1.lookup key) ∧
      ∀ s later, s.lookup p.1 = (leastStep lateness idle now acc p).1.lookup p.1 →
        clock s idle p later = clock acc.1 idle p now := by
  cases idle with
  | none => exact ⟨rfl, fun _ _ => rfl, fun _ _ _ => rfl⟩
  | some idle => exact ⟨rfl, fun key differ => since_ne differ, fun s later same => since_again later same⟩

/-- The parts' clocks are started once: whatever the clock is later, each part's quiet is counted from there. -/
theorem leastStep_run (entries : List (Σ _ : String, Int)) (distinct : (entries.map Sigma.fst).Nodup)
    (acc : Since × Option Int) :
    (entries.foldl (leastStep lateness idle now) acc).2 =
        leastBy lateness idle now (fun p => clock acc.1 idle p now) acc.2 entries ∧
      (∀ key, key ∉ entries.map Sigma.fst →
        (entries.foldl (leastStep lateness idle now) acc).1.lookup key = acc.1.lookup key) ∧
      ∀ p ∈ entries, ∀ later,
        clock (entries.foldl (leastStep lateness idle now) acc).1 idle p later = clock acc.1 idle p now := by
  induction entries generalizing acc with
  | nil => exact ⟨rfl, fun _ _ => rfl, fun p inside => absurd inside List.not_mem_nil⟩
  | cons head rest ih =>
    rw [List.map_cons, List.nodup_cons] at distinct
    obtain ⟨apart, distinct⟩ := distinct
    obtain ⟨first, others, own⟩ := @leastStep_spec lateness idle now acc head
    obtain ⟨value, frame, clocks⟩ := ih distinct (leastStep lateness idle now acc head)
    have kept : ∀ p ∈ rest, ∀ later, clock (leastStep lateness idle now acc head).1 idle p later =
        clock acc.1 idle p later := by
      intro p inside later
      apply clock_congr
      apply others
      intro same
      exact apart (same ▸ List.mem_map_of_mem inside)
    rw [List.foldl_cons]
    refine ⟨?_, ?_, ?_⟩
    · rw [value, leastBy_congr fun p inside => kept p inside now, first]
      rfl
    · intro key outside
      rw [List.map_cons, List.mem_cons, not_or] at outside
      exact (frame key outside.2).trans (others key outside.1)
    · intro p inside later
      rcases List.mem_cons.mp inside with rfl | inside
      · exact own _ later (frame p.1 apart)
      · exact (clocks p inside later).trans (kept p inside now)

end steps

/-- Calls that find the same newest times: each part's quiet is counted from the first. -/
theorem marks_eq (parts : Parts) (lateness : Nat) (idle : Option Nat) (nows : List Nat) (s : Since)
    (clocks : (Σ _ : String, Int) → Nat)
    (same : ∀ p ∈ parts.entries, ∀ later ∈ nows, clock s idle p later = clocks p) :
    marks parts lateness idle s nows = nows.map fun now => leastBy lateness idle now clocks none parts.entries := by
  induction nows generalizing s with
  | nil => rfl
  | cons now rest ih =>
    obtain ⟨value, _, settled⟩ :=
      @leastStep_run lateness idle now parts.entries parts.nodupKeys (s, none)
    have here : ∀ p ∈ parts.entries, clock s idle p now = clocks p := fun p inside => same p inside now List.mem_cons_self
    rw [List.map_cons, marks]
    congr 1
    · exact value.trans (leastBy_congr here none)
    · exact ih _ fun p inside later _ => (settled p inside later).trans (here p inside)

/-- Parts whose watermarks do not go back: neither does the least of them. -/
theorem leastBy_mono {lateness now later : Nat} {idle : Option Nat} {clocks : (Σ _ : String, Int) → Nat}
    (entries : List (Σ _ : String, Int))
    (each : ∀ p ∈ entries, ofPart p.2 lateness idle (clocks p) now ≤ ofPart p.2 lateness idle (clocks p) later)
    (acc acc' : Option Int) (first : ∀ wm wm', wm ≤ wm' → acc.elim wm (min · wm) ≤ acc'.elim wm' (min · wm'))
    (before : AtLeast acc' acc) :
    AtLeast (leastBy lateness idle later clocks acc' entries) (leastBy lateness idle now clocks acc entries) := by
  induction entries generalizing acc acc' with
  | nil => exact before
  | cons p rest ih =>
    have head := first _ _ (each p List.mem_cons_self)
    apply ih fun q inside => each q (List.mem_cons_of_mem _ inside)
    · intro wm wm' le
      rw [Option.elim_some, Option.elim_some]
      omega
    · intro y is
      rw [← Option.some.inj is]
      exact ⟨_, rfl, head⟩

/-- The clock does not go back, nor does the watermark of a fixed newest time. -/
theorem marks_mono (parts : Parts) (lateness : Nat) (idle : Option Nat) (s : Since) (nows : List Nat)
    (fits : ∀ p ∈ parts.entries, ∀ now ∈ nows, Within64 p.2 lateness now) (forward : nows.Pairwise (· ≤ ·)) :
    (marks parts lateness idle s nows).Pairwise fun a b => AtLeast b a := by
  cases nows with
  | nil => exact List.Pairwise.nil
  | cons now rest =>
    obtain ⟨first, _, settled⟩ :=
      @leastStep_run lateness idle now parts.entries parts.nodupKeys (s, none)
    have after := marks_eq parts lateness idle rest _ (fun p => clock s idle p now) fun p inside later _ =>
      settled p inside later
    have whole : marks parts lateness idle s (now :: rest) = (now :: rest).map fun later =>
        leastBy lateness idle later (fun p => clock s idle p now) none parts.entries := by
      rw [marks, List.map_cons]
      exact congrArg₂ List.cons first after
    rw [whole, List.pairwise_map]
    apply forward.imp_of_mem
    intro a b inA inB le
    apply leastBy_mono parts.entries _ none none
    · exact fun wm wm' le => le
    · exact AtLeast.refl none
    · exact fun p inside => ofPart_mono (fits p inside a inA) (fits p inside b inB) le idle _

/-! ### The watermark goes forward -/

section forward

variable {τ ν : Type}

/-- The answers of `newest_parts`, in the order they were given: each no less than those before it, at most the
newest row committed by the moment it was given, and at least the newest that was visible when its call began. -/
structure Holds (t : Times τ ν) (s : Node ν) : Prop where
  inOrder : s.answers.Pairwise fun a b => AtLeast (newest b.parts) (newest a.parts)
  atMost : ∀ a ∈ s.answers, ∀ x, newest a.parts = some x →
    ∃ n v, (n, some v) ∈ s.committed ∧ n ≤ a.now ∧ x ≤ t.us v
  atLeast : ∀ a ∈ s.answers, ∀ n v, (n, some v) ∈ s.committed → n ≤ a.began →
    ∃ x, newest a.parts = some x ∧ t.us v ≤ x

/-- The watermarks of a fixed newest time, as the clock goes forward. -/
def Forward (parts : Parts) (lateness : Nat) (idle : Option Nat) (s : Since) (nows : List Nat) : Prop :=
  nows.Pairwise (· ≤ ·) → (marks parts lateness idle s nows).Pairwise fun a b => AtLeast b a

theorem run_watermark (t : Times τ ν) (lawful : Lawful t) (tiered : Nat) (ops : List (Op ν))
    (legal : ((table t).only (Ranged t)).Legal (.new tiered) ops) :
    Holds t ((table t).run (.new tiered) ops) ∧
      ∀ parts lateness idle s nows, (∀ p ∈ parts.entries, ∀ now ∈ nows, Within64 p.2 lateness now) →
        Forward parts lateness idle s nows := by
  constructor
  · obtain ⟨inOrder, _, _, atMost, atLeast⟩ := (run_inv lawful tiered ops legal).answers
    exact ⟨inOrder, atMost, atLeast⟩
  · intro parts lateness idle s nows fits forward
    exact marks_mono parts lateness idle s nows fits forward

/-- A time column `"at"` of µs. -/
def micros : Times Unit Int where
  scalars := ⟨fun _ => String.toInt?, fun v => some (Int.repr v), fun a b => some (cmp a b)⟩
  schema := AList.singleton "at" ()
  time := "at"
  type := ()
  us := id

theorem micros_notAfter (a b : Int) : Least.NotAfter micros.scalars.cmp a b ↔ a ≤ b := by
  rw [Least.NotAfter, le_iff_lt_or_eq]
  exact or_congr (Option.some_inj.trans (cmp_eq_lt_iff a b)) (Option.some_inj.trans (cmp_eq_eq_iff a b))

theorem micros_lawful : Lawful micros where
  sound := by
    constructor
    · intro t
      refine ⟨fun _ _ _ _ => rfl, fun a b o _ _ told => ?_, fun a b c _ _ _ ab bc => ?_⟩
      · rw [← Option.some.inj told]
        exact congrArg some (cmp_swap a b).symm
      · have first := (micros_notAfter a b).mp ab
        have second := (micros_notAfter b c).mp bc
        exact (micros_notAfter a c).mpr (le_trans first second)
    · intro t s v s' _ is
      rw [← Option.some.inj is]
      exact Int.toInt?_repr v
  typed := AList.lookup_insert ∅
  written _ _ _ := rfl
  mono a b := (micros_notAfter a b).mp

/-- Rows at these times, with their range. -/
def fileOf (lo hi : Int) : File Int :=
  ⟨AList.singleton "at" (Int.repr lo, Int.repr hi), [some lo, none, some hi]⟩

theorem fileOf_range (lo hi : Int) :
    rangeIn micros.scalars micros.type micros.time (fileOf lo hi).stats = some (lo, hi) :=
  rangeIn_some.mpr ⟨_, AList.lookup_insert ∅, Int.toInt?_repr lo, Int.toInt?_repr hi⟩

theorem fileOf_told {lo hi : Int} (le : lo ≤ hi) : Told micros (fileOf lo hi) where
  covers v inside := by
    refine ⟨lo, hi, fileOf_range lo hi, (micros_notAfter v hi).mpr ?_⟩
    simp only [fileOf, List.mem_cons, Option.some.injEq, List.not_mem_nil, or_false, reduceCtorEq, false_or] at inside
    omega
  ends lo' hi' is := by
    rw [fileOf_range] at is
    have same := (Prod.mk.inj (Option.some.inj is)).2
    exact ⟨hi, by simp [fileOf], (micros_notAfter hi' hi).mpr (ge_of_eq same)⟩

def forwardOps : List (Op Int) :=
  [.commit [some 100, none, some 200] [], .tier 1 [fileOf 100 200], .start, .commit [some 150] [], .look 0, .load 0,
    .tail 0, .finish 0]

theorem forward_newest : Holds micros ((table micros).run (.new 0) forwardOps) ∧
    Forward (AList.singleton "" 200) 60 (some 300) ∅ [1000, 400000, 500000] := by
  obtain ⟨holds, forward⟩ := run_watermark micros micros_lawful 0 forwardOps (by
    refine ⟨⟨nofun, trivial⟩, ⟨⟨by decide, by decide, ?_, by decide⟩, trivial⟩, ⟨trivial, trivial⟩, ⟨nofun, trivial⟩,
      ⟨trivial, trivial⟩, ⟨trivial, trivial⟩, ⟨trivial, ?_⟩, ⟨trivial, trivial⟩, trivial⟩
    · intro f inside
      rw [List.mem_singleton.mp inside]
      exact fileOf_told (by decide)
    · intro c held upto seen parts _ _
      rw [← Option.some.inj held]
      refine .inl fun part inside => ?_
      rw [List.mem_singleton.mp inside, fileOf_range]
      rfl)
  refine ⟨holds, forward _ _ _ _ _ ?_⟩
  intro p inside now at_
  rw [List.mem_singleton.mp inside]
  simp only [List.mem_cons, List.not_mem_nil, or_false] at at_
  rcases at_ with rfl | rfl | rfl <;> constructor <;> decide

/-- Rows without a time: their file has no range of it. -/
def untimed : File Int := ⟨∅, [none]⟩

def unrangedOps : List (Op Int) :=
  [.commit [some 100, none, some 200] [], .tier 1 [fileOf 100 200], .commit [none] [], .tier 2 [untimed], .start,
    .look 0, .load 0, .tail 0, .finish 0]

/-- A file without a range: the table has none. -/
theorem untimed_fold :
    look micros [⟨1, [some 100, none, some 200], []⟩, ⟨2, [none], []⟩] ⟨2, [fileOf 100 200, untimed], []⟩ 2 0 ∅ =
      some (2, ∅) := by
  have none_ : (union micros.scalars [(fileOf 100 200).stats, untimed.stats] micros.schema).lookup "at" = none := by
    rw [Option.eq_none_iff_forall_ne_some]
    intro range found
    rw [union_lookup (List.cons_ne_nil _ _)] at found
    obtain ⟨type, _, found⟩ := Option.bind_eq_some_iff.mp found
    obtain ⟨_, _, _, _, all⟩ := spanning_spec micros_lawful.sound found
    obtain ⟨lo, hi, is, _⟩ := all untimed.stats (by simp)
    cases is
  have folded : fold micros ⟨2, [fileOf 100 200, untimed], []⟩ 0 ∅ = some (2, ∅) := by
    rw [fold, if_pos (by decide)]
    have parts : (Entry.parts ⟨2, [fileOf 100 200, untimed], []⟩) = [(fileOf 100 200).stats, untimed.stats] := rfl
    have time : micros.time = "at" := rfl
    rw [parts, time, none_]
  rw [look, folded]
  rfl

theorem next_tail [DecidableEq τ] (t : Times τ ν) {s : Node ν} {i upto seen : Nat} {parts : Parts}
    {c : Call ν} {found : Nat × Parts} (held : s.calls[i]? = some c)
    (phase : c.phase = .loaded upto seen parts)
    (read : look t s.log c.entry upto seen parts = some found) :
    next t s (.tail i) = s.setCall i c (.read found.1 found.2) := by
  simp only [next, held, phase, read]

/-- Rows at 100 and 200 are in files, and a call finds no time. -/
theorem unranged_lost : (table micros).Legal (.new 0) unrangedOps ∧
    ¬ Holds micros ((table micros).run (.new 0) unrangedOps) := by
  constructor
  · refine ⟨nofun, ⟨by decide, by decide, ?_, by decide⟩, nofun, ⟨by decide, by decide, ?_, by decide⟩, trivial, trivial,
      trivial, trivial, trivial, trivial⟩
    · intro f inside
      rw [List.mem_singleton.mp inside]
      exact fileOf_told (by decide)
    · intro f inside
      rw [List.mem_singleton.mp inside]
      exact ⟨fun v inside => (by cases List.mem_singleton.mp inside), fun _ _ is => (by cases is)⟩
  · intro holds
    let call : Call Int := ⟨⟨2, [fileOf 100 200, untimed], []⟩, 2, .loaded 2 0 ∅⟩
    let loaded : Node Int := (table micros).run (.new 0) (unrangedOps.take 7)
    have tail : next micros loaded (.tail 0) = loaded.setCall 0 call (.read 2 ∅) :=
      @next_tail _ _ _ micros loaded 0 2 0 ∅ call (2, ∅) rfl rfl untimed_fold
    have run : (table micros).run (.new 0) unrangedOps = next micros (next micros loaded (.tail 0)) (.finish 0) := rfl
    rw [run, tail] at holds
    obtain ⟨x, is, _⟩ := holds.atLeast ⟨2, 2, ∅⟩ (List.mem_singleton_self _) 1 200
      (List.mem_of_getElem? (i := 2) rfl) (by decide)
    cases is

end forward

end Pondra.Watermark
