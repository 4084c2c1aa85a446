import Pondra.Sequences.Distinct

set_option autoImplicit false

/- Sequences over whole runs: no value twice, and when no step of handing them out goes over i64. -/

namespace Pondra.Sequences

open Counters Machines Words

/-- A run's start: a sequence as its last change left it, of which no node has a block from since. -/
structure Fresh (name : String) (s : Sequence) (l : Lake) : Prop where
  synced : Synced l.cat l.held
  there : l.cat name = some s
  later : s.version ≤ l.next
  old : ∀ node, (l.blocks node name).version < s.version ∨ (l.blocks node name).left = 0
  idle : ∀ node, l.calls node = none
  given : ∀ g ∈ l.given, g.1 ≠ name
  fine : name ∉ l.over_

/-- What is handed out at once is few enough: their number times the increment is in i64. -/
def Fitting (name : String) (sh : Shape) (l : Lake) : Input → Prop
  | .hands node => ∀ c, l.calls node = some c → c.name = name →
      Fits ((c.takes (l.blocks node name)).toNat * sh.increment.toInt)
  | _ => True

section runs

variable {name : String} {sh : Shape} {l : Lake}

theorem Fresh.inv {s : Sequence} (fresh : Fresh name s l) :
    Inv name s.version s.declared sh l := by
  have none_ : l.givenOf name = [] := by
    unfold Lake.givenOf
    rw [List.map_eq_nil_iff, List.filter_eq_nil_iff]
    intro g inside
    simpa using fresh.given g inside
  have lives : ∀ node, l.live name s.version sh node = [] := by
    intro node
    rcases fresh.old node with before | out
    · unfold Lake.live Block.live
      rw [if_neg (by omega)]
    · exact Block.live_empty s.version sh out
  have nothing : ∀ node, ∀ v ∈ l.live name s.version sh node, False := by
    intro node v inside
    rw [lives] at inside
    exact List.not_mem_nil inside
  exact {
    synced := fresh.synced
    there := ⟨s, fresh.there, rfl, rfl, fun v inside => (List.not_mem_nil (none_ ▸ inside)).elim,
      fun node v inside => (nothing node v inside).elim⟩
    later := fresh.later
    nodup := none_ ▸ List.nodup_nil
    apart := fun node v inside => (nothing node v inside).elim
    split := fun node _ _ v inside => (nothing node v inside).elim
    steps := by
      intro node new some_
      rcases fresh.old node with before | out
      · omega
      · exact (some_ out).elim
    calls := by
      intro node c is
      rw [fresh.idle node] at is
      cases is }

theorem refills_over (l : Lake) (node now : Nat) : (l.refills node now).over_ = l.over_ := by
  cases called : l.calls node with
  | none => simp only [Lake.refills, called]
  | some c =>
    simp only [Lake.refills, called]
    split
    · next is =>
      have same := congrArg (fun r => r.2.over_) is
      exact same.symm
    · next is =>
      have same := congrArg (fun r => r.2.over_) is
      exact same.symm

theorem begins_over (l : Lake) (node want : Nat) (other : String) (known : Bool) :
    (l.begins node other want known).over_ = l.over_ := by
  unfold Lake.begins
  split
  · rfl
  · split <;> rfl

theorem hands_over (l : Lake) (checked : Bool) {node : Nat} {c : Call} (called : l.calls node = some c) :
    (l.hands checked node).over_ =
      if ((l.blocks node c.name).handOut true (c.takes (l.blocks node c.name))).isSome then l.over_
      else l.over_.insert c.name := by
  simp only [Lake.hands, called]
  split <;> split <;> rfl

/-- A step of handing out goes over exactly where the count times the increment doesn't fit. -/
theorem raised {version : Nat} {declared : List Opt} (inv : Inv name version declared sh l)
    (checked : Bool) (input : Input) (allowed : ((nodes checked).only (Takes name)).Allows l input) :
    name ∈ (next checked l input).over_ ↔ name ∈ l.over_ ∨ ¬ Fitting name sh l input := by
  cases input with
  | hands node =>
    obtain ⟨c, called, _, some_⟩ := allowed.1
    show name ∈ (l.hands checked node).over_ ↔ _
    rw [hands_over l checked called]
    by_cases named : c.name = name
    · subst named
      obtain ⟨small, new⟩ := inv.calls node c called
      have new := (new rfl).resolve_right some_
      have step := inv.steps node new some_
      obtain ⟨s, _, _, _, _, waits⟩ := inv.there
      obtain ⟨within, wanted⟩ := Inv.takes_le c (l.blocks node c.name)
      have exact_ := (l.blocks node c.name).handOut_checked (k := c.takes (l.blocks node c.name))
        (by omega) (by
          intro i below
          apply sh.fits
          apply (waits node _ _).2.1
          unfold Lake.live Block.live
          rw [if_pos new, step]
          exact List.mem_map_of_mem (List.mem_range.mpr (by omega)))
      have meets : Fitting c.name sh l (.hands node) ↔
          Fits ((c.takes (l.blocks node c.name)).toNat * (l.blocks node c.name).step.toInt) := by
        rw [step]
        constructor
        · intro fitting
          exact fitting c called rfl
        · intro fits c' called' _
          rw [called] at called'
          cases called'
          exact fits
      rw [meets, ← exact_]
      split
      · next fine => simp [fine]
      · next wrong => simp [wrong]
    · have meets : Fitting name sh l (.hands node) := by
        intro c' called' named'
        rw [called] at called'
        cases called'
        exact (named named').elim
      have apart : name ≠ c.name := fun same => named same.symm
      split
      · simp [meets]
      · simp [meets, apart]
  | refills node now =>
    show name ∈ (l.refills node now).over_ ↔ _
    simp [refills_over, Fitting]
  | begins node other want known =>
    show name ∈ (l.begins node other want known).over_ ↔ _
    simp [begins_over, Fitting]
  | commits op => exact ⟨.inl, fun is => is.resolve_right fun no => no trivial⟩
  | answers node => exact ⟨.inl, fun is => is.resolve_right fun no => no trivial⟩
  | stops node => exact ⟨.inl, fun is => is.resolve_right fun no => no trivial⟩
  | leads => exact ⟨.inl, fun is => is.resolve_right fun no => no trivial⟩

end runs

/-- A take gives as many values as it says, those of as many single draws, or is refused as one draw
is; its block is handed out in order, and no step of that goes over i64 exactly when the parts are few
enough; no two takes of a sequence that doesn't cycle, by any nodes, give a value twice. -/
theorem sequences_exact (name : String) (s : Sequence) (sh : Shape)
    (shaped : shape s.declared = .ok sh) :
    (∀ count : UInt64,
      (sh.counter.draw s.place = none ∧ ∃ why, take s name count = (.error why, s)) ∨
      ∃ first n step left, take s name count = (.ok (first, n, step), left) ∧
        Taken sh s count first n step left ∧
        ∀ (b : Block) (ks : List UInt64), b.next = first → b.left = n → b.step = step →
          (∀ k ∈ ks, k.toNat * 8 < 2 ^ 63) → (ks.map UInt64.toNat).sum ≤ n.toNat →
          ((b.handOuts true ks).isSome ↔ ∀ k ∈ ks, Fits (k.toNat * sh.increment.toInt)) ∧
          ∀ checked out b', b.handOuts checked ks = some (out, b') →
            out.map Int64.toInt = sh.counter.stretch first.toInt (ks.map UInt64.toNat).sum) ∧
    ∀ (checked : Bool) (l : Lake) (inputs : List Input), sh.cycle = false → Fresh name s l →
      ((nodes checked).only (Takes name)).Legal l inputs →
      let now := (nodes checked).run l inputs
      (now.givenOf name).Nodup ∧ (∀ v ∈ now.givenOf name, sh.counter.Within v) ∧
        (name ∉ now.over_ ↔
          (((nodes checked).only (Takes name)).only (Fitting name sh)).Legal l inputs) := by
  constructor
  · intro count
    cases drawn : sh.counter.draw s.place with
    | none => exact .inl ⟨rfl, take_refused shaped name count drawn⟩
    | some value =>
      obtain ⟨first, n, step, left, is, took⟩ := take_taken shaped name count drawn
      refine .inr ⟨first, n, step, left, is, took, ?_⟩
      rintro b ks rfl rfl rfl small within
      have step : b.step.toInt = sh.counter.step := congrArg Int64.toInt took.step
      have fits : ∀ v ∈ sh.counter.stretch b.next.toInt b.left.toNat, Fits v :=
        fun v inside => sh.fits (took.within v inside)
      have small : ∀ k ∈ ks, k.toNat < 2 ^ 63 := fun k inside => by
        have := small k inside
        omega
      have exact_ := b.handOuts_checked step fits small within
      rw [step] at exact_
      exact ⟨exact_, fun checked out b' done => b.handOuts_values step fits small within done⟩
  · intro checked l inputs forward fresh legal now
    have kept : ∀ state input, Inv name s.version s.declared sh state →
        ((nodes checked).only (Takes name)).Allows state input →
        Inv name s.version s.declared sh (next checked state input) :=
      fun state input inv allowed => inv.next shaped forward checked input allowed
    have inv : Inv name s.version s.declared sh now :=
      ((nodes checked).only (Takes name)).run_invariant _ kept l inputs fresh.inv legal
    obtain ⟨s', _, _, _, out, _⟩ := inv.there
    refine ⟨inv.nodup, fun v inside => (out v inside).2.1, ?_⟩
    have flag := ((nodes checked).only (Takes name)).run_flag
      (Inv name s.version s.declared sh) (fun l => name ∈ l.over_) (Fitting name sh) kept
      (fun state input inv allowed => raised inv checked input allowed) l inputs fresh.inv legal
    exact flag.trans ⟨fun both => both.2, fun legal => ⟨fresh.fine, legal⟩⟩

/-- A sequence just made, and two nodes that take values of it. -/
def made : Lake where
  cat name := if name = "s" then some ⟨[], 1, false, 1, none⟩ else none
  held := .new
  next := 2
  blocks _ _ := {}
  calls _ := none
  given := []
  over_ := []

def twoTake : List Input :=
  [.begins 0 "s" 2 true, .refills 0 0, .hands 0, .answers 0, .begins 1 "s" 1 true, .refills 1 5, .hands 1]

theorem two_apart : ((nodes true).run made twoTake).givenOf "s" = [1, 2, 33] ∧
    (((nodes true).run made twoTake).givenOf "s").Nodup := by
  have fresh : Fresh "s" ⟨[], 1, false, 1, none⟩ made :=
    ⟨.new, rfl, by decide, fun _ => .inr rfl, fun _ => rfl, fun _ no => (List.not_mem_nil no).elim,
      List.not_mem_nil⟩
  have legal : ((nodes true).only (Takes "s")).Legal made twoTake :=
    ⟨⟨⟨rfl, by decide⟩, trivial⟩, ⟨⟨_, rfl, by decide, rfl⟩, trivial⟩, ⟨⟨_, rfl, by decide, by decide⟩, trivial⟩,
      ⟨⟨_, rfl, by decide⟩, trivial⟩, ⟨⟨rfl, by decide⟩, trivial⟩, ⟨⟨_, rfl, by decide, rfl⟩, trivial⟩,
      ⟨⟨_, rfl, by decide, by decide⟩, trivial⟩, trivial⟩
  exact ⟨by decide, ((sequences_exact "s" ⟨[], 1, false, 1, none⟩ _ rfl).2 true made twoTake rfl fresh legal).1⟩

/-- A sequence over all of i64, four steps from its first value to its last. -/
def wide : List Opt :=
  [.min (some Int64.minValue), .max (some Int64.maxValue), .increment (Int64.ofInt (2 ^ 62))]

theorem wide_over : ∃ sh, shape wide = .ok sh ∧
    (take ⟨wide, Int64.minValue, false, 1, none⟩ "s" 32).1 =
      .ok (Int64.minValue, 4, Int64.ofInt (2 ^ 62)) ∧
    Block.handOut true ⟨1, Int64.minValue, 4, Int64.ofInt (2 ^ 62), 32, none⟩ 4 = none :=
  ⟨_, rfl, rfl, rfl⟩

end Pondra.Sequences
