import Mathlib.Data.List.Nodup
import Pondra.Sequences.Handing

set_option autoImplicit false

/- What holds along a run of takes: each value drawn is in one place. -/

namespace Pondra.Sequences

open Counters Words

namespace Block

/-- The values still to hand out of a block, unless it is from before the sequence's last change. -/
def live (version : Nat) (sh : Shape) (b : Block) : List Int :=
  if version ≤ b.version then sh.counter.stretch b.next.toInt b.left.toNat else []

theorem live_empty {b : Block} (version : Nat) (sh : Shape) (none_ : b.left = 0) :
    b.live version sh = [] := by
  simp [live, none_, Counter.stretch]

end Block

namespace Lake

variable (name : String) (version : Nat) (sh : Shape)

/-- The values of a sequence that have been handed out. -/
def givenOf (l : Lake) : List Int :=
  (l.given.filter fun g => decide (g.1 = name)).map fun g => g.2.toInt

/-- The values a node still has of a sequence. -/
def live (l : Lake) (node : Nat) : List Int := (l.blocks node name).live version sh

end Lake

/-- A sequence as its last change left it, moved on by takes only: all that has been handed out or
waits in a block was drawn, and each of these once. -/
structure Inv (name : String) (version : Nat) (declared : List Opt) (sh : Shape) (l : Lake) : Prop where
  synced : Synced l.cat l.held
  there : ∃ s, l.cat name = some s ∧ s.declared = declared ∧ s.version = version ∧
    (∀ v ∈ l.givenOf name, sh.counter.Drawn s.place v) ∧
    ∀ node, ∀ v ∈ l.live name version sh node, sh.counter.Drawn s.place v
  later : version ≤ l.next
  nodup : (l.givenOf name).Nodup
  apart : ∀ node, ∀ v ∈ l.live name version sh node, v ∉ l.givenOf name
  split : ∀ node other, node ≠ other →
    ∀ v ∈ l.live name version sh node, v ∉ l.live name version sh other
  steps : ∀ node, version ≤ (l.blocks node name).version → (l.blocks node name).left ≠ 0 →
    (l.blocks node name).step = sh.increment
  calls : ∀ node c, l.calls node = some c → c.want * 8 < 2 ^ 63 ∧
    (c.name = name → version ≤ (l.blocks node name).version ∨ (l.blocks node name).left = 0)

namespace Inv

variable {name : String} {version : Nat} {declared : List Opt} {sh : Shape} {l l' : Lake}

/-- What a step leaves of the other nodes' blocks and of the catalog keeps the invariant, where a
node's own block has no more values than before. -/
theorem shrinks (inv : Inv name version declared sh l) (synced : Synced l'.cat l'.held)
    (same : l'.cat name = l.cat name) (given : l'.givenOf name = l.givenOf name)
    (later : l.next ≤ l'.next)
    (blocks : ∀ node, l'.blocks node name = l.blocks node name ∨
      (l'.blocks node name).left = 0)
    (calls : ∀ node c, l'.calls node = some c → c.want * 8 < 2 ^ 63 ∧
      (c.name = name → version ≤ (l'.blocks node name).version ∨ (l'.blocks node name).left = 0)) :
    Inv name version declared sh l' := by
  have lives : ∀ node, ∀ v ∈ l'.live name version sh node, v ∈ l.live name version sh node := by
    intro node v inside
    unfold Lake.live at inside ⊢
    rcases blocks node with is | none_
    · rwa [is] at inside
    · rw [Block.live_empty version sh none_] at inside
      exact (List.not_mem_nil inside).elim
  obtain ⟨s, held, declared', version', out, waits⟩ := inv.there
  exact {
    synced
    there := ⟨s, same ▸ held, declared', version', given ▸ out,
      fun node v inside => waits node v (lives node v inside)⟩
    later := Nat.le_trans inv.later later
    nodup := given ▸ inv.nodup
    apart := fun node v inside => given ▸ inv.apart node v (lives node v inside)
    split := fun node other apart v inside no =>
      inv.split node other apart v (lives node v inside) (lives other v no)
    steps := by
      intro node new some_
      rcases blocks node with is | none_
      · rw [is] at new some_ ⊢
        exact inv.steps node new some_
      · exact (some_ none_).elim
    calls }

/-- A take by anyone moves the counter on: its values are new, and all drawn before still is. -/
theorem taken (inv : Inv name version declared sh l) (shaped : shape declared = .ok sh)
    (forward : sh.cycle = false) (count : UInt64) :
    ∃ s, l.cat name = some s ∧
      ((∃ why, take s name count = (.error why, s)) ∨
        ∃ first n step left, take s name count = (.ok (first, n, step), left) ∧
          Taken sh s count first n step left ∧
          (∀ v ∈ sh.counter.stretch first.toInt n.toNat,
            ¬ sh.counter.Drawn s.place v ∧ sh.counter.Drawn left.place v) ∧
          ∀ v, sh.counter.Drawn s.place v → sh.counter.Drawn left.place v) := by
  obtain ⟨s, held, rfl, _, _, _⟩ := inv.there
  refine ⟨s, held, ?_⟩
  cases drawn : sh.counter.draw s.place with
  | none => exact .inl (take_refused shaped name count drawn)
  | some value =>
    obtain ⟨first, n, step, left, is, took⟩ := take_taken shaped name count drawn
    have ⟨fresh, kept⟩ := Counter.draws_fresh forward took.draws
    exact .inr ⟨first, n, step, left, is, took, fresh, kept⟩

theorem commits (inv : Inv name version declared sh l) (shaped : shape declared = .ok sh)
    (forward : sh.cycle = false) {op : Op} (quiet : op.Quiet name) :
    Inv name version declared sh (l.commits op).2 := by
  have synced : Synced (l.commits op).2.cat (l.commits op).2.held := inv.synced.commit op l.next
  have cat : (l.commits op).2.cat name = (l.held.apply l.cat op l.next).2.get l.cat name :=
    inv.synced.catalog op l.next name
  rcases @Held.apply_quiet l.cat l.held l.next _ _ quiet with
    same | ⟨count, s, answer, left, rfl, there, taken, moved⟩
  · rw [same, inv.synced.get] at cat
    exact inv.shrinks synced cat rfl (Nat.le_succ _) (fun _ => .inl rfl) inv.calls
  · obtain ⟨s', held, found⟩ := inv.taken shaped forward count
    have same : s' = s := by
      rw [inv.synced.get, held] at there
      exact Option.some.inj there
    subst same
    rcases found with ⟨why, refused⟩ | ⟨first, n, step, left', is, took, _, kept⟩
    · rw [refused] at taken
      cases taken
    · rw [is] at taken
      cases taken
      obtain ⟨s'', held', declared', version', out, waits⟩ := inv.there
      have same : s'' = s' := by
        rw [held] at held'
        exact (Option.some.inj held').symm
      subst same
      have left_ := took.kept
      exact {
        synced
        there := ⟨left, cat.trans moved, by rw [left_]; exact declared', by rw [left_]; exact version',
          fun v inside => kept v (out v inside), fun node v inside => kept v (waits node v inside)⟩
        later := Nat.le_succ_of_le inv.later
        nodup := inv.nodup
        apart := inv.apart
        split := inv.split
        steps := inv.steps
        calls := inv.calls }

theorem endCall (inv : Inv name version declared sh l) (node : Nat) :
    Inv name version declared sh (l.setCall node none) := by
  refine inv.shrinks inv.synced rfl rfl (Nat.le_refl _) (fun _ => .inl rfl) ?_
  intro other c held
  rw [Lake.setCall_calls] at held
  split at held
  · cases held
  · exact inv.calls other c held

theorem begins (inv : Inv name version declared sh l) {node want : Nat} (name' : String)
    (known : Bool) (small : want * 8 < 2 ^ 63) :
    Inv name version declared sh (l.begins node name' want known) := by
  obtain ⟨s, held, declared', version', _, _⟩ := inv.there
  cases there : l.cat name' with
  | none =>
    simp only [Lake.begins, there]
    exact inv
  | some s' =>
    cases shaped : shape s'.declared with
    | error why =>
      simp only [Lake.begins, there, shaped]
      exact inv
    | ok sh' =>
      simp only [Lake.begins, there, shaped]
      refine inv.shrinks inv.synced rfl rfl (Nat.le_refl _) ?_ ?_
      · intro other
        rw [Lake.setCall_blocks, Lake.setBlock_blocks]
        split
        · next same =>
          obtain ⟨rfl, rfl⟩ := same
          split
          · exact .inr rfl
          · exact .inl rfl
        · exact .inl rfl
      · intro other c is
        rw [Lake.setCall_calls] at is
        rw [Lake.setCall_blocks, Lake.setBlock_blocks]
        by_cases same : other = node
        · rw [if_pos same] at is
          cases is
          refine ⟨small, fun named => ?_⟩
          have named : name' = name := named
          subst named
          rw [held] at there
          cases there
          rw [if_pos ⟨same, rfl⟩, ← version']
          split
          · exact .inr rfl
          · exact .inl (by omega)
        · rw [if_neg same] at is
          rw [if_neg fun no => same no.1]
          exact inv.calls other c is

/-- A node's new block: values nobody has had. -/
theorem refilled (inv : Inv name version declared sh l) (after : Inv name version declared sh l')
    (blocks : l'.blocks = l.blocks) (given : l'.given = l.given)
    (node : Nat) {s left : Sequence}
    {first step : Int64} {n count : UInt64} (held : l.cat name = some s) (now : l'.cat name = some left)
    (took : Taken sh s count first n step left)
    (fresh : ∀ v ∈ sh.counter.stretch first.toInt n.toNat,
      ¬ sh.counter.Drawn s.place v ∧ sh.counter.Drawn left.place v) (size : UInt64) (at_ : Option Nat) :
    Inv name version declared sh (l'.setBlock node name ⟨l.next, first, n, step, size, at_⟩) := by
  obtain ⟨s', held', _, _, out, waits⟩ := inv.there
  have same : s' = s := by
    rw [held] at held'
    exact (Option.some.inj held').symm
  subst same
  obtain ⟨left', now', declared', version', out', waits'⟩ := after.there
  have same : left' = left := by
    rw [now] at now'
    exact (Option.some.inj now').symm
  subst same
  have mine : (l'.setBlock node name ⟨l.next, first, n, step, size, at_⟩).live name version sh node =
      sh.counter.stretch first.toInt n.toNat := by
    unfold Lake.live
    rw [Lake.setBlock_blocks, if_pos ⟨rfl, rfl⟩]
    exact if_pos inv.later
  have others : ∀ other, other ≠ node →
      (l'.setBlock node name ⟨l.next, first, n, step, size, at_⟩).live name version sh other =
        l.live name version sh other := by
    intro other apart
    unfold Lake.live
    rw [Lake.setBlock_blocks, if_neg fun no => apart no.1, blocks]
  exact {
    synced := after.synced
    there := by
      refine ⟨left', now, declared', version', out', fun other v inside => ?_⟩
      by_cases same : other = node
      · rw [same, mine] at inside
        exact (fresh v inside).2
      · rw [others other same] at inside
        apply waits' other v
        unfold Lake.live at inside ⊢
        rwa [blocks]
    later := after.later
    nodup := after.nodup
    apart := by
      intro other v inside no
      have no : v ∈ l.givenOf name := by
        unfold Lake.givenOf at no ⊢
        rwa [← given]
      by_cases same : other = node
      · rw [same, mine] at inside
        exact (fresh v inside).1 (out v no)
      · rw [others other same] at inside
        exact inv.apart other v inside no
    split := by
      intro one two apart v first second
      by_cases same : one = node
      · subst same
        rw [mine] at first
        rw [others two (Ne.symm apart)] at second
        exact (fresh v first).1 (waits two v second)
      · rw [others one same] at first
        by_cases same' : two = node
        · subst same'
          rw [mine] at second
          exact (fresh v second).1 (waits one v first)
        · rw [others two same'] at second
          exact inv.split one two apart v first second
    steps := by
      intro other new some_
      rw [Lake.setBlock_blocks] at new some_ ⊢
      by_cases same : other = node
      · rw [if_pos ⟨same, rfl⟩]
        exact took.step
      · rw [if_neg fun no => same no.1] at new some_ ⊢
        exact after.steps other new some_
    calls := by
      intro other c is
      rw [Lake.setBlock_blocks]
      refine ⟨(after.calls other c is).1, fun named => ?_⟩
      by_cases same : other = node
      · rw [if_pos ⟨same, rfl⟩]
        exact .inl inv.later
      · rw [if_neg fun no => same no.1]
        exact (after.calls other c is).2 named }

theorem refills (inv : Inv name version declared sh l) (shaped : shape declared = .ok sh)
    (forward : sh.cycle = false) (node now : Nat) (c : Call) (called : l.calls node = some c) :
    Inv name version declared sh (l.refills node now) := by
  let size := (l.blocks node c.name).grown c.base now
  let count := Max.max size (UInt64.ofNat (c.want - c.out.length))
  have after := @Inv.commits _ _ _ _ _ inv shaped forward (.take c.name count) trivial
  rcases is : l.commits (.take c.name count) with ⟨outcome, l'⟩
  have later : (l.commits (.take c.name count)).2 = l' := by rw [is]
  have blocks : l'.blocks = l.blocks := by rw [← later]; rfl
  rw [later] at after
  cases outcome with
  | refused why =>
    simp only [Lake.refills, called, size, count] at is ⊢
    rw [is]
    exact after.endCall node
  | acks acks =>
    cases acks with
    | nil =>
      simp only [Lake.refills, called, size, count] at is ⊢
      rw [is]
      exact after.endCall node
    | cons a rest =>
      have step : l.refills node now =
          l'.setBlock node c.name ⟨a.seg, a.block.toInt64, a.row, a.ms.toInt64, size, some now⟩ := by
        simp only [Lake.refills, called, size, count] at is ⊢
        rw [is]
      rw [step]
      by_cases named : c.name = name
      · subst named
        obtain ⟨s, held, found⟩ := inv.taken shaped forward count
        have known : l.held.get l.cat c.name = some s := by rw [inv.synced.get, held]
        have answer : (l.held.apply l.cat (.take c.name count) l.next).1 = .acks (a :: rest) :=
          congrArg Prod.fst is
        rcases found with ⟨why, refused⟩ | ⟨first, n, by_, left, taken, took, fresh, kept⟩
        · rw [Held.apply_take_refused known refused] at answer
          cases answer
        · rw [Held.apply_take known taken] at answer
          cases answer
          simp only [Int64.toInt64_toUInt64]
          have moved : l'.cat c.name = some left := by
            have cat := inv.synced.catalog (.take c.name count) l.next c.name
            rw [← later]
            refine cat.trans ?_
            simp only [Held.apply, Op.name, known, taken, Held.moved, Held.get_touch, Held.get_fill, if_true]
          have given : l'.given = l.given := by rw [← later]; rfl
          exact inv.refilled after blocks given node held moved took fresh size (some now)
      · refine after.shrinks after.synced rfl rfl (Nat.le_refl _) ?_ ?_
        · intro other
          rw [Lake.setBlock_blocks, if_neg fun no => named no.2.symm]
          exact .inl rfl
        · intro other c' held
          rw [Lake.setBlock_blocks, if_neg fun no => named no.2.symm]
          exact after.calls other c' held

theorem takes_le (c : Call) (b : Block) : (c.takes b).toNat ≤ b.left.toNat ∧
    (c.takes b).toNat ≤ c.want - c.out.length := by
  have wrapped : (UInt64.ofNat (c.want - c.out.length)).toNat ≤ c.want - c.out.length := by
    rw [UInt64.toNat_ofNat']
    exact Nat.mod_le _ _
  have is : c.takes b = if UInt64.ofNat (c.want - c.out.length) ≤ b.left then
      UInt64.ofNat (c.want - c.out.length) else b.left := rfl
  rw [is]
  split
  · next less => exact ⟨UInt64.le_iff_toNat_le.mp less, wrapped⟩
  · next more =>
    rw [UInt64.le_iff_toNat_le] at more
    exact ⟨Nat.le_refl _, by omega⟩

/-- Values move from a node's block to what is given: the same ones, in order. -/
theorem handed (inv : Inv name version declared sh l) {node : Nat} {c : Call} {checked : Bool}
    {out : List Int64} {b' : Block} (called : l.calls node = some c) (named : c.name = name)
    (some_ : (l.blocks node name).left ≠ 0)
    (done : (l.blocks node name).handOut checked (c.takes (l.blocks node name)) = some (out, b')) :
    version ≤ b'.version ∧ (b'.left ≠ 0 → b'.step = sh.increment) ∧
      l.live name version sh node = out.map Int64.toInt ++ b'.live version sh := by
  obtain ⟨s, _, _, _, _, waits⟩ := inv.there
  obtain ⟨small, new⟩ := inv.calls node c called
  have new : version ≤ (l.blocks node name).version := (new named).resolve_right some_
  have step := inv.steps node new some_
  have waits := waits node
  unfold Lake.live at waits ⊢
  obtain ⟨within, wanted⟩ := takes_le c (l.blocks node name)
  generalize l.blocks node name = b at *
  generalize c.takes b = k at *
  have whole : b.live version sh = sh.counter.stretch b.next.toInt b.left.toNat := if_pos new
  have fits : ∀ v ∈ sh.counter.stretch b.next.toInt b.left.toNat, Fits v := by
    intro v inside
    exact sh.fits (waits v (whole ▸ inside)).2.1
  obtain ⟨_, version', step', _, joined⟩ :=
    b.handOut_stretch (congrArg Int64.toInt step) fits (by omega) within done
  have new' : version ≤ b'.version := version' ▸ new
  refine ⟨new', fun _ => step'.trans step, ?_⟩
  rw [whole, joined]
  unfold Block.live
  rw [if_pos new']

theorem flagged (inv : Inv name version declared sh l) (names : List String) :
    Inv name version declared sh { l with over_ := names } :=
  ⟨inv.synced, inv.there, inv.later, inv.nodup, inv.apart, inv.split, inv.steps, inv.calls⟩

/-- Values of another sequence are handed out. -/
theorem others (inv : Inv name version declared sh l) {node : Nat} {c : Call} (called : l.calls node = some c)
    (named : c.name ≠ name) (b : Block) (out : List Int64) :
    Inv name version declared sh
      { (l.setBlock node c.name b).setCall node (some { c with out := c.out ++ out }) with
        given := l.given ++ out.map fun v => (c.name, v) } := by
  refine inv.shrinks inv.synced rfl ?_ (Nat.le_refl _) ?_ ?_
  · unfold Lake.givenOf
    rw [List.filter_append]
    have none_ : (out.map fun v => (c.name, v)).filter (fun g => decide (g.1 = name)) = [] := by
      rw [List.filter_eq_nil_iff]
      intro g inside
      obtain ⟨v, _, rfl⟩ := List.mem_map.mp inside
      simpa using named
    rw [none_, List.append_nil]
  · intro other
    show (Lake.setBlock _ _ _ _).blocks other name = _ ∨ _
    rw [Lake.setBlock_blocks, if_neg fun no => named no.2.symm]
    exact .inl rfl
  · intro other c' is
    have is : (Lake.setCall _ _ _).calls other = some c' := is
    show _ ∧ (_ → version ≤ ((Lake.setBlock _ _ _ _).blocks other name).version ∨
      ((Lake.setBlock _ _ _ _).blocks other name).left = 0)
    rw [Lake.setBlock_blocks, if_neg fun no => named no.2.symm]
    rw [Lake.setCall_calls] at is
    split at is
    · next same =>
      cases is
      exact ⟨(inv.calls node c called).1, fun no => (named no).elim⟩
    · exact inv.calls other c' is

/-- Values of the sequence are handed out: from a block to what is given. -/
theorem mine (inv : Inv name version declared sh l) {node : Nat} {c : Call} {checked : Bool}
    {out : List Int64} {b' : Block} (called : l.calls node = some c) (named : c.name = name)
    (some_ : (l.blocks node name).left ≠ 0)
    (done : (l.blocks node name).handOut checked (c.takes (l.blocks node name)) = some (out, b')) :
    Inv name version declared sh
      { (l.setBlock node name b').setCall node (some { c with out := c.out ++ out }) with
        given := l.given ++ out.map fun v => (name, v) } := by
  obtain ⟨new, step, joined⟩ := inv.handed called named some_ done
  obtain ⟨s, held, declared', version', was, waits⟩ := inv.there
  let l' : Lake := { (l.setBlock node name b').setCall node (some { c with out := c.out ++ out }) with
    given := l.given ++ out.map fun v => (name, v) }
  have given : l'.givenOf name = l.givenOf name ++ out.map Int64.toInt := by
    have all : (out.map fun v => (name, v)).filter (fun g => decide (g.1 = name)) =
        out.map fun v => (name, v) := by
      rw [List.filter_eq_self]
      intro g inside
      obtain ⟨v, _, rfl⟩ := List.mem_map.mp inside
      simp
    show List.map _ (List.filter _ (l.given ++ out.map fun v => (name, v))) = _
    rw [List.filter_append, all, List.map_append, List.map_map]
    rfl
  have block : ∀ other, l'.blocks other name = if other = node then b' else l.blocks other name := by
    intro other
    show (Lake.setBlock _ _ _ _).blocks other name = _
    rw [Lake.setBlock_blocks]
    simp only [and_true]
  have here : l'.live name version sh node = b'.live version sh := by
    rw [Lake.live, block, if_pos rfl]
  have there : ∀ other, other ≠ node → l'.live name version sh other = l.live name version sh other := by
    intro other apart
    rw [Lake.live, block, if_neg apart, Lake.live]
  have stays : ∀ other, ∀ v ∈ l'.live name version sh other, v ∈ l.live name version sh other := by
    intro other v inside
    by_cases same : other = node
    · rw [same, here] at inside
      rw [same, joined]
      exact List.mem_append_right _ inside
    · rwa [there other same] at inside
  have moved : ∀ v ∈ out.map Int64.toInt, v ∈ l.live name version sh node := by
    intro v inside
    rw [joined]
    exact List.mem_append_left _ inside
  have whole : (l.live name version sh node).Nodup := by
    unfold Lake.live Block.live
    split
    · exact sh.counter.stretch_nodup _ _
    · exact List.nodup_nil
  rw [joined, List.nodup_append] at whole
  show Inv name version declared sh l'
  exact {
    synced := inv.synced
    there := by
      refine ⟨s, held, declared', version', fun v inside => ?_, fun other v inside =>
        waits other v (stays other v inside)⟩
      rw [given] at inside
      rcases List.mem_append.mp inside with before | now
      · exact was v before
      · exact waits node v (moved v now)
    later := inv.later
    nodup := by
      rw [given, List.nodup_append]
      exact ⟨inv.nodup, whole.1, fun v before w now same =>
        inv.apart node v (same ▸ moved w now) before⟩
    apart := by
      intro other v inside no
      rw [given] at no
      rcases List.mem_append.mp no with before | now
      · exact inv.apart other v (stays other v inside) before
      · by_cases same : other = node
        · rw [same, here] at inside
          exact whole.2.2 v now v inside rfl
        · exact inv.split other node same v (stays other v inside) (moved v now)
    split := fun one two apart v first second =>
      inv.split one two apart v (stays one v first) (stays two v second)
    steps := by
      intro other now more
      rw [block] at now more ⊢
      split
      · next same =>
        rw [if_pos same] at more
        exact step more
      · next apart =>
        rw [if_neg apart] at now more
        exact inv.steps other now more
    calls := by
      intro other c' is
      have is : (Lake.setCall _ _ _).calls other = some c' := is
      rw [Lake.setCall_calls] at is
      rw [block]
      split at is
      · next same =>
        cases is
        rw [if_pos same]
        exact ⟨(inv.calls node c called).1, fun _ => .inl new⟩
      · next apart =>
        rw [if_neg apart]
        exact inv.calls other c' is }

theorem hands (inv : Inv name version declared sh l) (checked : Bool) {node : Nat} {c : Call}
    (called : l.calls node = some c) (some_ : (l.blocks node c.name).left ≠ 0) :
    Inv name version declared sh (l.hands checked node) := by
  let l' : Lake := if ((l.blocks node c.name).handOut true (c.takes (l.blocks node c.name))).isSome
    then l else { l with over_ := l.over_.insert c.name }
  have same : ∃ names, l' = { l with over_ := names } := by
    by_cases fine : ((l.blocks node c.name).handOut true (c.takes (l.blocks node c.name))).isSome
    · exact ⟨l.over_, if_pos fine⟩
    · exact ⟨_, if_neg fine⟩
  obtain ⟨names, same⟩ := same
  have inv' := inv.flagged names
  cases done : (l.blocks node c.name).handOut checked (c.takes (l.blocks node c.name)) with
  | none =>
    have is : l.hands checked node = l'.setCall node none := by
      simp only [Lake.hands, called, done]
      rfl
    rw [is, same]
    exact inv'.endCall node
  | some result =>
    obtain ⟨out, b'⟩ := result
    have is : l.hands checked node =
        { (l'.setBlock node c.name b').setCall node (some { c with out := c.out ++ out }) with
          given := l'.given ++ out.map fun v => (c.name, v) } := by
      simp only [Lake.hands, called, done]
      rfl
    rw [is, same]
    by_cases named : c.name = name
    · subst named
      exact inv'.mine called rfl some_ done
    · exact inv'.others called named b' out

theorem next (inv : Inv name version declared sh l) (shaped : shape declared = .ok sh)
    (forward : sh.cycle = false) (checked : Bool) (input : Input)
    (allowed : ((nodes checked).only (Takes name)).Allows l input) :
    Inv name version declared sh (next checked l input) := by
  obtain ⟨legal, takes⟩ := allowed
  cases input with
  | commits op => exact inv.commits shaped forward takes
  | begins node name' want known => exact inv.begins name' known legal.2
  | refills node now =>
    obtain ⟨c, called, _, _⟩ := legal
    exact inv.refills shaped forward node now c called
  | hands node =>
    obtain ⟨c, called, _, some_⟩ := legal
    exact inv.hands checked called some_
  | answers node => exact inv.endCall node
  | stops node =>
    refine (inv.endCall node).shrinks inv.synced rfl rfl (Nat.le_refl _) ?_ ?_
    · intro other
      by_cases same : other = node
      · subst same
        exact .inr (by simp [Sequences.next])
      · exact .inl (by simp [Sequences.next, same])
    · intro other c is
      obtain ⟨small, new⟩ := (inv.endCall node).calls other c is
      refine ⟨small, fun named => ?_⟩
      by_cases same : other = node
      · subst same
        exact .inr (by simp [Sequences.next])
      · have old : (Sequences.next checked l (.stops node)).blocks other name = l.blocks other name := by
          simp [Sequences.next, same]
        rw [old]
        exact new named
  | leads =>
    exact inv.shrinks .new rfl rfl (Nat.le_refl _) (fun _ => .inl rfl) inv.calls

end Inv

end Pondra.Sequences
