import Pondra.Watermark.Exact

set_option autoImplicit false

namespace Pondra.Watermark

open Machines Dicts Manifests

variable {τ ν : Type} {t : Times τ ν} {s : Node ν}

/-- An entry and the rows committed: all up to where its files reach are in them, and only rows of commits up to
`began` are. -/
structure Snapshot (t : Times τ ν) (committed : List (Nat × Option ν)) (e : Entry ν) (began : Nat) : Prop where
  ok : EntryOk t e
  tiered : e.tiered ≤ began
  there : ∀ r ∈ committed, r.1 ≤ e.tiered → r.2 ∈ e.rows
  from_ : ∀ row ∈ e.rows, ∃ n ≤ began, (n, row) ∈ committed

/-- How far a call is. -/
def PhaseOk (t : Times τ ν) (s : Node ν) (c : Call ν) : Phase → Prop
  | .started => True
  | .looked upto => c.began ≤ upto ∧ upto ≤ s.visible
  | .loaded upto seen parts =>
    c.began ≤ upto ∧ upto ≤ s.visible ∧ seen ≤ s.visible ∧ Reach t s.committed seen seen parts
  | .read seen parts => c.began ≤ seen ∧ seen ≤ s.visible ∧ Reach t s.committed seen seen parts
  | .over_ => True

structure CallOk (t : Times τ ν) (s : Node ν) (c : Call ν) : Prop where
  began : c.began ≤ s.visible
  snapshot : c.phase ≠ .over_ → Snapshot t s.committed c.entry c.began ∧ s.gone ≤ c.entry.tiered
  phase : PhaseOk t s c c.phase

/-- The log, and the rows committed. -/
structure LogOk (s : Node ν) : Prop where
  gone : s.gone ≤ s.entry.tiered
  numbered : ∀ r ∈ s.committed, 0 < r.1 ∧ r.1 ≤ s.visible
  logged : ∀ seg ∈ s.log, ∀ row ∈ seg.logged ++ seg.filed, (seg.n, row) ∈ s.committed
  filed : ∀ seg ∈ s.log, ∀ row ∈ seg.filed, row ∈ s.entry.rows
  here : ∀ r ∈ s.committed, r.1 ≤ s.gone ∨ ∃ seg ∈ s.log, seg.n = r.1 ∧ r.2 ∈ seg.logged ++ seg.filed

/-- The answers so far: each no less than those before it, nor more than what is known; at most the newest row
committed by then, and at least the newest that was visible when its call began. -/
structure Answered (t : Times τ ν) (s : Node ν) : Prop where
  inOrder : s.answers.Pairwise fun a b => AtLeast (newest b.parts) (newest a.parts)
  known : ∀ a ∈ s.answers, ∃ k, s.known = some k ∧ AtLeast (newest k.2) (newest a.parts)
  began : ∀ a ∈ s.answers, a.began ≤ s.visible
  atMost : ∀ a ∈ s.answers, ∀ x, newest a.parts = some x →
    ∃ n v, (n, some v) ∈ s.committed ∧ n ≤ a.now ∧ x ≤ t.us v
  atLeast : ∀ a ∈ s.answers, ∀ n v, (n, some v) ∈ s.committed → n ≤ a.began →
    ∃ x, newest a.parts = some x ∧ t.us v ≤ x

structure Inv (t : Times τ ν) (s : Node ν) : Prop where
  log : LogOk s
  entry : Snapshot t s.committed s.entry s.visible
  calls : ∀ c ∈ s.calls, CallOk t s c
  known : ∀ k, s.known = some k → k.1 ≤ s.visible ∧ Reach t s.committed k.1 k.1 k.2
  answers : Answered t s

section commits

variable {committed new : List (Nat × Option ν)}

theorem Snapshot.later {e : Entry ν} {began : Nat} (snapshot : Snapshot t committed e began)
    (after : ∀ r ∈ new, began < r.1) : Snapshot t (committed ++ new) e began where
  ok := snapshot.ok
  tiered := snapshot.tiered
  there r inside le := by
    rcases List.mem_append.mp inside with was | new
    · exact snapshot.there r was le
    · have := after r new
      have := snapshot.tiered
      omega
  from_ row inside := by
    obtain ⟨n, le, held⟩ := snapshot.from_ row inside
    exact ⟨n, le, List.mem_append_left _ held⟩

/-- A call is as far as it was where the state keeps its rows, and no segment it may read goes. -/
theorem CallOk.later {s' : Node ν} {c : Call ν} (ok : CallOk t s c) (visible : s.visible ≤ s'.visible)
    (grown : s'.committed = s.committed ++ new) (after : ∀ r ∈ new, s.visible < r.1)
    (gone : c.phase = .over_ ∨ s'.gone ≤ c.entry.tiered) : CallOk t s' c := by
  have began := ok.began
  refine ⟨Nat.le_trans began visible, ?_, ?_⟩
  · intro running
    refine ⟨?_, gone.resolve_left running⟩
    rw [grown]
    exact (ok.snapshot running).1.later fun r inside => by
      have := after r inside
      omega
  · have phase := ok.phase
    cases is : c.phase with
    | started => trivial
    | over_ => trivial
    | looked upto =>
      rw [is] at phase
      exact ⟨phase.1, Nat.le_trans phase.2 visible⟩
    | loaded upto seen parts =>
      rw [is] at phase
      obtain ⟨first, second, third, reach⟩ := phase
      refine ⟨first, Nat.le_trans second visible, Nat.le_trans third visible, ?_⟩
      rw [grown]
      exact reach.later fun r inside => Nat.lt_of_le_of_lt third (after r inside)
    | read seen parts =>
      rw [is] at phase
      obtain ⟨first, second, reach⟩ := phase
      refine ⟨first, Nat.le_trans second visible, ?_⟩
      rw [grown]
      exact reach.later fun r inside => Nat.lt_of_le_of_lt second (after r inside)

theorem commit_inv (inv : Inv t s) (logged : List (Option ν)) (files : List (File ν))
    (told : ∀ f ∈ files, Told t f) : Inv t (next t s (.commit logged files)) := by
  have after : ∀ r ∈ (logged ++ files.flatMap File.rows).map fun row => (s.visible + 1, row), s.visible < r.1 := by
    intro r inside
    obtain ⟨row, _, rfl⟩ := List.mem_map.mp inside
    exact Nat.lt_succ_self _
  have rows : ∀ row, row ∈ (next t s (.commit logged files)).entry.rows ↔
      row ∈ s.entry.rows ∨ row ∈ files.flatMap File.rows := by
    intro row
    show row ∈ s.entry.manifests.flatMap (fun m => m.files.flatMap File.rows) ++
      (s.entry.files ++ files).flatMap File.rows ↔ _
    rw [List.flatMap_append, ← List.append_assoc, List.mem_append]
    rfl
  refine ⟨⟨inv.log.gone, ?_, ?_, ?_, ?_⟩, ⟨⟨?_, inv.entry.ok.manifests⟩, ?_, ?_, ?_⟩, ?_, ?_, ?_⟩
  · intro r inside
    show 0 < r.1 ∧ r.1 ≤ s.visible + 1
    rcases List.mem_append.mp inside with was | new
    · have := inv.log.numbered r was
      omega
    · obtain ⟨row, _, rfl⟩ := List.mem_map.mp new
      exact ⟨Nat.succ_pos _, Nat.le_refl _⟩
  · intro seg held row inside
    rcases List.mem_append.mp held with was | new
    · exact List.mem_append_left _ (inv.log.logged seg was row inside)
    · rw [List.mem_singleton.mp new] at inside ⊢
      exact List.mem_append_right _ (List.mem_map_of_mem inside)
  · intro seg held row inside
    rw [rows]
    rcases List.mem_append.mp held with was | new
    · exact .inl (inv.log.filed seg was row inside)
    · rw [List.mem_singleton.mp new] at inside
      exact .inr inside
  · intro r inside
    rcases List.mem_append.mp inside with was | new
    · rcases inv.log.here r was with lost | ⟨seg, held, found⟩
      · exact .inl lost
      · exact .inr ⟨seg, List.mem_append_left _ held, found⟩
    · obtain ⟨row, held, rfl⟩ := List.mem_map.mp new
      exact .inr ⟨_, List.mem_append_right _ List.mem_cons_self, rfl, held⟩
  · intro f inside
    rcases List.mem_append.mp inside with was | new
    · exact inv.entry.ok.files f was
    · exact told f new
  · exact Nat.le_succ_of_le inv.entry.tiered
  · intro r inside le
    rw [rows]
    rcases List.mem_append.mp inside with was | new
    · exact .inl (inv.entry.there r was le)
    · have := after r new
      have := inv.entry.tiered
      have le : r.1 ≤ s.entry.tiered := le
      omega
  · intro row inside
    rcases (rows row).mp inside with was | new
    · obtain ⟨n, le, held⟩ := inv.entry.from_ row was
      exact ⟨n, Nat.le_succ_of_le le, List.mem_append_left _ held⟩
    · exact ⟨s.visible + 1, Nat.le_refl _,
        List.mem_append_right _ (List.mem_map_of_mem (List.mem_append_right _ new))⟩
  · intro c inside
    have ok := inv.calls c inside
    refine ok.later (Nat.le_succ _) rfl after ?_
    by_cases over' : c.phase = .over_
    · exact .inl over'
    · exact .inr (ok.snapshot over').2
  · intro k is
    obtain ⟨le, reach⟩ := inv.known k is
    exact ⟨Nat.le_succ_of_le le, reach.later fun r inside => Nat.lt_of_le_of_lt le (after r inside)⟩
  · obtain ⟨inOrder, known, began, atMost, atLeast⟩ := inv.answers
    refine ⟨inOrder, known, fun a inside => Nat.le_succ_of_le (began a inside), ?_, ?_⟩
    · intro a inside x is
      obtain ⟨n, v, held, le, above⟩ := atMost a inside x is
      exact ⟨n, v, List.mem_append_left _ held, le, above⟩
    · intro a inside n v held le
      rcases List.mem_append.mp held with was | new
      · exact atLeast a inside n v was le
      · have later := after _ new
        have := began a inside
        have later : s.visible < n := later
        omega

end commits

section files

/-- A new arrangement of the table's files: nothing else changes. -/
theorem entry_inv (inv : Inv t s) (e : Entry ν) (entry : Snapshot t s.committed e s.visible)
    (further : s.entry.tiered ≤ e.tiered) (kept : ∀ row ∈ s.entry.rows, row ∈ e.rows) :
    Inv t { s with entry := e } := by
  refine ⟨⟨Nat.le_trans inv.log.gone further, inv.log.numbered, inv.log.logged, ?_, inv.log.here⟩, entry, ?_,
    inv.known, ?_⟩
  · exact fun seg held row inside => kept row (inv.log.filed seg held row inside)
  · intro c inside
    have ok := inv.calls c inside
    exact ⟨ok.began, ok.snapshot, by
      have phase := ok.phase
      cases is : c.phase <;> rw [is] at phase <;> exact phase⟩
  · obtain ⟨inOrder, known, began, atMost, atLeast⟩ := inv.answers
    exact ⟨inOrder, known, began, atMost, atLeast⟩

theorem tier_inv (inv : Inv t s) (upto : Nat) (files : List (File ν)) (fits : Fits t s (.tier upto files)) :
    Inv t (next t s (.tier upto files)) := by
  obtain ⟨further, visible, told, rows⟩ := fits
  have held : ∀ row, row ∈ Entry.rows { s.entry with tiered := upto, files := s.entry.files ++ files } ↔
      row ∈ s.entry.rows ∨ row ∈ files.flatMap File.rows := by
    intro row
    show row ∈ s.entry.manifests.flatMap (fun m => m.files.flatMap File.rows) ++
      (s.entry.files ++ files).flatMap File.rows ↔ _
    rw [List.flatMap_append, ← List.append_assoc, List.mem_append]
    rfl
  refine entry_inv inv _ ⟨⟨?_, inv.entry.ok.manifests⟩, visible, ?_, ?_⟩ further fun row inside =>
    (held row).mpr (.inl inside)
  · intro f inside
    rcases List.mem_append.mp inside with was | new
    · exact inv.entry.ok.files f was
    · exact told f new
  · intro r inside le
    rw [held]
    have le : r.1 ≤ upto := le
    by_cases old : r.1 ≤ s.entry.tiered
    · exact .inl (inv.entry.there r inside old)
    · rcases inv.log.here r inside with lost | ⟨seg, inLog, number, row⟩
      · have := inv.log.gone
        omega
      · rcases List.mem_append.mp row with logged | filed
        · refine .inr (rows.mem_iff.mpr (List.mem_flatMap.mpr ⟨seg, List.mem_filter.mpr ⟨inLog, ?_⟩, logged⟩))
          exact decide_eq_true (by omega)
        · exact .inl (inv.log.filed seg inLog r.2 filed)
  · intro row inside
    rcases (held row).mp inside with was | new
    · exact inv.entry.from_ row was
    · obtain ⟨seg, inLog, logged⟩ := List.mem_flatMap.mp (rows.mem_iff.mp new)
      obtain ⟨inLog, between⟩ := List.mem_filter.mp inLog
      have between := of_decide_eq_true between
      exact ⟨seg.n, by omega, inv.log.logged seg inLog row (List.mem_append_left _ logged)⟩

theorem refile_inv (inv : Inv t s) (files : List (File ν)) (manifests : List (SealedFiles ν))
    (fits : Fits t s (.refile files manifests)) : Inv t (next t s (.refile files manifests)) := by
  obtain ⟨told, toldAll, rows⟩ := fits
  refine entry_inv inv _ ⟨⟨told, toldAll⟩, inv.entry.tiered, ?_, ?_⟩ (Nat.le_refl _) fun row inside =>
    rows.mem_iff.mpr inside
  · exact fun r inside le => rows.mem_iff.mpr (inv.entry.there r inside le)
  · exact fun row inside => inv.entry.from_ row (rows.mem_iff.mp inside)

theorem expire_inv (inv : Inv t s) (upto : Nat) (fits : Fits t s (.expire upto)) :
    Inv t (next t s (.expire upto)) := by
  obtain ⟨below, calls⟩ := fits
  refine ⟨⟨Nat.max_le.mpr ⟨inv.log.gone, below⟩, inv.log.numbered, ?_, ?_, ?_⟩, inv.entry, ?_, inv.known, ?_⟩
  · exact fun seg held => inv.log.logged seg (List.mem_filter.mp held).1
  · exact fun seg held => inv.log.filed seg (List.mem_filter.mp held).1
  · intro r inside
    show r.1 ≤ max s.gone upto ∨ _
    rcases inv.log.here r inside with lost | ⟨seg, held, number, row⟩
    · exact .inl (Nat.le_trans lost (Nat.le_max_left _ _))
    · by_cases goes : r.1 ≤ upto
      · exact .inl (Nat.le_trans goes (Nat.le_max_right _ _))
      · refine .inr ⟨seg, List.mem_filter.mpr ⟨held, decide_eq_true ?_⟩, number, row⟩
        omega
  · intro c inside
    have ok := inv.calls c inside
    have grown : (next t s (.expire upto)).committed = s.committed ++ [] := (List.append_nil _).symm
    refine ok.later (Nat.le_refl _) grown nofun ?_
    by_cases over' : c.phase = .over_
    · exact .inl over'
    · have := (ok.snapshot over').2
      exact .inr (Nat.max_le.mpr ⟨this, (calls c inside).resolve_left over'⟩)
  · obtain ⟨inOrder, known, began, atMost, atLeast⟩ := inv.answers
    exact ⟨inOrder, known, began, atMost, atLeast⟩

end files

section calls

/-- A call's next phase: nothing else changes. -/
theorem setCall_inv (inv : Inv t s) {i : Nat} {c : Call ν} {phase : Phase} (held : s.calls[i]? = some c)
    (ok : phase = .over_ ∨ c.phase ≠ .over_ ∧ PhaseOk t s c phase) : Inv t (s.setCall i c phase) := by
  have grown : (s.setCall i c phase).committed = s.committed ++ [] := (List.append_nil _).symm
  obtain ⟨inOrder, known, began, atMost, atLeast⟩ := inv.answers
  refine ⟨⟨inv.log.gone, inv.log.numbered, inv.log.logged, inv.log.filed, inv.log.here⟩, inv.entry, ?_, inv.known,
    ⟨inOrder, known, began, atMost, atLeast⟩⟩
  intro d inside
  have each : ∀ d, CallOk t s d → CallOk t (s.setCall i c phase) d := by
    intro d ok
    refine ok.later (Nat.le_refl _) grown nofun ?_
    by_cases over' : d.phase = .over_
    · exact .inl over'
    · exact .inr (ok.snapshot over').2
  apply each
  rcases List.mem_or_eq_of_mem_set inside with was | rfl
  · exact inv.calls d was
  · have before := inv.calls c (List.mem_of_getElem? held)
    rcases ok with rfl | ⟨running, ok⟩
    · exact ⟨before.began, fun running => absurd rfl running, trivial⟩
    · refine ⟨before.began, fun _ => before.snapshot running, ?_⟩
      cases phase <;> exact ok

theorem start_inv (inv : Inv t s) : Inv t (next t s .start) := by
  have grown : (next t s .start).committed = s.committed ++ [] := (List.append_nil _).symm
  obtain ⟨inOrder, known, began, atMost, atLeast⟩ := inv.answers
  refine ⟨⟨inv.log.gone, inv.log.numbered, inv.log.logged, inv.log.filed, inv.log.here⟩, inv.entry, ?_, inv.known,
    ⟨inOrder, known, began, atMost, atLeast⟩⟩
  intro c inside
  rcases List.mem_append.mp inside with was | new
  · have ok := inv.calls c was
    refine ok.later (Nat.le_refl _) grown nofun ?_
    by_cases over' : c.phase = .over_
    · exact .inl over'
    · exact .inr (ok.snapshot over').2
  · rw [List.mem_singleton.mp new]
    exact ⟨Nat.le_refl _, fun _ => ⟨inv.entry, inv.log.gone⟩, trivial⟩

theorem look_inv (inv : Inv t s) (i : Nat) : Inv t (next t s (.look i)) := by
  cases held : s.calls[i]? with
  | none =>
    simp only [next, held]
    exact inv
  | some c =>
    simp only [next, held]
    have ok := inv.calls c (List.mem_of_getElem? held)
    cases phase : c.phase with
    | started =>
      apply setCall_inv inv held
      exact .inr ⟨by rw [phase]; nofun, ok.began, Nat.le_refl _⟩
    | looked _ => exact inv
    | loaded _ _ _ => exact inv
    | read _ _ => exact inv
    | over_ => exact inv

/-- What a node knows of a table it read nothing of yet. -/
theorem known_reach (inv : Inv t s) :
    (s.known.getD (0, ∅)).1 ≤ s.visible ∧
      Reach t s.committed (s.known.getD (0, ∅)).1 (s.known.getD (0, ∅)).1 (s.known.getD (0, ∅)).2 := by
  cases held : s.known with
  | some k => exact inv.known k held
  | none =>
    refine ⟨Nat.zero_le _, ?_, nofun⟩
    intro n v inside le
    have positive : 0 < n := (inv.log.numbered _ inside).1
    have le : n ≤ 0 := le
    omega

theorem load_inv (inv : Inv t s) (i : Nat) : Inv t (next t s (.load i)) := by
  cases held : s.calls[i]? with
  | none =>
    simp only [next, held]
    exact inv
  | some c =>
    simp only [next, held]
    have ok := (inv.calls c (List.mem_of_getElem? held)).phase
    cases phase : c.phase with
    | looked upto =>
      rw [phase] at ok
      obtain ⟨le, reach⟩ := known_reach inv
      apply setCall_inv inv held
      exact .inr ⟨by rw [phase]; nofun, ok.1, ok.2, le, reach⟩
    | started => exact inv
    | loaded _ _ _ => exact inv
    | read _ _ => exact inv
    | over_ => exact inv

theorem tail_inv (lawful : Lawful t) (inv : Inv t s) (i : Nat) (ranged : Ranged t s (.tail i)) :
    Inv t (next t s (.tail i)) := by
  cases held : s.calls[i]? with
  | none =>
    simp only [next, held]
    exact inv
  | some c =>
    simp only [next, held]
    have callOk := inv.calls c (List.mem_of_getElem? held)
    have ok := callOk.phase
    cases phase : c.phase with
    | loaded upto seen parts =>
      have running : c.phase ≠ .over_ := by
        rw [phase]
        nofun
      rw [phase] at ok
      obtain ⟨after, visible, seenLe, known⟩ := ok
      obtain ⟨snapshot, kept⟩ := callOk.snapshot running
      dsimp only
      cases found : look t s.log c.entry upto seen parts with
      | none => exact setCall_inv inv held (.inl rfl)
      | some f =>
        obtain ⟨far, notFurther, reach⟩ := look_reach lawful snapshot.ok snapshot.there snapshot.from_ known
          (ranged c held upto seen parts phase) inv.log.logged inv.log.here kept snapshot.tiered after found
        have began : c.began ≤ f.1 := Nat.le_trans after far
        have within : f.1 ≤ s.visible := Nat.le_trans notFurther (Nat.max_le.mpr ⟨seenLe, visible⟩)
        have here : PhaseOk t s c (.read f.1 f.2) := ⟨began, within, reach⟩
        exact setCall_inv inv held (.inr ⟨running, here⟩)
    | started => exact inv
    | looked _ => exact inv
    | read _ _ => exact inv
    | over_ => exact inv

/-- The state a call leaves: of the two that ran side by side, the one that read further, which knows no less. -/
theorem kept_spec (inv : Inv t s) {seen : Nat} {parts : Parts} (visible : seen ≤ s.visible)
    (reach : Reach t s.committed seen seen parts) {kept : Nat × Parts}
    (is : kept = if (s.known.getD (seen, parts)).1 < seen then (seen, parts) else s.known.getD (seen, parts)) :
    seen ≤ kept.1 ∧ kept.1 ≤ s.visible ∧ Reach t s.committed kept.1 kept.1 kept.2 ∧
      ∀ k, s.known = some k → AtLeast (newest kept.2) (newest k.2) := by
  cases held : s.known with
  | none =>
    rw [held, Option.getD_none, if_neg (Nat.lt_irrefl _)] at is
    rw [is]
    exact ⟨Nat.le_refl _, visible, reach, nofun⟩
  | some k =>
    obtain ⟨le, reach'⟩ := inv.known k held
    rw [held, Option.getD_some] at is
    by_cases less : k.1 < seen
    · rw [if_pos less] at is
      rw [is]
      refine ⟨Nat.le_refl _, visible, reach, fun k' same => ?_⟩
      rw [← Option.some.inj same]
      exact reach'.atLeast reach (Nat.le_of_lt less)
    · rw [if_neg less] at is
      rw [is]
      refine ⟨Nat.not_lt.mp less, le, reach', fun k' same => ?_⟩
      rw [← Option.some.inj same]
      exact AtLeast.refl _

theorem finish_inv (inv : Inv t s) (i : Nat) : Inv t (next t s (.finish i)) := by
  cases held : s.calls[i]? with
  | none =>
    simp only [next, held]
    exact inv
  | some c =>
    simp only [next, held]
    have callOk := inv.calls c (List.mem_of_getElem? held)
    cases phase : c.phase with
    | read seen parts =>
      have read := callOk.phase
      rw [phase] at read
      obtain ⟨began, visible, reach⟩ := read
      obtain ⟨far, within, reachKept, more⟩ := kept_spec inv visible reach rfl
      have moved : Inv t (s.setCall i c .over_) := setCall_inv inv held (.inl rfl)
      obtain ⟨inOrder, known, beganAll, atMost, atLeast⟩ := inv.answers
      dsimp only [Node.finish]
      generalize (if (s.known.getD (seen, parts)).1 < seen then (seen, parts)
        else s.known.getD (seen, parts)) = kept at far within reachKept more
      refine ⟨⟨inv.log.gone, inv.log.numbered, inv.log.logged, inv.log.filed, inv.log.here⟩, inv.entry, ?_, ?_,
        ⟨?_, ?_, ?_, ?_, ?_⟩⟩
      · intro d inside
        have ok := moved.calls d inside
        refine ⟨ok.began, ok.snapshot, ?_⟩
        have phase := ok.phase
        cases is : d.phase <;> rw [is] at phase <;> exact phase
      · intro k is
        rw [← Option.some.inj is]
        exact ⟨within, reachKept⟩
      · apply List.pairwise_append.mpr
        refine ⟨inOrder, List.pairwise_singleton _ _, ?_⟩
        intro a inside b new
        rw [List.mem_singleton.mp new]
        obtain ⟨k, is, le⟩ := known a inside
        exact (more k is).trans le
      · intro a inside
        refine ⟨kept, rfl, ?_⟩
        rcases List.mem_append.mp inside with was | new
        · obtain ⟨k, is, le⟩ := known a was
          exact (more k is).trans le
        · rw [List.mem_singleton.mp new]
          exact AtLeast.refl _
      · intro a inside
        rcases List.mem_append.mp inside with was | new
        · exact beganAll a was
        · rw [List.mem_singleton.mp new]
          exact callOk.began
      · intro a inside x is
        rcases List.mem_append.mp inside with was | new
        · exact atMost a was x is
        · rw [List.mem_singleton.mp new] at is ⊢
          obtain ⟨n, v, held, le, above⟩ := reachKept.ends x is
          exact ⟨n, v, held, Nat.le_trans le within, above⟩
      · intro a inside n v held le
        rcases List.mem_append.mp inside with was | new
        · exact atLeast a was n v held le
        · rw [List.mem_singleton.mp new] at le ⊢
          exact reachKept.covers n v held (Nat.le_trans le (Nat.le_trans began far))
    | started => exact inv
    | looked _ => exact inv
    | loaded _ _ _ => exact inv
    | over_ => exact inv

end calls

theorem new_inv (tiered : Nat) : Inv t (.new tiered) where
  log := ⟨Nat.le_refl _, nofun, nofun, nofun, nofun⟩
  entry := ⟨⟨nofun, nofun⟩, Nat.le_refl _, nofun, nofun⟩
  calls := nofun
  known := nofun
  answers := ⟨List.Pairwise.nil, nofun, nofun, nofun, nofun⟩

theorem next_inv (lawful : Lawful t) (op : Op ν) (inv : Inv t s)
    (allowed : ((table t).only (Ranged t)).Allows s op) : Inv t (next t s op) := by
  obtain ⟨fits, ranged⟩ := allowed
  cases op with
  | commit logged files => exact commit_inv inv logged files fits
  | tier upto files => exact tier_inv inv upto files fits
  | refile files manifests => exact refile_inv inv files manifests fits
  | expire upto => exact expire_inv inv upto fits
  | start => exact start_inv inv
  | look i => exact look_inv inv i
  | load i => exact load_inv inv i
  | tail i => exact tail_inv lawful inv i ranged
  | finish i => exact finish_inv inv i

theorem run_inv (lawful : Lawful t) (tiered : Nat) (ops : List (Op ν))
    (legal : ((table t).only (Ranged t)).Legal (.new tiered) ops) : Inv t ((table t).run (.new tiered) ops) := by
  apply Machine.run_invariant ((table t).only (Ranged t)) (Inv t) _ _ ops (new_inv tiered) legal
  exact fun s op inv allowed => next_inv lawful op inv allowed

end Pondra.Watermark
