import Pondra.Tier.Published

set_option autoImplicit false

namespace Pondra.Tier

open Foremost Machines Dicts

variable {ρ κ : Type} {t : Keyed ρ κ} {s : Shared ρ}

variable [DecidableEq κ]

/-- A shared table's state: positions delete only rows behind, each counted once, and all of them where each
generation is published. -/
structure Shared.Inv (t : Keyed ρ κ) (s : Shared ρ) : Prop where
  tidy : Tidy t s.table
  carried : t.order = none → ∀ k, Carried (fun r => t.dead s.table r = true) (t.fileRow s.table.files k)
    (t.logRow s.table.log k 0 s.table.tiered)
  unordered : s.shadows = true → t.order = none
  unused : ∀ path, s.table.paths ≤ path → s.marks.lookup path = none
  sound : ∀ f ∈ s.table.files, ∀ i r, f.rows[i]? = some r → i ∈ s.gone f → t.Behind s f r
  counted : ∀ f ∈ s.table.files, (s.marksOf f).deleted = (s.gone f).length ∧ (s.gone f).Nodup
  complete : s.shadows = true → ∀ f ∈ s.table.files, ∀ i r, f.rows[i]? = some r → t.Behind s f r → i ∈ s.gone f

theorem Shared.Inv.exact (inv : s.Inv t) (on : s.shadows = true) : Exact t s :=
  fun f file i r at_ => ⟨inv.sound f file i r at_, inv.complete on f file i r at_⟩

/-- Nothing but the log changes. -/
theorem Shared.Inv.log (inv : s.Inv t) (table : Table ρ) (files : table.files = s.table.files)
    (paths : table.paths = s.table.paths) (tidy : Tidy t table)
    (carried : t.order = none → ∀ k, Carried (fun r => t.dead table r = true) (t.fileRow table.files k)
      (t.logRow table.log k 0 table.tiered)) : Shared.Inv t { s with table := table } := by
  have behind : ∀ f r, t.Behind { s with table := table } f r ↔ t.Behind s f r := by
    intro f r
    simp only [Keyed.Behind, files]
  refine ⟨tidy, carried, inv.unordered, ?_, ?_, ?_, ?_⟩
  · intro path above
    apply inv.unused
    rw [← paths]
    exact above
  · intro f file i r at_ gone
    rw [behind]
    exact inv.sound f (files ▸ file) i r at_ gone
  · intro f file
    exact inv.counted f (files ▸ file)
  · intro on f file i r at_ is
    exact inv.complete on f (files ▸ file) i r at_ ((behind f r).mp is)

/-- A round's files, in the place of some of the table's own, and `shadow` run on them. -/
theorem Shared.Inv.land (inv : s.Inv t) (old : List (DataFile ρ)) (jobs : List (Kind ρ)) (now : Int) (tiered : Nat)
    (times : List Int) (on older : Bool) (lands : Lands t s.table old now jobs tiered) (s₁ : Shared ρ)
    (is : s₁ = { s with table := landed s.table old (t.drafts s.table now jobs) tiered times, shadows := on })
    (carried : t.order = none → ∀ k, Carried (fun r => t.dead s₁.table r = true) (t.fileRow s₁.table.files k)
      (t.logRow s₁.table.log k 0 s₁.table.tiered))
    (behind : ∀ f ∈ old, ∀ r, t.Behind s f r → t.Behind s₁ f r)
    (apart : (on && t.shadowing s.publish) = true → older = true →
      ∀ f ∈ filed s.table.paths (t.drafts s.table now jobs), ∀ r ∈ f.rows, t.deleted r = true →
        ∀ g ∈ filed s.table.paths (t.drafts s.table now jobs), f.ord < g.ord → t.key r ∉ g.rows.map t.key)
    (all : (on && t.shadowing s.publish) = true → ∀ f ∈ s₁.table.files, ∀ i r, f.rows[i]? = some r →
      t.Behind s₁ f r → i ∉ s.gone f → f ∈ filed s.table.paths (t.drafts s.table now jobs) ∧ t.deleted r = true ∨
        older = true ∧ ∃ g ∈ filed s.table.paths (t.drafts s.table now jobs), f.ord < g.ord ∧ t.key r ∈ g.rows.map t.key) :
    Shared.Inv t (t.shadow s₁ ((t.deal s.table now jobs).map DataFile.path) older) := by
  have tidy := landed_tidy inv.tidy old jobs tiered lands times
  have files : s₁.table.files = old ++ filed s.table.paths (t.drafts s.table now jobs) := by rw [is]; rfl
  have gone : ∀ f, s₁.gone f = s.gone f := fun f => by rw [is]; rfl
  have marks : ∀ f, s₁.marksOf f = s.marksOf f := fun f => by rw [is]; rfl
  rw [deal_filed]
  generalize drawn : filed s.table.paths (t.drafts s.table now jobs) = new at *
  have unused : ∀ f ∈ new, s.marks.lookup f.path = none := by
    intro f inside
    rw [← drawn] at inside
    exact inv.unused f.path (mem_filed _ _ f inside).1
  have fresh : ∀ f ∈ new, s.marksOf f = ⟨[], 0⟩ := by
    intro f inside
    rw [Shared.marksOf, unused f inside]
    rfl
  have named : ∀ f ∈ s₁.table.files, f.path ∈ new.map DataFile.path ↔ f ∈ new := by
    intro f file
    constructor
    · intro listed
      obtain ⟨g, inside, path⟩ := List.mem_map.mp listed
      have paths : (s₁.table.files.map DataFile.path).Nodup := by rw [is]; exact tidy.paths
      have there : g ∈ s₁.table.files := by rw [files]; exact List.mem_append_right _ inside
      rw [List.inj_on_of_nodup_map paths file there path.symm]
      exact inside
    · exact List.mem_map_of_mem
  have newer : ∀ f k, k ∈ t.newerKeys s₁ (new.map DataFile.path) f ↔
      ∃ g ∈ new, f.ord < g.ord ∧ k ∈ g.rows.map t.key := by
    intro f k
    rw [mem_newerKeys]
    · constructor
      · intro ⟨g, file, listed, less, has⟩
        exact ⟨g, (named g file).mp listed, less, has⟩
      · intro ⟨g, inside, less, has⟩
        have file : g ∈ s₁.table.files := by rw [files]; exact List.mem_append_right _ inside
        exact ⟨g, file, (named g file).mpr inside, less, has⟩
    · intro g file listed
      rw [gone, Shared.gone, fresh g ((named g file).mp listed)]
      rfl
  have mem_added : ∀ f ∈ s₁.table.files, ∀ i, i ∈ t.added s₁ (new.map DataFile.path) older f ↔
      ∃ r, f.rows[i]? = some r ∧ i ∉ s.gone f ∧ (f ∈ new ∧ t.deleted r = true ∨
        older = true ∧ ∃ g ∈ new, f.ord < g.ord ∧ t.key r ∈ g.rows.map t.key) := by
    intro f file i
    rw [Keyed.added, List.mem_append, List.mem_ite_nil_right, List.mem_ite_nil_right, mem_markersOf, mem_shadowedOf,
      named f file, gone]
    simp only [newer]
    constructor
    · rintro (⟨inside, r, at_, left, marker⟩ | ⟨looks, r, at_, left, has⟩)
      · exact ⟨r, at_, left, .inl ⟨inside, marker⟩⟩
      · exact ⟨r, at_, left, .inr ⟨looks, has⟩⟩
    · rintro ⟨r, at_, left, ⟨inside, marker⟩ | ⟨looks, has⟩⟩
      · exact .inl ⟨inside, r, at_, left, marker⟩
      · exact .inr ⟨looks, r, at_, left, has⟩
  have spec := shadow_spec (t := t) (s := s₁) (new.map DataFile.path) older (by rw [is]; exact tidy.paths)
  generalize t.shadow s₁ (new.map DataFile.path) older = s' at spec
  have publish : s₁.publish = s.publish := by rw [is]
  have turned : s'.shadows = (on && t.shadowing s.publish) := by
    rw [spec.shadows, publish, is]
  have table : s'.table = s₁.table := spec.table
  have behind' : ∀ f r, t.Behind s' f r ↔ t.Behind s₁ f r := by
    intro f r
    simp only [Keyed.Behind, table]
  have kept : s'.shadows = false → ∀ f, s'.gone f = s.gone f ∧ s'.marksOf f = s.marksOf f := by
    intro off f
    rw [← gone, ← marks]
    simp only [Shared.gone, Shared.marksOf, spec.off off, and_self]
  have marked : ∀ f, s.marksOf f = ⟨[], 0⟩ → s.gone f = [] := by
    intro f none
    rw [Shared.gone, none]
    rfl
  refine ⟨?_, ?_, ?_, ?_, ?_, ?_, ?_⟩
  · rw [table, is]
    exact tidy
  · rw [table]
    exact carried
  · intro shadows
    rw [turned, Bool.and_eq_true, Keyed.shadowing, Bool.and_eq_true] at shadows
    exact Option.isNone_iff_eq_none.mp shadows.2.1
  · intro path above
    have paths : s'.table.paths = s.table.paths + new.length := by
      rw [table, is, ← drawn]
      rfl
    rw [spec.other path]
    · rw [is]
      exact inv.unused path (by omega)
    · intro f file same
      have used := tidy.used f (by rw [is] at file; exact file)
      have total : (landed s.table old (t.drafts s.table now jobs) tiered times).paths =
          s.table.paths + new.length := by rw [← drawn]; rfl
      omega
  · intro f file i r at_ inside
    rw [behind']
    rw [table] at file
    have before : i ∈ s.gone f → t.Behind s₁ f r := by
      intro there
      rw [files] at file
      rcases List.mem_append.mp file with left | fresh'
      · exact behind f left r (inv.sound f (lands.part.subset left) i r at_ there)
      · rw [marked f (fresh f fresh')] at there
        cases there
    cases shadows : s'.shadows with
    | false =>
      rw [(kept shadows f).1] at inside
      exact before inside
    | true =>
      rw [spec.gone shadows f file, List.mem_append, gone, mem_added f file] at inside
      rcases inside with there | ⟨x, here, _, marker | ⟨_, g, other, less, has⟩⟩
      · exact before there
      · rw [at_] at here
        rw [Option.some.inj here]
        exact .inl marker.2
      · rw [at_] at here
        rw [Option.some.inj here]
        exact .inr ⟨g, by rw [files]; exact List.mem_append_right _ other, less, has⟩
  · intro f file
    rw [table] at file
    have before : (s.marksOf f).deleted = (s.gone f).length ∧ (s.gone f).Nodup := by
      have there := file
      rw [files] at there
      rcases List.mem_append.mp there with left | new'
      · exact inv.counted f (lands.part.subset left)
      · rw [marked f (fresh f new'), fresh f new']
        exact ⟨rfl, List.nodup_nil⟩
    cases shadows : s'.shadows with
    | false =>
      rw [(kept shadows f).1, (kept shadows f).2]
      exact before
    | true =>
      rw [spec.counted shadows f file, spec.gone shadows f file, gone, marks, before.1, List.length_append,
        List.nodup_append]
      refine ⟨rfl, before.2, ?_, ?_⟩
      · rw [Keyed.added, List.nodup_append]
        refine ⟨?_, ?_, ?_⟩
        · split
          · exact placed_nodup f _
          · exact List.nodup_nil
        · split
          · exact placed_nodup f _
          · exact List.nodup_nil
        · intro i first j second same
          rw [List.mem_ite_nil_right, mem_markersOf, named f file] at first
          rw [List.mem_ite_nil_right, mem_shadowedOf] at second
          obtain ⟨inside, r, at_, _, marker⟩ := first
          obtain ⟨looks, x, at', _, has⟩ := second
          rw [← same, at_] at at'
          rw [← Option.some.inj at', newer] at has
          obtain ⟨g, other, less, has⟩ := has
          exact apart (turned ▸ shadows) looks f inside r (List.mem_of_getElem? at_) marker g other less has
      · intro i there j inside same
        rw [mem_added f file] at inside
        obtain ⟨_, _, left, _⟩ := inside
        exact left (same ▸ there)
  · intro shadows f file i r at_ is_
    rw [table] at file
    rw [behind'] at is_
    rw [spec.gone shadows f file, List.mem_append, gone, mem_added f file]
    by_cases there : i ∈ s.gone f
    · exact .inl there
    · exact .inr ⟨r, at_, there, all (turned ▸ shadows) f file i r at_ is_ there⟩

/-! ### Rounds -/

omit [DecidableEq κ] in
theorem one_same (files : List (DataFile ρ)) (is : one files = true) (f g : DataFile ρ) (first : f ∈ files)
    (second : g ∈ files) : f.ord = g.ord := by
  have head : ∀ (f : DataFile ρ) (rest : List (DataFile ρ)), one (f :: rest) = true →
      ∀ g ∈ f :: rest, g.ord = f.ord := by
    intro f rest
    induction rest generalizing f with
    | nil =>
      intro _ g inside
      rw [List.mem_singleton.mp inside]
    | cons next others ih =>
      intro is g inside
      rw [one, List.tail_cons, List.zip_cons_cons, List.all_cons, Bool.and_eq_true, beq_iff_eq] at is
      rcases List.mem_cons.mp inside with rfl | there
      · rfl
      · exact (ih next is.2 g there).trans is.1.symm
  cases files with
  | nil => cases first
  | cons top rest => exact (head top rest is f first).trans (head top rest is g second).symm

theorem runJob_output (s : Table ρ) (now : Int) (kind : Kind ρ) (d : Nat × Bool × String × List ρ)
    (inside : d ∈ t.runJob s now kind) (r : ρ) (row : r ∈ d.2.2.2) : r ∈ t.output s now kind := by
  apply (split_perm (t := t) (t.output s now kind)).mem_iff.mp
  obtain ⟨p, there, rfl⟩ := List.mem_map.mp inside
  exact List.mem_flatMap.mpr ⟨p, (List.mem_filter.mp there).1, row⟩

theorem output_input (s : Table ρ) (now : Int) (kind : Kind ρ) (r : ρ) (inside : r ∈ t.output s now kind) :
    ∃ e ∈ inputs s kind, e.2 = r := by
  obtain ⟨k, _, best⟩ := List.mem_filterMap.mp (List.mem_filter.mp inside).1
  obtain ⟨e, there, is⟩ := best_mem t _ r best
  exact ⟨e, (List.mem_filter.mp there).1, is⟩

/-- A round's files are of its jobs, each by its `ord`. -/
theorem filed_job (s : Table ρ) (now : Int) (jobs : List (Kind ρ)) (path : Nat) (f : DataFile ρ)
    (inside : f ∈ filed path (t.drafts s now jobs)) :
    ∃ kind ∈ jobs, f.ord = ordOf kind ∧ ∀ r ∈ f.rows, r ∈ t.output s now kind := by
  obtain ⟨_, _, d, there, ord, rows⟩ := mem_filed path _ f inside
  obtain ⟨kind, of, mine⟩ := List.mem_flatMap.mp there
  refine ⟨kind, of, ord.trans (runJob_ord s now kind d mine).1, fun r row => ?_⟩
  rw [rows] at row
  exact runJob_output s now kind d mine r row

theorem Shared.Inv.tier (inv : s.Inv t) (hwm : Nat) (fill : Option Nat) (nodes : Nat) (now : Int)
    (apart : t.Apart s (.tier hwm fill nodes now)) : Shared.Inv t (t.nextShared s (.tier hwm fill nodes now)) := by
  simp only [Keyed.nextShared]
  rcases tier_step inv.tidy hwm fill nodes now with ⟨none, _⟩ | ⟨upto, covers, within, further, is⟩
  · rw [none]
    exact inv
  · have some : folds s.table (foldEnd hwm fill) nodes ≠ [] := by
      intro none
      rw [none] at covers
      have same : s.table.tiered = upto := covers
      omega
    rw [if_neg (by simpa using some), is]
    have carried : t.order = none → ∀ k, _ := fun unordered k =>
      tier_kept unordered inv.tidy hwm fill nodes now k (inv.carried unordered k)
    rw [is] at carried
    have apart := apart (by simpa using some)
    generalize folds s.table (foldEnd hwm fill) nodes = jobs at *
    have lands := folds_land inv.tidy now jobs upto covers within
    have newer : ∀ f ∈ s.table.files, ∀ g ∈ filed s.table.paths (t.drafts s.table now jobs), f.ord < g.ord := by
      intro f file g inside
      obtain ⟨_, _, d, there, ord, _⟩ := mem_filed _ _ g inside
      rw [ord]
      exact lands.newer f file d there
    apply inv.land s.table.files jobs now upto _ _ true lands _ rfl carried
    · intro f _ r behind
      rcases behind with marker | ⟨g, file, less, has⟩
      · exact .inl marker
      · exact .inr ⟨g, List.mem_append_left _ file, less, has⟩
    · intro on _ f inside r row marker g other less has
      obtain ⟨x, row', same⟩ := List.mem_map.mp has
      rw [Bool.and_assoc, Bool.and_eq_true, Bool.and_eq_true, Bool.or_eq_true] at on
      obtain ⟨pairs, _⟩ := apart on.1 on.2.1
      obtain ⟨a, first, ord, out⟩ := filed_job s.table now jobs _ f inside
      obtain ⟨b, second, ord', out'⟩ := filed_job s.table now jobs _ g other
      obtain ⟨e, read, of⟩ := output_input s.table now b x (out' x row')
      -- the jobs' ords rise
      let Far : Kind ρ → Kind ρ → Prop := fun a b => ordOf a < ordOf b → ∀ r ∈ t.output s.table now a,
        t.deleted r = true → ∀ e ∈ inputs s.table b, t.key e.2 ≠ t.key r
      have both : jobs.Pairwise fun a b => Far a b ∧ Far b a := by
        refine (pairs.and (covers_rising _ _ _ covers)).imp fun {a b} both => ⟨fun _ => both.1, fun back => ?_⟩
        have := both.2
        omega
      have symmetric : Std.Symm fun a b => Far a b ∧ Far b a := ⟨fun a b both => ⟨both.2, both.1⟩⟩
      have far := (both.forall_of_forall (fun a _ => ⟨fun less => absurd less (Nat.lt_irrefl _),
        fun less => absurd less (Nat.lt_irrefl _)⟩) first second).1
      rw [ord, ord'] at less
      exact far less r (out r row) marker e read (by rw [of, same])
    · intro on f file i r at_ behind left
      rw [Bool.and_assoc, Bool.and_eq_true, Bool.and_eq_true, Bool.or_eq_true] at on
      obtain ⟨_, none⟩ := apart on.1 on.2.1
      rcases List.mem_append.mp file with old | new
      · cases shadows : s.shadows with
        | true =>
          have whole := inv.complete shadows f old i r at_
          rcases behind with marker | ⟨g, file', less, has⟩
          · exact absurd (whole (.inl marker)) left
          · rcases List.mem_append.mp file' with old' | new'
            · exact absurd (whole (.inr ⟨g, old', less, has⟩)) left
            · exact .inr ⟨rfl, g, new', less, has⟩
        | false =>
          rcases behind with marker | ⟨g, file', less, has⟩
          · have there : i ∈ t.markersOf s f := (mem_markersOf f i).mpr ⟨r, at_, left, marker⟩
            rw [none shadows f old] at there
            cases there
          · rcases List.mem_append.mp file' with old' | new'
            · have single : one s.table.files = true := by
                rcases on.2.1 with on | single
                · rw [shadows] at on
                  cases on
                · exact single
              have same := one_same s.table.files single f g old old'
              omega
            · exact .inr ⟨rfl, g, new', less, has⟩
      · rcases behind with marker | ⟨g, file', less, has⟩
        · exact .inl ⟨new, marker⟩
        · rcases List.mem_append.mp file' with old' | new'
          · have := newer g old' f new
            omega
          · exact .inr ⟨rfl, g, new', less, has⟩

/-! ### Merges -/

/-- A merged run's keys are in what it writes. -/
theorem squash_keys (s : Table ρ) (tidy : Tidy t s) (now : Int) (g : DataFile ρ) (run : g ∈ runOf s.files) (k : κ)
    (has : k ∈ g.rows.map t.key) :
    ∃ f ∈ filed s.paths (t.drafts s now [.squash (runOf s.files)]), k ∈ f.rows.map t.key := by
  obtain ⟨x, row, same⟩ := List.mem_map.mp has
  cases held : t.fileRow (runOf s.files) k with
  | none =>
    rw [Keyed.fileRow, pick_eq_none] at held
    have there : x ∈ t.rowsOf k ((byAge (runOf s.files)).flatMap (·.rows)) :=
      (mem_rowsOf t k _ x).mpr ⟨List.mem_flatMap.mpr ⟨g, (byAge_perm _).mem_iff.mpr run, row⟩, same⟩
    rw [held] at there
    cases there
  | some r =>
    have written := single_drafts (t := t) (s := s) now (.squash (runOf s.files)) k
    rw [squash_writes tidy now, held] at written
    obtain ⟨inside, key⟩ := (mem_rowsOf t k _ r).mp (pick_mem _ _ _ written)
    rw [← filed_rows s.paths] at inside
    obtain ⟨f, file, there⟩ := List.mem_flatMap.mp inside
    exact ⟨f, file, List.mem_map.mpr ⟨r, there, key⟩⟩

theorem Shared.Inv.maintain (inv : s.Inv t) (anyway : Bool) (now : Int) :
    Shared.Inv t (t.nextShared s (.maintain anyway now)) := by
  simp only [Keyed.nextShared]
  by_cases needed : merges s.table (!s.publish.isEmpty) anyway = true
  · have deals : dealt s.table (.maintain (!s.publish.isEmpty) anyway now) =
        [mergeJob s.table (!s.publish.isEmpty)] := if_pos needed
    have carried : t.order = none → ∀ k, _ := fun unordered k =>
      maintain_kept inv.tidy (!s.publish.isEmpty) anyway now k (inv.carried unordered k)
    rw [if_pos needed]
    rcases maintain_step inv.tidy (!s.publish.isEmpty) anyway now with ⟨none, _⟩ | ⟨job, is⟩ | ⟨job, is⟩
    · rw [deals] at none
      cases none
    · rw [deals] at job
      rw [is] at carried ⊢
      rw [(List.cons.inj job).1]
      apply inv.land [] [.compact s.table.tiered 0] now s.table.tiered _ s.shadows false
        (compact_land inv.tidy now) _ rfl carried
      · exact fun f old => absurd old List.not_mem_nil
      · exact fun _ older => absurd older Bool.noConfusion
      · intro _ f file i r _ behind _
        have ords : ∀ g ∈ filed s.table.paths (t.drafts s.table now [.compact s.table.tiered 0]),
            g.ord = s.table.tiered := by
          intro g inside
          obtain ⟨kind, of, ord, _⟩ := filed_job s.table now _ _ g inside
          rw [List.mem_singleton.mp of] at ord
          exact ord
        rcases behind with marker | ⟨g, other, less, _⟩
        · exact .inl ⟨file, marker⟩
        · rw [ords f file, ords g other] at less
          exact absurd less (Nat.lt_irrefl _)
    · rw [deals] at job
      rw [is] at carried ⊢
      have squash := (List.cons.inj job).1
      rw [squash]
      -- what is published is compacted
      have alone : ¬(s.shadows && t.shadowing s.publish) = true := by
        intro on
        rw [Bool.and_eq_true, Keyed.shadowing, Bool.and_eq_true] at on
        have whole : merged s.table (!s.publish.isEmpty) = s.table.files := by
          rw [on.2.2]
          rfl
        rw [mergeJob, whole, if_pos rfl] at squash
        cases squash
      apply inv.land _ [.squash (runOf s.table.files)] now s.table.tiered _ s.shadows false
        (squash_land inv.tidy now) _ rfl carried
      · intro f old r behind
        rcases behind with marker | ⟨g, file, less, has⟩
        · exact .inl marker
        · refine .inr ?_
          by_cases run : runFrom (sizes s.table.files) ≤ g.ord
          · obtain ⟨h, new, there⟩ := squash_keys s.table inv.tidy now g ((mem_runOf _ g).mpr ⟨file, run⟩) _ has
            obtain ⟨_, _, d, inside, ord, _⟩ := mem_filed _ _ h new
            have later := (squash_land inv.tidy now).newer f old d inside
            exact ⟨h, List.mem_append_right _ new, by omega, there⟩
          · exact ⟨g, List.mem_append_left _ (List.mem_filter.mpr ⟨file, by simpa using run⟩), less, has⟩
      · exact fun on => absurd on alone
      · exact fun on => absurd on alone
  · rw [if_neg needed]
    exact inv

/-! ### Runs -/

theorem Shared.Inv.next (inv : s.Inv t) (op : SharedOp ρ) (apart : t.Apart s op) : Shared.Inv t (t.nextShared s op) := by
  cases op with
  | commit rows most =>
    refine inv.log _ rfl rfl (commit_tidy inv.tidy rows most) fun unordered k => ?_
    have same := commit_kept inv.tidy rows most k
    have kept := inv.carried unordered k
    rw [← same] at kept
    exact kept
  | tier hwm fill nodes now => exact inv.tier hwm fill nodes now apart
  | maintain anyway now => exact inv.maintain anyway now
  | idle least hwm =>
    have tidy := idle_tidy inv.tidy least hwm
    simp only [Keyed.nextShared, idled] at tidy ⊢
    by_cases moves : s.table.tiered < min hwm s.table.visible ∧
        (tail s.table.log (min least s.table.tiered) (min hwm s.table.visible)).isEmpty = true
    · rw [if_pos moves] at tidy ⊢
      refine inv.log _ rfl rfl tidy fun unordered k => ?_
      have split := logRow_split (t := t) inv.tidy.sound.numbered k 0 s.table.tiered
        (min hwm s.table.visible) (Nat.zero_le _) (Nat.le_of_lt moves.1)
      rw [idle_none moves.2 k, merge_none] at split
      have kept := inv.carried unordered k
      rw [← split] at kept
      exact kept
    · rw [if_neg moves]
      exact inv
  | share formats =>
    exact ⟨inv.tidy, inv.carried, inv.unordered, inv.unused, inv.sound, inv.counted, inv.complete⟩

theorem Shared.Inv.made (n : Nat) : Shared.Inv t (Shared.made n) where
  tidy := (made_same n).tidy
  carried _ _ := .inl rfl
  unordered := nofun
  unused _ _ := rfl
  sound := nofun
  counted := nofun
  complete := nofun

theorem Shared.Inv.published (inv : s.Inv t) (on : s.shadows = true) : Published t s := by
  have unordered := inv.unordered on
  have rows := published_of unordered (inv.exact on) inv.tidy.sound
  refine ⟨fun k => ?_, fun k r newest alive => ?_, fun f file => ?_⟩
  · rw [rows k]
    rcases inv.carried unordered k with same | ⟨none, _⟩
    · rw [same]
      cases newest : t.logRow s.table.log k 0 s.table.tiered with
      | none => exact .inl rfl
      | some r =>
        cases marker : t.deleted r with
        | true => exact .inl (by rw [Option.filter_some, if_neg (by simp [marker])]; rfl)
        | false => exact .inr ⟨r, rfl, marker, by rw [Option.filter_some, if_pos (by simp [marker])]; rfl⟩
    · rw [none]
      exact .inl rfl
  · have marker : t.deleted r = false := by
      rw [Keyed.dead, Bool.or_eq_false_iff] at alive
      exact alive.1
    rw [rows k]
    rcases inv.carried unordered k with same | ⟨_, dead⟩
    · rw [same, newest, Option.filter_some, if_pos (by simp [marker])]
      rfl
    · have gone : t.dead s.table r = true := dead r newest
      rw [alive] at gone
      cases gone
  · obtain ⟨count, once⟩ := inv.counted f file
    rw [count, once.dedup]

instance [DecidableEq ρ] (t : Keyed ρ κ) (s : Shared ρ) :
    (op : SharedOp ρ) → Decidable (((shared t).only t.Apart).Allows s op)
  | .tier hwm fill nodes now =>
    inferInstanceAs (Decidable (True ∧ (¬(folds s.table (foldEnd hwm fill) nodes).isEmpty = true →
      t.shadowing s.publish = true → s.shadows = true ∨ one s.table.files = true →
        ((folds s.table (foldEnd hwm fill) nodes).Pairwise fun a b =>
          ∀ r ∈ t.output s.table now a, t.deleted r = true → ∀ e ∈ inputs s.table b, t.key e.2 ≠ t.key r) ∧
        (s.shadows = false → ∀ f ∈ s.table.files, t.markersOf s f = []))))
  | .commit _ _ => inferInstanceAs (Decidable (True ∧ True))
  | .maintain _ _ => inferInstanceAs (Decidable (True ∧ True))
  | .idle _ _ => inferInstanceAs (Decidable (True ∧ True))
  | .share _ => inferInstanceAs (Decidable (True ∧ True))

/-- A user's phone: user, phone and whether it is taken back. -/
def phones : Keyed (Nat × Nat × Bool) Nat := ⟨fun r => r.1, fun r => r.2.2, none, none, none⟩

/-- User 1's phone changes and user 2's goes, each folded by a node. -/
def phoneOps : List (SharedOp (Nat × Nat × Bool)) :=
  [.share ["delta"], .commit [(1, 10, false), (2, 20, false)] 1, .tier 9 none 1 0, .commit [(1, 11, false)] 1,
    .commit [(2, 0, true)] 1, .tier 9 none 2 0]

/-- One node folds user 1's marker, the other the phone that follows. -/
def backOps : List (SharedOp (Nat × Nat × Bool)) :=
  [.share ["delta"], .commit [(1, 10, false)] 1, .tier 9 none 1 0, .commit [(1, 0, true)] 1, .commit [(1, 11, false)] 1,
    .tier 9 none 2 0]

end Pondra.Tier
