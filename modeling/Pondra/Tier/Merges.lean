import Pondra.Tier.Reads

set_option autoImplicit false

namespace Pondra.Tier

open Foremost

variable {ρ κ : Type} {t : Keyed ρ κ} {s : Table ρ}

/-! ### Files merged and files left -/

theorem byAge_split (files : List (DataFile ρ)) (since : Nat) :
    byAge files = (byAge files).filter (fun f => !decide (since ≤ f.ord)) ++
      (byAge files).filter fun f => decide (since ≤ f.ord) := by
  have sorted := byAge_sorted files
  generalize byAge files = oldest at sorted
  induction oldest with
  | nil => rfl
  | cons f rest ih =>
    rw [List.pairwise_cons] at sorted
    have others := ih sorted.2
    by_cases late : since ≤ f.ord
    · -- so are those after it
      have all : ∀ g ∈ f :: rest, since ≤ g.ord := by
        intro g inside
        rcases List.mem_cons.mp inside with rfl | there
        · exact late
        · exact Nat.le_trans late (sorted.1 g there)
      rw [List.filter_eq_nil_iff.mpr fun g inside => by simpa using all g inside,
        List.filter_eq_self.mpr fun g inside => decide_eq_true (all g inside)]
      rfl
    · rw [List.filter_cons_of_pos (by simpa using late),
        List.filter_cons_of_neg (by simpa using late), List.cons_append, ← others]

/-- Files are known by their paths. -/
theorem replace_eq (tidy : Tidy t s) (old new : List (DataFile ρ)) (chosen : DataFile ρ → Bool)
    (same : ∀ f ∈ s.files, f ∈ old ↔ chosen f = true) (part : ∀ f ∈ old, f ∈ s.files) :
    replace s.files old new = s.files.filter (fun f => !chosen f) ++ new := by
  rw [replace]
  congr 1
  refine List.filter_congr fun f inside => ?_
  congr 1
  rw [Bool.eq_iff_iff, List.any_eq_true, ← same f inside]
  constructor
  · rintro ⟨o, there, path⟩
    rwa [← List.inj_on_of_nodup_map tidy.paths (part o there) inside (beq_iff_eq.mp path)]
  · intro there
    exact ⟨f, there, beq_iff_eq.mpr rfl⟩

theorem mem_runOf (files : List (DataFile ρ)) (f : DataFile ρ) :
    f ∈ runOf files ↔ f ∈ files ∧ runFrom (sizes files) ≤ f.ord := by
  rw [runOf, List.mem_filter, (byAge_perm files).mem_iff, decide_eq_true_eq]

theorem merged_all (published : Bool)
    (all : (merged s published).length = s.files.length) (f : DataFile ρ) :
    f ∈ merged s published ↔ f ∈ s.files := by
  cases published with
  | true => exact Iff.rfl
  | false =>
    have whole : runOf s.files = byAge s.files := by
      refine List.Sublist.eq_of_length List.filter_sublist ?_
      rw [(byAge_perm s.files).length_eq]
      exact all
    change f ∈ runOf s.files ↔ _
    rw [whole, (byAge_perm s.files).mem_iff]

theorem run_sound (tidy : Tidy t s) : Sound t (runOf s.files) s.log s.tiered := by
  refine ⟨?_, ?_, ?_, tidy.sound.numbered⟩
  · intro f inside
    exact tidy.sound.below f ((mem_runOf s.files f).mp inside).1
  · intro f inside
    exact tidy.sound.once f ((mem_runOf s.files f).mp inside).1
  · refine List.Pairwise.filter _ (((byAge_perm s.files).pairwise_iff ?_).mpr tidy.sound.apart)
    intro f g far equal r inside x there clash
    exact far equal.symm x there r inside clash.symm

variable [DecidableEq κ]

theorem best_files (files : List (DataFile ρ)) (sound : Sound t files s.log s.tiered) (k : κ) :
    t.best (t.entriesOf k (raw files s.log s.tiered s.tiered)) = t.fileRow files k := by
  rw [best_line t _ _ (line_perm files s.log s.tiered s.tiered k)
    (line_ascending files s.log s.tiered sound k s.tiered)]
  change t.newest k files s.log s.tiered s.tiered = _
  rw [newest_rows, tail_none, List.map_nil, rowsOf_nil, List.append_nil]
  rfl

theorem single_drafts (now : Int) (kind : Kind ρ) (k : κ) :
    pick t.rank (t.rowsOf k ((t.drafts s now [kind]).flatMap (·.2.2.2))) = t.writes s now kind k := by
  rw [Keyed.drafts, List.flatMap_cons, List.flatMap_nil, List.append_nil, runJob_of, pick_toList]

theorem compact_land (tidy : Tidy t s) (now : Int) :
    Lands t s [] now [.compact s.tiered 0] s.tiered where
  part := List.nil_sublist _
  rising := List.pairwise_singleton _ _
  newer f left := by cases left
  upto d there := by
    obtain ⟨kind, of, is⟩ := drafts_ord s now _ d there
    obtain rfl := List.mem_singleton.mp of
    exact Nat.le_of_eq is
  further := Nat.le_refl _
  within := tidy.tiered

theorem compact_same (same : Same t s) (now : Int) (times : List Int)
    (ranAt : times = s.times ++ ran s now [.compact s.tiered 0])
    (clear : t.Clear s now (.compact s.tiered 0)) :
    Same t (landed s [] (t.drafts s now [.compact s.tiered 0]) s.tiered times) := by
  have lands := compact_land same.tidy now
  refine ⟨landed_tidy same.tidy [] _ s.tiered lands times, fun k => ?_⟩
  have read : t.best (t.entriesOf k (inputs s (.compact s.tiered 0))) = t.fileRow s.files k :=
    best_files s.files same.tidy.sound k
  have dropping : drops s (.compact s.tiered 0) = true := Bool.or_true _
  have alike := same.alike k
  have after : t.now (landed s [] (t.drafts s now [.compact s.tiered 0]) s.tiered times) k =
      merge t.rank ((t.fileRow s.files k).filter (t.live now))
        (t.logRow s.log k s.tiered s.visible) := by
    refine (landed_newest [] _ s.tiered lands k s.visible).trans ?_
    rw [pick_append, pick_append, single_drafts, Keyed.writes, dropping, read]
    rfl
  rw [after]
  rw [now_eq] at alike
  exact drop_alike same.tidy now _ _ List.mem_cons_self dropping clear _ ranAt k _ _ read alike

theorem squash_ord (files : List (DataFile ρ)) (f : DataFile ρ) (inside : f ∈ files) :
    f.ord ≤ ordOf (.squash files) ∧ ∃ g ∈ files, g.ord = ordOf (.squash files) := by
  rw [ordOf]
  cases most : (files.map DataFile.ord).max? with
  | none =>
    rw [List.map_eq_nil_iff.mp (List.max?_eq_none_iff.mp most)] at inside
    cases inside
  | some m =>
    obtain ⟨there, above⟩ := List.max?_eq_some_iff.mp most
    exact ⟨above _ (List.mem_map_of_mem inside), List.mem_map.mp there⟩

/-- What is written is read from a file. -/
theorem squash_reads (now : Int) (d : Nat × Bool × String × List ρ)
    (there : d ∈ t.drafts s now [.squash (runOf s.files)]) : ∃ f, f ∈ runOf s.files := by
  rw [Keyed.drafts, List.flatMap_cons, List.flatMap_nil, List.append_nil] at there
  obtain ⟨r, inside⟩ := List.exists_mem_of_ne_nil _ (runJob_ord s now _ d there).2
  have written : r ∈ t.rowsOf (t.key r)
      ((t.runJob s now (.squash (runOf s.files))).flatMap (·.2.2.2)) :=
    (mem_rowsOf t _ _ r).mpr ⟨List.mem_flatMap.mpr ⟨d, there, inside⟩, rfl⟩
  rw [runJob_of, Option.mem_toList] at written
  obtain ⟨best, _⟩ := Option.filter_eq_some_iff.mp written
  obtain ⟨e, read, _⟩ := best_mem t _ r best
  have entry := (List.mem_filter.mp read).1
  rw [inputs, raw, tail_none, List.nil_append] at entry
  obtain ⟨f, of, _⟩ := List.mem_flatMap.mp entry
  exact ⟨f, of⟩

theorem squash_land (tidy : Tidy t s) (now : Int) :
    Lands t s (s.files.filter fun f => !decide (runFrom (sizes s.files) ≤ f.ord)) now
      [.squash (runOf s.files)] s.tiered where
  part := List.filter_sublist
  rising := List.pairwise_singleton _ _
  newer f left d there := by
    obtain ⟨kind, of, is⟩ := drafts_ord s now _ d there
    obtain rfl := List.mem_singleton.mp of
    obtain ⟨g, run⟩ := squash_reads now d there
    have above := (squash_ord _ g run).1
    have since := ((mem_runOf s.files g).mp run).2
    have older := (List.mem_filter.mp left).2
    rw [Bool.not_eq_true', decide_eq_false_iff_not] at older
    omega
  upto d there := by
    obtain ⟨kind, of, is⟩ := drafts_ord s now _ d there
    obtain rfl := List.mem_singleton.mp of
    obtain ⟨g, run⟩ := squash_reads now d there
    obtain ⟨h, last, most⟩ := (squash_ord _ g run).2
    have := tidy.sound.below h ((mem_runOf s.files h).mp last).1
    omega
  further := Nat.le_refl _
  within := tidy.tiered

theorem squash_same (same : Same t s) (now : Int) (times : List Int)
    (ranAt : times = s.times ++ ran s now [.squash (runOf s.files)]) :
    Same t (landed s (s.files.filter fun f => !decide (runFrom (sizes s.files) ≤ f.ord))
      (t.drafts s now [.squash (runOf s.files)]) s.tiered times) := by
  have lands := squash_land same.tidy now
  refine ⟨landed_tidy same.tidy _ _ s.tiered lands times, fun k => ?_⟩
  have keeps : drops s (.squash (runOf s.files)) = false := rfl
  have sorted : byAge (runOf s.files) = runOf s.files :=
    ((byAge_sorted s.files).filter _).insertionSort_eq
  have left : byAge (s.files.filter fun f => !decide (runFrom (sizes s.files) ≤ f.ord)) =
      (byAge s.files).filter fun f => !decide (runFrom (sizes s.files) ≤ f.ord) :=
    (Ordered.filter_insertionSort DataFile.ord _ s.files).symm
  have written : t.writes s now (.squash (runOf s.files)) k = t.fileRow (runOf s.files) k := by
    rw [Keyed.writes, keeps, inputs, best_files _ (run_sound same.tidy)]
    cases t.fileRow (runOf s.files) k <;> rfl
  have after : t.now (landed s (s.files.filter fun f => !decide (runFrom (sizes s.files) ≤ f.ord))
      (t.drafts s now [.squash (runOf s.files)]) s.tiered times) k = t.now s k := by
    refine (landed_newest _ _ s.tiered lands k s.visible).trans ?_
    rw [pick_append, pick_append, single_drafts, written, now_eq, left, Keyed.fileRow, sorted,
      ← pick_append, ← rowsOf_append, ← List.flatMap_append]
    refine congrArg (fun files : List (DataFile ρ) =>
      merge t.rank (pick t.rank (t.rowsOf k (files.flatMap (·.rows)))) _) ?_
    exact (byAge_split s.files (runFrom (sizes s.files))).symm
  rw [after]
  exact alike_later _ (dead_later now _ _ ranAt) _ _ (same.alike k)

/-- A merge leaves the table as it was, compacts every file or merges the newest ones. -/
theorem maintain_step (tidy : Tidy t s) (published anyway : Bool) (now : Int) :
    (dealt s (.maintain published anyway now) = [] ∧ t.maintain s published anyway now = s) ∨
      (dealt s (.maintain published anyway now) = [.compact s.tiered 0] ∧
        t.maintain s published anyway now = landed s [] (t.drafts s now [.compact s.tiered 0])
          s.tiered (s.times ++ ran s now [.compact s.tiered 0])) ∨
      (dealt s (.maintain published anyway now) = [.squash (runOf s.files)] ∧
        t.maintain s published anyway now =
          landed s (s.files.filter fun f => !decide (runFrom (sizes s.files) ≤ f.ord))
            (t.drafts s now [.squash (runOf s.files)]) s.tiered
              (s.times ++ ran s now [.squash (runOf s.files)])) := by
  rw [dealt, Keyed.maintain]
  by_cases needed : merges s published anyway = true
  · refine .inr ?_
    rw [if_pos needed, if_pos needed]
    by_cases all : (merged s published).length = s.files.length
    · refine .inl ?_
      have job : mergeJob s published = .compact s.tiered 0 := by rw [mergeJob, if_pos all]
      have swapped := replace_eq tidy (merged s published) (t.deal s now [.compact s.tiered 0])
        (fun _ => true) (fun f inside => by simpa [merged_all published all] using inside)
        fun f inside => (merged_all published all f).mp inside
      rw [List.filter_eq_nil_iff.mpr fun f _ => by simp] at swapped
      rw [job]
      dsimp only
      rw [swapped]
      exact ⟨rfl, rfl⟩
    · refine .inr ?_
      have part : merged s published = runOf s.files := by
        cases published with
        | true => exact absurd rfl all
        | false => rfl
      have job : mergeJob s published = .squash (runOf s.files) := by rw [mergeJob, if_neg all, part]
      have swapped := replace_eq tidy (runOf s.files) (t.deal s now [.squash (runOf s.files)])
        (fun f => decide (runFrom (sizes s.files) ≤ f.ord))
        (fun f inside => by rw [mem_runOf, decide_eq_true_eq]; exact and_iff_right inside)
        fun f inside => ((mem_runOf s.files f).mp inside).1
      rw [job, part]
      dsimp only
      rw [swapped]
      exact ⟨rfl, rfl⟩
  · rw [if_neg needed, if_neg needed]
    exact .inl ⟨rfl, rfl⟩

theorem maintain_same (same : Same t s) (published anyway : Bool) (now : Int)
    (sure : t.Sure s (.maintain published anyway now)) :
    Same t (t.maintain s published anyway now) := by
  change ∀ kind ∈ dealt s (.maintain published anyway now), drops s kind = true →
    t.Clear s now kind at sure
  rcases maintain_step same.tidy published anyway now with ⟨_, is⟩ | ⟨job, is⟩ | ⟨_, is⟩
  · rw [is]
    exact same
  · rw [job] at sure
    rw [is]
    exact compact_same same now _ rfl (sure _ List.mem_cons_self (Bool.or_true _))
  · rw [is]
    exact squash_same same now _ rfl

end Pondra.Tier
