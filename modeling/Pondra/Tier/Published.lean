import Pondra.Tier.Positions

set_option autoImplicit false

namespace Pondra.Tier

open Foremost Machines Dicts

variable {ρ κ : Type} {t : Keyed ρ κ}

/-! ### What the files keep of the log -/

/-- A key's row in the files is its newest, or there is none and the newest is dead. -/
def Carried (dead : ρ → Prop) (held logged : Option ρ) : Prop := held = logged ∨ held = none ∧ ∀ d ∈ logged, dead d

section kept

variable {dead : ρ → Prop} {held logged : Option ρ}

theorem Carried.later {later : ρ → Prop} (kept : Carried dead held logged) (more : ∀ r, dead r → later r) :
    Carried later held logged := by
  rcases kept with same | ⟨none, all⟩
  · exact .inl same
  · exact .inr ⟨none, fun d is => more d (all d is)⟩

theorem Carried.merge {π : Type} [LinearOrder π] {rank : ρ → π} (flat : ∀ a b : ρ, rank a ≤ rank b)
    (kept : Carried dead held logged) (newer : Option ρ) :
    Carried dead (merge rank held newer) (merge rank logged newer) := by
  cases newer with
  | none =>
    rw [merge_none, merge_none]
    exact kept
  | some b => exact .inl ((merge_flat rank flat held b).trans (merge_flat rank flat logged b).symm)

theorem Carried.filter (kept : Carried dead held logged) {keeps : ρ → Bool} (gone : ∀ r, keeps r = false → dead r) :
    Carried dead (held.filter keeps) logged := by
  rcases kept with rfl | ⟨rfl, all⟩
  · cases held with
    | none => exact .inl rfl
    | some r =>
      cases keep : keeps r with
      | true => exact .inl (by rw [Option.filter_some, if_pos keep])
      | false =>
        refine .inr ⟨by rw [Option.filter_some, if_neg (by simp [keep])], fun d is => ?_⟩
        rw [← Option.some.inj is]
        exact gone r keep
  · exact .inr ⟨rfl, all⟩

end kept

section tables

variable [DecidableEq κ] {s : Table ρ}

/-- The rows of a key in the files, once a round's are in. -/
theorem landed_fileRow {now : Int} (old : List (DataFile ρ)) (jobs : List (Kind ρ)) (tiered : Nat)
    (lands : Lands t s old now jobs tiered) (k : κ) :
    t.fileRow (old ++ filed s.paths (t.drafts s now jobs)) k =
      merge t.rank (t.fileRow old k) (pick t.rank (t.rowsOf k ((t.drafts s now jobs).flatMap (·.2.2.2)))) := by
  rw [Keyed.fileRow, landed_byAge old jobs tiered lands, List.flatMap_append, rowsOf_append, pick_append, filed_rows]
  rfl

theorem commit_kept (tidy : Tidy t s) (rows : List ρ) (most : Nat) (k : κ) :
    t.logRow (t.next s (.commit rows most)).log k 0 s.tiered = t.logRow s.log k 0 s.tiered := by
  have later : ¬s.next ≤ s.tiered := Nat.not_le.mpr tidy.tiered
  have same : tail (s.log ++ [(s.next, rows)]) 0 s.tiered = tail s.log 0 s.tiered := by
    rw [tail, List.filter_append, List.filter_cons_of_neg (by simp [later]), List.filter_nil, List.append_nil]
    rfl
  rw [Keyed.logRow]
  exact congrArg (fun entries => pick t.rank (t.rowsOf k (entries.map Prod.snd))) same

theorem tier_kept (unordered : t.order = none) (tidy : Tidy t s) (hwm : Nat) (fill : Option Nat) (nodes : Nat)
    (now : Int) (k : κ)
    (kept : Carried (fun r => t.dead s r = true) (t.fileRow s.files k) (t.logRow s.log k 0 s.tiered)) :
    let s' := t.tierTable s hwm fill nodes now
    Carried (fun r => t.dead s' r = true) (t.fileRow s'.files k) (t.logRow s'.log k 0 s'.tiered) := by
  dsimp only
  rcases tier_step tidy hwm fill nodes now with ⟨_, is⟩ | ⟨upto, covers, within, further, is⟩
  · rw [is]
    exact kept
  · rw [is]
    generalize folds s (foldEnd hwm fill) nodes = jobs at covers
    have flat := flat_rank t unordered
    have lands := folds_land tidy now jobs upto covers within
    cases jobs with
    | nil =>
      have same : s.tiered = upto := covers
      omega
    | cons kind rest =>
      obtain ⟨seg, rows, rfl, less, others⟩ := covers
      have end_le := covers_le seg rest upto others
      have numbered := tidy.sound.numbered
      have dead := dead_later (t := t) now (.fold s.tiered seg rows :: rest)
        (landed s s.files (t.drafts s now (.fold s.tiered seg rows :: rest)) upto
          (s.times ++ ran s now (.fold s.tiered seg rows :: rest))) rfl
      have written : pick t.rank (t.rowsOf k ((t.drafts s now (.fold s.tiered seg rows :: rest)).flatMap (·.2.2.2))) =
          merge t.rank (t.writes s now (.fold s.tiered seg rows) k) (t.logRow s.log k seg upto) := by
        rw [Keyed.drafts, List.flatMap_cons, List.flatMap_append, rowsOf_append, pick_append, runJob_of, pick_toList]
        exact congrArg _ (covers_writes (t := t) numbered now k seg rest upto others less)
      have logged : t.logRow s.log k 0 upto = merge t.rank
          (merge t.rank (t.logRow s.log k 0 s.tiered) (t.logRow s.log k s.tiered seg)) (t.logRow s.log k seg upto) := by
        rw [logRow_split numbered k 0 seg upto (Nat.zero_le _) end_le,
          logRow_split numbered k 0 s.tiered seg (Nat.zero_le _) (Nat.le_of_lt less)]
      have files : t.fileRow (landed s s.files (t.drafts s now (.fold s.tiered seg rows :: rest)) upto
          (s.times ++ ran s now (.fold s.tiered seg rows :: rest))).files k = merge t.rank
            (merge t.rank (t.fileRow s.files k) (t.writes s now (.fold s.tiered seg rows) k))
              (t.logRow s.log k seg upto) := by
        rw [merge_assoc, ← written]
        exact landed_fileRow s.files _ upto lands k
      rw [files]
      refine (show Carried _ _ (t.logRow s.log k 0 upto) from ?_)
      rw [logged]
      have read : t.best (t.entriesOf k (inputs s (.fold s.tiered seg rows))) = t.logRow s.log k s.tiered seg :=
        best_fold numbered k s.tiered seg rows
      apply Carried.merge flat
      have first := (kept.later dead).merge flat (t.logRow s.log k s.tiered seg)
      rw [Keyed.writes, read]
      cases dropping : drops s (.fold s.tiered seg rows) with
      | false =>
        have all : (t.logRow s.log k s.tiered seg).filter (fun r => !false || t.live now r) =
            t.logRow s.log k s.tiered seg := by
          cases t.logRow s.log k s.tiered seg <;> rfl
        rw [all]
        exact first
      | true =>
        -- there are no files
        have empty : t.fileRow s.files k = none := by
          change (s.files.isEmpty && decide (s.tiered = s.tiered) || false) = true at dropping
          rw [Bool.or_false, Bool.and_eq_true, List.isEmpty_iff] at dropping
          rw [dropping.1]
          rfl
        rw [empty, none_merge] at first ⊢
        apply first.filter
        intro r gone
        exact dead_now (t := t) now (.fold s.tiered seg rows :: rest) _ rfl
          (List.any_eq_true.mpr ⟨_, List.mem_cons_self, dropping⟩) r gone

theorem compact_fileRow (tidy : Tidy t s) (now : Int) (times : List Int) (k : κ) :
    t.fileRow (landed s [] (t.drafts s now [.compact s.tiered 0]) s.tiered times).files k =
      (t.fileRow s.files k).filter (t.live now) := by
  have dropping : drops s (.compact s.tiered 0) = true := Bool.or_true _
  refine (landed_fileRow [] _ s.tiered (compact_land tidy now) k).trans ?_
  rw [single_drafts, Keyed.writes, dropping, inputs, best_files s.files tidy.sound k]
  rfl

theorem squash_writes (tidy : Tidy t s) (now : Int) (k : κ) :
    t.writes s now (.squash (runOf s.files)) k = t.fileRow (runOf s.files) k := by
  have keeps : drops s (.squash (runOf s.files)) = false := rfl
  rw [Keyed.writes, keeps, inputs, best_files _ (run_sound tidy)]
  cases t.fileRow (runOf s.files) k <;> rfl

theorem squash_fileRow (tidy : Tidy t s) (now : Int) (times : List Int) (k : κ) :
    t.fileRow (landed s (s.files.filter fun f => !decide (runFrom (sizes s.files) ≤ f.ord))
      (t.drafts s now [.squash (runOf s.files)]) s.tiered times).files k = t.fileRow s.files k := by
  have sorted : byAge (runOf s.files) = runOf s.files :=
    ((byAge_sorted s.files).filter _).insertionSort_eq
  have left : byAge (s.files.filter fun f => !decide (runFrom (sizes s.files) ≤ f.ord)) =
      (byAge s.files).filter fun f => !decide (runFrom (sizes s.files) ≤ f.ord) :=
    (Ordered.filter_insertionSort DataFile.ord _ s.files).symm
  refine (landed_fileRow _ _ s.tiered (squash_land tidy now) k).trans ?_
  rw [single_drafts, squash_writes tidy now, Keyed.fileRow, left, Keyed.fileRow, sorted, ← pick_append, ← rowsOf_append,
    ← List.flatMap_append, Keyed.fileRow]
  exact congrArg (fun files : List (DataFile ρ) => pick t.rank (t.rowsOf k (files.flatMap (·.rows))))
    (byAge_split s.files (runFrom (sizes s.files))).symm

theorem maintain_kept (tidy : Tidy t s) (published anyway : Bool) (now : Int) (k : κ)
    (kept : Carried (fun r => t.dead s r = true) (t.fileRow s.files k) (t.logRow s.log k 0 s.tiered)) :
    let s' := t.maintain s published anyway now
    Carried (fun r => t.dead s' r = true) (t.fileRow s'.files k) (t.logRow s'.log k 0 s'.tiered) := by
  dsimp only
  rcases maintain_step tidy published anyway now with ⟨_, is⟩ | ⟨_, is⟩ | ⟨_, is⟩
  · rw [is]
    exact kept
  · rw [is, compact_fileRow tidy now]
    have dropping : drops s (.compact s.tiered 0) = true := Bool.or_true _
    apply (kept.later (dead_later (t := t) now [.compact s.tiered 0] _ rfl)).filter
    intro r gone
    exact dead_now (t := t) now [.compact s.tiered 0] _ rfl
      (List.any_eq_true.mpr ⟨_, List.mem_cons_self, dropping⟩) r gone
  · rw [is, squash_fileRow tidy now]
    exact kept.later (dead_later (t := t) now [.squash (runOf s.files)] _ rfl)

end tables

/-! ### What no position deletes -/

section published

variable {s : Shared ρ}

/-- A row that is a delete marker, or whose key newer files have. -/
def Keyed.Behind (t : Keyed ρ κ) (s : Shared ρ) (f : DataFile ρ) (r : ρ) : Prop :=
  t.deleted r = true ∨ ∃ g ∈ s.table.files, f.ord < g.ord ∧ t.key r ∈ g.rows.map t.key

/-- Positions delete the rows behind, and no others. -/
def Exact (t : Keyed ρ κ) (s : Shared ρ) : Prop :=
  ∀ f ∈ s.table.files, ∀ i r, f.rows[i]? = some r → (i ∈ s.gone f ↔ t.Behind s f r)

theorem mem_placed_rows (exact : Exact t s) (f : DataFile ρ) (inside : f ∈ s.table.files) (r : ρ) :
    r ∈ (s.placed f).map Prod.fst ↔ r ∈ f.rows ∧ ¬t.Behind s f r := by
  constructor
  · intro there
    obtain ⟨place, left, rfl⟩ := List.mem_map.mp there
    obtain ⟨here, kept⟩ := List.mem_filter.mp left
    have at_ := List.mem_zipIdx_iff_getElem?.mp here
    exact ⟨List.mem_of_getElem? at_, fun behind => of_decide_eq_true kept ((exact f inside _ _ at_).mpr behind)⟩
  · intro ⟨there, ahead⟩
    obtain ⟨i, at_⟩ := List.getElem?_of_mem there
    refine List.mem_map.mpr ⟨(r, i), List.mem_filter.mpr ⟨?_, decide_eq_true ?_⟩, rfl⟩
    · exact List.mem_zipIdx_iff_getElem?.mpr at_
    · exact fun gone => ahead ((exact f inside i r at_).mp gone)

theorem few_of_pairwise {l : List ρ} (none : l.Pairwise fun _ _ => False) : l.length ≤ 1 := by
  cases l with
  | nil => exact Nat.zero_le _
  | cons r rest =>
    cases rest with
    | nil => exact Nat.le_refl _
    | cons x more => exact ((List.pairwise_cons.mp none).1 x List.mem_cons_self).elim

theorem pairwise_of_few {l : List ρ} (few : l.length ≤ 1) (R : ρ → ρ → Prop) : l.Pairwise R := by
  cases l with
  | nil => exact List.Pairwise.nil
  | cons r rest =>
    rw [List.length_cons] at few
    rw [List.length_eq_zero_iff.mp (show rest.length = 0 by omega)]
    exact List.pairwise_singleton R r

theorem few_eq {a b : List ρ} (few : a.length ≤ 1) (few' : b.length ≤ 1) (same : ∀ r, r ∈ a ↔ r ∈ b) : a = b := by
  cases a with
  | nil =>
    rw [eq_comm, List.eq_nil_iff_forall_not_mem]
    exact fun r inside => List.not_mem_nil ((same r).mpr inside)
  | cons r rest =>
    have none : rest = [] := List.length_eq_zero_iff.mp (by rw [List.length_cons] at few; omega)
    have there : r ∈ b := (same r).mp List.mem_cons_self
    cases b with
    | nil => cases there
    | cons x more =>
      have none' : more = [] := List.length_eq_zero_iff.mp (by rw [List.length_cons] at few'; omega)
      rw [none'] at there ⊢
      rw [none, List.mem_singleton.mp there]

variable [DecidableEq κ]

/-! A key's row in the files is of the newest of those that have the key. -/

theorem fileRow_line (files : List (DataFile ρ)) (log : List (Nat × List ρ)) (after : Nat) (k : κ) :
    t.fileRow files k = pick t.rank ((t.line k files log after after).map Prod.snd) := by
  have whole := newest_rows t k files log after after
  rw [tail_none, List.map_nil, rowsOf_nil, List.append_nil] at whole
  exact whole.symm

theorem mem_line (files : List (DataFile ρ)) (log : List (Nat × List ρ)) (after : Nat) (k : κ) (e : Nat × ρ) :
    e ∈ t.line k files log after after ↔
      ∃ f ∈ files, e.1 = logOrd f.ord 0 ∧ e.2 ∈ f.rows ∧ t.key e.2 = k := by
  rw [Keyed.line, tail_none, List.append_nil, Keyed.entriesOf, List.mem_filter, List.mem_flatMap, decide_eq_true_eq]
  constructor
  · rintro ⟨⟨f, file, entry⟩, same⟩
    obtain ⟨number, row⟩ := (mem_entries f e).mp entry
    exact ⟨f, (byAge_perm files).mem_iff.mp file, number, row, same⟩
  · rintro ⟨f, file, number, row, same⟩
    exact ⟨⟨f, (byAge_perm files).mem_iff.mpr file, (mem_entries f e).mpr ⟨number, row⟩⟩, same⟩

theorem fileRow_newest (unordered : t.order = none) (files : List (DataFile ρ)) (log : List (Nat × List ρ)) (after : Nat)
    (sound : Sound t files log after) (k : κ) (r : ρ) (is : t.fileRow files k = some r) :
    ∃ f ∈ files, (logOrd f.ord 0, r) ∈ t.line k files log after after ∧
      ∀ g ∈ files, k ∈ g.rows.map t.key → g.ord ≤ f.ord := by
  rw [fileRow_line files log after k] at is
  obtain ⟨before, behind, whole, _, most⟩ := pick_spec _ _ _ is
  have last : behind = [] := by
    rw [List.eq_nil_iff_forall_not_mem]
    intro c inside
    exact absurd (most c inside) (not_lt.mpr (flat_rank t unordered r c))
  rw [last] at whole
  obtain ⟨early, rest, line, _, ends⟩ := List.map_eq_append_iff.mp whole
  obtain ⟨e, none, rfl, rfl, empty⟩ := List.map_eq_cons_iff.mp ends
  rw [List.map_eq_nil_iff.mp empty] at line
  have inside : e ∈ t.line k files log after after := by
    rw [line]
    exact List.mem_append_right _ List.mem_cons_self
  obtain ⟨f, file, number, _, _⟩ := (mem_line files log after k e).mp inside
  refine ⟨f, file, ?_, ?_⟩
  · rw [← number]
    exact inside
  · intro g other has
    obtain ⟨x, row, same⟩ := List.mem_map.mp has
    have there : (logOrd g.ord 0, x) ∈ t.line k files log after after :=
      (mem_line files log after k _).mpr ⟨g, other, rfl, row, same⟩
    have ascending := line_ascending files log after sound k after
    rw [line] at there ascending
    rw [Ascending, List.pairwise_append] at ascending
    rcases List.mem_append.mp there with old | new
    · have less := ascending.2.2 _ old e List.mem_cons_self
      rw [number] at less
      exact Nat.le_of_not_lt fun more => absurd (logOrd_lt _ _ more 0) (Nat.not_lt.mpr (Nat.le_of_lt less))
    · have equal : logOrd g.ord 0 = logOrd f.ord 0 := by
        rw [← number, ← List.mem_singleton.mp new]
      exact Nat.le_of_not_lt fun more => absurd (logOrd_lt _ _ more 0) (by omega)

theorem fileRow_spec (unordered : t.order = none) (files : List (DataFile ρ)) (log : List (Nat × List ρ)) (after : Nat)
    (sound : Sound t files log after) (k : κ) (r : ρ) : t.fileRow files k = some r ↔
      ∃ f ∈ files, r ∈ f.rows ∧ t.key r = k ∧ ∀ g ∈ files, k ∈ g.rows.map t.key → g.ord ≤ f.ord := by
  constructor
  · intro is
    obtain ⟨f, file, inside, newest⟩ := fileRow_newest unordered files log after sound k r is
    obtain ⟨h, other, number, row, same⟩ := (mem_line files log after k _).mp inside
    refine ⟨h, other, row, same, fun g there has => Nat.le_trans (newest g there has) ?_⟩
    exact Nat.le_of_not_lt fun more => absurd (logOrd_lt _ _ more 0) (by have : logOrd f.ord 0 = _ := number; omega)
  · intro ⟨f, file, row, same, newest⟩
    have here : (logOrd f.ord 0, r) ∈ t.line k files log after after :=
      (mem_line files log after k _).mpr ⟨f, file, rfl, row, same⟩
    cases is : t.fileRow files k with
    | none =>
      rw [fileRow_line files log after k, pick_eq_none, List.map_eq_nil_iff] at is
      rw [is] at here
      cases here
    | some x =>
      obtain ⟨g, other, there, most⟩ := fileRow_newest unordered files log after sound k x is
      have above := most f file (List.mem_map.mpr ⟨r, row, same⟩)
      obtain ⟨h, third, number, row', same'⟩ := (mem_line files log after k _).mp there
      have below := newest h third (List.mem_map.mpr ⟨x, row', same'⟩)
      have number : logOrd g.ord 0 = logOrd h.ord 0 := number
      have equal : h.ord = g.ord := Nat.le_antisymm
        (Nat.le_of_not_lt fun more => absurd (logOrd_lt _ _ more 0) (by omega))
        (Nat.le_of_not_lt fun more => absurd (logOrd_lt _ _ more 0) (by omega))
      have order : f.ord = g.ord := by omega
      rw [← order] at there
      have ascending := line_ascending files log after sound k after
      exact congrArg some (Prod.mk.inj (ascending_same _ ascending _ _ there here rfl)).2

/-! One row of each key. -/

/-- One row at most. -/
theorem published_once (exact : Exact t s) (sound : Sound t s.table.files s.table.log s.table.tiered) (k : κ) :
    (t.rowsOf k s.published).length ≤ 1 := by
  have mem : ∀ f ∈ s.table.files, ∀ r ∈ t.rowsOf k ((s.placed f).map Prod.fst),
      r ∈ f.rows ∧ t.key r = k ∧ ¬t.Behind s f r := by
    intro f inside r there
    obtain ⟨placed, same⟩ := (mem_rowsOf t k _ r).mp there
    obtain ⟨row, ahead⟩ := (mem_placed_rows exact f inside r).mp placed
    exact ⟨row, same, ahead⟩
  apply few_of_pairwise
  rw [Keyed.rowsOf, Shared.published, List.filter_flatMap, List.pairwise_flatMap]
  constructor
  · intro f inside
    have part : ((s.placed f).map Prod.fst).Sublist f.rows := by
      have whole := (List.filter_sublist (l := f.rows.zipIdx) (p := fun r => decide (r.2 ∉ s.gone f))).map Prod.fst
      rw [List.zipIdx_map_fst] at whole
      exact whole
    have few := rowsOf_once t k f.rows (sound.once f inside)
    exact pairwise_of_few (Nat.le_trans (part.filter _).length_le few) _
  · refine sound.apart.imp_of_mem fun {f g} file other apart x first y second => ?_
    obtain ⟨row, same, ahead⟩ := mem f file x first
    obtain ⟨row', same', ahead'⟩ := mem g other y second
    rcases Nat.lt_trichotomy f.ord g.ord with less | equal | more
    · exact ahead (.inr ⟨g, other, less, List.mem_map.mpr ⟨y, row', same'.trans same.symm⟩⟩)
    · exact apart equal x row y row' (same.trans same'.symm)
    · exact ahead' (.inr ⟨f, file, more, List.mem_map.mpr ⟨x, row, same.trans same'.symm⟩⟩)

theorem published_of (unordered : t.order = none) (exact : Exact t s)
    (sound : Sound t s.table.files s.table.log s.table.tiered) (k : κ) :
    t.rowsOf k s.published = ((t.fileRow s.table.files k).filter fun r => !t.deleted r).toList := by
  apply few_eq (published_once exact sound k)
  · cases (t.fileRow s.table.files k).filter fun r => !t.deleted r <;> simp
  intro r
  rw [mem_rowsOf, Option.mem_toList, Option.filter_eq_some_iff,
    fileRow_spec unordered _ _ _ sound, Shared.published, List.mem_flatMap, Bool.not_eq_true']
  constructor
  · intro ⟨⟨f, file, there⟩, same⟩
    obtain ⟨row, ahead⟩ := (mem_placed_rows exact f file r).mp there
    rw [Keyed.Behind, not_or, Bool.not_eq_true] at ahead
    refine ⟨⟨f, file, row, same, fun g other has => Nat.le_of_not_lt fun less => ahead.2 ⟨g, other, less, ?_⟩⟩, ahead.1⟩
    rwa [same]
  · intro ⟨⟨f, file, row, same, newest⟩, live⟩
    refine ⟨⟨f, file, (mem_placed_rows exact f file r).mpr ⟨row, ?_⟩⟩, same⟩
    rw [Keyed.Behind, not_or, Bool.not_eq_true]
    refine ⟨live, fun ⟨g, other, less, has⟩ => ?_⟩
    rw [same] at has
    exact absurd less (Nat.not_lt.mpr (newest g other has))

end published

end Pondra.Tier
