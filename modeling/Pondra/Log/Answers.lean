import Pondra.Base.Ladder
import Pondra.Log.Commit

set_option autoImplicit false

namespace Pondra.Log

open Dicts Ladders

/-! ### What one part's check does -/

/-- What the check of a part makes of what was found before it. -/
inductive Checks (standing : Dict String Nat → String → Nat) (barred : List Nat) (checked : Checked)
    (part : Part × Nat) : Checked → Prop where
  | free (unnamed : ∀ src, part.1.src = some src → part.2 ∈ barred ∨ src.producer = "") :
      Checks standing barred checked part checked
  | skipped (src : Src) (skip : Skip) (sent : part.1.src = some src) (named : src.producer ≠ "")
      (open' : part.2 ∉ barred)
      (why : skip = .duplicate ∧ src.seq ≤ standing checked.mine src.producer ∨
        skip = .conflict ∧ standing checked.mine src.producer < src.seq ∧
          ∃ prev, src.prev = some prev ∧ prev ≠ standing checked.mine src.producer) :
      Checks standing barred checked part
        { checked with stale := checked.stale ++ [(part.2, skip)] }
  | fine (src : Src) (sent : part.1.src = some src) (named : src.producer ≠ "")
      (open' : part.2 ∉ barred) (newer : standing checked.mine src.producer < src.seq)
      (follows : ∀ prev, src.prev = some prev → prev = standing checked.mine src.producer) :
      Checks standing barred checked part
        { checked with mine := checked.mine.insert src.producer src.seq }

theorem checkPart_checks (standing : Dict String Nat → String → Nat) (barred : List Nat)
    (checked : Checked) (part : Part × Nat) :
    Checks standing barred checked part (checkPart standing barred checked part) := by
  unfold checkPart
  cases sent : part.1.src with
  | none => exact .free fun src sent' => by rw [sent] at sent'; cases sent'
  | some src =>
    simp only
    split
    · rename_i passed
      refine .free fun other sent' => ?_
      rw [sent, Option.some.injEq] at sent'
      exact sent' ▸ passed
    · rename_i open'
      rw [not_or] at open'
      split
      · rename_i old
        exact .skipped src .duplicate sent open'.2 open'.1 (.inl ⟨rfl, old⟩)
      · rename_i newer
        split
        · rename_i differs
          obtain ⟨prev, named, other⟩ : ∃ prev, src.prev = some prev ∧
              prev ≠ standing checked.mine src.producer := by
            simpa [Option.any_eq_true] using differs
          exact .skipped src .conflict sent open'.2 open'.1
            (.inr ⟨rfl, Nat.lt_of_not_le newer, prev, named, other⟩)
        · rename_i agrees
          refine .fine src sent open'.2 open'.1 (Nat.lt_of_not_le newer) ?_
          intro prev named
          rw [Bool.not_eq_true, Option.any_eq_false] at agrees
          have same := agrees prev named
          simpa using same

/-! ### What the check of a flush finds -/

/-- The batches of a producer among some parts. -/
def srcsOf (producer : String) (parts : List (Part × Nat)) : List Src :=
  parts.filterMap fun part => part.1.src.filter fun src => decide (src.producer = producer)

@[simp] theorem srcsOf_nil (producer : String) : srcsOf producer [] = [] := rfl

theorem srcsOf_append (producer : String) (before after : List (Part × Nat)) :
    srcsOf producer (before ++ after) = srcsOf producer before ++ srcsOf producer after :=
  List.filterMap_append

/-- The parts that go on, given those skipped. -/
def kept (bad : List (Nat × Skip)) (parts : List (Part × Nat)) : List (Part × Nat) :=
  parts.filter fun part => (bad.lookup part.2).isNone

theorem lookup_isNone (bad : List (Nat × Skip)) (i : Nat) :
    (bad.lookup i).isNone ↔ i ∉ bad.map Prod.fst := by
  induction bad with
  | nil => simp
  | cons skipped rest ih =>
    obtain ⟨j, skip⟩ := skipped
    by_cases same : i = j
    · subst same
      simp
    · rw [List.lookup_cons, beq_false_of_ne same]
      simpa [same] using ih

theorem kept_congr (bad other : List (Nat × Skip)) (parts : List (Part × Nat))
    (same : ∀ part ∈ parts, (part.2 ∈ bad.map Prod.fst ↔ part.2 ∈ other.map Prod.fst)) :
    kept bad parts = kept other parts := by
  refine List.filter_congr fun part inside => ?_
  rw [Bool.eq_iff_iff, lookup_isNone, lookup_isNone, same part inside]

theorem kept_cons_out (bad : List (Nat × Skip)) (part : Part × Nat) (parts : List (Part × Nat))
    (out : part.2 ∈ bad.map Prod.fst) : kept bad (part :: parts) = kept bad parts :=
  List.filter_cons_of_neg fun none => (lookup_isNone bad part.2).mp none out

theorem kept_cons_in (bad : List (Nat × Skip)) (part : Part × Nat) (parts : List (Part × Nat))
    (inside : part.2 ∉ bad.map Prod.fst) : kept bad (part :: parts) = part :: kept bad parts :=
  List.filter_cons_of_pos ((lookup_isNone bad part.2).mpr inside)

section check

variable {standing : Dict String Nat → String → Nat}

/-- What a flush moved counts before what stood. -/
def Defers (standing : Dict String Nat → String → Nat) : Prop :=
  ∀ mine producer, standing mine producer = (mine.lookup producer).getD (standing ∅ producer)

/-- The check skips some parts, in order, none of them barred, and only retries. -/
theorem foldl_check_stale (standing : Dict String Nat → String → Nat) (barred : List Nat) (parts : List (Part × Nat)) (checked : Checked) :
    ∃ more, (parts.foldl (checkPart standing barred) checked).stale = checked.stale ++ more ∧
      (more.map Prod.fst).Sublist (parts.map Prod.snd) ∧
      ∀ skipped ∈ more, skipped.1 ∉ barred ∧
        (skipped.2 = .duplicate ∨ skipped.2 = .conflict) ∧
        ∃ part ∈ parts, part.2 = skipped.1 ∧ part.1.src ≠ none := by
  induction parts generalizing checked with
  | nil => exact ⟨[], by simp, by simp, by simp⟩
  | cons part rest ih =>
    rw [List.foldl_cons]
    obtain ⟨more, stale, within, retries⟩ := ih (checkPart standing barred checked part)
    have checks := checkPart_checks standing barred checked part
    have further : ∀ skipped ∈ more, skipped.1 ∉ barred ∧
        (skipped.2 = .duplicate ∨ skipped.2 = .conflict) ∧
        ∃ other ∈ part :: rest, other.2 = skipped.1 ∧ other.1.src ≠ none := by
      intro skipped inside
      obtain ⟨free, retry, other, held, sent⟩ := retries skipped inside
      exact ⟨free, retry, other, List.mem_cons_of_mem _ held, sent⟩
    generalize checkPart standing barred checked part = found at checks stale ⊢
    cases checks with
    | free _ => exact ⟨more, stale, within.cons _, further⟩
    | fine _ _ _ _ _ _ => exact ⟨more, stale, within.cons _, further⟩
    | skipped src skip sent _ open' why =>
      refine ⟨(part.2, skip) :: more, ?_, ?_, ?_⟩
      · rw [stale, List.append_assoc]
        rfl
      · exact within.cons_cons part.2
      · intro skipped inside
        rcases List.mem_cons.mp inside with rfl | inside
        · refine ⟨open', ?_, part, List.mem_cons_self, rfl, by rw [sent]; exact Option.some_ne_none _⟩
          rcases why with ⟨rfl, _⟩ | ⟨rfl, _⟩
          · exact .inl rfl
          · exact .inr rfl
        · exact further skipped inside

/-- The batches of a producer that a flush takes climb from where its mark stands, and its mark ends at
the last of them. -/
theorem foldl_check_climbs (defers : Defers standing) (barred : List (Nat × Skip))
    (producer : String) (named : producer ≠ "") (parts : List (Part × Nat))
    (places : (parts.map Prod.snd).Nodup) (checked : Checked) (more : List (Nat × Skip))
    (stale : (parts.foldl (checkPart standing (barred.map Prod.fst)) checked).stale =
      checked.stale ++ more) :
    let found := parts.foldl (checkPart standing (barred.map Prod.fst)) checked
    let fine := srcsOf producer (kept (barred ++ more) parts)
    Climbs (·.seq) (·.prev) (standing checked.mine producer) fine ∧
      standing found.mine producer = top (·.seq) (standing checked.mine producer) fine ∧
      (fine = [] → found.mine.lookup producer = checked.mine.lookup producer) ∧
      (fine ≠ [] → (found.mine.lookup producer).isSome) := by
  induction parts generalizing checked more with
  | nil =>
    exact ⟨trivial, rfl, fun _ => rfl, fun some => absurd rfl some⟩
  | cons part rest ih =>
    rw [List.map_cons, List.nodup_cons] at places
    obtain ⟨alone, places⟩ := places
    simp only [List.foldl_cons] at stale ⊢
    obtain ⟨later, tail, within, _⟩ := foldl_check_stale standing (barred.map Prod.fst) rest (checkPart standing (barred.map Prod.fst) checked part)
    have rested := ih places _ later tail
    have checks := checkPart_checks standing (barred.map Prod.fst) checked part
    generalize checkPart standing (barred.map Prod.fst) checked part = found
      at checks stale tail rested ⊢
    have notLater : part.2 ∉ later.map Prod.fst := fun inside => alone (within.subset inside)
    rw [tail] at stale
    cases checks with
    | free unnamed =>
      obtain rfl := List.append_cancel_left stale
      have passed : srcsOf producer (kept (barred ++ later) (part :: rest)) =
          srcsOf producer (kept (barred ++ later) rest) := by
        by_cases out : part.2 ∈ barred.map Prod.fst
        · rw [kept_cons_out _ _ _ (by simpa using Or.inl out)]
        · rw [kept_cons_in _ _ _ (by simpa using ⟨by simpa using out, by simpa using notLater⟩)]
          refine List.filterMap_cons_none ?_
          cases sent : part.1.src with
          | none => rfl
          | some src =>
            have blank : src.producer = "" := (unnamed src sent).resolve_left out
            rw [Option.filter_some_neg]
            simpa [blank] using named.symm
      rw [passed]
      exact rested
    | skipped src skip _ _ _ _ =>
      rw [List.append_assoc] at stale
      obtain rfl := List.append_cancel_left stale
      have out : part.2 ∈ (barred ++ ([(part.2, skip)] ++ later)).map Prod.fst := by simp
      have same : kept (barred ++ ([(part.2, skip)] ++ later)) rest = kept (barred ++ later) rest := by
        refine kept_congr _ _ _ fun other inside => ?_
        have differs : other.2 ≠ part.2 := fun same =>
          alone (same ▸ List.mem_map_of_mem inside)
        simp [differs]
      rw [kept_cons_out _ _ _ out, same]
      exact rested
    | fine src sent _ open' newer follows =>
      obtain rfl := List.append_cancel_left stale
      have inside : part.2 ∉ (barred ++ later).map Prod.fst := by
        rw [List.map_append, List.mem_append, not_or]
        exact ⟨open', notLater⟩
      rw [kept_cons_in _ _ _ inside]
      have stands (other : String) : standing (checked.mine.insert src.producer src.seq) other =
          if other = src.producer then src.seq else standing checked.mine other := by
        rw [defers, defers checked.mine, lookup_insert_eq]
        split
        · rfl
        · rfl
      obtain ⟨climbs, ends, none, some⟩ := rested
      by_cases same : src.producer = producer
      · subst same
        have mine : srcsOf src.producer (part :: kept (barred ++ later) rest) =
            src :: srcsOf src.producer (kept (barred ++ later) rest) := by
          refine List.filterMap_cons_some ?_
          rw [sent, Option.filter_some_pos (by simp)]
        rw [mine]
        rw [stands, if_pos rfl] at climbs ends
        refine ⟨⟨newer, follows, climbs⟩, ends, fun empty => (List.cons_ne_nil _ _ empty).elim, ?_⟩
        intro _
        by_cases more : srcsOf src.producer (kept (barred ++ later) rest) = []
        · rw [none more, AList.lookup_insert]
          rfl
        · exact some more
      · have others : srcsOf producer (part :: kept (barred ++ later) rest) =
            srcsOf producer (kept (barred ++ later) rest) := by
          refine List.filterMap_cons_none ?_
          rw [sent, Option.filter_some_neg (by simpa using same)]
        rw [others]
        rw [stands, if_neg (Ne.symm same)] at climbs ends
        refine ⟨climbs, ends, fun empty => ?_, some⟩
        rw [none empty, AList.lookup_insert_ne (Ne.symm same)]

end check

theorem zipIdx_places (f : Flush) : f.parts.zipIdx.map Prod.snd = List.range f.parts.length := by
  rw [List.zipIdx_eq_zip_range', List.map_snd_zip (by simp), List.range_eq_range']

theorem zipIdx_nodup (f : Flush) : (f.parts.zipIdx.map Prod.snd).Nodup := by
  rw [zipIdx_places]
  exact List.nodup_range

theorem Sequencer.standing_eq (s : Sequencer) (copy : Nat) (seqs mine : Dict String Nat)
    (producer : String) :
    s.standing copy seqs mine producer = (mine.lookup producer).getD
      ((seqs.lookup producer).getD (seqOf (s.copy copy) s.last [] producer)) := by
  unfold Sequencer.standing seqOf
  cases moved : mine.lookup producer with
  | some seq => simp [moved]
  | none =>
    cases pending : seqs.lookup producer with
    | some seq => simp [moved, pending]
    | none => simp [moved, pending]

theorem Sequencer.standing_defers (s : Sequencer) (copy : Nat) (seqs : Dict String Nat) :
    Defers (s.standing copy seqs) := by
  intro mine producer
  rw [s.standing_eq, s.standing_eq copy seqs ∅, AList.lookup_empty]
  rfl

/-- A commit's own marks count before what the sequencer and the catalog have. -/
theorem Sequencer.standing_seqs (s : Sequencer) (copy : Nat) (seqs : Dict String Nat)
    (producer : String) : s.standing copy seqs ∅ producer =
      (seqs.lookup producer).getD (seqOf (s.copy copy) s.last [] producer) := by
  rw [s.standing_eq, AList.lookup_empty]
  rfl

theorem good_eq (f : Flush) (bad : List (Nat × Skip)) : f.good bad = kept bad f.parts.zipIdx := rfl

/-- The batches of a producer that a flush takes climb from where its mark stands, and its mark ends
at the last of them. -/
theorem Sequencer.bad_climbs (s : Sequencer) (seen : Seen) (seqs : Dict String Nat) (f : Flush)
    (producer : String) (named : producer ≠ "") :
    let stands := s.standing seen.copy seqs ∅ producer
    let fine := srcsOf producer (f.good (s.bad seen seqs f))
    Climbs (·.seq) (·.prev) stands fine ∧
      ((s.checked seen seqs f).mine ∪ seqs).lookup producer =
        if fine = [] then seqs.lookup producer else some (top (·.seq) stands fine) := by
  have found := foldl_check_climbs (s.standing_defers seen.copy seqs) (f.barred seen.found) producer
    named f.parts.zipIdx (zipIdx_nodup f) ⟨∅, []⟩ (s.checked seen seqs f).stale rfl
  obtain ⟨climbs, ends, none, some⟩ := found
  refine ⟨climbs, ?_⟩
  rw [lookup_union]
  split
  · rename_i empty
    have blank : (s.checked seen seqs f).mine.lookup producer = Option.none := none empty
    rw [blank, Option.none_or]
  · rename_i taken
    obtain ⟨seq, moved⟩ := Option.isSome_iff_exists.mp (some taken)
    have stands := s.standing_defers seen.copy seqs (s.checked seen seqs f).mine producer
    have lands : (s.checked seen seqs f).mine.lookup producer = Option.some seq := moved
    rw [lands] at stands
    rw [lands, Option.some_or, Option.some.injEq]
    exact stands.symm.trans ends

/-! ### Which parts a flush is to do without -/

theorem filterMap_places (parts : List (Part × Nat)) (why : Part × Nat → Option Skip) :
    ((parts.filterMap fun part => (why part).map fun skip => (part.2, skip)).map Prod.fst).Sublist
      (parts.map Prod.snd) := by
  induction parts with
  | nil => exact List.Sublist.refl _
  | cons part rest ih =>
    cases skip : why part with
    | none =>
      rw [List.filterMap_cons_none (by rw [skip]; rfl)]
      exact ih.cons _
    | some reason =>
      rw [List.filterMap_cons_some (b := (part.2, reason)) (by rw [skip]; rfl)]
      exact ih.cons_cons _

theorem barred_eq (f : Flush) (found : Nat → Option TableMeta) : f.barred found =
    f.parts.zipIdx.filterMap fun part =>
      (if part.1.written then f.bar (found part.2) part.1 else none).map fun skip =>
        (part.2, skip) := by
  refine List.filterMap_congr fun part _ => ?_
  split
  · rfl
  · rfl

theorem barred_places (f : Flush) (found : Nat → Option TableMeta) :
    ((f.barred found).map Prod.fst).Sublist (List.range f.parts.length) := by
  rw [barred_eq, ← zipIdx_places]
  exact filterMap_places _ _

theorem barred_written (f : Flush) (found : Nat → Option TableMeta) (skipped : Nat × Skip)
    (inside : skipped ∈ f.barred found) :
    ∃ part ∈ f.parts.zipIdx, part.2 = skipped.1 ∧ part.1.written = true ∧
      f.bar (found part.2) part.1 = some skipped.2 := by
  obtain ⟨part, held, same⟩ := List.mem_filterMap.mp inside
  split at same
  · rename_i written
    obtain ⟨skip, why, rfl⟩ := Option.map_eq_some_iff.mp same
    exact ⟨part, held, rfl, written, why⟩
  · cases same

/-- Where a producer's mark stands after one more part. -/
def reachPart (barred : List Nat) (producer : String) (last : Nat) (part : Part × Nat) : Nat :=
  match part.1.src with
  | none => last
  | some src =>
    if part.2 ∉ barred ∧ src.producer = producer ∧ last < src.seq ∧
        src.prev.all fun prev => decide (prev = last) then src.seq
    else last

/-- Where a producer's mark stands once the check has come past some parts. -/
def reaches (barred : List Nat) (producer : String) (start : Nat) (parts : List (Part × Nat)) : Nat :=
  parts.foldl (reachPart barred producer) start

/-- The part at a place is a retry, or its `prev` isn't where its producer's mark stands as the check
comes to it. -/
def Sequencer.Retried (s : Sequencer) (seen : Seen) (seqs : Dict String Nat) (f : Flush) (i : Nat) :
    Prop :=
  let barred := (f.barred seen.found).map Prod.fst
  ∃ p src, f.parts[i]? = some p ∧ p.src = some src ∧ src.producer ≠ "" ∧ i ∉ barred ∧
    let last := reaches barred src.producer (s.standing seen.copy seqs ∅ src.producer)
      (f.parts.zipIdx.take i)
    ¬ (last < src.seq ∧ ∀ prev, src.prev = some prev → prev = last)

theorem foldl_check_reaches {standing : Dict String Nat → String → Nat} (defers : Defers standing)
    (barred : List Nat) (producer : String) (named : producer ≠ "") (parts : List (Part × Nat))
    (checked : Checked) :
    standing (parts.foldl (checkPart standing barred) checked).mine producer =
      reaches barred producer (standing checked.mine producer) parts := by
  induction parts generalizing checked with
  | nil => rfl
  | cons part rest ih =>
    have checks := checkPart_checks standing barred checked part
    rw [List.foldl_cons, ih]
    show reaches _ _ _ rest = reaches _ _ _ rest
    congr 1
    unfold reachPart
    generalize checkPart standing barred checked part = found at checks
    cases checks with
    | free unnamed =>
      cases sent : part.1.src with
      | none => rfl
      | some src =>
        simp only
        rw [if_neg]
        rintro ⟨open', same, _⟩
        rcases unnamed src sent with inside | blank
        · exact open' inside
        · exact named (same.symm.trans blank)
    | skipped src skip sent _ _ why =>
      rw [sent]
      simp only
      rw [if_neg]
      rintro ⟨_, rfl, newer, agrees⟩
      rcases why with ⟨_, old⟩ | ⟨_, _, prev, expects, differs⟩
      · omega
      · rw [expects] at agrees
        exact differs (of_decide_eq_true agrees)
    | fine src sent _ open' newer follows =>
      rw [sent, defers, lookup_insert_eq]
      simp only
      by_cases same : src.producer = producer
      · subst same
        rw [if_pos rfl, if_pos]
        · rfl
        · refine ⟨open', rfl, newer, ?_⟩
          rw [Option.all_eq_true]
          intro prev expects
          exact decide_eq_true (follows prev expects)
      · rw [if_neg (Ne.symm same), if_neg fun all => same all.2.1, defers checked.mine]

/-- The check skips exactly the retries. -/
theorem Sequencer.stale_iff (s : Sequencer) (seen : Seen) (seqs : Dict String Nat) (f : Flush)
    (i : Nat) : i ∈ (s.checked seen seqs f).stale.map Prod.fst ↔ s.Retried seen seqs f i := by
  have defers := s.standing_defers seen.copy seqs
  unfold Sequencer.Retried Sequencer.checked Flush.check
  simp only
  generalize (f.barred seen.found).map Prod.fst = barred
  by_cases short : i < f.parts.length
  · have held := List.getElem?_eq_getElem short
    have at' : f.parts.zipIdx[i]? = some (f.parts[i], i) := by
      rw [List.getElem?_zipIdx, held]
      simp
    have split : f.parts.zipIdx = f.parts.zipIdx.take i ++ (f.parts[i], i) ::
        f.parts.zipIdx.drop (i + 1) := by
      obtain ⟨bound, same⟩ := List.getElem?_eq_some_iff.mp at'
      rw [← same, ← List.drop_eq_getElem_cons, List.take_append_drop]
    have nodup := zipIdx_nodup f
    rw [split, List.map_append, List.map_cons, List.nodup_append, List.nodup_cons] at nodup
    obtain ⟨_, ⟨notAfter, _⟩, before⟩ := nodup
    have notBefore : i ∉ (f.parts.zipIdx.take i).map Prod.snd := fun inside =>
      before i inside i List.mem_cons_self rfl
    have stands (src : Src) (named : src.producer ≠ "") :=
      foldl_check_reaches defers barred src.producer named (f.parts.zipIdx.take i) ⟨∅, []⟩
    obtain ⟨early, stale, within, _⟩ := foldl_check_stale (s.standing seen.copy seqs) barred
      (f.parts.zipIdx.take i) ⟨∅, []⟩
    have out : i ∉ early.map Prod.fst := fun inside => notBefore (within.subset inside)
    conv_lhs => rw [split, List.foldl_append, List.foldl_cons]
    generalize (f.parts.zipIdx.take i).foldl (checkPart (s.standing seen.copy seqs) barred) ⟨∅, []⟩ =
      reached at stands stale
    obtain ⟨late, tail, within', _⟩ := foldl_check_stale (s.standing seen.copy seqs) barred
      (f.parts.zipIdx.drop (i + 1)) (checkPart (s.standing seen.copy seqs) barred reached
        (f.parts[i], i))
    have out' : i ∉ late.map Prod.fst := fun inside => notAfter (within'.subset inside)
    have checks := checkPart_checks (s.standing seen.copy seqs) barred reached (f.parts[i], i)
    rw [tail, List.map_append, List.mem_append]
    generalize checkPart (s.standing seen.copy seqs) barred reached (f.parts[i], i) = found at checks
    have none : i ∉ reached.stale.map Prod.fst := by
      rw [stale]
      exact out
    constructor
    · intro inside
      replace inside := inside.resolve_right out'
      cases checks with
      | free _ => exact absurd inside none
      | fine _ _ _ _ _ _ => exact absurd inside none
      | skipped src skip sent named open' why =>
        refine ⟨_, src, held, sent, named, open', ?_⟩
        rw [← stands src named]
        rintro ⟨newer, follows⟩
        rcases why with ⟨_, old⟩ | ⟨_, _, prev, expects, differs⟩
        · exact absurd newer (by omega)
        · exact differs (follows prev expects)
    · rintro ⟨p, src, held', sent, named, open', retry⟩
      obtain rfl := Option.some.inj (held.symm.trans held')
      rw [← stands src named] at retry
      left
      cases checks with
      | free unnamed =>
        rcases unnamed src sent with inside | blank
        · exact absurd inside open'
        · exact absurd blank named
      | skipped _ skip _ _ _ _ =>
        rw [List.map_append]
        exact List.mem_append_right _ (by simp)
      | fine other sent' _ _ newer follows =>
        obtain rfl := Option.some.inj (sent.symm.trans sent')
        exact absurd ⟨newer, follows⟩ retry
  · constructor
    · intro inside
      obtain ⟨more, stale, within, _⟩ := foldl_check_stale (s.standing seen.copy seqs)
        barred f.parts.zipIdx ⟨∅, []⟩
      rw [stale] at inside
      have place := within.subset inside
      rw [zipIdx_places, List.mem_range] at place
      exact absurd place short
    · rintro ⟨p, src, held, _⟩
      exact absurd (List.getElem?_eq_some_iff.mp held).1 short

/-- The parts a flush is to do without come in order unless a retry stands before a part whose table
doesn't take it. -/
theorem Sequencer.bad_rises (s : Sequencer) (seen : Seen) (seqs : Dict String Nat) (f : Flush) :
    ((s.bad seen seqs f).map Prod.fst).Nodup ∧
    (((s.bad seen seqs f).map Prod.fst).Pairwise (· < ·) ↔
      ¬ ∃ i j, i < j ∧ s.Retried seen seqs f i ∧ j ∈ (f.barred seen.found).map Prod.fst) := by
  have first := List.pairwise_lt_range.sublist (barred_places f seen.found)
  obtain ⟨more, stale, within, retries⟩ := foldl_check_stale (s.standing seen.copy seqs)
    ((f.barred seen.found).map Prod.fst) f.parts.zipIdx ⟨∅, []⟩
  have stale : (s.checked seen seqs f).stale = more := stale
  rw [zipIdx_places] at within
  have second := List.pairwise_lt_range.sublist within
  have apart : ∀ i ∈ (f.barred seen.found).map Prod.fst, ∀ j ∈ more.map Prod.fst, i ≠ j := by
    rintro i inside j held rfl
    obtain ⟨skipped, kept, rfl⟩ := List.mem_map.mp held
    exact (retries skipped kept).1 inside
  have all : (s.bad seen seqs f).map Prod.fst =
      (f.barred seen.found).map Prod.fst ++ more.map Prod.fst := by
    rw [Sequencer.bad, stale, List.map_append]
  have retried (i : Nat) : i ∈ more.map Prod.fst ↔ s.Retried seen seqs f i := by
    rw [← s.stale_iff, stale]
  rw [all]
  refine ⟨?_, ?_⟩
  · rw [List.nodup_append]
    exact ⟨first.imp fun {_ _} => Nat.ne_of_lt, second.imp fun {_ _} => Nat.ne_of_lt, apart⟩
  · rw [List.pairwise_append]
    constructor
    · rintro ⟨_, _, across⟩ ⟨i, j, less, retry, inside⟩
      have other := across j inside i ((retried i).mpr retry)
      omega
    · intro uncrossed
      refine ⟨first, second, fun i inside j held => ?_⟩
      have differs := apart i inside j held
      by_contra beyond
      exact uncrossed ⟨j, i, by omega, (retried j).mp held, inside⟩

/-- A part the flush is to do without was sent by a producer. -/
theorem Sequencer.bad_sent (s : Sequencer) (seen : Seen) (seqs : Dict String Nat) (f : Flush)
    (skipped : Nat × Skip) (inside : skipped ∈ s.bad seen seqs f) :
    ∃ part ∈ f.parts.zipIdx, part.2 = skipped.1 ∧ part.1.src ≠ none := by
  rcases List.mem_append.mp inside with barred | retry
  · obtain ⟨part, held, same, written, _⟩ := barred_written f seen.found skipped barred
    refine ⟨part, held, same, ?_⟩
    unfold Part.written at written
    rw [Bool.and_eq_true] at written
    exact Option.isSome_iff_ne_none.mp written.1
  · obtain ⟨more, stale, _, retries⟩ := foldl_check_stale (s.standing seen.copy seqs)
      ((f.barred seen.found).map Prod.fst) f.parts.zipIdx ⟨∅, []⟩
    have stale : (s.checked seen seqs f).stale = more := stale
    rw [stale] at retry
    exact (retries skipped retry).2.2

/-! ### What a flush does to its commit -/

/-- A flush of rows, not one that asks for numbers. -/
def Flush.Rows (f : Flush) : Prop :=
  f.sequence = none ∧ ¬ (0 < f.reserve ∨ f.block ∨ 0 < f.blocks)

/-- What looking at a flush makes of a commit. -/
inductive Handled (s : Sequencer) (views : Inline) (b : Batch) (seen : Seen) (f : Flush) :
    Batch → Prop where
  | counted (op : SequenceOp) (asks : f.sequence = some op) :
      Handled s views b seen f (b.count op seen.counter f)
  | reserved (asks : 0 < f.reserve ∨ f.block ∨ 0 < f.blocks) :
      Handled s views b seen f (b.reserve seen.ms f)
  | sentBack (why : f.stale views ∨ f.waits seen.held) :
      Handled s views b seen f (b.answer f (.retry []) [])
  | inAlready (bad : s.bad seen b.seqs f ≠ []) (files : f.filed ≠ []) :
      Handled s views b seen f (b.answer f (.acks (f.acks (s.bad seen b.seqs f) [] 0)) [])
  | redone (fresh : ¬ f.stale views) (free : ¬ f.waits seen.held) (bad : s.bad seen b.seqs f ≠ [])
      (files : f.filed = []) (derived : ∃ p ∈ f.parts, p.src = none) :
      Handled s views b seen f (b.answer f
        (.retry ((s.bad seen b.seqs f).map fun skipped => (skipped.1, skipped.2.ack))) [])
  | taken (asks : f.sequence = none ∧ ¬ (0 < f.reserve ∨ f.block ∨ 0 < f.blocks))
      (fresh : ¬ f.stale views) (free : ¬ f.waits seen.held)
      (whole : s.bad seen b.seqs f = [] ∨ f.filed = [] ∧ ∀ p ∈ f.parts, p.src ≠ none) :
      Handled s views b seen f
        (b.take seen.ms f (s.checked seen b.seqs f).mine (s.bad seen b.seqs f))

theorem takeFlush_handled (s : Sequencer) (views : Inline) (b : Batch) (seen : Seen) (f : Flush) :
    Handled s views b seen f (takeFlush s views b (seen, f)) := by
  unfold takeFlush
  simp only
  cases asks : f.sequence with
  | some op => exact .counted op asks
  | none =>
    simp only
    split
    · rename_i numbers
      exact .reserved numbers
    · rename_i rows
      split
      · rename_i stale
        exact .sentBack (.inl stale)
      · rename_i fresh
        split
        · rename_i held
          exact .sentBack (.inr held)
        · rename_i free
          split
          · rename_i already
            exact .inAlready already.1 already.2
          · rename_i new
            split
            · rename_i redo
              have files : f.filed = [] := by
                by_contra files
                exact new ⟨redo.1, files⟩
              refine .redone fresh free redo.1 files ?_
              simpa using redo.2
            · rename_i whole
              refine .taken ⟨asks, rows⟩ fresh free ?_
              by_cases bad : s.bad seen b.seqs f = []
              · exact .inl bad
              · refine .inr ⟨?_, ?_⟩
                · by_contra files
                  exact new ⟨bad, files⟩
                · intro p inside none
                  exact whole ⟨bad, by simpa using ⟨p, inside, none⟩⟩

/-! ### What an answer says of its parts -/

/-- Only parts whose ack doesn't skip them are taken, and none of a flush that goes back. -/
def Answer.Exact (a : Answer) : Prop :=
  match a.outcome with
  | .acks acks => ∀ part ∈ a.taken, ∃ ack, acks[part.2]? = some ack ∧ ack.skipped = false
  | _ => a.taken = []

theorem acks_at (f : Flush) (bad : List (Nat × Skip)) (rows : List (Nat × Nat)) (seg : Nat)
    (part : Part × Nat) (inside : part ∈ f.parts.zipIdx) :
    (f.acks bad rows seg)[part.2]? = some (match bad.lookup part.2 with
      | some skip => skip.ack
      | none => { Ack.blank with seg := seg, row := (rows.lookup part.2).getD 0 }) := by
  have at' : f.parts.zipIdx[part.2]? = some part := by
    rw [List.getElem?_zipIdx, List.mem_zipIdx_iff_getElem?.mp inside]
    simp
  rw [Flush.acks, List.getElem?_map, at']
  rfl

theorem exact_good (f : Flush) (bad : List (Nat × Skip)) (rows : List (Nat × Nat)) (seg : Nat) :
    Answer.Exact ⟨f, .acks (f.acks bad rows seg), f.good bad⟩ := by
  intro part good
  obtain ⟨inside, fine⟩ := List.mem_filter.mp good
  refine ⟨_, acks_at f bad rows seg part inside, ?_⟩
  rw [Option.isNone_iff_eq_none.mp fine]
  rfl

theorem exact_none (f : Flush) (outcome : Outcome) : Answer.Exact ⟨f, outcome, []⟩ := by
  cases outcome with
  | acks acks => exact fun part inside => absurd inside List.not_mem_nil
  | retry _ => rfl
  | refused _ => rfl

theorem exact_number (a : Answer) (seg : Nat) (exact' : a.Exact) : (a.number seg).Exact := by
  obtain ⟨f, outcome, taken⟩ := a
  cases outcome with
  | retry _ => exact exact'
  | refused _ => exact exact'
  | acks acks =>
    intro part inside
    obtain ⟨ack, found, clean⟩ := exact' part inside
    refine ⟨ack.number seg, ?_, ?_⟩
    · show (acks.map (Ack.number seg))[part.2]? = _
      rw [List.getElem?_map, found]
      rfl
    · unfold Ack.number
      split
      · exact clean
      · exact clean

@[simp] theorem number_taken (a : Answer) (seg : Nat) : (a.number seg).taken = a.taken := by
  unfold Answer.number
  split
  · rfl
  · rfl

@[simp] theorem number_flush (a : Answer) (seg : Nat) : (a.number seg).flush = a.flush := by
  unfold Answer.number
  split
  · rfl
  · rfl

/-- A flush is answered once, and moves the marks only with the parts it is taken with. -/
theorem Handled.answered {s : Sequencer} {views : Inline} {b later : Batch} {seen : Seen} {f : Flush}
    (handled : Handled s views b seen f later) :
    ∃ outcome taken, later.answers = b.answers ++ [⟨f, outcome, taken⟩] ∧
      Answer.Exact ⟨f, outcome, taken⟩ ∧
      (taken = [] ∧ later.seqs = b.seqs ∨
        taken = f.good (s.bad seen b.seqs f) ∧
          later.seqs = (s.checked seen b.seqs f).mine ∪ b.seqs) := by
  cases handled with
  | counted op _ => exact ⟨_, [], rfl, exact_none f _, .inl ⟨rfl, rfl⟩⟩
  | reserved _ =>
    unfold Batch.reserve
    simp only
    split
    · exact ⟨_, [], rfl, exact_none f _, .inl ⟨rfl, rfl⟩⟩
    · exact ⟨_, [], rfl, exact_none f _, .inl ⟨rfl, rfl⟩⟩
  | sentBack _ => exact ⟨_, [], rfl, exact_none f _, .inl ⟨rfl, rfl⟩⟩
  | inAlready _ _ => exact ⟨_, [], rfl, exact_none f _, .inl ⟨rfl, rfl⟩⟩
  | redone _ _ _ _ _ => exact ⟨_, [], rfl, exact_none f _, .inl ⟨rfl, rfl⟩⟩
  | taken _ _ _ _ =>
    unfold Batch.take
    simp only
    split
    · exact ⟨_, _, rfl, exact_good f _ _ 0, .inr ⟨rfl, rfl⟩⟩
    · split
      · exact ⟨_, _, rfl, exact_good f _ _ _, .inr ⟨rfl, rfl⟩⟩
      · exact ⟨_, _, rfl, exact_good f _ _ _, .inr ⟨rfl, rfl⟩⟩

end Pondra.Log
