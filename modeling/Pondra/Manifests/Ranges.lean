import Pondra.Base.Dict
import Pondra.Base.Least

set_option autoImplicit false

/-! ### The ranges of files and of manifests -/

namespace Pondra.Manifests

open Dicts Least

/-- A column's min and max, as text parsed with the column's type. -/
abbrev Stats := Dict String (String × String)

/-- Values of the columns' types: text parsed with a type, a value as text, and how two compare. -/
structure Scalars (τ ν : Type) where
  parse : τ → String → Option ν
  text : ν → Option String
  cmp : ν → ν → Option Ordering

abbrev Schema (τ : Type) := Dict String τ

variable {τ ν : Type} (scalars : Scalars τ ν)

/-- Text parses with a type to that type's values, which compare as a total order; and a value's text parses
back to it. -/
structure Sound : Prop where
  ranks : ∀ t, Ranks scalars.cmp fun v => ∃ s, scalars.parse t s = some v
  again : ∀ t s v s', scalars.parse t s = some v → scalars.text v = some s' → scalars.parse t s' = some v

/-- A column's range in a part, where both ends parse. -/
def rangeIn (t : τ) (col : String) (part : Stats) : Option (ν × ν) :=
  (part.lookup col).bind fun r =>
    (scalars.parse t r.1).bind fun lo => (scalars.parse t r.2).map fun hi => (lo, hi)

/-- Every value, where there is each. -/
def every {α : Type} : List (Option α) → Option (List α)
  | [] => some []
  | v :: rest => v.bind fun v => (every rest).map (v :: ·)

/-- The range of a column over all of `parts`, where each of them has one. -/
def spanning (t : τ) (col : String) (parts : List Stats) : Option (String × String) :=
  (every (parts.map (rangeIn scalars t col))).bind fun ranges =>
    ((leastOf scalars.cmp (ranges.map Prod.fst)).bind scalars.text).bind fun lo =>
      ((greatestOf scalars.cmp (ranges.map Prod.snd)).bind scalars.text).map fun hi => (lo, hi)

/-- The ranges covering all of `parts`: a column missing from any of them has no range. -/
def union (parts : List Stats) (schema : Schema τ) : Stats :=
  match parts with
  | [] => ∅
  | first :: _ =>
    first.keys.foldl (fun out col =>
      match (schema.lookup col).bind fun t => spanning scalars t col parts with
      | some range => out.insert col range
      | none => out) ∅

/-- A column's range in `wide` covers its range in `part`, which has one. -/
def Covers (t : τ) (col : String) (wide part : Stats) : Prop :=
  ∃ lo hi lo' hi', rangeIn scalars t col wide = some (lo, hi) ∧
    rangeIn scalars t col part = some (lo', hi') ∧ NotAfter scalars.cmp lo lo' ∧
    NotAfter scalars.cmp hi' hi

/-- Each column with a range in `wide` has one in `part`, inside it. -/
def Inside (types : String → τ) (wide part : Stats) : Prop :=
  ∀ col, (wide.lookup col).isSome → Covers scalars (types col) col wide part

variable {scalars} {t : τ} {col : String} {parts : List Stats} {part : Stats}

theorem every_some {α : Type} {values : List (Option α)} {all : List α} :
    every values = some all ↔ values = all.map some := by
  induction values generalizing all with
  | nil =>
    rw [every]
    cases all <;> simp
  | cons v rest ih =>
    rw [every]
    cases v with
    | none => cases all <;> simp
    | some v =>
      cases all with
      | nil => simp
      | cons first others =>
        simp only [Option.bind_some, Option.map_eq_some_iff, List.cons.injEq, List.map_cons,
          Option.some.injEq, ih]
        constructor
        · rintro ⟨all, equal, rfl, rfl⟩
          exact ⟨rfl, equal⟩
        · rintro ⟨rfl, equal⟩
          exact ⟨others, equal, rfl, rfl⟩

theorem rangeIn_some {range : ν × ν} :
    rangeIn scalars t col part = some range ↔ ∃ r, part.lookup col = some r ∧
      scalars.parse t r.1 = some range.1 ∧ scalars.parse t r.2 = some range.2 := by
  rw [rangeIn, Option.bind_eq_some_iff]
  constructor
  · rintro ⟨r, found, both⟩
    obtain ⟨lo, low, rest⟩ := Option.bind_eq_some_iff.mp both
    obtain ⟨hi, high, rfl⟩ := Option.map_eq_some_iff.mp rest
    exact ⟨r, found, low, high⟩
  · rintro ⟨r, found, low, high⟩
    exact ⟨r, found, by rw [low, high]; rfl⟩

/-- What a range over all parts says: each part has one, and it covers them. -/
theorem spanning_spec (sound : Sound scalars) {range : String × String}
    (found : spanning scalars t col parts = some range) :
    ∃ lo hi, scalars.parse t range.1 = some lo ∧ scalars.parse t range.2 = some hi ∧
      ∀ part ∈ parts, ∃ lo' hi', rangeIn scalars t col part = some (lo', hi') ∧
        NotAfter scalars.cmp lo lo' ∧ NotAfter scalars.cmp hi' hi := by
  obtain ⟨ranges, all, found⟩ := Option.bind_eq_some_iff.mp found
  obtain ⟨low, lowText, found⟩ := Option.bind_eq_some_iff.mp found
  obtain ⟨lo, least, lowText⟩ := Option.bind_eq_some_iff.mp lowText
  obtain ⟨high, highText, rfl⟩ := Option.map_eq_some_iff.mp found
  obtain ⟨hi, greatest, highText⟩ := Option.bind_eq_some_iff.mp highText
  have all := every_some.mp all
  have parsed : ∀ r ∈ ranges, (∃ s, scalars.parse t s = some r.1) ∧ ∃ s, scalars.parse t s = some r.2 := by
    intro r inside
    have inParts : some r ∈ parts.map (rangeIn scalars t col) := by
      rw [all]
      exact List.mem_map_of_mem inside
    obtain ⟨part, _, is⟩ := List.mem_map.mp inParts
    obtain ⟨texts, _, low, high⟩ := rangeIn_some.mp is
    exact ⟨⟨_, low⟩, ⟨_, high⟩⟩
  obtain ⟨⟨s, isLow⟩, below⟩ := leastOf_spec (sound.ranks t) (by
    intro v inside
    obtain ⟨r, held, rfl⟩ := List.mem_map.mp inside
    exact (parsed r held).1) least
  obtain ⟨⟨s', isHigh⟩, above⟩ := greatestOf_spec (sound.ranks t) (by
    intro v inside
    obtain ⟨r, held, rfl⟩ := List.mem_map.mp inside
    exact (parsed r held).2) greatest
  refine ⟨lo, hi, sound.again t s lo low isLow lowText, sound.again t s' hi high isHigh highText, ?_⟩
  intro part inside
  have inRanges : rangeIn scalars t col part ∈ ranges.map some := by
    rw [← all]
    exact List.mem_map_of_mem inside
  obtain ⟨r, held, is⟩ := List.mem_map.mp inRanges
  exact ⟨r.1, r.2, is.symm, below _ (List.mem_map_of_mem held), above _ (List.mem_map_of_mem held)⟩

/-- The greatest value of a range over all parts is that of one of them. -/
theorem spanning_ends (sound : Sound scalars) {range : String × String}
    (found : spanning scalars t col parts = some range) :
    ∃ part ∈ parts, ∃ lo hi, rangeIn scalars t col part = some (lo, hi) ∧
      scalars.parse t range.2 = some hi := by
  obtain ⟨ranges, all, found⟩ := Option.bind_eq_some_iff.mp found
  obtain ⟨low, _, found⟩ := Option.bind_eq_some_iff.mp found
  obtain ⟨high, highText, rfl⟩ := Option.map_eq_some_iff.mp found
  obtain ⟨hi, greatest, highText⟩ := Option.bind_eq_some_iff.mp highText
  obtain ⟨r, held, rfl⟩ := List.mem_map.mp (greatestOf_mem greatest)
  have inParts : some r ∈ parts.map (rangeIn scalars t col) := by
    rw [every_some.mp all]
    exact List.mem_map_of_mem held
  obtain ⟨part, inside, is⟩ := List.mem_map.mp inParts
  obtain ⟨texts, _, _, parsed⟩ := rangeIn_some.mp is
  exact ⟨part, inside, r.1, r.2, is, sound.again t _ r.2 high parsed highText⟩

/-- Where every part has a range whose values have texts, so have they all together. -/
theorem spanning_some (written : ∀ s v, scalars.parse t s = some v → (scalars.text v).isSome)
    (some_ : parts ≠ []) (each : ∀ part ∈ parts, (rangeIn scalars t col part).isSome) :
    (spanning scalars t col parts).isSome := by
  have all : ∃ ranges, every (parts.map (rangeIn scalars t col)) = some ranges := by
    refine ⟨parts.pmap (fun part is => (rangeIn scalars t col part).get is) each, every_some.mpr ?_⟩
    rw [List.map_pmap]
    simp [List.pmap_eq_map]
  obtain ⟨ranges, all⟩ := all
  have same := every_some.mp all
  have parsed : ∀ r ∈ ranges, (scalars.text r.1).isSome ∧ (scalars.text r.2).isSome := by
    intro r held
    have inParts : some r ∈ parts.map (rangeIn scalars t col) := by
      rw [same]
      exact List.mem_map_of_mem held
    obtain ⟨part, inside, is⟩ := List.mem_map.mp inParts
    obtain ⟨texts, _, low, high⟩ := rangeIn_some.mp is
    exact ⟨written _ _ low, written _ _ high⟩
  cases ranges with
  | nil =>
    rw [List.map_nil, List.map_eq_nil_iff] at same
    exact absurd same some_
  | cons first rest =>
    obtain ⟨lo, least⟩ : ∃ lo, leastOf scalars.cmp ((first :: rest).map Prod.fst) = some lo := ⟨_, rfl⟩
    obtain ⟨hi, greatest⟩ : ∃ hi, greatestOf scalars.cmp ((first :: rest).map Prod.snd) = some hi := ⟨_, rfl⟩
    obtain ⟨r, held, rfl⟩ := List.mem_map.mp (leastOf_mem least)
    obtain ⟨r', held', rfl⟩ := List.mem_map.mp (greatestOf_mem greatest)
    obtain ⟨low, lowText⟩ := Option.isSome_iff_exists.mp (parsed r held).1
    obtain ⟨high, highText⟩ := Option.isSome_iff_exists.mp (parsed r' held').2
    rw [spanning, all, Option.bind_some, least, Option.bind_some, lowText, Option.bind_some, greatest,
      Option.bind_some, highText]
    rfl

section union

variable {schema : Schema τ}

theorem inserts_lookup (cols : List String) (range : String → Option (String × String)) (out : Stats) :
    (cols.foldl (fun out col =>
        match range col with
        | some r => out.insert col r
        | none => out) out).lookup col =
      if col ∈ cols then (range col).or (out.lookup col) else out.lookup col := by
  induction cols generalizing out with
  | nil => simp
  | cons first rest ih =>
    rw [List.foldl_cons, ih]
    by_cases same : col = first
    · subst same
      cases told : range col with
      | none => simp
      | some r => simp
    · have left : (match range first with
          | some r => out.insert first r
          | none => out).lookup col = out.lookup col := by
        cases range first with
        | none => rfl
        | some r => rw [lookup_insert_eq, if_neg same]
      rw [left]
      simp [same]

/-- The range of a column over parts, which are some. -/
theorem union_lookup (some_ : parts ≠ []) :
    (union scalars parts schema).lookup col =
      (schema.lookup col).bind fun t => spanning scalars t col parts := by
  cases parts with
  | nil => exact absurd rfl some_
  | cons first rest =>
    rw [union, inserts_lookup first.keys fun col =>
      (schema.lookup col).bind fun t => spanning scalars t col (first :: rest)]
    by_cases inside : col ∈ first.keys
    · rw [if_pos inside, AList.lookup_empty, Option.or_none]
    · rw [if_neg inside, AList.lookup_empty]
      have missing : first.lookup col = none := AList.lookup_eq_none.mpr inside
      cases schema.lookup col with
      | none => rfl
      | some t =>
        have none_ : rangeIn scalars t col first = none := by rw [rangeIn, missing]; rfl
        rw [Option.bind_some, spanning, List.map_cons, every, none_]
        rfl

theorem union_inside (sound : Sound scalars) {types : String → τ}
    (typed : ∀ col t, schema.lookup col = some t → t = types col) (inside : part ∈ parts) :
    Inside scalars types (union scalars parts schema) part := by
  intro col held
  obtain ⟨range, found⟩ := Option.isSome_iff_exists.mp held
  have told := found
  rw [union_lookup (List.ne_nil_of_mem inside)] at told
  obtain ⟨t, known, spans⟩ := Option.bind_eq_some_iff.mp told
  rw [typed col t known] at spans
  obtain ⟨lo, hi, low, high, all⟩ := spanning_spec sound spans
  obtain ⟨lo', hi', is, below, above⟩ := all part inside
  exact ⟨lo, hi, lo', hi', rangeIn_some.mpr ⟨range, found, low, high⟩, is, below, above⟩

end union

/-! ### Which containers can hold rows -/

/-- What a container's ranges say of a column: its min and its max, where known. -/
abbrev Bounds (ν : Type) := String → Option ν × Option ν

variable (scalars) in
/-- The ranges of a container, read with a schema. -/
def boundsOf (schema : Schema τ) (part : Stats) : Bounds ν := fun col =>
  match schema.lookup col with
  | none => (none, none)
  | some t => ((part.lookup col).bind fun r => scalars.parse t r.1, (part.lookup col).bind fun r => scalars.parse t r.2)

/-- A min (or max) `wide` says no more than `narrow` does. -/
def Looser (before : ν → ν → Prop) (wide narrow : Option ν) : Prop :=
  ∀ w, wide = some w → ∃ n, narrow = some n ∧ before w n

/-- The bounds `wide` hold whatever `narrow` do. -/
def Wider (scalars : Scalars τ ν) (wide narrow : Bounds ν) : Prop :=
  ∀ col, Looser (NotAfter scalars.cmp) (wide col).1 (narrow col).1 ∧
    Looser (fun w n => NotAfter scalars.cmp n w) (wide col).2 (narrow col).2

section pruning

variable {φ : Type} (may : List φ → Schema τ → Option (Bounds ν → Bool)) {schema : Schema τ}

variable (scalars) in
/-- Which of the containers can hold rows matching all of `filters`: what the ranges can't decide is kept. `may`
is the check made of the filters, where one can be made. -/
def keep (stats : List Stats) (filters : List φ) (schema : Schema τ) : List Bool :=
  if filters.isEmpty then stats.map fun _ => true
  else
    match may filters schema with
    | none => stats.map fun _ => true
    | some check => stats.map fun part => check (boundsOf scalars schema part)

variable (scalars) in
/-- A check that wider ranges pass where narrower ones do. -/
def Monotone : Prop :=
  ∀ filters schema check, may filters schema = some check → ∀ wide narrow, Wider scalars wide narrow →
    check narrow = true → check wide = true

theorem wider_of {types : String → τ} {wide : Stats}
    (typed : ∀ col t, schema.lookup col = some t → t = types col) (inside : Inside scalars types wide part) :
    Wider scalars (boundsOf scalars schema wide) (boundsOf scalars schema part) := by
  intro col
  rw [boundsOf, boundsOf]
  cases known : schema.lookup col with
  | none => exact ⟨nofun, nofun⟩
  | some t =>
    have t_eq := typed col t known
    cases held : wide.lookup col with
    | none => exact ⟨nofun, nofun⟩
    | some r =>
      obtain ⟨lo, hi, lo', hi', is, is', below, above⟩ := inside col (by rw [held]; rfl)
      obtain ⟨r', held', low, high⟩ := rangeIn_some.mp is
      obtain ⟨s, inPart, low', high'⟩ := rangeIn_some.mp is'
      rw [held] at held'
      rw [← Option.some.inj held', ← t_eq] at low high
      rw [← t_eq] at low' high'
      constructor
      · intro w told
        refine ⟨lo', ?_, ?_⟩
        · show (part.lookup col).bind _ = _
          rw [inPart]
          exact low'
        · rw [← Option.some.inj (low.symm.trans told)]
          exact below
      · intro w told
        refine ⟨hi', ?_, ?_⟩
        · show (part.lookup col).bind _ = _
          rw [inPart]
          exact high'
        · rw [← Option.some.inj (high.symm.trans told)]
          exact above

/-- A container is kept where one whose ranges its own cover is. -/
theorem keep_inside (monotone : Monotone scalars may) {types : String → τ} {wide : Stats}
    (typed : ∀ col t, schema.lookup col = some t → t = types col) (inside : Inside scalars types wide part)
    (filters : List φ) (kept : keep scalars may [part] filters schema = [true]) :
    keep scalars may [wide] filters schema = [true] := by
  rw [keep] at kept ⊢
  split
  · rfl
  · rename_i some_
    rw [if_neg some_] at kept
    cases made : may filters schema with
    | none => rfl
    | some check =>
      rw [made] at kept
      have passes : check (boundsOf scalars schema part) = true := (List.cons.inj kept).1
      have wider := monotone filters schema check made _ _ (wider_of typed inside) passes
      exact congrArg (fun kept => [kept]) wider

end pruning

end Pondra.Manifests
