import Mathlib.Order.Defs.LinearOrder
import Mathlib.Order.Lattice

set_option autoImplicit false

namespace Foremost

variable {ρ π : Type} [LinearOrder π] (rank : ρ → π)

/-- The later of two versions, or the earlier one where it ranks above it. -/
def atop (a b : ρ) : ρ := if rank a ≤ rank b then b else a

def merge : Option ρ → Option ρ → Option ρ
  | none, b => b
  | some a, none => some a
  | some a, some b => some (atop rank a b)

/-- Of versions listed oldest first, the last of those of the highest rank. -/
def pick : List ρ → Option ρ
  | [] => none
  | r :: rest => merge rank (some r) (pick rest)

@[simp] theorem pick_nil : pick rank ([] : List ρ) = none := rfl

theorem pick_cons (r : ρ) (rest : List ρ) :
    pick rank (r :: rest) = merge rank (some r) (pick rank rest) := rfl

@[simp] theorem pick_singleton (r : ρ) : pick rank [r] = some r := rfl

@[simp] theorem none_merge (b : Option ρ) : merge rank none b = b := rfl

@[simp] theorem merge_none (a : Option ρ) : merge rank a none = a := by cases a <;> rfl

theorem atop_assoc (a b c : ρ) : atop rank (atop rank a b) c = atop rank a (atop rank b c) := by
  unfold atop
  by_cases first : rank a ≤ rank b
  · by_cases second : rank b ≤ rank c
    · rw [if_pos first, if_pos second, if_pos (le_trans first second)]
    · rw [if_pos first, if_neg second, if_pos first]
  · by_cases second : rank b ≤ rank c
    · rw [if_neg first, if_pos second]
    · have less : ¬rank a ≤ rank c := fun below =>
        absurd (lt_trans (not_le.mp second) (not_le.mp first)) (not_lt.mpr below)
      rw [if_neg first, if_neg second, if_neg first, if_neg less]

theorem merge_assoc (a b c : Option ρ) :
    merge rank (merge rank a b) c = merge rank a (merge rank b c) := by
  cases a with
  | none => rfl
  | some a =>
    cases b with
    | none => rfl
    | some b =>
      cases c with
      | none => rfl
      | some c => exact congrArg some (atop_assoc rank a b c)

theorem pick_append (older newer : List ρ) :
    pick rank (older ++ newer) = merge rank (pick rank older) (pick rank newer) := by
  induction older with
  | nil => rfl
  | cons r rest ih => rw [List.cons_append, pick_cons, ih, pick_cons, merge_assoc]

@[simp] theorem pick_toList (a : Option ρ) : pick rank a.toList = a := by cases a <;> rfl

theorem pick_eq_none (l : List ρ) : pick rank l = none ↔ l = [] := by
  cases l with
  | nil => exact ⟨fun _ => rfl, fun _ => rfl⟩
  | cons r rest =>
    refine ⟨fun none => ?_, fun none => by cases none⟩
    rw [pick_cons] at none
    cases picked : pick rank rest <;> rw [picked] at none <;> cases none

/-- The version picked ranks at or above those before it, and above those after it. -/
theorem pick_spec (l : List ρ) (r : ρ) (picked : pick rank l = some r) :
    ∃ before after, l = before ++ r :: after ∧ (∀ b ∈ before, rank b ≤ rank r) ∧
      ∀ c ∈ after, rank c < rank r := by
  induction l generalizing r with
  | nil => cases picked
  | cons first rest ih =>
    rw [pick_cons] at picked
    cases later : pick rank rest with
    | none =>
      rw [later, merge_none] at picked
      cases picked
      rw [(pick_eq_none rank rest).mp later]
      exact ⟨[], [], rfl, fun b inside => (List.not_mem_nil inside).elim,
        fun c inside => (List.not_mem_nil inside).elim⟩
    | some last =>
      rw [later] at picked
      obtain rfl := Option.some.inj picked
      obtain ⟨before, after, is, least, most⟩ := ih last later
      by_cases less : rank first ≤ rank last
      · rw [atop, if_pos less]
        refine ⟨first :: before, after, by rw [is, List.cons_append], ?_, most⟩
        intro b inside
        rcases List.mem_cons.mp inside with rfl | there
        · exact less
        · exact least b there
      · rw [atop, if_neg less]
        refine ⟨[], rest, rfl, fun b inside => (List.not_mem_nil inside).elim, ?_⟩
        intro c inside
        have above : rank c ≤ rank last := by
          rw [is] at inside
          rcases List.mem_append.mp inside with early | late
          · exact least c early
          · rcases List.mem_cons.mp late with rfl | late
            · exact le_refl _
            · exact le_of_lt (most c late)
        exact lt_of_le_of_lt above (not_le.mp less)

theorem pick_mem (l : List ρ) (r : ρ) (picked : pick rank l = some r) : r ∈ l := by
  obtain ⟨before, after, rfl, _⟩ := pick_spec rank l r picked
  exact List.mem_append_right _ List.mem_cons_self

/-- Where no version ranks above another, the last one is picked. -/
theorem merge_flat (flat : ∀ a b : ρ, rank a ≤ rank b) (a : Option ρ) (b : ρ) :
    merge rank a (some b) = some b := by
  cases a with
  | none => rfl
  | some a => exact congrArg some (if_pos (flat a b))

/-- One version at most is its own pick. -/
theorem pick_few (l : List ρ) (few : l.length ≤ 1) : (pick rank l).toList = l := by
  cases l with
  | nil => rfl
  | cons r rest =>
    rw [List.length_cons] at few
    rw [List.length_eq_zero_iff.mp (show rest.length = 0 by omega)]
    rfl

/-! ### Two picks that read the same -/

/-- The versions picked are the same, or both are dead ones, the first not above the second. -/
def Alike (dead : ρ → Prop) (held logged : Option ρ) : Prop :=
  held = logged ∨ ((∀ h ∈ held, dead h) ∧ (∀ d ∈ logged, dead d) ∧
    ∀ h ∈ held, ∃ d ∈ logged, rank h ≤ rank d)

theorem atop_or (a b : ρ) : atop rank a b = a ∨ atop rank a b = b := by
  unfold atop
  split
  · exact .inr rfl
  · exact .inl rfl

theorem le_atop (a b : ρ) : rank a ≤ rank (atop rank a b) ∧ rank b ≤ rank (atop rank a b) := by
  unfold atop
  split
  · rename_i less
    exact ⟨less, le_refl _⟩
  · rename_i more
    exact ⟨le_refl _, le_of_lt (not_le.mp more)⟩

variable {rank} {dead : ρ → Prop}

theorem alike_later (later : ρ → Prop) (more : ∀ r, dead r → later r) (held logged : Option ρ)
    (alike : Alike rank dead held logged) : Alike rank later held logged := by
  rcases alike with same | ⟨first, second, below⟩
  · exact .inl same
  · exact .inr ⟨fun h is => more h (first h is), fun d is => more d (second d is), below⟩

/-- A newer version comes to both: one that is dead, or ranks at or above what was picked. -/
theorem alike_merge (held logged newer : Option ρ) (alike : Alike rank dead held logged)
    (above : held ≠ logged → ∀ b ∈ newer, dead b ∨ ∀ d ∈ logged, rank d ≤ rank b) :
    Alike rank dead (merge rank held newer) (merge rank logged newer) := by
  rcases alike with rfl | ⟨first, second, below⟩
  · exact .inl rfl
  · by_cases same : held = logged
    · rw [same]
      exact .inl rfl
    · cases newer with
      | none =>
        rw [merge_none, merge_none]
        exact .inr ⟨first, second, below⟩
      | some b =>
        cases logged with
        | none =>
          cases held with
          | none => exact .inl rfl
          | some h =>
            obtain ⟨d, is, _⟩ := below h rfl
            cases is
        | some d =>
          rcases above same b rfl with gone | atop
          · have whole : ∀ r ∈ merge rank (some d) (some b), dead r := by
              intro r is
              obtain rfl := Option.some.inj is
              rcases atop_or rank d b with eq | eq <;> rw [eq]
              · exact second d rfl
              · exact gone
            cases held with
            | none =>
              refine .inr ⟨fun h is => Option.some.inj is ▸ gone, whole, ?_⟩
              intro h is
              obtain rfl := Option.some.inj is
              exact ⟨_, rfl, (le_atop rank d b).2⟩
            | some h =>
              obtain ⟨_, is, less⟩ := below h rfl
              obtain rfl := Option.mem_some_iff.mp is
              refine .inr ⟨?_, whole, ?_⟩
              · intro r is
                obtain rfl := Option.some.inj is
                rcases atop_or rank h b with eq | eq <;> rw [eq]
                · exact first h rfl
                · exact gone
              · intro r is
                obtain rfl := Option.some.inj is
                refine ⟨_, rfl, ?_⟩
                rcases atop_or rank h b with eq | eq <;> rw [eq]
                · exact le_trans less (le_atop rank d b).1
                · exact (le_atop rank d b).2
          · -- it is picked by both
            have last : merge rank (some d) (some b) = some b := congrArg some (if_pos (atop d rfl))
            cases held with
            | none => exact .inl last.symm
            | some h =>
              obtain ⟨_, is, less⟩ := below h rfl
              obtain rfl := Option.mem_some_iff.mp is
              have too : merge rank (some h) (some b) = some b :=
                congrArg some (if_pos (le_trans less (atop _ rfl)))
              exact .inl (too.trans last.symm)

/-- A dead version goes from one, and those after it rank at or above it or are dead. -/
theorem alike_drop (x newer logged : Option ρ) (kept : ρ → Bool)
    (alike : Alike rank dead (merge rank x newer) logged)
    (gone : ∀ r ∈ x, kept r = false → dead r)
    (above : ∀ r ∈ x, kept r = false → ∀ y ∈ newer, rank r ≤ rank y ∨ dead y) :
    Alike rank dead (merge rank (x.filter kept) newer) logged := by
  cases x with
  | none => exact alike
  | some r =>
    cases keeps : kept r with
    | true =>
      rw [Option.filter_some, if_pos keeps]
      exact alike
    | false =>
      rw [Option.filter_some, if_neg (by simp [keeps]), none_merge]
      have lost := gone r rfl keeps
      cases newer with
      | none =>
        have none : ∀ h : ρ, h ∉ (none : Option ρ) := fun h is => by cases is
        refine .inr ⟨fun h is => absurd is (none h), ?_, fun h is => absurd is (none h)⟩
        rcases alike with rfl | ⟨_, second, _⟩
        · intro d is
          exact Option.some.inj is ▸ lost
        · exact second
      | some y =>
        rcases above r rfl keeps y rfl with less | too
        · have last : merge rank (some r) (some y) = some y := congrArg some (if_pos less)
          rwa [last] at alike
        · refine .inr ⟨fun h is => Option.some.inj is ▸ too, ?_, ?_⟩
          · rcases alike with rfl | ⟨_, second, _⟩
            · intro d is
              obtain rfl := Option.some.inj is
              rcases atop_or rank r y with eq | eq <;> rw [eq]
              · exact lost
              · exact too
            · exact second
          · intro h is
            obtain rfl := Option.some.inj is
            rcases alike with rfl | ⟨_, _, below⟩
            · exact ⟨_, rfl, (le_atop rank r y).2⟩
            · obtain ⟨d, is, more⟩ := below _ rfl
              exact ⟨d, is, le_trans (le_atop rank r y).2 more⟩

end Foremost
