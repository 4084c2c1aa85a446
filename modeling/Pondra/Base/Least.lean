set_option autoImplicit false

/-! ### The least and the greatest of a list, by a comparison that may not tell -/

namespace Least

variable {α : Type} (cmp : α → α → Option Ordering)

/-- The first of the least values; two that don't compare count as equal. -/
def leastOf : List α → Option α
  | [] => none
  | first :: rest =>
    some (rest.foldl (fun best v => if (cmp best v).getD .eq = .gt then v else best) first)

/-- The last of the greatest. -/
def greatestOf : List α → Option α
  | [] => none
  | first :: rest =>
    some (rest.foldl (fun best v => if (cmp best v).getD .eq = .gt then best else v) first)

/-- `a` is not after `b`. -/
def NotAfter (a b : α) : Prop := cmp a b = some .lt ∨ cmp a b = some .eq

/-- The comparison is a total order on some values. -/
structure Ranks (of_ : α → Prop) : Prop where
  comparable : ∀ a b, of_ a → of_ b → (cmp a b).isSome
  swapped : ∀ a b o, of_ a → of_ b → cmp a b = some o → cmp b a = some o.swap
  trans : ∀ a b c, of_ a → of_ b → of_ c → NotAfter cmp a b → NotAfter cmp b c → NotAfter cmp a c

variable {cmp}

theorem foldl_mem (pick : α → α → α) (one : ∀ a b, pick a b = a ∨ pick a b = b) (rest : List α) (first : α) :
    rest.foldl pick first ∈ first :: rest := by
  induction rest generalizing first with
  | nil => exact List.mem_singleton_self first
  | cons v rest ih =>
    rw [List.foldl_cons]
    rcases List.mem_cons.mp (ih (pick first v)) with here | later
    · rw [here]
      rcases one first v with is | is
      · rw [is]
        exact List.mem_cons_self
      · rw [is]
        exact List.mem_cons_of_mem _ List.mem_cons_self
    · exact List.mem_cons_of_mem _ (List.mem_cons_of_mem _ later)

theorem greatestOf_mem {values : List α} {greatest : α} (found : greatestOf cmp values = some greatest) :
    greatest ∈ values := by
  cases values with
  | nil => cases found
  | cons first rest =>
    rw [← Option.some.inj found]
    exact foldl_mem _ (fun a b => by split <;> simp) rest first

theorem leastOf_mem {values : List α} {least : α} (found : leastOf cmp values = some least) :
    least ∈ values := by
  cases values with
  | nil => cases found
  | cons first rest =>
    rw [← Option.some.inj found]
    exact foldl_mem _ (fun a b => by split <;> simp) rest first

variable {of_ : α → Prop} (ranks : Ranks cmp of_)

include ranks

theorem Ranks.refl {a : α} (is : of_ a) : NotAfter cmp a a := by
  obtain ⟨o, told⟩ := Option.isSome_iff_exists.mp (ranks.comparable a a is is)
  have same := ranks.swapped a a o is is told
  rw [told] at same
  cases o with
  | lt => cases same
  | eq => exact .inr told
  | gt => cases same

/-- Where `a` is not found after `b`, it is not; else `b` is not after `a`. -/
theorem Ranks.split {a b : α} (isA : of_ a) (isB : of_ b) :
    if (cmp a b).getD .eq = .gt then NotAfter cmp b a else NotAfter cmp a b := by
  obtain ⟨o, told⟩ := Option.isSome_iff_exists.mp (ranks.comparable a b isA isB)
  rw [told, Option.getD_some]
  cases o with
  | lt => exact .inl told
  | eq => exact .inr told
  | gt => exact .inl (ranks.swapped a b .gt isA isB told)

theorem leastFrom_spec (rest : List α) (first : α) (is : of_ first) (all : ∀ v ∈ rest, of_ v) :
    let least := rest.foldl (fun best v => if (cmp best v).getD .eq = .gt then v else best) first
    of_ least ∧ NotAfter cmp least first ∧ ∀ v ∈ rest, NotAfter cmp least v := by
  induction rest generalizing first with
  | nil => exact ⟨is, ranks.refl is, fun v inside => absurd inside List.not_mem_nil⟩
  | cons v rest ih =>
    have isV := all v List.mem_cons_self
    have others : ∀ w ∈ rest, of_ w := fun w inside => all w (List.mem_cons_of_mem v inside)
    have told := ranks.split is isV
    simp only [List.foldl_cons]
    split at told
    · rename_i after
      rw [if_pos after]
      obtain ⟨here, below, rests⟩ := ih v isV others
      refine ⟨here, ranks.trans _ _ _ here isV is below told, ?_⟩
      intro w inside
      rcases List.mem_cons.mp inside with rfl | inside
      · exact below
      · exact rests w inside
    · rename_i after
      rw [if_neg after]
      obtain ⟨here, below, rests⟩ := ih first is others
      refine ⟨here, below, ?_⟩
      intro w inside
      rcases List.mem_cons.mp inside with rfl | inside
      · exact ranks.trans _ _ _ here is isV below told
      · exact rests w inside

theorem greatestFrom_spec (rest : List α) (first : α) (is : of_ first) (all : ∀ v ∈ rest, of_ v) :
    let greatest := rest.foldl (fun best v => if (cmp best v).getD .eq = .gt then best else v) first
    of_ greatest ∧ NotAfter cmp first greatest ∧ ∀ v ∈ rest, NotAfter cmp v greatest := by
  induction rest generalizing first with
  | nil => exact ⟨is, ranks.refl is, fun v inside => absurd inside List.not_mem_nil⟩
  | cons v rest ih =>
    have isV := all v List.mem_cons_self
    have others : ∀ w ∈ rest, of_ w := fun w inside => all w (List.mem_cons_of_mem v inside)
    have told := ranks.split is isV
    simp only [List.foldl_cons]
    split at told
    · rename_i after
      rw [if_pos after]
      obtain ⟨here, above, rests⟩ := ih first is others
      refine ⟨here, above, ?_⟩
      intro w inside
      rcases List.mem_cons.mp inside with rfl | inside
      · exact ranks.trans _ _ _ isV is here told above
      · exact rests w inside
    · rename_i after
      rw [if_neg after]
      obtain ⟨here, above, rests⟩ := ih v isV others
      refine ⟨here, ranks.trans _ _ _ is isV here told above, ?_⟩
      intro w inside
      rcases List.mem_cons.mp inside with rfl | inside
      · exact above
      · exact rests w inside

theorem leastOf_spec {values : List α} {least : α} (all : ∀ v ∈ values, of_ v)
    (found : leastOf cmp values = some least) :
    of_ least ∧ ∀ v ∈ values, NotAfter cmp least v := by
  cases values with
  | nil => cases found
  | cons first rest =>
    obtain ⟨is, below, others⟩ := leastFrom_spec ranks rest first (all first List.mem_cons_self)
      fun v inside => all v (List.mem_cons_of_mem first inside)
    rw [← Option.some.inj found]
    refine ⟨is, ?_⟩
    intro v inside
    rcases List.mem_cons.mp inside with rfl | inside
    · exact below
    · exact others v inside

theorem greatestOf_spec {values : List α} {greatest : α} (all : ∀ v ∈ values, of_ v)
    (found : greatestOf cmp values = some greatest) :
    of_ greatest ∧ ∀ v ∈ values, NotAfter cmp v greatest := by
  cases values with
  | nil => cases found
  | cons first rest =>
    obtain ⟨is, above, others⟩ := greatestFrom_spec ranks rest first (all first List.mem_cons_self)
      fun v inside => all v (List.mem_cons_of_mem first inside)
    rw [← Option.some.inj found]
    refine ⟨is, ?_⟩
    intro v inside
    rcases List.mem_cons.mp inside with rfl | inside
    · exact above
    · exact others v inside

end Least
