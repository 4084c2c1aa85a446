set_option autoImplicit false

/- A function that may fail, over each item of a list. -/
namespace Traverse

variable {α β : Type} {f : α → Option β} {xs : List α}

theorem mapM_congr {g : α → Option β} (same : ∀ x ∈ xs, f x = g x) : xs.mapM f = xs.mapM g := by
  induction xs with
  | nil => rfl
  | cons x rest ih =>
    rw [List.mapM_cons, List.mapM_cons, same x List.mem_cons_self,
      ih fun y inside => same y (List.mem_cons_of_mem x inside)]

theorem mapM_some {g : α → β} (each : ∀ x ∈ xs, f x = some (g x)) : xs.mapM f = some (xs.map g) := by
  induction xs with
  | nil => rfl
  | cons x rest ih =>
    rw [List.mapM_cons, each x List.mem_cons_self, ih fun y inside => each y (List.mem_cons_of_mem x inside)]
    rfl

theorem mapM_exists (each : ∀ x ∈ xs, ∃ y, f x = some y) : ∃ ys, xs.mapM f = some ys := by
  induction xs with
  | nil => exact ⟨[], rfl⟩
  | cons x rest ih =>
    obtain ⟨y, one⟩ := each x List.mem_cons_self
    obtain ⟨ys, others⟩ := ih fun z inside => each z (List.mem_cons_of_mem x inside)
    exact ⟨y :: ys, by rw [List.mapM_cons, one, others]; rfl⟩

theorem mapM_eq {g : α → β} {ys : List β} (each : ∀ x ∈ xs, ∀ y, f x = some y → y = g x)
    (done : xs.mapM f = some ys) : ys = xs.map g := by
  induction xs generalizing ys with
  | nil => exact (Option.some.inj done).symm
  | cons x rest ih =>
    rw [List.mapM_cons] at done
    obtain ⟨y, one, done⟩ := Option.bind_eq_some_iff.mp done
    obtain ⟨others, more, same⟩ := Option.bind_eq_some_iff.mp done
    rw [← Option.some.inj same, each x List.mem_cons_self y one,
      ih (fun z inside => each z (List.mem_cons_of_mem x inside)) more]
    rfl

/-- One item it fails on fails the list. -/
theorem mapM_each {ys : List β} (done : xs.mapM f = some ys) : ∀ x ∈ xs, (f x).isSome := by
  induction xs generalizing ys with
  | nil => exact fun _ no => (List.not_mem_nil no).elim
  | cons x rest ih =>
    rw [List.mapM_cons] at done
    obtain ⟨y, one, done⟩ := Option.bind_eq_some_iff.mp done
    obtain ⟨others, more, _⟩ := Option.bind_eq_some_iff.mp done
    intro z inside
    rcases List.mem_cons.mp inside with rfl | inside
    · exact Option.isSome_of_mem one
    · exact ih more z inside

end Traverse
