import Mathlib.Data.List.Sort
import Mathlib.Order.MinMax

set_option autoImplicit false

/-! Values picked by their rank. -/

namespace Selection

variable {α : Type} [LinearOrder α]

def sorted (l : List α) : List α := l.insertionSort (· ≤ ·)

/-- The value of rank `k`, with those before it and those after it. -/
def selectNth (l : List α) (k : Nat) : Option (List α × α × List α) :=
  (sorted l)[k]?.map fun mid => ((sorted l).take k, mid, (sorted l).drop (k + 1))

def greatest : List α → Option α
  | [] => none
  | a :: rest => some (rest.foldl max a)

theorem sorted_pairwise (l : List α) : (sorted l).Pairwise (· ≤ ·) :=
  List.sortedLE_insertionSort.pairwise

theorem sorted_perm (l : List α) : (sorted l).Perm l := List.perm_insertionSort _ l

@[simp] theorem length_sorted (l : List α) : (sorted l).length = l.length := List.length_insertionSort _ l

theorem mem_sorted (l : List α) (a : α) : a ∈ sorted l ↔ a ∈ l := (sorted_perm l).mem_iff

/-- Lists of the same values, in any order, sort alike. -/
theorem sorted_congr {l l' : List α} (perm : l.Perm l') : sorted l = sorted l' :=
  List.Perm.eq_of_sortedLE List.sortedLE_insertionSort List.sortedLE_insertionSort
    ((sorted_perm l).trans (perm.trans (sorted_perm l').symm))

/-- Values in two parts, none of the first above one of the second, sort part by part. -/
theorem sorted_append {low high : List α} (apart : ∀ a ∈ low, ∀ b ∈ high, a ≤ b) :
    sorted (low ++ high) = sorted low ++ sorted high := by
  apply List.Perm.eq_of_pairwise (fun _ _ _ _ => le_antisymm) (sorted_pairwise _)
  · apply List.pairwise_append.mpr
    refine ⟨sorted_pairwise low, sorted_pairwise high, ?_⟩
    intro a first b second
    exact apart a ((mem_sorted low a).mp first) b ((mem_sorted high b).mp second)
  · exact (sorted_perm _).trans ((sorted_perm low).symm.append (sorted_perm high).symm)

theorem foldl_max (l : List α) (a : α) : (∀ b ∈ a :: l, b ≤ l.foldl max a) ∧ l.foldl max a ∈ a :: l := by
  induction l generalizing a with
  | nil =>
    refine ⟨fun b inside => ?_, List.mem_singleton_self a⟩
    rw [List.mem_singleton.mp inside]
    exact le_refl a
  | cons c rest ih =>
    obtain ⟨above, inside⟩ := ih (max a c)
    rw [List.foldl_cons]
    constructor
    · intro b listed
      have top := above (max a c) List.mem_cons_self
      rcases List.mem_cons.mp listed with rfl | more
      · exact le_trans (le_max_left b c) top
      · rcases List.mem_cons.mp more with rfl | more
        · exact le_trans (le_max_right a b) top
        · exact above b (List.mem_cons_of_mem _ more)
    · rcases List.mem_cons.mp inside with is | more
      · rw [is]
        rcases max_choice a c with first | second
        · rw [first]
          exact List.mem_cons_self
        · rw [second]
          exact List.mem_cons_of_mem _ List.mem_cons_self
      · exact List.mem_cons_of_mem _ (List.mem_cons_of_mem _ more)

/-- The greatest of the values before rank `k` is the one of the rank before. -/
theorem greatest_take (l : List α) (k : Nat) (inside : k < l.length) :
    greatest ((sorted l).take (k + 1)) = (sorted l)[k]? := by
  have order := sorted_pairwise l
  have length := length_sorted l
  generalize sorted l = s at order length
  have within : k < s.length := by omega
  rw [List.getElem?_eq_getElem within]
  cases is : s.take (k + 1) with
  | nil =>
    have none_ := congrArg List.length is
    rw [List.length_take, List.length_nil] at none_
    omega
  | cons a rest =>
    obtain ⟨above, found⟩ := foldl_max rest a
    rw [← is] at above found
    rw [greatest]
    congr 1
    obtain ⟨i, small, here⟩ := List.mem_take_iff_getElem.mp found
    have last : s[k] ∈ s.take (k + 1) :=
      List.mem_take_iff_getElem.mpr ⟨k, by omega, rfl⟩
    apply le_antisymm
    · rw [← here]
      rcases Nat.lt_or_ge i k with before | same
      · exact List.pairwise_iff_getElem.mp order i k (by omega) within before
      · obtain rfl : i = k := by omega
        exact le_refl _
    · exact above _ last

end Selection
