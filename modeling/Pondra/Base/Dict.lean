import Mathlib.Data.List.AList
import Mathlib.Data.List.Sort
import Mathlib.Order.Defs.LinearOrder

set_option autoImplicit false

namespace Dicts

/-- A map with at most one value a key. -/
abbrev Dict (κ ν : Type) := AList fun _ : κ => ν

variable {κ ν : Type}

theorem mem_of_lookup [BEq κ] [LawfulBEq κ] (key : κ) (entries : List (κ × ν)) (value : ν)
    (found : entries.lookup key = some value) : (key, value) ∈ entries := by
  obtain ⟨before, after, rfl, _⟩ := List.lookup_eq_some_iff.mp found
  exact List.mem_append_right _ List.mem_cons_self

section values

variable [DecidableEq κ]

/-- The map without some keys. -/
def without (dict : Dict κ ν) (keys : List κ) : Dict κ ν :=
  keys.foldl (fun dict key => dict.erase key) dict

theorem lookup_without (dict : Dict κ ν) (keys : List κ) (key : κ) :
    (without dict keys).lookup key = if key ∈ keys then none else dict.lookup key := by
  induction keys generalizing dict with
  | nil => rfl
  | cons first rest ih =>
    rw [without, List.foldl_cons]
    show (without (dict.erase first) rest).lookup key = _
    rw [ih]
    by_cases same : key = first
    · subst same
      simp [AList.lookup_erase]
    · rw [AList.lookup_erase_ne same]
      simp [same]

theorem lookup_union (newer older : Dict κ ν) (key : κ) :
    (newer ∪ older).lookup key = (newer.lookup key).or (older.lookup key) := by
  by_cases inside : key ∈ newer
  · obtain ⟨value, found⟩ := Option.isSome_iff_exists.mp (AList.lookup_isSome.mpr inside)
    rw [AList.lookup_union_left inside, found, Option.some_or]
  · rw [AList.lookup_union_right inside, AList.lookup_eq_none.mpr inside, Option.none_or]

theorem lookup_insert_eq (dict : Dict κ ν) (key other : κ) (value : ν) :
    (dict.insert other value).lookup key = if key = other then some value else dict.lookup key := by
  by_cases same : key = other
  · subst same
    rw [if_pos rfl, AList.lookup_insert]
  · rw [if_neg same, AList.lookup_insert_ne same]

end values

/-! ### A bounded look at a range -/

section scans

variable [LinearOrder κ]

/-- The first `n` entries in a range, in key order. -/
def scanFirst (dict : Dict κ ν) (within : κ → Bool) (n : Nat) : List (Σ _ : κ, ν) :=
  ((dict.entries.filter fun entry => within entry.1).insertionSort fun a b => a.1 ≤ b.1).take n

theorem scanFirst_mem (dict : Dict κ ν) (within : κ → Bool) (n : Nat) (entry : Σ _ : κ, ν)
    (inside : entry ∈ scanFirst dict within n) :
    dict.lookup entry.1 = some entry.2 ∧ within entry.1 = true := by
  have sorted := List.mem_of_mem_take inside
  rw [List.mem_insertionSort, List.mem_filter] at sorted
  exact ⟨AList.mem_lookup_iff.mpr sorted.1, sorted.2⟩

/-- What a look at a range leaves out comes after what it took, which is then as much as it may. -/
theorem scanFirst_rest (dict : Dict κ ν) (within : κ → Bool) (n : Nat) (key : κ) (value : ν)
    (held : dict.lookup key = some value) (ranged : within key = true)
    (out : (⟨key, value⟩ : Σ _ : κ, ν) ∉ scanFirst dict within n) :
    (scanFirst dict within n).length = n ∧ ∀ entry ∈ scanFirst dict within n, entry.1 ≤ key := by
  let all := (dict.entries.filter fun entry => within entry.1).insertionSort
    fun a b : (Σ _ : κ, ν) => a.1 ≤ b.1
  have found : (⟨key, value⟩ : Σ _ : κ, ν) ∈ all := by
    rw [List.mem_insertionSort, List.mem_filter]
    exact ⟨AList.mem_lookup_iff.mp held, ranged⟩
  have ordered : all.Pairwise fun a b => a.1 ≤ b.1 := by
    have : Std.Total fun a b : (Σ _ : κ, ν) => a.1 ≤ b.1 := ⟨fun a b => le_total a.1 b.1⟩
    have : IsTrans (Σ _ : κ, ν) fun a b => a.1 ≤ b.1 := ⟨fun a b c => le_trans⟩
    exact List.pairwise_insertionSort _ _
  have beyond : (⟨key, value⟩ : Σ _ : κ, ν) ∈ all.drop n := by
    rw [← List.take_append_drop n all, List.mem_append] at found
    exact found.resolve_left out
  rw [← List.take_append_drop n all, List.pairwise_append] at ordered
  refine ⟨?_, fun entry inside => ordered.2.2 entry inside _ beyond⟩
  have room := List.length_pos_of_mem beyond
  rw [List.length_drop] at room
  show (all.take n).length = n
  rw [List.length_take]
  omega

end scans

end Dicts
