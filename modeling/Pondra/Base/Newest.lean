import Mathlib.Data.List.Nodup
import Mathlib.Data.List.Perm.Basic

set_option autoImplicit false

namespace Newest

variable {ρ κ : Type} [DecidableEq κ] (key : ρ → κ)

/-- Of versions listed oldest first, each key's last one. -/
def latest : List ρ → List ρ
  | [] => []
  | r :: rest => if key r ∈ rest.map key then latest rest else r :: latest rest

@[simp] theorem latest_nil : latest key [] = [] := rfl

theorem latest_cons (r : ρ) (rest : List ρ) :
    latest key (r :: rest) = if key r ∈ rest.map key then latest key rest
      else r :: latest key rest := rfl

theorem latest_sublist (versions : List ρ) : (latest key versions).Sublist versions := by
  induction versions with
  | nil => exact List.Sublist.refl _
  | cons r rest ih =>
    rw [latest_cons]
    split
    · exact ih.cons r
    · exact ih.cons_cons r

/-- A key has a latest version where it has a version. -/
theorem mem_keys_latest (versions : List ρ) (k : κ) :
    k ∈ (latest key versions).map key ↔ k ∈ versions.map key := by
  induction versions with
  | nil => rfl
  | cons r rest ih =>
    rw [latest_cons, List.map_cons, List.mem_cons]
    split
    · rename_i later
      rw [ih]
      exact ⟨.inr, fun either => either.elim (fun same => same ▸ later) id⟩
    · rw [List.map_cons, List.mem_cons, ih]

theorem latest_nodup (versions : List ρ) : ((latest key versions).map key).Nodup := by
  induction versions with
  | nil => exact List.nodup_nil
  | cons r rest ih =>
    rw [latest_cons]
    split
    · exact ih
    · rename_i none
      rw [List.map_cons, List.nodup_cons, mem_keys_latest]
      exact ⟨none, ih⟩

/-- Where each key has one version, all are the latest. -/
theorem latest_eq_self {versions : List ρ} (distinct : (versions.map key).Nodup) :
    latest key versions = versions := by
  induction versions with
  | nil => rfl
  | cons r rest ih =>
    rw [List.map_cons, List.nodup_cons] at distinct
    rw [latest_cons, if_neg distinct.1, ih distinct.2]

/-- Where versions of one key are the same, all are the latest. -/
theorem mem_latest_of_same {versions : List ρ}
    (same : ∀ a ∈ versions, ∀ b ∈ versions, key a = key b → a = b) (r : ρ) :
    r ∈ latest key versions ↔ r ∈ versions := by
  refine ⟨fun inside => (latest_sublist key versions).subset inside, fun inside => ?_⟩
  obtain ⟨last, found, eq⟩ :=
    List.mem_map.mp ((mem_keys_latest key versions (key r)).mpr (List.mem_map_of_mem inside))
  rwa [← same last ((latest_sublist key versions).subset found) r inside eq]

theorem latest_append (older newer : List ρ) :
    latest key (older ++ newer) =
      (latest key older).filter (fun r => decide (key r ∉ newer.map key)) ++ latest key newer := by
  induction older with
  | nil => rfl
  | cons r rest ih =>
    have inside : key r ∈ (rest ++ newer).map key ↔
        key r ∈ rest.map key ∨ key r ∈ newer.map key := by
      rw [List.map_append, List.mem_append]
    rw [List.cons_append, latest_cons, latest_cons, ih]
    by_cases later : key r ∈ rest.map key
    · rw [if_pos (inside.mpr (.inl later)), if_pos later]
    · by_cases newest : key r ∈ newer.map key
      · rw [if_pos (inside.mpr (.inr newest)), if_neg later,
          List.filter_cons_of_neg (by simpa using newest)]
      · rw [if_neg fun either => (inside.mp either).elim later newest, if_neg later,
          List.filter_cons_of_pos (by simpa using newest), List.cons_append]

end Newest
