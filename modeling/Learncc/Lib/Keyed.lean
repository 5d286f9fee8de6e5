/-
Tables with a unique key, as lists of rows. An `INSERT IGNORE` leaves a row out whose key is
there already, so the first insertion of a key is the one that is found afterwards
(`find?_insertAll`).
-/
import Mathlib.Data.List.Nodup

namespace Keyed

variable {ρ κ : Type*} [DecidableEq κ] {key : ρ → κ} {table rows : List ρ} {row : ρ} {k : κ}

/-- The row with the key. -/
def find? (key : ρ → κ) (table : List ρ) (k : κ) : Option ρ := table.find? fun row => key row = k

def insertIgnore (key : ρ → κ) (table : List ρ) (row : ρ) : List ρ :=
  if (find? key table (key row)).isSome then table else table ++ [row]

def insertAll (key : ρ → κ) (table rows : List ρ) : List ρ := rows.foldl (insertIgnore key) table

theorem find?_cons (row : ρ) (rows : List ρ) (k : κ) :
    find? key (row :: rows) k = if key row = k then some row else find? key rows k := by
  rw [find?, List.find?_cons]
  by_cases hk : key row = k
  · rw [decide_eq_true hk, if_pos hk]
  · rw [decide_eq_false hk, if_neg hk]
    rfl

theorem find?_append (table rows : List ρ) (k : κ) :
    find? key (table ++ rows) k = (find? key table k).or (find? key rows k) := List.find?_append

theorem find?_eq_some (h : find? key table k = some row) : row ∈ table ∧ key row = k :=
  ⟨List.mem_of_find?_eq_some h, of_decide_eq_true (List.find?_some (p := fun row => key row = k) h)⟩

theorem find?_eq_none_iff : find? key table k = none ↔ k ∉ table.map key := by
  simp only [find?, List.find?_eq_none, decide_eq_true_eq, List.mem_map, not_exists, not_and]

/-- An insertion shows only where there was no row. -/
theorem find?_insertIgnore (table : List ρ) (row : ρ) (k : κ) :
    find? key (insertIgnore key table row) k = (find? key table k).or (find? key [row] k) := by
  rw [insertIgnore]
  split
  · rename_i hsome
    by_cases hk : key row = k
    · obtain ⟨old, hold⟩ := Option.isSome_iff_exists.1 hsome
      rw [← hk, hold]
      rfl
    · rw [find?_cons, if_neg hk]
      exact Option.or_none.symm
  · exact find?_append table [row] k

/-- **The first insertion of a key stays.** -/
theorem find?_insertAll (table rows : List ρ) (k : κ) :
    find? key (insertAll key table rows) k = (find? key table k).or (find? key rows k) := by
  induction rows generalizing table with
  | nil => exact Option.or_none.symm
  | cons row rows ih =>
    rw [← List.singleton_append, find?_append, ← Option.or_assoc, ← find?_insertIgnore]
    exact ih (insertIgnore key table row)

theorem nodup_insertIgnore (h : (table.map key).Nodup) : ((insertIgnore key table row).map key).Nodup := by
  rw [insertIgnore]
  split
  · exact h
  · rename_i hnone
    rw [Option.not_isSome_iff_eq_none, find?_eq_none_iff] at hnone
    rw [List.map_append, List.map_singleton, List.nodup_append_comm, List.singleton_append, List.nodup_cons]
    exact ⟨hnone, h⟩

/-- The key stays unique. -/
theorem nodup_insertAll (h : (table.map key).Nodup) : ((insertAll key table rows).map key).Nodup := by
  induction rows generalizing table with
  | nil => exact h
  | cons row rows ih => exact ih (nodup_insertIgnore h)

/-- Where the key is unique, a row is the one that is found under its key. -/
theorem mem_iff_find? (h : (table.map key).Nodup) : row ∈ table ↔ find? key table (key row) = some row := by
  constructor
  · intro hrow
    cases hfind : find? key table (key row) with
    | none => exact absurd (List.mem_map_of_mem hrow) (find?_eq_none_iff.1 hfind)
    | some other =>
      obtain ⟨hother, hkey⟩ := find?_eq_some hfind
      rw [List.inj_on_of_nodup_map h hother hrow hkey]
  · intro hfind
    exact (find?_eq_some hfind).1

end Keyed
