import Mathlib.Logic.Equiv.Defs
import Mathlib.Data.List.Basic

/-!
# Renaming the positions of a list

A permutation of `Fin k` renames the positions of the lists of length `k` and leaves every other
number alone. `Renamed σ l l'` says that `l'` is `l` with its positions renamed; reads and writes
at renamed positions keep it.
-/

namespace Renaming

variable {k : Nat} {α : Type*}

/-- The name of position `i`; a number that is no position keeps its name. -/
def rename (σ : Equiv.Perm (Fin k)) (i : Nat) : Nat := if h : i < k then σ ⟨i, h⟩ else i

theorem rename_of_lt (σ : Equiv.Perm (Fin k)) {i : Nat} (h : i < k) :
    rename σ i = σ ⟨i, h⟩ := dif_pos h

theorem rename_of_le (σ : Equiv.Perm (Fin k)) {i : Nat} (h : k ≤ i) : rename σ i = i :=
  dif_neg (Nat.not_lt.mpr h)

@[simp] theorem rename_lt_iff (σ : Equiv.Perm (Fin k)) (i : Nat) : rename σ i < k ↔ i < k := by
  by_cases h : i < k
  · rw [rename_of_lt σ h]
    exact iff_of_true (σ ⟨i, h⟩).isLt h
  · rw [rename_of_le σ (Nat.not_lt.mp h)]

@[simp] theorem le_rename_iff (σ : Equiv.Perm (Fin k)) (i : Nat) : k ≤ rename σ i ↔ k ≤ i := by
  rw [← Nat.not_lt, rename_lt_iff, Nat.not_lt]

/-- Two numbers have one name only when they are equal. -/
theorem rename_inj (σ : Equiv.Perm (Fin k)) {i j : Nat} : rename σ i = rename σ j ↔ i = j := by
  refine ⟨?_, congrArg (rename σ)⟩
  intro heq
  by_cases hi : i < k
  · have hj : j < k := (rename_lt_iff σ j).mp (heq ▸ (rename_lt_iff σ i).mpr hi)
    rw [rename_of_lt σ hi, rename_of_lt σ hj] at heq
    exact congrArg Fin.val (σ.injective (Fin.ext heq))
  · have hj : k ≤ j := (le_rename_iff σ j).mp (heq ▸ (le_rename_iff σ i).mpr (Nat.not_lt.mp hi))
    rwa [rename_of_le σ (Nat.not_lt.mp hi), rename_of_le σ hj] at heq

/-- `l'` holds at the name of each position what `l` holds at the position. -/
structure Renamed (σ : Equiv.Perm (Fin k)) (l l' : List α) : Prop where
  length_left : l.length = k
  length_right : l'.length = k
  getElem? : ∀ i, l'[rename σ i]? = l[i]?

variable {σ : Equiv.Perm (Fin k)} {l l' : List α}

theorem Renamed.replicate (σ : Equiv.Perm (Fin k)) (a : α) :
    Renamed σ (List.replicate k a) (List.replicate k a) where
  length_left := List.length_replicate
  length_right := List.length_replicate
  getElem? := by
    intro i
    simp [List.getElem?_replicate]

/-- A read with a default. -/
theorem Renamed.getD (h : Renamed σ l l') (i : Nat) (d : α) :
    l'.getD (rename σ i) d = l.getD i d := by
  rw [List.getD_eq_getElem?_getD, List.getD_eq_getElem?_getD, h.getElem? i]

/-- A write of one value on both sides. -/
theorem Renamed.set (h : Renamed σ l l') (i : Nat) (a : α) :
    Renamed σ (l.set i a) (l'.set (rename σ i) a) where
  length_left := by rw [List.length_set, h.length_left]
  length_right := by rw [List.length_set, h.length_right]
  getElem? := by
    intro j
    by_cases hij : i = j
    · subst hij
      rw [List.getElem?_set_self', List.getElem?_set_self', h.getElem? i]
    · have hne : rename σ i ≠ rename σ j := fun heq => hij ((rename_inj σ).mp heq)
      rw [List.getElem?_set_ne hne, List.getElem?_set_ne hij, h.getElem? j]

end Renaming
