import Mathlib

/-!
# Strided areas

Slots of `size` bytes laid out `stride` bytes apart from `base` on. What lies between the end of a
slot and the next slot is padding.
-/

namespace Stride

/-- The bytes of slot `i`. -/
def slot (base stride size i : Nat) : Set Nat :=
  Set.Ico (base + stride * i) (base + stride * i + size)

/-- The bytes between the end of slot `i` and slot `i + 1`. -/
def padding (base stride size i : Nat) : Set Nat :=
  Set.Ico (base + stride * i + size) (base + stride * (i + 1))

/-- The next slot starts one stride further. -/
theorem stride_mul_succ_le (stride : Nat) {i j : Nat} (h : i < j) :
    stride * i + stride ≤ stride * j := by
  calc stride * i + stride = stride * (i + 1) := (Nat.mul_succ stride i).symm
    _ ≤ stride * j := Nat.mul_le_mul_left stride h

/-- No slot meets any padding, its own included. -/
theorem slot_disjoint_padding (base stride size i j : Nat) :
    Disjoint (slot base stride size i) (padding base stride size j) := by
  rw [slot, padding, Set.Ico_disjoint_Ico]
  rcases Nat.lt_or_ge j i with hlt | hge
  · have : stride * (j + 1) ≤ stride * i := Nat.mul_le_mul_left stride hlt
    omega
  · have : stride * i ≤ stride * j := Nat.mul_le_mul_left stride hge
    omega

section Fits

variable (base : Nat) {stride size : Nat} (hs : size ≤ stride)
include hs

/-- Slot `i` ends where slot `j` starts, or before, when `i < j`. -/
theorem slot_end_le {i j : Nat} (h : i < j) :
    base + stride * i + size ≤ base + stride * j := by
  have := stride_mul_succ_le stride h
  omega

theorem slot_disjoint_slot {i j : Nat} (h : i ≠ j) :
    Disjoint (slot base stride size i) (slot base stride size j) := by
  rw [slot, slot, Set.Ico_disjoint_Ico]
  rcases Nat.lt_or_gt_of_ne h with hlt | hgt
  · have := slot_end_le base hs hlt
    omega
  · have := slot_end_le base hs hgt
    omega

end Fits

/-- What lies before `base` meets no slot. -/
theorem before_disjoint_slot (start base stride size i : Nat) :
    Disjoint (Set.Ico start base) (slot base stride size i) := by
  rw [slot, Set.Ico_disjoint_Ico]
  omega

end Stride
