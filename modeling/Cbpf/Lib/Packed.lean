import Mathlib.Data.List.Basic

/-!
# Records of a fixed width in a list of words

`l.flatMap f` packs the records of `l`, each as the `w` words that `f` gives it; a word is found by
the number of its record and its place in it. A `Cursor` writes words one after the other into a
buffer, and has no result once it would leave the buffer.
-/

namespace Packed

variable {α β : Type*} {f : α → List β} {w : Nat}

theorem length_flatMap (hw : ∀ a, (f a).length = w) (l : List α) :
    (l.flatMap f).length = w * l.length := by
  induction l with
  | nil => rfl
  | cons a l ih =>
    rw [List.flatMap_cons, List.length_append, hw, ih, List.length_cons, Nat.mul_succ, Nat.add_comm]

/-- Word `j` of record `i`. -/
theorem getElem?_flatMap (hw : ∀ a, (f a).length = w) (l : List α) (i : Nat) {j : Nat} (hj : j < w) :
    (l.flatMap f)[w * i + j]? = l[i]?.bind fun a => (f a)[j]? := by
  induction l generalizing i with
  | nil => rfl
  | cons a l ih =>
    rw [List.flatMap_cons]
    cases i with
    | zero =>
      rw [Nat.mul_zero, Nat.zero_add, List.getElem?_append_left (by rw [hw]; exact hj)]
      rfl
    | succ i =>
      have hle : (f a).length ≤ w * (i + 1) + j := by
        rw [hw, Nat.mul_succ]
        omega
      rw [List.getElem?_append_right hle, hw, List.getElem?_cons_succ, ← ih i, Nat.mul_succ]
      congr 1
      omega

/-- A buffer and the number of its words that are written. -/
structure Cursor (β : Type*) where
  buffer : List β
  used : Nat

/-- `buffer[used++] = b`; `none` is a write outside the buffer. -/
def Cursor.put (c : Cursor β) (b : β) : Option (Cursor β) :=
  if c.used < c.buffer.length then some ⟨c.buffer.set c.used b, c.used + 1⟩ else none

/-- The words `ws`, one after the other. -/
def Cursor.putAll (c : Cursor β) : List β → Option (Cursor β)
  | [] => some c
  | b :: ws => (c.put b).bind fun c => c.putAll ws

/-- Words that fit are written behind the earlier ones, and the rest of the buffer is kept. -/
theorem Cursor.putAll_eq (c : Cursor β) (ws : List β) (h : c.used + ws.length ≤ c.buffer.length) :
    c.putAll ws = some ⟨c.buffer.take c.used ++ ws ++ c.buffer.drop (c.used + ws.length),
      c.used + ws.length⟩ := by
  induction ws generalizing c with
  | nil =>
    obtain ⟨buffer, used⟩ := c
    simp [Cursor.putAll]
  | cons b ws ih =>
    rw [List.length_cons] at h
    have hroom : c.used < c.buffer.length := by omega
    rw [Cursor.putAll, Cursor.put, if_pos hroom, Option.bind_some, ih _ (by
      rw [List.length_set]
      change c.used + 1 + ws.length ≤ c.buffer.length
      omega)]
    have htake : (c.buffer.set c.used b).take (c.used + 1) = c.buffer.take c.used ++ [b] := by
      rw [List.take_add_one, List.getElem?_set_self hroom, List.take_set_of_le (Nat.le_refl _)]
      rfl
    have hlength : c.used + 1 + ws.length = c.used + (b :: ws).length := by
      rw [List.length_cons]
      omega
    have hdrop : (c.buffer.set c.used b).drop (c.used + (b :: ws).length) =
        c.buffer.drop (c.used + (b :: ws).length) := List.drop_set_of_lt (by omega)
    simp only [htake, hlength, hdrop, List.append_assoc, List.singleton_append]

end Packed
