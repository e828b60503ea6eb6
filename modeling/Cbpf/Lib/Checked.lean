import Cbpf.Lib.BoundedLoop

/-!
# Computations with checked accesses

A checked computation is the plain one in `Except ε`, where every array access and every assumption
is tested before use. It is worth having when it can be shown to answer `ok` with the plain result:
then no access of the plain computation is out of range. Arrays are lists; an access is checked once
as an lvalue (`index`) and the plain read or write follows.
-/

namespace Checked

open BoundedLoop

universe u v w

variable {ε : Type u} {α : Type v} {β : Type w}

/-- The element `a[i]` as an lvalue. -/
def index (fault : ε) (a : List α) (i : Nat) : Except ε Nat :=
  if i < a.length then .ok i else .error fault

/-- An assumption. -/
def require (fault : ε) (P : Prop) [Decidable P] : Except ε Unit :=
  if P then .ok () else .error fault

theorem index_ok {fault : ε} {a : List α} {i : Nat} (h : i < a.length) :
    index fault a i = .ok i := if_pos h

theorem require_ok {fault : ε} {P : Prop} [Decidable P] (h : P) : require fault P = .ok () :=
  if_pos h

@[simp] theorem ok_bind {γ : Type w} (a : γ) (f : γ → Except ε β) :
    ((Except.ok a : Except ε γ) >>= f) = f a := rfl

/-- A checked fold is the plain fold while an invariant of the state and the elements that are left
makes every pass answer `ok`. -/
theorem foldlM_eq_foldl {f : β → α → Except ε β} {g : β → α → β} (I : β → List α → Prop)
    (hpass : ∀ b a l, I b (a :: l) → f b a = .ok (g b a) ∧ I (g b a) l) {b : β} {l : List α}
    (h : I b l) : l.foldlM f b = .ok (l.foldl g b) := by
  induction l generalizing b with
  | nil => rfl
  | cons a l ih =>
    obtain ⟨hok, hnext⟩ := hpass b a l h
    rw [List.foldlM_cons, hok, ok_bind, List.foldl_cons]
    exact ih hnext

end Checked
