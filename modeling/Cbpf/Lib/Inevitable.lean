import Mathlib.Logic.Relation

/-!
# What every run comes to

Total correctness for transition systems whose states may have several successors. A set of states is
inevitable when a run can neither go on forever without meeting it nor get stuck before.
-/

/-- Every run from a state comes to `Q`. -/
inductive Inevitable {σ : Type} (step : σ → σ → Prop) (Q : σ → Prop) : σ → Prop
  | here {s : σ} : Q s → Inevitable step Q s
  | next {s : σ} : (∃ s', step s s') → (∀ s', step s s' → Inevitable step Q s') →
      Inevitable step Q s

namespace Inevitable

variable {σ : Type} {step : σ → σ → Prop} {Q R : σ → Prop} {s s' : σ}

/-- Runs to `Q` and from there to `R`. -/
theorem trans (h : Inevitable step Q s) (hQ : ∀ t, Q t → Inevitable step R t) :
    Inevitable step R s := by
  induction h with
  | here h => exact hQ _ h
  | next hmoves _ ih => exact .next hmoves ih

theorem mono (h : Inevitable step Q s) (hQ : ∀ t, Q t → R t) : Inevitable step R s :=
  h.trans fun t ht => .here (hQ t ht)

/-- A state with one successor. -/
theorem of_only (hstep : step s s') (honly : ∀ t, step s t → t = s') (h : Inevitable step Q s') :
    Inevitable step Q s := by
  refine .next ⟨s', hstep⟩ fun t ht => ?_
  rw [honly t ht]
  exact h

/-- The rule for loops: `I n` is the invariant with `n` as the bound on what is left to do. -/
theorem loop {I : Nat → σ → Prop}
    (h : ∀ n s, I n s → Inevitable step (fun t => Q t ∨ ∃ m < n, I m t) s) {n : Nat} (hs : I n s) :
    Inevitable step Q s := by
  induction n using Nat.strongRecOn generalizing s with
  | ind n ih =>
    refine (h n s hs).trans fun t ht => ?_
    rcases ht with ht | ⟨m, hm, ht⟩
    · exact .here ht
    · exact ih m hm ht

end Inevitable
