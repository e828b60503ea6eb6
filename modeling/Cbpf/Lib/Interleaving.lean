import Mathlib

/-!
# Components that interleave over one shared state

Each component has a local state and a step relation on the shared state and its own local state. A
step of the whole moves one component. Invariants are proved on one step of one component; a value
of the shared state that every step changes by as much as a weight of the local state is the start
value plus the sum of the weights, in any order of steps.
-/

namespace Interleaving

universe u v w

/-- The shared state and one local state for each component. -/
structure State (ι : Type u) (S : Type v) (L : Type w) where
  shared : S
  locals : ι → L

variable {ι : Type u} {S : Type v} {L : Type w} [DecidableEq ι]

/-- Component `i` moves. -/
def Step (step : S → L → S → L → Prop) (i : ι) (σ τ : State ι S L) : Prop :=
  ∃ l, step σ.shared (σ.locals i) τ.shared l ∧ τ.locals = Function.update σ.locals i l

/-- Reached from `σ` by steps of any components in any order. -/
def Reachable (step : S → L → S → L → Prop) (σ τ : State ι S L) : Prop :=
  Relation.ReflTransGen (fun a b => ∃ i, Step step i a b) σ τ

variable {step : S → L → S → L → Prop} {σ τ : State ι S L}

theorem Step.locals_of_ne {i j : ι} (h : Step step i σ τ) (hj : j ≠ i) :
    τ.locals j = σ.locals j := by
  obtain ⟨l, _, hl⟩ := h
  rw [hl, Function.update_of_ne hj]

/-- One more step, of component `i` from its local state `l`. -/
theorem Reachable.move (h : Reachable step σ τ) (i : ι) {l l' : L} {s' : S}
    (hl : τ.locals i = l) (hs : step τ.shared l s' l') :
    Reachable step σ ⟨s', Function.update τ.locals i l'⟩ :=
  .tail h ⟨i, l', hl ▸ hs, rfl⟩

/-- An invariant of the shared state and of every local state. -/
theorem Reachable.invariant {J : S → Prop} {I : L → Prop} (h : Reachable step σ τ)
    (hJ : J σ.shared) (hI : ∀ i, I (σ.locals i))
    (hstep : ∀ s l s' l', J s → I l → step s l s' l' → J s' ∧ I l') :
    J τ.shared ∧ ∀ i, I (τ.locals i) := by
  induction h with
  | refl => exact ⟨hJ, hI⟩
  | tail _ hmove ih =>
    obtain ⟨i, l, hs, hl⟩ := hmove
    obtain ⟨hJ', hI'⟩ := ih
    obtain ⟨hshared, hlocal⟩ := hstep _ _ _ _ hJ' (hI' i) hs
    refine ⟨hshared, fun j => ?_⟩
    rw [hl]
    by_cases hj : j = i
    · subst hj
      rwa [Function.update_self]
    · rw [Function.update_of_ne hj]
      exact hI' j

theorem sum_update [Fintype ι] (f : L → Int) (locals : ι → L) (i : ι) (l : L) :
    ∑ j, f (Function.update locals i l j) = ∑ j, f (locals j) + (f l - f (locals i)) := by
  have hsplit := Finset.add_sum_erase Finset.univ (fun j => f (Function.update locals i l j))
    (Finset.mem_univ i)
  have hsplit' := Finset.add_sum_erase Finset.univ (fun j => f (locals j)) (Finset.mem_univ i)
  have hrest : ∑ j ∈ Finset.univ.erase i, f (Function.update locals i l j) =
      ∑ j ∈ Finset.univ.erase i, f (locals j) :=
    Finset.sum_congr rfl fun j hj => by rw [Function.update_of_ne (Finset.ne_of_mem_erase hj)]
  simp only [Function.update_self] at hsplit
  omega

/-- The balance law: the shared value is what it was at the start plus the weights of all
components. -/
theorem Reachable.balance [Fintype ι] {J : S → Prop} {I : L → Prop} (h : Reachable step σ τ)
    (value : S → Int) (weight : L → Int) (hJ : J σ.shared) (hI : ∀ i, I (σ.locals i))
    (hstep : ∀ s l s' l', J s → I l → step s l s' l' →
      (J s' ∧ I l') ∧ value s' = value s + (weight l' - weight l)) :
    value τ.shared = value σ.shared - ∑ i, weight (σ.locals i) + ∑ i, weight (τ.locals i) := by
  induction h with
  | refl => omega
  | tail hrun hmove ih =>
    obtain ⟨hJ', hI'⟩ := Reachable.invariant hrun hJ hI fun s l s' l' a b c => (hstep s l s' l' a b c).1
    obtain ⟨i, l, hs, hl⟩ := hmove
    have hvalue := (hstep _ _ _ _ hJ' (hI' i) hs).2
    rw [hl, sum_update]
    omega

end Interleaving
