import Cbpf.Lib.Interleaving

/-!
# Components that do not notice each other

Labelled steps of components over one shared state. When a component cannot tell the shared state that
the others leave from the one that it left itself, a sequence of labels is possible for all components
together exactly when the labels of each are possible for it alone.
-/

namespace Interleaving

universe u v w x

variable {ι : Type u} {S : Type v} {L : Type w} {E : Type x}

/-- `es` are the labels of a run of one component from `s` and `l`. -/
inductive Alone (step : E → S → L → S → L → Prop) : S → L → List E → Prop
  | nil (s : S) (l : L) : Alone step s l []
  | cons {e : E} {es : List E} {s t : S} {l m : L} : step e s l t m → Alone step t m es →
      Alone step s l (e :: es)

/-- `es` are the labels of a run of all components from `σ`, each with the component that moves. -/
inductive Together [DecidableEq ι] (step : E → S → L → S → L → Prop) :
    State ι S L → List (ι × E) → Prop
  | nil (σ : State ι S L) : Together step σ []
  | cons {i : ι} {e : E} {es : List (ι × E)} {σ : State ι S L} {t : S} {m : L} :
      step e σ.shared (σ.locals i) t m →
      Together step ⟨t, Function.update σ.locals i m⟩ es → Together step σ ((i, e) :: es)

/-- The labels of component `i`. -/
def project [DecidableEq ι] (i : ι) (es : List (ι × E)) : List E :=
  es.filterMap fun e => if e.1 = i then some e.2 else none

/-- What a component cannot tell apart: it can do the same on either side, and no step of another
component shows. -/
structure Indistinguishable (step : E → S → L → S → L → Prop) (R : S → L → S → L → Prop) : Prop where
  refl : ∀ s l, R s l s l
  symm : ∀ s l s' l', R s l s' l' → R s' l' s l
  own : ∀ e s l s' l' t m, R s l s' l' → step e s l t m → ∃ t' m', step e s' l' t' m' ∧ R t m t' m'
  other : ∀ e s l s' l' k t m, R s l s' l' → step e s k t m → R t l s' l'

section Projection

variable [DecidableEq ι] {step : E → S → L → S → L → Prop} {R : S → L → S → L → Prop}
  {σ : State ι S L} {i j : ι} {e : E} {es : List (ι × E)}

theorem project_cons_self : project i ((i, e) :: es) = e :: project i es := by
  simp [project]

theorem project_cons_of_ne (h : i ≠ j) : project j ((i, e) :: es) = project j es := by
  simp [project, h]

/-- Every component's part of a run is a run of its own. -/
theorem alone_of_together (hR : Indistinguishable step R) (h : Together step σ es) {s : S} {l : L}
    (hs : R σ.shared (σ.locals j) s l) : Alone step s l (project j es) := by
  induction h generalizing s l with
  | nil => exact .nil s l
  | @cons i e es σ t m hstep _ ih =>
    by_cases hij : i = j
    · subst hij
      rw [project_cons_self]
      obtain ⟨t', m', hstep', hrest⟩ := hR.own e _ _ s l t m hs hstep
      refine .cons hstep' (ih ?_)
      dsimp only
      rw [Function.update_self]
      exact hrest
    · rw [project_cons_of_ne hij]
      apply ih
      dsimp only
      rw [Function.update_of_ne (Ne.symm hij)]
      exact hR.other e _ _ s l _ t m hs hstep

/-- Runs of the components, merged in any order. -/
theorem together_of_alone (hR : Indistinguishable step R) (es : List (ι × E))
    (h : ∀ j, ∃ s l, R s l σ.shared (σ.locals j) ∧ Alone step s l (project j es)) :
    Together step σ es := by
  induction es generalizing σ with
  | nil => exact .nil σ
  | cons head es ih =>
    obtain ⟨i, e⟩ := head
    obtain ⟨s, l, hs, halone⟩ := h i
    rw [project_cons_self] at halone
    cases halone with
    | @cons _ _ _ t _ m hstep hrest =>
      obtain ⟨t', m', hstep', hnext⟩ := hR.own e s l _ _ t m hs hstep
      refine .cons hstep' (ih fun j => ?_)
      by_cases hij : i = j
      · subst hij
        refine ⟨t, m, ?_, hrest⟩
        dsimp only
        rw [Function.update_self]
        exact hnext
      · obtain ⟨s', l', hs', halone'⟩ := h j
        rw [project_cons_of_ne hij] at halone'
        refine ⟨s', l', ?_, halone'⟩
        dsimp only
        rw [Function.update_of_ne (Ne.symm hij)]
        have hback := hR.symm _ _ _ _ hs'
        exact hR.symm _ _ _ _ (hR.other e _ _ s' l' _ t' m' hback hstep')

/-- The runs of all components are the shuffles of their own runs. -/
theorem together_iff (hR : Indistinguishable step R) (es : List (ι × E)) :
    Together step σ es ↔ ∀ j, Alone step σ.shared (σ.locals j) (project j es) := by
  constructor
  · intro h j
    exact alone_of_together hR h (hR.refl _ _)
  · intro h
    exact together_of_alone hR es fun j => ⟨_, _, hR.refl _ _, h j⟩

end Projection

end Interleaving
