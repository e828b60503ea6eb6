import Mathlib

/-!
# Schedules

To reach a state on purpose one performs a planned sequence of steps, some of which turn out to be
unnecessary. `Reaches` counts the steps of such a plan, `blend` is a list whose first entries have
been given their final values, and an injection that is prescribed on some points extends to all of
them when there is room.
-/

namespace Schedule

/-! ### Plans -/

section Plans

variable {σ : Type} {step : σ → σ → Prop}

/-- `t` is reached from `s` by at most `n` steps. -/
def Reaches (step : σ → σ → Prop) : Nat → σ → σ → Prop
  | 0, s, t => s = t
  | n + 1, s, t => ∃ u, Reaches step n s u ∧ (u = t ∨ step u t)

theorem Reaches.refl (step : σ → σ → Prop) (n : Nat) (s : σ) : Reaches step n s s := by
  induction n with
  | zero => rfl
  | succ n ih => exact ⟨s, ih, .inl rfl⟩

theorem Reaches.mono {m n : Nat} {s t : σ} (h : Reaches step m s t) (hmn : m ≤ n) :
    Reaches step n s t := by
  induction hmn with
  | refl => exact h
  | step _ ih => exact ⟨t, ih, .inl rfl⟩

theorem Reaches.trans {m n : Nat} {s t u : σ} (h : Reaches step m s t) (h' : Reaches step n t u) :
    Reaches step (m + n) s u := by
  induction n generalizing u with
  | zero =>
    obtain rfl : t = u := h'
    exact h
  | succ n ih =>
    obtain ⟨v, hv, hlast⟩ := h'
    exact ⟨v, ih hv, hlast⟩

/-- A plan whose states are given: each step is taken or unnecessary. -/
theorem Reaches.of_stages (step : σ → σ → Prop) (f : Nat → σ) (n : Nat)
    (hstep : ∀ i < n, f i = f (i + 1) ∨ step (f i) (f (i + 1))) : Reaches step n (f 0) (f n) := by
  induction n with
  | zero => rfl
  | succ n ih => exact ⟨f n, ih fun i hi => hstep i (Nat.lt_succ_of_lt hi), hstep n (Nat.lt_succ_self n)⟩

/-- A plan one of whose steps is known to be unnecessary. -/
theorem Reaches.of_stages_idle (step : σ → σ → Prop) (f : Nat → σ) {n i : Nat} (hi : i < n)
    (hidle : f i = f (i + 1)) (hstep : ∀ j < n, f j = f (j + 1) ∨ step (f j) (f (j + 1))) :
    Reaches step (n - 1) (f 0) (f n) := by
  have hbefore := Reaches.of_stages step f i fun j hj => hstep j (by omega)
  have hafter := Reaches.of_stages step (fun j => f (i + 1 + j)) (n - (i + 1)) fun j hj =>
    hstep (i + 1 + j) (by omega)
  simp only [Nat.add_zero, ← hidle] at hafter
  have hrun := hbefore.trans hafter
  rwa [show i + (n - (i + 1)) = n - 1 by omega, show i + 1 + (n - (i + 1)) = n by omega] at hrun

end Plans

/-! ### Overwriting a list from the front -/

section Blend

variable {α : Type}

theorem set_getD_self (l : List α) (i : Nat) (d : α) : l.set i (l.getD i d) = l := by
  by_cases hi : i < l.length
  · rw [List.getD_eq_getElem _ _ hi, List.set_getElem_self]
  · exact List.set_eq_of_length_le (Nat.le_of_not_lt hi)

/-- The first `i` entries of `target`, then what `base` has there. -/
def blend (target base : List α) (i : Nat) : List α := target.take i ++ base.drop i

variable {target base : List α} {i : Nat}

@[simp] theorem blend_zero : blend target base 0 = base := rfl

theorem blend_length (h : target.length = base.length) : blend target base target.length = target := by
  rw [blend, List.take_length, List.drop_eq_nil_of_le (Nat.le_of_eq h.symm), List.append_nil]

theorem length_blend (h : target.length = base.length) (i : Nat) :
    (blend target base i).length = target.length := by
  rw [blend, List.length_append, List.length_take, List.length_drop]
  omega

theorem getD_blend (hi : i ≤ target.length) (j : Nat) (d : α) :
    (blend target base i).getD j d = if j < i then target.getD j d else base.getD j d := by
  have htake : (target.take i).length = i := List.length_take_of_le hi
  simp only [blend, List.getD_eq_getElem?_getD, List.getElem?_append, htake, List.getElem?_take,
    List.getElem?_drop]
  split
  · rfl
  · rw [Nat.add_sub_cancel' (by omega)]

theorem blend_succ (h : target.length = base.length) (hi : i < target.length) (d : α) :
    blend target base (i + 1) = (blend target base i).set i (target.getD i d) := by
  have hlen : i < base.length := h ▸ hi
  rw [blend, blend, List.take_succ_eq_append_getElem hi, List.getD_eq_getElem _ _ hi,
    List.drop_eq_getElem_cons hlen, List.append_assoc]
  have htake : (target.take i).length = i := List.length_take_of_le (Nat.le_of_lt hi)
  rw [List.set_append_right _ _ (by omega), htake, Nat.sub_self, List.set_cons_zero]
  rfl

end Blend

/-! ### Room for a prescribed injection -/

/-- A function that is injective on some of the indices below `n`, with values below `m ≥ n`, agrees
there with one that is injective on all of them. -/
theorem exists_injection {n m : Nat} (hnm : n ≤ m) (P : Nat → Prop) (f : Nat → Nat)
    (hf : ∀ i < n, P i → f i < m)
    (hinj : ∀ i < n, ∀ j < n, P i → P j → f i = f j → i = j) :
    ∃ p : Nat → Nat, (∀ i < n, p i < m) ∧ (∀ i < n, ∀ j < n, p i = p j → i = j) ∧
      ∀ i < n, P i → p i = f i := by
  classical
  let s : Finset (Fin n) := Finset.univ.filter fun i => P i
  have hmem : ∀ i : Fin n, i ∈ s ↔ P i := fun i => by simp [s]
  have hinjOn : Set.InjOn (fun i : Fin n => f i) s := by
    intro i hi j hj hij
    exact Fin.ext (hinj i i.2 j j.2 ((hmem i).mp hi) ((hmem j).mp hj) hij)
  have himage : s.image (fun i : Fin n => f i) ⊆ Finset.range m := by
    intro r hr
    obtain ⟨i, hi, rfl⟩ := Finset.mem_image.mp hr
    exact Finset.mem_range.mpr (hf i i.2 ((hmem i).mp hi))
  have hcard : (s.image fun i : Fin n => f i).card ≤ n := by
    rw [Finset.card_image_of_injOn hinjOn]
    exact (Finset.card_le_univ s).trans (Nat.le_of_eq (Fintype.card_fin n))
  obtain ⟨room, hsub, hrange, hroom⟩ :=
    Finset.exists_subsuperset_card_eq himage hcard (by rwa [Finset.card_range])
  obtain ⟨g, hg⟩ := Finset.exists_equiv_extend_of_card_eq
    ((Fintype.card_fin n).trans hroom.symm) hsub hinjOn
  refine ⟨fun i => if h : i < n then g ⟨i, h⟩ else 0, fun i hi => ?_, fun i hi j hj hij => ?_,
    fun i hi hP => ?_⟩
  · simp only [hi, dif_pos]
    exact Finset.mem_range.mp (hrange (g ⟨i, hi⟩).2)
  · simp only [hi, hj, dif_pos] at hij
    exact Fin.mk.inj (g.injective (Subtype.val_injective hij))
  · simp only [hi, dif_pos]
    exact hg ⟨i, hi⟩ ((hmem _).mpr hP)

end Schedule
