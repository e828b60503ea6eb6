import Mathlib

/-!
# Members of a population over one shared state

Members have a local state each and arrive while the others move, in any order; nobody is removed. A
weight of the local states has a total over the population, and what a step does to the total is what
it does to the weight of the one member that moves.
-/

universe u v

/-- The shared state and the local states of the members, in the order in which they arrived. -/
structure Population (S : Type u) (L : Type v) where
  shared : S
  members : List L

namespace Population

variable {S : Type u} {L : Type v}

/-- New members arrive, or one member moves. -/
inductive Step (arrive : S → S → List L → Prop) (step : S → L → S → L → Prop) :
    Population S L → Population S L → Prop
  | arrive {s s' : S} {ms new : List L} : arrive s s' new → Step arrive step ⟨s, ms⟩ ⟨s', ms ++ new⟩
  | move {s s' : S} {ms : List L} {l l' : L} (i : Nat) : ms[i]? = some l → step s l s' l' →
      Step arrive step ⟨s, ms⟩ ⟨s', ms.set i l'⟩

variable {arrive : S → S → List L → Prop} {step : S → L → S → L → Prop}
  {bound : Population S L → Prop} {σ τ : Population S L}

/-- Reached from `σ` by steps in any order, none of which leaves `bound`. -/
def Reachable (arrive : S → S → List L → Prop) (step : S → L → S → L → Prop)
    (bound : Population S L → Prop) (σ τ : Population S L) : Prop :=
  Relation.ReflTransGen (fun a b => Step arrive step a b ∧ bound b) σ τ

/-- The invariant rule. A step is given that its target is within the bound. -/
theorem Reachable.invariant {I : Population S L → Prop} (h : Reachable arrive step bound σ τ)
    (hstart : I σ) (hstep : ∀ a b, I a → Step arrive step a b → bound b → I b) : I τ := by
  induction h with
  | refl => exact hstart
  | tail _ hmove ih => exact hstep _ _ ih hmove.1 hmove.2

theorem Reachable.within (h : Reachable arrive step bound σ τ) (hstart : bound σ) : bound τ :=
  h.invariant hstart fun _ _ _ _ hbound => hbound

/-- One more move of member `i`. -/
theorem Reachable.move (h : Reachable arrive step bound σ τ) (i : Nat) {l l' : L} {s' : S}
    (hget : τ.members[i]? = some l) (hs : step τ.shared l s' l')
    (hbound : bound ⟨s', τ.members.set i l'⟩) :
    Reachable arrive step bound σ ⟨s', τ.members.set i l'⟩ :=
  .tail h ⟨.move i hget hs, hbound⟩

/-! ### Totals -/

/-- The weight of all members. -/
def total (w : L → Nat) (σ : Population S L) : Nat := (σ.members.map w).sum

theorem total_append (w : L → Nat) (s s' : S) (ms new : List L) :
    total w ⟨s', ms ++ new⟩ = total w ⟨s, ms⟩ + (new.map w).sum := by
  rw [total, total, List.map_append, List.sum_append]

/-- A member that moves changes the total by as much as its own weight. -/
theorem total_set (w : L → Nat) (s s' : S) {ms : List L} {i : Nat} {l : L}
    (h : ms[i]? = some l) (l' : L) :
    total w ⟨s', ms.set i l'⟩ + w l = total w ⟨s, ms⟩ + w l' := by
  unfold total
  induction ms generalizing i with
  | nil => cases h
  | cons m ms ih =>
    cases i with
    | zero =>
      obtain rfl : m = l := Option.some.inj h
      simp only [List.set_cons_zero, List.map_cons, List.sum_cons]
      omega
    | succ i =>
      have htail : ((ms.set i l').map w).sum + w l = (ms.map w).sum + w l' := ih h
      simp only [List.set_cons_succ, List.map_cons, List.sum_cons]
      omega

theorem le_total (w : L → Nat) {i : Nat} {l : L} (h : σ.members[i]? = some l) : w l ≤ total w σ :=
  List.single_le_sum (by simp) _ (List.mem_map_of_mem (List.mem_of_getElem? h))

theorem total_le_total {w w' : L → Nat} (h : ∀ l, w l ≤ w' l) (σ : Population S L) :
    total w σ ≤ total w' σ :=
  List.sum_le_sum fun l _ => h l

/-- Weights that agree on every member have the same total. -/
theorem total_congr {w w' : L → Nat} (h : ∀ l ∈ σ.members, w l = w' l) : total w σ = total w' σ :=
  congrArg List.sum (List.map_congr_left h)

theorem total_add (w w' : L → Nat) (σ : Population S L) :
    total (fun l => w l + w' l) σ = total w σ + total w' σ := List.sum_map_add

/-! ### Facts about pairs of members -/

/-- What holds of any two members that are both in `p`. -/
def Pairs (p : L → Prop) (r : L → L → Prop) (σ : Population S L) : Prop :=
  ∀ (i j : Nat) (c d : L), σ.members[i]? = some c → σ.members[j]? = some d → i ≠ j → p c → p d → r c d

/-- Members who are not in `p` do not matter when they arrive. -/
theorem Pairs.append {p : L → Prop} {r : L → L → Prop} {s s' : S} {ms new : List L}
    (h : Pairs p r ⟨s, ms⟩) (hnew : ∀ l ∈ new, ¬ p l) : Pairs p r ⟨s', ms ++ new⟩ := by
  have hold : ∀ (i : Nat) (l : L), (ms ++ new)[i]? = some l → p l → ms[i]? = some l := by
    intro i l hi hp
    rw [List.getElem?_append] at hi
    split at hi
    · exact hi
    · exact absurd hp (hnew l (List.mem_of_getElem? hi))
  intro i j c d hi hj hij hc hd
  exact h i j c d (hold i c hi hc) (hold j d hj hd) hij hc hd

/-- A member that moves has to get on with every other member. -/
theorem Pairs.set {p : L → Prop} {r : L → L → Prop} {s s' : S} {ms : List L} {k : Nat} {l' : L}
    (h : Pairs p r ⟨s, ms⟩) (hsymm : ∀ c d, r c d → r d c)
    (hmove : p l' → ∀ (j : Nat) (d : L), ms[j]? = some d → j ≠ k → p d → r l' d) :
    Pairs p r ⟨s', ms.set k l'⟩ := by
  intro i j c d hi hj hij hc hd
  have hother : ∀ (n : Nat) (l : L), (ms.set k l')[n]? = some l → n ≠ k → ms[n]? = some l := by
    intro n l hn hne
    rwa [List.getElem?_set_ne (Ne.symm hne)] at hn
  have hself : ∀ l, (ms.set k l')[k]? = some l → l = l' := by
    intro l hl
    rw [List.getElem?_set] at hl
    split at hl
    · split at hl
      · exact (Option.some.inj hl).symm
      · cases hl
    · contradiction
  by_cases hik : i = k
  · subst hik
    obtain rfl := hself c hi
    exact hmove hc j d (hother j d hj (Ne.symm hij)) (Ne.symm hij) hd
  · by_cases hjk : j = k
    · subst hjk
      obtain rfl := hself d hj
      exact hsymm _ _ (hmove hd i c (hother i c hi hij) hij hc)
    · exact h i j c d (hother i c hi hik) (hother j d hj hjk) hij hc hd

end Population
