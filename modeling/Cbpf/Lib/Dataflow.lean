import Mathlib.Logic.Function.Basic
import Mathlib.Logic.Relation
import Mathlib.Order.Basic

/-!
# Forward dataflow in one pass

Programs whose control only moves forward are analysed by one visit of each location in increasing
order: the visit reads the fact that has been collected for its location and joins facts into later
ones. `Pass` is such a sweep over the locations below `n`; its result is a solution of the flow
equations, and a solution is sound for every run.
-/

namespace Dataflow

variable {A : Type*}

/-- Join the fact of an edge into its target. -/
def joinAt (join : A → A → A) (m : Nat → A) (e : Nat × A) : Nat → A :=
  Function.update m e.1 (join (m e.1) e.2)

/-- The sweep from `pc` up to `n` turns the first map of facts into the second. `Edges pc a es` says
that a location `pc` with fact `a` contributes `es`. -/
inductive Pass (join : A → A → A) (Edges : Nat → A → List (Nat × A) → Prop) (n : Nat) :
    Nat → (Nat → A) → (Nat → A) → Prop
  | done {m : Nat → A} : Pass join Edges n n m m
  | step {pc : Nat} {m m' : Nat → A} {es : List (Nat × A)} :
      pc < n → Edges pc (m pc) es → (∀ e ∈ es, pc < e.1) →
      Pass join Edges n (pc + 1) (es.foldl (joinAt join) m) m' →
      Pass join Edges n pc m m'

variable {join : A → A → A} {Edges : Nat → A → List (Nat × A) → Prop} {n : Nat}

/-! ### Joining edges -/

theorem joinAt_of_ne (join : A → A → A) (m : Nat → A) (e : Nat × A) {p : Nat} (h : p ≠ e.1) :
    joinAt join m e p = m p :=
  Function.update_of_ne h _ _

/-- Edges to other locations leave a fact alone. -/
theorem foldl_joinAt_of_ne (m : Nat → A) (es : List (Nat × A)) {p : Nat}
    (h : ∀ e ∈ es, p ≠ e.1) : es.foldl (joinAt join) m p = m p := by
  induction es generalizing m with
  | nil => rfl
  | cons e es ih =>
    rw [List.foldl_cons, ih _ fun e' he' => h e' (List.mem_cons_of_mem _ he')]
    exact joinAt_of_ne join m e (h e List.mem_cons_self)

section Order

variable [Preorder A] (hleft : ∀ a b, a ≤ join a b) (hright : ∀ a b, b ≤ join a b)
include hleft

theorem le_joinAt (m : Nat → A) (e : Nat × A) (p : Nat) : m p ≤ joinAt join m e p := by
  by_cases h : p = e.1
  · subst h
    rw [joinAt, Function.update_self]
    exact hleft _ _
  · rw [joinAt_of_ne join m e h]

theorem le_foldl_joinAt (m : Nat → A) (es : List (Nat × A)) (p : Nat) :
    m p ≤ es.foldl (joinAt join) m p := by
  induction es generalizing m with
  | nil => exact le_refl _
  | cons e es ih => exact le_trans (le_joinAt hleft m e p) (ih _)

include hright

/-- A joined edge is below the fact of its target. -/
theorem edge_le_foldl_joinAt (m : Nat → A) {es : List (Nat × A)} {e : Nat × A} (he : e ∈ es) :
    e.2 ≤ es.foldl (joinAt join) m e.1 := by
  induction es generalizing m with
  | nil => cases he
  | cons e' es ih =>
    rcases List.mem_cons.mp he with rfl | he
    · refine le_trans ?_ (le_foldl_joinAt hleft _ es e.1)
      rw [joinAt, Function.update_self]
      exact hright _ _
    · exact ih _ he

end Order

/-! ### The result of a pass -/

namespace Pass

/-- Locations that were visited before keep their facts, and so does the next one. -/
theorem frame {pc : Nat} {m m' : Nat → A} (h : Pass join Edges n pc m m') {p : Nat}
    (hp : p ≤ pc) : m' p = m p := by
  induction h with
  | done => rfl
  | step _ _ hlater _ ih =>
    rw [ih (by omega)]
    exact foldl_joinAt_of_ne _ _ fun e he => by
      have := hlater e he
      omega

section Order

variable [Preorder A] (hleft : ∀ a b, a ≤ join a b) (hright : ∀ a b, b ≤ join a b)
include hleft

theorem le {pc : Nat} {m m' : Nat → A} (h : Pass join Edges n pc m m') (p : Nat) :
    m p ≤ m' p := by
  induction h with
  | done => exact le_refl _
  | step _ _ _ _ ih => exact le_trans (le_foldl_joinAt hleft _ _ p) ih

include hright

/-- The final facts solve the flow equations at every location that the pass visits. -/
theorem solution {pc : Nat} {m m' : Nat → A} (h : Pass join Edges n pc m m') {p : Nat}
    (hp : pc ≤ p) (hn : p < n) :
    ∃ es, Edges p (m' p) es ∧ ∀ e ∈ es, e.2 ≤ m' e.1 := by
  induction h with
  | done => omega
  | @step pc m m' es _ hedges hlater hrest ih =>
    by_cases heq : p = pc
    · subst heq
      refine ⟨es, ?_, fun e he =>
        le_trans (edge_le_foldl_joinAt hleft hright m he) (hrest.le hleft e.1)⟩
      rw [hrest.frame (Nat.le_succ p), foldl_joinAt_of_ne m es fun e he => by
        have := hlater e he
        omega]
      exact hedges
    · exact ih (by omega)

/-- Soundness: what the edges propagate along every step, the facts say of every run. -/
theorem sound {σ : Type*} (γ : A → σ → Prop) {Step : σ → σ → Prop} {loc : σ → Nat}
    {m facts : Nat → A} (h : Pass join Edges n 0 m facts)
    (hmono : ∀ a b s, a ≤ b → γ a s → γ b s)
    (hloc : ∀ s, γ (facts (loc s)) s → loc s < n)
    (hstep : ∀ a es s s', Edges (loc s) a es → γ a s → Step s s' →
      ∃ e ∈ es, e.1 = loc s' ∧ γ e.2 s')
    {s s' : σ} (hs : γ (facts (loc s)) s) (hrun : Relation.ReflTransGen Step s s') :
    γ (facts (loc s')) s' := by
  induction hrun with
  | refl => exact hs
  | tail _ hnext ih =>
    obtain ⟨es, hedges, hle⟩ := h.solution hleft hright (Nat.zero_le _) (hloc _ ih)
    obtain ⟨e, he, heq, hγ⟩ := hstep _ _ _ _ hedges ih hnext
    rw [← heq]
    exact hmono _ _ _ (hle e he) hγ

end Order

end Pass

/-! ### The least solution -/

/-- Facts that are closed under the edges of every location below `n`. -/
def Solution [LE A] (Edges : Nat → A → List (Nat × A) → Prop) (n : Nat) (facts : Nat → A) : Prop :=
  ∀ p < n, ∃ es, Edges p (facts p) es ∧ ∀ e ∈ es, e.2 ≤ facts e.1

/-- Edges that go forward and grow with the facts they come from. `Proper` is what holds of every
collected fact, `Live` of what is joined into them. -/
structure MonotoneFlow [Preorder A] (join : A → A → A) (Edges : Nat → A → List (Nat × A) → Prop)
    (n : Nat) (Proper Live : A → Prop) : Prop where
  join_le : ∀ a b c, Live b → a ≤ c → b ≤ c → join a b ≤ c
  proper_join : ∀ a b, Proper a → Live b → Proper (join a b)
  live_edges : ∀ p a es, Edges p a es → Proper a → ∀ e ∈ es, Live e.2
  forward : ∀ p < n, ∀ a es, Edges p a es → ∀ e ∈ es, p < e.1
  unique : ∀ p a es es', Edges p a es → Edges p a es' → es = es'
  below : ∀ p a b es, Proper a → a ≤ b → Edges p b es →
    ∃ es', Edges p a es' ∧ ∀ e' ∈ es', ∃ e ∈ es, e.1 = e'.1 ∧ e'.2 ≤ e.2

namespace MonotoneFlow

variable [Preorder A] {Proper Live : A → Prop} {facts m m' : Nat → A} {es : List (Nat × A)} {pc : Nat}

theorem foldl_le (h : MonotoneFlow join Edges n Proper Live) (hm : ∀ p, m p ≤ facts p)
    (hlive : ∀ e ∈ es, Live e.2) (hes : ∀ e ∈ es, e.2 ≤ facts e.1) (p : Nat) : es.foldl (joinAt join) m p ≤ facts p := by
  induction es generalizing m with
  | nil => exact hm p
  | cons e es ih =>
    rw [List.foldl_cons]
    apply ih
    · intro q
      by_cases hq : q = e.1
      · subst hq
        rw [joinAt, Function.update_self]
        exact h.join_le _ _ _ (hlive e List.mem_cons_self) (hm _) (hes e List.mem_cons_self)
      · rw [joinAt_of_ne join m e hq]
        exact hm q
    · exact fun e' he' => hlive e' (List.mem_cons_of_mem _ he')
    · exact fun e' he' => hes e' (List.mem_cons_of_mem _ he')

theorem proper_foldl (h : MonotoneFlow join Edges n Proper Live) (hm : ∀ p, Proper (m p))
    (hlive : ∀ e ∈ es, Live e.2) (p : Nat) : Proper (es.foldl (joinAt join) m p) := by
  induction es generalizing m with
  | nil => exact hm p
  | cons e es ih =>
    rw [List.foldl_cons]
    apply ih
    · intro q
      by_cases hq : q = e.1
      · subst hq
        rw [joinAt, Function.update_self]
        exact h.proper_join _ _ (hm _) (hlive e List.mem_cons_self)
      · rw [joinAt_of_ne join m e hq]
        exact hm q
    · exact fun e' he' => hlive e' (List.mem_cons_of_mem _ he')

/-- What a location contributes is below every solution that its fact is below. -/
theorem edges_le (h : MonotoneFlow join Edges n Proper Live) (hfacts : Solution Edges n facts)
    (hpc : pc < n) (hproper : Proper (m pc)) (hm : ∀ p, m p ≤ facts p) :
    ∃ es, Edges pc (m pc) es ∧ ∀ e ∈ es, e.2 ≤ facts e.1 := by
  obtain ⟨es, hedges, hclosed⟩ := hfacts pc hpc
  obtain ⟨es', hedges', hbelow⟩ := h.below pc _ _ es hproper (hm pc) hedges
  refine ⟨es', hedges', fun e' he' => ?_⟩
  obtain ⟨e, he, heq, hle⟩ := hbelow e' he'
  rw [← heq]
  exact le_trans hle (hclosed e he)

/-- Below a solution the sweep never stops, and it stays below. -/
theorem exists_pass (h : MonotoneFlow join Edges n Proper Live) (hfacts : Solution Edges n facts)
    (hpc : pc ≤ n) (hproper : ∀ p, Proper (m p)) (hm : ∀ p, m p ≤ facts p) :
    ∃ m', Pass join Edges n pc m m' := by
  induction hk : n - pc generalizing pc m with
  | zero =>
    obtain rfl : pc = n := by omega
    exact ⟨m, .done⟩
  | succ k ih =>
    have hlt : pc < n := by omega
    obtain ⟨es, hedges, hes⟩ := h.edges_le hfacts hlt (hproper pc) hm
    have hlive := h.live_edges pc _ es hedges (hproper pc)
    obtain ⟨m', hpass⟩ := ih (m := es.foldl (joinAt join) m) hlt (h.proper_foldl hproper hlive)
      (h.foldl_le hm hlive hes) (by omega)
    exact ⟨m', .step hlt hedges (h.forward pc hlt _ es hedges) hpass⟩

/-- The result of a sweep is below every solution. -/
theorem pass_le (h : MonotoneFlow join Edges n Proper Live) (hfacts : Solution Edges n facts)
    (hpass : Pass join Edges n pc m m') (hproper : ∀ p, Proper (m p)) (hm : ∀ p, m p ≤ facts p)
    (p : Nat) : m' p ≤ facts p := by
  induction hpass with
  | done => exact hm p
  | @step pc m m' es hlt hedges _ _ ih =>
    obtain ⟨es', hedges', hes'⟩ := h.edges_le hfacts hlt (hproper pc) hm
    obtain rfl := h.unique pc _ es es' hedges hedges'
    have hlive := h.live_edges pc _ es hedges (hproper pc)
    apply ih
    · exact h.proper_foldl hproper hlive
    · exact h.foldl_le hm hlive hes'

end MonotoneFlow

end Dataflow
