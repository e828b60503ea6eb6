import Cbpf.Model.Reachability
import Cbpf.Model.Explore

/-!
# The size of the model (`theory/ownership.md`, "Exhaustive finite check")

With as many registers as acquisitions the counts that `explore` reports are known without running
it. A reachable state is a choice of consumed acquisitions and of one token for each register and
spill slot, together with a reason that the choice admits.
-/

namespace Cbpf.Model

open Finset

/-! ### How many edges leave a state -/

/-- The number of edges that leave an active state. -/
def outDegree (registers spills : Nat) : Nat :=
  registers ^ 2 + 2 * registers * spills + 4 * registers + 1

theorem length_transitions {s : State} (ha : s.terminal = .active) (capacity : Nat) (mutation : Bool) :
    (transitions s capacity mutation).length = outDegree s.registers.length s.spills.length := by
  have hsorted : (sortedRegisters s).length = s.registers.length := by
    rw [sortedRegisters, List.length_insertionSort, List.length_range]
  simp [transitions, ha, hsorted, outDegree, List.length_flatMap]
  ring

/-! ### Shapes -/

/-- The consumed acquisitions and the tokens of an active state with `n` acquisitions. -/
abbrev Shape (registers spills n : Nat) : Type :=
  Finset (Fin n) × (Fin registers → Fin (n + 1)) × (Fin spills → Fin (n + 1))

/-- A token for each register or spill slot. -/
def tokens {n m : Nat} (f : Fin m → Fin (n + 1)) : List Int := List.ofFn fun i => ((f i : Nat) : Int)

def Shape.state {registers spills n : Nat} (x : Shape registers spills n) : State :=
  State.ofAliases (List.ofFn fun i => decide (i ∉ x.1)) (tokens x.2.1) (tokens x.2.2)

section Shapes

variable {registers spills n capacity : Nat}

theorem tokens_injective {m : Nat} : Function.Injective (tokens (n := n) (m := m)) := by
  intro f g h
  have hfun := List.ofFn_injective h
  funext i
  exact Fin.ext (Int.ofNat_inj.mp (congrFun hfun i))

@[simp] theorem length_tokens {m : Nat} (f : Fin m → Fin (n + 1)) : (tokens f).length = m :=
  List.length_ofFn

theorem tokens_bounds {m : Nat} (f : Fin m → Fin (n + 1)) : ∀ t ∈ tokens f, 0 ≤ t ∧ t ≤ n := by
  intro t ht
  obtain ⟨i, rfl⟩ := List.mem_ofFn.mp ht
  have := (f i).isLt
  omega

/-- Lists of tokens are `tokens`. -/
theorem exists_tokens {l : List Int} (h : ∀ t ∈ l, 0 ≤ t ∧ t ≤ n) :
    ∃ f : Fin l.length → Fin (n + 1), tokens f = l := by
  have hget : ∀ i : Fin l.length, 0 ≤ l[i] ∧ l[i] ≤ n := fun i => h _ (List.getElem_mem i.2)
  refine ⟨fun i => ⟨l[i].toNat, by have := hget i; omega⟩, ?_⟩
  refine List.ext_getElem (length_tokens _) fun i hi hi' => ?_
  have := hget ⟨i, hi'⟩
  simp only [tokens, List.getElem_ofFn]
  exact Int.toNat_of_nonneg this.1

@[simp] theorem length_live_state (x : Shape registers spills n) : x.state.live.length = n :=
  List.length_ofFn

theorem state_injective : Function.Injective (Shape.state : Shape registers spills n → State) := by
  rintro ⟨D, ρ, σ⟩ ⟨D', ρ', σ'⟩ h
  have hlive := List.ofFn_injective (congrArg State.live h)
  obtain rfl : ρ = ρ' := tokens_injective (congrArg State.registers h)
  obtain rfl : σ = σ' := tokens_injective (congrArg State.spills h)
  obtain rfl : D = D' := by
    ext i
    have hi := congrFun hlive i
    simpa using hi
  rfl

/-- The active states that pass `state_error` are the shapes. -/
theorem exists_shape {s : State} (h : WellFormed s capacity) (ha : s.terminal = .active)
    (hregs : s.registers.length = registers) (hspills : s.spills.length = spills) :
    ∃ x : Shape registers spills s.live.length, x.state = s := by
  subst hregs hspills
  obtain ⟨ρ, hρ⟩ := exists_tokens h.regs
  obtain ⟨σ, hσ⟩ := exists_tokens h.spills
  refine ⟨(univ.filter fun i : Fin s.live.length => s.live[i] = false, ρ, σ),
    Eq.trans ?_ (h.eq_ofAliases ha).symm⟩
  rw [Shape.state, hρ, hσ]
  congr 1
  refine List.ext_getElem List.length_ofFn fun i hi hi' => ?_
  simp

theorem wellFormed_state (x : Shape registers spills n) (hn : n ≤ capacity) :
    WellFormed x.state capacity := by
  have hlen := length_live_state x
  refine wellFormed_ofAliases (hlen.trans_le hn) ?_ ?_
  · rw [show (List.ofFn fun i => decide (i ∉ x.1)).length = n from hlen]
    exact tokens_bounds x.2.1
  · rw [show (List.ofFn fun i => decide (i ∉ x.1)).length = n from hlen]
    exact tokens_bounds x.2.2

/-- Consumed is what is in the set. -/
theorem explicitAt_state (x : Shape registers spills n) (i : Fin n) :
    x.state.explicitAt i = 1 ↔ i ∈ x.1 := by
  have hget : x.state.explicitAt i = if x.state.liveAt i then 0 else 1 :=
    explicitAt_ofAliases (by rw [List.length_ofFn]; exact i.2)
  have hlive : x.state.liveAt i = decide (i ∉ x.1) := by
    simp [Shape.state, State.ofAliases, State.liveAt]
  rw [hget, hlive]
  by_cases hi : i ∈ x.1 <;> simp [hi]

theorem mem_tokens {m : Nat} (f : Fin m → Fin (n + 1)) (j : Fin (n + 1)) :
    ((j : Nat) : Int) ∈ tokens f ↔ ∃ r, f r = j := by
  rw [tokens, List.mem_ofFn]
  exact exists_congr fun r => ⟨fun h => Fin.ext (Int.ofNat_inj.mp h), fun h => by rw [h]⟩

/-- A register holds NULL. -/
theorem null_mem_state (x : Shape registers spills n) :
    (0 : Int) ∈ x.state.registers ↔ ∃ r, x.2.1 r ∈ ({0} : Finset (Fin (n + 1))) := by
  simp only [mem_singleton]
  exact mem_tokens x.2.1 0

/-- A register holds a consumed token. -/
theorem stale_mem_state (x : Shape registers spills n) :
    (∃ i < x.state.live.length, (i : Int) + 1 ∈ x.state.registers ∧ x.state.explicitAt i = 1) ↔
      ∃ r, x.2.1 r ∈ x.1.map (Fin.succEmb n) := by
  have htoken : ∀ i : Fin n, (i : Int) + 1 ∈ x.state.registers ↔ ∃ r, x.2.1 r = i.succ := by
    intro i
    rw [← mem_tokens]
    simp [Shape.state, State.ofAliases]
  constructor
  · rintro ⟨i, hi, hmem, hx⟩
    rw [length_live_state] at hi
    obtain ⟨r, hr⟩ := (htoken ⟨i, hi⟩).mp hmem
    exact ⟨r, mem_map.mpr ⟨⟨i, hi⟩, (explicitAt_state x ⟨i, hi⟩).mp hx, hr.symm⟩⟩
  · rintro ⟨r, hr⟩
    obtain ⟨i, hi, hir⟩ := mem_map.mp hr
    exact ⟨i, by rw [length_live_state]; exact i.2, (htoken i).mpr ⟨r, hir.symm⟩,
      (explicitAt_state x i).mpr hi⟩

end Shapes

/-! ### Counting shapes -/

section Counting

variable {registers spills n : Nat}

/-- The choices of tokens that hit a set. -/
theorem card_hitting (A : Finset (Fin (n + 1))) :
    (univ.filter fun ρ : Fin registers → Fin (n + 1) => ∃ r, ρ r ∈ A).card =
      (n + 1) ^ registers - (n + 1 - A.card) ^ registers := by
  have hmiss : (univ.filter fun ρ : Fin registers → Fin (n + 1) => ¬∃ r, ρ r ∈ A) =
      Fintype.piFinset fun _ => Aᶜ := by
    ext ρ
    simp [Fintype.mem_piFinset]
  have hall := card_filter_add_card_filter_not (s := univ)
    (fun ρ : Fin registers → Fin (n + 1) => ∃ r, ρ r ∈ A)
  rw [hmiss, Fintype.card_piFinset, prod_const, card_compl, card_univ, card_univ, Fintype.card_fun,
    Fintype.card_fin, Fintype.card_fin] at hall
  omega

/-- Shapes whose consumed acquisitions and registers satisfy a predicate. -/
theorem card_shapes (Q : Finset (Fin n) → (Fin registers → Fin (n + 1)) → Prop)
    [∀ D ρ, Decidable (Q D ρ)] :
    (univ.filter fun x : Shape registers spills n => Q x.1 x.2.1).card =
      ∑ D, (univ.filter fun ρ => Q D ρ).card * (n + 1) ^ spills := by
  rw [card_filter, Fintype.sum_prod_type]
  refine sum_congr rfl fun D _ => ?_
  rw [Fintype.sum_prod_type, card_filter, sum_mul]
  refine sum_congr rfl fun ρ _ => ?_
  by_cases hQ : Q D ρ <;> simp [hQ]

/-- The choices of tokens of which one register hits a set. -/
theorem card_register_hits (A : Finset (Fin (n + 1))) (r : Fin registers) :
    (univ.filter fun ρ : Fin registers → Fin (n + 1) => ρ r ∈ A).card =
      A.card * (n + 1) ^ (registers - 1) := by
  have hset : (univ.filter fun ρ : Fin registers → Fin (n + 1) => ρ r ∈ A) =
      Fintype.piFinset fun i => if i = r then A else univ := by
    ext ρ
    simp only [mem_filter, mem_univ, true_and, Fintype.mem_piFinset]
    refine ⟨fun h i => ?_, fun h => by simpa using h r⟩
    split
    · rename_i hi
      rwa [hi]
    · exact mem_univ _
  rw [hset, Fintype.card_piFinset]
  simp only [apply_ite card, prod_ite, prod_const, card_univ, Fintype.card_fin]
  simp [filter_eq', filter_ne']

/-- The registers that hit a set which depends on the consumed acquisitions, over all shapes. -/
theorem sum_hits (A : Finset (Fin n) → Finset (Fin (n + 1))) :
    ∑ x : Shape registers spills n, (univ.filter fun r => x.2.1 r ∈ A x.1).card =
      ∑ D, registers * ((A D).card * (n + 1) ^ (registers - 1)) * (n + 1) ^ spills := by
  rw [Fintype.sum_prod_type]
  refine sum_congr rfl fun D _ => ?_
  rw [Fintype.sum_prod_type]
  simp only [sum_const, card_univ, Fintype.card_fun, Fintype.card_fin, smul_eq_mul]
  rw [← mul_sum, mul_comm]
  congr 1
  simp only [card_filter]
  rw [sum_comm]
  simp only [← card_filter, card_register_hits, sum_const, card_univ, Fintype.card_fin, smul_eq_mul]

end Counting

/-! ### The states that end with a reason -/

/-- What the active state leaves when it ends with `reason`. -/
def State.ended (s : State) (reason : Terminal) : State :=
  if reason = .active then s else s.terminate reason

section Ended

variable {s : State} {capacity : Nat} {reason : Terminal}

theorem terminal_ended (ha : s.terminal = .active) : (s.ended reason).terminal = reason := by
  rw [State.ended]
  split
  · rename_i h
    rw [ha, h]
  · rfl

/-- Nothing of an active state is lost when it ends. -/
theorem revived_terminate (h : WellFormed s capacity) (ha : s.terminal = .active) (r : Terminal) :
    (s.terminate r).revived = s := by
  have hclean : ∀ i, s.cleanupAt i = 0 := by
    intro i
    have hi := congrArg (State.cleanupAt · i) (h.eq_ofAliases ha)
    exact hi.trans (cleanupAt_ofAliases i)
  refine Eq.trans ?_ (h.eq_ofAliases ha).symm
  rw [State.revived]
  congr 1
  refine ext_getD false ?_ fun i => ?_
  · simp [State.terminate, h.cleanup_length]
  · have hrevived := liveAt_revived (s.terminate r) i
    rw [cleanupAt_terminate h.cleanup_length, hclean] at hrevived
    refine hrevived.trans ?_
    change _ = s.liveAt i
    cases s.liveAt i <;> rfl

theorem described_ended {registers spills : Nat} (h : Described registers spills capacity s)
    (hadmits : s.Admits capacity reason) :
    Described registers spills capacity (s.ended reason) := by
  rw [State.ended]
  split
  · exact h
  · rename_i hreason
    have hwf := (stateError_eq_none.mp h.passes).terminate hreason
    exact ⟨stateError_eq_none.mpr hwf, h.registers_length, h.spills_length,
      (admits_terminate reason).mpr hadmits⟩

end Ended

section Reasons

variable {registers spills capacity : Nat}

/-- The states with a reason, by the number of acquisitions. It is read through `mem_endings` only:
unfolding it would enumerate them. -/
@[irreducible] def endings (registers spills capacity : Nat) (reason : Terminal) : Finset State :=
  ((range (capacity + 1)).sigma fun n =>
    univ.filter fun x : Shape registers spills n => x.state.Admits capacity reason).image
      fun x => x.2.state.ended reason

theorem mem_endings {reason : Terminal} {t : State} :
    t ∈ endings registers spills capacity reason ↔
      Described registers spills capacity t ∧ t.terminal = reason := by
  simp only [endings, mem_image, mem_sigma, mem_range, mem_filter, mem_univ, true_and]
  constructor
  · rintro ⟨⟨n, x⟩, ⟨hn, hadmits⟩, rfl⟩
    have hdescribed : Described registers spills capacity x.state :=
      ⟨stateError_eq_none.mpr (wellFormed_state x (Nat.le_of_lt_succ hn)), length_tokens _,
        length_tokens _, trivial⟩
    exact ⟨described_ended hdescribed hadmits, terminal_ended rfl⟩
  · rintro ⟨⟨hpasses, hregs, hspills, hadmits⟩, rfl⟩
    have hwf := stateError_eq_none.mp hpasses
    by_cases ha : t.terminal = .active
    · obtain ⟨x, hx⟩ := exists_shape hwf ha hregs hspills
      refine ⟨⟨_, x⟩, ⟨Nat.lt_succ_of_le hwf.budget, by rw [hx]; exact hadmits⟩, ?_⟩
      rw [State.ended, if_pos ha, hx]
    · obtain ⟨x, hx⟩ := exists_shape (wellFormed_revived hwf) rfl hregs hspills
      refine ⟨⟨_, x⟩, ⟨Nat.lt_succ_of_le (wellFormed_revived hwf).budget, ?_⟩, ?_⟩
      · rw [hx, ← admits_terminate t.terminal, terminate_revived hwf ha]
        exact hadmits
      · rw [State.ended, if_neg ha, hx, terminate_revived hwf ha]

/-- Different shapes end differently. -/
theorem endings_injOn (capacity : Nat) (reason : Terminal) :
    Set.InjOn (fun x : (n : Nat) × Shape registers spills n => x.2.state.ended reason)
      {x | x.1 ≤ capacity} := by
  rintro ⟨n, x⟩ hn ⟨m, y⟩ hm h
  have hstate : x.state = y.state := by
    simp only [State.ended] at h
    split at h
    · exact h
    · rw [← revived_terminate (wellFormed_state x hn) rfl reason,
        ← revived_terminate (wellFormed_state y hm) rfl reason, h]
  obtain rfl : n = m := by
    rw [← length_live_state x, ← length_live_state y, hstate]
  rw [state_injective hstate]

theorem card_endings (reason : Terminal) :
    (endings registers spills capacity reason).card =
      ∑ n ∈ range (capacity + 1),
        (univ.filter fun x : Shape registers spills n => x.state.Admits capacity reason).card := by
  rw [endings, card_image_of_injOn, card_sigma]
  refine (endings_injOn capacity reason).mono fun x hx => ?_
  simpa using (mem_sigma.mp hx).1

/-- A sum over the active states. -/
theorem sum_active (f : State → Nat) :
    ∑ s ∈ endings registers spills capacity .active, f s =
      ∑ n ∈ range (capacity + 1), ∑ x : Shape registers spills n, f x.state := by
  have hall : ∀ n, (univ.filter fun x : Shape registers spills n =>
      x.state.Admits capacity .active) = univ := fun n => filter_true_of_mem fun _ _ => trivial
  rw [endings, sum_image, sum_sigma]
  · exact sum_congr rfl fun n _ => by rw [hall]; rfl
  · refine (endings_injOn capacity .active).mono fun x hx => ?_
    simpa using (mem_sigma.mp hx).1

end Reasons

/-! ### The counts -/

/-- Active states, and those that returned. -/
def activeCount (registers spills capacity : Nat) : Nat :=
  ∑ n ∈ range (capacity + 1), 2 ^ n * (n + 1) ^ (registers + spills)

/-- States that ended at the budget. -/
def exhaustionCount (registers spills capacity : Nat) : Nat :=
  if registers = 0 then 0 else 2 ^ capacity * (capacity + 1) ^ (registers + spills)

/-- States that ended with a read of NULL, and those that ended with a release of it. -/
def nullCount (registers spills capacity : Nat) : Nat :=
  ∑ n ∈ range (capacity + 1), 2 ^ n * (((n + 1) ^ registers - n ^ registers) * (n + 1) ^ spills)

/-- States that ended with a read of a consumed token, and those that ended with a release of one;
`c` of the `n` acquisitions are consumed. -/
def staleCount (registers spills capacity : Nat) : Nat :=
  ∑ n ∈ range (capacity + 1), ∑ c ∈ range (n + 1),
    n.choose c * (((n + 1) ^ registers - (n + 1 - c) ^ registers) * (n + 1) ^ spills)

def terminalCount (registers spills capacity : Nat) : Nat :=
  activeCount registers spills capacity + exhaustionCount registers spills capacity +
    2 * nullCount registers spills capacity + 2 * staleCount registers spills capacity

section Counts

variable (registers spills capacity : Nat)

theorem card_shape (n : Nat) :
    Fintype.card (Shape registers spills n) = 2 ^ n * (n + 1) ^ (registers + spills) := by
  simp [Shape, pow_add]

theorem card_endings_free {reason : Terminal} (h : ∀ s, State.Admits capacity s reason) :
    (endings registers spills capacity reason).card = activeCount registers spills capacity := by
  rw [card_endings, activeCount]
  refine sum_congr rfl fun n _ => ?_
  rw [filter_true_of_mem fun x _ => h x.state, card_univ, card_shape]

theorem card_endings_exhaustion : (endings registers spills capacity .exhaustion).card =
    exhaustionCount registers spills capacity := by
  have hregs : ∀ {n} (x : Shape registers spills n), x.state.registers ≠ [] ↔ registers ≠ 0 := by
    intro n x
    rw [← List.length_pos_iff, show x.state.registers.length = registers from length_tokens _]
    exact Nat.pos_iff_ne_zero
  rw [card_endings, exhaustionCount, sum_eq_single capacity]
  · simp only [State.Admits, length_live_state, hregs, true_and]
    by_cases h : registers = 0
    · simp [h]
    · simp [h, pow_add]
  · intro n _ hn
    simp [State.Admits, length_live_state, hn]
  · intro h
    exact absurd (mem_range.mpr (Nat.lt_succ_self capacity)) h

theorem card_endings_null {reason : Terminal}
    (h : ∀ s, State.Admits capacity s reason ↔ (0 : Int) ∈ s.registers) :
    (endings registers spills capacity reason).card = nullCount registers spills capacity := by
  rw [card_endings, nullCount]
  refine sum_congr rfl fun n _ => ?_
  simp only [h, null_mem_state]
  rw [card_shapes fun _ ρ => ∃ r, ρ r ∈ ({0} : Finset (Fin (n + 1))), card_hitting]
  simp

theorem card_endings_stale {reason : Terminal} (h : ∀ s, State.Admits capacity s reason ↔
      ∃ i < s.live.length, (i : Int) + 1 ∈ s.registers ∧ s.explicitAt i = 1) :
    (endings registers spills capacity reason).card = staleCount registers spills capacity := by
  rw [card_endings, staleCount]
  refine sum_congr rfl fun n _ => ?_
  simp only [h, stale_mem_state]
  rw [card_shapes fun D ρ => ∃ r, ρ r ∈ D.map (Fin.succEmb n)]
  simp only [card_hitting, card_map]
  have hsum := sum_powerset_apply_card (fun c =>
    ((n + 1) ^ registers - (n + 1 - c) ^ registers) * (n + 1) ^ spills) (x := (univ : Finset (Fin n)))
  simpa only [powerset_univ, card_univ, Fintype.card_fin, smul_eq_mul] using hsum

/-- The number of states with a reason of the transition function. -/
def countOf (registers spills capacity : Nat) : Terminal → Nat
  | .active | .ret => activeCount registers spills capacity
  | .exhaustion => exhaustionCount registers spills capacity
  | .nullRead | .nullRelease => nullCount registers spills capacity
  | .staleRead | .staleRelease => staleCount registers spills capacity
  | .other _ => 0

theorem card_endings_eq (reason : Terminal) : (endings registers spills capacity reason).card =
    countOf registers spills capacity reason := by
  cases reason with
  | active | ret => exact card_endings_free registers spills capacity fun _ => trivial
  | exhaustion => exact card_endings_exhaustion registers spills capacity
  | nullRead | nullRelease => exact card_endings_null registers spills capacity fun _ => Iff.rfl
  | staleRead | staleRelease => exact card_endings_stale registers spills capacity fun _ => Iff.rfl
  | other text =>
    refine card_eq_zero.mpr (eq_empty_of_forall_notMem fun t ht => ?_)
    obtain ⟨hdescribed, hreason⟩ := mem_endings.mp ht
    have hadmits := hdescribed.admits
    rw [hreason] at hadmits
    exact hadmits

/-- A finite set of all described states has the counts of the closed form. -/
theorem card_described {discovered : Finset State}
    (hmem : ∀ s, s ∈ discovered ↔ Described registers spills capacity s) :
    (discovered.filter fun s => s.terminal = .active).card = activeCount registers spills capacity ∧
    (discovered.filter fun s => s.terminal ≠ .active).card =
      terminalCount registers spills capacity := by
  have hfiber : ∀ reason, (discovered.filter fun s => s.terminal = reason).card =
      countOf registers spills capacity reason := by
    intro reason
    rw [← card_endings_eq]
    congr 1
    ext s
    rw [mem_filter, hmem, mem_endings]
  refine ⟨hfiber .active, ?_⟩
  have hreasons : ∀ s ∈ discovered.filter fun s => s.terminal ≠ .active,
      s.terminal ∈ terminals.tail.toFinset := by
    intro s hs
    obtain ⟨hs, hne⟩ := mem_filter.mp hs
    have hadmits := ((hmem s).mp hs).admits
    cases hreason : s.terminal <;> simp_all [terminals, State.Admits]
  rw [card_eq_sum_card_fiberwise hreasons]
  have hsame : ∀ reason ∈ terminals.tail.toFinset,
      ((discovered.filter fun s => s.terminal ≠ .active).filter fun s => s.terminal = reason).card =
        countOf registers spills capacity reason := by
    intro reason hreason
    rw [← hfiber, filter_filter]
    congr 1
    refine filter_congr fun s _ => and_iff_right_of_imp ?_
    rintro rfl hactive
    rw [hactive] at hreason
    simp [terminals] at hreason
  rw [sum_congr rfl hsame]
  simp [terminals, countOf, terminalCount]
  ring

/-- All edges of the model leave an active state. -/
theorem sum_transitions {discovered : Finset State}
    (hmem : ∀ s, s ∈ discovered ↔ Described registers spills capacity s) :
    ∑ s ∈ discovered, (transitions s capacity false).length =
      activeCount registers spills capacity * outDegree registers spills := by
  rw [← (card_described registers spills capacity hmem).1, ← smul_eq_mul, ← sum_const,
    sum_filter]
  refine sum_congr rfl fun s hs => ?_
  by_cases ha : s.terminal = .active
  · have hdescribed := (hmem s).mp hs
    rw [if_pos ha, length_transitions ha, hdescribed.registers_length, hdescribed.spills_length]
  · rw [if_neg ha, transitions_terminal ha, List.length_nil]

end Counts

/-- `explore` of the unmutated model ends and reports exactly these counts. -/
theorem explores_counts (registers spills capacity : Nat) (hroom : capacity ≤ registers) :
    Explores registers spills capacity false (.finished (.verified
      (activeCount registers spills capacity + terminalCount registers spills capacity)
      (terminalCount registers spills capacity)
      (activeCount registers spills capacity * outDegree registers spills))) := by
  obtain ⟨result, hexplores, hverified, hcorrect⟩ := explores_correct registers spills capacity false
  have hpass : AllPass registers spills capacity false := by
    intro s hs
    have hwf := wellFormed_of_reachable hs
    refine ⟨stateError_eq_none.mpr hwf, fun e he => ?_⟩
    obtain ⟨ha, hy⟩ := mem_transitions.mp he
    exact edgeFault_eq_none.mpr ⟨stateError_eq_none.mpr (hwf.edge ha hy), edgeError_of_yields hwf ha hy⟩
  have hresult := hverified.mpr hpass
  cases result with
  | rejected error => cases hresult
  | finished answer =>
    cases answer with
    | failed error history states edges => cases hresult
    | verified states terminals edges =>
      obtain ⟨discovered, hreach, rfl, rfl, rfl⟩ := hcorrect
      have hmem : ∀ s, s ∈ discovered ↔ Described registers spills capacity s := by
        intro s
        rw [hreach]
        refine ⟨described_of_reachable, fun h => ?_⟩
        have hbudget := (stateError_eq_none.mp h.passes).budget
        obtain ⟨path, hpath, _⟩ := path_of_reaches (h.reaches (hbudget.trans hroom))
        exact hpath.reachable
      obtain ⟨hactive, hterminal⟩ := card_described registers spills capacity hmem
      have hall := card_filter_add_card_filter_not (s := discovered) fun s => s.terminal = .active
      rw [hactive, hterminal] at hall
      rw [hall, ← hterminal, ← sum_transitions registers spills capacity hmem]
      exact hexplores

/-- The recorded runs, at the default bounds and at `K=2, R=2, S=1`. -/
theorem explores_counts_recorded :
    Explores 4 2 2 false (.finished (.verified 17828 14783 149205)) ∧
    Explores 2 1 2 false (.finished (.verified 624 499 2125)) :=
  ⟨explores_counts 4 2 2 (by decide), explores_counts 2 1 2 (by decide)⟩

end Cbpf.Model
