import Cbpf.Model.Oracle

/-!
# The model's invariant at every bound (`theory/ownership.md`, "Three invariants")

`WellFormed` is kept by every edge, for every capacity, register count and spill count and for the
mutated transition function as well; the unmutated edges moreover pass `edge_error`. Each target of
an edge has its pointwise reading first, and every fact about it is derived from that.
-/

namespace Cbpf.Model

/-! ### Counting over the acquisitions -/

theorem forall_mem_iff_getD {α : Type} {l : List α} {d : α} {P : α → Prop} :
    (∀ x ∈ l, P x) ↔ ∀ i < l.length, P (l.getD i d) := by
  constructor
  · intro h i hi
    rw [List.getD_eq_getElem _ _ hi]
    exact h _ (List.getElem_mem hi)
  · intro h x hx
    obtain ⟨i, hi, rfl⟩ := List.getElem_of_mem hx
    have := h i hi
    rwa [List.getD_eq_getElem _ _ hi] at this

theorem ext_getD {α : Type} {l l' : List α} (d : α) (hlen : l.length = l'.length)
    (h : ∀ i, l.getD i d = l'.getD i d) : l = l' := by
  refine List.ext_getElem hlen fun i hi hi' => ?_
  rw [← List.getD_eq_getElem l d hi, ← List.getD_eq_getElem l' d hi']
  exact h i

theorem count_true_eq_countP (l : List Bool) :
    l.count true = (List.range l.length).countP fun i => l.getD i false := by
  induction l with
  | nil => rfl
  | cons b l ih =>
    rw [List.length_cons, List.range_succ_eq_map, List.countP_cons, List.countP_map,
      List.count_cons, ih]
    cases b <;> rfl

/-- Every acquisition is live or has one effect. -/
theorem sum_effects (live : List Bool) (explicit cleanup : List Int)
    (he : explicit.length = live.length) (hc : cleanup.length = live.length)
    (h : ∀ i < live.length, explicit.getD i 0 + cleanup.getD i 0 =
      if live.getD i false then 0 else 1) :
    explicit.sum + cleanup.sum + (live.count true : Int) = live.length := by
  induction live generalizing explicit cleanup with
  | nil =>
    obtain rfl := List.eq_nil_of_length_eq_zero he
    obtain rfl := List.eq_nil_of_length_eq_zero hc
    rfl
  | cons b live ih =>
    obtain ⟨e, explicit, rfl⟩ := List.exists_cons_of_length_eq_add_one he
    obtain ⟨c, cleanup, rfl⟩ := List.exists_cons_of_length_eq_add_one hc
    have hhead := h 0 (by simp)
    have htail := ih explicit cleanup (by simpa using he) (by simpa using hc) fun i hi =>
      h (i + 1) (by simpa using hi)
    cases b <;> simp at hhead htail ⊢ <;> omega

theorem accounting_of_cells {s : State} (he : s.explicit.length = s.live.length)
    (hc : s.cleanup.length = s.live.length)
    (hcells : ∀ i < s.live.length, s.explicitAt i + s.cleanupAt i = if s.liveAt i then 0 else 1)
    (hrefs : s.refcount = 1 + (s.live.count true : Int)) :
    s.refcount = 1 + s.live.length - s.explicit.sum - s.cleanup.sum := by
  have := sum_effects s.live s.explicit s.cleanup he hc hcells
  omega

/-! ### The targets, acquisition by acquisition -/

section Targets

variable {s : State}

@[simp] theorem registers_terminate (s : State) (reason : Terminal) :
    (s.terminate reason).registers = s.registers := rfl
@[simp] theorem spills_terminate (s : State) (reason : Terminal) :
    (s.terminate reason).spills = s.spills := rfl
@[simp] theorem explicit_terminate (s : State) (reason : Terminal) :
    (s.terminate reason).explicit = s.explicit := rfl
@[simp] theorem terminal_terminate (s : State) (reason : Terminal) :
    (s.terminate reason).terminal = reason := rfl
@[simp] theorem registers_consume (s : State) (dead : List Nat) :
    (s.consume dead).registers = s.registers := rfl
@[simp] theorem spills_consume (s : State) (dead : List Nat) :
    (s.consume dead).spills = s.spills := rfl
@[simp] theorem cleanup_consume (s : State) (dead : List Nat) :
    (s.consume dead).cleanup = s.cleanup := rfl
@[simp] theorem terminal_consume (s : State) (dead : List Nat) :
    (s.consume dead).terminal = s.terminal := rfl

@[simp] theorem length_terminate (s : State) (reason : Terminal) :
    (s.terminate reason).live.length = s.live.length := List.length_replicate

@[simp] theorem liveAt_terminate (s : State) (reason : Terminal) (i : Nat) :
    (s.terminate reason).liveAt i = false := by
  simp [State.terminate, State.liveAt, List.getElem?_replicate]
  split <;> rfl

theorem cleanupAt_terminate (h : s.cleanup.length = s.live.length) (reason : Terminal) (i : Nat) :
    (s.terminate reason).cleanupAt i = s.cleanupAt i + ((s.liveAt i).toNat : Int) := by
  simp only [State.terminate, State.cleanupAt, State.liveAt, List.getD_eq_getElem?_getD,
    List.getElem?_zipWith]
  by_cases hi : i < s.live.length
  · simp [hi, h ▸ hi]
  · simp [List.getElem?_eq_none (Nat.le_of_not_lt hi),
      List.getElem?_eq_none (h ▸ Nat.le_of_not_lt hi)]

theorem count_terminate (s : State) (reason : Terminal) :
    (s.terminate reason).live.count true = 0 := by
  simp [State.terminate, List.count_replicate]

@[simp] theorem length_consume (s : State) (dead : List Nat) :
    (s.consume dead).live.length = s.live.length := by simp [State.consume]

theorem liveAt_consume (s : State) (dead : List Nat) (i : Nat) :
    (s.consume dead).liveAt i = (s.liveAt i && !dead.contains i) := by
  by_cases hi : i < s.live.length
  · simp [State.consume, State.liveAt, hi]
  · simp [State.consume, State.liveAt, Nat.le_of_not_lt hi]

theorem contains_singleton (t i : Nat) : [t].contains i = (i == t) := by
  rw [Bool.eq_iff_iff]
  simp

theorem explicitAt_consume (s : State) (dead : List Nat) {i : Nat} (hi : i < s.explicit.length) :
    (s.consume dead).explicitAt i = s.explicitAt i + ((dead.contains i).toNat : Int) := by
  simp [State.consume, State.explicitAt, hi]

theorem mem_victims {mutation : Bool} {token : Int} {i : Nat} :
    i ∈ s.victims mutation token ↔
      i < s.live.length ∧ s.liveAt i = true ∧ (mutation = true ∨ i = State.index token) := by
  simp [State.victims]

/-- The victims leave the live acquisitions, each counted once. -/
theorem count_consume (s : State) (mutation : Bool) (token : Int) :
    (s.consume (s.victims mutation token)).live.count true + (s.victims mutation token).length =
      s.live.count true := by
  rw [count_true_eq_countP, count_true_eq_countP s.live, length_consume, State.victims,
    ← List.countP_eq_length_filter, Nat.add_comm]
  rw [List.countP_eq_countP_filter_add (List.range s.live.length) (fun i => s.live.getD i false)
    (fun i => mutation || i == State.index token), List.countP_filter, List.countP_filter]
  congr 1
  refine List.countP_congr fun i hi => ?_
  have hlive := liveAt_consume s (s.victims mutation token) i
  change (s.consume (s.victims mutation token)).liveAt i = true ↔
    (s.liveAt i && !(mutation || i == State.index token)) = true
  rw [hlive]
  cases hl : s.liveAt i with
  | false => simp
  | true => simp [mem_victims, hl, List.mem_range.mp hi]

theorem index_lt_of_valid {token : Int} (hv : s.valid token = true) :
    State.index token < s.live.length ∧ s.liveAt (State.index token) = true := by
  simp only [State.valid, Bool.and_eq_true] at hv
  refine ⟨?_, hv.2⟩
  by_contra hge
  rw [State.liveAt, List.getD_eq_default _ _ (Nat.le_of_not_lt hge)] at hv
  cases hv.2

/-- The one victim of an unmutated release. -/
theorem victims_eq {token : Int} (hv : s.valid token = true) :
    s.victims false token = [State.index token] := by
  obtain ⟨hlt, hl⟩ := index_lt_of_valid hv
  have hone : (List.range s.live.length).count (State.index token) = 1 :=
    List.count_eq_one_of_mem List.nodup_range (List.mem_range.mpr hlt)
  have hfilter := List.filter_beq (l := List.range s.live.length) (State.index token)
  rw [hone] at hfilter
  rw [State.victims, List.replicate_one.symm, ← hfilter]
  refine List.filter_congr fun i _ => ?_
  by_cases hi : i = State.index token
  · subst hi
    simp [hl]
  · simp [hi]

theorem mapIdx_eq_set {α : Type} (l : List α) (i : Nat) (f : α → α) (d : α) :
    (l.mapIdx fun j x => if j = i then f x else x) = l.set i (f (l.getD i d)) := by
  refine List.ext_getElem (by simp) fun j hj hj' => ?_
  rw [List.getElem_mapIdx, List.getElem_set]
  by_cases hji : j = i
  · subst hji
    rw [if_pos rfl, if_pos rfl, List.getD_eq_getElem _ _ (by simpa using hj)]
  · rw [if_neg hji, if_neg (Ne.symm hji)]

/-- An unmutated release touches the cell of its own token only. -/
theorem consume_victims_eq {token : Int} (hv : s.valid token = true) :
    s.consume (s.victims false token) =
      { s with
        live := s.live.set (State.index token) false
        explicit := s.explicit.set (State.index token) (s.explicitAt (State.index token) + 1)
        refcount := s.refcount - 1 } := by
  have hlive := mapIdx_eq_set s.live (State.index token) (fun _ => false) false
  have hexp := mapIdx_eq_set s.explicit (State.index token) (· + 1) 0
  rw [victims_eq hv, State.consume]
  congr 1
  · rw [← hlive]
    refine congrArg (List.mapIdx · s.live) (funext fun i => funext fun b => ?_)
    by_cases hi : i = State.index token <;> simp [hi]
  · rw [State.explicitAt, ← hexp]
    refine congrArg (List.mapIdx · s.explicit) (funext fun i => funext fun n => ?_)
    by_cases hi : i = State.index token <;> simp [hi]

theorem liveAt_acquire (s : State) (r i : Nat) :
    (s.acquire r).liveAt i = if i = s.live.length then true else s.liveAt i := by
  simp only [State.acquire, State.liveAt, List.getD_eq_getElem?_getD]
  rcases Nat.lt_trichotomy i s.live.length with hi | rfl | hi
  · rw [if_neg (Nat.ne_of_lt hi), List.getElem?_append_left hi]
  · simp
  · simp [Nat.ne_of_gt hi, List.getElem?_eq_none (Nat.le_of_lt hi),
      List.getElem?_eq_none (show (s.live ++ [true]).length ≤ i by simp; omega)]

/-- A zero appended to a list of counters is read like the default. -/
theorem getD_append_zero (l : List Int) (i : Nat) : (l ++ [0]).getD i 0 = l.getD i 0 := by
  simp only [List.getD_eq_getElem?_getD]
  rcases Nat.lt_trichotomy i l.length with hi | rfl | hi
  · rw [List.getElem?_append_left hi]
  · simp
  · simp [List.getElem?_eq_none (Nat.le_of_lt hi),
      List.getElem?_eq_none (show (l ++ [0]).length ≤ i by simp; omega)]

theorem explicitAt_acquire (s : State) (r i : Nat) :
    (s.acquire r).explicitAt i = s.explicitAt i := getD_append_zero s.explicit i

theorem cleanupAt_acquire (s : State) (r i : Nat) :
    (s.acquire r).cleanupAt i = s.cleanupAt i := getD_append_zero s.cleanup i

end Targets

/-! ### Every edge keeps the invariant -/

namespace WellFormed

variable {s : State} {capacity : Nat}

theorem reg_bounds (h : WellFormed s capacity) (r : Nat) :
    0 ≤ s.reg r ∧ s.reg r ≤ s.live.length := by
  by_cases hr : r < s.registers.length
  · rw [State.reg, List.getD_eq_getElem _ _ hr]
    exact h.regs _ (List.getElem_mem hr)
  · rw [State.reg, List.getD_eq_default _ _ (by omega)]
    omega

theorem slot_bounds (h : WellFormed s capacity) (i : Nat) :
    0 ≤ s.slot i ∧ s.slot i ≤ s.live.length := by
  by_cases hi : i < s.spills.length
  · rw [State.slot, List.getD_eq_getElem _ _ hi]
    exact h.spills _ (List.getElem_mem hi)
  · rw [State.slot, List.getD_eq_default _ _ (by omega)]
    omega

theorem fresh (h : WellFormed s capacity) {i : Nat} (hi : s.live.length ≤ i) :
    s.liveAt i = false ∧ s.explicitAt i = 0 ∧ s.cleanupAt i = 0 := by
  have he := h.explicit_length
  have hc := h.cleanup_length
  exact ⟨List.getD_eq_default _ _ hi, List.getD_eq_default _ _ (by omega),
    List.getD_eq_default _ _ (by omega)⟩

theorem setReg (h : WellFormed s capacity) {r : Nat} (hr : r < s.registers.length) {t : Int}
    (ht : 0 ≤ t ∧ t ≤ s.live.length) : WellFormed (s.setReg r t) capacity where
  __ := h
  regs := by
    intro u hu
    rw [State.setReg, updated_eq_set _ hr] at hu
    rcases List.mem_or_eq_of_mem_set hu with hu | rfl
    · exact h.regs u hu
    · exact ht

theorem setSpill (h : WellFormed s capacity) {i : Nat} (hi : i < s.spills.length) {t : Int}
    (ht : 0 ≤ t ∧ t ≤ s.live.length) : WellFormed (s.setSpill i t) capacity where
  __ := h
  spills := by
    intro u hu
    rw [State.setSpill, updated_eq_set _ hi] at hu
    rcases List.mem_or_eq_of_mem_set hu with hu | rfl
    · exact h.spills u hu
    · exact ht

/-- Termination gives every live acquisition its one cleanup effect. -/
theorem terminate (h : WellFormed s capacity) {reason : Terminal} (hreason : reason ≠ .active) :
    WellFormed (s.terminate reason) capacity := by
  have hcells : ∀ i < (s.terminate reason).live.length,
      (s.terminate reason).explicitAt i + (s.terminate reason).cleanupAt i =
        if (s.terminate reason).liveAt i then 0 else 1 := by
    intro i hi
    have hcell := h.cells i (by simpa using hi)
    rw [cleanupAt_terminate h.cleanup_length, liveAt_terminate]
    change s.explicitAt i + _ = _
    cases hl : s.liveAt i <;> simp [hl] at hcell ⊢ <;> omega
  have he : (s.terminate reason).explicit.length = (s.terminate reason).live.length := by
    simpa using h.explicit_length
  have hc : (s.terminate reason).cleanup.length = (s.terminate reason).live.length := by
    simp [State.terminate, h.cleanup_length]
  have hrefs : (s.terminate reason).refcount = 1 + ((s.terminate reason).live.count true : Int) := by
    have := h.refs
    rw [count_terminate]
    simp only [State.terminate]
    omega
  exact {
    budget := by simpa using h.budget
    explicit_length := he
    cleanup_length := hc
    regs := by simpa using h.regs
    spills := by
      rw [spills_terminate, length_terminate]
      exact h.spills
    explicit_nonneg := h.explicit_nonneg
    cleanup_nonneg := by
      rw [forall_mem_iff_getD (d := 0)]
      intro i hi
      have hnn := forall_mem_iff_getD (d := 0).mp h.cleanup_nonneg i
        (by rw [hc, length_terminate] at hi; rwa [h.cleanup_length])
      have := cleanupAt_terminate h.cleanup_length reason i
      change 0 ≤ (s.terminate reason).cleanupAt i
      change 0 ≤ s.cleanupAt i at hnn
      omega
    cells := hcells
    accounting := accounting_of_cells he hc hcells hrefs
    refs := hrefs
    terminal_done := fun _ => count_terminate s reason
    active_clean := fun ha => absurd ha hreason }

/-- A release consumes its victims, all of them live before. -/
theorem consume (h : WellFormed s capacity) (ha : s.terminal = .active) (mutation : Bool)
    (token : Int) : WellFormed (s.consume (s.victims mutation token)) capacity := by
  have he : (s.consume (s.victims mutation token)).explicit.length =
      (s.consume (s.victims mutation token)).live.length := by
    simp [State.consume, h.explicit_length]
  have hc : (s.consume (s.victims mutation token)).cleanup.length =
      (s.consume (s.victims mutation token)).live.length := by
    rw [cleanup_consume, length_consume]
    exact h.cleanup_length
  have hcells : ∀ i < (s.consume (s.victims mutation token)).live.length,
      (s.consume (s.victims mutation token)).explicitAt i +
        (s.consume (s.victims mutation token)).cleanupAt i =
        if (s.consume (s.victims mutation token)).liveAt i then 0 else 1 := by
    intro i hi
    rw [length_consume] at hi
    have hcell := h.cells i hi
    rw [explicitAt_consume s _ (h.explicit_length ▸ hi), liveAt_consume]
    change s.explicitAt i + _ + s.cleanupAt i = _
    by_cases hd : i ∈ s.victims mutation token
    · have hl := (mem_victims.mp hd).2.1
      simp [hd, hl] at hcell ⊢
      omega
    · simpa [hd] using hcell
  have hrefs : (s.consume (s.victims mutation token)).refcount =
      1 + ((s.consume (s.victims mutation token)).live.count true : Int) := by
    have hcount := count_consume s mutation token
    have := h.refs
    simp only [State.consume] at hcount ⊢
    omega
  exact {
    budget := by simpa using h.budget
    explicit_length := he
    cleanup_length := hc
    regs := by
      rw [registers_consume, length_consume]
      exact h.regs
    spills := by
      rw [spills_consume, length_consume]
      exact h.spills
    explicit_nonneg := by
      rw [forall_mem_iff_getD (d := 0)]
      intro i hi
      have hi' : i < s.explicit.length := by simpa [State.consume] using hi
      have hnn := forall_mem_iff_getD (d := 0).mp h.explicit_nonneg i hi'
      have := explicitAt_consume s (s.victims mutation token) hi'
      change 0 ≤ (s.consume (s.victims mutation token)).explicitAt i
      change 0 ≤ s.explicitAt i at hnn
      omega
    cleanup_nonneg := h.cleanup_nonneg
    cells := hcells
    accounting := accounting_of_cells he hc hcells hrefs
    refs := hrefs
    terminal_done := fun hne => absurd ha hne
    active_clean := h.active_clean }

/-- An acquisition below the capacity adds one live cell without effects. -/
theorem acquire (h : WellFormed s capacity) (ha : s.terminal = .active)
    (hlt : s.live.length < capacity) {r : Nat} (hr : r < s.registers.length) :
    WellFormed (s.acquire r) capacity := by
  have hlen : (s.acquire r).live.length = s.live.length + 1 := by simp [State.acquire]
  have he : (s.acquire r).explicit.length = (s.acquire r).live.length := by
    simp [State.acquire, h.explicit_length]
  have hc : (s.acquire r).cleanup.length = (s.acquire r).live.length := by
    simp [State.acquire, h.cleanup_length]
  have hcells : ∀ i < (s.acquire r).live.length,
      (s.acquire r).explicitAt i + (s.acquire r).cleanupAt i =
        if (s.acquire r).liveAt i then 0 else 1 := by
    intro i hi
    rw [explicitAt_acquire, cleanupAt_acquire, liveAt_acquire]
    by_cases hin : i = s.live.length
    · obtain ⟨_, he0, hc0⟩ := h.fresh (Nat.le_of_eq hin.symm)
      simp [hin ▸ he0, hin ▸ hc0, hin]
    · rw [if_neg hin]
      exact h.cells i (by omega)
  have hrefs : (s.acquire r).refcount = 1 + ((s.acquire r).live.count true : Int) := by
    have := h.refs
    simp [State.acquire]
    omega
  exact {
    budget := by omega
    explicit_length := he
    cleanup_length := hc
    regs := by
      intro t ht
      rw [State.acquire, updated_eq_set _ hr] at ht
      rw [hlen]
      rcases List.mem_or_eq_of_mem_set ht with ht | rfl
      · have := h.regs t ht
        omega
      · omega
    spills := by
      intro t ht
      have := h.spills t ht
      rw [hlen]
      omega
    explicit_nonneg := by simpa [State.acquire, or_imp, forall_and] using h.explicit_nonneg
    cleanup_nonneg := by simpa [State.acquire, or_imp, forall_and] using h.cleanup_nonneg
    cells := hcells
    accounting := accounting_of_cells he hc hcells hrefs
    refs := hrefs
    terminal_done := fun hne => absurd ha hne
    active_clean := fun _ => by
      simpa [State.acquire, or_imp, forall_and] using h.active_clean ha }

end WellFormed

theorem readReason_ne_active (token : Int) : readReason token ≠ .active := by
  unfold readReason
  split <;> simp

theorem releaseReason_ne_active (token : Int) : releaseReason token ≠ .active := by
  unfold releaseReason
  split <;> simp

/-- Every edge, mutated or not, keeps the invariant. -/
theorem WellFormed.edge {s : State} {capacity : Nat} {mutation : Bool} {e : Edge}
    (h : WellFormed s capacity) (ha : s.terminal = .active) (he : Yields s capacity mutation e) :
    WellFormed e.target capacity := by
  cases he with
  | acquire r hr =>
    unfold acquireEdge
    split
    · exact h.terminate (by simp)
    · have := h.budget
      exact h.acquire ha (by omega) hr
  | acquireNull r hr => exact h.setReg hr ⟨Int.le_refl 0, by omega⟩
  | copy dst src hd _ => exact h.setReg hd (h.reg_bounds src)
  | reload dst slot hd _ => exact h.setReg hd (h.slot_bounds slot)
  | spill slot r hs _ => exact h.setSpill hs (h.reg_bounds r)
  | read r hr =>
    simp only [readEdge]
    split
    · exact h
    · exact h.terminate (readReason_ne_active _)
  | release r hr =>
    simp only [releaseEdge]
    split
    · exact h.consume ha mutation _
    · exact h.terminate (releaseReason_ne_active _)
  | finish => exact h.terminate (by simp)

theorem wellFormed_initial (registers spills capacity : Nat) :
    WellFormed (State.initial registers spills) capacity where
  budget := Nat.zero_le _
  explicit_length := rfl
  cleanup_length := rfl
  regs := by
    intro t ht
    simp [List.eq_of_mem_replicate ht, State.initial]
  spills := by
    intro t ht
    simp [List.eq_of_mem_replicate ht, State.initial]
  explicit_nonneg := by simp [State.initial]
  cleanup_nonneg := by simp [State.initial]
  cells := fun i hi => absurd hi (Nat.not_lt_zero i)
  accounting := rfl
  refs := rfl
  terminal_done := fun h => absurd rfl h
  active_clean := by simp [State.initial]

/-- The invariant holds of every reachable state, at every bound. -/
theorem wellFormed_of_reachable {registers spills capacity : Nat} {mutation : Bool} {s : State}
    (h : Reachable registers spills capacity mutation s) : WellFormed s capacity := by
  induction h with
  | refl => exact wellFormed_initial registers spills capacity
  | tail _ hstep ih =>
    obtain ⟨e, he, rfl⟩ := hstep
    obtain ⟨ha, hy⟩ := mem_transitions.mp he
    exact ih.edge ha hy

end Cbpf.Model
