import Cbpf.Conformance.Coverage

/-!
# The recorded coverage (`docs/results/conformance.md`, "Recorded coverage")

The sums over the nodes of the search are sums over the active states of the model, which are counted
by their shapes. A dictionary that `check` returns is the recorded one, for any host; the reference
and the gate return it.
-/

namespace Cbpf.Conformance

open Model Finset

/-! ### Counting branches -/

/-- Registers of a kind over all active states; `size n c` is the number of tokens of the kind when
`c` of `n` acquisitions are consumed. -/
def hitCount (size : Nat → Nat → Nat) (registers spills capacity : Nat) : Nat :=
  ∑ n ∈ range (capacity + 1), ∑ c ∈ range (n + 1),
    n.choose c * (registers * (size n c * (n + 1) ^ (registers - 1)) * (n + 1) ^ spills)

/-- The tokens for which a branch goes one way. -/
def branchTokens {n : Nat} (b : Branch) (D : Finset (Fin n)) : Finset (Fin (n + 1)) :=
  match b with
  | .null => {0}
  | .consumed => D.map (Fin.succEmb n)
  | .live => Dᶜ.map (Fin.succEmb n)

/-- How many tokens these are. -/
def Branch.tokens (n c : Nat) : Branch → Nat
  | .null => 1
  | .consumed => c
  | .live => n - c

theorem card_branchTokens {n : Nat} (b : Branch) (D : Finset (Fin n)) :
    (branchTokens b D).card = b.tokens n D.card := by
  cases b with
  | null => rfl
  | consumed => exact card_map _
  | live => rw [branchTokens, card_map, card_compl, Fintype.card_fin, Branch.tokens]

theorem reg_state {registers spills n : Nat} (x : Shape registers spills n) (r : Fin registers) :
    x.state.reg r = (x.2.1 r : Nat) := by
  simp [Shape.state, State.ofAliases, State.reg, Model.tokens]

theorem liveAt_state {registers spills n : Nat} (x : Shape registers spills n) (i : Fin n) :
    x.state.liveAt i = decide (i ∉ x.1) := by
  simp [Shape.state, State.ofAliases, State.liveAt]

theorem branchOf_state {registers spills n : Nat} (x : Shape registers spills n)
    (r : Fin registers) (b : Branch) :
    branchOf x.state r = b ↔ x.2.1 r ∈ branchTokens b x.1 := by
  rw [branchOf, reg_state]
  cases htoken : x.2.1 r using Fin.cases with
  | zero => cases b <;> simp [branchTokens]
  | succ i =>
    have hne : (((Fin.succ i : Fin (n + 1)) : Nat) : Int) ≠ 0 := by
      simp
      omega
    have hindex : State.index (((Fin.succ i : Fin (n + 1)) : Nat) : Int) = i := by
      simp [State.index]
    rw [if_neg hne, hindex, liveAt_state]
    by_cases hi : i ∈ x.1 <;> cases b <;> simp [branchTokens, hi]

theorem countP_range {n : Nat} (P : Nat → Bool) :
    (List.range n).countP P = (univ.filter fun r : Fin n => P r).card := by
  rw [card_filter, ← Finset.sum_range fun r => if P r then 1 else 0, ← card_filter,
    List.countP_eq_length_filter, ← List.toFinset_card_of_nodup (List.nodup_range.filter P)]
  congr 1
  ext r
  simp

/-- The registers of one kind, over the active states of the model. -/
theorem sum_branchCount (b : Branch) : ∑ s ∈ endings 4 2 2 .active, branchCount b s =
    hitCount (fun n c => b.tokens n c) 4 2 2 := by
  rw [sum_active, hitCount]
  refine sum_congr rfl fun n _ => ?_
  have hcount : ∀ x : Shape 4 2 n, branchCount b x.state =
      (univ.filter fun r => x.2.1 r ∈ branchTokens b x.1).card := by
    intro x
    rw [branchCount, countP_range]
    congr 1
    ext r
    simp [branchOf_state]
  simp only [hcount]
  rw [sum_hits]
  simp only [card_branchTokens]
  have hsum := sum_powerset_apply_card (fun c =>
    4 * (b.tokens n c * (n + 1) ^ (4 - 1)) * (n + 1) ^ 2) (x := (univ : Finset (Fin n)))
  simpa only [powerset_univ, card_univ, Fintype.card_fin, smul_eq_mul] using hsum

/-! ### Counting outcomes -/

theorem countP_pairs {α β : Type} (q : β → Bool) (a b : α → β) (l : List α) :
    (l.flatMap fun x => [a x, b x]).countP q = l.countP (q ∘ a) + l.countP (q ∘ b) := by
  induction l with
  | nil => rfl
  | cons x l ih =>
    rw [List.flatMap_cons, List.countP_append, ih, List.countP_cons, List.countP_cons,
      List.countP_cons, List.countP_cons, List.countP_nil]
    simp only [Function.comp_apply]
    omega

section Outcomes

variable {s : State}

theorem outcomeOf_active {e : Edge} (h : e.target.terminal = .active) : outcomeOf e = .ret := if_pos h

theorem outcomeOf_acquireEdge (ha : s.terminal = .active) (r : Nat) :
    outcomeOf (acquireEdge s 2 r) = if s.live.length = 2 then .exhaustion else .ret := by
  rw [acquireEdge]
  split
  · rfl
  · exact outcomeOf_active ha

/-- How the branch on a register tells a use of it. -/
theorem valid_iff_branchOf (r : Nat) : s.valid (s.reg r) = true ↔ branchOf s r = .live := by
  rw [State.valid, branchOf]
  by_cases h0 : s.reg r = 0
  · simp [h0]
  · cases s.liveAt (State.index (s.reg r)) <;> simp [h0]

theorem outcomeOf_readEdge (ha : s.terminal = .active) (r : Nat) :
    outcomeOf (readEdge s r) = match branchOf s r with
      | .live => .ret
      | .null => .nullRead
      | .consumed => .staleRead := by
  have hv := valid_iff_branchOf (s := s) r
  by_cases hlive : branchOf s r = .live
  · have hvalid := hv.mpr hlive
    have hactive : (readEdge s r).target.terminal = .active := by simpa [readEdge, hvalid] using ha
    rw [outcomeOf_active hactive, hlive]
  · have hinvalid : s.valid (s.reg r) = false := Bool.eq_false_iff.mpr fun h => hlive (hv.mp h)
    have htarget : (readEdge s r).target = s.terminate (readReason (s.reg r)) := by
      simp [readEdge, hinvalid]
    rw [outcomeOf, htarget, terminal_terminate, if_neg (readReason_ne_active _), readReason]
    rw [branchOf] at hlive ⊢
    by_cases h0 : s.reg r = 0
    · simp [h0]
    · cases hl : s.liveAt (State.index (s.reg r)) with
      | true => simp [h0, hl] at hlive
      | false => simp [h0]

theorem outcomeOf_releaseEdge (ha : s.terminal = .active) (r : Nat) :
    outcomeOf (releaseEdge s false r) = match branchOf s r with
      | .live => .ret
      | .null => .nullRelease
      | .consumed => .staleRelease := by
  have hv := valid_iff_branchOf (s := s) r
  by_cases hlive : branchOf s r = .live
  · have hvalid := hv.mpr hlive
    have hactive : (releaseEdge s false r).target.terminal = .active := by
      simpa [releaseEdge, hvalid] using ha
    rw [outcomeOf_active hactive, hlive]
  · have hinvalid : s.valid (s.reg r) = false := Bool.eq_false_iff.mpr fun h => hlive (hv.mp h)
    have htarget : (releaseEdge s false r).target = s.terminate (releaseReason (s.reg r)) := by
      simp [releaseEdge, hinvalid]
    rw [outcomeOf, htarget, terminal_terminate, if_neg (releaseReason_ne_active _), releaseReason]
    rw [branchOf] at hlive ⊢
    by_cases h0 : s.reg r = 0
    · simp [h0]
    · cases hl : s.liveAt (State.index (s.reg r)) with
      | true => simp [h0, hl] at hlive
      | false => simp [h0]

/-- Only acquisitions, reads and releases end a program with something else than a return. -/
theorem outcomeCount_eq (ha : s.terminal = .active) (hregs : s.registers.length = 4) {T : Terminal}
    (hT : T ≠ .ret) :
    outcomeCount T s = (if s.live.length = 2 ∧ T = .exhaustion then 4 else 0) +
      ((List.range 4).countP (fun r => outcomeOf (readEdge s r) = T) +
        (List.range 4).countP fun r => outcomeOf (releaseEdge s false r) = T) := by
  have hret : ∀ {l : List Edge}, (∀ e ∈ l, outcomeOf e = .ret) →
      l.countP (outcomeOf · = T) = 0 := by
    intro l hl
    refine List.countP_eq_zero.mpr fun e he => ?_
    simp [hl e he, Ne.symm hT]
  have haliases : ∀ {l : List Edge}, (∀ e ∈ l, e.target.terminal = s.terminal) →
      l.countP (outcomeOf · = T) = 0 :=
    fun hl => hret fun e he => outcomeOf_active ((hl e he).trans ha)
  have hcopies : ((List.range 4).flatMap fun dst => (List.range 4).map (copyEdge s dst) ++
      (List.range s.spills.length).map (reloadEdge s dst)).countP (outcomeOf · = T) = 0 := by
    refine haliases fun e he => ?_
    obtain ⟨dst, _, he⟩ := List.mem_flatMap.mp he
    rcases List.mem_append.mp he with he | he <;>
      · obtain ⟨_, _, rfl⟩ := List.mem_map.mp he
        rfl
  have hspills : ((List.range s.spills.length).flatMap fun slot =>
      (List.range 4).map (spillEdge s slot)).countP (outcomeOf · = T) = 0 := by
    refine haliases fun e he => ?_
    obtain ⟨slot, _, he⟩ := List.mem_flatMap.mp he
    obtain ⟨_, _, rfl⟩ := List.mem_map.mp he
    rfl
  have hfinish : [finishEdge s].countP (outcomeOf · = T) = 0 := by
    refine hret fun e he => ?_
    rw [List.mem_singleton.mp he]
    rfl
  have hnulls : (sortedRegisters s).countP ((fun e => decide (outcomeOf e = T)) ∘ acquireNullEdge s) =
      0 := by
    refine List.countP_eq_zero.mpr fun r _ => ?_
    simp [outcomeOf_active (e := acquireNullEdge s r) ha, Ne.symm hT]
  have hacquires : (sortedRegisters s).countP ((fun e => decide (outcomeOf e = T)) ∘ acquireEdge s 2) =
      if s.live.length = 2 ∧ T = .exhaustion then 4 else 0 := by
    have hlength : (sortedRegisters s).length = 4 := by
      rw [sortedRegisters, List.length_insertionSort, List.length_range, hregs]
    split
    · rename_i h
      rw [List.countP_eq_length.mpr, hlength]
      intro r _
      simp [outcomeOf_acquireEdge ha, h.1, h.2]
    · rename_i h
      refine List.countP_eq_zero.mpr fun r _ => ?_
      simp only [Function.comp_apply, outcomeOf_acquireEdge ha, decide_eq_true_eq]
      split
      · exact fun heq => h ⟨by assumption, heq.symm⟩
      · exact Ne.symm hT
  rw [outcomeCount, transitions, if_neg (not_not.mpr ha)]
  simp only [List.countP_append, countP_pairs, hregs, hcopies, hspills, hfinish, hnulls, hacquires]
  rfl

/-- The uses that end with `T`, of an operation that ends with `null` or `stale`. -/
theorem countP_uses {null stale T : Terminal} (hT : T ≠ .ret) (hne : null ≠ stale)
    {f : Nat → Terminal} (hf : ∀ r, f r = match branchOf s r with
      | .live => .ret
      | .null => null
      | .consumed => stale) :
    (List.range 4).countP (fun r => f r = T) = (if null = T then branchCount .null s else 0) +
      if stale = T then branchCount .consumed s else 0 := by
  by_cases hnull : null = T
  · subst hnull
    rw [if_pos rfl, if_neg (Ne.symm hne), Nat.add_zero, branchCount]
    refine List.countP_congr fun r _ => ?_
    simp only [hf, decide_eq_true_eq]
    cases branchOf s r <;> simp [Ne.symm hT, Ne.symm hne]
  · rw [if_neg hnull, Nat.zero_add]
    by_cases hstale : stale = T
    · subst hstale
      rw [if_pos rfl, branchCount]
      refine List.countP_congr fun r _ => ?_
      simp only [hf, decide_eq_true_eq]
      cases branchOf s r <;> simp [Ne.symm hT, hne]
    · rw [if_neg hstale]
      refine List.countP_eq_zero.mpr fun r _ => ?_
      simp only [hf, decide_eq_true_eq]
      cases branchOf s r <;> simp [Ne.symm hT, hnull, hstale]

/-- Each outcome but a return, in terms of the branches. -/
theorem outcomeCount_uses (ha : s.terminal = .active) (hregs : s.registers.length = 4) {T : Terminal}
    (hT : T ≠ .ret) :
    outcomeCount T s = (if s.live.length = 2 ∧ T = .exhaustion then 4 else 0) +
      ((if .nullRead = T then branchCount .null s else 0) +
        (if .staleRead = T then branchCount .consumed s else 0) +
      ((if .nullRelease = T then branchCount .null s else 0) +
        if .staleRelease = T then branchCount .consumed s else 0)) := by
  rw [outcomeCount_eq ha hregs hT, countP_uses hT (by simp) (outcomeOf_readEdge ha),
    countP_uses hT (by simp) (outcomeOf_releaseEdge ha)]

end Outcomes

/-! ### The recorded dictionary -/

/-- How often each way of a branch was taken. -/
def recordedBranches : Branch → Nat
  | .consumed => 4016
  | .live => 4016
  | .null => 4148

/-- How often a program ended with each outcome. -/
def recordedOutcomes : Terminal → Nat
  | .ret => 121213
  | .exhaustion => 11664
  | .nullRead | .nullRelease => 4148
  | .staleRead | .staleRelease => 4016
  | .active | .other _ => 0

def recorded : Report where
  activeStates := 3045
  reachableStates := 17828
  terminalStates := 14783
  modelEdges := 149205
  branchCases := recordedBranches
  scalarBoundaryCases := 4
  programsCompared := 161389
  maximumGeneratedInstructions := 12
  terminalOutcomes := recordedOutcomes

theorem hitCount_recorded (b : Branch) :
    hitCount (fun n c => b.tokens n c) 4 2 2 = recordedBranches b := by
  cases b <;> simp [hitCount, sum_range_succ, Branch.tokens, recordedBranches, Nat.choose]

/-- The active states with two acquisitions. -/
theorem sum_full : ∑ s ∈ endings 4 2 2 .active, (if s.live.length = 2 then 4 else 0) = 11664 := by
  rw [sum_active]
  simp only [length_live_state, sum_const, card_univ, card_shape, smul_eq_mul]
  simp

theorem mem_active {s : State} (hs : s ∈ endings 4 2 2 .active) :
    Described 4 2 2 s ∧ s.terminal = .active := mem_endings.mp hs

theorem card_active : (endings 4 2 2 .active).card = 3045 := by
  rw [card_endings_eq]
  simp [countOf, activeCount, sum_range_succ]

theorem sum_length : ∑ s ∈ endings 4 2 2 .active, (transitions s 2 false).length = 149205 := by
  have hdegree : ∀ s ∈ endings 4 2 2 .active, (transitions s 2 false).length = outDegree 4 2 := by
    intro s hs
    obtain ⟨hdescribed, ha⟩ := mem_active hs
    rw [length_transitions ha, hdescribed.registers_length, hdescribed.spills_length]
  rw [sum_congr rfl hdegree, sum_const, card_endings_eq]
  simp [countOf, activeCount, outDegree, sum_range_succ]

/-- All outcomes but a return. -/
theorem sum_outcomeCount_uses {T : Terminal} (hT : T ≠ .ret) :
    ∑ s ∈ endings 4 2 2 .active, outcomeCount T s = recordedOutcomes T := by
  have huses : ∀ s ∈ endings 4 2 2 .active, outcomeCount T s = _ := fun s hs =>
    outcomeCount_uses (mem_active hs).2 (mem_active hs).1.registers_length hT
  rw [sum_congr rfl huses]
  have hnull := (sum_branchCount .null).trans (hitCount_recorded .null)
  have hconsumed := (sum_branchCount .consumed).trans (hitCount_recorded .consumed)
  have hfull := sum_full
  cases T <;> simp_all [recordedOutcomes, recordedBranches]

/-- Every program has one outcome. -/
theorem length_eq_sum_countP (es : List Edge) (h : ∀ e ∈ es, outcomeOf e ∈ terminals.tail) :
    es.length = (terminals.tail.map fun T => es.countP (outcomeOf · = T)).sum := by
  induction es with
  | nil => simp [terminals]
  | cons e es ih =>
    have htail := ih fun e' he' => h e' (List.mem_cons_of_mem e he')
    have hhead := h e List.mem_cons_self
    simp only [terminals, List.tail_cons, List.map_cons, List.map_nil, List.sum_cons, List.sum_nil,
      List.countP_cons, List.mem_cons, List.not_mem_nil, or_false, List.length_cons] at htail hhead ⊢
    rcases hhead with h | h | h | h | h | h <;> simp [h] <;> omega

theorem outcomeOf_mem {s : State} {e : Edge} (hs : s.terminal = .active)
    (he : e ∈ transitions s 2 false) : outcomeOf e ∈ terminals.tail := by
  have hmem := (mem_transitions.mp he).2.terminal_mem hs
  rw [outcomeOf]
  split
  · simp [terminals]
  · rename_i ha
    simp only [terminals, List.tail_cons, List.mem_cons, List.not_mem_nil, or_false] at hmem ⊢
    exact hmem.resolve_left ha

/-- The outcomes of the edges of a state, which are the returns and the others. -/
theorem length_eq_sum_outcomeCount {s : State} (hs : s.terminal = .active) :
    (transitions s 2 false).length =
      outcomeCount .ret s + (terminals.tail.tail.map fun T => outcomeCount T s).sum := by
  simp only [outcomeCount]
  exact length_eq_sum_countP _ fun e he => outcomeOf_mem hs he

/-- The same over any set of active states: the kernel would unfold `endings` here. -/
theorem sum_length_eq {S : Finset State} (hS : ∀ s ∈ S, s.terminal = .active) :
    ∑ s ∈ S, (transitions s 2 false).length = ∑ s ∈ S, outcomeCount .ret s +
      ∑ s ∈ S, (terminals.tail.tail.map fun T => outcomeCount T s).sum :=
  (sum_congr rfl fun s hs => length_eq_sum_outcomeCount (hS s hs)).trans sum_add_distrib

theorem sum_others {l : List Terminal} (hl : ∀ T ∈ l, T ≠ .ret) :
    ∑ s ∈ endings 4 2 2 .active, (l.map fun T => outcomeCount T s).sum =
      (l.map recordedOutcomes).sum := by
  induction l with
  | nil => simp
  | cons T l ih =>
    simp only [List.map_cons, List.sum_cons, sum_add_distrib]
    rw [sum_outcomeCount_uses (hl T List.mem_cons_self),
      ih fun T' hT' => hl T' (List.mem_cons_of_mem T hT')]

/-- The returns are what is left. -/
theorem sum_returns : ∑ s ∈ endings 4 2 2 .active, outcomeCount .ret s = recordedOutcomes .ret := by
  have hsplit := sum_length_eq (S := endings 4 2 2 .active) fun s hs => (mem_active hs).2
  have hall : 149205 = recordedOutcomes .ret + (terminals.tail.tail.map recordedOutcomes).sum := by
    simp [recordedOutcomes, terminals]
  rw [sum_others (l := terminals.tail.tail) (by simp [terminals])] at hsplit
  exact Nat.add_right_cancel (hsplit.symm.trans (sum_length.trans hall))

theorem sum_outcomeCount (T : Terminal) :
    ∑ s ∈ endings 4 2 2 .active, outcomeCount T s = recordedOutcomes T := by
  by_cases hT : T = .ret
  · rw [hT, sum_returns]
  · exact sum_outcomeCount_uses hT

section Answer

variable {host : Host} {order : List Replay} {seen : List State} {t : Tally}

/-- What the search has worked on, when it ends. -/
abbrev Covered (host : Host) (order : List Replay) (seen : List State) (t : Tally) : Prop :=
  (checker host).Finished startRun .zero (fun run => run.code.length) order seen t

/-- One node for each active state. -/
theorem nodes_eq (hb : host.Documented) (h : Covered host order seen t) :
    (order.map Replay.state).Nodup ∧
      (order.map Replay.state).toFinset = endings 4 2 2 .active := by
  refine ⟨h.keys ▸ h.nodup, ?_⟩
  ext s
  rw [List.mem_toFinset, List.mem_map, mem_endings]
  constructor
  · rintro ⟨run, hrun, rfl⟩
    obtain ⟨path, hfollows⟩ := follows_of_reached hb (h.soonest run hrun).1
    exact ⟨described_of_reachable hfollows.history.reachable, hfollows.active⟩
  · rintro ⟨hdescribed, ha⟩
    have hbudget := (stateError_eq_none.mp hdescribed.passes).budget
    obtain ⟨path, hpath, _⟩ := hdescribed.active_history ha (by omega)
    obtain ⟨run, hrun, rfl, _⟩ := reached_of_path hb hpath ha
    exact h.covers run hrun

theorem sum_nodes (hb : host.Documented) (h : Covered host order seen t) (f : State → Nat) :
    (order.map fun run => f run.state).sum = ∑ s ∈ endings 4 2 2 .active, f s := by
  obtain ⟨hnodup, hset⟩ := nodes_eq hb h
  rw [← hset, List.sum_toFinset _ hnodup, List.map_map]
  rfl

/-- The terminal states behind the nodes are those of the model. -/
theorem card_terminals (hb : host.Documented) (h : Covered host order seen t)
    (htallied : Tallied order t) : t.terminalStates.card = 14783 := by
  have hset := (nodes_eq hb h).2
  have hnode : ∀ s, (∃ run ∈ order, run.state = s) ↔ Described 4 2 2 s ∧ s.terminal = .active := by
    intro s
    rw [← mem_endings, ← hset, List.mem_toFinset, List.mem_map]
  have hmem : ∀ s, s ∈ endings 4 2 2 .active ∪ t.terminalStates ↔ Described 4 2 2 s := by
    intro s
    rw [mem_union, mem_endings, htallied.terminals]
    constructor
    · rintro (⟨hdescribed, _⟩ | ⟨run, hrun, e, he, rfl, _⟩)
      · exact hdescribed
      · obtain ⟨path, hfollows⟩ := follows_of_reached hb (h.soonest run hrun).1
        exact described_of_reachable (hfollows.history.snoc he).reachable
    · intro hdescribed
      by_cases ha : s.terminal = .active
      · exact .inl ⟨hdescribed, ha⟩
      · obtain ⟨hrevived, e, he, htarget⟩ := hdescribed.last_edge ha
        obtain ⟨run, hrun, hstate⟩ := (hnode s.revived).mpr ⟨hrevived, rfl⟩
        exact .inr ⟨run, hrun, e, hstate ▸ he, htarget, ha⟩
  have hcard := (card_described 4 2 2 hmem).2
  have hcount : terminalCount 4 2 2 = 14783 := by
    simp [terminalCount, activeCount, exhaustionCount, nullCount, staleCount, sum_range_succ,
      Nat.choose]
  have hfilter : ((endings 4 2 2 .active ∪ t.terminalStates).filter fun s => s.terminal ≠ .active) =
      t.terminalStates := by
    ext s
    rw [mem_filter, mem_union]
    constructor
    · rintro ⟨hs | hs, hne⟩
      · exact absurd (mem_active hs).2 hne
      · exact hs
    · intro hs
      obtain ⟨_, _, _, _, _, hne⟩ := (htallied.terminals s).mp hs
      exact ⟨.inr hs, hne⟩
  rw [hfilter, hcount] at hcard
  exact hcard

/-- The deepest node. -/
theorem maxLength_eq (hb : host.Documented) (h : Covered host order seen t)
    (htallied : Tallied order t) : t.maxLength = 12 := by
  refine Nat.le_antisymm ((htallied.length 12).mpr fun run hrun => ?_) ?_
  · have := depth_le_of_soonest hb (h.soonest run hrun)
    omega
  · obtain ⟨s, hreach, ha, hdeep⟩ := exists_deep 4 2 2 (by decide) (by decide)
    obtain ⟨path, hpath⟩ := reachable_iff_path.mp hreach
    obtain ⟨run', hrun', hstate, _⟩ := reached_of_path hb hpath ha
    obtain ⟨run, hrun, hkey⟩ := h.covers run' hrun'
    obtain ⟨path', hfollows⟩ := follows_of_reached hb (h.soonest run hrun).1
    have hsame : run.state = s := Eq.trans hkey hstate
    have hle := hdeep path' (hsame ▸ hfollows.history)
    have hlen := hfollows.length
    have := (htallied.length t.maxLength).mp (Nat.le_refl _) run hrun
    omega

/-- The dictionary does not depend on the host. -/
theorem report_eq (hb : host.Documented) (h : Covered host order seen t)
    (htallied : Tallied order t) : report seen t = recorded := by
  have hlen : order.length = 3045 := by
    have hsum := sum_nodes hb h fun _ => 1
    simpa only [List.map_const', List.sum_replicate, smul_eq_mul, mul_one, sum_const, card_active]
      using hsum
  have hseen : seen.length = 3045 := by rw [h.keys, List.length_map, hlen]
  have hedges : t.edgeCount = 149205 := by
    rw [htallied.edges, sum_nodes hb h fun s => (transitions s 2 false).length, sum_length]
  have hbranches : t.branches = recordedBranches := by
    funext b
    rw [htallied.branches, sum_nodes hb h, sum_branchCount, hitCount_recorded]
  have houtcomes : t.observations = recordedOutcomes := by
    funext T
    rw [htallied.observations, sum_nodes hb h, sum_outcomeCount]
  simp only [report, recorded, htallied.active, hlen, hseen, card_terminals hb h htallied, hedges,
    hbranches, houtcomes, maxLength_eq hb h htallied, recordedBranches]
  rfl

end Answer

/-! ### What the check says of a host -/

/-- The replay of a history of which none with the same end is shorter. -/
structure Shortest (host : Host) (path : List Edge) (run : Replay) : Prop
    extends Follows host path run where
  shortest : ∀ path', Path 2 false (State.initial 4 2) path' run.state → path.length ≤ path'.length

theorem path_initial : Path 2 false (State.initial 4 2) [] (State.initial 4 2) := .nil

/-- The program of a scalar control. -/
def controlRun (host : Host) (scalar : Int) : Replay :=
  startRun.append host.info scalar (finishEdge (State.initial 4 2))

/-- The host answered as expected to a scalar control. -/
def ControlMatched (host : Host) (scalar : Int) : Prop :=
  ∃ words, expected host.info (controlRun host scalar) = some words ∧
    host.observe (controlRun host scalar).code = some words

section Hosts

variable {host : Host} {run : Replay} {path : List Edge}

theorem shortest_of_soonest (hb : host.Documented)
    (h : (checker host).Soonest startRun (fun run => run.code.length) run) :
    ∃ path, Shortest host path run := by
  obtain ⟨path, hfollows⟩ := follows_of_reached hb h.1
  refine ⟨path, hfollows, fun path' hpath' => ?_⟩
  obtain ⟨run', hrun', hstate, hlen⟩ := reached_of_path hb hpath' hfollows.active
  have hle : run.code.length ≤ run'.code.length := h.2 run' hrun' hstate
  rwa [hfollows.length, hlen] at hle

theorem key_mem_endings (hb : host.Documented) (h : (checker host).Reached startRun run) :
    run.state ∈ endings 4 2 2 .active := by
  obtain ⟨path, hfollows⟩ := follows_of_reached hb h
  exact mem_endings.mpr ⟨described_of_reachable hfollows.history.reachable, hfollows.active⟩

theorem scalarCase_isSome (hb : host.Documented) (scalar : Int) :
    (scalarCase host (State.initial 4 2) scalar).isSome ↔ ControlMatched host scalar := by
  have hfinish : finishEdge (State.initial 4 2) ∈ transitions startRun.state 2 false :=
    mem_transitions.mpr ⟨rfl, .finish⟩
  have happend := appendEdge_of_mem hb.acquisitions scalar
    (wellFormed_initial 4 2 2) hfinish
  rw [startRun] at happend
  simp only [scalarCase, happend, Option.bind_eq_bind, Option.bind_some, requireMatch_isSome]
  rfl

theorem controls_isSome (hb : host.Documented) :
    (scalarControls.forM (scalarCase host (State.initial 4 2))).isSome ↔
      ∀ scalar ∈ scalarControls, ControlMatched host scalar := by
  simp only [← scalarCase_isSome hb]
  induction scalarControls with
  | nil => simp
  | cons scalar l ih =>
    rw [List.forall_mem_cons, ← ih]
    change (scalarCase host (State.initial 4 2) scalar >>= fun _ => l.forM _).isSome ↔ _
    cases scalarCase host (State.initial 4 2) scalar <;> simp

theorem check_eq (hb : host.Documented) (fuel : Nat) : check fuel host =
    ((checker host).search fuel ((checker host).start startRun) .zero).map fun a => a.bind fun x =>
      (scalarControls.forM (scalarCase host (State.initial 4 2))).map fun _ => report x.1.seen x.2 := by
  have hbounds : ¬(host.info .registers, host.info .spills, host.info .acquisitions) ≠ (4, 2, 2) := by
    rw [hb.registers, hb.spills, hb.acquisitions]
    exact not_not.mpr rfl
  have hinitial : State.initial (host.info .registers).toNat (host.info .spills).toNat =
      State.initial 4 2 := by
    rw [hb.registers, hb.spills]
    rfl
  simp only [check, hbounds, if_false, hinitial, startRun]
  cases (checker host).search fuel ((checker host).start (.start (State.initial 4 2))) .zero with
  | none => rfl
  | some a =>
    cases a with
    | none => rfl
    | some x =>
      simp only [Option.map_some, Option.bind_some]
      cases scalarControls.forM (scalarCase host (State.initial 4 2)) <;> rfl

/-- What the search found, for enough fuel, decides what `check` returns. -/
theorem check_documented (hb : host.Documented) {fuel : Nat}
    (hfuel : 3045 < fuel) :
    (check fuel host = some (some recorded) ∧
      (∀ s, Described 4 2 2 s → s.terminal = .active →
        ∃ path run, Shortest host path run ∧ run.state = s ∧ Matched host run) ∧
      ∀ scalar ∈ scalarControls, ControlMatched host scalar) ∨
    (check fuel host = some none ∧
      ((∃ path run, Shortest host path run ∧ ¬Matched host run) ∨
        ∃ scalar ∈ scalarControls, ¬ControlMatched host scalar)) := by
  have hcontrols := controls_isSome hb
  rcases Worklist.search_correct (ranked_checker hb) (fun run hrun => key_mem_endings hb hrun)
    Tally.zero (card_active ▸ hfuel) with ⟨q, t, hsearch, order, hfinished⟩ | ⟨hsearch, run, t, hsoonest, hraise⟩
  · obtain ⟨htallied, hmatched⟩ :=
      tallied_of_worked hb (fun run hrun => (hfinished.soonest run hrun).1) hfinished.worked
    have hreport := report_eq hb hfinished htallied
    cases hscalars : scalarControls.forM (scalarCase host (State.initial 4 2)) with
    | none =>
      rw [hscalars] at hcontrols
      refine .inr ⟨?_, .inr ?_⟩
      · rw [check_eq hb, hsearch, hscalars]
        rfl
      · have hsome : ¬∀ scalar ∈ scalarControls, ControlMatched host scalar := by
          simpa using mt hcontrols.mpr
        simpa using hsome
    | some done =>
      rw [hscalars] at hcontrols
      refine .inl ⟨?_, fun s hdescribed ha => ?_, hcontrols.mp rfl⟩
      · rw [check_eq hb, hsearch, hscalars, ← hreport]
        rfl
      · have hs : s ∈ order.map Replay.state := by
          rw [← List.mem_toFinset, (nodes_eq hb hfinished).2]
          exact mem_endings.mpr ⟨hdescribed, ha⟩
        obtain ⟨run, hrun, rfl⟩ := List.mem_map.mp hs
        obtain ⟨path, hshortest⟩ := shortest_of_soonest hb (hfinished.soonest run hrun)
        exact ⟨path, run, hshortest, rfl, hmatched run hrun⟩
  · obtain ⟨path, hshortest⟩ := shortest_of_soonest hb hsoonest
    refine .inr ⟨?_, .inl ⟨path, run, hshortest, fun hmatched => ?_⟩⟩
    · rw [check_eq hb, hsearch]
      rfl
    · have hprocess := (process_eq_some hb hshortest.toFollows t _).mpr ⟨hmatched, rfl⟩
      rw [hraise] at hprocess
      cases hprocess

theorem check_undocumented (hb : ¬host.Documented) (fuel : Nat) : check fuel host = some none := by
  refine if_pos fun h => hb ?_
  obtain ⟨hregs, hrest⟩ := Prod.mk.inj h
  obtain ⟨hspills, hacquisitions⟩ := Prod.mk.inj hrest
  exact ⟨hregs, hspills, hacquisitions⟩

end Hosts

/-- `check` of any host ends. Either it returns the recorded dictionary, and then the host answered as
the model expects behind a shortest history of every active state that the model reaches, and to the
scalar controls; or it raises, for a reason. -/
theorem check_exact (host : Host) : ∃ bound, ∀ fuel ≥ bound,
    (check fuel host = some (some recorded) ∧ host.Documented ∧
      (∀ s, Reachable 4 2 2 false s → s.terminal = .active →
        ∃ path run, Shortest host path run ∧ run.state = s ∧ Matched host run) ∧
      ∀ scalar ∈ scalarControls, ControlMatched host scalar) ∨
    (check fuel host = some none ∧
      (¬host.Documented ∨ (∃ path run, Shortest host path run ∧ ¬Matched host run) ∨
        ∃ scalar ∈ scalarControls, ¬ControlMatched host scalar)) := by
  by_cases hb : host.Documented
  · refine ⟨3046, fun fuel hfuel => ?_⟩
    rcases check_documented hb hfuel with ⟨hcheck, hmatched, hcontrols⟩ | ⟨hcheck, hreason⟩
    · exact .inl ⟨hcheck, hb, fun s hs ha => hmatched s (described_of_reachable hs) ha, hcontrols⟩
    · exact .inr ⟨hcheck, .inr hreason⟩
  · exact ⟨0, fun fuel _ => .inr ⟨check_undocumented hb fuel, .inl hb⟩⟩

/-! ### The builds -/

section Builds

variable {run : Replay} {path : List Edge} {pointerBytes : Nat} {gate : Bool}

/-- Completing an edge of a node is replaying a history that ended. -/
theorem completed_of_follows (h : Follows (.built pointerBytes gate) path run) {e : Edge}
    (he : e ∈ transitions run.state 2 false) :
    ∃ path' T, Path 2 false (State.initial 4 2) path' T ∧ T.terminal ≠ .active ∧
      replay (hostInfo gate) 7 startRun path' = some (completedBy (hostInfo gate) run e) := by
  have hb := documented_built pointerBytes gate
  have hwf := wellFormed_of_reachable h.history.reachable
  have hedge : replay (hostInfo gate) 7 startRun (path ++ [e]) =
      some (run.append (hostInfo gate) 7 e) := by
    refine (replay_snoc h.replayed e).trans ?_
    exact appendEdge_of_mem hb.acquisitions 7 hwf he
  by_cases ha : e.target.terminal = .active
  · have hfinish : finishEdge e.target ∈ transitions e.target 2 false :=
      mem_transitions.mpr ⟨ha, .finish⟩
    have hpath := h.history.snoc he
    refine ⟨path ++ [e] ++ [finishEdge e.target], _, hpath.snoc hfinish, nofun, ?_⟩
    rw [replay_snoc hedge, completedBy]
    have hactive : (run.append (hostInfo gate) 7 e).state.terminal = .active := ha
    simp only [hactive, ne_eq, not_true_eq_false, if_false]
    exact appendEdge_of_mem hb.acquisitions 7 (wellFormed_of_reachable hpath.reachable) hfinish
  · refine ⟨path ++ [e], _, h.history.snoc he, ha, ?_⟩
    rw [hedge, completedBy]
    exact congrArg some (if_pos ha).symm

/-- The node of a history that leaves room for a branch. -/
theorem matched_of_follows (h : Follows (.built pointerBytes gate) path run)
    (hlen : path.length + 3 ≤ 64) : Matched (.built pointerBytes gate) run where
  edges := by
    intro e he
    obtain ⟨path', T, hpath, hT, hreplay⟩ := completed_of_follows h he
    refine observe_of_path pointerBytes hpath hT hreplay ?_
    have hcode : (observedCode (hostInfo gate) (completedBy (hostInfo gate) run e)).length = _ :=
      length_observedCode (hostInfo gate) run e
    have hedge := edgeLength_le e
    have hnode := h.length
    change (observedCode (hostInfo gate) (completedBy (hostInfo gate) run e)).length ≤ 64
    omega
  branches := by
    intro r hr
    have hbranch := branch_conforms pointerBytes gate h.history h.active hr h.replayed hlen
    rw [branchCase_eq (documented_built pointerBytes gate) h] at hbranch
    rw [← requireMatch_isSome]
    obtain ⟨_, hmatch, _⟩ := Option.map_eq_some_iff.mp hbranch
    rw [hmatch]
    rfl

theorem controlMatched_built (pointerBytes : Nat) (gate : Bool) (scalar : Int) :
    ControlMatched (.built pointerBytes gate) scalar := by
  have hfinish : finishEdge (State.initial 4 2) ∈ transitions (State.initial 4 2) 2 false :=
    mem_transitions.mpr ⟨rfl, .finish⟩
  have hpath := path_initial.snoc hfinish
  have hreplay : replay (hostInfo gate) scalar startRun ([] ++ [finishEdge (State.initial 4 2)]) =
      some (controlRun (.built pointerBytes gate) scalar) := by
    have hstart : replay (hostInfo gate) scalar startRun [] = some startRun := rfl
    rw [replay_snoc hstart]
    exact appendEdge_of_mem (documented_built pointerBytes gate).acquisitions scalar
      (wellFormed_initial 4 2 2) hfinish
  have hcode : observedCode (hostInfo gate) (controlRun (.built pointerBytes gate) scalar) =
      (controlRun (.built pointerBytes gate) scalar).code := List.append_nil _
  have hlen : (controlRun (.built pointerBytes gate) scalar).code.length = 1 := rfl
  have hmatch := observe_of_path pointerBytes hpath nofun hreplay (by rw [hcode, hlen]; decide)
  rwa [hcode] at hmatch

end Builds

/-- Over the reference and over the gate, whatever the size of a pointer, `check` returns the recorded
dictionary. -/
theorem check_builds (pointerBytes : Nat) (gate : Bool) : ∃ bound, ∀ fuel ≥ bound,
    check fuel (.built pointerBytes gate) = some (some recorded) := by
  have hb := documented_built pointerBytes gate
  refine ⟨3046, fun fuel hfuel => ?_⟩
  rcases check_documented hb hfuel with ⟨hcheck, _⟩ | ⟨_, hmismatch | hcontrol⟩
  · exact hcheck
  · obtain ⟨path, run, hshortest, hne⟩ := hmismatch
    have hdescribed := described_of_reachable hshortest.history.reachable
    have hbudget := (stateError_eq_none.mp hdescribed.passes).budget
    obtain ⟨short, hshort, hle⟩ := hdescribed.active_history hshortest.active (by omega)
    have := hshortest.shortest short hshort
    rw [planLength] at hle
    exact absurd (matched_of_follows hshortest.toFollows (by omega)) hne
  · obtain ⟨scalar, _, hne⟩ := hcontrol
    exact absurd (controlMatched_built pointerBytes gate scalar) hne

end Cbpf.Conformance
