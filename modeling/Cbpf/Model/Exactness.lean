import Cbpf.Model.EdgeCheck

/-!
# The transition oracle is exact

From a well-formed active state, `state_error` and `edge_error` are both `None` on an edge exactly
when `transitions` yields it: what the checks fix of the target, field by field, is all of it.
-/

namespace Cbpf.Model

/-- The operands of an edge: as many as its kind has, all in range. -/
inductive OperandsInRange (s : State) : Kind → List Nat → Prop
  | acquire (r : Nat) : r < s.registers.length → OperandsInRange s .acquire [r]
  | acquireNull (r : Nat) : r < s.registers.length → OperandsInRange s .acquireNull [r]
  | copy (dst src : Nat) : dst < s.registers.length → src < s.registers.length →
      OperandsInRange s .copy [dst, src]
  | reload (dst slot : Nat) : dst < s.registers.length → slot < s.spills.length →
      OperandsInRange s .reload [dst, slot]
  | spill (slot r : Nat) : slot < s.spills.length → r < s.registers.length →
      OperandsInRange s .spill [slot, r]
  | read (r : Nat) : r < s.registers.length → OperandsInRange s .read [r]
  | release (r : Nat) : r < s.registers.length → OperandsInRange s .release [r]
  | finish : OperandsInRange s .finish []

variable {s t : State} {capacity : Nat}

/-- The checks of a terminal target leave only `terminate`. -/
theorem eq_terminate (hs : WellFormed s capacity) (ht : WellFormed t capacity)
    (hlen : t.live.length = s.live.length) (hterminal : t.terminal ≠ .active)
    (hchecks : ∀ c ∈ terminalChecks s t, c.1 = false) : t = s.terminate t.terminal := by
  simp only [terminalChecks, List.forall_mem_append, List.forall_mem_cons, List.forall_mem_map,
    List.mem_range, Bool.or_eq_false_iff, bne_eq_false_iff_eq] at hchecks
  obtain ⟨⟨⟨hregs, hspills⟩, hexplicit, _⟩, hcleanup⟩ := hchecks
  have hdead := ht.terminal_done hterminal
  have hrefs := ht.refs
  have hrefs' := hs.refs
  refine State.ext ?_ hregs hspills hexplicit ?_ ?_ rfl
  · rw [State.terminate, ← hlen]
    refine List.eq_replicate_iff.mpr ⟨rfl, fun b hb => ?_⟩
    have hne : b ≠ true := by
      rintro rfl
      exact List.count_eq_zero.mp hdead hb
    exact Bool.eq_false_iff.mpr hne
  · refine ext_getD 0 ?_ fun i => ?_
    · rw [ht.cleanup_length, hlen]
      simp [State.terminate, hs.cleanup_length]
    · change t.cleanupAt i = (s.terminate t.terminal).cleanupAt i
      rw [cleanupAt_terminate hs.cleanup_length]
      by_cases hi : i < s.live.length
      · have := hcleanup i hi
        omega
      · have h0 := (ht.fresh (hlen ▸ Nat.le_of_not_lt hi)).2.2
        obtain ⟨hl, _, hc⟩ := hs.fresh (Nat.le_of_not_lt hi)
        rw [h0, hl, hc]
        rfl
  · simp only [State.terminate]
    omega

/-- The common checks keep the number of acquisitions, unless the edge is an acquisition. -/
theorem length_of_commonChecks {e : Edge} (h : ∀ c ∈ commonChecks s e, c.1 = false) :
    s.live.length ≤ e.target.live.length ∧
      (e.kind ≠ .acquire → e.target.live.length = s.live.length) ∧
      (e.kind = .finish → e.target.terminal = .ret ∧ e.result = .ret) := by
  simp only [commonChecks, List.forall_mem_cons, decide_eq_false_iff_not, Nat.not_lt,
    Bool.and_eq_false_iff, Bool.or_eq_false_iff, bne_eq_false_iff_eq, beq_eq_false_iff_ne] at h
  obtain ⟨_, hle, hlen, hfinish, _⟩ := h
  exact ⟨hle, fun hne => hlen.resolve_left hne, fun hk => hfinish.resolve_left (absurd hk)⟩

/-! ### Kind by kind -/

section Kinds

variable {result : Outcome} {r dst src slot : Nat}

theorem finish_exact (hs : WellFormed s capacity) (ht : WellFormed t capacity)
    (h : edgeError s ⟨.finish, [], result, t⟩ capacity = none) :
    ⟨.finish, [], result, t⟩ = finishEdge s := by
  obtain ⟨hcommon, hterminal, _⟩ := edgeError_eq_none.mp h
  obtain ⟨_, hlen, hfinish⟩ := length_of_commonChecks hcommon
  obtain ⟨hret, hresult⟩ : t.terminal = .ret ∧ result = .ret := hfinish rfl
  have hne : t.terminal ≠ .active := by simp [hret]
  have heq := eq_terminate hs ht (hlen (by simp)) hne (hterminal hne)
  rw [hret] at heq
  rw [finishEdge, heq, hresult]

/-- What the checks of a failed use leave. -/
theorem failed_use {kind : Kind} (hkind : kind = .read ∨ kind = .release)
    (hs : WellFormed s capacity) (ht : WellFormed t capacity)
    (h : edgeError s ⟨kind, [r], result, t⟩ capacity = none)
    (hv : s.valid (s.reg r) = false) :
    result = invalidReason (s.reg r) ∧ t = s.terminate
      (if kind = .read then readReason (s.reg r) else releaseReason (s.reg r)) := by
  obtain ⟨hcommon, hterminal, huse, _⟩ := edgeError_eq_none.mp h
  obtain ⟨_, hlen, _⟩ := length_of_commonChecks hcommon
  have hchecks := huse hkind
  simp only [useChecks, List.getD_cons_zero, hv, Bool.false_eq_true, and_false, if_false,
    List.append_nil, List.forall_mem_cons, wrongTrap, Bool.not_false, Bool.true_and,
    Bool.or_eq_false_iff, bne_eq_false_iff_eq, beq_eq_false_iff_ne] at hchecks
  obtain ⟨_, hne, _, ⟨htrap, hresult⟩, _⟩ := hchecks
  have hacquire : kind ≠ .acquire := by rcases hkind with rfl | rfl <;> simp
  refine ⟨hresult, ?_⟩
  rw [← htrap]
  exact eq_terminate hs ht (hlen hacquire) hne (hterminal hne)

theorem read_exact (hs : WellFormed s capacity) (ht : WellFormed t capacity)
    (h : edgeError s ⟨.read, [r], result, t⟩ capacity = none) :
    ⟨.read, [r], result, t⟩ = readEdge s r := by
  cases hv : s.valid (s.reg r) with
  | false =>
    obtain ⟨hresult, heq⟩ := failed_use (.inl rfl) hs ht h hv
    rw [if_pos rfl] at heq
    simp [readEdge, hv, hresult, heq]
  | true =>
    obtain ⟨_, _, huse, _⟩ := edgeError_eq_none.mp h
    have hchecks := huse (.inl rfl)
    simp only [useChecks, List.getD_cons_zero, hv, List.forall_mem_append, List.forall_mem_cons,
      beq_self_eq_true, Bool.true_and, Bool.or_eq_false_iff, bne_eq_false_iff_eq] at hchecks
    obtain ⟨⟨_, _, _, _, ⟨hresult, heq⟩, _⟩, _⟩ := hchecks
    simp [readEdge, hv, hresult, heq]

theorem release_exact (hs : WellFormed s capacity) (ha : s.terminal = .active)
    (ht : WellFormed t capacity) (h : edgeError s ⟨.release, [r], result, t⟩ capacity = none) :
    ⟨.release, [r], result, t⟩ = releaseEdge s false r := by
  cases hv : s.valid (s.reg r) with
  | false =>
    obtain ⟨hresult, heq⟩ := failed_use (.inr rfl) hs ht h hv
    rw [if_neg (by simp)] at heq
    simp [releaseEdge, hv, hresult, heq]
  | true =>
    obtain ⟨hcommon, _, huse, _⟩ := edgeError_eq_none.mp h
    obtain ⟨_, hlen, _⟩ := length_of_commonChecks hcommon
    have hlen' : t.live.length = s.live.length := hlen (by simp)
    have hchecks := huse (.inr rfl)
    simp only [useChecks, List.getD_cons_zero, hv, and_self, if_true, List.forall_mem_append,
      independenceChecks, List.forall_mem_flatMap, List.forall_mem_cons, List.mem_range,
      Bool.true_and, Bool.or_eq_false_iff, bne_eq_false_iff_eq] at hchecks
    obtain ⟨⟨⟨hregs, hspills⟩, _, hactive, _⟩, ⟨⟨hresult, _⟩, hcells⟩, ⟨hdead, hcleanup⟩, _⟩ :=
      hchecks
    have hwf := hs.consume ha false (s.reg r)
    obtain ⟨hlt, _⟩ := index_lt_of_valid hv
    have hlive : t.live = (s.consume (s.victims false (s.reg r))).live := by
      refine ext_getD false (by rw [length_consume, hlen']) fun i => ?_
      change t.liveAt i = (s.consume _).liveAt i
      rw [liveAt_consume, victims_eq hv]
      by_cases hit : i = State.index (s.reg r)
      · simp [hit, hdead]
      · by_cases hi : i < s.live.length
        · have := (hcells i hi).2.1
          simp [hit] at this ⊢
          exact this
        · rw [(ht.fresh (hlen' ▸ Nat.le_of_not_lt hi)).1, (hs.fresh (Nat.le_of_not_lt hi)).1]
          rfl
    have hexplicit : t.explicit = (s.consume (s.victims false (s.reg r))).explicit := by
      refine ext_getD 0 (by rw [ht.explicit_length, hwf.explicit_length, hlive]) fun i => ?_
      change t.explicitAt i = (s.consume _).explicitAt i
      by_cases hi : i < s.live.length
      · have hcell : t.explicitAt i - s.explicitAt i =
            ((i == State.index (s.reg r)).toNat : Int) := (hcells i hi).1
        rw [explicitAt_consume s _ (hs.explicit_length ▸ hi), victims_eq hv, contains_singleton]
        omega
      · have hi' : (s.consume (s.victims false (s.reg r))).live.length ≤ i := by
          rw [length_consume]
          exact Nat.le_of_not_lt hi
        rw [(ht.fresh (hlen' ▸ Nat.le_of_not_lt hi)).2.1, (hwf.fresh hi').2.1]
    have heq : t = s.consume (s.victims false (s.reg r)) := by
      refine State.ext hlive hregs hspills hexplicit hcleanup ?_ ?_
      · rw [ht.refs, hwf.refs, hlive]
      · simpa [ha] using hactive
    simp [releaseEdge, hv, hresult, heq]

/-- The checks of an alias edge leave only the expected registers and spills. -/
theorem alias_exact {e : Edge} (hs : s.terminal = .active)
    (hkind : e.kind = .copy ∨ e.kind = .spill ∨ e.kind = .reload ∨ e.kind = .acquireNull)
    (h : edgeError s e capacity = none) :
    e.result = (if e.kind = .acquireNull then .null else .copied) ∧
      e.target = { s with
        registers := (expectedAliases s e).1
        spills := (expectedAliases s e).2 } := by
  obtain ⟨_, _, _, halias, _⟩ := edgeError_eq_none.mp h
  have hchecks := halias hkind
  simp only [aliasChecks, List.forall_mem_cons, Bool.or_eq_false_iff, bne_eq_false_iff_eq]
    at hchecks
  obtain ⟨hactive, hresult, ⟨⟨⟨hlive, hexplicit⟩, hcleanup⟩, hrefs⟩, ⟨hregs, hspills⟩, _⟩ := hchecks
  refine ⟨hresult, State.ext hlive hregs hspills hexplicit hcleanup hrefs ?_⟩
  exact hactive.trans hs.symm

theorem acquireNull_exact (ha : s.terminal = .active) (hr : r < s.registers.length)
    (h : edgeError s ⟨.acquireNull, [r], result, t⟩ capacity = none) :
    ⟨.acquireNull, [r], result, t⟩ = acquireNullEdge s r := by
  obtain ⟨hresult, htarget⟩ := alias_exact ha (by simp) h
  have ht : t = s.setReg r 0 := by
    rw [State.setReg, updated_eq_set _ hr]
    exact htarget
  rw [acquireNullEdge, ← ht]
  exact congrArg (Edge.mk .acquireNull [r] · t) hresult

theorem copy_exact (ha : s.terminal = .active) (hd : dst < s.registers.length)
    (h : edgeError s ⟨.copy, [dst, src], result, t⟩ capacity = none) :
    ⟨.copy, [dst, src], result, t⟩ = copyEdge s dst src := by
  obtain ⟨hresult, htarget⟩ := alias_exact ha (by simp) h
  have ht : t = s.setReg dst (s.reg src) := by
    rw [State.setReg, updated_eq_set _ hd]
    exact htarget
  rw [copyEdge, ← ht]
  exact congrArg (Edge.mk .copy [dst, src] · t) hresult

theorem reload_exact (ha : s.terminal = .active) (hd : dst < s.registers.length)
    (h : edgeError s ⟨.reload, [dst, slot], result, t⟩ capacity = none) :
    ⟨.reload, [dst, slot], result, t⟩ = reloadEdge s dst slot := by
  obtain ⟨hresult, htarget⟩ := alias_exact ha (by simp) h
  have ht : t = s.setReg dst (s.slot slot) := by
    rw [State.setReg, updated_eq_set _ hd]
    exact htarget
  rw [reloadEdge, ← ht]
  exact congrArg (Edge.mk .reload [dst, slot] · t) hresult

theorem spill_exact (ha : s.terminal = .active) (hslot : slot < s.spills.length)
    (h : edgeError s ⟨.spill, [slot, r], result, t⟩ capacity = none) :
    ⟨.spill, [slot, r], result, t⟩ = spillEdge s slot r := by
  obtain ⟨hresult, htarget⟩ := alias_exact ha (by simp) h
  have ht : t = s.setSpill slot (s.reg r) := by
    rw [State.setSpill, updated_eq_set _ hslot]
    exact htarget
  rw [spillEdge, ← ht]
  exact congrArg (Edge.mk .spill [slot, r] · t) hresult

theorem acquire_exact (hs : WellFormed s capacity) (ha : s.terminal = .active)
    (ht : WellFormed t capacity) (hr : r < s.registers.length)
    (h : edgeError s ⟨.acquire, [r], result, t⟩ capacity = none) :
    ⟨.acquire, [r], result, t⟩ = acquireEdge s capacity r := by
  obtain ⟨hcommon, hterminal, _, _, hacquire⟩ := edgeError_eq_none.mp h
  obtain ⟨hle, _, _⟩ := length_of_commonChecks hcommon
  have hle' : s.live.length ≤ t.live.length := hle
  have hbudget := ht.budget
  have hchecks := hacquire rfl
  by_cases hactive : t.terminal = .active
  · simp only [acquireChecks, hactive, ne_eq, not_true_eq_false, if_false, List.getD_cons_zero,
      List.forall_mem_append, List.forall_mem_cons, bne_self_eq_false, bne_eq_false_iff_eq,
      Bool.or_eq_false_iff, Bool.not_eq_false'] at hchecks
    obtain ⟨⟨hfull, _⟩, ⟨hlen, _⟩, ⟨⟨⟨hnew, hexp0⟩, hcln0⟩, hrefs⟩, hresult, ⟨hregs, hspills⟩,
      ⟨⟨hlive, hexplicit⟩, hcleanup⟩, _⟩ := hchecks
    have hne : s.live.length ≠ capacity := by
      intro heq
      simp [heq] at hfull
    have hsnoc : ∀ {α : Type} (d : α) (l : List α), l.length = s.live.length + 1 →
        l = l.take s.live.length ++ [l.getD s.live.length d] := by
      intro α d l hl
      rw [List.getD_eq_getElem _ _ (by omega), List.take_append_getElem,
        List.take_of_length_le (by omega)]
    have heq : t = s.acquire r := by
      refine State.ext ?_ ?_ hspills ?_ ?_ hrefs (hactive.trans ha.symm)
      · rw [hsnoc false t.live hlen, hlive]
        exact congrArg (s.live ++ [·]) hnew
      · rw [hregs, State.acquire, updated_eq_set _ hr]
      · rw [hsnoc 0 t.explicit (ht.explicit_length.trans hlen), hexplicit]
        exact congrArg (s.explicit ++ [·]) hexp0
      · rw [hsnoc 0 t.cleanup (ht.cleanup_length.trans hlen), hcleanup]
        exact congrArg (s.cleanup ++ [·]) hcln0
    simp [acquireEdge, hne, hresult, heq]
  · simp only [acquireChecks, hactive, ne_eq, not_false_eq_true, if_true, List.forall_mem_append,
      List.forall_mem_cons, bne_eq_false_iff_eq, Bool.or_eq_false_iff] at hchecks
    obtain ⟨⟨hfull, _⟩, ⟨hexhausted, hresult⟩, _⟩ := hchecks
    have heq : s.live.length = capacity := by
      rw [bne_iff_ne.mpr hactive] at hfull
      exact beq_iff_eq.mp hfull.symm
    have hterminate := eq_terminate hs ht (by omega) hactive (hterminal hactive)
    rw [hexhausted] at hterminate
    simp [acquireEdge, heq, hresult, hterminate]

end Kinds

/-- From a well-formed active state the oracle accepts exactly the edges that `transitions` yields.
No assumption is needed on the numbers of registers and spills of the target. -/
theorem oracle_exact (capacity : Nat) (s : State) (e : Edge)
    (hs : stateError s capacity = none) (ha : s.terminal = .active)
    (hoperands : OperandsInRange s e.kind e.args) :
    (stateError e.target capacity = none ∧ edgeError s e capacity = none) ↔
      e ∈ transitions s capacity false := by
  have hwf := stateError_eq_none.mp hs
  rw [mem_transitions]
  constructor
  · rintro ⟨hstate, hedge⟩
    have ht := stateError_eq_none.mp hstate
    refine ⟨ha, ?_⟩
    obtain ⟨kind, args, result, t⟩ := e
    cases hoperands with
    | acquire r hr =>
      rw [acquire_exact hwf ha ht hr hedge]
      exact .acquire r hr
    | acquireNull r hr =>
      rw [acquireNull_exact ha hr hedge]
      exact .acquireNull r hr
    | copy dst src hd hsrc =>
      rw [copy_exact ha hd hedge]
      exact .copy dst src hd hsrc
    | reload dst slot hd hslot =>
      rw [reload_exact ha hd hedge]
      exact .reload dst slot hd hslot
    | spill slot r hslot hr =>
      rw [spill_exact ha hslot hedge]
      exact .spill slot r hslot hr
    | read r hr =>
      rw [read_exact hwf ht hedge]
      exact .read r hr
    | release r hr =>
      rw [release_exact hwf ha ht hedge]
      exact .release r hr
    | finish =>
      rw [finish_exact hwf ht hedge]
      exact .finish
  · rintro ⟨_, hy⟩
    exact ⟨stateError_eq_none.mpr (hwf.edge ha hy), edgeError_of_yields hwf ha hy⟩

/-- Two live acquisitions with one alias each. -/
def twoLive : State := ((State.initial 2 1).acquire 0).acquire 1

/-- Object-wide revocation leaves a well-formed state, but is no transition. -/
theorem oracle_exact_twoLive : stateError (releaseEdge twoLive true 0).target 2 = none ∧
    releaseEdge twoLive true 0 ∉ transitions twoLive 2 false := by
  refine ⟨by decide, fun hmem => ?_⟩
  have hoperands : OperandsInRange twoLive (releaseEdge twoLive true 0).kind
    (releaseEdge twoLive true 0).args := .release 0 (by decide)
  have haccepted := (oracle_exact 2 twoLive (releaseEdge twoLive true 0) (by decide) rfl
    hoperands).mpr hmem
  have hrejected : edgeError twoLive (releaseEdge twoLive true 0) 2 ≠ none := by decide
  exact hrejected haccepted.2

end Cbpf.Model
