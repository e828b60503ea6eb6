import Cbpf.Model.Invariant

/-!
# Every edge passes the oracle

`edge_error` is `None` on the edges of the unmutated transition function. The checks are grouped as
in the source; a failed operation and `finish` share the checks of `terminate`.
-/

namespace Cbpf.Model

theorem edgeError_eq_none {s : State} {e : Edge} {capacity : Nat} :
    edgeError s e capacity = none ↔
      (∀ c ∈ commonChecks s e, c.1 = false) ∧
      (e.target.terminal ≠ .active → ∀ c ∈ terminalChecks s e.target, c.1 = false) ∧
      (e.kind = .read ∨ e.kind = .release → ∀ c ∈ useChecks s e, c.1 = false) ∧
      (e.kind = .copy ∨ e.kind = .spill ∨ e.kind = .reload ∨ e.kind = .acquireNull →
        ∀ c ∈ aliasChecks s e, c.1 = false) ∧
      (e.kind = .acquire → ∀ c ∈ acquireChecks s e capacity, c.1 = false) := by
  unfold edgeError
  rw [firstError_eq_none]
  simp only [List.forall_mem_append, and_assoc]
  refine and_congr Iff.rfl (and_congr ?_ (and_congr ?_ (and_congr ?_ ?_)))
  all_goals
    split
    · rename_i h
      simp [h]
    · rename_i h
      simp [h]

variable {s : State} {capacity : Nat}

/-- What `terminate` leaves passes the checks of a terminal target. -/
theorem terminalChecks_terminate (h : WellFormed s capacity) (reason : Terminal) :
    ∀ c ∈ terminalChecks s (s.terminate reason), c.1 = false := by
  simp only [terminalChecks, List.forall_mem_append, List.forall_mem_cons, List.forall_mem_map]
  refine ⟨⟨by simp, by simp, by simp⟩, fun i _ => ?_⟩
  rw [cleanupAt_terminate h.cleanup_length, bne_eq_false_iff_eq]
  omega

/-- An alias edge: only one register or spill slot changes. -/
theorem aliasEdge_ok {e : Edge} (ha : s.terminal = .active)
    (hkind : e.kind = .copy ∨ e.kind = .spill ∨ e.kind = .reload ∨ e.kind = .acquireNull)
    (hresult : e.result = if e.kind = .acquireNull then .null else .copied)
    (htarget : e.target = { s with
      registers := (expectedAliases s e).1
      spills := (expectedAliases s e).2 }) : edgeError s e capacity = none := by
  rw [edgeError_eq_none]
  refine ⟨?_, ?_, ?_, fun _ => ?_, ?_⟩
  · rcases hkind with hk | hk | hk | hk <;> simp [commonChecks, ha, hk, htarget]
  · simp [htarget, ha]
  · rcases hkind with hk | hk | hk | hk <;> simp [hk]
  · simp [aliasChecks, hresult, htarget, ha]
  · rcases hkind with hk | hk | hk | hk <;> simp [hk]

theorem acquireNullEdge_ok (ha : s.terminal = .active) {r : Nat} (hr : r < s.registers.length) :
    edgeError s (acquireNullEdge s r) capacity = none :=
  aliasEdge_ok ha (by simp [acquireNullEdge]) rfl (by
    simp [acquireNullEdge, State.setReg, expectedAliases, updated_eq_set _ hr])

theorem copyEdge_ok (ha : s.terminal = .active) {dst : Nat} (src : Nat)
    (hd : dst < s.registers.length) : edgeError s (copyEdge s dst src) capacity = none :=
  aliasEdge_ok ha (by simp [copyEdge]) rfl (by
    simp [copyEdge, State.setReg, expectedAliases, updated_eq_set _ hd])

theorem reloadEdge_ok (ha : s.terminal = .active) {dst : Nat} (slot : Nat)
    (hd : dst < s.registers.length) : edgeError s (reloadEdge s dst slot) capacity = none :=
  aliasEdge_ok ha (by simp [reloadEdge]) rfl (by
    simp [reloadEdge, State.setReg, expectedAliases, updated_eq_set _ hd])

theorem spillEdge_ok (ha : s.terminal = .active) {slot : Nat} (r : Nat)
    (hs : slot < s.spills.length) : edgeError s (spillEdge s slot r) capacity = none :=
  aliasEdge_ok ha (by simp [spillEdge]) rfl (by
    simp [spillEdge, State.setSpill, expectedAliases, updated_eq_set _ hs])

theorem finishEdge_ok (h : WellFormed s capacity) (ha : s.terminal = .active) :
    edgeError s (finishEdge s) capacity = none := by
  rw [edgeError_eq_none]
  refine ⟨?_, fun _ => terminalChecks_terminate h .ret, ?_, ?_, ?_⟩
  · simp [commonChecks, finishEdge, ha]
  all_goals simp [finishEdge]

theorem readEdge_ok (h : WellFormed s capacity) (ha : s.terminal = .active) (r : Nat) :
    edgeError s (readEdge s r) capacity = none := by
  cases hv : s.valid (s.reg r) with
  | true =>
    have he : readEdge s r = ⟨.read, [r], .fortyTwo, s⟩ := by simp [readEdge, hv]
    rw [he, edgeError_eq_none]
    refine ⟨by simp [commonChecks, ha], by simp [ha], fun _ => ?_, by simp, by simp⟩
    simp only [useChecks, List.getD_cons_zero, hv]
    simp [ha]
  | false =>
    have he : readEdge s r =
        ⟨.read, [r], invalidReason (s.reg r), s.terminate (readReason (s.reg r))⟩ := by
      simp [readEdge, hv]
    rw [he, edgeError_eq_none]
    refine ⟨by simp [commonChecks, ha], fun _ => terminalChecks_terminate h _, fun _ => ?_,
      by simp, by simp⟩
    simp only [useChecks, List.getD_cons_zero, hv]
    simp [wrongTrap, readReason_ne_active]

theorem releaseEdge_ok (h : WellFormed s capacity) (ha : s.terminal = .active) (r : Nat) :
    edgeError s (releaseEdge s false r) capacity = none := by
  cases hv : s.valid (s.reg r) with
  | true =>
    have he : releaseEdge s false r =
        ⟨.release, [r], .consumed, s.consume (s.victims false (s.reg r))⟩ := by
      simp [releaseEdge, hv]
    rw [he, edgeError_eq_none]
    refine ⟨by simp [commonChecks, ha], by simp [terminal_consume, ha], fun _ => ?_, by simp,
      by simp⟩
    simp only [useChecks, List.getD_cons_zero, hv, and_self, if_true, List.forall_mem_append,
      independenceChecks, List.forall_mem_flatMap, List.forall_mem_cons, List.mem_range]
    rw [victims_eq hv]
    refine ⟨by simp [terminal_consume, ha], ⟨by simp, fun i hi => ⟨?_, ?_, by simp⟩⟩, ?_, by simp⟩
    · rw [explicitAt_consume s _ (h.explicit_length ▸ hi), bne_eq_false_iff_eq,
        contains_singleton]
      omega
    · rw [liveAt_consume]
      by_cases hit : i = State.index (s.reg r) <;> simp [hit]
    · rw [liveAt_consume]
      simp
  | false =>
    have he : releaseEdge s false r =
        ⟨.release, [r], invalidReason (s.reg r), s.terminate (releaseReason (s.reg r))⟩ := by
      simp [releaseEdge, hv]
    rw [he, edgeError_eq_none]
    refine ⟨by simp [commonChecks, ha], fun _ => terminalChecks_terminate h _, fun _ => ?_,
      by simp, by simp⟩
    simp only [useChecks, List.getD_cons_zero, hv]
    simp [wrongTrap, releaseReason_ne_active]

theorem acquireEdge_ok (h : WellFormed s capacity) (ha : s.terminal = .active) {r : Nat}
    (hr : r < s.registers.length) : edgeError s (acquireEdge s capacity r) capacity = none := by
  by_cases hn : s.live.length = capacity
  · have he : acquireEdge s capacity r =
        ⟨.acquire, [r], .exhaustion, s.terminate .exhaustion⟩ := by simp [acquireEdge, hn]
    rw [he, edgeError_eq_none]
    refine ⟨by simp [commonChecks, ha], fun _ => terminalChecks_terminate h _, by simp, by simp,
      fun _ => by simp [acquireChecks, hn]⟩
  · have he : acquireEdge s capacity r = ⟨.acquire, [r], .success, s.acquire r⟩ := by
      simp [acquireEdge, hn]
    have hactive : (s.acquire r).terminal = .active := ha
    rw [he, edgeError_eq_none]
    refine ⟨by simp [commonChecks, ha, State.acquire], by simp [hactive], by simp, by simp,
      fun _ => ?_⟩
    obtain ⟨_, he0, hc0⟩ := h.fresh (Nat.le_refl s.live.length)
    simp only [acquireChecks, hactive, List.getD_cons_zero]
    simp only [ne_eq, not_true_eq_false, if_false, List.forall_mem_append, List.forall_mem_cons,
      liveAt_acquire, explicitAt_acquire, cleanupAt_acquire, he0, hc0]
    have hexp : (s.explicit ++ [0]).take s.live.length = s.explicit := by
      simp [← h.explicit_length]
    have hcln : (s.cleanup ++ [0]).take s.live.length = s.cleanup := by
      simp [← h.cleanup_length]
    simp [State.acquire, State.reg, updated_eq_set _ hr, hr, hn, hexp, hcln]

/-- Every edge of the unmutated transition function from a well-formed state passes `edge_error`. -/
theorem edgeError_of_yields {e : Edge} (h : WellFormed s capacity) (ha : s.terminal = .active)
    (he : Yields s capacity false e) : edgeError s e capacity = none := by
  cases he with
  | acquire r hr => exact acquireEdge_ok h ha hr
  | acquireNull r hr => exact acquireNullEdge_ok ha hr
  | copy dst src hd _ => exact copyEdge_ok ha src hd
  | reload dst slot hd _ => exact reloadEdge_ok ha slot hd
  | spill slot r hs _ => exact spillEdge_ok ha r hs
  | read r _ => exact readEdge_ok h ha r
  | release r _ => exact releaseEdge_ok h ha r
  | finish => exact finishEdge_ok h ha

/-- The invariants are inductive for arbitrary bounds: no reachable state and no edge leaving one
is reported by the oracle, and a terminal state has no edge. -/
theorem reachable_passes_oracle (registers spills capacity : Nat) (s : State)
    (h : Reachable registers spills capacity false s) :
    stateError s capacity = none ∧
    (∀ e ∈ transitions s capacity false, edgeError s e capacity = none) ∧
    (s.terminal ≠ .active → transitions s capacity false = []) := by
  have hwf := wellFormed_of_reachable h
  refine ⟨stateError_eq_none.mpr hwf, ?_, fun ht => transitions_terminal ht capacity false⟩
  intro e he
  obtain ⟨ha, hy⟩ := mem_transitions.mp he
  exact edgeError_of_yields hwf ha hy

/-- The history `acquire(0); finish()`, whose cleanup consumes the leaked acquisition. -/
def leakedFinish : State := ((State.initial 4 2).acquire 0).terminate .ret

theorem reachable_passes_oracle_leakedFinish :
    stateError leakedFinish 2 = none ∧
    (∀ e ∈ transitions leakedFinish 2 false, edgeError leakedFinish e 2 = none) ∧
    (leakedFinish.terminal ≠ .active → transitions leakedFinish 2 false = []) := by
  have hacquire : Next 2 false (State.initial 4 2) ((State.initial 4 2).acquire 0) :=
    ⟨_, mem_transitions.mpr ⟨rfl, .acquire 0 (by decide)⟩, rfl⟩
  have hfinish : Next 2 false ((State.initial 4 2).acquire 0) leakedFinish :=
    ⟨_, mem_transitions.mpr ⟨rfl, .finish⟩, rfl⟩
  exact reachable_passes_oracle 4 2 2 leakedFinish (.tail (.tail .refl hacquire) hfinish)

end Cbpf.Model
