import Cbpf.Model.Explore

/-!
# Object-wide revocation (`theory/check_model.py:88-96`, `theory/ownership.md`, the mutation check)

The mutated release consumes every live acquisition. Consumption and the reference count still add
up, so `state_error` accepts what it leaves; `edge_error` rejects it exactly when an acquisition other
than the released one was live.
-/

namespace Cbpf.Model

variable {s : State} {capacity : Nat}

/-- An acquisition other than the one `token` names is live. -/
def OtherLive (s : State) (token : Int) : Prop :=
  ∃ i, s.liveAt i = true ∧ i ≠ State.index token

theorem lt_of_liveAt {i : Nat} (h : s.liveAt i = true) : i < s.live.length := by
  by_contra hge
  rw [State.liveAt, List.getD_eq_default _ _ (Nat.le_of_not_lt hge)] at h
  cases h

/-- Without another live acquisition the mutation changes nothing. -/
theorem victims_of_not_otherLive {token : Int} (h : ¬ OtherLive s token) :
    s.victims true token = s.victims false token := by
  refine List.filter_congr fun i _ => ?_
  cases hl : s.liveAt i with
  | false => rfl
  | true =>
    have hi : i = State.index token := by
      by_contra hne
      exact h ⟨i, hl, hne⟩
    simp [hi]

theorem releaseEdge_of_not_otherLive {r : Nat} (h : ¬ OtherLive s (s.reg r)) :
    releaseEdge s true r = releaseEdge s false r := by
  simp only [releaseEdge, victims_of_not_otherLive h]

theorem releaseEdge_of_not_valid {r : Nat} (h : s.valid (s.reg r) = false) :
    releaseEdge s true r = releaseEdge s false r := by
  simp [releaseEdge, h]

/-- The other acquisition has an explicit release it was not asked for. -/
theorem releaseEdge_fails (h : WellFormed s capacity) {r : Nat}
    (hv : s.valid (s.reg r) = true) (hother : OtherLive s (s.reg r)) :
    edgeError s (releaseEdge s true r) capacity ≠ none := by
  obtain ⟨i, hlive, hne⟩ := hother
  have hi := lt_of_liveAt hlive
  have hedge : releaseEdge s true r =
      ⟨.release, [r], .consumed, s.consume (s.victims true (s.reg r))⟩ := by
    simp [releaseEdge, hv]
  rw [hedge]
  intro hnone
  obtain ⟨_, _, huse, _, _⟩ := edgeError_eq_none.mp hnone
  have hchecks := huse (.inr rfl)
  simp only [useChecks, List.getD_cons_zero, hv, and_self, if_true, List.forall_mem_append,
    independenceChecks, List.forall_mem_flatMap, List.mem_range, List.forall_mem_cons] at hchecks
  have hcount := (hchecks.2.1.2 i hi).1
  have hvictim : i ∈ s.victims true (s.reg r) := mem_victims.mpr ⟨hi, hlive, .inl rfl⟩
  rw [explicitAt_consume s _ (h.explicit_length ▸ hi), bne_eq_false_iff_eq] at hcount
  rw [beq_false_of_ne hne] at hcount
  simp [hvictim] at hcount

/-- A successful release while some other acquisition is live. -/
def ReleasesBeside (s : State) (e : Edge) : Prop :=
  e.kind = .release ∧ e.result = .consumed ∧ OtherLive s (s.reg (e.args.getD 0 0))

theorem releasesBeside_releaseEdge {mutation : Bool} {r : Nat} :
    ReleasesBeside s (releaseEdge s mutation r) ↔
      s.valid (s.reg r) = true ∧ OtherLive s (s.reg r) := by
  rw [ReleasesBeside, kind_releaseEdge, args_releaseEdge, List.getD_cons_zero]
  cases hv : s.valid (s.reg r) with
  | true => simp [releaseEdge, hv]
  | false =>
    have hreason : invalidReason (s.reg r) ≠ .consumed := by
      unfold invalidReason
      split <;> simp
    simp [releaseEdge, hv, hreason]

/-- The mutated edges the oracle rejects. -/
theorem edgeError_mutated {e : Edge} (h : WellFormed s capacity) (ha : s.terminal = .active)
    (he : Yields s capacity true e) : edgeError s e capacity ≠ none ↔ ReleasesBeside s e := by
  -- every kind but a release is an edge of the unmutated function too
  have hpasses : ∀ e', Yields s capacity false e' → ¬ e'.kind = .release →
      (edgeError s e' capacity ≠ none ↔ ReleasesBeside s e') := by
    intro e' he' hkind
    refine iff_of_false ?_ (fun hbeside => hkind hbeside.1)
    exact fun hfails => hfails (edgeError_of_yields h ha he')
  cases he with
  | acquire r hr => exact hpasses _ (.acquire r hr) (by simp)
  | acquireNull r hr => exact hpasses _ (.acquireNull r hr) (by simp [acquireNullEdge])
  | copy dst src hd hs => exact hpasses _ (.copy dst src hd hs) (by simp [copyEdge])
  | reload dst slot hd hs => exact hpasses _ (.reload dst slot hd hs) (by simp [reloadEdge])
  | spill slot r hs hr => exact hpasses _ (.spill slot r hs hr) (by simp [spillEdge])
  | read r hr => exact hpasses _ (.read r hr) (by simp)
  | finish => exact hpasses _ .finish (by simp [finishEdge])
  | release r hr =>
    rw [releasesBeside_releaseEdge]
    by_cases hfails : s.valid (s.reg r) = true ∧ OtherLive s (s.reg r)
    · exact iff_of_true (releaseEdge_fails h hfails.1 hfails.2) hfails
    · refine iff_of_false (fun hne => hne ?_) hfails
      have hsame : releaseEdge s true r = releaseEdge s false r := by
        rcases not_and_or.mp hfails with hv | hother
        · exact releaseEdge_of_not_valid (Bool.eq_false_of_not_eq_true hv)
        · exact releaseEdge_of_not_otherLive hother
      rw [hsame]
      exact releaseEdge_ok h ha r

/-- Two live acquisitions need a capacity of two. -/
theorem two_le_capacity (h : WellFormed s capacity) {e : Edge} (he : ReleasesBeside s e)
    (hy : Yields s capacity true e) : 2 ≤ capacity := by
  obtain ⟨hkind, hresult, hother⟩ := he
  cases hy with
  | release r _ =>
    obtain ⟨hv, i, hlive, hne⟩ := releasesBeside_releaseEdge.mp ⟨hkind, hresult, hother⟩
    have hi := lt_of_liveAt hlive
    have htoken := (index_lt_of_valid hv).1
    have hbudget := h.budget
    omega
  | acquire r _ => simp at hkind
  | read r _ => simp at hkind
  | _ => cases hkind

/-- The state after `acquire(0); acquire(0)`. -/
def acquiredTwice (registers spills : Nat) : State :=
  ((State.initial registers spills).acquire 0).acquire 0

theorem reachable_acquiredTwice {registers : Nat} (spills : Nat) (hr : 1 ≤ registers)
    (hcapacity : 2 ≤ capacity) :
    Reachable registers spills capacity true (acquiredTwice registers spills) := by
  have hstep : ∀ t : State, t.terminal = .active → t.live.length < capacity →
      0 < t.registers.length → Next capacity true t (t.acquire 0) := by
    intro t ha hlt hregs
    refine ⟨_, mem_transitions.mpr ⟨ha, .acquire 0 hregs⟩, ?_⟩
    simp [acquireEdge, Nat.ne_of_lt hlt]
  have hregs : 0 < (State.initial registers spills).registers.length := by
    rw [State.initial, List.length_replicate]
    exact hr
  have hfirst := hstep (State.initial registers spills) rfl
    (by simp [State.initial]; omega) hregs
  have hsecond := hstep ((State.initial registers spills).acquire 0) rfl
    (by simp [State.initial, State.acquire]; omega)
    (by simpa [State.acquire, updated_eq_set _ hregs] using hregs)
  exact (Relation.ReflTransGen.single hfirst).tail hsecond

theorem release_acquiredTwice {registers : Nat} (spills capacity : Nat) (hr : 1 ≤ registers) :
    Yields (acquiredTwice registers spills) capacity true
      (releaseEdge (acquiredTwice registers spills) true 0) ∧
    ReleasesBeside (acquiredTwice registers spills)
      (releaseEdge (acquiredTwice registers spills) true 0) := by
  obtain ⟨n, rfl⟩ := Nat.exists_eq_add_of_le' hr
  have hreg : (acquiredTwice (n + 1) spills).reg 0 = 2 := rfl
  refine ⟨.release 0 (Nat.succ_pos _), releasesBeside_releaseEdge.mpr ?_⟩
  rw [hreg]
  exact ⟨rfl, 0, rfl, by decide⟩

/-- The explorer finds the mutant exactly when two acquisitions can be live. -/
theorem allPass_mutated {registers spills : Nat} (hr : 1 ≤ registers) :
    ¬ AllPass registers spills capacity true ↔ 2 ≤ capacity := by
  constructor
  · intro hnot
    simp only [AllPass, not_forall, not_and, exists_prop] at hnot
    obtain ⟨s, hs, hfails⟩ := hnot
    have hwf := wellFormed_of_reachable hs
    obtain ⟨e, he, hfault⟩ := hfails (stateError_eq_none.mpr hwf)
    obtain ⟨ha, hy⟩ := mem_transitions.mp he
    -- the target is well-formed, so it is `edge_error` that speaks
    have hedge : edgeError s e capacity ≠ none := fun hnone =>
      hfault (edgeFault_eq_none.mpr ⟨stateError_eq_none.mpr (hwf.edge ha hy), hnone⟩)
    exact two_le_capacity hwf ((edgeError_mutated hwf ha hy).mp hedge) hy
  · intro hcapacity hall
    have hreach := reachable_acquiredTwice spills hr hcapacity
    obtain ⟨hy, hbeside⟩ := release_acquiredTwice spills capacity hr
    have hpass := (hall _ hreach).2 _ (mem_transitions.mpr ⟨rfl, hy⟩)
    have hwf := wellFormed_of_reachable hreach
    exact (edgeError_mutated hwf rfl hy).mpr hbeside (edgeFault_eq_none.mp hpass).2

/-- The mutant passes every state check, fails exactly the releases that revoke another acquisition,
and is reported with a counterexample exactly from two cells on. -/
theorem mutant_caught (registers spills capacity : Nat) (hr : 1 ≤ registers) :
    (∀ s, Reachable registers spills capacity true s → stateError s capacity = none ∧
      ∀ e ∈ transitions s capacity true,
        (edgeError s e capacity ≠ none ↔
          e.kind = .release ∧ e.result = .consumed ∧
            OtherLive s (s.reg (e.args.getD 0 0)))) ∧
    ((∃ error history states edges, Explores registers spills capacity true
      (.finished (.failed error history states edges))) ↔ 2 ≤ capacity) := by
  constructor
  · intro s hs
    have hwf := wellFormed_of_reachable hs
    refine ⟨stateError_eq_none.mpr hwf, fun e he => ?_⟩
    obtain ⟨ha, hy⟩ := mem_transitions.mp he
    exact edgeError_mutated hwf ha hy
  · obtain ⟨result, hexplores, hverified, hcorrect⟩ :=
      explores_correct registers spills capacity true
    rw [← allPass_mutated hr, ← hverified]
    constructor
    · rintro ⟨error, history, states, edges, hfailed⟩
      rw [hexplores.unique hfailed]
      exact Bool.false_ne_true
    · intro hnot
      match result, hexplores, hnot, hcorrect with
      | .finished (.failed error history states edges), hexplores, _, _ =>
        exact ⟨error, history, states, edges, hexplores⟩
      | .finished (.verified ..), _, hnot, _ => exact absurd rfl hnot

/-- At the default bounds of the checker, four registers, two spill slots and two cells. -/
theorem mutant_caught_default : 1 ≤ 4 ∧ ∃ error history states edges,
    Explores 4 2 2 true (.finished (.failed error history states edges)) :=
  ⟨by decide, (mutant_caught 4 2 2 (by decide)).2.mpr (Nat.le_refl 2)⟩

end Cbpf.Model
