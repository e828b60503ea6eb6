import Cbpf.Containment

/-!
# The metrics of the gate are a projection of its trace

The counters of `struct cbpf_gate_metrics` are raised inside the helpers, before their outcome is
known, and the events are recorded in the dispatcher after it. `Projected` relates the two at every
test of the loop guard and through the cleanup loop, over any platform.
-/

namespace Cbpf

open BoundedLoop

/-- An event, step or trap, of an instruction with opcode `op`. -/
def Event.isAttempt (op : Opcode) (e : Event) : Bool := e.kind != .cleanup && e.op == op

section Metrics

variable {Handle Object : Type} (pl : Platform Handle Object)

/-- What the `switch` of `cbpf_gate_run` does before the end of a pass: the outcome, `token` and the
state. -/
def GateState.attempt (s : GateState Handle Object) (x : Insn) :
    GateOutcome × Nat × GateState Handle Object :=
  match x.op with
  | .acquire => s.acquire pl (intOfInt64 x.imm) x.dst
  | .copy =>
    let view := s.regs.getD x.src pl.null
    let (outcome, token) := identify pl s.views view s.r.acquired
    (outcome, token, { s with regs := s.regs.set x.dst view })
  | .spill =>
    let view := s.regs.getD x.src pl.null
    let (outcome, token) := identify pl s.views view s.r.acquired
    (outcome, token, { s with spills := s.spills.set x.dst view })
  | .reload =>
    let view := s.spills.getD x.src pl.null
    let (outcome, token) := identify pl s.views view s.r.acquired
    (outcome, token, { s with regs := s.regs.set x.dst view })
  | .read => s.readField pl (s.regs.getD x.dst pl.null)
  | .release => s.release pl (s.regs.getD x.dst pl.null)
  | .brNull =>
    let (outcome, token) := identify pl s.views (s.regs.getD x.dst pl.null) s.r.acquired
    (outcome, token, s)
  | .ret | .other _ => (.ok, 0, s)

/-- The run of `p` never finds a capability that it cannot represent or does not know. -/
def NoRepresentationFailure (p : InsnPtr) (n : Nat) : Prop :=
  cbpfValidate p n = .ok () → ∀ s, (cbpfGateRunLoop pl p.deref n).Visits (.init pl) s → s.pc < n →
    (s.enter.attempt pl (p.deref s.pc)).1 ≠ .representation

/-- The counters of `m` are those of the trace of `r`. -/
structure GateMetrics.ProjectionOf (m : GateMetrics) (r : Result) : Prop where
  acquisitions : m.acquisitions = r.trace.countP (Event.isAttempt .acquire)
  reads : m.reads = r.trace.countP (Event.isAttempt .read)
  releases : m.releases = r.trace.countP (Event.isAttempt .release)
  cleanups : m.cleanups = r.trace.countP Event.isCleanup
  cleanupReleases : m.cleanups = r.cleanupReleases
  errors : m.representationErrors = 0
  restrictedHandles : m.restrictedHandles = if pl.purecap then r.acquired else 0
  tagClears : m.tagClears = if pl.purecap then r.explicitReleases + r.cleanupReleases else 0

/-- The counters after one more cell has been cleaned up. -/
theorem GateMetrics.ProjectionOf.cleanedUp {pl : Platform Handle Object} {m m' : GateMetrics}
    {r r' : Result} (h : m.ProjectionOf pl r) {e : Event} (htrace : r'.trace = r.trace ++ [e])
    (hkind : e.kind = .cleanup) (hacquired : r'.acquired = r.acquired)
    (hexplicit : r'.explicitReleases = r.explicitReleases)
    (hcleanup : r'.cleanupReleases = r.cleanupReleases + 1)
    (hm : m' = { m with
      cleanups := m.cleanups + 1
      tagClears := m.tagClears + pl.purecap.toNat }) : m'.ProjectionOf pl r' := by
  have hattempt : ∀ op, r'.trace.countP (Event.isAttempt op) =
      r.trace.countP (Event.isAttempt op) := by
    intro op
    rw [htrace, countP_snoc]
    simp [Event.isAttempt, hkind]
  have hclean : r'.trace.countP Event.isCleanup = r.trace.countP Event.isCleanup + 1 := by
    rw [htrace, countP_snoc]
    simp [Event.isCleanup, hkind]
  rw [hm]
  exact {
    acquisitions := h.acquisitions.trans (hattempt .acquire).symm
    reads := h.reads.trans (hattempt .read).symm
    releases := h.releases.trans (hattempt .release).symm
    cleanups := by rw [hclean, ← h.cleanups]
    cleanupReleases := by rw [hcleanup, ← h.cleanupReleases]
    errors := h.errors
    restrictedHandles := by rw [hacquired, ← h.restrictedHandles]
    tagClears := by
      have htags := h.tagClears
      rw [hexplicit, hcleanup]
      revert htags
      cases pl.purecap with
      | false => exact id
      | true => exact congrArg (· + 1) }

namespace GateState

variable {pl} {s t : GateState Handle Object}

/-- An attempt at `op` counts itself, whatever its outcome, and records nothing yet. -/
structure Attempted (pl : Platform Handle Object) (op : Opcode)
    (s t : GateState Handle Object) : Prop where
  pc : t.pc = s.pc
  events : t.r.events = s.r.events
  eventCount : t.r.eventCount = s.r.eventCount
  acquisitions : t.m.acquisitions = s.m.acquisitions + (op == .acquire).toNat
  reads : t.m.reads = s.m.reads + (op == .read).toNat
  releases : t.m.releases = s.m.releases + (op == .release).toNat
  cleanups : t.m.cleanups = s.m.cleanups
  cleanupReleases : t.r.cleanupReleases = s.r.cleanupReleases
  errors : t.m.representationErrors = s.m.representationErrors
  acquired : s.r.acquired ≤ 2 → t.r.acquired ≤ 2
  restrictedHandles : (s.m.restrictedHandles = if pl.purecap then s.r.acquired else 0) →
    t.m.restrictedHandles = if pl.purecap then t.r.acquired else 0
  tagClears :
    (s.m.tagClears = if pl.purecap then s.r.explicitReleases + s.r.cleanupReleases else 0) →
    t.m.tagClears = if pl.purecap then t.r.explicitReleases + t.r.cleanupReleases else 0

theorem attempted_acquire (s : GateState Handle Object) (success : Int) (dst : Nat) :
    Attempted pl .acquire s (s.acquire pl success dst).2.2 := by
  unfold acquire
  dsimp only
  split
  · exact ⟨rfl, rfl, rfl, rfl, rfl, rfl, rfl, rfl, rfl, id, id, id⟩
  split
  · exact ⟨rfl, rfl, rfl, rfl, rfl, rfl, rfl, rfl, rfl, id, id, id⟩
  rename_i hfull
  split
  · exact ⟨rfl, rfl, rfl, rfl, rfl, rfl, rfl, rfl, rfl, id, id, id⟩
  · refine ⟨rfl, rfl, rfl, ?_, ?_, ?_, ?_, rfl, ?_, fun hle => Nat.lt_of_le_of_ne hle hfull, ?_, ?_⟩ <;>
      cases hp : pl.purecap <;> simp [publish, hp]

theorem attempted_readField (s : GateState Handle Object) (view : Handle) :
    Attempted pl .read s (s.readField pl view).2.2 := by
  unfold readField
  dsimp only
  split
  · split
    · exact ⟨rfl, rfl, rfl, rfl, rfl, rfl, rfl, rfl, rfl, id, id, id⟩
    split
    · exact ⟨rfl, rfl, rfl, rfl, rfl, rfl, rfl, rfl, rfl, id, id, id⟩
    · exact ⟨rfl, rfl, rfl, rfl, rfl, rfl, rfl, rfl, rfl, id, id, id⟩
  · exact ⟨rfl, rfl, rfl, rfl, rfl, rfl, rfl, rfl, rfl, id, id, id⟩

theorem attempted_release (s : GateState Handle Object) (view : Handle) :
    Attempted pl .release s (s.release pl view).2.2 := by
  unfold release consume
  dsimp only
  split
  · rename_i token _
    split
    · exact ⟨rfl, rfl, rfl, rfl, rfl, rfl, rfl, rfl, rfl, id, id, id⟩
    · cases hlive : pl.objectIsLive (s.cells.getD (token - 1) pl.nullObject) with
      | false => exact ⟨rfl, rfl, rfl, rfl, rfl, rfl, rfl, rfl, rfl, id, id, id⟩
      | true =>
        refine ⟨rfl, rfl, rfl, ?_, ?_, ?_, ?_, rfl, ?_, id, ?_, ?_⟩
        all_goals cases pl.purecap <;> simp
        omega
  · exact ⟨rfl, rfl, rfl, rfl, rfl, rfl, rfl, rfl, rfl, id, id, id⟩

/-- The `switch` counts an attempt at the instruction's opcode. -/
theorem attempted (s : GateState Handle Object) (x : Insn) :
    Attempted pl x.op s (s.attempt pl x).2.2 := by
  obtain ⟨op, dst, src, imm⟩ := x
  cases op with
  | acquire => exact attempted_acquire s _ _
  | read => exact attempted_readField s _
  | release => exact attempted_release s _
  | _ => exact ⟨rfl, rfl, rfl, rfl, rfl, rfl, rfl, rfl, rfl, id, id, id⟩

/-- A pass is an attempt and its settlement. -/
theorem exec_settle (s : GateState Handle Object) (x : Insn) (hret : x.op ≠ .ret)
    (hother : ∀ k, x.op ≠ .other k) :
    ∃ next, s.exec pl x = (s.enter.attempt pl x).2.2.settle x.op (s.enter.attempt pl x).1
        (s.enter.attempt pl x).2.1 next ∧
      (next = s.pc + 1 ∨ x.op = .brNull ∧ next = sizeOfInt x.imm) := by
  obtain ⟨op, dst, src, imm⟩ := x
  cases op with
  | ret => exact absurd rfl hret
  | other k => exact absurd rfl (hother k)
  | brNull =>
    obtain ⟨outcome, token, hid⟩ : ∃ outcome token, identify pl s.enter.views
        (s.enter.regs.getD dst pl.null) s.enter.r.acquired = (outcome, token) := ⟨_, _, rfl⟩
    by_cases htaken : outcome = .ok ∧ token = 0
    · refine ⟨sizeOfInt imm, ?_, .inr ⟨rfl, rfl⟩⟩
      simp only [exec, attempt, hid, if_pos htaken]
    · refine ⟨s.pc + 1, ?_, .inl rfl⟩
      simp only [exec, attempt, hid, if_neg htaken]
  | _ => exact ⟨_, rfl, .inl rfl⟩

/-- The counters at a test of the loop guard or of the cleanup loop. -/
structure Projected (pl : Platform Handle Object) (s : GateState Handle Object) : Prop where
  counters : s.m.ProjectionOf pl s.r
  slots : s.r.events.length = 66
  acquired : s.r.acquired ≤ 2

theorem projected_init : Projected pl (.init pl) where
  counters := by
    refine ⟨rfl, rfl, rfl, rfl, rfl, rfl, ?_, ?_⟩
    · cases pl.purecap <;> rfl
    · cases pl.purecap <;> rfl
  slots := rfl
  acquired := Nat.zero_le 2

/-- The event of an attempt closes what the attempt opened: `r` is the result of the attempt but for
fields that nothing counts. -/
theorem Projected.recorded {op : Opcode} (h : Projected pl s)
    (ha : Attempted pl op s t) (hroom : s.r.eventCount < 66) {r : Result} {kind : EventKind}
    (hkind : kind ≠ .cleanup) (pc token next : Nat) (hevents : r.events = t.r.events)
    (hcount : r.eventCount = t.r.eventCount) (hacquired : r.acquired = t.r.acquired)
    (hexplicit : r.explicitReleases = t.r.explicitReleases)
    (hcleanup : r.cleanupReleases = t.r.cleanupReleases) :
    Projected pl { t with r := record r kind op pc token, pc := next } := by
  have hslots : r.events.length = 66 := by rw [hevents, ha.events, h.slots]
  have htrace : (record r kind op pc token).trace =
      s.r.trace ++ [⟨kind, op, pc, token, r.objectRefs⟩] := by
    rw [trace_record (by rw [hslots, hcount, ha.eventCount]; exact hroom), Result.trace, Result.trace,
      hevents, hcount, ha.events, ha.eventCount]
  have hattempt : ∀ op', (record r kind op pc token).trace.countP (Event.isAttempt op') =
      s.r.trace.countP (Event.isAttempt op') + (op == op').toNat := by
    intro op'
    have hbne : (kind != .cleanup) = true := bne_iff_ne.mpr hkind
    rw [htrace, countP_snoc]
    simp only [Event.isAttempt, hbne, Bool.true_and]
  have hclean : (record r kind op pc token).trace.countP Event.isCleanup =
      s.r.trace.countP Event.isCleanup := by
    rw [htrace, countP_snoc]
    simp [Event.isCleanup, hkind]
  have hc := h.counters
  refine ⟨⟨?_, ?_, ?_, ?_, ?_, ?_, ?_, ?_⟩, ?_, ?_⟩
  · rw [hattempt, ← hc.acquisitions]
    exact ha.acquisitions
  · rw [hattempt, ← hc.reads]
    exact ha.reads
  · rw [hattempt, ← hc.releases]
    exact ha.releases
  · rw [hclean, ← hc.cleanups]
    exact ha.cleanups
  · change t.m.cleanups = r.cleanupReleases
    rw [hcleanup, ha.cleanups, ha.cleanupReleases, hc.cleanupReleases]
  · exact ha.errors.trans hc.errors
  · change t.m.restrictedHandles = if pl.purecap then r.acquired else 0
    rw [hacquired]
    exact ha.restrictedHandles hc.restrictedHandles
  · change t.m.tagClears = if pl.purecap then r.explicitReleases + r.cleanupReleases else 0
    rw [hexplicit, hcleanup]
    exact ha.tagClears hc.tagClears
  · change (r.events.set r.eventCount _).length = 66
    rw [List.length_set, hslots]
  · change r.acquired ≤ 2
    rw [hacquired]
    exact ha.acquired h.acquired

/-- The end of a pass that is no representation failure. -/
theorem Projected.settle {op : Opcode} (h : Projected pl s)
    (ha : Attempted pl op s t) (hroom : s.r.eventCount < 66) {outcome : GateOutcome}
    (ho : outcome ≠ .representation) (token next : Nat) :
    Projected pl (t.settle op outcome token next).state ∧
      (t.settle op outcome token next).state.r.eventCount = s.r.eventCount + 1 ∧
      ∀ u, t.settle op outcome token next = .next u → u.pc = next := by
  unfold GateState.settle
  rw [if_neg ho]
  split
  · refine ⟨h.recorded ha hroom (by simp) t.pc token t.pc rfl rfl rfl rfl rfl,
      congrArg (· + 1) ha.eventCount, ?_⟩
    intro u hu
    cases hu
  · refine ⟨h.recorded ha hroom (by simp) t.pc token next rfl rfl rfl rfl rfl,
      congrArg (· + 1) ha.eventCount, ?_⟩
    intro u hu
    obtain rfl := Control.next.inj hu
    rfl

theorem Projected.enter (h : Projected pl s) : Projected pl s.enter :=
  ⟨⟨h.1.1, h.1.2, h.1.3, h.1.4, h.1.5, h.1.6, h.1.7, h.1.8⟩, h.2, h.3⟩

/-- One pass on a validated instruction. -/
theorem Projected.exec {p : Nat → Insn} {n : Nat} (hv : Validated p n) (h : Projected pl s)
    (hpc : s.pc < n) (hcount : s.r.eventCount ≤ s.pc)
    (ho : (s.enter.attempt pl (p s.pc)).1 ≠ .representation) :
    Projected pl (s.exec pl (p s.pc)).state ∧
      (s.exec pl (p s.pc)).state.r.eventCount = s.r.eventCount + 1 ∧
      ∀ u, s.exec pl (p s.pc) = .next u → s.pc < u.pc ∧ u.pc ≤ n := by
  have hle := hv.le
  have hok := hv.ok s.pc hpc
  have hroom : s.enter.r.eventCount < 66 := by
    change s.r.eventCount < 66
    omega
  by_cases hret : (p s.pc).op = .ret
  · have hexec : s.exec pl (p s.pc) = .finish (s.enter.returnAt .ret (p s.pc).imm) := by
      simp only [GateState.exec, hret]
    have ha : Attempted pl .ret s.enter s.enter :=
      s.enter.attempted ⟨.ret, 0, 0, (p s.pc).imm⟩
    rw [hexec]
    refine ⟨h.enter.recorded ha hroom (by simp) s.pc 0 s.pc rfl rfl rfl rfl rfl, rfl, ?_⟩
    intro u hu
    cases hu
  · obtain ⟨next, hexec, hnext⟩ := s.exec_settle (p s.pc) hret (insnOk_other hok)
    rw [hexec]
    obtain ⟨hproj, hevents, hpc'⟩ := h.enter.settle (s.enter.attempted (p s.pc)) hroom ho
      (s.enter.attempt pl (p s.pc)).2.1 next
    refine ⟨hproj, hevents, ?_⟩
    intro u hu
    rw [hpc' u hu]
    rcases hnext with rfl | ⟨hop, rfl⟩
    · omega
    · obtain ⟨_, hlow, hhigh⟩ := insnOk_brNull hok hop
      have := RunState.sizeOfInt_of_lt hlow hhigh hle
      omega

/-- One pass of the cleanup loop: a live cell is counted in every form, a dead one in none. -/
theorem Projected.cleanupCell (h : Projected pl s) (hroom : s.r.eventCount < 66) (i : Nat) :
    Projected pl (s.cleanupCell pl i) ∧
      (s.cleanupCell pl i).r.eventCount ≤ s.r.eventCount + 1 := by
  unfold GateState.cleanupCell consume
  dsimp only
  cases pl.objectIsLive (s.cells.getD i pl.nullObject) with
  | false => exact ⟨h, Nat.le_succ _⟩
  | true =>
    simp only [Bool.not_true, Bool.false_eq_true, if_false, if_true]
    have hslots : s.r.eventCount < s.r.events.length := by
      rw [h.slots]
      exact hroom
    refine ⟨⟨?_, ?_, h.acquired⟩, Nat.le_refl _⟩
    · refine h.counters.cleanedUp (trace_record (by exact hslots) .cleanup .release s.r.pc (i + 1))
        rfl rfl rfl rfl ?_
      cases pl.purecap <;> rfl
    · simpa [Cbpf.record] using h.slots

theorem Projected.cleanup (h : Projected pl s) (hcount : s.r.eventCount ≤ 64) :
    Projected pl (s.cleanup pl) := by
  have hall : ∀ cells : List Nat, s.r.eventCount + cells.length ≤ 66 →
      Projected pl (cells.foldl (fun s i => s.cleanupCell pl i) s) := by
    intro cells hroom
    clear hcount
    induction cells generalizing s with
    | nil => exact h
    | cons i cells ih =>
      rw [List.length_cons] at hroom
      obtain ⟨hnext, hle⟩ := h.cleanupCell (by omega) i
      have hroom' : (s.cleanupCell pl i).r.eventCount + cells.length ≤ 66 := by omega
      exact ih hnext hroom'
  apply hall
  have := h.acquired
  rw [List.length_range]
  omega

end GateState

/-- The whole run, on a validated program, over any platform. -/
theorem gate_projected {p : Nat → Insn} {n : Nat} (hv : Validated p n)
    (hno : ∀ s, (cbpfGateRunLoop pl p n).Visits (.init pl) s → s.pc < n →
      (s.enter.attempt pl (p s.pc)).1 ≠ .representation) :
    ∃ t, (cbpfGateRunLoop pl p n).run (n + 1) (.init pl) = some t ∧
      (t.cleanup pl).m.ProjectionOf pl (t.cleanup pl).r := by
  have hle := hv.le
  obtain ⟨t, hrun, hproj, hcount⟩ := Loop.run_total (l := cbpfGateRunLoop pl p n)
    (fun s => (cbpfGateRunLoop pl p n).Visits (.init pl) s ∧ s.Projected pl ∧
      s.r.eventCount ≤ s.pc ∧ s.pc ≤ n)
    (fun t => t.Projected pl ∧ t.r.eventCount ≤ 64)
    (fun s => n - s.pc)
    (fun s t ⟨hvisit, hproj, hcount, _⟩ hg hb => by
      have hpc : s.pc < n := by simpa [cbpfGateRunLoop] using hg
      obtain ⟨hnext, hevents, hforward⟩ := hproj.exec hv hpc hcount (hno s hvisit hpc)
      have hexec : s.exec pl (p s.pc) = .next t := hb
      obtain ⟨hlt, hin⟩ := hforward t hexec
      rw [hexec] at hnext hevents
      change t.r.eventCount = s.r.eventCount + 1 at hevents
      exact ⟨⟨hvisit.pass hg hb, hnext, by omega, hin⟩, by omega⟩)
    (fun s t ⟨hvisit, hproj, hcount, hin⟩ he => by
      cases he with
      | guard hg => exact ⟨hproj, by omega⟩
      | body hg hb =>
        have hpc : s.pc < n := by simpa [cbpfGateRunLoop] using hg
        obtain ⟨hlast, hevents, _⟩ := hproj.exec hv hpc hcount (hno s hvisit hpc)
        have hexec : s.exec pl (p s.pc) = .finish t := hb
        rw [hexec] at hlast hevents
        change t.r.eventCount = s.r.eventCount + 1 at hevents
        exact ⟨hlast, by omega⟩)
    ⟨.start, GateState.projected_init, Nat.le_refl 0, Nat.zero_le n⟩
    (Nat.lt_succ_of_le (Nat.sub_le n _))
  exact ⟨t, hrun, (hproj.cleanup hcount).counters⟩

end Metrics

/-- Gate metrics are a projection of the trace: of every run without a representation failure, on
any program and any platform. The caller that passes no metrics gets the same result. -/
theorem metrics_projection (Handle Object : Type) (pl : Platform Handle Object) (p : InsnPtr)
    (n : Nat) (hno : NoRepresentationFailure pl p n) :
    ∃ r m, (∀ metrics, cbpfGateRun pl p n metrics = some (r, if metrics then some m else none)) ∧
      m.ProjectionOf pl r := by
  unfold cbpfGateRun
  cases hval : cbpfValidate p n with
  | error bad =>
    refine ⟨_, GateMetrics.init pl, fun metrics => rfl, ?_⟩
    exact ⟨rfl, rfl, rfl, rfl, rfl, rfl, by cases pl.purecap <;> rfl, by cases pl.purecap <;> rfl⟩
  | ok u =>
    obtain ⟨t, hrun, hproj⟩ := gate_projected pl (validated_of_cbpfValidate hval) (hno hval)
    exact ⟨_, _, fun metrics => by simp only [hrun, Option.map_some], hproj⟩

/-- No capability is missing where every view can be prepared: on the host, and in a purecap build
with exact bounds for both cells. -/
theorem noRepresentationFailure {Handle Object : Type} {pl : Platform Handle Object}
    (hpl : pl.Lawful) (hprep : ∀ i < 2, (pl.prepareView i).isSome) (p : InsnPtr) (n : Nat) :
    NoRepresentationFailure pl p n := by
  intro hval g hg hpc hfail
  have hv := validated_of_cbpfValidate hval
  obtain ⟨s, hs, hsim⟩ := Sim.visits hpl hv hg
  obtain ⟨hinv, _⟩ := RunState.visits_inv hv hs
  have hok := hv.ok g.pc hpc
  have hrel := hsim.exec hpl hinv hok fun _ _ hlt => hprep _ hlt
  have hret : (p.deref g.pc).op ≠ .ret := by
    intro hret
    simp [GateState.attempt, hret] at hfail
  obtain ⟨next, hexec, _⟩ := g.exec_settle (p.deref g.pc) hret (insnOk_other hok)
  rw [hexec, hfail, GateState.settle, if_pos rfl] at hrel
  -- the reference interpreter ends no pass as invalid
  cases hb : s.exec (p.deref g.pc) with
  | next t =>
    rw [hb] at hrel
    cases hrel
  | finish t =>
    rw [hb] at hrel
    cases hrel with
    | finish hsim' =>
      have hstep := RunState.exec_step (s := s) hok
      rw [hb] at hstep
      have hstatus : t.r.status = .invalid := by rw [← hsim'.r]
      rcases hstep.finish_cases with ⟨_, hreturned, _⟩ | ⟨_, htrapped, _⟩
      · rw [hstatus] at hreturned
        cases hreturned
      · rw [hstatus] at htrapped
        cases htrapped

theorem metrics_projection_leakTwo : ∃ r m,
    cbpfGateRun (hostPlatform 8) (.ofList leakTwo) 5 true = some (r, some m) ∧
      m.acquisitions = r.trace.countP (Event.isAttempt .acquire) ∧ m.tagClears = 0 := by
  obtain ⟨r, m, hrun, hproj⟩ := metrics_projection _ _ (hostPlatform 8) (.ofList leakTwo) 5
    (noRepresentationFailure (hostPlatform_lawful 8) (fun _ _ => rfl) (.ofList leakTwo) 5)
  exact ⟨r, m, hrun true, hproj.acquisitions, hproj.tagClears⟩

end Cbpf
