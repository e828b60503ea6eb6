import Cbpf.Containment
import Cbpf.Replace

/-!
# A capability that cannot be represented ends a run cleanly

When the view of the next cell cannot be prepared, the gate leaves its loop before any effect. What
it leaves for the cleanup loop is what a `RETURN 0` in place of the acquisition would leave, but for
the status and the event of the `RETURN`.
-/

namespace Cbpf

open BoundedLoop

namespace GateState

variable {Handle Object : Type} {pl : Platform Handle Object}

/-! ### The error counter -/

/-- A pass that counts a representation error ends the run as invalid. -/
def Counted (errors : Nat) (c : Control (GateState Handle Object)) : Prop :=
  c.state.m.representationErrors = errors ∨ ∃ t, c = .finish t ∧ t.r.status = .invalid

theorem settle_counted {s : GateState Handle Object} {errors : Nat}
    (h : s.m.representationErrors = errors) (op : Opcode) (outcome : GateOutcome)
    (token next : Nat) : Counted errors (s.settle op outcome token next) := by
  unfold settle
  split
  · exact .inr ⟨_, rfl, rfl⟩
  · split
    · exact .inl h
    · exact .inl h

theorem errors_acquire (s : GateState Handle Object) (success : Int) (dst : Nat) :
    (s.acquire pl success dst).2.2.m.representationErrors = s.m.representationErrors := by
  unfold acquire
  dsimp only
  split
  · rfl
  · split
    · rfl
    · split
      · rfl
      · simp only [publish]
        split <;> rfl

theorem errors_readField (s : GateState Handle Object) (view : Handle) :
    (s.readField pl view).2.2.m.representationErrors = s.m.representationErrors := by
  unfold readField
  dsimp only
  split
  · split
    · rfl
    · split <;> rfl
  · rfl

theorem errors_consume (pl : Platform Handle Object) (s : GateState Handle Object)
    (i token : Nat) (cleanup : Bool) :
    (s.consume pl i token cleanup).2.m.representationErrors = s.m.representationErrors := by
  unfold consume
  dsimp only
  split
  · rfl
  · dsimp only
    split <;> split <;> rfl

theorem errors_release (s : GateState Handle Object) (view : Handle) :
    (s.release pl view).2.2.m.representationErrors = s.m.representationErrors := by
  have hconsume := fun token : Nat => errors_consume pl
    { s with m := { s.m with releases := s.m.releases + 1 } } (token - 1) token false
  unfold release
  dsimp only
  split
  · rename_i token _
    split
    · rfl
    · have hc := hconsume token
      split <;> rename_i h <;> rw [h] at hc <;> exact hc
  · rfl

theorem exec_counted (s : GateState Handle Object) (x : Insn) :
    Counted s.m.representationErrors (s.exec pl x) := by
  unfold exec
  cases x.op with
  | acquire => exact settle_counted (errors_acquire s.enter _ _) _ _ _ _
  | read => exact settle_counted (errors_readField s.enter _) _ _ _ _
  | release => exact settle_counted (errors_release s.enter _) _ _ _ _
  | ret => exact .inl rfl
  | other k => exact .inl rfl
  | _ => exact settle_counted rfl _ _ _ _

theorem errors_cleanup (s : GateState Handle Object) :
    (s.cleanup pl).m.representationErrors = s.m.representationErrors := by
  unfold cleanup
  generalize List.range s.r.acquired = l
  induction l generalizing s with
  | nil => rfl
  | cons i l ih =>
    rw [List.foldl_cons, ih]
    have hc := errors_consume pl s i (i + 1) true
    unfold cleanupCell
    split <;> rename_i h <;> rw [h] at hc <;> exact hc

/-- No error has been counted at a test of the loop guard. -/
theorem errors_visits {p : Nat → Insn} {n : Nat} {g : GateState Handle Object}
    (h : (cbpfGateRunLoop pl p n).Visits (.init pl) g) : g.m.representationErrors = 0 := by
  induction h with
  | start => rfl
  | @pass a b _ _ hb ih =>
    have hexec : a.exec pl (p a.pc) = .next b := hb
    rcases hexec ▸ exec_counted a (p a.pc) with hcount | ⟨t, hfinish, _⟩
    · exact hcount.trans ih
    · cases hfinish

end GateState

namespace RunState

/-! ### The cleanup loop does not see the status -/

/-- The cleanup loop has the same work to do, in `t` after one more event. -/
structure SameCells (s t : RunState) : Prop where
  live : t.live = s.live
  pc : t.r.pc = s.r.pc
  acquired : t.r.acquired = s.r.acquired
  objectRefs : t.r.objectRefs = s.r.objectRefs
  cleanupReleases : t.r.cleanupReleases = s.r.cleanupReleases
  cleanupByCell : t.r.cleanupByCell = s.r.cleanupByCell
  eventCount : t.r.eventCount = s.r.eventCount + 1

theorem SameCells.cleanup {s t : RunState} (h : SameCells s t) : SameCells s.cleanup t.cleanup := by
  unfold RunState.cleanup
  rw [h.acquired]
  generalize List.range s.r.acquired = l
  induction l generalizing s t with
  | nil => exact h
  | cons i l ih =>
    apply ih
    have hlive : t.isLive i = s.isLive i := by rw [isLive, isLive, h.live]
    cases hl : s.isLive i with
    | false =>
      rw [cleanupCell_dead hl, cleanupCell_dead (hlive.trans hl)]
      exact h
    | true =>
      rw [cleanupCell_live hl, cleanupCell_live (hlive.trans hl)]
      exact {
        live := congrArg (fun live => live.set i false) h.live
        pc := h.pc
        acquired := h.acquired
        objectRefs := congrArg (fun refs => refs - 1) h.objectRefs
        cleanupReleases := congrArg (fun k => k + 1) h.cleanupReleases
        cleanupByCell := congrArg (fun cells => bump cells i) h.cleanupByCell
        eventCount := congrArg (fun k => k + 1) h.eventCount }

/-- Stopping at an instruction leaves the cells as a `RETURN` there does. -/
theorem sameCells_invalid (s : RunState) (op : Opcode) (imm : Int) :
    SameCells s.enter.invalid (s.enter.returnAt op imm) :=
  ⟨rfl, rfl, rfl, rfl, rfl, rfl, rfl⟩

section Visits

variable {p : Nat → Insn} {n : Nat} {s : RunState}

/-- The events written so far are those of earlier instructions. -/
theorem visits_earlier (hv : Validated p n) (h : (cbpfRunLoop p n).Visits init s) :
    ∀ e ∈ s.r.trace, e.pc < s.pc := by
  induction h with
  | start => nofun
  | @pass a b hvisit _ hb ih =>
    have hstep := visits_step hv hvisit hb
    have hlt := (hstep.pc_next hv (visits_inv hv hvisit).2).1
    have htrace : b.r.trace = _ := hstep.trace (visits_room hv hvisit).2.2
    intro e he
    rw [htrace] at he
    rcases List.mem_append.mp he with he | he
    · exact Nat.lt_trans (ih e he) hlt
    · rw [List.mem_singleton.mp he]
      exact hlt

theorem Inv.invalid (h : Inv s) : Inv s.enter.invalid :=
  ⟨h.1, h.2, h.3, h.4, h.5, h.6, h.7, h.8, h.9, h.10, h.11⟩

end Visits

end RunState

/-- The result of a run stopped at instruction `k` for want of a view, beside the result `r₀` of the
run that finds `RETURN 0` there. -/
structure Result.StoppedClean (k : Nat) (r r₀ : Result) : Prop where
  status : r.status = .invalid
  returned : r₀.status = .returned
  trap : r.trap = .noTrap
  pc : r.pc = k
  effects : ∀ i < r.acquired, r.explicitAt i + r.cleanupAt i = 1
  objectRefs : r.objectRefs = 1
  fields : r = { r₀ with status := .invalid, eventCount := r.eventCount, events := r.events }
  eventCount : r.eventCount + 1 = r₀.eventCount
  /-- the acquisitions and all steps come before `k` -/
  events : ∃ steps cleanups refs, r.trace = steps ++ cleanups ∧
    r₀.trace = steps ++ ⟨.step, .ret, k, 0, refs⟩ :: cleanups ∧
    (∀ e ∈ steps, e.kind = .step ∧ e.pc < k) ∧ (∀ e ∈ cleanups, e.kind = .cleanup) ∧
    r.acquired = steps.countP Event.isAcquire

open RunState in
/-- What stopping and returning at a visited state leave. -/
theorem stoppedClean {p : Nat → Insn} {n : Nat} (hv : Validated p n) {s : RunState}
    (h : (cbpfRunLoop p n).Visits .init s) :
    s.enter.invalid.cleanup.r.StoppedClean s.pc (s.enter.returnAt .ret 0).cleanup.r := by
  obtain ⟨hinv, _⟩ := visits_inv hv h
  obtain ⟨hcount, hslots, hroom⟩ := visits_room hv h
  have hquiet := visits_quiet hv h
  have hlog := visits_logged hv h
  have hacq := hinv.acquired_le
  have hpc := (visits_inv hv h).2
  have hle := hv.le
  have hsame := (sameCells_invalid s .ret 0).cleanup
  have hret : Step s ⟨.ret, 0, 0, 0⟩ (.finish (s.enter.returnAt .ret 0)) := .ret rfl
  have htrace : (s.enter.returnAt .ret 0).r.trace =
      s.r.trace ++ [⟨.step, .ret, s.pc, 0, s.r.objectRefs⟩] :=
    hret.trace hroom
  have htrace₁ := trace_cleanup (s := s.enter.invalid)
    (by change s.r.eventCount + s.r.acquired ≤ s.r.events.length; omega)
  have htrace₀ := trace_cleanup (s := s.enter.returnAt .ret 0)
    (by change s.r.eventCount + 1 + s.r.acquired ≤ (s.r.events.set _ _).length
        rw [List.length_set]
        omega)
  refine {
    status := by rw [status_cleanup]; rfl
    returned := by rw [status_cleanup]; rfl
    trap := by rw [trap_cleanup]; exact hquiet.trap
    pc := by rw [pc_cleanup]; rfl
    effects := ?_
    objectRefs := hinv.invalid.objectRefs_cleanup
    fields := ?_
    eventCount := hsame.eventCount.symm
    events := ⟨s.r.trace, _, s.r.objectRefs, htrace₁, ?_, ?_, ?_, ?_⟩ }
  · intro i hi
    have hcell := hinv.invalid.cleanup.cells i hi
    rwa [hinv.invalid.isLive_cleanup] at hcell
  · have hframe₁ := (cleanup_frame s.enter.invalid).2.2
    have hframe₀ := (cleanup_frame (s.enter.returnAt .ret 0)).2.2
    rw [hsame.objectRefs, hsame.cleanupReleases, hsame.cleanupByCell] at hframe₀
    have hreturned : s.enter.invalid.r = { s.enter.invalid.r with returned := 0 } :=
      congrArg (fun v => { s.enter.invalid.r with returned := v }) hquiet.returned
    rw [hreturned] at hframe₁
    rw [hframe₀]
    exact hframe₁
  · rw [htrace₀, htrace, List.append_assoc]
    rfl
  · exact fun e he => ⟨(hlog.steps e he).1, visits_earlier hv h e he⟩
  · exact fun e he => kind_of_mem_cleanupEvents he
  · rw [acquired_cleanup]
    exact hlog.tally.acquired

/-- The pass on `x` calls `prepare_view`, which fails. -/
def PrepareFails (l : PurecapLayout) (x : Insn) (g : GateState Capability Capability) : Prop :=
  x.op = .acquire ∧ intOfInt64 x.imm ≠ 0 ∧ g.r.acquired ≠ cbpfCells ∧
    prepareView l.enc l.capabilityBytes (l.cell g.r.acquired) = none

open RunState in
/-- A capability-representation failure is clean, whichever views can be prepared: a run of the
purecap gate whose first failure is at an executed instruction is, up to the status and one event,
the run that returns 0 there, and a run without failure is the run of `cbpf_run`. -/
theorem representation_failure_clean (p : InsnPtr) (n : Nat) (hvalid : cbpfValidate p n = .ok ())
    (l : PurecapLayout) :
    (∀ g, (cbpfGateRunLoop (purecapPlatform l) p.deref n).Visits (.init (purecapPlatform l)) g →
      PrepareFails l (p.deref g.pc) g →
      let p' := p.replace g.pc ⟨.ret, 0, 0, 0⟩
      ∃ r m r₀, (∀ metrics, cbpfGateRun (purecapPlatform l) p n metrics =
          some (r, if metrics then some m else none)) ∧
        m.representationErrors = 1 ∧ r.acquired = g.r.acquired ∧
        cbpfValidate p' n = .ok () ∧ cbpfRun p' n = some r₀ ∧ r.StoppedClean g.pc r₀) ∧
    ((∀ g, (cbpfGateRunLoop (purecapPlatform l) p.deref n).Visits (.init (purecapPlatform l)) g →
        ¬ PrepareFails l (p.deref g.pc) g) →
      ∃ r m, (∀ metrics, cbpfGateRun (purecapPlatform l) p n metrics =
          some (r, if metrics then some m else none)) ∧
        m.representationErrors = 0 ∧ cbpfRun p n = some r) := by
  have hv := validated_of_cbpfValidate hvalid
  have hpl := purecapPlatform_lawful l
  obtain ⟨g', hrun, hcontained⟩ := gateInterpreter_contained hpl hv
  have hgate : ∀ metrics, cbpfGateRun (purecapPlatform l) p n metrics =
      some ((g'.cleanup (purecapPlatform l)).r,
        if metrics then some (g'.cleanup (purecapPlatform l)).m else none) := by
    intro metrics
    unfold cbpfGateRun
    simp only [hvalid, Loop.run_mono hrun (Nat.le_succ n), Option.map_some]
  constructor
  · intro g hg hfail p'
    obtain ⟨s, hs, hsim⟩ := Sim.visits hpl hv hg
    obtain ⟨hinv, hpc⟩ := visits_inv hv hs
    rw [hsim.pc] at hfail
    obtain ⟨hop, himm, hacq, hnone⟩ := hfail
    rw [hsim.r] at hacq hnone
    have hle := hinv.acquired_le
    have himm0 : (p.deref s.pc).imm ≠ 0 := by
      intro h0
      exact himm (by rw [h0]; rfl)
    obtain ⟨g'', hexec, hsim', hm⟩ := hsim.exec_failed (hv.ok s.pc hpc) hop himm0
      (Nat.lt_of_le_of_ne hle hacq) hnone
    have hguard : (cbpfGateRunLoop (purecapPlatform l) p.deref n).guard g = true := by
      simpa [cbpfGateRunLoop, hsim.pc] using hpc
    rw [← hsim.pc] at hexec
    obtain rfl := hg.run_eq (.body hguard hexec) hrun
    have hok : insnOk n g.pc ⟨.ret, 0, 0, 0⟩ = true := rfl
    have hvalid' := cbpfValidate_replace hvalid hok fun _ => rfl
    have hderef := (deref_replace hvalid g.pc ⟨.ret, 0, 0, 0⟩).1
    have hs' := visits_replace (x := ⟨.ret, 0, 0, 0⟩) hv hs (Nat.le_of_eq hsim.pc.symm)
    have hexec' : s.exec (Function.update p.deref g.pc ⟨.ret, 0, 0, 0⟩ s.pc) =
        .finish (s.enter.returnAt .ret 0) := by
      rw [hsim.pc, Function.update_self]
      rfl
    have hr := (hsim'.cleanup hpl).r
    refine ⟨_, _, _, hgate, ?_, ?_, hvalid',
      run_of_visits hvalid' (hderef ▸ hs') (hderef ▸ hexec'), ?_⟩
    · rw [GateState.errors_cleanup, hm]
      exact congrArg (fun k => k + 1) (GateState.errors_visits hg)
    · rw [hr, acquired_cleanup, hsim.r]
      rfl
    · rw [hr, hsim.pc]
      exact stoppedClean hv hs
  · intro hnever
    obtain ⟨g, g'', hg, hexec, hrun', _⟩ := hcontained.finish
    obtain rfl := Option.some.inj (hrun.symm.trans hrun')
    obtain ⟨s, hs, hsim⟩ := Sim.visits hpl hv hg
    obtain ⟨hinv, hpc⟩ := visits_inv hv hs
    have hb : g.exec (purecapPlatform l) (p.deref g.pc) = .finish g' := hexec
    rw [hsim.pc] at hb
    rcases hsim.exec_finish hpl hinv (hv.ok s.pc hpc) hb with
      ⟨t, hexect, hsim'⟩ | ⟨hop, himm, hlt, hnone, _⟩
    · have hr := (hsim'.cleanup hpl).r
      refine ⟨_, _, hgate, ?_, by rw [hr]; exact run_of_visits hvalid hs hexect⟩
      rw [GateState.errors_cleanup]
      rcases hb ▸ GateState.exec_counted g (p.deref s.pc) with hcount | ⟨g'', hfinish, hinvalid⟩
      · exact hcount.trans (GateState.errors_visits hg)
      · obtain rfl := Control.finish.inj hfinish
        rw [hsim'.r] at hinvalid
        rcases (finish_step hv hs hexect).finish_cases with ⟨_, hstatus, _⟩ | ⟨_, hstatus, _⟩
        · rw [hstatus] at hinvalid
          cases hinvalid
        · rw [hstatus] at hinvalid
          cases hinvalid
    · have hcast : intOfInt64 (p.deref s.pc).imm ≠ 0 := by
        rcases (insnOk_acquire (hv.ok s.pc hpc) hop).2 with h0 | h1
        · exact absurd h0 himm
        · rw [h1]
          decide
      apply absurd _ (hnever g hg)
      rw [hsim.pc]
      refine ⟨hop, hcast, ?_, ?_⟩
      · rw [hsim.r]
        exact Nat.ne_of_lt hlt
      · rw [hsim.r]
        exact hnone

/-- Two cells of which the second has no exact bounds. -/
def secondUnrepresentable : PurecapLayout :=
  { stackLayout with enc := ⟨fun base _ => base == 4096, fun _ _ _ => true⟩ }

theorem representation_failure_clean_leakTwo : ∃ r m r₀,
    cbpfGateRun (purecapPlatform secondUnrepresentable) (.ofList leakTwo) 5 true =
        some (r, some m) ∧ m.representationErrors = 1 ∧
      cbpfRun ((InsnPtr.ofList leakTwo).replace 2 ⟨.ret, 0, 0, 0⟩) 5 = some r₀ ∧
      r.StoppedClean 2 r₀ := by
  have hvisit := ((Loop.Visits.start (l := cbpfGateRunLoop (purecapPlatform secondUnrepresentable)
    (InsnPtr.ofList leakTwo).deref 5) (s := .init (purecapPlatform secondUnrepresentable))).pass
      rfl rfl).pass rfl rfl
  obtain ⟨r, m, r₀, hrun, herrors, _, _, hrun₀, hclean⟩ :=
    (representation_failure_clean (.ofList leakTwo) 5 (by decide) secondUnrepresentable).1 _ hvisit
      ⟨rfl, by decide, by decide, rfl⟩
  exact ⟨r, m, r₀, hrun true, herrors, hrun₀, hclean⟩

end Cbpf
