import Cbpf.CheckedGate
import Cbpf.Ledger

/-!
# No interpreter leaves its arrays or its loop

`Interpreter` is what the two interpreters have in common. On every validated program their checked
passes and cleanups compute what the plain ones compute, each pass moves forward, and the loop ends
by an instruction that leaves it, never at its guard.
-/

namespace Cbpf

open BoundedLoop

/-- An interpreter: its local state, one pass and the cleanup, plain and checked. -/
structure Interpreter (σ : Type) where
  start : σ
  pc : σ → Nat
  result : σ → Result
  exec : σ → Insn → Control σ
  checkedExec : σ → Insn → Except Fault (Control σ)
  cleanup : σ → σ
  checkedCleanup : σ → Except Fault σ

/-- `for (pc = 0; pc < n; ) { ... }` of either interpreter. -/
def Interpreter.loop {σ : Type} (I : Interpreter σ) (p : Nat → Insn) (n : Nat) : Loop σ where
  guard s := I.pc s < n
  body s := I.exec s (p (I.pc s))

def runInterpreter : Interpreter RunState where
  start := .init
  pc := RunState.pc
  result := RunState.r
  exec := RunState.exec
  checkedExec := RunState.checkedExec
  cleanup := RunState.cleanup
  checkedCleanup := RunState.checkedCleanup

def gateInterpreter {Handle Object : Type} (pl : Platform Handle Object) :
    Interpreter (GateState Handle Object) where
  start := .init pl
  pc := GateState.pc
  result := GateState.r
  exec := GateState.exec pl
  checkedExec := GateState.checkedExec pl
  cleanup := GateState.cleanup pl
  checkedCleanup := GateState.checkedCleanup pl

/-- The run of `p` leaves neither its arrays nor its loop abnormally, and ends with result `r`. -/
structure Interpreter.Contained {σ : Type} (I : Interpreter σ) (p : Nat → Insn) (n : Nat)
    (r : Result) : Prop where
  /-- the guard never ends the loop -/
  inside : ∀ s, (I.loop p n).Visits I.start s → I.pc s < n
  checked : ∀ s, (I.loop p n).Visits I.start s →
    I.checkedExec s (p (I.pc s)) = .ok (I.exec s (p (I.pc s)))
  forward : ∀ s t, (I.loop p n).Visits I.start s → I.exec s (p (I.pc s)) = .next t →
    I.pc s < I.pc t
  log : ∀ s, (I.loop p n).Visits I.start s → (I.result s).eventCount ≤ I.pc s
  /-- at most `n` passes, of which the last leaves the loop -/
  finish : ∃ s t, (I.loop p n).Visits I.start s ∧ I.exec s (p (I.pc s)) = .finish t ∧
    (I.loop p n).run n I.start = some t ∧ I.checkedCleanup t = .ok (I.cleanup t) ∧
    r = I.result (I.cleanup t) ∧ (r.status = .returned → (p (I.pc s)).op = .ret)
  events : r.eventCount ≤ n + r.acquired ∧ n + r.acquired ≤ cbpfMaxEvents

/-- What the last pass leaves for the cleanup loop. -/
theorem RunState.Step.finish_log {s t : RunState} {x : Insn} (hs : RunState.Step s x (.finish t)) :
    t.r.eventCount = s.r.eventCount + 1 ∧ t.r.events.length = s.r.events.length ∧
      (t.r.status = .returned → x.op = .ret) := by
  obtain ⟨_, hr, hlength⟩ := hs.finish_frame
  refine ⟨by rw [hr], hlength, fun hstatus => ?_⟩
  rcases hs.finish_cases with ⟨hop, _⟩ | ⟨_, htrapped, _⟩
  · exact hop
  · rw [hstatus] at htrapped
    cases htrapped

section Contained

open RunState

variable {p : Nat → Insn} {n : Nat}

theorem visits_room (hv : Validated p n) {s : RunState} (h : (cbpfRunLoop p n).Visits .init s) :
    s.r.eventCount ≤ s.pc ∧ s.r.events.length = 66 ∧ s.r.eventCount < s.r.events.length := by
  have hlog := visits_logged hv h
  have hpc := (visits_inv hv h).2
  have hle := hv.le
  have hroom := hlog.room
  have hslots := hlog.slots
  exact ⟨hroom, hslots, by omega⟩

/-- The end of a run, from the state `t` of the last pass that the reference interpreter has or
would have. -/
theorem ends_room (hv : Validated p n) {t : RunState} (hinv : Inv t) (hslots : t.r.events.length = 66)
    (hcount : t.r.eventCount ≤ n) :
    t.r.eventCount + t.r.acquired ≤ t.r.events.length ∧
      t.cleanup.r.eventCount ≤ n + t.cleanup.r.acquired ∧
      n + t.cleanup.r.acquired ≤ cbpfMaxEvents := by
  have hle := hv.le
  have hacq := hinv.acquired_le
  have hclean := eventCount_cleanup t
  rw [acquired_cleanup, cbpfMaxEvents_eq]
  omega

theorem runInterpreter_contained (hv : Validated p n) :
    ∃ t, (cbpfRunLoop p n).run n .init = some t ∧
      runInterpreter.Contained p n t.cleanup.r := by
  obtain ⟨s, t, hvisit, hexec, hrun⟩ := loop_total hv (Nat.le_refl n)
  obtain ⟨hinv, hpc⟩ := visits_inv hv hvisit
  obtain ⟨hcount, hslots, hroom⟩ := visits_room hv hvisit
  have hstep := finish_step hv hvisit hexec
  obtain ⟨hcount', hslots', hret⟩ := hstep.finish_log
  have hinvt : Inv t := hinv.step hstep
  obtain ⟨hfit, hevents⟩ := ends_room hv hinvt (hslots'.trans hslots) (by omega)
  refine ⟨t, hrun, {
    inside := fun s hs => (visits_inv hv hs).2
    checked := ?_
    forward := ?_
    log := fun s hs => (visits_room hv hs).1
    finish := ⟨s, t, hvisit, hexec, hrun, checkedCleanup_ok hinvt hfit, rfl, ?_⟩
    events := hevents }⟩
  · intro s hs
    obtain ⟨hinv, hpc⟩ := visits_inv hv hs
    exact checkedExec_ok hinv (visits_room hv hs).2.2 (hv.ok s.pc hpc)
  · intro s u hs hb
    exact ((visits_step hv hs hb).pc_next hv (visits_inv hv hs).2).1
  · rw [status_cleanup]
    exact hret

variable {Handle Object : Type} {pl : Platform Handle Object}

/-- The last pass of the gate, as a last pass of the reference interpreter or a missing view. -/
theorem gate_finish (hpl : pl.Lawful) (hv : Validated p n) {g g' : GateState Handle Object}
    (h : (cbpfGateRunLoop pl p n).Visits (.init pl) g) (hb : g.exec pl (p g.pc) = .finish g') :
    ∃ t, Sim pl t g' ∧ Inv t ∧ t.r.events.length = 66 ∧ t.r.eventCount ≤ n ∧
      (t.r.status = .returned → (p g.pc).op = .ret) := by
  obtain ⟨s, hs, hsim⟩ := Sim.visits hpl hv h
  obtain ⟨hinv, hpc⟩ := visits_inv hv hs
  obtain ⟨hcount, hslots, _⟩ := visits_room hv hs
  rw [hsim.pc] at hb ⊢
  rcases hsim.exec_finish hpl hinv (hv.ok s.pc hpc) hb with ⟨t, hexec, hsim'⟩ | ⟨_, _, _, _, hsim'⟩
  · have hstep := finish_step hv hs hexec
    obtain ⟨hcount', hslots', hret⟩ := hstep.finish_log
    exact ⟨t, hsim', hinv.step hstep, hslots'.trans hslots, by omega, hret⟩
  · refine ⟨_, hsim', ?_, hslots, ?_, nofun⟩
    · exact ⟨hinv.1, hinv.2, hinv.3, hinv.4, hinv.5, hinv.6, hinv.7, hinv.8, hinv.9, hinv.10, hinv.11⟩
    · change s.r.eventCount ≤ n
      omega

theorem gateInterpreter_contained (hpl : pl.Lawful) (hv : Validated p n) :
    ∃ g, (cbpfGateRunLoop pl p n).run n (.init pl) = some g ∧
      (gateInterpreter pl).Contained p n (g.cleanup pl).r := by
  have hinside : ∀ g, (cbpfGateRunLoop pl p n).Visits (.init pl) g → g.pc < n := by
    intro g hg
    obtain ⟨s, hs, hsim⟩ := Sim.visits hpl hv hg
    rw [hsim.pc]
    exact (visits_inv hv hs).2
  have hforward : ∀ g g', (cbpfGateRunLoop pl p n).Visits (.init pl) g →
      g.exec pl (p g.pc) = .next g' → g.pc < g'.pc := by
    intro g g' hg hb
    obtain ⟨s, hs, hsim⟩ := Sim.visits hpl hv hg
    obtain ⟨hinv, hpc⟩ := visits_inv hv hs
    obtain ⟨s', hexec, hsim'⟩ := hsim.exec_next hpl hinv (hv.ok s.pc hpc) (hsim.pc ▸ hb)
    rw [hsim.pc, hsim'.pc]
    exact ((visits_step hv hs hexec).pc_next hv hpc).1
  have hstart : n - 1 - (GateState.init pl).pc < n := by
    have := hv.pos
    omega
  obtain ⟨g', hrun, g, hg, hb⟩ := Loop.run_total (l := cbpfGateRunLoop pl p n)
    (fun g => (cbpfGateRunLoop pl p n).Visits (.init pl) g)
    (fun g' => ∃ g, (cbpfGateRunLoop pl p n).Visits (.init pl) g ∧ g.exec pl (p g.pc) = .finish g')
    (fun g => n - 1 - g.pc)
    (fun g g' hg hguard hb => by
      have hlt := hforward g g' hg hb
      have hin := hinside g' (hg.pass hguard hb)
      exact ⟨hg.pass hguard hb, by omega⟩)
    (fun g g' hg he => by
      cases he with
      | guard hguard =>
        have hin := hinside g hg
        simp [cbpfGateRunLoop, hin] at hguard
      | body _ hb => exact ⟨g, hg, hb⟩) .start hstart
  obtain ⟨t, hsim, hinv, hslots, hcount, hret⟩ := gate_finish hpl hv hg hb
  obtain ⟨hfit, hevents⟩ := ends_room hv hinv hslots hcount
  have hr : (g'.cleanup pl).r = t.cleanup.r := (hsim.cleanup hpl).r
  refine ⟨g', hrun, {
    inside := hinside
    checked := ?_
    forward := hforward
    log := ?_
    finish := ⟨g, g', hg, hb, hrun, hsim.checkedCleanup_ok hpl hinv hfit, rfl, ?_⟩
    events := by
      rw [hr]
      exact hevents }⟩
  · intro g hg
    obtain ⟨s, hs, hsim⟩ := Sim.visits hpl hv hg
    obtain ⟨hinv, hpc⟩ := visits_inv hv hs
    have hok := hv.ok s.pc hpc
    rw [← hsim.pc] at hok
    exact hsim.checkedExec_ok hpl hinv (visits_room hv hs).2.2 hok
  · intro g hg
    obtain ⟨s, hs, hsim⟩ := Sim.visits hpl hv hg
    change g.r.eventCount ≤ g.pc
    rw [hsim.r, hsim.pc]
    exact (visits_room hv hs).1
  · rw [hr, status_cleanup]
    exact hret

end Contained

/-- Neither interpreter leaves its arrays or its loop abnormally on any valid program, the gate
interpreter not in either build and not when a view cannot be prepared. -/
theorem interpreters_contained (p : InsnPtr) (n : Nat) (hvalid : cbpfValidate p n = .ok ()) :
    (∃ r, cbpfRun p n = some r ∧ runInterpreter.Contained p.deref n r) ∧
    (∀ pointerBytes metrics, ∃ r m,
      cbpfGateRun (hostPlatform pointerBytes) p n metrics = some (r, m) ∧
        (gateInterpreter (hostPlatform pointerBytes)).Contained p.deref n r) ∧
    ∀ (l : PurecapLayout) (metrics : Bool), ∃ r m,
      cbpfGateRun (purecapPlatform l) p n metrics = some (r, m) ∧
        (gateInterpreter (purecapPlatform l)).Contained p.deref n r := by
  have hv := validated_of_cbpfValidate hvalid
  have hgate : ∀ {Handle Object : Type} {pl : Platform Handle Object}, pl.Lawful →
      ∀ metrics, ∃ r m, cbpfGateRun pl p n metrics = some (r, m) ∧
        (gateInterpreter pl).Contained p.deref n r := by
    intro Handle Object pl hpl metrics
    obtain ⟨g, hrun, hcontained⟩ := gateInterpreter_contained hpl hv
    refine ⟨_, if metrics then some (g.cleanup pl).m else none, ?_, hcontained⟩
    unfold cbpfGateRun
    simp only [hvalid, Loop.run_mono hrun (Nat.le_succ n), Option.map_some]
  refine ⟨?_, fun bytes => hgate (hostPlatform_lawful bytes), fun l => hgate (purecapPlatform_lawful l)⟩
  obtain ⟨t, hrun, hcontained⟩ := runInterpreter_contained hv
  refine ⟨_, ?_, hcontained⟩
  unfold cbpfRun
  simp only [hvalid, Loop.run_mono hrun (Nat.le_succ n), Option.map_some]

/-- Two acquisitions that both leak, one of them through a spilled alias. -/
def leakTwo : List Insn :=
  [⟨.acquire, 3, 0, 1⟩, ⟨.spill, 1, 3, 0⟩, ⟨.acquire, 3, 0, 1⟩, ⟨.read, 3, 0, 0⟩, ⟨.ret, 0, 0, 0⟩]

theorem interpreters_contained_leakTwo :
    (∃ r, cbpfRun (InsnPtr.ofList leakTwo) 5 = some r ∧
      runInterpreter.Contained (InsnPtr.ofList leakTwo).deref 5 r) ∧
    ∃ r m, cbpfGateRun (purecapPlatform stackLayout) (InsnPtr.ofList leakTwo) 5 true =
      some (r, m) ∧
      (gateInterpreter (purecapPlatform stackLayout)).Contained (InsnPtr.ofList leakTwo).deref 5 r :=
  have h := interpreters_contained (InsnPtr.ofList leakTwo) 5 (by decide)
  ⟨h.1, h.2.2 stackLayout true⟩

end Cbpf
