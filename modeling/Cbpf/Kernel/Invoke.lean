import Cbpf.Kernel.System
import Mathlib.Logic.Relation

/-!
# One call of `cbpf_test_invoke` (`linux/ownership/cbpf_runtime.c:378-413`)

What the called program can do to the object and to `cbpf_active` goes through `cbpf_enter` and
`cbpf_gate_impl`. Whatever it does, the call gives back what was taken.
-/

namespace Cbpf.Kernel

open Cheri Relation

/-- The object and what `cbpf_active` of a CPU points to. -/
abbrev Shared := ProviderObject × Option Invocation

/-- What native code can make the runtime do: a successful `cbpf_enter`, or a gate call, also one
after a rejection or with `cbpf_active` NULL. -/
inductive ProgStep (env : Env) : Shared → Shared → Prop
  | enter {o : ProviderObject} {s s' : Invocation} {ctx : EnterContext} {a : EnterArgs} {e : Entry} :
      cbpfEnter env ctx a s = .ok (s', e) → ProgStep env (o, some s) (o, some s')
  | gate (σ : Shared) (c : GateCall) :
      ProgStep env σ (cbpfGateImpl env σ.1 σ.2 c.argument c.operation c.pc).1

/-- No gate call has been rejected. -/
def Unrejected (σ : Shared) : Prop := ∀ s ∈ σ.2, s.failed = false

/-- A step of a program that has not been rejected, as native code makes them. -/
def NativeProgStep (env : Env) (σ τ : Shared) : Prop := ProgStep env σ τ ∧ Unrejected σ

/-- An atomic step of the CPU. -/
def CpuTurn (env : Env) (σ τ : Shared) : Prop := CpuStep env σ.1 σ.2 τ.1 τ.2

variable {env : Env} {object : ProviderObject} {σ τ : Shared}

/-- With `cbpf_active` NULL the gate fails and changes nothing. -/
theorem cbpfGateImpl_null (env : Env) (o : ProviderObject) (argument : Capability)
    (operation pc : Nat) :
    cbpfGateImpl env o none argument operation pc = ((o, none), cbpfFailure) := rfl

/-- Otherwise a gate call that follows no rejection is an atomic step. -/
theorem cbpfGateImpl_move {o : ProviderObject} {s : Invocation} (h : s.failed = false)
    (argument : Capability) (operation pc : Nat) :
    CpuTurn env (o, some s) (cbpfGateImpl env o (some s) argument operation pc).1 :=
  .gate ⟨argument, operation, pc⟩ h

/-- What a program does step by step are atomic steps. -/
theorem NativeProgStep.moves (h : NativeProgStep env σ τ) : ReflTransGen (CpuTurn env) σ τ := by
  obtain ⟨hstep, hunrejected⟩ := h
  cases hstep with
  | enter henter => exact .single (.enter henter)
  | gate _ c =>
    obtain ⟨o, active⟩ := σ
    cases active with
    | none =>
      rw [cbpfGateImpl_null]
    | some s => exact .single (cbpfGateImpl_move (hunrejected s rfl) _ _ _)

/-- And so is all that it does. -/
theorem moves_of_run (h : ReflTransGen (NativeProgStep env) σ τ) :
    ReflTransGen (CpuTurn env) σ τ := by
  induction h with
  | refl => exact .refl
  | tail _ hstep ih => exact ih.trans hstep.moves

/-- The invocation in `cbpf_active` has taken what is missing from `object`. -/
def LentTo (env : Env) (object : ProviderObject) (σ : Shared) : Prop :=
  ∃ s, σ.2 = some s ∧ Lent env object ⟨σ.1, s⟩

theorem LentTo.lent {o : ProviderObject} {s : Invocation} (h : LentTo env object (o, some s)) :
    Lent env object ⟨o, s⟩ := by
  obtain ⟨_, hs, hlent⟩ := h
  rwa [← Option.some.inj hs] at hlent

/-- Entering takes nothing. -/
theorem Lent.enter {o : ProviderObject} {s s' : Invocation} {ctx : EnterContext} {a : EnterArgs}
    {e : Entry} (h : Lent env object ⟨o, s⟩) (henter : cbpfEnter env ctx a s = .ok (s', e)) :
    Lent env object ⟨o, s'⟩ := by
  have hsound : Sound env (some s) := ⟨h.inv, h.accounted⟩
  obtain ⟨⟨hinv, haccounted⟩, hrefs⟩ := cpuStep_sound hsound (.enter (o := o) henter)
  have hlent := h.refs
  refine ⟨hinv, haccounted, ?_, h.value⟩
  simp only [taggedOf] at hrefs hlent ⊢
  omega

theorem ProgStep.lent (h : ProgStep env σ τ) (hσ : LentTo env object σ) : LentTo env object τ := by
  obtain ⟨s, hs, hlent⟩ := hσ
  cases h with
  | enter henter =>
    obtain rfl := Option.some.inj hs
    exact ⟨_, rfl, hlent.enter henter⟩
  | gate _ c =>
    rw [hs]
    exact ⟨_, rfl, hlent.call c⟩

/-- Whole programs. -/
theorem lent_of_run (h : ReflTransGen (ProgStep env) σ τ) (hσ : LentTo env object σ) :
    LentTo env object τ := by
  induction h with
  | refl => exact hσ
  | tail _ hstep ih => exact hstep.lent ih

/-- What `bpf_prog_run` does to the object and the invocation of its CPU. -/
def Runs (step : Shared → Shared → Prop) (bpfProgRun : Running → Running × Nat) : Prop :=
  ∀ g, ReflTransGen step (g.object, some g.s) ((bpfProgRun g).1.object, some (bpfProgRun g).1.s)

/-- A call of `cbpf_test_invoke` leaves the object and `cbpf_active` as they were, whatever the
program does and also when it is refused. It returns 0 or the program's result, having consumed every
acquisition; and with a program that stops at a rejection it is a run of the CPU from idle to
idle. -/
theorem cbpfTestInvoke_restores (env : Env) (object : ProviderObject) (active : Option Invocation)
    (cbpfGate : Bool) (prog cellsAddr : Nat) (bpfProgRun : Running → Running × Nat)
    (hrun : Runs (ProgStep env) bpfProgRun) :
    (cbpfTestInvoke object active cbpfGate prog cellsAddr bpfProgRun).1 = (object, active) ∧
      (active ≠ none ∨ cbpfGate = false →
        (cbpfTestInvoke object active cbpfGate prog cellsAddr bpfProgRun).2 = 0) ∧
      (active = none → cbpfGate = true →
        ∀ out, out = bpfProgRun ⟨object, .zeroed prog cellsAddr⟩ →
          TornDown out.1 out.2 (out.1.teardown out.2).1
            (cbpfTestInvoke object active cbpfGate prog cellsAddr bpfProgRun).2 ∧
          (Runs (NativeProgStep env) bpfProgRun → TransGen (CpuTurn env) (object, active)
            (cbpfTestInvoke object active cbpfGate prog cellsAddr bpfProgRun).1)) := by
  have hlent := (lent_of_run (hrun ⟨object, .zeroed prog cellsAddr⟩)
    ⟨_, rfl, .zeroed env object prog cellsAddr⟩).lent
  have hback := hlent.teardown (bpfProgRun ⟨object, .zeroed prog cellsAddr⟩).2
  cases active with
  | some s =>
    refine ⟨rfl, fun _ => rfl, fun h => ?_⟩
    cases h
  | none =>
    cases cbpfGate with
    | false =>
      refine ⟨rfl, fun _ => rfl, fun _ h => ?_⟩
      cases h
    | true =>
      refine ⟨Prod.ext hback rfl, fun h => ?_, ?_⟩
      · rcases h with h | h
        · exact absurd rfl h
        · cases h
      · rintro _ _ _ rfl
        refine ⟨tornDown hlent.inv hlent.accounted _, fun hnative => ?_⟩
        have hmoves := moves_of_run (hnative ⟨object, .zeroed prog cellsAddr⟩)
        have hstart : CpuTurn env (object, none) (object, some (.zeroed prog cellsAddr)) :=
          .start prog cellsAddr
        have hend : CpuTurn env ((bpfProgRun ⟨object, .zeroed prog cellsAddr⟩).1.object,
            some (bpfProgRun ⟨object, .zeroed prog cellsAddr⟩).1.s)
            (cbpfTestInvoke object none true prog cellsAddr bpfProgRun).1 :=
          .teardown (bpfProgRun ⟨object, .zeroed prog cellsAddr⟩).2
        exact TransGen.tail' (.head hstart hmoves) hend

/-- A program that enters, acquires and leaks. -/
def leakingProg (g : Running) : Running × Nat :=
  match cbpfEnter flatEnv flatContext flatEntry g.s with
  | .error _ => (g, 0)
  | .ok (s, _) => ((Running.call ⟨g.object, s⟩ flatEnv ⟨.null, 1, 3⟩).1, 5)

/-- The leaked acquisition is cleaned up, and the program's result is returned. -/
theorem cbpfTestInvoke_restores_leak :
    cbpfTestInvoke ⟨42, 1⟩ none true 7 12288 leakingProg = ((⟨42, 1⟩, none), 5) ∧
      (leakingProg ⟨⟨42, 1⟩, .zeroed 7 12288⟩).1.object.refs = 2 := by
  have hrun : Runs (ProgStep flatEnv) leakingProg := by
    intro g
    unfold leakingProg
    cases henter : cbpfEnter flatEnv flatContext flatEntry g.s with
    | error err => exact .refl
    | ok out => exact .tail (.single (.enter henter)) (.gate (g.object, some out.1) ⟨.null, 1, 3⟩)
  obtain ⟨hback, _, hreturned⟩ := cbpfTestInvoke_restores flatEnv ⟨42, 1⟩ none true 7 12288
    leakingProg hrun
  obtain ⟨htorn, _⟩ := hreturned rfl rfl _ rfl
  exact ⟨Prod.ext hback htorn.returned, rfl⟩

end Cbpf.Kernel
