import Cbpf.Kernel.AccessDecision
import Cbpf.Kernel.Enter
import Cbpf.Kernel.Teardown
import Cbpf.Lib.Interleaving

/-!
# Invocations on several CPUs

Every CPU runs `cbpf_test_invoke` one invocation after the other, with local bottom halves disabled.
Its atomic steps are the beginning of an invocation, a successful entry, one gate call and the
teardown; the provider object is shared by all CPUs.
-/

namespace Cbpf.Kernel

open Cheri Interleaving

/-- The atomic steps of one CPU on the object and its own `cbpf_active`. The native program makes no
gate call after a rejected one. -/
inductive CpuStep (env : Env) :
    ProviderObject → Option Invocation → ProviderObject → Option Invocation → Prop
  | start {o : ProviderObject} (prog cellsAddr : Nat) :
      CpuStep env o none o (some (.zeroed prog cellsAddr))
  | enter {o : ProviderObject} {s s' : Invocation} {ctx : EnterContext} {a : EnterArgs} {e : Entry} :
      cbpfEnter env ctx a s = .ok (s', e) → CpuStep env o (some s) o (some s')
  | gate {o : ProviderObject} {s : Invocation} (c : GateCall) : s.failed = false →
      CpuStep env o (some s) (Running.call ⟨o, s⟩ env c).1.object
        (some (Running.call ⟨o, s⟩ env c).1.s)
  | teardown {o : ProviderObject} {s : Invocation} (result : Nat) :
      CpuStep env o (some s) (Running.teardown ⟨o, s⟩ result).1.object none

/-- No invocation is active. -/
def idle (Cpu : Type) : State Cpu ProviderObject (Option Invocation) where
  shared := ⟨42, 1⟩
  locals := fun _ => none

/-- The number of tagged cells of a CPU. -/
def taggedOf : Option Invocation → Int
  | none => 0
  | some s => s.tagged

/-- What holds of the invocation of a CPU, if there is one. -/
def Sound (env : Env) : Option Invocation → Prop
  | none => True
  | some s => s.Inv env ∧ s.Accounted

/-- One step of one CPU keeps its invocation sound and the account of the references. -/
theorem cpuStep_sound {env : Env} {o o' : ProviderObject} {l l' : Option Invocation}
    (h : Sound env l) (hs : CpuStep env o l o' l') :
    Sound env l' ∧ o'.refs = o.refs + (taggedOf l' - taggedOf l) := by
  cases hs with
  | start prog cellsAddr =>
    refine ⟨⟨.zeroed env prog cellsAddr, .zeroed prog cellsAddr⟩, ?_⟩
    change o.refs = o.refs + (0 - 0)
    omega
  | enter he =>
    obtain ⟨hinv, hacc⟩ := h
    obtain ⟨_, _, rfl⟩ := cbpfEnter_ok he
    refine ⟨⟨hinv.congr rfl rfl rfl rfl rfl rfl, fun i => ?_⟩, ?_⟩
    · have hi := hacc i
      simp only [Invocation.consumptions, Invocation.cellAt] at hi
      simpa [Invocation.consumptions, Invocation.cellAt, List.countP_append, enterLine,
        LogLine.consumes] using hi
    · simp only [taggedOf, Invocation.tagged]
      omega
  | @gate s c =>
    obtain ⟨hinv, hacc⟩ := h
    have hstep := call_step env ⟨o, s⟩ c
    exact ⟨⟨Invocation.Inv.step hinv hstep, Invocation.Accounted.step hacc hinv hstep⟩,
      refs_step hinv hstep⟩
  | @teardown s result =>
    obtain ⟨hinv, hacc⟩ := h
    have htorn := tornDown (g := ⟨o, s⟩) hinv hacc result
    refine ⟨trivial, ?_⟩
    rw [htorn.refs]
    change o.refs - (s.tagged : Int) = o.refs + (0 - (s.tagged : Int))
    omega

/-- Whole-invocation balance on any number of CPUs, in every interleaving. -/
theorem invocations_balanced {Cpu : Type} [Fintype Cpu] [DecidableEq Cpu] (env : Env)
    (σ : State Cpu ProviderObject (Option Invocation))
    (h : Reachable (CpuStep env) (idle Cpu) σ) :
    σ.shared.refs = 1 + ∑ cpu, taggedOf (σ.locals cpu) ∧
    (∀ cpu τ, Step (CpuStep env) cpu σ τ →
      ∀ other, other ≠ cpu → τ.locals other = σ.locals other) ∧
    ∀ cpu s result, σ.locals cpu = some s →
      TornDown ⟨σ.shared, s⟩ result (Running.teardown ⟨σ.shared, s⟩ result).1
        (Running.teardown ⟨σ.shared, s⟩ result).2 ∧
      Step (CpuStep env) cpu σ ⟨(Running.teardown ⟨σ.shared, s⟩ result).1.object,
        Function.update σ.locals cpu none⟩ := by
  have hstep : ∀ o l o' l', True → Sound env l → CpuStep env o l o' l' →
      (True ∧ Sound env l') ∧ o'.refs = o.refs + (taggedOf l' - taggedOf l) :=
    fun o l o' l' _ hl hs => ⟨⟨trivial, (cpuStep_sound hl hs).1⟩, (cpuStep_sound hl hs).2⟩
  have hbalance := h.balance (J := fun _ => True) ProviderObject.refs taggedOf trivial
    (fun _ => trivial) hstep
  have hsound := (h.invariant (J := fun _ => True) trivial (fun _ => trivial)
    fun o l o' l' a b c => (hstep o l o' l' a b c).1).2
  refine ⟨?_, fun cpu τ hmove other hne => hmove.locals_of_ne hne, ?_⟩
  · rw [hbalance]
    simp [idle, taggedOf]
  · intro cpu s result hs
    have hl := hsound cpu
    rw [hs] at hl
    refine ⟨tornDown (g := ⟨σ.shared, s⟩) hl.1 hl.2 result, none, ?_, rfl⟩
    rw [hs]
    exact .teardown result

/-- A program counter capability and an entry that pass every check of `cbpf_enter`. -/
def flatContext : EnterContext where
  callerLr := 65536
  pcc := ⟨true, false, 0, 0, 2 ^ 64, 2 ^ 18 - 1⟩
  gatewayAddr := 32768
  permsWrite := permStore ||| permStoreCap

def flatEntry : EnterArgs where
  stackBase := 8192
  stackSize := 16
  retAddr := 66560
  executiveReturnSize := 256
  outerReturnAddr := 16384
  progCookie := 7

/-- Program 7's invocation after its entry. -/
def enteredInvocation : Invocation :=
  { Invocation.zeroed 7 12288 with
    entered := true
    printed := [enterLine flatContext flatEntry] }

/-- The same after one acquisition. -/
def leaking : Running :=
  (Running.call ⟨⟨42, 1⟩, enteredInvocation⟩ flatEnv ⟨.null, 1, 3⟩).1

/-- CPU 0 holds an acquisition that its program leaks; CPU 1 has just started an invocation. -/
theorem invocations_balanced_leak :
    leaking.object.refs = 1 + (taggedOf (some leaking.s) +
      taggedOf (some (.zeroed 7 20480))) ∧
    TornDown leaking 0 (leaking.teardown 0).1 (leaking.teardown 0).2 := by
  have hentry : ∃ e, cbpfEnter flatEnv flatContext flatEntry (.zeroed 7 12288) =
      .ok (enteredInvocation, e) := ⟨_, rfl⟩
  obtain ⟨e, hentry⟩ := hentry
  have hidle : Reachable (CpuStep flatEnv) (idle (Fin 2)) (idle (Fin 2)) := .refl
  have hstart := hidle.move 0 rfl (.start 7 12288)
  have hentered := hstart.move 0 rfl (.enter hentry)
  have hother := hentered.move 1 rfl (.start 7 20480)
  have hrun := hother.move 0 rfl (.gate (s := enteredInvocation) ⟨.null, 1, 3⟩ rfl)
  obtain ⟨hrefs, _, hdown⟩ := invocations_balanced flatEnv _ hrun
  refine ⟨?_, (hdown 0 leaking.s 0 rfl).1⟩
  rw [Fin.sum_univ_two] at hrefs
  exact hrefs

end Cbpf.Kernel
