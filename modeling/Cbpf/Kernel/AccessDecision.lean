import Cbpf.Kernel.GateSteps

/-!
# What the gate grants to an arbitrary caller

Between entry and teardown a caller may pass any capability, any operation and any `pc`, any number
of times. The decision of each call is a condition on the invocation alone, and a rejected call has
no effect but the failure flag and its trace line.
-/

namespace Cbpf.Kernel

open Cheri

namespace Running

/-- One gate call with arbitrary arguments. -/
def Next (env : Env) (g g' : Running) : Prop := ∃ c, (g.call env c).1 = g'

/-- `static struct cbpf_object cbpf_object = { 42, … }` and a zeroed invocation that has been
entered. -/
def start (refs : Int) (prog cellsAddr : Nat) : Running where
  object := ⟨42, refs⟩
  s := { Invocation.zeroed prog cellsAddr with entered := true }

/-- Reached from an entered invocation by gate calls. -/
def Reachable (env : Env) (g : Running) : Prop :=
  ∃ refs prog cellsAddr, Relation.ReflTransGen (Next env) (start refs prog cellsAddr) g

/-- The argument is a published view whose private cell is still tagged. -/
def MayUse (g : Running) (c : GateCall) : Prop :=
  g.s.failed = false ∧
    ∃ j < g.s.acquired, c.argument = g.s.viewAt j ∧ (g.s.cellAt j).tag = true

/-- A requested acquisition has room and both its capabilities are constructible. -/
def MayAcquire (env : Env) (g : Running) (c : GateCall) : Prop :=
  g.s.failed = false ∧ c.argument.tag = false ∧ c.argument.address = 0 ∧ g.s.acquired < 2 ∧
    (g.s.viewFor env g.s.acquired).tag = true ∧ (objectCap env).tag = true

/-- A requested NULL acquisition. -/
def MayNull (g : Running) (c : GateCall) : Prop :=
  g.s.failed = false ∧ c.argument.tag = false ∧ c.argument.address = 1

end Running

/-- The decision on call `c` in state `g` and its effect. -/
structure AccessDecision (env : Env) (g : Running) (c : GateCall) (g' : Running)
    (result : Capability) : Prop where
  use : c.operation = 2 ∨ c.operation = 3 → (result ≠ cbpfFailure ↔ g.MayUse c)
  acquire : c.operation = 1 →
    ((result ≠ cbpfFailure ∧ g'.s.acquired = g.s.acquired + 1) ↔ g.MayAcquire env c)
  /-- the new identity is the next cell under its canonical view -/
  fresh : c.operation = 1 → g.MayAcquire env c → result = g.s.viewFor env g.s.acquired ∧
    g'.object = { g.object with refs := g.object.refs + 1 } ∧ g'.s = { g.s with
      cells := g.s.cells.set g.s.acquired (objectCap env)
      views := g.s.views.set g.s.acquired (g.s.viewFor env g.s.acquired)
      acquired := u32Inc g.s.acquired
      sequence := u32Inc g.s.sequence
      printed := g'.s.printed }
  /-- also at capacity -/
  null : c.operation = 1 → g.MayNull c → result = .null ∧ g' = g.trace .null c.pc 0
  other : ¬ ((c.operation = 2 ∨ c.operation = 3) ∧ g.MayUse c) →
    ¬ (c.operation = 1 ∧ (g.MayAcquire env c ∨ g.MayNull c)) → result = cbpfFailure
  read : c.operation = 2 → result ≠ cbpfFailure →
    result = .ofInt 42 ∧ g'.object = g.object ∧ g'.s = { g.s with
      reads := u32Inc g.s.reads
      sequence := u32Inc g.s.sequence
      printed := g'.s.printed }
  /-- only the cell of the view changes, and it loses its tag -/
  release : c.operation = 3 → result ≠ cbpfFailure →
    ∃ j < g.s.acquired, c.argument = g.s.viewAt j ∧ (g'.s.cellAt j).tag = false ∧
      (∀ i, i ≠ j → g'.s.cellAt i = g.s.cellAt i) ∧
      g'.object = { g.object with refs := g.object.refs - 1 } ∧ g'.s = { g.s with
        cells := g'.s.cells
        released := u32Inc g.s.released
        sequence := g'.s.sequence
        printed := g'.s.printed }
  rejected : result = cbpfFailure →
    g'.object = g.object ∧ g'.s = { g.s with
      failed := true
      sequence := u32Inc g.s.sequence
      printed := g'.s.printed }

variable {env : Env} {g g' : Running} {c : GateCall} {result : Capability}

/-- What every state between entry and teardown satisfies. -/
theorem reachable_inv (h : Running.Reachable env g) :
    g.s.Inv env ∧ g.s.entered = true ∧ g.object.value = 42 := by
  obtain ⟨refs, prog, cellsAddr, hrun⟩ := h
  induction hrun with
  | refl =>
    exact ⟨(Invocation.Inv.zeroed env prog cellsAddr).congr rfl rfl rfl rfl rfl rfl, rfl, rfl⟩
  | @tail a _ _ hstep ih =>
    obtain ⟨c, rfl⟩ := hstep
    obtain ⟨hinv, hentered, hvalue⟩ := ih
    have hs := call_step env a c
    obtain ⟨_, _, hsame, _, hobject⟩ := hs.frame
    exact ⟨hinv.step hs, hsame.trans hentered, hobject.trans hvalue⟩

/-- A call whose argument meets one of the three conditions is not rejected. -/
theorem not_rejects (hinv : g.s.Inv env) (hentered : g.s.entered = true)
    (h : ((c.operation = 2 ∨ c.operation = 3) ∧ g.MayUse c) ∨
      (c.operation = 1 ∧ (g.MayAcquire env c ∨ g.MayNull c))) : ¬ Rejects env g c := by
  intro hr
  rcases h with ⟨hop, hfailed, j, hj, hview, htag⟩ |
    ⟨hop, ⟨hfailed, hclear, hzero, hroom, hexact, hobject⟩ | ⟨hfailed, hclear, hone⟩⟩
  · cases hr with
    | inactive hi => simp [hentered, hfailed] at hi
    | argument h1 => omega
    | full h1 => omega
    | inexact h1 => omega
    | operation _ h2 h3 => omega
    | unknown _ hnone => exact hnone j hj hview
    | stale i _ hi hfirst _ hdead =>
      have hij := hinv.view_unique hi hj (hfirst.symm.trans hview)
      rw [hij, htag] at hdead
      cases hdead
  · cases hr with
    | inactive hi => simp [hentered, hfailed] at hi
    | argument _ harg =>
      rw [hclear] at harg
      rcases harg with harg | harg
      · cases harg
      · omega
    | full _ _ hfull => omega
    | inexact _ _ hbad => simp [hexact, hobject] at hbad
    | operation h1 => exact h1 hop
    | unknown h2 => omega
    | stale _ h2 => omega
  · cases hr with
    | inactive hi => simp [hentered, hfailed] at hi
    | argument _ harg =>
      rw [hclear] at harg
      rcases harg with harg | harg
      · cases harg
      · omega
    | full _ h0 => omega
    | inexact _ h0 => omega
    | operation h1 => exact h1 hop
    | unknown h2 => omega
    | stale _ h2 => omega

theorem null_ne_failure : Capability.null ≠ cbpfFailure := by decide

theorem fortyTwo_ne_failure : Capability.ofInt 42 ≠ cbpfFailure := by decide

theorem ne_failure_of_tag {view : Capability} (h : view.tag = true) : view ≠ cbpfFailure := by
  rintro rfl
  cases h

/-- The decision on a single outcome. -/
theorem GateStep.decision (hs : GateStep env g c g' result) (hinv : g.s.Inv env)
    (hentered : g.s.entered = true) (hvalue : g.object.value = 42) :
    AccessDecision env g c g' result := by
  cases hs with
  | reject hr =>
    have hnot := fun h => not_rejects (c := c) hinv hentered h hr
    exact {
      use := fun hop => ⟨fun hne => absurd rfl hne, fun hm => absurd (.inl ⟨hop, hm⟩) hnot⟩
      acquire := fun hop => ⟨fun hne => absurd rfl hne.1,
        fun hm => absurd (.inr ⟨hop, .inl hm⟩) hnot⟩
      fresh := fun hop hm => absurd (.inr ⟨hop, .inl hm⟩) hnot
      null := fun hop hm => absurd (.inr ⟨hop, .inr hm⟩) hnot
      other := fun _ _ => rfl
      read := fun _ hne => absurd rfl hne
      release := fun _ hne => absurd rfl hne
      rejected := fun _ => ⟨rfl, rfl⟩ }
  | null _ hfailed hop hclear hone =>
    exact {
      use := fun h => by omega
      acquire := fun _ => ⟨fun h => absurd h.2 (Nat.succ_ne_self _).symm, fun h => by
        have := h.2.2.1
        omega⟩
      fresh := fun _ h => by
        have := h.2.2.1
        omega
      null := fun _ _ => ⟨rfl, rfl⟩
      other := fun _ h => absurd ⟨hop, .inr ⟨hfailed, hclear, hone⟩⟩ h
      read := fun h => by omega
      release := fun h => by omega
      rejected := fun h => absurd h null_ne_failure }
  | acquire _ hfailed hop hclear hzero hne hview hobject =>
    have hlt : g.s.acquired < 2 := Nat.lt_of_le_of_ne hinv.acquired_le hne
    have hfailure := ne_failure_of_tag hview
    exact {
      use := fun h => by omega
      acquire := fun _ => ⟨fun _ => ⟨hfailed, hclear, hzero, hlt, hview, hobject⟩,
        fun _ => ⟨hfailure, u32Inc_of_lt (by omega)⟩⟩
      fresh := fun _ _ => ⟨rfl, rfl, rfl⟩
      null := fun _ h => by
        have := h.2.2
        omega
      other := fun _ h => absurd ⟨hop, .inl ⟨hfailed, hclear, hzero, hlt, hview, hobject⟩⟩ h
      read := fun h => by omega
      release := fun h => by omega
      rejected := fun h => absurd h hfailure }
  | read i _ hfailed hop hi hview htag =>
    have hresult : (g.object.value % 2 ^ 64).toNat = 42 := by rw [hvalue]; rfl
    rw [hresult]
    exact {
      use := fun _ => ⟨fun _ => ⟨hfailed, i, hi, hview, htag⟩, fun _ => fortyTwo_ne_failure⟩
      acquire := fun h => by omega
      fresh := fun h => by omega
      null := fun h => by omega
      other := fun h _ => absurd ⟨.inl hop, hfailed, i, hi, hview, htag⟩ h
      read := fun _ _ => ⟨rfl, rfl, rfl⟩
      release := fun h => by omega
      rejected := fun h => absurd h fortyTwo_ne_failure }
  | release i _ hfailed hop hi hview htag =>
    exact {
      use := fun _ => ⟨fun _ => ⟨hfailed, i, hi, hview, htag⟩, fun _ => null_ne_failure⟩
      acquire := fun h => by omega
      fresh := fun h => by omega
      null := fun h => by omega
      other := fun h _ => absurd ⟨.inr hop, hfailed, i, hi, hview, htag⟩ h
      read := fun h => by omega
      release := fun _ _ => ⟨i, hi, hview, by rw [cellAt_consume, if_pos rfl]; rfl,
        fun j hj => by rw [cellAt_consume, if_neg hj], rfl, rfl⟩
      rejected := fun h => absurd h null_ne_failure }

/-- The access decision of the kernel gate, after any sequence of calls by any caller. -/
theorem gate_access_decision (env : Env) (g : Running) (h : Running.Reachable env g)
    (c : GateCall) : AccessDecision env g c (g.call env c).1 (g.call env c).2 := by
  obtain ⟨hinv, hentered, hvalue⟩ := reachable_inv h
  exact (call_step env g c).decision hinv hentered hvalue

/-- An executive data capability over the whole address space, with all bounds exact. -/
def flatEnv : Env where
  enc := ⟨fun _ _ => true, fun _ _ _ => true⟩
  ddc := ⟨true, false, 0, 0, 2 ^ 64, 2 ^ 18 - 1⟩
  objectAddr := 4096

/-- A forged view of a released acquisition, after a second acquisition. -/
theorem gate_access_decision_forged :
    let g := [⟨.null, 1, 3⟩, ⟨⟨true, false, 8192, 8192, 16, cbpfPublicPerms⟩, 3, 5⟩,
      ⟨.null, 1, 8⟩].foldl (fun g c => (g.call flatEnv c).1) (Running.start 1 7 8192)
    let c : GateCall := ⟨⟨true, false, 8192, 8192, 32, cbpfPublicPerms⟩, 2, 9⟩
    AccessDecision flatEnv g c (g.call flatEnv c).1 (g.call flatEnv c).2 := by
  refine gate_access_decision flatEnv _ ⟨1, 7, 8192, ?_⟩ _
  exact .tail (.tail (.tail .refl ⟨_, rfl⟩) ⟨_, rfl⟩) ⟨_, rfl⟩

end Cbpf.Kernel
