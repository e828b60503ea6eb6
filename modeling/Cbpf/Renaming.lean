import Cbpf.Gate
import Cbpf.Lib.Renaming

/-!
# Register and slot names carry no meaning

A permutation of the registers and one of the spill slots rename the operands of an instruction by
its opcode: SPILL and RELOAD have one operand of each kind, in opposite places. A run of the
renamed program is the given run with its registers and slots renamed, in `cbpf_run` and in the
gate, so the two leave the same result.
-/

namespace Cbpf

open BoundedLoop Renaming

variable (σ : Equiv.Perm (Fin cbpfRegs)) (τ : Equiv.Perm (Fin cbpfSpills))

/-- The operands of an instruction under their new names. -/
def Insn.rename (x : Insn) : Insn :=
  match x.op with
  | .acquire | .read | .release | .brNull => { x with dst := Renaming.rename σ x.dst }
  | .copy => { x with dst := Renaming.rename σ x.dst, src := Renaming.rename σ x.src }
  | .spill => { x with dst := Renaming.rename τ x.dst, src := Renaming.rename σ x.src }
  | .reload => { x with dst := Renaming.rename σ x.dst, src := Renaming.rename τ x.src }
  | .ret | .other _ => x

/-- A program under its new names. -/
def InsnPtr.rename (p : InsnPtr) : InsnPtr := p.map fun f i => (f i).rename σ τ

@[simp] theorem Insn.op_rename (x : Insn) : (x.rename σ τ).op = x.op := by
  unfold Insn.rename
  split <;> rfl

/-! ### Validation -/

theorem insnOk_rename (n i : Nat) (x : Insn) : insnOk n i (x.rename σ τ) = insnOk n i x := by
  obtain ⟨op, dst, src, imm⟩ := x
  rw [Bool.eq_iff_iff]
  cases op <;> simp [Insn.rename, insnOk, -cbpfRegs_eq, -cbpfSpills_eq]
  exact fun _ _ => decide_eq_false_iff_not.trans not_le

theorem firstInvalid_congr {p q : Nat → Insn} {n : Nat}
    (h : ∀ i, insnOk n i (p i) = insnOk n i (q i)) (k i : Nat) :
    firstInvalid p n k i = firstInvalid q n k i := by
  induction k generalizing i with
  | zero => rfl
  | succ k ih => simp only [firstInvalid, h i, ih (i + 1)]

/-- NULL has no instructions, but all that is read of it is an index that is rejected before. -/
theorem cbpfValidate_rename (p : InsnPtr) (n : Nat) :
    cbpfValidate (p.rename σ τ) n = cbpfValidate p n := by
  cases p with
  | none => rfl
  | some f =>
    have hinsns : firstInvalid (InsnPtr.rename σ τ (some f)).deref n n 0 =
        firstInvalid (InsnPtr.deref (some f)) n n 0 :=
      firstInvalid_congr (fun i => insnOk_rename σ τ n i (f i)) n 0
    have hlast : ((InsnPtr.rename σ τ (some f)).deref (n - 1)).op =
        (InsnPtr.deref (some f) (n - 1)).op := Insn.op_rename σ τ _
    unfold cbpfValidate
    rw [hinsns, hlast]
    rfl

/-! ### The reference interpreter -/

/-- The state `t` is `s` with its registers and slots under their new names. -/
structure RunState.Renamed (s t : RunState) : Prop where
  regs : Renaming.Renamed σ s.regs t.regs
  spills : Renaming.Renamed τ s.spills t.spills
  live : t.live = s.live
  pc : t.pc = s.pc
  r : t.r = s.r

namespace RunState.Renamed

variable {σ τ} {s t : RunState}

theorem init : Renamed σ τ .init .init where
  regs := .replicate σ 0
  spills := .replicate τ 0
  live := rfl
  pc := rfl
  r := rfl

theorem reg (h : Renamed σ τ s t) (i : Nat) : t.reg (Renaming.rename σ i) = s.reg i :=
  h.regs.getD i 0

theorem slot (h : Renamed σ τ s t) (i : Nat) : t.slot (Renaming.rename τ i) = s.slot i :=
  h.spills.getD i 0

theorem isLive (h : Renamed σ τ s t) (i : Nat) : t.isLive i = s.isLive i := by
  rw [RunState.isLive, RunState.isLive, h.live]

theorem enter (h : Renamed σ τ s t) : Renamed σ τ s.enter t.enter where
  __ := h
  r := by simp only [RunState.enter, h.r, h.pc]

theorem setReg (h : Renamed σ τ s t) (dst token : Nat) :
    Renamed σ τ (s.setReg dst token) (t.setReg (Renaming.rename σ dst) token) where
  __ := h
  regs := h.regs.set dst token

theorem setSpill (h : Renamed σ τ s t) (dst token : Nat) :
    Renamed σ τ (s.setSpill dst token) (t.setSpill (Renaming.rename τ dst) token) where
  __ := h
  spills := h.spills.set dst token

theorem acquire (h : Renamed σ τ s t) (dst : Nat) :
    Renamed σ τ (s.acquire dst) (t.acquire (Renaming.rename σ dst)) where
  __ := h
  regs := by
    rw [RunState.acquire, RunState.acquire, h.r]
    exact h.regs.set dst _
  live := by simp only [RunState.acquire, h.r, h.live]
  r := by simp only [RunState.acquire, h.r]

theorem readField (h : Renamed σ τ s t) : Renamed σ τ s.readField t.readField where
  __ := h
  r := by simp only [RunState.readField, h.r]

theorem release (h : Renamed σ τ s t) (token : Nat) :
    Renamed σ τ (s.release token) (t.release token) where
  __ := h
  live := by simp only [RunState.release, h.live]
  r := by simp only [RunState.release, h.r]

theorem stepTo (h : Renamed σ τ s t) (op : Opcode) (token next : Nat) :
    Control.Rel (Renamed σ τ) (.next (s.stepTo op token next)) (.next (t.stepTo op token next)) :=
  .next { h with
    pc := rfl
    r := by simp only [RunState.stepTo, h.r, h.pc] }

theorem trapAt (h : Renamed σ τ s t) (op : Opcode) (token : Nat) (trap : Trap) :
    Control.Rel (Renamed σ τ) (.finish (s.trapAt op token trap))
      (.finish (t.trapAt op token trap)) :=
  .finish { h with r := by simp only [RunState.trapAt, h.r, h.pc] }

theorem returnAt (h : Renamed σ τ s t) (op : Opcode) (imm : Int) :
    Control.Rel (Renamed σ τ) (.finish (s.returnAt op imm)) (.finish (t.returnAt op imm)) :=
  .finish { h with r := by simp only [RunState.returnAt, h.r, h.pc] }

/-- One pass on an instruction and on its renaming. -/
theorem exec (h : Renamed σ τ s t) (x : Insn) :
    Control.Rel (Renamed σ τ) (s.exec x) (t.exec (x.rename σ τ)) := by
  have he := h.enter
  obtain ⟨op, dst, src, imm⟩ := x
  cases op with
  | acquire =>
    simp only [RunState.exec, Insn.rename, he.r, h.pc]
    split
    · exact (he.setReg dst 0).stepTo _ _ _
    split
    · exact he.trapAt _ _ _
    · exact (he.acquire dst).stepTo _ _ _
  | copy =>
    simp only [RunState.exec, Insn.rename, he.reg, h.pc]
    exact (he.setReg dst _).stepTo _ _ _
  | spill =>
    simp only [RunState.exec, Insn.rename, he.reg, h.pc]
    exact (he.setSpill dst _).stepTo _ _ _
  | reload =>
    simp only [RunState.exec, Insn.rename, he.slot, h.pc]
    exact (he.setReg dst _).stepTo _ _ _
  | read =>
    simp only [RunState.exec, Insn.rename, he.reg, he.isLive, h.pc]
    split
    · exact he.trapAt _ _ _
    split
    · exact he.trapAt _ _ _
    · exact he.readField.stepTo _ _ _
  | release =>
    simp only [RunState.exec, Insn.rename, he.reg, he.isLive, h.pc]
    split
    · exact he.trapAt _ _ _
    split
    · exact he.trapAt _ _ _
    · exact (he.release _).stepTo _ _ _
  | brNull =>
    simp only [RunState.exec, Insn.rename, he.reg, h.pc]
    exact he.stepTo _ _ _
  | ret => exact he.returnAt _ _
  | other k => exact .finish { he with r := by simp only [he.r] }

theorem cleanupCell (h : Renamed σ τ s t) (i : Nat) :
    Renamed σ τ (Cbpf.cleanupCell s i) (Cbpf.cleanupCell t i) := by
  unfold Cbpf.cleanupCell
  rw [h.isLive i]
  split
  · exact h
  · exact { h with
      live := by simp only [h.live]
      r := by simp only [h.r] }

/-- The cleanup loop reads no register and no slot. -/
theorem cleanup (h : Renamed σ τ s t) : Renamed σ τ s.cleanup t.cleanup := by
  unfold RunState.cleanup
  rw [h.r]
  generalize List.range s.r.acquired = cells
  induction cells generalizing s t with
  | nil => exact h
  | cons i cells ih => exact ih (h.cleanupCell i)

end RunState.Renamed

theorem InsnPtr.deref_rename {p : InsnPtr} {n : Nat} (h : cbpfValidate p n = .ok ()) (i : Nat) :
    (p.rename σ τ).deref i = (p.deref i).rename σ τ := by
  cases p with
  | none => cases h
  | some f => rfl

/-- The reference interpreter on a renamed program. -/
theorem cbpfRun_rename (p : InsnPtr) (n : Nat) : cbpfRun (p.rename σ τ) n = cbpfRun p n := by
  unfold cbpfRun
  rw [cbpfValidate_rename]
  cases hval : cbpfValidate p n with
  | error bad => rfl
  | ok u =>
    have hrel := Loop.run_lockstep (l := cbpfRunLoop p.deref n)
      (m := cbpfRunLoop (p.rename σ τ).deref n) (R := RunState.Renamed σ τ)
      (fun s t h => by simp only [cbpfRunLoop, h.pc])
      (fun s t h _ => by
        simp only [cbpfRunLoop, h.pc, InsnPtr.deref_rename σ τ hval]
        exact h.exec _)
      (n + 1) .init
    generalize (cbpfRunLoop p.deref n).run (n + 1) .init = a at hrel
    generalize (cbpfRunLoop (p.rename σ τ).deref n).run (n + 1) .init = b at hrel
    cases hrel with
    | none => rfl
    | some h => simp only [Option.map_some, h.cleanup.r]

/-! ### The gate -/

section Gate

variable {Handle Object : Type} (pl : Platform Handle Object)

/-- The gate state `s` with its registers and slots under their new names. -/
inductive GateState.Renamed (s : GateState Handle Object) : GateState Handle Object → Prop
  | intro {regs spills : List Handle} : Renaming.Renamed σ s.regs regs →
      Renaming.Renamed τ s.spills spills →
      Renamed s { s with regs := regs, spills := spills }

/-- Two answers of a gate operation that differ in names only. -/
structure GateState.SameAnswer (a b : GateOutcome × Nat × GateState Handle Object) : Prop where
  outcome : b.1 = a.1
  token : b.2.1 = a.2.1
  state : GateState.Renamed σ τ a.2.2 b.2.2

namespace GateState.Renamed

variable {σ τ} {s t : GateState Handle Object}

theorem init : Renamed σ τ (GateState.init pl) (GateState.init pl) :=
  .intro (.replicate σ pl.null) (.replicate τ pl.null)

theorem enter (h : Renamed σ τ s t) : Renamed σ τ s.enter t.enter := by
  obtain ⟨hregs, hspills⟩ := h
  exact .intro hregs hspills

theorem acquire (h : Renamed σ τ s t) (success : Int) (dst : Nat) :
    SameAnswer σ τ (s.acquire pl success dst) (t.acquire pl success (Renaming.rename σ dst)) := by
  obtain ⟨hregs, hspills⟩ := h
  unfold GateState.acquire
  dsimp only
  split
  · exact ⟨rfl, rfl, .intro (hregs.set dst pl.null) hspills⟩
  split
  · exact ⟨rfl, rfl, .intro hregs hspills⟩
  · cases pl.prepareView s.r.acquired with
    | none => exact ⟨rfl, rfl, .intro hregs hspills⟩
    | some view => exact ⟨rfl, rfl, .intro (hregs.set dst view) hspills⟩

theorem readField (h : Renamed σ τ s t) (view : Handle) :
    SameAnswer σ τ (s.readField pl view) (t.readField pl view) := by
  obtain ⟨hregs, hspills⟩ := h
  unfold GateState.readField
  dsimp only
  split
  · split
    · exact ⟨rfl, rfl, .intro hregs hspills⟩
    split
    · exact ⟨rfl, rfl, .intro hregs hspills⟩
    · exact ⟨rfl, rfl, .intro hregs hspills⟩
  · exact ⟨rfl, rfl, .intro hregs hspills⟩

theorem release (h : Renamed σ τ s t) (view : Handle) :
    SameAnswer σ τ (s.release pl view) (t.release pl view) := by
  obtain ⟨hregs, hspills⟩ := h
  unfold GateState.release GateState.consume
  dsimp only
  split
  · split
    · exact ⟨rfl, rfl, .intro hregs hspills⟩
    · cases hlive : pl.objectIsLive (s.cells.getD (_ - 1) pl.nullObject) with
      | false => exact ⟨rfl, rfl, .intro hregs hspills⟩
      | true => exact ⟨rfl, rfl, .intro hregs hspills⟩
  · exact ⟨rfl, rfl, .intro hregs hspills⟩

theorem settle (h : Renamed σ τ s t) (op : Opcode) (outcome : GateOutcome) (token next : Nat) :
    Control.Rel (Renamed σ τ) (s.settle op outcome token next) (t.settle op outcome token next) := by
  obtain ⟨hregs, hspills⟩ := h
  unfold GateState.settle
  split
  · exact .finish (.intro hregs hspills)
  split
  · exact .finish (.intro hregs hspills)
  · exact .next (.intro hregs hspills)

theorem reg (h : Renamed σ τ s t) (i : Nat) (d : Handle) :
    t.regs.getD (Renaming.rename σ i) d = s.regs.getD i d := by
  obtain ⟨hregs, hspills⟩ := h
  exact hregs.getD i d

theorem slot (h : Renamed σ τ s t) (i : Nat) (d : Handle) :
    t.spills.getD (Renaming.rename τ i) d = s.spills.getD i d := by
  obtain ⟨hregs, hspills⟩ := h
  exact hspills.getD i d

theorem setReg (h : Renamed σ τ s t) (dst : Nat) (view : Handle) :
    Renamed σ τ { s with regs := s.regs.set dst view }
      { t with regs := t.regs.set (Renaming.rename σ dst) view } := by
  obtain ⟨hregs, hspills⟩ := h
  exact .intro (hregs.set dst view) hspills

theorem setSpill (h : Renamed σ τ s t) (dst : Nat) (view : Handle) :
    Renamed σ τ { s with spills := s.spills.set dst view }
      { t with spills := t.spills.set (Renaming.rename τ dst) view } := by
  obtain ⟨hregs, hspills⟩ := h
  exact .intro hregs (hspills.set dst view)

theorem identify (h : Renamed σ τ s t) (view : Handle) :
    identify pl t.views view t.r.acquired = identify pl s.views view s.r.acquired := by
  obtain ⟨hregs, hspills⟩ := h
  rfl

theorem pc (h : Renamed σ τ s t) : t.pc = s.pc := by
  obtain ⟨hregs, hspills⟩ := h
  rfl

theorem returnAt (h : Renamed σ τ s t) (op : Opcode) (imm : Int) :
    Renamed σ τ (s.returnAt op imm) (t.returnAt op imm) := by
  obtain ⟨hregs, hspills⟩ := h
  exact .intro hregs hspills

theorem invalid (h : Renamed σ τ s t) :
    Renamed σ τ { s with r := { s.r with status := .invalid } }
      { t with r := { t.r with status := .invalid } } := by
  obtain ⟨hregs, hspills⟩ := h
  exact .intro hregs hspills

/-- The end of a pass after an operation of the gate. -/
theorem settle_answer {a b : GateOutcome × Nat × GateState Handle Object}
    (h : SameAnswer σ τ a b) (op : Opcode) (next : Nat) :
    Control.Rel (Renamed σ τ) (a.2.2.settle op a.1 a.2.1 next)
      (b.2.2.settle op b.1 b.2.1 next) := by
  rw [h.outcome, h.token]
  exact h.state.settle op a.1 a.2.1 next

/-- One pass on an instruction and on its renaming. -/
theorem exec (h : Renamed σ τ s t) (x : Insn) :
    Control.Rel (Renamed σ τ) (s.exec pl x) (t.exec pl (x.rename σ τ)) := by
  have he := h.enter
  obtain ⟨op, dst, src, imm⟩ := x
  cases op with
  | acquire =>
    simp only [GateState.exec, Insn.rename, h.pc]
    exact settle_answer (he.acquire pl (intOfInt64 imm) dst) _ _
  | copy =>
    simp only [GateState.exec, Insn.rename, he.reg, he.identify, h.pc]
    exact (he.setReg dst _).settle _ _ _ _
  | spill =>
    simp only [GateState.exec, Insn.rename, he.reg, he.identify, h.pc]
    exact (he.setSpill dst _).settle _ _ _ _
  | reload =>
    simp only [GateState.exec, Insn.rename, he.slot, he.identify, h.pc]
    exact (he.setReg dst _).settle _ _ _ _
  | read =>
    simp only [GateState.exec, Insn.rename, he.reg, h.pc]
    exact settle_answer (he.readField pl _) _ _
  | release =>
    simp only [GateState.exec, Insn.rename, he.reg, h.pc]
    exact settle_answer (he.release pl _) _ _
  | brNull =>
    simp only [GateState.exec, Insn.rename, he.reg, he.identify, h.pc]
    exact he.settle _ _ _ _
  | ret =>
    simp only [GateState.exec, Insn.rename]
    exact .finish (he.returnAt .ret imm)
  | other k => exact .finish he.invalid

theorem cleanupCell (h : Renamed σ τ s t) (i : Nat) :
    Renamed σ τ (s.cleanupCell pl i) (t.cleanupCell pl i) := by
  obtain ⟨hregs, hspills⟩ := h
  unfold GateState.cleanupCell GateState.consume
  dsimp only
  cases pl.objectIsLive (s.cells.getD i pl.nullObject) with
  | false => exact .intro hregs hspills
  | true => exact .intro hregs hspills

theorem r (h : Renamed σ τ s t) : t.r = s.r := by
  obtain ⟨hregs, hspills⟩ := h
  rfl

theorem m (h : Renamed σ τ s t) : t.m = s.m := by
  obtain ⟨hregs, hspills⟩ := h
  rfl

theorem cleanup (h : Renamed σ τ s t) : Renamed σ τ (s.cleanup pl) (t.cleanup pl) := by
  unfold GateState.cleanup
  rw [h.r]
  generalize List.range s.r.acquired = cells
  induction cells generalizing s t with
  | nil => exact h
  | cons i cells ih => exact ih (h.cleanupCell pl i)

end GateState.Renamed

/-- The gate on a renamed program, over any platform. -/
theorem cbpfGateRun_rename (p : InsnPtr) (n : Nat) (metrics : Bool) :
    cbpfGateRun pl (p.rename σ τ) n metrics = cbpfGateRun pl p n metrics := by
  unfold cbpfGateRun
  rw [cbpfValidate_rename]
  cases hval : cbpfValidate p n with
  | error bad => rfl
  | ok u =>
    have hrel := Loop.run_lockstep (l := cbpfGateRunLoop pl p.deref n)
      (m := cbpfGateRunLoop pl (p.rename σ τ).deref n) (R := GateState.Renamed σ τ)
      (fun s t h => by simp only [cbpfGateRunLoop, h.pc])
      (fun s t h _ => by
        simp only [cbpfGateRunLoop, h.pc, InsnPtr.deref_rename σ τ hval]
        exact h.exec pl _)
      (n + 1) (.init pl)
    generalize (cbpfGateRunLoop pl p.deref n).run (n + 1) (.init pl) = a at hrel
    generalize (cbpfGateRunLoop pl (p.rename σ τ).deref n).run (n + 1) (.init pl) = b at hrel
    cases hrel with
    | none => rfl
    | some h => simp only [Option.map_some, (h.cleanup pl).r, (h.cleanup pl).m]

end Gate

/-- Register and slot names carry no meaning: a program and its renaming have the same verdict, the
same report and the same result, valid or not, in the reference interpreter and in the gate. -/
theorem renaming_invariant (p : InsnPtr) (n : Nat) :
    cbpfValidate (p.rename σ τ) n = cbpfValidate p n ∧
    cbpfRun (p.rename σ τ) n = cbpfRun p n ∧
    ∀ (Handle Object : Type) (pl : Platform Handle Object) (metrics : Bool),
      cbpfGateRun pl (p.rename σ τ) n metrics = cbpfGateRun pl p n metrics :=
  ⟨cbpfValidate_rename σ τ p n, cbpfRun_rename σ τ p n,
    fun _ _ pl metrics => cbpfGateRun_rename σ τ pl p n metrics⟩

end Cbpf
