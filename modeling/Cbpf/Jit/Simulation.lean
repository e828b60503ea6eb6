import Cbpf.Jit.Native
import Cbpf.Jit.Passes
import Cbpf.Jit.Soundness

/-!
# The native code simulates the program

Between instructions, native control is at the first word of the next BPF instruction and every
register that the admission pass calls defined is held, in full width, in its native register. The
words of an instruction re-establish this at its successor, leave through the restricted exit with
r0 in c7, or through the executive exit with 0 when the gate rejects the call.
-/

namespace Cbpf.Jit

open Cheri Kernel Dataflow

/-! ### Registers -/

theorem nativeReg_inj {r r' : Nat} (h : r ≤ 9) (h' : r' ≤ 9) (heq : nativeReg r = nativeReg r') :
    r = r' := by
  have hall : ∀ r ≤ 9, ∀ r' ≤ 9, nativeReg r = nativeReg r' → r = r' := by decide
  exact hall r h r' h' heq

/-- No BPF register lives in a register of the transition. -/
theorem nativeReg_ne {r : Nat} (h : r ≤ 9) :
    nativeReg r ≠ 13 ∧ nativeReg r ≠ 17 ∧ nativeReg r ≠ 30 := by
  have hall : ∀ r ≤ 9, nativeReg r ≠ 13 ∧ nativeReg r ≠ 17 ∧ nativeReg r ≠ 30 := by decide
  exact hall r h

variable {k : Kfuncs} {env : Env} {prog : List BpfInsn} {a : Admission} {c : Compiler}
  {e : Envelope} {s s' : BpfState} {m m' : Machine}

/-- The relation between a run and the native machine. -/
structure Related (a : Admission) (c : Compiler) (e : Envelope) (s : BpfState) (m : Machine) :
    Prop where
  pc : m.pc = c.offset s.pc
  reg : ∀ r ≤ 9, isDefined ((a.flow s.pc).reg r) = true → m.c (nativeReg r) = s.reg r
  slot : m.slot = s.slot
  gate : m.g = s.g
  c17 : m.c 17 = e.gate
  c30 : m.c 30 = e.exit

/-- The image of an admitted program, where `cbpf_enter` has put it. -/
structure Loaded (t : Target) (k : Kfuncs) (prog : List BpfInsn) (a : Admission) (c : Compiler)
    (e : Envelope) : Prop where
  admitted : AdmitDone k prog a
  prog : c.prog = prog
  operation : c.operation = a.operation
  laidOut : Compiler.LaidOut t c
  written : Compiler.Written t c e.image
  executiveExit : e.executiveExit = c.executiveExit

variable {t : Target}

namespace Loaded

variable (hl : Loaded t k prog a c e)
include hl

/-- The words of the instruction at `pc`. -/
theorem holds {pc : Nat} {i : BpfInsn} {ts : List Template} (hi : prog[pc]? = some i)
    (hts : insnTemplates c pc i = some ts) : Holds e.image (c.offset pc) ts := by
  have hlt : pc < prog.length := (List.getElem?_eq_some_iff.mp hi).1
  have hprog := hl.prog
  rw [hl.laidOut.offset pc (by rw [hprog]; omega)]
  exact hl.written.insn pc i ts (by rw [hprog]; exact hi) hts

theorem offset_succ {pc : Nat} {i : BpfInsn} (hi : prog[pc]? = some i) :
    c.offset (pc + 1) = c.offset pc + width i := by
  have hlt : pc < prog.length := (List.getElem?_eq_some_iff.mp hi).1
  have hprog := hl.prog
  rw [hl.laidOut.offset pc (by rw [hprog]; omega),
    hl.laidOut.offset (pc + 1) (by rw [hprog]; omega)]
  exact startOf_succ t (by rw [hprog]; exact hi)

end Loaded

/-! ### Definedness -/

/-- Every kind set that allows a value is non-empty. -/
theorem Kind.Allows.isDefined_of {kind : Kind} {issued : List Capability} {written : Bool}
    {v : Capability} (h : kind.Allows issued written v) (hu : kind.has .uninit = false) :
    isDefined kind = true := by
  have hne : kind ≠ 0#8 := by
    rintro rfl
    rcases h with h | ⟨_, ⟨h, _⟩ | ⟨h, _⟩ | ⟨h, _⟩⟩ <;> exact absurd h (by decide)
  simp [isDefined, hne, hu]

theorem isDefined_uninit : isDefined .uninit = false := by decide

/-- What is defined after a join was defined before it. -/
theorem isDefined_of_le {f g : Flow} (hle : f ≤ g) (hreached : f.reached = true) {r : Nat}
    {issued : List Capability} {written : Bool} {v : Capability}
    (hallows : (f.reg r).Allows issued written v) (hdefined : isDefined (g.reg r) = true) :
    isDefined (f.reg r) = true := by
  refine hallows.isDefined_of ?_
  by_contra hu
  have := (hle hreached).2.1 r .uninit (by simpa using hu)
  rw [not_uninit_of_isDefined hdefined] at this
  cases this

/-! ### Writing one register -/

/-- Holding a new value of a BPF register in its native register. -/
theorem Related.write (h : Related a c e s m) {f : Flow} (hf : f = a.flow s.pc)
    (hsound : Sound k env prog f s) {r : Nat} (hr : r ≤ 9) {kind : Kind}
    (hle : f.set r kind ≤ a.flow (s.pc + 1)) (v : Capability) :
    Related a c e (s.write r v)
      { m with pc := c.offset (s.pc + 1), c := Function.update m.c (nativeReg r) v } where
  pc := rfl
  reg := by
    intro r' hr' hdefined
    by_cases heq : r' = r
    · subst heq
      simp [BpfState.write]
    · have hne : nativeReg r' ≠ nativeReg r := fun hsame => heq (nativeReg_inj hr' hr hsame)
      simp only [BpfState.write, Function.update_of_ne heq, Function.update_of_ne hne]
      refine h.reg r' hr' (hf ▸ ?_)
      have hset : (f.set r kind).reg r' = f.reg r' := Function.update_of_ne heq _ _
      rw [← hset]
      exact isDefined_of_le hle hsound.reached (hset ▸ hsound.reg r') hdefined
  slot := h.slot
  gate := h.gate
  c17 := by
    have hne := (nativeReg_ne hr).2.1
    exact (Function.update_of_ne (Ne.symm hne) _ _).trans h.c17
  c30 := by
    have hne := (nativeReg_ne hr).2.2
    exact (Function.update_of_ne (Ne.symm hne) _ _).trans h.c30

/-- Moving on without a write, possibly knowing more about `r`. -/
theorem Related.jump (h : Related a c e s m) {f : Flow} (hf : f = a.flow s.pc)
    (hsound : Sound k env prog f s) {r target : Nat} {kind : Kind}
    (hle : f.set r kind ≤ a.flow target) (hdefined : isDefined (f.reg r) = true) :
    Related a c e { s with pc := target } { m with pc := c.offset target } where
  pc := rfl
  reg := by
    intro r' hr' hdefined'
    refine h.reg r' hr' (hf ▸ ?_)
    by_cases heq : r' = r
    · rw [heq]
      exact hdefined
    · have hset : (f.set r kind).reg r' = f.reg r' := Function.update_of_ne heq _ _
      rw [← hset]
      exact isDefined_of_le hle hsound.reached (hset ▸ hsound.reg r') hdefined'
  slot := h.slot
  gate := h.gate
  c17 := h.c17
  c30 := h.c30

/-! ### The words of one instruction -/

/-- The four words of an immediate. -/
theorem steps_immediate {reg : Nat} {value : BitVec 64}
    (h : Holds e.image m.pc (immediate reg value)) :
    Steps env e 4 m
      { m with pc := m.pc + 4, c := Function.update m.c reg (.ofInt value.toNat) } := by
  have h₀ : nativeStep env e m = .next (m.setX reg (value.toNat % 2 ^ 16 * 2 ^ 0)) := by
    rw [nativeStep, show e.image m.pc = _ from h 0 _ rfl]
  have hmovk : ∀ (n : Nat) (m₁ : Machine) (shift : Nat), m₁.pc = m.pc + n →
      (immediate reg value)[n]? =
        some (fun _ => .movk reg (value.toNat / 2 ^ shift % 2 ^ 16) shift) →
      nativeStep env e m₁ = .next (m₁.setX reg
        (insert16 (m₁.x reg) (value.toNat / 2 ^ shift % 2 ^ 16) shift)) := by
    intro n m₁ shift hpc hn
    rw [nativeStep, hpc, h n _ hn]
  refine .cons h₀ (.cons (hmovk 1 _ 16 rfl rfl) (.cons (hmovk 2 _ 32 rfl rfl)
    (.cons (hmovk 3 _ 48 rfl rfl) ?_)))
  change _ = _
  simp only [Machine.x_setX, insert16_pieces value.isLt]
  simp [Machine.setX, Machine.setC, Function.update_idem]

/-- The words of an instruction simulate its outcome. -/
inductive Simulates (a : Admission) (c : Compiler) (env : Env) (e : Envelope) (i : BpfInsn)
    (m : Machine) : Outcome → Prop
  | next (s' : BpfState) (m' : Machine) : Steps env e (width i) m m' → Related a c e s' m' →
      Simulates a c env e i m (.next s')
  | exit (v : Capability) (m' : Machine) : Steps env e (width i) m m' →
      m'.pc = c.restrictedExit → m'.c 7 = v →
      nativeStep env e m' = .executive { m' with pc := c.executiveExit } →
      Simulates a c env e i m (.exit v)
  | rejected (call : GateCall) (g : Running) (n : Nat) (m₁ m' : Machine) : n < width i →
      Steps env e n m m₁ → nativeStep env e m₁ = .executive m' → m'.pc = c.executiveExit →
      m'.c 7 = .null → m'.g = g → Simulates a c env e i m (.rejected call g)

section Instructions

variable (hl : Loaded t k prog a c e) (h : Related a c e s m)
include hl h

/-- The word at native control when its instruction has the templates `ts`. -/
theorem word_eq {i : BpfInsn} {ts : List Template} {x : Template} (hi : prog[s.pc]? = some i)
    (hts : insnTemplates c s.pc i = some ts) (hx : ts[0]? = some x) :
    e.image m.pc = x m.pc := by
  rw [h.pc]
  exact hl.holds hi hts 0 x hx

/-- One word that leads to the next instruction. -/
theorem steps_one {i : BpfInsn} (hi : prog[s.pc]? = some i) (hwidth : width i = 1)
    (m' : Machine) (hstep : nativeStep env e m = .next { m' with pc := m.pc + 1 }) :
    Steps env e (width i) m { m' with pc := c.offset (s.pc + 1) } := by
  rw [hl.offset_succ hi, hwidth, ← h.pc]
  exact .one hstep

/-- The machine at the branch through the gateway. -/
def atGateway (m : Machine) (op pc : Nat) : Machine :=
  ((m.setX 4 op).setX 5 pc).setC 13 (m.c 30)

omit hl h in
/-- The registers that the gateway sees, and those it gives back. -/
theorem atGateway_c (m : Machine) (op pc : Nat) :
    (atGateway m op pc).c 0 = m.c 0 ∧ (atGateway m op pc).x 4 = op ∧
      (atGateway m op pc).x 5 = pc ∧ (atGateway m op pc).c 13 = m.c 30 ∧
      (atGateway m op pc).c 17 = m.c 17 ∧ (atGateway m op pc).g = m.g ∧
      ∀ r, 19 ≤ r → (atGateway m op pc).c r = m.c r := by
  refine ⟨rfl, rfl, rfl, rfl, rfl, rfl, fun r hr => ?_⟩
  simp only [atGateway, Machine.setX, Machine.setC]
  rw [Function.update_of_ne (by omega), Function.update_of_ne (by omega),
    Function.update_of_ne (by omega)]

/-- The first three words of the call template. -/
theorem steps_atGateway {i : BpfInsn} (hi : prog[s.pc]? = some i) (hcode : i.code = .jmpCall) :
    Steps env e 3 m (atGateway m (callOperation k i) s.pc) := by
  have hop : c.operation s.pc = callOperation k i := by
    rw [hl.operation]
    exact hl.admitted.operation s.pc i hi hcode
  have hholds := hl.holds hi (by rw [insnTemplates, hcode])
  rw [← h.pc] at hholds
  have h₀ : nativeStep env e m = .next (m.setX 4 (callOperation k i)) := by
    rw [nativeStep, show e.image m.pc = _ from hholds 0 _ rfl, hop]
    simp
  have h₁ : nativeStep env e (m.setX 4 (callOperation k i)) =
      .next ((m.setX 4 (callOperation k i)).setX 5 s.pc) := by
    rw [nativeStep, show e.image (m.setX 4 (callOperation k i)).pc = _ from hholds 1 _ rfl]
    simp
  refine .cons h₀ (.cons h₁ (.one ?_))
  rw [nativeStep, show e.image ((m.setX 4 (callOperation k i)).setX 5 s.pc).pc = _ from
    hholds 2 _ rfl]
  rfl

variable (hsound : Sound k env prog (a.flow s.pc) s)
include hsound

theorem simulates_movX {i : BpfInsn} (hi : prog[s.pc]? = some i) (hcode : i.code = .alu64MovX)
    (hdst : i.dstReg ≤ 9) (hsrc : i.srcReg ≤ 9)
    (hdefined : isDefined ((a.flow s.pc).reg i.srcReg) = true)
    (hle : (a.flow s.pc).set i.dstReg ((a.flow s.pc).reg i.srcReg) ≤ a.flow (s.pc + 1)) :
    Simulates a c env e i m (.next (s.write i.dstReg (s.reg i.srcReg))) := by
  have hword := word_eq hl h hi (by rw [insnTemplates, hcode]) rfl
  have hwidth : width i = 1 := by rw [width, hcode]
  have hsame := h.reg i.srcReg hsrc hdefined
  refine .next _ _ (steps_one hl h hi hwidth (m.setC (nativeReg i.dstReg) (s.reg i.srcReg)) ?_)
    (h.write rfl hsound hdst hle _)
  rw [nativeStep, hword, ← hsame]
  rfl

theorem simulates_movK {i : BpfInsn} (hi : prog[s.pc]? = some i) (hcode : i.code = .alu64MovK)
    (hdst : i.dstReg ≤ 9) {kind : Kind}
    (hle : (a.flow s.pc).set i.dstReg kind ≤ a.flow (s.pc + 1)) :
    Simulates a c env e i m
      (.next (s.write i.dstReg (.ofInt (i.imm.signExtend 64).toNat))) := by
  have hwidth : width i = 4 := by rw [width, hcode]
  have hholds := hl.holds hi (by rw [insnTemplates, hcode])
  rw [← h.pc] at hholds
  have hsteps : Steps env e 4 m _ := steps_immediate hholds
  refine .next _ _ ?_ (h.write rfl hsound hdst hle _)
  rw [hl.offset_succ hi, hwidth, ← h.pc]
  exact hsteps

theorem simulates_stx {i : BpfInsn} (hi : prog[s.pc]? = some i) (hcode : i.code = .stxMemDw)
    (hsrc : i.srcReg ≤ 9) (hdefined : isDefined ((a.flow s.pc).reg i.srcReg) = true)
    {kind : Kind} (hle : { a.flow s.pc with spill := kind } ≤ a.flow (s.pc + 1)) :
    Simulates a c env e i m (.next (s.spill (s.reg i.srcReg))) := by
  have hword := word_eq hl h hi (by rw [insnTemplates, hcode]) rfl
  have hwidth : width i = 1 := by rw [width, hcode]
  have hsame := h.reg i.srcReg hsrc hdefined
  refine .next _ { m with pc := c.offset (s.pc + 1), slot := s.reg i.srcReg }
    (steps_one hl h hi hwidth { m with slot := s.reg i.srcReg } ?_)
    ⟨rfl, fun r hr hr' => h.reg r hr ?_, rfl, h.gate, h.c17, h.c30⟩
  · rw [nativeStep, hword, ← hsame]
    rfl
  · exact isDefined_of_le hle hsound.reached (hsound.reg r) hr'

theorem simulates_ldx {i : BpfInsn} (hi : prog[s.pc]? = some i) (hcode : i.code = .ldxMemDw)
    (hdst : i.dstReg ≤ 9) {kind : Kind}
    (hle : (a.flow s.pc).set i.dstReg kind ≤ a.flow (s.pc + 1)) :
    Simulates a c env e i m (.next (s.write i.dstReg s.slot)) := by
  have hword := word_eq hl h hi (by rw [insnTemplates, hcode]) rfl
  have hwidth : width i = 1 := by rw [width, hcode]
  refine .next _ _ (steps_one hl h hi hwidth (m.setC (nativeReg i.dstReg) s.slot) ?_)
    (h.write rfl hsound hdst hle _)
  rw [nativeStep, hword, ← h.slot]
  rfl

/-- `cbz` tests what the null check tests. -/
theorem simulates_jeq {i : BpfInsn} (hi : prog[s.pc]? = some i) (hcode : i.code = .jmpJeqK)
    (hdst : i.dstReg ≤ 9) (himm : i.imm = 0) (hoff : 0 < i.off)
    (hdefined : isDefined ((a.flow s.pc).reg i.dstReg) = true)
    (hkinds : ((a.flow s.pc).reg i.dstReg).has (~~~(Kind.zero ||| Kind.handle)) = false)
    (hle : ∀ x ∈ jeqEdges (a.flow s.pc) s.pc (s.pc + 1 + i.off.toNat) i.dstReg,
      x.2 ≤ a.flow x.1) :
    Simulates a c env e i m (if (s.reg i.dstReg).address = (i.imm.signExtend 64).toNat then
        if s.pc + 1 + i.off < 0 then .stuck
        else .next { s with pc := (s.pc + 1 + i.off).toNat }
      else .next { s with pc := s.pc + 1 }) := by
  have hword := word_eq hl h hi (by rw [insnTemplates, hcode]) rfl
  have hwidth : width i = 1 := by rw [width, hcode]
  have hsame : m.x (nativeReg i.dstReg) = (s.reg i.dstReg).address := by
    rw [Machine.x, h.reg i.dstReg hdst hdefined]
  have hzero : (i.imm.signExtend 64).toNat = 0 := by
    rw [himm]
    decide
  obtain ⟨_, hvalue⟩ := (hsound.reg i.dstReg).of_nullable hdefined hkinds
  have hpc' : (s.pc + 1 + i.off).toNat = s.pc + 1 + i.off.toNat := by omega
  rw [hzero]
  rcases hvalue with ⟨hhas, _, haddr⟩ | ⟨hhas, hissued⟩
  · rw [if_pos haddr, if_neg (by omega), hpc']
    have hedge : (s.pc + 1 + i.off.toNat, (a.flow s.pc).set i.dstReg .zero) ∈
        jeqEdges (a.flow s.pc) s.pc (s.pc + 1 + i.off.toNat) i.dstReg :=
      List.mem_append_left _ (by rw [if_pos hhas]; exact List.mem_singleton.mpr rfl)
    refine .next _ _ ?_ (h.jump rfl hsound (hle _ hedge) hdefined)
    rw [hwidth]
    refine .one ?_
    rw [nativeStep, hword]
    dsimp only
    rw [if_pos (hsame.trans haddr), Machine.branch, hpc', if_neg (by omega)]
    congr 2
    omega
  · obtain ⟨j, _, _, _, _, haddr⟩ := hsound.gate.of_mem_issued hissued
    have hne : (s.reg i.dstReg).address ≠ 0 := by
      rw [haddr]
      exact (hsound.gate.cellAddr_ne j).1
    have hrest : (a.flow s.pc).reg i.dstReg &&& ~~~Kind.zero ≠ 0#8 := by
      intro hnone
      have hhandle := Kind.has_and (k := (a.flow s.pc).reg i.dstReg)
        (show ~~~Kind.zero &&& Kind.handle = Kind.handle by decide)
      rw [hnone, hhas] at hhandle
      exact absurd hhandle (by decide)
    have hedge : (s.pc + 1, (a.flow s.pc).set i.dstReg
        ((a.flow s.pc).reg i.dstReg &&& ~~~Kind.zero)) ∈
        jeqEdges (a.flow s.pc) s.pc (s.pc + 1 + i.off.toNat) i.dstReg :=
      List.mem_append_right _ (by
        rw [if_pos (bne_iff_ne.mpr hrest)]
        exact List.mem_singleton.mpr rfl)
    rw [if_neg hne]
    refine .next _ _ (steps_one hl h hi hwidth m ?_) (h.jump rfl hsound (hle _ hedge) hdefined)
    rw [nativeStep, hword]
    dsimp only
    rw [if_neg (by rw [hsame]; exact hne)]

theorem simulates_exit {i : BpfInsn} (hi : prog[s.pc]? = some i) (hcode : i.code = .jmpExit)
    (hscalar : isScalar ((a.flow s.pc).reg 0) = true) :
    Simulates a c env e i m (.exit (s.reg 0)) := by
  have hword := word_eq hl h hi (by rw [insnTemplates, hcode]) rfl
  have hwidth : width i = 1 := by rw [width, hcode]
  have hdefined := (hsound.reg 0).isDefined_of (isScalar_iff hscalar).1
  have hclr : e.image c.restrictedExit = .capRetClr := by
    rw [hl.laidOut.restrictedExit]
    exact hl.written.restrictedExit 0 _ rfl
  refine .exit _ { m with pc := c.restrictedExit } ?_ rfl (h.reg 0 (by decide) hdefined) ?_
  · rw [hwidth]
    refine .one ?_
    rw [nativeStep, hword]
    dsimp only
    rw [Machine.branch, if_neg (by omega)]
    congr 2
    omega
  · have hc30 : m.c a64Lr = e.exit := h.c30
    rw [nativeStep]
    dsimp only
    rw [hclr]
    dsimp only
    rw [if_pos hc30, hl.executiveExit]

omit hl in
/-- After an accepted call every register that is still defined is in place. -/
theorem related_returned (op : Nat) {kind : Kind}
    (hle : (a.flow s.pc).call kind ≤ a.flow (s.pc + 1)) (call : GateCall) (g : Running)
    (result : Capability) (clobber : Nat → Capability) :
    Related a c e (s.returned call g result clobber)
      { m with
        pc := c.offset (s.pc + 1)
        c := Function.update
          (gatewayReturn (atGateway m op s.pc).c result (e.link (m.pc + 4))) 7 result
        g := g } where
  pc := rfl
  reg := by
    intro r hr hdefined
    change isDefined ((a.flow (s.pc + 1)).reg r) = true at hdefined
    by_cases hlow : r ≠ 0 ∧ r ≤ 5
    · -- r1 to r5 are uninitialised after a call
      have hu := (hle hsound.reached).2.1 r .uninit (by
        simp only [Flow.call, if_neg hlow.1, if_pos hlow.2]
        exact Kind.has_uninit)
      rw [not_uninit_of_isDefined hdefined] at hu
      cases hu
    · by_cases hzero : r = 0
      · subst hzero
        rfl
      · have hcall : ((a.flow s.pc).call kind).reg r = (a.flow s.pc).reg r := by
          simp only [Flow.call, if_neg hzero, if_neg (by omega : ¬ r ≤ 5)]
        have hbefore : isDefined ((a.flow s.pc).reg r) = true := by
          rw [← hcall]
          exact isDefined_of_le hle hsound.reached (hcall ▸ hsound.reg r) hdefined
        have hsaved := h.reg r hr hbefore
        have hkept := (atGateway_c m op s.pc).2.2.2.2.2.2
        have hrange : r = 6 ∨ r = 7 ∨ r = 8 ∨ r = 9 := by omega
        rcases hrange with rfl | rfl | rfl | rfl
        · exact (hkept 19 (by decide)).trans hsaved
        · exact (hkept 20 (by decide)).trans hsaved
        · exact (hkept 21 (by decide)).trans hsaved
        · exact (hkept 22 (by decide)).trans hsaved
  slot := h.slot
  gate := rfl
  c17 := h.c17
  c30 := h.c30

/-- The call template runs the gate on the operation, the BPF pc and r1, and puts the result into
r0; a rejection ends in the executive exit with 0. -/
theorem simulates_call {i : BpfInsn} (hi : prog[s.pc]? = some i) (hcode : i.code = .jmpCall)
    (hdefined : isDefined ((a.flow s.pc).reg 1) = true) {kind : Kind}
    (hle : (a.flow s.pc).call kind ≤ a.flow (s.pc + 1)) (clobber : Nat → Capability) :
    Simulates a c env e i m (bpfCall env clobber s (callOperation k i)) := by
  have hwidth : width i = 5 := by rw [width, hcode]
  have hsteps : Steps env e 3 m _ := steps_atGateway hl h hi hcode
  have hrelated := related_returned h hsound (callOperation k i) hle
  have hholds := hl.holds hi (by rw [insnTemplates, hcode])
  rw [← h.pc] at hholds
  obtain ⟨hc0, hx4, hx5, hc13, hc17, hg, _⟩ := atGateway_c m (callOperation k i) s.pc
  have hargument : (⟨(atGateway m (callOperation k i) s.pc).c 0,
      (atGateway m (callOperation k i) s.pc).x 4,
      (atGateway m (callOperation k i) s.pc).x 5⟩ : GateCall) =
      s.gateCall (callOperation k i) := by
    rw [hc0, hx4, hx5]
    have hr1 : m.c 0 = s.reg 1 := h.reg 1 (by decide) hdefined
    rw [hr1]
    rfl
  have hblrs : nativeStep env e (atGateway m (callOperation k i) s.pc) =
      gateway env e (atGateway m (callOperation k i) s.pc) := by
    rw [nativeStep, show e.image (atGateway m (callOperation k i) s.pc).pc = _ from
      hholds 3 _ rfl]
    dsimp only
    rw [if_pos (hc17.trans h.c17)]
  rw [gateway, hargument, hg, h.gate] at hblrs
  unfold bpfCall
  dsimp only at hblrs ⊢
  by_cases hfailure : isFailure (s.g.call env (s.gateCall (callOperation k i))).2 = true
  · rw [if_pos hfailure, if_pos (hc13.trans h.c30)] at hblrs
    rw [if_pos hfailure]
    exact .rejected _ _ 3 _ _ (by rw [hwidth]; decide) hsteps hblrs hl.executiveExit rfl rfl
  · rw [if_neg hfailure] at hblrs ⊢
    refine .next _ _ ?_ (hrelated _ _ _ _)
    rw [hwidth, hl.offset_succ hi, hwidth, ← h.pc]
    refine hsteps.trans (.cons hblrs (.one ?_))
    rw [nativeStep]
    dsimp only
    rw [show e.image ((atGateway m (callOperation k i) s.pc).pc + 1) = _ from hholds 4 _ rfl]
    rfl

end Instructions

/-- One instruction: the words at native control simulate whatever the program does. -/
theorem simulates_step (hl : Loaded t k prog a c e) (h : Related a c e s m)
    (hsound : Sound k env prog (a.flow s.pc) s) (clobber : Nat → Capability) :
    ∃ i, prog[s.pc]? = some i ∧ Simulates a c env e i m (bpfStep k env prog clobber s) := by
  obtain ⟨es, ⟨_, i, hi, ht⟩, hle⟩ := hl.admitted.pass.solution Flow.le_join_left
    Flow.le_join_right (Nat.zero_le s.pc) (hsound.inside hl.admitted)
  refine ⟨i, hi, ?_⟩
  have hcall : ∀ kind, callOperation k i ≠ 0 → isDefined ((a.flow s.pc).reg 1) = true →
      (a.flow s.pc).call kind ≤ a.flow (s.pc + 1) →
      Simulates a c env e i m
        (if callOperation k i = 0 then .stuck else bpfCall env clobber s (callOperation k i)) := by
    intro kind hop hdefined hkind
    rw [if_neg hop]
    exact simulates_call hl h hsound hi (code_of_callOperation rfl hop) hdefined hkind clobber
  have hhandle : (a.flow s.pc).reg 1 = .handle → isDefined ((a.flow s.pc).reg 1) = true := by
    intro hkind
    rw [hkind]
    decide
  unfold bpfStep
  rw [hi]
  dsimp only
  cases ht with
  | movX hcode hdst hsrc hdefined =>
    rw [hcode]
    exact simulates_movX hl h hsound hi hcode hdst hsrc hdefined
      (hle _ (List.mem_singleton.mpr rfl))
  | movK hcode hdst =>
    rw [hcode]
    exact simulates_movK hl h hsound hi hcode hdst (hle _ (List.mem_singleton.mpr rfl))
  | stx hcode hdst hsrc hoff hdefined =>
    rw [hcode]
    dsimp only
    rw [if_pos ⟨hdst, hoff⟩]
    exact simulates_stx hl h hsound hi hcode hsrc hdefined (hle _ (List.mem_singleton.mpr rfl))
  | ldx hcode hdst hsrc hoff =>
    rw [hcode]
    dsimp only
    rw [if_pos ⟨hsrc, hoff⟩]
    exact simulates_ldx hl h hsound hi hcode hdst (hle _ (List.mem_singleton.mpr rfl))
  | jeq hcode hdst himm hoff _ hdefined hkinds =>
    rw [hcode]
    exact simulates_jeq hl h hsound hi hcode hdst himm hoff hdefined hkinds hle
  | acquire hop hscalar =>
    rw [code_of_callOperation hop (by decide)]
    exact hcall _ (by rw [hop]; decide) ((hsound.reg 1).isDefined_of (isScalar_iff hscalar).1)
      (hle _ (List.mem_singleton.mpr rfl))
  | read hop hkind =>
    rw [code_of_callOperation hop (by decide)]
    exact hcall _ (by rw [hop]; decide) (hhandle hkind) (hle _ (List.mem_singleton.mpr rfl))
  | release hop hkind =>
    rw [code_of_callOperation hop (by decide)]
    exact hcall _ (by rw [hop]; decide) (hhandle hkind) (hle _ (List.mem_singleton.mpr rfl))
  | exit hcode hscalar =>
    rw [hcode]
    exact simulates_exit hl h hsound hi hcode hscalar

/-! ### Compiled programs -/

/-- Every instruction of an admitted program was accepted. -/
theorem transfer_of_admitted (h : AdmitDone k prog a) {pc : Nat} {i : BpfInsn}
    (hi : prog[pc]? = some i) : ∃ es, Transfer k prog.length pc i (a.flow pc) es := by
  have hpc : pc < prog.length := (List.getElem?_eq_some_iff.mp hi).1
  obtain ⟨es, ⟨_, j, hj, ht⟩, _⟩ := h.pass.solution Flow.le_join_left Flow.le_join_right
    (Nat.zero_le pc) hpc
  obtain rfl : j = i := Option.some.inj (hj.symm.trans hi)
  exact ⟨es, ht⟩

/-- The context of an admitted program of a length that the caller lets through. -/
theorem compilable_of_admitted (h : admitProgram k prog = .ok a) (hlen : prog.length ≤ cbpfMaxInsns) :
    Compilable (Compiler.ofAdmission prog a) := by
  have hdone := admit_done h
  refine ⟨hlen, ?_, fun p i hi hcode => ?_⟩
  · intro i hi code hcode
    obtain ⟨pc, hget⟩ := List.getElem?_of_mem hi
    obtain ⟨es, ht⟩ := transfer_of_admitted hdone hget
    exact ht.code_ne_other code hcode
  · change a.operation p ≤ 3
    rw [hdone.operation p i hi hcode]
    exact callOperation_le k i

theorem bounded_ofAdmission (prog : List BpfInsn) (a : Admission) :
    Bounded (Compiler.ofAdmission prog a) :=
  ⟨fun _ => Nat.zero_le _, Nat.zero_le _, Nat.zero_le _, Nat.zero_le _⟩

/-- Compiling an admitted program: the context and the checked image. -/
theorem compile_written (ht : t.Encodes) (h : admitProgram k prog = .ok a)
    (hlen : prog.length ≤ cbpfMaxInsns) :
    ∃ c image, (Compiler.ofAdmission prog a).passes t = some c ∧ c.image = some image ∧
      ∀ gate exit link,
        Loaded t k prog a c ⟨image, c.executiveExit, gate, exit, link⟩ := by
  obtain ⟨c, image, hpasses, himage, hprog, hoperation, hlaid, hwritten⟩ :=
    Compiler.passes_written ht (compilable_of_admitted h hlen) (bounded_ofAdmission prog a)
      rfl rfl rfl
  exact ⟨c, image, hpasses, himage, fun gate exit link =>
    ⟨admit_done h, hprog, hoperation, hlaid, hwritten, rfl⟩⟩

/-- Semantic preservation by the code generator. Compiling an admitted program succeeds, and
wherever a run is, and however native control came to be related to it, the words of the next
instruction simulate what the program does. -/
theorem native_simulates_bpf (k : Kfuncs) (env : Env) (t : Target) (prog : List BpfInsn)
    (a : Admission) (ht : t.Encodes) (h : admitProgram k prog = .ok a)
    (hlen : prog.length ≤ cbpfMaxInsns) :
    ∃ c image, (Compiler.ofAdmission prog a).passes t = some c ∧ c.image = some image ∧
      ∀ (gate exit : Capability) (link : Nat → Capability) (s₀ s : BpfState),
        Starts env s₀ → Relation.ReflTransGen (Step k env prog) s₀ s →
        (∀ m, Related a c ⟨image, c.executiveExit, gate, exit, link⟩ s m →
          ∀ clobber, ∃ i, prog[s.pc]? = some i ∧
            Simulates a c env ⟨image, c.executiveExit, gate, exit, link⟩ i m
              (bpfStep k env prog clobber s)) ∧
        ∀ m₀, Related a c ⟨image, c.executiveExit, gate, exit, link⟩ s₀ m₀ →
          ∃ n m, Steps env ⟨image, c.executiveExit, gate, exit, link⟩ n m₀ m ∧
            Related a c ⟨image, c.executiveExit, gate, exit, link⟩ s m := by
  obtain ⟨c, image, hpasses, himage, hloaded⟩ := compile_written ht h hlen
  refine ⟨c, image, hpasses, himage, fun gate exit link s₀ s hs hrun => ⟨?_, ?_⟩⟩
  · intro m hm clobber
    exact simulates_step (hloaded gate exit link) hm (sound_of_run h hs hrun) clobber
  · intro m₀ hm₀
    induction hrun with
    | refl => exact ⟨0, m₀, rfl, hm₀⟩
    | tail hrun hstep ih =>
      obtain ⟨n, m, hsteps, hm⟩ := ih
      obtain ⟨clobber, hnext⟩ := hstep
      obtain ⟨i, _, hsim⟩ :=
        simulates_step (hloaded gate exit link) hm (sound_of_run h hs hrun) clobber
      rw [hnext] at hsim
      cases hsim with
      | next _ m' hwords hm' => exact ⟨_, m', hsteps.trans hwords, hm'⟩

/-- A target whose macros encode exactly the operands in range. -/
def plainTarget : Target := ⟨true, false, 0x8000, 0x9000, Word.inRange⟩

/-- The registers that `cbpf_enter` sets, with everything else cleared. -/
def enteredMachine (pc : Nat) (gate exit : Capability) (s : BpfState) : Machine where
  pc := pc
  c := fun r => if r = 17 then gate else if r = 30 then exit else .null
  slot := s.slot
  g := s.g

/-- Native execution of the sample program up to its null check. -/
theorem native_simulates_bpf_acquired : ∃ a c image s n m, admitProgram immKfuncs acquireRelease = .ok a ∧
    (Compiler.ofAdmission acquireRelease a).passes plainTarget = some c ∧
    s.pc = 2 ∧ s.issued = [⟨true, false, 8192, 8192, 16, cbpfPublicPerms⟩] ∧
    Steps flatEnv ⟨image, c.executiveExit, .ofInt 1, .ofInt 2, .ofInt⟩ n
      (enteredMachine (c.offset 0) (.ofInt 1) (.ofInt 2) staleStart) m ∧
    Related a c ⟨image, c.executiveExit, .ofInt 1, .ofInt 2, .ofInt⟩ s m := by
  obtain ⟨a, haccepted⟩ := acquireRelease_admitted
  have hrun : Relation.ReflTransGen (Step immKfuncs flatEnv acquireRelease) staleStart _ :=
    .tail (.tail .refl ⟨fun _ => .null, rfl⟩) ⟨fun _ => .null, rfl⟩
  obtain ⟨c, image, hpasses, _, hsimulates⟩ := native_simulates_bpf immKfuncs flatEnv
    plainTarget acquireRelease a (fun _ h => h) haccepted (by decide)
  have hentry : ∀ r, isDefined ((a.flow 0).reg r) = false := by
    intro r
    rw [(admit_done haccepted).pass.frame (Nat.le_refl 0)]
    exact isDefined_uninit
  have hstart : Related a c ⟨image, c.executiveExit, .ofInt 1, .ofInt 2, .ofInt⟩ staleStart
      (enteredMachine (c.offset 0) (.ofInt 1) (.ofInt 2) staleStart) :=
    ⟨rfl, fun r _ hr => absurd ((hentry r).symm.trans hr) nofun, rfl, rfl, rfl, rfl⟩
  obtain ⟨n, m, hsteps, hm⟩ :=
    (hsimulates (.ofInt 1) (.ofInt 2) .ofInt staleStart _ staleStart_starts hrun).2 _ hstart
  exact ⟨a, c, image, _, n, m, haccepted, hpasses, rfl, rfl, hsteps, hm⟩

end Cbpf.Jit
