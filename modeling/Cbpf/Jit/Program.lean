import Cbpf.Kernel.AccessDecision

/-!
# The BPF programs of the native compiler

The instructions that `src/linux/ownership/cbpf_jit.c` looks at, and what they do. A kfunc call
runs the acquisition gate of the kernel; registers and the stack slot at -8 hold values in full
capability width.
-/

namespace Cbpf.Jit

open Cheri Kernel

/-- `insn->code`, the seven that the compiler admits and the rest. -/
inductive Code where
  | alu64MovX
  | alu64MovK
  | stxMemDw
  | ldxMemDw
  | jmpJeqK
  | jmpCall
  | jmpExit
  | other (code : Nat)
  deriving DecidableEq, Repr

/-- `struct bpf_insn`. -/
structure BpfInsn where
  code : Code
  dstReg : Nat
  srcReg : Nat
  off : Int
  imm : BitVec 32
  deriving DecidableEq, Repr

/-- `BPF_PSEUDO_KFUNC_CALL` -/
def bpfPseudoKfuncCall : Nat := 2
/-- `BPF_REG_10` -/
def bpfReg10 : Nat := 10

/-- `CBPF_OP_ACQUIRE`, `CBPF_OP_READ` and `CBPF_OP_RELEASE`. -/
def opAcquire : Nat := 1
def opRead : Nat := 2
def opRelease : Nat := 3

/-- How the kernel resolves calls: `bpf_jit_get_func_addr` (address and `fixed`, unless it fails)
and the addresses of the three kfuncs. -/
structure Kfuncs where
  funcAddr : BpfInsn → Option (Nat × Bool)
  cbpfCapAcquire : Nat
  cbpfCapRead : Nat
  cbpfCapRelease : Nat

/-- `call_operation`. -/
def callOperation (k : Kfuncs) (insn : BpfInsn) : Nat :=
  if insn.code ≠ .jmpCall ∨ insn.srcReg ≠ bpfPseudoKfuncCall ∨ insn.dstReg ≠ 0 then 0
  else
    match k.funcAddr insn with
    | some (address, true) =>
      if address = k.cbpfCapAcquire then opAcquire
      else if address = k.cbpfCapRead then opRead
      else if address = k.cbpfCapRelease then opRelease
      else 0
    | _ => 0

/-- Only calls have an operation. -/
theorem code_of_callOperation {k : Kfuncs} {insn : BpfInsn} {op : Nat}
    (h : callOperation k insn = op) (hop : op ≠ 0) : insn.code = .jmpCall := by
  by_contra hcode
  rw [callOperation, if_pos (.inl hcode)] at h
  exact hop h.symm

theorem callOperation_le (k : Kfuncs) (insn : BpfInsn) : callOperation k insn ≤ 3 := by
  unfold callOperation opAcquire opRead opRelease
  split
  · omega
  · split
    · split
      · omega
      · split
        · omega
        · split <;> omega
    · omega

/-- A run of a program: its registers and its slot, what has been written since the entry or the
last call, the gate, the views that its acquisitions returned and the calls it has made. -/
structure BpfState where
  pc : Nat
  reg : Nat → Capability
  slot : Capability
  written : Nat → Bool
  slotWritten : Bool
  g : Running
  issued : List Capability
  calls : List GateCall

namespace BpfState

/-- `r := v` and on to the next instruction. -/
def write (s : BpfState) (r : Nat) (v : Capability) : BpfState :=
  { s with
    pc := s.pc + 1
    reg := Function.update s.reg r v
    written := Function.update s.written r true }

/-- `*(u64 *)(r10 - 8) := v` and on to the next instruction. -/
def spill (s : BpfState) (v : Capability) : BpfState :=
  { s with pc := s.pc + 1, slot := v, slotWritten := true }

/-- The gate call that a kfunc call at `s.pc` makes. -/
def gateCall (s : BpfState) (operation : Nat) : GateCall := ⟨s.reg 1, operation, s.pc⟩

/-- After a gate call: r0 holds the result, r1 to r5 hold anything. -/
def returned (s : BpfState) (c : GateCall) (g : Running) (result : Capability)
    (clobber : Nat → Capability) : BpfState where
  pc := s.pc + 1
  reg := fun r => if r = 0 then result else if r ≤ 5 then clobber r else s.reg r
  slot := s.slot
  written := fun r => if r = 0 then true else if r ≤ 5 then false else s.written r
  slotWritten := s.slotWritten
  g := g
  issued := if c.operation = opAcquire ∧ result.tag = true then s.issued ++ [result] else s.issued
  calls := s.calls ++ [c]

end BpfState

/-- What one instruction leads to. -/
inductive Outcome where
  | next (s : BpfState)
  | exit (value : Capability)
  /-- The gate rejected the call: the run is over. -/
  | rejected (c : GateCall) (g : Running)
  | stuck

/-- The gateway takes any result with the integer value -1 for a rejection. -/
def isFailure (result : Capability) : Bool := result.address == u64Max

/-- A kfunc call. -/
def bpfCall (env : Env) (clobber : Nat → Capability) (s : BpfState) (operation : Nat) : Outcome :=
  let c := s.gateCall operation
  let (g, result) := s.g.call env c
  if isFailure result then .rejected c g else .next (s.returned c g result clobber)

/-- One instruction; `clobber` is what a call leaves in r1 to r5. -/
def bpfStep (k : Kfuncs) (env : Env) (prog : List BpfInsn) (clobber : Nat → Capability)
    (s : BpfState) : Outcome :=
  match prog[s.pc]? with
  | none => .stuck
  | some i =>
    match i.code with
    | .alu64MovX => .next (s.write i.dstReg (s.reg i.srcReg))
    | .alu64MovK => .next (s.write i.dstReg (.ofInt (i.imm.signExtend 64).toNat))
    | .stxMemDw =>
      if i.dstReg = bpfReg10 ∧ i.off = -8 then .next (s.spill (s.reg i.srcReg)) else .stuck
    | .ldxMemDw =>
      if i.srcReg = bpfReg10 ∧ i.off = -8 then .next (s.write i.dstReg s.slot) else .stuck
    | .jmpJeqK =>
      if (s.reg i.dstReg).address = (i.imm.signExtend 64).toNat then
        if s.pc + 1 + i.off < 0 then .stuck
        else .next { s with pc := (s.pc + 1 + i.off).toNat }
      else .next { s with pc := s.pc + 1 }
    | .jmpCall =>
      if callOperation k i = 0 then .stuck else bpfCall env clobber s (callOperation k i)
    | .jmpExit => .exit (s.reg 0)
    | .other _ => .stuck

/-- One step of a run, whatever a call leaves behind. -/
def Step (k : Kfuncs) (env : Env) (prog : List BpfInsn) (s s' : BpfState) : Prop :=
  ∃ clobber, bpfStep k env prog clobber s = .next s'

/-- The registers that an instruction reads. -/
def BpfInsn.reads (i : BpfInsn) : List Nat :=
  match i.code with
  | .alu64MovX | .stxMemDw => [i.srcReg]
  | .jmpJeqK => [i.dstReg]
  | .jmpCall => [1]
  | .jmpExit => [0]
  | _ => []

/-- The beginning of a run: the invocation has been entered and has made no call, its cells are an
aligned object of the kernel, and registers and slot hold anything. -/
structure Starts (env : Env) (s : BpfState) : Prop where
  pc : s.pc = 0
  written : s.written = fun _ => false
  slotWritten : s.slotWritten = false
  issued : s.issued = []
  calls : s.calls = []
  inv : s.g.s.Inv env
  entered : s.g.s.entered = true
  alive : s.g.s.failed = false
  acquired : s.g.s.acquired = 0
  value : s.g.object.value = 42
  cells : 0 < s.g.s.cellsAddr ∧ 16 ∣ s.g.s.cellsAddr

/-! ### The instructions to come -/

/-- The rest of a program is empty at its end only. -/
theorem rest_nil {prog : List BpfInsn} {pc : Nat} (h : prog.drop pc = []) (hpc : pc ≤ prog.length) :
    pc = prog.length :=
  Nat.le_antisymm hpc (List.drop_eq_nil_iff.mp h)

theorem rest_cons {prog rest : List BpfInsn} {pc : Nat} {i : BpfInsn}
    (h : prog.drop pc = i :: rest) :
    prog[pc]? = some i ∧ pc < prog.length ∧ prog.drop (pc + 1) = rest := by
  have hi : prog[pc]? = some i := by
    rw [← List.head?_drop, h]
    rfl
  refine ⟨hi, (List.getElem?_eq_some_iff.mp hi).1, ?_⟩
  rw [← List.tail_drop, h]
  rfl

end Cbpf.Jit
