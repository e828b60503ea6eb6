import Cbpf.Jit.Program
import Cbpf.Lib.Dataflow

/-!
# The admission pass (`src/linux/ownership/cbpf_jit.c`, lines 66-192)

One pass over the program in increasing order of `pc`. What a register may hold is a set of kinds,
a bit mask as in the source. `Transfer` lists what the pass accepts at one instruction and the
facts it joins into later ones.
-/

namespace Cbpf.Jit

/-- A set of kinds. -/
abbrev Kind := BitVec 8

namespace Kind

def uninit : Kind := 1
def zero : Kind := 2
def scalar : Kind := 4
def handle : Kind := 8

/-- Does the set contain one of the kinds of `b`? -/
def has (k b : Kind) : Bool := k &&& b != 0#8

end Kind

/-- `scalar`. -/
def isScalar (kind : Kind) : Bool :=
  kind != 0#8 && !kind.has (~~~(Kind.zero ||| Kind.scalar))

/-- `defined`. -/
def isDefined (kind : Kind) : Bool := kind != 0#8 && !kind.has .uninit

/-- `struct cbpf_flow`. -/
structure Flow where
  reg : Nat → Kind
  spill : Kind
  reached : Bool

namespace Flow

/-- A flow of the zeroed compiler context. -/
def zeroed : Flow := ⟨fun _ => 0, 0, false⟩

/-- `c->flow[0]`. -/
def entry : Flow := ⟨fun _ => .uninit, .uninit, true⟩

/-- `state.reg[r] = kind`. -/
def set (f : Flow) (r : Nat) (kind : Kind) : Flow := { f with reg := Function.update f.reg r kind }

/-- `join`. -/
def join (destination source : Flow) : Flow :=
  if !destination.reached then source
  else { destination with
    reg := fun r => destination.reg r ||| source.reg r
    spill := destination.spill ||| source.spill }

/-- What every admitted call does to the flow: r0 gets `kind` and r1 to r5 are lost. -/
def call (f : Flow) (kind : Kind) : Flow :=
  { f with reg := fun r => if r = 0 then kind else if r ≤ 5 then .uninit else f.reg r }

end Flow

/-- The error codes of `admit`. -/
inductive Errno where
  | einval
  | eopnotsupp
  deriving DecidableEq, Repr

/-- What `admit` computes: the arrays of `struct cbpf_compiler` and its local variables. -/
structure Admission where
  flow : Nat → Flow
  operation : Nat → Nat
  acquisitions : Nat
  hasExit : Bool

namespace Admission

/-- `join(&c->flow[target], &state)`. -/
def joinFlow (c : Admission) (target : Nat) (state : Flow) : Admission :=
  { c with flow := Function.update c.flow target ((c.flow target).join state) }

/-- `c->operation[pc] = operation`. -/
def setOperation (c : Admission) (pc operation : Nat) : Admission :=
  { c with operation := Function.update c.operation pc operation }

/-- The context before the first instruction. -/
def initial : Admission where
  flow := Function.update (fun _ => .zeroed) 0 .entry
  operation := fun _ => 0
  acquisitions := 0
  hasExit := false

end Admission

/-- The body of the loop of `admit`. -/
def admitInsn (k : Kfuncs) (len pc : Nat) (i : BpfInsn) (c : Admission) :
    Except Errno Admission :=
  let dst := i.dstReg
  let src := i.srcReg
  let state := c.flow pc
  -- No unreachable native fragments outside the checked grammar.
  if !state.reached then .error .einval
  else
    match i.code with
    | .alu64MovX =>
      if dst > 9 || src > 9 || i.off != 0 || i.imm != 0 || !isDefined (state.reg src) then
        .error .einval
      else .ok (c.joinFlow (pc + 1) (state.set dst (state.reg src)))
    | .alu64MovK =>
      if dst > 9 || src != 0 || i.off != 0 then .error .einval
      else .ok (c.joinFlow (pc + 1) (state.set dst (if i.imm != 0 then .scalar else .zero)))
    | .stxMemDw =>
      if dst != bpfReg10 || src > 9 || i.off != -8 || i.imm != 0 ||
          !isDefined (state.reg src) then .error .einval
      else .ok (c.joinFlow (pc + 1) { state with spill := state.reg src })
    | .ldxMemDw =>
      if dst > 9 || src != bpfReg10 || i.off != -8 || i.imm != 0 || !isDefined state.spill then
        .error .einval
      else .ok (c.joinFlow (pc + 1) (state.set dst state.spill))
    | .jmpJeqK =>
      if dst > 9 || src != 0 || i.imm != 0 || i.off ≤ 0 || pc + 1 + i.off.toNat ≥ len ||
          !isDefined (state.reg dst) ||
          (state.reg dst).has (~~~(Kind.zero ||| Kind.handle)) then .error .einval
      else
        let c := if (state.reg dst).has .zero then
            c.joinFlow (pc + 1 + i.off.toNat) (state.set dst .zero)
          else c
        let rest := state.reg dst &&& ~~~Kind.zero
        .ok (if rest != 0#8 then c.joinFlow (pc + 1) (state.set dst rest) else c)
    | .jmpCall =>
      let operation := callOperation k i
      let c := c.setOperation pc operation
      if operation = opAcquire then
        if !isScalar (state.reg 1) || c.acquisitions + 1 > 2 then .error .einval
        else .ok (({ c with acquisitions := c.acquisitions + 1 } : Admission).joinFlow (pc + 1)
          (state.call (.handle ||| .zero)))
      else if operation = opRead ∨ operation = opRelease then
        if state.reg 1 != .handle then .error .einval
        else .ok (c.joinFlow (pc + 1)
          (state.call (if operation = opRead then .scalar else .zero)))
      else .error .einval
    | .jmpExit =>
      if dst != 0 || src != 0 || i.off != 0 || i.imm != 0 || !isScalar (state.reg 0) then
        .error .einval
      else .ok { c with hasExit := true }
    | .other _ => .error .eopnotsupp

/-- The loop of `admit` from `pc` on. -/
def admitLoop (k : Kfuncs) (len : Nat) : Nat → List BpfInsn → Admission → Except Errno Admission
  | _, [], c => .ok c
  | pc, i :: rest, c =>
    match admitInsn k len pc i c with
    | .error e => .error e
    | .ok c => admitLoop k len (pc + 1) rest c

/-- `admit`: the filled context, or the error. -/
def admitProgram (k : Kfuncs) (prog : List BpfInsn) : Except Errno Admission :=
  match admitLoop k prog.length 0 prog .initial with
  | .error e => .error e
  | .ok c =>
    if c.hasExit && c.acquisitions != 0 && !(c.flow prog.length).reached then .ok c
    else .error .einval

end Cbpf.Jit
