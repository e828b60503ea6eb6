import Cbpf.Insn
import Cbpf.Lib.BoundedLoop

/-!
# The reference interpreter (`cbpf_run`, `src/cbpf.c:41-132`)

One pass of the `for` loop is `cbpfRunBody`; leaving it by `goto finish` is `Control.finish`. The
terminal cleanup is a fold over the acquired cells. C arrays are lists of their fixed length, read
with a default and written with `List.set`; that no index is out of range is proved, not built in.
-/

namespace Cbpf

open BoundedLoop

/-- `enum cbpf_status`. -/
inductive Status where
  | returned | trapped | invalid
  deriving DecidableEq, Repr

/-- `enum cbpf_trap`. -/
inductive Trap where
  | noTrap | null | stale | exhausted
  deriving DecidableEq, Repr

/-- `enum cbpf_event_kind`. -/
inductive EventKind where
  | step | trapEvent | cleanup
  deriving DecidableEq, Repr

/-- `struct cbpf_event`. -/
structure Event where
  kind : EventKind
  op : Opcode
  pc : Nat
  token : Nat
  objectRefs : Int
  deriving DecidableEq, Repr

/-- An event slot after `memset`. -/
def Event.zero : Event := ⟨.step, .acquire, 0, 0, 0⟩

/-- `struct cbpf_result`. -/
structure Result where
  status : Status
  trap : Trap
  pc : Nat
  returned : Int
  acquired : Nat
  reads : Nat
  explicitReleases : Nat
  cleanupReleases : Nat
  lastRead : Int
  objectRefs : Int
  explicitByCell : List Nat
  cleanupByCell : List Nat
  eventCount : Nat
  events : List Event
  deriving DecidableEq, Repr

/-- `memset(r, 0, sizeof(*r))`. -/
def Result.zero : Result where
  status := .returned
  trap := .noTrap
  pc := 0
  returned := 0
  acquired := 0
  reads := 0
  explicitReleases := 0
  cleanupReleases := 0
  lastRead := 0
  objectRefs := 0
  explicitByCell := List.replicate cbpfCells 0
  cleanupByCell := List.replicate cbpfCells 0
  eventCount := 0
  events := List.replicate cbpfMaxEvents Event.zero

/-- `explicit_by_cell[i]`. -/
def Result.explicitAt (r : Result) (i : Nat) : Nat := r.explicitByCell.getD i 0

/-- `cleanup_by_cell[i]`. -/
def Result.cleanupAt (r : Result) (i : Nat) : Nat := r.cleanupByCell.getD i 0

/-- `++a[i]`. -/
def bump (a : List Nat) (i : Nat) : List Nat := a.set i (a.getD i 0 + 1)

/-- `record` (`src/cbpf.c:41-47`, and the same function in `src/gate.c:27-34`). -/
def record (r : Result) (kind : EventKind) (op : Opcode) (pc token : Nat) : Result :=
  { r with
    events := r.events.set r.eventCount ⟨kind, op, pc, token, r.objectRefs⟩
    eventCount := r.eventCount + 1 }

/-- The local variables of `cbpf_run` and the result it fills in. -/
structure RunState where
  regs : List Nat
  spills : List Nat
  live : List Bool
  pc : Nat
  r : Result
  deriving DecidableEq, Repr

/-- `regs[i]`. -/
def RunState.reg (s : RunState) (i : Nat) : Nat := s.regs.getD i 0

/-- `spills[i]`. -/
def RunState.slot (s : RunState) (i : Nat) : Nat := s.spills.getD i 0

/-- `live[i]`. -/
def RunState.isLive (s : RunState) (i : Nat) : Bool := s.live.getD i false

/-- The state at the first test of `pc < n`. -/
def RunState.init : RunState where
  regs := List.replicate cbpfRegs 0
  spills := List.replicate cbpfSpills 0
  live := List.replicate cbpfCells false
  pc := 0
  r := { Result.zero with objectRefs := 1 }

/-- `r->pc = pc`, the first statement of a pass with an effect. -/
def RunState.enter (s : RunState) : RunState := { s with r := { s.r with pc := s.pc } }

/-- `regs[dst] = token`. -/
def RunState.setReg (s : RunState) (dst token : Nat) : RunState :=
  { s with regs := s.regs.set dst token }

/-- `spills[dst] = token`. -/
def RunState.setSpill (s : RunState) (dst token : Nat) : RunState :=
  { s with spills := s.spills.set dst token }

/-- The end of a pass without trap: `record(r, CBPF_STEP, x.op, pc, token); pc = next`. -/
def RunState.stepTo (s : RunState) (op : Opcode) (token next : Nat) : RunState :=
  { s with r := record s.r .step op s.pc token, pc := next }

/-- The label `trap`, with `r->trap` set just before the `goto`. -/
def RunState.trapAt (s : RunState) (op : Opcode) (token : Nat) (t : Trap) : RunState :=
  { s with r := record { s.r with trap := t, status := .trapped } .trapEvent op s.pc token }

/-- A successful `CBPF_ACQUIRE`: a fresh token, its cell live, one more object reference. -/
def RunState.acquire (s : RunState) (dst : Nat) : RunState :=
  let token := s.r.acquired + 1
  { s with
    live := s.live.set (token - 1) true
    regs := s.regs.set dst token
    r := { s.r with acquired := token, objectRefs := s.r.objectRefs + 1 } }

/-- A successful `CBPF_READ`. -/
def RunState.readField (s : RunState) : RunState :=
  { s with r := { s.r with reads := s.r.reads + 1, lastRead := 42 } }

/-- A successful `CBPF_RELEASE`: the cell is consumed before the provider effect. -/
def RunState.release (s : RunState) (token : Nat) : RunState :=
  { s with
    live := s.live.set (token - 1) false
    r := { s.r with
      objectRefs := s.r.objectRefs - 1
      explicitReleases := s.r.explicitReleases + 1
      explicitByCell := bump s.r.explicitByCell (token - 1) } }

/-- `CBPF_RETURN`. -/
def RunState.returnAt (s : RunState) (op : Opcode) (imm : Int) : RunState :=
  { s with r := record { s.r with returned := imm, status := .returned } .step op s.pc 0 }

/-- `r->status = CBPF_INVALID`, with which a run can also end. -/
def RunState.invalid (s : RunState) : RunState := { s with r := { s.r with status := .invalid } }

/-- `(size_t)x` of an `int64_t`. -/
def sizeOfInt (x : Int) : Nat := (x % 2 ^ 64).toNat

/-- One pass of the loop of `cbpf_run` on instruction `x = p[pc]`. -/
def RunState.exec (s : RunState) (x : Insn) : Control RunState :=
  let next := s.pc + 1
  let s := s.enter
  match x.op with
  | .acquire =>
    if x.imm = 0 then .next ((s.setReg x.dst 0).stepTo x.op 0 next)
    else if s.r.acquired = cbpfCells then .finish (s.trapAt x.op 0 .exhausted)
    else .next ((s.acquire x.dst).stepTo x.op (s.r.acquired + 1) next)
  | .copy =>
    let token := s.reg x.src
    .next ((s.setReg x.dst token).stepTo x.op token next)
  | .spill =>
    let token := s.reg x.src
    .next ((s.setSpill x.dst token).stepTo x.op token next)
  | .reload =>
    let token := s.slot x.src
    .next ((s.setReg x.dst token).stepTo x.op token next)
  | .read | .release =>
    let token := s.reg x.dst
    if token = 0 then .finish (s.trapAt x.op token .null)
    else if !s.isLive (token - 1) then .finish (s.trapAt x.op token .stale)
    else if x.op = .read then .next (s.readField.stepTo x.op token next)
    else .next ((s.release token).stepTo x.op token next)
  | .brNull =>
    let token := s.reg x.dst
    .next (s.stepTo x.op token (if token = 0 then sizeOfInt x.imm else next))
  | .ret => .finish (s.returnAt x.op x.imm)
  | .other _ => .finish { s with r := { s.r with status := .invalid } }

/-- `for (pc = 0; pc < n; ) { ... }`. -/
def cbpfRunLoop (p : Nat → Insn) (n : Nat) : Loop RunState where
  guard s := s.pc < n
  body s := s.exec (p s.pc)

/-- One pass of the cleanup loop at `finish`, for cell `i`. -/
def cleanupCell (s : RunState) (i : Nat) : RunState :=
  if !s.isLive i then s
  else
    { s with
      live := s.live.set i false
      r := record
        { s.r with
          objectRefs := s.r.objectRefs - 1
          cleanupReleases := s.r.cleanupReleases + 1
          cleanupByCell := bump s.r.cleanupByCell i }
        .cleanup .release s.r.pc (i + 1) }

/-- `for (unsigned i = 0; i < r->acquired; ++i)` at the label `finish`. -/
def RunState.cleanup (s : RunState) : RunState :=
  (List.range s.r.acquired).foldl cleanupCell s

/-- `cbpf_run`: what it leaves in `*r` (it returns `r->status`). Each pass raises `pc`, so `n + 1`
tests of the guard always suffice for a validated program. -/
def cbpfRun (p : InsnPtr) (n : Nat) : Option Result :=
  match cbpfValidate p n with
  | .error bad => some { RunState.init.r with pc := bad, status := .invalid }
  | .ok () => ((cbpfRunLoop p.deref n).run (n + 1) RunState.init).map fun s => s.cleanup.r

end Cbpf
