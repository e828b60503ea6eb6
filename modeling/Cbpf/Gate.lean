import Cbpf.Run
import Cbpf.Lib.Cheri

/-!
# The trusted gate interpreter (`src/gate.c`)

`gate.c` is compiled twice: on the host a handle is a plain cell pointer and a consumed cell holds
NULL, in purecap mode a handle is a restricted capability and a consumed cell holds an untagged one.
What the two builds do differently is the record `Platform`; everything else is written once over
it, and `hostPlatform` and `purecapPlatform` are the two sides of the `#ifdef`s.
-/

namespace Cbpf

open BoundedLoop Cheri

/-- `enum gate_outcome`. -/
inductive GateOutcome where
  | ok | null | stale | exhausted | representation
  deriving DecidableEq, Repr

/-- `struct cbpf_gate_metrics` (`src/gate.h:8-16`). -/
structure GateMetrics where
  acquisitions : Nat
  reads : Nat
  releases : Nat
  cleanups : Nat
  restrictedHandles : Nat
  tagClears : Nat
  cellBytes : Nat
  handleBytes : Nat
  purecap : Bool
  representationErrors : Nat
  deriving DecidableEq, Repr

/-- The parts of `gate.c` under `#ifdef __CHERI_PURE_CAPABILITY__`. -/
structure Platform (Handle Object : Type) where
  purecap : Bool
  /-- `sizeof(struct gate_cell)` -/
  cellBytes : Nat
  /-- `sizeof(gate_handle)` -/
  handleBytes : Nat
  /-- `NULL` as a `gate_handle` -/
  null : Handle
  /-- the content of a zeroed cell -/
  nullObject : Object
  /-- `&s->object` -/
  object : Object
  /-- `prepare_view(&s->cells[i], &view)`; `none` is a result of 0 -/
  prepareView : Nat → Option Handle
  sameHandle : Handle → Handle → Bool
  objectIsLive : Object → Bool
  /-- what `consume` leaves in a cell -/
  clear : Object → Object

/-- `struct gate_state` with the other local variables of `cbpf_gate_run`. -/
structure GateState (Handle Object : Type) where
  value : Int
  references : Int
  cells : List Object
  views : List Handle
  regs : List Handle
  spills : List Handle
  pc : Nat
  r : Result
  m : GateMetrics

section Interpreter

variable {Handle Object : Type} (pl : Platform Handle Object)

/-- `identify` (`src/gate.c:69-80`): the outcome and `*token`. -/
def identify (views : List Handle) (view : Handle) (acquired : Nat) : GateOutcome × Nat :=
  if pl.sameHandle view pl.null then (.ok, 0)
  else
    match (List.range acquired).find? fun i => pl.sameHandle view (views.getD i pl.null) with
    | some i => (.ok, i + 1)
    | none => (.representation, 0)

/-- The effects of `acquire` once the view of the next cell is prepared (`src/gate.c:103-112`). -/
def GateState.publish (s : GateState Handle Object) (view : Handle) (dst : Nat) :
    GateState Handle Object :=
  let references := s.references + 1
  { s with
    cells := s.cells.set s.r.acquired pl.object
    references := references
    views := s.views.set s.r.acquired view
    regs := s.regs.set dst view
    r := { s.r with objectRefs := references, acquired := s.r.acquired + 1 }
    m := if pl.purecap then { s.m with restrictedHandles := s.m.restrictedHandles + 1 } else s.m }

/-- `acquire` (`src/gate.c:91-114`) with `out = &regs[dst]`: the outcome, `*token` and the state. -/
def GateState.acquire (s : GateState Handle Object) (success : Int) (dst : Nat) :
    GateOutcome × Nat × GateState Handle Object :=
  let s := { s with m := { s.m with acquisitions := s.m.acquisitions + 1 } }
  if success = 0 then (.ok, 0, { s with regs := s.regs.set dst pl.null })
  else if s.r.acquired = cbpfCells then (.exhausted, 0, s)
  else
    match pl.prepareView s.r.acquired with
    | none => (.representation, 0, s)
    | some view => (.ok, s.r.acquired + 1, s.publish pl view dst)

/-- `read_field` (`src/gate.c:116-129`). -/
def GateState.readField (s : GateState Handle Object) (view : Handle) :
    GateOutcome × Nat × GateState Handle Object :=
  let s := { s with m := { s.m with reads := s.m.reads + 1 } }
  match identify pl s.views view s.r.acquired with
  | (.ok, token) =>
    if token = 0 then (.null, token, s)
    else if !pl.objectIsLive (s.cells.getD (token - 1) pl.nullObject) then (.stale, token, s)
    else (.ok, token, { s with r := { s.r with lastRead := s.value, reads := s.r.reads + 1 } })
  | (outcome, token) => (outcome, token, s)

/-- `consume` (`src/gate.c:134-156`) on `private = &s->cells[i]`. -/
def GateState.consume (s : GateState Handle Object) (i token : Nat) (cleanup : Bool) :
    Bool × GateState Handle Object :=
  let object := s.cells.getD i pl.nullObject
  if !pl.objectIsLive object then (false, s)
  else
    let references := s.references - 1
    let m := if pl.purecap then { s.m with tagClears := s.m.tagClears + 1 } else s.m
    let r := { s.r with objectRefs := references }
    (true,
      { s with
        cells := s.cells.set i (pl.clear object)
        references := references
        m := if cleanup then { m with cleanups := m.cleanups + 1 } else m
        r := if cleanup then
            { r with
              cleanupReleases := r.cleanupReleases + 1
              cleanupByCell := bump r.cleanupByCell (token - 1) }
          else
            { r with
              explicitReleases := r.explicitReleases + 1
              explicitByCell := bump r.explicitByCell (token - 1) } })

/-- `release` (`src/gate.c:158-168`). -/
def GateState.release (s : GateState Handle Object) (view : Handle) :
    GateOutcome × Nat × GateState Handle Object :=
  let s := { s with m := { s.m with releases := s.m.releases + 1 } }
  match identify pl s.views view s.r.acquired with
  | (.ok, token) =>
    if token = 0 then (.null, token, s)
    else
      match s.consume pl (token - 1) token false with
      | (true, s') => (.ok, token, s')
      | (false, s') => (.stale, token, s')
  | (outcome, token) => (outcome, token, s)

/-- `r->pc = pc`. -/
def GateState.enter (s : GateState Handle Object) : GateState Handle Object :=
  { s with r := { s.r with pc := s.pc } }

/-- The end of a pass, after the `switch` (`src/gate.c:234-247`). -/
def GateState.settle (s : GateState Handle Object) (op : Opcode) (outcome : GateOutcome)
    (token next : Nat) : Control (GateState Handle Object) :=
  if outcome = .representation then
    .finish { s with
      m := { s.m with representationErrors := s.m.representationErrors + 1 }
      r := { s.r with status := .invalid } }
  else if outcome ≠ .ok then
    let t := if outcome = .null then Trap.null else if outcome = .stale then .stale else .exhausted
    .finish { s with
      r := record { s.r with status := .trapped, trap := t } .trapEvent op s.pc token }
  else .next { s with r := record s.r .step op s.pc token, pc := next }

/-- `CBPF_RETURN`. -/
def GateState.returnAt (s : GateState Handle Object) (op : Opcode) (imm : Int) :
    GateState Handle Object :=
  { s with r := record { s.r with returned := imm, status := .returned } .step op s.pc 0 }

/-- `(int)x` of an `int64_t`. -/
def intOfInt64 (x : Int) : Int := x.bmod (2 ^ 32)

/-- One pass of the loop of `cbpf_gate_run` on instruction `x = p[pc]`. -/
def GateState.exec (s : GateState Handle Object) (x : Insn) : Control (GateState Handle Object) :=
  let next := s.pc + 1
  let s := s.enter
  match x.op with
  | .acquire =>
    let (outcome, token, s) := s.acquire pl (intOfInt64 x.imm) x.dst
    s.settle x.op outcome token next
  | .copy =>
    let view := s.regs.getD x.src pl.null
    let (outcome, token) := identify pl s.views view s.r.acquired
    { s with regs := s.regs.set x.dst view }.settle x.op outcome token next
  | .spill =>
    let view := s.regs.getD x.src pl.null
    let (outcome, token) := identify pl s.views view s.r.acquired
    { s with spills := s.spills.set x.dst view }.settle x.op outcome token next
  | .reload =>
    let view := s.spills.getD x.src pl.null
    let (outcome, token) := identify pl s.views view s.r.acquired
    { s with regs := s.regs.set x.dst view }.settle x.op outcome token next
  | .read =>
    let (outcome, token, s) := s.readField pl (s.regs.getD x.dst pl.null)
    s.settle x.op outcome token next
  | .release =>
    let (outcome, token, s) := s.release pl (s.regs.getD x.dst pl.null)
    s.settle x.op outcome token next
  | .brNull =>
    let (outcome, token) := identify pl s.views (s.regs.getD x.dst pl.null) s.r.acquired
    s.settle x.op outcome token (if outcome = .ok ∧ token = 0 then sizeOfInt x.imm else next)
  | .ret => .finish (s.returnAt x.op x.imm)
  | .other _ => .finish { s with r := { s.r with status := .invalid } }

/-- `for (size_t pc = 0; pc < n; ) { ... }`. -/
def cbpfGateRunLoop (p : Nat → Insn) (n : Nat) : Loop (GateState Handle Object) where
  guard s := s.pc < n
  body s := s.exec pl (p s.pc)

/-- One pass of the cleanup loop at `finish`, for cell `i`. -/
def GateState.cleanupCell (s : GateState Handle Object) (i : Nat) : GateState Handle Object :=
  match s.consume pl i (i + 1) true with
  | (true, s') => { s' with r := record s'.r .cleanup .release s'.r.pc (i + 1) }
  | (false, s') => s'

/-- `for (unsigned i = 0; i < r->acquired; ++i)` at the label `finish`. -/
def GateState.cleanup (s : GateState Handle Object) : GateState Handle Object :=
  (List.range s.r.acquired).foldl (fun s i => s.cleanupCell pl i) s

/-- `*m` after `memset` and the three assignments that follow it. -/
def GateMetrics.init : GateMetrics where
  acquisitions := 0
  reads := 0
  releases := 0
  cleanups := 0
  restrictedHandles := 0
  tagClears := 0
  cellBytes := pl.cellBytes
  handleBytes := pl.handleBytes
  purecap := pl.purecap
  representationErrors := 0

/-- The state at the first test of `pc < n`. -/
def GateState.init : GateState Handle Object where
  value := 42
  references := 1
  cells := List.replicate cbpfCells pl.nullObject
  views := List.replicate cbpfCells pl.null
  regs := List.replicate cbpfRegs pl.null
  spills := List.replicate cbpfSpills pl.null
  pc := 0
  r := { Result.zero with objectRefs := 1 }
  m := GateMetrics.init pl

/-- `cbpf_gate_run`: what it leaves in `*r` and, when `metrics` is not NULL, in `*metrics`. -/
def cbpfGateRun (p : InsnPtr) (n : Nat) (metrics : Bool) : Option (Result × Option GateMetrics) :=
  let observe (r : Result) (m : GateMetrics) := (r, if metrics then some m else none)
  match cbpfValidate p n with
  | .error bad =>
    some (observe { (GateState.init pl).r with pc := bad, status := .invalid } (GateMetrics.init pl))
  | .ok () =>
    ((cbpfGateRunLoop pl p.deref n).run (n + 1) (GateState.init pl)).map fun s =>
      observe (s.cleanup pl).r (s.cleanup pl).m

end Interpreter

/-- The host build. A handle is NULL or the address of a cell, a cell holds NULL or the address of
the object. `pointerBytes` is `sizeof(void *)`. -/
def hostPlatform (pointerBytes : Nat) : Platform (Option Nat) (Option Unit) where
  purecap := false
  cellBytes := pointerBytes
  handleBytes := pointerBytes
  null := none
  nullObject := none
  object := some ()
  prepareView i := some (some i)
  sameHandle a b := a == b
  objectIsLive object := object != none
  clear _ := none

/-- Where the compiler puts the gate's state: the capabilities for `&s->cells[i]` and `&s->object`.
They are addresses of live variables, so distinct cells differ and the object's is tagged. -/
structure PurecapLayout where
  enc : Encoding
  cell : Nat → Capability
  object : Capability
  capabilityBytes : Nat
  cells_distinct : (cell 0).address ≠ (cell 1).address
  object_tagged : object.tag = true

/-- `prepare_view` in the purecap build (`src/gate.c:35-54`). -/
def prepareView (enc : Encoding) (cellBytes : Nat) (cell : Capability) : Option Capability :=
  let permissions := permLoad ||| permGlobal
  let view := (cell.boundsSetExact enc cellBytes).permsAnd permissions
  if view.inexact cell.address cellBytes permissions then none else some view

/-- The purecap build. -/
def purecapPlatform (l : PurecapLayout) : Platform Capability Capability where
  purecap := true
  cellBytes := l.capabilityBytes
  handleBytes := l.capabilityBytes
  null := .null
  nullObject := .null
  object := l.object
  prepareView i := prepareView l.enc l.capabilityBytes (l.cell i)
  sameHandle a b := a == b
  objectIsLive object := object.tag
  clear object := object.tagClear

end Cbpf
