import Cbpf.Lib.Cheri

/-!
# The kernel acquisition gates (`linux/ownership/cbpf_runtime.c:22-152, 378-413`)

`Running` is what one CPU works on: the shared provider object and the invocation that
`cbpf_active` of that CPU points to. `u64` values are `Nat`; `u32` counters are incremented modulo
`2 ^ 32`. Everything an invocation prints is kept in `printed`.
-/

namespace Cbpf.Kernel

open Cheri

/-- `struct cbpf_object`. Its `refcount_t` saturates from `2 ^ 31` on; `refs` is an unbounded integer,
since beside the provider's own reference there is one for each tagged cell and a CPU has no more
than two of those. -/
structure ProviderObject where
  value : Int
  refs : Int
  deriving DecidableEq, Repr

/-- The `event` texts of `cbpf_trace`. -/
inductive TraceEvent where
  | reject | null | acquire | clear | release | cleanup | read | failed | exit
  deriving DecidableEq, Repr

/-- A `CBPF_GATE` line. -/
structure TraceRecord where
  seq : Nat
  event : TraceEvent
  pc : Nat
  id : Nat
  acquired : Nat
  released : Nat
  reads : Nat
  cleanup : Nat
  refs : Int
  tagA : Bool
  tagB : Bool
  deriving DecidableEq, Repr

/-- What the runtime prints: `CBPF_GATE`, `CBPF_ENTER`, `CBPF_BIND` and `CBPF_RESULT` lines. -/
inductive LogLine where
  | gate (record : TraceRecord)
  | enter (restrictedBase restrictedSize executiveBase executiveSize stackBase stackSize : Nat)
  | bind (pc id cell object : Nat) (view : Capability)
  | result (value : Nat) (entered failed balanced : Bool)
  deriving DecidableEq, Repr

/-- `struct cbpf_invocation`, its address and what it has printed. -/
structure Invocation where
  prog : Nat
  /-- `&s->cells[0]` -/
  cellsAddr : Nat
  cells : List Capability
  views : List Capability
  acquired : Nat
  released : Nat
  reads : Nat
  cleanup : Nat
  sequence : Nat
  entered : Bool
  failed : Bool
  printed : List LogLine
  deriving DecidableEq, Repr

/-- The object and the invocation of one CPU. -/
structure Running where
  object : ProviderObject
  s : Invocation
  deriving DecidableEq, Repr

/-- What the executive has around a gate call: the capability encoding, its default data
capability and `&cbpf_object`. -/
structure Env where
  enc : Encoding
  ddc : Capability
  objectAddr : Nat

/-- `ARRAY_SIZE(s->cells)`. -/
def numCells : Nat := 2
/-- `sizeof(struct cbpf_cell)`. -/
def cellBytes : Nat := 16
/-- `sizeof(struct cbpf_object)`. -/
def objectBytes : Nat := 8
/-- `U64_MAX`. -/
def u64Max : Nat := 2 ^ 64 - 1
/-- `CBPF_PUBLIC_PERMS`. -/
def cbpfPublicPerms : Nat := permLoad ||| permGlobal
/-- `CBPF_FAILURE`. -/
def cbpfFailure : Capability := .ofInt u64Max

/-- `++x` of a `u32`. -/
def u32Inc (x : Nat) : Nat := (x + 1) % 2 ^ 32

theorem u32Inc_of_lt {x : Nat} (h : x < 2 ^ 32 - 1) : u32Inc x = x + 1 :=
  Nat.mod_eq_of_lt (by omega)

/-- `cbpf_exact`. -/
def cbpfExact (env : Env) (address size perms : Nat) : Capability :=
  let cap := ((env.ddc.addressSet env.enc address).boundsSetExact env.enc size).permsAnd perms
  if cap.inexact address size perms then .null else cap

namespace Invocation

/-- `s->cells[i].object`. -/
def cellAt (s : Invocation) (i : Nat) : Capability := s.cells.getD i .null

/-- `s->views[i]`. -/
def viewAt (s : Invocation) (i : Nat) : Capability := s.views.getD i .null

/-- `&s->cells[i]`. -/
def cellAddr (s : Invocation) (i : Nat) : Nat := s.cellsAddr + cellBytes * i

/-- The view of cell `i` that the gate constructs. -/
def viewFor (s : Invocation) (env : Env) (i : Nat) : Capability :=
  cbpfExact env (s.cellAddr i) cellBytes cbpfPublicPerms

/-- `struct cbpf_invocation state = { .prog = prog }`. -/
def zeroed (prog cellsAddr : Nat) : Invocation where
  prog := prog
  cellsAddr := cellsAddr
  cells := List.replicate numCells .null
  views := List.replicate numCells .null
  acquired := 0
  released := 0
  reads := 0
  cleanup := 0
  sequence := 0
  entered := false
  failed := false
  printed := []

end Invocation

/-- The capability for `cbpf_object` that the gate stores in a cell. -/
def objectCap (env : Env) : Capability :=
  cbpfExact env env.objectAddr objectBytes cbpfPublicPerms

namespace Running

/-- `cbpf_trace`. -/
def trace (g : Running) (event : TraceEvent) (pc id : Nat) : Running :=
  let seq := u32Inc g.s.sequence
  { g with s := { g.s with
      sequence := seq
      printed := g.s.printed ++ [.gate
        { seq := seq, event := event, pc := pc, id := id, acquired := g.s.acquired,
          released := g.s.released, reads := g.s.reads, cleanup := g.s.cleanup,
          refs := g.object.refs, tagA := (g.s.cellAt 0).tag, tagB := (g.s.cellAt 1).tag }] } }

/-- Another printed line. -/
def print (g : Running) (line : LogLine) : Running :=
  { g with s := { g.s with printed := g.s.printed ++ [line] } }

/-- `cbpf_fail` with a non-NULL invocation. -/
def fail (g : Running) (pc : Nat) : Running :=
  ({ g with s := { g.s with failed := true } } : Running).trace .reject pc 0

/-- `s->cells[index].object = (uintcap_t)cheri_tag_clear(object)`. -/
def clearCell (g : Running) (index : Nat) : Running :=
  { g with s := { g.s with cells := g.s.cells.set index (g.s.cellAt index).tagClear } }

/-- `refcount_dec(&cbpf_object.refs)`. -/
def decRefs (g : Running) : Running :=
  { g with object := { g.object with refs := g.object.refs - 1 } }

/-- `++s->released; if (cleanup) ++s->cleanup;`. -/
def countRelease (g : Running) (cleanup : Bool) : Running :=
  { g with s := { g.s with
      released := u32Inc g.s.released
      cleanup := if cleanup then u32Inc g.s.cleanup else g.s.cleanup } }

/-- `cbpf_consume`. -/
def consume (g : Running) (index pc : Nat) (cleanup : Bool) : Running :=
  ((((g.clearCell index).trace .clear pc (index + 1)).decRefs).countRelease cleanup).trace
    (if cleanup then .cleanup else .release) pc (index + 1)

/-- `refcount_inc(&cbpf_object.refs)` and the three writes that publish cell `index`. -/
def bind (g : Running) (index : Nat) (object view : Capability) : Running where
  object := { g.object with refs := g.object.refs + 1 }
  s := { g.s with
    cells := g.s.cells.set index object
    views := g.s.views.set index view
    acquired := u32Inc g.s.acquired }

/-- Operation 1. -/
def gateAcquire (g : Running) (env : Env) (argument : Capability) (pc : Nat) :
    Running × Capability :=
  if argument.tag || argument.address > 1 then (g.fail pc, cbpfFailure)
  else if argument.address ≠ 0 then (g.trace .null pc 0, .null)
  else if g.s.acquired = numCells then (g.fail pc, cbpfFailure)
  else
    let index := g.s.acquired
    -- every representability check comes before the provider effect
    let view := g.s.viewFor env index
    let object := objectCap env
    if !view.tag || !object.tag then (g.fail pc, cbpfFailure)
    else
      (((g.bind index object view).print
        (.bind pc (index + 1) (g.s.cellAddr index) env.objectAddr view)).trace
          .acquire pc (index + 1), view)

/-- The search loop over the published views: the first equal one, or `s->acquired`. -/
def findView (g : Running) (view : Capability) : Nat :=
  ((List.range g.s.acquired).find? fun i => view == g.s.viewAt i).getD g.s.acquired

/-- `++s->reads`. -/
def countRead (g : Running) : Running := { g with s := { g.s with reads := u32Inc g.s.reads } }

/-- Operations 2 (read) and 3 (release). The value is read through the cell's capability, which is
the one for `cbpf_object`. -/
def gateUse (g : Running) (argument : Capability) (operation pc : Nat) : Running × Capability :=
  let index := g.findView argument
  if index = g.s.acquired || !(g.s.cellAt index).tag then (g.fail pc, cbpfFailure)
  else if operation = 2 then
    (g.countRead.trace .read pc (index + 1), .ofInt (g.object.value % 2 ^ 64).toNat)
  else (g.consume index pc false, .null)

/-- `cbpf_gate_impl` with a non-NULL `cbpf_active`. -/
def gateImpl (g : Running) (env : Env) (argument : Capability) (operation pc : Nat) :
    Running × Capability :=
  if !g.s.entered || g.s.failed then (g.fail pc, cbpfFailure)
  else if operation = 1 then g.gateAcquire env argument pc
  else if operation ≠ 2 ∧ operation ≠ 3 then (g.fail pc, cbpfFailure)
  else g.gateUse argument operation pc

/-- One pass of the teardown loop of `cbpf_test_invoke`. -/
def teardownCell (g : Running) (index : Nat) : Running :=
  if (g.s.cellAt index).tag then g.consume index u64Max true else g

/-- `if (!state.entered || state.acquired != state.released) state.failed = true`. -/
def judge (g : Running) : Running :=
  if !g.s.entered || g.s.acquired ≠ g.s.released then { g with s := { g.s with failed := true } }
  else g

/-- The loop that zeroes cells and views. -/
def scrub (g : Running) : Running :=
  { g with s := { g.s with
      cells := List.replicate numCells .null
      views := List.replicate numCells .null } }

/-- `cbpf_test_invoke` after `bpf_prog_run` returned `result`: the object, the invocation as it
goes out of scope, and the returned value. -/
def teardown (g : Running) (result : Nat) : Running × Nat :=
  let g := ((List.range g.s.acquired).foldl teardownCell g).judge
  let g := g.trace (if g.s.failed then .failed else .exit) u64Max 0
  let g := g.print (.result result g.s.entered g.s.failed (g.s.acquired == g.s.released))
  (g.scrub, if g.s.failed then 0 else result)

end Running

/-- `cbpf_gate_impl`: with `cbpf_active` NULL there is nothing to change. -/
def cbpfGateImpl (env : Env) (object : ProviderObject) (active : Option Invocation)
    (argument : Capability) (operation pc : Nat) :
    (ProviderObject × Option Invocation) × Capability :=
  match active with
  | none => ((object, none), cbpfFailure)
  | some s =>
    let (g, result) := Running.gateImpl ⟨object, s⟩ env argument operation pc
    ((g.object, some g.s), result)

/-- `cbpf_test_invoke`, with `bpf_prog_run` as a function on what it can change. -/
def cbpfTestInvoke (object : ProviderObject) (active : Option Invocation) (cbpfGate : Bool)
    (prog cellsAddr : Nat) (bpfProgRun : Running → Running × Nat) :
    (ProviderObject × Option Invocation) × Nat :=
  if active.isSome || !cbpfGate then ((object, active), 0)
  else
    let (g, result) := bpfProgRun ⟨object, .zeroed prog cellsAddr⟩
    let (g, result) := g.teardown result
    ((g.object, none), result)

end Cbpf.Kernel
