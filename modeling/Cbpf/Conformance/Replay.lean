import Cbpf.Conformance.Bridge
import Cbpf.Model.Oracle

/-!
# Replaying model edges (`theory/check_conformance.py`)

A path of the model becomes a program, the events it should cause and, at its end, the words the
adapter should return. Exceptions are `none`; the constants come from the adapter's own table.
-/

namespace Cbpf.Conformance

open Model

/-- `INFO_NAMES`. -/
inductive InfoName where
  | registers | spills | acquisitions | maxInsns | maxEvents
  | acquire | copy | spill | reload | read | release | brNull | finish
  | returned | trapped | invalid | none | null | stale | exhaustion
  | step | trap | cleanup | implementation
  deriving DecidableEq, Repr

def infoNames : List InfoName :=
  [.registers, .spills, .acquisitions, .maxInsns, .maxEvents,
    .acquire, .copy, .spill, .reload, .read, .release, .brNull, .finish,
    .returned, .trapped, .invalid, .none, .null, .stale, .exhaustion,
    .step, .trap, .cleanup, .implementation]

/-- `Host.info`: `dict(zip(INFO_NAMES, info))`. -/
def hostInfo (gate : Bool) (name : InfoName) : Int :=
  ((infoNames.zip (conformanceInfo gate)).lookup name).getD 0

/-- An instruction `(op, dst, src, imm)` of the generated program. -/
structure InsnRow where
  op : Int
  dst : Int
  src : Int
  imm : Int
  deriving DecidableEq, Repr

/-- An expected event `(kind, op, pc, token, refs)`. -/
structure EventRow where
  kind : Int
  op : Int
  pc : Int
  token : Int
  refs : Int
  deriving DecidableEq, Repr

/-- `Replay`. -/
structure Replay where
  state : State
  code : List InsnRow
  events : List EventRow
  reads : Int
  scalar : Int
  deriving DecidableEq, Repr

/-- `Replay(state)`. -/
def Replay.start (state : State) : Replay := ⟨state, [], [], 0, 0⟩

/-- The name of an edge's opcode: `"acquire" if kind == "acquire_null" else kind`. -/
def opName : Kind → InfoName
  | .acquire | .acquireNull => .acquire
  | .copy => .copy
  | .reload => .reload
  | .spill => .spill
  | .read => .read
  | .release => .release
  | .finish => .finish

/-- `dst, src = (args + (0, 0))[:2]`. -/
def operands (args : List Nat) : Nat × Nat := (args.getD 0 0, args.getD 1 0)

/-- `imm`. -/
def edgeImm (kind : Kind) (scalar : Int) : Int :=
  match kind with
  | .acquire => 1
  | .finish => scalar
  | _ => 0

/-- `token`. -/
def edgeToken (before : State) (e : Edge) : Int :=
  let dst := (operands e.args).1
  match e.kind with
  | .acquire => if e.target.terminal = .active then e.target.live.length else 0
  | .copy | .reload => e.target.reg dst
  | .spill => e.target.slot dst
  | .read | .release => before.reg dst
  | .acquireNull | .finish => 0

/-- The row of the generated program for an edge. -/
def edgeRow (ids : InfoName → Int) (e : Edge) (scalar : Int) : InsnRow :=
  ⟨ids (opName e.kind), (operands e.args).1, (operands e.args).2, edgeImm e.kind scalar⟩

/-- `trapped`. -/
def isTrapped (after : State) : Bool := after.terminal ≠ .active ∧ after.terminal ≠ .ret

/-- One pass of `for i, live in enumerate(before.live)`. -/
def cleanupRow (ids : InfoName → Int) (before : State) (pc : Nat)
    (acc : Int × List EventRow) (i : Nat) : Int × List EventRow :=
  if before.liveAt i then
    (acc.1 - 1, acc.2 ++ [⟨ids .cleanup, ids .release, pc, i + 1, acc.1 - 1⟩])
  else acc

/-- The events an edge appends. -/
def edgeEvents (ids : InfoName → Int) (before : State) (e : Edge) (pc : Nat) : List EventRow :=
  let after := e.target
  let refs := if after.terminal ≠ .active then before.refcount else after.refcount
  let kind := if isTrapped after then ids .trap else ids .step
  let first : EventRow := ⟨kind, ids (opName e.kind), pc, edgeToken before e, refs⟩
  if after.terminal ≠ .active then
    ((List.range before.live.length).foldl (cleanupRow ids before pc) (refs, [first])).2
  else [first]

/-- What `append_edge` returns. -/
def Replay.append (ids : InfoName → Int) (scalar : Int) (run : Replay) (e : Edge) : Replay where
  state := e.target
  code := run.code ++ [edgeRow ids e scalar]
  events := run.events ++ edgeEvents ids run.state e run.code.length
  reads := run.reads + if e.kind = .read ∧ e.result = .fortyTwo then 1 else 0
  scalar := if e.kind = .finish then scalar else 0

/-- `append_edge`; it raises on an edge that the oracle rejects. -/
def appendEdge (ids : InfoName → Int) (scalar : Int) (run : Replay) (e : Edge) : Option Replay :=
  let capacity := (ids .acquisitions).toNat
  if (stateError e.target capacity).isSome ∨ (edgeError run.state e capacity).isSome then none
  else some (run.append ids scalar e)

/-- The replay of a path. -/
def replay (ids : InfoName → Int) (scalar : Int) (run : Replay) (path : List Edge) :
    Option Replay :=
  path.foldlM (appendEdge ids scalar) run

/-- The replay with `finish` appended if it is still active. -/
def complete (ids : InfoName → Int) (scalar : Int) (run : Replay) : Option Replay :=
  if run.state.terminal ≠ .active then some run
  else appendEdge ids scalar run (finishEdge run.state)

/-- The program to observe: a final return also follows a trap, but must never execute. -/
def observedCode (ids : InfoName → Int) (completed : Replay) : List InsnRow :=
  completed.code ++
    if completed.state.terminal ≠ .ret then [⟨ids .finish, 0, 0, 99⟩] else []

/-- `ids["none" if state.terminal == "return" else state.terminal.split("_")[0]]`. -/
def trapName : Terminal → Option InfoName
  | .ret => some .none
  | .exhaustion => some .exhaustion
  | .nullRead | .nullRelease => some .null
  | .staleRead | .staleRelease => some .stale
  | .active | .other _ => Option.none

/-- The words of an expected event. -/
def EventRow.words (e : EventRow) : List Int := [e.kind, e.op, e.pc, e.token, e.refs]

/-- `expected`. -/
def expected (ids : InfoName → Int) (run : Replay) : Option (List Int) := do
  let state := run.state
  let status := if state.terminal = .ret then ids .returned else ids .trapped
  let trap ← (trapName state.terminal).map ids
  -- Cleanup records carry the same pc as the return or trap that caused them.
  let last ← run.events.getLast?
  let padding : List Int := List.replicate ((ids .acquisitions).toNat - state.live.length) 0
  return ([status, trap, last.pc, run.scalar, state.live.length, run.reads, state.explicit.sum,
      state.cleanup.sum, if run.reads ≠ 0 then 42 else 0, state.refcount] : List Int) ++
    state.explicit ++ padding ++ state.cleanup ++ padding ++
    [(run.events.length : Int)] ++ run.events.flatMap EventRow.words

/-- `self.input` after the generated program has been copied into it. -/
def inputWords (code : List InsnRow) (i : Nat) : Int :=
  let row := code.getD (i / 4) ⟨0, 0, 0, 0⟩
  match i % 4 with
  | 0 => row.op
  | 1 => row.dst
  | 2 => row.src
  | _ => row.imm

/-- `Host.observe`. -/
def observe (interpret : InsnPtr → Nat → Option Result) (ids : InfoName → Int)
    (code : List InsnRow) : Option (List Int) := do
  let capacity := 11 + 2 * (ids .acquisitions).toNat + 5 * (ids .maxEvents).toNat
  if (code.length : Int) > ids .maxInsns then none
  else
    let output ← conformanceRun interpret (inputWords code) code.length capacity
    if output.length = 0 ∨ output.length > capacity then none else some output

end Cbpf.Conformance
