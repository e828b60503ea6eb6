import Cbpf.Gate

/-!
# The conformance adapter (`tools/conformance_bridge.c`)

Flat arrays of `int64_t` on both sides: four words for an instruction, and a result as its scalars,
the per-cell counters and five words for each event. `interpret` is `cbpf_run` or `cbpf_gate_run`,
whichever the adapter is built over.
-/

namespace Cbpf.Conformance

/-- The value of an `enum cbpf_opcode`. -/
def opcodeWord : Opcode → Nat
  | .acquire => 0
  | .copy => 1
  | .spill => 2
  | .reload => 3
  | .read => 4
  | .release => 5
  | .brNull => 6
  | .ret => 7
  | .other k => 8 + k

/-- `(enum cbpf_opcode)x`. -/
def opcodeOfWord : Nat → Opcode
  | 0 => .acquire
  | 1 => .copy
  | 2 => .spill
  | 3 => .reload
  | 4 => .read
  | 5 => .release
  | 6 => .brNull
  | 7 => .ret
  | k + 8 => .other k

/-- `CBPF_OPCODE_COUNT`. -/
def opcodeCount : Nat := 8

/-- `UINT_MAX`. -/
def uintMax : Nat := 2 ^ 32 - 1

def statusWord : Status → Nat
  | .returned => 0
  | .trapped => 1
  | .invalid => 2

def trapWord : Trap → Nat
  | .noTrap => 0
  | .null => 1
  | .stale => 2
  | .exhausted => 3

def kindWord : EventKind → Nat
  | .step => 0
  | .trapEvent => 1
  | .cleanup => 2

@[simp] theorem opcodeOfWord_opcodeWord (op : Opcode) : opcodeOfWord (opcodeWord op) = op := by
  cases op with
  | other k =>
    rw [opcodeWord, Nat.add_comm]
    rfl
  | _ => rfl

/-- The table `info` of `cbpf_conformance_info`; `gate` is `CBPF_CONFORMANCE_GATE`. -/
def conformanceInfo (gate : Bool) : List Int :=
  [cbpfRegs, cbpfSpills, cbpfCells, cbpfMaxInsns, cbpfMaxEvents,
    opcodeWord .acquire, opcodeWord .copy, opcodeWord .spill, opcodeWord .reload, opcodeWord .read,
    opcodeWord .release, opcodeWord .brNull, opcodeWord .ret,
    statusWord .returned, statusWord .trapped, statusWord .invalid,
    trapWord .noTrap, trapWord .null, trapWord .stale, trapWord .exhausted,
    kindWord .step, kindWord .trapEvent, kindWord .cleanup, gate.toNat]

/-- One instruction from its four words; `none` is `return 0`. -/
def decodeInsn (x : Nat → Int) : Option Insn :=
  if x 0 < 0 ∨ x 0 ≥ opcodeCount ∨ x 1 < 0 ∨ x 1 > uintMax ∨ x 2 < 0 ∨ x 2 > uintMax then none
  else some ⟨opcodeOfWord (x 0).toNat, (x 1).toNat, (x 2).toNat, x 3⟩

/-- The `for` loop over `count` instructions. -/
def decodeProgram (input : Nat → Int) (count : Nat) : Option (List Insn) :=
  (List.range count).mapM fun i => decodeInsn fun j => input (4 * i + j)

/-- The five words of an event. -/
def eventWords (e : Event) : List Int :=
  [kindWord e.kind, opcodeWord e.op, e.pc, e.token, e.objectRefs]

/-- The words of a result. -/
def resultWords (r : Result) : List Int :=
  ([statusWord r.status, trapWord r.trap, r.pc, r.returned, r.acquired, r.reads,
    r.explicitReleases, r.cleanupReleases, r.lastRead, r.objectRefs] : List Int) ++
  (List.range cbpfCells).map (fun i => (r.explicitAt i : Int)) ++
  (List.range cbpfCells).map (fun i => (r.cleanupAt i : Int)) ++
  [(r.eventCount : Int)] ++
  (List.range r.eventCount).flatMap fun i => eventWords (r.events.getD i .zero)

/-- The words `output` must have room for. -/
def outputWords : Nat := 11 + 2 * cbpfCells + 5 * cbpfMaxEvents

/-- `cbpf_conformance_run`: the words written, of which it returns the number. -/
def conformanceRun (interpret : InsnPtr → Nat → Option Result) (input : Nat → Int)
    (count capacity : Nat) : Option (List Int) :=
  if count > cbpfMaxInsns ∨ capacity < outputWords then some []
  else
    match decodeProgram input count with
    | none => some []
    | some program =>
      (interpret (InsnPtr.ofList program) count).map fun r =>
        if r.eventCount > cbpfMaxEvents then [] else resultWords r

/-- The interpreter that `CBPF_CONFORMANCE_GATE` selects, in a host build. -/
def builtOver (pointerBytes : Nat) (gate : Bool) (p : InsnPtr) (n : Nat) : Option Result :=
  if gate then (cbpfGateRun (hostPlatform pointerBytes) p n false).map Prod.fst else cbpfRun p n

end Cbpf.Conformance
