import Cbpf.Jit.Codegen

/-!
# The native machine

An abstract Morello machine in restricted mode: capability registers, the granule at `[csp]` and
the gate behind the sealed gateway. Each word does what its macro or template names; a branch
through the gateway runs `cbpf_gateway` (`src/linux/ownership/cbpf_runtime.c`, lines 415-480) to
its return. Words that only the executive executes are not instructions of this machine.
-/

namespace Cbpf.Jit

open Cheri Kernel

/-- The processor between two words: `pc` is a word index, `c` the registers `c0` to `c30`. -/
structure Machine where
  pc : Nat
  c : Nat → Capability
  slot : Capability
  g : Running

/-- What `cbpf_enter` has put around the image: the sealed gateway and the sealed executive exit,
and the sealed return capabilities that linking branches make. -/
structure Envelope where
  image : Nat → Word
  executiveExit : Nat
  gate : Capability
  exit : Capability
  link : Nat → Capability

/-- What one word leads to. -/
inductive NativeOutcome where
  | next (m : Machine)
  /-- control has entered the executive exit -/
  | executive (m : Machine)
  | fault

namespace Machine

/-- The integer in a register. -/
def x (m : Machine) (r : Nat) : Nat := (m.c r).address

/-- Write a capability register and move on. -/
def setC (m : Machine) (r : Nat) (v : Capability) : Machine :=
  { m with pc := m.pc + 1, c := Function.update m.c r v }

/-- Write the integer half of a register, which clears the rest, and move on. -/
def setX (m : Machine) (r v : Nat) : Machine := m.setC r (.ofInt v)

/-- A branch by `offset` words. -/
def branch (m : Machine) (offset : Int) : NativeOutcome :=
  if m.pc + offset < 0 then .fault else .next { m with pc := (m.pc + offset).toNat }

@[simp] theorem x_setX (m : Machine) (r v : Nat) : (m.setX r v).x r = v := by
  simp [x, setX, setC, ofInt_address]

end Machine

/-- `movk`: replace the 16 bits at `shift`. -/
def insert16 (v imm shift : Nat) : Nat := v - v / 2 ^ shift % 2 ^ 16 * 2 ^ shift + imm * 2 ^ shift

/-- The registers after `cbpf_gateway`: the result in x0, the return capability in c14, the saved
registers restored, c30 from c13, and everything else cleared. -/
def gatewayReturn (c : Nat → Capability) (result c14 : Capability) (r : Nat) : Capability :=
  if r = 0 then result
  else if r = 14 then c14
  else if r = 15 then .ofInt (c 15).address
  else if r = 17 ∨ r = 19 ∨ r = 20 ∨ r = 21 ∨ r = 22 then c r
  else if r = 30 then c 13
  else .null

/-- `cbpf_gateway`, entered from the word at `m.pc`. -/
def gateway (env : Env) (e : Envelope) (m : Machine) : NativeOutcome :=
  let (g, result) := m.g.call env ⟨m.c 0, m.x 4, m.x 5⟩
  if isFailure result then
    -- Failure skips the restricted continuation and enters its fixed epilogue.
    if m.c 13 = e.exit then
      .executive
        { m with pc := e.executiveExit, c := gatewayReturn m.c (.ofInt 0) (m.c 13), g := g }
    else .fault
  else
    .next { m with pc := m.pc + 1, c := gatewayReturn m.c result (e.link (m.pc + 1)), g := g }

/-- One word in restricted mode. -/
def nativeStep (env : Env) (e : Envelope) (m : Machine) : NativeOutcome :=
  match e.image m.pc with
  | .movz dst imm shift => .next (m.setX dst (imm * 2 ^ shift))
  | .movk dst imm shift => .next (m.setX dst (insert16 (m.x dst) imm shift))
  | .capMov dst src => .next (m.setC dst (m.c src))
  | .capStr src base =>
    if base = a64Sp then .next { m with pc := m.pc + 1, slot := m.c src } else .fault
  | .capLdr dst base => if base = a64Sp then .next (m.setC dst m.slot) else .fault
  | .cbz src offset => if m.x src = 0 then m.branch offset else .next { m with pc := m.pc + 1 }
  | .b offset => m.branch offset
  | .capBlrs target => if m.c target = e.gate then gateway env e m else .fault
  | .capRetClr =>
    if m.c a64Lr = e.exit then .executive { m with pc := e.executiveExit } else .fault
  | _ => .fault

/-- `n` words, none of which leaves restricted mode. -/
def Steps (env : Env) (e : Envelope) : Nat → Machine → Machine → Prop
  | 0, m, m' => m = m'
  | n + 1, m, m' => ∃ m₁, nativeStep env e m = .next m₁ ∧ Steps env e n m₁ m'

variable {env : Env} {e : Envelope} {m m₁ m' : Machine}

theorem Steps.one (h : nativeStep env e m = .next m') : Steps env e 1 m m' := ⟨m', h, rfl⟩

theorem Steps.cons {n : Nat} (h : nativeStep env e m = .next m₁) (hs : Steps env e n m₁ m') :
    Steps env e (n + 1) m m' := ⟨m₁, h, hs⟩

/-- Runs of words compose. -/
theorem Steps.trans {n n' : Nat} (h : Steps env e n m m₁) (h' : Steps env e n' m₁ m') :
    Steps env e (n + n') m m' := by
  induction n generalizing m with
  | zero =>
    obtain rfl : m = m₁ := h
    rwa [Nat.zero_add]
  | succ n ih =>
    obtain ⟨m₂, hstep, hrest⟩ := h
    rw [Nat.add_right_comm]
    exact .cons hstep (ih hrest)

/-! ### Immediates -/

/-- The four pieces of a 64-bit value put it together again. -/
theorem insert16_pieces {v : Nat} (h : v < 2 ^ 64) :
    insert16 (insert16 (insert16 (v % 2 ^ 16 * 2 ^ 0) (v / 2 ^ 16 % 2 ^ 16) 16)
      (v / 2 ^ 32 % 2 ^ 16) 32) (v / 2 ^ 48 % 2 ^ 16) 48 = v := by
  unfold insert16
  omega

end Cbpf.Jit
