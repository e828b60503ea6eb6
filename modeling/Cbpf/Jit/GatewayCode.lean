import Cbpf.Jit.Epilogue

/-!
# The gateway, instruction by instruction (`src/linux/ownership/cbpf_runtime.c`, lines 415-480)

`cbpf_gateway` saves the registers of restricted mode below the stack base in x15, calls
`cbpf_gate_impl`, restores them and returns through c14. For every behaviour of the call that keeps
to the calling convention, what it leaves in the registers is `gatewayReturn`.
-/

namespace Cbpf.Jit

open Cheri Kernel

/-- The instructions of `cbpf_gateway` that touch registers, the stack pointer or memory. -/
inductive GatewayInsn where
  /-- `mov xd, sp` and `mov sp, xs` -/
  | movFromSp (dst : Nat)
  | movToSp (src : Nat)
  | subSp (imm : Nat)
  | addSp (imm : Nat)
  | strX (src imm : Nat)
  | ldrX (dst imm : Nat)
  | strC (src imm : Nat)
  | ldrC (dst imm : Nat)
  | movX (dst src : Nat)
  /-- `mov xd, xzr` -/
  | zero (dst : Nat)
  | movC (dst src : Nat)
  deriving DecidableEq, Repr

/-- From the entry to `bl cbpf_gate_impl`. -/
def gatewaySave : List GatewayInsn :=
  [.movFromSp 12, .movToSp 15, .subSp 128, .strX 15 0, .strX 12 8, .strC 13 16, .strC 17 32,
    .strC 19 48, .strC 20 64, .strC 21 80, .strC 22 96, .strC 30 112, .movX 1 4, .movX 2 5]

/-- From the return of the call to `cmn x0, #1`. -/
def gatewayRestore : List GatewayInsn :=
  [.ldrX 15 0, .ldrX 12 8, .ldrC 13 16, .ldrC 17 32, .ldrC 19 48, .ldrC 20 64, .ldrC 21 80,
    .ldrC 22 96, .ldrC 14 112, .addSp 128, .movToSp 12]

/-- What `b.ne 1f` skips: failure skips the restricted continuation and enters its fixed epilogue. -/
def gatewayFail : List GatewayInsn := [.movC 14 13, .zero 0, .zero 7]

/-- The registers that are cleared after the label. -/
def gatewayCleared : List Nat := List.range' 1 13 ++ [16, 18] ++ List.range' 23 7

/-- From the label `1` to `retr c14`. -/
def gatewayFinish : List GatewayInsn := .movC 30 13 :: gatewayCleared.map .zero

namespace Executive

variable (p : Morello)

/-- One instruction of the gateway. -/
def gatewayStep (m : Executive) : GatewayInsn → Executive
  | .movFromSp dst => m.setX dst m.sp.toNat
  | .movToSp src => { m with pc := m.pc + 1, sp := BitVec.ofNat 64 (m.x src) }
  | .subSp imm => { m with pc := m.pc + 1, sp := m.sp - BitVec.ofNat 64 imm }
  | .addSp imm => { m with pc := m.pc + 1, sp := m.sp + BitVec.ofNat 64 imm }
  | .strX src imm => m.store64 p imm (m.x src)
  | .ldrX dst imm =>
    let g := m.mem (m.sp + BitVec.ofNat 64 (imm / 16 * 16))
    m.setX dst (if imm % 16 = 0 then g.lo else g.hi p)
  | .strC src imm => m.store (m.sp + BitVec.ofNat 64 imm) (.cap (m.c src))
  | .ldrC dst imm => m.setC dst ((m.mem (m.sp + BitVec.ofNat 64 imm)).load p)
  | .movX dst src => m.setX dst (m.x src)
  | .zero dst => m.setX dst 0
  | .movC dst src => m.setC dst (m.c src)

def gatewaySteps (m : Executive) (code : List GatewayInsn) : Executive :=
  code.foldl (gatewayStep p) m

/-- The state in which `cbpf_gate_impl` is called; its arguments are c0, x1 and x2. -/
def gatewayCall (m : Executive) : Executive := gatewaySteps p m gatewaySave

/-- `cmn x0, #1` sets the zero flag. -/
def gateFailed (m : Executive) : Bool := isFailure (m.c 0)

/-- The state at `retr c14`, if the call returned in the state `m`. -/
def gatewayExit (m : Executive) : Executive :=
  let m := gatewaySteps p m gatewayRestore
  let m := if m.gateFailed then gatewaySteps p m gatewayFail else m
  gatewaySteps p m gatewayFinish

/-- What a C function keeps: the stack pointer, and the memory of its callers above it. -/
structure Preserves (m m' : Executive) : Prop where
  sp : m'.sp = m.sp
  mem : ∀ k < 16, m'.frame k = m.frame k

/-- A function that writes registers only. -/
theorem preserves_registers (m : Executive) (c : Nat → Capability) : Preserves m { m with c := c } :=
  ⟨rfl, fun _ _ => rfl⟩

variable {p} (m : Executive)

/-! ### The stretches of the gateway -/

/-- What is below the stack base when `cbpf_gate_impl` is called. -/
structure GatewayFrame (m u : Executive) : Prop where
  sp : u.sp = BitVec.ofNat 64 (m.x 15) - 128
  pointers : u.frame 0 = .ints (m.x 15) m.sp.toNat
  c13 : u.frame 1 = .cap (m.c 13)
  c17 : u.frame 2 = .cap (m.c 17)
  c19 : u.frame 3 = .cap (m.c 19)
  c20 : u.frame 4 = .cap (m.c 20)
  c21 : u.frame 5 = .cap (m.c 21)
  c22 : u.frame 6 = .cap (m.c 22)
  c30 : u.frame 7 = .cap (m.c 30)

theorem gatewayFrame_call : GatewayFrame m (gatewayCall p m) := by
  constructor <;>
    simp [gatewayCall, gatewaySteps, gatewaySave, gatewayStep, store64, store, setX, setC, x, a64Sp,
      frame, Granule.lo]

/-- Only the eight granules below the stack base are written. -/
theorem mem_gatewayCall {a : BitVec 64}
    (ha : ∀ j < 8, a ≠ BitVec.ofNat 64 (m.x 15) - 128 + BitVec.ofNat 64 (16 * j)) :
    (gatewayCall p m).mem a = m.mem a := by
  have h₀ := ha 0 (by decide)
  have h₁ := ha 1 (by decide)
  have h₂ := ha 2 (by decide)
  have h₃ := ha 3 (by decide)
  have h₄ := ha 4 (by decide)
  have h₅ := ha 5 (by decide)
  have h₆ := ha 6 (by decide)
  have h₇ := ha 7 (by decide)
  simp only [x, a64Sp, Nat.reduceEqDiff, if_false, Nat.reduceMul, BitVec.add_zero,
    BitVec.ofNat_eq_ofNat] at h₀ h₁ h₂ h₃ h₄ h₅ h₆ h₇
  simp [gatewayCall, gatewaySteps, gatewaySave, gatewayStep, store64, store, setX, setC, x, a64Sp,
    Function.update_of_ne, h₀, h₁, h₂, h₃, h₄, h₅, h₆, h₇]

/-- Nothing at or above the stack base is written. -/
theorem frame_gatewayCall {k : Nat} (hk : k < 8) : (gatewayCall p m).frame (8 + k) =
    m.mem (BitVec.ofNat 64 (m.x 15) + BitVec.ofNat 64 (16 * k)) := by
  have haddr : (gatewayCall p m).sp + BitVec.ofNat 64 (16 * (8 + k)) =
      BitVec.ofNat 64 (m.x 15) + BitVec.ofNat 64 (16 * k) := by
    rw [(gatewayFrame_call m).sp]
    bv_omega
  rw [frame, haddr, mem_gatewayCall]
  intro j hj
  bv_omega

/-- What the loads put back, whatever the call has left in the registers. -/
theorem gatewayRestore_regs {r : Nat} (h12 : r ≠ 12) :
    (gatewaySteps p m gatewayRestore).c r =
      if r = 14 then (m.frame 7).load p
      else if r = 22 then (m.frame 6).load p
      else if r = 21 then (m.frame 5).load p
      else if r = 20 then (m.frame 4).load p
      else if r = 19 then (m.frame 3).load p
      else if r = 17 then (m.frame 2).load p
      else if r = 13 then (m.frame 1).load p
      else if r = 15 then .ofInt (m.frame 0).lo
      else m.c r := by
  simp [gatewaySteps, gatewayRestore, gatewayStep, setX, setC, frame, Function.update_apply, h12]

theorem gatewayRestore_sp : (gatewaySteps p m gatewayRestore).sp =
    BitVec.ofNat 64 ((m.frame 0).hi p) := by
  simp [gatewaySteps, gatewayRestore, gatewayStep, setX, setC, x, a64Sp, frame]

theorem gatewaySteps_zero (regs : List Nat) (r : Nat) :
    (gatewaySteps p m (regs.map .zero)).c r = if r ∈ regs then .ofInt 0 else m.c r := by
  induction regs generalizing m with
  | nil => rfl
  | cons reg regs ih =>
    rw [List.map_cons, gatewaySteps, List.foldl_cons]
    refine (ih (m.setX reg 0)).trans ?_
    by_cases hr : r ∈ regs
    · simp [hr]
    · by_cases heq : r = reg
      · subst heq
        simp [hr, setX, setC]
      · simp [hr, heq, setX, setC]

/-! ### The whole gateway -/

/-- What the gateway leaves when the call has returned in `u`. -/
structure GatewayReturned (m u m' : Executive) : Prop where
  /-- success continues after the call template, failure at the exit that c13 holds -/
  c : ∀ r ≤ 30, m'.c r = if u.gateFailed then gatewayReturn m.c (.ofInt 0) (m.c 13) r
    else gatewayReturn m.c (u.c 0) (m.c 30) r
  sp : m'.sp = m.sp
  /-- the memory at and above the stack base -/
  mem : ∀ k < 8, m'.mem (BitVec.ofNat 64 (m.x 15) + BitVec.ofNat 64 (16 * k)) =
    m.mem (BitVec.ofNat 64 (m.x 15) + BitVec.ofNat 64 (16 * k))

theorem mem_gatewaySteps_zero (regs : List Nat) :
    (gatewaySteps p m (regs.map .zero)).mem = m.mem ∧
      (gatewaySteps p m (regs.map .zero)).sp = m.sp := by
  induction regs generalizing m with
  | nil => exact ⟨rfl, rfl⟩
  | cons reg regs ih => exact ih (m.setX reg 0)

/-- What follows the label: c30 from c13, and everything but the result and the saved registers is
cleared. -/
theorem gatewayFinish_regs (r : Nat) : (gatewaySteps p m gatewayFinish).c r =
    if r ∈ gatewayCleared then .ofInt 0 else if r = 30 then m.c 13 else m.c r := by
  rw [gatewayFinish, gatewaySteps, List.foldl_cons]
  refine (gatewaySteps_zero (m.setC 30 (m.c 13)) gatewayCleared r).trans ?_
  simp [setC, Function.update_apply]

/-- The instructions that only a failure executes. -/
theorem gatewayFail_regs (r : Nat) : (gatewaySteps p m gatewayFail).c r =
    if r = 7 ∨ r = 0 then .ofInt 0 else if r = 14 then m.c 13 else m.c r := by
  simp only [gatewaySteps, gatewayFail, List.foldl_cons, List.foldl_nil, gatewayStep, setX, setC,
    Function.update_apply]
  by_cases h7 : r = 7
  · simp [h7]
  · simp [h7]

/-- The way out of the gateway writes no memory, and the stack pointer is the restored one. -/
theorem gatewayExit_memory (u : Executive) : (gatewayExit p u).mem = u.mem ∧
    (gatewayExit p u).sp = (gatewaySteps p u gatewayRestore).sp := by
  have hfinish : ∀ v : Executive, (gatewaySteps p v gatewayFinish).mem = v.mem ∧
      (gatewaySteps p v gatewayFinish).sp = v.sp := by
    intro v
    rw [gatewayFinish, gatewaySteps, List.foldl_cons]
    exact mem_gatewaySteps_zero (v.setC 30 (v.c 13)) gatewayCleared
  have hfail : ∀ v : Executive, (gatewaySteps p v gatewayFail).mem = v.mem ∧
      (gatewaySteps p v gatewayFail).sp = v.sp := fun _ => ⟨rfl, rfl⟩
  have hrestore : (gatewaySteps p u gatewayRestore).mem = u.mem := rfl
  rw [gatewayExit, (hfinish _).1, (hfinish _).2, ← hrestore]
  split
  · exact hfail _
  · exact ⟨rfl, rfl⟩

/-- What `gatewayReturn` clears is what the gateway clears. -/
theorem gatewayReturn_cleared {r : Nat} (hr : r ∈ gatewayCleared) (c : Nat → Capability)
    (result c14 : Capability) : gatewayReturn c result c14 r = .null := by
  have hne : ∀ r ∈ gatewayCleared, r ≠ 0 ∧ r ≠ 14 ∧ r ≠ 15 ∧
      ¬ (r = 17 ∨ r = 19 ∨ r = 20 ∨ r = 21 ∨ r = 22) ∧ r ≠ 30 := by decide
  obtain ⟨h0, h14, h15, hsaved, h30⟩ := hne r hr
  rw [gatewayReturn, if_neg h0, if_neg h14, if_neg h15, if_neg hsaved, if_neg h30]

theorem kept_of_not_cleared {r : Nat} (hle : r ≤ 30) (hr : r ∉ gatewayCleared) :
    r = 0 ∨ r = 14 ∨ r = 15 ∨ r = 17 ∨ r = 19 ∨ r = 20 ∨ r = 21 ∨ r = 22 ∨ r = 30 := by
  have hall : ∀ r ≤ 30, r ∉ gatewayCleared →
      r = 0 ∨ r = 14 ∨ r = 15 ∨ r = 17 ∨ r = 19 ∨ r = 20 ∨ r = 21 ∨ r = 22 ∨ r = 30 := by decide
  exact hall r hle hr

/-- Whatever the call has done, as long as it kept to the calling convention. -/
theorem gatewayReturned {u : Executive} (h : Preserves (gatewayCall p m) u) :
    GatewayReturned m u (gatewayExit p u) := by
  have hf := gatewayFrame_call (p := p) m
  have hrestored : ∀ r, r ≠ 12 → (gatewaySteps p u gatewayRestore).c r =
      if r = 14 then m.c 30
      else if r = 22 then m.c 22
      else if r = 21 then m.c 21
      else if r = 20 then m.c 20
      else if r = 19 then m.c 19
      else if r = 17 then m.c 17
      else if r = 13 then m.c 13
      else if r = 15 then .ofInt (m.x 15)
      else u.c r := by
    intro r h12
    rw [gatewayRestore_regs u h12, h.mem 7 (by decide), h.mem 6 (by decide), h.mem 5 (by decide),
      h.mem 4 (by decide), h.mem 3 (by decide), h.mem 2 (by decide), h.mem 1 (by decide),
      h.mem 0 (by decide), hf.c30, hf.c22, hf.c21, hf.c20, hf.c19, hf.c17, hf.c13, hf.pointers]
    rfl
  have hflag : (gatewaySteps p u gatewayRestore).gateFailed = u.gateFailed := by
    rw [gateFailed, hrestored 0 (by decide)]
    rfl
  refine ⟨fun r hle => ?_, ?_, fun k hk => ?_⟩
  · rw [gatewayExit, hflag, gatewayFinish_regs]
    by_cases hr : r ∈ gatewayCleared
    · rw [if_pos hr]
      split <;> exact (gatewayReturn_cleared hr _ _ _).symm
    rw [if_neg hr]
    cases hfailed : u.gateFailed with
    | true =>
      simp only [if_true, gatewayFail_regs]
      rcases kept_of_not_cleared hle hr with rfl | rfl | rfl | rfl | rfl | rfl | rfl | rfl | rfl <;>
        simp [hrestored, gatewayReturn, x, a64Sp]
    | false =>
      simp only [Bool.false_eq_true, if_false]
      rcases kept_of_not_cleared hle hr with rfl | rfl | rfl | rfl | rfl | rfl | rfl | rfl | rfl <;>
        simp [hrestored, gatewayReturn, x, a64Sp]
  · rw [(gatewayExit_memory u).2, gatewayRestore_sp, h.mem 0 (by decide), hf.pointers]
    simp [Granule.hi]
  · rw [(gatewayExit_memory u).1, ← frame_gatewayCall m hk, ← h.mem (8 + k) (by omega), frame,
      h.sp, hf.sp]
    congr 1
    bv_omega

end Executive

end Cbpf.Jit
