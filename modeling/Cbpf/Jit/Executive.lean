import Cbpf.Jit.Native
import Cbpf.Jit.Passes

/-!
# The executive words

The prologue and the executive exit run in executive mode, on the kernel's stack. `apply` is what a
word that goes on to the next one does; branches, the call of `cbpf_enter` and the two returns end
such a stretch. Registers are the same as in restricted mode, the stack pointer is banked.
-/

namespace Cbpf.Jit

open Cheri

/-- An aligned 16-byte piece of memory: a capability with its tag, or two 64-bit integers. -/
inductive Granule where
  | cap (c : Capability)
  | ints (lo hi : Nat)
  deriving DecidableEq, Repr

/-- What the architecture leaves open here: the bits of a capability beside its address, the
capability that two untagged words make up, pointer authentication, and the address of the image. -/
structure Morello where
  metadata : Capability → Nat
  untagged : Nat → Nat → Capability
  untagged_tag : ∀ lo hi, (untagged lo hi).tag = false
  sign : Nat → BitVec 64 → Nat
  authenticate : Nat → BitVec 64 → Nat
  authenticate_sign : ∀ lr sp, authenticate (sign lr sp) sp = lr
  image : BitVec 64

namespace Granule

variable (p : Morello)

/-- The first and the second 64-bit word. -/
def lo : Granule → Nat
  | cap c => c.address
  | ints lo _ => lo

def hi : Granule → Nat
  | cap c => p.metadata c
  | ints _ hi => hi

/-- Loading a capability. -/
def load : Granule → Capability
  | cap c => c
  | ints lo hi => p.untagged lo hi

end Granule

/-- The processor in executive mode. The stack pointer is a multiple of 16 whenever it is the base of
an access, which the hardware checks; memory is indexed by the address of a granule. -/
structure Executive where
  pc : Nat
  c : Nat → Capability
  sp : BitVec 64
  mem : BitVec 64 → Granule

namespace Executive

variable (p : Morello)

/-- A general register as a source; 31 is the zero register. -/
def x (m : Executive) (r : Nat) : Nat := if r = a64Sp then 0 else (m.c r).address

/-- A register of an addition; 31 is the stack pointer. -/
def xSp (m : Executive) (r : Nat) : Nat := if r = a64Sp then m.sp.toNat else (m.c r).address

/-- Write a capability register and move on. -/
def setC (m : Executive) (r : Nat) (v : Capability) : Executive :=
  { m with pc := m.pc + 1, c := Function.update m.c r v }

/-- Write the integer half of a register, which clears the rest, and move on. -/
def setX (m : Executive) (r v : Nat) : Executive := m.setC r (.ofInt v)

/-- Write the result of an addition and move on. -/
def setXSp (m : Executive) (r v : Nat) : Executive :=
  if r = a64Sp then { m with pc := m.pc + 1, sp := BitVec.ofNat 64 v } else m.setX r v

/-- Store a granule and move on. -/
def store (m : Executive) (a : BitVec 64) (g : Granule) : Executive :=
  { m with pc := m.pc + 1, mem := Function.update m.mem a g }

/-- `str` of 64 bits at `sp + imm`: one half of a granule, which loses its tag. -/
def store64 (m : Executive) (imm v : Nat) : Executive :=
  let a := m.sp + BitVec.ofNat 64 (imm / 16 * 16)
  if imm % 16 = 0 then m.store a (.ints v ((m.mem a).hi p))
  else m.store a (.ints (m.mem a).lo v)

/-- The effect of a word that goes on to the next one. -/
def apply (m : Executive) : Word → Option Executive
  | .btiJc | .nop => some { m with pc := m.pc + 1 }
  | .paciasp => some (m.setX a64Lr (p.sign (m.x a64Lr) m.sp))
  | .autiasp => some (m.setX a64Lr (p.authenticate (m.x a64Lr) m.sp))
  | .mov dst src => some (m.setXSp dst (m.xSp src))
  | .movz dst imm shift => some (m.setX dst (imm * 2 ^ shift))
  | .movk dst imm shift => some (m.setX dst (insert16 (m.x dst) imm shift))
  | .addI dst src imm => some (m.setXSp dst ((m.xSp src + imm) % 2 ^ 64))
  | .subI dst src imm => some (m.setXSp dst ((m.xSp src + 2 ^ 64 - imm) % 2 ^ 64))
  | .push src₁ src₂ => some
      { m with
        pc := m.pc + 1
        sp := m.sp - 16
        mem := Function.update m.mem (m.sp - 16) (.ints (m.x src₁) (m.x src₂)) }
  | .pop dst₁ dst₂ => some
      { m with
        pc := m.pc + 1
        sp := m.sp + 16
        c := Function.update (Function.update m.c dst₁ (.ofInt (m.mem m.sp).lo)) dst₂
          (.ofInt ((m.mem m.sp).hi p)) }
  | .str64I src base imm => if base = a64Sp then some (m.store64 p imm (m.x src)) else none
  | .adr dst offset =>
    some (m.setX dst (p.image + BitVec.ofInt 64 (4 * (m.pc : Int) + offset)).toNat)
  | .capLdrC16Sp => some (m.setC 16 ((m.mem m.sp).load p))
  | .capGctag dst src => some (m.setX dst (m.c src).tag.toNat)
  | _ => none

/-- Successive words, made at the index where they are executed. -/
def execute (m : Executive) : List Template → Option Executive
  | [] => some m
  | w :: ws => (m.apply p (w m.pc)).bind fun m => execute m ws

/-- What one executive word leads to. -/
inductive Outcome where
  | next (m : Executive)
  /-- `blr`: the return address is in c30 -/
  | call (target : Nat) (m : Executive)
  /-- the return through a capability, and the one through an address -/
  | retr (target : Capability) (m : Executive)
  | ret (target : Nat) (m : Executive)
  | fault

/-- The address of a word. -/
def addressOf (index : Nat) : BitVec 64 := p.image + BitVec.ofNat 64 (4 * index)

/-- A branch by `offset` words. -/
def branch (m : Executive) (offset : Int) : Outcome :=
  if m.pc + offset < 0 then .fault else .next { m with pc := (m.pc + offset).toNat }

/-- One executive word. -/
def step (image : Nat → Word) (m : Executive) : Outcome :=
  match m.apply p (image m.pc) with
  | some m => .next m
  | none =>
    match image m.pc with
    | .b offset => m.branch offset
    | .cbz src offset => if m.x src = 0 then m.branch offset else .next { m with pc := m.pc + 1 }
    | .blr target => .call (m.x target) (m.setX a64Lr (addressOf p (m.pc + 1)).toNat)
    | .capRetrC16 => .retr (m.c 16) m
    | .ret target => .ret (m.x target) m
    | _ => .fault

/-- At most `n` words, up to the first that does not go on to another. -/
def run (image : Nat → Word) : Nat → Executive → Outcome
  | 0, m => .next m
  | n + 1, m =>
    match step p image m with
    | .next m => run image n m
    | o => o

/-! ### Stretches of words -/

variable {p} {image : Nat → Word} {m m' : Executive}

theorem execute_cons (w : Template) (ws : List Template) :
    execute p m (w :: ws) = (m.apply p (w m.pc)).bind fun m => execute p m ws := rfl

theorem execute_append (ts us : List Template) :
    execute p m (ts ++ us) = (execute p m ts).bind fun m => execute p m us := by
  induction ts generalizing m with
  | nil => rfl
  | cons w ts ih =>
    rw [List.cons_append, execute_cons, execute_cons, Option.bind_assoc]
    congr 1
    funext m'
    exact ih

/-- Stretches that are executed one after the other. -/
theorem execute_trans {m₁ : Executive} {ts us : List Template} (h : execute p m ts = some m₁)
    (h' : execute p m₁ us = some m') : execute p m (ts ++ us) = some m' := by
  rw [execute_append, h]
  exact h'

/-- A word with an effect goes on to the next one. -/
theorem apply_step {w : Word} (hw : image m.pc = w) (h : m.apply p w = some m') :
    step p image m = .next m' := by
  rw [step, hw, h]

theorem apply_pc {w : Word} (h : m.apply p w = some m') : m'.pc = m.pc + 1 := by
  cases w with
  | mov dst src | addI dst src imm | subI dst src imm =>
    obtain rfl := Option.some.inj h
    unfold setXSp
    split <;> rfl
  | str64I src base imm =>
    change (if base = a64Sp then some (m.store64 p imm (m.x src)) else none) = some m' at h
    split at h
    · obtain rfl := Option.some.inj h
      unfold store64
      dsimp only
      split <;> rfl
    · cases h
  | _ => first | (obtain rfl := Option.some.inj h; rfl) | cases h

theorem run_next (n : Nat) (h : step p image m = .next m') :
    run p image (n + 1) m = run p image n m' := by
  rw [run, h]

/-- Running the words of a stretch, and then whatever follows. -/
theorem run_execute {ts : List Template} (n : Nat) (hholds : Holds image m.pc ts)
    (h : execute p m ts = some m') : run p image (ts.length + n) m = run p image n m' := by
  induction ts generalizing m with
  | nil =>
    obtain rfl := Option.some.inj h
    rw [List.length_nil, Nat.zero_add]
  | cons w ts ih =>
    rw [execute_cons] at h
    obtain ⟨m₁, hfirst, hrest⟩ := Option.bind_eq_some_iff.mp h
    have htail := hholds.tail
    rw [← apply_pc hfirst] at htail
    rw [List.length_cons, Nat.add_right_comm, run_next _ (apply_step (hholds 0 w rfl) hfirst),
      ih htail hrest]

theorem execute_pc {ts : List Template} (h : execute p m ts = some m') :
    m'.pc = m.pc + ts.length := by
  induction ts generalizing m with
  | nil =>
    obtain rfl := Option.some.inj h
    rfl
  | cons w ts ih =>
    rw [execute_cons] at h
    obtain ⟨m₁, hfirst, hrest⟩ := Option.bind_eq_some_iff.mp h
    rw [ih hrest, apply_pc hfirst, List.length_cons]
    omega

/-- Moving the stack pointer. -/
theorem apply_addSp (m : Executive) (imm : Nat) : m.apply p (.addI a64Sp a64Sp imm) =
    some { m with pc := m.pc + 1, sp := m.sp + BitVec.ofNat 64 imm } := by
  have hsp : BitVec.ofNat 64 ((m.sp.toNat + imm) % 2 ^ 64) = m.sp + BitVec.ofNat 64 imm := by
    apply BitVec.eq_of_toNat_eq
    simp
  exact congrArg (fun sp => some { m with pc := m.pc + 1, sp := sp }) hsp

theorem apply_subSp (m : Executive) {imm : Nat} (himm : imm < 2 ^ 64) :
    m.apply p (.subI a64Sp a64Sp imm) =
      some { m with pc := m.pc + 1, sp := m.sp - BitVec.ofNat 64 imm } := by
  have hsp : BitVec.ofNat 64 ((m.sp.toNat + 2 ^ 64 - imm) % 2 ^ 64) =
      m.sp - BitVec.ofNat 64 imm := by
    apply BitVec.eq_of_toNat_eq
    rw [BitVec.toNat_ofNat, BitVec.toNat_sub, BitVec.toNat_ofNat, Nat.mod_mod,
      Nat.mod_eq_of_lt himm]
    congr 1
    omega
  exact congrArg (fun sp => some { m with pc := m.pc + 1, sp := sp }) hsp

/-- Clearing registers one by one. -/
theorem execute_clear (regs : List Nat) :
    execute p m (regs.map fun reg _ => .movz reg 0 0) =
      some { m with
        pc := m.pc + regs.length
        c := fun r => if r ∈ regs then .ofInt 0 else m.c r } := by
  induction regs generalizing m with
  | nil => simp [execute]
  | cons reg regs ih =>
    rw [List.map_cons, execute_cons]
    change execute p (m.setX reg (0 * 2 ^ 0)) _ = _
    rw [ih]
    refine congrArg some ?_
    have hc : (fun r => if r ∈ regs then Capability.ofInt 0
        else Function.update m.c reg (.ofInt 0) r) =
        fun r => if r ∈ reg :: regs then .ofInt 0 else m.c r := by
      funext r
      by_cases hr : r ∈ regs
      · simp [hr]
      · by_cases heq : r = reg
        · subst heq
          simp
        · simp [hr, heq]
    change ({ m with pc := m.pc + 1 + regs.length, c := _ } : Executive) = _
    rw [List.length_cons, Nat.add_right_comm, Nat.add_assoc]
    exact congrArg (fun c => { m with pc := m.pc + (regs.length + 1), c := c }) hc

end Executive

end Cbpf.Jit
