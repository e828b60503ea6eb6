import Mathlib

/-!
# The instruction language (`src/cbpf.h`) and its validation (`cbpf_validate`)

Enumerations are inductive types. A C `enum cbpf_opcode` can also hold an integer that names no
opcode, which `Opcode.other` keeps. Operands and counters are `Nat` (every comparison the code makes
on them is with a small bound, and no counter passes 66), immediates and `int` fields are `Int`.
-/

namespace Cbpf

/-- `CBPF_CELLS` (`src/cbpf.h:8`). -/
def cbpfCells : Nat := 2
/-- `CBPF_REGS`. -/
def cbpfRegs : Nat := 4
/-- `CBPF_SPILLS`. -/
def cbpfSpills : Nat := 2
/-- `CBPF_MAX_INSNS`. -/
def cbpfMaxInsns : Nat := 64
/-- `CBPF_MAX_EVENTS = CBPF_MAX_INSNS + CBPF_CELLS`. -/
def cbpfMaxEvents : Nat := cbpfMaxInsns + cbpfCells

@[simp] theorem cbpfCells_eq : cbpfCells = 2 := rfl
@[simp] theorem cbpfRegs_eq : cbpfRegs = 4 := rfl
@[simp] theorem cbpfSpills_eq : cbpfSpills = 2 := rfl
@[simp] theorem cbpfMaxInsns_eq : cbpfMaxInsns = 64 := rfl
@[simp] theorem cbpfMaxEvents_eq : cbpfMaxEvents = 66 := rfl

/-- `enum cbpf_opcode`. `other k` is the integer `CBPF_OPCODE_COUNT + k`, which no case of a
`switch` matches. -/
inductive Opcode where
  | acquire | copy | spill | reload | read | release | brNull | ret
  | other (k : Nat)
  deriving DecidableEq, Repr

/-- `struct cbpf_insn`. -/
structure Insn where
  op : Opcode
  dst : Nat
  src : Nat
  imm : Int
  deriving DecidableEq, Repr

/-- A `const struct cbpf_insn *`: NULL, or the instructions at and after the address. -/
abbrev InsnPtr := Option (Nat → Insn)

/-- The instructions a pointer gives access to. Validation rejects NULL before anything is read. -/
def InsnPtr.deref (p : InsnPtr) : Nat → Insn :=
  p.getD fun _ => ⟨.acquire, 0, 0, 0⟩

/-- A pointer to the first of the given instructions. -/
def InsnPtr.ofList (l : List Insn) : InsnPtr := some fun i => l.getD i ⟨.ret, 0, 0, 0⟩

/-- The `switch` of `cbpf_validate` (`src/cbpf.c:10-36`) for instruction `x` at index `i` of `n`;
`false` is `goto invalid`. -/
def insnOk (n i : Nat) (x : Insn) : Bool :=
  match x.op with
  | .acquire => !(x.dst ≥ cbpfRegs || (x.imm != 0 && x.imm != 1))
  | .copy => !(x.dst ≥ cbpfRegs || x.src ≥ cbpfRegs)
  | .spill => !(x.dst ≥ cbpfSpills || x.src ≥ cbpfRegs)
  | .reload => !(x.dst ≥ cbpfRegs || x.src ≥ cbpfSpills)
  | .read | .release => !(x.dst ≥ cbpfRegs)
  | .brNull => !(x.dst ≥ cbpfRegs || x.imm ≤ (i : Int) || x.imm ≥ (n : Int))
  | .ret => true
  | .other _ => false

/-- The `for` loop of `cbpf_validate` from index `i` with `k` indices left: the index at which it
jumps to `invalid`, if any. -/
def firstInvalid (p : Nat → Insn) (n : Nat) : Nat → Nat → Option Nat
  | 0, _ => none
  | k + 1, i => if insnOk n i (p i) then firstInvalid p n k (i + 1) else some i

/-- `cbpf_validate` (`src/cbpf.c:4-39`): `ok` returns 1, `error i` returns 0 with `*bad_pc = i`. -/
def cbpfValidate (p : InsnPtr) (n : Nat) : Except Nat Unit :=
  if p.isNone || n == 0 || n > cbpfMaxInsns then .error 0
  else
    match firstInvalid p.deref n n 0 with
    | some i => .error i
    | none => if (p.deref (n - 1)).op ≠ .ret then .error (n - 1) else .ok ()

theorem firstInvalid_none {p : Nat → Insn} {n k i : Nat} (h : firstInvalid p n k i = none) :
    ∀ j, i ≤ j → j < i + k → insnOk n j (p j) = true := by
  induction k generalizing i with
  | zero => intro j _ _; omega
  | succ k ih =>
    intro j hij hjk
    simp only [firstInvalid] at h
    split at h
    · rename_i hok
      rcases Nat.eq_or_lt_of_le hij with rfl | hlt
      · exact hok
      · exact ih h j hlt (by omega)
    · cases h

/-- What the interpreters may rely on after `cbpf_validate` returned 1. -/
structure Validated (p : Nat → Insn) (n : Nat) : Prop where
  pos : 0 < n
  le : n ≤ 64
  ok : ∀ i, i < n → insnOk n i (p i) = true
  last : (p (n - 1)).op = .ret

theorem validated_of_cbpfValidate {p : InsnPtr} {n : Nat} (h : cbpfValidate p n = .ok ()) :
    Validated p.deref n := by
  unfold cbpfValidate at h
  split at h
  · cases h
  · rename_i hb
    simp at hb
    obtain ⟨⟨_, hn⟩, hmax⟩ := hb
    split at h
    · cases h
    · rename_i hnone
      split at h
      · cases h
      · rename_i hlast
        exact {
          pos := by omega
          le := by omega
          ok := fun i hi => firstInvalid_none hnone i (Nat.zero_le _) (by omega)
          last := by simpa using hlast }

theorem firstInvalid_eq_none {p : Nat → Insn} {n k i : Nat}
    (h : ∀ j, i ≤ j → j < i + k → insnOk n j (p j) = true) : firstInvalid p n k i = none := by
  induction k generalizing i with
  | zero => rfl
  | succ k ih =>
    rw [firstInvalid, if_pos (h i (Nat.le_refl i) (by omega))]
    exact ih fun j hij hjk => h j (by omega) (by omega)

/-- Validation accepts every program that keeps its rules. -/
theorem cbpfValidate_of_validated {p : Nat → Insn} {n : Nat} (h : Validated p n) :
    cbpfValidate (some p) n = .ok () := by
  have hpos := h.pos
  have hle := h.le
  have hnone : firstInvalid (InsnPtr.deref (some p)) n n 0 = none :=
    firstInvalid_eq_none fun j _ hj => h.ok j (by omega)
  unfold cbpfValidate
  rw [if_neg (by simp; omega), hnone]
  exact if_neg (not_not.mpr h.last)

/-! What validation says about an instruction, opcode by opcode. -/

section InsnOk

variable {n i : Nat} {x : Insn}

theorem insnOk_acquire (h : insnOk n i x = true) (hop : x.op = .acquire) :
    x.dst < 4 ∧ (x.imm = 0 ∨ x.imm = 1) := by
  simp [insnOk, hop] at h
  omega

theorem insnOk_copy (h : insnOk n i x = true) (hop : x.op = .copy) : x.dst < 4 ∧ x.src < 4 := by
  simp [insnOk, hop] at h
  omega

theorem insnOk_spill (h : insnOk n i x = true) (hop : x.op = .spill) : x.dst < 2 ∧ x.src < 4 := by
  simp [insnOk, hop] at h
  omega

theorem insnOk_reload (h : insnOk n i x = true) (hop : x.op = .reload) : x.dst < 4 ∧ x.src < 2 := by
  simp [insnOk, hop] at h
  omega

theorem insnOk_read (h : insnOk n i x = true) (hop : x.op = .read) : x.dst < 4 := by
  simp [insnOk, hop] at h
  omega

theorem insnOk_release (h : insnOk n i x = true) (hop : x.op = .release) : x.dst < 4 := by
  simp [insnOk, hop] at h
  omega

theorem insnOk_brNull (h : insnOk n i x = true) (hop : x.op = .brNull) :
    x.dst < 4 ∧ (i : Int) < x.imm ∧ x.imm < n := by
  simp [insnOk, hop] at h
  omega

theorem insnOk_other (h : insnOk n i x = true) (k : Nat) : x.op ≠ .other k := by
  intro hop
  simp [insnOk, hop] at h

end InsnOk

end Cbpf
