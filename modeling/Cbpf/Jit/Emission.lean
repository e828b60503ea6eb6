import Cbpf.Jit.Codegen
import Cbpf.Jit.Transfer

/-!
# The three passes agree

The number of words of an instruction does not depend on the addresses in them, so the layout pass
finds the offsets that the other two see again: no pass fails, and the image holds the words of
every instruction at its offset.
-/

namespace Cbpf.Jit

/-! ### Operands that the macros encode -/

/-- Are the operands within the ranges of the instruction? -/
def Word.inRange : Word → Bool
  | .breakFault => false
  | .movz dst imm shift | .movk dst imm shift =>
    decide (dst ≤ 31) && decide (imm < 2 ^ 16) && decide (shift ∈ [0, 16, 32, 48])
  | .addI dst src imm | .subI dst src imm =>
    decide (dst ≤ 31) && decide (src ≤ 31) && decide (imm < 4096)
  | .str64I src base imm =>
    decide (src ≤ 31) && decide (base ≤ 31) && decide (imm < 4096) && decide (imm % 8 = 0)
  | .push r₁ r₂ | .pop r₁ r₂ | .mov r₁ r₂ | .capMov r₁ r₂ | .capStr r₁ r₂ | .capLdr r₁ r₂
  | .capGctag r₁ r₂ => decide (r₁ ≤ 31) && decide (r₂ ≤ 31)
  | .adr dst offset => decide (dst ≤ 31) && decide (-2 ^ 20 ≤ offset) && decide (offset < 2 ^ 20)
  | .b offset => decide (-2 ^ 25 ≤ offset) && decide (offset < 2 ^ 25)
  | .cbz src offset => decide (src ≤ 31) && decide (-2 ^ 18 ≤ offset) && decide (offset < 2 ^ 18)
  | .blr r | .ret r | .capBlrs r => decide (r ≤ 31)
  | _ => true

/-- The macros return a word for every operand within its range. -/
def Target.Encodes (t : Target) : Prop := ∀ w : Word, w.inRange = true → t.encodes w = true

/-- Every recorded index of the context is one of the image. -/
structure Bounded (c : Compiler) : Prop where
  offset : ∀ p, c.offset p ≤ 1024
  restrictedExit : c.restrictedExit ≤ 1024
  executiveExit : c.executiveExit ≤ 1024
  executiveWords : c.executiveWords ≤ 1024

/-- The templates make words with operands in range wherever they are emitted. -/
def InRange (ts : List Template) : Prop := ∀ x ∈ ts, ∀ n ≤ 1024, (x n).inRange = true

theorem InRange.append {ts us : List Template} (h : InRange ts) (h' : InRange us) :
    InRange (ts ++ us) := by
  intro x hx
  rcases List.mem_append.mp hx with hx | hx
  · exact h x hx
  · exact h' x hx

theorem InRange.cons {x : Template} {ts : List Template} (hx : ∀ n ≤ 1024, (x n).inRange = true)
    (h : InRange ts) : InRange (x :: ts) := by
  intro y hy
  rcases List.mem_cons.mp hy with rfl | hy
  · exact hx
  · exact h y hy

theorem InRange.nil : InRange [] := fun _ hx => absurd hx List.not_mem_nil

theorem inRange_immediate {reg : Nat} (hreg : reg ≤ 31) (value : BitVec 64) :
    InRange (immediate reg value) := by
  have hlt : ∀ n, n % 2 ^ 16 < 2 ^ 16 := fun n => Nat.mod_lt _ (by decide)
  have hrange : ∀ v shift, shift ∈ [0, 16, 32, 48] →
      (Word.movk reg (v % 2 ^ 16) shift).inRange = true := by
    intro v shift hshift
    simp only [Word.inRange, Bool.and_eq_true, decide_eq_true_eq]
    exact ⟨⟨hreg, hlt v⟩, hshift⟩
  refine .cons (fun n _ => hrange value.toNat 0 (by decide)) ?_
  intro x hx n _
  simp only [List.mem_map, List.mem_cons, List.not_mem_nil, or_false] at hx
  obtain ⟨shift, hshift, rfl⟩ := hx
  rcases hshift with rfl | rfl | rfl
  · exact hrange _ 16 (by decide)
  · exact hrange _ 32 (by decide)
  · exact hrange _ 48 (by decide)

theorem inRange_clearRegisters (entering : Bool) : InRange (clearRegisters entering) := by
  intro x hx n _
  simp only [clearRegisters, List.mem_map, List.mem_filter, List.mem_range] at hx
  obtain ⟨reg, ⟨hreg, _⟩, rfl⟩ := hx
  simp [Word.inRange]
  omega

theorem inRange_prologue (t : Target) {c : Compiler} (h : Bounded c) :
    InRange (prologueTemplates t c) := by
  have hexit := h.executiveExit
  have hwords := h.executiveWords
  unfold prologueTemplates
  refine .append (.append (.append (.append (.append (.append (.append (.append (.append ?_ ?_) ?_)
    ?_) ?_) ?_) (inRange_immediate (by decide) _)) (inRange_immediate (by decide) _)) ?_)
    (inRange_clearRegisters _)
  · split
    · exact .cons (fun _ _ => rfl) .nil
    · exact .nil
  · exact .cons (fun _ _ => rfl) (.cons (fun _ _ => rfl) .nil)
  · split
    · exact .cons (fun _ _ => rfl) .nil
    · exact .nil
  · exact .cons (fun _ _ => rfl) (.cons (fun _ _ => rfl) .nil)
  · intro x hx n _
    obtain ⟨reg, hreg, rfl⟩ := List.mem_map.mp hx
    have hle : reg ≤ 27 := (by decide : ∀ reg ∈ [19, 21, 23, 25, 27], reg ≤ 27) reg hreg
    simp [Word.inRange]
    omega
  · refine .cons (fun _ _ => rfl) (.cons (fun _ _ => rfl) (.cons (fun _ _ => rfl)
      (.cons (fun _ _ => rfl) (.cons (fun n hn => ?_) (.cons (fun n hn => ?_)
        (.cons (fun _ _ => rfl) .nil))))))
    · simp [Word.inRange]
      omega
    · simp [Word.inRange]
      omega
  · refine .cons (fun _ _ => rfl) (.cons (fun _ _ => rfl) (.cons (fun _ _ => rfl)
      (.cons (fun n hn => ?_) .nil)))
    simp [Word.inRange]
    omega

theorem inRange_executive (t : Target) : InRange (executiveTemplates t) := by
  unfold executiveTemplates
  refine .append (.append (.append (.append (.append (.append ?_ (inRange_clearRegisters _)) ?_) ?_)
    ?_) ?_) ?_
  · exact .cons (fun _ _ => rfl) (.cons (fun _ _ => rfl) (.cons (fun _ _ => rfl) .nil))
  · exact .cons (fun _ _ => rfl) (.cons (fun _ _ => rfl) (.cons (fun _ _ => rfl) .nil))
  · intro x hx n _
    obtain ⟨reg, hreg, rfl⟩ := List.mem_map.mp hx
    have hle : reg ≤ 27 := (by decide : ∀ reg ∈ [27, 25, 23, 21, 19], reg ≤ 27) reg hreg
    simp [Word.inRange]
    omega
  · exact .cons (fun _ _ => rfl) (.cons (fun _ _ => rfl) .nil)
  · split
    · exact .cons (fun _ _ => rfl) .nil
    · exact .nil
  · exact .cons (fun _ _ => rfl) (.cons (fun _ _ => rfl) (.cons (fun _ _ => rfl)
      (.cons (fun _ _ => rfl) .nil)))

theorem inRange_retClr : InRange [fun _ => .capRetClr] := .cons (fun _ _ => rfl) .nil

theorem nativeReg_le (r : Nat) : nativeReg r ≤ 22 := by
  by_cases h : r < 10
  · have hall : ∀ r < 10, nativeReg r ≤ 22 := by decide
    exact hall r h
  · rw [nativeReg, List.getD_eq_default _ _ (Nat.le_of_not_lt h)]
    decide

/-! ### What an instruction takes -/

/-- The number of words of an instruction. -/
def width (i : BpfInsn) : Nat :=
  match i.code with
  | .alu64MovK => 4
  | .jmpCall => 5
  | .other _ => 0
  | _ => 1

/-- A program that the generator can compile: short, within the grammar, with small operation
codes. -/
structure Compilable (c : Compiler) : Prop where
  length_le : c.prog.length ≤ cbpfMaxInsns
  grammar : ∀ i ∈ c.prog, ∀ code, i.code ≠ .other code
  operation_le : ∀ p i, c.prog[p]? = some i → i.code = .jmpCall → c.operation p ≤ 3

theorem insnTemplates_some {c : Compiler} (h : Compilable c) (hb : Bounded c) {pc : Nat}
    {i : BpfInsn} (hi : c.prog[pc]? = some i) :
    ∃ ts, insnTemplates c pc i = some ts ∧ ts.length = width i ∧ InRange ts := by
  have hlt : pc < c.prog.length := (List.getElem?_eq_some_iff.mp hi).1
  have hlen := h.length_le
  have hreg := nativeReg_le
  unfold cbpfMaxInsns at hlen
  unfold insnTemplates width
  cases hcode : i.code with
  | alu64MovX =>
    refine ⟨_, rfl, rfl, .cons (fun _ _ => ?_) .nil⟩
    have := hreg i.dstReg
    have := hreg i.srcReg
    simp [Word.inRange]
    omega
  | alu64MovK => exact ⟨_, rfl, rfl, inRange_immediate (Nat.le_trans (hreg _) (by decide)) _⟩
  | stxMemDw =>
    refine ⟨_, rfl, rfl, .cons (fun _ _ => ?_) .nil⟩
    have := hreg i.srcReg
    simp [Word.inRange, a64Sp]
    omega
  | ldxMemDw =>
    refine ⟨_, rfl, rfl, .cons (fun _ _ => ?_) .nil⟩
    have := hreg i.dstReg
    simp [Word.inRange, a64Sp]
    omega
  | jmpJeqK =>
    refine ⟨_, rfl, rfl, .cons (fun n hn => ?_) .nil⟩
    have := hreg i.dstReg
    have := hb.offset (pc + 1 + i.off).toNat
    simp [Word.inRange]
    omega
  | jmpCall =>
    have hop := h.operation_le pc i hi hcode
    refine ⟨_, rfl, rfl, .cons (fun _ _ => ?_) (.cons (fun _ _ => ?_) (.cons (fun _ _ => rfl)
      (.cons (fun _ _ => rfl) (.cons (fun _ _ => rfl) .nil))))⟩
    · simp [Word.inRange]
      omega
    · simp [Word.inRange]
      omega
  | jmpExit =>
    refine ⟨_, rfl, rfl, .cons (fun n hn => ?_) .nil⟩
    have := hb.restrictedExit
    simp [Word.inRange]
    omega
  | other code => exact absurd hcode (h.grammar i (List.mem_of_getElem? hi) code)

/-- The length of the prologue. -/
def prologueLength (t : Target) : Nat := 56 + t.bti.toNat + t.ptrAuth.toNat

/-- The length of the executive exit. -/
def executiveLength (t : Target) : Nat := 46 + t.ptrAuth.toNat

theorem length_prologue (t : Target) (c : Compiler) :
    (prologueTemplates t c).length = prologueLength t := by
  unfold prologueTemplates prologueLength
  cases t.bti <;> cases t.ptrAuth <;> rfl

theorem length_executive (t : Target) : (executiveTemplates t).length = executiveLength t := by
  unfold executiveTemplates executiveLength
  cases t.ptrAuth <;> rfl

/-- The index at which the words of `pc` start. -/
def startOf (t : Target) (prog : List BpfInsn) (pc : Nat) : Nat :=
  prologueLength t + ((prog.take pc).map width).sum

/-- The number of words of the image. -/
def totalWords (t : Target) (prog : List BpfInsn) : Nat :=
  startOf t prog prog.length + 1 + executiveLength t

theorem width_le (i : BpfInsn) : width i ≤ 5 := by
  unfold width
  split <;> decide

theorem startOf_succ (t : Target) {prog : List BpfInsn} {pc : Nat} {i : BpfInsn}
    (hi : prog[pc]? = some i) : startOf t prog (pc + 1) = startOf t prog pc + width i := by
  rw [startOf, List.take_add_one, hi, List.map_append, List.sum_append, startOf]
  simp
  omega

theorem startOf_mono (t : Target) (prog : List BpfInsn) {m n : Nat} (h : m ≤ n) :
    startOf t prog m ≤ startOf t prog n := by
  obtain ⟨rest, hrest⟩ := List.take_prefix_take_left (l := prog) h
  rw [startOf, startOf, ← hrest, List.map_append, List.sum_append]
  omega

/-- An image of an admitted program stays far below `CBPF_MAX_WORDS`. -/
theorem totalWords_le (t : Target) {prog : List BpfInsn} (h : prog.length ≤ cbpfMaxInsns) :
    totalWords t prog ≤ 450 := by
  have hsum : ∀ l : List BpfInsn, (l.map width).sum ≤ 5 * l.length := by
    intro l
    induction l with
    | nil => exact Nat.le_refl _
    | cons i l ih =>
      have := width_le i
      rw [List.map_cons, List.sum_cons, List.length_cons]
      omega
  have hbody := hsum (prog.take prog.length)
  have hbti := Bool.toNat_le t.bti
  have hauth := Bool.toNat_le t.ptrAuth
  rw [List.take_length] at hbody
  unfold cbpfMaxInsns at h
  unfold totalWords startOf prologueLength executiveLength
  rw [List.take_length]
  omega

end Cbpf.Jit
