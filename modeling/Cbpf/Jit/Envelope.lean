import Cbpf.Jit.Prologue
import Cbpf.Jit.Simulation

/-!
# The words of restricted mode

The image between the return from `cbpf_enter` and the executive exit: which registers its words
write, and where its branches go.
-/

namespace Cbpf.Jit

open Dataflow Executive

/-- The registers that a word writes; 31 is the stack pointer. -/
def Word.writes : Word → List Nat
  | .mov dst _ | .movz dst _ _ | .movk dst _ _ | .addI dst _ _ | .subI dst _ _ | .adr dst _
  | .capMov dst _ | .capLdr dst _ | .capGctag dst _ => [dst]
  | .push _ _ => [a64Sp]
  | .pop dst₁ dst₂ => [dst₁, dst₂, a64Sp]
  | .paciasp | .autiasp | .blr _ | .capBlrs _ => [a64Lr]
  | .capLdrC16Sp => [16]
  | _ => []

/-- A word that goes on to the next one in restricted mode, whatever the registers hold. -/
def Word.plain : Word → Bool
  | .movz _ _ _ | .movk _ _ _ | .capMov _ _ => true
  | .capStr _ base | .capLdr _ base => base == a64Sp
  | _ => false

variable {k : Kfuncs} {env : Kernel.Env} {t : Target} {prog : List BpfInsn}
  {a : Admission} {c : Compiler} {e : Envelope} {m : Machine}

theorem Machine.setC_of_ne {r dst : Nat} (h : r ≠ dst) (v : Cheri.Capability) :
    (m.setC dst v).c r = m.c r := Function.update_of_ne h _ _

/-- A plain word changes no register but those it writes. -/
theorem nativeStep_plain (env : Kernel.Env) (hplain : (e.image m.pc).plain = true) : ∃ m',
    nativeStep env e m = .next m' ∧ m'.pc = m.pc + 1 ∧
      ∀ r, r ∉ (e.image m.pc).writes → m'.c r = m.c r := by
  unfold nativeStep
  cases hword : e.image m.pc with
  | movz dst imm shift | movk dst imm shift | capMov dst src =>
    exact ⟨_, rfl, rfl, fun r hr => Machine.setC_of_ne (fun h => hr (List.mem_singleton.mpr h)) _⟩
  | capStr src base =>
    rw [hword] at hplain
    exact ⟨_, if_pos (beq_iff_eq.mp hplain), rfl, fun r _ => rfl⟩
  | capLdr dst base =>
    rw [hword] at hplain
    exact ⟨_, if_pos (beq_iff_eq.mp hplain), rfl,
      fun r hr => Machine.setC_of_ne (fun h => hr (List.mem_singleton.mpr h)) _⟩
  | _ =>
    rw [hword] at hplain
    cases hplain

/-! ### The templates -/

/-- The registers of the envelope: the stack base, the gateway and the stack pointer. -/
def envelopeRegs : List Nat := [15, 17, a64Sp]

/-- Where the exit is kept, and where the call template copies it to. -/
def exitRegs : List Nat := [13, a64Lr]

theorem nativeReg_not_mem (r : Nat) : nativeReg r ∉ envelopeRegs ++ exitRegs := by
  by_cases h : r < 10
  · have hall : ∀ r < 10, nativeReg r ∉ envelopeRegs ++ exitRegs := by decide
    exact hall r h
  · rw [nativeReg, List.getD_eq_default _ _ (Nat.le_of_not_lt h)]
    decide

/-- Writing a native register spares the registers of the envelope. -/
theorem not_mem_native {r reg : Nat} (hr : r ∈ envelopeRegs ++ exitRegs) : r ∉ [nativeReg reg] := by
  intro h
  rw [List.mem_singleton.mp h] at hr
  exact nativeReg_not_mem reg hr

/-- The instructions that are neither branches nor calls. -/
def straight (i : BpfInsn) : Prop :=
  i.code = .alu64MovX ∨ i.code = .alu64MovK ∨ i.code = .stxMemDw ∨ i.code = .ldxMemDw

/-- Their words are plain and spare the registers of the envelope. -/
theorem templates_straight {pc : Nat} {i : BpfInsn} {ts : List Template} (hi : straight i)
    (hts : insnTemplates c pc i = some ts) {x : Template} (hx : x ∈ ts) (index : Nat) :
    (x index).plain = true ∧ ∀ r ∈ envelopeRegs ++ exitRegs, r ∉ (x index).writes := by
  unfold insnTemplates at hts
  rcases hi with hcode | hcode | hcode | hcode <;> rw [hcode] at hts <;>
    obtain rfl := Option.some.inj hts
  · obtain rfl := List.mem_singleton.mp hx
    exact ⟨rfl, fun r hr => not_mem_native hr⟩
  · rcases List.mem_cons.mp hx with rfl | hx
    · exact ⟨rfl, fun r hr => not_mem_native hr⟩
    · obtain ⟨shift, _, rfl⟩ := List.mem_map.mp hx
      exact ⟨rfl, fun r hr => not_mem_native hr⟩
  · obtain rfl := List.mem_singleton.mp hx
    exact ⟨rfl, fun r _ => List.not_mem_nil⟩
  · obtain rfl := List.mem_singleton.mp hx
    exact ⟨rfl, fun r hr => not_mem_native hr⟩

/-- No word of an instruction writes the stack base, the gateway or the stack pointer, and only the
call template writes the registers that hold the exit. -/
theorem templates_spare {pc : Nat} {i : BpfInsn} {ts : List Template}
    (hts : insnTemplates c pc i = some ts) {x : Template} (hx : x ∈ ts) (index : Nat) :
    (∀ r ∈ envelopeRegs, r ∉ (x index).writes) ∧
      (i.code ≠ .jmpCall → ∀ r ∈ exitRegs, r ∉ (x index).writes) := by
  have hstraight : straight i → (∀ r ∈ envelopeRegs, r ∉ (x index).writes) ∧
      (i.code ≠ .jmpCall → ∀ r ∈ exitRegs, r ∉ (x index).writes) := by
    intro hi
    have hspare := (templates_straight hi hts hx index).2
    exact ⟨fun r hr => hspare r (List.mem_append_left _ hr),
      fun _ r hr => hspare r (List.mem_append_right _ hr)⟩
  cases hcode : i.code with
  | alu64MovX => exact hcode ▸ hstraight (.inl hcode)
  | alu64MovK => exact hcode ▸ hstraight (.inr (.inl hcode))
  | stxMemDw => exact hcode ▸ hstraight (.inr (.inr (.inl hcode)))
  | ldxMemDw => exact hcode ▸ hstraight (.inr (.inr (.inr hcode)))
  | jmpJeqK | jmpExit =>
    rw [insnTemplates, hcode] at hts
    obtain rfl := Option.some.inj hts
    obtain rfl := List.mem_singleton.mp hx
    exact ⟨fun r _ => List.not_mem_nil, fun _ r _ => List.not_mem_nil⟩
  | jmpCall =>
    rw [insnTemplates, hcode] at hts
    obtain rfl := Option.some.inj hts
    refine ⟨?_, fun h => absurd rfl h⟩
    simp only [List.mem_cons, List.not_mem_nil, or_false] at hx
    rcases hx with rfl | rfl | rfl | rfl | rfl <;> (dsimp only [Word.writes]; decide)
  | other code =>
    rw [insnTemplates, hcode] at hts
    cases hts

theorem templates_clear {x : Template} (hx : x ∈ clearRegisters true) (index : Nat) :
    (x index).plain = true ∧ 15 ∉ (x index).writes ∧ 17 ∉ (x index).writes ∧
      a64Lr ∉ (x index).writes := by
  obtain ⟨reg, hreg, rfl⟩ := List.mem_map.mp hx
  have hall : ∀ reg ∈ (List.range 30).filter fun reg => reg != 15 && reg != 17,
      15 ∉ [reg] ∧ 17 ∉ [reg] ∧ a64Lr ∉ [reg] := by decide
  exact ⟨rfl, hall reg hreg⟩

theorem length_clearRegisters_true : (clearRegisters true).length = 28 := by decide

/-! ### The image of an admitted program -/

/-- The restricted part of an image: its fixed words, what the words of instructions write, and the
targets of branches. -/
structure RestrictedWords (t : Target) (prog : List BpfInsn) (c : Compiler) (image : Nat → Word) :
    Prop where
  /-- the word after the call of `cbpf_enter` skips the entry-error pair -/
  skip : image (afterBlr t - 1) = .blr 10 ∧ image (afterBlr t) = .cbz 0 3
  errorPair : image (afterBlr t + 1) = .movz 7 0 0 ∧
    image (afterBlr t + 2) = .b ((c.executiveExit : Int) - (afterBlr t + 2 : Nat))
  body : ∀ pc i, prog[pc]? = some i → ∀ j < width i,
    (∀ r ∈ envelopeRegs, r ∉ (image (c.offset pc + j)).writes) ∧
    (i.code ≠ .jmpCall → ∀ r ∈ exitRegs, r ∉ (image (c.offset pc + j)).writes)
  /-- a branch goes to the first word of an instruction -/
  branch : ∀ pc i, prog[pc]? = some i → i.code = .jmpJeqK →
    ∃ offset, image (c.offset pc) = .cbz (nativeReg i.dstReg) offset ∧
      (c.offset pc : Int) + offset = c.offset (pc + 1 + i.off.toNat) ∧
      ∃ i', prog[pc + 1 + i.off.toNat]? = some i'
  /-- an exit goes to `ret` -/
  exit : ∀ pc i, prog[pc]? = some i → i.code = .jmpExit →
    ∃ offset, image (c.offset pc) = .b offset ∧
      (c.offset pc : Int) + offset = c.restrictedExit
  retClr : image c.restrictedExit = .capRetClr
  start : c.offset 0 = afterBlr t + 31
  finish : c.offset prog.length = c.restrictedExit
  executiveExit : c.executiveExit = c.restrictedExit + 1
  words : c.executiveExit + c.executiveWords = c.words

namespace Loaded

variable (hl : Loaded t k prog a c e)
include hl

theorem offset_eq {pc : Nat} (hpc : pc ≤ prog.length) : c.offset pc = startOf t prog pc := by
  have hprog := hl.prog
  rw [hl.laidOut.offset pc (by rw [hprog]; exact hpc), hprog]

theorem offset_mono {pc pc' : Nat} (hle : pc ≤ pc') (hpc' : pc' ≤ prog.length) :
    c.offset pc ≤ c.offset pc' := by
  rw [hl.offset_eq (Nat.le_trans hle hpc'), hl.offset_eq hpc']
  exact startOf_mono t prog hle

theorem restrictedExit_eq : c.restrictedExit = startOf t prog prog.length := by
  rw [hl.laidOut.restrictedExit, hl.prog]

/-- The words after the call of `cbpf_enter`. -/
theorem holds_afterBlr : e.image (afterBlr t - 1) = .blr 10 ∧
    Holds e.image (afterBlr t) (rejectTemplates c) ∧
    Holds e.image (afterBlr t + 3) (clearRegisters true) := by
  have hprologue := hl.written.prologue
  have hlen := length_entryTemplates t c
  rw [prologueTemplates_eq] at hprologue
  obtain ⟨hfirst, hclear⟩ := hprologue.of_append
  obtain ⟨hentry, hreject⟩ := hfirst.of_append
  have hblr := hentry.of_append.2
  simp only [List.length_append, List.length_singleton, Nat.zero_add, hlen] at hblr hreject hclear
  refine ⟨?_, hreject, hclear⟩
  rw [← hlen, Nat.add_sub_cancel]
  exact hblr 0 _ rfl

/-- The words that clear the registers on entry. -/
theorem clearing_word {j : Nat} (hj : j < 28) :
    (e.image (afterBlr t + 3 + j)).plain = true ∧ 15 ∉ (e.image (afterBlr t + 3 + j)).writes ∧
      17 ∉ (e.image (afterBlr t + 3 + j)).writes ∧
      a64Lr ∉ (e.image (afterBlr t + 3 + j)).writes := by
  rw [← length_clearRegisters_true] at hj
  have hget : (clearRegisters true)[j]? = some (clearRegisters true)[j] :=
    List.getElem?_eq_getElem hj
  rw [hl.holds_afterBlr.2.2 j _ hget]
  exact templates_clear (List.mem_of_getElem? hget) _

/-- The templates of an instruction. -/
theorem holds_word {pc : Nat} {i : BpfInsn} (hi : prog[pc]? = some i) : ∃ ts,
    insnTemplates c pc i = some ts ∧ ts.length = width i ∧ 0 < width i ∧
      Holds e.image (c.offset pc) ts := by
  have hi' : c.prog[pc]? = some i := by
    rw [hl.prog]
    exact hi
  obtain ⟨ts, hts, hlen, _⟩ := insnTemplates_some hl.laidOut.compilable hl.laidOut.bounded hi'
  refine ⟨ts, hts, hlen, ?_, hl.holds hi hts⟩
  have hcode := hl.laidOut.compilable.grammar i (List.mem_of_getElem? hi')
  unfold width
  cases hc : i.code with
  | other code => exact absurd hc (hcode code)
  | _ => decide

/-- The null check branches forward, to an instruction. -/
theorem target_of_jeq {pc : Nat} {i : BpfInsn} (hi : prog[pc]? = some i)
    (hcode : i.code = .jmpJeqK) :
    pc + 1 + i.off.toNat < prog.length ∧
      (pc + 1 + i.off : Int).toNat = pc + 1 + i.off.toNat := by
  have hcall : ∀ op, callOperation k i = op → op ≠ 0 → False := by
    intro op hop hne
    have := code_of_callOperation hop hne
    rw [hcode] at this
    cases this
  obtain ⟨es, ht⟩ := transfer_of_admitted hl.admitted hi
  cases ht with
  | jeq _ _ _ hoff htarget => exact ⟨htarget, by omega⟩
  | acquire hop => exact (hcall _ hop (by decide)).elim
  | read hop => exact (hcall _ hop (by decide)).elim
  | release hop => exact (hcall _ hop (by decide)).elim
  | movX h | movK h | stx h | ldx h | exit h =>
    rw [hcode] at h
    cases h

theorem restrictedWords : RestrictedWords t prog c e.image := by
  obtain ⟨hblr, hreject, _⟩ := hl.holds_afterBlr
  have hclr := hl.written.restrictedExit 0 _ rfl
  rw [hl.prog, Nat.add_zero, ← hl.restrictedExit_eq] at hclr
  have hexit : c.executiveExit = c.restrictedExit + 1 := by
    rw [hl.laidOut.executiveExit, hl.laidOut.restrictedExit]
  refine {
    skip := ⟨hblr, hreject 0 _ rfl⟩
    errorPair := ⟨hreject 1 _ rfl, hreject 2 _ rfl⟩
    body := fun pc i hi j hj => ?_
    branch := fun pc i hi hcode => ?_
    exit := fun pc i hi hcode => ?_
    retClr := hclr
    start := ?_
    finish := ?_
    executiveExit := hexit
    words := ?_ }
  · obtain ⟨ts, hts, hlen, _, hholds⟩ := hl.holds_word hi
    have hget : ts[j]? = some ts[j] := List.getElem?_eq_getElem (by omega)
    rw [hholds j _ hget]
    exact templates_spare hts (List.mem_of_getElem? hget) _
  · obtain ⟨hlt, htarget⟩ := hl.target_of_jeq hi hcode
    have hword := hl.holds hi (by rw [insnTemplates, hcode]) 0 _ rfl
    rw [Nat.add_zero, htarget] at hword
    exact ⟨_, hword, by omega, _, List.getElem?_eq_getElem hlt⟩
  · have hword := hl.holds hi (by rw [insnTemplates, hcode]) 0 _ rfl
    rw [Nat.add_zero] at hword
    exact ⟨_, hword, by omega⟩
  · rw [hl.offset_eq (Nat.zero_le _), startOf]
    simp [prologueLength, afterBlr]
    omega
  · rw [hl.offset_eq (Nat.le_refl _), hl.restrictedExit_eq]
  · rw [hl.laidOut.words, hl.laidOut.executiveExit, hl.laidOut.executiveWords, totalWords]

end Loaded

/-! ### The words of an instruction, one by one -/

/-- Word `j` of the instruction `i` at `pc`. -/
inductive BodyWord (prog : List BpfInsn) (c : Compiler) (pc : Nat) (i : BpfInsn) (j : Nat) :
    Word → Prop
  | plain (w : Word) : w.plain = true → (∀ r ∈ [15, 17, a64Lr], r ∉ w.writes) →
      (i.code = .jmpCall → j = 2 → w = .capMov 13 a64Lr) → BodyWord prog c pc i j w
  | branch (src : Nat) (offset : Int) (target : Nat) : i.code ≠ .jmpCall →
      target < prog.length → ((c.offset pc + j : Nat) : Int) + offset = c.offset target →
      BodyWord prog c pc i j (.cbz src offset)
  | exit (offset : Int) : ((c.offset pc + j : Nat) : Int) + offset = c.restrictedExit →
      BodyWord prog c pc i j (.b offset)
  | call : i.code = .jmpCall → j = 3 → BodyWord prog c pc i j (.capBlrs 17)

/-- The words of the call template. -/
theorem bodyWord_call {pc j : Nat} {i : BpfInsn} (hcode : i.code = .jmpCall) (hj : j < 5)
    (index : Nat) {x : Template}
    (hx : [fun _ => .movz 4 (c.operation pc) 0, fun _ => .movz 5 pc 0, fun _ => .capMov 13 30,
      fun _ => .capBlrs 17, fun _ => .capMov 7 0][j]? = some x) :
    BodyWord prog c pc i j (x index) := by
  obtain rfl | rfl | rfl | rfl | rfl : j = 0 ∨ j = 1 ∨ j = 2 ∨ j = 3 ∨ j = 4 := by omega
  · obtain rfl := Option.some.inj hx
    exact .plain _ rfl (by dsimp only [Word.writes]; decide) (fun _ h => absurd h (by decide))
  · obtain rfl := Option.some.inj hx
    exact .plain _ rfl (by dsimp only [Word.writes]; decide) (fun _ h => absurd h (by decide))
  · obtain rfl := Option.some.inj hx
    exact .plain _ rfl (by dsimp only [Word.writes]; decide) (fun _ _ => rfl)
  · obtain rfl := Option.some.inj hx
    exact .call hcode rfl
  · obtain rfl := Option.some.inj hx
    exact .plain _ rfl (by dsimp only [Word.writes]; decide) (fun _ h => absurd h (by decide))

theorem Loaded.bodyWord (hl : Loaded t k prog a c e) {pc j : Nat} {i : BpfInsn}
    (hi : prog[pc]? = some i) (hj : j < width i) :
    BodyWord prog c pc i j (e.image (c.offset pc + j)) := by
  obtain ⟨ts, hts, hlen, _, hholds⟩ := hl.holds_word hi
  have hget : ts[j]? = some ts[j] := List.getElem?_eq_getElem (by omega)
  have hword := hholds j _ hget
  have hstraight : straight i → i.code ≠ .jmpCall →
      BodyWord prog c pc i j (e.image (c.offset pc + j)) := by
    intro hs hcall
    obtain ⟨hplain, hspare⟩ :=
      templates_straight hs hts (List.mem_of_getElem? hget) (c.offset pc + j)
    rw [← hword] at hplain hspare
    have hregs : ∀ r ∈ [15, 17, a64Lr], r ∈ envelopeRegs ++ exitRegs := by decide
    exact .plain _ hplain (fun r hr => hspare r (hregs r hr)) (fun hcode => absurd hcode hcall)
  unfold width at hj
  cases hcode : i.code with
  | alu64MovX => exact hstraight (.inl hcode) (by rw [hcode]; decide)
  | alu64MovK => exact hstraight (.inr (.inl hcode)) (by rw [hcode]; decide)
  | stxMemDw => exact hstraight (.inr (.inr (.inl hcode))) (by rw [hcode]; decide)
  | ldxMemDw => exact hstraight (.inr (.inr (.inr hcode))) (by rw [hcode]; decide)
  | jmpJeqK =>
    obtain ⟨offset, hcbz, htarget, _, hi'⟩ := hl.restrictedWords.branch pc i hi hcode
    rw [hcode] at hj
    obtain rfl : j = 0 := Nat.lt_one_iff.mp hj
    rw [Nat.add_zero, hcbz]
    refine .branch _ offset _ ?_ (List.getElem?_eq_some_iff.mp hi').1 htarget
    rw [hcode]
    decide
  | jmpCall =>
    rw [insnTemplates, hcode] at hts
    obtain rfl := Option.some.inj hts
    rw [hcode] at hj
    rw [hword]
    exact bodyWord_call hcode hj _ hget
  | jmpExit =>
    obtain ⟨offset, hb, htarget⟩ := hl.restrictedWords.exit pc i hi hcode
    rw [hcode] at hj
    obtain rfl : j = 0 := Nat.lt_one_iff.mp hj
    rw [Nat.add_zero, hb]
    exact .exit offset htarget
  | other code =>
    rw [hcode] at hj
    exact absurd hj (Nat.not_lt_zero j)

end Cbpf.Jit
