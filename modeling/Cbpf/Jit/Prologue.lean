import Cbpf.Jit.Epilogue

/-!
# The executive part of the prologue

Up to the call of `cbpf_enter` the prologue saves what the exit restores and passes the ranges of the
two code intervals. When the call returns, the entry has failed: the exit runs with result 0.
-/

namespace Cbpf.Jit

open Cheri

namespace Executive

variable {p : Morello} {t : Target} (m : Executive)

/-! ### Pushes -/

/-- Pairs that are pushed one after the other end up below each other. -/
theorem execute_pushes (pairs : List (Nat × Nat)) (hlen : pairs.length < 2 ^ 32) :
    ∃ m', execute p m (pairs.map fun pair _ => .push pair.1 pair.2) = some m' ∧
      m'.c = m.c ∧ m'.sp = m.sp - BitVec.ofNat 64 (16 * pairs.length) ∧
      (∀ j pair, pairs[j]? = some pair → m'.mem (m.sp - BitVec.ofNat 64 (16 * (j + 1))) =
        .ints (m.x pair.1) (m.x pair.2)) ∧
      ∀ a, (∀ j < pairs.length, a ≠ m.sp - BitVec.ofNat 64 (16 * (j + 1))) →
        m'.mem a = m.mem a := by
  induction pairs generalizing m with
  | nil => exact ⟨m, rfl, rfl, (BitVec.sub_zero _).symm, fun _ _ h => (by cases h), fun _ _ => rfl⟩
  | cons pair pairs ih =>
    let m₁ : Executive := { m with
      pc := m.pc + 1
      sp := m.sp - 16
      mem := Function.update m.mem (m.sp - 16) (.ints (m.x pair.1) (m.x pair.2)) }
    rw [List.length_cons] at hlen
    obtain ⟨m', hrun, hc, hsp, hpushed, hkept⟩ := ih m₁ (by omega)
    have hbelow : ∀ j, m₁.sp - BitVec.ofNat 64 (16 * (j + 1)) =
        m.sp - BitVec.ofNat 64 (16 * (j + 1 + 1)) := by
      intro j
      change m.sp - 16 - _ = _
      bv_omega
    have hfirst : ∀ j < pairs.length, m.sp - 16 ≠ m.sp - BitVec.ofNat 64 (16 * (j + 1 + 1)) := by
      intro j hj
      bv_omega
    refine ⟨m', hrun, hc, ?_, ?_, ?_⟩
    · rw [hsp]
      change m.sp - 16 - _ = _
      rw [List.length_cons]
      bv_omega
    · intro j pair' hj
      cases j with
      | zero =>
        obtain rfl := Option.some.inj hj
        rw [hkept _ fun j hj => by rw [hbelow]; exact hfirst j hj]
        exact Function.update_self _ _ _
      | succ j =>
        rw [← hbelow]
        exact hpushed j pair' hj
    · intro a ha
      rw [hkept a fun j hj => by rw [hbelow]; exact ha (j + 1) (Nat.succ_lt_succ hj)]
      exact Function.update_of_ne (ha 0 (Nat.succ_pos _)) _ _

/-- The four words of an immediate. -/
theorem execute_immediate (reg : Nat) (hreg : reg ≠ a64Sp) (value : BitVec 64) :
    execute p m (immediate reg value) = some { m with
      pc := m.pc + 4
      c := Function.update m.c reg (.ofInt value.toNat) } := by
  have hx : ∀ (m' : Executive) v, (m'.setX reg v).x reg = v := by
    intro m' v
    simp [x, hreg, setX, setC]
  change some (((((m.setX reg (value.toNat % 2 ^ 16 * 2 ^ 0)).setX reg _).setX reg _).setX reg _))
    = _
  simp only [hx]
  rw [insert16_pieces value.isLt]
  simp [setX, setC, Function.update_idem]

/-! ### The stretches of the prologue -/

/-- The words before the frame is built. -/
def headTemplates (t : Target) : List Template :=
  (if t.bti then [fun _ => .btiJc] else [] : List Template) ++
  ([fun _ => .mov 9 a64Lr, fun _ => .nop] : List Template) ++
  (if t.ptrAuth then [fun _ => .paciasp] else [] : List Template)

/-- The link register as it is saved. -/
def signedLr (p : Morello) (t : Target) (m : Executive) : Nat :=
  if t.ptrAuth then p.sign (m.x a64Lr) m.sp else m.x a64Lr

theorem execute_head (t : Target) : ∃ m', execute p m (headTemplates t) = some m' ∧
    m'.sp = m.sp ∧ m'.mem = m.mem ∧ m'.x 9 = m.x a64Lr ∧ m'.x a64Lr = signedLr p t m ∧
    ∀ r, r ≠ 9 → r ≠ a64Lr → m'.c r = m.c r := by
  obtain ⟨bti, ptrAuth, prog, cbpfEnter, encodes⟩ := t
  cases bti <;> cases ptrAuth <;> refine ⟨_, rfl, rfl, rfl, ?_, ?_, fun r h9 h30 => ?_⟩ <;>
    simp_all [setXSp, setX, setC, xSp, x, signedLr, a64Sp, a64Lr]

/-- The pairs that the prologue pushes below the frame record. -/
def savedPairs : List (Nat × Nat) :=
  [(19, 20), (21, 22), (23, 24), (25, 26), (27, 28), (a64Sp, a64Sp)]

/-- The words that build the frame. -/
def saveTemplates : List Template :=
  ([fun _ => .push a64Fp a64Lr, fun _ => .mov a64Fp a64Sp] : List Template) ++
  (savedPairs.map fun pair _ => .push pair.1 pair.2 : List Template) ++
  [fun _ => .subI a64Sp a64Sp 16]

theorem execute_save : ∃ m', execute p m saveTemplates = some m' ∧
    m'.sp = m.sp - 128 ∧ m'.frame 1 = .ints 0 0 ∧
    (∀ r, 19 ≤ r → r ≤ 28 → m'.saved p r = m.x r) ∧
    m'.frame 7 = .ints (m.x a64Fp) (m.x a64Lr) ∧ m'.x 9 = m.x 9 := by
  let m₁ : Executive := { m with
    pc := m.pc + 2
    sp := m.sp - 16
    c := Function.update m.c a64Fp (.ofInt (m.sp - 16).toNat)
    mem := Function.update m.mem (m.sp - 16) (.ints (m.x a64Fp) (m.x a64Lr)) }
  obtain ⟨m₂, h₂, hc₂, hsp₂, hpushed, hkept⟩ := execute_pushes (p := p) m₁ savedPairs (by decide)
  rw [show savedPairs.length = 6 from rfl] at hsp₂
  have hx : ∀ r ≠ a64Fp, m₁.x r = m.x r := by
    intro r hr
    simp [x, m₁, hr]
  have hsp : m₂.sp - 16 = m.sp - 128 := by
    rw [hsp₂, show m₁.sp = m.sp - 16 from rfl]
    bv_omega
  have hpair : ∀ j < 5, savedPairs[j]? = some (19 + 2 * j, 20 + 2 * j) := by decide
  have hframe : ∀ j < 6, ∀ pair, savedPairs[j]? = some pair →
      m₂.mem (m₂.sp - 16 + BitVec.ofNat 64 (16 * (6 - j))) = .ints (m₁.x pair.1) (m₁.x pair.2) := by
    intro j hj pair hget
    have haddr : m₂.sp - 16 + BitVec.ofNat 64 (16 * (6 - j)) =
        m₁.sp - BitVec.ofNat 64 (16 * (j + 1)) := by
      rw [hsp₂]
      bv_omega
    rw [haddr, hpushed j pair hget]
  refine ⟨{ m₂ with pc := m₂.pc + 1, sp := m₂.sp - 16 }, ?_, hsp, ?_, fun r hlow hhigh => ?_, ?_, ?_⟩
  · have h₁ : execute p m [fun _ => .push a64Fp a64Lr, fun _ => .mov a64Fp a64Sp] = some m₁ := rfl
    refine execute_trans (execute_trans h₁ h₂) ?_
    rw [execute_cons, apply_subSp _ (by decide)]
    rfl
  · have hzero : m₁.x a64Sp = 0 := if_pos rfl
    have hgranule := hframe 5 (by decide) (a64Sp, a64Sp) rfl
    dsimp only at hgranule
    rw [hzero, show 6 - 5 = 1 from rfl] at hgranule
    exact hgranule
  · obtain ⟨j, hj, hr⟩ : ∃ j < 5, r = 19 + 2 * j ∨ r = 20 + 2 * j :=
      ⟨(r - 19) / 2, by omega, by omega⟩
    have hgranule := hframe j (by omega) _ (hpair j hj)
    have hindex : 16 - (r + 1) / 2 = 6 - j := by omega
    unfold saved frame
    dsimp only
    rw [hindex, hgranule, hx _ (by unfold a64Fp; omega), hx _ (by unfold a64Fp; omega)]
    rcases hr with rfl | rfl
    · rw [if_pos (by omega)]
      rfl
    · rw [if_neg (by omega)]
      rfl
  · unfold frame
    dsimp only
    have haddr : m₂.sp - 16 + BitVec.ofNat 64 (16 * 7) = m.sp - 16 := by
      rw [hsp]
      bv_omega
    rw [haddr, hkept]
    · exact Function.update_self _ _ _
    · intro j hj
      change j < 6 at hj
      change m.sp - 16 ≠ m.sp - 16 - _
      bv_omega
  · change m₂.x 9 = _
    rw [← hx 9 (by decide), x, x, hc₂]

/-- The words that pass the arguments of `cbpf_enter`. -/
def argumentTemplates (t : Target) (c : Compiler) : List Template :=
  ([fun _ => .mov 0 a64Sp,
    fun _ => .movz 1 16 0,
    fun index => .adr 2 (((c.executiveExit : Int) - index) * 4),
    fun _ => .movz 3 (c.executiveWords * 4) 0,
    fun _ => .mov 4 9] : List Template) ++
  immediate 5 t.prog ++ immediate 10 t.cbpfEnter

/-- The arguments: the stack base and size, the range of the executive exit, the return address of
the caller and the program; and the function to call. -/
structure Arguments (p : Morello) (t : Target) (c : Compiler) (outer : Nat) (m : Executive) :
    Prop where
  stackBase : m.x 0 = m.sp.toNat
  stackSize : m.x 1 = 16
  retAddr : m.x 2 = (addressOf p c.executiveExit).toNat
  executiveReturnSize : m.x 3 = c.executiveWords * 4
  outerReturnAddr : m.x 4 = outer
  progCookie : m.x 5 = t.prog.toNat
  function : m.x 10 = t.cbpfEnter.toNat

theorem execute_arguments (t : Target) (c : Compiler) : ∃ m',
    execute p m (argumentTemplates t c) = some m' ∧ m'.sp = m.sp ∧ m'.mem = m.mem ∧
      Arguments p t c (m.x 9) m' := by
  have hadr : p.image + BitVec.ofInt 64 (4 * ((m.pc + 1 + 1 : Nat) : Int) +
      ((c.executiveExit : Int) - (m.pc + 1 + 1 : Nat)) * 4) = addressOf p c.executiveExit := by
    rw [show 4 * ((m.pc + 1 + 1 : Nat) : Int) +
      ((c.executiveExit : Int) - (m.pc + 1 + 1 : Nat)) * 4 = ((4 * c.executiveExit : Nat) : Int) by
        push_cast
        ring]
    rfl
  have h₁ : execute p m
      [fun _ => .mov 0 a64Sp,
        fun _ => .movz 1 16 0,
        fun index => .adr 2 (((c.executiveExit : Int) - index) * 4),
        fun _ => .movz 3 (c.executiveWords * 4) 0,
        fun _ => .mov 4 9] = some _ := rfl
  have h₂ := execute_trans (execute_trans h₁ (execute_immediate _ 5 (by decide) t.prog))
    (execute_immediate _ 10 (by decide) t.cbpfEnter)
  refine ⟨_, h₂, rfl, rfl, ?_⟩
  constructor
  · simp [x, setXSp, setX, setC, xSp, a64Sp]
  · simp [x, setXSp, setX, setC, xSp, a64Sp]
  · rw [← hadr]
    simp [x, setXSp, setX, setC, xSp, a64Sp]
  · simp [x, setXSp, setX, setC, xSp, a64Sp]
  · simp [x, setXSp, setX, setC, xSp, a64Sp]
  · simp [x, setXSp, setX, setC, xSp, a64Sp]
  · simp [x, setXSp, setX, setC, xSp, a64Sp]

/-! ### The call and its failure -/

/-- The words before the call of `cbpf_enter`. -/
def entryTemplates (t : Target) (c : Compiler) : List Template :=
  headTemplates t ++ saveTemplates ++ argumentTemplates t c

/-- The words after the call that only a failed entry executes to the end. -/
def rejectTemplates (c : Compiler) : List Template :=
  [fun _ => .cbz 0 3, fun _ => .movz 7 0 0, fun index => .b ((c.executiveExit : Int) - index)]

theorem prologueTemplates_eq (t : Target) (c : Compiler) : prologueTemplates t c =
    entryTemplates t c ++ ([fun _ => .blr 10] : List Template) ++ rejectTemplates c ++
      clearRegisters true := by
  obtain ⟨bti, ptrAuth, prog, cbpfEnter, encodes⟩ := t
  cases bti <;> cases ptrAuth <;> rfl

/-- The index of the word after the call. -/
def afterBlr (t : Target) : Nat := 25 + t.bti.toNat + t.ptrAuth.toNat

theorem length_entryTemplates (t : Target) (c : Compiler) :
    (entryTemplates t c).length + 1 = afterBlr t := by
  obtain ⟨bti, ptrAuth, prog, cbpfEnter, encodes⟩ := t
  cases bti <;> cases ptrAuth <;> rfl

/-- `m` has the frame that the prologue builds on the stack of `m₀`. -/
structure Saves (p : Morello) (t : Target) (m₀ m : Executive) : Prop where
  sp : m.sp = m₀.sp - 128
  saved : ∀ r, 19 ≤ r → r ≤ 28 → m.saved p r = m₀.x r
  record : m.frame 7 = .ints (m₀.x a64Fp) (signedLr p t m₀)

variable {m} {m₀ m' : Executive} {c : Compiler} {image : Nat → Word}

/-- The prologue up to the call. -/
theorem execute_entry (m₀ : Executive) (t : Target) (c : Compiler) : ∃ m,
    execute p m₀ (entryTemplates t c) = some m ∧ Saves p t m₀ m ∧ m.frame 1 = .ints 0 0 ∧
      Arguments p t c (m₀.x a64Lr) m := by
  obtain ⟨m₁, h₁, hsp₁, hmem₁, h9₁, hlr₁, hkept₁⟩ := execute_head (p := p) m₀ t
  obtain ⟨m₂, h₂, hsp₂, hslot₂, hsaved₂, hrecord₂, h9₂⟩ := execute_save (p := p) m₁
  obtain ⟨m₃, h₃, hsp₃, hmem₃, hargs⟩ := execute_arguments (p := p) m₂ t c
  have hx : ∀ r, r ≠ 9 → r ≠ a64Lr → m₁.x r = m₀.x r := fun r h9 h30 => by
    rw [x, x, hkept₁ r h9 h30]
  have hframe : ∀ k, m₃.frame k = m₂.frame k := fun k => by rw [frame, frame, hsp₃, hmem₃]
  refine ⟨m₃, execute_trans (execute_trans h₁ h₂) h₃, ⟨?_, fun r hlow hhigh => ?_, ?_⟩, ?_, ?_⟩
  · rw [hsp₃, hsp₂, hsp₁]
  · rw [← hx r (by omega) (by unfold a64Lr; omega), ← hsaved₂ r hlow hhigh, saved, saved, hframe]
  · rw [hframe, hrecord₂, hx a64Fp (by decide) (by decide), hlr₁]
  · rw [hframe, hslot₂]
  · rw [h9₂, h9₁] at hargs
    exact hargs

/-- From the first word to the call of `cbpf_enter`. -/
theorem run_entry (hholds : Holds image 0 (prologueTemplates t c)) (hpc : m₀.pc = 0) : ∃ m,
    run p image (afterBlr t) m₀ = .call t.cbpfEnter.toNat m ∧ Saves p t m₀ m ∧
      m.frame 1 = .ints 0 0 ∧ Arguments p t c (m₀.x a64Lr) m ∧
      m.x a64Lr = (addressOf p (afterBlr t)).toNat := by
  obtain ⟨m, hexecute, hsaves, hslot, hargs⟩ := execute_entry (p := p) m₀ t c
  rw [prologueTemplates_eq] at hholds
  obtain ⟨hentry, hblr⟩ := hholds.of_append.1.of_append.1.of_append
  have hpc' : m.pc = (entryTemplates t c).length := by rw [execute_pc hexecute, hpc, Nat.zero_add]
  have hword : image m.pc = .blr 10 := by
    rw [hpc', ← Nat.zero_add (entryTemplates t c).length]
    exact hblr 0 _ rfl
  have hstep : step p image m = .call t.cbpfEnter.toNat
      (m.setX a64Lr (addressOf p (m.pc + 1)).toNat) := by
    rw [step, hword, ← hargs.function]
    rfl
  have hkept : ∀ r, r ≠ a64Lr → (m.setX a64Lr (addressOf p (m.pc + 1)).toNat).x r = m.x r := by
    intro r hr
    simp [x, setX, setC, hr]
  refine ⟨m.setX a64Lr (addressOf p (m.pc + 1)).toNat, ?_, ⟨hsaves.sp, hsaves.saved, hsaves.record⟩,
    hslot, ?_, ?_⟩
  · rw [← length_entryTemplates t c, run_execute 1 (hpc ▸ hentry) hexecute, run, hstep]
  · constructor
    · rw [hkept 0 (by decide)]
      exact hargs.stackBase
    · rw [hkept 1 (by decide)]
      exact hargs.stackSize
    · rw [hkept 2 (by decide)]
      exact hargs.retAddr
    · rw [hkept 3 (by decide)]
      exact hargs.executiveReturnSize
    · rw [hkept 4 (by decide)]
      exact hargs.outerReturnAddr
    · rw [hkept 5 (by decide)]
      exact hargs.progCookie
    · rw [hkept 10 (by decide)]
      exact hargs.function
  · rw [← length_entryTemplates t c, hpc']
    simp [x, setX, setC, a64Lr, a64Sp]

/-- After a failed entry: result 0, and on to the executive exit. -/
theorem run_reject (hholds : Holds image 0 (prologueTemplates t c)) (hpc : m.pc = afterBlr t)
    (hx0 : m.x 0 ≠ 0) : ∃ m', (∀ n, run p image (n + 3) m = run p image n m') ∧
      m'.pc = c.executiveExit ∧ m'.sp = m.sp ∧ m'.mem = m.mem ∧ m'.x 7 = 0 := by
  rw [prologueTemplates_eq] at hholds
  have hreject := hholds.of_append.1.of_append.2
  rw [List.length_append, List.length_singleton, Nat.zero_add, length_entryTemplates] at hreject
  have hcbz : step p image m = .next { m with pc := m.pc + 1 } := by
    rw [step, hpc, show image (afterBlr t) = _ from hreject 0 _ rfl]
    exact if_neg hx0
  let m₁ : Executive := { m with pc := m.pc + 1 }
  have hmovz : step p image m₁ = .next (m₁.setX 7 (0 * 2 ^ 0)) := by
    rw [step, show m₁.pc = afterBlr t + 1 from congrArg (· + 1) hpc,
      show image (afterBlr t + 1) = _ from hreject 1 _ rfl]
    rfl
  have hb : step p image (m₁.setX 7 (0 * 2 ^ 0)) =
      .next { m₁.setX 7 (0 * 2 ^ 0) with pc := c.executiveExit } := by
    rw [step, show (m₁.setX 7 (0 * 2 ^ 0)).pc = afterBlr t + 2 from congrArg (· + 2) hpc,
      show image (afterBlr t + 2) = _ from hreject 2 _ rfl]
    have hbranch : ((m₁.setX 7 (0 * 2 ^ 0)).pc : Int) +
        ((c.executiveExit : Int) - (afterBlr t + 2 : Nat)) = c.executiveExit := by
      rw [show (m₁.setX 7 (0 * 2 ^ 0)).pc = afterBlr t + 2 from congrArg (· + 2) hpc]
      omega
    change branch _ _ = _
    rw [branch, hbranch, if_neg (by omega)]
    rfl
  refine ⟨{ m₁.setX 7 (0 * 2 ^ 0) with pc := c.executiveExit }, fun n => ?_, rfl, rfl, rfl, ?_⟩
  · rw [run_next _ hcbz, run_next _ hmovz, run_next _ hb]
  · simp [x, setX, setC, a64Sp]

end Executive

end Cbpf.Jit
