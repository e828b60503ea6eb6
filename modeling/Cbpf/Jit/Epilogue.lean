import Cbpf.Jit.Executive

/-!
# The executive exit

The exit zeroes the sidecar, keeps only the integer in x7, restores what the prologue has saved and
returns. What is left in the registers is a function of x7, the stack pointer and the saved frame.
-/

namespace Cbpf.Jit

open Cheri

namespace Executive

variable (p : Morello) (t : Target)

/-- The `k`-th granule above the stack pointer: the sidecar, the sealed caller slot, the pairs from
x27 and x28 to x19 and x20, and the frame record. -/
def frame (m : Executive) (k : Nat) : Granule := m.mem (m.sp + BitVec.ofNat 64 (16 * k))

/-- The capability in the sealed caller slot. -/
def callerSlot (m : Executive) : Capability := (m.frame 1).load p

/-- The saved value of x19 to x28. -/
def saved (m : Executive) (r : Nat) : Nat :=
  if r % 2 = 1 then (m.frame (16 - (r + 1) / 2)).lo else (m.frame (16 - (r + 1) / 2)).hi p

/-- The link register that the exit restores. -/
def savedLr (m : Executive) : Nat :=
  if t.ptrAuth then p.authenticate ((m.frame 7).hi p) (m.sp + 128) else (m.frame 7).hi p

/-- The registers that the exit leaves. -/
def scrubbedReg (m : Executive) (r : Nat) : Capability :=
  if r = 0 ∨ r = 7 then .ofInt (m.x 7)
  else if r = 10 then .ofInt (m.callerSlot p).tag.toNat
  else if r = 16 then m.callerSlot p
  else if r = a64Fp then .ofInt (m.frame 7).lo
  else if r = a64Lr then .ofInt (m.savedLr p t)
  else if 19 ≤ r then .ofInt (m.saved p r)
  else .ofInt 0

/-- What the exit leaves of `m` when it returns. -/
structure Scrubbed (m m' : Executive) : Prop where
  c : ∀ r ≤ 30, m'.c r = m.scrubbedReg p t r
  sp : m'.sp = m.sp + 128
  mem : m'.mem = Function.update m.mem m.sp (.ints 0 0)

/-- The executive exit up to its test of the caller slot. -/
def scrubTemplates : List Template :=
  ([fun _ => .str64I a64Sp a64Sp 0,
    fun _ => .str64I a64Sp a64Sp 8,
    fun _ => .mov 7 7] : List Template) ++
  clearRegisters false ++
  ([fun _ => .addI a64Sp a64Sp 16,
    fun _ => .capLdrC16Sp,
    fun _ => .addI a64Sp a64Sp 16] : List Template) ++
  ([27, 25, 23, 21, 19].map fun reg _ => .pop reg (reg + 1) : List Template) ++
  ([fun _ => .pop a64Fp a64Lr,
    fun _ => .mov 0 7] : List Template) ++
  (if t.ptrAuth then [fun _ => .autiasp] else [] : List Template) ++
  [fun _ => .capGctag 10 16]

theorem executiveTemplates_eq : executiveTemplates t = scrubTemplates t ++
    ([fun _ => .cbz 10 2, fun _ => .capRetrC16, fun _ => .ret a64Lr] : List Template) := by
  simp [executiveTemplates, scrubTemplates]

variable {p t} (m : Executive)

/-! ### The stretches of the exit -/

theorem execute_sidecar : ∃ m', execute p m
    [fun _ => .str64I a64Sp a64Sp 0, fun _ => .str64I a64Sp a64Sp 8, fun _ => .mov 7 7] = some m' ∧
    m'.sp = m.sp ∧ m'.mem = Function.update m.mem m.sp (.ints 0 0) ∧ m'.c 7 = .ofInt (m.x 7) := by
  refine ⟨_, rfl, rfl, ?_, ?_⟩
  · simp [store64, store, setXSp, setX, setC, x, a64Sp, Granule.lo, Function.update_idem]
  · simp [store64, store, setXSp, setX, setC, xSp, x, a64Sp]

theorem execute_clearAll : ∃ m', execute p m (clearRegisters false) = some m' ∧
    m'.sp = m.sp ∧ m'.mem = m.mem ∧ m'.c 7 = m.c 7 ∧ ∀ r < 30, r ≠ 7 → m'.c r = .ofInt 0 := by
  refine ⟨_, execute_clear _, rfl, rfl, rfl, fun r hr h7 => ?_⟩
  exact if_pos (by simp [hr, h7])

theorem execute_caller : ∃ m', execute p m
    [fun _ => .addI a64Sp a64Sp 16, fun _ => .capLdrC16Sp, fun _ => .addI a64Sp a64Sp 16] =
      some m' ∧
    m'.sp = m.sp + 32 ∧ m'.mem = m.mem ∧ m'.c 16 = (m.mem (m.sp + 16)).load p ∧
    ∀ r ≠ 16, m'.c r = m.c r := by
  refine ⟨{ m with
    pc := m.pc + 3
    c := Function.update m.c 16 ((m.mem (m.sp + 16)).load p)
    sp := m.sp + 16 + 16 }, ?_, ?_, rfl, ?_, fun r hr => Function.update_of_ne hr _ _⟩
  · rw [execute_cons, apply_addSp]
    change execute p _ [fun _ => .addI a64Sp a64Sp 16] = _
    rw [execute_cons, apply_addSp]
    rfl
  · change m.sp + 16 + 16 = _
    rw [BitVec.add_assoc]
    rfl
  · change Function.update m.c 16 ((m.mem (m.sp + 16)).load p) 16 = _
    rw [Function.update_self]

/-- The pops put every saved register back and leave the others alone. -/
theorem execute_restore : ∃ m', execute p m
    (([27, 25, 23, 21, 19].map fun reg _ => .pop reg (reg + 1) : List Template) ++
      ([fun _ => .pop a64Fp a64Lr, fun _ => .mov 0 7] : List Template)) = some m' ∧
    m'.sp = m.sp + 96 ∧ m'.mem = m.mem ∧
    ∀ r ≤ 30, m'.c r = if r = 0 then .ofInt (m.x 7)
      else if r = a64Fp then .ofInt (m.mem (m.sp + 80)).lo
      else if r = a64Lr then .ofInt ((m.mem (m.sp + 80)).hi p)
      else if 19 ≤ r then .ofInt (if r % 2 = 1 then
          (m.mem (m.sp + BitVec.ofNat 64 (16 * (14 - (r + 1) / 2)))).lo
        else (m.mem (m.sp + BitVec.ofNat 64 (16 * (14 - (r + 1) / 2)))).hi p)
      else m.c r := by
  refine ⟨_, rfl, ?_, rfl, fun r hr => ?_⟩
  · change m.sp + 16 + 16 + 16 + 16 + 16 + 16 = _
    simp [BitVec.add_assoc]
  · interval_cases r <;>
      simp [setXSp, setX, setC, xSp, a64Sp, a64Fp, a64Lr, x, BitVec.add_assoc]

/-- Authentication, where it is configured. -/
theorem execute_authenticate : ∃ m', execute p m
    (if t.ptrAuth then [fun _ => .autiasp] else [] : List Template) = some m' ∧
    m'.sp = m.sp ∧ m'.mem = m.mem ∧ ∀ r, m'.c r = if r = a64Lr then
      (if t.ptrAuth then .ofInt (p.authenticate (m.x a64Lr) m.sp) else m.c r) else m.c r := by
  cases t.ptrAuth with
  | false => exact ⟨m, rfl, rfl, rfl, fun r => by simp⟩
  | true =>
    refine ⟨_, rfl, rfl, rfl, fun r => ?_⟩
    change Function.update m.c a64Lr _ r = _
    by_cases h : r = a64Lr
    · rw [h, Function.update_self, if_pos rfl, if_pos rfl]
    · rw [Function.update_of_ne h, if_neg h]

/-- Zeroing the sidecar leaves the frame alone. -/
theorem frame_of_update {k : Nat} (hpos : 0 < k) (hk : k < 8) (g : Granule) :
    Function.update m.mem m.sp g (m.sp + BitVec.ofNat 64 (16 * k)) = m.frame k := by
  have hne : m.sp + BitVec.ofNat 64 (16 * k) ≠ m.sp := by bv_omega
  exact Function.update_of_ne hne _ _

/-- The first half of the exit: the sidecar is zeroed, x7 becomes an integer, c16 is the caller slot,
and everything else is cleared. -/
theorem execute_cleared : ∃ m', execute p m
    (([fun _ => .str64I a64Sp a64Sp 0, fun _ => .str64I a64Sp a64Sp 8, fun _ => .mov 7 7] :
      List Template) ++ clearRegisters false ++
      ([fun _ => .addI a64Sp a64Sp 16, fun _ => .capLdrC16Sp, fun _ => .addI a64Sp a64Sp 16] :
        List Template)) = some m' ∧
    m'.sp = m.sp + 32 ∧ m'.mem = Function.update m.mem m.sp (.ints 0 0) ∧
    m'.c 7 = .ofInt (m.x 7) ∧ m'.c 16 = m.callerSlot p ∧
    ∀ r < 30, r ≠ 7 → r ≠ 16 → m'.c r = .ofInt 0 := by
  obtain ⟨m₁, h₁, hsp₁, hmem₁, hc₁⟩ := execute_sidecar (p := p) m
  obtain ⟨m₂, h₂, hsp₂, hmem₂, hkept₂, hc₂⟩ := execute_clearAll (p := p) m₁
  obtain ⟨m₃, h₃, hsp₃, hmem₃, hslot₃, hc₃⟩ := execute_caller (p := p) m₂
  refine ⟨m₃, execute_trans (execute_trans h₁ h₂) h₃, ?_, ?_, ?_, ?_, fun r hr h7 h16 => ?_⟩
  · rw [hsp₃, hsp₂, hsp₁]
  · rw [hmem₃, hmem₂, hmem₁]
  · rw [hc₃ 7 (by decide), hkept₂, hc₁]
  · rw [hslot₃, hmem₂, hmem₁, hsp₂, hsp₁]
    exact congrArg (Granule.load p) (frame_of_update m (k := 1) (by decide) (by decide) _)
  · rw [hc₃ r h16, hc₂ r hr h7]

/-- The exit up to its test of the caller slot. -/
theorem execute_scrub : ∃ m', execute p m (scrubTemplates t) = some m' ∧ Scrubbed p t m m' := by
  obtain ⟨m₁, h₁, hsp₁, hmem₁, hc7, hc16, hcleared⟩ := execute_cleared (p := p) m
  obtain ⟨m₂, h₂, hsp₂, hmem₂, hc₂⟩ := execute_restore (p := p) m₁
  obtain ⟨m₃, h₃, hsp₃, hmem₃, hc₃⟩ := execute_authenticate (p := p) (t := t) m₂
  have h₄ : execute p m₃ [fun _ => .capGctag 10 16] = some (m₃.setX 10 (m₃.c 16).tag.toNat) := rfl
  -- what the pops read is the frame of `m`
  have hframe : ∀ k < 6, m₁.mem (m₁.sp + BitVec.ofNat 64 (16 * k)) = m.frame (k + 2) := by
    intro k hk
    rw [← frame_of_update m (Nat.succ_pos (k + 1)) (by omega) (.ints 0 0), hmem₁, hsp₁]
    congr 1
    bv_omega
  have hsp : m₂.sp = m.sp + 128 := by
    rw [hsp₂, hsp₁, BitVec.add_assoc]
    rfl
  have hx7 : m₁.x 7 = m.x 7 := by
    rw [x, hc7]
    rfl
  have hrecord : m₁.mem (m₁.sp + 80) = m.frame 7 := hframe 5 (by decide)
  have hc : ∀ r ≤ 30, m₂.c r = if r = 0 then .ofInt (m.x 7)
      else if r = a64Fp then .ofInt (m.frame 7).lo
      else if r = a64Lr then .ofInt ((m.frame 7).hi p)
      else if 19 ≤ r then .ofInt (m.saved p r)
      else m₁.c r := by
    intro r hr
    rw [hc₂ r hr, hx7, hrecord]
    by_cases hfp : r = a64Fp
    · simp [hfp, a64Fp]
    by_cases hlr : r = a64Lr
    · simp [hlr, a64Lr, a64Fp]
    by_cases hlow : 19 ≤ r
    · have hindex : 14 - (r + 1) / 2 < 6 := by omega
      have hnext : 14 - (r + 1) / 2 + 2 = 16 - (r + 1) / 2 := by
        unfold a64Fp at hfp
        unfold a64Lr at hlr
        omega
      rw [hframe _ hindex, hnext]
      rfl
    · simp [hlow]
  refine ⟨m₃.setX 10 (m₃.c 16).tag.toNat, ?_, fun r hr => ?_, ?_, ?_⟩
  · have hpops := execute_trans h₁ h₂
    rw [← List.append_assoc] at hpops
    exact execute_trans (execute_trans hpops h₃) h₄
  · have hslot : m₃.c 16 = m.callerSlot p := by
      rw [hc₃, hc 16 (by decide), ← hc16]
      rfl
    have hlr : m₂.x a64Lr = (m.frame 7).hi p := by
      rw [x, hc a64Lr (by decide)]
      rfl
    change Function.update m₃.c 10 _ r = m.scrubbedReg p t r
    rw [hslot]
    unfold scrubbedReg
    by_cases h10 : r = 10
    · rw [h10, Function.update_self]
      rfl
    rw [Function.update_of_ne h10, hc₃ r, hlr, hsp, hc r hr, if_neg h10]
    by_cases h30 : r = a64Lr
    · subst h30
      unfold savedLr
      cases t.ptrAuth <;> rfl
    simp only [if_neg h30]
    by_cases h0 : r = 0
    · rw [if_pos h0, if_pos (.inl h0)]
    by_cases h7 : r = 7
    · subst h7
      exact hc7
    simp only [if_neg h0, if_neg (not_or.mpr ⟨h0, h7⟩)]
    by_cases h16 : r = 16
    · subst h16
      exact hc16
    rw [if_neg h16]
    split
    · rfl
    · split
      · rfl
      · exact hcleared r (by omega) h7 h16
  · change m₃.sp = _
    rw [hsp₃, hsp]
  · change m₃.mem = _
    rw [hmem₃, hmem₂, hmem₁]

end Executive

end Cbpf.Jit
