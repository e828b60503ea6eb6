import Cbpf.Jit.GatewayCode
import Cbpf.Jit.Prologue
import Cbpf.Jit.Simulation

/-!
# Exit scrubbing is non-interfering

However control comes to the executive exit, the state in which it returns is a function of the
integer in x7, the stack pointer and the frame above the sidecar: two runs that agree on these return
alike, whatever else the registers and the sidecar held.
-/

namespace Cbpf.Jit

open Cheri Kernel

namespace Executive

variable {p : Morello} {t : Target} {m m' : Executive} {image : Nat → Word}

/-- The end of the exit: through the sealed caller slot if it holds a capability, through the link
register otherwise. -/
def exitOutcome (p : Morello) (t : Target) (m m' : Executive) : Outcome :=
  if (m.callerSlot p).tag then .retr (m.callerSlot p) m' else .ret (m.savedLr p t) m'

/-- The number of words that an exit executes. -/
def exitLength (t : Target) : Nat := (scrubTemplates t).length + 2

/-- An exit from any state. -/
theorem run_exit (hholds : Holds image m.pc (executiveTemplates t)) :
    ∃ m', run p image (exitLength t) m = exitOutcome p t m m' ∧ Scrubbed p t m m' := by
  rw [executiveTemplates_eq] at hholds
  obtain ⟨hscrub, hend⟩ := hholds.of_append
  obtain ⟨m₁, hexecute, hscrubbed⟩ := execute_scrub (p := p) (t := t) m
  rw [← execute_pc hexecute] at hend
  have hcbz : image m₁.pc = .cbz 10 2 := hend 0 _ rfl
  have hretr : image (m₁.pc + 1) = .capRetrC16 := hend 1 _ rfl
  have hret : image (m₁.pc + 2) = .ret a64Lr := hend 2 _ rfl
  have hx10 : m₁.x 10 = (m.callerSlot p).tag.toNat := by
    rw [x, hscrubbed.c 10 (by decide)]
    rfl
  unfold exitOutcome
  cases htag : (m.callerSlot p).tag with
  | true =>
    -- the tag bit is not zero: on to the return through c16
    have hstep : step p image m₁ = .next { m₁ with pc := m₁.pc + 1 } := by
      rw [step, hcbz]
      exact if_neg (by rw [hx10, htag]; decide)
    have hlast : step p image { m₁ with pc := m₁.pc + 1 } =
        .retr (m.callerSlot p) { m₁ with pc := m₁.pc + 1 } := by
      rw [step, hretr, show m.callerSlot p = m₁.c 16 from (hscrubbed.c 16 (by decide)).symm]
      rfl
    refine ⟨{ m₁ with pc := m₁.pc + 1 }, ?_, hscrubbed.c, hscrubbed.sp, hscrubbed.mem⟩
    rw [exitLength, run_execute 2 hscrub hexecute, run_next 1 hstep, run, hlast]
    rfl
  | false =>
    have hstep : step p image m₁ = .next { m₁ with pc := m₁.pc + 2 } := by
      rw [step, hcbz]
      refine (if_pos (by rw [hx10, htag]; rfl)).trans ?_
      rw [branch, if_neg (by omega)]
      rfl
    have hlast : step p image { m₁ with pc := m₁.pc + 2 } =
        .ret (m.savedLr p t) { m₁ with pc := m₁.pc + 2 } := by
      have hlr : m₁.x a64Lr = m.savedLr p t := by
        rw [x, hscrubbed.c a64Lr (by decide)]
        rfl
      rw [step, hret, ← hlr]
      rfl
    refine ⟨{ m₁ with pc := m₁.pc + 2 }, ?_, hscrubbed.c, hscrubbed.sp, hscrubbed.mem⟩
    rw [exitLength, run_execute 2 hscrub hexecute, run_next 1 hstep, run, hlast]
    rfl

/-! ### What an exit depends on -/

/-- The same result, stack pointer and frame above the sidecar. -/
structure AgreeAtExit (m₁ m₂ : Executive) : Prop where
  x7 : m₁.x 7 = m₂.x 7
  sp : m₁.sp = m₂.sp
  frame : ∀ k, 0 < k → k < 8 → m₁.frame k = m₂.frame k

namespace AgreeAtExit

variable {m₁ m₂ : Executive} (h : AgreeAtExit m₁ m₂)
include h

theorem callerSlot_eq : m₁.callerSlot p = m₂.callerSlot p := by
  rw [callerSlot, callerSlot, h.frame 1 (by decide) (by decide)]

theorem savedLr_eq : m₁.savedLr p t = m₂.savedLr p t := by
  rw [savedLr, savedLr, h.frame 7 (by decide) (by decide), h.sp]

theorem scrubbedReg_eq {r : Nat} (hr : r ≤ 30) : m₁.scrubbedReg p t r = m₂.scrubbedReg p t r := by
  unfold scrubbedReg
  rw [h.x7, h.callerSlot_eq, h.savedLr_eq, h.frame 7 (by decide) (by decide)]
  by_cases hlow : 19 ≤ r
  · have hsaved : r ≠ a64Fp → r ≠ a64Lr → m₁.saved p r = m₂.saved p r := by
      intro hfp hlr
      unfold a64Fp at hfp
      unfold a64Lr at hlr
      rw [saved, saved, h.frame (16 - (r + 1) / 2) (by omega) (by omega)]
    split
    · rfl
    · split
      · rfl
      · split
        · rfl
        · split
          · rfl
          · rename_i hfp
            split
            · rfl
            · rename_i hlr
              rw [hsaved hfp hlr]
  · simp only [if_neg hlow]

end AgreeAtExit

/-- No register but c16 holds a capability after an exit, and c16 holds what the caller slot held. -/
theorem Scrubbed.tag_eq_false (h : Scrubbed p t m m') {r : Nat} (hr : r ≤ 30) (h16 : r ≠ 16) :
    (m'.c r).tag = false := by
  rw [h.c r hr]
  unfold scrubbedReg
  rw [if_neg h16]
  split
  · rfl
  · split
    · rfl
    · split
      · rfl
      · split
        · rfl
        · split <;> rfl

/-- On the frame of `m₀` an exit restores the registers, the stack pointer and the link register of
`m₀`. -/
theorem Scrubbed.restores {m₀ : Executive} (h : Scrubbed p t m m') (hsaves : Saves p t m₀ m) :
    m'.sp = m₀.sp ∧ (∀ r, 19 ≤ r → r ≤ 29 → m'.c r = .ofInt (m₀.x r)) ∧
      m.savedLr p t = m₀.x a64Lr := by
  have hsp : m.sp + 128 = m₀.sp := by
    rw [hsaves.sp]
    bv_omega
  refine ⟨h.sp.trans hsp, fun r hlow hhigh => ?_, ?_⟩
  · rw [h.c r (by omega), scrubbedReg, if_neg (by omega), if_neg (by omega), if_neg (by omega)]
    by_cases hfp : r = a64Fp
    · rw [if_pos hfp, hsaves.record, hfp]
      rfl
    · have hlr : r ≠ a64Lr := by
        unfold a64Lr
        omega
      have hle : r ≤ 28 := by
        unfold a64Fp at hfp
        omega
      rw [if_neg hfp, if_neg hlr, if_pos hlow, hsaves.saved r hlow hle]
  · rw [savedLr, hsaves.record, hsp]
    unfold signedLr Granule.hi
    dsimp only
    cases t.ptrAuth with
    | false => rfl
    | true => exact p.authenticate_sign _ _

/-! ### The exit of a compiled program -/

/-- What is said of the exit of one image. -/
structure Scrubs (p : Morello) (t : Target) (c : Compiler) (image : Nat → Word) : Prop where
  /-- two exits that agree on x7, the stack pointer and the frame return alike -/
  twoRuns : ∀ m₁ m₂, m₁.pc = c.executiveExit → m₂.pc = c.executiveExit → AgreeAtExit m₁ m₂ →
    ∃ m₁' m₂', run p image (exitLength t) m₁ = exitOutcome p t m₁ m₁' ∧
      run p image (exitLength t) m₂ = exitOutcome p t m₁ m₂' ∧
      (∀ r ≤ 30, m₁'.c r = m₂'.c r) ∧ m₁'.sp = m₂'.sp ∧
      m₁'.mem m₁.sp = .ints 0 0 ∧ m₂'.mem m₂.sp = .ints 0 0
  /-- the result is the integer in x7, and no capability but that of the caller slot is left -/
  oneRun : ∀ m, m.pc = c.executiveExit →
    ∃ m', run p image (exitLength t) m = exitOutcome p t m m' ∧ m'.c 0 = .ofInt (m.x 7) ∧
      (∀ r ≤ 30, r ≠ 16 → (m'.c r).tag = false) ∧ m'.c 16 = m.callerSlot p ∧
      ∀ m₀, Saves p t m₀ m → m'.sp = m₀.sp ∧
        (∀ r, 19 ≤ r → r ≤ 29 → m'.c r = .ofInt (m₀.x r)) ∧ m.savedLr p t = m₀.x a64Lr
  /-- the prologue saves the frame and zeroes the caller slot before it calls `cbpf_enter` -/
  prologue : ∀ m₀, m₀.pc = 0 → ∃ m,
    run p image (afterBlr t) m₀ = .call t.cbpfEnter.toNat m ∧ Saves p t m₀ m ∧
      m.frame 1 = .ints 0 0
  /-- a call that returns, with the frame as it was, ends with result 0 in a plain return -/
  rejected : ∀ m₀ m, Saves p t m₀ m → m.frame 1 = .ints 0 0 → m.pc = afterBlr t → m.x 0 ≠ 0 →
    ∃ m', run p image (exitLength t + 3) m = .ret (m₀.x a64Lr) m' ∧ m'.c 0 = .ofInt 0 ∧
      m'.sp = m₀.sp ∧ (∀ r, 19 ≤ r → r ≤ 29 → m'.c r = .ofInt (m₀.x r)) ∧
      ∀ r ≤ 30, (m'.c r).tag = false
  /-- a failed gate call goes to what c13 held, with 0 in x7 and the same stack pointer -/
  aborted : ∀ m u, Preserves (gatewayCall p m) u → u.gateFailed = true →
    (gatewayExit p u).c 14 = m.c 13 ∧ (gatewayExit p u).x 7 = 0 ∧ (gatewayExit p u).sp = m.sp

/-- Whatever has been loaded from two zero words is no capability. -/
theorem callerSlot_of_zero (h : m.frame 1 = .ints 0 0) : (m.callerSlot p).tag = false := by
  rw [callerSlot, h]
  exact p.untagged_tag 0 0

/-- The exit after a failed entry. -/
theorem run_rejected {c : Compiler} {m₀ : Executive}
    (hprologue : Holds image 0 (prologueTemplates t c))
    (hexit : Holds image c.executiveExit (executiveTemplates t)) (hsaves : Saves p t m₀ m)
    (hslot : m.frame 1 = .ints 0 0) (hpc : m.pc = afterBlr t) (hx0 : m.x 0 ≠ 0) :
    ∃ m', run p image (exitLength t + 3) m = .ret (m₀.x a64Lr) m' ∧ m'.c 0 = .ofInt 0 ∧
      m'.sp = m₀.sp ∧ (∀ r, 19 ≤ r → r ≤ 29 → m'.c r = .ofInt (m₀.x r)) ∧
      ∀ r ≤ 30, (m'.c r).tag = false := by
  obtain ⟨m₁, hrun₁, hpc₁, hsp₁, hmem₁, hx7₁⟩ := run_reject (p := p) hprologue hpc hx0
  rw [← hpc₁] at hexit
  obtain ⟨m₂, hrun₂, hscrubbed⟩ := run_exit (p := p) hexit
  have hframe : ∀ k, m₁.frame k = m.frame k := fun k => by rw [frame, frame, hsp₁, hmem₁]
  have hsaves₁ : Saves p t m₀ m₁ := by
    refine ⟨hsp₁.trans hsaves.sp, fun r hlow hhigh => ?_, (hframe 7).trans hsaves.record⟩
    rw [← hsaves.saved r hlow hhigh, saved, saved, hframe]
  have huntagged := callerSlot_of_zero (p := p) ((hframe 1).trans hslot)
  obtain ⟨hsp, hregs, hlr⟩ := hscrubbed.restores hsaves₁
  refine ⟨m₂, ?_, ?_, hsp, hregs, fun r hr => ?_⟩
  · rw [hrun₁, hrun₂, exitOutcome, huntagged, hlr]
    rfl
  · rw [hscrubbed.c 0 (by decide), scrubbedReg, if_pos (.inl rfl), hx7₁]
  · by_cases h16 : r = 16
    · rw [h16, hscrubbed.c 16 (by decide)]
      exact huntagged
    · exact hscrubbed.tag_eq_false hr h16

/-- Exit scrubbing is non-interfering, for the image of every admitted program. -/
theorem exit_scrubbing (k : Kfuncs) (t : Target) (prog : List BpfInsn) (a : Admission) (p : Morello)
    (henc : t.Encodes) (h : admitProgram k prog = .ok a) (hlen : prog.length ≤ cbpfMaxInsns) :
    ∃ c image, (Compiler.ofAdmission prog a).passes t = some c ∧ c.image = some image ∧
      Scrubs p t c image := by
  obtain ⟨c, image, hpasses, himage, hloaded⟩ := compile_written henc h hlen
  have hl := hloaded .null .null .ofInt
  have hprologue : Holds image 0 (prologueTemplates t c) := hl.written.prologue
  have hexit : Holds image c.executiveExit (executiveTemplates t) := by
    rw [hl.laidOut.executiveExit]
    exact hl.written.executive
  refine ⟨c, image, hpasses, himage, ?_, ?_, ?_, ?_, ?_⟩
  · intro m₁ m₂ hpc₁ hpc₂ hagree
    obtain ⟨m₁', hrun₁, hscrubbed₁⟩ := run_exit (p := p) (m := m₁) (hpc₁ ▸ hexit)
    obtain ⟨m₂', hrun₂, hscrubbed₂⟩ := run_exit (p := p) (m := m₂) (hpc₂ ▸ hexit)
    refine ⟨m₁', m₂', hrun₁, ?_, fun r hr => ?_, ?_, ?_, ?_⟩
    · rw [hrun₂, exitOutcome, exitOutcome, hagree.callerSlot_eq, hagree.savedLr_eq]
    · rw [hscrubbed₁.c r hr, hscrubbed₂.c r hr, hagree.scrubbedReg_eq hr]
    · rw [hscrubbed₁.sp, hscrubbed₂.sp, hagree.sp]
    · rw [hscrubbed₁.mem, Function.update_self]
    · rw [hscrubbed₂.mem, Function.update_self]
  · intro m hpc
    obtain ⟨m', hrun, hscrubbed⟩ := run_exit (p := p) (m := m) (hpc ▸ hexit)
    exact ⟨m', hrun, hscrubbed.c 0 (by decide), fun r hr h16 => hscrubbed.tag_eq_false hr h16,
      hscrubbed.c 16 (by decide), fun m₀ hsaves => hscrubbed.restores hsaves⟩
  · intro m₀ hpc
    obtain ⟨m, hrun, hsaves, hslot, _⟩ := run_entry (p := p) hprologue hpc
    exact ⟨m, hrun, hsaves, hslot⟩
  · intro m₀ m hsaves hslot hpc hx0
    exact run_rejected hprologue hexit hsaves hslot hpc hx0
  · intro m u hpreserves hfailed
    have hreturned := gatewayReturned m hpreserves
    refine ⟨?_, ?_, hreturned.sp⟩
    · rw [hreturned.c 14 (by decide), hfailed]
      rfl
    · rw [x, hreturned.c 7 (by decide), hfailed]
      rfl

/-- A machine without pointer authentication whose untagged words are plain integers. -/
def plainMorello : Morello where
  metadata := fun _ => 0
  untagged := fun lo _ => .ofInt lo
  untagged_tag := fun _ _ => rfl
  sign := fun lr _ => lr
  authenticate := fun lr _ => lr
  authenticate_sign := fun _ _ => rfl
  image := 0x10000

/-- At the executive exit with result 42 and `left` in every other register and in the sidecar. -/
def leavingWith (pc : Nat) (left : Capability) : Executive where
  pc := pc
  c := fun r => if r = 7 then .ofInt 42 else left
  sp := 0x8000
  mem := fun a => if a = 0x8000 then .cap left else .ints 0 0

/-- A public view left in all registers is gone after the exit, as if there had been none. -/
theorem exit_scrubbing_view : ∃ a c image m₁ m₂,
    admitProgram immKfuncs acquireRelease = .ok a ∧
    (Compiler.ofAdmission acquireRelease a).passes plainTarget = some c ∧
    run plainMorello image (exitLength plainTarget)
      (leavingWith c.executiveExit ⟨true, false, 8192, 8192, 16, cbpfPublicPerms⟩) = .ret 0 m₁ ∧
    run plainMorello image (exitLength plainTarget) (leavingWith c.executiveExit .null) =
      .ret 0 m₂ ∧
    ∀ r ≤ 30, m₁.c r = m₂.c r := by
  obtain ⟨a, haccepted⟩ := acquireRelease_admitted
  obtain ⟨c, image, hpasses, _, hscrubs⟩ := exit_scrubbing immKfuncs plainTarget acquireRelease a
    plainMorello (fun _ h => h) haccepted (by decide)
  have hagree : AgreeAtExit
      (leavingWith c.executiveExit ⟨true, false, 8192, 8192, 16, cbpfPublicPerms⟩)
      (leavingWith c.executiveExit .null) := by
    refine ⟨rfl, rfl, fun k hpos hk => ?_⟩
    have hne : (0x8000 : BitVec 64) + BitVec.ofNat 64 (16 * k) ≠ 0x8000 := by bv_omega
    exact (if_neg hne).trans (if_neg hne).symm
  obtain ⟨m₁, m₂, hrun₁, hrun₂, hregs, _⟩ := hscrubs.twoRuns _ _ rfl rfl hagree
  exact ⟨a, c, image, m₁, m₂, haccepted, hpasses, hrun₁, hrun₂, hregs⟩

end Executive

end Cbpf.Jit
