import Cbpf.Jit.Processor

/-!
# A compiled program runs to its return

The call of a compiled image always comes back: through the entry error, or through the executive exit
after the program has run as its instructions say. The caller finds its stack pointer, its callee-saved
registers and an integer in x0, and the gate is as the run has left it.
-/

namespace Cbpf.Jit

open Cheri Kernel Executive Dataflow

/-! ### From the entry to the first instruction -/

section Entry

variable {k : Kfuncs} {env : Env} {t : Target} {prog : List BpfInsn} {a : Admission} {c : Compiler}
  {e : Envelope} {m m' : Machine}

/-- Words that clear registers. -/
theorem steps_clear (env : Env) {regs : List Nat}
    (h : Holds e.image m.pc (regs.map fun reg _ => .movz reg 0 0)) :
    Steps env e regs.length m { m with
      pc := m.pc + regs.length
      c := fun r => if r ∈ regs then .ofInt 0 else m.c r } := by
  induction regs generalizing m with
  | nil => simp [Steps]
  | cons reg regs ih =>
    have hstep : nativeStep env e m = .next (m.setX reg 0) := by
      rw [nativeStep, show e.image m.pc = _ from h 0 _ rfl]
      rfl
    have hrest := ih (m := m.setX reg 0) h.tail
    have hregs : ∀ r, (if r ∈ regs then .ofInt 0 else (m.setX reg 0).c r) =
        if r ∈ reg :: regs then Capability.ofInt 0 else m.c r := by
      intro r
      by_cases hr : r ∈ regs
      · simp [hr]
      · by_cases hreg : r = reg <;> simp [hr, hreg, Machine.setX, Machine.setC]
    have hpc : m.pc + (regs.length + 1) = (m.setX reg 0).pc + regs.length := by
      change m.pc + (regs.length + 1) = m.pc + 1 + regs.length
      omega
    refine .cons hstep ?_
    rw [List.length_cons, hpc]
    simp only [hregs] at hrest
    exact hrest

/-- From the word after the call of `cbpf_enter` to the first instruction of the program. -/
theorem Loaded.steps_entry (hl : Loaded t k prog a c e) (env : Env) {stack : Nat}
    (h : EntersRestricted t e stack m) : ∃ m', Steps env e 29 m m' ∧ m'.pc = c.offset 0 ∧
      m'.c 17 = e.gate ∧ m'.c a64Lr = e.exit ∧ m'.slot = m.slot ∧ m'.g = m.g := by
  have hwords := hl.restrictedWords
  let m₁ : Machine := { m with pc := m.pc + 3 }
  have hskip : nativeStep env e m = .next m₁ := by
    have hword : e.image m.pc = .cbz 0 3 := by
      rw [h.pc]
      exact hwords.skip.2
    rw [nativeStep, hword]
    dsimp only
    rw [if_pos h.x0, Machine.branch, if_neg (by omega)]
    rfl
  have hclear : Holds e.image m₁.pc (clearRegisters true) := by
    change Holds e.image (m.pc + 3) _
    rw [h.pc]
    exact hl.holds_afterBlr.2.2
  have hsteps := steps_clear env hclear
  have hkept : ∀ r ∈ [17, a64Lr], r ∉ (List.range 30).filter fun reg => reg != 15 && reg != 17 := by
    decide
  refine ⟨{ m₁ with
    pc := m₁.pc + 28
    c := fun r => if r ∈ (List.range 30).filter fun reg => reg != 15 && reg != 17 then .ofInt 0
      else m₁.c r }, .cons hskip hsteps, ?_, ?_, ?_, rfl, rfl⟩
  · rw [hwords.start, ← h.pc]
  · dsimp only
    rw [if_neg (hkept 17 (by decide))]
    exact h.c17
  · dsimp only
    rw [if_neg (hkept a64Lr (by decide))]
    exact h.c30

/-- The run that starts with what the machine holds. -/
def BpfState.entering (m : Machine) : BpfState where
  pc := 0
  reg := fun r => m.c (nativeReg r)
  slot := m.slot
  written := fun _ => false
  slotWritten := false
  g := m.g
  issued := []
  calls := []

theorem related_entering (hpc : m.pc = c.offset 0) (h17 : m.c 17 = e.gate)
    (h30 : m.c a64Lr = e.exit) : Related a c e (.entering m) m where
  pc := hpc
  reg := fun _ _ _ => rfl
  slot := rfl
  gate := rfl
  c17 := h17
  c30 := h30

end Entry

/-! ### The instructions -/

section Program

variable {k : Kfuncs} {env : Env} {t : Target} {prog : List BpfInsn} {a : Admission} {c : Compiler}
  {e : Envelope} {s s₀ s' : BpfState} {m m' : Machine}

/-- How a run ends in `s`: the gate it leaves, and the integer that it returns. -/
inductive Ended (k : Kfuncs) (env : Env) (prog : List BpfInsn) (s : BpfState) : Running → Nat → Prop
  | exit (clobber : Nat → Capability) (v : Capability) :
      bpfStep k env prog clobber s = .exit v → Ended k env prog s s.g v.address
  | rejected (clobber : Nat → Capability) (call : GateCall) (g : Running) :
      bpfStep k env prog clobber s = .rejected call g → Ended k env prog s g 0

/-- Runs only go forward. -/
theorem pc_lt_of_step (h : admitProgram k prog = .ok a) (hsound : Sound k env prog (a.flow s.pc) s)
    (hstep : Step k env prog s s') : s.pc < s'.pc := by
  have hdone := admit_done h
  obtain ⟨es, ⟨_, i, hi, ht⟩, _⟩ := hdone.pass.solution Flow.le_join_left Flow.le_join_right
    (Nat.zero_le s.pc) (hsound.inside hdone)
  obtain ⟨clobber, hnext⟩ := hstep
  have hok := step_ok hsound hi ht hdone.sites_le clobber
  rw [hnext] at hok
  cases hok with
  | next _ x hx hpc => exact hpc ▸ (ht.forward (hsound.inside hdone) x hx).1

/-- Only an exit instruction ends a run with a value. -/
theorem code_of_exit {clobber : Nat → Capability} {v : Capability} {i : BpfInsn}
    (hi : prog[s.pc]? = some i) (h : bpfStep k env prog clobber s = .exit v) : i.code = .jmpExit := by
  unfold bpfStep at h
  rw [hi] at h
  dsimp only at h
  cases hcode : i.code with
  | jmpExit => rfl
  | alu64MovX | alu64MovK | other code =>
    rw [hcode] at h
    cases h
  | stxMemDw | ldxMemDw =>
    rw [hcode] at h
    dsimp only at h
    split at h <;> cases h
  | jmpJeqK =>
    rw [hcode] at h
    dsimp only at h
    split at h
    · split at h <;> cases h
    · cases h
  | jmpCall =>
    rw [hcode] at h
    dsimp only at h
    split at h
    · cases h
    · unfold bpfCall at h
      dsimp only at h
      split at h <;> cases h

/-- The branch of an exit instruction leaves the gate alone. -/
theorem Loaded.gate_of_exit (hl : Loaded t k prog a c e) (h : Related a c e s m) {i : BpfInsn}
    (hi : prog[s.pc]? = some i) (hcode : i.code = .jmpExit) (hsteps : Steps env e (width i) m m') :
    m'.g = s.g := by
  obtain ⟨offset, hword, hoffset⟩ := hl.restrictedWords.exit s.pc i hi hcode
  have hwidth : width i = 1 := by rw [width, hcode]
  rw [hwidth] at hsteps
  obtain ⟨m₁, hstep, hsame⟩ := hsteps
  obtain rfl : m₁ = m' := hsame
  rw [nativeStep, h.pc, hword] at hstep
  dsimp only at hstep
  rw [Machine.branch, h.pc, if_neg (by omega)] at hstep
  obtain rfl := NativeOutcome.next.inj hstep
  exact h.gate

variable {P : Platform} {Q : Processor → Prop} {sp : BitVec 64} {mem : BitVec 64 → Granule}

/-- The executive exit is entered after the program has ended, with its result in x7. -/
structure Leaves (c : Compiler) (sp : BitVec 64) (mem : BitVec 64 → Granule) (g : Running) (x : Nat)
    (m : Executive) : Prop where
  pc : m.pc = c.executiveExit
  x7 : m.x 7 = x
  frame : ∀ k, 0 < k → k < 8 → m.frame k = mem (sp + BitVec.ofNat 64 (16 * k))
  sp : m.sp = sp

theorem leaves_of_machine {g : Running} {x : Nat} {mem' : BitVec 64 → Granule}
    (hpc : m.pc = c.executiveExit) (hx : m.x 7 = x) (hsame : Platform.SameFrame sp mem mem') :
    Leaves c sp mem g x ⟨m.pc, m.c, sp, Function.update mem' sp (.cap m.slot)⟩ where
  pc := hpc
  x7 := hx
  frame := by
    intro k hpos hk
    have hkept := frame_of_update ⟨m.pc, m.c, sp, mem'⟩ hpos hk (.cap m.slot)
    exact hkept.trans (hsame k hk)
  sp := rfl

/-- The program, from any point of its run: the native words come to the executive exit, having done
what the instructions do. -/
theorem Loaded.inevitable_program (hl : Loaded t k prog a c e) (h : admitProgram k prog = .ok a)
    (hs : Starts P.env s₀) (hrun : Relation.ReflTransGen (Step k P.env prog) s₀ s)
    (hm : Related a c e s m)
    (hended : ∀ s g x m, Relation.ReflTransGen (Step k P.env prog) s₀ s →
      Ended k P.env prog s g x → Leaves c sp mem g x m →
      Inevitable (Processor.Step P) Q (.executive m g)) :
    Inevitable (Processor.Step P) Q (.restricted e m sp mem) := by
  -- the bound is the number of instructions to come
  let I : Nat → Processor → Prop := fun n σ => ∃ s m mem', σ = .restricted e m sp mem' ∧
    Platform.SameFrame sp mem mem' ∧ Relation.ReflTransGen (Step k P.env prog) s₀ s ∧
    Related a c e s m ∧ n = prog.length - s.pc
  have hstart : I (prog.length - s.pc) (.restricted e m sp mem) :=
    ⟨s, m, mem, rfl, fun _ _ => rfl, hrun, hm, rfl⟩
  refine Inevitable.loop (I := I) ?_ hstart
  rintro n _ ⟨s, m, mem₁, rfl, hsame, hrun, hm, rfl⟩
  have hsound := sound_of_run h hs hrun
  obtain ⟨i, hi, hsim⟩ := simulates_step hl hm hsound fun _ => .null
  generalize hout : bpfStep k P.env prog (fun _ => .null) s = o at hsim
  cases hsim with
  | next s' m' hsteps hm' =>
    have hstep : Step k P.env prog s s' := ⟨_, hout⟩
    have hlt := pc_lt_of_step h hsound hstep
    have hle := hsound.inside hl.admitted
    refine Processor.inevitable_steps hsteps fun mem₂ hsame₂ => .here (.inr ?_)
    exact ⟨prog.length - s'.pc, by omega, s', m', mem₂, rfl,
      Processor.sameFrame_trans hsame hsame₂, hrun.tail hstep, hm', rfl⟩
  | exit v m' hsteps _ hvalue hleave =>
    have hgate := hl.gate_of_exit hm hi (code_of_exit hi hout) hsteps
    refine Processor.inevitable_steps hsteps fun mem₂ hsame₂ => ?_
    refine Processor.inevitable_leave hleave fun mem₃ hsame₃ => ?_
    refine Inevitable.mono ?_ fun _ => .inl
    rw [show ({ m' with pc := c.executiveExit } : Machine).g = s.g from hgate]
    have hx : ({ m' with pc := c.executiveExit } : Machine).x 7 = v.address := by
      rw [Machine.x, hvalue]
    exact hended s s.g v.address _ hrun (.exit _ v hout) (leaves_of_machine rfl hx
      (Processor.sameFrame_trans hsame (Processor.sameFrame_trans hsame₂ hsame₃)))
  | rejected call g n m₁ m' _ hsteps hleave hpc hzero hgate =>
    refine Processor.inevitable_steps hsteps fun mem₂ hsame₂ => ?_
    refine Processor.inevitable_leave hleave fun mem₃ hsame₃ => ?_
    refine Inevitable.mono ?_ fun _ => .inl
    rw [hgate]
    have hx : m'.x 7 = 0 := by
      rw [Machine.x, hzero]
      rfl
    exact hended s g 0 _ hrun (.rejected _ call g hout) (leaves_of_machine hpc hx
      (Processor.sameFrame_trans hsame (Processor.sameFrame_trans hsame₂ hsame₃)))

end Program

/-! ### Back in the caller -/

section Return

variable {P : Platform} {Q : Processor → Prop} {g : Running} {caller m m' : Executive}

/-- What the caller of an image gets back. -/
structure Back (caller : Executive) (x : Nat) (m : Executive) : Prop where
  result : m.c 0 = .ofInt x
  sp : m.sp = caller.sp
  saved : ∀ r, 19 ≤ r → r ≤ 29 → m.c r = .ofInt (caller.x r)
  scrubbed : ∀ r ≤ 30, r ≠ 16 → (m.c r).tag = false

/-- The frame that the exit restores from is that above the caller slot. -/
theorem saves_of_frame {p : Morello} {t : Target} (h : Saves p t caller m) (hsp : m'.sp = m.sp)
    (hframe : ∀ k, 1 < k → k < 8 → m'.frame k = m.frame k) : Saves p t caller m' := by
  refine ⟨hsp.trans h.sp, fun r hlow hhigh => ?_, (hframe 7 (by decide) (by decide)).trans h.record⟩
  rw [← h.saved r hlow hhigh, saved, saved, hframe _ (by omega) (by omega)]

/-- The executive exit, with a valid capability in the caller slot. -/
theorem inevitable_exit {slot : Capability} {x : Nat}
    (hexit : Holds P.image m.pc (executiveTemplates P.t)) (hx : m.x 7 = x)
    (hsaves : Saves P.p P.t caller m) (hslot : m.frame 1 = .cap slot) (htag : slot.tag = true)
    (hQ : ∀ m', Back caller x m' → Q (.returned slot.address m' g)) :
    Inevitable (Processor.Step P) Q (.executive m g) := by
  obtain ⟨m', hrun, hscrubbed⟩ := run_exit (p := P.p) hexit
  have hload : m.callerSlot P.p = slot := by
    rw [callerSlot, hslot]
    rfl
  rw [exitOutcome, hload, if_pos htag] at hrun
  obtain ⟨hsp, hregs, _⟩ := hscrubbed.restores hsaves
  have hresult : m'.c 0 = .ofInt x := by
    rw [hscrubbed.c 0 (by decide), scrubbedReg, if_pos (.inl rfl), hx]
  exact Processor.inevitable_retr hrun htag
    (hQ m' ⟨hresult, hsp, hregs, fun r hr h16 => hscrubbed.tag_eq_false hr h16⟩)

end Return

/-! ### The whole call -/

section Call

variable {k : Kfuncs} {prog : List BpfInsn} {a : Admission} {c : Compiler} {P : Platform}
  {Q : Processor → Prop} {g : Running} {caller : Executive}

/-- The arguments of `cbpf_enter` when the image is called in the state `caller`. -/
def callArgs (p : Morello) (t : Target) (c : Compiler) (caller : Executive) : EnterArgs where
  stackBase := (caller.sp - 128).toNat
  stackSize := 16
  retAddr := (addressOf p c.executiveExit).toNat
  executiveReturnSize := c.executiveWords * 4
  outerReturnAddr := caller.x a64Lr
  progCookie := t.prog.toNat

/-- What `cbpf_enter` reads when the image calls it. -/
def callContext (P : Platform) : EnterContext :=
  { P.ctx with callerLr := (addressOf P.p (afterBlr P.t)).toNat }

theorem enterArgs_of_arguments {p : Morello} {t : Target} {m : Executive} (hc : Bounded c)
    (hsaves : Saves p t caller m) (hargs : Arguments p t c (caller.x a64Lr) m) :
    enterArgs m = callArgs p t c caller := by
  have hwords := hc.executiveWords
  have hsize : c.executiveWords * 4 % 2 ^ 32 = c.executiveWords * 4 :=
    Nat.mod_eq_of_lt (by omega)
  unfold enterArgs callArgs
  rw [hargs.stackBase, hargs.stackSize, hargs.retAddr, hargs.executiveReturnSize,
    hargs.outerReturnAddr, hargs.progCookie, hsaves.sp, hsize]
  rfl

/-- How the call of an image ends, according to what `cbpf_enter` makes of its arguments: with result
0 and the gate as it was, or with the result of a run of the program and the gate as the run left
it. -/
inductive Finished (k : Kfuncs) (prog : List BpfInsn) (c : Compiler) (P : Platform)
    (caller : Executive) (g : Running) : Processor → Prop
  | refused (err : EnterError) (m : Executive) :
      cbpfEnter P.env (callContext P) (callArgs P.p P.t c caller) g.s = .error err →
      Back caller 0 m → Finished k prog c P caller g (.returned (caller.x a64Lr) m g)
  | ran (s : Invocation) (entry : Entry) (s₀ s₁ : BpfState) (g' : Running) (x : Nat)
      (m : Executive) :
      cbpfEnter P.env (callContext P) (callArgs P.p P.t c caller) g.s = .ok (s, entry) →
      Starts P.env s₀ → s₀.g = { g with s := s } →
      Relation.ReflTransGen (Step k P.env prog) s₀ s₁ → Ended k P.env prog s₁ g' x →
      Back caller x m → Finished k prog c P caller g (.returned (caller.x a64Lr) m g')

/-- An invocation that has not been entered. -/
structure Fresh (g : Running) : Prop where
  value : g.object.value = 42
  s : ∃ prog cellsAddr, g.s = .zeroed prog cellsAddr ∧ 0 < cellsAddr ∧ 16 ∣ cellsAddr

/-- The run that a successful entry starts. -/
theorem starts_entering {env : Env} {ctx : EnterContext} {args : EnterArgs} {s : Invocation}
    {entry : Entry} {u : Machine} (hg : Fresh g) (h : cbpfEnter env ctx args g.s = .ok (s, entry))
    (hu : u.g = { g with s := s }) : Starts env (.entering u) := by
  obtain ⟨prog, cellsAddr, hzeroed, hcells⟩ := hg.s
  obtain ⟨_, hfailed, hs⟩ := cbpfEnter_ok h
  rw [hzeroed] at hs
  have hinv : s.Inv env := by
    rw [hs]
    exact (Invocation.Inv.zeroed env prog cellsAddr).congr rfl rfl rfl rfl rfl rfl
  have hgate : (BpfState.entering u).g = { g with s := s } := hu
  refine ⟨rfl, rfl, rfl, rfl, rfl, ?_, ?_, ?_, ?_, ?_, ?_⟩
  · rw [hgate]
    exact hinv
  · rw [hgate, hs]
  · rw [hgate, hs]
    rfl
  · rw [hgate, hs]
    rfl
  · rw [hgate]
    exact hg.value
  · rw [hgate, hs]
    exact hcells

/-- A word of the frame, seen from its address. -/
theorem frame_ne_callerSlot {sp : BitVec 64} {j : Nat} (hj : 1 < j) (hj' : j < 8) :
    sp + BitVec.ofNat 64 (16 * j) ≠ BitVec.ofNat 64 (u64Add sp.toNat 16) := by
  unfold u64Add
  bv_omega

theorem afterBlr_lt (t : Target) : afterBlr t < 2 ^ 60 := by
  unfold afterBlr
  cases t.bti <;> cases t.ptrAuth <;> decide

/-- The program is entered with the stack that the prologue passes. -/
theorem cbpfEnter_stack {env : Env} {ctx : EnterContext} {args : EnterArgs} {s s' : Invocation}
    {entry : Entry} (h : cbpfEnter env ctx args s = .ok (s', entry)) :
    entry.stack = args.stackBase := by
  unfold cbpfEnter at h
  split at h
  · cases h
  · dsimp only at h
    split at h
    · cases h
    · split at h
      · cases h
      · split at h
        · cases h
        · obtain ⟨_, rfl⟩ := Prod.mk.inj (Except.ok.inj h)
          rfl

theorem ofNat_callerSlot (sp : BitVec 64) :
    BitVec.ofNat 64 (u64Add sp.toNat 16) = sp + BitVec.ofNat 64 (16 * 1) := by
  unfold u64Add
  bv_omega

/-- After a failed entry. -/
theorem inevitable_refused (hloaded : ∀ gate exit link,
      Loaded P.t k prog a c ⟨P.image, c.executiveExit, gate, exit, link⟩)
    {m m' : Executive} {err : EnterError} (hsaves : Saves P.p P.t caller m)
    (hslot : m.frame 1 = .ints 0 0) (hlr : m.x a64Lr = (addressOf P.p (afterBlr P.t)).toNat)
    (h : P.Refuses m err m')
    (hQ : ∀ m', Back caller 0 m' → Q (.returned (caller.x a64Lr) m' g)) :
    Inevitable (Processor.Step P) Q (.executive m' g) := by
  have hl := hloaded .null .null .ofInt
  have hexit : Holds P.image c.executiveExit (executiveTemplates P.t) := by
    rw [hl.laidOut.executiveExit]
    exact hl.written.executive
  have hpc : m'.pc = afterBlr P.t := by
    rw [h.pc, hlr, Processor.indexOf_addressOf P.p (afterBlr_lt P.t)]
  have hx0 : m'.x 0 ≠ 0 := by
    intro hzero
    have herr := h.x0
    rw [hzero] at herr
    cases err <;> simp [errno] at herr
  have hsaves' : Saves P.p P.t caller m' :=
    saves_of_frame hsaves h.sp fun k _ hk => h.mem k (by omega)
  have hslot' : m'.frame 1 = .ints 0 0 := (h.mem 1 (by decide)).trans hslot
  obtain ⟨m'', hrun, hresult, hsp, hregs, htags⟩ :=
    run_rejected (p := P.p) hl.written.prologue hexit hsaves' hslot' hpc hx0
  exact Processor.inevitable_ret hrun
    (hQ m'' ⟨hresult, hsp, hregs, fun r hr _ => htags r hr⟩)

/-- After a successful entry: the program runs, and the executive exit finds the frame as the prologue
has saved it. -/
theorem inevitable_admitted (h : admitProgram k prog = .ok a) (hloaded : ∀ gate exit link,
      Loaded P.t k prog a c ⟨P.image, c.executiveExit, gate, exit, link⟩)
    {m : Executive} {s : Invocation} {entry : Entry} {u : Machine} {mem : BitVec 64 → Granule}
    (hg : Fresh g) (hsaves : Saves P.p P.t caller m)
    (hargs : Arguments P.p P.t c (caller.x a64Lr) m)
    (hlr : m.x a64Lr = (addressOf P.p (afterBlr P.t)).toNat)
    (henter : cbpfEnter P.env (P.context m) (enterArgs m) g.s = .ok (s, entry))
    (hu : P.Admits m { g with s := s } entry u mem)
    (hQ : ∀ s₀ s₁ g' x m', Starts P.env s₀ → s₀.g = { g with s := s } →
      Relation.ReflTransGen (Step k P.env prog) s₀ s₁ → Ended k P.env prog s₁ g' x →
      Back caller x m' → Q (.returned (caller.x a64Lr) m' g')) :
    Inevitable (Processor.Step P) Q
      (.restricted (P.envelope entry) u (BitVec.ofNat 64 entry.stack) mem) := by
  have hranges := (hloaded .null .null .ofInt).entryRanges hargs hlr rfl henter
  have hbuilt := (cbpfEnter_built henter).2
  have hbounded := (hloaded .null .null .ofInt).laidOut.bounded
  have hexitIndex : indexOf P.p entry.exit.address = c.executiveExit := by
    have hle := hbounded.executiveExit
    rw [hranges.exit.2.1, Processor.indexOf_addressOf P.p (by omega)]
  have henvelope : P.envelope entry =
      ⟨P.image, c.executiveExit, entry.gate, entry.exit, P.link⟩ := by
    rw [Platform.envelope, hexitIndex]
  have hl := hloaded entry.gate entry.exit P.link
  rw [← henvelope] at hl
  have hstack : BitVec.ofNat 64 entry.stack = m.sp := by
    rw [cbpfEnter_stack henter]
    change BitVec.ofNat 64 (m.x 0) = m.sp
    rw [hargs.stackBase, BitVec.ofNat_toNat, BitVec.setWidth_eq]
  have hslotAddr : BitVec.ofNat 64 entry.callerSlotAddr =
      BitVec.ofNat 64 (u64Add m.sp.toNat 16) := by
    rw [hbuilt.slot]
    change BitVec.ofNat 64 (u64Add (m.x 0) (m.x 1 % 2 ^ 32)) = _
    rw [hargs.stackBase, hargs.stackSize]
    rfl
  have henters : EntersRestricted P.t (P.envelope entry) entry.stack u := by
    refine ⟨?_, hu.x0, hu.x15, hu.c17, hu.c30⟩
    rw [hu.pc, hranges.code.2.1, Processor.indexOf_addressOf P.p (afterBlr_lt P.t)]
  obtain ⟨u', hsteps, hpc, h17, h30, _, hgate⟩ := hl.steps_entry P.env henters
  have hgate' : u'.g = { g with s := s } := hgate.trans hu.gate
  have hstarts := starts_entering hg henter hgate'
  refine Processor.inevitable_steps hsteps fun mem' hsame => ?_
  refine hl.inevitable_program h hstarts .refl (related_entering hpc h17 h30) ?_
  intro s₁ g' x m' hrun hended hleaves
  rw [hstack] at hsame hleaves
  -- the frame of the prologue, with the sealed return capability in the caller slot
  have hframe : ∀ j, 1 < j → j < 8 → m'.frame j = m.frame j := by
    intro j hj hj'
    rw [hleaves.frame j (by omega) hj', hsame j hj', hu.frame j (by omega)]
    rw [hslotAddr]
    exact frame_ne_callerSlot hj hj'
  have hslot : m'.frame 1 = .cap entry.callerSlot := by
    rw [hleaves.frame 1 (by decide) (by decide), hsame 1 (by decide), ← hu.callerSlot, hslotAddr,
      ofNat_callerSlot]
  have hexit : Holds P.image m'.pc (executiveTemplates P.t) := by
    rw [hleaves.pc, hl.laidOut.executiveExit]
    exact (hloaded .null .null .ofInt).written.executive
  have hback : entry.callerSlot.address = caller.x a64Lr := by
    rw [hbuilt.caller.2.2]
    exact hargs.outerReturnAddr
  refine inevitable_exit hexit hleaves.x7 (saves_of_frame hsaves hleaves.sp hframe) hslot
    hbuilt.caller.1 fun m'' hm'' => ?_
  rw [hback]
  exact hQ _ _ _ _ _ hstarts hgate' hrun hended hm''

/-- The call of a loaded image. -/
theorem inevitable_finished (h : admitProgram k prog = .ok a) (hloaded : ∀ gate exit link,
      Loaded P.t k prog a c ⟨P.image, c.executiveExit, gate, exit, link⟩)
    (hpc : caller.pc = 0) (hg : Fresh g) :
    Inevitable (Processor.Step P) (Finished k prog c P caller g) (.executive caller g) := by
  have hl := hloaded .null .null .ofInt
  obtain ⟨m, hrun, hsaves, hslot, hargs, hlr⟩ := run_entry (p := P.p) hl.written.prologue hpc
  have henterArgs := enterArgs_of_arguments hl.laidOut.bounded hsaves hargs
  have hcontext : P.context m = callContext P := by rw [Platform.context, hlr, callContext]
  refine Processor.inevitable_enter hrun ?_ ?_
  · intro err m' herr hm'
    rw [hcontext, henterArgs] at herr
    exact inevitable_refused hloaded hsaves hslot hlr hm' fun m'' => .refused err m'' herr
  · intro s entry u mem hok hu
    refine inevitable_admitted h hloaded hg hsaves hargs hlr hok hu ?_
    rw [hcontext, henterArgs] at hok
    intro s₀ s₁ g' x m' hstarts hgate hsteps hended hback
    exact .ran s entry s₀ s₁ g' x m' hok hstarts hgate hsteps hended hback

/-- Wherever the image of an admitted program is called, with whatever return address and stack, the
call comes to an end as `Finished` says. -/
theorem image_runs_program (k : Kfuncs) (t : Target) (prog : List BpfInsn) (a : Admission)
    (henc : t.Encodes) (h : admitProgram k prog = .ok a) (hlen : prog.length ≤ cbpfMaxInsns) :
    ∃ c image, (Compiler.ofAdmission prog a).passes t = some c ∧ c.image = some image ∧
      ∀ (P : Platform) (caller : Executive) (g : Running), P.t = t → P.image = image →
        caller.pc = 0 → Fresh g →
        Inevitable (Processor.Step P) (Finished k prog c P caller g) (.executive caller g) := by
  obtain ⟨c, image, hpasses, himage, hloaded⟩ := compile_written henc h hlen
  refine ⟨c, image, hpasses, himage, ?_⟩
  rintro P caller g rfl rfl hpc hg
  exact inevitable_finished h hloaded hpc hg

/-- The sample program on a flat machine: the entry is granted, so the program runs. -/
theorem image_runs_program_acquireRelease : ∃ a c image,
    admitProgram immKfuncs acquireRelease = .ok a ∧
    (Compiler.ofAdmission acquireRelease a).passes plainTarget = some c ∧ c.image = some image ∧
    ∃ P : Platform, P.image = image ∧
      (∃ s entry, cbpfEnter P.env (callContext P) (callArgs P.p P.t c callerState)
        (.zeroed 0x8000 12288) = .ok (s, entry)) ∧
      Inevitable (Processor.Step P)
        (Finished immKfuncs acquireRelease c P callerState ⟨⟨42, 1⟩, .zeroed 0x8000 12288⟩)
        (.executive callerState ⟨⟨42, 1⟩, .zeroed 0x8000 12288⟩) := by
  obtain ⟨a, haccepted⟩ := acquireRelease_admitted
  have henc : plainTarget.Encodes := fun _ h => h
  obtain ⟨c, image, hpasses, himage, hruns⟩ := image_runs_program immKfuncs plainTarget
    acquireRelease a henc haccepted (by decide)
  let P : Platform := ⟨plainMorello, plainTarget, flatEnv, flatContext, image, .ofInt⟩
  have hfresh : Fresh ⟨⟨42, 1⟩, .zeroed 0x8000 12288⟩ :=
    ⟨rfl, 0x8000, 12288, rfl, by decide, by decide⟩
  refine ⟨a, c, image, haccepted, hpasses, himage, P, rfl, ?_,
    hruns P callerState _ rfl rfl rfl hfresh⟩
  obtain ⟨c', _, hpasses', _, hloaded⟩ := compile_written henc haccepted (by decide)
  obtain rfl := Option.some.inj (hpasses.symm.trans hpasses')
  have hl := hloaded .null .null .ofInt
  have hexit : c.executiveExit = 80 := by
    rw [hl.laidOut.executiveExit, hl.prog]
    decide
  have hwords : c.executiveWords = 46 := hl.laidOut.executiveWords
  have hargs : callArgs P.p P.t c callerState = ⟨0x7F80, 16, 0x10140, 184, 0x7000, 0x8000⟩ := by
    rw [callArgs, hexit, hwords]
    rfl
  have hgranted : ∃ s entry, cbpfEnter flatEnv { flatContext with
      callerLr := (addressOf plainMorello (afterBlr plainTarget)).toNat }
      ⟨0x7F80, 16, 0x10140, 184, 0x7000, 0x8000⟩ (.zeroed 0x8000 12288) = .ok (s, entry) :=
    ⟨_, _, rfl⟩
  rw [hargs]
  exact hgranted

end Call

end Cbpf.Jit
