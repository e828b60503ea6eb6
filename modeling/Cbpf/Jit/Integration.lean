import Cbpf.Jit.Compile

/-!
# The hooks of `src/linux/ownership/integration.patch`

The patch calls the compiler from `bpf_int_jit_compile`, and tests the mark `cbpf_gate` where the
kernel attaches, links, stores or runs a program. What these functions decide besides is not in the
patch and comes in as a parameter. A program that calls a protected kfunc is marked by its first
compilation; from then on there is no way to run it but `cbpf_test_invoke`.
-/

namespace Cbpf.Jit

/-- `EOPNOTSUPP` -/
def eopnotsupp : Int := 95

/-- `bpf_int_jit_compile`; `ordinary` is what follows the hook. -/
def bpfIntJitCompile (t : Target) (k : Kfuncs) (sys : JitServices) (ordinary : JitState → JitState)
    (s : JitState) : JitState :=
  if !s.prog.jitRequested then s
  else
    let (prog, matched) := cbpfJitMatch k s.prog
    let s := { s with prog := prog }
    -- Matching kfuncs have no ordinary native fallback.
    if matched then cbpfJitCompile t k sys s else ordinary s

/-- `bpf_prog_map_compatible`. -/
def bpfProgMapCompatible (prog : BpfProg) (kprobeOverride rest : Bool) : Bool :=
  if kprobeOverride then false
  else if prog.cbpfGate then false
  else rest

/-- `bpf_prog_get_ok` for an attachment. -/
def bpfProgGetOk (prog : BpfProg) (attachType : Nat) (rest : Bool) : Bool :=
  if prog.type ≠ attachType then false
  else if prog.cbpfGate then false
  else rest

/-- `link_create`, from where it has the program. -/
def linkCreate (prog : BpfProg) (rest : Int) : Int := if prog.cbpfGate then -eopnotsupp else rest

/-- `link_update`, from where it has the new program. -/
def linkUpdate (newProg : BpfProg) (rest : Int) : Int :=
  if newProg.cbpfGate then -eopnotsupp else rest

/-- What `bpf_test_run` calls. -/
inductive Runner where
  | bpfProgRunXdp
  | cbpfTestInvoke
  | bpfProgRun
  deriving DecidableEq, Repr

/-- The dispatch in `bpf_test_run`. -/
def bpfTestRun (prog : BpfProg) (xdp : Bool) : Runner :=
  if xdp then .bpfProgRunXdp
  else if prog.cbpfGate then .cbpfTestInvoke
  else .bpfProgRun

/-! ### A loaded program -/

/-- What the kernel does with a program. -/
inductive Use where
  | compile (sys : JitServices) (ordinary : JitState → JitState)
  /-- anything else is written to the program, the instructions included -/
  | change (f : BpfProg → BpfProg)
  | mapInsert (kprobeOverride rest : Bool)
  | attach (attachType : Nat) (rest : Bool)
  | link (rest : Int)
  | relink (rest : Int)
  | testRun (xdp : Bool)

/-- What a use leaves. -/
def Use.step (t : Target) (k : Kfuncs) (s : JitState) : Use → JitState
  | .compile sys ordinary => bpfIntJitCompile t k sys ordinary s
  | .change f => { s with prog := { f s.prog with cbpfGate := s.prog.cbpfGate } }
  | _ => s

/-- A use in which the program stays on the protected path. -/
def Use.Protected (t : Target) (k : Kfuncs) (s : JitState) : Use → Prop
  | .compile sys ordinary =>
    (∀ other, bpfIntJitCompile t k sys other s = bpfIntJitCompile t k sys ordinary s) ∧
    ((∀ n address, sys.binaryAlloc n = some address → s.binaries address = none) →
      (s.prog.jitRequested = false ∧ bpfIntJitCompile t k sys ordinary s = s) ∨
      (∃ error, Rejected s error (bpfIntJitCompile t k sys ordinary s)) ∨
      ∃ address c, bpfIntJitCompile t k sys ordinary s = s.setGate.publish address c)
  | .change _ => True
  | .mapInsert kprobeOverride rest => bpfProgMapCompatible s.prog kprobeOverride rest = false
  | .attach attachType rest => bpfProgGetOk s.prog attachType rest = false
  | .link rest => linkCreate s.prog rest = -eopnotsupp
  | .relink rest => linkUpdate s.prog rest = -eopnotsupp
  | .testRun xdp => bpfTestRun s.prog xdp = if xdp then .bpfProgRunXdp else .cbpfTestInvoke

/-- A use that the hooks leave alone. -/
def Use.Ordinary (t : Target) (k : Kfuncs) (s : JitState) : Use → Prop
  | .compile sys ordinary => bpfIntJitCompile t k sys ordinary s =
      if s.prog.jitRequested then ordinary s else s
  | .change _ => True
  | .mapInsert kprobeOverride rest =>
    bpfProgMapCompatible s.prog kprobeOverride rest = (!kprobeOverride && rest)
  | .attach attachType rest =>
    bpfProgGetOk s.prog attachType rest = (s.prog.type == attachType && rest)
  | .link rest => linkCreate s.prog rest = rest
  | .relink rest => linkUpdate s.prog rest = rest
  | .testRun xdp => bpfTestRun s.prog xdp = if xdp then .bpfProgRunXdp else .bpfProgRun

/-- The program calls a protected kfunc. -/
def CallsProtected (k : Kfuncs) (prog : BpfProg) : Prop :=
  ∃ i ∈ prog.insnsi, callOperation k i ≠ 0

section Hooks

variable {t : Target} {k : Kfuncs} {s : JitState} {prog : BpfProg}

/-- The compiler claims the programs that call a protected kfunc and those it has marked before. -/
theorem cbpfJitMatch_iff (k : Kfuncs) (prog : BpfProg) :
    (cbpfJitMatch k prog).2 = true ↔ CallsProtected k prog ∨ prog.cbpfGate = true := by
  have hany : (prog.insnsi.any fun i => callOperation k i != 0) = true ↔ CallsProtected k prog := by
    rw [List.any_eq_true]
    exact exists_congr fun i => and_congr_right fun _ => bne_iff_ne
  unfold cbpfJitMatch
  split
  · next hcall => exact iff_of_true rfl (.inl (hany.mp hcall))
  · next hcall =>
    have hnone : ¬ CallsProtected k prog := fun h => hcall (hany.mpr h)
    exact (or_iff_right hnone).symm

/-- A claimed program is the same but for the mark. -/
theorem cbpfJitMatch_prog (k : Kfuncs) (prog : BpfProg) :
    (cbpfJitMatch k prog).1 = { prog with cbpfGate := (cbpfJitMatch k prog).2 } := by
  rw [cbpfJitMatch_marks]
  unfold cbpfJitMatch
  split <;> rfl

/-- The hook in `bpf_int_jit_compile`, for a program that is claimed. -/
theorem bpfIntJitCompile_claimed (hrequested : s.prog.jitRequested = true)
    (hclaimed : (cbpfJitMatch k s.prog).2 = true) (sys : JitServices)
    (ordinary : JitState → JitState) :
    bpfIntJitCompile t k sys ordinary s = cbpfJitCompile t k sys s.setGate := by
  have hprog := cbpfJitMatch_prog k s.prog
  rw [hclaimed] at hprog
  unfold bpfIntJitCompile
  rw [hrequested]
  dsimp only
  rw [hclaimed, hprog]
  rfl

theorem cbpfJitCompile_marked (t : Target) (k : Kfuncs) (sys : JitServices) (s : JitState) :
    (cbpfJitCompile t k sys s).prog.cbpfGate = true := by
  have hcompiled := cbpfJitCompile_compiled t k sys s
  generalize cbpfJitCompile t k sys s = s' at hcompiled
  cases hcompiled with
  | rejected error => rfl
  | freed a n address => rfl
  | completed a c address => rfl

/-- No use takes the mark away. -/
theorem Use.step_marked (u : Use) (h : s.prog.cbpfGate = true) :
    (u.step t k s).prog.cbpfGate = true := by
  cases u with
  | compile sys ordinary =>
    change (bpfIntJitCompile t k sys ordinary s).prog.cbpfGate = true
    cases hrequested : s.prog.jitRequested with
    | false =>
      rw [bpfIntJitCompile, hrequested]
      exact h
    | true =>
      have hclaimed := (cbpfJitMatch_iff k s.prog).mpr (.inr h)
      rw [bpfIntJitCompile_claimed hrequested hclaimed]
      exact cbpfJitCompile_marked t k sys s.setGate
  | change f => exact h
  | mapInsert kprobeOverride rest => exact h
  | attach attachType rest => exact h
  | link rest => exact h
  | relink rest => exact h
  | testRun xdp => exact h

theorem foldl_step_marked (uses : List Use) (h : s.prog.cbpfGate = true) :
    (uses.foldl (Use.step t k) s).prog.cbpfGate = true := by
  induction uses generalizing s with
  | nil => exact h
  | cons u uses ih => exact ih (u.step_marked h)

/-- Every use of a marked program is on the protected path. -/
theorem Use.protected_of_marked (u : Use) (h : s.prog.cbpfGate = true) : u.Protected t k s := by
  have hset : s.setGate = s := by
    rw [JitState.setGate, ← h]
  cases u with
  | compile sys ordinary =>
    cases hrequested : s.prog.jitRequested with
    | false =>
      have hsame : ∀ other, bpfIntJitCompile t k sys other s = s := by
        intro other
        rw [bpfIntJitCompile, hrequested]
        rfl
      exact ⟨fun other => (hsame other).trans (hsame ordinary).symm,
        fun _ => .inl ⟨hrequested, hsame ordinary⟩⟩
    | true =>
      have hclaimed := (cbpfJitMatch_iff k s.prog).mpr (.inr h)
      have hcompile := fun other => bpfIntJitCompile_claimed (t := t) hrequested hclaimed sys other
      refine ⟨fun other => (hcompile other).trans (hcompile ordinary).symm, fun hfresh => ?_⟩
      have hclean := (cbpfJitCompile_compiled t k sys s).clean hfresh
      rw [hcompile, hset]
      rw [hset] at hclean
      exact .inr hclean
  | change f => trivial
  | mapInsert kprobeOverride rest =>
    change bpfProgMapCompatible s.prog kprobeOverride rest = false
    rw [bpfProgMapCompatible, h, if_pos rfl, ite_self]
  | attach attachType rest =>
    change bpfProgGetOk s.prog attachType rest = false
    rw [bpfProgGetOk, h, if_pos rfl, ite_self]
  | link rest => exact if_pos h
  | relink rest => exact if_pos h
  | testRun xdp =>
    change bpfTestRun s.prog xdp = _
    rw [bpfTestRun, h, if_pos rfl]

/-- And a use of a program that the compiler does not claim is what it is without the patch. -/
theorem Use.ordinary_of_unclaimed (u : Use)
    (h : ¬ (CallsProtected k s.prog ∨ s.prog.cbpfGate = true)) : u.Ordinary t k s := by
  have hclaimed : (cbpfJitMatch k s.prog).2 = false := by
    rw [← Bool.not_eq_true, cbpfJitMatch_iff]
    exact h
  have hmark : s.prog.cbpfGate = false := Bool.eq_false_iff.mpr fun hmark => h (.inr hmark)
  cases u with
  | compile sys ordinary =>
    have hprog := cbpfJitMatch_prog k s.prog
    rw [hclaimed, ← hmark] at hprog
    have hmatch : cbpfJitMatch k s.prog = (s.prog, false) := Prod.ext hprog hclaimed
    change bpfIntJitCompile t k sys ordinary s = if s.prog.jitRequested then ordinary s else s
    rw [bpfIntJitCompile, hmatch]
    by_cases hrequested : s.prog.jitRequested = true
    · rw [if_neg (by simp [hrequested]), if_pos hrequested]
      rfl
    · rw [if_pos (by simp [hrequested]), if_neg hrequested]
  | change f => trivial
  | mapInsert kprobeOverride rest =>
    change bpfProgMapCompatible s.prog kprobeOverride rest = _
    rw [bpfProgMapCompatible, hmark]
    cases kprobeOverride <;> rfl
  | attach attachType rest =>
    change bpfProgGetOk s.prog attachType rest = _
    rw [bpfProgGetOk, hmark]
    by_cases htype : s.prog.type = attachType
    · simp [htype]
    · simp [htype]
  | link rest =>
    change linkCreate s.prog rest = rest
    rw [linkCreate, hmark]
    rfl
  | relink rest =>
    change linkUpdate s.prog rest = rest
    rw [linkUpdate, hmark]
    rfl
  | testRun xdp =>
    change bpfTestRun s.prog xdp = _
    rw [bpfTestRun, hmark]
    rfl

end Hooks

/-- Programs that call a protected kfunc have no ordinary path. Once the kernel has asked for such a
program to be compiled, every later use in any order is on the protected path: it is compiled by
`cbpf_jit_compile` or not at all, it is not attached, linked or stored in a map, and a test run goes
through `cbpf_test_invoke`. All other programs are used as without the patch. -/
theorem protected_path (t : Target) (k : Kfuncs) (s : JitState) :
    (CallsProtected k s.prog ∨ s.prog.cbpfGate = true → s.prog.jitRequested = true →
      ∀ sys ordinary (uses : List Use) u,
        Use.Protected t k (uses.foldl (Use.step t k) (bpfIntJitCompile t k sys ordinary s)) u) ∧
    (¬ (CallsProtected k s.prog ∨ s.prog.cbpfGate = true) → ∀ u, Use.Ordinary t k s u) := by
  refine ⟨fun hclaimed hrequested sys ordinary uses u => ?_, fun h u => u.ordinary_of_unclaimed h⟩
  have hmatch := (cbpfJitMatch_iff k s.prog).mpr hclaimed
  refine u.protected_of_marked (foldl_step_marked uses ?_)
  rw [bpfIntJitCompile_claimed hrequested hmatch]
  exact cbpfJitCompile_marked t k sys s.setGate

/-- The sample program, compiled, attached and run; and a program without calls. -/
theorem protected_path_acquireRelease :
    (∀ u, Use.Protected plainTarget immKfuncs ([Use.attach 3 true, .testRun false].foldl
      (Use.step plainTarget immKfuncs) (bpfIntJitCompile plainTarget immKfuncs plainServices id
        (requested acquireRelease))) u) ∧
      ∀ u, Use.Ordinary plainTarget immKfuncs (requested []) u := by
  have hcalls : CallsProtected immKfuncs (requested acquireRelease).prog := by
    have hany : (acquireRelease.any fun i => callOperation immKfuncs i != 0) = true := by decide
    obtain ⟨i, hi, hop⟩ := List.any_eq_true.mp hany
    exact ⟨i, hi, bne_iff_ne.mp hop⟩
  refine ⟨(protected_path plainTarget immKfuncs (requested acquireRelease)).1 (.inl hcalls) rfl
    plainServices id [.attach 3 true, .testRun false], ?_⟩
  refine (protected_path plainTarget immKfuncs (requested [])).2 ?_
  rintro (⟨i, hi, _⟩ | hmark)
  · cases hi
  · cases hmark

end Cbpf.Jit
