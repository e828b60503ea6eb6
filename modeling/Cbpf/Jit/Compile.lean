import Cbpf.Jit.Marks
import Cbpf.Jit.Simulation

/-!
# The compiler's entry points (`src/linux/ownership/cbpf_jit.c`, lines 66-78 and 369-445)

`cbpf_jit_match` and `cbpf_jit_compile` with their allocations and everything they publish. An
admitted program passes the compiler's own checks; whatever happens, nothing is half published.
-/

namespace Cbpf.Jit

/-- `BPF_PROG_TYPE_SCHED_CLS` -/
def bpfProgTypeSchedCls : Nat := 3

/-- What the compiler reads and writes of `struct bpf_prog` and its `aux`. -/
structure BpfProg where
  insnsi : List BpfInsn
  jitRequested : Bool
  type : Nat
  isFunc : Bool
  funcCnt : Nat
  funcInfoCnt : Nat
  usedMapCnt : Nat
  cbpfGate : Bool
  bpfFunc : Nat
  jited : Bool
  jitedLen : Nat
  /-- the byte offsets that `bpf_prog_fill_jited_linfo` receives -/
  linfo : List Nat

/-- The errors of the compiler. -/
inductive JitError where
  | einval
  | eopnotsupp
  | enomem
  deriving DecidableEq, Repr

def Errno.toJit : Errno → JitError
  | .einval => .einval
  | .eopnotsupp => .eopnotsupp

/-- The lines that the compiler prints. -/
inductive JitLine where
  | rejected (error : JitError)
  | accepted (insns words entry restrictedExit executiveExit : Nat)
  | map (pc first last : Nat) (code : Code) (op : Nat)
  | word (index : Nat) (value : Word)
  deriving DecidableEq, Repr

/-- The contents of a live binary. -/
structure Binary where
  words : List Word
  readOnly : Bool

/-- The program under compilation, the live allocations (contexts by number, binaries by the address
of their image) and what has been printed. -/
structure JitState where
  prog : BpfProg
  contexts : Nat
  binaries : Nat → Option Binary
  printed : List JitLine

/-- What the kernel answers: is blinding enabled, does `kzalloc` succeed, and where does
`bpf_jit_binary_alloc` put an image of so many bytes? -/
structure JitServices where
  blinding : Bool
  kzalloc : Bool
  binaryAlloc : Nat → Option Nat

/-- `cbpf_jit_match`. -/
def cbpfJitMatch (k : Kfuncs) (prog : BpfProg) : BpfProg × Bool :=
  -- Also marks rejected programs so the caller forbids fallback.
  if prog.insnsi.any fun i => callOperation k i != 0 then ({ prog with cbpfGate := true }, true)
  else (prog, prog.cbpfGate)

/-- The first `if` of `cbpf_jit_compile`. -/
def unsupported (sys : JitServices) (prog : BpfProg) : Bool :=
  !prog.jitRequested || sys.blinding || prog.type != bpfProgTypeSchedCls || prog.isFunc ||
    prog.funcCnt != 0 || prog.funcInfoCnt != 0 || prog.usedMapCnt != 0 ||
    prog.insnsi.length == 0 || decide (prog.insnsi.length > cbpfMaxInsns)

namespace JitState

/-- `prog->aux->cbpf_gate = true` -/
def setGate (s : JitState) : JitState := { s with prog := { s.prog with cbpfGate := true } }

def print (s : JitState) (line : JitLine) : JitState := { s with printed := s.printed ++ [line] }

/-- The label `rejected`. -/
def rejected (s : JitState) (error : JitError) : JitState := s.print (.rejected error)

/-- `kzalloc(sizeof(*c), GFP_KERNEL)` that succeeds. -/
def allocContext (s : JitState) : JitState := { s with contexts := s.contexts + 1 }

/-- `kfree(c)`. -/
def freeContext (s : JitState) : JitState := { s with contexts := s.contexts - 1 }

/-- `bpf_jit_binary_alloc` that succeeds, with `fill_hole`. -/
def allocBinary (s : JitState) (address words : Nat) : JitState :=
  { s with binaries :=
      Function.update s.binaries address (some ⟨List.replicate words .breakFault, false⟩) }

/-- `bpf_jit_binary_free(header)`. -/
def freeBinary (s : JitState) (address : Nat) : JitState :=
  { s with binaries := Function.update s.binaries address none }

/-- What follows a passed check, up to `return prog`. -/
def publish (s : JitState) (address : Nat) (c : Compiler) : JitState :=
  let words := (List.range c.words).map (c.image.getD fun _ => .breakFault)
  let len := s.prog.insnsi.length
  { prog := { s.prog with
      bpfFunc := address
      jitedLen := c.words * 4
      jited := true
      linfo := (List.range len).map fun pc => c.offset (pc + 1) * 4 }
    contexts := s.contexts
    binaries := Function.update s.binaries address (some ⟨words, true⟩)
    printed := s.printed ++ [.accepted len c.words address c.restrictedExit c.executiveExit] ++
      (s.prog.insnsi.mapIdx fun pc i =>
        .map pc (c.offset pc) (c.offset (pc + 1)) i.code (c.operation pc)) ++
      words.mapIdx fun index value => .word index value }

end JitState

/-- `cbpf_jit_compile` after a successful `admit`. -/
def compileAdmitted (t : Target) (sys : JitServices) (a : Admission) (s : JitState) : JitState :=
  let c := (Compiler.ofAdmission s.prog.insnsi a).layoutPass t
  if c.failed || c.words = 0 then s.freeContext.rejected .einval
  else
    match sys.binaryAlloc (c.words * 4) with
    | none => s.freeContext.rejected .enomem
    | some address =>
      let s := s.allocBinary address c.words
      let c := (c.writePass t).checkPass t
      if c.failed || c.index ≠ c.words then (s.freeBinary address).freeContext.rejected .einval
      else (s.publish address c).freeContext

/-- `cbpf_jit_compile`. -/
def cbpfJitCompile (t : Target) (k : Kfuncs) (sys : JitServices) (s : JitState) : JitState :=
  let s := s.setGate
  if unsupported sys s.prog then s.rejected .eopnotsupp
  else if !sys.kzalloc then s.rejected .enomem
  else
    match admitProgram k s.prog.insnsi with
    | .error error => s.allocContext.freeContext.rejected error.toJit
    | .ok a => compileAdmitted t sys a s.allocContext

/-- A program is claimed by the compiler exactly when it is marked. -/
theorem cbpfJitMatch_marks (k : Kfuncs) (prog : BpfProg) :
    (cbpfJitMatch k prog).2 = (cbpfJitMatch k prog).1.cbpfGate := by
  unfold cbpfJitMatch
  split <;> rfl

/-! ### The paths through the compiler -/

/-- Why a compilation is rejected. -/
inductive Refusal (t : Target) (k : Kfuncs) (sys : JitServices) (prog : BpfProg) : JitError → Prop
  | unsupported : unsupported sys prog = true → Refusal t k sys prog .eopnotsupp
  | context : sys.kzalloc = false → Refusal t k sys prog .enomem
  | admission (error : Errno) : admitProgram k prog.insnsi = .error error →
      Refusal t k sys prog error.toJit
  | binary (a : Admission) : admitProgram k prog.insnsi = .ok a →
      sys.binaryAlloc (((Compiler.ofAdmission prog.insnsi a).layoutPass t).words * 4) = none →
      Refusal t k sys prog .enomem
  /-- the generator's own checks -/
  | check (a : Admission) : prog.insnsi.length ≤ cbpfMaxInsns → admitProgram k prog.insnsi = .ok a →
      (Compiler.ofAdmission prog.insnsi a).passes t = none → Refusal t k sys prog .einval

/-- What a compilation does. -/
inductive Compiled (t : Target) (k : Kfuncs) (sys : JitServices) (s : JitState) : JitState → Prop
  | rejected (error : JitError) : Refusal t k sys s.prog error →
      Compiled t k sys s (s.setGate.rejected error)
  /-- the image was allocated, failed the comparison and is freed -/
  | freed (a : Admission) (n address : Nat) : s.prog.insnsi.length ≤ cbpfMaxInsns →
      admitProgram k s.prog.insnsi = .ok a →
      (Compiler.ofAdmission s.prog.insnsi a).passes t = none → sys.binaryAlloc n = some address →
      Compiled t k sys s ((s.setGate.freeBinary address).rejected .einval)
  | completed (a : Admission) (c : Compiler) (address : Nat) :
      s.prog.insnsi.length ≤ cbpfMaxInsns → admitProgram k s.prog.insnsi = .ok a →
      (Compiler.ofAdmission s.prog.insnsi a).passes t = some c →
      sys.binaryAlloc (((Compiler.ofAdmission s.prog.insnsi a).layoutPass t).words * 4) =
        some address →
      Compiled t k sys s (s.setGate.publish address c)

/-- Freeing a binary takes out whatever the allocation has put there. -/
theorem freeBinary_allocBinary (s : JitState) (address words : Nat) :
    (s.allocBinary address words).freeBinary address = s.freeBinary address := by
  unfold JitState.freeBinary JitState.allocBinary
  dsimp only
  rw [Function.update_idem]

/-- Freeing a binary that was not there before the allocation restores the allocations. -/
theorem freeBinary_of_fresh {s : JitState} {address : Nat} (h : s.binaries address = none) :
    s.freeBinary address = s := by
  have hbinaries : Function.update s.binaries address none = s.binaries := by
    rw [← h, Function.update_eq_self]
  exact congrArg (fun b => { s with binaries := b }) hbinaries

/-- Publishing overwrites the placeholder of the allocation. -/
theorem publish_allocBinary (s : JitState) (address words : Nat) (c : Compiler) :
    (s.allocBinary address words).publish address c = s.publish address c := by
  unfold JitState.publish JitState.allocBinary
  dsimp only
  rw [Function.update_idem]

theorem passes_of_stages {t : Target} {c c₁ : Compiler} (h₁ : c.layoutPass t = c₁) :
    c.passes t = if c₁.failed || c₁.words = 0 then none
      else if ((c₁.writePass t).checkPass t).failed ||
          ((c₁.writePass t).checkPass t).index ≠ ((c₁.writePass t).checkPass t).words then none
      else some ((c₁.writePass t).checkPass t) := by
  rw [← h₁]
  rfl

/-- A program that passes the first `if` is short. -/
theorem length_le_of_supported {sys : JitServices} {prog : BpfProg}
    (h : unsupported sys prog = false) : prog.insnsi.length ≤ cbpfMaxInsns := by
  simp only [unsupported, Bool.or_eq_false_iff, decide_eq_false_iff_not] at h
  omega

/-- Every path after admission. -/
theorem compileAdmitted_compiled {t : Target} {k : Kfuncs} {sys : JitServices} {s : JitState}
    {a : Admission} (hlen : s.prog.insnsi.length ≤ cbpfMaxInsns)
    (haccepted : admitProgram k s.prog.insnsi = .ok a) :
    Compiled t k sys s (compileAdmitted t sys a s.setGate.allocContext) := by
  have hpasses := passes_of_stages (t := t) (c := Compiler.ofAdmission s.prog.insnsi a) rfl
  unfold compileAdmitted
  rw [show s.setGate.allocContext.prog.insnsi = s.prog.insnsi from rfl]
  dsimp only
  split at hpasses
  · rename_i hlayout
    rw [if_pos hlayout]
    exact .rejected _ (.check a hlen haccepted hpasses)
  rename_i hlayout
  rw [if_neg hlayout]
  cases halloc : sys.binaryAlloc
      (((Compiler.ofAdmission s.prog.insnsi a).layoutPass t).words * 4) with
  | none => exact .rejected _ (.binary a haccepted halloc)
  | some address =>
    dsimp only
    split at hpasses
    · rename_i hcheck
      rw [if_pos hcheck, freeBinary_allocBinary]
      exact .freed a _ address hlen haccepted hpasses halloc
    · rename_i hcheck
      rw [if_neg hcheck, publish_allocBinary]
      exact .completed a _ address hlen haccepted hpasses halloc

/-- Every path through the compiler. -/
theorem cbpfJitCompile_compiled (t : Target) (k : Kfuncs) (sys : JitServices) (s : JitState) :
    Compiled t k sys s (cbpfJitCompile t k sys s) := by
  unfold cbpfJitCompile
  dsimp only
  by_cases hunsupported : unsupported sys s.prog = true
  · rw [if_pos (show unsupported sys s.setGate.prog = true from hunsupported)]
    exact .rejected _ (.unsupported hunsupported)
  rw [if_neg (show ¬ unsupported sys s.setGate.prog = true from hunsupported)]
  have hlen := length_le_of_supported (Bool.eq_false_iff.mpr hunsupported)
  by_cases hcontext : sys.kzalloc = true
  · rw [if_neg (by simp [hcontext])]
    rw [show s.setGate.prog.insnsi = s.prog.insnsi from rfl]
    cases haccepted : admitProgram k s.prog.insnsi with
    | error error => exact .rejected _ (.admission error haccepted)
    | ok a => exact compileAdmitted_compiled hlen haccepted
  · rw [if_pos (by simpa using hcontext)]
    exact .rejected _ (.context (by simpa using hcontext))

/-! ### The passes of an admitted program -/

namespace Compiler

/-- The templates of `body` from instruction `pc` on. -/
def bodyTemplates (c : Compiler) : Nat → List BpfInsn → List Template
  | _, [] => []
  | pc, i :: rest => (insnTemplates c pc i).getD [] ++ bodyTemplates c (pc + 1) rest

/-- Everything that a `generate` call passes to `word`. -/
def imageTemplates (t : Target) (c : Compiler) : List Template :=
  prologueTemplates t c ++ bodyTemplates c 0 c.prog ++ [fun _ => .capRetClr] ++ executiveTemplates t

/-- The three `generate` calls that start from `c`. The second and the third compare what they meet
with what the first has recorded. -/
structure PassesAgree (t : Target) (c : Compiler) : Prop where
  layoutOk : (c.layoutPass t).failed = false
  writeOk : ((c.layoutPass t).writePass t).failed = false
  checkOk : (((c.layoutPass t).writePass t).checkPass t).failed = false
  layout : Records (c.layoutPass t) c.prog.length (found t c)
  write : Records (c.layoutPass t) c.prog.length
    (found t { c.layoutPass t with image := some fun _ => .breakFault })
  check : Records (c.layoutPass t) c.prog.length
    (found t { (c.layoutPass t).writePass t with check := true })
  words : (c.layoutPass t).words = (c.layoutPass t).index
  words_pos : 0 < (c.layoutPass t).words
  words_lt : (c.layoutPass t).words < cbpfMaxWords

variable {t : Target} {c : Compiler}

/-- The passes of a program within the grammar agree. -/
theorem passesAgree (henc : t.Encodes) (hc : Compilable c) (hb : Bounded c)
    (himage : c.image = none) (hcheck : c.check = false) (hfailed : c.failed = false) :
    PassesAgree t c := by
  obtain ⟨c₁, image, hfirst, hsecond, hthird, hprog, _, hfailed₁, hindex, hlaid, _⟩ :=
    passes_stages henc hc hb himage hcheck
  have htotal := totalWords_le t hc.length_le
  have hpos : 0 < totalWords t c.prog := by
    unfold totalWords
    omega
  have hwords : c₁.words = totalWords t c.prog := by
    rw [← hprog]
    exact hlaid.words
  have hok : c₁.failed = false := hfailed₁.trans hfailed
  have hlayoutMet : Records c₁ c.prog.length (found t c) := by
    have hgenerate : (c.generate t).failed = false := by
      rw [← hfirst] at hok
      exact hok
    obtain ⟨_, hmet⟩ := generate_met hgenerate
    rw [← hfirst]
    exact ⟨hmet.offset, hmet.restrictedExit, hmet.executiveExit, hmet.executiveWords, hmet.words⟩
  have hwriteMet : Records c₁ c.prog.length
      (found t { c₁ with image := some fun _ => .breakFault }) := by
    have hgenerate : (({ c₁ with image := some fun _ => .breakFault } : Compiler).generate t) =
        { c₁ with image := some image } := hsecond
    obtain ⟨_, hmet⟩ := generate_met (t := t)
      (c := { c₁ with image := some fun _ => .breakFault }) (by rw [hgenerate]; exact hok)
    rw [hgenerate] at hmet
    rw [← hprog]
    exact ⟨hmet.offset, hmet.restrictedExit, hmet.executiveExit, hmet.executiveWords, hmet.words⟩
  have hcheckMet : Records c₁ c.prog.length
      (found t { c₁ with image := some image, check := true }) := by
    have hgenerate : (({ c₁ with image := some image, check := true } : Compiler).generate t) =
        { c₁ with image := some image, check := true } := hthird
    obtain ⟨_, hmet⟩ := generate_met (t := t)
      (c := { c₁ with image := some image, check := true }) (by rw [hgenerate]; exact hok)
    rw [hgenerate] at hmet
    rw [← hprog]
    exact ⟨hmet.offset, hmet.restrictedExit, hmet.executiveExit, hmet.executiveWords, hmet.words⟩
  refine {
    layoutOk := by rw [hfirst]; exact hok
    writeOk := by rw [hfirst, hsecond]; exact hok
    checkOk := by rw [hfirst, hsecond, hthird]; exact hok
    layout := by rw [hfirst]; exact hlayoutMet
    write := by rw [hfirst]; exact hwriteMet
    check := by rw [hfirst, hsecond]; exact hcheckMet
    words := by rw [hfirst, hwords, hindex]
    words_pos := by rw [hfirst, hwords]; exact hpos
    words_lt := ?_ }
  rw [hfirst, hwords]
  unfold cbpfMaxWords
  omega

/-! ### The checked image as a list of words -/

variable {image : Nat → Word}

/-- The words of the whole body, by induction on the instructions to come. -/
theorem holds_bodyTemplates (hl : LaidOut t c) (hw : Written t c image) {rest : List BpfInsn}
    {pc : Nat} (hrest : c.prog.drop pc = rest) (hpc : pc ≤ c.prog.length) :
    Holds image (startOf t c.prog pc) (bodyTemplates c pc rest) ∧
      startOf t c.prog pc + (bodyTemplates c pc rest).length = startOf t c.prog c.prog.length := by
  induction rest generalizing pc with
  | nil =>
    obtain rfl := rest_nil hrest hpc
    refine ⟨fun i x hx => ?_, rfl⟩
    cases hx
  | cons i rest ih =>
    obtain ⟨hi, hlt, hdrop⟩ := rest_cons hrest
    obtain ⟨ts, hts, hwidth, _⟩ := insnTemplates_some hl.compilable hl.bounded hi
    obtain ⟨hholds, hlength⟩ := ih hdrop hlt
    have hnext := startOf_succ t hi
    rw [bodyTemplates, hts, Option.getD_some, List.length_append]
    refine ⟨Holds.append (hw.insn pc i ts hi hts) ?_, by omega⟩
    rw [hwidth, ← hnext]
    exact hholds

/-- The image is its templates, each at its own index. -/
theorem image_eq_templates (hl : LaidOut t c) (hw : Written t c image) :
    (List.range c.words).map image = (imageTemplates t c).mapIdx fun n x => x n := by
  obtain ⟨hbody, hlength⟩ := holds_bodyTemplates hl hw (show c.prog.drop 0 = c.prog from rfl)
    (Nat.zero_le _)
  have hstart : startOf t c.prog 0 = prologueLength t := rfl
  have hprologue := length_prologue t c
  have hexecutive := length_executive t
  have hwords := hl.words
  unfold totalWords at hwords
  have hholds : Holds image 0 (imageTemplates t c) := by
    refine Holds.append (Holds.append (Holds.append hw.prologue ?_) ?_) ?_
    · rw [Nat.zero_add, hprologue]
      exact hbody
    · rw [List.length_append, hprologue, Nat.zero_add, ← hstart, hlength]
      exact hw.restrictedExit
    · rw [List.length_append, List.length_append, hprologue, Nat.zero_add, ← hstart, hlength]
      exact hw.executive
  have hlen : (imageTemplates t c).length = c.words := by
    rw [imageTemplates, List.length_append, List.length_append, List.length_append, hprologue,
      hexecutive, List.length_singleton]
    omega
  apply List.ext_getElem?
  intro n
  rw [List.getElem?_map, List.getElem?_mapIdx]
  rcases Nat.lt_or_ge n c.words with hlt | hge
  · have hx := List.getElem?_eq_getElem (l := imageTemplates t c) (i := n) (by omega)
    rw [hx, List.getElem?_range hlt, Option.map_some, Option.map_some]
    have := hholds n _ hx
    rw [Nat.zero_add] at this
    rw [this]
  · rw [List.getElem?_eq_none (by simpa using hge), List.getElem?_eq_none (by omega)]
    rfl

end Compiler

/-! ### What the callers see -/

/-- A rejected compilation leaves the mark on the program and nothing else. -/
structure Rejected (s : JitState) (error : JitError) (s' : JitState) : Prop where
  prog : s'.prog = { s.prog with cbpfGate := true }
  contexts : s'.contexts = s.contexts
  binaries : s'.binaries = s.binaries
  printed : s'.printed = s.printed ++ [.rejected error]

/-- A completed compilation publishes the image, whose words are the templates. -/
structure Completed (t : Target) (s : JitState) (c : Compiler) (address : Nat) (s' : JitState) :
    Prop where
  prog : s'.prog = { s.prog with
    cbpfGate := true, bpfFunc := address, jited := true, jitedLen := 4 * c.words,
    linfo := (List.range s.prog.insnsi.length).map fun pc => c.offset (pc + 1) * 4 }
  contexts : s'.contexts = s.contexts
  binaries : s'.binaries = Function.update s.binaries address
    (some ⟨(c.imageTemplates t).mapIdx fun n x => x n, true⟩)

/-- With an allocator that hands out unused addresses, no path leaks or publishes half an image,
whatever the instruction encoder makes of the templates. -/
theorem Compiled.clean {t : Target} {k : Kfuncs} {sys : JitServices} {s s' : JitState}
    (h : Compiled t k sys s s')
    (hfresh : ∀ n address, sys.binaryAlloc n = some address → s.binaries address = none) :
    (∃ error, Rejected s error s') ∨ ∃ address c, s' = s.setGate.publish address c := by
  cases h with
  | rejected error => exact .inl ⟨error, rfl, rfl, rfl, rfl⟩
  | freed _ n address _ _ _ halloc =>
    refine .inl ⟨.einval, ?_⟩
    rw [freeBinary_of_fresh (s := s.setGate) (hfresh n address halloc)]
    exact ⟨rfl, rfl, rfl, rfl⟩
  | completed a c address => exact .inr ⟨address, c, rfl⟩

/-- With macros that encode their operands, the generator never rejects what `admit` has accepted. -/
theorem passes_ne_none {t : Target} {k : Kfuncs} {prog : List BpfInsn} {a : Admission}
    (henc : t.Encodes) (hlen : prog.length ≤ cbpfMaxInsns) (h : admitProgram k prog = .ok a) :
    (Compiler.ofAdmission prog a).passes t ≠ none := by
  obtain ⟨c, _, hsome, _⟩ := compile_written henc h hlen
  rw [hsome]
  exact nofun

/-- The reasons that are left. -/
theorem Refusal.reason {t : Target} {k : Kfuncs} {sys : JitServices} {prog : BpfProg}
    {error : JitError} (henc : t.Encodes) (h : Refusal t k sys prog error) :
    (error = .eopnotsupp ∧ Jit.unsupported sys prog = true) ∨
      (∃ e, admitProgram k prog.insnsi = .error e ∧ error = e.toJit) ∨
      (error = .enomem ∧ (sys.kzalloc = false ∨ ∃ n, sys.binaryAlloc n = none)) := by
  cases h with
  | unsupported h => exact .inl ⟨rfl, h⟩
  | context h => exact .inr (.inr ⟨rfl, .inl h⟩)
  | admission e h => exact .inr (.inl ⟨e, h, rfl⟩)
  | binary a _ h => exact .inr (.inr ⟨rfl, .inr ⟨_, h⟩⟩)
  | check a hlen haccepted hpasses => exact absurd hpasses (passes_ne_none henc hlen haccepted)

/-- Once admitted, a program is not rejected by the compiler's own checks. The three passes of every
admitted program agree; and every compilation marks the program and then either changes nothing
else, for a reason that is no check of the generator, or publishes the image of the templates. -/
theorem compile_never_rejects_itself (t : Target) (k : Kfuncs) (henc : t.Encodes) :
    (∀ prog a, admitProgram k prog = .ok a → prog.length ≤ cbpfMaxInsns →
      (Compiler.ofAdmission prog a).PassesAgree t) ∧
    ∀ sys s,
      (cbpfJitCompile t k sys s).prog.cbpfGate = true ∧
      ((∃ error, Rejected s error (cbpfJitCompile t k sys s) ∧
        ((error = .eopnotsupp ∧ unsupported sys s.prog = true) ∨
          (∃ e, admitProgram k s.prog.insnsi = .error e ∧ error = e.toJit) ∨
          (error = .enomem ∧ (sys.kzalloc = false ∨ ∃ n, sys.binaryAlloc n = none)))) ∨
      ∃ a c address, admitProgram k s.prog.insnsi = .ok a ∧
        (Compiler.ofAdmission s.prog.insnsi a).passes t = some c ∧
        sys.binaryAlloc (c.words * 4) = some address ∧
        Completed t s c address (cbpfJitCompile t k sys s)) := by
  refine ⟨fun prog a h hlen => ?_, fun sys s => ?_⟩
  · exact Compiler.passesAgree henc (compilable_of_admitted h hlen) (bounded_ofAdmission prog a)
      rfl rfl rfl
  have hcompiled := cbpfJitCompile_compiled t k sys s
  generalize cbpfJitCompile t k sys s = s' at hcompiled ⊢
  cases hcompiled with
  | rejected error h => exact ⟨rfl, .inl ⟨error, ⟨rfl, rfl, rfl, rfl⟩, h.reason henc⟩⟩
  | freed a n address hlen haccepted hpasses =>
    exact absurd hpasses (passes_ne_none henc hlen haccepted)
  | completed a c address hlen haccepted hpasses halloc =>
    obtain ⟨c₁, image, hfirst, hsecond, hthird, hprog, _, _, _, hlaid, hwritten⟩ :=
      Compiler.passes_stages henc (compilable_of_admitted haccepted hlen)
        (bounded_ofAdmission s.prog.insnsi a) rfl rfl
    have hc : c = { c₁ with image := some image, check := true } := by
      rw [passes_of_stages hfirst, hsecond, hthird] at hpasses
      split at hpasses
      · cases hpasses
      · split at hpasses
        · cases hpasses
        · exact (Option.some.inj hpasses).symm
    subst hc
    rw [hfirst] at halloc
    refine ⟨rfl, .inr ⟨a, _, address, haccepted, hpasses, halloc, ?_, rfl, ?_⟩⟩
    · unfold JitState.publish
      dsimp only
      rw [Nat.mul_comm 4]
      rfl
    · rw [← Compiler.image_eq_templates hlaid hwritten]
      rfl

/-- The services of a kernel that has memory, and a program that asks for compilation. -/
def plainServices : JitServices := ⟨false, true, fun _ => some 0x10000⟩

def requested (insnsi : List BpfInsn) : JitState where
  prog := ⟨insnsi, true, bpfProgTypeSchedCls, false, 0, 0, 0, false, 0, false, 0, []⟩
  contexts := 0
  binaries := fun _ => none
  printed := []

/-- The sample program is compiled, to the number of words that its layout pass found. -/
theorem compile_never_rejects_itself_acquireRelease : ∃ a c,
    admitProgram immKfuncs acquireRelease = .ok a ∧
    (Compiler.ofAdmission acquireRelease a).passes plainTarget = some c ∧
    (Compiler.ofAdmission acquireRelease a).PassesAgree plainTarget ∧
    Completed plainTarget (requested acquireRelease) c 0x10000
      (cbpfJitCompile plainTarget immKfuncs plainServices (requested acquireRelease)) := by
  have henc : plainTarget.Encodes := fun _ h => h
  obtain ⟨a₀, haccepted⟩ := acquireRelease_admitted
  obtain ⟨hagree, hcompile⟩ := compile_never_rejects_itself plainTarget immKfuncs henc
  obtain ⟨_, h | ⟨a, c, address, haccepted, hpasses, halloc, hdone⟩⟩ :=
    hcompile plainServices (requested acquireRelease)
  · obtain ⟨error, _, ⟨_, h⟩ | ⟨e, h, _⟩ | ⟨_, h | ⟨n, h⟩⟩⟩ := h
    · exact absurd h (by decide)
    · rw [show (requested acquireRelease).prog.insnsi = acquireRelease from rfl] at h
      rw [haccepted] at h
      cases h
    · cases h
    · cases h
  · obtain rfl : 0x10000 = address := Option.some.inj halloc
    exact ⟨a, c, haccepted, hpasses, hagree acquireRelease a haccepted (by decide), hdone⟩

end Cbpf.Jit
