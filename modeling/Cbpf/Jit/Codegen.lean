import Cbpf.Jit.Admit

/-!
# The code generator (`src/linux/ownership/cbpf_jit.c`, lines 194-358)

An emitted word is an `A64_*` macro or a `CAP_*` template with its operands; what the macros make
of them is a parameter. The same three functions run three times over one context: to lay out the
image, to write it and to check it.
-/

namespace Cbpf.Jit

/-- A word of the image. Registers are 0 to 31; 31 is `A64_SP` or `A64_ZR`, `csp` as the base of a
capability access. Branch offsets count words, that of `adr` bytes. -/
inductive Word where
  | breakFault
  | btiJc
  | nop
  | paciasp
  | autiasp
  | mov (dst src : Nat)
  | movz (dst imm shift : Nat)
  | movk (dst imm shift : Nat)
  | addI (dst src imm : Nat)
  | subI (dst src imm : Nat)
  | push (src₁ src₂ : Nat)
  | pop (dst₁ dst₂ : Nat)
  | str64I (src base imm : Nat)
  | adr (dst : Nat) (offset : Int)
  | b (offset : Int)
  | cbz (src : Nat) (offset : Int)
  | blr (target : Nat)
  | ret (target : Nat)
  | capMov (dst src : Nat)
  | capStr (src base : Nat)
  | capLdr (dst base : Nat)
  | capBlrs (target : Nat)
  | capRetClr
  | capLdrC16Sp
  | capRetrC16
  | capGctag (dst src : Nat)
  deriving DecidableEq, Repr

/-- `CBPF_MAX_INSNS` -/
def cbpfMaxInsns : Nat := 64
/-- `CBPF_MAX_WORDS` -/
def cbpfMaxWords : Nat := 1024

/-- `A64_FP`, `A64_LR` and `A64_SP` (also `A64_ZR`). -/
def a64Fp : Nat := 29
def a64Lr : Nat := 30
def a64Sp : Nat := 31

/-- `native_reg` -/
def nativeReg (r : Nat) : Nat := [7, 0, 1, 2, 3, 4, 19, 20, 21, 22].getD r 0

/-- The configuration, the two addresses that the prologue materialises and the instruction
encoder: does a macro return anything but `AARCH64_BREAK_FAULT`? -/
structure Target where
  bti : Bool
  ptrAuth : Bool
  prog : BitVec 64
  cbpfEnter : BitVec 64
  encodes : Word → Bool

/-- `struct cbpf_compiler`, after admission. -/
structure Compiler where
  prog : List BpfInsn
  operation : Nat → Nat
  offset : Nat → Nat
  image : Option (Nat → Word)
  index : Nat
  words : Nat
  restrictedExit : Nat
  executiveExit : Nat
  executiveWords : Nat
  check : Bool
  failed : Bool

/-- A word as a function of the index at which it is emitted. -/
abbrev Template := Nat → Word

namespace Compiler

variable (t : Target)

/-- The context that admission leaves. -/
def ofAdmission (prog : List BpfInsn) (c : Admission) : Compiler where
  prog := prog
  operation := c.operation
  offset := fun _ => 0
  image := none
  index := 0
  words := 0
  restrictedExit := 0
  executiveExit := 0
  executiveWords := 0
  check := false
  failed := false

/-- `c->failed = true` -/
def fail (c : Compiler) : Compiler := { c with failed := true }

/-- `word`. -/
def word (c : Compiler) (instruction : Word) : Compiler :=
  if c.index ≥ cbpfMaxWords || (c.image.isSome && c.index ≥ c.words) ||
      !t.encodes instruction then c.fail
  else
    match c.image with
    | none => { c with index := c.index + 1 }
    | some image =>
      if c.check then
        { c with failed := c.failed || image c.index != instruction, index := c.index + 1 }
      else
        { c with image := some (Function.update image c.index instruction), index := c.index + 1 }

/-- Successive calls of `word`. -/
def emit (c : Compiler) (ts : List Template) : Compiler :=
  ts.foldl (fun c template => c.word t (template c.index)) c

end Compiler

/-- `immediate`. -/
def immediate (reg : Nat) (value : BitVec 64) : List Template :=
  (fun _ => .movz reg (value.toNat % 2 ^ 16) 0) ::
    [16, 32, 48].map fun shift _ => .movk reg (value.toNat / 2 ^ shift % 2 ^ 16) shift

/-- `clear_registers`. -/
def clearRegisters (entering : Bool) : List Template :=
  ((List.range 30).filter fun reg => if entering then reg != 15 && reg != 17 else reg != 7).map
    fun reg _ => .movz reg 0 0

/-- The words of `prologue`. -/
def prologueTemplates (t : Target) (c : Compiler) : List Template :=
  (if t.bti then [fun _ => .btiJc] else [] : List Template) ++
  ([fun _ => .mov 9 a64Lr,
    -- Preserve the stock entry layout; attachment forbidden.
    fun _ => .nop] : List Template) ++
  (if t.ptrAuth then [fun _ => .paciasp] else [] : List Template) ++
  ([fun _ => .push a64Fp a64Lr,
    fun _ => .mov a64Fp a64Sp] : List Template) ++
  ([19, 21, 23, 25, 27].map fun reg _ => .push reg (reg + 1) : List Template) ++
  ([fun _ => .push a64Sp a64Sp,
    fun _ => .subI a64Sp a64Sp 16,
    fun _ => .mov 0 a64Sp,
    fun _ => .movz 1 16 0,
    fun index => .adr 2 (((c.executiveExit : Int) - index) * 4),
    fun _ => .movz 3 (c.executiveWords * 4) 0,
    fun _ => .mov 4 9] : List Template) ++
  immediate 5 t.prog ++
  immediate 10 t.cbpfEnter ++
  ([fun _ => .blr 10,
    -- Successful entry resumes here with x0=0 in restricted mode.
    fun _ => .cbz 0 3,
    fun _ => .movz 7 0 0,
    fun index => .b ((c.executiveExit : Int) - index)] : List Template) ++
  clearRegisters true

/-- The words of one instruction in `body`; `none` outside the admitted grammar. -/
def insnTemplates (c : Compiler) (pc : Nat) (i : BpfInsn) : Option (List Template) :=
  match i.code with
  | .alu64MovX => some [fun _ => .capMov (nativeReg i.dstReg) (nativeReg i.srcReg)]
  | .alu64MovK => some (immediate (nativeReg i.dstReg) (i.imm.signExtend 64))
  | .stxMemDw => some [fun _ => .capStr (nativeReg i.srcReg) a64Sp]
  | .ldxMemDw => some [fun _ => .capLdr (nativeReg i.dstReg) a64Sp]
  | .jmpJeqK => some [fun index =>
      .cbz (nativeReg i.dstReg) ((c.offset (pc + 1 + i.off).toNat : Int) - index)]
  | .jmpCall => some
      [fun _ => .movz 4 (c.operation pc) 0,
        fun _ => .movz 5 pc 0,
        fun _ => .capMov 13 30,
        fun _ => .capBlrs 17,
        fun _ => .capMov 7 0]
  | .jmpExit => some [fun index => .b ((c.restrictedExit : Int) - index)]
  | .other _ => none

/-- The words of `epilogue` that make up the executive exit. -/
def executiveTemplates (t : Target) : List Template :=
  -- Normal return, entry rejection and terminal gate abort share scrub.
  ([fun _ => .str64I a64Sp a64Sp 0,
    fun _ => .str64I a64Sp a64Sp 8,
    fun _ => .mov 7 7] : List Template) ++
  clearRegisters false ++
  ([fun _ => .addI a64Sp a64Sp 16,
    fun _ => .capLdrC16Sp,
    fun _ => .addI a64Sp a64Sp 16] : List Template) ++
  ([27, 25, 23, 21, 19].map fun reg _ => .pop reg (reg + 1) : List Template) ++
  ([fun _ => .pop a64Fp a64Lr,
    fun _ => .mov 0 7] : List Template) ++
  (if t.ptrAuth then [fun _ => .autiasp] else [] : List Template) ++
  ([fun _ => .capGctag 10 16,
    fun _ => .cbz 10 2,
    fun _ => .capRetrC16,
    -- Only the executive entry-error path.
    fun _ => .ret a64Lr] : List Template)

namespace Compiler

variable (t : Target)

/-- `prologue`. -/
def prologue (c : Compiler) : Compiler := c.emit t (prologueTemplates t c)

/-- Record or check the start of the instruction at `pc`. -/
def markOffset (c : Compiler) (pc : Nat) : Compiler :=
  if c.image.isNone then { c with offset := Function.update c.offset pc c.index }
  else if c.offset pc ≠ c.index then c.fail
  else c

/-- The loop of `body` from `pc` on. -/
def bodyLoop : Nat → List BpfInsn → Compiler → Compiler
  | pc, [], c => c.markOffset pc
  | pc, i :: rest, c =>
    let c := c.markOffset pc
    bodyLoop (pc + 1) rest <|
      match insnTemplates c pc i with
      | some ts => c.emit t ts
      | none => c.fail

/-- `body`. -/
def body (c : Compiler) : Compiler := bodyLoop t 0 c.prog c

/-- Record or check the start of the restricted exit. -/
def markRestrictedExit (c : Compiler) : Compiler :=
  if c.image.isNone then { c with restrictedExit := c.index }
  else if c.restrictedExit ≠ c.index then c.fail
  else c

/-- Record or check the start of the executive exit. -/
def markExecutiveExit (c : Compiler) : Compiler :=
  if c.image.isNone then { c with executiveExit := c.index }
  else if c.executiveExit ≠ c.index then c.fail
  else c

/-- Record or check the length of the executive exit. -/
def markExecutiveWords (c : Compiler) (start : Nat) : Compiler :=
  if c.image.isNone then { c with executiveWords := c.index - start }
  else if c.executiveWords ≠ c.index - start then c.fail
  else c

/-- `epilogue`. -/
def epilogue (c : Compiler) : Compiler :=
  let c := (c.markRestrictedExit.emit t [fun _ => .capRetClr]).markExecutiveExit
  (c.emit t (executiveTemplates t)).markExecutiveWords c.index

/-- `generate`. -/
def generate (c : Compiler) : Compiler :=
  ((({ c with index := 0 } : Compiler).prologue t).body t).epilogue t

/-- Layout only; instruction and branch lengths are fixed. -/
def layoutPass (c : Compiler) : Compiler :=
  let c := c.generate t
  { c with words := c.index }

/-- Emission into an image of `AARCH64_BREAK_FAULT`. -/
def writePass (c : Compiler) : Compiler :=
  ({ c with image := some fun _ => .breakFault } : Compiler).generate t

/-- Comparison of every final word. -/
def checkPass (c : Compiler) : Compiler := ({ c with check := true } : Compiler).generate t

/-- The three passes of `cbpf_jit_compile` after admission; `none` is the error. -/
def passes (c : Compiler) : Option Compiler :=
  let c := c.layoutPass t
  if c.failed || c.words = 0 then none
  else
    let c := (c.writePass t).checkPass t
    if c.failed || c.index ≠ c.words then none else some c

end Compiler

end Cbpf.Jit
