import Cbpf.RunInvariant

/-!
# Replacing one instruction of a program

Two programs that differ in one instruction run alike until they reach it.
-/

namespace Cbpf

open BoundedLoop

/-- `p` with `x` as instruction `k`. -/
def InsnPtr.replace (p : InsnPtr) (k : Nat) (x : Insn) : InsnPtr :=
  p.map fun f => Function.update f k x

variable {n k : Nat} {x : Insn}

theorem Validated.replace {p : Nat → Insn} (hv : Validated p n) (hok : insnOk n k x = true)
    (hlast : k = n - 1 → x.op = .ret) : Validated (Function.update p k x) n where
  pos := hv.pos
  le := hv.le
  ok := by
    intro i hi
    by_cases hik : i = k
    · rw [hik, Function.update_self]
      exact hok
    · rw [Function.update_of_ne hik]
      exact hv.ok i hi
  last := by
    by_cases hik : n - 1 = k
    · rw [hik, Function.update_self]
      exact hlast hik.symm
    · rw [Function.update_of_ne hik]
      exact hv.last

/-- A validated program is not NULL, and replacing an instruction updates the array. -/
theorem deref_replace {p : InsnPtr} (hvalid : cbpfValidate p n = .ok ()) (k : Nat) (x : Insn) :
    (p.replace k x).deref = Function.update p.deref k x ∧
      p.replace k x = some (Function.update p.deref k x) := by
  cases p with
  | none => simp [cbpfValidate] at hvalid
  | some f => exact ⟨rfl, rfl⟩

theorem cbpfValidate_replace {p : InsnPtr} (hvalid : cbpfValidate p n = .ok ())
    (hok : insnOk n k x = true) (hlast : k = n - 1 → x.op = .ret) :
    cbpfValidate (p.replace k x) n = .ok () := by
  rw [(deref_replace hvalid k x).2]
  exact cbpfValidate_of_validated ((validated_of_cbpfValidate hvalid).replace hok hlast)

namespace RunState

variable {p : Nat → Insn} {s t : RunState}

/-- A pass whose instruction was not replaced. -/
theorem body_replace (hne : s.pc ≠ k) :
    (cbpfRunLoop (Function.update p k x) n).body s = (cbpfRunLoop p n).body s := by
  change s.exec (Function.update p k x s.pc) = s.exec (p s.pc)
  rw [Function.update_of_ne hne]

/-- The run reaches the replaced instruction as before. -/
theorem visits_replace (hv : Validated p n) (h : (cbpfRunLoop p n).Visits init s) (hle : s.pc ≤ k) :
    (cbpfRunLoop (Function.update p k x) n).Visits init s := by
  induction h with
  | start => exact .start
  | @pass a b hvisit hg hb ih =>
    have hlt := ((visits_step hv hvisit hb).pc_next hv (visits_inv hv hvisit).2).1
    apply (ih (by omega)).pass hg
    rw [body_replace (by omega)]
    exact hb

end RunState

end Cbpf
