import Cbpf.RunInvariant
import Cbpf.Lib.Checked

/-!
# The reference interpreter with its accesses checked

`cbpf_run` (`src/cbpf.c:41-132`) once more, with every array access, every token that selects a cell
and the `default` branch checked. From a state that keeps the ownership invariant and has room in
its log, a checked pass raises no `Fault` and is the plain pass.
-/

namespace Cbpf

open BoundedLoop Checked

/-- What no run may do. -/
inductive Fault where
  /-- an access at `i` outside the array -/
  | index (i : Nat)
  /-- a cell selected by a token that names no acquisition -/
  | token (t : Nat)
  /-- the `default` branch of the `switch` -/
  | opcode
  /-- `identify` returned `GATE_REPRESENTATION` -/
  | representation
  deriving DecidableEq, Repr

/-- The element `a[i]`. -/
def element {α : Type} (a : List α) (i : Nat) : Except Fault Nat := index (.index i) a i

/-- The cell `token - 1` of an acquisition. -/
def cellOf (token acquired : Nat) : Except Fault Nat := do
  require (.token token) (1 ≤ token ∧ token ≤ acquired)
  return token - 1

namespace RunState

/-- `record` and the end of the pass. -/
def checkedStepTo (s : RunState) (op : Opcode) (token next : Nat) :
    Except Fault (Control RunState) := do
  let _ ← element s.r.events s.r.eventCount
  return .next (s.stepTo op token next)

def checkedTrapAt (s : RunState) (op : Opcode) (token : Nat) (t : Trap) :
    Except Fault (Control RunState) := do
  let _ ← element s.r.events s.r.eventCount
  return .finish (s.trapAt op token t)

def checkedReturnAt (s : RunState) (op : Opcode) (imm : Int) :
    Except Fault (Control RunState) := do
  let _ ← element s.r.events s.r.eventCount
  return .finish (s.returnAt op imm)

/-- `exec` with its accesses checked. -/
def checkedExec (s : RunState) (x : Insn) : Except Fault (Control RunState) := do
  let next := s.pc + 1
  let s := s.enter
  match x.op with
  | .acquire =>
    if x.imm = 0 then
      let dst ← element s.regs x.dst
      (s.setReg dst 0).checkedStepTo x.op 0 next
    else if s.r.acquired = cbpfCells then s.checkedTrapAt x.op 0 .exhausted
    else
      let cell ← cellOf (s.r.acquired + 1) (s.r.acquired + 1)
      let _ ← element s.live cell
      let dst ← element s.regs x.dst
      (s.acquire dst).checkedStepTo x.op (s.r.acquired + 1) next
  | .copy =>
    let src ← element s.regs x.src
    let dst ← element s.regs x.dst
    (s.setReg dst (s.reg src)).checkedStepTo x.op (s.reg src) next
  | .spill =>
    let src ← element s.regs x.src
    let dst ← element s.spills x.dst
    (s.setSpill dst (s.reg src)).checkedStepTo x.op (s.reg src) next
  | .reload =>
    let src ← element s.spills x.src
    let dst ← element s.regs x.dst
    (s.setReg dst (s.slot src)).checkedStepTo x.op (s.slot src) next
  | .read | .release =>
    let dst ← element s.regs x.dst
    let token := s.reg dst
    if token = 0 then s.checkedTrapAt x.op token .null
    else
      let cell ← cellOf token s.r.acquired
      let cell ← element s.live cell
      if !s.isLive cell then s.checkedTrapAt x.op token .stale
      else if x.op = .read then s.readField.checkedStepTo x.op token next
      else
        let _ ← element s.r.explicitByCell cell
        (s.release token).checkedStepTo x.op token next
  | .brNull =>
    let dst ← element s.regs x.dst
    let token := s.reg dst
    s.checkedStepTo x.op token (if token = 0 then sizeOfInt x.imm else next)
  | .ret => s.checkedReturnAt x.op x.imm
  | .other _ => throw .opcode

/-- `cleanupCell` with its accesses checked. -/
def checkedCleanupCell (s : RunState) (i : Nat) : Except Fault RunState := do
  let i ← element s.live i
  if !s.isLive i then return s
  else
    let _ ← element s.r.cleanupByCell i
    let _ ← element s.r.events s.r.eventCount
    return cleanupCell s i

def checkedCleanup (s : RunState) : Except Fault RunState :=
  (List.range s.r.acquired).foldlM checkedCleanupCell s

end RunState

theorem element_ok {α : Type} {a : List α} {i : Nat} (h : i < a.length) : element a i = .ok i :=
  index_ok h

theorem cellOf_ok {token acquired : Nat} (h0 : token ≠ 0) (hle : token ≤ acquired) :
    cellOf token acquired = .ok (token - 1) := by
  unfold cellOf
  rw [require_ok ⟨Nat.pos_of_ne_zero h0, hle⟩]
  rfl

namespace RunState

variable {s : RunState}

theorem checkedStepTo_ok (h : s.r.eventCount < s.r.events.length) (op : Opcode)
    (token next : Nat) : s.checkedStepTo op token next = .ok (.next (s.stepTo op token next)) := by
  unfold checkedStepTo
  rw [element_ok h]
  rfl

theorem checkedTrapAt_ok (h : s.r.eventCount < s.r.events.length) (op : Opcode) (token : Nat)
    (t : Trap) : s.checkedTrapAt op token t = .ok (.finish (s.trapAt op token t)) := by
  unfold checkedTrapAt
  rw [element_ok h]
  rfl

theorem checkedReturnAt_ok (h : s.r.eventCount < s.r.events.length) (op : Opcode) (imm : Int) :
    s.checkedReturnAt op imm = .ok (.finish (s.returnAt op imm)) := by
  unfold checkedReturnAt
  rw [element_ok h]
  rfl

/-- A pass on a validated instruction raises no fault. -/
theorem checkedExec_ok (hinv : Inv s) (hroom : s.r.eventCount < s.r.events.length) {x : Insn}
    {n i : Nat} (hok : insnOk n i x = true) : s.checkedExec x = .ok (s.exec x) := by
  have hregs : s.enter.regs.length = 4 := hinv.regs_length
  have hspills : s.enter.spills.length = 2 := hinv.spills_length
  have hlive : s.enter.live.length = 2 := hinv.live_length
  have hexplicit : s.enter.r.explicitByCell.length = 2 := hinv.explicit_length
  have hacq : s.enter.r.acquired ≤ 2 := hinv.acquired_le
  cases hop : x.op with
  | acquire =>
    obtain ⟨hd, _⟩ := insnOk_acquire hok hop
    simp only [checkedExec, exec, hop]
    by_cases hi : x.imm = 0
    · rw [if_pos hi, if_pos hi, element_ok (hregs ▸ hd), ok_bind]
      apply checkedStepTo_ok
      exact hroom
    · rw [if_neg hi, if_neg hi]
      by_cases ha : s.enter.r.acquired = cbpfCells
      · rw [if_pos ha, if_pos ha]
        apply checkedTrapAt_ok
        exact hroom
      · have hlt : s.enter.r.acquired < 2 := Nat.lt_of_le_of_ne hacq ha
        rw [if_neg ha, if_neg ha, cellOf_ok (Nat.succ_ne_zero _) (Nat.le_refl _), ok_bind,
          element_ok (hlive ▸ hlt), ok_bind, element_ok (hregs ▸ hd), ok_bind]
        apply checkedStepTo_ok
        exact hroom
  | copy =>
    obtain ⟨hd, hs⟩ := insnOk_copy hok hop
    simp only [checkedExec, exec, hop]
    rw [element_ok (hregs ▸ hs), ok_bind, element_ok (hregs ▸ hd), ok_bind]
    apply checkedStepTo_ok
    exact hroom
  | spill =>
    obtain ⟨hd, hs⟩ := insnOk_spill hok hop
    simp only [checkedExec, exec, hop]
    rw [element_ok (hregs ▸ hs), ok_bind, element_ok (hspills ▸ hd), ok_bind]
    apply checkedStepTo_ok
    exact hroom
  | reload =>
    obtain ⟨hd, hs⟩ := insnOk_reload hok hop
    simp only [checkedExec, exec, hop]
    rw [element_ok (hspills ▸ hs), ok_bind, element_ok (hregs ▸ hd), ok_bind]
    apply checkedStepTo_ok
    exact hroom
  | read =>
    have hd := insnOk_read hok hop
    have htoken : s.enter.reg x.dst ≤ s.enter.r.acquired := hinv.enter.reg_le x.dst
    simp only [checkedExec, exec, hop]
    rw [element_ok (hregs ▸ hd), ok_bind]
    by_cases ht : s.enter.reg x.dst = 0
    · rw [if_pos ht, if_pos ht]
      apply checkedTrapAt_ok
      exact hroom
    · rw [if_neg ht, if_neg ht, cellOf_ok ht htoken, ok_bind, element_ok (by omega), ok_bind]
      cases s.enter.isLive (s.enter.reg x.dst - 1) with
      | false =>
        simp only [Bool.not_false, if_true]
        apply checkedTrapAt_ok
        exact hroom
      | true =>
        simp only [Bool.not_true, Bool.false_eq_true, if_false, if_true]
        apply checkedStepTo_ok
        exact hroom
  | release =>
    have hd := insnOk_release hok hop
    have htoken : s.enter.reg x.dst ≤ s.enter.r.acquired := hinv.enter.reg_le x.dst
    simp only [checkedExec, exec, hop]
    rw [element_ok (hregs ▸ hd), ok_bind]
    by_cases ht : s.enter.reg x.dst = 0
    · rw [if_pos ht, if_pos ht]
      apply checkedTrapAt_ok
      exact hroom
    · rw [if_neg ht, if_neg ht, cellOf_ok ht htoken, ok_bind, element_ok (by omega), ok_bind]
      cases s.enter.isLive (s.enter.reg x.dst - 1) with
      | false =>
        simp only [Bool.not_false, if_true]
        apply checkedTrapAt_ok
        exact hroom
      | true =>
        simp only [Bool.not_true, Bool.false_eq_true, if_false, reduceCtorEq]
        rw [element_ok (by omega), ok_bind]
        apply checkedStepTo_ok
        exact hroom
  | brNull =>
    have hd := insnOk_brNull hok hop
    simp only [checkedExec, exec, hop]
    rw [element_ok (hregs ▸ hd.1), ok_bind]
    apply checkedStepTo_ok
    exact hroom
  | ret =>
    simp only [checkedExec, exec, hop]
    apply checkedReturnAt_ok
    exact hroom
  | other k => exact absurd hop (insnOk_other hok k)

/-- The events of the cleanup loop still fit. -/
theorem checkedCleanupCell_ok (hinv : Inv s) {i : Nat} (hi : i < 2)
    (hroom : s.r.eventCount < s.r.events.length) :
    s.checkedCleanupCell i = .ok (Cbpf.cleanupCell s i) := by
  unfold checkedCleanupCell
  rw [element_ok (by rw [hinv.live_length]; exact hi), ok_bind]
  cases hl : s.isLive i with
  | false =>
    rw [cleanupCell_dead hl]
    rfl
  | true =>
    rw [element_ok (by rw [hinv.cleanup_length]; exact hi), ok_bind, element_ok hroom]
    rfl

theorem eventCount_cleanupCell (s : RunState) (i : Nat) :
    (Cbpf.cleanupCell s i).r.eventCount ≤ s.r.eventCount + 1 ∧
      (Cbpf.cleanupCell s i).r.events.length = s.r.events.length := by
  unfold Cbpf.cleanupCell
  split
  · exact ⟨Nat.le_succ _, rfl⟩
  · exact ⟨Nat.le_refl _, List.length_set⟩

/-- The cleanup loop raises no fault when every acquired cell could still write its event. -/
theorem checkedCleanup_ok (hinv : Inv s)
    (hroom : s.r.eventCount + s.r.acquired ≤ s.r.events.length) :
    s.checkedCleanup = .ok s.cleanup := by
  refine foldlM_eq_foldl (fun t l => Inv t ∧ (∀ i ∈ l, i < 2) ∧
    t.r.eventCount + l.length ≤ t.r.events.length) ?_ ⟨hinv, ?_, by rwa [List.length_range]⟩
  · rintro t i l ⟨ht, hl, hfit⟩
    rw [List.length_cons] at hfit
    obtain ⟨hcount, hlength⟩ := eventCount_cleanupCell t i
    refine ⟨checkedCleanupCell_ok ht (hl i List.mem_cons_self) (by omega), ht.cleanupCell i, ?_, ?_⟩
    · intro j hj
      exact hl j (List.mem_cons_of_mem i hj)
    · omega
  · intro i hi
    have := hinv.acquired_le
    have := List.mem_range.mp hi
    omega

theorem eventCount_cleanup (s : RunState) :
    s.cleanup.r.eventCount ≤ s.r.eventCount + s.r.acquired := by
  have hfold : ∀ (l : List Nat) (t : RunState),
      (l.foldl Cbpf.cleanupCell t).r.eventCount ≤ t.r.eventCount + l.length := by
    intro l
    induction l with
    | nil => exact fun t => Nat.le_refl _
    | cons i l ih =>
      intro t
      have hcell := (eventCount_cleanupCell t i).1
      have hrest := ih (Cbpf.cleanupCell t i)
      rw [List.foldl_cons, List.length_cons]
      omega
  have hcells := hfold (List.range s.r.acquired) s
  rw [List.length_range] at hcells
  exact hcells

end RunState

end Cbpf
