import Cbpf.Jit.Admit

/-!
# What an admitted instruction contributes

The inversion of the admission loop: an accepted instruction satisfies the guards of one case of
`Transfer` and joins that case's facts into later locations, so that the whole loop is one pass in
the sense of `Dataflow.Pass`.
-/

namespace Cbpf.Jit

open Dataflow

/-! ### Sets of kinds -/

namespace Kind

theorem has_eq_true_iff {k b : Kind} : k.has b = true ↔ k &&& b ≠ 0#8 := by
  simp [has]

theorem has_eq_false_iff {k b : Kind} : k.has b = false ↔ k &&& b = 0#8 := by
  simp [has]

/-- A union contains what one of its parts contains. -/
theorem has_or (k l b : Kind) : (k ||| l).has b = (k.has b || l.has b) := by
  rw [Bool.eq_iff_iff, Bool.or_eq_true]
  simp only [has_eq_true_iff, ne_eq, BitVec.and_or_distrib_right, BitVec.or_eq_zero_iff]
  exact Decidable.not_and_iff_not_or_not

/-- A set within the complement of `m` contains nothing of `m`. -/
theorem has_eq_false_of_and {k m b : Kind} (h : k.has m = false) (hb : m &&& b = b) :
    k.has b = false := by
  rw [has_eq_false_iff, ← hb, ← BitVec.and_assoc, has_eq_false_iff.mp h, BitVec.zero_and]

/-- Removing kinds keeps the others. -/
theorem has_and {k m b : Kind} (hb : m &&& b = b) : (k &&& m).has b = k.has b := by
  rw [has, BitVec.and_assoc, hb, has]

end Kind

theorem isScalar_iff {kind : Kind} (h : isScalar kind = true) :
    kind.has .uninit = false ∧ kind.has .handle = false := by
  simp only [isScalar, Bool.and_eq_true, Bool.not_eq_true'] at h
  exact ⟨Kind.has_eq_false_of_and h.2 (by decide), Kind.has_eq_false_of_and h.2 (by decide)⟩

theorem not_uninit_of_isDefined {kind : Kind} (h : isDefined kind = true) :
    kind.has .uninit = false := by
  simp only [isDefined, Bool.and_eq_true, Bool.not_eq_true'] at h
  exact h.2

/-! ### The order of flows -/

/-- `f` allows no more than `g`; a flow that is not reached allows nothing. -/
instance : LE Flow where
  le f g := f.reached = true → g.reached = true ∧
    (∀ r b, (f.reg r).has b = true → (g.reg r).has b = true) ∧
    ∀ b, f.spill.has b = true → g.spill.has b = true

instance : Preorder Flow where
  le_refl _ h := ⟨h, fun _ _ hb => hb, fun _ hb => hb⟩
  le_trans _ _ _ hfg hgh hf := by
    obtain ⟨hg, hreg, hspill⟩ := hfg hf
    obtain ⟨hh, hreg', hspill'⟩ := hgh hg
    exact ⟨hh, fun r b hb => hreg' r b (hreg r b hb), fun b hb => hspill' b (hspill b hb)⟩

theorem Flow.le_join_left (f g : Flow) : f ≤ f.join g := by
  intro hf
  simp only [Flow.join, hf, Bool.not_true, Bool.false_eq_true, if_false]
  refine ⟨trivial, fun r b hb => ?_, fun b hb => ?_⟩
  · rw [Kind.has_or, hb, Bool.true_or]
  · rw [Kind.has_or, hb, Bool.true_or]

theorem Flow.le_join_right (f g : Flow) : g ≤ f.join g := by
  intro hg
  cases hf : f.reached with
  | false =>
    rw [Flow.join, hf]
    exact ⟨hg, fun _ _ hb => hb, fun _ hb => hb⟩
  | true =>
    simp only [Flow.join, hf, Bool.not_true, Bool.false_eq_true, if_false]
    refine ⟨trivial, fun r b hb => ?_, fun b hb => ?_⟩
    · rw [Kind.has_or, hb, Bool.or_true]
    · rw [Kind.has_or, hb, Bool.or_true]

/-! ### The accepted instructions -/

/-- The facts that a null check joins: the branch is possible when the register may be 0, the fall
through when it may be anything else. -/
def jeqEdges (f : Flow) (pc target dst : Nat) : List (Nat × Flow) :=
  (if (f.reg dst).has .zero then [(target, f.set dst .zero)] else []) ++
    if f.reg dst &&& ~~~Kind.zero != 0#8 then [(pc + 1, f.set dst (f.reg dst &&& ~~~Kind.zero))]
    else []

/-- Instruction `i` is accepted at `pc` with fact `f` and contributes the listed facts. -/
inductive Transfer (k : Kfuncs) (len pc : Nat) (i : BpfInsn) (f : Flow) :
    List (Nat × Flow) → Prop
  | movX : i.code = .alu64MovX → i.dstReg ≤ 9 → i.srcReg ≤ 9 →
      isDefined (f.reg i.srcReg) = true →
      Transfer k len pc i f [(pc + 1, f.set i.dstReg (f.reg i.srcReg))]
  | movK : i.code = .alu64MovK → i.dstReg ≤ 9 →
      Transfer k len pc i f [(pc + 1, f.set i.dstReg (if i.imm != 0 then .scalar else .zero))]
  | stx : i.code = .stxMemDw → i.dstReg = bpfReg10 → i.srcReg ≤ 9 → i.off = -8 →
      isDefined (f.reg i.srcReg) = true →
      Transfer k len pc i f [(pc + 1, { f with spill := f.reg i.srcReg })]
  | ldx : i.code = .ldxMemDw → i.dstReg ≤ 9 → i.srcReg = bpfReg10 → i.off = -8 →
      isDefined f.spill = true →
      Transfer k len pc i f [(pc + 1, f.set i.dstReg f.spill)]
  | jeq : i.code = .jmpJeqK → i.dstReg ≤ 9 → i.imm = 0 → 0 < i.off →
      pc + 1 + i.off.toNat < len → isDefined (f.reg i.dstReg) = true →
      (f.reg i.dstReg).has (~~~(Kind.zero ||| Kind.handle)) = false →
      Transfer k len pc i f (jeqEdges f pc (pc + 1 + i.off.toNat) i.dstReg)
  | acquire : callOperation k i = opAcquire → isScalar (f.reg 1) = true →
      Transfer k len pc i f [(pc + 1, f.call (.handle ||| .zero))]
  | read : callOperation k i = opRead → f.reg 1 = .handle →
      Transfer k len pc i f [(pc + 1, f.call .scalar)]
  | release : callOperation k i = opRelease → f.reg 1 = .handle →
      Transfer k len pc i f [(pc + 1, f.call .zero)]
  | exit : i.code = .jmpExit → isScalar (f.reg 0) = true → Transfer k len pc i f []

variable {k : Kfuncs} {len pc : Nat} {i : BpfInsn} {f : Flow} {es : List (Nat × Flow)}

/-- Facts only go forward, and not beyond the end of the program. -/
theorem Transfer.forward (h : Transfer k len pc i f es) (hpc : pc < len) :
    ∀ e ∈ es, pc < e.1 ∧ e.1 ≤ len := by
  have hnext : ∀ g : Flow, ∀ e ∈ [(pc + 1, g)], pc < e.1 ∧ e.1 ≤ len := by
    intro g e he
    rw [List.mem_singleton.mp he]
    exact ⟨Nat.lt_succ_self pc, hpc⟩
  cases h with
  | jeq _ _ _ _ htarget =>
    intro e he
    simp only [jeqEdges, List.mem_append, List.mem_ite_nil_right, List.mem_singleton] at he
    rcases he with ⟨_, rfl⟩ | ⟨_, rfl⟩
    · exact ⟨by dsimp only; omega, by dsimp only; omega⟩
    · exact ⟨by dsimp only; omega, by dsimp only; omega⟩
  | exit => exact fun e he => absurd he List.not_mem_nil
  | movX => exact hnext _
  | movK => exact hnext _
  | stx => exact hnext _
  | ldx => exact hnext _
  | acquire => exact hnext _
  | read => exact hnext _
  | release => exact hnext _

/-- An accepted exit returns a scalar. -/
theorem Transfer.isScalar_of_exit (h : Transfer k len pc i f es) (hcode : i.code = .jmpExit) :
    isScalar (f.reg 0) = true := by
  have hcall : ∀ op, op ≠ 0 → callOperation k i ≠ op := by
    intro op hop heq
    rw [code_of_callOperation heq hop] at hcode
    cases hcode
  cases h with
  | exit _ hscalar => exact hscalar
  | movX hother => exact absurd (hother.symm.trans hcode) nofun
  | movK hother => exact absurd (hother.symm.trans hcode) nofun
  | stx hother => exact absurd (hother.symm.trans hcode) nofun
  | ldx hother => exact absurd (hother.symm.trans hcode) nofun
  | jeq hother => exact absurd (hother.symm.trans hcode) nofun
  | acquire hop => exact absurd hop (hcall _ (by decide))
  | read hop => exact absurd hop (hcall _ (by decide))
  | release hop => exact absurd hop (hcall _ (by decide))

/-- Only the seven instructions of the grammar are accepted. -/
theorem Transfer.code_ne_other (h : Transfer k len pc i f es) (code : Nat) :
    i.code ≠ .other code := by
  have hcall : ∀ op, op ≠ 0 → callOperation k i = op → i.code ≠ .other code := by
    intro op hop heq
    rw [code_of_callOperation heq hop]
    nofun
  cases h with
  | movX hcode => exact hcode ▸ nofun
  | movK hcode => exact hcode ▸ nofun
  | stx hcode => exact hcode ▸ nofun
  | ldx hcode => exact hcode ▸ nofun
  | jeq hcode => exact hcode ▸ nofun
  | acquire hop => exact hcall _ (by decide) hop
  | read hop => exact hcall _ (by decide) hop
  | release hop => exact hcall _ (by decide) hop
  | exit hcode => exact hcode ▸ nofun

/-- The number of acquire calls among the first `n` instructions. -/
def acquireSites (k : Kfuncs) (prog : List BpfInsn) (n : Nat) : Nat :=
  (prog.take n).countP fun i => callOperation k i == opAcquire

theorem acquireSites_mono (k : Kfuncs) (prog : List BpfInsn) {m n : Nat} (h : m ≤ n) :
    acquireSites k prog m ≤ acquireSites k prog n :=
  (List.take_sublist_take_left h).countP_le

/-- What an accepted instruction did to the context. -/
structure Admitted (k : Kfuncs) (len pc : Nat) (i : BpfInsn) (c c' : Admission) : Prop where
  reached : (c.flow pc).reached = true
  transfer : ∃ es, Transfer k len pc i (c.flow pc) es ∧
    c'.flow = es.foldl (joinAt Flow.join) c.flow
  operation : c'.operation =
    if i.code = .jmpCall then Function.update c.operation pc (callOperation k i) else c.operation
  acquisitions : c'.acquisitions =
    c.acquisitions + if callOperation k i = opAcquire then 1 else 0
  acquisitions_le : callOperation k i = opAcquire → c'.acquisitions ≤ 2

/-- An instruction without a call changes facts only. -/
theorem Admitted.of_transfer {c c' : Admission} (hreached : (c.flow pc).reached = true)
    (hcode : i.code ≠ .jmpCall) (ht : Transfer k len pc i (c.flow pc) es)
    (hflow : c'.flow = es.foldl (joinAt Flow.join) c.flow) (hop : c'.operation = c.operation)
    (hacq : c'.acquisitions = c.acquisitions) : Admitted k len pc i c c' where
  reached := hreached
  transfer := ⟨es, ht, hflow⟩
  operation := by rw [if_neg hcode, hop]
  acquisitions := by
    rw [if_neg fun h => hcode (code_of_callOperation h (by decide)), hacq, Nat.add_zero]
  acquisitions_le h := absurd (code_of_callOperation h (by decide)) hcode

theorem admitInsn_admitted {c c' : Admission} (h : admitInsn k len pc i c = .ok c') :
    Admitted k len pc i c c' := by
  simp only [admitInsn] at h
  split at h
  · cases h
  next hreached =>
  have hreached : (c.flow pc).reached = true := by simpa using hreached
  split at h
  · next hcode =>
    split at h
    · cases h
    · next hguard =>
      cases h
      simp only [Bool.or_eq_true, decide_eq_true_eq, not_or, bne_iff_ne, ne_eq, not_not,
        Bool.not_eq_true', Bool.not_eq_false, gt_iff_lt, not_lt] at hguard
      obtain ⟨⟨⟨⟨hdst, hsrc⟩, _⟩, _⟩, hdefined⟩ := hguard
      exact .of_transfer hreached (by simp [hcode]) (.movX hcode hdst hsrc hdefined) rfl rfl rfl
  · next hcode =>
    split at h
    · cases h
    · next hguard =>
      cases h
      simp only [Bool.or_eq_true, decide_eq_true_eq, not_or, bne_iff_ne, ne_eq, not_not,
        gt_iff_lt, not_lt] at hguard
      exact .of_transfer hreached (by simp [hcode]) (.movK hcode hguard.1.1) rfl rfl rfl
  · next hcode =>
    split at h
    · cases h
    · next hguard =>
      cases h
      simp only [Bool.or_eq_true, decide_eq_true_eq, not_or, bne_iff_ne, ne_eq, not_not,
        Bool.not_eq_true', Bool.not_eq_false, gt_iff_lt, not_lt] at hguard
      obtain ⟨⟨⟨⟨hdst, hsrc⟩, hoff⟩, _⟩, hdefined⟩ := hguard
      exact .of_transfer hreached (by simp [hcode]) (.stx hcode hdst hsrc hoff hdefined) rfl rfl rfl
  · next hcode =>
    split at h
    · cases h
    · next hguard =>
      cases h
      simp only [Bool.or_eq_true, decide_eq_true_eq, not_or, bne_iff_ne, ne_eq, not_not,
        Bool.not_eq_true', Bool.not_eq_false, gt_iff_lt, not_lt] at hguard
      obtain ⟨⟨⟨⟨hdst, hsrc⟩, hoff⟩, _⟩, hdefined⟩ := hguard
      exact .of_transfer hreached (by simp [hcode]) (.ldx hcode hdst hsrc hoff hdefined) rfl rfl rfl
  · next hcode =>
    split at h
    · cases h
    · next hguard =>
      cases h
      simp only [Bool.or_eq_true, decide_eq_true_eq, not_or, bne_iff_ne, ne_eq, not_not,
        Bool.not_eq_true', Bool.not_eq_false, Bool.not_eq_true, gt_iff_lt, not_lt, not_le,
        ge_iff_le] at hguard
      obtain ⟨⟨⟨⟨⟨⟨hdst, _⟩, himm⟩, hoff⟩, htarget⟩, hdefined⟩, hkinds⟩ := hguard
      refine .of_transfer hreached (by simp [hcode])
        (.jeq hcode hdst himm hoff htarget hdefined hkinds) ?_ ?_ ?_
      · unfold jeqEdges
        split <;> split <;> rfl
      · split <;> split <;> rfl
      · split <;> split <;> rfl
  · next hcode =>
    split at h
    · next hop =>
      split at h
      · cases h
      · next hguard =>
        cases h
        simp only [Bool.or_eq_true, decide_eq_true_eq, not_or, Bool.not_eq_true',
          Bool.not_eq_false, gt_iff_lt, not_lt] at hguard
        exact {
          reached := hreached
          transfer := ⟨_, .acquire hop hguard.1, rfl⟩
          operation := by rw [if_pos hcode]; rfl
          acquisitions := by rw [if_pos hop]; rfl
          acquisitions_le := fun _ => hguard.2 }
    · next hop =>
      split at h
      · next huse =>
        split at h
        · cases h
        · next hguard =>
          cases h
          have hhandle : (c.flow pc).reg 1 = .handle := by simpa using hguard
          refine ⟨hreached, ?_, by rw [if_pos hcode]; rfl, by rw [if_neg hop]; rfl,
            fun h => absurd h hop⟩
          rcases huse with hread | hrelease
          · exact ⟨_, .read hread hhandle, by rw [if_pos hread]; rfl⟩
          · have hne : callOperation k i ≠ opRead := by
              rw [hrelease]
              decide
            exact ⟨_, .release hrelease hhandle, by rw [if_neg hne]; rfl⟩
      · cases h
  · next hcode =>
    split at h
    · cases h
    · next hguard =>
      cases h
      simp only [Bool.or_eq_true, not_or, Bool.not_eq_true', Bool.not_eq_false] at hguard
      exact .of_transfer hreached (by simp [hcode]) (.exit hcode hguard.2) rfl rfl rfl
  · cases h

/-! ### The whole loop -/

/-- The edges of a program: what the instruction at a location contributes. -/
def Edges (k : Kfuncs) (prog : List BpfInsn) (pc : Nat) (f : Flow) (es : List (Nat × Flow)) :
    Prop :=
  f.reached = true ∧ ∃ i, prog[pc]? = some i ∧ Transfer k prog.length pc i f es

/-- What the loop has established when it ends in `c'`. -/
structure LoopDone (k : Kfuncs) (prog : List BpfInsn) (pc : Nat) (c c' : Admission) : Prop where
  pass : Pass Flow.join (Edges k prog) prog.length pc c.flow c'.flow
  operation : ∀ p i, pc ≤ p → prog[p]? = some i → i.code = .jmpCall →
    c'.operation p = callOperation k i
  operation_of_lt : ∀ p < pc, c'.operation p = c.operation p
  acquisitions : c'.acquisitions + acquireSites k prog pc =
    c.acquisitions + acquireSites k prog prog.length
  acquisitions_le : c.acquisitions ≤ 2 → c'.acquisitions ≤ 2

theorem acquireSites_succ {prog : List BpfInsn} (hi : prog[pc]? = some i) :
    acquireSites k prog (pc + 1) =
      acquireSites k prog pc + if callOperation k i = opAcquire then 1 else 0 := by
  rw [acquireSites, acquireSites, List.take_add_one, hi, List.countP_append]
  simp [List.countP_cons]

theorem admitLoop_done {prog rest : List BpfInsn} {c c' : Admission}
    (hrest : prog.drop pc = rest) (hpc : pc ≤ prog.length)
    (h : admitLoop k prog.length pc rest c = .ok c') : LoopDone k prog pc c c' := by
  induction rest generalizing pc c with
  | nil =>
    cases h
    obtain rfl := rest_nil hrest hpc
    refine ⟨.done, fun p i hp hi => ?_, fun _ _ => rfl, rfl, id⟩
    rw [List.getElem?_eq_none hp] at hi
    cases hi
  | cons i rest ih =>
    rw [admitLoop] at h
    obtain ⟨hi, hlt, hdrop⟩ := rest_cons hrest
    cases hinsn : admitInsn k prog.length pc i c with
    | error e =>
      rw [hinsn] at h
      cases h
    | ok c₁ =>
      rw [hinsn] at h
      have hadmitted := admitInsn_admitted hinsn
      have hdone := ih hdrop hlt h
      obtain ⟨es, htransfer, hflow⟩ := hadmitted.transfer
      refine ⟨.step hlt ⟨hadmitted.reached, i, hi, htransfer⟩
        (fun e he => (htransfer.forward hlt e he).1) (hflow ▸ hdone.pass), ?_, ?_, ?_, ?_⟩
      · intro p j hp hj hcode
        by_cases heq : p = pc
        · subst heq
          obtain rfl : i = j := Option.some.inj (hi.symm.trans hj)
          rw [hdone.operation_of_lt p (Nat.lt_succ_self p), hadmitted.operation, if_pos hcode,
            Function.update_self]
        · exact hdone.operation p j (by omega) hj hcode
      · intro p hp
        rw [hdone.operation_of_lt p (by omega), hadmitted.operation]
        split
        · exact Function.update_of_ne (by omega) _ _
        · rfl
      · have hacq := hdone.acquisitions
        rw [acquireSites_succ hi, hadmitted.acquisitions] at hacq
        omega
      · intro hle
        apply hdone.acquisitions_le
        by_cases hop : callOperation k i = opAcquire
        · exact hadmitted.acquisitions_le hop
        · rw [hadmitted.acquisitions, if_neg hop]
          exact hle

/-- An admitted program: its facts solve the flow equations from the entry on, the end is never
reached, and there are at most two acquire calls. -/
structure AdmitDone (k : Kfuncs) (prog : List BpfInsn) (c : Admission) : Prop where
  pass : Pass Flow.join (Edges k prog) prog.length 0 Admission.initial.flow c.flow
  operation : ∀ p i, prog[p]? = some i → i.code = .jmpCall → c.operation p = callOperation k i
  sites_le : acquireSites k prog prog.length ≤ 2
  unreached : (c.flow prog.length).reached = false

theorem admit_done {prog : List BpfInsn} {c : Admission} (h : admitProgram k prog = .ok c) :
    AdmitDone k prog c := by
  unfold admitProgram at h
  split at h
  · cases h
  · next c' hloop =>
    split at h
    · next hexit =>
      cases h
      have hdone : LoopDone k prog 0 .initial _ := admitLoop_done rfl (Nat.zero_le _) hloop
      simp only [Bool.and_eq_true, Bool.not_eq_true'] at hexit
      have hacq := hdone.acquisitions
      have hle := hdone.acquisitions_le (Nat.zero_le 2)
      have hnone : acquireSites k prog 0 = 0 := rfl
      have hzero : Admission.initial.acquisitions = 0 := rfl
      exact ⟨hdone.pass, fun p i => hdone.operation p i (Nat.zero_le p), by omega, hexit.2⟩
    · cases h

end Cbpf.Jit
