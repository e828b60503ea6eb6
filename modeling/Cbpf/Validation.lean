import Cbpf.Gate

/-!
# What `cbpf_validate` accepts, and what it reports

`Insn.WellFormed` is the instruction language of `src/cbpf.h` as a grammar; `FirstFault` is the
index that the one failure label reports, which depends on how it was reached. The loop of
`cbpf_validate` decides the first and computes the second, and a rejected program has no other
effect in either interpreter.
-/

namespace Cbpf

/-- The instruction `x` may stand at index `i` of a program of `n` instructions. -/
inductive Insn.WellFormed (n i : Nat) : Insn → Prop
  | acquire {dst src : Nat} {imm : Int} : dst < cbpfRegs → imm = 0 ∨ imm = 1 →
      WellFormed n i ⟨.acquire, dst, src, imm⟩
  | copy {dst src : Nat} {imm : Int} : dst < cbpfRegs → src < cbpfRegs →
      WellFormed n i ⟨.copy, dst, src, imm⟩
  | spill {dst src : Nat} {imm : Int} : dst < cbpfSpills → src < cbpfRegs →
      WellFormed n i ⟨.spill, dst, src, imm⟩
  | reload {dst src : Nat} {imm : Int} : dst < cbpfRegs → src < cbpfSpills →
      WellFormed n i ⟨.reload, dst, src, imm⟩
  | read {dst src : Nat} {imm : Int} : dst < cbpfRegs → WellFormed n i ⟨.read, dst, src, imm⟩
  | release {dst src : Nat} {imm : Int} : dst < cbpfRegs →
      WellFormed n i ⟨.release, dst, src, imm⟩
  | brNull {dst src : Nat} {imm : Int} : dst < cbpfRegs → (i : Int) < imm → imm < (n : Int) →
      WellFormed n i ⟨.brNull, dst, src, imm⟩
  | ret {dst src : Nat} {imm : Int} : WellFormed n i ⟨.ret, dst, src, imm⟩

/-- The `switch` of `cbpf_validate` decides the instruction language. -/
theorem insnOk_iff (n i : Nat) (x : Insn) : insnOk n i x = true ↔ x.WellFormed n i := by
  constructor
  · intro hok
    obtain ⟨op, dst, src, imm⟩ := x
    cases op with
    | acquire =>
      obtain ⟨hdst, himm⟩ := insnOk_acquire hok rfl
      exact .acquire hdst himm
    | copy =>
      obtain ⟨hdst, hsrc⟩ := insnOk_copy hok rfl
      exact .copy hdst hsrc
    | spill =>
      obtain ⟨hdst, hsrc⟩ := insnOk_spill hok rfl
      exact .spill hdst hsrc
    | reload =>
      obtain ⟨hdst, hsrc⟩ := insnOk_reload hok rfl
      exact .reload hdst hsrc
    | read => exact .read (insnOk_read hok rfl)
    | release => exact .release (insnOk_release hok rfl)
    | brNull =>
      obtain ⟨hdst, hlow, hhigh⟩ := insnOk_brNull hok rfl
      exact .brNull hdst hlow hhigh
    | ret => exact .ret
    | other k => exact absurd rfl (insnOk_other hok k)
  · intro hwf
    cases hwf with
    | acquire hdst himm => rcases himm with rfl | rfl <;> simpa [insnOk] using hdst
    | copy hdst hsrc => simpa [insnOk] using And.intro hdst hsrc
    | spill hdst hsrc => simpa [insnOk] using And.intro hdst hsrc
    | reload hdst hsrc => simpa [insnOk] using And.intro hdst hsrc
    | read hdst => simpa [insnOk] using hdst
    | release hdst => simpa [insnOk] using hdst
    | brNull hdst hlow hhigh => simpa [insnOk] using And.intro (And.intro hdst hlow) hhigh
    | ret => rfl

/-- The loop stops at the least index that fails. -/
theorem firstInvalid_some {p : Nat → Insn} {n k i bad : Nat}
    (h : firstInvalid p n k i = some bad) :
    i ≤ bad ∧ bad < i + k ∧ insnOk n bad (p bad) = false ∧
      ∀ j, i ≤ j → j < bad → insnOk n j (p j) = true := by
  induction k generalizing i with
  | zero => cases h
  | succ k ih =>
    simp only [firstInvalid] at h
    split at h
    · rename_i hok
      obtain ⟨hle, hlt, hbad, hleast⟩ := ih h
      refine ⟨by omega, by omega, hbad, ?_⟩
      intro j hij hj
      rcases Nat.eq_or_lt_of_le hij with rfl | hlt'
      · exact hok
      · exact hleast j hlt' hj
    · rename_i hno
      obtain rfl := Option.some.inj h
      refine ⟨Nat.le_refl i, by omega, by simpa using hno, ?_⟩
      intro j hij hj
      omega

/-- A program: the instructions a non-NULL pointer gives access to keep the language, and the last
one is a RETURN. -/
structure InsnPtr.WellFormed (p : InsnPtr) (n : Nat) : Prop where
  nonnull : p ≠ none
  pos : 1 ≤ n
  le : n ≤ 64
  insns : ∀ i < n, (p.deref i).WellFormed n i
  last : (p.deref (n - 1)).op = .ret

/-- What `*bad_pc` is for an array that is no program. -/
inductive InsnPtr.FirstFault (p : InsnPtr) (n : Nat) : Nat → Prop
  /-- nothing is read of a NULL, empty or oversized array -/
  | shape : p = none ∨ n = 0 ∨ 64 < n → FirstFault p n 0
  | insn {bad : Nat} : p ≠ none → 1 ≤ n → n ≤ 64 → bad < n →
      ¬ (p.deref bad).WellFormed n bad → (∀ i < bad, (p.deref i).WellFormed n i) →
      FirstFault p n bad
  | noReturn : p ≠ none → 1 ≤ n → n ≤ 64 → (∀ i < n, (p.deref i).WellFormed n i) →
      (p.deref (n - 1)).op ≠ .ret → FirstFault p n (n - 1)

/-- The report of a rejected array. -/
theorem firstFault_of_cbpfValidate {p : InsnPtr} {n bad : Nat}
    (h : cbpfValidate p n = .error bad) : p.FirstFault n bad := by
  unfold cbpfValidate at h
  split at h
  · rename_i hshape
    obtain rfl := Except.error.inj h
    refine .shape ?_
    simpa [or_assoc] using hshape
  · rename_i hshape
    obtain ⟨hnonnull, hpos, hle⟩ : p ≠ none ∧ n ≠ 0 ∧ n ≤ 64 := by
      simpa [and_assoc] using hshape
    split at h
    · rename_i i hsome
      obtain rfl := Except.error.inj h
      obtain ⟨_, hlt, hbad, hleast⟩ := firstInvalid_some hsome
      refine .insn hnonnull (by omega) (by omega) (by omega) ?_ ?_
      · intro hwf
        rw [(insnOk_iff n i _).mpr hwf] at hbad
        cases hbad
      · intro j hj
        exact (insnOk_iff n j _).mp (hleast j (Nat.zero_le j) hj)
    · rename_i hnone
      split at h
      · rename_i hlast
        obtain rfl := Except.error.inj h
        refine .noReturn hnonnull (by omega) (by omega) ?_ hlast
        intro i hi
        exact (insnOk_iff n i _).mp (firstInvalid_none hnone i (Nat.zero_le i) (by omega))
      · cases h

/-- A non-NULL array of one to 64 instructions has the shape of a program. -/
theorem InsnPtr.shape_absurd {p : InsnPtr} {n : Nat} (hshape : p = none ∨ n = 0 ∨ 64 < n)
    (hnonnull : p ≠ none) (hpos : 1 ≤ n) (hle : n ≤ 64) : False := by
  rcases hshape with hnull | hzero | hmax
  · exact hnonnull hnull
  · omega
  · omega

/-- A fault is reported for no program. -/
theorem InsnPtr.FirstFault.not_wellFormed {p : InsnPtr} {n bad : Nat} (h : p.FirstFault n bad) :
    ¬ p.WellFormed n := by
  intro hwf
  cases h with
  | shape hshape => exact shape_absurd hshape hwf.nonnull hwf.pos hwf.le
  | insn _ _ _ hlt hbad _ => exact hbad (hwf.insns bad hlt)
  | noReturn _ _ _ _ hlast => exact hlast hwf.last

/-- The report is determined by the array. -/
theorem InsnPtr.FirstFault.unique {p : InsnPtr} {n bad bad' : Nat} (h : p.FirstFault n bad)
    (h' : p.FirstFault n bad') : bad = bad' := by
  cases h with
  | shape hshape =>
    cases h' with
    | shape _ => rfl
    | insn hnonnull hpos hle _ _ _ => exact (shape_absurd hshape hnonnull hpos hle).elim
    | noReturn hnonnull hpos hle _ _ => exact (shape_absurd hshape hnonnull hpos hle).elim
  | insn hnonnull hpos hle hlt hbad hleast =>
    cases h' with
    | shape hshape => exact (shape_absurd hshape hnonnull hpos hle).elim
    | insn _ _ _ _ hbad' hleast' =>
      -- neither of two least indices is before the other
      rcases Nat.lt_trichotomy bad bad' with hbefore | heq | hafter
      · exact absurd (hleast' bad hbefore) hbad
      · exact heq
      · exact absurd (hleast bad' hafter) hbad'
    | noReturn _ _ _ hall _ => exact absurd (hall bad hlt) hbad
  | noReturn hnonnull hpos hle hall hlast =>
    cases h' with
    | shape hshape => exact (shape_absurd hshape hnonnull hpos hle).elim
    | insn _ _ _ hlt hbad _ => exact absurd (hall bad' hlt) hbad
    | noReturn _ _ _ _ _ => rfl

/-- `cbpf_validate` accepts exactly the programs. -/
theorem cbpfValidate_ok_iff (p : InsnPtr) (n : Nat) :
    cbpfValidate p n = .ok () ↔ p.WellFormed n := by
  constructor
  · intro hvalid
    have hv := validated_of_cbpfValidate hvalid
    have hnonnull : p ≠ none := by
      rintro rfl
      cases hvalid
    exact {
      nonnull := hnonnull
      pos := hv.pos
      le := hv.le
      insns := fun i hi => (insnOk_iff n i _).mp (hv.ok i hi)
      last := hv.last }
  · intro hwf
    cases hval : cbpfValidate p n with
    | ok u => rfl
    | error bad => exact absurd hwf (firstFault_of_cbpfValidate hval).not_wellFormed

/-- A `struct cbpf_result` that says INVALID at `bad` and nothing else. -/
def Result.rejected (bad : Nat) : Result :=
  { Result.zero with status := .invalid, pc := bad, objectRefs := 1 }

/-- No operation counter of the gate has moved. -/
def GateMetrics.Untouched (m : GateMetrics) : Prop :=
  m.acquisitions = 0 ∧ m.reads = 0 ∧ m.releases = 0 ∧ m.cleanups = 0 ∧ m.restrictedHandles = 0 ∧
    m.tagClears = 0 ∧ m.representationErrors = 0

/-- Validation is exact, and a rejected array has one report and no effect: in `cbpf_run` and in
either build of `cbpf_gate_run`, with or without metrics. -/
theorem validation_exact (p : InsnPtr) (n : Nat) :
    (cbpfValidate p n = .ok () ↔ p.WellFormed n) ∧
    (¬ p.WellFormed n → ∃ bad, cbpfValidate p n = .error bad ∧ p.FirstFault n bad ∧
      (∀ bad', p.FirstFault n bad' → bad' = bad) ∧
      cbpfRun p n = some (.rejected bad) ∧
      ∀ (Handle Object : Type) (pl : Platform Handle Object) (metrics : Bool),
        ∃ m : GateMetrics, m.Untouched ∧
          cbpfGateRun pl p n metrics = some (.rejected bad, if metrics then some m else none)) := by
  refine ⟨cbpfValidate_ok_iff p n, ?_⟩
  intro hno
  cases hval : cbpfValidate p n with
  | ok u => exact absurd ((cbpfValidate_ok_iff p n).mp hval) hno
  | error bad =>
    have hfault := firstFault_of_cbpfValidate hval
    refine ⟨bad, rfl, hfault, ?_, ?_, ?_⟩
    · intro bad' hfault'
      exact hfault'.unique hfault
    · unfold cbpfRun
      rw [hval]
      rfl
    · intro Handle Object pl metrics
      refine ⟨GateMetrics.init pl, ⟨rfl, rfl, rfl, rfl, rfl, rfl, rfl⟩, ?_⟩
      unfold cbpfGateRun
      rw [hval]
      rfl

end Cbpf
