import Cbpf.Run

/-!
# What a pass of `cbpf_run` can do, and what it keeps

`RunState.Step` lists the outcomes of a pass with their guards; every invariant is derived from it
and not from the body of the loop. `RunState.Inv` is the ownership part of the state: it holds at
every test of the loop guard and through the cleanup loop.
-/

namespace Cbpf

open BoundedLoop

namespace RunState

/-- The outcomes of one pass on instruction `x`. -/
inductive Step (s : RunState) (x : Insn) : Control RunState → Prop
  | acquireNull : x.op = .acquire → x.imm = 0 →
      Step s x (.next ((s.enter.setReg x.dst 0).stepTo .acquire 0 (s.pc + 1)))
  | acquireFull : x.op = .acquire → x.imm ≠ 0 → s.r.acquired = 2 →
      Step s x (.finish (s.enter.trapAt .acquire 0 .exhausted))
  | acquire : x.op = .acquire → x.imm ≠ 0 → s.r.acquired ≠ 2 →
      Step s x (.next ((s.enter.acquire x.dst).stepTo .acquire (s.r.acquired + 1) (s.pc + 1)))
  | copy : x.op = .copy →
      Step s x (.next ((s.enter.setReg x.dst (s.reg x.src)).stepTo .copy
        (s.reg x.src) (s.pc + 1)))
  | spill : x.op = .spill →
      Step s x (.next ((s.enter.setSpill x.dst (s.reg x.src)).stepTo .spill
        (s.reg x.src) (s.pc + 1)))
  | reload : x.op = .reload →
      Step s x (.next ((s.enter.setReg x.dst (s.slot x.src)).stepTo .reload
        (s.slot x.src) (s.pc + 1)))
  | null : (x.op = .read ∨ x.op = .release) → s.reg x.dst = 0 →
      Step s x (.finish (s.enter.trapAt x.op 0 .null))
  | stale : (x.op = .read ∨ x.op = .release) → s.reg x.dst ≠ 0 →
      s.isLive (s.reg x.dst - 1) = false →
      Step s x (.finish (s.enter.trapAt x.op (s.reg x.dst) .stale))
  | read : x.op = .read → s.reg x.dst ≠ 0 →
      s.isLive (s.reg x.dst - 1) = true →
      Step s x (.next (s.enter.readField.stepTo .read (s.reg x.dst) (s.pc + 1)))
  | release : x.op = .release → s.reg x.dst ≠ 0 →
      s.isLive (s.reg x.dst - 1) = true →
      Step s x (.next ((s.enter.release (s.reg x.dst)).stepTo .release
        (s.reg x.dst) (s.pc + 1)))
  | branchTaken : x.op = .brNull → s.reg x.dst = 0 →
      Step s x (.next (s.enter.stepTo .brNull 0 (sizeOfInt x.imm)))
  | branchNot : x.op = .brNull → s.reg x.dst ≠ 0 →
      Step s x (.next (s.enter.stepTo .brNull (s.reg x.dst) (s.pc + 1)))
  | ret : x.op = .ret → Step s x (.finish (s.enter.returnAt .ret x.imm))

@[simp] theorem reg_enter (s : RunState) (i : Nat) : s.enter.reg i = s.reg i := rfl
@[simp] theorem slot_enter (s : RunState) (i : Nat) : s.enter.slot i = s.slot i := rfl
@[simp] theorem isLive_enter (s : RunState) (i : Nat) : s.enter.isLive i = s.isLive i := rfl
@[simp] theorem acquired_enter (s : RunState) : s.enter.r.acquired = s.r.acquired := rfl

/-- Every pass on a validated instruction is one of the outcomes. -/
theorem exec_step {s : RunState} {x : Insn} {n i : Nat} (h : insnOk n i x = true) :
    Step s x (s.exec x) := by
  cases hop : x.op with
  | acquire =>
    by_cases hi : x.imm = 0
    · simpa [exec, hop, hi] using Step.acquireNull (s := s) hop hi
    · by_cases ha : s.r.acquired = 2
      · simpa [exec, hop, hi, ha] using Step.acquireFull (s := s) hop hi ha
      · simpa [exec, hop, hi, ha] using Step.acquire (s := s) hop hi ha
  | copy => simpa [exec, hop] using Step.copy (s := s) hop
  | spill => simpa [exec, hop] using Step.spill (s := s) hop
  | reload => simpa [exec, hop] using Step.reload (s := s) hop
  | read =>
    by_cases ht : s.reg x.dst = 0
    · simpa [exec, hop, ht] using Step.null (s := s) (.inl hop) ht
    · cases hl : s.isLive (s.reg x.dst - 1) with
      | false => simpa [exec, hop, ht, hl] using Step.stale (s := s) (.inl hop) ht hl
      | true => simpa [exec, hop, ht, hl] using Step.read (s := s) hop ht hl
  | release =>
    by_cases ht : s.reg x.dst = 0
    · simpa [exec, hop, ht] using Step.null (s := s) (.inr hop) ht
    · cases hl : s.isLive (s.reg x.dst - 1) with
      | false => simpa [exec, hop, ht, hl] using Step.stale (s := s) (.inr hop) ht hl
      | true => simpa [exec, hop, ht, hl] using Step.release (s := s) hop ht hl
  | brNull =>
    by_cases ht : s.reg x.dst = 0
    · simpa [exec, hop, ht] using Step.branchTaken (s := s) hop ht
    · simpa [exec, hop, ht] using Step.branchNot (s := s) hop ht
  | ret => simpa [exec, hop] using Step.ret (s := s) hop
  | other k => exact absurd hop (insnOk_other h k)

/-- The ownership part of a run state. -/
structure Inv (s : RunState) : Prop where
  regs_length : s.regs.length = 4
  spills_length : s.spills.length = 2
  live_length : s.live.length = 2
  explicit_length : s.r.explicitByCell.length = 2
  cleanup_length : s.r.cleanupByCell.length = 2
  acquired_le : s.r.acquired ≤ 2
  regs_le : ∀ t ∈ s.regs, t ≤ s.r.acquired
  spills_le : ∀ t ∈ s.spills, t ≤ s.r.acquired
  /-- an acquired cell has one release effect exactly when it is no longer live -/
  cells : ∀ i < s.r.acquired, s.r.explicitAt i + s.r.cleanupAt i =
    if s.isLive i then 0 else 1
  fresh : ∀ i, s.r.acquired ≤ i → s.isLive i = false ∧
    s.r.explicitAt i = 0 ∧ s.r.cleanupAt i = 0
  refs : s.r.objectRefs = 1 + (s.live.count true : Int)

theorem inv_init : Inv init where
  regs_length := rfl
  spills_length := rfl
  live_length := rfl
  explicit_length := rfl
  cleanup_length := rfl
  acquired_le := by decide
  regs_le := by decide
  spills_le := by decide
  cells := fun i hi => absurd hi (Nat.not_lt_zero i)
  fresh := by
    intro i _
    match i with
    | 0 => decide
    | 1 => decide
    | i + 2 => exact ⟨rfl, rfl, rfl⟩
  refs := by decide

/-! Liveness after a write to one cell. -/

theorem count_set_true (l : List Bool) (i : Nat) (hi : i < l.length) (hd : l.getD i false = false) :
    (l.set i true).count true = l.count true + 1 := by
  rw [List.getD_eq_getElem _ _ hi] at hd
  simp [List.count_set hi, hd]

theorem count_set_false (l : List Bool) (i : Nat) (hl : l.getD i false = true) :
    (l.set i false).count true + 1 = l.count true := by
  have hi : i < l.length := by
    by_contra hi
    rw [List.getD_eq_default _ _ (by omega)] at hl
    cases hl
  rw [List.getD_eq_getElem _ _ hi] at hl
  have hpos : 0 < l.count true := List.count_pos_iff.mpr (hl ▸ List.getElem_mem hi)
  simp [List.count_set hi, hl]
  omega

@[simp] theorem explicitAt_acquire (s : RunState) (dst i : Nat) :
    (s.acquire dst).r.explicitAt i = s.r.explicitAt i := rfl
@[simp] theorem cleanupAt_acquire (s : RunState) (dst i : Nat) :
    (s.acquire dst).r.cleanupAt i = s.r.cleanupAt i := rfl

theorem isLive_acquire (s : RunState) (dst i : Nat) (hlt : s.r.acquired < s.live.length) :
    (s.acquire dst).isLive i = if i = s.r.acquired then true else s.isLive i := by
  by_cases hi : i = s.r.acquired
  · subst hi
    simp [isLive, acquire, hlt]
  · simp [isLive, acquire, hi, List.getElem?_set_ne (Ne.symm hi)]

theorem getD_bump (a : List Nat) (i j : Nat) (hi : i < a.length) :
    (bump a i).getD j 0 = if j = i then a.getD j 0 + 1 else a.getD j 0 := by
  by_cases hji : j = i
  · subst hji
    simp [bump, hi]
  · simp [bump, hji, List.getElem?_set_ne (Ne.symm hji)]

theorem isLive_release (s : RunState) (t i : Nat) :
    (s.release t).isLive i = if i = t - 1 then false else s.isLive i := by
  by_cases hi : i = t - 1
  · subst hi
    by_cases hlt : t - 1 < s.live.length <;> simp [isLive, release, hlt]
  · simp [isLive, release, hi, List.getElem?_set_ne (Ne.symm hi)]

theorem explicitAt_release (s : RunState) (t i : Nat) (ht : t - 1 < s.r.explicitByCell.length) :
    (s.release t).r.explicitAt i =
      if i = t - 1 then s.r.explicitAt i + 1 else s.r.explicitAt i :=
  getD_bump s.r.explicitByCell (t - 1) i ht

theorem cleanupAt_release (s : RunState) (t i : Nat) :
    (s.release t).r.cleanupAt i = s.r.cleanupAt i := rfl

theorem cleanupCell_dead {s : RunState} {i : Nat} (h : s.isLive i = false) : cleanupCell s i = s := by
  simp [cleanupCell, h]

theorem cleanupCell_live {s : RunState} {i : Nat} (h : s.isLive i = true) :
    cleanupCell s i =
      { s with
        live := s.live.set i false
        r := record
          { s.r with
            objectRefs := s.r.objectRefs - 1
            cleanupReleases := s.r.cleanupReleases + 1
            cleanupByCell := bump s.r.cleanupByCell i }
          .cleanup .release s.r.pc (i + 1) } := by
  simp [cleanupCell, h]

theorem acquired_cleanupCell (s : RunState) (i : Nat) :
    (cleanupCell s i).r.acquired = s.r.acquired := by
  unfold cleanupCell
  split <;> rfl

theorem explicitAt_cleanupCell (s : RunState) (i j : Nat) :
    (cleanupCell s i).r.explicitAt j = s.r.explicitAt j := by
  unfold cleanupCell
  split <;> rfl

theorem isLive_cleanupCell (s : RunState) (i j : Nat) :
    (cleanupCell s i).isLive j = if j = i then false else s.isLive j := by
  cases h : s.isLive i with
  | false =>
    rw [cleanupCell_dead h]
    by_cases hj : j = i
    · rw [if_pos hj, hj, h]
    · rw [if_neg hj]
  | true =>
    rw [cleanupCell_live h]
    by_cases hj : j = i
    · subst hj
      by_cases hlt : j < s.live.length <;> simp [isLive, hlt]
    · simp [isLive, hj, List.getElem?_set_ne (Ne.symm hj)]

theorem cleanupAt_cleanupCell {s : RunState} {i : Nat} (h : s.isLive i = true)
    (hi : i < s.r.cleanupByCell.length) (j : Nat) :
    (cleanupCell s i).r.cleanupAt j =
      if j = i then s.r.cleanupAt j + 1 else s.r.cleanupAt j := by
  rw [cleanupCell_live h]
  exact getD_bump s.r.cleanupByCell i j hi

namespace Inv

variable {s : RunState}

theorem reg_le (h : Inv s) (i : Nat) : s.reg i ≤ s.r.acquired := by
  rw [reg, List.getD_eq_getElem?_getD]
  cases hi : s.regs[i]? with
  | none => exact Nat.zero_le _
  | some t => exact h.regs_le t (List.mem_of_getElem? hi)

theorem slot_le (h : Inv s) (i : Nat) : s.slot i ≤ s.r.acquired := by
  rw [slot, List.getD_eq_getElem?_getD]
  cases hi : s.spills[i]? with
  | none => exact Nat.zero_le _
  | some t => exact h.spills_le t (List.mem_of_getElem? hi)

/-- A live cell has been acquired. -/
theorem lt_acquired (h : Inv s) {i : Nat} (hl : s.isLive i = true) :
    i < s.r.acquired := by
  by_contra hi
  rw [(h.fresh i (by omega)).1] at hl
  cases hl

/-- Neither the program counter nor the event log belongs to the ownership state. -/
theorem enter (h : Inv s) : Inv s.enter := ⟨h.1, h.2, h.3, h.4, h.5, h.6, h.7, h.8, h.9, h.10, h.11⟩

theorem stepTo (h : Inv s) (op : Opcode) (token next : Nat) : Inv (s.stepTo op token next) :=
  ⟨h.1, h.2, h.3, h.4, h.5, h.6, h.7, h.8, h.9, h.10, h.11⟩

theorem trapAt (h : Inv s) (op : Opcode) (token : Nat) (t : Trap) : Inv (s.trapAt op token t) :=
  ⟨h.1, h.2, h.3, h.4, h.5, h.6, h.7, h.8, h.9, h.10, h.11⟩

theorem returnAt (h : Inv s) (op : Opcode) (imm : Int) : Inv (s.returnAt op imm) :=
  ⟨h.1, h.2, h.3, h.4, h.5, h.6, h.7, h.8, h.9, h.10, h.11⟩

theorem readField (h : Inv s) : Inv s.readField :=
  ⟨h.1, h.2, h.3, h.4, h.5, h.6, h.7, h.8, h.9, h.10, h.11⟩

theorem setReg (h : Inv s) (dst : Nat) {t : Nat} (ht : t ≤ s.r.acquired) : Inv (s.setReg dst t) where
  __ := h
  regs_length := by simpa [RunState.setReg] using h.regs_length
  regs_le := by
    intro u hu
    rcases List.mem_or_eq_of_mem_set hu with hu | rfl
    · exact h.regs_le u hu
    · exact ht

theorem setSpill (h : Inv s) (dst : Nat) {t : Nat} (ht : t ≤ s.r.acquired) :
    Inv (s.setSpill dst t) where
  __ := h
  spills_length := by simpa [RunState.setSpill] using h.spills_length
  spills_le := by
    intro u hu
    rcases List.mem_or_eq_of_mem_set hu with hu | rfl
    · exact h.spills_le u hu
    · exact ht

/-- The cell of a fresh token becomes live and the reference count follows. -/
theorem acquire (h : Inv s) (dst : Nat) (hlt : s.r.acquired < 2) : Inv (s.acquire dst) where
  __ := h
  regs_length := by simpa [RunState.acquire] using h.regs_length
  live_length := by simpa [RunState.acquire] using h.live_length
  acquired_le := hlt
  regs_le := by
    intro u hu
    rcases List.mem_or_eq_of_mem_set hu with hu | rfl
    · exact Nat.le_succ_of_le (h.regs_le u hu)
    · exact Nat.le_refl _
  spills_le := fun u hu => Nat.le_succ_of_le (h.spills_le u hu)
  cells := by
    intro i hi
    have hlive := isLive_acquire s dst i (by rw [h.live_length]; exact hlt)
    rw [hlive]
    by_cases hia : i = s.r.acquired
    · subst hia
      obtain ⟨_, he, hc⟩ := h.fresh s.r.acquired (Nat.le_refl _)
      simp [he, hc]
    · rw [if_neg hia]
      exact h.cells i (by change i < s.r.acquired + 1 at hi; omega)
  fresh := by
    intro i hi
    change s.r.acquired + 1 ≤ i at hi
    rw [isLive_acquire s dst i (by rw [h.live_length]; exact hlt), if_neg (by omega)]
    exact h.fresh i (by omega)
  refs := by
    have hdead := (h.fresh s.r.acquired (Nat.le_refl _)).1
    have hcount := count_set_true s.live s.r.acquired (by rw [h.live_length]; exact hlt) hdead
    change s.r.objectRefs + 1 = 1 + (((s.live.set s.r.acquired true).count true : Nat) : Int)
    rw [hcount, h.refs]
    omega

/-- A live cell is consumed by an explicit release. -/
theorem release (h : Inv s) {t : Nat} (hl : s.isLive (t - 1) = true) :
    Inv (s.release t) where
  __ := h
  live_length := by simpa [RunState.release] using h.live_length
  explicit_length := by simpa [RunState.release, bump] using h.explicit_length
  cells := by
    intro i hi
    rw [isLive_release, explicitAt_release s t i (by
      rw [h.explicit_length]; exact Nat.lt_of_lt_of_le (h.lt_acquired hl) h.acquired_le),
      cleanupAt_release]
    have hcell := h.cells i hi
    by_cases hit : i = t - 1
    · subst hit
      rw [hl] at hcell
      simp only [if_true] at hcell ⊢
      simp
      omega
    · simpa [hit] using hcell
  fresh := by
    intro i hi
    have hit : i ≠ t - 1 := by
      have := h.lt_acquired hl
      change s.r.acquired ≤ i at hi
      omega
    rw [isLive_release, explicitAt_release s t i (by
      rw [h.explicit_length]; exact Nat.lt_of_lt_of_le (h.lt_acquired hl) h.acquired_le),
      cleanupAt_release, if_neg hit, if_neg hit]
    exact h.fresh i hi
  refs := by
    have hcount := count_set_false s.live (t - 1) hl
    have hrefs := h.refs
    change s.r.objectRefs - 1 = 1 + (((s.live.set (t - 1) false).count true : Nat) : Int)
    omega

/-- A live cell is consumed by the cleanup loop; a dead one is skipped. -/
theorem cleanupCell (h : Inv s) (i : Nat) : Inv (cleanupCell s i) := by
  cases hl : s.isLive i with
  | false => rwa [cleanupCell_dead hl]
  | true =>
    have hlt : i < s.r.cleanupByCell.length := by
      rw [h.cleanup_length]
      exact Nat.lt_of_lt_of_le (h.lt_acquired hl) h.acquired_le
    refine {
      regs_length := by simpa [cleanupCell_live hl] using h.regs_length
      spills_length := by simpa [cleanupCell_live hl] using h.spills_length
      live_length := by simpa [cleanupCell_live hl] using h.live_length
      explicit_length := by simpa [cleanupCell_live hl, record] using h.explicit_length
      cleanup_length := by simpa [cleanupCell_live hl, record, bump] using h.cleanup_length
      acquired_le := by simpa [cleanupCell_live hl, record] using h.acquired_le
      regs_le := by simpa [cleanupCell_live hl, record] using h.regs_le
      spills_le := by simpa [cleanupCell_live hl, record] using h.spills_le
      cells := ?_
      fresh := ?_
      refs := ?_ }
    · intro j hj
      rw [acquired_cleanupCell] at hj
      rw [isLive_cleanupCell, explicitAt_cleanupCell, cleanupAt_cleanupCell hl hlt]
      have hcell := h.cells j hj
      by_cases hji : j = i
      · subst hji
        rw [hl] at hcell
        simp only [if_true] at hcell ⊢
        simp
        omega
      · simpa [hji] using hcell
    · intro j hj
      rw [acquired_cleanupCell] at hj
      have hji : j ≠ i := by
        have := h.lt_acquired hl
        omega
      rw [isLive_cleanupCell, explicitAt_cleanupCell, cleanupAt_cleanupCell hl hlt, if_neg hji,
        if_neg hji]
      exact h.fresh j hj
    · have hcount := count_set_false s.live i hl
      have hrefs := h.refs
      rw [cleanupCell_live hl]
      change s.r.objectRefs - 1 = 1 + (((s.live.set i false).count true : Nat) : Int)
      omega

/-- Every outcome of a pass keeps the ownership part of the state. -/
theorem step (h : Inv s) {x : Insn} {c : Control RunState} (hs : Step s x c) : Inv c.state := by
  cases hs with
  | acquireNull => exact (h.enter.setReg _ (Nat.zero_le _)).stepTo _ _ _
  | acquireFull => exact h.enter.trapAt _ _ _
  | acquire _ _ hne =>
    have hle := h.acquired_le
    exact (h.enter.acquire _ (by change s.r.acquired < 2; omega)).stepTo _ _ _
  | copy => exact (h.enter.setReg _ (h.reg_le _)).stepTo _ _ _
  | spill => exact (h.enter.setSpill _ (h.reg_le _)).stepTo _ _ _
  | reload => exact (h.enter.setReg _ (h.slot_le _)).stepTo _ _ _
  | null => exact h.enter.trapAt _ _ _
  | stale => exact h.enter.trapAt _ _ _
  | read => exact h.enter.readField.stepTo _ _ _
  | release _ _ hl => exact (h.enter.release hl).stepTo _ _ _
  | branchTaken => exact h.enter.stepTo _ _ _
  | branchNot => exact h.enter.stepTo _ _ _
  | ret => exact h.enter.returnAt _ _

end Inv

/-! ### The loop -/

theorem sizeOfInt_of_lt {i n : Nat} {x : Int} (hlo : (i : Int) < x) (hhi : x < n) (hn : n ≤ 64) :
    (sizeOfInt x : Int) = x ∧ i < sizeOfInt x ∧ sizeOfInt x < n := by
  unfold sizeOfInt
  have hmod : x % 2 ^ 64 = x := Int.emod_eq_of_lt (by omega) (by omega)
  rw [hmod]
  omega

/-- A pass that does not end the loop moves forward and stays inside the program. -/
theorem Step.pc_next {s t : RunState} {p : Nat → Insn} {n : Nat} (hv : Validated p n)
    (hpc : s.pc < n) (hs : Step s (p s.pc) (.next t)) : s.pc < t.pc ∧ t.pc < n := by
  have hret : (p s.pc).op ≠ .ret → s.pc + 1 < n := by
    intro hne
    by_contra hge
    have hlast : s.pc = n - 1 := by omega
    exact hne (hlast ▸ hv.last)
  have hok := hv.ok s.pc hpc
  generalize hc : Control.next t = c at hs
  cases hs with
  | branchTaken hop =>
    obtain rfl := Control.next.inj hc
    obtain ⟨_, hlo, hhi⟩ := insnOk_brNull hok hop
    exact (sizeOfInt_of_lt hlo hhi hv.le).2
  | acquireFull => cases hc
  | null => cases hc
  | stale => cases hc
  | ret => cases hc
  | _ =>
    obtain rfl := Control.next.inj hc
    exact ⟨Nat.lt_succ_self _, hret (by simp_all)⟩

variable {p : Nat → Insn} {n : Nat}

/-- At every test of the guard the ownership state is well formed and `pc` is in range. -/
theorem visits_inv (hv : Validated p n) {s : RunState} (h : (cbpfRunLoop p n).Visits init s) :
    Inv s ∧ s.pc < n := by
  refine h.invariant (I := fun s => Inv s ∧ s.pc < n) ⟨inv_init, hv.pos⟩ ?_
  intro a b ⟨ha, hpc⟩ _ hb
  have hs : Step a (p a.pc) (.next b) := by
    have := exec_step (s := a) (hv.ok a.pc hpc)
    rwa [show a.exec (p a.pc) = .next b from hb] at this
  exact ⟨ha.step hs, (hs.pc_next hv hpc).2⟩

/-- The last pass returns or traps. -/
theorem Step.finish_cases {s t : RunState} {x : Insn} (hs : Step s x (.finish t)) :
    (x.op = .ret ∧ t.r.status = .returned ∧ t.r.trap = s.r.trap ∧ t.r.returned = x.imm) ∨
      (x.op ≠ .ret ∧ t.r.status = .trapped ∧ t.r.trap ≠ .noTrap ∧
        t.r.returned = s.r.returned) := by
  generalize hc : Control.finish t = c at hs
  cases hs with
  | acquireFull hop =>
    obtain rfl := Control.finish.inj hc
    exact .inr ⟨by simp [hop], rfl, nofun, rfl⟩
  | null hop =>
    obtain rfl := Control.finish.inj hc
    exact .inr ⟨by rcases hop with hop | hop <;> simp [hop], rfl, nofun, rfl⟩
  | stale hop =>
    obtain rfl := Control.finish.inj hc
    exact .inr ⟨by rcases hop with hop | hop <;> simp [hop], rfl, nofun, rfl⟩
  | ret hop =>
    obtain rfl := Control.finish.inj hc
    exact .inl ⟨hop, rfl, rfl, rfl⟩
  | _ => cases hc

/-- What the last pass leaves alone. -/
theorem Step.finish_frame {s t : RunState} {x : Insn} (hs : Step s x (.finish t)) :
    t.live = s.live ∧ t.r = { s.r with
      pc := s.pc
      status := t.r.status
      trap := t.r.trap
      returned := t.r.returned
      eventCount := s.r.eventCount + 1
      events := t.r.events } ∧ t.r.events.length = s.r.events.length := by
  generalize hc : Control.finish t = c at hs
  cases hs with
  | acquireFull =>
    obtain rfl := Control.finish.inj hc
    exact ⟨rfl, rfl, List.length_set⟩
  | null =>
    obtain rfl := Control.finish.inj hc
    exact ⟨rfl, rfl, List.length_set⟩
  | stale =>
    obtain rfl := Control.finish.inj hc
    exact ⟨rfl, rfl, List.length_set⟩
  | ret =>
    obtain rfl := Control.finish.inj hc
    exact ⟨rfl, rfl, List.length_set⟩
  | _ => cases hc

/-- Only a `READ` that goes on counts. -/
theorem Step.next_reads {s t : RunState} {x : Insn} (hs : Step s x (.next t)) :
    t.r.reads = s.r.reads + if x.op = .read then 1 else 0 := by
  generalize hc : Control.next t = c at hs
  cases hs with
  | acquireFull => cases hc
  | null => cases hc
  | stale => cases hc
  | ret => cases hc
  | read hop =>
    obtain rfl := Control.next.inj hc
    rw [if_pos hop]
    rfl
  | _ hop =>
    obtain rfl := Control.next.inj hc
    rw [if_neg (by simp [hop])]
    rfl

/-- What only the last pass sets, and the one value a read can return. -/
structure Quiet (s : RunState) : Prop where
  status : s.r.status = .returned
  trap : s.r.trap = .noTrap
  returned : s.r.returned = 0
  lastRead : s.r.lastRead = if s.r.reads = 0 then 0 else 42

theorem Quiet.next {s t : RunState} {x : Insn} (h : Quiet s) (hs : Step s x (.next t)) :
    Quiet t := by
  generalize hc : Control.next t = c at hs
  cases hs with
  | read =>
    obtain rfl := Control.next.inj hc
    exact ⟨h.1, h.2, h.3, rfl⟩
  | acquireFull => cases hc
  | null => cases hc
  | stale => cases hc
  | ret => cases hc
  | _ =>
    obtain rfl := Control.next.inj hc
    exact ⟨h.1, h.2, h.3, h.4⟩

theorem visits_quiet (hv : Validated p n) {s : RunState} (h : (cbpfRunLoop p n).Visits init s) :
    Quiet s := by
  induction h with
  | start => exact ⟨rfl, rfl, rfl, rfl⟩
  | @pass a b hvisit _ hb ih =>
    obtain ⟨_, hpc⟩ := visits_inv hv hvisit
    have hs := exec_step (s := a) (hv.ok a.pc hpc)
    rw [show a.exec (p a.pc) = .next b from hb] at hs
    exact ih.next hs

/-- The loop never ends because `pc` reached `n`: the last pass executes an instruction. -/
theorem exits_exec (hv : Validated p n) {s t : RunState} (h : (cbpfRunLoop p n).Visits init s)
    (he : (cbpfRunLoop p n).Exits s t) : s.exec (p s.pc) = .finish t := by
  obtain ⟨_, hpc⟩ := visits_inv hv h
  cases he with
  | guard hg => simp [cbpfRunLoop, hpc] at hg
  | body _ hb => exact hb

theorem finish_step (hv : Validated p n) {s t : RunState} (h : (cbpfRunLoop p n).Visits init s)
    (hb : s.exec (p s.pc) = .finish t) : Step s (p s.pc) (.finish t) := by
  have := exec_step (s := s) (hv.ok s.pc (visits_inv hv h).2)
  rwa [hb] at this

theorem visits_step (hv : Validated p n) {s t : RunState} (h : (cbpfRunLoop p n).Visits init s)
    (hb : (cbpfRunLoop p n).body s = .next t) : Step s (p s.pc) (.next t) := by
  have := exec_step (s := s) (hv.ok s.pc (visits_inv hv h).2)
  rwa [show s.exec (p s.pc) = .next t from hb] at this

/-- A validated program always reaches its last pass, the `n`-th at the latest. -/
theorem loop_total (hv : Validated p n) {fuel : Nat} (hfuel : n ≤ fuel) :
    ∃ s t, (cbpfRunLoop p n).Visits init s ∧ s.exec (p s.pc) = .finish t ∧
      (cbpfRunLoop p n).run fuel init = some t := by
  have hstart : n - 1 - init.pc < fuel := by
    have := hv.pos
    omega
  obtain ⟨t, hrun, s, hs, hexec⟩ := Loop.run_total
    (fun s => (cbpfRunLoop p n).Visits init s)
    (fun t => ∃ s, (cbpfRunLoop p n).Visits init s ∧ s.exec (p s.pc) = .finish t)
    (fun s => n - 1 - s.pc)
    (fun s t hs hg hb => by
      have hpc := (visits_step hv hs hb).pc_next hv (visits_inv hv hs).2
      exact ⟨hs.pass hg hb, by omega⟩)
    (fun s t hs he => ⟨s, hs, exits_exec hv hs he⟩) .start hstart
  exact ⟨s, t, hs, hexec, hrun⟩

/-- The result of a validated program is the cleaned-up state of its last pass. -/
theorem run_finish {p : InsnPtr} (hvalid : cbpfValidate p n = .ok ()) :
    ∃ s t, (cbpfRunLoop p.deref n).Visits init s ∧ s.exec (p.deref s.pc) = .finish t ∧
      cbpfRun p n = some t.cleanup.r := by
  obtain ⟨s, t, hs, hexec, hrun⟩ := loop_total (validated_of_cbpfValidate hvalid) (Nat.le_succ n)
  refine ⟨s, t, hs, hexec, ?_⟩
  unfold cbpfRun
  rw [hvalid]
  simp only [hrun, Option.map_some]

/-- The last pass that a run visits is the one it ends with. -/
theorem run_of_visits {p : InsnPtr} (hvalid : cbpfValidate p n = .ok ()) {s t : RunState}
    (hvisit : (cbpfRunLoop p.deref n).Visits init s) (hexec : s.exec (p.deref s.pc) = .finish t) :
    cbpfRun p n = some t.cleanup.r := by
  have hv := validated_of_cbpfValidate hvalid
  obtain ⟨_, u, _, _, hrun⟩ := loop_total hv (Nat.le_succ n)
  have hguard : (cbpfRunLoop p.deref n).guard s = true := by
    simpa [cbpfRunLoop] using (visits_inv hv hvisit).2
  obtain rfl := hvisit.run_eq (.body hguard hexec) hrun
  unfold cbpfRun
  rw [hvalid]
  simp only [hrun, Option.map_some]

/-- The cleanup loop keeps the ownership part of the state. -/
theorem Inv.cleanup {s : RunState} (h : Inv s) : Inv s.cleanup := by
  unfold RunState.cleanup
  generalize List.range s.r.acquired = l
  induction l generalizing s with
  | nil => exact h
  | cons i l ih => exact ih (h.cleanupCell i)

theorem isLive_foldl_cleanupCell (s : RunState) (l : List Nat) (j : Nat) :
    (l.foldl Cbpf.cleanupCell s).isLive j = if j ∈ l then false else s.isLive j := by
  induction l generalizing s with
  | nil => rfl
  | cons i l ih =>
    rw [List.foldl_cons, ih, isLive_cleanupCell]
    by_cases hl : j ∈ l <;> by_cases hi : j = i <;> simp [hl, hi]

theorem Inv.isLive_cleanup {s : RunState} (h : Inv s) (i : Nat) : s.cleanup.isLive i = false := by
  rw [RunState.cleanup, isLive_foldl_cleanupCell]
  split
  · rfl
  · rename_i hi
    exact (h.fresh i (by simpa using hi)).1

/-- The cleanup loop gives back every reference. -/
theorem Inv.objectRefs_cleanup {s : RunState} (h : Inv s) : s.cleanup.r.objectRefs = 1 := by
  have hdead : s.cleanup.live.count true = 0 := by
    rw [List.count_eq_zero]
    intro hmem
    obtain ⟨i, hi, htrue⟩ := List.mem_iff_getElem.mp hmem
    have hlive := h.isLive_cleanup i
    rw [isLive, List.getD_eq_getElem _ _ hi, htrue] at hlive
    cases hlive
  rw [h.cleanup.refs, hdead]
  rfl

/-- What the cleanup loop does not write. -/
theorem cleanup_frame (s : RunState) :
    s.cleanup.regs = s.regs ∧ s.cleanup.spills = s.spills ∧
    s.cleanup.r = { s.r with
      objectRefs := s.cleanup.r.objectRefs
      cleanupReleases := s.cleanup.r.cleanupReleases
      cleanupByCell := s.cleanup.r.cleanupByCell
      eventCount := s.cleanup.r.eventCount
      events := s.cleanup.r.events } := by
  unfold RunState.cleanup
  generalize List.range s.r.acquired = l
  induction l generalizing s with
  | nil => exact ⟨rfl, rfl, rfl⟩
  | cons i l ih =>
    obtain ⟨hregs, hspills, hr⟩ := ih (Cbpf.cleanupCell s i)
    rw [List.foldl_cons, hregs, hspills]
    cases hl : s.isLive i with
    | false =>
      rw [cleanupCell_dead hl] at hr ⊢
      exact ⟨rfl, rfl, hr⟩
    | true =>
      rw [cleanupCell_live hl] at hr ⊢
      exact ⟨rfl, rfl, hr⟩

@[simp] theorem regs_cleanup (s : RunState) : s.cleanup.regs = s.regs := (cleanup_frame s).1

@[simp] theorem spills_cleanup (s : RunState) : s.cleanup.spills = s.spills :=
  (cleanup_frame s).2.1

@[simp] theorem status_cleanup (s : RunState) : s.cleanup.r.status = s.r.status := by
  rw [(cleanup_frame s).2.2]

@[simp] theorem trap_cleanup (s : RunState) : s.cleanup.r.trap = s.r.trap := by
  rw [(cleanup_frame s).2.2]

@[simp] theorem acquired_cleanup (s : RunState) : s.cleanup.r.acquired = s.r.acquired := by
  rw [(cleanup_frame s).2.2]

@[simp] theorem pc_cleanup (s : RunState) : s.cleanup.r.pc = s.r.pc := by
  rw [(cleanup_frame s).2.2]

@[simp] theorem returned_cleanup (s : RunState) : s.cleanup.r.returned = s.r.returned := by
  rw [(cleanup_frame s).2.2]

@[simp] theorem reads_cleanup (s : RunState) : s.cleanup.r.reads = s.r.reads := by
  rw [(cleanup_frame s).2.2]

@[simp] theorem lastRead_cleanup (s : RunState) : s.cleanup.r.lastRead = s.r.lastRead := by
  rw [(cleanup_frame s).2.2]

@[simp] theorem explicitReleases_cleanup (s : RunState) :
    s.cleanup.r.explicitReleases = s.r.explicitReleases := by
  rw [(cleanup_frame s).2.2]

@[simp] theorem explicitByCell_cleanup (s : RunState) :
    s.cleanup.r.explicitByCell = s.r.explicitByCell := by
  rw [(cleanup_frame s).2.2]

end RunState

/-- `cbpf_run` returns on every input. -/
theorem cbpfRun_isSome (p : InsnPtr) (n : Nat) : ∃ r, cbpfRun p n = some r := by
  unfold cbpfRun
  cases hval : cbpfValidate p n with
  | error bad => exact ⟨_, rfl⟩
  | ok u =>
    obtain ⟨_, t, _, _, hrun⟩ := RunState.run_finish hval
    rw [cbpfRun, hval] at hrun
    exact ⟨_, hrun⟩

end Cbpf
