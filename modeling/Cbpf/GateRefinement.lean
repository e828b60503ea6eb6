import Cbpf.Gate
import Cbpf.RunInvariant

/-!
# The gate interpreter computes what the reference interpreter computes

The two interpreters keep the same state in different forms: a token with a `live` array against a
handle resolved by searching the published views, with liveness in the cell. `Sim` relates the two
states at every test of the loop guard; each operation of the gate preserves it, and the library's
lockstep rule carries it through the loop. The platform enters only through `Platform.Lawful`.
-/

namespace Cbpf

open BoundedLoop Cheri

variable {Handle Object : Type}

/-- What the gate relies on in either build. -/
structure Platform.Lawful (pl : Platform Handle Object) : Prop where
  same_iff : ∀ a b, pl.sameHandle a b = true ↔ a = b
  view_ne_null : ∀ i v, i < 2 → pl.prepareView i = some v → v ≠ pl.null
  view_inj : ∀ i j v, i < 2 → j < 2 → pl.prepareView i = some v → pl.prepareView j = some v → i = j
  null_dead : pl.objectIsLive pl.nullObject = false
  object_live : pl.objectIsLive pl.object = true
  clear_dead : ∀ o, pl.objectIsLive (pl.clear o) = false

/-- The handle that stands for a token: NULL, or the view of the token's cell. -/
def Platform.handleOf (pl : Platform Handle Object) : Nat → Handle
  | 0 => pl.null
  | i + 1 => (pl.prepareView i).getD pl.null

/-- The gate state `g` represents the run state `s`. -/
structure Sim (pl : Platform Handle Object) (s : RunState) (g : GateState Handle Object) :
    Prop where
  pc : g.pc = s.pc
  r : g.r = s.r
  regs : g.regs = s.regs.map pl.handleOf
  spills : g.spills = s.spills.map pl.handleOf
  views_length : g.views.length = 2
  cells_length : g.cells.length = 2
  views : ∀ i < s.r.acquired, pl.prepareView i = some (g.views.getD i pl.null)
  cells : ∀ i, pl.objectIsLive (g.cells.getD i pl.nullObject) = s.isLive i
  value : g.value = 42
  refs : g.references = s.r.objectRefs

namespace Sim

variable {pl : Platform Handle Object} {s : RunState} {g : GateState Handle Object}

theorem init (hpl : pl.Lawful) : Sim pl .init (.init pl) where
  pc := rfl
  r := rfl
  regs := rfl
  spills := rfl
  views_length := rfl
  cells_length := rfl
  views := fun i hi => absurd hi (Nat.not_lt_zero i)
  cells := by
    intro i
    match i with
    | 0 => exact hpl.null_dead
    | 1 => exact hpl.null_dead
    | i + 2 => exact hpl.null_dead
  value := rfl
  refs := rfl

/-- The search over the views finds the cell of the token that a handle stands for. -/
theorem identify (hpl : pl.Lawful) (h : Sim pl s g) (hacq : s.r.acquired ≤ 2) {t : Nat}
    (ht : t ≤ s.r.acquired) : identify pl g.views (pl.handleOf t) g.r.acquired = (.ok, t) := by
  unfold Cbpf.identify
  cases t with
  | zero => exact if_pos ((hpl.same_iff _ _).mpr rfl)
  | succ i =>
    have hi := h.views i ht
    have hview : pl.handleOf (i + 1) = g.views.getD i pl.null := by
      simp only [Platform.handleOf, hi, Option.getD_some]
    have hnull : pl.sameHandle (pl.handleOf (i + 1)) pl.null ≠ true := by
      rw [Ne, hpl.same_iff, hview]
      exact hpl.view_ne_null i _ (by omega) hi
    have hfind : (List.range g.r.acquired).find?
        (fun j => pl.sameHandle (pl.handleOf (i + 1)) (g.views.getD j pl.null)) = some i := by
      rw [List.find?_range_eq_some]
      refine ⟨(hpl.same_iff _ _).mpr hview, by rw [h.r, List.mem_range]; omega, ?_⟩
      -- no earlier cell has the same view: views are distinct
      intro j hj
      rw [Bool.not_eq_true', Bool.eq_false_iff, Ne, hpl.same_iff, hview]
      intro heq
      have hjv := h.views j (by omega)
      rw [← heq] at hjv
      exact absurd (hpl.view_inj i j _ (by omega) (by omega) hi hjv) (by omega)
    rw [if_neg hnull, hfind]

theorem getD_regs (h : Sim pl s g) (i : Nat) : g.regs.getD i pl.null = pl.handleOf (s.reg i) := by
  rw [h.regs]
  exact List.getD_map s.regs 0 pl.handleOf

theorem getD_spills (h : Sim pl s g) (i : Nat) :
    g.spills.getD i pl.null = pl.handleOf (s.slot i) := by
  rw [h.spills]
  exact List.getD_map s.spills 0 pl.handleOf

/-- The metrics are not part of the represented state. -/
theorem metrics (h : Sim pl s g) (m : GateMetrics) : Sim pl s { g with m := m } :=
  ⟨h.1, h.2, h.3, h.4, h.5, h.6, h.7, h.8, h.9, h.10⟩

theorem enter (h : Sim pl s g) : Sim pl s.enter g.enter where
  __ := h
  r := by simp [RunState.enter, GateState.enter, h.r, h.pc]

theorem setReg (h : Sim pl s g) (dst t : Nat) :
    Sim pl (s.setReg dst t) { g with regs := g.regs.set dst (pl.handleOf t) } where
  __ := h
  regs := by simp [RunState.setReg, h.regs]

theorem setSpill (h : Sim pl s g) (dst t : Nat) :
    Sim pl (s.setSpill dst t) { g with spills := g.spills.set dst (pl.handleOf t) } where
  __ := h
  spills := by simp [RunState.setSpill, h.spills]

theorem stepTo (h : Sim pl s g) (op : Opcode) (token next : Nat) :
    Control.Rel (Sim pl) (.next (s.stepTo op token next)) (g.settle op .ok token next) := by
  refine .next { h with
    pc := rfl
    r := ?_ }
  simp [RunState.stepTo, h.r, h.pc]

theorem trapAt (h : Sim pl s g) (op : Opcode) (token next : Nat) {outcome : GateOutcome} {t : Trap}
    (ho : (outcome = .null ∧ t = .null) ∨ (outcome = .stale ∧ t = .stale) ∨
      (outcome = .exhausted ∧ t = .exhausted)) :
    Control.Rel (Sim pl) (.finish (s.trapAt op token t)) (g.settle op outcome token next) := by
  rcases ho with ⟨rfl, rfl⟩ | ⟨rfl, rfl⟩ | ⟨rfl, rfl⟩ <;>
    exact .finish { h with r := by simp [RunState.trapAt, h.r, h.pc] }

theorem returnAt (h : Sim pl s g) (op : Opcode) (imm : Int) :
    Sim pl (s.returnAt op imm) (g.returnAt op imm) where
  __ := h
  r := by simp [RunState.returnAt, GateState.returnAt, h.r, h.pc]

theorem readField (h : Sim pl s g) :
    Sim pl s.readField { g with r := { g.r with lastRead := g.value, reads := g.r.reads + 1 } } where
  __ := h
  r := by simp [RunState.readField, h.r, h.value]

/-- A successful acquisition publishes the prepared view under the next token. -/
theorem acquire (hpl : pl.Lawful) (h : Sim pl s g) (hinv : s.Inv) (hlt : s.r.acquired < 2)
    {view : Handle} (hview : pl.prepareView s.r.acquired = some view) (dst : Nat) :
    Sim pl (s.acquire dst) (g.publish pl view dst) where
  pc := h.pc
  r := by simp [RunState.acquire, GateState.publish, h.r, h.refs]
  regs := by simp [RunState.acquire, GateState.publish, h.regs, Platform.handleOf, hview]
  spills := h.spills
  views_length := by simpa [GateState.publish] using h.views_length
  cells_length := by simpa [GateState.publish] using h.cells_length
  views := by
    intro i hi
    change i < s.r.acquired + 1 at hi
    simp only [GateState.publish, h.r]
    by_cases hia : i = s.r.acquired
    · subst hia
      simp [hview, h.views_length, hlt]
    · rw [h.views i (by omega)]
      simp [List.getElem?_set_ne (Ne.symm hia)]
  cells := by
    intro i
    rw [s.isLive_acquire dst i (by rw [hinv.live_length]; exact hlt)]
    simp only [GateState.publish, h.r]
    by_cases hia : i = s.r.acquired
    · subst hia
      simpa [h.cells_length, hlt] using hpl.object_live
    · rw [if_neg hia, ← h.cells i]
      simp [List.getElem?_set_ne (Ne.symm hia)]
  value := h.value
  refs := by simp [RunState.acquire, GateState.publish, h.refs]

/-- Writing the consumed form into a cell makes exactly that cell dead. -/
theorem cells_clear (hpl : pl.Lawful) (h : Sim pl s g) (i j : Nat) :
    pl.objectIsLive ((g.cells.set i (pl.clear (g.cells.getD i pl.nullObject))).getD j pl.nullObject)
      = if j = i then false else s.isLive j := by
  by_cases hji : j = i
  · subst hji
    rw [if_pos rfl]
    by_cases hlt : j < g.cells.length
    · simpa [hlt] using hpl.clear_dead _
    · simpa [hlt] using hpl.null_dead
  · rw [if_neg hji, ← h.cells j]
    simp [List.getElem?_set_ne (Ne.symm hji)]

/-- `consume` on a dead cell does nothing. -/
theorem consume_dead (h : Sim pl s g) {i : Nat} (hl : s.isLive i = false) (token : Nat)
    (cleanup : Bool) : g.consume pl i token cleanup = (false, g) := by
  have hcell := h.cells i
  rw [hl] at hcell
  simp only [GateState.consume, hcell, Bool.not_false, if_true]

/-- `consume` on a live cell is the explicit release of its token. -/
theorem consume_release (hpl : pl.Lawful) (h : Sim pl s g) {t : Nat}
    (hl : s.isLive (t - 1) = true) :
    ∃ g', g.consume pl (t - 1) t false = (true, g') ∧ Sim pl (s.release t) g' := by
  have hcell := h.cells (t - 1)
  rw [hl] at hcell
  simp only [GateState.consume, hcell, Bool.not_true, Bool.false_eq_true, if_false]
  refine ⟨_, rfl, ?_⟩
  exact {
    pc := h.pc
    r := by simp [RunState.release, h.r, h.refs]
    regs := h.regs
    spills := h.spills
    views_length := h.views_length
    cells_length := by simpa using h.cells_length
    views := h.views
    cells := by
      intro j
      rw [RunState.isLive_release]
      exact h.cells_clear hpl (t - 1) j
    value := h.value
    refs := by simp [RunState.release, h.refs] }

/-- One pass of the cleanup loop. -/
theorem cleanupCell (hpl : pl.Lawful) (h : Sim pl s g) (i : Nat) :
    Sim pl (Cbpf.cleanupCell s i) (g.cleanupCell pl i) := by
  cases hl : s.isLive i with
  | false =>
    rw [RunState.cleanupCell_dead hl]
    unfold GateState.cleanupCell
    rw [h.consume_dead hl]
    exact h
  | true =>
    have hcell := h.cells i
    rw [hl] at hcell
    simp only [GateState.cleanupCell, GateState.consume, hcell, Bool.not_true, Bool.false_eq_true,
      if_false, if_true]
    refine {
      pc := ?_
      r := ?_
      regs := ?_
      spills := ?_
      views_length := h.views_length
      cells_length := by simpa using h.cells_length
      views := ?_
      cells := ?_
      value := h.value
      refs := ?_ }
    · simpa [RunState.cleanupCell_live hl] using h.pc
    · simp [RunState.cleanupCell_live hl, h.r, h.refs]
    · simpa [RunState.cleanupCell_live hl] using h.regs
    · simpa [RunState.cleanupCell_live hl] using h.spills
    · rw [RunState.acquired_cleanupCell]
      exact h.views
    · intro j
      rw [RunState.isLive_cleanupCell]
      exact h.cells_clear hpl i j
    · simp [RunState.cleanupCell_live hl, record, h.refs]

theorem cleanup (hpl : pl.Lawful) (h : Sim pl s g) : Sim pl s.cleanup (g.cleanup pl) := by
  unfold RunState.cleanup GateState.cleanup
  rw [h.r]
  generalize List.range s.r.acquired = l
  induction l generalizing s g with
  | nil => exact h
  | cons i l ih => exact ih (h.cleanupCell hpl i)

/-- `acquire` of the gate, when the view of the next cell can be prepared. -/
theorem acquire_cases (hpl : pl.Lawful) (h : Sim pl s g) (hinv : s.Inv) (success : Int) (dst : Nat)
    (hprep : success ≠ 0 → s.r.acquired < 2 → (pl.prepareView s.r.acquired).isSome) :
    ∃ g', (success = 0 ∧ g.acquire pl success dst = (.ok, 0, g') ∧ Sim pl (s.setReg dst 0) g') ∨
      (success ≠ 0 ∧ s.r.acquired = 2 ∧ g.acquire pl success dst = (.exhausted, 0, g') ∧
        Sim pl s g') ∨
      (success ≠ 0 ∧ s.r.acquired ≠ 2 ∧
        g.acquire pl success dst = (.ok, s.r.acquired + 1, g') ∧ Sim pl (s.acquire dst) g') := by
  have hm := h.metrics { g.m with acquisitions := g.m.acquisitions + 1 }
  by_cases hi : success = 0
  · refine ⟨_, .inl ⟨hi, ?_, hm.setReg dst 0⟩⟩
    simp only [GateState.acquire, hi, if_true, Platform.handleOf]
  · by_cases ha : s.r.acquired = 2
    · refine ⟨_, .inr (.inl ⟨hi, ha, ?_, hm⟩)⟩
      simp only [GateState.acquire, hi, if_false, h.r, ha, cbpfCells_eq, if_true]
    · have hlt : s.r.acquired < 2 := by
        have := hinv.acquired_le
        omega
      obtain ⟨view, hview⟩ := Option.isSome_iff_exists.mp (hprep hi hlt)
      refine ⟨_, .inr (.inr ⟨hi, ha, ?_, hm.acquire hpl hinv hlt hview dst⟩)⟩
      simp only [GateState.acquire, hi, if_false, h.r, ha, cbpfCells_eq, hview]

/-- `read_field` on the handle of a token. -/
theorem readField_cases (hpl : pl.Lawful) (h : Sim pl s g) (hinv : s.Inv) {t : Nat}
    (ht : t ≤ s.r.acquired) :
    ∃ g', (t = 0 ∧ g.readField pl (pl.handleOf t) = (.null, t, g') ∧ Sim pl s g') ∨
      (t ≠ 0 ∧ s.isLive (t - 1) = false ∧ g.readField pl (pl.handleOf t) = (.stale, t, g') ∧
        Sim pl s g') ∨
      (t ≠ 0 ∧ s.isLive (t - 1) = true ∧ g.readField pl (pl.handleOf t) = (.ok, t, g') ∧
        Sim pl s.readField g') := by
  have hm := h.metrics { g.m with reads := g.m.reads + 1 }
  have hid := h.identify hpl hinv.acquired_le ht
  by_cases h0 : t = 0
  · refine ⟨_, .inl ⟨h0, ?_, hm⟩⟩
    simp only [GateState.readField, hid]
    rw [if_pos h0]
  · have hcell := h.cells (t - 1)
    cases hl : s.isLive (t - 1) with
    | false =>
      refine ⟨_, .inr (.inl ⟨h0, rfl, ?_, hm⟩)⟩
      simp only [GateState.readField, hid, h0, hcell, hl, if_false, Bool.not_false, if_true]
    | true =>
      refine ⟨_, .inr (.inr ⟨h0, rfl, ?_, hm.readField⟩)⟩
      simp only [GateState.readField, hid, h0, hcell, hl, if_false, Bool.not_true,
        Bool.false_eq_true]

/-- `release` on the handle of a token. -/
theorem release_cases (hpl : pl.Lawful) (h : Sim pl s g) (hinv : s.Inv) {t : Nat}
    (ht : t ≤ s.r.acquired) :
    ∃ g', (t = 0 ∧ g.release pl (pl.handleOf t) = (.null, t, g') ∧ Sim pl s g') ∨
      (t ≠ 0 ∧ s.isLive (t - 1) = false ∧ g.release pl (pl.handleOf t) = (.stale, t, g') ∧
        Sim pl s g') ∨
      (t ≠ 0 ∧ s.isLive (t - 1) = true ∧ g.release pl (pl.handleOf t) = (.ok, t, g') ∧
        Sim pl (s.release t) g') := by
  have hm := h.metrics { g.m with releases := g.m.releases + 1 }
  have hid := h.identify hpl hinv.acquired_le ht
  by_cases h0 : t = 0
  · refine ⟨_, .inl ⟨h0, ?_, hm⟩⟩
    simp only [GateState.release, hid]
    rw [if_pos h0]
  · cases hl : s.isLive (t - 1) with
    | false =>
      refine ⟨_, .inr (.inl ⟨h0, rfl, ?_, hm⟩)⟩
      simp only [GateState.release, hid, h0, if_false, hm.consume_dead hl]
    | true =>
      obtain ⟨g', hg, hsim⟩ := hm.consume_release hpl hl
      refine ⟨g', .inr (.inr ⟨h0, rfl, ?_, hsim⟩)⟩
      simp only [GateState.release, hid, h0, if_false, hg]

/-- One pass of both loops on a validated instruction. -/
theorem exec (hpl : pl.Lawful) (h : Sim pl s g) (hinv : s.Inv) {x : Insn} {n i : Nat}
    (hok : insnOk n i x = true)
    (hprep : x.op = .acquire → x.imm ≠ 0 → s.r.acquired < 2 →
      (pl.prepareView s.r.acquired).isSome) :
    Control.Rel (Sim pl) (s.exec x) (g.exec pl x) := by
  have he := h.enter
  have hinv' := hinv.enter
  cases hop : x.op with
  | acquire =>
    have hcast : intOfInt64 x.imm = x.imm := by
      rcases (insnOk_acquire hok hop).2 with hi | hi <;> rw [hi] <;> rfl
    obtain ⟨g', hg⟩ := he.acquire_cases hpl hinv' x.imm x.dst (hprep hop)
    simp only [RunState.acquired_enter] at hg
    simp only [GateState.exec, RunState.exec, hop, hcast, RunState.acquired_enter, cbpfCells_eq]
    rcases hg with ⟨hi, hg, hs⟩ | ⟨hi, ha, hg, hs⟩ | ⟨hi, ha, hg, hs⟩
    · simp only [hg]
      simpa only [hi, if_true, h.pc] using hs.stepTo .acquire 0 (s.pc + 1)
    · simpa only [hi, if_false, ha, if_true, hg, h.pc] using
        hs.trapAt .acquire 0 (s.pc + 1) (.inr (.inr ⟨rfl, rfl⟩))
    · simpa only [hi, if_false, ha, hg, h.pc] using
        hs.stepTo .acquire (s.r.acquired + 1) (s.pc + 1)
  | copy =>
    have hid := he.identify hpl hinv.acquired_le (hinv.reg_le x.src)
    simp only [GateState.exec, RunState.exec, hop, he.getD_regs, hid, RunState.reg_enter]
    simpa only [h.pc] using (he.setReg x.dst (s.reg x.src)).stepTo .copy (s.reg x.src) (s.pc + 1)
  | spill =>
    have hid := he.identify hpl hinv.acquired_le (hinv.reg_le x.src)
    simp only [GateState.exec, RunState.exec, hop, he.getD_regs, hid, RunState.reg_enter]
    simpa only [h.pc] using (he.setSpill x.dst (s.reg x.src)).stepTo .spill (s.reg x.src) (s.pc + 1)
  | reload =>
    have hid := he.identify hpl hinv.acquired_le (hinv.slot_le x.src)
    simp only [GateState.exec, RunState.exec, hop, he.getD_spills, hid, RunState.slot_enter]
    simpa only [h.pc] using
      (he.setReg x.dst (s.slot x.src)).stepTo .reload (s.slot x.src) (s.pc + 1)
  | read =>
    obtain ⟨g', hg⟩ := he.readField_cases hpl hinv' (hinv.reg_le x.dst)
    simp only [GateState.exec, RunState.exec, hop, he.getD_regs, RunState.reg_enter,
      RunState.isLive_enter]
    rcases hg with ⟨ht, hg, hs⟩ | ⟨ht, hl, hg, hs⟩ | ⟨ht, hl, hg, hs⟩
    · simp only [hg]
      simpa only [ht, if_true, h.pc] using
        hs.trapAt .read (s.reg x.dst) (s.pc + 1) (.inl ⟨rfl, rfl⟩)
    · simp only [RunState.isLive_enter] at hl
      simpa only [hg, ht, if_false, hl, Bool.not_false, if_true, h.pc] using
        hs.trapAt .read (s.reg x.dst) (s.pc + 1) (.inr (.inl ⟨rfl, rfl⟩))
    · simp only [RunState.isLive_enter] at hl
      simpa only [hg, ht, if_false, hl, Bool.not_true, Bool.false_eq_true, if_true, h.pc] using
        hs.stepTo .read (s.reg x.dst) (s.pc + 1)
  | release =>
    obtain ⟨g', hg⟩ := he.release_cases hpl hinv' (hinv.reg_le x.dst)
    simp only [GateState.exec, RunState.exec, hop, he.getD_regs, RunState.reg_enter,
      RunState.isLive_enter]
    rcases hg with ⟨ht, hg, hs⟩ | ⟨ht, hl, hg, hs⟩ | ⟨ht, hl, hg, hs⟩
    · simp only [hg]
      simpa only [ht, if_true, h.pc] using
        hs.trapAt .release (s.reg x.dst) (s.pc + 1) (.inl ⟨rfl, rfl⟩)
    · simp only [RunState.isLive_enter] at hl
      simpa only [hg, ht, if_false, hl, Bool.not_false, if_true, h.pc] using
        hs.trapAt .release (s.reg x.dst) (s.pc + 1) (.inr (.inl ⟨rfl, rfl⟩))
    · simp only [RunState.isLive_enter] at hl
      simpa only [hg, ht, if_false, hl, Bool.not_true, Bool.false_eq_true, reduceCtorEq, h.pc] using
        hs.stepTo .release (s.reg x.dst) (s.pc + 1)
  | brNull =>
    have hid := he.identify hpl hinv.acquired_le (hinv.reg_le x.dst)
    simp only [GateState.exec, RunState.exec, hop, he.getD_regs, hid, RunState.reg_enter, true_and]
    by_cases ht : s.reg x.dst = 0
    · simpa only [ht, if_true] using he.stepTo .brNull 0 (sizeOfInt x.imm)
    · simpa only [ht, if_false, h.pc] using he.stepTo .brNull (s.reg x.dst) (s.pc + 1)
  | ret =>
    simp only [GateState.exec, RunState.exec, hop]
    exact .finish (he.returnAt .ret x.imm)
  | other k => exact absurd hop (insnOk_other hok k)

/-- A pass that cannot prepare the view of the next cell ends the loop before any effect. -/
theorem exec_failed (h : Sim pl s g) {x : Insn} {n i : Nat} (hok : insnOk n i x = true)
    (hop : x.op = .acquire) (hi : x.imm ≠ 0) (hlt : s.r.acquired < 2)
    (hnone : pl.prepareView s.r.acquired = none) :
    ∃ g', g.exec pl x = .finish g' ∧ Sim pl s.enter.invalid g' ∧
      g'.m = { g.m with
        acquisitions := g.m.acquisitions + 1
        representationErrors := g.m.representationErrors + 1 } := by
  have he := h.enter
  have hcast : intOfInt64 x.imm = x.imm := by
    rcases (insnOk_acquire hok hop).2 with hi | hi <;> rw [hi] <;> rfl
  have hacq : g.enter.r.acquired = s.r.acquired := by
    rw [he.r]
    rfl
  refine ⟨{ g.enter with
    m := { g.m with
      acquisitions := g.m.acquisitions + 1
      representationErrors := g.m.representationErrors + 1 }
    r := { g.enter.r with status := .invalid } }, ?_, { he with r := ?_ }, rfl⟩
  · have hne : s.r.acquired ≠ 2 := Nat.ne_of_lt hlt
    simp only [GateState.exec, hop, hcast, GateState.acquire, hi, if_false, hacq, cbpfCells_eq, hne,
      hnone, GateState.settle, if_true]
    rfl
  · simp [RunState.invalid, he.r]

/-- One pass of the gate on a validated instruction, with or without the view of the next cell. -/
theorem exec_cases (hpl : pl.Lawful) (h : Sim pl s g) (hinv : s.Inv) {x : Insn} {n i : Nat}
    (hok : insnOk n i x = true) :
    Control.Rel (Sim pl) (s.exec x) (g.exec pl x) ∨
      (x.op = .acquire ∧ x.imm ≠ 0 ∧ s.r.acquired < 2 ∧ pl.prepareView s.r.acquired = none) := by
  by_cases hfail : x.op = .acquire ∧ x.imm ≠ 0 ∧ s.r.acquired < 2 ∧
      pl.prepareView s.r.acquired = none
  · exact .inr hfail
  · refine .inl (h.exec hpl hinv hok fun hop hi hlt => ?_)
    rw [Option.isSome_iff_ne_none]
    intro hnone
    exact hfail ⟨hop, hi, hlt, hnone⟩

/-- A pass of the gate that goes on is the pass of the reference interpreter. -/
theorem exec_next (hpl : pl.Lawful) (h : Sim pl s g) (hinv : s.Inv) {x : Insn} {n i : Nat}
    (hok : insnOk n i x = true) {g' : GateState Handle Object} (hb : g.exec pl x = .next g') :
    ∃ s', s.exec x = .next s' ∧ Sim pl s' g' := by
  rcases h.exec_cases hpl hinv hok with hrel | ⟨hop, hi, hlt, hnone⟩
  · rw [hb] at hrel
    cases hs : s.exec x with
    | next s' =>
      rw [hs] at hrel
      cases hrel with
      | next hsim' => exact ⟨s', rfl, hsim'⟩
    | finish s' =>
      rw [hs] at hrel
      cases hrel
  · obtain ⟨g'', hg'', _⟩ := h.exec_failed hok hop hi hlt hnone
    rw [hg''] at hb
    cases hb

/-- A last pass of the gate is the last pass of the reference interpreter, or a view is missing. -/
theorem exec_finish (hpl : pl.Lawful) (h : Sim pl s g) (hinv : s.Inv) {x : Insn} {n i : Nat}
    (hok : insnOk n i x = true) {g' : GateState Handle Object} (hb : g.exec pl x = .finish g') :
    (∃ t, s.exec x = .finish t ∧ Sim pl t g') ∨
      (x.op = .acquire ∧ x.imm ≠ 0 ∧ s.r.acquired < 2 ∧ pl.prepareView s.r.acquired = none ∧
        Sim pl s.enter.invalid g') := by
  rcases h.exec_cases hpl hinv hok with hrel | ⟨hop, hi, hlt, hnone⟩
  · rw [hb] at hrel
    cases hs : s.exec x with
    | next s' =>
      rw [hs] at hrel
      cases hrel
    | finish s' =>
      rw [hs] at hrel
      cases hrel with
      | finish hsim' => exact .inl ⟨s', rfl, hsim'⟩
  · obtain ⟨g'', hg'', hsim, _⟩ := h.exec_failed hok hop hi hlt hnone
    rw [hg''] at hb
    obtain rfl := Control.finish.inj hb
    exact .inr ⟨hop, hi, hlt, hnone, hsim⟩

/-- Every guard test of the gate's loop is one of the reference loop. -/
theorem visits (hpl : pl.Lawful) {p : Nat → Insn} {n : Nat} (hv : Validated p n)
    (h : (cbpfGateRunLoop pl p n).Visits (.init pl) g) :
    ∃ s, (cbpfRunLoop p n).Visits .init s ∧ Sim pl s g := by
  refine h.simulated (init hpl) ?_
  intro s g g' hvisit hsim _ hb
  obtain ⟨hinv, hpc⟩ := RunState.visits_inv hv hvisit
  have hb' : g.exec pl (p s.pc) = .next g' := hsim.pc ▸ hb
  obtain ⟨s', hs, hsim'⟩ := hsim.exec_next hpl hinv (hv.ok s.pc hpc) hb'
  exact ⟨s', by simpa [cbpfRunLoop] using hpc, hs, hsim'⟩

/-- The two loops in lockstep. -/
theorem run (hpl : pl.Lawful) (hprep : ∀ i < 2, (pl.prepareView i).isSome) {p : Nat → Insn} {n : Nat}
    (hv : Validated p n) (fuel : Nat) :
    Option.Rel (fun s g => Sim pl s g ∧ s.Inv) ((cbpfRunLoop p n).run fuel .init)
      ((cbpfGateRunLoop pl p n).run fuel (.init pl)) := by
  refine Loop.run_lockstep ?_ ?_ fuel ⟨init hpl, RunState.inv_init⟩
  · intro s g h
    simp only [cbpfRunLoop, cbpfGateRunLoop, h.1.pc]
  · rintro s g ⟨h, hinv⟩ hg
    have hpc : s.pc < n := by simpa [cbpfRunLoop] using hg
    have hok := hv.ok s.pc hpc
    have hstep := h.exec hpl hinv hok (fun _ _ hlt => hprep _ hlt)
    simp only [cbpfRunLoop, cbpfGateRunLoop, h.pc]
    exact hstep.and_left (hinv.step (RunState.exec_step hok))

end Sim

/-- Over a lawful platform whose views can be prepared, the gate interpreter leaves in `*r` what the
reference interpreter leaves there. -/
theorem cbpfGateRun_eq {pl : Platform Handle Object} (hpl : pl.Lawful)
    (hprep : ∀ i < 2, (pl.prepareView i).isSome) (p : InsnPtr) (n : Nat) (metrics : Bool) :
    (cbpfGateRun pl p n metrics).map Prod.fst = cbpfRun p n := by
  unfold cbpfGateRun cbpfRun
  cases hval : cbpfValidate p n with
  | error bad => rfl
  | ok u =>
    have hrel := Sim.run hpl hprep (validated_of_cbpfValidate hval) (n + 1)
    generalize (cbpfRunLoop p.deref n).run (n + 1) .init = a at hrel
    generalize (cbpfGateRunLoop pl p.deref n).run (n + 1) (.init pl) = b at hrel
    cases hrel with
    | none => rfl
    | some h => simp [(h.1.cleanup hpl).r]

/-! ### The two builds -/

theorem hostPlatform_lawful (bytes : Nat) : (hostPlatform bytes).Lawful where
  same_iff := fun a b => by simp [hostPlatform]
  view_ne_null := fun i v _ hv => by
    simp only [hostPlatform, Option.some.injEq] at hv
    simp [hostPlatform, ← hv]
  view_inj := fun i j v _ _ hi hj => by
    simp only [hostPlatform, Option.some.injEq] at hi hj
    exact Option.some.inj (hi.trans hj.symm)
  null_dead := rfl
  object_live := rfl
  clear_dead := fun _ => rfl

/-- A prepared view is the exact restricted capability of its cell. -/
theorem prepareView_some {enc : Encoding} {bytes : Nat} {cell view : Capability}
    (h : prepareView enc bytes cell = some view) :
    view = ⟨true, false, cell.address, cell.address, bytes, permLoad ||| permGlobal⟩ := by
  simp only [prepareView] at h
  split at h
  · cases h
  · rename_i hne
    obtain rfl := Option.some.inj h
    exact eq_of_inexact_eq_false (Bool.eq_false_iff.mpr hne)

theorem purecapPlatform_lawful (l : PurecapLayout) : (purecapPlatform l).Lawful where
  same_iff := fun a b => by simp [purecapPlatform]
  view_ne_null := fun i v _ hv hnull => by
    rw [prepareView_some hv] at hnull
    cases congrArg Capability.tag hnull
  view_inj := fun i j v hi hj hvi hvj => by
    have hview := (prepareView_some hvi).symm.trans (prepareView_some hvj)
    have haddr : (l.cell i).address = (l.cell j).address := congrArg Capability.base hview
    have hne := l.cells_distinct
    match i, j with
    | 0, 0 => rfl
    | 1, 1 => rfl
    | 0, 1 => exact absurd haddr hne
    | 1, 0 => exact absurd haddr.symm hne
    | i + 2, _ => omega
    | _, j + 2 => omega
  null_dead := rfl
  object_live := l.object_tagged
  clear_dead := fun _ => rfl

/-- Both builds of the gate interpreter agree with the reference interpreter on every program. -/
theorem cbpfGateRun_agrees (p : InsnPtr) (n : Nat) (metrics : Bool) :
    (∃ r, cbpfRun p n = some r) ∧
      (∀ pointerBytes, (cbpfGateRun (hostPlatform pointerBytes) p n metrics).map Prod.fst =
        cbpfRun p n) ∧
      ∀ l : PurecapLayout,
        (∀ i < 2, (prepareView l.enc l.capabilityBytes (l.cell i)).isSome) →
        (cbpfGateRun (purecapPlatform l) p n metrics).map Prod.fst = cbpfRun p n :=
  ⟨cbpfRun_isSome p n,
    fun bytes => cbpfGateRun_eq (hostPlatform_lawful bytes) (fun _ _ => rfl) p n metrics,
    fun l hprep => cbpfGateRun_eq (purecapPlatform_lawful l) hprep p n metrics⟩

/-- Two 16-byte cells and the object next to each other on a stack whose bounds are all exact. -/
def stackLayout : PurecapLayout where
  enc := ⟨fun _ _ => true, fun _ _ _ => true⟩
  cell i := ⟨true, false, 4096 + 16 * i, 4096, 64, 2 ^ 18 - 1⟩
  object := ⟨true, false, 4128, 4128, 8, 2 ^ 18 - 1⟩
  capabilityBytes := 16
  cells_distinct := by decide
  object_tagged := rfl

/-- `r0 = acquire(1); r1 = r0; release(r1); return 7`. -/
def releaseByCopy : InsnPtr :=
  some fun
    | 0 => ⟨.acquire, 0, 0, 1⟩
    | 1 => ⟨.copy, 1, 0, 0⟩
    | 2 => ⟨.release, 1, 0, 0⟩
    | _ => ⟨.ret, 0, 0, 7⟩

theorem cbpfGateRun_agrees_stackLayout :
    (∀ i < 2, (prepareView stackLayout.enc stackLayout.capabilityBytes
      (stackLayout.cell i)).isSome) ∧
    (cbpfGateRun (purecapPlatform stackLayout) releaseByCopy 4 true).map Prod.fst =
      cbpfRun releaseByCopy 4 :=
  ⟨by decide, (cbpfGateRun_agrees releaseByCopy 4 true).2.2 stackLayout (by decide)⟩

end Cbpf
