import Cbpf.RunInvariant
import Cbpf.Model.EdgeCheck

/-!
# `cbpf_run` refines the ownership model

`RunState.abs` reads a run state as a state of `check_model.py`. A pass is a model edge of the same
kind and operands, or leaves the model state alone (`BR_NULL`); the last pass together with the
cleanup loop is one terminal edge.
-/

namespace Cbpf

open BoundedLoop

/-- The kind and operands of the edge an instruction stands for. `BR_NULL` has none. -/
def insnLabel (x : Insn) : Option (Model.Kind × List Nat) :=
  match x.op with
  | .acquire => some (if x.imm = 0 then .acquireNull else .acquire, [x.dst])
  | .copy => some (.copy, [x.dst, x.src])
  | .spill => some (.spill, [x.dst, x.src])
  | .reload => some (.reload, [x.dst, x.src])
  | .read => some (.read, [x.dst])
  | .release => some (.release, [x.dst])
  | .ret => some (.finish, [])
  | .brNull | .other _ => none

/-- The terminal reason that a result and the instruction at its `pc` report. -/
def terminalReason (op : Opcode) (r : Result) : Model.Terminal :=
  match r.trap with
  | .noTrap => .ret
  | .exhausted => .exhaustion
  | .null => if op = .read then .nullRead else .nullRelease
  | .stale => if op = .read then .staleRead else .staleRelease

namespace RunState

/-- `State(live[0..acquired), regs, spills, explicit_by_cell[0..acquired),
cleanup_by_cell[0..acquired), object_refs, terminal)`. -/
def abs (s : RunState) (terminal : Model.Terminal) : Model.State where
  live := s.live.take s.r.acquired
  registers := s.regs.map (↑)
  spills := s.spills.map (↑)
  explicit := (s.r.explicitByCell.take s.r.acquired).map (↑)
  cleanup := (s.r.cleanupByCell.take s.r.acquired).map (↑)
  refcount := s.r.objectRefs
  terminal := terminal

/-! ### Reading the abstraction -/

@[simp] theorem reg_abs (s : RunState) (T : Model.Terminal) (i : Nat) :
    (s.abs T).reg i = s.reg i := List.getD_map s.regs 0 (fun t : Nat => (t : Int))

@[simp] theorem slot_abs (s : RunState) (T : Model.Terminal) (i : Nat) :
    (s.abs T).slot i = s.slot i := List.getD_map s.spills 0 (fun t : Nat => (t : Int))

theorem getD_take {α : Type} (l : List α) (d : α) {i n : Nat} (h : n ≤ i → l.getD i d = d) :
    (l.take n).getD i d = l.getD i d := by
  by_cases hi : i < n
  · simp [hi]
  · rw [h (Nat.le_of_not_lt hi)]
    simp [hi]

theorem take_set_succ {α : Type} {l : List α} {n : Nat} (hn : n < l.length) (a : α) :
    (l.set n a).take (n + 1) = l.take n ++ [a] := by
  rw [List.take_add_one, List.getElem?_set_self hn, List.take_set_of_le (Nat.le_refl n)]
  rfl

theorem take_succ_of_getD {l : List Nat} {n : Nat} (hn : n < l.length) (h0 : l.getD n 0 = 0) :
    l.take (n + 1) = l.take n ++ [0] := by
  rw [List.getD_eq_getElem _ _ hn] at h0
  rw [List.take_add_one, List.getElem?_eq_getElem hn, h0]
  rfl

namespace Inv

variable {s : RunState}

theorem length_abs (h : Inv s) (T : Model.Terminal) : (s.abs T).live.length = s.r.acquired := by
  rw [abs, List.length_take, h.live_length]
  exact Nat.min_eq_left h.acquired_le

theorem liveAt_abs (h : Inv s) (T : Model.Terminal) (i : Nat) :
    (s.abs T).liveAt i = s.isLive i :=
  getD_take s.live false fun hi => (h.fresh i hi).1

theorem explicitAt_abs (h : Inv s) (T : Model.Terminal) (i : Nat) :
    (s.abs T).explicitAt i = s.r.explicitAt i := by
  have := getD_take s.r.explicitByCell 0 (i := i) fun hi => (h.fresh i hi).2.1
  have hmap := List.getD_map (n := i) (s.r.explicitByCell.take s.r.acquired) 0
    (fun t : Nat => (t : Int))
  rw [this] at hmap
  exact hmap

theorem cleanupAt_abs (h : Inv s) (T : Model.Terminal) (i : Nat) :
    (s.abs T).cleanupAt i = s.r.cleanupAt i := by
  have := getD_take s.r.cleanupByCell 0 (i := i) fun hi => (h.fresh i hi).2.2
  have hmap := List.getD_map (n := i) (s.r.cleanupByCell.take s.r.acquired) 0
    (fun t : Nat => (t : Int))
  rw [this] at hmap
  exact hmap

theorem index_cast {t : Nat} : Model.State.index (t : Int) = t - 1 := by
  unfold Model.State.index
  omega

theorem valid_abs (h : Inv s) (T : Model.Terminal) (t : Nat) :
    (s.abs T).valid t = (t != 0 && s.isLive (t - 1)) := by
  have hne : ((t : Int) != 0) = (t != 0) := by
    rw [Bool.eq_iff_iff, bne_iff_ne, bne_iff_ne]
    omega
  rw [Model.State.valid, index_cast, h.liveAt_abs, hne]

theorem abs_setReg (h : Inv s) {dst : Nat} (hd : dst < 4) (t : Nat) (T : Model.Terminal) :
    (s.setReg dst t).abs T = (s.abs T).setReg dst t := by
  have hlen : dst < (s.abs T).registers.length := by simpa [abs, h.regs_length] using hd
  rw [Model.State.setReg, Model.updated_eq_set _ hlen]
  simp [abs, RunState.setReg, List.map_set]

theorem abs_setSpill (h : Inv s) {dst : Nat} (hd : dst < 2) (t : Nat) (T : Model.Terminal) :
    (s.setSpill dst t).abs T = (s.abs T).setSpill dst t := by
  have hlen : dst < (s.abs T).spills.length := by simpa [abs, h.spills_length] using hd
  rw [Model.State.setSpill, Model.updated_eq_set _ hlen]
  simp [abs, RunState.setSpill, List.map_set]

theorem abs_acquire (h : Inv s) {dst : Nat} (hd : dst < 4) (hlt : s.r.acquired < 2)
    (T : Model.Terminal) : (s.acquire dst).abs T = (s.abs T).acquire dst := by
  have hlen : dst < (s.abs T).registers.length := by simpa [abs, h.regs_length] using hd
  obtain ⟨_, he, hc⟩ := h.fresh s.r.acquired (Nat.le_refl _)
  rw [Model.State.acquire, Model.updated_eq_set _ hlen, h.length_abs]
  have hlive := take_set_succ (show s.r.acquired < s.live.length by rw [h.live_length]; exact hlt)
    true
  have hexp := take_succ_of_getD (by rw [h.explicit_length]; exact hlt) he
  have hcln := take_succ_of_getD (by rw [h.cleanup_length]; exact hlt) hc
  simp [abs, RunState.acquire, hlive, hexp, hcln, List.map_set]

/-- A successful release consumes exactly the acquisition its token names. -/
theorem abs_release (h : Inv s) {t : Nat} (ht : t ≠ 0) (hl : s.isLive (t - 1) = true)
    (T : Model.Terminal) :
    (s.release t).abs T = (s.abs T).consume ((s.abs T).victims false t) := by
  have hv : (s.abs T).valid t = true := by simp [h.valid_abs, ht, hl]
  rw [Model.consume_victims_eq hv, index_cast, h.explicitAt_abs]
  have hexp := List.take_set (l := s.r.explicitByCell) (i := s.r.acquired) (j := t - 1)
    (a := s.r.explicitAt (t - 1) + 1)
  have hlive := List.take_set (l := s.live) (i := s.r.acquired) (j := t - 1) (a := false)
  simp only [abs, RunState.release, bump, hlive]
  congr 1
  exact (congrArg (List.map _) hexp).trans (by simp [List.map_set])

/-! ### The cleanup loop is `terminate` -/

theorem cleanupAt_cleanup (h : Inv s) (i : Nat) :
    s.cleanup.r.cleanupAt i = s.r.cleanupAt i + (s.isLive i).toNat := by
  have hacq := acquired_cleanup s
  have hexp := explicitByCell_cleanup s
  have hat : s.cleanup.r.explicitAt i = s.r.explicitAt i := by
    rw [Result.explicitAt, Result.explicitAt, hexp]
  by_cases hi : i < s.r.acquired
  · have hbefore := h.cells i hi
    have hafter := h.cleanup.cells i (hacq ▸ hi)
    rw [hat, h.isLive_cleanup] at hafter
    cases hl : s.isLive i <;> simp [hl] at hbefore hafter ⊢ <;> omega
  · obtain ⟨hl, _, hc⟩ := h.fresh i (by omega)
    obtain ⟨_, _, hc'⟩ := h.cleanup.fresh i (by omega)
    simp [hl, hc, hc']

theorem count_take_acquired (h : Inv s) :
    (s.live.take s.r.acquired).count true = s.live.count true := by
  have hdrop : (s.live.drop s.r.acquired).count true = 0 := by
    rw [List.count_eq_zero]
    intro hmem
    obtain ⟨i, hi, htrue⟩ := List.mem_iff_getElem.mp hmem
    rw [List.getElem_drop] at htrue
    have hfresh := (h.fresh (s.r.acquired + i) (Nat.le_add_right _ _)).1
    rw [List.length_drop] at hi
    rw [isLive, List.getD_eq_getElem _ _ (by omega), htrue] at hfresh
    cases hfresh
  rw [← List.take_append_drop s.r.acquired s.live, List.count_append, hdrop]
  simp

theorem abs_cleanup (h : Inv s) (reason : Model.Terminal) :
    s.cleanup.abs reason = (s.abs .active).terminate reason := by
  have hacq := acquired_cleanup s
  have hlen := h.length_abs .active
  have hlen' : (s.cleanup.abs reason).live.length = s.r.acquired := by
    rw [h.cleanup.length_abs, hacq]
  have hclen : (s.abs .active).cleanup.length = (s.abs .active).live.length := by
    simp [abs, h.live_length, h.cleanup_length]
  refine Model.State.ext ?_ ?_ ?_ ?_ ?_ ?_ rfl
  · refine Model.ext_getD false (by rw [hlen', Model.length_terminate, hlen]) fun i => ?_
    have hl := h.cleanup.liveAt_abs reason i
    rw [h.isLive_cleanup] at hl
    exact hl.trans (Model.liveAt_terminate _ reason i).symm
  · simp [abs, regs_cleanup]
  · simp [abs, spills_cleanup]
  · simp [abs]
  · refine Model.ext_getD 0 ?_ fun i => ?_
    · simp [abs, Model.State.terminate, h.cleanup.cleanup_length, h.cleanup_length, h.live_length]
    · have hc := h.cleanup.cleanupAt_abs reason i
      have ht := Model.cleanupAt_terminate hclen reason i
      rw [h.cleanupAt_abs, h.liveAt_abs] at ht
      refine hc.trans (Eq.trans ?_ ht.symm)
      rw [h.cleanupAt_cleanup]
      exact Int.natCast_add _ _
  · have hafter := h.cleanup.refs
    have hdead : s.cleanup.live.count true = 0 := by
      rw [List.count_eq_zero]
      intro hmem
      obtain ⟨i, hi, htrue⟩ := List.mem_iff_getElem.mp hmem
      have := h.isLive_cleanup i
      rw [isLive, List.getD_eq_getElem _ _ hi, htrue] at this
      cases this
    have hcount := h.count_take_acquired
    have hbefore := h.refs
    change s.cleanup.r.objectRefs =
      s.r.objectRefs - ((s.live.take s.r.acquired).count true : Int)
    rw [hcount]
    omega

end Inv

/-! ### One pass -/

/-- `e` is the `transitions` edge of the kind and operands of `x`, and the only one. -/
structure IsEdge (m : Model.State) (x : Insn) (e : Model.Edge) : Prop where
  mem : e ∈ Model.transitions m cbpfCells false
  label : insnLabel x = some (e.kind, e.args)
  unique : ∀ e' ∈ Model.transitions m cbpfCells false,
    insnLabel x = some (e'.kind, e'.args) → e' = e

variable {s t : RunState} {x : Insn} {n i : Nat}

theorem isEdge_of_yields {T : Model.State} {e : Model.Edge} (ha : T.terminal = .active)
    (h : Model.Yields T 2 false e) (hl : insnLabel x = some (e.kind, e.args)) : IsEdge T x e where
  mem := Model.mem_transitions.mpr ⟨ha, h⟩
  label := hl
  unique := by
    intro e' he' hl'
    have hlabel := Option.some.inj (hl'.symm.trans hl)
    exact h.eq_of_label (Model.mem_transitions.mp he').2 hlabel

/-- A pass that goes on is a stutter (`BR_NULL`) or the edge of its instruction. -/
theorem next_abs (h : Inv s) (hok : insnOk n s.pc x = true) (hn : n ≤ 64)
    (hs : Step s x (.next t)) :
    (x.op = .brNull ∧ t.abs .active = s.abs .active ∧
      (t.pc : Int) = if s.reg x.dst = 0 then x.imm else s.pc + 1) ∨
    (x.op ≠ .brNull ∧ t.pc = s.pc + 1 ∧
      ∃ e, IsEdge (s.abs .active) x e ∧ e.target = t.abs .active) := by
  have hregs : (s.abs .active).registers.length = 4 := by simp [abs, h.regs_length]
  have hspills : (s.abs .active).spills.length = 2 := by simp [abs, h.spills_length]
  have hlen := h.length_abs .active
  generalize hc : Control.next t = c at hs
  cases hs with
  | acquireNull hop hi =>
    obtain rfl := Control.next.inj hc
    obtain ⟨hd, _⟩ := insnOk_acquire hok hop
    refine .inr ⟨by simp [hop], rfl, _, isEdge_of_yields rfl (.acquireNull x.dst (hregs ▸ hd)) ?_, ?_⟩
    · simp [insnLabel, hop, hi, Model.acquireNullEdge]
    · exact (h.enter.abs_setReg hd 0 .active).symm
  | acquire hop hi hne =>
    obtain rfl := Control.next.inj hc
    obtain ⟨hd, _⟩ := insnOk_acquire hok hop
    have hlt : s.r.acquired < 2 := Nat.lt_of_le_of_ne h.acquired_le hne
    have he : Model.acquireEdge (s.abs .active) 2 x.dst =
        ⟨.acquire, [x.dst], .success, (s.abs .active).acquire x.dst⟩ := by
      simp [Model.acquireEdge, hlen, hne]
    refine .inr ⟨by simp [hop], rfl, _, isEdge_of_yields rfl (.acquire x.dst (hregs ▸ hd)) ?_, ?_⟩
    · simp [insnLabel, hop, hi, he]
    · rw [he]
      exact (h.enter.abs_acquire hd hlt .active).symm
  | copy hop =>
    obtain rfl := Control.next.inj hc
    obtain ⟨hd, hsrc⟩ := insnOk_copy hok hop
    refine .inr ⟨by simp [hop], rfl, _,
      isEdge_of_yields rfl (.copy x.dst x.src (hregs ▸ hd) (hregs ▸ hsrc)) ?_, ?_⟩
    · simp [insnLabel, hop, Model.copyEdge]
    · rw [Model.copyEdge, reg_abs]
      exact (h.enter.abs_setReg hd _ .active).symm
  | spill hop =>
    obtain rfl := Control.next.inj hc
    obtain ⟨hd, hsrc⟩ := insnOk_spill hok hop
    refine .inr ⟨by simp [hop], rfl, _,
      isEdge_of_yields rfl (.spill x.dst x.src (hspills ▸ hd) (hregs ▸ hsrc)) ?_, ?_⟩
    · simp [insnLabel, hop, Model.spillEdge]
    · rw [Model.spillEdge, reg_abs]
      exact (h.enter.abs_setSpill hd _ .active).symm
  | reload hop =>
    obtain rfl := Control.next.inj hc
    obtain ⟨hd, hsrc⟩ := insnOk_reload hok hop
    refine .inr ⟨by simp [hop], rfl, _,
      isEdge_of_yields rfl (.reload x.dst x.src (hregs ▸ hd) (hspills ▸ hsrc)) ?_, ?_⟩
    · simp [insnLabel, hop, Model.reloadEdge]
    · rw [Model.reloadEdge, slot_abs]
      exact (h.enter.abs_setReg hd _ .active).symm
  | read hop ht hl =>
    obtain rfl := Control.next.inj hc
    have hd := insnOk_read hok hop
    have hv : (s.abs .active).valid (s.reg x.dst) = true := by simp [h.valid_abs, ht, hl]
    have he : Model.readEdge (s.abs .active) x.dst =
        ⟨.read, [x.dst], .fortyTwo, s.abs .active⟩ := by simp [Model.readEdge, hv]
    refine .inr ⟨by simp [hop], rfl, _, isEdge_of_yields rfl (.read x.dst (hregs ▸ hd)) ?_, ?_⟩
    · simp [insnLabel, hop, he]
    · rw [he]
      rfl
  | release hop ht hl =>
    obtain rfl := Control.next.inj hc
    have hd := insnOk_release hok hop
    have hv : (s.abs .active).valid (s.reg x.dst) = true := by simp [h.valid_abs, ht, hl]
    have he : Model.releaseEdge (s.abs .active) false x.dst = ⟨.release, [x.dst], .consumed,
        (s.abs .active).consume ((s.abs .active).victims false (s.reg x.dst))⟩ := by
      simp [Model.releaseEdge, hv]
    refine .inr ⟨by simp [hop], rfl, _, isEdge_of_yields rfl (.release x.dst (hregs ▸ hd)) ?_, ?_⟩
    · simp [insnLabel, hop, he]
    · rw [he]
      exact (h.enter.abs_release ht hl .active).symm
  | branchTaken hop ht =>
    obtain rfl := Control.next.inj hc
    obtain ⟨_, hlo, hhi⟩ := insnOk_brNull hok hop
    refine .inl ⟨hop, rfl, ?_⟩
    rw [if_pos ht]
    exact (sizeOfInt_of_lt hlo hhi hn).1
  | branchNot hop ht =>
    obtain rfl := Control.next.inj hc
    refine .inl ⟨hop, rfl, ?_⟩
    rw [if_neg ht]
    rfl
  | acquireFull => cases hc
  | null => cases hc
  | stale => cases hc
  | ret => cases hc

/-- The last pass and the cleanup loop are one terminal edge with the reason in the result. -/
theorem finish_abs (h : Inv s) (hok : insnOk n i x = true) (hs : Step s x (.finish t))
    (htrap : s.r.trap = .noTrap) :
    ∃ e, IsEdge (s.abs .active) x e ∧
      e.target = t.cleanup.abs (terminalReason x.op t.cleanup.r) ∧
      terminalReason x.op t.cleanup.r ≠ .active := by
  have hregs : (s.abs .active).registers.length = 4 := by simp [abs, h.regs_length]
  have hlen := h.length_abs .active
  have hinv : Inv t := h.step hs
  have hreason : terminalReason x.op t.cleanup.r = terminalReason x.op t.r := by
    rw [terminalReason, terminalReason, trap_cleanup]
  rw [hreason, hinv.abs_cleanup]
  generalize hc : Control.finish t = c at hs
  cases hs with
  | acquireFull hop hi ha =>
    obtain rfl := Control.finish.inj hc
    obtain ⟨hd, _⟩ := insnOk_acquire hok hop
    have he : Model.acquireEdge (s.abs .active) 2 x.dst =
        ⟨.acquire, [x.dst], .exhaustion, (s.abs .active).terminate .exhaustion⟩ := by
      simp [Model.acquireEdge, hlen, ha]
    refine ⟨_, isEdge_of_yields rfl (.acquire x.dst (hregs ▸ hd)) ?_, ?_, ?_⟩
    · simp [insnLabel, hop, hi, he]
    · rw [he]
      rfl
    · simp [terminalReason, trapAt, record]
  | null hop ht =>
    obtain rfl := Control.finish.inj hc
    rcases hop with hop | hop
    · have he : Model.readEdge (s.abs .active) x.dst =
          ⟨.read, [x.dst], .null, (s.abs .active).terminate .nullRead⟩ := by
        simp [Model.readEdge, ht, Model.invalidReason, Model.readReason]
      refine ⟨_, isEdge_of_yields rfl (.read x.dst (hregs ▸ insnOk_read hok hop)) ?_, ?_, ?_⟩
      · simp [insnLabel, hop, he]
      · rw [he, hop]
        rfl
      · simp [terminalReason, trapAt, record, hop]
    · have he : Model.releaseEdge (s.abs .active) false x.dst =
          ⟨.release, [x.dst], .null, (s.abs .active).terminate .nullRelease⟩ := by
        simp [Model.releaseEdge, ht, Model.invalidReason, Model.releaseReason]
      refine ⟨_, isEdge_of_yields rfl (.release x.dst (hregs ▸ insnOk_release hok hop)) ?_, ?_, ?_⟩
      · simp [insnLabel, hop, he]
      · rw [he, hop]
        rfl
      · simp [terminalReason, trapAt, record, hop]
  | stale hop ht hl =>
    obtain rfl := Control.finish.inj hc
    have hv : (s.abs .active).valid (s.reg x.dst) = false := by simp [h.valid_abs, hl]
    rcases hop with hop | hop
    · have he : Model.readEdge (s.abs .active) x.dst =
          ⟨.read, [x.dst], .stale, (s.abs .active).terminate .staleRead⟩ := by
        simp [Model.readEdge, hv, ht, Model.invalidReason, Model.readReason]
      refine ⟨_, isEdge_of_yields rfl (.read x.dst (hregs ▸ insnOk_read hok hop)) ?_, ?_, ?_⟩
      · simp [insnLabel, hop, he]
      · rw [he, hop]
        rfl
      · simp [terminalReason, trapAt, record, hop]
    · have he : Model.releaseEdge (s.abs .active) false x.dst =
          ⟨.release, [x.dst], .stale, (s.abs .active).terminate .staleRelease⟩ := by
        simp [Model.releaseEdge, hv, ht, Model.invalidReason, Model.releaseReason]
      refine ⟨_, isEdge_of_yields rfl (.release x.dst (hregs ▸ insnOk_release hok hop)) ?_, ?_, ?_⟩
      · simp [insnLabel, hop, he]
      · rw [he, hop]
        rfl
      · simp [terminalReason, trapAt, record, hop]
  | ret hop =>
    obtain rfl := Control.finish.inj hc
    refine ⟨_, isEdge_of_yields rfl .finish ?_, ?_, ?_⟩
    · simp [insnLabel, hop, Model.finishEdge]
    · have hret : terminalReason x.op (s.enter.returnAt .ret x.imm).r = .ret := by
        simp [terminalReason, returnAt, enter, record, htrap]
      rw [hret]
      rfl
    · simp [terminalReason, returnAt, enter, record, htrap]
  | _ => cases hc

variable {p : Nat → Insn}

/-- Every guard test is at a reachable, active model state. -/
theorem visits_reachable (hv : Validated p n) (h : (cbpfRunLoop p n).Visits init s) :
    Model.Reachable 4 2 2 false (s.abs .active) := by
  induction h with
  | start => exact .refl
  | @pass a b hvisit _ hb ih =>
    obtain ⟨hinv, hpc⟩ := visits_inv hv hvisit
    rcases next_abs hinv (hv.ok _ hpc) hv.le (visits_step hv hvisit hb) with
      ⟨_, habs, _⟩ | ⟨_, _, e, he, htarget⟩
    · rw [habs]
      exact ih
    · exact .tail ih ⟨e, he.mem, htarget⟩

end RunState

open RunState in
/-- `cbpf_run` refines the ownership model on every valid program: the run starts in the model's
initial state, its passes are stutters or edges, and its last pass with the cleanup loop is a
terminal edge. A `BR_NULL` on the token of an acquisition falls through, consumed or not. -/
theorem cbpfRun_refines_model (p : InsnPtr) (n : Nat) (hvalid : cbpfValidate p n = .ok ()) :
    RunState.init.abs .active = Model.State.initial cbpfRegs cbpfSpills ∧
    (∀ s t, (cbpfRunLoop p.deref n).Visits .init s → (cbpfRunLoop p.deref n).guard s = true →
      s.exec (p.deref s.pc) = .next t →
      ((p.deref s.pc).op = .brNull → t.abs .active = s.abs .active ∧
        (t.pc : Int) = (if s.reg (p.deref s.pc).dst = 0 then (p.deref s.pc).imm else s.pc + 1) ∧
        ∀ i < s.r.acquired, s.reg (p.deref s.pc).dst = i + 1 → t.pc = s.pc + 1) ∧
      ((p.deref s.pc).op ≠ .brNull → t.pc = s.pc + 1 ∧
        ∃ e, IsEdge (s.abs .active) (p.deref s.pc) e ∧ e.target = t.abs .active)) ∧
    ∃ s t, (cbpfRunLoop p.deref n).Visits .init s ∧ (cbpfRunLoop p.deref n).guard s = true ∧
      s.exec (p.deref s.pc) = .finish t ∧ cbpfRun p n = some t.cleanup.r ∧
      ∃ e, IsEdge (s.abs .active) (p.deref s.pc) e ∧
        e.target = t.cleanup.abs (terminalReason (p.deref s.pc).op t.cleanup.r) ∧
        terminalReason (p.deref s.pc).op t.cleanup.r ≠ .active ∧
        Model.Reachable cbpfRegs cbpfSpills cbpfCells false e.target := by
  have hv := validated_of_cbpfValidate hvalid
  refine ⟨rfl, ?_, ?_⟩
  · intro s t hvisit _ hb
    obtain ⟨hinv, hpc⟩ := visits_inv hv hvisit
    have hs := exec_step (s := s) (hv.ok s.pc hpc)
    rw [hb] at hs
    rcases next_abs hinv (hv.ok s.pc hpc) hv.le hs with ⟨hop, habs, hjump⟩ | ⟨hop, hedge⟩
    · refine ⟨fun _ => ⟨habs, hjump, fun i _ htoken => ?_⟩, fun hne => absurd hop hne⟩
      rw [htoken, if_neg (Nat.succ_ne_zero i)] at hjump
      exact_mod_cast hjump
    · exact ⟨fun heq => absurd heq hop, fun _ => hedge⟩
  · obtain ⟨s, t, hvisit, hexec, hrun⟩ := run_finish hvalid
    obtain ⟨hinv, hpc⟩ := visits_inv hv hvisit
    obtain ⟨e, he, htarget, hne⟩ :=
      finish_abs hinv (hv.ok s.pc hpc) (finish_step hv hvisit hexec) (visits_quiet hv hvisit).trap
    exact ⟨s, t, hvisit, by simpa [cbpfRunLoop] using hpc, hexec, hrun, e, he, htarget, hne,
      .tail (visits_reachable hv hvisit) ⟨e, he.mem, rfl⟩⟩

/-- An alias of a released acquisition is not NULL for `BR_NULL` and stale for `READ`. -/
def staleAlias : List Insn :=
  [⟨.acquire, 0, 0, 1⟩, ⟨.copy, 1, 0, 0⟩, ⟨.spill, 0, 1, 0⟩, ⟨.release, 0, 0, 0⟩,
    ⟨.brNull, 1, 0, 7⟩, ⟨.reload, 2, 0, 0⟩, ⟨.read, 2, 0, 0⟩, ⟨.ret, 0, 0, 7⟩]

theorem cbpfRun_refines_model_staleAlias :
    ∃ s t : RunState, (cbpfRunLoop (InsnPtr.ofList staleAlias).deref 8).Visits .init s ∧
      cbpfRun (InsnPtr.ofList staleAlias) 8 = some t.cleanup.r ∧
      ∃ e, RunState.IsEdge (s.abs .active) ((InsnPtr.ofList staleAlias).deref s.pc) e ∧
        Model.Reachable cbpfRegs cbpfSpills cbpfCells false e.target ∧
        e.target.terminal ≠ .active := by
  obtain ⟨_, _, s, t, hvisit, _, _, hrun, e, he, htarget, hne, hreach⟩ :=
    cbpfRun_refines_model (InsnPtr.ofList staleAlias) 8 (by decide)
  exact ⟨s, t, hvisit, hrun, e, he, hreach, htarget ▸ hne⟩

end Cbpf
