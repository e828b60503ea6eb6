import Cbpf.CheckedRun
import Cbpf.GateRefinement

/-!
# The gate interpreter with its accesses checked

`cbpf_gate_run` (`src/gate.c:27-254`) once more, with every array access and every token that
selects a cell checked, and with `identify` not allowed to answer `GATE_REPRESENTATION`. A pass from
a state that represents a state of the reference interpreter raises no `Fault`.
-/

namespace Cbpf

open BoundedLoop Checked

section Gate

variable {Handle Object : Type} (pl : Platform Handle Object)

/-- The search of `identify` from index `i` with `k` indices left. -/
def checkedSearch (views : List Handle) (view : Handle) : Nat → Nat → Except Fault Nat
  | 0, _ => throw .representation
  | k + 1, i => do
    let i ← element views i
    if pl.sameHandle view (views.getD i pl.null) then return i + 1
    else checkedSearch views view k (i + 1)

/-- `identify` with its accesses checked: the token. -/
def checkedIdentify (views : List Handle) (view : Handle) (acquired : Nat) : Except Fault Nat :=
  if pl.sameHandle view pl.null then return 0 else checkedSearch pl views view acquired 0

namespace GateState

def checkedAcquire (s : GateState Handle Object) (success : Int) (dst : Nat) :
    Except Fault (GateOutcome × Nat × GateState Handle Object) := do
  let s := { s with m := { s.m with acquisitions := s.m.acquisitions + 1 } }
  if success = 0 then return (.ok, 0, { s with regs := s.regs.set dst pl.null })
  else if s.r.acquired = cbpfCells then return (.exhausted, 0, s)
  else
    let cell ← element s.cells s.r.acquired
    match pl.prepareView cell with
    | none => return (.representation, 0, s)
    | some view =>
      let _ ← element s.views s.r.acquired
      return (.ok, s.r.acquired + 1, s.publish pl view dst)

def checkedReadField (s : GateState Handle Object) (view : Handle) :
    Except Fault (GateOutcome × Nat × GateState Handle Object) := do
  let s := { s with m := { s.m with reads := s.m.reads + 1 } }
  let token ← checkedIdentify pl s.views view s.r.acquired
  if token = 0 then return (.null, token, s)
  else
    let cell ← cellOf token s.r.acquired
    let cell ← element s.cells cell
    if !pl.objectIsLive (s.cells.getD cell pl.nullObject) then return (.stale, token, s)
    else
      return (.ok, token, { s with r := { s.r with lastRead := s.value, reads := s.r.reads + 1 } })

/-- `consume` with its accesses checked; `private = &s->cells[i]` is formed by the caller. -/
def checkedConsume (s : GateState Handle Object) (i token : Nat) (cleanup : Bool) :
    Except Fault (Bool × GateState Handle Object) := do
  let i ← element s.cells i
  if !pl.objectIsLive (s.cells.getD i pl.nullObject) then return (false, s)
  else
    let cell ← cellOf token s.r.acquired
    let _ ← element (if cleanup then s.r.cleanupByCell else s.r.explicitByCell) cell
    return s.consume pl i token cleanup

def checkedRelease (s : GateState Handle Object) (view : Handle) :
    Except Fault (GateOutcome × Nat × GateState Handle Object) := do
  let s := { s with m := { s.m with releases := s.m.releases + 1 } }
  let token ← checkedIdentify pl s.views view s.r.acquired
  if token = 0 then return (.null, token, s)
  else
    let cell ← cellOf token s.r.acquired
    let (consumed, s) ← s.checkedConsume pl cell token false
    return (if consumed then .ok else .stale, token, s)

/-- `settle` with the event slot checked. -/
def checkedSettle (s : GateState Handle Object) (op : Opcode) (outcome : GateOutcome)
    (token next : Nat) : Except Fault (Control (GateState Handle Object)) := do
  if outcome = .representation then return s.settle op outcome token next
  else
    let _ ← element s.r.events s.r.eventCount
    return s.settle op outcome token next

/-- `exec` with its accesses checked. -/
def checkedExec (s : GateState Handle Object) (x : Insn) :
    Except Fault (Control (GateState Handle Object)) := do
  let next := s.pc + 1
  let s := s.enter
  match x.op with
  | .acquire =>
    let dst ← element s.regs x.dst
    let (outcome, token, s) ← s.checkedAcquire pl (intOfInt64 x.imm) dst
    s.checkedSettle x.op outcome token next
  | .copy =>
    let src ← element s.regs x.src
    let dst ← element s.regs x.dst
    let view := s.regs.getD src pl.null
    let token ← checkedIdentify pl s.views view s.r.acquired
    { s with regs := s.regs.set dst view }.checkedSettle x.op .ok token next
  | .spill =>
    let src ← element s.regs x.src
    let dst ← element s.spills x.dst
    let view := s.regs.getD src pl.null
    let token ← checkedIdentify pl s.views view s.r.acquired
    { s with spills := s.spills.set dst view }.checkedSettle x.op .ok token next
  | .reload =>
    let src ← element s.spills x.src
    let dst ← element s.regs x.dst
    let view := s.spills.getD src pl.null
    let token ← checkedIdentify pl s.views view s.r.acquired
    { s with regs := s.regs.set dst view }.checkedSettle x.op .ok token next
  | .read =>
    let dst ← element s.regs x.dst
    let (outcome, token, s) ← s.checkedReadField pl (s.regs.getD dst pl.null)
    s.checkedSettle x.op outcome token next
  | .release =>
    let dst ← element s.regs x.dst
    let (outcome, token, s) ← s.checkedRelease pl (s.regs.getD dst pl.null)
    s.checkedSettle x.op outcome token next
  | .brNull =>
    let dst ← element s.regs x.dst
    let token ← checkedIdentify pl s.views (s.regs.getD dst pl.null) s.r.acquired
    s.checkedSettle x.op .ok token (if token = 0 then sizeOfInt x.imm else next)
  | .ret =>
    let _ ← element s.r.events s.r.eventCount
    return .finish (s.returnAt x.op x.imm)
  | .other _ => throw .opcode

def checkedCleanupCell (s : GateState Handle Object) (i : Nat) :
    Except Fault (GateState Handle Object) := do
  let (consumed, s) ← s.checkedConsume pl i (i + 1) true
  if consumed then
    let _ ← element s.r.events s.r.eventCount
    return { s with r := record s.r .cleanup .release s.r.pc (i + 1) }
  else return s

def checkedCleanup (s : GateState Handle Object) : Except Fault (GateState Handle Object) :=
  (List.range s.r.acquired).foldlM (checkedCleanupCell pl) s

end GateState

variable {pl}

/-- The search stops at the first view that is equal. -/
theorem checkedSearch_ok {views : List Handle} {view : Handle} {k i j : Nat} (hij : i ≤ j)
    (hjk : j < i + k) (hlen : i + k ≤ views.length)
    (hsame : pl.sameHandle view (views.getD j pl.null) = true)
    (hfirst : ∀ j' < j, pl.sameHandle view (views.getD j' pl.null) = false) :
    checkedSearch pl views view k i = .ok (j + 1) := by
  induction k generalizing i with
  | zero => omega
  | succ k ih =>
    unfold checkedSearch
    rw [element_ok (by omega), ok_bind]
    rcases Nat.eq_or_lt_of_le hij with rfl | hlt
    · rw [if_pos hsame]
      rfl
    · rw [if_neg (Bool.eq_false_iff.mp (hfirst i hlt))]
      exact ih hlt (by omega) (by omega)

theorem checkedIdentify_ok {views : List Handle} {view : Handle} {acquired t : Nat}
    (hlen : acquired ≤ views.length) (h : identify pl views view acquired = (.ok, t)) :
    checkedIdentify pl views view acquired = .ok t := by
  unfold identify at h
  unfold checkedIdentify
  split at h
  · rename_i hnull
    rw [if_pos hnull, ← (Prod.mk.inj h).2]
    rfl
  · rename_i hnull
    rw [if_neg hnull]
    split at h
    · rename_i i hfind
      obtain ⟨hsame, hmem, hfirst⟩ := List.find?_range_eq_some.mp hfind
      rw [← (Prod.mk.inj h).2]
      refine checkedSearch_ok (Nat.zero_le i) ?_ (by omega) hsame fun j hj => ?_
      · have := List.mem_range.mp hmem
        omega
      · simpa using hfirst j hj
    · cases (Prod.mk.inj h).1

namespace GateState

variable {g : GateState Handle Object}

/-- What an operation before the end of the pass leaves of the log. -/
def SameLog (g g' : GateState Handle Object) : Prop :=
  g'.r.events = g.r.events ∧ g'.r.eventCount = g.r.eventCount

theorem sameLog_consume (pl : Platform Handle Object) (g : GateState Handle Object)
    (i token : Nat) (cleanup : Bool) : SameLog g (g.consume pl i token cleanup).2 := by
  unfold consume
  dsimp only
  split
  · exact ⟨rfl, rfl⟩
  · cases cleanup <;> exact ⟨rfl, rfl⟩

theorem sameLog_acquire (pl : Platform Handle Object) (g : GateState Handle Object)
    (success : Int) (dst : Nat) : SameLog g (g.acquire pl success dst).2.2 := by
  unfold acquire
  dsimp only
  split
  · exact ⟨rfl, rfl⟩
  · split
    · exact ⟨rfl, rfl⟩
    · split <;> exact ⟨rfl, rfl⟩

theorem checkedAcquire_ok (hcells : g.cells.length = 2) (hviews : g.views.length = 2)
    (hacq : g.r.acquired ≤ 2) (success : Int) (dst : Nat) :
    g.checkedAcquire pl success dst = .ok (g.acquire pl success dst) := by
  unfold checkedAcquire acquire
  by_cases hs : success = 0
  · rw [if_pos hs, if_pos hs]
    rfl
  · rw [if_neg hs, if_neg hs]
    by_cases ha : g.r.acquired = cbpfCells
    · rw [if_pos ha, if_pos ha]
      rfl
    · have hlt : g.r.acquired < 2 := Nat.lt_of_le_of_ne hacq ha
      rw [if_neg ha, if_neg ha, element_ok (hcells ▸ hlt), ok_bind]
      cases pl.prepareView g.r.acquired with
      | none => rfl
      | some view =>
        rw [element_ok (hviews ▸ hlt)]
        rfl

theorem checkedReadField_ok (hcells : g.cells.length = 2) (hviews : g.views.length = 2)
    (hacq : g.r.acquired ≤ 2) {view : Handle} {t : Nat} (ht : t ≤ g.r.acquired)
    (hid : identify pl g.views view g.r.acquired = (.ok, t)) :
    g.checkedReadField pl view = .ok (g.readField pl view) := by
  unfold checkedReadField readField
  simp only [checkedIdentify_ok (hviews ▸ hacq) hid, hid, ok_bind]
  by_cases h0 : t = 0
  · rw [if_pos h0, if_pos h0]
    rfl
  · rw [if_neg h0, if_neg h0, cellOf_ok h0 ht, ok_bind, element_ok (by omega), ok_bind]
    cases pl.objectIsLive (g.cells.getD (t - 1) pl.nullObject) <;> rfl

theorem checkedConsume_ok (hcells : g.cells.length = 2) (hexplicit : g.r.explicitByCell.length = 2)
    (hcleanup : g.r.cleanupByCell.length = 2) (hacq : g.r.acquired ≤ 2) {t : Nat} (h0 : t ≠ 0)
    (ht : t ≤ g.r.acquired) (cleanup : Bool) :
    g.checkedConsume pl (t - 1) t cleanup = .ok (g.consume pl (t - 1) t cleanup) := by
  unfold checkedConsume
  rw [element_ok (by omega), ok_bind]
  cases hl : pl.objectIsLive (g.cells.getD (t - 1) pl.nullObject) with
  | false =>
    simp only [consume, hl, Bool.not_false, if_true]
    rfl
  | true =>
    simp only [Bool.not_true, Bool.false_eq_true, if_false]
    rw [cellOf_ok h0 ht, ok_bind]
    cases cleanup with
    | false =>
      simp only [Bool.false_eq_true, if_false]
      rw [element_ok (by omega)]
      rfl
    | true =>
      simp only [if_true]
      rw [element_ok (by omega)]
      rfl

theorem checkedRelease_ok (hcells : g.cells.length = 2) (hviews : g.views.length = 2)
    (hexplicit : g.r.explicitByCell.length = 2) (hcleanup : g.r.cleanupByCell.length = 2)
    (hacq : g.r.acquired ≤ 2) {view : Handle} {t : Nat} (ht : t ≤ g.r.acquired)
    (hid : identify pl g.views view g.r.acquired = (.ok, t)) :
    g.checkedRelease pl view = .ok (g.release pl view) := by
  unfold checkedRelease release
  simp only [checkedIdentify_ok (hviews ▸ hacq) hid, hid, ok_bind]
  by_cases h0 : t = 0
  · rw [if_pos h0, if_pos h0]
    rfl
  · rw [if_neg h0, if_neg h0, cellOf_ok h0 ht, ok_bind]
    rw [checkedConsume_ok (g := { g with m := { g.m with releases := g.m.releases + 1 } }) hcells
      hexplicit hcleanup hacq h0 ht, ok_bind]
    rcases consume pl { g with m := { g.m with releases := g.m.releases + 1 } } (t - 1) t false with
      ⟨consumed, g'⟩
    cases consumed <;> rfl

theorem sameLog_readField (pl : Platform Handle Object) (g : GateState Handle Object)
    (view : Handle) : SameLog g (g.readField pl view).2.2 := by
  unfold readField
  dsimp only
  split
  · split
    · exact ⟨rfl, rfl⟩
    · split <;> exact ⟨rfl, rfl⟩
  · exact ⟨rfl, rfl⟩

theorem sameLog_release (pl : Platform Handle Object) (g : GateState Handle Object)
    (view : Handle) : SameLog g (g.release pl view).2.2 := by
  unfold release
  dsimp only
  split
  · split
    · exact ⟨rfl, rfl⟩
    · rename_i token _ _
      have hconsume := sameLog_consume pl
        { g with m := { g.m with releases := g.m.releases + 1 } } (token - 1) token false
      split <;> rename_i heq <;> rw [heq] at hconsume <;> exact hconsume
  · exact ⟨rfl, rfl⟩

theorem checkedSettle_ok (h : g.r.eventCount < g.r.events.length) (op : Opcode)
    (outcome : GateOutcome) (token next : Nat) :
    g.checkedSettle op outcome token next = .ok (g.settle op outcome token next) := by
  unfold checkedSettle
  split
  · rfl
  · rw [element_ok h]
    rfl

end GateState

namespace Sim

variable {s : RunState} {g : GateState Handle Object}

/-- A pass of the gate on a validated instruction raises no fault, whether or not a view can be
prepared. -/
theorem checkedExec_ok (hpl : pl.Lawful) (h : Sim pl s g) (hinv : s.Inv)
    (hroom : s.r.eventCount < s.r.events.length) {x : Insn} {n i : Nat}
    (hok : insnOk n i x = true) : g.checkedExec pl x = .ok (g.exec pl x) := by
  have he := h.enter
  have hregs : g.enter.regs.length = 4 := by
    rw [he.regs, List.length_map]
    exact hinv.regs_length
  have hspills : g.enter.spills.length = 2 := by
    rw [he.spills, List.length_map]
    exact hinv.spills_length
  have hacq : g.enter.r.acquired ≤ 2 := by
    rw [he.r]
    exact hinv.acquired_le
  have hviews := he.views_length
  have hcells := he.cells_length
  have hroom' : g.enter.r.eventCount < g.enter.r.events.length := by
    rw [he.r]
    exact hroom
  have htoken : ∀ {t}, t ≤ s.r.acquired →
      Cbpf.identify pl g.enter.views (pl.handleOf t) g.enter.r.acquired = (.ok, t) :=
    fun ht => he.identify hpl hinv.acquired_le ht
  have hchecked : ∀ {t}, t ≤ s.r.acquired →
      checkedIdentify pl g.enter.views (pl.handleOf t) g.enter.r.acquired = .ok t :=
    fun ht => checkedIdentify_ok (hviews ▸ hacq) (htoken ht)
  cases hop : x.op with
  | acquire =>
    obtain ⟨hd, _⟩ := insnOk_acquire hok hop
    have hlog := GateState.sameLog_acquire pl g.enter (intOfInt64 x.imm) x.dst
    simp only [GateState.checkedExec, GateState.exec, hop]
    rw [element_ok (hregs ▸ hd), ok_bind, GateState.checkedAcquire_ok hcells hviews hacq, ok_bind]
    apply GateState.checkedSettle_ok
    rw [hlog.1, hlog.2]
    exact hroom'
  | copy =>
    obtain ⟨hd, hs⟩ := insnOk_copy hok hop
    simp only [GateState.checkedExec, GateState.exec, hop]
    rw [element_ok (hregs ▸ hs), ok_bind, element_ok (hregs ▸ hd), ok_bind]
    simp only [he.getD_regs, hchecked (hinv.reg_le x.src), htoken (hinv.reg_le x.src), ok_bind,
      RunState.reg_enter]
    apply GateState.checkedSettle_ok
    exact hroom'
  | spill =>
    obtain ⟨hd, hs⟩ := insnOk_spill hok hop
    simp only [GateState.checkedExec, GateState.exec, hop]
    rw [element_ok (hregs ▸ hs), ok_bind, element_ok (hspills ▸ hd), ok_bind]
    simp only [he.getD_regs, hchecked (hinv.reg_le x.src), htoken (hinv.reg_le x.src), ok_bind,
      RunState.reg_enter]
    apply GateState.checkedSettle_ok
    exact hroom'
  | reload =>
    obtain ⟨hd, hs⟩ := insnOk_reload hok hop
    simp only [GateState.checkedExec, GateState.exec, hop]
    rw [element_ok (hspills ▸ hs), ok_bind, element_ok (hregs ▸ hd), ok_bind]
    simp only [he.getD_spills, hchecked (hinv.slot_le x.src), htoken (hinv.slot_le x.src), ok_bind,
      RunState.slot_enter]
    apply GateState.checkedSettle_ok
    exact hroom'
  | read =>
    have hd := insnOk_read hok hop
    have ht : s.reg x.dst ≤ g.enter.r.acquired := by
      rw [he.r]
      exact hinv.reg_le x.dst
    have hlog := GateState.sameLog_readField pl g.enter (pl.handleOf (s.reg x.dst))
    simp only [GateState.checkedExec, GateState.exec, hop]
    rw [element_ok (hregs ▸ hd), ok_bind]
    simp only [he.getD_regs, RunState.reg_enter]
    rw [GateState.checkedReadField_ok hcells hviews hacq ht (htoken (hinv.reg_le x.dst)), ok_bind]
    apply GateState.checkedSettle_ok
    rw [hlog.1, hlog.2]
    exact hroom'
  | release =>
    have hd := insnOk_release hok hop
    have ht : s.reg x.dst ≤ g.enter.r.acquired := by
      rw [he.r]
      exact hinv.reg_le x.dst
    have hexplicit : g.enter.r.explicitByCell.length = 2 := by
      rw [he.r]
      exact hinv.explicit_length
    have hcleanup : g.enter.r.cleanupByCell.length = 2 := by
      rw [he.r]
      exact hinv.cleanup_length
    have hlog := GateState.sameLog_release pl g.enter (pl.handleOf (s.reg x.dst))
    simp only [GateState.checkedExec, GateState.exec, hop]
    rw [element_ok (hregs ▸ hd), ok_bind]
    simp only [he.getD_regs, RunState.reg_enter]
    rw [GateState.checkedRelease_ok hcells hviews hexplicit hcleanup hacq ht
      (htoken (hinv.reg_le x.dst)), ok_bind]
    apply GateState.checkedSettle_ok
    rw [hlog.1, hlog.2]
    exact hroom'
  | brNull =>
    have hd := insnOk_brNull hok hop
    simp only [GateState.checkedExec, GateState.exec, hop]
    rw [element_ok (hregs ▸ hd.1), ok_bind]
    simp only [he.getD_regs, hchecked (hinv.reg_le x.dst), htoken (hinv.reg_le x.dst), ok_bind,
      RunState.reg_enter, true_and]
    apply GateState.checkedSettle_ok
    exact hroom'
  | ret =>
    simp only [GateState.checkedExec, GateState.exec, hop]
    rw [element_ok hroom']
    rfl
  | other k => exact absurd hop (insnOk_other hok k)

theorem checkedCleanupCell_ok (h : Sim pl s g) (hinv : s.Inv) {i : Nat} (hi : i < s.r.acquired)
    (hroom : s.r.eventCount < s.r.events.length) :
    g.checkedCleanupCell pl i = .ok (g.cleanupCell pl i) := by
  have hacq : g.r.acquired ≤ 2 := h.r ▸ hinv.acquired_le
  have hconsume : g.checkedConsume pl i (i + 1) true = .ok (g.consume pl i (i + 1) true) :=
    GateState.checkedConsume_ok h.cells_length (h.r ▸ hinv.explicit_length)
      (h.r ▸ hinv.cleanup_length) hacq (Nat.succ_ne_zero i) (h.r ▸ hi) true
  have hlog := GateState.sameLog_consume pl g i (i + 1) true
  unfold GateState.checkedCleanupCell GateState.cleanupCell
  rw [hconsume, ok_bind]
  rcases hc : g.consume pl i (i + 1) true with ⟨consumed, g'⟩
  rw [hc] at hlog
  cases consumed with
  | false => rfl
  | true =>
    simp only [if_true]
    rw [element_ok (by rw [hlog.1, hlog.2, h.r]; exact hroom)]
    rfl

theorem checkedCleanup_ok (hpl : pl.Lawful) (h : Sim pl s g) (hinv : s.Inv)
    (hroom : s.r.eventCount + s.r.acquired ≤ s.r.events.length) :
    g.checkedCleanup pl = .ok (g.cleanup pl) := by
  refine foldlM_eq_foldl (fun g' l => ∃ t, Sim pl t g' ∧ RunState.Inv t ∧
    (∀ i ∈ l, i < t.r.acquired) ∧ t.r.eventCount + l.length ≤ t.r.events.length) ?_
    ⟨s, h, hinv, ?_, ?_⟩
  · rintro g' i l ⟨t, hsim, ht, hl, hfit⟩
    rw [List.length_cons] at hfit
    obtain ⟨hcount, hlength⟩ := RunState.eventCount_cleanupCell t i
    refine ⟨hsim.checkedCleanupCell_ok ht (hl i List.mem_cons_self) (by omega), _,
      hsim.cleanupCell hpl i, ht.cleanupCell i, ?_, by omega⟩
    intro j hj
    rw [RunState.acquired_cleanupCell]
    exact hl j (List.mem_cons_of_mem i hj)
  · intro i hi
    rw [← h.r]
    exact List.mem_range.mp hi
  · rw [List.length_range, h.r]
    exact hroom

end Sim

end Gate

end Cbpf
