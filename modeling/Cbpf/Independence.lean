import Cbpf.Containment
import Cbpf.Replace

/-!
# A release affects its own acquisition only

Beside a run that releases token `t` stands the run that keeps it: `RunState.kept` is what the
second has where the first has `s`. Every pass that does not use `t` commutes with `kept`, and the
cleanup loop turns the missing explicit effect into a cleanup effect.
-/

namespace Cbpf

open BoundedLoop

/-- Event number `i` of the run that keeps an acquisition released as event number `m`. -/
def keptEvent (m i : Nat) (e : Event) : Event :=
  if i < m then e
  else { e with op := if i = m then .copy else e.op, objectRefs := e.objectRefs + 1 }

/-- The result of the run that keeps `token`. -/
def Result.kept (r : Result) (m token : Nat) : Result :=
  { r with
    objectRefs := r.objectRefs + 1
    explicitReleases := r.explicitReleases - 1
    explicitByCell := r.explicitByCell.set (token - 1) 0
    events := r.events.mapIdx fun i e => if i < r.eventCount then keptEvent m i e else e }

/-- The state of the run that keeps `token`. -/
def RunState.kept (s : RunState) (m token : Nat) : RunState :=
  { s with live := s.live.set (token - 1) true, r := s.r.kept m token }

/-! ### The events -/

theorem trace_kept (r : Result) (m token : Nat) :
    (r.kept m token).trace = r.trace.mapIdx (keptEvent m) := by
  apply List.ext_getElem
  · simp [Result.trace, Result.kept]
  · intro i hi _
    have hcount : i < r.eventCount := by
      rw [Result.trace, List.length_take] at hi
      exact Nat.lt_of_lt_of_le hi (Nat.min_le_left _ _)
    simp [Result.trace, Result.kept, hcount]

theorem record_kept {r : Result} {m : Nat} (hm : m < r.eventCount) (token : Nat) (kind : EventKind)
    (op : Opcode) (pc used : Nat) :
    record (r.kept m token) kind op pc used = (record r kind op pc used).kept m token := by
  have hlast : keptEvent m r.eventCount ⟨kind, op, pc, used, r.objectRefs⟩ =
      ⟨kind, op, pc, used, r.objectRefs + 1⟩ := by
    simp only [keptEvent]
    rw [if_neg (by omega), if_neg (by omega)]
  have hevents : (r.kept m token).events.set r.eventCount ⟨kind, op, pc, used, r.objectRefs + 1⟩ =
      ((record r kind op pc used).kept m token).events := by
    apply List.ext_getElem
    · simp [Result.kept, record]
    · intro i _ _
      simp only [Result.kept, record, List.getElem_set, List.getElem_mapIdx]
      by_cases hi : r.eventCount = i
      · subst hi
        simp [hlast]
      · have hiff : i < r.eventCount + 1 ↔ i < r.eventCount := by omega
        simp [hi, hiff]
  exact congrArg (fun events => { record (r.kept m token) kind op pc used with events }) hevents

/-- The kept event of a list that is split at the release. -/
theorem mapIdx_keptEvent {pre post : List Event} {e : Event} :
    (pre ++ e :: post).mapIdx (keptEvent pre.length) =
      pre ++ { e with op := .copy, objectRefs := e.objectRefs + 1 } ::
        post.map fun e => { e with objectRefs := e.objectRefs + 1 } := by
  apply List.ext_getElem
  · simp
  · intro i hi _
    rw [List.getElem_mapIdx]
    rcases Nat.lt_trichotomy i pre.length with hlt | heq | hgt
    · rw [List.getElem_append_left hlt, List.getElem_append_left hlt, keptEvent, if_pos hlt]
    · subst heq
      simp [keptEvent]
    · obtain ⟨j, rfl⟩ := Nat.exists_eq_add_of_lt hgt
      have hsub : pre.length + j + 1 - pre.length = j + 1 := by omega
      rw [List.getElem_append_right (by omega), List.getElem_append_right (by omega)]
      simp only [hsub, List.getElem_cons_succ, List.getElem_map]
      rw [keptEvent, if_neg (by omega), if_neg (by omega)]

namespace RunState

/-! ### The passes -/

section Pass

variable {s : RunState} {m token : Nat}

theorem isLive_kept {i : Nat} (hi : i ≠ token - 1) :
    (s.kept m token).isLive i = s.isLive i := by
  rw [isLive, kept, List.getD_eq_getElem?_getD, List.getElem?_set_ne (Ne.symm hi),
    ← List.getD_eq_getElem?_getD]
  rfl

theorem stepTo_kept (hm : m < s.r.eventCount) (op : Opcode) (used next : Nat) :
    (s.kept m token).stepTo op used next = (s.stepTo op used next).kept m token := by
  have hrecord := record_kept hm token .step op s.pc used
  exact congrArg (fun r => { (s.kept m token).stepTo op used next with r }) hrecord

theorem trapAt_kept (hm : m < s.r.eventCount) (op : Opcode) (used : Nat) (trap : Trap) :
    (s.kept m token).trapAt op used trap = (s.trapAt op used trap).kept m token := by
  have hrecord := record_kept (r := { s.r with trap := trap, status := .trapped }) hm token
    .trapEvent op s.pc used
  exact congrArg (fun r => { (s.kept m token).trapAt op used trap with r }) hrecord

theorem returnAt_kept (hm : m < s.r.eventCount) (op : Opcode) (imm : Int) :
    (s.kept m token).returnAt op imm = (s.returnAt op imm).kept m token := by
  have hrecord := record_kept (r := { s.r with returned := imm, status := .returned }) hm token
    .step op s.pc 0
  exact congrArg (fun r => { (s.kept m token).returnAt op imm with r }) hrecord

/-- A new acquisition has another cell. -/
theorem acquire_kept (hpos : 0 < token) (hacq : token ≤ s.r.acquired) (dst : Nat) :
    (s.kept m token).acquire dst = (s.acquire dst).kept m token := by
  have hlive : (s.live.set (token - 1) true).set s.r.acquired true =
      (s.live.set s.r.acquired true).set (token - 1) true := List.set_comm _ _ (by omega)
  have hrefs : s.r.objectRefs + 1 + 1 = (s.acquire dst).r.objectRefs + 1 := rfl
  exact congrArg (fun live => { (s.acquire dst).kept m token with live }) hlive

/-- So has a release of another token. -/
theorem release_kept (hpos : 0 < token) (hexplicit : 0 < s.r.explicitReleases) {used : Nat}
    (hused : used ≠ 0) (hne : used ≠ token) :
    (s.kept m token).release used = (s.release used).kept m token := by
  have hcell : used - 1 ≠ token - 1 := by omega
  have hlive : (s.live.set (token - 1) true).set (used - 1) false =
      (s.live.set (used - 1) false).set (token - 1) true := List.set_comm _ _ (Ne.symm hcell)
  have hbump : bump (s.r.explicitByCell.set (token - 1) 0) (used - 1) =
      (bump s.r.explicitByCell (used - 1)).set (token - 1) 0 := by
    rw [bump, bump, List.getD_eq_getElem?_getD, List.getElem?_set_ne (Ne.symm hcell),
      ← List.getD_eq_getElem?_getD, List.set_comm _ _ (Ne.symm hcell)]
  have hcount : s.r.explicitReleases - 1 + 1 = s.r.explicitReleases + 1 - 1 := by omega
  have hrefs : s.r.objectRefs + 1 - 1 = s.r.objectRefs - 1 + 1 := by omega
  simp only [release, kept, Result.kept, hlive, hbump, hcount, hrefs]
  rfl

/-- A use of another token finds its cell as before. -/
theorem exec_use_kept (hm : m < s.r.eventCount) (hpos : 0 < token)
    (hexplicit : 0 < s.r.explicitReleases) {x : Insn} (hop : x.op = .read ∨ x.op = .release)
    (hne : s.reg x.dst ≠ token) :
    Control.Rel (fun a b => b = a.kept m token) (s.exec x) ((s.kept m token).exec x) := by
  have henter : (s.kept m token).enter = s.enter.kept m token := rfl
  have hreg : (s.kept m token).enter.reg x.dst = s.reg x.dst := rfl
  by_cases ht : s.reg x.dst = 0
  · rcases hop with hop | hop <;>
    · simp only [exec, hop]
      rw [if_pos (by exact ht), if_pos (by exact ht)]
      exact .finish (trapAt_kept (s := s.enter) hm _ _ _)
  · have hlive : (s.kept m token).enter.isLive (s.reg x.dst - 1) = s.isLive (s.reg x.dst - 1) :=
      isLive_kept (m := m) (by omega)
    cases hl : s.isLive (s.reg x.dst - 1) with
    | false =>
      rw [hl] at hlive
      rcases hop with hop | hop <;>
      · simp only [exec, hop, hreg, reg_enter, isLive_enter, hl, hlive, Bool.not_false, if_true]
        rw [if_neg (by exact ht), if_neg (by exact ht)]
        exact .finish (trapAt_kept (s := s.enter) hm _ _ _)
    | true =>
      rw [hl] at hlive
      rcases hop with hop | hop
      · simp only [exec, hop, hreg, reg_enter, isLive_enter, hl, hlive, Bool.not_true,
          Bool.false_eq_true, if_false, if_true]
        rw [if_neg (by exact ht), if_neg (by exact ht)]
        exact .next (stepTo_kept (s := s.enter.readField) hm _ _ _)
      · simp only [exec, hop, hreg, reg_enter, isLive_enter, hl, hlive, Bool.not_true,
          Bool.false_eq_true, if_false, reduceCtorEq]
        rw [if_neg (by exact ht), if_neg (by exact ht), henter,
          release_kept (s := s.enter) hpos hexplicit ht hne]
        exact .next (stepTo_kept (s := s.enter.release (s.reg x.dst)) hm _ _ _)

/-- A pass that does not use the released token commutes with keeping it. -/
theorem exec_kept (hm : m < s.r.eventCount) (hpos : 0 < token) (hacq : token ≤ s.r.acquired)
    (hexplicit : 0 < s.r.explicitReleases) {x : Insn}
    (hused : x.op = .read ∨ x.op = .release → s.reg x.dst ≠ token) :
    Control.Rel (fun a b => b = a.kept m token) (s.exec x) ((s.kept m token).exec x) := by
  have henter : (s.kept m token).enter = s.enter.kept m token := rfl
  cases hop : x.op with
  | acquire =>
    simp only [exec, hop]
    by_cases hi : x.imm = 0
    · rw [if_pos hi, if_pos hi]
      exact .next (stepTo_kept (s := s.enter.setReg x.dst 0) hm _ _ _)
    · rw [if_neg hi, if_neg hi]
      by_cases ha : s.r.acquired = 2
      · rw [if_pos (by exact ha), if_pos (by exact ha)]
        exact .finish (trapAt_kept (s := s.enter) hm _ _ _)
      · rw [if_neg (by exact ha), if_neg (by exact ha), henter,
          acquire_kept (s := s.enter) hpos hacq]
        exact .next (stepTo_kept (s := s.enter.acquire x.dst) hm _ _ _)
  | copy =>
    simp only [exec, hop]
    exact .next (stepTo_kept (s := s.enter.setReg x.dst (s.reg x.src)) hm _ _ _)
  | spill =>
    simp only [exec, hop]
    exact .next (stepTo_kept (s := s.enter.setSpill x.dst (s.reg x.src)) hm _ _ _)
  | reload =>
    simp only [exec, hop]
    exact .next (stepTo_kept (s := s.enter.setReg x.dst (s.slot x.src)) hm _ _ _)
  | read => exact exec_use_kept hm hpos hexplicit (.inl hop) (hused (.inl hop))
  | release => exact exec_use_kept hm hpos hexplicit (.inr hop) (hused (.inr hop))
  | brNull =>
    simp only [exec, hop]
    exact .next (stepTo_kept (s := s.enter) hm _ _ _)
  | ret =>
    simp only [exec, hop]
    exact .finish (returnAt_kept (s := s.enter) hm _ _)
  | other k =>
    simp only [exec, hop]
    exact .finish rfl

end Pass

/-! ### The release itself -/

theorem setReg_self (s : RunState) (r : Nat) : s.setReg r (s.reg r) = s := by
  have hregs : s.regs.set r (s.regs.getD r 0) = s.regs := by
    by_cases hr : r < s.regs.length
    · rw [List.getD_eq_getElem _ _ hr, List.set_getElem_self]
    · exact List.set_eq_of_length_le (Nat.le_of_not_lt hr)
  exact congrArg (fun regs => { s with regs }) hregs

theorem set_getD {α : Type} {l : List α} {i : Nat} {d x : α} (h : l.getD i d = x) (v : α) :
    (l.set i v).set i x = l := by
  subst h
  rw [List.set_set]
  by_cases hi : i < l.length
  · rw [List.getD_eq_getElem _ _ hi, List.set_getElem_self]
  · exact List.set_eq_of_length_le (Nat.le_of_not_lt hi)

/-- Keeping the released token of a pass is copying its register onto itself. -/
theorem copy_kept {s : RunState} (hinv : Inv s) (r : Nat) {token next : Nat}
    (hlive : s.isLive (token - 1) = true) :
    ((s.enter.release token).stepTo .release token next).kept s.r.eventCount token =
      (s.enter.setReg r (s.reg r)).stepTo .copy token next := by
  have hcell := hinv.cells (token - 1) (hinv.lt_acquired hlive)
  rw [hlive, if_pos rfl] at hcell
  have hexplicit : (bump s.r.explicitByCell (token - 1)).set (token - 1) 0 = s.r.explicitByCell :=
    set_getD (d := 0) (by change s.r.explicitAt _ = 0; omega) _
  have hlives : (s.live.set (token - 1) false).set (token - 1) true = s.live := set_getD hlive _
  have hrefs : s.r.objectRefs - 1 + 1 = s.r.objectRefs := by omega
  have hevents : (s.r.events.set s.r.eventCount
      ⟨.step, .release, s.pc, token, s.r.objectRefs - 1⟩).mapIdx (fun i e =>
        if i < s.r.eventCount + 1 then keptEvent s.r.eventCount i e else e) =
      s.r.events.set s.r.eventCount ⟨.step, .copy, s.pc, token, s.r.objectRefs⟩ := by
    apply List.ext_getElem
    · simp
    · intro i _ _
      simp only [List.getElem_set, List.getElem_mapIdx]
      by_cases hi : s.r.eventCount = i
      · subst hi
        simp [keptEvent]
      · by_cases hlt : i < s.r.eventCount
        · simp [hi, hlt, keptEvent]
        · simp [hi, show ¬ i < s.r.eventCount + 1 by omega]
  have hself : s.enter.setReg r (s.reg r) = s.enter := setReg_self s.enter r
  rw [hself]
  simp only [kept, Result.kept, stepTo, record, release, enter, hexplicit, hlives, hrefs,
    Nat.add_sub_cancel]
  rw [← hevents]
  rfl

/-! ### The rest of the run -/

/-- The run is past a release of `token` by instruction `k`, event number `m`. -/
structure Past (k m token : Nat) (s : RunState) : Prop where
  pc : k < s.pc
  event : m < s.r.eventCount
  acquired : token ≤ s.r.acquired
  explicit : 0 < s.r.explicitReleases

theorem Step.release_next {s t : RunState} {x : Insn} (hs : Step s x (.next t))
    (hop : x.op = .release) : s.reg x.dst ≠ 0 ∧ s.isLive (s.reg x.dst - 1) = true ∧
      t = (s.enter.release (s.reg x.dst)).stepTo .release (s.reg x.dst) (s.pc + 1) := by
  generalize hc : Control.next t = c at hs
  cases hs with
  | release _ ht hl =>
    obtain rfl := Control.next.inj hc
    exact ⟨ht, hl, rfl⟩
  | acquireNull h | acquireFull h | acquire h | copy h | spill h | reload h | read h
  | branchTaken h | branchNot h | ret h =>
    rw [h] at hop
    cases hop
  | null | stale => cases hc

/-- What a pass that goes on never lowers. -/
theorem Step.grows {s t : RunState} {x : Insn} (hs : Step s x (.next t)) :
    t.r.eventCount = s.r.eventCount + 1 ∧ s.r.acquired ≤ t.r.acquired ∧
      s.r.explicitReleases ≤ t.r.explicitReleases := by
  generalize hc : Control.next t = c at hs
  cases hs with
  | acquire =>
    obtain rfl := Control.next.inj hc
    exact ⟨rfl, Nat.le_succ _, Nat.le_refl _⟩
  | release =>
    obtain rfl := Control.next.inj hc
    exact ⟨rfl, Nat.le_refl _, Nat.le_succ _⟩
  | acquireFull | null | stale | ret => cases hc
  | _ =>
    obtain rfl := Control.next.inj hc
    exact ⟨rfl, Nat.le_refl _, Nat.le_refl _⟩

/-- After event number `m` no step or trap uses `token`. -/
def Unused (m token : Nat) (log : List Event) : Prop :=
  ∀ e ∈ log.drop (m + 1), e.op = .read ∨ e.op = .release → e.token ≠ token

theorem Unused.of_append {m token : Nat} {log more : List Event} (h : Unused m token (log ++ more)) :
    Unused m token log := by
  intro e he
  apply h e
  rw [List.drop_append]
  exact List.mem_append_left _ he

section Run

variable {p : Nat → Insn} {n k m token : Nat}

/-- The event of a pass tells which token the pass used. -/
theorem reg_ne_of_unused {s : RunState} {x : Insn} {c : Control RunState} (hs : Step s x c)
    (hroom : s.r.eventCount < s.r.events.length) (hm : m < s.r.eventCount)
    (hunused : Unused m token c.state.r.trace) (hop : x.op = .read ∨ x.op = .release) :
    s.reg x.dst ≠ token := by
  have hlen : s.r.trace.length = s.r.eventCount := by
    rw [Result.trace, List.length_take]
    omega
  have hevent : s.eventToken x = s.reg x.dst := by
    rcases hop with hop | hop <;> simp [eventToken, hop]
  rw [hs.trace hroom] at hunused
  rw [← hevent]
  apply hunused ⟨eventKind c, x.op, s.pc, s.eventToken x, c.state.r.objectRefs⟩ _ hop
  rw [List.drop_append_of_le_length (by omega)]
  exact List.mem_append_right _ (List.mem_singleton_self _)

/-- From the release on, the run that keeps the token visits the kept states. -/
theorem visits_kept (hv : Validated p n) {x : Insn} (hpos : 0 < token) {a u : RunState}
    (ha : Past k m token a) (hvisit : (cbpfRunLoop p n).Visits init a)
    (hkept : (cbpfRunLoop (Function.update p k x) n).Visits init (a.kept m token))
    (hu : (cbpfRunLoop p n).Visits a u) (hunused : Unused m token u.r.trace) :
    Past k m token u ∧
      (cbpfRunLoop (Function.update p k x) n).Visits init (u.kept m token) := by
  induction hu with
  | start => exact ⟨ha, hkept⟩
  | @pass b c hb hg hbody ih =>
    have hvisitb := hvisit.trans hb
    have hstep := visits_step hv hvisitb hbody
    have hroom := (visits_room hv hvisitb).2.2
    have hunusedb : Unused m token b.r.trace := by
      have htrace := hstep.trace hroom
      rw [show (Control.next c).state = c from rfl] at htrace
      exact (htrace ▸ hunused).of_append
    obtain ⟨hpast, hvisitk⟩ := ih hunusedb
    obtain ⟨hcount, hacq, hexplicit⟩ := hstep.grows
    refine ⟨{
      pc := Nat.lt_trans hpast.pc (hstep.pc_next hv (visits_inv hv hvisitb).2).1
      event := by have := hpast.event; omega
      acquired := Nat.le_trans hpast.acquired hacq
      explicit := Nat.lt_of_lt_of_le hpast.explicit hexplicit }, ?_⟩
    have hrel := exec_kept hpast.event hpos hpast.acquired hpast.explicit (x := p b.pc)
      (reg_ne_of_unused hstep hroom hpast.event hunused)
    have hexec : b.exec (p b.pc) = .next c := hbody
    apply hvisitk.pass hg
    rw [body_replace (by exact Nat.ne_of_gt hpast.pc)]
    change (b.kept m token).exec (p b.pc) = .next (c.kept m token)
    exact (hexec ▸ hrel).eq_next

/-- The visited state whose pass wrote an event of the trace. -/
theorem visits_event (hv : Validated p n) {u : RunState} (hu : (cbpfRunLoop p n).Visits init u)
    {pre post : List Event} {e : Event} (htrace : u.r.trace = pre ++ e :: post) :
    ∃ a b, (cbpfRunLoop p n).Visits init a ∧ Step a (p a.pc) (.next b) ∧
      (cbpfRunLoop p n).guard a = true ∧ (cbpfRunLoop p n).body a = .next b ∧
      (cbpfRunLoop p n).Visits b u ∧ a.r.trace = pre ∧
      e = ⟨.step, (p a.pc).op, a.pc, a.eventToken (p a.pc), b.r.objectRefs⟩ := by
  induction hu generalizing post with
  | start => exact absurd (List.append_eq_nil_iff.mp htrace.symm).2 (by simp)
  | @pass a b hvisit hg hbody ih =>
    have hstep := visits_step hv hvisit hbody
    have hsnoc := hstep.trace (visits_room hv hvisit).2.2
    have hsplit : a.r.trace ++
        [⟨.step, (p a.pc).op, a.pc, a.eventToken (p a.pc), b.r.objectRefs⟩] =
          pre ++ e :: post := hsnoc.symm.trans htrace
    rcases List.eq_nil_or_concat post with rfl | ⟨post, last, rfl⟩
    · obtain ⟨hpre, he⟩ := List.append_inj' hsplit rfl
      exact ⟨a, b, hvisit, hstep, hg, hbody, .start, hpre, (List.singleton_inj.mp he).symm⟩
    · rw [List.concat_eq_append, ← List.cons_append, ← List.append_assoc] at hsplit
      obtain ⟨hpre, _⟩ := List.append_inj' hsplit rfl
      obtain ⟨a', b', ha', hs', hg', hb', hu', hrest⟩ := ih hpre
      exact ⟨a', b', ha', hs', hg', hb', hu'.pass hg hbody, hrest⟩

/-- A release that the trace shows, and the two runs right after it. -/
theorem visits_release (hv : Validated p n) {u : RunState} (hu : (cbpfRunLoop p n).Visits init u)
    {pre post : List Event} {refs : Int}
    (htrace : u.r.trace = pre ++ ⟨.step, .release, k, token, refs⟩ :: post) :
    (p k).op = .release ∧ k < n ∧ 0 < token ∧
      ∃ b, (cbpfRunLoop p n).Visits init b ∧ (cbpfRunLoop p n).Visits b u ∧
        Past k pre.length token b ∧
        (cbpfRunLoop (Function.update p k ⟨.copy, (p k).dst, (p k).dst, 0⟩) n).Visits init
          (b.kept pre.length token) := by
  obtain ⟨a, b, ha, hstep, hg, hbody, hbu, hpre, he⟩ := visits_event hv hu htrace
  obtain ⟨hinv, hlt⟩ := visits_inv hv ha
  simp only [Event.mk.injEq] at he
  obtain ⟨_, hop, rfl, htoken, _⟩ := he
  have hevent : a.eventToken (p a.pc) = a.reg (p a.pc).dst := by simp [eventToken, ← hop]
  obtain ⟨hpos, hlive, hb⟩ := hstep.release_next hop.symm
  rw [← hevent, ← htoken] at hpos hlive hb
  have hcount : pre.length = a.r.eventCount := by
    rw [← hpre, Result.trace, List.length_take]
    have := (visits_room hv ha).2.2
    omega
  refine ⟨hop.symm, hlt, Nat.pos_of_ne_zero hpos, b, ha.pass hg hbody, hbu, ?_, ?_⟩
  · rw [hb, hcount]
    exact {
      pc := Nat.lt_succ_self _
      event := Nat.lt_succ_self _
      acquired := by rw [htoken, hevent]; exact hinv.reg_le _
      explicit := Nat.succ_pos _ }
  · apply (visits_replace hv ha (Nat.le_refl _)).pass hg
    change a.exec (Function.update p a.pc _ a.pc) = _
    rw [Function.update_self, hcount, hb, copy_kept hinv (p a.pc).dst hlive, htoken, hevent]
    rfl

end Run

end RunState

/-- The part of a list before an element that its tail does not have. -/
theorem append_eq_append_cons {l l' pre post : List Event} {e : Event}
    (h : l ++ l' = pre ++ e :: post) (he : e ∉ l') :
    ∃ post', l = pre ++ e :: post' ∧ post = post' ++ l' := by
  rcases List.append_eq_append_iff.mp h with ⟨more, _, hl'⟩ | ⟨more, hl, hmore⟩
  · exact absurd (hl' ▸ List.mem_append_right more List.mem_cons_self) he
  · cases more with
    | nil =>
      rw [List.nil_append] at hmore
      exact absurd (hmore ▸ List.mem_cons_self) he
    | cons e' more =>
      obtain ⟨rfl, rfl⟩ := List.cons.inj hmore
      exact ⟨more, hl, rfl⟩

/-- The kept events of a trace, without those of either cleanup loop. -/
theorem filter_mapIdx_keptEvent {pre post cleanups cleanups' : List Event} {e : Event}
    (hkinds : ∀ e' ∈ pre ++ e :: post, e'.kind ≠ .cleanup)
    (hcleanups : ∀ e' ∈ cleanups, e'.kind = .cleanup)
    (hcleanups' : ∀ e' ∈ cleanups', e'.kind = .cleanup) :
    ((pre ++ e :: post).mapIdx (keptEvent pre.length) ++ cleanups').filter
        (fun e => !e.isCleanup) =
      pre ++ { e with op := .copy, objectRefs := e.objectRefs + 1 } ::
        ((post ++ cleanups).filter fun e => !e.isCleanup).map
          fun e => { e with objectRefs := e.objectRefs + 1 } := by
  have hnone : ∀ l : List Event, (∀ e' ∈ l, e'.kind = .cleanup) →
      l.filter (fun e => !e.isCleanup) = [] := by
    intro l hl
    rw [List.filter_eq_nil_iff]
    intro e' he'
    simp [Event.isCleanup, hl e' he']
  have hall : ∀ l : List Event, (∀ e' ∈ l, e'.kind ≠ .cleanup) →
      l.filter (fun e => !e.isCleanup) = l := by
    intro l hl
    rw [List.filter_eq_self]
    intro e' he'
    simpa [Event.isCleanup] using hl e' he'
  have hpost : ∀ e' ∈ post, e'.kind ≠ .cleanup := fun e' he' =>
    hkinds e' (List.mem_append_right _ (List.mem_cons_of_mem _ he'))
  have hlater : (post ++ cleanups).filter (fun e => !e.isCleanup) = post := by
    rw [List.filter_append, hnone _ hcleanups, List.append_nil, hall post hpost]
  rw [mapIdx_keptEvent, List.filter_append, hnone _ hcleanups', List.append_nil, hlater]
  apply hall
  intro e' he'
  rcases List.mem_append.mp he' with he' | he'
  · exact hkinds e' (List.mem_append_left _ he')
  · rcases List.mem_cons.mp he' with rfl | he'
    · exact hkinds e (List.mem_append_right _ List.mem_cons_self)
    · obtain ⟨e'', he'', rfl⟩ := List.mem_map.mp he'
      exact hpost e'' he''

/-- How a result changes when `token` is kept until the cleanup. -/
structure Result.KeptUntilCleanup (r r' : Result) (token : Nat) : Prop where
  status : r'.status = r.status
  trap : r'.trap = r.trap
  pc : r'.pc = r.pc
  returned : r'.returned = r.returned
  acquired : r'.acquired = r.acquired
  reads : r'.reads = r.reads
  lastRead : r'.lastRead = r.lastRead
  objectRefs : r'.objectRefs = r.objectRefs
  others : ∀ i, i + 1 ≠ token → r'.explicitAt i = r.explicitAt i ∧ r'.cleanupAt i = r.cleanupAt i
  before : r.explicitAt (token - 1) = 1 ∧ r.cleanupAt (token - 1) = 0
  after : r'.explicitAt (token - 1) = 0 ∧ r'.cleanupAt (token - 1) = 1
  totals : r.explicitReleases = r'.explicitReleases + 1 ∧
    r'.cleanupReleases = r.cleanupReleases + 1

namespace RunState

section Last

variable {p : Nat → Insn} {n : Nat} {s t : RunState}

/-- The whole trace: the events of the passes and those of the cleanup loop. -/
theorem trace_finish (hv : Validated p n) (hvisit : (cbpfRunLoop p n).Visits init s)
    (hexec : s.exec (p s.pc) = .finish t) :
    t.r.trace = s.r.trace ++ [⟨eventKind (.finish t), (p s.pc).op, s.pc, s.eventToken (p s.pc),
        t.r.objectRefs⟩] ∧
      t.cleanup.r.trace = t.r.trace ++
        cleanupEvents t.r.pc t.isLive (List.range t.r.acquired) t.r.objectRefs := by
  have hstep := finish_step hv hvisit hexec
  have hlog := visits_logged hv hvisit
  obtain ⟨hinv, hpc⟩ := visits_inv hv hvisit
  obtain ⟨_, hr, hlength⟩ := hstep.finish_frame
  have hcount : t.r.eventCount = s.r.eventCount + 1 := by rw [hr]
  have hacq : t.r.acquired = s.r.acquired := by rw [hr]
  have hle := hv.le
  have hroom := hlog.room
  have hslots := hlog.slots
  have hacquired := hinv.acquired_le
  exact ⟨hstep.trace (by omega), trace_cleanup (by omega)⟩

theorem eventKind_ne_cleanup (c : Control RunState) : eventKind c ≠ .cleanup := by
  cases c with
  | next t => simp [eventKind]
  | finish t =>
    simp only [eventKind]
    split <;> simp

/-- The last pass does not release. -/
theorem eventKind_finish_of_release {x : Insn} (hs : Step s x (.finish t)) (hop : x.op = .release) :
    eventKind (.finish t) = .trapEvent := by
  rcases hs.finish_cases with ⟨hret, _⟩ | ⟨_, hstatus, _⟩
  · rw [hret] at hop
    cases hop
  · simp [eventKind, hstatus]

end Last

/-- The cleanup loop gives the kept token the effect that its release gives it in the other run. -/
theorem keptUntilCleanup {t : RunState} {m token : Nat} (hinv : Inv t)
    (hinv' : Inv (t.kept m token)) (hpos : 0 < token) (hle : token ≤ t.r.acquired)
    (hreleased : 0 < t.r.explicitAt (token - 1)) (hexplicit : 0 < t.r.explicitReleases)
    (htally : t.cleanup.r.objectRefs = 1 + (t.cleanup.r.acquired : Int) -
      t.cleanup.r.explicitReleases - t.cleanup.r.cleanupReleases)
    (htally' : (t.kept m token).cleanup.r.objectRefs = 1 +
      ((t.kept m token).cleanup.r.acquired : Int) - (t.kept m token).cleanup.r.explicitReleases -
      (t.kept m token).cleanup.r.cleanupReleases) :
    t.cleanup.r.KeptUntilCleanup (t.kept m token).cleanup.r token := by
  have hcells : ∀ {u : RunState}, Inv u → ∀ i < u.r.acquired,
      u.cleanup.r.explicitAt i + u.cleanup.r.cleanupAt i = 1 := by
    intro u hu i hi
    have hcell := hu.cleanup.cells i (by rwa [acquired_cleanup])
    rwa [hu.isLive_cleanup] at hcell
  have hat : ∀ (u : RunState) (i : Nat), u.cleanup.r.explicitAt i = u.r.explicitAt i := by
    intro u i
    rw [Result.explicitAt, Result.explicitAt, explicitByCell_cleanup]
  have hkept : ∀ i, (t.kept m token).r.explicitAt i =
      if i + 1 = token then 0 else t.r.explicitAt i := by
    intro i
    change (t.r.explicitByCell.set (token - 1) 0).getD i 0 = _
    rw [List.getD_eq_getElem?_getD, List.getElem?_set]
    by_cases hi : i + 1 = token
    · have hlt : token - 1 < t.r.explicitByCell.length := by
        rw [hinv.explicit_length]
        have := hinv.acquired_le
        omega
      rw [if_pos (by omega), if_pos hlt, if_pos hi]
      rfl
    · rw [if_neg (by omega), if_neg hi, ← List.getD_eq_getElem?_getD]
      rfl
  have hrefs := hinv.objectRefs_cleanup
  have hrefs' := hinv'.objectRefs_cleanup
  have hacq : (t.kept m token).r.acquired = t.r.acquired := rfl
  have hreleases : (t.kept m token).r.explicitReleases = t.r.explicitReleases - 1 := rfl
  have hown := hcells hinv (token - 1) (by omega)
  have hown' := hcells hinv' (token - 1) (by omega)
  rw [hat] at hown hown'
  rw [hkept, if_pos (by omega)] at hown'
  refine {
    status := by rw [status_cleanup, status_cleanup]; rfl
    trap := by rw [trap_cleanup, trap_cleanup]; rfl
    pc := by rw [pc_cleanup, pc_cleanup]; rfl
    returned := by rw [returned_cleanup, returned_cleanup]; rfl
    acquired := by rw [acquired_cleanup, acquired_cleanup, hacq]
    reads := by rw [reads_cleanup, reads_cleanup]; rfl
    lastRead := by rw [lastRead_cleanup, lastRead_cleanup]; rfl
    objectRefs := hrefs'.trans hrefs.symm
    others := ?_
    before := ⟨by rw [hat]; omega, by omega⟩
    after := ⟨by rw [hat, hkept, if_pos (by omega)], by omega⟩
    totals := ?_ }
  · intro i hi
    have hsame : (t.kept m token).r.explicitAt i = t.r.explicitAt i := by
      rw [hkept, if_neg hi]
    refine ⟨by rw [hat, hat, hsame], ?_⟩
    by_cases hlt : i < t.r.acquired
    · have hcell := hcells hinv i hlt
      have hcell' := hcells hinv' i (by omega)
      rw [hat] at hcell hcell'
      omega
    · have hfresh := (hinv.cleanup.fresh i (by rw [acquired_cleanup]; omega)).2.2
      have hfresh' := (hinv'.cleanup.fresh i (by rw [acquired_cleanup]; omega)).2.2
      rw [hfresh, hfresh']
  · rw [acquired_cleanup, explicitReleases_cleanup] at htally htally'
    rw [explicitReleases_cleanup, explicitReleases_cleanup]
    omega

end RunState

open RunState in
/-- A release affects nothing but its own acquisition: where no later step or trap uses its token,
copying the register onto itself instead gives the same run, in which the cleanup loop releases
that token. -/
theorem release_independent (p : InsnPtr) (n k token : Nat) (refs : Int) (r : Result)
    (pre post : List Event) (hvalid : cbpfValidate p n = .ok ()) (hrun : cbpfRun p n = some r)
    (hrelease : r.trace = pre ++ ⟨.step, .release, k, token, refs⟩ :: post)
    (hlater : ∀ e ∈ post, e.kind ≠ .cleanup → e.op = .read ∨ e.op = .release → e.token ≠ token) :
    let p' := p.replace k ⟨.copy, (p.deref k).dst, (p.deref k).dst, 0⟩
    cbpfValidate p' n = .ok () ∧ ∃ r', cbpfRun p' n = some r' ∧ r.KeptUntilCleanup r' token ∧
      r'.trace.filter (fun e => !e.isCleanup) =
        pre ++ ⟨.step, .copy, k, token, refs + 1⟩ ::
          (post.filter fun e => !e.isCleanup).map
            fun e => { e with objectRefs := e.objectRefs + 1 } := by
  have hv := validated_of_cbpfValidate hvalid
  obtain ⟨s, t, hvisit, hexec, hrun'⟩ := run_finish hvalid
  obtain rfl := Option.some.inj (hrun.symm.trans hrun')
  obtain ⟨hlast, hcleanup⟩ := trace_finish hv hvisit hexec
  -- the release is the event of a pass, and not of the last one
  obtain ⟨post₁, hpost₁, rfl⟩ := append_eq_append_cons (hcleanup.symm.trans hrelease)
    fun hmem => by cases kind_of_mem_cleanupEvents hmem
  have hnot : (⟨.step, .release, k, token, refs⟩ : Event) ∉
      [⟨eventKind (.finish t), (p.deref s.pc).op, s.pc, s.eventToken (p.deref s.pc),
        t.r.objectRefs⟩] := by
    intro hmem
    obtain ⟨hkind, hop, _⟩ := Event.mk.injEq .. ▸ List.mem_singleton.mp hmem
    rw [eventKind_finish_of_release (finish_step hv hvisit hexec) hop.symm] at hkind
    cases hkind
  obtain ⟨post₂, hpost₂, _⟩ := append_eq_append_cons (hlast.symm.trans hpost₁) hnot
  obtain ⟨hop, hkn, hpos, b, hb, hbs, hpast, hkept⟩ := visits_release hv hvisit hpost₂
  have hok : insnOk n k ⟨.copy, (p.deref k).dst, (p.deref k).dst, 0⟩ = true := by
    have hdst := insnOk_release (hv.ok k hkn) hop
    simp [insnOk]
    omega
  have hret : k = n - 1 → Opcode.copy = .ret := by
    intro hk
    have hlastop := hv.last
    rw [← hk, hop] at hlastop
    cases hlastop
  have hvalid' := cbpfValidate_replace hvalid hok hret
  have hv' := hv.replace hok hret
  have hstep := finish_step hv hvisit hexec
  have hkinds : ∀ e ∈ t.r.trace, e.kind ≠ .cleanup := by
    intro e he
    rw [hlast] at he
    rcases List.mem_append.mp he with he | he
    · rw [((visits_logged hv hvisit).steps e he).1]
      simp
    · rw [List.mem_singleton.mp he]
      exact eventKind_ne_cleanup (.finish t)
  have hunused : Unused pre.length token t.r.trace := by
    intro e he
    have hmem := List.mem_of_mem_drop he
    rw [hpost₁, List.drop_append, List.drop_of_length_le (by omega), List.nil_append,
      Nat.add_sub_cancel_left, List.drop_succ_cons, List.drop_zero] at he
    exact hlater e (List.mem_append_left _ he) (hkinds e hmem)
  obtain ⟨hpasts, hvisit'⟩ := visits_kept hv hpos hpast hb hkept hbs (hlast ▸ hunused).of_append
  have hrel := exec_kept hpasts.event hpos hpasts.acquired hpasts.explicit (x := p.deref s.pc)
    (reg_ne_of_unused hstep (visits_room hv hvisit).2.2 hpasts.event hunused)
  have hexec' : (s.kept pre.length token).exec
      (Function.update p.deref k ⟨.copy, (p.deref k).dst, (p.deref k).dst, 0⟩ s.pc) =
        .finish (t.kept pre.length token) := by
    rw [Function.update_of_ne (Nat.ne_of_gt hpasts.pc)]
    exact (hexec ▸ hrel).eq_finish
  have hderef := (deref_replace hvalid k ⟨.copy, (p.deref k).dst, (p.deref k).dst, 0⟩).1
  refine ⟨hvalid', _, run_of_visits hvalid' (hderef ▸ hvisit') (hderef ▸ hexec'), ?_, ?_⟩
  · obtain ⟨_, hr, _⟩ := hstep.finish_frame
    have hlog := visits_logged hv hvisit
    have hreleased : 0 < t.r.explicitAt (token - 1) := by
      have hsame : t.r.explicitAt (token - 1) = s.r.explicitAt (token - 1) := by
        rw [Result.explicitAt, Result.explicitAt, hr]
      rw [hsame, hlog.tally.explicitAt, List.countP_pos_iff]
      refine ⟨_, hpost₂ ▸ List.mem_append_right pre List.mem_cons_self, ?_⟩
      simp [Event.isRelease, Nat.sub_add_cancel hpos]
    have hinv : Inv t := (visits_inv hv hvisit).1.step hstep
    have hinv' : Inv (t.kept pre.length token) :=
      (visits_inv hv' hvisit').1.step (finish_step hv' hvisit' hexec')
    obtain ⟨_, _, _, hclose⟩ := closing_cleanup hv hvisit hexec
    obtain ⟨_, _, _, hclose'⟩ := closing_cleanup hv' hvisit' hexec'
    apply keptUntilCleanup hinv hinv' hpos _ hreleased _ hclose.tally.refs hclose'.tally.refs
    · rw [hr]
      exact hpasts.acquired
    · rw [hr]
      exact hpasts.explicit
  · obtain ⟨_, hcleanup'⟩ := trace_finish hv' hvisit' hexec'
    have htrace : (t.kept pre.length token).r.trace = _ := trace_kept t.r pre.length token
    rw [hcleanup', htrace, hpost₁]
    exact filter_mapIdx_keptEvent (hpost₁ ▸ hkinds) (fun _ => kind_of_mem_cleanupEvents)
      fun _ => kind_of_mem_cleanupEvents

/-- A copy of the first acquisition outlives its release, and the run ends in a trap on the other. -/
def releaseFirst : List Insn :=
  [⟨.acquire, 0, 0, 1⟩, ⟨.acquire, 1, 0, 1⟩, ⟨.copy, 2, 0, 0⟩, ⟨.release, 0, 0, 0⟩,
    ⟨.read, 1, 0, 0⟩, ⟨.brNull, 2, 0, 7⟩, ⟨.release, 1, 0, 0⟩, ⟨.read, 1, 0, 0⟩, ⟨.ret, 0, 0, 7⟩]

def releaseFirstResult : Result := (cbpfRun (.ofList releaseFirst) 9).getD .zero

theorem release_independent_releaseFirst : ∃ r',
    cbpfRun ((InsnPtr.ofList releaseFirst).replace 3 ⟨.copy, 0, 0, 0⟩) 9 = some r' ∧
      releaseFirstResult.KeptUntilCleanup r' 1 := by
  obtain ⟨_, r', hrun, hkept, _⟩ := release_independent (.ofList releaseFirst) 9 3 1 2
    releaseFirstResult (releaseFirstResult.trace.take 3) (releaseFirstResult.trace.drop 4)
    (by decide) (by decide) (by decide) (by decide)
  exact ⟨r', hrun, hkept⟩

end Cbpf
