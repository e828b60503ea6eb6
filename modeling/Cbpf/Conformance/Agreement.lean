import Cbpf.Conformance.Replay
import Cbpf.Containment
import Cbpf.RunRefinement
import Cbpf.Model.Exactness

/-!
# Every history of the model conforms

Along a path the replay and the run of the generated program keep step (`Replays`): the state, the
program counter, the events so far and the number of reads. The last edge is the last pass with the
cleanup loop, and the result then flattens to the expected words.
-/

namespace Cbpf.Conformance

open BoundedLoop Model RunState

/-! ### The generated program -/

/-- The opcode of an edge. -/
def kindOp : Kind → Opcode
  | .acquire | .acquireNull => .acquire
  | .copy => .copy
  | .reload => .reload
  | .spill => .spill
  | .read => .read
  | .release => .release
  | .finish => .ret

/-- The instruction of an edge. -/
def edgeInsn (e : Edge) (scalar : Int) : Insn :=
  ⟨kindOp e.kind, (operands e.args).1, (operands e.args).2, edgeImm e.kind scalar⟩

variable {gate : Bool} {scalar : Int} {m : State} {e : Edge}

theorem hostInfo_opName (gate : Bool) (kind : Kind) :
    hostInfo gate (opName kind) = opcodeWord (kindOp kind) := by
  cases gate <;> cases kind <;> rfl

theorem insnLabel_edgeInsn (hy : Yields m 2 false e) (scalar : Int) :
    insnLabel (edgeInsn e scalar) = some (e.kind, e.args) := by
  cases hy with
  | acquire r _ => simp [insnLabel, edgeInsn, kindOp, operands, edgeImm]
  | read r _ => simp [insnLabel, edgeInsn, kindOp, operands]
  | release r _ => simp [insnLabel, edgeInsn, kindOp, operands]
  | _ => rfl

/-- A yielded edge has its operands in range. -/
theorem operandsInRange_of_yields {capacity : Nat} {mutation : Bool}
    (hy : Yields m capacity mutation e) : OperandsInRange m e.kind e.args := by
  cases hy with
  | acquire r hr => simpa using OperandsInRange.acquire r hr
  | acquireNull r hr => exact .acquireNull r hr
  | copy dst src hd hs => exact .copy dst src hd hs
  | reload dst slot hd hs => exact .reload dst slot hd hs
  | spill slot r hs hr => exact .spill slot r hs hr
  | read r hr => simpa using OperandsInRange.read r hr
  | release r hr => simpa using OperandsInRange.release r hr
  | finish => exact .finish

theorem insnOk_edgeInsn (hregs : m.registers.length = 4) (hspills : m.spills.length = 2)
    (h : OperandsInRange m e.kind e.args) (scalar : Int) (n i : Nat) :
    insnOk n i (edgeInsn e scalar) = true := by
  obtain ⟨kind, args, result, target⟩ := e
  cases h with
  | finish => rfl
  | _ =>
    simp [insnOk, edgeInsn, kindOp, operands, edgeImm]
    omega

theorem operands_lt (hregs : m.registers.length = 4) (hspills : m.spills.length = 2)
    (h : OperandsInRange m e.kind e.args) : (operands e.args).1 < 4 ∧ (operands e.args).2 < 4 := by
  obtain ⟨kind, args, result, target⟩ := e
  cases h <;> simp [operands] <;> omega

/-! ### Replaying never fails -/

theorem appendEdge_eq (gate : Bool) (scalar : Int) {run : Replay} (hwf : WellFormed run.state 2)
    (he : e ∈ transitions run.state 2 false) :
    appendEdge (hostInfo gate) scalar run e = some (run.append (hostInfo gate) scalar e) := by
  obtain ⟨ha, hy⟩ := mem_transitions.mp he
  have hcapacity : (hostInfo gate .acquisitions).toNat = 2 := by cases gate <;> rfl
  have hstate := stateError_eq_none.mpr (hwf.edge ha hy)
  have hedge := edgeError_of_yields hwf ha hy
  unfold appendEdge
  simp only [hcapacity, hstate, hedge, Option.isSome_none, Bool.false_eq_true, or_self, if_false]

theorem replay_snoc {ids : InfoName → Int} {start run : Replay} {path : List Edge}
    (h : replay ids scalar start path = some run) (e : Edge) :
    replay ids scalar start (path ++ [e]) = appendEdge ids scalar run e := by
  unfold replay at h ⊢
  rw [List.foldlM_append, h]
  exact (Option.bind_some _ _).trans (by simp [List.foldlM_cons])

/-- The program of a path, one row for each edge. -/
theorem replay_path (gate : Bool) (scalar : Int) {path : List Edge} {t : State}
    (hpath : Path 2 false (State.initial 4 2) path t) :
    ∃ run, replay (hostInfo gate) scalar (.start (State.initial 4 2)) path = some run ∧
      run.state = t ∧ run.code = path.map (edgeRow (hostInfo gate) · scalar) := by
  induction hpath with
  | nil => exact ⟨_, rfl, rfl, rfl⟩
  | @snoc path t e hpath he ih =>
    obtain ⟨run, hrun, rfl, hcode⟩ := ih
    have hwf := wellFormed_of_reachable hpath.reachable
    refine ⟨run.append (hostInfo gate) scalar e, ?_, rfl, ?_⟩
    · rw [replay_snoc hrun, appendEdge_eq gate scalar hwf he]
    · rw [Replay.append, hcode, List.map_append]
      rfl

/-! ### One pass, one edge -/

/-- An event as the replay writes it. -/
def eventRow (e : Event) : EventRow :=
  ⟨kindWord e.kind, opcodeWord e.op, e.pc, e.token, e.objectRefs⟩

/-- The run at a guard test and the replay of the path that led there. -/
structure Replays (s : RunState) (run : Replay) : Prop where
  state : run.state = s.abs .active
  pc : run.code.length = s.pc
  events : run.events = s.r.trace.map eventRow
  reads : run.reads = s.r.reads

/-- The token of an edge is the token of the pass on its instruction. -/
theorem edgeToken_eq (scalar : Int) {s : RunState} (hinv : Inv s)
    (hy : Yields (s.abs .active) 2 false e) :
    edgeToken (s.abs .active) e = s.eventToken (edgeInsn e scalar) := by
  have hlen := hinv.length_abs .active
  have hreg : ∀ {r : Nat} {v : Int}, r < (s.abs .active).registers.length →
      ((s.abs .active).setReg r v).reg r = v := by
    intro r v hr
    simp [State.setReg, State.reg, updated_eq_set _ hr, hr]
  cases hy with
  | acquire r _ =>
    by_cases ha : s.r.acquired = 2
    · have hne : (acquireEdge (s.abs .active) 2 r) =
          ⟨.acquire, [r], .exhaustion, (s.abs .active).terminate .exhaustion⟩ := by
        simp [acquireEdge, hlen, ha]
      rw [hne]
      simp [edgeToken, eventToken, edgeInsn, kindOp, ha]
    · have hne : (acquireEdge (s.abs .active) 2 r) =
          ⟨.acquire, [r], .success, (s.abs .active).acquire r⟩ := by
        simp [acquireEdge, hlen, ha]
      have hactive : (s.abs .active).terminal = .active := rfl
      rw [hne]
      simp [edgeToken, eventToken, edgeInsn, kindOp, edgeImm, ha, hactive, State.acquire, hlen]
  | acquireNull r _ => rfl
  | copy dst src hd _ =>
    exact (hreg hd).trans (reg_abs s .active src)
  | reload dst slot hd _ =>
    exact (hreg hd).trans (slot_abs s .active slot)
  | spill slot r hs _ =>
    have hslot : ((s.abs .active).setSpill slot ((s.abs .active).reg r)).slot slot =
        (s.abs .active).reg r := by
      simp [State.setSpill, State.slot, updated_eq_set _ hs, hs]
    exact hslot.trans (reg_abs s .active r)
  | read r _ => simp [edgeToken, eventToken, edgeInsn, kindOp, operands]
  | release r _ => simp [edgeToken, eventToken, edgeInsn, kindOp, operands]
  | finish => rfl

/-- A read has the value 42 exactly when it does not end the run. -/
theorem read_result (ha : m.terminal = .active) (hy : Yields m 2 false e) :
    (e.kind = .read ∧ e.result = .fortyTwo) ↔ (e.kind = .read ∧ e.target.terminal = .active) := by
  cases hy with
  | read r _ =>
    simp only [readEdge]
    split
    · simp [ha]
    · by_cases h0 : m.reg r = 0 <;> simp [invalidReason, readReason, h0]
  | acquire r _ => simp
  | release r _ => simp
  | acquireNull r _ => simp [acquireNullEdge]
  | copy dst src _ _ => simp [copyEdge]
  | reload dst slot _ _ => simp [reloadEdge]
  | spill slot r _ _ => simp [spillEdge]
  | finish => simp [finishEdge]

theorem kindOp_eq_read {kind : Kind} : kindOp kind = .read ↔ kind = .read := by
  cases kind <;> simp [kindOp]

theorem kindOp_ne_brNull (kind : Kind) : kindOp kind ≠ .brNull := by
  cases kind <;> simp [kindOp]

section Step

variable {s t : RunState} {run : Replay} {n : Nat}

/-- The edge of a pass, by its label. -/
theorem eq_of_isEdge {x : Insn} {e' : Edge} (h : IsEdge m x e') (he : e ∈ transitions m 2 false)
    (hx : x = edgeInsn e scalar) : e' = e := by
  obtain ⟨_, hy⟩ := mem_transitions.mp he
  exact (h.unique e he (hx ▸ insnLabel_edgeInsn hy scalar)).symm

/-- A pass that goes on extends the replay. -/
theorem Replays.next (h : Replays s run) (gate : Bool) (hinv : Inv s)
    (hroom : s.r.eventCount < s.r.events.length) (he : e ∈ transitions (s.abs .active) 2 false)
    (hok : insnOk n s.pc (edgeInsn e scalar) = true) (hn : n ≤ 64)
    (hs : Step s (edgeInsn e scalar) (.next t)) :
    Replays t (run.append (hostInfo gate) scalar e) := by
  obtain ⟨ha, hy⟩ := mem_transitions.mp he
  rcases next_abs hinv hok hn hs with ⟨hop, _⟩ | ⟨_, hpc, e', hedge, htarget⟩
  · exact absurd hop (kindOp_ne_brNull e.kind)
  · obtain rfl := eq_of_isEdge hedge he rfl
    have hactive : e'.target.terminal = .active := by
      rw [htarget]
      rfl
    have htrace := hs.trace hroom
    refine ⟨htarget, ?_, ?_, ?_⟩
    · rw [Replay.append, List.length_append, List.length_singleton, h.pc, hpc]
    · have hevents : edgeEvents (hostInfo gate) run.state e' run.code.length =
          [⟨hostInfo gate .step, hostInfo gate (opName e'.kind), run.code.length,
            edgeToken run.state e', e'.target.refcount⟩] := by
        simp [edgeEvents, isTrapped, hactive]
      have hstep : hostInfo gate .step = kindWord .step := by cases gate <;> rfl
      change run.events ++ edgeEvents (hostInfo gate) run.state e' run.code.length = _
      rw [hevents, h.events, h.pc, h.state, edgeToken_eq scalar hinv hy, hstep,
        hostInfo_opName, htarget]
      change _ = (Control.next t).state.r.trace.map eventRow
      rw [htrace, List.map_append]
      rfl
    · change run.reads + (if e'.kind = .read ∧ e'.result = .fortyTwo then 1 else 0) = t.r.reads
      rw [hs.next_reads, h.reads, if_congr (read_result ha hy) rfl rfl]
      by_cases hk : e'.kind = .read <;> simp [hk, hactive, edgeInsn, kindOp_eq_read]

/-- The replayed cleanup rows are the events of the cleanup loop. -/
theorem cleanupRows_eq {isLive : Nat → Bool} {l : List Nat} {pc : Nat}
    (hl : ∀ i ∈ l, m.liveAt i = isLive i) (refs : Int) (acc : List EventRow) :
    (l.foldl (cleanupRow (hostInfo gate) m pc) (refs, acc)).2 =
      acc ++ (cleanupEvents pc isLive l refs).map eventRow := by
  have hcleanup : hostInfo gate .cleanup = kindWord .cleanup := by cases gate <;> rfl
  have hrelease : hostInfo gate .release = opcodeWord .release := by cases gate <;> rfl
  induction l generalizing refs acc with
  | nil => simp [cleanupEvents]
  | cons i l ih =>
    have htail : ∀ j ∈ l, m.liveAt j = isLive j := fun j hj => hl j (List.mem_cons_of_mem i hj)
    rw [List.foldl_cons, cleanupRow, hl i List.mem_cons_self, cleanupEvents]
    cases isLive i with
    | false => exact ih htail refs acc
    | true =>
      simp only [if_true]
      rw [ih htail, List.append_assoc, hcleanup, hrelease]
      rfl

/-- How the terminal state names the way the last pass ended. -/
theorem terminalReason_cases (gate : Bool) (hs : Step s (edgeInsn e scalar) (.finish t))
    (hquiet : Quiet s) :
    (terminalReason (edgeInsn e scalar).op t.cleanup.r = .ret ∧ t.r.status = .returned ∧
        t.r.trap = .noTrap) ∨
      (terminalReason (edgeInsn e scalar).op t.cleanup.r ≠ .ret ∧ t.r.status = .trapped ∧
        (trapName (terminalReason (edgeInsn e scalar).op t.cleanup.r)).map (hostInfo gate) =
          some (trapWord t.r.trap : Int)) := by
  rw [terminalReason, trap_cleanup]
  rcases hs.finish_cases with ⟨_, hstatus, htrap, _⟩ | ⟨_, hstatus, htrap, _⟩
  · have hnone : t.r.trap = .noTrap := htrap.trans hquiet.trap
    exact .inl ⟨by rw [hnone], hstatus, hnone⟩
  · cases htr : t.r.trap with
    | noTrap => exact absurd htr htrap
    | exhausted => exact .inr ⟨by simp, hstatus, by cases gate <;> rfl⟩
    | null => exact .inr ⟨by dsimp only; split <;> simp, hstatus, by
        dsimp only; split <;> cases gate <;> rfl⟩
    | stale => exact .inr ⟨by dsimp only; split <;> simp, hstatus, by
        dsimp only; split <;> cases gate <;> rfl⟩

/-- The status and trap words of a run that ended in a terminal state. -/
theorem terminal_words (gate : Bool) (hs : Step s (edgeInsn e scalar) (.finish t))
    (hquiet : Quiet s) :
    (if terminalReason (edgeInsn e scalar).op t.cleanup.r = .ret then hostInfo gate .returned
        else hostInfo gate .trapped) = statusWord t.cleanup.r.status ∧
      (trapName (terminalReason (edgeInsn e scalar).op t.cleanup.r)).map (hostInfo gate) =
        some (trapWord t.cleanup.r.trap : Int) := by
  rw [status_cleanup, trap_cleanup]
  rcases terminalReason_cases gate hs hquiet with
    ⟨hret, hstatus, htrap⟩ | ⟨hret, hstatus, htrap⟩
  · rw [hret, hstatus, htrap]
    cases gate <;> exact ⟨rfl, rfl⟩
  · rw [if_neg hret, hstatus]
    exact ⟨by cases gate <;> rfl, htrap⟩

/-- The rows of a terminal edge are the events of the last pass and of the cleanup loop. -/
theorem edgeEvents_finish (hinv : Inv s) (hquiet : Quiet s)
    (hroom : s.r.eventCount + 1 + s.r.acquired ≤ s.r.events.length)
    (hy : Yields (s.abs .active) 2 false e) (hs : Step s (edgeInsn e scalar) (.finish t))
    (hterminal : e.target.terminal = terminalReason (edgeInsn e scalar).op t.cleanup.r)
    (hactive : e.target.terminal ≠ .active) :
    t.cleanup.r.trace.map eventRow =
      s.r.trace.map eventRow ++ edgeEvents (hostInfo gate) (s.abs .active) e s.pc := by
  obtain ⟨hlive, hr, hlength⟩ := hs.finish_frame
  have hcount : t.r.eventCount = s.r.eventCount + 1 := by rw [hr]
  have hacq : t.r.acquired = s.r.acquired := by rw [hr]
  have hrefs : t.r.objectRefs = s.r.objectRefs := by rw [hr]
  have hpc : t.r.pc = s.pc := by rw [hr]
  have hstep : hostInfo gate .step = kindWord .step := by cases gate <;> rfl
  have htrap : hostInfo gate .trap = kindWord .trapEvent := by cases gate <;> rfl
  have hkind : (if isTrapped e.target then hostInfo gate .trap else hostInfo gate .step) =
      kindWord (eventKind (.finish t)) := by
    rw [hstep, htrap]
    rcases terminalReason_cases gate hs hquiet with
      ⟨hret, hstatus, _⟩ | ⟨hret, hstatus, _⟩
    · simp [isTrapped, hterminal, hret, eventKind, hstatus]
    · rw [hterminal] at hactive
      simp [isTrapped, hterminal, hactive, hret, eventKind, hstatus]
  have hcells : ∀ i ∈ List.range (s.abs .active).live.length,
      (s.abs .active).liveAt i = t.isLive i := by
    intro i _
    rw [hinv.liveAt_abs, isLive, isLive, hlive]
  have htrace : t.r.trace = s.r.trace ++ [⟨eventKind (.finish t), (edgeInsn e scalar).op, s.pc,
      s.eventToken (edgeInsn e scalar), t.r.objectRefs⟩] := hs.trace (by omega)
  rw [trace_cleanup (by omega), htrace, edgeEvents]
  simp only [hactive, ne_eq, not_false_eq_true, if_true]
  rw [cleanupRows_eq hcells, hkind, hinv.length_abs, edgeToken_eq scalar hinv hy,
    hostInfo_opName, hacq, hpc]
  simp only [List.map_append, List.append_assoc, hrefs]
  rfl

end Step

/-! ### The words of a result -/

theorem range_map_getD {α : Type} {l : List α} {d : α} {k : Nat} (hk : k ≤ l.length) :
    (List.range k).map (fun i => l.getD i d) = l.take k := by
  refine List.ext_getElem (by simp [hk]) fun i hi hi' => ?_
  have hlt : i < l.length := by
    rw [List.length_map, List.length_range] at hi
    omega
  simp [hlt]

/-- The per-cell counters are those of the acquisitions, padded with zeros. -/
theorem cells_padded {l : List Nat} {k : Nat} (hlen : l.length = 2) (hk : k ≤ 2)
    (h : ∀ i, k ≤ i → l.getD i 0 = 0) :
    (List.range 2).map (fun i => ((l.getD i 0 : Nat) : Int)) =
      (l.take k).map (fun x : Nat => (x : Int)) ++ List.replicate (2 - k) 0 := by
  obtain ⟨a, b, rfl⟩ := List.length_eq_two.mp hlen
  have ha := h 0
  have hb := h 1
  rcases (by omega : k = 0 ∨ k = 1 ∨ k = 2) with rfl | rfl | rfl
  · simp at ha hb
    simp [ha, hb, List.range_succ]
  · simp at hb
    simp [hb, List.range_succ]
  · simp [List.range_succ]

theorem trace_words {r : Result} (h : r.eventCount ≤ r.events.length) :
    (List.range r.eventCount).flatMap (fun i => eventWords (r.events.getD i .zero)) =
      (r.trace.map eventRow).flatMap EventRow.words := by
  rw [Result.trace, ← range_map_getD (d := Event.zero) h, List.flatMap_map, List.flatMap_map]
  rfl

/-- A result's words, from its trace and its per-cell counters. -/
theorem resultWords_eq {u : RunState} (hinv : Inv u) (hroom : u.r.eventCount ≤ u.r.events.length)
    (T : Terminal) : resultWords u.r =
      ([statusWord u.r.status, trapWord u.r.trap, u.r.pc, u.r.returned, u.r.acquired, u.r.reads,
        u.r.explicitReleases, u.r.cleanupReleases, u.r.lastRead, u.r.objectRefs] : List Int) ++
      (u.abs T).explicit ++ List.replicate (2 - (u.abs T).live.length) 0 ++
      (u.abs T).cleanup ++ List.replicate (2 - (u.abs T).live.length) 0 ++
      [((u.r.trace.map eventRow).length : Int)] ++
      (u.r.trace.map eventRow).flatMap EventRow.words := by
  have hexplicit := cells_padded hinv.explicit_length hinv.acquired_le
    fun i hi => (hinv.fresh i hi).2.1
  have hcleanup := cells_padded hinv.cleanup_length hinv.acquired_le
    fun i hi => (hinv.fresh i hi).2.2
  have hlength : (u.r.trace.map eventRow).length = u.r.eventCount := by
    rw [List.length_map, Result.trace, List.length_take, Nat.min_eq_left hroom]
  unfold resultWords
  rw [trace_words hroom, hlength, hinv.length_abs, cbpfCells_eq]
  simp only [Result.explicitAt, Result.cleanupAt, hexplicit, hcleanup, RunState.abs,
    List.append_assoc]

section Totals

variable {p : Nat → Insn} {n : Nat} {s t : RunState}

/-- Before the last pass the explicit effects are the explicit releases. -/
theorem explicit_sum (hv : Validated p n) (hvisit : (cbpfRunLoop p n).Visits init s) :
    (s.abs .active).explicit.sum = s.r.explicitReleases := by
  have hwf := wellFormed_of_reachable (visits_reachable hv hvisit)
  have hlog := visits_logged hv hvisit
  have hclean : (s.abs .active).cleanup.sum = 0 := List.sum_eq_zero (hwf.active_clean rfl)
  have hnone : s.r.cleanupReleases = 0 := by
    rw [hlog.tally.cleanupReleases, List.countP_eq_zero]
    intro e he
    simp [Event.isCleanup, (hlog.steps e he).1]
  have hacc := hwf.accounting
  have hrefs := hlog.tally.refs
  have hlen := (visits_inv hv hvisit).1.length_abs .active
  change s.r.objectRefs = _ at hacc
  omega

/-- The effects of a terminal model state are the release counters of the result. -/
theorem effect_sums (hv : Validated p n) (hvisit : (cbpfRunLoop p n).Visits init s)
    (hexec : s.exec (p s.pc) = .finish t) {T : Terminal} (hwf : WellFormed (t.cleanup.abs T) 2) :
    (t.cleanup.abs T).explicit.sum = t.cleanup.r.explicitReleases ∧
      (t.cleanup.abs T).cleanup.sum = t.cleanup.r.cleanupReleases := by
  obtain ⟨_, _, hinvc, hclose⟩ := closing_cleanup hv hvisit hexec
  obtain ⟨_, hr, _⟩ := (finish_step hv hvisit hexec).finish_frame
  have hexplicit : (t.cleanup.abs T).explicit.sum = t.cleanup.r.explicitReleases := by
    have hsame : (t.cleanup.abs T).explicit = (s.abs .active).explicit := by
      simp only [RunState.abs, acquired_cleanup, explicitByCell_cleanup]
      rw [hr]
    rw [hsame, explicit_sum hv hvisit, explicitReleases_cleanup, hr]
  refine ⟨hexplicit, ?_⟩
  have hacc := hwf.accounting
  have hrefs := hclose.tally.refs
  have hlen := hinvc.length_abs T
  change t.cleanup.r.objectRefs = _ at hacc
  omega

/-- The event array holds every event of a run. -/
theorem closing_room (hv : Validated p n) (hvisit : (cbpfRunLoop p n).Visits init s)
    (hexec : s.exec (p s.pc) = .finish t) :
    t.cleanup.r.eventCount ≤ 66 ∧ t.cleanup.r.events.length = 66 := by
  obtain ⟨_, _, hinvc, hclose⟩ := closing_cleanup hv hvisit hexec
  have hcells := List.length_filter_le t.isLive (List.range t.r.acquired)
  have hacq := hinvc.acquired_le
  have hroom := hclose.room
  rw [List.length_range] at hcells
  rw [acquired_cleanup] at hacq
  exact ⟨by omega, hclose.slots⟩

end Totals

/-- Every row an edge appends has the program counter of the edge. -/
theorem edgeEvents_last (ids : InfoName → Int) (m : State) (e : Edge) (pc : Nat) :
    ∃ last, (edgeEvents ids m e pc).getLast? = some last ∧ last.pc = pc := by
  have hrows : ∀ (l : List Nat) (acc : Int × List EventRow), acc.2 ≠ [] →
      (∀ row ∈ acc.2, row.pc = pc) →
      (l.foldl (cleanupRow ids m pc) acc).2 ≠ [] ∧
        ∀ row ∈ (l.foldl (cleanupRow ids m pc) acc).2, row.pc = pc := by
    intro l
    induction l with
    | nil => exact fun _ hne hpc => ⟨hne, hpc⟩
    | cons i l ih =>
      intro acc hne hpc
      rw [List.foldl_cons]
      apply ih
      · rw [cleanupRow]
        split
        · simp
        · exact hne
      · rw [cleanupRow]
        split
        · intro row hrow
          rcases List.mem_append.mp hrow with hrow | hrow
          · exact hpc row hrow
          · rw [List.mem_singleton.mp hrow]
        · exact hpc
  obtain ⟨hne, hpc⟩ : edgeEvents ids m e pc ≠ [] ∧ ∀ row ∈ edgeEvents ids m e pc, row.pc = pc := by
    rw [edgeEvents]
    split
    · exact hrows _ _ (by simp) (by simp)
    · simp
  exact ⟨_, List.getLast?_eq_some_getLast hne, hpc _ (List.getLast_mem hne)⟩

section Expected

variable {p : Nat → Insn} {n : Nat} {s t : RunState} {run : Replay}

/-- Only a `finish` edge leaves a scalar. -/
theorem append_scalar (hstep : Step s (edgeInsn e scalar) (.finish t)) (hquiet : Quiet s) :
    (run.append (hostInfo gate) scalar e).scalar = t.r.returned := by
  rw [Replay.append]
  rcases hstep.finish_cases with ⟨hop, _, _, hret⟩ | ⟨hop, _, _, hret⟩
  · have hkind : e.kind = .finish := by
      cases hk : e.kind <;> simp [edgeInsn, kindOp, hk] at hop ⊢
    simp [hkind, hret, edgeInsn, edgeImm]
  · have hkind : e.kind ≠ .finish := by
      intro hk
      exact hop (by rw [edgeInsn, kindOp.eq_def, hk])
    simp [hkind, hret, hquiet.returned]

/-- A terminal edge reads nothing. -/
theorem append_reads (ha : m.terminal = .active) (hy : Yields m 2 false e)
    (hterminal : e.target.terminal ≠ .active) :
    (run.append (hostInfo gate) scalar e).reads = run.reads := by
  have hno : ¬ (e.kind = .read ∧ e.result = .fortyTwo) := by
    rw [read_result ha hy]
    exact fun h => hterminal h.2
  simp [Replay.append, hno]

/-- The words expected of a completed replay are the words of the result. -/
theorem expected_eq (gate : Bool) (hv : Validated p n) (hvisit : (cbpfRunLoop p n).Visits init s)
    (hrun : Replays s run) (he : e ∈ transitions (s.abs .active) 2 false)
    (hx : p s.pc = edgeInsn e scalar) (hexec : s.exec (p s.pc) = .finish t) :
    expected (hostInfo gate) (run.append (hostInfo gate) scalar e) =
        some (resultWords t.cleanup.r) ∧ e.target.terminal ≠ .active := by
  obtain ⟨hinv, hpc⟩ := visits_inv hv hvisit
  have hquiet := visits_quiet hv hvisit
  obtain ⟨hcount, hslots, _⟩ := visits_room hv hvisit
  have hwf := wellFormed_of_reachable (visits_reachable hv hvisit)
  have hstep := finish_step hv hvisit hexec
  obtain ⟨_, hr, hlength⟩ := hstep.finish_frame
  obtain ⟨_, _, hinvc, _⟩ := closing_cleanup hv hvisit hexec
  obtain ⟨e', hedge, htarget, hactive⟩ :=
    finish_abs hinv (hv.ok s.pc hpc) hstep hquiet.trap
  obtain rfl := eq_of_isEdge hedge he hx
  obtain ⟨ha, hy⟩ := mem_transitions.mp he
  rw [hx] at hstep htarget hactive
  have hterminal : e'.target.terminal ≠ .active := by
    rw [htarget]
    exact hactive
  refine ⟨?_, hterminal⟩
  have hwf' : WellFormed (t.cleanup.abs (terminalReason (edgeInsn e' scalar).op t.cleanup.r)) 2 := by
    rw [← htarget]
    exact hwf.edge ha hy
  have hroom : s.r.eventCount + 1 + s.r.acquired ≤ s.r.events.length := by
    have := hinv.acquired_le
    have := hv.le
    omega
  have hevents : (run.append (hostInfo gate) scalar e').events = t.cleanup.r.trace.map eventRow := by
    rw [edgeEvents_finish hinv hquiet hroom hy hstep (by rw [htarget]; rfl) hterminal,
      ← hrun.events, ← hrun.state, ← hrun.pc]
    rfl
  have hlast : ∃ last, (run.append (hostInfo gate) scalar e').events.getLast? = some last ∧
      last.pc = t.cleanup.r.pc := by
    obtain ⟨last, hlast, hlastpc⟩ :=
      edgeEvents_last (hostInfo gate) run.state e' run.code.length
    refine ⟨last, ?_, ?_⟩
    · rw [Replay.append, List.getLast?_append, hlast, Option.some_or]
    · rw [hlastpc, pc_cleanup, hr, hrun.pc]
  obtain ⟨last, hlast, hlastpc⟩ := hlast
  have hreads : (run.append (hostInfo gate) scalar e').reads = t.cleanup.r.reads := by
    rw [append_reads ha hy hterminal, reads_cleanup, hr, hrun.reads]
  have hlastRead : (if (t.cleanup.r.reads : Int) ≠ 0 then (42 : Int) else 0) =
      t.cleanup.r.lastRead := by
    rw [lastRead_cleanup, reads_cleanup, hr, hquiet.lastRead]
    by_cases h0 : s.r.reads = 0 <;> simp [h0]
  have hscalar : (run.append (hostInfo gate) scalar e').scalar = t.cleanup.r.returned := by
    rw [append_scalar hstep hquiet, returned_cleanup]
  obtain ⟨hexplicit, hcleanup⟩ := effect_sums hv hvisit hexec hwf'
  have hroomc : t.cleanup.r.eventCount ≤ t.cleanup.r.events.length := by
    obtain ⟨hroomc, hslotsc⟩ := closing_room hv hvisit hexec
    rw [hslotsc]
    exact hroomc
  have hlen := hinvc.length_abs (terminalReason (edgeInsn e' scalar).op t.cleanup.r)
  obtain ⟨hstatus, htrap⟩ := terminal_words gate hstep hquiet
  have hstate : (run.append (hostInfo gate) scalar e').state =
      t.cleanup.abs (terminalReason (edgeInsn e' scalar).op t.cleanup.r) := htarget
  rw [resultWords_eq hinvc hroomc (terminalReason (edgeInsn e' scalar).op t.cleanup.r)]
  unfold expected
  have hcapacity : (hostInfo gate .acquisitions).toNat = 2 := by cases gate <;> rfl
  have hterm : (t.cleanup.abs (terminalReason (edgeInsn e' scalar).op t.cleanup.r)).terminal =
      terminalReason (edgeInsn e' scalar).op t.cleanup.r := rfl
  rw [hlast, hevents, hreads, hscalar, hstate]
  simp only [hterm, htrap, hstatus, hcapacity, hlastRead, hexplicit, hcleanup,
    hlastpc, hlen, Option.bind_eq_bind, Option.bind_some, List.append_assoc, pure]
  rfl

end Expected

end Cbpf.Conformance
