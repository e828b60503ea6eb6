import Cbpf.RunInvariant
import Cbpf.Lib.History

/-!
# The trace as a consume-once ledger

`Ledger` is the law the event log obeys together with the counters, the program and the result.
Each event is justified by the events before it (`EventOk`), and the counters are tallies of the
log (`Tally`). Both are kept by every pass and by every cleanup of a cell.
-/

namespace Cbpf

open BoundedLoop

/-- The events written so far. -/
def Result.trace (r : Result) : List Event := r.events.take r.eventCount

namespace Event

/-- A successful `ACQUIRE` step; a NULL acquisition carries token 0. -/
def isAcquire (e : Event) : Bool := e.kind == .step && e.op == .acquire && e.token != 0

/-- A `READ` step. -/
def isRead (e : Event) : Bool := e.kind == .step && e.op == .read

/-- A `RELEASE` step. -/
def isRelease (e : Event) : Bool := e.kind == .step && e.op == .release

/-- A `CLEANUP` event. -/
def isCleanup (e : Event) : Bool := e.kind == .cleanup

/-- A release effect, explicit or by cleanup. -/
def isEffect (e : Event) : Bool := e.isRelease || e.isCleanup

end Event

/-- The `pc` that the non-cleanup events `pre` lead to. -/
def nextPc (p : Nat → Insn) (pre : List Event) : Int :=
  match pre.getLast? with
  | none => 0
  | some e => if e.op = .brNull ∧ e.token = 0 then (p e.pc).imm else e.pc + 1

/-- What an event says in view of the events `pre` before it; `trap` is the result's trap. -/
structure EventOk (p : Nat → Insn) (trap : Trap) (pre : List Event) (e : Event) : Prop where
  flow : e.kind ≠ .cleanup → (e.pc : Int) = nextPc p pre ∧ e.op = (p e.pc).op
  /-- an `ACQUIRE` step has token 0 exactly for a requested NULL -/
  success : e.kind = .step → e.op = .acquire → (e.token = 0 ↔ (p e.pc).imm = 0)
  /-- a used token has been acquired and has not been released -/
  use : e.kind = .step → e.op = .read ∨ e.op = .release →
    (∃ a ∈ pre, a.isAcquire = true ∧ a.token = e.token) ∧
    ∀ b ∈ pre, b.isRelease = true → b.token ≠ e.token
  trapped : e.kind = .trapEvent →
    (trap = .stale → ∃ b ∈ pre, b.isRelease = true ∧ b.token = e.token) ∧
    (trap = .null → e.token = 0)
  refs : e.objectRefs = 1 + ((pre ++ [e]).countP Event.isAcquire : Int) -
    ((pre ++ [e]).countP Event.isEffect : Int)

/-- The counters of the result are counts of events. -/
structure Tally (r : Result) (log : List Event) : Prop where
  acquired : r.acquired = log.countP Event.isAcquire
  reads : r.reads = log.countP Event.isRead
  explicitReleases : r.explicitReleases = log.countP Event.isRelease
  cleanupReleases : r.cleanupReleases = log.countP Event.isCleanup
  explicitAt : ∀ i, r.explicitAt i = log.countP fun e => e.isRelease && e.token == i + 1
  cleanupAt : ∀ i, r.cleanupAt i = log.countP fun e => e.isCleanup && e.token == i + 1
  refs : r.objectRefs = 1 + (r.acquired : Int) - r.explicitReleases - r.cleanupReleases

/-- The consume-once law of a finished run. -/
structure Ledger (p : Nat → Insn) (r : Result) : Prop where
  /-- no event was dropped -/
  length : r.trace.length = r.eventCount
  /-- only the last non-cleanup event is a `RETURN` step or a trap, cleanup events follow it in the
  order of their tokens -/
  shape : ∃ steps last cleanups, r.trace = steps ++ last :: cleanups ∧
    (∀ e ∈ steps, e.kind = .step ∧ e.op ≠ .ret) ∧
    (last.kind = .step ∧ last.op = .ret ∨ last.kind = .trapEvent) ∧
    (∀ e ∈ cleanups, e.kind = .cleanup ∧ e.pc = r.pc) ∧
    (cleanups.map Event.token).Pairwise (· < ·)
  every : ∀ pre e post, r.trace = pre ++ e :: post → EventOk p r.trap pre e
  tokens : (r.trace.filter Event.isAcquire).map Event.token = (List.range r.acquired).map (· + 1)
  once : ∀ t, 1 ≤ t → t ≤ r.acquired →
    r.trace.countP (fun e => e.isEffect && e.token == t) = 1
  tally : Tally r r.trace

/-! ### Appending one event -/

theorem trace_record {r : Result} (hroom : r.eventCount < r.events.length) (kind : EventKind)
    (op : Opcode) (pc token : Nat) :
    (record r kind op pc token).trace = r.trace ++ [⟨kind, op, pc, token, r.objectRefs⟩] := by
  simp only [Result.trace, record]
  rw [List.take_add_one, List.getElem?_set_self hroom, List.take_set_of_le (Nat.le_refl _)]
  rfl

theorem countP_isEffect (log : List Event) :
    log.countP Event.isEffect = log.countP Event.isRelease + log.countP Event.isCleanup := by
  induction log with
  | nil => rfl
  | cons e log ih =>
    rw [List.countP_cons, List.countP_cons, List.countP_cons, ih]
    cases hk : e.kind <;> cases ho : e.op <;>
      simp [Event.isEffect, Event.isRelease, Event.isCleanup, hk, ho] <;> omega

theorem countP_effect_token (log : List Event) (t : Nat) :
    log.countP (fun e => e.isEffect && e.token == t) =
      log.countP (fun e => e.isRelease && e.token == t) +
      log.countP (fun e => e.isCleanup && e.token == t) := by
  induction log with
  | nil => rfl
  | cons e log ih =>
    rw [List.countP_cons, List.countP_cons, List.countP_cons, ih]
    cases hk : e.kind <;> cases ho : e.op <;> by_cases ht : e.token = t <;>
      simp [Event.isEffect, Event.isRelease, Event.isCleanup, hk, ho, ht] <;> omega

theorem countP_snoc (q : Event → Bool) (log : List Event) (e : Event) :
    (log ++ [e]).countP q = log.countP q + (q e).toNat := by
  rw [List.countP_append, List.countP_singleton]
  cases q e <;> rfl

/-- The counters follow one more event. -/
theorem Tally.snoc {r r' : Result} {log : List Event} {e : Event} (h : Tally r log)
    (hacquired : r'.acquired = r.acquired + e.isAcquire.toNat)
    (hreads : r'.reads = r.reads + e.isRead.toNat)
    (hexplicit : r'.explicitReleases = r.explicitReleases + e.isRelease.toNat)
    (hcleanup : r'.cleanupReleases = r.cleanupReleases + e.isCleanup.toNat)
    (hexplicitAt : ∀ i, r'.explicitAt i =
      r.explicitAt i + (e.isRelease && e.token == i + 1).toNat)
    (hcleanupAt : ∀ i, r'.cleanupAt i = r.cleanupAt i + (e.isCleanup && e.token == i + 1).toNat)
    (hrefs : r'.objectRefs + e.isEffect.toNat = r.objectRefs + e.isAcquire.toNat) :
    Tally r' (log ++ [e]) where
  acquired := by rw [hacquired, countP_snoc, h.acquired]
  reads := by rw [hreads, countP_snoc, h.reads]
  explicitReleases := by rw [hexplicit, countP_snoc, h.explicitReleases]
  cleanupReleases := by rw [hcleanup, countP_snoc, h.cleanupReleases]
  explicitAt := fun i => by rw [hexplicitAt, countP_snoc, h.explicitAt]
  cleanupAt := fun i => by rw [hcleanupAt, countP_snoc, h.cleanupAt]
  refs := by
    have heffect : e.isEffect.toNat = e.isRelease.toNat + e.isCleanup.toNat := by
      simpa [Bool.toNat, Bool.cond_eq_ite] using countP_isEffect [e]
    have := h.refs
    omega

/-- The reference count in an event, from the tally that includes it. -/
theorem Tally.refs_eq {r : Result} {log : List Event} (h : Tally r log) :
    r.objectRefs = 1 + (log.countP Event.isAcquire : Int) - (log.countP Event.isEffect : Int) := by
  have := h.refs
  have := h.acquired
  have := h.explicitReleases
  have := h.cleanupReleases
  have := countP_isEffect log
  omega

/-- The tokens of the acquisitions stay `1, 2, …` when a fresh one is next. -/
theorem tokens_snoc {log : List Event} {e : Event} {n : Nat}
    (h : (log.filter Event.isAcquire).map Event.token = (List.range n).map (· + 1))
    (he : e.isAcquire = true → e.token = n + 1) :
    ((log ++ [e]).filter Event.isAcquire).map Event.token =
      (List.range (n + e.isAcquire.toNat)).map (· + 1) := by
  rw [List.filter_append, List.map_append, h]
  cases ha : e.isAcquire with
  | false => simp [ha]
  | true => simp [ha, he ha, List.range_succ]

theorem nextPc_snoc (p : Nat → Insn) (log : List Event) (e : Event) :
    nextPc p (log ++ [e]) = if e.op = .brNull ∧ e.token = 0 then (p e.pc).imm else e.pc + 1 := by
  simp [nextPc]

namespace RunState

/-! ### The event of a pass -/

/-- `token` where a pass records its event. -/
def eventToken (s : RunState) (x : Insn) : Nat :=
  match x.op with
  | .acquire => if x.imm = 0 ∨ s.r.acquired = 2 then 0 else s.r.acquired + 1
  | .copy | .spill => s.reg x.src
  | .reload => s.slot x.src
  | .read | .release | .brNull => s.reg x.dst
  | .ret | .other _ => 0

/-- Whether the event of a pass is a step or a trap. -/
def eventKind : Control RunState → EventKind
  | .next _ => .step
  | .finish t => if t.r.status = .returned then .step else .trapEvent

/-- Every pass writes one event, at its own `pc`. -/
theorem Step.trace {s : RunState} {x : Insn} {c : Control RunState} (hs : Step s x c)
    (hroom : s.r.eventCount < s.r.events.length) :
    c.state.r.trace = s.r.trace ++
      [⟨eventKind c, x.op, s.pc, s.eventToken x, c.state.r.objectRefs⟩] := by
  have hrecord : ∀ {r : Result} {kind op token}, r.events = s.r.events →
      r.eventCount = s.r.eventCount → (record r kind op s.pc token).trace =
        s.r.trace ++ [⟨kind, op, s.pc, token, r.objectRefs⟩] := by
    intro r kind op token hevents hcount
    have hr : r.trace = s.r.trace := by rw [Result.trace, Result.trace, hevents, hcount]
    rw [← hr]
    exact trace_record (by rw [hevents, hcount]; exact hroom) kind op s.pc token
  cases hs with
  | acquireNull hop hi =>
    simp only [eventToken, hop, hi, true_or, if_true]
    exact hrecord rfl rfl
  | acquireFull hop _ ha =>
    simp only [eventToken, hop, ha, or_true, if_true]
    exact hrecord rfl rfl
  | acquire hop hi ha =>
    simp only [eventToken, hop, hi, ha, or_self, if_false]
    exact hrecord rfl rfl
  | copy hop =>
    simp only [eventToken, hop]
    exact hrecord rfl rfl
  | spill hop =>
    simp only [eventToken, hop]
    exact hrecord rfl rfl
  | reload hop =>
    simp only [eventToken, hop]
    exact hrecord rfl rfl
  | null hop ht =>
    have htoken : s.eventToken x = 0 := by
      rcases hop with hop | hop <;> simp only [eventToken, hop, ht]
    rw [htoken]
    exact hrecord rfl rfl
  | stale hop _ _ =>
    have htoken : s.eventToken x = s.reg x.dst := by
      rcases hop with hop | hop <;> simp only [eventToken, hop]
    rw [htoken]
    exact hrecord rfl rfl
  | read hop _ _ =>
    simp only [eventToken, hop]
    exact hrecord rfl rfl
  | release hop _ _ =>
    simp only [eventToken, hop]
    exact hrecord rfl rfl
  | branchTaken hop ht =>
    simp only [eventToken, hop, ht]
    exact hrecord rfl rfl
  | branchNot hop _ =>
    simp only [eventToken, hop]
    exact hrecord rfl rfl
  | ret hop =>
    simp only [eventToken, hop]
    exact hrecord rfl rfl

/-- The events of the cleanup loop, cell by cell, from reference count `refs`. -/
def cleanupEvents (pc : Nat) (isLive : Nat → Bool) : List Nat → Int → List Event
  | [], _ => []
  | i :: cells, refs =>
    if isLive i then
      ⟨.cleanup, .release, pc, i + 1, refs - 1⟩ :: cleanupEvents pc isLive cells (refs - 1)
    else cleanupEvents pc isLive cells refs

theorem cleanupEvents_congr {pc : Nat} {f g : Nat → Bool} {l : List Nat} (h : ∀ i ∈ l, f i = g i)
    (refs : Int) : cleanupEvents pc f l refs = cleanupEvents pc g l refs := by
  induction l generalizing refs with
  | nil => rfl
  | cons i l ih =>
    have hl : ∀ j ∈ l, f j = g j := fun j hj => h j (List.mem_cons_of_mem i hj)
    rw [cleanupEvents, cleanupEvents, h i List.mem_cons_self, ih hl, ih hl]

theorem kind_of_mem_cleanupEvents {pc : Nat} {isLive : Nat → Bool} {l : List Nat} {refs : Int}
    {e : Event} (h : e ∈ cleanupEvents pc isLive l refs) : e.kind = .cleanup := by
  induction l generalizing refs with
  | nil => cases h
  | cons i l ih =>
    rw [cleanupEvents] at h
    split at h
    · rcases List.mem_cons.mp h with rfl | h
      · rfl
      · exact ih h
    · exact ih h

/-- Cleaning up a live cell writes its event. -/
theorem trace_cleanupCell {s : RunState} {i : Nat} (hl : s.isLive i = true)
    (hroom : s.r.eventCount < s.r.events.length) :
    (Cbpf.cleanupCell s i).r.trace =
      s.r.trace ++ [⟨.cleanup, .release, s.r.pc, i + 1, s.r.objectRefs - 1⟩] := by
  rw [cleanupCell_live hl]
  exact trace_record (r := { s.r with
    objectRefs := s.r.objectRefs - 1
    cleanupReleases := s.r.cleanupReleases + 1
    cleanupByCell := bump s.r.cleanupByCell i }) hroom .cleanup .release s.r.pc (i + 1)

theorem trace_foldl_cleanupCell (s : RunState) (l : List Nat) (hl : l.Nodup)
    (hroom : s.r.eventCount + l.length ≤ s.r.events.length) :
    (l.foldl Cbpf.cleanupCell s).r.trace =
      s.r.trace ++ cleanupEvents s.r.pc s.isLive l s.r.objectRefs := by
  induction l generalizing s with
  | nil => rw [List.foldl_nil, cleanupEvents, List.append_nil]
  | cons i l ih =>
    obtain ⟨hi, hnodup⟩ := List.nodup_cons.mp hl
    rw [List.length_cons] at hroom
    rw [List.foldl_cons, cleanupEvents]
    cases hlive : s.isLive i with
    | false =>
      rw [cleanupCell_dead hlive, ih s hnodup (by omega)]
      rfl
    | true =>
      have hrest := ih (Cbpf.cleanupCell s i) hnodup (by
        rw [cleanupCell_live hlive]
        change s.r.eventCount + 1 + l.length ≤ (s.r.events.set _ _).length
        rw [List.length_set]
        omega)
      rw [hrest, trace_cleanupCell hlive (by omega), List.append_assoc]
      have hpc : (Cbpf.cleanupCell s i).r.pc = s.r.pc := by
        rw [cleanupCell_live hlive]
        rfl
      have hrefs : (Cbpf.cleanupCell s i).r.objectRefs = s.r.objectRefs - 1 := by
        rw [cleanupCell_live hlive]
        rfl
      rw [hpc, hrefs, cleanupEvents_congr (g := s.isLive)]
      · rfl
      · intro j hj
        rw [isLive_cleanupCell, if_neg]
        rintro rfl
        exact hi hj

/-- The cleanup loop appends one event for each live cell, in order. -/
theorem trace_cleanup {s : RunState} (hroom : s.r.eventCount + s.r.acquired ≤ s.r.events.length) :
    s.cleanup.r.trace = s.r.trace ++
      cleanupEvents s.r.pc s.isLive (List.range s.r.acquired) s.r.objectRefs :=
  trace_foldl_cleanupCell s (List.range s.r.acquired) List.nodup_range
    (by rwa [List.length_range])

/-! ### The passes -/

/-- The log at a test of the loop guard. -/
structure Logged (p : Nat → Insn) (s : RunState) : Prop where
  slots : s.r.events.length = 66
  /-- each pass writes one event and raises `pc` -/
  room : s.r.eventCount ≤ s.pc
  tally : Tally s.r s.r.trace
  steps : ∀ e ∈ s.r.trace, e.kind = .step ∧ e.op ≠ .ret
  tokens : (s.r.trace.filter Event.isAcquire).map Event.token =
    (List.range s.r.acquired).map (· + 1)
  every : ∀ trap, History (EventOk p trap) s.r.trace
  next : (s.pc : Int) = nextPc p s.r.trace

theorem logged_init (p : Nat → Insn) : Logged p init where
  slots := rfl
  room := Nat.le_refl _
  tally := ⟨rfl, rfl, rfl, rfl, (inv_init.fresh · (Nat.zero_le _) |>.2.1),
    (inv_init.fresh · (Nat.zero_le _) |>.2.2), rfl⟩
  steps := by simp [Result.trace, init, Result.zero]
  tokens := rfl
  every := fun _ => .nil
  next := rfl

namespace Logged

variable {p : Nat → Insn} {s : RunState}

/-- A token of the state has its acquisition in the log. -/
theorem exists_acquire (h : Logged p s) {t : Nat} (ht : t ≠ 0) (hle : t ≤ s.r.acquired) :
    ∃ a ∈ s.r.trace, a.isAcquire = true ∧ a.token = t := by
  have hmem : t ∈ (s.r.trace.filter Event.isAcquire).map Event.token := by
    rw [h.tokens, List.mem_map]
    exact ⟨t - 1, List.mem_range.mpr (by omega), by omega⟩
  obtain ⟨a, ha, htoken⟩ := List.mem_map.mp hmem
  exact ⟨a, (List.mem_filter.mp ha).1, (List.mem_filter.mp ha).2, htoken⟩

/-- A live token has not been released. -/
theorem not_released (h : Logged p s) (hinv : Inv s) {t : Nat} (ht : t ≠ 0)
    (hl : s.isLive (t - 1) = true) : ∀ b ∈ s.r.trace, b.isRelease = true → b.token ≠ t := by
  have hcell := hinv.cells (t - 1) (hinv.lt_acquired hl)
  have hcount := h.tally.explicitAt (t - 1)
  rw [hl, if_pos rfl] at hcell
  have hzero : s.r.trace.countP (fun e => e.isRelease && e.token == t - 1 + 1) = 0 := by omega
  rw [List.countP_eq_zero] at hzero
  intro b hb hrel htoken
  refine hzero b hb ?_
  simp only [hrel, htoken, Bool.true_and, beq_iff_eq]
  omega

/-- A consumed token has been released, since nothing is cleaned up before the last pass. -/
theorem exists_release (h : Logged p s) (hinv : Inv s) {t : Nat} (ht : t ≠ 0)
    (hle : t ≤ s.r.acquired) (hl : s.isLive (t - 1) = false) :
    ∃ b ∈ s.r.trace, b.isRelease = true ∧ b.token = t := by
  have hcell := hinv.cells (t - 1) (by omega)
  have hexplicit := h.tally.explicitAt (t - 1)
  have hcleanup := h.tally.cleanupAt (t - 1)
  have hnone : s.r.trace.countP (fun e => e.isCleanup && e.token == t - 1 + 1) = 0 := by
    rw [List.countP_eq_zero]
    intro b hb
    simp [Event.isCleanup, (h.steps b hb).1]
  rw [hl] at hcell
  simp only [Bool.false_eq_true, if_false] at hcell
  have hpos : 0 < s.r.trace.countP (fun e => e.isRelease && e.token == t - 1 + 1) := by omega
  obtain ⟨b, hb, hrel⟩ := List.countP_pos_iff.mp hpos
  simp only [Bool.and_eq_true, beq_iff_eq] at hrel
  exact ⟨b, hb, hrel.1, by omega⟩

/-- The end of a pass that goes on, for any state `u` that only its effect separates from `s`. -/
theorem stepTo (h : Logged p s) {u : RunState} {op : Opcode} {token next : Nat}
    (hevents : u.r.events = s.r.events) (hcount : u.r.eventCount = s.r.eventCount)
    (hupc : u.pc = s.pc) (hpc : s.pc < 64) (hop : op = (p s.pc).op) (hret : op ≠ .ret)
    (hlt : s.pc < next)
    (hnext : (next : Int) = if op = .brNull ∧ token = 0 then (p s.pc).imm else s.pc + 1)
    (htally : Tally u.r (s.r.trace ++ [⟨.step, op, s.pc, token, u.r.objectRefs⟩]))
    (hfresh : op = .acquire → token ≠ 0 → token = s.r.acquired + 1)
    (hsuccess : op = .acquire → (token = 0 ↔ (p s.pc).imm = 0))
    (huse : op = .read ∨ op = .release →
      (∃ a ∈ s.r.trace, a.isAcquire = true ∧ a.token = token) ∧
      ∀ b ∈ s.r.trace, b.isRelease = true → b.token ≠ token) :
    Logged p (u.stepTo op token next) := by
  have hroom : u.r.eventCount < u.r.events.length := by
    rw [hevents, hcount, h.slots]
    have := h.room
    omega
  have hutrace : u.r.trace = s.r.trace := by rw [Result.trace, Result.trace, hevents, hcount]
  have htrace : (u.stepTo op token next).r.trace =
      s.r.trace ++ [⟨.step, op, s.pc, token, u.r.objectRefs⟩] := by
    rw [← hutrace, ← hupc]
    exact trace_record hroom .step op u.pc token
  have hacquired : u.r.acquired = s.r.acquired +
      (Event.isAcquire ⟨.step, op, s.pc, token, u.r.objectRefs⟩).toNat := by
    rw [htally.acquired, countP_snoc, h.tally.acquired]
  refine {
    slots := by simpa [RunState.stepTo, record, hevents] using h.slots
    room := ?_
    tally := ?_
    steps := ?_
    tokens := ?_
    every := ?_
    next := ?_ }
  · have := h.room
    change u.r.eventCount + 1 ≤ next
    omega
  · rw [htrace]
    exact ⟨htally.1, htally.2, htally.3, htally.4, htally.5, htally.6, htally.7⟩
  · rw [htrace]
    intro e he
    rcases List.mem_append.mp he with he | he
    · exact h.steps e he
    · obtain rfl := List.mem_singleton.mp he
      exact ⟨rfl, hret⟩
  · rw [htrace, show (u.stepTo op token next).r.acquired = _ from hacquired]
    refine tokens_snoc h.tokens fun ha => ?_
    simp only [Event.isAcquire, Bool.and_eq_true, beq_iff_eq, bne_iff_ne] at ha
    exact hfresh ha.1.2 ha.2
  · intro trap
    rw [htrace]
    exact (h.every trap).snoc {
      flow := fun _ => ⟨h.next, hop⟩
      success := fun _ => hsuccess
      use := fun _ => huse
      trapped := fun hk => by cases hk
      refs := htally.refs_eq }
  · rw [htrace, nextPc_snoc]
    exact hnext

/-- Every pass that goes on keeps the log. -/
theorem step (h : Logged p s) (hinv : Inv s) {t : RunState} {n : Nat} (hv : Validated p n)
    (hpc : s.pc < n) (hs : Step s (p s.pc) (.next t)) : Logged p t := by
  have hpc64 : s.pc < 64 := Nat.lt_of_lt_of_le hpc hv.le
  have hok := hv.ok s.pc hpc
  have htally := h.tally
  generalize hc : Control.next t = c at hs
  cases hs with
  | acquireNull hop hi =>
    obtain rfl := Control.next.inj hc
    exact h.stepTo rfl rfl rfl hpc64 hop.symm (by simp) (Nat.lt_succ_self _) (by simp)
      (htally.snoc rfl rfl rfl rfl (fun _ => rfl) (fun _ => rfl) rfl) (by simp) (by simp [hi])
      (by simp)
  | acquire hop hi hne =>
    obtain rfl := Control.next.inj hc
    refine h.stepTo rfl rfl rfl hpc64 hop.symm (by simp) (Nat.lt_succ_self _) (by simp)
      (htally.snoc rfl rfl rfl rfl (fun _ => rfl) (fun _ => rfl) ?_) (by simp) (by simp [hi])
      (by simp)
    exact Int.add_zero _
  | copy hop =>
    obtain rfl := Control.next.inj hc
    exact h.stepTo rfl rfl rfl hpc64 hop.symm (by simp) (Nat.lt_succ_self _) (by simp)
      (htally.snoc rfl rfl rfl rfl (fun _ => rfl) (fun _ => rfl) rfl) (by simp) (by simp) (by simp)
  | spill hop =>
    obtain rfl := Control.next.inj hc
    exact h.stepTo rfl rfl rfl hpc64 hop.symm (by simp) (Nat.lt_succ_self _) (by simp)
      (htally.snoc rfl rfl rfl rfl (fun _ => rfl) (fun _ => rfl) rfl) (by simp) (by simp) (by simp)
  | reload hop =>
    obtain rfl := Control.next.inj hc
    exact h.stepTo rfl rfl rfl hpc64 hop.symm (by simp) (Nat.lt_succ_self _) (by simp)
      (htally.snoc rfl rfl rfl rfl (fun _ => rfl) (fun _ => rfl) rfl) (by simp) (by simp) (by simp)
  | read hop ht hl =>
    obtain rfl := Control.next.inj hc
    exact h.stepTo rfl rfl rfl hpc64 hop.symm (by simp) (Nat.lt_succ_self _) (by simp)
      (htally.snoc rfl rfl rfl rfl (fun _ => rfl) (fun _ => rfl) rfl) (by simp) (by simp)
      fun _ => ⟨h.exists_acquire ht (hinv.reg_le _), h.not_released hinv ht hl⟩
  | release hop ht hl =>
    obtain rfl := Control.next.inj hc
    refine h.stepTo rfl rfl rfl hpc64 hop.symm (by simp) (Nat.lt_succ_self _) (by simp)
      (htally.snoc rfl rfl rfl rfl (fun i => ?_) (fun _ => rfl) ?_) (by simp) (by simp)
      fun _ => ⟨h.exists_acquire ht (hinv.reg_le _), h.not_released hinv ht hl⟩
    · have hlt : s.reg (p s.pc).dst - 1 < s.enter.r.explicitByCell.length := by
        have := hinv.lt_acquired hl
        have := hinv.acquired_le
        change _ < s.r.explicitByCell.length
        rw [hinv.explicit_length]
        omega
      rw [explicitAt_release s.enter _ i hlt]
      change _ = s.r.explicitAt i + (s.reg (p s.pc).dst == i + 1).toNat
      change (if i = _ then s.r.explicitAt i + 1 else s.r.explicitAt i) = _
      by_cases hi : i = s.reg (p s.pc).dst - 1
      · have htoken : s.reg (p s.pc).dst = i + 1 := by omega
        rw [if_pos hi, htoken, beq_self_eq_true]
        rfl
      · have htoken : (s.reg (p s.pc).dst == i + 1) = false := by
          rw [beq_eq_false_iff_ne]
          omega
        rw [if_neg hi, htoken]
        rfl
    · change s.r.objectRefs - 1 + ((1 : Nat) : Int) = s.r.objectRefs + ((0 : Nat) : Int)
      omega
  | branchTaken hop ht =>
    obtain rfl := Control.next.inj hc
    obtain ⟨_, hlo, hhi⟩ := insnOk_brNull hok hop
    obtain ⟨heq, hlt, _⟩ := sizeOfInt_of_lt hlo hhi hv.le
    exact h.stepTo rfl rfl rfl hpc64 hop.symm (by simp) hlt (by simp [heq])
      (htally.snoc rfl rfl rfl rfl (fun _ => rfl) (fun _ => rfl) rfl) (by simp) (by simp) (by simp)
  | branchNot hop ht =>
    obtain rfl := Control.next.inj hc
    exact h.stepTo rfl rfl rfl hpc64 hop.symm (by simp) (Nat.lt_succ_self _) (by simp [ht])
      (htally.snoc rfl rfl rfl rfl (fun _ => rfl) (fun _ => rfl) rfl) (by simp) (by simp) (by simp)
  | _ => cases hc

end Logged

theorem visits_logged {p : Nat → Insn} {n : Nat} (hv : Validated p n) {s : RunState}
    (h : (cbpfRunLoop p n).Visits init s) : Logged p s := by
  induction h with
  | start => exact logged_init p
  | @pass a b hvisit _ hb ih =>
    obtain ⟨hinv, hpc⟩ := visits_inv hv hvisit
    exact ih.step hinv hv hpc (visits_step hv hvisit hb)

/-! ### The last pass -/

/-- The log after the last pass and through the cleanup loop: `body` ends in the last pass's event
and `cells` are the cells cleaned up since. -/
structure Closing (p : Nat → Insn) (body : List Event) (cells : List Nat) (s : RunState) : Prop where
  slots : s.r.events.length = 66
  room : s.r.eventCount ≤ 64 + cells.length
  tally : Tally s.r s.r.trace
  tokens : (s.r.trace.filter Event.isAcquire).map Event.token =
    (List.range s.r.acquired).map (· + 1)
  every : History (EventOk p s.r.trap) s.r.trace
  split : ∃ cleanups, s.r.trace = body ++ cleanups ∧
    (∀ e ∈ cleanups, e.kind = .cleanup ∧ e.pc = s.r.pc) ∧
    cleanups.map Event.token = cells.map (· + 1)

/-- The end of the last pass, whatever it set in the result besides. -/
theorem Logged.close {p : Nat → Insn} {s t : RunState} {r : Result} {kind : EventKind} {op : Opcode}
    {token : Nat} (h : Logged p s) (hpc : s.pc < 64) (ht : t.r = record r kind op s.pc token)
    (hevents : r.events = s.r.events) (hcount : r.eventCount = s.r.eventCount)
    (hop : op = (p s.pc).op) (hkind : kind = .step ∧ op = .ret ∨ kind = .trapEvent)
    (htally : Tally r (s.r.trace ++ [⟨kind, op, s.pc, token, r.objectRefs⟩]))
    (hacquired : r.acquired = s.r.acquired)
    (htrap : kind = .trapEvent →
      (r.trap = .stale → ∃ b ∈ s.r.trace, b.isRelease = true ∧ b.token = token) ∧
      (r.trap = .null → token = 0)) :
    Closing p (s.r.trace ++ [⟨kind, op, s.pc, token, r.objectRefs⟩]) [] t := by
  have hroom : r.eventCount < r.events.length := by
    rw [hevents, hcount, h.slots]
    have := h.room
    omega
  have htrace : t.r.trace = s.r.trace ++ [⟨kind, op, s.pc, token, r.objectRefs⟩] := by
    have hrtrace : r.trace = s.r.trace := by rw [Result.trace, Result.trace, hevents, hcount]
    rw [ht, ← hrtrace]
    exact trace_record hroom kind op s.pc token
  have hquiet : Event.isAcquire ⟨kind, op, s.pc, token, r.objectRefs⟩ = false := by
    rcases hkind with ⟨rfl, rfl⟩ | rfl <;> rfl
  refine {
    slots := by simpa [ht, record, hevents] using h.slots
    room := ?_
    tally := ?_
    tokens := ?_
    every := ?_
    split := ⟨[], by simpa using htrace, by simp, rfl⟩ }
  · have := h.room
    rw [ht]
    change r.eventCount + 1 ≤ 64
    omega
  · rw [htrace, ht]
    exact ⟨htally.1, htally.2, htally.3, htally.4, htally.5, htally.6, htally.7⟩
  · have htokens := tokens_snoc (e := ⟨kind, op, s.pc, token, r.objectRefs⟩) h.tokens
      (by simp [hquiet])
    rw [hquiet] at htokens
    rw [htrace, htokens, ht]
    simp [record, hacquired]
  · rw [htrace, ht]
    exact (h.every r.trap).snoc {
      flow := fun _ => ⟨h.next, hop⟩
      success := by
        intro hk ho
        rcases hkind with ⟨_, rfl⟩ | rfl
        · cases ho
        · cases hk
      use := by
        intro hk ho
        rcases hkind with ⟨_, rfl⟩ | rfl
        · rcases ho with ho | ho <;> cases ho
        · cases hk
      trapped := htrap
      refs := htally.refs_eq }

/-- Every last pass closes the log with a `RETURN` step or a trap. -/
theorem Logged.finish {p : Nat → Insn} {s t : RunState} (h : Logged p s) (hinv : Inv s)
    (hpc : s.pc < 64) (hs : Step s (p s.pc) (.finish t)) :
    ∃ last, (last.kind = .step ∧ last.op = .ret ∨ last.kind = .trapEvent) ∧
      Closing p (s.r.trace ++ [last]) [] t := by
  have htally := h.tally
  generalize hc : Control.finish t = c at hs
  cases hs with
  | acquireFull hop _ _ =>
    obtain rfl := Control.finish.inj hc
    exact ⟨_, .inr rfl, h.close hpc rfl rfl rfl hop.symm (.inr rfl)
      (htally.snoc rfl rfl rfl rfl (fun _ => rfl) (fun _ => rfl) rfl) rfl
      fun _ => ⟨nofun, nofun⟩⟩
  | null hop ht =>
    obtain rfl := Control.finish.inj hc
    exact ⟨_, .inr rfl, h.close hpc rfl rfl rfl rfl (.inr rfl)
      (htally.snoc rfl rfl rfl rfl (fun _ => rfl) (fun _ => rfl) rfl) rfl
      fun _ => ⟨nofun, fun _ => rfl⟩⟩
  | stale hop ht hl =>
    obtain rfl := Control.finish.inj hc
    exact ⟨_, .inr rfl, h.close hpc rfl rfl rfl rfl (.inr rfl)
      (htally.snoc rfl rfl rfl rfl (fun _ => rfl) (fun _ => rfl) rfl) rfl
      fun _ => ⟨fun _ => h.exists_release hinv ht (hinv.reg_le _) hl, nofun⟩⟩
  | ret hop =>
    obtain rfl := Control.finish.inj hc
    exact ⟨_, .inl ⟨rfl, rfl⟩, h.close hpc rfl rfl rfl hop.symm (.inl ⟨rfl, rfl⟩)
      (htally.snoc rfl rfl rfl rfl (fun _ => rfl) (fun _ => rfl) rfl) rfl
      fun hk => by cases hk⟩
  | _ => cases hc

/-! ### The cleanup loop -/

/-- Cleaning up a live cell appends its event. -/
theorem Closing.cleanupCell {p : Nat → Insn} {body : List Event} {cells : List Nat} {s : RunState}
    (h : Closing p body cells s) (hinv : Inv s) (hcells : cells.length < 2) {i : Nat}
    (hl : s.isLive i = true) : Closing p body (cells ++ [i]) (Cbpf.cleanupCell s i) := by
  obtain ⟨cleanups, hsplit, hkinds, htokens⟩ := h.split
  have hlt : i < s.r.cleanupByCell.length := by
    rw [hinv.cleanup_length]
    exact Nat.lt_of_lt_of_le (hinv.lt_acquired hl) hinv.acquired_le
  have hroom : s.r.eventCount < s.r.events.length := by
    rw [h.slots]
    have := h.room
    omega
  have htrace : (Cbpf.cleanupCell s i).r.trace = s.r.trace ++
      [⟨.cleanup, .release, s.r.pc, i + 1, s.r.objectRefs - 1⟩] := trace_cleanupCell hl hroom
  have hcleanupAt := cleanupAt_cleanupCell hl hlt
  have htally : Tally (Cbpf.cleanupCell s i).r (Cbpf.cleanupCell s i).r.trace := by
    rw [htrace]
    rw [cleanupCell_live hl] at hcleanupAt ⊢
    refine h.tally.snoc rfl rfl rfl rfl (fun _ => rfl) (fun j => ?_) ?_
    · rw [hcleanupAt j]
      by_cases hji : j = i
      · subst hji
        rw [if_pos rfl, show (Event.isCleanup ⟨.cleanup, .release, s.r.pc, j + 1,
          s.r.objectRefs - 1⟩ && (j + 1 == j + 1)) = true by simp [Event.isCleanup]]
        rfl
      · rw [if_neg hji, show (Event.isCleanup ⟨.cleanup, .release, s.r.pc, i + 1,
          s.r.objectRefs - 1⟩ && (i + 1 == j + 1)) = false by simp [Ne.symm hji]]
        rfl
    · change s.r.objectRefs - 1 + ((1 : Nat) : Int) = s.r.objectRefs + ((0 : Nat) : Int)
      omega
  have hpc : (Cbpf.cleanupCell s i).r.pc = s.r.pc := by
    rw [cleanupCell_live hl]
    rfl
  have htrap : (Cbpf.cleanupCell s i).r.trap = s.r.trap := by
    rw [cleanupCell_live hl]
    rfl
  have hrefs : (Cbpf.cleanupCell s i).r.objectRefs = s.r.objectRefs - 1 := by
    rw [cleanupCell_live hl]
    rfl
  refine {
    slots := by simpa [cleanupCell_live hl, record] using h.slots
    room := ?_
    tally := htally
    tokens := ?_
    every := ?_
    split := ?_ }
  · have := h.room
    rw [cleanupCell_live hl, List.length_append, List.length_singleton]
    change s.r.eventCount + 1 ≤ _
    omega
  · rw [htrace, acquired_cleanupCell]
    exact tokens_snoc h.tokens fun ha => by cases ha
  · rw [htrap, htrace]
    refine h.every.snoc {
      flow := fun hk => absurd rfl hk
      success := fun hk => by cases hk
      use := fun hk => by cases hk
      trapped := fun hk => by cases hk
      refs := ?_ }
    have hafter := htally.refs_eq
    rw [htrace, hrefs] at hafter
    exact hafter
  · refine ⟨cleanups ++ [⟨.cleanup, .release, s.r.pc, i + 1, s.r.objectRefs - 1⟩], ?_, ?_, ?_⟩
    · rw [htrace, hsplit, List.append_assoc]
    · intro e he
      rw [hpc]
      rcases List.mem_append.mp he with he | he
      · exact hkinds e he
      · obtain rfl := List.mem_singleton.mp he
        exact ⟨rfl, rfl⟩
    · rw [List.map_append, htokens, List.map_append]
      rfl

/-- The cleanup loop visits the cells in order and leaves out the dead ones. -/
theorem Closing.foldl {p : Nat → Insn} {body : List Event} {s : RunState}
    (h : Closing p body [] s) (hinv : Inv s) (k : Nat) (hk : k ≤ s.r.acquired) :
    Inv ((List.range k).foldl Cbpf.cleanupCell s) ∧
    (∀ i, k ≤ i → ((List.range k).foldl Cbpf.cleanupCell s).isLive i = s.isLive i) ∧
    Closing p body ((List.range k).filter s.isLive) ((List.range k).foldl Cbpf.cleanupCell s) := by
  induction k with
  | zero => exact ⟨hinv, fun _ _ => rfl, h⟩
  | succ k ih =>
    obtain ⟨hinv', hlive, hclose⟩ := ih (Nat.le_of_succ_le hk)
    have hlen : ((List.range k).filter s.isLive).length < 2 := by
      have hle := List.length_filter_le s.isLive (List.range k)
      have := hinv.acquired_le
      rw [List.length_range] at hle
      omega
    rw [List.range_succ, List.foldl_append, List.filter_append]
    refine ⟨hinv'.cleanupCell k, fun i hi => ?_, ?_⟩
    · change (Cbpf.cleanupCell _ k).isLive i = _
      rw [isLive_cleanupCell, if_neg (by omega), hlive i (by omega)]
    · have hk' := hlive k (Nat.le_refl k)
      cases hl : s.isLive k with
      | false =>
        change Closing p body _ (Cbpf.cleanupCell _ k)
        rw [cleanupCell_dead (hk'.trans hl)]
        simpa [hl] using hclose
      | true =>
        have := hclose.cleanupCell hinv' hlen (hk'.trans hl)
        simpa [hl] using this

/-- The log of a finished run. -/
theorem closing_cleanup {p : Nat → Insn} {n : Nat} (hv : Validated p n) {s t : RunState}
    (hvisit : (cbpfRunLoop p n).Visits init s) (hexec : s.exec (p s.pc) = .finish t) :
    ∃ last, (last.kind = .step ∧ last.op = .ret ∨ last.kind = .trapEvent) ∧ Inv t.cleanup ∧
      Closing p (s.r.trace ++ [last]) ((List.range t.r.acquired).filter t.isLive) t.cleanup := by
  obtain ⟨hinv, hpc⟩ := visits_inv hv hvisit
  have hstep := finish_step hv hvisit hexec
  obtain ⟨last, hlast, hclosing⟩ :=
    (visits_logged hv hvisit).finish hinv (Nat.lt_of_lt_of_le hpc hv.le) hstep
  obtain ⟨hinvc, _, hclose⟩ := hclosing.foldl (hinv.step hstep) t.r.acquired (Nat.le_refl _)
  exact ⟨last, hlast, hinvc, hclose⟩

end RunState

open RunState in
/-- The trace of every valid program is a consume-once ledger. -/
theorem cbpfRun_ledger (p : InsnPtr) (n : Nat) (hvalid : cbpfValidate p n = .ok ()) :
    ∃ r, cbpfRun p n = some r ∧ Ledger p.deref r := by
  have hv := validated_of_cbpfValidate hvalid
  obtain ⟨s, t, hvisit, hexec, hrun⟩ := run_finish hvalid
  refine ⟨t.cleanup.r, hrun, ?_⟩
  have hlog := visits_logged hv hvisit
  have hinvt : Inv t := (visits_inv hv hvisit).1.step (finish_step hv hvisit hexec)
  obtain ⟨last, hlast, hinvc, hclose⟩ := closing_cleanup hv hvisit hexec
  obtain ⟨cleanups, htrace, hkinds, htokens⟩ := hclose.split
  refine {
    length := ?_
    shape := ⟨s.r.trace, last, cleanups, by simpa using htrace, hlog.steps, hlast, hkinds, ?_⟩
    every := fun pre e post hsplit => (hsplit ▸ hclose.every).split
    tokens := hclose.tokens
    once := ?_
    tally := hclose.tally }
  · rw [Result.trace, List.length_take, hclose.slots]
    have hle := List.length_filter_le t.isLive (List.range t.r.acquired)
    have := hclose.room
    have := hinvt.acquired_le
    rw [List.length_range] at hle
    omega
  · rw [htokens, List.pairwise_map]
    exact (List.pairwise_lt_range.sublist List.filter_sublist).imp (Nat.succ_lt_succ ·)
  · intro t' hpos hle
    have hcell := hinvc.cells (t' - 1) (by omega)
    rw [hinvt.isLive_cleanup] at hcell
    rw [countP_effect_token]
    have hexplicit := hclose.tally.explicitAt (t' - 1)
    have hcleanup := hclose.tally.cleanupAt (t' - 1)
    rw [show t' - 1 + 1 = t' by omega] at hexplicit hcleanup
    simp only [Bool.false_eq_true, if_false] at hcell
    omega

/-- Two acquisitions, one released through a reloaded alias, and a third acquisition that traps;
cleanup consumes the other one. -/
def exhaustedAcquire : List Insn :=
  [⟨.acquire, 0, 0, 1⟩, ⟨.spill, 1, 0, 0⟩, ⟨.acquire, 0, 0, 1⟩, ⟨.reload, 3, 1, 0⟩,
    ⟨.read, 3, 0, 0⟩, ⟨.release, 3, 0, 0⟩, ⟨.acquire, 2, 0, 1⟩, ⟨.ret, 0, 0, 7⟩]

theorem cbpfRun_ledger_exhaustedAcquire :
    ∃ r, cbpfRun (InsnPtr.ofList exhaustedAcquire) 8 = some r ∧
      Ledger (InsnPtr.ofList exhaustedAcquire).deref r :=
  cbpfRun_ledger (InsnPtr.ofList exhaustedAcquire) 8 (by decide)

end Cbpf
