import Cbpf.Conformance.Histories
import Cbpf.Lib.Worklist

/-!
# The conformance check (`theory/check_conformance.py:127-214`)

`check` replays one history for each abstract state in the host and compares every edge that leaves
it, a NULL branch on each register, and four scalar returns. It is written for any host, which is a
table of constants and an answer to each program; exceptions are `none`.
-/

namespace Cbpf.Conformance

open Model

/-- `Host`, after its constructor: `info` and `observe`. -/
structure Host where
  info : InfoName → Int
  observe : List InsnRow → Option (List Int)

/-- The host over a build of the adapter. -/
def Host.built (pointerBytes : Nat) (gate : Bool) : Host where
  info := hostInfo gate
  observe := Conformance.observe (builtOver pointerBytes gate) (hostInfo gate)

/-- `require_match`. -/
def requireMatch (host : Host) (code : List InsnRow) (run : Replay) : Option Unit := do
  let actual ← host.observe code
  let wanted ← expected host.info run
  if actual = wanted then some () else none

/-- What `branch_case` returns. -/
inductive Branch where
  | consumed | live | null
  deriving DecidableEq, Repr

/-- The program of `branch_case`: separate scalar exits make the branch direction observable. -/
def branchCode (ids : InfoName → Int) (run : Replay) (register : Nat) : List InsnRow :=
  run.code ++ [⟨ids .brNull, register, 0, run.code.length + 2⟩, ⟨ids .finish, 0, 0, -17⟩,
    ⟨ids .finish, 0, 0, 23⟩]

/-- `branched`. -/
def branched (ids : InfoName → Int) (run : Replay) (register : Nat) : Replay where
  state := run.state
  code := (branchCode ids run register).take
    (run.code.length + if run.state.reg register = 0 then 2 else 1)
  events := run.events ++ [⟨ids .step, ids .brNull, run.code.length, run.state.reg register,
    run.state.refcount⟩]
  reads := run.reads
  scalar := 0

/-- `"null" if taken else "live" if run.state.live[token - 1] else "consumed"`. -/
def branchOf (s : State) (register : Nat) : Branch :=
  let token := s.reg register
  if token = 0 then .null else if s.liveAt (State.index token) then .live else .consumed

/-- The scalar of the exit that is taken. -/
def branchScalar (s : State) (register : Nat) : Int := if s.reg register = 0 then 23 else -17

/-- `branch_case`. -/
def branchCase (host : Host) (run : Replay) (register : Nat) : Option Branch := do
  let completed ← appendEdge host.info (branchScalar run.state register)
    (branched host.info run register) (finishEdge run.state)
  requireMatch host (branchCode host.info run register) completed
  return branchOf run.state register

/-- The variables of `check`, apart from `queue` and `seen`. -/
structure Tally where
  activeStates : Nat
  terminalStates : Finset State
  edgeCount : Nat
  maxLength : Nat
  branches : Branch → Nat
  observations : Terminal → Nat

def Tally.zero : Tally := ⟨0, ∅, 0, 0, fun _ => 0, fun _ => 0⟩

/-- `counter[x] += 1`. -/
def bump {α : Type} [DecidableEq α] (counter : α → Nat) (x : α) : α → Nat :=
  Function.update counter x (counter x + 1)

/-- One pass of `for edge in transitions(...)`, apart from the queue. -/
def visitEdge (host : Host) (run : Replay) (e : Edge) (t : Tally) : Option Tally := do
  let successor ← appendEdge host.info 7 run e
  let completed ← complete host.info 7 successor
  let code := observedCode host.info completed
  requireMatch host code completed
  return { t with
    edgeCount := t.edgeCount + 1
    observations := bump t.observations completed.state.terminal
    maxLength := max t.maxLength code.length
    terminalStates :=
      if successor.state.terminal ≠ .active then insert successor.state t.terminalStates
      else t.terminalStates }

/-- One pass of `for register in range(ids["registers"])`. -/
def visitRegister (host : Host) (run : Replay) (t : Tally) (register : Nat) : Option Tally := do
  let branch ← branchCase host run register
  return { t with
    branches := bump t.branches branch
    maxLength := max t.maxLength (run.code.length + 3) }

/-- The loop of `check`. -/
def checker (host : Host) : Worklist Replay Edge State Tally where
  key := Replay.state
  edges run := transitions run.state (host.info .acquisitions).toNat false
  push run e := (appendEdge host.info 7 run e).filter fun successor =>
    successor.state.terminal = .active
  enter _ t := { t with activeStates := t.activeStates + 1 }
  visit run e t := visitEdge host run e t
  close run t := (List.range (host.info .registers).toNat).foldlM (visitRegister host run) t

/-- `scalar_controls`. -/
def scalarControls : List Int := [-2 ^ 63, -1, 0, 2 ^ 63 - 1]

/-- One scalar return. -/
def scalarCase (host : Host) (initial : State) (scalar : Int) : Option Unit := do
  let completed ← appendEdge host.info scalar (.start initial) (finishEdge initial)
  requireMatch host completed.code completed

/-- The dictionary that `check` returns; `matched` is always true in it. -/
structure Report where
  activeStates : Nat
  reachableStates : Nat
  terminalStates : Nat
  modelEdges : Nat
  branchCases : Branch → Nat
  scalarBoundaryCases : Nat
  programsCompared : Nat
  maximumGeneratedInstructions : Nat
  terminalOutcomes : Terminal → Nat

/-- The dictionary from the variables. -/
def report (seen : List State) (t : Tally) : Report where
  activeStates := t.activeStates
  reachableStates := seen.length + t.terminalStates.card
  terminalStates := t.terminalStates.card
  modelEdges := t.edgeCount
  branchCases := t.branches
  scalarBoundaryCases := scalarControls.length
  programsCompared := t.edgeCount +
    (t.branches .consumed + t.branches .live + t.branches .null) + scalarControls.length
  maximumGeneratedInstructions := t.maxLength
  terminalOutcomes := t.observations

/-- `check`, for at most `fuel` tests of the queue; `some none` when it raises. -/
def check (fuel : Nat) (host : Host) : Option (Option Report) :=
  if (host.info .registers, host.info .spills, host.info .acquisitions) ≠ (4, 2, 2) then some none
  else
    let initial := State.initial (host.info .registers).toNat (host.info .spills).toNat
    match (checker host).search fuel ((checker host).start (.start initial)) .zero with
    | none => none
    | some none => some none
    | some (some (q, t)) => some do
      scalarControls.forM (scalarCase host initial)
      return report q.seen t

/-! ### A branch conforms -/

section Branch

open BoundedLoop RunState

variable {gate : Bool} {path : List Edge} {T : State} {r : Nat}

/-- The program of a branch behind a path. -/
def branchProgram (path : List Edge) (r : Nat) : List Insn :=
  path.map (edgeInsn · 7) ++ [⟨.brNull, r, 0, path.length + 2⟩, ⟨.ret, 0, 0, -17⟩, ⟨.ret, 0, 0, 23⟩]

theorem length_branchProgram (path : List Edge) (r : Nat) :
    (branchProgram path r).length = path.length + 3 := by simp [branchProgram]

theorem branchCode_eq (gate : Bool) {run : Replay}
    (hcode : run.code = path.map (edgeRow (hostInfo gate) · 7)) :
    branchCode (hostInfo gate) run r = (branchProgram path r).map insnRow := by
  have hbranch : hostInfo gate .brNull = opcodeWord .brNull := by cases gate <;> rfl
  have hfinish : hostInfo gate .finish = opcodeWord .ret := by cases gate <;> rfl
  have hrows : path.map (edgeRow (hostInfo gate) · 7) = (path.map (edgeInsn · 7)).map insnRow := by
    rw [List.map_map]
    exact List.map_congr_left fun e _ => edgeRow_eq gate e 7
  rw [branchCode, branchProgram, hcode, List.length_map, hbranch, hfinish, hrows, List.map_append]
  rfl

theorem deref_branchProgram_path {i : Nat} (hi : i < path.length) :
    (InsnPtr.ofList (branchProgram path r)).deref i = edgeInsn path[i] 7 := by
  have hi' : i < (path.map (edgeInsn · 7)).length := by rwa [List.length_map]
  change (branchProgram path r).getD i _ = _
  rw [branchProgram, List.getD_append _ _ _ _ hi', List.getD_eq_getElem _ _ hi', List.getElem_map]

/-- The rows of the program behind the path. -/
theorem deref_branchProgram (path : List Edge) (r : Nat) :
    (InsnPtr.ofList (branchProgram path r)).deref path.length = ⟨.brNull, r, 0, path.length + 2⟩ ∧
      (InsnPtr.ofList (branchProgram path r)).deref (path.length + 1) = ⟨.ret, 0, 0, -17⟩ ∧
      (InsnPtr.ofList (branchProgram path r)).deref (path.length + 2) = ⟨.ret, 0, 0, 23⟩ := by
  have hlen : (path.map (edgeInsn · 7)).length = path.length := List.length_map _
  have hget : ∀ k, (InsnPtr.ofList (branchProgram path r)).deref (path.length + k) =
      ([⟨.brNull, r, 0, path.length + 2⟩, ⟨.ret, 0, 0, -17⟩, ⟨.ret, 0, 0, 23⟩] : List Insn).getD k
        ⟨.ret, 0, 0, 0⟩ := by
    intro k
    change (branchProgram path r).getD (path.length + k) _ = _
    rw [branchProgram, List.getD_append_right _ _ _ _ (by omega), hlen, Nat.add_sub_cancel_left]
  exact ⟨hget 0, hget 1, hget 2⟩

theorem encodes_branchProgram (hpath : Path 2 false (State.initial 4 2) path T) (hr : r < 4) :
    ∀ x ∈ branchProgram path r, Encodes x := by
  intro x hx
  rcases List.mem_append.mp hx with hx | hx
  · exact encodes_pathProgram 7 hpath x (List.mem_append_left _ hx)
  · simp only [List.mem_cons, List.not_mem_nil, or_false] at hx
    rcases hx with rfl | rfl | rfl
    · simp [Encodes, opcodeWord, opcodeCount, uintMax]
      omega
    · simp [Encodes, opcodeWord, opcodeCount]
    · simp [Encodes, opcodeWord, opcodeCount]

theorem validated_branchProgram (hpath : Path 2 false (State.initial 4 2) path T) (hr : r < 4)
    (hlen : path.length + 3 ≤ 64) :
    Validated (InsnPtr.ofList (branchProgram path r)).deref (path.length + 3) := by
  obtain ⟨hbranch, hnot, htaken⟩ := deref_branchProgram path r
  refine ⟨Nat.succ_pos _, hlen, fun i hi => ?_, ?_⟩
  · rcases (by omega : i < path.length ∨ i = path.length ∨ i = path.length + 1 ∨
      i = path.length + 2) with hi | rfl | rfl | rfl
    · obtain ⟨m, hregs, hspills, hin⟩ := (mem_path hpath).2.2 _ (List.getElem_mem hi)
      rw [deref_branchProgram_path hi]
      exact insnOk_edgeInsn hregs hspills hin 7 _ i
    · rw [hbranch]
      simp [insnOk]
      omega
    · rw [hnot]
      rfl
    · rw [htaken]
      rfl
  · rw [show path.length + 3 - 1 = path.length + 2 from rfl, htaken]

/-- The pass on the branch extends the replay to the exit that is taken. -/
theorem Replays.branch {n : Nat} {s : RunState} {run : Replay} (h : Replays s run) (gate : Bool)
    (hinv : Inv s) (hroom : s.r.eventCount < s.r.events.length) (hr : r < 4)
    (hn : run.code.length + 3 ≤ n) (hle : n ≤ 64) :
    ∃ t, s.exec ⟨.brNull, r, 0, run.code.length + 2⟩ = .next t ∧
      Replays t (branched (hostInfo gate) run r) ∧
      t.pc = run.code.length + if run.state.reg r = 0 then 2 else 1 := by
  have hok : insnOk n s.pc ⟨.brNull, r, 0, run.code.length + 2⟩ = true := by
    rw [← h.pc]
    simp [insnOk]
    omega
  have hstep := exec_step (s := s) hok
  have hnext : ∃ t, s.exec ⟨.brNull, r, 0, run.code.length + 2⟩ = .next t := ⟨_, rfl⟩
  obtain ⟨t, ht⟩ := hnext
  rw [ht] at hstep
  refine ⟨t, ht, ?_⟩
  rcases next_abs hinv hok hle hstep with ⟨_, habs, hpc⟩ | ⟨hne, _⟩
  · have htrace := hstep.trace hroom
    have hreg : run.state.reg r = s.reg r := by
      rw [h.state]
      exact reg_abs s .active r
    have hpc' : t.pc = run.code.length + if run.state.reg r = 0 then 2 else 1 := by
      rw [hreg]
      have hs := h.pc
      simp only [Nat.cast_eq_zero] at hpc ⊢
      split at hpc <;> rename_i h0 <;> simp [h0] <;> omega
    have hlen : (branchCode (hostInfo gate) run r).length = run.code.length + 3 := by
      simp [branchCode]
    refine ⟨⟨?_, ?_, ?_, ?_⟩, hpc'⟩
    · rw [habs, ← h.state]
      rfl
    · rw [hpc', branched, List.length_take, hlen]
      split <;> omega
    · have hrefs : t.r.objectRefs = s.r.objectRefs := congrArg State.refcount habs
      have hstate : run.state.refcount = s.r.objectRefs := congrArg State.refcount h.state
      have hkind : hostInfo gate .step = kindWord .step := by cases gate <;> rfl
      have hop : hostInfo gate .brNull = opcodeWord .brNull := by cases gate <;> rfl
      have htrace' : t.r.trace = s.r.trace ++ [⟨.step, .brNull, s.pc, s.reg r, t.r.objectRefs⟩] :=
        htrace
      rw [htrace', List.map_append, ← h.events, ← h.pc, hrefs, ← hstate]
      simp only [branched, hkind, hop, hreg]
      rfl
    · have hreads : t.r.reads = s.r.reads := hstep.next_reads
      rw [hreads]
      exact h.reads
  · exact absurd rfl hne

/-- The scalar exit that a branch takes. -/
theorem deref_exit (path : List Edge) (r : Nat) (s : State) :
    (InsnPtr.ofList (branchProgram path r)).deref
      (path.length + if s.reg r = 0 then 2 else 1) = edgeInsn (finishEdge s) (branchScalar s r) := by
  obtain ⟨_, hnot, htaken⟩ := deref_branchProgram path r
  rw [branchScalar]
  split
  · rw [htaken]
    rfl
  · rw [hnot]
    rfl

/-- A NULL branch behind a history conforms, over either interpreter. -/
theorem branch_conforms (pointerBytes : Nat) (gate : Bool)
    (hpath : Path 2 false (State.initial 4 2) path T) (ha : T.terminal = .active) (hr : r < 4)
    {run : Replay} (hrun : replay (hostInfo gate) 7 (.start (State.initial 4 2)) path = some run)
    (hlen : path.length + 3 ≤ 64) :
    branchCase (.built pointerBytes gate) run r = some (branchOf T r) := by
  obtain ⟨run', hrun', hstate, hcode⟩ := replay_path gate 7 hpath
  obtain rfl := Option.some.inj (hrun.symm.trans hrun')
  subst hstate
  have hcodelen : run.code.length = path.length := by rw [hcode, List.length_map]
  have hv := validated_branchProgram hpath hr hlen
  have hwf := wellFormed_of_reachable hpath.reachable
  obtain ⟨s, hvisit, hreplays⟩ := visits_of_path hv hpath ha
    (fun i hi => deref_branchProgram_path hi) hrun
  obtain ⟨hinv, hpc⟩ := visits_inv hv hvisit
  obtain ⟨t, hexec, hbranched, htpc⟩ := hreplays.branch gate hinv (visits_room hv hvisit).2.2 hr
    (by omega) hlen
  have hinsn : (InsnPtr.ofList (branchProgram path r)).deref s.pc =
      ⟨.brNull, r, 0, run.code.length + 2⟩ := by
    rw [← hreplays.pc, hcodelen]
    exact (deref_branchProgram path r).1
  have hvisit' : (cbpfRunLoop (InsnPtr.ofList (branchProgram path r)).deref (path.length + 3)).Visits
      init t := by
    refine hvisit.pass (by simpa [cbpfRunLoop] using hpc) ?_
    change s.exec ((InsnPtr.ofList (branchProgram path r)).deref s.pc) = .next t
    rw [hinsn, hexec]
  have hexit : (InsnPtr.ofList (branchProgram path r)).deref t.pc =
      edgeInsn (finishEdge run.state) (branchScalar run.state r) := by
    rw [htpc, hcodelen]
    exact deref_exit path r run.state
  have hfinish : finishEdge run.state ∈ transitions run.state 2 false :=
    mem_transitions.mpr ⟨ha, .finish⟩
  have hreturns : ∃ u, t.exec ((InsnPtr.ofList (branchProgram path r)).deref t.pc) = .finish u := by
    rw [hexit]
    exact ⟨_, rfl⟩
  obtain ⟨u, hu⟩ := hreturns
  have habs : run.state = t.abs .active := hbranched.state
  obtain ⟨hexpected, _⟩ := expected_eq gate hv hvisit' hbranched (habs ▸ hfinish) hexit hu
  have hresult := run_of_visits (cbpfValidate_of_validated hv) hvisit' hu
  have hobserve := observe_eq gate (encodes_branchProgram hpath hr)
    (by rw [length_branchProgram]; exact hlen)
    ((builtOver_eq pointerBytes gate _ _).trans (length_branchProgram path r ▸ hresult))
    (closing_room hv hvisit' hu).1
  rw [← branchCode_eq gate hcode] at hobserve
  have happend := appendEdge_eq gate (branchScalar run.state r)
    (show WellFormed (branched (hostInfo gate) run r).state 2 from hwf) hfinish
  simp only [branchCase, requireMatch, Host.built, happend, hobserve, hexpected,
    Option.bind_eq_bind, Option.bind_some, if_true]
  rfl

end Branch

end Cbpf.Conformance
