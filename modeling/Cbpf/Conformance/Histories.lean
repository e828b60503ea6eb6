import Cbpf.Conformance.Agreement

/-!
# Conformance of whole histories

The generated program decodes, validates and runs along its path, so that observing it returns the
expected words, whichever history leads to an abstract state.
-/

namespace Cbpf.Conformance

open BoundedLoop Model RunState

/-! ### The generated program crosses the adapter -/

/-- An instruction as a row of the input. -/
def insnRow (x : Insn) : InsnRow := ⟨opcodeWord x.op, x.dst, x.src, x.imm⟩

/-- An instruction that the adapter accepts. -/
def Encodes (x : Insn) : Prop := opcodeWord x.op < opcodeCount ∧ x.dst ≤ uintMax ∧ x.src ≤ uintMax

theorem edgeRow_eq (gate : Bool) (e : Edge) (scalar : Int) :
    edgeRow (hostInfo gate) e scalar = insnRow (edgeInsn e scalar) := by
  rw [edgeRow, hostInfo_opName]
  rfl

theorem decodeInsn_row {x : Insn} (h : Encodes x) {input : Nat → Int} (h0 : input 0 = opcodeWord x.op)
    (h1 : input 1 = x.dst) (h2 : input 2 = x.src) (h3 : input 3 = x.imm) :
    decodeInsn input = some x := by
  obtain ⟨hop, hdst, hsrc⟩ := h
  unfold decodeInsn
  rw [h0, h1, h2, h3, if_neg (by omega), Int.toNat_natCast, Int.toNat_natCast, Int.toNat_natCast,
    opcodeOfWord_opcodeWord]

theorem mapM_range_some {α : Type} {f : Nat → Option α} {l : List α}
    (h : ∀ i, (hi : i < l.length) → f i = some l[i]) : (List.range l.length).mapM f = some l := by
  induction l using List.reverseRecOn with
  | nil => rfl
  | append_singleton l x ih =>
    have hinit : (List.range l.length).mapM f = some l := by
      apply ih
      intro i hi
      rw [h i (by simp; omega), List.getElem_append_left hi]
    have hlast : f l.length = some x := by
      rw [h l.length (by simp), List.getElem_append_right (Nat.le_refl _)]
      simp
    rw [List.length_append, List.length_singleton, List.range_succ, List.mapM_append, hinit]
    simp [hlast]

/-- What the host writes for a program, the adapter reads back. -/
theorem decodeProgram_eq {program : List Insn} (h : ∀ x ∈ program, Encodes x) :
    decodeProgram (inputWords (program.map insnRow)) program.length = some program := by
  apply mapM_range_some
  intro i hi
  have hrow : ∀ j < 4, (program.map insnRow).getD ((4 * i + j) / 4) ⟨0, 0, 0, 0⟩ =
      insnRow program[i] := by
    intro j hj
    rw [show (4 * i + j) / 4 = i by omega]
    simp [hi]
  have hmod : ∀ j < 4, (4 * i + j) % 4 = j := fun j hj => by omega
  refine decodeInsn_row (h _ (List.getElem_mem hi)) ?_ ?_ ?_ ?_ <;>
    · rw [inputWords, hrow _ (by decide), hmod _ (by decide)]
      rfl

theorem length_resultWords (r : Result) : (resultWords r).length = 15 + 5 * r.eventCount := by
  have hevents : ∀ l : List Nat,
      (l.flatMap fun i => eventWords (r.events.getD i .zero)).length = 5 * l.length := by
    intro l
    induction l with
    | nil => rfl
    | cons i l ih =>
      rw [List.flatMap_cons, List.length_append, ih, List.length_cons]
      simp only [eventWords, List.length_cons, List.length_nil]
      omega
  simp only [resultWords, List.length_append, hevents, List.length_map, List.length_range,
    List.length_cons, List.length_nil, cbpfCells_eq]

/-- The host observes the words of the result. -/
theorem observe_eq {interpret : InsnPtr → Nat → Option Result} (gate : Bool) {program : List Insn}
    {r : Result} (hprogram : ∀ x ∈ program, Encodes x) (hlen : program.length ≤ 64)
    (hrun : interpret (.ofList program) program.length = some r) (hcount : r.eventCount ≤ 66) :
    observe interpret (hostInfo gate) (program.map insnRow) = some (resultWords r) := by
  have hmax : hostInfo gate .maxInsns = 64 := by cases gate <;> rfl
  have hcapacity : 11 + 2 * (hostInfo gate .acquisitions).toNat +
      5 * (hostInfo gate .maxEvents).toNat = outputWords := by cases gate <;> rfl
  have hconform : conformanceRun interpret (inputWords (program.map insnRow)) program.length
      outputWords = some (resultWords r) := by
    unfold conformanceRun
    rw [if_neg (by rw [cbpfMaxInsns_eq]; omega), decodeProgram_eq hprogram]
    simp only [hrun, Option.map_some, cbpfMaxEvents_eq, gt_iff_lt, Nat.not_lt.mpr hcount, if_false]
  have hwords := length_resultWords r
  unfold observe
  rw [hmax, hcapacity, List.length_map, if_neg (by omega), hconform]
  exact if_neg (by rw [hwords, outputWords, cbpfCells_eq, cbpfMaxEvents_eq]; omega)

/-! ### The generated program is valid -/

variable {gate : Bool} {scalar : Int} {path : List Edge} {T : State}

/-- Every edge of a path is yielded by a state with four registers and two spill slots. -/
theorem mem_path (hpath : Path 2 false (State.initial 4 2) path T) :
    T.registers.length = 4 ∧ T.spills.length = 2 ∧ ∀ e ∈ path, ∃ m : State,
      m.registers.length = 4 ∧ m.spills.length = 2 ∧ OperandsInRange m e.kind e.args := by
  induction hpath with
  | nil => exact ⟨rfl, rfl, nofun⟩
  | @snoc path m e _ he ih =>
    obtain ⟨hregs, hspills, hpath⟩ := ih
    obtain ⟨_, hy⟩ := mem_transitions.mp he
    obtain ⟨hregs', hspills'⟩ := hy.lengths
    refine ⟨hregs'.trans hregs, hspills'.trans hspills, ?_⟩
    intro e' he'
    rcases List.mem_append.mp he' with he' | he'
    · exact hpath e' he'
    · obtain rfl := List.mem_singleton.mp he'
      exact ⟨m, hregs, hspills, operandsInRange_of_yields hy⟩

/-- Only `finish` returns. -/
theorem kind_of_ret {m : State} {e : Edge} (hy : Yields m 2 false e) (ha : m.terminal = .active)
    (h : e.target.terminal = .ret) : e.kind = .finish := by
  cases hy with
  | finish => rfl
  | acquire r _ =>
    simp only [acquireEdge] at h
    split at h <;> simp [State.acquire, State.terminate, ha] at h
  | read r _ =>
    simp only [readEdge] at h
    split at h
    · simp [ha] at h
    · simp [State.terminate, readReason] at h
      split at h <;> cases h
  | release r _ =>
    simp only [releaseEdge] at h
    split at h
    · simp [State.consume, ha] at h
    · simp [State.terminate, releaseReason] at h
      split at h <;> cases h
  | acquireNull r _ => simp [acquireNullEdge, State.setReg, ha] at h
  | copy dst src _ _ => simp [copyEdge, State.setReg, ha] at h
  | reload dst slot _ _ => simp [reloadEdge, State.setReg, ha] at h
  | spill slot r _ _ => simp [spillEdge, State.setSpill, ha] at h

/-- The program of a path that ends in `T`. -/
def pathProgram (scalar : Int) (path : List Edge) (T : State) : List Insn :=
  path.map (edgeInsn · scalar) ++ if T.terminal ≠ .ret then [⟨.ret, 0, 0, 99⟩] else []

theorem encodes_pathProgram (scalar : Int) (hpath : Path 2 false (State.initial 4 2) path T) :
    ∀ x ∈ pathProgram scalar path T, Encodes x := by
  intro x hx
  rcases List.mem_append.mp hx with hx | hx
  · obtain ⟨e, he, rfl⟩ := List.mem_map.mp hx
    obtain ⟨_, hregs, hspills, hin⟩ := (mem_path hpath).2.2 e he
    obtain ⟨hdst, hsrc⟩ := operands_lt hregs hspills hin
    refine ⟨?_, ?_, ?_⟩
    · cases hk : e.kind <;> simp [edgeInsn, kindOp, hk, opcodeWord, opcodeCount]
    · change (operands e.args).1 ≤ uintMax
      rw [uintMax]
      omega
    · change (operands e.args).2 ≤ uintMax
      rw [uintMax]
      omega
  · split at hx
    · obtain rfl := List.mem_singleton.mp hx
      simp [Encodes, opcodeWord, opcodeCount]
    · cases hx

/-- The program of a terminal path passes validation. -/
theorem validated_pathProgram (hpath : Path 2 false (State.initial 4 2) path T)
    (hT : T.terminal ≠ .active) (hlen : (pathProgram scalar path T).length ≤ 64) :
    Validated (InsnPtr.ofList (pathProgram scalar path T)).deref
      (pathProgram scalar path T).length := by
  have hpos : 0 < (pathProgram scalar path T).length := by
    cases hpath with
    | nil => exact absurd rfl hT
    | snoc _ _ => simp [pathProgram]
  have hderef : ∀ i, (hi : i < (pathProgram scalar path T).length) →
      (InsnPtr.ofList (pathProgram scalar path T)).deref i = (pathProgram scalar path T)[i] :=
    fun i hi => List.getD_eq_getElem _ _ hi
  refine ⟨hpos, hlen, ?_, ?_⟩
  · intro i hi
    rw [hderef i hi]
    rcases List.mem_append.mp (List.getElem_mem hi) with hx | hx
    · obtain ⟨e, he, hx⟩ := List.mem_map.mp hx
      obtain ⟨_, hregs, hspills, hin⟩ := (mem_path hpath).2.2 e he
      rw [← hx]
      exact insnOk_edgeInsn hregs hspills hin scalar _ i
    · split at hx
      · rw [List.mem_singleton.mp hx]
        rfl
      · cases hx
  · have hlast := List.getLast_eq_getElem (List.ne_nil_of_length_pos hpos)
    rw [hderef _ (by omega), ← hlast]
    by_cases hret : T.terminal = .ret
    · cases hpath with
      | nil => exact absurd rfl hT
      | @snoc path m e hpath he =>
        obtain ⟨ha, hy⟩ := mem_transitions.mp he
        simp [pathProgram, hret, edgeInsn, kind_of_ret hy ha hret, kindOp]
    · simp [pathProgram, hret]

/-! ### Along the path -/

section Along

variable {p : Nat → Insn} {e : Edge}

/-- A program with a row for each edge of a path has one for each edge but the last. -/
theorem insns_init (hp : ∀ i, (hi : i < (path ++ [e]).length) → p i = edgeInsn (path ++ [e])[i] scalar)
    (i : Nat) (hi : i < path.length) : p i = edgeInsn path[i] scalar := by
  rw [hp i (by simp; omega), List.getElem_append_left hi]

/-- The instruction after the replay of a path is that of the next edge. -/
theorem Replays.insn {s : RunState} {before : Replay} (h : Replays s before)
    (hcode : before.code = path.map (edgeRow (hostInfo gate) · scalar))
    (hp : ∀ i, (hi : i < (path ++ [e]).length) → p i = edgeInsn (path ++ [e])[i] scalar) :
    p s.pc = edgeInsn e scalar := by
  have hpc : path.length = s.pc := by
    rw [← h.pc, hcode, List.length_map]
  rw [← hpc, hp path.length (by simp), List.getElem_append_right (Nat.le_refl _)]
  simp

/-- The run of the generated program follows the path as long as it stays active. -/
theorem visits_of_path {n : Nat} (hv : Validated p n)
    (hpath : Path 2 false (State.initial 4 2) path T) (hT : T.terminal = .active)
    (hp : ∀ i, (hi : i < path.length) → p i = edgeInsn path[i] scalar) {run : Replay}
    (hrun : replay (hostInfo gate) scalar (.start (State.initial 4 2)) path = some run) :
    ∃ s, (cbpfRunLoop p n).Visits init s ∧ Replays s run := by
  induction hpath generalizing run with
  | nil =>
    obtain rfl := Option.some.inj hrun
    exact ⟨init, .start, rfl, rfl, rfl, rfl⟩
  | @snoc path m e hpath he ih =>
    obtain ⟨before, hbefore, hstate, hcode⟩ := replay_path gate scalar hpath
    have hwf := wellFormed_of_reachable hpath.reachable
    obtain ⟨ha, hy⟩ := mem_transitions.mp he
    rw [replay_snoc hbefore, appendEdge_eq gate scalar (hstate ▸ hwf) (hstate ▸ he)] at hrun
    obtain rfl := Option.some.inj hrun
    obtain ⟨s, hvisit, hreplays⟩ := ih ha (insns_init hp) hbefore
    obtain rfl : m = s.abs .active := hstate.symm.trans hreplays.state
    obtain ⟨hinv, hlt⟩ := visits_inv hv hvisit
    have hx := hreplays.insn hcode hp
    have hok := hv.ok s.pc hlt
    cases hexec : s.exec (p s.pc) with
    | next t =>
      have hstep := visits_step hv hvisit hexec
      rw [hx] at hstep hok
      refine ⟨t, hvisit.pass (by simpa [cbpfRunLoop] using hlt) hexec, ?_⟩
      exact hreplays.next gate hinv (visits_room hv hvisit).2.2 he hok hv.le hstep
    | finish t =>
      obtain ⟨_, hne⟩ := expected_eq gate hv hvisit hreplays he hx hexec
      exact absurd hT hne

end Along

/-! ### The whole history -/

/-- The adapter returns the same result over either interpreter. -/
theorem builtOver_eq (pointerBytes : Nat) (gate : Bool) (p : InsnPtr) (n : Nat) :
    builtOver pointerBytes gate p n = cbpfRun p n := by
  cases gate with
  | false => rfl
  | true => exact cbpfGateRun_eq (hostPlatform_lawful pointerBytes) (fun _ _ => rfl) p n false

theorem observedCode_eq (gate : Bool) {completed : Replay}
    (hcode : completed.code = path.map (edgeRow (hostInfo gate) · scalar))
    (hstate : completed.state = T) :
    observedCode (hostInfo gate) completed = (pathProgram scalar path T).map insnRow := by
  have hfinish : hostInfo gate .finish = opcodeWord .ret := by cases gate <;> rfl
  have hrows : path.map (edgeRow (hostInfo gate) · scalar) =
      (path.map (edgeInsn · scalar)).map insnRow := by
    rw [List.map_map]
    exact List.map_congr_left fun e _ => edgeRow_eq gate e scalar
  rw [observedCode, pathProgram, hcode, hstate, hfinish, hrows, List.map_append]
  split <;> rfl

/-- A terminal history conforms. -/
theorem observe_of_path (pointerBytes : Nat)
    (hpath : Path 2 false (State.initial 4 2) path T) (hT : T.terminal ≠ .active)
    {completed : Replay}
    (hreplay : replay (hostInfo gate) scalar (.start (State.initial 4 2)) path = some completed)
    (hlen : (observedCode (hostInfo gate) completed).length ≤ 64) :
    ∃ words, expected (hostInfo gate) completed = some words ∧
      observe (builtOver pointerBytes gate) (hostInfo gate)
        (observedCode (hostInfo gate) completed) = some words := by
  obtain ⟨run, hrun, hstate, hcode⟩ := replay_path gate scalar hpath
  obtain rfl := Option.some.inj (hreplay.symm.trans hrun)
  rw [observedCode_eq gate hcode hstate] at hlen ⊢
  rw [List.length_map] at hlen
  have hv := validated_pathProgram hpath hT hlen
  have hencodes := encodes_pathProgram scalar hpath
  cases hpath with
  | nil => exact absurd rfl hT
  | @snoc path m e hpath he =>
    obtain ⟨before, hbefore, hm, hcode'⟩ := replay_path gate scalar hpath
    obtain ⟨ha, _⟩ := mem_transitions.mp he
    have hwf := wellFormed_of_reachable hpath.reachable
    rw [replay_snoc hbefore, appendEdge_eq gate scalar (hm ▸ hwf) (hm ▸ he)] at hreplay
    obtain rfl := Option.some.inj hreplay
    have hp : ∀ i, (hi : i < (path ++ [e]).length) →
        (InsnPtr.ofList (pathProgram scalar (path ++ [e]) e.target)).deref i =
          edgeInsn (path ++ [e])[i] scalar := by
      intro i hi
      have hi' : i < ((path ++ [e]).map (edgeInsn · scalar)).length := by
        rwa [List.length_map]
      apply (List.getD_eq_getElem _ _ (by rw [pathProgram, List.length_append]; omega)).trans
      simp only [pathProgram]
      rw [List.getElem_append_left hi', List.getElem_map]
    obtain ⟨s, hvisit, hreplays⟩ := visits_of_path hv hpath ha (insns_init hp) hbefore
    obtain rfl : m = s.abs .active := hm.symm.trans hreplays.state
    have hx := hreplays.insn hcode' hp
    have hlt := (visits_inv hv hvisit).2
    cases hexec : s.exec ((InsnPtr.ofList (pathProgram scalar (path ++ [e]) e.target)).deref s.pc) with
    | next t =>
      have hstep := visits_step hv hvisit hexec
      rw [hx] at hstep
      have hnext := hreplays.next gate (visits_inv hv hvisit).1 (visits_room hv hvisit).2.2 he
        (hx ▸ hv.ok s.pc hlt) hv.le hstep
      exact absurd (congrArg State.terminal hnext.state) hT
    | finish t =>
      obtain ⟨hexpected, _⟩ := expected_eq gate hv hvisit hreplays he hx hexec
      refine ⟨_, hexpected, ?_⟩
      have hrun' := run_of_visits (cbpfValidate_of_validated hv) hvisit hexec
      apply observe_eq gate hencodes hlen ((builtOver_eq pointerBytes gate _ _).trans hrun')
      exact (closing_room hv hvisit hexec).1

/-- Conformance holds for every history of the model: the replay of a path from the initial state
never fails, and observing its program, over either interpreter, returns the expected words. -/
theorem every_history_conforms (pointerBytes : Nat) (gate : Bool) (scalar : Int) (path : List Edge)
    (T : State) (hpath : Path cbpfCells false (State.initial cbpfRegs cbpfSpills) path T) :
    ∃ run completed,
      replay (hostInfo gate) scalar (.start (State.initial cbpfRegs cbpfSpills)) path = some run ∧
      run.state = T ∧
      complete (hostInfo gate) scalar run = some completed ∧
      completed.state.terminal ≠ .active ∧
      ((observedCode (hostInfo gate) completed).length ≤ cbpfMaxInsns →
        ∃ words, expected (hostInfo gate) completed = some words ∧
          observe (builtOver pointerBytes gate) (hostInfo gate)
            (observedCode (hostInfo gate) completed) = some words) := by
  obtain ⟨run, hrun, rfl, _⟩ := replay_path gate scalar hpath
  by_cases ha : run.state.terminal = .active
  · have hfinish : finishEdge run.state ∈ transitions run.state 2 false :=
      mem_transitions.mpr ⟨ha, .finish⟩
    have hstep := appendEdge_eq gate scalar
      (wellFormed_of_reachable hpath.reachable) hfinish
    have hreturned : (finishEdge run.state).target.terminal ≠ .active := nofun
    refine ⟨run, _, hrun, rfl, (if_neg (not_not.mpr ha)).trans hstep, hreturned, ?_⟩
    apply observe_of_path pointerBytes (hpath.snoc hfinish) hreturned
    rw [← hstep]
    exact replay_snoc hrun _
  · exact ⟨run, run, hrun, rfl, if_pos ha, ha, observe_of_path pointerBytes hpath ha hrun⟩

/-- A history that reads a released acquisition through a copy. -/
def staleCopy : List Edge :=
  let acquired := (State.initial 4 2).acquire 0
  let copied := acquired.setReg 1 1
  let released := copied.consume [0]
  [acquireEdge (.initial 4 2) 2 0, copyEdge acquired 1 0, readEdge copied 1,
    releaseEdge copied false 0, readEdge released 1]

theorem path_staleCopy :
    ∃ T, Path 2 false (State.initial 4 2) staleCopy T ∧ T.terminal = .staleRead := by
  have hacquire : Path 2 false (State.initial 4 2) _ _ :=
    .snoc .nil (mem_transitions.mpr ⟨rfl, .acquire 0 (by decide)⟩)
  have hcopy := hacquire.snoc (mem_transitions.mpr ⟨rfl, .copy 1 0 (by decide) (by decide)⟩)
  have hread := hcopy.snoc (mem_transitions.mpr ⟨rfl, .read 1 (by decide)⟩)
  have hrelease := hread.snoc (mem_transitions.mpr ⟨rfl, .release 0 (by decide)⟩)
  exact ⟨_, hrelease.snoc (mem_transitions.mpr ⟨rfl, .read 1 (by decide)⟩), rfl⟩

theorem every_history_conforms_staleCopy : ∃ run completed words,
    replay (hostInfo true) 7 (.start (.initial cbpfRegs cbpfSpills)) staleCopy = some run ∧
    complete (hostInfo true) 7 run = some completed ∧
    expected (hostInfo true) completed = some words ∧
    observe (builtOver 8 true) (hostInfo true) (observedCode (hostInfo true) completed) =
      some words := by
  obtain ⟨T, hpath, _⟩ := path_staleCopy
  obtain ⟨run, completed, hrun, _, hcomplete, _, hconforms⟩ :=
    every_history_conforms 8 true 7 staleCopy T hpath
  have hlength : ((replay (hostInfo true) 7 (.start (.initial cbpfRegs cbpfSpills)) staleCopy).bind
      (complete (hostInfo true) 7)).map (fun c => (observedCode (hostInfo true) c).length) =
        some 6 := by decide
  rw [hrun, Option.bind_some, hcomplete] at hlength
  have hsix : (observedCode (hostInfo true) completed).length = 6 := Option.some.inj hlength
  obtain ⟨words, hexpected, hobserved⟩ := hconforms (by rw [hsix, cbpfMaxInsns_eq]; omega)
  exact ⟨run, completed, words, hrun, hcomplete, hexpected, hobserved⟩

end Cbpf.Conformance
