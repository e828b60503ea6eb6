import Cbpf.Conformance.Histories
import Cbpf.Executed
import Cbpf.Validation
import Cbpf.Lib.Packed

/-!
# The conformance adapter is lossless and stays in its buffers

`conformanceCall` writes the words of `conformanceRun` into the caller's buffer, one `output[used++]`
after the other. `readResult` is the observer's side of the encoding: it finds every reported field
of a result in the words, by their places.
-/

namespace Cbpf.Conformance

open BoundedLoop Packed

/-- What `cbpf_conformance_run` is built over: `cbpf_run`, or either build of the gate. -/
inductive Build where
  | reference
  | hostGate (pointerBytes : Nat)
  | purecapGate (l : PurecapLayout)

/-- The interpreter of a build, called without metrics. -/
def Build.interpret : Build → InsnPtr → Nat → Option Result
  | .reference => cbpfRun
  | .hostGate pointerBytes => fun p n =>
    (cbpfGateRun (hostPlatform pointerBytes) p n false).map Prod.fst
  | .purecapGate l => fun p n => (cbpfGateRun (purecapPlatform l) p n false).map Prod.fst

/-- `cbpf_conformance_run`: the value it returns and the buffer it leaves. A write outside the
buffer would leave no result. -/
def conformanceCall (interpret : InsnPtr → Nat → Option Result) (input : Nat → Int) (count : Nat)
    (output : List Int) : Option (Nat × List Int) :=
  if count > cbpfMaxInsns ∨ output.length < outputWords then some (0, output)
  else
    match decodeProgram input count with
    | none => some (0, output)
    | some program =>
      (interpret (InsnPtr.ofList program) count).bind fun r =>
        if r.eventCount > cbpfMaxEvents then some (0, output)
        else
          ((Cursor.mk output 0).putAll (resultWords r)).map fun c => (c.used, c.buffer)

/-! ### The input -/

/-- The three words of an instruction that have a range. -/
def InRange (x : Nat → Int) : Prop :=
  (0 ≤ x 0 ∧ x 0 < opcodeCount) ∧ (0 ≤ x 1 ∧ x 1 ≤ uintMax) ∧ (0 ≤ x 2 ∧ x 2 ≤ uintMax)

/-- The adapter takes the request. -/
def Accepted (input : Nat → Int) (count capacity : Nat) : Prop :=
  count ≤ 64 ∧ 11 + 2 * 2 + 5 * 66 ≤ capacity ∧ ∀ i < count, InRange fun j => input (4 * i + j)

/-- An instruction has the given words for its fields. -/
structure Carries (x : Nat → Int) (y : Insn) : Prop where
  op : (opcodeWord y.op : Int) = x 0
  dst : (y.dst : Int) = x 1
  src : (y.src : Int) = x 2
  imm : y.imm = x 3

theorem opcodeWord_opcodeOfWord {k : Nat} (h : k < opcodeCount) : opcodeWord (opcodeOfWord k) = k := by
  change k < 8 at h
  interval_cases k <;> rfl

/-- Decoding an instruction narrows no word. -/
theorem decodeInsn_inRange {x : Nat → Int} (h : InRange x) :
    ∃ y, decodeInsn x = some y ∧ Carries x y := by
  obtain ⟨⟨hop, hopmax⟩, ⟨hdst, hdstmax⟩, hsrc, hsrcmax⟩ := h
  refine ⟨_, if_neg (by omega), ?_⟩
  exact {
    op := by
      rw [opcodeWord_opcodeOfWord (by omega)]
      exact Int.toNat_of_nonneg hop
    dst := Int.toNat_of_nonneg hdst
    src := Int.toNat_of_nonneg hsrc
    imm := rfl }

theorem decodeInsn_outOfRange {x : Nat → Int} (h : ¬ InRange x) : decodeInsn x = none := by
  unfold InRange at h
  exact if_pos (by omega)

theorem mapM_eq_none {α β : Type} {f : α → Option β} {l : List α} {a : α} (ha : a ∈ l)
    (hf : f a = none) : l.mapM f = none := by
  induction l with
  | nil => cases ha
  | cons b l ih =>
    rw [List.mapM_cons]
    rcases List.mem_cons.mp ha with rfl | ha
    · rw [hf]
      rfl
    · rw [ih ha]
      cases f b <;> rfl

/-- The program of an accepted request. -/
theorem decodeProgram_inRange {input : Nat → Int} {count : Nat}
    (h : ∀ i < count, InRange fun j => input (4 * i + j)) :
    ∃ program, decodeProgram input count = some program ∧ program.length = count ∧
      ∀ i < count, Carries (fun j => input (4 * i + j)) ((InsnPtr.ofList program).deref i) := by
  induction count with
  | zero => exact ⟨[], rfl, rfl, fun i hi => absurd hi (Nat.not_lt_zero i)⟩
  | succ count ih =>
    obtain ⟨program, hdecode, hlength, hcarries⟩ := ih fun i hi => h i (by omega)
    obtain ⟨y, hy, hlast⟩ := decodeInsn_inRange (h count (Nat.lt_succ_self count))
    refine ⟨program ++ [y], ?_, by rw [List.length_append, hlength]; rfl, ?_⟩
    · unfold decodeProgram at hdecode ⊢
      rw [List.range_succ, List.mapM_append, hdecode]
      simp [hy]
    · intro i hi
      rcases Nat.lt_succ_iff_lt_or_eq.mp hi with hlt | rfl
      · have hkeep : (InsnPtr.ofList (program ++ [y])).deref i = (InsnPtr.ofList program).deref i := by
          simp [InsnPtr.ofList, InsnPtr.deref, List.getElem?_append_left (hlength ▸ hlt)]
        rw [hkeep]
        exact hcarries i hlt
      · have hnew : (InsnPtr.ofList (program ++ [y])).deref i = y := by
          simp [InsnPtr.ofList, InsnPtr.deref, ← hlength]
        rw [hnew]
        exact hlast

/-- A request with a word out of range has no program. -/
theorem decodeProgram_outOfRange {input : Nat → Int} {count : Nat}
    (h : ∃ i < count, ¬ InRange fun j => input (4 * i + j)) : decodeProgram input count = none := by
  obtain ⟨i, hi, hout⟩ := h
  exact mapM_eq_none (List.mem_range.mpr hi) (decodeInsn_outOfRange hout)

/-- Only the words of the first `count` instructions are read. -/
theorem decodeProgram_congr {input input' : Nat → Int} {count : Nat}
    (h : ∀ k < 4 * count, input' k = input k) :
    decodeProgram input' count = decodeProgram input count := by
  unfold decodeProgram
  have hinsn : ∀ i ∈ List.range count, decodeInsn (fun j => input' (4 * i + j)) =
      decodeInsn fun j => input (4 * i + j) := by
    intro i hi
    have hlt := List.mem_range.mp hi
    have hword : ∀ j < 4, input' (4 * i + j) = input (4 * i + j) := fun j hj => h _ (by omega)
    simp only [decodeInsn, hword 0 (by decide), hword 1 (by decide), hword 2 (by decide),
      hword 3 (by decide)]
  generalize List.range count = l at hinsn
  induction l with
  | nil => rfl
  | cons i l ih =>
    rw [List.mapM_cons, List.mapM_cons, hinsn i List.mem_cons_self,
      ih fun j hj => hinsn j (List.mem_cons_of_mem i hj)]

/-! ### The result -/

/-- What the adapter reports of a result. -/
structure Observation where
  status : Status
  trap : Trap
  pc : Nat
  returned : Int
  acquired : Nat
  reads : Nat
  explicitReleases : Nat
  cleanupReleases : Nat
  lastRead : Int
  objectRefs : Int
  explicitByCell : List Nat
  cleanupByCell : List Nat
  events : List Event
  deriving DecidableEq, Repr

/-- The reported fields: all scalars, the counters of each cell and the events up to `event_count`. -/
def observation (r : Result) : Observation where
  status := r.status
  trap := r.trap
  pc := r.pc
  returned := r.returned
  acquired := r.acquired
  reads := r.reads
  explicitReleases := r.explicitReleases
  cleanupReleases := r.cleanupReleases
  lastRead := r.lastRead
  objectRefs := r.objectRefs
  explicitByCell := (List.range cbpfCells).map r.explicitAt
  cleanupByCell := (List.range cbpfCells).map r.cleanupAt
  events := (List.range r.eventCount).map fun i => r.events.getD i .zero

/-- The status of a word. -/
def statusOfWord : Nat → Status
  | 0 => .returned
  | 1 => .trapped
  | _ => .invalid

/-- The trap of a word. -/
def trapOfWord : Nat → Trap
  | 0 => .noTrap
  | 1 => .null
  | 2 => .stale
  | _ => .exhausted

/-- The event kind of a word. -/
def kindOfWord : Nat → EventKind
  | 0 => .step
  | 1 => .trapEvent
  | _ => .cleanup

/-- An event from its five words. -/
def readEvent (w : Nat → Int) : Event where
  kind := kindOfWord (w 0).toNat
  op := opcodeOfWord (w 1).toNat
  pc := (w 2).toNat
  token := (w 3).toNat
  objectRefs := w 4

/-- A result from the words of a buffer. -/
def readResult (words : List Int) : Observation :=
  let w i := words.getD i 0
  { status := statusOfWord (w 0).toNat
    trap := trapOfWord (w 1).toNat
    pc := (w 2).toNat
    returned := w 3
    acquired := (w 4).toNat
    reads := (w 5).toNat
    explicitReleases := (w 6).toNat
    cleanupReleases := (w 7).toNat
    lastRead := w 8
    objectRefs := w 9
    explicitByCell := [(w 10).toNat, (w 11).toNat]
    cleanupByCell := [(w 12).toNat, (w 13).toNat]
    events := (List.range (w 14).toNat).map fun i => readEvent fun j => w (15 + (5 * i + j)) }

theorem statusOfWord_statusWord (x : Status) : statusOfWord (statusWord x) = x := by
  cases x <;> rfl

theorem trapOfWord_trapWord (x : Trap) : trapOfWord (trapWord x) = x := by
  cases x <;> rfl

theorem kindOfWord_kindWord (x : EventKind) : kindOfWord (kindWord x) = x := by
  cases x <;> rfl

/-- The five words of an event say everything about it. -/
theorem readEvent_eventWords (e : Event) : readEvent (fun j => (eventWords e).getD j 0) = e := by
  simp only [readEvent, eventWords, List.getD_cons_zero, List.getD_cons_succ, Int.toNat_natCast,
    kindOfWord_kindWord, opcodeOfWord_opcodeWord]

/-- The words before those of the events. -/
def headWords (r : Result) : List Int :=
  [statusWord r.status, trapWord r.trap, r.pc, r.returned, r.acquired, r.reads,
    r.explicitReleases, r.cleanupReleases, r.lastRead, r.objectRefs,
    r.explicitAt 0, r.explicitAt 1, r.cleanupAt 0, r.cleanupAt 1, r.eventCount]

theorem resultWords_head (r : Result) : resultWords r =
    headWords r ++
      ((List.range r.eventCount).map fun i => r.events.getD i .zero).flatMap eventWords := by
  rw [List.flatMap_map]
  rfl

theorem length_eventWords (e : Event) : (eventWords e).length = 5 := rfl

/-- Word `j` of event `i`, whatever follows the words in the buffer. -/
theorem getD_event (r : Result) (rest : List Int) {i j : Nat} (hi : i < r.eventCount) (hj : j < 5) :
    (resultWords r ++ rest).getD (15 + (5 * i + j)) 0 =
      (eventWords (r.events.getD i .zero)).getD j 0 := by
  have hplace : 5 * i + j < (((List.range r.eventCount).map
      fun i => r.events.getD i Event.zero).flatMap eventWords).length := by
    rw [Packed.length_flatMap length_eventWords, List.length_map, List.length_range]
    omega
  rw [resultWords_head, List.append_assoc, List.getD_append_right _ _ _ _ (Nat.le_add_right 15 _)]
  change List.getD _ (15 + (5 * i + j) - 15) 0 = _
  rw [Nat.add_sub_cancel_left, List.getD_append _ _ _ _ hplace, List.getD_eq_getElem?_getD,
    Packed.getElem?_flatMap length_eventWords _ _ hj, List.getElem?_map, List.getElem?_range hi]
  rfl

/-- The observer recovers every reported field. -/
theorem readResult_resultWords (r : Result) (rest : List Int) :
    readResult (resultWords r ++ rest) = observation r := by
  have hhead : ∀ i < 15, (resultWords r ++ rest).getD i 0 = (headWords r).getD i 0 := by
    intro i hi
    rw [resultWords_head, List.append_assoc, List.getD_append _ _ _ _ hi]
  have hevents : ((List.range r.eventCount).map fun i => readEvent fun j =>
      (resultWords r ++ rest).getD (15 + (5 * i + j)) 0) =
      (List.range r.eventCount).map fun i => r.events.getD i .zero := by
    apply List.map_congr_left
    intro i hi
    have hword := fun j (hj : j < 5) => getD_event r rest (List.mem_range.mp hi) hj
    rw [← readEvent_eventWords (r.events.getD i .zero)]
    simp only [readEvent, hword 0 (by decide), hword 1 (by decide), hword 2 (by decide),
      hword 3 (by decide), hword 4 (by decide)]
  have hcount : ((resultWords r ++ rest).getD 14 0).toNat = r.eventCount := by
    rw [hhead 14 (by decide)]
    rfl
  unfold readResult
  simp only [hhead 0 (by decide), hhead 1 (by decide), hhead 2 (by decide), hhead 3 (by decide),
    hhead 4 (by decide), hhead 5 (by decide), hhead 6 (by decide), hhead 7 (by decide),
    hhead 8 (by decide), hhead 9 (by decide), hhead 10 (by decide), hhead 11 (by decide),
    hhead 12 (by decide), hhead 13 (by decide), hcount, hevents]
  simp only [headWords, List.getD_cons_zero, List.getD_cons_succ, Int.toNat_natCast,
    statusOfWord_statusWord, trapOfWord_trapWord]
  rfl

/-- Results that report differently have different words. -/
theorem observation_eq_of_resultWords {r r' : Result} (h : resultWords r = resultWords r') :
    observation r = observation r' := by
  rw [← readResult_resultWords r [], h, readResult_resultWords r' []]

/-! ### The run -/

/-- The fields that the adapter casts from `size_t` to `int64_t` are far from the limit. -/
structure CastsExactly (r : Result) : Prop where
  pc : r.pc < 64
  eventCount : r.eventCount ≤ 66
  events : ∀ e ∈ r.trace, e.pc < 64

/-- A result of a rejected program. -/
theorem castsExactly_rejected {p : InsnPtr} {n bad : Nat} (h : cbpfValidate p n = .error bad) :
    CastsExactly { RunState.init.r with pc := bad, status := .invalid } where
  pc := by
    cases firstFault_of_cbpfValidate h with
    | shape _ => exact Nat.zero_lt_succ 63
    | insn _ _ hle hlt _ _ =>
      change bad < 64
      omega
    | noReturn _ hpos hle _ _ =>
      change n - 1 < 64
      omega
  eventCount := Nat.zero_le 66
  events := by
    intro e he
    cases he

/-- The events of the cleanup loop carry the `pc` of the result. -/
theorem pc_of_mem_cleanupEvents {pc : Nat} {isLive : Nat → Bool} {l : List Nat} {refs : Int}
    {e : Event} (h : e ∈ RunState.cleanupEvents pc isLive l refs) : e.pc = pc := by
  induction l generalizing refs with
  | nil => cases h
  | cons i l ih =>
    rw [RunState.cleanupEvents] at h
    split at h
    · rcases List.mem_cons.mp h with rfl | h
      · rfl
      · exact ih h
    · exact ih h

open RunState in
/-- The state that the last pass leaves, or a pass stopped without event. -/
theorem last_pass {p : Nat → Insn} {n : Nat} (hv : Validated p n) {s t : RunState}
    (hs : (cbpfRunLoop p n).Visits init s)
    (ht : s.exec (p s.pc) = .finish t ∨ t = s.enter.invalid) :
    Inv t ∧ t.r.pc = s.pc ∧ t.r.eventCount ≤ s.r.eventCount + 1 ∧ t.r.events.length = 66 ∧
      ∀ e ∈ t.r.trace, e.pc < 64 := by
  have hle := hv.le
  obtain ⟨hinv, hpc⟩ := visits_inv hv hs
  obtain ⟨_, hslots, hroom⟩ := visits_room hv hs
  have hearlier : ∀ e ∈ s.r.trace, e.pc < 64 := by
    intro e he
    have := visits_earlier hv hs e he
    omega
  rcases ht with hexec | rfl
  · have hstep := finish_step hv hs hexec
    obtain ⟨_, hr, hlength⟩ := hstep.finish_frame
    obtain ⟨e₀, htrace, _, hpc₀⟩ := hstep.recorded hroom
    refine ⟨hinv.step hstep, by rw [hr], by rw [hr], hlength.trans hslots, ?_⟩
    intro e he
    have happend : t.r.trace = s.r.trace ++ [e₀] := htrace
    rw [happend] at he
    rcases List.mem_append.mp he with he | he
    · exact hearlier e he
    · rw [List.mem_singleton.mp he]
      omega
  · exact ⟨hinv.invalid, rfl, Nat.le_succ _, hslots, hearlier⟩

open RunState in
/-- The result of a run that passed validation. -/
theorem castsExactly_cleanup {p : Nat → Insn} {n : Nat} (hv : Validated p n) {s t : RunState}
    (hs : (cbpfRunLoop p n).Visits init s)
    (ht : s.exec (p s.pc) = .finish t ∨ t = s.enter.invalid) : CastsExactly t.cleanup.r := by
  have hle := hv.le
  obtain ⟨_, hpc⟩ := visits_inv hv hs
  obtain ⟨hroom, _⟩ := visits_room hv hs
  obtain ⟨hinv, htpc, hcount, hslots, hevents⟩ := last_pass hv hs ht
  have hacquired := hinv.acquired_le
  have hfits : t.r.eventCount + t.r.acquired ≤ t.r.events.length := by omega
  refine ⟨?_, ?_, ?_⟩
  · rw [pc_cleanup, htpc]
    omega
  · have := eventCount_cleanup t
    omega
  · intro e he
    rw [trace_cleanup hfits] at he
    rcases List.mem_append.mp he with he | he
    · exact hevents e he
    · rw [pc_of_mem_cleanupEvents he, htpc]
      omega

/-- The gate leaves a result of that form in either build. -/
theorem gate_castsExactly {Handle Object : Type} {pl : Platform Handle Object} (hpl : pl.Lawful)
    {p : InsnPtr} {n : Nat} (hvalid : cbpfValidate p n = .ok ()) :
    ∃ r, (cbpfGateRun pl p n false).map Prod.fst = some r ∧ CastsExactly r := by
  have hv := validated_of_cbpfValidate hvalid
  obtain ⟨g, t, hg, hexec, _, hresult⟩ := gate_run_finish hpl hvalid
  obtain ⟨s, hs, hsim⟩ := Sim.visits hpl hv hg
  obtain ⟨hinv, hpc⟩ := RunState.visits_inv hv hs
  refine ⟨_, by rw [hresult]; rfl, ?_⟩
  rw [hsim.pc] at hexec
  rcases hsim.exec_finish hpl hinv (hv.ok s.pc hpc) hexec with
    ⟨u, hexec', hsim'⟩ | ⟨_, _, _, _, hsim'⟩
  · rw [(hsim'.cleanup hpl).r]
    exact castsExactly_cleanup hv hs (.inl hexec')
  · rw [(hsim'.cleanup hpl).r]
    exact castsExactly_cleanup hv hs (.inr rfl)

/-- Every build ends with a result that fits the output. -/
theorem Build.interpret_castsExactly (b : Build) (p : InsnPtr) (n : Nat) :
    ∃ r, b.interpret p n = some r ∧ CastsExactly r := by
  cases hval : cbpfValidate p n with
  | error bad =>
    refine ⟨{ RunState.init.r with pc := bad, status := .invalid }, ?_, castsExactly_rejected hval⟩
    cases b <;> simp only [interpret, cbpfRun, cbpfGateRun, hval] <;> rfl
  | ok u =>
    cases b with
    | reference =>
      obtain ⟨s, t, hs, hexec, hrun⟩ := RunState.run_finish hval
      exact ⟨_, hrun, castsExactly_cleanup (validated_of_cbpfValidate hval) hs (.inl hexec)⟩
    | hostGate pointerBytes => exact gate_castsExactly (hostPlatform_lawful pointerBytes) hval
    | purecapGate l => exact gate_castsExactly (purecapPlatform_lawful l) hval

/-- The adapter is lossless and stays in its buffers, over each build and for every flat input, count
and buffer. A request that is not accepted returns 0 and writes nothing. Any other one runs the
program that carries the given integers, returns `15 + 5 * event_count` words, which fit, and leaves
the rest of the buffer alone; every reported field is recovered from the buffer. Only the words of
`count` instructions are read, and different observations never have the same words. -/
theorem conformance_lossless (b : Build) (input : Nat → Int) (count : Nat) (output : List Int) :
    (¬ Accepted input count output.length →
      conformanceCall b.interpret input count output = some (0, output)) ∧
    (Accepted input count output.length → ∃ (program : List Insn) (r : Result),
      program.length = count ∧
      (∀ i < count, Carries (fun j => input (4 * i + j)) ((InsnPtr.ofList program).deref i)) ∧
      b.interpret (.ofList program) count = some r ∧ CastsExactly r ∧
      15 + 5 * r.eventCount ≤ output.length ∧
      conformanceCall b.interpret input count output = some (15 + 5 * r.eventCount,
        resultWords r ++ output.drop (15 + 5 * r.eventCount)) ∧
      readResult (resultWords r ++ output.drop (15 + 5 * r.eventCount)) = observation r) ∧
    (∀ input', (∀ k < 4 * count, input' k = input k) →
      conformanceCall b.interpret input' count output =
        conformanceCall b.interpret input count output) ∧
    ∀ r r', observation r ≠ observation r' → resultWords r ≠ resultWords r' := by
  refine ⟨?_, ?_, ?_, ?_⟩
  · intro hno
    unfold conformanceCall
    by_cases hsize : count > cbpfMaxInsns ∨ output.length < outputWords
    · rw [if_pos hsize]
    · obtain ⟨hcount, hcapacity⟩ := not_or.mp hsize
      rw [if_neg hsize, decodeProgram_outOfRange]
      by_contra hall
      refine hno ⟨Nat.not_lt.mp hcount, Nat.not_lt.mp hcapacity, ?_⟩
      intro i hi
      by_contra hout
      exact hall ⟨i, hi, hout⟩
  · rintro ⟨hcount, hcapacity, hrange⟩
    obtain ⟨program, hdecode, hlength, hcarries⟩ := decodeProgram_inRange hrange
    obtain ⟨r, hrun, hcasts⟩ := b.interpret_castsExactly (.ofList program) count
    have hevents := hcasts.eventCount
    have hwords := length_resultWords r
    have hfits : 15 + 5 * r.eventCount ≤ output.length := by omega
    refine ⟨program, r, hlength, hcarries, hrun, hcasts, hfits, ?_, readResult_resultWords r _⟩
    have hput := Cursor.putAll_eq ⟨output, 0⟩ (resultWords r) (by
      change 0 + _ ≤ output.length
      omega)
    unfold conformanceCall
    rw [if_neg (by rw [outputWords, cbpfMaxInsns_eq, cbpfCells_eq, cbpfMaxEvents_eq]; omega), hdecode]
    simp only [hrun, Option.bind_some]
    rw [if_neg (by rw [cbpfMaxEvents_eq]; omega), hput, hwords]
    simp only [Option.map_some, List.take_zero, List.nil_append, Nat.zero_add]
  · intro input' hsame
    unfold conformanceCall
    rw [decodeProgram_congr hsame]
  · intro r r' hne heq
    exact hne (observation_eq_of_resultWords heq)

end Cbpf.Conformance
