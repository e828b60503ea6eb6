import Cbpf.Independence
import Cbpf.Representation

/-!
# Only executed instructions matter

Validation sees the whole text of a program, a run only the instructions at the `pc`s of its
events. Two valid programs that agree there visit the same states, whatever their lengths, and so
leave the same result: nothing after a trap or a `RETURN`, or on the arm of a branch that is not
taken, can influence it.
-/

namespace Cbpf

open BoundedLoop Cheri

/-- `q` has the instruction of `p` wherever `r` records that one was executed. -/
def Result.AgreesOn (r : Result) (p q : InsnPtr) : Prop :=
  ∀ e ∈ r.trace, e.kind ≠ .cleanup → q.deref e.pc = p.deref e.pc

/-- A property of both builds of `gate.c`. -/
def InEachBuild (P : (Handle Object : Type) → Platform Handle Object → Prop) : Prop :=
  (∀ pointerBytes, P _ _ (hostPlatform pointerBytes)) ∧ ∀ l, P _ _ (purecapPlatform l)

theorem inEachBuild_of_lawful {P : (Handle Object : Type) → Platform Handle Object → Prop}
    (h : ∀ (Handle Object : Type) (pl : Platform Handle Object), pl.Lawful → P _ _ pl) :
    InEachBuild P :=
  ⟨fun bytes => h _ _ _ (hostPlatform_lawful bytes), fun l => h _ _ _ (purecapPlatform_lawful l)⟩

namespace RunState

variable {p q : Nat → Insn} {n m : Nat} {s t : RunState}

/-- A pass records one event, of its own instruction. -/
theorem Step.recorded {x : Insn} {c : Control RunState} (hs : Step s x c)
    (hroom : s.r.eventCount < s.r.events.length) :
    ∃ e, c.state.r.trace = s.r.trace ++ [e] ∧ e.kind ≠ .cleanup ∧ e.pc = s.pc :=
  ⟨_, hs.trace hroom, eventKind_ne_cleanup c, rfl⟩

/-- The cleanup loop appends to the trace. -/
theorem trace_prefix_cleanup (hv : Validated p n) (hvisit : (cbpfRunLoop p n).Visits init s)
    (hexec : s.exec (p s.pc) = .finish t) : t.r.trace <+: t.cleanup.r.trace :=
  ⟨_, (trace_finish hv hvisit hexec).2.symm⟩

/-- The rest of a run keeps the trace and adds the event of the next pass. -/
theorem trace_run (hv : Validated p n) (hvisit : (cbpfRunLoop p n).Visits init s) {fuel : Nat}
    (hrun : (cbpfRunLoop p n).run fuel s = some t) :
    s.r.trace <+: t.r.trace ∧ ∃ e ∈ t.r.trace, e.kind ≠ .cleanup ∧ e.pc = s.pc := by
  induction fuel generalizing s with
  | zero => cases hrun
  | succ fuel ih =>
    rcases (cbpfRunLoop p n).pass_cases s with ⟨s', hg, hb⟩ | ⟨t', hexit⟩
    · obtain ⟨e, htrace, hkind, hpc⟩ :=
        (visits_step hv hvisit hb).recorded (visits_room hv hvisit).2.2
      rw [Loop.run_next hg hb] at hrun
      obtain ⟨hrest, _⟩ := ih (hvisit.pass hg hb) hrun
      have hkeep : s.r.trace <+: s'.r.trace := ⟨[e], htrace.symm⟩
      have hmem : e ∈ s'.r.trace := htrace ▸ List.mem_concat_self
      exact ⟨hkeep.trans hrest, e, hrest.subset hmem, hkind, hpc⟩
    · rw [Loop.run_exits hexit] at hrun
      obtain rfl := Option.some.inj hrun
      have hstep := finish_step hv hvisit (exits_exec hv hvisit hexit)
      obtain ⟨e, htrace, hkind, hpc⟩ := hstep.recorded (visits_room hv hvisit).2.2
      exact ⟨⟨[e], htrace.symm⟩, e, htrace ▸ List.mem_concat_self, hkind, hpc⟩

/-- Every visited instruction is recorded in the result. -/
theorem visited_recorded {p : InsnPtr} (hvalid : cbpfValidate p n = .ok ())
    (hvisit : (cbpfRunLoop p.deref n).Visits init s) {r : Result} (hrun : cbpfRun p n = some r) :
    ∃ e ∈ r.trace, e.kind ≠ .cleanup ∧ e.pc = s.pc := by
  have hv := validated_of_cbpfValidate hvalid
  obtain ⟨u, t, hu, hexec, hloop⟩ := loop_total hv (Nat.le_succ n)
  have hr := hrun.symm.trans (run_of_visits hvalid hu hexec)
  obtain rfl := Option.some.inj hr
  obtain ⟨k, hk⟩ := hvisit.resume hloop
  obtain ⟨_, e, he, hkind, hpc⟩ := trace_run hv hvisit hk
  exact ⟨e, (trace_prefix_cleanup hv hu hexec).subset he, hkind, hpc⟩

/-- Programs that agree wherever the first goes: the second goes there too. -/
theorem visits_of_agree (hw : Validated q m)
    (hagree : ∀ s, (cbpfRunLoop p n).Visits init s → q s.pc = p s.pc)
    (hvisit : (cbpfRunLoop p n).Visits init s) : (cbpfRunLoop q m).Visits init s := by
  apply hvisit.congr
  intro a ha ha' _
  have hpc := (visits_inv hw ha').2
  refine ⟨by simpa [cbpfRunLoop] using hpc, ?_⟩
  change a.exec (q a.pc) = a.exec (p a.pc)
  rw [hagree a ha]

end RunState

open RunState in
/-- The reference interpreter. -/
theorem cbpfRun_of_agree {p q : InsnPtr} {n m : Nat} (hp : cbpfValidate p n = .ok ())
    (hq : cbpfValidate q m = .ok ())
    (hagree : ∀ s, (cbpfRunLoop p.deref n).Visits .init s → q.deref s.pc = p.deref s.pc) :
    cbpfRun q m = cbpfRun p n := by
  obtain ⟨s, t, hs, hexec, hrun⟩ := run_finish hp
  have hs' := visits_of_agree (validated_of_cbpfValidate hq) hagree hs
  rw [hrun]
  exact run_of_visits hq hs' (by rw [hagree s hs]; exact hexec)

section Gate

variable {Handle Object : Type} {pl : Platform Handle Object} {p q : InsnPtr} {n m : Nat}
  {g t : GateState Handle Object}

/-- The gate on a valid program ends with a last pass. -/
theorem gate_run_finish (hpl : pl.Lawful) (hvalid : cbpfValidate p n = .ok ()) :
    ∃ g t, (cbpfGateRunLoop pl p.deref n).Visits (.init pl) g ∧
      g.exec pl (p.deref g.pc) = .finish t ∧
      (cbpfGateRunLoop pl p.deref n).run n (.init pl) = some t ∧
      ∀ metrics, cbpfGateRun pl p n metrics =
        some ((t.cleanup pl).r, if metrics then some (t.cleanup pl).m else none) := by
  obtain ⟨t, hrun, hcontained⟩ :=
    gateInterpreter_contained hpl (validated_of_cbpfValidate hvalid)
  obtain ⟨g, t', hg, hexec, hrun', _⟩ := hcontained.finish
  obtain rfl := Option.some.inj (hrun.symm.trans hrun')
  refine ⟨g, t, hg, hexec, hrun, ?_⟩
  intro metrics
  unfold cbpfGateRun
  simp only [hvalid, Loop.run_mono hrun (Nat.le_succ n), Option.map_some]

/-- The rest of a run of the gate keeps the trace and adds the event of the next pass, unless that
pass is a representation failure, which leaves its `pc` in the result. -/
theorem gate_trace_run (hpl : pl.Lawful) {p : Nat → Insn} (hv : Validated p n)
    (hg : (cbpfGateRunLoop pl p n).Visits (.init pl) g) {fuel : Nat}
    (hrun : (cbpfGateRunLoop pl p n).run fuel g = some t) :
    g.r.trace <+: t.r.trace ∧ ((∃ e ∈ t.r.trace, e.kind ≠ .cleanup ∧ e.pc = g.pc) ∨
      t.r.status = .invalid ∧ t.r.pc = g.pc) := by
  induction fuel generalizing g with
  | zero => cases hrun
  | succ fuel ih =>
    obtain ⟨s, hs, hsim⟩ := Sim.visits hpl hv hg
    obtain ⟨hinv, hpc⟩ := RunState.visits_inv hv hs
    have hguard : (cbpfGateRunLoop pl p n).guard g = true := by
      simpa [cbpfGateRunLoop, hsim.pc] using hpc
    cases hb : (cbpfGateRunLoop pl p n).body g with
    | next g' =>
      have hexec : g.exec pl (p s.pc) = .next g' := hsim.pc ▸ hb
      obtain ⟨s', hexec', hsim'⟩ := hsim.exec_next hpl hinv (hv.ok s.pc hpc) hexec
      obtain ⟨e, htrace, hkind, hepc⟩ :=
        (RunState.visits_step hv hs hexec').recorded (visits_room hv hs).2.2
      rw [Loop.run_next hguard hb] at hrun
      obtain ⟨hrest, _⟩ := ih (hg.pass hguard hb) hrun
      have hpass : g'.r.trace = g.r.trace ++ [e] := by
        rw [hsim.r, hsim'.r]
        exact htrace
      have hkeep : g.r.trace <+: g'.r.trace := ⟨[e], hpass.symm⟩
      have hmem : e ∈ g'.r.trace := hpass ▸ List.mem_concat_self
      exact ⟨hkeep.trans hrest, .inl ⟨e, hrest.subset hmem, hkind, hepc.trans hsim.pc.symm⟩⟩
    | finish g' =>
      rw [Loop.run_exits (.body hguard hb)] at hrun
      obtain rfl := Option.some.inj hrun
      have hexec : g.exec pl (p s.pc) = .finish g' := hsim.pc ▸ hb
      rcases hsim.exec_finish hpl hinv (hv.ok s.pc hpc) hexec with
        ⟨s', hexec', hsim'⟩ | ⟨_, _, _, _, hsim'⟩
      · obtain ⟨e, htrace, hkind, hepc⟩ :=
          (RunState.finish_step hv hs hexec').recorded (visits_room hv hs).2.2
        rw [hsim.r, hsim'.r]
        exact ⟨⟨[e], htrace.symm⟩,
          .inl ⟨e, htrace ▸ List.mem_concat_self, hkind, hepc.trans hsim.pc.symm⟩⟩
      · rw [hsim.r, hsim'.r]
        exact ⟨List.prefix_refl _, .inr ⟨rfl, hsim.pc.symm⟩⟩

/-- The gate, on programs that agree wherever it goes with the first. -/
theorem cbpfGateRun_of_agree (hpl : pl.Lawful) (hp : cbpfValidate p n = .ok ())
    (hq : cbpfValidate q m = .ok ())
    (hagree : ∀ g, (cbpfGateRunLoop pl p.deref n).Visits (.init pl) g →
      q.deref g.pc = p.deref g.pc) (metrics : Bool) :
    cbpfGateRun pl q m metrics = cbpfGateRun pl p n metrics := by
  obtain ⟨g, t, hg, hexec, _, hresult⟩ := gate_run_finish hpl hp
  obtain ⟨_, t', _, _, hrun', hresult'⟩ := gate_run_finish hpl hq
  have hinside : ∀ a, (cbpfGateRunLoop pl q.deref m).Visits (.init pl) a →
      (cbpfGateRunLoop pl q.deref m).guard a = true := by
    intro a ha
    obtain ⟨s, hs, hsim⟩ := Sim.visits hpl (validated_of_cbpfValidate hq) ha
    have hpc := (RunState.visits_inv (validated_of_cbpfValidate hq) hs).2
    simpa [cbpfGateRunLoop, hsim.pc] using hpc
  have hg' : (cbpfGateRunLoop pl q.deref m).Visits (.init pl) g := by
    apply hg.congr
    intro a ha ha' _
    refine ⟨hinside a ha', ?_⟩
    change a.exec pl (q.deref a.pc) = a.exec pl (p.deref a.pc)
    rw [hagree a ha]
  rw [← hagree g hg] at hexec
  obtain rfl := hg'.run_eq (.body (hinside g hg') hexec) hrun'
  rw [hresult, hresult']

/-- The cleanup loop of the gate appends to the trace and leaves status and `pc`. -/
theorem gate_cleanup_prefix (hpl : pl.Lawful) {p : Nat → Insn} (hv : Validated p n)
    (hg : (cbpfGateRunLoop pl p n).Visits (.init pl) g) (hexec : g.exec pl (p g.pc) = .finish t) :
    t.r.trace <+: (t.cleanup pl).r.trace ∧ (t.cleanup pl).r.status = t.r.status ∧
      (t.cleanup pl).r.pc = t.r.pc := by
  obtain ⟨s, hs, hsim⟩ := Sim.visits hpl hv hg
  obtain ⟨hinv, hpc⟩ := RunState.visits_inv hv hs
  rw [hsim.pc] at hexec
  rcases hsim.exec_finish hpl hinv (hv.ok s.pc hpc) hexec with
    ⟨s', hexec', hsim'⟩ | ⟨_, _, _, _, hsim'⟩
  · rw [(hsim'.cleanup hpl).r, hsim'.r]
    exact ⟨RunState.trace_prefix_cleanup hv hs hexec', RunState.status_cleanup s',
      RunState.pc_cleanup s'⟩
  · rw [(hsim'.cleanup hpl).r, hsim'.r]
    obtain ⟨hroom, hslots, _⟩ := visits_room hv hs
    have hcount : s.enter.invalid.r.eventCount ≤ n := by
      change s.r.eventCount ≤ n
      omega
    obtain ⟨hfits, _⟩ := ends_room hv hinv.invalid hslots hcount
    exact ⟨⟨_, (RunState.trace_cleanup hfits).symm⟩, RunState.status_cleanup _,
      RunState.pc_cleanup _⟩

/-- Every instruction that the gate visits is recorded in its result, but that of a representation
failure, whose `pc` the result has. -/
theorem gate_visited_recorded (hpl : pl.Lawful) (hvalid : cbpfValidate p n = .ok ())
    (hg : (cbpfGateRunLoop pl p.deref n).Visits (.init pl) g) {metrics : Bool} {r : Result}
    {ms : Option GateMetrics} (hrun : cbpfGateRun pl p n metrics = some (r, ms)) :
    (∃ e ∈ r.trace, e.kind ≠ .cleanup ∧ e.pc = g.pc) ∨ r.status = .invalid ∧ r.pc = g.pc := by
  have hv := validated_of_cbpfValidate hvalid
  obtain ⟨u, t, hu, hexec, hloop, hresult⟩ := gate_run_finish hpl hvalid
  obtain rfl : r = (t.cleanup pl).r :=
    congrArg Prod.fst (Option.some.inj (hrun.symm.trans (hresult metrics)))
  obtain ⟨k, hk⟩ := hg.resume hloop
  obtain ⟨hcleanup, hstatus, hpc⟩ := gate_cleanup_prefix hpl hv hu hexec
  rcases (gate_trace_run hpl hv hg hk).2 with ⟨e, he, hkind, hepc⟩ | ⟨hinvalid, hlast⟩
  · exact .inl ⟨e, hcleanup.subset he, hkind, hepc⟩
  · exact .inr ⟨hstatus.trans hinvalid, hpc.trans hlast⟩

end Gate

/-- Only executed instructions matter. A program that agrees with `p` at the events of a run of `p`
by `cbpf_run` leaves the same result there and in both builds of the gate. One that agrees with `p`
at the events of a run of the gate leaves the same result in that build; after a representation
failure, which ends a run without an event, it must agree at the `pc` of the failure too. -/
theorem only_executed_matter (p q : InsnPtr) (n m : Nat) (hp : cbpfValidate p n = .ok ())
    (hq : cbpfValidate q m = .ok ()) :
    (∀ r, cbpfRun p n = some r → r.AgreesOn p q →
      cbpfRun q m = some r ∧
      InEachBuild fun _ _ pl => ∀ metrics,
        cbpfGateRun pl q m metrics = cbpfGateRun pl p n metrics) ∧
    InEachBuild fun _ _ pl => ∀ metrics r ms, cbpfGateRun pl p n metrics = some (r, ms) →
      r.AgreesOn p q → (r.status = .invalid → q.deref r.pc = p.deref r.pc) →
      cbpfGateRun pl q m metrics = some (r, ms) := by
  constructor
  · intro r hrun hagree
    have hvisited : ∀ s, (cbpfRunLoop p.deref n).Visits .init s → q.deref s.pc = p.deref s.pc := by
      intro s hs
      obtain ⟨e, he, hkind, hpc⟩ := RunState.visited_recorded hp hs hrun
      exact hpc ▸ hagree e he hkind
    refine ⟨(cbpfRun_of_agree hp hq hvisited).trans hrun, inEachBuild_of_lawful ?_⟩
    intro Handle Object pl hpl
    apply cbpfGateRun_of_agree hpl hp hq
    intro g hg
    obtain ⟨s, hs, hsim⟩ := Sim.visits hpl (validated_of_cbpfValidate hp) hg
    rw [hsim.pc]
    exact hvisited s hs
  · apply inEachBuild_of_lawful
    intro Handle Object pl hpl metrics r ms hrun hagree hfailed
    rw [← hrun]
    apply cbpfGateRun_of_agree hpl hp hq
    intro g hg
    rcases gate_visited_recorded hpl hp hg hrun with ⟨e, he, hkind, hpc⟩ | ⟨hinvalid, hpc⟩
    · exact hpc ▸ hagree e he hkind
    · exact hpc ▸ hfailed hinvalid

/-- A read of NULL, and what `check_conformance.py` appends to a trapping history. -/
def readNull : List Insn := [⟨.read, 0, 0, 0⟩, ⟨.ret, 0, 0, 0⟩]

/-- The same read before other instructions. -/
def readNullThenAcquire : List Insn :=
  [⟨.read, 0, 0, 0⟩, ⟨.acquire, 0, 0, 1⟩, ⟨.release, 0, 0, 0⟩, ⟨.ret, 0, 0, 9⟩]

theorem only_executed_matter_readNull :
    cbpfRun (.ofList readNullThenAcquire) 4 = cbpfRun (.ofList readNull) 2 := by
  obtain ⟨r, hrun⟩ := cbpfRun_isSome (.ofList readNull) 2
  have hr : r = (cbpfRun (.ofList readNull) 2).getD .zero := by rw [hrun]; rfl
  have hagree : r.AgreesOn (.ofList readNull) (.ofList readNullThenAcquire) := by
    rw [hr]
    unfold Result.AgreesOn
    decide
  rw [hrun]
  exact ((only_executed_matter (.ofList readNull) (.ofList readNullThenAcquire) 2 4 (by decide)
    (by decide)).1 r hrun hagree).1

end Cbpf
