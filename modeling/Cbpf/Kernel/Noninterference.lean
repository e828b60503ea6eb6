import Cbpf.Kernel.System
import Cbpf.Lib.Shuffle

/-!
# Invocations do not notice each other

The CPUs share the provider object, whose reference count every acquisition and every release changes.
No gate, no teardown and no entry decides on it: it is only printed. So an invocation gets the same
capabilities, values and results, and prints the same lines but for the count, whatever other CPUs do.
-/

namespace Cbpf.Kernel

open Cheri Interleaving

/-- A line without the reference count. -/
def LogLine.withoutRefs : LogLine → LogLine
  | .gate record => .gate { record with refs := 0 }
  | line => line

/-- The same lines, but for the reference counts. -/
def SameLines (printed printed' : List LogLine) : Prop :=
  printed.map LogLine.withoutRefs = printed'.map LogLine.withoutRefs

theorem SameLines.append {printed printed' : List LogLine} (h : SameLines printed printed')
    {line line' : LogLine} (hline : line.withoutRefs = line'.withoutRefs) :
    SameLines (printed ++ [line]) (printed' ++ [line']) := by
  unfold SameLines at h ⊢
  simp [h, hline]

/-- Another reference count, and lines that were printed with another one. -/
def Running.recount (g : Running) (refs : Int) (printed : List LogLine) : Running where
  object := { g.object with refs := refs }
  s := { g.s with printed := printed }

/-- Alike but for the reference count, now and whenever a line was printed. -/
inductive Alike : Running → Running → Prop
  | recount {g : Running} (refs : Int) {printed : List LogLine} : SameLines printed g.s.printed →
      Alike g (g.recount refs printed)

namespace Alike

variable {g g' : Running}

theorem refl (g : Running) : Alike g g := .recount (g := g) g.object.refs rfl

theorem symm (h : Alike g g') : Alike g' g := by
  cases h with
  | recount refs hp => exact .recount g.object.refs (Eq.symm hp)

/-- Another CPU's step. -/
theorem object {o o' : ProviderObject} {s : Invocation} (h : Alike ⟨o, s⟩ g')
    (ho : o'.value = o.value) : Alike ⟨o', s⟩ g' := by
  obtain ⟨value, refs⟩ := o
  obtain ⟨value', refs'⟩ := o'
  obtain rfl : value' = value := ho
  cases h with
  | recount refs hp => exact .recount (g := ⟨⟨value', refs'⟩, s⟩) refs hp

theorem lines (h : Alike g g') :
    g.s.printed.map LogLine.withoutRefs = g'.s.printed.map LogLine.withoutRefs := by
  cases h with
  | recount refs hp => exact Eq.symm hp

/-! ### The operations of the gate -/

theorem trace (h : Alike g g') (event : TraceEvent) (pc id : Nat) :
    Alike (g.trace event pc id) (g'.trace event pc id) := by
  cases h with
  | recount refs hp => exact .recount (g := g.trace event pc id) refs (hp.append rfl)

theorem print (h : Alike g g') (line : LogLine) : Alike (g.print line) (g'.print line) := by
  cases h with
  | recount refs hp => exact .recount (g := g.print line) refs (hp.append rfl)

theorem fail (h : Alike g g') (pc : Nat) : Alike (g.fail pc) (g'.fail pc) := by
  have hfailed : Alike { g with s := { g.s with failed := true } }
      { g' with s := { g'.s with failed := true } } := by
    cases h with
    | recount refs hp => exact .recount (g := { g with s := { g.s with failed := true } }) refs hp
  exact hfailed.trace .reject pc 0

theorem countRead (h : Alike g g') : Alike g.countRead g'.countRead := by
  cases h with
  | recount refs hp => exact .recount (g := g.countRead) refs hp

theorem bind (h : Alike g g') (index : Nat) (object view : Capability) :
    Alike (g.bind index object view) (g'.bind index object view) := by
  cases h with
  | recount refs hp => exact .recount (g := g.bind index object view) (refs + 1) hp

theorem consume (h : Alike g g') (index pc : Nat) (cleanup : Bool) :
    Alike (g.consume index pc cleanup) (g'.consume index pc cleanup) := by
  have hclear : Alike (g.clearCell index) (g'.clearCell index) := by
    cases h with
    | recount refs hp => exact .recount (g := g.clearCell index) refs hp
  have hcount : ∀ {u u' : Running}, Alike u u' →
      Alike (u.decRefs.countRelease cleanup) (u'.decRefs.countRelease cleanup) := by
    intro u u' hu
    cases hu with
    | recount refs hp => exact .recount (g := u.decRefs.countRelease cleanup) (refs - 1) hp
  exact (hcount (hclear.trace .clear pc (index + 1))).trace _ pc (index + 1)

/-! ### Gate calls -/

theorem gateAcquire (h : Alike g g') (env : Env) (argument : Capability) (pc : Nat) :
    Alike (g.gateAcquire env argument pc).1 (g'.gateAcquire env argument pc).1 ∧
      (g.gateAcquire env argument pc).2 = (g'.gateAcquire env argument pc).2 := by
  have hfail := h.fail pc
  have hnull := h.trace .null pc 0
  have hacquired : g'.s.acquired = g.s.acquired := by
    cases h
    rfl
  have hview : g'.s.viewFor env g.s.acquired = g.s.viewFor env g.s.acquired := by
    cases h
    rfl
  have haddr : g'.s.cellAddr g.s.acquired = g.s.cellAddr g.s.acquired := by
    cases h
    rfl
  unfold Running.gateAcquire
  dsimp only
  rw [hacquired, hview, haddr]
  by_cases hargument : argument.tag || argument.address > 1
  · rw [if_pos hargument, if_pos hargument]
    exact ⟨hfail, rfl⟩
  rw [if_neg hargument, if_neg hargument]
  by_cases hzero : argument.address ≠ 0
  · rw [if_pos hzero, if_pos hzero]
    exact ⟨hnull, rfl⟩
  rw [if_neg hzero, if_neg hzero]
  by_cases hfull : g.s.acquired = numCells
  · rw [if_pos hfull, if_pos hfull]
    exact ⟨hfail, rfl⟩
  rw [if_neg hfull, if_neg hfull]
  by_cases hexact : !(g.s.viewFor env g.s.acquired).tag || !(objectCap env).tag
  · rw [if_pos hexact, if_pos hexact]
    exact ⟨hfail, rfl⟩
  · rw [if_neg hexact, if_neg hexact]
    exact ⟨((h.bind _ _ _).print _).trace .acquire pc _, rfl⟩

theorem gateUse (h : Alike g g') (argument : Capability) (operation pc : Nat) :
    Alike (g.gateUse argument operation pc).1 (g'.gateUse argument operation pc).1 ∧
      (g.gateUse argument operation pc).2 = (g'.gateUse argument operation pc).2 := by
  have hfail := h.fail pc
  have hfind : g'.findView argument = g.findView argument := by
    cases h
    rfl
  have hacquired : g'.s.acquired = g.s.acquired := by
    cases h
    rfl
  have hcell : g'.s.cellAt (g.findView argument) = g.s.cellAt (g.findView argument) := by
    cases h
    rfl
  have hvalue : g'.object.value = g.object.value := by
    cases h
    rfl
  unfold Running.gateUse
  dsimp only
  rw [hfind, hacquired, hcell, hvalue]
  by_cases hstale : g.findView argument = g.s.acquired || !(g.s.cellAt (g.findView argument)).tag
  · rw [if_pos hstale, if_pos hstale]
    exact ⟨hfail, rfl⟩
  rw [if_neg hstale, if_neg hstale]
  by_cases hread : operation = 2
  · rw [if_pos hread, if_pos hread]
    exact ⟨h.countRead.trace .read pc _, rfl⟩
  · rw [if_neg hread, if_neg hread]
    exact ⟨h.consume _ pc false, rfl⟩

theorem call (h : Alike g g') (env : Env) (c : GateCall) :
    Alike (g.call env c).1 (g'.call env c).1 ∧ (g.call env c).2 = (g'.call env c).2 := by
  have hfail := h.fail c.pc
  have hacquire := h.gateAcquire env c.argument c.pc
  have huse := h.gateUse c.argument c.operation c.pc
  have hactive : (!g'.s.entered || g'.s.failed) = (!g.s.entered || g.s.failed) := by
    cases h
    rfl
  unfold Running.call Running.gateImpl
  rw [hactive]
  by_cases hinactive : !g.s.entered || g.s.failed
  · rw [if_pos hinactive, if_pos hinactive]
    exact ⟨hfail, rfl⟩
  rw [if_neg hinactive, if_neg hinactive]
  by_cases hone : c.operation = 1
  · rw [if_pos hone, if_pos hone]
    exact hacquire
  rw [if_neg hone, if_neg hone]
  by_cases hother : c.operation ≠ 2 ∧ c.operation ≠ 3
  · rw [if_pos hother, if_pos hother]
    exact ⟨hfail, rfl⟩
  · rw [if_neg hother, if_neg hother]
    exact huse

/-! ### The teardown -/

theorem teardownCell (h : Alike g g') (index : Nat) :
    Alike (g.teardownCell index) (g'.teardownCell index) := by
  have hcell : g'.s.cellAt index = g.s.cellAt index := by
    cases h
    rfl
  unfold Running.teardownCell
  rw [hcell]
  by_cases htag : (g.s.cellAt index).tag
  · rw [if_pos htag, if_pos htag]
    exact h.consume index u64Max true
  · rw [if_neg htag, if_neg htag]
    exact h

theorem teardownCells (h : Alike g g') (indices : List Nat) :
    Alike (indices.foldl Running.teardownCell g) (indices.foldl Running.teardownCell g') := by
  induction indices generalizing g g' with
  | nil => exact h
  | cons index indices ih => exact ih (h.teardownCell index)

theorem judge (h : Alike g g') : Alike g.judge g'.judge := by
  cases h with
  | @recount refs printed hp =>
    unfold Running.judge
    by_cases hjudged : !g.s.entered || g.s.acquired ≠ g.s.released
    · have hjudged' : !(g.recount refs printed).s.entered ||
          (g.recount refs printed).s.acquired ≠ (g.recount refs printed).s.released := hjudged
      rw [if_pos hjudged, if_pos hjudged']
      exact .recount (g := { g with s := { g.s with failed := true } }) refs hp
    · have hjudged' : ¬ (!(g.recount refs printed).s.entered ||
          (g.recount refs printed).s.acquired ≠ (g.recount refs printed).s.released) := hjudged
      rw [if_neg hjudged, if_neg hjudged']
      exact .recount refs hp

theorem scrub (h : Alike g g') : Alike g.scrub g'.scrub := by
  cases h with
  | recount refs hp => exact .recount (g := g.scrub) refs hp

theorem teardown (h : Alike g g') (result : Nat) :
    Alike (g.teardown result).1 (g'.teardown result).1 ∧
      (g.teardown result).2 = (g'.teardown result).2 := by
  have hacquired : g'.s.acquired = g.s.acquired := by
    cases h
    rfl
  have hjudged := (h.teardownCells (List.range g.s.acquired)).judge
  unfold Running.teardown
  rw [hacquired]
  generalize ((List.range g.s.acquired).foldl Running.teardownCell g).judge = u at hjudged ⊢
  generalize ((List.range g.s.acquired).foldl Running.teardownCell g').judge = u' at hjudged ⊢
  cases hjudged with
  | recount refs hp =>
    have htraced := (recount refs hp).trace (if u.s.failed then .failed else .exit) u64Max 0
    exact ⟨(htraced.print _).scrub, rfl⟩

end Alike

theorem value_teardownCells (g : Running) (indices : List Nat) :
    (indices.foldl Running.teardownCell g).object.value = g.object.value := by
  induction indices generalizing g with
  | nil => rfl
  | cons index indices ih =>
    rw [List.foldl_cons, ih, Running.teardownCell]
    split <;> rfl

theorem value_teardown (g : Running) (result : Nat) :
    (g.teardown result).1.object.value = g.object.value := by
  have hjudge := judge_frame ((List.range g.s.acquired).foldl Running.teardownCell g)
  change ((List.range g.s.acquired).foldl Running.teardownCell g).judge.object.value = _
  rw [hjudge]
  exact value_teardownCells g _

/-! ### What a CPU observes -/

/-- What a step of a CPU shows: its arguments, and the capability, the value or the lines that come
out of it. -/
inductive CpuEvent where
  | start (prog cellsAddr : Nat)
  | enter (ctx : EnterContext) (a : EnterArgs) (entry : Entry)
  | gate (c : GateCall) (result : Capability)
  | teardown (result ret : Nat) (printed : List LogLine)

/-- The steps of a CPU with what they show. -/
inductive CpuMove (env : Env) : CpuEvent → ProviderObject → Option Invocation → ProviderObject →
    Option Invocation → Prop
  | start {o : ProviderObject} (prog cellsAddr : Nat) :
      CpuMove env (.start prog cellsAddr) o none o (some (.zeroed prog cellsAddr))
  | enter {o : ProviderObject} {s s' : Invocation} {ctx : EnterContext} {a : EnterArgs} {e : Entry} :
      cbpfEnter env ctx a s = .ok (s', e) → CpuMove env (.enter ctx a e) o (some s) o (some s')
  | gate {o : ProviderObject} {s : Invocation} (c : GateCall) : s.failed = false →
      CpuMove env (.gate c (Running.call ⟨o, s⟩ env c).2) o (some s)
        (Running.call ⟨o, s⟩ env c).1.object (some (Running.call ⟨o, s⟩ env c).1.s)
  | teardown {o : ProviderObject} {s : Invocation} (result : Nat) :
      CpuMove env (.teardown result (Running.teardown ⟨o, s⟩ result).2
        ((Running.teardown ⟨o, s⟩ result).1.s.printed.map LogLine.withoutRefs)) o (some s)
        (Running.teardown ⟨o, s⟩ result).1.object none

variable {env : Env}

theorem cpuStep_iff_move {o o' : ProviderObject} {l l' : Option Invocation} :
    CpuStep env o l o' l' ↔ ∃ e, CpuMove env e o l o' l' := by
  constructor
  · intro h
    cases h with
    | start prog cellsAddr => exact ⟨_, .start prog cellsAddr⟩
    | enter h => exact ⟨_, .enter h⟩
    | gate c h => exact ⟨_, .gate c h⟩
    | teardown result => exact ⟨_, .teardown result⟩
  · rintro ⟨e, h⟩
    cases h with
    | start prog cellsAddr => exact .start prog cellsAddr
    | enter h => exact .enter h
    | gate c h => exact .gate c h
    | teardown result => exact .teardown result

/-- The same value of the object, and invocations that are alike. -/
inductive Unnoticed : ProviderObject → Option Invocation → ProviderObject → Option Invocation → Prop
  | idle {o o' : ProviderObject} : o.value = o'.value → Unnoticed o none o' none
  | busy {o o' : ProviderObject} {s s' : Invocation} : Alike ⟨o, s⟩ ⟨o', s'⟩ →
      Unnoticed o (some s) o' (some s')

theorem Unnoticed.value {o o' : ProviderObject} {l l' : Option Invocation}
    (h : Unnoticed o l o' l') : o.value = o'.value := by
  cases h with
  | idle h => exact h
  | busy h =>
    cases h
    rfl

theorem Unnoticed.of_alike {g g' : Running} (h : Alike g g') :
    Unnoticed g.object (some g.s) g'.object (some g'.s) := .busy h

/-- No step changes the value of the object. -/
theorem CpuMove.value {e : CpuEvent} {o o' : ProviderObject} {l l' : Option Invocation}
    (h : CpuMove env e o l o' l') : o'.value = o.value := by
  cases h with
  | start => rfl
  | enter => rfl
  | gate c => exact (call_step env _ c).frame.2.2.2.2
  | teardown result => exact value_teardown _ result

/-- An entry does not look at what has been printed. -/
theorem cbpfEnter_printed (env : Env) (ctx : EnterContext) (a : EnterArgs) (s : Invocation)
    (printed : List LogLine) : cbpfEnter env ctx a { s with printed := printed } =
      (cbpfEnter env ctx a s).map fun out =>
        ({ out.1 with printed := printed ++ [enterLine ctx a] }, out.2) := by
  have hinvalid : enterInvalid { s with printed := printed } ctx a = enterInvalid s ctx a := rfl
  unfold cbpfEnter
  rw [hinvalid]
  dsimp only
  split
  · rfl
  · split
    · rfl
    · split
      · rfl
      · split <;> rfl

/-- An entry looks at nothing that other CPUs change. -/
theorem Alike.enter {o o' : ProviderObject} {s s' u : Invocation} {ctx : EnterContext}
    {a : EnterArgs} {e : Entry} (h : Alike ⟨o, s⟩ ⟨o', s'⟩) (henter : cbpfEnter env ctx a s = .ok (u, e)) :
    ∃ u', cbpfEnter env ctx a s' = .ok (u', e) ∧ Alike ⟨o, u⟩ ⟨o', u'⟩ := by
  obtain ⟨_, _, hu⟩ := cbpfEnter_ok henter
  cases h with
  | @recount refs printed hp =>
    refine ⟨{ s with entered := true, printed := printed ++ [enterLine ctx a] }, ?_, ?_⟩
    · change cbpfEnter env ctx a { s with printed := printed } = _
      rw [cbpfEnter_printed, henter, hu]
      rfl
    · rw [hu]
      exact .recount (g := ⟨o, { s with entered := true, printed := s.printed ++ [enterLine ctx a] }⟩)
        refs (hp.append rfl)

/-- What other CPUs do is not noticed. -/
theorem indistinguishable_unnoticed : Indistinguishable (CpuMove env) Unnoticed where
  refl := by
    rintro o (_ | s)
    · exact .idle rfl
    · exact .busy (.refl _)
  symm := by
    intro o l o' l' h
    cases h with
    | idle h => exact .idle h.symm
    | busy h => exact .busy h.symm
  own := by
    intro e o l o' l' u k h hmove
    cases hmove with
    | start prog cellsAddr =>
      cases h with
      | idle h =>
        refine ⟨o', _, .start prog cellsAddr, .busy ?_⟩
        exact Alike.object (.symm (Alike.object (.refl _) h.symm)) rfl
    | enter henter =>
      cases h with
      | busy h =>
        obtain ⟨u', henter', halike⟩ := h.enter henter
        exact ⟨_, _, .enter henter', .busy halike⟩
    | gate c hfailed =>
      cases h with
      | busy h =>
        obtain ⟨halike, hresult⟩ := h.call env c
        rw [hresult]
        refine ⟨_, _, .gate c ?_, .of_alike halike⟩
        cases h
        exact hfailed
    | teardown result =>
      cases h with
      | busy h =>
        obtain ⟨halike, hret⟩ := h.teardown result
        rw [hret, halike.lines]
        exact ⟨_, _, .teardown result, .idle (Unnoticed.of_alike halike).value⟩
  other := by
    intro e o l o' l' k u m h hmove
    have hvalue := hmove.value
    cases h with
    | idle h => exact .idle (hvalue.trans h)
    | busy h => exact .busy (h.object hvalue)

/-- The sequences of events on any number of CPUs are the shuffles of those that each CPU can do
alone. -/
theorem cpus_independent {Cpu : Type} [DecidableEq Cpu] (env : Env) :
    (∀ o l o' l', CpuStep env o l o' l' ↔ ∃ e, CpuMove env e o l o' l') ∧
    ∀ es : List (Cpu × CpuEvent), Together (CpuMove env) (idle Cpu) es ↔
      ∀ cpu, Alone (CpuMove env) ⟨42, 1⟩ none (project cpu es) :=
  ⟨fun _ _ _ _ => cpuStep_iff_move, together_iff indistinguishable_unnoticed⟩

end Cbpf.Kernel
