import Cbpf.Kernel.Teardown

/-!
# The controls before registration (`linux/ownership/cbpf_runtime.c`, lines 176-376)

`cbpf_cap_init` runs five controls of the resolver on an invocation of their own, on the stack, and
registers the kfuncs when all of them pass. A control installs its invocation in `cbpf_active`,
makes gate calls and takes everything back at `out`, wherever it stopped.
-/

namespace Cbpf.Kernel

open Cheri

/-- `CBPF_GUARD` and `CBPF_CALLBACK` lines, without pointers. -/
inductive ControlLine where
  | guardBegin (name : String)
  | guardResult (name : String) (pass : Bool) (acquired released reads cleanup : Nat) (refs : Int)
      (publicTag canonical tagA failed failureReturn : Bool)
  | callbackBegin (name : String) (limit : Nat)
  | callbackEnter (iteration id : Nat) (publicTag canonical privateTag : Bool)
  | callbackResult (name : String) (pass : Bool) (calls completed value : Nat)
      (acquired released reads cleanup : Nat) (refs : Int) (failed dispatched : Bool)
  deriving DecidableEq, Repr

/-- What a control leaves: the object, `cbpf_active`, its lines and its verdict. -/
structure Control where
  object : ProviderObject
  active : Option Invocation
  lines : List ControlLine
  pass : Bool

/-- `struct cbpf_invocation state = { .entered = true }`. -/
def controlState (cellsAddr : Nat) : Invocation :=
  { Invocation.zeroed 0 cellsAddr with entered := true }

/-- The loop at `out`: every cell that is still tagged is consumed. -/
def Running.cleanCells (g : Running) : Running := (List.range numCells).foldl Running.teardownCell g

/-! ### `cbpf_guard_check` -/

/-- Where `cbpf_guard_check` arrives at `out`. -/
structure GuardOut where
  g : Running
  stale : Capability
  failureReturn : Bool
  pass : Bool

/-- A consumed identity whose public capability remains intact. -/
def consumedIntact (g : Running) (stale : Capability) : Bool :=
  stale.tag && stale == g.s.viewAt 0 && !(g.s.cellAt 0).tag && g.s.acquired == 1 &&
    g.s.released == 1 && g.s.reads == 0 && g.s.cleanup == 0 && g.object.refs == 1

/-- The gate calls of `cbpf_guard_check`; `stale` is its variable `alias`. -/
def guardCalls (env : Env) (g : Running) (useSpill : Bool) (operation : Nat) : GuardOut :=
  let (g, original) := g.gateImpl env .null 1 0
  if g.s.failed || !original.tag || g.s.acquired != 1 || g.s.released != 0 || g.s.reads != 0 ||
      g.s.cleanup != 0 || g.object.refs != 2 then ⟨g, .null, false, false⟩
  else
    let stale := original
    let spill := if useSpill then stale else .null
    let (g, released) := g.gateImpl env original 3 1
    if released.address != 0 || g.s.failed then ⟨g, stale, false, false⟩
    else
      let stale := if useSpill then spill else stale
      if !consumedIntact g stale then ⟨g, stale, false, false⟩
      else
        let (g, value) := g.gateImpl env stale operation 2
        let failureReturn := value.address == u64Max
        -- a rejected execution ends here: there are no further gate calls
        ⟨g, stale, failureReturn, failureReturn && g.s.failed && consumedIntact g stale⟩

/-- The result line of `cbpf_guard_check`. -/
def GuardOut.result (out : GuardOut) (name : String) : ControlLine :=
  .guardResult name out.pass out.g.s.acquired out.g.s.released out.g.s.reads out.g.s.cleanup
    out.g.object.refs out.stale.tag (out.stale == out.g.s.viewAt 0) (out.g.s.cellAt 0).tag
    out.g.s.failed out.failureReturn

/-- `cbpf_guard_check`. -/
def cbpfGuardCheck (env : Env) (name : String) (useSpill : Bool) (operation cellsAddr : Nat)
    (object : ProviderObject) (active : Option Invocation) : Control :=
  let fresh : Running := ⟨object, controlState cellsAddr⟩
  if active.isSome || object.refs != 1 then
    ⟨object, active, [.guardBegin name, GuardOut.result ⟨fresh, .null, false, false⟩ name], false⟩
  else
    let out := guardCalls env fresh useSpill operation
    let out := { out with g := out.g.cleanCells }
    ⟨out.g.object, none, [.guardBegin name, out.result name], out.pass⟩

/-! ### `cbpf_callback_check` -/

/-- `struct cbpf_callback_context`. -/
structure CallbackContext where
  aliases : List Capability
  calls : Nat
  completed : Nat
  value : Nat
  independent : Bool

/-- `struct cbpf_callback_context ctx = { .independent = independent }`. -/
def CallbackContext.zeroed (independent : Bool) : CallbackContext where
  aliases := List.replicate 2 .null
  calls := 0
  completed := 0
  value := 0
  independent := independent

/-- `ctx->aliases[i]`. -/
def CallbackContext.aliasAt (ctx : CallbackContext) (i : Nat) : Capability := ctx.aliases.getD i .null

/-- What the callbacks work on: the invocation in `cbpf_active`, their context and the lines printed so
far. -/
structure Dispatch where
  g : Running
  ctx : CallbackContext
  lines : List ControlLine

/-- `cbpf_ownership_callback`. -/
def cbpfOwnershipCallback (env : Env) (d : Dispatch) (iteration : Nat) : Dispatch × Bool :=
  let index := if d.ctx.independent then iteration else 0
  let pc := 4 + 2 * iteration
  let held := d.ctx.aliasAt index
  let canonical := held == d.g.s.viewAt index
  let d := { d with
    ctx := { d.ctx with calls := u32Inc d.ctx.calls }
    lines := d.lines ++
      [ControlLine.callbackEnter iteration (index + 1) held.tag canonical (d.g.s.cellAt index).tag] }
  if !canonical || !held.tag then ({ d with g := d.g.fail pc }, false)
  else if d.ctx.independent && iteration == 1 then
    let (g, value) := d.g.gateImpl env held 2 pc
    if g.s.failed then ({ d with g := g }, false)
    else
      let (g, _) := g.gateImpl env held 3 (pc + 1)
      ({ d with g := g, ctx := { d.ctx with value := value.address % 2 ^ 32 } }, !g.s.failed)
  else
    let (g, _) := d.g.gateImpl env held 3 pc
    ({ d with g := g }, !g.s.failed)

/-- The loop of `cbpf_dispatch_callbacks` with `n` iterations to go. -/
def dispatchFrom (callback : Dispatch → Nat → Dispatch × Bool) :
    Nat → Nat → Dispatch → Dispatch × Bool
  | 0, _, d => (d, true)
  | n + 1, iteration, d =>
    let (d, ok) := callback d iteration
    if !ok then (d, false)
    else dispatchFrom callback n (iteration + 1)
      { d with ctx := { d.ctx with completed := u32Inc d.ctx.completed } }

/-- `cbpf_dispatch_callbacks`. -/
def cbpfDispatchCallbacks (callback : Dispatch → Nat → Dispatch × Bool) (limit : Nat)
    (d : Dispatch) : Dispatch × Bool := dispatchFrom callback limit 0 d

/-- The acquire loop of `cbpf_callback_check` with `n` aliases to go. -/
def acquireAliases (env : Env) : Nat → Nat → Dispatch → Dispatch × Bool
  | 0, _, d => (d, true)
  | n + 1, index, d =>
    let (g, held) := d.g.gateImpl env .null 1 index
    let d := { d with g := g, ctx := { d.ctx with aliases := d.ctx.aliases.set index held } }
    if g.s.failed || !held.tag then (d, false) else acquireAliases env n (index + 1) d

/-- What `cbpf_callback_check` expects of the dispatched context. -/
def callbackPass (d : Dispatch) (dispatched independent : Bool) (count : Nat) : Bool :=
  dispatched == independent && d.g.s.failed == !independent && d.ctx.calls == 2 &&
    d.ctx.completed == (if independent then 2 else 1) &&
    d.ctx.value == (if independent then 42 else 0) &&
    d.g.s.acquired == count && d.g.s.released == count &&
    d.g.s.reads == (if independent then 1 else 0) && d.g.s.cleanup == 0 &&
    d.g.object.refs == 1 &&
    (List.range count).all fun i => (d.ctx.aliasAt i).tag && d.ctx.aliasAt i == d.g.s.viewAt i &&
      !(d.g.s.cellAt i).tag

/-- The gate calls of `cbpf_callback_check`, whether the dispatcher completed, and the verdict. -/
def callbackCalls (env : Env) (d : Dispatch) (independent : Bool) : Dispatch × Bool × Bool :=
  let count := if independent then 2 else 1
  let (d, acquired) := acquireAliases env count 0 d
  if !acquired then (d, false, false)
  else
    let (d, dispatched) := cbpfDispatchCallbacks (cbpfOwnershipCallback env)
      (if independent then 2 else 3) d
    (d, dispatched, callbackPass d dispatched independent count)

/-- The result line of `cbpf_callback_check`. -/
def Dispatch.result (d : Dispatch) (name : String) (dispatched pass : Bool) : ControlLine :=
  .callbackResult name pass d.ctx.calls d.ctx.completed d.ctx.value d.g.s.acquired d.g.s.released
    d.g.s.reads d.g.s.cleanup d.g.object.refs d.g.s.failed dispatched

/-- `cbpf_callback_check`. -/
def cbpfCallbackCheck (env : Env) (name : String) (independent : Bool) (cellsAddr : Nat)
    (object : ProviderObject) (active : Option Invocation) : Control :=
  let fresh : Dispatch := ⟨⟨object, controlState cellsAddr⟩, .zeroed independent,
    [.callbackBegin name (if independent then 2 else 3)]⟩
  if active.isSome || object.refs != 1 then
    ⟨object, active, fresh.lines ++ [fresh.result name false false], false⟩
  else
    let (d, dispatched, pass) := callbackCalls env fresh independent
    let d := { d with g := d.g.cleanCells }
    ⟨d.g.object, none, d.lines ++ [d.result name dispatched pass], pass⟩

/-! ### `cbpf_cap_init` -/

/-- `EINVAL` -/
def einval : Int := 22

/-- The controls in the order of `cbpf_cap_init`; `cells` are the addresses of their cells. -/
def controls (env : Env) (cells : Nat → Nat) :
    List (ProviderObject → Option Invocation → Control) :=
  [cbpfGuardCheck env "stale_copy" false 2 (cells 0),
   cbpfGuardCheck env "stale_spill" true 2 (cells 1),
   cbpfGuardCheck env "duplicate_release" false 3 (cells 2),
   cbpfCallbackCheck env "retained_release" false (cells 3),
   cbpfCallbackCheck env "independent_b" true (cells 4)]

/-- The controls one after the other, up to the first that fails. -/
def runControls : List (ProviderObject → Option Invocation → Control) → ProviderObject →
    Option Invocation → Control
  | [], object, active => ⟨object, active, [], true⟩
  | control :: rest, object, active =>
    let c := control object active
    if !c.pass then c
    else
      let r := runControls rest c.object c.active
      { r with lines := c.lines ++ r.lines }

/-- `cbpf_cap_init`: `registered` is what `register_btf_kfunc_id_set` returns. -/
def cbpfCapInit (env : Env) (cells : Nat → Nat) (registered : Int) (object : ProviderObject)
    (active : Option Invocation) : Control × Int :=
  let c := runControls (controls env cells) object active
  (c, if c.pass then registered else -einval)

/-! ### A control takes back what it does -/

section Restored

variable {env : Env} {object : ProviderObject} {active : Option Invocation} {g : Running}
  {d : Dispatch}

theorem Lent.controlState (env : Env) (object : ProviderObject) (cellsAddr : Nat) :
    Lent env object ⟨object, controlState cellsAddr⟩ where
  inv := (Invocation.Inv.zeroed env 0 cellsAddr).congr rfl rfl rfl rfl rfl rfl
  accounted := Invocation.Accounted.zeroed 0 cellsAddr
  refs := (Int.add_zero _).symm
  value := rfl

theorem Lent.gate (h : Lent env object g) (argument : Capability) (operation pc : Nat) :
    Lent env object (g.gateImpl env argument operation pc).1 :=
  h.call ⟨argument, operation, pc⟩

theorem Lent.fail (h : Lent env object g) (pc : Nat) : Lent env object (g.fail pc) := by
  have hstep : GateStep env g ⟨.null, 0, pc⟩ (g.fail pc) cbpfFailure :=
    .reject (.operation Nat.zero_ne_one (Nat.zero_ne_add_one 1) (Nat.zero_ne_add_one 2))
  have hrefs := refs_step h.inv hstep
  refine ⟨h.inv.step hstep, h.accounted.step h.inv hstep, ?_, h.value⟩
  have := h.refs
  omega

/-- The loop at `out` gives the references back. -/
theorem Lent.cleaned (h : Lent env object g) : g.cleanCells.object = object := by
  have hcells := tornCells h.inv h.accounted numCells
  change TornCells env g g.cleanCells numCells at hcells
  have hdead : ∀ i, (g.cleanCells.s.cellAt i).tag = false := by
    intro i
    rw [hcells.cells]
    by_cases hi : i < numCells
    · simp [hi]
    · rw [h.inv.fresh i (le_trans h.inv.acquired_le (Nat.not_lt.mp hi)), Bool.and_false]
  have hbefore := h.inv.balance
  have hafter := hcells.inv.balance
  rw [tagged_eq_zero hdead] at hafter
  have hrefs := hcells.refs
  have hacquired := hcells.acquired
  have hheld := h.refs
  exact Lent.object_eq (by omega) (hcells.value.trans h.value)

theorem guardCalls_lent (h : Lent env object g) (useSpill : Bool) (operation : Nat) :
    Lent env object (guardCalls env g useSpill operation).g := by
  unfold guardCalls
  -- the spilled copy is the copy
  have hspill : ∀ c : Capability, (if useSpill then if useSpill then c else .null else c) = c := by
    intro c
    cases useSpill <;> rfl
  simp only [hspill]
  split
  · exact h.gate _ _ _
  · split
    · exact (h.gate _ _ _).gate _ _ _
    · split
      · exact (h.gate _ _ _).gate _ _ _
      · exact ((h.gate _ _ _).gate _ _ _).gate _ _ _

theorem cbpfOwnershipCallback_lent (h : Lent env object d.g) (iteration : Nat) :
    Lent env object (cbpfOwnershipCallback env d iteration).1.g := by
  unfold cbpfOwnershipCallback
  generalize (if d.ctx.independent then iteration else 0) = index
  dsimp only
  split
  · exact h.fail _
  · split
    · split
      · exact h.gate _ _ _
      · exact (h.gate _ _ _).gate _ _ _
    · exact h.gate _ _ _

/-- The dispatcher keeps what every callback keeps. -/
theorem dispatchFrom_lent {callback : Dispatch → Nat → Dispatch × Bool}
    (hcallback : ∀ d iteration, Lent env object d.g →
      Lent env object (callback d iteration).1.g)
    (n iteration : Nat) (h : Lent env object d.g) :
    Lent env object (dispatchFrom callback n iteration d).1.g := by
  induction n generalizing iteration d with
  | zero => exact h
  | succ n ih =>
    rw [dispatchFrom]
    have hnext := hcallback d iteration h
    dsimp only
    split
    · exact hnext
    · exact ih _ hnext

theorem acquireAliases_lent (n index : Nat) (h : Lent env object d.g) :
    Lent env object (acquireAliases env n index d).1.g := by
  induction n generalizing index d with
  | zero => exact h
  | succ n ih =>
    rw [acquireAliases]
    have hnext := h.gate .null 1 index
    dsimp only
    split
    · exact hnext
    · exact ih _ hnext

theorem callbackCalls_lent (h : Lent env object d.g) (independent : Bool) :
    Lent env object (callbackCalls env d independent).1.g := by
  unfold callbackCalls
  generalize (if independent = true then 2 else 1) = count
  have hacquired := acquireAliases_lent count 0 h
  dsimp only
  split
  · exact hacquired
  · exact dispatchFrom_lent (fun _ i hd => cbpfOwnershipCallback_lent hd i) _ 0 hacquired

/-- A control that passes or fails leaves the object and `cbpf_active` as they were. -/
def Restores (control : ProviderObject → Option Invocation → Control) : Prop :=
  ∀ object active, (control object active).object = object ∧ (control object active).active = active

theorem cbpfGuardCheck_restores (env : Env) (name : String) (useSpill : Bool)
    (operation cellsAddr : Nat) :
    Restores (cbpfGuardCheck env name useSpill operation cellsAddr) := by
  intro object active
  unfold cbpfGuardCheck
  dsimp only
  split
  · exact ⟨rfl, rfl⟩
  · next hfree =>
    simp only [Bool.or_eq_true, not_or, Bool.not_eq_true, Option.isSome_eq_false_iff,
      Option.isNone_iff_eq_none] at hfree
    exact ⟨(guardCalls_lent (.controlState env object cellsAddr) useSpill operation).cleaned,
      hfree.1.symm⟩

theorem cbpfCallbackCheck_restores (env : Env) (name : String) (independent : Bool)
    (cellsAddr : Nat) : Restores (cbpfCallbackCheck env name independent cellsAddr) := by
  intro object active
  unfold cbpfCallbackCheck
  dsimp only
  split
  · exact ⟨rfl, rfl⟩
  · next hfree =>
    simp only [Bool.or_eq_true, not_or, Bool.not_eq_true, Option.isSome_eq_false_iff,
      Option.isNone_iff_eq_none] at hfree
    refine ⟨(callbackCalls_lent ?_ independent).cleaned, hfree.1.symm⟩
    exact .controlState env object cellsAddr

/-- Controls that restore leave what the first of them found. -/
theorem runControls_restores {list : List (ProviderObject → Option Invocation → Control)}
    (h : ∀ control ∈ list, Restores control) : Restores (runControls list) := by
  induction list with
  | nil => exact fun _ _ => ⟨rfl, rfl⟩
  | cons control rest ih =>
    intro object active
    obtain ⟨hobject, hactive⟩ := h control List.mem_cons_self object active
    rw [runControls]
    dsimp only
    split
    · exact ⟨hobject, hactive⟩
    · rw [hobject, hactive]
      exact ih (fun c hc => h c (List.mem_cons_of_mem _ hc)) object active

theorem controls_restore (env : Env) (cells : Nat → Nat) :
    ∀ control ∈ controls env cells, Restores control := by
  intro control hcontrol
  simp only [controls, List.mem_cons, List.not_mem_nil, or_false] at hcontrol
  rcases hcontrol with rfl | rfl | rfl | rfl | rfl
  · exact cbpfGuardCheck_restores _ _ _ _ _
  · exact cbpfGuardCheck_restores _ _ _ _ _
  · exact cbpfGuardCheck_restores _ _ _ _ _
  · exact cbpfCallbackCheck_restores _ _ _ _
  · exact cbpfCallbackCheck_restores _ _ _ _

/-- Several controls pass when each does, from the same state. -/
theorem runControls_pass {list : List (ProviderObject → Option Invocation → Control)}
    (h : ∀ control ∈ list, Restores control) (object : ProviderObject)
    (active : Option Invocation) : (runControls list object active).pass = true ↔
      ∀ control ∈ list, (control object active).pass = true := by
  induction list with
  | nil => simp [runControls]
  | cons control rest ih =>
    obtain ⟨hobject, hactive⟩ := h control List.mem_cons_self object active
    have hrest := ih fun c hc => h c (List.mem_cons_of_mem _ hc)
    rw [runControls]
    dsimp only
    cases hpass : (control object active).pass with
    | false => simp [hpass]
    | true =>
      rw [hobject, hactive]
      simp [hpass, hrest]

end Restored

end Cbpf.Kernel
