import Cbpf.Kernel.Controls

/-!
# When the controls pass and the kfuncs are registered

The gate calls of each control of `cbpf_cap_init` are followed through one by one: with an idle CPU,
an object without acquisitions and capabilities that come out exact, every call does what its
control expects of it. Nothing else can make a control fail.
-/

namespace Cbpf.Kernel

open Cheri

/-! ### The gate calls of a control -/

/-- The state after an acquire that publishes the next cell. -/
def Running.published (g : Running) (env : Env) (pc : Nat) : Running :=
  ((g.bind g.s.acquired (objectCap env) (g.s.viewFor env g.s.acquired)).print
    (.bind pc (g.s.acquired + 1) (g.s.cellAddr g.s.acquired) env.objectAddr
      (g.s.viewFor env g.s.acquired))).trace .acquire pc (g.s.acquired + 1)

section GateCalls

variable {env : Env} {g : Running} {i : Nat}

/-- An acquire that is not to fail on purpose. -/
theorem gateImpl_acquire (hentered : g.s.entered = true) (hfailed : g.s.failed = false)
    (hroom : g.s.acquired ≠ numCells) (pc : Nat) : g.gateImpl env .null 1 pc =
      if (g.s.viewFor env g.s.acquired).tag = true ∧ (objectCap env).tag = true then
        (g.published env pc, g.s.viewFor env g.s.acquired)
      else (g.fail pc, cbpfFailure) := by
  have hnull : Capability.null.tag = false ∧ Capability.null.address = 0 := ⟨rfl, rfl⟩
  rw [Running.gateImpl, if_neg (by simp [hentered, hfailed]), if_pos rfl, Running.gateAcquire,
    if_neg (by simp [hnull]), if_neg (by simp [hnull]), if_neg hroom]
  dsimp only
  by_cases hexact : (g.s.viewFor env g.s.acquired).tag = true ∧ (objectCap env).tag = true
  · rw [if_pos hexact, if_neg (by simp [hexact])]
    rfl
  · rw [if_neg hexact, if_pos]
    rw [Bool.or_eq_true, Bool.not_eq_true', Bool.not_eq_true', ← Bool.not_eq_true,
      ← Bool.not_eq_true]
    exact Decidable.not_and_iff_not_or_not.mp hexact

/-- The search finds a published view where it was published. -/
theorem findView_viewAt (hinv : g.s.Inv env) (hi : i < g.s.acquired) :
    g.findView (g.s.viewAt i) = i := by
  rcases findView_cases g (g.s.viewAt i) with ⟨_, hnone⟩ | ⟨hlt, heq, _⟩
  · exact absurd rfl (hnone i hi)
  · exact (hinv.view_unique hi hlt heq).symm

/-- A release through a published view. -/
theorem gateImpl_release (hinv : g.s.Inv env) (hentered : g.s.entered = true)
    (hfailed : g.s.failed = false) (hi : i < g.s.acquired) (pc : Nat) :
    g.gateImpl env (g.s.viewAt i) 3 pc =
      if (g.s.cellAt i).tag = true then (g.consume i pc false, .null)
      else (g.fail pc, cbpfFailure) := by
  rw [Running.gateImpl, if_neg (by simp [hentered, hfailed]), if_neg (by decide),
    if_neg (by decide), Running.gateUse, findView_viewAt hinv hi]
  have hne : (i = g.s.acquired) = False := eq_false (Nat.ne_of_lt hi)
  cases htag : (g.s.cellAt i).tag <;> simp [hne]

/-- A read through a published view of a live cell. -/
theorem gateImpl_read (hinv : g.s.Inv env) (hentered : g.s.entered = true)
    (hfailed : g.s.failed = false) (hi : i < g.s.acquired) (htag : (g.s.cellAt i).tag = true)
    (pc : Nat) : g.gateImpl env (g.s.viewAt i) 2 pc =
      (g.countRead.trace .read pc (i + 1), .ofInt (g.object.value % 2 ^ 64).toNat) := by
  rw [Running.gateImpl, if_neg (by simp [hentered, hfailed]), if_neg (by decide),
    if_neg (by decide), Running.gateUse, findView_viewAt hinv hi]
  rw [if_neg (by simp [htag]; omega)]
  rfl

/-- Whatever is done with a stale view is rejected. -/
theorem gateImpl_stale (hinv : g.s.Inv env) (hi : i < g.s.acquired)
    (htag : (g.s.cellAt i).tag = false) (operation pc : Nat) :
    g.gateImpl env (g.s.viewAt i) operation pc = (g.fail pc, cbpfFailure) := by
  have hview : (g.s.viewAt i).tag = true := by
    rw [(hinv.views i hi).1]
    exact (hinv.views i hi).2
  unfold Running.gateImpl Running.gateAcquire Running.gateUse
  rw [findView_viewAt hinv hi]
  simp [hview, htag]

end GateCalls

/-- The view of the cell at `cellAddr`. -/
def viewOf (env : Env) (cellAddr : Nat) : Capability :=
  cbpfExact env cellAddr cellBytes cbpfPublicPerms

section Pass

variable {env : Env} {object : ProviderObject} {cellsAddr : Nat}

/-- The state of a control after its first acquire. -/
def firstBound (env : Env) (object : ProviderObject) (cellsAddr : Nat) : Running :=
  (⟨object, controlState cellsAddr⟩ : Running).published env 0

/-- The first acquire of a control. -/
theorem gateImpl_first (env : Env) (object : ProviderObject) (cellsAddr : Nat) :
    (⟨object, controlState cellsAddr⟩ : Running).gateImpl env .null 1 0 =
      if (viewOf env cellsAddr).tag = true ∧ (objectCap env).tag = true
      then (firstBound env object cellsAddr, viewOf env cellsAddr)
      else ((⟨object, controlState cellsAddr⟩ : Running).fail 0, cbpfFailure) :=
  gateImpl_acquire rfl rfl (show 0 ≠ numCells by decide) 0

theorem firstBound_lent (object : ProviderObject)
    (hexact : (viewOf env cellsAddr).tag = true ∧ (objectCap env).tag = true) :
    Lent env object (firstBound env object cellsAddr) := by
  have hlent := (Lent.controlState env object cellsAddr).gate .null 1 0
  rw [gateImpl_first, if_pos hexact] at hlent
  exact hlent

/-- Its release. -/
theorem firstBound_release (hexact : (viewOf env cellsAddr).tag = true ∧ (objectCap env).tag = true)
    (pc : Nat) : (firstBound env object cellsAddr).gateImpl env (viewOf env cellsAddr) 3 pc =
      ((firstBound env object cellsAddr).consume 0 pc false, .null) := by
  have hrelease := gateImpl_release (i := 0) (firstBound_lent object hexact).inv
    rfl rfl Nat.one_pos pc
  have htag : ((firstBound env object cellsAddr).s.cellAt 0).tag = true := hexact.2
  rw [if_pos htag] at hrelease
  exact hrelease

/-- And whatever is done with it afterwards. -/
theorem firstBound_stale (hexact : (viewOf env cellsAddr).tag = true ∧ (objectCap env).tag = true)
    (pc operation pc' : Nat) : ((firstBound env object cellsAddr).consume 0 pc false).gateImpl env
      (viewOf env cellsAddr) operation pc' =
        (((firstBound env object cellsAddr).consume 0 pc false).fail pc', cbpfFailure) := by
  have hlent := (firstBound_lent object hexact).gate (viewOf env cellsAddr) 3 pc
  rw [firstBound_release hexact] at hlent
  exact gateImpl_stale (i := 0) hlent.inv Nat.one_pos rfl operation pc'

theorem guardCalls_pass (hrefs : object.refs = 1) (useSpill : Bool) (operation : Nat) :
    (guardCalls env ⟨object, controlState cellsAddr⟩ useSpill operation).pass = true ↔
      (viewOf env cellsAddr).tag = true ∧ (objectCap env).tag = true := by
  -- the spilled copy is the copy
  have hspill : ∀ c : Capability, (if useSpill then if useSpill then c else .null else c) = c := by
    intro c
    cases useSpill <;> rfl
  unfold guardCalls
  simp only [hspill]
  by_cases hexact : (viewOf env cellsAddr).tag = true ∧ (objectCap env).tag = true
  · have hheld : (firstBound env object cellsAddr).object.refs = 2 := by
      change object.refs + 1 = 2
      omega
    have hback : ((firstBound env object cellsAddr).consume 0 1 false).object.refs = 1 := by
      change object.refs + 1 - 1 = 1
      omega
    have hintact : consumedIntact ((firstBound env object cellsAddr).consume 0 1 false)
        (viewOf env cellsAddr) = true := by
      unfold consumedIntact
      rw [hback, hexact.1]
      have hcanonical : (viewOf env cellsAddr ==
          ((firstBound env object cellsAddr).consume 0 1 false).s.viewAt 0) = true :=
        beq_self_eq_true (viewOf env cellsAddr)
      rw [hcanonical]
      rfl
    rw [gateImpl_first, if_pos hexact]
    dsimp only
    rw [if_neg, firstBound_release hexact]
    · dsimp only
      rw [if_neg, hintact, if_neg, firstBound_stale hexact]
      · exact iff_of_true hintact hexact
      · exact Bool.false_ne_true
      · exact Bool.false_ne_true
    · rw [hheld, hexact.1]
      exact Bool.false_ne_true
  · rw [gateImpl_first, if_neg hexact]
    dsimp only
    rw [if_pos (by rfl)]
    exact ⟨nofun, fun h => absurd h hexact⟩

/-! #### The callbacks -/

/-- A callback that releases its alias. -/
theorem cbpfOwnershipCallback_release {d : Dispatch} {ctx : CallbackContext} (iteration : Nat)
    {index : Nat} {g g' : Running} {value : Capability} (hctx : d.ctx = ctx) (hg : d.g = g)
    (hindex : (if ctx.independent then iteration else 0) = index)
    (hrelease : (ctx.independent && iteration == 1) = false)
    (htag : (ctx.aliasAt index).tag = true) (hcanonical : ctx.aliasAt index = g.s.viewAt index)
    (hgate : g.gateImpl env (ctx.aliasAt index) 3 (4 + 2 * iteration) = (g', value)) :
    ∃ d', cbpfOwnershipCallback env d iteration = (d', !g'.s.failed) ∧ d'.g = g' ∧
      d'.ctx = { ctx with calls := u32Inc ctx.calls } := by
  subst hctx hg hindex
  unfold cbpfOwnershipCallback
  dsimp only
  rw [hgate, hrelease, ← hcanonical, beq_self_eq_true, htag]
  exact ⟨_, rfl, rfl, rfl⟩

/-- The callback that reads its alias before it releases it. -/
theorem cbpfOwnershipCallback_read {d : Dispatch} {ctx : CallbackContext} {g g' g'' : Running}
    {value value' : Capability} (hctx : d.ctx = ctx) (hg : d.g = g)
    (hread : ctx.independent = true) (htag : (ctx.aliasAt 1).tag = true)
    (hcanonical : ctx.aliasAt 1 = g.s.viewAt 1)
    (hgate : g.gateImpl env (ctx.aliasAt 1) 2 6 = (g', value)) (halive : g'.s.failed = false)
    (hgate' : g'.gateImpl env (ctx.aliasAt 1) 3 7 = (g'', value')) :
    ∃ d', cbpfOwnershipCallback env d 1 = (d', !g''.s.failed) ∧ d'.g = g'' ∧
      d'.ctx = { ctx with calls := u32Inc ctx.calls, value := value.address % 2 ^ 32 } := by
  subst hctx hg
  have hthis : (d.ctx.independent && (1 : Nat) == 1) = true := by rw [hread]; rfl
  unfold cbpfOwnershipCallback
  dsimp only
  rw [if_pos hread, hgate, hthis, ← hcanonical, beq_self_eq_true, htag]
  dsimp only
  rw [halive, hgate']
  exact ⟨_, rfl, rfl, rfl⟩

theorem dispatchFrom_next {callback : Dispatch → Nat → Dispatch × Bool} {n iteration : Nat}
    {d d' : Dispatch} (h : callback d iteration = (d', true)) :
    dispatchFrom callback (n + 1) iteration d = dispatchFrom callback n (iteration + 1)
      { d' with ctx := { d'.ctx with completed := u32Inc d'.ctx.completed } } := by
  rw [dispatchFrom, h]
  rfl

theorem dispatchFrom_stop {callback : Dispatch → Nat → Dispatch × Bool} {n iteration : Nat}
    {d d' : Dispatch} (h : callback d iteration = (d', false)) :
    dispatchFrom callback (n + 1) iteration d = (d', false) := by
  rw [dispatchFrom, h]
  rfl

theorem acquireAliases_next {d : Dispatch} {n index : Nat} {g : Running} {held : Capability}
    (hgate : d.g.gateImpl env .null 1 index = (g, held)) (halive : g.s.failed = false)
    (htag : held.tag = true) : acquireAliases env (n + 1) index d = acquireAliases env n (index + 1)
      { d with g := g, ctx := { d.ctx with aliases := d.ctx.aliases.set index held } } := by
  rw [acquireAliases, hgate]
  dsimp only
  rw [halive, htag]
  rfl

theorem acquireAliases_stop {d : Dispatch} {n index : Nat} {g : Running} {held : Capability}
    (hgate : d.g.gateImpl env .null 1 index = (g, held)) (hfailed : g.s.failed = true) :
    (acquireAliases env (n + 1) index d).2 = false := by
  rw [acquireAliases, hgate]
  dsimp only
  rw [hfailed]
  rfl

/-- The verdict of a control whose acquires and dispatch are known. -/
theorem callbackCalls_eq {d d' d'' : Dispatch} (independent : Bool) {dispatched : Bool}
    (hacquired : acquireAliases env (if independent then 2 else 1) 0 d = (d', true))
    (hdispatched : cbpfDispatchCallbacks (cbpfOwnershipCallback env) (if independent then 2 else 3)
      d' = (d'', dispatched)) :
    (callbackCalls env d independent).2.2 =
      callbackPass d'' dispatched independent (if independent then 2 else 1) := by
  unfold callbackCalls
  dsimp only
  rw [hacquired]
  dsimp only
  rw [hdispatched]
  rfl

theorem callbackCalls_refused {d : Dispatch} {independent : Bool}
    (hacquired : (acquireAliases env (if independent then 2 else 1) 0 d).2 = false) :
    (callbackCalls env d independent).2.2 = false := by
  unfold callbackCalls
  dsimp only
  rw [hacquired]
  rfl

/-- What a passed control expects of its aliases. -/
theorem aliases_all {d : Dispatch} {count : Nat}
    (h : ∀ i < count, (d.ctx.aliasAt i).tag = true ∧ d.ctx.aliasAt i = d.g.s.viewAt i ∧
      (d.g.s.cellAt i).tag = false) :
    ((List.range count).all fun i => (d.ctx.aliasAt i).tag && d.ctx.aliasAt i == d.g.s.viewAt i &&
      !(d.g.s.cellAt i).tag) = true := by
  rw [List.all_eq_true]
  intro i hi
  obtain ⟨htag, hcanonical, hdead⟩ := h i (List.mem_range.mp hi)
  rw [htag, hcanonical, hdead, beq_self_eq_true]
  rfl

/-- The first callback releases the alias, the second is rejected and the third is not called. -/
theorem dispatched_retained {d : Dispatch} (hg : d.g = firstBound env object cellsAddr)
    (hctx : d.ctx = ⟨[viewOf env cellsAddr, .null], 0, 0, 0, false⟩)
    (hexact : (viewOf env cellsAddr).tag = true ∧ (objectCap env).tag = true) :
    ∃ d', cbpfDispatchCallbacks (cbpfOwnershipCallback env) 3 d = (d', false) ∧
      d'.g = ((firstBound env object cellsAddr).consume 0 4 false).fail 6 ∧
      d'.ctx = ⟨[viewOf env cellsAddr, .null], 2, 1, 0, false⟩ := by
  obtain ⟨d₁, hcall, hg₁, hctx₁⟩ := cbpfOwnershipCallback_release 0 hctx hg rfl rfl
    hexact.1 rfl (firstBound_release hexact 4)
  rw [cbpfDispatchCallbacks, dispatchFrom_next hcall, hctx₁]
  obtain ⟨d₂, hcall, hg₂, hctx₂⟩ := cbpfOwnershipCallback_release 1
    (d := { d₁ with ctx := ⟨[viewOf env cellsAddr, .null], 1, 1, 0, false⟩ }) rfl hg₁ rfl rfl
    hexact.1 rfl (firstBound_stale hexact 4 3 6)
  exact ⟨d₂, dispatchFrom_stop hcall, hg₂, hctx₂⟩

theorem callbackCalls_retained {d : Dispatch} (hrefs : object.refs = 1)
    (hg : d.g = ⟨object, controlState cellsAddr⟩) (hctx : d.ctx = .zeroed false) :
    (callbackCalls env d false).2.2 = true ↔
      (viewOf env cellsAddr).tag = true ∧ (objectCap env).tag = true := by
  have hfirst := gateImpl_first env object cellsAddr
  rw [← hg] at hfirst
  by_cases hexact : (viewOf env cellsAddr).tag = true ∧ (objectCap env).tag = true
  · rw [if_pos hexact] at hfirst
    have hacquired := acquireAliases_next (n := 0) hfirst rfl hexact.1
    rw [hctx, acquireAliases] at hacquired
    obtain ⟨d', hdispatched, hg', hctx'⟩ := dispatched_retained (d := { d with
      g := firstBound env object cellsAddr
      ctx := ⟨[viewOf env cellsAddr, .null], 0, 0, 0, false⟩ }) rfl rfl hexact
    have hback : d'.g.object.refs = 1 := by
      rw [hg']
      change object.refs + 1 - 1 = 1
      omega
    rw [callbackCalls_eq false hacquired hdispatched]
    refine iff_of_true (Bool.and_eq_true_iff.mpr ⟨?_, aliases_all fun i hi => ?_⟩) hexact
    · rw [hback, hctx', hg']
      rfl
    · obtain rfl : i = 0 := Nat.lt_one_iff.mp hi
      rw [hctx', hg']
      exact ⟨hexact.1, rfl, rfl⟩
  · rw [if_neg hexact] at hfirst
    rw [callbackCalls_refused (acquireAliases_stop hfirst rfl)]
    exact iff_of_false Bool.false_ne_true hexact

/-- The state after the second acquire of `independent_b`. -/
def secondBound (env : Env) (object : ProviderObject) (cellsAddr : Nat) : Running :=
  (firstBound env object cellsAddr).published env 1

theorem gateImpl_second (env : Env) (object : ProviderObject) (cellsAddr : Nat) :
    (firstBound env object cellsAddr).gateImpl env .null 1 1 =
      if (viewOf env (cellsAddr + cellBytes)).tag = true ∧ (objectCap env).tag = true
      then (secondBound env object cellsAddr, viewOf env (cellsAddr + cellBytes))
      else ((firstBound env object cellsAddr).fail 1, cbpfFailure) :=
  gateImpl_acquire rfl rfl (show 1 ≠ numCells by decide) 1

/-- Both views can be built. -/
structure BothExact (env : Env) (cellsAddr : Nat) : Prop where
  first : (viewOf env cellsAddr).tag = true ∧ (objectCap env).tag = true
  second : (viewOf env (cellsAddr + cellBytes)).tag = true

theorem secondBound_lent (object : ProviderObject) (h : BothExact env cellsAddr) :
    Lent env object (secondBound env object cellsAddr) := by
  have hlent := (firstBound_lent object h.first).gate .null 1 1
  rw [gateImpl_second, if_pos ⟨h.second, h.first.2⟩] at hlent
  exact hlent

/-- The state of `independent_b` when the first callback is done. -/
def firstReleased (env : Env) (object : ProviderObject) (cellsAddr : Nat) : Running :=
  (secondBound env object cellsAddr).consume 0 4 false

theorem secondBound_release (h : BothExact env cellsAddr) :
    (secondBound env object cellsAddr).gateImpl env (viewOf env cellsAddr) 3 4 =
      (firstReleased env object cellsAddr, .null) := by
  have hrelease := gateImpl_release (i := 0) (secondBound_lent object h).inv rfl rfl
    Nat.two_pos 4
  have htag : ((secondBound env object cellsAddr).s.cellAt 0).tag = true := h.first.2
  rw [if_pos htag] at hrelease
  exact hrelease

theorem firstReleased_lent (object : ProviderObject) (h : BothExact env cellsAddr) :
    Lent env object (firstReleased env object cellsAddr) := by
  have hlent := (secondBound_lent object h).gate (viewOf env cellsAddr) 3 4
  rw [secondBound_release h] at hlent
  exact hlent

theorem firstReleased_read (h : BothExact env cellsAddr) :
    (firstReleased env object cellsAddr).gateImpl env (viewOf env (cellsAddr + cellBytes)) 2 6 =
      ((firstReleased env object cellsAddr).countRead.trace .read 6 2,
        .ofInt (object.value % 2 ^ 64).toNat) :=
  gateImpl_read (i := 1) (firstReleased_lent object h).inv rfl rfl Nat.one_lt_two h.first.2 6

theorem firstReleased_release (h : BothExact env cellsAddr) :
    ((firstReleased env object cellsAddr).countRead.trace .read 6 2).gateImpl env
      (viewOf env (cellsAddr + cellBytes)) 3 7 =
        (((firstReleased env object cellsAddr).countRead.trace .read 6 2).consume 1 7 false,
          .null) := by
  have hlent := (firstReleased_lent object h).gate
    (viewOf env (cellsAddr + cellBytes)) 2 6
  rw [firstReleased_read h] at hlent
  have hrelease := gateImpl_release (i := 1) hlent.inv rfl rfl Nat.one_lt_two 7
  have htag : (((firstReleased env object cellsAddr).countRead.trace .read 6 2).s.cellAt 1).tag =
    true := h.first.2
  rw [if_pos htag] at hrelease
  exact hrelease

/-- The first callback releases its alias, the second reads and releases the other one. -/
theorem dispatched_independent {d : Dispatch} (hg : d.g = secondBound env object cellsAddr)
    (hctx : d.ctx = ⟨[viewOf env cellsAddr, viewOf env (cellsAddr + cellBytes)], 0, 0, 0, true⟩)
    (h : BothExact env cellsAddr) :
    ∃ d', cbpfDispatchCallbacks (cbpfOwnershipCallback env) 2 d = (d', true) ∧
      d'.g = ((firstReleased env object cellsAddr).countRead.trace .read 6 2).consume 1 7 false ∧
      d'.ctx = ⟨[viewOf env cellsAddr, viewOf env (cellsAddr + cellBytes)], 2, 2,
        (object.value % 2 ^ 64).toNat % 2 ^ 32, true⟩ := by
  obtain ⟨d₁, hcall, hg₁, hctx₁⟩ := cbpfOwnershipCallback_release 0 hctx hg rfl rfl
    h.first.1 rfl (secondBound_release h)
  rw [cbpfDispatchCallbacks, dispatchFrom_next hcall, hctx₁]
  obtain ⟨d₂, hcall, hg₂, hctx₂⟩ := cbpfOwnershipCallback_read
    (d := { d₁ with
      ctx := ⟨[viewOf env cellsAddr, viewOf env (cellsAddr + cellBytes)], 1, 1, 0, true⟩ })
    rfl hg₁ rfl h.second rfl (firstReleased_read h) rfl (firstReleased_release h)
  refine ⟨_, dispatchFrom_next hcall, hg₂, ?_⟩
  rw [hctx₂]
  rfl

theorem callbackCalls_independent {d : Dispatch} (hrefs : object.refs = 1)
    (hg : d.g = ⟨object, controlState cellsAddr⟩) (hctx : d.ctx = .zeroed true) :
    (callbackCalls env d true).2.2 = true ↔
      BothExact env cellsAddr ∧ (object.value % 2 ^ 64).toNat % 2 ^ 32 = 42 := by
  have hfirst := gateImpl_first env object cellsAddr
  rw [← hg] at hfirst
  by_cases hexact : (viewOf env cellsAddr).tag = true ∧ (objectCap env).tag = true
  · rw [if_pos hexact] at hfirst
    have hacquired := acquireAliases_next (n := 1) hfirst rfl hexact.1
    have hsecond := gateImpl_second env object cellsAddr
    by_cases hboth : (viewOf env (cellsAddr + cellBytes)).tag = true
    · have h : BothExact env cellsAddr := ⟨hexact, hboth⟩
      rw [if_pos ⟨hboth, hexact.2⟩] at hsecond
      rw [acquireAliases_next (n := 0) hsecond rfl hboth, hctx, acquireAliases] at hacquired
      obtain ⟨d', hdispatched, hg', hctx'⟩ := dispatched_independent (d := { d with
        g := secondBound env object cellsAddr
        ctx := ⟨[viewOf env cellsAddr, viewOf env (cellsAddr + cellBytes)], 0, 0, 0, true⟩ })
        rfl rfl h
      have hback : d'.g.object.refs = 1 := by
        rw [hg']
        change object.refs + 1 + 1 - 1 - 1 = 1
        omega
      rw [callbackCalls_eq true hacquired hdispatched]
      constructor
      · intro hpass
        simp only [callbackPass, Bool.and_eq_true, beq_iff_eq] at hpass
        obtain ⟨⟨⟨⟨⟨⟨⟨_, hvalue⟩, _⟩, _⟩, _⟩, _⟩, _⟩, _⟩ := hpass
        rw [hctx'] at hvalue
        exact ⟨h, hvalue⟩
      · rintro ⟨_, hvalue⟩
        refine Bool.and_eq_true_iff.mpr ⟨?_, aliases_all fun i hi => ?_⟩
        · rw [hback, hctx', hg', hvalue]
          rfl
        · rw [hctx', hg']
          obtain rfl | rfl : i = 0 ∨ i = 1 := by
            change i < 2 at hi
            omega
          · exact ⟨hexact.1, rfl, rfl⟩
          · exact ⟨hboth, rfl, rfl⟩
    · rw [if_neg fun h => hboth h.1] at hsecond
      rw [callbackCalls_refused]
      · exact iff_of_false Bool.false_ne_true fun h => hboth h.1.second
      · rw [if_pos rfl, hacquired]
        exact acquireAliases_stop hsecond rfl
  · rw [if_neg hexact] at hfirst
    rw [callbackCalls_refused (acquireAliases_stop hfirst rfl)]
    exact iff_of_false Bool.false_ne_true fun h => hexact h.1.first

end Pass

/-! ### What `cbpf_cap_init` establishes -/

/-- What the controls need: no invocation on this CPU, nothing acquired, the provider's value, and
capabilities that come out exact. -/
structure Ready (env : Env) (cells : Nat → Nat) (object : ProviderObject)
    (active : Option Invocation) : Prop where
  idle : active = none
  refs : object.refs = 1
  value : (object.value % 2 ^ 64).toNat % 2 ^ 32 = 42
  object : (objectCap env).tag = true
  views : ∀ i < 5, (viewOf env (cells i)).tag = true
  /-- the last control acquires twice -/
  second : (viewOf env (cells 4 + cellBytes)).tag = true

section Registration

variable {env : Env} {object : ProviderObject} {active : Option Invocation} {cellsAddr : Nat}

theorem free_iff : (active.isSome || object.refs != 1) = false ↔ active = none ∧ object.refs = 1 := by
  rw [Bool.or_eq_false_iff, Option.isSome_eq_false_iff, Option.isNone_iff_eq_none,
    bne_eq_false_iff_eq]

theorem cbpfGuardCheck_pass (name : String) (useSpill : Bool) (operation : Nat) :
    (cbpfGuardCheck env name useSpill operation cellsAddr object active).pass = true ↔
      (active = none ∧ object.refs = 1) ∧ (viewOf env cellsAddr).tag = true ∧
        (objectCap env).tag = true := by
  unfold cbpfGuardCheck
  cases hbusy : active.isSome || object.refs != 1 with
  | true =>
    have hnot : ¬(active = none ∧ object.refs = 1) := fun h => by
      rw [free_iff.mpr h] at hbusy
      cases hbusy
    exact iff_of_false Bool.false_ne_true fun h => hnot h.1
  | false =>
    have hfree := free_iff.mp hbusy
    rw [and_iff_right hfree]
    exact guardCalls_pass hfree.2 useSpill operation

theorem cbpfCallbackCheck_pass (name : String) (independent : Bool) :
    (cbpfCallbackCheck env name independent cellsAddr object active).pass = true ↔
      (active = none ∧ object.refs = 1) ∧
        ((viewOf env cellsAddr).tag = true ∧ (objectCap env).tag = true) ∧
        (independent = true → (viewOf env (cellsAddr + cellBytes)).tag = true ∧
          (object.value % 2 ^ 64).toNat % 2 ^ 32 = 42) := by
  unfold cbpfCallbackCheck
  cases hbusy : active.isSome || object.refs != 1 with
  | true =>
    have hnot : ¬(active = none ∧ object.refs = 1) := fun h => by
      rw [free_iff.mpr h] at hbusy
      cases hbusy
    exact iff_of_false Bool.false_ne_true fun h => hnot h.1
  | false =>
    have hfree := free_iff.mp hbusy
    rw [and_iff_right hfree]
    cases independent with
    | false =>
      rw [and_iff_left nofun]
      exact callbackCalls_retained
        (d := ⟨⟨object, controlState cellsAddr⟩, .zeroed false, [.callbackBegin name 3]⟩)
        hfree.2 rfl rfl
    | true =>
      refine (callbackCalls_independent
        (d := ⟨⟨object, controlState cellsAddr⟩, .zeroed true, [.callbackBegin name 2]⟩)
        hfree.2 rfl rfl).trans ?_
      constructor
      · rintro ⟨h, hvalue⟩
        exact ⟨h.first, fun _ => ⟨h.second, hvalue⟩⟩
      · rintro ⟨hfirst, h⟩
        exact ⟨⟨hfirst, (h rfl).1⟩, (h rfl).2⟩

/-- All five controls pass exactly when everything is ready. -/
theorem controls_pass (cells : Nat → Nat) :
    (runControls (controls env cells) object active).pass = true ↔ Ready env cells object active := by
  rw [runControls_pass (controls_restore env cells)]
  simp only [controls, List.forall_mem_cons, List.not_mem_nil, cbpfGuardCheck_pass,
    cbpfCallbackCheck_pass]
  constructor
  · rintro ⟨⟨hfree, hview₀, hobject⟩, ⟨_, hview₁, _⟩, ⟨_, hview₂, _⟩, ⟨_, ⟨hview₃, _⟩, _⟩,
      ⟨_, ⟨hview₄, _⟩, hlast⟩, _⟩
    refine ⟨hfree.1, hfree.2, (hlast trivial).2, hobject, fun i hi => ?_, (hlast trivial).1⟩
    obtain rfl | rfl | rfl | rfl | rfl : i = 0 ∨ i = 1 ∨ i = 2 ∨ i = 3 ∨ i = 4 := by omega
    · exact hview₀
    · exact hview₁
    · exact hview₂
    · exact hview₃
    · exact hview₄
  · intro h
    have hfree := And.intro h.idle h.refs
    have hview := fun i (hi : i < 5) => And.intro (h.views i hi) h.object
    exact ⟨⟨hfree, hview 0 (by omega)⟩, ⟨hfree, hview 1 (by omega)⟩, ⟨hfree, hview 2 (by omega)⟩,
      ⟨hfree, hview 3 (by omega), fun hfalse => absurd hfalse Bool.false_ne_true⟩,
      ⟨hfree, hview 4 (by omega), fun _ => ⟨h.second, h.value⟩⟩, fun _ hnil => hnil.elim⟩

/-! ### The printed verdicts -/

/-- The verdict of a result line. -/
def ControlLine.verdict : ControlLine → Option Bool
  | .guardResult _ pass .. | .callbackResult _ pass .. => some pass
  | .guardBegin .. | .callbackBegin .. | .callbackEnter .. => none

/-- The verdicts that are printed. -/
def verdicts (lines : List ControlLine) : List Bool := lines.filterMap ControlLine.verdict

theorem verdicts_append (lines more : List ControlLine) :
    verdicts (lines ++ more) = verdicts lines ++ verdicts more := List.filterMap_append

variable {d : Dispatch}

/-- A callback prints no verdict. -/
theorem cbpfOwnershipCallback_verdicts (env : Env) (d : Dispatch) (iteration : Nat) :
    verdicts (cbpfOwnershipCallback env d iteration).1.lines = verdicts d.lines := by
  have henter : ∀ id publicTag canonical privateTag, verdicts (d.lines ++
      [ControlLine.callbackEnter iteration id publicTag canonical privateTag]) = verdicts d.lines :=
    fun _ _ _ _ => (verdicts_append _ _).trans (List.append_nil _)
  unfold cbpfOwnershipCallback
  generalize (if d.ctx.independent then iteration else 0) = index
  dsimp only
  split
  · exact henter _ _ _ _
  · split
    · split
      · exact henter _ _ _ _
      · exact henter _ _ _ _
    · exact henter _ _ _ _

theorem dispatchFrom_verdicts (n iteration : Nat) :
    verdicts (dispatchFrom (cbpfOwnershipCallback env) n iteration d).1.lines =
      verdicts d.lines := by
  induction n generalizing iteration d with
  | zero => rfl
  | succ n ih =>
    have hnext := cbpfOwnershipCallback_verdicts env d iteration
    rw [dispatchFrom]
    dsimp only
    split
    · exact hnext
    · rw [ih]
      exact hnext

theorem acquireAliases_lines (env : Env) (d : Dispatch) (n index : Nat) :
    (acquireAliases env n index d).1.lines = d.lines := by
  induction n generalizing index d with
  | zero => rfl
  | succ n ih =>
    rw [acquireAliases]
    dsimp only
    split
    · rfl
    · rw [ih]

theorem callbackCalls_verdicts (independent : Bool) :
    verdicts (callbackCalls env d independent).1.lines = verdicts d.lines := by
  unfold callbackCalls
  generalize (if independent = true then 2 else 1) = count
  have hacquired := acquireAliases_lines env d count 0
  dsimp only
  split
  · rw [hacquired]
  · rw [cbpfDispatchCallbacks, dispatchFrom_verdicts, hacquired]

/-- A control prints its verdict and no other. -/
def PrintsVerdict (control : ProviderObject → Option Invocation → Control) : Prop :=
  ∀ object active, verdicts (control object active).lines = [(control object active).pass]

theorem cbpfGuardCheck_verdict (name : String) (useSpill : Bool) (operation : Nat) :
    PrintsVerdict (cbpfGuardCheck env name useSpill operation cellsAddr) := by
  intro object active
  unfold cbpfGuardCheck
  dsimp only
  split
  · rfl
  · rfl

theorem cbpfCallbackCheck_verdict (name : String) (independent : Bool) :
    PrintsVerdict (cbpfCallbackCheck env name independent cellsAddr) := by
  intro object active
  unfold cbpfCallbackCheck
  dsimp only
  split
  · rfl
  · rw [verdicts_append, callbackCalls_verdicts]
    rfl

section Rest

variable {control : ProviderObject → Option Invocation → Control}
  {rest : List (ProviderObject → Option Invocation → Control)}

theorem runControls_stop (h : (control object active).pass = false) :
    runControls (control :: rest) object active = control object active := by
  rw [runControls, h]
  rfl

theorem runControls_next (h : (control object active).pass = true) :
    runControls (control :: rest) object active =
      { runControls rest (control object active).object (control object active).active with
        lines := (control object active).lines ++
          (runControls rest (control object active).object (control object active).active).lines } := by
  rw [runControls, h]
  rfl

end Rest

/-- Every control but the last that ran has printed PASS. -/
theorem runControls_verdicts {list : List (ProviderObject → Option Invocation → Control)}
    (h : ∀ control ∈ list, PrintsVerdict control) (object : ProviderObject)
    (active : Option Invocation) :
    verdicts (runControls list object active).lines = List.replicate list.length true ∧
        (runControls list object active).pass = true ∨
      ∃ n < list.length, verdicts (runControls list object active).lines =
        List.replicate n true ++ [false] ∧ (runControls list object active).pass = false := by
  induction list generalizing object active with
  | nil => exact .inl ⟨rfl, rfl⟩
  | cons control rest ih =>
    have hprinted := h control List.mem_cons_self object active
    cases hpass : (control object active).pass with
    | false =>
      rw [hpass] at hprinted
      rw [runControls_stop hpass]
      exact .inr ⟨0, Nat.succ_pos _, hprinted, hpass⟩
    | true =>
      rw [hpass] at hprinted
      rw [runControls_next hpass]
      dsimp only
      rw [verdicts_append, hprinted]
      rcases ih (fun c hc => h c (List.mem_cons_of_mem _ hc)) (control object active).object
        (control object active).active with ⟨hall, hdone⟩ | ⟨n, hn, hsome, hdone⟩
      · rw [hall]
        exact .inl ⟨rfl, hdone⟩
      · rw [hsome]
        exact .inr ⟨n + 1, Nat.succ_lt_succ hn, rfl, hdone⟩

theorem controls_verdict (cells : Nat → Nat) :
    ∀ control ∈ controls env cells, PrintsVerdict control := by
  intro control hcontrol
  simp only [controls, List.mem_cons, List.not_mem_nil, or_false] at hcontrol
  rcases hcontrol with rfl | rfl | rfl | rfl | rfl
  · exact cbpfGuardCheck_verdict _ _ _
  · exact cbpfGuardCheck_verdict _ _ _
  · exact cbpfGuardCheck_verdict _ _ _
  · exact cbpfCallbackCheck_verdict _ _
  · exact cbpfCallbackCheck_verdict _ _

end Registration

/-- The controls leave the object and `cbpf_active` as they were, however far they get. They pass,
and the kfuncs are registered, exactly when everything they need is there; otherwise the first that
fails is the last to run. -/
theorem cbpfCapInit_exact (env : Env) (cells : Nat → Nat) (registered : Int)
    (object : ProviderObject) (active : Option Invocation) :
    ∃ c result, cbpfCapInit env cells registered object active = (c, result) ∧
      c.object = object ∧ c.active = active ∧
      (Ready env cells object active →
        c.pass = true ∧ verdicts c.lines = List.replicate 5 true ∧ result = registered) ∧
      (¬ Ready env cells object active →
        c.pass = false ∧ (∃ n < 5, verdicts c.lines = List.replicate n true ++ [false]) ∧
          result = -einval) := by
  obtain ⟨hobject, hactive⟩ :=
    runControls_restores (controls_restore env cells) object active
  have hpass : (runControls (controls env cells) object active).pass = true ↔ _ := controls_pass cells
  refine ⟨_, _, rfl, hobject, hactive, fun h => ?_, fun h => ?_⟩
  · have hpassed := hpass.mpr h
    rcases runControls_verdicts (controls_verdict cells) object active with
      ⟨hall, _⟩ | ⟨_, _, _, hfailed⟩
    · exact ⟨hpassed, hall, if_pos hpassed⟩
    · rw [hfailed] at hpassed
      cases hpassed
  · have hnot : ¬ (runControls (controls env cells) object active).pass = true :=
      fun hpassed => h (hpass.mp hpassed)
    rcases runControls_verdicts (controls_verdict cells) object active with
      ⟨_, hpassed⟩ | ⟨n, hn, hsome, hfailed⟩
    · exact absurd hpassed hnot
    · exact ⟨hfailed, ⟨n, hn, hsome⟩, if_neg hnot⟩

end Cbpf.Kernel
