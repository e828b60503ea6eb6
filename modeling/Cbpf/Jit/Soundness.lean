import Cbpf.Jit.Transfer

/-!
# Soundness of the admission pass

Every value that a run of an admitted program holds is of a kind that the pass has computed for its
register, so that every handle which reaches the gate is a view of that run.
-/

namespace Cbpf.Jit

open Cheri Kernel Dataflow

/-- Is `v` of a kind in `k`? An uninitialised register may hold anything; everything else has been
written since the entry or the last call. -/
def Kind.Allows (k : Kind) (issued : List Capability) (written : Bool) (v : Capability) : Prop :=
  k.has .uninit = true ∨ written = true ∧
    ((k.has .zero = true ∧ v.tag = false ∧ v.address = 0) ∨
      (k.has .scalar = true ∧ v.tag = false) ∨ (k.has .handle = true ∧ v ∈ issued))

theorem Kind.has_uninit : Kind.uninit.has .uninit = true := by decide

namespace Kind.Allows

variable {k l : Kind} {issued issued' : List Capability} {written : Bool} {v : Capability}

theorem mono (h : k.Allows issued written v) (hk : ∀ b, k.has b = true → l.has b = true)
    (hissued : ∀ w ∈ issued, w ∈ issued') : l.Allows issued' written v := by
  rcases h with hu | ⟨hw, ⟨hz, hv⟩ | ⟨hs, hv⟩ | ⟨hh, hv⟩⟩
  · exact .inl (hk _ hu)
  · exact .inr ⟨hw, .inl ⟨hk _ hz, hv⟩⟩
  · exact .inr ⟨hw, .inr (.inl ⟨hk _ hs, hv⟩)⟩
  · exact .inr ⟨hw, .inr (.inr ⟨hk _ hh, hissued v hv⟩)⟩

/-- What a defined register holds has been written. -/
theorem of_isDefined (h : k.Allows issued written v) (hk : isDefined k = true) :
    written = true := by
  rcases h with hu | ⟨hw, _⟩
  · rw [not_uninit_of_isDefined hk] at hu
    cases hu
  · exact hw

theorem of_isScalar (h : k.Allows issued written v) (hk : isScalar k = true) :
    written = true ∧ v.tag = false := by
  obtain ⟨hu, hh⟩ := isScalar_iff hk
  rcases h with hu' | ⟨hw, ⟨_, hv, _⟩ | ⟨_, hv⟩ | ⟨hh', _⟩⟩
  · rw [hu] at hu'
    cases hu'
  · exact ⟨hw, hv⟩
  · exact ⟨hw, hv⟩
  · rw [hh] at hh'
    cases hh'

theorem of_handle (h : Kind.handle.Allows issued written v) : written = true ∧ v ∈ issued := by
  rcases h with hu | ⟨hw, ⟨hz, _⟩ | ⟨hs, _⟩ | ⟨_, hv⟩⟩
  · exact absurd hu (by decide)
  · exact absurd hz (by decide)
  · exact absurd hs (by decide)
  · exact ⟨hw, hv⟩

/-- A register of a null check holds 0 or a view. -/
theorem of_nullable (h : k.Allows issued written v) (hk : isDefined k = true)
    (hkinds : k.has (~~~(Kind.zero ||| Kind.handle)) = false) :
    written = true ∧ ((k.has .zero = true ∧ v.tag = false ∧ v.address = 0) ∨
      (k.has .handle = true ∧ v ∈ issued)) := by
  rcases h with hu | ⟨hw, hz | ⟨hs, _⟩ | hh⟩
  · rw [not_uninit_of_isDefined hk] at hu
    cases hu
  · exact ⟨hw, .inl hz⟩
  · rw [has_eq_false_of_and hkinds (by decide)] at hs
    cases hs
  · exact ⟨hw, .inr hh⟩

end Kind.Allows

/-! ### The gate along a run -/

/-- The number of acquire calls. -/
def acquireCalls (calls : List GateCall) : Nat := calls.countP fun c => c.operation == opAcquire

/-- The gate of a run that no call has ended. -/
structure GateOk (k : Kfuncs) (env : Env) (prog : List BpfInsn) (s : BpfState) : Prop where
  inv : s.g.s.Inv env
  entered : s.g.s.entered = true
  alive : s.g.s.failed = false
  value : s.g.object.value = 42
  cells : 0 < s.g.s.cellsAddr ∧ 16 ∣ s.g.s.cellsAddr
  issued : s.issued = (List.range s.g.s.acquired).map s.g.s.viewAt
  acquired_le : s.g.s.acquired ≤ acquireCalls s.calls
  calls_le : acquireCalls s.calls ≤ acquireSites k prog s.pc
  uses : ∀ c ∈ s.calls, c.operation = opRead ∨ c.operation = opRelease → c.argument ∈ s.issued

variable {k : Kfuncs} {env : Env} {prog : List BpfInsn} {s s' : BpfState} {f : Flow}

namespace GateOk

/-- An instruction that moves on without a call. -/
theorem move (h : GateOk k env prog s) (hg : s'.g = s.g) (hissued : s'.issued = s.issued)
    (hcalls : s'.calls = s.calls) (hpc : s.pc ≤ s'.pc) : GateOk k env prog s' where
  inv := hg ▸ h.inv
  entered := hg ▸ h.entered
  alive := hg ▸ h.alive
  value := hg ▸ h.value
  cells := hg ▸ h.cells
  issued := by rw [hissued, h.issued, hg]
  acquired_le := by rw [hg, hcalls]; exact h.acquired_le
  calls_le := by
    rw [hcalls]
    exact Nat.le_trans h.calls_le (acquireSites_mono k prog hpc)
  uses := by rw [hcalls, hissued]; exact h.uses

/-- A returned view is the canonical one of a published cell. -/
theorem of_mem_issued (h : GateOk k env prog s) {v : Capability} (hv : v ∈ s.issued) :
    ∃ i < s.g.s.acquired, v = s.g.s.viewAt i ∧ v = s.g.s.viewFor env i ∧ v.tag = true ∧
      v.address = s.g.s.cellAddr i := by
  rw [h.issued, List.mem_map] at hv
  obtain ⟨i, hi, rfl⟩ := hv
  have hi := List.mem_range.mp hi
  obtain ⟨hview, htag⟩ := h.inv.views i hi
  refine ⟨i, hi, rfl, hview, hview ▸ htag, ?_⟩
  rw [hview, viewFor_of_tag htag]

theorem cellAddr_ne (h : GateOk k env prog s) (i : Nat) :
    s.g.s.cellAddr i ≠ 0 ∧ s.g.s.cellAddr i ≠ u64Max := by
  obtain ⟨hpos, hdvd⟩ := h.cells
  unfold Invocation.cellAddr cellBytes u64Max
  omega

end GateOk

/-! ### Calls -/

/-- Why the gate may reject a call of an admitted program. -/
inductive Rejection (env : Env) (s : BpfState) : Nat → Prop
  /-- an acquire argument greater than 1 -/
  | argument : (s.reg 1).tag = false → 1 < (s.reg 1).address → Rejection env s opAcquire
  /-- a capability that the encoding cannot hold -/
  | construction : (s.g.s.viewFor env s.g.s.acquired).tag = false ∨ (objectCap env).tag = false →
      Rejection env s opAcquire
  /-- a view that the run has released -/
  | released (op i : Nat) : op = opRead ∨ op = opRelease → i < s.g.s.acquired →
      s.reg 1 = s.g.s.viewAt i → (s.g.s.cellAt i).tag = false → Rejection env s op

/-- What the pass knows of the argument of a call. -/
structure ArgumentOk (k : Kfuncs) (prog : List BpfInsn) (s : BpfState) (op : Nat) : Prop where
  operation : op = opAcquire ∨ op = opRead ∨ op = opRelease
  scalar : op = opAcquire → (s.reg 1).tag = false
  handle : op = opRead ∨ op = opRelease → s.reg 1 ∈ s.issued
  site : op = opAcquire → acquireSites k prog (s.pc + 1) = acquireSites k prog s.pc + 1
  sites_le : acquireSites k prog (s.pc + 1) ≤ 2

/-- The kinds of the result of a call. -/
def resultKind (op : Nat) : Kind :=
  if op = opAcquire then .handle ||| .zero else if op = opRead then .scalar else .zero

/-- A rejected call is one of the three kinds, and leaves -1. -/
theorem rejection_of_rejects (hok : GateOk k env prog s) {op : Nat}
    (harg : ArgumentOk k prog s op) (hr : Rejects env s.g (s.gateCall op)) :
    Rejection env s op := by
  have hone : opAcquire = 1 := rfl
  have htwo : opRead = 2 := rfl
  have hthree : opRelease = 3 := rfl
  have hop := harg.operation
  cases hr with
  | inactive h => simp [hok.entered, hok.alive] at h
  | argument h1 hbad =>
    obtain rfl : op = opAcquire := h1
    have hclear := harg.scalar rfl
    rcases hbad with htag | haddr
    · exact absurd htag (by simpa [BpfState.gateCall] using hclear)
    · exact .argument hclear haddr
  | full h1 _ hfull =>
    obtain rfl : op = opAcquire := h1
    have := harg.site rfl
    have := harg.sites_le
    have := hok.acquired_le
    have := hok.calls_le
    omega
  | inexact h1 _ hbad =>
    obtain rfl : op = opAcquire := h1
    exact .construction hbad
  | operation h1 h2 h3 =>
    change op ≠ 1 at h1
    change op ≠ 2 at h2
    change op ≠ 3 at h3
    omega
  | unknown huse hnone =>
    obtain ⟨i, hi, hv, _⟩ := hok.of_mem_issued (harg.handle huse)
    exact absurd hv (hnone i hi)
  | stale i huse hi hv _ hdead => exact .released op i huse hi hv hdead

theorem isFailure_failure : isFailure cbpfFailure = true := rfl

theorem acquireCalls_append (calls : List GateCall) (c : GateCall) :
    acquireCalls (calls ++ [c]) =
      acquireCalls calls + if c.operation = opAcquire then 1 else 0 := by
  rw [acquireCalls, List.countP_append]
  simp [acquireCalls, List.countP_cons]

/-- What a call does to the run. -/
structure CallOk (k : Kfuncs) (env : Env) (prog : List BpfInsn) (s : BpfState) (op : Nat)
    (s' : BpfState) : Prop where
  gate : GateOk k env prog s'
  issued : ∀ v ∈ s.issued, v ∈ s'.issued
  result : (resultKind op).Allows s'.issued true (s'.reg 0)

/-- Views stay issued. -/
theorem issued_subset_returned (s : BpfState) (c : GateCall) (g : Running) (result : Capability)
    (clobber : Nat → Capability) : s.issued ⊆ (s.returned c g result clobber).issued := by
  intro v hv
  change v ∈ if _ then s.issued ++ [result] else s.issued
  split
  · exact List.mem_append_left _ hv
  · exact hv

/-- The parts of the gate that a call without a new view keeps. -/
theorem GateOk.returned (hok : GateOk k env prog s) {op : Nat} (harg : ArgumentOk k prog s op)
    {g : Running} {result : Capability} (clobber : Nat → Capability)
    (hs : GateStep env s.g (s.gateCall op) g result) (halive : g.s.failed = false)
    (hissued : (s.returned (s.gateCall op) g result clobber).issued =
      (List.range g.s.acquired).map g.s.viewAt)
    (hacq : g.s.acquired ≤ s.g.s.acquired + if op = opAcquire then 1 else 0) :
    GateOk k env prog (s.returned (s.gateCall op) g result clobber) := by
  obtain ⟨_, haddr, hentered, _, hvalue⟩ := hs.frame
  have hcalls := acquireCalls_append s.calls (s.gateCall op)
  have hsub := issued_subset_returned s (s.gateCall op) g result clobber
  exact {
    inv := hok.inv.step hs
    entered := hentered.trans hok.entered
    alive := halive
    value := hvalue.trans hok.value
    cells := by
      change 0 < g.s.cellsAddr ∧ 16 ∣ g.s.cellsAddr
      rw [haddr]
      exact hok.cells
    issued := hissued
    acquired_le := by
      change g.s.acquired ≤ acquireCalls (s.calls ++ [s.gateCall op])
      rw [hcalls]
      exact Nat.le_trans hacq (Nat.add_le_add_right hok.acquired_le _)
    calls_le := by
      change acquireCalls (s.calls ++ [s.gateCall op]) ≤ acquireSites k prog (s.pc + 1)
      rw [hcalls]
      have hle := hok.calls_le
      have hmono := acquireSites_mono k prog (Nat.le_add_right s.pc 1)
      change acquireCalls s.calls + (if op = opAcquire then 1 else 0) ≤ _
      split
      · next hop =>
        rw [harg.site hop]
        omega
      · omega
    uses := by
      intro c hc huse
      change c ∈ s.calls ++ [s.gateCall op] at hc
      rcases List.mem_append.mp hc with hc | hc
      · exact hsub (hok.uses c hc huse)
      · rw [List.mem_singleton.mp hc] at huse ⊢
        exact hsub (harg.handle huse) }

/-- The published views after a call that publishes none. -/
theorem GateOk.issued_of_same (hok : GateOk k env prog s) (op : Nat) (g : Running)
    (result : Capability) (clobber : Nat → Capability)
    (hnew : ¬ (op = opAcquire ∧ result.tag = true)) (hacq : g.s.acquired = s.g.s.acquired)
    (hviews : g.s.views = s.g.s.views) :
    (s.returned (s.gateCall op) g result clobber).issued =
      (List.range g.s.acquired).map g.s.viewAt := by
  have hview : g.s.viewAt = s.g.s.viewAt := by
    funext i
    rw [Invocation.viewAt, Invocation.viewAt, hviews]
  change (if op = opAcquire ∧ result.tag = true then s.issued ++ [result] else s.issued) = _
  rw [if_neg hnew, hok.issued, hacq, hview]

/-- The published views after an acquisition. -/
theorem GateOk.issued_of_bind (hok : GateOk k env prog s) (g : Running)
    (clobber : Nat → Capability) (hne : s.g.s.acquired ≠ 2)
    (hview : (s.g.s.viewFor env s.g.s.acquired).tag = true)
    (hacq : g.s.acquired = u32Inc s.g.s.acquired)
    (hviews : g.s.views = s.g.s.views.set s.g.s.acquired (s.g.s.viewFor env s.g.s.acquired)) :
    (s.returned (s.gateCall opAcquire) g (s.g.s.viewFor env s.g.s.acquired) clobber).issued =
      (List.range g.s.acquired).map g.s.viewAt := by
  have hlt : s.g.s.acquired < 2 := Nat.lt_of_le_of_ne hok.inv.acquired_le hne
  have hlen : s.g.s.acquired < s.g.s.views.length := by rw [hok.inv.views_length]; exact hlt
  have hold : ∀ i ∈ List.range s.g.s.acquired, g.s.viewAt i = s.g.s.viewAt i := by
    intro i hi
    have hi := List.mem_range.mp hi
    rw [Invocation.viewAt, hviews, Invocation.viewAt, List.getD_eq_getElem?_getD,
      List.getElem?_set_ne (by omega), ← List.getD_eq_getElem?_getD]
  have hnew : g.s.viewAt s.g.s.acquired = s.g.s.viewFor env s.g.s.acquired := by
    rw [Invocation.viewAt, hviews]
    simp [hlen]
  change (if opAcquire = opAcquire ∧ (s.g.s.viewFor env s.g.s.acquired).tag = true then
    s.issued ++ [s.g.s.viewFor env s.g.s.acquired] else s.issued) = _
  rw [if_pos ⟨rfl, hview⟩, hacq, u32Inc_of_lt (by omega), List.range_succ, List.map_append,
    List.map_congr_left hold, List.map_singleton, hnew, hok.issued]

/-- A call of an admitted program is rejected for one of three reasons, or leaves the gate in order
and a result of the expected kind. -/
theorem call_ok (hok : GateOk k env prog s) {op : Nat} (harg : ArgumentOk k prog s op)
    (clobber : Nat → Capability) :
    (isFailure (s.g.call env (s.gateCall op)).2 = true ∧ Rejection env s op) ∨
    (isFailure (s.g.call env (s.gateCall op)).2 = false ∧
      CallOk k env prog s op (s.returned (s.gateCall op) (s.g.call env (s.gateCall op)).1
        (s.g.call env (s.gateCall op)).2 clobber)) := by
  have hs := call_step env s.g (s.gateCall op)
  generalize (s.g.call env (s.gateCall op)).1 = g at hs ⊢
  generalize (s.g.call env (s.gateCall op)).2 = result at hs ⊢
  have hsub := issued_subset_returned s (s.gateCall op) g result clobber
  have hs' := hs
  cases hs with
  | reject hr => exact .inl ⟨isFailure_failure, rejection_of_rejects hok harg hr⟩
  | null _ hfailed hop =>
    obtain rfl : op = opAcquire := hop
    have hissued := hok.issued_of_same opAcquire (s.g.trace .null (s.gateCall opAcquire).pc 0)
      .null clobber (fun h => absurd h.2 nofun) rfl rfl
    refine .inr ⟨rfl, hok.returned harg clobber hs' hfailed hissued (Nat.le_add_right _ _),
      hsub, .inr ⟨rfl, .inl ⟨by decide, rfl, rfl⟩⟩⟩
  | acquire _ hfailed hop _ _ hne hview =>
    obtain rfl : op = opAcquire := hop
    have hlt : s.g.s.acquired < 2 := Nat.lt_of_le_of_ne hok.inv.acquired_le hne
    have hissued := hok.issued_of_bind
      (((s.g.bind s.g.s.acquired (objectCap env) (s.g.s.viewFor env s.g.s.acquired)).print
        (.bind (s.gateCall opAcquire).pc (s.g.s.acquired + 1) (s.g.s.cellAddr s.g.s.acquired)
          env.objectAddr (s.g.s.viewFor env s.g.s.acquired))).trace .acquire
            (s.gateCall opAcquire).pc (s.g.s.acquired + 1)) clobber hne hview rfl rfl
    have hfailure : isFailure (s.g.s.viewFor env s.g.s.acquired) = false := by
      rw [isFailure, viewFor_of_tag hview]
      exact beq_false_of_ne (hok.cellAddr_ne _).2
    refine .inr ⟨hfailure, hok.returned harg clobber hs' hfailed hissued ?_, hsub,
      .inr ⟨rfl, .inr (.inr ⟨by decide, ?_⟩)⟩⟩
    · exact Nat.le_of_eq (u32Inc_of_lt (by omega))
    · change _ ∈ if opAcquire = opAcquire ∧ (s.g.s.viewFor env s.g.s.acquired).tag = true then
        s.issued ++ [s.g.s.viewFor env s.g.s.acquired] else s.issued
      rw [if_pos ⟨rfl, hview⟩]
      exact List.mem_append_right _ (List.mem_singleton.mpr rfl)
  | read i _ hfailed hop =>
    obtain rfl : op = opRead := hop
    have hissued := hok.issued_of_same opRead
      (s.g.countRead.trace .read (s.gateCall opRead).pc (i + 1))
      (.ofInt (s.g.object.value % 2 ^ 64).toNat) clobber (fun h => absurd h.2 nofun) rfl rfl
    have hfailure : isFailure (.ofInt (s.g.object.value % 2 ^ 64).toNat) = false := by
      rw [hok.value]
      decide
    exact .inr ⟨hfailure, hok.returned harg clobber hs' hfailed hissued (Nat.le_add_right _ _),
      hsub, .inr ⟨rfl, .inr (.inl ⟨by decide, rfl⟩)⟩⟩
  | release i _ hfailed hop =>
    obtain rfl : op = opRelease := hop
    have hissued := hok.issued_of_same opRelease
      (s.g.consume i (s.gateCall opRelease).pc false) .null clobber (fun h => absurd h.2 nofun)
      rfl rfl
    exact .inr ⟨rfl, hok.returned harg clobber hs' hfailed hissued (Nat.le_add_right _ _), hsub,
      .inr ⟨rfl, .inl ⟨by decide, rfl, rfl⟩⟩⟩

/-! ### Runs -/

/-- What the fact `f` says about a run at its location. -/
structure Sound (k : Kfuncs) (env : Env) (prog : List BpfInsn) (f : Flow) (s : BpfState) :
    Prop where
  reached : f.reached = true
  pc_le : s.pc ≤ prog.length
  reg : ∀ r, (f.reg r).Allows s.issued (s.written r) (s.reg r)
  slot : f.spill.Allows s.issued s.slotWritten s.slot
  gate : GateOk k env prog s

namespace Sound

theorem mono {g : Flow} (h : Sound k env prog f s) (hle : f ≤ g) : Sound k env prog g s := by
  obtain ⟨hreached, hreg, hspill⟩ := hle h.reached
  exact ⟨hreached, h.pc_le, fun r => (h.reg r).mono (hreg r) fun _ hw => hw,
    h.slot.mono hspill fun _ hw => hw, h.gate⟩

/-- The entry fact holds at the beginning of every run. -/
theorem start (h : Starts env s) : Sound k env prog .entry s where
  reached := rfl
  pc_le := h.pc ▸ Nat.zero_le _
  reg _ := .inl Kind.has_uninit
  slot := .inl Kind.has_uninit
  gate :=
    { inv := h.inv, entered := h.entered, alive := h.alive, value := h.value, cells := h.cells
      issued := by rw [h.issued, h.acquired]; rfl
      acquired_le := by rw [h.acquired]; exact Nat.zero_le _
      calls_le := by rw [h.calls]; exact Nat.zero_le _
      uses := by rw [h.calls]; exact fun c hc => absurd hc List.not_mem_nil }

/-- Writing a value of kind `kind`. -/
theorem write (h : Sound k env prog f s) (hpc : s.pc < prog.length) {r : Nat} {kind : Kind}
    {v : Capability} (hv : kind.Allows s.issued true v) :
    Sound k env prog (f.set r kind) (s.write r v) where
  reached := h.reached
  pc_le := hpc
  reg := by
    intro r'
    by_cases heq : r' = r
    · subst heq
      simpa [Flow.set, BpfState.write] using hv
    · simpa [Flow.set, BpfState.write, Function.update_of_ne heq] using h.reg r'
  slot := h.slot
  gate := h.gate.move rfl rfl rfl (Nat.le_succ _)

/-- Moving on after learning that `r` is of kind `kind`. -/
theorem jump (h : Sound k env prog f s) {target r : Nat} {kind : Kind}
    (hforward : s.pc ≤ target) (hle : target ≤ prog.length)
    (hv : kind.Allows s.issued (s.written r) (s.reg r)) :
    Sound k env prog (f.set r kind) { s with pc := target } where
  reached := h.reached
  pc_le := hle
  reg := by
    intro r'
    by_cases heq : r' = r
    · subst heq
      simpa [Flow.set] using hv
    · simpa [Flow.set, Function.update_of_ne heq] using h.reg r'
  slot := h.slot
  gate := h.gate.move rfl rfl rfl hforward

/-- After a call. -/
theorem call (h : Sound k env prog f s) (hpc : s.pc < prog.length) {op : Nat} {g : Running}
    {result : Capability} {clobber : Nat → Capability}
    (hcall : CallOk k env prog s op (s.returned (s.gateCall op) g result clobber)) :
    Sound k env prog (f.call (resultKind op)) (s.returned (s.gateCall op) g result clobber) where
  reached := h.reached
  pc_le := hpc
  reg := by
    intro r
    by_cases hzero : r = 0
    · subst hzero
      exact hcall.result
    · by_cases hlow : r ≤ 5
      · refine .inl ?_
        simp only [Flow.call, if_neg hzero, if_pos hlow]
        decide
      · have hr := (h.reg r).mono (l := f.reg r) (fun _ hb => hb) hcall.issued
        simpa only [Flow.call, BpfState.returned, if_neg hzero, if_neg hlow] using hr
  slot := h.slot.mono (fun _ hb => hb) hcall.issued
  gate := hcall.gate

/-- What the gate is called with. -/
theorem argumentOk (h : Sound k env prog f s) {i : BpfInsn} {es : List (Nat × Flow)}
    (hi : prog[s.pc]? = some i) (hcode : i.code = .jmpCall)
    (ht : Transfer k prog.length s.pc i f es) (hsites : acquireSites k prog prog.length ≤ 2) :
    ArgumentOk k prog s (callOperation k i) := by
  have hlt : s.pc < prog.length := (List.getElem?_eq_some_iff.mp hi).1
  have hle := Nat.le_trans (acquireSites_mono k prog (Nat.succ_le_of_lt hlt)) hsites
  have hsite : callOperation k i = opAcquire →
      acquireSites k prog (s.pc + 1) = acquireSites k prog s.pc + 1 := by
    intro hop
    rw [acquireSites_succ hi, if_pos hop]
  cases ht with
  | acquire hop hscalar =>
    refine ⟨.inl hop, fun _ => ((h.reg 1).of_isScalar hscalar).2, fun huse => ?_, hsite, hle⟩
    rw [hop] at huse
    exact absurd huse (by decide)
  | read hop hhandle =>
    refine ⟨.inr (.inl hop), fun hacq => ?_, fun _ => ?_, hsite, hle⟩
    · rw [hop] at hacq
      exact absurd hacq (by decide)
    · have hreg := h.reg 1
      rw [hhandle] at hreg
      exact hreg.of_handle.2
  | release hop hhandle =>
    refine ⟨.inr (.inr hop), fun hacq => ?_, fun _ => ?_, hsite, hle⟩
    · rw [hop] at hacq
      exact absurd hacq (by decide)
    · have hreg := h.reg 1
      rw [hhandle] at hreg
      exact hreg.of_handle.2
  | movX hother => simp [hcode] at hother
  | movK hother => simp [hcode] at hother
  | stx hother => simp [hcode] at hother
  | ldx hother => simp [hcode] at hother
  | jeq hother => simp [hcode] at hother
  | exit hother => simp [hcode] at hother

end Sound

/-- What one instruction of an admitted program can lead to. -/
inductive StepOk (k : Kfuncs) (env : Env) (prog : List BpfInsn) (s : BpfState) (i : BpfInsn)
    (es : List (Nat × Flow)) : Outcome → Prop
  | next (s' : BpfState) (e : Nat × Flow) : e ∈ es → e.1 = s'.pc → Sound k env prog e.2 s' →
      StepOk k env prog s i es (.next s')
  | exit : i.code = .jmpExit → StepOk k env prog s i es (.exit (s.reg 0))
  | rejected (g : Running) : i.code = .jmpCall → Rejection env s (callOperation k i) →
      StepOk k env prog s i es (.rejected (s.gateCall (callOperation k i)) g)

/-- A call leads to the next instruction or is rejected. -/
theorem bpfCall_ok (h : Sound k env prog f s) (hpc : s.pc < prog.length) {i : BpfInsn}
    {es : List (Nat × Flow)} (hcode : i.code = .jmpCall)
    (harg : ArgumentOk k prog s (callOperation k i))
    (hes : es = [(s.pc + 1, f.call (resultKind (callOperation k i)))])
    (clobber : Nat → Capability) :
    StepOk k env prog s i es (bpfCall env clobber s (callOperation k i)) := by
  unfold bpfCall
  dsimp only
  rcases call_ok h.gate harg clobber with ⟨hfailure, hrejection⟩ | ⟨hfailure, hcall⟩
  · rw [if_pos hfailure]
    exact .rejected _ hcode hrejection
  · rw [hfailure, if_neg Bool.false_ne_true, hes]
    exact .next _ _ (List.mem_singleton.mpr rfl) rfl (h.call hpc hcall)

/-- A null check takes the branch exactly when the register holds 0, and either way its new fact is
the one that the pass has joined. -/
theorem jeq_ok (h : Sound k env prog f s) {i : BpfInsn} (hpc : s.pc < prog.length)
    (himm : i.imm = 0) (hoff : 0 < i.off) (htarget : s.pc + 1 + i.off.toNat < prog.length)
    (hdefined : isDefined (f.reg i.dstReg) = true)
    (hkinds : (f.reg i.dstReg).has (~~~(Kind.zero ||| Kind.handle)) = false) :
    StepOk k env prog s i (jeqEdges f s.pc (s.pc + 1 + i.off.toNat) i.dstReg)
      (if (s.reg i.dstReg).address = (i.imm.signExtend 64).toNat then
        if s.pc + 1 + i.off < 0 then .stuck
        else .next { s with pc := (s.pc + 1 + i.off).toNat }
      else .next { s with pc := s.pc + 1 }) := by
  have hzero : (i.imm.signExtend 64).toNat = 0 := by
    rw [himm]
    decide
  obtain ⟨hwritten, hvalue⟩ := (h.reg i.dstReg).of_nullable hdefined hkinds
  rw [hzero]
  rcases hvalue with ⟨hhas, htag, haddr⟩ | ⟨hhas, hissued⟩
  · have hpc' : (s.pc + 1 + i.off).toNat = s.pc + 1 + i.off.toNat := by omega
    rw [if_pos haddr, if_neg (by omega), hpc']
    refine .next _ (s.pc + 1 + i.off.toNat, f.set i.dstReg .zero) ?_ rfl ?_
    · exact List.mem_append_left _ (by rw [if_pos hhas]; exact List.mem_singleton.mpr rfl)
    · exact h.jump (by omega) (by omega)
        (.inr ⟨hwritten, .inl ⟨by decide, htag, haddr⟩⟩)
  · obtain ⟨j, _, _, _, _, haddr⟩ := h.gate.of_mem_issued hissued
    have hrest : (f.reg i.dstReg &&& ~~~Kind.zero).has .handle = true := by
      rw [Kind.has_and (by decide), hhas]
    have hne : (f.reg i.dstReg &&& ~~~Kind.zero != 0#8) = true := by
      rw [bne_iff_ne]
      intro hnone
      rw [hnone] at hrest
      exact absurd hrest (by decide)
    rw [if_neg (by rw [haddr]; exact (h.gate.cellAddr_ne j).1)]
    refine .next _ (s.pc + 1, f.set i.dstReg (f.reg i.dstReg &&& ~~~Kind.zero)) ?_ rfl ?_
    · exact List.mem_append_right _ (by rw [if_pos hne]; exact List.mem_singleton.mpr rfl)
    · exact h.jump (by omega) (by omega) (.inr ⟨hwritten, .inr (.inr ⟨hrest, hissued⟩)⟩)

/-- An admitted instruction that calls one of the three kfuncs. -/
theorem kfunc_ok (h : Sound k env prog f s) {i : BpfInsn} {es : List (Nat × Flow)}
    (hi : prog[s.pc]? = some i) (ht : Transfer k prog.length s.pc i f es)
    (hsites : acquireSites k prog prog.length ≤ 2) (clobber : Nat → Capability)
    (hcall : callOperation k i ≠ 0)
    (hes : es = [(s.pc + 1, f.call (resultKind (callOperation k i)))]) :
    StepOk k env prog s i es (bpfStep k env prog clobber s) := by
  have hpc : s.pc < prog.length := (List.getElem?_eq_some_iff.mp hi).1
  have hcode := code_of_callOperation rfl hcall
  unfold bpfStep
  rw [hi]
  dsimp only
  rw [hcode]
  dsimp only
  rw [if_neg hcall]
  exact bpfCall_ok h hpc hcode (h.argumentOk hi hcode ht hsites) hes clobber

/-- One instruction of an admitted program is never stuck and follows one of its edges. -/
theorem step_ok (h : Sound k env prog f s) {i : BpfInsn} {es : List (Nat × Flow)}
    (hi : prog[s.pc]? = some i) (ht : Transfer k prog.length s.pc i f es)
    (hsites : acquireSites k prog prog.length ≤ 2) (clobber : Nat → Capability) :
    StepOk k env prog s i es (bpfStep k env prog clobber s) := by
  have hpc : s.pc < prog.length := (List.getElem?_eq_some_iff.mp hi).1
  have hkfunc := kfunc_ok h hi ht hsites clobber
  unfold bpfStep at hkfunc ⊢
  rw [hi] at hkfunc ⊢
  dsimp only at hkfunc ⊢
  cases ht with
  | movX hcode _ _ hdefined =>
    rw [hcode]
    have hv := (h.reg i.srcReg).of_isDefined hdefined ▸ h.reg i.srcReg
    exact .next _ _ (List.mem_singleton.mpr rfl) rfl (h.write hpc hv)
  | movK hcode =>
    rw [hcode]
    refine .next _ _ (List.mem_singleton.mpr rfl) rfl (h.write hpc ?_)
    split
    · exact .inr ⟨rfl, .inr (.inl ⟨by decide, rfl⟩)⟩
    · next himm =>
      have himm : i.imm = 0 := by simpa using himm
      rw [himm]
      exact .inr ⟨rfl, .inl ⟨by decide, rfl, by decide⟩⟩
  | stx hcode hdst _ hoff hdefined =>
    rw [hcode]
    dsimp only
    rw [if_pos ⟨hdst, hoff⟩]
    have hv := (h.reg i.srcReg).of_isDefined hdefined ▸ h.reg i.srcReg
    exact .next _ _ (List.mem_singleton.mpr rfl) rfl
      ⟨h.reached, hpc, h.reg, hv, h.gate.move rfl rfl rfl (Nat.le_succ _)⟩
  | ldx hcode _ hsrc hoff hdefined =>
    rw [hcode]
    dsimp only
    rw [if_pos ⟨hsrc, hoff⟩]
    have hv := h.slot.of_isDefined hdefined ▸ h.slot
    exact .next _ _ (List.mem_singleton.mpr rfl) rfl (h.write hpc hv)
  | jeq hcode _ himm hoff htarget hdefined hkinds =>
    rw [hcode]
    exact jeq_ok h hpc himm hoff htarget hdefined hkinds
  | acquire hop =>
    exact hkfunc (by rw [hop]; decide) (by rw [hop]; rfl)
  | read hop =>
    exact hkfunc (by rw [hop]; decide) (by rw [hop]; rfl)
  | release hop =>
    exact hkfunc (by rw [hop]; decide) (by rw [hop]; rfl)
  | exit hcode =>
    rw [hcode]
    exact .exit hcode

/-- The end of the program is never reached. -/
theorem Sound.inside {c : Admission} (hdone : AdmitDone k prog c)
    (h : Sound k env prog (c.flow s.pc) s) : s.pc < prog.length := by
  refine Nat.lt_of_le_of_ne h.pc_le fun heq => ?_
  have hreached := h.reached
  rw [heq, hdone.unreached] at hreached
  cases hreached

/-- The facts that the pass computes hold along every run. -/
theorem sound_of_run {c : Admission} (h : admitProgram k prog = .ok c) {s₀ : BpfState}
    (hs : Starts env s₀) (hrun : Relation.ReflTransGen (Step k env prog) s₀ s) :
    Sound k env prog (c.flow s.pc) s := by
  have hdone := admit_done h
  refine hdone.pass.sound Flow.le_join_left Flow.le_join_right (Sound k env prog)
    (fun _ _ _ hle hsound => hsound.mono hle) (fun _ => Sound.inside hdone) ?_ ?_ hrun
  · rintro f es s s' ⟨_, i, hi, ht⟩ hsound ⟨clobber, hstep⟩
    have hok := step_ok hsound hi ht hdone.sites_le clobber
    rw [hstep] at hok
    cases hok with
    | next _ e he hpc hnext => exact ⟨e, he, hpc, hnext⟩
  · rw [hs.pc]
    exact (Sound.start hs).mono ((hdone.pass.frame (Nat.le_refl 0)).symm ▸ le_refl _)

/-- An instruction that the pass accepts reads only what has been written. -/
theorem Sound.reads (h : Sound k env prog f s) {i : BpfInsn} {es : List (Nat × Flow)}
    (ht : Transfer k prog.length s.pc i f es) :
    (∀ r ∈ i.reads, s.written r = true) ∧ (i.code = .ldxMemDw → s.slotWritten = true) := by
  have hone : i.code = .jmpCall → (∀ r ∈ [1], s.written r = true) →
      (∀ r ∈ i.reads, s.written r = true) ∧ (i.code = .ldxMemDw → s.slotWritten = true) := by
    intro hcode hwritten
    simp only [BpfInsn.reads, hcode]
    exact ⟨hwritten, nofun⟩
  have hhandle : f.reg 1 = .handle → ∀ r ∈ [1], s.written r = true := by
    intro hkind r hr
    rw [List.mem_singleton.mp hr]
    exact Kind.Allows.of_handle (hkind ▸ h.reg 1) |>.1
  cases ht with
  | movX hcode _ _ hdefined =>
    simp only [BpfInsn.reads, hcode, List.forall_mem_singleton]
    exact ⟨(h.reg _).of_isDefined hdefined, nofun⟩
  | movK hcode =>
    simp only [BpfInsn.reads, hcode]
    exact ⟨fun r hr => absurd hr List.not_mem_nil, nofun⟩
  | stx hcode _ _ _ hdefined =>
    simp only [BpfInsn.reads, hcode, List.forall_mem_singleton]
    exact ⟨(h.reg _).of_isDefined hdefined, nofun⟩
  | ldx hcode _ _ _ hdefined =>
    simp only [BpfInsn.reads, hcode]
    exact ⟨fun r hr => absurd hr List.not_mem_nil, fun _ => h.slot.of_isDefined hdefined⟩
  | jeq hcode _ _ _ _ hdefined =>
    simp only [BpfInsn.reads, hcode, List.forall_mem_singleton]
    exact ⟨(h.reg _).of_isDefined hdefined, nofun⟩
  | acquire hop hscalar =>
    refine hone (code_of_callOperation hop (by decide)) fun r hr => ?_
    rw [List.mem_singleton.mp hr]
    exact ((h.reg 1).of_isScalar hscalar).1
  | read hop hkind => exact hone (code_of_callOperation hop (by decide)) (hhandle hkind)
  | release hop hkind => exact hone (code_of_callOperation hop (by decide)) (hhandle hkind)
  | exit hcode hscalar =>
    simp only [BpfInsn.reads, hcode, List.forall_mem_singleton]
    exact ⟨((h.reg 0).of_isScalar hscalar).1, nofun⟩

/-- What holds wherever a run of an admitted program is. -/
structure SafeAt (k : Kfuncs) (env : Env) (prog : List BpfInsn) (c : Admission) (s : BpfState) :
    Prop where
  inside : s.pc < prog.length
  reached : (c.flow s.pc).reached = true
  reg : ∀ r, ((c.flow s.pc).reg r).Allows s.issued (s.written r) (s.reg r)
  slot : (c.flow s.pc).spill.Allows s.issued s.slotWritten s.slot
  /-- the views of the run are canonical, distinct and never 0 -/
  issued : s.issued.Nodup ∧ ∀ v ∈ s.issued, v.tag = true ∧ v.address ≠ 0 ∧
    ∃ j < s.g.s.acquired, v = s.g.s.viewFor env j
  /-- the next instruction reads nothing that has not been written -/
  reads : ∀ i, prog[s.pc]? = some i → (∀ r ∈ i.reads, s.written r = true) ∧
    (i.code = .ldxMemDw → s.slotWritten = true)
  /-- the next call uses a view of this run, or asks with a scalar -/
  argument : ∀ i, prog[s.pc]? = some i →
    (callOperation k i = opRead ∨ callOperation k i = opRelease → s.reg 1 ∈ s.issued) ∧
    (callOperation k i = opAcquire → (s.reg 1).tag = false)
  calls : ∀ c ∈ s.calls, c.operation = opRead ∨ c.operation = opRelease → c.argument ∈ s.issued
  acquires : acquireCalls s.calls ≤ 2
  /-- the next instruction is executed, and ends the run in one of two ways only -/
  progress : ∀ clobber, bpfStep k env prog clobber s ≠ .stuck
  exit : ∀ clobber v, bpfStep k env prog clobber s = .exit v → v.tag = false ∧ v ∉ s.issued
  rejected : ∀ clobber call g, bpfStep k env prog clobber s = .rejected call g →
    Rejection env s call.operation ∧ acquireCalls (s.calls ++ [call]) ≤ 2

/-- Soundness of the admission pass: along every run of an admitted program, from any contents of
registers and slot and whatever calls leave behind. -/
theorem admit_sound (k : Kfuncs) (env : Env) (prog : List BpfInsn) (c : Admission)
    (h : admitProgram k prog = .ok c) (s₀ s : BpfState) (hs : Starts env s₀)
    (hrun : Relation.ReflTransGen (Step k env prog) s₀ s) : SafeAt k env prog c s := by
  have hdone := admit_done h
  have hsound := sound_of_run h hs hrun
  have hinside := hsound.inside hdone
  obtain ⟨es, ⟨_, i, hi, ht⟩, _⟩ :=
    hdone.pass.solution Flow.le_join_left Flow.le_join_right (Nat.zero_le s.pc) hinside
  have hunique : ∀ j, prog[s.pc]? = some j → j = i := fun j hj =>
    Option.some.inj (hj.symm.trans hi)
  have hok := fun clobber => step_ok hsound hi ht hdone.sites_le clobber
  have htagged : ∀ v ∈ s.issued, v.tag = true := fun v hv => by
    obtain ⟨_, _, _, _, htag, _⟩ := hsound.gate.of_mem_issued hv
    exact htag
  have hcalls : acquireCalls s.calls ≤ 2 :=
    Nat.le_trans hsound.gate.calls_le
      (Nat.le_trans (acquireSites_mono k prog hsound.pc_le) hdone.sites_le)
  refine ⟨hinside, hsound.reached, hsound.reg, hsound.slot, ⟨?_, ?_⟩, ?_, ?_, hsound.gate.uses,
    hcalls, ?_, ?_, ?_⟩
  · rw [hsound.gate.issued]
    exact List.Nodup.map_on (fun a ha b hb heq => hsound.gate.inv.view_unique
      (List.mem_range.mp ha) (List.mem_range.mp hb) heq) List.nodup_range
  · intro v hv
    obtain ⟨j, hj, _, hview, htag, haddr⟩ := hsound.gate.of_mem_issued hv
    exact ⟨htag, haddr ▸ (hsound.gate.cellAddr_ne j).1, j, hj, hview⟩
  · intro j hj
    obtain rfl := hunique j hj
    exact hsound.reads ht
  · intro j hj
    obtain rfl := hunique j hj
    refine ⟨fun huse => ?_, fun hacq => ?_⟩
    · have hcode := code_of_callOperation (rfl : callOperation k j = _) (by
        rcases huse with hop | hop <;> rw [hop] <;> decide)
      exact (hsound.argumentOk hi hcode ht hdone.sites_le).handle huse
    · have hcode := code_of_callOperation hacq (by decide)
      exact (hsound.argumentOk hi hcode ht hdone.sites_le).scalar hacq
  · intro clobber hstuck
    have := hok clobber
    rw [hstuck] at this
    cases this
  · intro clobber v hexit
    have := hok clobber
    rw [hexit] at this
    cases this with
    | exit hcode =>
      have htag := ((hsound.reg 0).of_isScalar (ht.isScalar_of_exit hcode)).2
      refine ⟨htag, fun hmem => ?_⟩
      rw [htagged _ hmem] at htag
      cases htag
  · intro clobber call g hrejected
    have := hok clobber
    rw [hrejected] at this
    cases this with
    | rejected _ hcode hrejection =>
      refine ⟨hrejection, ?_⟩
      have hle := Nat.le_trans (acquireSites_mono k prog (Nat.succ_le_of_lt hinside))
        hdone.sites_le
      have hcalls := hsound.gate.calls_le
      rw [acquireCalls_append]
      change acquireCalls s.calls + (if callOperation k i = opAcquire then 1 else 0) ≤ 2
      rw [acquireSites_succ hi] at hle
      omega

/-- A resolver that takes the immediate for the address. -/
def immKfuncs : Kfuncs where
  funcAddr i := some (i.imm.toNat, true)
  cbpfCapAcquire := 1
  cbpfCapRead := 2
  cbpfCapRelease := 3

/-- Acquire, leave on NULL, release through an alias and return 1. -/
def acquireRelease : List BpfInsn :=
  [⟨.alu64MovK, 1, 0, 0, 0⟩, ⟨.jmpCall, 0, 2, 0, 1⟩, ⟨.jmpJeqK, 0, 0, 4, 0⟩,
    ⟨.alu64MovX, 6, 0, 0, 0⟩, ⟨.alu64MovX, 1, 6, 0, 0⟩, ⟨.jmpCall, 0, 2, 0, 3⟩,
    ⟨.alu64MovK, 0, 0, 0, 1⟩, ⟨.jmpExit, 0, 0, 0, 0⟩]

theorem acquireRelease_admitted : ∃ c, admitProgram immKfuncs acquireRelease = .ok c := by
  have hok : (admitProgram immKfuncs acquireRelease).isOk = true := by decide
  cases haccepted : admitProgram immKfuncs acquireRelease with
  | error e =>
    rw [haccepted] at hok
    cases hok
  | ok c => exact ⟨c, rfl⟩

/-- A run begins with stale contents. -/
def staleStart : BpfState where
  pc := 0
  reg := fun r => ⟨true, false, r, 0, 2 ^ 64, cbpfPublicPerms⟩
  slot := .ofInt 7
  written := fun _ => false
  slotWritten := false
  g := Running.start 1 7 8192
  issued := []
  calls := []

theorem staleStart_starts : Starts flatEnv staleStart where
  pc := rfl
  written := rfl
  slotWritten := rfl
  issued := rfl
  calls := rfl
  inv := (Invocation.Inv.zeroed flatEnv 7 8192).congr rfl rfl rfl rfl rfl rfl
  entered := rfl
  alive := rfl
  acquired := rfl
  value := rfl
  cells := by decide

/-- After the acquisition the run is safe, and r0 holds its only view. -/
theorem admit_sound_acquired : ∃ c s, admitProgram immKfuncs acquireRelease = .ok c ∧
    Relation.ReflTransGen (Step immKfuncs flatEnv acquireRelease) staleStart s ∧ s.pc = 2 ∧
    s.issued = [⟨true, false, 8192, 8192, 16, cbpfPublicPerms⟩] ∧
    SafeAt immKfuncs flatEnv acquireRelease c s := by
  obtain ⟨c, haccepted⟩ := acquireRelease_admitted
  have hrun : Relation.ReflTransGen (Step immKfuncs flatEnv acquireRelease) staleStart _ :=
    .tail (.tail .refl ⟨fun _ => .null, rfl⟩) ⟨fun _ => .null, rfl⟩
  exact ⟨c, _, haccepted, hrun, rfl, rfl,
    admit_sound immKfuncs flatEnv acquireRelease c haccepted staleStart _ staleStart_starts hrun⟩

end Cbpf.Jit
