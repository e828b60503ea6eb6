import Cbpf.Jit.Soundness
import Cbpf.Kernel.ModelRefinement

/-!
# Admitted programs and the ownership model

The gate calls of an admitted program are those of a client with three holders: one for the handle of
each of its two acquisitions, and one that stays empty. So every run of such a program is a history of
the ownership model, and the pass rules out what the model calls exhaustion and null uses.
-/

namespace Cbpf.Jit

open Cheri Kernel

namespace BpfState

variable (s : BpfState)

/-- The handles that the program has been given, wherever it keeps them. -/
def client : Client where
  g := s.g
  holders := [s.issued.getD 0 .null, s.issued.getD 1 .null, .null]

/-- A gate call as the operation of the client; a null acquisition goes to the empty holder. -/
def clientOp (c : GateCall) : ClientOp :=
  if c.operation = opAcquire then
    .acquire (if c.argument.address = 0 then s.issued.length else 2) c.argument.address c.pc
  else if c.operation = opRead then .read (s.issued.idxOf c.argument) c.pc
  else .release (s.issued.idxOf c.argument) c.pc

theorem clientOp_acquire : s.clientOp (s.gateCall opAcquire) =
    .acquire (if (s.reg 1).address = 0 then s.issued.length else 2) (s.reg 1).address s.pc :=
  if_pos rfl

theorem clientOp_read : s.clientOp (s.gateCall opRead) = .read (s.issued.idxOf (s.reg 1)) s.pc := by
  have hne : opRead ≠ opAcquire := by decide
  exact (if_neg hne).trans (if_pos rfl)

theorem clientOp_release :
    s.clientOp (s.gateCall opRelease) = .release (s.issued.idxOf (s.reg 1)) s.pc := by
  have hne : opRelease ≠ opAcquire := by decide
  have hne' : opRelease ≠ opRead := by decide
  exact (if_neg hne).trans (if_neg hne')

end BpfState

variable {k : Kfuncs} {env : Env} {prog : List BpfInsn} {s s' : BpfState} {m : Model.State}
  {op : Nat} {f : Flow}

/-! ### Holders -/

theorem GateOk.length_issued (h : GateOk k env prog s) :
    s.issued.length = s.g.s.acquired := by
  rw [h.issued, List.length_map, List.length_range]

theorem holder_client {i : Nat} (hi : i < s.issued.length) (hle : s.issued.length ≤ 2) :
    s.client.holder i = s.issued[i] := by
  have hget : s.issued.getD i .null = s.issued[i] := List.getD_eq_getElem _ _ hi
  rw [← hget]
  match i with
  | 0 => rfl
  | 1 => rfl
  | i + 2 => omega

/-- A new handle goes to the first free holder. -/
theorem holders_append {issued : List Capability} (v : Capability) (hlt : issued.length < 2) :
    [issued.getD 0 .null, issued.getD 1 .null, .null].set issued.length v =
      [(issued ++ [v]).getD 0 .null, (issued ++ [v]).getD 1 .null, .null] := by
  match issued with
  | [] => rfl
  | [_] => rfl
  | _ :: _ :: _ => simp at hlt

/-- The handle of a read or a release. -/
theorem holder_argument (hok : GateOk k env prog s) (hmem : s.reg 1 ∈ s.issued) :
    s.issued.idxOf (s.reg 1) < 2 ∧ s.client.holder (s.issued.idxOf (s.reg 1)) = s.reg 1 := by
  have hle := hok.inv.acquired_le
  rw [← hok.length_issued] at hle
  have hlt := List.idxOf_lt_length_of_mem hmem
  exact ⟨Nat.lt_of_lt_of_le hlt hle, (holder_client hlt hle).trans (List.getElem_idxOf hlt)⟩

/-! ### One call -/

/-- An acquisition looks at the tag and the integer of its argument. -/
theorem call_ofInt (g : Running) (env : Env) {c : GateCall} (hop : c.operation = 1)
    (htag : c.argument.tag = false) :
    g.call env ⟨.ofInt c.argument.address, 1, c.pc⟩ = g.call env c := by
  have hargument : g.gateAcquire env (.ofInt c.argument.address) c.pc =
      g.gateAcquire env c.argument c.pc := by
    unfold Running.gateAcquire
    rw [htag]
    rfl
  unfold Running.call Running.gateImpl
  rw [hargument, hop]
  rfl

/-- What the gateway takes for a rejection is one. -/
theorem result_of_isFailure (hok : GateOk k env prog s) {c : GateCall} {g : Running}
    {result : Capability} (hs : GateStep env s.g c g result) (h : isFailure result = true) :
    Rejects env s.g c ∧ g = s.g.fail c.pc ∧ result = cbpfFailure := by
  cases hs with
  | reject hr => exact ⟨hr, rfl, rfl⟩
  | null => cases h
  | acquire _ _ _ _ _ _ hview =>
    rw [isFailure, viewFor_of_tag hview] at h
    exact absurd (beq_iff_eq.mp h) (hok.cellAddr_ne _).2
  | read =>
    rw [hok.value] at h
    exact absurd h (by decide)
  | release => cases h

theorem ne_failure_of_isFailure {result : Capability} (h : isFailure result = false) :
    result ≠ cbpfFailure := by
  rintro rfl
  cases h

/-- The handles after a call that returns no view. -/
theorem client_returned_of_same {c : GateCall} {g : Running} {result : Capability}
    {clobber : Nat → Capability} (h : ¬ (c.operation = opAcquire ∧ result.tag = true)) :
    (s.returned c g result clobber).client = ⟨g, s.client.holders⟩ := by
  have hissued : (s.returned c g result clobber).issued = s.issued := if_neg h
  unfold BpfState.client
  rw [hissued]
  rfl

/-- An acquisition that comes back. -/
theorem client_acquire (hok : GateOk k env prog s) (harg : ArgumentOk k prog s opAcquire)
    (clobber : Nat → Capability)
    (h : isFailure (s.g.call env (s.gateCall opAcquire)).2 = false) :
    s.client.step env (s.clientOp (s.gateCall opAcquire)) =
      ((s.returned (s.gateCall opAcquire) (s.g.call env (s.gateCall opAcquire)).1
        (s.g.call env (s.gateCall opAcquire)).2 clobber).client, true) := by
  have hs := call_step env s.g (s.gateCall opAcquire)
  have hne := ne_failure_of_isFailure h
  have hcall := call_ofInt s.g env (c := s.gateCall opAcquire) rfl (harg.scalar rfl)
  rw [s.clientOp_acquire, Client.step]
  dsimp only
  rw [show s.client.g.call env ⟨.ofInt (s.reg 1).address, 1, s.pc⟩ = _ from hcall]
  generalize s.g.call env (s.gateCall opAcquire) = out at hs hne ⊢
  obtain ⟨g, result⟩ := out
  dsimp only at hs hne ⊢
  rw [if_neg hne]
  refine Prod.ext ?_ rfl
  cases hs with
  | reject => exact absurd rfl hne
  | null _ _ _ _ haddr =>
    have hsame : ¬ ((s.gateCall opAcquire).operation = opAcquire ∧
        Capability.null.tag = true) := fun h => absurd h.2 Bool.false_ne_true
    have hone : (s.reg 1).address = 1 := haddr
    rw [client_returned_of_same hsame, hone]
    rfl
  | acquire _ _ _ _ haddr hnot hview =>
    have hlt : s.issued.length < 2 := by
      rw [hok.length_issued]
      exact Nat.lt_of_le_of_ne hok.inv.acquired_le hnot
    have hissued : ∀ g, (s.returned (s.gateCall opAcquire) g (s.g.s.viewFor env s.g.s.acquired)
        clobber).issued = s.issued ++ [s.g.s.viewFor env s.g.s.acquired] :=
      fun _ => if_pos ⟨rfl, hview⟩
    have hzero : (s.reg 1).address = 0 := haddr
    rw [if_pos hzero]
    unfold BpfState.client
    rw [hissued, ← holders_append _ hlt]
    rfl
  | read _ _ _ hop => cases hop
  | release _ _ _ hop => cases hop

/-- A call that comes back is an accepted operation of the client. -/
theorem client_step (hok : GateOk k env prog s) (harg : ArgumentOk k prog s op)
    (clobber : Nat → Capability) (h : isFailure (s.g.call env (s.gateCall op)).2 = false) :
    s.client.step env (s.clientOp (s.gateCall op)) =
      ((s.returned (s.gateCall op) (s.g.call env (s.gateCall op)).1
        (s.g.call env (s.gateCall op)).2 clobber).client, true) := by
  have hne := ne_failure_of_isFailure h
  rcases harg.operation with rfl | rfl | rfl
  · exact client_acquire hok harg clobber h
  · obtain ⟨_, hholder⟩ := holder_argument hok (harg.handle (.inl rfl))
    have hne' : opRead ≠ opAcquire := by decide
    rw [client_returned_of_same fun h => hne' h.1, s.clientOp_read, Client.step]
    dsimp only
    rw [hholder]
    exact Prod.ext rfl (bne_iff_ne.mpr hne)
  · obtain ⟨_, hholder⟩ := holder_argument hok (harg.handle (.inr rfl))
    have hne' : opRelease ≠ opAcquire := by decide
    rw [client_returned_of_same fun h => hne' h.1, s.clientOp_release, Client.step]
    dsimp only
    rw [hholder]
    exact Prod.ext rfl (bne_iff_ne.mpr hne)

theorem inRange_clientOp (hok : GateOk k env prog s) (harg : ArgumentOk k prog s op) :
    (s.clientOp (s.gateCall op)).inRange 3 := by
  rcases harg.operation with rfl | rfl | rfl
  · rw [s.clientOp_acquire]
    have hle := hok.inv.acquired_le
    rw [← hok.length_issued] at hle
    change (if _ then s.issued.length else 2) < 3
    split <;> omega
  · rw [s.clientOp_read]
    exact Nat.lt_succ_of_lt (holder_argument hok (harg.handle (.inl rfl))).1
  · rw [s.clientOp_release]
    exact Nat.lt_succ_of_lt (holder_argument hok (harg.handle (.inr rfl))).1

/-! ### Rejected calls -/

/-- A handle that has been released has a token that is stale. -/
theorem stale_reg (hok : GateOk k env prog s) (h : Kernel.Related env 3 s.client m) {i : Nat}
    (hi : i < s.g.s.acquired) (hmem : s.reg 1 ∈ s.issued) (hview : s.reg 1 = s.g.s.viewAt i)
    (hdead : (s.g.s.cellAt i).tag = false) :
    m.reg (s.issued.idxOf (s.reg 1)) ≠ 0 ∧
      m.valid (m.reg (s.issued.idxOf (s.reg 1))) = false := by
  obtain ⟨hlt, hholder⟩ := holder_argument hok hmem
  have hlen : s.issued.idxOf (s.reg 1) < s.client.holders.length := Nat.lt_succ_of_lt hlt
  rcases valid_core h.ok h.core hlen with ⟨hnull, _⟩ | ⟨j, hj, hview', hreg, hvalid⟩
  · obtain ⟨_, _, _, _, htag, _⟩ := hok.of_mem_issued hmem
    rw [← hholder, hnull] at htag
    cases htag
  · obtain rfl := hok.inv.view_unique hi hj (hview.symm.trans (hholder.symm.trans hview'))
    rw [hvalid, hreg]
    exact ⟨by omega, hdead⟩

/-- The model's edge for a call that the gate rejects. -/
theorem rejected_edge (hok : GateOk k env prog s) (harg : ArgumentOk k prog s op)
    (h : Kernel.Related env 3 s.client m) (hr : Rejection env s op) :
    (∃ e reason, (s.clientOp (s.gateCall op)).IsEdge m e ∧
      (reason = .staleRead ∨ reason = .staleRelease) ∧ e.target = m.terminate reason) ∨
    op = opAcquire ∧ 1 < (s.reg 1).address := by
  cases hr with
  | argument _ haddr => exact .inr ⟨rfl, haddr⟩
  | construction hbad =>
    -- there is room for the acquisition, and its capabilities can be constructed
    have hsite := harg.site rfl
    have hsites := harg.sites_le
    have hacquired := hok.acquired_le
    have hcalls := hok.calls_le
    have hview := h.ok.exact.view s.g.s.acquired (by omega)
    have hobject := h.ok.exact.object
    rcases hbad with hbad | hbad
    · exact absurd (hview.symm.trans hbad) (by decide)
    · exact absurd (hobject.symm.trans hbad) (by decide)
  | released op i huse hi hview hdead =>
    have hmem := harg.handle huse
    obtain ⟨hne, hvalid⟩ := stale_reg hok h hi hmem hview hdead
    have hlt : s.issued.idxOf (s.reg 1) < m.registers.length := by
      rw [h.core.aliases, List.length_map]
      exact Nat.lt_succ_of_lt (holder_argument hok hmem).1
    rcases huse with rfl | rfl
    · have he : Model.readEdge m (s.issued.idxOf (s.reg 1)) = ⟨.read, [s.issued.idxOf (s.reg 1)],
          .stale, m.terminate .staleRead⟩ := by
        simp [Model.readEdge, Model.readReason, Model.invalidReason, hvalid, hne]
      rw [s.clientOp_read]
      refine .inl ⟨_, .staleRead, isEdge_of_yields h.core.active (.read _ hlt) ?_, .inl rfl, ?_⟩
      · rw [he]
        rfl
      · rw [he]
    · have he : Model.releaseEdge m false (s.issued.idxOf (s.reg 1)) = ⟨.release,
          [s.issued.idxOf (s.reg 1)], .stale, m.terminate .staleRelease⟩ := by
        simp [Model.releaseEdge, Model.releaseReason, Model.invalidReason, hvalid, hne]
      rw [s.clientOp_release]
      refine .inl ⟨_, .staleRelease, isEdge_of_yields h.core.active (.release _ hlt) ?_, .inr rfl, ?_⟩
      · rw [he]
        rfl
      · rw [he]

/-! ### The simulation -/

/-- A simulation of the runs of a program by the ownership model with three registers, no spill slot
and capacity 2. -/
structure Drives (k : Kfuncs) (env : Env) (prog : List BpfInsn)
    (R : BpfState → Model.State → Prop) : Prop where
  agrees : ∀ s m, R s m → Agrees env s.client m
  reachable : ∀ s m, R s m → Model.Reachable 3 0 2 false m ∧ m.terminal = .active
  /-- a gate call is the edge of its operation, and any other instruction is none -/
  next : ∀ s m clobber s', R s m → bpfStep k env prog clobber s = .next s' →
    s'.g = s.g ∧ s'.calls = s.calls ∧ R s' m ∨
    ∃ c e, s'.calls = s.calls ++ [c] ∧ (s.clientOp c).IsEdge m e ∧ R s' e.target
  /-- an exit with the teardown is `finish` -/
  exit : ∀ s m clobber v result, R s m → bpfStep k env prog clobber s = .exit v →
    (s.g.teardown result).2 = result ∧
    ∃ e ∈ Model.transitions m 2 false, e.kind = .finish ∧ e.target.terminal = .ret ∧
      Agrees env (s.client.teardown result) e.target
  /-- a rejection with the teardown is the edge of a stale use, unless an acquire argument is above 1,
  which the model does not have -/
  rejected : ∀ s m clobber c g result, R s m → bpfStep k env prog clobber s = .rejected c g →
    g = s.g.fail c.pc ∧ (g.teardown result).2 = 0 ∧
    ((∃ e, (s.clientOp c).IsEdge m e ∧
        (e.target.terminal = .staleRead ∨ e.target.terminal = .staleRelease) ∧
        Agrees env (Client.teardown ⟨g, s.client.holders⟩ result) e.target) ∨
      c.operation = opAcquire ∧ 1 < c.argument.address ∧
        ∀ reason, Agrees env (Client.teardown ⟨g, s.client.holders⟩ result) (m.terminate reason))

/-- The beginning of a run in the only invocation, whose capabilities can be constructed. -/
structure Begins (env : Env) (s : BpfState) : Prop where
  starts : Starts env s
  accounted : s.g.s.Accounted
  refs : s.g.object.refs = 1
  exact : Exact env s.g.s

theorem Begins.related (h : Begins env s) : Kernel.Related env 3 s.client (.initial 3 0) := by
  have hinv := h.starts.inv
  have hacquired := h.starts.acquired
  have hbalance := hinv.balance
  have hcleanup := hinv.cleanup_le
  have hfresh : ∀ i, (s.g.s.cellAt i).tag = false := fun i => hinv.fresh i (by omega)
  have htagged := tagged_eq_zero hfresh
  have hholders : s.client.holders = [.null, .null, .null] := by
    rw [BpfState.client, h.starts.issued]
    rfl
  refine ⟨{
    exact := h.exact
    inv := hinv
    accounted := h.accounted
    entered := h.starts.entered
    failed := h.starts.alive
    value := h.starts.value
    refs := ?_
    cleanup := ?_
    holders := ?_ }, by rw [hholders]; rfl, ?_, .refl⟩
  · change s.g.object.refs = 1 + (s.g.s.tagged : Int)
    rw [h.refs, htagged]
    rfl
  · change s.g.s.cleanup = 0
    omega
  · rw [hholders]
    intro c hc
    simp only [List.mem_cons, List.not_mem_nil, or_false, or_self] at hc
    exact .inl hc
  · refine ⟨hacquired.symm, fun i => ?_, ?_, rfl, rfl⟩
    · rw [show (s.client.g.s.cellAt i).tag = false from hfresh i]
      rfl
    · have hnull : Client.tokenOf env s.client.g.s .null = 0 := tokenOf_null h.exact
      rw [hholders]
      simp [Model.State.initial, hnull]

/-- An admitted instruction that leads on: a call or not. -/
theorem Sound.next_call (h : Sound k env prog f s) {i : BpfInsn} {es : List (Nat × Flow)}
    (hi : prog[s.pc]? = some i) (hcode : i.code = .jmpCall)
    (ht : Transfer k prog.length s.pc i f es) (hsites : acquireSites k prog prog.length ≤ 2)
    (clobber : Nat → Capability) :
    ∃ op, ArgumentOk k prog s op ∧ bpfStep k env prog clobber s = bpfCall env clobber s op := by
  have harg := h.argumentOk hi hcode ht hsites
  refine ⟨callOperation k i, harg, ?_⟩
  have hne : callOperation k i ≠ 0 := by
    have hop := harg.operation
    unfold opAcquire opRead opRelease at hop
    omega
  unfold bpfStep
  rw [hi]
  dsimp only
  rw [hcode]
  dsimp only
  rw [if_neg hne]

/-- Instructions that are no calls leave the gate and the handles alone. -/
theorem bpfStep_same {clobber : Nat → Capability} {i : BpfInsn} (hi : prog[s.pc]? = some i)
    (hcode : i.code ≠ .jmpCall) (h : bpfStep k env prog clobber s = .next s') :
    s'.g = s.g ∧ s'.issued = s.issued ∧ s'.calls = s.calls := by
  unfold bpfStep at h
  rw [hi] at h
  dsimp only at h
  cases hc : i.code with
  | alu64MovX | alu64MovK =>
    rw [hc] at h
    obtain rfl := Outcome.next.inj h
    exact ⟨rfl, rfl, rfl⟩
  | stxMemDw | ldxMemDw =>
    rw [hc] at h
    dsimp only at h
    split at h
    · obtain rfl := Outcome.next.inj h
      exact ⟨rfl, rfl, rfl⟩
    · cases h
  | jmpJeqK =>
    rw [hc] at h
    dsimp only at h
    split at h
    · split at h
      · cases h
      · obtain rfl := Outcome.next.inj h
        exact ⟨rfl, rfl, rfl⟩
    · obtain rfl := Outcome.next.inj h
      exact ⟨rfl, rfl, rfl⟩
  | jmpCall => exact absurd hc hcode
  | jmpExit | other code =>
    rw [hc] at h
    cases h

/-- The relation that a run keeps. -/
def Driven (k : Kfuncs) (env : Env) (prog : List BpfInsn) (a : Admission) (s : BpfState)
    (m : Model.State) : Prop :=
  Sound k env prog (a.flow s.pc) s ∧ Kernel.Related env 3 s.client m

theorem client_congr (hg : s'.g = s.g) (hissued : s'.issued = s.issued) :
    s'.client = s.client := by
  rw [BpfState.client, hg, hissued]
  rfl

/-- A call that comes back is one edge. -/
theorem drives_call {clobber : Nat → Capability} (hok : GateOk k env prog s)
    (harg : ArgumentOk k prog s op) (h : Kernel.Related env 3 s.client m)
    (hnext : bpfCall env clobber s op = .next s') :
    ∃ c e, s'.calls = s.calls ++ [c] ∧ (s.clientOp c).IsEdge m e ∧
      Kernel.Related env 3 s'.client e.target := by
  unfold bpfCall at hnext
  dsimp only at hnext
  split at hnext
  · cases hnext
  · rename_i hfailure
    obtain rfl := Outcome.next.inj hnext
    have hstep := client_step hok harg clobber (Bool.eq_false_iff.mpr hfailure)
    obtain ⟨e, hedge, hrelated⟩ := h.accepted (inRange_clientOp hok harg) hstep
    exact ⟨s.gateCall op, e, rfl, hedge, hrelated⟩

/-- A call that is rejected, with the teardown. -/
theorem drives_rejected {clobber : Nat → Capability} {c : GateCall} {g : Running}
    (hok : GateOk k env prog s) (harg : ArgumentOk k prog s op)
    (h : Kernel.Related env 3 s.client m) (hrejected : bpfCall env clobber s op = .rejected c g)
    (result : Nat) : g = s.g.fail c.pc ∧ (g.teardown result).2 = 0 ∧
    ((∃ e, (s.clientOp c).IsEdge m e ∧
        (e.target.terminal = .staleRead ∨ e.target.terminal = .staleRelease) ∧
        Agrees env (Client.teardown ⟨g, s.client.holders⟩ result) e.target) ∨
      c.operation = opAcquire ∧ 1 < c.argument.address ∧
        ∀ reason, Agrees env (Client.teardown ⟨g, s.client.holders⟩ result) (m.terminate reason)) := by
  unfold bpfCall at hrejected
  dsimp only at hrejected
  split at hrejected
  · rename_i hfailure
    obtain ⟨rfl, rfl⟩ := Outcome.rejected.inj hrejected
    obtain ⟨hrejects, hg, _⟩ :=
      result_of_isFailure hok (call_step env s.g (s.gateCall op)) hfailure
    obtain ⟨hreturned, hagrees⟩ := h.teardown_fail (s.gateCall op).pc result
    rw [hg]
    refine ⟨rfl, hreturned, ?_⟩
    rcases rejected_edge hok harg h (rejection_of_rejects hok harg hrejects) with
      ⟨e, reason, hedge, hreason, htarget⟩ | ⟨rfl, haddr⟩
    · refine .inl ⟨e, hedge, ?_, by rw [htarget]; exact hagrees reason⟩
      rw [htarget]
      exact hreason
    · exact .inr ⟨rfl, haddr, hagrees⟩
  · cases hrejected

theorem driven_drives (env : Env) {a : Admission} (h : admitProgram k prog = .ok a) :
    Drives k env prog (Driven k env prog a) := by
  have hdone := admit_done h
  have hinstruction : ∀ s, Sound k env prog (a.flow s.pc) s → ∃ i es, prog[s.pc]? = some i ∧
      Transfer k prog.length s.pc i (a.flow s.pc) es ∧ ∀ x ∈ es, x.2 ≤ a.flow x.1 := by
    intro s hsound
    obtain ⟨es, ⟨_, i, hi, ht⟩, hle⟩ := hdone.pass.solution Flow.le_join_left Flow.le_join_right
      (Nat.zero_le s.pc) (hsound.inside hdone)
    exact ⟨i, es, hi, ht, hle⟩
  refine {
    agrees := fun s m hd => agrees_of_core hd.2.ok hd.2.wellFormed hd.2.core
    reachable := fun s m hd => ⟨hd.2.reachable, hd.2.core.active⟩
    next := ?_
    exit := ?_
    rejected := ?_ }
  · rintro s m clobber s' ⟨hsound, hrelated⟩ hnext
    obtain ⟨i, es, hi, ht, hle⟩ := hinstruction s hsound
    have hok := step_ok hsound hi ht hdone.sites_le clobber
    have hsound' : Sound k env prog (a.flow s'.pc) s' := by
      rw [hnext] at hok
      cases hok with
      | next _ x hx hpc hsound' => exact hpc ▸ hsound'.mono (hle x hx)
    by_cases hcode : i.code = .jmpCall
    · obtain ⟨op, harg, hcall⟩ := hsound.next_call hi hcode ht hdone.sites_le clobber
      rw [hcall] at hnext
      obtain ⟨c, e, hcalls, hedge, hrelated'⟩ := drives_call hsound.gate harg hrelated hnext
      exact .inr ⟨c, e, hcalls, hedge, hsound', hrelated'⟩
    · obtain ⟨hg, hissued, hcalls⟩ := bpfStep_same hi hcode hnext
      refine .inl ⟨hg, hcalls, hsound', ?_⟩
      rw [client_congr hg hissued]
      exact hrelated
  · rintro s m clobber v result ⟨hsound, hrelated⟩ hexit
    have htorn := tornDown hrelated.ok.inv hrelated.ok.accounted result
    refine ⟨?_, Model.finishEdge m, Model.mem_transitions.mpr ⟨hrelated.core.active, .finish⟩, rfl,
      rfl, agrees_teardown hrelated.ok hrelated.wellFormed hrelated.core hrelated.ok.inv
        hrelated.ok.accounted rfl rfl rfl rfl rfl result .ret⟩
    refine htorn.returned.trans ?_
    rw [hrelated.ok.entered, hrelated.ok.failed]
    rfl
  · rintro s m clobber c g result ⟨hsound, hrelated⟩ hrejected
    obtain ⟨i, es, hi, ht, _⟩ := hinstruction s hsound
    have hok := step_ok hsound hi ht hdone.sites_le clobber
    have hcode : i.code = .jmpCall := by
      rw [hrejected] at hok
      cases hok with
      | rejected _ hcode => exact hcode
    obtain ⟨op, harg, hcall⟩ := hsound.next_call hi hcode ht hdone.sites_le clobber
    rw [hcall] at hrejected
    exact drives_rejected hsound.gate harg hrelated hrejected result

theorem driven_start {a : Admission} (h : admitProgram k prog = .ok a) (hs : Begins env s) :
    Driven k env prog a s (.initial 3 0) :=
  ⟨sound_of_run h hs.starts .refl, hs.related⟩

/-- Whole runs. -/
theorem Drives.run {R : BpfState → Model.State → Prop} (hR : Drives k env prog R) (hm : R s m)
    (hrun : Relation.ReflTransGen (Step k env prog) s s') : ∃ m', R s' m' := by
  induction hrun with
  | refl => exact ⟨m, hm⟩
  | @tail s₁ s₂ _ hstep ih =>
    obtain ⟨m₁, hm₁⟩ := ih
    obtain ⟨clobber, hnext⟩ := hstep
    rcases hR.next s₁ m₁ clobber s₂ hm₁ hnext with ⟨_, _, hsame⟩ | ⟨_, e, _, _, hedge⟩
    · exact ⟨m₁, hsame⟩
    · exact ⟨e.target, hedge⟩

/-- The runs of an admitted program are histories of the ownership model. -/
theorem program_drives_model (k : Kfuncs) (env : Env) (prog : List BpfInsn) (a : Admission)
    (h : admitProgram k prog = .ok a) :
    ∃ R : BpfState → Model.State → Prop,
      (∀ s, Begins env s → R s (.initial 3 0)) ∧ Drives k env prog R :=
  ⟨Driven k env prog a, fun _ hs => driven_start h hs, driven_drives env h⟩

/-- The sample program, on registers that hold what an earlier program has left. -/
theorem program_drives_model_stale : ∃ R : BpfState → Model.State → Prop,
    R staleStart (.initial 3 0) ∧ Drives immKfuncs flatEnv acquireRelease R := by
  obtain ⟨a, haccepted⟩ := acquireRelease_admitted
  obtain ⟨R, hstart, hdrives⟩ :=
    program_drives_model immKfuncs flatEnv acquireRelease a haccepted
  refine ⟨R, hstart staleStart ⟨staleStart_starts, ?_, rfl, ⟨fun i hi => ?_, by decide⟩⟩, hdrives⟩
  · exact Invocation.Accounted.zeroed 7 8192
  · match i, hi with
    | 0, _ => decide
    | 1, _ => decide

end Cbpf.Jit
