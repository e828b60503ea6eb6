import Cbpf.Kernel.AccessDecision
import Cbpf.Kernel.Teardown
import Cbpf.Model.EdgeCheck

/-!
# The kernel gate simulates the ownership model (`theory/kernel-ownership.md`)

A client keeps capabilities in a file of holders, copies them between holders and passes them to the
gate. The kernel has aggregate counters and capability tags where the model has one effect counter
for each identity and tokens for aliases; `Agrees` is the documented correspondence.
-/

namespace Cbpf.Kernel

open Cheri

/-- The holders of a client and what it works on. -/
structure Client where
  g : Running
  holders : List Capability

/-- A copy between holders or a gate call on what a holder contains; an acquisition passes a scalar
and stores its result. -/
inductive ClientOp where
  | copy (dst src : Nat)
  | acquire (dst arg pc : Nat)
  | read (src pc : Nat)
  | release (src pc : Nat)

/-- The operands of an operation name holders. -/
def ClientOp.inRange (size : Nat) : ClientOp → Prop
  | .copy dst src => dst < size ∧ src < size
  | .acquire dst _ _ => dst < size
  | .read src _ => src < size
  | .release src _ => src < size

namespace Client

/-- `holders[i]`. -/
def holder (k : Client) (i : Nat) : Capability := k.holders.getD i .null

/-- One operation, and whether it was accepted. -/
def step (env : Env) (k : Client) (op : ClientOp) : Client × Bool :=
  match op with
  | .copy dst src => (⟨k.g, k.holders.set dst (k.holder src)⟩, true)
  | .acquire dst arg pc =>
    let (g, result) := k.g.call env ⟨.ofInt arg, 1, pc⟩
    if result = cbpfFailure then (⟨g, k.holders⟩, false)
    else (⟨g, k.holders.set dst result⟩, true)
  | .read src pc =>
    let (g, result) := k.g.call env ⟨k.holder src, 2, pc⟩
    (⟨g, k.holders⟩, result != cbpfFailure)
  | .release src pc =>
    let (g, result) := k.g.call env ⟨k.holder src, 3, pc⟩
    (⟨g, k.holders⟩, result != cbpfFailure)

/-- The client after the wrapper's teardown. -/
def teardown (k : Client) (result : Nat) : Client := ⟨(k.g.teardown result).1, k.holders⟩

/-- An entered invocation with `size` empty holders and no invocation elsewhere. -/
def start (prog cellsAddr size : Nat) : Client where
  g := Running.start 1 prog cellsAddr
  holders := List.replicate size .null

/-- The token of a capability: 0, or one more than the index of the cell it is the view of. -/
def tokenOf (env : Env) (s : Invocation) (c : Capability) : Int :=
  if c = s.viewFor env 0 then 1 else if c = s.viewFor env 1 then 2 else 0

end Client

/-- The state correspondence of `theory/kernel-ownership.md`. -/
structure Agrees (env : Env) (k : Client) (m : Model.State) : Prop where
  n : m.live.length = k.g.s.acquired
  live : ∀ i, m.liveAt i = (k.g.s.cellAt i).tag
  explicit : m.explicit.sum = (k.g.s.released : Int) - k.g.s.cleanup
  cleanup : m.cleanup.sum = k.g.s.cleanup
  rc : m.refcount = k.g.object.refs
  aliases : m.registers = k.holders.map (Client.tokenOf env k.g.s) ∧ m.spills = []

/-- The kind and operands of the edge an operation stands for: the acquire argument has the opposite
polarity of the host's, and one above 1 has no counterpart. -/
def ClientOp.label : ClientOp → Option (Model.Kind × List Nat)
  | .copy dst src => some (.copy, [dst, src])
  | .acquire dst arg _ =>
    if arg = 0 then some (.acquire, [dst]) else if arg = 1 then some (.acquireNull, [dst]) else none
  | .read src _ => some (.read, [src])
  | .release src _ => some (.release, [src])

/-- `e` is the `transitions` edge of the kind and operands of `op`, and the only one. -/
structure ClientOp.IsEdge (m : Model.State) (op : ClientOp) (e : Model.Edge) : Prop where
  mem : e ∈ Model.transitions m 2 false
  label : op.label = some (e.kind, e.args)
  unique : ∀ e' ∈ Model.transitions m 2 false, op.label = some (e'.kind, e'.args) → e' = e

theorem isEdge_of_yields {m : Model.State} {op : ClientOp} {e : Model.Edge}
    (ha : m.terminal = .active) (h : Model.Yields m 2 false e)
    (hl : op.label = some (e.kind, e.args)) : op.IsEdge m e where
  mem := Model.mem_transitions.mpr ⟨ha, h⟩
  label := hl
  unique := by
    intro e' he' hl'
    have hlabel := Option.some.inj (hl'.symm.trans hl)
    exact h.eq_of_label (Model.mem_transitions.mp he').2 hlabel

/-- A simulation of the clients with `size` holders by the model with `size` registers, no spill slot
and capacity 2. -/
structure IsSimulation (env : Env) (size : Nat) (R : Client → Model.State → Prop) : Prop where
  agrees : ∀ k m, R k m → Agrees env k m
  reachable : ∀ k m, R k m → Model.Reachable size 0 2 false m ∧ m.terminal = .active
  /-- an accepted operation is one edge -/
  accepted : ∀ k m op k', R k m → op.inRange size → k.step env op = (k', true) →
    ∃ e, op.IsEdge m e ∧ R k' e.target
  /-- a rejected operation with the teardown is the terminal edge of the operation; for an acquire
  argument above 1, which the model does not have, it is `terminate` -/
  rejected : ∀ k m op k' result, R k m → op.inRange size → k.step env op = (k', false) →
    (k'.g.teardown result).2 = 0 ∧
    ((∃ e, op.IsEdge m e ∧ e.target.terminal ≠ .active ∧ Agrees env (k'.teardown result) e.target) ∨
      (∃ dst arg pc, op = .acquire dst arg pc ∧ 1 < arg) ∧
        ∀ reason, Agrees env (k'.teardown result) (m.terminate reason))
  /-- a normal return with the teardown is `finish` -/
  finished : ∀ k m result, R k m → (k.g.teardown result).2 = result ∧
    ∃ e ∈ Model.transitions m 2 false, e.kind = .finish ∧ e.target.terminal = .ret ∧
      Agrees env (k.teardown result) e.target

/-- Both capabilities of every acquisition are constructible. -/
structure Exact (env : Env) (s : Invocation) : Prop where
  view : ∀ i < 2, (s.viewFor env i).tag = true
  object : (objectCap env).tag = true

/-- The kernel side between accepted operations of a single invocation. -/
structure Client.Ok (env : Env) (k : Client) : Prop where
  exact : Exact env k.g.s
  inv : k.g.s.Inv env
  accounted : k.g.s.Accounted
  entered : k.g.s.entered = true
  failed : k.g.s.failed = false
  value : k.g.object.value = 42
  refs : k.g.object.refs = 1 + (k.g.s.tagged : Int)
  cleanup : k.g.s.cleanup = 0
  holders : ∀ c ∈ k.holders, c = .null ∨ ∃ i < k.g.s.acquired, c = k.g.s.viewFor env i

/-- What an accepted operation has to establish; the sums and the count follow. -/
structure Core (env : Env) (k : Client) (m : Model.State) : Prop where
  n : m.live.length = k.g.s.acquired
  live : ∀ i, m.liveAt i = (k.g.s.cellAt i).tag
  aliases : m.registers = k.holders.map (Client.tokenOf env k.g.s)
  spills : m.spills = []
  active : m.terminal = .active

section Tokens

variable {env : Env} {s : Invocation}

theorem tokenOf_null (h : Exact env s) : Client.tokenOf env s .null = 0 := by
  have hne : ∀ i < 2, Capability.null ≠ s.viewFor env i := fun i hi heq => by
    have := h.view i hi
    rw [← heq] at this
    cases this
  rw [Client.tokenOf, if_neg (hne 0 (by omega)), if_neg (hne 1 (by omega))]

theorem tokenOf_view (h : Exact env s) {i : Nat} (hi : i < 2) :
    Client.tokenOf env s (s.viewFor env i) = (i : Int) + 1 := by
  rcases Nat.lt_succ_iff_lt_or_eq.mp hi with hlt | rfl
  · obtain rfl : i = 0 := by omega
    rw [Client.tokenOf, if_pos rfl]
    rfl
  · have hne : s.viewFor env 1 ≠ s.viewFor env 0 := fun heq => by
      have := viewFor_inj (h.view 1 (by omega)) heq
      omega
    rw [Client.tokenOf, if_neg hne, if_pos rfl]
    rfl

theorem index_succ (i : Nat) : Model.State.index ((i : Int) + 1) = i := by
  unfold Model.State.index
  omega

end Tokens

section Relation

variable {env : Env} {k : Client} {m : Model.State}

/-- Tagged cells are counted like live acquisitions. -/
theorem count_live (hok : k.Ok env) (h : Core env k m) :
    m.live.count true = k.g.s.tagged := by
  have hcells : m.live = (k.g.s.cells.map Capability.tag).take k.g.s.acquired := by
    refine List.ext_getElem ?_ fun i hi hi' => ?_
    · rw [List.length_take, List.length_map, hok.inv.cells_length, h.n]
      have := hok.inv.acquired_le
      omega
    · have hlive := h.live i
      rw [Model.State.liveAt, List.getD_eq_getElem _ _ hi, Invocation.cellAt,
        List.getD_eq_getElem _ _ (by
          simp only [List.length_take, List.length_map] at hi'
          omega)] at hlive
      simpa using hlive
  have hrest : ((k.g.s.cells.map Capability.tag).drop k.g.s.acquired).count true = 0 := by
    rw [List.count_eq_zero]
    intro hmem
    obtain ⟨i, hi, htrue⟩ := List.mem_iff_getElem.mp hmem
    rw [List.getElem_drop, List.getElem_map] at htrue
    have hfresh := hok.inv.fresh (k.g.s.acquired + i) (Nat.le_add_right _ _)
    simp only [List.length_drop, List.length_map] at hi
    rw [Invocation.cellAt, List.getD_eq_getElem _ _ (by omega), htrue] at hfresh
    cases hfresh
  have hall : (k.g.s.cells.map Capability.tag).count true = k.g.s.tagged := by
    rw [Invocation.tagged, List.count, List.countP_map]
    refine List.countP_congr fun c _ => ?_
    simp
  rw [hcells, ← hall, ← List.take_append_drop k.g.s.acquired (k.g.s.cells.map Capability.tag),
    List.count_append, hrest]
  simp

/-- Between operations the aggregate counters agree because both sides are balanced. -/
theorem agrees_of_core (hok : k.Ok env) (hwf : Model.WellFormed m 2) (h : Core env k m) :
    Agrees env k m := by
  have hcount := count_live hok h
  have hclean : m.cleanup.sum = 0 := List.sum_eq_zero (hwf.active_clean h.active)
  have hacc := hwf.accounting
  have hrefs := hwf.refs
  have hkrefs := hok.refs
  have hbalance := hok.inv.balance
  have hn := h.n
  have hcleanup := hok.cleanup
  exact {
    n := hn
    live := h.live
    explicit := by omega
    cleanup := by omega
    rc := by omega
    aliases := ⟨h.aliases, h.spills⟩ }

theorem sum_zipWith_terminate (cleanup : List Int) (live : List Bool)
    (h : cleanup.length = live.length) :
    (List.zipWith (fun n l => n + ((l : Bool).toNat : Int)) cleanup live).sum =
      cleanup.sum + (live.count true : Int) := by
  induction cleanup generalizing live with
  | nil =>
    obtain rfl := List.eq_nil_of_length_eq_zero h.symm
    rfl
  | cons n cleanup ih =>
    obtain ⟨b, live, rfl⟩ := List.exists_cons_of_length_eq_add_one h.symm
    have htail := ih live (by simpa using h)
    cases b <;> simp [htail] <;> omega

/-- The wrapper's teardown is `terminate`, whether the last call failed or not. -/
theorem agrees_teardown (hok : k.Ok env) (hwf : Model.WellFormed m 2) (h : Core env k m)
    {g : Running} (hinv : g.s.Inv env) (hacc : g.s.Accounted) (haddr : g.s.cellsAddr = k.g.s.cellsAddr)
    (hcells : g.s.cells = k.g.s.cells) (hacquired : g.s.acquired = k.g.s.acquired)
    (hobject : g.object = k.g.object) (hcleanup : g.s.cleanup = k.g.s.cleanup)
    (result : Nat) (reason : Model.Terminal) :
    Agrees env (Client.teardown ⟨g, k.holders⟩ result) (m.terminate reason) := by
  have htorn := tornDown hinv hacc result
  have hagrees := agrees_of_core hok hwf h
  have hcount := count_live hok h
  have htagged : g.s.tagged = k.g.s.tagged := by rw [Invocation.tagged, hcells]; rfl
  have hview : ∀ i, (g.teardown result).1.s.viewFor env i = k.g.s.viewFor env i := fun i => by
    rw [Invocation.viewFor, Invocation.cellAddr, htorn.addr, haddr]
    rfl
  have hkbalance := hok.inv.balance
  have hsum := sum_zipWith_terminate m.cleanup m.live hwf.cleanup_length
  have hexplicit := hagrees.explicit
  have hclean := hagrees.cleanup
  have hrc := hagrees.rc
  have hacq := htorn.acquired
  have hbal := htorn.balanced
  have hcl := htorn.cleanup
  have hrefs := htorn.refs
  have hkclean := hok.cleanup
  refine {
    n := ?_
    live := fun i => ?_
    explicit := ?_
    cleanup := ?_
    rc := ?_
    aliases := ⟨?_, h.spills⟩ }
  · rw [Model.length_terminate, h.n, ← hacquired, ← hacq]
    rfl
  · rw [Model.liveAt_terminate]
    change false = ((g.teardown result).1.s.cellAt i).tag
    rw [Invocation.cellAt, htorn.scrubbed.1]
    rcases i with _ | _ | i
    · rfl
    · rfl
    · rfl
  · change m.explicit.sum = ((g.teardown result).1.s.released : Int) - (g.teardown result).1.s.cleanup
    omega
  · change _ = ((g.teardown result).1.s.cleanup : Int)
    change (List.zipWith _ m.cleanup m.live).sum = _
    rw [hsum]
    omega
  · change m.refcount - (m.live.count true : Int) = (g.teardown result).1.object.refs
    rw [hobject] at hrefs
    omega
  · rw [Model.registers_terminate, h.aliases]
    refine List.map_congr_left fun c _ => ?_
    change _ = Client.tokenOf env (g.teardown result).1.s c
    rw [Client.tokenOf, Client.tokenOf, hview, hview]

/-- An accepted gate call keeps the kernel side. -/
theorem Client.Ok.call (hok : k.Ok env) {c : GateCall} {g' : Running} {result : Capability}
    (hs : GateStep env k.g c g' result) (hne : result ≠ cbpfFailure) {holders : List Capability}
    (hholders : ∀ v ∈ holders, v = .null ∨ ∃ i < g'.s.acquired, v = k.g.s.viewFor env i) :
    Client.Ok env ⟨g', holders⟩ := by
  obtain ⟨_, haddr, hentered, hcleanup, hvalue⟩ := hs.frame
  have hview : ∀ i, g'.s.viewFor env i = k.g.s.viewFor env i := fun i => by
    rw [Invocation.viewFor, Invocation.cellAddr, haddr]
    rfl
  have hrefs := refs_step hok.inv hs
  have hkrefs := hok.refs
  exact {
    exact := ⟨fun i hi => by
      rw [hview]
      exact hok.exact.view i hi, hok.exact.object⟩
    inv := hok.inv.step hs
    accounted := hok.accounted.step hok.inv hs
    entered := hentered.trans hok.entered
    failed := by
      cases hs with
      | reject => exact absurd rfl hne
      | _ => exact hok.failed
    value := hvalue.trans hok.value
    refs := by
      change g'.object.refs = 1 + (g'.s.tagged : Int)
      omega
    cleanup := hcleanup.trans hok.cleanup
    holders := fun v hv => by
      rcases hholders v hv with h | ⟨i, hi, h⟩
      · exact .inl h
      · exact .inr ⟨i, hi, h.trans (hview i).symm⟩ }

theorem holder_mem {i : Nat} (hi : i < k.holders.length) : k.holder i ∈ k.holders := by
  rw [Client.holder, List.getD_eq_getElem _ _ hi]
  exact List.getElem_mem hi

theorem reg_core (h : Core env k m) {i : Nat} (hi : i < k.holders.length) :
    m.reg i = Client.tokenOf env k.g.s (k.holder i) := by
  rw [Model.State.reg, h.aliases, List.getD_eq_getElem _ _ (by simpa using hi), List.getElem_map,
    Client.holder, List.getD_eq_getElem _ _ hi]

theorem tokenOf_congr {s s' : Invocation} (haddr : s'.cellsAddr = s.cellsAddr) (c : Capability) :
    Client.tokenOf env s' c = Client.tokenOf env s c := by
  have hview : ∀ i, s'.viewFor env i = s.viewFor env i := fun i => by
    rw [Invocation.viewFor, Invocation.cellAddr, haddr]
    rfl
  rw [Client.tokenOf, Client.tokenOf, hview, hview]

/-- A holder's token is valid in the model exactly when its private cell is tagged. -/
theorem valid_core (hok : k.Ok env) (h : Core env k m) {i : Nat} (hi : i < k.holders.length) :
    (k.holder i = .null ∧ m.reg i = 0) ∨
    ∃ j < k.g.s.acquired, k.holder i = k.g.s.viewAt j ∧ m.reg i = (j : Int) + 1 ∧
      m.valid (m.reg i) = (k.g.s.cellAt j).tag := by
  rcases hok.holders _ (holder_mem hi) with hnull | ⟨j, hj, hview⟩
  · exact .inl ⟨hnull, by rw [reg_core h hi, hnull, tokenOf_null hok.exact]⟩
  · have hle := hok.inv.acquired_le
    have hreg : m.reg i = (j : Int) + 1 := by
      rw [reg_core h hi, hview, tokenOf_view hok.exact (by omega)]
    refine .inr ⟨j, hj, hview.trans (hok.inv.views j hj).1.symm, hreg, ?_⟩
    have hne : ((j : Int) + 1 != 0) = true := by
      rw [bne_iff_ne]
      omega
    rw [hreg, Model.State.valid, index_succ, h.live, hne, Bool.true_and]

end Relation

/-! ### Accepted and rejected operations -/

section Operations

variable {env : Env} {k k' : Client} {m : Model.State} {op : ClientOp}

/-- The alias part of a step that stores a capability in a holder. -/
theorem aliases_set (h : Core env k m) {g' : Running} (haddr : g'.s.cellsAddr = k.g.s.cellsAddr)
    {dst : Nat} (hd : dst < k.holders.length) (v : Capability) :
    Model.updated m.registers dst (Client.tokenOf env k.g.s v) =
      (k.holders.set dst v).map (Client.tokenOf env g'.s) := by
  have hcongr : Client.tokenOf env g'.s = Client.tokenOf env k.g.s :=
    funext fun c => tokenOf_congr haddr c
  rw [Model.updated_eq_set _ (by rw [h.aliases]; simpa using hd), h.aliases, hcongr, List.map_set]

theorem holders_set (hok : k.Ok env) {g' : Running} (hle : k.g.s.acquired ≤ g'.s.acquired)
    {dst : Nat} {v : Capability} (hv : v = .null ∨ ∃ i < g'.s.acquired, v = k.g.s.viewFor env i) :
    ∀ c ∈ k.holders.set dst v, c = .null ∨ ∃ i < g'.s.acquired, c = k.g.s.viewFor env i := by
  intro c hc
  rcases List.mem_or_eq_of_mem_set hc with hc | rfl
  · rcases hok.holders c hc with hnull | ⟨i, hi, hview⟩
    · exact .inl hnull
    · exact .inr ⟨i, Nat.lt_of_lt_of_le hi hle, hview⟩
  · exact hv

/-- A copy between holders is the model's copy. -/
theorem copy_accepted (hok : k.Ok env) (h : Core env k m) {dst src : Nat}
    (hd : dst < k.holders.length) (hsrc : src < k.holders.length) :
    Client.Ok env ⟨k.g, k.holders.set dst (k.holder src)⟩ ∧
    ∃ e, (ClientOp.copy dst src).IsEdge m e ∧
      Core env ⟨k.g, k.holders.set dst (k.holder src)⟩ e.target := by
  have hlen : m.registers.length = k.holders.length := by rw [h.aliases, List.length_map]
  refine ⟨{ hok with holders := holders_set hok (Nat.le_refl _) (hok.holders _ (holder_mem hsrc)) },
    Model.copyEdge m dst src, isEdge_of_yields h.active (.copy dst src (hlen ▸ hd) (hlen ▸ hsrc)) rfl,
    { n := h.n, live := h.live, aliases := ?_, spills := h.spills, active := h.active }⟩
  change Model.updated m.registers dst (m.reg src) = _
  rw [reg_core h hsrc]
  exact aliases_set h rfl hd _

/-- An accepted acquisition is the model's, with the opposite polarity of the argument. -/
theorem acquire_accepted (hok : k.Ok env) (h : Core env k m) {dst arg pc : Nat}
    (hd : dst < k.holders.length) {g' : Running} {result : Capability}
    (hs : GateStep env k.g ⟨.ofInt arg, 1, pc⟩ g' result) (hne : result ≠ cbpfFailure) :
    Client.Ok env ⟨g', k.holders.set dst result⟩ ∧
    ∃ e, (ClientOp.acquire dst arg pc).IsEdge m e ∧
      Core env ⟨g', k.holders.set dst result⟩ e.target := by
  have hlen : m.registers.length = k.holders.length := by rw [h.aliases, List.length_map]
  have hstep := hs
  cases hs with
  | reject => exact absurd rfl hne
  | read _ _ _ hop => exact absurd hop (by simp)
  | release _ _ _ hop => exact absurd hop (by simp)
  | null _ _ _ _ hone =>
    obtain rfl : arg = 1 := hone
    refine ⟨hok.call hstep hne (holders_set hok (Nat.le_refl _) (.inl rfl)),
      Model.acquireNullEdge m dst, isEdge_of_yields h.active (.acquireNull dst (hlen ▸ hd)) rfl,
      { n := h.n, live := h.live, aliases := ?_, spills := h.spills, active := h.active }⟩
    change Model.updated m.registers dst 0 = _
    rw [← tokenOf_null hok.exact]
    exact aliases_set h rfl hd _
  | acquire _ _ _ _ hzero hfull hview hobject =>
    obtain rfl : arg = 0 := hzero
    have hlt : k.g.s.acquired < 2 := Nat.lt_of_le_of_ne hok.inv.acquired_le hfull
    have hinc : u32Inc k.g.s.acquired = k.g.s.acquired + 1 := u32Inc_of_lt (by omega)
    have he : Model.acquireEdge m 2 dst = ⟨.acquire, [dst], .success, m.acquire dst⟩ := by
      simp [Model.acquireEdge, h.n, hfull]
    refine ⟨hok.call hstep hne (holders_set hok ?_ (.inr ⟨k.g.s.acquired, ?_, rfl⟩)),
      Model.acquireEdge m 2 dst, isEdge_of_yields h.active (.acquire dst (hlen ▸ hd)) ?_, ?_⟩
    · change k.g.s.acquired ≤ u32Inc k.g.s.acquired
      omega
    · change k.g.s.acquired < u32Inc k.g.s.acquired
      omega
    · rw [he]
      rfl
    · rw [he]
      refine {
        n := ?_
        live := fun i => ?_
        aliases := ?_
        spills := h.spills
        active := h.active }
      · change (m.live ++ [true]).length = u32Inc k.g.s.acquired
        rw [List.length_append, h.n, hinc]
        rfl
      · have hcell := cellAt_bind k.g k.g.s.acquired i (objectCap env)
          (k.g.s.viewFor env k.g.s.acquired) (hok.inv.cells_length ▸ hlt)
        rw [Model.liveAt_acquire, h.n]
        change _ = ((k.g.bind k.g.s.acquired (objectCap env)
          (k.g.s.viewFor env k.g.s.acquired)).s.cellAt i).tag
        rw [hcell]
        split
        · exact hobject.symm
        · exact h.live i
      · change Model.updated m.registers dst ((m.live.length : Int) + 1) = _
        rw [h.n, ← tokenOf_view hok.exact hlt]
        exact aliases_set h rfl hd _

/-- An accepted read is the model's. -/
theorem read_accepted (hok : k.Ok env) (h : Core env k m) {src pc : Nat}
    (hsrc : src < k.holders.length) {g' : Running} {result : Capability}
    (hs : GateStep env k.g ⟨k.holder src, 2, pc⟩ g' result) (hne : result ≠ cbpfFailure) :
    Client.Ok env ⟨g', k.holders⟩ ∧
    ∃ e, (ClientOp.read src pc).IsEdge m e ∧ Core env ⟨g', k.holders⟩ e.target := by
  have hlen : m.registers.length = k.holders.length := by rw [h.aliases, List.length_map]
  have hstep := hs
  cases hs with
  | reject => exact absurd rfl hne
  | null _ _ hop => exact absurd hop (by simp)
  | acquire _ _ hop => exact absurd hop (by simp)
  | release _ _ _ hop => exact absurd hop (by simp)
  | read i _ _ _ hi hview htag =>
    have hvalid : m.valid (m.reg src) = true := by
      rcases valid_core hok h hsrc with ⟨hnull, _⟩ | ⟨j, hj, hviewj, _, hv⟩
      · rw [show k.holder src = k.g.s.viewAt i from hview, (hok.inv.views i hi).1] at hnull
        have htag' := (hok.inv.views i hi).2
        rw [hnull] at htag'
        cases htag'
      · obtain rfl := hok.inv.view_unique hi hj (hview.symm.trans hviewj)
        rw [hv, htag]
    have he : Model.readEdge m src = ⟨.read, [src], .fortyTwo, m⟩ := by
      simp [Model.readEdge, hvalid]
    refine ⟨hok.call hstep hne hok.holders, Model.readEdge m src,
      isEdge_of_yields h.active (.read src (hlen ▸ hsrc)) ?_, ?_⟩
    · rw [he]
      rfl
    · rw [he]
      exact ⟨h.n, h.live, h.aliases, h.spills, h.active⟩

/-- An accepted release is the model's. -/
theorem release_accepted (hok : k.Ok env) (h : Core env k m) {src pc : Nat}
    (hsrc : src < k.holders.length) {g' : Running} {result : Capability}
    (hs : GateStep env k.g ⟨k.holder src, 3, pc⟩ g' result) (hne : result ≠ cbpfFailure) :
    Client.Ok env ⟨g', k.holders⟩ ∧
    ∃ e, (ClientOp.release src pc).IsEdge m e ∧ Core env ⟨g', k.holders⟩ e.target := by
  have hlen : m.registers.length = k.holders.length := by rw [h.aliases, List.length_map]
  have hstep := hs
  cases hs with
  | reject => exact absurd rfl hne
  | null _ _ hop => exact absurd hop (by simp)
  | acquire _ _ hop => exact absurd hop (by simp)
  | read _ _ _ hop => exact absurd hop (by simp)
  | release i _ _ _ hi hview htag =>
    obtain ⟨hreg, hvalid⟩ : m.reg src = (i : Int) + 1 ∧ m.valid (m.reg src) = true := by
      rcases valid_core hok h hsrc with ⟨hnull, _⟩ | ⟨j, hj, hviewj, hreg, hv⟩
      · rw [show k.holder src = k.g.s.viewAt i from hview, (hok.inv.views i hi).1] at hnull
        have htag' := (hok.inv.views i hi).2
        rw [hnull] at htag'
        cases htag'
      · obtain rfl := hok.inv.view_unique hi hj (hview.symm.trans hviewj)
        exact ⟨hreg, by rw [hv, htag]⟩
    have he : Model.releaseEdge m false src =
        ⟨.release, [src], .consumed, m.consume (m.victims false (m.reg src))⟩ := by
      simp [Model.releaseEdge, hvalid]
    refine ⟨hok.call hstep hne hok.holders, Model.releaseEdge m false src,
      isEdge_of_yields h.active (.release src (hlen ▸ hsrc)) ?_, ?_⟩
    · rw [he]
      rfl
    · rw [he]
      refine {
        n := ?_
        live := fun j => ?_
        aliases := h.aliases
        spills := h.spills
        active := h.active }
      · rw [Model.length_consume, h.n]
        rfl
      · change (m.consume _).liveAt j = _
        rw [Model.liveAt_consume, Model.victims_eq hvalid, hreg, index_succ, h.live]
        change _ = ((k.g.consume i pc false).s.cellAt j).tag
        rw [cellAt_consume]
        by_cases hj : j = i
        · simp [hj]
        · simp [hj]

/-- What a rejected operation leaves: its edge is terminal, or it asked for more than the model
has. -/
def RejectedAs (m : Model.State) (op : ClientOp) : Prop :=
  (∃ e reason, op.IsEdge m e ∧ reason ≠ .active ∧ e.target = m.terminate reason) ∨
  ∃ dst arg pc, op = .acquire dst arg pc ∧ 1 < arg

theorem acquire_full (h : Core env k m) {dst pc : Nat} (hd : dst < k.holders.length)
    (hfull : k.g.s.acquired = 2) : RejectedAs m (.acquire dst 0 pc) := by
  have hlen : m.registers.length = k.holders.length := by rw [h.aliases, List.length_map]
  have he : Model.acquireEdge m 2 dst =
      ⟨.acquire, [dst], .exhaustion, m.terminate .exhaustion⟩ := by
    simp [Model.acquireEdge, h.n, hfull]
  refine .inl ⟨_, .exhaustion, isEdge_of_yields h.active (.acquire dst (hlen ▸ hd)) ?_, by simp, ?_⟩
  · rw [he]
    rfl
  · rw [he]

theorem acquire_rejected (hok : k.Ok env) (h : Core env k m) {dst arg pc : Nat}
    (hd : dst < k.holders.length) (hr : Rejects env k.g ⟨.ofInt arg, 1, pc⟩) :
    RejectedAs m (.acquire dst arg pc) := by
  cases hr with
  | inactive hi => simp [hok.entered, hok.failed] at hi
  | argument _ hbad => exact .inr ⟨dst, arg, pc, rfl, hbad.resolve_left (by simp [ofInt_tag])⟩
  | full _ hzero hfull =>
    obtain rfl : arg = 0 := hzero
    exact acquire_full h hd hfull
  | inexact _ hzero hbad =>
    obtain rfl : arg = 0 := hzero
    by_cases hfull : k.g.s.acquired = 2
    · exact acquire_full h hd hfull
    · have hlt : k.g.s.acquired < 2 := Nat.lt_of_le_of_ne hok.inv.acquired_le hfull
      simp [hok.exact.view _ hlt, hok.exact.object] at hbad
  | operation hop => exact absurd rfl hop
  | unknown hop => simp at hop
  | stale _ hop => simp at hop

/-- A rejected read or release has a holder with token 0 or with a consumed token. -/
theorem invalid_of_rejects (hok : k.Ok env) (h : Core env k m) {src : Nat}
    (hsrc : src < k.holders.length) {c : GateCall} (hc : c.argument = k.holder src)
    (hop : c.operation = 2 ∨ c.operation = 3) (hr : Rejects env k.g c) :
    m.valid (m.reg src) = false := by
  rcases valid_core hok h hsrc with ⟨_, hreg⟩ | ⟨j, hj, hview, _, hv⟩
  · rw [hreg, Model.State.valid_zero]
  · rw [hv]
    cases hr with
    | inactive hi => simp [hok.entered, hok.failed] at hi
    | argument h1 => omega
    | full h1 => omega
    | inexact h1 => omega
    | operation _ h2 h3 => omega
    | unknown _ hnone => exact absurd (hc.trans hview) (hnone j hj)
    | stale i _ hi hequal _ hdead =>
      obtain rfl := hok.inv.view_unique hi hj (hequal.symm.trans (hc.trans hview))
      exact hdead

theorem read_rejected (hok : k.Ok env) (h : Core env k m) {src pc : Nat}
    (hsrc : src < k.holders.length) (hr : Rejects env k.g ⟨k.holder src, 2, pc⟩) :
    RejectedAs m (.read src pc) := by
  have hlen : m.registers.length = k.holders.length := by rw [h.aliases, List.length_map]
  have hvalid := invalid_of_rejects hok h hsrc rfl (.inl rfl) hr
  have he : Model.readEdge m src = ⟨.read, [src], Model.invalidReason (m.reg src),
      m.terminate (Model.readReason (m.reg src))⟩ := by simp [Model.readEdge, hvalid]
  refine .inl ⟨_, _, isEdge_of_yields h.active (.read src (hlen ▸ hsrc)) ?_,
    Model.readReason_ne_active (m.reg src), ?_⟩
  · rw [he]
    rfl
  · rw [he]

theorem release_rejected (hok : k.Ok env) (h : Core env k m) {src pc : Nat}
    (hsrc : src < k.holders.length) (hr : Rejects env k.g ⟨k.holder src, 3, pc⟩) :
    RejectedAs m (.release src pc) := by
  have hlen : m.registers.length = k.holders.length := by rw [h.aliases, List.length_map]
  have hvalid := invalid_of_rejects hok h hsrc rfl (.inr rfl) hr
  have he : Model.releaseEdge m false src = ⟨.release, [src], Model.invalidReason (m.reg src),
      m.terminate (Model.releaseReason (m.reg src))⟩ := by simp [Model.releaseEdge, hvalid]
  refine .inl ⟨_, _, isEdge_of_yields h.active (.release src (hlen ▸ hsrc)) ?_,
    Model.releaseReason_ne_active (m.reg src), ?_⟩
  · rw [he]
    rfl
  · rw [he]

end Operations

/-! ### The simulation -/

/-- The relation that is kept. -/
structure Related (env : Env) (size : Nat) (k : Client) (m : Model.State) : Prop where
  ok : k.Ok env
  size_eq : k.holders.length = size
  core : Core env k m
  reachable : Model.Reachable size 0 2 false m

namespace Related

variable {env : Env} {size : Nat} {k k' : Client} {m : Model.State} {op : ClientOp}

theorem start {prog cellsAddr : Nat} (h : Exact env (.zeroed prog cellsAddr)) :
    Related env size (Client.start prog cellsAddr size) (.initial size 0) where
  ok := {
    exact := ⟨h.view, h.object⟩
    inv := (Invocation.Inv.zeroed env prog cellsAddr).congr rfl rfl rfl rfl rfl rfl
    accounted := Invocation.Accounted.zeroed prog cellsAddr
    entered := rfl
    failed := rfl
    value := rfl
    refs := rfl
    cleanup := rfl
    holders := fun c hc => .inl (List.eq_of_mem_replicate hc) }
  size_eq := List.length_replicate
  core := {
    n := rfl
    live := fun i => by
      match i with
      | 0 => rfl
      | 1 => rfl
      | i + 2 => rfl
    aliases := by
      have hnull := tokenOf_null (s := (Client.start prog cellsAddr size).g.s)
        ⟨h.view, h.object⟩
      simp [Model.State.initial, Client.start, ← hnull]
    spills := rfl
    active := rfl }
  reachable := .refl

theorem wellFormed (h : Related env size k m) : Model.WellFormed m 2 :=
  Model.wellFormed_of_reachable h.reachable

/-- What the four kinds of operations establish, put together. -/
theorem next (h : Related env size k m) (hok : k'.Ok env)
    (hsize : k'.holders.length = k.holders.length)
    (he : ∃ e, op.IsEdge m e ∧ Core env k' e.target) :
    ∃ e, op.IsEdge m e ∧ Related env size k' e.target := by
  obtain ⟨e, hedge, hcore⟩ := he
  exact ⟨e, hedge, hok, hsize.trans h.size_eq, hcore, .tail h.reachable ⟨e, hedge.mem, rfl⟩⟩

theorem accepted (h : Related env size k m) (hr : op.inRange size)
    (hs : k.step env op = (k', true)) : ∃ e, op.IsEdge m e ∧ Related env size k' e.target := by
  have hlen := h.size_eq
  cases op with
  | copy dst src =>
    obtain ⟨rfl, _⟩ := Prod.mk.inj hs
    have hcopy := copy_accepted h.ok h.core (hlen ▸ hr.1) (hlen ▸ hr.2)
    exact h.next hcopy.1 List.length_set hcopy.2
  | acquire dst arg pc =>
    have hstep := call_step env k.g ⟨.ofInt arg, 1, pc⟩
    rw [Client.step] at hs
    dsimp only at hs
    split at hs
    · cases hs
    · rename_i hne
      obtain ⟨rfl, _⟩ := Prod.mk.inj hs
      have hacquire := acquire_accepted h.ok h.core (hlen ▸ hr) hstep hne
      exact h.next hacquire.1 List.length_set hacquire.2
  | read src pc =>
    have hstep := call_step env k.g ⟨k.holder src, 2, pc⟩
    obtain ⟨rfl, hne⟩ := Prod.mk.inj hs
    have hread := read_accepted h.ok h.core (hlen ▸ hr) hstep (bne_iff_ne.mp hne)
    exact h.next hread.1 rfl hread.2
  | release src pc =>
    have hstep := call_step env k.g ⟨k.holder src, 3, pc⟩
    obtain ⟨rfl, hne⟩ := Prod.mk.inj hs
    have hrelease := release_accepted h.ok h.core (hlen ▸ hr) hstep (bne_iff_ne.mp hne)
    exact h.next hrelease.1 rfl hrelease.2

/-- A rejected call only sets the failure flag and prints. -/
theorem rejects_of_failure (h : Related env size k m) {c : GateCall} {g' : Running}
    {result : Capability} (hs : GateStep env k.g c g' result) (hf : result = cbpfFailure) :
    Rejects env k.g c ∧ g' = k.g.fail c.pc := by
  cases hs with
  | reject hr => exact ⟨hr, rfl⟩
  | null => exact absurd hf null_ne_failure
  | acquire _ _ _ _ _ _ hview => exact absurd hf (ne_failure_of_tag hview)
  | read =>
    have hvalue : (k.g.object.value % 2 ^ 64).toNat = 42 := by rw [h.ok.value]; rfl
    rw [hvalue] at hf
    exact absurd hf fortyTwo_ne_failure
  | release => exact absurd hf null_ne_failure

theorem rejected (h : Related env size k m) (hr : op.inRange size)
    (hs : k.step env op = (k', false)) :
    RejectedAs m op ∧ ∃ pc, k' = ⟨k.g.fail pc, k.holders⟩ := by
  have hlen := h.size_eq
  cases op with
  | copy dst src => cases (Prod.mk.inj hs).2
  | acquire dst arg pc =>
    have hstep := call_step env k.g ⟨.ofInt arg, 1, pc⟩
    rw [Client.step] at hs
    dsimp only at hs
    split at hs
    · rename_i hf
      obtain ⟨rfl, _⟩ := Prod.mk.inj hs
      obtain ⟨hrej, hg⟩ := h.rejects_of_failure hstep hf
      exact ⟨acquire_rejected h.ok h.core (hlen ▸ hr) hrej, pc, by rw [hg]⟩
    · cases hs
  | read src pc =>
    have hstep := call_step env k.g ⟨k.holder src, 2, pc⟩
    have hk : (⟨(k.g.call env ⟨k.holder src, 2, pc⟩).1, k.holders⟩ : Client) = k' :=
      (Prod.mk.inj hs).1
    obtain ⟨hrej, hg⟩ := h.rejects_of_failure hstep (bne_eq_false_iff_eq.mp (Prod.mk.inj hs).2)
    exact ⟨read_rejected h.ok h.core (hlen ▸ hr) hrej, pc, hk.symm.trans (by rw [hg])⟩
  | release src pc =>
    have hstep := call_step env k.g ⟨k.holder src, 3, pc⟩
    have hk : (⟨(k.g.call env ⟨k.holder src, 3, pc⟩).1, k.holders⟩ : Client) = k' :=
      (Prod.mk.inj hs).1
    obtain ⟨hrej, hg⟩ := h.rejects_of_failure hstep (bne_eq_false_iff_eq.mp (Prod.mk.inj hs).2)
    exact ⟨release_rejected h.ok h.core (hlen ▸ hr) hrej, pc, hk.symm.trans (by rw [hg])⟩

/-- The teardown after a rejected call. -/
theorem teardown_fail (h : Related env size k m) (pc result : Nat) :
    ((k.g.fail pc).teardown result).2 = 0 ∧ ∀ reason,
      Agrees env (Client.teardown ⟨k.g.fail pc, k.holders⟩ result) (m.terminate reason) := by
  have hinv : (k.g.fail pc).s.Inv env := h.ok.inv.congr rfl rfl rfl rfl rfl rfl
  have hacc : (k.g.fail pc).s.Accounted := fun i => by
    rw [Running.fail, consumptions_trace]
    exact h.ok.accounted i
  have htorn := tornDown hinv hacc result
  refine ⟨?_, fun reason =>
    agrees_teardown h.ok h.wellFormed h.core hinv hacc rfl rfl rfl rfl rfl result reason⟩
  rw [htorn.returned]
  change (if k.g.s.entered && !true then result else 0) = 0
  rw [Bool.not_true, Bool.and_false]
  rfl

end Related

/-- The kernel gate simulates the ownership model: for every number of holders and every sequence of
copies and gate calls in a single invocation whose capabilities are constructible. -/
theorem kernel_simulates_model (env : Env) (prog cellsAddr size : Nat)
    (hexact : Exact env (.zeroed prog cellsAddr)) :
    ∃ R : Client → Model.State → Prop,
      R (Client.start prog cellsAddr size) (.initial size 0) ∧ IsSimulation env size R := by
  refine ⟨Related env size, .start hexact, {
    agrees := fun k m h => agrees_of_core h.ok h.wellFormed h.core
    reachable := fun k m h => ⟨h.reachable, h.core.active⟩
    accepted := fun k m op k' h hr hs => h.accepted hr hs
    rejected := ?_
    finished := ?_ }⟩
  · intro k m op k' result h hr hs
    obtain ⟨hrej, pc, rfl⟩ := h.rejected hr hs
    obtain ⟨hret, hagrees⟩ := h.teardown_fail pc result
    refine ⟨hret, ?_⟩
    rcases hrej with ⟨e, reason, hedge, hne, htarget⟩ | harg
    · exact .inl ⟨e, hedge, by rw [htarget]; exact hne, by rw [htarget]; exact hagrees reason⟩
    · exact .inr ⟨harg, hagrees⟩
  · intro k m result h
    have htorn := tornDown h.ok.inv h.ok.accounted result
    refine ⟨?_, Model.finishEdge m, Model.mem_transitions.mpr ⟨h.core.active, .finish⟩, rfl, rfl,
      agrees_teardown h.ok h.wellFormed h.core h.ok.inv h.ok.accounted rfl rfl rfl rfl rfl result
        .ret⟩
    rw [htorn.returned, h.ok.entered, h.ok.failed]
    rfl

theorem kernel_simulates_model_flat : ∃ R : Client → Model.State → Prop,
    R (Client.start 7 8192 3) (.initial 3 0) ∧ IsSimulation flatEnv 3 R := by
  refine kernel_simulates_model flatEnv 7 8192 3 ⟨fun i hi => ?_, by decide⟩
  match i, hi with
  | 0, _ => decide
  | 1, _ => decide

end Cbpf.Kernel
