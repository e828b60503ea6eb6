import Cbpf.Kernel.Runtime

/-!
# The outcomes of a gate call and the invariant of an invocation

`GateStep` lists what `cbpf_gate_impl` can do, with its guards; everything about sequences of calls
is derived from it. `Invocation.Inv` holds between gate calls of an invocation that has not been
torn down.
-/

namespace Cbpf.Kernel

open Cheri

/-- The arguments of a gate call. -/
structure GateCall where
  argument : Capability
  operation : Nat
  pc : Nat
  deriving DecidableEq, Repr

/-- `cbpf_gate_impl(c.argument, c.operation, c.pc)`. -/
def Running.call (g : Running) (env : Env) (c : GateCall) : Running × Capability :=
  g.gateImpl env c.argument c.operation c.pc

/-- Why a call is rejected, in the order of the checks. -/
inductive Rejects (env : Env) (g : Running) (c : GateCall) : Prop
  | inactive : g.s.entered = false ∨ g.s.failed = true → Rejects env g c
  | argument : c.operation = 1 → c.argument.tag = true ∨ 1 < c.argument.address → Rejects env g c
  | full : c.operation = 1 → c.argument.address = 0 → g.s.acquired = 2 → Rejects env g c
  | inexact : c.operation = 1 → c.argument.address = 0 →
      (g.s.viewFor env g.s.acquired).tag = false ∨ (objectCap env).tag = false → Rejects env g c
  | operation : c.operation ≠ 1 → c.operation ≠ 2 → c.operation ≠ 3 → Rejects env g c
  | unknown : c.operation = 2 ∨ c.operation = 3 →
      (∀ i < g.s.acquired, c.argument ≠ g.s.viewAt i) → Rejects env g c
  | stale (i : Nat) : c.operation = 2 ∨ c.operation = 3 → i < g.s.acquired →
      c.argument = g.s.viewAt i → (∀ j < i, c.argument ≠ g.s.viewAt j) →
      (g.s.cellAt i).tag = false → Rejects env g c

/-- The outcomes of a gate call. -/
inductive GateStep (env : Env) (g : Running) (c : GateCall) : Running → Capability → Prop
  | reject : Rejects env g c → GateStep env g c (g.fail c.pc) cbpfFailure
  | null : g.s.entered = true → g.s.failed = false → c.operation = 1 →
      c.argument.tag = false → c.argument.address = 1 →
      GateStep env g c (g.trace .null c.pc 0) .null
  | acquire : g.s.entered = true → g.s.failed = false → c.operation = 1 →
      c.argument.tag = false → c.argument.address = 0 → g.s.acquired ≠ 2 →
      (g.s.viewFor env g.s.acquired).tag = true → (objectCap env).tag = true →
      GateStep env g c
        (((g.bind g.s.acquired (objectCap env) (g.s.viewFor env g.s.acquired)).print
          (.bind c.pc (g.s.acquired + 1) (g.s.cellAddr g.s.acquired) env.objectAddr
            (g.s.viewFor env g.s.acquired))).trace .acquire c.pc (g.s.acquired + 1))
        (g.s.viewFor env g.s.acquired)
  | read (i : Nat) : g.s.entered = true → g.s.failed = false → c.operation = 2 →
      i < g.s.acquired → c.argument = g.s.viewAt i → (g.s.cellAt i).tag = true →
      GateStep env g c (g.countRead.trace .read c.pc (i + 1))
        (.ofInt (g.object.value % 2 ^ 64).toNat)
  | release (i : Nat) : g.s.entered = true → g.s.failed = false → c.operation = 3 →
      i < g.s.acquired → c.argument = g.s.viewAt i → (g.s.cellAt i).tag = true →
      GateStep env g c (g.consume i c.pc false) .null

/-- The search returns the first published view that equals the argument. -/
theorem findView_cases (g : Running) (view : Capability) :
    (g.findView view = g.s.acquired ∧ ∀ i < g.s.acquired, view ≠ g.s.viewAt i) ∨
    (g.findView view < g.s.acquired ∧ view = g.s.viewAt (g.findView view) ∧
      ∀ j < g.findView view, view ≠ g.s.viewAt j) := by
  unfold Running.findView
  cases hf : (List.range g.s.acquired).find? fun i => view == g.s.viewAt i with
  | none =>
    refine .inl ⟨rfl, fun i hi heq => ?_⟩
    have := List.find?_eq_none.mp hf i (List.mem_range.mpr hi)
    simp [heq] at this
  | some i =>
    obtain ⟨heq, hi, hfirst⟩ := List.find?_range_eq_some.mp hf
    refine .inr ⟨List.mem_range.mp hi, by simpa using heq, fun j hj hj' => ?_⟩
    have := hfirst j hj
    simp [hj'] at this

/-- Every call is one of the outcomes. -/
theorem call_step (env : Env) (g : Running) (c : GateCall) :
    GateStep env g c (g.call env c).1 (g.call env c).2 := by
  unfold Running.call Running.gateImpl
  by_cases hactive : !g.s.entered || g.s.failed
  · rw [if_pos hactive]
    exact .reject (.inactive (by simpa using hactive))
  rw [if_neg hactive]
  obtain ⟨hentered, hfailed⟩ : g.s.entered = true ∧ g.s.failed = false := by simpa using hactive
  by_cases hacquire : c.operation = 1
  · rw [if_pos hacquire, Running.gateAcquire]
    by_cases harg : c.argument.tag || c.argument.address > 1
    · rw [if_pos harg]
      exact .reject (.argument hacquire (by simpa using harg))
    rw [if_neg harg]
    obtain ⟨htag, haddr⟩ : c.argument.tag = false ∧ c.argument.address ≤ 1 := by simpa using harg
    by_cases hnull : c.argument.address ≠ 0
    · rw [if_pos hnull]
      exact .null hentered hfailed hacquire htag (by omega)
    rw [if_neg hnull]
    have hzero : c.argument.address = 0 := by omega
    by_cases hfull : g.s.acquired = numCells
    · rw [if_pos hfull]
      exact .reject (.full hacquire hzero hfull)
    rw [if_neg hfull]
    dsimp only
    by_cases hexact : !(g.s.viewFor env g.s.acquired).tag || !(objectCap env).tag
    · rw [if_pos hexact]
      exact .reject (.inexact hacquire hzero (by simpa using hexact))
    · rw [if_neg hexact]
      obtain ⟨hview, hobject⟩ : (g.s.viewFor env g.s.acquired).tag = true ∧
          (objectCap env).tag = true := by simpa using hexact
      exact .acquire hentered hfailed hacquire htag hzero hfull hview hobject
  rw [if_neg hacquire]
  by_cases hoperation : c.operation ≠ 2 ∧ c.operation ≠ 3
  · rw [if_pos hoperation]
    exact .reject (.operation hacquire hoperation.1 hoperation.2)
  rw [if_neg hoperation, Running.gateUse]
  have huse : c.operation = 2 ∨ c.operation = 3 := by omega
  rcases findView_cases g c.argument with ⟨hnone, hunknown⟩ | ⟨hlt, hequal, hfirst⟩
  · rw [if_pos (by simp [hnone])]
    exact .reject (.unknown huse hunknown)
  cases htag : (g.s.cellAt (g.findView c.argument)).tag with
  | false =>
    rw [if_pos (by simp)]
    exact .reject (.stale _ huse hlt hequal hfirst htag)
  | true =>
    rw [if_neg (by simp; omega)]
    by_cases hread : c.operation = 2
    · rw [if_pos hread]
      exact .read _ hentered hfailed hread hlt hequal htag
    · rw [if_neg hread]
      exact .release _ hentered hfailed (by omega) hlt hequal htag

/-! ### Exact capabilities -/

/-- `cbpf_exact` returns NULL or precisely what was asked for. -/
theorem cbpfExact_of_tag {env : Env} {address size perms : Nat}
    (h : (cbpfExact env address size perms).tag = true) :
    cbpfExact env address size perms = ⟨true, false, address, address, size, perms⟩ := by
  unfold cbpfExact at h ⊢
  dsimp only at h ⊢
  split at h
  · cases h
  · rename_i hexact
    rw [if_neg hexact]
    exact eq_of_inexact_eq_false (by simpa using hexact)

theorem viewFor_of_tag {s : Invocation} {env : Env} {i : Nat}
    (h : (s.viewFor env i).tag = true) : s.viewFor env i =
      ⟨true, false, s.cellAddr i, s.cellAddr i, cellBytes, cbpfPublicPerms⟩ := cbpfExact_of_tag h

/-- Views of different cells differ, whatever else the encoding does. -/
theorem viewFor_inj {s : Invocation} {env : Env} {i j : Nat}
    (hi : (s.viewFor env i).tag = true) (h : s.viewFor env i = s.viewFor env j) : i = j := by
  have hj : (s.viewFor env j).tag = true := h ▸ hi
  rw [viewFor_of_tag hi, viewFor_of_tag hj] at h
  have haddr := congrArg Capability.address h
  simp only [Invocation.cellAddr, cellBytes] at haddr
  omega

/-! ### Reading the state after a write -/

section Fields

variable (g : Running) (event : TraceEvent) (line : LogLine) (pc id i j : Nat) (b : Bool)

@[simp] theorem cellAt_trace : (g.trace event pc id).s.cellAt i = g.s.cellAt i := rfl

/-- What `cbpf_consume` leaves. -/
theorem consume_eq : g.consume i pc b =
    { object := { g.object with refs := g.object.refs - 1 }
      s := { g.s with
        cells := g.s.cells.set i (g.s.cellAt i).tagClear
        released := u32Inc g.s.released
        cleanup := if b then u32Inc g.s.cleanup else g.s.cleanup
        sequence := (g.consume i pc b).s.sequence
        printed := (g.consume i pc b).s.printed } } := rfl

theorem cellAt_consume : (g.consume i pc b).s.cellAt j =
    if j = i then (g.s.cellAt i).tagClear else g.s.cellAt j := by
  change (g.s.cells.set i (g.s.cellAt i).tagClear).getD j .null = _
  by_cases hji : j = i
  · subst hji
    by_cases hlt : j < g.s.cells.length
    · simp [hlt]
    · have hnull : g.s.cellAt j = .null := List.getD_eq_default _ _ (Nat.le_of_not_lt hlt)
      rw [if_pos rfl, hnull, List.getD_eq_default _ _ (by simpa using hlt)]
      rfl
  · simp [hji, List.getElem?_set_ne (Ne.symm hji), Invocation.cellAt]

theorem cellAt_bind (object view : Capability) (hi : i < g.s.cells.length) :
    (g.bind i object view).s.cellAt j = if j = i then object else g.s.cellAt j := by
  change (g.s.cells.set i object).getD j .null = _
  by_cases hji : j = i
  · subst hji
    simp [hi]
  · simp [hji, List.getElem?_set_ne (Ne.symm hji), Invocation.cellAt]

theorem viewAt_bind (object view : Capability) (hi : i < g.s.views.length) :
    (g.bind i object view).s.viewAt j = if j = i then view else g.s.viewAt j := by
  change (g.s.views.set i view).getD j .null = _
  by_cases hji : j = i
  · subst hji
    simp [hi]
  · simp [hji, List.getElem?_set_ne (Ne.symm hji), Invocation.viewAt]

end Fields

/-! ### The invariant -/

/-- The number of cells that hold a valid capability. -/
def Invocation.tagged (s : Invocation) : Nat := s.cells.countP Capability.tag

theorem countP_set {cells : List Capability} {i : Nat} (hi : i < cells.length) (c : Capability) :
    (cells.set i c).countP Capability.tag + (cells.getD i .null).tag.toNat =
      cells.countP Capability.tag + c.tag.toNat := by
  rw [List.getD_eq_getElem _ _ hi, List.countP_set hi]
  have hpos : cells[i].tag = true → 0 < cells.countP Capability.tag := fun ht =>
    List.countP_pos_iff.mpr ⟨_, List.getElem_mem hi, ht⟩
  cases hold : cells[i].tag with
  | false => cases c.tag <;> simp
  | true =>
    have := hpos hold
    cases c.tag <;> simp <;> omega

/-- An invocation between gate calls. -/
structure Invocation.Inv (env : Env) (s : Invocation) : Prop where
  cells_length : s.cells.length = 2
  views_length : s.views.length = 2
  acquired_le : s.acquired ≤ 2
  /-- the published views are the canonical ones -/
  views : ∀ i < s.acquired, s.viewAt i = s.viewFor env i ∧ (s.viewFor env i).tag = true
  fresh : ∀ i, s.acquired ≤ i → (s.cellAt i).tag = false
  balance : s.released + s.tagged = s.acquired
  cleanup_le : s.cleanup ≤ s.released

namespace Invocation.Inv

variable {env : Env} {g : Running}

theorem zeroed (env : Env) (prog cellsAddr : Nat) : Inv env (.zeroed prog cellsAddr) where
  cells_length := rfl
  views_length := rfl
  acquired_le := Nat.zero_le _
  views := fun i hi => absurd hi (Nat.not_lt_zero i)
  fresh := by
    intro i _
    match i with
    | 0 => rfl
    | 1 => rfl
    | i + 2 => rfl
  balance := rfl
  cleanup_le := Nat.le_refl _

/-- Neither the entry flag nor the failure flag, the trace or the read counter matters. -/
theorem congr {s t : Invocation} (h : Inv env s) (haddr : t.cellsAddr = s.cellsAddr)
    (hcells : t.cells = s.cells) (hviews : t.views = s.views) (hacquired : t.acquired = s.acquired)
    (hreleased : t.released = s.released) (hcleanup : t.cleanup = s.cleanup) : Inv env t := by
  have hview : ∀ i, t.viewFor env i = s.viewFor env i := fun i => by
    rw [Invocation.viewFor, Invocation.viewFor, Invocation.cellAddr, Invocation.cellAddr, haddr]
  exact {
    cells_length := by rw [hcells]; exact h.cells_length
    views_length := by rw [hviews]; exact h.views_length
    acquired_le := by rw [hacquired]; exact h.acquired_le
    views := fun i hi => by
      rw [hview, Invocation.viewAt, hviews]
      exact h.views i (hacquired ▸ hi)
    fresh := fun i hi => by
      rw [Invocation.cellAt, hcells]
      exact h.fresh i (hacquired ▸ hi)
    balance := by
      rw [hreleased, hacquired, Invocation.tagged, hcells]
      exact h.balance
    cleanup_le := by rw [hcleanup, hreleased]; exact h.cleanup_le }

theorem lt_acquired {s : Invocation} (h : Inv env s) {i : Nat} (ht : (s.cellAt i).tag = true) :
    i < s.acquired := by
  by_contra hi
  rw [h.fresh i (by omega)] at ht
  cases ht

theorem released_le {s : Invocation} (h : Inv env s) : s.released ≤ 2 := by
  have := h.balance
  have := h.acquired_le
  omega

/-- An equal published view is the only one. -/
theorem view_unique {s : Invocation} (h : Inv env s) {i j : Nat} (hi : i < s.acquired)
    (hj : j < s.acquired) (heq : s.viewAt i = s.viewAt j) : i = j := by
  obtain ⟨hvi, hti⟩ := h.views i hi
  obtain ⟨hvj, _⟩ := h.views j hj
  exact viewFor_inj hti (hvi.symm.trans (heq.trans hvj))

/-- Consuming a live cell, explicitly or as cleanup. -/
theorem consume (h : Inv env g.s) {i : Nat} (pc : Nat) (b : Bool)
    (ht : (g.s.cellAt i).tag = true) : Inv env (g.consume i pc b).s := by
  have hi : i < g.s.cells.length := by
    rw [h.cells_length]
    exact Nat.lt_of_lt_of_le (h.lt_acquired ht) h.acquired_le
  have hcount := countP_set hi (g.s.cellAt i).tagClear
  have hle := h.released_le
  have hreleased : u32Inc g.s.released = g.s.released + 1 := u32Inc_of_lt (by omega)
  exact {
    cells_length := by rw [consume_eq]; simpa using h.cells_length
    views_length := h.views_length
    acquired_le := h.acquired_le
    views := h.views
    fresh := by
      intro j hj
      rw [cellAt_consume]
      split
      · rfl
      · exact h.fresh j hj
    balance := by
      have hbal := h.balance
      change u32Inc g.s.released +
        (g.s.cells.set i (g.s.cellAt i).tagClear).countP Capability.tag = g.s.acquired
      rw [hreleased]
      change _ + (g.s.cellAt i).tag.toNat = _ at hcount
      rw [ht] at hcount
      simp only [Invocation.tagged, tagClear_tag, Bool.toNat_true, Bool.toNat_false] at hbal hcount
      omega
    cleanup_le := by
      have hcl := h.cleanup_le
      change (if b then u32Inc g.s.cleanup else g.s.cleanup) ≤ u32Inc g.s.released
      rw [hreleased]
      split
      · rw [u32Inc_of_lt (by omega)]
        omega
      · omega }

/-- Publishing the next cell. -/
theorem bind (h : Inv env g.s) (hne : g.s.acquired ≠ 2)
    (hview : (g.s.viewFor env g.s.acquired).tag = true) (hobject : (objectCap env).tag = true) :
    Inv env (g.bind g.s.acquired (objectCap env) (g.s.viewFor env g.s.acquired)).s := by
  have hlt : g.s.acquired < 2 := Nat.lt_of_le_of_ne h.acquired_le hne
  have hinc : u32Inc g.s.acquired = g.s.acquired + 1 := u32Inc_of_lt (by omega)
  have hcell := fun j => cellAt_bind g g.s.acquired j (objectCap env)
    (g.s.viewFor env g.s.acquired) (h.cells_length ▸ hlt)
  have hpub := fun j => viewAt_bind g g.s.acquired j (objectCap env)
    (g.s.viewFor env g.s.acquired) (h.views_length ▸ hlt)
  have hcount := countP_set (h.cells_length ▸ hlt) (objectCap env)
  exact {
    cells_length := by simpa [Running.bind] using h.cells_length
    views_length := by simpa [Running.bind] using h.views_length
    acquired_le := by
      change u32Inc g.s.acquired ≤ 2
      omega
    views := by
      intro i hi
      change i < u32Inc g.s.acquired at hi
      rw [hpub]
      by_cases heq : i = g.s.acquired
      · rw [if_pos heq, heq]
        exact ⟨rfl, hview⟩
      · rw [if_neg heq]
        exact h.views i (by omega)
    fresh := by
      intro i hi
      change u32Inc g.s.acquired ≤ i at hi
      rw [hcell, if_neg (by omega)]
      exact h.fresh i (by omega)
    balance := by
      have hbal := h.balance
      have hdead := h.fresh g.s.acquired (Nat.le_refl _)
      change g.s.released + (g.s.cells.set g.s.acquired (objectCap env)).countP Capability.tag =
        u32Inc g.s.acquired
      change _ + (g.s.cellAt g.s.acquired).tag.toNat = _ at hcount
      rw [hdead, hobject] at hcount
      simp only [Invocation.tagged, Bool.toNat_true, Bool.toNat_false] at hbal hcount
      omega
    cleanup_le := h.cleanup_le }

/-- Every outcome of a gate call keeps the invariant. -/
theorem step (h : Inv env g.s) {c : GateCall} {g' : Running} {result : Capability}
    (hs : GateStep env g c g' result) : Inv env g'.s := by
  cases hs with
  | reject => exact h.congr rfl rfl rfl rfl rfl rfl
  | null => exact h.congr rfl rfl rfl rfl rfl rfl
  | acquire _ _ _ _ _ hne hview hobject =>
    exact (h.bind hne hview hobject).congr rfl rfl rfl rfl rfl rfl
  | read => exact h.congr rfl rfl rfl rfl rfl rfl
  | release i _ _ _ _ _ ht => exact h.consume c.pc false ht

end Invocation.Inv

/-- A gate call changes the reference count by as much as the number of tagged cells. -/
theorem refs_step {env : Env} {g g' : Running} {c : GateCall} {result : Capability}
    (hinv : g.s.Inv env) (hs : GateStep env g c g' result) :
    g'.object.refs = g.object.refs + ((g'.s.tagged : Int) - g.s.tagged) := by
  have hbefore := hinv.balance
  have hafter := (hinv.step hs).balance
  have hle := hinv.released_le
  cases hs with
  | reject =>
    change g.object.refs = g.object.refs + ((g.s.tagged : Int) - g.s.tagged)
    omega
  | null =>
    change g.object.refs = g.object.refs + ((g.s.tagged : Int) - g.s.tagged)
    omega
  | acquire _ _ _ _ _ hne =>
    have hlt : g.s.acquired < 2 := Nat.lt_of_le_of_ne hinv.acquired_le hne
    have hinc : u32Inc g.s.acquired = g.s.acquired + 1 := u32Inc_of_lt (by omega)
    change g.s.released + _ = u32Inc g.s.acquired at hafter
    change g.object.refs + 1 = _
    omega
  | read =>
    change g.object.refs = g.object.refs + ((g.s.tagged : Int) - g.s.tagged)
    omega
  | release i =>
    have hinc : u32Inc g.s.released = g.s.released + 1 := u32Inc_of_lt (by omega)
    change u32Inc g.s.released + _ = g.s.acquired at hafter
    change g.object.refs - 1 = _
    omega

/-- What no gate call changes. -/
theorem GateStep.frame {env : Env} {g g' : Running} {c : GateCall} {result : Capability}
    (hs : GateStep env g c g' result) : g'.s.prog = g.s.prog ∧ g'.s.cellsAddr = g.s.cellsAddr ∧
      g'.s.entered = g.s.entered ∧ g'.s.cleanup = g.s.cleanup ∧
      g'.object.value = g.object.value := by
  cases hs <;> exact ⟨rfl, rfl, rfl, rfl, rfl⟩

end Cbpf.Kernel
