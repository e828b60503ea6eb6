import Cbpf.Kernel.GateSteps

/-!
# The end of an invocation

Every consumption of a cell prints a `release` or a `cleanup` line with its id, so the printed lines
account for each acquired cell: it is still tagged, or it has been consumed once. The teardown loop
of `cbpf_test_invoke` consumes what is left.
-/

namespace Cbpf.Kernel

open Cheri

/-- The `release` or `cleanup` line for `id`. -/
def LogLine.consumes (id : Nat) : LogLine → Bool
  | .gate r => (r.event == .release || r.event == .cleanup) && r.id == id
  | _ => false

/-- How often cell `i` has been consumed. -/
def Invocation.consumptions (s : Invocation) (i : Nat) : Nat :=
  s.printed.countP (LogLine.consumes (i + 1))

/-- An acquired cell is tagged or has been consumed exactly once; no other cell is either. -/
def Invocation.Accounted (s : Invocation) : Prop :=
  ∀ i, s.consumptions i + (s.cellAt i).tag.toNat = if i < s.acquired then 1 else 0

section Consumptions

variable (g : Running)

theorem consumptions_trace (event : TraceEvent) (pc id i : Nat) :
    (g.trace event pc id).s.consumptions i = g.s.consumptions i +
      ((event == .release || event == .cleanup) && id == i + 1).toNat := by
  simp only [Invocation.consumptions, Running.trace, List.countP_append, List.countP_singleton]
  change _ + (if ((event == .release || event == .cleanup) && id == i + 1) = true then 1 else 0) = _
  cases (event == .release || event == .cleanup) && id == i + 1 <;> rfl

theorem consumptions_print (line : LogLine) (i : Nat) (hline : line.consumes (i + 1) = false) :
    (g.print line).s.consumptions i = g.s.consumptions i := by
  simp [Invocation.consumptions, Running.print, List.countP_append, hline]

theorem consumptions_consume (j pc i : Nat) (b : Bool) :
    (g.consume j pc b).s.consumptions i = g.s.consumptions i + if i = j then 1 else 0 := by
  have hlast := consumptions_trace
    ((((g.clearCell j).trace .clear pc (j + 1)).decRefs).countRelease b)
    (if b then .cleanup else .release) pc (j + 1) i
  have hclear := consumptions_trace (g.clearCell j) .clear pc (j + 1) i
  change (g.consume j pc b).s.consumptions i = _ at hlast
  change ((g.clearCell j).trace .clear pc (j + 1)).s.consumptions i = g.s.consumptions i + 0
    at hclear
  change _ = ((g.clearCell j).trace .clear pc (j + 1)).s.consumptions i + _ at hlast
  rw [hlast, hclear, Nat.add_zero]
  by_cases hij : i = j
  · subst hij
    cases b <;> simp
  · have : (j + 1 == i + 1) = false := by
      rw [beq_eq_false_iff_ne]
      omega
    rw [this, if_neg hij, Bool.and_false]
    rfl

end Consumptions

namespace Invocation.Accounted

variable {env : Env} {g : Running}

theorem zeroed (prog cellsAddr : Nat) : (Invocation.zeroed prog cellsAddr).Accounted := by
  intro i
  match i with
  | 0 => rfl
  | 1 => rfl
  | i + 2 => rfl

theorem consume (h : g.s.Accounted) {i : Nat} (pc : Nat) (b : Bool)
    (ht : (g.s.cellAt i).tag = true) : (g.consume i pc b).s.Accounted := by
  intro j
  have hj := h j
  rw [consumptions_consume, cellAt_consume]
  change _ = if j < g.s.acquired then 1 else 0
  by_cases hji : j = i
  · subst hji
    rw [ht] at hj
    simpa using hj
  · simpa [hji] using hj

/-- Every outcome of a gate call keeps the account. -/
theorem step (h : g.s.Accounted) (hinv : g.s.Inv env) {c : GateCall} {g' : Running}
    {result : Capability} (hs : GateStep env g c g' result) : g'.s.Accounted := by
  cases hs with
  | reject =>
    intro i
    rw [Running.fail, consumptions_trace]
    exact h i
  | null =>
    intro i
    rw [consumptions_trace]
    exact h i
  | acquire _ _ _ _ _ hne _ hobject =>
    intro i
    have hlt : g.s.acquired < 2 := Nat.lt_of_le_of_ne hinv.acquired_le hne
    have hinc : u32Inc g.s.acquired = g.s.acquired + 1 := u32Inc_of_lt (by omega)
    have hcell := cellAt_bind g g.s.acquired i (objectCap env)
      (g.s.viewFor env g.s.acquired) (hinv.cells_length ▸ hlt)
    have hi := h i
    rw [consumptions_trace, consumptions_print _ _ _ rfl, cellAt_trace]
    change g.s.consumptions i + 0 + ((g.bind g.s.acquired (objectCap env)
      (g.s.viewFor env g.s.acquired)).s.cellAt i).tag.toNat =
      if i < u32Inc g.s.acquired then 1 else 0
    rw [hcell, hinc]
    by_cases hin : i = g.s.acquired
    · subst hin
      rw [hinv.fresh g.s.acquired (Nat.le_refl _)] at hi
      simp only [Nat.lt_irrefl, if_false, Bool.toNat_false] at hi
      rw [if_pos rfl, hobject, if_pos (Nat.lt_succ_self _)]
      simp only [Bool.toNat_true]
      omega
    · rw [if_neg hin, Nat.add_zero, hi]
      by_cases hlt' : i < g.s.acquired
      · rw [if_pos hlt', if_pos (by omega)]
      · rw [if_neg hlt', if_neg (by omega)]
  | read =>
    intro i
    rw [consumptions_trace]
    exact h i
  | release i _ _ _ _ _ ht => exact h.consume c.pc false ht

end Invocation.Accounted

/-! ### The teardown loop -/

/-- After the first `k` passes of the teardown loop started in `g`. -/
structure TornCells (env : Env) (g u : Running) (k : Nat) : Prop where
  inv : u.s.Inv env
  accounted : u.s.Accounted
  addr : u.s.cellsAddr = g.s.cellsAddr
  acquired : u.s.acquired = g.s.acquired
  entered : u.s.entered = g.s.entered
  failed : u.s.failed = g.s.failed
  value : u.object.value = g.object.value
  /-- each provider effect is a release -/
  refs : u.object.refs + u.s.released = g.object.refs + g.s.released
  /-- and each release of the loop is a cleanup -/
  cleanup : u.s.cleanup + g.s.released = g.s.cleanup + u.s.released
  cells : ∀ i, (u.s.cellAt i).tag = (!decide (i < k) && (g.s.cellAt i).tag)

theorem tornCells {env : Env} {g : Running} (hinv : g.s.Inv env) (hacc : g.s.Accounted) (k : Nat) :
    TornCells env g ((List.range k).foldl Running.teardownCell g) k := by
  induction k with
  | zero => exact ⟨hinv, hacc, rfl, rfl, rfl, rfl, rfl, rfl, rfl, fun i => by simp⟩
  | succ k ih =>
    rw [List.range_succ, List.foldl_append]
    change TornCells env g (Running.teardownCell _ k) (k + 1)
    generalize (List.range k).foldl Running.teardownCell g = u at ih ⊢
    have hmore : ∀ i, i ≠ k → decide (i < k + 1) = decide (i < k) := fun i hi => by
      rw [decide_eq_decide]
      omega
    cases ht : (u.s.cellAt k).tag with
    | false =>
      rw [Running.teardownCell, ht, if_neg Bool.false_ne_true]
      refine ⟨ih.inv, ih.accounted, ih.addr, ih.acquired, ih.entered, ih.failed, ih.value, ih.refs,
        ih.cleanup, fun i => ?_⟩
      by_cases hi : i = k
      · subst hi
        simp [ht]
      · rw [hmore i hi, ih.cells i]
    | true =>
      rw [Running.teardownCell, ht, if_pos rfl]
      have hle := ih.inv.released_le
      have hreleased : u32Inc u.s.released = u.s.released + 1 := u32Inc_of_lt (by omega)
      have hcle := ih.inv.cleanup_le
      have hcleanup : u32Inc u.s.cleanup = u.s.cleanup + 1 := u32Inc_of_lt (by omega)
      refine ⟨ih.inv.consume u64Max true ht, ih.accounted.consume u64Max true ht, ih.addr, ih.acquired,
        ih.entered, ih.failed, ih.value, ?_, ?_, fun i => ?_⟩
      · have := ih.refs
        change u.object.refs - 1 + ((u32Inc u.s.released : Nat) : Int) = _
        rw [hreleased]
        omega
      · have := ih.cleanup
        change u32Inc u.s.cleanup + g.s.released = g.s.cleanup + u32Inc u.s.released
        omega
      · rw [cellAt_consume]
        by_cases hi : i = k
        · subst hi
          simp
        · rw [if_neg hi, hmore i hi, ih.cells i]

theorem tagged_eq_zero {s : Invocation} (h : ∀ i, (s.cellAt i).tag = false) : s.tagged = 0 := by
  rw [Invocation.tagged, List.countP_eq_zero]
  intro c hc
  obtain ⟨i, hi, rfl⟩ := List.getElem_of_mem hc
  have := h i
  rw [Invocation.cellAt, List.getD_eq_getElem _ _ hi] at this
  simp [this]

/-- The last test sets `failed` and nothing else. -/
theorem judge_frame (u : Running) :
    u.judge = { u with s := { u.s with failed := u.judge.s.failed } } := by
  unfold Running.judge
  split <;> rfl

/-- What the teardown of `g` leaves in `u`, and what `cbpf_test_invoke` returns. -/
structure TornDown (g : Running) (result : Nat) (u : Running) (ret : Nat) : Prop where
  /-- every acquired cell has been consumed exactly once -/
  once : ∀ i < g.s.acquired, u.s.consumptions i = 1
  addr : u.s.cellsAddr = g.s.cellsAddr
  acquired : u.s.acquired = g.s.acquired
  balanced : u.s.released = u.s.acquired
  /-- the teardown's releases are the cleanup of what the program left -/
  cleanup : u.s.cleanup = g.s.cleanup + g.s.tagged
  /-- the test `acquired != released` never decides -/
  failed : u.s.failed = (!g.s.entered || g.s.failed)
  scrubbed : u.s.cells = List.replicate 2 .null ∧ u.s.views = List.replicate 2 .null
  value : u.object.value = g.object.value
  /-- exactly the references the invocation still had -/
  refs : u.object.refs = g.object.refs - (g.s.tagged : Int)
  returned : ret = if g.s.entered && !g.s.failed then result else 0

theorem tornDown {env : Env} {g : Running} (hinv : g.s.Inv env) (hacc : g.s.Accounted)
    (result : Nat) : TornDown g result (g.teardown result).1 (g.teardown result).2 := by
  have hcells := tornCells hinv hacc g.s.acquired
  unfold Running.teardown
  generalize (List.range g.s.acquired).foldl Running.teardownCell g = u at hcells ⊢
  have hdead : ∀ i, (u.s.cellAt i).tag = false := fun i => by
    rw [hcells.cells]
    by_cases hi : i < g.s.acquired
    · simp [hi]
    · simp [hinv.fresh i (by omega)]
  have htagged := tagged_eq_zero hdead
  have hbalance := hcells.inv.balance
  rw [htagged, Nat.add_zero] at hbalance
  have hstart := hinv.balance
  have hjudge := judge_frame u
  -- with a balanced count the last test reads the entry flag only
  have hfailed : u.judge.s.failed = (!g.s.entered || g.s.failed) := by
    rw [← hcells.entered, ← hcells.failed, Running.judge]
    cases he : u.s.entered <;> simp [hbalance]
  have hjudged : u.judge.s.printed = u.s.printed := by rw [hjudge]
  refine {
    once := fun i hi => ?_
    addr := ?_
    acquired := ?_
    balanced := ?_
    cleanup := ?_
    failed := hfailed
    scrubbed := ⟨rfl, rfl⟩
    value := ?_
    refs := ?_
    returned := ?_ }
  · have hacc' := hcells.accounted i
    rw [hdead i, hcells.acquired, if_pos hi] at hacc'
    have htrace := consumptions_trace u.judge (if u.judge.s.failed then .failed else .exit)
      u64Max 0 i
    have hnone : (0 == i + 1) = false := by
      rw [beq_eq_false_iff_ne]
      omega
    rw [hnone, Bool.and_false] at htrace
    change (((u.judge.trace _ u64Max 0).print _)).s.consumptions i = 1
    rw [consumptions_print _ _ _ rfl, htrace, Invocation.consumptions, hjudged]
    exact hacc'
  · change u.judge.s.cellsAddr = _
    rw [hjudge]
    exact hcells.addr
  · change u.judge.s.acquired = _
    rw [hjudge]
    exact hcells.acquired
  · change u.judge.s.released = u.judge.s.acquired
    rw [hjudge]
    exact hbalance
  · have := hcells.cleanup
    have := hcells.acquired
    change u.judge.s.cleanup = _
    rw [hjudge]
    change u.s.cleanup = _
    omega
  · change u.judge.object.value = _
    rw [hjudge]
    exact hcells.value
  · have := hcells.refs
    have := hcells.acquired
    change u.judge.object.refs = _
    rw [hjudge]
    change u.object.refs = _
    omega
  · change (if u.judge.s.failed then 0 else result) = _
    rw [hfailed]
    cases g.s.entered <;> cases g.s.failed <;> rfl

/-! ### What an invocation has taken -/

/-- An invocation that found `object` has run up to `g`: what it has taken is in its tagged cells. -/
structure Lent (env : Env) (object : ProviderObject) (g : Running) : Prop where
  inv : g.s.Inv env
  accounted : g.s.Accounted
  refs : g.object.refs = object.refs + (g.s.tagged : Int)
  value : g.object.value = object.value

namespace Lent

variable {env : Env} {object : ProviderObject} {g : Running}

theorem zeroed (env : Env) (object : ProviderObject) (prog cellsAddr : Nat) :
    Lent env object ⟨object, .zeroed prog cellsAddr⟩ where
  inv := .zeroed env prog cellsAddr
  accounted := .zeroed prog cellsAddr
  refs := (Int.add_zero _).symm
  value := rfl

/-- A gate call takes or gives back through a cell. -/
theorem call (h : Lent env object g) (c : GateCall) : Lent env object (g.call env c).1 := by
  have hstep := call_step env g c
  have hrefs := refs_step h.inv hstep
  refine ⟨h.inv.step hstep, h.accounted.step h.inv hstep, ?_, hstep.frame.2.2.2.2.trans h.value⟩
  have := h.refs
  omega

/-- An object with the same count and value is the same. -/
theorem object_eq {object object' : ProviderObject} (hrefs : object'.refs = object.refs)
    (hvalue : object'.value = object.value) : object' = object := by
  cases object
  cases object'
  rw [ProviderObject.mk.injEq]
  exact ⟨hvalue, hrefs⟩

/-- The teardown gives everything back. -/
theorem teardown (h : Lent env object g) (result : Nat) :
    (g.teardown result).1.object = object := by
  have htorn := tornDown h.inv h.accounted result
  refine object_eq ?_ (htorn.value.trans h.value)
  rw [htorn.refs, h.refs]
  omega

end Lent

end Cbpf.Kernel
