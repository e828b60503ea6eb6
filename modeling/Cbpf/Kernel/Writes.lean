import Cbpf.Kernel.Teardown

/-!
# The runtime, write by write

`Write` is one store, reference operation or printed line. A gate call and a teardown are lists of
writes in the order of the source, every decision being taken on the state in which the list starts,
and `points` are the states before, between and after the writes of a list.
-/

namespace Cbpf.Kernel

open Cheri

/-- A single write of the runtime. -/
inductive Write where
  | setFailed
  /-- `++s->sequence` -/
  | incSequence
  /-- the `CBPF_GATE` line, which reads the state it is printed in -/
  | emit (event : TraceEvent) (pc id : Nat)
  /-- another line -/
  | print (line : LogLine)
  | incRefs
  | decRefs
  | storeCell (index : Nat) (object : Capability)
  /-- the store of `cheri_tag_clear(object)` -/
  | clearCell (index : Nat)
  | storeView (index : Nat) (view : Capability)
  | incAcquired
  | incReleased
  | incReads
  | incCleanup
  deriving DecidableEq, Repr

/-- The record that `cbpf_trace` prints once the sequence number is incremented. -/
def Running.recordNow (g : Running) (event : TraceEvent) (pc id : Nat) : TraceRecord :=
  { seq := g.s.sequence, event := event, pc := pc, id := id, acquired := g.s.acquired,
    released := g.s.released, reads := g.s.reads, cleanup := g.s.cleanup,
    refs := g.object.refs, tagA := (g.s.cellAt 0).tag, tagB := (g.s.cellAt 1).tag }

/-- The effect of a write. -/
def Write.apply (g : Running) : Write → Running
  | .setFailed => { g with s := { g.s with failed := true } }
  | .incSequence => { g with s := { g.s with sequence := u32Inc g.s.sequence } }
  | .emit event pc id => g.print (.gate (g.recordNow event pc id))
  | .print line => g.print line
  | .incRefs => { g with object := { g.object with refs := g.object.refs + 1 } }
  | .decRefs => { g with object := { g.object with refs := g.object.refs - 1 } }
  | .storeCell index object => { g with s := { g.s with cells := g.s.cells.set index object } }
  | .clearCell index => g.clearCell index
  | .storeView index view => { g with s := { g.s with views := g.s.views.set index view } }
  | .incAcquired => { g with s := { g.s with acquired := u32Inc g.s.acquired } }
  | .incReleased => { g with s := { g.s with released := u32Inc g.s.released } }
  | .incReads => g.countRead
  | .incCleanup => { g with s := { g.s with cleanup := u32Inc g.s.cleanup } }

namespace Running

/-- All writes of a list. -/
def applyAll (g : Running) (writes : List Write) : Running := writes.foldl Write.apply g

/-- The states before, between and after the writes of a list. -/
def points (g : Running) : List Write → List Running
  | [] => [g]
  | w :: writes => g :: points (w.apply g) writes

theorem applyAll_append (g : Running) (writes more : List Write) :
    g.applyAll (writes ++ more) = (g.applyAll writes).applyAll more := List.foldl_append

/-- The points of a list are what its prefixes leave. -/
theorem mem_points {g u : Running} {writes : List Write} :
    u ∈ g.points writes ↔ ∃ done, done <+: writes ∧ u = g.applyAll done := by
  induction writes generalizing g with
  | nil => simp [points, applyAll]
  | cons w writes ih =>
    rw [points, List.mem_cons, ih]
    constructor
    · rintro (rfl | ⟨done, hdone, rfl⟩)
      · exact ⟨[], List.nil_prefix, rfl⟩
      · exact ⟨w :: done, List.cons_prefix_cons.mpr ⟨rfl, hdone⟩, rfl⟩
    · rintro ⟨done, hdone, rfl⟩
      cases done with
      | nil => exact .inl rfl
      | cons w' done =>
        obtain ⟨rfl, htail⟩ := List.cons_prefix_cons.mp hdone
        exact .inr ⟨done, htail, rfl⟩

theorem mem_points_append {g u : Running} {writes more : List Write}
    (h : u ∈ g.points (writes ++ more)) :
    u ∈ g.points writes ∨ u ∈ (g.applyAll writes).points more := by
  induction writes generalizing g with
  | nil => exact .inr h
  | cons w writes ih =>
    rw [List.cons_append, points, List.mem_cons] at h
    rcases h with rfl | h
    · exact .inl List.mem_cons_self
    · rcases ih h with h | h
      · exact .inl (List.mem_cons_of_mem _ h)
      · exact .inr h

/-! ### The writes of each function -/

/-- `cbpf_trace`. -/
def traceWrites (event : TraceEvent) (pc id : Nat) : List Write := [.incSequence, .emit event pc id]

/-- `cbpf_fail`. -/
def failWrites (pc : Nat) : List Write := .setFailed :: traceWrites .reject pc 0

/-- `cbpf_consume`. -/
def consumeWrites (index pc : Nat) (cleanup : Bool) : List Write :=
  .clearCell index :: traceWrites .clear pc (index + 1) ++ [.decRefs, .incReleased] ++
    (if cleanup then [.incCleanup] else []) ++
    traceWrites (if cleanup then .cleanup else .release) pc (index + 1)

/-- A successful operation 1: the count comes before the authority it stands for. -/
def bindWrites (g : Running) (env : Env) (pc : Nat) : List Write :=
  let index := g.s.acquired
  let view := g.s.viewFor env index
  [.incRefs, .storeCell index (objectCap env), .storeView index view, .incAcquired,
    .print (.bind pc (index + 1) (g.s.cellAddr index) env.objectAddr view)] ++
    traceWrites .acquire pc (index + 1)

/-- Operation 1. -/
def acquireWrites (g : Running) (env : Env) (argument : Capability) (pc : Nat) : List Write :=
  if argument.tag || argument.address > 1 then failWrites pc
  else if argument.address ≠ 0 then traceWrites .null pc 0
  else if g.s.acquired = numCells then failWrites pc
  else if !(g.s.viewFor env g.s.acquired).tag || !(objectCap env).tag then failWrites pc
  else g.bindWrites env pc

/-- Operations 2 and 3. -/
def useWrites (g : Running) (argument : Capability) (operation pc : Nat) : List Write :=
  let index := g.findView argument
  if index = g.s.acquired || !(g.s.cellAt index).tag then failWrites pc
  else if operation = 2 then .incReads :: traceWrites .read pc (index + 1)
  else consumeWrites index pc false

/-- `cbpf_gate_impl` with a non-NULL `cbpf_active`. -/
def gateWrites (g : Running) (env : Env) (c : GateCall) : List Write :=
  if !g.s.entered || g.s.failed then failWrites c.pc
  else if c.operation = 1 then g.acquireWrites env c.argument c.pc
  else if c.operation ≠ 2 ∧ c.operation ≠ 3 then failWrites c.pc
  else g.useWrites c.argument c.operation c.pc

/-- One pass of the teardown loop. -/
def teardownCellWrites (g : Running) (index : Nat) : List Write :=
  if (g.s.cellAt index).tag then consumeWrites index u64Max true else []

/-- The teardown loop from pass `index` on, with `k` passes to go. -/
def teardownLoopWrites (g : Running) : Nat → Nat → List Write
  | _, 0 => []
  | index, k + 1 =>
    g.teardownCellWrites index ++
      (g.applyAll (g.teardownCellWrites index)).teardownLoopWrites (index + 1) k

/-- What follows the teardown loop: the verdict, its two lines and the zeroing of the cells. -/
def closeWrites (g : Running) (result : Nat) : List Write :=
  (if !g.s.entered || g.s.acquired ≠ g.s.released then [.setFailed] else []) ++
    traceWrites (if g.judge.s.failed then .failed else .exit) u64Max 0 ++
    [.print (.result result g.s.entered g.judge.s.failed (g.s.acquired == g.s.released)),
      .storeCell 0 .null, .storeView 0 .null, .storeCell 1 .null, .storeView 1 .null]

/-- `cbpf_test_invoke` after `bpf_prog_run` returned `result`. -/
def teardownWrites (g : Running) (result : Nat) : List Write :=
  let loop := g.teardownLoopWrites 0 g.s.acquired
  loop ++ (g.applyAll loop).closeWrites result

/-! ### They add up to the functions -/

theorem applyAll_trace (g : Running) (event : TraceEvent) (pc id : Nat) :
    g.applyAll (traceWrites event pc id) = g.trace event pc id := rfl

theorem applyAll_fail (g : Running) (pc : Nat) : g.applyAll (failWrites pc) = g.fail pc := rfl

theorem applyAll_consume (g : Running) (index pc : Nat) (cleanup : Bool) :
    g.applyAll (consumeWrites index pc cleanup) = g.consume index pc cleanup := by
  cases cleanup <;> rfl

/-- The writes of a gate call add up to the gate call. -/
theorem applyAll_gateWrites (g : Running) (env : Env) (c : GateCall) :
    g.applyAll (g.gateWrites env c) = (g.call env c).1 := by
  unfold gateWrites call gateImpl
  split
  · exact applyAll_fail g c.pc
  · split
    · unfold acquireWrites gateAcquire
      split
      · exact applyAll_fail g c.pc
      · split
        · exact applyAll_trace g .null c.pc 0
        · split
          · exact applyAll_fail g c.pc
          · dsimp only
            split
            · exact applyAll_fail g c.pc
            · rfl
    · split
      · exact applyAll_fail g c.pc
      · unfold useWrites gateUse
        dsimp only
        split
        · exact applyAll_fail g c.pc
        · split
          · rfl
          · exact applyAll_consume g _ c.pc false

theorem applyAll_teardownCell (g : Running) (index : Nat) :
    g.applyAll (g.teardownCellWrites index) = g.teardownCell index := by
  unfold teardownCellWrites teardownCell
  split
  · exact applyAll_consume g index u64Max true
  · rfl

theorem applyAll_teardownLoop (g : Running) (index k : Nat) :
    g.applyAll (g.teardownLoopWrites index k) =
      (List.range' index k).foldl teardownCell g := by
  induction k generalizing g index with
  | zero => rfl
  | succ k ih =>
    rw [teardownLoopWrites, applyAll_append, ih, applyAll_teardownCell]
    rfl

theorem applyAll_close (g : Running) (result : Nat) (hcells : g.s.cells.length = 2)
    (hviews : g.s.views.length = 2) :
    g.applyAll (g.closeWrites result) = ((g.judge.trace
      (if g.judge.s.failed then .failed else .exit) u64Max 0).print
        (.result result g.s.entered g.judge.s.failed (g.s.acquired == g.s.released))).scrub := by
  obtain ⟨object, s⟩ := g
  obtain ⟨prog, cellsAddr, cells, views, acquired, released, reads, cleanup, sequence, entered,
    failed, printed⟩ := s
  obtain ⟨_, _, rfl⟩ := List.length_eq_two.mp hcells
  obtain ⟨_, _, rfl⟩ := List.length_eq_two.mp hviews
  unfold closeWrites judge
  dsimp only
  split
  · rfl
  · rfl

/-- The writes of a teardown add up to the teardown. -/
theorem applyAll_teardown (g : Running) (result : Nat)
    (hcells : ((List.range g.s.acquired).foldl teardownCell g).s.cells.length = 2)
    (hviews : ((List.range g.s.acquired).foldl teardownCell g).s.views.length = 2) :
    g.applyAll (g.teardownWrites result) = (g.teardown result).1 := by
  have hloop := applyAll_teardownLoop g 0 g.s.acquired
  rw [← List.range_eq_range'] at hloop
  rw [teardownWrites, applyAll_append, hloop, applyAll_close _ _ hcells hviews, teardown]
  generalize (List.range g.s.acquired).foldl teardownCell g = u
  unfold judge
  dsimp only
  split
  · rfl
  · rfl

end Running

end Cbpf.Kernel
