import Cbpf.Kernel.Writes
import Cbpf.Kernel.System

/-!
# Authority never outlives or precedes its reference

Between any two writes of an invocation that runs alone the provider holds a reference for every
tagged cell: an acquisition counts before it publishes, a consumption clears before it gives back.
The printed records are snapshots that show the same balance.
-/

namespace Cbpf.Kernel

open Cheri

/-! ### The printed records -/

def LogLine.record? : LogLine → Option TraceRecord
  | .gate r => some r
  | _ => none

/-- The `CBPF_GATE` records an invocation has printed. -/
def Invocation.records (s : Invocation) : List TraceRecord := s.printed.filterMap LogLine.record?

/-- What a record says of references, acquisitions and tags. Between the clearing of a cell and the
release of its reference one tag is missing. -/
structure TraceRecord.Balanced (r : TraceRecord) : Prop where
  refs : r.refs = 1 + (r.acquired : Int) - r.released
  tags : ((r.tagA.toNat + r.tagB.toNat : Nat) : Int) =
    r.acquired - r.released - (if r.event = .clear then 1 else 0)

/-- `b` may be printed right after `a`. -/
def Follows (a b : TraceRecord) : Prop :=
  b.seq = u32Inc a.seq ∧
    (a.event = .clear → (b.event = .release ∨ b.event = .cleanup) ∧ b.id = a.id)

/-- The id that a `clear` record announces. -/
def TraceRecord.pending (r : TraceRecord) : Option Nat := if r.event = .clear then some r.id else none

/-- The records so far, of which the last announces `pending`. -/
structure Logs (s : Invocation) (pending : Option Nat) : Prop where
  balanced : ∀ r ∈ s.records, r.Balanced
  chain : s.records.IsChain Follows
  first : ∀ r ∈ s.records.head?, r.seq = 1
  last : ∀ r ∈ s.records.getLast?, r.seq = s.sequence ∧ r.pending = pending
  fresh : s.records = [] → s.sequence = 0 ∧ pending = none

theorem records_print (g : Running) (line : LogLine) :
    (g.print line).s.records = g.s.records ++ line.record?.toList := by
  cases line <;> simp [Invocation.records, Running.print, LogLine.record?]

theorem records_trace (g : Running) (event : TraceEvent) (pc id : Nat) :
    (g.trace event pc id).s.records =
      g.s.records ++ [(Write.incSequence.apply g).recordNow event pc id] :=
  records_print (Write.incSequence.apply g) (.gate _)

namespace Logs

variable {s t : Invocation} {g : Running} {pending : Option Nat}

theorem congr (h : Logs s pending) (hrecords : t.records = s.records)
    (hsequence : t.sequence = s.sequence) : Logs t pending where
  balanced := by rw [hrecords]; exact h.balanced
  chain := by rw [hrecords]; exact h.chain
  first := by rw [hrecords]; exact h.first
  last := by rw [hrecords, hsequence]; exact h.last
  fresh := by rw [hrecords, hsequence]; exact h.fresh

/-- A new record continues the chain if it is balanced and resolves what is pending. -/
theorem trace (h : Logs g.s pending) (event : TraceEvent) {pc id : Nat}
    (hbalanced : ((Write.incSequence.apply g).recordNow event pc id).Balanced)
    (hpending : ∀ announced, pending = some announced →
      (event = .release ∨ event = .cleanup) ∧ id = announced) :
    Logs (g.trace event pc id).s (if event = .clear then some id else none) := by
  have hseq : ((Write.incSequence.apply g).recordNow event pc id).seq = u32Inc g.s.sequence := rfl
  refine {
    balanced := ?_
    chain := ?_
    first := ?_
    last := ?_
    fresh := ?_ }
  · intro r hr
    rw [records_trace] at hr
    rcases List.mem_append.mp hr with hr | hr
    · exact h.balanced r hr
    · rw [List.mem_singleton.mp hr]
      exact hbalanced
  · rw [records_trace, List.isChain_append]
    refine ⟨h.chain, List.isChain_singleton _, ?_⟩
    intro a ha b hb
    obtain rfl := Option.some.inj hb
    obtain ⟨hlast, hann⟩ := h.last a ha
    refine ⟨by rw [hseq, hlast], fun hclear => ?_⟩
    rw [TraceRecord.pending, if_pos hclear] at hann
    exact hpending a.id hann.symm
  · intro r hr
    rw [records_trace, List.head?_append] at hr
    cases hrecords : g.s.records with
    | nil =>
      rw [hrecords] at hr
      obtain rfl := Option.some.inj hr
      rw [hseq, (h.fresh hrecords).1]
      rfl
    | cons r' rest =>
      apply h.first
      rw [hrecords] at hr ⊢
      exact hr
  · intro r hr
    rw [records_trace, List.getLast?_concat] at hr
    obtain rfl := Option.some.inj hr
    exact ⟨rfl, rfl⟩
  · intro hnil
    rw [records_trace] at hnil
    simp at hnil

end Logs

/-! ### Points and boundaries -/

/-- What holds between any two writes. -/
structure PointOk (u : Running) : Prop where
  authority : (1 + u.s.tagged : Int) ≤ u.object.refs
  balanced : ∀ r ∈ u.s.records, r.Balanced
  chain : u.s.records.IsChain Follows
  first : ∀ r ∈ u.s.records.head?, r.seq = 1

/-- What holds between two operations. -/
structure Boundary (env : Env) (g : Running) : Prop where
  inv : g.s.Inv env
  refs : g.object.refs = 1 + g.s.tagged
  logs : Logs g.s none

theorem PointOk.of_logs {u : Running} {pending : Option Nat} (h : Logs u.s pending)
    (hauthority : (1 + u.s.tagged : Int) ≤ u.object.refs) : PointOk u :=
  ⟨hauthority, h.balanced, h.chain, h.first⟩

theorem Boundary.point {env : Env} {g : Running} (h : Boundary env g) : PointOk g :=
  .of_logs h.logs (Int.le_of_eq h.refs.symm)

/-- A write that prints nothing and does not spend a reference that a cell needs. -/
theorem PointOk.of_slack {u v : Running} (h : PointOk u) (hrecords : v.s.records = u.s.records)
    (hslack : u.object.refs - u.s.tagged ≤ v.object.refs - v.s.tagged) : PointOk v where
  authority := by
    have := h.authority
    omega
  balanced := by rw [hrecords]; exact h.balanced
  chain := by rw [hrecords]; exact h.chain
  first := by rw [hrecords]; exact h.first

theorem tagged_eq {s : Invocation} (h : s.cells.length = 2) :
    s.tagged = (s.cellAt 0).tag.toNat + (s.cellAt 1).tag.toNat := by
  obtain ⟨c₀, c₁, hc⟩ := List.length_eq_two.mp h
  simp only [Invocation.tagged, Invocation.cellAt, hc, List.countP_cons, List.countP_nil]
  change (0 + if c₁.tag = true then 1 else 0) + (if c₀.tag = true then 1 else 0) =
    c₀.tag.toNat + c₁.tag.toNat
  cases c₀.tag <;> cases c₁.tag <;> rfl

/-- A record of a balanced state is balanced. -/
theorem balanced_recordNow {env : Env} {g : Running} (hinv : g.s.Inv env)
    (hrefs : g.object.refs = 1 + g.s.tagged) (event : TraceEvent) (hevent : event ≠ .clear)
    (pc id : Nat) : ((Write.incSequence.apply g).recordNow event pc id).Balanced := by
  have hbalance := hinv.balance
  have htagged := tagged_eq hinv.cells_length
  refine ⟨?_, ?_⟩
  · change g.object.refs = 1 + (g.s.acquired : Int) - g.s.released
    omega
  · change (((g.s.cellAt 0).tag.toNat + (g.s.cellAt 1).tag.toNat : Nat) : Int) =
      g.s.acquired - g.s.released - (if event = .clear then 1 else 0)
    rw [if_neg hevent]
    omega

/-- Printing a record keeps the balance. -/
theorem Boundary.trace {env : Env} {g : Running} (h : Boundary env g) (event : TraceEvent)
    (hevent : event ≠ .clear) (pc id : Nat) : Boundary env (g.trace event pc id) where
  inv := h.inv.congr rfl rfl rfl rfl rfl rfl
  refs := h.refs
  logs := by
    have hlogs := h.logs.trace event (balanced_recordNow h.inv h.refs event hevent pc id) nofun
    rwa [if_neg hevent] at hlogs

/-- The points of a record. -/
theorem Boundary.points_trace {env : Env} {g u : Running} (h : Boundary env g) (event : TraceEvent)
    (hevent : event ≠ .clear) {pc id : Nat} (hu : u ∈ g.points (Running.traceWrites event pc id)) :
    PointOk u := by
  simp only [Running.points, Running.traceWrites, List.mem_cons, List.not_mem_nil, or_false] at hu
  rcases hu with rfl | rfl | rfl
  · exact h.point
  · exact h.point.of_slack rfl (Int.le_refl _)
  · exact (h.trace event hevent pc id).point

/-! ### The operations -/

section Operations

variable {env : Env} {g u : Running}

theorem Boundary.setFailed (h : Boundary env g) : Boundary env (Write.setFailed.apply g) where
  inv := h.inv.congr rfl rfl rfl rfl rfl rfl
  refs := h.refs
  logs := h.logs.congr rfl rfl

theorem Boundary.points_fail (h : Boundary env g) {pc : Nat}
    (hu : u ∈ g.points (Running.failWrites pc)) : PointOk u := by
  rw [Running.failWrites, Running.points, List.mem_cons] at hu
  rcases hu with rfl | hu
  · exact h.point
  · exact h.setFailed.points_trace .reject (by simp) hu

theorem Boundary.incReads (h : Boundary env g) : Boundary env g.countRead where
  inv := h.inv.congr rfl rfl rfl rfl rfl rfl
  refs := h.refs
  logs := h.logs.congr rfl rfl

/-- The acquisition counts first and publishes afterwards. -/
theorem Boundary.bound (h : Boundary env g) (hne : g.s.acquired ≠ 2)
    (hview : (g.s.viewFor env g.s.acquired).tag = true) (hobject : (objectCap env).tag = true)
    (line : LogLine) (hline : line.record? = none) : Boundary env
      ((g.bind g.s.acquired (objectCap env) (g.s.viewFor env g.s.acquired)).print line) := by
  have hinv := h.inv.bind hne hview hobject
  have hbefore := h.inv.balance
  have hafter := hinv.balance
  have hacq := h.inv.acquired_le
  have hinc : u32Inc g.s.acquired = g.s.acquired + 1 := u32Inc_of_lt (by omega)
  refine {
    inv := hinv.congr rfl rfl rfl rfl rfl rfl
    refs := ?_
    logs := h.logs.congr ?_ rfl }
  · have hrefs := h.refs
    change g.s.released + _ = u32Inc g.s.acquired at hafter
    change g.object.refs + 1 =
      1 + ((g.bind g.s.acquired (objectCap env) (g.s.viewFor env g.s.acquired)).s.tagged : Int)
    omega
  · rw [records_print, hline]
    exact List.append_nil _

theorem Boundary.points_bind (h : Boundary env g) (hne : g.s.acquired ≠ 2)
    (hview : (g.s.viewFor env g.s.acquired).tag = true) (hobject : (objectCap env).tag = true)
    {pc : Nat} (hu : u ∈ g.points (g.bindWrites env pc)) : PointOk u := by
  have hbound := h.bound hne hview hobject (.bind pc (g.s.acquired + 1)
    (g.s.cellAddr g.s.acquired) env.objectAddr (g.s.viewFor env g.s.acquired)) rfl
  have hlt : g.s.acquired < g.s.cells.length := by
    rw [h.inv.cells_length]
    exact Nat.lt_of_le_of_ne h.inv.acquired_le hne
  have hcount := countP_set hlt (objectCap env)
  have htagged : (g.s.cells.set g.s.acquired (objectCap env)).countP Capability.tag ≤
      g.s.tagged + 1 := by
    rw [hobject] at hcount
    simp only [Invocation.tagged, Bool.toNat_true] at hcount ⊢
    omega
  have hstored : g.object.refs - g.s.tagged ≤ g.object.refs + 1 -
      ((g.s.cells.set g.s.acquired (objectCap env)).countP Capability.tag : Int) := by
    omega
  have hcounted : g.object.refs - g.s.tagged ≤ g.object.refs + 1 - g.s.tagged := by omega
  rcases Running.mem_points_append hu with hu | hu
  · simp only [Running.points, List.mem_cons, List.not_mem_nil, or_false] at hu
    rcases hu with rfl | rfl | rfl | rfl | rfl | rfl
    · exact h.point
    · exact h.point.of_slack rfl hcounted
    · exact h.point.of_slack rfl hstored
    · exact h.point.of_slack rfl hstored
    · exact h.point.of_slack rfl hstored
    · exact hbound.point
  · exact hbound.points_trace .acquire (by simp) hu

section Consume

variable (h : Boundary env g) {i : Nat} (ht : (g.s.cellAt i).tag = true) (pc : Nat)

include h ht

/-- Clearing a cell leaves its reference without authority. -/
theorem tagged_clearCell : (g.clearCell i).s.tagged + 1 = g.s.tagged := by
  have hi : i < g.s.cells.length := by
    rw [h.inv.cells_length]
    exact Nat.lt_of_lt_of_le (h.inv.lt_acquired ht) h.inv.acquired_le
  have hcount := countP_set hi (g.s.cellAt i).tagClear
  change _ + (g.s.cellAt i).tag.toNat = _ at hcount
  rw [ht, tagClear_tag] at hcount
  exact hcount

/-- The `clear` record comes before the provider's decrement. -/
theorem logs_clear : Logs ((g.clearCell i).trace .clear pc (i + 1)).s (some (i + 1)) := by
  have hlogs : Logs (g.clearCell i).s none := h.logs.congr rfl rfl
  have htagged := tagged_clearCell h ht
  have hcells : (g.clearCell i).s.cells.length = 2 := by
    change (g.s.cells.set _ _).length = 2
    rw [List.length_set, h.inv.cells_length]
  have htags := tagged_eq hcells
  have hbalance := h.inv.balance
  have hrefs := h.refs
  apply hlogs.trace .clear ⟨?_, ?_⟩ nofun
  · change g.object.refs = 1 + (g.s.acquired : Int) - g.s.released
    omega
  · change ((((g.clearCell i).s.cellAt 0).tag.toNat + ((g.clearCell i).s.cellAt 1).tag.toNat : Nat) :
      Int) = g.s.acquired - g.s.released - 1
    omega

theorem Boundary.consume (b : Bool) : Boundary env (g.consume i pc b) := by
  have hinv := h.inv.consume pc b ht
  have htagged := tagged_clearCell h ht
  have hrefs : (g.consume i pc b).object.refs = 1 + (g.consume i pc b).s.tagged := by
    have hbefore := h.refs
    change g.object.refs - 1 = 1 + ((g.clearCell i).s.tagged : Int)
    omega
  refine ⟨hinv, hrefs, ?_⟩
  have hcleared := (logs_clear h ht pc).congr
    (t := ((((g.clearCell i).trace .clear pc (i + 1)).decRefs).countRelease b).s) rfl rfl
  have hreleased : ((((g.clearCell i).trace .clear pc (i + 1)).decRefs).countRelease b).s.Inv env :=
    hinv.congr rfl rfl rfl rfl rfl rfl
  cases b with
  | false =>
    exact hcleared.trace .release (balanced_recordNow hreleased hrefs .release nofun pc (i + 1))
      fun _ hann => ⟨.inl rfl, Option.some.inj hann⟩
  | true =>
    exact hcleared.trace .cleanup (balanced_recordNow hreleased hrefs .cleanup nofun pc (i + 1))
      fun _ hann => ⟨.inr rfl, Option.some.inj hann⟩

/-- A consumption clears first and gives back afterwards. -/
theorem Boundary.points_consume {b : Bool} (hu : u ∈ g.points (Running.consumeWrites i pc b)) :
    PointOk u := by
  have htagged := tagged_clearCell h ht
  have hrefs := h.refs
  have hlogs := logs_clear h ht pc
  have hclear : PointOk (g.clearCell i) := h.point.of_slack rfl (by
    change _ ≤ g.object.refs - ((g.clearCell i).s.tagged : Int)
    omega)
  have hprinted : PointOk ((g.clearCell i).trace .clear pc (i + 1)) := .of_logs hlogs (by
    change 1 + ((g.clearCell i).s.tagged : Int) ≤ g.object.refs
    omega)
  have hgiven : PointOk (((g.clearCell i).trace .clear pc (i + 1)).decRefs) :=
    .of_logs (hlogs.congr rfl rfl) (by
      change 1 + ((g.clearCell i).s.tagged : Int) ≤ g.object.refs - 1
      omega)
  have hdone := (h.consume ht pc b).point
  cases b with
  | false =>
    change u ∈ [_, _, _, _, _, _, _, _] at hu
    simp only [List.mem_cons, List.not_mem_nil, or_false] at hu
    rcases hu with rfl | rfl | rfl | rfl | rfl | rfl | rfl | rfl
    · exact h.point
    · exact hclear
    · exact hclear.of_slack rfl (Int.le_refl _)
    · exact hprinted
    · exact hgiven
    · exact hgiven.of_slack rfl (Int.le_refl _)
    · exact hgiven.of_slack rfl (Int.le_refl _)
    · exact hdone
  | true =>
    change u ∈ [_, _, _, _, _, _, _, _, _] at hu
    simp only [List.mem_cons, List.not_mem_nil, or_false] at hu
    rcases hu with rfl | rfl | rfl | rfl | rfl | rfl | rfl | rfl | rfl
    · exact h.point
    · exact hclear
    · exact hclear.of_slack rfl (Int.le_refl _)
    · exact hprinted
    · exact hgiven
    · exact hgiven.of_slack rfl (Int.le_refl _)
    · exact hgiven.of_slack rfl (Int.le_refl _)
    · exact hgiven.of_slack rfl (Int.le_refl _)
    · exact hdone

end Consume

end Operations

/-! ### Whole calls and the teardown -/

section Calls

variable {env : Env} {g u : Running}

/-- Every outcome of a gate call is balanced. -/
theorem Boundary.step (h : Boundary env g) {c : GateCall} {g' : Running} {result : Capability}
    (hs : GateStep env g c g' result) : Boundary env g' := by
  cases hs with
  | reject _ => exact h.setFailed.trace .reject (by simp) c.pc 0
  | null => exact h.trace .null (by simp) c.pc 0
  | acquire _ _ _ _ _ hne hview hobject =>
    exact (h.bound hne hview hobject _ rfl).trace .acquire (by simp) c.pc _
  | read i => exact h.incReads.trace .read (by simp) c.pc (i + 1)
  | release i _ _ _ _ _ ht => exact h.consume ht c.pc false

theorem Boundary.points_acquire (h : Boundary env g) {argument : Capability} {pc : Nat}
    (hu : u ∈ g.points (g.acquireWrites env argument pc)) : PointOk u := by
  unfold Running.acquireWrites at hu
  split at hu
  · exact h.points_fail hu
  · split at hu
    · exact h.points_trace .null (by simp) hu
    · split at hu
      · exact h.points_fail hu
      · rename_i hfull
        split at hu
        · exact h.points_fail hu
        · rename_i hexact
          obtain ⟨hview, hobject⟩ : (g.s.viewFor env g.s.acquired).tag = true ∧
              (objectCap env).tag = true := by simpa using hexact
          exact h.points_bind hfull hview hobject hu

theorem Boundary.points_use (h : Boundary env g) {argument : Capability} {operation pc : Nat}
    (hu : u ∈ g.points (g.useWrites argument operation pc)) : PointOk u := by
  unfold Running.useWrites at hu
  dsimp only at hu
  split at hu
  · exact h.points_fail hu
  · rename_i hfound
    have ht : (g.s.cellAt (g.findView argument)).tag = true := by
      simp only [Bool.or_eq_true, not_or, Bool.not_eq_true', Bool.not_eq_false] at hfound
      exact hfound.2
    split at hu
    · rw [Running.points, List.mem_cons] at hu
      rcases hu with rfl | hu
      · exact h.point
      · exact h.incReads.points_trace .read (by simp) hu
    · exact h.points_consume ht pc hu

/-- Between any two writes of a gate call. -/
theorem Boundary.points_gate (h : Boundary env g) {c : GateCall}
    (hu : u ∈ g.points (g.gateWrites env c)) : PointOk u := by
  unfold Running.gateWrites at hu
  split at hu
  · exact h.points_fail hu
  · split at hu
    · exact h.points_acquire hu
    · split at hu
      · exact h.points_fail hu
      · exact h.points_use hu

theorem Boundary.teardownCell (h : Boundary env g) (i : Nat) : Boundary env (g.teardownCell i) := by
  unfold Running.teardownCell
  split
  · rename_i ht
    exact h.consume ht u64Max true
  · exact h

theorem Boundary.points_teardownCell (h : Boundary env g) {i : Nat}
    (hu : u ∈ g.points (g.teardownCellWrites i)) : PointOk u := by
  unfold Running.teardownCellWrites at hu
  split at hu
  · rename_i ht
    exact h.points_consume ht u64Max hu
  · rw [List.mem_singleton.mp hu]
    exact h.point

/-- Between any two writes of the teardown loop, by induction on the passes to go. -/
theorem Boundary.teardownLoop (h : Boundary env g) (i k : Nat) :
    Boundary env (g.applyAll (g.teardownLoopWrites i k)) ∧
      ∀ u ∈ g.points (g.teardownLoopWrites i k), PointOk u := by
  induction k generalizing g i with
  | zero =>
    refine ⟨h, fun u hu => ?_⟩
    rw [List.mem_singleton.mp hu]
    exact h.point
  | succ k ih =>
    have hpass : Boundary env (g.applyAll (g.teardownCellWrites i)) := by
      rw [Running.applyAll_teardownCell]
      exact h.teardownCell i
    obtain ⟨hend, hpoints⟩ := ih hpass (i + 1)
    refine ⟨?_, fun u hu => ?_⟩
    · rw [Running.teardownLoopWrites, Running.applyAll_append]
      exact hend
    · rcases Running.mem_points_append hu with hu | hu
      · exact h.points_teardownCell hu
      · exact hpoints u hu

/-- Zeroing a cell spends no reference. -/
theorem tagged_storeNull (g : Running) (i : Nat) :
    ((Write.storeCell i .null).apply g).s.tagged ≤ g.s.tagged := by
  change (g.s.cells.set i .null).countP Capability.tag ≤ g.s.cells.countP Capability.tag
  by_cases hi : i < g.s.cells.length
  · have hcount := countP_set hi .null
    change _ + (g.s.cells.getD i .null).tag.toNat = _ + 0 at hcount
    omega
  · rw [List.set_eq_of_length_le (by omega)]

/-- The writes that follow the verdict's record print no record and take no reference. -/
theorem PointOk.points_quiet {g : Running} (h : PointOk g) {writes : List Write}
    (hquiet : ∀ w ∈ writes, (∃ line : LogLine, line.record? = none ∧ w = .print line) ∨
      (∃ i, w = .storeCell i .null) ∨ ∃ i, w = .storeView i .null) :
    ∀ u ∈ g.points writes, PointOk u := by
  induction writes generalizing g with
  | nil =>
    intro u hu
    rw [List.mem_singleton.mp hu]
    exact h
  | cons w writes ih =>
    intro u hu
    rw [Running.points, List.mem_cons] at hu
    rcases hu with rfl | hu
    · exact h
    have hnext : PointOk (w.apply g) := by
      rcases hquiet w List.mem_cons_self with ⟨line, hline, rfl⟩ | ⟨i, rfl⟩ | ⟨i, rfl⟩
      · refine h.of_slack ?_ (Int.le_refl _)
        change (g.print line).s.records = _
        rw [records_print, hline]
        exact List.append_nil _
      · refine h.of_slack rfl ?_
        have := tagged_storeNull g i
        change g.object.refs - g.s.tagged ≤
          g.object.refs - (((Write.storeCell i .null).apply g).s.tagged : Int)
        omega
      · exact h.of_slack rfl (Int.le_refl _)
    exact ih hnext (fun w hw => hquiet w (List.mem_cons_of_mem _ hw)) u hu

/-- Between any two writes of what follows the loop. -/
theorem Boundary.points_close (h : Boundary env g) {result : Nat}
    (hu : u ∈ g.points (g.closeWrites result)) : PointOk u := by
  unfold Running.closeWrites at hu
  rw [List.append_assoc] at hu
  -- the verdict
  obtain ⟨hverdict, hjudged⟩ : Boundary env (g.applyAll
      (if !g.s.entered || g.s.acquired ≠ g.s.released then [.setFailed] else [])) ∧
      (u ∈ g.points (if !g.s.entered || g.s.acquired ≠ g.s.released then [.setFailed] else []) →
        PointOk u) := by
    split
    · refine ⟨h.setFailed, fun hu => ?_⟩
      simp only [Running.points, List.mem_cons, List.not_mem_nil, or_false] at hu
      rcases hu with rfl | rfl
      · exact h.point
      · exact h.setFailed.point
    · refine ⟨h, fun hu => ?_⟩
      rw [List.mem_singleton.mp hu]
      exact h.point
  have hevent : (if g.judge.s.failed then TraceEvent.failed else .exit) ≠ .clear := by
    split <;> simp
  rcases Running.mem_points_append hu with hu | hu
  · exact hjudged hu
  rcases Running.mem_points_append hu with hu | hu
  · exact hverdict.points_trace _ hevent hu
  · refine (hverdict.trace _ hevent u64Max 0).point.points_quiet ?_ u hu
    intro w hw
    simp only [List.mem_cons, List.not_mem_nil, or_false] at hw
    rcases hw with rfl | rfl | rfl | rfl | rfl
    · exact .inl ⟨_, rfl, rfl⟩
    · exact .inr (.inl ⟨0, rfl⟩)
    · exact .inr (.inr ⟨0, rfl⟩)
    · exact .inr (.inl ⟨1, rfl⟩)
    · exact .inr (.inr ⟨1, rfl⟩)

/-- Between any two writes of the teardown. -/
theorem Boundary.points_teardown (h : Boundary env g) {result : Nat}
    (hu : u ∈ g.points (g.teardownWrites result)) : PointOk u := by
  obtain ⟨hend, hpoints⟩ := h.teardownLoop 0 g.s.acquired
  rcases Running.mem_points_append hu with hu | hu
  · exact hpoints u hu
  · exact hend.points_close hu

end Calls

/-! ### Sessions -/

/-- The states between the operations of an invocation that is the only one: it starts with the
provider's own reference, and then come entries and gate calls in any order. -/
inductive Session (env : Env) (prog cellsAddr : Nat) : Running → Prop
  | start (value : Int) : Session env prog cellsAddr ⟨⟨value, 1⟩, .zeroed prog cellsAddr⟩
  | enter {g : Running} {s' : Invocation} {ctx : EnterContext} {a : EnterArgs} {e : Entry} :
      Session env prog cellsAddr g → cbpfEnter env ctx a g.s = .ok (s', e) →
      Session env prog cellsAddr ⟨g.object, s'⟩
  | gate {g : Running} (c : GateCall) : Session env prog cellsAddr g →
      Session env prog cellsAddr (g.call env c).1

/-- The states between two writes of a gate call or of the teardown. -/
inductive Point (env : Env) (prog cellsAddr : Nat) (u : Running) : Prop
  | gate {g : Running} (c : GateCall) : Session env prog cellsAddr g →
      u ∈ g.points (g.gateWrites env c) → Point env prog cellsAddr u
  | teardown {g : Running} (result : Nat) : Session env prog cellsAddr g →
      u ∈ g.points (g.teardownWrites result) → Point env prog cellsAddr u

theorem boundary_start (env : Env) (value : Int) (prog cellsAddr : Nat) :
    Boundary env ⟨⟨value, 1⟩, .zeroed prog cellsAddr⟩ where
  inv := .zeroed env prog cellsAddr
  refs := rfl
  logs := {
    balanced := fun r hr => by cases hr
    chain := .nil
    first := fun r hr => by cases hr
    last := fun r hr => by cases hr
    fresh := fun _ => ⟨rfl, rfl⟩ }

/-- Entering prints a line that is no record and touches neither cells nor counters. -/
theorem Boundary.enter {env : Env} {g : Running} {s' : Invocation} {ctx : EnterContext}
    {a : EnterArgs} {e : Entry} (h : Boundary env g)
    (henter : cbpfEnter env ctx a g.s = .ok (s', e)) : Boundary env ⟨g.object, s'⟩ := by
  obtain ⟨_, _, rfl⟩ := cbpfEnter_ok henter
  refine ⟨h.inv.congr rfl rfl rfl rfl rfl rfl, h.refs, h.logs.congr ?_ rfl⟩
  exact (records_print g (enterLine ctx a)).trans (List.append_nil _)

theorem Session.boundary {env : Env} {prog cellsAddr : Nat} {g : Running}
    (h : Session env prog cellsAddr g) : Boundary env g := by
  induction h with
  | start value => exact boundary_start env value prog cellsAddr
  | enter _ henter ih => exact ih.enter henter
  | gate c _ ih => exact ih.step (call_step env _ c)

theorem Point.ok {env : Env} {prog cellsAddr : Nat} {u : Running}
    (h : Point env prog cellsAddr u) : PointOk u := by
  cases h with
  | gate c hs hu => exact hs.boundary.points_gate hu
  | teardown result hs hu => exact hs.boundary.points_teardown hu

/-- A torn down invocation has printed one more record, and no `clear` is left open. -/
theorem Boundary.logs_teardown {env : Env} {g : Running} (h : Boundary env g) (result : Nat) :
    Logs (g.teardown result).1.s none := by
  have hloop := (h.teardownLoop 0 g.s.acquired).1
  rw [Running.applyAll_teardownLoop, ← List.range_eq_range'] at hloop
  unfold Running.teardown
  generalize (List.range g.s.acquired).foldl Running.teardownCell g = v at hloop ⊢
  have hjudged : Boundary env v.judge := by
    unfold Running.judge
    split
    · exact hloop.setFailed
    · exact hloop
  have hevent : (if v.judge.s.failed then TraceEvent.failed else .exit) ≠ .clear := by
    split <;> simp
  have htraced := (hjudged.trace _ hevent u64Max 0).logs
  refine htraced.congr ?_ rfl
  exact (records_print _ (.result result _ _ _)).trans (List.append_nil _)

/-- The writes of a call and of the teardown add up to what they leave. -/
theorem Session.writes {env : Env} {prog cellsAddr : Nat} {g : Running}
    (h : Session env prog cellsAddr g) :
    (∀ c, g.applyAll (g.gateWrites env c) = (g.call env c).1) ∧
      ∀ result, g.applyAll (g.teardownWrites result) = (g.teardown result).1 := by
  refine ⟨Running.applyAll_gateWrites g env, fun result => ?_⟩
  have hloop := (h.boundary.teardownLoop 0 g.s.acquired).1.inv
  rw [Running.applyAll_teardownLoop, ← List.range_eq_range'] at hloop
  exact Running.applyAll_teardown g result hloop.cells_length hloop.views_length

/-- Authority never outlives or precedes its reference, and the printed records show it: between
any two writes of an invocation that runs alone the provider holds one reference more than there
are tagged cells; when no operation is in progress, every `clear` has been followed up. The writes
are those of the gate calls and of the teardown: each list adds up to what the call leaves, and the
points are what its prefixes leave. -/
theorem authority_within_reference (env : Env) (prog cellsAddr : Nat) :
    (∀ u, Point env prog cellsAddr u → PointOk u) ∧
    ∀ g, Session env prog cellsAddr g →
      (∀ u, (u = g ∨ ∃ result, u = (g.teardown result).1) →
        (∀ r ∈ u.s.records, r.Balanced) ∧ u.s.records.IsChain Follows ∧
        (∀ r ∈ u.s.records.head?, r.seq = 1) ∧
        ∀ r ∈ u.s.records.getLast?, r.event ≠ .clear) ∧
      (∀ c, g.applyAll (g.gateWrites env c) = (g.call env c).1) ∧
      (∀ result, g.applyAll (g.teardownWrites result) = (g.teardown result).1) ∧
      ∀ writes u, u ∈ g.points writes ↔ ∃ done, done <+: writes ∧ u = g.applyAll done := by
  refine ⟨fun u hu => hu.ok, fun g hg => ?_⟩
  obtain ⟨hcalls, hteardown⟩ := hg.writes
  refine ⟨fun u hu => ?_, hcalls, hteardown, fun _ _ => Running.mem_points⟩
  have hlogs : Logs u.s none := by
    rcases hu with rfl | ⟨result, rfl⟩
    · exact hg.boundary.logs
    · exact hg.boundary.logs_teardown result
  refine ⟨hlogs.balanced, hlogs.chain, hlogs.first, fun r hr hclear => ?_⟩
  have hpending := (hlogs.last r hr).2
  rw [TraceRecord.pending, if_pos hclear] at hpending
  cases hpending

/-- The session in which the program acquires one object and leaks it. -/
theorem leaking_session : Session flatEnv 7 12288 leaking := by
  have hentry : ∃ e, cbpfEnter flatEnv flatContext flatEntry (.zeroed 7 12288) =
      .ok (enteredInvocation, e) := ⟨_, rfl⟩
  obtain ⟨e, hentry⟩ := hentry
  have hstart : Session flatEnv 7 12288 ⟨⟨42, 1⟩, .zeroed 7 12288⟩ := .start 42
  exact (hstart.enter hentry).gate ⟨.null, 1, 3⟩

/-- The leaked cell is cleared by the teardown: with the tag gone and the reference still counted,
the provider holds two references for no tagged cell. -/
theorem authority_within_reference_leak :
    PointOk (leaking.clearCell 0) ∧ (leaking.clearCell 0).s.tagged = 0 ∧
      (leaking.clearCell 0).object.refs = 2 ∧
      ∀ r ∈ (leaking.teardown 0).1.s.records.getLast?, r.event ≠ .clear := by
  obtain ⟨hpoints, hdone⟩ := authority_within_reference flatEnv 7 12288
  have hpoint : leaking.clearCell 0 ∈ leaking.points (leaking.teardownWrites 0) :=
    List.mem_cons_of_mem _ List.mem_cons_self
  exact ⟨hpoints _ (.teardown 0 leaking_session hpoint), rfl, rfl,
    ((hdone leaking leaking_session).1 _ (.inr ⟨0, rfl⟩)).2.2.2⟩

end Cbpf.Kernel
