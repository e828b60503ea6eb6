import Cbpf.Conformance.Check
import Cbpf.Model.Depth
import Cbpf.Model.Count

/-!
# What the conformance check covers (`docs/results/conformance.md`, "Recorded coverage")

For every host with the documented bounds `check` ends, and a dictionary that it returns does not
depend on the host: it has worked on one shortest history of each active state. Over the reference
and over the gate it never raises.
-/

namespace Cbpf.Conformance

open Model

/-- The bounds that `check` requires. -/
structure Host.Documented (host : Host) : Prop where
  registers : host.info .registers = 4
  spills : host.info .spills = 2
  acquisitions : host.info .acquisitions = 2

theorem documented_built (pointerBytes : Nat) (gate : Bool) :
    (Host.built pointerBytes gate).Documented := by
  cases gate <;> exact ⟨rfl, rfl, rfl⟩

/-! ### The nodes of the search -/

section Nodes

variable {ids : InfoName → Int} {host : Host} {run : Replay} {e : Edge} {path : List Edge} {T : State}

/-- An edge of the model is never rejected, whatever the other constants. -/
theorem appendEdge_of_mem (hids : ids .acquisitions = 2) (scalar : Int)
    (hwf : WellFormed run.state 2) (he : e ∈ transitions run.state 2 false) :
    appendEdge ids scalar run e = some (run.append ids scalar e) := by
  obtain ⟨ha, hy⟩ := mem_transitions.mp he
  have hstate := stateError_eq_none.mpr (hwf.edge ha hy)
  have hedge := edgeError_of_yields hwf ha hy
  rw [appendEdge, hids]
  simp only [show (2 : Int).toNat = 2 from rfl, hstate, hedge, Option.isSome_none,
    Bool.false_eq_true, or_self, if_false]

theorem eq_append_of_appendEdge {scalar : Int} {successor : Replay}
    (h : appendEdge ids scalar run e = some successor) : successor = run.append ids scalar e := by
  rw [appendEdge] at h
  split at h
  · cases h
  · exact (Option.some.inj h).symm

/-- What an edge pushes. -/
theorem push_eq_some {successor : Replay} :
    (checker host).push run e = some successor ↔
      appendEdge host.info 7 run e = some successor ∧ successor.state.terminal = .active := by
  simp [checker, Option.filter_eq_some_iff]

/-- The first node. -/
def startRun : Replay := .start (State.initial 4 2)

/-- A node of the search: the replay of a history that is still active. -/
structure Follows (host : Host) (path : List Edge) (run : Replay) : Prop where
  history : Path 2 false (State.initial 4 2) path run.state
  active : run.state.terminal = .active
  replayed : replay host.info 7 startRun path = some run
  length : run.code.length = path.length

theorem follows_of_reached (hb : host.Documented) (h : (checker host).Reached startRun run) :
    ∃ path, Follows host path run := by
  induction h with
  | start => exact ⟨[], .nil, rfl, rfl, rfl⟩
  | @push run successor e _ he hpush ih =>
    obtain ⟨path, hpath⟩ := ih
    obtain ⟨happend, hactive⟩ := push_eq_some.mp hpush
    have he' : e ∈ transitions run.state 2 false := by
      have := he
      simp only [checker, hb.acquisitions] at this
      exact this
    obtain rfl := eq_append_of_appendEdge happend
    refine ⟨path ++ [e], hpath.history.snoc he', hactive, ?_, ?_⟩
    · rw [replay_snoc hpath.replayed, happend]
    · rw [List.length_append, ← hpath.length]
      simp [Replay.append]

/-- Every history of an active state leads to a node. -/
theorem reached_of_path (hb : host.Documented) (hpath : Path 2 false (State.initial 4 2) path T)
    (ha : T.terminal = .active) :
    ∃ run, (checker host).Reached startRun run ∧ run.state = T ∧ run.code.length = path.length := by
  induction hpath with
  | nil => exact ⟨startRun, .start, rfl, rfl⟩
  | @snoc path t e hpath he ih =>
    obtain ⟨run, hrun, rfl, hlen⟩ := ih (mem_transitions.mp he).1
    have happend := appendEdge_of_mem hb.acquisitions 7 (wellFormed_of_reachable hpath.reachable) he
    have hpush : (checker host).push run e = some (run.append host.info 7 e) :=
      push_eq_some.mpr ⟨happend, ha⟩
    refine ⟨_, .push hrun (by simpa [checker, hb.acquisitions] using he) hpush, rfl, ?_⟩
    simp [Replay.append, hlen]

theorem ranked_checker (hb : host.Documented) :
    (checker host).Ranked startRun fun run => run.code.length where
  start := rfl
  push := by
    intro run e successor hpush
    obtain rfl := eq_append_of_appendEdge (push_eq_some.mp hpush).1
    simp [Replay.append]
  same := by
    intro run run' e successor hrun hrun' hkey he hpush
    have hkey' : run.state = run'.state := hkey
    obtain ⟨path', hpath'⟩ := follows_of_reached hb hrun'
    obtain ⟨happend, hactive⟩ := push_eq_some.mp hpush
    obtain rfl := eq_append_of_appendEdge happend
    have he' : e ∈ transitions run'.state 2 false := by
      simpa [checker, hb.acquisitions, hkey'] using he
    have hwf := wellFormed_of_reachable hpath'.history.reachable
    refine ⟨e, by simpa [checker, hb.acquisitions] using he', run'.append host.info 7 e, ?_, rfl⟩
    exact push_eq_some.mpr ⟨appendEdge_of_mem hb.acquisitions 7 hwf he', hactive⟩

/-- The depth of a node that was reached soonest. -/
theorem depth_le_of_soonest (hb : host.Documented)
    (h : (checker host).Soonest startRun (fun run => run.code.length) run) :
    run.code.length ≤ 9 := by
  obtain ⟨path, hfollows⟩ := follows_of_reached hb h.1
  have hdescribed := described_of_reachable hfollows.history.reachable
  have hbudget := (stateError_eq_none.mp hdescribed.passes).budget
  obtain ⟨short, hshort, hle⟩ := hdescribed.active_history hfollows.active (by omega)
  obtain ⟨run', hrun', hstate, hlen⟩ := reached_of_path hb hshort hfollows.active
  have hdepth : run.code.length ≤ run'.code.length := h.2 run' hrun' hstate
  rw [planLength] at hle
  omega

end Nodes

/-! ### The work on one node -/

/-- The terminal state in which the program of an edge ends. -/
def outcomeOf (e : Edge) : Terminal := if e.target.terminal = .active then .ret else e.target.terminal

/-- The replay that `finish` completes. -/
def completedBy (ids : InfoName → Int) (run : Replay) (e : Edge) : Replay :=
  let successor := run.append ids 7 e
  if successor.state.terminal ≠ .active then successor
  else successor.append ids 7 (finishEdge successor.state)

/-- The instructions behind the history in the program of an edge: its own, and an exit unless it is
`finish` itself. -/
def edgeLength (e : Edge) : Nat := if e.target.terminal = .ret then 1 else 2

section Work

variable {host : Host} {run : Replay} {e : Edge} {path : List Edge} {t t' : Tally}

/-- What an edge that matches adds to the tally. -/
def Tally.edge (t : Tally) (run : Replay) (e : Edge) : Tally where
  activeStates := t.activeStates
  terminalStates := if e.target.terminal ≠ .active then insert e.target t.terminalStates
    else t.terminalStates
  edgeCount := t.edgeCount + 1
  maxLength := max t.maxLength (run.code.length + edgeLength e)
  branches := t.branches
  observations := bump t.observations (outcomeOf e)

/-- What a branch that matches adds to the tally. -/
def Tally.register (t : Tally) (run : Replay) (register : Nat) : Tally :=
  { t with
    branches := bump t.branches (branchOf run.state register)
    maxLength := max t.maxLength (run.code.length + 3) }

theorem complete_of_follows (hb : host.Documented) (h : Follows host path run)
    (he : e ∈ transitions run.state 2 false) :
    complete host.info 7 (run.append host.info 7 e) = some (completedBy host.info run e) := by
  obtain ⟨hactive, hy⟩ := mem_transitions.mp he
  have hwf := (wellFormed_of_reachable h.history.reachable).edge hactive hy
  rw [complete, completedBy]
  by_cases ha : (run.append host.info 7 e).state.terminal = .active
  · simp only [ha, ne_eq, not_true_eq_false, if_false]
    exact appendEdge_of_mem hb.acquisitions 7 hwf (mem_transitions.mpr ⟨ha, .finish⟩)
  · simp only [ha, ne_eq, not_false_eq_true, if_true]

theorem terminal_completedBy (ids : InfoName → Int) (run : Replay) (e : Edge) :
    (completedBy ids run e).state.terminal = outcomeOf e := by
  have hstate : (run.append ids 7 e).state.terminal = e.target.terminal := rfl
  rw [completedBy, outcomeOf]
  by_cases ha : e.target.terminal = .active
  · simp only [hstate, ha, ne_eq, not_true_eq_false, if_false, if_true]
    rfl
  · simp only [hstate, ha, ne_eq, not_false_eq_true, if_true, if_false]

theorem length_observedCode (ids : InfoName → Int) (run : Replay) (e : Edge) :
    (observedCode ids (completedBy ids run e)).length = run.code.length + edgeLength e := by
  have hterminal := terminal_completedBy ids run e
  rw [observedCode, List.length_append, hterminal, outcomeOf, edgeLength, completedBy]
  by_cases ha : e.target.terminal = .active
  · simp [ha, Replay.append]
  · by_cases hret : e.target.terminal = .ret <;> simp [ha, hret, Replay.append]

/-- The work on an edge: one comparison, and then the tally. -/
theorem visitEdge_eq (hb : host.Documented) (h : Follows host path run)
    (he : e ∈ transitions run.state 2 false) (t : Tally) :
    visitEdge host run e t = (requireMatch host (observedCode host.info (completedBy host.info run e))
      (completedBy host.info run e)).map fun _ => t.edge run e := by
  have hwf := wellFormed_of_reachable h.history.reachable
  have hstate : (run.append host.info 7 e).state = e.target := rfl
  simp only [visitEdge, appendEdge_of_mem hb.acquisitions 7 hwf he, complete_of_follows hb h he,
    Option.bind_eq_bind, Option.bind_some, hstate, terminal_completedBy, length_observedCode]
  cases requireMatch host (observedCode host.info (completedBy host.info run e))
    (completedBy host.info run e) <;> rfl

/-- The branch is the one that the register decides. -/
theorem branchCase_eq (hb : host.Documented) (h : Follows host path run) (r : Nat) :
    branchCase host run r = (requireMatch host (branchCode host.info run r)
      ((branched host.info run r).append host.info (branchScalar run.state r)
        (finishEdge run.state))).map fun _ => branchOf run.state r := by
  have hwf : WellFormed (branched host.info run r).state 2 :=
    wellFormed_of_reachable h.history.reachable
  have hfinish : finishEdge run.state ∈ transitions (branched host.info run r).state 2 false :=
    mem_transitions.mpr ⟨h.active, .finish⟩
  simp only [branchCase, appendEdge_of_mem hb.acquisitions _ hwf hfinish, Option.bind_eq_bind,
    Option.bind_some]
  cases requireMatch host (branchCode host.info run r)
    ((branched host.info run r).append host.info (branchScalar run.state r)
      (finishEdge run.state)) <;> rfl

theorem visitRegister_eq (hb : host.Documented) (h : Follows host path run) (t : Tally) (r : Nat) :
    visitRegister host run t r = (branchCase host run r).map fun _ => t.register run r := by
  rw [visitRegister, branchCase_eq hb h]
  cases requireMatch host (branchCode host.info run r)
    ((branched host.info run r).append host.info (branchScalar run.state r)
      (finishEdge run.state)) <;> rfl

/-- A loop whose passes raise or update the tally whatever it is. -/
theorem foldlM_eq_some {α β τ : Type} {g : τ → α → Option τ} {m : α → Option β} {f : τ → α → τ}
    {l : List α} (hg : ∀ a ∈ l, ∀ t, g t a = (m a).map fun _ => f t a) (t t' : τ) :
    l.foldlM g t = some t' ↔ (∀ a ∈ l, (m a).isSome) ∧ t' = l.foldl f t := by
  induction l generalizing t with
  | nil =>
    simp only [List.foldlM_nil, List.foldl_nil, List.not_mem_nil, false_imp_iff, implies_true, true_and]
    exact Option.some_inj.trans eq_comm
  | cons a l ih =>
    have htail := ih fun a' ha' => hg a' (List.mem_cons_of_mem a ha')
    rw [List.foldlM_cons, hg a List.mem_cons_self]
    cases hm : m a with
    | none => simp [hm]
    | some b =>
      simp only [Option.map_some, Option.bind_eq_bind, Option.bind_some, htail, List.foldl_cons,
        List.forall_mem_cons, hm, Option.isSome_some, true_and]

theorem requireMatch_isSome {code : List InsnRow} : (requireMatch host code run).isSome ↔
    ∃ words, expected host.info run = some words ∧ host.observe code = some words := by
  simp only [requireMatch, Option.bind_eq_bind]
  cases host.observe code with
  | none => simp
  | some actual =>
    cases expected host.info run with
    | none => simp
    | some wanted =>
      by_cases h : actual = wanted
      · simp [h]
      · simp [h]

/-- The host answered as expected to the program of every edge and of every branch of a node. -/
structure Matched (host : Host) (run : Replay) : Prop where
  edges : ∀ e ∈ transitions run.state 2 false, ∃ words,
    expected host.info (completedBy host.info run e) = some words ∧
      host.observe (observedCode host.info (completedBy host.info run e)) = some words
  branches : ∀ r < 4, ∃ words, expected host.info ((branched host.info run r).append host.info
      (branchScalar run.state r) (finishEdge run.state)) = some words ∧
    host.observe (branchCode host.info run r) = some words

/-- What a node that matches adds to the tally. -/
def Tally.node (t : Tally) (run : Replay) : Tally :=
  (List.range 4).foldl (fun t r => t.register run r)
    ((transitions run.state 2 false).foldl (fun t e => t.edge run e)
      { t with activeStates := t.activeStates + 1 })

theorem process_eq_some (hb : host.Documented) (h : Follows host path run) (t t' : Tally) :
    (checker host).process t run = some t' ↔ Matched host run ∧ t' = t.node run := by
  have hedges := foldlM_eq_some (l := transitions run.state 2 false)
    (fun e he t => visitEdge_eq hb h he t)
  have hregisters := foldlM_eq_some (l := List.range 4) (fun r _ t => visitRegister_eq hb h t r)
  simp only [Worklist.process, checker, hb.acquisitions, hb.registers, Option.bind_eq_some_iff,
    show (2 : Int).toNat = 2 from rfl, show (4 : Int).toNat = 4 from rfl, hedges, hregisters,
    branchCase_eq hb h, Option.isSome_map, requireMatch_isSome, List.mem_range]
  constructor
  · rintro ⟨u, ⟨hedge, rfl⟩, hbranch, rfl⟩
    exact ⟨⟨hedge, hbranch⟩, rfl⟩
  · rintro ⟨hmatched, rfl⟩
    exact ⟨_, ⟨hmatched.edges, rfl⟩, hmatched.branches, rfl⟩

end Work

/-! ### The tally of a run -/

theorem bump_apply {α : Type} [DecidableEq α] (counter : α → Nat) (x y : α) :
    bump counter x y = counter y + if x = y then 1 else 0 := by
  rw [bump, Function.update_apply]
  by_cases h : y = x
  · rw [if_pos h, if_pos h.symm, h]
  · rw [if_neg h, if_neg (Ne.symm h)]
    rfl

section Fields

variable (run : Replay) (t : Tally)

/-- The tally after some edges of a node. -/
theorem edges_tally (es : List Edge) :
    (es.foldl (fun t e => t.edge run e) t).activeStates = t.activeStates ∧
    (es.foldl (fun t e => t.edge run e) t).edgeCount = t.edgeCount + es.length ∧
    (es.foldl (fun t e => t.edge run e) t).branches = t.branches ∧
    (∀ s, s ∈ (es.foldl (fun t e => t.edge run e) t).terminalStates ↔ s ∈ t.terminalStates ∨
      ∃ e ∈ es, e.target = s ∧ s.terminal ≠ .active) ∧
    (∀ m, (es.foldl (fun t e => t.edge run e) t).maxLength ≤ m ↔ t.maxLength ≤ m ∧
      ∀ e ∈ es, run.code.length + edgeLength e ≤ m) ∧
    ∀ T, (es.foldl (fun t e => t.edge run e) t).observations T =
      t.observations T + es.countP (outcomeOf · = T) := by
  induction es generalizing t with
  | nil => simp
  | cons e es ih =>
    obtain ⟨hactive, hedges, hbranches, hterminals, hlength, hobservations⟩ := ih (t.edge run e)
    rw [List.foldl_cons]
    refine ⟨hactive, ?_, hbranches, fun s => ?_, fun m => ?_, fun T => ?_⟩
    · rw [hedges, List.length_cons]
      exact (Nat.add_assoc _ _ _).trans (congrArg _ (Nat.add_comm _ _))
    · rw [hterminals, Tally.edge]
      by_cases ha : e.target.terminal = .active
      · simp only [ha, ne_eq, not_true_eq_false, if_false, List.exists_mem_cons_iff]
        refine or_congr_right (or_iff_right ?_).symm
        rintro ⟨rfl, hne⟩
        exact hne ha
      · simp only [ha, ne_eq, not_false_eq_true, if_true, Finset.mem_insert,
          List.exists_mem_cons_iff]
        constructor
        · rintro ((rfl | hs) | hs)
          · exact .inr (.inl ⟨rfl, ha⟩)
          · exact .inl hs
          · exact .inr (.inr hs)
        · rintro (hs | ⟨rfl, _⟩ | hs)
          · exact .inl (.inr hs)
          · exact .inl (.inl rfl)
          · exact .inr hs
    · rw [hlength, Tally.edge, List.forall_mem_cons, Nat.max_le, and_assoc]
    · have hone : (t.edge run e).observations T = t.observations T +
          if outcomeOf e = T then 1 else 0 := bump_apply _ _ _
      rw [hobservations, hone, List.countP_cons]
      simp only [decide_eq_true_eq]
      omega

/-- The tally after some branches of a node. -/
theorem registers_tally (rs : List Nat) :
    (rs.foldl (fun t r => t.register run r) t).activeStates = t.activeStates ∧
    (rs.foldl (fun t r => t.register run r) t).edgeCount = t.edgeCount ∧
    (rs.foldl (fun t r => t.register run r) t).terminalStates = t.terminalStates ∧
    (rs.foldl (fun t r => t.register run r) t).observations = t.observations ∧
    (∀ m, (rs.foldl (fun t r => t.register run r) t).maxLength ≤ m ↔ t.maxLength ≤ m ∧
      ∀ r ∈ rs, run.code.length + 3 ≤ m) ∧
    ∀ b, (rs.foldl (fun t r => t.register run r) t).branches b =
      t.branches b + rs.countP (branchOf run.state · = b) := by
  induction rs generalizing t with
  | nil => simp
  | cons r rs ih =>
    obtain ⟨hactive, hedges, hterminals, hobservations, hlength, hbranches⟩ := ih (t.register run r)
    rw [List.foldl_cons]
    refine ⟨hactive, hedges, hterminals, hobservations, fun m => ?_, fun b => ?_⟩
    · rw [hlength, Tally.register, List.forall_mem_cons, Nat.max_le, and_assoc]
    · have hone : (t.register run r).branches b = t.branches b +
          if branchOf run.state r = b then 1 else 0 := bump_apply _ _ _
      rw [hbranches, hone, List.countP_cons]
      simp only [decide_eq_true_eq]
      omega

end Fields

/-- The registers of a state that decide a branch. -/
def branchCount (b : Branch) (s : State) : Nat := (List.range 4).countP (branchOf s · = b)

/-- The edges of a state whose programs end with an outcome. -/
def outcomeCount (T : Terminal) (s : State) : Nat :=
  (transitions s 2 false).countP (outcomeOf · = T)

/-- What the tally holds after the nodes of a list. -/
structure Tallied (nodes : List Replay) (t : Tally) : Prop where
  active : t.activeStates = nodes.length
  edges : t.edgeCount = (nodes.map fun run => (transitions run.state 2 false).length).sum
  branches : ∀ b, t.branches b = (nodes.map fun run => branchCount b run.state).sum
  observations : ∀ T, t.observations T = (nodes.map fun run => outcomeCount T run.state).sum
  terminals : ∀ s, s ∈ t.terminalStates ↔ ∃ run ∈ nodes, ∃ e ∈ transitions run.state 2 false,
    e.target = s ∧ s.terminal ≠ .active
  length : ∀ m, t.maxLength ≤ m ↔ ∀ run ∈ nodes, run.code.length + 3 ≤ m

theorem tallied_zero : Tallied [] .zero where
  active := rfl
  edges := rfl
  branches := fun _ => rfl
  observations := fun _ => rfl
  terminals := by simp [Tally.zero]
  length := by simp [Tally.zero]

theorem edgeLength_le (e : Edge) : edgeLength e ≤ 2 := by
  rw [edgeLength]
  split <;> omega

theorem Tallied.node {nodes : List Replay} {t : Tally} (h : Tallied nodes t) (run : Replay) :
    Tallied (nodes ++ [run]) (t.node run) := by
  obtain ⟨hactive, hedges, hbranches, hterminals, hlength, hobservations⟩ :=
    edges_tally run { t with activeStates := t.activeStates + 1 } (transitions run.state 2 false)
  obtain ⟨hactive', hedges', hterminals', hobservations', hlength', hbranches'⟩ :=
    registers_tally run ((transitions run.state 2 false).foldl (fun t e => t.edge run e)
      { t with activeStates := t.activeStates + 1 }) (List.range 4)
  refine ⟨?_, ?_, fun b => ?_, fun T => ?_, fun s => ?_, fun m => ?_⟩
  · rw [Tally.node, hactive', hactive, h.active, List.length_append, List.length_singleton]
  · rw [Tally.node, hedges', hedges, h.edges]
    simp
  · rw [Tally.node, hbranches', hbranches, h.branches]
    simp [branchCount]
  · rw [Tally.node, hobservations', hobservations, h.observations]
    simp [outcomeCount]
  · rw [Tally.node, hterminals', hterminals, h.terminals]
    simp [or_and_right, exists_or]
  · rw [Tally.node, hlength', hlength, h.length]
    simp only [List.mem_append, List.mem_singleton, or_imp, forall_and, forall_eq, List.mem_range]
    constructor
    · rintro ⟨⟨hnodes, _⟩, hregisters⟩
      exact ⟨hnodes, hregisters 0 (by decide)⟩
    · rintro ⟨hnodes, hrun⟩
      refine ⟨⟨hnodes, fun e _ => ?_⟩, fun _ _ => hrun⟩
      have := edgeLength_le e
      omega

/-- The tally of nodes that were all worked on. -/
theorem tallied_of_worked {host : Host} (hb : host.Documented) {nodes : List Replay} {t : Tally}
    (hreached : ∀ run ∈ nodes, (checker host).Reached startRun run)
    (h : nodes.foldlM (checker host).process .zero = some t) :
    Tallied nodes t ∧ ∀ run ∈ nodes, Matched host run := by
  induction nodes using List.reverseRecOn generalizing t with
  | nil =>
    obtain rfl := Option.some.inj h
    exact ⟨tallied_zero, nofun⟩
  | append_singleton nodes run ih =>
    rw [List.foldlM_append] at h
    obtain ⟨u, hu, hlast⟩ := Option.bind_eq_some_iff.mp h
    obtain ⟨htallied, hmatched⟩ := ih (fun run' hrun' => hreached run' (List.mem_append_left _ hrun')) hu
    obtain ⟨path, hfollows⟩ := follows_of_reached hb (hreached run (by simp))
    have hprocess : (checker host).process u run = some t := by simpa using hlast
    obtain ⟨hrun, rfl⟩ := (process_eq_some hb hfollows u t).mp hprocess
    refine ⟨htallied.node run, fun run' hrun' => ?_⟩
    rcases List.mem_append.mp hrun' with hrun' | hrun'
    · exact hmatched run' hrun'
    · rwa [List.mem_singleton.mp hrun']

end Cbpf.Conformance
