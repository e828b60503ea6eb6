import Cbpf.Model.EdgeCheck
import Cbpf.Lib.BreadthFirst

/-!
# The explorer (`theory/check_model.py:214-244`, `theory/ownership.md`, "Exhaustive finite check")

`explore` is the breadth-first search over the graph of `transitions`, in which every edge is checked
with `state_error` on its target and `edge_error`. The checks themselves bound the search: a state
that passes has a bounded number of cells, effects that are 0 or 1 and a determined count.
-/

namespace Cbpf.Model

/-! ### The texts of a history -/

def Kind.text : Kind → String
  | .acquire => "acquire"
  | .acquireNull => "acquire_null"
  | .copy => "copy"
  | .reload => "reload"
  | .spill => "spill"
  | .read => "read"
  | .release => "release"
  | .finish => "finish"

def Outcome.text : Outcome → String
  | .success => "success"
  | .exhaustion => "exhaustion"
  | .null => "null"
  | .stale => "stale"
  | .copied => "copied"
  | .fortyTwo => "42"
  | .consumed => "consumed"
  | .ret => "return"
  | .other text => text

/-- `Edge.label`. -/
def Edge.label (e : Edge) : String :=
  let operands := ",".intercalate (e.args.map toString)
  s!"{e.kind.text}({operands}): {e.result.text}"

/-! ### The search -/

/-- `state_error(edge.target, capacity) or edge_error(state, edge, capacity)`. -/
def edgeFault (capacity : Nat) (s : State) (e : Edge) : Option String :=
  (stateError e.target capacity).or (edgeError s e capacity)

/-- The graph `explore` searches. -/
def explorer (capacity : Nat) (mutation : Bool) : BreadthFirst.Graph State Edge String String where
  edges s := transitions s capacity mutation
  target := Edge.target
  label := Edge.label
  error := edgeFault capacity
  final s := s.terminal != .active

/-- The dictionary `explore` returns. `rejected` is the one without counts. -/
inductive Exploration where
  | rejected (error : String)
  | finished (answer : BreadthFirst.Answer String String)
  deriving DecidableEq, Repr

/-- The entry `verified`. -/
def Exploration.verified : Exploration → Bool
  | .rejected _ => false
  | .finished (.verified ..) => true
  | .finished (.failed ..) => false

/-- `explore`, for at most `fuel` rounds of its loop. -/
def explore (fuel registers spills capacity : Nat) (mutation : Bool) : Option Exploration :=
  let initial := State.initial registers spills
  match stateError initial capacity with
  | some error => some (.rejected error)
  | none => ((explorer capacity mutation).search fuel (.start initial)).map .finished

/-- `explore` returns `result`: it ends after finitely many rounds. -/
def Explores (registers spills capacity : Nat) (mutation : Bool) (result : Exploration) : Prop :=
  ∃ bound, ∀ fuel, bound ≤ fuel → explore fuel registers spills capacity mutation = some result

/-- The dictionary is unique. -/
theorem Explores.unique {registers spills capacity : Nat} {mutation : Bool} {a b : Exploration}
    (ha : Explores registers spills capacity mutation a)
    (hb : Explores registers spills capacity mutation b) : a = b := by
  obtain ⟨m, hm⟩ := ha
  obtain ⟨n, hn⟩ := hb
  have h := hm (max m n) (Nat.le_max_left m n)
  rw [hn (max m n) (Nat.le_max_right m n)] at h
  exact (Option.some.inj h).symm

theorem edgeFault_eq_none {capacity : Nat} {s : State} {e : Edge} :
    edgeFault capacity s e = none ↔
      stateError e.target capacity = none ∧ edgeError s e capacity = none :=
  Option.or_eq_none_iff

/-! ### Finitely many states pass -/

/-- The terminal reasons of the transition function. -/
def terminals : List Terminal :=
  [.active, .ret, .exhaustion, .nullRead, .staleRead, .nullRelease, .staleRelease]

/-- The states within the bounds of an exploration. -/
structure Within (nr ns capacity : Nat) (s : State) : Prop extends WellFormed s capacity where
  registers_length : s.registers.length = nr
  spills_length : s.spills.length = ns
  terminal_mem : s.terminal ∈ terminals

/-- Lists of numbers up to `bound` that are not longer than `length`. -/
def boundedLists (length bound : Nat) : Set (List Int) :=
  {l | l.length ≤ length ∧ ∀ x ∈ l, 0 ≤ x ∧ x ≤ (bound : Int)}

theorem finite_boundedLists (length bound : Nat) : (boundedLists length bound).Finite := by
  have hfin : {l : List (Set.Icc (0 : Int) bound) | l.length ≤ length}.Finite :=
    List.finite_length_le _ length
  refine (hfin.image (List.map Subtype.val)).subset ?_
  rintro l ⟨hlength, hbound⟩
  lift l to List (Set.Icc (0 : Int) bound) using hbound
  exact ⟨l, by simpa using hlength, rfl⟩

variable {registers spills capacity : Nat} {mutation : Bool} {s : State}

/-- A cell has at most one effect of either kind. -/
theorem WellFormed.effects_le_one (h : WellFormed s capacity) :
    s.explicit ∈ boundedLists capacity 1 ∧ s.cleanup ∈ boundedLists capacity 1 := by
  have hbudget := h.budget
  have hcell : ∀ i < s.live.length, 0 ≤ s.explicitAt i ∧ 0 ≤ s.cleanupAt i ∧
      s.explicitAt i + s.cleanupAt i ≤ 1 := by
    intro i hi
    have he := forall_mem_iff_getD (d := 0).mp h.explicit_nonneg i (h.explicit_length ▸ hi)
    have hc := forall_mem_iff_getD (d := 0).mp h.cleanup_nonneg i (h.cleanup_length ▸ hi)
    refine ⟨he, hc, ?_⟩
    rw [h.cells i hi]
    split <;> decide
  constructor
  · refine ⟨h.explicit_length ▸ hbudget, forall_mem_iff_getD (d := 0).mpr ?_⟩
    intro i hi
    obtain ⟨he, hc, hsum⟩ := hcell i (h.explicit_length ▸ hi)
    exact ⟨he, by change s.explicitAt i ≤ _; omega⟩
  · refine ⟨h.cleanup_length ▸ hbudget, forall_mem_iff_getD (d := 0).mpr ?_⟩
    intro i hi
    obtain ⟨he, hc, hsum⟩ := hcell i (h.cleanup_length ▸ hi)
    exact ⟨hc, by change s.cleanupAt i ≤ _; omega⟩

/-- The identities, the effects and the aliases are bounded, and the count is determined. -/
theorem finite_within (registers spills capacity : Nat) :
    {s | Within registers spills capacity s}.Finite := by
  have hlive : {l : List Bool | l.length ≤ capacity}.Finite := List.finite_length_le _ capacity
  have hterminal : {t | t ∈ terminals}.Finite := terminals.finite_toSet
  have hproduct := hlive.prod ((finite_boundedLists registers capacity).prod
    ((finite_boundedLists spills capacity).prod ((finite_boundedLists capacity 1).prod
      ((finite_boundedLists capacity 1).prod hterminal))))
  refine (hproduct.image fun (live, regs, slots, explicit, cleanup, terminal) =>
    ⟨live, regs, slots, explicit, cleanup, 1 + (live.count true : Int), terminal⟩).subset ?_
  intro s h
  have hbudget := h.budget
  have halias : ∀ t : Int, 0 ≤ t ∧ t ≤ s.live.length → 0 ≤ t ∧ t ≤ (capacity : Int) := by
    rintro t ⟨h0, hle⟩
    exact ⟨h0, by omega⟩
  refine ⟨(s.live, s.registers, s.spills, s.explicit, s.cleanup, s.terminal),
    ⟨h.budget, ?_, ?_, h.effects_le_one.1, h.effects_le_one.2, h.terminal_mem⟩, ?_⟩
  · exact ⟨Nat.le_of_eq h.registers_length, fun t ht => halias t (h.regs t ht)⟩
  · exact ⟨Nat.le_of_eq h.spills_length, fun t ht => halias t (h.spills t ht)⟩
  · simp only [← h.refs]

theorem within_initial (registers spills capacity : Nat) :
    Within registers spills capacity (State.initial registers spills) where
  __ := wellFormed_initial registers spills capacity
  registers_length := List.length_replicate
  spills_length := List.length_replicate
  terminal_mem := by simp [terminals, State.initial]

/-- No edge gives a reason of its own. -/
theorem Yields.terminal_mem {e : Edge} (h : Yields s capacity mutation e)
    (ha : s.terminal = .active) : e.target.terminal ∈ terminals := by
  have hactive : s.terminal ∈ terminals := by rw [ha]; simp [terminals]
  cases h with
  | acquire r _ =>
    simp only [acquireEdge]
    split
    · simp [terminals]
    · exact hactive
  | acquireNull | copy | reload | spill => exact hactive
  | read r _ =>
    simp only [readEdge, readReason]
    split
    · exact hactive
    · split <;> simp [terminals]
  | release r _ =>
    simp only [releaseEdge, releaseReason]
    split
    · exact hactive
    · split <;> simp [terminals]
  | finish => simp [terminals, finishEdge]

/-- An edge that passes stays within the bounds. -/
theorem Within.edge (h : Within registers spills capacity s) {e : Edge}
    (he : e ∈ transitions s capacity mutation) (hpass : edgeFault capacity s e = none) :
    Within registers spills capacity e.target := by
  obtain ⟨ha, hy⟩ := mem_transitions.mp he
  obtain ⟨hregs, hspills⟩ := hy.lengths
  exact {
    stateError_eq_none.mp (edgeFault_eq_none.mp hpass).1 with
    registers_length := hregs.trans h.registers_length
    spills_length := hspills.trans h.spills_length
    terminal_mem := hy.terminal_mem ha }

/-! ### The histories are the paths of the model -/

theorem path_iff {path : List Edge} {t : State} :
    (explorer capacity mutation).Path s path t ↔ Path capacity mutation s path t := by
  constructor
  · intro h
    induction h with
    | nil => exact .nil
    | snoc _ he ih => exact .snoc ih he
  · intro h
    induction h with
    | nil => exact .nil
    | snoc _ he ih => exact .snoc ih he

theorem reachable_iff_path :
    Reachable registers spills capacity mutation s ↔
      ∃ path, Path capacity mutation (State.initial registers spills) path s := by
  constructor
  · intro h
    induction h with
    | refl => exact ⟨[], .nil⟩
    | tail _ hnext ih =>
      obtain ⟨path, hpath⟩ := ih
      obtain ⟨e, he, rfl⟩ := hnext
      exact ⟨path ++ [e], .snoc hpath he⟩
  · rintro ⟨path, hpath⟩
    exact hpath.reachable

/-- A history whose edges all pass the checks. -/
inductive PassingPath (capacity : Nat) (mutation : Bool) (s : State) : List Edge → State → Prop
  | nil : PassingPath capacity mutation s [] s
  | snoc {path : List Edge} {t : State} {e : Edge} : PassingPath capacity mutation s path t →
      e ∈ transitions t capacity mutation → edgeFault capacity t e = none →
      PassingPath capacity mutation s (path ++ [e]) e.target

theorem passingPath_of_safePath {path : List Edge} {t : State}
    (h : (explorer capacity mutation).SafePath s path t) :
    PassingPath capacity mutation s path t := by
  induction h with
  | nil => exact .nil
  | snoc _ he hpass ih => exact .snoc ih he hpass

/-- Every reachable state and every edge that leaves one passes the oracle. -/
def AllPass (registers spills capacity : Nat) (mutation : Bool) : Prop :=
  ∀ s, Reachable registers spills capacity mutation s → stateError s capacity = none ∧
    ∀ e ∈ transitions s capacity mutation, edgeFault capacity s e = none

/-- The counts of a verified model are exact. -/
def ExactCounts (registers spills capacity : Nat) (mutation : Bool)
    (states terminals edges : Nat) : Prop :=
  ∃ discovered : Finset State, (∀ s, s ∈ discovered ↔ Reachable registers spills capacity mutation s) ∧
    states = discovered.card ∧
    terminals = (discovered.filter fun s => s.terminal ≠ .active).card ∧
    edges = ∑ s ∈ discovered, (transitions s capacity mutation).length

/-- A history that ends in the first failing edge of a shortest path to one. -/
def ShortestFailure (registers spills capacity : Nat) (mutation : Bool) (error : String)
    (history : List String) : Prop :=
  ∃ path s e, PassingPath capacity mutation (State.initial registers spills) path s ∧
    e ∈ transitions s capacity mutation ∧ edgeFault capacity s e = some error ∧
    history = (path ++ [e]).map Edge.label ∧
    ∀ path' s' e', Path capacity mutation (State.initial registers spills) path' s' →
      e' ∈ transitions s' capacity mutation → edgeFault capacity s' e' ≠ none →
      (path ++ [e]).length ≤ (path' ++ [e']).length

/-- What `explore` promises with its answer. -/
def Exploration.Correct (registers spills capacity : Nat) (mutation : Bool) :
    Exploration → Prop
  | .rejected _ => False
  | .finished (.verified states terminals edges) =>
    ExactCounts registers spills capacity mutation states terminals edges
  | .finished (.failed error history _ _) =>
    ShortestFailure registers spills capacity mutation error history

/-- The answer of the search, read in the model's terms. -/
theorem correct_of_search {answer : BreadthFirst.Answer String String}
    (h : (explorer capacity mutation).Correct (State.initial registers spills) answer) :
    ((Exploration.finished answer).verified = true ↔
      AllPass registers spills capacity mutation) ∧
    (Exploration.finished answer).Correct registers spills capacity mutation := by
  cases answer with
  | verified states finals edges =>
    obtain ⟨order, hnodup, hmem, hpass, rfl, rfl, rfl⟩ := h
    have hreach : ∀ s, s ∈ order ↔ Reachable registers spills capacity mutation s := by
      intro s
      rw [hmem s, reachable_iff_path]
      exact exists_congr fun path => path_iff
    refine ⟨iff_of_true rfl fun s hs => ⟨?_, hpass s ((hreach s).mpr hs)⟩, ?_⟩
    · exact stateError_eq_none.mpr (wellFormed_of_reachable hs)
    · refine ⟨order.toFinset, fun s => ?_, ?_, ?_, ?_⟩
      · rw [List.mem_toFinset, hreach s]
      · rw [List.toFinset_card_of_nodup hnodup]
      · have hfinal : (order.toFinset.filter fun s => s.terminal ≠ .active) =
            (order.filter (explorer capacity mutation).final).toFinset := by
          ext s
          simp [explorer]
        rw [hfinal, List.toFinset_card_of_nodup (hnodup.filter _), List.countP_eq_length_filter]
      · rw [List.sum_toFinset _ hnodup]
        rfl
  | failed error history states edges =>
    obtain ⟨path, s, e, hsafe, he, herror, hhistory, hleast⟩ := h
    have hpath := path_iff.mp hsafe.path
    constructor
    · refine iff_of_false Bool.false_ne_true fun hall => ?_
      have hnone := (hall s hpath.reachable).2 e he
      rw [show edgeFault capacity s e = some error from herror] at hnone
      cases hnone
    · refine ⟨path, s, e, passingPath_of_safePath hsafe, he, herror, hhistory, ?_⟩
      intro path' s' e' hpath' he' hfault
      have hle := hleast path' s' e' (path_iff.mpr hpath') he' hfault
      rw [List.length_append, List.length_append]
      exact Nat.add_le_add_right hle 1

/-- `explore` ends, and its dictionary is right. -/
theorem explores_correct (registers spills capacity : Nat) (mutation : Bool) :
    ∃ result, Explores registers spills capacity mutation result ∧
      (result.verified = true ↔ AllPass registers spills capacity mutation) ∧
      result.Correct registers spills capacity mutation := by
  have hfinite := finite_within registers spills capacity
  have hinitial : State.initial registers spills ∈ hfinite.toFinset :=
    hfinite.mem_toFinset.mpr (within_initial registers spills capacity)
  have hclosed : ∀ u ∈ hfinite.toFinset, ∀ e ∈ (explorer capacity mutation).edges u,
      (explorer capacity mutation).error u e = none →
        (explorer capacity mutation).target e ∈ hfinite.toFinset := by
    intro u hu e he hpass
    rw [hfinite.mem_toFinset] at hu ⊢
    exact Within.edge hu he hpass
  obtain ⟨answer, hsearch, hcorrect⟩ := BreadthFirst.search_correct hinitial hclosed
    (Nat.lt_succ_self hfinite.toFinset.card)
  refine ⟨.finished answer, ⟨hfinite.toFinset.card + 1, ?_⟩, correct_of_search hcorrect⟩
  intro fuel hfuel
  have hstart := stateError_eq_none.mpr (wellFormed_initial registers spills capacity)
  simp only [explore, hstart, BreadthFirst.Graph.search_mono _ hsearch hfuel, Option.map_some]

/-- The explorer is a correct and terminating search, at every bound and for both transition
functions. -/
theorem explorer_exact (registers spills capacity : Nat) (mutation : Bool) :
    ∃ result, Explores registers spills capacity mutation result ∧
      (result.verified = true ↔
        ∀ s, Reachable registers spills capacity mutation s → stateError s capacity = none ∧
          ∀ e ∈ transitions s capacity mutation,
            stateError e.target capacity = none ∧ edgeError s e capacity = none) ∧
      result.Correct registers spills capacity mutation := by
  obtain ⟨result, hexplores, hverified, hcorrect⟩ :=
    explores_correct registers spills capacity mutation
  refine ⟨result, hexplores, ?_, hcorrect⟩
  simpa only [AllPass, edgeFault_eq_none] using hverified

/-- The one-register model with one cell. -/
example : (explore 40 1 0 1 false).map Exploration.verified = some true := by decide +kernel

end Cbpf.Model
