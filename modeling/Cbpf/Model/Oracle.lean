import Cbpf.Model.Transitions

/-!
# The transition oracle (`theory/check_model.py:101-211`)

`state_error` and `edge_error` are sequences of `if …: return text`. Each is a list of guarded texts
of which the first whose guard holds is returned.
-/

namespace Cbpf.Model

/-- The text of the first guard that holds. -/
def firstError : List (Bool × String) → Option String
  | [] => none
  | (guard, text) :: checks => if guard then some text else firstError checks

theorem firstError_eq_none {checks : List (Bool × String)} :
    firstError checks = none ↔ ∀ c ∈ checks, c.1 = false := by
  induction checks with
  | nil => simp [firstError]
  | cons c checks ih =>
    cases hc : c.1 <;> simp [firstError, hc, ih]

theorem firstError_append {checks more : List (Bool × String)} :
    firstError (checks ++ more) = none ↔ firstError checks = none ∧ firstError more = none := by
  simp only [firstError_eq_none, List.mem_append, or_imp, forall_and]

/-- `drops not in (0, 1) or live != (drops == 0)` for acquisition `i`. -/
def inconsistent (s : State) (i : Nat) : Bool :=
  let drops := s.explicitAt i + s.cleanupAt i
  !(drops == 0 || drops == 1) || s.liveAt i != (drops == 0)

/-- `state_error`. -/
def stateError (s : State) (capacity : Nat) : Option String :=
  let n := s.live.length
  firstError
    ([(n > capacity || s.explicit.length != n || s.cleanup.length != n,
        "cell budget or metadata dimensions"),
      ((s.registers ++ s.spills).any fun token => token < 0 || token > n,
        "alias names an identity that was never acquired"),
      ((s.explicit ++ s.cleanup).any fun x => x < 0, "negative provider-effect count")] ++
    (List.range n).map (fun i =>
      (inconsistent s i,
        s!"consumption: acquisition {i + 1} has inconsistent effects/liveness")) ++
    [(s.refcount != 1 + n - s.explicit.sum - s.cleanup.sum,
        "provider reference-count accounting"),
      (s.refcount != 1 + (s.live.count true : Int),
        "reference count differs from the baseline plus live acquisitions"),
      (s.terminal != .active && (s.live.any id || s.refcount != 1),
        "terminal cleanup did not restore the baseline"),
      (s.terminal == .active && s.cleanup.any (· != 0),
        "cleanup effect in an active invocation")])

/-- The part of `edge_error` for every kind. -/
def commonChecks (before : State) (e : Edge) : List (Bool × String) :=
  let after := e.target
  let n := before.live.length
  [(before.terminal != .active, "terminal execution resumed"),
    (after.live.length < n, "acquisition identities were reused or discarded"),
    (e.kind != .acquire && after.live.length != n,
      "an operation other than acquisition created an identity"),
    (e.kind == .finish && (after.terminal != .ret || e.result != .ret),
      "finish did not terminate normally")]

/-- `if after.terminal:`. -/
def terminalChecks (before after : State) : List (Bool × String) :=
  [(after.registers != before.registers || after.spills != before.spills,
      "terminal cleanup changed an alias identity"),
    (after.explicit != before.explicit,
      "failed operation or finish performed an explicit release")] ++
  (List.range before.live.length).map fun i =>
    (after.cleanupAt i - before.cleanupAt i != ((before.liveAt i).toNat : Int),
      "cleanup did not consume exactly the remaining live acquisitions")

/-- The loop over the acquisitions after a successful release of acquisition `target`. -/
def independenceChecks (before after : State) (target : Nat) : List (Bool × String) :=
  (List.range before.live.length).flatMap fun i =>
    [(after.explicitAt i - before.explicitAt i != ((i == target).toNat : Int),
        s!"alias independence: release of {target + 1} also affects acquisition {i + 1}"),
      (i != target && after.liveAt i != before.liveAt i,
        s!"alias independence: acquisition {i + 1} changed with release of {target + 1}")]

/-- `after.terminal != reason + "_" + kind or edge.result != reason`. -/
def wrongTrap (e : Edge) (token : Int) : Bool :=
  let trap := if e.kind = .read then readReason token else releaseReason token
  e.target.terminal != trap || e.result != invalidReason token

/-- `if kind in ("read", "release"):`. -/
def useChecks (before : State) (e : Edge) : List (Bool × String) :=
  let after := e.target
  let token := before.reg (e.args.getD 0 0)
  let valid := before.valid token
  [(after.registers != before.registers || after.spills != before.spills,
      "read/release changed an alias identity"),
    (!valid && after.terminal == .active, "consumed or NULL authority was used without trapping"),
    (valid && after.terminal != .active, "a live acquisition was incorrectly rejected"),
    (!valid && wrongTrap e token, "failed read/release reported the wrong trap reason"),
    (e.kind == .read && valid && (e.result != .fortyTwo || after != before),
      "live read changed state or returned the wrong object value")] ++
  if e.kind = .release ∧ valid then
    [(e.result != .consumed, "successful release reported the wrong result")] ++
    independenceChecks before after (State.index token) ++
    [(after.liveAt (State.index token) || after.cleanup != before.cleanup,
      "release failed to consume its token without cleanup")]
  else []

/-- `expected_regs`, `expected_spills` of `if kind in ("copy", "spill", "reload", "acquire_null"):`. -/
def expectedAliases (before : State) (e : Edge) : List Int × List Int :=
  let dst := e.args.getD 0 0
  let src := e.args.getD 1 0
  match e.kind with
  | .copy => (before.registers.set dst (before.reg src), before.spills)
  | .spill => (before.registers, before.spills.set dst (before.reg src))
  | .reload => (before.registers.set dst (before.slot src), before.spills)
  | _ => (before.registers.set dst 0, before.spills)

def aliasChecks (before : State) (e : Edge) : List (Bool × String) :=
  let after := e.target
  let expected := expectedAliases before e
  [(after.terminal != .active, "token manipulation or NULL acquisition incorrectly trapped"),
    (e.result != (if e.kind = .acquireNull then .null else .copied),
      "token manipulation or NULL acquisition reported the wrong result"),
    (after.live != before.live || after.explicit != before.explicit ||
        after.cleanup != before.cleanup || after.refcount != before.refcount,
      "alias manipulation changed ownership"),
    (after.registers != expected.1 || after.spills != expected.2,
      "copy/spill/reload did not preserve the source identity")]

/-- The checks of an acquisition, failed or not. -/
def acquireChecks (before : State) (e : Edge) (capacity : Nat) : List (Bool × String) :=
  let after := e.target
  let n := before.live.length
  let dst := e.args.getD 0 0
  [((after.terminal != .active) != (n == capacity),
      "acquisition exhaustion does not match the cell budget")] ++
  if after.terminal ≠ .active then
    [(after.terminal != .exhaustion || e.result != .exhaustion,
      "exhausted acquisition reported the wrong trap reason")]
  else
    [(after.live.length != n + 1 || after.reg dst != n + 1,
        "acquisition did not create a fresh identity"),
      (!after.liveAt n || after.explicitAt n != 0 || after.cleanupAt n != 0 ||
          after.refcount != before.refcount + 1,
        "acquisition did not create one live, unconsumed reference"),
      (e.result != .success, "successful acquisition reported the wrong result"),
      (after.registers != before.registers.set dst (n + 1) || after.spills != before.spills,
        "acquisition changed an unrelated alias"),
      (after.live.take n != before.live || after.explicit.take n != before.explicit ||
          after.cleanup.take n != before.cleanup,
        "acquisition changed an existing ownership token")]

/-- `edge_error`. -/
def edgeError (before : State) (e : Edge) (capacity : Nat) : Option String :=
  firstError
    (commonChecks before e ++
    (if e.target.terminal ≠ .active then terminalChecks before e.target else []) ++
    (if e.kind = .read ∨ e.kind = .release then useChecks before e else []) ++
    (if e.kind = .copy ∨ e.kind = .spill ∨ e.kind = .reload ∨ e.kind = .acquireNull then
      aliasChecks before e else []) ++
    if e.kind = .acquire then acquireChecks before e capacity else [])

/-- What `state_error` returning `None` means. -/
structure WellFormed (s : State) (capacity : Nat) : Prop where
  budget : s.live.length ≤ capacity
  explicit_length : s.explicit.length = s.live.length
  cleanup_length : s.cleanup.length = s.live.length
  regs : ∀ t ∈ s.registers, 0 ≤ t ∧ t ≤ s.live.length
  spills : ∀ t ∈ s.spills, 0 ≤ t ∧ t ≤ s.live.length
  explicit_nonneg : ∀ x ∈ s.explicit, 0 ≤ x
  cleanup_nonneg : ∀ x ∈ s.cleanup, 0 ≤ x
  /-- an acquisition has no effect while it is live and exactly one afterwards -/
  cells : ∀ i < s.live.length, s.explicitAt i + s.cleanupAt i = if s.liveAt i then 0 else 1
  accounting : s.refcount = 1 + s.live.length - s.explicit.sum - s.cleanup.sum
  refs : s.refcount = 1 + (s.live.count true : Int)
  terminal_done : s.terminal ≠ .active → s.live.count true = 0
  active_clean : s.terminal = .active → ∀ x ∈ s.cleanup, x = 0

theorem inconsistent_eq_false {s : State} {i : Nat} :
    inconsistent s i = false ↔
      s.explicitAt i + s.cleanupAt i = if s.liveAt i then 0 else 1 := by
  unfold inconsistent
  cases s.liveAt i <;> simp <;> omega

theorem stateError_eq_none {s : State} {capacity : Nat} :
    stateError s capacity = none ↔ WellFormed s capacity := by
  simp only [stateError, firstError_append]
  simp only [firstError_eq_none, List.forall_mem_cons, List.not_mem_nil, false_imp_iff,
    implies_true, and_true, List.forall_mem_map, List.mem_range, inconsistent_eq_false,
    Bool.or_eq_false_iff, Bool.and_eq_false_iff, decide_eq_false_iff_not, bne_eq_false_iff_eq,
    List.any_eq_false, List.mem_append, beq_eq_false_iff_ne, Bool.or_eq_true, decide_eq_true_eq,
    id, bne_iff_ne, not_not, not_or, Int.not_lt, gt_iff_lt, Nat.not_lt, or_imp, forall_and]
  constructor
  · rintro ⟨⟨⟨⟨⟨hn, he⟩, hc⟩, ⟨⟨hr0, hs0⟩, hrn, hsn⟩, hen, hcn⟩, hcells⟩, hacc, hrefs, hdone, hclean⟩
    exact {
      budget := hn
      explicit_length := he
      cleanup_length := hc
      regs := fun t ht => ⟨hr0 t ht, hrn t ht⟩
      spills := fun t ht => ⟨hs0 t ht, hsn t ht⟩
      explicit_nonneg := hen
      cleanup_nonneg := hcn
      cells := hcells
      accounting := hacc
      refs := hrefs
      terminal_done := by
        intro ht
        obtain ⟨_, h1⟩ := hdone.resolve_left ht
        omega
      active_clean := fun ht => hclean.resolve_left (not_not.mpr ht) }
  · intro h
    refine ⟨⟨⟨⟨⟨h.budget, h.explicit_length⟩, h.cleanup_length⟩, ⟨⟨fun t ht => (h.regs t ht).1,
      fun t ht => (h.spills t ht).1⟩, fun t ht => (h.regs t ht).2, fun t ht => (h.spills t ht).2⟩,
      h.explicit_nonneg, h.cleanup_nonneg⟩, h.cells⟩, h.accounting, h.refs, ?_, ?_⟩
    · by_cases ht : s.terminal = .active
      · exact .inl ht
      · have hdone := h.terminal_done ht
        refine .inr ⟨fun x hx hxt => ?_, by rw [h.refs, hdone]; rfl⟩
        exact List.count_eq_zero.mp hdone (hxt ▸ hx)
    · by_cases ht : s.terminal = .active
      · exact .inr (h.active_clean ht)
      · exact .inl ht

end Cbpf.Model
