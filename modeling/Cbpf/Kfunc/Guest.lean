import Mathlib
import Cbpf.Kfunc.Provider

/-!
# The guest's accounting (`src/linux/kfunc/guest.c`)

The guest reads the provider's counters between synchronous executions and compares them with what
each case should have done. A run of the provider keeps its own count of what was acquired and read,
and the guest's comparisons are exact for these counts.
-/

namespace Cbpf.Kfunc

/-! ### The checks -/

/-- `struct counters`, as `snapshot` reads it. -/
structure Counters where
  acquisitions : BitVec 64
  releases : BitVec 64
  live : BitVec 64
  reads : BitVec 64
  objectRefs : BitVec 64
  deriving DecidableEq, Repr

/-- `snapshot`, between synchronous runs. -/
def snapshot (p : Provider) : Counters :=
  ⟨p.acquisitions, p.releases, p.live, p.reads, p.refs.setWidth 64⟩

/-- `balanced`. -/
def balanced (s : Counters) : Bool :=
  s.live == 0 && s.objectRefs == 1 && s.acquisitions == s.releases

/-- `delta`. -/
def delta (before after : Counters) (acquisitions reads : BitVec 32) : Bool :=
  balanced before && balanced after &&
    after.acquisitions == before.acquisitions + acquisitions.setWidth 64 &&
    after.releases == before.releases + acquisitions.setWidth 64 &&
    after.reads == before.reads + reads.setWidth 64

/-- `struct totals`. -/
structure Totals where
  positiveCases : BitVec 32
  rejectedCases : BitVec 32
  repeatedRuns : BitVec 32
  executions : BitVec 32
  acquisitions : BitVec 64
  reads : BitVec 64
  deriving DecidableEq, Repr

def Totals.empty : Totals := ⟨0, 0, 0, 0, 0, 0⟩

/-- What one execution of a loaded program shows: what `run_loaded` returns, and the counters after
it. `none` stands for a call that fails. -/
structure Execution where
  retval : Option (BitVec 32)
  after : Option Counters
  deriving DecidableEq, Repr

/-- What `run_valid` meets: the counters before, whether the program is loaded and has native code, and
its executions. -/
structure Case where
  before : Option Counters
  loaded : Bool
  jited : Bool
  repeats : BitVec 32
  executions : List Execution
  ok : executions.length = repeats.toNat

/-- What `check_rejected` meets. `attributed` tells whether the program is valid and the log explains its
rejection. -/
structure Probe where
  before : Option Counters
  loaded : Bool
  attributed : Bool
  after : Option Counters

/-- `run_valid`, its loop. -/
def runRepeats (expected acquisitions reads : BitVec 32) : Counters → List Execution → Bool
  | _, [] => true
  | before, e :: es =>
    match e.retval, e.after with
    | some retval, some after =>
      retval == expected && delta before after acquisitions reads &&
        runRepeats expected acquisitions reads after es
    | _, _ => false

/-- `run_valid`; `none` is a failure. -/
def runValid (expected acquisitions reads : BitVec 32) (totals : Totals) (c : Case) : Option Totals :=
  match c.before with
  | none => none
  | some before =>
    if !balanced before then none
    else if !c.loaded then none
    else if !c.jited then none
    else if !runRepeats expected acquisitions reads before c.executions then none
    else some {
      positiveCases := if c.repeats = 1 then totals.positiveCases + 1 else totals.positiveCases
      rejectedCases := totals.rejectedCases
      repeatedRuns := if c.repeats = 1 then totals.repeatedRuns else totals.repeatedRuns + c.repeats
      executions := totals.executions + c.repeats
      acquisitions := totals.acquisitions + acquisitions.setWidth 64 * c.repeats.setWidth 64
      reads := totals.reads + reads.setWidth 64 * c.repeats.setWidth 64 }

/-- `check_rejected`; `none` is a failure. -/
def checkRejected (totals : Totals) (p : Probe) : Option Totals :=
  match p.before with
  | none => none
  | some before =>
    if !balanced before then none
    else if p.loaded then none
    else if !p.attributed then none
    else
      match p.after with
      | none => none
      | some after =>
        if !delta before after 0 0 then none
        else some { totals with rejectedCases := totals.rejectedCases + 1 }

/-- `main`, its stage `final_accounting`. -/
def finalAccounting (final : Option Counters) (totals : Totals) : Bool :=
  match final with
  | none => false
  | some final =>
    balanced final && final.acquisitions == totals.acquisitions && final.reads == totals.reads &&
      totals.positiveCases == 13 && totals.rejectedCases == 5 && totals.repeatedRuns == 32 &&
      totals.executions == 45

/-! ### What really happened -/

/-- What a run of the provider has done: the handles that were acquired, the reads that were called. -/
inductive Run (σ : State) : State → Nat → Nat → Prop
  | start : Run σ σ 0 0
  | acquire {τ : State} {n r : Nat} (wantNull : BitVec 32) (kzalloc : Bool) : Run σ τ n r →
      Bounded (τ.acquire wantNull kzalloc) →
      Run σ (τ.acquire wantNull kzalloc) (n + (acquireEntry wantNull kzalloc).toList.length) r
  | advance {τ : State} {n r : Nat} (i : Nat) (call : Call) {c c' : Cell} {p' : Provider} :
      Run σ τ n r → τ.members[i]? = some c → c.advance τ.shared call = some (p', c') →
      Bounded ⟨p', τ.members.set i c'⟩ →
      Run σ ⟨p', τ.members.set i c'⟩ n (r + if call = .readEntry then 1 else 0)

/-- The handles that are out. -/
def State.out (σ : State) : Nat := σ.count Phase.handedWeight

/-- What happened between two snapshots. -/
structure Outcome where
  acquired : Nat
  reads : Nat
  out : Nat
  deriving DecidableEq, Repr

/-- It is what the guest expects. The guest counts reads up to 2^64. -/
structure Outcome.Exact (o : Outcome) (acquisitions reads : BitVec 32) : Prop where
  acquired : o.acquired = acquisitions.toNat
  reads : o.reads % 2 ^ 64 = reads.toNat
  out : o.out = 0

/-- From one snapshot to the next, no call in progress at either. -/
def Between (σ τ : State) (o : Outcome) : Prop :=
  Run σ τ o.acquired o.reads ∧ Quiescent τ ∧ o.out = τ.out

/-- The counters that were read, if they could be, are those of the state. -/
def Seen (counters : Option Counters) (σ : State) : Prop :=
  ∀ s, counters = some s → s = snapshot σ.shared

/-- The executions of one program, each with what it did. -/
inductive Executed : State → List Execution → List Outcome → State → Prop
  | nil {σ : State} : Executed σ [] [] σ
  | cons {σ τ υ : State} {e : Execution} {o : Outcome} {es : List Execution} {os : List Outcome} :
      Between σ τ o → Seen e.after τ → Executed τ es os υ → Executed σ (e :: es) (o :: os) υ

/-- The guest's session with the provider, from its load on: every case so far has passed. -/
inductive Session : State → Totals → Prop
  | start : Session State.initial .empty
  | valid {σ τ : State} {totals totals' : Totals} {os : List Outcome} {c : Case}
      (expected acquisitions reads : BitVec 32) : Session σ totals → Seen c.before σ →
      Executed σ c.executions os τ →
      runValid expected acquisitions reads totals c = some totals' → Session τ totals'
  | rejected {σ τ : State} {totals totals' : Totals} {o : Outcome} {p : Probe} : Session σ totals →
      Seen p.before σ → Between σ τ o → Seen p.after τ → checkRejected totals p = some totals' →
      Session τ totals'

/-! ### Runs -/

/-- The reads of a cell that are called and not counted yet. -/
def Cell.pending (c : Cell) : Nat := c.reads.count .begun

def State.pending (σ : State) : Nat := Population.total Cell.pending σ

variable {σ τ : State} {n r : Nat} {o : Outcome} {a b : BitVec 32} {totals totals' : Totals}

theorem Run.reachable (h : Run σ τ n r) (hσ : Reachable σ) : Reachable τ := by
  induction h with
  | start => exact hσ
  | acquire wantNull kzalloc _ hbound ih => exact ih.acquire wantNull kzalloc hbound
  | advance i call _ hget hstep hbound ih => exact ih.advance i call hget hstep hbound

/-- Every handle that was acquired has its cell. -/
theorem Run.length (h : Run σ τ n r) : τ.members.length = σ.members.length + n := by
  induction h with
  | start => rfl
  | acquire wantNull kzalloc _ _ ih =>
    rw [State.acquire, List.length_append, ih, Nat.add_assoc]
  | advance i call _ _ _ _ ih => rw [List.length_set, ih]

/-- A step counts a read, begins one, or does neither. -/
theorem advance_reads {p p' : Provider} {c c' : Cell} {call : Call}
    (h : c.advance p call = some (p', c')) :
    (p'.reads.toNat + c'.pending) % 2 ^ 64 =
      (p.reads.toNat + c.pending + if call = .readEntry then 1 else 0) % 2 ^ 64 := by
  cases call with
  | acquire =>
    simp only [Cell.advance, cbpfRefAcquire] at h
    split at h
    on_goal 5 => cases h
    all_goals
      cases h
      rfl
  | release =>
    simp only [Cell.advance, cbpfRefRelease] at h
    split at h
    on_goal 6 => cases h
    all_goals
      cases h
      rfl
  | readEntry =>
    simp only [Cell.advance, readEntry, Option.map_eq_some_iff] at h
    obtain ⟨c'', hentry, hpair⟩ := h
    cases hpair
    split at hentry
    · cases hentry
      rw [Cell.pending, List.count_append, if_pos rfl]
      rfl
    · cases hentry
  | read k =>
    simp only [Cell.advance, cbpfRefRead] at h
    rw [if_neg (by simp), Nat.add_zero]
    split at h
    · cases h
    · next hk =>
      cases h
      obtain ⟨hlt, hbegun⟩ := List.getElem?_eq_some_iff.mp hk
      have hpos : 0 < c.reads.count .begun :=
        List.count_pos_iff.mpr (hbegun ▸ List.getElem_mem hlt)
      have hset : (c.reads.set k .counted).count .begun = c.reads.count .begun - 1 := by
        rw [List.count_set hlt, hbegun]
        rfl
      have hone : (1 : BitVec 64).toNat = 1 := rfl
      simp only [Cell.pending, hset, BitVec.toNat_add, hone]
      omega
    · next hk =>
      cases h
      obtain ⟨hlt, hcounted⟩ := List.getElem?_eq_some_iff.mp hk
      have hset : (c.reads.set k (.loaded p.value)).count .begun = c.reads.count .begun := by
        rw [List.count_set hlt, hcounted]
        rfl
      simp only [Cell.pending, hset]
    · next value hk =>
      cases h
      obtain ⟨hlt, hloaded⟩ := List.getElem?_eq_some_iff.mp hk
      have herase : (c.reads.eraseIdx k).count .begun = c.reads.count .begun := by
        rw [← (List.getElem_cons_eraseIdx_perm hlt).count_eq, hloaded]
        rfl
      simp only [Cell.pending, herase]

/-- The reads that were counted, with those that are pending, are those that were called. -/
theorem Run.reads (h : Run σ τ n r) :
    (τ.shared.reads.toNat + τ.pending) % 2 ^ 64 = (σ.shared.reads.toNat + σ.pending + r) % 2 ^ 64 := by
  induction h with
  | start => rfl
  | @acquire τ n r wantNull kzalloc _ _ ih =>
    have hnew : (acquireEntry wantNull kzalloc).toList.map Cell.pending =
        (acquireEntry wantNull kzalloc).toList.map fun _ => 0 := by
      apply List.map_congr_left
      intro c hc
      rw [eq_of_acquireEntry c hc]
      rfl
    have hpending : (τ.acquire wantNull kzalloc).pending = τ.pending := by
      rw [State.pending, State.acquire, Population.total_append _ τ.shared, hnew]
      simp [State.pending]
    rw [hpending]
    exact ih
  | @advance τ n r i call c c' p' _ hget hstep _ ih =>
    have hset : State.pending ⟨p', τ.members.set i c'⟩ + c.pending = τ.pending + c'.pending :=
      Population.total_set Cell.pending τ.shared p' hget c'
    have hcall := advance_reads hstep
    change (p'.reads.toNat + State.pending ⟨p', τ.members.set i c'⟩) % 2 ^ 64 = _
    omega

/-! ### Between calls -/

theorem Quiescent.pending (h : Quiescent σ) : σ.pending = 0 := by
  have hnone : σ.pending = Population.total (fun _ : Cell => 0) σ := by
    refine Population.total_congr fun c hc => ?_
    rw [Cell.pending, (h c hc).2, List.count_nil]
  rw [hnone]
  simp [Population.total]

/-- Between calls the live cells are the handles that are out. -/
theorem Quiescent.live (h : Quiescent σ) : σ.count Phase.liveWeight = σ.out := by
  refine Population.total_congr fun c hc => ?_
  rcases (h c hc).1 with hphase | hphase <;> rw [hphase] <;> rfl

/-- Between calls every cell was acquired. -/
theorem Quiescent.acquired (h : Quiescent σ) :
    σ.count Phase.acquisitionWeight = σ.members.length := by
  have hone : σ.count Phase.acquisitionWeight = Population.total (fun _ : Cell => 1) σ := by
    refine Population.total_congr fun c hc => ?_
    rcases (h c hc).1 with hphase | hphase <;> rw [hphase] <;> rfl
  rw [hone]
  simp [Population.total]

/-- The counters are balanced when no handle is out, and not otherwise. -/
theorem balanced_iff (hσ : Reachable σ) (hquiet : Quiescent σ) :
    balanced (snapshot σ.shared) = true ↔ σ.out = 0 := by
  obtain ⟨haccounts, _⟩ := hσ.accounts
  obtain ⟨hheld, htaken⟩ := hquiet.counts
  have hlive := haccounts.live
  rw [hquiet.live] at hlive hheld htaken
  simp only [balanced, snapshot, Bool.and_eq_true, beq_iff_eq]
  constructor
  · rintro ⟨⟨hnone, _⟩, _⟩
    rw [← hlive, hnone]
    rfl
  · intro hout
    rw [hout] at hlive hheld htaken
    have hrefs := haccounts.refs
    rw [hheld] at hrefs
    have hone : σ.shared.refs = 1 := BitVec.eq_of_toInt_eq hrefs
    refine ⟨⟨BitVec.eq_of_toNat_eq hlive, ?_⟩, ?_⟩
    · rw [hone]
      rfl
    · apply BitVec.eq_of_toNat_eq
      rw [haccounts.acquisitions, haccounts.releases, htaken, Nat.zero_add]

/-- The guest's comparison passes when it has expected exactly what happened, and not otherwise. -/
theorem delta_iff (hσ : Reachable σ) (hquiet : Quiescent σ) (hout : σ.out = 0)
    (h : Between σ τ o) :
    delta (snapshot σ.shared) (snapshot τ.shared) a b = true ↔ o.Exact a b := by
  obtain ⟨hrun, hquiet', ho⟩ := h
  have hτ := hrun.reachable hσ
  have hbefore := (balanced_iff hσ hquiet).mpr hout
  have hlength := hrun.length
  have hreads := hrun.reads
  rw [hquiet.pending, hquiet'.pending] at hreads
  have hacquired := hσ.accounts.1.acquisitions
  have hacquired' := hτ.accounts.1.acquisitions
  rw [hquiet.acquired] at hacquired
  rw [hquiet'.acquired] at hacquired'
  have htotal := hτ.bounded.total
  rw [hquiet'.acquired] at htotal
  have ha := a.isLt
  have hb := b.isLt
  have hcount : τ.shared.acquisitions = σ.shared.acquisitions + a.setWidth 64 ↔
      o.acquired = a.toNat := by
    rw [← BitVec.toNat_inj, BitVec.toNat_add, BitVec.toNat_setWidth, hacquired, hacquired']
    omega
  have hread : τ.shared.reads = σ.shared.reads + b.setWidth 64 ↔ o.reads % 2 ^ 64 = b.toNat := by
    have hlt := τ.shared.reads.isLt
    rw [← BitVec.toNat_inj, BitVec.toNat_add, BitVec.toNat_setWidth]
    omega
  have hnone : balanced (snapshot τ.shared) = true ↔ o.out = 0 := by
    rw [balanced_iff hτ hquiet', ho]
  simp only [delta, hbefore, hnone, Bool.true_and, Bool.and_eq_true, beq_iff_eq]
  constructor
  · rintro ⟨⟨⟨hzero, hsame⟩, _⟩, hsame'⟩
    exact ⟨hcount.mp hsame, hread.mp hsame', hzero⟩
  · rintro ⟨hsame, hsame', hzero⟩
    refine ⟨⟨⟨hzero, hcount.mpr hsame⟩, ?_⟩, hread.mpr hsame'⟩
    -- with no handle out, as many were released as acquired
    have hafter := hnone.mpr hzero
    simp only [balanced, Bool.and_eq_true, beq_iff_eq] at hbefore hafter
    rw [← hafter.2, ← hbefore.2]
    exact hcount.mpr hsame

/-! ### Cases -/

/-- A state between cases: no call is in progress and no handle is out. -/
structure Settled (σ : State) : Prop where
  reachable : Reachable σ
  quiescent : Quiescent σ
  out : σ.out = 0

theorem settled_initial : Settled State.initial where
  reachable := .refl
  quiescent := fun _ hc => absurd hc List.not_mem_nil
  out := rfl

theorem Settled.balanced (h : Settled σ) : balanced (snapshot σ.shared) = true :=
  (balanced_iff h.reachable h.quiescent).mpr h.out

theorem Settled.between (h : Settled σ) (hbetween : Between σ τ o) (hexact : o.Exact a b) :
    Settled τ where
  reachable := hbetween.1.reachable h.reachable
  quiescent := hbetween.2.1
  out := hbetween.2.2.symm.trans hexact.out

/-- An execution is what the case expects. -/
def Passes (expected a b : BitVec 32) (e : Execution) (o : Outcome) : Prop :=
  e.retval = some expected ∧ e.after.isSome = true ∧ o.Exact a b

theorem runRepeats_iff {expected : BitVec 32} {es : List Execution} {os : List Outcome}
    (hσ : Settled σ) (h : Executed σ es os τ) :
    runRepeats expected a b (snapshot σ.shared) es = true ↔
      List.Forall₂ (Passes expected a b) es os := by
  induction h with
  | nil => exact iff_of_true rfl .nil
  | @cons σ τ υ e o es os hbetween hseen _ ih =>
    have hdelta := delta_iff (a := a) (b := b) hσ.reachable hσ.quiescent hσ.out hbetween
    rw [List.forall₂_cons, runRepeats]
    split
    · next retval after hretval hafter =>
      obtain rfl := hseen after hafter
      simp only [Bool.and_eq_true, beq_iff_eq, hdelta, Passes, hretval, hafter, Option.some.injEq,
        Option.isSome_some, true_and]
      constructor
      · rintro ⟨⟨hsame, hexact⟩, hrest⟩
        exact ⟨⟨hsame, hexact⟩, (ih (hσ.between hbetween hexact)).mp hrest⟩
      · rintro ⟨⟨hsame, hexact⟩, hrest⟩
        exact ⟨⟨hsame, hexact⟩, (ih (hσ.between hbetween hexact)).mpr hrest⟩
    · next hnone =>
      refine iff_of_false Bool.false_ne_true ?_
      rintro ⟨⟨hretval, hafter, _⟩, _⟩
      obtain ⟨after, hafter⟩ := Option.isSome_iff_exists.mp hafter
      exact hnone _ _ hretval hafter

/-- Once, and `k` times more. -/
theorem once_more (x y : BitVec 64) (k : Nat) :
    x + y + y * BitVec.ofNat 64 k = x + y * BitVec.ofNat 64 (k + 1) := by
  have hone : (1#64) = 1 := rfl
  rw [BitVec.ofNat_add, hone]
  ring

/-- A loop that passes leaves the provider settled, and its counters ahead by what was expected. -/
theorem runRepeats_counters {expected : BitVec 32} {es : List Execution} {os : List Outcome}
    (hσ : Settled σ) (h : Executed σ es os τ)
    (hpass : runRepeats expected a b (snapshot σ.shared) es = true) : Settled τ ∧
      τ.shared.acquisitions =
        σ.shared.acquisitions + a.setWidth 64 * BitVec.ofNat 64 es.length ∧
      τ.shared.reads = σ.shared.reads + b.setWidth 64 * BitVec.ofNat 64 es.length := by
  induction h with
  | nil => exact ⟨hσ, by simp, by simp⟩
  | @cons σ τ υ e o es os hbetween hseen _ ih =>
    rw [runRepeats] at hpass
    split at hpass
    · next retval after _ hafter =>
      obtain rfl := hseen after hafter
      simp only [Bool.and_eq_true] at hpass
      obtain ⟨⟨_, hdelta⟩, hrest⟩ := hpass
      have hexact := (delta_iff hσ.reachable hσ.quiescent hσ.out hbetween).mp hdelta
      obtain ⟨hsettled, hacquisitions, hreads⟩ := ih (hσ.between hbetween hexact) hrest
      simp only [delta, snapshot, Bool.and_eq_true, beq_iff_eq] at hdelta
      refine ⟨hsettled, ?_, ?_⟩
      · rw [hacquisitions, hdelta.1.1.2, List.length_cons, once_more]
      · rw [hreads, hdelta.2, List.length_cons, once_more]
    · cases hpass

theorem runValid_iff {expected : BitVec 32} {c : Case} {os : List Outcome} (hσ : Settled σ)
    (hseen : Seen c.before σ) (h : Executed σ c.executions os τ) :
    (runValid expected a b totals c).isSome = true ↔ c.before.isSome = true ∧ c.loaded = true ∧
      c.jited = true ∧ List.Forall₂ (Passes expected a b) c.executions os := by
  rw [← runRepeats_iff hσ h]
  unfold runValid
  split
  · next hnone => simp [hnone]
  · next before hbefore =>
    obtain rfl := hseen before hbefore
    rw [hσ.balanced]
    cases c.loaded <;> cases c.jited <;>
      cases runRepeats expected a b (snapshot σ.shared) c.executions <;> simp [hbefore]

theorem checkRejected_iff {p : Probe} (hσ : Settled σ) (hseen : Seen p.before σ)
    (h : Between σ τ o) (hseen' : Seen p.after τ) :
    (checkRejected totals p).isSome = true ↔ p.before.isSome = true ∧ p.loaded = false ∧
      p.attributed = true ∧ p.after.isSome = true ∧ o.Exact 0 0 := by
  rw [← delta_iff hσ.reachable hσ.quiescent hσ.out h]
  unfold checkRejected
  split
  · next hnone => simp [hnone]
  · next before hbefore =>
    obtain rfl := hseen before hbefore
    rw [hσ.balanced]
    split
    · next hnone => cases hnone
    · split
      · next hloaded => simp [hloaded]
      · next hloaded =>
        split
        · next hattributed =>
          have hno : p.attributed = false := by simpa using hattributed
          simp [hno]
        · next hattributed =>
          have hyes : p.attributed = true := by simpa using hattributed
          split
          · next hnone => simp [hnone]
          · next after hafter =>
            obtain rfl := hseen' after hafter
            cases delta (snapshot σ.shared) (snapshot τ.shared) 0 0 <;>
              simp [hbefore, hloaded, hyes, hafter]

/-! ### The session -/

/-- The totals of the guest are the counters of the provider. -/
structure Tallied (σ : State) (totals : Totals) : Prop where
  settled : Settled σ
  acquisitions : σ.shared.acquisitions = totals.acquisitions
  reads : σ.shared.reads = totals.reads

theorem Tallied.runValid {expected : BitVec 32} {c : Case} {os : List Outcome}
    (hσ : Tallied σ totals) (hseen : Seen c.before σ) (h : Executed σ c.executions os τ)
    (hpass : runValid expected a b totals c = some totals') : Tallied τ totals' := by
  unfold Kfunc.runValid at hpass
  split at hpass
  · cases hpass
  · next before hbefore =>
    obtain rfl := hseen before hbefore
    split at hpass
    · cases hpass
    · split at hpass
      · cases hpass
      · split at hpass
        · cases hpass
        · split at hpass
          · cases hpass
          · next hloop =>
            cases hpass
            obtain ⟨hsettled, hacquisitions, hreads⟩ :=
              runRepeats_counters hσ.settled h (by simpa using hloop)
            have hrepeats : c.repeats.setWidth 64 = BitVec.ofNat 64 c.executions.length := by
              rw [c.ok, BitVec.ofNat_toNat]
            refine ⟨hsettled, ?_, ?_⟩
            · rw [hacquisitions, hσ.acquisitions, hrepeats]
            · rw [hreads, hσ.reads, hrepeats]

theorem Tallied.checkRejected {p : Probe} (hσ : Tallied σ totals) (hseen : Seen p.before σ)
    (h : Between σ τ o) (hseen' : Seen p.after τ)
    (hpass : checkRejected totals p = some totals') : Tallied τ totals' := by
  unfold Kfunc.checkRejected at hpass
  split at hpass
  · cases hpass
  · next before hbefore =>
    obtain rfl := hseen before hbefore
    split at hpass
    · cases hpass
    · split at hpass
      · cases hpass
      · split at hpass
        · cases hpass
        · split at hpass
          · cases hpass
          · next after hafter =>
            obtain rfl := hseen' after hafter
            split at hpass
            · cases hpass
            · next hdelta =>
              cases hpass
              have hdelta : delta (snapshot σ.shared) (snapshot τ.shared) 0 0 = true := by
                simpa using hdelta
              have hexact := (delta_iff hσ.settled.reachable hσ.settled.quiescent hσ.settled.out
                h).mp hdelta
              simp only [delta, snapshot, Bool.and_eq_true, beq_iff_eq] at hdelta
              refine ⟨hσ.settled.between h hexact, ?_, ?_⟩
              · rw [hdelta.1.1.2, hσ.acquisitions]
                exact BitVec.add_zero _
              · rw [hdelta.2, hσ.reads]
                exact BitVec.add_zero _

theorem Session.tallied (h : Session σ totals) : Tallied σ totals := by
  induction h with
  | start => exact ⟨settled_initial, rfl, rfl⟩
  | valid expected acquisitions reads _ hseen hexecuted hpass ih =>
    exact ih.runValid hseen hexecuted hpass
  | rejected _ hseen hbetween hseen' hpass ih => exact ih.checkRejected hseen hbetween hseen' hpass

/-- The guest's accounting is exact. Wherever its cases have passed so far, the next one passes if and
only if every execution returned what was expected, acquired and read what was expected and left no
handle out; a probe passes if and only if it was rejected and nothing happened; and the comparison at
the end cannot fail but for the number of cases. -/
theorem guest_accounting (σ : State) (totals : Totals) (h : Session σ totals) :
    (∀ (expected a b : BitVec 32) (c : Case) (os : List Outcome) (τ : State), Seen c.before σ →
      Executed σ c.executions os τ →
      ((runValid expected a b totals c).isSome = true ↔ c.before.isSome = true ∧ c.loaded = true ∧
        c.jited = true ∧ List.Forall₂ (Passes expected a b) c.executions os)) ∧
    (∀ (p : Probe) (o : Outcome) (τ : State), Seen p.before σ → Between σ τ o → Seen p.after τ →
      ((checkRejected totals p).isSome = true ↔ p.before.isSome = true ∧ p.loaded = false ∧
        p.attributed = true ∧ p.after.isSome = true ∧ o.Exact 0 0)) ∧
    ∀ final, Seen final σ → (finalAccounting final totals = true ↔ final.isSome = true ∧
      totals.positiveCases = 13 ∧ totals.rejectedCases = 5 ∧ totals.repeatedRuns = 32 ∧
      totals.executions = 45) := by
  have htallied := h.tallied
  refine ⟨?_, ?_, ?_⟩
  · intro expected a b c os τ hseen hexecuted
    exact runValid_iff htallied.settled hseen hexecuted
  · intro p o τ hseen hbetween hseen'
    exact checkRejected_iff htallied.settled hseen hbetween hseen'
  · intro final hseen
    cases final with
    | none => simp [finalAccounting]
    | some final =>
      obtain rfl := hseen final rfl
      have hacquisitions : (snapshot σ.shared).acquisitions = totals.acquisitions :=
        htallied.acquisitions
      have hreads : (snapshot σ.shared).reads = totals.reads := htallied.reads
      simp [finalAccounting, htallied.settled.balanced, hacquisitions, hreads, and_assoc]

/-- One handle is out. -/
def leaking : State := ⟨⟨42, 2, 1, 0, 1, 0⟩, [⟨.returned, 1, []⟩]⟩

/-- A program acquires a handle and keeps it. -/
theorem between_leaking : Between State.initial leaking ⟨1, 0, 1⟩ := by
  have hbounded : ∀ p c, Bounded ⟨p, [c]⟩ := by
    intro p c
    have hone : ∀ weight : Phase → Nat, (∀ phase, weight phase ≤ 1) →
        State.count weight ⟨p, [c]⟩ ≤ 1 := by
      intro weight hle
      simpa [State.count, Population.total] using hle c.phase
    have hrefs := hone Phase.refWeight fun phase => by cases phase <;> decide
    have htotal := hone Phase.acquisitionWeight fun phase => by cases phase <;> decide
    exact ⟨by omega, by omega⟩
  have hstart : Run State.initial _ 1 0 := .acquire 0 true .start (hbounded _ _)
  have href := hstart.advance 0 .acquire rfl rfl (hbounded _ _)
  have hnumber := href.advance 0 .acquire rfl rfl (hbounded _ _)
  have hcount := hnumber.advance 0 .acquire rfl rfl (hbounded _ _)
  refine ⟨hcount.advance 0 .acquire rfl rfl (hbounded _ _), ?_, rfl⟩
  intro c hc
  obtain rfl := List.mem_singleton.mp hc
  exact ⟨.inl rfl, rfl⟩

/-- The case that expects its release fails, though the program returns what it should. -/
def leakingCase : Case where
  before := some (snapshot State.initial.shared)
  loaded := true
  jited := true
  repeats := 1
  executions := [⟨some 42, some (snapshot leaking.shared)⟩]
  ok := rfl

theorem guest_accounting_leaking : runValid 42 1 0 .empty leakingCase = none := by
  have hexecuted : Executed State.initial leakingCase.executions [⟨1, 0, 1⟩] leaking :=
    .cons between_leaking (fun _ h => (Option.some.inj h).symm) .nil
  have hiff := (guest_accounting State.initial .empty .start).1 42 1 0 leakingCase _ _
    (fun _ h => (Option.some.inj h).symm) hexecuted
  rw [← Option.not_isSome_iff_eq_none, hiff]
  rintro ⟨_, _, _, hpasses⟩
  obtain ⟨⟨_, _, hexact⟩, _⟩ := List.forall₂_cons.mp hpasses
  exact absurd hexact.out (by decide)

end Cbpf.Kfunc
