import Mathlib
import Cbpf.Lib.Population

/-!
# The kfunc provider under any interleaving (`src/linux/kfunc/cbpf_kfunc.c:97-141`)

Every atomic operation of `cbpf_ref_acquire`, `cbpf_ref_read` and `cbpf_ref_release` is one step, and
steps of all calls interleave. The calls on one cell are kept with it: its acquire, then any reads,
then its release. The verifier is why a cell has no other calls. Counters wrap and `refs` saturates
as the kernel's do.
-/

namespace Cbpf.Kfunc

/-! ### The counters -/

/-- `REFCOUNT_SATURATED`: `INT_MIN / 2`. -/
def refcountSaturated : BitVec 32 := 0xc0000000

/-- `refcount_inc`, with its saturation. -/
def refcountInc (r : BitVec 32) : BitVec 32 :=
  if r.toInt ≤ 0 ∨ (r + 1).toInt < 0 then refcountSaturated else r + 1

/-- `refcount_dec`, with its saturation. -/
def refcountDec (r : BitVec 32) : BitVec 32 := if r.toInt ≤ 1 then refcountSaturated else r - 1

/-- The static variables of the module: `cbpf_object` and the counters. -/
structure Provider where
  value : Int
  refs : BitVec 32
  acquisitions : BitVec 64
  releases : BitVec 64
  live : BitVec 64
  reads : BitVec 64
  deriving DecidableEq, Repr

/-- The values at module load. -/
def Provider.initial : Provider := ⟨42, 1, 0, 0, 0, 0⟩

/-! ### The calls -/

/-- How far the acquire or the release of a cell has come: the last thing it did. -/
inductive Phase where
  /-- `kzalloc` -/
  | allocated
  /-- `refcount_inc` -/
  | referenced
  /-- `atomic64_inc_return(&acquisitions)` -/
  | numbered
  /-- `atomic64_inc(&live)` -/
  | counted
  /-- `return &cell->handle` -/
  | returned
  /-- `cbpf_ref_release` is called -/
  | releasing
  /-- `refcount_dec` -/
  | unreferenced
  /-- `atomic64_inc(&releases)` -/
  | released
  /-- `atomic64_dec(&live)` -/
  | uncounted
  /-- `kfree` -/
  | freed
  deriving DecidableEq, Repr

/-- How far a read has come. -/
inductive ReadPc where
  | begun
  | counted
  | loaded (value : Int)
  deriving DecidableEq, Repr

/-- `struct cbpf_cell`, with the calls on it. `reads` are the reads in progress. -/
structure Cell where
  phase : Phase
  id : BitVec 64
  reads : List ReadPc
  deriving DecidableEq, Repr

/-- `cbpf_ref_acquire` up to its allocation; `none` is NULL. -/
def acquireEntry (wantNull : BitVec 32) (kzalloc : Bool) : Option Cell :=
  if wantNull ≠ 0 then none
  else if !kzalloc then none
  else some ⟨.allocated, 0, []⟩

/-- One step of `cbpf_ref_acquire` behind its allocation. -/
def cbpfRefAcquire (p : Provider) (c : Cell) : Option (Provider × Cell) :=
  match c.phase with
  | .allocated => some ({ p with refs := refcountInc p.refs }, { c with phase := .referenced })
  | .referenced =>
    let id := p.acquisitions + 1
    some ({ p with acquisitions := id }, { c with phase := .numbered, id := id })
  | .numbered => some ({ p with live := p.live + 1 }, { c with phase := .counted })
  | .counted => some (p, { c with phase := .returned })
  | _ => none

/-- `cbpf_ref_read` is called: the handle is returned and its release has not begun. -/
def readEntry (c : Cell) : Option Cell :=
  if c.phase = .returned then some { c with reads := c.reads ++ [.begun] } else none

/-- One step of the `k`-th `cbpf_ref_read` in progress. -/
def cbpfRefRead (p : Provider) (c : Cell) (k : Nat) : Option (Provider × Cell) :=
  match c.reads[k]? with
  | none => none
  | some .begun => some ({ p with reads := p.reads + 1 }, { c with reads := c.reads.set k .counted })
  | some .counted => some (p, { c with reads := c.reads.set k (.loaded p.value) })
  | some (.loaded _) => some (p, { c with reads := c.reads.eraseIdx k })

/-- One step of `cbpf_ref_release`, its call included. -/
def cbpfRefRelease (p : Provider) (c : Cell) : Option (Provider × Cell) :=
  match c.phase with
  | .returned => some (p, { c with phase := .releasing })
  | .releasing => some ({ p with refs := refcountDec p.refs }, { c with phase := .unreferenced })
  | .unreferenced => some ({ p with releases := p.releases + 1 }, { c with phase := .released })
  | .released => some ({ p with live := p.live - 1 }, { c with phase := .uncounted })
  | .uncounted => some (p, { c with phase := .freed })
  | _ => none

/-- Whose step it is. -/
inductive Call where
  | acquire
  | readEntry
  | read (k : Nat)
  | release
  deriving DecidableEq, Repr

/-- The next step of a call on a cell. -/
def Cell.advance (p : Provider) (c : Cell) : Call → Option (Provider × Cell)
  | .acquire => cbpfRefAcquire p c
  | .readEntry => (Kfunc.readEntry c).map (p, ·)
  | .read k => cbpfRefRead p c k
  | .release => cbpfRefRelease p c

/-! ### The system -/

/-- The module and every cell that was ever allocated. -/
abbrev State := Population Provider Cell

def State.initial : State := ⟨.initial, []⟩

/-- A call of `cbpf_ref_acquire` begins. -/
def State.acquire (σ : State) (wantNull : BitVec 32) (kzalloc : Bool) : State :=
  ⟨σ.shared, σ.members ++ (acquireEntry wantNull kzalloc).toList⟩

/-- Cells arrive by the calls of `cbpf_ref_acquire`; a NULL call brings none. -/
def Arrive (p p' : Provider) (new : List Cell) : Prop :=
  p' = p ∧ ∃ wantNull kzalloc, new = (acquireEntry wantNull kzalloc).toList

def Advance (p : Provider) (c : Cell) (p' : Provider) (c' : Cell) : Prop :=
  ∃ call, c.advance p call = some (p', c')

/-! What a cell stands for in each counter. -/

/-- A reference to the object, from `refcount_inc` to `refcount_dec`. -/
def Phase.refWeight : Phase → Nat
  | .referenced | .numbered | .counted | .returned | .releasing => 1
  | _ => 0

/-- One of `acquisitions`. -/
def Phase.acquisitionWeight : Phase → Nat
  | .allocated | .referenced => 0
  | _ => 1

/-- One of `releases`. -/
def Phase.releaseWeight : Phase → Nat
  | .released | .uncounted | .freed => 1
  | _ => 0

/-- One of `live`. -/
def Phase.liveWeight : Phase → Nat
  | .counted | .returned | .releasing | .unreferenced | .released => 1
  | _ => 0

/-- A returned handle whose release has not begun. -/
def Phase.handedWeight : Phase → Nat
  | .returned => 1
  | _ => 0

/-- The cells that count with a weight of their phase. -/
def State.count (weight : Phase → Nat) (σ : State) : Nat :=
  Population.total (fun c : Cell => weight c.phase) σ

/-- Fewer than 2^31 - 2 simultaneous acquisitions, fewer than 2^63 in total. -/
structure Bounded (σ : State) : Prop where
  simultaneous : σ.count Phase.refWeight < 2 ^ 31 - 2
  total : σ.count Phase.acquisitionWeight < 2 ^ 63

/-- The states of the module within the bounds, in any order of the steps of all calls. -/
def Reachable (σ : State) : Prop := Population.Reachable Arrive Advance Bounded State.initial σ

/-- No call is in progress. -/
def Quiescent (σ : State) : Prop :=
  ∀ c ∈ σ.members, (c.phase = .returned ∨ c.phase = .freed) ∧ c.reads = []

/-! ### The arithmetic of the counters -/

theorem refcountInc_toInt {r : BitVec 32} (hpos : 1 ≤ r.toInt) (hlt : r.toInt + 1 < 2 ^ 31) :
    (refcountInc r).toInt = r.toInt + 1 := by
  have hsum : (r + 1).toInt = r.toInt + 1 := by
    rw [BitVec.toInt_add]
    exact Int.bmod_eq_of_le (by simp; omega) (by simp; omega)
  rw [refcountInc, if_neg (by omega), hsum]

theorem refcountDec_toInt {r : BitVec 32} (h : 2 ≤ r.toInt) :
    (refcountDec r).toInt = r.toInt - 1 := by
  have hlt := BitVec.toInt_lt (x := r)
  rw [refcountDec, if_neg (by omega), BitVec.toInt_sub]
  exact Int.bmod_eq_of_le (by simp; omega) (by simp; omega)

theorem toNat_inc {x : BitVec 64} (h : x.toNat + 1 < 2 ^ 64) : (x + 1).toNat = x.toNat + 1 := by
  rw [BitVec.toNat_add]
  exact Nat.mod_eq_of_lt h

theorem toNat_dec {x : BitVec 64} (h : 1 ≤ x.toNat) : (x - 1).toNat + 1 = x.toNat := by
  have hle : (1 : BitVec 64) ≤ x := h
  rw [BitVec.toNat_sub_of_le hle]
  exact Nat.sub_add_cancel h

/-- Below 2^63 a counter reads the same with and without its sign. -/
theorem toInt_eq_toNat {x : BitVec 64} (h : x.toNat < 2 ^ 63) : x.toInt = x.toNat :=
  BitVec.toInt_eq_toNat_of_lt (by omega)

/-! ### The accounts -/

/-- Every counter is what the cells stand for. -/
structure Accounts (σ : State) : Prop where
  refs : σ.shared.refs.toInt = 1 + σ.count Phase.refWeight
  acquisitions : σ.shared.acquisitions.toNat = σ.count Phase.acquisitionWeight
  releases : σ.shared.releases.toNat = σ.count Phase.releaseWeight
  live : σ.shared.live.toNat = σ.count Phase.liveWeight

theorem accounts_initial : Accounts State.initial := ⟨rfl, rfl, rfl, rfl⟩

/-- The cell of an acquire that is not NULL. -/
theorem eq_of_acquireEntry {wantNull : BitVec 32} {kzalloc : Bool} :
    ∀ c ∈ (acquireEntry wantNull kzalloc).toList, c = ⟨.allocated, 0, []⟩ := by
  intro c hc
  rw [Option.mem_toList] at hc
  unfold acquireEntry at hc
  split at hc
  · cases hc
  · split at hc
    · cases hc
    · cases hc
      rfl

/-- A cell that arrives counts nowhere. -/
theorem acquireEntry_phase {wantNull : BitVec 32} {kzalloc : Bool} :
    ∀ c ∈ (acquireEntry wantNull kzalloc).toList, c.phase = .allocated := by
  intro c hc
  rw [eq_of_acquireEntry c hc]

theorem count_append {weight : Phase → Nat} {p p' : Provider} {cells new : List Cell}
    (hnew : ∀ c ∈ new, c.phase = .allocated) (hweight : weight .allocated = 0) :
    State.count weight ⟨p', cells ++ new⟩ = State.count weight ⟨p, cells⟩ := by
  rw [State.count, Population.total_append _ p, State.count, List.map_congr_left (g := fun _ => 0)]
  · simp
  · intro c hc
    rw [hnew c hc, hweight]

theorem Accounts.arrive {p : Provider} {cells new : List Cell} (h : Accounts ⟨p, cells⟩)
    (hnew : ∀ c ∈ new, c.phase = .allocated) : Accounts ⟨p, cells ++ new⟩ where
  refs := by rw [count_append (p := p) hnew rfl]; exact h.refs
  acquisitions := by rw [count_append (p := p) hnew rfl]; exact h.acquisitions
  releases := by rw [count_append (p := p) hnew rfl]; exact h.releases
  live := by rw [count_append (p := p) hnew rfl]; exact h.live

section Moves

variable {p p' : Provider} {cells : List Cell} {i : Nat} {c c' : Cell}

theorem count_set (weight : Phase → Nat) (p p' : Provider) (hget : cells[i]? = some c)
    (c' : Cell) : State.count weight ⟨p', cells.set i c'⟩ + weight c.phase =
      State.count weight ⟨p, cells⟩ + weight c'.phase :=
  Population.total_set (fun c : Cell => weight c.phase) p p' hget c'

theorem le_count (weight : Phase → Nat) (hget : cells[i]? = some c) :
    weight c.phase ≤ State.count weight ⟨p, cells⟩ :=
  Population.le_total (σ := ⟨p, cells⟩) (fun c : Cell => weight c.phase) hget

/-- A step keeps the accounts when it changes each counter as it changes what its cell stands for. -/
theorem Accounts.move (h : Accounts ⟨p, cells⟩) (hget : cells[i]? = some c)
    (hrefs : p'.refs.toInt + c.phase.refWeight = p.refs.toInt + c'.phase.refWeight)
    (hacquisitions : p'.acquisitions.toNat + c.phase.acquisitionWeight =
      p.acquisitions.toNat + c'.phase.acquisitionWeight)
    (hreleases : p'.releases.toNat + c.phase.releaseWeight =
      p.releases.toNat + c'.phase.releaseWeight)
    (hlive : p'.live.toNat + c.phase.liveWeight = p.live.toNat + c'.phase.liveWeight) :
    Accounts ⟨p', cells.set i c'⟩ where
  refs := by
    have hset := count_set Phase.refWeight p p' hget c'
    have hold : p.refs.toInt = 1 + State.count Phase.refWeight ⟨p, cells⟩ := h.refs
    change p'.refs.toInt = _
    omega
  acquisitions := by
    have hset := count_set Phase.acquisitionWeight p p' hget c'
    have hold : p.acquisitions.toNat = State.count Phase.acquisitionWeight ⟨p, cells⟩ :=
      h.acquisitions
    change p'.acquisitions.toNat = _
    omega
  releases := by
    have hset := count_set Phase.releaseWeight p p' hget c'
    have hold : p.releases.toNat = State.count Phase.releaseWeight ⟨p, cells⟩ := h.releases
    change p'.releases.toNat = _
    omega
  live := by
    have hset := count_set Phase.liveWeight p p' hget c'
    have hold : p.live.toNat = State.count Phase.liveWeight ⟨p, cells⟩ := h.live
    change p'.live.toNat = _
    omega

/-- A step that moves neither a counter of the accounts nor the phase. -/
theorem Accounts.keep (h : Accounts ⟨p, cells⟩) (hget : cells[i]? = some c)
    (hphase : c'.phase = c.phase) (reads : BitVec 64) :
    Accounts ⟨{ p with reads := reads }, cells.set i c'⟩ :=
  h.move hget (by rw [hphase]) (by rw [hphase]) (by rw [hphase]) (by rw [hphase])

/-- Releases and live cells are acquisitions. -/
theorem releaseWeight_le (c : Cell) : c.phase.releaseWeight ≤ c.phase.acquisitionWeight := by
  cases c.phase <;> decide

theorem liveWeight_le (c : Cell) : c.phase.liveWeight ≤ c.phase.acquisitionWeight := by
  cases c.phase <;> decide

theorem handedWeight_le (c : Cell) : c.phase.handedWeight ≤ c.phase.refWeight := by
  cases c.phase <;> decide

theorem Bounded.releases {σ : State} (h : Bounded σ) : σ.count Phase.releaseWeight < 2 ^ 63 :=
  Nat.lt_of_le_of_lt (Population.total_le_total releaseWeight_le σ) h.total

theorem Bounded.live {σ : State} (h : Bounded σ) : σ.count Phase.liveWeight < 2 ^ 63 :=
  Nat.lt_of_le_of_lt (Population.total_le_total liveWeight_le σ) h.total

theorem Accounts.acquire (h : Accounts ⟨p, cells⟩) (hget : cells[i]? = some c)
    (hstep : cbpfRefAcquire p c = some (p', c')) (hbound : Bounded ⟨p', cells.set i c'⟩) :
    Accounts ⟨p', cells.set i c'⟩ := by
  have hrefs : p.refs.toInt = 1 + State.count Phase.refWeight ⟨p, cells⟩ := h.refs
  have hacquisitions : p.acquisitions.toNat = State.count Phase.acquisitionWeight ⟨p, cells⟩ :=
    h.acquisitions
  have hlive : p.live.toNat = State.count Phase.liveWeight ⟨p, cells⟩ := h.live
  unfold cbpfRefAcquire at hstep
  split at hstep
  · next hphase =>
    cases hstep
    -- the target is within the bound, so the increment does not saturate
    have hset := count_set Phase.refWeight p { p with refs := refcountInc p.refs } hget
      { c with phase := .referenced }
    have hlt := hbound.simultaneous
    simp only [hphase, Phase.refWeight] at hset
    have hinc := refcountInc_toInt (r := p.refs) (by omega) (by omega)
    refine h.move hget ?_ ?_ ?_ ?_
    · simp only [hphase, Phase.refWeight, hinc]
      omega
    all_goals simp only [hphase]; rfl
  · next hphase =>
    cases hstep
    have hset := count_set Phase.acquisitionWeight p { p with acquisitions := p.acquisitions + 1 }
      hget { c with phase := .numbered, id := p.acquisitions + 1 }
    have hlt := hbound.total
    simp only [hphase, Phase.acquisitionWeight] at hset
    have hinc := toNat_inc (x := p.acquisitions) (by omega)
    refine h.move hget ?_ ?_ ?_ ?_ <;> simp only [hphase, Phase.acquisitionWeight, hinc] <;> rfl
  · next hphase =>
    cases hstep
    have hset := count_set Phase.liveWeight p { p with live := p.live + 1 } hget
      { c with phase := .counted }
    have hlt := hbound.live
    simp only [hphase, Phase.liveWeight] at hset
    have hinc := toNat_inc (x := p.live) (by omega)
    refine h.move hget ?_ ?_ ?_ ?_ <;> simp only [hphase, Phase.liveWeight, hinc] <;> rfl
  · next hphase =>
    cases hstep
    refine h.move hget ?_ ?_ ?_ ?_ <;> simp only [hphase] <;> rfl
  · cases hstep

theorem Accounts.release (h : Accounts ⟨p, cells⟩) (hget : cells[i]? = some c)
    (hstep : cbpfRefRelease p c = some (p', c')) (hbound : Bounded ⟨p', cells.set i c'⟩) :
    Accounts ⟨p', cells.set i c'⟩ := by
  have hrefs : p.refs.toInt = 1 + State.count Phase.refWeight ⟨p, cells⟩ := h.refs
  have hreleases : p.releases.toNat = State.count Phase.releaseWeight ⟨p, cells⟩ := h.releases
  have hlive : p.live.toNat = State.count Phase.liveWeight ⟨p, cells⟩ := h.live
  unfold cbpfRefRelease at hstep
  split at hstep
  · next hphase =>
    cases hstep
    refine h.move hget ?_ ?_ ?_ ?_ <;> simp only [hphase] <;> rfl
  · next hphase =>
    cases hstep
    -- the cell itself holds a reference beside the baseline, so the decrement does not saturate
    have hle := le_count (p := p) Phase.refWeight hget
    simp only [hphase, Phase.refWeight] at hle
    have hdec := refcountDec_toInt (r := p.refs) (by omega)
    refine h.move hget ?_ ?_ ?_ ?_
    · simp only [hphase, Phase.refWeight, hdec]
      omega
    all_goals simp only [hphase]; rfl
  · next hphase =>
    cases hstep
    have hset := count_set Phase.releaseWeight p { p with releases := p.releases + 1 } hget
      { c with phase := .released }
    have hlt := hbound.releases
    simp only [hphase, Phase.releaseWeight] at hset
    have hinc := toNat_inc (x := p.releases) (by omega)
    refine h.move hget ?_ ?_ ?_ ?_ <;> simp only [hphase, Phase.releaseWeight, hinc] <;> rfl
  · next hphase =>
    cases hstep
    have hle := le_count (p := p) Phase.liveWeight hget
    simp only [hphase, Phase.liveWeight] at hle
    have hdec := toNat_dec (x := p.live) (by omega)
    refine h.move hget ?_ ?_ ?_ ?_
    · simp only [hphase]; rfl
    · simp only [hphase]; rfl
    · simp only [hphase]; rfl
    · simp only [hphase, Phase.liveWeight]
      omega
  · next hphase =>
    cases hstep
    refine h.move hget ?_ ?_ ?_ ?_ <;> simp only [hphase] <;> rfl
  · cases hstep

end Moves

/-- Every step within the bounds keeps the accounts. -/
theorem Accounts.step {σ τ : State} (h : Accounts σ)
    (hstep : Population.Step Arrive Advance σ τ) (hbound : Bounded τ) : Accounts τ := by
  cases hstep with
  | arrive hnew =>
    obtain ⟨rfl, wantNull, kzalloc, rfl⟩ := hnew
    exact h.arrive acquireEntry_phase
  | @move p p' cells c c' i hget hadvance =>
    obtain ⟨call, hcall⟩ := hadvance
    cases call with
    | acquire => exact h.acquire hget hcall hbound
    | release => exact h.release hget hcall hbound
    | readEntry =>
      simp only [Cell.advance, readEntry, Option.map_eq_some_iff] at hcall
      obtain ⟨c'', hentry, hpair⟩ := hcall
      cases hpair
      split at hentry
      · cases hentry
        refine h.keep hget ?_ p.reads
        rfl
      · cases hentry
    | read k =>
      simp only [Cell.advance, cbpfRefRead] at hcall
      split at hcall
      · cases hcall
      · cases hcall
        refine h.keep hget ?_ (p.reads + 1)
        rfl
      · cases hcall
        refine h.keep hget ?_ p.reads
        rfl
      · cases hcall
        refine h.keep hget ?_ p.reads
        rfl

/-! ### The ids -/

/-- The cell has its number. -/
def Cell.Numbered (c : Cell) : Prop := c.phase.acquisitionWeight = 1

/-- Numbers are given out in order, each once. -/
structure Ids (σ : State) : Prop where
  le : ∀ c ∈ σ.members, c.Numbered → c.id.toNat ≤ σ.shared.acquisitions.toNat
  distinct : σ.Pairs Cell.Numbered fun c d => c.id ≠ d.id

theorem ids_initial : Ids State.initial :=
  ⟨fun _ hc => absurd hc List.not_mem_nil, fun _ _ _ _ hi => nomatch hi⟩

/-- A step numbers its cell, or leaves all numbers as they are. -/
theorem advance_number {p p' : Provider} {c c' : Cell} (h : Advance p c p' c') :
    (c.phase = .referenced ∧ p'.acquisitions = p.acquisitions + 1 ∧ c'.phase = .numbered ∧
      c'.id = p.acquisitions + 1) ∨
    (p'.acquisitions = p.acquisitions ∧ c'.id = c.id ∧ (c'.Numbered ↔ c.Numbered)) := by
  obtain ⟨call, hcall⟩ := h
  cases call with
  | acquire =>
    simp only [Cell.advance, cbpfRefAcquire] at hcall
    split at hcall
    · next hphase =>
      cases hcall
      exact .inr ⟨rfl, rfl, by simp [Cell.Numbered, Phase.acquisitionWeight, hphase]⟩
    · next hphase =>
      cases hcall
      exact .inl ⟨hphase, rfl, rfl, rfl⟩
    · next hphase =>
      cases hcall
      exact .inr ⟨rfl, rfl, by simp [Cell.Numbered, Phase.acquisitionWeight, hphase]⟩
    · next hphase =>
      cases hcall
      exact .inr ⟨rfl, rfl, by simp [Cell.Numbered, Phase.acquisitionWeight, hphase]⟩
    · cases hcall
  | release =>
    simp only [Cell.advance, cbpfRefRelease] at hcall
    split at hcall
    on_goal 6 => cases hcall
    all_goals
      next hphase =>
      cases hcall
      exact .inr ⟨rfl, rfl, by simp [Cell.Numbered, Phase.acquisitionWeight, hphase]⟩
  | readEntry =>
    simp only [Cell.advance, readEntry, Option.map_eq_some_iff] at hcall
    obtain ⟨c'', hentry, hpair⟩ := hcall
    cases hpair
    split at hentry
    · cases hentry
      exact .inr ⟨rfl, rfl, Iff.rfl⟩
    · cases hentry
  | read k =>
    simp only [Cell.advance, cbpfRefRead] at hcall
    split at hcall
    · cases hcall
    all_goals
      cases hcall
      exact .inr ⟨rfl, rfl, Iff.rfl⟩

/-- A fresh number is above every number that was given out. -/
theorem Ids.step {σ τ : State} (h : Ids σ) (haccounts : Accounts σ)
    (hstep : Population.Step Arrive Advance σ τ) (hbound : Bounded τ) : Ids τ := by
  cases hstep with
  | @arrive p p' cells new hnew =>
    obtain ⟨rfl, wantNull, kzalloc, rfl⟩ := hnew
    have hfresh : ∀ c ∈ (acquireEntry wantNull kzalloc).toList, ¬ c.Numbered := by
      intro c hc
      rw [Cell.Numbered, acquireEntry_phase c hc]
      decide
    refine ⟨fun c hc hnumbered => ?_, h.distinct.append hfresh⟩
    rcases List.mem_append.mp hc with hc | hc
    · exact h.le c hc hnumbered
    · exact absurd hnumbered (hfresh c hc)
  | @move p p' cells c c' i hget hadvance =>
    have hsymm : ∀ c d : Cell, c.id ≠ d.id → d.id ≠ c.id := fun _ _ => Ne.symm
    have hmem := List.mem_of_getElem? hget
    rcases advance_number hadvance with ⟨hphase, hnext, hphase', hid⟩ | ⟨hsame, hid, hnumbered⟩
    · -- the count of acquisitions grows by one within the bound, so it does not wrap
      have hset := count_set Phase.acquisitionWeight p p' hget c'
      have hcount : p.acquisitions.toNat = State.count Phase.acquisitionWeight ⟨p, cells⟩ :=
        haccounts.acquisitions
      have htotal := hbound.total
      simp only [hphase, hphase', Phase.acquisitionWeight] at hset
      have hinc := toNat_inc (x := p.acquisitions) (by omega)
      constructor
      · intro d hd hnumbered
        change d.id.toNat ≤ p'.acquisitions.toNat
        rw [hnext, hinc]
        rcases List.mem_or_eq_of_mem_set hd with hd | rfl
        · exact Nat.le_succ_of_le (h.le d hd hnumbered)
        · rw [hid, hinc]
      · refine h.distinct.set hsymm fun _ j d hj hji hnumbered heq => ?_
        have hle := h.le d (List.mem_of_getElem? hj) hnumbered
        change d.id.toNat ≤ p.acquisitions.toNat at hle
        rw [← heq, hid, hinc] at hle
        omega
    · constructor
      · intro d hd hd'
        change d.id.toNat ≤ p'.acquisitions.toNat
        rw [hsame]
        rcases List.mem_or_eq_of_mem_set hd with hd | rfl
        · exact h.le d hd hd'
        · rw [hid]
          exact h.le c hmem (hnumbered.mp hd')
      · refine h.distinct.set hsymm fun hc' j d hj hji hd => ?_
        rw [hid]
        exact h.distinct i j c d hget hj (Ne.symm hji) (hnumbered.mp hc') hd

/-! ### Every run -/

theorem bounded_initial : Bounded State.initial := ⟨by decide, by decide⟩

/-- The accounts and the ids hold in every reachable state. -/
theorem Reachable.accounts {σ : State} (h : Reachable σ) : Accounts σ ∧ Ids σ :=
  Population.Reachable.invariant (I := fun σ => Accounts σ ∧ Ids σ) h
    ⟨accounts_initial, ids_initial⟩ fun _ _ hinv hstep hbound =>
      ⟨hinv.1.step hstep hbound, hinv.2.step hinv.1 hstep hbound⟩

theorem Reachable.bounded {σ : State} (h : Reachable σ) : Bounded σ :=
  Population.Reachable.within h bounded_initial

/-- Without a call in progress a cell is with a program or gone, and counts accordingly. -/
theorem Quiescent.counts {σ : State} (h : Quiescent σ) :
    σ.count Phase.refWeight = σ.count Phase.liveWeight ∧
      σ.count Phase.acquisitionWeight =
        σ.count Phase.liveWeight + σ.count Phase.releaseWeight := by
  constructor
  · refine Population.total_congr fun c hc => ?_
    rcases (h c hc).1 with hphase | hphase <;> rw [hphase] <;> rfl
  · rw [State.count, State.count, State.count, ← Population.total_add]
    refine Population.total_congr fun c hc => ?_
    rcases (h c hc).1 with hphase | hphase <;> rw [hphase] <;> rfl

/-- The provider's accounts. In every state of every interleaving the object has a reference for the
baseline and one for each handle that is out, no counter runs ahead of those it follows, and numbers
are unique; between calls the counters agree. A NULL acquire leaves everything as it is. -/
theorem provider_accounting (σ : State) (h : Reachable σ) :
    (1 + σ.count Phase.handedWeight : Int) ≤ σ.shared.refs.toInt ∧
    0 ≤ σ.shared.live.toInt ∧
    σ.shared.releases.toNat ≤ σ.shared.acquisitions.toNat ∧
    (∀ (i j : Nat) (c d : Cell), σ.members[i]? = some c → σ.members[j]? = some d → i ≠ j →
      c.Numbered → d.Numbered → c.id ≠ d.id) ∧
    (Quiescent σ →
      σ.shared.acquisitions.toInt - σ.shared.releases.toInt = σ.shared.live.toInt ∧
      σ.shared.live.toInt = σ.shared.refs.toInt - 1) ∧
    ∀ wantNull kzalloc, wantNull ≠ 0 ∨ kzalloc = false → σ.acquire wantNull kzalloc = σ := by
  obtain ⟨haccounts, hids⟩ := h.accounts
  have hbound := h.bounded
  have hrefs := haccounts.refs
  have hacquisitions := haccounts.acquisitions
  have hreleases := haccounts.releases
  have hlive := haccounts.live
  have htotal := hbound.total
  have hlive63 := hbound.live
  have hreleases63 := hbound.releases
  have hliveInt := toInt_eq_toNat (x := σ.shared.live) (by omega)
  refine ⟨?_, by omega, ?_, hids.distinct, ?_, ?_⟩
  · have hle : σ.count Phase.handedWeight ≤ σ.count Phase.refWeight :=
      Population.total_le_total handedWeight_le σ
    omega
  · rw [hacquisitions, hreleases]
    exact Population.total_le_total releaseWeight_le σ
  · intro hquiet
    obtain ⟨hheld, htaken⟩ := hquiet.counts
    have hacquisitionsInt := toInt_eq_toNat (x := σ.shared.acquisitions) (by omega)
    have hreleasesInt := toInt_eq_toNat (x := σ.shared.releases) (by omega)
    omega
  · intro wantNull kzalloc hnull
    have hnone : acquireEntry wantNull kzalloc = none := by
      unfold acquireEntry
      rcases hnull with hwant | rfl
      · rw [if_pos hwant]
      · simp
    rw [State.acquire, hnone, Option.toList_none, List.append_nil]

/-- A call of `cbpf_ref_acquire` extends a run. -/
theorem Reachable.acquire {σ : State} (h : Reachable σ) (wantNull : BitVec 32) (kzalloc : Bool)
    (hbound : Bounded (σ.acquire wantNull kzalloc)) : Reachable (σ.acquire wantNull kzalloc) :=
  h.tail ⟨.arrive ⟨rfl, wantNull, kzalloc, rfl⟩, hbound⟩

/-- One step of a call extends a run. -/
theorem Reachable.advance {σ : State} (h : Reachable σ) (i : Nat) (call : Call) {c c' : Cell}
    {p' : Provider} (hget : σ.members[i]? = some c)
    (hstep : c.advance σ.shared call = some (p', c'))
    (hbound : Bounded ⟨p', σ.members.set i c'⟩) : Reachable ⟨p', σ.members.set i c'⟩ :=
  Population.Reachable.move h i hget ⟨call, hstep⟩ hbound

/-- Two acquires, of which the second has overtaken the first and returned. -/
def overtaken : State :=
  ⟨⟨42, 3, 1, 0, 1, 0⟩, [⟨.referenced, 0, []⟩, ⟨.returned, 1, []⟩]⟩

theorem reachable_overtaken : Reachable overtaken := by
  have hbounded : ∀ p cells, (State.count Phase.refWeight ⟨p, cells⟩ ≤ 2 ∧
      State.count Phase.acquisitionWeight ⟨p, cells⟩ ≤ 1) → Bounded ⟨p, cells⟩ := by
    rintro p cells ⟨hrefs, htotal⟩
    exact ⟨by omega, by omega⟩
  have hstart : Reachable State.initial := .refl
  have hfirst := hstart.acquire 0 true (hbounded _ _ (by decide))
  have hboth := hfirst.acquire 0 true (hbounded _ _ (by decide))
  have href := hboth.advance 0 .acquire rfl rfl (hbounded _ _ (by decide))
  have href' := href.advance 1 .acquire rfl rfl (hbounded _ _ (by decide))
  have hnumber := href'.advance 1 .acquire rfl rfl (hbounded _ _ (by decide))
  have hcount := hnumber.advance 1 .acquire rfl rfl (hbounded _ _ (by decide))
  exact hcount.advance 1 .acquire rfl rfl (hbounded _ _ (by decide))

/-- The first acquire holds a reference that no other counter shows yet. -/
theorem provider_accounting_overtaken :
    (1 + overtaken.count Phase.handedWeight : Int) ≤ overtaken.shared.refs.toInt ∧
      overtaken.count Phase.handedWeight = 1 ∧ overtaken.shared.refs.toInt = 3 :=
  ⟨(provider_accounting overtaken reachable_overtaken).1, rfl, rfl⟩

end Cbpf.Kfunc
