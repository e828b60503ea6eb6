import Cbpf.Model.EdgeCheck
import Cbpf.Lib.Schedule

/-!
# The reachable states (`theory/ownership.md`, "Three invariants")

An active state that passes `state_error` is given by its identities and its aliases alone, and every
such state is reached when there are as many registers as acquisitions: each token is acquired into a
register of its own, the consumed ones are released there, the spill slots are written, and last every
register is given its value. A token that stays in a register is acquired into one of those where it
stays, so that the last pass never overwrites a value it still has to copy.
-/

namespace Cbpf.Model

open Schedule

/-! ### Active states -/

/-- The active state with given identities and aliases; its effects and its count follow. -/
def State.ofAliases (live : List Bool) (registers spills : List Int) : State where
  live := live
  registers := registers
  spills := spills
  explicit := live.map fun live => ((!live).toNat : Int)
  cleanup := List.replicate live.length 0
  refcount := 1 + (live.count true : Int)
  terminal := .active

section OfAliases

variable {live : List Bool} {registers spills : List Int} {capacity : Nat}

theorem explicitAt_ofAliases {i : Nat} (hi : i < live.length) :
    (State.ofAliases live registers spills).explicitAt i =
      if (State.ofAliases live registers spills).liveAt i then 0 else 1 := by
  simp only [State.ofAliases, State.explicitAt, State.liveAt, List.getD_eq_getElem?_getD,
    List.getElem?_map, List.getElem?_eq_getElem hi, Option.map_some, Option.getD_some]
  cases live[i] <;> rfl

theorem cleanupAt_ofAliases (i : Nat) :
    (State.ofAliases live registers spills).cleanupAt i = 0 := by
  simp only [State.ofAliases, State.cleanupAt, List.getD_eq_getElem?_getD, List.getElem?_replicate]
  split <;> rfl

/-- Tokens that name acquisitions are all that is asked of an active state. -/
theorem wellFormed_ofAliases (hbudget : live.length ≤ capacity)
    (hregs : ∀ t ∈ registers, 0 ≤ t ∧ t ≤ live.length)
    (hspills : ∀ t ∈ spills, 0 ≤ t ∧ t ≤ live.length) :
    WellFormed (State.ofAliases live registers spills) capacity := by
  have he : (State.ofAliases live registers spills).explicit.length = live.length :=
    List.length_map _
  have hc : (State.ofAliases live registers spills).cleanup.length = live.length :=
    List.length_replicate
  have hcells : ∀ i < live.length, (State.ofAliases live registers spills).explicitAt i +
      (State.ofAliases live registers spills).cleanupAt i =
        if (State.ofAliases live registers spills).liveAt i then 0 else 1 := by
    intro i hi
    rw [explicitAt_ofAliases hi, cleanupAt_ofAliases, Int.add_zero]
  exact {
    budget := hbudget
    explicit_length := he
    cleanup_length := hc
    regs := hregs
    spills := hspills
    explicit_nonneg := by
      intro x hx
      obtain ⟨b, _, rfl⟩ := List.mem_map.mp hx
      exact Int.natCast_nonneg _
    cleanup_nonneg := by
      intro x hx
      rw [List.eq_of_mem_replicate hx]
    cells := hcells
    accounting := accounting_of_cells he hc hcells rfl
    refs := rfl
    terminal_done := fun ht => absurd rfl ht
    active_clean := fun _ x hx => List.eq_of_mem_replicate hx }

/-- The converse: an active state that passes `state_error` has this form. -/
theorem WellFormed.eq_ofAliases {s : State} (h : WellFormed s capacity) (ha : s.terminal = .active) :
    s = State.ofAliases s.live s.registers s.spills := by
  have hclean : s.cleanup = List.replicate s.live.length 0 :=
    List.eq_replicate_iff.mpr ⟨h.cleanup_length, h.active_clean ha⟩
  have hzero : ∀ i, s.cleanupAt i = 0 := by
    intro i
    rw [State.cleanupAt, hclean, List.getD_eq_getElem?_getD, List.getElem?_replicate]
    split <;> rfl
  refine State.ext rfl rfl rfl ?_ hclean h.refs ha
  refine ext_getD 0 (h.explicit_length.trans (List.length_map _).symm) fun i => ?_
  change s.explicitAt i = (State.ofAliases s.live s.registers s.spills).explicitAt i
  by_cases hi : i < s.live.length
  · have hcell := h.cells i hi
    rw [hzero i, Int.add_zero] at hcell
    rw [hcell, explicitAt_ofAliases hi]
    rfl
  · have hout : (State.ofAliases s.live s.registers s.spills).explicit.length ≤ i :=
      (List.length_map _).trans_le (Nat.le_of_not_lt hi)
    rw [(h.fresh (Nat.le_of_not_lt hi)).2.1]
    exact (List.getD_eq_default _ _ hout).symm

end OfAliases

/-! ### The operations on active states -/

section Operations

variable {live : List Bool} {registers spills : List Int}

theorem acquire_ofAliases {r : Nat} (hr : r < registers.length) :
    (State.ofAliases live registers spills).acquire r =
      State.ofAliases (live ++ [true]) (registers.set r (live.length + 1)) spills := by
  refine State.ext rfl (updated_eq_set _ hr) rfl ?_ ?_ ?_ rfl
  · simp [State.acquire, State.ofAliases]
  · simp [State.acquire, State.ofAliases, List.replicate_succ']
  · simp [State.acquire, State.ofAliases]
    omega

theorem setReg_ofAliases {r : Nat} (hr : r < registers.length) (token : Int) :
    (State.ofAliases live registers spills).setReg r token =
      State.ofAliases live (registers.set r token) spills :=
  State.ext rfl (updated_eq_set _ hr) rfl rfl rfl rfl rfl

theorem setSpill_ofAliases {i : Nat} (hi : i < spills.length) (token : Int) :
    (State.ofAliases live registers spills).setSpill i token =
      State.ofAliases live registers (spills.set i token) :=
  State.ext rfl rfl (updated_eq_set _ hi) rfl rfl rfl rfl

/-- A release of a live acquisition clears its entry. -/
theorem consume_ofAliases {token : Int}
    (hv : (State.ofAliases live registers spills).valid token = true) :
    (State.ofAliases live registers spills).consume
        ((State.ofAliases live registers spills).victims false token) =
      State.ofAliases (live.set (State.index token) false) registers spills := by
  obtain ⟨hindex, hl⟩ := index_lt_of_valid hv
  have hlt : State.index token < live.length := hindex
  have hget : live[State.index token] = true := by
    rw [← List.getD_eq_getElem live false hlt]
    exact hl
  have hzero : (State.ofAliases live registers spills).explicitAt (State.index token) = 0 := by
    rw [explicitAt_ofAliases hlt, if_pos hl]
  rw [consume_victims_eq hv, hzero]
  refine State.ext rfl rfl rfl ?_ ?_ ?_ rfl
  · simp [State.ofAliases, List.map_set]
  · simp [State.ofAliases]
  · have hpos : 0 < live.count true := List.count_pos_iff.mpr (hget ▸ List.getElem_mem hlt)
    simp [State.ofAliases, List.count_set, hlt, hget]
    omega

variable {capacity : Nat}

theorem next_acquire {r : Nat} (hr : r < registers.length) (hlt : live.length < capacity) :
    Next capacity false (State.ofAliases live registers spills)
      (State.ofAliases (live ++ [true]) (registers.set r (live.length + 1)) spills) := by
  refine ⟨_, mem_transitions.mpr ⟨rfl, .acquire r hr⟩, ?_⟩
  rw [acquireEdge, if_neg (show ¬(State.ofAliases live registers spills).live.length = capacity from
    Nat.ne_of_lt hlt), acquire_ofAliases hr]

theorem next_release {r i : Nat} (hr : r < registers.length)
    (htoken : registers.getD r 0 = (i : Int) + 1) (hlive : live.getD i false = true) :
    Next capacity false (State.ofAliases live registers spills)
      (State.ofAliases (live.set i false) registers spills) := by
  have hreg : (State.ofAliases live registers spills).reg r = (i : Int) + 1 := htoken
  have hindex : State.index ((i : Int) + 1) = i := by simp [State.index]
  have hv : (State.ofAliases live registers spills).valid ((i : Int) + 1) = true := by
    rw [State.valid, hindex, Bool.and_eq_true]
    exact ⟨bne_iff_ne.mpr (by omega), hlive⟩
  refine ⟨_, mem_transitions.mpr ⟨rfl, .release r hr⟩, ?_⟩
  simp only [releaseEdge, hreg, hv, if_true, consume_ofAliases hv, hindex]

theorem next_copy {dst src : Nat} (hdst : dst < registers.length) (hsrc : src < registers.length) :
    Next capacity false (State.ofAliases live registers spills)
      (State.ofAliases live (registers.set dst (registers.getD src 0)) spills) :=
  ⟨_, mem_transitions.mpr ⟨rfl, .copy dst src hdst hsrc⟩, setReg_ofAliases hdst _⟩

theorem next_acquireNull {r : Nat} (hr : r < registers.length) :
    Next capacity false (State.ofAliases live registers spills)
      (State.ofAliases live (registers.set r 0) spills) :=
  ⟨_, mem_transitions.mpr ⟨rfl, .acquireNull r hr⟩, setReg_ofAliases hr 0⟩

theorem next_spill {slot r : Nat} (hslot : slot < spills.length) (hr : r < registers.length) :
    Next capacity false (State.ofAliases live registers spills)
      (State.ofAliases live registers (spills.set slot (registers.getD r 0))) :=
  ⟨_, mem_transitions.mpr ⟨rfl, .spill slot r hslot hr⟩, setSpill_ofAliases hslot _⟩

end Operations

/-! ### The plan -/

/-- A token up to `n` is NULL or names one of `n` acquisitions. -/
theorem token_cases {t : Int} {n : Nat} (h : 0 ≤ t ∧ t ≤ n) :
    t = 0 ∨ ∃ i < n, t = (i : Int) + 1 := by
  by_cases h0 : t = 0
  · exact .inl h0
  · exact .inr ⟨(t - 1).toNat, by omega, by omega⟩

/-- A register of its own for each of `n` acquisitions, where `registers` holds its token if it
holds it at all. -/
structure Placement (n : Nat) (registers : List Int) (p : Nat → Nat) : Prop where
  room : ∀ i < n, p i < registers.length
  apart : ∀ i < n, ∀ j < n, p i = p j → i = j
  keeps : ∀ i < n, (i : Int) + 1 ∈ registers → registers.getD (p i) 0 = i + 1

theorem exists_placement {n : Nat} {registers : List Int} (h : n ≤ registers.length) :
    ∃ p, Placement n registers p := by
  have hget : ∀ i : Nat, (i : Int) + 1 ∈ registers →
      registers.getD (registers.idxOf ((i : Int) + 1)) 0 = i + 1 := by
    intro i hi
    have hlt := List.idxOf_lt_length_of_mem hi
    rw [List.getD_eq_getElem _ _ hlt]
    exact List.getElem_idxOf hlt
  obtain ⟨p, hroom, hapart, hagree⟩ := exists_injection h (fun i => (i : Int) + 1 ∈ registers)
    (fun i => registers.idxOf ((i : Int) + 1)) (fun i _ hi => List.idxOf_lt_length_of_mem hi)
    (fun i _ j _ hi hj hij => by
      have hi' := hget i hi
      have hj' := hget j hj
      rw [show registers.idxOf ((i : Int) + 1) = registers.idxOf ((j : Int) + 1) from hij, hj']
        at hi'
      omega)
  exact ⟨p, hroom, hapart, fun i hi hmem => by rw [hagree i hi hmem, hget i hmem]⟩

/-- The registers after `k` acquisitions, the `i`th of them into register `p i`. -/
def holders (p : Nat → Nat) (registers : Nat) : Nat → List Int
  | 0 => List.replicate registers 0
  | k + 1 => (holders p registers k).set (p k) (k + 1)

@[simp] theorem length_holders (p : Nat → Nat) (registers k : Nat) :
    (holders p registers k).length = registers := by
  induction k with
  | zero => exact List.length_replicate
  | succ k ih => rw [holders, List.length_set, ih]

theorem getD_holders_other {p : Nat → Nat} {registers k r : Nat} (h : ∀ i < k, p i ≠ r) :
    (holders p registers k).getD r 0 = 0 := by
  induction k with
  | zero =>
    rw [holders, List.getD_eq_getElem?_getD, List.getElem?_replicate]
    split <;> rfl
  | succ k ih =>
    rw [holders, List.getD_eq_getElem?_getD, List.getElem?_set_ne (h k (Nat.lt_succ_self k)),
      ← List.getD_eq_getElem?_getD]
    exact ih fun i hi => h i (Nat.lt_succ_of_lt hi)

/-- The registers after the first `k` of these are set to NULL again. -/
def clear (p : Nat → Nat) (base : List Int) : Nat → List Int
  | 0 => base
  | k + 1 => (clear p base k).set (p k) 0

@[simp] theorem length_clear (p : Nat → Nat) (base : List Int) (k : Nat) :
    (clear p base k).length = base.length := by
  induction k with
  | zero => rfl
  | succ k ih => rw [clear, List.length_set, ih]

theorem getD_clear_other {p : Nat → Nat} {k r : Nat} (base : List Int) (h : ∀ i < k, p i ≠ r) :
    (clear p base k).getD r 0 = base.getD r 0 := by
  induction k with
  | zero => rfl
  | succ k ih =>
    rw [clear, List.getD_eq_getElem?_getD, List.getElem?_set_ne (h k (Nat.lt_succ_self k)),
      ← List.getD_eq_getElem?_getD]
    exact ih fun i hi => h i (Nat.lt_succ_of_lt hi)

namespace Placement

variable {n capacity : Nat} {registers : List Int} {p : Nat → Nat}

theorem getD_holders (h : Placement n registers p) {k i : Nat} (hk : k ≤ n) (hi : i < k) :
    (holders p registers.length k).getD (p i) 0 = i + 1 := by
  induction k with
  | zero => exact absurd hi (Nat.not_lt_zero i)
  | succ k ih =>
    have hlt : p i < (holders p registers.length k).length := by
      rw [length_holders]
      exact h.room i (by omega)
    rw [holders, List.getD_eq_getElem _ _ (by rwa [List.length_set]), List.getElem_set]
    by_cases hik : i = k
    · rw [if_pos (by rw [hik]), hik]
    · rw [if_neg fun heq => hik (h.apart i (by omega) k (by omega) heq.symm),
        ← List.getD_eq_getElem _ 0 hlt]
      exact ih (by omega) (by omega)

/-- The acquisitions. -/
theorem acquires (h : Placement n registers p) (hn : n ≤ capacity) (spills : List Int) :
    Reaches (Next capacity false) n
      (State.ofAliases [] (List.replicate registers.length 0) spills)
      (State.ofAliases (List.replicate n true) (holders p registers.length n) spills) := by
  refine Reaches.of_stages _
    (fun k => State.ofAliases (List.replicate k true) (holders p registers.length k) spills) n
    fun k hk => .inr ?_
  have hroom : p k < (holders p registers.length k).length := by
    rw [length_holders]
    exact h.room k hk
  have hbudget : (List.replicate k true).length < capacity := by
    rw [List.length_replicate]
    omega
  have hnext : Next capacity false
      (State.ofAliases (List.replicate k true) (holders p registers.length k) spills) _ :=
    next_acquire hroom hbudget
  rwa [List.length_replicate, ← List.replicate_succ'] at hnext

/-- The releases. -/
theorem releases (h : Placement n registers p) (live : List Bool) (hlive : live.length = n)
    (spills : List Int) :
    Reaches (Next capacity false) n
      (State.ofAliases (List.replicate n true) (holders p registers.length n) spills)
      (State.ofAliases live (holders p registers.length n) spills) := by
  subst hlive
  have hlen : live.length = (List.replicate live.length true).length := List.length_replicate.symm
  have hplan := Reaches.of_stages (Next capacity false)
    (fun i => State.ofAliases (blend live (List.replicate live.length true) i)
      (holders p registers.length live.length) spills) live.length fun i hi => ?_
  · simpa only [blend_zero, blend_length hlen] using hplan
  · have hbase : (blend live (List.replicate live.length true) i).getD i false = true := by
      rw [getD_blend (Nat.le_of_lt hi), if_neg (Nat.lt_irrefl i),
        List.getD_eq_getElem _ _ (by rwa [List.length_replicate]), List.getElem_replicate]
    simp only [blend_succ hlen hi false]
    generalize blend live (List.replicate live.length true) i = now at hbase ⊢
    cases hl : live.getD i false with
    | true => exact .inl (by rw [← hbase, set_getD_self])
    | false =>
      exact .inr (next_release (by simpa using h.room i hi)
        (h.getD_holders (Nat.le_refl _) hi) hbase)

/-- The spill slots, written from the registers that hold every token. -/
theorem spillSlots (h : Placement n registers p) (live : List Bool) {spills : List Int}
    (hspills : ∀ t ∈ spills, 0 ≤ t ∧ t ≤ n) :
    Reaches (Next capacity false) spills.length
      (State.ofAliases live (holders p registers.length n) (List.replicate spills.length 0))
      (State.ofAliases live (holders p registers.length n) spills) := by
  have hlen : spills.length = (List.replicate spills.length (0 : Int)).length :=
    List.length_replicate.symm
  have hplan := Reaches.of_stages (Next capacity false)
    (fun i => State.ofAliases live (holders p registers.length n)
      (blend spills (List.replicate spills.length 0) i)) spills.length fun i hi => ?_
  · simpa only [blend_zero, blend_length hlen] using hplan
  · have hbase : (blend spills (List.replicate spills.length 0) i).getD i 0 = 0 := by
      rw [getD_blend (Nat.le_of_lt hi), if_neg (Nat.lt_irrefl i),
        List.getD_eq_getElem _ _ (by rwa [List.length_replicate]), List.getElem_replicate]
    have hroom : i < (blend spills (List.replicate spills.length 0) i).length := by
      rwa [length_blend hlen]
    simp only [blend_succ hlen hi 0]
    generalize blend spills (List.replicate spills.length 0) i = now at hbase hroom ⊢
    have hmem : spills.getD i 0 ∈ spills := by
      rw [List.getD_eq_getElem _ _ hi]
      exact List.getElem_mem hi
    rcases token_cases (hspills _ hmem) with h0 | ⟨j, hj, hj'⟩
    · rw [h0]
      exact .inl (by rw [← hbase, set_getD_self])
    · rw [hj', ← h.getD_holders (Nat.le_refl n) hj]
      exact .inr (next_spill hroom (by simpa using h.room j hj))

/-- The next register is written, or has its value already. Where a token stays, its own register
keeps its value, so that the source of a copy has its token before and after it is written itself. -/
theorem register_stage (h : Placement n registers p) (live : List Bool) (spills : List Int)
    (hregs : ∀ t ∈ registers, 0 ≤ t ∧ t ≤ n) {i : Nat} (hi : i < registers.length) :
    Next capacity false
      (State.ofAliases live (blend registers (holders p registers.length n) i) spills)
      (State.ofAliases live (blend registers (holders p registers.length n) (i + 1)) spills) := by
  have hlen : registers.length = (holders p registers.length n).length :=
    (length_holders p _ n).symm
  have hroom : (blend registers (holders p registers.length n) i).length = registers.length :=
    length_blend hlen i
  have hmem : registers.getD i 0 ∈ registers := by
    rw [List.getD_eq_getElem _ _ hi]
    exact List.getElem_mem hi
  rw [blend_succ hlen hi 0]
  rcases token_cases (hregs _ hmem) with h0 | ⟨j, hj, hj'⟩
  · rw [h0]
    exact next_acquireNull (by rwa [hroom])
  · have hsource : (blend registers (holders p registers.length n) i).getD (p j) 0 = j + 1 := by
      rw [getD_blend (Nat.le_of_lt hi)]
      split
      · exact h.keeps j hj (hj' ▸ hmem)
      · exact h.getD_holders (Nat.le_refl n) hj
    rw [hj', ← hsource]
    exact next_copy (by rwa [hroom]) (by rw [hroom]; exact h.room j hj)

/-- The registers, when one of them holds a token: its own register needs no write. -/
theorem registerFile (h : Placement n registers p) (live : List Bool) (spills : List Int)
    (hregs : ∀ t ∈ registers, 0 ≤ t ∧ t ≤ n) {j : Nat} (hj : j < n)
    (hmem : (j : Int) + 1 ∈ registers) :
    Reaches (Next capacity false) (registers.length - 1)
      (State.ofAliases live (holders p registers.length n) spills)
      (State.ofAliases live registers spills) := by
  have hlen : registers.length = (holders p registers.length n).length :=
    (length_holders p _ n).symm
  have hlt := h.room j hj
  have hplan := Reaches.of_stages_idle (Next capacity false)
    (fun i => State.ofAliases live (blend registers (holders p registers.length n) i) spills)
    hlt ?_ fun i hi => .inr (h.register_stage live spills hregs hi)
  · simpa only [blend_zero, blend_length hlen] using hplan
  · have hsame : (blend registers (holders p registers.length n) (p j)).getD (p j) 0 =
        registers.getD (p j) 0 := by
      rw [getD_blend (Nat.le_of_lt hlt), if_neg (Nat.lt_irrefl _),
        h.getD_holders (Nat.le_refl n) hj, h.keeps j hj hmem]
    simp only [blend_succ hlen hlt 0, ← hsame, set_getD_self]

theorem getD_clear_own {k i : Nat} (base : List Int) (hi : i < k) :
    (clear p base k).getD (p i) 0 = 0 := by
  induction k with
  | zero => exact absurd hi (Nat.not_lt_zero i)
  | succ k ih =>
    rw [clear, List.getD_eq_getElem?_getD, List.getElem?_set]
    by_cases hik : p k = p i
    · rw [if_pos hik]
      split <;> rfl
    · have hne : i ≠ k := fun heq => hik (heq ▸ rfl)
      rw [if_neg hik, ← List.getD_eq_getElem?_getD]
      exact ih (by omega)

/-- The registers, when none of them holds a token: those that received one are set to NULL. -/
theorem clears (h : Placement n registers p) (live : List Bool) (spills : List Int)
    (hregs : ∀ t ∈ registers, t = 0) :
    Reaches (Next capacity false) n
      (State.ofAliases live (holders p registers.length n) spills)
      (State.ofAliases live registers spills) := by
  have hplan := Reaches.of_stages (Next capacity false)
    (fun k => State.ofAliases live (clear p (holders p registers.length n) k) spills) n fun k hk =>
    .inr (next_acquireNull (by rw [length_clear, length_holders]; exact h.room k hk))
  have hcleared : clear p (holders p registers.length n) n = registers := by
    refine ext_getD 0 (by rw [length_clear, length_holders]) fun r => ?_
    have hzero : registers.getD r 0 = 0 := by
      by_cases hr : r < registers.length
      · rw [List.getD_eq_getElem _ _ hr]
        exact hregs _ (List.getElem_mem hr)
      · exact List.getD_eq_default _ _ (Nat.le_of_not_lt hr)
    rw [hzero]
    by_cases hown : ∃ i < n, p i = r
    · obtain ⟨i, hi, rfl⟩ := hown
      exact getD_clear_own _ hi
    · push Not at hown
      rw [getD_clear_other _ hown, getD_holders_other hown]
  simp only [hcleared] at hplan
  exact hplan

end Placement

/-- The longest plan: two edges an acquisition, one a spill slot, and one a register unless it holds
a token that was acquired there. -/
def planLength (acquisitions spills registers : Nat) : Nat :=
  2 * acquisitions + spills + max (registers - 1) acquisitions

/-- Every active state of the given form is reached: its acquisitions, releases, spill slots and
registers, in that order. -/
theorem reaches_ofAliases {live : List Bool} {registers spills : List Int} {capacity : Nat}
    (hroom : live.length ≤ registers.length) (hbudget : live.length ≤ capacity)
    (hregs : ∀ t ∈ registers, 0 ≤ t ∧ t ≤ live.length)
    (hspills : ∀ t ∈ spills, 0 ≤ t ∧ t ≤ live.length) :
    Reaches (Next capacity false) (planLength live.length spills.length registers.length)
      (State.initial registers.length spills.length) (State.ofAliases live registers spills) := by
  obtain ⟨p, hp⟩ := exists_placement hroom
  have hheld := ((hp.acquires hbudget _).trans (hp.releases live rfl _)).trans
    (hp.spillSlots live hspills)
  rw [planLength, Nat.two_mul]
  by_cases hnull : ∀ t ∈ registers, t = 0
  · exact (hheld.trans (hp.clears live spills hnull)).mono
      (Nat.add_le_add_left (Nat.le_max_right _ _) _)
  · push Not at hnull
    obtain ⟨t, ht, hne⟩ := hnull
    obtain ⟨j, hj, rfl⟩ := (token_cases (hregs t ht)).resolve_left hne
    exact (hheld.trans (hp.registerFile live spills hregs hj ht)).mono
      (Nat.add_le_add_left (Nat.le_max_left _ _) _)

/-! ### Terminal states -/

/-- The active state that ended in `t`: what the cleanup dropped was live. -/
def State.revived (t : State) : State :=
  State.ofAliases (t.cleanup.map (· == 1)) t.registers t.spills

/-- What the last edge found, for each reason to terminate. Termination keeps the aliases and the
explicit effects, so that it can be read off the terminal state. -/
def State.Admits (capacity : Nat) (s : State) : Terminal → Prop
  | .active | .ret => True
  | .exhaustion => s.live.length = capacity ∧ s.registers ≠ []
  | .nullRead | .nullRelease => 0 ∈ s.registers
  | .staleRead | .staleRelease => ∃ i < s.live.length, (i : Int) + 1 ∈ s.registers ∧ s.explicitAt i = 1
  | .other _ => False

section Terminals

variable {s t : State} {capacity : Nat}

/-- A terminal cell has exactly one effect. -/
theorem WellFormed.effect_of_terminal (h : WellFormed t capacity) (ht : t.terminal ≠ .active) {i : Nat}
    (hi : i < t.live.length) : t.liveAt i = false ∧
      (t.explicitAt i = 1 ∧ t.cleanupAt i = 0 ∨ t.explicitAt i = 0 ∧ t.cleanupAt i = 1) := by
  have hlive : t.liveAt i = false := by
    rw [State.liveAt, List.getD_eq_getElem _ _ hi]
    refine Bool.eq_false_iff.mpr fun htrue => ?_
    exact List.count_eq_zero.mp (h.terminal_done ht) (htrue ▸ List.getElem_mem hi)
  have hcell := h.cells i hi
  have hexplicit := forall_mem_iff_getD (d := 0) |>.mp h.explicit_nonneg i (h.explicit_length ▸ hi)
  have hcleanup := forall_mem_iff_getD (d := 0) |>.mp h.cleanup_nonneg i (h.cleanup_length ▸ hi)
  rw [hlive, if_neg Bool.false_ne_true] at hcell
  change 0 ≤ t.explicitAt i at hexplicit
  change 0 ≤ t.cleanupAt i at hcleanup
  exact ⟨hlive, by omega⟩

theorem liveAt_revived (t : State) (i : Nat) : t.revived.liveAt i = (t.cleanupAt i == 1) := by
  simp only [State.revived, State.ofAliases, State.liveAt, State.cleanupAt,
    List.getD_eq_getElem?_getD, List.getElem?_map]
  cases t.cleanup[i]? <;> rfl

theorem length_revived (h : WellFormed t capacity) : t.revived.live.length = t.live.length :=
  (List.length_map _).trans h.cleanup_length

theorem wellFormed_revived (h : WellFormed t capacity) : WellFormed t.revived capacity := by
  have hlen := length_revived h
  refine wellFormed_ofAliases ?_ ?_ ?_
  · exact (Nat.le_of_eq hlen).trans h.budget
  · rw [show (t.cleanup.map (· == 1)).length = t.live.length from hlen]
    exact h.regs
  · rw [show (t.cleanup.map (· == 1)).length = t.live.length from hlen]
    exact h.spills

theorem explicitAt_revived (h : WellFormed t capacity) (ht : t.terminal ≠ .active) (i : Nat) :
    t.revived.explicitAt i = t.explicitAt i := by
  by_cases hi : i < t.live.length
  · have hrevived : t.revived.explicitAt i = if t.revived.liveAt i then 0 else 1 :=
      explicitAt_ofAliases (by rwa [List.length_map, h.cleanup_length])
    rw [hrevived, liveAt_revived]
    rcases (h.effect_of_terminal ht hi).2 with ⟨he, hc⟩ | ⟨he, hc⟩ <;> rw [he, hc] <;> rfl
  · have hout := Nat.le_of_not_lt hi
    rw [(h.fresh hout).2.1, ((wellFormed_revived h).fresh (by rwa [length_revived h])).2.1]

/-- A terminal state is what `terminate` leaves of the active one. -/
theorem terminate_revived (h : WellFormed t capacity) (ht : t.terminal ≠ .active) :
    t.revived.terminate t.terminal = t := by
  have hlen := length_revived h
  have hwf := wellFormed_revived h
  refine State.ext ?_ rfl rfl ?_ ?_ ?_ rfl
  · refine ext_getD false (by rw [length_terminate, hlen]) fun i => ?_
    change (t.revived.terminate t.terminal).liveAt i = t.liveAt i
    rw [liveAt_terminate]
    by_cases hi : i < t.live.length
    · exact (h.effect_of_terminal ht hi).1.symm
    · exact (h.fresh (Nat.le_of_not_lt hi)).1.symm
  · refine ext_getD 0 ?_ (explicitAt_revived h ht)
    rw [explicit_terminate, h.explicit_length, hwf.explicit_length, hlen]
  · refine ext_getD 0 ?_ fun i => ?_
    · simp [State.terminate, hwf.cleanup_length, h.cleanup_length, hlen]
    · change (t.revived.terminate t.terminal).cleanupAt i = t.cleanupAt i
      rw [cleanupAt_terminate hwf.cleanup_length, liveAt_revived,
        show t.revived.cleanupAt i = 0 from cleanupAt_ofAliases i]
      by_cases hi : i < t.live.length
      · rcases (h.effect_of_terminal ht hi).2 with ⟨_, hc⟩ | ⟨_, hc⟩ <;> rw [hc] <;> rfl
      · rw [(h.fresh (Nat.le_of_not_lt hi)).2.2]
        rfl
  · have hrefs := h.refs
    rw [h.terminal_done ht] at hrefs
    have hrevived := hwf.refs
    simp only [State.terminate]
    omega

/-- Termination keeps what the reasons ask for. -/
theorem admits_terminate {reason : Terminal} (r : Terminal) :
    (s.terminate r).Admits capacity reason ↔ s.Admits capacity reason := by
  have hexplicit : ∀ i, (s.terminate r).explicitAt i = s.explicitAt i := fun _ => rfl
  cases reason <;> simp only [State.Admits, length_terminate, registers_terminate, hexplicit]

instance (capacity : Nat) (s : State) : ∀ reason, Decidable (s.Admits capacity reason)
  | .active | .ret => .isTrue trivial
  | .exhaustion => inferInstanceAs (Decidable (_ ∧ _))
  | .nullRead | .nullRelease => inferInstanceAs (Decidable (0 ∈ s.registers))
  | .staleRead | .staleRelease => inferInstanceAs (Decidable (∃ i < s.live.length,
      (i : Int) + 1 ∈ s.registers ∧ s.explicitAt i = 1))
  | .other _ => .isFalse id

/-- A token in a register. -/
theorem exists_reg {token : Int} (h : token ∈ s.registers) :
    ∃ r < s.registers.length, s.reg r = token := by
  obtain ⟨r, hr, hget⟩ := List.getElem_of_mem h
  exact ⟨r, hr, by rw [State.reg, List.getD_eq_getElem _ _ hr, hget]⟩

/-- A consumed acquisition is no longer valid. -/
theorem valid_of_consumed (h : WellFormed s capacity) (ha : s.terminal = .active) {i : Nat}
    (hi : i < s.live.length) : s.valid ((i : Int) + 1) = false ↔ s.explicitAt i = 1 := by
  have hindex : State.index ((i : Int) + 1) = i := by simp [State.index]
  have hne : ((i : Int) + 1 != 0) = true := bne_iff_ne.mpr (by omega)
  have hcell : (State.ofAliases s.live s.registers s.spills).explicitAt i = _ :=
    explicitAt_ofAliases hi
  rw [← h.eq_ofAliases ha] at hcell
  rw [State.valid, hindex, hne, Bool.true_and, hcell]
  cases s.liveAt i <;> simp

/-- What a failed use found in its register. -/
theorem failed_token (h : WellFormed s capacity) (ha : s.terminal = .active) {r : Nat}
    (hr : r < s.registers.length) (hv : s.valid (s.reg r) = false) :
    s.reg r = 0 ∧ 0 ∈ s.registers ∨ s.reg r ≠ 0 ∧
      ∃ i < s.live.length, (i : Int) + 1 ∈ s.registers ∧ s.explicitAt i = 1 := by
  have hmem : s.reg r ∈ s.registers := by
    rw [State.reg, List.getD_eq_getElem _ _ hr]
    exact List.getElem_mem hr
  rcases token_cases (h.regs _ hmem) with h0 | ⟨i, hi, htoken⟩
  · exact .inl ⟨h0, h0 ▸ hmem⟩
  · rw [htoken] at hv hmem ⊢
    exact .inr ⟨by omega, i, hi, hmem, (valid_of_consumed h ha hi).mp hv⟩

/-- Every edge ends as its reason says. -/
theorem Yields.admits {e : Edge} (he : Yields s capacity false e) (h : WellFormed s capacity)
    (ha : s.terminal = .active) : e.target.Admits capacity e.target.terminal := by
  have hactive : ∀ u : State, u.terminal = .active → u.Admits capacity u.terminal := by
    intro u hu
    rw [hu]
    trivial
  cases he with
  | acquire r hr =>
    rw [acquireEdge]
    split
    · rename_i hfull
      exact ⟨by rwa [length_terminate], List.ne_nil_of_length_pos (Nat.zero_lt_of_lt hr)⟩
    · exact hactive _ ha
  | acquireNull | copy | reload | spill => exact hactive _ ha
  | read r hr =>
    simp only [readEdge, readReason]
    cases hv : s.valid (s.reg r) with
    | true => exact hactive s ha
    | false =>
      rcases failed_token h ha hr hv with ⟨h0, hmem⟩ | ⟨hne, i, hi, hmem, hx⟩
      · rw [if_pos h0]
        exact hmem
      · rw [if_neg hne]
        exact ⟨i, by rwa [if_neg Bool.false_ne_true, length_terminate], hmem, hx⟩
  | release r hr =>
    simp only [releaseEdge, releaseReason]
    cases hv : s.valid (s.reg r) with
    | true => exact hactive _ ha
    | false =>
      rcases failed_token h ha hr hv with ⟨h0, hmem⟩ | ⟨hne, i, hi, hmem, hx⟩
      · rw [if_pos h0]
        exact hmem
      · rw [if_neg hne]
        exact ⟨i, by rwa [if_neg Bool.false_ne_true, length_terminate], hmem, hx⟩
  | finish => trivial

/-- A read and a release of an invalid token. -/
theorem next_invalid {r : Nat} (ha : s.terminal = .active) (hr : r < s.registers.length)
    (hv : s.valid (s.reg r) = false) :
    Next capacity false s (s.terminate (readReason (s.reg r))) ∧
      Next capacity false s (s.terminate (releaseReason (s.reg r))) := by
  constructor
  · refine ⟨_, mem_transitions.mpr ⟨ha, .read r hr⟩, ?_⟩
    simp [readEdge, hv]
  · refine ⟨_, mem_transitions.mpr ⟨ha, .release r hr⟩, ?_⟩
    simp [releaseEdge, hv]

/-- A register with a consumed token. -/
theorem exists_stale (h : WellFormed s capacity) (ha : s.terminal = .active)
    (hstale : ∃ i < s.live.length, (i : Int) + 1 ∈ s.registers ∧ s.explicitAt i = 1) :
    ∃ r < s.registers.length, s.reg r ≠ 0 ∧ s.valid (s.reg r) = false := by
  obtain ⟨i, hi, hmem, hx⟩ := hstale
  obtain ⟨r, hr, htoken⟩ := exists_reg hmem
  refine ⟨r, hr, by omega, ?_⟩
  rw [htoken]
  exact (valid_of_consumed h ha hi).mpr hx

/-- For each reason that the state admits there is an edge that ends with it. -/
theorem next_terminate (h : WellFormed s capacity) (ha : s.terminal = .active) {reason : Terminal}
    (hreason : reason ≠ .active) (hadmits : s.Admits capacity reason) :
    Next capacity false s (s.terminate reason) := by
  cases reason with
  | active => exact absurd rfl hreason
  | ret => exact ⟨_, mem_transitions.mpr ⟨ha, .finish⟩, rfl⟩
  | exhaustion =>
    obtain ⟨hfull, hne⟩ := hadmits
    refine ⟨_, mem_transitions.mpr ⟨ha, .acquire 0 (List.length_pos_iff.mpr hne)⟩, ?_⟩
    rw [acquireEdge, if_pos hfull]
  | nullRead =>
    obtain ⟨r, hr, h0⟩ := exists_reg hadmits
    simpa [readReason, h0] using (next_invalid ha hr (by rw [h0, State.valid_zero])).1
  | nullRelease =>
    obtain ⟨r, hr, h0⟩ := exists_reg hadmits
    simpa [releaseReason, h0] using (next_invalid ha hr (by rw [h0, State.valid_zero])).2
  | staleRead =>
    obtain ⟨r, hr, hne, hv⟩ := exists_stale h ha hadmits
    simpa [readReason, hne] using (next_invalid ha hr hv).1
  | staleRelease =>
    obtain ⟨r, hr, hne, hv⟩ := exists_stale h ha hadmits
    simpa [releaseReason, hne] using (next_invalid ha hr hv).2
  | other text => exact hadmits.elim

end Terminals

/-! ### Exactness -/

theorem path_of_reaches {capacity n : Nat} {s t : State}
    (h : Reaches (Next capacity false) n s t) :
    ∃ path, Path capacity false s path t ∧ path.length ≤ n := by
  induction n generalizing t with
  | zero =>
    obtain rfl : s = t := h
    exact ⟨[], .nil, Nat.le_refl 0⟩
  | succ n ih =>
    obtain ⟨u, hu, hlast⟩ := h
    obtain ⟨path, hpath, hle⟩ := ih hu
    rcases hlast with rfl | ⟨e, he, rfl⟩
    · exact ⟨path, hpath, Nat.le_succ_of_le hle⟩
    · refine ⟨path ++ [e], .snoc hpath he, ?_⟩
      rw [List.length_append]
      exact Nat.succ_le_succ hle

/-- The states that pass `state_error`, have the dimensions of the exploration and a last edge for
their reason. -/
structure Described (registers spills capacity : Nat) (s : State) : Prop where
  passes : stateError s capacity = none
  registers_length : s.registers.length = registers
  spills_length : s.spills.length = spills
  admits : s.Admits capacity s.terminal

theorem described_of_reachable {registers spills capacity : Nat} {s : State}
    (h : Reachable registers spills capacity false s) : Described registers spills capacity s := by
  induction h with
  | refl =>
    exact ⟨stateError_eq_none.mpr (wellFormed_initial registers spills capacity),
      List.length_replicate, List.length_replicate, trivial⟩
  | tail hreach hnext ih =>
    obtain ⟨e, he, rfl⟩ := hnext
    obtain ⟨ha, hy⟩ := mem_transitions.mp he
    have hwf := stateError_eq_none.mp ih.passes
    obtain ⟨hregs, hspills⟩ := hy.lengths
    exact ⟨stateError_eq_none.mpr (hwf.edge ha hy), hregs.trans ih.registers_length,
      hspills.trans ih.spills_length, hy.admits hwf ha⟩

/-- A described terminal state is left by an edge of the active state that ended in it. -/
theorem Described.last_edge {registers spills capacity : Nat} {s : State}
    (h : Described registers spills capacity s) (ha : s.terminal ≠ .active) :
    Described registers spills capacity s.revived ∧ Next capacity false s.revived s := by
  have hwf := stateError_eq_none.mp h.passes
  have hrevived := wellFormed_revived hwf
  refine ⟨⟨stateError_eq_none.mpr hrevived, h.registers_length, h.spills_length, trivial⟩, ?_⟩
  have hadmits : s.revived.Admits capacity s.terminal := by
    rw [← admits_terminate s.terminal, terminate_revived hwf ha]
    exact h.admits
  have hnext := next_terminate hrevived rfl ha hadmits
  rwa [terminate_revived hwf ha] at hnext

theorem Described.reaches_active {registers spills capacity : Nat} {s : State}
    (h : Described registers spills capacity s) (ha : s.terminal = .active)
    (hroom : s.live.length ≤ registers) :
    Reaches (Next capacity false) (planLength s.live.length spills registers)
      (State.initial registers spills) s := by
  obtain ⟨hpasses, rfl, rfl, _⟩ := h
  have hwf := stateError_eq_none.mp hpasses
  have hplan := reaches_ofAliases hroom hwf.budget hwf.regs hwf.spills
  rwa [← hwf.eq_ofAliases ha] at hplan

/-- A described state with room for its acquisitions is reached by a short history. -/
theorem Described.reaches {registers spills capacity : Nat} {s : State}
    (h : Described registers spills capacity s) (hroom : s.live.length ≤ registers) :
    Reaches (Next capacity false) (planLength s.live.length spills registers + 1)
      (State.initial registers spills) s := by
  by_cases ha : s.terminal = .active
  · exact ⟨s, h.reaches_active ha hroom, .inl rfl⟩
  · obtain ⟨hrevived, hnext⟩ := h.last_edge ha
    have hlen := length_revived (stateError_eq_none.mp h.passes)
    have hplan := hrevived.reaches_active rfl (hlen ▸ hroom)
    rw [hlen] at hplan
    exact ⟨s.revived, hplan, .inr hnext⟩

/-- `state_error` is exact: with as many registers as acquisitions, the reachable states are those
that pass it, have the dimensions of the exploration and an edge for their reason to end. Each has a
history no longer than the plan and one edge. -/
theorem reachable_exact (registers spills capacity : Nat) (s : State)
    (hroom : s.live.length ≤ registers) :
    (Reachable registers spills capacity false s ↔ Described registers spills capacity s) ∧
    (Described registers spills capacity s →
      ∃ path, Path capacity false (State.initial registers spills) path s ∧
        path.length ≤ planLength s.live.length spills registers + 1) := by
  have hshort := fun h : Described registers spills capacity s => path_of_reaches (h.reaches hroom)
  refine ⟨⟨described_of_reachable, fun h => ?_⟩, hshort⟩
  obtain ⟨path, hpath, _⟩ := hshort h
  exact hpath.reachable

/-- Two acquisitions with their registers exchanged, the first consumed and then read. -/
def swappedStale : State :=
  (State.ofAliases [false, true] [2, 1, 0, 2] [1, 0]).terminate .staleRead

theorem reachable_exact_swappedStale : ∃ path, Path 2 false (State.initial 4 2) path swappedStale ∧
    path.length ≤ 10 := by
  have hadmits : swappedStale.Admits 2 .staleRead := ⟨0, by decide, by decide, by decide⟩
  exact (reachable_exact 4 2 2 swappedStale (by decide)).2 ⟨by decide, rfl, rfl, hadmits⟩

end Cbpf.Model
