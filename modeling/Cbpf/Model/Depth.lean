import Cbpf.Model.Reachability

/-!
# How long histories have to be (`theory/ownership.md`, "Exhaustive finite check")

The search keeps one shortest history for each state. The longest of them is as long as the plan for
a state in which everything has to be done.
-/

namespace Cbpf.Model

/-- An upper bound for the active states. -/
theorem Described.active_history {registers spills capacity : Nat} {s : State}
    (h : Described registers spills capacity s) (ha : s.terminal = .active)
    (hroom : s.live.length ≤ registers) :
    ∃ path, Path capacity false (State.initial registers spills) path s ∧
      path.length ≤ planLength s.live.length spills registers :=
  path_of_reaches (h.reaches_active ha hroom)

/-- What has to be done for a state, one edge for each: an acquisition, a release, a first write of a
spill slot, and a copy of token 1, which is acquired once. -/
def State.work (s : State) : Int :=
  s.live.length + s.live.count false + (s.spills.countP (· ≠ 0) : Int) + s.registers.count 1 -
    min s.live.length 1

theorem count_set_le {α : Type} [DecidableEq α] (l : List α) (i : Nat) (a b : α) :
    (l.set i b).count a ≤ l.count a + if b = a then 1 else 0 := by
  by_cases hi : i < l.length
  · rw [List.count_set hi]
    simp only [beq_iff_eq]
    omega
  · rw [List.set_eq_of_length_le (Nat.le_of_not_lt hi)]
    exact Nat.le_add_right _ _

theorem countP_set_le {α : Type} (P : α → Bool) (l : List α) (i : Nat) (b : α) :
    (l.set i b).countP P ≤ l.countP P + 1 := by
  by_cases hi : i < l.length
  · rw [List.countP_set hi]
    split_ifs <;> omega
  · rw [List.set_eq_of_length_le (Nat.le_of_not_lt hi)]
    exact Nat.le_succ _

/-- No edge does more than one unit of work. -/
theorem Yields.work_le {s : State} {capacity : Nat} {e : Edge} (he : Yields s capacity false e)
    (hactive : e.target.terminal = .active) : e.target.work ≤ s.work + 1 := by
  have hreg : ∀ {r : Nat} (t : Int), r < s.registers.length →
      ((s.setReg r t).work ≤ s.work + 1) := by
    intro r t hr
    have hcount := count_set_le s.registers r 1 t
    simp only [State.work, State.setReg, updated_eq_set _ hr]
    split at hcount <;> omega
  cases he with
  | acquire r hr =>
    rw [acquireEdge] at hactive ⊢
    split
    · rename_i hfull
      rw [if_pos hfull] at hactive
      cases hactive
    · have hcount := count_set_le s.registers r 1 (s.live.length + 1)
      simp only [State.work, State.acquire, updated_eq_set _ hr, List.length_append,
        List.count_append, List.length_singleton]
      simp only [List.count_singleton]
      split at hcount
      · simp
        omega
      · simp
        omega
  | acquireNull r hr => exact hreg 0 hr
  | copy dst src hd _ => exact hreg _ hd
  | reload dst slot hd _ => exact hreg _ hd
  | spill slot r hs _ =>
    have hcount := countP_set_le (· ≠ 0) s.spills slot (s.reg r)
    simp only [spillEdge, State.work, State.setSpill, updated_eq_set _ hs]
    omega
  | read r _ =>
    simp only [readEdge] at hactive ⊢
    split
    · change s.work ≤ s.work + 1
      omega
    · rename_i hv
      rw [if_neg hv] at hactive
      exact absurd hactive (readReason_ne_active _)
  | release r _ =>
    simp only [releaseEdge] at hactive ⊢
    split
    · rename_i hv
      have hcount := count_set_le s.live (State.index (s.reg r)) false false
      rw [consume_victims_eq hv]
      simp only [State.work, List.length_set]
      rw [if_pos rfl] at hcount
      omega
    · rename_i hv
      rw [if_neg hv] at hactive
      exact absurd hactive (releaseReason_ne_active _)
  | finish => cases hactive

/-- A history is at least as long as the work it does. -/
theorem Path.work_le {registers spills capacity : Nat} {path : List Edge} {s : State}
    (h : Path capacity false (State.initial registers spills) path s) (ha : s.terminal = .active) :
    s.work ≤ path.length := by
  induction h with
  | nil =>
    have hone : (List.replicate registers (0 : Int)).count 1 = 0 := by simp [List.count_replicate]
    have hslots : (List.replicate spills (0 : Int)).countP (· ≠ 0) = 0 := by simp
    simp [State.work, State.initial, hone]
  | @snoc path t e _ he ih =>
    obtain ⟨hactive, hy⟩ := mem_transitions.mp he
    have hedge := hy.work_le ha
    have hinit := ih hactive
    rw [List.length_append, List.length_singleton]
    omega

/-- A state in which everything has to be done. -/
theorem exists_deep (registers spills capacity : Nat) (hpos : 0 < capacity)
    (hroom : capacity < registers) :
    ∃ s, Reachable registers spills capacity false s ∧ s.terminal = .active ∧
      ∀ path, Path capacity false (State.initial registers spills) path s →
        2 * capacity + spills + registers - 1 ≤ path.length := by
  have hlen : (List.replicate capacity false).length = capacity := List.length_replicate
  have hones : ∀ m, ∀ t ∈ List.replicate m (1 : Int),
      0 ≤ t ∧ t ≤ (List.replicate capacity false).length := by
    intro m t ht
    rw [List.eq_of_mem_replicate ht, hlen]
    omega
  have hplan := reaches_ofAliases (by rw [hlen, List.length_replicate]; omega) (Nat.le_of_eq hlen)
    (hones registers) (hones spills)
  obtain ⟨path, hpath, _⟩ := path_of_reaches hplan
  simp only [List.length_replicate] at hpath
  refine ⟨_, hpath.reachable, rfl, fun path hpath => ?_⟩
  have hwork := hpath.work_le rfl
  simp [State.work, State.ofAliases, List.countP_replicate] at hwork
  omega

/-- The depth of the search: the longest of the shortest histories to an active state. -/
theorem depth_exact (registers spills capacity : Nat) (hpos : 0 < capacity)
    (hroom : capacity < registers) :
    (∀ s, Reachable registers spills capacity false s → s.terminal = .active →
      ∃ path, Path capacity false (State.initial registers spills) path s ∧
        path.length ≤ 2 * capacity + spills + registers - 1) ∧
    ∃ s, Reachable registers spills capacity false s ∧ s.terminal = .active ∧
      ∀ path, Path capacity false (State.initial registers spills) path s →
        2 * capacity + spills + registers - 1 ≤ path.length := by
  refine ⟨fun s hs ha => ?_, exists_deep registers spills capacity hpos hroom⟩
  have hdescribed := described_of_reachable hs
  have hbudget := (stateError_eq_none.mp hdescribed.passes).budget
  obtain ⟨path, hpath, hle⟩ := hdescribed.active_history ha (by omega)
  refine ⟨path, hpath, hle.trans ?_⟩
  rw [planLength]
  omega

/-- The default bounds. -/
theorem depth_exact_default : ∃ s, Reachable 4 2 2 false s ∧ s.terminal = .active ∧
    ∀ path, Path 2 false (State.initial 4 2) path s → 9 ≤ path.length :=
  (depth_exact 4 2 2 (by decide) (by decide)).2

end Cbpf.Model
