import Mathlib.Data.List.Basic

/-!
# Guarded loops with a bounded number of passes

A C loop `for (; guard; ) body` whose body may also leave the loop by `goto` is a guard and a body
that answers "next pass" or "leave". `run` executes it with a bound on the number of passes and is
`none` when the bound is used up, so that a result of `run` is a result of the loop and a missing
result is a loop that was cut. Nothing here depends on what the loop computes.
-/

namespace BoundedLoop

universe u v

/-- What one pass through a loop body decides. -/
inductive Control (σ : Type u) where
  | next (s : σ)
  | finish (s : σ)

/-- The state either answer carries. -/
def Control.state {σ : Type u} : Control σ → σ
  | .next s | .finish s => s

/-- A loop that tests its guard before every pass. -/
structure Loop (σ : Type u) where
  guard : σ → Bool
  body : σ → Control σ

variable {σ : Type u} {τ : Type v}

/-- At most `fuel` tests of the guard; `none` when they do not suffice. -/
def Loop.run (l : Loop σ) : Nat → σ → Option σ
  | 0, _ => none
  | fuel + 1, s =>
    if l.guard s then
      match l.body s with
      | .next t => l.run fuel t
      | .finish t => some t
    else some s

/-- `l.Visits s t`: the loop started in `s` tests its guard in state `t`. -/
inductive Loop.Visits (l : Loop σ) (s : σ) : σ → Prop
  | start : l.Visits s s
  | pass {t u : σ} : l.Visits s t → l.guard t = true → l.body t = .next u → l.Visits s u

/-- `l.Exits t r`: a pass that begins in `t` is the last one and leaves `r`. -/
inductive Loop.Exits (l : Loop σ) (t : σ) : σ → Prop
  | guard : l.guard t = false → l.Exits t t
  | body {r : σ} : l.guard t = true → l.body t = .finish r → l.Exits t r

theorem Loop.run_next {l : Loop σ} {fuel : Nat} {s t : σ} (hg : l.guard s = true)
    (hb : l.body s = .next t) : l.run (fuel + 1) s = l.run fuel t := by
  simp [Loop.run, hg, hb]

theorem Loop.run_exits {l : Loop σ} {fuel : Nat} {s r : σ} (h : l.Exits s r) :
    l.run (fuel + 1) s = some r := by
  cases h with
  | guard hg => simp [Loop.run, hg]
  | body hg hb => simp [Loop.run, hg, hb]

/-- Every pass either goes on or is the last one. -/
theorem Loop.pass_cases (l : Loop σ) (s : σ) :
    (∃ t, l.guard s = true ∧ l.body s = .next t) ∨ ∃ r, l.Exits s r := by
  cases hg : l.guard s with
  | false => exact .inr ⟨s, .guard hg⟩
  | true =>
    cases hb : l.body s with
    | next t => exact .inl ⟨t, rfl, rfl⟩
    | finish r => exact .inr ⟨r, .body hg hb⟩

/-- A loop that has ended is not changed by a larger bound. -/
theorem Loop.run_mono {l : Loop σ} {fuel fuel' : Nat} {s r : σ} (h : l.run fuel s = some r)
    (hle : fuel ≤ fuel') : l.run fuel' s = some r := by
  induction fuel generalizing fuel' s with
  | zero => cases h
  | succ fuel ih =>
    obtain ⟨k, rfl⟩ := Nat.exists_eq_add_of_le hle
    rw [Nat.add_right_comm]
    rcases l.pass_cases s with ⟨t, hg, hb⟩ | ⟨r', he⟩
    · rw [run_next hg hb] at h ⊢
      exact ih h (Nat.le_add_right fuel k)
    · rw [run_exits he] at h ⊢
      exact h

theorem Loop.Visits.trans {l : Loop σ} {s t u : σ} (hst : l.Visits s t) (htu : l.Visits t u) :
    l.Visits s u := by
  induction htu with
  | start => exact hst
  | pass _ hg hb ih => exact .pass ih hg hb

/-- A property of the first state that every further pass preserves holds at every guard test. -/
theorem Loop.Visits.invariant {l : Loop σ} {s t : σ} (hv : l.Visits s t) {I : σ → Prop}
    (h0 : I s) (hI : ∀ a b, I a → l.guard a = true → l.body a = .next b → I b) : I t := by
  induction hv with
  | start => exact h0
  | pass _ hg hb ih => exact hI _ _ ih hg hb

/-- Forward simulation of one loop by another, guard test by guard test. -/
theorem Loop.Visits.simulated {l : Loop σ} {m : Loop τ} {R : σ → τ → Prop} {s : σ} {t u : τ}
    (hv : m.Visits t u) (h0 : R s t)
    (hpass : ∀ a b b', l.Visits s a → R a b → m.guard b = true → m.body b = .next b' →
      ∃ a', l.guard a = true ∧ l.body a = .next a' ∧ R a' b') : ∃ a, l.Visits s a ∧ R a u := by
  induction hv with
  | start => exact ⟨s, .start, h0⟩
  | pass _ hg hb ih =>
    obtain ⟨a, ha, hR⟩ := ih
    obtain ⟨a', hga, hba, hR'⟩ := hpass _ _ _ ha hR hg hb
    exact ⟨a', ha.pass hga hba, hR'⟩

/-- A loop that passes as `l` does wherever `l` passes tests its guard wherever `l` does. -/
theorem Loop.Visits.congr {l m : Loop σ} {s t : σ} (hv : l.Visits s t)
    (h : ∀ a, l.Visits s a → m.Visits s a → l.guard a = true →
      m.guard a = true ∧ m.body a = l.body a) : m.Visits s t := by
  induction hv with
  | start => exact .start
  | pass hv hg hb ih =>
    obtain ⟨hg', hb'⟩ := h _ hv ih hg
    exact ih.pass hg' (hb'.trans hb)

/-- What the loop computes from a state it visits, it computes from its start. -/
theorem Loop.Visits.run {l : Loop σ} {s t r : σ} (hv : l.Visits s t) {fuel : Nat}
    (h : l.run fuel t = some r) : ∃ fuel, l.run fuel s = some r := by
  induction hv generalizing fuel with
  | start => exact ⟨fuel, h⟩
  | pass _ hg hb ih =>
    apply ih
    rw [run_next hg hb]
    exact h

/-- What the loop computes from its start, it computes from every state it visits. -/
theorem Loop.Visits.resume {l : Loop σ} {s t r : σ} (hv : l.Visits s t) {fuel : Nat}
    (h : l.run fuel s = some r) : ∃ fuel, l.run fuel t = some r := by
  induction hv with
  | start => exact ⟨fuel, h⟩
  | pass _ hg hb ih =>
    obtain ⟨k, hk⟩ := ih
    cases k with
    | zero => cases hk
    | succ k =>
      rw [run_next hg hb] at hk
      exact ⟨k, hk⟩

/-- A loop ends by the last pass that it visits. -/
theorem Loop.Visits.run_eq {l : Loop σ} {s t r r' : σ} (hv : l.Visits s t) (hexit : l.Exits t r)
    {fuel : Nat} (h : l.run fuel s = some r') : r' = r := by
  have hlast : l.run 1 t = some r := run_exits hexit
  obtain ⟨k, hk⟩ := hv.run hlast
  have hmax := run_mono hk (Nat.le_max_right fuel k)
  rw [run_mono h (Nat.le_max_left fuel k)] at hmax
  exact Option.some.inj hmax

/-- Total correctness: an invariant, a measure that every further pass decreases and a
postcondition of every last pass give a result that satisfies the postcondition. -/
theorem Loop.run_total {l : Loop σ} (I Q : σ → Prop) (μ : σ → Nat)
    (hnext : ∀ s t, I s → l.guard s = true → l.body s = .next t → I t ∧ μ t < μ s)
    (hexit : ∀ s r, I s → l.Exits s r → Q r)
    {fuel : Nat} {s : σ} (hs : I s) (hf : μ s < fuel) : ∃ r, l.run fuel s = some r ∧ Q r := by
  induction fuel generalizing s with
  | zero => omega
  | succ fuel ih =>
    rcases l.pass_cases s with ⟨t, hg, hb⟩ | ⟨r, he⟩
    · obtain ⟨ht, hμ⟩ := hnext s t hs hg hb
      rw [run_next hg hb]
      exact ih ht (by omega)
    · exact ⟨r, run_exits he, hexit s r hs he⟩

/-- Two loop bodies answer alike, up to a relation on the states. -/
inductive Control.Rel (R : σ → τ → Prop) : Control σ → Control τ → Prop
  | next {s : σ} {t : τ} : R s t → Control.Rel R (.next s) (.next t)
  | finish {s : σ} {t : τ} : R s t → Control.Rel R (.finish s) (.finish t)

theorem Control.Rel.eq_next {f : σ → τ} {s : σ} {d : Control τ}
    (h : Control.Rel (fun s t => t = f s) (.next s) d) : d = .next (f s) := by
  cases h with
  | next h => rw [h]

theorem Control.Rel.eq_finish {f : σ → τ} {s : σ} {d : Control τ}
    (h : Control.Rel (fun s t => t = f s) (.finish s) d) : d = .finish (f s) := by
  cases h with
  | finish h => rw [h]

theorem Control.Rel.and_left {R : σ → τ → Prop} {P : σ → Prop} {c : Control σ} {d : Control τ}
    (h : Control.Rel R c d) (hc : P c.state) : Control.Rel (fun s t => R s t ∧ P s) c d := by
  cases h with
  | next h => exact .next ⟨h, hc⟩
  | finish h => exact .finish ⟨h, hc⟩

/-- Lockstep simulation: when related states agree on the guard and their bodies answer alike, the
two loops end together, in related states, or are cut together. -/
theorem Loop.run_lockstep {l : Loop σ} {m : Loop τ} {R : σ → τ → Prop}
    (hguard : ∀ s t, R s t → l.guard s = m.guard t)
    (hbody : ∀ s t, R s t → l.guard s = true → Control.Rel R (l.body s) (m.body t))
    (fuel : Nat) {s : σ} {t : τ} (h : R s t) : Option.Rel R (l.run fuel s) (m.run fuel t) := by
  induction fuel generalizing s t with
  | zero => exact .none
  | succ fuel ih =>
    simp only [Loop.run, ← hguard s t h]
    cases hg : l.guard s with
    | false => exact .some h
    | true =>
      have hrel := hbody s t h hg
      cases hs : l.body s with
      | next s' =>
        rw [hs] at hrel
        cases hm : m.body t with
        | next t' =>
          rw [hm] at hrel
          cases hrel with
          | next h' => exact ih h'
        | finish t' => rw [hm] at hrel; cases hrel
      | finish s' =>
        rw [hs] at hrel
        cases hm : m.body t with
        | next t' => rw [hm] at hrel; cases hrel
        | finish t' =>
          rw [hm] at hrel
          cases hrel with
          | finish h' => exact .some h'

end BoundedLoop
