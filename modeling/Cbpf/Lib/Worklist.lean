import Mathlib

/-!
# Worklists whose nodes are recognised by a key

A node carries more than its key, such as the way it was reached. The search takes nodes from the
front of a queue, does its work on each edge and on the node, any of which may raise, and queues a
node the first time it meets the key. `search_correct` says that the nodes that are worked on have
each key once, in order of their depth, so that the node of a key is one that was reached soonest.
-/

/-- What the search does. -/
structure Worklist (ν ε κ τ : Type) where
  key : ν → κ
  edges : ν → List ε
  /-- the node behind an edge, when it is to be queued -/
  push : ν → ε → Option ν
  enter : ν → τ → τ
  /-- the work on an edge; `none` raises -/
  visit : ν → ε → τ → Option τ
  /-- the work on a node after its edges -/
  close : ν → τ → Option τ

namespace Worklist

/-- The nodes that wait, and the keys that have been queued. -/
structure Frontier (ν κ : Type) where
  queue : List ν
  seen : List κ

variable {ν ε κ τ : Type}

/-! ### The search -/

section Algorithm

variable [DecidableEq κ] (w : Worklist ν ε κ τ)

/-- A node is queued unless its key has been seen. -/
def enqueue (q : Frontier ν κ) : Option ν → Frontier ν κ
  | none => q
  | some m => if w.key m ∈ q.seen then q else ⟨q.queue ++ [m], q.seen ++ [w.key m]⟩

/-- The edges that leave `n`, one after the other. -/
def scan (n : ν) : List ε → Frontier ν κ → τ → Option (Frontier ν κ × τ)
  | [], q, t => some (q, t)
  | e :: es, q, t =>
    match w.visit n e t with
    | none => none
    | some t => scan n es (w.enqueue q (w.push n e)) t

/-- The search, for at most `fuel` tests of the queue; `some none` when it raises. -/
def search : Nat → Frontier ν κ → τ → Option (Option (Frontier ν κ × τ))
  | 0, _, _ => none
  | fuel + 1, q, t =>
    match q.queue with
    | [] => some (some (q, t))
    | n :: queue =>
      match w.scan n (w.edges n) ⟨queue, q.seen⟩ (w.enter n t) with
      | none => some none
      | some (q, t) =>
        match w.close n t with
        | none => some none
        | some t => search fuel q t

/-- The frontier before the first test of the queue. -/
def start (n₀ : ν) : Frontier ν κ := ⟨[n₀], [w.key n₀]⟩

/-- All the work on one node. -/
def process (t : τ) (n : ν) : Option τ :=
  ((w.edges n).foldlM (fun t e => w.visit n e t) (w.enter n t)).bind (w.close n)

variable {w}

/-- More fuel than the search needs does not change its answer. -/
theorem search_mono {fuel more : Nat} {q : Frontier ν κ} {t : τ} {a : Option (Frontier ν κ × τ)}
    (h : w.search fuel q t = some a) (hmore : fuel ≤ more) : w.search more q t = some a := by
  induction fuel generalizing q t more with
  | zero => cases h
  | succ fuel ih =>
    cases more with
    | zero => exact absurd hmore (Nat.not_succ_le_zero fuel)
    | succ more =>
      simp only [search] at h ⊢
      split at h
      · exact h
      · split at h
        · exact h
        · split at h
          · exact h
          · exact ih h (Nat.le_of_succ_le_succ hmore)

/-- What the edges queue does not depend on the work on them. -/
theorem scan_eq (n : ν) (es : List ε) (q : Frontier ν κ) (t : τ) :
    w.scan n es q t = (es.foldlM (fun t e => w.visit n e t) t).map
      (es.foldl (fun q e => w.enqueue q (w.push n e)) q, ·) := by
  induction es generalizing q t with
  | nil => rfl
  | cons e es ih =>
    rw [scan, List.foldlM_cons, List.foldl_cons]
    cases w.visit n e t with
    | none => rfl
    | some t => exact ih _ _

/-- One pass of the loop. -/
theorem search_cons {fuel : Nat} {q : Frontier ν κ} {n : ν} {queue : List ν} (t : τ)
    (hqueue : q.queue = n :: queue) :
    w.search (fuel + 1) q t =
      match w.process t n with
      | none => some none
      | some t => w.search fuel
          ((w.edges n).foldl (fun q e => w.enqueue q (w.push n e)) ⟨queue, q.seen⟩) t := by
  simp only [search, hqueue, scan_eq, process]
  cases (w.edges n).foldlM (fun t e => w.visit n e t) (w.enter n t) with
  | none => rfl
  | some t => rfl

end Algorithm

/-! ### Nodes and their depth -/

variable (w : Worklist ν ε κ τ)

/-- The nodes that pushes lead to, whether their keys are new or not. -/
inductive Reached (n₀ : ν) : ν → Prop
  | start : Reached n₀ n₀
  | push {n m : ν} {e : ε} : Reached n₀ n → e ∈ w.edges n → w.push n e = some m → Reached n₀ m

/-- Each push goes one deeper, and nodes with one key push the same keys. -/
structure Ranked (n₀ : ν) (depth : ν → Nat) : Prop where
  start : depth n₀ = 0
  push : ∀ {n e m}, w.push n e = some m → depth m = depth n + 1
  same : ∀ {n n' e m}, w.Reached n₀ n → w.Reached n₀ n' → w.key n = w.key n' → e ∈ w.edges n →
    w.push n e = some m → ∃ e' ∈ w.edges n', ∃ m', w.push n' e' = some m' ∧ w.key m' = w.key m

/-- No node with the same key is reached sooner. -/
def Soonest (n₀ : ν) (depth : ν → Nat) (n : ν) : Prop :=
  w.Reached n₀ n ∧ ∀ m, w.Reached n₀ m → w.key m = w.key n → depth n ≤ depth m

/-- The search ended: each key that can be reached has its one node, on which all work was done. -/
structure Finished (n₀ : ν) (t₀ : τ) (depth : ν → Nat) (order : List ν) (seen : List κ) (t : τ) :
    Prop where
  keys : seen = order.map w.key
  nodup : seen.Nodup
  soonest : ∀ n ∈ order, w.Soonest n₀ depth n
  covers : ∀ m, w.Reached n₀ m → ∃ n ∈ order, w.key n = w.key m
  worked : order.foldlM w.process t₀ = some t

/-! ### The invariant -/

variable {w} {n₀ : ν} {depth : ν → Nat} {done : List ν} {q : Frontier ν κ}

/-- The nodes in order of their depth, those before the queue being `done`. -/
structure Layered (w : Worklist ν ε κ τ) (n₀ : ν) (depth : ν → Nat) (done : List ν)
    (q : Frontier ν κ) : Prop where
  seen : q.seen = (done ++ q.queue).map w.key
  nodup : q.seen.Nodup
  reached : ∀ n ∈ done ++ q.queue, w.Reached n₀ n
  sorted : (done ++ q.queue).Pairwise fun n m => depth n ≤ depth m
  source : n₀ ∈ done ++ q.queue

/-- What an edge of `n` pushes has a node that is no deeper. -/
def Settled (w : Worklist ν ε κ τ) (depth : ν → Nat) (order : List ν) (n : ν) (e : ε) : Prop :=
  ∀ m, w.push n e = some m → ∃ x ∈ order, w.key x = w.key m ∧ depth x ≤ depth m

theorem Settled.mono {order order' : List ν} {n : ν} {e : ε} (h : Settled w depth order n e)
    (hsub : ∀ x ∈ order, x ∈ order') : Settled w depth order' n e := by
  intro m hm
  obtain ⟨x, hx, hkey⟩ := h m hm
  exact ⟨x, hsub x hx, hkey⟩

/-- The invariant between two nodes. -/
structure Between (w : Worklist ν ε κ τ) (n₀ : ν) (depth : ν → Nat) (done : List ν)
    (q : Frontier ν κ) : Prop extends Layered w n₀ depth done q where
  near : ∀ n ∈ q.queue, ∀ h ∈ q.queue.head?, depth n ≤ depth h + 1
  closed : ∀ n ∈ done, ∀ e ∈ w.edges n, Settled w depth (done ++ q.queue) n e

/-- The invariant between two edges of `n`, of which `scanned` have been queued. -/
structure Scanning (w : Worklist ν ε κ τ) (n₀ : ν) (depth : ν → Nat) (done : List ν) (n : ν)
    (scanned : List ε) (q : Frontier ν κ) : Prop extends Layered w n₀ depth (done ++ [n]) q where
  near : ∀ m ∈ q.queue, depth m ≤ depth n + 1
  closed : ∀ u ∈ done, ∀ e ∈ w.edges u, Settled w depth (done ++ [n] ++ q.queue) u e
  settled : ∀ e ∈ scanned, Settled w depth (done ++ [n] ++ q.queue) n e

theorem Between.take {n : ν} {queue : List ν} (h : Between w n₀ depth done q)
    (hqueue : q.queue = n :: queue) : Scanning w n₀ depth done n [] ⟨queue, q.seen⟩ := by
  have horder : done ++ q.queue = done ++ [n] ++ queue := by
    rw [hqueue, List.append_assoc]
    rfl
  exact {
    seen := horder ▸ h.seen
    nodup := h.nodup
    reached := horder ▸ h.reached
    sorted := horder ▸ h.sorted
    source := horder ▸ h.source
    near := by
      intro m hm
      exact h.near m (by rw [hqueue]; exact List.mem_cons_of_mem n hm) n (by rw [hqueue]; rfl)
    closed := fun u hu e he => horder ▸ h.closed u hu e he
    settled := nofun }

/-- Every node of the frontier is at most one deeper than the one that is scanned. -/
theorem Scanning.shallow {n : ν} {scanned : List ε} (h : Scanning w n₀ depth done n scanned q) :
    ∀ x ∈ done ++ [n] ++ q.queue, depth x ≤ depth n + 1 := by
  intro x hx
  have hsorted := h.sorted
  rw [List.append_assoc, List.pairwise_append] at hsorted
  rw [List.append_assoc] at hx
  rcases List.mem_append.mp hx with hx | hx
  · exact Nat.le_succ_of_le (hsorted.2.2 x hx n List.mem_cons_self)
  · rcases List.mem_cons.mp hx with rfl | hx
    · exact Nat.le_succ _
    · exact h.near x hx

section Search

variable [DecidableEq κ]

/-- One edge of the node. -/
theorem Scanning.edge {n : ν} {scanned : List ε} {e : ε} (hw : w.Ranked n₀ depth)
    (h : Scanning w n₀ depth done n scanned q) (he : e ∈ w.edges n) :
    Scanning w n₀ depth done n (scanned ++ [e]) (w.enqueue q (w.push n e)) := by
  have hsnoc : ∀ {order : List ν}, (∀ e ∈ scanned, Settled w depth order n e) →
      Settled w depth order n e → ∀ e' ∈ scanned ++ [e], Settled w depth order n e' := by
    intro order hold hnew e' he'
    rcases List.mem_append.mp he' with he' | he'
    · exact hold e' he'
    · rwa [List.mem_singleton.mp he']
  cases hpush : w.push n e with
  | none => exact { h with settled := hsnoc h.settled fun m hm => by rw [hpush] at hm; cases hm }
  | some m =>
    have hdepth := hw.push hpush
    by_cases hseen : w.key m ∈ q.seen
    · rw [enqueue, if_pos hseen]
      refine { h with settled := hsnoc h.settled fun m' hm' => ?_ }
      obtain rfl : m = m' := Option.some.inj (hpush.symm.trans hm')
      rw [h.seen] at hseen
      obtain ⟨x, hx, hkey⟩ := List.mem_map.mp hseen
      exact ⟨x, hx, hkey, hdepth ▸ h.shallow x hx⟩
    · rw [enqueue, if_neg hseen]
      have horder : done ++ [n] ++ (q.queue ++ [m]) = done ++ [n] ++ q.queue ++ [m] :=
        (List.append_assoc _ _ _).symm
      have hsub : ∀ x ∈ done ++ [n] ++ q.queue, x ∈ done ++ [n] ++ q.queue ++ [m] :=
        fun x hx => List.mem_append_left _ hx
      constructor
      · constructor
        · change q.seen ++ [w.key m] = _
          rw [horder, List.map_append, ← h.seen]
          rfl
        · exact h.nodup.append (List.nodup_singleton _) (List.disjoint_singleton.mpr hseen)
        · rw [horder]
          intro x hx
          rcases List.mem_append.mp hx with hx | hx
          · exact h.reached x hx
          · rw [List.mem_singleton.mp hx]
            exact (h.reached n (by simp)).push he hpush
        · rw [horder, List.pairwise_append]
          refine ⟨h.sorted, List.pairwise_singleton _ _, fun x hx y hy => ?_⟩
          rw [List.mem_singleton.mp hy, hdepth]
          exact h.shallow x hx
        · rw [horder]
          exact hsub n₀ h.source
      · intro x hx
        rcases List.mem_append.mp hx with hx | hx
        · exact h.near x hx
        · rw [List.mem_singleton.mp hx, hdepth]
      · rw [horder]
        exact fun u hu e' he' => (h.closed u hu e' he').mono hsub
      · rw [horder]
        refine hsnoc (fun e' he' => (h.settled e' he').mono hsub) fun m' hm' => ?_
        obtain rfl : m = m' := Option.some.inj (hpush.symm.trans hm')
        exact ⟨m, by simp, rfl, Nat.le_refl _⟩

/-- All edges of the node. -/
theorem Scanning.edges {n : ν} {scanned rest : List ε} (hw : w.Ranked n₀ depth)
    (h : Scanning w n₀ depth done n scanned q) (hrest : ∀ e ∈ rest, e ∈ w.edges n) :
    Scanning w n₀ depth done n (scanned ++ rest)
      (rest.foldl (fun q e => w.enqueue q (w.push n e)) q) := by
  induction rest generalizing scanned q with
  | nil => rwa [List.append_nil]
  | cons e rest ih =>
    rw [List.append_cons]
    exact ih (h.edge hw (hrest e List.mem_cons_self)) fun e' he' =>
      hrest e' (List.mem_cons_of_mem e he')

omit [DecidableEq κ] in
/-- The node joins those before the queue. -/
theorem Scanning.finished {n : ν} (h : Scanning w n₀ depth done n (w.edges n) q) :
    Between w n₀ depth (done ++ [n]) q where
  toLayered := h.toLayered
  near := by
    intro m hm u hu
    -- the head of the queue stands behind `n`, so it is no less deep
    have hsorted := h.sorted
    rw [List.append_assoc, List.pairwise_append] at hsorted
    have hle : depth n ≤ depth u := List.rel_of_pairwise_cons hsorted.2.1 (List.mem_of_head? hu)
    exact (h.near m hm).trans (Nat.succ_le_succ hle)
  closed := by
    intro u hu
    rcases List.mem_append.mp hu with hu | hu
    · exact h.closed u hu
    · rw [List.mem_singleton.mp hu]
      exact h.settled

omit [DecidableEq κ] in
/-- A node that can be reached has its key before the queue, or the queue has no deeper head. -/
theorem Between.front (hw : w.Ranked n₀ depth) (h : Between w n₀ depth done q) {m : ν}
    (hm : w.Reached n₀ m) : (∃ n ∈ done, w.key n = w.key m ∧ depth n ≤ depth m) ∨
      ∃ u ∈ q.queue.head?, depth u ≤ depth m := by
  have hplace : ∀ x ∈ done ++ q.queue, ∀ m, w.key x = w.key m → depth x ≤ depth m →
      (∃ n ∈ done, w.key n = w.key m ∧ depth n ≤ depth m) ∨
        ∃ u ∈ q.queue.head?, depth u ≤ depth m := by
    intro x hx m hkey hle
    rcases List.mem_append.mp hx with hx | hx
    · exact .inl ⟨x, hx, hkey, hle⟩
    · cases hqueue : q.queue with
      | nil =>
        rw [hqueue] at hx
        cases hx
      | cons u queue =>
        refine .inr ⟨u, rfl, le_trans ?_ hle⟩
        have hsorted := (List.pairwise_append.mp h.sorted).2.1
        rw [hqueue] at hx hsorted
        rcases List.mem_cons.mp hx with rfl | hx
        · exact Nat.le_refl _
        · exact List.rel_of_pairwise_cons hsorted hx
  induction hm with
  | start => exact hplace n₀ h.source n₀ rfl (Nat.le_refl _)
  | @push n m e hn he hpush ih =>
    have hdepth := hw.push hpush
    rcases ih with ⟨n', hdone, hkey, hle⟩ | ⟨u, hu, hle⟩
    · obtain ⟨e', he', m', hpush', hkey'⟩ :=
        hw.same hn (h.reached n' (List.mem_append_left _ hdone)) hkey.symm he hpush
      obtain ⟨x, hx, hxkey, hxle⟩ := h.closed n' hdone e' he' m' hpush'
      have hdepth' := hw.push hpush'
      exact hplace x hx m (hxkey.trans hkey') (by omega)
    · exact .inr ⟨u, hu, by omega⟩

omit [DecidableEq κ] in
/-- The head of the queue was reached soonest. -/
theorem Between.soonest_head (hw : w.Ranked n₀ depth) (h : Between w n₀ depth done q) {n : ν}
    {queue : List ν} (hqueue : q.queue = n :: queue) : w.Soonest n₀ depth n := by
  refine ⟨h.reached n (by simp [hqueue]), fun m hm hkey => ?_⟩
  rcases h.front hw hm with ⟨n', hdone, hkey', _⟩ | ⟨u, hu, hle⟩
  · have hnodup := h.nodup
    rw [h.seen, List.map_append, List.nodup_append] at hnodup
    have hmem : w.key n ∈ q.queue.map w.key := List.mem_map_of_mem (by simp [hqueue])
    exact absurd (hkey'.trans hkey) (hnodup.2.2 _ (List.mem_map_of_mem hdone) _ hmem)
  · rw [hqueue] at hu
    obtain rfl : n = u := Option.some.inj hu
    exact hle

/-! ### The answer -/

/-- The search from a state that satisfies the invariant: it ends with all nodes worked on, or raises
at one. -/
theorem Between.search {t₀ t : τ} (hw : w.Ranked n₀ depth) {U : Finset κ}
    (hU : ∀ n, w.Reached n₀ n → w.key n ∈ U) (h : Between w n₀ depth done q)
    (hsoonest : ∀ n ∈ done, w.Soonest n₀ depth n) (hworked : done.foldlM w.process t₀ = some t)
    {fuel : Nat} (hfuel : U.card < fuel + done.length) :
    (∃ q' t', w.search fuel q t = some (some (q', t')) ∧
      ∃ order, w.Finished n₀ t₀ depth order q'.seen t') ∨
    (w.search fuel q t = some none ∧
      ∃ n t, w.Soonest n₀ depth n ∧ w.process t n = none) := by
  induction fuel generalizing done q t with
  | zero =>
    have hcard : done.length ≤ U.card := by
      have hle : (done.map w.key).toFinset.card ≤ U.card := by
        refine Finset.card_le_card fun k hk => ?_
        obtain ⟨n, hn, rfl⟩ := List.mem_map.mp (List.mem_toFinset.mp hk)
        exact hU n (h.reached n (List.mem_append_left _ hn))
      have hnodup := h.nodup
      rw [h.seen, List.map_append] at hnodup
      rwa [List.toFinset_card_of_nodup hnodup.of_append_left, List.length_map] at hle
    omega
  | succ fuel ih =>
    cases hqueue : q.queue with
    | nil =>
      refine .inl ⟨q, t, by simp only [Worklist.search, hqueue], done, ?_⟩
      have horder : done ++ q.queue = done := by rw [hqueue, List.append_nil]
      refine ⟨horder ▸ h.seen, h.nodup, hsoonest, fun m hm => ?_, hworked⟩
      rcases h.front hw hm with ⟨n, hn, hkey, _⟩ | ⟨u, hu, _⟩
      · exact ⟨n, hn, hkey⟩
      · rw [hqueue] at hu
        cases hu
    | cons n queue =>
      have hhead := h.soonest_head hw hqueue
      rw [search_cons t hqueue]
      cases hprocess : w.process t n with
      | none => exact .inr ⟨rfl, n, t, hhead, hprocess⟩
      | some t' =>
        have hnext := ((h.take hqueue).edges hw fun e he => he).finished
        refine ih hnext ?_ ?_ ?_
        · intro m hm
          rcases List.mem_append.mp hm with hm | hm
          · exact hsoonest m hm
          · rwa [List.mem_singleton.mp hm]
        · rw [List.foldlM_append, hworked]
          simpa using hprocess
        · rw [List.length_append, List.length_singleton]
          omega

/-- The search ends, when finitely many keys can be reached: it has done all work on one node of each
key, or some of it raised. -/
theorem search_correct (hw : w.Ranked n₀ depth) {U : Finset κ}
    (hU : ∀ n, w.Reached n₀ n → w.key n ∈ U) (t₀ : τ) {fuel : Nat} (hfuel : U.card < fuel) :
    (∃ q t, w.search fuel (w.start n₀) t₀ = some (some (q, t)) ∧
      ∃ order, w.Finished n₀ t₀ depth order q.seen t) ∨
    (w.search fuel (w.start n₀) t₀ = some none ∧
      ∃ n t, w.Soonest n₀ depth n ∧ w.process t n = none) := by
  have hstart : Between w n₀ depth [] (w.start n₀) := {
    seen := rfl
    nodup := List.nodup_singleton _
    reached := by
      intro n hn
      rw [List.mem_singleton.mp hn]
      exact .start
    sorted := List.pairwise_singleton _ _
    source := List.mem_singleton_self n₀
    near := by
      intro n hn u hu
      obtain rfl : n₀ = u := Option.some.inj hu
      rw [List.mem_singleton.mp hn]
      exact Nat.le_succ _
    closed := nofun }
  exact hstart.search hw hU nofun rfl hfuel

end Search

end Worklist
