import Mathlib

/-!
# Breadth-first search for a failing edge

The search takes states from the front of a queue, checks each edge that leaves one, and appends the
targets it has not seen before; parent pointers keep one history for each state. It ends at the first
edge that fails, or when the queue is empty. `Layered` is its invariant: discovered states stand in
order of their depth, every state before the queue is closed under its edges, and the parent pointers
of a state spell a path as long as it is deep.
-/

namespace BreadthFirst

/-- A graph given by its edges, each of which is checked. -/
structure Graph (σ ε ℓ κ : Type) where
  edges : σ → List ε
  target : ε → σ
  label : ε → ℓ
  /-- what is wrong with an edge that leaves a state -/
  error : σ → ε → Option κ
  /-- the states that are counted apart -/
  final : σ → Bool

/-- The variables of the search. `parents` is in the order of discovery. -/
structure Search (σ ℓ : Type) where
  queue : List σ
  parents : List (σ × Option (σ × ℓ))
  edgeCount : Nat
  finalCount : Nat

/-- How the search ends. -/
inductive Answer (ℓ κ : Type) where
  | verified (states finals edges : Nat)
  | failed (error : κ) (history : List ℓ) (states edges : Nat)
  deriving DecidableEq, Repr

variable {σ ε ℓ κ : Type}

section Algorithm

variable [DecidableEq σ]

/-- The labels from `s` back to the state without parent; `none` when `fuel` pointers do not lead
there. -/
def trail (parents : List (σ × Option (σ × ℓ))) : Nat → σ → Option (List ℓ)
  | 0, _ => none
  | fuel + 1, s =>
    match parents.lookup s with
    | none => none
    | some none => some []
    | some (some (t, label)) => (trail parents fuel t).map (label :: ·)

variable (g : Graph σ ε ℓ κ)

/-- The edges that leave `s`, one after the other, up to the first that fails. -/
def Graph.scan (s : σ) : List ε → Search σ ℓ → Except (κ × ε × Search σ ℓ) (Search σ ℓ)
  | [], q => .ok q
  | e :: es, q =>
    let q := { q with edgeCount := q.edgeCount + 1 }
    match g.error s e with
    | some k => .error (k, e, q)
    | none =>
      Graph.scan s es
        (if (q.parents.lookup (g.target e)).isSome then q
        else { q with
          parents := q.parents ++ [(g.target e, some (s, g.label e))]
          queue := q.queue ++ [g.target e] })

/-- The search, for at most `fuel` tests of the queue. -/
def Graph.search : Nat → Search σ ℓ → Option (Answer ℓ κ)
  | 0, _ => none
  | fuel + 1, q =>
    match q.queue with
    | [] => some (.verified q.parents.length q.finalCount q.edgeCount)
    | s :: queue =>
      match g.scan s (g.edges s)
        { q with queue := queue, finalCount := q.finalCount + (g.final s).toNat } with
      | .ok q => Graph.search fuel q
      | .error (k, e, q) =>
        (trail q.parents q.parents.length s).map fun labels =>
          .failed k (g.label e :: labels).reverse q.parents.length q.edgeCount

/-- More fuel than the search needs does not change its answer. -/
theorem Graph.search_mono {fuel more : Nat} {q : Search σ ℓ} {a : Answer ℓ κ}
    (h : g.search fuel q = some a) (hmore : fuel ≤ more) : g.search more q = some a := by
  induction fuel generalizing q more with
  | zero => cases h
  | succ fuel ih =>
    cases more with
    | zero => exact absurd hmore (Nat.not_succ_le_zero fuel)
    | succ more =>
      simp only [Graph.search] at h ⊢
      split at h
      · exact h
      · split at h
        · exact ih h (Nat.le_of_succ_le_succ hmore)
        · exact h

/-- The search before the first test of the queue. -/
def Search.start (s₀ : σ) : Search σ ℓ := ⟨[s₀], [(s₀, none)], 0, 0⟩

end Algorithm

/-! ### Paths -/

namespace Graph

variable (g : Graph σ ε ℓ κ)

/-- The edges of a path from `s₀`. -/
inductive Path (s₀ : σ) : List ε → σ → Prop
  | nil : Path s₀ [] s₀
  | snoc {p : List ε} {t : σ} {e : ε} : Path s₀ p t → e ∈ g.edges t →
      Path s₀ (p ++ [e]) (g.target e)

/-- A path on which no edge fails. -/
inductive SafePath (s₀ : σ) : List ε → σ → Prop
  | nil : SafePath s₀ [] s₀
  | snoc {p : List ε} {t : σ} {e : ε} : SafePath s₀ p t → e ∈ g.edges t → g.error t e = none →
      SafePath s₀ (p ++ [e]) (g.target e)

variable {g} {s₀ s : σ}

theorem SafePath.path {p : List ε} {t : σ} (h : g.SafePath s₀ p t) : g.Path s₀ p t := by
  induction h with
  | nil => exact .nil
  | snoc _ he _ ih => exact ih.snoc he

/-- What contains `s₀` and is closed under the edges that pass contains the end of a safe path. -/
theorem SafePath.mem {U : Finset σ} (h₀ : s₀ ∈ U)
    (hU : ∀ u ∈ U, ∀ e ∈ g.edges u, g.error u e = none → g.target e ∈ U) {p : List ε} {t : σ}
    (h : g.SafePath s₀ p t) : t ∈ U := by
  induction h with
  | nil => exact h₀
  | snoc _ he hpass ih => exact hU _ ih _ he hpass

/-- What the search promises with its answer. -/
def Correct (g : Graph σ ε ℓ κ) (s₀ : σ) : Answer ℓ κ → Prop
  | .verified states finals edges => ∃ order : List σ, order.Nodup ∧
      (∀ t, t ∈ order ↔ ∃ p, g.Path s₀ p t) ∧
      (∀ t ∈ order, ∀ e ∈ g.edges t, g.error t e = none) ∧
      states = order.length ∧ finals = order.countP g.final ∧
      edges = (order.map fun t => (g.edges t).length).sum
  | .failed k history _ _ => ∃ p u e, g.SafePath s₀ p u ∧ e ∈ g.edges u ∧ g.error u e = some k ∧
      history = (p ++ [e]).map g.label ∧
      ∀ p' u' e', g.Path s₀ p' u' → e' ∈ g.edges u' → g.error u' e' ≠ none →
        p.length ≤ p'.length

end Graph

section Correctness

variable [DecidableEq σ]

/-! ### Parent pointers -/

theorem lookup_isSome {β : Type} {l : List (σ × β)} {a : σ} :
    (l.lookup a).isSome = true ↔ a ∈ l.map Prod.fst := by
  rw [List.lookup_isSome_iff, List.mem_map]
  constructor
  · rintro ⟨x, hx, hax⟩
    exact ⟨x, hx, (eq_of_beq hax).symm⟩
  · rintro ⟨x, hx, rfl⟩
    exact ⟨x, hx, beq_self_eq_true x.1⟩

/-- Parent pointers that keep the old ones, and more fuel, lead a state back the same way. -/
theorem trail_extend {parents parents' : List (σ × Option (σ × ℓ))} {fuel fuel' : Nat} {s : σ}
    {labels : List ℓ}
    (hkept : ∀ t parent, parents.lookup t = some parent → parents'.lookup t = some parent)
    (h : trail parents fuel s = some labels) (hle : fuel ≤ fuel') :
    trail parents' fuel' s = some labels := by
  induction fuel generalizing s labels fuel' with
  | zero => cases h
  | succ fuel ih =>
    obtain ⟨k, rfl⟩ := Nat.exists_eq_add_of_le hle
    rw [Nat.add_right_comm]
    rw [trail] at h ⊢
    cases hs : parents.lookup s with
    | none =>
      rw [hs] at h
      cases h
    | some parent =>
      rw [hs] at h
      rw [hkept s parent hs]
      cases parent with
      | none => exact h
      | some edge =>
        obtain ⟨rest, hrest, rfl⟩ := Option.map_eq_some_iff.mp h
        exact Option.map_eq_some_iff.mpr ⟨rest, ih hrest (Nat.le_add_right fuel k), rfl⟩

theorem trail_append {parents : List (σ × Option (σ × ℓ))} {fuel : Nat} {s : σ} {labels : List ℓ}
    (h : trail parents fuel s = some labels) (more : List (σ × Option (σ × ℓ))) :
    trail (parents ++ more) fuel s = some labels := by
  refine trail_extend ?_ h (Nat.le_refl fuel)
  intro t parent ht
  rw [List.lookup_append, ht]
  rfl

theorem trail_mono {parents : List (σ × Option (σ × ℓ))} {fuel fuel' : Nat} {s : σ}
    {labels : List ℓ} (h : trail parents fuel s = some labels) (hle : fuel ≤ fuel') :
    trail parents fuel' s = some labels :=
  trail_extend (fun _ _ hfound => hfound) h hle

/-! ### The invariant -/

variable {g : Graph σ ε ℓ κ} {s₀ s : σ}

/-- The states that a search has discovered, in order. -/
def Search.order (q : Search σ ℓ) : List σ := q.parents.map Prod.fst

/-- The discovered states in order of their depth, those before the queue being `done`. -/
structure Layered (g : Graph σ ε ℓ κ) (s₀ : σ) (done : List σ) (depth : σ → Nat)
    (q : Search σ ℓ) : Prop where
  order : q.order = done ++ q.queue
  nodup : q.order.Nodup
  source : s₀ ∈ q.order ∧ depth s₀ = 0
  sorted : q.order.Pairwise fun t u => depth t ≤ depth u
  shallow : ∀ t ∈ q.order, depth t < q.order.length
  trails : ∀ t ∈ q.order, ∃ p, g.SafePath s₀ p t ∧ p.length = depth t ∧
    trail q.parents (depth t + 1) t = some (p.map g.label).reverse

/-- An edge of `u` that needs no more attention. -/
def Settled (g : Graph σ ε ℓ κ) (depth : σ → Nat) (q : Search σ ℓ) (u : σ) (e : ε) : Prop :=
  g.error u e = none ∧ g.target e ∈ q.order ∧ depth (g.target e) ≤ depth u + 1

/-- The invariant between two states: those before the queue are closed. -/
structure Between (g : Graph σ ε ℓ κ) (s₀ : σ) (done : List σ) (depth : σ → Nat)
    (q : Search σ ℓ) : Prop extends Layered g s₀ done depth q where
  near : ∀ t ∈ q.order, ∀ h ∈ q.queue.head?, depth t ≤ depth h + 1
  closed : ∀ u ∈ done, ∀ e ∈ g.edges u, Settled g depth q u e
  edgeCount : q.edgeCount = (done.map fun u => (g.edges u).length).sum
  finalCount : q.finalCount = done.countP g.final

/-- The invariant between two edges of `s`, of which `seen` are checked. -/
structure Scanning (g : Graph σ ε ℓ κ) (s₀ : σ) (done : List σ) (s : σ) (seen : List ε)
    (depth : σ → Nat) (q : Search σ ℓ) : Prop extends Layered g s₀ (done ++ [s]) depth q where
  near : ∀ t ∈ q.order, depth t ≤ depth s + 1
  closed : ∀ u ∈ done, ∀ e ∈ g.edges u, Settled g depth q u e
  scanned : ∀ e ∈ seen, Settled g depth q s e
  edgeCount : q.edgeCount = (done.map fun u => (g.edges u).length).sum + seen.length
  finalCount : q.finalCount = (done ++ [s]).countP g.final

variable {done : List σ} {seen : List ε} {depth : σ → Nat} {q : Search σ ℓ} {e : ε}

/-- The search that has just discovered the target of `e`. -/
def Search.discover (g : Graph σ ε ℓ κ) (q : Search σ ℓ) (s : σ) (e : ε) : Search σ ℓ :=
  { q with
    parents := q.parents ++ [(g.target e, some (s, g.label e))]
    queue := q.queue ++ [g.target e] }

omit [DecidableEq σ] in
theorem order_discover (q : Search σ ℓ) (s : σ) (e : ε) :
    (q.discover g s e).order = q.order ++ [g.target e] := by
  simp [Search.order, Search.discover]

/-- A discovered state is as deep as its parent and one more. -/
theorem Layered.discover (h : Layered g s₀ done depth q) (hs : s ∈ q.order)
    (hnear : ∀ t ∈ q.order, depth t ≤ depth s + 1) (he : e ∈ g.edges s)
    (hpass : g.error s e = none) (hnew : g.target e ∉ q.order) :
    Layered g s₀ done (Function.update depth (g.target e) (depth s + 1)) (q.discover g s e) := by
  have hold : ∀ t ∈ q.order, Function.update depth (g.target e) (depth s + 1) t = depth t := by
    intro t ht
    exact Function.update_of_ne (ne_of_mem_of_not_mem ht hnew) _ _
  have hlast : Function.update depth (g.target e) (depth s + 1) (g.target e) = depth s + 1 :=
    Function.update_self _ _ _
  constructor
  · rw [order_discover, h.order, List.append_assoc]
    rfl
  · rw [order_discover]
    exact h.nodup.append (List.nodup_singleton _) (List.disjoint_singleton.mpr hnew)
  · rw [order_discover, hold s₀ h.source.1]
    exact ⟨List.mem_append_left _ h.source.1, h.source.2⟩
  · rw [order_discover, List.pairwise_append]
    refine ⟨?_, List.pairwise_singleton _ _, ?_⟩
    · refine h.sorted.imp_of_mem ?_
      intro t u ht hu hle
      rwa [hold t ht, hold u hu]
    · intro t ht u hu
      rw [List.mem_singleton.mp hu, hold t ht, hlast]
      exact hnear t ht
  · intro t ht
    rw [order_discover, List.length_append, List.length_singleton]
    rw [order_discover] at ht
    rcases List.mem_append.mp ht with ht | ht
    · rw [hold t ht]
      exact Nat.lt_succ_of_lt (h.shallow t ht)
    · rw [List.mem_singleton.mp ht, hlast]
      exact Nat.succ_lt_succ (h.shallow s hs)
  · intro t ht
    rw [order_discover] at ht
    rcases List.mem_append.mp ht with ht | ht
    · obtain ⟨p, hp, hlength, htrail⟩ := h.trails t ht
      rw [hold t ht]
      exact ⟨p, hp, hlength, trail_append htrail _⟩
    · rw [List.mem_singleton.mp ht, hlast]
      obtain ⟨p, hp, hlength, htrail⟩ := h.trails s hs
      refine ⟨p ++ [e], hp.snoc he hpass, by rw [List.length_append, hlength]; rfl, ?_⟩
      -- the new pointer is found behind the old ones, and leads on to the parent's trail
      have hnone : q.parents.lookup (g.target e) = none := by
        rw [← Option.not_isSome_iff_eq_none, lookup_isSome]
        exact hnew
      have hfound : (q.discover g s e).parents.lookup (g.target e) = some (some (s, g.label e)) := by
        rw [Search.discover, List.lookup_append, hnone]
        simp
      rw [trail, hfound]
      simp only [trail_append htrail, Search.discover, Option.map_some, List.map_append,
        List.map_cons, List.map_nil, List.reverse_append, List.reverse_cons, List.reverse_nil,
        List.nil_append, List.singleton_append]

theorem Settled.discover {u : σ} {e' : ε} (h : Settled g depth q u e') (hu : u ∈ q.order)
    (hnew : g.target e ∉ q.order) :
    Settled g (Function.update depth (g.target e) (depth s + 1)) (q.discover g s e) u e' := by
  obtain ⟨hpass, hmem, hle⟩ := h
  refine ⟨hpass, ?_, ?_⟩
  · rw [order_discover]
    exact List.mem_append_left _ hmem
  · rwa [Function.update_of_ne (ne_of_mem_of_not_mem hmem hnew),
      Function.update_of_ne (ne_of_mem_of_not_mem hu hnew)]

/-- One edge that passes. -/
theorem Scanning.edge (h : Scanning g s₀ done s seen depth q) (he : e ∈ g.edges s)
    (hpass : g.error s e = none) :
    ∃ depth', Scanning g s₀ done s (seen ++ [e]) depth'
      (if (q.parents.lookup (g.target e)).isSome then { q with edgeCount := q.edgeCount + 1 }
      else ({ q with edgeCount := q.edgeCount + 1 } : Search σ ℓ).discover g s e) := by
  have hs : s ∈ q.order := by
    rw [h.order]
    simp
  have hcount : q.edgeCount + 1 =
      (done.map fun u => (g.edges u).length).sum + (seen ++ [e]).length := by
    rw [h.edgeCount, List.length_append]
    rfl
  by_cases hmem : g.target e ∈ q.order
  · rw [if_pos (lookup_isSome.mpr hmem)]
    refine ⟨depth, { h with edgeCount := hcount, scanned := ?_ }⟩
    intro e' he'
    rcases List.mem_append.mp he' with he' | he'
    · exact h.scanned e' he'
    · rw [List.mem_singleton.mp he']
      exact ⟨hpass, hmem, h.near _ hmem⟩
  · rw [if_neg (fun hfound => hmem (lookup_isSome.mp hfound))]
    have hkeep : Function.update depth (g.target e) (depth s + 1) s = depth s :=
      Function.update_of_ne (ne_of_mem_of_not_mem hs hmem) _ _
    refine ⟨Function.update depth (g.target e) (depth s + 1), ?_⟩
    constructor
    · exact Layered.discover (q := { q with edgeCount := q.edgeCount + 1 }) { h.toLayered with }
        hs h.near he hpass hmem
    · intro t ht
      rw [order_discover] at ht
      rw [hkeep]
      rcases List.mem_append.mp ht with ht | ht
      · rw [Function.update_of_ne (ne_of_mem_of_not_mem ht hmem)]
        exact h.near t ht
      · rw [List.mem_singleton.mp ht, Function.update_self]
    · intro u hu e' he'
      have hu' : u ∈ q.order := by
        rw [h.order, List.append_assoc]
        exact List.mem_append_left _ hu
      exact (h.closed u hu e' he').discover hu' hmem
    · intro e' he'
      rcases List.mem_append.mp he' with he' | he'
      · exact (h.scanned e' he').discover hs hmem
      · rw [List.mem_singleton.mp he']
        refine ⟨hpass, ?_, ?_⟩
        · rw [order_discover]
          exact List.mem_append_right _ (List.mem_singleton_self _)
        · rw [Function.update_self, hkeep]
    · exact hcount
    · exact h.finalCount

/-- The scan of the rest of the edges of `s`: all pass, or it stops at one that fails. -/
theorem Scanning.scan {rest : List ε} (h : Scanning g s₀ done s seen depth q)
    (hrest : ∀ e ∈ rest, e ∈ g.edges s) :
    (∃ q' depth', g.scan s rest q = .ok q' ∧ Scanning g s₀ done s (seen ++ rest) depth' q') ∨
    ∃ k e q' seen' depth', g.scan s rest q = .error (k, e, { q' with edgeCount := q'.edgeCount + 1 }) ∧
      e ∈ g.edges s ∧ g.error s e = some k ∧ Scanning g s₀ done s seen' depth' q' := by
  induction rest generalizing seen depth q with
  | nil => exact .inl ⟨q, depth, rfl, by rwa [List.append_nil]⟩
  | cons e rest ih =>
    have he := hrest e List.mem_cons_self
    cases hcheck : g.error s e with
    | some k =>
      refine .inr ⟨k, e, q, seen, depth, ?_, he, hcheck, h⟩
      simp only [Graph.scan, hcheck]
    | none =>
      obtain ⟨depth', hnext⟩ := h.edge he hcheck
      have hscan : g.scan s (e :: rest) q = g.scan s rest
          (if (q.parents.lookup (g.target e)).isSome then { q with edgeCount := q.edgeCount + 1 }
          else ({ q with edgeCount := q.edgeCount + 1 } : Search σ ℓ).discover g s e) := by
        simp only [Graph.scan, hcheck]
        rfl
      rw [hscan, List.append_cons]
      exact ih hnext fun e' he' => hrest e' (List.mem_cons_of_mem e he')

/-- The next state is taken from the queue. -/
theorem Between.take {queue : List σ} (h : Between g s₀ done depth q) (hqueue : q.queue = s :: queue) :
    Scanning g s₀ done s [] depth
      { q with queue := queue, finalCount := q.finalCount + (g.final s).toNat } where
  order := by
    change q.order = done ++ [s] ++ queue
    rw [h.order, hqueue, List.append_assoc]
    rfl
  nodup := h.nodup
  source := h.source
  sorted := h.sorted
  shallow := h.shallow
  trails := h.trails
  near := fun t ht => h.near t ht s (by rw [hqueue]; rfl)
  closed := h.closed
  scanned := fun e he => absurd he List.not_mem_nil
  edgeCount := h.edgeCount
  finalCount := by
    change q.finalCount + _ = _
    rw [h.finalCount, List.countP_append, List.countP_singleton]
    cases g.final s <;> rfl

/-- All edges of the state have been checked. -/
theorem Scanning.finished (h : Scanning g s₀ done s (g.edges s) depth q) :
    Between g s₀ (done ++ [s]) depth q where
  toLayered := h.toLayered
  near := by
    intro t ht u hu
    -- the head of the queue stands behind `s`, so it is no less deep
    have hsorted := h.sorted
    rw [h.order, List.append_assoc, List.pairwise_append] at hsorted
    have hle : depth s ≤ depth u :=
      List.rel_of_pairwise_cons hsorted.2.1 (List.mem_of_head? hu)
    exact Nat.le_trans (h.near t ht) (Nat.succ_le_succ hle)
  closed := by
    intro u hu
    rcases List.mem_append.mp hu with hu | hu
    · exact h.closed u hu
    · rw [List.mem_singleton.mp hu]
      exact h.scanned
  edgeCount := by
    rw [h.edgeCount, List.map_append, List.sum_append]
    simp
  finalCount := h.finalCount

/-! ### The answer -/

/-- Every path shorter than `s` is deep stays before `s`. -/
theorem Scanning.short_path (h : Scanning g s₀ done s seen depth q) {p : List ε} {t : σ}
    (hp : g.Path s₀ p t) (hshort : p.length < depth s) : t ∈ done ∧ depth t ≤ p.length := by
  have hbefore : ∀ u ∈ q.order, depth u < depth s → u ∈ done := by
    intro u hu hlt
    have hsorted := h.sorted
    rw [h.order, List.append_assoc, List.pairwise_append] at hsorted
    rw [h.order, List.append_assoc] at hu
    rcases List.mem_append.mp hu with hu | hu
    · exact hu
    · rcases List.mem_cons.mp hu with rfl | hu
      · exact absurd hlt (Nat.lt_irrefl _)
      · have hle := List.rel_of_pairwise_cons hsorted.2.1 hu
        omega
  induction hp with
  | nil =>
    obtain ⟨hmem, hzero⟩ := h.source
    exact ⟨hbefore s₀ hmem (by rw [hzero]; exact Nat.zero_lt_of_lt hshort), Nat.le_of_eq hzero⟩
  | @snoc p t e hp he ih =>
    rw [List.length_append, List.length_singleton] at hshort ⊢
    obtain ⟨ht, hle⟩ := ih (by omega)
    obtain ⟨_, hmem, hdeep⟩ := h.closed t ht e he
    exact ⟨hbefore _ hmem (by omega), by omega⟩

/-- A failing edge of the state that is scanned ends a shortest path to a failing edge. -/
theorem Scanning.failed (h : Scanning g s₀ done s seen depth q) (he : e ∈ g.edges s) {k : κ}
    (herror : g.error s e = some k) (states edges : Nat) :
    ∃ labels, trail q.parents q.parents.length s = some labels ∧
      g.Correct s₀ (.failed k (g.label e :: labels).reverse states edges) := by
  have hs : s ∈ q.order := by
    rw [h.order]
    simp
  obtain ⟨p, hp, hlength, htrail⟩ := h.trails s hs
  have hfuel : depth s + 1 ≤ q.parents.length := by
    have := h.shallow s hs
    rw [Search.order, List.length_map] at this
    exact this
  refine ⟨_, trail_mono htrail hfuel, p, s, e, hp, he, herror, ?_, ?_⟩
  · rw [List.reverse_cons, List.reverse_reverse, List.map_append]
    rfl
  · intro p' u' e' hp' he' hbad
    by_contra hlt
    obtain ⟨hu', _⟩ := h.short_path hp' (by omega)
    exact hbad (h.closed u' hu' e' he').1

/-- With an empty queue the discovered states are the reachable ones. -/
theorem Between.verified (h : Between g s₀ done depth q) (hqueue : q.queue = []) :
    g.Correct s₀ (.verified q.parents.length q.finalCount q.edgeCount) := by
  have horder : q.order = done := by rw [h.order, hqueue, List.append_nil]
  have hreached : ∀ t, t ∈ done ↔ ∃ p, g.Path s₀ p t := by
    intro t
    constructor
    · intro ht
      obtain ⟨p, hp, _⟩ := h.trails t (horder ▸ ht)
      exact ⟨p, hp.path⟩
    · rintro ⟨p, hp⟩
      induction hp with
      | nil => exact horder ▸ h.source.1
      | snoc _ he ih => exact horder ▸ (h.closed _ ih _ he).2.1
  refine ⟨done, horder ▸ h.nodup, hreached, fun t ht e he => (h.closed t ht e he).1, ?_,
    h.finalCount, h.edgeCount⟩
  rw [← horder, Search.order, List.length_map]

/-- There are no more discovered states than `U` has elements. -/
theorem Layered.length_le {U : Finset σ} (h₀ : s₀ ∈ U)
    (hU : ∀ u ∈ U, ∀ e ∈ g.edges u, g.error u e = none → g.target e ∈ U)
    (h : Layered g s₀ done depth q) : done.length + q.queue.length ≤ U.card := by
  rw [← List.length_append, ← h.order, ← List.toFinset_card_of_nodup h.nodup]
  apply Finset.card_le_card
  intro t ht
  obtain ⟨p, hp, _⟩ := h.trails t (List.mem_toFinset.mp ht)
  exact hp.mem h₀ hU

/-- Each test of the queue moves one more state of `U` before it. -/
theorem Between.search {U : Finset σ} (h₀ : s₀ ∈ U)
    (hU : ∀ u ∈ U, ∀ e ∈ g.edges u, g.error u e = none → g.target e ∈ U)
    (h : Between g s₀ done depth q) {fuel : Nat} (hfuel : U.card < fuel + done.length) :
    ∃ a, g.search fuel q = some a ∧ g.Correct s₀ a := by
  induction fuel generalizing done depth q with
  | zero =>
    have := h.length_le h₀ hU
    omega
  | succ fuel ih =>
    cases hqueue : q.queue with
    | nil =>
      refine ⟨_, ?_, h.verified hqueue⟩
      simp only [Graph.search, hqueue]
    | cons s queue =>
      rcases (h.take hqueue).scan fun e he => he with
        ⟨q', depth', hscan, hnext⟩ | ⟨k, e, q', seen, depth', hscan, he, herror, hstop⟩
      · obtain ⟨a, hsearch, hcorrect⟩ := ih hnext.finished (by
          rw [List.length_append, List.length_singleton]
          omega)
        refine ⟨a, ?_, hcorrect⟩
        simp only [Graph.search, hqueue, hscan, hsearch]
      · obtain ⟨labels, htrail, hcorrect⟩ :=
          hstop.failed he herror q'.parents.length (q'.edgeCount + 1)
        refine ⟨_, ?_, hcorrect⟩
        simp only [Graph.search, hqueue, hscan, htrail, Option.map_some]

/-- The search ends, with a correct answer: when finitely many states contain the first one and are
closed under the edges that pass. -/
theorem search_correct {U : Finset σ} (h₀ : s₀ ∈ U)
    (hU : ∀ u ∈ U, ∀ e ∈ g.edges u, g.error u e = none → g.target e ∈ U) {fuel : Nat}
    (hfuel : U.card < fuel) : ∃ a, g.search fuel (.start s₀) = some a ∧ g.Correct s₀ a := by
  have hlayered : Layered g s₀ [] (fun _ => 0) (.start s₀) := {
    order := rfl
    nodup := List.nodup_singleton s₀
    source := ⟨List.mem_singleton_self s₀, rfl⟩
    sorted := List.pairwise_singleton _ s₀
    shallow := fun _ _ => Nat.zero_lt_one
    trails := by
      intro t ht
      obtain rfl := List.mem_singleton.mp ht
      exact ⟨[], .nil, rfl, by simp [trail, Search.start]⟩ }
  have hstart : Between g s₀ [] (fun _ => 0) (.start s₀) := { hlayered with
    near := fun _ _ _ _ => Nat.zero_le 1
    closed := fun u hu => absurd hu List.not_mem_nil
    edgeCount := rfl
    finalCount := rfl }
  exact hstart.search h₀ hU hfuel

end Correctness

end BreadthFirst
