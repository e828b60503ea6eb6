import Mathlib

/-!
# The ownership model (`theory/check_model.py:13-98`)

States, edges and the transition function of the finite model, in the order in which the Python
generator yields them. Tuples are lists and Python integers are `Int`. Terminal reasons and edge
results are strings in the source; the ones it produces are constructors here and `other` keeps the
rest. Indices come from `range`, and tokens of a well-formed state name acquisitions, so the default
of `getD` is never read there (Python would raise).
-/

namespace Cbpf.Model

/-- `State.terminal`; `active` is the empty string. -/
inductive Terminal where
  | active | ret | exhaustion | nullRead | staleRead | nullRelease | staleRelease
  | other (text : String)
  deriving DecidableEq, Repr

/-- `Edge.result`. -/
inductive Outcome where
  | success | exhaustion | null | stale | copied | fortyTwo | consumed | ret
  | other (text : String)
  deriving DecidableEq, Repr

/-- `Edge.kind`. -/
inductive Kind where
  | acquire | acquireNull | copy | reload | spill | read | release | finish
  deriving DecidableEq, Repr

/-- `State`: token 0 is NULL, token `i + 1` names acquisition `i`. -/
@[ext]
structure State where
  live : List Bool
  registers : List Int
  spills : List Int
  explicit : List Int
  cleanup : List Int
  refcount : Int
  terminal : Terminal
  deriving DecidableEq, Repr

/-- `Edge`. -/
structure Edge where
  kind : Kind
  args : List Nat
  result : Outcome
  target : State
  deriving DecidableEq, Repr

/-- `updated`. -/
def updated {α : Type} (values : List α) (index : Nat) (value : α) : List α :=
  values.take index ++ [value] ++ values.drop (index + 1)

theorem updated_eq_set {α : Type} {values : List α} {index : Nat} (value : α)
    (h : index < values.length) : updated values index value = values.set index value := by
  rw [updated, List.set_eq_take_append_cons_drop, if_pos h, List.append_assoc]
  rfl

namespace State

/-- `registers[r]`. -/
def reg (s : State) (r : Nat) : Int := s.registers.getD r 0

/-- `spills[slot]`. -/
def slot (s : State) (i : Nat) : Int := s.spills.getD i 0

/-- `live[i]`. -/
def liveAt (s : State) (i : Nat) : Bool := s.live.getD i false

/-- `explicit[i]`. -/
def explicitAt (s : State) (i : Nat) : Int := s.explicit.getD i 0

/-- `cleanup[i]`. -/
def cleanupAt (s : State) (i : Nat) : Int := s.cleanup.getD i 0

/-- The acquisition a token names: `token - 1`. -/
def index (token : Int) : Nat := (token - 1).toNat

/-- `token != 0 and state.live[token - 1]`. -/
def valid (s : State) (token : Int) : Bool := token != 0 && s.liveAt (index token)

@[simp] theorem valid_zero (s : State) : s.valid 0 = false := by simp [valid]

/-- `terminate`: only live acquisitions are dropped. -/
def terminate (s : State) (reason : Terminal) : State :=
  { s with
    live := List.replicate s.live.length false
    cleanup := List.zipWith (fun n live => n + (live.toNat : Int)) s.cleanup s.live
    refcount := s.refcount - (s.live.count true : Int)
    terminal := reason }

/-- `registers=updated(state.registers, r, token)`. -/
def setReg (s : State) (r : Nat) (token : Int) : State :=
  { s with registers := updated s.registers r token }

/-- `spills=updated(state.spills, slot, token)`. -/
def setSpill (s : State) (i : Nat) (token : Int) : State :=
  { s with spills := updated s.spills i token }

/-- The target of a successful acquisition. -/
def acquire (s : State) (r : Nat) : State :=
  { s with
    live := s.live ++ [true]
    registers := updated s.registers r (s.live.length + 1)
    explicit := s.explicit ++ [0]
    cleanup := s.cleanup ++ [0]
    refcount := s.refcount + 1 }

/-- The acquisitions a release of `token` consumes. With `mutation` these are all live ones. -/
def victims (s : State) (mutation : Bool) (token : Int) : List Nat :=
  (List.range s.live.length).filter fun i => s.liveAt i && (mutation || i == index token)

/-- The target of a release that consumes `dead`. -/
def consume (s : State) (dead : List Nat) : State :=
  { s with
    live := s.live.mapIdx fun i live => live && !dead.contains i
    explicit := s.explicit.mapIdx fun i n => n + ((dead.contains i).toNat : Int)
    refcount := s.refcount - (dead.length : Int) }

/-- `State((), (0,) * registers, (0,) * spills, (), ())`. -/
def initial (registers spills : Nat) : State where
  live := []
  registers := List.replicate registers 0
  spills := List.replicate spills 0
  explicit := []
  cleanup := []
  refcount := 1
  terminal := .active

end State

/-! The edges, one definition for each `yield`. -/

/-- The reason of an invalid use: `"null" if token == 0 else "stale"`. -/
def invalidReason (token : Int) : Outcome := if token = 0 then .null else .stale

/-- `reason + "_read"`. -/
def readReason (token : Int) : Terminal := if token = 0 then .nullRead else .staleRead

/-- `reason + "_release"`. -/
def releaseReason (token : Int) : Terminal := if token = 0 then .nullRelease else .staleRelease

def acquireEdge (s : State) (capacity r : Nat) : Edge :=
  if s.live.length = capacity then ⟨.acquire, [r], .exhaustion, s.terminate .exhaustion⟩
  else ⟨.acquire, [r], .success, s.acquire r⟩

def acquireNullEdge (s : State) (r : Nat) : Edge := ⟨.acquireNull, [r], .null, s.setReg r 0⟩

def copyEdge (s : State) (dst src : Nat) : Edge :=
  ⟨.copy, [dst, src], .copied, s.setReg dst (s.reg src)⟩

def reloadEdge (s : State) (dst slot : Nat) : Edge :=
  ⟨.reload, [dst, slot], .copied, s.setReg dst (s.slot slot)⟩

def spillEdge (s : State) (slot r : Nat) : Edge :=
  ⟨.spill, [slot, r], .copied, s.setSpill slot (s.reg r)⟩

def readEdge (s : State) (r : Nat) : Edge :=
  let token := s.reg r
  if s.valid token then ⟨.read, [r], .fortyTwo, s⟩
  else ⟨.read, [r], invalidReason token, s.terminate (readReason token)⟩

def releaseEdge (s : State) (mutation : Bool) (r : Nat) : Edge :=
  let token := s.reg r
  if s.valid token then ⟨.release, [r], .consumed, s.consume (s.victims mutation token)⟩
  else ⟨.release, [r], invalidReason token, s.terminate (releaseReason token)⟩

def finishEdge (s : State) : Edge := ⟨.finish, [], .ret, s.terminate .ret⟩

section Labels

variable (s : State) (capacity r : Nat) (mutation : Bool)

@[simp] theorem kind_acquireEdge : (acquireEdge s capacity r).kind = .acquire := by
  unfold acquireEdge
  split <;> rfl

@[simp] theorem args_acquireEdge : (acquireEdge s capacity r).args = [r] := by
  unfold acquireEdge
  split <;> rfl

@[simp] theorem kind_readEdge : (readEdge s r).kind = .read := by
  simp only [readEdge]
  split <;> rfl

@[simp] theorem args_readEdge : (readEdge s r).args = [r] := by
  simp only [readEdge]
  split <;> rfl

@[simp] theorem kind_releaseEdge : (releaseEdge s mutation r).kind = .release := by
  simp only [releaseEdge]
  split <;> rfl

@[simp] theorem args_releaseEdge : (releaseEdge s mutation r).args = [r] := by
  simp only [releaseEdge]
  split <;> rfl

end Labels

/-- `sorted(range(nr), key=lambda i: state.registers[i] != 0)`; both sorts are stable. -/
def sortedRegisters (s : State) : List Nat :=
  (List.range s.registers.length).insertionSort fun i j => s.reg i = 0 ∨ s.reg j ≠ 0

/-- `transitions`. -/
def transitions (s : State) (capacity : Nat) (mutation : Bool) : List Edge :=
  if s.terminal ≠ .active then []
  else
    let nr := s.registers.length
    let ns := s.spills.length
    (sortedRegisters s).flatMap (fun r => [acquireEdge s capacity r, acquireNullEdge s r]) ++
    (List.range nr).flatMap (fun dst =>
      (List.range nr).map (copyEdge s dst) ++ (List.range ns).map (reloadEdge s dst)) ++
    (List.range ns).flatMap (fun slot => (List.range nr).map (spillEdge s slot)) ++
    (List.range nr).flatMap (fun r => [readEdge s r, releaseEdge s mutation r]) ++
    [finishEdge s]

/-- The edges by kind, without the order in which they are yielded. -/
inductive Yields (s : State) (capacity : Nat) (mutation : Bool) : Edge → Prop
  | acquire (r : Nat) : r < s.registers.length → Yields s capacity mutation (acquireEdge s capacity r)
  | acquireNull (r : Nat) : r < s.registers.length →
      Yields s capacity mutation (acquireNullEdge s r)
  | copy (dst src : Nat) : dst < s.registers.length → src < s.registers.length →
      Yields s capacity mutation (copyEdge s dst src)
  | reload (dst slot : Nat) : dst < s.registers.length → slot < s.spills.length →
      Yields s capacity mutation (reloadEdge s dst slot)
  | spill (slot r : Nat) : slot < s.spills.length → r < s.registers.length →
      Yields s capacity mutation (spillEdge s slot r)
  | read (r : Nat) : r < s.registers.length → Yields s capacity mutation (readEdge s r)
  | release (r : Nat) : r < s.registers.length →
      Yields s capacity mutation (releaseEdge s mutation r)
  | finish : Yields s capacity mutation (finishEdge s)

theorem mem_sortedRegisters (s : State) (r : Nat) :
    r ∈ sortedRegisters s ↔ r < s.registers.length := by
  rw [sortedRegisters, List.mem_insertionSort, List.mem_range]

theorem transitions_terminal {s : State} (h : s.terminal ≠ .active) (capacity : Nat)
    (mutation : Bool) : transitions s capacity mutation = [] := if_pos h

theorem mem_transitions {s : State} {capacity : Nat} {mutation : Bool} {e : Edge} :
    e ∈ transitions s capacity mutation ↔
      s.terminal = .active ∧ Yields s capacity mutation e := by
  by_cases ht : s.terminal = .active
  · simp only [transitions, ht, ne_eq, not_true_eq_false, if_false, true_and, List.mem_append,
      List.mem_flatMap, List.mem_map, List.mem_range, mem_sortedRegisters, List.mem_cons,
      List.not_mem_nil, or_false]
    constructor
    · rintro ((((⟨r, hr, rfl | rfl⟩ | ⟨dst, hd, ⟨src, hs, rfl⟩ | ⟨slot, hs, rfl⟩⟩) |
        ⟨slot, hs, r, hr, rfl⟩) | ⟨r, hr, rfl | rfl⟩) | rfl)
      · exact .acquire r hr
      · exact .acquireNull r hr
      · exact .copy dst src hd hs
      · exact .reload dst slot hd hs
      · exact .spill slot r hs hr
      · exact .read r hr
      · exact .release r hr
      · exact .finish
    · intro h
      cases h with
      | acquire r hr => exact .inl (.inl (.inl (.inl ⟨r, hr, .inl rfl⟩)))
      | acquireNull r hr => exact .inl (.inl (.inl (.inl ⟨r, hr, .inr rfl⟩)))
      | copy dst src hd hs => exact .inl (.inl (.inl (.inr ⟨dst, hd, .inl ⟨src, hs, rfl⟩⟩)))
      | reload dst slot hd hs => exact .inl (.inl (.inl (.inr ⟨dst, hd, .inr ⟨slot, hs, rfl⟩⟩)))
      | spill slot r hs hr => exact .inl (.inl (.inr ⟨slot, hs, r, hr, rfl⟩))
      | read r hr => exact .inl (.inr ⟨r, hr, .inl rfl⟩)
      | release r hr => exact .inl (.inr ⟨r, hr, .inr rfl⟩)
      | finish => exact .inr rfl
  · simp [transitions, ht]

/-- The edge of a kind with given operands. -/
def edgeFor (s : State) (capacity : Nat) (mutation : Bool) : Kind → List Nat → Edge
  | .acquire, [r] => acquireEdge s capacity r
  | .acquireNull, [r] => acquireNullEdge s r
  | .copy, [dst, src] => copyEdge s dst src
  | .reload, [dst, slot] => reloadEdge s dst slot
  | .spill, [slot, r] => spillEdge s slot r
  | .read, [r] => readEdge s r
  | .release, [r] => releaseEdge s mutation r
  | _, _ => finishEdge s

/-- Kind and operands determine the edge. -/
theorem Yields.eq_edgeFor {s : State} {capacity : Nat} {mutation : Bool} {e : Edge}
    (h : Yields s capacity mutation e) : e = edgeFor s capacity mutation e.kind e.args := by
  cases h with
  | acquire r _ => rw [kind_acquireEdge, args_acquireEdge, edgeFor]
  | read r _ => rw [kind_readEdge, args_readEdge, edgeFor]
  | release r _ => rw [kind_releaseEdge, args_releaseEdge, edgeFor]
  | _ => rfl

theorem Yields.eq_of_label {s : State} {capacity : Nat} {mutation : Bool} {e e' : Edge}
    (h : Yields s capacity mutation e) (h' : Yields s capacity mutation e')
    (hlabel : (e'.kind, e'.args) = (e.kind, e.args)) : e' = e := by
  obtain ⟨hkind, hargs⟩ := Prod.mk.inj hlabel
  calc e' = edgeFor s capacity mutation e'.kind e'.args := h'.eq_edgeFor
    _ = edgeFor s capacity mutation e.kind e.args := by rw [hkind, hargs]
    _ = e := h.eq_edgeFor.symm

/-- No edge changes the number of registers or of spill slots. -/
theorem Yields.lengths {s : State} {capacity : Nat} {mutation : Bool} {e : Edge}
    (h : Yields s capacity mutation e) : e.target.registers.length = s.registers.length ∧
      e.target.spills.length = s.spills.length := by
  cases h with
  | acquire r hr =>
    simp only [acquireEdge]
    split <;> simp [State.acquire, State.terminate, updated_eq_set _ hr]
  | acquireNull r hr => simp [acquireNullEdge, State.setReg, updated_eq_set _ hr]
  | copy dst src hd _ => simp [copyEdge, State.setReg, updated_eq_set _ hd]
  | reload dst slot hd _ => simp [reloadEdge, State.setReg, updated_eq_set _ hd]
  | spill slot r hs _ => simp [spillEdge, State.setSpill, updated_eq_set _ hs]
  | read r _ =>
    simp only [readEdge]
    split <;> simp [State.terminate]
  | release r _ =>
    simp only [releaseEdge]
    split <;> simp [State.consume, State.terminate]
  | finish => exact ⟨rfl, rfl⟩

/-- One step of the explored graph. -/
def Next (capacity : Nat) (mutation : Bool) (s t : State) : Prop :=
  ∃ e ∈ transitions s capacity mutation, e.target = t

/-- The states `explore(registers, spills, capacity, mutation)` can discover. -/
def Reachable (registers spills capacity : Nat) (mutation : Bool) (s : State) : Prop :=
  Relation.ReflTransGen (Next capacity mutation) (State.initial registers spills) s

/-- A history: the edges of a path through the graph. -/
inductive Path (capacity : Nat) (mutation : Bool) (s : State) : List Edge → State → Prop
  | nil : Path capacity mutation s [] s
  | snoc {path : List Edge} {t : State} {e : Edge} : Path capacity mutation s path t →
      e ∈ transitions t capacity mutation → Path capacity mutation s (path ++ [e]) e.target

theorem Path.reachable {registers spills capacity : Nat} {mutation : Bool} {path : List Edge}
    {t : State} (h : Path capacity mutation (State.initial registers spills) path t) :
    Reachable registers spills capacity mutation t := by
  induction h with
  | nil => exact .refl
  | snoc _ he ih => exact .tail ih ⟨_, he, rfl⟩

end Cbpf.Model
