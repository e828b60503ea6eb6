import Cbpf.Jit.Restricted
import Cbpf.Lib.Inevitable

/-!
# The processor while a compiled program runs

From the call of an image to its return: the prologue in executive mode, `cbpf_enter`, the program in
restricted mode with its calls through the gateway, and the executive exit. A successful `cbpf_enter`
does not return, it branches into the program. What it leaves in registers that it does not set, and
what C functions write below the stack, is open.
-/

namespace Cbpf.Jit

open Cheri Kernel Executive

/-- What stays the same while an image runs; `ctx.callerLr` is read from the link register. -/
structure Platform where
  p : Morello
  t : Target
  env : Env
  ctx : EnterContext
  image : Nat → Word
  link : Nat → Capability

inductive Processor where
  | executive (m : Executive) (g : Running)
  /-- the program, and the stack pointer and the memory of executive mode -/
  | restricted (e : Envelope) (m : Machine) (sp : BitVec 64) (mem : BitVec 64 → Granule)
  /-- control has left the image for an address -/
  | returned (address : Nat) (m : Executive) (g : Running)
  | fault

/-- The index of the word at an address. -/
def indexOf (p : Morello) (address : Nat) : Nat := (BitVec.ofNat 64 address - p.image).toNat / 4

/-- `EINVAL` and `ERANGE`. -/
def errno : EnterError → Nat
  | .einval => 22
  | .erange => 34

namespace Platform

variable (P : Platform)

/-- What `cbpf_enter` reads besides its arguments when it is called in the state `m`. -/
def context (m : Executive) : EnterContext := { P.ctx with callerLr := m.x a64Lr }

/-- The code between the sealed capabilities of an entry. -/
def envelope (entry : Entry) : Envelope where
  image := P.image
  executiveExit := indexOf P.p entry.exit.address
  gate := entry.gate
  exit := entry.exit
  link := P.link

/-- `cbpf_enter`, called in the state `m`, returns an error. -/
structure Refuses (m : Executive) (err : EnterError) (m' : Executive) : Prop
    extends Preserves m m' where
  pc : m'.pc = indexOf P.p (m.x a64Lr)
  x0 : m'.x 0 % 2 ^ 32 = 2 ^ 32 - errno err

/-- `cbpf_enter`, called in the state `m`, branches into the program: the registers that it sets, the
caller slot that it writes, and what it keeps. -/
structure Admits (m : Executive) (g : Running) (entry : Entry) (u : Machine)
    (mem : BitVec 64 → Granule) : Prop where
  pc : u.pc = indexOf P.p entry.code.address
  x0 : u.x 0 = 0
  x15 : u.x 15 = entry.stack
  c17 : u.c 17 = entry.gate
  c30 : u.c a64Lr = entry.exit
  slot : u.slot = (mem (BitVec.ofNat 64 entry.rcsp.address)).load P.p
  gate : u.g = g
  callerSlot : mem (BitVec.ofNat 64 entry.callerSlotAddr) = .cap entry.callerSlot
  frame : ∀ k < 16, m.sp + BitVec.ofNat 64 (16 * k) ≠ BitVec.ofNat 64 entry.callerSlotAddr →
    mem (m.sp + BitVec.ofNat 64 (16 * k)) = m.frame k

/-- Memory that is the same at and above the stack base: the gateway and `cbpf_gate_impl` work below
it, and the spill slot is kept apart. -/
def SameFrame (sp : BitVec 64) (mem mem' : BitVec 64 → Granule) : Prop :=
  ∀ k < 8, mem' (sp + BitVec.ofNat 64 (16 * k)) = mem (sp + BitVec.ofNat 64 (16 * k))

end Platform

namespace Processor

/-- One word, or one call with what it does. -/
inductive Step (P : Platform) : Processor → Processor → Prop
  | word {m m' : Executive} {g : Running} : Executive.step P.p P.image m = .next m' →
      Step P (.executive m g) (.executive m' g)
  | refuse {m m' m'' : Executive} {g : Running} {err : EnterError} :
      Executive.step P.p P.image m = .call P.t.cbpfEnter.toNat m' →
      cbpfEnter P.env (P.context m') (enterArgs m') g.s = .error err → P.Refuses m' err m'' →
      Step P (.executive m g) (.executive m'' g)
  | enter {m m' : Executive} {g : Running} {s : Invocation} {entry : Entry} {u : Machine}
      {mem : BitVec 64 → Granule} :
      Executive.step P.p P.image m = .call P.t.cbpfEnter.toNat m' →
      cbpfEnter P.env (P.context m') (enterArgs m') g.s = .ok (s, entry) →
      P.Admits m' { g with s := s } entry u mem →
      Step P (.executive m g)
        (.restricted (P.envelope entry) u (BitVec.ofNat 64 entry.stack) mem)
  | call {m m' : Executive} {g : Running} {target : Nat} :
      Executive.step P.p P.image m = .call target m' → target ≠ P.t.cbpfEnter.toNat →
      Step P (.executive m g) .fault
  /-- through the sealed caller slot, or through the link register -/
  | retr {m m' : Executive} {g : Running} {target : Capability} :
      Executive.step P.p P.image m = .retr target m' →
      Step P (.executive m g) (if target.tag then .returned target.address m' g else .fault)
  | ret {m m' : Executive} {g : Running} {target : Nat} :
      Executive.step P.p P.image m = .ret target m' →
      Step P (.executive m g) (.returned target m' g)
  | trap {m : Executive} {g : Running} : Executive.step P.p P.image m = .fault →
      Step P (.executive m g) .fault
  /-- a word in restricted mode; a call through the gateway is one of them -/
  | native {e : Envelope} {m m' : Machine} {sp : BitVec 64} {mem mem' : BitVec 64 → Granule} :
      nativeStep P.env e m = .next m' → Platform.SameFrame sp mem mem' →
      Step P (.restricted e m sp mem) (.restricted e m' sp mem')
  /-- into the executive exit, with the spill slot at the stack pointer -/
  | leave {e : Envelope} {m m' : Machine} {sp : BitVec 64} {mem mem' : BitVec 64 → Granule} :
      nativeStep P.env e m = .executive m' → Platform.SameFrame sp mem mem' →
      Step P (.restricted e m sp mem)
        (.executive ⟨m'.pc, m'.c, sp, Function.update mem' sp (.cap m'.slot)⟩ m'.g)
  | nativeTrap {e : Envelope} {m : Machine} {sp : BitVec 64} {mem : BitVec 64 → Granule} :
      nativeStep P.env e m = .fault → Step P (.restricted e m sp mem) .fault

/-! ### Stretches -/

variable {P : Platform} {Q : Processor → Prop} {g : Running}

theorem indexOf_addressOf (p : Morello) {i : Nat} (h : i < 2 ^ 60) :
    indexOf p (addressOf p i).toNat = i := by
  unfold indexOf addressOf
  rw [BitVec.ofNat_toNat, BitVec.setWidth_eq, BitVec.add_comm, BitVec.add_sub_cancel,
    BitVec.toNat_ofNat]
  omega

/-- A word that goes on to the next has no other effect. -/
theorem Step.of_next {m m' : Executive} (h : Executive.step P.p P.image m = .next m') {σ : Processor}
    (hstep : Step P (.executive m g) σ) : σ = .executive m' g := by
  cases hstep with
  | word h' =>
    obtain rfl := Executive.Outcome.next.inj (h.symm.trans h')
    rfl
  | refuse h' => cases h.symm.trans h'
  | enter h' => cases h.symm.trans h'
  | call h' => cases h.symm.trans h'
  | retr h' => cases h.symm.trans h'
  | ret h' => cases h.symm.trans h'
  | trap h' => cases h.symm.trans h'

/-- Executive words up to the first that does not go on to another. -/
theorem inevitable_run {n : Nat} {m : Executive} {o : Executive.Outcome}
    (hrun : run P.p P.image n m = o) (hlast : ∀ m', o ≠ .next m')
    (h : ∀ m₁, Executive.step P.p P.image m₁ = o → Inevitable (Step P) Q (.executive m₁ g)) :
    Inevitable (Step P) Q (.executive m g) := by
  induction n generalizing m with
  | zero => exact absurd hrun.symm (hlast m)
  | succ n ih =>
    rw [run] at hrun
    cases hstep : Executive.step P.p P.image m with
    | next m' =>
      rw [hstep] at hrun
      exact .of_only (.word hstep) (fun _ => Step.of_next hstep) (ih hrun)
    | call target m' =>
      rw [hstep] at hrun
      exact h m (hstep.trans hrun)
    | retr target m' =>
      rw [hstep] at hrun
      exact h m (hstep.trans hrun)
    | ret target m' =>
      rw [hstep] at hrun
      exact h m (hstep.trans hrun)
    | fault =>
      rw [hstep] at hrun
      exact h m (hstep.trans hrun)

/-- Words up to a plain return. -/
theorem inevitable_ret {n : Nat} {m m' : Executive} {target : Nat}
    (hrun : run P.p P.image n m = .ret target m') (hQ : Q (.returned target m' g)) :
    Inevitable (Step P) Q (.executive m g) := by
  refine inevitable_run hrun (fun _ => nofun) fun m₁ hstep => ?_
  refine .of_only (.ret hstep) (fun σ h => ?_) (.here hQ)
  cases h with
  | ret h' =>
    obtain ⟨rfl, rfl⟩ := Executive.Outcome.ret.inj (hstep.symm.trans h')
    rfl
  | word h' => cases hstep.symm.trans h'
  | refuse h' => cases hstep.symm.trans h'
  | enter h' => cases hstep.symm.trans h'
  | call h' => cases hstep.symm.trans h'
  | retr h' => cases hstep.symm.trans h'
  | trap h' => cases hstep.symm.trans h'

/-- Words up to a return through a valid capability. -/
theorem inevitable_retr {n : Nat} {m m' : Executive} {target : Capability}
    (hrun : run P.p P.image n m = .retr target m') (htag : target.tag = true)
    (hQ : Q (.returned target.address m' g)) : Inevitable (Step P) Q (.executive m g) := by
  refine inevitable_run hrun (fun _ => nofun) fun m₁ hstep => ?_
  have hretr := Step.retr (g := g) hstep
  rw [if_pos htag] at hretr
  refine .of_only hretr (fun σ h => ?_) (.here hQ)
  cases h with
  | retr h' =>
    obtain ⟨rfl, rfl⟩ := Executive.Outcome.retr.inj (hstep.symm.trans h')
    exact if_pos htag
  | word h' => cases hstep.symm.trans h'
  | refuse h' => cases hstep.symm.trans h'
  | enter h' => cases hstep.symm.trans h'
  | call h' => cases hstep.symm.trans h'
  | ret h' => cases hstep.symm.trans h'
  | trap h' => cases hstep.symm.trans h'

/-- A function that writes registers only returns an error like this. -/
theorem exists_refuses (m : Executive) (err : EnterError) : ∃ m', P.Refuses m err m' := by
  refine ⟨{ m with
    pc := indexOf P.p (m.x a64Lr)
    c := Function.update m.c 0 (.ofInt (2 ^ 32 - errno err)) }, ⟨rfl, fun _ _ => rfl⟩, rfl, ?_⟩
  cases err <;> simp [x, a64Sp, errno]

theorem exists_admits (m : Executive) (g : Running) (entry : Entry) :
    ∃ u mem, P.Admits m g entry u mem := by
  let mem := Function.update m.mem (BitVec.ofNat 64 entry.callerSlotAddr) (.cap entry.callerSlot)
  let u : Machine := {
    pc := indexOf P.p entry.code.address
    c := fun r => if r = 15 then .ofInt entry.stack else if r = 17 then entry.gate
      else if r = a64Lr then entry.exit else .null
    slot := (mem (BitVec.ofNat 64 entry.rcsp.address)).load P.p
    g := g }
  refine ⟨u, mem, rfl, rfl, rfl, rfl, rfl, rfl, rfl, Function.update_self _ _ _, ?_⟩
  intro k _ hne
  exact Function.update_of_ne hne _ _

/-- Words up to the call of `cbpf_enter`, and either of its outcomes. -/
theorem inevitable_enter {n : Nat} {m m' : Executive}
    (hrun : run P.p P.image n m = .call P.t.cbpfEnter.toNat m')
    (hrefuse : ∀ err m'', cbpfEnter P.env (P.context m') (enterArgs m') g.s = .error err →
      P.Refuses m' err m'' → Inevitable (Step P) Q (.executive m'' g))
    (henter : ∀ s entry u mem,
      cbpfEnter P.env (P.context m') (enterArgs m') g.s = .ok (s, entry) →
      P.Admits m' { g with s := s } entry u mem → Inevitable (Step P) Q
        (.restricted (P.envelope entry) u (BitVec.ofNat 64 entry.stack) mem)) :
    Inevitable (Step P) Q (.executive m g) := by
  refine inevitable_run hrun (fun _ => nofun) fun m₁ hstep => .next ?_ fun σ h => ?_
  · cases hout : cbpfEnter P.env (P.context m') (enterArgs m') g.s with
    | error err =>
      obtain ⟨m'', hm''⟩ := exists_refuses (P := P) m' err
      exact ⟨_, .refuse hstep hout hm''⟩
    | ok out =>
      obtain ⟨u, mem, hu⟩ := exists_admits (P := P) m' { g with s := out.1 } out.2
      exact ⟨_, .enter hstep hout hu⟩
  · cases h with
    | refuse h' hout hm'' =>
      obtain ⟨_, rfl⟩ := Executive.Outcome.call.inj (hstep.symm.trans h')
      exact hrefuse _ _ hout hm''
    | enter h' hout hu =>
      obtain ⟨_, rfl⟩ := Executive.Outcome.call.inj (hstep.symm.trans h')
      exact henter _ _ _ _ hout hu
    | call h' hne =>
      obtain ⟨rfl, _⟩ := Executive.Outcome.call.inj (hstep.symm.trans h')
      exact absurd rfl hne
    | word h' => cases hstep.symm.trans h'
    | retr h' => cases hstep.symm.trans h'
    | ret h' => cases hstep.symm.trans h'
    | trap h' => cases hstep.symm.trans h'

/-! ### Restricted mode -/

variable {e : Envelope} {m m' : Machine} {sp : BitVec 64} {mem : BitVec 64 → Granule}

theorem sameFrame_trans {mem' mem'' : BitVec 64 → Granule} (h : Platform.SameFrame sp mem mem')
    (h' : Platform.SameFrame sp mem' mem'') : Platform.SameFrame sp mem mem'' :=
  fun k hk => (h' k hk).trans (h k hk)

/-- Words in restricted mode. -/
theorem inevitable_steps {n : Nat} (hsteps : Steps P.env e n m m')
    (h : ∀ mem', Platform.SameFrame sp mem mem' →
      Inevitable (Step P) Q (.restricted e m' sp mem')) :
    Inevitable (Step P) Q (.restricted e m sp mem) := by
  induction n generalizing m mem with
  | zero =>
    obtain rfl : m = m' := hsteps
    exact h mem fun _ _ => rfl
  | succ n ih =>
    obtain ⟨m₁, hstep, hrest⟩ := hsteps
    refine .next ⟨_, .native hstep fun _ _ => rfl⟩ fun σ hσ => ?_
    cases hσ with
    | native h' hsame =>
      obtain rfl := NativeOutcome.next.inj (hstep.symm.trans h')
      exact ih hrest fun mem' hmem' => h mem' (sameFrame_trans hsame hmem')
    | leave h' => cases hstep.symm.trans h'
    | nativeTrap h' => cases hstep.symm.trans h'

/-- The word that leaves restricted mode. -/
theorem inevitable_leave (hstep : nativeStep P.env e m = .executive m')
    (h : ∀ mem', Platform.SameFrame sp mem mem' → Inevitable (Step P) Q
      (.executive ⟨m'.pc, m'.c, sp, Function.update mem' sp (.cap m'.slot)⟩ m'.g)) :
    Inevitable (Step P) Q (.restricted e m sp mem) := by
  have hsame : Platform.SameFrame sp mem mem := fun _ _ => rfl
  refine .next ⟨_, .leave hstep hsame⟩ fun σ hσ => ?_
  cases hσ with
  | leave h' hsame =>
    obtain rfl := NativeOutcome.executive.inj (hstep.symm.trans h')
    exact h _ hsame
  | native h' => cases hstep.symm.trans h'
  | nativeTrap h' => cases hstep.symm.trans h'

end Processor

end Cbpf.Jit
