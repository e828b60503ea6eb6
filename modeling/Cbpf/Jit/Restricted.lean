import Cbpf.Jit.Envelope
import Cbpf.Jit.Exit
import Cbpf.Kernel.EntryGeometry

/-!
# Restricted mode stays inside its envelope

A run in restricted mode, word by word. A call through the gateway is `cbpf_gateway` instruction by
instruction, with whatever `cbpf_gate_impl` does in between. `Inside` is the invariant of such runs:
control is at a word of the envelope, and the registers of the transition are as they were.
-/

namespace Cbpf.Jit

open Cheri Kernel Executive

section Steps

variable (p : Morello) (e : Envelope) (m : Machine)

/-- The gateway is entered with the registers of restricted mode, except for the return capability
that the branch has made. -/
def EntersGateway (v : Executive) : Prop :=
  ∀ r ≤ 30, v.c r = if r = a64Lr then e.link (m.pc + 1) else m.c r

/-- A call through the gateway that comes back in the state `w`. -/
def ThroughGateway (w : Executive) : Prop :=
  ∃ v u, EntersGateway e m v ∧ Preserves (gatewayCall p v) u ∧ w = gatewayExit p u

/-- One word in restricted mode, for any behaviour of the gate. -/
inductive RestrictedStep : NativeOutcome → Prop
  | word (env : Env) : (∀ r, e.image m.pc ≠ .capBlrs r) → RestrictedStep (nativeStep env e m)
  /-- a branch that does not go through the gateway faults -/
  | blocked (r : Nat) : e.image m.pc = .capBlrs r → m.c r ≠ e.gate → RestrictedStep .fault
  /-- the gateway has returned to the next word -/
  | returns (r : Nat) (w : Executive) (m' : Machine) : e.image m.pc = .capBlrs r →
      m.c r = e.gate → ThroughGateway p e m w → w.c 14 = e.link (m.pc + 1) →
      m'.pc = m.pc + 1 → (∀ r ≤ 30, m'.c r = w.c r) → RestrictedStep (.next m')
  /-- the gateway has returned to the executive exit -/
  | aborts (r : Nat) (w : Executive) (m' : Machine) : e.image m.pc = .capBlrs r →
      m.c r = e.gate → ThroughGateway p e m w → w.c 14 = e.exit →
      m'.pc = e.executiveExit → (∀ r ≤ 30, m'.c r = w.c r) → RestrictedStep (.executive m')
  | lost (r : Nat) (w : Executive) : e.image m.pc = .capBlrs r → m.c r = e.gate →
      ThroughGateway p e m w → w.c 14 ≠ e.link (m.pc + 1) → w.c 14 ≠ e.exit →
      RestrictedStep .fault

/-- Runs in restricted mode. -/
def RestrictedRun (m m' : Machine) : Prop :=
  Relation.ReflTransGen (fun m m' => RestrictedStep p e m (.next m')) m m'

end Steps

variable {p : Morello} {k : Kfuncs} {env : Env} {t : Target} {prog : List BpfInsn}
  {a : Admission} {c : Compiler} {e : Envelope} {stack : Nat} {m m' : Machine}

/-! ### Through the gateway -/

/-- What comes back from the gateway, when c13 holds the exit. -/
theorem throughGateway_regs {w : Executive} (h : ThroughGateway p e m w) (hc13 : m.c 13 = e.exit) :
    (w.c 14 = e.link (m.pc + 1) ∨ w.c 14 = e.exit) ∧ w.c 17 = m.c 17 ∧
      (w.c 15).address = m.x 15 ∧ w.c a64Lr = e.exit := by
  obtain ⟨v, u, henters, hpreserves, rfl⟩ := h
  have hreturned := gatewayReturned v hpreserves
  have hv : ∀ r ≤ 30, r ≠ a64Lr → v.c r = m.c r := by
    intro r hr hne
    rw [henters r hr, if_neg hne]
  have hlink : v.c a64Lr = e.link (m.pc + 1) := by
    rw [henters a64Lr (by decide), if_pos rfl]
  have h13 := hv 13 (by decide) (by decide)
  have h15 := hv 15 (by decide) (by decide)
  have h17 := hv 17 (by decide) (by decide)
  refine ⟨?_, ?_, ?_, ?_⟩
  · rw [hreturned.c 14 (by decide)]
    cases u.gateFailed with
    | true => exact .inr (h13.trans hc13)
    | false => exact .inl hlink
  · rw [hreturned.c 17 (by decide), ← h17]
    cases u.gateFailed <;> rfl
  · rw [hreturned.c 15 (by decide), Machine.x, ← h15]
    cases u.gateFailed <;> rfl
  · rw [hreturned.c a64Lr (by decide), ← hc13, ← h13]
    cases u.gateFailed <;> rfl

/-! ### The invariant -/

/-- The state that `cbpf_enter` branches to the program with. -/
structure EntersRestricted (t : Target) (e : Envelope) (stack : Nat) (m : Machine) : Prop where
  pc : m.pc = afterBlr t
  x0 : m.x 0 = 0
  x15 : m.x 15 = stack
  c17 : m.c 17 = e.gate
  c30 : m.c a64Lr = e.exit

/-- Where restricted control is. -/
inductive Place (t : Target) (prog : List BpfInsn) (c : Compiler) (e : Envelope) (m : Machine) :
    Prop
  | entry : m.pc = afterBlr t → m.x 0 = 0 → Place t prog c e m
  | clearing (j : Nat) : j < 28 → m.pc = afterBlr t + 3 + j → Place t prog c e m
  /-- at the word `j` of an instruction; the branch of a call finds the exit in c13 -/
  | body (pc : Nat) (i : BpfInsn) (j : Nat) : prog[pc]? = some i → j < width i →
      m.pc = c.offset pc + j → (i.code = .jmpCall → j = 3 → m.c 13 = e.exit) → Place t prog c e m
  | exit : m.pc = c.restrictedExit → Place t prog c e m

/-- The invariant of restricted mode. -/
structure Inside (t : Target) (prog : List BpfInsn) (c : Compiler) (e : Envelope) (stack : Nat)
    (m : Machine) : Prop where
  place : Place t prog c e m
  x15 : m.x 15 = stack
  c17 : m.c 17 = e.gate
  c30 : m.c a64Lr = e.exit

/-- What a word can lead to. -/
inductive Follows (t : Target) (prog : List BpfInsn) (c : Compiler) (e : Envelope) (stack : Nat)
    (m : Machine) : NativeOutcome → Prop
  | next (m' : Machine) : Inside t prog c e stack m' → Follows t prog c e stack m (.next m')
  | executive (m' : Machine) : m'.pc = e.executiveExit →
      e.image m.pc = .capBlrs 17 ∨ m.pc = c.restrictedExit →
      Follows t prog c e stack m (.executive m')

theorem EntersRestricted.inside (h : EntersRestricted t e stack m) : Inside t prog c e stack m :=
  ⟨.entry h.pc h.x0, h.x15, h.c17, h.c30⟩

/-- Registers that are kept keep the invariant. -/
theorem Inside.kept (h : Inside t prog c e stack m) (hplace : Place t prog c e m')
    (h15 : m'.c 15 = m.c 15) (h17 : m'.c 17 = m.c 17) (h30 : m'.c a64Lr = m.c a64Lr) :
    Inside t prog c e stack m' := by
  refine ⟨hplace, ?_, h17.trans h.c17, h30.trans h.c30⟩
  rw [Machine.x, h15]
  exact h.x15

/-- A plain word that spares the registers of the envelope. -/
theorem Inside.plain (h : Inside t prog c e stack m) (hplain : (e.image m.pc).plain = true)
    (h15 : 15 ∉ (e.image m.pc).writes) (h17 : 17 ∉ (e.image m.pc).writes)
    (h30 : a64Lr ∉ (e.image m.pc).writes)
    (hplace : ∀ m' : Machine, nativeStep env e m = .next m' → m'.pc = m.pc + 1 →
      Place t prog c e m') :
    Follows t prog c e stack m (nativeStep env e m) := by
  obtain ⟨m', hstep, hpc, hkept⟩ := nativeStep_plain env hplain
  have hplace' := hplace m' hstep hpc
  rw [hstep]
  exact .next m' (h.kept hplace' (hkept 15 h15) (hkept 17 h17) (hkept a64Lr h30))

namespace Loaded

variable (hl : Loaded t k prog a c e)
include hl

/-! ### Places -/

/-- At the start of an instruction, or behind the last one. -/
theorem place_start {pc : Nat} (hpc : pc ≤ prog.length) (hm : m.pc = c.offset pc) :
    Place t prog c e m := by
  rcases Nat.lt_or_eq_of_le hpc with hlt | rfl
  · have hi : prog[pc]? = some prog[pc] := List.getElem?_eq_getElem hlt
    obtain ⟨_, _, _, hwidth, _⟩ := hl.holds_word hi
    exact .body pc _ 0 hi hwidth hm (fun _ h => absurd h (by decide))
  · exact .exit (hm.trans hl.restrictedWords.finish)

/-- At a later word of an instruction, or at the next one. -/
theorem place_next {pc j : Nat} {i : BpfInsn} (hi : prog[pc]? = some i) (hj : j ≤ width i)
    (hm : m.pc = c.offset pc + j) (hc13 : i.code = .jmpCall → j = 3 → m.c 13 = e.exit) :
    Place t prog c e m := by
  rcases Nat.lt_or_eq_of_le hj with hlt | rfl
  · exact .body pc i j hi hlt hm hc13
  · have hpc : pc < prog.length := (List.getElem?_eq_some_iff.mp hi).1
    exact hl.place_start hpc (hm.trans (hl.offset_succ hi).symm)

/-- Every place is between the call of `cbpf_enter` and the executive exit, and not in the pair that
only a failed entry executes. -/
theorem place_range (h : Place t prog c e m) : afterBlr t ≤ m.pc ∧ m.pc < c.executiveExit ∧
    m.pc ≠ afterBlr t + 1 ∧ m.pc ≠ afterBlr t + 2 := by
  have hw := hl.restrictedWords
  have hstart := hw.start
  have hfinish := hw.finish
  have hexit := hw.executiveExit
  have hwhole := hl.offset_mono (Nat.zero_le prog.length) (Nat.le_refl _)
  cases h with
  | entry hpc => omega
  | clearing j hj hpc => omega
  | body pc i j hi hj hpc =>
    have hlt : pc < prog.length := (List.getElem?_eq_some_iff.mp hi).1
    have hsucc := hl.offset_succ hi
    have hbefore := hl.offset_mono (Nat.zero_le pc) (Nat.le_of_lt hlt)
    have hafter := hl.offset_mono (show pc + 1 ≤ prog.length from hlt) (Nat.le_refl _)
    omega
  | exit hpc => omega

/-! ### One word -/

/-- The words of an instruction other than the branch of a call. -/
theorem follows_body (h : Inside t prog c e stack m) {pc j : Nat} {i : BpfInsn}
    (hi : prog[pc]? = some i) (hj : j < width i) (hm : m.pc = c.offset pc + j)
    (hne : ∀ r, e.image m.pc ≠ .capBlrs r) :
    Follows t prog c e stack m (nativeStep env e m) := by
  have hnext : ∀ m' : Machine, m'.pc = m.pc + 1 →
      (i.code = .jmpCall → j + 1 = 3 → m'.c 13 = e.exit) → Place t prog c e m' := by
    intro m' hpc' hc13
    exact hl.place_next hi hj (by omega) hc13
  have hword := hl.bodyWord hi hj
  rw [← hm] at hword
  generalize hw : e.image m.pc = w at hword
  cases hword with
  | plain _ hplain hspare hmov =>
    rw [← hw] at hplain hspare
    refine h.plain hplain (hspare 15 (by decide)) (hspare 17 (by decide))
      (hspare a64Lr (by decide)) fun m' hstep hpc' => hnext m' hpc' fun hcode hj3 => ?_
    -- the exit is copied to c13 right before the branch
    rw [nativeStep, hw, hmov hcode (by omega)] at hstep
    obtain rfl := NativeOutcome.next.inj hstep
    exact h.c30
  | branch src offset target hcall hlt htarget =>
    rw [← hm] at htarget
    rw [nativeStep, hw]
    dsimp only
    split
    · rw [Machine.branch, htarget, if_neg (by omega), Int.toNat_natCast]
      exact .next _ (h.kept (hl.place_start (Nat.le_of_lt hlt) rfl) rfl rfl rfl)
    · exact .next _ (h.kept (hnext _ rfl fun hcode => absurd hcode hcall) rfl rfl rfl)
  | exit offset htarget =>
    rw [← hm] at htarget
    rw [nativeStep, hw]
    dsimp only
    rw [Machine.branch, htarget, if_neg (by omega), Int.toNat_natCast]
    exact .next _ (h.kept (.exit rfl) rfl rfl rfl)
  | call => exact absurd hw (hne 17)

/-- The words before the first instruction, and any other word that is no branch through the
gateway. -/
theorem follows_word (h : Inside t prog c e stack m) (hne : ∀ r, e.image m.pc ≠ .capBlrs r) :
    Follows t prog c e stack m (nativeStep env e m) := by
  have hw := hl.restrictedWords
  cases h.place with
  | entry hpc hx0 =>
    rw [nativeStep, hpc, hw.skip.2]
    dsimp only
    rw [if_pos hx0, Machine.branch, if_neg (by omega)]
    refine .next _ (h.kept (.clearing 0 (by decide) ?_) rfl rfl rfl)
    dsimp only
    omega
  | clearing j hj hpc =>
    obtain ⟨hplain, h15, h17, h30⟩ := hl.clearing_word hj
    rw [← hpc] at hplain h15 h17 h30
    refine h.plain hplain h15 h17 h30 fun m' _ hpc' => ?_
    rcases Nat.lt_or_eq_of_le (Nat.succ_le_of_lt hj) with hlt | hlast
    · exact .clearing (j + 1) hlt (by omega)
    · exact hl.place_start (Nat.zero_le _) (by rw [hw.start]; omega)
  | body pc i j hi hj hm => exact hl.follows_body h hi hj hm hne
  | exit hpc =>
    rw [nativeStep, hpc, hw.retClr]
    dsimp only
    rw [if_pos h.c30]
    exact .executive _ rfl (.inr hpc)

/-- A branch through the gateway is that of a call template. -/
theorem call_of_blrs (h : Place t prog c e m) {r : Nat} (hword : e.image m.pc = .capBlrs r) :
    r = 17 ∧ m.c 13 = e.exit ∧ ∀ m' : Machine, m'.pc = m.pc + 1 → Place t prog c e m' := by
  have hw := hl.restrictedWords
  cases h with
  | entry hpc _ =>
    rw [hpc, hw.skip.2] at hword
    cases hword
  | clearing j hj hpc =>
    have hplain := (hl.clearing_word hj).1
    rw [← hpc, hword] at hplain
    cases hplain
  | body pc i j hi hj hm hc13 =>
    have hbody := hl.bodyWord hi hj
    rw [← hm, hword] at hbody
    cases hbody with
    | plain _ hplain => cases hplain
    | call hcode hj3 =>
      refine ⟨rfl, hc13 hcode hj3, fun m' hpc' => ?_⟩
      exact hl.place_next hi hj (by omega) fun _ h => absurd h (by omega)
  | exit hpc =>
    rw [hpc, hw.retClr] at hword
    cases hword

/-- One word keeps the invariant, or leaves restricted mode by one of its two ways out. -/
theorem follows_step (h : Inside t prog c e stack m) {o : NativeOutcome}
    (hstep : RestrictedStep p e m o) : Follows t prog c e stack m o := by
  cases hstep with
  | word env hne => exact hl.follows_word h hne
  | blocked r hword hne =>
    obtain ⟨rfl, _⟩ := hl.call_of_blrs h.place hword
    exact absurd h.c17 hne
  | returns r w m' hword _ hthrough _ hpc hregs =>
    obtain ⟨_, hc13, hplace⟩ := hl.call_of_blrs h.place hword
    obtain ⟨_, h17, h15, h30⟩ := throughGateway_regs hthrough hc13
    refine .next m' ⟨hplace m' hpc, ?_, ?_, ?_⟩
    · rw [Machine.x, hregs 15 (by decide), h15]
      exact h.x15
    · rw [hregs 17 (by decide), h17]
      exact h.c17
    · rw [hregs a64Lr (by decide)]
      exact h30
  | aborts r w m' hword _ _ _ hpc _ =>
    obtain ⟨rfl, _⟩ := hl.call_of_blrs h.place hword
    exact .executive m' hpc (.inl hword)
  | lost r w hword _ hthrough hlink hexit =>
    obtain ⟨_, hc13, _⟩ := hl.call_of_blrs h.place hword
    rcases (throughGateway_regs hthrough hc13).1 with h14 | h14
    · exact absurd h14 hlink
    · exact absurd h14 hexit

/-- Whole runs keep it. -/
theorem inside_of_run (h : Inside t prog c e stack m) (hrun : RestrictedRun p e m m') :
    Inside t prog c e stack m' := by
  induction hrun with
  | refl => exact h
  | tail _ hstep ih =>
    cases hl.follows_step ih hstep with
    | next _ hinside => exact hinside

end Loaded

/-! ### The machine of the simulation -/

/-- The gateway reads c30 from c13. -/
theorem gatewayReturn_congr {f f' : Nat → Capability} (h : ∀ r ≤ 29, f r = f' r)
    (result c14 : Capability) : gatewayReturn f result c14 = gatewayReturn f' result c14 := by
  funext r
  have hsaved : r = 17 ∨ r = 19 ∨ r = 20 ∨ r = 21 ∨ r = 22 → f r = f' r := fun hr => h r (by omega)
  unfold gatewayReturn
  rw [h 15 (by decide), h 13 (by decide)]
  split
  · rfl
  · split
    · rfl
    · split
      · rfl
      · split
        · rename_i hr
          exact hsaved hr
        · rfl

/-- A gate that leaves `result` in c0 and keeps to the calling convention. -/
theorem throughGateway_of_result (p : Morello) (e : Envelope) (m : Machine) (result : Capability) :
    ∃ w, ThroughGateway p e m w ∧ ∀ r ≤ 30, w.c r =
      if isFailure result then gatewayReturn m.c (.ofInt 0) (m.c 13) r
      else gatewayReturn m.c result (e.link (m.pc + 1)) r := by
  let v : Executive := {
    pc := 0
    c := fun r => if r = a64Lr then e.link (m.pc + 1) else m.c r
    sp := 0
    mem := fun _ => .ints 0 0 }
  let u : Executive := { gatewayCall p v with c := fun _ => result }
  have hv : ∀ r ≤ 29, v.c r = m.c r := by
    intro r hr
    have hne : r ≠ a64Lr := by
      unfold a64Lr
      omega
    exact if_neg hne
  have hpreserves : Preserves (gatewayCall p v) u :=
    preserves_registers (gatewayCall p v) fun _ => result
  refine ⟨gatewayExit p u, ⟨v, u, fun r _ => rfl, hpreserves, rfl⟩, fun r hr => ?_⟩
  rw [(gatewayReturned v hpreserves).c r hr, gatewayReturn_congr hv, gatewayReturn_congr hv,
    hv 13 (by decide)]
  rfl

/-- Where the deterministic machine does not fault, it takes one of these steps. -/
theorem RestrictedStep.of_native (p : Morello) (h : nativeStep env e m ≠ .fault) :
    RestrictedStep p e m (nativeStep env e m) := by
  by_cases hne : ∀ r, e.image m.pc ≠ .capBlrs r
  · exact .word env hne
  · simp only [ne_eq, not_forall, not_not] at hne
    obtain ⟨r, hword⟩ := hne
    obtain ⟨w, hthrough, hregs⟩ :=
      throughGateway_of_result p e m (m.g.call env ⟨m.c 0, m.x 4, m.x 5⟩).2
    rw [nativeStep, hword] at h ⊢
    dsimp only at h ⊢
    split at h
    · rename_i hgate
      rw [if_pos hgate]
      unfold gateway at h ⊢
      dsimp only at h ⊢
      split at h
      · rename_i hfailure
        split at h
        · rename_i hexit
          rw [if_pos hfailure, if_pos hexit]
          simp only [if_pos hfailure] at hregs
          exact .aborts r w _ hword hgate hthrough ((hregs 14 (by decide)).trans hexit) rfl
            fun r hr => (hregs r hr).symm
        · exact absurd rfl h
      · rename_i hfailure
        rw [if_neg hfailure]
        simp only [if_neg hfailure] at hregs
        exact .returns r w _ hword hgate hthrough (hregs 14 (by decide)) rfl
          fun r hr => (hregs r hr).symm
    · exact absurd rfl h

/-- The runs of the simulation are runs in restricted mode. -/
theorem RestrictedRun.of_steps (p : Morello) {n : Nat} (h : Steps env e n m m') :
    RestrictedRun p e m m' := by
  induction n generalizing m with
  | zero =>
    obtain rfl : m = m' := h
    exact .refl
  | succ n ih =>
    obtain ⟨m₁, hstep, hrest⟩ := h
    have hne : nativeStep env e m ≠ .fault := by
      rw [hstep]
      exact nofun
    have hnative := RestrictedStep.of_native p hne
    rw [hstep] at hnative
    exact .head hnative (ih hrest)

/-! ### The two intervals -/

/-- The arguments that the prologue passes to `cbpf_enter`; two of them are 32 bits wide. -/
def enterArgs (m : Executive) : EnterArgs where
  stackBase := m.x 0
  stackSize := m.x 1 % 2 ^ 32
  retAddr := m.x 2
  executiveReturnSize := m.x 3 % 2 ^ 32
  outerReturnAddr := m.x 4
  progCookie := m.x 5

/-- The code of restricted mode starts after the call and ends where the executive exit starts. -/
structure EntryRanges (p : Morello) (t : Target) (c : Compiler) (entry : Entry) : Prop where
  code : entry.code.tag = true ∧ entry.code.address = (addressOf p (afterBlr t)).toNat ∧
    entry.code.base = (addressOf p (afterBlr t)).toNat ∧
    entry.code.length = 4 * (c.executiveExit - afterBlr t)
  exit : entry.exit.tag = true ∧ entry.exit.address = (addressOf p c.executiveExit).toNat ∧
    entry.exit.base = entry.code.base + entry.code.length ∧
    entry.exit.length = 4 * (c.words - c.executiveExit)

/-- The distance of two words of an image that does not wrap between them. -/
theorem addressOf_sub {i j : Nat} (hle : i ≤ j) (hj : j ≤ 1024)
    (hlt : (addressOf p i).toNat < (addressOf p j).toNat) :
    (addressOf p j).toNat = (addressOf p i).toNat + 4 * (j - i) := by
  unfold addressOf at hlt ⊢
  bv_omega

/-- The ranges of every entry that the prologue asks for and `cbpf_enter` grants. -/
theorem Loaded.entryRanges (hl : Loaded t k prog a c e) {caller : Nat} {m : Executive}
    (hargs : Arguments p t c caller m) (hlr : m.x a64Lr = (addressOf p (afterBlr t)).toNat)
    {env : Env} {ctx : EnterContext} (hctx : ctx.callerLr = m.x a64Lr) {s s' : Invocation}
    {entry : Entry} (henter : cbpfEnter env ctx (enterArgs m) s = .ok (s', entry)) :
    EntryRanges p t c entry := by
  obtain ⟨hvalid, hbuilt⟩ := cbpfEnter_built henter
  have hlt := callerLr_lt_of_valid hvalid
  have hwords := hl.restrictedWords.words
  have hbound := hl.laidOut.bounded
  have hsize : (enterArgs m).executiveReturnSize = 4 * c.executiveWords := by
    have hle := hbound.executiveWords
    change m.x 3 % 2 ^ 32 = _
    rw [hargs.executiveReturnSize]
    omega
  have hret : (enterArgs m).retAddr = (addressOf p c.executiveExit).toNat := hargs.retAddr
  rw [hret, hctx, hlr] at hlt
  have hwhole := hl.offset_mono (Nat.zero_le prog.length) (Nat.le_refl _)
  rw [hl.restrictedWords.start, hl.restrictedWords.finish] at hwhole
  have hexit := hl.restrictedWords.executiveExit
  have hdistance := addressOf_sub (p := p) (i := afterBlr t) (by omega) hbound.executiveExit hlt
  have hcode : entry.code = sentryCreate _ := hbuilt.codeSealed.2
  have hexecutive : entry.exit = sentryCreate _ := hbuilt.exitSealed.2
  rw [cbpfExact_of_tag hbuilt.code, hctx, hlr, hret, u64Sub_of_le (Nat.le_of_lt hlt) (BitVec.isLt _)]
    at hcode
  rw [cbpfExact_of_tag hbuilt.exit, hret, hsize] at hexecutive
  refine ⟨⟨hbuilt.codeSealed.1, ?_, ?_, ?_⟩, hbuilt.exitSealed.1, ?_, ?_, ?_⟩
  · rw [hcode]
    rfl
  · rw [hcode]
    rfl
  · rw [hcode]
    change (addressOf p c.executiveExit).toNat - (addressOf p (afterBlr t)).toNat = _
    omega
  · rw [hexecutive]
    rfl
  · rw [hexecutive, hcode]
    change (addressOf p c.executiveExit).toNat = (addressOf p (afterBlr t)).toNat + (_ - _)
    omega
  · rw [hexecutive]
    change 4 * c.executiveWords = _
    omega

/-! ### Admitted programs -/

/-- What holds whenever a word is executed in restricted mode. -/
structure Confined (p : Morello) (t : Target) (c : Compiler) (e : Envelope) (stack : Nat)
    (m : Machine) : Prop where
  range : afterBlr t ≤ m.pc ∧ m.pc < c.executiveExit
  errorPair : m.pc ≠ afterBlr t + 1 ∧ m.pc ≠ afterBlr t + 2
  x15 : m.x 15 = stack
  c17 : m.c 17 = e.gate
  c30 : m.c a64Lr = e.exit
  /-- restricted mode is left through the gateway, by `blrs c17`, or at the fixed `ret` -/
  calls : ∀ r, e.image m.pc = .capBlrs r → r = 17
  leaves : ∀ m', RestrictedStep p e m (.executive m') → m'.pc = e.executiveExit ∧
    (e.image m.pc = .capBlrs 17 ∨ m.pc = c.restrictedExit)
  noFault : ¬ RestrictedStep p e m .fault

theorem Loaded.confined (hl : Loaded t k prog a c e) (h : Inside t prog c e stack m) :
    Confined p t c e stack m := by
  obtain ⟨hlow, hhigh, hfirst, hsecond⟩ := hl.place_range h.place
  refine {
    range := ⟨hlow, hhigh⟩
    errorPair := ⟨hfirst, hsecond⟩
    x15 := h.x15
    c17 := h.c17
    c30 := h.c30
    calls := fun r hword => (hl.call_of_blrs h.place hword).1
    leaves := fun m' hstep => ?_
    noFault := fun hstep => ?_ }
  · cases hl.follows_step h hstep with
    | executive _ hpc hword => exact ⟨hpc, hword⟩
  · cases hl.follows_step h hstep

/-- What is said of the envelope of one image. -/
structure Enveloped (p : Morello) (t : Target) (prog : List BpfInsn) (c : Compiler)
    (image : Nat → Word) : Prop where
  words : RestrictedWords t prog c image
  runs : ∀ (gate exit : Capability) (link : Nat → Capability) (stack : Nat) (m₀ m : Machine),
    EntersRestricted t ⟨image, c.executiveExit, gate, exit, link⟩ stack m₀ →
    RestrictedRun p ⟨image, c.executiveExit, gate, exit, link⟩ m₀ m →
    Confined p t c ⟨image, c.executiveExit, gate, exit, link⟩ stack m
  /-- the runs of the deterministic machine are runs in restricted mode -/
  native : ∀ (gate exit : Capability) (link : Nat → Capability) (env : Env) (n : Nat)
    (m m' : Machine), Steps env ⟨image, c.executiveExit, gate, exit, link⟩ n m m' →
    RestrictedRun p ⟨image, c.executiveExit, gate, exit, link⟩ m m'
  /-- the ranges of an entry that is granted to the prologue -/
  ranges : ∀ m₀ : Executive, m₀.pc = 0 → ∃ m,
    run p image (afterBlr t) m₀ = .call t.cbpfEnter.toNat m ∧
      ∀ env ctx s s' entry, ctx.callerLr = m.x a64Lr →
        cbpfEnter env ctx (enterArgs m) s = .ok (s', entry) → EntryRanges p t c entry

/-- Restricted mode stays inside its envelope, for the image of every admitted program and every
behaviour of the gate, that of the simulation included. -/
theorem restricted_confined (k : Kfuncs) (t : Target) (prog : List BpfInsn) (a : Admission)
    (p : Morello) (henc : t.Encodes) (h : admitProgram k prog = .ok a)
    (hlen : prog.length ≤ cbpfMaxInsns) :
    ∃ c image, (Compiler.ofAdmission prog a).passes t = some c ∧ c.image = some image ∧
      Enveloped p t prog c image := by
  obtain ⟨c, image, hpasses, himage, hloaded⟩ := compile_written henc h hlen
  refine ⟨c, image, hpasses, himage, (hloaded .null .null .ofInt).restrictedWords, ?_,
    fun gate exit link env n m m' hsteps => .of_steps p hsteps, ?_⟩
  · intro gate exit link stack m₀ m henters hrun
    have hl := hloaded gate exit link
    exact hl.confined (hl.inside_of_run henters.inside hrun)
  · intro m₀ hpc
    have hl := hloaded .null .null .ofInt
    obtain ⟨m, hcall, _, _, hargs, hlr⟩ := run_entry (p := p) hl.written.prologue hpc
    exact ⟨m, hcall, fun env ctx s s' entry hctx henter =>
      hl.entryRanges hargs hlr hctx henter⟩

/-- The state in which the sample program is entered. -/
def restrictedStart (t : Target) (gate exit : Capability) (stack : Nat) : Machine where
  pc := afterBlr t
  c := fun r => if r = 15 then .ofInt stack else if r = 17 then gate
    else if r = a64Lr then exit else .null
  slot := .null
  g := .start 1 7 8192

/-- The state in which the program is called, with its stack at 0x8000. -/
def callerState : Executive where
  pc := 0
  c := fun _ => .ofInt 0x7000
  sp := 0x8000
  mem := fun _ => .ints 0 0

/-- The sample program: its prologue is granted an entry, and the first word after it skips the
entry-error pair. -/
theorem restricted_confined_skip : ∃ a c image m caller s entry,
    admitProgram immKfuncs acquireRelease = .ok a ∧
    (Compiler.ofAdmission acquireRelease a).passes plainTarget = some c ∧
    run plainMorello image (afterBlr plainTarget) callerState = .call 0x9000 caller ∧
    cbpfEnter flatEnv { flatContext with callerLr := caller.x a64Lr } (enterArgs caller)
      (.zeroed 0x8000 12288) = .ok (s, entry) ∧
    EntryRanges plainMorello plainTarget c entry ∧
    RestrictedRun plainMorello ⟨image, c.executiveExit, .ofInt 1, .ofInt 2, .ofInt⟩
      (restrictedStart plainTarget (.ofInt 1) (.ofInt 2) 0x7F80) m ∧
    m.pc = afterBlr plainTarget + 3 ∧
    Confined plainMorello plainTarget c
      ⟨image, c.executiveExit, .ofInt 1, .ofInt 2, .ofInt⟩ 0x7F80 m := by
  obtain ⟨a, haccepted⟩ := acquireRelease_admitted
  have henc : plainTarget.Encodes := fun _ h => h
  obtain ⟨c, image, hpasses, himage, henveloped⟩ := restricted_confined immKfuncs plainTarget
    acquireRelease a plainMorello henc haccepted (by decide)
  let e : Envelope := ⟨image, c.executiveExit, .ofInt 1, .ofInt 2, .ofInt⟩
  let m₀ := restrictedStart plainTarget (.ofInt 1) (.ofInt 2) 0x7F80
  have hskip : e.image m₀.pc = .cbz 0 3 := henveloped.words.skip.2
  have hstep : RestrictedStep plainMorello e m₀
      (.next { m₀ with pc := afterBlr plainTarget + 3 }) := by
    have hne : ∀ r, e.image m₀.pc ≠ .capBlrs r := by
      intro r hr
      rw [hskip] at hr
      cases hr
    have hword := RestrictedStep.word (p := plainMorello) flatEnv hne
    rw [nativeStep, hskip] at hword
    exact hword
  have hrun : RestrictedRun plainMorello e m₀ _ := .single hstep
  obtain ⟨caller, hcall, hranges⟩ := henveloped.ranges callerState rfl
  have hgranted : ∃ s entry, cbpfEnter flatEnv { flatContext with callerLr := caller.x a64Lr }
      (enterArgs caller) (.zeroed 0x8000 12288) = .ok (s, entry) := by
    obtain ⟨c', image', hpasses', himage', hloaded⟩ := compile_written henc haccepted (by decide)
    obtain rfl := Option.some.inj (hpasses.symm.trans hpasses')
    obtain rfl := Option.some.inj (himage.symm.trans himage')
    have hl := hloaded .null .null .ofInt
    obtain ⟨caller', hcall', hsaves, _, hargs, hlr⟩ :=
      run_entry (p := plainMorello) hl.written.prologue (rfl : callerState.pc = 0)
    obtain ⟨_, rfl⟩ := Outcome.call.inj (hcall.symm.trans hcall')
    have hexit : c.executiveExit = 80 := by
      rw [hl.laidOut.executiveExit, hl.prog]
      decide
    have hwords : c.executiveWords = 46 := hl.laidOut.executiveWords
    have hsp : caller.sp = 0x7F80 := hsaves.sp
    have henter : enterArgs caller = ⟨0x7F80, 16, 0x10140, 184, 0x7000, 0x8000⟩ := by
      unfold enterArgs
      rw [hargs.stackBase, hargs.stackSize, hargs.retAddr, hargs.executiveReturnSize,
        hargs.outerReturnAddr, hargs.progCookie, hsp, hexit, hwords]
      rfl
    rw [henter, hlr]
    exact ⟨_, _, rfl⟩
  obtain ⟨s, entry, hgranted⟩ := hgranted
  exact ⟨a, c, image, _, caller, s, entry, haccepted, hpasses, hcall, hgranted,
    hranges _ _ _ _ _ rfl hgranted, hrun, rfl,
    henveloped.runs _ _ _ _ _ _ ⟨rfl, rfl, rfl, rfl, rfl⟩ hrun⟩

end Cbpf.Jit
