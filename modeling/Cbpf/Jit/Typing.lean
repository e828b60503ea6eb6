import Cbpf.Jit.Transfer

/-!
# Admission as a type system

The kinds of `src/linux/ownership/cbpf_jit.c` read as types: a typing gives every location of the
program a flow, closed under what the instructions do. `admit` (lines 104-192) makes one pass; it
accepts a program exactly when a typing exists that does not reach the end, every typing reaches
every instruction, and there are one or two acquire calls. What it computes is the least typing.
-/

namespace Cbpf.Jit

open Dataflow

variable {k : Kfuncs} {len pc : Nat} {i : BpfInsn} {f g : Flow} {es : List (Nat × Flow)}
  {prog : List BpfInsn} {c c' : Admission}

/-- The fields that an instruction does not use are zero. A call's are judged by
`call_operation`. -/
def BpfInsn.UnusedZero (i : BpfInsn) : Prop :=
  match i.code with
  | .alu64MovX => i.off = 0 ∧ i.imm = 0
  | .alu64MovK => i.srcReg = 0 ∧ i.off = 0
  | .stxMemDw => i.imm = 0
  | .ldxMemDw => i.imm = 0
  | .jmpJeqK => i.srcReg = 0
  | .jmpExit => i.dstReg = 0 ∧ i.srcReg = 0 ∧ i.off = 0 ∧ i.imm = 0
  | _ => True

/-- A typing of the program. Nothing is asked of a location that the typing does not reach. -/
structure Typing (k : Kfuncs) (prog : List BpfInsn) (facts : Nat → Flow) : Prop where
  entry : Flow.entry ≤ facts 0
  insn : ∀ pc i, prog[pc]? = some i → (facts pc).reached = true → i.UnusedZero ∧
    ∃ es, Transfer k prog.length pc i (facts pc) es ∧ ∀ e ∈ es, e.2 ≤ facts e.1

/-! ### What an instruction contributes -/

/-- The facts that an accepted instruction joins into later ones. -/
def contributes (k : Kfuncs) (pc : Nat) (i : BpfInsn) (f : Flow) : List (Nat × Flow) :=
  match i.code with
  | .alu64MovX => [(pc + 1, f.set i.dstReg (f.reg i.srcReg))]
  | .alu64MovK => [(pc + 1, f.set i.dstReg (if i.imm != 0 then .scalar else .zero))]
  | .stxMemDw => [(pc + 1, { f with spill := f.reg i.srcReg })]
  | .ldxMemDw => [(pc + 1, f.set i.dstReg f.spill)]
  | .jmpJeqK => jeqEdges f pc (pc + 1 + i.off.toNat) i.dstReg
  | .jmpCall =>
    if callOperation k i = opAcquire then [(pc + 1, f.call (.handle ||| .zero))]
    else if callOperation k i = opRead then [(pc + 1, f.call .scalar)]
    else [(pc + 1, f.call .zero)]
  | _ => []

theorem Transfer.eq_contributes (h : Transfer k len pc i f es) : es = contributes k pc i f := by
  cases h with
  | movX hcode => rw [contributes, hcode]
  | movK hcode => rw [contributes, hcode]
  | stx hcode => rw [contributes, hcode]
  | ldx hcode => rw [contributes, hcode]
  | jeq hcode => rw [contributes, hcode]
  | acquire hop => rw [contributes, code_of_callOperation hop (by decide)]; simp [hop]
  | read hop =>
    rw [contributes, code_of_callOperation hop (by decide)]
    simp [hop, opAcquire, opRead]
  | release hop =>
    rw [contributes, code_of_callOperation hop (by decide)]
    simp [hop, opAcquire, opRead, opRelease]
  | exit hcode => rw [contributes, hcode]

/-! ### Smaller facts -/

namespace Kind

/-- Every kind of `a` is one of `b`. -/
def Sub (a b : Kind) : Prop := ∀ m : Kind, a.has m = true → b.has m = true

theorem Sub.refl (a : Kind) : Sub a a := fun _ h => h

theorem Sub.has_false {a b m : Kind} (h : Sub a b) (hb : b.has m = false) : a.has m = false := by
  cases ha : a.has m with
  | false => rfl
  | true => rw [h m ha] at hb; exact hb

/-- Sets of kinds are determined by what they contain. -/
theorem Sub.and_eq {a b : Kind} (h : Sub a b) : a &&& b = a := by
  have hnone : b.has (~~~b) = false := has_eq_false_iff.mpr (BitVec.and_not_self b)
  have ha : a &&& ~~~b = 0#8 := has_eq_false_iff.mp (h.has_false hnone)
  calc a &&& b = (a &&& b) ||| (a &&& ~~~b) := by rw [ha, BitVec.or_zero]
    _ = a := by rw [← BitVec.and_or_distrib_left, BitVec.or_not_self, BitVec.and_allOnes]

theorem sub_iff {a b : Kind} : Sub a b ↔ a &&& b = a := by
  constructor
  · exact Sub.and_eq
  · intro h m hm
    rw [has_eq_true_iff] at hm ⊢
    intro hb
    apply hm
    rw [← h, BitVec.and_assoc, hb, BitVec.and_zero]

/-- Removing the same kinds on either side. -/
theorem Sub.and {a b : Kind} (h : Sub a b) (m : Kind) : Sub (a &&& m) (b &&& m) := by
  intro n hn
  rw [has, BitVec.and_assoc] at hn ⊢
  exact h _ hn

theorem Sub.or {a b d : Kind} (ha : Sub a d) (hb : Sub b d) : Sub (a ||| b) d := by
  intro m hm
  rw [has_or, Bool.or_eq_true] at hm
  rcases hm with hm | hm
  · exact ha m hm
  · exact hb m hm

theorem Sub.ne_zero {a b : Kind} (h : Sub a b) (ha : a ≠ 0#8) : b ≠ 0#8 := by
  intro hb
  have hnone : a &&& 0#8 = a := hb ▸ h.and_eq
  exact ha (hnone.symm.trans BitVec.and_zero)

/-- A handle has no smaller kind but none. -/
theorem Sub.eq_handle {a : Kind} (h : Sub a handle) (ha : a ≠ 0#8) : a = handle := by
  rw [sub_iff] at h
  revert h ha
  revert a
  decide

end Kind

theorem isScalar_sub {a b : Kind} (h : Kind.Sub a b) (ha : a ≠ 0#8) (hb : isScalar b = true) :
    isScalar a = true := by
  simp only [isScalar, Bool.and_eq_true, bne_iff_ne, ne_eq, Bool.not_eq_true'] at hb ⊢
  exact ⟨ha, h.has_false hb.2⟩

theorem isDefined_sub {a b : Kind} (h : Kind.Sub a b) (ha : a ≠ 0#8) (hb : isDefined b = true) :
    isDefined a = true := by
  simp only [isDefined, Bool.and_eq_true, bne_iff_ne, ne_eq, Bool.not_eq_true'] at hb ⊢
  exact ⟨ha, h.has_false hb.2⟩

/-- A flow that is reached and says something of every register and of the slot. -/
structure Flow.Live (f : Flow) : Prop where
  reached : f.reached = true
  reg : ∀ r, f.reg r ≠ 0#8
  spill : f.spill ≠ 0#8

/-- A collected fact is live once it is reached. -/
def Flow.Proper (f : Flow) : Prop := f.reached = true → f.Live

/-- `f ≤ g` for a flow that is reached. -/
structure Flow.Below (f g : Flow) : Prop where
  reached : g.reached = true
  reg : ∀ r, Kind.Sub (f.reg r) (g.reg r)
  spill : Kind.Sub f.spill g.spill

namespace Flow

theorem below_of_le (h : f ≤ g) (hf : f.reached = true) : f.Below g := by
  obtain ⟨hg, hreg, hspill⟩ := h hf
  exact ⟨hg, hreg, hspill⟩

theorem Below.le (h : f.Below g) : f ≤ g := fun _ => ⟨h.reached, h.reg, h.spill⟩

theorem Below.set {r : Nat} {a b : Kind} (h : f.Below g) (hab : Kind.Sub a b) :
    (f.set r a).Below (g.set r b) where
  reached := h.reached
  reg q := by
    unfold Flow.set
    by_cases hq : q = r
    · subst hq
      simpa using hab
    · simpa [Function.update_of_ne hq] using h.reg q
  spill := h.spill

theorem Below.call (h : f.Below g) (kind : Kind) : (f.call kind).Below (g.call kind) where
  reached := h.reached
  reg q := by
    unfold Flow.call
    dsimp only
    split
    · exact .refl _
    · split
      · exact .refl _
      · exact h.reg q
  spill := h.spill

theorem Live.set {r : Nat} {a : Kind} (h : f.Live) (ha : a ≠ 0#8) : (f.set r a).Live where
  reached := h.reached
  reg q := by
    unfold Flow.set
    by_cases hq : q = r
    · subst hq
      simpa using ha
    · simpa [Function.update_of_ne hq] using h.reg q
  spill := h.spill

theorem Live.call {kind : Kind} (h : f.Live) (hkind : kind ≠ 0#8) : (f.call kind).Live where
  reached := h.reached
  reg q := by
    unfold Flow.call
    dsimp only
    split
    · exact hkind
    · split
      · decide
      · exact h.reg q
  spill := h.spill

theorem proper_zeroed : zeroed.Proper := nofun

theorem live_entry : entry.Live where
  reached := rfl
  reg _ := (by decide : Kind.uninit ≠ 0#8)
  spill := (by decide : Kind.uninit ≠ 0#8)

theorem Proper.join (hf : f.Proper) (hg : g.Live) : (f.join g).Proper := by
  unfold Flow.join
  intro hjoin
  cases hreached : f.reached with
  | false => exact hg
  | true =>
    have hlive := hf hreached
    refine ⟨rfl, fun r h => hlive.reg r ?_, fun h => hlive.spill ?_⟩
    · exact (BitVec.or_eq_zero_iff.mp h).1
    · exact (BitVec.or_eq_zero_iff.mp h).1

theorem join_le {d : Flow} (hreached : g.reached = true) (hf : f ≤ d) (hg : g ≤ d) :
    f.join g ≤ d := by
  have hgd := below_of_le hg hreached
  unfold Flow.join
  cases hfr : f.reached with
  | false => exact hg
  | true =>
    have hfd := below_of_le hf hfr
    exact Below.le ⟨hgd.reached, fun r => (hfd.reg r).or (hgd.reg r), hfd.spill.or hgd.spill⟩

end Flow

theorem mem_jeqEdges {target dst : Nat} {e : Nat × Flow} : e ∈ jeqEdges f pc target dst ↔
    ((f.reg dst).has .zero = true ∧ e = (target, f.set dst .zero)) ∨
    (f.reg dst &&& ~~~Kind.zero ≠ 0#8 ∧ e = (pc + 1, f.set dst (f.reg dst &&& ~~~Kind.zero))) := by
  simp [jeqEdges]

/-- Only live facts are joined. -/
theorem Transfer.live (h : Transfer k len pc i f es) (hf : f.Live) : ∀ e ∈ es, e.2.Live := by
  have hone : ∀ (p : Nat) (d : Flow), d.Live → ∀ e ∈ [(p, d)], e.2.Live := by
    intro p d hd e he
    rw [List.mem_singleton.mp he]
    exact hd
  cases h with
  | movX => exact hone _ _ (hf.set (hf.reg _))
  | movK =>
    refine hone _ _ (hf.set ?_)
    split <;> decide
  | stx => exact hone _ _ ⟨hf.reached, hf.reg, hf.reg _⟩
  | ldx => exact hone _ _ (hf.set hf.spill)
  | jeq =>
    intro e he
    rcases mem_jeqEdges.mp he with ⟨_, rfl⟩ | ⟨hrest, rfl⟩
    · exact hf.set (by decide)
    · exact hf.set hrest
  | acquire => exact hone _ _ (hf.call (by decide))
  | read => exact hone _ _ (hf.call (by decide))
  | release => exact hone _ _ (hf.call (by decide))
  | exit => exact fun e he => absurd he List.not_mem_nil

/-- What is accepted with a fact is accepted with every smaller one, and contributes less. -/
theorem Transfer.below (h : Transfer k len pc i g es) (hf : f.Live) (hfg : f.Below g) :
    ∃ es', Transfer k len pc i f es' ∧ ∀ e' ∈ es', ∃ e ∈ es, e.1 = e'.1 ∧ e'.2 ≤ e.2 := by
  have hone : ∀ (p : Nat) (d d' : Flow), d.Below d' →
      ∀ e' ∈ [(p, d)], ∃ e ∈ [(p, d')], e.1 = e'.1 ∧ e'.2 ≤ e.2 := by
    intro p d d' hd e' he'
    rw [List.mem_singleton.mp he']
    exact ⟨_, List.mem_singleton_self _, rfl, hd.le⟩
  have hhandle : g.reg 1 = .handle → f.reg 1 = .handle := by
    intro heq
    have hsub := hfg.reg 1
    rw [heq] at hsub
    exact hsub.eq_handle (hf.reg 1)
  cases h with
  | movX hcode hdst hsrc hdefined =>
    exact ⟨_, .movX hcode hdst hsrc (isDefined_sub (hfg.reg _) (hf.reg _) hdefined),
      hone _ _ _ (hfg.set (hfg.reg _))⟩
  | movK hcode hdst => exact ⟨_, .movK hcode hdst, hone _ _ _ (hfg.set (.refl _))⟩
  | stx hcode hdst hsrc hoff hdefined =>
    exact ⟨_, .stx hcode hdst hsrc hoff (isDefined_sub (hfg.reg _) (hf.reg _) hdefined),
      hone _ _ _ ⟨hfg.reached, hfg.reg, hfg.reg _⟩⟩
  | ldx hcode hdst hsrc hoff hdefined =>
    exact ⟨_, .ldx hcode hdst hsrc hoff (isDefined_sub hfg.spill hf.spill hdefined),
      hone _ _ _ (hfg.set hfg.spill)⟩
  | jeq hcode hdst himm hoff htarget hdefined hkinds =>
    refine ⟨_, .jeq hcode hdst himm hoff htarget
      (isDefined_sub (hfg.reg _) (hf.reg _) hdefined) ((hfg.reg _).has_false hkinds), ?_⟩
    intro e' he'
    rcases mem_jeqEdges.mp he' with ⟨hzero, rfl⟩ | ⟨hrest, rfl⟩
    · exact ⟨_, mem_jeqEdges.mpr (.inl ⟨hfg.reg _ _ hzero, rfl⟩), rfl,
        (hfg.set (.refl _)).le⟩
    · have hsub := (hfg.reg i.dstReg).and (~~~Kind.zero)
      exact ⟨_, mem_jeqEdges.mpr (.inr ⟨hsub.ne_zero hrest, rfl⟩), rfl, (hfg.set hsub).le⟩
  | acquire hop hscalar =>
    exact ⟨_, .acquire hop (isScalar_sub (hfg.reg _) (hf.reg _) hscalar),
      hone _ _ _ (hfg.call _)⟩
  | read hop hreg => exact ⟨_, .read hop (hhandle hreg), hone _ _ _ (hfg.call _)⟩
  | release hop hreg => exact ⟨_, .release hop (hhandle hreg), hone _ _ _ (hfg.call _)⟩
  | exit hcode hscalar =>
    exact ⟨_, .exit hcode (isScalar_sub (hfg.reg _) (hf.reg _) hscalar),
      fun e' he' => absurd he' List.not_mem_nil⟩

/-! ### The flow problem -/

/-- What a location contributes: nothing unless it is reached. -/
inductive Contributes (k : Kfuncs) (prog : List BpfInsn) (pc : Nat) (f : Flow) :
    List (Nat × Flow) → Prop
  | unreached : f.reached = false → Contributes k prog pc f []
  | insn {i : BpfInsn} {es : List (Nat × Flow)} : f.reached = true → prog[pc]? = some i →
      i.UnusedZero → Transfer k prog.length pc i f es → Contributes k prog pc f es

theorem monotoneFlow (k : Kfuncs) (prog : List BpfInsn) :
    MonotoneFlow Flow.join (Contributes k prog) prog.length Flow.Proper Flow.Live where
  join_le _ _ _ hlive hf hg := Flow.join_le hlive.reached hf hg
  proper_join _ _ hf hg := hf.join hg
  live_edges p a es h ha := by
    cases h with
    | unreached => exact fun e he => absurd he List.not_mem_nil
    | insn hreached _ _ htransfer => exact htransfer.live (ha hreached)
  forward p hp a es h := by
    cases h with
    | unreached => exact fun e he => absurd he List.not_mem_nil
    | insn _ _ _ htransfer => exact fun e he => (htransfer.forward hp e he).1
  unique p a es es' h h' := by
    cases h with
    | unreached hnot =>
      cases h' with
      | unreached => rfl
      | insn hreached => exact absurd (hnot.symm.trans hreached) nofun
    | insn hreached hi _ htransfer =>
      cases h' with
      | unreached hnot => exact absurd (hnot.symm.trans hreached) nofun
      | insn _ hi' _ htransfer' =>
        obtain rfl := Option.some.inj (hi.symm.trans hi')
        rw [htransfer.eq_contributes, htransfer'.eq_contributes]
  below p a b es ha hab h := by
    cases hreached : a.reached with
    | false => exact ⟨[], .unreached hreached, fun e he => absurd he List.not_mem_nil⟩
    | true =>
      have hbelow := Flow.below_of_le hab hreached
      cases h with
      | unreached hnot => exact absurd (hnot.symm.trans hbelow.reached) nofun
      | insn _ hi hzero htransfer =>
        obtain ⟨es', htransfer', hes'⟩ := htransfer.below (ha hreached) hbelow
        exact ⟨es', .insn hreached hi hzero htransfer', hes'⟩

/-- The sweep of the loop visits reached locations only, so it is a sweep of the flow problem. -/
theorem pass_contributes {m m' : Nat → Flow} (hzero : ∀ i ∈ prog, i.UnusedZero)
    (h : Pass Flow.join (Edges k prog) prog.length pc m m') :
    Pass Flow.join (Contributes k prog) prog.length pc m m' := by
  induction h with
  | done => exact .done
  | step hlt hedges hlater _ ih =>
    obtain ⟨hreached, i, hi, htransfer⟩ := hedges
    exact .step hlt (.insn hreached hi (hzero i (List.mem_of_getElem? hi)) htransfer) hlater ih

/-- Typings are the solutions of the flow problem above the entry. -/
theorem typing_iff {facts : Nat → Flow} : Typing k prog facts ↔
    Flow.entry ≤ facts 0 ∧ Solution (Contributes k prog) prog.length facts := by
  constructor
  · intro h
    refine ⟨h.entry, fun p hp => ?_⟩
    cases hreached : (facts p).reached with
    | false => exact ⟨[], .unreached hreached, fun e he => absurd he List.not_mem_nil⟩
    | true =>
      have hi := List.getElem?_eq_getElem hp
      obtain ⟨hzero, es, htransfer, hes⟩ := h.insn p _ hi hreached
      exact ⟨es, .insn hreached hi hzero htransfer, hes⟩
  · rintro ⟨hentry, hsolution⟩
    refine ⟨hentry, fun p i hi hreached => ?_⟩
    obtain ⟨es, hcontributes, hes⟩ := hsolution p (List.getElem?_eq_some_iff.mp hi).1
    cases hcontributes with
    | unreached hnot => exact absurd (hnot.symm.trans hreached) nofun
    | insn _ hi' hzero htransfer =>
      obtain rfl := Option.some.inj (hi.symm.trans hi')
      exact ⟨hzero, es, htransfer, hes⟩

theorem proper_initial (p : Nat) : (Admission.initial.flow p).Proper := by
  unfold Admission.initial
  by_cases hp : p = 0
  · subst hp
    exact fun _ => Flow.live_entry
  · dsimp only
    rw [Function.update_of_ne hp]
    exact Flow.proper_zeroed

/-- The flows before the first instruction are below every typing. -/
theorem initial_le {facts : Nat → Flow} (h : Flow.entry ≤ facts 0) (p : Nat) :
    Admission.initial.flow p ≤ facts p := by
  unfold Admission.initial
  by_cases hp : p = 0
  · subst hp
    exact h
  · dsimp only
    rw [Function.update_of_ne hp]
    exact fun hreached => absurd hreached nofun

/-! ### One instruction of `admit` -/

/-- Everything that `admit` asks of an instruction. -/
theorem admitInsn_ok (hreached : (c.flow pc).reached = true) (hzero : i.UnusedZero)
    (htransfer : Transfer k len pc i (c.flow pc) es)
    (hsites : callOperation k i = opAcquire → c.acquisitions + 1 ≤ 2) :
    ∃ c', admitInsn k len pc i c = .ok c' := by
  unfold BpfInsn.UnusedZero at hzero
  cases htransfer with
  | movX hcode hdst hsrc hdefined =>
    simp only [hcode] at hzero
    simp [admitInsn, hreached, hcode, hzero, hdefined, Nat.not_lt.mpr hdst, Nat.not_lt.mpr hsrc]
  | movK hcode hdst =>
    simp only [hcode] at hzero
    simp [admitInsn, hreached, hcode, hzero, Nat.not_lt.mpr hdst]
  | stx hcode hdst hsrc hoff hdefined =>
    simp only [hcode] at hzero
    simp [admitInsn, hreached, hcode, hzero, hdefined, hdst, Nat.not_lt.mpr hsrc, hoff]
  | ldx hcode hdst hsrc hoff hdefined =>
    simp only [hcode] at hzero
    simp [admitInsn, hreached, hcode, hzero, hdefined, Nat.not_lt.mpr hdst, hsrc, hoff]
  | jeq hcode hdst himm hoff htarget hdefined hkinds =>
    simp only [hcode] at hzero
    simp [admitInsn, hreached, hcode, hzero, hdefined, himm, hkinds, Nat.not_lt.mpr hdst,
      Int.not_le.mpr hoff, Nat.not_le.mpr htarget]
  | acquire hop hscalar =>
    have hcode := code_of_callOperation hop (by decide)
    have hle := hsites hop
    simp [admitInsn, hreached, hcode, hop, hscalar, Admission.setOperation,
      Nat.not_le.mpr (Nat.lt_of_succ_le hle)]
  | read hop hhandle =>
    have hcode := code_of_callOperation hop (by decide)
    simp [admitInsn, hreached, hcode, hop, hhandle, opRead, opAcquire]
  | release hop hhandle =>
    have hcode := code_of_callOperation hop (by decide)
    simp [admitInsn, hreached, hcode, hop, hhandle, opRead, opAcquire, opRelease]
  | exit hcode hscalar =>
    simp only [hcode] at hzero
    simp [admitInsn, hreached, hcode, hzero, hscalar]

/-- A guard that did not fail. -/
theorem ok_of_guard {p : Prop} [Decidable p] {e : Errno} {x : Except Errno Admission}
    (h : (if p then .error e else x) = .ok c') : ¬p ∧ x = .ok c' := by
  by_cases hp : p
  · rw [if_pos hp] at h
    cases h
  · rw [if_neg hp] at h
    exact ⟨hp, h⟩

theorem unusedZero_of_admitInsn (h : admitInsn k len pc i c = .ok c') : i.UnusedZero := by
  unfold admitInsn at h
  dsimp only at h
  obtain ⟨_, h⟩ := ok_of_guard h
  unfold BpfInsn.UnusedZero
  cases hcode : i.code with
  | alu64MovX =>
    simp only [hcode] at h
    obtain ⟨hguard, _⟩ := ok_of_guard h
    simp_all
  | alu64MovK =>
    simp only [hcode] at h
    obtain ⟨hguard, _⟩ := ok_of_guard h
    simp_all
  | stxMemDw =>
    simp only [hcode] at h
    obtain ⟨hguard, _⟩ := ok_of_guard h
    simp_all
  | ldxMemDw =>
    simp only [hcode] at h
    obtain ⟨hguard, _⟩ := ok_of_guard h
    simp_all
  | jmpJeqK =>
    simp only [hcode] at h
    obtain ⟨hguard, _⟩ := ok_of_guard h
    simp_all
  | jmpCall => trivial
  | jmpExit =>
    simp only [hcode] at h
    obtain ⟨hguard, _⟩ := ok_of_guard h
    simp_all
  | other code => trivial

theorem Admission.joinFlow_hasExit (c : Admission) (target : Nat) (state : Flow) :
    (c.joinFlow target state).hasExit = c.hasExit := rfl

/-- An exit marks the program as having one, and no instruction takes the mark away. -/
theorem hasExit_of_admitInsn (h : admitInsn k len pc i c = .ok c')
    (hmark : i.code = .jmpExit ∨ c.hasExit = true) : c'.hasExit = true := by
  unfold admitInsn at h
  dsimp only at h
  obtain ⟨_, h⟩ := ok_of_guard h
  cases hcode : i.code with
  | alu64MovX =>
    simp only [hcode] at h
    obtain ⟨_, h⟩ := ok_of_guard h
    cases h
    simpa [hcode, Admission.joinFlow_hasExit] using hmark
  | alu64MovK =>
    simp only [hcode] at h
    obtain ⟨_, h⟩ := ok_of_guard h
    cases h
    simpa [hcode, Admission.joinFlow_hasExit] using hmark
  | stxMemDw =>
    simp only [hcode] at h
    obtain ⟨_, h⟩ := ok_of_guard h
    cases h
    simpa [hcode, Admission.joinFlow_hasExit] using hmark
  | ldxMemDw =>
    simp only [hcode] at h
    obtain ⟨_, h⟩ := ok_of_guard h
    cases h
    simpa [hcode, Admission.joinFlow_hasExit] using hmark
  | jmpJeqK =>
    simp only [hcode] at h
    obtain ⟨_, h⟩ := ok_of_guard h
    cases h
    have hold : c.hasExit = true := by simpa [hcode] using hmark
    split <;> split <;> exact hold
  | jmpCall =>
    simp only [hcode] at h
    have hold : c.hasExit = true := by simpa [hcode] using hmark
    split at h
    · obtain ⟨_, h⟩ := ok_of_guard h
      cases h
      exact hold
    · split at h
      · obtain ⟨_, h⟩ := ok_of_guard h
        cases h
        exact hold
      · cases h
  | jmpExit =>
    simp only [hcode] at h
    obtain ⟨_, h⟩ := ok_of_guard h
    cases h
    rfl
  | other code =>
    simp only [hcode] at h
    cases h

/-! ### The loop of `admit` -/

theorem unusedZero_of_admitLoop {rest : List BpfInsn}
    (h : admitLoop k len pc rest c = .ok c') : ∀ i ∈ rest, i.UnusedZero := by
  induction rest generalizing pc c with
  | nil => exact fun i hi => absurd hi List.not_mem_nil
  | cons j rest ih =>
    rw [admitLoop] at h
    split at h
    · cases h
    · next c₁ hinsn =>
      intro i hi
      rcases List.mem_cons.mp hi with rfl | hi
      · exact unusedZero_of_admitInsn hinsn
      · exact ih h i hi

theorem hasExit_of_admitLoop {rest : List BpfInsn} (h : admitLoop k len pc rest c = .ok c')
    (hmark : (∃ i ∈ rest, i.code = .jmpExit) ∨ c.hasExit = true) : c'.hasExit = true := by
  induction rest generalizing pc c with
  | nil =>
    cases h
    rcases hmark with ⟨i, hi, _⟩ | hmark
    · cases hi
    · exact hmark
  | cons j rest ih =>
    rw [admitLoop] at h
    split at h
    · cases h
    · next c₁ hinsn =>
      apply ih h
      rcases hmark with ⟨i, hi, hcode⟩ | hmark
      · rcases List.mem_cons.mp hi with rfl | hi
        · exact .inr (hasExit_of_admitInsn hinsn (.inl hcode))
        · exact .inl ⟨i, hi, hcode⟩
      · exact .inr (hasExit_of_admitInsn hinsn (.inr hmark))

/-- The loop counts the acquire calls. -/
theorem acquisitions_of_admitLoop (h : admitLoop k prog.length 0 prog .initial = .ok c) :
    c.acquisitions = acquireSites k prog prog.length := by
  have hdone : LoopDone k prog 0 .initial c := admitLoop_done rfl (Nat.zero_le _) h
  have hacq := hdone.acquisitions
  have hnone : acquireSites k prog 0 = 0 := rfl
  have hzero : Admission.initial.acquisitions = 0 := rfl
  omega

theorem acquireSites_pos (h : admitProgram k prog = .ok c) :
    1 ≤ acquireSites k prog prog.length := by
  unfold admitProgram at h
  split at h
  · cases h
  · next c' hloop =>
    split at h
    · next hexit =>
      cases h
      simp only [Bool.and_eq_true, bne_iff_ne, ne_eq] at hexit
      rw [← acquisitions_of_admitLoop hloop]
      exact Nat.pos_of_ne_zero hexit.1.2
    · cases h

/-- A sweep that visits reached locations only is followed by the loop. -/
theorem admitLoop_ok {rest : List BpfInsn} {m' : Nat → Flow} (hrest : prog.drop pc = rest)
    (hpc : pc ≤ prog.length) (hzero : ∀ i ∈ prog, i.UnusedZero)
    (hpass : Pass Flow.join (Edges k prog) prog.length pc c.flow m')
    (hcount : c.acquisitions = acquireSites k prog pc)
    (hsites : acquireSites k prog prog.length ≤ 2) :
    ∃ c', admitLoop k prog.length pc rest c = .ok c' ∧ c'.flow = m' := by
  induction rest generalizing pc c with
  | nil =>
    obtain rfl := rest_nil hrest hpc
    refine ⟨c, rfl, ?_⟩
    cases hpass with
    | done => rfl
    | step hlt => exact absurd hlt (Nat.lt_irrefl _)
  | cons i rest ih =>
    obtain ⟨hi, hlt, hdrop⟩ := rest_cons hrest
    cases hpass with
    | done => exact absurd hlt (Nat.lt_irrefl _)
    | @step _ _ _ es _ hedges _ hnext =>
      obtain ⟨hreached, j, hj, htransfer⟩ := hedges
      obtain rfl := Option.some.inj (hi.symm.trans hj)
      have hsucc := acquireSites_succ (k := k) hi
      have hle : acquireSites k prog (pc + 1) ≤ 2 := le_trans (acquireSites_mono k prog hlt) hsites
      obtain ⟨c₁, hinsn⟩ := admitInsn_ok hreached (hzero i (List.mem_of_getElem? hi)) htransfer
        (by intro hop; rw [if_pos hop] at hsucc; omega)
      have hadmitted := admitInsn_admitted hinsn
      obtain ⟨es', htransfer', hflow⟩ := hadmitted.transfer
      rw [htransfer'.eq_contributes, ← htransfer.eq_contributes] at hflow
      obtain ⟨c', hloop, hc'⟩ := ih (c := c₁) hdrop hlt (hflow ▸ hnext)
        (by rw [hadmitted.acquisitions, hcount, hsucc])
      refine ⟨c', ?_, hc'⟩
      rw [admitLoop, hinsn]
      exact hloop

/-! ### Typable programs -/

/-- A sweep of the flow problem that reaches every location visits what the loop visits. -/
theorem edges_of_pass {m m' : Nat → Flow}
    (h : Pass Flow.join (Contributes k prog) prog.length pc m m')
    (hreached : ∀ p, pc ≤ p → p < prog.length → (m' p).reached = true) :
    Pass Flow.join (Edges k prog) prog.length pc m m' := by
  induction h with
  | done => exact .done
  | @step pc m m' es hlt hedges hlater hrest ih =>
    have hpc := hreached pc (Nat.le_refl pc) hlt
    rw [hrest.frame (Nat.le_succ pc), foldl_joinAt_of_ne m es fun e he => by
      have := hlater e he
      omega] at hpc
    cases hedges with
    | unreached hnot => exact absurd (hnot.symm.trans hpc) nofun
    | insn _ hi _ htransfer =>
      exact .step hlt ⟨hpc, _, hi, htransfer⟩ hlater
        (ih fun p hp => hreached p (Nat.le_of_succ_le hp))

/-- A sweep of the flow problem from the initial flows ends in a typing. -/
theorem typing_of_pass {m' : Nat → Flow}
    (h : Pass Flow.join (Contributes k prog) prog.length 0 Admission.initial.flow m') :
    Typing k prog m' := by
  rw [typing_iff]
  refine ⟨?_, fun p hp => h.solution Flow.le_join_left Flow.le_join_right (Nat.zero_le p) hp⟩
  rw [h.frame (Nat.le_refl 0)]
  exact le_refl _

/-- A typing that reaches the last location but not the end has an exit there. -/
theorem Typing.exit {facts : Nat → Flow} (h : Typing k prog facts)
    (hend : (facts prog.length).reached = false)
    (hreached : ∀ p < prog.length, (facts p).reached = true) :
    ∃ i ∈ prog, i.code = .jmpExit := by
  cases hlen : prog.length with
  | zero =>
    have hentry := (h.entry rfl).1
    rw [hlen] at hend
    exact absurd (hend.symm.trans hentry) nofun
  | succ n =>
    have hlt : n < prog.length := by omega
    have hi := List.getElem?_eq_getElem hlt
    obtain ⟨_, es, htransfer, hes⟩ := h.insn n _ hi (hreached n hlt)
    -- Whatever is contributed to the end would reach it.
    have hnone : ∀ d : Flow, d.reached = true → (n + 1, d) ∉ es := by
      intro d hd he
      have hle := hes _ he hd
      rw [hlen] at hend
      exact absurd (hend.symm.trans hle.1) nofun
    have hn := hreached n hlt
    refine ⟨_, List.mem_of_getElem? hi, ?_⟩
    cases htransfer with
    | exit hcode => exact hcode
    | jeq _ _ _ _ htarget => omega
    | movX => exact absurd (List.mem_singleton_self _) (hnone _ hn)
    | movK => exact absurd (List.mem_singleton_self _) (hnone _ hn)
    | stx => exact absurd (List.mem_singleton_self _) (hnone _ hn)
    | ldx => exact absurd (List.mem_singleton_self _) (hnone _ hn)
    | acquire => exact absurd (List.mem_singleton_self _) (hnone _ hn)
    | read => exact absurd (List.mem_singleton_self _) (hnone _ hn)
    | release => exact absurd (List.mem_singleton_self _) (hnone _ hn)

/-- Admission computes the least typing. -/
theorem admitProgram_least (h : admitProgram k prog = .ok c) :
    Typing k prog c.flow ∧ ∀ facts, Typing k prog facts → ∀ p, c.flow p ≤ facts p := by
  have hdone := admit_done h
  have hzero : ∀ i ∈ prog, i.UnusedZero := by
    unfold admitProgram at h
    split at h
    · cases h
    · next hloop => exact unusedZero_of_admitLoop hloop
  have hpass := pass_contributes hzero hdone.pass
  refine ⟨typing_of_pass hpass, fun facts hfacts => ?_⟩
  obtain ⟨hentry, hsolution⟩ := typing_iff.mp hfacts
  exact (monotoneFlow k prog).pass_le hsolution hpass proper_initial (initial_le hentry)

/-- `admit` accepts a program exactly when it has a typing that does not reach the end, all its typings
reach every instruction, and it makes one or two acquire calls; the flows it computes are the
least typing. -/
theorem admits_iff_typable (k : Kfuncs) (prog : List BpfInsn) :
    ((∃ c, admitProgram k prog = .ok c) ↔
      (∃ facts, Typing k prog facts ∧ (facts prog.length).reached = false) ∧
      (∀ facts, Typing k prog facts → ∀ pc < prog.length, (facts pc).reached = true) ∧
      1 ≤ acquireSites k prog prog.length ∧ acquireSites k prog prog.length ≤ 2) ∧
    ∀ c, admitProgram k prog = .ok c →
      Typing k prog c.flow ∧ ∀ facts, Typing k prog facts → ∀ pc, c.flow pc ≤ facts pc := by
  refine ⟨⟨?_, ?_⟩, fun c hc => admitProgram_least hc⟩
  · rintro ⟨c, hc⟩
    have hdone := admit_done hc
    obtain ⟨htyping, hleast⟩ := admitProgram_least hc
    refine ⟨⟨c.flow, htyping, hdone.unreached⟩, ?_, ?_, hdone.sites_le⟩
    · intro facts hfacts p hp
      obtain ⟨es, hedges, _⟩ :=
        hdone.pass.solution Flow.le_join_left Flow.le_join_right (Nat.zero_le p) hp
      exact (hleast facts hfacts p hedges.1).1
    · exact acquireSites_pos hc
  · rintro ⟨⟨facts, hfacts, hend⟩, hall, hpos, hsites⟩
    obtain ⟨hentry, hsolution⟩ := typing_iff.mp hfacts
    have hflow := monotoneFlow k prog
    obtain ⟨m, hpass⟩ := hflow.exists_pass hsolution (Nat.zero_le _) proper_initial
      (initial_le hentry)
    have hle := hflow.pass_le hsolution hpass proper_initial (initial_le hentry)
    have hreached := hall m (typing_of_pass hpass)
    have hunreached : (m prog.length).reached = false := by
      by_contra hm
      have hend' := (hle prog.length (by simpa using hm)).1
      exact absurd (hend.symm.trans hend') nofun
    have hedges := edges_of_pass hpass fun p _ hp => hreached p hp
    have hzero : ∀ i ∈ prog, i.UnusedZero := by
      intro i hi
      obtain ⟨p, hp, hip⟩ := List.mem_iff_getElem.mp hi
      have hget : prog[p]? = some i := by rw [List.getElem?_eq_getElem hp, hip]
      exact ((typing_of_pass hpass).insn p i hget (hreached p hp)).1
    obtain ⟨c, hloop, hc⟩ := admitLoop_ok (c := .initial) (List.drop_zero (l := prog))
      (Nat.zero_le _) hzero hedges rfl hsites
    have hexit := hasExit_of_admitLoop hloop
      (.inl ((typing_of_pass hpass).exit hunreached hreached))
    have hacq := acquisitions_of_admitLoop hloop
    refine ⟨c, ?_⟩
    unfold admitProgram
    rw [hloop]
    have hunreached' : (c.flow prog.length).reached = false := hc ▸ hunreached
    have hne : c.acquisitions ≠ 0 := by omega
    simp [hexit, hunreached', hne]

end Cbpf.Jit
