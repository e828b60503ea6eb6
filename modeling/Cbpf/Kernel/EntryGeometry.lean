import Cbpf.Kernel.System

/-!
# An entry happens once, all or nothing, and its ranges never wrap

`cbpfEnterOn` is `cbpf_enter` with everything it writes. The unsigned comparisons of its first `if`
guard every addition and subtraction that follows (`EnterChecks`), and the capabilities it builds
then have exactly the intervals of `EntryGeometry`.
-/

namespace Cbpf.Kernel

open Cheri

/-- What `cbpf_enter` can write: the invocation, capabilities in memory and the two restricted
banked registers. -/
structure EnterMachine where
  active : Option Invocation
  slots : Nat → Capability
  rcsp : Capability
  rddc : Capability

/-- How `cbpf_enter` is left: by a `return`, or by the branch into the program. -/
inductive EnterResult where
  | error (e : EnterError)
  | entered (e : Entry)
  deriving DecidableEq, Repr

/-- The stores and register writes of a successful entry. -/
def EnterMachine.write (m : EnterMachine) (s : Invocation) (e : Entry) : EnterMachine where
  active := some s
  slots := Function.update m.slots e.callerSlotAddr e.callerSlot
  rcsp := e.rcsp
  rddc := e.rddc

/-- `cbpf_enter`. -/
def cbpfEnterOn (env : Env) (ctx : EnterContext) (a : EnterArgs) (m : EnterMachine) :
    EnterMachine × EnterResult :=
  match m.active with
  | none => (m, .error .einval)
  | some s =>
    match cbpfEnter env ctx a s with
    | .error e => (m, .error e)
    | .ok (s', e) => (m.write s' e, .entered e)

/-- The values the types of the arguments can hold. -/
structure EnterArgs.Typed (a : EnterArgs) (ctx : EnterContext) : Prop where
  stackBase : a.stackBase < 2 ^ 64
  stackSize : a.stackSize < 2 ^ 32
  retAddr : a.retAddr < 2 ^ 64
  executiveReturnSize : a.executiveReturnSize < 2 ^ 32
  outerReturnAddr : a.outerReturnAddr < 2 ^ 64
  progCookie : a.progCookie < 2 ^ 64
  callerLr : ctx.callerLr < 2 ^ 64
  pccBase : ctx.pcc.base < 2 ^ 64

/-- What the first `if` of `cbpf_enter` lets through, over the integers. -/
structure EnterChecks (s : Invocation) (ctx : EnterContext) (a : EnterArgs) : Prop where
  entered : s.entered = false
  failed : s.failed = false
  cookie : s.prog = a.progCookie
  stackSize : a.stackSize = 16
  aligned : a.stackBase % 16 = 0
  stackTop : a.stackBase + 32 ≤ 2 ^ 64
  outerAligned : a.outerReturnAddr % 4 = 0
  outerBase : ctx.pcc.base ≤ a.outerReturnAddr
  outerTop : a.outerReturnAddr + 4 ≤ ctx.pcc.base + ctx.pcc.lengthGet
  code : ctx.callerLr < a.retAddr
  executive : 0 < a.executiveReturnSize

/-- The unsigned comparisons mean what they would mean over the integers. -/
theorem enterChecks_of_valid {s : Invocation} {ctx : EnterContext} {a : EnterArgs}
    (ht : a.Typed ctx) (h : enterInvalid s ctx a = false) : EnterChecks s ctx a := by
  simp only [enterInvalid, Bool.or_eq_false_iff, bne_eq_false_iff_eq, decide_eq_false_iff_not,
    beq_eq_false_iff_ne, Nat.not_lt, Nat.not_le, gt_iff_lt] at h
  obtain ⟨⟨⟨⟨⟨⟨⟨⟨⟨⟨⟨hentered, hfailed⟩, hcookie⟩, hsize⟩, haligned⟩, htop⟩, houter⟩, hbase⟩, hlength⟩,
    hroom⟩, hcode⟩, hexec⟩ := h
  have hstack := ht.stackBase
  have hget : ctx.pcc.lengthGet < 2 ^ 64 := by
    rw [Capability.lengthGet]
    omega
  rw [hsize, u64Sub_of_le (by decide) (by decide), u64Max] at htop
  rw [u64Sub_of_le hbase ht.outerReturnAddr] at hlength hroom
  rw [u64Sub_of_le hlength hget] at hroom
  exact {
    entered := hentered
    failed := hfailed
    cookie := hcookie
    stackSize := hsize
    aligned := haligned
    stackTop := by omega
    outerAligned := houter
    outerBase := hbase
    outerTop := by omega
    code := hcode
    executive := by omega }

/-- The last check but one needs nothing about the other arguments. -/
theorem callerLr_lt_of_valid {s : Invocation} {ctx : EnterContext} {a : EnterArgs}
    (h : enterInvalid s ctx a = false) : ctx.callerLr < a.retAddr := by
  simp only [enterInvalid, Bool.or_eq_false_iff, decide_eq_false_iff_not, Nat.not_le] at h
  exact h.1.2

/-- The intervals of a successful entry. -/
structure EntryGeometry (env : Env) (ctx : EnterContext) (a : EnterArgs) (e : Entry) : Prop where
  /-- the word at `outer_return_addr` lies in the bounds of the program counter -/
  outer : Set.Ico a.outerReturnAddr (a.outerReturnAddr + 4) ⊆ ctx.pcc.bytes
  /-- the restricted code is what lies between the two return addresses -/
  code : e.code.tag = true ∧ e.code.bytes = Set.Ico ctx.callerLr a.retAddr
  /-- the executive code starts where it ends -/
  exit : e.exit.tag = true ∧ e.exit.base = a.retAddr ∧
    e.exit.bytes = Set.Ico a.retAddr (a.retAddr + a.executiveReturnSize)
  nonempty : e.exit.bytes.Nonempty
  disjoint : Disjoint e.code.bytes e.exit.bytes
  /-- the restricted stack is 16 aligned bytes -/
  stack : e.rcsp.tag = true ∧ a.stackBase % 16 = 0 ∧
    e.rcsp.bytes = Set.Ico a.stackBase (a.stackBase + 16)
  /-- and the slot for the sealed caller is next to it -/
  slot : e.callerSlotAddr = a.stackBase + 16 ∧
    Disjoint (Set.Ico e.callerSlotAddr (e.callerSlotAddr + 16)) e.rcsp.bytes
  caller : e.callerSlot.tag = true ∧ e.callerSlot.isSealed = true ∧
    e.callerSlot.address = a.outerReturnAddr

/-- No addition or subtraction of `cbpf_enter` wraps. -/
structure NoWrap (env : Env) (ctx : EnterContext) (a : EnterArgs) : Prop where
  stackLimit : u64Sub u64Max a.stackSize + a.stackSize = u64Max
  outerOffset : u64Sub a.outerReturnAddr ctx.pcc.base + ctx.pcc.base = a.outerReturnAddr
  outerRoom : u64Sub ctx.pcc.lengthGet (u64Sub a.outerReturnAddr ctx.pcc.base) +
    u64Sub a.outerReturnAddr ctx.pcc.base = ctx.pcc.lengthGet
  outerEnd : a.outerReturnAddr + 4 ≤ 2 ^ 64
  slot : u64Add a.stackBase a.stackSize = a.stackBase + a.stackSize
  slotEnd : a.stackBase + a.stackSize + 16 ≤ 2 ^ 64
  codeSize : u64Sub a.retAddr ctx.callerLr + ctx.callerLr = a.retAddr
  /-- the executive interval lies in the executive's own data capability -/
  executiveEnd : a.retAddr + a.executiveReturnSize ≤ env.ddc.base + env.ddc.length

/-! ### What an entry has checked -/

def codePerms : Nat := permExecute ||| permLoad ||| permGlobal
def exitPerms : Nat := permExecute ||| permLoad ||| permGlobal ||| permExecutive
def stackPerms : Nat := permLoad ||| permStore ||| permLoadCap ||| permStoreCap ||| permGlobal

/-- What is known of the capabilities of a successful entry. -/
structure EnterBuilt (env : Env) (ctx : EnterContext) (a : EnterArgs) (e : Entry) : Prop where
  code : (cbpfExact env ctx.callerLr (u64Sub a.retAddr ctx.callerLr) codePerms).tag = true
  codeSealed : e.code.tag = true ∧
    e.code = sentryCreate (cbpfExact env ctx.callerLr (u64Sub a.retAddr ctx.callerLr) codePerms)
  exit : (cbpfExact env a.retAddr a.executiveReturnSize exitPerms).tag = true
  exitSealed : e.exit.tag = true ∧
    e.exit = sentryCreate (cbpfExact env a.retAddr a.executiveReturnSize exitPerms)
  rcsp : e.rcsp.tag = true ∧ e.rcsp = cbpfExact env a.stackBase a.stackSize stackPerms
  caller : e.callerSlot.tag = true ∧ e.callerSlot.isSealed = true ∧
    e.callerSlot.address = a.outerReturnAddr
  slot : e.callerSlotAddr = u64Add a.stackBase a.stackSize
  rddc : e.rddc = .null

theorem cbpfEnter_built {env : Env} {ctx : EnterContext} {a : EnterArgs} {s s' : Invocation}
    {e : Entry} (h : cbpfEnter env ctx a s = .ok (s', e)) :
    enterInvalid s ctx a = false ∧ EnterBuilt env ctx a e := by
  unfold cbpfEnter at h
  split at h
  · cases h
  · rename_i hvalid
    dsimp only at h
    split at h
    · cases h
    · split at h
      · cases h
      · rename_i hexact
        split at h
        · cases h
        · rename_i hsealed
          obtain ⟨_, rfl⟩ := Prod.mk.inj (Except.ok.inj h)
          simp only [Bool.or_eq_true, Bool.not_eq_true', not_or, Bool.not_eq_false] at hexact hsealed
          obtain ⟨⟨hcode, hexit⟩, hrcsp⟩ := hexact
          obtain ⟨⟨⟨⟨⟨⟨⟨⟨hcaller, _⟩, hcodeTag⟩, _⟩, hexitTag⟩, _⟩, _⟩, _⟩, _⟩ := hsealed
          exact ⟨Bool.eq_false_iff.mpr hvalid, {
            code := hcode
            codeSealed := ⟨hcodeTag, rfl⟩
            exit := hexit
            exitSealed := ⟨hexitTag, rfl⟩
            rcsp := ⟨hrcsp, rfl⟩
            caller := ⟨hcaller, rfl, rfl⟩
            slot := rfl
            rddc := rfl }⟩

/-- A valid capability that `cbpf_exact` builds ends inside the executive's data capability. -/
theorem cbpfExact_top {env : Env} {address size perms : Nat}
    (h : (cbpfExact env address size perms).tag = true) :
    address + size ≤ env.ddc.base + env.ddc.length := by
  unfold cbpfExact at h
  dsimp only at h
  split at h
  · cases h
  · simp only [Capability.permsAnd, Capability.boundsSetExact, Capability.addressSet,
      Bool.and_eq_true] at h
    exact of_decide_eq_true h.1.1.2

theorem bytes_sentryCreate (c : Capability) : (sentryCreate c).bytes = c.bytes := rfl

theorem bytes_cbpfExact {env : Env} {address size perms : Nat}
    (h : (cbpfExact env address size perms).tag = true) :
    (cbpfExact env address size perms).bytes = Set.Ico address (address + size) := by
  rw [cbpfExact_of_tag h]
  rfl

section Geometry

variable {env : Env} {ctx : EnterContext} {a : EnterArgs} {s : Invocation} {e : Entry}

theorem entryGeometry (ht : a.Typed ctx) (hc : EnterChecks s ctx a) (hb : EnterBuilt env ctx a e) :
    EntryGeometry env ctx a e := by
  have hcodeSize := u64Sub_of_le (Nat.le_of_lt hc.code) ht.retAddr
  have hcode : e.code.bytes = Set.Ico ctx.callerLr a.retAddr := by
    rw [hb.codeSealed.2, bytes_sentryCreate, bytes_cbpfExact hb.code, hcodeSize]
    congr 1
    have := hc.code
    omega
  have hexit : e.exit.bytes = Set.Ico a.retAddr (a.retAddr + a.executiveReturnSize) := by
    rw [hb.exitSealed.2, bytes_sentryCreate, bytes_cbpfExact hb.exit]
  have hstack : e.rcsp.bytes = Set.Ico a.stackBase (a.stackBase + 16) := by
    have htag := hb.rcsp.1
    rw [hb.rcsp.2] at htag ⊢
    rw [bytes_cbpfExact htag, hc.stackSize]
  have hslot : e.callerSlotAddr = a.stackBase + 16 := by
    have := hc.stackTop
    rw [hb.slot, hc.stackSize, u64Add, Nat.mod_eq_of_lt (by omega)]
  refine {
    outer := ?_
    code := ⟨hb.codeSealed.1, hcode⟩
    exit := ⟨hb.exitSealed.1, ?_, hexit⟩
    nonempty := ?_
    disjoint := ?_
    stack := ⟨hb.rcsp.1, hc.aligned, hstack⟩
    slot := ⟨hslot, ?_⟩
    caller := hb.caller }
  · have hlength : ctx.pcc.lengthGet ≤ ctx.pcc.length := Nat.min_le_left _ _
    apply Set.Ico_subset_Ico hc.outerBase
    exact Nat.le_trans hc.outerTop (Nat.add_le_add_left hlength _)
  · rw [hb.exitSealed.2, cbpfExact_of_tag hb.exit]
    rfl
  · rw [hexit, Set.nonempty_Ico]
    have := hc.executive
    omega
  · rw [hcode, hexit]
    exact Set.Ico_disjoint_Ico_same
  · rw [hstack, hslot]
    exact Set.Ico_disjoint_Ico_same.symm

theorem noWrap (ht : a.Typed ctx) (hc : EnterChecks s ctx a) (hb : EnterBuilt env ctx a e) :
    NoWrap env ctx a := by
  have hget : ctx.pcc.lengthGet < 2 ^ 64 := by
    rw [Capability.lengthGet]
    omega
  have htop := hc.outerTop
  have hbase := hc.outerBase
  have houter := ht.outerReturnAddr
  have haligned := hc.outerAligned
  have hstack := hc.stackTop
  have hcode := hc.code
  have hoffset := u64Sub_of_le hbase houter
  have hroom : u64Sub ctx.pcc.lengthGet (a.outerReturnAddr - ctx.pcc.base) = _ :=
    u64Sub_of_le (by omega) hget
  refine {
    stackLimit := by rw [hc.stackSize]; decide
    outerOffset := by omega
    outerRoom := by rw [hoffset, hroom]; omega
    outerEnd := by omega
    slot := ?_
    slotEnd := by rw [hc.stackSize]; omega
    codeSize := by rw [u64Sub_of_le (Nat.le_of_lt hcode) ht.retAddr]; omega
    executiveEnd := cbpfExact_top hb.exit }
  rw [hc.stackSize, u64Add]
  exact Nat.mod_eq_of_lt (by omega)

end Geometry

/-! ### At most one entry -/

/-- The life of an invocation up to now: `entries` of its calls of `cbpf_enter` succeeded, whatever
their arguments, and gate calls may have come between them. -/
inductive Life (env : Env) (prog cellsAddr : Nat) : Nat → ProviderObject → EnterMachine → Prop
  | start (o : ProviderObject) (slots : Nat → Capability) (rcsp rddc : Capability) :
      Life env prog cellsAddr 0 o ⟨some (.zeroed prog cellsAddr), slots, rcsp, rddc⟩
  | error {entries : Nat} {o : ProviderObject} {m : EnterMachine} {ctx : EnterContext}
      {a : EnterArgs} {err : EnterError} : Life env prog cellsAddr entries o m →
      (cbpfEnterOn env ctx a m).2 = .error err →
      Life env prog cellsAddr entries o (cbpfEnterOn env ctx a m).1
  | enter {entries : Nat} {o : ProviderObject} {m : EnterMachine} {ctx : EnterContext}
      {a : EnterArgs} {e : Entry} : Life env prog cellsAddr entries o m →
      (cbpfEnterOn env ctx a m).2 = .entered e →
      Life env prog cellsAddr (entries + 1) o (cbpfEnterOn env ctx a m).1
  | gate {entries : Nat} {o : ProviderObject} {m : EnterMachine} {s : Invocation} (c : GateCall) :
      Life env prog cellsAddr entries o m → m.active = some s →
      Life env prog cellsAddr entries (Running.call ⟨o, s⟩ env c).1.object
        { m with active := some (Running.call ⟨o, s⟩ env c).1.s }

/-- The two ways out of `cbpf_enter`. -/
theorem cbpfEnterOn_cases (env : Env) (ctx : EnterContext) (a : EnterArgs) (m : EnterMachine) :
    (∃ err, cbpfEnterOn env ctx a m = (m, .error err)) ∨
      ∃ s s' e, m.active = some s ∧ cbpfEnter env ctx a s = .ok (s', e) ∧
        cbpfEnterOn env ctx a m = (m.write s' e, .entered e) := by
  unfold cbpfEnterOn
  cases hactive : m.active with
  | none => exact .inl ⟨_, rfl⟩
  | some s =>
    cases henter : cbpfEnter env ctx a s with
    | error err => exact .inl ⟨err, by simp [henter]⟩
    | ok out => exact .inr ⟨s, out.1, out.2, rfl, henter, by simp [henter]⟩

/-- An invocation is marked as entered by its first entry and stays so. -/
theorem Life.entered {env : Env} {prog cellsAddr entries : Nat} {o : ProviderObject}
    {m : EnterMachine} (h : Life env prog cellsAddr entries o m) :
    ∃ s, m.active = some s ∧ (s.entered = false → entries = 0) := by
  induction h with
  | start => exact ⟨_, rfl, fun _ => rfl⟩
  | @error entries o m ctx a err _ herror ih =>
    rcases cbpfEnterOn_cases env ctx a m with ⟨err', hrun⟩ | ⟨_, _, _, _, _, hrun⟩
    · rw [hrun]
      exact ih
    · rw [hrun] at herror
      cases herror
  | @enter entries o m ctx a e _ hentered ih =>
    rcases cbpfEnterOn_cases env ctx a m with ⟨err', hrun⟩ | ⟨s, s', e', _, henter, hrun⟩
    · rw [hrun] at hentered
      cases hentered
    · rw [hrun]
      obtain ⟨_, _, rfl⟩ := cbpfEnter_ok henter
      exact ⟨_, rfl, nofun⟩
  | @gate entries o m s c _ hactive ih =>
    obtain ⟨s', hactive', hentries⟩ := ih
    obtain rfl := Option.some.inj (hactive.symm.trans hactive')
    obtain ⟨_, _, hentered, _⟩ := (call_step env ⟨o, s⟩ c).frame
    exact ⟨_, rfl, fun hfalse => hentries (hentered.symm.trans hfalse)⟩

/-- `cbpf_enter` is all-or-nothing and its ranges never wrap: an error changes nothing, and an entry
is the first of its invocation, makes its stores and register writes and no others, and has exactly
the intervals it was asked for. -/
theorem cbpfEnter_all_or_nothing (env : Env) (ctx : EnterContext) (a : EnterArgs)
    (m : EnterMachine) (ht : a.Typed ctx) :
    (∀ err, (cbpfEnterOn env ctx a m).2 = .error err → (cbpfEnterOn env ctx a m).1 = m) ∧
    ∀ e, (cbpfEnterOn env ctx a m).2 = .entered e →
      ∃ s, m.active = some s ∧ s.entered = false ∧ s.prog = a.progCookie ∧
        (∀ prog cellsAddr entries o, Life env prog cellsAddr entries o m → entries = 0) ∧
        (cbpfEnterOn env ctx a m).1 =
          { active := some { s with entered := true, printed := s.printed ++ [enterLine ctx a] }
            slots := Function.update m.slots (a.stackBase + 16) e.callerSlot
            rcsp := e.rcsp
            rddc := .null } ∧
        EntryGeometry env ctx a e ∧ NoWrap env ctx a := by
  rcases cbpfEnterOn_cases env ctx a m with ⟨err, hrun⟩ | ⟨s, s', e, hactive, henter, hrun⟩
  · rw [hrun]
    refine ⟨fun _ _ => rfl, fun e he => ?_⟩
    cases he
  · rw [hrun]
    refine ⟨fun err herr => (by cases herr), fun e' he => ?_⟩
    obtain rfl := EnterResult.entered.inj he
    obtain ⟨hvalid, hb⟩ := cbpfEnter_built henter
    have hc := enterChecks_of_valid ht hvalid
    obtain ⟨_, _, rfl⟩ := cbpfEnter_ok henter
    have hgeometry := entryGeometry ht hc hb
    refine ⟨s, hactive, hc.entered, hc.cookie, ?_, ?_, hgeometry, noWrap ht hc hb⟩
    · intro prog cellsAddr entries o hlife
      obtain ⟨s', hactive', hentries⟩ := hlife.entered
      obtain rfl := Option.some.inj (hactive.symm.trans hactive')
      exact hentries hc.entered
    · rw [EnterMachine.write, hgeometry.slot.1, hb.rddc]

theorem cbpfEnter_all_or_nothing_flat : ∃ e,
    (cbpfEnterOn flatEnv flatContext flatEntry
      ⟨some (.zeroed 7 12288), fun _ => .null, .null, .null⟩).2 = .entered e ∧
    EntryGeometry flatEnv flatContext flatEntry e ∧ NoWrap flatEnv flatContext flatEntry := by
  have hentered : ∃ e, (cbpfEnterOn flatEnv flatContext flatEntry
      ⟨some (.zeroed 7 12288), fun _ => .null, .null, .null⟩).2 = .entered e := ⟨_, rfl⟩
  obtain ⟨e, hentered⟩ := hentered
  obtain ⟨_, _, _, _, _, _, hgeometry, hwrap⟩ := (cbpfEnter_all_or_nothing flatEnv flatContext
    flatEntry ⟨some (.zeroed 7 12288), fun _ => .null, .null, .null⟩
    (by constructor <;> decide)).2 e hentered
  exact ⟨e, hentered, hgeometry, hwrap⟩

end Cbpf.Kernel
