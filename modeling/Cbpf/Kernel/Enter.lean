import Cbpf.Kernel.Runtime

/-!
# Entering restricted mode (`cbpf_enter`, `linux/ownership/cbpf_runtime.c:482-551`)

The checks, the capabilities that are built and the state a successful entry leaves, up to the
branch into the program. What a failed check returns is the `Except` error.
-/

namespace Cbpf.Kernel

open Cheri

/-- `x + y` and `x - y` of `u64`. -/
def u64Add (x y : Nat) : Nat := (x + y) % 2 ^ 64
def u64Sub (x y : Nat) : Nat := (x + 2 ^ 64 - y) % 2 ^ 64

/-- A difference that does not wrap. -/
theorem u64Sub_of_le {x y : Nat} (h : y ≤ x) (hx : x < 2 ^ 64) : u64Sub x y = x - y := by
  rw [u64Sub, show x + 2 ^ 64 - y = x - y + 2 ^ 64 by omega, Nat.add_mod_right]
  exact Nat.mod_eq_of_lt (by omega)

/-- The arguments. -/
structure EnterArgs where
  stackBase : Nat
  stackSize : Nat
  retAddr : Nat
  executiveReturnSize : Nat
  outerReturnAddr : Nat
  progCookie : Nat
  deriving DecidableEq, Repr

/-- What `cbpf_enter` reads besides its arguments and the invocation: its return address, the
program counter capability, `&cbpf_gateway` and the mask `CHERI_PERMS_WRITE`. -/
structure EnterContext where
  callerLr : Nat
  pcc : Capability
  gatewayAddr : Nat
  permsWrite : Nat
  deriving DecidableEq, Repr

inductive EnterError where
  | einval | erange
  deriving DecidableEq, Repr

/-- The memory and registers that a successful entry writes. -/
structure Entry where
  callerSlotAddr : Nat
  callerSlot : Capability
  rcsp : Capability
  rddc : Capability
  stack : Nat
  gate : Capability
  exit : Capability
  code : Capability
  deriving DecidableEq, Repr

/-- `cheri_sentry_create`: seals a valid, unsealed, executable capability. -/
def sentryCreate (c : Capability) : Capability :=
  { c with isSealed := true, tag := c.tag && !c.isSealed && c.perms &&& permExecute != 0 }

/-- `cheri_perms_clear`. -/
def permsClear (c : Capability) (mask : Nat) : Capability :=
  { c with perms := c.perms &&& (c.perms ^^^ mask), tag := c.tag && !c.isSealed }

/-- The condition of the first `if`, whose disjuncts C evaluates in this order. -/
def enterInvalid (s : Invocation) (ctx : EnterContext) (a : EnterArgs) : Bool :=
  s.entered || s.failed || s.prog != a.progCookie ||
  a.stackSize != 16 || a.stackBase % 16 != 0 ||
  decide (a.stackBase > u64Sub u64Max a.stackSize) ||
  a.outerReturnAddr % 4 != 0 || decide (a.outerReturnAddr < ctx.pcc.base) ||
  decide (u64Sub a.outerReturnAddr ctx.pcc.base > ctx.pcc.lengthGet) ||
  decide (u64Sub ctx.pcc.lengthGet (u64Sub a.outerReturnAddr ctx.pcc.base) < 4) ||
  decide (a.retAddr ≤ ctx.callerLr) || a.executiveReturnSize == 0

/-- `cbpf_enter` with a non-NULL `cbpf_active`. -/
def cbpfEnter (env : Env) (ctx : EnterContext) (a : EnterArgs) (s : Invocation) :
    Except EnterError (Invocation × Entry) :=
  if enterInvalid s ctx a then .error .einval
  else
    let callerSlot := u64Add a.stackBase a.stackSize
    let caller := ctx.pcc.addressSet env.enc a.outerReturnAddr
    if !caller.tag || caller.address != a.outerReturnAddr || caller.perms &&& permExecute == 0 ||
        caller.perms &&& permExecutive == 0 then .error .erange
    else
      let caller := sentryCreate caller
      let codeSize := u64Sub a.retAddr ctx.callerLr
      let code := cbpfExact env ctx.callerLr codeSize (permExecute ||| permLoad ||| permGlobal)
      let exit := cbpfExact env a.retAddr a.executiveReturnSize
        (permExecute ||| permLoad ||| permGlobal ||| permExecutive)
      let rcsp := cbpfExact env a.stackBase a.stackSize
        (permLoad ||| permStore ||| permLoadCap ||| permStoreCap ||| permGlobal)
      if !code.tag || !exit.tag || !rcsp.tag then .error .erange
      else
        let code := sentryCreate code
        let exit := sentryCreate exit
        let gate := sentryCreate
          (permsClear (ctx.pcc.addressSet env.enc ctx.gatewayAddr) ctx.permsWrite)
        if !caller.tag || !caller.isSealed || !code.tag || !code.isSealed || !exit.tag ||
            !exit.isSealed || !gate.tag || !gate.isSealed || gate.address != ctx.gatewayAddr then
          .error .erange
        else
          .ok ({ s with
              entered := true
              printed := s.printed ++ [.enter ctx.callerLr codeSize a.retAddr
                a.executiveReturnSize a.stackBase a.stackSize] },
            { callerSlotAddr := callerSlot, callerSlot := caller, rcsp := rcsp, rddc := .null,
              stack := a.stackBase, gate := gate, exit := exit, code := code })

/-- The line a successful entry prints. -/
def enterLine (ctx : EnterContext) (a : EnterArgs) : LogLine :=
  .enter ctx.callerLr (u64Sub a.retAddr ctx.callerLr) a.retAddr a.executiveReturnSize a.stackBase
    a.stackSize

/-- An entry is the first one of an invocation without failure, and changes nothing in it but the
entry flag. -/
theorem cbpfEnter_ok {env : Env} {ctx : EnterContext} {a : EnterArgs} {s s' : Invocation}
    {e : Entry} (h : cbpfEnter env ctx a s = .ok (s', e)) :
    s.entered = false ∧ s.failed = false ∧
      s' = { s with entered := true, printed := s.printed ++ [enterLine ctx a] } := by
  unfold cbpfEnter at h
  split at h
  · cases h
  · rename_i hvalid
    have hflags : s.entered = false ∧ s.failed = false := by
      simp only [enterInvalid, Bool.or_eq_true, not_or, Bool.not_eq_true] at hvalid
      tauto
    dsimp only at h
    split at h
    · cases h
    · split at h
      · cases h
      · split at h
        · cases h
        · obtain ⟨rfl, rfl⟩ := Prod.mk.inj (Except.ok.inj h)
          exact ⟨hflags.1, hflags.2, rfl⟩

end Cbpf.Kernel
