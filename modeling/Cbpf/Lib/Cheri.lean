import Mathlib

/-!
# Architectural capabilities

A capability is an address with bounds, permissions, a seal and a validity tag. The operations are
the CHERI ones: they can narrow bounds and permissions and clear tags, never the opposite. Which
bounds an encoding can represent, and how far an address may leave the bounds, is a parameter
(`Encoding`); an operation whose result the encoding cannot hold clears the tag.
-/

namespace Cheri

/-- The value of a capability register or of a tagged memory granule. -/
structure Capability where
  tag : Bool
  isSealed : Bool
  address : Nat
  base : Nat
  length : Nat
  perms : Nat
  deriving DecidableEq, Repr

/-- What a compressed encoding can hold. -/
structure Encoding where
  /-- Are the bounds `[base, base + length)` exact? -/
  boundsOk : Nat → Nat → Bool
  /-- Does a capability with these bounds stay valid with this address? -/
  addressOk : Nat → Nat → Nat → Bool

/-- An integer in a capability register: no tag and no permission. -/
def Capability.ofInt (v : Nat) : Capability := ⟨false, false, v, 0, 2 ^ 64, 0⟩

/-- The null capability. -/
def Capability.null : Capability := .ofInt 0

/-- `cheri_tag_clear`. -/
def Capability.tagClear (c : Capability) : Capability := { c with tag := false }

/-- `cheri_address_set`. -/
def Capability.addressSet (enc : Encoding) (c : Capability) (a : Nat) : Capability :=
  { c with address := a, tag := c.tag && !c.isSealed && enc.addressOk c.base c.length a }

/-- `cheri_bounds_set_exact`: the new bounds start at the address. -/
def Capability.boundsSetExact (enc : Encoding) (c : Capability) (size : Nat) : Capability :=
  { c with
    base := c.address
    length := size
    tag := c.tag && !c.isSealed && decide (c.base ≤ c.address) &&
      decide (c.address + size ≤ c.base + c.length) && enc.boundsOk c.address size }

/-- `cheri_perms_and`. -/
def Capability.permsAnd (c : Capability) (mask : Nat) : Capability :=
  { c with perms := c.perms &&& mask, tag := c.tag && !c.isSealed }

/-- Is the capability anything but a valid, unsealed one that starts at `a`, points at `a`, spans
`size` bytes and has exactly the permissions `perms`? -/
def Capability.inexact (c : Capability) (a size perms : Nat) : Bool :=
  !c.tag || c.isSealed || c.address != a || c.base != a || c.length != size || c.perms != perms

/-- The addresses a capability may be dereferenced at. -/
def Capability.bytes (c : Capability) : Set Nat := Set.Ico c.base (c.base + c.length)

/-- `cheri_length_get`: a 64-bit register saturates on the length of the whole address space. -/
def Capability.lengthGet (c : Capability) : Nat := min c.length (2 ^ 64 - 1)

/-! Permission bits (`__CHERI_CAP_PERMISSION_*` of the compiler). -/

def permGlobal : Nat := 1 <<< 0
def permExecutive : Nat := 1 <<< 1
def permStoreCap : Nat := 1 <<< 13
def permLoadCap : Nat := 1 <<< 14
def permExecute : Nat := 1 <<< 15
def permStore : Nat := 1 <<< 16
def permLoad : Nat := 1 <<< 17

/-- `c` grants nothing that `d` does not grant. -/
structure Within (c d : Capability) : Prop where
  base : d.base ≤ c.base
  top : c.base + c.length ≤ d.base + d.length
  perms : c.perms &&& d.perms = c.perms

@[simp] theorem ofInt_tag (v : Nat) : (Capability.ofInt v).tag = false := rfl
@[simp] theorem ofInt_address (v : Nat) : (Capability.ofInt v).address = v := rfl
@[simp] theorem tagClear_tag (c : Capability) : c.tagClear.tag = false := rfl

/-- The six parts that a passed check fixes. -/
theorem inexact_eq_false_iff {c : Capability} {a size perms : Nat} :
    c.inexact a size perms = false ↔
      c.tag = true ∧ c.isSealed = false ∧ c.address = a ∧ c.base = a ∧ c.length = size ∧
        c.perms = perms := by
  simp [Capability.inexact, and_assoc]

theorem eq_of_inexact_eq_false {c : Capability} {a size perms : Nat}
    (h : c.inexact a size perms = false) : c = ⟨true, false, a, a, size, perms⟩ := by
  obtain ⟨ht, hs, ha, hb, hl, hp⟩ := inexact_eq_false_iff.mp h
  cases c
  simp_all

theorem Within.bytes_subset {c d : Capability} (h : Within c d) : c.bytes ⊆ d.bytes :=
  Set.Ico_subset_Ico h.base h.top

theorem Within.trans {c d e : Capability} (h : Within c d) (h' : Within d e) : Within c e where
  base := Nat.le_trans h'.base h.base
  top := Nat.le_trans h.top h'.top
  perms := by rw [← h.perms, Nat.and_assoc, h'.perms]

/-- Moving the address changes neither bounds nor permissions. -/
theorem within_addressSet (enc : Encoding) (c : Capability) (a : Nat) :
    Within (c.addressSet enc a) c :=
  ⟨Nat.le_refl _, Nat.le_refl _, Nat.and_self _⟩

/-- Narrowing the bounds is monotone whenever the result is valid. -/
theorem within_boundsSetExact {enc : Encoding} {c : Capability} {size : Nat}
    (h : (c.boundsSetExact enc size).tag = true) : Within (c.boundsSetExact enc size) c := by
  simp only [Capability.boundsSetExact, Bool.and_eq_true, decide_eq_true_eq] at h
  exact ⟨h.1.1.2, h.1.2, Nat.and_self _⟩

/-- A valid narrowed capability comes from a valid, unsealed one. -/
theorem tag_of_boundsSetExact {enc : Encoding} {c : Capability} {size : Nat}
    (h : (c.boundsSetExact enc size).tag = true) : c.tag = true ∧ c.isSealed = false := by
  simp only [Capability.boundsSetExact, Bool.and_eq_true, Bool.not_eq_true'] at h
  exact ⟨h.1.1.1.1, h.1.1.1.2⟩

end Cheri
