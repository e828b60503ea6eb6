import Cbpf.Spatial.ArrayMap

/-!
# The life of a retained root

`cbpf_map_area_alloc`, `array_map_alloc` and `array_map_free` of
`src/linux/spatial/array-authority.patch`. The allocators answer with an address, 0 when they fail;
what a function asks of them is its log. The parts of `array_map_alloc` that the patch leaves as they
are, the number of entries and the sizes of the other map kinds, are parameters.
-/

namespace Cbpf.Spatial

open Cheri

/-! ### Allocation -/

/-- What is asked of the allocators, with the address that is given out or back. -/
inductive Event where
  | areaAlloc (area : BitVec 64)
  | areaFree (area : BitVec 64)
  | kzalloc (object : BitVec 64)
  | kfree (object : BitVec 64)
  deriving DecidableEq, Repr

/-- Everything that was given out was given back, as often. -/
def Balanced (log : List Event) : Prop :=
  ∀ a, log.count (.areaAlloc a) = log.count (.areaFree a) ∧
    log.count (.kzalloc a) = log.count (.kfree a)

/-- The members of `union bpf_attr` that an array map is made of. -/
structure Attr where
  mapType : MapType
  mapFlags : BitVec 32
  valueSize : BitVec 32
  maxEntries : BitVec 32
  deriving DecidableEq, Repr

/-- `attr->map_type == BPF_MAP_TYPE_ARRAY && !attr->map_flags` -/
def Attr.plain (attr : Attr) : Bool := attr.mapType == .array && attr.mapFlags == 0

/-- `BPF_F_MMAPABLE` -/
def mmapable (flags : BitVec 32) : Bool := flags &&& 0x400 != 0

/-- The number of entries that is allocated for, and the mask of their indices. -/
structure Entries (maxEntries : BitVec 32) where
  count : BitVec 32
  indexMask : BitVec 32
  /-- the inherited check for overflows -/
  le_count : maxEntries ≤ count
  mask : ∃ k, indexMask.toNat = 2 ^ k - 1
  covers : maxEntries.toNat - 1 ≤ indexMask.toNat

/-- What an allocation gets from the rest of the kernel and from the processor. -/
structure AllocEnv where
  layout : Layout
  enc : Encoding
  /-- `cheri_ddc_get()` -/
  ddc : Capability
  ddc_top : ddc.base + ddc.length ≤ 2 ^ 64
  /-- `bpf_map_area_alloc`, by size -/
  mapAreaAlloc : BitVec 64 → BitVec 64
  /-- the array inside what `bpf_map_area_mmapable_alloc` returns, by size -/
  mmapableAlloc : BitVec 64 → BitVec 64
  /-- `array_map_vmalloc_addr` -/
  vmallocAddr : BitVec 64 → BitVec 64
  /-- `kzalloc(sizeof(struct cbpf_array_authority), GFP_KERNEL_ACCOUNT)` -/
  kzallocAuthority : BitVec 64
  /-- `__alignof__(struct cbpf_array_authority)` -/
  alignofAuthority : BitVec 64
  /-- Does `bpf_array_alloc_percpu` fail? -/
  percpuFails : Bool
  /-- the inherited rounding, `none` when it fails with `-E2BIG` -/
  entries : (attr : Attr) → Option (Entries attr.maxEntries)
  /-- the inherited `array_size` of per-CPU and of memory-mapped arrays -/
  otherSize : Attr → BitVec 64

/-- What `cbpf_map_area_alloc` leaves behind: its result, `*allocation_cap`, what it asked for. -/
structure AreaResult where
  area : BitVec 64
  allocationCap : Option Capability
  log : List Event
  deriving DecidableEq, Repr

/-- The capability of a fresh area, derived from DDC. -/
def AllocEnv.areaCap (env : AllocEnv) (area size : BitVec 64) : Capability :=
  ((env.ddc.addressSet env.enc area.toNat).boundsSetExact env.enc size.toNat).permsAnd
    arrayDataPerms

/-- The tests on the capability of a fresh area. -/
def badArea (cap : Capability) (area size : BitVec 64) : Bool :=
  !cap.tag || cap.isSealed || cap.base != area.toNat || cap.address != area.toNat ||
    cap.lengthGet != size.toNat || cap.perms != arrayDataPerms

/-- `cbpf_map_area_alloc`. `slot` is `*allocation_cap`, `none` for the null pointer. -/
def cbpfMapAreaAlloc (env : AllocEnv) (size : BitVec 64) (slot : Option Capability) : AreaResult :=
  match slot with
  | none => ⟨0, none, []⟩
  | some _ =>
    let area := env.mapAreaAlloc size
    if area == 0 then ⟨0, some .null, []⟩
    else
      -- Hybrid allocator: initial root assignment remains trusted.
      let cap := env.areaCap area size
      if badArea cap area size then ⟨0, some .null, [.areaAlloc area, .areaFree area]⟩
      else ⟨area, some cap, [.areaAlloc area]⟩

/-- What `array->aux` points to. Only plain arrays have an authority; program arrays keep their own. -/
inductive Aux where
  | null
  | authority (object : BitVec 64) (content : ArrayAuthority)
  | progArray (object : BitVec 64)
  deriving DecidableEq, Repr

/-- The authority that a lookup finds. -/
def Aux.content : Aux → Option ArrayAuthority
  | .authority _ content => some content
  | _ => none

/-- `struct bpf_array`, with what its `aux` points to. -/
structure ArrayObject where
  map : BpfMap
  address : BitVec 64
  elemSize : BitVec 32
  indexMask : BitVec 32
  aux : Aux
  deriving DecidableEq, Repr

/-- The array as a lookup reads it. -/
def ArrayObject.toArray (array : ArrayObject) : BpfArray :=
  ⟨array.map, array.address, array.elemSize, array.indexMask, array.aux.content⟩

/-- `map->ops = ops`, which `map_create` adds to an allocated map. -/
def ArrayObject.created (array : ArrayObject) : ArrayObject :=
  { array with map := { array.map with ops := .arrayMapOps } }

/-- The errors of `array_map_alloc`. -/
inductive Errno where
  | e2big
  | enomem
  deriving DecidableEq, Repr

/-- `round_up(attr->value_size, 8)` -/
def Attr.elemSize (attr : Attr) : BitVec 32 := ((attr.valueSize - 1) ||| 7) + 1

/-- `array_size`. -/
def AllocEnv.arraySize (env : AllocEnv) (attr : Attr) (count : BitVec 32) : BitVec 64 :=
  if attr.mapType == .percpuArray || mmapable attr.mapFlags then env.otherSize attr
  else env.layout.sizeofArray + count.setWidth 64 * attr.elemSize.setWidth 64

/-- The area of the array, by kind of map. -/
def AllocEnv.allocArea (env : AllocEnv) (attr : Attr) (size : BitVec 64) : AreaResult :=
  if mmapable attr.mapFlags then
    let array := env.mmapableAlloc size
    ⟨array, some .null, if array == 0 then [] else [.areaAlloc (env.vmallocAddr array)]⟩
  else if attr.plain then cbpfMapAreaAlloc env size (some .null)
  else
    let array := env.mapAreaAlloc size
    ⟨array, some .null, if array == 0 then [] else [.areaAlloc array]⟩

/-- `kfree`: nothing happens to the null pointer. -/
def kfree (object : BitVec 64) : List Event := if object == 0 then [] else [.kfree object]

/-- The result of `kzalloc`. -/
def kzalloc (object : BitVec 64) : List Event := if object == 0 then [] else [.kzalloc object]

/-- `IS_ALIGNED`, for a power of two. -/
def isAligned (object align : BitVec 64) : Bool := object &&& (align - 1) == 0

/-- What the inherited initialisation writes: the area is zeroed, so there are no ops, no record and
no `aux` yet. -/
def Attr.init (attr : Attr) (area : BitVec 64) (indexMask : BitVec 32) : ArrayObject where
  map := ⟨attr.mapType, .other 0, attr.mapFlags, none, attr.maxEntries, attr.valueSize⟩
  address := area
  elemSize := attr.elemSize
  indexMask := indexMask
  aux := .null

/-- `array_map_alloc`, with what it asked of the allocators. -/
def arrayMapAlloc (env : AllocEnv) (attr : Attr) : Except Errno ArrayObject × List Event :=
  match env.entries attr with
  | none => (.error .e2big, [])
  | some entries =>
    let size := env.arraySize attr entries.count
    let result := env.allocArea attr size
    if result.area == 0 then (.error .enomem, result.log)
    else
      let array := attr.init result.area entries.indexMask
      if attr.plain then
        let authority := env.kzallocAuthority
        let log := result.log ++ kzalloc authority
        if authority == 0 || !isAligned authority env.alignofAuthority then
          (.error .enomem, log ++ kfree authority ++ [.areaFree result.area])
        else
          let content := ⟨result.allocationCap.getD .null, size⟩
          (.ok { array with aux := .authority authority content }, log)
      else if attr.mapType == .percpuArray && env.percpuFails then
        (.error .enomem, result.log ++ [.areaFree result.area])
      else (.ok array, result.log)

/-- What `array_map_free` leaves behind. `retired` is what the descriptor holds when it is freed. -/
structure FreeResult where
  array : ArrayObject
  retired : Option ArrayAuthority
  log : List Event
  deriving DecidableEq, Repr

/-- `array_map_free`, after the per-CPU values. -/
def arrayMapFree (env : AllocEnv) (array : ArrayObject) : FreeResult :=
  let area :=
    if mmapable array.map.mapFlags then env.vmallocAddr array.address else array.address
  match array.map.mapType, array.aux with
  | .array, .authority object content =>
    ⟨{ array with aux := .null }, some { content with root := content.root.tagClear },
      kfree object ++ [.areaFree area]⟩
  | _, _ => ⟨array, none, [.areaFree area]⟩

/-! ### The area and its capability -/

/-- What the tests on a fresh area's capability establish. -/
structure AreaRoot (cap : Capability) (area size : BitVec 64) : Prop where
  tag : cap.tag = true
  unsealed : cap.isSealed = false
  base : cap.base = area.toNat
  address : cap.address = area.toNat
  length : cap.length = size.toNat
  perms : cap.perms = arrayDataPerms

variable {env : AllocEnv} {attr : Attr} {area size : BitVec 64}

/-- The bounds of a fresh capability are asked for, so only the tag can tell that they are not met. -/
theorem areaRoot_of_not_bad (h : badArea (env.areaCap area size) area size = false) :
    AreaRoot (env.areaCap area size) area size := by
  simp only [badArea, Bool.or_eq_false_iff, Bool.not_eq_false', bne_eq_false_iff_eq] at h
  obtain ⟨⟨⟨⟨⟨htag, hsealed⟩, hbase⟩, haddress⟩, _⟩, hperms⟩ := h
  exact ⟨htag, hsealed, hbase, haddress, rfl, hperms⟩

/-- A fresh capability lies in the address space, as DDC does. -/
theorem AreaRoot.top (h : AreaRoot (env.areaCap area size) area size) :
    area.toNat + size.toNat ≤ 2 ^ 64 := by
  have htag := h.tag
  simp only [AllocEnv.areaCap, Capability.permsAnd, Bool.and_eq_true] at htag
  have hwithin := (within_boundsSetExact htag.1).top
  exact Nat.le_trans hwithin env.ddc_top

/-- `cbpf_map_area_alloc` gives out an area with its exact capability, or nothing. -/
theorem cbpfMapAreaAlloc_spec (env : AllocEnv) (size : BitVec 64) (old : Capability) :
    (cbpfMapAreaAlloc env size (some old) = ⟨0, some .null, []⟩ ∨
      cbpfMapAreaAlloc env size (some old) =
        ⟨0, some .null, [.areaAlloc (env.mapAreaAlloc size), .areaFree (env.mapAreaAlloc size)]⟩) ∨
    (env.mapAreaAlloc size ≠ 0 ∧
      AreaRoot (env.areaCap (env.mapAreaAlloc size) size) (env.mapAreaAlloc size) size ∧
      cbpfMapAreaAlloc env size (some old) =
        ⟨env.mapAreaAlloc size, some (env.areaCap (env.mapAreaAlloc size) size),
          [.areaAlloc (env.mapAreaAlloc size)]⟩) := by
  simp only [cbpfMapAreaAlloc]
  split
  · exact .inl (.inl rfl)
  · next hnull =>
    split
    · exact .inl (.inr rfl)
    · next hgood =>
      refine .inr ⟨by simpa using hnull, areaRoot_of_not_bad (by simpa using hgood), rfl⟩

/-! ### The array -/

/-- What the inherited `array_map_alloc_check` demands of the values. -/
structure Attr.Checked (attr : Attr) : Prop where
  value_pos : 0 < attr.valueSize.toNat
  value_le : attr.valueSize.toNat < 2 ^ 31

theorem or_seven (n : Nat) : n ||| 7 = n / 8 * 8 + 7 := by
  apply Nat.eq_of_testBit_eq
  intro i
  have hseven : (7 : Nat) = 2 ^ 3 - 1 := rfl
  rw [Nat.mul_comm, show n / 8 = n / 2 ^ 3 from rfl, show (8 : Nat) = 2 ^ 3 from rfl,
    Nat.testBit_two_pow_mul_add _ (by decide), Nat.testBit_or]
  by_cases hi : i < 3
  · rw [if_pos hi, hseven, Nat.testBit_two_pow_sub_one]
    simp [hi]
  · rw [if_neg hi, hseven, Nat.testBit_two_pow_sub_one, Nat.testBit_div_two_pow,
      Nat.sub_add_cancel (Nat.le_of_not_lt hi)]
    simp [hi]

theorem Attr.Checked.elemSize_toNat (h : attr.Checked) :
    attr.elemSize.toNat = (attr.valueSize.toNat + 7) / 8 * 8 := by
  have hpos := h.value_pos
  have hle := h.value_le
  have hone : (1 : BitVec 32) ≤ attr.valueSize := hpos
  rw [Attr.elemSize, BitVec.toNat_add, BitVec.toNat_or, BitVec.toNat_sub_of_le hone]
  change ((attr.valueSize.toNat - 1 ||| 7) + 1) % 2 ^ 32 = _
  rw [or_seven, Nat.mod_eq_of_lt (by omega)]
  omega

theorem Attr.plain_iff : attr.plain = true ↔ attr.mapType = .array ∧ attr.mapFlags = 0 := by
  simp [Attr.plain]

/-- The size of a plain array: the rounded number of strides behind the header. -/
theorem arraySize_toNat (hplain : attr.plain = true) (count : BitVec 32) :
    (env.arraySize attr count).toNat =
      env.layout.sizeofArray.toNat + count.toNat * attr.elemSize.toNat := by
  obtain ⟨htype, hflags⟩ := Attr.plain_iff.mp hplain
  have hcond : (attr.mapType == .percpuArray || mmapable attr.mapFlags) = false := by
    rw [htype, hflags]
    rfl
  rw [AllocEnv.arraySize, hcond, if_neg Bool.false_ne_true, BitVec.toNat_add, BpfArray.toNat_mul]
  exact Nat.mod_eq_of_lt
    (BpfArray.mul_add_lt count.isLt attr.elemSize.isLt env.layout.sizeof_lt)

theorem allocArea_plain (hplain : attr.plain = true) (size : BitVec 64) :
    env.allocArea attr size = cbpfMapAreaAlloc env size (some .null) := by
  obtain ⟨_, hflags⟩ := Attr.plain_iff.mp hplain
  have hmap : mmapable attr.mapFlags = false := by
    rw [hflags]
    rfl
  simp [AllocEnv.allocArea, hmap, hplain]

/-- The array of a plain map, with its authority. -/
def AllocEnv.plainArray (env : AllocEnv) (attr : Attr) (entries : Entries attr.maxEntries) :
    ArrayObject :=
  let size := env.arraySize attr entries.count
  let area := env.mapAreaAlloc size
  { attr.init area entries.indexMask with
    aux := .authority env.kzallocAuthority ⟨env.areaCap area size, size⟩ }

theorem balanced_nil : Balanced [] := fun _ => ⟨rfl, rfl⟩

theorem balanced_area (area : BitVec 64) : Balanced [.areaAlloc area, .areaFree area] := by
  intro a
  simp [List.count_cons]

/-- An area and a descriptor, given back in either order. -/
theorem balanced_both (area object : BitVec 64) :
    Balanced ([.areaAlloc area] ++ kzalloc object ++ kfree object ++ [.areaFree area]) := by
  intro a
  cases hnull : object == 0 with
  | true => simp only [kzalloc, kfree, hnull]; simp [List.count_cons]
  | false => simp only [kzalloc, kfree, hnull]; simp [List.count_cons]

/-- `array_map_alloc` of a plain array gives out an array with its area and its descriptor, or
gives everything back. -/
theorem arrayMapAlloc_plain (env : AllocEnv) (hplain : attr.plain = true) :
    (∃ error log, arrayMapAlloc env attr = (.error error, log) ∧ Balanced log) ∨
    ∃ entries : Entries attr.maxEntries,
      AreaRoot (env.areaCap (env.mapAreaAlloc (env.arraySize attr entries.count))
        (env.arraySize attr entries.count)) (env.mapAreaAlloc (env.arraySize attr entries.count))
        (env.arraySize attr entries.count) ∧
      env.kzallocAuthority ≠ 0 ∧
      arrayMapAlloc env attr = (.ok (env.plainArray attr entries),
        [.areaAlloc (env.plainArray attr entries).address, .kzalloc env.kzallocAuthority]) := by
  cases hentries : env.entries attr with
  | none => exact .inl ⟨.e2big, [], by simp only [arrayMapAlloc, hentries], balanced_nil⟩
  | some entries =>
    rcases cbpfMapAreaAlloc_spec env (env.arraySize attr entries.count) .null with
      (harea | harea) | ⟨hne, hroot, harea⟩
    · refine .inl ⟨.enomem, [], ?_, balanced_nil⟩
      simp [arrayMapAlloc, hentries, allocArea_plain hplain, harea]
    · refine .inl ⟨.enomem, _, ?_,
        balanced_area (env.mapAreaAlloc (env.arraySize attr entries.count))⟩
      simp only [arrayMapAlloc, hentries, allocArea_plain hplain, harea, beq_self_eq_true, if_true]
    · cases hbad : env.kzallocAuthority == 0 ||
        !isAligned env.kzallocAuthority env.alignofAuthority with
      | true =>
        refine .inl ⟨.enomem, _, ?_, balanced_both
          (env.mapAreaAlloc (env.arraySize attr entries.count)) env.kzallocAuthority⟩
        simp only [arrayMapAlloc, hentries, allocArea_plain hplain, harea, beq_false_of_ne hne,
          hplain, hbad, if_true, Bool.false_eq_true, if_false]
      | false =>
        obtain ⟨hnull, haligned⟩ := Bool.or_eq_false_iff.mp hbad
        refine .inr ⟨entries, hroot, beq_eq_false_iff_ne.mp hnull, ?_⟩
        simp only [arrayMapAlloc, hentries, allocArea_plain hplain, harea, beq_false_of_ne hne,
          hplain, hnull, haligned, Bool.or_false, if_true, Bool.false_eq_true, if_false,
          Option.getD_some, kzalloc]
        rfl

/-! ### The lookup -/

/-- Setting an address inside the bounds keeps a capability valid. -/
def InBounds (enc : Encoding) : Prop :=
  ∀ base length a, base ≤ a → a < base + length → enc.addressOk base length a = true

/-- A lookup with a good root fails only for the bounds of its value. -/
theorem serves_of_boundsOk {lookup : LookupEnv} {array : BpfArray} {authority : ArrayAuthority}
    {key : BitVec 64} (hroot : array.GoodRoot lookup.layout authority) (hl : array.Inherited)
    (htop : authority.root.base + authority.root.length ≤ 2 ^ 64)
    (hvalue : 0 < array.map.valueSize.toNat) (henc : InBounds lookup.enc) (hkey : key ≠ 0)
    (hplain : array.map.plain = true) (haux : array.aux = some authority)
    (hi : lookup.readU32 key < array.map.maxEntries)
    (hbounds : lookup.enc.boundsOk (array.valueAddress lookup.layout (lookup.readU32 key)).toNat
      array.map.valueSize.toNat = true) : Serves lookup array authority key := by
  refine ⟨hkey, hplain, haux, hroot, hi, ?_⟩
  have hentry := hroot.entry_le hl hi
  have haddress : (array.valueAddress lookup.layout (lookup.readU32 key)).toNat =
      array.valuesBase lookup.layout +
        array.elemSize.toNat * (lookup.readU32 key).toNat := by
    rw [BpfArray.valueAddress_toNat_mod lookup.layout hl hi]
    exact Nat.mod_eq_of_lt (by omega)
  have hbase : authority.root.base ≤
      (array.valueAddress lookup.layout (lookup.readU32 key)).toNat := by
    rw [haddress, hroot.base]
    unfold BpfArray.valuesBase
    omega
  have hinside := henc authority.root.base authority.root.length _ hbase (by omega)
  have hsize := array.map.valueSize.isLt
  have hlength : min array.map.valueSize.toNat (2 ^ 64 - 1) = array.map.valueSize.toNat :=
    Nat.min_eq_left (by omega)
  simp only [BpfArray.badValue, BpfArray.narrow, Capability.boundsSetExact, Capability.addressSet,
    Capability.lengthGet, hroot.tag, hroot.unsealed, hroot.perms, hinside, hbounds, hlength]
  simp
  omega

/-- A served key has representable bounds. -/
theorem Serves.boundsOk {lookup : LookupEnv} {array : BpfArray} {authority : ArrayAuthority}
    {key : BitVec 64} (h : Serves lookup array authority key) :
    lookup.enc.boundsOk (array.valueAddress lookup.layout (lookup.readU32 key)).toNat
      array.map.valueSize.toNat = true := h.representable.2

section PlainArray

variable {entries : Entries attr.maxEntries} (hplain : attr.plain = true)
  (hroot : AreaRoot (env.areaCap (env.mapAreaAlloc (env.arraySize attr entries.count))
    (env.arraySize attr entries.count)) (env.mapAreaAlloc (env.arraySize attr entries.count))
    (env.arraySize attr entries.count))
include hplain hroot

/-- The lookup asks for no more than was allocated. -/
theorem goodRoot_plainArray :
    (env.plainArray attr entries).created.toArray.GoodRoot env.layout
      ⟨env.areaCap (env.mapAreaAlloc (env.arraySize attr entries.count))
        (env.arraySize attr entries.count), env.arraySize attr entries.count⟩ where
  tag := hroot.tag
  unsealed := hroot.unsealed
  base := hroot.base
  address := hroot.address
  length := by
    have hlt := (env.arraySize attr entries.count).isLt
    rw [Capability.lengthGet, hroot.length]
    exact Nat.min_eq_left (by omega)
  perms := hroot.perms
  size := by
    rw [BpfArray.requiredSize_toNat, arraySize_toNat hplain]
    have hcount : attr.maxEntries.toNat ≤ entries.count.toNat := entries.le_count
    exact Nat.add_le_add_left (Nat.mul_le_mul_right _ hcount) _

omit hplain in
theorem top_plainArray :
    (env.areaCap (env.mapAreaAlloc (env.arraySize attr entries.count))
      (env.arraySize attr entries.count)).base +
    (env.areaCap (env.mapAreaAlloc (env.arraySize attr entries.count))
      (env.arraySize attr entries.count)).length ≤ 2 ^ 64 := by
  rw [hroot.base, hroot.length]
  exact hroot.top

end PlainArray

theorem inherited_plainArray (hchecked : attr.Checked) (entries : Entries attr.maxEntries) :
    (env.plainArray attr entries).created.toArray.Inherited where
  elemSize := hchecked.elemSize_toNat
  mask := entries.mask
  covers := entries.covers

/-- A lookup in `array` answers every key in range, unless the encoding cannot hold the value. -/
def AnswersAll (env : AllocEnv) (array : BpfArray) : Prop :=
  ∀ (readU32 : BitVec 64 → BitVec 32) (key : BitVec 64), key ≠ 0 →
    readU32 key < array.map.maxEntries →
      (cbpfArrayValueCap ⟨env.layout, env.enc, readU32⟩ (some array) key = .null ↔
        env.enc.boundsOk (array.valueAddress env.layout (readU32 key)).toNat
          array.map.valueSize.toNat = false)

theorem answersAll_plainArray {entries : Entries attr.maxEntries} (hplain : attr.plain = true)
    (hchecked : attr.Checked) (henc : InBounds env.enc)
    (hroot : AreaRoot (env.areaCap (env.mapAreaAlloc (env.arraySize attr entries.count))
      (env.arraySize attr entries.count)) (env.mapAreaAlloc (env.arraySize attr entries.count))
      (env.arraySize attr entries.count)) :
    AnswersAll env (env.plainArray attr entries).created.toArray := by
  obtain ⟨htype, hflags⟩ := Attr.plain_iff.mp hplain
  have hmap : (env.plainArray attr entries).created.toArray.map.plain = true :=
    BpfMap.plain_iff.mpr ⟨htype, rfl, hflags, rfl⟩
  intro readU32 key hkey hi
  constructor
  · intro hnull
    by_contra hbounds
    have hserves : Serves ⟨env.layout, env.enc, readU32⟩ _ _ key :=
      serves_of_boundsOk (goodRoot_plainArray hplain hroot) (inherited_plainArray hchecked entries)
        (top_plainArray hroot) hchecked.value_pos henc hkey hmap rfl hi
        (by simpa using hbounds)
    exact cbpfArrayValueCap_ne_null_iff.mpr ⟨_, hserves⟩ hnull
  · intro hbounds
    by_contra hne
    obtain ⟨authority, hserves⟩ := cbpfArrayValueCap_ne_null_iff.mp hne
    have := hserves.boundsOk
    rw [hbounds] at this
    cases this

/-! ### The end of a map -/

/-- A plain array's descriptor is disarmed and released, then its area. -/
theorem arrayMapFree_authority (env : AllocEnv) {array : ArrayObject} {object : BitVec 64}
    {content : ArrayAuthority} (htype : array.map.mapType = .array) (hflags : array.map.mapFlags = 0)
    (haux : array.aux = .authority object content) (hne : object ≠ 0) :
    arrayMapFree env array = ⟨{ array with aux := .null },
      some { content with root := content.root.tagClear },
      [.kfree object, .areaFree array.address]⟩ := by
  have hmap : mmapable array.map.mapFlags = false := by
    rw [hflags]
    rfl
  rw [arrayMapFree, htype, haux]
  simp only [hmap, kfree, beq_false_of_ne hne]
  rfl

/-- Only a plain array gets an authority. -/
theorem aux_arrayMapAlloc {array : ArrayObject} {log : List Event} (hplain : attr.plain = false)
    (h : arrayMapAlloc env attr = (.ok array, log)) : array.aux = .null := by
  simp only [arrayMapAlloc] at h
  split at h
  · cases h
  · rw [hplain] at h
    split at h
    · cases h
    · simp only [Bool.false_eq_true, if_false] at h
      split at h
      · cases h
      · cases h
        rfl

/-- What another kind of map keeps in `aux` is not released here. -/
theorem arrayMapFree_other (env : AllocEnv) {array : ArrayObject} (h : array.map.mapType ≠ .array) :
    (arrayMapFree env array).array = array ∧ (arrayMapFree env array).retired = none ∧
      ∀ object, .kfree object ∉ (arrayMapFree env array).log := by
  simp only [arrayMapFree]
  split
  · next htype _ => exact absurd htype h
  · exact ⟨rfl, rfl, by simp⟩

/-- A retained root serves its own map, and no way through the allocation leaks: the area comes with
its exact capability or not at all, the map with a root that every lookup accepts or not at all, and
the map's end releases the descriptor once. Other kinds of map neither get a descriptor nor lose
what they keep in `aux`. -/
theorem retained_root_lifecycle (env : AllocEnv) (attr : Attr) (hplain : attr.plain = true)
    (hchecked : attr.Checked) (henc : InBounds env.enc) :
    (∀ size old,
      ((cbpfMapAreaAlloc env size (some old)).area = 0 ∧
        (cbpfMapAreaAlloc env size (some old)).allocationCap = some .null ∧
        Balanced (cbpfMapAreaAlloc env size (some old)).log) ∨
      ((cbpfMapAreaAlloc env size (some old)).area ≠ 0 ∧
        (cbpfMapAreaAlloc env size (some old)).log =
          [.areaAlloc (cbpfMapAreaAlloc env size (some old)).area] ∧
        ∃ cap, (cbpfMapAreaAlloc env size (some old)).allocationCap = some cap ∧
          AreaRoot cap (cbpfMapAreaAlloc env size (some old)).area size)) ∧
    ((∃ error log, arrayMapAlloc env attr = (.error error, log) ∧ Balanced log) ∨
      ∃ array object authority,
        arrayMapAlloc env attr =
          (.ok array, [.areaAlloc array.address, .kzalloc object]) ∧
        array.aux = .authority object authority ∧
        array.created.toArray.badRoot env.layout authority = false ∧
        AnswersAll env array.created.toArray ∧
        (arrayMapFree env array.created).log = [.kfree object, .areaFree array.address] ∧
        (arrayMapFree env array.created).array.aux = .null ∧
        ∀ content ∈ (arrayMapFree env array.created).retired, content.root.tag = false) ∧
    (∀ other array log, other.plain = false →
      arrayMapAlloc env other = (.ok array, log) → array.aux = .null) ∧
    ∀ other : ArrayObject, other.map.mapType ≠ .array →
      (arrayMapFree env other).array = other ∧
        ∀ object, .kfree object ∉ (arrayMapFree env other).log := by
  refine ⟨?_, ?_, fun _ _ _ hother h => aux_arrayMapAlloc hother h, ?_⟩
  · intro size old
    rcases cbpfMapAreaAlloc_spec env size old with (h | h) | ⟨hne, hroot, h⟩
    · rw [h]
      exact .inl ⟨rfl, rfl, balanced_nil⟩
    · rw [h]
      exact .inl ⟨rfl, rfl, balanced_area _⟩
    · rw [h]
      exact .inr ⟨hne, rfl, _, rfl, hroot⟩
  · rcases arrayMapAlloc_plain env hplain with herror | ⟨entries, hroot, hne, halloc⟩
    · exact .inl herror
    · obtain ⟨htype, hflags⟩ := Attr.plain_iff.mp hplain
      have hfree : arrayMapFree env (env.plainArray attr entries).created = _ :=
        arrayMapFree_authority env htype hflags rfl hne
      refine .inr ⟨_, _, _, halloc, rfl,
        BpfArray.badRoot_eq_false_iff.mpr (goodRoot_plainArray hplain hroot),
        answersAll_plainArray hplain hchecked henc hroot, ?_⟩
      rw [hfree]
      refine ⟨rfl, rfl, ?_⟩
      rintro content ⟨⟩
      rfl
  · intro other hother
    obtain ⟨hsame, _, hlog⟩ := arrayMapFree_other env hother
    exact ⟨hsame, hlog⟩

/-- Two entries of seven bytes, as `sevenByteArray` has them. -/
def sevenByteAttr : Attr := ⟨.array, 0, 7, 2⟩

/-- Both allocators succeed, and the encoding holds any bounds. -/
def sevenByteEnv : AllocEnv where
  layout := keyOneEnv.layout
  enc := keyOneEnv.enc
  ddc := ⟨true, false, 0, 0, 2 ^ 64, 2 ^ 18 - 1⟩
  ddc_top := Nat.le_refl _
  mapAreaAlloc := fun _ => 0x10000
  mmapableAlloc := fun _ => 0
  vmallocAddr := id
  kzallocAuthority := 0x8000
  alignofAuthority := 16
  percpuFails := false
  entries := fun attr =>
    if h : attr.maxEntries ≤ 2 then
      some ⟨2, 1, h, ⟨1, rfl⟩, Nat.sub_le_sub_right (m := 2) h 1⟩
    else none
  otherSize := fun _ => 0

/-- The allocation succeeds with the array of the lookup's example, which answers and ends well. -/
theorem retained_root_lifecycle_sevenByte :
    ∃ array : ArrayObject, array.created.toArray = sevenByteArray ∧
      AnswersAll sevenByteEnv sevenByteArray ∧
      (arrayMapFree sevenByteEnv array.created).log = [.kfree 0x8000, .areaFree 0x10000] := by
  have hchecked : sevenByteAttr.Checked := ⟨by decide, by decide⟩
  have halloc : ∃ array log, arrayMapAlloc sevenByteEnv sevenByteAttr = (.ok array, log) ∧
      array.created.toArray = sevenByteArray ∧ array.address = 0x10000 ∧
      array.aux = .authority 0x8000 ⟨⟨true, false, 0x10000, 0x10000, 336, arrayDataPerms⟩, 336⟩ :=
    ⟨_, _, rfl, rfl, rfl, rfl⟩
  obtain ⟨array, log, hok, harray, haddress, haux⟩ := halloc
  obtain ⟨_, hlife, _, _⟩ := retained_root_lifecycle sevenByteEnv sevenByteAttr (by decide) hchecked
    (fun _ _ _ _ _ => rfl)
  rcases hlife with ⟨error, log', herror, _⟩ | ⟨array', object, authority, hok', haux', _, hanswers,
    hfree, _⟩
  · rw [hok] at herror
    cases herror
  · obtain rfl : array = array' := by
      rw [hok] at hok'
      cases hok'
      rfl
    rw [haux] at haux'
    cases haux'
    refine ⟨array, harray, harray ▸ hanswers, ?_⟩
    rw [hfree, haddress]

end Cbpf.Spatial
