import Cbpf.Lib.Cheri
import Cbpf.Lib.Stride

/-!
# Array maps with retained authority

The lookup of `src/linux/spatial/array-authority.patch`: a plain array map keeps the capability of
its allocation, and a lookup narrows it to the selected value. The inherited map layout and the
reading of kernel memory are parameters; every `u32` and `u64` of the source is a bit vector, so
that the arithmetic below wraps where the source's would.
-/

namespace Cbpf.Spatial

open Cheri

/-- `enum bpf_map_type`, the members that the extension tells apart. -/
inductive MapType where
  | array
  | percpuArray
  | progArray
  | other (type : Nat)
  deriving DecidableEq, Repr

/-- `map->ops`, compared with the address of one table. -/
inductive MapOps where
  | arrayMapOps
  | other (address : Nat)
  deriving DecidableEq, Repr

/-- The fields of `struct bpf_map` that a lookup reads. -/
structure BpfMap where
  mapType : MapType
  ops : MapOps
  mapFlags : BitVec 32
  /-- The BTF record of special fields, when there is one. -/
  record : Option Nat
  maxEntries : BitVec 32
  valueSize : BitVec 32
  deriving DecidableEq, Repr

/-- `struct cbpf_array_authority`. -/
structure ArrayAuthority where
  root : Capability
  size : BitVec 64
  deriving DecidableEq, Repr

/-- `struct bpf_array`, with the address it lives at. The array part of a map that is not an array
is never looked at. -/
structure BpfArray where
  map : BpfMap
  address : BitVec 64
  elemSize : BitVec 32
  indexMask : BitVec 32
  aux : Option ArrayAuthority
  deriving DecidableEq, Repr

/-- `sizeof(struct bpf_array)` and `offsetof(struct bpf_array, value)`. -/
structure Layout where
  sizeofArray : BitVec 64
  offsetofValue : BitVec 64
  offset_le : offsetofValue.toNat ≤ sizeofArray.toNat
  sizeof_lt : sizeofArray.toNat < 2 ^ 32

/-- What the lookup gets from the rest of the kernel and from the processor. -/
structure LookupEnv where
  layout : Layout
  enc : Encoding
  /-- `*(const u32 *)address` -/
  readU32 : BitVec 64 → BitVec 32

/-- `CBPF_ARRAY_DATA_PERMS` -/
def arrayDataPerms : Nat := permLoad ||| permStore ||| permGlobal

/-- `sizeof(*array) + (u64)map->max_entries * array->elem_size` -/
def BpfArray.requiredSize (l : Layout) (array : BpfArray) : BitVec 64 :=
  l.sizeofArray + array.map.maxEntries.setWidth 64 * array.elemSize.setWidth 64

/-- `(unsigned long)array->value + (u64)array->elem_size * (index & array->index_mask)` -/
def BpfArray.valueAddress (l : Layout) (array : BpfArray) (index : BitVec 32) : BitVec 64 :=
  array.address + l.offsetofValue +
    array.elemSize.setWidth 64 * (index &&& array.indexMask).setWidth 64

/-- The retained-root tests at the head of the lookup. -/
def BpfArray.badRoot (l : Layout) (array : BpfArray) (authority : ArrayAuthority) : Bool :=
  let cap := authority.root
  !cap.tag || cap.isSealed || cap.base != array.address.toNat ||
    cap.address != array.address.toNat || cap.lengthGet != authority.size.toNat ||
    cap.perms != arrayDataPerms || decide (authority.size < array.requiredSize l)

/-- The map profile that the extension serves. -/
def BpfMap.plain (map : BpfMap) : Bool :=
  map.mapType == .array && map.ops == .arrayMapOps && map.mapFlags == 0 && map.record.isNone

/-- The retained root, narrowed to `value`. -/
def BpfArray.narrow (enc : Encoding) (array : BpfArray) (root : Capability) (value : BitVec 64) :
    Capability :=
  (root.addressSet enc value.toNat).boundsSetExact enc array.map.valueSize.toNat

/-- The tests on the narrowed capability. -/
def BpfArray.badValue (array : BpfArray) (cap : Capability) (value : BitVec 64) : Bool :=
  !cap.tag || cap.isSealed || cap.base != value.toNat || cap.address != value.toNat ||
    cap.lengthGet != array.map.valueSize.toNat || cap.perms != arrayDataPerms

/-- `cbpf_array_value_cap`. -/
def cbpfArrayValueCap (env : LookupEnv) (map : Option BpfArray) (key : BitVec 64) : Capability :=
  match map with
  | none => .null
  | some array =>
    if key == 0 || !array.map.plain then .null
    else
      match array.aux with
      | none => .null
      | some authority =>
        if array.badRoot env.layout authority then .null
        else
          let index := env.readU32 key
          if index ≥ array.map.maxEntries then .null
          else
            let value := array.valueAddress env.layout index
            -- Lookup derives from the retained root; it never reconstructs DDC.
            let cap := array.narrow env.enc authority.root value
            if array.badValue cap value then .null else cap

/-- `bpf_cheri_map_lookup_impl`. The table of maps and `cheri_check_cap` are inherited. -/
def bpfCheriMapLookupImpl (env : LookupEnv)
    (mapFromToken : BitVec 64 → Capability → Option BpfArray)
    (checkCap : Capability → Nat → Nat → Bool)
    (mapToken : BitVec 64) (keyCap mapTableCap : Capability) : Capability :=
  let map := mapFromToken mapToken mapTableCap
  if map.isNone || !checkCap keyCap 4 permLoad then .null
  else cbpfArrayValueCap env map (BitVec.ofNat 64 keyCap.address)

theorem BpfMap.plain_iff {map : BpfMap} :
    map.plain = true ↔
      map.mapType = .array ∧ map.ops = .arrayMapOps ∧ map.mapFlags = 0 ∧ map.record = none := by
  simp [BpfMap.plain, and_assoc]

/-- What the inherited allocation and initialisation of an array map establish. -/
structure BpfArray.Inherited (array : BpfArray) : Prop where
  /-- `round_up(value_size, 8)`, without wrap -/
  elemSize : array.elemSize.toNat = (array.map.valueSize.toNat + 7) / 8 * 8
  mask : ∃ k, array.indexMask.toNat = 2 ^ k - 1
  covers : array.map.maxEntries.toNat - 1 ≤ array.indexMask.toNat

namespace BpfArray

variable {array : BpfArray}

theorem Inherited.valueSize_le (h : array.Inherited) :
    array.map.valueSize.toNat ≤ array.elemSize.toNat := by
  have := h.elemSize
  omega

/-- The mask changes no index below the number of entries. -/
theorem Inherited.mask_index (h : array.Inherited) {index : BitVec 32}
    (hi : index < array.map.maxEntries) : index &&& array.indexMask = index := by
  obtain ⟨k, hk⟩ := h.mask
  have hlt : index.toNat < array.map.maxEntries.toNat := hi
  have hcovers := h.covers
  have hpos : 0 < 2 ^ k := Nat.two_pow_pos k
  apply BitVec.eq_of_toNat_eq
  rw [BitVec.toNat_and, hk, Nat.and_two_pow_sub_one_eq_mod]
  exact Nat.mod_eq_of_lt (by omega)

/-- A product of two `u32` values plus a `u32` value fits a `u64`. -/
theorem mul_add_lt {a b c : Nat} (ha : a < 2 ^ 32) (hb : b < 2 ^ 32) (hc : c < 2 ^ 32) :
    c + a * b < 2 ^ 64 := by
  have : a * b ≤ (2 ^ 32 - 1) * (2 ^ 32 - 1) :=
    Nat.mul_le_mul (Nat.le_sub_one_of_lt ha) (Nat.le_sub_one_of_lt hb)
  omega

theorem toNat_setWidth (x : BitVec 32) : (x.setWidth 64).toNat = x.toNat := by
  rw [BitVec.toNat_setWidth]
  exact Nat.mod_eq_of_lt (by have := x.isLt; omega)

/-- Products of two `u32` values are exact. -/
theorem toNat_mul (x y : BitVec 32) :
    (x.setWidth 64 * y.setWidth 64).toNat = x.toNat * y.toNat := by
  rw [BitVec.toNat_mul, toNat_setWidth, toNat_setWidth]
  have := mul_add_lt x.isLt y.isLt (c := 0) (by omega)
  exact Nat.mod_eq_of_lt (by omega)

/-- The size that the bound check demands never wraps. -/
theorem requiredSize_toNat (l : Layout) (array : BpfArray) :
    (array.requiredSize l).toNat =
      l.sizeofArray.toNat + array.map.maxEntries.toNat * array.elemSize.toNat := by
  rw [requiredSize, BitVec.toNat_add, toNat_mul]
  exact Nat.mod_eq_of_lt (mul_add_lt array.map.maxEntries.isLt array.elemSize.isLt l.sizeof_lt)

/-- What the tests at the head of the lookup establish about the retained root. -/
structure GoodRoot (l : Layout) (array : BpfArray) (authority : ArrayAuthority) : Prop where
  tag : authority.root.tag = true
  unsealed : authority.root.isSealed = false
  base : authority.root.base = array.address.toNat
  address : authority.root.address = array.address.toNat
  length : authority.root.lengthGet = authority.size.toNat
  perms : authority.root.perms = arrayDataPerms
  size : (array.requiredSize l).toNat ≤ authority.size.toNat

theorem badRoot_eq_false_iff {l : Layout} {authority : ArrayAuthority} :
    array.badRoot l authority = false ↔ array.GoodRoot l authority := by
  simp only [badRoot, Bool.or_eq_false_iff, Bool.not_eq_false', bne_eq_false_iff_eq,
    decide_eq_false_iff_not, BitVec.not_lt, BitVec.le_def, and_assoc]
  exact ⟨fun ⟨ht, hs, hb, ha, hl, hp, hz⟩ => ⟨ht, hs, hb, ha, hl, hp, hz⟩,
    fun h => ⟨h.tag, h.unsealed, h.base, h.address, h.length, h.perms, h.size⟩⟩

/-- A good root spans the header and every stride. -/
theorem GoodRoot.spans {l : Layout} {authority : ArrayAuthority}
    (h : array.GoodRoot l authority) :
    l.sizeofArray.toNat + array.map.maxEntries.toNat * array.elemSize.toNat ≤
      authority.root.length := by
  rw [← requiredSize_toNat]
  calc (array.requiredSize l).toNat ≤ authority.size.toNat := h.size
    _ = authority.root.lengthGet := h.length.symm
    _ ≤ authority.root.length := Nat.min_le_left _ _

/-- Where the values start, as a mathematical integer. -/
def valuesBase (l : Layout) (array : BpfArray) : Nat :=
  array.address.toNat + l.offsetofValue.toNat

/-- The logical bytes of entry `i`. -/
def entryBytes (l : Layout) (array : BpfArray) (i : Nat) : Set Nat :=
  Stride.slot (array.valuesBase l) array.elemSize.toNat array.map.valueSize.toNat i

/-- The bytes between entry `i` and entry `i + 1`. -/
def entryPadding (l : Layout) (array : BpfArray) (i : Nat) : Set Nat :=
  Stride.padding (array.valuesBase l) array.elemSize.toNat array.map.valueSize.toNat i

/-- `struct bpf_array` up to its flexible member. -/
def headerBytes (l : Layout) (array : BpfArray) : Set Nat :=
  Set.Ico array.address.toNat (array.valuesBase l)

/-- The address that the lookup computes, whether or not it wraps. -/
theorem valueAddress_toNat_mod (l : Layout) {index : BitVec 32} (h : array.Inherited)
    (hi : index < array.map.maxEntries) :
    (array.valueAddress l index).toNat =
      (array.valuesBase l + array.elemSize.toNat * index.toNat) % 2 ^ 64 := by
  rw [valueAddress, h.mask_index hi, BitVec.toNat_add, BitVec.toNat_add, toNat_mul, valuesBase,
    Nat.mod_add_mod]

/-- No entry ends beyond a good root. -/
theorem GoodRoot.entry_le {l : Layout} {authority : ArrayAuthority} {i : Nat}
    (h : array.GoodRoot l authority) (hl : array.Inherited)
    (hi : i < array.map.maxEntries.toNat) :
    array.valuesBase l + array.elemSize.toNat * i + array.map.valueSize.toNat ≤
      authority.root.base + authority.root.length := by
  have hspan := h.spans
  have hoffset := l.offset_le
  have hend := Stride.slot_end_le (array.valuesBase l) hl.valueSize_le hi
  rw [Nat.mul_comm] at hspan
  rw [h.base]
  unfold valuesBase at hend ⊢
  omega

/-- An address that does not fall below the root did not wrap. -/
theorem GoodRoot.valueAddress_toNat {l : Layout} {authority : ArrayAuthority} {index : BitVec 32}
    (h : array.GoodRoot l authority) (hl : array.Inherited)
    (htop : authority.root.base + authority.root.length ≤ 2 ^ 64)
    (hi : index < array.map.maxEntries)
    (hbase : authority.root.base ≤ (array.valueAddress l index).toNat) :
    (array.valueAddress l index).toNat =
      array.valuesBase l + array.elemSize.toNat * index.toNat := by
  have hentry := h.entry_le hl hi
  have hsmall := mul_add_lt array.elemSize.isLt index.isLt
    (Nat.lt_of_le_of_lt l.offset_le l.sizeof_lt)
  rw [valueAddress_toNat_mod l hl hi] at hbase ⊢
  rw [h.base] at hbase
  apply Nat.mod_eq_of_lt
  -- Only the end of the address space itself could wrap, and then to 0, below the root.
  by_contra hge
  have heq : array.valuesBase l + array.elemSize.toNat * index.toNat = 2 ^ 64 := by omega
  rw [heq, Nat.mod_self] at hbase
  unfold valuesBase at heq
  omega

end BpfArray

/-! ### What a lookup returns -/

/-- Can the encoding hold the capability of the value at `value`? -/
def Representable (enc : Encoding) (array : BpfArray) (root : Capability) (value : BitVec 64) :
    Prop :=
  enc.addressOk root.base root.length value.toNat = true ∧
    enc.boundsOk value.toNat array.map.valueSize.toNat = true

/-- Everything that must hold for a lookup to return a capability. -/
structure Serves (env : LookupEnv) (array : BpfArray) (authority : ArrayAuthority)
    (key : BitVec 64) : Prop where
  key_ne : key ≠ 0
  plain : array.map.plain = true
  aux : array.aux = some authority
  root : array.GoodRoot env.layout authority
  index : env.readU32 key < array.map.maxEntries
  exact : array.badValue
    (array.narrow env.enc authority.root (array.valueAddress env.layout (env.readU32 key)))
    (array.valueAddress env.layout (env.readU32 key)) = false

variable {env : LookupEnv} {array : BpfArray} {authority : ArrayAuthority} {key : BitVec 64}

theorem tag_of_badValue {cap : Capability} {value : BitVec 64}
    (h : array.badValue cap value = false) : cap.tag = true := by
  simp only [BpfArray.badValue, Bool.or_eq_false_iff, Bool.not_eq_false'] at h
  exact h.1.1.1.1.1

/-- A served lookup returns the narrowed root. -/
theorem Serves.cap_eq (h : Serves env array authority key) :
    cbpfArrayValueCap env (some array) key =
      array.narrow env.enc authority.root
        (array.valueAddress env.layout (env.readU32 key)) := by
  have hroot := BpfArray.badRoot_eq_false_iff.mpr h.root
  have hindex : ¬ env.readU32 key ≥ array.map.maxEntries := BitVec.not_le.mpr h.index
  have hkey : (key == 0) = false := by simpa using h.key_ne
  simp only [cbpfArrayValueCap, hkey, h.plain, h.aux, hroot, hindex, h.exact, Bool.not_true,
    Bool.or_false, Bool.false_eq_true, if_false]

theorem ne_null_of_tag {cap : Capability} (h : cap.tag = true) : cap ≠ .null := by
  rintro rfl
  cases h

/-- A lookup returns a capability exactly when it serves the key. -/
theorem cbpfArrayValueCap_ne_null_iff :
    cbpfArrayValueCap env (some array) key ≠ .null ↔
      ∃ authority, Serves env array authority key := by
  constructor
  · intro h
    simp only [cbpfArrayValueCap] at h
    split at h
    · exact absurd rfl h
    · next hkey =>
      split at h
      · exact absurd rfl h
      · next authority haux =>
        split at h
        · exact absurd rfl h
        · next hroot =>
          split at h
          · exact absurd rfl h
          · next hindex =>
            split at h
            · exact absurd rfl h
            · next hexact =>
              simp only [Bool.or_eq_true, beq_iff_eq, Bool.not_eq_true', not_or,
                Bool.not_eq_false] at hkey
              exact ⟨authority, hkey.1, hkey.2, haux,
                BpfArray.badRoot_eq_false_iff.mp (by simpa using hroot),
                BitVec.not_le.mp hindex, by simpa using hexact⟩
  · rintro ⟨authority, h⟩
    rw [h.cap_eq]
    exact ne_null_of_tag (tag_of_badValue h.exact)

/-- What a returned capability grants, and what the arithmetic behind it did. -/
structure Selected (l : Layout) (array : BpfArray) (authority : ArrayAuthority)
    (index : BitVec 32) (cap : Capability) : Prop where
  index_lt : index.toNat < array.map.maxEntries.toNat
  tag : cap.tag = true
  unsealed : cap.isSealed = false
  perms : cap.perms = arrayDataPerms
  address : cap.address = array.valuesBase l + array.elemSize.toNat * index.toNat
  bytes : cap.bytes = Set.Ico (array.valuesBase l + array.elemSize.toNat * index.toNat)
    (array.valuesBase l + array.elemSize.toNat * index.toNat + array.map.valueSize.toNat)
  within : cap.bytes ⊆ authority.root.bytes
  header : Disjoint cap.bytes (array.headerBytes l)
  padding : ∀ j, Disjoint cap.bytes (array.entryPadding l j)
  others : ∀ j, j ≠ index.toNat → Disjoint cap.bytes (array.entryBytes l j)

/-- The `u64` computations of a lookup are exact, and the interval of the value does not run over
the end of the address space. -/
structure NoWrap (l : Layout) (array : BpfArray) (index : BitVec 32) : Prop where
  required : (array.requiredSize l).toNat =
    l.sizeofArray.toNat + array.map.maxEntries.toNat * array.elemSize.toNat
  offset : (array.elemSize.setWidth 64 * (index &&& array.indexMask).setWidth 64).toNat =
    array.elemSize.toNat * index.toNat
  values : (array.address + l.offsetofValue).toNat = array.valuesBase l
  value : (array.valueAddress l index).toNat =
    array.valuesBase l + array.elemSize.toNat * index.toNat
  /-- the end of the value's interval -/
  top : (array.valueAddress l index).toNat + array.map.valueSize.toNat ≤ 2 ^ 64

namespace Serves

variable (h : Serves env array authority key)
include h

theorem narrow_tag :
    (array.narrow env.enc authority.root
      (array.valueAddress env.layout (env.readU32 key))).tag = true :=
  tag_of_badValue h.exact

theorem root_base_le :
    authority.root.base ≤ (array.valueAddress env.layout (env.readU32 key)).toNat :=
  (within_boundsSetExact h.narrow_tag).base

theorem value_toNat (hl : array.Inherited)
    (htop : authority.root.base + authority.root.length ≤ 2 ^ 64) :
    (array.valueAddress env.layout (env.readU32 key)).toNat =
      array.valuesBase env.layout + array.elemSize.toNat * (env.readU32 key).toNat :=
  h.root.valueAddress_toNat hl htop h.index h.root_base_le

theorem representable :
    Representable env.enc array authority.root
      (array.valueAddress env.layout (env.readU32 key)) := by
  have htag := h.narrow_tag
  have haddr := tag_of_boundsSetExact htag
  simp only [BpfArray.narrow, Capability.boundsSetExact, Bool.and_eq_true] at htag
  simp only [Capability.addressSet, Bool.and_eq_true] at haddr
  exact ⟨haddr.1.2, htag.2⟩

/-- The bytes of the returned capability are those of its entry. -/
theorem bytes_eq (hl : array.Inherited)
    (htop : authority.root.base + authority.root.length ≤ 2 ^ 64) :
    (cbpfArrayValueCap env (some array) key).bytes =
      array.entryBytes env.layout (env.readU32 key).toNat := by
  rw [h.cap_eq]
  change Set.Ico (array.valueAddress env.layout (env.readU32 key)).toNat
    ((array.valueAddress env.layout (env.readU32 key)).toNat + array.map.valueSize.toNat) = _
  rw [h.value_toNat hl htop]
  rfl

theorem selected (hl : array.Inherited)
    (htop : authority.root.base + authority.root.length ≤ 2 ^ 64) :
    Selected env.layout array authority (env.readU32 key)
      (cbpfArrayValueCap env (some array) key) := by
  have hbytes := h.bytes_eq hl htop
  refine ⟨h.index, ?_, ?_, ?_, ?_, ?_, ?_, ?_, ?_, ?_⟩
  · rw [h.cap_eq]
    exact h.narrow_tag
  · rw [h.cap_eq]
    exact h.root.unsealed
  · rw [h.cap_eq]
    exact h.root.perms
  · rw [h.cap_eq]
    exact h.value_toNat hl htop
  · exact hbytes
  · rw [h.cap_eq]
    exact ((within_boundsSetExact h.narrow_tag).trans (within_addressSet _ _ _)).bytes_subset
  · rw [hbytes]
    exact (Stride.before_disjoint_slot _ _ _ _ _).symm
  · intro j
    rw [hbytes]
    exact Stride.slot_disjoint_padding _ _ _ _ j
  · intro j hj
    rw [hbytes]
    exact Stride.slot_disjoint_slot _ hl.valueSize_le (Ne.symm hj)

theorem noWrap (hl : array.Inherited)
    (htop : authority.root.base + authority.root.length ≤ 2 ^ 64) :
    NoWrap env.layout array (env.readU32 key) := by
  have hvalue := h.value_toNat hl htop
  have hentry := h.root.entry_le hl h.index
  have hlt := (array.valueAddress env.layout (env.readU32 key)).isLt
  refine ⟨array.requiredSize_toNat _, ?_, ?_, hvalue, by omega⟩
  · rw [hl.mask_index h.index, BpfArray.toNat_mul]
  · rw [BitVec.toNat_add]
    exact Nat.mod_eq_of_lt (by unfold BpfArray.valuesBase at hvalue; omega)

end Serves

/-- Selected-value containment. A returned capability grants exactly the logical bytes of the
entry that its key names: inside the retained root, apart from the header, the padding and every
other entry, and in particular from what any other lookup of the same array returns. Otherwise the
lookup returns the null capability, and the helper around it never returns anything else. -/
theorem cbpfArrayValueCap_contained (env : LookupEnv) (array : BpfArray) (key : BitVec 64)
    (hl : array.Inherited)
    (htop : ∀ authority ∈ array.aux,
      authority.root.base + authority.root.length ≤ 2 ^ 64) :
    (cbpfArrayValueCap env (some array) key ≠ .null →
      ∃ authority ∈ array.aux,
        Selected env.layout array authority (env.readU32 key)
          (cbpfArrayValueCap env (some array) key) ∧
        NoWrap env.layout array (env.readU32 key) ∧
        ∀ (memory : BitVec 64 → BitVec 32) (other : BitVec 64),
          memory other ≠ env.readU32 key →
          cbpfArrayValueCap { env with readU32 := memory } (some array) other ≠ .null →
          Disjoint (cbpfArrayValueCap env (some array) key).bytes
            (cbpfArrayValueCap { env with readU32 := memory } (some array) other).bytes) ∧
    (key = 0 ∨ array.map.mapType ≠ .array ∨ array.map.ops ≠ .arrayMapOps ∨
        array.map.mapFlags ≠ 0 ∨ array.map.record ≠ none ∨ array.aux = none ∨
        (∃ authority ∈ array.aux, ¬ array.GoodRoot env.layout authority) ∨
        array.map.maxEntries.toNat ≤ (env.readU32 key).toNat ∨
        (∃ authority ∈ array.aux, ¬ Representable env.enc array authority.root
          (array.valueAddress env.layout (env.readU32 key))) →
      cbpfArrayValueCap env (some array) key = .null) ∧
    cbpfArrayValueCap env none key = .null ∧
    ∀ mapFromToken checkCap mapToken keyCap mapTableCap,
      bpfCheriMapLookupImpl env mapFromToken checkCap mapToken keyCap mapTableCap ≠ .null →
      checkCap keyCap 4 permLoad = true ∧ ∃ map, mapFromToken mapToken mapTableCap = some map ∧
        bpfCheriMapLookupImpl env mapFromToken checkCap mapToken keyCap mapTableCap =
          cbpfArrayValueCap env (some map) (BitVec.ofNat 64 keyCap.address) := by
  refine ⟨?_, ?_, rfl, ?_⟩
  · intro hne
    obtain ⟨authority, h⟩ := cbpfArrayValueCap_ne_null_iff.mp hne
    have htop := htop authority h.aux
    refine ⟨authority, h.aux, h.selected hl htop, h.noWrap hl htop, ?_⟩
    intro memory other hother hne'
    obtain ⟨authority', h'⟩ := cbpfArrayValueCap_ne_null_iff.mp hne'
    obtain rfl : authority' = authority := Option.some.inj (h'.aux.symm.trans h.aux)
    rw [h'.bytes_eq hl htop]
    exact (h.selected hl htop).others _ fun heq => hother (BitVec.eq_of_toNat_eq heq)
  · intro hreject
    by_contra hne
    obtain ⟨authority, h⟩ := cbpfArrayValueCap_ne_null_iff.mp hne
    obtain ⟨htype, hops, hflags, hrecord⟩ := BpfMap.plain_iff.mp h.plain
    have hsame : ∀ a ∈ array.aux, a = authority := fun a ha =>
      Option.some.inj (Option.mem_def.mp ha ▸ h.aux)
    rcases hreject with hr | hr | hr | hr | hr | hr | ⟨a, ha, hr⟩ | hr | ⟨a, ha, hr⟩
    · exact h.key_ne hr
    · exact hr htype
    · exact hr hops
    · exact hr hflags
    · exact hr hrecord
    · exact absurd (hr.symm.trans h.aux) nofun
    · exact hr (hsame a ha ▸ h.root)
    · exact absurd h.index (BitVec.not_lt.mpr hr)
    · exact hr (hsame a ha ▸ h.representable)
  · intro mapFromToken checkCap mapToken keyCap mapTableCap
    unfold bpfCheriMapLookupImpl
    cases hmap : mapFromToken mapToken mapTableCap with
    | none => exact fun hne => absurd rfl hne
    | some map =>
      cases hcheck : checkCap keyCap 4 permLoad with
      | false => exact fun hne => absurd (by simp) hne
      | true => exact fun _ => ⟨rfl, map, rfl, by simp⟩

/-- A two-entry array of seven-byte values, stored eight bytes apart after a 320-byte header. -/
def sevenByteArray : BpfArray where
  map := ⟨.array, .arrayMapOps, 0, none, 2, 7⟩
  address := 0x10000
  elemSize := 8
  indexMask := 1
  aux := some ⟨⟨true, false, 0x10000, 0x10000, 336, arrayDataPerms⟩, 336⟩

/-- An encoding that holds any bounds, and memory that reads 1 everywhere. -/
def keyOneEnv : LookupEnv where
  layout := ⟨320, 320, by decide, by decide⟩
  enc := ⟨fun _ _ => true, fun _ _ _ => true⟩
  readU32 := fun _ => 1

/-- Key 1 selects the seven bytes of the second entry, apart from the header. -/
theorem cbpfArrayValueCap_contained_keyOne :
    cbpfArrayValueCap keyOneEnv (some sevenByteArray) 0x8000 =
      ⟨true, false, 0x10148, 0x10148, 7, arrayDataPerms⟩ ∧
    Disjoint (cbpfArrayValueCap keyOneEnv (some sevenByteArray) 0x8000).bytes
      (sevenByteArray.headerBytes keyOneEnv.layout) := by
  have hcap : cbpfArrayValueCap keyOneEnv (some sevenByteArray) 0x8000 =
      ⟨true, false, 0x10148, 0x10148, 7, arrayDataPerms⟩ := by decide
  have hl : sevenByteArray.Inherited := ⟨by decide, ⟨1, by decide⟩, by decide⟩
  have htop : ∀ authority ∈ sevenByteArray.aux,
      authority.root.base + authority.root.length ≤ 2 ^ 64 := by
    rintro authority ⟨⟩
    decide
  obtain ⟨authority, -, hselected, -⟩ :=
    (cbpfArrayValueCap_contained keyOneEnv sevenByteArray 0x8000 hl htop).1 (by rw [hcap]; decide)
  exact ⟨hcap, hselected.header⟩

end Cbpf.Spatial
