import AetherVfs.Lib.LittleEndian
import AetherVfs.Lib.Slice
import Mathlib

/-!
# The layout of a ring in its segment

`vfs-ipc/src/ring.rs` and `layout.rs`: `init` writes the ring header and marks every slot free,
`open` reads the header back and checks it against the length of the segment. Sizes are computed
in 64 bits and kept in 32; the release build wraps. The segment starts at an address that is a
multiple of eight, so an offset is aligned when it is one.
-/

namespace AetherVfs.Ipc.Framing

open LittleEndian Slice

def magic : UInt32 := 0x56464950
def version : UInt32 := 4
def stFree : UInt32 := 0

def ringHeaderSize : ℕ := 48
def slotHeaderSize : ℕ := 32

/-! Offsets within the headers. -/

def rhMagic : ℕ := 0
def rhVersion : ℕ := 4
def rhSlotCount : ℕ := 8
def rhSlotStride : ℕ := 12
def rhPayloadCap : ℕ := 16
def rhWorkerHint : ℕ := 20
def rhReqSeq : ℕ := 24
def rhSubmitSeq : ℕ := 32
def rhRegGen : ℕ := 40

def shState : ℕ := 0

abbrev SharedSeg := List UInt8

/-- `write_bytes`: a write that is not within the segment does nothing. -/
def writeBytes (seg : SharedSeg) (off : ℕ) (data : List UInt8) : SharedSeg :=
  (put off data seg).getD seg

def writeU32 (seg : SharedSeg) (off : ℕ) (v : UInt32) : SharedSeg :=
  writeBytes seg off (bytes 4 v.toNat)

def writeU64 (seg : SharedSeg) (off : ℕ) (v : UInt64) : SharedSeg :=
  writeBytes seg off (bytes 8 v.toNat)

def readU32 (seg : SharedSeg) (off : ℕ) : Option UInt32 :=
  if off + 4 ≤ seg.length then some (UInt32.ofNat (value (range off 4 seg))) else none

structure Geom where
  slotCount : UInt32
  slotStride : UInt32
  payloadCap : UInt32
  deriving DecidableEq

def Geom.slotOff (g : Geom) (slot : ℕ) : ℕ := ringHeaderSize + slot * g.slotStride.toNat

def Geom.payloadOff (g : Geom) (slot : ℕ) : ℕ := g.slotOff slot + slotHeaderSize

def align8 (n : UInt64) : UInt64 := (n + 7) &&& ~~~7

def writeHeader (seg : SharedSeg) (g : Geom) : SharedSeg :=
  let seg := writeU32 seg rhMagic magic
  let seg := writeU32 seg rhVersion version
  let seg := writeU32 seg rhSlotCount g.slotCount
  let seg := writeU32 seg rhSlotStride g.slotStride
  let seg := writeU32 seg rhPayloadCap g.payloadCap
  let seg := writeU32 seg rhWorkerHint 0
  let seg := writeU64 seg rhReqSeq 0
  let seg := writeU32 seg rhSubmitSeq 0
  writeU64 seg rhRegGen 0

def freeSlots (seg : SharedSeg) (g : Geom) (slots : List ℕ) : SharedSeg :=
  slots.foldl (fun seg s => writeU32 seg (g.slotOff s + shState) stFree) seg

/-- `init`; there is no result when the ring does not fit, `IpcError::Layout`. -/
def init (seg : SharedSeg) (slotCount payloadCap : UInt32) : Option (Geom × SharedSeg) :=
  let stride := align8 (.ofNat slotHeaderSize + payloadCap.toUInt64)
  let total : UInt64 := .ofNat ringHeaderSize + slotCount.toUInt64 * stride
  if seg.length < total.toNat then none
  else
    let geom : Geom := ⟨slotCount, stride.toUInt32, payloadCap⟩
    some (geom, freeSlots (writeHeader seg geom) geom (List.range slotCount.toNat))

/-- `open`; there is no result when the header is not that of a ring which fits,
`IpcError::Layout`. -/
def «open» (seg : SharedSeg) : Option Geom :=
  if seg.length < ringHeaderSize then none
  else if readU32 seg rhMagic ≠ some magic ∨ readU32 seg rhVersion ≠ some version then none
  else do
    let slotCount ← readU32 seg rhSlotCount
    let slotStride ← readU32 seg rhSlotStride
    let payloadCap ← readU32 seg rhPayloadCap
    if slotStride.toUInt64 ≠ align8 (.ofNat slotHeaderSize + payloadCap.toUInt64) then none
    else
      let total : UInt64 := .ofNat ringHeaderSize + slotCount.toUInt64 * slotStride.toUInt64
      if seg.length < total.toNat then none else some ⟨slotCount, slotStride, payloadCap⟩

/-! ## Reading back -/

@[simp] theorem length_writeBytes (seg : SharedSeg) (off : ℕ) (data : List UInt8) :
    (writeBytes seg off data).length = seg.length := by
  unfold writeBytes put
  split_ifs with h <;> simp

variable {seg : SharedSeg} {off : ℕ} {data : List UInt8}

theorem range_writeBytes_self (h : off + data.length ≤ seg.length) :
    range off data.length (writeBytes seg off data) = data := by
  rw [writeBytes, put, if_pos h, Option.getD_some, range_overwrite_self h]

theorem range_writeBytes_of_disjoint {p n : ℕ} (h : p + n ≤ off ∨ off + data.length ≤ p) :
    range p n (writeBytes seg off data) = range p n seg := by
  unfold writeBytes put
  split_ifs
  · exact range_overwrite_of_disjoint seg h
  · rfl

theorem readU32_writeU32_self (v : UInt32) (h : off + 4 ≤ seg.length) :
    readU32 (writeU32 seg off v) off = some v := by
  have hlen : (bytes 4 v.toNat).length = 4 := length_bytes 4 _
  have hrange : range off 4 (writeU32 seg off v) = bytes 4 v.toNat := by
    have := @range_writeBytes_self seg off (bytes 4 v.toNat) (by rw [hlen]; exact h)
    rwa [hlen] at this
  rw [readU32, hrange, value_bytes_of_lt v.toNat_lt, UInt32.ofNat_toNat, writeU32,
    length_writeBytes, if_pos h]

theorem readU32_writeBytes_of_disjoint {p : ℕ} (h : p + 4 ≤ off ∨ off + data.length ≤ p) :
    readU32 (writeBytes seg off data) p = readU32 seg p := by
  rw [readU32, readU32, length_writeBytes, range_writeBytes_of_disjoint h]

@[simp] theorem length_writeHeader (seg : SharedSeg) (g : Geom) :
    (writeHeader seg g).length = seg.length := by
  simp [writeHeader, writeU32, writeU64]

@[simp] theorem length_freeSlots (seg : SharedSeg) (g : Geom) (slots : List ℕ) :
    (freeSlots seg g slots).length = seg.length := by
  induction slots generalizing seg with
  | nil => rfl
  | cons s slots ih => exact (ih _).trans (length_writeBytes _ _ _)

theorem readU32_freeSlots {p : ℕ} (hp : p + 4 ≤ ringHeaderSize) (seg : SharedSeg) (g : Geom)
    (slots : List ℕ) : readU32 (freeSlots seg g slots) p = readU32 seg p := by
  induction slots generalizing seg with
  | nil => rfl
  | cons s slots ih =>
    refine (ih _).trans (readU32_writeBytes_of_disjoint (Or.inl ?_))
    unfold Geom.slotOff
    omega

structure HasHeader (seg : SharedSeg) (g : Geom) : Prop where
  magic : readU32 seg rhMagic = some magic
  version : readU32 seg rhVersion = some version
  slotCount : readU32 seg rhSlotCount = some g.slotCount
  slotStride : readU32 seg rhSlotStride = some g.slotStride
  payloadCap : readU32 seg rhPayloadCap = some g.payloadCap

theorem hasHeader_writeHeader (h : ringHeaderSize ≤ seg.length) (g : Geom) :
    HasHeader (writeHeader seg g) g := by
  unfold ringHeaderSize at h
  have hself (seg' : SharedSeg) (hlen : seg'.length = seg.length) (off : ℕ) (v : UInt32)
      (hoff : off + 4 ≤ 48) : readU32 (writeU32 seg' off v) off = some v :=
    readU32_writeU32_self v (by omega)
  have hu32 (seg' : SharedSeg) (p off : ℕ) (v : UInt32) (hoff : p + 4 ≤ off) :
      readU32 (writeU32 seg' off v) p = readU32 seg' p :=
    readU32_writeBytes_of_disjoint (Or.inl hoff)
  have hu64 (seg' : SharedSeg) (p off : ℕ) (v : UInt64) (hoff : p + 4 ≤ off) :
      readU32 (writeU64 seg' off v) p = readU32 seg' p :=
    readU32_writeBytes_of_disjoint (Or.inl hoff)
  constructor <;> simp (disch := decide) only [writeHeader, hu64, hu32] <;>
    exact hself _ (by simp [writeU32]) _ _ (by decide)

theorem HasHeader.freeSlots {g : Geom} (h : HasHeader seg g) (slots : List ℕ) :
    HasHeader (freeSlots seg g slots) g where
  magic := (readU32_freeSlots (by decide) seg g slots).trans h.magic
  version := (readU32_freeSlots (by decide) seg g slots).trans h.version
  slotCount := (readU32_freeSlots (by decide) seg g slots).trans h.slotCount
  slotStride := (readU32_freeSlots (by decide) seg g slots).trans h.slotStride
  payloadCap := (readU32_freeSlots (by decide) seg g slots).trans h.payloadCap

theorem open_eq {g : Geom} (hlen : ringHeaderSize ≤ seg.length)
    (h : HasHeader seg g) :
    «open» seg =
      if g.slotStride.toUInt64 ≠ align8 (.ofNat slotHeaderSize + g.payloadCap.toUInt64) ∨
        seg.length <
          (UInt64.ofNat ringHeaderSize + g.slotCount.toUInt64 * g.slotStride.toUInt64).toNat
      then none else some g := by
  rw [«open», if_neg (not_lt.mpr hlen), if_neg (by simp [h.magic, h.version]), h.slotCount,
    h.slotStride, h.payloadCap]
  simp only [Option.bind_eq_bind, Option.bind_some]
  by_cases hstride : g.slotStride.toUInt64 ≠ align8 (.ofNat slotHeaderSize + g.payloadCap.toUInt64)
  · rw [if_pos hstride, if_pos (Or.inl hstride)]
  · rw [if_neg hstride]
    exact if_congr (by rw [or_iff_right hstride]) rfl rfl

/-! ## The words -/

theorem align8_toNat {n : UInt64} (h : n.toNat + 7 < 2 ^ 64) :
    (align8 n).toNat = (n.toNat + 7) / 8 * 8 := by
  have hadd : (n + 7).toNat = n.toNat + 7 := by
    rw [UInt64.toNat_add]
    exact Nat.mod_eq_of_lt h
  have hmask : (~~~7 : UInt64).toNat = (2 ^ 61 - 1) * 2 ^ 3 := rfl
  rw [align8, UInt64.toNat_and, hadd, hmask]
  apply Nat.eq_of_testBit_eq
  intro i
  have hmul : (n.toNat + 7) / 8 * 8 = (n.toNat + 7) / 2 ^ 3 * 2 ^ 3 := rfl
  rw [hmul, Nat.testBit_and, Nat.testBit_mul_two_pow, Nat.testBit_mul_two_pow,
    Nat.testBit_div_two_pow, Nat.testBit_two_pow_sub_one]
  by_cases hlow : 3 ≤ i
  · rw [Nat.sub_add_cancel hlow]
    by_cases hhigh : i - 3 < 61
    · simp [hlow, hhigh]
    · have hbit : (n.toNat + 7).testBit i = false :=
        Nat.testBit_lt_two_pow (h.trans_le (Nat.pow_le_pow_right (by omega) (by omega)))
      rw [hbit, Bool.false_and, Bool.and_false]
  · simp [hlow]

theorem stride_toNat (payloadCap : UInt32) :
    (align8 (.ofNat slotHeaderSize + payloadCap.toUInt64)).toNat =
      (payloadCap.toNat + 39) / 8 * 8 := by
  have hcap : payloadCap.toNat < 2 ^ 32 := payloadCap.toNat_lt
  have hsum : (UInt64.ofNat slotHeaderSize + payloadCap.toUInt64).toNat =
      32 + payloadCap.toNat := by
    rw [UInt64.toNat_add, UInt32.toNat_toUInt64]
    change (32 + payloadCap.toNat) % 2 ^ 64 = _
    omega
  rw [align8_toNat (by omega), hsum]
  congr 2
  omega

theorem total_toNat (slotCount : UInt32) (stride : UInt64) :
    (UInt64.ofNat ringHeaderSize + slotCount.toUInt64 * stride).toNat =
      (48 + slotCount.toNat * stride.toNat) % 2 ^ 64 := by
  rw [UInt64.toNat_add, UInt64.toNat_mul, UInt32.toNat_toUInt64, Nat.add_mod_mod]
  rfl

/-! ## The areas of a ring -/

inductive Part
  | header
  | payload
  deriving DecidableEq

namespace Geom

variable (g : Geom)

def start (slot : ℕ) : Part → ℕ
  | .header => g.slotOff slot
  | .payload => g.payloadOff slot

def size : Part → ℕ
  | .header => slotHeaderSize
  | .payload => g.payloadCap.toNat

/-- The bytes of the segment that a part of a slot takes. -/
def area (slot : ℕ) (part : Part) : Set ℕ :=
  Set.Ico (g.start slot part) (g.start slot part + g.size part)

/-- The areas of the slots of a ring in a segment of `len` bytes. -/
structure Sound (len : ℕ) : Prop where
  aligned : ∀ s < g.slotCount.toNat, ∀ part, 8 ∣ g.start s part
  disjoint : ∀ s < g.slotCount.toNat, ∀ s' < g.slotCount.toNat, ∀ part part',
    (s, part) ≠ (s', part') → Disjoint (g.area s part) (g.area s' part')
  apart : ∀ s < g.slotCount.toNat, ∀ part, Disjoint (Set.Iio ringHeaderSize) (g.area s part)
  inside : ∀ s < g.slotCount.toNat, ∀ part, g.area s part ⊆ Set.Iio len

variable {g}

theorem area_subset (hstride : slotHeaderSize + g.payloadCap.toNat ≤ g.slotStride.toNat) (s : ℕ)
    (part : Part) : g.area s part ⊆ Set.Ico (g.slotOff s) (g.slotOff (s + 1)) := by
  have hnext : g.slotOff (s + 1) = g.slotOff s + g.slotStride.toNat := by
    rw [slotOff, slotOff, Nat.add_mul, Nat.one_mul, Nat.add_assoc]
  rw [hnext]
  apply Set.Ico_subset_Ico
  · cases part with
    | header => exact le_rfl
    | payload => exact Nat.le_add_right _ _
  · cases part with
    | header =>
      simp only [start, size]
      omega
    | payload =>
      simp only [start, size, payloadOff]
      omega

theorem slotOff_le {s s' : ℕ} (h : s ≤ s') : g.slotOff s ≤ g.slotOff s' :=
  Nat.add_le_add_left (Nat.mul_le_mul_right _ h) _

theorem disjoint_area_of_lt (hstride : slotHeaderSize + g.payloadCap.toNat ≤ g.slotStride.toNat)
    {s s' : ℕ} (h : s < s') (part part' : Part) : Disjoint (g.area s part) (g.area s' part') := by
  apply (Set.Iio_disjoint_Ici (slotOff_le h)).mono
  · exact (area_subset hstride s part).trans Set.Ico_subset_Iio_self
  · exact (area_subset hstride s' part').trans Set.Ico_subset_Ici_self

theorem disjoint_header_payload (s : ℕ) : Disjoint (g.area s .header) (g.area s .payload) :=
  Set.Ico_disjoint_Ico_same

theorem sound {len : ℕ} (haligned : 8 ∣ g.slotStride.toNat)
    (hstride : slotHeaderSize + g.payloadCap.toNat ≤ g.slotStride.toNat)
    (hfits : g.slotOff g.slotCount.toNat ≤ len) : g.Sound len where
  aligned s _ part := by
    have hslot : 8 ∣ g.slotOff s :=
      dvd_add (by decide : 8 ∣ ringHeaderSize) (haligned.mul_left s)
    cases part with
    | header => exact hslot
    | payload => exact dvd_add hslot (by decide : 8 ∣ slotHeaderSize)
  disjoint s _ s' _ part part' hne := by
    rcases lt_trichotomy s s' with hlt | rfl | hlt
    · exact disjoint_area_of_lt hstride hlt part part'
    · cases part with
      | header =>
        cases part' with
        | header => exact absurd rfl hne
        | payload => exact disjoint_header_payload s
      | payload =>
        cases part' with
        | header => exact (disjoint_header_payload s).symm
        | payload => exact absurd rfl hne
    · exact (disjoint_area_of_lt hstride hlt part' part).symm
  apart s _ part := by
    apply (Set.Iio_disjoint_Ici (Nat.le_add_right _ _)).mono_right
    exact (area_subset hstride s part).trans Set.Ico_subset_Ici_self
  inside s hs part := by
    have hend : g.slotOff (s + 1) ≤ len := (slotOff_le hs).trans hfits
    exact (area_subset hstride s part).trans
      (Set.Ico_subset_Iio_self.trans (Set.Iio_subset_Iio hend))

end Geom

theorem stride_of_open {g : Geom} (h : «open» seg = some g) :
    g.slotStride.toUInt64 = align8 (.ofNat slotHeaderSize + g.payloadCap.toUInt64) := by
  unfold «open» at h
  split_ifs at h
  simp only [Option.bind_eq_bind, Option.bind_eq_some_iff] at h
  obtain ⟨slotCount, -, slotStride, -, payloadCap, -, h⟩ := h
  split_ifs at h with hstride hlen
  cases h
  exact not_not.mp hstride

/-- A ring that `init` laid out is one that `open` finds, with its areas apart, aligned and inside
the segment, as long as a slot takes less than 2³² bytes. Beyond that `init` keeps the low 32 bits
of the stride, and if it finds room for the ring at all, `open` refuses what it wrote. -/
theorem init_sound_iff (seg : SharedSeg) (slotCount payloadCap : UInt32) :
    (∀ g seg', init seg slotCount payloadCap = some (g, seg') →
      «open» seg' = some g ∧ g.Sound seg.length) ↔
    payloadCap.toNat ≤ 2 ^ 32 - 40 ∨
      seg.length < (48 + slotCount.toNat * ((payloadCap.toNat + 39) / 8 * 8)) % 2 ^ 64 := by
  have htotal := total_toNat slotCount (align8 (.ofNat slotHeaderSize + payloadCap.toUInt64))
  have hstride := stride_toNat payloadCap
  have hcount : slotCount.toNat < 2 ^ 32 := slotCount.toNat_lt
  rw [hstride] at htotal
  unfold init
  dsimp only
  rw [htotal]
  constructor
  · intro h
    by_contra hnot
    obtain ⟨hcap, hlen⟩ := not_or.mp hnot
    rw [if_neg hlen] at h
    have hopen := stride_of_open (h _ _ rfl).1
    dsimp only at hopen
    have hlt : (align8 (.ofNat slotHeaderSize + payloadCap.toUInt64)).toUInt32.toNat < 2 ^ 32 :=
      UInt32.toNat_lt _
    rw [← UInt32.toNat_toUInt64, hopen, hstride] at hlt
    omega
  · intro h g seg' hinit
    split_ifs at hinit with hlen
    have hcap := h.resolve_right hlen
    cases hinit
    -- Nothing was cut off: the stride fits its word and the total does not wrap.
    have hword : (align8 (.ofNat slotHeaderSize + payloadCap.toUInt64)).toUInt32.toNat =
        (payloadCap.toNat + 39) / 8 * 8 := by
      rw [UInt64.toNat_toUInt32, hstride]
      omega
    have hprod : slotCount.toNat * ((payloadCap.toNat + 39) / 8 * 8) ≤
        (2 ^ 32 - 1) * (2 ^ 32 - 8) :=
      Nat.mul_le_mul (by omega) (by omega)
    rw [Nat.mod_eq_of_lt (by omega)] at hlen
    refine ⟨?_, Geom.sound ?_ ?_ ?_⟩
    · have hheader : ringHeaderSize ≤ seg.length := by
        unfold ringHeaderSize
        omega
      rw [open_eq (by simpa using hheader) ((hasHeader_writeHeader hheader _).freeSlots _), if_neg]
      rw [not_or, not_not]
      dsimp only
      constructor
      · apply UInt64.toNat_inj.mp
        rw [UInt32.toNat_toUInt64, hword, hstride]
      · rw [total_toNat, UInt32.toNat_toUInt64, hword, length_freeSlots, length_writeHeader,
          Nat.mod_eq_of_lt (by omega)]
        exact hlen
    · dsimp only
      rw [hword]
      exact Nat.dvd_mul_left 8 _
    · dsimp only
      rw [hword]
      unfold slotHeaderSize
      omega
    · dsimp only [Geom.slotOff]
      rw [hword]
      unfold ringHeaderSize
      omega

/-- `init` makes a ring without slots out of a bare header, and `open` refuses it. -/
theorem init_largestPayload :
    ∃ g seg', init (List.replicate 48 0) 0 0xFFFFFFFF = some (g, seg') ∧ «open» seg' = none := by
  refine ⟨_, _, rfl, ?_⟩
  decide +kernel

end AetherVfs.Ipc.Framing
