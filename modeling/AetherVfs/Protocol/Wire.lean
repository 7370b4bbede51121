import AetherVfs.Lib.LittleEndian

/-!
# READ on the wire

The cursor of `vfs-protocol/src/wire.rs` and the READ codecs of
`vfs-protocol/src/lib.rs`. A cursor is the bytes left; a reader takes some off
the front, or fails when there are too few.
-/

namespace AetherVfs.Protocol

def opRead : UInt32 := 5
def stOk : Int32 := 0
def stBadRequest : Int32 := -3
def stIoError : Int32 := -4
def stIsDir : Int32 := -5
def stBadFh : Int32 := -6
def flagReadBulk : UInt32 := 1
def readRespBulkBit : UInt32 := 0x80000000

namespace Rd

def take (n : ℕ) (p : List UInt8) : Option (List UInt8 × List UInt8) :=
  if p.length < n then none else some (p.splitAt n)

def u32 (p : List UInt8) : Option (UInt32 × List UInt8) :=
  (take 4 p).map fun (h, t) => (UInt32.ofNat (LittleEndian.value h), t)

def u64 (p : List UInt8) : Option (UInt64 × List UInt8) :=
  (take 8 p).map fun (h, t) => (UInt64.ofNat (LittleEndian.value h), t)

theorem take_append {n : ℕ} {front : List UInt8} (h : front.length = n) (rest : List UInt8) :
    take n (front ++ rest) = some (front, rest) := by
  subst h
  simp [take]

end Rd

def put32 (x : UInt32) : List UInt8 := LittleEndian.bytes 4 x.toNat
def put64 (x : UInt64) : List UInt8 := LittleEndian.bytes 8 x.toNat

@[simp] theorem length_put32 (x : UInt32) : (put32 x).length = 4 := LittleEndian.length_bytes 4 _
@[simp] theorem length_put64 (x : UInt64) : (put64 x).length = 8 := LittleEndian.length_bytes 8 _

@[simp] theorem u32_put32 (x : UInt32) (rest : List UInt8) :
    Rd.u32 (put32 x ++ rest) = some (x, rest) := by
  have hx : LittleEndian.value (put32 x) = x.toNat :=
    LittleEndian.value_bytes_of_lt x.toNat_lt
  simp [Rd.u32, Rd.take_append (length_put32 x), hx]

@[simp] theorem u64_put64 (x : UInt64) (rest : List UInt8) :
    Rd.u64 (put64 x ++ rest) = some (x, rest) := by
  have hx : LittleEndian.value (put64 x) = x.toNat :=
    LittleEndian.value_bytes_of_lt x.toNat_lt
  simp [Rd.u64, Rd.take_append (length_put64 x), hx]

structure ReadReq where
  fh : UInt64
  offset : UInt64
  len : UInt32
deriving DecidableEq, Repr

def encodeReadReq (r : ReadReq) : List UInt8 :=
  put64 r.fh ++ (put64 r.offset ++ (put32 r.len ++ put32 0))

/-- The trailing padding is not required. -/
def decodeReadReq (p : List UInt8) : Option ReadReq := do
  let (fh, p) ← Rd.u64 p
  let (offset, p) ← Rd.u64 p
  let (len, _) ← Rd.u32 p
  return ⟨fh, offset, len⟩

theorem length_encodeReadReq (r : ReadReq) : (encodeReadReq r).length = 24 := by
  simp [encodeReadReq]

@[simp] theorem decodeReadReq_encodeReadReq (r : ReadReq) :
    decodeReadReq (encodeReadReq r) = some r := by
  simp [encodeReadReq, decodeReadReq]

def encodeReadResp (data : List UInt8) : List UInt8 :=
  put32 (UInt32.ofNat data.length) ++ (put32 0 ++ data)

/-- The bytes of an inline reply that go to a destination of `room` bytes. -/
def decodeReadRespInto (p : List UInt8) (room : ℕ) : Option (List UInt8) := do
  let (raw, p) ← Rd.u32 p
  if raw &&& readRespBulkBit ≠ 0 then none
  else
    let (_, p) ← Rd.take 4 p
    let (data, _) ← Rd.take raw.toNat p
    return data.take room

def encodeReadRespBulk (bytesRead : UInt32) (arenaOffset : UInt64) : List UInt8 :=
  put32 (bytesRead ||| readRespBulkBit) ++ (put32 0 ++ put64 arenaOffset)

/-- How many bytes a bulk reply announces, and where in the mapping they are. -/
def decodeReadBulkResp (p : List UInt8) : Option (UInt32 × UInt64) := do
  let (raw, p) ← Rd.u32 p
  if raw &&& readRespBulkBit = 0 then none
  else
    let (_, p) ← Rd.take 4 p
    let (off, _) ← Rd.u64 p
    return (raw &&& ~~~readRespBulkBit, off)

def isReadRespBulk (p : List UInt8) : Bool :=
  (Rd.u32 p).any fun (raw, _) => raw &&& readRespBulkBit ≠ 0

/-! ## The bit that tells bulk from inline -/

theorem and_bulkBit {x : UInt32} (h : x.toNat < 2 ^ 31) : x &&& readRespBulkBit = 0 := by
  apply UInt32.toNat_inj.mp
  apply Nat.eq_of_testBit_eq
  intro i
  have hbit : (x &&& readRespBulkBit).toNat = x.toNat &&& 2 ^ 31 := UInt32.toNat_and x _
  rw [hbit, Nat.testBit_and, Nat.testBit_two_pow]
  by_cases hi : 31 = i
  · subst hi
    simp [Nat.testBit_lt_two_pow h]
  · simp [hi]

theorem or_bulkBit_and (x : UInt32) : (x ||| readRespBulkBit) &&& readRespBulkBit ≠ 0 := by
  intro h
  have hbit := congrArg (fun y : UInt32 => y.toBitVec.getLsbD 31) h
  simp [readRespBulkBit] at hbit

theorem or_bulkBit_clear {x : UInt32} (h : x.toNat < 2 ^ 31) :
    (x ||| readRespBulkBit) &&& ~~~readRespBulkBit = x := by
  apply UInt32.toBitVec_inj.mp
  ext i hi
  have hclash : (x &&& readRespBulkBit).toBitVec.getLsbD i = false := by
    rw [and_bulkBit h]
    exact BitVec.getLsbD_zero
  rw [UInt32.toBitVec_and, BitVec.getLsbD_and] at hclash
  simp only [UInt32.toBitVec_and, UInt32.toBitVec_or, UInt32.toBitVec_not,
    ← BitVec.getLsbD_eq_getElem]
  grind

@[simp] theorem isReadRespBulk_bulk (n : UInt32) (off : UInt64) :
    isReadRespBulk (encodeReadRespBulk n off) = true := by
  simp [isReadRespBulk, encodeReadRespBulk, or_bulkBit_and]

theorem decodeReadBulkResp_encode {n : UInt32} (h : n.toNat < 2 ^ 31) (off : UInt64) :
    decodeReadBulkResp (encodeReadRespBulk n off) = some (n, off) := by
  have hoff : Rd.u64 (put64 off) = some (off, []) := by
    simpa using u64_put64 off []
  simp [decodeReadBulkResp, encodeReadRespBulk, or_bulkBit_and, or_bulkBit_clear h,
    Rd.take_append (length_put32 0), hoff]

theorem isReadRespBulk_inline {data : List UInt8} (h : data.length < 2 ^ 31) :
    isReadRespBulk (encodeReadResp data) = false := by
  have hlen : (UInt32.ofNat data.length).toNat < 2 ^ 31 := by
    rw [UInt32.toNat_ofNat_of_lt' (h.trans (by norm_num))]
    exact h
  simp [isReadRespBulk, encodeReadResp, and_bulkBit hlen]

theorem decodeReadRespInto_encode {data : List UInt8} (h : data.length < 2 ^ 31) (room : ℕ) :
    decodeReadRespInto (encodeReadResp data) room = some (data.take room) := by
  have hval : (UInt32.ofNat data.length).toNat = data.length :=
    UInt32.toNat_ofNat_of_lt' (h.trans (by norm_num))
  have hbit : UInt32.ofNat data.length &&& readRespBulkBit = 0 := and_bulkBit (by rwa [hval])
  have hdata : Rd.take data.length data = some (data, []) := by
    simpa using Rd.take_append (Eq.refl data.length) []
  simp [decodeReadRespInto, encodeReadResp, hbit, hval, Rd.take_append (length_put32 0), hdata]

end AetherVfs.Protocol
