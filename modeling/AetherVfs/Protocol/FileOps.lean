import AetherVfs.Protocol.Strings

/-!
# File operations on the wire

The request and response codecs of the file operations in `vfs-protocol/src/lib.rs`. The reading
codecs of READ are in `Protocol.Wire`. A request that carries a path ends with it, so the path
needs no length; every other string and list is preceded by 32 bits of length.
-/

namespace AetherVfs.Protocol

open Cursor Registry Rd

structure AttrResp where
  found : Bool
  isDir : Bool
  size : UInt64
  mtime : Int64
deriving DecidableEq

structure DirEntryWire where
  name : Str
  isDir : Bool
  size : UInt64
  mtime : Int64
deriving DecidableEq

structure OpenResp where
  fh : UInt64
  size : UInt64
  isDir : Bool
  immutable : Bool
  mountGen : UInt32
deriving DecidableEq

structure WriteReq where
  fh : UInt64
  offset : UInt64
  len : UInt32
deriving DecidableEq

structure SetattrReq where
  fh : UInt64
  size : UInt64
deriving DecidableEq

def putI64 (x : Int64) : List UInt8 := put64 x.toUInt64

/-! ## GETATTR, READDIR and DELETE -/

def encodePathReq (root : UInt32) (vpath : Str) : List UInt8 := put32 root ++ utf8 vpath

def decodePathReq : List UInt8 → Option (UInt32 × Str) := StateT.run' do
  let root ← word
  let path ← restStr
  return (root, path)

def encodeGetattrResp (r : AttrResp) : List UInt8 :=
  putBool r.found :: putBool r.isDir :: (put64 r.size ++ putI64 r.mtime)

def decodeGetattrResp : List UInt8 → Option AttrResp := StateT.run' do
  let found ← flag
  let isDir ← flag
  let size ← long
  let mtime ← long
  return ⟨found, isDir, size, mtime.toInt64⟩

def putDirEntry (e : DirEntryWire) : List UInt8 :=
  putStr e.name ++ (putBool e.isDir :: (put64 e.size ++ putI64 e.mtime))

def encodeReaddirResp (entries : List DirEntryWire) : List UInt8 :=
  putLen entries.length ++ entries.flatMap putDirEntry

def dirEntry : Read DirEntryWire := do
  let name ← str
  let isDir ← flag
  let size ← long
  let mtime ← long
  return ⟨name, isDir, size, mtime.toInt64⟩

def decodeReaddirResp : List UInt8 → Option (List DirEntryWire) := StateT.run' do
  let count ← word
  items dirEntry count.toNat

/-! ## OPEN -/

def encodeOpenReq (root flags : UInt32) (path : Str) : List UInt8 :=
  put32 root ++ (put32 flags ++ utf8 path)

def decodeOpenReq : List UInt8 → Option (UInt32 × UInt32 × Str) := StateT.run' do
  let root ← word
  let flags ← word
  let path ← restStr
  return (root, flags, path)

def openRespImmutable : UInt8 := 1

def encodeOpenResp (r : OpenResp) : List UInt8 :=
  put64 r.fh ++ (put64 r.size ++
    (putBool r.isDir :: (if r.immutable then openRespImmutable else 0) :: ([0, 0] ++
      put32 r.mountGen)))

def decodeOpenResp : List UInt8 → Option OpenResp := StateT.run' do
  let fh ← long
  let size ← long
  let isDir ← flag
  let flags ← u8
  let _ ← skip 2
  let mountGen ← word
  return ⟨fh, size, isDir, flags &&& openRespImmutable != 0, mountGen⟩

/-! ## READ: the reply a caller copies out of -/

def decodeReadResp : List UInt8 → Option (List UInt8) := StateT.run' do
  let n ← word
  let _ ← skip 4
  skip n.toNat

/-! ## WRITE -/

/-- The length written is the data's; the request's own is not. -/
def encodeWriteReq (r : WriteReq) (data : List UInt8) : List UInt8 :=
  put64 r.fh ++ (put64 r.offset ++ (putLen data.length ++ (put32 0 ++ data)))

def decodeWriteReq : List UInt8 → Option (WriteReq × List UInt8) := StateT.run' do
  let fh ← long
  let offset ← long
  let len ← word
  let _ ← skip 4
  let data ← skip len.toNat
  return (⟨fh, offset, len⟩, data)

def encodeWriteResp (n : UInt32) : List UInt8 := put32 n ++ put32 0

def decodeWriteResp : List UInt8 → Option UInt32 := StateT.run' word

/-! ## MKDIR and STORED_NAMES -/

def encodeMkdirReq (root mode : UInt32) (path : Str) : List UInt8 :=
  put32 root ++ (put32 mode ++ utf8 path)

def decodeMkdirReq : List UInt8 → Option (UInt32 × UInt32 × Str) := StateT.run' do
  let root ← word
  let mode ← word
  let path ← restStr
  return (root, mode, path)

def encodeNamesReq (root skip : UInt32) (path : Str) : List UInt8 :=
  put32 root ++ (put32 skip ++ utf8 path)

def decodeNamesReq : List UInt8 → Option (UInt32 × UInt32 × Str) := StateT.run' do
  let root ← word
  let skip ← word
  let path ← restStr
  return (root, skip, path)

def encodeNamesResp (names : List Str) : List UInt8 := utf8 (List.intercalate ['/'] names)

def decodeNamesResp (p : List UInt8) : Option (List Str) := do
  let text ← fromUtf8 p
  return text.splitOn '/'

/-! ## RENAME -/

def encodeRenameReq (root : UInt32) (source dest : Str) : List UInt8 :=
  put32 root ++ (putStr source ++ utf8 dest)

def decodeRenameReq : List UInt8 → Option (UInt32 × Str × Str) := StateT.run' do
  let root ← word
  let source ← str
  let dest ← restStr
  return (root, source, dest)

def encodeRenameXReq (sourceRoot : UInt32) (source : Str) (destRoot : UInt32) (dest : Str) :
    List UInt8 := put32 sourceRoot ++ (put32 destRoot ++ (putStr source ++ utf8 dest))

def decodeRenameXReq : List UInt8 → Option (UInt32 × Str × UInt32 × Str) := StateT.run' do
  let sourceRoot ← word
  let destRoot ← word
  let source ← str
  let dest ← restStr
  return (sourceRoot, source, destRoot, dest)

/-! ## SETATTR and CLOSE -/

def encodeSetattrReq (r : SetattrReq) : List UInt8 := put64 r.fh ++ put64 r.size

def decodeSetattrReq : List UInt8 → Option SetattrReq := StateT.run' do
  let fh ← long
  let size ← long
  return ⟨fh, size⟩

def encodeCloseReq (fh : UInt64) : List UInt8 := put64 fh

def decodeCloseReq : List UInt8 → Option UInt64 := StateT.run' long

/-! ## What is decoded is what was encoded -/

@[simp] theorem long_put64_nil (x : UInt64) : long.run (put64 x) = some (x, []) := by
  simpa using long_put64 x []

@[simp] theorem word_put32_nil (x : UInt32) : word.run (put32 x) = some (x, []) := by
  simpa using word_put32 x []

@[simp] theorem skip_length (data : List UInt8) :
    (skip data.length).run data = some (data, []) := by
  simpa using skip_append (rfl : data.length = data.length) []

@[simp] theorem long_putI64 (x : Int64) (rest : List UInt8) :
    long.run (putI64 x ++ rest) = some (x.toUInt64, rest) := long_put64 _ rest

@[simp] theorem long_putI64_nil (x : Int64) : long.run (putI64 x) = some (x.toUInt64, []) :=
  long_put64_nil _

theorem decodePathReq_encode (root : UInt32) (vpath : Str) :
    decodePathReq (encodePathReq root vpath) = some (root, vpath) := by
  simp [decodePathReq, encodePathReq]

theorem decodeGetattrResp_encode (r : AttrResp) :
    decodeGetattrResp (encodeGetattrResp r) = some r := by
  simp [decodeGetattrResp, encodeGetattrResp]

theorem dirEntry_putDirEntry {e : DirEntryWire} (h : (utf8 e.name).length < 2 ^ 32)
    (rest : List UInt8) : dirEntry.run (putDirEntry e ++ rest) = some (e, rest) := by
  simp [dirEntry, putDirEntry, str_putStr h]

theorem decodeReaddirResp_encode {entries : List DirEntryWire} (hcount : entries.length < 2 ^ 32)
    (h : ∀ e ∈ entries, (utf8 e.name).length < 2 ^ 32) :
    decodeReaddirResp (encodeReaddirResp entries) = some entries := by
  have hitems : (items dirEntry entries.length).run (entries.flatMap putDirEntry) =
      some (entries, []) := by
    simpa using items_flatMap _ _ (fun e he => dirEntry_putDirEntry (h e he)) []
  simp [decodeReaddirResp, encodeReaddirResp, putLen, toNat_len hcount, hitems]

theorem decodeOpenReq_encode (root flags : UInt32) (path : Str) :
    decodeOpenReq (encodeOpenReq root flags path) = some (root, flags, path) := by
  simp [decodeOpenReq, encodeOpenReq]

theorem decodeOpenResp_encode (r : OpenResp) : decodeOpenResp (encodeOpenResp r) = some r := by
  have hpad : (skip 2).run (0 :: 0 :: put32 r.mountGen) = some ([0, 0], put32 r.mountGen) :=
    @skip_append 2 [0, 0] rfl _
  have hflag : ((if r.immutable then openRespImmutable else 0) &&& openRespImmutable != 0) =
      r.immutable := by
    cases r.immutable <;> rfl
  simp [decodeOpenResp, encodeOpenResp, hpad, hflag]

theorem decodeReadResp_encode {data : List UInt8} (h : data.length < 2 ^ 32) :
    decodeReadResp (encodeReadResp data) = some data := by
  simp [decodeReadResp, encodeReadResp, toNat_len h]

theorem decodeWriteReq_encode {r : WriteReq} {data : List UInt8}
    (hlen : r.len.toNat = data.length) :
    decodeWriteReq (encodeWriteReq r data) = some (r, data) := by
  have hword : UInt32.ofNat data.length = r.len := by
    rw [← hlen, UInt32.ofNat_toNat]
  have hdata : (skip r.len.toNat).run data = some (data, []) := by
    rw [hlen, skip_length]
  simp [decodeWriteReq, encodeWriteReq, putLen, hword, hdata]

theorem decodeWriteResp_encode (n : UInt32) : decodeWriteResp (encodeWriteResp n) = some n := by
  simp [decodeWriteResp, encodeWriteResp]

theorem decodeNamesResp_encode {names : List Str} (hne : names ≠ [])
    (h : ∀ name ∈ names, '/' ∉ name) : decodeNamesResp (encodeNamesResp names) = some names := by
  have hsplit : (List.intercalate ['/'] names).splitOn '/' = names :=
    List.splitOn_intercalate '/' h hne
  simp [decodeNamesResp, encodeNamesResp, hsplit]

theorem decodeRenameReq_encode {source : Str} (h : (utf8 source).length < 2 ^ 32) (root : UInt32)
    (dest : Str) : decodeRenameReq (encodeRenameReq root source dest) =
      some (root, source, dest) := by
  simp [decodeRenameReq, encodeRenameReq, str_putStr h]

theorem decodeRenameXReq_encode {source : Str} (h : (utf8 source).length < 2 ^ 32)
    (sourceRoot destRoot : UInt32) (dest : Str) :
    decodeRenameXReq (encodeRenameXReq sourceRoot source destRoot dest) =
      some (sourceRoot, source, destRoot, dest) := by
  simp [decodeRenameXReq, encodeRenameXReq, str_putStr h]

theorem decodeSetattrReq_encode (r : SetattrReq) :
    decodeSetattrReq (encodeSetattrReq r) = some r := by
  simp [decodeSetattrReq, encodeSetattrReq]

theorem decodeCloseReq_encode (fh : UInt64) : decodeCloseReq (encodeCloseReq fh) = some fh := by
  simp [decodeCloseReq, encodeCloseReq]

theorem encodeReadResp_ne_bulk {data : List UInt8} (h : data.length < 2 ^ 31) (n : UInt32)
    (off : UInt64) : encodeReadResp data ≠ encodeReadRespBulk n off := by
  intro heq
  have hinline := isReadRespBulk_inline h
  rw [heq, isReadRespBulk_bulk] at hinline
  cases hinline

/-- A value of any request or response type is decoded as it was encoded, and two values of one
type have different encodings: for bulk reads of less than 2^31 bytes, write requests that give
the length of their data, and strings and lists whose length fits its 32 bits. -/
theorem fileOps_faithful :
    Faithful (fun _ => True) (fun r : UInt32 × Str => encodePathReq r.1 r.2) decodePathReq ∧
    Faithful (fun _ => True) encodeGetattrResp decodeGetattrResp ∧
    Faithful (fun es => es.length < 2 ^ 32 ∧ ∀ e ∈ es, (utf8 e.name).length < 2 ^ 32)
      encodeReaddirResp decodeReaddirResp ∧
    Faithful (fun _ => True) (fun r : UInt32 × UInt32 × Str => encodeOpenReq r.1 r.2.1 r.2.2)
      decodeOpenReq ∧
    Faithful (fun _ => True) encodeOpenResp decodeOpenResp ∧
    Faithful (fun _ => True) encodeReadReq decodeReadReq ∧
    Faithful (fun data => data.length < 2 ^ 31) encodeReadResp decodeReadResp ∧
    (∀ room, Faithful (fun data => data.length < 2 ^ 31 ∧ data.length ≤ room) encodeReadResp
      fun p => decodeReadRespInto p room) ∧
    Faithful (fun r => r.1.toNat < 2 ^ 31)
      (fun r : UInt32 × UInt64 => encodeReadRespBulk r.1 r.2) decodeReadBulkResp ∧
    (∀ data n off, data.length < 2 ^ 31 → encodeReadResp data ≠ encodeReadRespBulk n off) ∧
    Faithful (fun r => r.1.len.toNat = r.2.length)
      (fun r : WriteReq × List UInt8 => encodeWriteReq r.1 r.2) decodeWriteReq ∧
    Faithful (fun _ => True) encodeWriteResp decodeWriteResp ∧
    Faithful (fun _ => True) (fun r : UInt32 × UInt32 × Str => encodeMkdirReq r.1 r.2.1 r.2.2)
      decodeMkdirReq ∧
    Faithful (fun _ => True) (fun r : UInt32 × UInt32 × Str => encodeNamesReq r.1 r.2.1 r.2.2)
      decodeNamesReq ∧
    Faithful (fun names => names ≠ [] ∧ ∀ name ∈ names, '/' ∉ name) encodeNamesResp
      decodeNamesResp ∧
    Faithful (fun r => (utf8 r.2.1).length < 2 ^ 32)
      (fun r : UInt32 × Str × Str => encodeRenameReq r.1 r.2.1 r.2.2) decodeRenameReq ∧
    Faithful (fun r => (utf8 r.2.1).length < 2 ^ 32)
      (fun r : UInt32 × Str × UInt32 × Str => encodeRenameXReq r.1 r.2.1 r.2.2.1 r.2.2.2)
      decodeRenameXReq ∧
    Faithful (fun _ => True) encodeSetattrReq decodeSetattrReq ∧
    Faithful (fun _ => True) encodeCloseReq decodeCloseReq := by
  refine ⟨faithful_of_decode fun r _ => decodePathReq_encode r.1 r.2,
    faithful_of_decode fun r _ => decodeGetattrResp_encode r,
    faithful_of_decode fun es h => decodeReaddirResp_encode h.1 h.2,
    faithful_of_decode fun r _ => decodeOpenReq_encode r.1 r.2.1 r.2.2,
    faithful_of_decode fun r _ => decodeOpenResp_encode r,
    faithful_of_decode fun r _ => decodeReadReq_encodeReadReq r,
    faithful_of_decode fun data h => decodeReadResp_encode (h.trans (by norm_num)),
    fun room => faithful_of_decode fun data h => ?_,
    faithful_of_decode fun r h => decodeReadBulkResp_encode h r.2,
    fun data n off h => encodeReadResp_ne_bulk h n off,
    faithful_of_decode fun r h => decodeWriteReq_encode h,
    faithful_of_decode fun n _ => decodeWriteResp_encode n,
    faithful_of_decode fun r _ => decodeOpenReq_encode r.1 r.2.1 r.2.2,
    faithful_of_decode fun r _ => decodeOpenReq_encode r.1 r.2.1 r.2.2,
    faithful_of_decode fun names h => decodeNamesResp_encode h.1 h.2,
    faithful_of_decode fun r h => decodeRenameReq_encode h r.1 r.2.2,
    faithful_of_decode fun r h => decodeRenameXReq_encode h r.1 r.2.2.1 r.2.2.2,
    faithful_of_decode fun r _ => decodeSetattrReq_encode r,
    faithful_of_decode fun fh _ => decodeCloseReq_encode fh⟩
  rw [decodeReadRespInto_encode h.1, List.take_of_length_le h.2]

theorem decodeRenameReq_wraps {path : Str} (h : (utf8 path).length = 2 ^ 32) :
    decodeRenameReq (encodeRenameReq 0 path []) = some (0, [], path) := by
  have hskip : (skip 0).run (utf8 path) = some ([], utf8 path) := @skip_append 0 [] rfl _
  have hnil : utf8 [] = [] := rfl
  have hempty : fromUtf8 [] = some [] := fromUtf8_utf8 []
  simp [decodeRenameReq, encodeRenameReq, putStr, putLen, h, str, hskip, hnil, hempty]

/-- The bit that marks a bulk reply is lost from its length, a write request's length is taken
from its data, and the length of a renamed path wraps. -/
theorem fileOps_not_faithful :
    encodeReadRespBulk 0x80000001 0 = encodeReadRespBulk 1 0 ∧
    decodeReadBulkResp (encodeReadRespBulk 0x80000001 0) = some (1, 0) ∧
    encodeWriteReq ⟨1, 0, 5⟩ [7] = encodeWriteReq ⟨1, 0, 1⟩ [7] ∧
    decodeWriteReq (encodeWriteReq ⟨1, 0, 5⟩ [7]) = some (⟨1, 0, 1⟩, [7]) ∧
    decodeRenameReq (encodeRenameReq 0 (List.replicate (2 ^ 32) 'a') []) =
      some (0, [], List.replicate (2 ^ 32) 'a') := by
  refine ⟨by decide, by decide, rfl, by decide, ?_⟩
  exact decodeRenameReq_wraps (length_utf8_replicate (2 ^ 32))

end AetherVfs.Protocol
