import AetherVfs.Ipc.Ring
import AetherVfs.Lib.Window
import AetherVfs.Protocol.Wire

/-!
# A read over the ring

A client's `read_fragmented` (`vfs-ipc/src/concurrent.rs`), cut up as the shim
says (`vfs-shim/src/director.rs`), served by `dispatch_director`'s READ
(`vfs-director/src/ring_dispatch.rs`) through the bulk arena
(`vfs-ipc/src/arena.rs`) or inline. The ring itself is behind `submitManyHeld`:
every request is answered once, with the handler's answer to it, in an order
and with interruptions of the environment's choosing. Permits and slots are its
choice too. Deadlines are not: here every call gets a permit and its answers.
-/

namespace AetherVfs.Read

open Ipc (Request Response Geom)
open Protocol
open Window (window)

/-- The mapping both sides share. -/
structure SharedSeg where
  len : ℕ
  bytes : ℕ → UInt8
  len_lt : len < 2 ^ 64

namespace SharedSeg

def inBounds (m : SharedSeg) (off n : ℕ) : Bool := off + n ≤ m.len

def copyTo (m : SharedSeg) (off n : ℕ) : Option (List UInt8) :=
  if m.inBounds off n then some (window m.bytes off n) else none

def write (m : SharedSeg) (off : ℕ) (data : List UInt8) : SharedSeg :=
  { m with bytes := fun a => if off ≤ a then data.getD (a - off) (m.bytes a) else m.bytes a }

/-- Everything but the `kept` addresses is overwritten. -/
def disturb (m : SharedSeg) (kept : ℕ → Prop) [DecidablePred kept] (w : ℕ → UInt8) : SharedSeg :=
  { m with bytes := fun a => if kept a then m.bytes a else w a }

end SharedSeg

structure DataArena where
  mappingOffset : ℕ
  bankSize : ℕ
  banks : ℕ
deriving DecidableEq, Repr

namespace DataArena

def new (mappingOffset arenaLen banks : ℕ) : DataArena :=
  ⟨mappingOffset, max (arenaLen / max banks 1) 4096, max banks 1⟩

def bankIndex (a : DataArena) (slot : ℕ) : ℕ := slot % a.banks

def bankMappingOffset (a : DataArena) (slot : ℕ) : ℕ :=
  a.mappingOffset + a.bankIndex slot * a.bankSize

/-- The addresses of a slot's bank. -/
def inBank (a : DataArena) (slot addr : ℕ) : Prop :=
  a.bankMappingOffset slot ≤ addr ∧ addr < a.bankMappingOffset slot + a.bankSize

/-- `f` gets the room there is and gives the bytes it put there. -/
def fillBank (a : DataArena) (m : SharedSeg) (slot maxLen : ℕ)
    (f : ℕ → Except Int32 (List UInt8)) : SharedSeg × Except Int32 (ℕ × ℕ) :=
  let room := min maxLen a.bankSize
  let off := a.bankMappingOffset slot
  if room = 0 then (m, .ok (off, 0))
  else if m.inBounds off room then
    match f room with
    | .ok data => (m.write off (data.take room), .ok (off, min data.length room))
    | .error st => (m, .error st)
  else (m, .error stIoError)

end DataArena

/-- A file as its provider serves it. A read of `len` bytes at `off` gives `count off len`
bytes: it may be short anywhere, and it is empty only at the end of the file. -/
structure Provider where
  size : ℕ
  content : ℕ → UInt8
  count : ℕ → ℕ → ℕ
  size_lt : size < 2 ^ 64
  count_le : ∀ off len, count off len ≤ min len (size - off)
  count_pos : ∀ off len, 0 < len → off < size → 0 < count off len

def Provider.readAt (p : Provider) (off len : ℕ) : List UInt8 :=
  window p.content off (p.count off len)

structure OpenRec where
  backend : Provider
  isDir : Bool

structure Director where
  opens : UInt64 → Option OpenRec

def Director.read (d : Director) (fh offset : UInt64) (len : ℕ) : Except Int32 (List UInt8) :=
  match d.opens fh with
  | none => .error stBadFh
  | some r => if r.isDir then .error stIsDir else .ok (r.backend.readAt offset.toNat len)

def bulkThreshold : ℕ := 64 * 1024

def maxReadData (payloadCap : ℕ) : ℕ := payloadCap - 8

def dispatchRead (d : Director) (payload : List UInt8) (flags : UInt32) (payloadCap : ℕ)
    (arena : Option (DataArena × ℕ)) (m : SharedSeg) : SharedSeg × Response :=
  match decodeReadReq payload with
  | none => (m, ⟨stBadRequest, []⟩)
  | some req =>
    let wantBulk := flags &&& flagReadBulk ≠ 0 ∨ bulkThreshold ≤ req.len.toNat
    match if wantBulk then arena else none with
    | some (a, slot) =>
      match a.fillBank m slot (min a.bankSize req.len.toNat) (d.read req.fh req.offset) with
      | (m', .ok (off, n)) =>
        (m', ⟨stOk, encodeReadRespBulk (UInt32.ofNat n) (UInt64.ofNat off)⟩)
      | (m', .error st) => (m', ⟨st, []⟩)
    | none =>
      match d.read req.fh req.offset (min req.len.toNat (maxReadData payloadCap)) with
      | .ok data => (m, ⟨stOk, encodeReadResp data⟩)
      | .error st => (m, ⟨st, []⟩)

/-! ## The client -/

structure ReadPlan where
  bulkThreshold : ℕ
  bulkChunk : ℕ
  inlineChunk : ℕ
  depth : ℕ
  depthStream : ℕ
  streamBytes : ℕ
deriving DecidableEq, Repr

def usizeMax : ℕ := 2 ^ 64 - 1

/-- A ring with its arena, as the shim finds it and the director serves it. -/
structure Ring where
  geom : Geom
  arenaOffset : ℕ
  arenaLen : ℕ
  slotCount_pos : 0 < geom.slotCount

namespace Ring

def arena (r : Ring) : DataArena := DataArena.new r.arenaOffset r.arenaLen r.geom.slotCount

def bulkBankBytes (r : Ring) : ℕ :=
  if r.arenaLen = 0 then r.geom.payloadCap - 8
  else max (256 * 1024) (min (1024 * 1024) (r.arenaLen / max r.geom.slotCount 1))

def plan (r : Ring) : ReadPlan where
  bulkThreshold := if 0 < r.arenaLen then Read.bulkThreshold else usizeMax
  bulkChunk := r.bulkBankBytes
  inlineChunk := r.geom.payloadCap - 8
  depth := 4
  depthStream := 8
  streamBytes := 4 * 1024 * 1024

/-- The ring `IpcServe` starts: the payload capacity is the host's choice, the slots and the
arena are not. -/
def created (payloadCap : ℕ) (h : payloadCap < 2 ^ 32) : Ring where
  geom := ⟨32, payloadCap, by norm_num, h⟩
  arenaOffset := 48 + 32 * ((32 + payloadCap + 7) / 8 * 8)
  arenaLen := 32 * 1024 * 1024
  slotCount_pos := by norm_num

def mapSize (r : Ring) : ℕ :=
  max (2 * 1024 * 1024) ((r.arenaOffset + r.arenaLen + 0xFFFF) / 0x10000 * 0x10000)

end Ring

structure Fragment where
  off : ℕ
  len : ℕ
  bulk : Bool
deriving DecidableEq, Repr

namespace ReadPlan

/-- The loop of `read_fragmented` that builds a batch of at most `n` requests from
`off` on. -/
def batch (plan : ReadPlan) (len : ℕ) : ℕ → ℕ → List Fragment
  | 0, _ => []
  | n + 1, off =>
    if off < len then
      let rem := len - off
      let bulk := plan.bulkThreshold ≤ rem
      let chunk := if bulk then min rem plan.bulkChunk else min rem plan.inlineChunk
      if chunk = 0 then [] else ⟨off, chunk, bulk⟩ :: plan.batch len n (off + chunk)
    else []

/-- Most requests of a read that are in flight together. -/
def inFlight (plan : ReadPlan) (slotCount len : ℕ) : ℕ :=
  let depth := if plan.streamBytes ≤ len then plan.depthStream else plan.depth
  max 1 (min depth (max slotCount 1))

/-- Permits asked for when `rem` bytes are missing. -/
def wanted (plan : ReadPlan) (slotCount len rem : ℕ) : ℕ :=
  let per := max 1 (if plan.bulkThreshold ≤ rem then plan.bulkChunk else plan.inlineChunk)
  min ((rem + per - 1) / per) (plan.inFlight slotCount len)

end ReadPlan

def Fragment.request (f : Fragment) (fh offset : UInt64) : Request :=
  ⟨opRead, if f.bulk then flagReadBulk else 0,
    encodeReadReq ⟨fh, offset + UInt64.ofNat f.off, UInt32.ofNat f.len⟩⟩

/-- What happens while a batch is out: one of its requests is served, or other threads use
whatever memory the batch does not hold. -/
inductive Turn where
  | serve (k : ℕ)
  | others (w : ℕ → UInt8)

def Turn.served : Turn → Option ℕ
  | .serve k => some k
  | .others _ => none

/-- The environment's part in one batch: how many permits beyond the first it is granted, the
slots it claims, and what happens until it is answered. -/
structure Schedule (slotCount : ℕ) where
  extra : ℕ
  slots : ℕ → ℕ
  turns : ℕ → List Turn
  slots_lt : ∀ k < slotCount, slots k < slotCount
  slots_inj : ∀ j < slotCount, ∀ k < slotCount, slots j = slots k → j = k
  turns_once : ∀ n, ((turns n).filterMap Turn.served).Perm (List.range n)

/-- A batch with the server: the mapping, and the answers given. -/
structure Flight where
  seg : SharedSeg
  answers : ℕ → Option Response

/-- The address is in the bank of one of the `n` slots a batch holds. -/
def held (a : DataArena) (slots : ℕ → ℕ) (n addr : ℕ) : Prop :=
  ∃ k < n, a.inBank (slots k) addr

instance (a : DataArena) (slots : ℕ → ℕ) (n : ℕ) : DecidablePred (held a slots n) := fun addr =>
  inferInstanceAs (Decidable (∃ k < n, a.bankMappingOffset (slots k) ≤ addr ∧
    addr < a.bankMappingOffset (slots k) + a.bankSize))

/-- One turn of `worker_loop`, or of somebody else. -/
def Flight.turn (r : Ring) (d : Director) (slots : ℕ → ℕ) (reqs : List Request) (fl : Flight) :
    Turn → Flight
  | .serve k =>
    match reqs[k]? with
    | none => fl
    | some req =>
      let (seg, resp) := dispatchRead d req.payload req.flags r.geom.payloadCap
        (some (r.arena, slots k)) fl.seg
      ⟨seg, Function.update fl.answers k (some (Ipc.Server.delivered r.geom resp))⟩
  | .others w =>
    { fl with seg := fl.seg.disturb (held r.arena slots reqs.length) w }

/-- `submit_many_held_reporting`: the answers in the order of the requests, and the mapping
as it is then. -/
def submitManyHeld (r : Ring) (d : Director) (sched : Schedule r.geom.slotCount)
    (reqs : List Request) (m : SharedSeg) : Option (SharedSeg × List Response) :=
  if (reqs.any fun req => r.geom.payloadCap < req.payload.length) then none
  else
    let fl := (sched.turns reqs.length).foldl (Flight.turn r d sched.slots reqs) ⟨m, fun _ => none⟩
    ((List.range reqs.length).mapM fl.answers).map fun responses => (fl.seg, responses)

/-- The bytes one answer brings to a destination of `want` bytes. -/
def takeReply (m : SharedSeg) (payload : List UInt8) (want : ℕ) : Except Int32 (List UInt8) :=
  if isReadRespBulk payload then
    match decodeReadBulkResp payload with
    | none => .error stBadRequest
    | some (bn, aoff) =>
      let n := min bn.toNat want
      if 0 < n then
        match m.copyTo aoff.toNat n with
        | none => .error stIoError
        | some data => .ok data
      else .ok []
  else
    match decodeReadRespInto payload want with
    | none => .error stBadRequest
    | some data => .ok data

/-- The loop of `read_fragmented` over the answers of a batch: what is read now, and whether
an answer was short. -/
def collect (m : SharedSeg) : List (Response × Fragment) → List UInt8 →
    Except Int32 (List UInt8 × Bool)
  | [], buf => .ok (buf, false)
  | (resp, f) :: rest, buf =>
    if resp.status ≠ stOk then .error resp.status
    else
      match takeReply m resp.payload f.len with
      | .error st => .error st
      | .ok data =>
        if data.length < f.len then .ok (buf ++ data, true) else collect m rest (buf ++ data)

/-- The outer loop, from batch `b` on, with what is read so far. Every turn of it reads
something or is the last, so `len` turns are enough. -/
def readLoop (r : Ring) (d : Director) (env : ℕ → Schedule r.geom.slotCount) (fh offset : UInt64)
    (len : ℕ) : ℕ → ℕ → SharedSeg → List UInt8 → Except Int32 (List UInt8)
  | 0, _, _, buf => .ok buf
  | fuel + 1, b, m, buf =>
    if buf.length < len then
      let permits := min (1 + (env b).extra)
        (max 1 (r.plan.wanted r.geom.slotCount len (len - buf.length)))
      let frags := r.plan.batch len permits buf.length
      if frags = [] then .ok buf
      else
        match submitManyHeld r d (env b) (frags.map fun f => f.request fh offset) m with
        | none => .error stIoError
        | some (m', responses) =>
          match collect m' (responses.zip frags) buf with
          | .error st => .error st
          | .ok (buf', eof) =>
            if eof = true ∨ buf'.length = buf.length then .ok buf'
            else readLoop r d env fh offset len fuel (b + 1) m' buf'
    else .ok buf

/-- A read of `len` bytes at `offset`: the bytes put at the start of the caller's buffer. -/
def readFragmented (r : Ring) (d : Director) (env : ℕ → Schedule r.geom.slotCount)
    (m : SharedSeg) (fh offset : UInt64) (len : ℕ) : Except Int32 (List UInt8) :=
  readLoop r d env fh offset len len 0 m []

end AetherVfs.Read
