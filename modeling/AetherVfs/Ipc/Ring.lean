import AetherVfs.Lib.Transition

/-!
# The shared-memory ring

Slots, their headers and payload bytes, the client side of `submit_reporting`
and `submit_many_held_reporting`, and the server side of `serve_one`, one
shared-memory access to a step. A step is a total function of the memory and
of the thread's own locals; the scheduler and the environment (deadlines, the
handler's answer) enter through the event that drives it.

The segment accessors return nothing for an out-of-range offset; `ring::open`
checked the geometry, so every access here is in range.
-/

namespace AetherVfs.Ipc

inductive SlotState
  | free
  | claimed
  | submitted
  | processing
  | completed
  | abandoned
  deriving DecidableEq, Repr

structure Request where
  opcode : UInt32
  flags : UInt32
  payload : List UInt8
  deriving DecidableEq

structure Response where
  status : Int32
  payload : List UInt8
  deriving DecidableEq

inductive IpcError
  | payloadTooLarge
  | ringFull
  | timeout
  | badResponse
  deriving DecidableEq

/-- The geometry `ring::open` read from the ring header, both words 32 bits wide. -/
structure Geom where
  slotCount : ℕ
  payloadCap : ℕ
  slotCount_lt : slotCount < 2 ^ 32
  payloadCap_lt : payloadCap < 2 ^ 32

/-- The slot looked at in turn `i` of a pass that begins at `start`. -/
def Geom.slotAt (g : Geom) (start : UInt32) (i : ℕ) : ℕ :=
  (start + UInt32.ofNat i).toNat % g.slotCount

/-- A slot header with its payload area. `uid` is a history variable: the number of
the publication the slot last carried. -/
structure Slot where
  state : SlotState
  opcode : UInt32
  flags : UInt32
  payloadLen : UInt32
  status : Int32
  ack : UInt32
  reqId : UInt64
  payload : ℕ → UInt8
  uid : ℕ

/-- A request made visible to servers by the store of SUBMITTED. -/
structure Publication where
  slot : ℕ
  reqId : UInt64
  req : Request
  deriving DecidableEq

/-- One call of a handler: the publication it was taken from, what it was given and
what it answered. -/
structure HandlerCall where
  uid : ℕ
  slot : ℕ
  reqId : UInt64
  req : Request
  result : Response
  deriving DecidableEq

/-- One successful return of `await_response`, with the caller's own request. -/
structure Answer where
  uid : ℕ
  req : Request
  response : Response
  deriving DecidableEq

/-- The history of a run. A publication's number is its place in `published`. -/
structure History where
  published : List Publication
  calls : List HandlerCall
  answers : List Answer
  deriving DecidableEq

/-- The mapped segment, the cursor of every `RingServer`, and the history. -/
structure Memory where
  slots : ℕ → Slot
  reqSeq : UInt64
  submitSeq : UInt32
  next : ℕ → UInt32
  log : History

namespace Memory

def modify (m : Memory) (s : ℕ) (f : Slot → Slot) : Memory :=
  { m with slots := Function.update m.slots s (f (m.slots s)) }

@[simp] theorem modify_slots_self (m : Memory) (s : ℕ) (f : Slot → Slot) :
    (m.modify s f).slots s = f (m.slots s) := by simp [modify]

theorem modify_slots_of_ne (m : Memory) {s s' : ℕ} (h : s' ≠ s) (f : Slot → Slot) :
    (m.modify s f).slots s' = m.slots s' := by simp [modify, h]

@[simp] theorem modify_log (m : Memory) (s : ℕ) (f : Slot → Slot) :
    (m.modify s f).log = m.log := rfl

end Memory

structure Ticket where
  slot : ℕ
  reqId : UInt64
  uid : ℕ
  req : Request
  deriving DecidableEq

/-- The error side of the reporting submits: the slots left with a server. -/
structure Unanswered where
  error : IpcError
  retired : List ℕ
  deriving DecidableEq

/-- Where `publish_request` stands, with the request id it drew. -/
inductive PublishStage
  | seq
  | opcode (id : UInt64)
  | flags (id : UInt64)
  | len (id : UInt64)
  | reqId (id : UInt64)
  | byte (id : UInt64) (k : ℕ)
  deriving DecidableEq

/-- The next access of a client thread, with the locals it needs. -/
inductive ClientPc
  | idle
  | scan (r : Request) (i : ℕ)
  | claim (r : Request) (i : ℕ)
  | publish (r : Request) (s : ℕ) (w : PublishStage)
  | bump
  | poll (t : Ticket) (rest : List Ticket)
  | wait (t : Ticket) (rest : List Ticket)
  | readAck (t : Ticket) (rest : List Ticket)
  | readStatus (t : Ticket) (rest : List Ticket)
  | readLen (t : Ticket) (rest : List Ticket) (status : Int32)
  | readBytes (t : Ticket) (rest : List Ticket) (status : Int32) (n : ℕ) (buf : List UInt8)
  | held
  | free (todo : List ℕ)
  | abandon (todo retired : List ℕ) (error : IpcError)
  | abandonCas (from_ : SlotState) (s : ℕ) (todo retired : List ℕ) (error : IpcError)
  deriving DecidableEq

/-- A client thread: its slot hint and the locals of the submit it runs. `many` tells
`submit_many_held_reporting` from `submit_reporting`; `reqs` are the requests of the
batch after the one in hand. -/
structure Client where
  hint : UInt32
  many : Bool
  reqs : List Request
  start : UInt32
  issued : List Ticket
  out : List Response
  pc : ClientPc
  outcome : Option (Except Unanswered (List Response))

namespace Client

/-- The slots the client's call still has to give back. -/
def slots (c : Client) : List ℕ :=
  match c.pc with
  | .idle => []
  | .publish _ s _ => c.issued.map Ticket.slot ++ [s]
  | .free todo => todo
  | .abandon todo _ _ => todo
  | .abandonCas _ s todo _ _ => s :: todo
  | _ => c.issued.map Ticket.slot

/-- An error leaves through `abandon_slots` on every slot the call holds. -/
def fail (c : Client) (e : IpcError) : Client := { c with pc := .abandon c.slots [] e }

def idle (hint : UInt32) : Client :=
  { hint := hint, many := false, reqs := [], start := 0, issued := [], out := [], pc := .idle,
    outcome := none }

def submit (g : Geom) (c : Client) (many : Bool) (reqs : List Request) : Client :=
  match reqs with
  | [] => { c with outcome := some (.ok []) }
  | r :: rs =>
    if (r :: rs).any fun q => g.payloadCap < q.payload.length then
      { c with outcome := some (.error ⟨.payloadTooLarge, []⟩) }
    else
      { c with
        many := many, reqs := rs, start := c.hint, issued := [], out := []
        pc := .scan r 0, outcome := none }

def publish (g : Geom) (m : Memory) (c : Client) (r : Request) (s : ℕ) :
    PublishStage → Memory × Client
  | .seq =>
    if g.payloadCap < r.payload.length then (m, c.fail .payloadTooLarge)
    else ({ m with reqSeq := m.reqSeq + 1 }, { c with pc := .publish r s (.opcode m.reqSeq) })
  | .opcode id =>
    (m.modify s fun x => { x with opcode := r.opcode },
      { c with pc := .publish r s (.flags id) })
  | .flags id =>
    (m.modify s fun x => { x with flags := r.flags }, { c with pc := .publish r s (.len id) })
  | .len id =>
    (m.modify s fun x => { x with payloadLen := UInt32.ofNat r.payload.length },
      { c with pc := .publish r s (.reqId id) })
  | .reqId id =>
    (m.modify s fun x => { x with reqId := id }, { c with pc := .publish r s (.byte id 0) })
  | .byte id k =>
    match r.payload[k]? with
    | some b =>
      (m.modify s fun x => { x with payload := Function.update x.payload k b },
        { c with pc := .publish r s (.byte id (k + 1)) })
    | none =>
      let uid := m.log.published.length
      let m' := m.modify s fun x => { x with state := .submitted, uid := uid }
      ({ m' with log := { m.log with published := m.log.published ++ [⟨s, id, r⟩] } },
        { c with issued := c.issued ++ [⟨s, id, uid, r⟩], pc := .bump })

/-- After a request is out: claim for the next one of the batch, or start waiting. -/
def published (c : Client) : Client :=
  match c.reqs, c.issued with
  | r :: rs, _ => { c with reqs := rs, pc := .scan r 0 }
  | [], t :: rest =>
    { c with hint := if c.many then UInt32.ofNat t.slot else c.hint, pc := .poll t rest }
  | [], [] => { c with pc := .idle }

/-- `await_response` returned `resp` for `t`: on to the next ticket, or done. -/
def answered (c : Client) (resp : Response) (rest : List Ticket) : Client :=
  match rest with
  | t' :: rest' => { c with out := c.out ++ [resp], pc := .poll t' rest' }
  | [] =>
    if c.many then
      { c with out := c.out ++ [resp], pc := .held, outcome := some (.ok (c.out ++ [resp])) }
    else { c with out := c.out ++ [resp], pc := .free (c.issued.map Ticket.slot) }

/-- One access of `abandon` on the first slot of `todo`. -/
def abandonLoad (m : Memory) (c : Client) (s : ℕ) (todo retired : List ℕ) (e : IpcError) :
    Client :=
  match (m.slots s).state with
  | .processing => { c with pc := .abandonCas .processing s todo retired e }
  | .submitted => { c with pc := .abandonCas .submitted s todo retired e }
  | .claimed => { c with pc := .abandonCas .claimed s todo retired e }
  | .completed => { c with pc := .abandonCas .completed s todo retired e }
  | .abandoned => { c with pc := .abandon todo (retired ++ [s]) e }
  | .free => { c with pc := .abandon todo retired e }

/-- The next access of a client. `expired` says whether the deadline has passed; it is
looked at only where the source reads the clock. -/
def step (g : Geom) (m : Memory) (c : Client) (expired : Bool) : Memory × Client :=
  match c.pc with
  | .idle => (m, c)
  | .scan r i =>
    if i < g.slotCount then
      if (m.slots (g.slotAt c.start i)).state = .free then (m, { c with pc := .claim r i })
      else (m, { c with pc := .scan r (i + 1) })
    else if expired then (m, c.fail .ringFull)
    else (m, { c with pc := .scan r 0 })
  | .claim r i =>
    let s := g.slotAt c.start i
    if (m.slots s).state = .free then
      (m.modify s fun x => { x with state := .claimed },
        { c with
          hint := if c.many then c.hint else UInt32.ofNat s
          start := UInt32.ofNat s + 1
          pc := .publish r s .seq })
    else (m, { c with pc := .scan r (i + 1) })
  | .publish r s w => c.publish g m r s w
  | .bump => ({ m with submitSeq := m.submitSeq + 1 }, c.published)
  | .poll t rest =>
    if (m.slots t.slot).state = .completed then (m, { c with pc := .readAck t rest })
    else (m, { c with pc := .wait t rest })
  | .wait t rest =>
    if expired then (m, c.fail .timeout) else (m, { c with pc := .poll t rest })
  | .readAck t rest =>
    if (m.slots t.slot).ack = t.reqId.toUInt32 then (m, { c with pc := .readStatus t rest })
    else (m, c.fail .badResponse)
  | .readStatus t rest => (m, { c with pc := .readLen t rest (m.slots t.slot).status })
  | .readLen t rest st =>
    if g.payloadCap < (m.slots t.slot).payloadLen.toNat then (m, c.fail .badResponse)
    else (m, { c with pc := .readBytes t rest st (m.slots t.slot).payloadLen.toNat [] })
  | .readBytes t rest st n buf =>
    if buf.length < n then
      (m, { c with
        pc := .readBytes t rest st n (buf ++ [(m.slots t.slot).payload buf.length]) })
    else
      ({ m with log := { m.log with answers := m.log.answers ++ [⟨t.uid, t.req, ⟨st, buf⟩⟩] } },
        c.answered ⟨st, buf⟩ rest)
  | .held => (m, { c with pc := .free (c.issued.map Ticket.slot) })
  | .free [] => (m, { c with pc := .idle, outcome := some (.ok c.out) })
  | .free (s :: todo) =>
    (m.modify s fun x => { x with state := .free }, { c with pc := .free todo })
  | .abandon [] retired e =>
    (m, { c with pc := .idle, outcome := some (.error ⟨e, retired⟩) })
  | .abandon (s :: todo) retired e => (m, c.abandonLoad m s todo retired e)
  | .abandonCas from_ s todo retired e =>
    if (m.slots s).state = from_ then
      if from_ = .processing then
        (m.modify s fun x => { x with state := .abandoned },
          { c with pc := .abandon todo (retired ++ [s]) e })
      else
        (m.modify s fun x => { x with state := .free }, { c with pc := .abandon todo retired e })
    else (m, { c with pc := .abandon (s :: todo) retired e })

end Client

inductive ServerPc
  | idle
  | take (i : ℕ)
  | advance
  | readOpcode
  | readFlags
  | readReqId
  | readLen
  | readBytes
  | handle
  | checkId
  | checkState
  | writeBytes (k : ℕ)
  | writeStatus
  | writeLen
  | writeAck
  | complete
  | drain
  deriving DecidableEq

/-- How a `serve_one` ended: nothing was pending, the slot held a malformed request, or
one of the three completions. -/
inductive Served
  | nothing
  | malformed
  | delivered
  | drained
  | stale
  deriving DecidableEq

/-- A thread in `serve_one` of the `RingServer` numbered `endpoint`. From the take on,
`slot` is its slot and `uid` (a history variable) the publication it took. -/
structure Server where
  endpoint : ℕ
  start : UInt32
  slot : ℕ
  uid : ℕ
  opcode : UInt32
  flags : UInt32
  reqId : UInt64
  len : ℕ
  buf : List UInt8
  reply : Response
  pc : ServerPc
  outcome : Option Served

namespace Server

/-- The slot the thread has between its take and its completion. -/
def slots (v : Server) : List ℕ :=
  match v.pc with
  | .idle => []
  | .take _ => []
  | _ => [v.slot]

def idle : Server :=
  { endpoint := 0, start := 0, slot := 0, uid := 0, opcode := 0, flags := 0, reqId := 0, len := 0,
    buf := [], reply := ⟨0, []⟩, pc := .idle, outcome := none }

def finish (v : Server) (how : Served) : Server := { v with pc := .idle, outcome := some how }

@[simp] theorem finish_slots (v : Server) (how : Served) : (v.finish how).slots = [] := rfl

/-- What a client is told when the handler answers `r`: a payload that does not fit the
slot is replaced by the overflow sentinel. -/
def delivered (g : Geom) (r : Response) : Response :=
  if g.payloadCap < r.payload.length then ⟨Int32.minValue, []⟩ else r

/-- The next access of `serve_one`. `result` is what the handler answers; it is looked at
only where the handler is called. -/
def step (g : Geom) (m : Memory) (v : Server) (result : Response) : Memory × Server :=
  match v.pc with
  | .idle => (m, v)
  | .take i =>
    let s := g.slotAt v.start i
    if i < g.slotCount then
      if (m.slots s).state = .submitted then
        (m.modify s fun x => { x with state := .processing },
          { v with slot := s, uid := (m.slots s).uid, pc := .advance })
      else (m, { v with pc := .take (i + 1) })
    else (m, v.finish .nothing)
  | .advance =>
    ({ m with next := Function.update m.next v.endpoint (UInt32.ofNat v.slot + 1) },
      { v with pc := .readOpcode })
  | .readOpcode => (m, { v with opcode := (m.slots v.slot).opcode, pc := .readFlags })
  | .readFlags => (m, { v with flags := (m.slots v.slot).flags, pc := .readReqId })
  | .readReqId => (m, { v with reqId := (m.slots v.slot).reqId, pc := .readLen })
  | .readLen =>
    if g.payloadCap < (m.slots v.slot).payloadLen.toNat then (m, v.finish .malformed)
    else (m, { v with len := (m.slots v.slot).payloadLen.toNat, buf := [], pc := .readBytes })
  | .readBytes =>
    if v.buf.length < v.len then
      (m, { v with buf := v.buf ++ [(m.slots v.slot).payload v.buf.length] })
    else (m, { v with pc := .handle })
  | .handle =>
    ({ m with
        log := { m.log with
          calls := m.log.calls ++
            [⟨v.uid, v.slot, v.reqId, ⟨v.opcode, v.flags, v.buf⟩, result⟩] } },
      { v with reply := result, pc := .checkId })
  | .checkId =>
    if (m.slots v.slot).reqId = v.reqId then (m, { v with pc := .checkState })
    else (m, v.finish .stale)
  | .checkState =>
    match (m.slots v.slot).state with
    | .processing =>
      if g.payloadCap < v.reply.payload.length then
        (m, { v with reply := ⟨Int32.minValue, []⟩, pc := .writeStatus })
      else (m, { v with pc := .writeBytes 0 })
    | .abandoned => (m, { v with pc := .drain })
    | _ => (m, v.finish .stale)
  | .writeBytes k =>
    match v.reply.payload[k]? with
    | some b =>
      (m.modify v.slot fun x => { x with payload := Function.update x.payload k b },
        { v with pc := .writeBytes (k + 1) })
    | none => (m, { v with pc := .writeStatus })
  | .writeStatus =>
    (m.modify v.slot fun x => { x with status := v.reply.status }, { v with pc := .writeLen })
  | .writeLen =>
    (m.modify v.slot fun x => { x with payloadLen := UInt32.ofNat v.reply.payload.length },
      { v with pc := .writeAck })
  | .writeAck =>
    (m.modify v.slot fun x => { x with ack := v.reqId.toUInt32 }, { v with pc := .complete })
  | .complete =>
    match (m.slots v.slot).state with
    | .processing =>
      (m.modify v.slot fun x => { x with state := .completed }, v.finish .delivered)
    | .abandoned => (m, { v with pc := .drain })
    | _ => (m, v.finish .stale)
  | .drain =>
    if (m.slots v.slot).state = .abandoned then
      (m.modify v.slot fun x => { x with state := .free }, v.finish .drained)
    else (m, v.finish .stale)

end Server

structure System (ι κ : Type*) where
  mem : Memory
  clients : ι → Client
  servers : κ → Server

/-- One turn of one thread. A turn that does not fit where the thread stands (a second
submit while one is running, an access while idle) changes nothing. -/
inductive Event (ι κ : Type*)
  | submit (i : ι) (r : Request)
  | submitMany (i : ι) (rs : List Request)
  | client (i : ι) (expired : Bool)
  | serve (k : κ) (endpoint : ℕ)
  | server (k : κ) (result : Response)

namespace System

variable {ι κ : Type*}

structure Initial (σ : System ι κ) : Prop where
  slots_free : ∀ s, (σ.mem.slots s).state = .free
  log_empty : σ.mem.log = ⟨[], [], []⟩
  clients_idle : ∀ i, (σ.clients i).pc = .idle
  servers_idle : ∀ k, (σ.servers k).pc = .idle

def fresh : System ι κ where
  mem :=
    { slots := fun _ => ⟨.free, 0, 0, 0, 0, 0, 0, fun _ => 0, 0⟩
      reqSeq := 0, submitSeq := 0, next := fun _ => 0, log := ⟨[], [], []⟩ }
  clients := fun _ => Client.idle 0
  servers := fun _ => Server.idle

theorem fresh_initial : (fresh : System ι κ).Initial :=
  ⟨fun _ => rfl, rfl, fun _ => rfl, fun _ => rfl⟩

variable [DecidableEq ι] [DecidableEq κ]

def setClient (σ : System ι κ) (i : ι) (x : Memory × Client) : System ι κ :=
  { σ with mem := x.1, clients := Function.update σ.clients i x.2 }

def setServer (σ : System ι κ) (k : κ) (x : Memory × Server) : System ι κ :=
  { σ with mem := x.1, servers := Function.update σ.servers k x.2 }

def step (g : Geom) (σ : System ι κ) : Event ι κ → System ι κ
  | .submit i r =>
    if (σ.clients i).pc = .idle then σ.setClient i (σ.mem, (σ.clients i).submit g false [r])
    else σ
  | .submitMany i rs =>
    if (σ.clients i).pc = .idle then σ.setClient i (σ.mem, (σ.clients i).submit g true rs)
    else σ
  | .client i expired => σ.setClient i ((σ.clients i).step g σ.mem expired)
  | .serve k ep =>
    if (σ.servers k).pc = .idle then
      σ.setServer k (σ.mem,
        { σ.servers k with
          endpoint := ep, start := σ.mem.next ep, pc := .take 0, outcome := none })
    else σ
  | .server k result => σ.setServer k ((σ.servers k).step g σ.mem result)

def run (g : Geom) (σ : System ι κ) (es : List (Event ι κ)) : System ι κ :=
  Transition.run (step g) σ es

end System

end AetherVfs.Ipc
