import AetherVfs.Lib.Custody
import AetherVfs.Ipc.Ring

/-!
# Who owns a slot, and what is in it

The state word of a slot says exactly who holds it: a client from CLAIMED to
COMPLETED, a server while PROCESSING or ABANDONED, both while PROCESSING.
`Ownership` states this for the whole system; `ClientOk` and `ServerOk` say
what each thread knows, at each of its accesses, about the slots it holds.
-/

namespace AetherVfs.Ipc

/-- The states in which a client's call has the slot. -/
def SlotState.withClient : SlotState → Bool
  | .claimed | .submitted | .processing | .completed => true
  | .free | .abandoned => false

/-- The states in which a server thread has the slot. -/
def SlotState.withServer : SlotState → Bool
  | .processing | .abandoned => true
  | .free | .claimed | .submitted | .completed => false

theorem SlotState.withServer_iff {st : SlotState} :
    st.withServer = true ↔ st = .processing ∨ st = .abandoned := by
  cases st <;> simp [withServer]

theorem SlotState.withClient_iff {st : SlotState} :
    st.withClient = true ↔
      st = .claimed ∨ st = .submitted ∨ st = .processing ∨ st = .completed := by
  cases st <;> simp [withClient]

namespace Slot

/-- The payload area starts with the first `n` bytes of `bytes`. -/
def HasBytes (x : Slot) (bytes : List UInt8) (n : ℕ) : Prop :=
  ∀ k b, k < n → bytes[k]? = some b → x.payload k = b

/-- The slot carries the request `r`, ready to be read. -/
structure HasRequest (x : Slot) (r : Request) : Prop where
  opcode : x.opcode = r.opcode
  flags : x.flags = r.flags
  len : x.payloadLen.toNat = r.payload.length
  bytes : x.HasBytes r.payload r.payload.length

/-- The slot carries the answer `r` to the request `id`, ready to be read. -/
structure HasReply (x : Slot) (id : UInt64) (r : Response) : Prop where
  ack : x.ack = id.toUInt32
  status : x.status = r.status
  len : x.payloadLen.toNat = r.payload.length
  bytes : x.HasBytes r.payload r.payload.length

variable {bytes : List UInt8}

theorem HasBytes.write {x : Slot} {k : ℕ} {b : UInt8} (h : x.HasBytes bytes k)
    (hb : bytes[k]? = some b) :
    HasBytes { x with payload := Function.update x.payload k b } bytes (k + 1) := by
  intro j b' hj hb'
  rcases Nat.lt_succ_iff_lt_or_eq.mp hj with hlt | rfl
  · simpa [Function.update_of_ne hlt.ne] using h j b' hlt hb'
  · rw [hb] at hb'
    simpa using Option.some.inj hb'

theorem HasBytes.of_length_le {x : Slot} {k : ℕ} (h : x.HasBytes bytes k) (hk : bytes.length ≤ k) :
    x.HasBytes bytes bytes.length :=
  fun j b hj hb => h j b (hj.trans_le hk) hb

theorem HasBytes.snoc_take {x : Slot} {buf : List UInt8} (h : x.HasBytes bytes bytes.length)
    (hbuf : buf = bytes.take buf.length) (hlt : buf.length < bytes.length) :
    buf ++ [x.payload buf.length] = bytes.take (buf ++ [x.payload buf.length]).length := by
  have hb : bytes[buf.length]? = some bytes[buf.length] := List.getElem?_eq_getElem hlt
  rw [h _ _ hlt hb, List.length_append, List.length_singleton, List.take_succ_eq_append_getElem hlt,
    ← hbuf]

end Slot

namespace History

/-- The handler was called with `r` for publication `uid`, and `resp` is what its answer
is delivered as. -/
def Called (g : Geom) (h : History) (uid : ℕ) (r : Request) (resp : Response) : Prop :=
  ∃ call ∈ h.calls, call.uid = uid ∧ call.req = r ∧ resp = Server.delivered g call.result

def Uncalled (h : History) (uid : ℕ) : Prop := ∀ call ∈ h.calls, call.uid ≠ uid

variable {h h' : History} {uid : ℕ}

theorem Uncalled.of_calls_eq (heq : h'.calls = h.calls) (hun : h.Uncalled uid) :
    h'.Uncalled uid := by
  rw [Uncalled, heq]
  exact hun

/-- `h'` continues `h`. -/
structure Extends (h h' : History) : Prop where
  published : h.published <+: h'.published
  calls : ∀ call ∈ h.calls, call ∈ h'.calls

theorem Extends.refl (h : History) : Extends h h := ⟨List.prefix_rfl, fun _ hc => hc⟩

theorem Extends.getElem? (hx : Extends h h') {p : Publication} (hp : h.published[uid]? = some p) :
    h'.published[uid]? = some p := by
  obtain ⟨rest, hrest⟩ := hx.published
  obtain ⟨hlt, -⟩ := List.getElem?_eq_some_iff.mp hp
  rw [← hrest, List.getElem?_append_left hlt]
  exact hp

theorem Called.mono {g : Geom} (hx : Extends h h') {r : Request} {resp : Response}
    (hc : Called g h uid r resp) : Called g h' uid r resp := by
  obtain ⟨call, hmem, hrest⟩ := hc
  exact ⟨call, hx.calls call hmem, hrest⟩

end History

theorem Server.delivered_length_le (g : Geom) (r : Response) :
    (Server.delivered g r).payload.length ≤ g.payloadCap := by
  unfold Server.delivered
  split
  · simp
  · omega

/-- What a client knows about a request it published and has not given up. -/
structure Sent (g : Geom) (m : Memory) (t : Ticket) : Prop where
  published : m.log.published[t.uid]? = some ⟨t.slot, t.reqId, t.req⟩
  uid : (m.slots t.slot).uid = t.uid
  reqId : (m.slots t.slot).reqId = t.reqId
  not_claimed : (m.slots t.slot).state ≠ .claimed
  completed : (m.slots t.slot).state = .completed →
    ∃ resp, m.log.Called g t.uid t.req resp ∧ (m.slots t.slot).HasReply t.reqId resp

/-- What a SUBMITTED slot holds, whether or not its client is still waiting. -/
structure Posted (m : Memory) (s : ℕ) (p : Publication) : Prop where
  published : m.log.published[(m.slots s).uid]? = some p
  slot : p.slot = s
  reqId : (m.slots s).reqId = p.reqId
  request : (m.slots s).HasRequest p.req
  uncalled : m.log.Uncalled (m.slots s).uid

/-- What `publish_request` has put into the slot it is filling. -/
def Written (g : Geom) (x : Slot) (r : Request) : PublishStage → Prop
  | .seq => True
  | .opcode _ => r.payload.length ≤ g.payloadCap
  | .flags _ => r.payload.length ≤ g.payloadCap ∧ x.opcode = r.opcode
  | .len _ => r.payload.length ≤ g.payloadCap ∧ x.opcode = r.opcode ∧ x.flags = r.flags
  | .reqId _ => r.payload.length ≤ g.payloadCap ∧ x.opcode = r.opcode ∧ x.flags = r.flags ∧
      x.payloadLen.toNat = r.payload.length
  | .byte id k => r.payload.length ≤ g.payloadCap ∧ x.opcode = r.opcode ∧ x.flags = r.flags ∧
      x.payloadLen.toNat = r.payload.length ∧ x.reqId = id ∧ x.HasBytes r.payload k

/-- Waiting for `t`: every ticket before it is answered, and the ones after it are still
to come. -/
def Awaiting (m : Memory) (c : Client) (t : Ticket) (rest : List Ticket) : Prop :=
  ∃ done, c.issued = done ++ t :: rest ∧ ∀ d ∈ done, (m.slots d.slot).state = .completed

/-- What a client thread knows at each of its accesses. -/
def ClientOk (g : Geom) (m : Memory) (c : Client) : Prop :=
  match c.pc with
  | .idle => True
  | .scan _ _ | .claim _ _ | .bump => ∀ t ∈ c.issued, Sent g m t
  | .publish r s w =>
    (∀ t ∈ c.issued, Sent g m t) ∧ (m.slots s).state = .claimed ∧ Written g (m.slots s) r w
  | .poll t rest | .wait t rest => (∀ t ∈ c.issued, Sent g m t) ∧ Awaiting m c t rest
  | .readAck t rest | .readStatus t rest =>
    (∀ t ∈ c.issued, Sent g m t) ∧ Awaiting m c t rest ∧ (m.slots t.slot).state = .completed
  | .readLen t rest st =>
    (∀ t ∈ c.issued, Sent g m t) ∧ Awaiting m c t rest ∧
      (m.slots t.slot).state = .completed ∧ (m.slots t.slot).status = st
  | .readBytes t rest st n buf =>
    (∀ t ∈ c.issued, Sent g m t) ∧ Awaiting m c t rest ∧
      (m.slots t.slot).state = .completed ∧ (m.slots t.slot).status = st ∧
      n = (m.slots t.slot).payloadLen.toNat ∧ buf.length ≤ n ∧
      ∀ k b, buf[k]? = some b → (m.slots t.slot).payload k = b
  | .held => ∀ t ∈ c.issued, (m.slots t.slot).state = .completed
  | .free todo => ∀ s ∈ todo, (m.slots s).state = .completed
  | .abandon _ _ _ | .abandonCas _ _ _ _ _ => True

/-- What a server thread knows at each access between its take and its completion. -/
def ServerAt (g : Geom) (m : Memory) (v : Server) (p : Publication) : Prop :=
  let x := m.slots v.slot
  let fresh := x.HasRequest p.req ∧ m.log.Uncalled v.uid
  let called := v.reqId = p.reqId ∧ m.log.Called g v.uid p.req v.reply
  match v.pc with
  | .idle | .take _ => True
  | .advance | .readOpcode => fresh
  | .readFlags => fresh ∧ v.opcode = p.req.opcode
  | .readReqId => fresh ∧ v.opcode = p.req.opcode ∧ v.flags = p.req.flags
  | .readLen => fresh ∧ v.opcode = p.req.opcode ∧ v.flags = p.req.flags ∧ v.reqId = p.reqId
  | .readBytes => fresh ∧ v.opcode = p.req.opcode ∧ v.flags = p.req.flags ∧ v.reqId = p.reqId ∧
      v.len = p.req.payload.length ∧ v.buf.length ≤ v.len ∧ v.buf = p.req.payload.take v.buf.length
  | .handle => fresh ∧ v.opcode = p.req.opcode ∧ v.flags = p.req.flags ∧ v.reqId = p.reqId ∧
      v.buf = p.req.payload
  | .checkId | .checkState => v.reqId = p.reqId ∧
      ∃ call ∈ m.log.calls, call.uid = v.uid ∧ call.req = p.req ∧ call.result = v.reply
  | .writeBytes k => called ∧ x.HasBytes v.reply.payload k
  | .writeStatus => called ∧ x.HasBytes v.reply.payload v.reply.payload.length
  | .writeLen => called ∧ x.HasBytes v.reply.payload v.reply.payload.length ∧
      x.status = v.reply.status
  | .writeAck => called ∧ x.HasBytes v.reply.payload v.reply.payload.length ∧
      x.status = v.reply.status ∧ x.payloadLen.toNat = v.reply.payload.length
  | .complete => m.log.Called g v.uid p.req v.reply ∧ x.HasReply p.reqId v.reply
  | .drain => x.state = .abandoned

/-- The publication a server took is the one its slot carries. -/
structure Taken (m : Memory) (v : Server) (p : Publication) : Prop where
  published : m.log.published[v.uid]? = some p
  slot : p.slot = v.slot
  uid : (m.slots v.slot).uid = v.uid
  reqId : (m.slots v.slot).reqId = p.reqId

def ServerOk (g : Geom) (m : Memory) (v : Server) : Prop :=
  v.slots = [] ∨ ∃ p, Taken m v p ∧ ServerAt g m v p

/-- The state word of every slot says who holds it, and nobody else does. -/
structure Ownership {ι κ : Type*} (σ : System ι κ) : Prop where
  clients : Custody.Exclusive fun i => (σ.clients i).slots
  servers : Custody.Exclusive fun k => (σ.servers k).slots
  withClient : ∀ s, Custody.Owned (fun i => (σ.clients i).slots) s ↔
    (σ.mem.slots s).state.withClient = true
  withServer : ∀ s, Custody.Owned (fun k => (σ.servers k).slots) s ↔
    (σ.mem.slots s).state.withServer = true

/-- What the history of a run records. -/
structure HistoryOk (g : Geom) (h : History) : Prop where
  fits : ∀ p ∈ h.published, p.req.payload.length ≤ g.payloadCap
  calls_nodup : (h.calls.map HandlerCall.uid).Nodup
  calls_published : ∀ call ∈ h.calls, h.published[call.uid]? = some ⟨call.slot, call.reqId, call.req⟩
  answers : ∀ a ∈ h.answers, h.Called g a.uid a.req a.response

structure Invariant (g : Geom) {ι κ : Type*} (σ : System ι κ) : Prop where
  ownership : Ownership σ
  clientOk : ∀ i, ClientOk g σ.mem (σ.clients i)
  serverOk : ∀ k, ServerOk g σ.mem (σ.servers k)
  posted : ∀ s, (σ.mem.slots s).state = .submitted → ∃ p, Posted σ.mem s p
  history : HistoryOk g σ.mem.log

section Frame

variable {g : Geom} {m m' : Memory} {t : Ticket} {c : Client}

theorem Sent.frame (h : Sent g m t) (hx : m.log.Extends m'.log)
    (hslot : m'.slots t.slot = m.slots t.slot) : Sent g m' t := by
  refine ⟨hx.getElem? h.published, ?_, ?_, ?_, fun hs => ?_⟩
  · rw [hslot]
    exact h.uid
  · rw [hslot]
    exact h.reqId
  · rw [hslot]
    exact h.not_claimed
  · rw [hslot] at hs ⊢
    obtain ⟨resp, hcalled, hreply⟩ := h.completed hs
    exact ⟨resp, hcalled.mono hx, hreply⟩

theorem Posted.frame {s : ℕ} {p : Publication} (h : Posted m s p) (hx : m.log.Extends m'.log)
    (hslot : m'.slots s = m.slots s)
    (hcall : m.log.Uncalled (m.slots s).uid → m'.log.Uncalled (m.slots s).uid) :
    Posted m' s p := by
  refine ⟨?_, h.slot, ?_, ?_, ?_⟩ <;> rw [hslot]
  · exact hx.getElem? h.published
  · exact h.reqId
  · exact h.request
  · exact hcall h.uncalled

theorem Awaiting.mono {rest : List Ticket} (h : Awaiting m c t rest)
    (hfix : ∀ d ∈ c.issued, (m.slots d.slot).state = .completed →
      m'.slots d.slot = m.slots d.slot) : Awaiting m' c t rest := by
  obtain ⟨done, hissued, hdone⟩ := h
  refine ⟨done, hissued, fun d hd => ?_⟩
  rw [hfix d (by simp [hissued, hd]) (hdone d hd)]
  exact hdone d hd

theorem Awaiting.mem {rest : List Ticket} (h : Awaiting m c t rest) : t ∈ c.issued := by
  obtain ⟨done, hissued, -⟩ := h
  simp [hissued]

/-- What a client knows survives the steps of the others: they leave its claimed and
completed slots alone, and keep the facts of its tickets. -/
theorem ClientOk.frame (h : ClientOk g m c)
    (hsent : ∀ t ∈ c.issued, t.slot ∈ c.slots → Sent g m t → Sent g m' t)
    (hfix : ∀ s ∈ c.slots, (m.slots s).state = .claimed ∨ (m.slots s).state = .completed →
      m'.slots s = m.slots s) : ClientOk g m' c := by
  have hmap : ∀ t ∈ c.issued, t.slot ∈ c.issued.map Ticket.slot :=
    fun t ht => List.mem_map_of_mem ht
  have hawait : (∀ s ∈ c.issued.map Ticket.slot,
      (m.slots s).state = .claimed ∨ (m.slots s).state = .completed → m'.slots s = m.slots s) →
      ∀ t rest, Awaiting m c t rest → Awaiting m' c t rest :=
    fun hf t rest ha => ha.mono fun d hd hs => hf _ (hmap d hd) (.inr hs)
  cases hpc : c.pc <;> simp only [ClientOk, Client.slots, hpc] at h hsent hfix ⊢
  case scan | claim | bump => exact fun t ht => hsent t ht (hmap t ht) (h t ht)
  case publish r s w =>
    rw [hfix s (by simp) (.inl h.2.1)]
    exact ⟨fun t ht => hsent t ht (by simp [hmap t ht]) (h.1 t ht), h.2⟩
  case poll | wait =>
    exact ⟨fun t ht => hsent t ht (hmap t ht) (h.1 t ht), hawait hfix _ _ h.2⟩
  case readAck | readStatus =>
    rw [hfix _ (hmap _ h.2.1.mem) (.inr h.2.2)]
    exact ⟨fun t ht => hsent t ht (hmap t ht) (h.1 t ht), hawait hfix _ _ h.2.1, h.2.2⟩
  case readLen | readBytes =>
    rw [hfix _ (hmap _ h.2.1.mem) (.inr h.2.2.1)]
    exact ⟨fun t ht => hsent t ht (hmap t ht) (h.1 t ht), hawait hfix _ _ h.2.1, h.2.2⟩
  case held =>
    intro t ht
    rw [hfix _ (hmap t ht) (.inr (h t ht))]
    exact h t ht
  case free =>
    intro s hs
    rw [hfix s hs (.inr (h s hs))]
    exact h s hs

/-- What a server knows survives the steps of the others: they change at most the state
word of its slot, and that not once it is ABANDONED, and do not call the handler for its
request. -/
theorem ServerOk.frame {v : Server} (h : ServerOk g m v) (hx : m.log.Extends m'.log)
    (hslot : ∀ s ∈ v.slots, ∃ st, m'.slots s = { m.slots s with state := st } ∧
      ((m.slots s).state = .abandoned → st = .abandoned))
    (hcall : v.slots ≠ [] → m.log.Uncalled v.uid → m'.log.Uncalled v.uid) : ServerOk g m' v := by
  by_cases hv : v.slots = []
  · exact .inl hv
  obtain ⟨p, ht, hat⟩ := h.resolve_left hv
  obtain ⟨st, hst, habandoned⟩ := by
    refine hslot v.slot ?_
    unfold Server.slots at hv ⊢
    split <;> simp_all
  refine .inr ⟨p, ⟨hx.getElem? ht.published, ht.slot, by rw [hst]; exact ht.uid,
    by rw [hst]; exact ht.reqId⟩, ?_⟩
  have hfresh : (m.slots v.slot).HasRequest p.req ∧ m.log.Uncalled v.uid →
      (m'.slots v.slot).HasRequest p.req ∧ m'.log.Uncalled v.uid := by
    rintro ⟨⟨h1, h2, h3, h4⟩, hun⟩
    rw [hst]
    exact ⟨⟨h1, h2, h3, h4⟩, hcall hv hun⟩
  cases hpc : v.pc <;> simp only [ServerAt, hpc] at hat ⊢
  case advance | readOpcode => exact hfresh hat
  case readFlags | readReqId | readLen | readBytes | handle => exact ⟨hfresh hat.1, hat.2⟩
  case checkId | checkState =>
    obtain ⟨hid, call, hmem, hrest⟩ := hat
    exact ⟨hid, call, hx.calls call hmem, hrest⟩
  case writeBytes | writeStatus | writeLen | writeAck =>
    rw [hst]
    exact ⟨⟨hat.1.1, hat.1.2.mono hx⟩, hat.2⟩
  case complete =>
    obtain ⟨hcalled, h1, h2, h3, h4⟩ := hat
    rw [hst]
    exact ⟨hcalled.mono hx, h1, h2, h3, h4⟩
  case drain =>
    rw [hst]
    exact habandoned hat

end Frame

end AetherVfs.Ipc
