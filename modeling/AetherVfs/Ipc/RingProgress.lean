import AetherVfs.Ipc.RingSafety

/-!
# No slot is lost

A slot that is not FREE has one party in charge of it: the client whose call
holds it, or, once a server took it, that server. Left to run on, with its
deadline passed, the party moves the slot to its next state; a rank on the
accesses it has left bounds how long that takes.
-/

namespace AetherVfs.Ipc

open List

variable {ι κ : Type*} {g : Geom} {σ : System ι κ}

/-- The accesses a server has left before it lets go of its slot, when the handler's
answer has `n` bytes. -/
def Server.rank (g : Geom) (n : ℕ) (v : Server) : ℕ :=
  match v.pc with
  | .idle | .take _ => 0
  | .drain => 1
  | .complete => 2
  | .writeAck => 3
  | .writeLen => 4
  | .writeStatus => 5
  | .writeBytes k => 6 + (v.reply.payload.length - k)
  | .checkState => 7 + v.reply.payload.length
  | .checkId => 8 + v.reply.payload.length
  | .handle => 9 + n
  | .readBytes => 10 + n + (v.len - v.buf.length)
  | .readLen => 11 + n + g.payloadCap
  | .readReqId => 12 + n + g.payloadCap
  | .readFlags => 13 + n + g.payloadCap
  | .readOpcode => 14 + n + g.payloadCap
  | .advance => 15 + n + g.payloadCap

variable {s : ℕ} {m : Memory}

/-- A turn of the server that has `s` completes or drains it, or brings the server closer
to doing so. -/
theorem Invariant.server_progress (h : Invariant g σ) {k : κ}
    (hs : s ∈ (σ.servers k).slots) (result : Response) :
    let x := (σ.servers k).step g σ.mem result
    ((σ.mem.slots s).state = .processing ∧ (x.1.slots s).state = .completed) ∨
      ((σ.mem.slots s).state = .abandoned ∧ (σ.servers k).pc = .drain ∧
        (x.1.slots s).state = .free) ∨
      s ∈ x.2.slots ∧ (x.1.slots s).state = (σ.mem.slots s).state ∧
        x.2.rank g result.payload.length < (σ.servers k).rank g result.payload.length := by
  have hst := SlotState.withServer_iff.mp (h.ownership.server_state hs)
  obtain ⟨p, ht, hat⟩ := (h.serverOk k).resolve_left (ne_nil_of_mem hs)
  have hfits := h.history.fits p (mem_of_getElem? ht.published)
  cases hpc : (σ.servers k).pc <;> simp [Server.slots, hpc] at hs <;> subst hs <;>
    simp only [ServerAt, hpc] at hat <;> simp only [Server.step, Server.rank, hpc]
  case advance | readOpcode | readFlags | readReqId | handle =>
    exact .inr (.inr ⟨by simp [Server.slots], trivial, by omega⟩)
  case readLen =>
    have hlen := hat.1.1.len
    rw [if_neg (by omega)]
    exact .inr (.inr ⟨by simp [Server.slots], rfl, by simp; omega⟩)
  case readBytes =>
    split_ifs with hlt
    · exact .inr (.inr ⟨by simp [Server.slots], rfl, by simp; omega⟩)
    · exact .inr (.inr ⟨by simp [Server.slots], rfl, by simp; omega⟩)
  case checkId =>
    rw [if_pos (by rw [ht.reqId, hat.1])]
    exact .inr (.inr ⟨by simp [Server.slots], rfl, by simp⟩)
  case checkState =>
    rcases hst with hproc | habandoned
    · rw [hproc]
      split_ifs
      · exact .inr (.inr ⟨by simp [Server.slots], hproc, by simp; omega⟩)
      · exact .inr (.inr ⟨by simp [Server.slots], hproc, by simp⟩)
    · rw [habandoned]
      exact .inr (.inr ⟨by simp [Server.slots], habandoned, by simp; omega⟩)
  case writeBytes n =>
    cases hb : (σ.servers k).reply.payload[n]? with
    | some b =>
      have hn := (List.getElem?_eq_some_iff.mp hb).1
      exact .inr (.inr ⟨by simp [Server.slots], by simp, by simp; omega⟩)
    | none => exact .inr (.inr ⟨by simp [Server.slots], rfl, by simp; omega⟩)
  case writeStatus | writeLen | writeAck =>
    exact .inr (.inr ⟨by simp [Server.slots], by simp, by simp⟩)
  case complete =>
    rcases hst with hproc | habandoned
    · rw [hproc]
      exact .inl ⟨rfl, by simp⟩
    · rw [habandoned]
      exact .inr (.inr ⟨by simp [Server.slots], habandoned, by simp⟩)
  case drain =>
    rw [if_pos hat]
    exact .inr (.inl ⟨hat, trivial, by simp⟩)

def PublishStage.rank (r : Request) : PublishStage → ℕ
  | .seq => r.payload.length + 7
  | .opcode _ => r.payload.length + 6
  | .flags _ => r.payload.length + 5
  | .len _ => r.payload.length + 4
  | .reqId _ => r.payload.length + 3
  | .byte _ k => r.payload.length - k + 2

/-- A bound on the accesses a client has left, once its deadline has passed, before it has
given back every slot of its call. -/
def Client.rank (g : Geom) (m : Memory) (c : Client) : ℕ :=
  let b := c.issued.length
  let more := (c.reqs.map fun r => g.payloadCap + 17 + 2 * g.slotCount + r.payload.length).sum
  match c.pc with
  | .idle => 0
  | .scan r i =>
    2 * b + (b + 1) * (g.payloadCap + 6) + more + r.payload.length + 13 + 2 * (g.slotCount - i)
  | .claim r i =>
    2 * b + (b + 1) * (g.payloadCap + 6) + more + r.payload.length + 14 +
      2 * (g.slotCount - (i + 1))
  | .publish r _ w => 2 * b + (b + 1) * (g.payloadCap + 6) + more + 5 + w.rank r
  | .bump => 2 * b + b * (g.payloadCap + 6) + more + 4
  | .poll _ rest => 2 * b + (rest.length + 1) * (g.payloadCap + 6) + 2
  | .wait _ _ => 2 * b + 1
  | .readAck _ rest => 2 * b + rest.length * (g.payloadCap + 6) + g.payloadCap + 7
  | .readStatus _ rest => 2 * b + rest.length * (g.payloadCap + 6) + g.payloadCap + 6
  | .readLen _ rest _ => 2 * b + rest.length * (g.payloadCap + 6) + g.payloadCap + 5
  | .readBytes _ rest _ n buf => 2 * b + rest.length * (g.payloadCap + 6) + (n - buf.length) + 3
  | .held => b + 1
  | .free todo => todo.length
  | .abandon todo _ _ => 2 * todo.length
  | .abandonCas from_ s todo _ _ =>
    if (m.slots s).state = from_ then 2 * todo.length + 1 else 2 * todo.length + 3

/-- The state of `s` has changed, or it has not and the client is nearer to its end. -/
def Closer (g : Geom) (m : Memory) (c : Client) (s : ℕ) (x : Memory × Client) : Prop :=
  (x.1.slots s).state ≠ (m.slots s).state ∨
    s ∈ x.2.slots ∧ (x.1.slots s).state = (m.slots s).state ∧ x.2.rank g x.1 < c.rank g m

section Turns

variable {c : Client} (hs : s ∈ c.slots)

include hs

theorem closer_of_rank {m' : Memory} {c' : Client} (hslots : c'.slots = c.slots)
    (hstate : (m'.slots s).state = (m.slots s).state) (hrank : c'.rank g m' < c.rank g m) :
    Closer g m c s (m', c') :=
  .inr ⟨hslots ▸ hs, hstate, hrank⟩

theorem closer_fail (e : IpcError) (hrank : 2 * c.slots.length < c.rank g m) :
    Closer g m c s (m, c.fail e) :=
  .inr ⟨hs, rfl, hrank⟩

/-- Until the call has a slot for the request. -/
theorem closer_acquire {r : Request} {n : ℕ} (hpc : c.pc = .scan r n ∨ c.pc = .claim r n)
    (hst : (m.slots s).state ≠ .free) : Closer g m c s (c.step g m true) := by
  rcases hpc with hpc | hpc
  · simp only [Client.step, hpc, if_true]
    split_ifs with hn hfree
    · refine closer_of_rank hs (by simp [Client.slots, hpc]) rfl ?_
      simp only [Client.rank, hpc]
      omega
    · refine closer_of_rank hs (by simp [Client.slots, hpc]) rfl ?_
      simp only [Client.rank, hpc]
      omega
    · refine closer_fail hs _ ?_
      simp only [Client.slots, Client.rank, hpc, length_map]
      omega
  · simp only [Client.step, hpc]
    by_cases hfree : (m.slots (g.slotAt c.start n)).state = .free
    · rw [if_pos hfree]
      have hne : s ≠ g.slotAt c.start n := by
        rintro rfl
        exact hst hfree
      refine .inr ⟨?_, by simp [Memory.modify_slots_of_ne _ hne], ?_⟩
      · simp only [Client.slots, hpc] at hs ⊢
        exact mem_append_left _ hs
      · simp only [Client.rank, hpc, PublishStage.rank]
        omega
    · rw [if_neg hfree]
      refine closer_of_rank hs (by simp [Client.slots, hpc]) rfl ?_
      simp only [Client.rank, hpc]
      omega

/-- While the slot is written. -/
theorem closer_publish {r : Request} {t : ℕ} {w : PublishStage} (hpc : c.pc = .publish r t w)
    (ht : (m.slots t).state = .claimed) : Closer g m c s (c.publish g m r t w) := by
  have hslots : c.slots = c.issued.map Ticket.slot ++ [t] := by simp [Client.slots, hpc]
  have hstay : ∀ (f : Slot → Slot) (w' : PublishStage), (∀ x, (f x).state = x.state) →
      w'.rank r < w.rank r →
      Closer g m c s (m.modify t f, { c with pc := .publish r t w' }) := by
    intro f w' hf hrank
    refine closer_of_rank hs hslots.symm ?_ ?_
    · by_cases hst : s = t
      · rw [hst, Memory.modify_slots_self, hf]
      · rw [Memory.modify_slots_of_ne _ hst]
    · simp only [Client.rank, hpc]
      omega
  cases w with
  | seq =>
    simp only [Client.publish]
    split_ifs
    · refine closer_fail hs _ ?_
      simp only [hslots, Client.rank, hpc, length_append, length_map,
        length_singleton, PublishStage.rank]
      omega
    · refine closer_of_rank hs hslots.symm rfl ?_
      simp [Client.rank, hpc, PublishStage.rank]
  | opcode id => exact hstay _ _ (fun _ => rfl) (by simp [PublishStage.rank])
  | flags id => exact hstay _ _ (fun _ => rfl) (by simp [PublishStage.rank])
  | len id => exact hstay _ _ (fun _ => rfl) (by simp [PublishStage.rank])
  | reqId id => exact hstay _ _ (fun _ => rfl) (by simp [PublishStage.rank])
  | byte id k =>
    cases hb : r.payload[k]? with
    | some b =>
      have hk := (List.getElem?_eq_some_iff.mp hb).1
      simp only [Client.publish, hb]
      exact hstay _ _ (fun _ => rfl) (by simp [PublishStage.rank]; omega)
    | none =>
      simp only [Client.publish, hb]
      by_cases hst : s = t
      · exact .inl (by simp [hst, ht])
      · refine closer_of_rank hs (by simp [Client.slots, hpc]) ?_ ?_
        · simp [Memory.modify_slots_of_ne _ hst]
        · simp [Client.rank, hpc, PublishStage.rank]
          omega

theorem closer_bump (hpc : c.pc = .bump) : Closer g m c s (c.step g m true) := by
  simp only [Client.step, hpc, Client.published]
  split
  · next r rs hreqs =>
      refine closer_of_rank hs (by simp [Client.slots, hpc]) rfl ?_
      simp only [Client.rank, hpc, hreqs, map_cons, sum_cons, Nat.succ_mul]
      omega
  · next t rest hreqs hissued =>
      refine closer_of_rank hs (by simp [Client.slots, hpc]) rfl ?_
      simp only [Client.rank, hpc, hissued, length_cons]
      omega
  · next hissued => simp [Client.slots, hpc, hissued] at hs

variable {t : Ticket} {rest : List Ticket} {todo : List ℕ}

/-- While the client waits for an answer. -/
theorem closer_await (hpc : c.pc = .poll t rest ∨ c.pc = .wait t rest) :
    Closer g m c s (c.step g m true) := by
  rcases hpc with hpc | hpc
  · simp only [Client.step, hpc]
    split_ifs
    · refine closer_of_rank hs (by simp [Client.slots, hpc]) rfl ?_
      simp only [Client.rank, hpc, Nat.succ_mul]
      omega
    · refine closer_of_rank hs (by simp [Client.slots, hpc]) rfl ?_
      simp only [Client.rank, hpc, Nat.succ_mul]
      omega
  · simp only [Client.step, hpc, if_true]
    refine closer_fail hs _ ?_
    simp [Client.slots, Client.rank, hpc]

/-- While the header of an answer is read. -/
theorem closer_header (hpc : c.pc = .readAck t rest ∨
      c.pc = .readStatus t rest ∨ ∃ st, c.pc = .readLen t rest st) :
    Closer g m c s (c.step g m true) := by
  rcases hpc with hpc | hpc | ⟨st, hpc⟩
  · simp only [Client.step, hpc]
    split_ifs
    · refine closer_of_rank hs (by simp [Client.slots, hpc]) rfl ?_
      simp [Client.rank, hpc]
    · refine closer_fail hs _ ?_
      simp only [Client.slots, Client.rank, hpc, length_map]
      omega
  · simp only [Client.step, hpc]
    refine closer_of_rank hs (by simp [Client.slots, hpc]) rfl ?_
    simp [Client.rank, hpc]
  · simp only [Client.step, hpc]
    split_ifs with hlen
    · refine closer_fail hs _ ?_
      simp only [Client.slots, Client.rank, hpc, length_map]
      omega
    · refine closer_of_rank hs (by simp [Client.slots, hpc]) rfl ?_
      simp only [Client.rank, hpc, length_nil]
      omega

theorem closer_readBytes {st : Int32} {n : ℕ} {buf : List UInt8}
    (hpc : c.pc = .readBytes t rest st n buf) : Closer g m c s (c.step g m true) := by
  simp only [Client.step, hpc]
  split_ifs with hlen
  · refine closer_of_rank hs (by simp [Client.slots, hpc]) rfl ?_
    simp only [Client.rank, hpc, length_append, length_singleton]
    omega
  · cases rest with
    | nil =>
      simp only [Client.answered]
      split_ifs
      · refine closer_of_rank hs (by simp [Client.slots, hpc]) rfl ?_
        simp only [Client.rank, hpc]
        omega
      · refine closer_of_rank hs (by simp [Client.slots, hpc]) rfl ?_
        simp only [Client.rank, hpc, length_map]
        omega
    | cons t' rest' =>
      refine closer_of_rank hs (by simp [Client.answered, Client.slots, hpc]) rfl ?_
      simp only [Client.answered, Client.rank, hpc, length_cons]
      omega

/-- While the slots of an answered call are freed. -/
theorem closer_free (hpc : c.pc = .free todo) (hdone : ∀ t ∈ todo, (m.slots t).state = .completed) :
    Closer g m c s (c.step g m true) := by
  simp only [Client.slots, hpc] at hs
  cases todo with
  | nil => simp at hs
  | cons t todo =>
    simp only [Client.step, hpc]
    by_cases hts : s = t
    · exact .inl (by simp [hts, hdone t])
    · refine .inr ⟨?_, by simp [Memory.modify_slots_of_ne _ hts], by simp [Client.rank, hpc]⟩
      simpa [Client.slots, hts] using hs

/-- While the slots of a call that failed are abandoned, each by a load of its state and an exchange
of it. -/
theorem closer_abandon {retired : List ℕ} {e : IpcError} (hpc : c.pc = .abandon todo retired e)
    (hheld : ∀ t ∈ c.slots, (m.slots t).state.withClient = true) :
    Closer g m c s (c.step g m true) := by
  cases todo with
  | nil => simp [Client.slots, hpc] at hs
  | cons t todo =>
    have ht := SlotState.withClient_iff.mp (hheld t (by simp [Client.slots, hpc]))
    have hcas : Client.abandonLoad m c t todo retired e =
        { c with pc := .abandonCas (m.slots t).state t todo retired e } := by
      rcases ht with ht | ht | ht | ht <;> simp [Client.abandonLoad, ht]
    simp only [Client.step, hpc]
    rw [hcas]
    refine closer_of_rank hs (by simp [Client.slots, hpc]) rfl ?_
    simp only [Client.rank, hpc, if_true, length_cons]
    omega

theorem closer_abandonCas {from_ : SlotState} {t : ℕ} {retired : List ℕ} {e : IpcError}
    (hpc : c.pc = .abandonCas from_ t todo retired e) (hst : (m.slots s).state.withClient = true)
    (hproc : (m.slots s).state ≠ .processing) : Closer g m c s (c.step g m true) := by
  have hst := SlotState.withClient_iff.mp hst
  simp only [Client.slots, hpc] at hs
  simp only [Client.step, hpc]
  by_cases hcas : (m.slots t).state = from_
  · rw [if_pos hcas]
    by_cases hts : s = t
    · subst hts
      rw [if_neg (hcas ▸ hproc)]
      refine .inl ?_
      rcases hst with hst | hst | hst | hst <;> simp [hst]
    · have hmem : s ∈ todo := by simpa [hts] using hs
      split_ifs
      · refine .inr ⟨by simpa [Client.slots] using hmem,
          by simp [Memory.modify_slots_of_ne _ hts], ?_⟩
        simp [Client.rank, hpc, hcas]
      · refine .inr ⟨by simpa [Client.slots] using hmem,
          by simp [Memory.modify_slots_of_ne _ hts], ?_⟩
        simp [Client.rank, hpc, hcas]
  · rw [if_neg hcas]
    refine .inr ⟨by simpa [Client.slots] using hs, rfl, ?_⟩
    simp only [Client.rank, hpc, if_neg hcas, length_cons]
    omega

end Turns

/-- A turn of the client that has `s`, its deadline passed, changes the state of `s` or
brings the client closer to doing so. -/
theorem Invariant.client_progress (h : Invariant g σ) {i : ι}
    (hs : s ∈ (σ.clients i).slots) (hproc : (σ.mem.slots s).state ≠ .processing) :
    Closer g σ.mem (σ.clients i) s ((σ.clients i).step g σ.mem true) := by
  have hst := h.ownership.client_state hs
  have hfree : (σ.mem.slots s).state ≠ .free := by
    intro hfree
    simp [hfree, SlotState.withClient] at hst
  have hok := h.clientOk i
  cases hpc : (σ.clients i).pc with
  | idle => simp [Client.slots, hpc] at hs
  | scan r n => exact closer_acquire hs (.inl hpc) hfree
  | claim r n => exact closer_acquire hs (.inr hpc) hfree
  | publish r t w =>
    simp only [ClientOk, hpc] at hok
    simpa only [Client.step, hpc] using closer_publish hs hpc hok.2.1
  | bump => exact closer_bump hs hpc
  | poll t rest => exact closer_await hs (.inl hpc)
  | wait t rest => exact closer_await hs (.inr hpc)
  | readAck t rest => exact closer_header hs (.inl hpc)
  | readStatus t rest => exact closer_header hs (.inr (.inl hpc))
  | readLen t rest st => exact closer_header hs (.inr (.inr ⟨st, hpc⟩))
  | readBytes t rest st n buf => exact closer_readBytes hs hpc
  | held =>
    simp only [Client.step, hpc]
    refine closer_of_rank hs (by simp [Client.slots, hpc]) rfl ?_
    simp [Client.rank, hpc]
  | free todo =>
    simp only [ClientOk, hpc] at hok
    exact closer_free hs hpc hok
  | abandon todo retired e =>
    exact closer_abandon hs hpc fun t ht => h.ownership.client_state ht
  | abandonCas from_ t todo retired e => exact closer_abandonCas hs hpc hst hproc

inductive Party (ι κ : Type*)
  | client (i : ι)
  | server (k : κ)

/-- The party that has to move the slot on: the server from its take to its completion,
the client whose call holds the slot before and after. -/
def System.InCharge (σ : System ι κ) (s : ℕ) : Party ι κ → Prop
  | .client i => s ∈ (σ.clients i).slots ∧ (σ.mem.slots s).state ≠ .processing
  | .server k => s ∈ (σ.servers k).slots

/-- A turn of the party itself: a client whose deadline has passed, or a server whose
handler answers `result`. -/
def Party.turn (result : Response) : Party ι κ → Event ι κ
  | .client i => .client i true
  | .server k => .server k result

theorem Invariant.existsUnique_inCharge (h : Invariant g σ)
    (hs : (σ.mem.slots s).state ≠ .free) : ∃! p, σ.InCharge s p := by
  by_cases hserver : (σ.mem.slots s).state.withServer = true
  · obtain ⟨k, hk⟩ := (h.ownership.withServer s).mpr hserver
    refine ⟨.server k, hk, ?_⟩
    rintro (i | j) hp
    · have hclient := SlotState.withClient_iff.mp (h.ownership.client_state hp.1)
      rcases SlotState.withServer_iff.mp hserver with hst | hst
      · exact absurd hst hp.2
      · simp [hst] at hclient
    · rw [h.ownership.servers.holder_unique j k s hp hk]
  · have hclient : (σ.mem.slots s).state.withClient = true := by
      cases hst : (σ.mem.slots s).state <;> simp_all [SlotState.withClient, SlotState.withServer]
    obtain ⟨i, hi⟩ := (h.ownership.withClient s).mpr hclient
    refine ⟨.client i, ⟨hi, fun hproc => hserver (by rw [hproc]; rfl)⟩, ?_⟩
    rintro (j | k) hp
    · rw [h.ownership.clients.holder_unique j i s hp.1 hi]
    · exact absurd (h.ownership.server_state hp) hserver

variable [DecidableEq ι] [DecidableEq κ]

theorem Invariant.inCharge_moves (h : Invariant g σ) {p : Party ι κ}
    (hp : σ.InCharge s p) (result : Response) :
    ∃ n, ((σ.run g (List.replicate n (p.turn result))).mem.slots s).state ≠
      (σ.mem.slots s).state := by
  cases p with
  | client i =>
    refine Transition.exists_replicate_of_rank
      (I := fun τ : System ι κ => Invariant g τ ∧ s ∈ (τ.clients i).slots ∧
        (τ.mem.slots s).state = (σ.mem.slots s).state)
      (G := fun τ => (τ.mem.slots s).state ≠ (σ.mem.slots s).state)
      (fun τ => (τ.clients i).rank g τ.mem) ?_ ⟨h, hp.1, rfl⟩
    rintro τ ⟨hτ, hmem, hst⟩
    rcases hτ.client_progress hmem (hst ▸ hp.2) with hmove | ⟨hmem', hst', hrank⟩
    · exact .inl (hst ▸ hmove)
    · refine .inr ⟨⟨hτ.step _, ?_, hst'.trans hst⟩, ?_⟩
      · simpa [Party.turn, System.step, System.setClient] using hmem'
      · simpa [Party.turn, System.step, System.setClient] using hrank
  | server k =>
    refine Transition.exists_replicate_of_rank
      (I := fun τ : System ι κ => Invariant g τ ∧ s ∈ (τ.servers k).slots ∧
        (τ.mem.slots s).state = (σ.mem.slots s).state)
      (G := fun τ => (τ.mem.slots s).state ≠ (σ.mem.slots s).state)
      (fun τ => (τ.servers k).rank g result.payload.length) ?_ ⟨h, hp, rfl⟩
    rintro τ ⟨hτ, hmem, hst⟩
    rcases hτ.server_progress hmem result with ⟨hold, hnew⟩ | ⟨hold, -, hnew⟩ | ⟨hmem', hst', hrank⟩
    · refine .inl ?_
      simp [Party.turn, System.step, System.setServer, hnew, ← hst, hold]
    · refine .inl ?_
      simp [Party.turn, System.step, System.setServer, hnew, ← hst, hold]
    · refine .inr ⟨⟨hτ.step _, ?_, hst'.trans hst⟩, ?_⟩
      · simpa [Party.turn, System.step, System.setServer] using hmem'
      · simpa [Party.turn, System.step, System.setServer] using hrank

theorem Client.step_frame {c : Client} (hs : s ∉ c.slots)
    (hfree : (m.slots s).state ≠ .free) (expired : Bool) :
    (c.step g m expired).1.slots s = m.slots s := by
  cases hpc : c.pc with
  | claim r n =>
    simp only [Client.step, hpc]
    by_cases h : (m.slots (g.slotAt c.start n)).state = .free
    · have hne : s ≠ g.slotAt c.start n := by
        rintro rfl
        exact hfree h
      simp [h, Memory.modify_slots_of_ne _ hne]
    · simp [h]
  | publish r t w =>
    have hne : s ≠ t := by
      rintro rfl
      simp [Client.slots, hpc] at hs
    cases w <;> simp only [Client.step, hpc, Client.publish] <;> (try split) <;>
      simp [Memory.modify_slots_of_ne _ hne]
  | free todo =>
    cases todo with
    | nil => simp [Client.step, hpc]
    | cons t todo =>
      have hne : s ≠ t := by
        rintro rfl
        simp [Client.slots, hpc] at hs
      simp [Client.step, hpc, Memory.modify_slots_of_ne _ hne]
  | abandon todo retired e => cases todo <;> simp [Client.step, hpc]
  | abandonCas from_ t todo retired e =>
    have hne : s ≠ t := by
      rintro rfl
      simp [Client.slots, hpc] at hs
    simp only [Client.step, hpc]
    split_ifs <;> simp [Memory.modify_slots_of_ne _ hne]
  | _ => simp only [Client.step, hpc] <;> (try split_ifs) <;> rfl

theorem Server.step_frame {v : Server} (hs : s ∉ v.slots)
    (hsub : (m.slots s).state ≠ .submitted) (result : Response) :
    (v.step g m result).1.slots s = m.slots s := by
  cases hpc : v.pc with
  | idle => simp [Server.step, hpc]
  | take n =>
    simp only [Server.step, hpc]
    split_ifs with hn h
    · have hne : s ≠ g.slotAt v.start n := by
        rintro rfl
        exact hsub h
      simp [Memory.modify_slots_of_ne _ hne]
    · rfl
    · rfl
  | _ =>
    have hne : s ≠ v.slot := by simpa [Server.slots, hpc] using hs
    simp only [Server.step, hpc] <;> (try split) <;> (try split_ifs) <;>
      simp [Memory.modify_slots_of_ne _ hne]

theorem Invariant.abandoned_step (h : Invariant g σ) {k : κ}
    (hst : (σ.mem.slots s).state = .abandoned) (hk : s ∈ (σ.servers k).slots) (e : Event ι κ) :
    ((σ.step g e).mem.slots s).state = .abandoned ∧ s ∈ ((σ.step g e).servers k).slots ∨
      ∃ result, e = .server k result ∧ (σ.servers k).pc = .drain ∧
        ((σ.step g e).mem.slots s).state = .free := by
  cases e with
  | submit i r => simp only [System.step]; split_ifs <;> exact .inl ⟨hst, hk⟩
  | submitMany i rs => simp only [System.step]; split_ifs <;> exact .inl ⟨hst, hk⟩
  | client i expired =>
    have hnot : s ∉ (σ.clients i).slots := by
      intro hmem
      have hcl := h.ownership.client_state hmem
      simp [hst, SlotState.withClient] at hcl
    have hframe := Client.step_frame (g := g) (m := σ.mem) hnot (by simp [hst]) expired
    exact .inl ⟨by simp [System.step, System.setClient, hframe, hst], hk⟩
  | serve j ep =>
    simp only [System.step]
    split_ifs with hpc
    · have hjk : k ≠ j := by
        rintro rfl
        simp [Server.slots, hpc] at hk
      exact .inl ⟨hst, by simpa [System.setServer, hjk] using hk⟩
    · exact .inl ⟨hst, hk⟩
  | server j result =>
    by_cases hjk : k = j
    · subst hjk
      rcases h.server_progress hk result with ⟨hold, -⟩ | ⟨-, hdrain, hnew⟩ | ⟨hmem, hold, -⟩
      · simp [hst] at hold
      · exact .inr ⟨result, rfl, hdrain, hnew⟩
      · refine .inl ⟨hold.trans hst, ?_⟩
        simpa [System.step, System.setServer] using hmem
    · have hnot : s ∉ (σ.servers j).slots :=
        fun hmem => hjk (h.ownership.servers.holder_unique k j s hk hmem)
      have hframe := Server.step_frame (g := g) (m := σ.mem) hnot (by simp [hst]) result
      refine .inl ⟨?_, by simpa [System.step, System.setServer, hjk] using hk⟩
      simp [System.step, System.setServer, hframe, hst]

/-- The same over a run: the state of an abandoned slot first changes at its server's
drain, and then to FREE. -/
theorem Invariant.abandoned_until_drained (h : Invariant g σ) {k : κ}
    (hst : (σ.mem.slots s).state = .abandoned) (hk : s ∈ (σ.servers k).slots)
    (es : List (Event ι κ)) :
    ((σ.run g es).mem.slots s).state = .abandoned ∨
      ∃ before result after, es = before ++ .server k result :: after ∧
        ((σ.run g before).mem.slots s).state = .abandoned ∧
        ((σ.run g before).servers k).pc = .drain ∧
        ((σ.run g (before ++ [.server k result])).mem.slots s).state = .free := by
  induction es generalizing σ with
  | nil => exact .inl hst
  | cons e es ih =>
    rcases h.abandoned_step hst hk e with ⟨hst', hk'⟩ | ⟨result, rfl, hdrain, hfree⟩
    · rcases ih (h.step e) hst' hk' with hab | ⟨before, result, after, rfl, h1, h2, h3⟩
      · exact .inl hab
      · exact .inr ⟨e :: before, result, after, rfl, h1, h2, h3⟩
    · exact .inr ⟨[], result, es, rfl, hst, hdrain, hfree⟩

/-- **No slot is lost and none is reused early.** In every state a run reaches: each slot
that is not FREE has exactly one party in charge, and that party's own next turns move it
on; a slot abandoned while a server had it stays out of use until that server drained it;
and when every call and every `serve_one` has ended, time-outs and half-published batches
included, all slots are FREE. -/
theorem System.no_slot_leak (g : Geom) (σ : System ι κ) (h : σ.Initial) (es : List (Event ι κ)) :
    (∀ s, ((σ.run g es).mem.slots s).state ≠ .free → ∃! p, (σ.run g es).InCharge s p) ∧
    (∀ s p, (σ.run g es).InCharge s p → ∀ result, ∃ n,
      ((σ.run g (es ++ List.replicate n (p.turn result))).mem.slots s).state ≠
        ((σ.run g es).mem.slots s).state) ∧
    (∀ s, ((σ.run g es).mem.slots s).state = .abandoned →
      ∃ k, s ∈ ((σ.run g es).servers k).slots ∧ ∀ more,
        ((σ.run g (es ++ more)).mem.slots s).state = .abandoned ∨
        ∃ before result after, more = before ++ .server k result :: after ∧
          ((σ.run g (es ++ before)).mem.slots s).state = .abandoned ∧
          ((σ.run g (es ++ before)).servers k).pc = .drain ∧
          ((σ.run g (es ++ before ++ [.server k result])).mem.slots s).state = .free) ∧
    ((∀ i, ((σ.run g es).clients i).pc = .idle) → (∀ k, ((σ.run g es).servers k).pc = .idle) →
      ∀ s, ((σ.run g es).mem.slots s).state = .free) := by
  have hI : Invariant g (σ.run g es) := System.run_invariant h es
  have happend : ∀ fs, σ.run g (es ++ fs) = (σ.run g es).run g fs :=
    fun fs => Transition.run_append _ _ _ _
  refine ⟨fun s hs => hI.existsUnique_inCharge hs, fun s p hp result => ?_, fun s hs => ?_, ?_⟩
  · obtain ⟨n, hn⟩ := hI.inCharge_moves hp result
    exact ⟨n, by rwa [happend]⟩
  · obtain ⟨k, hk⟩ := (hI.ownership.withServer s).mpr (by rw [hs]; rfl)
    refine ⟨k, hk, fun more => ?_⟩
    simp only [append_assoc, happend]
    exact hI.abandoned_until_drained hs hk more
  · intro hclients hservers s
    by_contra hs
    obtain ⟨p, hp, -⟩ := hI.existsUnique_inCharge hs
    cases p with
    | client i => simp [System.InCharge, Client.slots, hclients i] at hp
    | server k => simp [System.InCharge, Server.slots, hservers k] at hp

theorem System.no_slot_leak_fresh :
    (System.fresh : System ℕ ℕ).Initial ∧
      ∀ es : List (Event ℕ ℕ), ∀ s, ((System.fresh.run tinyGeom es).mem.slots s).state ≠ .free →
        ∃! p, (System.fresh.run tinyGeom es).InCharge s p :=
  ⟨System.fresh_initial,
    fun es => (System.no_slot_leak tinyGeom System.fresh System.fresh_initial es).1⟩

end AetherVfs.Ipc
