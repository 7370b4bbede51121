import AetherVfs.Ipc.RingInvariant

/-!
# The ring invariant holds in every run

Each access either leaves the slots alone or changes one slot that the
thread holds (or, for a claim and a take, is entitled to pick up). Four
lemmas say what such an access does to the whole system; the two step
theorems then go through the accesses one by one.
-/

namespace AetherVfs.Ipc

open Custody List Function Transition SlotState

variable {ι κ : Type*} {g : Geom} {σ : System ι κ}

namespace System

theorem setClient_slots [DecidableEq ι] (σ : System ι κ) (i : ι) (x : Memory × Client) :
    (fun j => ((σ.setClient i x).clients j).slots) =
      Function.update (fun j => (σ.clients j).slots) i x.2.slots := by
  funext j
  exact apply_update (fun _ c => Client.slots c) σ.clients i x.2 j

theorem setServer_slots [DecidableEq κ] (σ : System ι κ) (k : κ) (x : Memory × Server) :
    (fun j => ((σ.setServer k x).servers j).slots) =
      Function.update (fun j => (σ.servers j).slots) k x.2.slots := by
  funext j
  exact apply_update (fun _ v => Server.slots v) σ.servers k x.2 j

end System

variable {i : ι} {s : ℕ} {k : κ} {c' : Client} {v' : Server}

namespace Ownership

theorem client_state (h : Ownership σ) (hi : s ∈ (σ.clients i).slots) :
    (σ.mem.slots s).state.withClient = true := (h.withClient s).mp ⟨i, hi⟩

theorem server_state (h : Ownership σ) (hk : s ∈ (σ.servers k).slots) :
    (σ.mem.slots s).state.withServer = true := (h.withServer s).mp ⟨k, hk⟩

theorem setClient [DecidableEq ι] (h : Ownership σ) {m' : Memory}
    (hother : ∀ s', s' ≠ s → m'.slots s' = σ.mem.slots s')
    (hlist : ∀ s', s' ≠ s → (s' ∈ c'.slots ↔ s' ∈ (σ.clients i).slots)) (hnodup : c'.slots.Nodup)
    (hmine : s ∈ (σ.clients i).slots ∨ (σ.mem.slots s).state.withClient = false)
    (hclient : s ∈ c'.slots ↔ (m'.slots s).state.withClient = true)
    (hserver : (m'.slots s).state.withServer = (σ.mem.slots s).state.withServer) :
    Ownership (σ.setClient i (m', c')) := by
  obtain ⟨hclients, hwith⟩ := h.clients.set h.withClient
    (Q := fun s' => (m'.slots s').state.withClient = true)
    (fun s' hs' => by rw [hother s' hs']) hlist hnodup (by simpa using hmine) hclient
  rw [← System.setClient_slots σ i (m', c')] at hclients hwith
  refine ⟨hclients, h.servers, hwith, fun s' => (h.withServer s').trans ?_⟩
  by_cases hs : s' = s
  · rw [hs, ← hserver]
    rfl
  · rw [← hother s' hs]
    rfl

theorem setServer [DecidableEq κ] (h : Ownership σ) {m' : Memory}
    (hother : ∀ s', s' ≠ s → m'.slots s' = σ.mem.slots s')
    (hlist : ∀ s', s' ≠ s → (s' ∈ v'.slots ↔ s' ∈ (σ.servers k).slots)) (hnodup : v'.slots.Nodup)
    (hmine : s ∈ (σ.servers k).slots ∨ (σ.mem.slots s).state.withServer = false)
    (hserver : s ∈ v'.slots ↔ (m'.slots s).state.withServer = true)
    (hclient : (m'.slots s).state.withClient = (σ.mem.slots s).state.withClient) :
    Ownership (σ.setServer k (m', v')) := by
  obtain ⟨hservers, hwith⟩ := h.servers.set h.withServer
    (Q := fun s' => (m'.slots s').state.withServer = true)
    (fun s' hs' => by rw [hother s' hs']) hlist hnodup (by simpa using hmine) hserver
  rw [← System.setServer_slots σ k (m', v')] at hservers hwith
  refine ⟨h.clients, hservers, fun s' => (h.withClient s').trans ?_, hwith⟩
  by_cases hs : s' = s
  · rw [hs, ← hclient]
    rfl
  · rw [← hother s' hs]
    rfl

end Ownership

namespace Invariant

section

variable (h : Invariant g σ)

include h

theorem not_mem_other {j : ι} (hmine : s ∈ (σ.clients i).slots ∨ (σ.mem.slots s).state = .free)
    (hj : j ≠ i) : s ∉ (σ.clients j).slots := by
  intro hmem
  rcases hmine with hm | hm
  · exact hj (h.ownership.clients.holder_unique _ _ s hmem hm)
  · have hst := h.ownership.client_state hmem
    simp [hm, withClient] at hst

variable {m' : Memory}

theorem client_local [DecidableEq ι] (hslots : m'.slots = σ.mem.slots)
    (hpub : m'.log.published = σ.mem.log.published) (hcalls : m'.log.calls = σ.mem.log.calls)
    (hhist : HistoryOk g m'.log) (hlist : c'.slots = (σ.clients i).slots) (hok : ClientOk g m' c') :
    Invariant g (σ.setClient i (m', c')) := by
  have hx : σ.mem.log.Extends m'.log := ⟨by rw [hpub], by rw [hcalls]; exact fun _ hc => hc⟩
  refine ⟨⟨?_, h.ownership.servers, ?_, ?_⟩, ?_, fun k => ?_, fun s hs => ?_, hhist⟩
  · rw [System.setClient_slots, hlist, update_eq_self]
    exact h.ownership.clients
  · rw [System.setClient_slots, hlist, update_eq_self]
    simpa [System.setClient, hslots] using h.ownership.withClient
  · simpa [System.setClient, hslots] using h.ownership.withServer
  · refine forall_update hok fun j _ => (h.clientOk j).frame ?_ ?_
    · exact fun t _ _ ht => ht.frame hx (congrFun hslots _)
    · exact fun s _ _ => congrFun hslots s
  · exact (h.serverOk k).frame hx (fun s _ => ⟨_, congrFun hslots s, id⟩) fun _ => .of_calls_eq hcalls
  · obtain ⟨p, hp⟩ := h.posted s (congrFun hslots s ▸ hs)
    exact ⟨p, hp.frame hx (congrFun hslots s) (.of_calls_eq hcalls)⟩

theorem client_modify [DecidableEq ι] (hother : ∀ s', s' ≠ s → m'.slots s' = σ.mem.slots s')
    (hx : σ.mem.log.Extends m'.log) (hcalls : m'.log.calls = σ.mem.log.calls)
    (hhist : HistoryOk g m'.log) (hlist : ∀ s', s' ≠ s → (s' ∈ c'.slots ↔ s' ∈ (σ.clients i).slots))
    (hnodup : c'.slots.Nodup) (hmine : s ∈ (σ.clients i).slots ∨ (σ.mem.slots s).state = .free)
    (hclient : s ∈ c'.slots ↔ (m'.slots s).state.withClient = true)
    (hserver : (m'.slots s).state.withServer = (σ.mem.slots s).state.withServer)
    (hsame : (σ.mem.slots s).state.withServer = true →
      ∃ st, m'.slots s = { σ.mem.slots s with state := st })
    (hposted : (m'.slots s).state = .submitted → ∃ p, Posted m' s p) (hok : ClientOk g m' c') :
    Invariant g (σ.setClient i (m', c')) := by
  have hmine' : s ∈ (σ.clients i).slots ∨ (σ.mem.slots s).state.withClient = false :=
    hmine.imp_right fun hfree => by rw [hfree]; rfl
  refine ⟨h.ownership.setClient hother hlist hnodup hmine' hclient hserver, ?_, fun k => ?_,
    fun s' hs' => ?_, hhist⟩
  · refine forall_update hok fun j hj => ?_
    have hne : ∀ s' ∈ (σ.clients j).slots, s' ≠ s := by
      rintro s' hs' rfl
      exact h.not_mem_other hmine hj hs'
    refine (h.clientOk j).frame ?_ fun s' hs' _ => hother s' (hne s' hs')
    intro t _ hmem ht
    exact ht.frame hx (hother _ (hne _ hmem))
  · refine (h.serverOk k).frame hx (fun s' hs' => ?_) fun _ => .of_calls_eq hcalls
    by_cases hs : s' = s
    · subst hs
      obtain ⟨st, hst⟩ := hsame (h.ownership.server_state hs')
      refine ⟨st, hst, fun habandoned => ?_⟩
      rcases hmine with hm | hm
      · have hcl := h.ownership.client_state hm
        simp [habandoned, withClient] at hcl
      · simp [habandoned] at hm
    · exact ⟨_, hother s' hs, id⟩
  · by_cases hs : s' = s
    · subst hs
      exact hposted hs'
    · obtain ⟨p, hp⟩ := h.posted s' (hother s' hs ▸ hs')
      exact ⟨p, hp.frame hx (hother s' hs) (.of_calls_eq hcalls)⟩

theorem server_local [DecidableEq κ] (hslots : m'.slots = σ.mem.slots) (hlog : m'.log = σ.mem.log)
    (hlist : v'.slots = (σ.servers k).slots) (hok : ServerOk g m' v') :
    Invariant g (σ.setServer k (m', v')) := by
  have hx : σ.mem.log.Extends m'.log := hlog ▸ History.Extends.refl _
  refine ⟨⟨h.ownership.clients, ?_, ?_, ?_⟩, fun i => ?_, ?_, fun s hs => ?_, hlog ▸ h.history⟩
  · rw [System.setServer_slots, hlist, update_eq_self]
    exact h.ownership.servers
  · simpa [System.setServer, hslots] using h.ownership.withClient
  · rw [System.setServer_slots, hlist, update_eq_self]
    simpa [System.setServer, hslots] using h.ownership.withServer
  · refine (h.clientOk i).frame ?_ fun s _ _ => congrFun hslots s
    exact fun t _ _ ht => ht.frame hx (congrFun hslots _)
  · refine forall_update hok fun j _ => ?_
    exact (h.serverOk j).frame hx (fun s _ => ⟨_, congrFun hslots s, id⟩)
      fun _ => .of_calls_eq (congrArg _ hlog)
  · obtain ⟨p, hp⟩ := h.posted s (congrFun hslots s ▸ hs)
    exact ⟨p, hp.frame hx (congrFun hslots s) (.of_calls_eq (congrArg _ hlog))⟩

theorem server_modify [DecidableEq κ] (hother : ∀ s', s' ≠ s → m'.slots s' = σ.mem.slots s')
    (hlog : m'.log = σ.mem.log) (hlist : ∀ s', s' ≠ s → (s' ∈ v'.slots ↔ s' ∈ (σ.servers k).slots))
    (hnodup : v'.slots.Nodup) (hmine : s ∈ (σ.servers k).slots ∨ (σ.mem.slots s).state = .submitted)
    (hserver : s ∈ v'.slots ↔ (m'.slots s).state.withServer = true)
    (hclient : (m'.slots s).state.withClient = (σ.mem.slots s).state.withClient)
    (hsent : ∀ t, t.slot = s → (σ.mem.slots s).state.withClient = true → Sent g σ.mem t →
      Sent g m' t) (hposted : (m'.slots s).state ≠ .submitted) (hok : ServerOk g m' v') :
    Invariant g (σ.setServer k (m', v')) := by
  have hx : σ.mem.log.Extends m'.log := hlog ▸ History.Extends.refl _
  have hmine' : s ∈ (σ.servers k).slots ∨ (σ.mem.slots s).state.withServer = false := by
    rcases hmine with hm | hm
    · exact .inl hm
    · exact .inr (by rw [hm]; rfl)
  refine ⟨h.ownership.setServer hother hlist hnodup hmine' hserver hclient, fun i => ?_, ?_,
    fun s' hs' => ?_, hlog ▸ h.history⟩
  · refine (h.clientOk i).frame (fun t _ hmem ht => ?_) fun s' _ hst => hother s' ?_
    · by_cases hs : t.slot = s
      · exact hsent t hs (hs ▸ h.ownership.client_state hmem) ht
      · exact ht.frame hx (hother _ hs)
    · rintro rfl
      rcases hmine with hm | hm
      · have hsv := h.ownership.server_state hm
        rcases hst with hst | hst <;> simp [hst, withServer] at hsv
      · simp [hm] at hst
  · refine forall_update hok fun j hj => ?_
    refine (h.serverOk j).frame hx (fun s' hs' => ⟨_, hother s' ?_, id⟩)
      fun _ => .of_calls_eq (congrArg _ hlog)
    rintro rfl
    rcases hmine' with hm | hm
    · exact hj (h.ownership.servers.holder_unique _ _ s' hs' hm)
    · simp [h.ownership.server_state hs'] at hm
  · have hs : s' ≠ s := by
      rintro rfl
      exact hposted hs'
    obtain ⟨p, hp⟩ := h.posted s' (hother s' hs ▸ hs')
    exact ⟨p, hp.frame hx (hother s' hs) (.of_calls_eq (congrArg _ hlog))⟩

end

end Invariant

namespace Invariant

section ClientSteps

variable {i : ι} {r : Request} {s : ℕ}

section

variable (h : Invariant g σ)

include h

variable {w : PublishStage}

theorem filling_ne (hpc : (σ.clients i).pc = .publish r s w) {t : Ticket}
    (ht : t ∈ (σ.clients i).issued) : t.slot ≠ s := by
  rintro rfl
  have hnd := h.ownership.clients.nodup i
  simp only [Client.slots, hpc] at hnd
  exact (disjoint_of_nodup_append hnd) (mem_map_of_mem ht) (by simp)

variable [DecidableEq ι]

theorem client_quiet (hok : ClientOk g σ.mem c') (hlist : c'.slots = (σ.clients i).slots) :
    Invariant g (σ.setClient i (σ.mem, c')) :=
  h.client_local rfl rfl rfl h.history hlist hok

theorem client_fail (e : IpcError) :
    Invariant g (σ.setClient i (σ.mem, (σ.clients i).fail e)) :=
  h.client_quiet trivial rfl

theorem client_fill {w' : PublishStage} (hpc : (σ.clients i).pc = .publish r s w) {f : Slot → Slot}
    (hstate : ∀ x, (f x).state = x.state)
    (hw : Written g (σ.mem.slots s) r w → Written g (f (σ.mem.slots s)) r w') :
    Invariant g (σ.setClient i
      (σ.mem.modify s f, { σ.clients i with pc := .publish r s w' })) := by
  have hok := h.clientOk i
  simp only [ClientOk, hpc] at hok
  obtain ⟨hsent, hclaimed, hwritten⟩ := hok
  have hmem : s ∈ (σ.clients i).slots := by simp [Client.slots, hpc]
  have hlist : Client.slots { σ.clients i with pc := .publish r s w' } = (σ.clients i).slots := by
    simp [Client.slots, hpc]
  refine h.client_modify (s := s) (fun s' hs' => σ.mem.modify_slots_of_ne hs' f) (.refl _) rfl
    h.history (fun s' _ => by rw [hlist]) (hlist ▸ h.ownership.clients.nodup i) (.inl hmem) ?_ ?_ ?_ ?_
    ?_
  · rw [hlist]
    simp [hmem, hstate, hclaimed, withClient]
  · simp [hstate]
  · simp [hclaimed, withServer]
  · simp [hstate, hclaimed]
  · refine ⟨fun t ht => (hsent t ht).frame (.refl _) ?_, by simp [hstate, hclaimed], ?_⟩
    · exact σ.mem.modify_slots_of_ne (h.filling_ne hpc ht) f
    · simpa using hw hwritten

theorem client_publish {id : UInt64} {k : ℕ}
    (hpc : (σ.clients i).pc = .publish r s (.byte id k)) (hk : r.payload[k]? = none) :
    Invariant g (σ.setClient i ((σ.clients i).publish g σ.mem r s (.byte id k))) := by
  have hok := h.clientOk i
  simp only [ClientOk, hpc] at hok
  obtain ⟨hsent, hclaimed, hcap, hop, hfl, hlen, hid, hbytes⟩ := hok
  have hmem : s ∈ (σ.clients i).slots := by simp [Client.slots, hpc]
  have hun : σ.mem.log.Uncalled σ.mem.log.published.length := by
    intro call hcall heq
    have := h.history.calls_published call hcall
    rw [heq] at this
    simp at this
  have hlist : ∀ uid, Client.slots { σ.clients i with
      issued := (σ.clients i).issued ++ [⟨s, id, uid, r⟩], pc := .bump } = (σ.clients i).slots := by
    simp [Client.slots, hpc]
  have hx : σ.mem.log.Extends
      { σ.mem.log with published := σ.mem.log.published ++ [⟨s, id, r⟩] } :=
    ⟨prefix_append _ _, fun _ hc => hc⟩
  simp only [Client.publish, hk]
  refine h.client_modify (s := s) (fun s' hs' => by simp [Memory.modify_slots_of_ne _ hs']) hx
    rfl ?_ (fun s' _ => by rw [hlist]) (hlist _ ▸ h.ownership.clients.nodup i) (.inl hmem)
    ?_ ?_ ?_ ?_ ?_
  · refine ⟨?_, h.history.calls_nodup, ?_, h.history.answers⟩
    · intro p hp
      rcases mem_append.mp hp with hp | hp
      · exact h.history.fits p hp
      · rw [mem_singleton.mp hp]
        exact hcap
    · exact fun call hcall => hx.getElem? (h.history.calls_published call hcall)
  · rw [hlist]
    simp [hmem, withClient]
  · simp [hclaimed, withServer]
  · simp [hclaimed, withServer]
  · refine fun _ => ⟨⟨s, id, r⟩, by simp, rfl, by simpa using hid, ?_, by simpa [History.Uncalled] using hun⟩
    have hbytes' := hbytes.of_length_le (getElem?_eq_none_iff.mp hk)
    simpa using ⟨hop, hfl, hlen, hbytes'⟩
  · intro t ht
    rcases mem_append.mp ht with ht | ht
    · refine (hsent t ht).frame hx ?_
      simp [Memory.modify_slots_of_ne _ (h.filling_ne hpc ht)]
    · rw [mem_singleton.mp ht]
      exact ⟨by simp, by simp, by simp [hid], by simp, by simp⟩

theorem client_publishing (hpc : (σ.clients i).pc = .publish r s w) :
    Invariant g (σ.setClient i ((σ.clients i).publish g σ.mem r s w)) := by
  have hok := h.clientOk i
  simp only [ClientOk, hpc] at hok
  cases w with
  | seq =>
    simp only [Client.publish]
    split
    · exact h.client_fail _
    · next hcap =>
        refine h.client_local rfl rfl rfl h.history (by simp [Client.slots, hpc]) ?_
        exact ⟨fun t ht => (hok.1 t ht).frame (.refl _) rfl, hok.2.1, not_lt.mp hcap⟩
  | opcode id => exact h.client_fill hpc (fun _ => rfl) fun hw => ⟨hw, rfl⟩
  | flags id => exact h.client_fill hpc (fun _ => rfl) fun hw => ⟨hw.1, hw.2, rfl⟩
  | len id =>
    refine h.client_fill hpc (fun _ => rfl) fun hw => ⟨hw.1, hw.2.1, hw.2.2, ?_⟩
    exact UInt32.toNat_ofNat_of_lt (hw.1.trans_lt g.payloadCap_lt)
  | reqId id =>
    refine h.client_fill hpc (fun _ => rfl) fun hw => ⟨hw.1, hw.2.1, hw.2.2.1, hw.2.2.2, rfl, ?_⟩
    exact fun j b hj => absurd hj (Nat.not_lt_zero j)
  | byte id k =>
    cases hb : r.payload[k]? with
    | none => exact h.client_publish hpc hb
    | some b =>
      simp only [Client.publish, hb]
      refine h.client_fill hpc (fun _ => rfl) ?_
      rintro ⟨hcap, hop, hfl, hlen, hid, hbytes⟩
      exact ⟨hcap, hop, hfl, hlen, hid, hbytes.write hb⟩

theorem client_claim {n : ℕ}
    (hpc : (σ.clients i).pc = .claim r n) (hfree : (σ.mem.slots s).state = .free)
    (hint start : UInt32) :
    Invariant g (σ.setClient i (σ.mem.modify s fun x => { x with state := .claimed },
      { σ.clients i with hint := hint, start := start, pc := .publish r s .seq })) := by
  have hok := h.clientOk i
  simp only [ClientOk, hpc] at hok
  have hold : (σ.clients i).slots = (σ.clients i).issued.map Ticket.slot := by
    simp [Client.slots, hpc]
  have hnot : s ∉ (σ.clients i).slots := by
    intro hmem
    have hst := h.ownership.client_state hmem
    simp [hfree, withClient] at hst
  refine h.client_modify (s := s) (fun s' hs' => σ.mem.modify_slots_of_ne hs' _) (.refl _) rfl
    h.history ?_ ?_ (.inr hfree) ?_ ?_ ?_ ?_ ?_
  · intro s' hs'
    simp [Client.slots, hpc, hs']
  · have hnd := h.ownership.clients.nodup i
    rw [hold] at hnd hnot
    exact nodup_append'.mpr ⟨hnd, nodup_singleton s, by simpa using hnot⟩
  · simp [Client.slots, withClient]
  · simp [hfree, withServer]
  · simp [hfree, withServer]
  · simp
  · refine ⟨fun t ht => (hok t ht).frame (.refl _) (σ.mem.modify_slots_of_ne ?_ _),
      by simp, trivial⟩
    rintro rfl
    exact hnot (hold ▸ mem_map_of_mem ht)

theorem client_drop {todo : List ℕ} {st : SlotState} (hold : (σ.clients i).slots = s :: todo)
    (hnew : c'.slots = todo) (hst : st.withClient = false)
    (hserver : st.withServer = (σ.mem.slots s).state.withServer)
    (hok : ClientOk g (σ.mem.modify s fun x => { x with state := st }) c') :
    Invariant g (σ.setClient i (σ.mem.modify s fun x => { x with state := st }, c')) := by
  have hnd := h.ownership.clients.nodup i
  rw [hold, nodup_cons] at hnd
  refine h.client_modify (s := s) (fun s' hs' => σ.mem.modify_slots_of_ne hs' _) (.refl _) rfl
    h.history ?_ (hnew ▸ hnd.2) (.inl (by simp [hold])) ?_ (by simpa using hserver)
    (fun _ => ⟨st, by simp⟩) ?_ hok
  · intro s' hs'
    simp [hnew, hold, hs']
  · simp [hnew, hnd.1, hst]
  · intro hsub
    have hsub' : st = .submitted := by simpa using hsub
    simp [hsub', withClient] at hst

theorem client_published (hpc : (σ.clients i).pc = .bump) (n : UInt32) :
    Invariant g (σ.setClient i ({ σ.mem with submitSeq := n }, (σ.clients i).published)) := by
  have hok := h.clientOk i
  simp only [ClientOk, hpc] at hok
  have hsent : ∀ t ∈ (σ.clients i).issued, Sent g { σ.mem with submitSeq := n } t :=
    fun t ht => (hok t ht).frame (.refl _) rfl
  have hslots : (σ.clients i).slots = (σ.clients i).issued.map Ticket.slot := by
    simp [Client.slots, hpc]
  unfold Client.published
  split
  · exact h.client_local rfl rfl rfl h.history (by rw [hslots]; rfl) hsent
  · next t rest _ hissued =>
      refine h.client_local rfl rfl rfl h.history (by rw [hslots]; rfl) ⟨hsent, [], ?_, by simp⟩
      simpa using hissued
  · next hissued =>
      refine h.client_local rfl rfl rfl h.history ?_ trivial
      rw [hslots, hissued]
      rfl

theorem client_answered {t : Ticket} {rest : List Ticket} {st : Int32} {n : ℕ}
    {buf : List UInt8} (hpc : (σ.clients i).pc = .readBytes t rest st n buf)
    (hlen : ¬ buf.length < n) :
    Invariant g (σ.setClient i ({ σ.mem with log := { σ.mem.log with
      answers := σ.mem.log.answers ++ [⟨t.uid, t.req, ⟨st, buf⟩⟩] } },
      (σ.clients i).answered ⟨st, buf⟩ rest)) := by
  have hok := h.clientOk i
  simp only [ClientOk, hpc] at hok
  obtain ⟨hsent, hawait, hcompleted, hstatus, hn, hle, hbuf⟩ := hok
  have hx : σ.mem.log.Extends { σ.mem.log with
      answers := σ.mem.log.answers ++ [⟨t.uid, t.req, ⟨st, buf⟩⟩] } :=
    ⟨prefix_rfl, fun _ hc => hc⟩
  obtain ⟨resp, hcalled, hreply⟩ := (hsent t hawait.mem).completed hcompleted
  have hresp : resp = ⟨st, buf⟩ := by
    have hlength : buf.length = resp.payload.length := by
      have := hreply.len
      omega
    have hpayload : resp.payload = buf := by
      refine ext_getElem hlength.symm fun k hk hk' => ?_
      rw [← hbuf k _ (getElem?_eq_getElem hk'),
        hreply.bytes k _ hk (getElem?_eq_getElem hk)]
    rw [← hstatus, hreply.status, ← hpayload]
  have hhist : HistoryOk g { σ.mem.log with
      answers := σ.mem.log.answers ++ [⟨t.uid, t.req, ⟨st, buf⟩⟩] } := by
    refine ⟨h.history.fits, h.history.calls_nodup, h.history.calls_published, fun a ha => ?_⟩
    rcases mem_append.mp ha with ha | ha
    · exact (h.history.answers a ha).mono hx
    · rw [mem_singleton.mp ha, ← hresp]
      exact hcalled
  obtain ⟨done, hissued, hdone⟩ := hawait
  have hall : ∀ d ∈ done ++ [t], (σ.mem.slots d.slot).state = .completed := by
    intro d hd
    rcases mem_append.mp hd with hd | hd
    · exact hdone d hd
    · rw [mem_singleton.mp hd]
      exact hcompleted
  have hslots : (σ.clients i).slots = (σ.clients i).issued.map Ticket.slot := by
    simp [Client.slots, hpc]
  cases rest with
  | cons t' rest' =>
    refine h.client_local rfl rfl rfl hhist (by rw [hslots]; rfl)
      ⟨fun t ht => (hsent t ht).frame hx rfl, done ++ [t], ?_, hall⟩
    simp [Client.answered, hissued]
  | nil =>
    unfold Client.answered
    dsimp only
    split
    · refine h.client_local rfl rfl rfl hhist (by rw [hslots]; rfl) fun d hd => hall d ?_
      simpa [hissued] using hd
    · refine h.client_local rfl rfl rfl hhist (by rw [hslots]; rfl) fun s hs => ?_
      obtain ⟨d, hd, rfl⟩ := mem_map.mp hs
      exact hall d (hissued ▸ hd)

theorem client_step (expired : Bool) :
    Invariant g (σ.setClient i ((σ.clients i).step g σ.mem expired)) := by
  have hok := h.clientOk i
  have hself : Invariant g (σ.setClient i (σ.mem, σ.clients i)) := h.client_quiet hok rfl
  have hnd := h.ownership.clients.nodup i
  have hst : ∀ s ∈ (σ.clients i).slots, (σ.mem.slots s).state.withClient = true :=
    fun s => h.ownership.client_state
  obtain ⟨l, hl⟩ : ∃ l, l = (σ.clients i).slots := ⟨_, rfl⟩
  have hlist := hl
  cases hpc : (σ.clients i).pc <;> simp only [ClientOk, hpc] at hok <;>
    simp only [Client.slots, hpc] at hnd hst hlist <;> simp only [Client.step, hpc]
  all_goals replace hlist := hlist.symm.trans hl
  case idle => exact hself
  case scan r n =>
    split_ifs
    · exact h.client_quiet hok hlist
    · exact h.client_quiet hok hlist
    · exact h.client_fail _
    · exact h.client_quiet hok hlist
  case claim r n =>
    split_ifs with hfree
    · exact h.client_claim hpc hfree _ _
    · exact h.client_claim hpc hfree _ _
    · exact h.client_quiet hok hlist
  case publish r s w => exact h.client_publishing hpc
  case bump => exact h.client_published hpc _
  case poll t rest =>
    split_ifs with hst
    · exact h.client_quiet ⟨hok.1, hok.2, hst⟩ hlist
    · exact h.client_quiet hok hlist
  case wait t rest =>
    split_ifs
    · exact h.client_fail _
    · exact h.client_quiet hok hlist
  case readAck t rest =>
    split_ifs
    · exact h.client_quiet hok hlist
    · exact h.client_fail _
  case readStatus t rest => exact h.client_quiet ⟨hok.1, hok.2.1, hok.2.2, rfl⟩ hlist
  case readLen t rest st =>
    split_ifs
    · exact h.client_fail _
    · exact h.client_quiet ⟨hok.1, hok.2.1, hok.2.2.1, hok.2.2.2, rfl, by simp, by simp⟩ hlist
  case readBytes t rest st n buf =>
    split_ifs with hlen
    · obtain ⟨hsent, hawait, hcompleted, hstatus, hn, hle, hbuf⟩ := hok
      refine h.client_quiet ⟨hsent, hawait, hcompleted, hstatus, hn, by simpa using hlen,
        fun k b hb => ?_⟩ hlist
      rcases lt_or_ge k buf.length with hk | hk
      · rw [getElem?_append_left hk] at hb
        exact hbuf k b hb
      · rw [getElem?_append_right hk, getElem?_singleton] at hb
        split_ifs at hb with hk'
        obtain rfl : k = buf.length := by omega
        exact Option.some.inj hb
    · exact h.client_answered hpc hlen
  case held =>
    refine h.client_quiet (fun s hs => ?_) hlist
    obtain ⟨t, ht, rfl⟩ := mem_map.mp hs
    exact hok t ht
  case free todo =>
    cases todo with
    | nil => exact h.client_quiet trivial hlist
    | cons s todo =>
      refine h.client_drop (by simp [Client.slots, hpc]) rfl rfl
        (by simp [hok s, withServer]) fun s' hs' => ?_
      rw [Memory.modify_slots_of_ne _ (ne_of_mem_of_not_mem hs' (nodup_cons.mp hnd).1)]
      exact hok s' (mem_cons_of_mem _ hs')
  case abandon todo retired e =>
    cases todo with
    | nil => exact h.client_quiet trivial hlist
    | cons s todo =>
      simp only [Client.abandonLoad]
      cases heq : (σ.mem.slots s).state
      case free | abandoned => simp [heq, withClient] at hst
      all_goals exact h.client_quiet trivial hlist
  case abandonCas from_ s todo retired e =>
    have hold : (σ.clients i).slots = s :: todo := by simp [Client.slots, hpc]
    replace hst := hst s (by simp)
    split_ifs with hcas hproc
    · exact h.client_drop hold rfl rfl (by rw [hcas, hproc]; rfl) trivial
    · refine h.client_drop hold rfl rfl ?_ trivial
      subst hcas
      cases hs : (σ.mem.slots s).state <;> simp [hs, withClient] at hst hproc <;> rfl
    · exact h.client_quiet trivial hlist

end

end ClientSteps

section ServerSteps

variable [DecidableEq κ] {k : κ}

section

variable (h : Invariant g σ)

include h

theorem server_quiet (hok : ServerOk g σ.mem v') (hlist : v'.slots = (σ.servers k).slots) :
    Invariant g (σ.setServer k (σ.mem, v')) :=
  h.server_local rfl rfl hlist hok

/-- An access that only reads the slot the server took. -/
theorem server_read {p : Publication} (ht : Taken σ.mem (σ.servers k) p)
    (hat : ServerAt g σ.mem v' p) (hlist : v'.slots = (σ.servers k).slots)
    (huid : v'.uid = (σ.servers k).uid) (hslot : v'.slot = (σ.servers k).slot) :
    Invariant g (σ.setServer k (σ.mem, v')) := by
  refine h.server_quiet (.inr ⟨p, ⟨huid ▸ ht.published, hslot ▸ ht.slot, ?_, ?_⟩, hat⟩) hlist
  · rw [hslot, huid]
    exact ht.uid
  · rw [hslot]
    exact ht.reqId

theorem server_take {n : ℕ} (hpc : (σ.servers k).pc = .take n)
    (hst : (σ.mem.slots s).state = .submitted) :
    Invariant g (σ.setServer k (σ.mem.modify s fun x => { x with state := .processing },
      { σ.servers k with slot := s, uid := (σ.mem.slots s).uid, pc := .advance })) := by
  obtain ⟨p, hp⟩ := h.posted s hst
  refine h.server_modify (s := s) (fun s' hs' => σ.mem.modify_slots_of_ne hs' _) rfl ?_ ?_
    (.inr hst) ?_ ?_ ?_ ?_ ?_
  · intro s' hs'
    simp [Server.slots, hpc, hs']
  · simp [Server.slots]
  · simp [Server.slots, withServer]
  · simp [hst, withClient]
  · rintro t rfl _ ht
    exact ⟨ht.published, by simpa using ht.uid, by simpa using ht.reqId, by simp, by simp⟩
  · simp
  · refine .inr ⟨p, ⟨hp.published, hp.slot, by simp, by simpa using hp.reqId⟩, ?_, hp.uncalled⟩
    obtain ⟨h1, h2, h3, h4⟩ := hp.request
    simpa using ⟨h1, h2, h3, h4⟩

theorem server_write {f : Slot → Slot} {pc' : ServerPc} {p : Publication}
    (ht : Taken σ.mem (σ.servers k) p)
    (hat : ServerAt g (σ.mem.modify (σ.servers k).slot f) { σ.servers k with pc := pc' } p)
    (hold : (σ.servers k).slots = [(σ.servers k).slot])
    (hnew : Server.slots { σ.servers k with pc := pc' } = [(σ.servers k).slot])
    (hf : ∀ x, (f x).state = x.state ∧ (f x).uid = x.uid ∧ (f x).reqId = x.reqId) :
    Invariant g (σ.setServer k
      (σ.mem.modify (σ.servers k).slot f, { σ.servers k with pc := pc' })) := by
  have hserved := h.ownership.server_state (k := k) (s := (σ.servers k).slot) (by simp [hold])
  refine h.server_modify (s := (σ.servers k).slot) (fun s' hs' => σ.mem.modify_slots_of_ne hs' _)
    rfl (fun s' _ => by rw [hnew, hold]) (by simp [hnew]) (.inl (by simp [hold])) ?_ ?_ ?_ ?_ ?_
  · simp [hnew, hf, hserved]
  · simp [hf]
  · intro t hslot hst hsent
    have hproc : (σ.mem.slots (σ.servers k).slot).state = .processing := by
      cases hs : (σ.mem.slots (σ.servers k).slot).state <;>
        simp [hs, withServer, withClient] at hserved hst ⊢
    refine ⟨hsent.published, ?_, ?_, ?_, ?_⟩ <;> rw [hslot, Memory.modify_slots_self]
    · rw [(hf _).2.1, ← hslot, hsent.uid]
    · rw [(hf _).2.2, ← hslot, hsent.reqId]
    · simp [hf, hproc]
    · simp [hf, hproc]
  · rw [Memory.modify_slots_self, (hf _).1]
    intro hs
    simp [hs, withServer] at hserved
  · refine .inr ⟨p, ⟨ht.published, ht.slot, ?_, ?_⟩, hat⟩
    · simpa [hf] using ht.uid
    · simpa [hf] using ht.reqId

theorem server_handle (hpc : (σ.servers k).pc = .handle) (result : Response) :
    Invariant g (σ.setServer k ((σ.servers k).step g σ.mem result)) := by
  have hold : (σ.servers k).slots = [(σ.servers k).slot] := by simp [Server.slots, hpc]
  obtain ⟨p, ht, hat⟩ := (h.serverOk k).resolve_left (by simp [hold])
  simp only [ServerAt, hpc] at hat
  obtain ⟨⟨hreq, hun⟩, hop, hfl, hid, hbuf⟩ := hat
  simp only [Server.step, hpc]
  set call : HandlerCall := ⟨(σ.servers k).uid, (σ.servers k).slot, (σ.servers k).reqId,
    ⟨(σ.servers k).opcode, (σ.servers k).flags, (σ.servers k).buf⟩, result⟩ with hcalldef
  have hcallreq : call.req = p.req := by simp [hcalldef, hop, hfl, hbuf]
  have hx : σ.mem.log.Extends { σ.mem.log with calls := σ.mem.log.calls ++ [call] } :=
    ⟨prefix_rfl, fun c hc => mem_append_left _ hc⟩
  -- A request in another slot is another publication, so it stays uncalled.
  have huncalled : ∀ {uid s}, (∃ q, σ.mem.log.published[uid]? = some q ∧ q.slot = s) →
      s ≠ (σ.servers k).slot → σ.mem.log.Uncalled uid →
      History.Uncalled { σ.mem.log with calls := σ.mem.log.calls ++ [call] } uid := by
    rintro uid s ⟨q, hq, rfl⟩ hne hu c hc rfl
    rcases mem_append.mp hc with hc | hc
    · exact hu c hc rfl
    · rw [mem_singleton.mp hc] at hq
      have hpq : p = q := Option.some.inj (ht.published.symm.trans hq)
      exact hne (hpq ▸ ht.slot)
  have hserved := h.ownership.server_state (k := k) (s := (σ.servers k).slot) (by simp [hold])
  have hlist : Server.slots { σ.servers k with reply := result, pc := .checkId } =
      (σ.servers k).slots := by simp [Server.slots, hpc]
  refine ⟨⟨h.ownership.clients, ?_, h.ownership.withClient, ?_⟩, fun i => ?_, ?_, fun s hs => ?_, ?_⟩
  · rw [System.setServer_slots, hlist, update_eq_self]
    exact h.ownership.servers
  · rw [System.setServer_slots, hlist, update_eq_self]
    exact h.ownership.withServer
  · exact (h.clientOk i).frame (fun t _ _ hsent => hsent.frame hx rfl) fun _ _ _ => rfl
  · refine forall_update ?_ fun j hj => ?_
    · exact .inr ⟨p, ⟨ht.published, ht.slot, ht.uid, ht.reqId⟩, hid, call,
        mem_append_right _ (mem_singleton_self _), rfl, hcallreq, rfl⟩
    · refine (h.serverOk j).frame hx (fun s _ => ⟨_, rfl, id⟩) fun hne => ?_
      obtain ⟨q, hq, -⟩ := (h.serverOk j).resolve_left hne
      refine huncalled ⟨q, hq.published, rfl⟩ fun heq => hj ?_
      have hj' : (σ.servers j).slot ∈ (σ.servers j).slots := by
        unfold Server.slots at hne ⊢
        split <;> simp_all
      refine h.ownership.servers.holder_unique j k _ hj' ?_
      rw [← hq.slot, heq, hold]
      exact mem_singleton_self _
  · obtain ⟨q, hq⟩ := h.posted s hs
    refine ⟨q, hq.frame hx rfl (huncalled ⟨q, hq.published, hq.slot⟩ ?_)⟩
    rintro rfl
    simp [show (σ.mem.slots (σ.servers k).slot).state = .submitted from hs,
      withServer] at hserved
  · refine ⟨h.history.fits, ?_, fun c hc => ?_, fun a ha => (h.history.answers a ha).mono hx⟩
    · change (map HandlerCall.uid (σ.mem.log.calls ++ [call])).Nodup
      rw [map_append, nodup_append']
      refine ⟨h.history.calls_nodup, nodup_singleton _, fun uid hu hs => ?_⟩
      obtain ⟨c, hc, rfl⟩ := mem_map.mp hu
      exact hun c hc (by simpa using hs)
    · rcases mem_append.mp hc with hc | hc
      · exact h.history.calls_published c hc
      · rw [mem_singleton.mp hc]
        change σ.mem.log.published[(σ.servers k).uid]? =
          some ⟨(σ.servers k).slot, (σ.servers k).reqId, call.req⟩
        rw [ht.published, hcallreq, hid, ← ht.slot]

theorem server_release {st : SlotState} {how : Served}
    (hold : (σ.servers k).slots = [(σ.servers k).slot]) (hst : st.withServer = false)
    (hclient : st.withClient = (σ.mem.slots (σ.servers k).slot).state.withClient)
    (hsent : ∀ t, t.slot = (σ.servers k).slot → st.withClient = true → Sent g σ.mem t →
      Sent g (σ.mem.modify (σ.servers k).slot fun x => { x with state := st }) t)
    (hsub : st ≠ .submitted) :
    Invariant g (σ.setServer k (σ.mem.modify (σ.servers k).slot fun x => { x with state := st },
      (σ.servers k).finish how)) := by
  refine h.server_modify (s := (σ.servers k).slot) (fun s' hs' => σ.mem.modify_slots_of_ne hs' _)
    rfl (fun s' hs' => by simp [hold, hs']) (by simp) (.inl (by simp [hold])) (by simp [hst]) ?_ ?_
    ?_ (.inl rfl)
  · simpa using hclient
  · exact fun t hslot hw => hsent t hslot (hclient ▸ hw)
  · simpa using hsub

theorem server_step (result : Response) :
    Invariant g (σ.setServer k ((σ.servers k).step g σ.mem result)) := by
  by_cases hidle : (σ.servers k).slots = []
  · cases hpc : (σ.servers k).pc <;> simp [Server.slots, hpc] at hidle <;>
      simp only [Server.step, hpc]
    case idle => exact h.server_quiet (h.serverOk k) rfl
    case take n =>
      split_ifs with hn hst
      · exact h.server_take hpc hst
      · exact h.server_quiet (.inl rfl) (by simp [Server.slots, hpc])
      · exact h.server_quiet (.inl rfl) (by simp [Server.slots, Server.finish, hpc])
  obtain ⟨p, ht, hat⟩ := (h.serverOk k).resolve_left hidle
  cases hpc : (σ.servers k).pc <;> simp only [ServerAt, hpc] at hat
  case idle | take => simp [Server.slots, hpc] at hidle
  all_goals have hold : (σ.servers k).slots = [(σ.servers k).slot] := by simp [Server.slots, hpc]
  all_goals have hserved := h.ownership.server_state (k := k) (s := (σ.servers k).slot) (by simp [hold])
  case handle => exact h.server_handle hpc result
  all_goals simp only [Server.step, hpc]
  case advance =>
    refine h.server_local rfl rfl (by simp [Server.slots, hpc]) ?_
    exact .inr ⟨p, ⟨ht.published, ht.slot, ht.uid, ht.reqId⟩, hat⟩
  case readOpcode => exact h.server_read ht ⟨hat, hat.1.opcode⟩ hold.symm rfl rfl
  case readFlags => exact h.server_read ht ⟨hat.1, hat.2, hat.1.1.flags⟩ hold.symm rfl rfl
  case readReqId => exact h.server_read ht ⟨hat.1, hat.2.1, hat.2.2, ht.reqId⟩ hold.symm rfl rfl
  case readLen =>
    have hfits := h.history.fits p (mem_of_getElem? ht.published)
    have hlen := hat.1.1.len
    rw [if_neg (by omega)]
    exact h.server_read ht
      ⟨hat.1, hat.2.1, hat.2.2.1, hat.2.2.2, hlen, by simp, by simp⟩ hold.symm rfl rfl
  case readBytes =>
    obtain ⟨hfresh, hop, hfl, hid, hlen, hle, hbuf⟩ := hat
    split_ifs with hlt
    · exact h.server_read ht ⟨hfresh, hop, hfl, hid, hlen, by simpa using hlt,
        hfresh.1.bytes.snoc_take hbuf (hlen ▸ hlt)⟩ hold.symm rfl rfl
    · refine h.server_read ht ⟨hfresh, hop, hfl, hid, ?_⟩ hold.symm rfl rfl
      change (σ.servers k).buf = p.req.payload
      rw [hbuf]
      exact take_of_length_le (by omega)
  case checkId =>
    rw [if_pos (by rw [ht.reqId, hat.1])]
    exact h.server_read ht hat hold.symm rfl rfl
  case checkState =>
    obtain ⟨hid, call, hcall, huid, hreq, hres⟩ := hat
    split
    · split_ifs with hcap
      · refine h.server_read ht ⟨⟨hid, call, hcall, huid, hreq, ?_⟩, ?_⟩ hold.symm rfl rfl
        · rw [hres, Server.delivered, if_pos hcap]
        · exact fun j b hj => absurd hj (Nat.not_lt_zero j)
      · refine h.server_read ht ⟨⟨hid, call, hcall, huid, hreq, ?_⟩, ?_⟩ hold.symm rfl rfl
        · rw [hres, Server.delivered, if_neg hcap]
        · exact fun j b hj => absurd hj (Nat.not_lt_zero j)
    · next habandoned => exact h.server_read ht habandoned hold.symm rfl rfl
    · cases hs : (σ.mem.slots (σ.servers k).slot).state <;> simp_all [withServer]
  case writeBytes n =>
    cases hb : (σ.servers k).reply.payload[n]? with
    | some b =>
      exact h.server_write ht ⟨hat.1, by simpa using hat.2.write hb⟩ hold rfl
        fun _ => ⟨rfl, rfl, rfl⟩
    | none =>
      exact h.server_read ht ⟨hat.1, hat.2.of_length_le (getElem?_eq_none_iff.mp hb)⟩ hold.symm rfl rfl
  case writeStatus =>
    exact h.server_write ht ⟨hat.1, by simpa [Slot.HasBytes] using hat.2, by simp⟩
      hold rfl fun _ => ⟨rfl, rfl, rfl⟩
  case writeLen =>
    obtain ⟨⟨hid, call, hcall, huid, hreq, hres⟩, hbytes, hstatus⟩ := hat
    refine h.server_write ht ⟨⟨hid, call, hcall, huid, hreq, hres⟩,
      by simpa [Slot.HasBytes] using hbytes, by simpa using hstatus, ?_⟩ hold rfl
      fun _ => ⟨rfl, rfl, rfl⟩
    have hle := Server.delivered_length_le g call.result
    rw [← hres] at hle
    simpa using hle.trans_lt g.payloadCap_lt
  case writeAck =>
    obtain ⟨hcalled, hbytes, hstatus, hlen⟩ := hat
    exact h.server_write ht ⟨hcalled.2, by simp [hcalled.1], by simpa using hstatus,
      by simpa using hlen, by simpa [Slot.HasBytes] using hbytes⟩ hold rfl fun _ => ⟨rfl, rfl, rfl⟩
  case complete =>
    split
    · next hproc =>
        refine h.server_release hold rfl (by rw [hproc]; rfl) ?_ (by simp)
        intro t hslot _ hsent
        obtain ⟨hcalled, h1, h2, h3, h4⟩ := hat
        have htp : (⟨t.slot, t.reqId, t.req⟩ : Publication) = p := by
          refine Option.some.inj (hsent.published.symm.trans ?_)
          rw [← ht.published, ← ht.uid, ← hslot, hsent.uid]
        subst htp
        refine ⟨hsent.published, ?_, ?_, ?_, fun _ => ⟨(σ.servers k).reply, ?_, ?_⟩⟩
        · rw [hslot, Memory.modify_slots_self, ← hslot, hsent.uid]
        · rw [hslot, Memory.modify_slots_self, ← hslot, hsent.reqId]
        · simp [hslot]
        · rw [← hsent.uid, hslot, ht.uid]
          exact hcalled
        · rw [hslot, Memory.modify_slots_self]
          exact ⟨h1, h2, h3, h4⟩
    · next habandoned => exact h.server_read ht habandoned hold.symm rfl rfl
    · cases hs : (σ.mem.slots (σ.servers k).slot).state <;> simp_all [withServer]
  case drain =>
    rw [if_pos hat]
    exact h.server_release hold rfl (by rw [hat]; rfl) (by simp [withClient]) (by simp)

end

end ServerSteps

section Runs

variable [DecidableEq ι]

theorem submit (h : Invariant g σ) (hpc : (σ.clients i).pc = .idle) (many : Bool)
    (rs : List Request) : Invariant g (σ.setClient i (σ.mem, (σ.clients i).submit g many rs)) := by
  unfold Client.submit
  split
  · exact h.client_quiet (by simp [ClientOk, hpc]) (by simp [Client.slots, hpc])
  · split_ifs <;> exact h.client_quiet (by simp [ClientOk, hpc]) (by simp [Client.slots, hpc])

theorem step [DecidableEq κ] (h : Invariant g σ) (e : Event ι κ) : Invariant g (σ.step g e) := by
  cases e with
  | submit i | submitMany i =>
    simp only [System.step]
    split_ifs with hpc
    · exact h.submit hpc _ _
    · exact h
  | client i expired => exact h.client_step expired
  | serve k ep =>
    simp only [System.step]
    split_ifs with hpc
    · exact h.server_quiet (.inl rfl) (by simp [Server.slots, hpc])
    · exact h
  | server k result => exact h.server_step result

end Runs

end Invariant

theorem System.Initial.invariant (h : σ.Initial) : Invariant g σ := by
  have hclients : ∀ i, (σ.clients i).slots = [] := fun i => by
    simp [Client.slots, h.clients_idle i]
  have hservers : ∀ k, (σ.servers k).slots = [] := fun k => by
    simp [Server.slots, h.servers_idle k]
  refine ⟨⟨exclusive_of_empty hclients, exclusive_of_empty hservers, fun s => ?_, fun s => ?_⟩,
    fun i => ?_, fun k => .inl (hservers k), fun s hs => ?_, ?_⟩
  · simp [h.slots_free s, withClient, not_owned_of_empty hclients]
  · simp [h.slots_free s, withServer, not_owned_of_empty hservers]
  · simp [ClientOk, h.clients_idle i]
  · simp [h.slots_free s] at hs
  · rw [h.log_empty]
    exact ⟨by simp, by simp, by simp, by simp⟩

theorem System.run_invariant [DecidableEq ι] [DecidableEq κ] (h : σ.Initial)
    (es : List (Event ι κ)) : Invariant g (σ.run g es) :=
  Transition.run_invariant (fun _ e hI => hI.step e) h.invariant es

/-- **Exactly once, and never another's answer.** However the accesses of clients and
servers interleave and whichever clients give up, each answer a client's wait returns is
what the handler produced when it was called with that client's own opcode, flags and
payload, delivered as it fits the slot; and no publication is handed to the handler twice. -/
theorem System.answers_exactly_once [DecidableEq ι] [DecidableEq κ] (g : Geom) (σ : System ι κ)
    (h : σ.Initial) (es : List (Event ι κ)) :
    (∀ a ∈ (σ.run g es).mem.log.answers, ∃ call ∈ (σ.run g es).mem.log.calls,
      call.uid = a.uid ∧ call.req = a.req ∧ a.response = Server.delivered g call.result) ∧
    (∀ call ∈ (σ.run g es).mem.log.calls, (σ.run g es).mem.log.published[call.uid]? =
      some ⟨call.slot, call.reqId, call.req⟩) ∧
    ((σ.run g es).mem.log.calls.map HandlerCall.uid).Nodup := by
  have hI : Invariant g (σ.run g es) := System.run_invariant h es
  exact ⟨hI.history.answers, hI.history.calls_published, hI.history.calls_nodup⟩

def tinyGeom : Geom := ⟨1, 0, by decide, by decide⟩

/-- One request, served and answered: the handler says `(0, [7])`. -/
def oversizedRun : List (Event Unit Unit) :=
  .submit () ⟨3, 0, []⟩ :: List.replicate 9 (.client () false) ++
    .serve () 0 :: List.replicate 14 (.server () ⟨0, [7]⟩) ++ List.replicate 5 (.client () false)

theorem System.answers_exactly_once_oversizedRun :
    (System.fresh : System Unit Unit).Initial ∧
      ∀ a ∈ (System.fresh.run tinyGeom oversizedRun).mem.log.answers,
        ∃ call ∈ (System.fresh.run tinyGeom oversizedRun).mem.log.calls,
          call.uid = a.uid ∧ call.req = a.req ∧
            a.response = Server.delivered tinyGeom call.result :=
  ⟨System.fresh_initial,
    (System.answers_exactly_once tinyGeom System.fresh System.fresh_initial oversizedRun).1⟩

/-- An answer too long for the slot reaches the client as the overflow sentinel, not as
the handler produced it. -/
theorem System.oversized_answer_replaced :
    ∃ a ∈ (System.fresh.run tinyGeom oversizedRun).mem.log.answers,
      ∀ call ∈ (System.fresh.run tinyGeom oversizedRun).mem.log.calls,
        call.uid = a.uid → call.result ≠ a.response := by
  decide +kernel

end AetherVfs.Ipc
