import AetherVfs.Read.Fragmented

/-!
# When a read over the ring is complete

One request is answered with what the provider gave for it, whatever else is
served before the client copies the answer out. A whole read then is a walk
along its fragments that ends at the first one that came back short, so it is
complete exactly when no fragment before the end of the file comes back short.
-/

namespace AetherVfs.Read

open List ReadPlan

open Ipc (Request Response Geom)
open Protocol
open Window (window)

/-! ## The mapping and its banks -/

namespace SharedSeg

variable {m : SharedSeg} {off : ℕ} {data : List UInt8}

@[simp] theorem write_len : (m.write off data).len = m.len := rfl

theorem write_outside {addr : ℕ} (h : addr < off ∨ off + data.length ≤ addr) :
    (m.write off data).bytes addr = m.bytes addr := by
  simp only [write]
  split_ifs with hle
  · simp [getElem?_eq_none (show data.length ≤ addr - off by omega)]
  · rfl

theorem window_write : window (m.write off data).bytes off data.length = data := by
  apply ext_getElem
  · simp
  · intro i _ hi
    simp [window, write, getElem?_eq_getElem hi]

end SharedSeg

variable {slot want : ℕ} {m : SharedSeg} {data : List UInt8}

namespace Ring

variable (r : Ring)

theorem bankSize_pos : 0 < r.arena.bankSize :=
  lt_of_lt_of_le (by norm_num) (le_max_right _ 4096)

theorem banks_eq : r.arena.banks = r.geom.slotCount := max_eq_left r.slotCount_pos

theorem bankIndex_eq (h : slot < r.geom.slotCount) : r.arena.bankIndex slot = slot := by
  rw [DataArena.bankIndex, banks_eq, Nat.mod_eq_of_lt h]

/-- The mapping holds all banks. -/
def Fits (m : SharedSeg) : Prop :=
  r.arena.mappingOffset + r.arena.banks * r.arena.bankSize ≤ m.len

variable {r}

theorem Fits.bank (h : r.Fits m) (hs : slot < r.geom.slotCount) :
    r.arena.bankMappingOffset slot + r.arena.bankSize ≤ m.len := by
  have hle : (slot + 1) * r.arena.bankSize ≤ r.arena.banks * r.arena.bankSize :=
    Nat.mul_le_mul_right _ (by rw [banks_eq]; exact hs)
  rw [Nat.succ_mul] at hle
  rw [DataArena.bankMappingOffset, bankIndex_eq r hs]
  exact le_trans (by omega) h

theorem bank_disjoint {s t addr : ℕ} (hs : s < r.geom.slotCount) (ht : t < r.geom.slotCount)
    (hst : s ≠ t) (h : r.arena.inBank s addr) : ¬ r.arena.inBank t addr := by
  rintro ⟨hle, hlt⟩
  obtain ⟨hle', hlt'⟩ := h
  simp only [DataArena.bankMappingOffset, bankIndex_eq r hs, bankIndex_eq r ht] at hle hlt hle' hlt'
  rcases Nat.lt_or_gt_of_ne hst with hlt'' | hlt''
  · have hmul := Nat.mul_le_mul_right r.arena.bankSize hlt''
    rw [Nat.succ_mul] at hmul
    omega
  · have hmul := Nat.mul_le_mul_right r.arena.bankSize hlt''
    rw [Nat.succ_mul] at hmul
    omega

end Ring

/-! ## One request -/

/-- The bytes a reply to a fragment can carry. -/
def Ring.room (r : Ring) (f : Fragment) : ℕ :=
  if f.bulk = true ∨ bulkThreshold ≤ f.len then min r.arena.bankSize f.len
  else min f.len (maxReadData r.geom.payloadCap)

/-- What the wire needs of a fragment: its length and its reply's fit their fields. -/
structure Ring.Sendable (r : Ring) (f : Fragment) : Prop where
  pos : 0 < f.len
  len_lt : f.len < 2 ^ 32
  room_lt : r.room f < 2 ^ 31

theorem Ring.room_le (r : Ring) (f : Fragment) : r.room f ≤ f.len := by
  unfold Ring.room
  split_ifs
  · exact min_le_right _ _
  · exact min_le_left _ _

/-- Where the request of a fragment asks to read. -/
def Fragment.place (f : Fragment) (offset : UInt64) : ℕ := (offset + UInt64.ofNat f.off).toNat

/-- The answer to a request in `slot`: whoever copies it out while the bank of that slot is as
it is in `m` gets `data`. -/
structure Ready (r : Ring) (slot want : ℕ) (data : List UInt8) (m : SharedSeg) (resp : Response) :
    Prop where
  status : resp.status = stOk
  take : ∀ m' : SharedSeg, m'.len = m.len →
    (∀ addr, r.arena.inBank slot addr → m'.bytes addr = m.bytes addr) →
      takeReply m' resp.payload want = .ok data

theorem Ready.frame {r : Ring} {m' : SharedSeg} {resp : Response}
    (h : Ready r slot want data m resp) (hlen : m'.len = m.len)
    (hsame : ∀ addr, r.arena.inBank slot addr → m'.bytes addr = m.bytes addr) :
    Ready r slot want data m' resp where
  status := h.status
  take := fun m'' hlen'' hsame'' => h.take m'' (hlen''.trans hlen) fun addr haddr =>
    (hsame'' addr haddr).trans (hsame addr haddr)

/-- The server has answered a request in `slot`: it wrote to the bank of that slot at most. -/
structure Replied (r : Ring) (slot want : ℕ) (data : List UInt8) (m m' : SharedSeg)
    (resp : Response) : Prop where
  len_eq : m'.len = m.len
  outside : ∀ addr, ¬ r.arena.inBank slot addr → m'.bytes addr = m.bytes addr
  fits : resp.payload.length ≤ r.geom.payloadCap
  ready : Ready r slot want data m' resp

section Request

variable {r : Ring} {d : Director} {p : Provider} {fh offset : UInt64} {m : SharedSeg}
  {f : Fragment} {slot : ℕ}

theorem read_eq (hopen : d.opens fh = some ⟨p, false⟩) (at' : UInt64) (len : ℕ) :
    d.read fh at' len = .ok (window p.content at'.toNat (p.count at'.toNat len)) := by
  simp [Director.read, hopen, Provider.readAt]

theorem takeReply_bulk {n off : ℕ} (hn : n < 2 ^ 31) (hle : n ≤ want) (hoff : off < 2 ^ 64)
    (hin : off + n ≤ m.len) (hdata : window m.bytes off n = data) :
    takeReply m (encodeReadRespBulk (UInt32.ofNat n) (UInt64.ofNat off)) want = .ok data := by
  have hval : (UInt32.ofNat n).toNat = n := UInt32.toNat_ofNat_of_lt' (hn.trans (by norm_num))
  have hoff' : (UInt64.ofNat off).toNat = off := UInt64.toNat_ofNat_of_lt' hoff
  subst hdata
  simp only [takeReply, isReadRespBulk_bulk, if_true,
    decodeReadBulkResp_encode (n := UInt32.ofNat n) (by rwa [hval]), hval, hoff', min_eq_left hle]
  split_ifs with hpos
  · simp [SharedSeg.copyTo, SharedSeg.inBounds, hin]
  · obtain rfl : n = 0 := by omega
    rfl

theorem takeReply_inline (hlen : data.length < 2 ^ 31) (hle : data.length ≤ want) :
    takeReply m (encodeReadResp data) want = .ok data := by
  simp [takeReply, isReadRespBulk_inline hlen, decodeReadRespInto_encode hlen,
    take_of_length_le hle]

theorem request_wantBulk :
    ((f.request fh offset).flags &&& flagReadBulk ≠ 0 ∨ bulkThreshold ≤ f.len) ↔
      (f.bulk = true ∨ bulkThreshold ≤ f.len) := by
  apply or_congr_left
  cases hb : f.bulk <;> simp [Fragment.request, hb, flagReadBulk]

/-- What the provider gives for a fragment's request. -/
def Fragment.given (f : Fragment) (r : Ring) (p : Provider) (offset : UInt64) : List UInt8 :=
  window p.content (f.place offset) (p.count (f.place offset) (r.room f))

theorem length_given_le : (f.given r p offset).length ≤ r.room f := by
  rw [Fragment.given, Window.length_window]
  exact (p.count_le _ _).trans (min_le_left _ _)

theorem dispatchRead_bulk (hopen : d.opens fh = some ⟨p, false⟩) (hfit : r.Fits m)
    (hslot : slot < r.geom.slotCount) (hs : r.Sendable f)
    (hbulk : f.bulk = true ∨ bulkThreshold ≤ f.len) :
    dispatchRead d (f.request fh offset).payload (f.request fh offset).flags r.geom.payloadCap
        (some (r.arena, slot)) m =
      (m.write (r.arena.bankMappingOffset slot) (f.given r p offset), ⟨stOk, encodeReadRespBulk
        (UInt32.ofNat (f.given r p offset).length)
        (UInt64.ofNat (r.arena.bankMappingOffset slot))⟩) := by
  have hlen : (UInt32.ofNat f.len).toNat = f.len := UInt32.toNat_ofNat_of_lt' hs.len_lt
  have hroom : min (min r.arena.bankSize f.len) r.arena.bankSize = r.room f := by
    rw [Ring.room, if_pos hbulk]
    exact min_eq_left (min_le_left _ _)
  have hpos : r.room f ≠ 0 := by
    have hbank := r.bankSize_pos
    have hf := hs.pos
    rw [← hroom]
    omega
  have hin : m.inBounds (r.arena.bankMappingOffset slot) (r.room f) = true := by
    have hbank := hfit.bank hslot
    have hle : r.room f ≤ r.arena.bankSize := hroom ▸ min_le_right _ _
    simp only [SharedSeg.inBounds, decide_eq_true_eq]
    omega
  have hread : d.read fh (offset + UInt64.ofNat f.off) (r.room f) = .ok (f.given r p offset) :=
    read_eq hopen _ _
  have hgiven : (f.given r p offset).length ≤ r.room f := length_given_le
  have hreq : decodeReadReq (f.request fh offset).payload =
      some ⟨fh, offset + UInt64.ofNat f.off, UInt32.ofNat f.len⟩ := decodeReadReq_encodeReadReq _
  simp only [dispatchRead, hreq, hlen, if_pos (request_wantBulk.mpr hbulk), DataArena.fillBank,
    hroom, if_neg hpos, if_pos hin, hread, take_of_length_le hgiven, min_eq_left hgiven]

theorem dispatchRead_inline (hopen : d.opens fh = some ⟨p, false⟩) (hs : r.Sendable f)
    (hbulk : ¬ (f.bulk = true ∨ bulkThreshold ≤ f.len)) :
    dispatchRead d (f.request fh offset).payload (f.request fh offset).flags r.geom.payloadCap
        (some (r.arena, slot)) m = (m, ⟨stOk, encodeReadResp (f.given r p offset)⟩) := by
  have hlen : (UInt32.ofNat f.len).toNat = f.len := UInt32.toNat_ofNat_of_lt' hs.len_lt
  have hroom : min f.len (maxReadData r.geom.payloadCap) = r.room f := by
    rw [Ring.room, if_neg hbulk]
  have hread : d.read fh (offset + UInt64.ofNat f.off) (r.room f) = .ok (f.given r p offset) :=
    read_eq hopen _ _
  have hreq : decodeReadReq (f.request fh offset).payload =
      some ⟨fh, offset + UInt64.ofNat f.off, UInt32.ofNat f.len⟩ := decodeReadReq_encodeReadReq _
  simp only [dispatchRead, hreq, hlen, if_neg (mt request_wantBulk.mp hbulk), hroom, hread]

theorem dispatchRead_replied (offset : UInt64) (hopen : d.opens fh = some ⟨p, false⟩)
    (hfit : r.Fits m) (hslot : slot < r.geom.slotCount) (hcap : 24 ≤ r.geom.payloadCap)
    (hs : r.Sendable f) :
    let out := dispatchRead d (f.request fh offset).payload (f.request fh offset).flags
      r.geom.payloadCap (some (r.arena, slot)) m
    Replied r slot f.len (f.given r p offset) m out.1 out.2 := by
  have hgiven : (f.given r p offset).length ≤ r.room f := length_given_le
  have hwant : (f.given r p offset).length ≤ f.len := hgiven.trans (r.room_le f)
  have hlt : (f.given r p offset).length < 2 ^ 31 := hgiven.trans_lt hs.room_lt
  by_cases hbulk : f.bulk = true ∨ bulkThreshold ≤ f.len
  · have hbank := hfit.bank hslot
    have hle : (f.given r p offset).length ≤ r.arena.bankSize := by
      refine hgiven.trans ?_
      rw [Ring.room, if_pos hbulk]
      exact min_le_left _ _
    rw [dispatchRead_bulk hopen hfit hslot hs hbulk]
    refine ⟨rfl, ?_, ?_, rfl, ?_⟩
    · intro addr haddr
      apply SharedSeg.write_outside
      by_contra hin
      exact haddr ⟨by omega, by omega⟩
    · simp only [encodeReadRespBulk, length_append, length_put32, length_put64]
      omega
    · intro m'' hlen hsame
      have hm := m.len_lt
      rw [SharedSeg.write_len] at hlen
      refine takeReply_bulk hlt hwant (by omega) (by omega) ?_
      refine (Window.window_congr fun addr hlo hhi => ?_).trans (SharedSeg.window_write (m := m))
      exact hsame addr ⟨hlo, by omega⟩
  · rw [dispatchRead_inline hopen hs hbulk]
    refine ⟨rfl, fun _ _ => rfl, ?_, rfl, fun _ _ _ => takeReply_inline hlt hwant⟩
    have hroom : r.room f ≤ r.geom.payloadCap - 8 := by
      rw [Ring.room, if_neg hbulk]
      exact min_le_right _ _
    simp only [encodeReadResp, length_append, length_put32]
    omega

end Request

/-! ## A batch -/

/-- A batch the ring can take. -/
structure Ring.Takes (r : Ring) (frags : List Fragment) : Prop where
  payload : 24 ≤ r.geom.payloadCap
  sendable : ∀ f ∈ frags, r.Sendable f
  length_le : frags.length ≤ r.geom.slotCount

section Batch

variable {r : Ring} {d : Director} {p : Provider} {fh offset : UInt64}
  {sched : Schedule r.geom.slotCount} {frags : List Fragment} {ks : Set ℕ} {fl : Flight}

/-- The requests `ks` of a batch are answered, and their answers can be copied out. -/
structure Answered (r : Ring) (p : Provider) (offset : UInt64) (slots : ℕ → ℕ)
    (frags : List Fragment) (ks : Set ℕ) (fl : Flight) : Prop where
  fits : r.Fits fl.seg
  ready : ∀ k ∈ ks, ∀ f, frags[k]? = some f →
    ∃ resp, fl.answers k = some resp ∧ Ready r (slots k) f.len (f.given r p offset) fl.seg resp

theorem Answered.mono {slots : ℕ → ℕ} {js : Set ℕ} (h : Answered r p offset slots frags ks fl)
    (hsub : js ⊆ ks) : Answered r p offset slots frags js fl :=
  ⟨h.fits, fun k hk => h.ready k (hsub hk)⟩

section

variable (h : Answered r p offset sched.slots frags ks fl)

include h

theorem Answered.serve
    (hopen : d.opens fh = some ⟨p, false⟩) (ht : r.Takes frags) {k : ℕ} (hk : k < frags.length)
    (hnew : k ∉ ks) :
    Answered r p offset sched.slots frags (insert k ks)
      (fl.turn r d sched.slots (frags.map fun f => f.request fh offset) (.serve k)) := by
  have hget : frags[k]? = some frags[k] := getElem?_eq_getElem hk
  have hslot : ∀ j < frags.length, sched.slots j < r.geom.slotCount :=
    fun j hj => sched.slots_lt j (hj.trans_le ht.length_le)
  have hrep := dispatchRead_replied (f := frags[k]) offset hopen h.fits (hslot k hk)
    ht.payload (ht.sendable _ (getElem_mem hk))
  simp only [Flight.turn, getElem?_map, hget, Option.map_some]
  generalize dispatchRead d _ _ _ _ fl.seg = out at hrep
  refine ⟨?_, ?_⟩
  · rw [Ring.Fits, hrep.len_eq]
    exact h.fits
  · intro j hj f hf
    have hjlt : j < frags.length := (List.getElem?_eq_some_iff.mp hf).1
    by_cases hjk : j = k
    · subst hjk
      obtain rfl : frags[j] = f := Option.some_inj.mp (hget.symm.trans hf)
      refine ⟨out.2, ?_, hrep.ready⟩
      dsimp only
      rw [Function.update_self, Ipc.Server.delivered, if_neg (not_lt.mpr hrep.fits)]
    · obtain ⟨resp, hans, hready⟩ := h.ready j (hj.resolve_left hjk) f hf
      refine ⟨resp, (Function.update_of_ne hjk _ _).trans hans, hready.frame hrep.len_eq ?_⟩
      intro addr haddr
      -- the bank of an answered request is not the one written to
      apply hrep.outside
      refine Ring.bank_disjoint (hslot j hjlt) (hslot k hk) ?_ haddr
      exact fun heq => hjk (sched.slots_inj j (hjlt.trans_le ht.length_le) k
        (hk.trans_le ht.length_le) heq)

theorem Answered.others (w : ℕ → UInt8) :
    Answered r p offset sched.slots frags ks
      (fl.turn r d sched.slots (frags.map fun f => f.request fh offset) (.others w)) := by
  refine ⟨h.fits, ?_⟩
  intro k hk f hf
  obtain ⟨resp, hans, hready⟩ := h.ready k hk f hf
  have hlt : k < frags.length := (List.getElem?_eq_some_iff.mp hf).1
  refine ⟨resp, hans, hready.frame rfl ?_⟩
  intro addr haddr
  exact if_pos ⟨k, by simpa using hlt, haddr⟩

theorem Answered.turns
    (hopen : d.opens fh = some ⟨p, false⟩) (ht : r.Takes frags) (ts : List Turn)
    (hnodup : (ts.filterMap Turn.served).Nodup)
    (hnew : ∀ k ∈ ts.filterMap Turn.served, k < frags.length ∧ k ∉ ks) :
    Answered r p offset sched.slots frags (ks ∪ {k | k ∈ ts.filterMap Turn.served})
      (ts.foldl (Flight.turn r d sched.slots (frags.map fun f => f.request fh offset)) fl) := by
  induction ts generalizing ks fl with
  | nil => simpa using h
  | cons t ts ih =>
    cases t with
    | serve k =>
      simp only [filterMap_cons, Turn.served, nodup_cons] at hnodup hnew ⊢
      obtain ⟨hk, hks⟩ := hnew k mem_cons_self
      have hnext := ih (h.serve hopen ht hk hks) hnodup.2 ?_
      · refine hnext.mono ?_
        rintro j (hj | hj)
        · exact .inl (.inr hj)
        · rcases mem_cons.mp hj with rfl | hj
          · exact .inl (.inl rfl)
          · exact .inr hj
      · intro j hj
        have hj' := hnew j (mem_cons_of_mem k hj)
        refine ⟨hj'.1, ?_⟩
        rintro (rfl | hjks)
        · exact hnodup.1 hj
        · exact hj'.2 hjks
    | others w => exact ih (h.others w) hnodup hnew

end

theorem mapM_eq_some {α β : Type*} {g : α → Option β} {g' : α → β} {l : List α}
    (h : ∀ x ∈ l, g x = some (g' x)) : l.mapM g = some (l.map g') := by
  induction l with
  | nil => rfl
  | cons x l ih =>
    have hx := h x mem_cons_self
    have hl := ih fun y hy => h y (mem_cons_of_mem x hy)
    simp [mapM_cons, hx, hl]

theorem submitManyHeld_eq (sched : Schedule r.geom.slotCount) (offset : UInt64)
    (hopen : d.opens fh = some ⟨p, false⟩) (ht : r.Takes frags) (hfit : r.Fits m) :
    ∃ m' responses,
      submitManyHeld r d sched (frags.map fun f => f.request fh offset) m = some (m', responses) ∧
      r.Fits m' ∧ List.Forall₂ (fun resp f => resp.status = stOk ∧
        takeReply m' resp.payload f.len = .ok (f.given r p offset)) responses frags := by
  have honce := sched.turns_once frags.length
  have hmem : ∀ k, k ∈ (sched.turns frags.length).filterMap Turn.served ↔ k < frags.length :=
    fun k => honce.mem_iff.trans mem_range
  have hnone : Answered r p offset sched.slots frags ∅ ⟨m, fun _ => none⟩ := ⟨hfit, by simp⟩
  have hans := hnone.turns hopen ht (sched.turns frags.length)
    (honce.nodup_iff.mpr nodup_range) fun k hk => ⟨(hmem k).mp hk, Set.notMem_empty k⟩
  have hsmall : ((frags.map fun f => f.request fh offset).any fun req =>
      r.geom.payloadCap < req.payload.length) = false := by
    have hcap := ht.payload
    simp only [any_map, any_eq_false, Function.comp_apply, decide_eq_true_eq, not_lt,
      Fragment.request, length_encodeReadReq]
    exact fun _ _ => hcap
  simp only [submitManyHeld, hsmall, Bool.false_eq_true, if_false, length_map]
  generalize foldl _ _ _ = fl at hans ⊢
  have hready : ∀ k f, frags[k]? = some f → ∃ resp, fl.answers k = some resp ∧
      Ready r (sched.slots k) f.len (f.given r p offset) fl.seg resp := fun k f hf =>
    hans.ready k (.inr ((hmem k).mpr (List.getElem?_eq_some_iff.mp hf).1)) f hf
  have hsome : ∀ k ∈ range frags.length,
      fl.answers k = some ((fl.answers k).getD ⟨stOk, []⟩) := by
    intro k hk
    obtain ⟨resp, hresp, -⟩ := hready k _ (getElem?_eq_getElem (mem_range.mp hk))
    rw [hresp, Option.getD_some]
  refine ⟨fl.seg, _, by rw [mapM_eq_some hsome, Option.map_some], hans.fits, ?_⟩
  rw [forall₂_iff_get]
  refine ⟨by simp, fun k _ hk => ?_⟩
  obtain ⟨resp, hresp, hr⟩ := hready k _ (getElem?_eq_getElem hk)
  simp only [get_eq_getElem, getElem_map, getElem_range, hresp, Option.getD_some]
  exact ⟨hr.status, hr.take _ rfl fun _ _ => rfl⟩

end Batch

/-! ## The fragments of a read -/

/-- Fragments that follow one another from `off` on. -/
def Contiguous : ℕ → List Fragment → Prop
  | _, [] => True
  | off, f :: fs => f.off = off ∧ 0 < f.len ∧ Contiguous (off + f.len) fs

def total (fs : List Fragment) : ℕ := (fs.map Fragment.len).sum

@[simp] theorem total_nil : total [] = 0 := rfl

@[simp] theorem total_cons (f : Fragment) (fs : List Fragment) :
    total (f :: fs) = f.len + total fs := by
  simp [total]

variable {f : Fragment}

namespace ReadPlan

variable {plan : ReadPlan} {len n k off : ℕ}

def chunk (plan : ReadPlan) (len off : ℕ) : ℕ :=
  if plan.bulkThreshold ≤ len - off then min (len - off) plan.bulkChunk
  else min (len - off) plan.inlineChunk

theorem chunk_le (plan : ReadPlan) (len off : ℕ) : plan.chunk len off ≤ len - off := by
  unfold chunk
  split_ifs <;> exact min_le_left _ _

theorem batch_succ (hpos : plan.chunk len off ≠ 0) : plan.batch len (n + 1) off =
    ⟨off, plan.chunk len off, plan.bulkThreshold ≤ len - off⟩ ::
      plan.batch len n (off + plan.chunk len off) := by
  have hlt : off < len := by
    have := plan.chunk_le len off
    omega
  simp only [chunk] at hpos ⊢
  simp only [batch, if_pos hlt, if_neg hpos]

theorem batch_stop (hzero : plan.chunk len off = 0) : plan.batch len n off = [] := by
  cases n with
  | zero => rfl
  | succ n =>
    simp only [chunk] at hzero
    simp only [batch, hzero, if_true]
    split_ifs <;> rfl

theorem chunk_of_batch_nil (h : plan.batch len (n + 1) off = []) : plan.chunk len off = 0 := by
  by_contra hc
  rw [batch_succ hc] at h
  exact absurd h (cons_ne_nil _ _)

theorem chunk_at_end : plan.chunk len len = 0 :=
  Nat.le_zero.mp ((plan.chunk_le len len).trans (Nat.sub_self len).le)

theorem batch_contiguous : Contiguous off (plan.batch len n off) := by
  induction n generalizing off with
  | zero => trivial
  | succ n ih =>
    by_cases hc : plan.chunk len off = 0
    · rw [batch_stop hc]
      trivial
    · rw [batch_succ hc]
      exact ⟨rfl, Nat.pos_of_ne_zero hc, ih⟩

theorem batch_append : plan.batch len (n + k) off =
    plan.batch len n off ++ plan.batch len k (off + total (plan.batch len n off)) := by
  induction n generalizing off with
  | zero => simp [batch]
  | succ n ih =>
    by_cases hc : plan.chunk len off = 0
    · rw [batch_stop hc, batch_stop hc, nil_append, total_nil, Nat.add_zero, batch_stop hc]
    · rw [Nat.add_right_comm, batch_succ hc, batch_succ hc, ih, total_cons, ← Nat.add_assoc]
      rfl

theorem batch_fuel (hn : len - off ≤ n) (hk : len - off ≤ k) :
    plan.batch len n off = plan.batch len k off := by
  induction n generalizing off k with
  | zero =>
    have hc : plan.chunk len off = 0 := Nat.le_zero.mp ((plan.chunk_le len off).trans hn)
    rw [batch_stop hc, batch_stop hc]
  | succ n ih =>
    by_cases hc : plan.chunk len off = 0
    · rw [batch_stop hc, batch_stop hc]
    · obtain ⟨k, rfl⟩ : ∃ j, k = j + 1 :=
        Nat.exists_eq_succ_of_ne_zero fun hk0 => hc (by
          have := plan.chunk_le len off
          omega)
      rw [batch_succ hc, batch_succ hc, ih (k := k) (by omega) (by omega)]

theorem length_batch_le : (plan.batch len n off).length ≤ n := by
  induction n generalizing off with
  | zero => exact le_rfl
  | succ n ih =>
    by_cases hc : plan.chunk len off = 0
    · rw [batch_stop hc]
      exact Nat.zero_le _
    · rw [batch_succ hc, length_cons]
      exact Nat.succ_le_succ ih

theorem total_batch_le (hle : off ≤ len) : off + total (plan.batch len n off) ≤ len := by
  induction n generalizing off with
  | zero => exact hle
  | succ n ih =>
    by_cases hc : plan.chunk len off = 0
    · rw [batch_stop hc]
      exact hle
    · have hchunk := plan.chunk_le len off
      have hnext : off + plan.chunk len off ≤ len := by omega
      rw [batch_succ hc, total_cons, ← Nat.add_assoc]
      exact ih hnext

theorem mem_batch (hf : f ∈ plan.batch len n off) :
    f.len ≠ 0 ∧ f.len = plan.chunk len f.off ∧
      (f.bulk = true ↔ plan.bulkThreshold ≤ len - f.off) := by
  induction n generalizing off with
  | zero => exact absurd hf not_mem_nil
  | succ n ih =>
    by_cases hc : plan.chunk len off = 0
    · rw [batch_stop hc] at hf
      exact absurd hf not_mem_nil
    · rw [batch_succ hc] at hf
      rcases mem_cons.mp hf with rfl | hf
      · exact ⟨hc, rfl, decide_eq_true_iff⟩
      · exact ih hf

end ReadPlan

theorem Ring.sendable_of_mem_batch {r : Ring} {len n off : ℕ} (hf : f ∈ r.plan.batch len n off) :
    r.Sendable f := by
  obtain ⟨hpos, hlen, -⟩ := mem_batch hf
  have hcap := r.geom.payloadCap_lt
  have hthreshold : Read.bulkThreshold = 65536 := rfl
  rcases Nat.eq_zero_or_pos r.arenaLen with harena | harena
  · -- without an arena the banks are the smallest there are
    have hbank : r.arena.bankSize = 4096 := by
      simp [Ring.arena, DataArena.new, harena]
    have hle : f.len ≤ r.geom.payloadCap - 8 := by
      rw [hlen]
      unfold chunk
      simp only [Ring.plan, Ring.bulkBankBytes, harena, if_true]
      split_ifs <;> exact min_le_right _ _
    refine ⟨Nat.pos_of_ne_zero hpos, by omega, ?_⟩
    unfold Ring.room
    split_ifs <;> omega
  · have hle : f.len ≤ 1024 * 1024 := by
      rw [hlen]
      unfold chunk
      simp only [Ring.plan, Ring.bulkBankBytes, harena.ne', harena, if_true, if_false]
      split_ifs <;> omega
    exact ⟨Nat.pos_of_ne_zero hpos, by omega, (r.room_le f).trans_lt (by omega)⟩

/-! ## The walk along the fragments -/

/-- How far a read gets when each fragment `f` brings `got f` bytes, and whether it ends at a
short one. -/
def walk (got : Fragment → ℕ) : List Fragment → ℕ × Bool
  | [] => (0, false)
  | f :: fs =>
    if got f < f.len then (got f, true) else (f.len + (walk got fs).1, (walk got fs).2)

theorem walk_of_full {got : Fragment → ℕ} {fs : List Fragment} (h : (walk got fs).2 = false) :
    (walk got fs).1 = total fs := by
  induction fs with
  | nil => rfl
  | cons f fs ih =>
    simp only [walk] at h ⊢
    split_ifs at h ⊢ with hshort
    rw [total_cons, ih h]

theorem walk_le_total (got : Fragment → ℕ) (fs : List Fragment) : (walk got fs).1 ≤ total fs := by
  induction fs with
  | nil => exact le_rfl
  | cons f fs ih =>
    rw [total_cons]
    simp only [walk]
    split_ifs with hshort
    · exact hshort.le.trans (Nat.le_add_right _ _)
    · exact Nat.add_le_add_left ih _

theorem walk_append {got : Fragment → ℕ} {fs gs : List Fragment} :
    (walk got (fs ++ gs)).1 =
      (walk got fs).1 + if (walk got fs).2 = true then 0 else (walk got gs).1 := by
  induction fs with
  | nil => simp [walk]
  | cons f fs ih =>
    by_cases hshort : got f < f.len
    · simp [walk, hshort]
    · simp only [cons_append, walk, if_neg hshort]
      rw [ih, Nat.add_assoc]

section Loop

variable {r : Ring} {d : Director} {p : Provider} {fh offset : UInt64} {m : SharedSeg}
  {len o : ℕ}

def got (r : Ring) (p : Provider) (offset : UInt64) (f : Fragment) : ℕ :=
  p.count (f.place offset) (r.room f)

/-- A read that has come as far as `o` is within the file, unless it has just begun. -/
def Within (p : Provider) (offset : UInt64) (o : ℕ) : Prop := o = 0 ∨ offset.toNat + o ≤ p.size

theorem Fragment.place_eq {size : ℕ} (hsize : size < 2 ^ 64)
    (h : f.off = 0 ∨ offset.toNat + f.off ≤ size) : f.place offset = offset.toNat + f.off := by
  have hoffset := offset.toNat_lt
  have hlt : offset.toNat + f.off < 2 ^ 64 := by omega
  have ho : f.off < 2 ^ 64 := by omega
  rw [Fragment.place, UInt64.toNat_add, UInt64.toNat_ofNat_of_lt' ho, Nat.mod_eq_of_lt hlt]

theorem Within.place (h : Within p offset o) (hf : f.off = o) :
    f.place offset = offset.toNat + o := hf ▸ Fragment.place_eq p.size_lt (hf ▸ h)

theorem Within.next (h : Within p offset o) (hf : f.off = o) (hpos : 0 < f.len)
    (hfull : ¬ got r p offset f < f.len) : Within p offset (o + f.len) := by
  have hle := p.count_le (f.place offset) (r.room f)
  rw [got, h.place hf] at hfull
  rw [h.place hf] at hle
  right
  omega

variable {frags : List Fragment}

theorem collect_eq {responses : List Response}
    (hall : List.Forall₂ (fun resp f => resp.status = stOk ∧
      takeReply m resp.payload f.len = .ok (f.given r p offset)) responses frags)
    (hfrags : Contiguous o frags) (hwithin : Within p offset o) :
    collect m (responses.zip frags) (window p.content offset.toNat o) =
      .ok (window p.content offset.toNat (o + (walk (got r p offset) frags).1),
        (walk (got r p offset) frags).2) := by
  induction hall generalizing o with
  | nil => rfl
  | @cons resp f responses frags hresp hall ih =>
    obtain ⟨hoff, hpos, hnext⟩ := hfrags
    have hgiven : f.given r p offset = window p.content (offset.toNat + o) (got r p offset f) := by
      rw [Fragment.given, got, hwithin.place hoff]
    simp only [zip_cons_cons, collect, hresp.1, ne_eq, not_true, if_false, hresp.2, hgiven,
      Window.length_window, Window.window_append, walk]
    split_ifs with hshort
    · rfl
    · have hlen : got r p offset f = f.len := by
        have hle : got r p offset f ≤ f.len :=
          ((p.count_le _ _).trans (min_le_left _ _)).trans (r.room_le f)
        omega
      rw [hlen, ih hnext (hwithin.next hoff hpos hshort), Nat.add_assoc]

theorem within_walk (hfrags : Contiguous o frags) (hwithin : Within p offset o)
    (hfull : (walk (got r p offset) frags).2 = false) : Within p offset (o + total frags) := by
  induction frags generalizing o with
  | nil => exact hwithin
  | cons f frags ih =>
    obtain ⟨hoff, hpos, hnext⟩ := hfrags
    simp only [walk] at hfull
    split_ifs at hfull with hshort
    rw [total_cons, ← Nat.add_assoc]
    exact ih hnext (hwithin.next hoff hpos hshort) hfull

theorem Ring.wanted_le (r : Ring) (len rem : ℕ) :
    max 1 (r.plan.wanted r.geom.slotCount len rem) ≤ r.geom.slotCount := by
  have hslots := r.slotCount_pos
  have hle : r.plan.wanted r.geom.slotCount len rem ≤ r.plan.inFlight r.geom.slotCount len :=
    min_le_right _ _
  have hflight : r.plan.inFlight r.geom.slotCount len ≤ r.geom.slotCount := by
    simp only [inFlight]
    omega
  omega

/-- A read walks along all its fragments, however they are batched, and ends at the first one
that comes back short. -/
theorem readLoop_eq (env : ℕ → Schedule r.geom.slotCount) (hopen : d.opens fh = some ⟨p, false⟩)
    (hcap : 24 ≤ r.geom.payloadCap) {fuel b : ℕ} (hfit : r.Fits m) (ho : o ≤ len)
    (hfuel : len - o ≤ fuel) (hwithin : Within p offset o) :
    readLoop r d env fh offset len fuel b m (window p.content offset.toNat o) =
      .ok (window p.content offset.toNat
        (o + (walk (got r p offset) (r.plan.batch len len o)).1)) := by
  induction fuel generalizing b m o with
  | zero =>
    obtain rfl : o = len := by omega
    rw [batch_stop chunk_at_end]
    rfl
  | succ fuel ih =>
    obtain ⟨n, hn⟩ : ∃ n, min (1 + (env b).extra)
        (max 1 (r.plan.wanted r.geom.slotCount len (len - o))) = n + 1 :=
      Nat.exists_eq_succ_of_ne_zero (by omega)
    have hcount : n + 1 ≤ r.geom.slotCount :=
      hn ▸ (min_le_right _ _).trans (r.wanted_le len (len - o))
    simp only [readLoop, Window.length_window, hn]
    split_ifs with hlt hnil
    · rw [batch_stop (chunk_of_batch_nil hnil)]
      rfl
    · have ht : r.Takes (r.plan.batch len (n + 1) o) :=
        ⟨hcap, fun f hf => Ring.sendable_of_mem_batch hf, length_batch_le.trans hcount⟩
      have hfrags : Contiguous o (r.plan.batch len (n + 1) o) := batch_contiguous
      have hle : o + total (r.plan.batch len (n + 1) o) ≤ len := total_batch_le ho
      have hsplit : r.plan.batch len len o = r.plan.batch len (n + 1) o ++
          r.plan.batch len len (o + total (r.plan.batch len (n + 1) o)) := by
        rw [batch_fuel (k := n + 1 + len) (by omega) (by omega), batch_append]
      have hpos : 0 < total (r.plan.batch len (n + 1) o) := by
        obtain ⟨f, fs, hcons⟩ := exists_cons_of_ne_nil hnil
        rw [hcons] at hfrags ⊢
        rw [total_cons]
        exact Nat.add_pos_left hfrags.2.1 _
      obtain ⟨m', responses, hsub, hfit', hall⟩ :=
        submitManyHeld_eq (env b) offset hopen ht hfit
      rw [hsplit, walk_append]
      simp only [hsub, collect_eq hall hfrags hwithin, Window.length_window]
      cases hshort : (walk (got r p offset) (r.plan.batch len (n + 1) o)).2 with
      | true => simp
      | false =>
        have hfull := walk_of_full hshort
        have hnext := ih (b := b + 1) hfit' hle (by omega) (within_walk hfrags hwithin hshort)
        rw [hfull, if_neg (by simp; omega), hnext]
        simp [Nat.add_assoc]
    · obtain rfl : o = len := by omega
      rw [batch_stop chunk_at_end]
      rfl

theorem readFragmented_nil (env : ℕ → Schedule r.geom.slotCount)
    (hnil : r.plan.batch len len 0 = []) : readFragmented r d env m fh offset len = .ok [] := by
  cases len with
  | zero => rfl
  | succ len =>
    have hc := chunk_of_batch_nil hnil
    simp [readFragmented, readLoop, batch_stop hc]

theorem readFragmented_error (env : ℕ → Schedule r.geom.slotCount)
    (hsome : r.plan.batch len len 0 ≠ []) (hcap : r.geom.payloadCap < 24) :
    readFragmented r d env m fh offset len = .error stIoError := by
  cases len with
  | zero => exact absurd rfl hsome
  | succ len =>
    have hc : r.plan.chunk (len + 1) 0 ≠ 0 := fun hc => hsome (batch_stop hc)
    obtain ⟨n, hn⟩ : ∃ n, min (1 + (env 0).extra)
        (max 1 (r.plan.wanted r.geom.slotCount (len + 1) (len + 1))) = n + 1 :=
      Nat.exists_eq_succ_of_ne_zero (by omega)
    have hnone : submitManyHeld r d (env 0) ((r.plan.batch (len + 1) (n + 1) 0).map
        fun f => f.request fh offset) m = none := by
      rw [batch_succ hc]
      simp [submitManyHeld, Fragment.request, length_encodeReadReq, hcap]
    have hcons : r.plan.batch (len + 1) (n + 1) 0 ≠ [] := by
      rw [batch_succ hc]
      exact cons_ne_nil _ _
    simp [readFragmented, readLoop, hn, hcons, hnone]

theorem Contiguous.le_off (h : Contiguous o frags) (hf : f ∈ frags) : o ≤ f.off := by
  induction frags generalizing o with
  | nil => exact absurd hf not_mem_nil
  | cons g frags ih =>
    rcases mem_cons.mp hf with rfl | hf
    · exact h.1.ge
    · exact (Nat.le_add_right _ _).trans (ih h.2.2 hf)

/-- The walk reaches the end of the fragments, or of the file, exactly if every fragment that
starts before the end of the file comes back up to its own end or the file's. -/
theorem walk_eq_iff (hfrags : Contiguous o frags) (hwithin : Within p offset o) :
    (walk (got r p offset) frags).1 = min (total frags) (p.size - (offset.toNat + o)) ↔
      ∀ f ∈ frags, offset.toNat + f.off < p.size → p.count (offset.toNat + f.off) (r.room f) =
        min f.len (p.size - (offset.toNat + f.off)) := by
  induction frags generalizing o with
  | nil => simp [walk]
  | cons f frags ih =>
    obtain ⟨hoff, hpos, hnext⟩ := hfrags
    have hgot : got r p offset f = p.count (offset.toNat + f.off) (r.room f) := by
      rw [got, hwithin.place hoff, hoff]
    have hle := p.count_le (offset.toNat + f.off) (r.room f)
    have hroom := r.room_le f
    rw [forall_mem_cons, ← hgot, total_cons]
    rw [← hgot] at hle
    by_cases hshort : got r p offset f < f.len
    · -- a short fragment ends the walk: right only at the end of the file
      simp only [walk, if_pos hshort]
      constructor
      · intro heq
        refine ⟨fun _ => by omega, fun g hg hlt => ?_⟩
        have := hnext.le_off hg
        omega
      · rintro ⟨hf, -⟩
        by_cases hlt : offset.toNat + f.off < p.size
        · have := hf hlt
          omega
        · omega
    · have hih := ih hnext (hwithin.next hoff hpos hshort)
      simp only [walk, if_neg hshort]
      constructor
      · intro heq
        refine ⟨fun _ => by omega, hih.mp ?_⟩
        omega
      · rintro ⟨-, hfs⟩
        have := hih.mpr hfs
        omega

end Loop

/-! ## Complete reads -/

/-- The read needs no second try: its requests fit their slots, its fragments reach as far as it
should, and a reply has room for, and the provider fills at once, every fragment that starts
before the end of the file, up to the fragment's end or the file's. -/
structure Ring.Whole (r : Ring) (p : Provider) (offset : UInt64) (len : ℕ) : Prop where
  payload : r.plan.batch len len 0 ≠ [] → 24 ≤ r.geom.payloadCap
  reaches : min len (p.size - offset.toNat) ≤ total (r.plan.batch len len 0)
  filled : ∀ f ∈ r.plan.batch len len 0, offset.toNat + f.off < p.size →
    p.count (offset.toNat + f.off) (r.room f) = min f.len (p.size - (offset.toNat + f.off))

theorem window_eq_iff {f : ℕ → UInt8} (off n k : ℕ) :
    (.ok (window f off n) : Except Int32 (List UInt8)) = .ok (window f off k) ↔ n = k := by
  refine ⟨fun h => ?_, fun h => h ▸ rfl⟩
  simpa using congrArg length (Except.ok.inj h)

/-- For every provider, ring, mapping, schedule, offset and length: a read returns all the bytes
of the file in its range, and no others, exactly when the read needs no second try. -/
theorem readFragmented_complete_iff (r : Ring) (d : Director) (p : Provider) (fh : UInt64)
    (hopen : d.opens fh = some ⟨p, false⟩) (m : SharedSeg) (hfit : r.Fits m)
    (env : ℕ → Schedule r.geom.slotCount) (offset : UInt64) (len : ℕ) :
    readFragmented r d env m fh offset len =
        .ok (window p.content offset.toNat (min len (p.size - offset.toNat))) ↔
      r.Whole p offset len := by
  by_cases hnil : r.plan.batch len len 0 = []
  · rw [readFragmented_nil env hnil]
    refine (window_eq_iff offset.toNat 0 _).trans ⟨fun h => ?_, fun h => ?_⟩
    · exact ⟨fun hne => absurd hnil hne, h ▸ Nat.zero_le _, by simp [hnil]⟩
    · have hreach := h.reaches
      rw [hnil, total_nil] at hreach
      omega
  by_cases hcap : 24 ≤ r.geom.payloadCap
  · have hwithin : Within p offset 0 := .inl rfl
    have hloop : readFragmented r d env m fh offset len = _ :=
      readLoop_eq env hopen hcap hfit (Nat.zero_le len) (Nat.sub_le len 0) hwithin
    have hle : 0 + total (r.plan.batch len len 0) ≤ len :=
      total_batch_le (Nat.zero_le len)
    have hfrags : Contiguous 0 (r.plan.batch len len 0) := batch_contiguous
    have hbound := walk_le_total (got r p offset) (r.plan.batch len len 0)
    have hwalk := walk_eq_iff (r := r) hfrags hwithin
    rw [hloop, window_eq_iff]
    constructor
    · intro heq
      refine ⟨fun _ => hcap, by omega, hwalk.mp ?_⟩
      omega
    · intro h
      have hreach := h.reaches
      have hfar := hwalk.mpr h.filled
      omega
  · rw [readFragmented_error env hnil (not_le.mp hcap)]
    refine ⟨fun h => ?_, fun h => absurd (h.payload hnil) hcap⟩
    cases h

/-! ## The rings a director creates -/

section Created

variable {payloadCap : ℕ} {hcap : payloadCap < 2 ^ 32}

theorem Ring.created_fits (hm : m.len = (Ring.created payloadCap hcap).mapSize) :
    (Ring.created payloadCap hcap).Fits m := by
  rw [Ring.Fits, hm]
  have hbanks : max 32 1 * max (32 * 1024 * 1024 / max 32 1) 4096 = 32 * 1024 * 1024 := rfl
  simp only [Ring.created, Ring.arena, DataArena.new, Ring.mapSize, hbanks]
  omega

end Created

/-! ## One read in full, and one cut short -/

/-- Requests are served in order, each in the slot of its own number. -/
def inOrder (slotCount : ℕ) : Schedule slotCount where
  extra := 0
  slots := id
  turns := fun n => (List.range n).map .serve
  slots_lt := fun _ hk => hk
  slots_inj := fun _ _ _ _ h => h
  turns_once := fun n => by simp [List.filterMap_map, Function.comp_def, Turn.served]

/-- A file of `size` bytes that counts up, from which one read gets at most `most` bytes. -/
def countingFile (size most : ℕ) (hsize : size < 2 ^ 64) (hmost : 0 < most) : Provider where
  size := size
  content := fun i => UInt8.ofNat i
  count := fun off len => min most (min len (size - off))
  size_lt := hsize
  count_le := fun _ _ => min_le_right _ _
  count_pos := fun _ _ _ _ => by omega

def zeroSeg (len : ℕ) (h : len < 2 ^ 64) : SharedSeg := ⟨len, fun _ => 0, h⟩

def defaultRing : Ring := Ring.created (1024 * 1024) (by norm_num)

def defaultSeg : SharedSeg := zeroSeg defaultRing.mapSize (by decide)

def sixBytes : Provider := countingFile 6 6 (by norm_num) (by norm_num)

theorem readFragmented_complete_iff_counting :
    readFragmented defaultRing ⟨fun _ => some ⟨sixBytes, false⟩⟩
        (fun _ => inOrder 32) defaultSeg 7 2 100 = .ok [2, 3, 4, 5] ∧
      defaultRing.Whole sixBytes 2 100 := by
  have hrun : readFragmented defaultRing ⟨fun _ => some ⟨sixBytes, false⟩⟩
      (fun _ => inOrder 32) defaultSeg 7 2 100 = .ok [2, 3, 4, 5] := by
    rfl
  exact ⟨hrun, (readFragmented_complete_iff _ _ _ 7 rfl _ (Ring.created_fits rfl) _ 2 100).mp hrun⟩

def twoBytes : Provider := countingFile 2 1 (by norm_num) (by norm_num)

/-- The provider gives the bytes of a two-byte file one at a time, and the client takes the
first for the whole file. -/
theorem readFragmented_cut_short :
    readFragmented defaultRing ⟨fun _ => some ⟨twoBytes, false⟩⟩
        (fun _ => inOrder 32) defaultSeg 7 0 2 = .ok [0] ∧
      window twoBytes.content 0 (min 2 (2 - 0)) = [0, 1] :=
  ⟨rfl, rfl⟩

end AetherVfs.Read
