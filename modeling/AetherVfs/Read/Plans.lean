import AetherVfs.Read.Completeness

/-!
# Reads under any plan

`read_fragmented` for any `ReadPlan`, with the gate and the ring behind
parameters: how many permits a batch gets, if it gets one in time, and what the
batch is answered with, if it is. A director that answers every request with
the bytes of one file that it asks for makes the read seamless, whatever the
batches are, as long as the wire's 32-bit fields can say what is asked and
answered.
-/

namespace AetherVfs.Read

open Fragment

open Ipc (Request Response)
open Protocol
open Window (window)

/-- What a batch of requests is answered with, and the mapping the answers are copied from. -/
abbrev Submit := ℕ → SharedSeg → List Request → Option (SharedSeg × List Response)

/-- The outer loop of `read_fragmented` from batch `b` on: `gate b` is the number of permits
beyond the first that the gate has for it, or `none` when the deadline passes first. -/
def readWith (plan : ReadPlan) (slotCount : ℕ) (gate : ℕ → Option ℕ) (submit : Submit)
    (fh offset : UInt64) (len : ℕ) : ℕ → ℕ → SharedSeg → List UInt8 → Except Int32 (List UInt8)
  | 0, _, _, buf => .ok buf
  | fuel + 1, b, m, buf =>
    if buf.length < len then
      match gate b with
      | none => .error stIoError
      | some extra =>
        let permits := min (1 + extra) (max 1 (plan.wanted slotCount len (len - buf.length)))
        let frags := plan.batch len permits buf.length
        if frags = [] then .ok buf
        else
          match submit b m (frags.map fun f => f.request fh offset) with
          | none => .error stIoError
          | some (m', responses) =>
            match collect m' (responses.zip frags) buf with
            | .error st => .error st
            | .ok (buf', eof) =>
              if eof = true ∨ buf'.length = buf.length then .ok buf'
              else readWith plan slotCount gate submit fh offset len fuel (b + 1) m' buf'
    else .ok buf

/-! ## One reply -/

structure File where
  size : ℕ
  content : ℕ → UInt8
  size_lt : size < 2 ^ 64

def File.read (file : File) (off len : ℕ) : List UInt8 :=
  window file.content off (min len (file.size - off))

/-- The reply says that all is well and brings exactly the bytes asked for, inline or at a place
of the mapping. -/
def Exact (file : File) (m : SharedSeg) (req : Request) (resp : Response) : Prop :=
  ∀ rq, decodeReadReq req.payload = some rq → resp.status = stOk ∧
    (resp.payload = encodeReadResp (file.read rq.offset.toNat rq.len.toNat) ∨
      ∃ off < 2 ^ 64,
        m.copyTo off (file.read rq.offset.toNat rq.len.toNat).length =
            some (file.read rq.offset.toNat rq.len.toNat) ∧
          resp.payload = encodeReadRespBulk
            (UInt32.ofNat (file.read rq.offset.toNat rq.len.toNat).length) (UInt64.ofNat off))

/-- Every batch that is answered is answered exactly. -/
def ServesExactly (file : File) (submit : Submit) : Prop :=
  ∀ b m reqs m' responses, submit b m reqs = some (m', responses) →
    List.Forall₂ (Exact file m') reqs responses

/-- What the fragment at `f.off` of a read at `offset` has to bring. -/
def Fragment.due (f : Fragment) (file : File) (offset : ℕ) : ℕ :=
  min f.len (file.size - (offset + f.off))

/-- The wire can say what the fragment has to bring: the request's length field asks for it, and
the reply's has a bit to spare. -/
def Fragment.Sayable (f : Fragment) (file : File) (offset : ℕ) : Prop :=
  f.due file offset ≤ f.len % 2 ^ 32 ∧ f.due file offset < 2 ^ 31

theorem and_bulkBit_ne {x : UInt32} (h : 2 ^ 31 ≤ x.toNat) : x &&& readRespBulkBit ≠ 0 := by
  intro h0
  have hbit : (x &&& readRespBulkBit).toNat = x.toNat &&& 2 ^ 31 := UInt32.toNat_and x _
  rw [h0] at hbit
  have htest : (x.toNat &&& 2 ^ 31).testBit 31 = true := by
    rw [Nat.testBit_and, Nat.testBit_two_pow_self, Bool.and_true]
    exact Nat.testBit_of_two_pow_le_and_two_pow_add_one_gt h x.toNat_lt
  rw [← hbit] at htest
  simp at htest

theorem clear_bulkBit_lt (x : UInt32) : (x &&& ~~~readRespBulkBit).toNat < 2 ^ 31 := by
  rw [UInt32.toNat_and]
  exact Nat.lt_of_le_of_lt Nat.and_le_right (by decide)

theorem decodeReadBulkResp_lt {p : List UInt8} {n : UInt32} {off : UInt64}
    (h : decodeReadBulkResp p = some (n, off)) : n.toNat < 2 ^ 31 := by
  simp only [decodeReadBulkResp, Option.bind_eq_bind, Option.bind_eq_some_iff] at h
  obtain ⟨⟨raw, p⟩, -, h⟩ := h
  split_ifs at h
  simp only [Option.bind_eq_some_iff] at h
  obtain ⟨⟨_, p⟩, -, ⟨_, p⟩, -, h⟩ := h
  obtain ⟨rfl, -⟩ : raw &&& ~~~readRespBulkBit = n ∧ _ := by simpa using h
  exact clear_bulkBit_lt raw

variable {data : List UInt8}

theorem length_takeReply_bulk {m : SharedSeg} {p : List UInt8} {want : ℕ}
    (hbulk : isReadRespBulk p = true) (h : takeReply m p want = .ok data) :
    data.length < 2 ^ 31 := by
  simp only [takeReply, hbulk, if_true] at h
  cases hdec : decodeReadBulkResp p with
  | none => simp [hdec] at h
  | some x =>
    obtain ⟨bn, aoff⟩ := x
    have hlt := decodeReadBulkResp_lt hdec
    simp only [hdec, SharedSeg.copyTo] at h
    split_ifs at h with hpos hin
    · cases h
      rw [Window.length_window]
      omega
    · cases h
      exact Nat.two_pow_pos 31

theorem isReadRespBulk_long (hle : 2 ^ 31 ≤ data.length) (hlt : data.length < 2 ^ 32) :
    isReadRespBulk (encodeReadResp data) = true := by
  have hval : (UInt32.ofNat data.length).toNat = data.length := UInt32.toNat_ofNat_of_lt' hlt
  have hbit := and_bulkBit_ne (x := UInt32.ofNat data.length) (by rwa [hval])
  simp [isReadRespBulk, encodeReadResp, hbit]

section Reply

variable {file : File} {m : SharedSeg} {fh offset : UInt64} {f : Fragment} {resp : Response}

theorem File.length_read (file : File) (off len : ℕ) :
    (file.read off len).length = min len (file.size - off) := Window.length_window _ _ _

/-- The bytes the director puts into its reply to a fragment. -/
def Fragment.answered (f : Fragment) (file : File) (offset : UInt64) : List UInt8 :=
  file.read (f.place offset) (f.len % 2 ^ 32)

section

variable (h : Exact file m (f.request fh offset) resp)

include h

theorem Exact.reply :
    resp.status = stOk ∧ (resp.payload = encodeReadResp (f.answered file offset) ∨
      ∃ off < 2 ^ 64,
        m.copyTo off (f.answered file offset).length = some (f.answered file offset) ∧
          resp.payload = encodeReadRespBulk (UInt32.ofNat (f.answered file offset).length)
            (UInt64.ofNat off)) := by
  have hreply := h _ (decodeReadReq_encodeReadReq _)
  have hlen : (UInt32.ofNat f.len).toNat = f.len % 2 ^ 32 := UInt32.toNat_ofNat'
  rw [hlen] at hreply
  exact hreply

theorem Exact.take_short
    (hlt : (f.answered file offset).length < 2 ^ 31) :
    takeReply m resp.payload f.len = .ok (f.answered file offset) := by
  have hle : (f.answered file offset).length ≤ f.len := by
    rw [answered, File.length_read]
    exact (min_le_left _ _).trans (Nat.mod_le _ _)
  rcases h.reply.2 with hp | ⟨off, hoff, hcopy, hp⟩
  · rw [hp]
    exact takeReply_inline hlt hle
  · unfold SharedSeg.copyTo at hcopy
    split_ifs at hcopy with hin
    rw [hp]
    exact takeReply_bulk hlt hle hoff (of_decide_eq_true hin) (Option.some.inj hcopy)

theorem Exact.take_long (hle : 2 ^ 31 ≤ (f.answered file offset).length)
    (hdata : takeReply m resp.payload f.len = .ok data) : data.length < 2 ^ 31 := by
  apply length_takeReply_bulk _ hdata
  rcases h.reply.2 with hp | ⟨off, -, -, hp⟩
  · rw [hp]
    apply isReadRespBulk_long hle
    rw [answered, File.length_read]
    exact (min_le_left _ _).trans_lt (Nat.mod_lt _ (Nat.two_pow_pos 32))
  · rw [hp]
    exact isReadRespBulk_bulk _ _

theorem Exact.take_sayable
    (hplace : f.place offset = offset.toNat + f.off) (hs : f.Sayable file offset.toNat) :
    takeReply m resp.payload f.len =
      .ok (window file.content (offset.toNat + f.off) (f.due file offset.toNat)) := by
  obtain ⟨hle, hlt⟩ := hs
  have hlen : min (f.len % 2 ^ 32) (file.size - (offset.toNat + f.off)) =
      f.due file offset.toNat := by
    have hmod := Nat.mod_le f.len (2 ^ 32)
    unfold due at hle ⊢
    omega
  have hanswered : f.answered file offset =
      window file.content (offset.toNat + f.off) (f.due file offset.toNat) := by
    rw [answered, File.read, hplace, hlen]
  rw [← hanswered]
  apply h.take_short
  rwa [hanswered, Window.length_window]

theorem Exact.take_unsayable (hplace : f.place offset = offset.toNat + f.off)
    (hs : ¬ f.Sayable file offset.toNat) (hdata : takeReply m resp.payload f.len = .ok data) :
    data.length < f.due file offset.toNat := by
  have hlen : (f.answered file offset).length =
      min (f.len % 2 ^ 32) (file.size - (offset.toNat + f.off)) := by
    rw [answered, File.length_read, hplace]
  have hmod := Nat.mod_le f.len (2 ^ 32)
  unfold Fragment.Sayable due at hs
  unfold due
  rcases Nat.lt_or_ge (f.answered file offset).length (2 ^ 31) with hlt | hge
  · rw [h.take_short hlt] at hdata
    cases hdata
    omega
  · have := h.take_long hge hdata
    omega

end

end Reply

/-! ## A batch -/

section Loop

variable {file : File} {m : SharedSeg} {fh offset : UInt64} {len o : ℕ}

/-- A read that has come as far as `o` is within the file, unless it has just begun. -/
def File.Reached (file : File) (offset : UInt64) (o : ℕ) : Prop :=
  o = 0 ∨ offset.toNat + o ≤ file.size

variable {f : Fragment} {frags : List Fragment}

theorem File.Reached.place (h : file.Reached offset o) (hf : f.off = o) :
    f.place offset = offset.toNat + f.off := place_eq file.size_lt (hf ▸ h)

/-- How a batch of fragments from `o` on ends. -/
inductive Collected (file : File) (offset : UInt64) (o : ℕ) (frags : List Fragment) :
    Except Int32 (List UInt8 × Bool) → Prop
  | full (hreached : file.Reached offset (o + total frags))
      (hsay : ∀ f ∈ frags, f.Sayable file offset.toNat) :
      Collected file offset o frags
        (.ok (window file.content offset.toNat (o + total frags), false))
  | eof (hshort : file.size - offset.toNat < o + total frags)
      (hsay : ∀ f ∈ frags, f.Sayable file offset.toNat) :
      Collected file offset o frags
        (.ok (window file.content offset.toNat (file.size - offset.toNat), true))
  | failed (st : Int32) (hsay : ∃ f ∈ frags, ¬ f.Sayable file offset.toNat) :
      Collected file offset o frags (.error st)
  | short (data : List UInt8) (hlen : data.length < min (o + total frags) (file.size - offset.toNat))
      (hsay : ∃ f ∈ frags, ¬ f.Sayable file offset.toNat) :
      Collected file offset o frags (.ok (data, true))

theorem Collected.cons {res : Except Int32 (List UInt8 × Bool)}
    (h : Collected file offset (o + f.len) frags res) (hs : f.Sayable file offset.toNat) :
    Collected file offset o (f :: frags) res := by
  have htotal : o + total (f :: frags) = o + f.len + total frags := by
    rw [total_cons, Nat.add_assoc]
  have hall : (∀ g ∈ frags, g.Sayable file offset.toNat) →
      ∀ g ∈ f :: frags, g.Sayable file offset.toNat := fun h => List.forall_mem_cons.mpr ⟨hs, h⟩
  have hsome : (∃ g ∈ frags, ¬ g.Sayable file offset.toNat) →
      ∃ g ∈ f :: frags, ¬ g.Sayable file offset.toNat :=
    fun ⟨g, hg, h⟩ => ⟨g, List.mem_cons_of_mem _ hg, h⟩
  cases h with
  | full hreached hsay =>
    rw [← htotal] at hreached ⊢
    exact .full hreached (hall hsay)
  | eof hshort hsay => exact .eof (htotal ▸ hshort) (hall hsay)
  | failed st hsay => exact .failed st (hsome hsay)
  | short data hlen hsay => exact .short data (htotal ▸ hlen) (hsome hsay)

theorem Fragment.sayable_of_le {at' : ℕ} (h : file.size ≤ at' + f.off) : f.Sayable file at' := by
  have hdue : f.due file at' = 0 := by
    unfold due
    omega
  unfold Fragment.Sayable
  rw [hdue]
  exact ⟨Nat.zero_le _, Nat.two_pow_pos 31⟩

theorem collect_collected {responses : List Response}
    (hall : List.Forall₂ (fun f resp => Exact file m (f.request fh offset) resp) frags responses)
    (hfrags : Contiguous o frags) (hreached : file.Reached offset o) :
    Collected file offset o frags
      (collect m (responses.zip frags) (window file.content offset.toNat o)) := by
  induction hall generalizing o with
  | nil => exact .full hreached (by simp)
  | @cons f resp frags responses hresp hall ih =>
    obtain ⟨hoff, hpos, hnext⟩ := hfrags
    have hplace := hreached.place hoff
    simp only [List.zip_cons_cons, collect, hresp.reply.1, ne_eq, not_true, if_false]
    by_cases hs : f.Sayable file offset.toNat
    · rw [hresp.take_sayable hplace hs, hoff]
      simp only [Window.length_window, Window.window_append]
      split_ifs with hshort
      · -- short only at the end of the file, and nothing is due after it
        have hend : o + f.due file offset.toNat = file.size - offset.toNat := by
          unfold due at hshort ⊢
          rcases hreached with rfl | hle <;> omega
        rw [hend]
        apply Collected.eof
        · rw [total_cons]
          omega
        · intro g hg
          rcases List.mem_cons.mp hg with rfl | hg
          · exact hs
          · have hle := hnext.le_off hg
            exact sayable_of_le (by omega)
      · have hdue : f.due file offset.toNat = f.len := by
          unfold due at hshort ⊢
          omega
        have hstill : file.Reached offset (o + f.len) := by
          unfold due at hdue
          right
          omega
        rw [hdue]
        exact (ih hnext hstill).cons hs
    · have hbad : ∃ g ∈ f :: frags, ¬ g.Sayable file offset.toNat :=
        ⟨f, List.mem_cons_self, hs⟩
      cases htake : takeReply m resp.payload f.len with
      | error st => exact .failed st hbad
      | ok data =>
        have hlt := hresp.take_unsayable hplace hs htake
        unfold due at hlt
        have hshort : data.length < f.len := by omega
        simp only [if_pos hshort]
        apply Collected.short _ _ hbad
        rw [List.length_append, Window.length_window, total_cons]
        omega

/-! ## The whole read -/

/-- The fragments from `o` on reach as far as the read should, and the wire can say what each of
them has to bring. -/
structure ReadPlan.Reaches (plan : ReadPlan) (file : File) (offset : UInt64) (len o : ℕ) : Prop where
  total : min len (file.size - offset.toNat) ≤ o + total (plan.batch len len o)
  sayable : ∀ f ∈ plan.batch len len o, f.Sayable file offset.toNat

/-- The gate has no permit in time for some batch, or some batch is not answered. -/
def Fails (gate : ℕ → Option ℕ) (submit : Submit) : Prop :=
  (∃ b, gate b = none) ∨ ∃ b m reqs, submit b m reqs = none

variable {plan : ReadPlan}

theorem Contiguous.total_pos (h : Contiguous o frags) (hne : frags ≠ []) :
    0 < Read.total frags := by
  cases frags with
  | nil => exact absurd rfl hne
  | cons f frags =>
    rw [total_cons]
    exact Nat.add_pos_left h.2.1 _

theorem total_append (fs gs : List Fragment) :
    Read.total (fs ++ gs) = Read.total fs + Read.total gs := by
  simp [Read.total]

theorem ReadPlan.batch_split (plan : ReadPlan) (len o n : ℕ) :
    plan.batch len len o = plan.batch len n o ++
      plan.batch len len (o + Read.total (plan.batch len n o)) := by
  rw [ReadPlan.batch_fuel (k := n + len) (by omega) (by omega), ReadPlan.batch_append]

namespace ReadPlan.Reaches

theorem after_iff {n : ℕ} (hsay : ∀ f ∈ plan.batch len n o, f.Sayable file offset.toNat) :
    plan.Reaches file offset len (o + Read.total (plan.batch len n o)) ↔
      plan.Reaches file offset len o := by
  have hsplit := plan.batch_split len o n
  have htotal := congrArg Read.total hsplit
  rw [total_append] at htotal
  constructor
  · intro h
    refine ⟨by rw [htotal, ← Nat.add_assoc]; exact h.total, ?_⟩
    rw [hsplit]
    exact List.forall_mem_append.mpr ⟨hsay, h.sayable⟩
  · intro h
    refine ⟨by rw [Nat.add_assoc, ← htotal]; exact h.total, ?_⟩
    have hall := h.sayable
    rw [hsplit] at hall
    exact (List.forall_mem_append.mp hall).2

theorem of_eof {n : ℕ} (hsay : ∀ f ∈ plan.batch len n o, f.Sayable file offset.toNat)
    (hshort : file.size - offset.toNat < o + Read.total (plan.batch len n o)) :
    plan.Reaches file offset len o := by
  rw [← after_iff hsay]
  refine ⟨by omega, fun f hf => sayable_of_le ?_⟩
  have hle := ReadPlan.batch_contiguous.le_off hf
  omega

theorem not_of_mem {n : ℕ} (hsay : ∃ f ∈ plan.batch len n o, ¬ f.Sayable file offset.toNat) :
    ¬ plan.Reaches file offset len o := by
  obtain ⟨f, hf, hnot⟩ := hsay
  intro h
  apply hnot (h.sayable f _)
  rw [plan.batch_split len o n]
  exact List.mem_append_left _ hf

end ReadPlan.Reaches

/-- What a read comes to, with `o` bytes of it done. -/
inductive Outcome (plan : ReadPlan) (file : File) (offset : UInt64) (len o : ℕ)
    (fails : Prop) : Except Int32 (List UInt8) → Prop
  | failed (h : fails) : Outcome plan file offset len o fails (.error stIoError)
  | exact (h : plan.Reaches file offset len o) :
      Outcome plan file offset len o fails (.ok (file.read offset.toNat len))
  | wrong {res : Except Int32 (List UInt8)} (h : ¬ plan.Reaches file offset len o)
      (hshort : ∀ data, res = .ok data → data.length < min len (file.size - offset.toNat)) :
      Outcome plan file offset len o fails res

theorem Outcome.congr {fails : Prop} {o' : ℕ} {res : Except Int32 (List UInt8)}
    (h : Outcome plan file offset len o' fails res)
    (hiff : plan.Reaches file offset len o' ↔ plan.Reaches file offset len o) :
    Outcome plan file offset len o fails res := by
  cases h with
  | failed h => exact .failed h
  | exact h => exact .exact (hiff.mp h)
  | wrong h hshort => exact .wrong (fun hr => h (hiff.mpr hr)) hshort

theorem Outcome.stop {fails : Prop} (ho : o ≤ len) (hreached : file.Reached offset o)
    (hnil : plan.batch len len o = []) :
    Outcome plan file offset len o fails (.ok (window file.content offset.toNat o)) := by
  by_cases hle : min len (file.size - offset.toNat) ≤ o
  · have heq : o = min len (file.size - offset.toNat) := by
      rcases hreached with rfl | hle' <;> omega
    have hreaches : plan.Reaches file offset len o := by
      constructor
      · exact hle.trans (Nat.le_add_right _ _)
      · simp [hnil]
    rw [show window file.content offset.toNat o = file.read offset.toNat len by
      rw [File.read, ← heq]]
    exact .exact hreaches
  · refine .wrong (fun h => hle ?_) fun data hdata => ?_
    · simpa [hnil] using h.total
    · cases hdata
      rw [Window.length_window]
      omega

theorem readWith_outcome {gate : ℕ → Option ℕ} {submit : Submit} (slotCount : ℕ)
    (hexact : ServesExactly file submit) {fuel b : ℕ} {m : SharedSeg} (ho : o ≤ len)
    (hfuel : len - o ≤ fuel) (hreached : file.Reached offset o) :
    Outcome plan file offset len o (Fails gate submit)
      (readWith plan slotCount gate submit fh offset len fuel b m
        (window file.content offset.toNat o)) := by
  induction fuel generalizing b m o with
  | zero =>
    obtain rfl : o = len := by omega
    exact .stop ho hreached (ReadPlan.batch_stop ReadPlan.chunk_at_end)
  | succ fuel ih =>
    simp only [readWith, Window.length_window]
    split_ifs with hlt
    swap
    · obtain rfl : o = len := by omega
      exact .stop ho hreached (ReadPlan.batch_stop ReadPlan.chunk_at_end)
    cases hgate : gate b with
    | none => exact .failed (.inl ⟨b, hgate⟩)
    | some extra =>
      obtain ⟨n, hn⟩ : ∃ n, min (1 + extra) (max 1 (plan.wanted slotCount len (len - o))) =
          n + 1 := Nat.exists_eq_succ_of_ne_zero (by omega)
      simp only [hn]
      split_ifs with hnil
      · exact .stop ho hreached (ReadPlan.batch_stop (ReadPlan.chunk_of_batch_nil hnil))
      cases hsub : submit b m ((plan.batch len (n + 1) o).map fun f => f.request fh offset) with
      | none => exact .failed (.inr ⟨b, m, _, hsub⟩)
      | some x =>
        obtain ⟨m', responses⟩ := x
        have hall := List.forall₂_map_left_iff.mp (hexact _ _ _ _ _ hsub)
        have hfrags : Contiguous o (plan.batch len (n + 1) o) := ReadPlan.batch_contiguous
        have hcol := collect_collected hall hfrags hreached
        have hle : o + Read.total (plan.batch len (n + 1) o) ≤ len :=
          ReadPlan.total_batch_le ho
        have hpos := hfrags.total_pos hnil
        simp only
        generalize collect m' (responses.zip (plan.batch len (n + 1) o))
          (window file.content offset.toNat o) = res at hcol ⊢
        cases hcol with
        | full hreached' hsay =>
          have hmore : ¬ (false = true ∨ (window file.content offset.toNat
              (o + Read.total (plan.batch len (n + 1) o))).length = o) := by
            rw [Window.length_window]
            simp
            omega
          simp only [if_neg hmore]
          exact (ih hle (by omega) hreached').congr (ReadPlan.Reaches.after_iff hsay)
        | eof hshort hsay =>
          have hread : file.read offset.toNat len =
              window file.content offset.toNat (file.size - offset.toNat) := by
            rw [File.read, min_eq_right (by omega)]
          simp only [true_or, if_true]
          rw [← hread]
          exact .exact (ReadPlan.Reaches.of_eof hsay hshort)
        | failed st hsay => exact .wrong (ReadPlan.Reaches.not_of_mem hsay) (by simp)
        | short data hlen hsay =>
          simp only [true_or, if_true]
          refine .wrong (ReadPlan.Reaches.not_of_mem hsay) fun data' hdata => ?_
          cases hdata
          omega

end Loop

/-- **Seamless reads.** For every plan, offset, length and file, whatever permits the gate has and
however the ring batches: a read whose plan reaches returns exactly the bytes of the file in its
range, or fails because a permit or an answer did not come; and if none of those fails, it returns
exactly these bytes when, and only when, its plan reaches. -/
theorem readWith_seamless (plan : ReadPlan) (slotCount : ℕ) (gate : ℕ → Option ℕ)
    (submit : Submit) (file : File) (hexact : ServesExactly file submit) (fh offset : UInt64)
    (len : ℕ) (m : SharedSeg) :
    (plan.Reaches file offset len 0 →
      readWith plan slotCount gate submit fh offset len len 0 m [] =
          .ok (window file.content offset.toNat (min len (file.size - offset.toNat))) ∨
        Fails gate submit ∧
          readWith plan slotCount gate submit fh offset len len 0 m [] = .error stIoError) ∧
    (¬ Fails gate submit →
      (readWith plan slotCount gate submit fh offset len len 0 m [] =
          .ok (window file.content offset.toNat (min len (file.size - offset.toNat))) ↔
        plan.Reaches file offset len 0)) := by
  have hres : Outcome plan file offset len 0 (Fails gate submit)
      (readWith plan slotCount gate submit fh offset len len 0 m []) :=
    readWith_outcome slotCount hexact (Nat.zero_le len) (Nat.sub_le len 0) (.inl rfl)
  generalize readWith plan slotCount gate submit fh offset len len 0 m [] = res at hres ⊢
  cases hres with
  | failed h => exact ⟨fun _ => .inr ⟨h, rfl⟩, fun hnot => absurd h hnot⟩
  | exact h => exact ⟨fun _ => .inl rfl, fun _ => ⟨fun _ => h, fun _ => rfl⟩⟩
  | wrong h hshort =>
    refine ⟨fun hr => absurd hr h, fun _ => ⟨fun heq => ?_, fun hr => absurd hr h⟩⟩
    have hlt := hshort _ heq
    rw [Window.length_window] at hlt
    exact absurd hlt (lt_irrefl _)

/-! ## A director that answers inline -/

def answerInline (file : File) (req : Request) : Response :=
  match decodeReadReq req.payload with
  | none => ⟨stBadRequest, []⟩
  | some rq => ⟨stOk, encodeReadResp (file.read rq.offset.toNat rq.len.toNat)⟩

def submitInline (file : File) : Submit := fun _ m reqs => some (m, reqs.map (answerInline file))

theorem submitInline_exact (file : File) : ServesExactly file (submitInline file) := by
  intro b m reqs m' responses h
  obtain ⟨rfl, rfl⟩ := Prod.mk.inj (Option.some.inj h)
  rw [List.forall₂_map_right_iff]
  apply List.forall₂_same.mpr
  intro req _ rq hrq
  simp [answerInline, hrq]

theorem not_fails_submitInline (extra : ℕ → ℕ) (file : File) :
    ¬ Fails (fun b => some (extra b)) (submitInline file) := by
  rintro (⟨b, hb⟩ | ⟨b, m, reqs, h⟩)
  · cases hb
  · cases h

def threeBytes : File := ⟨3, fun i => UInt8.ofNat (i + 7), by norm_num⟩

def twoAtOnce : ReadPlan := ⟨usizeMax, 0, 2, 4, 8, 4 * 1024 * 1024⟩

theorem fits_64 : 64 < 2 ^ 64 := by norm_num

theorem readWith_seamless_threeBytes :
    readWith twoAtOnce 4 (fun _ => some 0) (submitInline threeBytes) 5 0 9 9 0
        (zeroSeg 64 fits_64) [] = .ok [7, 8, 9] ∧
      twoAtOnce.Reaches threeBytes 0 9 0 := by
  have hrun : readWith twoAtOnce 4 (fun _ => some 0) (submitInline threeBytes) 5 0 9 9 0
      (zeroSeg 64 fits_64) [] = .ok [7, 8, 9] := by
    rfl
  have hnot := not_fails_submitInline (fun _ => 0) threeBytes
  have hseamless := readWith_seamless twoAtOnce 4 (fun _ => some 0) _ threeBytes
    (submitInline_exact _) 5 0 9
    (zeroSeg 64 fits_64)
  exact ⟨hrun, (hseamless.2 hnot).mp hrun⟩

/-- With no room for data in a slot the read ends without a request, and with fragments of 2^32
bytes its first request asks for none: either way it returns no byte of a file that has some. -/
theorem readWith_stops_early :
    readWith ⟨usizeMax, 0, 0, 4, 8, 4 * 1024 * 1024⟩ 4 (fun _ => some 0) (submitInline threeBytes)
        5 0 9 9 0 (zeroSeg 64 fits_64) [] = .ok [] ∧
      readWith ⟨65536, 2 ^ 32, 16, 4, 8, 4 * 1024 * 1024⟩ 4 (fun _ => some 0)
        (submitInline threeBytes) 5 0 (2 ^ 32) (2 ^ 32) 0 (zeroSeg 64 fits_64) [] = .ok [] ∧
      window threeBytes.content 0 (min 9 (3 - 0)) = [7, 8, 9] :=
  ⟨rfl, rfl, rfl⟩

end AetherVfs.Read
