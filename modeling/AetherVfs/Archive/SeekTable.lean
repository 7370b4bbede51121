import AetherVfs.Lib.Outcome
import AetherVfs.Lib.Words

/-!
# Ranges of a seekable zstd stream

`aether-archive/src/seekable.rs`: the table at the end of the stream says how long each frame is
before and after decompression, and a range of the content is put together from the frames that
meet it. The source, the decompressor, the checksum and the allocator are any functions. A table
has fewer than `2 ^ 32` frames and their sizes are below `2 ^ 32`, so that the offsets are those of
the code.
-/

namespace AetherVfs.Archive

open Words List

inductive FormatError where
  | io
  | footerLength (got : ℕ)
  | seekableMagic (magic : ℕ)
  | reservedBits (descriptor : UInt8)
  | shorterThanFooter
  | shorterThanTable (need got : ℕ)
  | skippableMagic (magic : ℕ)
  | frameSize (size need : ℕ)
  | frameTooLarge (index size : ℕ)
  | rangeOutside (start stop len : ℕ)
  | compressedLength (index got size : ℕ)
  | decompressor (index : ℕ)
  | decompressedLength (index got size : ℕ)
  | checksum (index got want : ℕ)
deriving DecidableEq, Repr

def skippableMagic : ℕ := 0x184D2A5E
def seekableMagic : ℕ := 0x8F92EAB1
def footerLen : ℕ := 9
def frameHeaderLen : ℕ := 8
def checksumFlag : UInt8 := 0x80
def reservedBits : UInt8 := 0x7C
def maxFrameDecompressed : ℕ := 2 ^ 30

structure FrameEntry where
  index : ℕ
  compressedOffset : ℕ
  compressedSize : ℕ
  decompressedOffset : ℕ
  decompressedSize : ℕ
  checksum : Option ℕ
deriving DecidableEq, Repr

def FrameEntry.decompressedEnd (f : FrameEntry) : ℕ := f.decompressedOffset + f.decompressedSize

structure SeekTable where
  frames : List FrameEntry
  hasChecksums : Bool
  tableFrameLen : ℕ
deriving DecidableEq, Repr

def hasChecksums (descriptor : UInt8) : Bool := descriptor &&& checksumFlag ≠ 0

def entryLen (sums : Bool) : ℕ := if sums then 12 else 8

def descriptor (footer : List UInt8) : UInt8 := footer.getD 4 0

namespace SeekTable

def tableFrameLenOf (footer : List UInt8) : Except FormatError ℕ :=
  if footer.length ≠ footerLen then .error (.footerLength footer.length)
  else if read 4 5 footer ≠ seekableMagic then .error (.seekableMagic (read 4 5 footer))
  else if descriptor footer &&& Archive.reservedBits ≠ 0 then
    .error (.reservedBits (descriptor footer))
  else .ok (frameHeaderLen + read 4 0 footer * entryLen (Archive.hasChecksums (descriptor footer)) +
    footerLen)

/-- The loop over the entries, from `index` on with the offsets reached so far. -/
def parseFrames (table : List UInt8) (sums : Bool) :
    ℕ → ℕ → ℕ → ℕ → Except FormatError (List FrameEntry)
  | 0, _, _, _ => .ok []
  | count + 1, index, cOff, dOff =>
    let e := frameHeaderLen + index * entryLen sums
    let compressedSize := read 4 e table
    let decompressedSize := read 4 (e + 4) table
    let checksum := if sums then some (read 4 (e + 8) table) else none
    if maxFrameDecompressed < decompressedSize then .error (.frameTooLarge index decompressedSize)
    else
      (parseFrames table sums count (index + 1) (cOff + compressedSize)
          (dOff + decompressedSize)).map
        (⟨index, cOff, compressedSize, dOff, decompressedSize, checksum⟩ :: ·)

/-- The length of the table covers its header, its entries and the footer, so no slice is cut
short. -/
def parse (tail : List UInt8) : Except FormatError SeekTable :=
  if tail.length < footerLen then .error .shorterThanFooter
  else do
    let footer := tail.drop (tail.length - footerLen)
    let tableLen ← tableFrameLenOf footer
    if tail.length < tableLen then .error (.shorterThanTable tableLen tail.length)
    else
      let table := tail.drop (tail.length - tableLen)
      if read 4 0 table ≠ Archive.skippableMagic then .error (.skippableMagic (read 4 0 table))
      else if read 4 4 table ≠ tableLen - frameHeaderLen then
        .error (.frameSize (read 4 4 table) (tableLen - 8))
      else
        let sums := Archive.hasChecksums (descriptor footer)
        (parseFrames table sums (read 4 0 footer) 0 0 0).map fun frames => ⟨frames, sums, tableLen⟩

def decompressedLen (t : SeekTable) : ℕ := (t.frames.getLast?.map (·.decompressedEnd)).getD 0

/-- `partition_point`, which the standard library specifies for partitioned slices only. -/
def partitionPoint (p : FrameEntry → Bool) (frames : List FrameEntry) : ℕ :=
  (frames.takeWhile p).length

/-- There is no result when the slice `first..last` would panic. -/
def framesForRange (t : SeekTable) (start stop : ℕ) :
    Except FormatError (Option (List FrameEntry)) :=
  if stop < start ∨ t.decompressedLen < stop then
    .error (.rangeOutside start stop t.decompressedLen)
  else if start = stop then .ok (some [])
  else
    let first := partitionPoint (·.decompressedEnd ≤ start) t.frames
    let last := partitionPoint (·.decompressedOffset < stop) t.frames
    .ok <| if first ≤ last then
        some (((t.frames.take last).drop first).filter (0 < ·.decompressedSize))
      else none

end SeekTable

/-! ## Reading -/

/-- How a call ends without a result. The process is aborted when the allocator refuses a buffer. -/
inductive Halt where
  | failed (e : FormatError)
  | panicked
  | aborted
deriving DecidableEq, Repr

/-- A `RangeRead` with a decompressor, a checksum and an allocator. `zstd bytes room` is what the
decompressor writes into a buffer of `room` bytes; `grants` says which sizes the allocator has. -/
structure Source where
  len : ℕ
  readAt : ℕ → ℕ → Except FormatError (List UInt8)
  zstd : List UInt8 → ℕ → Option (List UInt8)
  xxh64 : List UInt8 → ℕ
  grants : ℕ → Bool

/-- `Vec::with_capacity` panics when asked for more than `isize::MAX` bytes. -/
def isizeMax : ℕ := 2 ^ 63 - 1

namespace Source

variable (r : Source)

/-- A buffer of `n` bytes; an empty one is not asked for. -/
def allocate (n : ℕ) : Except Halt Unit :=
  if isizeMax < n then .error .panicked
  else if n = 0 ∨ r.grants n then .ok ()
  else .error .aborted

def readVec (off n : ℕ) : Except Halt (List UInt8) :=
  if r.len < off + n then .error (.failed .io)
  else do
    r.allocate n
    (r.readAt off n).mapError .failed

def decompressFrameInto (f : FrameEntry) (compressed : List UInt8) :
    Except FormatError (List UInt8) :=
  if compressed.length ≠ f.compressedSize then
    .error (.compressedLength f.index compressed.length f.compressedSize)
  else
    match r.zstd compressed f.decompressedSize with
    | none => .error (.decompressor f.index)
    | some out =>
      if out.length ≠ f.decompressedSize then
        .error (.decompressedLength f.index out.length f.decompressedSize)
      else
        let got := r.xxh64 out % 2 ^ 32
        if f.checksum.all (· = got) then .ok out
        else .error (.checksum f.index got (f.checksum.getD 0))

def decompressFrame (f : FrameEntry) (compressed : List UInt8) : Except Halt (List UInt8) :=
  if maxFrameDecompressed < f.decompressedSize then
    .error (.failed (.frameTooLarge f.index f.decompressedSize))
  else do
    r.allocate f.decompressedSize
    (r.decompressFrameInto f compressed).mapError .failed

def frame (f : FrameEntry) : Except Halt (List UInt8) := do
  r.decompressFrame f (← r.readVec f.compressedOffset f.compressedSize)

end Source

/-- A call of `read_range`: the bytes it asked of the allocator before it looked at the table, the
frames it read, and how it ended. -/
structure Run where
  reserved : ℕ
  reads : List FrameEntry
  reply : Except Halt (List UInt8)
deriving DecidableEq, Repr

/-- `&data[from..to]`, unless it panics. -/
def cut (start stop : ℕ) (f : FrameEntry) (data : List UInt8) : Option (List UInt8) :=
  let lo := max start f.decompressedOffset
  let hi := min stop f.decompressedEnd
  if lo ≤ hi ∧ hi - f.decompressedOffset ≤ data.length then
    some (Slice.range (lo - f.decompressedOffset) (hi - lo) data)
  else none

def readFrames (r : Source) (start stop : ℕ) :
    List FrameEntry → List UInt8 → List FrameEntry × Except Halt (List UInt8)
  | [], out => ([], .ok out)
  | f :: fs, out =>
    match r.frame f with
    | .error e => ([f], .error e)
    | .ok data =>
      match cut start stop f data with
      | none => ([f], .error .panicked)
      | some piece =>
        let (reads, reply) := readFrames r start stop fs (out ++ piece)
        (f :: reads, reply)

def readRange (r : Source) (t : SeekTable) (start stop : ℕ) : Run :=
  match r.allocate (stop - start) with
  | .error .panicked => ⟨0, [], .error .panicked⟩
  | .error e => ⟨stop - start, [], .error e⟩
  | .ok _ =>
    match t.framesForRange start stop with
    | .error e => ⟨stop - start, [], .error (.failed e)⟩
    | .ok none => ⟨stop - start, [], .error .panicked⟩
    | .ok (some frames) =>
      let (reads, reply) := readFrames r start stop frames []
      ⟨stop - start, reads, reply⟩

/-! ## The frames of a table -/

/-- The frames follow each other from the two offsets on. -/
def Contiguous : ℕ → ℕ → List FrameEntry → Prop
  | _, _, [] => True
  | c, d, f :: fs => f.compressedOffset = c ∧ f.decompressedOffset = d ∧
      Contiguous (c + f.compressedSize) (d + f.decompressedSize) fs

variable {fs : List FrameEntry} {c d start stop : ℕ} {r : Source} {t : SeekTable}

theorem contiguous_parseFrames {table : List UInt8} {sums : Bool} {count index : ℕ}
    (h : SeekTable.parseFrames table sums count index c d = .ok fs) :
    Contiguous c d fs ∧ fs.length = count ∧
      ∀ f ∈ fs, f.decompressedSize ≤ maxFrameDecompressed := by
  induction count generalizing index c d fs with
  | zero =>
    cases h
    exact ⟨trivial, rfl, nofun⟩
  | succ count ih =>
    rw [SeekTable.parseFrames] at h
    split at h
    · cases h
    rename_i hmax
    cases hrest : SeekTable.parseFrames table sums count (index + 1) _ _ with
    | error e =>
      rw [hrest] at h
      cases h
    | ok rest =>
      rw [hrest] at h
      cases h
      obtain ⟨hcont, hlen, hsize⟩ := ih hrest
      exact ⟨⟨rfl, rfl, hcont⟩, congrArg (· + 1) hlen,
        forall_mem_cons.mpr ⟨not_lt.mp hmax, hsize⟩⟩

theorem Contiguous.last (h : Contiguous c d fs) :
    (fs.getLast?.map (·.decompressedEnd)).getD d = d + (fs.map (·.decompressedSize)).sum := by
  induction fs generalizing c d with
  | nil => rfl
  | cons f fs ih =>
    obtain ⟨-, rfl, hrest⟩ := h
    have hlast := ih hrest
    rw [map_cons, sum_cons, ← Nat.add_assoc, ← hlast, getLast?_cons]
    cases fs.getLast? <;> rfl

theorem Contiguous.le_offset (h : Contiguous c d fs) : ∀ f ∈ fs, d ≤ f.decompressedOffset := by
  induction fs generalizing c d with
  | nil => nofun
  | cons f fs ih =>
    obtain ⟨-, rfl, hrest⟩ := h
    refine forall_mem_cons.mpr ⟨le_rfl, fun g hg => ?_⟩
    exact (Nat.le_add_right _ _).trans (ih hrest g hg)

theorem FrameEntry.offset_le_end (f : FrameEntry) : f.decompressedOffset ≤ f.decompressedEnd :=
  Nat.le_add_right _ _

theorem Contiguous.sorted (h : Contiguous c d fs) :
    fs.Pairwise fun f g => f.decompressedOffset ≤ g.decompressedOffset ∧
      f.decompressedEnd ≤ g.decompressedEnd := by
  induction fs generalizing c d with
  | nil => exact .nil
  | cons f fs ih =>
    obtain ⟨-, rfl, hrest⟩ := h
    refine .cons (fun g hg => ?_) (ih hrest)
    have hfg : f.decompressedEnd ≤ g.decompressedOffset := hrest.le_offset g hg
    exact ⟨f.offset_le_end.trans hfg, hfg.trans g.offset_le_end⟩

section Partition

variable {α : Type} {p q : α → Bool} {l : List α}

theorem takeWhile_eq_filter (h : l.Pairwise fun a b => p b → p a) :
    l.takeWhile p = l.filter p := by
  induction h with
  | nil => rfl
  | @cons a l ha _ ih =>
    cases hp : p a with
    | true => simp [hp, ih]
    | false =>
      rw [hp] at ha
      simpa [hp] using fun b hb => ha b hb

/-- Between the partition points of two predicates are the elements with one and not the other. -/
theorem drop_take_takeWhile (hp : l.Pairwise fun a b => p b → p a)
    (hq : l.Pairwise fun a b => q b → q a) (hpq : ∀ a, p a → q a) :
    (l.takeWhile p).length ≤ (l.takeWhile q).length ∧
      (l.take (l.takeWhile q).length).drop (l.takeWhile p).length =
        l.filter fun a => q a && !p a := by
  induction l with
  | nil => exact ⟨le_rfl, rfl⟩
  | cons a l ih =>
    cases ha : p a with
    | true => simpa [ha, hpq a ha] using ih hp.tail hq.tail
    | false =>
      have hnone : ∀ b ∈ a :: l, p b = false := by
        simpa [ha] using (pairwise_cons.mp hp).1
      rw [← prefix_iff_eq_take.mp (List.takeWhile_prefix q), takeWhile_eq_filter hq,
        takeWhile_eq_filter hp, filter_eq_nil_iff.mpr (by simpa using hnone)]
      refine ⟨Nat.zero_le _, filter_congr fun b hb => ?_⟩
      rw [hnone b hb, Bool.not_false, Bool.and_true]

end Partition

/-- Part of the frame's content is asked for. -/
def Meets (start stop : ℕ) (f : FrameEntry) : Prop :=
  max start f.decompressedOffset < min stop f.decompressedEnd

instance (f : FrameEntry) : Decidable (Meets start stop f) :=
  inferInstanceAs (Decidable (_ < _))

theorem framesForRange_eq (h : Contiguous c d t.frames) (hle : start ≤ stop)
    (hlen : stop ≤ t.decompressedLen) :
    t.framesForRange start stop = .ok (some (t.frames.filter (Meets start stop))) := by
  rw [SeekTable.framesForRange, if_neg (by omega)]
  split_ifs with heq
  · have hnone : t.frames.filter (Meets start stop) = [] := by
      simp [filter_eq_nil_iff, Meets]
      omega
    rw [hnone]
  · have hpart := drop_take_takeWhile (p := fun f : FrameEntry => f.decompressedEnd ≤ start)
      (q := fun f : FrameEntry => f.decompressedOffset < stop)
      (h.sorted.imp fun hfg => by simpa using hfg.2.trans)
      (h.sorted.imp fun hfg => by simpa using hfg.1.trans_lt)
      fun f => by
        have := f.offset_le_end
        simp only [decide_eq_true_eq]
        omega
    dsimp only [SeekTable.partitionPoint]
    rw [if_pos hpart.1, hpart.2, filter_filter]
    congr 3
    funext f
    rw [Bool.eq_iff_iff]
    simp only [Bool.and_eq_true, Bool.not_eq_true', decide_eq_true_eq, decide_eq_false_iff_not]
    unfold Meets FrameEntry.decompressedEnd
    omega

/-! ## The bytes of a range -/

/-- What the frame decompresses to. -/
def Source.data (r : Source) (f : FrameEntry) : List UInt8 := (r.frame f).toOption.getD []

def Source.content (r : Source) (t : SeekTable) : List UInt8 := t.frames.flatMap r.data

/-- Each frame can be read, gets its buffers and decompresses to its stated size. -/
def Intact (r : Source) (fs : List FrameEntry) : Prop := ∀ f ∈ fs, ∃ b, r.frame f = .ok b

theorem length_of_decompressFrameInto {f : FrameEntry} {compressed b : List UInt8}
    (h : r.decompressFrameInto f compressed = .ok b) : b.length = f.decompressedSize := by
  unfold Source.decompressFrameInto at h
  repeat' split at h
  all_goals first | cases h | skip
  rename_i hlen
  dsimp only at h
  split_ifs at h
  cases h
  exact not_not.mp hlen

theorem length_of_frame {f : FrameEntry} {b : List UInt8} (h : r.frame f = .ok b) :
    b.length = f.decompressedSize := by
  obtain ⟨compressed, -, h⟩ := Outcome.bind_eq_ok.mp h
  unfold Source.decompressFrame at h
  split_ifs at h
  obtain ⟨_, -, h⟩ := Outcome.bind_eq_ok.mp h
  cases hinto : r.decompressFrameInto f compressed with
  | error e =>
    rw [hinto] at h
    cases h
  | ok out =>
    rw [hinto] at h
    cases h
    exact length_of_decompressFrameInto hinto

def piece (r : Source) (start stop : ℕ) (f : FrameEntry) : List UInt8 :=
  let lo := max start f.decompressedOffset
  Slice.range (lo - f.decompressedOffset) (min stop f.decompressedEnd - lo) (r.data f)

theorem readFrames_eq (hin : Intact r fs) (hmeet : ∀ f ∈ fs, Meets start stop f)
    (out : List UInt8) :
    readFrames r start stop fs out = (fs, .ok (out ++ fs.flatMap (piece r start stop))) := by
  induction fs generalizing out with
  | nil => simp [readFrames]
  | cons f fs ih =>
    obtain ⟨⟨b, hb⟩, hin⟩ := forall_mem_cons.mp hin
    obtain ⟨hf, hmeet⟩ := forall_mem_cons.mp hmeet
    have hdata : r.data f = b := by simp [Source.data, hb, Except.toOption]
    have hcut : cut start stop f b = some (piece r start stop f) := by
      have hlen := length_of_frame hb
      rw [cut, piece, hdata]
      refine if_pos ?_
      simp only [Meets, FrameEntry.decompressedEnd] at *
      omega
    simp only [readFrames, hb, hcut, ih hin hmeet, flatMap_cons, append_assoc]

theorem flatMap_piece (h : Contiguous c d fs) (hin : Intact r fs) :
    (fs.filter (Meets start stop)).flatMap (piece r start stop) =
      Slice.range (start - d) (stop - max start d) (fs.flatMap r.data) := by
  induction fs generalizing c d with
  | nil => simp [Slice.range]
  | cons f fs ih =>
    obtain ⟨-, rfl, hrest⟩ := h
    obtain ⟨⟨b, hb⟩, hin⟩ := forall_mem_cons.mp hin
    have hlen : (r.data f).length = f.decompressedSize := by
      simpa [Source.data, hb, Except.toOption] using length_of_frame hb
    have hsplit : ((f :: fs).filter (Meets start stop)).flatMap (piece r start stop) =
        piece r start stop f ++ (fs.filter (Meets start stop)).flatMap (piece r start stop) := by
      rw [filter_cons]
      split_ifs with hmeet
      · rfl
      · have hzero : min stop f.decompressedEnd - max start f.decompressedOffset = 0 := by
          rw [decide_eq_true_eq, Meets] at hmeet
          omega
        simp [piece, hzero, Slice.range]
    rw [hsplit, ih hrest hin]
    simp only [piece, Slice.range, flatMap_cons, drop_append, take_append,
      length_drop, hlen, FrameEntry.decompressedEnd]
    congr 1
    · have hlo : max start f.decompressedOffset - f.decompressedOffset =
          start - f.decompressedOffset := by omega
      rw [hlo, take_eq_take_iff, length_drop, hlen]
      omega
    · congr 1
      · omega
      · congr 1
        omega

/-! ## Whole reads -/

/-- The answer to a range: inside the content its bytes, from frames that meet it; outside an error,
with nothing allocated for a length that was not checked. -/
def Served (r : Source) (t : SeekTable) (start stop : ℕ) : Prop :=
  if start ≤ stop ∧ stop ≤ t.decompressedLen then
    (readRange r t start stop).reply = .ok (Slice.range start (stop - start) (r.content t)) ∧
      ∀ f ∈ (readRange r t start stop).reads, Meets start stop f
  else (∃ e, (readRange r t start stop).reply = .error (.failed e)) ∧
    (readRange r t start stop).reserved = 0

theorem parse_eq_ok {tail : List UInt8} (h : SeekTable.parse tail = .ok t) :
    ∃ footer table sums,
      SeekTable.parseFrames table sums (read 4 0 footer) 0 0 0 = .ok t.frames := by
  unfold SeekTable.parse at h
  split at h
  · cases h
  obtain ⟨len, hlen, h⟩ := Outcome.bind_eq_ok.mp h
  dsimp only at h
  split_ifs at h
  cases hframes : SeekTable.parseFrames _ _ (read 4 0 _) 0 0 0 with
  | error e =>
    rw [hframes] at h
    cases h
  | ok frames =>
    rw [hframes] at h
    cases h
    exact ⟨_, _, _, hframes⟩

theorem read_lt (w p : ℕ) (buf : List UInt8) : read w p buf < 256 ^ w := by
  refine (LittleEndian.value_lt _).trans_le (Nat.pow_le_pow_right (by omega) ?_)
  simp

theorem contiguous_parse {tail : List UInt8} (h : SeekTable.parse tail = .ok t) :
    Contiguous 0 0 t.frames ∧ t.decompressedLen ≤ isizeMax := by
  obtain ⟨footer, table, sums, hframes⟩ := parse_eq_ok h
  obtain ⟨hcont, hcount, hsize⟩ := contiguous_parseFrames hframes
  have hsum := sum_le_card_nsmul (t.frames.map (·.decompressedSize)) maxFrameDecompressed
    (by simpa using hsize)
  have hlt := read_lt 4 0 footer
  refine ⟨hcont, ?_⟩
  rw [SeekTable.decompressedLen, hcont.last, Nat.zero_add]
  rw [length_map, hcount, smul_eq_mul] at hsum
  unfold maxFrameDecompressed at hsum
  unfold isizeMax
  omega

theorem readRange_inside (h : Contiguous 0 0 t.frames) (hlen : t.decompressedLen ≤ isizeMax)
    (hin : Intact r t.frames) (hle : start ≤ stop) (hstop : stop ≤ t.decompressedLen) :
    readRange r t start stop =
      if stop - start = 0 ∨ r.grants (stop - start) then
        ⟨stop - start, t.frames.filter (Meets start stop),
          .ok (Slice.range start (stop - start) (r.content t))⟩
      else ⟨stop - start, [], .error .aborted⟩ := by
  have hsome : Intact r (t.frames.filter (Meets start stop)) := fun f hf =>
    hin f (mem_of_mem_filter hf)
  have hmeet : ∀ f ∈ t.frames.filter (Meets start stop), Meets start stop f := fun f hf => by
    simpa using (mem_filter.mp hf).2
  rw [readRange, Source.allocate, if_neg (by omega), framesForRange_eq h hle hstop]
  split_ifs
  · dsimp only
    rw [readFrames_eq hsome hmeet, nil_append, flatMap_piece h hin, Nat.sub_zero, Nat.max_zero]
    rfl
  · rfl

theorem readRange_outside (hout : stop < start ∨ t.decompressedLen < stop) :
    readRange r t start stop =
      if isizeMax < stop - start then ⟨0, [], .error .panicked⟩
      else if stop - start = 0 ∨ r.grants (stop - start) then
        ⟨stop - start, [], .error (.failed (.rangeOutside start stop t.decompressedLen))⟩
      else ⟨stop - start, [], .error .aborted⟩ := by
  rw [readRange, SeekTable.framesForRange, if_pos hout, Source.allocate]
  split_ifs <;> rfl

/-- A parsed table is contiguous. A range is answered as it should be if it is empty, or ends inside
the content and the allocator has its length, and only then. -/
theorem served_iff {tail : List UInt8} (h : SeekTable.parse tail = .ok t) :
    Contiguous 0 0 t.frames ∧ ∀ r, Intact r t.frames → ∀ start stop : ℕ,
      Served r t start stop ↔
        stop ≤ start ∨ stop ≤ t.decompressedLen ∧ r.grants (stop - start) := by
  obtain ⟨hcont, hlen⟩ := contiguous_parse h
  refine ⟨hcont, fun r hin start stop => ?_⟩
  unfold Served
  split_ifs with hinside
  · rw [readRange_inside hcont hlen hin hinside.1 hinside.2]
    split_ifs with hroom
    · simpa [hinside.2, Nat.sub_eq_zero_iff_le] using hroom
    · simpa [hinside.2, Nat.sub_eq_zero_iff_le] using hroom
  · rw [readRange_outside (by omega)]
    split_ifs with hbig hroom
    · simp
      omega
    · simp
      omega
    · simp
      omega

/-- A table of two frames of two and three bytes. -/
def twoFrames : List UInt8 :=
  [0x5E, 0x2A, 0x4D, 0x18, 25, 0, 0, 0, 2, 0, 0, 0, 2, 0, 0, 0, 3, 0, 0, 0, 3, 0, 0, 0,
    2, 0, 0, 0, 0, 0xB1, 0xEA, 0x92, 0x8F]

def twoFramesTable : SeekTable := ⟨[⟨0, 0, 2, 0, 2, none⟩, ⟨1, 2, 3, 2, 3, none⟩], false, 33⟩

theorem parse_twoFrames : SeekTable.parse twoFrames = .ok twoFramesTable := by rfl

/-- Frames that are stored as they are, read where no buffer is longer than `room`. -/
def stored (bytes : List UInt8) (room : ℕ) : Source :=
  ⟨bytes.length, fun off n => .ok (Slice.range off n bytes), fun b _ => some b, fun _ => 0,
    fun n => n ≤ room⟩

theorem intact_twoFrames : Intact (stored [1, 2, 3, 4, 5] 16) twoFramesTable.frames := by
  simp only [Intact, twoFramesTable, forall_mem_cons]
  exact ⟨⟨[1, 2], rfl⟩, ⟨[3, 4, 5], rfl⟩, nofun⟩

theorem served_twoFrames :
    SeekTable.parse twoFrames = .ok twoFramesTable ∧
      Served (stored [1, 2, 3, 4, 5] 16) twoFramesTable 1 4 :=
  ⟨parse_twoFrames,
    ((served_iff parse_twoFrames).2 _ intact_twoFrames 1 4).mpr (.inr ⟨by decide, by decide⟩)⟩

/-- The length of the range is asked for before the range is checked: the call panics, or aborts
where the allocator does not have it, or holds it while the range is refused. -/
theorem readRange_unchecked :
    SeekTable.parse twoFrames = .ok twoFramesTable ∧
      (readRange (stored [1, 2, 3, 4, 5] 16) twoFramesTable 0 (2 ^ 64 - 1)).reply =
        .error .panicked ∧
      readRange (stored [1, 2, 3, 4, 5] 16) twoFramesTable 0 (2 ^ 40) =
        ⟨2 ^ 40, [], .error .aborted⟩ ∧
      readRange (stored [1, 2, 3, 4, 5] (2 ^ 40)) twoFramesTable 0 (2 ^ 40) =
        ⟨2 ^ 40, [], .error (.failed (.rangeOutside 0 (2 ^ 40) 5))⟩ :=
  ⟨parse_twoFrames, by decide, by decide, by decide⟩

end AetherVfs.Archive
