import AetherVfs.Registry.Layout

/-!
# Packing several values into one buffer

`write_multiple_values`, the answer to `NtQueryMultipleValueKey`. The loop keeps two cursors, the
bytes used and the bytes required, and goes on counting after the buffer is full. Until then the
cursors agree, which makes the required length enough for a second call.
-/

namespace AetherVfs.Registry.Layout

open Slice

structure ValueEntry where
  dataLength : ℕ
  dataOffset : ℕ
  ty : UInt32
deriving DecidableEq

structure MultipleWritten where
  status : Status
  bufferLength : ℕ
  resultLength : ℕ
deriving DecidableEq

/-- The variables of the loop of `write_multiple_values`. -/
structure Cursors where
  used : ℕ
  required : ℕ
  full : Bool
  status : Status

def Cursors.written (c : Cursors) (status : Status) : MultipleWritten :=
  ⟨status, len32 c.used, len32 c.required⟩

/-- The loop over the values and their entries; there is no result when a copy would leave the
buffer. -/
def writeMultipleLoop (c : Cursors) :
    List (Option Value) → List ValueEntry → List UInt8 →
      Option (MultipleWritten × List ValueEntry × List UInt8)
  | none :: _, entry :: entries, buf =>
    some (c.written .objectNameNotFound, entry :: entries, buf)
  | some v :: vs, entry :: entries, buf =>
    let used := align c.used 4
    let required := align c.required 4
    let len := v.data.length
    if !c.full ∧ used + len ≤ buf.length then do
      let buf ← put used v.data buf
      let (w, entries, buf) ←
        writeMultipleLoop { c with used := used + len, required := required + len } vs entries buf
      return (w, ⟨len32 len, len32 used, v.ty⟩ :: entries, buf)
    else do
      let (w, entries, buf) ←
        writeMultipleLoop ⟨used, required + len, true, .bufferOverflow⟩ vs entries buf
      return (w, entry :: entries, buf)
  | _, entries, buf => some (c.written c.status, entries, buf)

def writeMultipleValues (values : List (Option Value)) (entries : List ValueEntry)
    (buf : List UInt8) : Option (MultipleWritten × List ValueEntry × List UInt8) :=
  writeMultipleLoop ⟨0, 0, false, .success⟩ values entries buf

/-! ### Where the values go -/

/-- The end of the values placed from `pos` on, each at the next multiple of four. -/
def extent (pos : ℕ) (vs : List Value) : ℕ :=
  vs.foldl (fun pos v => align pos 4 + v.data.length) pos

@[simp] theorem extent_nil (pos : ℕ) : extent pos [] = pos := rfl

@[simp] theorem extent_cons (pos : ℕ) (v : Value) (vs : List Value) :
    extent pos (v :: vs) = extent (align pos 4 + v.data.length) vs := rfl

theorem extent_append (pos : ℕ) (us vs : List Value) :
    extent pos (us ++ vs) = extent (extent pos us) vs := List.foldl_append

theorem le_extent (pos : ℕ) (vs : List Value) : pos ≤ extent pos vs := by
  induction vs generalizing pos with
  | nil => exact le_rfl
  | cons v vs ih =>
    have halign : pos ≤ align pos 4 := le_align (by omega)
    have hrest := ih (align pos 4 + v.data.length)
    rw [extent_cons]
    omega

theorem extent_take_mono (pos : ℕ) (vs : List Value) {m n : ℕ} (h : m ≤ n) :
    extent pos (vs.take m) ≤ extent pos (vs.take n) := by
  obtain ⟨rest, hrest⟩ := List.take_prefix_take_left h (l := vs)
  rw [← hrest, extent_append]
  exact le_extent _ _

/-- How many of the values fit in front, one after the other, into `room` bytes. -/
def fitting (room : ℕ) : ℕ → List Value → ℕ
  | _, [] => 0
  | pos, v :: vs =>
    if align pos 4 + v.data.length ≤ room then fitting room (align pos 4 + v.data.length) vs + 1
    else 0

/-- The start of the value with index `i`. -/
def offsetOf (vs : List Value) (i : ℕ) : ℕ := align (extent 0 (vs.take i)) 4

/-- The copies of the values placed from `pos` on. -/
def copies : ℕ → List Value → List (Piece UInt8)
  | _, [] => []
  | pos, v :: vs => .field (align pos 4) v.data :: copies (align pos 4 + v.data.length) vs

/-- The entries of the values placed from `pos` on. -/
def filled : ℕ → List Value → List ValueEntry
  | _, [] => []
  | pos, v :: vs =>
    ⟨len32 v.data.length, len32 (align pos 4), v.ty⟩ :: filled (align pos 4 + v.data.length) vs

theorem align_mono {m n : ℕ} (h : m ≤ n) : align m 4 ≤ align n 4 := by
  unfold align
  omega

theorem align_align (n : ℕ) : align (align n 4) 4 = align n 4 := by
  unfold align
  omega

theorem writeMultipleLoop_full (vs : List Value) (used required : ℕ) (entries : List ValueEntry)
    (buf : List UInt8) (hlen : entries.length = vs.length) (hused : align used 4 = used) :
    writeMultipleLoop ⟨used, required, true, .bufferOverflow⟩ (vs.map some) entries buf =
      some (⟨.bufferOverflow, len32 used, len32 (extent required vs)⟩, entries, buf) := by
  induction vs generalizing required entries with
  | nil => rfl
  | cons v vs ih =>
    obtain ⟨entry, entries, rfl⟩ := List.exists_cons_of_length_eq_add_one hlen
    have hrest := ih (align required 4 + v.data.length) entries (by simpa using hlen)
    simp only [List.map_cons, writeMultipleLoop, Bool.not_true, Bool.false_eq_true, false_and,
      if_false, hused, hrest]
    rfl

theorem writeMultipleLoop_eq (vs : List Value) (pos : ℕ) (entries : List ValueEntry)
    (buf : List UInt8) (hlen : entries.length = vs.length) :
    writeMultipleLoop ⟨pos, pos, false, .success⟩ (vs.map some) entries buf =
      let k := fitting buf.length pos vs
      some (⟨if k = vs.length then .success else .bufferOverflow,
          len32 (if k = vs.length then extent pos vs else align (extent pos (vs.take k)) 4),
          len32 (extent pos vs)⟩,
        filled pos (vs.take k) ++ entries.drop k, overwriteAll (copies pos (vs.take k)) buf) := by
  induction vs generalizing pos entries buf with
  | nil =>
    obtain rfl := List.length_eq_zero_iff.mp hlen
    rfl
  | cons v vs ih =>
    obtain ⟨entry, entries, rfl⟩ := List.exists_cons_of_length_eq_add_one hlen
    have hlen : entries.length = vs.length := by simpa using hlen
    by_cases hfit : align pos 4 + v.data.length ≤ buf.length
    · have hput : put (align pos 4) v.data buf = some (overwrite (align pos 4) v.data buf) :=
        if_pos hfit
      have hrest := ih (align pos 4 + v.data.length) entries
        (overwrite (align pos 4) v.data buf) hlen
      rw [length_overwrite] at hrest
      simp only [List.map_cons, writeMultipleLoop, fitting, if_pos hfit, hput]
      simp [hfit, hrest, filled, copies, overwriteAll, Piece.off, Piece.elems]
    · have hrest := writeMultipleLoop_full vs (align pos 4)
        (align pos 4 + v.data.length) entries buf hlen (align_align pos)
      simp [writeMultipleLoop, fitting, hfit, hrest, filled, copies, overwriteAll]

theorem fitting_isGreatest (room pos : ℕ) (vs : List Value) (hpos : pos ≤ room) :
    IsGreatest {n | n ≤ vs.length ∧ extent pos (vs.take n) ≤ room} (fitting room pos vs) := by
  induction vs generalizing pos with
  | nil => exact ⟨⟨le_rfl, hpos⟩, fun n hn => hn.1⟩
  | cons v vs ih =>
    by_cases hfit : align pos 4 + v.data.length ≤ room
    · rw [fitting, if_pos hfit]
      obtain ⟨⟨hle, hroom⟩, hgreatest⟩ := ih _ hfit
      refine ⟨⟨Nat.succ_le_succ hle, hroom⟩, ?_⟩
      rintro n ⟨hn, hextent⟩
      cases n with
      | zero => exact Nat.zero_le _
      | succ n => exact Nat.succ_le_succ (hgreatest ⟨Nat.le_of_succ_le_succ hn, hextent⟩)
    · rw [fitting, if_neg hfit]
      refine ⟨⟨Nat.zero_le _, hpos⟩, ?_⟩
      rintro n ⟨hn, hextent⟩
      cases n with
      | zero => exact le_rfl
      | succ n => exact absurd ((le_extent _ (vs.take n)).trans hextent) hfit

theorem copies_append (pos : ℕ) (us vs : List Value) :
    copies pos (us ++ vs) = copies pos us ++ copies (extent pos us) vs := by
  induction us generalizing pos with
  | nil => rfl
  | cons u us ih => simp [copies, ih]

theorem filled_append (pos : ℕ) (us vs : List Value) :
    filled pos (us ++ vs) = filled pos us ++ filled (extent pos us) vs := by
  induction us generalizing pos with
  | nil => rfl
  | cons u us ih => simp [filled, ih]

@[simp] theorem length_filled (pos : ℕ) (vs : List Value) :
    (filled pos vs).length = vs.length := by
  induction vs generalizing pos with
  | nil => rfl
  | cons v vs ih => rw [filled, List.length_cons, List.length_cons, ih]

variable {vs : List Value} {v : Value}

theorem le_off_of_mem_copies {pos : ℕ} {p : Piece UInt8}
    (h : p ∈ copies pos vs) : pos ≤ p.off := by
  induction vs generalizing pos with
  | nil => cases h
  | cons v vs ih =>
    have halign : pos ≤ align pos 4 := le_align (by omega)
    obtain rfl | h := List.mem_cons.mp h
    · exact halign
    · have := ih h
      omega

theorem take_eq_of_lt {i k : ℕ} (hi : i < k) (hv : vs[i]? = some v) :
    ∃ rest, vs.take k = vs.take i ++ v :: rest := by
  obtain ⟨rest, hrest⟩ := List.take_prefix_take_left (Nat.succ_le_of_lt hi) (l := vs)
  refine ⟨rest, ?_⟩
  rw [← hrest, List.take_add_one, hv]
  simp

theorem range_copies (vs : List Value) (buf : List UInt8) {i k : ℕ} (hi : i < k)
    (hv : vs[i]? = some v) (hroom : offsetOf vs i + v.data.length ≤ buf.length) :
    range (offsetOf vs i) v.data.length (overwriteAll (copies 0 (vs.take k)) buf) = v.data := by
  obtain ⟨rest, hrest⟩ := take_eq_of_lt hi hv
  rw [hrest, copies_append, copies]
  apply range_overwriteAll (p := .field (offsetOf vs i) v.data) hroom
  intro q hq
  exact .inl (le_off_of_mem_copies hq)

theorem getElem?_filled (vs : List Value) {i k : ℕ} (hi : i < k)
    (hv : vs[i]? = some v) (more : List ValueEntry) :
    (filled 0 (vs.take k) ++ more)[i]? =
      some ⟨len32 v.data.length, len32 (offsetOf vs i), v.ty⟩ := by
  obtain ⟨rest, hrest⟩ := take_eq_of_lt hi hv
  have hlt := (List.getElem?_eq_some_iff.mp hv).1
  have hlen : (filled 0 (vs.take i)).length = i := by
    rw [length_filled, List.length_take]
    omega
  rw [hrest, filled_append, filled, List.append_assoc, List.getElem?_append_right hlen.le, hlen,
    Nat.sub_self]
  rfl

theorem offsetOf_zero (vs : List Value) : offsetOf vs 0 = 0 := by
  rw [offsetOf, List.take_zero]
  rfl

theorem offsetOf_mod (vs : List Value) (i : ℕ) : offsetOf vs i % 4 = 0 := by
  unfold offsetOf align
  exact Nat.mul_mod_left _ _

theorem extent_take_succ {i : ℕ} (hv : vs[i]? = some v) :
    extent 0 (vs.take (i + 1)) = offsetOf vs i + v.data.length := by
  rw [List.take_add_one, hv, extent_append]
  rfl

theorem mem_copies {pos : ℕ} {p : Piece UInt8} (h : p ∈ copies pos vs) :
    ∃ i v, vs[i]? = some v ∧ p.off = align (extent pos (vs.take i)) 4 ∧ p.elems = v.data := by
  induction vs generalizing pos with
  | nil => cases h
  | cons v vs ih =>
    obtain rfl | h := List.mem_cons.mp h
    · exact ⟨0, v, rfl, rfl, rfl⟩
    · obtain ⟨i, u, hu, hoff, helems⟩ := ih h
      exact ⟨i + 1, u, hu, hoff, helems⟩

/-- The first `k` values lie at their offsets, each with its entry; every other byte and every
other entry is as it was. -/
structure Packs (vs : List Value) (k : ℕ) (entries : List ValueEntry) (buf : List UInt8)
    (r : MultipleWritten × List ValueEntry × List UInt8) : Prop where
  status : r.1.status = if k = vs.length then .success else .bufferOverflow
  length : r.2.2.length = buf.length
  entry : ∀ i < k, ∀ v ∈ vs[i]?,
    r.2.1[i]? = some ⟨len32 v.data.length, len32 (offsetOf vs i), v.ty⟩
  inside : ∀ i < k, ∀ v ∈ vs[i]?,
    offsetOf vs i % 4 = 0 ∧ offsetOf vs i + v.data.length ≤ buf.length
  disjoint : ∀ i j, i < j → ∀ v ∈ vs[i]?, offsetOf vs i + v.data.length ≤ offsetOf vs j
  data : ∀ i < k, ∀ v ∈ vs[i]?, range (offsetOf vs i) v.data.length r.2.2 = v.data
  otherEntries : ∀ i, k ≤ i → r.2.1[i]? = entries[i]?
  otherBytes : ∀ b, (∀ i < k, ∀ v ∈ vs[i]?,
    ¬ (offsetOf vs i ≤ b ∧ b < offsetOf vs i + v.data.length)) → r.2.2[b]? = buf[b]?

theorem offsetOf_add_le {i j : ℕ} (hij : i < j)
    (hv : vs[i]? = some v) : offsetOf vs i + v.data.length ≤ offsetOf vs j := by
  rw [← extent_take_succ hv]
  exact (extent_take_mono 0 vs hij).trans (le_align (by omega))

theorem packs_copies {k : ℕ} {entries : List ValueEntry} {buf : List UInt8}
    {w : MultipleWritten} (hk : k ≤ vs.length) (hroom : extent 0 (vs.take k) ≤ buf.length)
    (hstatus : w.status = if k = vs.length then .success else .bufferOverflow) :
    Packs vs k entries buf
      (w, filled 0 (vs.take k) ++ entries.drop k, overwriteAll (copies 0 (vs.take k)) buf) := by
  have hin : ∀ i < k, ∀ v ∈ vs[i]?, offsetOf vs i + v.data.length ≤ buf.length := by
    intro i hi v hv
    rw [← extent_take_succ hv]
    exact (extent_take_mono 0 vs hi).trans hroom
  refine ⟨hstatus, length_overwriteAll _ _, ?_, ?_, ?_, ?_, ?_, ?_⟩
  · exact fun i hi v hv => getElem?_filled vs hi hv _
  · exact fun i hi v hv => ⟨offsetOf_mod vs i, hin i hi v hv⟩
  · exact fun i j hij v hv => offsetOf_add_le hij hv
  · exact fun i hi v hv => range_copies vs buf hi hv (hin i hi v hv)
  · intro i hi
    have hlen : (filled 0 (vs.take k)).length = k := by
      rw [length_filled, List.length_take, min_eq_left hk]
    dsimp only
    rw [List.getElem?_append_right (hlen.le.trans hi), hlen, List.getElem?_drop,
      Nat.add_sub_cancel' hi]
  · intro b hb
    apply getElem?_overwriteAll_of_outside
    intro p hp
    obtain ⟨i, v, hv, hoff, helems⟩ := mem_copies hp
    obtain ⟨hi, hv⟩ : i < k ∧ vs[i]? = some v := by
      rw [List.getElem?_take] at hv
      split at hv
      · exact ⟨‹_›, hv⟩
      · cases hv
    rw [List.take_take, min_eq_left hi.le] at hoff
    rw [hoff, helems]
    exact hb i hi v hv

/-- The longest run of leading values that fits is copied. The length reported as used is at most
the buffer's length rounded up to four, and a buffer of the length reported as required takes
every value. Lengths and offsets are only cut where they need more than 32 bits. -/
theorem writeMultipleValues_packs (vs : List Value) (entries : List ValueEntry) (buf : List UInt8)
    (hlen : entries.length = vs.length) :
    ∃ k r, writeMultipleValues (vs.map some) entries buf = some r ∧
      IsGreatest {n | n ≤ vs.length ∧ extent 0 (vs.take n) ≤ buf.length} k ∧
      Packs vs k entries buf r ∧
      (buf.length < 2 ^ 32 → ∀ i < k, ∀ v ∈ vs[i]?,
        r.2.1[i]? = some ⟨v.data.length, offsetOf vs i, v.ty⟩) ∧
      r.1.bufferLength ≤ align buf.length 4 ∧
      r.1.resultLength = len32 (extent 0 vs) ∧
      (extent 0 vs < 2 ^ 32 → ∀ entries' buf', entries'.length = vs.length →
        buf'.length = r.1.resultLength →
        ∃ r', writeMultipleValues (vs.map some) entries' buf' = some r' ∧
          Packs vs vs.length entries' buf' r') := by
  have hgreatest := fitting_isGreatest buf.length 0 vs (Nat.zero_le _)
  have hk := hgreatest.1.1
  have hroom := hgreatest.1.2
  refine ⟨_, _, writeMultipleLoop_eq vs 0 entries buf hlen, hgreatest,
    packs_copies hk hroom rfl, ?_, ?_, rfl, ?_⟩
  · intro h32 i hi v hv
    have hin : offsetOf vs i + v.data.length ≤ buf.length := by
      rw [← extent_take_succ hv]
      exact (extent_take_mono 0 vs hi).trans hroom
    refine (getElem?_filled vs hi hv _).trans ?_
    rw [len32_of_lt (by omega), len32_of_lt (by omega)]
  · apply (min_le_left _ _).trans
    split
    · rename_i hall
      rw [hall, List.take_length] at hroom
      exact hroom.trans (le_align (by omega))
    · exact align_mono hroom
  · intro h32 entries' buf' hlen' hbuf'
    have hbuf' : buf'.length = extent 0 vs := hbuf'.trans (len32_of_lt h32)
    have hall : fitting buf'.length 0 vs = vs.length := by
      apply (fitting_isGreatest buf'.length 0 vs (Nat.zero_le _)).unique
      refine ⟨⟨le_rfl, ?_⟩, fun n hn => hn.1⟩
      rw [List.take_length, hbuf']
    refine ⟨_, writeMultipleLoop_eq vs 0 entries' buf' hlen', ?_⟩
    rw [hall]
    apply packs_copies le_rfl
    · rw [List.take_length, hbuf']
    · rfl

theorem writeMultipleValues_packs_twoValues :
    [(⟨0, 0, 0⟩ : ValueEntry), ⟨0, 0, 0⟩].length =
      [(⟨[], 3, [1, 2, 3, 4, 5]⟩ : Value), ⟨[], 3, [6]⟩].length ∧
    ∃ k r, writeMultipleValues [some ⟨[], 3, [1, 2, 3, 4, 5]⟩, some ⟨[], 3, [6]⟩]
        [⟨0, 0, 0⟩, ⟨0, 0, 0⟩] (List.replicate 5 0) = some r ∧
      Packs [⟨[], 3, [1, 2, 3, 4, 5]⟩, ⟨[], 3, [6]⟩] k [⟨0, 0, 0⟩, ⟨0, 0, 0⟩]
        (List.replicate 5 0) r := by
  refine ⟨rfl, ?_⟩
  obtain ⟨k, r, hr, -, hpacks, -⟩ := writeMultipleValues_packs
    [⟨[], 3, [1, 2, 3, 4, 5]⟩, ⟨[], 3, [6]⟩] [⟨0, 0, 0⟩, ⟨0, 0, 0⟩] (List.replicate 5 0) rfl
  exact ⟨k, r, hr, hpacks⟩

/-- The used length is rounded up before the value that does not fit, so that it can exceed the
buffer; and lengths and offsets of more than 32 bits are cut, so that the required length can be
too short and an entry can point into another value. -/
theorem bufferLength_exceeds :
    (writeMultipleValues [some ⟨[], 3, [1, 2, 3, 4, 5]⟩, some ⟨[], 3, [6]⟩]
        [⟨0, 0, 0⟩, ⟨0, 0, 0⟩] (List.replicate 5 0)).map Prod.fst =
      some ⟨.bufferOverflow, 8, 9⟩ ∧
    (writeMultipleValues [some ⟨[], 3, List.replicate (2 ^ 32) 0⟩] [⟨0, 0, 0⟩]
        (List.replicate (2 ^ 32 - 1) 0)).map Prod.fst =
      some ⟨.bufferOverflow, 0, 2 ^ 32 - 1⟩ ∧
    (writeMultipleValues [some ⟨[], 3, List.replicate (2 ^ 32) 0⟩, some ⟨[], 3, [1]⟩]
        [⟨0, 0, 0⟩, ⟨0, 0, 0⟩] (List.replicate (2 ^ 32 + 1) 0)).map
        (fun r => (r.2.1[1]?, r.2.2[2 ^ 32 - 1]?)) =
      some (some ⟨1, 2 ^ 32 - 1, 3⟩, some 0) := by
  refine ⟨by decide, ?_, ?_⟩
  · have hlarge : ∀ data buf : List UInt8, data.length = 2 ^ 32 → buf.length = 2 ^ 32 - 1 →
        (writeMultipleValues [some ⟨[], 3, data⟩] [⟨0, 0, 0⟩] buf).map Prod.fst =
          some ⟨.bufferOverflow, 0, 2 ^ 32 - 1⟩ := by
      intro data buf hdata hbuf
      have hfit : fitting buf.length 0 [⟨[], 3, data⟩] = 0 := by
        rw [fitting, if_neg]
        dsimp only
        omega
      have heq := writeMultipleLoop_eq [⟨[], 3, data⟩] 0 [⟨0, 0, 0⟩] buf rfl
      rw [hfit] at heq
      rw [writeMultipleValues]
      refine (congrArg (Option.map Prod.fst) heq).trans ?_
      simp [hdata, align, len32]
    exact hlarge _ _ List.length_replicate List.length_replicate
  · have hlarge : ∀ data buf : List UInt8, data.length = 2 ^ 32 → data[2 ^ 32 - 1]? = some 0 →
        buf.length = 2 ^ 32 + 1 →
        (writeMultipleValues [some ⟨[], 3, data⟩, some ⟨[], 3, [1]⟩]
          [⟨0, 0, 0⟩, ⟨0, 0, 0⟩] buf).map (fun r => (r.2.1[1]?, r.2.2[2 ^ 32 - 1]?)) =
            some (some ⟨1, 2 ^ 32 - 1, 3⟩, some 0) := by
      intro data buf hdata hlast hbuf
      have halign : align (align 0 4 + data.length) 4 = 2 ^ 32 := by
        rw [hdata]
        rfl
      have hfit : fitting buf.length 0 [⟨[], 3, data⟩, ⟨[], 3, [1]⟩] = 2 := by
        rw [fitting, if_pos, fitting, if_pos, fitting]
        · dsimp only [List.length_cons, List.length_nil]
          omega
        · rw [hdata, hbuf]
          decide
      have heq := writeMultipleLoop_eq [⟨[], 3, data⟩, ⟨[], 3, [1]⟩] 0
        [⟨0, 0, 0⟩, ⟨0, 0, 0⟩] buf rfl
      rw [hfit] at heq
      rw [writeMultipleValues]
      refine (congrArg (Option.map _) heq).trans ?_
      have hentry := getElem?_filled [⟨[], 3, data⟩, ⟨[], 3, [1]⟩] (show 1 < 2 by decide)
        rfl (List.drop 2 [⟨0, 0, 0⟩, ⟨0, 0, 0⟩])
      have hrange := range_copies [⟨[], 3, data⟩, ⟨[], 3, [1]⟩] buf
        (show 0 < 2 by decide) rfl (by
          rw [offsetOf_zero]
          dsimp only
          omega)
      have hbyte := congrArg (·[2 ^ 32 - 1]?) hrange
      dsimp only at hbyte
      rw [offsetOf_zero, getElem?_range, if_pos (by omega), hlast, Nat.zero_add] at hbyte
      refine congrArg some (Prod.ext (hentry.trans ?_) hbyte)
      rw [offsetOf, List.take_succ_cons, List.take_zero, extent_cons, extent_nil, halign]
      rfl
    exact hlarge _ _ List.length_replicate
      (List.getElem?_replicate_of_lt (by decide)) List.length_replicate

end AetherVfs.Registry.Layout
