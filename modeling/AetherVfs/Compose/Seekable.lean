import AetherVfs.Compose.Provider
import AetherVfs.Lib.Method

/-!
# Positional reads over a forward-only provider

`vfs-compose/src/seekable.rs`. Each open file has a cursor into its inner stream. A read ahead of
the cursor skips forward by reading, a read behind it closes the stream and opens the file again.
Any of the inner calls may fail, and a failed open leaves the record with the closed handle and
the old cursor.

The inner provider is any implementation of the calls the wrapper makes. What is asked of it is a
`Forward`: a handle names one stream from the open that issued it on, reads take its bytes in
order, as few at a time as they like, and a failed call takes none. A stream that was closed may
refuse every read, but its handle is not issued again (`handle_table.rs`: handles are never
reused).
-/

namespace AetherVfs.Compose.Seekable

structure Inner where
  State : Type
  access : Access
  openPath : State → VPath → UInt32 → Except Status Handle × State
  close : State → Handle → Except Status Unit × State
  readAt : State → Handle → ℕ → ℕ → Except Status (List UInt8) × State
  readNext : State → Handle → ℕ → Except Status (List UInt8) × State

def openCreate : UInt32 := 4
def openExcl : UInt32 := 8
def openTrunc : UInt32 := 16
def openAppend : UInt32 := 32

def skipChunk : ℕ := 64 * 1024

/-- The flags that a reopen replays. -/
def reopenMask : UInt32 := ~~~(openCreate ||| openTrunc ||| openExcl ||| openAppend)

structure OpenRec where
  inner : Handle
  path : VPath
  flags : UInt32
  cursor : ℕ

section Calls

variable (I : Inner)

abbrev Body (α : Type) := Method (OpenRec × I.State) Status α

variable {I}

def call {α : Type} (f : I.State → Except Status α × I.State) : Body I α := fun (r, s) =>
  match f s with
  | (.ok a, s') => (.returned a, r, s')
  | (.error e, s') => (.refused e, r, s')

def advance (n : ℕ) : Body I Unit :=
  Method.change fun (r, s) => ({ r with cursor := r.cursor + n }, s)

def reopen : Body I Unit := do
  let r ← Method.read Prod.fst
  Method.change fun (r, s) => (r, (I.close s r.inner).2)
  let h ← call fun s => I.openPath s r.path (r.flags &&& reopenMask)
  Method.change fun (r, s) => ({ r with inner := h, cursor := 0 }, s)

/-- The loop of `seek_to`. A round that does not end it moves the cursor, so that as many rounds
as bytes are missing are enough. -/
def skip (offset : ℕ) : ℕ → Body I Bool
  | 0 => pure true
  | rounds + 1 => do
      let r ← Method.read Prod.fst
      if r.cursor < offset then
        let data ← call fun s => I.readNext s r.inner (min (offset - r.cursor) skipChunk)
        if data.length = 0 then
          return false
        else
          advance data.length
          skip offset rounds
      else
        return true

def seekTo (offset : ℕ) : Body I Bool := do
  let r ← Method.read Prod.fst
  if offset < r.cursor then
    reopen
  let r ← Method.read Prod.fst
  skip offset (offset - r.cursor)

def readNext (len : ℕ) : Body I (List UInt8) := do
  let r ← Method.read Prod.fst
  let data ← call fun s => I.readNext s r.inner len
  advance data.length
  return data

def readAt (offset len : ℕ) : Body I (List UInt8) := do
  let r ← Method.read Prod.fst
  if I.access ≠ .seqRead then
    call fun s => I.readAt s r.inner offset len
  else
    let reached ← seekTo offset
    if reached then
      let r ← Method.read Prod.fst
      let data ← call fun s => I.readNext s r.inner len
      advance data.length
      return data
    else
      return []

def openFile (s : I.State) (path : VPath) (flags : UInt32) : Except Status OpenRec × I.State :=
  match I.openPath s path flags with
  | (.ok h, s') => (.ok ⟨h, path, flags, 0⟩, s')
  | (.error e, s') => (.error e, s')

end Calls

/-- A forward-only provider and one file of it. -/
structure Forward (I : Inner) (path : VPath) (file : List UInt8) where
  /-- How many bytes of the file the stream under a handle has given. -/
  place : I.State → Handle → Option ℕ
  sequential : I.access = .seqRead
  opens : ∀ {s s' flags h}, flags &&& reopenMask = flags →
    I.openPath s path flags = (.ok h, s') → place s' h = some 0
  open_fails : ∀ {s s' flags e h n}, I.openPath s path flags = (.error e, s') →
    place s h = some n → place s' h = some n
  closes : ∀ {s s' h n r}, I.close s h = (r, s') → place s h = some n → place s' h = some n
  reads : ∀ {s s' h n len data}, place s h = some n → I.readNext s h len = (.ok data, s') →
    data <+: file.drop n ∧ data.length ≤ len ∧ (data = [] → len = 0 ∨ file.length ≤ n) ∧
      place s' h = some (n + data.length)
  read_fails : ∀ {s s' h n len e}, place s h = some n → I.readNext s h len = (.error e, s') →
    place s' h = some n

inductive Call where
  | readAt (offset len : ℕ)
  | readNext (len : ℕ)

def Call.body {I : Inner} : Call → Body I (List UInt8)
  | .readAt offset len => Seekable.readAt offset len
  | .readNext len => Seekable.readNext len

def answers {I : Inner} : OpenRec × I.State → List Call → List (Exit Status (List UInt8))
  | _, [] => []
  | s, c :: cs => (c.body s).1 :: answers (c.body s).2 cs

/-! ### A file that is read at any place -/

/-- `data` is what a read of at most `len` bytes at `offset` may give. -/
structure BytesAt (file : List UInt8) (offset len : ℕ) (data : List UInt8) : Prop where
  bytes : data <+: file.drop offset
  length_le : data.length ≤ len
  at_end : data = [] → len = 0 ∨ file.length ≤ offset

/-- What a file with a running position answers to a call, and where the position is then. A
failed `read_next` leaves the position, and a failed `read_at` leaves it or ends before the place
it was to read. -/
def Answers (file : List UInt8) (pos : ℕ) :
    Call → Exit Status (List UInt8) → ℕ → Prop
  | .readAt offset len, .returned data, pos' =>
    BytesAt file offset len data ∧ pos' = min (offset + data.length) file.length
  | .readAt offset _, .refused _, pos' => pos' = pos ∨ pos' ≤ offset
  | .readNext len, .returned data, pos' =>
    BytesAt file pos len data ∧ pos' = pos + data.length
  | .readNext _, .refused _, pos' => pos' = pos
  | _, .panicked, _ => False

/-- Every answer is right for the running position it is given at. -/
def Conforms (file : List UInt8) : ℕ → List Call → List (Exit Status (List UInt8)) → Prop
  | _, [], as => as = []
  | pos, c :: cs, as => ∃ a pos' rest, as = a :: rest ∧ Answers file pos c a pos' ∧
      Conforms file pos' cs rest

/-! ### The cursor is the place of the stream -/

section Tracking

variable {I : Inner} {path : VPath} {file : List UInt8} (F : Forward I path file)

/-- The record's cursor is where its stream is. -/
structure Forward.Tracks (x : OpenRec × I.State) : Prop where
  path_eq : x.1.path = path
  place_eq : F.place x.2 x.1.inner = some x.1.cursor
  cursor_le : x.1.cursor ≤ file.length

variable {F} {x : OpenRec × I.State}

theorem call_of_ok {α : Type} {f : I.State → Except Status α × I.State} {a : α} {s' : I.State}
    (h : f x.2 = (.ok a, s')) : call f x = (.returned a, x.1, s') := by
  rw [call, h]

theorem call_of_error {α : Type} {f : I.State → Except Status α × I.State} {e : Status}
    {s' : I.State} (h : f x.2 = (.error e, s')) : call f x = (.refused e, x.1, s') := by
  rw [call, h]

section

variable (h : F.Tracks x)

include h

theorem Forward.Tracks.call_readNext (len : ℕ) :
    Method.Meets (fun data y => y.1 = x.1 ∧ BytesAt file x.1.cursor len data ∧
        F.Tracks ({ x.1 with cursor := x.1.cursor + data.length }, y.2))
      (fun y => F.Tracks y ∧ y.1.cursor = x.1.cursor)
      (call (fun s => I.readNext s x.1.inner len) x) := by
  rcases hread : I.readNext x.2 x.1.inner len with ⟨e | data, s'⟩
  · rw [call_of_error hread]
    exact ⟨⟨h.path_eq, F.read_fails h.place_eq hread, h.cursor_le⟩, rfl⟩
  · obtain ⟨hbytes, hlen, hend, hplace⟩ := F.reads h.place_eq hread
    have hle : x.1.cursor + data.length ≤ file.length := by
      have hdrop := hbytes.length_le
      have := h.cursor_le
      rw [List.length_drop] at hdrop
      omega
    rw [call_of_ok hread]
    exact ⟨rfl, ⟨hbytes, hlen, hend⟩, h.path_eq, hplace, hle⟩

theorem Forward.Tracks.readNext (len : ℕ) :
    Method.Meets (fun data y => BytesAt file x.1.cursor len data ∧ F.Tracks y ∧
        y.1.cursor = x.1.cursor + data.length)
      (fun y => F.Tracks y ∧ y.1.cursor = x.1.cursor) (Seekable.readNext len x) := by
  rw [Seekable.readNext, Method.read_bind_apply]
  apply (h.call_readNext len).bind
  rintro data ⟨_, s'⟩ ⟨rfl, hbytes, htracks⟩
  exact ⟨hbytes, htracks, rfl⟩

theorem Forward.Tracks.reopen :
    Method.Meets (fun _ y => F.Tracks y ∧ y.1.cursor = 0)
      (fun y => F.Tracks y ∧ y.1.cursor = x.1.cursor) (Seekable.reopen x) := by
  have hclosed : F.place (I.close x.2 x.1.inner).2 x.1.inner = some x.1.cursor :=
    F.closes rfl h.place_eq
  have hpath := h.path_eq
  rw [Seekable.reopen, Method.read_bind_apply, Method.change_bind_apply]
  rcases hopen : I.openPath (I.close x.2 x.1.inner).2 x.1.path (x.1.flags &&& reopenMask) with
    ⟨e | handle, s'⟩
  · -- the closed handle stays in the record, and so does the cursor
    rw [Method.bind_of_refused (call_of_error hopen)]
    rw [hpath] at hopen
    exact ⟨⟨hpath, F.open_fails hopen hclosed, h.cursor_le⟩, rfl⟩
  · rw [Method.bind_of_returned (call_of_ok hopen)]
    rw [hpath] at hopen
    have hmask : x.1.flags &&& reopenMask &&& reopenMask = x.1.flags &&& reopenMask := by
      rw [UInt32.and_assoc, UInt32.and_self]
    exact ⟨⟨hpath, F.opens hmask hopen, Nat.zero_le _⟩, rfl⟩

/-- Where the cursor is after a skip to `offset`: there, or at the end of a file that ends
before. -/
def Reached (file : List UInt8) (offset : ℕ) (reached : Bool) (cursor : ℕ) : Prop :=
  if reached then cursor = offset else file.length < offset ∧ cursor = file.length

theorem Forward.Tracks.skip {offset rounds : ℕ} (hle : x.1.cursor ≤ offset)
    (hrounds : offset - x.1.cursor ≤ rounds) :
    Method.Meets (fun reached y => F.Tracks y ∧ Reached file offset reached y.1.cursor)
      (fun y => F.Tracks y ∧ y.1.cursor ≤ offset) (Seekable.skip offset rounds x) := by
  induction rounds generalizing x with
  | zero =>
    refine ⟨h, ?_⟩
    change x.1.cursor = offset
    omega
  | succ rounds ih =>
    rw [Seekable.skip, Method.read_bind_apply]
    split_ifs with hlt
    · apply ((h.call_readNext _).mono (fun _ _ hP => hP)
        fun y hQ => ⟨hQ.1, hQ.2.trans_le hle⟩).bind
      rintro data ⟨_, s'⟩ ⟨rfl, hbytes, htracks⟩
      have hwant : 0 < min (offset - x.1.cursor) skipChunk := by
        unfold skipChunk
        omega
      split_ifs with hempty
      · -- the stream is at its end, and `offset` is beyond it
        have hend := hbytes.at_end (List.length_eq_zero_iff.mp hempty)
        have hcursor := h.cursor_le
        rw [hempty] at htracks
        refine ⟨htracks, ?_⟩
        change file.length < offset ∧ x.1.cursor = file.length
        omega
      · have hlen := hbytes.length_le
        apply ih htracks
        · change x.1.cursor + data.length ≤ offset
          omega
        · change offset - (x.1.cursor + data.length) ≤ rounds
          omega
    · refine ⟨h, ?_⟩
      change x.1.cursor = offset
      omega

theorem Forward.Tracks.seekTo (offset : ℕ) :
    Method.Meets (fun reached y => F.Tracks y ∧ Reached file offset reached y.1.cursor)
      (fun y => F.Tracks y ∧ (y.1.cursor = x.1.cursor ∨ y.1.cursor ≤ offset))
      (Seekable.seekTo offset x) := by
  have hskip : ∀ y : OpenRec × I.State, F.Tracks y → y.1.cursor ≤ offset →
      Method.Meets (fun reached z => F.Tracks z ∧ Reached file offset reached z.1.cursor)
        (fun z => F.Tracks z ∧ (z.1.cursor = x.1.cursor ∨ z.1.cursor ≤ offset))
        (Seekable.skip offset (offset - y.1.cursor) y) := by
    intro y hy hle
    exact (hy.skip hle le_rfl).mono (fun _ _ hP => hP) fun z hQ => ⟨hQ.1, .inr hQ.2⟩
  rw [Seekable.seekTo, Method.read_bind_apply]
  split_ifs with hback
  · apply (h.reopen.mono (fun _ _ hP => hP) fun y hQ => ⟨hQ.1, .inl hQ.2⟩).bind
    rintro _ y ⟨hy, hcursor⟩
    exact hskip y hy (by omega)
  · exact hskip x h (by omega)

theorem Forward.Tracks.readAt (offset len : ℕ) :
    Method.Meets (fun data y => BytesAt file offset len data ∧ F.Tracks y ∧
        y.1.cursor = min (offset + data.length) file.length)
      (fun y => F.Tracks y ∧ (y.1.cursor = x.1.cursor ∨ y.1.cursor ≤ offset))
      (Seekable.readAt offset len x) := by
  rw [Seekable.readAt, Method.read_bind_apply, if_neg (not_not.mpr F.sequential)]
  apply (h.seekTo offset).bind
  rintro reached y ⟨hy, hreached⟩
  cases reached with
  | true =>
    have hcursor : y.1.cursor = offset := hreached
    apply (hy.readNext len).mono
    · rintro data z ⟨hbytes, hz, hmoved⟩
      have hle := hz.cursor_le
      rw [hcursor] at hbytes hmoved
      exact ⟨hbytes, hz, by omega⟩
    · rintro z ⟨hz, hsame⟩
      exact ⟨hz, .inr (by omega)⟩
  | false =>
    have hend : file.length < offset ∧ y.1.cursor = file.length := hreached
    refine ⟨⟨List.nil_prefix, Nat.zero_le _, fun _ => .inr hend.1.le⟩, hy, ?_⟩
    rw [List.length_nil]
    omega

/-- One call keeps the cursor at the place of the stream and answers as a file does that is read
at any place, its running position being the cursor. -/
theorem Forward.Tracks.body (c : Call) :
    F.Tracks (c.body x).2 ∧ Answers file x.1.cursor c (c.body x).1 (c.body x).2.1.cursor := by
  cases c with
  | readAt offset len =>
    apply (h.readAt offset len).elim
      (C := fun a y => F.Tracks y ∧ Answers file x.1.cursor (.readAt offset len) a y.1.cursor)
    · exact fun data y hP => ⟨hP.2.1, hP.1, hP.2.2⟩
    · exact fun e y hQ => hQ
  | readNext len =>
    apply (h.readNext len).elim
      (C := fun a y => F.Tracks y ∧ Answers file x.1.cursor (.readNext len) a y.1.cursor)
    · exact fun data y hP => ⟨hP.2.1, hP.1, hP.2.2⟩
    · exact fun e y hQ => hQ

theorem Forward.Tracks.conforms (calls : List Call) :
    Conforms file x.1.cursor calls (answers x calls) := by
  induction calls generalizing x with
  | nil => rfl
  | cons c cs ih =>
    obtain ⟨hnext, hanswer⟩ := h.body c
    exact ⟨_, _, _, rfl, hanswer, ih hnext⟩

end

end Tracking

/-- Whatever calls of the inner provider fail, every answer on an open file is right: bytes of the
file at the offset asked for, or at the running position. -/
theorem seekable_conforms {I : Inner} {path : VPath} {file : List UInt8} (F : Forward I path file)
    {s s' : I.State} {flags : UInt32} {r : OpenRec} (hopen : openFile s path flags = (.ok r, s'))
    (hstart : F.place s' r.inner = some 0) (calls : List Call) :
    Conforms file 0 calls (answers (r, s') calls) := by
  unfold openFile at hopen
  rcases hinner : I.openPath s path flags with ⟨e | handle, u⟩
  · rw [hinner] at hopen
    cases hopen
  · rw [hinner] at hopen
    cases hopen
    have htracks : F.Tracks (⟨handle, path, flags, 0⟩, s') := ⟨rfl, hstart, Nat.zero_le _⟩
    exact htracks.conforms calls

/-- A file of three bytes that is read one byte at a time. The state is the places of the streams,
with whether they are open, and which of the next opens fail. -/
def oneByOne : Inner where
  State := List (ℕ × Bool) × List Bool
  access := .seqRead
  openPath s _ _ :=
    if s.2.head? = some true then (.error .ioError, s.1, s.2.tail)
    else (.ok s.1.length, s.1 ++ [(0, true)], s.2.tail)
  close s h := (.ok (), s.1.modify h fun stream => (stream.1, false), s.2)
  readAt s _ _ _ := (.error .notSupported, s)
  readNext s h len :=
    match s.1[h]? with
    | some (n, true) =>
      let data : List UInt8 := ([1, 2, 3].drop n).take (min len 1)
      (.ok data, s.1.set h (n + data.length, true), s.2)
    | _ => (.error .badFh, s)

def oneByOneForward : Forward oneByOne [] [1, 2, 3] where
  place s h := s.1[h]?.map Prod.fst
  sequential := rfl
  opens := by
    intro s s' flags h _ hopen
    dsimp only [oneByOne] at hopen
    split_ifs at hopen
    · cases hopen
    · cases hopen
      rw [List.getElem?_concat_length]
      rfl
  open_fails := by
    intro s s' flags e h n hopen hplace
    dsimp only [oneByOne] at hopen
    split_ifs at hopen
    · cases hopen
      exact hplace
    · cases hopen
  closes := by
    intro s s' h n r hclose hplace
    cases hclose
    obtain ⟨stream, hget, rfl⟩ := Option.map_eq_some_iff.mp hplace
    rw [List.getElem?_modify_eq, hget]
    rfl
  reads := by
    intro s s' h n len data hplace hread
    obtain ⟨⟨n, isOpen⟩, hget, rfl⟩ := Option.map_eq_some_iff.mp hplace
    dsimp only [oneByOne] at hread
    rw [hget] at hread
    cases isOpen with
    | false => cases hread
    | true =>
      cases hread
      refine ⟨List.take_prefix _ _, ?_, ?_, ?_⟩
      · rw [List.length_take]
        omega
      · intro hempty
        have := congrArg List.length hempty
        simp only [List.length_take, List.length_drop, List.length_cons, List.length_nil] at this ⊢
        omega
      · rw [List.getElem?_set_self (List.getElem?_eq_some_iff.mp hget).1]
        rfl
  read_fails := by
    intro s s' h n len e hplace hread
    dsimp only [oneByOne] at hread
    split at hread
    · cases hread
    · cases hread
      exact hplace

/-- The reopen of the second call fails, so that the third finds the stream closed; the one of the
last succeeds. -/
theorem seekable_conforms_oneByOne :
    openFile (I := oneByOne) ([], [false, true]) [] 1 = (.ok ⟨0, [], 1, 0⟩, [(0, true)], [true]) ∧
    answers (I := oneByOne) (⟨0, [], 1, 0⟩, [(0, true)], [true])
        [.readAt 2 5, .readAt 0 5, .readNext 1, .readAt 0 2] =
      [.returned [3], .refused .ioError, .refused .badFh, .returned [1]] ∧
    Conforms [1, 2, 3] 0 [.readAt 2 5, .readAt 0 5, .readNext 1, .readAt 0 2]
      (answers (I := oneByOne) (⟨0, [], 1, 0⟩, [(0, true)], [true])
        [.readAt 2 5, .readAt 0 5, .readNext 1, .readAt 0 2]) :=
  ⟨rfl, rfl, seekable_conforms oneByOneForward (s := ([], [false, true])) (r := ⟨0, [], 1, 0⟩) rfl rfl _⟩

end AetherVfs.Compose.Seekable
