import AetherVfs.Lib.Bag

/-!
# One file of the read cache

The per-file half of `readcache/file.rs` and `readcache/config.rs`: names and
versions, slots, flights, and what `readcache/mod.rs` does to the state of one
file while it has that file locked. An `Entry` is the identity of an
`Arc<Entry>`: its allocation number and the name it was made with. A `Flight`
likewise carries what it was made for, which no one can change later. Counters
and diagnostics that nothing reads back are left out, and so is the clock:
whether a fetch is overdue is up to the environment.
-/

namespace AetherVfs.ReadCache

structure Name where
  root : ℕ
  path : List Char
deriving DecidableEq, Repr

structure Version where
  size : ℕ
  mountGen : ℕ
deriving DecidableEq, Repr

structure CacheConfig where
  block : ℕ
  maxRun : ℕ
  threshold : ℕ
  blocksPerFile : ℕ
  maxBytes : ℕ
  coldHitsPerMiss : ℕ
  coldCountsFirstFetch : Bool
  block_pos : 0 < block
  blocksPerFile_pos : 0 < blocksPerFile
  maxRun_pos : 0 < maxRun
  threshold_le : threshold ≤ block

def coldAfterMisses : ℕ := 16
def coldReads : ℕ := 4096
def coldMaxReads : ℕ := 2 ^ 16
def coldAfterFailedFetches : ℕ := 4
def pressureMemory : ℕ := 4096
def sweepMin : ℕ := 1024

structure Entry where
  serial : ℕ
  name : Name
deriving DecidableEq, Repr

structure FileRef where
  entry : Entry
  version : Option Version
deriving DecidableEq, Repr

/-- One fetch of the units `[base, stop)` of a version of a file. -/
structure Flight where
  serial : ℕ
  entry : Entry
  version : Version
  base : ℕ
  stop : ℕ
deriving DecidableEq, Repr

/-- What a finished fetch gives its waiters: the first unit and the run's bytes. -/
abbrev Fetched := Option (ℕ × List UInt8)

inductive SlotKind where
  | ready (data : List UInt8) (last lruKey : ℕ)
  | loading (flight : Flight)
deriving DecidableEq, Repr

structure Slot where
  idx : ℕ
  kind : SlotKind
deriving DecidableEq, Repr

namespace Slot

def bytes (s : Slot) : ℕ :=
  match s.kind with
  | .ready data _ _ => data.length
  | .loading _ => 0

/-- Tick of the last read that used a ready unit. -/
def last? (s : Slot) : Option ℕ :=
  match s.kind with
  | .ready _ last _ => some last
  | .loading _ => none

/-- Whether the slot waits for this very flight (`Arc::ptr_eq`). -/
def waitsFor (fl : Flight) (s : Slot) : Bool := decide (s.kind = .loading fl)

/-- Whether the slot is ready and filed in the LRU index under `key`. -/
def filedUnder (key : ℕ) (s : Slot) : Bool :=
  match s.kind with
  | .ready _ _ lruKey => decide (lruKey = key)
  | .loading _ => false

end Slot

structure State where
  poisoned : Bool := false
  version : Option Version := none
  slots : List Slot := []
  hits : ℕ := 0
  misses : ℕ := 0
  coldLeft : ℕ := 0
  coldNext : ℕ := 0
  failedFetches : ℕ := 0
  nextSeq : Option ℕ := none
  run : ℕ := 0
  pressureEvicted : Finset ℕ := ∅
  fetchedBefore : Finset ℕ := ∅

inductive Got where
  | hit
  | fetched (counts pressure : Bool)
  | waited
deriving DecidableEq, Repr

/-- How a read came by all of its units. -/
def Got.merge : Got → Got → Got
  | .fetched c₁ p₁, .fetched c₂ p₂ => .fetched (c₁ || c₂) (p₁ || p₂)
  | .fetched c p, _ => .fetched c p
  | _, .fetched c p => .fetched c p
  | .waited, _ => .waited
  | _, .waited => .waited
  | .hit, .hit => .hit

namespace State

def serves (st : State) (v : Version) : Bool := !st.poisoned && decide (st.version = some v)

def findIdx (st : State) (idx : ℕ) : Option Slot := st.slots.find? fun s => s.idx = idx

def touch (st : State) (idx tick : ℕ) : State :=
  { st with
    slots := Bag.updateFirst (fun s => s.idx = idx)
      (fun s => match s.kind with
        | .ready data _ lruKey => { s with kind := .ready data tick lruKey }
        | .loading _ => s) st.slots }

def dropFlight (st : State) (fl : Flight) : State :=
  { st with slots := st.slots.filter fun s => !s.waitsFor fl }

def goCold (st : State) : State :=
  let spell := if st.coldNext = 0 then coldReads else st.coldNext
  { st with
    coldLeft := spell
    coldNext := min (spell * 2) coldMaxReads
    failedFetches := 0
    nextSeq := none
    pressureEvicted := ∅ }

/-- The least recently read ready slot (`evict_in_file`'s choice). -/
def oldest (st : State) : Option Slot :=
  (st.slots.filter fun s => s.last?.isSome).argmin fun s => s.last?.getD 0

/-- `swap_remove` of a slot. The order of the slots is not observable: they are
only ever looked up by index, by flight or by the tick of their last read. -/
def remove (st : State) (s : Slot) : State := { st with slots := st.slots.erase s }

def runEnd (slots : List Slot) (units : ℕ) : ℕ → ℕ → ℕ
  | 0, stop => stop
  | n + 1, stop =>
    if stop < units ∧ slots.all (fun s => s.idx ≠ stop) then runEnd slots units n (stop + 1)
    else stop

theorem le_runEnd (slots : List Slot) (units n stop : ℕ) : stop ≤ runEnd slots units n stop := by
  induction n generalizing stop with
  | zero => exact le_rfl
  | succ n ih =>
    unfold runEnd
    split_ifs
    · exact (Nat.le_succ stop).trans (ih (stop + 1))
    · exact le_rfl

theorem runEnd_free {slots : List Slot} {units n stop : ℕ} {s : Slot} (hs : s ∈ slots)
    (hle : stop ≤ s.idx) : runEnd slots units n stop ≤ s.idx := by
  induction n generalizing stop with
  | zero => exact hle
  | succ n ih =>
    unfold runEnd
    split_ifs with h
    · apply ih
      have hne : s.idx ≠ stop := by simpa using List.all_eq_true.mp h.2 s hs
      omega
    · exact hle

/-- Install the loading slots of a flight, and remember where it ends. -/
def install (st : State) (cfg : CacheConfig) (fl : Flight) (run : ℕ) : State :=
  { st with
    nextSeq := some fl.stop
    run := min (run * 2) cfg.maxRun
    slots := st.slots ++
      (List.range' fl.base (fl.stop - fl.base)).map fun j => ⟨j, .loading fl⟩ }

def fill (st : State) (fl : Flight) (j : ℕ) (data : List UInt8) (tick : ℕ) : State :=
  { st with
    slots := Bag.updateFirst (fun s => s.idx = j && s.waitsFor fl)
      (fun s => { s with kind := .ready data tick tick }) st.slots }

/-- File the slot of unit `idx`, filed under `key`, under its last read instead. -/
def refile (st : State) (idx key last : ℕ) : State :=
  { st with
    slots := Bag.updateFirst (fun s => s.idx = idx && s.filedUnder key)
      (fun s => match s.kind with
        | .ready data l _ => { s with kind := .ready data l last }
        | .loading _ => s) st.slots }

/-- A unit the process-wide cap evicted is remembered, up to a limit. -/
def rememberPressure (st : State) (idx : ℕ) : State :=
  if st.pressureEvicted.card < pressureMemory then
    { st with pressureEvicted := insert idx st.pressureEvicted }
  else st

end State

end AetherVfs.ReadCache
