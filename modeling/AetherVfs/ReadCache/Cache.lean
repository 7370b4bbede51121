import AetherVfs.Lib.Transition
import AetherVfs.Lib.Window
import AetherVfs.ReadCache.File

/-!
# The read cache and its threads

`readcache/mod.rs` under any interleaving. A step of a thread is one access to
something several threads share without a common lock: the LRU index, the byte
count, the tick counter, a flight, the file table. What a thread does to a
file while it has it locked, and nobody else can see, goes with the access
next to it. A file that stays locked over several accesses stays locked over
several steps.

The bytes a version of a file has are a parameter, `content`; a fetch that
comes back with all it was asked for returns them. Which fetches fail, which
readers give up waiting and which idle files a sweep finds in use are choices
of the environment. `served` and `invalidated` are histories that no step
reads.
-/

namespace AetherVfs.ReadCache

open Window (window)

/-- A call of `read` in progress: `buf` is what it has copied so far. -/
structure Read where
  entry : Entry
  version : Version
  off : ℕ
  asked : ℕ
  len : ℕ
  idx : ℕ
  buf : List UInt8
  how : Got
  began : ℕ
deriving DecidableEq, Repr

/-- A call of `miss` that has not installed its loading slots yet. -/
structure Miss where
  read : Read
  stop : ℕ
  run : ℕ
  counts : Bool
  pressure : Bool
deriving DecidableEq, Repr

structure Load where
  read : Read
  flight : Flight
  counts : Bool
  pressure : Bool
deriving DecidableEq, Repr

structure Registration where
  name : Name
  version : Version
  immutable : Bool
  write : Bool
deriving DecidableEq, Repr

/-- What was declared changed: the file of a handle, or a path and all below it. -/
inductive Invalidation where
  | file (name : Name)
  | path (root : ℕ) (path : List Char)
deriving DecidableEq, Repr

/-- Who poisons a file, and what it still has to do. -/
inductive Poisoner where
  | register
  | invalidate
  | path (root : ℕ) (path : List Char) (rest : List Entry)
deriving DecidableEq, Repr

inductive Why where
  | poison (k : Poisoner)
  | version (v : Version)
  | failed (l : Load)
  | judged (r : Read)
deriving DecidableEq, Repr

inductive Pc where
  | idle
  | registerTable (a : Registration)
  | registerFile (e : Entry) (a : Registration)
  | invalidate (e : Entry)
  | pathTable (root : ℕ) (path : List Char)
  | pathFiles (root : ℕ) (path : List Char) (hit : List Entry)
  | clear (e : Entry) (why : Why)
  | clearGive (e : Entry) (why : Why) (n : ℕ)
  | read (r : Read)
  | unit (r : Read)
  | unitStale (r : Read) (fl : Flight)
  | wait (r : Read) (fl : Flight)
  | waitDrop (r : Read) (fl : Flight)
  | waitCancel (r : Read) (fl : Flight)
  | missRoom (m : Miss)
  | missGive (m : Miss) (n : ℕ)
  | reserve (l : Load)
  | reserveCas (l : Load) (cur : ℕ)
  | evictPop (l : Load)
  | evictFile (l : Load) (key : ℕ) (e : Entry) (idx : ℕ)
  | fetch (l : Load)
  | fetchFailed (l : Load)
  | loadFile (l : Load) (run : List UInt8)
  | loadSlot (l : Load) (run : List UInt8) (j installed : ℕ) (first : Option (List UInt8))
  | loadLru (l : Load) (run : List UInt8) (j installed : ℕ) (first : Option (List UInt8))
      (tick : ℕ)
  | loadGive (l : Load) (run : List UInt8) (installed : ℕ) (first : Option (List UInt8))
  | loadComplete (l : Load) (run data : List UInt8)
  | guardGive (l : Load)
  | guardDrop (l : Load)
  | guardCancel (l : Load)
  | judge (r : Read)
deriving DecidableEq, Repr

structure Served where
  name : Name
  version : Version
  off : ℕ
  asked : ℕ
  bytes : List UInt8
  how : Got
  began : ℕ
deriving DecidableEq, Repr

structure Finished where
  what : Invalidation
  clock : ℕ
deriving DecidableEq, Repr

structure Cache where
  state : Entry → State := fun _ => {}
  locked : Entry → Bool := fun _ => false
  table : List Entry := []
  tableLocked : Bool := false
  sweepAt : ℕ := sweepMin
  nextEntry : ℕ := 0
  lru : List (ℕ × Entry × ℕ) := []
  used : ℕ := 0
  tick : ℕ := 1
  done : Flight → Option Fetched := fun _ => none
  nextFlight : ℕ := 0
  refs : List FileRef := []
  clock : ℕ := 0
  served : List Served := []
  invalidated : List Finished := []

namespace Cache

@[simps -fullyApplied]
def lock (c : Cache) (e : Entry) : Cache :=
  { c with locked := Function.update c.locked e true }

@[simps -fullyApplied]
def unlock (c : Cache) (e : Entry) : Cache :=
  { c with locked := Function.update c.locked e false }

@[simps -fullyApplied]
def modify (c : Cache) (e : Entry) (f : State → State) : Cache :=
  { c with state := Function.update c.state e (f (c.state e)) }

/-- `Flight::complete`: the first completion wins. -/
@[simps -fullyApplied]
def complete (c : Cache) (fl : Flight) (v : Fetched) : Cache :=
  { c with done := Function.update c.done fl ((c.done fl).or (some v)) }

@[simps -fullyApplied]
def give (c : Cache) (n : ℕ) : Cache := { c with used := c.used - n }

@[simps -fullyApplied]
def draw (c : Cache) : Cache := { c with tick := c.tick + 1 }

@[simps -fullyApplied]
def unfile (c : Cache) (key : ℕ) : Cache :=
  { c with lru := c.lru.filter fun x => x.1 ≠ key }

@[simps -fullyApplied]
def file (c : Cache) (key : ℕ) (e : Entry) (idx : ℕ) : Cache :=
  { c with lru := (key, e, idx) :: c.lru.filter fun x => x.1 ≠ key }

@[simps -fullyApplied]
def addRef (c : Cache) (r : FileRef) : Cache := { c with refs := r :: c.refs }

/-- The successful exchange of `reserve`. -/
@[simps -fullyApplied]
def take (c : Cache) (n : ℕ) : Cache := { c with used := c.used + n }

@[simps -fullyApplied]
def newFlight (c : Cache) : Cache := { c with nextFlight := c.nextFlight + 1 }

@[simps -fullyApplied]
def setTableLocked (c : Cache) (b : Bool) : Cache := { c with tableLocked := b }

@[simps -fullyApplied]
def logServed (c : Cache) (r : Read) : Cache :=
  { c with
    served := ⟨r.entry.name, r.version, r.off, r.asked, r.buf, r.how, r.began⟩ :: c.served }

@[simps -fullyApplied]
def logFinished (c : Cache) (what : Invalidation) : Cache :=
  { c with invalidated := ⟨what, c.clock⟩ :: c.invalidated }

/-- A new entry of the file table. -/
@[simps -fullyApplied]
def addEntry (c : Cache) (e : Entry) (st : State) : Cache :=
  { c with
    table := e :: c.table
    nextEntry := c.nextEntry + 1
    state := Function.update c.state e st
    locked := Function.update c.locked e false }

def registered (c : Cache) (e : Entry) (v : Option Version) : Cache × Pc :=
  (c.addRef ⟨e, v⟩, .idle)

def finished (c : Cache) (what : Invalidation) : Cache × Pc :=
  (c.logFinished what, .idle)

def answered (c : Cache) (r : Read) : Cache × Pc :=
  (c.logServed r, .idle)

/-- `sweep`: drop the entries nothing uses. -/
@[simps -fullyApplied]
def sweep (c : Cache) (inUse : Entry → Bool) : Cache :=
  let table := c.table.filter fun e =>
    inUse e || c.locked e || (c.state e).poisoned || !(c.state e).slots.isEmpty
  { c with table := table, sweepAt := max (table.length * 2) sweepMin }

end Cache

structure Env where
  overdue : Bool := false
  fetch : Option Bool := some true
  keep : Entry → Bool := fun _ => false

/-- `path` is `p` or lies under it, by whole components. -/
def under (p path : List Char) : Bool :=
  path = p || (p.length < path.length && p.isPrefixOf path && path[p.length]? = some '/')

/-- An empty path or a dot is the whole root. -/
def wholeRoot (p : List Char) : Bool := p = [] || p = ['.']

def trimSlashes (p : List Char) : List Char :=
  ((p.dropWhile (· = '/')).reverse.dropWhile (· = '/')).reverse

namespace Read

variable (cfg : CacheConfig)

def lastIdx (r : Read) : ℕ := (r.off + r.len - 1) / cfg.block

def copy (r : Read) (data : List UInt8) (got : Got) : Read :=
  let start := r.off + r.buf.length - r.idx * cfg.block
  { r with
    buf := r.buf ++ (data.drop start).take (r.len - r.buf.length)
    how := r.how.merge got }

/-- `read` goes on to its next unit, or on to `judge` after the last one. -/
def next (r : Read) (data : List UInt8) (got : Got) : Pc :=
  let r' := r.copy cfg data got
  if r.idx = r.lastIdx cfg then .judge r' else .unit { r' with idx := r.idx + 1 }

end Read

namespace Load

variable (cfg : CacheConfig)

def start (l : Load) : ℕ := l.flight.base * cfg.block

def want (l : Load) : ℕ := min (l.flight.stop * cfg.block) l.read.version.size - l.start cfg

def unitOf (l : Load) (run : List UInt8) (j : ℕ) : List UInt8 :=
  (run.drop ((j - l.flight.base) * cfg.block)).take cfg.block

end Load

namespace Miss

/-- The start of `miss`: what it learns from the file's state, and the state it leaves. -/
def begin (cfg : CacheConfig) (st : State) (r : Read) : State × Miss :=
  let pressure := decide (r.idx ∈ st.pressureEvicted)
  let refetch := decide (r.idx ∈ st.fetchedBefore)
  let run := if st.nextSeq = some r.idx then max st.run 1 else 1
  let units := (r.version.size + cfg.block - 1) / cfg.block
  ({ st with
      pressureEvicted := st.pressureEvicted.erase r.idx
      fetchedBefore := if pressure then st.fetchedBefore else insert r.idx st.fetchedBefore },
    { read := r
      stop := State.runEnd st.slots units (run - 1) (r.idx + 1)
      run := run
      counts := !pressure && (refetch || cfg.coldCountsFirstFetch)
      pressure := pressure })

end Miss

namespace Cache

variable (cfg : CacheConfig) (content : Name → Version → ℕ → UInt8) (env : Env)

/-! `register`, `invalidate`, `invalidate_path` and the clearing of slots. -/

def registerTable (inUse : Entry → Bool) (c : Cache) (a : Registration) : Cache × Pc :=
  if c.tableLocked then (c, .registerTable a) else
  let c' := if c.sweepAt ≤ c.table.length then c.sweep fun e => inUse e || env.keep e else c
  match c'.table.find? fun e => e.name = a.name with
  | some e => (c', .registerFile e a)
  | none =>
    let e : Entry := ⟨c'.nextEntry, a.name⟩
    (c'.addEntry e {}, .registerFile e a)

def poison (c : Cache) (e : Entry) (k : Poisoner) : Cache × Pc :=
  ((c.lock e).modify e fun st => { st with poisoned := true }, .clear e (.poison k))

def registerFile (c : Cache) (e : Entry) (a : Registration) : Cache × Pc :=
  if c.locked e then (c, .registerFile e a)
  else if a.write || !a.immutable then c.poison e .register
  else if (c.state e).poisoned then c.registered e none
  else if (c.state e).version ≠ some a.version then (c.lock e, .clear e (.version a.version))
  else c.registered e (some a.version)

def invalidate (c : Cache) (e : Entry) : Cache × Pc :=
  if c.locked e then (c, .invalidate e) else c.poison e .invalidate

/-- `invalidate_path` takes the lock of the file table and keeps it to the end. -/
def pathTable (c : Cache) (root : ℕ) (path : List Char) : Cache × Pc :=
  if c.tableLocked then (c, .pathTable root path) else
  let hit := c.table.filter fun e =>
    e.name.root = root && (wholeRoot path || under path e.name.path)
  let c' := c.setTableLocked true
  if wholeRoot path || c.table.any (fun e => e.name = ⟨root, path⟩) then
    (c', .pathFiles root path hit)
  else
    (c'.addEntry ⟨c.nextEntry, ⟨root, path⟩⟩ { poisoned := true }, .pathFiles root path hit)

def pathFiles (c : Cache) (root : ℕ) (path : List Char) : List Entry → Cache × Pc
  | [] => (c.setTableLocked false).finished (.path root path)
  | e :: rest =>
    if c.locked e then (c, .pathFiles root path (e :: rest))
    else c.poison e (.path root path rest)

def cleared (c : Cache) (e : Entry) : Why → Cache × Pc
  | .poison k =>
    let c' := (c.modify e fun st => { st with pressureEvicted := ∅, version := none }).unlock e
    match k with
    | .register => c'.registered e none
    | .invalidate => c'.finished (.file e.name)
    | .path root path rest => (c', .pathFiles root path rest)
  | .version v =>
    Cache.registered ((c.modify e fun st => { st with
      pressureEvicted := ∅, fetchedBefore := ∅, nextSeq := none, version := some v }).unlock e)
      e (some v)
  | .failed l => (c.unlock e, .guardGive l)
  | .judged r =>
    Cache.answered ((c.modify e fun st => { st with hits := 0, misses := 0 }).unlock e) r

def clear (c : Cache) (e : Entry) (why : Why) : Cache × Pc :=
  match (c.state e).slots with
  | [] => c.cleared e why
  | ⟨_, .ready data _ lruKey⟩ :: rest =>
    ((c.modify e fun st => { st with slots := rest }).unfile lruKey,
      .clearGive e why data.length)
  | ⟨_, .loading fl⟩ :: rest =>
    ((c.modify e fun st => { st with slots := rest }).complete fl none, .clear e why)

/-! `read`, `unit` and `judge`. -/

def read (c : Cache) (r : Read) : Cache × Pc :=
  if c.locked r.entry then (c, .read r)
  else if !(c.state r.entry).serves r.version then (c, .idle)
  else if 0 < (c.state r.entry).coldLeft then
    (c.modify r.entry fun st => { st with coldLeft := st.coldLeft - 1 }, .idle)
  else (c, .unit r)

def unit (c : Cache) (r : Read) : Cache × Pc :=
  if c.locked r.entry then (c, .unit r)
  else if !(c.state r.entry).serves r.version then (c, .idle)
  else match (c.state r.entry).findIdx r.idx with
  | some ⟨_, .ready data _ _⟩ =>
    (c.draw.modify r.entry fun st => st.touch r.idx c.tick, r.next cfg data .hit)
  | some ⟨_, .loading fl⟩ =>
    if env.overdue then
      ((c.draw.lock r.entry).modify r.entry fun st => st.dropFlight fl, .unitStale r fl)
    else (c.draw, .wait r fl)
  | none =>
    let b := Miss.begin cfg (c.state r.entry) r
    ((c.draw.lock r.entry).modify r.entry fun _ => b.1, .missRoom b.2)

def unitStale (c : Cache) (r : Read) (fl : Flight) : Cache × Pc :=
  ((c.complete fl none).unlock r.entry, .unit r)

def wait (c : Cache) (r : Read) (fl : Flight) : Cache × Pc :=
  match c.done fl with
  | some (some (base, run)) =>
    (c, r.next cfg ((run.drop ((r.idx - base) * cfg.block)).take cfg.block) .waited)
  | some none => (c, .idle)
  | none => if env.overdue then (c, .waitDrop r fl) else (c, .wait r fl)

def waitDrop (c : Cache) (r : Read) (fl : Flight) : Cache × Pc :=
  if c.locked r.entry then (c, .waitDrop r fl)
  else (c.modify r.entry fun st => st.dropFlight fl, .waitCancel r fl)

def judge (c : Cache) (r : Read) : Cache × Pc :=
  if c.locked r.entry then (c, .judge r) else
  match r.how with
  | .hit =>
    (c.modify r.entry fun st => { st with hits := min (st.hits + 1) (2 ^ 32 - 1) }).answered r
  | .waited | .fetched _ true | .fetched false _ => c.answered r
  | .fetched true false =>
    let c' := c.modify r.entry fun st => { st with misses := st.misses + 1 }
    let st := c'.state r.entry
    if st.misses < coldAfterMisses then c'.answered r
    else if st.hits < st.misses * cfg.coldHitsPerMiss then
      ((c'.lock r.entry).modify r.entry State.goCold, .clear r.entry (.judged r))
    else (c'.modify r.entry fun st => { st with hits := 0, misses := 0 }).answered r

/-! `miss`, `load`, `reserve`, `evict_oldest` and the guard of a load. -/

/-- `miss` has room for the units up to `stop`: it installs their slots and unlocks the file. -/
def startLoad (c : Cache) (m : Miss) (stop : ℕ) : Cache × Pc :=
  let r := m.read
  let fl : Flight := ⟨c.nextFlight, r.entry, r.version, r.idx, stop⟩
  let c' := (c.modify r.entry fun st => st.install cfg fl m.run).unlock r.entry
  (c'.newFlight, .reserve ⟨r, fl, m.counts, m.pressure⟩)

/-- `miss` makes room in the file, from its own least recently used units. -/
def missRoom (c : Cache) (m : Miss) : Cache × Pc :=
  let st := c.state m.read.entry
  if st.slots.length + (m.stop - m.read.idx) ≤ cfg.blocksPerFile then c.startLoad cfg m m.stop
  else match st.oldest with
  | some ⟨idx, .ready data last lruKey⟩ =>
    ((c.modify m.read.entry fun st => st.remove ⟨idx, .ready data last lruKey⟩).unfile lruKey,
      .missGive m data.length)
  | _ =>
    if st.slots.length < cfg.blocksPerFile then
      c.startLoad cfg m (m.read.idx + (cfg.blocksPerFile - st.slots.length))
    else (c.unlock m.read.entry, .idle)

def reserve (c : Cache) (l : Load) : Cache × Pc :=
  if cfg.maxBytes < l.want cfg then (c, .guardDrop l)
  else if c.used + l.want cfg ≤ cfg.maxBytes then (c, .reserveCas l c.used)
  else (c, .evictPop l)

def reserveCas (c : Cache) (l : Load) (cur : ℕ) : Cache × Pc :=
  if c.used = cur then (c.take (l.want cfg), .fetch l) else (c, .reserve l)

def evictPop (c : Cache) (l : Load) : Cache × Pc :=
  match c.lru.argmin Prod.fst with
  | none => (c, .guardDrop l)
  | some (key, e, idx) => (c.unfile key, .evictFile l key e idx)

/-- The entry of the popped unit can still be reached exactly as long as it is in the table. -/
def evictFile (c : Cache) (l : Load) (key : ℕ) (e : Entry) (idx : ℕ) : Cache × Pc :=
  if e ∉ c.table then (c, .evictPop l)
  else if c.locked e then (c, .evictFile l key e idx)
  else match (c.state e).slots.find? fun s => s.idx = idx && s.filedUnder key with
  | some ⟨j, .ready data last lruKey⟩ =>
    if key < last then
      ((c.modify e fun st => st.refile idx key last).file last e idx, .evictPop l)
    else
      ((c.modify e fun st =>
        (st.remove ⟨j, .ready data last lruKey⟩).rememberPressure idx).give data.length,
        .reserve l)
  | _ => (c, .evictPop l)

/-- The call of `fetch`: it returns the bytes, fails or falls short, or unwinds. -/
def fetch (c : Cache) (l : Load) : Cache × Pc :=
  match env.fetch with
  | some true =>
    (c, .loadFile l (window (content l.read.entry.name l.read.version) (l.start cfg)
      (l.want cfg)))
  | some false => (c, .fetchFailed l)
  | none => (c, .guardGive l)

def fetchFailed (c : Cache) (l : Load) : Cache × Pc :=
  let e := l.read.entry
  if c.locked e then (c, .fetchFailed l) else
  let c' := c.modify e fun st => { st with failedFetches := st.failedFetches + 1 }
  if coldAfterFailedFetches ≤ (c'.state e).failedFetches ∧ (c'.state e).coldLeft = 0 then
    ((c'.lock e).modify e State.goCold, .clear e (.failed l))
  else (c', .guardGive l)

def loadFile (c : Cache) (l : Load) (run : List UInt8) : Cache × Pc :=
  if c.locked l.read.entry then (c, .loadFile l run)
  else if !(c.state l.read.entry).serves l.read.version then (c, .guardGive l)
  else (c.lock l.read.entry, .loadSlot l run l.flight.base 0 none)

def loadSlot (c : Cache) (l : Load) (run : List UInt8) (j installed : ℕ)
    (first : Option (List UInt8)) : Cache × Pc :=
  if l.flight.stop ≤ j then (c, .loadGive l run installed first)
  else match (c.state l.read.entry).slots.find? fun s => s.idx = j && s.waitsFor l.flight with
  | none => (c, .loadSlot l run (j + 1) installed first)
  | some _ =>
    (c.draw.modify l.read.entry fun st => st.fill l.flight j (l.unitOf cfg run j) c.tick,
      .loadLru l run j installed first c.tick)

def loadLru (c : Cache) (l : Load) (run : List UInt8) (j installed : ℕ)
    (first : Option (List UInt8)) (tick : ℕ) : Cache × Pc :=
  (c.file tick l.read.entry j,
    .loadSlot l run (j + 1) (installed + (l.unitOf cfg run j).length)
      (if j = l.flight.base then some (l.unitOf cfg run j) else first))

def loadGive (c : Cache) (l : Load) (run : List UInt8) (installed : ℕ)
    (first : Option (List UInt8)) : Cache × Pc :=
  ((c.give (l.want cfg - installed)).unlock l.read.entry,
    match first with
    | none => .guardDrop l
    | some data => .loadComplete l run data)

def loadComplete (c : Cache) (l : Load) (run data : List UInt8) : Cache × Pc :=
  (c.complete l.flight (some (l.flight.base, run)),
    l.read.next cfg data (.fetched l.counts l.pressure))

def guardDrop (c : Cache) (l : Load) : Cache × Pc :=
  if c.locked l.read.entry then (c, .guardDrop l)
  else (c.modify l.read.entry fun st => st.dropFlight l.flight, .guardCancel l)

def step (inUse : Entry → Bool) (c : Cache) : Pc → Cache × Pc
  | .idle => (c, .idle)
  | .registerTable a => c.registerTable env inUse a
  | .registerFile e a => c.registerFile e a
  | .invalidate e => c.invalidate e
  | .pathTable root path => c.pathTable root path
  | .pathFiles root path hit => c.pathFiles root path hit
  | .clear e why => c.clear e why
  | .clearGive e why n => (c.give n, .clear e why)
  | .read r => c.read r
  | .unit r => c.unit cfg env r
  | .unitStale r fl => c.unitStale r fl
  | .wait r fl => c.wait cfg env r fl
  | .waitDrop r fl => c.waitDrop r fl
  | .waitCancel _ fl => (c.complete fl none, .idle)
  | .missRoom m => c.missRoom cfg m
  | .missGive m n => (c.give n, .missRoom m)
  | .reserve l => c.reserve cfg l
  | .reserveCas l cur => c.reserveCas cfg l cur
  | .evictPop l => c.evictPop l
  | .evictFile l key e idx => c.evictFile l key e idx
  | .fetch l => c.fetch cfg content env l
  | .fetchFailed l => c.fetchFailed l
  | .loadFile l run => c.loadFile l run
  | .loadSlot l run j installed first => c.loadSlot cfg l run j installed first
  | .loadLru l run j installed first tick => c.loadLru cfg l run j installed first tick
  | .loadGive l run installed first => c.loadGive cfg l run installed first
  | .loadComplete l run data => c.loadComplete cfg l run data
  | .guardGive l => (c.give (l.want cfg), .guardDrop l)
  | .guardDrop l => c.guardDrop l
  | .guardCancel l => (c.complete l.flight none, .idle)
  | .judge r => c.judge cfg r

end Cache

/-- The entries a waiting poisoner keeps alive. -/
def Poisoner.arcs : Poisoner → List Entry
  | .path _ _ rest => rest
  | _ => []

def Why.arcs : Why → List Entry
  | .poison k => k.arcs
  | .version _ => []
  | .failed l => [l.read.entry]
  | .judged r => [r.entry]

/-- The entries a thread keeps alive: those it holds an `Arc` of, or borrows a handle of.
The unit an eviction popped comes with a weak reference only. -/
def Pc.arcs : Pc → List Entry
  | .idle | .registerTable _ | .pathTable _ _ => []
  | .registerFile e _ | .invalidate e => [e]
  | .pathFiles _ _ hit => hit
  | .clear e why | .clearGive e why _ => e :: why.arcs
  | .read r | .unit r | .unitStale r _ | .wait r _ | .waitDrop r _ | .waitCancel r _
  | .judge r => [r.entry]
  | .missRoom m | .missGive m _ => [m.read.entry]
  | .reserve l | .reserveCas l _ | .evictPop l | .evictFile l _ _ _ | .fetch l
  | .fetchFailed l | .loadFile l _ | .loadSlot l _ _ _ _ | .loadLru l _ _ _ _ _
  | .loadGive l _ _ _ | .loadComplete l _ _ | .guardGive l | .guardDrop l
  | .guardCancel l => [l.read.entry]

structure System (ι : Type*) where
  cache : Cache
  pc : ι → Pc

inductive Event (ι : Type*) where
  | register (i : ι) (a : Registration)
  | invalidate (i : ι) (f : FileRef)
  | invalidatePath (i : ι) (root : ℕ) (path : List Char)
  | read (i : ι) (f : FileRef) (off asked : ℕ)
  | cloneRef (f : FileRef)
  | dropRef (f : FileRef)
  | step (i : ι) (env : Env)

namespace System

variable {ι : Type*}

def new : System ι := ⟨{}, fun _ => .idle⟩

variable [DecidableEq ι]

def call (σ : System ι) (i : ι) (pc : Pc) : System ι :=
  { σ with pc := Function.update σ.pc i pc }

variable [Fintype ι] (cfg : CacheConfig) (content : Name → Version → ℕ → UInt8)

/-- Whether something besides the file table holds `e` (`Arc::strong_count(e) > 1`). -/
def inUse (σ : System ι) (e : Entry) : Bool :=
  σ.cache.refs.any (fun f => f.entry = e) || decide (∃ i, e ∈ (σ.pc i).arcs)

def beginRead (σ : System ι) (i : ι) (f : FileRef) (off asked : ℕ) : System ι :=
  match f.version with
  | none => σ
  | some v =>
    if 0 < asked ∧ asked < cfg.threshold ∧ off < v.size then
      σ.call i (.read
        { entry := f.entry
          version := v
          off := off
          asked := asked
          len := min asked (v.size - off)
          idx := off / cfg.block
          buf := []
          how := .hit
          began := σ.cache.clock })
    else σ

def act (σ : System ι) : Event ι → System ι
  | .register i a => if σ.pc i = .idle then σ.call i (.registerTable a) else σ
  | .invalidate i f =>
    if σ.pc i = .idle ∧ f ∈ σ.cache.refs then σ.call i (.invalidate f.entry) else σ
  | .invalidatePath i root path =>
    if σ.pc i = .idle then σ.call i (.pathTable root (trimSlashes path)) else σ
  | .read i f off asked =>
    if σ.pc i = .idle ∧ f ∈ σ.cache.refs then σ.beginRead cfg i f off asked else σ
  | .cloneRef f => if f ∈ σ.cache.refs then { σ with cache := σ.cache.addRef f } else σ
  | .dropRef f => { σ with cache := { σ.cache with refs := σ.cache.refs.erase f } }
  | .step i env =>
    let out := Cache.step cfg content env σ.inUse σ.cache (σ.pc i)
    { cache := out.1, pc := Function.update σ.pc i out.2 }

/-- Every event takes one tick of the history's clock. -/
def step (σ : System ι) (ev : Event ι) : System ι :=
  let σ' := σ.act cfg content ev
  { σ' with cache := { σ'.cache with clock := σ'.cache.clock + 1 } }

def run (es : List (Event ι)) : System ι := Transition.run (step cfg content) new es

end System

end AetherVfs.ReadCache
