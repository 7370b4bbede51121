import AetherVfs.Registry.Changed

/-!
# The registry client and its cache

`RegClient` of `vfs-shim/src/regclient.rs` keeps the director's answers to `REG_LOOKUP` and
`REG_KEY` under the registry generation it read before it asked, and the director
(`RegistryGeneration` and `RegistryHost::mutate` of `vfs-director/src/registry.rs`) moves the
generation after it has applied a write and before it replies to it.

Any number of client processes, each with threads of its own and one cache, map the headers of
the director's rings; any number of director threads apply writes. What is done under one lock
acquisition, or by one atomic operation, is one event.
-/

namespace AetherVfs.Registry

/-- A read that is answered from the cache or by the director. -/
inductive Query where
  | lookup (path : Path)
  | key (path : Path)

inductive Answer where
  | lookup (r : Lookup × Bool)
  | key (n : Option Node)

namespace Director

variable [ToLowercase]

def dots : List Str := [['.'], ['.', '.']]

def hive (name : Str) : Str :=
  if fold name = ['m', 'a', 'c', 'h', 'i', 'n', 'e'] then ['M', 'a', 'c', 'h', 'i', 'n', 'e']
  else if fold name = ['u', 's', 'e', 'r'] then ['U', 's', 'e', 'r']
  else name

def canonical (p : Path) : Option Path :=
  match p.filter fun n => n ≠ [] with
  | [] => none
  | r :: rest =>
    if p.head? = some [] ∧ fold r = registry then
      some ([] :: ['R', 'e', 'g', 'i', 's', 't', 'r', 'y'] :: rest.modifyHead hive)
    else none

/-- `valid_path`: the canonical form gives the path back up to case, with no dots in it. -/
def validPath (p : Path) : Bool :=
  match canonical p with
  | some c => foldPath c = foldPath p && !p.any fun n => n ∈ dots
  | none => false

/-- `lookup` and `key`: the director's answer with the overlay as it is, if it has one. -/
def answer (o : Overlay) : Query → Option Answer
  | .lookup p => if validPath p then some (.lookup (o.lookup p)) else none
  | .key p => if validPath p then some (.key (o.node p)) else none

def mutate (o : Overlay) (c : Overlay.Call) : Option (ℕ × Overlay) :=
  if validPath (pieces c.path) then
    match c.act with
    | .renameKey newLeaf => if newLeaf ∈ dots then none else (o.call c.op).toOption
    | _ => (o.call c.op).toOption
  else none

end Director

/-! ## The cache of one process -/

def cacheEntries : ℕ := 4096

def insertBounded {ν : Type} (m : Table Path ν) (k : Path) (v : ν) : Table Path ν :=
  (if cacheEntries ≤ m.keys.length then ∅ else m).insert k v

structure Cache where
  generation : ℕ
  lookups : Table Path (Lookup × Bool)
  keys : Table Path (Option Node)

namespace Cache

def empty : Cache := ⟨0, ∅, ∅⟩

/-- What `at` leaves: a newer generation starts over. -/
def reach (c : Cache) (generation : ℕ) : Cache :=
  if c.generation < generation then ⟨generation, ∅, ∅⟩ else c

/-- What `at` returns: the entries are answers for that generation. -/
def isAt (c : Cache) (generation : ℕ) : Bool := generation = (c.reach generation).generation

variable [ToLowercase]

def get (c : Cache) : Query → Option Answer
  | .lookup p => (c.lookups.lookup (foldPath p)).map Answer.lookup
  | .key p => (c.keys.lookup (foldPath p)).map Answer.key

def insert (c : Cache) : Query → Answer → Cache
  | .lookup p, .lookup r => { c with lookups := insertBounded c.lookups (foldPath p) r }
  | .key p, .key n => { c with keys := insertBounded c.keys (foldPath p) n }
  | _, _ => c

end Cache

/-! ## Clients and director -/

namespace Session

/-- Where a thread of a client stands in `cached` (or in `with_key`, which goes the same way and
hands the answer to its argument), with the writes that had been replied to when it began. -/
inductive Reader where
  | idle
  | begun (q : Query) (before : List ℕ)
  /-- It has read the generation. -/
  | loaded (q : Query) (before : List ℕ) (generation : ℕ)
  /-- The cache had nothing; it asks the director. -/
  | asking (q : Query) (before : List ℕ) (generation : ℕ)
  /-- It has an answer that is not in the cache yet. -/
  | fetched (q : Query) (before : List ℕ) (generation : ℕ) (a : Answer)
  | returned (q : Query) (before : List ℕ) (a : Option Answer)

/-- Where a director thread stands in `mutate`, with the version of its write. -/
inductive Worker (ρ : Type) where
  | idle
  /-- The write is applied and the overlay unlocked. -/
  | applied (v : ℕ)
  /-- `changed`, with the sinks locked. -/
  | bumping (v : ℕ)
  /-- Publishing a generation, with the sinks still to come. -/
  | publishing (v generation : ℕ) (rest : List ρ)
  /-- The sinks are unlocked; the reply comes next. -/
  | replying (v : ℕ)

/-- `γ` names the client processes, `τ` their threads, `ρ` the rings and `δ` the director's
threads. -/
structure State (γ τ ρ δ : Type) where
  overlay : Overlay
  generation : ℕ
  sinks : List ρ
  /-- Who holds the lock of the sinks. -/
  lock : Option δ
  /-- The generation in the header of a ring. -/
  header : ρ → ℕ
  caches : γ → Cache
  readers : τ → Reader
  workers : δ → Worker ρ
  -- What follows is the history of the run; the code does not have it.
  /-- Every overlay there has been. -/
  past : List Overlay
  /-- Every generation that stands for a write, with the version of the write. -/
  log : List (ℕ × ℕ)
  /-- The versions of the writes that were replied to. -/
  replied : List ℕ

inductive Event (τ ρ δ : Type) where
  /-- A director thread takes up a write. -/
  | write (i : δ) (c : Overlay.Call)
  /-- A director thread takes its next step. -/
  | work (i : δ)
  /-- `add_sink`: a ring is served. -/
  | serve (r : ρ)
  /-- A client thread begins a read. -/
  | call (t : τ) (q : Query)
  /-- A client thread takes its next step; a request may fail. -/
  | read (t : τ) (ok : Bool)

namespace State

variable {γ τ ρ δ : Type}

def start (o : Overlay) : State γ τ ρ δ where
  overlay := o
  generation := 1
  sinks := []
  lock := none
  header := fun _ => 0
  caches := fun _ => Cache.empty
  readers := fun _ => .idle
  workers := fun _ => .idle
  past := [o]
  log := []
  replied := []

variable [DecidableEq γ] [DecidableEq τ] [DecidableEq ρ] [DecidableEq δ]

def publish (s : State γ τ ρ δ) (r : ρ) (generation : ℕ) : State γ τ ρ δ :=
  { s with header := Function.update s.header r (max (s.header r) generation) }

def setWorker (s : State γ τ ρ δ) (i : δ) (w : Worker ρ) : State γ τ ρ δ :=
  { s with workers := Function.update s.workers i w }

def setReader (s : State γ τ ρ δ) (t : τ) (rd : Reader) : State γ τ ρ δ :=
  { s with readers := Function.update s.readers t rd }

def setCache (s : State γ τ ρ δ) (c : γ) (cache : Cache) : State γ τ ρ δ :=
  { s with caches := Function.update s.caches c cache }

def work (s : State γ τ ρ δ) (i : δ) : State γ τ ρ δ :=
  match s.workers i with
  | .idle => s
  | .applied v =>
    match s.lock with
    | none => { s with lock := some i }.setWorker i (.bumping v)
    | some _ => s
  | .bumping v =>
    { s with generation := s.generation + 1, log := (s.generation + 1, v) :: s.log }.setWorker i
      (.publishing v (s.generation + 1) s.sinks)
  | .publishing v generation (r :: rest) =>
    (s.publish r generation).setWorker i (.publishing v generation rest)
  | .publishing v _ [] => { s with lock := none }.setWorker i (.replying v)
  | .replying v => { s with replied := v :: s.replied }.setWorker i .idle

def serve (s : State γ τ ρ δ) (r : ρ) : State γ τ ρ δ :=
  match s.lock with
  | none => { s.publish r s.generation with sinks := s.sinks ++ [r] }
  | some _ => s

def call (s : State γ τ ρ δ) (t : τ) (q : Query) : State γ τ ρ δ :=
  match s.readers t with
  | .idle | .returned _ _ _ => s.setReader t (.begun q s.replied)
  | _ => s

variable [ToLowercase]

def write (s : State γ τ ρ δ) (i : δ) (c : Overlay.Call) : State γ τ ρ δ :=
  match s.workers i with
  | .idle =>
    match Director.mutate s.overlay c with
    | some r => { s with overlay := r.2, past := r.2 :: s.past }.setWorker i (.applied r.1)
    | none => s
  | _ => s

/-- The next step of thread `t` of the client `c`, which maps the ring `ring`. -/
def read (s : State γ τ ρ δ) (c : γ) (ring : ρ) (t : τ) (ok : Bool) : State γ τ ρ δ :=
  match s.readers t with
  | .idle | .returned _ _ _ => s
  | .begun q before => s.setReader t (.loaded q before (s.header ring))
  | .loaded q before generation =>
    if generation ≠ 0 then
      let cache := s.caches c
      let reached := s.setCache c (cache.reach generation)
      match if cache.isAt generation then (cache.reach generation).get q else none with
      | some a => reached.setReader t (.returned q before (some a))
      | none => reached.setReader t (.asking q before generation)
    else s.setReader t (.asking q before generation)
  | .asking q before generation =>
    match if ok then Director.answer s.overlay q else none with
    | some a => s.setReader t (.fetched q before generation a)
    | none => s.setReader t (.returned q before none)
  | .fetched q before generation a =>
    if generation ≠ 0 then
      let cache := (s.caches c).reach generation
      (s.setCache c (if (s.caches c).isAt generation then cache.insert q a else cache)).setReader t
        (.returned q before (some a))
    else s.setReader t (.returned q before (some a))

/-- The next state, where `home` gives the process of a thread and `ring` the ring of a process. -/
def step (home : τ → γ) (ring : γ → ρ) (s : State γ τ ρ δ) : Event τ ρ δ → State γ τ ρ δ
  | .write i c => s.write i c
  | .work i => s.work i
  | .serve r => s.serve r
  | .call t q => s.call t q
  | .read t ok => s.read (home t) (ring (home t)) t ok

end State

end Session

end AetherVfs.Registry
