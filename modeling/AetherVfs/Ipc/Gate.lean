import AetherVfs.Lib.Transition

/-!
# The data gate

The counting gate on data requests: `acquire`, `join_line`, `wait_in_line`,
`hand_out`, `release`, `retire`, `reclaim` and the drop of a `Permits`, one
atomic access, lock operation or access under a lock to a step. A caller is
one `Permits` from the `acquire` that makes it to its drop. The clock, the
state of the ring's slots and spurious failures of weak compare-and-swaps
come from the environment.
-/

namespace AetherVfs.Ipc.DataGate

inductive WaiterState
  | waiting
  | granted
  | gone
  deriving DecidableEq

structure Waiter where
  state : WaiterState
  asleep : Bool
  seenMs : ℕ
  deriving DecidableEq

/-- The shared words of the gate. A place is named by the order in which it joined. -/
structure Gate where
  avail : ℕ
  limit : ℕ
  reserve : ℕ
  perCall : ℕ
  queued : ℕ
  line : List ℕ
  lineLocked : Bool
  retired : List ℕ
  retiredLocked : Bool
  retiredCount : ℕ
  waiters : ℕ → Waiter
  joined : ℕ

def Gate.new (limit : ℕ) : Gate :=
  let limit := max limit 1
  { avail := limit, limit := limit, reserve := min (max (limit / 4) 1) (limit - 1)
    perCall := (limit + 1) / 2, queued := 0, line := [], lineLocked := false, retired := []
    retiredLocked := false, retiredCount := 0, waiters := fun _ => ⟨.gone, false, 0⟩, joined := 0 }

def spins : ℕ := 256

/-- Milliseconds after which a place whose owner has not looked is passed over. -/
def staleMs : ℕ := 500

def watchUs : ℕ := 200

/-- Who called `reclaim`: `acquire`, or `wait_in_line` at a place. -/
inductive Caller
  | acquire
  | wait (w : ℕ)
  deriving DecidableEq

inductive Return
  | dropped
  | retired
  | reclaimed (c : Caller) (freed : ℕ)
  | joined (w : ℕ)
  | polled (w : ℕ)
  deriving DecidableEq

inductive Attempt
  | first
  | second
  | spin (k : ℕ)
  deriving DecidableEq

inductive AcquirePc
  | queued
  | takeLoad (a : Attempt)
  | takeCas (a : Attempt) (cur : ℕ)
  | spin (k : ℕ)
  deriving DecidableEq

inductive JoinPc
  | lock (tries : ℕ)
  | push
  | count (w : ℕ)
  | unlock (w : ℕ)
  deriving DecidableEq

inductive WaitPc
  | load
  | leave
  | seen (waited : ℕ)
  | announce
  | lock (tries : ℕ)
  | look
  | blocked
  | unlock
  deriving DecidableEq

inductive ReclaimPc
  | count
  | lock
  | retain
  | store (freed : ℕ)
  | unlock (freed : ℕ)
  deriving DecidableEq

inductive HandPc
  | queued
  | lock (tries : ℕ)
  | front
  | seen (f : ℕ)
  | stale (f : ℕ)
  | staleCount (f : ℕ)
  | takeLoad (f : ℕ)
  | takeCas (f cur : ℕ)
  | grant (f : ℕ)
  | grantCount (f : ℕ)
  | asleep (f : ℕ)
  | giveBack (f : ℕ)
  | pop (f : ℕ)
  | unlock
  deriving DecidableEq

inductive RetirePc
  | lock (slot outer tries : ℕ)
  | look (slot : ℕ)
  | store
  | unlock
  | again
  deriving DecidableEq

/-- The next access of a caller: in which function, and where in it. `leave` is the last
access of a caller that ran out of patience at its place. -/
inductive Pc
  | idle
  | acquire (p : AcquirePc)
  | join (p : JoinPc)
  | wait (w : ℕ) (p : WaitPc)
  | leave
  | reclaim (c : Caller) (p : ReclaimPc)
  | release (r : Return) (n : ℕ)
  | hand (r : Return) (p : HandPc)
  | retire (p : RetirePc)
  deriving DecidableEq

/-- A caller: the permits of its `Permits` and the locals of the call it is in. -/
structure Thread where
  n : ℕ
  want : ℕ
  start : ℕ
  patience : ℕ
  todo : List ℕ
  nowMs : ℕ
  wake : Bool
  pc : Pc
  deriving DecidableEq

def Thread.new : Thread := ⟨0, 0, 0, 0, [], 0, false, .idle⟩

/-- What the environment decides at one access: the clock in microseconds, whether a weak
compare-and-swap fails for no reason, and which slots of the ring are ABANDONED. -/
structure Env where
  now : ℕ
  spurious : Bool
  abandoned : ℕ → Bool

namespace Gate

def setWaiter (γ : Gate) (w : ℕ) (x : Waiter) : Gate :=
  { γ with waiters := Function.update γ.waiters w x }

def setState (γ : Gate) (w : ℕ) (st : WaiterState) : Gate :=
  γ.setWaiter w { γ.waiters w with state := st }

def stateOf (γ : Gate) (w : ℕ) : WaiterState := (γ.waiters w).state

theorem stateOf_setState_self (γ : Gate) (w : ℕ) (st : WaiterState) :
    (γ.setState w st).stateOf w = st := by simp [setState, setWaiter, stateOf]

theorem stateOf_setState_of_ne (γ : Gate) {w w' : ℕ} (h : w' ≠ w) (st : WaiterState) :
    (γ.setState w st).stateOf w' = γ.stateOf w' := by simp [setState, setWaiter, stateOf, h]

end Gate

namespace Thread

/-- The loop of `Permits::retire`, up to its next access. -/
def retireNext (t : Thread) : Thread :=
  match t.todo with
  | [] => { t with pc := .idle }
  | s :: rest =>
    if t.n = 0 then { t with todo := [], pc := .idle }
    else { t with todo := rest, pc := .retire (.lock s 0 0) }

def reclaimed (t : Thread) (c : Caller) (freed : ℕ) : Thread :=
  match c with
  | .acquire => { t with pc := .acquire (if 0 < freed then .takeLoad .second else .spin 0) }
  | .wait w => { t with pc := .hand (.polled w) .queued }

def handed (t : Thread) : Return → Thread
  | .dropped => { t with pc := .idle }
  | .retired => { t with n := t.n - 1 }.retireNext
  | .reclaimed c freed => t.reclaimed c freed
  | .joined w => { t with pc := .wait w .load }
  | .polled w => { t with pc := .wait w .announce }

def tookNone (t : Thread) : Attempt → Thread
  | .first => { t with pc := .reclaim .acquire .count }
  | .second => { t with pc := .acquire (.spin 0) }
  | .spin k => { t with pc := .acquire (.spin (k + 1)) }

def acquireStep (γ : Gate) (t : Thread) (env : Env) : AcquirePc → Gate × Thread
  | .queued =>
    if γ.queued = 0 then (γ, { t with pc := .acquire (.takeLoad .first) })
    else (γ, { t with pc := .join (.lock 0) })
  | .takeLoad a =>
    if γ.avail = 0 then (γ, t.tookNone a)
    else (γ, { t with pc := .acquire (.takeCas a γ.avail) })
  | .takeCas a cur =>
    let k := 1 + min (cur - 1 - γ.reserve) (t.want - 1)
    if γ.avail = cur ∧ env.spurious = false then
      ({ γ with avail := γ.avail - k }, { t with n := k, pc := .idle })
    else if γ.avail = 0 then (γ, t.tookNone a)
    else (γ, { t with pc := .acquire (.takeCas a γ.avail) })
  | .spin k =>
    if k < spins ∧ γ.queued = 0 then (γ, { t with pc := .acquire (.takeLoad (.spin k)) })
    else (γ, { t with pc := .join (.lock 0) })

/-- One access of `join_line`. The place is made where it is pushed: nobody can see it
before. -/
def joinStep (γ : Gate) (t : Thread) (env : Env) : JoinPc → Gate × Thread
  | .lock tries =>
    if γ.lineLocked = false then ({ γ with lineLocked := true }, { t with pc := .join .push })
    else if tries + 1 < spins then (γ, { t with pc := .join (.lock (tries + 1)) })
    else if t.patience ≤ env.now - t.start then (γ, { t with pc := .idle })
    else (γ, { t with pc := .join (.lock 0) })
  | .push =>
    ({ γ with
        line := γ.line ++ [γ.joined]
        waiters := Function.update γ.waiters γ.joined ⟨.waiting, false, env.now / 1000⟩
        joined := γ.joined + 1 },
      { t with pc := .join (.count γ.joined) })
  | .count w => ({ γ with queued := γ.queued + 1 }, { t with pc := .join (.unlock w) })
  | .unlock w => ({ γ with lineLocked := false }, { t with pc := .hand (.joined w) .queued })

def waitStep (γ : Gate) (t : Thread) (env : Env) (w : ℕ) : WaitPc → Gate × Thread
  | .load =>
    match γ.stateOf w with
    | .granted => (γ, { t with n := 1, pc := .idle })
    | .gone => (γ, { t with pc := .join (.lock 0) })
    | .waiting =>
      if t.patience ≤ env.now - t.start then (γ, { t with pc := .wait w .leave })
      else (γ, { t with pc := .wait w (.seen (env.now - t.start)) })
  | .leave =>
    if γ.stateOf w = .waiting then (γ.setState w .gone, { t with pc := .leave })
    else (γ, { t with pc := .wait w .load })
  | .seen waited =>
    (γ.setWaiter w { γ.waiters w with seenMs := env.now / 1000 },
      { t with
        pc := if waited < watchUs then .wait w .load else .reclaim (.wait w) .count })
  | .announce =>
    (γ.setWaiter w { γ.waiters w with asleep := true }, { t with pc := .wait w (.lock 0) })
  | .lock tries =>
    if γ.lineLocked = false then ({ γ with lineLocked := true }, { t with pc := .wait w .look })
    else if tries + 1 < spins then (γ, { t with pc := .wait w (.lock (tries + 1)) })
    else (γ, { t with pc := .wait w .load })
  | .look =>
    if γ.stateOf w = .waiting then
      ({ γ with lineLocked := false }, { t with pc := .wait w .blocked })
    else (γ, { t with pc := .wait w .unlock })
  | .blocked =>
    if γ.lineLocked = false then
      ({ γ with lineLocked := true }, { t with pc := .wait w .unlock })
    else (γ, t)
  | .unlock => ({ γ with lineLocked := false }, { t with pc := .wait w .load })

def reclaimStep (γ : Gate) (t : Thread) (env : Env) (c : Caller) : ReclaimPc → Gate × Thread
  | .count =>
    if γ.retiredCount = 0 then (γ, t.reclaimed c 0) else (γ, { t with pc := .reclaim c .lock })
  | .lock =>
    if γ.retiredLocked = false then
      ({ γ with retiredLocked := true }, { t with pc := .reclaim c .retain })
    else (γ, t.reclaimed c 0)
  | .retain =>
    let kept := γ.retired.filter env.abandoned
    ({ γ with retired := kept },
      { t with pc := .reclaim c (.store (γ.retired.length - kept.length)) })
  | .store freed =>
    ({ γ with retiredCount := γ.retired.length }, { t with pc := .reclaim c (.unlock freed) })
  | .unlock freed =>
    ({ γ with retiredLocked := false },
      if freed = 0 then t.reclaimed c 0 else { t with pc := .release (.reclaimed c freed) freed })

def handStep (γ : Gate) (t : Thread) (env : Env) (r : Return) : HandPc → Gate × Thread
  | .queued =>
    if γ.queued = 0 then (γ, t.handed r) else (γ, { t with pc := .hand r (.lock 0) })
  | .lock tries =>
    if γ.lineLocked = false then
      ({ γ with lineLocked := true },
        { t with nowMs := env.now / 1000, wake := false, pc := .hand r .front })
    else if tries + 1 < spins then (γ, { t with pc := .hand r (.lock (tries + 1)) })
    else (γ, t.handed r)
  | .front =>
    match γ.line with
    | [] => (γ, { t with pc := .hand r .unlock })
    | f :: _ =>
      if γ.stateOf f = .waiting then (γ, { t with pc := .hand r (.seen f) })
      else (γ, { t with pc := .hand r (.pop f) })
  | .seen f =>
    if staleMs ≤ t.nowMs - (γ.waiters f).seenMs then (γ, { t with pc := .hand r (.stale f) })
    else (γ, { t with pc := .hand r (.takeLoad f) })
  | .stale f =>
    if γ.stateOf f = .waiting then
      (γ.setState f .gone, { t with pc := .hand r (.staleCount f) })
    else (γ, { t with pc := .hand r (.pop f) })
  | .staleCount f => ({ γ with queued := γ.queued - 1 }, { t with pc := .hand r (.pop f) })
  | .takeLoad f => (γ, { t with pc := .hand r (.takeCas f γ.avail) })
  | .takeCas f cur =>
    if cur = 0 then (γ, { t with pc := .hand r .unlock })
    else if γ.avail = cur ∧ env.spurious = false then
      ({ γ with avail := γ.avail - 1 }, { t with pc := .hand r (.grant f) })
    else (γ, { t with pc := .hand r (.takeCas f γ.avail) })
  | .grant f =>
    if γ.stateOf f = .waiting then
      (γ.setState f .granted, { t with pc := .hand r (.grantCount f) })
    else (γ, { t with pc := .hand r (.giveBack f) })
  | .grantCount f => ({ γ with queued := γ.queued - 1 }, { t with pc := .hand r (.asleep f) })
  | .asleep f =>
    (γ, { t with wake := t.wake || (γ.waiters f).asleep, pc := .hand r (.pop f) })
  | .giveBack f => ({ γ with avail := γ.avail + 1 }, { t with pc := .hand r (.pop f) })
  | .pop _ => ({ γ with line := γ.line.tail }, { t with pc := .hand r .front })
  | .unlock => ({ γ with lineLocked := false }, t.handed r)

def retireStep (γ : Gate) (t : Thread) : RetirePc → Gate × Thread
  | .lock s outer tries =>
    if γ.retiredLocked = false then
      ({ γ with retiredLocked := true }, { t with pc := .retire (.look s) })
    else if tries + 1 < spins then (γ, { t with pc := .retire (.lock s outer (tries + 1)) })
    else if outer + 1 < 50 then (γ, { t with pc := .retire (.lock s (outer + 1) 0) })
    else (γ, t.retireNext)
  | .look s =>
    if s ∈ γ.retired then (γ, { t with pc := .retire .again })
    else ({ γ with retired := γ.retired ++ [s] }, { t with pc := .retire .store })
  | .store => ({ γ with retiredCount := γ.retired.length }, { t with pc := .retire .unlock })
  | .unlock => ({ γ with retiredLocked := false }, { t with n := t.n - 1 }.retireNext)
  | .again => ({ γ with retiredLocked := false }, { t with pc := .release .retired 1 })

def step (γ : Gate) (t : Thread) (env : Env) : Gate × Thread :=
  match t.pc with
  | .idle => (γ, t)
  | .acquire p => t.acquireStep γ env p
  | .join p => t.joinStep γ env p
  | .wait w p => t.waitStep γ env w p
  | .leave => ({ γ with queued := γ.queued - 1 }, { t with pc := .idle })
  | .reclaim c p => t.reclaimStep γ env c p
  | .release r k =>
    ({ γ with avail := γ.avail + k },
      { t with n := if r = .dropped then 0 else t.n, pc := .hand r .queued })
  | .hand r p => t.handStep γ env r p
  | .retire p => t.retireStep γ p

end Thread

structure System (ι : Type*) where
  gate : Gate
  threads : ι → Thread

/-- One turn of one caller: it begins an `acquire`, retires slots or drops its `Permits`,
or makes its next access. A turn that does not fit where the caller stands changes nothing. -/
inductive Event (ι : Type*)
  | acquire (i : ι) (want patience now : ℕ)
  | retire (i : ι) (slots : List ℕ)
  | drop (i : ι)
  | step (i : ι) (env : Env)

namespace System

variable {ι : Type*} [DecidableEq ι]

def set (σ : System ι) (i : ι) (x : Gate × Thread) : System ι :=
  ⟨x.1, Function.update σ.threads i x.2⟩

def step (σ : System ι) : Event ι → System ι
  | .acquire i want patience now =>
    let t := σ.threads i
    if t.pc = .idle ∧ t.n = 0 then
      σ.set i (σ.gate, { t with
        want := min (max want 1) σ.gate.perCall, patience := patience, start := now
        pc := .acquire .queued })
    else σ
  | .retire i slots =>
    let t := σ.threads i
    if t.pc = .idle ∧ 0 < t.n then σ.set i (σ.gate, { t with todo := slots }.retireNext) else σ
  | .drop i =>
    let t := σ.threads i
    if t.pc = .idle ∧ 0 < t.n then σ.set i (σ.gate, { t with pc := .release .dropped t.n })
    else σ
  | .step i env => σ.set i ((σ.threads i).step σ.gate env)

def run (limit : ℕ) (es : List (Event ι)) : System ι :=
  Transition.run step ⟨Gate.new limit, fun _ => Thread.new⟩ es

end System

end AetherVfs.Ipc.DataGate
