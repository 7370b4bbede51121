import AetherVfs.Registry.Volatile

/-!
# Saving the overlay

`RegistryHost` of `vfs-director/src/registry.rs`. The overlay is behind a lock of its own, so a
mutation is one event; a save takes a snapshot under that lock and does the rest of its work
without it, one store call at a time, while it holds `saved`. Any number of threads are in
`save_if_dirty`, `sync_if_unsynced` or `durable` at once: the ring workers that flush, the saver
thread and the thread that drops the host.

Every store call may fail, with or without the effect it was called for, and a write may stop
short. A restart forgets the threads and the overlay and opens the host again on what the store
holds.
-/

namespace AetherVfs.Registry.Saves

abbrev Bytes := List UInt8

inductive Task where
  | save
  | sync
  | durable
deriving DecidableEq

/-- Where a thread stands. A save keeps the snapshot it encoded. -/
inductive Pc where
  | idle
  /-- `save_if_dirty`, before it has `saved`. -/
  | wantSave
  /-- Before it looks at the overlay. -/
  | read
  /-- Before `unsynced` is set. -/
  | mark (o : Overlay)
  /-- `write_whole`, before the open. -/
  | openTmp (o : Overlay)
  /-- In the write loop, `off` bytes written. -/
  | write (o : Overlay) (off : ℕ)
  /-- Before the close, with what the loop came to. -/
  | close (o : Overlay) (res : Bool)
  | rename (o : Overlay)
  /-- Before `*saved = version`. -/
  | record (o : Overlay)
  /-- `sync_if_unsynced`, before it has `saved`. -/
  | wantSync
  /-- Before `unsynced` is swapped. -/
  | swap
  /-- In the hook. -/
  | hook
  /-- The hook failed; before `unsynced` is set again. -/
  | unmark
  | returned (ok : Bool)

/-- The thread holds `saved` there. -/
def Pc.holds : Pc → Bool
  | .idle | .wantSave | .wantSync | .returned _ => false
  | _ => true

structure Thread where
  task : Task
  /-- The overlay's version when the call began. -/
  since : ℕ
  pc : Pc

/-- What the environment makes of one store or hook call. -/
structure Io where
  ok : Bool
  /-- Whether a call that fails did what it was called for. -/
  effect : Bool
  /-- How far a write gets. -/
  n : ℕ

structure State (ι : Type) where
  /-- A host is open. -/
  up : Bool
  overlay : Overlay
  saved : ℕ
  /-- Who holds `saved`. -/
  lock : Option ι
  unsynced : Bool
  /-- The host was given a `DurableSync`. -/
  hooked : Bool
  threads : ι → Thread
  /-- `OVERLAY_FILE`. -/
  file : Option Bytes
  /-- `TMP_FILE`. -/
  tmp : Option Bytes
  -- What follows is the history of the run; the code does not have it.
  /-- Every overlay a mutation has left, in any session, and the first one. -/
  commits : List Overlay
  /-- The overlays this session has had. -/
  past : List Overlay
  /-- The version this session began with. -/
  opened : ℕ
  /-- The version of this session that `OVERLAY_FILE` holds. -/
  held : ℕ
  /-- The version `OVERLAY_FILE` held at the last hook call that returned `Ok`. -/
  synced : Option ℕ

variable {ι : Type}

def State.empty : State ι where
  up := false
  overlay := Overlay.new
  saved := 0
  lock := none
  unsynced := false
  hooked := false
  threads := fun _ => ⟨.save, 0, .idle⟩
  file := none
  tmp := none
  commits := [Overlay.new]
  past := [Overlay.new]
  opened := 0
  held := 0
  synced := none

inductive Event (ι : Type) where
  /-- `mutate`. -/
  | mutate (c : Overlay.Call)
  /-- A thread calls. -/
  | ask (i : ι) (t : Task)
  /-- A thread takes its next step. -/
  | turn (i : ι) (io : Io)
  /-- The process ends, if there is one, and a host is opened on the store. -/
  | restart (hooked readOk : Bool) (aside : Io)

def Event.isRestart : Event ι → Bool
  | .restart _ _ _ => true
  | _ => false

namespace State

variable [DecidableEq ι]

def goto (s : State ι) (i : ι) (pc : Pc) : State ι :=
  { s with threads := Function.update s.threads i { s.threads i with pc } }

def saveReturns (s : State ι) (i : ι) (ok : Bool) : State ι :=
  { s with lock := none }.goto i
    (if (s.threads i).task = Task.durable ∧ ok = true then .wantSync else .returned ok)

def syncReturns (s : State ι) (i : ι) (ok : Bool) : State ι :=
  { s with lock := none }.goto i (.returned ok)

def renamed (s : State ι) (o : Overlay) : State ι :=
  { s with file := s.tmp, tmp := none, held := o.version }

end State

def writeAt (old bytes : Bytes) (off n : ℕ) : Bytes :=
  old.take off ++ (bytes.drop off).take n ++ old.drop (off + n)

variable [ToLowercase]

def load : Option Bytes → Except Format.FormatError Overlay
  | none => .ok Overlay.new
  | some b => Format.decode b

namespace State

variable [DecidableEq ι]

def turn (s : State ι) (i : ι) (io : Io) : State ι :=
  match (s.threads i).pc with
  | .idle | .returned _ => s
  | .wantSave =>
    match s.lock with
    | none => { s with lock := some i }.goto i .read
    | some _ => s
  | .read =>
    if s.overlay.version = s.saved then s.saveReturns i true
    else s.goto i (.mark s.overlay)
  | .mark o => { s with unsynced := true }.goto i (.openTmp o)
  | .openTmp o =>
    if io.ok then { s with tmp := some [] }.goto i (.write o 0)
    else (if io.effect then { s with tmp := some [] } else s).saveReturns i false
  | .write o off =>
    let bytes := Format.encode o
    if off < bytes.length then
      let n := min io.n (bytes.length - off)
      let wrote := { s with tmp := s.tmp.map fun old => writeAt old bytes off n }
      if io.ok then
        if n = 0 then wrote.goto i (.close o false) else wrote.goto i (.write o (off + n))
      else (if io.effect then wrote else s).goto i (.close o false)
    else s.goto i (.close o true)
  | .close o res =>
    if res = true ∧ io.ok = true then s.goto i (.rename o) else s.saveReturns i false
  | .rename o =>
    if io.ok then (s.renamed o).goto i (.record o)
    else (if io.effect then s.renamed o else s).saveReturns i false
  | .record o => { s with saved := o.version }.saveReturns i true
  | .wantSync =>
    if s.hooked then
      match s.lock with
      | none => { s with lock := some i }.goto i .swap
      | some _ => s
    else s.goto i (.returned true)
  | .swap =>
    if s.unsynced then { s with unsynced := false }.goto i .hook
    else s.syncReturns i true
  | .hook =>
    if io.ok then { s with synced := some s.held }.syncReturns i true
    else s.goto i .unmark
  | .unmark => { s with unsynced := true }.syncReturns i false

def mutate (s : State ι) (c : Overlay.Call) : State ι :=
  match s.overlay.call c.op with
  | .ok r => { s with overlay := r.2, commits := r.2 :: s.commits, past := r.2 :: s.past }
  | .error _ => s

def ask (s : State ι) (i : ι) (t : Task) : State ι :=
  match (s.threads i).pc with
  | .idle | .returned _ =>
    { s with threads := Function.update s.threads i
              ⟨t, s.overlay.version, if t = .sync then .wantSync else .wantSave⟩ }
  | _ => s

def openedWith (s : State ι) (hooked : Bool) (o : Overlay) : State ι where
  up := true
  overlay := o
  saved := o.version
  lock := none
  unsynced := false
  hooked
  threads := fun _ => ⟨.save, 0, .idle⟩
  file := s.file
  tmp := s.tmp
  commits := s.commits
  past := [o]
  opened := o.version
  held := o.version
  synced := none

def restart (s : State ι) (hooked readOk : Bool) (aside : Io) : State ι :=
  if readOk then
    match load s.file with
    | .ok o => s.openedWith hooked o
    | .error _ =>
      if aside.ok then { s with file := none }.openedWith hooked Overlay.new
      else if aside.effect then { s with up := false, file := none } else { s with up := false }
  else { s with up := false }

def step (s : State ι) : Event ι → State ι
  | .mutate c => if s.up then s.mutate c else s
  | .ask i t => if s.up then s.ask i t else s
  | .turn i io => if s.up then s.turn i io else s
  | .restart hooked readOk aside => s.restart hooked readOk aside

end State

/-- The file holds `o`: opening it gives what `o` is without its volatile keys. -/
def Holds (file : Option Bytes) (o : Overlay) : Prop := ∃ o', load file = .ok o' ∧ o.Persisted o'

/-- A mutation leaves an overlay that `decode` accepts when it is saved. -/
def Fits (s : State ι) : Event ι → Prop
  | .mutate c => ∀ r ∈ (s.overlay.call c.op).toOption, r.2.Saveable
  | _ => True

instance (s : State ι) : ∀ e : Event ι, Decidable (Fits s e)
  | .mutate c =>
    inferInstanceAs (Decidable (∀ r ∈ (s.overlay.call c.op).toOption, r.2.Saveable))
  | .ask _ _ | .turn _ _ | .restart _ _ _ => inferInstanceAs (Decidable True)

end AetherVfs.Registry.Saves
