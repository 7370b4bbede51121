import AetherVfs.Compose.Layered
import AetherVfs.Lib.Forks
import Mathlib.Data.List.DropRight

/-!
# The tree in memory

`vfs-compose/src/memory.rs`. Files and explicitly made directories are kept flat, under their
full paths; the directories on the way to them are implied. A path of the source is a string
without slashes at its ends; here it is the list of what stands between its slashes, the root
being the empty list. `by_fold` maps the folded path of an entry to its spelling.
-/

namespace AetherVfs.Compose

/-- `trim_rel`: either separator splits, and slashes at the ends are dropped. -/
def trimRel (raw : Str) : VPath :=
  ((raw.splitOnP isSep).dropWhile fun c => c = []).rdropWhile fun c => c = []

abbrev Bytes := List UInt8

structure Memory where
  files : Table VPath Bytes
  dirs : Table VPath Unit
  byFold : Table VPath VPath
  opens : HandleTable VPath

namespace Memory

def new : Memory := ⟨∅, ∅, ∅, .new⟩

def keys (s : Memory) : List VPath := s.files.keys ++ s.dirs.keys

/-- `stat_of`: a file, an explicit directory, or one that some stored path implies. -/
def statOf (s : Memory) (path : VPath) : Option Stat :=
  if path = [] then some ⟨.dir, 0, 0⟩
  else
    match s.files.lookup path with
    | some b => some ⟨.file, b.length, 0⟩
    | none =>
      if path ∈ s.dirs ∨ ∃ k ∈ s.keys, Key.Below path k then some ⟨.dir, 0, 0⟩ else none

def childNames (s : Memory) (cur : VPath) : List Str :=
  s.keys.filterMap fun k => if cur <+: k then (k.drop cur.length).head? else none

section Fold

variable [ToLowercase]

def better (part : Str) (best : Option Str) (name : Str) : Option Str :=
  if name = [] ∨ fold name ≠ fold part then best
  else
    match best with
    | some prev => if prev ≤ name then some prev else some name
    | none => some name

def best (s : Memory) (cur : VPath) (part : Str) : Option Str :=
  (s.childNames cur).foldl (better part) none

/-- The loop of `canonical_in`: component by component, the exact spelling first. -/
def walk (s : Memory) : VPath → List Str → VPath
  | cur, [] => cur
  | cur, part :: parts =>
    if (s.statOf (cur ++ [part])).isSome then s.walk (cur ++ [part]) parts
    else
      match s.best cur part with
      | some name => s.walk (cur ++ [name]) parts
      | none => cur ++ part :: parts

def canonicalIn (s : Memory) (path : VPath) : VPath :=
  if path = [] then []
  else if path ∈ s.files ∨ path ∈ s.dirs then path
  else
    match s.byFold.lookup (path.map fold) with
    | some hit => hit
    | none => s.walk [] (path.filter fun c => c ≠ [])

def indexInsert (s : Memory) (key : VPath) : Memory :=
  { s with byFold := s.byFold.insert (key.map fold) key }

def indexRemove (s : Memory) (key : VPath) : Memory :=
  { s with byFold := s.byFold.erase (key.map fold) }

def reindex (s : Memory) (old new : VPath) : Memory := (s.indexRemove old).indexInsert new

def fromFiles (entries : List (Str × Bytes)) : Memory :=
  entries.foldl (fun s e =>
    { s with files := s.files.insert (trimRel e.1) e.2 }.indexInsert (trimRel e.1)) new

/-! ## The calls that look -/

def getattr (s : Memory) (path : VPath) : Option Stat := s.statOf (s.canonicalIn path)

/-- `direct_child`: the name of the child of `path` that the stored path `key` is or lies under,
and whether it is the child. -/
def directChild (path key : VPath) : Option (Str × Bool) :=
  if path <+: key then
    match key.drop path.length with
    | [] => none
    | name :: rest => if name = [] then none else some (name, rest = [])
  else none

def orInsert (names : Table Str Stat) (name : Str) (st : Stat) : Table Str Stat :=
  if name ∈ names then names else names.insert name st

def children (s : Memory) (path : VPath) : List (Str × Stat) :=
  (s.files.entries.filterMap fun r => (directChild path r.1).map fun c =>
    (c.1, if c.2 then ⟨.file, r.2.length, 0⟩ else ⟨.dir, 0, 0⟩)) ++
  s.dirs.keys.filterMap fun d => (directChild path d).map fun c => (c.1, ⟨.dir, 0, 0⟩)

def listNames (s : Memory) (path : VPath) : Table Str Stat :=
  (s.children path).foldl (fun names c => orInsert names c.1 c.2) ∅

def readdir (s : Memory) (p : VPath) : Except Status (List DirEntry) :=
  let path := s.canonicalIn p
  match s.statOf path with
  | none => .error .notFound
  | some st =>
    if st.kind = .dir then .ok ((s.listNames path).entries.map fun r => ⟨r.1, r.2⟩)
    else .error .notADir

/-- The answers to the calls that look; there is no `stored_name` of its own. -/
def view (s : Memory) : View where
  getattr p := .ok (s.getattr p)
  readdir := s.readdir
  storedName _ := .error .notSupported

/-! ## The calls that change the tree -/

def create (s : Memory) (path : VPath) : Memory :=
  if path ∈ s.files then s else { s with files := s.files.insert path [] }.indexInsert path

def truncate (s : Memory) (path : VPath) : Memory :=
  { s with files := s.files.insert path [] }

def openPath (s : Memory) (p : VPath) (flags : Flags) : Except Status Opened × Memory :=
  let path := s.canonicalIn p
  let present := path ∈ s.files
  if flags.excl ∧ present then (.error .badRequest, s)
  else if ¬ flags.create ∧ ¬ present then (.error .notFound, s)
  else
    let s := s.create path
    let s := if flags.trunc then s.truncate path else s
    let (h, opens) := s.opens.insert path
    (.ok ⟨h, ((s.files.lookup path).getD []).length, false⟩, { s with opens := opens })

def resize (body : Bytes) (len : ℕ) : Bytes := body.take len ++ List.replicate (len - body.length) 0

/-- Change the body behind a handle, which comes back into being if it was removed. -/
def changeBody (s : Memory) (path : VPath) (change : Bytes → Bytes) : Memory :=
  let body := change ((s.files.lookup path).getD [])
  let s' := { s with files := s.files.insert path body }
  if path ∈ s.files then s' else s'.indexInsert path

def overwrite (offset : ℕ) (data body : Bytes) : Bytes :=
  let body := if body.length < offset + data.length then resize body (offset + data.length) else body
  body.take offset ++ data ++ body.drop (offset + data.length)

def onHandle (s : Memory) (op : HandleOp) (h : Handle) : Except Status Reply × Memory :=
  match s.opens.map.lookup h with
  | none => (if op = .flush then .ok .done else .error .badFh, s)
  | some path =>
    match op with
    | .readAt offset len =>
      match s.files.lookup path with
      | none => (.error .badFh, s)
      | some body => (.ok (.bytes ((body.drop offset).take len)), s)
    | .writeAt offset data =>
      (.ok (.count data.length), s.changeBody path (overwrite offset data))
    | .setLen len => (.ok .done, s.changeBody path fun body => resize body len)
    | .flush => (.ok .done, s)
    | .close => (.ok .done, { s with opens.map := s.opens.map.erase h })

def mkdir (s : Memory) (p : VPath) : Except Status Unit × Memory :=
  let path := s.canonicalIn p
  (.ok (), if path ∈ s.dirs then s else { s with dirs := s.dirs.insert path () }.indexInsert path)

def remove (s : Memory) (p : VPath) : Except Status Unit × Memory :=
  let path := s.canonicalIn p
  if path ∈ s.files then (.ok (), { s with files := s.files.erase path }.indexRemove path)
  -- The key of the root starts every path, its own included.
  else if ∃ k ∈ s.keys, Key.Below path k ∨ path = [] then (.error .isDir, s)
  else if path ∈ s.dirs then (.ok (), { s with dirs := s.dirs.erase path }.indexRemove path)
  else (.error .notFound, s)

def renameFile (s : Memory) (src dstC base : VPath) (body : Bytes) : Memory :=
  let s := if (s.statOf dstC).isSome ∧ dstC ≠ src then
      { s with files := s.files.erase dstC }.indexRemove dstC else s
  { s with files := (s.files.erase src).insert base body }.reindex src base

/-- The new path of what lies at or below the directory that is renamed. -/
def rewrite (src base old : VPath) : VPath := base ++ old.drop src.length

def moveFiles (src base : VPath) (s : Memory) : List VPath → Memory
  | [] => s
  | old :: rest =>
    let body := (s.files.lookup old).getD []
    let s := { s with files := s.files.erase old }.reindex old (rewrite src base old)
    moveFiles src base { s with files := s.files.insert (rewrite src base old) body } rest

def moveDirs (src base : VPath) (s : Memory) : List VPath → Memory
  | [] => s
  | old :: rest =>
    let s := { s with dirs := s.dirs.erase old }.reindex old (rewrite src base old)
    moveDirs src base { s with dirs := s.dirs.insert (rewrite src base old) () } rest

/-- The files that move with the directory `src`: those whose path starts with its own and a
slash, or all of them for the root. -/
def movingFiles (s : Memory) (src : VPath) : List VPath :=
  s.files.keys.filter fun k => Key.Below src k ∨ src = []

def movingDirs (s : Memory) (src : VPath) : List VPath :=
  s.dirs.keys.filter fun k => src <+: k

def moveAll (s : Memory) (src base : VPath) : Memory :=
  moveDirs src base (moveFiles src base s (s.movingFiles src)) (s.movingDirs src)

/-- Where a rename writes: to the path as given if something is there, and else to the path with
its existing part spelled as it is stored. -/
def insertBase (s : Memory) (dst : VPath) : VPath :=
  if (s.statOf (s.canonicalIn dst)).isSome then dst else s.canonicalIn dst

def rename (s : Memory) (src dst : VPath) : Except Status Unit × Memory :=
  if src = dst then (.ok (), s)
  else
    let srcC := s.canonicalIn src
    let dstC := s.canonicalIn dst
    match s.files.lookup srcC with
    | some body =>
      if dstC ≠ srcC ∧ (s.statOf dstC).map Stat.kind = some .dir then (.error .exists, s)
      else (.ok (), s.renameFile srcC dstC (s.insertBase dst) body)
    | none =>
      if s.movingFiles srcC = [] ∧ s.movingDirs srcC = [] then (.error .notFound, s)
      else if Key.Below (srcC.map fold) (dst.map fold) ∨ srcC = [] then (.error .badRequest, s)
      else if (s.statOf dstC).isSome ∧ dstC ≠ srcC then (.error .exists, s)
      else (.ok (), s.moveAll srcC (s.insertBase dst))

inductive Call where
  | openPath (p : Str) (flags : Flags)
  | onHandle (op : HandleOp) (h : Handle)
  | mkdir (p : Str)
  | remove (p : Str)
  | rename (src dst : Str)

def step (s : Memory) : Call → Memory
  | .openPath p flags => (s.openPath (trimRel p) flags).2
  | .onHandle op h => (s.onHandle op h).2
  | .mkdir p => (s.mkdir (trimRel p)).2
  | .remove p => (s.remove (trimRel p)).2
  | .rename src dst => (s.rename (trimRel src) (trimRel dst)).2

/-- The tree as a provider; attributes are accepted and dropped. -/
@[reducible] def provider (s : Memory) : Provider where
  State := Memory
  state := s
  access := .readWrite
  view := view
  openPath := openPath
  onHandle := onHandle
  onPath s op p :=
    match op with
    | .mkdir => s.mkdir p
    | .remove => s.remove p
    | .setAttr _ => (.ok (), s)
  rename := rename

end Fold

end Memory

end AetherVfs.Compose
