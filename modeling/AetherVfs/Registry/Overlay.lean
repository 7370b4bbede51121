import AetherVfs.Core.CaseFold
import AetherVfs.Lib.Table

/-!
# The registry overlay

`vfs-registry/src/overlay.rs` and the path functions it uses. A key path is kept as the pieces
between its separators, `path.split('\\')`: the canonical `\Registry\Machine` has the pieces
`""`, `Registry` and `Machine`. Folding works on characters and leaves separators alone, so the
fold of a path is the fold of each piece. The `BTreeMap`s are tables; a `range` from a prefix
that stops at the first key without it visits the keys with that prefix.
-/

namespace AetherVfs.Registry

abbrev Path := List Str

theorem intercalate_cons (a : Str) (s : List Str) :
    List.intercalate ['\\'] (a :: s) = a ++ s.flatMap fun c => '\\' :: c := by
  induction s generalizing a with
  | nil => simp [List.intercalate]
  | cons b s ih =>
    have hcons : List.intercalate ['\\'] (a :: b :: s) =
        a ++ ('\\' :: List.intercalate ['\\'] (b :: s)) := by
      simp [List.intercalate, List.intersperse]
    rw [hcons, ih]
    simp

/-- `path::parent`: cut at the last separator, unless there is none or it comes first. -/
def parent : Path → Option Path
  | [] => none
  | [_] => none
  | [a, _] => if a = [] then none else some [a]
  | a :: b :: c :: rest => some (a :: b :: c :: rest).dropLast

def leaf (p : Path) : Str := p.getLastD []

/-- The path and what `path::parent` makes of it again and again, `n` times at most. -/
def upward : ℕ → Path → List Path
  | 0, p => [p]
  | n + 1, p => p :: (parent p).elim [] (upward n)

def selfAndAncestors (p : Path) : List Path := upward p.length p

def ancestors (p : Path) : List Path := (parent p).elim [] selfAndAncestors

def maxKeyName : ℕ := 255
def maxValueName : ℕ := 16383
def maxData : ℕ := 1048576
def maxDeletedAt : ℕ := 16384
def maxWriteDepth : ℕ := 512
def maxDecodeDepth : ℕ := 1024

structure Value where
  name : Str
  ty : UInt32
  data : List UInt8
deriving DecidableEq

inductive Child where
  | present
  | tombstone
deriving DecidableEq

structure Node where
  values : List Value
  valueTombstones : List Str
  children : Table Str (Str × Child)
  created : Bool
  volatile : Bool
  lastWrite : UInt64

def Node.empty : Node where
  values := []
  valueTombstones := []
  children := ∅
  created := false
  volatile := false
  lastWrite := 0

inductive Lookup where
  | absent
  | present (created : Bool)
  | tombstoned
deriving DecidableEq

inductive RegError where
  | nameTooLong
  | dataTooLarge
  | notFound
  | alreadyExists
  | invalidPath
  | tooDeep
deriving DecidableEq

structure Entry where
  path : Path
  node : Node
  changed : ℕ
  subtree : ℕ

structure Overlay where
  entries : Table Path Entry
  tombs : Table Path ℕ
  deletedAt : Table Path ℕ
  deletedFloor : ℕ
  version : ℕ

def utf16Len (s : Str) : ℕ := (s.map fun c => if c.toNat < 65536 then 1 else 2).sum

/-- `child_prefix` and `starts_with`: `k` lies strictly below `f`. -/
def isBelow (f k : Path) : Bool := f.isPrefixOf k && f.length < k.length

section

variable [ToLowercase]

def foldPath (p : Path) : Path := p.map fold

def registry : Str := ['r', 'e', 'g', 'i', 's', 't', 'r', 'y']

def validPath : Path → Bool
  | lead :: r :: rest => lead = [] && fold r = registry && rest.all fun c => c ≠ []
  | _ => false

end

def checkKeyName (p : Path) : Except RegError Unit :=
  if (p.drop 1).any fun c => maxKeyName < utf16Len c then .error .nameTooLong else .ok ()

def checkDepth (p : Path) (max : ℕ) : Except RegError Unit :=
  if max < p.length - 2 then .error .tooDeep else .ok ()

namespace Overlay

def new : Overlay where
  entries := ∅
  tombs := ∅
  deletedAt := ∅
  deletedFloor := 0
  version := 0

def anyBelow (o : Overlay) (folded : Path) : Bool :=
  (o.entries.keys.any fun k => isBelow folded k) || o.tombs.keys.any fun k => isBelow folded k

def isTombstoned (o : Overlay) (folded : Path) : Bool :=
  (selfAndAncestors folded).any fun q => decide (q ∈ o.tombs)

/-- Record a tombstone for `folded` at version `v`, and the surviving deletion mark. -/
def tomb (o : Overlay) (folded : Path) (v : ℕ) : Overlay :=
  let deletedAt := o.deletedAt.insert folded (max ((o.deletedAt.lookup folded).getD 0) v)
  let o := { o with tombs := o.tombs.insert folded v }
  if maxDeletedAt < deletedAt.keys.length then
    let newest := (deletedAt.entries.map fun r => r.2).foldl max 0
    { o with deletedFloor := max o.deletedFloor newest, deletedAt := ∅ }
  else
    { o with deletedAt }

/-- `get_mut(key)` of the entries, and a change of what is there. -/
def modify (o : Overlay) (key : Path) (f : Entry → Entry) : Overlay :=
  { o with entries := Table.modify o.entries key f }

/-- The keys strictly below `folded`, and its own if it has a node. -/
def subtreeKeys (o : Overlay) (folded : Path) : List Path :=
  o.entries.keys.filter fun k => folded.isPrefixOf k

def removeSubtree (o : Overlay) (folded : Path) : Overlay :=
  { o with
    entries := Table.eraseAll o.entries (o.subtreeKeys folded)
    tombs := Table.eraseAll o.tombs (o.tombs.keys.filter fun k => folded.isPrefixOf k) }

variable [ToLowercase]

/-- State of `path`, and whether a node or a tombstone exists strictly below it. -/
def lookup (o : Overlay) (path : Path) : Lookup × Bool :=
  if ¬ validPath path then (.absent, false)
  else
    let f := foldPath path
    match o.entries.lookup f with
    | some e => (.present e.node.created, o.anyBelow f)
    | none => if o.isTombstoned f then (.tombstoned, false) else (.absent, o.anyBelow f)

def node (o : Overlay) (path : Path) : Option Node :=
  (o.entries.lookup (foldPath path)).map Entry.node

def touchAncestors (o : Overlay) (path : Path) (v : ℕ) : Overlay :=
  (ancestors path).foldl (fun o p => o.modify (foldPath p) fun e => { e with subtree := v }) o

/-- Record a change at `path`: its own, and one below every ancestor. -/
def mark (o : Overlay) (path : Path) (v : ℕ) : Overlay :=
  (o.modify (foldPath path) fun e => { e with changed := v }).touchAncestors path v

/-- `node.children.insert(fold(name), (name, state))`, with the parent's own change marks. -/
def setChild (name : Str) (state : Child) (v : ℕ) (now : UInt64) (e : Entry) : Entry :=
  { e with
    node := { e.node with
      children := e.node.children.insert (fold name) (name, state)
      lastWrite := now }
    changed := v }

/-- The entry `ensure_chain` inserts at a key that has no node. -/
def freshEntry (o : Overlay) (parentKey : Option Path) (stored : Path) (comp : Str)
    (plain : Bool) (v : ℕ) (now : UInt64) : Entry :=
  let parentNode := (parentKey.bind fun pk => o.entries.lookup pk).map Entry.node
  let revived := decide (foldPath stored ∈ o.tombs) ||
    parentNode.any fun n => (n.children.lookup (fold comp)).any fun c => c.2 = .tombstone
  let parentCreated := parentNode.any Node.created
  { path := stored
    node := { Node.empty with created := revived || parentCreated || !plain, lastWrite := now }
    changed := v
    subtree := 0 }

/-- One round of `ensure_chain` at a key that has no node: insert one and list it in its
parent. -/
def addNode (o : Overlay) (parentKey : Option Path) (stored : Path) (comp : Str)
    (plain : Bool) (v : ℕ) (now : UInt64) : Overlay :=
  let key := foldPath stored
  let fresh := o.freshEntry parentKey stored comp plain v now
  let o := { o with tombs := o.tombs.erase key, entries := o.entries.insert key fresh }
  match parentKey with
  | some pk => o.modify pk (setChild comp .present v now)
  | none => o

/-- The loop of `ensure_chain` over the components still to come. `stored` is the path so far
in stored spelling. -/
def ensureChainLoop (targetRealExists : Bool) (v : ℕ) (now : UInt64) :
    Overlay → Path → Option Path → List Str → Overlay
  | o, _, _, [] => o
  | o, stored, parentKey, comp :: rest =>
    let stored := stored ++ [comp]
    let key := foldPath stored
    match o.entries.lookup key with
    -- Keep the stored spelling already in use for the rest of the chain.
    | some e => ensureChainLoop targetRealExists v now o e.path (some key) rest
    | none =>
      let plain := !(rest.isEmpty && !targetRealExists)
      ensureChainLoop targetRealExists v now
        (o.addNode parentKey stored comp plain v now) stored (some key) rest

def ensureChain (o : Overlay) (path : Path) (targetRealExists : Bool) (v : ℕ) (now : UInt64) :
    Overlay :=
  ensureChainLoop targetRealExists v now o [[]] none (path.drop 1)

/-- Replace the data of the first value of that folded name, or append one. -/
def putValue (name : Str) (ty : UInt32) (data : List UInt8) : List Value → List Value
  | [] => [{ name, ty, data }]
  | x :: xs =>
    if fold x.name = fold name then { x with ty, data } :: xs
    else x :: putValue name ty data xs

def setValue (o : Overlay) (path : Path) (name : Str) (ty : UInt32) (data : List UInt8)
    (now : UInt64) : Except RegError (ℕ × Overlay) := do
  if ¬ validPath path then throw .invalidPath
  checkKeyName path
  checkDepth path maxWriteDepth
  if maxValueName < utf16Len name then throw .nameTooLong
  if maxData < data.length then throw .dataTooLarge
  let v := o.version + 1
  let o := { o with version := v }.ensureChain path true v now
  let o := o.modify (foldPath path) fun e =>
    { e with
      node := { e.node with
        valueTombstones := e.node.valueTombstones.filter fun t => t ≠ fold name
        values := putValue name ty data e.node.values
        lastWrite := now } }
  return (v, o.mark path v)

def deleteValue (o : Overlay) (path : Path) (name : Str) (now : UInt64) :
    Except RegError (ℕ × Overlay) := do
  if ¬ validPath path then throw .invalidPath
  checkKeyName path
  if maxValueName < utf16Len name then throw .nameTooLong
  if (o.lookup path).1 = .tombstoned then throw .notFound
  let v := o.version + 1
  let o := { o with version := v }.ensureChain path true v now
  let o := o.modify (foldPath path) fun e =>
    { e with
      node := { e.node with
        values := e.node.values.filter fun x => fold x.name ≠ fold name
        valueTombstones :=
          if fold name ∈ e.node.valueTombstones then e.node.valueTombstones
          else e.node.valueTombstones ++ [fold name]
        lastWrite := now } }
  return (v, o.mark path v)

def createKey (o : Overlay) (path : Path) (volatile realExists : Bool) (now : UInt64) :
    Except RegError (ℕ × Overlay) := do
  if ¬ validPath path then throw .invalidPath
  checkKeyName path
  checkDepth path maxWriteDepth
  if foldPath path ∈ o.entries then throw .alreadyExists
  let v := o.version + 1
  let o := { o with version := v }.ensureChain path realExists v now
  let o := o.modify (foldPath path) fun e => { e with node := { e.node with volatile } }
  return (v, o.mark path v)

def deleteKey (o : Overlay) (path : Path) (now : UInt64) : Except RegError (ℕ × Overlay) := do
  if ¬ validPath path then throw .invalidPath
  let some parentPath := parent path | throw .invalidPath
  if (o.lookup path).1 = .tombstoned then throw .notFound
  let v := o.version + 1
  let o := { o with version := v }.ensureChain parentPath true v now
  let f := foldPath path
  let o := (o.removeSubtree f).tomb f v
  let o := o.modify (foldPath parentPath) (setChild (leaf path) .tombstone v now)
  return (v, o.touchAncestors parentPath v)

/-- The entries and tombstones at and below `oldF` go to `newF`: the stored spelling of every
key changes with the moved key's, and every moved key is created-here. -/
def moveSubtree (o : Overlay) (oldF oldStored newF newPath : Path) (v : ℕ) : Overlay :=
  let moved := Table.rowsWhere o.entries fun k => oldF.isPrefixOf k
  let movedTombs := Table.rowsWhere o.tombs fun k => isBelow oldF k
  let o := { o with entries := Table.eraseAll o.entries (moved.map Prod.fst) }
  let o := o.removeSubtree oldF
  let o := { o with tombs := o.tombs.erase newF }
  let o := { o with
    entries := Table.insertAll o.entries (moved.map fun r =>
      let suffix := r.2.path.drop oldStored.length
      (newF ++ (foldPath (oldStored ++ suffix)).drop oldF.length,
        { r.2 with
          path := newPath ++ suffix
          node := { r.2.node with created := true }
          changed := v
          subtree := v })) }
  movedTombs.foldl (fun o r => o.tomb (newF ++ r.1.drop oldF.length) v) o

def renameKey (o : Overlay) (path : Path) (newLeaf : Str) (now : UInt64) :
    Except RegError (ℕ × Overlay) := do
  if ¬ validPath path then throw .invalidPath
  if newLeaf = [] ∨ '\\' ∈ newLeaf then throw .invalidPath
  if maxKeyName < utf16Len newLeaf then throw .nameTooLong
  let some parentPath := parent path | throw .invalidPath
  let oldF := foldPath path
  let some root := o.entries.lookup oldF | throw .notFound
  let oldStored := root.path
  let newPath := oldStored.dropLast ++ [newLeaf]
  let newF := foldPath newPath
  if newF ≠ oldF ∧ newF ∈ o.entries then throw .alreadyExists
  let v := o.version + 1
  let o := { o with version := v }.moveSubtree oldF oldStored newF newPath v
  let o := o.modify newF fun e => { e with node := { e.node with lastWrite := now } }
  let o := if newF = oldF then o
    else (o.modify (foldPath parentPath) fun e =>
      { e with node := { e.node with
          children := e.node.children.insert (fold (leaf path)) (leaf path, .tombstone) } }).tomb
      oldF v
  let o := o.modify (foldPath parentPath) (setChild newLeaf .present v now)
  return (v, o.touchAncestors parentPath v)

/-- Whether `path` changed after `version`. -/
def changedSince (o : Overlay) (path : Path) (subtree : Bool) (version : ℕ) : Bool :=
  let f := foldPath path
  match o.entries.lookup f with
  | some e => version < e.changed || (subtree && version < e.subtree)
  | none =>
    ((selfAndAncestors f).any fun q => (o.deletedAt.lookup q).any fun t => version < t) ||
      version < o.deletedFloor

inductive Op where
  | setValue (path : Path) (name : Str) (ty : UInt32) (data : List UInt8) (now : UInt64)
  | deleteValue (path : Path) (name : Str) (now : UInt64)
  | createKey (path : Path) (volatile realExists : Bool) (now : UInt64)
  | deleteKey (path : Path) (now : UInt64)
  | renameKey (path : Path) (newLeaf : Str) (now : UInt64)

def call (o : Overlay) : Op → Except RegError (ℕ × Overlay)
  | .setValue path name ty data now => o.setValue path name ty data now
  | .deleteValue path name now => o.deleteValue path name now
  | .createKey path volatile realExists now => o.createKey path volatile realExists now
  | .deleteKey path now => o.deleteKey path now
  | .renameKey path newLeaf now => o.renameKey path newLeaf now

/-- The overlay after the call: every mutator checks before it changes anything, so a call
that fails leaves the overlay as it was. -/
def step (o : Overlay) (op : Op) : Overlay :=
  match o.call op with
  | .ok (_, o') => o'
  | .error _ => o

end Overlay

end AetherVfs.Registry
