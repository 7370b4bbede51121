import AetherVfs.Compose.Provider
import AetherVfs.Lib.HostPath

/-!
# A host directory as a provider

`vfs-compose/src/disk.rs`: a request path is resolved to a path of the host, and that is handed
to the file system. On Windows the host folds case itself; elsewhere a spelling that is not
there is looked up in listings, component by component. A call of the provider is the tree
of the file system calls it makes, by what each of them returns.
-/

namespace AetherVfs.Compose.Disk

open HostPath

/-- `std::io::ErrorKind`, as far as the provider looks at it. -/
inductive IoKind where
  | notFound
  | notADirectory
  | alreadyExists
  | other
deriving DecidableEq, Repr

structure Metadata where
  isDir : Bool
  isFile : Bool
  len : ℕ
deriving DecidableEq, Repr

/-- An entry of a listing: its name, if that is UTF-8, the name as it is shown, and its metadata,
if that could be read. -/
structure Listed where
  utf8 : Option Str
  lossy : Str
  metadata : Option Metadata
deriving DecidableEq, Repr

/-- The names of a listing are those of files and directories. -/
def Legal (host : Host) (es : List Listed) : Prop := ∀ e ∈ es, ∀ n ∈ e.utf8, IsPlain host n

/-- What a call of the provider asks of the file system, and does with the answer. -/
inductive Calls (α : Type) : Type where
  | done (a : α)
  | metadata (p : PathBuf) (k : Except IoKind Metadata → Calls α)
  | symlinkMetadata (p : PathBuf) (k : Except IoKind Metadata → Calls α)
  | readDir (p : PathBuf) (k : Except IoKind (List Listed) → Calls α)
  /-- An open of any kind, and the metadata of the file that is open then. -/
  | openFile (p : PathBuf) (flags : Flags) (k : Except IoKind Metadata → Calls α)
  /-- A change at one or two paths, or of the file that is open. -/
  | change (paths : List PathBuf) (k : Except IoKind Unit → Calls α)

namespace Calls

variable {α β : Type}

def bind : Calls α → (α → Calls β) → Calls β
  | done a, f => f a
  | metadata p k, f => metadata p fun r => (k r).bind f
  | symlinkMetadata p k, f => symlinkMetadata p fun r => (k r).bind f
  | readDir p k, f => readDir p fun r => (k r).bind f
  | openFile p flags k, f => openFile p flags fun r => (k r).bind f
  | change paths k, f => change paths fun r => (k r).bind f

/-- Every path that is passed to the file system meets `P` and the outcome meets `Q`, whatever
the file system answers. -/
def Meets (host : Host) (P : PathBuf → Prop) (Q : α → Prop) : Calls α → Prop
  | done a => Q a
  | metadata p k => P p ∧ ∀ r, (k r).Meets host P Q
  | symlinkMetadata p k => P p ∧ ∀ r, (k r).Meets host P Q
  | readDir p k => P p ∧ (∀ err, (k (.error err)).Meets host P Q) ∧
      ∀ es, Legal host es → (k (.ok es)).Meets host P Q
  | openFile p _ k => P p ∧ ∀ r, (k r).Meets host P Q
  | change paths k => (∀ p ∈ paths, P p) ∧ ∀ r, (k r).Meets host P Q

/-- Every path that is passed to the file system meets `P`. -/
def Passes (host : Host) (P : PathBuf → Prop) (m : Calls α) : Prop := m.Meets host P fun _ => True

end Calls

def parts (rel : Str) : List Str := (rel.splitOn '/').filter (· ≠ [])

/-- The loop of `resolve`: a bare `..` is refused. -/
def pushParts (host : Host) (p : PathBuf) : List Str → Option PathBuf
  | [] => some p
  | part :: rest => if part = dotDot then none else pushParts host (p.push host part) rest

variable [ToLowercase]

section Resolve

variable (host : Host) (root : PathBuf)

def resolve (rel : Str) : Except Status PathBuf :=
  match pushParts host root (parts rel) with
  | some p => .ok p
  | none => .error .badRequest

/-- The better of the best name so far and one more entry of a listing. -/
def better (part : Str) (best : Option Str) (e : Listed) : Option Str :=
  match e.utf8 with
  | none => best
  | some name =>
    if fold name = fold part then
      match best with
      | some prev => if prev ≤ name then some prev else some name
      | none => some name
    else best

/-- The name of a listing that is taken for a component: of those that fold as it does, the
first in the order of bytes. -/
def best (part : Str) (es : List Listed) : Option Str := es.foldl (better part) none

/-- The loop of `resolve_fold_equal`: the components, looked up one after the other. Where one is
not found, it and the rest are kept as they are. -/
def foldWalk (cur : PathBuf) : List Str → Calls (Option PathBuf)
  | [] => .done (some cur)
  | part :: rest =>
    if part = dotDot then .done none
    else .symlinkMetadata (cur.push host part) fun r =>
      match r with
      | .ok _ => foldWalk (cur.push host part) rest
      | .error _ => .readDir cur fun r =>
        match r with
        | .error _ => .done (some (rest.foldl (PathBuf.push host) (cur.push host part)))
        | .ok es =>
          match best part es with
          | some name => foldWalk (cur.push host name) rest
          | none => .done (some (rest.foldl (PathBuf.push host) (cur.push host part)))

def resolveFoldEqual (rel : Str) : Calls (Option PathBuf) :=
  match pushParts host root (parts rel) with
  | none => .done none
  | some exact => .symlinkMetadata exact fun r =>
    match r with
    | .ok _ => .done (some exact)
    | .error _ => foldWalk host root (parts rel)

def foldFallback (rel : Str) (exact : PathBuf) : Calls PathBuf :=
  match host with
  | .windows => .done exact
  | .unix => (resolveFoldEqual host root rel).bind fun found => .done (found.getD exact)

def resolveCaseAware (rel : Str) : Calls (Except Status PathBuf) :=
  match resolve host root rel with
  | .error st => .done (.error st)
  | .ok exact => (foldFallback host root rel exact).bind fun p => .done (.ok p)

end Resolve

/-! ## The calls -/

section Operations

variable (host : Host) (root : PathBuf)

def statOf (m : Metadata) : Option Stat :=
  if m.isDir then some ⟨.dir, 0, 0⟩ else if m.isFile then some ⟨.file, m.len, 0⟩ else none

def getattr (rel : Str) : Calls (Except Status (Option Stat)) :=
  match resolve host root rel with
  | .error st => .done (.error st)
  | .ok exact => .metadata exact fun r =>
    match r with
    | .ok m => .done (.ok (statOf m))
    | .error .notFound => (foldFallback host root rel exact).bind fun folded =>
      .metadata folded fun r =>
        match r with
        | .ok m => .done (.ok (statOf m))
        | .error .notFound => .done (.ok none)
        | .error _ => .done (.error .ioError)
    | .error _ => .done (.error .ioError)

def entries (es : List Listed) : List DirEntry :=
  (es.filterMap fun e => e.metadata.map fun m =>
    ⟨e.lossy, if m.isDir then ⟨.dir, 0, 0⟩ else ⟨.file, m.len, 0⟩⟩).insertionSort
      fun a b => fold a.name ≤ fold b.name

def readdir (rel : Str) : Calls (Except Status (List DirEntry)) :=
  match resolve host root rel with
  | .error st => .done (.error st)
  | .ok exact => .readDir exact fun r =>
    match r with
    | .ok es => .done (.ok (entries es))
    | .error .notFound => (foldFallback host root rel exact).bind fun folded =>
      .readDir folded fun r =>
        match r with
        | .ok es => .done (.ok (entries es))
        | .error .notFound => .done (.error .notFound)
        | .error .notADirectory => .done (.error .notADir)
        | .error _ => .done (.error .ioError)
    | .error .notADirectory => .done (.error .notADir)
    | .error _ => .done (.error .ioError)

structure State where
  next : ℕ
  opens : Table ℕ PathBuf

def State.insert (s : State) (p : PathBuf) : State := ⟨s.next + 1, s.opens.insert s.next p⟩

def openRead (s : State) (rel : Str) : Calls (Except Status Opened × State) :=
  match resolve host root rel with
  | .error st => .done (.error st, s)
  | .ok exact => .metadata exact fun r =>
    match r with
    | .ok m => finish exact m
    | .error _ => (foldFallback host root rel exact).bind fun folded =>
      .metadata folded fun r =>
        match r with
        | .ok m => finish folded m
        | .error _ => .done (.error .notFound, s)
where
  finish (p : PathBuf) (m : Metadata) : Calls (Except Status Opened × State) :=
    if m.isDir then .done (.ok ⟨s.next, 0, true⟩, { s with next := s.next + 1 })
    else .openFile p Flags.read fun r =>
      match r with
      | .ok _ => .done (.ok ⟨s.next, m.len, false⟩, s.insert p)
      | .error _ => .done (.error .ioError, s)

def openError : IoKind → Status
  | .notFound => .notFound
  | .alreadyExists => .exists
  | _ => .ioError

def openCreate (s : State) (rel : Str) (flags : Flags) : Calls (Except Status Opened × State) :=
  (resolveCaseAware host root rel).bind fun r =>
    match r with
    | .error st => .done (.error st, s)
    | .ok p =>
      match p.parent with
      | some dir => .change [dir] fun r =>
        match r with
        | .error _ => .done (.error .ioError, s)
        | .ok () => attempt p
      | none => attempt p
where
  attempt (p : PathBuf) : Calls (Except Status Opened × State) :=
    .openFile p flags fun r =>
      match r with
      | .ok m => .done (.ok ⟨s.next, m.len, false⟩, s.insert p)
      | .error err => .done (.error (openError err), s)

def openExisting (s : State) (rel : Str) (flags : Flags) : Calls (Except Status Opened × State) :=
  match resolve host root rel with
  | .error st => .done (.error st, s)
  | .ok exact => .openFile exact flags fun r =>
    match r with
    | .ok m => .done (.ok ⟨s.next, m.len, false⟩, s.insert exact)
    | .error .notFound => (foldFallback host root rel exact).bind fun folded =>
      .openFile folded flags fun r =>
        match r with
        | .ok m => .done (.ok ⟨s.next, m.len, false⟩, s.insert folded)
        | .error err => .done (.error (openError err), s)
    | .error err => .done (.error (openError err), s)

def openPath (s : State) (rel : Str) (flags : Flags) : Calls (Except Status Opened × State) :=
  if flags.write = false then openRead host root s rel
  else if flags.create then openCreate host root s rel flags
  else openExisting host root s rel flags

def ioResult : Except IoKind Unit → Except Status Unit
  | .ok () => .ok ()
  | .error _ => .error .ioError

def mkdir (rel : Str) : Calls (Except Status Unit) :=
  (resolveCaseAware host root rel).bind fun r =>
    match r with
    | .error st => .done (.error st)
    | .ok p => .change [p] fun r => .done (ioResult r)

def remove (rel : Str) : Calls (Except Status Unit) :=
  (resolveCaseAware host root rel).bind fun r =>
    match r with
    | .error st => .done (.error st)
    | .ok p => .change [p] fun r =>
      match r with
      | .ok () => .done (.ok ())
      | .error .notFound => .done (.error .notFound)
      | .error _ => .metadata p fun r =>
        match r with
        | .ok ⟨true, _, _⟩ => .change [p] fun r =>
          match r with
          | .ok () => .done (.ok ())
          | .error .notFound => .done (.error .notFound)
          | .error _ => .done (.error .ioError)
        | _ => .done (.error .ioError)

/-- `rename`, within one root or from one to another. -/
def rename (sameRoot : Bool) (src dst : Str) : Calls (Except Status Unit) :=
  if sameRoot = false then .done (.error .badRequest)
  else (resolveCaseAware host root src).bind fun r =>
    match r with
    | .error st => .done (.error st)
    | .ok p => (resolveCaseAware host root dst).bind fun r =>
      match r with
      | .error st => .done (.error st)
      | .ok q => .change [p, q] fun r => .done (ioResult r)

def setAttr (rel : Str) (attr : SetAttr) : Calls (Except Status Unit) :=
  if attr.size = none ∧ attr.mtime = none then .done (.ok ())
  else
    match resolve host root rel with
    | .error st => .done (.error st)
    | .ok exact => .openFile exact ⟨true, false, false, false⟩ fun r =>
      match r with
      | .ok _ => apply
      | .error _ => (foldFallback host root rel exact).bind fun folded =>
        .openFile folded ⟨true, false, false, false⟩ fun r =>
          match r with
          | .ok _ => apply
          | .error _ => .done (.error .ioError)
where
  /-- `set_times` of the open file. -/
  times : Calls (Except Status Unit) :=
    if attr.mtime = none then .done (.ok ()) else .change [] fun r => .done (ioResult r)
  /-- `set_len` and `set_times` of the open file. -/
  apply : Calls (Except Status Unit) :=
    if attr.size = none then times
    else .change [] fun r =>
      match r with
      | .ok () => times
      | .error _ => .done (.error .ioError)

end Operations

end AetherVfs.Compose.Disk
