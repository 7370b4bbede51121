import AetherVfs.Compose.Provider
import Mathlib.Data.List.DropRight

/-!
# A zip archive as a provider

`vfs-zip/src/backend.rs`: the index that is built from the central directory of an archive, and
the lookups in it. A key of the index is the list of the parts of its path between slashes; the
empty path has none. A request path is a list of components, none of them empty. The index is
a hash map, so in which order its keys are walked is not up to the code; it matters where keys
differ by case alone.
-/

namespace AetherVfs.Zip

open Compose

/-- An entry of the central directory. -/
structure CdEntry where
  name : Str
  method : ℕ
  uncompSize : ℕ
  localHeaderOff : ℕ
  mtime : ℤ
deriving DecidableEq, Repr

inductive ZipError where
  | unsupported
  | io
deriving DecidableEq, Repr

structure Node where
  isDir : Bool
  size : ℕ
  mtime : ℤ
  dataOff : ℕ
deriving DecidableEq, Repr

def Node.stat (n : Node) : Stat := ⟨if n.isDir then .dir else .file, n.size, n.mtime⟩

/-- A directory that is only implied by the paths below it. -/
def Node.implied : Node := ⟨true, 0, 0, 0⟩

/-- The parts of a path between its slashes. -/
def parts (s : Str) : List Str := if s = [] then [] else s.splitOn '/'

namespace CdEntry

/-- `e.name.ends_with('/')`. -/
def isDir (e : CdEntry) : Bool := e.name.getLast? = some '/'

/-- The path of an entry: of a directory without the slashes at its end, of a file without those
at its start. -/
def vpath (e : CdEntry) : Str :=
  if e.isDir then e.name.rdropWhile (· = '/')
  else (e.name.dropWhile (· = '/')).map fun c => if c = '\\' then '/' else c

def key (e : CdEntry) : List Str := parts e.vpath

/-- The directories `ensure_parents` sees above an entry: it skips empty parts. -/
def parents (e : CdEntry) : List (List Str) := (e.key.dropLast.filter (· ≠ [])).inits.tail

/-- The node an entry stands for, with its payload at `dataOff`. -/
def node (e : CdEntry) (dataOff : ℕ) : Node :=
  if e.isDir then ⟨true, 0, e.mtime, 0⟩ else ⟨false, e.uncompSize, e.mtime, dataOff⟩

end CdEntry

abbrev Nodes := Table (List Str) Node

/-- `nodes.entry(acc).or_insert(..)`. -/
def orInsert (nodes : Nodes) (k : List Str) : Nodes :=
  if k ∈ nodes then nodes else nodes.insert k Node.implied

def ensureParents (nodes : Nodes) (e : CdEntry) : Nodes := e.parents.foldl orInsert nodes

/-- One entry of the central directory. Where the payload of a file begins is read from its local
header, which may fail. -/
def addEntry (dataOffset : ℕ → Option ℕ) (nodes : Nodes) (e : CdEntry) : Except ZipError Nodes :=
  if e.isDir then .ok ((ensureParents nodes e).insert e.key (e.node 0))
  else if e.method ≠ 0 then .error .unsupported
  else
    match dataOffset e.localHeaderOff with
    | none => .error .io
    | some off => .ok ((ensureParents nodes e).insert e.key (e.node off))

def index (dataOffset : ℕ → Option ℕ) (entries : List CdEntry) : Except ZipError Nodes :=
  entries.foldlM (addEntry dataOffset) ∅

variable [ToLowercase]

/-- `ZipProvider`, without its open files. -/
structure Provider where
  nodes : Nodes
  byFold : Table (List Str) (List Str)

/-- The folded index, from the keys in the order the hash map gives them. -/
def foldIndex (keys : List (List Str)) : Table (List Str) (List Str) :=
  keys.foldl (fun t k => t.insert (k.map fold) k) ∅

namespace Provider

/-- `ZipProvider::open`. -/
def openZip (dataOffset : ℕ → Option ℕ) (order : List (List Str) → List (List Str))
    (entries : List CdEntry) : Except ZipError Provider :=
  (index dataOffset entries).map fun nodes => ⟨nodes, foldIndex (order nodes.keys)⟩

def get (z : Provider) (p : VPath) : Option Node :=
  match z.nodes.lookup p with
  | some n => some n
  | none => (z.byFold.lookup (p.map fold)).bind fun canon => z.nodes.lookup canon

def getattr (z : Provider) (p : VPath) : Except Status (Option Stat) :=
  .ok (if p = [] then some ⟨.dir, 0, 0⟩ else (z.get p).map Node.stat)

def storedName (z : Provider) (p : VPath) : Except Status (Option Str) :=
  .ok (if p = [] then none else (z.byFold.lookup (p.map fold)).bind List.getLast?)

/-- One key of the index, seen from the directory `canon`. -/
def addChild (canon : List Str) (kids : Table Str DirEntry) (k : List Str) (n : Node) :
    Table Str DirEntry :=
  if canon <+: k then
    match k.drop canon.length with
    | [] => kids
    | [c] => if c = [] then kids else kids.insert c ⟨c, n.stat⟩
    | c :: _ :: _ => if c ∈ kids then kids else kids.insert c ⟨c, Node.implied.stat⟩
  else kids

def children (z : Provider) (canon : List Str) : Table Str DirEntry :=
  z.nodes.entries.foldl (fun kids r => addChild canon kids r.1 r.2) ∅

/-- The directory a listing is of, under the key it has in the index. -/
def listed (z : Provider) (p : VPath) : Except Status (List Str) :=
  if p = [] then .ok []
  else
    match z.get p with
    | some n => if n.isDir then .ok ((z.byFold.lookup (p.map fold)).getD p) else .error .notADir
    | none => .error .notFound

def readdir (z : Provider) (p : VPath) : Except Status (List DirEntry) :=
  (z.listed p).map fun canon =>
    ((z.children canon).entries.map Sigma.snd).insertionSort fun a b => fold a.name ≤ fold b.name

def view (z : Provider) : View := ⟨z.getattr, z.readdir, z.storedName⟩

end Provider

end AetherVfs.Zip
