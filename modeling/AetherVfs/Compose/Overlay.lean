import AetherVfs.Compose.Layered

/-!
# The overlay

`vfs-compose/src/overlay/`: a writable upper provider over a base. A marker `.wh.x` in a directory
of the upper hides the base's `x` there; `.cu.n.x` is a copy of `x` on its way into the upper. The
index keeps, for every directory that was scanned once, the names its markers hide.
-/

namespace AetherVfs.Compose.Overlay

variable [ToLowercase]

/-! ## Reserved names -/

def whiteoutPrefix : Str := ['.', 'w', 'h', '.']

def copyUpPrefix : Str := ['.', 'c', 'u', '.']

def markerOf (name : Str) : Option Str :=
  if whiteoutPrefix <+: name then some (name.drop whiteoutPrefix.length) else none

/-- A name that the upper does not hold as content. -/
def Reserved (name : Str) : Prop := whiteoutPrefix <+: name ∨ copyUpPrefix <+: name

instance (name : Str) : Decidable (Reserved name) := inferInstanceAs (Decidable (_ ∨ _))

/-- A marker for the names that fold to `k`. -/
def Marks (k : Str) (e : DirEntry) : Prop := (markerOf e.name).map fold = some k

instance (k : Str) (e : DirEntry) : Decidable (Marks k e) := inferInstanceAs (Decidable (_ = _))

omit [ToLowercase] in
theorem reserved_of_markerOf {name target : Str} (h : markerOf name = some target) :
    Reserved name := by
  rw [markerOf] at h
  split_ifs at h with hp
  exact Or.inl hp

theorem Marks.reserved {k : Str} {e : DirEntry} (h : Marks k e) : Reserved e.name := by
  obtain ⟨target, htarget, -⟩ := Option.map_eq_some_iff.mp h
  exact reserved_of_markerOf htarget

/-! ## The index -/

/-- `WhiteoutIndex`: the folded names that the markers of a scanned directory hide. -/
structure WhiteoutIndex where
  generation : ℕ
  dirs : Table Key (List Str)

def WhiteoutIndex.new : WhiteoutIndex := ⟨0, ∅⟩

def scanWhiteouts (upper : View) (dir : VPath) : Except Status (List Str) :=
  match upper.readdir dir with
  | .ok entries => .ok (entries.filterMap fun e => (markerOf e.name).map fold)
  | .error .notFound => .ok []
  | .error .notADir => .ok []
  | .error e => .error e

/-- What a walk through the index comes to: an answer, or a directory not scanned yet. -/
inductive Walk where
  | found (hidden : Bool)
  | unscanned (dir : VPath)

/-- The inner loop of `whiteout_walk`, from a path outwards; the path is given last component
first. -/
def walkFrom (ix : WhiteoutIndex) (ancestors : Bool) : Bool → List Str → Walk
  -- The root has itself for a parent, and the empty name.
  | check, [] =>
    if check then
      match ix.dirs.lookup [] with
      | none => .unscanned []
      | some hidden => .found ([] ∈ hidden)
    else .found false
  | check, name :: up =>
    let outwards := if ancestors = false ∨ up = [] then .found false else
      walkFrom ix ancestors true up
    if check then
      match ix.dirs.lookup (up.reverse.map fold) with
      | none => .unscanned up.reverse
      | some hidden => if fold name ∈ hidden then .found true else outwards
    else outwards

/-- The outer loop of `whiteout_walk`: a directory not scanned yet is scanned, and the walk starts
again. -/
def walkLoop (upper : View) (p : VPath) (own ancestors : Bool) :
    ℕ → WhiteoutIndex → Except Status Bool × WhiteoutIndex
  | 0, ix => (.error .ioError, ix)
  | fuel + 1, ix =>
    match walkFrom ix ancestors own p.reverse with
    | .found hidden => (.ok hidden, ix)
    | .unscanned dir =>
      match scanWhiteouts upper dir with
      | .error e => (.error e, ix)
      | .ok hidden =>
        walkLoop upper p own ancestors fuel
          { ix with dirs := ix.dirs.insert (dir.map fold) hidden }

/-- `whiteout_walk`. No directory is scanned twice, so that as many rounds are enough as the path
has directories. -/
def whiteoutWalk (upper : View) (ix : WhiteoutIndex) (p : VPath) (own ancestors : Bool) :
    Except Status Bool × WhiteoutIndex :=
  walkLoop upper p own ancestors (p.length + 2) ix

def hiddenByWhiteout (upper : View) (ix : WhiteoutIndex) (p : VPath) : Except Status Bool :=
  (whiteoutWalk upper ix p true true).1

/-! ## The calls that look -/

variable (upper base : View) (ix : WhiteoutIndex)

def getattr (p : VPath) : Except Status (Option Stat) :=
  if p = [] then .ok (some ⟨.dir, 0, 0⟩)
  else
    match hiddenByWhiteout upper ix p with
    | .error e => .error e
    | .ok true => .ok none
    | .ok false =>
      match upper.getattr p with
      | .error e => .error e
      | .ok (some st) => .ok (some st)
      | .ok none => base.getattr p

/-- The base's part of a listing, with whether the base has a directory there, or a file. -/
def readBase (p : VPath) (hidden : Bool) : Except Status (Merged × Bool × Bool) :=
  if hidden then .ok (.empty, false, false)
  else
    match base.readdir p with
    | .ok entries => .ok (Merged.empty.insertAll entries, true, false)
    | .error .notFound => .ok (.empty, false, false)
    | .error .notADir => .ok (.empty, false, true)
    | .error e => .error e

/-- One entry of the upper's listing: a marker takes its name out, a copy on its way is passed
over, anything else is put in. -/
def mergeUpper (map : Merged) (e : DirEntry) : Merged :=
  match markerOf e.name with
  | some target => map.erase (fold target)
  | none => if copyUpPrefix <+: e.name then map else map.mergeUpperEntry e

def finish (p : VPath) (map : Merged) (baseIsDir notDir : Bool) : Except Status (List DirEntry) :=
  if baseIsDir then .ok map.sortedByFoldedName
  else if notDir then .error .notADir
  else if p = [] then .ok map.sortedByFoldedName
  else
    match getattr upper base ix p with
    | .error e => .error e
    | .ok none => .error .notFound
    | .ok (some _) => .ok map.sortedByFoldedName

def readdir (p : VPath) : Except Status (List DirEntry) :=
  match hiddenByWhiteout upper ix p with
  | .error e => .error e
  | .ok hidden =>
    match readBase base p hidden with
    | .error e => .error e
    | .ok (map, baseIsDir, notDir) =>
      match upper.readdir p with
      | .ok entries => .ok (entries.foldl mergeUpper map).sortedByFoldedName
      | .error .notFound => finish upper base ix p map baseIsDir notDir
      | .error .notADir => finish upper base ix p map baseIsDir true
      | .error e => .error e

def storedName (p : VPath) : Except Status (Option Str) :=
  if p = [] then .ok none
  else
    match hiddenByWhiteout upper ix p with
    | .error e => .error e
    | .ok true => .ok none
    | .ok false => mergeStoredName base upper p

def view : View where
  getattr := getattr upper base ix
  readdir := readdir upper base ix
  storedName := storedName upper base ix

/-! ## Opens -/

inductive Layer where
  | upper
  | base
deriving DecidableEq

/-- The states of the two providers, the handles that are open, and the index. -/
structure State (upper base : Provider) where
  upper : upper.State
  base : base.State
  opens : HandleTable (Layer × Handle)
  whiteouts : WhiteoutIndex

namespace State

variable {upper base : Provider}

def now (s : State upper base) : View :=
  Overlay.view (upper.view s.upper) (base.view s.base) s.whiteouts

def track (s : State upper base) (layer : Layer) (o : Opened) :
    Except Status Opened × State upper base :=
  let (h, opens) := s.opens.insert (layer, o.handle)
  (.ok { o with handle := h }, { s with opens := opens })

def openRead (s : State upper base) (p : VPath) (flags : Flags) :
    Except Status Opened × State upper base :=
  let (hidden, ix) := whiteoutWalk (upper.view s.upper) s.whiteouts p true true
  let s := { s with whiteouts := ix }
  match hidden with
  | .error e => (.error e, s)
  | .ok true => (.error .notFound, s)
  | .ok false =>
    let (opened, child) := upper.openPath s.upper p flags
    let s := { s with upper := child }
    match opened with
    | .ok o => s.track .upper o
    | .error .notFound =>
      let (opened, child) := base.openPath s.base p flags
      let s := { s with base := child }
      match opened with
      | .ok o => s.track .base o
      | .error e => (.error e, s)
    | .error e => (.error e, s)

end State

end AetherVfs.Compose.Overlay
