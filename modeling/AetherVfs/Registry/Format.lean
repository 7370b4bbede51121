import AetherVfs.Lib.LittleEndian
import AetherVfs.Registry.Overlay

/-!
# The file the registry overlay is saved in

`vfs-registry/src/format.rs`: `encode` writes one depth-first tree of the nodes that are not
volatile, `decode` checks and rebuilds it. Lengths and counts are written as 32-bit numbers,
`n as u32`, whatever they are. A reader is the bytes left.
-/

namespace AetherVfs.Registry

def utf8 (s : Str) : List UInt8 := s.flatMap String.utf8EncodeChar

def fromUtf8 (b : List UInt8) : Option Str := b.toByteArray.utf8Decode?.map Array.toList

@[simp] theorem fromUtf8_utf8 (s : Str) : fromUtf8 (utf8 s) = some s := by
  have hdecode : (s.utf8Encode).utf8Decode? = some s.toArray := List.utf8Decode?_utf8Encode
  have hbytes : (utf8 s).toByteArray = s.utf8Encode := rfl
  simp [fromUtf8, hbytes, hdecode]

theorem utf8_of_fromUtf8 {b : List UInt8} {s : Str} (h : fromUtf8 b = some s) : utf8 s = b := by
  obtain ⟨chars, hchars, rfl⟩ := Option.map_eq_some_iff.mp h
  have hback := ByteArray.utf8Encode_get_utf8Decode? (b := b.toByteArray)
    (h := by rw [hchars]; rfl)
  simp only [hchars, Option.get_some] at hback
  have hbytes : (utf8 chars.toList).toByteArray = chars.toList.utf8Encode := rfl
  rw [← hbytes] at hback
  exact List.toByteArray_inj.mp hback

namespace Format

def magic : List UInt8 := [0x41, 0x45, 0x52, 0x45, 0x47, 0, 0, 1]
def flagCreated : UInt8 := 1

inductive FormatError where
  | truncated
  | badMagic
  | badChecksum
  | invalid (why : String)
deriving DecidableEq

/-- The wrapping sum of the bytes as zero-padded little-endian words. -/
def checksum (b : List UInt8) : UInt64 :=
  ((b.toChunks 8).map fun w => UInt64.ofNat (LittleEndian.value w)).foldl (· + ·) 0

def putU32 (n : ℕ) : List UInt8 := LittleEndian.bytes 4 n

def putStr (s : Str) : List UInt8 := putU32 (utf8 s).length ++ utf8 s

def putValue (v : Value) : List UInt8 :=
  putStr v.name ++ LittleEndian.bytes 4 v.ty.toNat ++ putU32 v.data.length ++ v.data

def sortedChildren (node : Node) : List (Str × Child) :=
  (node.children.entries.insertionSort fun a b => a.1 ≤ b.1).map fun r => r.2

def tombstonedChildren (node : Node) : List Str :=
  (sortedChildren node).filterMap fun c => if c.2 = .tombstone then some c.1 else none

section

variable [ToLowercase]

/-- The children that are written: present, with a node that is not volatile. -/
def savedChildren (o : Overlay) (path : Path) (node : Node) : List (Str × Node) :=
  (sortedChildren node).filterMap fun c =>
    if c.2 = .present then
      ((o.node (path ++ [c.1])).filter fun n => !n.volatile).map fun n => (c.1, n)
    else none

/-- What `encode_node` writes after the spelling, nested `fuel` deep at most. -/
def encodeBody (o : Overlay) : ℕ → Path → Node → List UInt8
  | 0, _, _ => []
  | fuel + 1, path, node =>
    let kids := savedChildren o path node
    [if node.created then flagCreated else 0] ++ LittleEndian.bytes 8 node.lastWrite.toNat ++
      putU32 node.values.length ++ putU32 node.valueTombstones.length ++
      putU32 (tombstonedChildren node).length ++ putU32 kids.length ++
      node.values.flatMap putValue ++ node.valueTombstones.flatMap putStr ++
      (tombstonedChildren node).flatMap putStr ++
      kids.flatMap fun k => putStr k.1 ++ encodeBody o fuel (path ++ [k.1]) k.2

/-- The entry `walk` visits first. -/
def firstEntry (o : Overlay) : Option Entry :=
  ((o.entries.entries.insertionSort fun a b =>
    List.intercalate ['\\'] a.1 ≤ List.intercalate ['\\'] b.1).map fun r => r.2).head?

/-- The length of the longest path: no chain of keys nests deeper. -/
def encodeFuel (o : Overlay) : ℕ := (o.entries.keys.map List.length).foldr max 0

def encodeRoot (o : Overlay) : List UInt8 :=
  match firstEntry o with
  | some e =>
    if !e.node.volatile && e.path.length = 2 then
      [1] ++ putStr (leaf e.path) ++ encodeBody o (encodeFuel o) e.path e.node
    else [0]
  | none => [0]

def encode (o : Overlay) : List UInt8 :=
  let out := magic ++ encodeRoot o
  out ++ LittleEndian.bytes 8 (checksum out).toNat

end

abbrev Reader := List UInt8

namespace Reader

def take (r : Reader) (n : ℕ) : Except FormatError (List UInt8 × Reader) :=
  if r.length < n then .error .truncated else .ok (r.splitAt n)

def u8 (r : Reader) : Except FormatError (UInt8 × Reader) :=
  match r with
  | [] => .error .truncated
  | b :: r => .ok (b, r)

def u32 (r : Reader) : Except FormatError (ℕ × Reader) := do
  let (b, r) ← r.take 4
  return (LittleEndian.value b, r)

def u64 (r : Reader) : Except FormatError (UInt64 × Reader) := do
  let (b, r) ← r.take 8
  return (UInt64.ofNat (LittleEndian.value b), r)

def count (r : Reader) : Except FormatError (ℕ × Reader) := do
  let (n, r) ← r.u32
  if r.length < n then throw .truncated
  return (n, r)

def string (r : Reader) (maxUtf16 : ℕ) : Except FormatError (Str × Reader) := do
  let (n, r) ← r.u32
  if maxUtf16 * 3 < n then throw (.invalid "name too long")
  let (b, r) ← r.take n
  let some s := fromUtf8 b | throw (.invalid "invalid UTF-8")
  if maxUtf16 < utf16Len s then throw (.invalid "name too long")
  return (s, r)

def keyName (r : Reader) : Except FormatError (Str × Reader) := do
  let (s, r) ← r.string maxKeyName
  if s = [] ∨ '\\' ∈ s then throw (.invalid "bad key name")
  return (s, r)

end Reader

section

variable [ToLowercase]

def decodeValues : ℕ → Reader → List Str → List Value →
    Except FormatError (List Value × List Str × Reader)
  | 0, r, seen, values => .ok (values, seen, r)
  | n + 1, r, seen, values => do
      let (name, r) ← r.string maxValueName
      let (ty, r) ← r.u32
      let (len, r) ← r.u32
      if maxData < len then throw (.invalid "value data too large")
      let (data, r) ← r.take len
      if fold name ∈ seen then throw (.invalid "duplicate value")
      decodeValues n r (fold name :: seen) (values ++ [⟨name, UInt32.ofNat ty, data⟩])

def decodeValueTombstones : ℕ → Reader → List Str → List Str →
    Except FormatError (List Str × Reader)
  | 0, r, _, tombstones => .ok (tombstones, r)
  | n + 1, r, seen, tombstones => do
      let (name, r) ← r.string maxValueName
      if fold name ≠ name then throw (.invalid "value tombstone not folded")
      if name ∈ seen then throw (.invalid "value both present and tombstoned")
      decodeValueTombstones n r (name :: seen) (tombstones ++ [name])

def decodeChildTombstones : ℕ → Reader → Table Str (Str × Child) →
    Except FormatError (Table Str (Str × Child) × Reader)
  | 0, r, children => .ok (children, r)
  | n + 1, r, children => do
      let (name, r) ← r.keyName
      if fold name ∈ children then throw (.invalid "duplicate child")
      decodeChildTombstones n r (children.insert (fold name) (name, .tombstone))

def decodeKids (decodeChild : Reader → Path → Except FormatError (List (Path × Node) × Reader))
    (path : Path) : ℕ → Reader → Table Str (Str × Child) → List (Path × Node) →
    Except FormatError (Table Str (Str × Child) × List (Path × Node) × Reader)
  | 0, r, children, out => .ok (children, out, r)
  | n + 1, r, children, out => do
      let (name, r) ← r.keyName
      if fold name ∈ children then throw (.invalid "duplicate child")
      let (nodes, r) ← decodeChild r (path ++ [name])
      decodeKids decodeChild path n r (children.insert (fold name) (name, .present)) (out ++ nodes)

/-- `decode_node`, which refuses to nest deeper than `MAX_DEPTH`; `fuel` is how much deeper it
may still go. The node comes before those below it. -/
def decodeNode : ℕ → Reader → Path → Except FormatError (List (Path × Node) × Reader)
  | 0, _, _ => .error (.invalid "keys nested too deeply")
  | fuel + 1, r, path => do
      let (flags, r) ← r.u8
      if flags ≠ 0 ∧ flags ≠ flagCreated then throw (.invalid "unknown or volatile node flags")
      let (lastWrite, r) ← r.u64
      let (nv, r) ← r.count
      let (nt, r) ← r.count
      let (nct, r) ← r.count
      let (nc, r) ← r.count
      let (values, seen, r) ← decodeValues nv r [] []
      let (valueTombstones, r) ← decodeValueTombstones nt r seen []
      let (children, r) ← decodeChildTombstones nct r ∅
      let (children, below, r) ← decodeKids (decodeNode fuel) path nc r children []
      return ((path, {
        values, valueTombstones, children
        created := decide (flags = flagCreated)
        volatile := false
        lastWrite }) :: below, r)

def insertNode (o : Overlay) (path : Path) (node : Node) (changed : ℕ) :
    Except RegError Overlay := do
  if ¬ validPath path then throw .invalidPath
  checkDepth path maxDecodeDepth
  let f := foldPath path
  let deleted := Table.rowsWhere node.children fun _ => true
  let o := deleted.foldl
    (fun o c => if c.2.2 = .tombstone then o.tomb (f ++ [c.1]) changed else o) o
  let entry : Entry := { path, node, changed, subtree := changed }
  return { o with tombs := o.tombs.erase f, entries := o.entries.insert f entry }

def insertNodes : Overlay → List (Path × Node) → Except FormatError Overlay
  | o, [] => .ok o
  | o, (p, n) :: rest =>
    match insertNode o p n 1 with
    | .ok o => insertNodes o rest
    | .error _ => .error (.invalid "bad key path")

def decodeRoot (r : Reader) : Except FormatError (List (Path × Node) × Reader) := do
  let (present, r) ← r.u8
  if present = 0 then return ([], r)
  if present ≠ 1 then throw (.invalid "bad presence byte")
  let (name, r) ← r.keyName
  if fold name ≠ registry then throw (.invalid "root is not Registry")
  decodeNode (maxDecodeDepth + 1) r [[], name]

def decode (b : List UInt8) : Except FormatError Overlay := do
  if b.length < magic.length then throw .truncated
  if b.take 8 ≠ magic then throw .badMagic
  if b.length < magic.length + 1 + 8 then throw .truncated
  let (body, sum) := b.splitAt (b.length - 8)
  if checksum body ≠ UInt64.ofNat (LittleEndian.value sum) then throw .badChecksum
  let (nodes, r) ← decodeRoot (body.drop magic.length)
  if r ≠ [] then throw (.invalid "trailing bytes")
  let o ← insertNodes Overlay.new nodes
  return { o with version := 1 }

end

end Format

end AetherVfs.Registry
