import AetherVfs.Lib.Slice
import AetherVfs.Registry.Merge

/-!
# Information-class layouts

`vfs-registry/src/layout`: what `NtQueryKey`, `NtEnumerateKey` and `NtQueryValueKey` write into a
caller's buffer. Every writer checks the buffer against the fixed part of its layout and then
writes fields and tails in an order of its own; an `Info` is the layout with the writes in that
order. The `Cached`, `Flags` and the other fixed classes are layouts without a tail.
-/

namespace AetherVfs.Registry.Layout

open LittleEndian Slice List

inductive Status where
  | success
  | bufferOverflow
  | invalidParameter
  | bufferTooSmall
  | objectNameNotFound
deriving DecidableEq

inductive KeyInfoClass where
  | basic
  | node
  | full
  | name
  | cached
  | flags
  | virtualization
  | handleTags
deriving DecidableEq

inductive ValueInfoClass where
  | basic
  | full
  | dataOnly
  | fullAlign64
  | dataOnlyAlign64
deriving DecidableEq

structure Written where
  status : Status
  resultLength : ℕ
deriving DecidableEq

def len32 (n : ℕ) : ℕ := min n (2 ^ 32 - 1)

/-- `encode_utf16` of one character. -/
def utf16Units (c : Char) : List ℕ :=
  if c.toNat < 65536 then [c.toNat]
  else [0xD800 + (c.toNat - 65536) / 1024, 0xDC00 + (c.toNat - 65536) % 1024]

def utf16le (s : Str) : List UInt8 := s.flatMap fun c => (utf16Units c).flatMap (bytes 2)

def utf16Bytes (s : Str) : ℕ := len32 (utf16Len s * 2)

def align (n unit : ℕ) : ℕ := (n + unit - 1) / unit * unit

def u32 (off v : ℕ) : Piece UInt8 := .field off (bytes 4 v)
def u64 (off : ℕ) (v : UInt64) : Piece UInt8 := .field off (bytes 8 v.toNat)

def readU32 (pos : ℕ) (buf : List UInt8) : ℕ := value (range pos 4 buf)

/-- One layout with its contents: the size of the fixed part, the size that is reported, and the
writes in the order they are made. -/
structure Info where
  fixed : ℕ
  total : ℕ
  pieces : List (Piece UInt8)

def Info.write (i : Info) (buf : List UInt8) : Option (Written × List UInt8) :=
  if buf.length < i.fixed then some (⟨.bufferTooSmall, len32 i.total⟩, buf)
  else do
    let (fit, buf) ← writeAll i.pieces buf
    return (⟨if fit then .success else .bufferOverflow, len32 i.total⟩, buf)

def classBytes (k : KeyView) : List UInt8 :=
  (k.className.getD []).flatMap fun u => bytes 2 u.toNat

/-- Counts and maxima over the merged view. -/
structure Counts where
  subkeys : ℕ
  maxName : ℕ
  maxClass : ℕ
  values : ℕ
  maxValueName : ℕ
  maxValueData : ℕ

def counts (k : KeyView) : Counts where
  subkeys := len32 k.subkeys.length
  maxName := (k.subkeys.map utf16Bytes).foldl max 0
  maxClass := k.maxSubkeyClassLen.toNat
  values := len32 k.values.length
  maxValueName := (k.values.map fun v => utf16Bytes v.name).foldl max 0
  maxValueData := (k.values.map fun v => len32 v.data.length).foldl max 0

def keyBasic (name : Str) (k : KeyView) : Info :=
  let name := utf16le name
  { fixed := 16
    total := 16 + name.length
    pieces := [u64 0 k.lastWrite, u32 8 0, u32 12 (len32 name.length), .tail 16 name] }

/-- The reported size leaves out the padding before the class. -/
def keyNode (name : Str) (k : KeyView) : Info :=
  let name := utf16le name
  let cls := classBytes k
  { fixed := 24
    total := 24 + name.length + cls.length
    pieces := [u64 0 k.lastWrite, u32 8 0, u32 16 (len32 cls.length), u32 20 (len32 name.length),
        .tail 24 name] ++
      if cls = [] then [u32 12 (2 ^ 32 - 1)]
      else [u32 12 (len32 (align (24 + name.length) 4)), .tail (align (24 + name.length) 4) cls] }

def keyFull (k : KeyView) : Info :=
  let cls := classBytes k
  let c := counts k
  { fixed := 44
    total := 44 + cls.length
    pieces := [u64 0 k.lastWrite, u32 8 0, u32 12 (if cls = [] then 2 ^ 32 - 1 else 44),
      u32 16 (len32 cls.length), u32 20 c.subkeys, u32 24 c.maxName, u32 28 c.maxClass,
      u32 32 c.values, u32 36 c.maxValueName, u32 40 c.maxValueData, .tail 44 cls] }

def keyName (path : Str) : Info :=
  let name := utf16le path
  { fixed := 4
    total := 4 + name.length
    pieces := [u32 0 (len32 name.length), .tail 4 name] }

def keyCached (path : Str) (k : KeyView) : Info :=
  let c := counts k
  { fixed := 40
    total := 40
    pieces := [u64 0 k.lastWrite, u32 8 0, u32 12 c.subkeys, u32 16 c.maxName, u32 20 c.values,
      u32 24 c.maxValueName, u32 28 c.maxValueData, u32 32 (utf16Bytes (leaf (pieces path)))] }

def keyZeroed (size : ℕ) : Info where
  fixed := size
  total := size
  pieces := [.field 0 (List.replicate size 0)]

def keyInfo (cls : KeyInfoClass) (key : KeyView) (nameForNameClass : Str) : Info :=
  match cls with
  | .basic => keyBasic (leaf (pieces nameForNameClass)) key
  | .node => keyNode (leaf (pieces nameForNameClass)) key
  | .full => keyFull key
  | .name => keyName nameForNameClass
  | .cached => keyCached nameForNameClass key
  | .flags => keyZeroed 12
  | .virtualization => keyZeroed 4
  | .handleTags => keyZeroed 4

def subkeyInfo (cls : KeyInfoClass) (name : Str) (sub : KeyView) : Option Info :=
  match cls with
  | .basic => some (keyBasic name sub)
  | .node => some (keyNode name sub)
  | .full => some (keyFull sub)
  | _ => none

/-- `KEY_VALUE_FULL_INFORMATION`, the same for `FullAlign64`. -/
def valueFull (v : Value) : Info :=
  let name := utf16le v.name
  let base := 20 + name.length
  let off := if v.data = [] then base else align base 8
  { fixed := 20
    total := off + v.data.length
    pieces := [u32 0 0, u32 4 v.ty.toNat, u32 12 (len32 v.data.length), u32 16 (len32 name.length),
      .tail 20 name, u32 8 (len32 off), .tail off v.data] }

def valueInfo (cls : ValueInfoClass) (v : Value) : Info :=
  match cls with
  | .basic =>
    let name := utf16le v.name
    { fixed := 12
      total := 12 + name.length
      pieces := [u32 0 0, u32 4 v.ty.toNat, u32 8 (len32 name.length), .tail 12 name] }
  | .full => valueFull v
  | .fullAlign64 => valueFull v
  | .dataOnly =>
    { fixed := 12
      total := 12 + v.data.length
      pieces := [u32 0 0, u32 4 v.ty.toNat, u32 8 (len32 v.data.length), .tail 12 v.data] }
  | .dataOnlyAlign64 =>
    { fixed := 8
      total := 8 + v.data.length
      pieces := [u32 0 v.ty.toNat, u32 4 (len32 v.data.length), .tail 8 v.data] }

def writeKeyInfo (cls : KeyInfoClass) (key : KeyView) (nameForNameClass : Str)
    (buf : List UInt8) : Option (Written × List UInt8) :=
  (keyInfo cls key nameForNameClass).write buf

def writeSubkeyInfo (cls : KeyInfoClass) (name : Str) (sub : KeyView) (buf : List UInt8) :
    Option (Written × List UInt8) :=
  match subkeyInfo cls name sub with
  | some i => i.write buf
  | none => some (⟨.invalidParameter, 0⟩, buf)

def writeValueInfo (cls : ValueInfoClass) (v : Value) (buf : List UInt8) :
    Option (Written × List UInt8) :=
  (valueInfo cls v).write buf

/-! ### What a layout writes -/

theorem even_length_flatMap_bytes {α : Type} (f : α → ℕ) (xs : List α) :
    (xs.flatMap fun x => bytes 2 (f x)).length % 2 = 0 := by
  induction xs with
  | nil => rfl
  | cons x xs ih =>
    rw [flatMap_cons, length_append, length_bytes]
    omega

theorem even_length_classBytes (k : KeyView) : (classBytes k).length % 2 = 0 := by
  unfold classBytes
  exact even_length_flatMap_bytes _ _

theorem even_length_utf16le (s : Str) : (utf16le s).length % 2 = 0 := by
  unfold utf16le
  induction s with
  | nil => rfl
  | cons c s ih =>
    have hc : ((utf16Units c).flatMap (bytes 2)).length % 2 = 0 :=
      even_length_flatMap_bytes id (utf16Units c)
    rw [flatMap_cons, length_append]
    omega

theorem len32_mono {m n : ℕ} (h : m ≤ n) : len32 m ≤ len32 n := min_le_min_right _ h

theorem len32_of_lt {n : ℕ} (h : n < 2 ^ 32) : len32 n = n := by
  unfold len32
  omega

theorem len32_lt (n : ℕ) : len32 n < 256 ^ 4 := by
  unfold len32
  omega

/-- All fields of a layout lie in its fixed part, and its tails end `padding` bytes behind the
size it reports. -/
structure Info.Packed (i : Info) (padding : ℕ) : Prop where
  within : ∀ p ∈ i.pieces, p.Within i.fixed
  fits : ∀ n, i.fixed ≤ n → ((∀ p ∈ i.pieces, p.Fits n) ↔ i.total + padding ≤ n)
  fixed_le : i.fixed ≤ i.total

variable {pos : ℕ} {cls : KeyInfoClass} {i : Info} {k : KeyView}

namespace Info

variable {i : Info} {padding : ℕ} {buf : List UInt8}

theorem write_of_lt (h : buf.length < i.fixed) :
    i.write buf = some (⟨.bufferTooSmall, len32 i.total⟩, buf) := if_pos h

theorem Packed.write_of_le (hi : i.Packed padding) (h : i.fixed ≤ buf.length) :
    i.write buf = some (⟨if i.total + padding ≤ buf.length then .success else .bufferOverflow,
      len32 i.total⟩, overwriteAll i.pieces buf) := by
  have hin : ∀ p ∈ i.pieces, p.Within buf.length := by
    intro p hp
    have := hi.within p hp
    cases p with
    | field off xs => exact le_trans this h
    | tail off xs => trivial
  rw [write, if_neg (not_lt.mpr h), writeAll_eq hin]
  simp only [Option.bind_eq_bind, Option.bind_some, pure, decide_eq_true_eq, hi.fits _ h]

theorem readU32_field (before : List (Piece UInt8)) {after : List (Piece UInt8)} {v : ℕ}
    (hv : v < 256 ^ 4) (hpos : pos + 4 ≤ buf.length)
    (hafter : ∀ q ∈ after, pos + 4 ≤ q.off ∨ q.off + q.elems.length ≤ pos) :
    readU32 pos (overwriteAll (before ++ u32 pos v :: after) buf) = v := by
  have hlen : (u32 pos v).elems.length = 4 := length_bytes 4 v
  have hread : range pos (u32 pos v).elems.length
      (overwriteAll (before ++ u32 pos v :: after) buf) = bytes 4 v := by
    apply range_overwriteAll
    · rw [hlen]
      exact hpos
    · rw [hlen]
      exact hafter
  rw [hlen] at hread
  rw [readU32, hread, value_bytes_of_lt hv]

end Info

/-! ### The layouts one by one -/

/-- The bytes between the name and the class of a `KEY_NODE_INFORMATION`. -/
def nodePadding (name : Str) (k : KeyView) : ℕ :=
  if classBytes k = [] then 0
  else align (24 + (utf16le name).length) 4 - (24 + (utf16le name).length)

theorem packed_of_fields {fixed : ℕ} {fields : List (Piece UInt8)}
    (h : ∀ p ∈ fields, p.IsField fixed) : Info.Packed ⟨fixed, fixed, fields⟩ 0 where
  within := fun p hp => (h p hp).within
  fits := fun n hn => ⟨fun _ => hn, fun _ p hp => (h p hp).fits n⟩
  fixed_le := le_rfl

theorem packed_of_tail {fixed : ℕ} (before after : List (Piece UInt8)) (xs : List UInt8)
    (h : ∀ p ∈ before ++ after, p.IsField fixed) :
    Info.Packed ⟨fixed, fixed + xs.length, before ++ .tail fixed xs :: after⟩ 0 where
  within := by
    intro p hp
    obtain hp | hp := mem_cons.mp (perm_middle.mem_iff.mp hp)
    · rw [hp]
      trivial
    · exact (h p hp).within
  fits := by
    intro n hn
    dsimp only at hn ⊢
    simp only [perm_middle.mem_iff, forall_mem_cons]
    have hfields : ∀ p ∈ before ++ after, p.Fits n := fun p hp => (h p hp).fits n
    rw [and_iff_left hfields]
    simp only [Piece.Fits]
    omega
  fixed_le := Nat.le_add_right fixed xs.length

/-- A second tail behind the first one, at an offset that is only rounded up for a second tail
that is not empty. -/
theorem packed_of_tails {fixed off total padding : ℕ} (before after : List (Piece UInt8))
    (name xs : List UInt8) (h : ∀ p ∈ before ++ after, p.IsField fixed)
    (hoff : fixed + name.length ≤ off) (hend : total + padding = off + xs.length)
    (hempty : xs = [] → off = fixed + name.length) (htotal : fixed ≤ total) :
    Info.Packed ⟨fixed, total, before ++ .tail fixed name :: after ++ [.tail off xs]⟩ padding where
  within := by
    intro p hp
    obtain hp | hp := mem_append.mp hp
    · exact (packed_of_tail before after name h).within p hp
    · rw [mem_singleton.mp hp]
      trivial
  fits := by
    intro n hn
    dsimp only at hn ⊢
    have hfirst := (packed_of_tail before after name h).fits n hn
    dsimp only at hfirst
    rw [forall_mem_append, hfirst, forall_mem_singleton]
    simp only [Piece.Fits]
    have hlen : xs.length = 0 → off = fixed + name.length :=
      fun h0 => hempty (length_eq_zero_iff.mp h0)
    omega
  fixed_le := htotal

theorem packed_keyBasic (name : Str) (k : KeyView) : (keyBasic name k).Packed 0 := by
  apply packed_of_tail [u64 0 k.lastWrite, u32 8 0, u32 12 (len32 (utf16le name).length)] []
  simp [u32, u64, Piece.IsField]

theorem packed_keyFull (k : KeyView) : (keyFull k).Packed 0 := by
  apply packed_of_tail [u64 0 k.lastWrite, u32 8 0,
    u32 12 (if classBytes k = [] then 2 ^ 32 - 1 else 44), u32 16 (len32 (classBytes k).length),
    u32 20 (counts k).subkeys, u32 24 (counts k).maxName, u32 28 (counts k).maxClass,
    u32 32 (counts k).values, u32 36 (counts k).maxValueName, u32 40 (counts k).maxValueData] []
  simp [u32, u64, Piece.IsField]

theorem packed_keyName (path : Str) : (keyName path).Packed 0 := by
  apply packed_of_tail [u32 0 (len32 (utf16le path).length)] []
  simp [u32, Piece.IsField]

theorem packed_keyCached (path : Str) (k : KeyView) : (keyCached path k).Packed 0 := by
  apply packed_of_fields
  simp [u32, u64, Piece.IsField]

theorem packed_keyZeroed (size : ℕ) : (keyZeroed size).Packed 0 := by
  apply packed_of_fields
  simp [Piece.IsField]

theorem le_align {n unit : ℕ} (h : 0 < unit) : n ≤ align n unit := by
  have hdiv := Nat.lt_div_mul_add (a := n + unit - 1) h
  unfold align
  omega

theorem packed_keyNode (name : Str) (k : KeyView) :
    (keyNode name k).Packed (nodePadding name k) := by
  unfold keyNode nodePadding
  dsimp only
  by_cases hcls : classBytes k = []
  · rw [if_pos hcls, if_pos hcls, hcls]
    apply packed_of_tail [u64 0 k.lastWrite, u32 8 0, u32 16 (len32 0),
      u32 20 (len32 (utf16le name).length)] [u32 12 (2 ^ 32 - 1)]
    simp [u32, u64, Piece.IsField]
  · rw [if_neg hcls, if_neg hcls]
    have hle := le_align (n := 24 + (utf16le name).length) (show 0 < 4 by omega)
    apply packed_of_tails [u64 0 k.lastWrite, u32 8 0, u32 16 (len32 (classBytes k).length),
      u32 20 (len32 (utf16le name).length)]
      [u32 12 (len32 (align (24 + (utf16le name).length) 4))] _ _ _ hle
    · omega
    · exact fun h => absurd h hcls
    · omega
    · simp [u32, u64, Piece.IsField]

/-- Where the data of a `KEY_VALUE_FULL_INFORMATION` starts. -/
def dataOffset (v : Value) : ℕ :=
  if v.data = [] then 20 + (utf16le v.name).length else align (20 + (utf16le v.name).length) 8

theorem le_dataOffset (v : Value) : 20 + (utf16le v.name).length ≤ dataOffset v := by
  unfold dataOffset
  split
  · exact le_rfl
  · exact le_align (by omega)

theorem packed_valueFull (v : Value) : (valueFull v).Packed 0 := by
  have hle := le_dataOffset v
  apply packed_of_tails [u32 0 0, u32 4 v.ty.toNat, u32 12 (len32 v.data.length),
    u32 16 (len32 (utf16le v.name).length)] [u32 8 (len32 (dataOffset v))] _ _ _ hle
  · rfl
  · exact fun h => if_pos h
  · change 20 ≤ dataOffset v + v.data.length
    omega
  · simp [u32, Piece.IsField]

theorem packed_keyInfo (cls : KeyInfoClass) (key : KeyView) (path : Str) :
    (keyInfo cls key path).Packed
      (if cls = .node then nodePadding (leaf (pieces path)) key else 0) := by
  cases cls with
  | basic => exact packed_keyBasic _ key
  | node => exact packed_keyNode _ key
  | full => exact packed_keyFull key
  | name => exact packed_keyName path
  | cached => exact packed_keyCached path key
  | flags => exact packed_keyZeroed 12
  | virtualization => exact packed_keyZeroed 4
  | handleTags => exact packed_keyZeroed 4

theorem packed_subkeyInfo {name : Str} {sub : KeyView} (h : subkeyInfo cls name sub = some i) :
    i.Packed (if cls = .node then nodePadding name sub else 0) := by
  cases cls with
  | basic => exact Option.some.inj h ▸ packed_keyBasic name sub
  | node => exact Option.some.inj h ▸ packed_keyNode name sub
  | full => exact Option.some.inj h ▸ packed_keyFull sub
  | name | cached | flags | virtualization | handleTags => cases h

theorem packed_valueInfo (cls : ValueInfoClass) (v : Value) : (valueInfo cls v).Packed 0 := by
  cases cls with
  | basic =>
    apply packed_of_tail [u32 0 0, u32 4 v.ty.toNat, u32 8 (len32 (utf16le v.name).length)] []
    simp [u32, Piece.IsField]
  | full => exact packed_valueFull v
  | fullAlign64 => exact packed_valueFull v
  | dataOnly =>
    apply packed_of_tail [u32 0 0, u32 4 v.ty.toNat, u32 8 (len32 v.data.length)] []
    simp [u32, Piece.IsField]
  | dataOnlyAlign64 =>
    apply packed_of_tail [u32 0 v.ty.toNat, u32 4 (len32 v.data.length)] []
    simp [u32, Piece.IsField]

/-- Where the class of a key with a class starts. -/
def classOffset (off : ℕ) (k : KeyView) : Option ℕ := if classBytes k = [] then none else some off

/-- The place of the offset field of a key's structure, and the offset it gives if there is a
class. -/
def keyOffset (cls : KeyInfoClass) (name : Str) (k : KeyView) : Option (ℕ × Option ℕ) :=
  match cls with
  | .node => some (12, classOffset (align (24 + (utf16le name).length) 4) k)
  | .full => some (12, classOffset 44 k)
  | _ => none

/-- Whatever is at `pos` when the layout has been written is the field's value. -/
def Info.Holds (i : Info) (pos v : ℕ) : Prop :=
  ∀ buf : List UInt8, i.fixed ≤ buf.length → readU32 pos (overwriteAll i.pieces buf) = v

theorem holds_keyNode (name : Str) (k : KeyView) :
    (keyNode name k).Holds 12
      (((classOffset (align (24 + (utf16le name).length) 4) k).map len32).getD (2 ^ 32 - 1)) := by
  intro buf hbuf
  have hfixed : 24 ≤ buf.length := hbuf
  unfold keyNode classOffset
  dsimp only
  by_cases hcls : classBytes k = []
  · rw [if_pos hcls, if_pos hcls]
    apply Info.readU32_field _ (by decide) (by omega)
    simp
  · rw [if_neg hcls, if_neg hcls]
    have hle := le_align (n := 24 + (utf16le name).length) (show 0 < 4 by omega)
    apply Info.readU32_field _ (len32_lt _) (by omega)
    simp only [forall_mem_singleton, Piece.off]
    omega

theorem holds_keyFull (k : KeyView) :
    (keyFull k).Holds 12 (((classOffset 44 k).map len32).getD (2 ^ 32 - 1)) := by
  intro buf hbuf
  have hfixed : 44 ≤ buf.length := hbuf
  have hv : ((classOffset 44 k).map len32).getD (2 ^ 32 - 1) =
      if classBytes k = [] then 2 ^ 32 - 1 else 44 := by
    unfold classOffset
    split <;> rfl
  rw [hv]
  apply Info.readU32_field [u64 0 k.lastWrite, u32 8 0] _ (by omega)
  · simp [u32, Piece.off]
  · split <;> decide

theorem holds_valueFull (v : Value) : (valueFull v).Holds 8 (len32 (dataOffset v)) := by
  intro buf hbuf
  have hfixed : 20 ≤ buf.length := hbuf
  have hle := le_dataOffset v
  apply Info.readU32_field [u32 0 0, u32 4 v.ty.toNat, u32 12 (len32 v.data.length),
    u32 16 (len32 (utf16le v.name).length), .tail 20 (utf16le v.name)] (len32_lt _) (by omega)
  intro q hq
  rw [mem_singleton.mp hq]
  left
  change 8 + 4 ≤ dataOffset v
  omega

theorem classOffset_le {off size : ℕ} (h : 2 ≤ (classBytes k).length → off ≤ size) :
    ∀ n ∈ classOffset off k, n ≤ size := by
  intro n hn
  unfold classOffset at hn
  by_cases hcls : classBytes k = []
  · rw [if_pos hcls] at hn
    cases hn
  · rw [if_neg hcls] at hn
    cases hn
    have heven := even_length_classBytes k
    have hpos := length_pos_of_ne_nil hcls
    exact h (by omega)

theorem keyOffset_spec {name : Str} {o : Option ℕ} (ho : keyOffset cls name k = some (pos, o))
    (hi : subkeyInfo cls name k = some i) :
    i.Holds pos ((o.map len32).getD (2 ^ 32 - 1)) ∧ ∀ n ∈ o, n ≤ i.total := by
  cases cls with
  | node =>
    cases hi
    cases ho
    refine ⟨holds_keyNode name k, classOffset_le ?_⟩
    intro hcls
    -- the padding is at most two bytes, since a name has an even length
    have heven := even_length_utf16le name
    change align (24 + (utf16le name).length) 4 ≤
      24 + (utf16le name).length + (classBytes k).length
    unfold align
    omega
  | full =>
    cases hi
    cases ho
    exact ⟨holds_keyFull k, classOffset_le fun _ => Nat.le_add_right 44 _⟩
  | basic | name | cached | flags | virtualization | handleTags => cases ho

theorem subkeyInfo_of_keyOffset {path : Str} {f : ℕ × Option ℕ}
    (ho : keyOffset cls (leaf (pieces path)) k = some f) :
    subkeyInfo cls (leaf (pieces path)) k = some (keyInfo cls k path) := by
  cases cls with
  | node | full => rfl
  | basic | name | cached | flags | virtualization | handleTags => cases ho

/-! ### Every query under truncation -/

/-- A call of one of the writers, without its buffer. -/
inductive Query where
  | key (cls : KeyInfoClass) (k : KeyView) (path : Str)
  | subkey (cls : KeyInfoClass) (name : Str) (sub : KeyView)
  | value (cls : ValueInfoClass) (v : Value)

namespace Query

def write : Query → List UInt8 → Option (Written × List UInt8)
  | .key cls k path => writeKeyInfo cls k path
  | .subkey cls name sub => writeSubkeyInfo cls name sub
  | .value cls v => writeValueInfo cls v

def info : Query → Option Info
  | .key cls k path => some (keyInfo cls k path)
  | .subkey cls name sub => subkeyInfo cls name sub
  | .value cls v => some (valueInfo cls v)

def size (q : Query) : ℕ := q.info.elim 0 Info.total

def fixed (q : Query) : ℕ := q.info.elim 0 Info.fixed

/-- The padding that the reported size leaves out. -/
def padding : Query → ℕ
  | .key cls k path => if cls = .node then nodePadding (leaf (pieces path)) k else 0
  | .subkey cls name sub => if cls = .node then nodePadding name sub else 0
  | .value _ _ => 0

/-- The place of the offset field, and the offset it gives. -/
def offset : Query → Option (ℕ × Option ℕ)
  | .key cls k path => keyOffset cls (leaf (pieces path)) k
  | .subkey cls name sub => keyOffset cls name sub
  | .value .full v | .value .fullAlign64 v => some (8, some (dataOffset v))
  | .value _ _ => none

theorem write_eq (q : Query) (buf : List UInt8) :
    q.write buf = q.info.elim (some (⟨.invalidParameter, 0⟩, buf)) fun i => i.write buf := by
  cases q with
  | key cls k path => rfl
  | subkey cls name sub =>
    change writeSubkeyInfo cls name sub buf = _
    unfold writeSubkeyInfo
    cases hi : subkeyInfo cls name sub with
    | none => simp [info, hi]
    | some i => simp [info, hi]
  | value cls v => rfl

variable {q : Query}

theorem packed (h : q.info = some i) : i.Packed q.padding := by
  cases q with
  | key cls k path => exact Option.some.inj h ▸ packed_keyInfo cls k path
  | subkey cls name sub => exact packed_subkeyInfo h
  | value cls v => exact Option.some.inj h ▸ packed_valueInfo cls v

theorem offset_spec {o : Option ℕ} (hi : q.info = some i) (ho : q.offset = some (pos, o)) :
    i.Holds pos ((o.map len32).getD (2 ^ 32 - 1)) ∧ ∀ n ∈ o, n ≤ i.total := by
  cases q with
  | key cls k path => exact keyOffset_spec ho (Option.some.inj hi ▸ subkeyInfo_of_keyOffset ho)
  | subkey cls name sub => exact keyOffset_spec ho hi
  | value cls v =>
    cases cls with
    | full | fullAlign64 =>
      cases hi
      cases ho
      refine ⟨holds_valueFull v, ?_⟩
      intro n hn
      cases hn
      exact Nat.le_add_right (dataOffset v) _
    | basic | dataOnly | dataOnlyAlign64 => cases ho

theorem offset_of_info_eq_none (h : q.info = none) : q.offset = none := by
  cases q with
  | key cls k path => cases h
  | subkey cls name sub =>
    cases cls with
    | basic | node | full => cases h
    | name | cached | flags | virtualization | handleTags => rfl
  | value cls v => cases h

/-- Every writer stays inside its buffer, reports the same length whatever the buffer, succeeds
exactly when all of the structure fits, and gives a shorter buffer what the same places of any
longer one would get, or nothing at all when the fixed part does not fit. An offset field gives
an offset within the reported length, or `-1` where there is no class. -/
theorem write_truncates (q : Query) (buf : List UInt8) :
    ∃ w out, q.write buf = some (w, out) ∧ out.length = buf.length ∧
      w.resultLength = len32 q.size ∧
      (w.status = .success ↔ q.info.isSome ∧ q.size + q.padding ≤ buf.length) ∧
      (buf.length < q.fixed → out = buf) ∧
      (q.fixed ≤ buf.length → ∀ more, ∃ w' whole,
        q.write (buf ++ more) = some (w', whole) ∧ out = whole.take buf.length) ∧
      (q.fixed ≤ buf.length → ∀ pos o, q.offset = some (pos, o) →
        readU32 pos out = (o.map len32).getD (2 ^ 32 - 1) ∧
        ∀ n ∈ o, len32 n ≤ w.resultLength) := by
  cases hi : q.info with
  | none =>
    have hwrite : ∀ b : List UInt8, q.write b = some (⟨.invalidParameter, 0⟩, b) := by
      intro b
      rw [write_eq, hi]
      rfl
    have hsize : q.size = 0 := by rw [size, hi]; rfl
    refine ⟨_, _, hwrite buf, rfl, by rw [hsize]; rfl, by simp, fun _ => rfl, ?_, ?_⟩
    · intro _ more
      exact ⟨_, _, hwrite (buf ++ more), take_left.symm⟩
    · intro _ pos o ho
      cases (offset_of_info_eq_none hi).symm.trans ho
  | some i =>
    have hpacked := packed hi
    have hwrite : ∀ b : List UInt8, q.write b = i.write b := by
      intro b
      rw [write_eq, hi]
      rfl
    have hsize : q.size = i.total := by rw [size, hi]; rfl
    have hfixed : q.fixed = i.fixed := by rw [fixed, hi]; rfl
    rw [hsize, hfixed]
    by_cases hshort : buf.length < i.fixed
    · have hle := hpacked.fixed_le
      refine ⟨_, _, (hwrite buf).trans (Info.write_of_lt hshort), rfl, rfl, ?_, fun _ => rfl,
        fun h => absurd hshort (not_lt.mpr h), fun h => absurd hshort (not_lt.mpr h)⟩
      simp only [reduceCtorEq, Option.isSome_some, true_and, false_iff]
      omega
    · have hroom := not_lt.mp hshort
      refine ⟨_, _, (hwrite buf).trans (hpacked.write_of_le hroom), length_overwriteAll _ _, rfl,
        ?_, fun h => absurd h hshort, ?_, ?_⟩
      · simp
      · intro _ more
        have hmore : i.fixed ≤ (buf ++ more).length := by
          rw [length_append]
          omega
        refine ⟨_, _, (hwrite _).trans (hpacked.write_of_le hmore), ?_⟩
        rw [take_overwriteAll, take_left]
      · intro _ pos o ho
        obtain ⟨hholds, hin⟩ := offset_spec hi ho
        exact ⟨hholds buf hroom, fun n hn => len32_mono (hin n hn)⟩

/-- Buffers of the reported length: one that lacks the padding before a class, one whose offset
field is `-1`, a class that enumeration refuses, and a structure too large for 32 bits. -/
theorem resultLength_not_enough :
    (write (.subkey .node ['a'] ⟨[], [], some [65], 0, 0⟩) (List.replicate 28 0)).map Prod.fst =
      some ⟨.bufferOverflow, 28⟩ ∧
    (write (.subkey .node ['a'] ⟨[], [], none, 0, 0⟩) (List.replicate 26 0)).map
      (fun r => (r.1, readU32 12 r.2)) = some (⟨.success, 26⟩, 2 ^ 32 - 1) ∧
    write (.subkey .name ['a'] ⟨[], [], none, 0, 0⟩) [] = some (⟨.invalidParameter, 0⟩, []) ∧
    (write (.value .dataOnlyAlign64 ⟨[], 0, List.replicate (2 ^ 32) 0⟩)
      (List.replicate (2 ^ 32 - 1) 0)).map Prod.fst = some ⟨.bufferOverflow, 2 ^ 32 - 1⟩ := by
  refine ⟨by decide, by decide, rfl, ?_⟩
  have hlarge : ∀ data buf : List UInt8, data.length = 2 ^ 32 → buf.length = 2 ^ 32 - 1 →
      (write (.value .dataOnlyAlign64 ⟨[], 0, data⟩) buf).map Prod.fst =
        some ⟨.bufferOverflow, 2 ^ 32 - 1⟩ := by
    intro data buf hdata hbuf
    have hi := packed_valueInfo .dataOnlyAlign64 ⟨[], 0, data⟩
    have hfixed : (valueInfo .dataOnlyAlign64 ⟨[], 0, data⟩).fixed = 8 := rfl
    have htotal : (valueInfo .dataOnlyAlign64 ⟨[], 0, data⟩).total = 8 + data.length := rfl
    rw [write_eq, info, Option.elim_some, hi.write_of_le (by omega), Option.map_some, htotal,
      if_neg (by omega), hdata]
    rfl
  exact hlarge _ _ (length_replicate) (length_replicate)

end Query

end AetherVfs.Registry.Layout
