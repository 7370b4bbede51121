import AetherVfs.Protocol.Strings
import AetherVfs.Registry.RoundTrip

/-!
# Registry operations on the wire

The registry codecs of `vfs-protocol/src/lib.rs`. A key travels as its overlay node, with the
child list in the order of its folded names; the decoder bounds the folded names, the spellings
and the value tombstones by the limits the overlay puts on the names it is given. `fold` can
lengthen a name and `delete_key` checks none, so a node of the overlay can be past them.
-/

namespace AetherVfs.Protocol

open Cursor Registry Rd List PrefixFree Overlay

/-! ## Requests -/

/-- Also `REG_KEY`, `REG_LOOKUP` and `REG_DELETE_KEY`. -/
def encodeRegPath (path : Str) : List UInt8 := putStr path

def decodeRegPath : List UInt8 → Option Str := StateT.run' do
  let path ← str
  done
  return path

def encodeRegSetValue (path name : Str) (ty : UInt32) (data : List UInt8) : List UInt8 :=
  putStr path ++ (putStr name ++ (put32 ty ++ (putLen data.length ++ data)))

def decodeRegSetValue : List UInt8 → Option (Str × Str × UInt32 × List UInt8) := StateT.run' do
  let path ← str
  let name ← strMax maxValueName
  let ty ← word
  let data ← bytes maxData
  done
  return (path, name, ty, data)

def encodeRegDeleteValue (path name : Str) : List UInt8 := putStr path ++ putStr name

def decodeRegDeleteValue : List UInt8 → Option (Str × Str) := StateT.run' do
  let path ← str
  let name ← strMax maxValueName
  done
  return (path, name)

def encodeRegCreateKey (path : Str) (volatile : Bool) : List UInt8 :=
  encodeRegPath path ++ [putBool volatile]

def decodeRegCreateKey : List UInt8 → Option (Str × Bool) := StateT.run' do
  let path ← str
  let v ← bool
  done
  return (path, v)

def encodeRegRenameKey (path newLeaf : Str) : List UInt8 := putStr path ++ putStr newLeaf

def decodeRegRenameKey : List UInt8 → Option (Str × Str) := StateT.run' do
  let path ← str
  let leaf ← strMax maxKeyName
  done
  return (path, leaf)

def encodeRegChanged (path : Str) (subtree : Bool) (version : UInt64) : List UInt8 :=
  encodeRegPath path ++ (putBool subtree :: put64 version)

def decodeRegChanged : List UInt8 → Option (Str × Bool × UInt64) := StateT.run' do
  let path ← str
  let subtree ← bool
  let since ← long
  done
  return (path, subtree, since)

/-! ## Replies -/

def decodeRegChangedReply : List UInt8 → Option (Bool × UInt64) := StateT.run' do
  let version ← long
  let changed ← bool
  done
  return (changed, version)

def decodeRegVersionReply : List UInt8 → Option UInt64 := StateT.run' do
  let v ← long
  done
  return v

def decodeRegLookupReply : List UInt8 → Option (UInt8 × Bool × UInt64) := StateT.run' do
  let version ← long
  let state ← u8
  if state > 3 then failure else
    let below ← bool
    done
    return (state, below, version)

def putWireValue (v : Value) : List UInt8 :=
  putStr v.name ++ (put32 v.ty ++ (putLen v.data.length ++ v.data))

def putChild (c : Child) : UInt8 :=
  match c with
  | .present => 0
  | .tombstone => 1

def putChildRow (r : Str × Str × Child) : List UInt8 :=
  putStr r.1 ++ (putStr r.2.1 ++ [putChild r.2.2])

/-- The child list in the order of its keys, with the keys. -/
def childRows (node : Node) : List (Str × Str × Child) :=
  (node.children.entries.insertionSort fun a b => a.1 ≤ b.1).map fun r => (r.1, r.2)

def putNode (n : Node) : List UInt8 :=
  putBool n.created :: putBool n.volatile :: (put64 n.lastWrite ++
    (putLen n.values.length ++ (n.values.flatMap putWireValue ++
    (putLen n.valueTombstones.length ++ (n.valueTombstones.flatMap putStr ++
    (putLen (childRows n).length ++ (childRows n).flatMap putChildRow))))))

def encodeRegKeyReply (node : Option Node) (version : UInt64) : List UInt8 :=
  match node with
  | none => put64 version ++ [0]
  | some n => put64 version ++ (1 :: putNode n)

def wireValue : Read Value := do
  let name ← strMax maxValueName
  let ty ← word
  let data ← bytes maxData
  return ⟨name, ty, data⟩

def childRow : Read (Str × Str × Child) := do
  let folded ← strMax maxKeyName
  let spelling ← strMax maxKeyName
  let state ← u8
  if state = 0 then return (folded, spelling, .present)
  else if state = 1 then return (folded, spelling, .tombstone)
  else failure

def wireNode : Read Node := do
  let created ← bool
  let volatile ← bool
  let lastWrite ← long
  let count ← word
  let values ← items wireValue count.toNat
  let count ← word
  let valueTombstones ← items (strMax maxValueName) count.toNat
  let count ← word
  let rows ← items childRow count.toNat
  return { values, valueTombstones, children := Table.insertAll ∅ rows, created, volatile,
           lastWrite }

def decodeRegKeyReply : List UInt8 → Option (Option Node × UInt64) := StateT.run' do
  let version ← long
  let hasNode ← bool
  if hasNode then
    let n ← wireNode
    done
    return (some n, version)
  else
    done
    return (none, version)

/-! ## Trailing and missing bytes -/

theorem steady_wireValue : Steady wireValue :=
  (steady_strMax _).bind fun _ => steady_word.bind fun _ => (steady_bytes _).bind fun _ =>
    steady_pure _

theorem steady_childRow : Steady childRow :=
  (steady_strMax _).bind fun _ => (steady_strMax _).bind fun _ => steady_u8.bind fun _ =>
    (steady_pure _).ite ((steady_pure _).ite steady_failure)

theorem steady_wireNode : Steady wireNode :=
  steady_bool.bind fun _ => steady_bool.bind fun _ => steady_long.bind fun _ =>
    steady_word.bind fun _ => (steady_items steady_wireValue _).bind fun _ =>
    steady_word.bind fun _ => (steady_items (steady_strMax _) _).bind fun _ =>
    steady_word.bind fun _ => (steady_items steady_childRow _).bind fun _ => steady_pure _

theorem prefixFree_registryOps :
    PrefixFree decodeRegPath ∧ PrefixFree decodeRegSetValue ∧ PrefixFree decodeRegDeleteValue ∧
      PrefixFree decodeRegCreateKey ∧ PrefixFree decodeRegRenameKey ∧
      PrefixFree decodeRegChanged ∧ PrefixFree decodeRegChangedReply ∧
      PrefixFree decodeRegVersionReply ∧ PrefixFree decodeRegLookupReply ∧
      PrefixFree decodeRegKeyReply := by
  have hname : ∀ max, PrefixFree (do
      let path ← str
      let name ← strMax max
      done
      return (path, name) : Read (Str × Str)).run := fun max =>
    bind steady_str fun _ => bind (steady_strMax max) fun _ =>
      prefixFree_done _
  refine ⟨prefixFree_run.mpr ?_, prefixFree_run.mpr ?_, prefixFree_run.mpr (hname _),
    prefixFree_run.mpr ?_, prefixFree_run.mpr (hname _), prefixFree_run.mpr ?_,
    prefixFree_run.mpr ?_, prefixFree_run.mpr ?_, prefixFree_run.mpr ?_, prefixFree_run.mpr ?_⟩
  · exact bind steady_str fun _ => prefixFree_done _
  · exact bind steady_str fun _ => bind (steady_strMax _) fun _ =>
      bind steady_word fun _ => bind (steady_bytes _) fun _ =>
        prefixFree_done _
  · exact bind steady_str fun _ => bind steady_bool fun _ =>
      prefixFree_done _
  · exact bind steady_str fun _ => bind steady_bool fun _ =>
      bind steady_long fun _ => prefixFree_done _
  · exact bind steady_long fun _ => bind steady_bool fun _ =>
      prefixFree_done _
  · exact bind steady_long fun _ => prefixFree_done _
  · exact bind steady_long fun _ => bind steady_u8 fun _ =>
      ite prefixFree_failure (bind steady_bool fun _ => prefixFree_done _)
  · exact bind steady_long fun _ => bind steady_bool fun _ =>
      ite (bind steady_wireNode fun _ => prefixFree_done _)
        (prefixFree_done _)

/-! ## A node, read back -/

/-- The same node: child lists are maps, so they are compared by what they list. -/
structure SameNode (n n' : Node) : Prop where
  values : n'.values = n.values
  valueTombstones : n'.valueTombstones = n.valueTombstones
  children : ∀ c, n'.children.lookup c = n.children.lookup c
  created : n'.created = n.created
  volatile : n'.volatile = n.volatile
  lastWrite : n'.lastWrite = n.lastWrite

/-- A node within the limits of a `REG_KEY` reply. -/
structure FitsReply (n : Node) : Prop where
  valueCount : n.values.length < 2 ^ 32
  tombstones : ∀ t ∈ n.valueTombstones, utf16Len t ≤ maxValueName
  tombstoneCount : n.valueTombstones.length < 2 ^ 32
  folded : ∀ c sp st, n.children.lookup c = some (sp, st) → utf16Len c ≤ maxKeyName
  spelled : ∀ c sp st, n.children.lookup c = some (sp, st) → utf16Len sp ≤ maxKeyName
  childCount : n.children.keys.length < 2 ^ 32

variable {n : Node} {m : ℕ} {path : Str}

theorem mem_childRows {r : Str × Str × Child} :
    r ∈ childRows n ↔ n.children.lookup r.1 = some r.2 := by
  have hperm := perm_insertionSort
    (fun a b : (_ : Str) × Str × Child => a.1 ≤ b.1) n.children.entries
  simp only [childRows, mem_map, hperm.mem_iff]
  constructor
  · rintro ⟨⟨c, y⟩, hmem, rfl⟩
    exact AList.mem_lookup_iff.mpr hmem
  · intro h
    exact ⟨⟨r.1, r.2⟩, AList.mem_lookup_iff.mp h, rfl⟩

theorem nodup_childRows (n : Node) : ((childRows n).map Prod.fst).Nodup := by
  have hperm := perm_insertionSort
    (fun a b : (_ : Str) × Str × Child => a.1 ≤ b.1) n.children.entries
  have hkeys : (childRows n).map Prod.fst =
      (n.children.entries.insertionSort fun a b => a.1 ≤ b.1).map Sigma.fst := by
    simp [childRows, Function.comp_def]
  rw [hkeys]
  exact (hperm.map Sigma.fst).nodup_iff.mpr n.children.nodupKeys

theorem length_childRows (n : Node) : (childRows n).length = n.children.keys.length := by
  simp [childRows, AList.keys, keys]

theorem lookup_insertAll_childRows (n : Node) (c : Str) :
    (Table.insertAll (∅ : Table Str (Str × Child)) (childRows n)).lookup c =
      n.children.lookup c := by
  cases hc : n.children.lookup c with
  | none =>
    rw [Table.lookup_insertAll_of_notMem]
    · rfl
    · rintro r hr rfl
      rw [mem_childRows.mp hr] at hc
      cases hc
  | some x => exact Table.lookup_insertAll_of_mem _ (nodup_childRows n) (mem_childRows.mpr hc)

theorem strMax_of_le {s : Str} (hm : m * 3 < 2 ^ 32) (h : utf16Len s ≤ m) (rest : List UInt8) :
    (strMax m).run (putStr s ++ rest) = some (s, rest) := by
  have hbytes := (Format.length_utf8_le s).trans (Nat.mul_le_mul_right 3 h)
  exact strMax_putStr (hbytes.trans_lt hm) h rest

theorem wireValue_put {v : Value} (hname : utf16Len v.name ≤ maxValueName)
    (hdata : v.data.length ≤ maxData) (rest : List UInt8) :
    wireValue.run (putWireValue v ++ rest) = some (v, rest) := by
  have hlt : v.data.length < 2 ^ 32 := hdata.trans_lt (by norm_num [maxData])
  have hm : maxValueName * 3 < 2 ^ 32 := by norm_num [maxValueName]
  simp [wireValue, putWireValue, strMax_of_le hm hname, bytes_putLen hlt hdata]

theorem childRow_put {r : Str × Str × Child} (hfolded : utf16Len r.1 ≤ maxKeyName)
    (hspelled : utf16Len r.2.1 ≤ maxKeyName) (rest : List UInt8) :
    childRow.run (putChildRow r ++ rest) = some (r, rest) := by
  have hm : maxKeyName * 3 < 2 ^ 32 := by norm_num [maxKeyName]
  obtain ⟨c, sp, st⟩ := r
  cases st <;>
    simp [childRow, putChildRow, putChild, strMax_of_le hm hfolded, strMax_of_le hm hspelled]

theorem wireNode_putNode (hsized : Overlay.Sized n) (hfits : FitsReply n) (rest : List UInt8) :
    wireNode.run (putNode n ++ rest) =
      some ({ n with children := Table.insertAll ∅ (childRows n) }, rest) := by
  have hvalues := items_flatMap wireValue putWireValue
    fun v (hv : v ∈ n.values) rest => wireValue_put (hsized v hv).1 (hsized v hv).2 rest
  have htombs := items_flatMap (strMax maxValueName) putStr
    fun t (ht : t ∈ n.valueTombstones) rest =>
      strMax_of_le (by norm_num [maxValueName]) (hfits.tombstones t ht) rest
  have hrows := items_flatMap childRow putChildRow
    fun r (hr : r ∈ childRows n) rest => childRow_put (hfits.folded _ _ _ (mem_childRows.mp hr))
      (hfits.spelled _ _ _ (mem_childRows.mp hr)) rest
  have hcount : (childRows n).length < 2 ^ 32 := by
    rw [length_childRows]
    exact hfits.childCount
  simp [wireNode, putNode, putLen, toNat_len hfits.valueCount, toNat_len hfits.tombstoneCount,
    toNat_len hcount, hvalues, htombs, hrows]

theorem fitsReply_of_wireNode {p rest : List UInt8} (h : wireNode.run p = some (n, rest)) :
    FitsReply n := by
  simp only [wireNode, run_bind_eq_some] at h
  obtain ⟨created, _, -, volatile, _, -, lastWrite, _, -, nv, _, -, values, _, hvalues, nt, _, -,
    tombs, _, htombs, nc, _, -, rows, _, hrows, h⟩ := h
  cases h
  have hrow : ∀ r ∈ rows, utf16Len r.1 ≤ maxKeyName ∧ utf16Len r.2.1 ≤ maxKeyName := by
    refine forall_items ?_ hrows
    intro p r rest hr
    obtain ⟨folded, _, hfolded, hr⟩ := run_bind_eq_some.mp hr
    obtain ⟨spelling, _, hspelling, hr⟩ := run_bind_eq_some.mp hr
    obtain ⟨state, _, -, hr⟩ := run_bind_eq_some.mp hr
    have hlimits := And.intro (utf16Len_of_strMax hfolded) (utf16Len_of_strMax hspelling)
    split_ifs at hr
    all_goals
      cases hr
      try exact hlimits
  have hlisted : ∀ c sp st, (Table.insertAll (∅ : Table Str (Str × Child)) rows).lookup c =
      some (sp, st) → (c, sp, st) ∈ rows := by
    intro c sp st hc
    rcases Table.mem_of_lookup_insertAll hc with hc | hc
    · cases hc
    · exact hc
  refine ⟨?_, ?_, ?_, ?_, ?_, ?_⟩
  · rw [length_items hvalues]
    exact nv.toNat_lt
  · exact forall_items (fun _ _ _ => utf16Len_of_strMax) htombs
  · rw [length_items htombs]
    exact nt.toNat_lt
  · exact fun c sp st hc => (hrow _ (hlisted c sp st hc)).1
  · exact fun c sp st hc => (hrow _ (hlisted c sp st hc)).2
  · have hle := Table.length_keys_insertAll_le (∅ : Table Str (Str × Child)) rows
    rw [length_items hrows] at hle
    exact hle.trans_lt (by simpa using nc.toNat_lt)

theorem SameNode.fitsReply {n' : Node} (h : SameNode n n') (hfits : FitsReply n') :
    FitsReply n := by
  refine ⟨h.values ▸ hfits.valueCount, h.valueTombstones ▸ hfits.tombstones,
    h.valueTombstones ▸ hfits.tombstoneCount, ?_, ?_, ?_⟩
  · exact fun c sp st hc => hfits.folded c sp st (by rw [h.children]; exact hc)
  · exact fun c sp st hc => hfits.spelled c sp st (by rw [h.children]; exact hc)
  · have hsub : n.children.keys ⊆ n'.children.keys := by
      intro c hc
      have hsome := AList.lookup_isSome.mpr (show c ∈ n.children from hc)
      rw [← h.children] at hsome
      exact AList.lookup_isSome.mp hsome
    exact (n.children.keys_nodup.subperm hsub).length_le.trans_lt hfits.childCount

/-- A key's reply gives the node back exactly when the node is within the limits of the
decoder. -/
theorem decodeRegKeyReply_iff (hsized : Overlay.Sized n) (version : UInt64) :
    (∃ n', decodeRegKeyReply (encodeRegKeyReply (some n) version) = some (some n', version) ∧
      SameNode n n') ↔ FitsReply n := by
  constructor
  · rintro ⟨n', hdecode, hsame⟩
    refine hsame.fitsReply ?_
    obtain ⟨rest, hrun⟩ := run'_eq_some.mp hdecode
    obtain ⟨v, _, -, hrun⟩ := run_bind_eq_some.mp hrun
    obtain ⟨has, _, -, hrun⟩ := run_bind_eq_some.mp hrun
    split_ifs at hrun with hhas
    · obtain ⟨m, _, hm, hrun⟩ := run_bind_eq_some.mp hrun
      obtain ⟨_, _, -, hrun⟩ := run_bind_eq_some.mp hrun
      cases hrun
      exact fitsReply_of_wireNode hm
    · obtain ⟨_, _, -, hrun⟩ := run_bind_eq_some.mp hrun
      cases hrun
  · intro hfits
    have hnode := wireNode_putNode hsized hfits []
    rw [append_nil] at hnode
    refine ⟨{ n with children := Table.insertAll ∅ (childRows n) }, ?_,
      ⟨rfl, rfl, lookup_insertAll_childRows n, rfl, rfl, rfl⟩⟩
    have hone : bool.run (1 :: putNode n) = some (true, putNode n) := bool_putBool true _
    refine run'_eq_some.mpr ⟨[], ?_⟩
    simp [encodeRegKeyReply, hone, hnode]

/-! ## Requests, read back -/

theorem length_utf8_path (hlead : (pieces path).head? = some [])
    (hnames : ∀ c ∈ (pieces path).drop 1, utf16Len c ≤ m) :
    (utf8 path).length ≤ (pieces path).length * (m * 3 + 1) := by
  have hpath : path = intercalate ['\\'] (pieces path) := by
    rw [pieces, intercalate_splitOn]
  cases hp : pieces path with
  | nil => exact absurd hp (splitOn_ne_nil _ _)
  | cons lead rest =>
    rw [hp] at hlead hnames hpath
    cases hlead
    rw [hpath, intercalate_cons, nil_append]
    have hrest : ∀ l : List Str, (∀ c ∈ l, utf16Len c ≤ m) →
        (utf8 (l.flatMap fun c => '\\' :: c)).length ≤ l.length * (m * 3 + 1) := by
      intro l hl
      induction l with
      | nil => simp [utf8]
      | cons c l ih =>
        have hc := (Format.length_utf8_le c).trans
          (Nat.mul_le_mul_right 3 (hl c mem_cons_self))
        have hl' := ih fun d hd => hl d (mem_cons_of_mem _ hd)
        have hsplit : utf8 ((c :: l).flatMap fun c => '\\' :: c) =
            [0x5c] ++ (utf8 c ++ utf8 (l.flatMap fun c => '\\' :: c)) := by
          simp only [utf8, flatMap_cons, cons_append, flatMap_append]
          rfl
        rw [hsplit, length_cons, Nat.succ_mul]
        simp only [length_append, length_cons, length_nil]
        omega
    refine (hrest rest hnames).trans (Nat.mul_le_mul_right _ ?_)
    simp

variable [ToLowercase]

theorem length_utf8_of_writable (hvalid : validPath (pieces path) = true)
    (hok : Overlay.Writable (pieces path)) : (utf8 path).length < 2 ^ 32 := by
  obtain ⟨hkey, hdepth⟩ := hok
  have hnames : ∀ c ∈ (pieces path).drop 1, utf16Len c ≤ maxKeyName := by
    intro c hc
    by_contra hlt
    rw [checkKeyName, if_pos] at hkey
    · cases hkey
    · exact any_eq_true.mpr ⟨c, hc, decide_eq_true (not_le.mp hlt)⟩
  have hlead : (pieces path).head? = some [] := by
    obtain ⟨r, rest, hp, -⟩ := validPath_iff.mp hvalid
    rw [hp]
    rfl
  have hlen : (pieces path).length ≤ maxWriteDepth + 2 := by
    rw [checkDepth] at hdepth
    split_ifs at hdepth with hlt
    omega
  calc (utf8 path).length ≤ (pieces path).length * (maxKeyName * 3 + 1) :=
        length_utf8_path hlead hnames
    _ ≤ (maxWriteDepth + 2) * (maxKeyName * 3 + 1) := Nat.mul_le_mul_right _ hlen
    _ < 2 ^ 32 := by norm_num [maxWriteDepth, maxKeyName]

omit [ToLowercase] in
theorem strMax_putStr_nil {s : Str} (hm : m * 3 < 2 ^ 32) (h : utf16Len s ≤ m) :
    (strMax m).run (putStr s) = some (s, []) := by
  have := strMax_of_le hm h []
  rwa [append_nil] at this

omit [ToLowercase] in
theorem decodeRegPath_iff (path : Str) :
    decodeRegPath (encodeRegPath path) = some path ↔ (utf8 path).length < 2 ^ 32 := by
  constructor
  · intro h
    obtain ⟨rest, h⟩ := run'_eq_some.mp h
    obtain ⟨p, _, hp, h⟩ := run_bind_eq_some.mp h
    obtain ⟨_, _, -, h⟩ := run_bind_eq_some.mp h
    cases h
    exact length_of_str hp
  · intro h
    have hstr := str_putStr h []
    rw [append_nil] at hstr
    refine run'_eq_some.mpr ⟨[], ?_⟩
    simp [encodeRegPath, hstr]

omit [ToLowercase] in
theorem decodeRegName_iff {name : Str} (hm : m * 3 < 2 ^ 32) (hname : utf16Len name ≤ m) :
    (do
      let path ← str
      let name ← strMax m
      done
      return (path, name) : Read (Str × Str)).run' (putStr path ++ putStr name) =
        some (path, name) ↔ (utf8 path).length < 2 ^ 32 := by
  constructor
  · intro h
    obtain ⟨rest, h⟩ := run'_eq_some.mp h
    obtain ⟨p, _, hp, h⟩ := run_bind_eq_some.mp h
    obtain ⟨n, _, -, h⟩ := run_bind_eq_some.mp h
    obtain ⟨_, _, -, h⟩ := run_bind_eq_some.mp h
    cases h
    exact length_of_str hp
  · intro h
    refine run'_eq_some.mpr ⟨[], ?_⟩
    simp [str_putStr h, strMax_putStr_nil hm hname]

omit [ToLowercase] in
theorem decodeRegSetValue_encode {name : Str} {data : List UInt8}
    (hpath : (utf8 path).length < 2 ^ 32) (hname : utf16Len name ≤ maxValueName)
    (hdata : data.length ≤ maxData) (ty : UInt32) :
    decodeRegSetValue (encodeRegSetValue path name ty data) = some (path, name, ty, data) := by
  have hlt : data.length < 2 ^ 32 := hdata.trans_lt (by norm_num [maxData])
  have hbytes := bytes_putLen hlt hdata []
  rw [append_nil] at hbytes
  refine run'_eq_some.mpr ⟨[], ?_⟩
  simp [encodeRegSetValue, str_putStr hpath,
    strMax_of_le (m := maxValueName) (by norm_num [maxValueName]) hname, hbytes]

omit [ToLowercase] in
theorem decodeRegCreateKey_encode (hpath : (utf8 path).length < 2 ^ 32) (volatile : Bool) :
    decodeRegCreateKey (encodeRegCreateKey path volatile) = some (path, volatile) := by
  refine run'_eq_some.mpr ⟨[], ?_⟩
  simp [encodeRegCreateKey, encodeRegPath, str_putStr hpath]

omit [ToLowercase] in
theorem decodeRegChanged_iff (path : Str) (subtree : Bool) (since : UInt64) :
    decodeRegChanged (encodeRegChanged path subtree since) = some (path, subtree, since) ↔
      (utf8 path).length < 2 ^ 32 := by
  constructor
  · intro h
    obtain ⟨rest, h⟩ := run'_eq_some.mp h
    obtain ⟨p, _, hp, h⟩ := run_bind_eq_some.mp h
    obtain ⟨b, _, -, h⟩ := run_bind_eq_some.mp h
    obtain ⟨v, _, -, h⟩ := run_bind_eq_some.mp h
    obtain ⟨_, _, -, h⟩ := run_bind_eq_some.mp h
    cases h
    exact length_of_str hp
  · intro h
    have hlong := long_put64 since []
    rw [append_nil] at hlong
    refine run'_eq_some.mpr ⟨[], ?_⟩
    simp [encodeRegChanged, encodeRegPath, str_putStr h, hlong]

/-- Whatever calls made the overlay: the reply for a key gives its node back exactly when the
node is within the decoder's limits; a write request the overlay accepts is decoded to its
fields, and so is every other request exactly when its path fits 32 bits of length; and no
decoder accepts an input with bytes too many or too few. -/
theorem registryOps_faithful_iff (cs : List Overlay.Call) :
    (∀ p n version, (Overlay.runCalls cs).node p = some n →
      ((∃ n', decodeRegKeyReply (encodeRegKeyReply (some n) version) = some (some n', version) ∧
        SameNode n n') ↔ FitsReply n)) ∧
    (∀ path name ty data now r,
      (Overlay.runCalls cs).setValue (pieces path) name ty data now = .ok r →
        decodeRegSetValue (encodeRegSetValue path name ty data) = some (path, name, ty, data)) ∧
    (∀ path volatile realExists now r,
      (Overlay.runCalls cs).createKey (pieces path) volatile realExists now = .ok r →
        decodeRegCreateKey (encodeRegCreateKey path volatile) = some (path, volatile)) ∧
    (∀ path name now r, (Overlay.runCalls cs).deleteValue (pieces path) name now = .ok r →
      (decodeRegDeleteValue (encodeRegDeleteValue path name) = some (path, name) ↔
        (utf8 path).length < 2 ^ 32)) ∧
    (∀ path newLeaf now r, (Overlay.runCalls cs).renameKey (pieces path) newLeaf now = .ok r →
      (decodeRegRenameKey (encodeRegRenameKey path newLeaf) = some (path, newLeaf) ↔
        (utf8 path).length < 2 ^ 32)) ∧
    (∀ path, decodeRegPath (encodeRegPath path) = some path ↔ (utf8 path).length < 2 ^ 32) ∧
    (∀ path subtree since,
      decodeRegChanged (encodeRegChanged path subtree since) = some (path, subtree, since) ↔
        (utf8 path).length < 2 ^ 32) ∧
    (PrefixFree decodeRegPath ∧ PrefixFree decodeRegSetValue ∧ PrefixFree decodeRegDeleteValue ∧
      PrefixFree decodeRegCreateKey ∧ PrefixFree decodeRegRenameKey ∧
      PrefixFree decodeRegChanged ∧ PrefixFree decodeRegChangedReply ∧
      PrefixFree decodeRegVersionReply ∧ PrefixFree decodeRegLookupReply ∧
      PrefixFree decodeRegKeyReply) := by
  obtain ⟨hinv, hnamed⟩ := named_runCalls cs
  refine ⟨?_, ?_, ?_, ?_, ?_, decodeRegPath_iff, decodeRegChanged_iff, prefixFree_registryOps⟩
  · intro p n version hn
    obtain ⟨e, he, rfl⟩ := Option.map_eq_some_iff.mp hn
    exact decodeRegKeyReply_iff (hnamed.sized _ e he) version
  · intro path name ty data now r hr
    obtain ⟨⟨hvalid, hok, hname, hdata⟩, -⟩ := setValue_eq_ok.mp hr
    exact decodeRegSetValue_encode (length_utf8_of_writable hvalid hok) hname hdata ty
  · intro path volatile realExists now r hr
    obtain ⟨⟨hvalid, hok, -⟩, -⟩ := createKey_eq_ok.mp hr
    exact decodeRegCreateKey_encode (length_utf8_of_writable hvalid hok) volatile
  · intro path name now r hr
    obtain ⟨⟨-, -, hname, -⟩, -⟩ := deleteValue_eq_ok.mp hr
    exact decodeRegName_iff (by norm_num [maxValueName]) hname
  · intro path newLeaf now r hr
    obtain ⟨-, -, ⟨-, -, -, hleaf, -⟩, -⟩ := hinv.renameKey_eq_ok.mp hr
    exact decodeRegName_iff (by norm_num [maxKeyName]) hleaf

omit [ToLowercase] in
/-- After the deletion of a key with a name of 256 units, the node of `\Registry` does not come
through its reply. -/
theorem keyReply_overlongDelete :
    ∃ n, @Overlay.node asciiLowercase (@Overlay.runCalls asciiLowercase Overlay.overlongDelete)
        [[], registry] = some n ∧
      ∀ version, ¬ ∃ n', decodeRegKeyReply (encodeRegKeyReply (some n) version) =
        some (some n', version) ∧ SameNode n n' := by
  obtain ⟨-, hnamed⟩ := @Overlay.named_runCalls asciiLowercase overlongDelete
  have hlong : (@Overlay.node asciiLowercase
      (@Overlay.runCalls asciiLowercase overlongDelete) [[], registry]).any (fun n =>
        (childRows n).any fun r => maxKeyName < utf16Len r.1) = true := by
    decide +kernel
  rw [Option.any_eq_true] at hlong
  obtain ⟨n, hn, hlong⟩ := hlong
  obtain ⟨r, hr, hlt⟩ := any_eq_true.mp hlong
  obtain ⟨e, he, rfl⟩ := Option.map_eq_some_iff.mp hn
  refine ⟨e.node, hn, fun version h => ?_⟩
  have hfits := (decodeRegKeyReply_iff (hnamed.sized _ e he) version).mp h
  exact absurd (hfits.folded _ _ _ (mem_childRows.mp hr)) (not_le.mpr (of_decide_eq_true hlt))

end AetherVfs.Protocol
