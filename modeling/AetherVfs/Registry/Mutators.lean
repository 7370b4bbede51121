import AetherVfs.Lib.Method
import AetherVfs.Registry.Changed

/-!
# The mutators, statement by statement

`Overlay.call` says what a successful call makes of the overlay, and says nothing about the
overlay a failed call leaves behind. Here the five mutators are the bodies of `overlay.rs` as
methods of a mutable overlay, in which an error or a panic keeps what was written before it. On
a well-formed overlay the two agree: no call panics, and a failed one has changed nothing.
-/

namespace AetherVfs.Registry

namespace Overlay

namespace Body

open Method

abbrev Of (α : Type) := Method Overlay RegError α

def bump : Of ℕ := do
  change fun o => { o with version := o.version + 1 }
  read fun o => o.version

theorem bump_bind_apply {α : Type} (k : ℕ → Of α) (o : Overlay) :
    (bump >>= k) o = k (o.version + 1) o.bumped := rfl

/-- `entries.get_mut(key).expect(..)`, and a change of what is there. -/
def getMut (key : Path) (f : Entry → Entry) : Of Unit := do
  let _ ← expect (← read fun o => o.entries.lookup key)
  change fun o => o.modify key f

/-- `entries[key]`, when there is such a key. -/
def index : Option Path → Of (Option Entry)
  | none => pure none
  | some key => do
      let e ← expect (← read fun o => o.entries.lookup key)
      return some e

variable [ToLowercase]

/-- One round of `ensure_chain` at a key that has no node. -/
def addNode (parentKey : Option Path) (stored : Path) (comp : Str) (plain : Bool) (v : ℕ)
    (now : UInt64) : Of Unit := do
  let key := foldPath stored
  let buried ← read fun o => decide (key ∈ o.tombs)
  change fun o => { o with tombs := o.tombs.erase key }
  let parentNode := (← index parentKey).map Entry.node
  let revived := buried ||
    parentNode.any fun n => (n.children.lookup (fold comp)).any fun c => c.2 = .tombstone
  let parentCreated := parentNode.any Node.created
  let node := { Node.empty with created := revived || parentCreated || !plain, lastWrite := now }
  let entry : Entry := { path := stored, node, changed := v, subtree := 0 }
  change fun o => { o with entries := o.entries.insert key entry }
  match parentKey with
  | some pk => getMut pk (setChild comp .present v now)
  | none => pure ()

def ensureChainLoop (targetRealExists : Bool) (v : ℕ) (now : UInt64) :
    List Str → Path → Option Path → Of Unit
  | [], _, _ => pure ()
  | comp :: rest, stored, parentKey => do
      let stored := stored ++ [comp]
      let key := foldPath stored
      match ← read fun o => o.entries.lookup key with
      | some e => ensureChainLoop targetRealExists v now rest e.path (some key)
      | none => do
          addNode parentKey stored comp (!(rest.isEmpty && !targetRealExists)) v now
          ensureChainLoop targetRealExists v now rest stored (some key)

def ensureChain (path : Path) (targetRealExists : Bool) (v : ℕ) (now : UInt64) : Of Unit :=
  ensureChainLoop targetRealExists v now (path.drop 1) [[]] none

def setValue (path : Path) (name : Str) (ty : UInt32) (data : List UInt8) (now : UInt64) :
    Of ℕ := do
  if ¬ validPath path then refuse .invalidPath
  ask (checkKeyName path)
  ask (checkDepth path maxWriteDepth)
  if maxValueName < utf16Len name then refuse .nameTooLong
  if maxData < data.length then refuse .dataTooLarge
  let v ← bump
  ensureChain path true v now
  getMut (foldPath path) (valueSet name ty data now)
  change fun o => o.mark path v
  return v

def deleteValue (path : Path) (name : Str) (now : UInt64) : Of ℕ := do
  if ¬ validPath path then refuse .invalidPath
  ask (checkKeyName path)
  if maxValueName < utf16Len name then refuse .nameTooLong
  if (← read fun o => (o.lookup path).1) = .tombstoned then refuse .notFound
  let v ← bump
  ensureChain path true v now
  getMut (foldPath path) (valueDeleted name now)
  change fun o => o.mark path v
  return v

def createKey (path : Path) (volatile realExists : Bool) (now : UInt64) : Of ℕ := do
  if ¬ validPath path then refuse .invalidPath
  ask (checkKeyName path)
  ask (checkDepth path maxWriteDepth)
  if ← read fun o => decide (foldPath path ∈ o.entries) then refuse .alreadyExists
  let v ← bump
  ensureChain path realExists v now
  getMut (foldPath path) (madeVolatile volatile)
  change fun o => o.mark path v
  return v

def deleteKey (path : Path) (now : UInt64) : Of ℕ := do
  if ¬ validPath path then refuse .invalidPath
  let parentPath ← orRefuse .invalidPath (parent path)
  if (← read fun o => (o.lookup path).1) = .tombstoned then refuse .notFound
  let v ← bump
  ensureChain parentPath true v now
  let f := foldPath path
  change fun o => o.removeSubtree f
  change fun o => o.tomb f v
  getMut (foldPath parentPath) (setChild (leaf path) .tombstone v now)
  change fun o => o.touchAncestors parentPath v
  return v

/-- `entries.remove(k).expect("listed")`. -/
def takeOut (k : Path) : Of Entry := do
  let e ← expect (← read fun o => o.entries.lookup k)
  change fun o => { o with entries := o.entries.erase k }
  return e

/-- `k[start.len()..]`, a panic unless the one text begins the other. -/
def sliceFrom (k start : Path) : Of Path :=
  expect (if start.isPrefixOf k then some (k.drop start.length) else none)

def putBack (oldF oldStored newF newPath : Path) (v : ℕ) (e : Entry) : Of Unit := do
  let suffix ← sliceFrom e.path oldStored
  let rest ← sliceFrom (foldPath (oldStored ++ suffix)) oldF
  change fun o => { o with
    entries := o.entries.insert (newF ++ rest)
      { e with
        path := newPath ++ suffix
        node := { e.node with created := true }
        changed := v
        subtree := v } }

def tombMoved (oldF newF : Path) (v : ℕ) (k : Path) : Of Unit := do
  let rest ← sliceFrom k oldF
  change fun o => o.tomb (newF ++ rest) v

/-- The loops of `rename_key`. -/
def moveSubtree (oldF oldStored newF newPath : Path) (v : ℕ) : Of Unit := do
  let movedKeys ← read fun o => o.subtreeKeys oldF
  let movedTombs ← read fun o => (Table.rowsWhere o.tombs fun k => isBelow oldF k).map Prod.fst
  let moved ← each takeOut movedKeys
  change fun o => o.removeSubtree oldF
  change fun o => { o with tombs := o.tombs.erase newF }
  let _ ← each (putBack oldF oldStored newF newPath v) moved
  let _ ← each (tombMoved oldF newF v) movedTombs

def renameKey (path : Path) (newLeaf : Str) (now : UInt64) : Of ℕ := do
  if ¬ validPath path then refuse .invalidPath
  if newLeaf = [] ∨ '\\' ∈ newLeaf then refuse .invalidPath
  if maxKeyName < utf16Len newLeaf then refuse .nameTooLong
  let parentPath ← orRefuse .invalidPath (parent path)
  let oldF := foldPath path
  let root ← orRefuse .notFound (← read fun o => o.entries.lookup oldF)
  let oldStored := root.path
  let parentStored ← expect (parent oldStored)
  let newPath := parentStored ++ [newLeaf]
  let newF := foldPath newPath
  if newF ≠ oldF ∧ (← read fun o => decide (newF ∈ o.entries)) then refuse .alreadyExists
  let v ← bump
  moveSubtree oldF oldStored newF newPath v
  getMut newF fun e => { e with node := { e.node with lastWrite := now } }
  if newF ≠ oldF then
    getMut (foldPath parentPath) fun e =>
      { e with node := { e.node with
          children := e.node.children.insert (fold (leaf path)) (leaf path, .tombstone) } }
    change fun o => o.tomb oldF v
  getMut (foldPath parentPath) (setChild newLeaf .present v now)
  change fun o => o.touchAncestors parentPath v
  return v

def of : Op → Of ℕ
  | .setValue path name ty data now => setValue path name ty data now
  | .deleteValue path name now => deleteValue path name now
  | .createKey path volatile realExists now => createKey path volatile realExists now
  | .deleteKey path now => deleteKey path now
  | .renameKey path newLeaf now => renameKey path newLeaf now

section Refusals

omit [ToLowercase] in
theorem writes_getMut (key : Path) (f : Entry → Entry) : Writes version (getMut key f) := by
  apply (writes_read _).bind
  intro e
  apply (writes_expect e).bind
  intro _
  exact writes_change fun _ => rfl

omit [ToLowercase] in
theorem writes_index (key : Option Path) : Writes version (index key) := by
  cases key with
  | none => exact writes_pure none
  | some key =>
    apply (writes_read _).bind
    intro e
    apply (writes_expect e).bind
    intro e
    exact writes_pure (some e)

theorem writes_addNode (parentKey : Option Path) (stored : Path) (comp : Str) (plain : Bool)
    (v : ℕ) (now : UInt64) : Writes version (addNode parentKey stored comp plain v now) := by
  unfold addNode
  apply (writes_read _).bind
  intro buried
  refine Writes.bind (writes_change fun _ => rfl) fun _ => ?_
  apply (writes_index parentKey).bind
  intro parentEntry
  refine Writes.bind (writes_change fun _ => rfl) fun _ => ?_
  cases parentKey with
  | none => exact writes_pure ()
  | some pk => exact writes_getMut pk _

theorem writes_ensureChainLoop (real : Bool) (v : ℕ) (now : UInt64) (comps : List Str)
    (stored : Path) (parentKey : Option Path) :
    Writes version (ensureChainLoop real v now comps stored parentKey) := by
  induction comps generalizing stored parentKey with
  | nil => exact writes_pure ()
  | cons comp rest ih =>
    rw [ensureChainLoop]
    apply (writes_read _).bind
    intro found
    cases found with
    | some e => exact ih _ _
    | none => exact (writes_addNode _ _ _ _ v now).bind fun _ => ih _ _

theorem writes_ensureChain (path : Path) (real : Bool) (v : ℕ) (now : UInt64) :
    Writes version (ensureChain path real v now) :=
  writes_ensureChainLoop real v now _ _ _

/-- What a whole mutator does to the version. -/
def CountsUp (o o' : Overlay) : Prop := o'.version = o.version + 1

omit [ToLowercase] in
theorem transacts_bump {k : ℕ → Of ℕ} (hk : ∀ v, Writes version (k v)) (o : Overlay) :
    Transacts CountsUp o ((bump >>= k) o) := by
  rw [bump_bind_apply]
  exact (hk _).transacts fun o' ho' => ho'

theorem writes_touched (path : Path) (v : ℕ) : Writes version (do
    change fun o => o.touchAncestors path v
    return v : Of ℕ) :=
  Writes.bind (writes_change fun _ => (touchAncestors_maps _ path v).2.2.2) fun _ => writes_pure v

theorem writes_edit (path : Path) (real : Bool) (f : Entry → Entry) (v : ℕ) (now : UInt64) :
    Writes version (do
      ensureChain path real v now
      getMut (foldPath path) f
      change fun o => o.mark path v
      return v : Of ℕ) := by
  apply (writes_ensureChain path real v now).bind
  intro _
  apply (writes_getMut _ f).bind
  intro _
  refine Writes.bind (writes_change fun o => ?_) fun _ => writes_pure v
  exact (touchAncestors_maps _ path v).2.2.2

theorem transacts_setValue (path : Path) (name : Str) (ty : UInt32) (data : List UInt8)
    (now : UInt64) (o : Overlay) :
    Transacts CountsUp o (setValue path name ty data now o) := by
  unfold setValue
  apply transacts_unless
  intro _
  apply (reads_ask _).transacts_bind
  intro _
  apply (reads_ask _).transacts_bind
  intro _
  apply transacts_unless
  intro _
  apply transacts_unless
  intro _
  exact transacts_bump (fun v => writes_edit path true _ v now) o

theorem transacts_deleteValue (path : Path) (name : Str) (now : UInt64) (o : Overlay) :
    Transacts CountsUp o (deleteValue path name now o) := by
  unfold deleteValue
  apply transacts_unless
  intro _
  apply (reads_ask _).transacts_bind
  intro _
  apply transacts_unless
  intro _
  apply (reads_read _).transacts_bind
  intro state
  apply transacts_unless
  intro _
  exact transacts_bump (fun v => writes_edit path true _ v now) o

theorem transacts_createKey (path : Path) (volatile realExists : Bool) (now : UInt64) (o : Overlay) :
    Transacts CountsUp o (createKey path volatile realExists now o) := by
  unfold createKey
  apply transacts_unless
  intro _
  apply (reads_ask _).transacts_bind
  intro _
  apply (reads_ask _).transacts_bind
  intro _
  apply (reads_read _).transacts_bind
  intro present
  apply transacts_unless
  intro _
  exact transacts_bump (fun v => writes_edit path realExists _ v now) o

theorem transacts_deleteKey (path : Path) (now : UInt64) (o : Overlay) :
    Transacts CountsUp o (deleteKey path now o) := by
  unfold deleteKey
  apply transacts_unless
  intro _
  apply (reads_orRefuse _ _).transacts_bind
  intro parentPath
  apply (reads_read _).transacts_bind
  intro state
  apply transacts_unless
  intro _
  apply transacts_bump
  intro v
  apply (writes_ensureChain _ _ v now).bind
  intro _
  refine Writes.bind (writes_change fun _ => rfl) fun _ => ?_
  refine Writes.bind (writes_change fun _ => version_tomb _ _ _) fun _ => ?_
  apply (writes_getMut _ _).bind
  intro _
  exact writes_touched parentPath v

omit [ToLowercase] in
theorem writes_takeOut (k : Path) : Writes version (takeOut k) := by
  apply (writes_read _).bind
  intro found
  apply (writes_expect found).bind
  intro e
  exact Writes.bind (writes_change fun _ => rfl) fun _ => writes_pure e

omit [ToLowercase] in
theorem writes_tombMoved (oldF newF : Path) (v : ℕ) (k : Path) :
    Writes version (tombMoved oldF newF v k) := by
  apply (writes_expect _).bind
  intro rest
  exact writes_change fun _ => version_tomb _ _ _

theorem writes_putBack (oldF oldStored newF newPath : Path) (v : ℕ) (e : Entry) :
    Writes version (putBack oldF oldStored newF newPath v e) := by
  apply (writes_expect _).bind
  intro suffix
  apply (writes_expect _).bind
  intro rest
  exact writes_change fun _ => rfl

theorem writes_moveSubtree (oldF oldStored newF newPath : Path) (v : ℕ) :
    Writes version (moveSubtree oldF oldStored newF newPath v) := by
  apply (writes_read _).bind
  intro keys
  apply (writes_read _).bind
  intro tombs
  apply (writes_each writes_takeOut keys).bind
  intro moved
  refine Writes.bind (writes_change fun _ => rfl) fun _ => ?_
  refine Writes.bind (writes_change fun _ => rfl) fun _ => ?_
  apply (writes_each (writes_putBack oldF oldStored newF newPath v) moved).bind
  intro _
  exact (writes_each (writes_tombMoved oldF newF v) tombs).bind fun _ => writes_pure ()

theorem transacts_renameKey (path : Path) (newLeaf : Str) (now : UInt64) (o : Overlay) :
    Transacts CountsUp o (renameKey path newLeaf now o) := by
  unfold renameKey
  apply transacts_unless
  intro _
  apply transacts_unless
  intro _
  apply transacts_unless
  intro _
  apply (reads_orRefuse _ _).transacts_bind
  intro parentPath
  apply (reads_read _).transacts_bind
  intro found
  apply (reads_orRefuse _ _).transacts_bind
  intro root
  apply (reads_expect _).transacts_bind
  intro parentStored
  apply (reads_read _).transacts_bind
  intro taken
  apply transacts_unless
  intro _
  apply transacts_bump
  intro v
  apply (writes_moveSubtree _ _ _ _ _).bind
  intro _
  apply (writes_getMut _ _).bind
  intro _
  have hlast : Writes version (do
      getMut (foldPath parentPath) (setChild newLeaf .present v now)
      change fun o => o.touchAncestors parentPath v
      return v : Of ℕ) :=
    (writes_getMut _ _).bind fun _ => writes_touched parentPath v
  split_ifs with hcase
  · apply (writes_getMut _ _).bind
    intro _
    exact Writes.bind (writes_change fun _ => version_tomb _ _ _) fun _ => hlast
  · exact hlast

/-- Whatever the overlay, a mutator that returns an error has left it exactly as it was, and one
that returns a version has counted the overlay's up by one. -/
theorem refused_unchanged_or_bumped (op : Op) (o : Overlay) :
    (∀ e, (of op o).1 = .refused e → (of op o).2 = o) ∧
      ∀ v, (of op o).1 = .returned v → (of op o).2.version = o.version + 1 := by
  have h : Transacts CountsUp o (of op o) := by
    cases op with
    | setValue path name ty data now => exact transacts_setValue path name ty data now o
    | deleteValue path name now => exact transacts_deleteValue path name now o
    | createKey path volatile realExists now =>
      exact transacts_createKey path volatile realExists now o
    | deleteKey path now => exact transacts_deleteKey path now o
    | renameKey path newLeaf now => exact transacts_renameKey path newLeaf now o
  exact ⟨h.refused, h.returned⟩

end Refusals

section Agreement

variable {o : Overlay}

omit [ToLowercase] in
theorem getMut_of_mem {key : Path} (h : key ∈ o.entries) (f : Entry → Entry) :
    getMut key f o = (.returned (), o.modify key f) := by
  obtain ⟨e, he⟩ := Table.exists_lookup h
  simp [getMut, he, change]

omit [ToLowercase] in
theorem index_of_lookup {key : Path} {e : Entry} (h : o.entries.lookup key = some e) :
    index (some key) o = (.returned (some e), o) := by
  simp [index, h, pure_apply]

theorem addNode_eq {parentKey : Option Path} (hparent : ∀ pk, parentKey = some pk → pk ∈ o.entries)
    (stored : Path) (comp : Str) (plain : Bool) (v : ℕ) (now : UInt64) :
    addNode parentKey stored comp plain v now o =
      (.returned (), o.addNode parentKey stored comp plain v now) := by
  cases parentKey with
  | none => rfl
  | some pk =>
    have hpk := hparent pk rfl
    obtain ⟨e, he⟩ := Table.exists_lookup hpk
    have hthere : ∀ x : Entry, pk ∈ o.entries.insert (foldPath stored) x := by
      intro x
      rw [AList.mem_insert]
      exact Or.inr hpk
    have hindex : index (some pk) { o with tombs := o.tombs.erase (foldPath stored) } =
        (.returned (some e), { o with tombs := o.tombs.erase (foldPath stored) }) :=
      index_of_lookup he
    simp only [addNode, read_bind_apply, change_bind_apply]
    rw [bind_of_returned hindex, change_bind_apply, getMut_of_mem (hthere _)]
    simp [Overlay.addNode, freshEntry, he]

theorem ensureChainLoop_eq (real : Bool) (v : ℕ) (now : UInt64) (comps : List Str) (stored : Path)
    (parentKey : Option Path) (hparent : ∀ pk, parentKey = some pk → pk ∈ o.entries) :
    ensureChainLoop real v now comps stored parentKey o =
      (.returned (), Overlay.ensureChainLoop real v now o stored parentKey comps) := by
  induction comps generalizing o stored parentKey with
  | nil => rfl
  | cons comp rest ih =>
    rw [ensureChainLoop, Overlay.ensureChainLoop]
    cases hl : o.entries.lookup (foldPath (stored ++ [comp])) with
    | some e =>
      simp only [read_bind_apply, hl]
      apply ih
      intro pk hpk
      cases hpk
      exact Table.mem_of_lookup hl
    | none =>
      simp only [read_bind_apply, hl]
      rw [bind_of_returned (addNode_eq hparent _ _ _ _ _)]
      apply ih
      intro pk hpk
      cases hpk
      refine AList.lookup_isSome.mp ?_
      rw [lookup_addNode_key]
      · rfl
      · intro heq
        exact AList.lookup_eq_none.mp hl (hparent _ heq)

theorem ensureChain_eq (o : Overlay) (path : Path) (real : Bool) (v : ℕ) (now : UInt64) :
    ensureChain path real v now o = (.returned (), o.ensureChain path real v now) := by
  apply ensureChainLoop_eq
  intro pk hpk
  cases hpk

/-- How a mutator ends, and the overlay it leaves, according to `Overlay.call`. -/
def ending (o : Overlay) : Except RegError (ℕ × Overlay) → Exit RegError ℕ × Overlay
  | .ok (v, o') => (.returned v, o')
  | .error e => (.refused e, o)

omit [ToLowercase] in
theorem unless_eq_ending {c : Prop} [Decidable c] {e : RegError} {k : Unit → Of ℕ}
    {k' : Unit → Except RegError (ℕ × Overlay)} (h : ¬ c → k () o = ending o (k' ())) :
    (if c then (refuse e : Of Unit) >>= k else k ()) o =
      ending o (if c then (throw e : Except RegError Unit) >>= k' else k' ()) := by
  split_ifs with hc
  · rfl
  · exact h hc

omit [ToLowercase] in
theorem ask_eq_ending {α : Type} {x : Except RegError α} {k : α → Of ℕ}
    {k' : α → Except RegError (ℕ × Overlay)} (h : ∀ a, x = .ok a → k a o = ending o (k' a)) :
    (ask x >>= k : Of ℕ) o = ending o (x >>= k') := by
  cases x with
  | ok a => exact h a rfl
  | error e => rfl

theorem edit_eq (h : Inv o) {path : Path} (hvalid : validPath path = true) (real : Bool)
    (f : Entry → Entry) (now : UInt64) :
    (do
      let v ← bump
      ensureChain path real v now
      getMut (foldPath path) f
      change fun o => o.mark path v
      return v : Of ℕ) o =
    (.returned (o.version + 1), o.edited path real now f) := by
  have hbumped : Inv o.bumped := h.version (o.version + 1)
  have hchain := hbumped.ensureChain hvalid real (o.version + 1) now
  rw [bump_bind_apply, bind_of_returned (ensureChain_eq _ _ _ _ _),
    bind_of_returned (getMut_of_mem hchain.2 f)]
  rfl

theorem setValue_eq (h : Inv o) (path : Path) (name : Str) (ty : UInt32) (data : List UInt8)
    (now : UInt64) :
    setValue path name ty data now o = ending o (o.setValue path name ty data now) := by
  unfold setValue Overlay.setValue
  apply unless_eq_ending
  intro hvalid
  apply ask_eq_ending
  intro _ _
  apply ask_eq_ending
  intro _ _
  apply unless_eq_ending
  intro _
  apply unless_eq_ending
  intro _
  exact edit_eq h (not_not.mp hvalid) true _ now

theorem deleteValue_eq (h : Inv o) (path : Path) (name : Str) (now : UInt64) :
    deleteValue path name now o = ending o (o.deleteValue path name now) := by
  unfold deleteValue Overlay.deleteValue
  apply unless_eq_ending
  intro hvalid
  apply ask_eq_ending
  intro _ _
  apply unless_eq_ending
  intro _
  beta_reduce
  rw [read_bind_apply]
  apply unless_eq_ending
  intro _
  exact edit_eq h (not_not.mp hvalid) true _ now

theorem createKey_eq (h : Inv o) (path : Path) (volatile realExists : Bool) (now : UInt64) :
    createKey path volatile realExists now o =
      ending o (o.createKey path volatile realExists now) := by
  unfold createKey Overlay.createKey
  apply unless_eq_ending
  intro hvalid
  apply ask_eq_ending
  intro _ _
  apply ask_eq_ending
  intro _ _
  rw [read_bind_apply]
  simp only [decide_eq_true_eq]
  apply unless_eq_ending
  intro _
  exact edit_eq h (not_not.mp hvalid) realExists _ now

theorem deleteKey_eq (h : Inv o) (path : Path) (now : UInt64) :
    deleteKey path now o = ending o (o.deleteKey path now) := by
  unfold deleteKey Overlay.deleteKey
  apply unless_eq_ending
  intro hvalid
  cases hparent : parent path with
  | none => rfl
  | some pp =>
    have hbumped : Inv o.bumped := h.version (o.version + 1)
    have hchain := hbumped.ensureChain (validPath_parent (not_not.mp hvalid) hparent).1 true
      (o.version + 1) now
    beta_reduce
    rw [orRefuse, pure_bind_apply, read_bind_apply]
    apply unless_eq_ending
    intro _
    have hthere : foldPath pp ∈ (((o.bumped.ensureChain pp true (o.version + 1) now).removeSubtree
        (foldPath path)).tomb (foldPath path) (o.version + 1)).entries := by
      rw [entries_tomb, ← AList.lookup_isSome, lookup_removeSubtree,
        foldPath_parent (not_not.mp hvalid) hparent, if_neg not_append_prefix_self]
      exact AList.lookup_isSome.mpr hchain.2
    beta_reduce
    rw [bump_bind_apply, bind_of_returned (ensureChain_eq _ _ _ _ _), change_bind_apply,
      change_bind_apply, bind_of_returned (getMut_of_mem hthere _)]
    rfl

omit [ToLowercase] in
theorem sliceFrom_append (start rest : Path) (o : Overlay) :
    sliceFrom (start ++ rest) start o = (.returned rest, o) := by
  rw [sliceFrom, if_pos (by simp), List.drop_left]
  rfl

omit [ToLowercase] in
theorem each_takeOut {rows : List (Path × Entry)} (hnodup : (rows.map Prod.fst).Nodup)
    (hrows : ∀ r ∈ rows, o.entries.lookup r.1 = some r.2) :
    each takeOut (rows.map Prod.fst) o = (.returned (rows.map Prod.snd),
      { o with entries := Table.eraseAll o.entries (rows.map Prod.fst) }) := by
  refine each_eq (F := fun (o : Overlay) (xs : List (Path × Entry)) =>
      { o with entries := Table.eraseAll o.entries (xs.map Prod.fst) })
    (I := fun o xs => (xs.map Prod.fst).Nodup ∧ ∀ r ∈ xs, o.entries.lookup r.1 = some r.2)
    (fun _ => rfl) ?_ ⟨hnodup, hrows⟩
  rintro o r rows ⟨hnodup, hrows⟩
  obtain ⟨hr, hnodup⟩ := List.nodup_cons.mp hnodup
  obtain ⟨hhere, hrows⟩ := List.forall_mem_cons.mp hrows
  refine ⟨{ o with entries := o.entries.erase r.1 }, ?_, rfl, hnodup, fun r' hr' => ?_⟩
  · simp [takeOut, hhere, pure_apply]
  · have hne : r'.1 ≠ r.1 := fun heq => hr (heq ▸ List.mem_map_of_mem hr')
    rw [AList.lookup_erase_ne hne]
    exact hrows r' hr'

/-- The row that an entry is put back as. -/
def movedRow (oldF : Path) (old : Entry) (newF newPath : Path) (v : ℕ) (e : Entry) : Path × Entry :=
  (newF ++ (foldPath (old.path ++ e.path.drop old.path.length)).drop oldF.length,
    movedEntry old newPath v e)

/-- No slice panics if each entry's path begins with the old one, in the spelling that is stored. -/
theorem each_putBack {oldF : Path} {old : Entry} (newF newPath : Path) (v : ℕ)
    {rows : List (Path × Entry)}
    (hrows : ∀ r ∈ rows, old.path <+: r.2.path ∧ oldF <+: foldPath r.2.path) :
    each (putBack oldF old.path newF newPath v) (rows.map Prod.snd) o =
      (.returned (rows.map fun _ => ()), { o with
        entries := Table.insertAll o.entries (rows.map fun r =>
          movedRow oldF old newF newPath v r.2) }) := by
  refine each_eq (F := fun (o : Overlay) (xs : List (Path × Entry)) => { o with
      entries := Table.insertAll o.entries (xs.map fun r => movedRow oldF old newF newPath v r.2) })
    (I := fun _ xs => ∀ r ∈ xs, old.path <+: r.2.path ∧ oldF <+: foldPath r.2.path)
    (fun _ => rfl) ?_ hrows
  intro o r rows hrows
  obtain ⟨⟨⟨suffix, hsuffix⟩, ⟨rest, hrest⟩⟩, hrows⟩ := List.forall_mem_cons.mp hrows
  let row := movedRow oldF old newF newPath v r.2
  refine ⟨{ o with entries := o.entries.insert row.1 row.2 }, ?_, rfl, hrows⟩
  have hrow : row = (newF ++ rest, { r.2 with
      path := newPath ++ suffix
      node := { r.2.node with created := true }
      changed := v
      subtree := v }) := by
    rw [show row = movedRow oldF old newF newPath v r.2 from rfl, movedRow, movedEntry, ← hsuffix,
      List.drop_left, hsuffix, ← hrest, List.drop_left]
  rw [putBack, ← hsuffix, bind_of_returned (sliceFrom_append _ _ _), hsuffix, ← hrest,
    bind_of_returned (sliceFrom_append _ _ _), hrow]
  rfl

omit [ToLowercase] in
theorem each_tombMoved {oldF : Path} (newF : Path) (v : ℕ) {rows : List (Path × ℕ)}
    (hrows : ∀ r ∈ rows, oldF <+: r.1) :
    each (tombMoved oldF newF v) (rows.map Prod.fst) o = (.returned (rows.map fun _ => ()),
      rows.foldl (fun o r => o.tomb (newF ++ r.1.drop oldF.length) v) o) := by
  refine each_eq (F := fun (o : Overlay) (xs : List (Path × ℕ)) =>
      xs.foldl (fun o r => o.tomb (newF ++ r.1.drop oldF.length) v) o)
    (I := fun _ xs => ∀ r ∈ xs, oldF <+: r.1) (fun _ => rfl) ?_ hrows
  intro o r rows hrows
  obtain ⟨⟨rest, hrest⟩, hrows⟩ := List.forall_mem_cons.mp hrows
  refine ⟨o.tomb (newF ++ r.1.drop oldF.length) v, ?_, rfl, hrows⟩
  rw [tombMoved, ← hrest, bind_of_returned (sliceFrom_append _ _ _), List.drop_left]
  rfl

theorem moveSubtree_eq {p : Path} {a b : Str} {old : Entry} (h : Renames o p old a b)
    (newPath : Path) (v : ℕ) : moveSubtree (p ++ [a]) old.path (p ++ [b]) newPath v o =
      (.returned (), o.moveSubtree (p ++ [a]) old.path (p ++ [b]) newPath v) := by
  have hrows : ∀ r ∈ Table.rowsWhere o.entries fun k => (p ++ [a]).isPrefixOf k,
      o.entries.lookup r.1 = some r.2 ∧ p ++ [a] <+: r.1 := by
    intro r hr
    simpa using Table.mem_rowsWhere.mp hr
  have hkeys : o.subtreeKeys (p ++ [a]) =
      (Table.rowsWhere o.entries fun k => (p ++ [a]).isPrefixOf k).map Prod.fst := by
    simp [subtreeKeys, Table.rowsWhere, AList.keys, List.keys, List.filter_map, Function.comp_def]
  rw [moveSubtree, read_bind_apply, read_bind_apply, hkeys,
    bind_of_returned (each_takeOut (Table.nodup_rowsWhere _ _) fun r hr => (hrows r hr).1),
    change_bind_apply, change_bind_apply, bind_of_returned (each_putBack _ _ _ fun r hr => ?_),
    bind_of_returned (each_tombMoved _ _ fun r hr => ?_)]
  · rfl
  · have hbelow := (Table.mem_rowsWhere.mp hr).2
    simp only [isBelow, Bool.and_eq_true, List.isPrefixOf_iff_prefix] at hbelow
    exact hbelow.1
  · obtain ⟨hlookup, rest, hrest⟩ := hrows r hr
    refine ⟨h.inv.path_above h.old (hrest ▸ hlookup), ?_⟩
    rw [h.inv.spelled _ _ hlookup]
    exact ⟨rest, hrest⟩

theorem mem_moved {p : Path} {a b : Str} {old : Entry} (h : Renames o p old a b) (newPath : Path)
    (v : ℕ) : p ++ [b] ∈ (o.moveSubtree (p ++ [a]) old.path (p ++ [b]) newPath v).entries ∧
      p ∈ (o.moveSubtree (p ++ [a]) old.path (p ++ [b]) newPath v).entries := by
  have hsource : Tree.source p a b (p ++ [b]) = p ++ [a] := by
    simpa using Tree.source_append p a b []
  simp only [← AList.lookup_isSome, h.lookup_moveSubtree, not_append_prefix_self, if_false]
  rw [if_pos List.prefix_rfl, hsource, h.old]
  exact ⟨rfl, AList.lookup_isSome.mpr h.parent⟩

theorem renameKey_eq (h : Inv o) (path : Path) (newLeaf : Str) (now : UInt64) :
    renameKey path newLeaf now o = ending o (o.renameKey path newLeaf now) := by
  unfold renameKey Overlay.renameKey
  apply unless_eq_ending
  intro hvalid
  apply unless_eq_ending
  intro _
  apply unless_eq_ending
  intro _
  cases hparent : parent path with
  | none => rfl
  | some pp =>
    dsimp only
    rw [orRefuse, pure_bind_apply, read_bind_apply]
    cases hold : o.entries.lookup (foldPath path) with
    | none => rfl
    | some old =>
      dsimp only
      rw [orRefuse, pure_bind_apply, h.parent_stored (not_not.mp hvalid) hparent hold,
        expect_some_bind_apply, read_bind_apply]
      simp only [decide_eq_true_eq]
      apply unless_eq_ending
      intro hfree
      rw [h.foldPath_newPath (not_not.mp hvalid) hparent hold newLeaf] at hfree ⊢
      have hren := h.renames (not_not.mp hvalid) hparent hold hfree
      rw [bump_bind_apply, foldPath_parent (not_not.mp hvalid) hparent,
        bind_of_returned (moveSubtree_eq hren.bumped _ _)]
      obtain ⟨hnewF, hpp⟩ := mem_moved hren.bumped (old.path.dropLast ++ [newLeaf]) (o.version + 1)
      rw [bind_of_returned (getMut_of_mem hnewF _)]
      by_cases hcase : foldPath pp ++ [fold newLeaf] = foldPath pp ++ [fold (leaf path)]
      · rw [if_neg (not_not.mpr hcase), if_pos hcase,
          bind_of_returned (getMut_of_mem (mem_modify.mpr hpp) _)]
        rfl
      · have hthere : ∀ f g : Entry → Entry, foldPath pp ∈
            ((((o.bumped.moveSubtree (foldPath pp ++ [fold (leaf path)]) old.path
              (foldPath pp ++ [fold newLeaf]) (old.path.dropLast ++ [newLeaf])
              (o.version + 1)).modify (foldPath pp ++ [fold newLeaf]) f).modify (foldPath pp)
              g).tomb (foldPath pp ++ [fold (leaf path)]) (o.version + 1)).entries := by
          intro f g
          rw [entries_tomb, mem_modify, mem_modify]
          exact hpp
        rw [if_pos hcase, if_neg hcase,
          bind_of_returned (getMut_of_mem (mem_modify.mpr hpp) _), change_bind_apply,
          bind_of_returned (getMut_of_mem (hthere _ _) _)]
        rfl

/-- On an overlay that the mutators made, a call ends as `Overlay.call` says, with the overlay
that `Overlay.step` says; it does not panic. -/
theorem of_eq_ending (h : Inv o) (op : Op) : of op o = ending o (o.call op) := by
  cases op with
  | setValue path name ty data now => exact setValue_eq h path name ty data now
  | deleteValue path name now => exact deleteValue_eq h path name now
  | createKey path volatile realExists now => exact createKey_eq h path volatile realExists now
  | deleteKey path now => exact deleteKey_eq h path now
  | renameKey path newLeaf now => exact renameKey_eq h path newLeaf now

theorem of_snd_eq_step (h : Inv o) (op : Op) : (of op o).2 = o.step op := by
  rw [of_eq_ending h, Overlay.step]
  rcases o.call op with e | ⟨v, o'⟩
  · rfl
  · rfl

/-- Run from the empty overlay, the bodies leave the overlays of `Overlay.step`, and none panics. -/
theorem run_bodies_eq (ops : List Op) :
    let o := Transition.run Overlay.step new ops
    Transition.run (fun o op => (of op o).2) new ops = o ∧ ∀ op, of op o = ending o (o.call op) := by
  refine ⟨?_, of_eq_ending (inv_new.tracks_run ops).1⟩
  induction ops using List.reverseRecOn with
  | nil => rfl
  | append_singleton ops op ih =>
    simp only [Transition.run_append, ih]
    exact of_snd_eq_step (inv_new.tracks_run ops).1 op

end Agreement

end Body

end Overlay

end AetherVfs.Registry
