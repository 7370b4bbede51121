import AetherVfs.Registry.Simulation

/-!
# Open key handles

A handle keeps the path it was opened for, not what is there: every call through it asks the
overlay again (`classify` in `vfs-shim/src/regquery.rs`, `live` in `vfs-shim/src/regwrite.rs`).
The question is `lookup` of that path alone, which does not say that an ancestor was deleted and
created again. Here is what a call through a handle then answers and does, with a director that
can be asked.
-/

namespace AetherVfs.Registry

open Overlay

inductive NtStatus where
  | success
  | keyDeleted
  | invalidParameter
  | accessDenied
  | objectNameNotFound
  | cannotDelete
deriving DecidableEq

def keyQueryValue : UInt32 := 0x1
def keySetValue : UInt32 := 0x2

def writeStatus : RegError → NtStatus
  | .nameTooLong | .dataTooLarge | .invalidPath | .tooDeep => .invalidParameter
  | .notFound => .keyDeleted
  | .alreadyExists => .cannotDelete

inductive Handle where
  /-- Answered by the shim, with a private handle on the real key if it has one. -/
  | synthetic (path : Path) (access : UInt32) (real deleted : Bool)
  /-- The caller's own handle on the real key. -/
  | passThrough (path : Path) (access : UInt32) (deleted renamed : Bool)

inductive Mode where
  | read
  | write
deriving DecidableEq

structure KeyRef where
  path : Path
  access : UInt32
  /-- There is a handle on the real key, for reading it. -/
  real : Bool
  deleted : Bool
  synthetic : Bool

/-- `key_handle`: what a call makes of the caller's handle. -/
def Handle.key (mode : Mode) : Handle → KeyRef
  | .synthetic path access real deleted => ⟨path, access, real, deleted, true⟩
  | .passThrough path access deleted renamed =>
    ⟨path, access, !(decide (mode = .write) && renamed), deleted, false⟩

def Handle.path : Handle → Path
  | .synthetic path _ _ _ => path
  | .passThrough path _ _ _ => path

def Handle.access : Handle → UInt32
  | .synthetic _ access _ _ => access
  | .passThrough _ access _ _ => access

def Handle.deleted : Handle → Bool
  | .synthetic _ _ _ deleted => deleted
  | .passThrough _ _ deleted _ => deleted

def KeyRef.check (k : KeyRef) (right : UInt32) : Except NtStatus Unit :=
  if k.access &&& right ≠ right then .error .accessDenied else .ok ()

/-- Who answers a query. -/
inductive Target where
  | real
  | deleted
  | merge (k : KeyRef)

section

variable [ToLowercase]

/-- The key to merge: one created here has no real counterpart to show through. -/
def merged (k : KeyRef) (state : Lookup) : KeyRef :=
  { k with real := k.real && decide (state ≠ .present true) }

def classify (o : Overlay) (h : Handle) : Target :=
  let k := h.key .read
  if k.deleted then .deleted
  else if k.synthetic then
    match o.lookup k.path with
    | (.tombstoned, _) => .deleted
    | (state, _) => .merge (merged k state)
  else
    match o.lookup k.path with
    | (.absent, false) => .real
    | (.tombstoned, _) => .deleted
    | (state, _) => .merge (merged k state)

/-- `with_real`: the real key behind the handle, `None` when it has none or the key is gone. -/
def KeyRef.withReal (R : Real) (k : KeyRef) : Option KeyView :=
  if k.real then R.key (foldPath k.path) else none

/-- `query_key` of a class that lists the key. The real call makes its own access check, and
answers that a key which is gone is deleted. -/
def queryKey (R : Real) (o : Overlay) (h : Handle) : Except NtStatus KeyView := do
  match classify o h with
  | .real =>
    (h.key .read).check keyQueryValue
    match R.key (foldPath h.path) with
    | some v => return v
    | none => throw .keyDeleted
  | .deleted => throw .keyDeleted
  | .merge k =>
    k.check keyQueryValue
    match merge (k.withReal R) (o.node k.path) false with
    | some v => return v
    | none => throw .keyDeleted

/-- The query reads the real key, and its answer is or includes what is there. -/
def readsReal (R : Real) (o : Overlay) (h : Handle) : Bool :=
  match classify o h with
  | .real => (R.key (foldPath h.path)).isSome
  | .deleted => false
  | .merge k => (k.withReal R).isSome && !(o.node k.path).any Node.created

def live (o : Overlay) (k : KeyRef) : Except NtStatus Lookup :=
  if k.deleted then .error .keyDeleted
  else if (o.lookup k.path).1 = .tombstoned then .error .keyDeleted
  else .ok (o.lookup k.path).1

/-- The director's reply to a write, and the overlay after it. -/
def sendWrite (o : Overlay) (op : Overlay.Op) : Except NtStatus Overlay :=
  match o.call op with
  | .ok r => .ok r.2
  | .error e => .error (writeStatus e)

def setValueKey (o : Overlay) (h : Handle) (name : Str) (ty : UInt32) (data : List UInt8)
    (now : UInt64) : Except NtStatus Overlay := do
  let t := h.key .write
  if maxValueName < utf16Len name then throw .invalidParameter
  if maxData < data.length then throw .invalidParameter
  t.check keySetValue
  let _ ← live o t
  sendWrite o (.setValue t.path name ty data now)

/-- Where a value of the merged view is. -/
inductive Found where
  | overlay
  | hidden
  | real

def findValue (n : Option Node) (folded : Str) : Found :=
  match n with
  | none => .real
  | some n =>
    if n.values.any fun v => fold v.name = folded then .overlay
    else if n.created || n.valueTombstones.any fun t => t = folded then .hidden
    else .real

def realHasValue (R : Real) (k : KeyRef) (name : Str) : Bool :=
  (k.withReal R).any fun v => v.values.any fun x => fold x.name = fold name

def deleteValueKey (R : Real) (o : Overlay) (h : Handle) (name : Str) (now : UInt64) :
    Except NtStatus Overlay := do
  let t := h.key .write
  if maxValueName < utf16Len name then throw .objectNameNotFound
  t.check keySetValue
  let _ ← live o t
  let found : Bool :=
    match findValue (o.node t.path) (fold name) with
    | .overlay => true
    | .hidden => false
    | .real => realHasValue R t name
  if ¬ found then throw .objectNameNotFound
  sendWrite o (.deleteValue t.path name now)

/-- The key is hidden, because it or a key above it was deleted, and has no node. -/
def Gone (o : Overlay) (p : Path) : Prop :=
  o.hidden (foldPath p) = true ∧ foldPath p ∉ o.entries

/-- Calls through the handle show the merged view and nothing else. -/
structure ShowsMerged (R : Real) (o : Overlay) (h : Handle) : Prop where
  real : readsReal R o h = true → (o.view R h.path).isSome ∧ (R.key (foldPath h.path)).isSome ∧
    ¬ (o.node h.path).any Node.created
  query : Gone o h.path → queryKey R o h = .error .keyDeleted
  setValue : Gone o h.path → ∀ name ty data now o',
    setValueKey o h name ty data now = .ok o' → foldPath h.path ∉ o'.entries
  deleteValue : Gone o h.path → ∀ name now o',
    deleteValueKey R o h name now = .ok o' → foldPath h.path ∉ o'.entries

/-- `lookup` of the path tells what became of the key: not when it has neither a node nor a
deletion above it, and a key above it was created here. -/
def Told (o : Overlay) (h : Handle) : Prop :=
  h.deleted = true ∨ (o.lookup h.path).1 ≠ .absent ∨ o.belowCreated h.path = false

section Calls

variable {R : Real} {o : Overlay} {h : Handle}

omit [ToLowercase] in
@[simp] theorem key_path (m : Mode) : (h.key m).path = h.path := by cases h <;> rfl

omit [ToLowercase] in
@[simp] theorem key_access (m : Mode) : (h.key m).access = h.access := by cases h <;> rfl

omit [ToLowercase] in
@[simp] theorem key_deleted (m : Mode) : (h.key m).deleted = h.deleted := by cases h <;> rfl

omit [ToLowercase] in
theorem merged_path (k : KeyRef) (st : Lookup) : (merged k st).path = k.path := rfl

theorem classify_eq (o : Overlay) (h : Handle) : classify o h =
    if h.deleted = true ∨ (o.lookup h.path).1 = .tombstoned then .deleted
    else if (h.key .read).synthetic = false ∧ o.lookup h.path = (.absent, false) then .real
    else .merge (merged (h.key .read) (o.lookup h.path).1) := by
  unfold classify
  dsimp only
  rw [key_deleted, key_path]
  obtain ⟨st, below⟩ := o.lookup h.path
  cases h.deleted <;> cases (h.key .read).synthetic <;> cases st <;> cases below <;> simp

theorem lookup_of_gone (hinv : o.Inv) (hp : validPath h.path = true) (hgone : Gone o h.path)
    (htold : Told o h) : h.deleted = true ∨ (o.lookup h.path).1 = .tombstoned := by
  obtain ⟨hhid, hout⟩ := hgone
  have hnone := AList.lookup_eq_none.mpr hout
  have hstate : (o.lookup h.path).1 = .tombstoned ∨ (o.lookup h.path).1 = .absent := by
    simp only [lookup, hp, not_true_eq_false, if_false, hnone]
    split_ifs <;> simp
  rcases htold with hdel | hlook | hbelow
  · exact Or.inl hdel
  · exact Or.inr (hstate.resolve_right hlook)
  · refine Or.inr ?_
    rcases (hinv.hidden_iff_lookup hp hnone).mp hhid with hdead | hcreated
    · exact hdead
    · rw [hbelow] at hcreated
      cases hcreated

theorem live_eq_error (hdead : h.deleted = true ∨ (o.lookup h.path).1 = .tombstoned) (m : Mode) :
    live o (h.key m) = .error .keyDeleted := by
  rw [live, key_deleted, key_path]
  rcases hdead with hdel | hdead
  · rw [if_pos hdel]
  · by_cases hdel : h.deleted = true
    · rw [if_pos hdel]
    · rw [if_neg hdel, if_pos hdead]

theorem showsMerged_of_told (hinv : o.Inv) (hp : validPath h.path = true) (htold : Told o h) :
    ShowsMerged R o h := by
  refine ⟨fun hreads => ?_, fun hgone => ?_, fun hgone => ?_, fun hgone => ?_⟩
  · rw [readsReal, classify_eq] at hreads
    by_cases hdead : h.deleted = true ∨ (o.lookup h.path).1 = .tombstoned
    · rw [if_pos hdead] at hreads
      cases hreads
    rw [if_neg hdead] at hreads
    -- What is read is the real key, and no created node stands over it.
    have hsome : (R.key (foldPath h.path)).isSome ∧ ¬ (o.node h.path).any Node.created := by
      split_ifs at hreads with hfast
      · refine ⟨hreads, ?_⟩
        have hnode : o.node h.path = none := by
          have habsent : (o.lookup h.path).1 = .absent := by rw [hfast.2]
          cases he : o.entries.lookup (foldPath h.path) with
          | none => simp [node, he]
          | some e => simp [lookup, hp, he] at habsent
        simp [hnode]
      · simp only [Bool.and_eq_true, Bool.not_eq_true', merged_path, key_path] at hreads
        refine ⟨?_, by simp [hreads.2]⟩
        have hreal := hreads.1
        simp only [KeyRef.withReal, merged_path, key_path] at hreal
        split_ifs at hreal
        · exact hreal
        · cases hreal
    refine ⟨?_, hsome⟩
    rw [hinv.view_eq_seen R hp]
    cases he : o.entries.lookup (foldPath h.path) with
    | some e => rw [seen_of_lookup R he, isSome_merge_some]
    | none =>
      have hshow : ¬ o.hidden (foldPath h.path) = true := fun hhid =>
        hdead (lookup_of_gone hinv hp ⟨hhid, AList.lookup_eq_none.mp he⟩ htold)
      rw [seen_of_none R he, if_neg hshow]
      exact hsome.1
  · rw [queryKey, classify_eq, if_pos (lookup_of_gone hinv hp hgone htold)]
    rfl
  · intro name ty data now o' hset
    simp only [setValueKey, Outcome.unless_eq_ok, Outcome.bind_eq_ok] at hset
    obtain ⟨-, -, -, -, st, hlive, -⟩ := hset
    rw [live_eq_error (lookup_of_gone hinv hp hgone htold)] at hlive
    cases hlive
  · intro name now o' hdel
    simp only [deleteValueKey, Outcome.unless_eq_ok, Outcome.bind_eq_ok] at hdel
    obtain ⟨-, -, -, st, hlive, -⟩ := hdel
    rw [live_eq_error (lookup_of_gone hinv hp hgone htold)] at hlive
    cases hlive

theorem told_of_showsMerged (hinv : o.Inv) (hp : validPath h.path = true)
    (hset : h.access &&& keySetValue = keySetValue) (hwrite : Overlay.Writable h.path)
    (hshows : ShowsMerged R o h) : Told o h := by
  by_contra htold
  simp only [Told, not_or, ne_eq, not_not, Bool.not_eq_true, Bool.not_eq_false] at htold
  obtain ⟨hdel, habsent, hbelow⟩ := htold
  have hnone : o.entries.lookup (foldPath h.path) = none := by
    cases he : o.entries.lookup (foldPath h.path) with
    | none => rfl
    | some e => simp [lookup, hp, he] at habsent
  have hgone : Gone o h.path :=
    ⟨(hinv.hidden_iff_lookup hp hnone).mpr (Or.inr hbelow), AList.lookup_eq_none.mp hnone⟩
  -- The write goes through, and its chain ends in a node for the key.
  have hcall : o.call (.setValue h.path [] 0 [] 0) = .ok _ :=
    setValue_eq_ok.mpr ⟨⟨hp, hwrite, Nat.zero_le _, Nat.zero_le _⟩, rfl⟩
  have hdone : setValueKey o h [] 0 [] 0 = .ok (o.step (.setValue h.path [] 0 [] 0)) := by
    simp only [setValueKey, Outcome.unless_eq_ok, Outcome.bind_eq_ok, key_path]
    refine ⟨by simp [utf16Len], by simp, (), ?_, .absent, ?_, ?_⟩
    · rw [KeyRef.check, key_access, if_neg (not_not.mpr hset)]
    · rw [live, key_deleted, key_path, hdel, habsent]
      rfl
    · rw [sendWrite, hcall, step_of_ok hcall]
  refine hshows.setValue hgone _ _ _ _ _ hdone ?_
  have hb : o.bumped.Inv := hinv.version _
  obtain ⟨-, hin⟩ := hb.ensureChain hp true (o.version + 1) 0
  rw [step_of_ok hcall, Overlay.edited, mark, mem_touchAncestors]
  exact mem_modify.mpr (mem_modify.mpr hin)

end Calls

/-- After any calls, a handle shows the merged view as long as `lookup` of its path tells what
became of its key, and a handle that may write shows it only then. -/
theorem showsMerged_run (R : Real) (ops : List Overlay.Op) (h : Handle)
    (hp : validPath h.path = true) :
    let o := Transition.run step new ops
    (Told o h → ShowsMerged R o h) ∧
      (h.access &&& keySetValue = keySetValue → Overlay.Writable h.path → ShowsMerged R o h →
        Told o h) := by
  intro o
  have hinv : o.Inv := Transition.run_invariant (fun _ op hi => hi.step op) inv_new ops
  exact ⟨showsMerged_of_told hinv hp, told_of_showsMerged hinv hp⟩

end

def keySX : Path := keyS ++ [['X']]

attribute [local instance] asciiLowercase

def twoKeys : Real := Real.along (root ++ [['s'], ['x']]) [⟨['v'], 1, [7]⟩] (by decide)

/-- A handle on `S\X`, opened for reading and writing before anything was deleted. -/
def openSX : Handle := .passThrough keySX 3 false false

/-- A handle on a key whose parent was deleted. -/
theorem queryKey_deletedParent : queryKey twoKeys
    (Transition.run Overlay.step Overlay.new [.deleteKey keyS 5]) openSX = .error .keyDeleted := by
  have htold : Told (Transition.run step new [.deleteKey keyS 5]) openSX :=
    Or.inr (Or.inl (by decide +kernel))
  refine ((showsMerged_run twoKeys [.deleteKey keyS 5] openSX rfl).1 htold).query ?_
  exact ⟨by decide +kernel, by decide +kernel⟩

/-- `S\X` and `S` are deleted, and `S` is created again. -/
def recreatedParent : List Overlay.Op :=
  [.deleteKey keySX 5, .deleteKey keyS 6, .createKey keyS false false 7]

/-- Then the key is gone, and the handle still shows the real key and can bring it back. -/
theorem not_showsMerged_recreatedParent :
    Gone (Transition.run Overlay.step Overlay.new recreatedParent) openSX.path ∧
    (queryKey twoKeys (Transition.run Overlay.step Overlay.new recreatedParent) openSX).toOption =
      some ⟨[], [⟨['v'], 1, [7]⟩], none, 1, 0⟩ ∧
    ¬ ShowsMerged twoKeys (Transition.run Overlay.step Overlay.new recreatedParent) openSX := by
  have hgone : Gone (Transition.run step new recreatedParent) openSX.path :=
    ⟨by decide +kernel, by decide +kernel⟩
  have hquery : (queryKey twoKeys (Transition.run step new recreatedParent)
      openSX).toOption = some ⟨[], [⟨['v'], 1, [7]⟩], none, 1, 0⟩ := by decide +kernel
  refine ⟨hgone, hquery, fun hshows => ?_⟩
  rw [hshows.query hgone] at hquery
  cases hquery

end AetherVfs.Registry
