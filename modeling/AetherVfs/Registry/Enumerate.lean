import AetherVfs.Registry.Merge

/-!
# The shim's enumerations

`sub_entries`, `val_entries` and `hit` of `vfs-shim/src/regquery.rs` and `has_subkeys` of
`regwrite.rs`: four traversals of the real key's lists and the overlay's node, each written for
its own call. All of them answer what `merge` answers. The real lists come from enumerations
that stop at `MAX_ENTRIES`, so an index of theirs, `i as u32`, is kept as a natural number.
-/

namespace AetherVfs.Registry

open List

structure SubEntry where
  name : Str
  real : Option ℕ
  touched : Bool
deriving DecidableEq

inductive ValEntry where
  | overlay (v : Value)
  | real (i : ℕ)
deriving DecidableEq

/-- Where a value of the merged view comes from. -/
inductive Hit where
  | overlay (v : Value)
  | hidden
  | real
deriving DecidableEq

variable [ToLowercase]

def childOf (node : Option Node) (s : Str) : Option Child :=
  (node.bind fun n => n.children.lookup (fold s)).map Prod.snd

/-- The loop over the real subkeys, from the index `i` on. -/
def realSubEntries (node : Option Node) : ℕ → List Str → List SubEntry
  | _, [] => []
  | i, s :: rest =>
    let child := childOf node s
    if child = some .tombstone then realSubEntries node (i + 1) rest
    else { name := s, real := some i, touched := child.isSome } ::
      realSubEntries node (i + 1) rest

/-- The loop over the node's children, in the order of their folded names. -/
def ownSubEntries (realNames : List Str) (n : Node) : List SubEntry :=
  (n.children.entries.insertionSort fun a b => a.1 ≤ b.1).filterMap fun r =>
    if r.2.2 = .present ∧ r.1 ∉ realNames then
      some { name := r.2.1, real := none, touched := true }
    else none

def subEntries (real : Option (List Str)) (node : Option Node) : List SubEntry :=
  let created := node.any Node.created
  let r := (real.filter fun _ => !created).getD []
  realSubEntries node 0 r ++ node.elim [] (ownSubEntries (r.map fold))

def valEntries (real : Option (List Str)) (node : Option Node) : List ValEntry :=
  match node with
  | none => (real.getD []).zipIdx.map fun r => .real r.2
  | some n =>
    let own := n.values.map .overlay
    match real.filter fun _ => !n.created with
    | none => own
    | some r =>
      let hidden := n.values.map (fun v => fold v.name) ++ n.valueTombstones
      own ++ (r.zipIdx.filter fun x => fold x.1 ∉ hidden).map fun x => .real x.2

def hit (n : Option Node) (folded : Str) : Hit :=
  match n with
  | none => .real
  | some n =>
    match n.values.find? fun v => fold v.name = folded with
    | some v => .overlay v
    | none => if n.created || n.valueTombstones.contains folded then .hidden else .real

/-- `has_subkeys`; `real` is what `with_real` reads, if there is a real key. -/
def hasSubkeys (real : Option (List Str)) (node : Option Node) (state : Lookup) : Bool :=
  if node.any fun n => n.children.entries.any fun r => r.2.2 = .present then true
  else if state = .present true || node.any Node.created then false
  else (real.getD []).any fun s =>
    !(node.bind fun n => n.children.lookup (fold s)).any fun c => c.2 = .tombstone

/-! ## The merged lists -/

/-- The subkeys of the merged view, none if there is no key. -/
def mergedSubkeys (real : Option KeyView) (node : Option Node) : List Str :=
  (merge real node false).elim [] KeyView.subkeys

/-- The values of the merged view, none if there is no key. -/
def mergedValues (real : Option KeyView) (node : Option Node) : List Value :=
  (merge real node false).elim [] KeyView.values

theorem name_realSubEntries (node : Option Node) (i : ℕ) (names : List Str) :
    (realSubEntries node i names).map SubEntry.name =
      names.filter fun s => decide (childOf node s ≠ some .tombstone) := by
  induction names generalizing i with
  | nil => rfl
  | cons s rest ih =>
    rw [realSubEntries]
    by_cases hdead : childOf node s = some .tombstone
    · simp [hdead, ih]
    · simp [hdead, ih]

omit [ToLowercase] in
theorem name_ownSubEntries (realNames : List Str) (n : Node) :
    (ownSubEntries realNames n).map SubEntry.name = addedSubkeys n realNames := by
  unfold ownSubEntries addedSubkeys
  induction n.children.entries.insertionSort fun a b => a.1 ≤ b.1 with
  | nil => rfl
  | cons r rows ih =>
    by_cases hr : r.2.2 = .present ∧ r.1 ∉ realNames
    · simp [hr, ih]
    · simp [hr, ih]

@[simp] theorem childOf_none (s : Str) : childOf none s = none := rfl

@[simp] theorem childOf_some (n : Node) (s : Str) :
    childOf (some n) s = (n.children.lookup (fold s)).map Prod.snd := rfl

theorem shownSubkeys_eq (n : Node) (r : KeyView) : shownSubkeys n r =
    r.subkeys.filter fun s => decide (childOf (some n) s ≠ some .tombstone) := by
  unfold shownSubkeys
  congr 1
  funext s
  rw [childOf_some]
  rcases n.children.lookup (fold s) with _ | ⟨sp, st⟩
  · rfl
  · cases st <;> rfl

variable {real : Option KeyView} {n : Node}

theorem merge_alone (h : n.created = true ∨ real = none) :
    merge real (some n) false = merge none (some n) false := by
  rcases h with hcr | rfl
  · exact merge_created hcr
  · rfl

omit [ToLowercase] in
theorem filter_alone {α : Type} {real : Option α} (h : n.created = true ∨ real = none) :
    real.filter (fun _ => !(some n).any Node.created) = none := by
  rcases h with hcr | rfl
  · cases real <;> simp [hcr]
  · rfl

omit [ToLowercase] in
theorem alone_or_both (real : Option KeyView) (n : Node) :
    (n.created = true ∨ real = none) ∨ ∃ r, real = some r ∧ n.created = false := by
  by_cases halone : n.created = true ∨ real = none
  · exact Or.inl halone
  · push Not at halone
    obtain ⟨r, rfl⟩ := Option.ne_none_iff_exists'.mp halone.2
    exact Or.inr ⟨r, rfl, by simpa using halone.1⟩

theorem name_subEntries (real : Option KeyView) (node : Option Node) :
    (subEntries (real.map KeyView.subkeys) node).map SubEntry.name = mergedSubkeys real node := by
  unfold mergedSubkeys subEntries
  cases node with
  | none =>
    rw [merge_none_none]
    cases real with
    | none => rfl
    | some r => simp [Option.filter, name_realSubEntries]
  | some n =>
    dsimp only
    rcases alone_or_both real n with halone | ⟨r, rfl, hcr⟩
    · rw [merge_alone halone, filter_alone (halone.imp_right fun h => by rw [h]; rfl),
        merge_none_some]
      simp [realSubEntries, name_ownSubEntries]
    · rw [merge_some_some r hcr]
      simp [Option.filter, hcr, name_realSubEntries, name_ownSubEntries, shownSubkeys_eq]

/-- What an entry stands for, given the real key's values. -/
def ValEntry.resolve (real : List Value) : ValEntry → Option Value
  | .overlay v => some v
  | .real i => real[i]?

omit [ToLowercase] in
theorem resolve_zipIdx (vs : List Value) (keep : Str → Bool) :
    (((vs.map Value.name).zipIdx.filter fun x => keep x.1).map fun x => ValEntry.real x.2).map
        (ValEntry.resolve vs) = (vs.filter fun v => keep v.name).map some := by
  have hat : ∀ x ∈ vs.zipIdx, vs[x.2]? = some x.1 := by
    intro x hx
    exact mem_zipIdx_iff_getElem?.mp hx
  have hvs : vs = vs.zipIdx.map Prod.fst := (zipIdx_map_fst 0 vs).symm
  rw [zipIdx_map, filter_map, map_map, map_map]
  conv_rhs => rw [hvs, filter_map, map_map]
  apply map_congr_left
  intro x hx
  exact hat x (mem_of_mem_filter hx)

theorem resolve_valEntries (real : Option KeyView) (node : Option Node) :
    (valEntries (real.map fun r => r.values.map Value.name) node).map
        (ValEntry.resolve (real.elim [] KeyView.values)) = (mergedValues real node).map some := by
  unfold mergedValues valEntries
  cases node with
  | none =>
    rw [merge_none_none]
    cases real with
    | none => rfl
    | some r => simpa using resolve_zipIdx r.values fun _ => true
  | some n =>
    have hown : (n.values.map ValEntry.overlay).map
        (ValEntry.resolve (real.elim [] KeyView.values)) = n.values.map some := by
      rw [map_map]
      rfl
    dsimp only
    rcases alone_or_both real n with halone | ⟨r, rfl, hcr⟩
    · have hnone := filter_alone (halone.imp_right
        fun h : real = none => (by rw [h]; rfl : real.map (fun r => r.values.map Value.name) = none))
      rw [merge_alone halone, merge_none_some]
      simp only [Option.any_some] at hnone
      rw [hnone]
      exact hown
    · have hshown := resolve_zipIdx r.values fun name =>
        decide (fold name ∉ n.values.map (fun v => fold v.name) ++ n.valueTombstones)
      rw [merge_some_some r hcr]
      simp only [Option.map_some, Option.filter, hcr, Bool.not_false, if_true, Option.elim_some,
        map_append] at hown ⊢
      rw [hown]
      exact congrArg (n.values.map some ++ ·) hshown

/-- The first value of a folded name. -/
def namedValue (vs : List Value) (folded : Str) : Option Value :=
  vs.find? fun v => fold v.name = folded

theorem namedValue_shownValues (n : Node) (r : KeyView) (f : Str) :
    namedValue (shownValues n r) f =
      if f ∈ n.values.map (fun v => fold v.name) ++ n.valueTombstones then none
      else namedValue r.values f := by
  unfold namedValue shownValues
  rw [find?_filter]
  split_ifs with hf
  · rw [find?_eq_none]
    intro v _ hv
    simp only [decide_eq_true_eq] at hv
    exact hv.1 (hv.2 ▸ hf)
  · congr 1
    funext v
    by_cases hv : fold v.name = f
    · simp [hv, hf]
    · simp [hv]

/-- `hit` says where `merge` has the value of a name from, if it has one. -/
def Hit.Agrees (real : Option KeyView) (node : Option Node) (folded : Str) : Hit → Prop
  | .overlay v => namedValue (mergedValues real node) folded = some v
  | .hidden => namedValue (mergedValues real node) folded = none
  | .real => namedValue (mergedValues real node) folded =
      namedValue (real.elim [] KeyView.values) folded

theorem mergedValues_alone (h : n.created = true ∨ real = none) :
    mergedValues real (some n) = n.values := by
  rw [mergedValues, merge_alone h]
  rfl

theorem mergedValues_both (r : KeyView) (h : n.created = false) :
    mergedValues (some r) (some n) = n.values ++ shownValues n r := by
  rw [mergedValues, merge_some_some r h]
  rfl

theorem mergedSubkeys_alone
    (h : n.created = true ∨ real = none) : mergedSubkeys real (some n) = addedSubkeys n [] := by
  rw [mergedSubkeys, merge_alone h]
  rfl

theorem mergedSubkeys_both (r : KeyView) (h : n.created = false) :
    mergedSubkeys (some r) (some n) = shownSubkeys n r ++ addedSubkeys n (r.subkeys.map fold) := by
  rw [mergedSubkeys, merge_some_some r h]
  rfl

theorem hit_agrees (real : Option KeyView) (node : Option Node) (f : Str) :
    (hit node f).Agrees real node f := by
  unfold hit
  cases node with
  | none =>
    have hmerge : mergedValues real none = real.elim [] KeyView.values := by
      rw [mergedValues, merge_none_none]
    simp only [Hit.Agrees, hmerge]
  | some n =>
    dsimp only
    cases hown : n.values.find? fun v => decide (fold v.name = f) with
    | some v =>
      rcases alone_or_both real n with halone | ⟨r, rfl, hcr⟩
      · simp only [Hit.Agrees, mergedValues_alone halone, namedValue, hown]
      · simp only [Hit.Agrees, mergedValues_both r hcr, namedValue, find?_append, hown,
          Option.some_or]
    | none =>
      have hno : f ∉ n.values.map fun v => fold v.name := by
        intro hf
        obtain ⟨v, hv, hvf⟩ := mem_map.mp hf
        exact find?_eq_none.mp hown v hv (by simpa using hvf)
      dsimp only
      split_ifs with hhidden
      · rw [Bool.or_eq_true, contains_iff_mem] at hhidden
        rcases alone_or_both real n with halone | ⟨r, rfl, hcr⟩
        · simp only [Hit.Agrees, mergedValues_alone halone, namedValue, hown]
        · have htomb : f ∈ n.valueTombstones := by simpa [hcr] using hhidden
          have hshown := namedValue_shownValues n r f
          rw [if_pos (mem_append_right _ htomb)] at hshown
          simp only [Hit.Agrees, mergedValues_both r hcr]
          unfold namedValue at hshown ⊢
          rw [find?_append, hown, hshown, Option.or_none]
      · rw [Bool.or_eq_true, contains_iff_mem, not_or] at hhidden
        rcases alone_or_both real n with halone | ⟨r, rfl, hcr⟩
        · obtain rfl : real = none := halone.resolve_left hhidden.1
          simp only [Hit.Agrees, mergedValues_alone halone, namedValue, hown]
          rfl
        · have hshown := namedValue_shownValues n r f
          rw [if_neg (by simp [hno, hhidden.2])] at hshown
          simp only [Hit.Agrees, mergedValues_both r hcr]
          unfold namedValue at hshown ⊢
          rw [find?_append, hown, hshown, Option.none_or]
          rfl

omit [ToLowercase] in
theorem addedSubkeys_ne_nil {known : List Str} : addedSubkeys n known ≠ [] ↔
    ∃ r ∈ n.children.entries, r.2.2 = .present ∧ r.1 ∉ known := by
  simp [addedSubkeys, filter_eq_nil_iff, (perm_insertionSort _ _).mem_iff]

theorem shownSubkeys_ne_nil {r : KeyView} : shownSubkeys n r ≠ [] ↔
    ∃ s ∈ r.subkeys, childOf (some n) s ≠ some .tombstone := by
  rw [shownSubkeys_eq]
  simp only [ne_eq, filter_eq_nil_iff, decide_eq_true_eq, not_forall, not_not, exists_prop]

/-- The node lists a present child. -/
def Node.HasPresent (n : Node) : Prop := ∃ r ∈ n.children.entries, r.2.2 = Child.present

theorem mergedSubkeys_ne_nil :
    mergedSubkeys real (some n) ≠ [] ↔ n.HasPresent ∨
      n.created = false ∧ ∃ s ∈ (real.map KeyView.subkeys).getD [],
        childOf (some n) s ≠ some .tombstone := by
  rcases alone_or_both real n with halone | ⟨r, rfl, hcr⟩
  · have hout : ¬ (n.created = false ∧ ∃ s ∈ (real.map KeyView.subkeys).getD [],
        childOf (some n) s ≠ some .tombstone) := by
      rintro ⟨hcr, s, hs, -⟩
      obtain rfl : real = none := halone.resolve_left (by simp [hcr])
      simp at hs
    rw [mergedSubkeys_alone halone, addedSubkeys_ne_nil, or_iff_left hout]
    simp [Node.HasPresent]
  · rw [mergedSubkeys_both r hcr, ne_eq, append_eq_nil_iff, not_and_or, ← ne_eq, ← ne_eq,
      shownSubkeys_ne_nil, addedSubkeys_ne_nil]
    constructor
    · rintro (hshown | ⟨x, hx, hpresent, -⟩)
      · exact Or.inr ⟨hcr, hshown⟩
      · exact Or.inl ⟨x, hx, hpresent⟩
    · rintro (⟨⟨c, sp, st⟩, hx, hpresent⟩ | ⟨-, hshown⟩)
      · by_cases hc : c ∈ r.subkeys.map fold
        · -- The real subkey of that name is listed in place of the child.
          obtain ⟨s, hs, rfl⟩ := mem_map.mp hc
          refine Or.inl ⟨s, hs, ?_⟩
          have hlookup : n.children.lookup (fold s) = some (sp, st) := AList.mem_lookup_iff.mpr hx
          rw [childOf_some, hlookup]
          simp only at hpresent
          simp [hpresent]
        · exact Or.inr ⟨⟨c, sp, st⟩, hx, hpresent, hc⟩
      · exact Or.inl hshown

theorem created_of_lookup {o : Overlay} {path : Path} (h : (o.lookup path).1 = .present true) :
    (o.node path).any Node.created = true := by
  unfold Overlay.lookup at h
  split_ifs at h
  dsimp only at h
  cases he : o.entries.lookup (foldPath path) with
  | some e =>
    rw [he] at h
    simpa [Overlay.node, he] using h
  | none =>
    rw [he] at h
    dsimp only at h
    split_ifs at h

theorem hasSubkeys_iff (real : Option KeyView) (o : Overlay) (path : Path) :
    hasSubkeys (real.map KeyView.subkeys) (o.node path) (o.lookup path).1 = true ↔
      mergedSubkeys real (o.node path) ≠ [] := by
  have hstate : (o.lookup path).1 = .present true → (o.node path).any Node.created = true :=
    created_of_lookup
  generalize (o.lookup path).1 = state at hstate ⊢
  cases hnode : o.node path with
  | none =>
    rw [hnode] at hstate
    have hmerged : mergedSubkeys real none = (real.map KeyView.subkeys).getD [] := by
      rw [mergedSubkeys, merge_none_none]
      cases real <;> rfl
    have hne : state ≠ .present true := fun h => by simpa using hstate h
    rw [hmerged]
    simp [hasSubkeys, hne, eq_nil_iff_forall_not_mem]
  | some n =>
    rw [hnode, Option.any_some] at hstate
    rw [mergedSubkeys_ne_nil]
    unfold hasSubkeys
    rw [Option.any_some, Option.any_some]
    have hany : (n.children.entries.any fun r => decide (r.2.2 = Child.present)) = true ↔
        n.HasPresent := by
      simp only [any_eq_true, decide_eq_true_eq, Node.HasPresent]
    by_cases hpresent : n.HasPresent
    · rw [if_pos (hany.mpr hpresent)]
      exact ⟨fun _ => Or.inl hpresent, fun _ => rfl⟩
    · rw [if_neg (fun h => hpresent (hany.mp h)), or_iff_right hpresent]
      cases hcr : n.created with
      | true => simp
      | false =>
        have hne : state ≠ .present true := by
          intro h
          simpa [hcr] using hstate h
        have hlive : ∀ s, (!(n.children.lookup (fold s)).any fun c =>
            decide (c.2 = Child.tombstone)) = true ↔ childOf (some n) s ≠ some .tombstone := by
          intro s
          rw [childOf_some]
          rcases n.children.lookup (fold s) with _ | ⟨sp, st⟩
          · simp
          · cases st <;> simp
        rw [if_neg (by simp [hne]), any_eq_true]
        simp only [Option.bind_some, hlive, true_and]

/-- The names of `sub_entries` are the subkeys of `merge` in its order, the entries of
`val_entries` stand for its values in its order, `hit` finds what it has under a name, and
`has_subkeys` holds exactly when it lists a subkey. -/
theorem enumerations_eq_merge (real : Option KeyView) (node : Option Node) :
    (subEntries (real.map KeyView.subkeys) node).map SubEntry.name = mergedSubkeys real node ∧
      (valEntries (real.map fun r => r.values.map Value.name) node).map
        (ValEntry.resolve (real.elim [] KeyView.values)) = (mergedValues real node).map some ∧
      (∀ f, (hit node f).Agrees real node f) ∧
      ∀ (o : Overlay) (path : Path),
        hasSubkeys (real.map KeyView.subkeys) (o.node path) (o.lookup path).1 = true ↔
          mergedSubkeys real (o.node path) ≠ [] :=
  ⟨name_subEntries real node, resolve_valEntries real node, hit_agrees real node,
    hasSubkeys_iff real⟩

end AetherVfs.Registry
