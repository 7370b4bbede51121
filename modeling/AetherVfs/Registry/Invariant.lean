import AetherVfs.Registry.Tree

/-!
# The invariant of the registry overlay

`Inv` ties the three maps of an overlay to one tree of keys and says what holds of each node
and of a node below another one: the spelling of the lower key extends the upper one's, and a
key below a created-here key is created-here. There is one lemma for each way a mutator
changes the maps: a change within a node, a new node, a chain of them, and a deleted subtree.
-/

namespace AetherVfs.Registry

open List AList Table

/-- The folded names of the values. -/
def Node.valueKeys [ToLowercase] (n : Node) : List Str := n.values.map fun x => fold x.name

structure NodeOk [ToLowercase] (n : Node) : Prop where
  values_unique : n.valueKeys.Nodup
  values_disjoint : ∀ t ∈ n.valueTombstones, t ∉ n.valueKeys
  tombstones_unique : n.valueTombstones.Nodup
  tombstones_folded : ∀ t ∈ n.valueTombstones, fold t = t
  children_folded : ∀ c sp st, n.children.lookup c = some (sp, st) → fold sp = c

def Under (upper lower : Entry) : Prop :=
  (∃ name, lower.path = upper.path ++ [name]) ∧
    (upper.node.created = true → lower.node.created = true)

namespace Overlay

/-- What the child list of the node at `k` says of the folded name `c`. -/
def childState (o : Overlay) (k : Path) (c : Str) : Option Child :=
  (o.entries.lookup k).bind fun e => (e.node.children.lookup c).map Prod.snd

variable {o : Overlay} {k j : Path} {e : Entry}

theorem childState_of_lookup (h : o.entries.lookup k = some e) (c : Str) :
    o.childState k c = (e.node.children.lookup c).map Prod.snd := by
  simp [childState, h]

variable [ToLowercase]

structure Inv (o : Overlay) : Prop where
  tree : Tree (fun k => k ∈ o.entries) o.childState (fun k => k ∈ o.tombs)
  spelled : ∀ k e, o.entries.lookup k = some e → foldPath e.path = k
  node : ∀ k e, o.entries.lookup k = some e → NodeOk e.node
  under : ∀ k c pe e, o.entries.lookup k = some pe → o.entries.lookup (k ++ [c]) = some e →
    Under pe e

theorem Inv.tomb_iff (h : Inv o) (he : o.entries.lookup k = some e) {c : Str} :
    k ++ [c] ∈ o.tombs ↔ ∃ sp, e.node.children.lookup c = some (sp, .tombstone) := by
  rw [← h.tree.tombstone_iff, childState_of_lookup he]
  simp

theorem Inv.child_iff (h : Inv o) (he : o.entries.lookup k = some e) {c : Str} :
    k ++ [c] ∈ o.entries ↔ ∃ sp, e.node.children.lookup c = some (sp, .present) := by
  have hpresent := h.tree.present_iff k c
  rw [childState_of_lookup he] at hpresent
  simpa [mem_of_lookup he] using hpresent.symm

theorem nodeOk_empty (created : Bool) (now : UInt64) :
    NodeOk { Node.empty with created, lastWrite := now } := by
  refine ⟨nodup_nil, ?_, nodup_nil, ?_, ?_⟩
  · simp [Node.empty]
  · simp [Node.empty]
  · simp [Node.empty]

theorem inv_new : Inv new := by
  refine ⟨⟨?_, ?_, ?_, ?_, ?_, ?_⟩, ?_, ?_, ?_⟩ <;> simp [new, childState]

omit [ToLowercase] in
theorem mem_modify {key : Path} {f : Entry → Entry} :
    k ∈ (o.modify key f).entries ↔ k ∈ o.entries := by
  rw [← lookup_isSome, ← lookup_isSome]
  simp only [Overlay.modify, lookup_modify]
  split_ifs <;> simp

/-- A change that keeps the tree, and of every entry the path and whether it is created-here. -/
theorem Inv.of_back {o' : Overlay} (h : Inv o)
    (htree : Tree (fun k => k ∈ o'.entries) o'.childState (fun k => k ∈ o'.tombs))
    (hback : ∀ k e', o'.entries.lookup k = some e' → ∃ e, o.entries.lookup k = some e ∧
      e'.path = e.path ∧ e'.node.created = e.node.created ∧ (NodeOk e.node → NodeOk e'.node)) :
    Inv o' := by
  refine ⟨htree, ?_, ?_, ?_⟩
  · intro k e' hk
    obtain ⟨e, he, hpath, -⟩ := hback k e' hk
    rw [hpath]
    exact h.spelled k e he
  · intro k e' hk
    obtain ⟨e, he, -, -, hok⟩ := hback k e' hk
    exact hok (h.node k e he)
  · intro k c upper lower hupper hlower
    obtain ⟨pe, hpe, hppath, hpcreated, -⟩ := hback k upper hupper
    obtain ⟨e, he, hpath, hcreated, -⟩ := hback _ lower hlower
    rw [Under, hppath, hpcreated, hpath, hcreated]
    exact h.under k c pe e hpe he

theorem Inv.modify (h : Inv o) (key : Path) {f : Entry → Entry} (hpath : ∀ e, (f e).path = e.path)
    (hchildren : ∀ e, (f e).node.children = e.node.children)
    (hcreated : ∀ e, (f e).node.created = e.node.created)
    (hnode : ∀ e, NodeOk e.node → NodeOk (f e).node) : Inv (o.modify key f) := by
  have hchild : (o.modify key f).childState = o.childState := by
    funext k c
    simp only [childState, Overlay.modify, lookup_modify]
    split_ifs
    · cases o.entries.lookup k <;> simp [hchildren]
    · rfl
  refine h.of_back ?_ fun k e' hk => ?_
  · simp only [mem_modify, hchild]
    exact h.tree
  · simp only [Overlay.modify, lookup_modify] at hk
    split_ifs at hk
    · obtain ⟨e, he, rfl⟩ := Option.map_eq_some_iff.mp hk
      exact ⟨e, he, hpath e, hcreated e, hnode e⟩
    · exact ⟨e', hk, rfl, rfl, id⟩

theorem Inv.touchAncestors (h : Inv o) (path : Path) (v : ℕ) : Inv (o.touchAncestors path v) := by
  unfold Overlay.touchAncestors
  generalize ancestors path = ps
  induction ps generalizing o with
  | nil => exact h
  | cons p ps ih =>
    exact ih (h.modify _ (fun _ => rfl) (fun _ => rfl) (fun _ => rfl) fun _ hok => hok)

theorem Inv.mark (h : Inv o) (path : Path) (v : ℕ) : Inv (o.mark path v) := by
  have hown : Inv (o.modify (foldPath path) fun e => { e with changed := v }) :=
    h.modify _ (fun _ => rfl) (fun _ => rfl) (fun _ => rfl) fun _ hok => hok
  exact hown.touchAncestors path v

theorem foldPath_append (p q : Path) : foldPath (p ++ q) = foldPath p ++ foldPath q := by
  simp [foldPath]

theorem foldPath_drop (p : Path) (n : ℕ) : foldPath (p.drop n) = (foldPath p).drop n :=
  map_drop

theorem nodeOk_setChild (h : NodeOk e.node) (name : Str) (state : Child) (v : ℕ) (now : UInt64) :
    NodeOk (setChild name state v now e).node := by
  refine ⟨h.values_unique, h.values_disjoint, h.tombstones_unique, h.tombstones_folded, ?_⟩
  intro c sp st hc
  simp only [setChild, lookup_insert_eq_ite] at hc
  split_ifs at hc with hcn
  · cases hc
    exact hcn.symm
  · exact h.children_folded c sp st hc

section AddNode

variable {o : Overlay} {stored : Path} {comp : Str} {plain : Bool} {v : ℕ} {now : UInt64}

theorem nodeOk_freshEntry (parentKey : Option Path) :
    NodeOk (o.freshEntry parentKey stored comp plain v now).node := nodeOk_empty _ _

theorem lookup_addNode_none (j : Path) :
    (o.addNode none stored comp plain v now).entries.lookup j =
      if j = foldPath stored then some (o.freshEntry none stored comp plain v now)
      else o.entries.lookup j := by
  simp only [addNode, lookup_insert_eq_ite]

@[simp] theorem tombs_addNode (parentKey : Option Path) :
    (o.addNode parentKey stored comp plain v now).tombs = o.tombs.erase (foldPath stored) := by
  cases parentKey <;> rfl

/-- Where there was no root, the new one is all there is. -/
theorem Inv.lookup_addNode_root (h : Inv o) (hstored : foldPath stored = root)
    (hnone : root ∉ o.entries) :
    (o.addNode none stored comp plain v now).entries.lookup j = some e ↔
      j = root ∧ e = o.freshEntry none stored comp plain v now := by
  rw [lookup_addNode_none, hstored, lookup_eq_none.mpr (h.tree.not_has_of_not_root hnone j)]
  grind

theorem Inv.addNode_root (h : Inv o) (hstored : foldPath stored = root)
    (hnone : root ∉ o.entries) : Inv (o.addNode none stored comp plain v now) := by
  have hchild : (o.addNode none stored comp plain v now).childState = o.childState := by
    funext j c
    have hempty := lookup_eq_none.mpr (h.tree.not_has_of_not_root hnone j)
    simp only [childState, lookup_addNode_none, hempty, Option.bind_none]
    split_ifs <;> rfl
  refine ⟨?_, ?_, ?_, ?_⟩
  · rw [hchild]
    simp only [addNode, hstored, mem_insert, mem_erase]
    exact h.tree.plant hnone
  · intro j e' hj
    obtain ⟨rfl, rfl⟩ := (h.lookup_addNode_root hstored hnone).mp hj
    exact hstored
  · intro j e' hj
    obtain ⟨rfl, rfl⟩ := (h.lookup_addNode_root hstored hnone).mp hj
    exact nodeOk_freshEntry none
  · intro j c pe e' hpe hj
    obtain ⟨rfl, -⟩ := (h.lookup_addNode_root hstored hnone).mp hpe
    have hshort := ((h.lookup_addNode_root hstored hnone).mp hj).1
    simp [root] at hshort

section Below

variable {pe : Entry} (hpe : o.entries.lookup (foldPath pe.path) = some pe)

include hpe

theorem lookup_addNode_below (j : Path) :
    (o.addNode (some (foldPath pe.path)) (pe.path ++ [comp]) comp plain v now).entries.lookup j =
      if j = foldPath pe.path then some (setChild comp .present v now pe)
      else if j = foldPath pe.path ++ [fold comp] then
        some (o.freshEntry (some (foldPath pe.path)) (pe.path ++ [comp]) comp plain v now)
      else o.entries.lookup j := by
  have hkey : foldPath (pe.path ++ [comp]) = foldPath pe.path ++ [fold comp] := foldPath_append _ _
  have hne : foldPath pe.path ≠ foldPath pe.path ++ [fold comp] := by simp
  simp only [addNode, Overlay.modify, lookup_modify, hkey]
  by_cases hj : j = foldPath pe.path
  · subst hj
    rw [if_pos rfl, if_pos rfl, lookup_insert_ne hne, hpe]
    rfl
  · rw [if_neg hj, if_neg hj, lookup_insert_eq_ite]

theorem lookup_addNode_cases
    (hj : (o.addNode (some (foldPath pe.path)) (pe.path ++ [comp]) comp plain v now).entries.lookup
      j = some e) :
    j = foldPath pe.path ∧ e = setChild comp .present v now pe ∨
      j = foldPath pe.path ++ [fold comp] ∧
        e = o.freshEntry (some (foldPath pe.path)) (pe.path ++ [comp]) comp plain v now ∨
      j ≠ foldPath pe.path ∧ j ≠ foldPath pe.path ++ [fold comp] ∧ o.entries.lookup j = some e := by
  rw [lookup_addNode_below hpe] at hj
  grind

theorem mem_addNode_below :
    j ∈ (o.addNode (some (foldPath pe.path)) (pe.path ++ [comp]) comp plain v now).entries ↔
      j = foldPath pe.path ++ [fold comp] ∨ j ∈ o.entries := by
  have hin := mem_of_lookup hpe
  rw [← lookup_isSome, lookup_addNode_below hpe, ← lookup_isSome]
  grind

end Below

theorem Inv.addNode_below (h : Inv o) {pe : Entry}
    (hpe : o.entries.lookup (foldPath pe.path) = some pe)
    (hnone : foldPath (pe.path ++ [comp]) ∉ o.entries) :
    Inv (o.addNode (some (foldPath pe.path)) (pe.path ++ [comp]) comp plain v now) := by
  have hkey : foldPath (pe.path ++ [comp]) = foldPath pe.path ++ [fold comp] := foldPath_append _ _
  rw [hkey] at hnone
  have hnokey := lookup_eq_none.mpr hnone
  have hchild : (o.addNode (some (foldPath pe.path)) (pe.path ++ [comp]) comp plain v
      now).childState = fun j d =>
        if j = foldPath pe.path ∧ d = fold comp then some .present else o.childState j d := by
    funext j d
    simp only [childState, lookup_addNode_below hpe]
    by_cases hj : j = foldPath pe.path
    · subst hj
      simp only [if_true, Option.bind_some, setChild, lookup_insert_eq_ite, hpe, true_and]
      split_ifs <;> rfl
    · by_cases hj' : j = foldPath pe.path ++ [fold comp]
      · subst hj'
        simp [freshEntry, Node.empty, hnokey]
      · simp [hj, hj']
  refine ⟨?_, ?_, ?_, ?_⟩
  · rw [hchild]
    simp only [mem_addNode_below hpe, tombs_addNode, hkey, mem_erase]
    exact h.tree.link (mem_of_lookup hpe) hnone
  · intro j e' hj
    rcases lookup_addNode_cases hpe hj with ⟨rfl, rfl⟩ | ⟨rfl, rfl⟩ | ⟨-, -, hj⟩
    · rfl
    · exact hkey
    · exact h.spelled j e' hj
  · intro j e' hj
    rcases lookup_addNode_cases hpe hj with ⟨rfl, rfl⟩ | ⟨rfl, rfl⟩ | ⟨-, -, hj⟩
    · exact nodeOk_setChild (h.node _ _ hpe) _ _ _ _
    · exact nodeOk_freshEntry _
    · exact h.node j e' hj
  · intro j d upper lower hupper hlower
    -- Nothing lies below the new node, and its parent only gained a child.
    have hnew : j ≠ foldPath pe.path ++ [fold comp] := by
      rintro rfl
      rcases (mem_addNode_below hpe).mp (mem_of_lookup hlower) with heq | hin
      · simp at heq
      · exact hnone (h.tree.has_above hin
          ((h.tree.top _ (mem_of_lookup hpe)).trans (prefix_append _ _))
          (prefix_append _ _))
    obtain ⟨pe', hpe', hpath, hcreated⟩ : ∃ pe', o.entries.lookup j = some pe' ∧
        pe'.path = upper.path ∧ pe'.node.created = upper.node.created := by
      rcases lookup_addNode_cases hpe hupper with ⟨rfl, rfl⟩ | ⟨rfl, -⟩ | ⟨-, -, hold⟩
      · exact ⟨pe, hpe, rfl, rfl⟩
      · exact absurd rfl hnew
      · exact ⟨upper, hold, rfl, rfl⟩
    rw [Under, ← hpath, ← hcreated]
    rcases lookup_addNode_cases hpe hlower with ⟨hj, rfl⟩ | ⟨hj, rfl⟩ | ⟨-, -, hold⟩
    · exact h.under j d pe' pe hpe' (hj ▸ hpe)
    · obtain ⟨rfl, -⟩ := concat_eq_concat.mp hj
      rw [hpe] at hpe'
      cases hpe'
      exact ⟨⟨comp, rfl⟩, fun hcr => by simp [freshEntry, hpe, hcr]⟩
    · exact h.under j d pe' lower hpe' hold

theorem lookup_addNode_key (parentKey : Option Path) (hpk : parentKey ≠ some (foldPath stored)) :
    (o.addNode parentKey stored comp plain v now).entries.lookup (foldPath stored) =
      some (o.freshEntry parentKey stored comp plain v now) := by
  unfold addNode
  cases parentKey with
  | none => simp
  | some pk =>
    have hne : foldPath stored ≠ pk := fun heq => hpk (heq ▸ rfl)
    simp [Overlay.modify, lookup_modify, hne]

end AddNode

theorem validPath_iff {p : Path} : validPath p = true ↔
    ∃ r rest, p = [] :: r :: rest ∧ fold r = registry ∧ ∀ c ∈ rest, c ≠ [] := by
  cases p with
  | nil => simp [validPath]
  | cons lead p =>
    cases p with
    | nil => simp [validPath]
    | cons r rest =>
      simp only [validPath, Bool.and_eq_true, decide_eq_true_eq, all_eq_true,
        cons.injEq]
      constructor
      · rintro ⟨⟨rfl, hr⟩, hrest⟩
        exact ⟨r, rest, ⟨rfl, rfl, rfl⟩, hr, hrest⟩
      · rintro ⟨r', rest', ⟨rfl, rfl, rfl⟩, hr, hrest⟩
        exact ⟨⟨rfl, hr⟩, hrest⟩

/-- Where the loop of `ensure_chain` stands: before the root, or at a key that has a node. -/
inductive ChainAt (o : Overlay) : Path → Option Path → List Str → Prop where
  | start (r : Str) (rest : List Str) (hr : fold r = registry) : ChainAt o [[]] none (r :: rest)
  | at (e : Entry) (comps : List Str) (he : o.entries.lookup (foldPath e.path) = some e) :
      ChainAt o e.path (some (foldPath e.path)) comps

section Chain

variable {o : Overlay} {P : Overlay → Prop} {real : Bool} {v : ℕ} {now : UInt64}

/-- What holds before the chain and survives a new root and a new key below one that is there
holds after it. A new key lies on the way to the path, and is a plain presence unless it is the
path itself and the caller says otherwise. -/
theorem Inv.ensureChainLoop_induct {target : Path} (h : Inv o) (hP : P o)
    (hroot : ∀ o r plain, Inv o → P o → fold r = registry → root ∉ o.entries →
      root <+: target → (plain = false ↔ root = target ∧ real = false) →
      P (o.addNode none [[], r] r plain v now))
    (hbelow : ∀ o pe comp plain, Inv o → P o → o.entries.lookup (foldPath pe.path) = some pe →
      foldPath (pe.path ++ [comp]) ∉ o.entries → foldPath (pe.path ++ [comp]) <+: target →
      (plain = false ↔ foldPath (pe.path ++ [comp]) = target ∧ real = false) →
      P (o.addNode (some (foldPath pe.path)) (pe.path ++ [comp]) comp plain v now))
    {stored : Path} {parentKey : Option Path} {comps : List Str}
    (hat : ChainAt o stored parentKey comps) (htarget : foldPath (stored ++ comps) = target) :
    Inv (ensureChainLoop real v now o stored parentKey comps) ∧
      target ∈ (ensureChainLoop real v now o stored parentKey comps).entries ∧
      P (ensureChainLoop real v now o stored parentKey comps) := by
  induction comps generalizing o stored parentKey with
  | nil =>
    cases hat with
    | «at» e _ he =>
      rw [append_nil] at htarget
      exact ⟨h, htarget ▸ mem_of_lookup he, hP⟩
  | cons comp rest ih =>
    have hassoc : stored ++ comp :: rest = stored ++ [comp] ++ rest := by simp
    rw [hassoc] at htarget
    rw [ensureChainLoop]
    cases hl : o.entries.lookup (foldPath (stored ++ [comp])) with
    | some e =>
      have hkey : foldPath e.path = foldPath (stored ++ [comp]) := h.spelled _ _ hl
      have hgoal : foldPath (e.path ++ rest) = target := by
        rw [← htarget, foldPath_append, hkey, ← foldPath_append]
      have hnext := ih h hP (ChainAt.at e rest (hkey ▸ hl)) hgoal
      rwa [hkey] at hnext
    | none =>
      have hnone : foldPath (stored ++ [comp]) ∉ o.entries := lookup_eq_none.mp hl
      have hway : foldPath (stored ++ [comp]) <+: target := by
        rw [← htarget, foldPath_append _ rest]
        exact prefix_append _ _
      have hlast : foldPath (stored ++ [comp]) = target ↔ rest.isEmpty = true := by
        rw [← htarget, foldPath_append _ rest, self_eq_append_right]
        simp [foldPath]
      have hplain : (!(rest.isEmpty && !real)) = false ↔
          foldPath (stored ++ [comp]) = target ∧ real = false := by
        rw [hlast]
        cases rest.isEmpty <;> cases real <;> simp
      -- The new node is where the rest of the chain goes on from.
      suffices hadd : Inv (o.addNode parentKey (stored ++ [comp]) comp
          (!(rest.isEmpty && !real)) v now) ∧ P (o.addNode parentKey (stored ++ [comp]) comp
          (!(rest.isEmpty && !real)) v now) ∧ parentKey ≠ some (foldPath (stored ++ [comp])) by
        let fresh := o.freshEntry parentKey (stored ++ [comp]) comp
          (!(rest.isEmpty && !real)) v now
        exact ih hadd.1 hadd.2.1
          (ChainAt.at fresh rest (lookup_addNode_key parentKey hadd.2.2)) htarget
      cases hat with
      | start r _ hr =>
        have hroot' : foldPath ([[]] ++ [comp]) = root := by simp [foldPath, hr, root]
        rw [hroot'] at hway hplain hnone
        exact ⟨h.addNode_root hroot' hnone, hroot o comp _ h hP hr hnone hway hplain,
          by simp⟩
      | «at» pe _ hpe =>
        exact ⟨h.addNode_below hpe hnone, hbelow o pe comp _ h hP hpe hnone hway hplain,
          by simp [foldPath]⟩

variable {path : Path} (h : Inv o) (hpath : validPath path = true)

include h hpath

theorem Inv.ensureChain_induct (hP : P o)
    (hroot : ∀ o r plain, Inv o → P o → fold r = registry → root ∉ o.entries →
      root <+: foldPath path → (plain = false ↔ root = foldPath path ∧ real = false) →
      P (o.addNode none [[], r] r plain v now))
    (hbelow : ∀ o pe comp plain, Inv o → P o → o.entries.lookup (foldPath pe.path) = some pe →
      foldPath (pe.path ++ [comp]) ∉ o.entries → foldPath (pe.path ++ [comp]) <+: foldPath path →
      (plain = false ↔ foldPath (pe.path ++ [comp]) = foldPath path ∧ real = false) →
      P (o.addNode (some (foldPath pe.path)) (pe.path ++ [comp]) comp plain v now)) :
    P (o.ensureChain path real v now) := by
  obtain ⟨r, rest, rfl, hr, -⟩ := validPath_iff.mp hpath
  exact (h.ensureChainLoop_induct hP hroot hbelow (ChainAt.start r rest hr) rfl).2.2

theorem Inv.ensureChain (real : Bool) (v : ℕ) (now : UInt64) :
    Inv (o.ensureChain path real v now) ∧
      foldPath path ∈ (o.ensureChain path real v now).entries := by
  obtain ⟨r, rest, rfl, hr, -⟩ := validPath_iff.mp hpath
  exact (h.ensureChainLoop_induct (P := fun _ => True) trivial (by simp) (by simp)
    (ChainAt.start r rest hr) rfl).imp_right And.left

end Chain

section RemoveSubtree

omit [ToLowercase] in
theorem lookup_removeSubtree (o : Overlay) (f j : Path) :
    (o.removeSubtree f).entries.lookup j = if f <+: j then none else o.entries.lookup j := by
  simp only [removeSubtree, lookup_eraseAll, subtreeKeys, mem_filter,
    isPrefixOf_iff_prefix]
  by_cases hf : f <+: j
  · by_cases hj : j ∈ o.entries.keys
    · simp [hf, hj]
    · have hnone : o.entries.lookup j = none := lookup_eq_none.mpr hj
      simp [hf, hnone]
  · simp [hf]

omit [ToLowercase] in
theorem mem_tombs_removeSubtree (o : Overlay) (f j : Path) :
    j ∈ (o.removeSubtree f).tombs ↔ j ∈ o.tombs ∧ ¬ f <+: j := by
  rw [← lookup_isSome, ← lookup_isSome]
  simp only [removeSubtree, lookup_eraseAll, mem_filter, isPrefixOf_iff_prefix]
  by_cases hf : f <+: j
  · by_cases hj : j ∈ o.tombs.keys
    · simp [hf, hj]
    · have hnone : o.tombs.lookup j = none := lookup_eq_none.mpr hj
      simp [hf, hnone]
  · simp [hf]

omit [ToLowercase] in
@[simp] theorem entries_tomb (o : Overlay) (f : Path) (v : ℕ) : (o.tomb f v).entries = o.entries := by
  unfold tomb
  dsimp only
  split_ifs <;> rfl

omit [ToLowercase] in
@[simp] theorem tombs_tomb (o : Overlay) (f : Path) (v : ℕ) :
    (o.tomb f v).tombs = o.tombs.insert f v := by
  unfold tomb
  dsimp only
  split_ifs <;> rfl

end RemoveSubtree

/-- The maps after `delete_key` of `name` below the key `pp`, from before `touch_ancestors`. -/
def cutBelow (o : Overlay) (p : Path) (name : Str) (v : ℕ) (now : UInt64) : Overlay :=
  ((o.removeSubtree (p ++ [fold name])).tomb (p ++ [fold name]) v).modify p
    (setChild name .tombstone v now)

section Cut

variable (o : Overlay) (p : Path) (name : Str) (v : ℕ) (now : UInt64)

theorem lookup_cutBelow (j : Path) : (o.cutBelow p name v now).entries.lookup j =
    if p ++ [fold name] <+: j then none
    else if j = p then (o.entries.lookup j).map (setChild name .tombstone v now)
    else o.entries.lookup j := by
  have hself : ¬ p ++ [fold name] <+: p := not_append_prefix_self
  simp only [cutBelow, Overlay.modify, lookup_modify, entries_tomb, lookup_removeSubtree]
  by_cases hj : j = p
  · subst hj
    simp [hself]
  · simp [hj]

theorem mem_cutBelow (j : Path) :
    j ∈ (o.cutBelow p name v now).entries ↔ j ∈ o.entries ∧ ¬ p ++ [fold name] <+: j := by
  rw [← lookup_isSome, ← lookup_isSome, lookup_cutBelow]
  split_ifs <;> simp_all

theorem mem_tombs_cutBelow (j : Path) : j ∈ (o.cutBelow p name v now).tombs ↔
    (j ∈ o.tombs ∧ ¬ p ++ [fold name] <+: j) ∨ j = p ++ [fold name] := by
  simp only [cutBelow, Overlay.modify, tombs_tomb, mem_insert, mem_tombs_removeSubtree]
  exact or_comm

variable {o p name v now}

/-- An entry that is still there, and whose parent at most lists the child as deleted. -/
theorem of_lookup_cutBelow {e' : Entry}
    (hj : (o.cutBelow p name v now).entries.lookup j = some e') : ∃ e,
      o.entries.lookup j = some e ∧ (e' = e ∨ e' = setChild name .tombstone v now e) := by
  rw [lookup_cutBelow] at hj
  split_ifs at hj
  · obtain ⟨e, he, rfl⟩ := Option.map_eq_some_iff.mp hj
    exact ⟨e, he, Or.inr rfl⟩
  · exact ⟨e', hj, Or.inl rfl⟩

/-- `delete_key`'s change of the maps: cut the subtree at a child's key and list the child as
deleted. -/
theorem Inv.cut (h : Inv o) (hp : p ∈ o.entries) : Inv (o.cutBelow p name v now) := by
  have hchild : (o.cutBelow p name v now).childState = fun j d =>
      if p ++ [fold name] <+: j then none
      else if j = p ∧ d = fold name then some .tombstone else o.childState j d := by
    funext j d
    simp only [childState, lookup_cutBelow]
    by_cases h1 : p ++ [fold name] <+: j
    · simp [h1]
    by_cases h2 : j = p
    · subst h2
      obtain ⟨e, he⟩ := exists_lookup hp
      simp only [h1, if_false, if_true, he, Option.map_some, Option.bind_some, true_and, setChild,
        lookup_insert_eq_ite]
      split_ifs <;> rfl
    · simp [h1, h2]
  refine h.of_back ?_ fun j e' hj => ?_
  · simp only [mem_cutBelow, mem_tombs_cutBelow, hchild]
    exact h.tree.cut hp
  · obtain ⟨e, he, rfl | rfl⟩ := of_lookup_cutBelow hj
    · exact ⟨_, he, rfl, rfl, id⟩
    · exact ⟨e, he, rfl, rfl, fun hok => nodeOk_setChild hok _ _ _ _⟩

end Cut

end Overlay

end AetherVfs.Registry
