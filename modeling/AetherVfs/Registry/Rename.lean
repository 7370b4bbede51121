import AetherVfs.Registry.Invariant

/-!
# Moving a subtree of the registry overlay

`rename_key` takes the entries and the tombstones below the old name out of the flat maps and
writes them back under the new one. The lemmas say what the maps hold afterwards, key by key.
-/

namespace AetherVfs.Registry

open List Table

namespace Overlay

variable [ToLowercase]

section Rename

variable {o : Overlay} {p : Path} {old : Entry} {a b : Str} {newPath : Path} {v : ℕ}

/-- An entry on its way from under `old` to under `newPath`. -/
def movedEntry (old : Entry) (newPath : Path) (v : ℕ) (e : Entry) : Entry :=
  { e with
    path := newPath ++ e.path.drop old.path.length
    node := { e.node with created := true }
    changed := v
    subtree := v }

theorem Inv.lookup_between (h : Inv o) {k s : Path} {c : Str} {upper lower : Entry}
    (hupper : o.entries.lookup k = some upper)
    (hlower : o.entries.lookup (k ++ s ++ [c]) = some lower) :
    ∃ mid, o.entries.lookup (k ++ s) = some mid := by
  have htop := (h.tree.top k (mem_of_lookup hupper)).trans (prefix_append k s)
  exact exists_lookup
    (h.tree.has_above (mem_of_lookup hlower) htop (prefix_append _ _))

theorem Inv.path_above (h : Inv o) {k s : Path} {upper lower : Entry}
    (hupper : o.entries.lookup k = some upper) (hlower : o.entries.lookup (k ++ s) = some lower) :
    upper.path <+: lower.path := by
  induction s using reverseRecOn generalizing lower with
  | nil =>
    rw [append_nil, hupper] at hlower
    cases hlower
    exact prefix_rfl
  | append_singleton s c ih =>
    rw [← append_assoc] at hlower
    obtain ⟨mid, hmid⟩ := h.lookup_between hupper hlower
    obtain ⟨⟨name, hname⟩, -⟩ := h.under _ c mid lower hmid hlower
    rw [hname]
    exact (ih hmid).trans (prefix_append _ _)

theorem Inv.moved_key (h : Inv o) (hold : o.entries.lookup (p ++ [a]) = some old) {k : Path}
    {e : Entry} (hk : o.entries.lookup k = some e) (hin : p ++ [a] <+: k) :
    p ++ [b] ++ (foldPath (old.path ++ e.path.drop old.path.length)).drop (p ++ [a]).length =
      p ++ [b] ++ k.drop (p ++ [a]).length := by
  obtain ⟨s, rfl⟩ := hin
  obtain ⟨t, ht⟩ := h.path_above hold hk
  rw [← ht, drop_left, ht, h.spelled _ _ hk]

omit [ToLowercase] in
theorem entries_foldl_tomb {ι : Type*} (rows : List ι) (key : ι → Path) (o : Overlay) (v : ℕ) :
    (rows.foldl (fun o r => o.tomb (key r) v) o).entries = o.entries := by
  induction rows generalizing o with
  | nil => rfl
  | cons r rows ih => rw [foldl_cons, ih, entries_tomb]

omit [ToLowercase] in
theorem mem_tombs_foldl_tomb {ι : Type*} (rows : List ι) (key : ι → Path) (o : Overlay) (v : ℕ)
    (j : Path) : j ∈ (rows.foldl (fun o r => o.tomb (key r) v) o).tombs ↔
      j ∈ o.tombs ∨ ∃ r ∈ rows, key r = j := by
  induction rows generalizing o with
  | nil => simp
  | cons r rows ih =>
    rw [foldl_cons, ih, tombs_tomb, AList.mem_insert]
    grind

theorem Inv.not_mem_below_free (h : Inv o) (hp : p ∈ o.entries) (hfree : p ++ [b] ∉ o.entries)
    {j : Path} (hj : p ++ [b] <+: j) : j ∉ o.entries := by
  intro hin
  have htop := (h.tree.top p hp).trans (prefix_append p [b])
  exact hfree (h.tree.has_above hin htop hj)

theorem Inv.tomb_below_free (h : Inv o) (hp : p ∈ o.entries) (hfree : p ++ [b] ∉ o.entries)
    {j : Path} (hj : p ++ [b] <+: j) (ht : j ∈ o.tombs) : j = p ++ [b] := by
  induction j using reverseRecOn with
  | nil => exact absurd ht h.tree.tomb_nil
  | append_singleton j c _ =>
    rcases prefix_concat_iff.mp hj with heq | hj
    · exact heq.symm
    · exact absurd (h.tree.has_of_tomb ht) (h.not_mem_below_free hp hfree hj)

/-- The key `p ++ [a]` has the entry `old` and can take the name `b`. -/
structure Renames (o : Overlay) (p : Path) (old : Entry) (a b : Str) : Prop where
  inv : Inv o
  parent : p ∈ o.entries
  old : o.entries.lookup (p ++ [a]) = some old
  free : b = a ∨ p ++ [b] ∉ o.entries

theorem Renames.lookup_moveSubtree (h : Renames o p old a b) (newPath : Path) (v : ℕ) (j : Path) :
    (o.moveSubtree (p ++ [a]) old.path (p ++ [b]) newPath v).entries.lookup j =
      if p ++ [b] <+: j then
        (o.entries.lookup (Tree.source p a b j)).map (movedEntry old newPath v)
      else if p ++ [a] <+: j then none else o.entries.lookup j := by
  set moved := rowsWhere o.entries fun k => (p ++ [a]).isPrefixOf k with hmoved
  set base := ({ o with
    entries := eraseAll o.entries (moved.map Prod.fst) } : Overlay).removeSubtree (p ++ [a])
    with hbase
  -- The rows written back, with their keys simplified.
  set rows := moved.map fun r => (p ++ [b] ++ r.1.drop (p ++ [a]).length,
    movedEntry old newPath v r.2) with hrows
  have hmem : ∀ k e, (k, e) ∈ moved ↔ o.entries.lookup k = some e ∧ p ++ [a] <+: k := by
    intro k e
    rw [hmoved, mem_rowsWhere, isPrefixOf_iff_prefix]
  have hresult : (o.moveSubtree (p ++ [a]) old.path (p ++ [b]) newPath v).entries =
      insertAll base.entries rows := by
    simp only [moveSubtree, entries_foldl_tomb]
    congr 1
    refine map_congr_left fun r hr => ?_
    obtain ⟨hlk, hpre⟩ := (hmem r.1 r.2).mp hr
    exact Prod.ext (h.inv.moved_key h.old hlk hpre) rfl
  have hbaseLookup : ∀ k, base.entries.lookup k =
      if p ++ [a] <+: k then none else o.entries.lookup k := by
    intro k
    rw [hbase, lookup_removeSubtree]
    by_cases hk : p ++ [a] <+: k
    · rw [if_pos hk, if_pos hk]
    · rw [if_neg hk, if_neg hk, lookup_eraseAll, if_neg]
      intro hin
      obtain ⟨⟨k', e⟩, hr, rfl⟩ := mem_map.mp hin
      exact hk ((hmem _ _).mp hr).2
  have hkeys : ∀ r ∈ rows, ∃ s e, o.entries.lookup (p ++ [a] ++ s) = some e ∧
      r = (p ++ [b] ++ s, movedEntry old newPath v e) := by
    intro r hr
    obtain ⟨⟨k, e⟩, hin, rfl⟩ := mem_map.mp hr
    obtain ⟨hlk, s, rfl⟩ := (hmem _ _).mp hin
    refine ⟨s, e, hlk, ?_⟩
    rw [drop_left]
  have hnodup : (rows.map Prod.fst).Nodup := by
    rw [hrows, map_map]
    refine (nodup_rowsWhere o.entries _).of_map _ |>.map_on ?_
    rintro ⟨k, e⟩ hk ⟨k', e'⟩ hk' heq
    obtain ⟨hlk, s, rfl⟩ := (hmem _ _).mp hk
    obtain ⟨hlk', s', rfl⟩ := (hmem _ _).mp hk'
    simp only [Function.comp, drop_left, append_cancel_left_eq] at heq
    subst heq
    rw [hlk] at hlk'
    cases hlk'
    rfl
  rw [hresult]
  by_cases hin : p ++ [b] <+: j
  · obtain ⟨s, rfl⟩ := hin
    rw [if_pos (prefix_append _ _), Tree.source_append]
    cases hlk : o.entries.lookup (p ++ [a] ++ s) with
    | some e =>
      refine lookup_insertAll_of_mem _ hnodup ?_
      refine mem_map.mpr ⟨(p ++ [a] ++ s, e), (hmem _ _).mpr ⟨hlk, prefix_append _ _⟩, ?_⟩
      rw [drop_left]
    | none =>
      rw [lookup_insertAll_of_notMem, hbaseLookup]
      · rcases h.free with rfl | hfree
        · rw [if_pos (prefix_append _ _)]
          rfl
        · split_ifs
          · rfl
          · exact AList.lookup_eq_none.mpr
              (h.inv.not_mem_below_free h.parent hfree (prefix_append _ _))
      · intro r hr heq
        obtain ⟨s', e, hlk', rfl⟩ := hkeys r hr
        rw [append_cancel_left heq, hlk] at hlk'
        cases hlk'
  · rw [if_neg hin, lookup_insertAll_of_notMem, hbaseLookup]
    intro r hr heq
    obtain ⟨s, e, -, rfl⟩ := hkeys r hr
    exact hin (heq ▸ prefix_append _ _)

theorem Renames.mem_tombs_moveSubtree (h : Renames o p old a b) (newPath : Path) (v : ℕ)
    (j : Path) : j ∈ (o.moveSubtree (p ++ [a]) old.path (p ++ [b]) newPath v).tombs ↔
      if p ++ [b] <+: j then Tree.source p a b j ∈ o.tombs
      else j ∈ o.tombs ∧ ¬ p ++ [a] <+: j := by
  have hnotold : p ++ [a] ∉ o.tombs := fun ht =>
    h.inv.tree.not_has_of_tomb ht (mem_of_lookup h.old)
  have hbelow : (∃ r ∈ rowsWhere o.tombs fun k => isBelow (p ++ [a]) k,
      p ++ [b] ++ r.1.drop (p ++ [a]).length = j) ↔
      ∃ s, s ≠ [] ∧ p ++ [a] ++ s ∈ o.tombs ∧ p ++ [b] ++ s = j := by
    constructor
    · rintro ⟨⟨k, t⟩, hr, rfl⟩
      obtain ⟨hlk, hbel⟩ := mem_rowsWhere.mp hr
      simp only [isBelow, Bool.and_eq_true, isPrefixOf_iff_prefix, decide_eq_true_eq] at hbel
      obtain ⟨⟨s, rfl⟩, hlt⟩ := hbel
      refine ⟨s, ?_, mem_of_lookup hlk, by rw [drop_left]⟩
      rintro rfl
      simp at hlt
    · rintro ⟨s, hs, ht, rfl⟩
      obtain ⟨t, ht⟩ := exists_lookup ht
      refine ⟨(p ++ [a] ++ s, t), mem_rowsWhere.mpr ⟨ht, ?_⟩, by rw [drop_left]⟩
      simp only [isBelow, Bool.and_eq_true, isPrefixOf_iff_prefix, decide_eq_true_eq]
      refine ⟨prefix_append _ _, ?_⟩
      have := length_pos_iff.mpr hs
      simp only [length_append]
      omega
  have hbase : ∀ k, k ∈ (({ o with
      entries := eraseAll o.entries ((rowsWhere o.entries fun k =>
        (p ++ [a]).isPrefixOf k).map Prod.fst) } : Overlay).removeSubtree (p ++ [a])).tombs ↔
      k ∈ o.tombs ∧ ¬ p ++ [a] <+: k := fun k => mem_tombs_removeSubtree _ _ k
  simp only [moveSubtree, mem_tombs_foldl_tomb, AList.mem_erase, hbase, hbelow]
  by_cases hin : p ++ [b] <+: j
  · obtain ⟨s, rfl⟩ := hin
    have hs : p ++ [a] ++ s ∈ o.tombs → s ≠ [] := by
      rintro ht rfl
      exact hnotold (by simpa using ht)
    have hgone : p ++ [b] ++ s ∈ o.tombs → ¬ p ++ [a] <+: p ++ [b] ++ s → p ++ [b] ++ s = p ++ [b] := by
      intro ht hout
      rcases h.free with rfl | hfree
      · exact absurd (prefix_append _ _) hout
      · exact h.inv.tomb_below_free h.parent hfree (prefix_append _ _) ht
    rw [if_pos (prefix_append _ _), Tree.source_append]
    simp only [append_cancel_left_eq]
    grind
  · rw [if_neg hin]
    have hne : ∀ s, p ++ [b] ++ s ≠ j := fun s heq => hin ⟨s, heq⟩
    have hself : j ≠ p ++ [b] := by simpa [eq_comm] using hne []
    simp only [hne, hself, and_false, exists_false, or_false, ne_eq, not_false_eq_true, true_and]

/-- `rename_key`'s change of the parent: the old name is deleted, unless only its spelling
changes, and the new name is present. -/
def renamedParent (leafName newLeaf : Str) (caseOnly : Bool) (v : ℕ) (now : UInt64) (e : Entry) :
    Entry :=
  setChild newLeaf .present v now
    (if caseOnly then e
      else { e with node := { e.node with
        children := e.node.children.insert (fold leafName) (leafName, .tombstone) } })

theorem nodeOk_renamedParent {e : Entry} (h : NodeOk e.node) (leafName newLeaf : Str)
    (caseOnly : Bool) (v : ℕ) (now : UInt64) :
    NodeOk (renamedParent leafName newLeaf caseOnly v now e).node := by
  refine nodeOk_setChild ?_ _ _ _ _
  cases caseOnly
  · have hset := nodeOk_setChild h leafName .tombstone v now
    exact ⟨hset.values_unique, hset.values_disjoint, hset.tombstones_unique,
      hset.tombstones_folded, hset.children_folded⟩
  · exact h

/-- The maps after `rename_key`, from before `touch_ancestors`. -/
def renamed (o : Overlay) (p : Path) (old : Entry) (leafName newLeaf : Str) (newPath : Path)
    (v : ℕ) (now : UInt64) : Overlay :=
  let oldF := p ++ [fold leafName]
  let newF := p ++ [fold newLeaf]
  let o := o.moveSubtree oldF old.path newF newPath v
  let o := o.modify newF fun e => { e with node := { e.node with lastWrite := now } }
  let o := if newF = oldF then o
    else (o.modify p fun e =>
      { e with node := { e.node with
          children := e.node.children.insert (fold leafName) (leafName, .tombstone) } }).tomb oldF v
  o.modify p (setChild newLeaf .present v now)

/-- The entry a moved key has afterwards: the key that was renamed also gets the time. -/
def movedTo (old : Entry) (newPath newF : Path) (v : ℕ) (now : UInt64) (j : Path) (e : Entry) :
    Entry :=
  if j = newF then
    { movedEntry old newPath v e with
      node := { (movedEntry old newPath v e).node with lastWrite := now } }
  else movedEntry old newPath v e

section MovedTo

variable (old e : Entry) (newPath newF j : Path) (v : ℕ) (now : UInt64)

omit [ToLowercase]

/-- A moved entry keeps its contents. -/
@[simp] theorem movedTo_fields :
    (movedTo old newPath newF v now j e).path = newPath ++ e.path.drop old.path.length ∧
      (movedTo old newPath newF v now j e).node.values = e.node.values ∧
      (movedTo old newPath newF v now j e).node.valueTombstones = e.node.valueTombstones ∧
      (movedTo old newPath newF v now j e).node.children = e.node.children ∧
      (movedTo old newPath newF v now j e).node.created = true ∧
      (movedTo old newPath newF v now j e).node.volatile = e.node.volatile ∧
      (movedTo old newPath newF v now j e).changed = v := by
  unfold movedTo
  split_ifs <;> exact ⟨rfl, rfl, rfl, rfl, rfl, rfl, rfl⟩

end MovedTo

/-- The entry a key that stays has afterwards: the parent of the renamed key is changed. -/
def stayed (p : Path) (leafName newLeaf : Str) (v : ℕ) (now : UInt64) (j : Path) (e : Entry) :
    Entry :=
  if j = p then renamedParent leafName newLeaf (decide (fold newLeaf = fold leafName)) v now e
  else e

variable {leafName newLeaf : Str} {now : UInt64}

section Stayed

variable (j : Path) (e : Entry)

@[simp] theorem stayed_fields :
    (stayed p leafName newLeaf v now j e).path = e.path ∧
      (stayed p leafName newLeaf v now j e).node.values = e.node.values ∧
      (stayed p leafName newLeaf v now j e).node.valueTombstones = e.node.valueTombstones ∧
      (stayed p leafName newLeaf v now j e).node.created = e.node.created ∧
      (stayed p leafName newLeaf v now j e).node.volatile = e.node.volatile := by
  unfold stayed renamedParent
  split_ifs <;> exact ⟨rfl, rfl, rfl, rfl, rfl⟩

theorem stayed_of_ne (hj : j ≠ p) : stayed p leafName newLeaf v now j = id :=
  funext fun _ => if_neg hj

theorem stayed_eq : j = p ∧ (stayed p leafName newLeaf v now j e).changed = v ∨
    j ≠ p ∧ stayed p leafName newLeaf v now j e = e := by
  by_cases hj : j = p
  · exact .inl ⟨hj, by simp [stayed, hj, renamedParent, setChild]⟩
  · exact .inr ⟨hj, if_neg hj⟩

theorem lookup_stayed (c : Str) :
    (stayed p leafName newLeaf v now j e).node.children.lookup c =
      if j = p ∧ c = fold newLeaf then some (newLeaf, .present)
      else if j = p ∧ c = fold leafName then some (leafName, .tombstone)
      else e.node.children.lookup c := by
  unfold stayed renamedParent
  by_cases hj : j = p <;> by_cases hc : fold newLeaf = fold leafName <;>
    simp [hj, hc, setChild, lookup_insert_eq_ite]
  grind

theorem nodeOk_stayed (h : NodeOk e.node) :
    NodeOk (stayed p leafName newLeaf v now j e).node := by
  unfold stayed
  split_ifs
  · exact nodeOk_renamedParent h _ _ _ _ _
  · exact h

end Stayed

namespace Renames

variable (h : Renames o p old (fold leafName) (fold newLeaf))

include h

theorem lookup_renamed (newPath : Path) (j : Path) :
    (o.renamed p old leafName newLeaf newPath v now).entries.lookup j =
      if p ++ [fold newLeaf] <+: j then
        (o.entries.lookup (Tree.source p (fold leafName) (fold newLeaf) j)).map
          (movedTo old newPath (p ++ [fold newLeaf]) v now j)
      else if p ++ [fold leafName] <+: j then none
      else (o.entries.lookup j).map (stayed p leafName newLeaf v now j) := by
  have hselfa : ¬ p ++ [fold leafName] <+: p := not_append_prefix_self
  have hselfb : ¬ p ++ [fold newLeaf] <+: p := not_append_prefix_self
  have hmove := h.lookup_moveSubtree newPath v j
  simp only [Overlay.renamed, concat_eq_concat, true_and]
  generalize o.moveSubtree (p ++ [fold leafName]) old.path (p ++ [fold newLeaf]) newPath v = moved
    at hmove
  by_cases hjp : j = p
  · subst hjp
    obtain ⟨e, he⟩ := exists_lookup h.parent
    rw [if_neg hselfb, if_neg hselfa, he] at hmove
    by_cases hc : fold newLeaf = fold leafName <;>
      simp [Overlay.modify, lookup_modify, hmove, he, hc, hselfa, hselfb, stayed,
        renamedParent]
  · by_cases hc : fold newLeaf = fold leafName <;>
      simp only [Overlay.modify, lookup_modify, hjp, hmove, hc, if_true, if_false,
        entries_tomb]
    all_goals
      cases o.entries.lookup (Tree.source p (fold leafName) (fold newLeaf) j) <;> split_ifs <;>
        simp_all [movedTo, stayed_of_ne]

theorem mem_tombs_renamed (newPath : Path) (j : Path) :
    j ∈ (o.renamed p old leafName newLeaf newPath v now).tombs ↔
      if p ++ [fold newLeaf] <+: j then Tree.source p (fold leafName) (fold newLeaf) j ∈ o.tombs
      else (j ∈ o.tombs ∧ ¬ p ++ [fold leafName] <+: j) ∨ j = p ++ [fold leafName] := by
  have hmove := h.mem_tombs_moveSubtree newPath v j
  have hsame : p ++ [fold newLeaf] <+: p ++ [fold leafName] ↔ fold newLeaf = fold leafName := by
    simp [eq_comm]
  simp only [Overlay.renamed, concat_eq_concat, true_and]
  by_cases hc : fold newLeaf = fold leafName
  · simp only [if_pos hc, Overlay.modify, hmove]
    grind
  · simp only [if_neg hc, Overlay.modify, tombs_tomb, AList.mem_insert, hmove]
    grind

/-- Where an entry after the rename comes from. -/
theorem cases {j : Path} {e' : Entry}
    (hj : (o.renamed p old leafName newLeaf newPath v now).entries.lookup j = some e') :
    (∃ s e, j = p ++ [fold newLeaf] ++ s ∧ o.entries.lookup (p ++ [fold leafName] ++ s) = some e ∧
      e' = movedTo old newPath (p ++ [fold newLeaf]) v now j e) ∨
    (¬ p ++ [fold newLeaf] <+: j ∧ ¬ p ++ [fold leafName] <+: j ∧
      ∃ e, o.entries.lookup j = some e ∧ e' = stayed p leafName newLeaf v now j e) := by
  rw [h.lookup_renamed] at hj
  split_ifs at hj with hin hout
  · obtain ⟨s, rfl⟩ := hin
    obtain ⟨e, he, rfl⟩ := Option.map_eq_some_iff.mp hj
    exact .inl ⟨s, e, rfl, Tree.source_append p _ _ s ▸ he, rfl⟩
  · obtain ⟨e, he, rfl⟩ := Option.map_eq_some_iff.mp hj
    exact .inr ⟨hin, hout, e, he, rfl⟩

theorem mem_renamed {j : Path} : j ∈ (o.renamed p old leafName newLeaf newPath v now).entries ↔
    if p ++ [fold newLeaf] <+: j then
      Tree.source p (fold leafName) (fold newLeaf) j ∈ o.entries
    else j ∈ o.entries ∧ ¬ p ++ [fold leafName] <+: j := by
  rw [← AList.lookup_isSome, h.lookup_renamed]
  split_ifs <;> simp_all [AList.lookup_isSome]

theorem tree_renamed : Tree (fun k => k ∈ (o.renamed p old leafName newLeaf newPath v now).entries)
    (o.renamed p old leafName newLeaf newPath v now).childState
    (fun k => k ∈ (o.renamed p old leafName newLeaf newPath v now).tombs) := by
  have hchild : (o.renamed p old leafName newLeaf newPath v now).childState = fun j d =>
      if p ++ [fold newLeaf] <+: j then
        o.childState (Tree.source p (fold leafName) (fold newLeaf) j) d
      else if p ++ [fold leafName] <+: j then none
      else if j = p ∧ d = fold newLeaf then some .present
      else if j = p ∧ d = fold leafName then some .tombstone else o.childState j d := by
    funext j d
    simp only [childState, h.lookup_renamed]
    by_cases hin : p ++ [fold newLeaf] <+: j
    · simp [hin, Option.bind_map]
    by_cases hout : p ++ [fold leafName] <+: j
    · simp [hin, hout]
    simp only [if_neg hin, if_neg hout]
    cases he : o.entries.lookup j with
    | none =>
      have hjp : j ≠ p := by
        rintro rfl
        exact AList.lookup_eq_none.mp he h.parent
      simp [hjp]
    | some e =>
      simp only [Option.map_some, Option.bind_some, lookup_stayed]
      split_ifs <;> rfl
  simp only [h.mem_renamed, h.mem_tombs_renamed, hchild]
  exact h.inv.tree.move (mem_of_lookup h.old) h.parent

/-- The path of the renamed key extends its parent's by the new name. -/
theorem exists_parent : ∃ pe, o.entries.lookup p = some pe ∧
    old.path.dropLast ++ [newLeaf] = pe.path ++ [newLeaf] := by
  obtain ⟨pe, hpe⟩ := exists_lookup h.parent
  obtain ⟨⟨name, hname⟩, -⟩ := h.inv.under p _ pe old hpe h.old
  exact ⟨pe, hpe, by rw [hname]; simp⟩

theorem inv_renamed :
    Inv (o.renamed p old leafName newLeaf (old.path.dropLast ++ [newLeaf]) v now) := by
  obtain ⟨pe, hpe, hnew⟩ := h.exists_parent
  have hinv := h.inv
  have hlen : old.path.length = (p ++ [fold leafName]).length := by
    rw [← hinv.spelled _ _ h.old, foldPath, length_map]
  refine ⟨h.tree_renamed, fun j e' hj => ?_, fun j e' hj => ?_,
    fun j d upper lower hupper hlower => ?_⟩
  · rcases h.cases hj with ⟨s, e, rfl, he, rfl⟩ | ⟨-, -, e, he, rfl⟩
    · rw [(movedTo_fields ..).1, hnew, foldPath_append, foldPath_append, hinv.spelled _ _ hpe,
        foldPath_drop, hinv.spelled _ _ he, hlen, drop_left]
      rfl
    · rw [(stayed_fields ..).1, hinv.spelled j e he]
  · rcases h.cases hj with ⟨s, e, rfl, he, rfl⟩ | ⟨-, -, e, he, rfl⟩
    · have hok := hinv.node _ e he
      unfold movedTo
      split_ifs <;> exact ⟨hok.1, hok.2, hok.3, hok.4, hok.5⟩
    · exact nodeOk_stayed j e (hinv.node j e he)
  · rcases h.cases hupper with ⟨s, ue, rfl, hue, rfl⟩ | ⟨hin, hout, ue, hue, rfl⟩ <;>
      rcases h.cases hlower with ⟨s', le, hs', hle, rfl⟩ | ⟨hin', hout', le, hle, rfl⟩
    · obtain rfl : s ++ [d] = s' := by simpa using hs'
      obtain ⟨⟨name, hname⟩, -⟩ := hinv.under _ d ue le hue (append_assoc .. ▸ hle)
      refine ⟨⟨name, ?_⟩, by simp⟩
      rw [(movedTo_fields ..).1, (movedTo_fields ..).1, hname,
        drop_append_of_le_length (hinv.path_above h.old hue).length_le]
      exact (append_assoc ..).symm
    · exact absurd ((prefix_append _ s).trans (prefix_append _ [d])) hin'
    · -- The renamed key itself, below its parent.
      obtain ⟨rfl, rfl⟩ : j = p ∧ d = fold newLeaf :=
        (prefix_concat.mp ⟨s', hs'.symm⟩).resolve_left hin
      obtain rfl : s' = [] := by simpa using hs'
      rw [append_nil, h.old] at hle
      rw [hpe] at hue
      cases hle
      cases hue
      exact ⟨⟨newLeaf, by simp [hnew]⟩, by simp⟩
    · simpa [Under] using hinv.under j d ue le hue hle

end Renames

end Rename

end Overlay

end AetherVfs.Registry
