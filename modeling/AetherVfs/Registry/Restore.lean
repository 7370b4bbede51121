import AetherVfs.Registry.Reload
import AetherVfs.Registry.WellFormed

/-!
# A reloaded overlay is a tree

The nodes of a well-formed overlay that `encode` writes are a subtree: the children it leaves
out are left out of the child lists too. So the overlay `decode` builds from the file meets the
invariant again, and every node in it is as created-here as it was.
-/

namespace AetherVfs.Registry.Format

open Outcome List AList Table

section Lists

variable {α β γ : Type*}

theorem map_filterMap_sublist {f : α → Option β} {g : β → γ} {h : α → γ}
    (hf : ∀ x y, f x = some y → g y = h x) (l : List α) :
    ((l.filterMap f).map g).Sublist (l.map h) := by
  induction l with
  | nil => exact List.Sublist.refl _
  | cons x l ih =>
    cases hx : f x with
    | none =>
      rw [filterMap_cons_none hx]
      exact ih.cons _
    | some y =>
      rw [filterMap_cons_some hx, map_cons, hf x y hx]
      exact ih.cons_cons _

end Lists

variable [ToLowercase] {node : Node}

theorem nodup_sortedChildren (h : NodeOk node) :
    ((sortedChildren node).map fun x => fold x.1).Nodup := by
  have hperm := perm_insertionSort
    (fun a b : (_ : Str) × Str × Child => a.1 ≤ b.1) node.children.entries
  have hkeys : ((node.children.entries.insertionSort fun a b => a.1 ≤ b.1).map
      Sigma.fst).Nodup := (hperm.map Sigma.fst).nodup_iff.mpr node.children.nodupKeys
  rw [sortedChildren, map_map]
  have hsame : (node.children.entries.insertionSort fun a b => a.1 ≤ b.1).map
      ((fun x => fold x.1) ∘ fun r => r.2) =
      (node.children.entries.insertionSort fun a b => a.1 ≤ b.1).map Sigma.fst := by
    refine map_congr_left fun r hr => ?_
    exact h.children_folded r.1 r.2.1 r.2.2
      (mem_lookup_iff.mpr ((hperm.mem_iff).mp hr))
  rw [hsame]
  exact hkeys

theorem nodup_tombstonedChildren (h : NodeOk node) :
    ((tombstonedChildren node).map fold).Nodup := by
  refine (nodup_sortedChildren h).sublist (map_filterMap_sublist ?_ _)
  intro x y hxy
  split_ifs at hxy
  cases hxy
  rfl

theorem nodup_savedChildren {o : Overlay} {path : Path} (h : NodeOk node) :
    ((savedChildren o path node).map fun k => fold k.1).Nodup := by
  refine (nodup_sortedChildren h).sublist (map_filterMap_sublist ?_ _)
  intro x y hxy
  split_ifs at hxy
  obtain ⟨n, -, rfl⟩ := Option.map_eq_some_iff.mp hxy
  rfl

theorem lookup_listed_of_mem {children : Table Str (Str × Child)} {names : List Str} {name : Str}
    (hnodup : (names.map fold).Nodup) (hname : name ∈ names) (st : Child) :
    (listed children names st).lookup (fold name) = some (name, st) := by
  refine lookup_insertAll_of_mem _ ?_ (mem_map_of_mem hname)
  simpa [map_map, Function.comp_def] using hnodup

variable {c : Str} {x : Path × Node} {e : Entry}

theorem lookup_listed_of_notMem {children : Table Str (Str × Child)} {names : List Str}
    (hc : c ∉ names.map fold) (st : Child) :
    (listed children names st).lookup c = children.lookup c := by
  refine lookup_insertAll_of_notMem _ ?_
  rintro r hr rfl
  obtain ⟨name, hname, rfl⟩ := mem_map.mp hr
  exact hc (mem_map_of_mem hname)

/-- The child list a node is read back with: its deleted children, and those of its present
children that were written. -/
theorem lookup_savedNode {o : Overlay} {path : Path} (h : NodeOk node) (c sp : Str)
    (st : Child) : (savedNode o path node).children.lookup c = some (sp, st) ↔
      node.children.lookup c = some (sp, st) ∧
        (st = .present → sp ∈ (savedChildren o path node).map Prod.fst) := by
  have hkids : (((savedChildren o path node).map Prod.fst).map fold).Nodup := by
    simpa [map_map, Function.comp_def] using nodup_savedChildren h
  by_cases hk : c ∈ ((savedChildren o path node).map Prod.fst).map fold
  · obtain ⟨name, hname, rfl⟩ := mem_map.mp hk
    obtain ⟨k, hkm, rfl⟩ := mem_map.mp hname
    obtain ⟨⟨c, hc⟩, -⟩ := mem_savedChildren.mp hkm
    have hfold := h.children_folded c _ _ hc
    rw [savedNode, lookup_listed_of_mem hkids hname, hfold, hc]
    constructor
    · intro heq
      cases heq
      exact ⟨rfl, fun _ => hname⟩
    · exact And.left
  · rw [savedNode, lookup_listed_of_notMem hk]
    by_cases ht : c ∈ (tombstonedChildren node).map fold
    · obtain ⟨name, hname, rfl⟩ := mem_map.mp ht
      obtain ⟨c, hc⟩ := mem_tombstonedChildren.mp hname
      have hfold := h.children_folded c _ _ hc
      rw [lookup_listed_of_mem (nodup_tombstonedChildren h) hname, hfold, hc]
      constructor
      · intro heq
        cases heq
        exact ⟨rfl, fun hst => by cases hst⟩
      · exact And.left
    · rw [lookup_listed_of_notMem ht]
      refine iff_of_false (by simp) ?_
      rintro ⟨hc, hpresent⟩
      have hfold := h.children_folded c _ _ hc
      cases st with
      | present => exact hk (hfold ▸ mem_map_of_mem (hpresent rfl))
      | tombstone =>
        exact ht (hfold ▸ mem_map_of_mem (mem_tombstonedChildren.mpr ⟨c, hc⟩))

/-- What one entry of the list says about a deleted child. -/
def Deletes (x : Path × Node) (t : Path) : Prop :=
  ∃ c sp, x.2.children.lookup c = some (sp, .tombstone) ∧ t = foldPath x.1 ++ [c]

omit [ToLowercase] in
theorem mem_tombs_insertNode_children (rows : List (Str × Str × Child)) (f : Path) (o : Overlay)
    (changed : ℕ) (t : Path) :
    t ∈ (rows.foldl (fun o c => if c.2.2 = .tombstone then o.tomb (f ++ [c.1]) changed else o)
      o).tombs ↔ t ∈ o.tombs ∨ ∃ c sp, (c, sp, Child.tombstone) ∈ rows ∧ t = f ++ [c] := by
  induction rows generalizing o with
  | nil => simp
  | cons r rows ih =>
    obtain ⟨c, sp, st⟩ := r
    rw [foldl_cons, ih]
    cases st with
    | present => simp
    | tombstone =>
      simp only [if_true, Overlay.tombs_tomb, mem_insert, mem_cons]
      constructor
      · rintro ((rfl | ht) | ⟨c', sp', hmem, rfl⟩)
        · exact Or.inr ⟨c, sp, Or.inl rfl, rfl⟩
        · exact Or.inl ht
        · exact Or.inr ⟨c', sp', Or.inr hmem, rfl⟩
      · rintro (ht | ⟨c', sp', heq | hmem, rfl⟩)
        · exact Or.inl (Or.inr ht)
        · cases heq
          exact Or.inl (Or.inl rfl)
        · exact Or.inr ⟨c', sp', hmem, rfl⟩

omit [ToLowercase] in
theorem entries_insertNode_children (rows : List (Str × Str × Child)) (f : Path) (o : Overlay)
    (changed : ℕ) :
    (rows.foldl (fun o c => if c.2.2 = .tombstone then o.tomb (f ++ [c.1]) changed else o)
      o).entries = o.entries := by
  induction rows generalizing o with
  | nil => rfl
  | cons r rows ih =>
    rw [foldl_cons, ih]
    split_ifs
    · exact Overlay.entries_tomb _ _ _
    · rfl

theorem ends_insertNode (o : Overlay) (path : Path) (node : Node) :
    Ends (insertNode o path node 1) fun o' =>
      o'.entries = o.entries.insert (foldPath path) ⟨path, node, 1, 1⟩ ∧
        ∀ t, t ∈ o'.tombs ↔ (t ∈ o.tombs ∨ Deletes (path, node) t) ∧ t ≠ foldPath path := by
  unfold insertNode
  refine ends_unless fun _ => ends_bind_any fun _ => ends_pure ⟨?_, fun t => ?_⟩
  · rw [entries_insertNode_children]
  · simp only [mem_erase, mem_tombs_insertNode_children, mem_rowsWhere, and_true]
    rw [and_comm]
    rfl

/-- The overlay rebuilt from a list of nodes with different keys, none of which is deleted by
another. -/
theorem ends_insertNodes {nodes : List (Path × Node)}
    (hnodup : (nodes.map fun x => foldPath x.1).Nodup)
    (hkept : ∀ x ∈ nodes, ∀ y ∈ nodes, ¬ Deletes x (foldPath y.1)) (o : Overlay) :
    Ends (insertNodes o nodes) fun o' =>
      (∀ x ∈ nodes, o'.entries.lookup (foldPath x.1) = some ⟨x.1, x.2, 1, 1⟩) ∧
        (∀ j, (∀ x ∈ nodes, foldPath x.1 ≠ j) → o'.entries.lookup j = o.entries.lookup j) ∧
        ∀ t, t ∈ o'.tombs ↔ (t ∈ o.tombs ∧ ∀ x ∈ nodes, foldPath x.1 ≠ t) ∨
          ∃ x ∈ nodes, Deletes x t := by
  induction nodes generalizing o with
  | nil => exact ends_ok ⟨by simp, fun _ _ => rfl, by simp⟩
  | cons x nodes ih =>
    obtain ⟨path, node⟩ := x
    rw [map_cons, nodup_cons] at hnodup
    have hfirst : ∀ y ∈ nodes, foldPath y.1 ≠ foldPath path := fun y hy heq =>
      hnodup.1 (heq ▸ mem_map_of_mem (f := fun x : Path × Node => foldPath x.1) hy)
    rw [insertNodes]
    split
    · next o₁ ho₁ =>
        obtain ⟨hentries, htombs⟩ := ends_insertNode o path node o₁ ho₁
        refine (ih hnodup.2 (fun x hx y hy => hkept x (mem_cons_of_mem _ hx) y
          (mem_cons_of_mem _ hy)) o₁).mono ?_
        rintro o' ⟨hin, hout, htomb⟩
        refine ⟨?_, ?_, ?_⟩
        · rintro y hy
          rcases mem_cons.mp hy with rfl | hy
          · rw [hout _ hfirst, hentries, lookup_insert]
          · exact hin y hy
        · intro j hj
          rw [hout j fun y hy => hj y (mem_cons_of_mem _ hy), hentries]
          exact lookup_insert_ne (hj _ mem_cons_self).symm
        · intro t
          rw [htomb, htombs]
          constructor
          · rintro (⟨⟨ht | ht, hne⟩, hrest⟩ | ⟨y, hy, hdel⟩)
            · refine Or.inl ⟨ht, fun y hy => ?_⟩
              rcases mem_cons.mp hy with rfl | hy
              · exact hne.symm
              · exact hrest y hy
            · exact Or.inr ⟨_, mem_cons_self, ht⟩
            · exact Or.inr ⟨y, mem_cons_of_mem _ hy, hdel⟩
          · rintro (⟨ht, hall⟩ | ⟨y, hy, hdel⟩)
            · exact Or.inl ⟨⟨Or.inl ht, (hall _ mem_cons_self).symm⟩,
                fun y hy => hall y (mem_cons_of_mem _ hy)⟩
            · rcases mem_cons.mp hy with rfl | hy
              · have hnot := hkept _ mem_cons_self
                refine Or.inl ⟨⟨Or.inr hdel, ?_⟩, ?_⟩
                · rintro rfl
                  exact hnot _ mem_cons_self hdel
                · rintro y hy rfl
                  exact hnot y (mem_cons_of_mem _ hy) hdel
              · exact Or.inr ⟨y, hy, hdel⟩
    · exact ends_error _ _

section Rooted

/-- The nodes of one tree, each with its path: every node but the root's is a child that the node
above it lists, and every child that is listed as present has its node. -/
structure Rooted (nodes : List (Path × Node)) : Prop where
  nodup : (nodes.map fun x => foldPath x.1).Nodup
  ok : ∀ x ∈ nodes, NodeOk x.2
  up : ∀ x ∈ nodes, foldPath x.1 = root ∨ ∃ y ∈ nodes, ∃ name, x.1 = y.1 ++ [name] ∧
    y.2.children.lookup (fold name) = some (name, .present)
  down : ∀ y ∈ nodes, ∀ c sp, y.2.children.lookup c = some (sp, .present) →
    ∃ x ∈ nodes, x.1 = y.1 ++ [sp]

/-- Every key directly below a created-here key is created-here. -/
def Inherits (nodes : List (Path × Node)) : Prop :=
  ∀ x ∈ nodes, ∀ y ∈ nodes, ∀ name, x.1 = y.1 ++ [name] → y.2.created = true →
    x.2.created = true

/-- The overlay that was rebuilt from `nodes`. -/
structure Holds (o : Overlay) (nodes : List (Path × Node)) : Prop where
  node : ∀ x ∈ nodes, o.entries.lookup (foldPath x.1) = some ⟨x.1, x.2, 1, 1⟩
  only : ∀ j, (∀ x ∈ nodes, foldPath x.1 ≠ j) → o.entries.lookup j = none
  tomb : ∀ t, t ∈ o.tombs ↔ ∃ x ∈ nodes, Deletes x t

variable {nodes : List (Path × Node)} {o : Overlay}

theorem Rooted.eq_of_foldPath (h : Rooted nodes) {y : Path × Node} (hx : x ∈ nodes) (hy : y ∈ nodes)
    (heq : foldPath x.1 = foldPath y.1) : x = y :=
  inj_on_of_nodup_map h.nodup hx hy heq

theorem Rooted.top (h : Rooted nodes) (hx : x ∈ nodes) : root <+: foldPath x.1 := by
  obtain ⟨n, hn⟩ : ∃ n, x.1.length = n := ⟨_, rfl⟩
  induction n generalizing x with
  | zero =>
    rcases h.up x hx with hroot | ⟨y, -, name, hxy, -⟩
    · exact hroot ▸ prefix_rfl
    · simp [hxy] at hn
  | succ n ih =>
    rcases h.up x hx with hroot | ⟨y, hy, name, hxy, -⟩
    · exact hroot ▸ prefix_rfl
    · rw [hxy, Overlay.foldPath_append]
      refine (ih hy ?_).trans (prefix_append _ _)
      simpa [hxy] using hn

variable {k : Path}

theorem Rooted.above (h : Rooted nodes) (hx : x ∈ nodes) (hkc : foldPath x.1 = k ++ [c])
    (hne : k ++ [c] ≠ root) :
    ∃ y ∈ nodes, foldPath y.1 = k ∧ ∃ name, fold name = c ∧ x.1 = y.1 ++ [name] ∧
      y.2.children.lookup c = some (name, .present) := by
  rcases h.up x hx with hroot | ⟨y, hy, name, hxy, hc⟩
  · exact absurd (hkc.symm.trans hroot) hne
  · rw [hxy, Overlay.foldPath_append] at hkc
    obtain ⟨hk, hname⟩ := append_inj' hkc rfl
    have hname : fold name = c := singleton_inj.mp hname
    exact ⟨y, hy, hk, name, hname, hxy, hname ▸ hc⟩

omit [ToLowercase] in
theorem concat_ne_root (hk : root <+: k) (c : Str) : k ++ [c] ≠ root := by
  intro heq
  have hlen := hk.length_le
  rw [← heq, length_append, length_singleton] at hlen
  omega

theorem Rooted.not_deletes (h : Rooted nodes) {y : Path × Node} (hx : x ∈ nodes) (hy : y ∈ nodes) :
    ¬ Deletes x (foldPath y.1) := by
  rintro ⟨c, sp, hc, heq⟩
  obtain ⟨z, hz, hzx, name, -, -, hlisted⟩ := h.above hy heq (concat_ne_root (h.top hx) c)
  rw [h.eq_of_foldPath hz hx hzx, hc] at hlisted
  cases hlisted

theorem Rooted.holds (h : Rooted nodes) :
    Ends (insertNodes Overlay.new nodes) fun o => Holds o nodes := by
  refine (ends_insertNodes h.nodup (fun x hx y hy => h.not_deletes hx hy) Overlay.new).mono ?_
  rintro o ⟨hin, hrest, htomb⟩
  refine ⟨hin, fun j hj => (hrest j hj).trans rfl, fun t => (htomb t).trans ?_⟩
  simp [Overlay.new]

section

variable (h : Holds o nodes)

include h

theorem Holds.back (he : o.entries.lookup k = some e) :
    ∃ x ∈ nodes, foldPath x.1 = k ∧ e = ⟨x.1, x.2, 1, 1⟩ := by
  by_contra hno
  rw [h.only k fun x hx hxk => hno ⟨x, hx, hxk, ?_⟩] at he
  · cases he
  · have hnode := h.node x hx
    rw [hxk, he] at hnode
    exact Option.some.inj hnode

theorem Holds.mem_iff :
    k ∈ o.entries ↔ ∃ x ∈ nodes, foldPath x.1 = k := by
  constructor
  · intro hk
    obtain ⟨e, he⟩ := exists_lookup hk
    obtain ⟨x, hx, hxk, -⟩ := h.back he
    exact ⟨x, hx, hxk⟩
  · rintro ⟨x, hx, rfl⟩
    exact mem_of_lookup (h.node x hx)

theorem Holds.childState_eq_some {st : Child} :
    o.childState k c = some st ↔
      ∃ x ∈ nodes, foldPath x.1 = k ∧ ∃ sp, x.2.children.lookup c = some (sp, st) := by
  constructor
  · intro hc
    obtain ⟨e, he, hst⟩ := Option.bind_eq_some_iff.mp hc
    obtain ⟨x, hx, hxk, rfl⟩ := h.back he
    obtain ⟨⟨sp, st'⟩, hsp, rfl⟩ := Option.map_eq_some_iff.mp hst
    exact ⟨x, hx, hxk, sp, hsp⟩
  · rintro ⟨x, hx, rfl, sp, hsp⟩
    rw [Overlay.childState_of_lookup (h.node x hx), hsp]
    rfl

theorem Holds.tree (hrooted : Rooted nodes) :
    Tree (fun k => k ∈ o.entries) o.childState (fun k => k ∈ o.tombs) := by
  refine ⟨?_, ?_, ?_, ?_, ?_, ?_⟩
  · intro k hk
    obtain ⟨x, hx, rfl⟩ := h.mem_iff.mp hk
    exact hrooted.top hx
  · intro k c hk
    obtain ⟨x, hx, hxk⟩ := h.mem_iff.mp hk
    by_cases hne : k ++ [c] = root
    · exact Or.inl hne
    · obtain ⟨y, hy, hyk, -⟩ := hrooted.above hx hxk hne
      exact Or.inr (h.mem_iff.mpr ⟨y, hy, hyk⟩)
  · intro k c
    rw [h.childState_eq_some]
    constructor
    · rintro ⟨y, hy, rfl, sp, hsp⟩
      refine ⟨h.mem_iff.mpr ⟨y, hy, rfl⟩, h.mem_iff.mpr ?_⟩
      obtain ⟨x, hx, hxy⟩ := hrooted.down y hy c sp hsp
      refine ⟨x, hx, ?_⟩
      rw [hxy, Overlay.foldPath_append, ← (hrooted.ok y hy).children_folded c sp _ hsp]
      rfl
    · rintro ⟨hk, hkc⟩
      obtain ⟨z, hz, rfl⟩ := h.mem_iff.mp hk
      obtain ⟨x, hx, hxk⟩ := h.mem_iff.mp hkc
      obtain ⟨y, hy, hyk, name, -, -, hsp⟩ :=
        hrooted.above hx hxk (concat_ne_root (hrooted.top hz) c)
      exact ⟨y, hy, hyk, name, hsp⟩
  · intro k c
    rw [h.childState_eq_some, h.tomb]
    constructor
    · rintro ⟨x, hx, rfl, sp, hsp⟩
      exact ⟨x, hx, c, sp, hsp, rfl⟩
    · rintro ⟨x, hx, d, sp, hsp, heq⟩
      obtain ⟨rfl, hcd⟩ := append_inj' heq rfl
      exact ⟨x, hx, rfl, sp, singleton_inj.mp hcd ▸ hsp⟩
  · intro ht
    obtain ⟨x, -, c, sp, -, heq⟩ := (h.tomb []).mp ht
    simp at heq
  · intro k c hc
    obtain ⟨st, hst⟩ := Option.ne_none_iff_exists'.mp hc
    obtain ⟨x, hx, hxk, -⟩ := h.childState_eq_some.mp hst
    exact h.mem_iff.mpr ⟨x, hx, hxk⟩

theorem Holds.spelled (k : Path) (e : Entry)
    (he : o.entries.lookup k = some e) : foldPath e.path = k := by
  obtain ⟨x, -, hxk, rfl⟩ := h.back he
  exact hxk

theorem Holds.nodeOk (hrooted : Rooted nodes) (k : Path) (e : Entry)
    (he : o.entries.lookup k = some e) : NodeOk e.node := by
  obtain ⟨x, hx, -, rfl⟩ := h.back he
  exact hrooted.ok x hx

theorem Holds.under_cases (hrooted : Rooted nodes) {upper lower : Entry}
    (hupper : o.entries.lookup k = some upper) (hlower : o.entries.lookup (k ++ [c]) = some lower) :
    ∃ x ∈ nodes, ∃ y ∈ nodes, ∃ name, lower = ⟨x.1, x.2, 1, 1⟩ ∧ upper = ⟨y.1, y.2, 1, 1⟩ ∧
      x.1 = y.1 ++ [name] ∧ y.2.children.lookup c = some (name, .present) := by
  obtain ⟨x, hx, hxk, rfl⟩ := h.back hlower
  obtain ⟨z, hz, rfl, rfl⟩ := h.back hupper
  obtain ⟨y, hy, hyz, name, -, hxy, hsp⟩ :=
    hrooted.above hx hxk (concat_ne_root (hrooted.top hz) c)
  obtain rfl := hrooted.eq_of_foldPath hy hz hyz
  exact ⟨x, hx, y, hy, name, rfl, rfl, hxy, hsp⟩

theorem Holds.inv (hrooted : Rooted nodes) (hinherits : Inherits nodes) :
    o.Inv := by
  refine ⟨h.tree hrooted, h.spelled, h.nodeOk hrooted, ?_⟩
  intro k c upper lower hupper hlower
  obtain ⟨x, hx, y, hy, name, rfl, rfl, hxy, -⟩ := h.under_cases hrooted hupper hlower
  exact ⟨⟨name, hxy⟩, hinherits x hx y hy name hxy⟩

end

end Rooted

section Saved

variable {o : Overlay} {fuel : ℕ} {path : Path} {node : Node}

theorem mem_saved_node (hnode : o.node path = some node) (hx : x ∈ saved o fuel path node) :
    path <+: x.1 ∧ ∃ n, o.node x.1 = some n ∧ x.2 = savedNode o x.1 n := by
  induction fuel generalizing path node with
  | zero => simp [saved] at hx
  | succ fuel ih =>
    rcases mem_cons.mp hx with rfl | hx
    · exact ⟨prefix_rfl, node, hnode, rfl⟩
    · obtain ⟨k, hk, hx⟩ := mem_flatMap.mp hx
      obtain ⟨hpre, hn⟩ := ih (mem_savedChildren.mp hk).2.1 hx
      exact ⟨(prefix_append _ _).trans hpre, hn⟩

variable {n : Node}

theorem saved_down (hnode : o.node path = some node) (hfuel : encodeFuel o < fuel + path.length)
    {q : Path} (hq : o.node q = some n) (hx : (q, savedNode o q n) ∈ saved o fuel path node)
    {k : Str × Node} (hk : k ∈ savedChildren o q n) :
    (q ++ [k.1], savedNode o (q ++ [k.1]) k.2) ∈ saved o fuel path node := by
  induction fuel generalizing path node with
  | zero => simp [saved] at hx
  | succ fuel ih =>
    rw [saved] at hx ⊢
    have hfuel' : ∀ name : Str, encodeFuel o < fuel + (path ++ [name]).length := by
      intro name
      simp only [length_append, length_singleton]
      omega
    rcases mem_cons.mp hx with heq | hx
    · obtain ⟨rfl, -⟩ := Prod.mk.inj heq
      rw [hq] at hnode
      cases hnode
      refine mem_cons_of_mem _ (mem_flatMap.mpr ⟨k, hk, ?_⟩)
      -- The fuel reaches the child, since the child's path is one of the keys.
      have hkid := (mem_savedChildren.mp hk).2.1
      obtain ⟨e, he, -⟩ := Option.map_eq_some_iff.mp hkid
      have hlen := length_le_encodeFuel (mem_of_lookup he)
      simp only [foldPath, length_map, length_append, length_singleton] at hlen
      obtain ⟨m, rfl⟩ : ∃ m, fuel = m + 1 := ⟨fuel - 1, by omega⟩
      exact mem_cons_self
    · obtain ⟨k', hk', hx⟩ := mem_flatMap.mp hx
      refine mem_cons_of_mem _ (mem_flatMap.mpr ⟨k', hk', ?_⟩)
      exact ih (mem_savedChildren.mp hk').2.1 (hfuel' k'.1) hx

theorem saved_up (hnode : o.node path = some node) (hx : x ∈ saved o fuel path node) :
    x.1 = path ∨ ∃ q n k, o.node q = some n ∧ (q, savedNode o q n) ∈ saved o fuel path node ∧
      k ∈ savedChildren o q n ∧ x.1 = q ++ [k.1] := by
  induction fuel generalizing path node with
  | zero => simp [saved] at hx
  | succ fuel ih =>
    rw [saved] at hx ⊢
    rcases mem_cons.mp hx with rfl | hx
    · exact Or.inl rfl
    · obtain ⟨k, hk, hx⟩ := mem_flatMap.mp hx
      right
      rcases ih (mem_savedChildren.mp hk).2.1 hx with heq | ⟨q, n, k', hq, hmem, hk', heq⟩
      · exact ⟨path, node, k, hnode, mem_cons_self, hk, heq⟩
      · exact ⟨q, n, k', hq,
          mem_cons_of_mem _ (mem_flatMap.mpr ⟨k, hk, hmem⟩), hk', heq⟩

theorem Inv.nodeOk (h : o.Inv) (hnode : o.node path = some node) :
    NodeOk node := by
  obtain ⟨e, he, rfl⟩ := Option.map_eq_some_iff.mp hnode
  exact h.node _ e he

theorem nodup_saved (h : o.Inv) (fuel : ℕ)
    (hnode : o.node path = some node) :
    ((saved o fuel path node).map fun x => foldPath x.1).Nodup := by
  induction fuel generalizing path node with
  | zero => exact nodup_nil
  | succ fuel ih =>
    have hbelow : ∀ k ∈ savedChildren o path node, ∀ x ∈ saved o fuel (path ++ [k.1]) k.2,
        foldPath path ++ [fold k.1] <+: foldPath x.1 := by
      intro k hk x hx
      have hpre := (mem_saved_node (mem_savedChildren.mp hk).2.1 hx).1.map fold
      simpa [foldPath] using hpre
    rw [saved, map_cons, nodup_cons]
    constructor
    · intro hmem
      obtain ⟨x, hx, heq⟩ := mem_map.mp hmem
      obtain ⟨k, hk, hx⟩ := mem_flatMap.mp hx
      have hpre := hbelow k hk x hx
      rw [heq] at hpre
      exact not_append_prefix_self hpre
    · rw [map_flatMap, nodup_flatMap]
      refine ⟨fun k hk => ih (mem_savedChildren.mp hk).2.1, ?_⟩
      have hnodup : ((savedChildren o path node).map fun k => fold k.1).Nodup :=
        nodup_savedChildren (Inv.nodeOk h hnode)
      rw [nodup_iff_pairwise_ne, pairwise_map] at hnodup
      refine (List.Pairwise.and_mem.mp hnodup).imp ?_
      rintro k k' ⟨hk, hk', hne⟩ j hj hj'
      obtain ⟨x, hx, rfl⟩ := mem_map.mp hj
      obtain ⟨x', hx', heq⟩ := mem_map.mp hj'
      have hpre := hbelow k hk x hx
      have hpre' := hbelow k' hk' x' hx'
      rw [heq] at hpre'
      have hsame := prefix_of_prefix_length_le hpre hpre' (by simp)
      have heq := hsame.eq_of_length (by simp)
      exact hne (by simpa using heq)

theorem node_eq_some (hn : o.node path = some n) :
    ∃ e, o.entries.lookup (foldPath path) = some e ∧ e.node = n :=
  Option.map_eq_some_iff.mp hn

theorem mem_of_node (hn : o.node path = some n) : foldPath path ∈ o.entries := by
  obtain ⟨e, he, -⟩ := node_eq_some hn
  exact mem_of_lookup he

theorem nodeOk_savedNode (h : NodeOk n) : NodeOk (savedNode o path n) := by
  refine ⟨h.values_unique, h.values_disjoint, h.tombstones_unique, h.tombstones_folded, ?_⟩
  intro c sp st hc
  exact h.children_folded c sp st ((lookup_savedNode h c sp st).mp hc).1

theorem rooted_saved (h : o.Inv)
    (hroot : foldPath path = root) (hnode : o.node path = some node)
    (hfuel : encodeFuel o < fuel + path.length) : Rooted (saved o fuel path node) := by
  refine ⟨nodup_saved h fuel hnode, ?_, ?_, ?_⟩
  · intro x hx
    obtain ⟨-, n, hn, hxn⟩ := mem_saved_node hnode hx
    rw [hxn]
    exact nodeOk_savedNode (Inv.nodeOk h hn)
  · intro x hx
    rcases saved_up hnode hx with htop | ⟨q, n, kid, hq, hqin, hkid, hxq⟩
    · exact Or.inl (by rw [htop, hroot])
    · obtain ⟨c, hc⟩ := (mem_savedChildren.mp hkid).1
      have hfold := (Inv.nodeOk h hq).children_folded c _ _ hc
      refine Or.inr ⟨_, hqin, kid.1, hxq, (lookup_savedNode (Inv.nodeOk h hq) _ _ _).mpr ?_⟩
      exact ⟨hfold ▸ hc, fun _ => mem_map_of_mem hkid⟩
  · intro y hy c sp hsp
    obtain ⟨-, n, hn, hyn⟩ := mem_saved_node hnode hy
    obtain ⟨q, m⟩ := y
    dsimp only at hn hyn hsp ⊢
    subst hyn
    obtain ⟨-, hsaved⟩ := (lookup_savedNode (Inv.nodeOk h hn) c sp _).mp hsp
    obtain ⟨kid, hkid, rfl⟩ := mem_map.mp (hsaved rfl)
    exact ⟨_, saved_down hnode hfuel hn hy hkid, rfl⟩

theorem inherits_saved (h : o.Inv)
    (hnode : o.node path = some node) : Inherits (saved o fuel path node) := by
  intro x hx y hy name hxy hcreated
  obtain ⟨-, n, hn, hxn⟩ := mem_saved_node hnode hx
  obtain ⟨-, m, hm, hym⟩ := mem_saved_node hnode hy
  obtain ⟨e, he, rfl⟩ := node_eq_some hn
  obtain ⟨pe, hpe, rfl⟩ := node_eq_some hm
  rw [hxy, Overlay.foldPath_append] at he
  rw [hym] at hcreated
  rw [hxn]
  exact (h.under _ _ pe e hpe he).2 hcreated

def savedRoot (o : Overlay) : List (Path × Node) :=
  match firstEntry o with
  | some e =>
    if !e.node.volatile && e.path.length = 2 then saved o (encodeFuel o) e.path e.node else []
  | none => []

omit [ToLowercase] in
theorem firstEntry_mem (he : firstEntry o = some e) : ∃ k, o.entries.lookup k = some e := by
  have hmem := mem_of_mem_head? he
  obtain ⟨r, hr, rfl⟩ := mem_map.mp hmem
  have hr' := (perm_insertionSort _ _).mem_iff.mp hr
  exact ⟨r.1, mem_lookup_iff.mpr hr'⟩

omit [ToLowercase] in
theorem le_append (l t : Str) : l ≤ l ++ t := by
  induction l with
  | nil =>
    cases t with
    | nil => exact le_rfl
    | cons c t => exact le_of_lt List.Lex.nil
  | cons c l ih => exact cons_le_cons c ih

theorem firstEntry_of_root (h : o.Inv) (he : o.entries.lookup root = some e) :
    firstEntry o = some e := by
  set rel := fun a b : (_ : Path) × Entry =>
    intercalate ['\\'] a.1 ≤ intercalate ['\\'] b.1 with hrel
  have hperm := perm_insertionSort rel o.entries.entries
  have hin : (⟨root, e⟩ : (_ : Path) × Entry) ∈ o.entries.entries.insertionSort rel :=
    hperm.mem_iff.mpr (mem_lookup_iff.mp he)
  have htotal : Std.Total rel := ⟨fun a b => Std.le_total⟩
  have htrans : IsTrans _ rel := ⟨fun a b c hab hbc => Std.le_trans hab hbc⟩
  have hsorted := pairwise_insertionSort rel o.entries.entries
  unfold firstEntry
  cases hl : o.entries.entries.insertionSort rel with
  | nil =>
    rw [hl] at hin
    simp at hin
  | cons x l =>
    have hx : o.entries.lookup x.1 = some x.2 :=
      mem_lookup_iff.mpr (hperm.mem_iff.mp (by rw [hl]; exact mem_cons_self))
    suffices hroot : x.1 = root by
      rw [hroot, he] at hx
      cases hx
      rfl
    rw [hl] at hin hsorted
    rcases mem_cons.mp hin with heq | hin
    · rw [← heq]
    · -- The least key is at most the root's and extends it.
      have hle : intercalate ['\\'] x.1 ≤ intercalate ['\\'] root :=
        rel_of_pairwise_cons hsorted hin
      obtain ⟨s, hs⟩ := h.tree.top x.1 (mem_of_lookup hx)
      have hext : intercalate ['\\'] x.1 =
          intercalate ['\\'] root ++ s.flatMap fun c => '\\' :: c := by
        rw [← hs]
        simp [root, intercalate_cons]
      have heq := le_antisymm hle (hext ▸ le_append _ _)
      have hnil := append_cancel_left
        ((hext.symm.trans heq).trans (append_nil _).symm)
      cases s with
      | nil => simpa using hs.symm
      | cons c s => simp at hnil

theorem root_of_firstEntry (h : o.Inv) (he : firstEntry o = some e) (hlen : e.path.length = 2) :
    foldPath e.path = root ∧ o.node e.path = some e.node := by
  obtain ⟨k, hk⟩ := firstEntry_mem he
  have hspell := h.spelled k e hk
  have htop := h.tree.top k (mem_of_lookup hk)
  have hklen : k.length = 2 := by rw [← hspell, foldPath, length_map, hlen]
  have hroot : root = k := htop.eq_of_length (by rw [hklen]; rfl)
  refine ⟨by rw [hspell, hroot], ?_⟩
  rw [Overlay.node, hspell, hk]
  rfl

theorem rooted_savedRoot (h : o.Inv) : Rooted (savedRoot o) ∧ Inherits (savedRoot o) := by
  have hnil : Rooted ([] : List (Path × Node)) ∧ Inherits [] := by
    refine ⟨⟨nodup_nil, ?_, ?_, ?_⟩, ?_⟩ <;> simp [Inherits]
  unfold savedRoot
  split
  · next r hr =>
      split_ifs with hif
      · simp only [Bool.and_eq_true, decide_eq_true_eq] at hif
        obtain ⟨hroot, hnode⟩ := root_of_firstEntry h hr hif.2
        exact ⟨rooted_saved h hroot hnode (by omega), inherits_saved h hnode⟩
      · exact hnil
  · exact hnil

theorem eq_of_foldPath_root {p : Path} (hp : foldPath p = root) : p = [[], leaf p] := by
  have hlen : p.length = 2 := by simpa [foldPath, root] using congrArg length hp
  obtain ⟨a, b, rfl⟩ := length_eq_two.mp hlen
  simp only [foldPath, root, map_cons, cons.injEq, fold_eq_nil] at hp
  rw [hp.1]
  rfl

theorem decodeRoot_encodeRoot (h : o.Inv) (hfits : Fits o) :
    Ends (decodeRoot (encodeRoot o)) fun x => x.1 = savedRoot o := by
  unfold encodeRoot savedRoot
  cases he : firstEntry o with
  | none => exact ends_pure rfl
  | some e =>
    dsimp only
    split_ifs with hif
    · simp only [Bool.and_eq_true, decide_eq_true_eq] at hif
      obtain ⟨hroot, hnode⟩ := root_of_firstEntry h he hif.2
      obtain ⟨k, hk⟩ := firstEntry_mem he
      have hspelling : (utf8 (leaf e.path)).length < 2 ^ 32 :=
        (hfits ⟨k, e⟩ (mem_lookup_iff.mp hk)).2
      have hfuel : encodeFuel o < encodeFuel o + e.path.length := by omega
      unfold decodeRoot
      simp only [cons_append, nil_append, Reader.u8_cons, ok_bind]
      rw [if_neg (by decide)]
      refine ends_unless fun _ => ?_
      refine (Reader.keyName_putStr hspelling _).bind ?_
      rintro x rfl
      refine ends_unless fun _ => ?_
      have hpath : e.path = [[], leaf e.path] := eq_of_foldPath_root hroot
      have hbody := decodeNode_encodeBody hfits (maxDecodeDepth + 1) (encodeFuel o) hnode hfuel []
      rw [append_nil] at hbody
      rw [← hpath]
      exact hbody.mono fun x hx => by rw [hx]
    · exact ends_pure rfl

def frame (r : List UInt8) : List UInt8 :=
  magic ++ r ++ LittleEndian.bytes 8 (checksum (magic ++ r)).toNat

def rebuild (r : List UInt8) : Except FormatError Overlay := do
  let (nodes, r) ← decodeRoot r
  if r ≠ [] then throw (.invalid "trailing bytes")
  let o ← insertNodes Overlay.new nodes
  return { o with version := 1 }

theorem decode_frame {r : List UInt8} (hr : 0 < r.length) : decode (frame r) = rebuild r := by
  set out := magic ++ r with hout
  have henc : frame r = out ++ LittleEndian.bytes 8 (checksum out).toNat := rfl
  have hmagic : magic.length = 8 := rfl
  have hout' : out.length = 8 + r.length := by rw [hout, length_append, hmagic]
  have hlen : (frame r).length = out.length + 8 := by
    rw [henc, length_append, LittleEndian.length_bytes]
  have hsplit : (frame r).splitAt ((frame r).length - 8) =
      (out, LittleEndian.bytes 8 (checksum out).toNat) := by
    rw [hlen, henc]
    simp
  have htake : (frame r).take 8 = magic := by
    rw [henc, hout, append_assoc, ← hmagic, take_left]
  have hsum : UInt64.ofNat (LittleEndian.value (LittleEndian.bytes 8 (checksum out).toNat)) =
      checksum out := by
    rw [LittleEndian.value_bytes_of_lt ((checksum out).toNat_lt.trans_le (by norm_num)),
      UInt64.ofNat_toNat]
  have hbody : out.drop magic.length = r := by rw [hout, drop_left]
  unfold decode
  rw [if_neg (by omega), if_neg (not_not.mpr htake), if_neg (by omega), hsplit]
  dsimp only
  rw [hsum, if_neg (not_not.mpr rfl), hbody]
  rfl

theorem decode_encode_eq (o : Overlay) : decode (encode o) = rebuild (encodeRoot o) := by
  have hroot : 0 < (encodeRoot o).length := by
    unfold encodeRoot
    split
    · split_ifs <;> simp
    · simp
  exact decode_frame hroot

theorem ends_decode_encode (h : o.Inv) (hfits : Fits o) :
    Ends (decode (encode o)) fun o' => o'.Inv := by
  rw [decode_encode_eq, rebuild]
  refine (decodeRoot_encodeRoot h hfits).bind ?_
  rintro ⟨nodes, r⟩ hnodes
  dsimp only at hnodes ⊢
  subst hnodes
  refine ends_unless fun _ => ?_
  obtain ⟨hrooted, hinherits⟩ := rooted_savedRoot h
  exact hrooted.holds.bind fun o' ho' => ends_pure ((ho'.inv hrooted hinherits).version 1)

end Saved

end AetherVfs.Registry.Format
