import AetherVfs.Lib.Transition
import AetherVfs.Registry.Effects

/-!
# Every mutator keeps the overlay a tree

The mutators are put together from the changes of the maps the invariant is known to survive;
a run of calls from the empty overlay keeps it by induction.
-/

namespace AetherVfs.Registry

open List

namespace Overlay

variable [ToLowercase]

section Mutators

open Outcome

variable {o : Overlay} {path : Path} {now : UInt64}

theorem valueKeys_putValue (name : Str) (ty : UInt32) (data : List UInt8) (vs : List Value) :
    (putValue name ty data vs).map (fun x => fold x.name) =
      if fold name ∈ vs.map (fun x => fold x.name) then vs.map (fun x => fold x.name)
      else vs.map (fun x => fold x.name) ++ [fold name] := by
  induction vs with
  | nil => simp [putValue]
  | cons x xs ih =>
    by_cases hx : fold x.name = fold name
    · simp [putValue, hx]
    · have hx' : fold name ≠ fold x.name := fun heq => hx heq.symm
      simp only [putValue, hx, if_false, map_cons, ih, mem_cons, hx', false_or]
      split_ifs <;> rfl

theorem nodeOk_setValue {n : Node} (h : NodeOk n) (name : Str) (ty : UInt32) (data : List UInt8)
    (now : UInt64) : NodeOk { n with
      valueTombstones := n.valueTombstones.filter fun t => t ≠ fold name
      values := putValue name ty data n.values
      lastWrite := now } := by
  refine ⟨?_, ?_, h.tombstones_unique.filter _, ?_, h.children_folded⟩
  · have hunique := h.values_unique
    simp only [Node.valueKeys, valueKeys_putValue] at hunique ⊢
    split_ifs with hin
    · exact hunique
    · exact hunique.append (nodup_singleton _) (by simpa using hin)
  · intro t ht
    obtain ⟨ht, hne⟩ := mem_filter.mp ht
    have hdisjoint := h.values_disjoint t ht
    simp only [Node.valueKeys, valueKeys_putValue] at hdisjoint ⊢
    split_ifs with hin
    · exact hdisjoint
    · rw [mem_append, mem_singleton]
      rintro (hv | rfl)
      · exact hdisjoint hv
      · simp at hne
  · intro t ht
    exact h.tombstones_folded t (mem_of_mem_filter ht)

theorem nodeOk_deleteValue {n : Node} (h : NodeOk n) (name : Str) (now : UInt64) : NodeOk { n with
      values := n.values.filter fun x => fold x.name ≠ fold name
      valueTombstones := if fold name ∈ n.valueTombstones then n.valueTombstones
        else n.valueTombstones ++ [fold name]
      lastWrite := now } := by
  have hkeys : ∀ t, t ∈ (n.values.filter fun x => fold x.name ≠ fold name).map
      (fun x => fold x.name) → t ∈ n.valueKeys ∧ t ≠ fold name := by
    intro t ht
    obtain ⟨x, hx, rfl⟩ := mem_map.mp ht
    obtain ⟨hx, hne⟩ := mem_filter.mp hx
    exact ⟨mem_map_of_mem hx, by simpa using hne⟩
  refine ⟨?_, ?_, ?_, ?_, h.children_folded⟩
  · exact h.values_unique.sublist (filter_sublist.map _)
  · intro t ht hv
    obtain ⟨hv, hne⟩ := hkeys t hv
    split_ifs at ht with hin
    · exact h.values_disjoint t ht hv
    · rcases mem_append.mp ht with ht | ht
      · exact h.values_disjoint t ht hv
      · exact hne (mem_singleton.mp ht)
  · split_ifs with hin
    · exact h.tombstones_unique
    · exact h.tombstones_unique.append (nodup_singleton _) (by simpa using hin)
  · intro t ht
    split_ifs at ht with hin
    · exact h.tombstones_folded t ht
    · rcases mem_append.mp ht with ht | ht
      · exact h.tombstones_folded t ht
      · rw [mem_singleton.mp ht, fold_fold]

theorem Inv.version (h : Inv o) (v : ℕ) : Inv { o with version := v } :=
  ⟨h.tree, h.spelled, h.node, h.under⟩

theorem Inv.edited (h : Inv o) (hvalid : validPath path = true) (real : Bool) {f : Entry → Entry}
    (hpath : ∀ e, (f e).path = e.path) (hchildren : ∀ e, (f e).node.children = e.node.children)
    (hcreated : ∀ e, (f e).node.created = e.node.created)
    (hnode : ∀ e, NodeOk e.node → NodeOk (f e).node) : Inv (o.edited path real now f) := by
  have hchain := (h.version (o.version + 1)).ensureChain hvalid real (o.version + 1) now
  exact (hchain.1.modify _ hpath hchildren hcreated hnode).mark _ _

theorem Inv.setValue (h : Inv o) (name : Str) (ty : UInt32) (data : List UInt8) :
    Ends (o.setValue path name ty data now) fun r => Inv r.2 := by
  intro r hr
  obtain ⟨⟨hvalid, -⟩, rfl⟩ := setValue_eq_ok.mp hr
  exact h.edited hvalid true (fun _ => rfl) (fun _ => rfl) (fun _ => rfl)
    fun e hok => nodeOk_setValue hok name ty data now

theorem Inv.deleteValue (h : Inv o) (name : Str) :
    Ends (o.deleteValue path name now) fun r => Inv r.2 := by
  intro r hr
  obtain ⟨⟨hvalid, -⟩, rfl⟩ := deleteValue_eq_ok.mp hr
  exact h.edited hvalid true (fun _ => rfl) (fun _ => rfl) (fun _ => rfl)
    fun e hok => nodeOk_deleteValue hok name now

theorem Inv.createKey (h : Inv o) (volatile realExists : Bool) :
    Ends (o.createKey path volatile realExists now) fun r => Inv r.2 := by
  intro r hr
  obtain ⟨⟨hvalid, -⟩, rfl⟩ := createKey_eq_ok.mp hr
  exact h.edited hvalid realExists (fun _ => rfl) (fun _ => rfl) (fun _ => rfl)
    fun e hok => ⟨hok.1, hok.2, hok.3, hok.4, hok.5⟩

theorem Inv.deleteKey (h : Inv o) : Ends (o.deleteKey path now) fun r => Inv r.2 := by
  intro r hr
  obtain ⟨pp, ⟨hvalid, hparent, -⟩, rfl⟩ := deleteKey_eq_ok.mp hr
  have hchain := (h.version (o.version + 1)).ensureChain (validPath_parent hvalid hparent).1
    true (o.version + 1) now
  exact (hchain.1.cut hchain.2).touchAncestors _ _

theorem Inv.renameKey (h : Inv o) (newLeaf : Str) :
    Ends (o.renameKey path newLeaf now) fun r => Inv r.2 := by
  intro r hr
  obtain ⟨pp, old, ⟨-, -, -, -, -, hren⟩, rfl⟩ := h.renameKey_eq_ok.mp hr
  exact hren.bumped.inv_renamed.touchAncestors _ _

theorem Inv.step (h : Inv o) (op : Op) : Inv (o.step op) := by
  have hends : Ends (o.call op) fun r => Inv r.2 := by
    cases op with
    | setValue path name ty data now => exact h.setValue name ty data
    | deleteValue path name now => exact h.deleteValue name
    | createKey path volatile realExists now => exact h.createKey volatile realExists
    | deleteKey path now => exact h.deleteKey
    | renameKey path newLeaf now => exact h.renameKey newLeaf
  unfold Overlay.step
  split
  · next v o' hcall => exact hends _ hcall
  · exact h

end Mutators

/-- A deleted key: one with a tombstone record, or one its parent's child list says is deleted. -/
def IsTombstone (o : Overlay) (t : Path) : Prop :=
  t ∈ o.tombs ∨ ∃ p c, t = p ++ [c] ∧ o.childState p c = some .tombstone

/-- The flat maps describe one tree of keys. -/
structure WellFormed (o : Overlay) : Prop where
  parent_lists : ∀ k ∈ o.entries, k ≠ root →
    ∃ p, parent k = some p ∧ p ∈ o.entries ∧ o.childState p (leaf k) = some .present
  present_has_node : ∀ k c, o.childState k c = some .present → k ++ [c] ∈ o.entries
  tombstone_has_none : ∀ k c, o.childState k c = some .tombstone → k ++ [c] ∉ o.entries
  none_below_tombstone : ∀ t k, o.IsTombstone t → t <+: k → k ∉ o.entries
  values_unique : ∀ k e, o.entries.lookup k = some e → e.node.valueKeys.Nodup
  values_disjoint : ∀ k e, o.entries.lookup k = some e →
    ∀ t ∈ e.node.valueTombstones, t ∉ e.node.valueKeys

omit [ToLowercase] in
theorem parent_concat {p : Path} (hp : 2 ≤ p.length) (c : Str) :
    parent (p ++ [c]) = some p ∧ leaf (p ++ [c]) = c := by
  refine ⟨?_, by simp [leaf, getLastD_eq_getLast?]⟩
  rcases p with _ | ⟨a, _ | ⟨b, rest⟩⟩
  · simp at hp
  · simp at hp
  · cases rest with
    | nil => rfl
    | cons d rest =>
      have hshape : a :: b :: d :: rest ++ [c] = a :: b :: d :: (rest ++ [c]) := rfl
      rw [hshape, parent, ← hshape, dropLast_concat]

theorem wellFormed_of_tree {o : Overlay}
    (htree : Tree (fun k => k ∈ o.entries) o.childState (fun k => k ∈ o.tombs))
    (hnode : ∀ k e, o.entries.lookup k = some e → NodeOk e.node) : WellFormed o := by
  refine ⟨?_, ?_, ?_, ?_, ?_, ?_⟩
  · intro k hk hne
    induction k using reverseRecOn with
    | nil => exact absurd hk htree.not_has_nil
    | append_singleton p c _ =>
      have hp : p ∈ o.entries := (htree.up p c hk).resolve_left hne
      obtain ⟨hparent, hleaf⟩ := parent_concat (htree.top p hp).length_le c
      refine ⟨p, hparent, hp, ?_⟩
      rw [hleaf]
      exact (htree.present_iff p c).mpr ⟨hp, hk⟩
  · intro k c hc
    exact ((htree.present_iff k c).mp hc).2
  · intro k c hc
    exact htree.not_has_of_tomb ((htree.tombstone_iff k c).mp hc)
  · rintro t k (ht | ⟨p, c, rfl, hc⟩) htk
    · exact htree.not_has_below_tomb ht htk
    · exact htree.not_has_below_tomb ((htree.tombstone_iff p c).mp hc) htk
  · exact fun k e he => (hnode k e he).values_unique
  · exact fun k e he => (hnode k e he).values_disjoint

theorem Inv.wellFormed {o : Overlay} (h : Inv o) : WellFormed o :=
  wellFormed_of_tree h.tree h.node

/-- After any sequence of calls, failing ones included, the overlay is one tree of keys. -/
theorem overlay_wellFormed (ops : List Op) : WellFormed (Transition.run step new ops) := by
  have hstep : ∀ o op, Inv o → Inv (step o op) := fun _ op h => h.step op
  exact (Transition.run_invariant hstep inv_new ops).wellFormed

end Overlay

end AetherVfs.Registry