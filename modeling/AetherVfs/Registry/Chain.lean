import AetherVfs.Registry.Merge

/-!
# What a chain of new keys changes

`ensure_chain` gives every key on the way to a path a node. `Grown` says all it does: the nodes
that were there list the new ones below them and are otherwise as they were, a new node is
empty, and it is created-here exactly when the real key could not show there, or the caller said
there is none.
-/

namespace AetherVfs.Registry

open List Table

namespace Overlay

/-- An entry that at most got new children, in a change at version `v`. -/
structure Widened (v : ℕ) (e e' : Entry) : Prop where
  path : e'.path = e.path
  values : e'.node.values = e.node.values
  valueTombstones : e'.node.valueTombstones = e.node.valueTombstones
  created : e'.node.created = e.node.created
  subtree : e'.subtree = e.subtree
  stamped : e' = e ∨ e'.changed = v

theorem widened_refl (v : ℕ) (e : Entry) : Widened v e e :=
  ⟨rfl, rfl, rfl, rfl, rfl, Or.inl rfl⟩

structure Fresh (v : ℕ) (e : Entry) : Prop where
  changed : e.changed = v
  values : e.node.values = []
  valueTombstones : e.node.valueTombstones = []
  volatile : e.node.volatile = false

structure Grown (o o' : Overlay) (t : Path) (real : Bool) (v : ℕ) : Prop where
  kept : ∀ k e, o.entries.lookup k = some e → ∃ e', o'.entries.lookup k = some e' ∧
    Widened v e e' ∧ (e' = e ∨ k <+: t) ∧
      ∀ c, (k ++ [c] ∈ o'.entries → k ++ [c] ∈ o.entries) →
        e'.node.children.lookup c = e.node.children.lookup c
  way : ∀ k, k ∈ o'.entries → k ∉ o.entries → k <+: t
  fresh : ∀ k e', o'.entries.lookup k = some e' → k ∉ o.entries → Fresh v e'
  freshChildren : ∀ k e' c, o'.entries.lookup k = some e' → k ∉ o.entries →
    e'.node.children.lookup c ≠ none → k ++ [c] ∈ o'.entries
  created : ∀ k e', o'.entries.lookup k = some e' → k ∉ o.entries →
    (e'.node.created = true ↔ o.hidden k = true ∨ (k = t ∧ real = false))
  tombs : ∀ a, a ∈ o'.tombs ↔ a ∈ o.tombs ∧ a ∉ o'.entries
  deletedAt : o'.deletedAt = o.deletedAt
  deletedFloor : o'.deletedFloor = o.deletedFloor

variable [ToLowercase] {o : Overlay} {t : Path} {real : Bool} {v : ℕ} {now : UInt64}

theorem Inv.grown_refl (h : Inv o) (t : Path) (real : Bool) (v : ℕ) : Grown o o t real v := by
  refine ⟨fun k e he => ⟨e, he, widened_refl v e, Or.inl rfl, fun _ _ => rfl⟩, fun k hk hno => absurd hk hno,
    fun k e' he' hno => ?_, fun k e' c he' hno => ?_, fun k e' he' hno => ?_, fun a => ?_, rfl, rfl⟩
  · exact absurd (mem_of_lookup he') hno
  · exact absurd (mem_of_lookup he') hno
  · exact absurd (mem_of_lookup he') hno
  · exact ⟨fun ha => ⟨ha, h.tree.not_has_of_tomb ha⟩, And.left⟩

variable {o' o₁ : Overlay} {k : Path} {plain : Bool}

omit [ToLowercase] in
theorem Grown.mem (h : Grown o o' t real v) (hk : k ∈ o.entries) : k ∈ o'.entries := by
  obtain ⟨e, he⟩ := exists_lookup hk
  obtain ⟨e', he', -⟩ := h.kept k e he
  exact mem_of_lookup he'

omit [ToLowercase] in
theorem hidden_of_above {j : Path} (hjk : j <+: k) (hhid : o.hidden j = true) :
    o.hidden k = true := by
  rcases hidden_iff.mp hhid with ⟨a, ha, ht⟩ | ⟨a, e, ha, hne, he, hcr⟩
  · exact hidden_iff.mpr (Or.inl ⟨a, ha.trans hjk, ht⟩)
  · refine hidden_iff.mpr (Or.inr ⟨a, e, ha.trans hjk, ?_, he, hcr⟩)
    rintro rfl
    exact hne (ha.eq_of_length_le hjk.length_le)

/-- What hides a child: its own tombstone, its parent when it is created here, or what hides
its parent. -/
theorem Inv.hidden_concat (h : Inv o) {c : Str} : o.hidden (k ++ [c]) = true ↔
    k ++ [c] ∈ o.tombs ∨ (∃ e, o.entries.lookup k = some e ∧ e.node.created = true) ∨
      (k ∉ o.entries ∧ o.hidden k = true) := by
  constructor
  · intro hhid
    rcases hidden_iff.mp hhid with ⟨a, ha, ht⟩ | ⟨a, e, ha, hne, he, hcr⟩
    · rcases prefix_concat_iff.mp ha with rfl | ha
      · exact Or.inl ht
      · exact Or.inr (Or.inr ⟨h.tree.not_has_below_tomb ht ha,
          hidden_iff.mpr (Or.inl ⟨a, ha, ht⟩)⟩)
    · rcases prefix_concat_iff.mp ha with rfl | ha
      · exact absurd rfl hne
      · cases hk : o.entries.lookup k with
        | none =>
          refine Or.inr (Or.inr ⟨AList.lookup_eq_none.mp hk,
            hidden_iff.mpr (Or.inr ⟨a, e, ha, ?_, he, hcr⟩)⟩)
          rintro rfl
          rw [hk] at he
          cases he
        | some d =>
          obtain ⟨s, rfl⟩ := ha
          exact Or.inr (Or.inl ⟨d, rfl, h.created_below he hk hcr⟩)
  · rintro (ht | ⟨e, he, hcr⟩ | ⟨-, hhid⟩)
    · exact hidden_iff.mpr (Or.inl ⟨_, prefix_rfl, ht⟩)
    · exact hidden_iff.mpr (Or.inr ⟨k, e, prefix_append _ _, by simp, he, hcr⟩)
    · exact hidden_of_above (prefix_append _ _) hhid

theorem Inv.hidden_of_below_absent (h : Inv o) {j : Path} (htop : root <+: j) (hj : j ∉ o.entries)
    (hjk : j <+: k) (hhid : o.hidden k = true) : o.hidden j = true := by
  have hbelow : ∀ a, a ∈ o.entries → ¬ j <+: a := fun a ha hja =>
    hj (h.tree.has_above ha htop hja)
  rcases hidden_iff.mp hhid with ⟨a, ha, ht⟩ | ⟨a, e, ha, -, he, hcr⟩
  · rcases prefix_or_prefix_of_prefix hjk ha with hja | haj
    · induction a using reverseRecOn with
      | nil => exact absurd ht h.tree.tomb_nil
      | append_singleton a c _ =>
        rcases prefix_concat_iff.mp hja with rfl | hja
        · exact hidden_iff.mpr (Or.inl ⟨_, prefix_rfl, ht⟩)
        · exact absurd hja (hbelow a (h.tree.has_of_tomb ht))
    · exact hidden_iff.mpr (Or.inl ⟨a, haj, ht⟩)
  · have hain : a ∈ o.entries := mem_of_lookup he
    have haj := (List.prefix_or_prefix_of_prefix hjk ha).resolve_left (hbelow a hain)
    refine hidden_iff.mpr (Or.inr ⟨a, e, haj, ?_, he, hcr⟩)
    rintro rfl
    exact hj hain

theorem Inv.not_hidden_root (h : Inv o) : ¬ o.hidden root = true := by
  intro hhid
  rcases hidden_iff.mp hhid with ⟨a, ha, ht⟩ | ⟨a, e, ha, hne, he, -⟩
  · have htop := h.root_prefix_tomb ht
    have heq := htop.eq_of_length_le ha.length_le
    have hshape : a = [[]] ++ [registry] := heq.symm
    rw [hshape] at ht
    have hlen := (h.tree.top _ (h.tree.has_of_tomb ht)).length_le
    simp [root] at hlen
  · have htop := h.tree.top a (mem_of_lookup he)
    exact hne (ha.eq_of_length_le htop.length_le)

theorem Grown.addRoot (hg : Grown o o₁ t real v) (h : Inv o) (h₁ : Inv o₁) {r : Str}
    (hr : fold r = registry) (hnone : root ∉ o₁.entries) (hway : root <+: t)
    (hplain : plain = false ↔ root = t ∧ real = false) :
    Grown o (o₁.addNode none [[], r] r plain v now) t real v := by
  have hfold : foldPath [[], r] = root := by simp [foldPath, hr, root]
  have hempty₁ : ∀ j, j ∉ o₁.entries := h₁.tree.not_has_of_not_root hnone
  have htomb : root ∉ o₁.tombs := fun ht =>
    h₁.not_hidden_root (hidden_iff.mpr (Or.inl ⟨root, prefix_rfl, ht⟩))
  have hmem : ∀ a, a ∈ (o₁.addNode none [[], r] r plain v now).entries ↔ a = root := by
    intro a
    simp only [addNode, AList.mem_insert, hfold, hempty₁, or_false]
  refine ⟨?_, ?_, ?_, ?_, ?_, ?_, hg.deletedAt, hg.deletedFloor⟩
  · intro k e he
    exact absurd (hg.mem (mem_of_lookup he)) (hempty₁ k)
  · intro k hk _
    rw [(hmem k).mp hk]
    exact hway
  · intro k e' he' _
    obtain ⟨rfl, rfl⟩ := (h₁.lookup_addNode_root hfold hnone).mp he'
    exact ⟨rfl, rfl, rfl, rfl⟩
  · intro k e' c he' _ hc
    obtain ⟨rfl, rfl⟩ := (h₁.lookup_addNode_root hfold hnone).mp he'
    exact absurd rfl hc
  · intro k e' he' _
    obtain ⟨rfl, rfl⟩ := (h₁.lookup_addNode_root hfold hnone).mp he'
    have hhid := h.not_hidden_root
    simp [freshEntry, hfold, htomb, hplain, hhid]
  · intro a
    rw [tombs_addNode, AList.mem_erase, hfold, hg.tombs, hmem]
    have := hempty₁ a
    tauto

/-- A new node is created-here when the real key could not show at it. -/
theorem Grown.created_freshEntry (hg : Grown o o₁ t real v) (h : Inv o) (h₁ : Inv o₁) {pe : Entry}
    {comp : Str} (hpe : o₁.entries.lookup (foldPath pe.path) = some pe)
    (hnone : foldPath pe.path ++ [fold comp] ∉ o₁.entries)
    (hway : foldPath pe.path ++ [fold comp] <+: t)
    (hplain : plain = false ↔ foldPath pe.path ++ [fold comp] = t ∧ real = false) :
    (o₁.freshEntry (some (foldPath pe.path)) (pe.path ++ [comp]) comp plain v
        now).node.created = true ↔
      o.hidden (foldPath pe.path ++ [fold comp]) = true ∨
        (foldPath pe.path ++ [fold comp] = t ∧ real = false) := by
  have hlisted : ((pe.node.children.lookup (fold comp)).any fun c => c.2 = .tombstone) = true ↔
      foldPath pe.path ++ [fold comp] ∈ o₁.tombs := by
    rw [← h₁.tree.tombstone_iff, childState_of_lookup hpe]
    cases pe.node.children.lookup (fold comp) <;> simp
  have hparent : pe.node.created = true ↔
      (∃ e, o.entries.lookup (foldPath pe.path) = some e ∧ e.node.created = true) ∨
        (foldPath pe.path ∉ o.entries ∧ o.hidden (foldPath pe.path) = true) := by
    cases hold : o.entries.lookup (foldPath pe.path) with
    | some e =>
      obtain ⟨e', he', hwide, -, -⟩ := hg.kept _ e hold
      rw [hpe] at he'
      cases he'
      simp [hwide.created, mem_of_lookup hold]
    | none =>
      have hout := AList.lookup_eq_none.mp hold
      have hshort : foldPath pe.path ≠ t := by
        rintro rfl
        exact not_append_prefix_self hway
      simp [hg.created _ pe hpe hout, hout, hshort]
  have hkey : foldPath (pe.path ++ [comp]) = foldPath pe.path ++ [fold comp] := foldPath_append _ _
  simp only [freshEntry, hkey, Option.bind_some, hpe, Option.map_some, Option.any_some,
    Bool.or_eq_true, decide_eq_true_eq, Bool.not_eq_true', hlisted, or_self, hg.tombs,
    hnone, not_false_eq_true, and_true]
  rw [hparent, hplain, h.hidden_concat]

theorem Grown.addBelow (hg : Grown o o₁ t real v) (h : Inv o) (h₁ : Inv o₁) {pe : Entry}
    {comp : Str} (hpe : o₁.entries.lookup (foldPath pe.path) = some pe)
    (hnone : foldPath (pe.path ++ [comp]) ∉ o₁.entries) (hway : foldPath (pe.path ++ [comp]) <+: t)
    (hplain : plain = false ↔ foldPath (pe.path ++ [comp]) = t ∧ real = false) :
    Grown o (o₁.addNode (some (foldPath pe.path)) (pe.path ++ [comp]) comp plain v now)
      t real v := by
  have hkey : foldPath (pe.path ++ [comp]) = foldPath pe.path ++ [fold comp] := foldPath_append _ _
  rw [hkey] at hnone hway hplain
  have hkey₀ : foldPath pe.path ++ [fold comp] ∉ o.entries := fun hin => hnone (hg.mem hin)
  refine ⟨?_, ?_, ?_, ?_, ?_, ?_, hg.deletedAt, hg.deletedFloor⟩
  · intro k e he
    obtain ⟨e₁, he₁, hwide, hon, hsame⟩ := hg.kept k e he
    simp only [lookup_addNode_below hpe, mem_addNode_below hpe]
    by_cases hkpk : k = foldPath pe.path
    · subst hkpk
      rw [hpe] at he₁
      cases he₁
      refine ⟨setChild comp .present v now pe, if_pos rfl,
        ⟨hwide.path, hwide.values, hwide.valueTombstones, hwide.created, hwide.subtree,
          Or.inr rfl⟩, Or.inr ((prefix_append _ _).trans hway), fun c hc => ?_⟩
      simp only [setChild, lookup_insert_eq_ite]
      grind
    · have hold : k ≠ foldPath pe.path ++ [fold comp] := fun heq =>
        hkey₀ (heq ▸ mem_of_lookup he)
      exact ⟨e₁, by rw [if_neg hkpk, if_neg hold, he₁], hwide, hon,
        fun c hc => hsame c fun hin => hc (Or.inr hin)⟩
  · intro k hk hout
    rcases (mem_addNode_below hpe).mp hk with rfl | hk
    · exact hway
    · exact hg.way k hk hout
  · intro k e' he' hout
    rcases lookup_addNode_cases hpe he' with ⟨rfl, rfl⟩ | ⟨rfl, rfl⟩ | ⟨-, -, he'⟩
    · have hfresh := hg.fresh _ pe hpe hout
      exact ⟨rfl, hfresh.values, hfresh.valueTombstones, hfresh.volatile⟩
    · exact ⟨rfl, rfl, rfl, rfl⟩
    · exact hg.fresh k e' he' hout
  · intro k e' c he' hout hc
    rw [mem_addNode_below hpe]
    rcases lookup_addNode_cases hpe he' with ⟨rfl, rfl⟩ | ⟨rfl, rfl⟩ | ⟨-, -, he'⟩
    · have hchild := hg.freshChildren _ pe c hpe hout
      simp only [setChild, lookup_insert_eq_ite] at hc
      grind
    · exact absurd rfl hc
    · exact Or.inr (hg.freshChildren k e' c he' hout hc)
  · intro k e' he' hout
    rcases lookup_addNode_cases hpe he' with ⟨rfl, rfl⟩ | ⟨rfl, rfl⟩ | ⟨-, -, he'⟩
    · exact hg.created _ pe hpe hout
    · exact hg.created_freshEntry h h₁ hpe hnone hway hplain
    · exact hg.created k e' he' hout
  · intro a
    rw [tombs_addNode, AList.mem_erase, hkey, hg.tombs, mem_addNode_below hpe, not_or]
    tauto

theorem Inv.grown_ensureChain (h : Inv o) {path : Path} (hpath : validPath path = true)
    (real : Bool) (v : ℕ) (now : UInt64) :
    Grown o (o.ensureChain path real v now) (foldPath path) real v := by
  refine h.ensureChain_induct (P := fun o' => Grown o o' (foldPath path) real v)
    hpath (h.grown_refl _ real v) ?_ ?_
  · intro o₁ r plain h₁ hg hr hnone hway hplain
    exact hg.addRoot h h₁ hr hnone hway hplain
  · intro o₁ pe comp plain h₁ hg hpe hnone hway hplain
    exact hg.addBelow h h₁ hpe hnone hway hplain

omit [ToLowercase] in
theorem Grown.of_bumped (hg : Grown o.bumped o' t real v) : Grown o o' t real v :=
  ⟨hg.kept, hg.way, hg.fresh, hg.freshChildren, hg.created, hg.tombs, hg.deletedAt,
    hg.deletedFloor⟩

theorem Grown.hides (hg : Grown o o' t real v) (h : Inv o)
    (hk : o.hidden k = true ∨ k ∈ o.entries) : o'.hidden k = true ∨ k ∈ o'.entries := by
  rcases hk with hhid | hin
  · rcases hidden_iff.mp hhid with ⟨a, ha, ht⟩ | ⟨a, e, ha, hne, he, hcr⟩
    · by_cases hin : a ∈ o'.entries
      · -- A deleted key that got a node again is created-here.
        obtain ⟨e', he'⟩ := exists_lookup hin
        have hcr := (hg.created a e' he' (h.tree.not_has_of_tomb ht)).mpr
          (Or.inl (hidden_iff.mpr (Or.inl ⟨a, prefix_rfl, ht⟩)))
        by_cases hak : a = k
        · exact Or.inr (hak ▸ hin)
        · exact Or.inl (hidden_iff.mpr (Or.inr ⟨a, e', ha, hak, he', hcr⟩))
      · exact Or.inl (hidden_iff.mpr (Or.inl ⟨a, ha, (hg.tombs a).mpr ⟨ht, hin⟩⟩))
    · obtain ⟨e', he', hwide, -⟩ := hg.kept a e he
      exact Or.inl (hidden_iff.mpr (Or.inr ⟨a, e', ha, hne, he', hwide.created.trans hcr⟩))
  · exact Or.inr (hg.mem hin)

end Overlay

end AetherVfs.Registry
