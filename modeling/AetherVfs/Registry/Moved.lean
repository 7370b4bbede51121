import AetherVfs.Registry.Changed

/-!
# What `rename_key` moves

The whole effect of a successful rename on the keys: the subtree under its new name, the name it
left, and every other key.
-/

namespace AetherVfs.Registry

namespace Overlay

section

variable [ToLowercase]

/-- A key on its way to a new name: what it holds is what it held, and its stored path has the
new name in place of the old one, as its component number `i`. -/
structure MovedKey (i : ℕ) (newLeaf : Str) (e e' : Entry) : Prop where
  path : e'.path = e.path.set i newLeaf
  values : e'.node.values = e.node.values
  valueTombstones : e'.node.valueTombstones = e.node.valueTombstones
  children : e'.node.children = e.node.children
  volatile : e'.node.volatile = e.node.volatile

/-- A key that a rename does not move. -/
structure KeptKey (e e' : Entry) : Prop where
  path : e'.path = e.path
  values : e'.node.values = e.node.values
  valueTombstones : e'.node.valueTombstones = e.node.valueTombstones
  created : e'.node.created = e.node.created
  volatile : e'.node.volatile = e.node.volatile

/-- The key `p ++ [fold name]` and what is below it went to `newLeaf`, and nothing else moved. -/
structure Moved (o o' : Overlay) (p : Path) (name newLeaf : Str) : Prop where
  moved : ∀ r e, o.entries.lookup (p ++ [fold name] ++ r) = some e →
    ∃ e', o'.entries.lookup (p ++ [fold newLeaf] ++ r) = some e' ∧
      MovedKey p.length newLeaf e e'
  arrived : ∀ r, p ++ [fold newLeaf] ++ r ∈ o'.entries → p ++ [fold name] ++ r ∈ o.entries
  movedTombs : ∀ r, p ++ [fold newLeaf] ++ r ∈ o'.tombs ↔ p ++ [fold name] ++ r ∈ o.tombs
  left : fold newLeaf ≠ fold name → p ++ [fold name] ∈ o'.tombs
  kept : ∀ k, ¬ p ++ [fold name] <+: k → ¬ p ++ [fold newLeaf] <+: k →
    (k ∈ o'.entries ↔ k ∈ o.entries) ∧
      ∀ e e', o.entries.lookup k = some e → o'.entries.lookup k = some e' →
        KeptKey e e' ∧ (k ≠ p → e'.node.children = e.node.children ∧
          e'.node.lastWrite = e.node.lastWrite)
  keptTombs : ∀ k, ¬ p ++ [fold name] <+: k → ¬ p ++ [fold newLeaf] <+: k →
    (k ∈ o'.tombs ↔ k ∈ o.tombs)
  parent : ∀ e e', o.entries.lookup p = some e → o'.entries.lookup p = some e' →
    ∀ c, e'.node.children.lookup c =
      if c = fold newLeaf then some (newLeaf, .present)
      else if c = fold name then some (name, .tombstone)
      else e.node.children.lookup c

variable {o : Overlay} {p : Path} {old : Entry} {leafName newLeaf : Str} {v : ℕ} {now : UInt64}

omit [ToLowercase] in
theorem set_of_above {stored path : Path} {i : ℕ} (habove : stored <+: path)
    (hlen : stored.length = i + 1) (newLeaf : Str) :
    path.set i newLeaf = stored.dropLast ++ [newLeaf] ++ path.drop stored.length := by
  obtain ⟨t, rfl⟩ := habove
  rw [List.set_append_left _ _ (by omega), List.drop_left]
  congr 1
  obtain ⟨front, last, rfl⟩ : ∃ front last, stored = front ++ [last] :=
    ⟨stored.dropLast, stored.getLast (by rintro rfl; simp at hlen),
      (List.dropLast_append_getLast _).symm⟩
  have hi : i = front.length := by simpa using hlen.symm
  subst hi
  simp

theorem Renames.moved_renamed (h : Renames o p old (fold leafName) (fold newLeaf)) :
    Moved o (o.renamed p old leafName newLeaf (old.path.dropLast ++ [newLeaf]) v now) p leafName
      newLeaf := by
  set o' := o.renamed p old leafName newLeaf (old.path.dropLast ++ [newLeaf]) v now
  have hlookup : ∀ j, o'.entries.lookup j = _ := h.lookup_renamed _
  have htombs : ∀ j, j ∈ o'.tombs ↔ _ := h.mem_tombs_renamed _
  have hmem : ∀ {j}, j ∈ o'.entries ↔ _ := h.mem_renamed
  have hbelow : ∀ r, p ++ [fold newLeaf] <+: p ++ [fold newLeaf] ++ r :=
    fun r => List.prefix_append _ r
  refine ⟨?_, ?_, ?_, ?_, ?_, ?_, ?_⟩
  · intro r e he
    have hlen : old.path.length = p.length + 1 := by
      have hspelled := congrArg List.length (h.inv.spelled _ _ h.old)
      simpa [foldPath] using hspelled
    refine ⟨_, by rw [hlookup, if_pos (hbelow r), Tree.source_append, he]; rfl, ?_⟩
    constructor
    · rw [(movedTo_fields ..).1, set_of_above (h.inv.path_above h.old he) hlen]
    all_goals simp
  · intro r hin
    rwa [hmem, if_pos (hbelow r), Tree.source_append] at hin
  · intro r
    rw [htombs, if_pos (hbelow r), Tree.source_append]
  · intro hcase
    have hbeside : ¬ p ++ [fold newLeaf] <+: p ++ [fold leafName] := by
      simpa [eq_comm] using hcase
    rw [htombs, if_neg hbeside]
    exact Or.inr rfl
  · intro k hname hnew
    refine ⟨by simp [hmem, hname, hnew], fun e e' he he' => ?_⟩
    rw [hlookup, if_neg hnew, if_neg hname, he] at he'
    cases he'
    refine ⟨⟨by simp, by simp, by simp, by simp, by simp⟩, fun hkp => ?_⟩
    rw [stayed_of_ne k hkp]
    exact ⟨rfl, rfl⟩
  · intro k hname hnew
    have hne : k ≠ p ++ [fold leafName] := fun heq => hname (heq ▸ List.prefix_rfl)
    simp [htombs, hname, hnew, hne]
  · intro e e' he he' c
    rw [hlookup, if_neg not_append_prefix_self, if_neg not_append_prefix_self, he] at he'
    cases he'
    simp [lookup_stayed]

theorem Moved.restamped {o₁ o₂ : Overlay} (h : Moved o o₁ p leafName newLeaf)
    {g : Path → Entry → Entry} (hlookup : ∀ k, o₂.entries.lookup k = (o₁.entries.lookup k).map (g k))
    (hg : ∀ k e, (g k e).path = e.path ∧ (g k e).node = e.node) (htombs : o₂.tombs = o₁.tombs) :
    Moved o o₂ p leafName newLeaf := by
  have hmem : ∀ k, k ∈ o₂.entries ↔ k ∈ o₁.entries := by
    intro k
    rw [← AList.lookup_isSome, hlookup, Option.isSome_map, AList.lookup_isSome]
  have hback : ∀ k e', o₂.entries.lookup k = some e' →
      ∃ e, o₁.entries.lookup k = some e ∧ e'.path = e.path ∧ e'.node = e.node := by
    intro k e' he'
    rw [hlookup] at he'
    obtain ⟨e, he, rfl⟩ := Option.map_eq_some_iff.mp he'
    exact ⟨e, he, hg k e⟩
  refine ⟨?_, ?_, ?_, ?_, ?_, ?_, ?_⟩
  · intro r e he
    obtain ⟨e', he', hpath, hvalues, hvalueTombs, hchildren, hvolatile⟩ := h.moved r e he
    obtain ⟨hgpath, hgnode⟩ := hg (p ++ [fold newLeaf] ++ r) e'
    refine ⟨_, by rw [hlookup, he', Option.map_some], ?_⟩
    constructor
    · rw [hgpath, hpath]
    all_goals rw [hgnode]
    · exact hvalues
    · exact hvalueTombs
    · exact hchildren
    · exact hvolatile
  · intro r hin
    exact h.arrived r ((hmem _).mp hin)
  · intro r
    rw [htombs]
    exact h.movedTombs r
  · rw [htombs]
    exact h.left
  · intro k hname hnew
    obtain ⟨hsame, hkept⟩ := h.kept k hname hnew
    refine ⟨(hmem k).trans hsame, ?_⟩
    intro e e₂ he he₂
    obtain ⟨e₁, he₁, hpath, hnode⟩ := hback k e₂ he₂
    obtain ⟨⟨hp₁, hv₁, ht₁, hc₁, hvol₁⟩, hrest⟩ := hkept e e₁ he he₁
    refine ⟨⟨hpath.trans hp₁, ?_, ?_, ?_, ?_⟩, ?_⟩
    all_goals rw [hnode]
    · exact hv₁
    · exact ht₁
    · exact hc₁
    · exact hvol₁
    · exact hrest
  · intro k hname hnew
    rw [htombs]
    exact h.keptTombs k hname hnew
  · intro e e₂ he he₂
    obtain ⟨e₁, he₁, -, hnode⟩ := hback p e₂ he₂
    rw [hnode]
    exact h.parent e e₁ he he₁

/-- A successful rename moves the key with everything below it, and nothing else; unless the new
name differs from the old one in case only, the old name is deleted. -/
theorem renameKey_moves_subtree (h : Inv o) {path : Path} {o' : Overlay}
    (hok : o.renameKey path newLeaf now = .ok (v, o')) :
    ∃ pp, parent path = some pp ∧ foldPath path = foldPath pp ++ [fold (leaf path)] ∧
      Moved o o' (foldPath pp) (leaf path) newLeaf ∧
      (fold newLeaf ≠ fold (leaf path) →
        (o'.lookup path).1 = .tombstoned ∧ ∀ r, foldPath path ++ r ∉ o'.entries) := by
  have hinv : Inv o' := h.renameKey newLeaf _ hok
  obtain ⟨pp, old, ⟨hvalid, -, -, -, hparent, hren⟩, hr⟩ := h.renameKey_eq_ok.mp hok
  obtain ⟨rfl, rfl⟩ := Prod.mk.inj hr
  have hpath := foldPath_parent hvalid hparent
  have hpp := (validPath_parent hvalid hparent).1
  have hmoved : Moved o (o.bumped.renamed (foldPath pp) old (leaf path) newLeaf
      (old.path.dropLast ++ [newLeaf]) (o.version + 1) now) (foldPath pp) (leaf path) newLeaf := by
    obtain ⟨hmoved, harrived, hmovedTombs, hleft, hkept, hkeptTombs, hat⟩ :=
      hren.bumped.moved_renamed (v := o.version + 1)
    exact ⟨hmoved, harrived, hmovedTombs, hleft, hkept, hkeptTombs, hat⟩
  have hstamped := hmoved.restamped (lookup_touchAncestors hpp _ (o.version + 1))
    (fun k e => by split_ifs <;> exact ⟨rfl, rfl⟩) (touchAncestors_maps _ pp (o.version + 1)).1
  refine ⟨pp, hparent, hpath, hstamped, ?_⟩
  intro hcase
  have htomb := hstamped.left hcase
  rw [← hpath] at htomb
  have hgone : ∀ r, foldPath path ++ r ∉ _ :=
    fun r => hinv.tree.not_has_below_tomb htomb (List.prefix_append _ r)
  refine ⟨?_, hgone⟩
  have hnone := hgone []
  rw [List.append_nil] at hnone
  have hdead := (hinv.isTombstoned_iff hvalid).mpr ⟨_, List.prefix_rfl, htomb⟩
  simp [Overlay.lookup, hvalid, AList.lookup_eq_none.mpr hnone, hdead]

end

attribute [local instance] asciiLowercase

def keysAB : Overlay :=
  step new (.createKey [[], ['R', 'e', 'g', 'i', 's', 't', 'r', 'y'], ['a'], ['b']] false false 1)

def keyA : Path := [[], ['R', 'e', 'g', 'i', 's', 't', 'r', 'y'], ['a']]

theorem inv_keysAB : Inv keysAB := inv_new.step _

theorem renameKey_moves_subtree_keysAB : ∃ r, renameKey keysAB keyA ['z'] 2 = .ok r ∧
    ∃ pp, parent keyA = some pp ∧ Moved keysAB r.2 (foldPath pp) (leaf keyA) ['z'] := by
  refine ⟨_, rfl, ?_⟩
  obtain ⟨pp, hparent, -, hmoved, -⟩ :=
    @renameKey_moves_subtree _ keysAB ['z'] _ 2 inv_keysAB keyA _ rfl
  exact ⟨pp, hparent, hmoved⟩

/-- A rename that only changes the case of the name leaves no tombstone: the key is still
there. -/
theorem renameKey_case_only : ∃ r, renameKey keysAB keyA ['A'] 2 = .ok r ∧
    (lookup r.2 keyA).1 ≠ .tombstoned ∧ foldPath keyA ∈ r.2.entries := by
  refine ⟨_, rfl, ?_, ?_⟩
  · decide +kernel
  · decide +kernel

end Overlay

end AetherVfs.Registry
