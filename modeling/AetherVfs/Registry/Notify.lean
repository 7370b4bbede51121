import AetherVfs.Registry.Changed

/-!
# A key that is not reported as changed is as it was

`changed_since` against any earlier version of a run. What the overlay itself holds of a key is
compared with no assumption; the merged view also depends on the real registry, and is compared
for the real registries that the calls are right about: a key is created, or renamed to a name,
only where no real key shows.
-/

namespace AetherVfs.Registry

open List Transition

namespace Overlay

variable [ToLowercase] {o₀ o : Overlay} {p : Path}

theorem changedSince_eq_false (hp : validPath p = true) (subtree : Bool) (v : ℕ) :
    o.changedSince p subtree v = false ↔
      (∀ e, o.entries.lookup (foldPath p) = some e →
        e.changed ≤ v ∧ (subtree = true → e.subtree ≤ v)) ∧
      (foldPath p ∉ o.entries → ∀ q, OnWay q (foldPath p) → o.removed q ≤ v) := by
  cases he : o.entries.lookup (foldPath p) with
  | some e =>
    have hin : foldPath p ∈ o.entries := Table.mem_of_lookup he
    simp only [changedSince, he, Option.some.injEq, forall_eq', hin, not_true_eq_false,
      false_imp_iff, and_true]
    cases subtree <;> simp
  | none =>
    have hout : foldPath p ∉ o.entries := AList.lookup_eq_none.mp he
    have hway : ∀ q, q ∈ selfAndAncestors (foldPath p) ↔ OnWay q (foldPath p) := by
      intro q
      rw [selfAndAncestors_eq, mem_cons, ancestors_foldPath, mem_ancestors_foldPath hp]
      constructor
      · rintro (rfl | ⟨h1, h2, -⟩)
        · exact ⟨root_prefix_foldPath hp, prefix_rfl⟩
        · exact ⟨h1, h2⟩
      · rintro ⟨h1, h2⟩
        by_cases heq : q = foldPath p
        · exact Or.inl heq
        · exact Or.inr ⟨h1, h2, heq⟩
    have hfalse : o.changedSince p subtree v = false ↔
        (∀ q, OnWay q (foldPath p) → (o.deletedAt.lookup q).getD 0 ≤ v) ∧
          o.deletedFloor ≤ v := by
      simp only [changedSince, he, Bool.or_eq_false_iff, decide_eq_false_iff_not, not_lt,
        any_eq_false, hway]
      refine and_congr_left fun _ => forall₂_congr fun q _ => ?_
      cases o.deletedAt.lookup q <;> simp
    rw [hfalse]
    constructor
    · rintro ⟨hmarks, hfloor⟩
      exact ⟨nofun, fun _ q hq => max_le hfloor (hmarks q hq)⟩
    · rintro ⟨-, hquiet⟩
      have hquiet := hquiet hout
      refine ⟨fun q hq => (le_max_right _ _).trans (hquiet q hq), ?_⟩
      exact (le_max_left _ _).trans (hquiet _ ⟨root_prefix_foldPath hp, prefix_rfl⟩)

/-- The key `k` is as it was: the same node, and no new deletion where there is none. -/
structure Unchanged (o₀ o : Overlay) (k : Path) : Prop where
  record : o.book.record k = o₀.book.record k
  tombs : k ∉ o.entries → ∀ a, a <+: k → a ∈ o.tombs → a ∈ o₀.tombs

theorem Tracks.unchanged_own (ht : Tracks o₀ o) (h : Inv o) (hp : validPath p = true)
    (hquiet : o.changedSince p false o₀.version = false) : Unchanged o₀ o (foldPath p) := by
  obtain ⟨hentry, hnone⟩ := (changedSince_eq_false hp false _).mp hquiet
  by_cases hin : foldPath p ∈ o.entries
  · obtain ⟨e, he⟩ := Table.exists_lookup hin
    obtain ⟨hrecord, hchanged, -⟩ := book_of_lookup he
    refine ⟨ht.since.own _ ?_ ?_, fun hout => absurd hin hout⟩
    · rw [hrecord]
      exact Option.some_ne_none _
    · rw [hchanged]
      exact (hentry e he).1
  · have hquiet := hnone hin
    refine ⟨?_, fun _ a ha htomb => ?_⟩
    · have hrecord := record_eq_none.mpr hin
      rw [hrecord, ht.since.gone _ hrecord hquiet]
    · exact ht.tombs a htomb (hquiet a ⟨h.root_prefix_tomb htomb, ha⟩)

variable {k : Path} {R : Real}

theorem Tracks.unchanged_below (ht : Tracks o₀ o) (h₀ : Inv o₀) (h : Inv o)
    (hp : validPath p = true) (hquiet : o.changedSince p true o₀.version = false)
    (hk : foldPath p <+: k) : Unchanged o₀ o k := by
  obtain ⟨hentry, hnone⟩ := (changedSince_eq_false hp true _).mp hquiet
  have hroot := root_prefix_foldPath hp
  by_cases hin : foldPath p ∈ o.entries
  · obtain ⟨e, he⟩ := Table.exists_lookup hin
    obtain ⟨hrecord, hchanged, hsubtree⟩ := book_of_lookup he
    have hsame : ∀ j, foldPath p <+: j → o.book.record j = o₀.book.record j := by
      intro j hj
      refine ht.since.below (foldPath p) ?_ ?_ ?_ j ⟨hroot, hj⟩
      · rw [hrecord]
        exact Option.some_ne_none _
      · rw [hchanged]
        exact (hentry e he).1
      · rw [hsubtree]
        exact (hentry e he).2 rfl
    refine ⟨hsame k hk, fun _ a ha htomb => ?_⟩
    induction a using reverseRecOn with
    | nil => exact absurd htomb h.tree.tomb_nil
    | append_singleton a c _ =>
      have hstate := (h.tree.tombstone_iff a c).mpr htomb
      have hpa : foldPath p <+: a := by
        rcases prefix_or_prefix_of_prefix hk ha with hpa | hpa
        · rcases prefix_concat_iff.mp hpa with heq | hpa
          · exact absurd hin (heq ▸ h.tree.not_has_of_tomb htomb)
          · exact hpa
        · exact absurd hin (h.tree.not_has_below_tomb htomb hpa)
      refine (h₀.tree.tombstone_iff a c).mp ?_
      have hchild : ∀ o' : Overlay, o'.childState a c =
          (o'.book.record a).bind fun x => (x.2.children.lookup c).map Prod.snd := by
        intro o'
        cases hl : o'.entries.lookup a <;> simp [childState, book, hl]
      rw [hchild, ← hsame a hpa, ← hchild]
      exact hstate
  · have hquiet := hnone hin
    have hempty : ∀ o' : Overlay, Inv o' → foldPath p ∉ o'.entries → ∀ j, foldPath p <+: j →
        j ∉ o'.entries := fun o' h' hout j hj hjin =>
      hout (h'.tree.has_above hjin hroot hj)
    have hout₀ : foldPath p ∉ o₀.entries :=
      record_eq_none.mp (ht.since.gone _ (record_eq_none.mpr hin) hquiet)
    refine ⟨?_, fun _ a ha htomb => ?_⟩
    · rw [record_eq_none.mpr (hempty o h hin k hk), record_eq_none.mpr (hempty o₀ h₀ hout₀ k hk)]
    · have hap : a <+: foldPath p := by
        induction a using reverseRecOn with
        | nil => exact nil_prefix
        | append_singleton a c _ =>
          rcases prefix_or_prefix_of_prefix hk ha with hpa | hpa
          · rcases prefix_concat_iff.mp hpa with heq | hpa
            · exact heq ▸ prefix_rfl
            · exact absurd (h.tree.has_of_tomb htomb) (hempty o h hin a hpa)
          · exact hpa
      exact ht.tombs a htomb (hquiet a ⟨h.root_prefix_tomb htomb, hap⟩)

/-- The overlay says the same of the key at `p`: its values and its subkeys, and whether it is
there. One answer to `lookup` may differ: a key below a deleted one counts as absent once that one
is created again, and is still hidden by it. -/
structure SameAt (o₀ o : Overlay) (p : Path) : Prop where
  node : o.node p = o₀.node p
  there : (o.lookup p).1 = (o₀.lookup p).1 ∨ ((o₀.lookup p).1 = .tombstoned ∧
    (o.lookup p).1 = .absent ∧ o.belowCreated p = true)

theorem Unchanged.sameAt (hu : Unchanged o₀ o (foldPath p)) (ht : Tracks o₀ o) (h₀ : Inv o₀)
    (h : Inv o) (hp : validPath p = true) : SameAt o₀ o p := by
  have hnode : ∀ o' : Overlay, o'.node p = (o'.book.record (foldPath p)).map Prod.snd := by
    intro o'
    simp [Overlay.node, book, Function.comp_def]
  refine ⟨by rw [hnode, hu.record, ← hnode], ?_⟩
  cases he : o.entries.lookup (foldPath p) with
  | some e =>
    have hrecord := hu.record
    rw [(book_of_lookup he).1] at hrecord
    obtain ⟨e₀, he₀, heq⟩ := Option.map_eq_some_iff.mp hrecord.symm
    have hsame : e₀.node = e.node := (Prod.mk.inj heq).2
    refine Or.inl ?_
    simp [Overlay.lookup, hp, he, he₀, hsame]
  | none =>
    have hout : foldPath p ∉ o.entries := AList.lookup_eq_none.mp he
    have he₀ : o₀.entries.lookup (foldPath p) = none := by
      rw [AList.lookup_eq_none, ← record_eq_none, ← hu.record, record_eq_none]
      exact hout
    have hlook : ∀ o' : Overlay, o'.entries.lookup (foldPath p) = none →
        (o'.lookup p).1 = if o'.isTombstoned (foldPath p) then .tombstoned else .absent := by
      intro o' hno
      simp only [Overlay.lookup, hp, not_true_eq_false, if_false, hno]
      split_ifs <;> rfl
    rw [hlook o he, hlook o₀ he₀]
    by_cases hdead : o.isTombstoned (foldPath p) = true
    · obtain ⟨a, ha, htomb⟩ := (h.isTombstoned_iff hp).mp hdead
      have hdead₀ := (h₀.isTombstoned_iff hp).mpr ⟨a, ha, hu.tombs hout a ha htomb⟩
      rw [if_pos hdead, if_pos hdead₀]
      exact Or.inl rfl
    · rw [if_neg hdead]
      by_cases hdead₀ : o₀.isTombstoned (foldPath p) = true
      · rw [if_pos hdead₀]
        have hhid₀ : o₀.hidden (foldPath p) = true := by
          refine (h₀.hidden_iff_lookup hp he₀).mpr (Or.inl ?_)
          rw [hlook o₀ he₀, if_pos hdead₀]
        have hhid : o.hidden (foldPath p) = true :=
          (ht.hides _ hhid₀).resolve_right hout
        rcases (h.hidden_iff_lookup hp he).mp hhid with hlooked | hbelow
        · rw [hlook o he, if_neg hdead] at hlooked
          cases hlooked
        · exact Or.inr ⟨rfl, rfl, hbelow⟩
      · rw [if_neg hdead₀]
        exact Or.inl rfl

/-! ## With a real registry -/

/-- The key `k` has a node that is created-here. -/
def createdAt (o : Overlay) (k : Path) : Prop :=
  ∃ e, o.entries.lookup k = some e ∧ e.node.created = true

/-- No real key shows at `k`, and so none below it. -/
def Covered (R : Real) (o : Overlay) (k : Path) : Prop :=
  R.key k = none ∨ o.hidden k = true ∨ o.createdAt k

/-- The call is right about the real registry: it creates a key, or gives a key a new name, only
where no real key shows. -/
def Accurate (R : Real) (o : Overlay) : Op → Prop
  | .createKey path _ false _ => Covered R o (foldPath path)
  | .renameKey path newLeaf _ => Covered R o (foldPath (path.dropLast ++ [newLeaf]))
  | _ => True

theorem covered_of_above {a k : Path} (htop : root <+: a) (hak : a <+: k)
    (ha : Covered R o a) : Covered R o k := by
  rcases ha with hnone | hhid | ⟨e, he, hcr⟩
  · exact Or.inl (R.none_of_above htop hak hnone)
  · exact Or.inr (Or.inl (hidden_of_above hak hhid))
  · by_cases heq : a = k
    · exact Or.inr (Or.inr ⟨e, heq ▸ he, hcr⟩)
    · exact Or.inr (Or.inl (hidden_iff.mpr (Or.inr ⟨a, e, hak, heq, he, hcr⟩)))

theorem createdAt_touchAncestors (hp : validPath p = true) (v : ℕ) :
    (o.touchAncestors p v).createdAt k ↔ o.createdAt k := by
  unfold createdAt
  simp only [lookup_touchAncestors hp, Option.map_eq_some_iff]
  constructor
  · rintro ⟨e', ⟨e, he, rfl⟩, hcr⟩
    refine ⟨e, he, ?_⟩
    split_ifs at hcr
    · exact hcr
    · exact hcr
  · rintro ⟨e, he, hcr⟩
    refine ⟨_, ⟨e, he, rfl⟩, ?_⟩
    split_ifs
    · exact hcr
    · exact hcr

theorem Inv.covered_of_chain (h : Inv o) {path : Path} (hp : validPath path = true)
    (real : Bool) {now : UInt64}
    (hcr : (o.bumped.ensureChain path real (o.version + 1) now).createdAt k)
    (hreal : real = false → Covered R o (foldPath path)) : Covered R o k := by
  have hb : Inv o.bumped := h.version _
  have hg : Grown o (o.bumped.ensureChain path real (o.version + 1) now) (foldPath path) real
    (o.version + 1) := (hb.grown_ensureChain hp real _ now).of_bumped
  obtain ⟨e', he', hcr⟩ := hcr
  cases hk : o.entries.lookup k with
  | some e =>
    obtain ⟨e₂, he₂, hwide, -⟩ := hg.kept k e hk
    rw [he'] at he₂
    cases he₂
    exact Or.inr (Or.inr ⟨e, hk, hwide.created ▸ hcr⟩)
  | none =>
    rcases (hg.created k e' he' (AList.lookup_eq_none.mp hk)).mp hcr with hhid | ⟨rfl, hr⟩
    · exact Or.inr (Or.inl hhid)
    · exact hreal hr

theorem Inv.covered_of_mark (h : Inv o) {path : Path} (hp : validPath path = true)
    (real : Bool) {now : UInt64} {g : Entry → Entry}
    (hcr : (o.edited path real now g).createdAt k) (hg : ∀ e, (g e).node.created = e.node.created)
    (hreal : real = false → Covered R o (foldPath path)) : Covered R o k := by
  rw [Overlay.edited, Overlay.mark, createdAt_touchAncestors hp] at hcr
  suffices hchain : (o.bumped.ensureChain path real (o.version + 1) now).createdAt k from
    h.covered_of_chain hp real hchain hreal
  obtain ⟨e', he', hcr⟩ := hcr
  simp only [Overlay.modify, Table.lookup_modify] at he'
  split_ifs at he'
  · rw [Option.map_map] at he'
    obtain ⟨e, he, rfl⟩ := Option.map_eq_some_iff.mp he'
    exact ⟨e, he, hg e ▸ hcr⟩
  · exact ⟨e', he', hcr⟩

theorem Inv.covered_of_created (h : Inv o) {op : Op} (hacc : Accurate R o op)
    (hcr : (o.step op).createdAt k) : Covered R o k := by
  cases hcall : o.call op with
  | error err =>
    rw [Overlay.step, hcall] at hcr
    exact Or.inr (Or.inr hcr)
  | ok r =>
    rw [Overlay.step, hcall] at hcr
    dsimp only at hcr
    cases op with
    | setValue path name ty data now =>
      obtain ⟨⟨hvalid, -⟩, rfl⟩ := setValue_eq_ok.mp hcall
      exact h.covered_of_mark hvalid true hcr (fun _ => rfl) (fun h => by cases h)
    | deleteValue path name now =>
      obtain ⟨⟨hvalid, -⟩, rfl⟩ := deleteValue_eq_ok.mp hcall
      exact h.covered_of_mark hvalid true hcr (fun _ => rfl) (fun h => by cases h)
    | createKey path volatile real now =>
      obtain ⟨⟨hvalid, -⟩, rfl⟩ := createKey_eq_ok.mp hcall
      refine h.covered_of_mark hvalid real hcr (fun _ => rfl) ?_
      rintro rfl
      exact hacc
    | deleteKey path now =>
      obtain ⟨pp, ⟨hvalid, hparent, -⟩, rfl⟩ := deleteKey_eq_ok.mp hcall
      have hpp := (validPath_parent hvalid hparent).1
      rw [createdAt_touchAncestors hpp] at hcr
      obtain ⟨e', he', hcr⟩ := hcr
      obtain ⟨e, he, rfl | rfl⟩ := of_lookup_cutBelow he' <;>
        exact h.covered_of_chain hpp true ⟨_, he, hcr⟩ (fun h => by cases h)
    | renameKey path newLeaf now =>
      obtain ⟨pp, old, ⟨hvalid, -, -, -, hparent, hren⟩, rfl⟩ := h.renameKey_eq_ok.mp hcall
      have hpp := (validPath_parent hvalid hparent).1
      have hnew : foldPath (path.dropLast ++ [newLeaf]) = foldPath pp ++ [fold newLeaf] := by
        conv_lhs => rw [(validPath_parent hvalid hparent).2, dropLast_concat]
        rw [foldPath_append]
        rfl
      rw [createdAt_touchAncestors hpp] at hcr
      obtain ⟨e', he', hcr⟩ := hcr
      rcases hren.bumped.cases he' with ⟨s, e, rfl, -, -⟩ | ⟨-, -, e, he, rfl⟩
      · refine covered_of_above ?_ (prefix_append _ s) (hnew ▸ hacc)
        exact (root_prefix_foldPath hpp).trans (prefix_append _ _)
      · exact Or.inr (Or.inr ⟨e, he, by simpa using hcr⟩)

/-- Whatever is created-here now, and was not reported as removed since, was covered then. -/
structure Shadows (R : Real) (o₀ o : Overlay) : Prop where
  tracks : Tracks o₀ o
  created : ∀ a, o.createdAt a → (∀ q, OnWay q a → o.removed q ≤ o₀.version) → Covered R o₀ a

theorem Shadows.covered_of_hidden (hs : Shadows R o₀ o) (h : Inv o)
    (hhid : o.hidden k = true) (hquiet : ∀ q, OnWay q k → o.removed q ≤ o₀.version) :
    Covered R o₀ k := by
  rcases hidden_iff.mp hhid with ⟨a, ha, ht⟩ | ⟨a, e, ha, -, he, hcr⟩
  · have htomb := hs.tracks.tombs a ht (hquiet a ⟨h.root_prefix_tomb ht, ha⟩)
    exact Or.inr (Or.inl (hidden_iff.mpr (Or.inl ⟨a, ha, htomb⟩)))
  · have htop := h.tree.top a (Table.mem_of_lookup he)
    exact covered_of_above htop ha
      (hs.created a ⟨e, he, hcr⟩ fun q hq => hquiet q ⟨hq.1, hq.2.trans ha⟩)

theorem Shadows.step (hs : Shadows R o₀ o) (h : Inv o) {op : Op}
    (hacc : Accurate R o op) : Shadows R o₀ (o.step op) := by
  refine ⟨hs.tracks.step h op, fun a hcr hquiet => ?_⟩
  have hquiet' : ∀ q, OnWay q a → o.removed q ≤ o₀.version := by
    intro q hq
    rcases h.advances_step op with heq | ⟨-, hadv⟩
    · rw [heq] at hquiet
      exact hquiet q hq
    · exact (hadv.next.removed q).trans (hquiet q hq)
  rcases h.covered_of_created hacc hcr with hnone | hhid | hbefore
  · exact Or.inl hnone
  · exact hs.covered_of_hidden h hhid hquiet'
  · exact hs.created a hbefore hquiet'

theorem Inv.shadows_run (h : Inv o) {ops : List Op}
    (hacc : Transition.AllSteps Overlay.step (Accurate R) o ops) :
    Inv (Transition.run Overlay.step o ops) ∧
      Shadows R o (Transition.run Overlay.step o ops) :=
  run_invariant_of_allSteps (I := fun o' => Inv o' ∧ Shadows R o o')
    (fun _ _ ⟨hi, hs⟩ hop => ⟨hi.step _, hs.step hi hop⟩)
    ⟨h, tracks_refl o, fun _ hcr _ => Or.inr (Or.inr hcr)⟩ hacc

theorem Shadows.covered_of_quiet (hs : Shadows R o₀ o) (h₀ : Inv o₀) (h : Inv o)
    (hp : validPath p = true) {subtree : Bool}
    (hquiet : o.changedSince p subtree o₀.version = false) (hk : foldPath p <+: k)
    (hdepth : subtree = true ∨ k = foldPath p) (hout : k ∉ o.entries)
    (hhid : o.hidden k = true) : Covered R o₀ k := by
  by_cases hin : foldPath p ∈ o.entries
  · -- The node at `p` answers for all that lies below it.
    have hdeep : subtree = true := hdepth.resolve_right fun heq => hout (heq ▸ hin)
    subst hdeep
    have hsame := fun {j} hj => hs.tracks.unchanged_below h₀ h hp hquiet (k := j) hj
    have hcreated : ∀ a, foldPath p <+: a → o.createdAt a → o₀.createdAt a := by
      rintro a ha ⟨e, he, hcr⟩
      have hrecord := (hsame ha).record
      rw [(book_of_lookup he).1] at hrecord
      obtain ⟨e₀, he₀, heq⟩ := Option.map_eq_some_iff.mp hrecord.symm
      exact ⟨e₀, he₀, (Prod.mk.inj heq).2 ▸ hcr⟩
    have hproper : ∀ a, a <+: k → a ∈ o.entries → o₀.createdAt a → Covered R o₀ k := by
      rintro a ha hain ⟨e₀, he₀, hcr⟩
      refine Or.inr (Or.inl (hidden_iff.mpr (Or.inr ⟨a, e₀, ha, ?_, he₀, hcr⟩)))
      rintro rfl
      exact hout hain
    rcases hidden_iff.mp hhid with ⟨a, ha, ht⟩ | ⟨a, e, ha, -, he, hcr⟩
    · exact Or.inr (Or.inl (hidden_iff.mpr (Or.inl ⟨a, ha, (hsame hk).tombs hout a ha ht⟩)))
    · have hain : a ∈ o.entries := Table.mem_of_lookup he
      rcases prefix_or_prefix_of_prefix hk ha with hpa | hap
      · exact hproper a ha hain (hcreated a hpa ⟨e, he, hcr⟩)
      · obtain ⟨d, hd⟩ := Table.exists_lookup hin
        obtain ⟨s, hs'⟩ := hap
        have hdcr := h.created_below he (hs' ▸ hd) hcr
        exact hproper _ hk hin (hcreated _ prefix_rfl ⟨d, hd, hdcr⟩)
  · -- No node at `p`: what hides a key below it hides `p`.
    have hmarks := ((changedSince_eq_false hp subtree _).mp hquiet).2 hin
    have hroot := root_prefix_foldPath hp
    refine covered_of_above hroot hk (hs.covered_of_hidden h ?_ hmarks)
    exact h.hidden_of_below_absent hroot hin hk hhid

theorem Unchanged.seen (hu : Unchanged o₀ o k) (ht : Tracks o₀ o)
    (hcover : k ∉ o.entries → o.hidden k = true → Covered R o₀ k) :
    o.seen R k = o₀.seen R k := by
  cases he : o.entries.lookup k with
  | some e =>
    have hrecord := hu.record
    rw [(book_of_lookup he).1] at hrecord
    obtain ⟨e₀, he₀, heq⟩ := Option.map_eq_some_iff.mp hrecord.symm
    have hsame : e₀.node = e.node := (Prod.mk.inj heq).2
    rw [seen_of_lookup R he, seen_of_lookup R he₀, hsame]
  | none =>
    have hout : k ∉ o.entries := AList.lookup_eq_none.mp he
    have he₀ : o₀.entries.lookup k = none := by
      rw [AList.lookup_eq_none, ← record_eq_none, ← hu.record, record_eq_none]
      exact hout
    rw [seen_of_none R he, seen_of_none R he₀]
    by_cases hhid : o.hidden k = true
    · rw [if_pos hhid]
      rcases hcover hout hhid with hnone | hhid₀ | ⟨e₀, hsome, -⟩
      · rw [hnone, ite_self]
      · rw [if_pos hhid₀]
      · rw [he₀] at hsome
        cases hsome
    · have hhid₀ : ¬ o₀.hidden k = true := fun h₀ =>
        (ht.hides k h₀).elim hhid hout
      rw [if_neg hhid, if_neg hhid₀]

/-- A run from any well-formed overlay, the empty one or a reloaded one. If the key at `p` differs
between a version the run went through and now, `changed_since` for that version says so, and with
`subtree` it says so if any key at or below `p` differs. The same holds of the merged view over
every real registry the calls since then were right about. -/
theorem changedSince_of_not_sameAt {start : Overlay} (hstart : Inv start) (before after : List Op)
    (hp : validPath p = true) :
    let o₀ := run Overlay.step start before
    let o := run Overlay.step o₀ after
    (¬ SameAt o₀ o p → o.changedSince p false o₀.version = true) ∧
      (∀ q, validPath q = true → foldPath p <+: foldPath q → ¬ SameAt o₀ o q →
        o.changedSince p true o₀.version = true) ∧
      ∀ R, Transition.AllSteps Overlay.step (Accurate R) o₀ after →
        (o.view R p ≠ o₀.view R p → o.changedSince p false o₀.version = true) ∧
        ∀ q, validPath q = true → foldPath p <+: foldPath q → o.view R q ≠ o₀.view R q →
          o.changedSince p true o₀.version = true := by
  intro o₀ o
  have h₀ : Inv o₀ := run_invariant (fun _ op hi => hi.step op) hstart before
  obtain ⟨h, ht⟩ := h₀.tracks_run after
  refine ⟨fun hne => ?_, fun q hq hpq hne => ?_, fun R hacc => ?_⟩
  · by_contra hquiet
    have hu := ht.unchanged_own h hp (Bool.eq_false_iff.mpr hquiet)
    exact hne (hu.sameAt ht h₀ h hp)
  · by_contra hquiet
    have hu := ht.unchanged_below h₀ h hp (Bool.eq_false_iff.mpr hquiet) hpq
    exact hne (hu.sameAt ht h₀ h hq)
  · obtain ⟨-, hs⟩ := h₀.shadows_run hacc
    refine ⟨fun hne => ?_, fun q hq hpq hne => ?_⟩
    · by_contra hquiet
      rw [Bool.not_eq_true] at hquiet
      refine hne ?_
      rw [h.view_eq_seen R hp, h₀.view_eq_seen R hp]
      exact (ht.unchanged_own h hp hquiet).seen ht
        (hs.covered_of_quiet h₀ h hp hquiet prefix_rfl (Or.inr rfl))
    · by_contra hquiet
      rw [Bool.not_eq_true] at hquiet
      refine hne ?_
      rw [h.view_eq_seen R hq, h₀.view_eq_seen R hq]
      exact (ht.unchanged_below h₀ h hp hquiet hpq).seen ht
        (hs.covered_of_quiet h₀ h hp hquiet hpq (Or.inl rfl))

/-- A key that is deleted and created again with nothing in it. -/
def recreated : List Op :=
  [.deleteKey [[], spelledRegistry, ['S'], ['A']] 7,
    .createKey [[], spelledRegistry, ['S'], ['A']] false false 8]

omit [ToLowercase] in
/-- The client that last looked before the deletion is told. -/
theorem changedSince_recreated :
    @changedSince asciiLowercase (Transition.run (@Overlay.step asciiLowercase)
      (@Overlay.step asciiLowercase new
        (.setValue [[], spelledRegistry, ['S'], ['A']] ['v'] 1 [1] 6)) recreated)
      [[], spelledRegistry, ['S'], ['A']] false 1 = true := by
  refine (@changedSince_of_not_sameAt asciiLowercase _ _ (@inv_new asciiLowercase)
    [.setValue [[], spelledRegistry, ['S'], ['A']] ['v'] 1 [1] 6] recreated (by decide)).1 ?_
  intro hsame
  have hvalues := congrArg (Option.map Node.values) (@SameAt.node asciiLowercase _ _ _ hsame)
  revert hvalues
  decide +kernel

end Overlay

end AetherVfs.Registry
