import AetherVfs.Registry.RoundTrip
import AetherVfs.Registry.Simulation

/-!
# Volatile keys across a save

Volatile keys are not saved. A registry that never had them would look the same as one they were
deleted from, so the overlay that is read back is compared with the one that `delete_key` of every
volatile key leaves. The two differ in one way: a deletion under a volatile key is a tombstone,
and what is read back has none, so a real key that the volatile one replaced shows again.
-/

namespace AetherVfs.Registry

open List AList Table

namespace Overlay

/-- The paths of the volatile keys. -/
def volatileKeys (o : Overlay) : List Path :=
  (o.entries.entries.filter fun r => r.2.node.volatile).map fun r => r.2.path

theorem mem_volatileKeys {o : Overlay} {p : Path} : p ∈ o.volatileKeys ↔
    ∃ k e, o.entries.lookup k = some e ∧ e.node.volatile = true ∧ e.path = p := by
  simp only [volatileKeys, mem_map, mem_filter]
  constructor
  · rintro ⟨⟨k, e⟩, ⟨hmem, hvol⟩, rfl⟩
    exact ⟨k, e, mem_lookup_iff.mpr hmem, hvol, rfl⟩
  · rintro ⟨k, e, he, hvol, rfl⟩
    exact ⟨⟨k, e⟩, ⟨mem_lookup_iff.mp he, hvol⟩, rfl⟩

section

variable [ToLowercase]

/-- `delete_key` of every path of `ps`. -/
def deleteAll (o : Overlay) (ps : List Path) (now : UInt64) : Overlay :=
  Transition.run step o (ps.map fun p => .deleteKey p now)

variable {R : Real} {o o' : Overlay} {p : Path} {now : UInt64}

/-! ## What deleting them leaves -/

theorem Inv.lookup_eq_tombstoned (h : Inv o) (hp : validPath p = true) :
    (o.lookup p).1 = .tombstoned ↔ ∃ a, a <+: foldPath p ∧ a ∈ o.tombs := by
  cases he : o.entries.lookup (foldPath p) with
  | some e =>
    have hin : foldPath p ∈ o.entries := mem_of_lookup he
    simp only [Overlay.lookup, hp, not_true_eq_false, if_false, he, reduceCtorEq, false_iff]
    rintro ⟨a, ha, ht⟩
    exact h.tree.not_has_below_tomb ht ha hin
  | none =>
    simp only [Overlay.lookup, hp, not_true_eq_false, if_false, he]
    rw [← h.isTombstoned_iff hp]
    split_ifs with ht <;> simp [ht]

/-- The overlay has a say on the key: it has a node or is deleted. -/
def Known (o : Overlay) (p : Path) : Prop :=
  foldPath p ∈ o.entries ∨ ∃ a, a <+: foldPath p ∧ a ∈ o.tombs

theorem Inv.deleteKey_known (h : Inv o) {pp : Path} (hp : validPath p = true)
    (hparent : parent p = some pp) (hknown : o.Known p) (now : UInt64) :
    (∀ R k, (o.step (.deleteKey p now)).shown R k =
      if foldPath p <+: k then none else o.shown R k) ∧
    ∀ q, o.Known q → (o.step (.deleteKey p now)).Known q := by
  rcases hknown with hin | hdead
  · have hlive : (o.lookup p).1 ≠ .tombstoned := by
      rw [Ne, h.lookup_eq_tombstoned hp]
      rintro ⟨a, ha, ht⟩
      exact h.tree.not_has_below_tomb ht ha hin
    have hcall : o.call (.deleteKey p now) = .ok _ :=
      deleteKey_eq_ok.mpr ⟨pp, ⟨hp, hparent, hlive⟩, rfl⟩
    rw [step_of_ok hcall]
    have hpp := (validPath_parent hp hparent).1
    have hpin := h.parent_mem hp hparent hin
    constructor
    · intro R k
      refine h.shown_deletedKey hp hparent ?_ _ now k
      obtain ⟨e, he⟩ := exists_lookup hpin
      rw [shown_of_lookup he]
      rfl
    · have hb : Inv o.bumped := h.version _
      set v := o.version + 1
      set o₁ := o.bumped.ensureChain pp true v now
      have hg : Grown o o₁ (foldPath pp) true v := (hb.grown_ensureChain hpp true v now).of_bumped
      obtain ⟨h₁, -⟩ := hb.ensureChain hpp true v now
      -- The parent is there, so the chain adds no key and revives none.
      have hback : ∀ k, k ∈ o₁.entries → k ∈ o.entries := by
        intro k hk
        by_contra hout
        exact hout (h.tree.has_above hpin (h₁.tree.top k hk) (hg.way k hk hout))
      have htombs : ∀ a, a ∈ o₁.tombs ↔ a ∈ o.tombs := by
        intro a
        rw [hg.tombs]
        exact ⟨And.left, fun ht => ⟨ht, fun hin => h.tree.not_has_of_tomb ht (hback a hin)⟩⟩
      intro q hq
      have hf := foldPath_parent hp hparent
      simp only [Known, mem_touchAncestors, (touchAncestors_maps _ _ _).1]
      by_cases hbelow : foldPath p <+: foldPath q
      · refine Or.inr ⟨_, hbelow, (mem_tombs_cutBelow ..).mpr (Or.inr hf)⟩
      · rcases hq with hqin | ⟨a, ha, ht⟩
        · refine Or.inl (lookup_isSome.mp ?_)
          rw [lookup_cutBelow, if_neg (hf ▸ hbelow)]
          have hqin₁ := lookup_isSome.mpr (hg.mem hqin)
          split_ifs
          · rwa [Option.isSome_map]
          · exact hqin₁
        · refine Or.inr ⟨a, ha, (mem_tombs_cutBelow ..).mpr (Or.inl ⟨(htombs a).mpr ht, ?_⟩)⟩
          rw [← hf]
          exact fun hfa => hbelow (hfa.trans ha)
  · have hstep : o.step (.deleteKey p now) = o := by
      refine step_of_not_ok fun r hr => ?_
      obtain ⟨-, ⟨-, -, hlive⟩, -⟩ := deleteKey_eq_ok.mp hr
      exact hlive ((h.lookup_eq_tombstoned hp).mpr hdead)
    rw [hstep]
    refine ⟨fun R k => ?_, fun q hq => hq⟩
    split_ifs with hk
    · obtain ⟨a, ha, ht⟩ := hdead
      have hout := h.tree.not_has_below_tomb ht (ha.trans hk)
      rw [shown_of_none (lookup_eq_none.mpr hout),
        if_pos (hidden_iff.mpr (Or.inl ⟨a, ha.trans hk, ht⟩))]
    · rfl

theorem Inv.shown_deleteAll (h : Inv o) {ps : List Path}
    (hps : ∀ p ∈ ps, validPath p = true ∧ (∃ pp, parent p = some pp) ∧ o.Known p) (k : Path) :
    (o.deleteAll ps now).Inv ∧ (o.deleteAll ps now).shown R k =
      if ∃ p ∈ ps, foldPath p <+: k then none else o.shown R k := by
  induction ps generalizing o with
  | nil => exact ⟨h, by simp [deleteAll]⟩
  | cons p ps ih =>
    obtain ⟨hp, ⟨pp, hparent⟩, hknown⟩ := hps p mem_cons_self
    obtain ⟨hshown, hkeeps⟩ := h.deleteKey_known hp hparent hknown now
    obtain ⟨hinv, hrest⟩ := ih (h.step (.deleteKey p now)) fun q hq =>
      ⟨(hps q (mem_cons_of_mem _ hq)).1, (hps q (mem_cons_of_mem _ hq)).2.1,
        hkeeps q (hps q (mem_cons_of_mem _ hq)).2.2⟩
    refine ⟨hinv, hrest.trans ?_⟩
    rw [hshown]
    simp only [exists_mem_cons_iff]
    by_cases hrest : ∃ q ∈ ps, foldPath q <+: k
    · simp [hrest]
    · simp [hrest]

/-! ## What a reload leaves -/

section

variable (hp : Persisted o o')

include hp

omit [ToLowercase] in
theorem Persisted.lookup {k : Path} {e' : Entry}
    (he' : o'.entries.lookup k = some e') :
    ∃ e, o.entries.lookup k = some e ∧ o.inVolatile k = false ∧ o.SameKey k e e' := by
  obtain ⟨hin, hkept⟩ := (hp.keys k).mp (mem_of_lookup he')
  obtain ⟨e, he⟩ := exists_lookup hin
  exact ⟨e, he, hkept, hp.entry k e e' he he'⟩

omit [ToLowercase] in
theorem Persisted.childState_eq (k : Path) (c : Str) :
    o'.childState k c = if o.inVolatile (k ++ [c]) then none else o.childState k c := by
  cases he' : o'.entries.lookup k with
  | some e' =>
    obtain ⟨e, he, -, hsame⟩ := hp.lookup he'
    rw [childState_of_lookup he', hsame.children, childState_of_lookup he]
    split_ifs <;> rfl
  | none =>
    have hout : k ∉ o'.entries := lookup_eq_none.mp he'
    have hnone : o'.childState k c = none := by simp [childState, he']
    rw [hnone]
    split_ifs with hvol
    · rfl
    · cases he : o.entries.lookup k with
      | none => simp [childState, he]
      | some e =>
        refine absurd ((hp.keys k).mpr ⟨mem_of_lookup he, ?_⟩) hout
        exact kept_above (prefix_append k [c]) (Bool.eq_false_iff.mpr hvol)

theorem Persisted.inv (h : Inv o) : Inv o' := by
  refine ⟨⟨?_, ?_, ?_, ?_, ?_, ?_⟩, ?_, ?_, ?_⟩
  · exact fun k hk => h.tree.top k ((hp.keys k).mp hk).1
  · intro k c hk
    obtain ⟨hin, hkept⟩ := (hp.keys _).mp hk
    rcases h.tree.up k c hin with htop | hup
    · exact Or.inl htop
    · exact Or.inr ((hp.keys k).mpr ⟨hup, kept_above (prefix_append k [c]) hkept⟩)
  · intro k c
    rw [hp.childState_eq, hp.keys, hp.keys]
    split_ifs with hvol
    · simp [hvol]
    · rw [Bool.not_eq_true] at hvol
      have hkept := kept_above (prefix_append k [c]) hvol
      simp [h.tree.present_iff, hvol, hkept]
  · intro k c
    rw [hp.childState_eq, hp.tombs]
    split_ifs with hvol
    · simp [hvol]
    · rw [Bool.not_eq_true] at hvol
      simp [h.tree.tombstone_iff, hvol]
  · exact fun ht => h.tree.tomb_nil ((hp.tombs []).mp ht).1
  · intro k c hne
    rw [hp.childState_eq] at hne
    split_ifs at hne with hvol
    · exact absurd rfl hne
    · refine (hp.keys k).mpr ⟨h.tree.listed k c hne, ?_⟩
      exact kept_above (prefix_append k [c]) (Bool.eq_false_iff.mpr hvol)
  · intro k e' he'
    obtain ⟨e, he, -, hsame⟩ := hp.lookup he'
    rw [hsame.path]
    exact h.spelled k e he
  · intro k e' he'
    obtain ⟨e, he, -, hsame⟩ := hp.lookup he'
    obtain ⟨h1, h2, h3, h4, h5⟩ := h.node k e he
    refine ⟨?_, ?_, ?_, ?_, ?_⟩
    · rwa [Node.valueKeys, hsame.values]
    · rwa [Node.valueKeys, hsame.values, hsame.valueTombstones]
    · rwa [hsame.valueTombstones]
    · rwa [hsame.valueTombstones]
    · intro c sp st hc
      rw [hsame.children] at hc
      split_ifs at hc
      exact h5 c sp st hc
  · intro k c pe' e' hpe' he'
    obtain ⟨pe, hpe, -, hsamep⟩ := hp.lookup hpe'
    obtain ⟨e, he, -, hsame⟩ := hp.lookup he'
    obtain ⟨⟨name, hname⟩, hcr⟩ := h.under k c pe e hpe he
    refine ⟨⟨name, by rw [hsame.path, hsamep.path, hname]⟩, ?_⟩
    rw [hsame.created, hsamep.created]
    exact hcr

omit [ToLowercase] in
theorem Persisted.named (h : Named o) : Named o' := by
  refine ⟨fun k hk => h.keys k ((hp.keys k).mp hk).1, fun t ht => h.tombs t ((hp.tombs t).mp ht).1,
    ?_, ?_⟩
  · intro k c pe' e' sp hpe' hc he'
    obtain ⟨pe, hpe, -, hsamep⟩ := hp.lookup hpe'
    obtain ⟨e, he, -, hsame⟩ := hp.lookup he'
    rw [hsamep.children] at hc
    split_ifs at hc
    rw [hsame.path, hsamep.path]
    exact h.listed k c pe e sp hpe hc he
  · intro k e' he'
    obtain ⟨e, he, -, hsame⟩ := hp.lookup he'
    rw [Sized, hsame.values]
    exact h.sized k e he

omit [ToLowercase] in
theorem Persisted.self : Persisted o' o' := by
  have hkept : ∀ k, o'.inVolatile k = false := by
    intro k
    rw [Bool.eq_false_iff]
    intro hin
    obtain ⟨j, e', -, he', hvol⟩ := inVolatile_iff.mp hin
    obtain ⟨e, he, hj, hsame⟩ := hp.lookup he'
    rw [hsame.volatile, volatile_of_kept he prefix_rfl hj] at hvol
    cases hvol
  refine ⟨fun k => by simp [hkept], ?_, fun t => by simp [hkept]⟩
  intro k e e' he he'
  obtain rfl : e = e' := Option.some.inj (he.symm.trans he')
  exact ⟨rfl, rfl, rfl, fun c => by simp [hkept], rfl, rfl, rfl⟩

omit [ToLowercase] in
theorem Persisted.created_iff {k : Path} (hkept : o.inVolatile k = false) :
    (∃ e, o'.entries.lookup k = some e ∧ e.node.created = true) ↔
      ∃ e, o.entries.lookup k = some e ∧ e.node.created = true := by
  constructor
  · rintro ⟨e', he', hcr⟩
    obtain ⟨e, he, -, hsame⟩ := hp.lookup he'
    exact ⟨e, he, hsame.created ▸ hcr⟩
  · rintro ⟨e, he, hcr⟩
    obtain ⟨e', he'⟩ := exists_lookup ((hp.keys k).mpr ⟨mem_of_lookup he, hkept⟩)
    exact ⟨e', he', (hp.entry k e e' he he').created.trans hcr⟩

theorem Persisted.shown_kept {k : Path} (hkept : o.inVolatile k = false) :
    o'.shown R k = o.shown R k := by
  have hmap : ∀ {β : Type} {g : Node → β} (a), a <+: k → (∀ e e', o.SameKey a e e' →
      g e'.node = g e.node) → (o'.entries.lookup a).map (fun e => g e.node) =
        (o.entries.lookup a).map fun e => g e.node := by
    intro β g a ha hg
    have hin := hp.keys a
    rw [← lookup_isSome, ← lookup_isSome] at hin
    cases he : o.entries.lookup a <;> cases he' : o'.entries.lookup a <;>
      simp_all [kept_above ha hkept]
    exact hg _ _ (hp.entry a _ _ he he')
  refine shown_congr (hidden_congr (fun a ha => ?_) fun a ha => ?_) fun real => ?_
  · simp [hp.tombs, kept_above ha hkept]
  · exact hmap a ha fun e e' hsame => hsame.created
  · exact hmap (g := (Node.over · real)) k prefix_rfl fun e e' hsame =>
      over_congr hsame.values hsame.valueTombstones hsame.created real

end

/-- A volatile key whose parent is saved. -/
structure TopVolatile (o : Overlay) (q : Path) (c : Str) (pe e : Entry) : Prop where
  parent : o.entries.lookup q = some pe
  kept : o.inVolatile q = false
  key : o.entries.lookup (q ++ [c]) = some e
  volatile : e.node.volatile = true

theorem Inv.exists_topVolatile (h : Inv o) (hroot : o.inVolatile root = false) {k : Path}
    (hvol : o.inVolatile k = true) : ∃ q c pe e, o.TopVolatile q c pe e ∧ q ++ [c] <+: k := by
  induction k using reverseRecOn with
  | nil =>
    obtain ⟨j, e, hj, he, -⟩ := inVolatile_iff.mp hvol
    rw [prefix_nil] at hj
    subst hj
    exact absurd (mem_of_lookup he) h.tree.not_has_nil
  | append_singleton k c ih =>
    by_cases hk : o.inVolatile k = true
    · obtain ⟨q, c', pe, e, htop, hq⟩ := ih hk
      exact ⟨q, c', pe, e, htop, hq.trans (prefix_append _ _)⟩
    · obtain ⟨e, he, hevol⟩ := (inVolatile_concat.mp hvol).resolve_left hk
      rcases h.tree.up k c (mem_of_lookup he) with htop | hup
      · rw [htop, hroot] at hvol
        cases hvol
      · obtain ⟨pe, hpe⟩ := exists_lookup hup
        exact ⟨k, c, pe, e, ⟨hpe, Bool.eq_false_iff.mpr hk, he, hevol⟩, prefix_rfl⟩

theorem Persisted.shown_volatile (hp : Persisted o o') (h : Inv o) {q k : Path} {c : Str}
    {pe e : Entry} (htop : o.TopVolatile q c pe e) (hk : q ++ [c] <+: k) : o'.shown R k =
      if pe.node.created then none else (R.key k).map fun v => valueOf v.values := by
  have hvol : ∀ a, q ++ [c] <+: a → o.inVolatile a = true := fun a ha =>
    inVolatile_iff.mpr ⟨_, e, ha, htop.key, htop.volatile⟩
  have hqin : q ∈ o.entries := mem_of_lookup htop.parent
  have hqk : q <+: k := (prefix_append q [c]).trans hk
  have hnone : o'.entries.lookup k = none := by
    rw [lookup_eq_none, hp.keys, hvol k hk]
    simp
  have habove : ∀ a, a <+: k → o.inVolatile a = false → a <+: q := by
    intro a ha hkept
    rcases prefix_or_prefix_of_prefix ha hk with haf | hfa
    · rcases prefix_concat_iff.mp haf with rfl | haq
      · rw [hvol _ prefix_rfl] at hkept
        cases hkept
      · exact haq
    · rw [hvol a hfa] at hkept
      cases hkept
  have hhid : o'.hidden k = true ↔ pe.node.created = true := by
    rw [hidden_iff]
    constructor
    · rintro (⟨a, ha, ht⟩ | ⟨a, e', ha, -, he', hcr⟩)
      · obtain ⟨ht, hkept⟩ := (hp.tombs a).mp ht
        exact absurd hqin (h.tree.not_has_below_tomb ht (habove a ha hkept))
      · obtain ⟨hin, hkept⟩ := (hp.keys a).mp (mem_of_lookup he')
        obtain ⟨d, hd, hdcr⟩ := (hp.created_iff hkept).mp ⟨e', he', hcr⟩
        obtain ⟨s, hs⟩ := habove a ha hkept
        exact h.created_below hd (hs ▸ htop.parent) hdcr
    · intro hcr
      obtain ⟨e', he', hcr'⟩ := (hp.created_iff htop.kept).mpr ⟨pe, htop.parent, hcr⟩
      refine Or.inr ⟨q, e', hqk, ?_, he', hcr'⟩
      rintro rfl
      exact not_append_prefix_self hk
  rw [shown_of_none hnone]
  exact if_congr hhid rfl rfl

/-! ## The two compared -/

/-- The same key as far as programs compare it: whether it is there, its values by name, and the
names of its subkeys. -/
def SameView (a b : Option KeyView) : Prop :=
  (a.map fun v => valueOf v.values) = (b.map fun v => valueOf v.values) ∧
    ∀ c, (∃ v ∈ a, ∃ s ∈ v.subkeys, fold s = c) ↔ ∃ v ∈ b, ∃ s ∈ v.subkeys, fold s = c

theorem Inv.sameView_of_shown (h : Inv o) (h' : Inv o') (hall : ∀ k, o.shown R k = o'.shown R k)
    (hp : validPath p = true) : SameView (o.view R p) (o'.view R p) := by
  rw [h.view_eq_seen R hp, h'.view_eq_seen R hp]
  refine ⟨hall (foldPath p), fun c => ?_⟩
  have hchild : ∀ {x : Overlay}, Inv x → ((∃ v ∈ x.seen R (foldPath p), ∃ s ∈ v.subkeys,
      fold s = c) ↔ (x.shown R (foldPath p)).isSome ∧ (x.shown R (foldPath p ++ [c])).isSome) := by
    intro x hx
    constructor
    · rintro ⟨v, hv, hs⟩
      refine ⟨?_, (hx.subkeys_iff hv c).mp hs⟩
      rw [isSome_shown, Option.mem_def.mp hv]
      rfl
    · rintro ⟨hsome, hc⟩
      rw [isSome_shown] at hsome
      obtain ⟨v, hv⟩ := Option.isSome_iff_exists.mp hsome
      exact ⟨v, hv, (hx.subkeys_iff hv c).mpr hc⟩
  rw [hchild h, hchild h', hall, hall]

/-- The real registry has no key that a volatile key replaced: it has none by that name, or the
volatile key lies in a key created here. -/
def NoneReplaced (R : Real) (o : Overlay) : Prop :=
  ∀ q c pe e, o.TopVolatile q c pe e → pe.node.created = true ∨ R.key (q ++ [c]) = none

/-- The overlay read back looks like the one the volatile keys were deleted from, exactly when no
volatile key replaced a real one. -/
theorem reload_sameView_iff (cs : List Call) (hsave : (runCalls cs).Saveable)
    (hroot : (runCalls cs).inVolatile root = false) (R : Real) {ps : List Path}
    (hps : ∀ p, p ∈ ps ↔ p ∈ (runCalls cs).volatileKeys) (now : UInt64) :
    (∃ o', Format.decode (Format.encode (runCalls cs)) = .ok o' ∧ ∀ p, validPath p = true →
      SameView (o'.view R p) (((runCalls cs).deleteAll ps now).view R p)) ↔
    NoneReplaced R (runCalls cs) := by
  obtain ⟨h, hnamed⟩ := named_runCalls cs
  set o := runCalls cs
  obtain ⟨o', hdecode, hpers⟩ := Format.decode_encode_of_saveable h hnamed hsave
  have h' := hpers.inv h
  have hvalid : ∀ k e, o.entries.lookup k = some e → validPath e.path = true := by
    intro k e he
    have hin : k ∈ o.entries := mem_of_lookup he
    have hspell := h.spelled k e he
    refine Format.validPath_of_clean (hspell ▸ h.tree.top k hin) (clean_foldPath.mp ?_)
    exact hspell ▸ hnamed.keys k hin
  have hkeys : ∀ p ∈ ps, validPath p = true ∧ (∃ pp, parent p = some pp) ∧ o.Known p := by
    intro p hp
    obtain ⟨k, e, he, hvol, rfl⟩ := mem_volatileKeys.mp ((hps p).mp hp)
    have hspell := h.spelled k e he
    refine ⟨hvalid k e he, ?_, Or.inl ?_⟩
    · by_contra hno
      have hnone : parent e.path = none := Option.eq_none_iff_forall_ne_some.mpr fun pp hpp =>
        hno ⟨pp, hpp⟩
      have htop : k = root := hspell ▸ foldPath_of_parent_none (hvalid k e he) hnone
      rw [inVolatile_iff.mpr ⟨k, e, htop ▸ prefix_rfl, he, hvol⟩] at hroot
      cases hroot
    · rw [hspell]
      exact mem_of_lookup he
  have hunder : ∀ k, (∃ p ∈ ps, foldPath p <+: k) ↔ o.inVolatile k = true := by
    intro k
    rw [inVolatile_iff]
    constructor
    · rintro ⟨p, hp, hk⟩
      obtain ⟨j, e, he, hvol, rfl⟩ := mem_volatileKeys.mp ((hps p).mp hp)
      exact ⟨j, e, h.spelled j e he ▸ hk, he, hvol⟩
    · rintro ⟨j, e, hj, he, hvol⟩
      refine ⟨e.path, (hps _).mpr (mem_volatileKeys.mpr ⟨j, e, he, hvol, rfl⟩), ?_⟩
      rw [h.spelled j e he]
      exact hj
  have hdel : ∀ k, (o.deleteAll ps now).shown R k =
      if o.inVolatile k then none else o.shown R k := by
    intro k
    rw [(h.shown_deleteAll hkeys k).2]
    exact if_congr (hunder k) rfl rfl
  have hdelInv : (o.deleteAll ps now).Inv := (h.shown_deleteAll (R := R) hkeys root).1
  constructor
  · rintro ⟨o₂, hdecode₂, hsame⟩ q c pe e htop
    rw [hdecode] at hdecode₂
    cases hdecode₂
    have hspell := h.spelled _ e htop.key
    have hp := hvalid _ e htop.key
    have hview := (hsame e.path hp).1
    rw [h'.view_eq_seen R hp, hdelInv.view_eq_seen R hp, hspell] at hview
    have hvol : o.inVolatile (q ++ [c]) = true :=
      inVolatile_iff.mpr ⟨_, e, prefix_rfl, htop.key, htop.volatile⟩
    have hnone : o'.shown R (q ++ [c]) = none := by
      rw [shown, hview, ← shown, hdel, if_pos hvol]
    rw [hpers.shown_volatile h htop prefix_rfl] at hnone
    split_ifs at hnone with hcr
    · exact Or.inl hcr
    · exact Or.inr (Option.map_eq_none_iff.mp hnone)
  · intro hnone
    refine ⟨o', hdecode, fun p hp => h'.sameView_of_shown hdelInv (fun k => ?_) hp⟩
    rw [hdel]
    split_ifs with hvol
    · obtain ⟨q, c, pe, e, htop, hk⟩ := h.exists_topVolatile hroot hvol
      rw [hpers.shown_volatile h htop hk]
      rcases hnone q c pe e htop with hcr | hreal
      · rw [if_pos hcr]
      · have hq := h.tree.top q (mem_of_lookup htop.parent)
        have hk := R.none_of_above (hq.trans (prefix_append q [c])) hk hreal
        rw [hk, Option.map_none, ite_self]
    · exact hpers.shown_kept (Bool.eq_false_iff.mpr hvol)

end

attribute [local instance] asciiLowercase

def textS : Str := ['\\', 'R', 'e', 'g', 'i', 's', 't', 'r', 'y', '\\', 'S']

/-- A volatile key of a name the real registry does not have. -/
def volatileNew : List Call := [⟨textS ++ ['\\', 'K'], .createKey true false, 5⟩]

theorem reload_sameView_volatileNew :
    ∃ o', Format.decode (Format.encode (runCalls volatileNew)) = .ok o' ∧
      ∀ p, validPath p = true → SameView (view oneKey o' p) (view oneKey (deleteAll
        (runCalls volatileNew) (runCalls volatileNew).volatileKeys 9) p) := by
  refine (reload_sameView_iff volatileNew (by decide +kernel) (by decide +kernel) oneKey
    (fun _ => Iff.rfl) 9).mpr ?_
  intro q c pe e htop
  have hS : (((runCalls volatileNew).entries.lookup (root ++ [['s']])).any
      fun e => e.node.volatile) = false := by decide +kernel
  refine Or.inr (if_neg ?_)
  rintro ⟨-, hway⟩
  rcases prefix_concat_iff.mp hway with heq | hway
  · rw [← heq, htop.key] at hS
    exact absurd htop.volatile (by simpa using hS)
  · have hinv := (named_runCalls volatileNew).1
    have hq := hinv.tree.top q (mem_of_lookup htop.parent)
    exact not_append_prefix_self (hway.trans hq)

/-- The real key `S` is deleted, and created again as a volatile key. -/
def volatileOverDeleted : List Call :=
  [⟨textS, .deleteKey, 5⟩, ⟨textS, .createKey true false, 6⟩]

/-- What is read back shows the real key again, with its values. -/
theorem reload_shows_deleted :
    ¬ ∃ o', Format.decode (Format.encode (runCalls volatileOverDeleted)) = .ok o' ∧
      ∀ p, validPath p = true → SameView (view oneKey o' p) (view oneKey (deleteAll
        (runCalls volatileOverDeleted) (runCalls volatileOverDeleted).volatileKeys 9) p) := by
  rintro ⟨o', hdecode, hsame⟩
  have hback : (Format.decode (Format.encode (runCalls volatileOverDeleted))).toOption.map
      (fun o' => view oneKey o' keyS) =
      some (some ⟨[], [⟨['v'], 1, [7]⟩], none, 1, 0⟩) := by decide +kernel
  have hgone : view oneKey (deleteAll (runCalls volatileOverDeleted)
      (runCalls volatileOverDeleted).volatileKeys 9) keyS = none := by decide +kernel
  have hview := (hsame keyS rfl).1
  rw [hdecode, Except.toOption, Option.map_some, Option.some.injEq] at hback
  rw [hgone, hback] at hview
  cases hview

end Overlay

end AetherVfs.Registry
