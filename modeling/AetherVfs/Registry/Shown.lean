import AetherVfs.Registry.Changed

/-!
# What a process finds at a key

The merged view of a key as far as programs compare it: whether the key is there, and its values
by folded name. The subkeys need no separate account: a key lists a name exactly when there is a
key below it by that name. One lemma for each way a mutator changes the maps says what it does to
all the keys at once.
-/

namespace AetherVfs.Registry

open List AList Table

section

variable [ToLowercase]

/-- The values of a key by folded name: the type and the data. -/
abbrev PlainKey := Str → Option (UInt32 × List UInt8)

def valueOf (vs : List Value) : PlainKey := fun f =>
  (vs.find? fun v => decide (fold v.name = f)).map fun v => (v.ty, v.data)

theorem valueOf_append (vs ws : List Value) (f : Str) :
    valueOf (vs ++ ws) f = (valueOf vs f).or (valueOf ws f) := by
  rw [valueOf, find?_append, Option.map_or, valueOf, valueOf]

theorem valueOf_eq_none {vs : List Value} {f : Str} :
    valueOf vs f = none ↔ ∀ v ∈ vs, fold v.name ≠ f := by
  simp [valueOf]

theorem valueOf_filter (vs : List Value) (keep : Str → Bool) (f : Str) :
    valueOf (vs.filter fun v => keep (fold v.name)) f = if keep f then valueOf vs f else none := by
  have hname : ∀ v : Value, (keep (fold v.name) = true ∧ decide (fold v.name = f) = true) ↔
      (keep f = true ∧ decide (fold v.name = f) = true) := by
    intro v
    refine and_congr_left fun hv => ?_
    rw [of_decide_eq_true hv]
  simp only [valueOf, find?_filter, hname]
  cases keep f <;> simp

theorem valueOf_putValue (name : Str) (ty : UInt32) (data : List UInt8) (vs : List Value) (f : Str) :
    valueOf (Overlay.putValue name ty data vs) f =
      if f = fold name then some (ty, data) else valueOf vs f := by
  induction vs with
  | nil =>
    by_cases hf : f = fold name
    · simp [Overlay.putValue, valueOf, hf]
    · simp [Overlay.putValue, valueOf, hf, Ne.symm hf]
  | cons v vs ih =>
    simp only [valueOf] at ih ⊢
    by_cases hv : fold v.name = fold name
    · rw [Overlay.putValue, if_pos hv]
      by_cases hf : f = fold name
      · simp [hv, hf]
      · have hne : ¬ fold v.name = f := fun h => hf (h ▸ hv)
        simp [hf, hne]
    · rw [Overlay.putValue, if_neg hv]
      by_cases hf : fold v.name = f
      · subst hf
        simp [hv]
      · simp [hf, ih]

/-- The values that show at a key with a node, over the real key there. -/
def Node.over (n : Node) (real : Option KeyView) : PlainKey := fun f =>
  (valueOf n.values f).or (if n.created || decide (f ∈ n.valueTombstones) then none
    else real.bind fun r => valueOf r.values f)

/-- The values of a merged key: those of the node, then those of the real key that are neither
replaced nor deleted. -/
theorem merge_values (real : Option KeyView) (n : Node) :
    (merge (if n.created then none else real) (some n) false).map (fun v => valueOf v.values) =
      some (n.over real) := by
  by_cases hcr : n.created = true
  · rw [if_pos hcr, merge_none_some, Option.map_some]
    congr 1
    funext f
    simp [Node.over, hcr]
  · rw [if_neg hcr]
    cases real with
    | none =>
      rw [merge_none_some, Option.map_some]
      congr 1
      funext f
      simp [Node.over]
    | some r =>
      rw [merge_some_some r (Bool.not_eq_true _ ▸ hcr), Option.map_some]
      congr 1
      funext f
      rw [valueOf_append, shownValues, valueOf_filter r.values (fun f => decide
        (f ∉ n.values.map (fun w => fold w.name) ++ n.valueTombstones)) f]
      cases hv : valueOf n.values f with
      | some x => simp [Node.over, hv]
      | none =>
        have hnot : f ∉ n.values.map fun w => fold w.name := by
          intro hmem
          obtain ⟨w, hw, hwf⟩ := mem_map.mp hmem
          exact valueOf_eq_none.mp hv w hw hwf
        by_cases ht : f ∈ n.valueTombstones
        · simp [Node.over, hv, ht]
        · simp [Node.over, hv, ht, hnot, hcr]

namespace Overlay

def shown (R : Real) (o : Overlay) (k : Path) : Option PlainKey :=
  (o.seen R k).map fun v => valueOf v.values

variable {R : Real} {o o' : Overlay} {k : Path}

theorem isSome_shown : (o.shown R k).isSome = (o.seen R k).isSome := Option.isSome_map

variable {e : Entry}

theorem shown_of_lookup (he : o.entries.lookup k = some e) :
    o.shown R k = some (e.node.over (R.key k)) := by
  rw [shown, seen_of_lookup R he, merge_values]

theorem shown_of_none (he : o.entries.lookup k = none) :
    o.shown R k = if o.hidden k then none else (R.key k).map fun v => valueOf v.values := by
  rw [shown, seen_of_none R he]
  split_ifs <;> rfl

theorem over_of_fresh {v : ℕ} (hf : Fresh v e) (real : Option KeyView) :
    e.node.over real = fun f =>
      if e.node.created then none else real.bind fun r => valueOf r.values f := by
  funext f
  simp [Node.over, hf.values, hf.valueTombstones, valueOf]

theorem over_congr {n n' : Node} (hv : n'.values = n.values)
    (ht : n'.valueTombstones = n.valueTombstones) (hc : n'.created = n.created)
    (real : Option KeyView) : n'.over real = n.over real := by
  funext f
  simp only [Node.over, hv, ht, hc]

/-! ## The tree of visible keys -/

theorem Inv.shown_above (h : Inv o) {j : Path} (htop : root <+: j) (hjk : j <+: k)
    (hk : (o.shown R k).isSome) : (o.shown R j).isSome := by
  cases hj : o.entries.lookup j with
  | some e => simp [shown_of_lookup hj]
  | none =>
    have hout : k ∉ o.entries := fun hin =>
      lookup_eq_none.mp hj (h.tree.has_above hin htop hjk)
    rw [shown_of_none (lookup_eq_none.mpr hout)] at hk
    rw [shown_of_none hj]
    by_cases hhid : o.hidden j = true
    · rw [if_pos (hidden_of_above hjk hhid)] at hk
      cases hk
    · rw [if_neg hhid, Option.isSome_map]
      by_contra hno
      have hnone := R.none_of_above htop hjk (Option.not_isSome_iff_eq_none.mp hno)
      rw [hnone, Option.map_none, ite_self] at hk
      cases hk

theorem not_hidden_of_shown (hk : (o.shown R k).isSome) (hout : k ∉ o.entries) :
    ¬ o.hidden k = true := by
  intro hhid
  rw [shown_of_none (lookup_eq_none.mpr hout), if_pos hhid] at hk
  cases hk

theorem mem_addedSubkeys {n : Node} (hn : NodeOk n) (known : List Str) (c : Str) :
    (∃ s ∈ addedSubkeys n known, fold s = c) ↔
      (n.children.lookup c).map Prod.snd = some .present ∧ c ∉ known := by
  simp only [addedSubkeys, mem_map, mem_filter, decide_eq_true_eq]
  constructor
  · rintro ⟨s, ⟨⟨c', sp, st⟩, ⟨hmem, hst, hknown⟩, rfl⟩, rfl⟩
    have hlook : n.children.lookup c' = some (sp, st) :=
      mem_lookup_iff.mpr ((mem_insertionSort _).mp hmem)
    dsimp only at hst hknown ⊢
    rw [hn.children_folded c' sp st hlook, hlook, hst]
    exact ⟨rfl, hknown⟩
  · rintro ⟨hpresent, hknown⟩
    obtain ⟨⟨sp, st⟩, hlook, hst⟩ := Option.map_eq_some_iff.mp hpresent
    refine ⟨sp, ⟨⟨c, sp, st⟩, ⟨?_, hst, hknown⟩, rfl⟩, hn.children_folded c sp st hlook⟩
    exact (mem_insertionSort _).mpr (mem_lookup_iff.mp hlook)

theorem mem_shownSubkeys (n : Node) (r : KeyView) (c : Str) :
    (∃ s ∈ shownSubkeys n r, fold s = c) ↔
      c ∈ r.subkeys.map fold ∧ (n.children.lookup c).map Prod.snd ≠ some .tombstone := by
  simp only [shownSubkeys, mem_filter, mem_map]
  constructor
  · rintro ⟨s, ⟨hs, hlive⟩, rfl⟩
    refine ⟨⟨s, hs, rfl⟩, fun ht => ?_⟩
    obtain ⟨x, hx, hxt⟩ := Option.map_eq_some_iff.mp ht
    simp [hx, hxt] at hlive
  · rintro ⟨⟨s, hs, rfl⟩, hlive⟩
    refine ⟨s, ⟨hs, ?_⟩, rfl⟩
    cases hx : n.children.lookup (fold s) with
    | none => rfl
    | some x =>
      rw [hx] at hlive
      simpa using hlive

theorem Inv.shown_concat (h : Inv o) (hk : o.entries.lookup k = some e) (c : Str) :
    (o.shown R (k ++ [c])).isSome ↔ (e.node.children.lookup c).map Prod.snd = some .present ∨
      ((e.node.children.lookup c).map Prod.snd ≠ some .tombstone ∧ e.node.created = false ∧
        (R.key (k ++ [c])).isSome) := by
  have hin : k ∈ o.entries := mem_of_lookup hk
  have hhid : o.hidden (k ++ [c]) = true ↔ k ++ [c] ∈ o.tombs ∨ e.node.created = true := by
    rw [h.hidden_concat]
    simp [hk, hin]
  rw [← childState_of_lookup hk, Ne, h.tree.present_iff, h.tree.tombstone_iff]
  cases hc : o.entries.lookup (k ++ [c]) with
  | some d => simp [shown_of_lookup hc, hin, mem_of_lookup hc]
  | none =>
    have hno := lookup_eq_none.mp hc
    rw [shown_of_none hc]
    by_cases hb : o.hidden (k ++ [c]) = true <;> simp [hno, hb] <;> grind

theorem Inv.subkeys_iff (h : Inv o) {v : KeyView} (hv : o.seen R k = some v) (c : Str) :
    (∃ s ∈ v.subkeys, fold s = c) ↔ (o.shown R (k ++ [c])).isSome := by
  cases hk : o.entries.lookup k with
  | none =>
    have hout := lookup_eq_none.mp hk
    have hvis : (o.shown R k).isSome := by rw [isSome_shown, hv]; rfl
    have hhid := not_hidden_of_shown hvis hout
    rw [seen_of_none R hk, if_neg hhid] at hv
    have hnoentry : k ++ [c] ∉ o.entries := fun hin =>
      hout (h.tree.has_above hin (R.top k (by rw [hv]; rfl)) (prefix_append _ _))
    have hshow : ¬ o.hidden (k ++ [c]) = true := by
      rw [h.hidden_concat]
      rintro (ht | ⟨e, he, -⟩ | ⟨-, hb⟩)
      · exact hout (h.tree.has_of_tomb ht)
      · rw [hk] at he
        cases he
      · exact hhid hb
    rw [shown_of_none (lookup_eq_none.mpr hnoentry), if_neg hshow, Option.isSome_map]
    exact R.listed k v c hv
  | some e =>
    have hnode := h.node k e hk
    rw [h.shown_concat hk]
    rw [seen_of_lookup R hk] at hv
    by_cases hcr : e.node.created = true
    · rw [if_pos hcr, merge_none_some, Option.some.injEq] at hv
      subst hv
      rw [mem_addedSubkeys hnode]
      simp [hcr]
    · rw [if_neg hcr] at hv
      rw [Bool.not_eq_true] at hcr
      cases hr : R.key k with
      | none =>
        have htop := h.tree.top k (mem_of_lookup hk)
        have hno := R.none_of_above htop (prefix_append k [c]) hr
        rw [hr, merge_none_some, Option.some.injEq] at hv
        subst hv
        rw [mem_addedSubkeys hnode]
        simp [hno]
      | some r =>
        have hknown : c ∈ r.subkeys.map fold ↔ (R.key (k ++ [c])).isSome := by
          rw [← R.listed k r c hr, mem_map]
        rw [hr, merge_some_some r hcr, Option.some.injEq] at hv
        subst hv
        simp only [mem_append, or_and_right, exists_or]
        rw [mem_shownSubkeys, mem_addedSubkeys hnode, hknown, hcr]
        by_cases hreal : (R.key (k ++ [c])).isSome = true <;> simp [hreal]
        grind

/-! ## What the mutators do -/

theorem shown_congr (hhidden : o'.hidden k = o.hidden k)
    (hover : ∀ real, (o'.entries.lookup k).map (fun e => e.node.over real) =
      (o.entries.lookup k).map fun e => e.node.over real) :
    o'.shown R k = o.shown R k := by
  have hover := hover (R.key k)
  cases he : o.entries.lookup k with
  | some e =>
    rw [he] at hover
    obtain ⟨e', he', heq⟩ := Option.map_eq_some_iff.mp hover
    rw [shown_of_lookup he, shown_of_lookup he', heq]
  | none =>
    rw [he] at hover
    have he' := Option.map_eq_none_iff.mp hover
    rw [shown_of_none he, shown_of_none he', hhidden]

theorem shown_touchAncestors (o : Overlay) {path : Path} (hp : validPath path = true) (v : ℕ)
    (k : Path) : (o.touchAncestors path v).shown R k = o.shown R k := by
  refine shown_congr (hidden_touchAncestors o path v k) fun real => ?_
  rw [lookup_touchAncestors hp]
  exact map_map_eq fun e => by split_ifs <;> rfl

theorem shown_mark {path : Path} (hp : validPath path = true) {g : Entry → Entry}
    (hg : ∀ e, (g e).node.created = e.node.created)
    (he : o.entries.lookup (foldPath path) = some e) (v : ℕ) (k : Path) :
    ((o.modify (foldPath path) g).mark path v).shown R k =
      if k = foldPath path then some ((g e).node.over (R.key k)) else o.shown R k := by
  rw [Overlay.mark, shown_touchAncestors _ hp]
  set o' := (o.modify (foldPath path) g).modify (foldPath path) fun e => { e with changed := v }
  have hlookup : ∀ a, o'.entries.lookup a = if a = foldPath path then
      (o.entries.lookup a).map (fun e => { g e with changed := v }) else o.entries.lookup a := by
    intro a
    simp only [o', Overlay.modify, modify_modify, lookup_modify]
    rfl
  by_cases hk : k = foldPath path
  · have he' : o'.entries.lookup k = some { g e with changed := v } := by
      rw [hlookup, if_pos hk, hk, he]
      rfl
    rw [if_pos hk, shown_of_lookup he']
  · rw [if_neg hk]
    refine shown_congr ?_ fun real => by rw [hlookup, if_neg hk]
    rw [hidden_modify (by simp), hidden_modify hg]

theorem Grown.hidden_eq {t : Path} {real : Bool} {v : ℕ} (hg : Grown o o' t real v) (h : Inv o)
    (hk : real = false → ¬ t <+: k) (hout : k ∉ o'.entries) : o'.hidden k = o.hidden k := by
  rw [Bool.eq_iff_iff]
  constructor
  · intro hhid
    rcases hidden_iff.mp hhid with ⟨a, ha, ht⟩ | ⟨a, e', ha, hne, hae', hcr⟩
    · exact hidden_iff.mpr (Or.inl ⟨a, ha, ((hg.tombs a).mp ht).1⟩)
    · cases hae : o.entries.lookup a with
      | some e =>
        obtain ⟨e₂, he₂, hwide, -⟩ := hg.kept a e hae
        rw [hae'] at he₂
        cases he₂
        exact hidden_iff.mpr (Or.inr ⟨a, e, ha, hne, hae, hwide.created ▸ hcr⟩)
      | none =>
        rcases (hg.created a e' hae' (lookup_eq_none.mp hae)).mp hcr with hb | ⟨rfl, hr⟩
        · exact hidden_of_above ha hb
        · exact absurd ha (hk hr)
  · intro hhid
    exact (hg.hides h (Or.inl hhid)).resolve_right hout

theorem Grown.shown_eq {t : Path} {real : Bool} {v : ℕ} (hg : Grown o o' t real v) (h : Inv o)
    (h' : Inv o')
    (hway : ∀ j, root <+: j → j <+: t → (real = false → j ≠ t) → (o.shown R j).isSome)
    (hk : real = false → ¬ t <+: k) : o'.shown R k = o.shown R k := by
  cases he : o.entries.lookup k with
  | some e =>
    obtain ⟨e', he', hwide, -⟩ := hg.kept k e he
    rw [shown_of_lookup he, shown_of_lookup he',
      over_congr hwide.values hwide.valueTombstones hwide.created]
  | none =>
    have hout := lookup_eq_none.mp he
    cases he' : o'.entries.lookup k with
    | some e' =>
      -- A new node on the way: the real key shows through it.
      have hin' : k ∈ o'.entries := mem_of_lookup he'
      have hkt := hg.way k hin' hout
      have hne : real = false → k ≠ t := fun hr heq => hk hr (heq ▸ prefix_rfl)
      have hvis := hway k (h'.tree.top k hin') hkt hne
      have hhid := not_hidden_of_shown hvis hout
      have hcr : e'.node.created = false := by
        rw [← Bool.not_eq_true, hg.created k e' he' hout]
        rintro (hb | ⟨heq, hr⟩)
        · exact hhid hb
        · exact hne hr heq
      rw [shown_of_none he, if_neg hhid, Option.isSome_map] at hvis
      obtain ⟨r, hr⟩ := Option.isSome_iff_exists.mp hvis
      rw [shown_of_lookup he', shown_of_none he, if_neg hhid, hr,
        over_of_fresh (hg.fresh k e' he' hout)]
      simp [hcr]
    | none =>
      rw [shown_of_none he, shown_of_none he', hg.hidden_eq h hk (lookup_eq_none.mp he')]

theorem Grown.shown_created {t : Path} {v : ℕ} (hg : Grown o o' t false v) (h : Inv o)
    (htop : root <+: t) (hout : t ∉ o.entries) (hin : t ∈ o'.entries) (hk : t <+: k) :
    o'.shown R k = if k = t then some (fun _ => none) else none := by
  obtain ⟨e', he'⟩ := exists_lookup hin
  have hcr := (hg.created t e' he' hout).mpr (Or.inr ⟨rfl, rfl⟩)
  by_cases heq : k = t
  · subst heq
    rw [if_pos rfl, shown_of_lookup he', over_of_fresh (hg.fresh k e' he' hout), hcr]
    rfl
  · have hnone : k ∉ o'.entries := by
      intro hk'
      have hout' : k ∉ o.entries := fun hk₀ => hout (h.tree.has_above hk₀ htop hk)
      have hle := (hg.way k hk' hout').length_le
      exact heq (hk.eq_of_length_le hle).symm
    have hhid : o'.hidden k = true :=
      hidden_iff.mpr (Or.inr ⟨t, e', hk, Ne.symm heq, he', hcr⟩)
    rw [if_neg heq, shown_of_none (lookup_eq_none.mpr hnone), if_pos hhid]

section Cut

variable (o) (p : Path) (name : Str) (v : ℕ) (now : UInt64)

theorem shown_cutBelow (k : Path) : (o.cutBelow p name v now).shown R k =
    if p ++ [fold name] <+: k then none else o.shown R k := by
  by_cases hk : p ++ [fold name] <+: k
  · have he' : (o.cutBelow p name v now).entries.lookup k = none := by
      rw [lookup_cutBelow, if_pos hk]
    rw [if_pos hk, shown_of_none he', if_pos (hidden_cutBelow_self o p name v now hk)]
  · rw [if_neg hk]
    have hover := fun real => map_cutBelow o p name v now (g := (Node.over · real)) (fun _ => rfl) hk
    exact shown_congr (hidden_cutBelow o p name v now hk) hover

end Cut

end Overlay

end

end AetherVfs.Registry
