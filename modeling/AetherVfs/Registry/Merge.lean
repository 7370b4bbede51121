import AetherVfs.Registry.CreatedHere
import AetherVfs.Registry.Names

/-!
# The merged view

`vfs-registry/src/merge.rs`, and what the shim passes to it: the real key at a path unless it
lies below a key created here, the overlay's node, and whether the path is deleted. `Real` is
the machine's own registry, which the overlay never changes. `seen` is the same view as a
function of the folded key; the two agree on a well-formed overlay.
-/

namespace AetherVfs.Registry

open List

/-- A key as seen at one point of the merge. -/
structure KeyView where
  subkeys : List Str
  values : List Value
  className : Option (List UInt16)
  lastWrite : UInt64
  maxSubkeyClassLen : UInt32
deriving DecidableEq

section

variable [ToLowercase]

def shownValues (node : Node) (real : KeyView) : List Value :=
  real.values.filter fun v =>
    decide (fold v.name ∉ node.values.map (fun w => fold w.name) ++ node.valueTombstones)

def shownSubkeys (node : Node) (real : KeyView) : List Str :=
  real.subkeys.filter fun s =>
    !(node.children.lookup (fold s)).any fun c => decide (c.2 = Child.tombstone)

/-- The present children of the node, in the order of their folded names, that `known` does not
have yet. -/
def addedSubkeys (node : Node) (known : List Str) : List Str :=
  ((node.children.entries.insertionSort fun a b => a.1 ≤ b.1).filter fun r =>
    decide (r.2.2 = Child.present ∧ r.1 ∉ known)).map fun r => r.2.1

def merge (real : Option KeyView) (node : Option Node) (tombstoned : Bool) : Option KeyView :=
  if tombstoned || (real.isNone && node.isNone) then none
  else
    match real.filter (fun _ => !node.any Node.created), node with
    | none, none => none
    | some r, none => some r
    | none, some n =>
      some {
        subkeys := addedSubkeys n []
        values := n.values
        className := none
        lastWrite := max 0 n.lastWrite
        maxSubkeyClassLen := 0 }
    | some r, some n =>
      some {
        subkeys := shownSubkeys n r ++ addedSubkeys n (r.subkeys.map fold)
        values := n.values ++ shownValues n r
        className := r.className
        lastWrite := max r.lastWrite n.lastWrite
        maxSubkeyClassLen := r.maxSubkeyClassLen }

/-- The machine's registry: the keys by folded path, as a tree below `\Registry`. -/
structure Real where
  key : Path → Option KeyView
  top : ∀ k, (key k).isSome → root <+: k
  up : ∀ k c, root <+: k → (key (k ++ [c])).isSome → (key k).isSome
  listed : ∀ k v c, key k = some v → ((∃ s ∈ v.subkeys, fold s = c) ↔ (key (k ++ [c])).isSome)

theorem Real.none_of_above (R : Real) {a k : Path} (htop : root <+: a) (hak : a <+: k)
    (ha : R.key a = none) : R.key k = none := by
  obtain ⟨s, rfl⟩ := hak
  induction s using reverseRecOn with
  | nil => rwa [append_nil]
  | append_singleton s c ih =>
    by_contra hne
    rw [← append_assoc] at hne
    have hup := R.up (a ++ s) c (htop.trans (prefix_append _ _))
      (Option.isSome_iff_ne_none.mpr hne)
    rw [ih] at hup
    cases hup

/-- A registry with the keys on the way to `t` and no others, and values in the last one. -/
def Real.along (t : Path) (vs : List Value) (hfold : ∀ c ∈ t, fold c = c) : Real where
  key k :=
    if root <+: k ∧ k <+: t then
      some ⟨(t.drop k.length).take 1, if k = t then vs else [], none, 1, 0⟩
    else none
  top k hk := by
    by_cases h : root <+: k ∧ k <+: t
    · exact h.1
    · rw [if_neg h] at hk
      cases hk
  up k c htop hk := by
    by_cases h : root <+: k ++ [c] ∧ k ++ [c] <+: t
    · rw [if_pos ⟨htop, (List.prefix_append k [c]).trans h.2⟩]
      rfl
    · rw [if_neg h] at hk
      cases hk
  listed k v c hk := by
    by_cases h : root <+: k ∧ k <+: t
    · rw [if_pos h] at hk
      cases hk
      obtain ⟨htop, s, rfl⟩ := h
      have hbelow : root <+: k ++ [c] := htop.trans (List.prefix_append k [c])
      rw [List.drop_left]
      cases s with
      | nil => simp [not_append_prefix_self]
      | cons d s =>
        have hd : fold d = d := hfold d (by simp)
        by_cases hc : d = c
        · subst hc
          simp [hd, hbelow]
        · have hno : ¬ k ++ [c] <+: k ++ d :: s := by
            rw [List.prefix_append_right_inj, List.cons_prefix_cons]
            exact fun hcd => hc hcd.1.symm
          simp [hd, hc, hno]
    · rw [if_neg h] at hk
      cases hk

namespace Overlay

def view (R : Real) (o : Overlay) (p : Path) : Option KeyView :=
  merge ((R.key (foldPath p)).filter fun _ => !o.belowCreated p) (o.node p)
    (decide ((o.lookup p).1 = .tombstoned))

/-- The real key at `k` cannot show: it or a key above it is deleted, or a key above it was
created here. -/
def hidden (o : Overlay) (k : Path) : Bool :=
  k.inits.any fun a => decide (a ∈ o.tombs) ||
    (decide (a ≠ k) && (o.entries.lookup a).any fun e => e.node.created)

omit [ToLowercase] in
theorem hidden_iff {o : Overlay} {k : Path} : o.hidden k = true ↔
    (∃ a, a <+: k ∧ a ∈ o.tombs) ∨
      ∃ a e, a <+: k ∧ a ≠ k ∧ o.entries.lookup a = some e ∧ e.node.created = true := by
  simp only [hidden, any_eq_true, mem_inits, Bool.or_eq_true, Bool.and_eq_true,
    decide_eq_true_eq, Option.any_eq_true]
  constructor
  · rintro ⟨a, ha, ht | ⟨hne, e, he, hcr⟩⟩
    · exact Or.inl ⟨a, ha, ht⟩
    · exact Or.inr ⟨a, e, ha, hne, he, hcr⟩
  · rintro (⟨a, ha, ht⟩ | ⟨a, e, ha, hne, he, hcr⟩)
    · exact ⟨a, ha, Or.inl ht⟩
    · exact ⟨a, ha, Or.inr ⟨hne, e, he, hcr⟩⟩

/-- The merged view by folded key. -/
def seen (R : Real) (o : Overlay) (k : Path) : Option KeyView :=
  match o.entries.lookup k with
  | some e => merge (if e.node.created then none else R.key k) (some e.node) false
  | none => if o.hidden k then none else R.key k

theorem seen_of_lookup (R : Real) {o : Overlay} {k : Path} {e : Entry}
    (he : o.entries.lookup k = some e) :
    o.seen R k = merge (if e.node.created then none else R.key k) (some e.node) false := by
  rw [seen, he]

theorem seen_of_none (R : Real) {o : Overlay} {k : Path} (he : o.entries.lookup k = none) :
    o.seen R k = if o.hidden k then none else R.key k := by
  rw [seen, he]

end Overlay

theorem merge_none_none (real : Option KeyView) : merge real none false = real := by
  cases real <;> rfl

theorem merge_created {real : Option KeyView} {n : Node} (h : n.created = true) :
    merge real (some n) false = merge none (some n) false := by
  cases real <;> simp [merge, h]

theorem merge_none_some (n : Node) : merge none (some n) false = some {
    subkeys := addedSubkeys n []
    values := n.values
    className := none
    lastWrite := max 0 n.lastWrite
    maxSubkeyClassLen := 0 } := rfl

theorem merge_some_some (r : KeyView) {n : Node} (h : n.created = false) :
    merge (some r) (some n) false = some {
      subkeys := shownSubkeys n r ++ addedSubkeys n (r.subkeys.map fold)
      values := n.values ++ shownValues n r
      className := r.className
      lastWrite := max r.lastWrite n.lastWrite
      maxSubkeyClassLen := r.maxSubkeyClassLen } := by
  have hkeep : (some r).filter (fun _ => !(some n).any Node.created) = some r := by simp [h]
  unfold merge
  rw [hkeep]
  rfl

theorem isSome_merge_some (real : Option KeyView) (n : Node) :
    (merge real (some n) false).isSome = true := by
  unfold merge
  simp only [Option.isNone_some, Bool.and_false, Bool.or_false]
  rw [if_neg (by simp)]
  split <;> simp_all

theorem foldPath_of_parent_none {p : Path} (hp : validPath p = true) (hnone : parent p = none) :
    foldPath p = root := by
  obtain ⟨r, rest, hshape, hr, -⟩ := Overlay.validPath_iff.mp hp
  have hnil : rest = [] := by
    cases rest with
    | nil => rfl
    | cons c rest => simp [hshape, parent] at hnone
  simp [hshape, hnil, foldPath, hr, root]

theorem mem_ancestors_foldPath {p : Path} (hp : validPath p = true) {k : Path} :
    k ∈ (ancestors p).map foldPath ↔ root <+: k ∧ k <+: foldPath p ∧ k ≠ foldPath p := by
  induction hn : p.length using Nat.strong_induction_on generalizing p with
  | h n ih =>
    cases hq : parent p with
    | none =>
      rw [ancestors, hq, foldPath_of_parent_none hp hq]
      simp only [Option.elim, map_nil, not_mem_nil, false_iff]
      rintro ⟨h1, h2, h3⟩
      exact h3 (h2.eq_of_length_le h1.length_le)
    | some q =>
      obtain ⟨hvalid, -⟩ := Overlay.validPath_parent hp hq
      have hfold := Overlay.foldPath_parent hp hq
      have hrec := ih q.length (hn ▸ length_parent hq) hvalid rfl
      have hqtop : root <+: foldPath q := by
        obtain ⟨r', rest', hshape', hr', -⟩ := Overlay.validPath_iff.mp hvalid
        rw [hshape']
        exact ⟨foldPath rest', by simp [root, foldPath, hr']⟩
      rw [ancestors_of_parent hq, map_cons, mem_cons, hrec, hfold]
      constructor
      · rintro (rfl | ⟨h1, h2, -⟩)
        · exact ⟨hqtop, prefix_append _ _, by simp⟩
        · refine ⟨h1, h2.trans (prefix_append _ _), ?_⟩
          rintro rfl
          exact not_append_prefix_self h2
      · rintro ⟨h1, h2, h3⟩
        rcases prefix_concat_iff.mp h2 with rfl | h2
        · exact absurd rfl h3
        · by_cases heq : k = foldPath q
          · exact Or.inl heq
          · exact Or.inr ⟨h1, h2, heq⟩

namespace Overlay

variable {o : Overlay} {p : Path}

theorem root_prefix_foldPath (hp : validPath p = true) : root <+: foldPath p := by
  obtain ⟨r, rest, rfl, hr, -⟩ := validPath_iff.mp hp
  exact ⟨foldPath rest, by simp [root, foldPath, hr]⟩

theorem Inv.root_prefix_tomb (h : Inv o) {t : Path} (ht : t ∈ o.tombs) : root <+: t := by
  induction t using reverseRecOn with
  | nil => exact absurd ht h.tree.tomb_nil
  | append_singleton t c _ =>
    exact (h.tree.top t (h.tree.has_of_tomb ht)).trans (prefix_append t [c])

theorem Inv.isTombstoned_iff (h : Inv o) (hp : validPath p = true) :
    o.isTombstoned (foldPath p) = true ↔ ∃ a, a <+: foldPath p ∧ a ∈ o.tombs := by
  rw [Overlay.isTombstoned_iff]
  constructor
  · rintro (ht | ⟨a, ha, ht⟩)
    · exact ⟨_, prefix_rfl, ht⟩
    · have hmem := (mem_ancestors_foldPath hp).mp (mem_map_of_mem (f := foldPath) ha)
      exact ⟨_, hmem.2.1, ht⟩
  · rintro ⟨a, ha, ht⟩
    by_cases heq : a = foldPath p
    · exact Or.inl (heq ▸ ht)
    · have hmem := (mem_ancestors_foldPath hp).mpr ⟨h.root_prefix_tomb ht, ha, heq⟩
      obtain ⟨b, hb, rfl⟩ := mem_map.mp hmem
      exact Or.inr ⟨b, hb, ht⟩

theorem Inv.belowCreated_keys (h : Inv o) (hp : validPath p = true) :
    o.belowCreated p = true ↔ ∃ a, a <+: foldPath p ∧ a ≠ foldPath p ∧
      (a ∈ o.tombs ∨ ∃ e, o.entries.lookup a = some e ∧ e.node.created = true) := by
  rw [h.belowCreated_iff]
  constructor
  · rintro ⟨a, ha, -, hhide⟩
    have hmem := (mem_ancestors_foldPath hp).mp (mem_map_of_mem (f := foldPath) ha)
    exact ⟨_, hmem.2.1, hmem.2.2, hhide.symm⟩
  · rintro ⟨a, ha, hne, hhide⟩
    have htop : root <+: a := by
      rcases hhide with ht | ⟨e, he, -⟩
      · exact h.root_prefix_tomb ht
      · exact h.tree.top a (Table.mem_of_lookup he)
    have hmem := (mem_ancestors_foldPath hp).mpr ⟨htop, ha, hne⟩
    obtain ⟨b, hb, rfl⟩ := mem_map.mp hmem
    exact ⟨b, hb, (validPath_ancestors hp hb).1, hhide.symm⟩

theorem Inv.hidden_iff_lookup (h : Inv o) (hp : validPath p = true)
    (hnone : o.entries.lookup (foldPath p) = none) : o.hidden (foldPath p) = true ↔
      (o.lookup p).1 = .tombstoned ∨ o.belowCreated p = true := by
  have hlook : (o.lookup p).1 = .tombstoned ↔ o.isTombstoned (foldPath p) = true := by
    simp only [Overlay.lookup, hp, not_true_eq_false, if_false, hnone]
    split_ifs with ht <;> simp [ht]
  rw [hlook, h.isTombstoned_iff hp, h.belowCreated_keys hp, hidden_iff]
  constructor
  · rintro (ht | ⟨a, e, ha, hne, he, hcr⟩)
    · exact Or.inl ht
    · exact Or.inr ⟨a, ha, hne, Or.inr ⟨e, he, hcr⟩⟩
  · rintro (ht | ⟨a, ha, hne, ht | ⟨e, he, hcr⟩⟩)
    · exact Or.inl ht
    · exact Or.inl ⟨a, ha, ht⟩
    · exact Or.inr ⟨a, e, ha, hne, he, hcr⟩

theorem Inv.view_eq_seen (h : Inv o) (R : Real) (hp : validPath p = true) :
    o.view R p = o.seen R (foldPath p) := by
  cases he : o.entries.lookup (foldPath p) with
  | some e =>
    have hpresent : (o.lookup p).1 = .present e.node.created := by
      simp [Overlay.lookup, hp, he]
    have hnode : o.node p = some e.node := by rw [Overlay.node, he]; rfl
    rw [seen_of_lookup R he, view, hnode, hpresent]
    by_cases hcr : e.node.created = true
    · rw [if_pos hcr, merge_created hcr]
      simp [merge_created hcr]
    · have hbelow : ¬ o.belowCreated p = true := by
        rw [h.belowCreated_keys hp]
        rintro ⟨a, ha, hne, ht | ⟨d, hd, hdcr⟩⟩
        · exact h.tree.not_has_below_tomb ht ha (Table.mem_of_lookup he)
        · obtain ⟨s, hs⟩ := ha
          exact hcr (h.created_below hd (hs ▸ he) hdcr)
      have hid : (R.key (foldPath p)).filter (fun _ => !o.belowCreated p) =
          R.key (foldPath p) := by
        cases R.key (foldPath p) <;> simp [hbelow]
      rw [if_neg hcr, hid]
      simp
  | none =>
    have hnode : o.node p = none := by rw [Overlay.node, he]; rfl
    rw [seen_of_none R he, view, hnode]
    by_cases htomb : (o.lookup p).1 = .tombstoned
    · rw [if_pos ((h.hidden_iff_lookup hp he).mpr (Or.inl htomb))]
      simp [merge, htomb]
    · have hdec : decide ((o.lookup p).1 = Lookup.tombstoned) = false := decide_eq_false htomb
      rw [hdec, merge_none_none]
      by_cases hbelow : o.belowCreated p = true
      · rw [if_pos ((h.hidden_iff_lookup hp he).mpr (Or.inr hbelow))]
        simp [hbelow]
      · have hshow : ¬ o.hidden (foldPath p) = true := by
          rw [h.hidden_iff_lookup hp he]
          rintro (ht | hb)
          · exact htomb ht
          · exact hbelow hb
        rw [if_neg hshow]
        cases R.key (foldPath p) <;> simp [hbelow]

end Overlay

end

end AetherVfs.Registry
