import AetherVfs.Lib.Stamps
import AetherVfs.Registry.Chain

/-!
# Change notification

`changed_since` reads the stamps of a node, or for a key without one the record of deletions.
Every mutator is shown to be a step of `Stamps.Next` at its version, so the stamps tell about
every earlier version of a run what a client needs: a key that is not reported as changed is as
it was.
-/

namespace AetherVfs.Registry

open Stamps List Table

namespace Overlay

/-- The version of the last removal recorded for a key: its own mark, or the floor when the
marks were dropped. -/
def removed (o : Overlay) (q : Path) : ℕ := max o.deletedFloor ((o.deletedAt.lookup q).getD 0)

def book (o : Overlay) : Book Path (Path × Node) where
  record k := (o.entries.lookup k).map fun e => (e.path, e.node)
  changed k := ((o.entries.lookup k).map Entry.changed).getD 0
  subtree k := ((o.entries.lookup k).map Entry.subtree).getD 0
  removed := o.removed

variable {k : Path} {real : Bool}

theorem book_of_lookup {o : Overlay} {e : Entry} (h : o.entries.lookup k = some e) :
    o.book.record k = some (e.path, e.node) ∧ o.book.changed k = e.changed ∧
      o.book.subtree k = e.subtree := by
  simp [book, h]

theorem record_eq_none {o : Overlay} : o.book.record k = none ↔ k ∉ o.entries := by
  simp only [book, Option.map_eq_none_iff]
  exact AList.lookup_eq_none

theorem exists_of_record {o : Overlay} (h : o.book.record k ≠ none) :
    ∃ e, o.entries.lookup k = some e := by
  rw [Ne, record_eq_none, not_not] at h
  exact exists_lookup h

/-! ## The record of deletions -/

theorem le_foldl_max (l : List ℕ) (m : ℕ) : m ≤ l.foldl max m ∧ ∀ x ∈ l, x ≤ l.foldl max m := by
  induction l generalizing m with
  | nil => simp
  | cons y l ih =>
    obtain ⟨hm, hl⟩ := ih (max m y)
    refine ⟨(le_max_left m y).trans hm, fun x hx => ?_⟩
    rcases mem_cons.mp hx with rfl | hx
    · exact (le_max_right m x).trans hm
    · exact hl x hx

theorem removed_tomb (o : Overlay) (f : Path) (v : ℕ) :
    v ≤ (o.tomb f v).removed f ∧ ∀ q, o.removed q ≤ (o.tomb f v).removed q := by
  set marks := o.deletedAt.insert f (max ((o.deletedAt.lookup f).getD 0) v) with hmarks
  have hmark : ∀ q, marks.lookup q = if q = f then
      some (max ((o.deletedAt.lookup f).getD 0) v) else o.deletedAt.lookup q :=
    lookup_insert_eq_ite _ _ _
  have hgrow : ∀ q, (o.deletedAt.lookup q).getD 0 ≤ (marks.lookup q).getD 0 := by
    intro q
    rw [hmark]
    split_ifs with hq
    · subst hq
      exact le_max_left _ _
    · exact le_rfl
  have hv : v ≤ (marks.lookup f).getD 0 := by
    rw [hmark, if_pos rfl]
    exact le_max_right _ _
  have hnewest : ∀ q, (marks.lookup q).getD 0 ≤ (marks.entries.map fun r => r.2).foldl max 0 := by
    intro q
    cases hq : marks.lookup q with
    | none => exact Nat.zero_le _
    | some t =>
      exact (le_foldl_max _ 0).2 t (mem_map.mpr ⟨⟨q, t⟩, AList.mem_lookup_iff.mp hq, rfl⟩)
  have hremoved : ∀ q, (o.tomb f v).removed q = if maxDeletedAt < marks.keys.length then
      max o.deletedFloor ((marks.entries.map fun r => r.2).foldl max 0)
      else max o.deletedFloor ((marks.lookup q).getD 0) := by
    intro q
    simp only [removed, tomb, ← hmarks]
    split_ifs <;> simp
  refine ⟨?_, fun q => ?_⟩
  · have hf := hnewest f
    rw [hremoved]
    split_ifs <;> omega
  · have hq := hgrow q
    have hq' := hnewest q
    rw [hremoved, removed]
    split_ifs <;> omega

theorem removed_foldl_tomb {ι : Type*} (rows : List ι) (key : ι → Path) (o : Overlay) (v : ℕ) :
    (∀ q, o.removed q ≤ (rows.foldl (fun o r => o.tomb (key r) v) o).removed q) ∧
      ∀ r ∈ rows, v ≤ (rows.foldl (fun o r => o.tomb (key r) v) o).removed (key r) := by
  induction rows generalizing o with
  | nil => exact ⟨fun _ => le_rfl, by simp⟩
  | cons r rows ih =>
    obtain ⟨hgrow, hmark⟩ := ih (o.tomb (key r) v)
    obtain ⟨hself, hold⟩ := removed_tomb o (key r) v
    refine ⟨fun q => (hold q).trans (hgrow q), fun r' hr' => ?_⟩
    rcases mem_cons.mp hr' with rfl | hr'
    · exact hself.trans (hgrow _)
    · exact hmark r' hr'

variable [ToLowercase] {o o' : Overlay} {path : Path} {v : ℕ} {now : UInt64}

/-! ## The stamps of the ancestors -/

theorem lookup_foldl_touch (ps : List Path) (o : Overlay) (v : ℕ) (k : Path) :
    (ps.foldl (fun o p => o.modify (foldPath p) fun e => { e with subtree := v })
      o).entries.lookup k = (o.entries.lookup k).map fun e =>
        if k ∈ ps.map foldPath then { e with subtree := v } else e := by
  induction ps generalizing o with
  | nil => simp
  | cons p ps ih =>
    rw [foldl_cons, ih]
    simp only [modify, lookup_modify, map_cons, mem_cons]
    by_cases hk : k = foldPath p
    · simp only [hk, if_true, true_or, Option.map_map]
      congr 1
      funext e
      simp
    · simp [hk]

theorem lookup_touchAncestors (hp : validPath path = true) (o : Overlay) (v : ℕ) (k : Path) :
    (o.touchAncestors path v).entries.lookup k = (o.entries.lookup k).map fun e =>
      if root <+: k ∧ k <+: foldPath path ∧ k ≠ foldPath path then { e with subtree := v }
      else e := by
  rw [touchAncestors, lookup_foldl_touch]
  simp only [mem_ancestors_foldPath hp]

theorem touchAncestors_maps (o : Overlay) (path : Path) (v : ℕ) :
    (o.touchAncestors path v).tombs = o.tombs ∧
      (o.touchAncestors path v).deletedAt = o.deletedAt ∧
      (o.touchAncestors path v).deletedFloor = o.deletedFloor ∧
      (o.touchAncestors path v).version = o.version := by
  unfold touchAncestors
  generalize ancestors path = ps
  induction ps generalizing o with
  | nil => exact ⟨rfl, rfl, rfl, rfl⟩
  | cons p ps ih => exact ih _

theorem removed_touchAncestors (o : Overlay) (path : Path) (v : ℕ) (q : Path) :
    (o.touchAncestors path v).removed q = o.removed q := by
  obtain ⟨-, hat, hfloor, -⟩ := touchAncestors_maps o path v
  rw [removed, hat, hfloor, removed]

theorem mem_touchAncestors (o : Overlay) (path : Path) (v : ℕ) (k : Path) :
    k ∈ (o.touchAncestors path v).entries ↔ k ∈ o.entries := by
  rw [← AList.lookup_isSome, touchAncestors, lookup_foldl_touch, Option.isSome_map,
    AList.lookup_isSome]

omit [ToLowercase] in
theorem hidden_congr (htombs : ∀ a, a <+: k → (a ∈ o.tombs ↔ a ∈ o'.tombs))
    (hcreated : ∀ a, a <+: k → (o.entries.lookup a).map (fun e => e.node.created) =
      (o'.entries.lookup a).map fun e => e.node.created) : o.hidden k = o'.hidden k := by
  have hsome : ∀ {o : Overlay} {a}, (∃ e, o.entries.lookup a = some e ∧ e.node.created = true) ↔
      (o.entries.lookup a).map (fun e => e.node.created) = some true := by simp
  rw [Bool.eq_iff_iff, hidden_iff, hidden_iff]
  refine or_congr (exists_congr fun a => and_congr_right (htombs a)) (exists_congr fun a => ?_)
  simp only [exists_and_left, hsome]
  exact and_congr_right fun ha => by rw [hcreated a ha]

theorem hidden_touchAncestors (o : Overlay) (path : Path) (v : ℕ) (k : Path) :
    (o.touchAncestors path v).hidden k = o.hidden k := by
  refine hidden_congr (fun a _ => by rw [(touchAncestors_maps o path v).1]) fun a _ => ?_
  rw [touchAncestors, lookup_foldl_touch]
  exact map_map_eq fun e => by split_ifs <;> rfl

omit [ToLowercase] in
theorem hidden_modify {g : Entry → Entry} (hg : ∀ e, (g e).node.created = e.node.created)
    (q k : Path) : (o.modify q g).hidden k = o.hidden k :=
  hidden_congr (fun _ _ => Iff.rfl) fun _ _ => map_lookup_modify hg

/-! ## One step -/

/-- `q` is the key `k` or an ancestor of it. -/
def OnWay (q k : Path) : Prop := root <+: q ∧ q <+: k

/-- All that a client may rely on across one change at version `v`. -/
structure Advances (v : ℕ) (o o' : Overlay) : Prop where
  next : Next OnWay v o.book o'.book
  tombs : ∀ a ∈ o'.tombs, a ∈ o.tombs ∨ v ≤ o'.removed a
  hides : ∀ k, (o.hidden k = true ∨ k ∈ o.entries) → o'.hidden k = true ∨ k ∈ o'.entries

theorem advances_touchAncestors (hp : validPath path = true)
    (htop : ∀ k, k ∈ o'.entries → root <+: k)
    (hown : ∀ k e', o'.entries.lookup k = some e' →
      e'.changed = v ∨ o.entries.lookup k = some e')
    (hway : ∀ k j e', k <+: j → o'.entries.lookup k = some e' →
      o'.book.record j ≠ o.book.record j →
        e'.changed = v ∨ (k <+: foldPath path ∧ k ≠ foldPath path))
    (hgone : ∀ k, k ∈ o.entries → k ∉ o'.entries → ∃ q, OnWay q k ∧ v ≤ o'.removed q)
    (hremoved : ∀ q, o.removed q ≤ o'.removed q)
    (htombs : ∀ a ∈ o'.tombs, a ∈ o.tombs ∨ v ≤ o'.removed a)
    (hhides : ∀ k, (o.hidden k = true ∨ k ∈ o.entries) → o'.hidden k = true ∨ k ∈ o'.entries) :
    Advances v o (o'.touchAncestors path v) := by
  have hback : ∀ k, (o'.touchAncestors path v).book.record k ≠ none →
      ∃ e', o'.entries.lookup k = some e' ∧
        (o'.touchAncestors path v).book.changed k = e'.changed ∧
        ((o'.touchAncestors path v).book.subtree k = v ∨
          (o'.touchAncestors path v).book.subtree k = e'.subtree) ∧
        (k <+: foldPath path → k ≠ foldPath path →
          (o'.touchAncestors path v).book.subtree k = v) := by
    intro k hk
    obtain ⟨e, he⟩ := exists_of_record hk
    obtain ⟨-, hchanged, hsubtree⟩ := book_of_lookup he
    rw [hchanged, hsubtree]
    rw [lookup_touchAncestors hp] at he
    obtain ⟨e', he', heq⟩ := Option.map_eq_some_iff.mp he
    have hroot := htop k (mem_of_lookup he')
    refine ⟨e', he', ?_⟩
    by_cases hon : root <+: k ∧ k <+: foldPath path ∧ k ≠ foldPath path
    · rw [if_pos hon] at heq
      subst heq
      exact ⟨rfl, Or.inl rfl, fun _ _ => rfl⟩
    · rw [if_neg hon] at heq
      subst heq
      exact ⟨rfl, Or.inr rfl, fun h1 h2 => absurd ⟨hroot, h1, h2⟩ hon⟩
  have hrecord : ∀ k, (o'.touchAncestors path v).book.record k = o'.book.record k := by
    intro k
    simp only [book, lookup_touchAncestors hp]
    exact map_map_eq fun e => by split_ifs <;> rfl
  have hkept : ∀ k, (o'.touchAncestors path v).book.record k ≠ none →
      (o'.touchAncestors path v).book.changed k = v ∨
        ((o'.touchAncestors path v).book.changed k = o.book.changed k ∧
          (o'.touchAncestors path v).book.record k = o.book.record k ∧
          ((o'.touchAncestors path v).book.subtree k = v ∨
            (o'.touchAncestors path v).book.subtree k = o.book.subtree k)) := by
    intro k hk
    obtain ⟨e', he', hchanged, hsub, -⟩ := hback k hk
    rw [hchanged]
    refine (hown k e' he').imp_right fun hold => ?_
    rw [hrecord, (book_of_lookup he').1, (book_of_lookup hold).1, (book_of_lookup hold).2.1,
      (book_of_lookup hold).2.2]
    exact ⟨rfl, rfl, hsub⟩
  refine ⟨⟨?_, ?_, ?_, ?_, ?_⟩, ?_, ?_⟩
  · exact fun k hk => (hkept k hk).imp_right fun h => ⟨h.1, h.2.1⟩
  · intro k j hkj hk hne
    obtain ⟨e', he', hchanged, -, hsub⟩ := hback k hk
    rw [hrecord] at hne
    exact (hway k j e' hkj.2 he' hne).imp hchanged.trans fun h => hsub h.1 h.2
  · exact fun k hk => (hkept k hk).imp_right fun h => h.2.2
  · intro k hk hno
    rw [hrecord, record_eq_none] at hno
    rw [Ne, record_eq_none, not_not] at hk
    obtain ⟨q, hq, hmark⟩ := hgone k hk hno
    exact ⟨q, hq, hmark.trans (removed_touchAncestors o' path v q).ge⟩
  · intro q
    simp only [book, removed_touchAncestors]
    exact hremoved q
  · intro a ha
    rw [(touchAncestors_maps o' path v).1] at ha
    rw [removed_touchAncestors]
    exact htombs a ha
  · intro k hk
    rw [hidden_touchAncestors, mem_touchAncestors]
    exact hhides k hk

omit [ToLowercase] in
theorem Grown.stamped {t : Path} (hg : Grown o o' t real v) {e' : Entry}
    (he' : o'.entries.lookup k = some e') : e'.changed = v ∨ o.entries.lookup k = some e' := by
  cases hk : o.entries.lookup k with
  | some e =>
    obtain ⟨e'', he'', hwide, -⟩ := hg.kept k e hk
    rw [he'] at he''
    cases he''
    rcases hwide.stamped with rfl | hstamp
    · exact Or.inr rfl
    · exact Or.inl hstamp
  | none => exact Or.inl (hg.fresh k e' he' (AList.lookup_eq_none.mp hk)).changed

omit [ToLowercase] in
theorem Grown.record_eq {t : Path} (hg : Grown o o' t real v) {j : Path} (hj : ¬ j <+: t) :
    o'.book.record j = o.book.record j := by
  cases hk : o.entries.lookup j with
  | some e =>
    obtain ⟨e', he', -, heq | hway, -⟩ := hg.kept j e hk
    · rw [(book_of_lookup he').1, (book_of_lookup hk).1, heq]
    · exact absurd hway hj
  | none =>
    have hout := AList.lookup_eq_none.mp hk
    rw [record_eq_none.mpr hout, record_eq_none]
    exact fun hin => hj (hg.way j hin hout)

omit [ToLowercase] in
theorem Grown.removed_eq {t : Path} (hg : Grown o o' t real v) (q : Path) :
    o'.removed q = o.removed q := by
  rw [removed, hg.deletedAt, hg.deletedFloor, removed]

theorem Inv.advances_mark (h : Inv o) (hp : validPath path = true) (real : Bool)
    {g : Entry → Entry} (hg : ∀ e, (g e).node.created = e.node.created) :
    Advances (o.version + 1) o (o.edited path real now g) := by
  unfold Overlay.edited
  set v := o.version + 1 with hv
  set o₁ := o.bumped.ensureChain path real v now with ho₁
  have hb : Inv o.bumped := h.version v
  have hgrown : Grown o o₁ (foldPath path) real v := (hb.grown_ensureChain hp real v now).of_bumped
  obtain ⟨h₁, -⟩ := hb.ensureChain hp real v now
  set o₂ := (o₁.modify (foldPath path) g).modify (foldPath path)
    (fun e => { e with changed := v }) with ho₂
  have hlookup : ∀ k, o₂.entries.lookup k = if k = foldPath path then
      (o₁.entries.lookup k).map (fun e => { g e with changed := v }) else o₁.entries.lookup k := by
    intro k
    simp only [ho₂, Overlay.modify, modify_modify, lookup_modify]
    rfl
  have hmem : ∀ k, k ∈ o₂.entries ↔ k ∈ o₁.entries := by
    intro k
    rw [ho₂, mem_modify, mem_modify]
  have hhid : ∀ k, o₂.hidden k = o₁.hidden k := by
    intro k
    rw [ho₂, hidden_modify, hidden_modify hg]
    exact fun _ => rfl
  refine advances_touchAncestors hp ?_ ?_ ?_ ?_ ?_ ?_ ?_
  · intro k hk
    exact h₁.tree.top k ((hmem k).mp hk)
  · intro k e' he'
    rw [hlookup] at he'
    split_ifs at he' with hk
    · obtain ⟨e, -, rfl⟩ := Option.map_eq_some_iff.mp he'
      exact Or.inl rfl
    · exact hgrown.stamped he'
  · intro k j e' hkj he' hne
    have hj : j <+: foldPath path := by
      by_contra hout
      have hjp : j ≠ foldPath path := fun heq => hout (heq ▸ prefix_rfl)
      have hrecord : o₂.book.record j = o₁.book.record j := by
        simp only [book, hlookup, if_neg hjp]
      exact hne (hrecord.trans (hgrown.record_eq hout))
    by_cases hk : k = foldPath path
    · rw [hlookup, if_pos hk] at he'
      obtain ⟨e, -, rfl⟩ := Option.map_eq_some_iff.mp he'
      exact Or.inl rfl
    · exact Or.inr ⟨hkj.trans hj, hk⟩
  · intro k hk hno
    exact absurd ((hmem k).mpr (hgrown.mem hk)) hno
  · intro q
    exact (hgrown.removed_eq q).ge
  · intro a ha
    exact Or.inl ((hgrown.tombs a).mp ha).1
  · intro k hk
    rw [hhid, hmem]
    exact hgrown.hides h hk

omit [ToLowercase] in
theorem prefix_of_beside {p j : Path} {c : Str} (hkj : k <+: j) (hj : p ++ [c] <+: j)
    (hk : ¬ p ++ [c] <+: k) : k <+: p := by
  rcases prefix_or_prefix_of_prefix hkj hj with hkf | hfk
  · rcases prefix_concat_iff.mp hkf with rfl | hkp
    · exact absurd prefix_rfl hk
    · exact hkp
  · exact absurd hfk hk

section Cut

variable (o) (p : Path) (name : Str) (v : ℕ) (now : UInt64)

theorem map_cutBelow {β : Type} {g : Node → β}
    (hg : ∀ e, g (setChild name .tombstone v now e).node = g e.node) {a : Path}
    (ha : ¬ p ++ [fold name] <+: a) :
    ((o.cutBelow p name v now).entries.lookup a).map (fun e => g e.node) =
      (o.entries.lookup a).map fun e => g e.node := by
  rw [lookup_cutBelow, if_neg ha]
  split_ifs
  · exact map_map_eq hg
  · rfl

theorem hidden_cutBelow_self (hk : p ++ [fold name] <+: k) :
    (o.cutBelow p name v now).hidden k = true :=
  hidden_iff.mpr (Or.inl ⟨_, hk, (mem_tombs_cutBelow ..).mpr (Or.inr rfl)⟩)

theorem hidden_cutBelow (hk : ¬ p ++ [fold name] <+: k) :
    (o.cutBelow p name v now).hidden k = o.hidden k := by
  have hapart : ∀ a, a <+: k → ¬ p ++ [fold name] <+: a := fun a ha hfa => hk (hfa.trans ha)
  refine hidden_congr (fun a ha => ?_) fun a ha =>
    map_cutBelow o p name v now (g := Node.created) (fun _ => rfl) (hapart a ha)
  have hne : a ≠ p ++ [fold name] := fun heq => hapart a ha (heq ▸ prefix_rfl)
  simp [mem_tombs_cutBelow, hapart a ha, hne]

end Cut

theorem Inv.advances_cut (h : Inv o) {pp : Path} (hp : validPath pp = true) (name : Str) :
    Advances (o.version + 1) o (((o.bumped.ensureChain pp true (o.version + 1) now).cutBelow
      (foldPath pp) name (o.version + 1) now).touchAncestors pp (o.version + 1)) := by
  set v := o.version + 1 with hv
  set o₁ := o.bumped.ensureChain pp true v now with ho₁
  have hb : Inv o.bumped := h.version v
  have hgrown : Grown o o₁ (foldPath pp) true v := (hb.grown_ensureChain hp true v now).of_bumped
  obtain ⟨h₁, -⟩ := hb.ensureChain hp true v now
  set p := foldPath pp with hpdef
  set f := p ++ [fold name] with hf
  set o₂ := o₁.cutBelow p name v now with ho₂
  have hlookup : ∀ k, o₂.entries.lookup k = if f <+: k then none
      else if k = p then (o₁.entries.lookup k).map (setChild name .tombstone v now)
      else o₁.entries.lookup k := lookup_cutBelow o₁ p name v now
  have htombs : ∀ a, a ∈ o₂.tombs ↔ (a ∈ o₁.tombs ∧ ¬ f <+: a) ∨ a = f :=
    mem_tombs_cutBelow o₁ p name v now
  have hremoved : o₂.removed = (o₁.tomb f v).removed := by
    funext q
    have hsame : ∀ q, ((o₁.removeSubtree f).tomb f v).removed q = (o₁.tomb f v).removed q := by
      intro q
      unfold Overlay.tomb Overlay.removed
      dsimp only [removeSubtree]
      split_ifs <;> rfl
    exact hsame q
  obtain ⟨hmark, hgrow⟩ := removed_tomb o₁ f v
  have hbelow : ∀ k, k ∈ o₂.entries ↔ k ∈ o₁.entries ∧ ¬ f <+: k := mem_cutBelow o₁ p name v now
  refine advances_touchAncestors hp ?_ ?_ ?_ ?_ ?_ ?_ ?_
  · intro k hk
    exact h₁.tree.top k ((hbelow k).mp hk).1
  · intro k e' he'
    obtain ⟨e, he, rfl | rfl⟩ := of_lookup_cutBelow he'
    · exact hgrown.stamped he
    · exact Or.inl rfl
  · intro k j e' hkj he' hne
    have hkout : ¬ f <+: k := ((hbelow k).mp (mem_of_lookup he')).2
    have hkp : k <+: p := by
      by_cases hjf : f <+: j
      · exact prefix_of_beside hkj hjf hkout
      · by_contra hout
        have hjp : j ≠ p := fun heq => hout (heq ▸ hkj)
        have hrecord : o₂.book.record j = o₁.book.record j := by
          simp only [book, hlookup, if_neg hjf, if_neg hjp]
        exact hne (hrecord.trans (hgrown.record_eq fun hj => hout (hkj.trans hj)))
    by_cases hk : k = p
    · rw [hlookup, if_neg hkout, if_pos hk] at he'
      obtain ⟨e, -, rfl⟩ := Option.map_eq_some_iff.mp he'
      exact Or.inl rfl
    · exact Or.inr ⟨hkp, hk⟩
  · intro k hk hno
    rw [hbelow, not_and_or, not_not] at hno
    rcases hno with hno | hno
    · exact absurd (hgrown.mem hk) hno
    · refine ⟨f, ⟨?_, hno⟩, by rw [hremoved]; exact hmark⟩
      exact (root_prefix_foldPath hp).trans (prefix_append _ _)
  · intro q
    rw [hremoved]
    exact (hgrown.removed_eq q).ge.trans (hgrow q)
  · intro a ha
    rcases (htombs a).mp ha with ⟨ha, -⟩ | rfl
    · exact Or.inl ((hgrown.tombs a).mp ha).1
    · exact Or.inr (by rw [hremoved]; exact hmark)
  · intro k hk
    rw [hbelow]
    by_cases hfk : f <+: k
    · exact Or.inl (hidden_cutBelow_self o₁ p name v now hfk)
    · rw [ho₂, hidden_cutBelow o₁ p name v now hfk]
      exact (hgrown.hides h hk).imp_right fun hin => ⟨hin, hfk⟩

section Rename

variable {p : Path} {old : Entry} {leafName newLeaf : Str} {newPath : Path}
  (h : Renames o p old (fold leafName) (fold newLeaf))

include h

theorem Renames.removed_renamed :
    (∀ q, o.removed q ≤ (o.renamed p old leafName newLeaf newPath v now).removed q) ∧
      (fold newLeaf ≠ fold leafName →
        v ≤ (o.renamed p old leafName newLeaf newPath v now).removed (p ++ [fold leafName])) ∧
      ∀ a ∈ (o.renamed p old leafName newLeaf newPath v now).tombs, p ++ [fold newLeaf] <+: a →
        v ≤ (o.renamed p old leafName newLeaf newPath v now).removed a := by
  set a := fold leafName with ha
  set b := fold newLeaf with hb
  set rows := rowsWhere o.tombs fun k => isBelow (p ++ [a]) k with hrows
  set key : Path × ℕ → Path := fun r => p ++ [b] ++ r.1.drop (p ++ [a]).length with hkey
  set moved := o.moveSubtree (p ++ [a]) old.path (p ++ [b]) newPath v with hmoved
  set o' := o.renamed p old leafName newLeaf newPath v now with ho'
  -- The marks after the move, from an overlay with the marks of `o`.
  obtain ⟨base, hfold, hbase⟩ : ∃ base : Overlay,
      moved = rows.foldl (fun o r => o.tomb (key r) v) base ∧ base.removed = o.removed :=
    ⟨_, rfl, rfl⟩
  obtain ⟨hgrow, hmark⟩ := removed_foldl_tomb rows key base v
  rw [← hfold, hbase] at hgrow
  rw [← hfold] at hmark
  have hlast : (∀ q, moved.removed q ≤ o'.removed q) ∧ (b ≠ a → v ≤ o'.removed (p ++ [a])) := by
    by_cases hc : p ++ [b] = p ++ [a]
    · have hba : b = a := by simpa using hc
      refine ⟨fun q => ?_, fun hne => absurd hba hne⟩
      simp only [ho', Overlay.renamed, ← ha, ← hb, if_pos hc]
      exact le_rfl
    · obtain ⟨hself, hall⟩ := removed_tomb ((moved.modify (p ++ [b]) fun e =>
        { e with node := { e.node with lastWrite := now } }).modify p fun e =>
          { e with node := { e.node with
            children := e.node.children.insert a (leafName, .tombstone) } }) (p ++ [a]) v
      simp only [ho', Overlay.renamed, ← ha, ← hb, if_neg hc]
      exact ⟨hall, fun _ => hself⟩
  refine ⟨fun q => (hgrow q).trans (hlast.1 q), hlast.2, ?_⟩
  intro j hj hin
  have hsource : Tree.source p a b j ∈ o.tombs := by
    have hiff : j ∈ o'.tombs ↔ _ := h.mem_tombs_renamed newPath j
    rw [if_pos hin] at hiff
    exact hiff.mp hj
  obtain ⟨s, rfl⟩ := hin
  rw [Tree.source_append] at hsource
  have hs : s ≠ [] := by
    rintro rfl
    rw [append_nil] at hsource
    exact h.inv.tree.not_has_of_tomb hsource (mem_of_lookup h.old)
  obtain ⟨t, ht⟩ := exists_lookup hsource
  have hrow : (p ++ [a] ++ s, t) ∈ rows := by
    refine mem_rowsWhere.mpr ⟨ht, ?_⟩
    simpa [isBelow] using length_pos_iff.mpr hs
  have hkeys : key (p ++ [a] ++ s, t) = p ++ [b] ++ s := by
    simp only [hkey, drop_left]
  exact (hkeys ▸ hmark _ hrow).trans (hlast.1 _)

omit h in
theorem Renames.advances_renamed {pp : Path}
    (h : Renames o (foldPath pp) old (fold leafName) (fold newLeaf))
    (hvalid : validPath pp = true) :
    Advances (o.version + 1) o ((o.bumped.renamed (foldPath pp) old leafName newLeaf newPath
      (o.version + 1) now).touchAncestors pp (o.version + 1)) := by
  set p := foldPath pp with hpdef
  set v := o.version + 1 with hv
  set o₂ := o.bumped.renamed p old leafName newLeaf newPath v now with ho₂
  have htop := h.inv.tree.top p h.parent
  have hcases : ∀ {k e'}, o₂.entries.lookup k = some e' → _ ∨ _ := h.bumped.cases
  have hmem : ∀ {k}, k ∈ o₂.entries ↔ _ := h.bumped.mem_renamed
  have htombs : ∀ k, k ∈ o₂.tombs ↔ _ := h.bumped.mem_tombs_renamed newPath
  obtain ⟨hgrow, hgone, hmoved⟩ :
      (∀ q, o.bumped.removed q ≤ o₂.removed q) ∧ _ ∧ _ := h.bumped.removed_renamed
  -- A key that was deleted, or went away with the old name, is hidden by the old name's tombstone.
  have hold : ∀ k, p ++ [fold leafName] <+: k → ¬ p ++ [fold newLeaf] <+: k →
      fold newLeaf ≠ fold leafName ∧ p ++ [fold leafName] ∈ o₂.tombs := by
    intro k hka hkn
    refine ⟨fun heq => hkn (heq ▸ hka), (htombs _).mpr ?_⟩
    rw [if_neg fun hba => hkn (hba.trans hka)]
    exact Or.inr rfl
  refine advances_touchAncestors hvalid ?_ ?_ ?_ ?_ hgrow ?_ ?_
  · intro k hk
    obtain ⟨e', he'⟩ := exists_lookup hk
    rcases hcases he' with ⟨s, e, rfl, -, -⟩ | ⟨-, -, e, he, -⟩
    · exact (htop.trans (prefix_append _ _)).trans (prefix_append _ _)
    · exact h.inv.tree.top k (mem_of_lookup he)
  · intro k e' he'
    rcases hcases he' with ⟨s, e, rfl, -, rfl⟩ | ⟨-, -, e, he, rfl⟩
    · exact Or.inl (by simp)
    · rcases stayed_eq k e with ⟨-, hv⟩ | ⟨-, heq⟩
      · exact Or.inl hv
      · exact Or.inr (heq.symm ▸ he)
  · intro k j e' hkj he' hne
    rcases hcases he' with ⟨s, e, rfl, -, rfl⟩ | ⟨hkn, hka, e, he, rfl⟩
    · exact Or.inl (by simp)
    have hkp : k <+: p := by
      by_cases hjn : p ++ [fold newLeaf] <+: j
      · exact prefix_of_beside hkj hjn hkn
      by_cases hja : p ++ [fold leafName] <+: j
      · exact prefix_of_beside hkj hja hka
      by_contra hout
      have hjp : j ≠ p := fun heq => hout (heq ▸ hkj)
      have hlookup : o₂.entries.lookup j = _ := h.bumped.lookup_renamed newPath j
      rw [if_neg hjn, if_neg hja, stayed_of_ne _ hjp, Option.map_id] at hlookup
      exact hne (by simp only [book, hlookup]; rfl)
    rcases stayed_eq k e with ⟨-, hv⟩ | ⟨hk, -⟩
    · exact Or.inl hv
    · exact Or.inr ⟨hkp, hk⟩
  · intro k hk hno
    rw [hmem] at hno
    split_ifs at hno with hkn
    · -- Only the spelling changed: the key is still there.
      obtain ⟨s, rfl⟩ := hkn
      rcases h.free with hsame | hfree
      · rw [Tree.source_append, ← hsame] at hno
        exact absurd hk hno
      · exact absurd hk (h.inv.not_mem_below_free h.parent hfree (prefix_append _ _))
    · have hka : p ++ [fold leafName] <+: k := not_not.mp fun hka => hno ⟨hk, hka⟩
      exact ⟨_, ⟨htop.trans (prefix_append _ _), hka⟩, hgone (hold k hka hkn).1⟩
  · intro j hj
    by_cases hjn : p ++ [fold newLeaf] <+: j
    · exact Or.inr (hmoved j hj hjn)
    · have hiff := (htombs j).mp hj
      rw [if_neg hjn] at hiff
      rcases hiff with ⟨ht, -⟩ | rfl
      · exact Or.inl ht
      · exact Or.inr (hgone (hold _ prefix_rfl hjn).1)
  · intro k hk
    by_cases hkn : p ++ [fold newLeaf] <+: k
    · have hsource : Tree.source p (fold leafName) (fold newLeaf) (p ++ [fold newLeaf]) =
          p ++ [fold leafName] := by
        simpa using Tree.source_append p (fold leafName) (fold newLeaf) []
      have hlookup : o₂.entries.lookup (p ++ [fold newLeaf]) = _ :=
        h.bumped.lookup_renamed newPath _
      rw [if_pos prefix_rfl, hsource, h.bumped.old] at hlookup
      by_cases hkb : k = p ++ [fold newLeaf]
      · exact Or.inr (hkb ▸ mem_of_lookup hlookup)
      · exact Or.inl (hidden_iff.mpr (Or.inr ⟨_, _, hkn, Ne.symm hkb, hlookup, by simp⟩))
    by_cases hka : p ++ [fold leafName] <+: k
    · exact Or.inl (hidden_iff.mpr (Or.inl ⟨_, hka, (hold k hka hkn).2⟩))
    have hkept : ∀ t, t <+: k → ¬ p ++ [fold newLeaf] <+: t ∧ ¬ p ++ [fold leafName] <+: t :=
      fun t ht => ⟨fun hx => hkn (hx.trans ht), fun hx => hka (hx.trans ht)⟩
    rcases hk with hhid | hin
    · refine Or.inl (hidden_iff.mpr ?_)
      rcases hidden_iff.mp hhid with ⟨t, ht, htomb⟩ | ⟨t, e, ht, hne, he, hcr⟩
      · refine Or.inl ⟨t, ht, (htombs t).mpr ?_⟩
        rw [if_neg (hkept t ht).1]
        exact Or.inl ⟨htomb, (hkept t ht).2⟩
      · have hlookup : o₂.entries.lookup t = _ := h.bumped.lookup_renamed newPath t
        rw [if_neg (hkept t ht).1, if_neg (hkept t ht).2] at hlookup
        exact Or.inr ⟨t, _, ht, hne, hlookup.trans (congrArg _ he), by simpa using hcr⟩
    · refine Or.inr (hmem.mpr ?_)
      rw [if_neg hkn]
      exact ⟨hin, hka⟩

end Rename

/-! ## Runs -/

omit [ToLowercase] in
theorem version_tomb (o : Overlay) (f : Path) (v : ℕ) : (o.tomb f v).version = o.version := by
  unfold tomb
  dsimp only
  split_ifs <;> rfl

theorem Inv.version_ensureChain (h : Inv o) (hp : validPath path = true) (real : Bool) :
    (o.ensureChain path real v now).version = o.version := by
  refine h.ensureChain_induct (P := fun o' => o'.version = o.version) hp rfl ?_ ?_
  · intro o₁ r plain _ hv _ _ _ _
    exact hv
  · intro o₁ pe comp plain _ hv _ _ _ _
    exact hv

theorem version_moveSubtree (o : Overlay) (oldF oldStored newF newPath : Path) (v : ℕ) :
    (o.moveSubtree oldF oldStored newF newPath v).version = o.version := by
  have hfold : ∀ (rows : List (Path × ℕ)) (key : Path × ℕ → Path) (o : Overlay),
      (rows.foldl (fun o r => o.tomb (key r) v) o).version = o.version := by
    intro rows key o
    induction rows generalizing o with
    | nil => rfl
    | cons r rows ih => rw [foldl_cons, ih, version_tomb]
  exact hfold _ _ _

theorem version_renamed (o : Overlay) (p : Path) (old : Entry) (leafName newLeaf : Str)
    (newPath : Path) (v : ℕ) (now : UInt64) :
    (o.renamed p old leafName newLeaf newPath v now).version = o.version := by
  have hmove := version_moveSubtree o (p ++ [fold leafName]) old.path (p ++ [fold newLeaf])
    newPath v
  simp only [Overlay.renamed]
  split_ifs
  · exact hmove
  · simp only [Overlay.modify, version_tomb]
    exact hmove

theorem Inv.advances_of_ok (h : Inv o) {op : Op} {r : ℕ × Overlay} (hcall : o.call op = .ok r) :
    r.2.version = o.version + 1 ∧ Advances (o.version + 1) o r.2 := by
  have hb : Inv o.bumped := h.version _
  have hmark : ∀ {path : Path} {real : Bool} {now : UInt64} {g : Entry → Entry},
      validPath path = true →
      r = (o.version + 1, o.edited path real now g) →
      (∀ e, (g e).node.created = e.node.created) →
      r.2.version = o.version + 1 ∧ Advances (o.version + 1) o r.2 := by
    rintro path real now g hvalid rfl hg
    refine ⟨?_, h.advances_mark hvalid real hg⟩
    refine (touchAncestors_maps _ _ _).2.2.2.trans ?_
    exact hb.version_ensureChain hvalid real
  cases op with
  | setValue path name ty data now =>
    obtain ⟨⟨hvalid, -⟩, hr⟩ := setValue_eq_ok.mp hcall
    exact hmark hvalid hr fun _ => rfl
  | deleteValue path name now =>
    obtain ⟨⟨hvalid, -⟩, hr⟩ := deleteValue_eq_ok.mp hcall
    exact hmark hvalid hr fun _ => rfl
  | createKey path volatile real now =>
    obtain ⟨⟨hvalid, -⟩, hr⟩ := createKey_eq_ok.mp hcall
    exact hmark hvalid hr fun _ => rfl
  | deleteKey path now =>
    obtain ⟨pp, ⟨hvalid, hparent, -⟩, rfl⟩ := deleteKey_eq_ok.mp hcall
    have hpp := (validPath_parent hvalid hparent).1
    refine ⟨?_, h.advances_cut hpp (leaf path)⟩
    refine (touchAncestors_maps _ _ _).2.2.2.trans ?_
    simp only [cutBelow, Overlay.modify, version_tomb]
    exact hb.version_ensureChain hpp true
  | renameKey path newLeaf now =>
    obtain ⟨pp, old, ⟨hvalid, -, -, -, hparent, hren⟩, rfl⟩ := h.renameKey_eq_ok.mp hcall
    refine ⟨?_, hren.advances_renamed (validPath_parent hvalid hparent).1⟩
    exact (touchAncestors_maps _ _ _).2.2.2.trans (version_renamed _ _ _ _ _ _ _ _)

theorem Inv.version_of_ok (h : Inv o) {op : Op} {r : ℕ × Overlay} (hcall : o.call op = .ok r) :
    r.1 = o.version + 1 := by
  cases op with
  | setValue path name ty data now => exact congrArg Prod.fst (setValue_eq_ok.mp hcall).2
  | deleteValue path name now => exact congrArg Prod.fst (deleteValue_eq_ok.mp hcall).2
  | createKey path volatile real now => exact congrArg Prod.fst (createKey_eq_ok.mp hcall).2
  | deleteKey path now =>
    obtain ⟨pp, -, hr⟩ := deleteKey_eq_ok.mp hcall
    exact congrArg Prod.fst hr
  | renameKey path newLeaf now =>
    obtain ⟨pp, old, -, hr⟩ := h.renameKey_eq_ok.mp hcall
    exact congrArg Prod.fst hr

theorem Inv.advances_step (h : Inv o) (op : Op) : o.step op = o ∨
    ((o.step op).version = o.version + 1 ∧ Advances (o.version + 1) o (o.step op)) := by
  cases hcall : o.call op with
  | error err =>
    refine Or.inl ?_
    rw [Overlay.step, hcall]
  | ok r =>
    have hstep : o.step op = r.2 := by rw [Overlay.step, hcall]
    rw [hstep]
    exact Or.inr (h.advances_of_ok hcall)

/-- What `o` still tells about the earlier overlay `o₀`. -/
structure Tracks (o₀ o : Overlay) : Prop where
  version : o₀.version ≤ o.version
  since : Since OnWay o₀.version o₀.book o.book
  tombs : ∀ a ∈ o.tombs, o.removed a ≤ o₀.version → a ∈ o₀.tombs
  hides : ∀ k, o₀.hidden k = true → o.hidden k = true ∨ k ∈ o.entries

omit [ToLowercase] in
theorem tracks_refl (o : Overlay) : Tracks o o :=
  ⟨le_rfl, since_refl _ _ _, fun _ ha _ => ha, fun _ hk => Or.inl hk⟩

theorem Tracks.step {o₀ : Overlay} (ht : Tracks o₀ o) (h : Inv o) (op : Op) :
    Tracks o₀ (o.step op) := by
  rcases h.advances_step op with heq | ⟨hversion, hadv⟩
  · rw [heq]
    exact ht
  have hlt : o₀.version < o.version + 1 := Nat.lt_succ_of_le ht.version
  refine ⟨hversion ▸ hlt.le, ht.since.next hlt hadv.next, ?_, ?_⟩
  · intro a ha hquiet
    rcases hadv.tombs a ha with hold | hmark
    · exact ht.tombs a hold ((hadv.next.removed a).trans hquiet)
    · omega
  · exact fun k hk => hadv.hides k (ht.hides k hk)

theorem Inv.tracks_run (h : Inv o) (ops : List Op) :
    Inv (Transition.run Overlay.step o ops) ∧ Tracks o (Transition.run Overlay.step o ops) :=
  Transition.run_invariant (I := fun o' => Inv o' ∧ Tracks o o')
    (fun _ op ⟨hi, ht⟩ => ⟨hi.step op, ht.step hi op⟩) ⟨h, tracks_refl o⟩ ops

end Overlay

end AetherVfs.Registry
