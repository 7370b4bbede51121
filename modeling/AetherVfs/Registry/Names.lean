import AetherVfs.Core.Path
import AetherVfs.Registry.WellFormed

/-!
# Names, spellings and sizes

What the mutators check of the names they are given, as an invariant: every component of a key
with a node or a tombstone is a name (not empty, without a separator), a child list spells a
child as the child's own node does, and every value is within the limits. The calls are those
of a client, whose path is text.
-/

namespace AetherVfs.Registry

open List Table

variable {s n : Str} {p : Path}

section

variable [ToLowercase]

theorem separator_mem_fold : '\\' ∈ fold s ↔ '\\' ∈ s :=
  mem_fold_iff (by decide) (by decide) (by decide)

end

/-- A component of a key path. -/
def IsName (n : Str) : Prop := n ≠ [] ∧ '\\' ∉ n

/-- Every component after the lead is a name. -/
def Clean (p : Path) : Prop := ∀ n ∈ p.drop 1, IsName n

theorem Clean.of_above {q : Path} (h : Clean q) (hpq : p <+: q) : Clean p := by
  obtain ⟨s, rfl⟩ := hpq
  intro n hn
  refine h n ?_
  rw [drop_append]
  exact mem_append_left _ hn

theorem Clean.concat (h : Clean p) (hn : IsName n) : Clean (p ++ [n]) := by
  intro m hm
  rw [drop_append] at hm
  rcases mem_append.mp hm with hm | hm
  · exact h m hm
  · have hmem := mem_of_mem_drop hm
    rw [mem_singleton] at hmem
    exact hmem ▸ hn

theorem Clean.last (h : Clean (p ++ [n])) (hp : p ≠ []) : IsName n := by
  refine h n ?_
  rw [drop_append_of_le_length (length_pos_iff.mpr hp)]
  exact mem_append_right _ (mem_singleton_self n)

theorem Clean.append {s : Path} (h : Clean p) (hs : ∀ n ∈ s, IsName n) : Clean (p ++ s) := by
  intro m hm
  rw [drop_append] at hm
  rcases mem_append.mp hm with hm | hm
  · exact h m hm
  · exact hs m (mem_of_mem_drop hm)

section

variable [ToLowercase]

theorem isName_fold : IsName (fold n) ↔ IsName n := by
  simp [IsName, separator_mem_fold]

theorem clean_foldPath : Clean (foldPath p) ↔ Clean p := by
  unfold Clean foldPath
  rw [← map_drop, forall_mem_map]
  simp only [isName_fold]

theorem isName_registry {r : Str} (hr : fold r = registry) : IsName r := by
  rw [← isName_fold, hr]
  exact ⟨by decide, by decide⟩

omit [ToLowercase] in
theorem clean_root : Clean root := by
  intro n hn
  have hreg : n = registry := by simpa [root] using hn
  rw [hreg]
  exact ⟨by decide, by decide⟩

end

def pieces (s : Str) : Path := s.splitOn '\\'

theorem separator_notMem_pieces (h : n ∈ pieces s) : '\\' ∉ n := by
  intro hsep
  exact absurd (eq_false_of_mem_splitOnP h _ hsep) (by decide)

section

variable [ToLowercase]

theorem clean_pieces (h : validPath (pieces s) = true) : Clean (pieces s) := by
  intro n hn
  refine ⟨?_, separator_notMem_pieces (mem_of_mem_drop hn)⟩
  obtain ⟨r, rest, hs, hr, hrest⟩ := Overlay.validPath_iff.mp h
  rw [hs] at hn
  rcases mem_cons.mp hn with rfl | hn
  · exact (isName_registry hr).1
  · exact hrest n hn

end

namespace Overlay

inductive Act where
  | setValue (name : Str) (ty : UInt32) (data : List UInt8)
  | deleteValue (name : Str)
  | createKey (volatile realExists : Bool)
  | deleteKey
  | renameKey (newLeaf : Str)

structure Call where
  path : Str
  act : Act
  now : UInt64

def Call.op (c : Call) : Op :=
  match c.act with
  | .setValue name ty data => .setValue (pieces c.path) name ty data c.now
  | .deleteValue name => .deleteValue (pieces c.path) name c.now
  | .createKey volatile realExists => .createKey (pieces c.path) volatile realExists c.now
  | .deleteKey => .deleteKey (pieces c.path) c.now
  | .renameKey newLeaf => .renameKey (pieces c.path) newLeaf c.now

variable [ToLowercase]

def runCalls (cs : List Call) : Overlay := Transition.run step new (cs.map Call.op)

/-- Every value within the limits of the registry. -/
def Sized (n : Node) : Prop :=
  ∀ x ∈ n.values, utf16Len x.name ≤ maxValueName ∧ x.data.length ≤ maxData

structure Named (o : Overlay) : Prop where
  keys : ∀ k ∈ o.entries, Clean k
  tombs : ∀ t ∈ o.tombs, Clean t
  listed : ∀ k c pe e sp, o.entries.lookup k = some pe →
    pe.node.children.lookup c = some (sp, .present) →
    o.entries.lookup (k ++ [c]) = some e → e.path = pe.path ++ [sp]
  sized : ∀ k e, o.entries.lookup k = some e → Sized e.node

omit [ToLowercase] in
theorem named_new : Named new := by
  refine ⟨?_, ?_, ?_, ?_⟩ <;> simp [new]

section

variable {o : Overlay} {v : ℕ} {now : UInt64}

omit [ToLowercase] in
theorem Named.version (h : Named o) (v : ℕ) : Named { o with version := v } :=
  ⟨h.keys, h.tombs, h.listed, h.sized⟩

omit [ToLowercase] in
theorem Named.modify (h : Named o) (key : Path) {f : Entry → Entry}
    (hpath : ∀ e, (f e).path = e.path) (hchildren : ∀ e, (f e).node.children = e.node.children)
    (hsized : ∀ e, Sized e.node → Sized (f e).node) : Named (o.modify key f) := by
  have hback : ∀ k e', (o.modify key f).entries.lookup k = some e' →
      ∃ e, o.entries.lookup k = some e ∧ e'.path = e.path ∧
        e'.node.children = e.node.children ∧ (Sized e.node → Sized e'.node) := by
    intro k e' hk
    simp only [Overlay.modify, lookup_modify] at hk
    split_ifs at hk with hkey
    · obtain ⟨e, he, rfl⟩ := Option.map_eq_some_iff.mp hk
      exact ⟨e, he, hpath e, hchildren e, hsized e⟩
    · exact ⟨e', hk, rfl, rfl, id⟩
  refine ⟨?_, h.tombs, ?_, ?_⟩
  · intro k hk
    obtain ⟨e', he'⟩ := exists_lookup hk
    obtain ⟨e, he, -⟩ := hback k e' he'
    exact h.keys k (mem_of_lookup he)
  · intro k c pe' e' sp hpe' hc he'
    obtain ⟨pe, hpe, hppath, hpchildren, -⟩ := hback k pe' hpe'
    obtain ⟨e, he, hpath', -⟩ := hback _ e' he'
    rw [hpath', hppath]
    exact h.listed k c pe e sp hpe (hpchildren ▸ hc) he
  · intro k e' he'
    obtain ⟨e, he, -, -, hsize⟩ := hback k e' he'
    exact hsize (h.sized k e he)

theorem Named.touchAncestors (h : Named o) (path : Path) (v : ℕ) :
    Named (o.touchAncestors path v) := by
  unfold Overlay.touchAncestors
  generalize ancestors path = ps
  induction ps generalizing o with
  | nil => exact h
  | cons p ps ih => exact ih (h.modify _ (fun _ => rfl) (fun _ => rfl) fun _ hs => hs)

theorem Named.mark (h : Named o) (path : Path) (v : ℕ) : Named (o.mark path v) := by
  have hown : Named (o.modify (foldPath path) fun e => { e with changed := v }) :=
    h.modify _ (fun _ => rfl) (fun _ => rfl) fun _ hs => hs
  exact hown.touchAncestors path v

omit [ToLowercase] in
theorem sized_nil {n : Node} (h : n.values = []) : Sized n := by
  intro x hx
  rw [h] at hx
  cases hx

theorem Named.ensureChain (h : Named o) (hinv : Inv o) {path : Path}
    (hpath : validPath path = true) (hclean : Clean path) (real : Bool) :
    Named (o.ensureChain path real v now) := by
  have hclean : Clean (foldPath path) := clean_foldPath.mpr hclean
  refine hinv.ensureChain_induct hpath h ?_ ?_
  · intro o r plain hinv h hr hnone _ _
    have hfold : foldPath [[], r] = root := by simp [foldPath, hr, root]
    refine ⟨?_, ?_, ?_, ?_⟩
    · intro k hk
      obtain ⟨e, he⟩ := exists_lookup hk
      obtain ⟨rfl, -⟩ := (hinv.lookup_addNode_root hfold hnone).mp he
      exact clean_root
    · intro t ht
      rw [tombs_addNode, AList.mem_erase] at ht
      exact h.tombs t ht.2
    · intro k c pe e sp hpe hc _
      obtain ⟨-, rfl⟩ := (hinv.lookup_addNode_root hfold hnone).mp hpe
      cases hc
    · intro k e he
      obtain ⟨-, rfl⟩ := (hinv.lookup_addNode_root hfold hnone).mp he
      exact sized_nil rfl
  · intro o pe comp plain hinv h hpe hnone hway _
    have hkey : foldPath (pe.path ++ [comp]) = foldPath pe.path ++ [fold comp] :=
      foldPath_append _ _
    refine ⟨?_, ?_, ?_, ?_⟩
    · intro k hk
      rcases (mem_addNode_below hpe).mp hk with rfl | hk
      · exact hclean.of_above (hkey ▸ hway)
      · exact h.keys k hk
    · intro t ht
      rw [tombs_addNode, AList.mem_erase] at ht
      exact h.tombs t ht.2
    · intro k c upper lower sp hupper hc hlower
      rcases lookup_addNode_cases hpe hupper with ⟨rfl, rfl⟩ | ⟨rfl, rfl⟩ | ⟨hne, -, hupper⟩
      · simp only [setChild, lookup_insert_eq_ite] at hc
        rcases lookup_addNode_cases hpe hlower with ⟨heq, -⟩ | ⟨heq, rfl⟩ | ⟨-, hne, hlower⟩
        · simp at heq
        · obtain ⟨-, rfl⟩ := concat_eq_concat.mp heq
          rw [if_pos rfl] at hc
          cases hc
          rfl
        · rw [if_neg (by simpa using hne)] at hc
          exact h.listed _ c pe lower sp hpe hc hlower
      · cases hc
      · rcases lookup_addNode_cases hpe hlower with ⟨heq, rfl⟩ | ⟨heq, -⟩ | ⟨-, -, hlower⟩
        · exact h.listed k c upper pe sp hupper hc (heq ▸ hpe)
        · exact absurd (concat_eq_concat.mp heq).1 hne
        · exact h.listed k c upper lower sp hupper hc hlower
    · intro k e he
      rcases lookup_addNode_cases hpe he with ⟨-, rfl⟩ | ⟨-, rfl⟩ | ⟨-, -, he⟩
      · exact h.sized _ pe hpe
      · exact sized_nil rfl
      · exact h.sized k e he

variable {name : Str}

theorem Named.cutBelow (h : Named o) (hclean : Clean (p ++ [fold name])) :
    Named (o.cutBelow p name v now) := by
  have hback : ∀ j e', (o.cutBelow p name v now).entries.lookup j = some e' →
      ∃ e, o.entries.lookup j = some e ∧ e'.path = e.path ∧ e'.node.values = e.node.values ∧
        ∀ c sp, e'.node.children.lookup c = some (sp, .present) →
          e.node.children.lookup c = some (sp, .present) := by
    intro j e' hj
    obtain ⟨e, he, rfl | rfl⟩ := of_lookup_cutBelow hj
    · exact ⟨_, he, rfl, rfl, fun _ _ hc => hc⟩
    · refine ⟨e, he, rfl, rfl, fun c sp hc => ?_⟩
      simp only [setChild, lookup_insert_eq_ite] at hc
      grind
  refine ⟨?_, ?_, ?_, ?_⟩
  · intro k hk
    exact h.keys k ((mem_cutBelow ..).mp hk).1
  · intro t ht
    rcases (mem_tombs_cutBelow ..).mp ht with ⟨ht, -⟩ | rfl
    · exact h.tombs t ht
    · exact hclean
  · intro k c upper lower sp hupper hc hlower
    obtain ⟨ue, hue, hupath, -, huc⟩ := hback k upper hupper
    obtain ⟨le, hle, hlpath, -, -⟩ := hback _ lower hlower
    rw [hlpath, hupath]
    exact h.listed k c ue le sp hue (huc c sp hc) hle
  · intro k e' he'
    obtain ⟨e, he, -, hvalues, -⟩ := hback k e' he'
    have hsize := h.sized k e he
    rw [Sized, ← hvalues] at hsize
    exact hsize

theorem Named.renamed (h : Named o) {old : Entry} {leafName newLeaf : Str}
    (hren : Renames o p old (fold leafName) (fold newLeaf)) (hname : IsName newLeaf) :
    Named (o.renamed p old leafName newLeaf (old.path.dropLast ++ [newLeaf]) v now) := by
  obtain ⟨pe, hpe, hnew⟩ := hren.exists_parent
  -- A key of the moved subtree has the names it had below the old one.
  have hmoved : ∀ s, Clean (p ++ [fold leafName] ++ s) → Clean (p ++ [fold newLeaf] ++ s) := by
    intro s hs
    refine ((h.keys p hren.parent).concat (isName_fold.mpr hname)).append fun n hn => hs n ?_
    rw [drop_append_of_le_length (by simp)]
    exact mem_append_right _ hn
  refine ⟨fun k hk => ?_, fun t ht => ?_, fun k c upper lower sp hupper hc hlower => ?_,
    fun k e' he' => ?_⟩
  · obtain ⟨e', he'⟩ := exists_lookup hk
    rcases hren.cases he' with ⟨s, e, rfl, he, -⟩ | ⟨-, -, e, he, -⟩
    · exact hmoved s (h.keys _ (mem_of_lookup he))
    · exact h.keys k (mem_of_lookup he)
  · rw [hren.mem_tombs_renamed] at ht
    split_ifs at ht with hin
    · obtain ⟨s, rfl⟩ := hin
      exact hmoved s (h.tombs _ (Tree.source_append p _ _ s ▸ ht))
    · rcases ht with ⟨ht, -⟩ | rfl
      · exact h.tombs t ht
      · exact h.keys _ (mem_of_lookup hren.old)
  · rcases hren.cases hupper with ⟨s, ue, rfl, hue, rfl⟩ | ⟨hin, -, ue, hue, rfl⟩ <;>
      rcases hren.cases hlower with ⟨s', le, hs', hle, rfl⟩ | ⟨hin', -, le, hle, rfl⟩
    · obtain rfl : s ++ [c] = s' := by simpa using hs'
      have hpath := h.listed _ c ue le sp hue (by simpa using hc) (append_assoc .. ▸ hle)
      rw [(movedTo_fields ..).1, (movedTo_fields ..).1, hpath,
        drop_append_of_le_length (hren.inv.path_above hren.old hue).length_le]
      exact (append_assoc ..).symm
    · exact absurd ((prefix_append _ s).trans (prefix_append _ [c])) hin'
    · obtain ⟨rfl, rfl⟩ : k = p ∧ c = fold newLeaf :=
        (prefix_concat.mp ⟨s', hs'.symm⟩).resolve_left hin
      obtain rfl : s' = [] := by simpa using hs'
      rw [append_nil, hren.old] at hle
      rw [hpe] at hue
      cases hle
      cases hue
      rw [lookup_stayed, if_pos ⟨rfl, rfl⟩] at hc
      cases hc
      simp [hnew]
    · have hkc : ¬ (k = p ∧ c = fold newLeaf) := by
        rintro ⟨rfl, rfl⟩
        exact hin' prefix_rfl
      rw [lookup_stayed, if_neg hkc] at hc
      split_ifs at hc
      · cases hc
      · simpa using h.listed k c ue le sp hue hc hle
  · rcases hren.cases he' with ⟨s, e, rfl, he, rfl⟩ | ⟨-, -, e, he, rfl⟩
    · simpa [Sized] using h.sized _ e he
    · simpa [Sized] using h.sized _ e he

theorem mem_putValue {ty : UInt32} {data : List UInt8} {vs : List Value} {x : Value}
    (h : x ∈ putValue name ty data vs) :
    (x.name = name ∨ ∃ y ∈ vs, y.name = x.name) ∧ (x.data = data ∨ x ∈ vs) := by
  induction vs with
  | nil =>
    rw [putValue, mem_singleton] at h
    rw [h]
    exact ⟨Or.inl rfl, Or.inl rfl⟩
  | cons y vs ih =>
    rw [putValue] at h
    split_ifs at h with hy
    · rcases mem_cons.mp h with rfl | h
      · exact ⟨Or.inr ⟨y, mem_cons_self, rfl⟩, Or.inl rfl⟩
      · exact ⟨Or.inr ⟨x, mem_cons_of_mem _ h, rfl⟩, Or.inr (mem_cons_of_mem _ h)⟩
    · rcases mem_cons.mp h with rfl | h
      · exact ⟨Or.inr ⟨x, mem_cons_self, rfl⟩, Or.inr mem_cons_self⟩
      · obtain ⟨hname, hdata⟩ := ih h
        refine ⟨hname.imp_right ?_, hdata.imp_right (mem_cons_of_mem _)⟩
        rintro ⟨z, hz, heq⟩
        exact ⟨z, mem_cons_of_mem _ hz, heq⟩

theorem sized_valueSet {ty : UInt32} {data : List UInt8} (hname : utf16Len name ≤ maxValueName)
    (hdata : data.length ≤ maxData) {e : Entry} (h : Sized e.node) :
    Sized (valueSet name ty data now e).node := by
  intro x hx
  obtain ⟨hn, hd⟩ := mem_putValue hx
  constructor
  · rcases hn with rfl | ⟨y, hy, heq⟩
    · exact hname
    · rw [← heq]
      exact (h y hy).1
  · rcases hd with rfl | hy
    · exact hdata
    · exact (h x hy).2

theorem Named.edited (h : Named o) (hinv : Inv o) (hvalid : validPath (pieces s) = true)
    {real : Bool} {f : Entry → Entry} (hpath : ∀ e, (f e).path = e.path)
    (hchildren : ∀ e, (f e).node.children = e.node.children)
    (hsized : ∀ e, Sized e.node → Sized (f e).node) : Named (o.edited (pieces s) real now f) := by
  have hbumped : Named o.bumped := h.version _
  exact ((hbumped.ensureChain (hinv.version _) hvalid (clean_pieces hvalid) real).modify _ hpath
    hchildren hsized).mark _ _

theorem Named.step (h : Named o) (hinv : Inv o) (c : Call) : Named (o.step c.op) := by
  unfold Overlay.step
  split
  · next v o' hcall =>
      have hbump : Inv o.bumped := hinv.version _
      have hnamed : Named o.bumped := h.version _
      obtain ⟨s, act, now⟩ := c
      cases act with
      | setValue name ty data =>
        obtain ⟨⟨hvalid, -, hname, hdata⟩, heq⟩ := setValue_eq_ok.mp hcall
        cases heq
        exact h.edited hinv hvalid (fun _ => rfl) (fun _ => rfl)
          fun _ hs => sized_valueSet hname hdata hs
      | deleteValue name =>
        obtain ⟨⟨hvalid, -⟩, heq⟩ := deleteValue_eq_ok.mp hcall
        cases heq
        exact h.edited hinv hvalid (fun _ => rfl) (fun _ => rfl)
          fun _ hs x hx => hs x (mem_of_mem_filter hx)
      | createKey volatile realExists =>
        obtain ⟨⟨hvalid, -⟩, heq⟩ := createKey_eq_ok.mp hcall
        cases heq
        exact h.edited hinv hvalid (fun _ => rfl) (fun _ => rfl) fun _ hs => hs
      | deleteKey =>
        obtain ⟨pp, ⟨hvalid, hparent, -⟩, heq⟩ := deleteKey_eq_ok.mp hcall
        cases heq
        have hclean := clean_pieces hvalid
        obtain ⟨hppvalid, hsplit⟩ := validPath_parent hvalid hparent
        have hpp : Clean pp := hclean.of_above (hsplit ▸ prefix_append pp _)
        refine Named.touchAncestors ((hnamed.ensureChain hbump hppvalid hpp true).cutBelow ?_) _ _
        rw [← foldPath_parent hvalid hparent]
        exact clean_foldPath.mpr hclean
      | renameKey newLeaf =>
        obtain ⟨pp, old, ⟨-, hne, hsep, -, -, hren⟩, heq⟩ := hinv.renameKey_eq_ok.mp hcall
        cases heq
        exact (hnamed.renamed hren.bumped ⟨hne, hsep⟩).touchAncestors _ _
  · exact h

theorem named_runCalls (cs : List Call) : Inv (runCalls cs) ∧ Named (runCalls cs) := by
  induction cs using reverseRecOn with
  | nil => exact ⟨inv_new, named_new⟩
  | append_singleton cs c ih =>
    have hrun : runCalls (cs ++ [c]) = (runCalls cs).step c.op := by
      simp [runCalls, Transition.run]
    rw [hrun]
    exact ⟨ih.1.step c.op, ih.2.step ih.1 c⟩

end

end Overlay

end AetherVfs.Registry
