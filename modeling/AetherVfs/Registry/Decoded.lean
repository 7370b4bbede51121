import AetherVfs.Registry.CreatedHere
import AetherVfs.Registry.RoundTrip

/-!
# The overlays `decode` returns

Whatever the bytes, an overlay that `decode` returns is one tree of keys with well-formed nodes.
Nothing checks the created mark of a key against the key above it, so the mark is handed down,
and the overlay is one the mutators could have made, exactly when the file hands it down. Such
an overlay is written and read back as it is.
-/

namespace AetherVfs.Registry.Format

open Outcome List AList Table

variable [ToLowercase]

variable {f : Forest}

namespace Forest

variable {path : Path} {x : Path × Node}

/-! ## The created mark -/

/-- Every key below a key created here is created here; `created` is the mark above. -/
def Closed : Forest → Bool → Prop
  | nil, _ => True
  | cons _ head below next, created =>
    (created = true → head.created = true) ∧ below.Closed head.created ∧ next.Closed created

theorem Closed.up {created : Bool} (h : f.Closed created) (hx : x ∈ f.nodes path) :
    (∃ name, x.1 = path ++ [name] ∧ (created = true → x.2.created = true)) ∨
      ∃ y ∈ f.nodes path, ∃ name, x.1 = y.1 ++ [name] ∧
        (y.2.created = true → x.2.created = true) := by
  induction f generalizing created path with
  | nil => simp [nodes] at hx
  | cons name head below next ihBelow ihNext =>
    obtain ⟨hhead, hbelow, hnext⟩ := h
    rcases mem_nodes_cons.mp hx with rfl | hx | hx
    · exact .inl ⟨name, rfl, hhead⟩
    · rcases ihBelow hbelow hx with ⟨kid, hpath, hkid⟩ | ⟨y, hy, hyx⟩
      · exact .inr ⟨_, mem_cons_self, kid, hpath, hkid⟩
      · exact .inr ⟨y, mem_below hy, hyx⟩
    · rcases ihNext hnext hx with hpath | ⟨y, hy, hyx⟩
      · exact .inl hpath
      · exact .inr ⟨y, mem_next hy, hyx⟩

theorem closed_of_inherits (path : Path) {created : Bool}
    (htop : ∀ x ∈ f.nodes path, ∀ name, x.1 = path ++ [name] → created = true →
      x.2.created = true) (h : Inherits (f.nodes path)) : f.Closed created := by
  induction f generalizing path created with
  | nil => trivial
  | cons name head below next ihBelow ihNext =>
    refine ⟨htop _ mem_cons_self name rfl, ihBelow (path ++ [name]) ?_ ?_, ihNext path ?_ ?_⟩
    · exact fun x hx kid => h x (mem_below hx) _ mem_cons_self kid
    · exact fun x hx y hy => h x (mem_below hx) y (mem_below hy)
    · exact fun x hx => htop x (mem_next hx)
    · exact fun x hx y hy => h x (mem_next hx) y (mem_next hy)

theorem IsFile.inherits_iff (h : f.IsFile) : Inherits (f.nodes [[]]) ↔ f.Closed false := by
  constructor
  · refine closed_of_inherits _ fun x _ name _ hfalse => ?_
    cases hfalse
  · intro hclosed x hx y hy name hxy hcreated
    rcases hclosed.up hx with ⟨top, hpath, -⟩ | ⟨z, hz, last, hxz, hzx⟩
    · obtain ⟨other, -, hpre⟩ := exists_name hy
      have hyx := (append_inj' (hxy.symm.trans hpath) rfl).1
      rw [hyx] at hpre
      exact absurd hpre not_append_prefix_self
    · have hyz := (append_inj' (hxy.symm.trans hxz) rfl).1
      rw [h.rooted.eq_of_foldPath hy hz (by rw [hyz])] at hcreated
      exact hzx hcreated

end Forest

/-! ## The overlay of a file -/

variable {o : Overlay}

open Overlay in
theorem Forest.IsFile.named (h : f.IsFile) (hholds : Holds o (f.nodes [[]])) : o.Named := by
  refine ⟨?_, ?_, ?_, ?_⟩
  · intro k hk
    obtain ⟨x, hx, rfl⟩ := hholds.mem_iff.mp hk
    exact clean_foldPath.mpr (Forest.nodes_ok h.ok clean_lead hx).1
  · intro t ht
    obtain ⟨x, hx, c, sp, hc, rfl⟩ := (hholds.tomb t).mp ht
    obtain ⟨hx, -, head, kids, hok, hnode⟩ := Forest.nodes_ok h.ok clean_lead hx
    rw [hnode] at hc
    obtain ⟨rfl, -, hdead⟩ := Head.lookup_node hc
    exact (clean_foldPath.mpr hx).concat
      (isName_fold.mpr (hok.children_accepted sp (hdead rfl)).2)
  · intro k c pe e sp hpe hsp he
    obtain ⟨x, -, y, -, name, rfl, rfl, hxy, hname⟩ := hholds.under_cases h.rooted hpe he
    rw [hname] at hsp
    cases hsp
    exact hxy
  · intro k e he
    obtain ⟨x, hx, -, rfl⟩ := hholds.back he
    obtain ⟨-, -, head, kids, hok, hnode⟩ := Forest.nodes_ok h.ok clean_lead hx
    dsimp only
    rw [hnode]
    exact hok.sized

theorem Forest.IsFile.decode_eq (h : f.IsFile) :
    ∃ o, decode (frame f.rootBytes) = .ok o ∧ Holds o (f.nodes [[]]) := by
  have hvalid : ∀ x ∈ f.nodes [[]], validPath x.1 = true ∧ x.1.length ≤ maxDecodeDepth + 2 := by
    intro x hx
    obtain ⟨hx', ⟨-, hlen⟩, -⟩ := Forest.nodes_ok h.ok clean_lead hx
    refine ⟨validPath_of_clean (h.rooted.top hx) hx', ?_⟩
    rw [length_singleton] at hlen
    omega
  obtain ⟨o, ho⟩ := insertNodes_of_le hvalid Overlay.new
  obtain ⟨hnode, honly, htomb⟩ := h.rooted.holds o ho
  exact ⟨_, decode_eq_ok_iff.mpr ⟨f, h, rfl, o, ho, rfl⟩, hnode, honly, htomb⟩

/-! ## The change marks of a decoded overlay -/

/-- Everything was recorded at version 1. The deletion marks are those of the tombstones, unless
there were too many to keep. -/
structure Fresh (o : Overlay) : Prop where
  entries : ∀ k e, o.entries.lookup k = some e → e.changed = 1 ∧ e.subtree = 1
  tombs : ∀ k v, o.tombs.lookup k = some v → v = 1
  deletedAt : ∀ k v, o.deletedAt.lookup k = some v → v = 1
  deletions : (o.deletedFloor = 0 ∧ o.tombs.keys.length ≤ maxDeletedAt ∧
      ∀ k, k ∈ o.deletedAt ↔ k ∈ o.tombs) ∨
    (o.deletedFloor = 1 ∧ maxDeletedAt < o.tombs.keys.length)

omit [ToLowercase] in
theorem fresh_new : Fresh Overlay.new := by
  refine ⟨?_, ?_, ?_, Or.inl ⟨rfl, ?_, ?_⟩⟩ <;> simp [Overlay.new]

omit [ToLowercase] in
theorem foldl_max_ones {l : List ℕ} {m : ℕ} (hl : ∀ x ∈ l, x = 1) (hm : m ≤ 1)
    (hone : l ≠ [] ∨ m = 1) : l.foldl max m = 1 := by
  induction l generalizing m with
  | nil => exact hone.resolve_left fun h => h rfl
  | cons x l ih =>
    obtain rfl := hl x mem_cons_self
    rw [foldl_cons, max_eq_right hm]
    exact ih (fun x hx => hl x (mem_cons_of_mem _ hx)) le_rfl (Or.inr rfl)

omit [ToLowercase] in
theorem Fresh.tomb (h : Fresh o) (f : Path) : Fresh (o.tomb f 1) := by
  set marks := o.deletedAt.insert f (max ((o.deletedAt.lookup f).getD 0) 1) with hmarks
  have hmark : max ((o.deletedAt.lookup f).getD 0) 1 = 1 := by
    cases hf : o.deletedAt.lookup f with
    | none => rfl
    | some v =>
      rw [h.deletedAt f v hf]
      rfl
  have hones : ∀ k v, marks.lookup k = some v → v = 1 := by
    intro k v hk
    rw [hmarks, hmark, lookup_insert_eq_ite] at hk
    split_ifs at hk
    · cases hk
      rfl
    · exact h.deletedAt k v hk
  have htombs : ∀ k v, (o.tombs.insert f 1).lookup k = some v → v = 1 := by
    intro k v hk
    rw [lookup_insert_eq_ite] at hk
    split_ifs at hk
    · cases hk
      rfl
    · exact h.tombs k v hk
  have hgrows := length_keys_le_insert o.tombs f 1
  -- As long as no mark was dropped, the marks are the tombstones' keys.
  have hkeys : (∀ k, k ∈ o.deletedAt ↔ k ∈ o.tombs) →
      (∀ k, k ∈ marks ↔ k ∈ o.tombs.insert f 1) ∧
        marks.keys.length = (o.tombs.insert f 1).keys.length := by
    intro hsame
    have hiff : ∀ k, k ∈ marks ↔ k ∈ o.tombs.insert f 1 := by
      intro k
      rw [hmarks, mem_insert, mem_insert, hsame]
    exact ⟨hiff, length_keys_congr hiff⟩
  unfold Overlay.tomb
  dsimp only
  rw [← hmarks]
  split_ifs with hfull
  · have hne : marks.entries.map (fun r => r.2) ≠ [] := by
      intro hnil
      rw [AList.keys, List.keys, List.map_eq_nil_iff.mp hnil] at hfull
      simp at hfull
    have hnewest : (marks.entries.map fun r => r.2).foldl max 0 = 1 := by
      refine foldl_max_ones ?_ (Nat.zero_le 1) (Or.inl hne)
      intro v hv
      obtain ⟨r, hr, rfl⟩ := mem_map.mp hv
      exact hones r.1 r.2 (mem_lookup_iff.mpr hr)
    refine ⟨h.entries, htombs, by simp, Or.inr ⟨?_, ?_⟩⟩
    · dsimp only
      rw [hnewest]
      rcases h.deletions with ⟨hfloor, -⟩ | ⟨hfloor, -⟩ <;> rw [hfloor] <;> rfl
    · rcases h.deletions with ⟨-, -, hsame⟩ | ⟨-, hmany⟩
      · rw [← (hkeys hsame).2]
        exact hfull
      · exact hmany.trans_le hgrows
  · refine ⟨h.entries, htombs, hones, ?_⟩
    rcases h.deletions with ⟨hfloor, -, hsame⟩ | ⟨hfloor, hmany⟩
    · obtain ⟨hiff, hlen⟩ := hkeys hsame
      exact Or.inl ⟨hfloor, hlen ▸ not_lt.mp hfull, hiff⟩
    · exact Or.inr ⟨hfloor, hmany.trans_le hgrows⟩

omit [ToLowercase] in
theorem Fresh.children (h : Fresh o) (rows : List (Str × Str × Child)) (f : Path) :
    Fresh (rows.foldl
      (fun o c => if c.2.2 = .tombstone then o.tomb (f ++ [c.1]) 1 else o) o) := by
  induction rows generalizing o with
  | nil => exact h
  | cons r rows ih =>
    rw [foldl_cons]
    apply ih
    split_ifs
    · exact h.tomb _
    · exact h

theorem Fresh.insertNode (h : Fresh o) (path : Path) (node : Node)
    (hnone : foldPath path ∉ o.tombs) (hkept : ¬ Deletes (path, node) (foldPath path)) :
    Ends (insertNode o path node 1) Fresh := by
  unfold Format.insertNode
  refine ends_unless fun _ => ends_bind_any fun _ => ends_pure ?_
  set o₁ := (rowsWhere node.children fun _ => true).foldl
    (fun o c => if c.2.2 = .tombstone then o.tomb (foldPath path ++ [c.1]) 1 else o) o with ho₁
  have hfresh : Fresh o₁ := h.children _ _
  have hnone₁ : foldPath path ∉ o₁.tombs := by
    intro hmem
    rw [ho₁, mem_tombs_insertNode_children] at hmem
    rcases hmem with hmem | ⟨c, sp, hc, heq⟩
    · exact hnone hmem
    · exact hkept ⟨c, sp, (mem_rowsWhere.mp hc).1, heq⟩
  have herase : ∀ k, (o₁.tombs.erase (foldPath path)).lookup k = o₁.tombs.lookup k := by
    intro k
    rw [lookup_erase_eq_ite]
    split_ifs with hk
    · rw [hk, lookup_eq_none.mpr hnone₁]
    · rfl
  have hmem : ∀ k, k ∈ o₁.tombs.erase (foldPath path) ↔ k ∈ o₁.tombs := by
    intro k
    rw [← lookup_isSome, herase, lookup_isSome]
  refine ⟨?_, ?_, hfresh.deletedAt, ?_⟩
  · intro k e he
    rw [lookup_insert_eq_ite] at he
    split_ifs at he
    · cases he
      exact ⟨rfl, rfl⟩
    · exact hfresh.entries k e he
  · intro k v hk
    exact hfresh.tombs k v ((herase k).symm.trans hk)
  · dsimp only
    rw [length_keys_congr hmem]
    simp only [hmem]
    exact hfresh.deletions

theorem Fresh.insertNodes {nodes : List (Path × Node)}
    (hkept : ∀ x ∈ nodes, ∀ y ∈ nodes, ¬ Deletes x (foldPath y.1)) (h : Fresh o)
    (hnone : ∀ x ∈ nodes, foldPath x.1 ∉ o.tombs) : Ends (insertNodes o nodes) Fresh := by
  induction nodes generalizing o with
  | nil => exact ends_ok h
  | cons x nodes ih =>
    obtain ⟨path, node⟩ := x
    rw [Format.insertNodes]
    split
    · next o₁ ho₁ =>
        have hfirst := h.insertNode path node (hnone _ mem_cons_self)
          (hkept _ mem_cons_self _ mem_cons_self) o₁ ho₁
        obtain ⟨-, htombs⟩ := ends_insertNode o path node o₁ ho₁
        refine ih (fun x hx y hy => hkept x (mem_cons_of_mem _ hx) y
          (mem_cons_of_mem _ hy)) hfirst ?_
        intro y hy hmem
        rcases ((htombs _).mp hmem).1 with hold | hdel
        · exact hnone y (mem_cons_of_mem _ hy) hold
        · exact hkept _ mem_cons_self y (mem_cons_of_mem _ hy) hdel
    · exact ends_error _ _

theorem Fresh.changedSince_of_none (h : Fresh o) {path : Path}
    (hnone : o.entries.lookup (foldPath path) = none) (subtree : Bool) (v : ℕ) :
    o.changedSince path subtree v = true ↔ v < 1 ∧
      ((∃ q ∈ selfAndAncestors (foldPath path), q ∈ o.tombs) ∨
        maxDeletedAt < o.tombs.keys.length) := by
  unfold Overlay.changedSince
  simp only [hnone, Bool.or_eq_true, any_eq_true, Option.any_eq_true, decide_eq_true_eq]
  rcases h.deletions with ⟨hfloor, hfew, hsame⟩ | ⟨hfloor, hmany⟩
  · rw [hfloor]
    constructor
    · rintro (⟨q, hq, m, hm, hlt⟩ | hlt)
      · rw [h.deletedAt q m hm] at hlt
        exact ⟨hlt, Or.inl ⟨q, hq, (hsame q).mp (mem_of_lookup hm)⟩⟩
      · omega
    · rintro ⟨hlt, ⟨q, hq, hmem⟩ | hmany⟩
      · obtain ⟨m, hm⟩ := exists_lookup ((hsame q).mpr hmem)
        exact Or.inl ⟨q, hq, m, hm, h.deletedAt q m hm ▸ hlt⟩
      · omega
  · rw [hfloor]
    constructor
    · rintro (⟨q, hq, m, hm, hlt⟩ | hlt)
      · exact ⟨h.deletedAt q m hm ▸ hlt, Or.inr hmany⟩
      · exact ⟨hlt, Or.inr hmany⟩
    · exact fun hlt => Or.inr hlt.1

end AetherVfs.Registry.Format

namespace AetherVfs.Registry.Overlay

/-- Two entries that agree on everything. -/
structure SameEntry (e e' : Entry) : Prop where
  path : e'.path = e.path
  values : e'.node.values = e.node.values
  valueTombstones : e'.node.valueTombstones = e.node.valueTombstones
  children : ∀ c, e'.node.children.lookup c = e.node.children.lookup c
  created : e'.node.created = e.node.created
  volatile : e'.node.volatile = e.node.volatile
  lastWrite : e'.node.lastWrite = e.node.lastWrite
  changed : e'.changed = e.changed
  subtree : e'.subtree = e.subtree

variable [ToLowercase]

/-- The same overlay. Which deletion marks are dropped once there are too many depends on the
order they were made in; what the marks answer does not. -/
structure Same (o o' : Overlay) : Prop where
  keys : ∀ k, k ∈ o'.entries ↔ k ∈ o.entries
  entry : ∀ k e e', o.entries.lookup k = some e → o'.entries.lookup k = some e' → SameEntry e e'
  tombs : ∀ t, o'.tombs.lookup t = o.tombs.lookup t
  version : o'.version = o.version
  changedSince : ∀ path subtree v, o'.changedSince path subtree v = o.changedSince path subtree v

end AetherVfs.Registry.Overlay

namespace AetherVfs.Registry.Format

open Outcome

section

variable [ToLowercase]

theorem Fresh.changedSince_eq {o o' : Overlay} (h : Fresh o) (h' : Fresh o')
    (hkeys : ∀ k, k ∈ o'.entries ↔ k ∈ o.entries) (htombs : ∀ t, t ∈ o'.tombs ↔ t ∈ o.tombs)
    (path : Path) (subtree : Bool) (v : ℕ) :
    o'.changedSince path subtree v = o.changedSince path subtree v := by
  cases he : o.entries.lookup (foldPath path) with
  | some e =>
    have hmem := (hkeys (foldPath path)).mpr (Table.mem_of_lookup he)
    obtain ⟨e', he'⟩ := Table.exists_lookup hmem
    obtain ⟨hchanged, hsubtree⟩ := h.entries _ e he
    obtain ⟨hchanged', hsubtree'⟩ := h'.entries _ e' he'
    simp only [Overlay.changedSince, he, he', hchanged, hsubtree, hchanged', hsubtree']
  | none =>
    have he' : o'.entries.lookup (foldPath path) = none := by
      rw [AList.lookup_eq_none, hkeys]
      exact AList.lookup_eq_none.mp he
    rw [Bool.eq_iff_iff, h.changedSince_of_none he, h'.changedSince_of_none he',
      Table.length_keys_congr htombs]
    simp only [htombs]

variable {o : Overlay} {b : List UInt8}

theorem decode_cases (hb : decode b = .ok o) :
    ∃ f : Forest, f.IsFile ∧ b = frame f.rootBytes ∧ Holds o (f.nodes [[]]) ∧ Fresh o ∧
      o.version = 1 := by
  obtain ⟨f, hfile, rfl, o₁, ho₁, rfl⟩ := decode_eq_ok_iff.mp hb
  have hkept : ∀ x ∈ f.nodes [[]], ∀ y ∈ f.nodes [[]], ¬ Deletes x (foldPath y.1) :=
    fun x hx y hy => hfile.rooted.not_deletes hx hy
  have hfresh := Fresh.insertNodes hkept fresh_new (fun _ _ => AList.notMem_empty _) o₁ ho₁
  obtain ⟨hnode, honly, htomb⟩ := hfile.rooted.holds o₁ ho₁
  exact ⟨f, hfile, rfl, ⟨hnode, honly, htomb⟩,
    ⟨hfresh.entries, hfresh.tombs, hfresh.deletedAt, hfresh.deletions⟩, rfl⟩

theorem decode_wellFormed (hb : decode b = .ok o) : o.WellFormed := by
  obtain ⟨f, hfile, -, hholds, -⟩ := decode_cases hb
  exact Overlay.wellFormed_of_tree (hholds.tree hfile.rooted) (hholds.nodeOk hfile.rooted)

theorem Forest.IsFile.not_inVolatile {f : Forest} (h : f.IsFile)
    (hholds : Holds o (f.nodes [[]])) (k : Path) : o.inVolatile k = false := by
  rw [Bool.eq_false_iff]
  intro hin
  obtain ⟨j, e, -, he, hvol⟩ := Overlay.inVolatile_iff.mp hin
  obtain ⟨x, hx, -, rfl⟩ := hholds.back he
  obtain ⟨-, -, head, kids, -, hnode⟩ := Forest.nodes_ok h.ok clean_lead hx
  dsimp only at hvol
  rw [hnode] at hvol
  cases hvol

theorem same_of_inv (hb : decode b = .ok o) (hinv : o.Inv) :
    ∃ o', decode (encode o) = .ok o' ∧ o.Same o' := by
  obtain ⟨f, hfile, -, hholds, hfresh, hversion⟩ := decode_cases hb
  have hkept := hfile.not_inVolatile hholds
  have hnamed := hfile.named hholds
  have hsave : o.Saveable := by
    intro k e he hvol
    refine writes_of_sameKey hinv hnamed he hvol ?_ (decode_entry hb he)
    refine ⟨rfl, rfl, rfl, fun c => ?_, rfl, rfl, rfl⟩
    rw [hkept, if_neg Bool.false_ne_true]
  obtain ⟨o', hdecode, hpersisted⟩ := decode_encode_of_saveable hinv hnamed hsave
  obtain ⟨-, -, -, -, hfresh', hversion'⟩ := decode_cases hdecode
  have hkeys : ∀ k, k ∈ o'.entries ↔ k ∈ o.entries := by
    intro k
    rw [hpersisted.keys, and_iff_left (hkept k)]
  have htombs : ∀ t, t ∈ o'.tombs ↔ t ∈ o.tombs := by
    intro t
    rw [hpersisted.tombs, and_iff_left (hkept t)]
  refine ⟨o', hdecode, hkeys, ?_, ?_, hversion'.trans hversion.symm,
    hfresh.changedSince_eq hfresh' hkeys htombs⟩
  · intro k e e' he he'
    obtain ⟨hpath, hvalues, hvalueTombs, hchildren, hcreated, hvolatile, hlast⟩ :=
      hpersisted.entry k e e' he he'
    obtain ⟨hchanged, hsubtree⟩ := hfresh.entries k e he
    obtain ⟨hchanged', hsubtree'⟩ := hfresh'.entries k e' he'
    refine ⟨hpath, hvalues, hvalueTombs, fun c => ?_, hcreated, hvolatile, hlast,
      hchanged'.trans hchanged.symm, hsubtree'.trans hsubtree.symm⟩
    rw [hchildren, hkept, if_neg Bool.false_ne_true]
  · intro t
    cases ht : o.tombs.lookup t with
    | none =>
      rw [AList.lookup_eq_none, htombs]
      exact AList.lookup_eq_none.mp ht
    | some v =>
      have hmem := (htombs t).mpr (Table.mem_of_lookup ht)
      obtain ⟨v', hv'⟩ := Table.exists_lookup hmem
      rw [hv', hfresh.tombs t v ht, hfresh'.tombs t v' hv']

theorem Holds.inherits {nodes : List (Path × Node)} (h : Holds o nodes)
    (hclosed : o.CreatedClosed) : Inherits nodes := by
  intro x hx y hy name hxy hcreated
  have hlower := h.node x hx
  rw [hxy, Overlay.foldPath_append] at hlower
  exact hclosed _ _ _ _ (h.node y hy) hlower hcreated

/-- `decode` returns only overlays that the mutators could have made, and that are written and
read back as they are, exactly when the file does not mark a key created here above one that is
not. -/
theorem decode_safe_iff (b : List UInt8) :
    (∀ o, decode b = .ok o → o.WellFormed ∧ o.CreatedClosed ∧
      ∃ o', decode (encode o) = .ok o' ∧ o.Same o') ↔
      ∀ f : Forest, f.IsFile → b = frame f.rootBytes → f.Closed false := by
  constructor
  · rintro hsafe f hfile rfl
    obtain ⟨o, ho, hholds⟩ := hfile.decode_eq
    exact hfile.inherits_iff.mp (hholds.inherits (hsafe o ho).2.1)
  · intro hclosed o ho
    obtain ⟨f, hfile, hframe, hholds, -⟩ := decode_cases ho
    have hinv := hholds.inv hfile.rooted (hfile.inherits_iff.mpr (hclosed f hfile hframe))
    exact ⟨decode_wellFormed ho, hinv.createdClosed, same_of_inv ho hinv⟩

/-- A head that says nothing but the created mark. -/
def bareHead (created : Bool) : Head where
  created := created
  lastWrite := 0
  values := []
  valueTombstones := []
  childTombstones := []

theorem bareHead_ok (created : Bool) {kids : List Str} (hunique : (kids.map fold).Nodup)
    (hcount : kids.length < 2 ^ 32) : (bareHead created).Ok kids := by
  refine ⟨?_, List.nodup_nil, ?_, ?_, List.nodup_nil, ?_, ?_, hunique, ?_, ?_, ?_, hcount⟩ <;>
    simp [bareHead]

end

attribute [local instance] asciiLowercase

/-- A file with a key `k` below the root that is created here, and below it a key `a` that is
not. -/
def looseFile : Forest :=
  .single ['R', 'e', 'g', 'i', 's', 't', 'r', 'y'] (bareHead false)
    (.single ['k'] (bareHead true) (.single ['a'] (bareHead false) .nil))

theorem isFile_looseFile : looseFile.IsFile := by
  have hbare := @bareHead_ok _
  refine ⟨rfl, by decide, ?_, hbare _ (by decide) (by decide), ⟨?_, hbare _ (by decide) (by decide),
    ⟨?_, hbare _ (by decide) (by decide), trivial, trivial⟩, trivial⟩, trivial⟩
  all_goals exact ⟨by decide, by decide, by decide⟩

/-- The key below the created-here key is read as one that is not created here. -/
theorem looseFile_not_safe :
    ¬ ∀ o, decode (frame looseFile.rootBytes) = .ok o →
      o.WellFormed ∧ o.CreatedClosed ∧ ∃ o', decode (encode o) = .ok o' ∧ o.Same o' := by
  intro hsafe
  obtain ⟨o, ho, hholds⟩ := isFile_looseFile.decode_eq
  obtain ⟨-, hclosed, -⟩ := hsafe o ho
  have hupper := hholds.node
    ([[], ['R', 'e', 'g', 'i', 's', 't', 'r', 'y'], ['k']], _)
    (List.mem_cons_of_mem _ List.mem_cons_self)
  have hlower := hholds.node
    ([[], ['R', 'e', 'g', 'i', 's', 't', 'r', 'y'], ['k'], ['a']], _)
    (List.mem_cons_of_mem _ (List.mem_cons_of_mem _ List.mem_cons_self))
  have hcreated := hclosed _ ['a'] _ _ hupper hlower rfl
  cases hcreated

end AetherVfs.Registry.Format
