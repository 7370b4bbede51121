import AetherVfs.Registry.Accepted

/-!
# The saved overlay, read back

`decode` of what `encode` writes gives the overlay back without its volatile keys, exactly when
every key, name and count that is written is within what `decode` accepts. The mutators check
the names of the values and of the keys they create; `delete_key` checks no name and no depth,
`delete_value` checks no depth, and both store folded names, which can be longer than the names
they were given.
-/

namespace AetherVfs.Registry

open Outcome List Table Overlay

variable {o : Overlay} {k : Path} {e : Entry}

namespace Overlay

/-- A volatile key lies at or above `k`. -/
def inVolatile (o : Overlay) (k : Path) : Bool :=
  k.inits.any fun j => (o.entries.lookup j).any fun e => e.node.volatile

theorem inVolatile_iff : o.inVolatile k = true ↔
    ∃ j e, j <+: k ∧ o.entries.lookup j = some e ∧ e.node.volatile = true := by
  simp only [inVolatile, any_eq_true, mem_inits, Option.any_eq_true]
  constructor
  · rintro ⟨j, hj, e, he, hvol⟩
    exact ⟨j, e, hj, he, hvol⟩
  · rintro ⟨j, e, hj, he, hvol⟩
    exact ⟨j, hj, e, he, hvol⟩

theorem inVolatile_concat {c : Str} : o.inVolatile (k ++ [c]) = true ↔
    o.inVolatile k = true ∨ ∃ e, o.entries.lookup (k ++ [c]) = some e ∧ e.node.volatile = true := by
  simp only [inVolatile_iff]
  constructor
  · rintro ⟨j, e, hj, he, hvol⟩
    rcases prefix_concat_iff.mp hj with rfl | hj
    · exact Or.inr ⟨e, he, hvol⟩
    · exact Or.inl ⟨j, e, hj, he, hvol⟩
  · rintro (⟨j, e, hj, he, hvol⟩ | ⟨e, he, hvol⟩)
    · exact ⟨j, e, hj.trans (prefix_append _ _), he, hvol⟩
    · exact ⟨_, e, prefix_rfl, he, hvol⟩

theorem volatile_of_kept {j : Path} (he : o.entries.lookup j = some e) (hjk : j <+: k)
    (hkept : o.inVolatile k = false) : e.node.volatile = false := by
  rw [Bool.eq_false_iff]
  intro hvol
  rw [inVolatile_iff.mpr ⟨j, e, hjk, he, hvol⟩] at hkept
  cases hkept

theorem kept_above {j : Path} (hjk : j <+: k) (hkept : o.inVolatile k = false) :
    o.inVolatile j = false := by
  rw [Bool.eq_false_iff]
  intro hin
  obtain ⟨i, e, hi, he, hvol⟩ := inVolatile_iff.mp hin
  rw [volatile_of_kept he (hi.trans hjk) hkept] at hvol
  cases hvol

/-- Two entries of one key that agree on everything that is saved. -/
structure SameKey (o : Overlay) (k : Path) (e e' : Entry) : Prop where
  path : e'.path = e.path
  values : e'.node.values = e.node.values
  valueTombstones : e'.node.valueTombstones = e.node.valueTombstones
  children : ∀ c, e'.node.children.lookup c =
    if o.inVolatile (k ++ [c]) then none else e.node.children.lookup c
  created : e'.node.created = e.node.created
  volatile : e'.node.volatile = e.node.volatile
  lastWrite : e'.node.lastWrite = e.node.lastWrite

/-- `o'` holds what `o` holds, with the subtree of every volatile key removed. -/
structure Persisted (o o' : Overlay) : Prop where
  keys : ∀ k, k ∈ o'.entries ↔ k ∈ o.entries ∧ o.inVolatile k = false
  entry : ∀ k e e', o.entries.lookup k = some e → o'.entries.lookup k = some e' →
    o.SameKey k e e'
  tombs : ∀ t, t ∈ o'.tombs ↔ t ∈ o.tombs ∧ o.inVolatile t = false

variable [ToLowercase]

/-- What is written of one key is within what `decode` accepts. -/
structure Writes (o : Overlay) (k : Path) (e : Entry) : Prop where
  depth : k.length ≤ maxDecodeDepth + 2
  name : utf16Len (leaf e.path) ≤ maxKeyName
  valueTombstones : ∀ t ∈ e.node.valueTombstones, utf16Len t ≤ maxValueName
  childTombstones : ∀ n ∈ Format.tombstonedChildren e.node, utf16Len n ≤ maxKeyName
  valueCount : e.node.values.length < 2 ^ 32
  valueTombstoneCount : e.node.valueTombstones.length < 2 ^ 32
  childTombstoneCount : (Format.tombstonedChildren e.node).length < 2 ^ 32
  childCount : (Format.savedChildren o e.path e.node).length < 2 ^ 32

instance (o : Overlay) (k : Path) (e : Entry) : Decidable (o.Writes k e) :=
  decidable_of_iff (k.length ≤ maxDecodeDepth + 2 ∧ utf16Len (leaf e.path) ≤ maxKeyName ∧
      (∀ t ∈ e.node.valueTombstones, utf16Len t ≤ maxValueName) ∧
      (∀ n ∈ Format.tombstonedChildren e.node, utf16Len n ≤ maxKeyName) ∧
      e.node.values.length < 2 ^ 32 ∧ e.node.valueTombstones.length < 2 ^ 32 ∧
      (Format.tombstonedChildren e.node).length < 2 ^ 32 ∧
      (Format.savedChildren o e.path e.node).length < 2 ^ 32)
    ⟨fun ⟨h1, h2, h3, h4, h5, h6, h7, h8⟩ => ⟨h1, h2, h3, h4, h5, h6, h7, h8⟩,
      fun ⟨h1, h2, h3, h4, h5, h6, h7, h8⟩ => ⟨h1, h2, h3, h4, h5, h6, h7, h8⟩⟩

/-- Every key that is saved is within what `decode` accepts. -/
def Saveable (o : Overlay) : Prop :=
  ∀ k e, o.entries.lookup k = some e → o.inVolatile k = false → o.Writes k e

instance (o : Overlay) : Decidable o.Saveable :=
  decidable_of_iff (∀ r ∈ o.entries.entries, o.inVolatile r.1 = false → o.Writes r.1 r.2)
    ⟨fun h k e he => h ⟨k, e⟩ (AList.mem_lookup_iff.mp he),
      fun h r hr => h r.1 r.2 (AList.mem_lookup_iff.mpr hr)⟩

end Overlay

namespace Format

variable [ToLowercase]

/-! ## Reading succeeds -/

theorem decodeKids_of_le
    {decodeChild : Reader → Path → Except FormatError (List (Path × Node) × Reader)}
    {path : Path} {kids : List (Str × Node)} {body : Str × Node → List UInt8}
    {nodes : Str × Node → List (Path × Node)}
    (hname : ∀ k ∈ kids, utf16Len k.1 ≤ maxKeyName ∧ IsName k.1)
    (hnodup : (kids.map fun k => fold k.1).Nodup)
    (hchild : ∀ k ∈ kids, ∀ rest,
      decodeChild (body k ++ rest) (path ++ [k.1]) = .ok (nodes k, rest))
    (rest : List UInt8) {children : Table Str (Str × Child)}
    (hfree : ∀ k ∈ kids, fold k.1 ∉ children) (out : List (Path × Node)) :
    decodeKids decodeChild path kids.length
        (kids.flatMap (fun k => putStr k.1 ++ body k) ++ rest) children out =
      .ok (listed children (kids.map Prod.fst) .present, out ++ kids.flatMap nodes, rest) := by
  induction kids generalizing children out with
  | nil => simp [decodeKids, listed, insertAll]
  | cons k kids ih =>
    rw [map_cons, nodup_cons] at hnodup
    obtain ⟨hunits, hne, hsep⟩ := hname k mem_cons_self
    have hfree' : ∀ u ∈ kids, fold u.1 ∉ children.insert (fold k.1) (k.1, Child.present) := by
      intro u hu hmem
      rw [AList.mem_insert] at hmem
      rcases hmem with heq | hmem
      · exact hnodup.1 (heq ▸ mem_map_of_mem (f := fun k : Str × Node => fold k.1) hu)
      · exact hfree u (mem_cons_of_mem _ hu) hmem
    have hrec := ih (fun u hu => hname u (mem_cons_of_mem _ hu)) hnodup.2
      (fun u hu => hchild u (mem_cons_of_mem _ hu)) hfree' (out ++ nodes k)
    rw [length_cons, decodeKids, flatMap_cons, append_assoc, append_assoc,
      Reader.keyName_of_le hunits hne hsep, ok_bind]
    dsimp only
    rw [if_neg (hfree k mem_cons_self), hchild k mem_cons_self, ok_bind]
    dsimp only
    rw [hrec]
    simp [listed, insertAll]

theorem fold_savedChildren_notMem {path : Path} {node : Node} (hok : NodeOk node) {kid : Str × Node}
    (hkid : kid ∈ savedChildren o path node) :
    fold kid.1 ∉ listed ∅ (tombstonedChildren node) Child.tombstone := by
  intro hmem
  obtain ⟨⟨c, hc⟩, -⟩ := mem_savedChildren.mp hkid
  have hfold := hok.children_folded c _ _ hc
  obtain ⟨row, hrow⟩ := exists_lookup hmem
  by_cases ht : fold kid.1 ∈ (tombstonedChildren node).map fold
  · obtain ⟨t, ht, heq⟩ := mem_map.mp ht
    obtain ⟨c', hc'⟩ := mem_tombstonedChildren.mp ht
    have hcc : c' = c := by rw [← hok.children_folded c' _ _ hc', heq, hfold]
    rw [hcc, hc] at hc'
    cases hc'
  · rw [lookup_listed_of_notMem ht] at hrow
    cases hrow

/-- What is written of a node before its children. -/
def headOf (node : Node) : Head where
  created := node.created
  lastWrite := node.lastWrite
  values := node.values
  valueTombstones := node.valueTombstones
  childTombstones := tombstonedChildren node

theorem encodeBody_succ (o : Overlay) (fuel : ℕ) (path : Path) (node : Node) :
    encodeBody o (fuel + 1) path node =
      (headOf node).layout (savedChildren o path node).length ++
        (savedChildren o path node).flatMap fun kid =>
          putStr kid.1 ++ encodeBody o fuel (path ++ [kid.1]) kid.2 := rfl

theorem head_ok (hok : NodeOk e.node) (hsized : Overlay.Sized e.node) (hwrites : o.Writes k e)
    (htombName : ∀ t ∈ tombstonedChildren e.node, IsName t) :
    (headOf e.node).Ok ((savedChildren o e.path e.node).map Prod.fst) := by
  refine ⟨hsized, hok.values_unique, hwrites.valueTombstones, hok.tombstones_folded,
    hok.tombstones_unique, hok.values_disjoint,
    fun t ht => ⟨hwrites.childTombstones t ht, htombName t ht⟩, ?_, hwrites.valueCount,
    hwrites.valueTombstoneCount, hwrites.childTombstoneCount, ?_⟩
  · rw [map_append, map_map, nodup_append]
    refine ⟨nodup_tombstonedChildren hok, nodup_savedChildren hok, ?_⟩
    intro c hc d hd heq
    obtain ⟨kid, hkid, rfl⟩ := mem_map.mp hd
    have hmem : fold kid.1 ∈ (tombstonedChildren e.node).map fold := by
      rw [heq] at hc
      exact hc
    exact fold_savedChildren_notMem hok hkid (mem_listed.mpr (Or.inr hmem))
  · rw [length_map]
    exact hwrites.childCount

theorem decodeNode_succ_of_le {depth fuel : ℕ} (hok : NodeOk e.node) (hsized : Overlay.Sized e.node)
    (hwrites : o.Writes k e) (htombName : ∀ t ∈ tombstonedChildren e.node, IsName t)
    (hkidName : ∀ kid ∈ savedChildren o e.path e.node, utf16Len kid.1 ≤ maxKeyName ∧ IsName kid.1)
    (hkidRead : ∀ kid ∈ savedChildren o e.path e.node, ∀ rest,
      decodeNode depth (encodeBody o fuel (e.path ++ [kid.1]) kid.2 ++ rest) (e.path ++ [kid.1]) =
        .ok (saved o fuel (e.path ++ [kid.1]) kid.2, rest)) (rest : List UInt8) :
    decodeNode (depth + 1) (encodeBody o (fuel + 1) e.path e.node ++ rest) e.path =
      .ok (saved o (fuel + 1) e.path e.node, rest) := by
  have hkidsLen : ((savedChildren o e.path e.node).map Prod.fst).length ≤
      ((savedChildren o e.path e.node).flatMap
        (fun kid => putStr kid.1 ++ encodeBody o fuel (e.path ++ [kid.1]) kid.2) ++ rest).length := by
    have hle := length_le_flatMap (savedChildren o e.path e.node)
      (fun kid => putStr kid.1 ++ encodeBody o fuel (e.path ++ [kid.1]) kid.2) fun kid => by
        rw [length_append]
        exact (one_le_length_putStr kid.1).trans (Nat.le_add_right _ _)
    rw [length_map, length_append]
    omega
  have hread := decodeNode_layout (head_ok hok hsized hwrites htombName) depth e.path hkidsLen
  have hkids := decodeKids_of_le hkidName (nodup_savedChildren hok) hkidRead rest
    (fun kid hkid => fold_savedChildren_notMem hok hkid) []
  rw [length_map] at hread
  rw [encodeBody_succ, append_assoc, hread]
  dsimp only [headOf]
  rw [hkids]
  rfl

section Saved

variable {o : Overlay} (hinv : o.Inv) (hnamed : o.Named)
include hinv

variable {k : Path} {e : Entry}

theorem kid_entry (hnamed : o.Named) (he : o.entries.lookup k = some e)
    (hkept : o.inVolatile k = false) {kid : Str × Node}
    (hkid : kid ∈ savedChildren o e.path e.node) :
    ∃ e', o.entries.lookup (k ++ [fold kid.1]) = some e' ∧ e'.path = e.path ++ [kid.1] ∧
      e'.node = kid.2 ∧ o.inVolatile (k ++ [fold kid.1]) = false := by
  obtain ⟨⟨c, hc⟩, hnode, hvol⟩ := mem_savedChildren.mp hkid
  have hfold : fold kid.1 = c := (hinv.node k e he).children_folded c _ _ hc
  obtain ⟨e', he', hnode'⟩ := node_eq_some hnode
  have hkey : foldPath (e.path ++ [kid.1]) = k ++ [fold kid.1] := by
    rw [foldPath_append, hinv.spelled k e he]
    rfl
  rw [hkey] at he'
  refine ⟨e', he', hnamed.listed k c e e' kid.1 he hc (hfold ▸ he'), hnode', ?_⟩
  rw [Bool.eq_false_iff]
  intro hin
  rcases inVolatile_concat.mp hin with hin | ⟨e'', he'', hvol'⟩
  · rw [hkept] at hin
    cases hin
  · rw [he'] at he''
    cases he''
    rw [hnode', hvol] at hvol'
    cases hvol'

theorem Inv.ne_nil (he : o.entries.lookup k = some e) : k ≠ [] := by
  rintro rfl
  exact hinv.tree.not_has_nil (mem_of_lookup he)

include hnamed

theorem isName_tombstoned (he : o.entries.lookup k = some e) {t : Str}
    (ht : t ∈ tombstonedChildren e.node) : IsName t := by
  obtain ⟨c, hc⟩ := mem_tombstonedChildren.mp ht
  rw [← isName_fold, (hinv.node k e he).children_folded c _ _ hc]
  exact (hnamed.tombs _ ((hinv.tomb_iff he).mpr ⟨t, hc⟩)).last (Inv.ne_nil hinv he)

theorem decodeNode_of_saveable (hsave : o.Saveable) (depth fuel : ℕ)
    (he : o.entries.lookup k = some e) (hkept : o.inVolatile k = false)
    (hfuel : encodeFuel o < fuel + k.length) (hdepth : maxDecodeDepth + 3 ≤ depth + k.length)
    (rest : List UInt8) :
    decodeNode depth (encodeBody o fuel e.path e.node ++ rest) e.path =
      .ok (saved o fuel e.path e.node, rest) := by
  induction fuel generalizing depth k e rest with
  | zero =>
    have hlen := length_le_encodeFuel (mem_of_lookup he)
    omega
  | succ fuel ih =>
    have hwrites := hsave k e he hkept
    have hpos := hwrites.depth
    obtain ⟨depth, rfl⟩ : ∃ d, depth = d + 1 := ⟨depth - 1, by omega⟩
    refine decodeNode_succ_of_le (k := k) (hinv.node k e he) (hnamed.sized k e he)
      hwrites (fun t ht => isName_tombstoned hinv hnamed he ht) ?_ ?_ rest
    · intro kid hkid
      obtain ⟨e', he', hpath, -, hkept'⟩ := kid_entry hinv hnamed he hkept hkid
      have hunits := (hsave _ e' he' hkept').name
      have hleaf : leaf (e.path ++ [kid.1]) = kid.1 := by simp [leaf]
      rw [hpath, hleaf] at hunits
      have hclean := hnamed.keys _ (mem_of_lookup he')
      exact ⟨hunits, isName_fold.mp (hclean.last (Inv.ne_nil hinv he))⟩
    · intro kid hkid rest
      obtain ⟨e', he', hpath, hnode', hkept'⟩ := kid_entry hinv hnamed he hkept hkid
      rw [← hpath, ← hnode']
      refine ih depth he' hkept' ?_ ?_ rest
      all_goals
        simp only [length_append, length_singleton]
        omega

/-! ## The keys that are written -/

theorem mem_saved_entry {fuel : ℕ} (he : o.entries.lookup k = some e)
    (hkept : o.inVolatile k = false) {x : Path × Node} (hx : x ∈ saved o fuel e.path e.node) :
    ∃ j d, o.entries.lookup j = some d ∧ o.inVolatile j = false ∧
      x = (d.path, savedNode o d.path d.node) := by
  induction fuel generalizing k e with
  | zero => simp [saved] at hx
  | succ fuel ih =>
    rcases mem_cons.mp hx with rfl | hx
    · exact ⟨k, e, he, hkept, rfl⟩
    · obtain ⟨kid, hkid, hx⟩ := mem_flatMap.mp hx
      obtain ⟨e', he', hpath, hnode, hkept'⟩ := kid_entry hinv hnamed he hkept hkid
      rw [← hpath, ← hnode] at hx
      exact ih he' hkept' hx

omit hnamed in
theorem node_path (he : o.entries.lookup k = some e) :
    o.node e.path = some e.node := by
  rw [node, hinv.spelled k e he, he]
  rfl

theorem saved_of_kept {r : Entry} (hr : o.entries.lookup root = some r)
    (he : o.entries.lookup k = some e) (hkept : o.inVolatile k = false) :
    (e.path, savedNode o e.path e.node) ∈ saved o (encodeFuel o) r.path r.node := by
  have hrlen : r.path.length = 2 := by
    rw [eq_of_foldPath_root (hinv.spelled root r hr)]
    rfl
  have hfuel : encodeFuel o < encodeFuel o + r.path.length := by omega
  induction k using reverseRecOn generalizing e with
  | nil => exact absurd rfl (Inv.ne_nil hinv he)
  | append_singleton k c ih =>
    have hin : k ++ [c] ∈ o.entries := mem_of_lookup he
    rcases hinv.tree.up k c hin with htop | hup
    · rw [htop, hr] at he
      cases he
      have hlen := length_le_encodeFuel (mem_of_lookup hr)
      obtain ⟨m, hm⟩ : ∃ m, encodeFuel o = m + 1 := by
        refine ⟨encodeFuel o - 1, ?_⟩
        simp only [root, length_cons, length_nil] at hlen
        omega
      rw [hm]
      exact mem_cons_self
    · obtain ⟨pe, hpe⟩ := exists_lookup hup
      have hparent := ih hpe (kept_above (prefix_append k [c]) hkept)
      obtain ⟨sp, hc⟩ := (hinv.child_iff hpe).mp hin
      have hpath := hnamed.listed k c pe e sp hpe hc he
      have hkid : (sp, e.node) ∈ savedChildren o pe.path pe.node := by
        refine mem_savedChildren.mpr ⟨⟨c, hc⟩, ?_, ?_⟩
        · rw [← hpath]
          exact node_path hinv he
        · exact volatile_of_kept he prefix_rfl hkept
      have hdown := saved_down (node_path hinv hr) hfuel (node_path hinv hpe) hparent hkid
      rwa [← hpath] at hdown

omit hnamed in
theorem kept_root {r : Entry} (hr : o.entries.lookup root = some r)
    (hvol : r.node.volatile = false) : o.inVolatile root = false := by
  rw [Bool.eq_false_iff]
  intro hin
  obtain ⟨j, d, hj, hd, hdvol⟩ := inVolatile_iff.mp hin
  have hlen := (hinv.tree.top j (mem_of_lookup hd)).length_le
  rw [hj.eq_of_length_le hlen, hr] at hd
  cases hd
  rw [hvol] at hdvol
  cases hdvol

theorem mem_savedRoot {x : Path × Node} : x ∈ savedRoot o ↔
    ∃ k e, o.entries.lookup k = some e ∧ o.inVolatile k = false ∧
      x = (e.path, savedNode o e.path e.node) := by
  constructor
  · intro hx
    unfold savedRoot at hx
    split at hx
    · next r hr =>
        split_ifs at hx with hif
        · simp only [Bool.and_eq_true, decide_eq_true_eq, Bool.not_eq_true'] at hif
          obtain ⟨hroot, -⟩ := root_of_firstEntry hinv hr hif.2
          obtain ⟨k, hk⟩ := firstEntry_mem hr
          rw [← hinv.spelled k r hk, hroot] at hk
          exact mem_saved_entry hinv hnamed hk (kept_root hinv hk hif.1) hx
        · cases hx
    · cases hx
  · rintro ⟨k, e, he, hkept, rfl⟩
    have hin : k ∈ o.entries := mem_of_lookup he
    have htop := hinv.tree.top k hin
    have hrin := hinv.tree.has_above hin prefix_rfl htop
    obtain ⟨r, hr⟩ := exists_lookup hrin
    have hrvol := volatile_of_kept hr htop hkept
    have hrlen : r.path.length = 2 := by
      rw [eq_of_foldPath_root (hinv.spelled root r hr)]
      rfl
    have hmem := saved_of_kept hinv hnamed hr he hkept
    simpa [savedRoot, firstEntry_of_root hinv hr, hrvol, hrlen] using hmem

theorem decodeRoot_of_saveable (hsave : o.Saveable) :
    decodeRoot (encodeRoot o) = .ok (savedRoot o, []) := by
  unfold encodeRoot savedRoot
  cases hr : firstEntry o with
  | none => rfl
  | some r =>
    dsimp only
    split_ifs with hif
    · simp only [Bool.and_eq_true, decide_eq_true_eq, Bool.not_eq_true'] at hif
      obtain ⟨hroot, -⟩ := root_of_firstEntry hinv hr hif.2
      obtain ⟨k, hk⟩ := firstEntry_mem hr
      rw [← hinv.spelled k r hk, hroot] at hk
      have hpath : r.path = [[], leaf r.path] := eq_of_foldPath_root hroot
      have hreg : fold (leaf r.path) = registry := by
        rw [hpath] at hroot
        simpa [foldPath, root] using hroot
      have hkept := kept_root hinv hk hif.1
      obtain ⟨hne, hsep⟩ := isName_registry hreg
      have hbody := decodeNode_of_saveable hinv hnamed hsave (maxDecodeDepth + 1)
        (encodeFuel o) hk hkept (by simp [root]) (by simp [root]) []
      rw [append_nil] at hbody
      unfold decodeRoot
      simp only [cons_append, nil_append, Reader.u8_cons, ok_bind]
      rw [if_neg (by decide), if_neg (by decide),
        Reader.keyName_of_le (hsave root r hk hkept).name hne hsep, ok_bind]
      dsimp only
      rw [if_neg (not_not.mpr hreg), ← hpath, hbody]
    · rfl

/-! ## The overlay that is rebuilt -/

omit hinv hnamed in
theorem validPath_of_clean {p : Path} (htop : root <+: foldPath p) (hclean : Clean p) :
    validPath p = true := by
  obtain ⟨s, hs⟩ := htop
  match p, hs with
  | lead :: r :: rest, hs =>
    simp only [foldPath, root, map_cons, cons_append, nil_append,
      cons.injEq] at hs
    obtain ⟨hlead, hr, -⟩ := hs
    rw [eq_comm, fold_eq_nil] at hlead
    refine validPath_iff.mpr ⟨r, rest, by rw [hlead], hr.symm, fun c hc => ?_⟩
    exact (hclean c (mem_cons_of_mem _ hc)).1
  | [], hs => simp [foldPath, root] at hs
  | [a], hs => simp [foldPath, root] at hs

omit hinv hnamed in
theorem insertNodes_of_le {nodes : List (Path × Node)}
    (hok : ∀ x ∈ nodes, validPath x.1 = true ∧ x.1.length ≤ maxDecodeDepth + 2) (o : Overlay) :
    ∃ o', insertNodes o nodes = .ok o' := by
  induction nodes generalizing o with
  | nil => exact ⟨o, rfl⟩
  | cons x nodes ih =>
    obtain ⟨hvalid, hlen⟩ := hok x mem_cons_self
    have hfirst : ∃ o', insertNode o x.1 x.2 1 = .ok o' := by
      unfold insertNode checkDepth
      rw [if_neg (not_not.mpr hvalid), if_neg (by omega)]
      exact ⟨_, rfl⟩
    obtain ⟨o₁, ho₁⟩ := hfirst
    obtain ⟨o', ho'⟩ := ih (fun y hy => hok y (mem_cons_of_mem _ hy)) o₁
    refine ⟨o', ?_⟩
    rw [insertNodes, ho₁]
    exact ho'

omit hnamed in
theorem kept_tombstone (he : o.entries.lookup k = some e)
    (hkept : o.inVolatile k = false) {c sp : Str}
    (hc : e.node.children.lookup c = some (sp, .tombstone)) : o.inVolatile (k ++ [c]) = false := by
  rw [Bool.eq_false_iff]
  intro hvol
  rcases inVolatile_concat.mp hvol with hup | ⟨e', he', -⟩
  · rw [hkept] at hup
    cases hup
  · exact absurd (mem_of_lookup he')
      (hinv.tree.not_has_of_tomb ((hinv.tomb_iff he).mpr ⟨sp, hc⟩))

theorem lookup_savedNode_children (he : o.entries.lookup k = some e)
    (hkept : o.inVolatile k = false) (c : Str) :
    (savedNode o e.path e.node).children.lookup c =
      if o.inVolatile (k ++ [c]) then none else e.node.children.lookup c := by
  have hok := hinv.node k e he
  have hin : k ∈ o.entries := mem_of_lookup he
  -- A child is left out exactly when its own key is volatile.
  have hkid : ∀ sp, e.node.children.lookup c = some (sp, .present) →
      (sp ∈ (savedChildren o e.path e.node).map Prod.fst ↔ o.inVolatile (k ++ [c]) = false) := by
    intro sp hc
    have hstate : o.childState k c = some .present := by
      rw [childState_of_lookup he, hc]
      rfl
    obtain ⟨e', he'⟩ := Option.isSome_iff_exists.mp
      (AList.lookup_isSome.mpr ((hinv.tree.present_iff k c).mp hstate).2)
    have hpath := hnamed.listed k c e e' sp he hc he'
    have hfold := hok.children_folded c sp _ hc
    constructor
    · intro hsp
      obtain ⟨kid, hkid, rfl⟩ := mem_map.mp hsp
      obtain ⟨-, -, -, -, hkept'⟩ := kid_entry hinv hnamed he hkept hkid
      rwa [hfold] at hkept'
    · intro hkept'
      refine mem_map.mpr ⟨(sp, e'.node), mem_savedChildren.mpr ⟨⟨c, hc⟩, ?_, ?_⟩, rfl⟩
      · rw [← hpath]
        exact node_path hinv he'
      · exact volatile_of_kept he' prefix_rfl hkept'
  refine Option.ext fun ⟨sp, st⟩ => ?_
  rw [lookup_savedNode hok c sp st]
  cases st with
  | present =>
    by_cases hvol : o.inVolatile (k ++ [c]) = true
    · rw [if_pos hvol]
      refine ⟨fun h => ?_, fun h => nomatch h⟩
      rw [(hkid sp h.1).mp (h.2 rfl)] at hvol
      cases hvol
    · rw [if_neg hvol]
      exact ⟨fun h => h.1, fun h => ⟨h, fun _ => (hkid sp h).mpr (Bool.eq_false_iff.mpr hvol)⟩⟩
  | tombstone =>
    by_cases hvol : o.inVolatile (k ++ [c]) = true
    · rw [if_pos hvol]
      refine ⟨fun h => ?_, fun h => nomatch h⟩
      rw [kept_tombstone hinv he hkept h.1] at hvol
      cases hvol
    · rw [if_neg hvol]
      exact ⟨fun h => h.1, fun h => ⟨h, nofun⟩⟩

/-- An overlay that holds the nodes that are written holds what `o` holds, volatile keys
removed. -/
theorem persisted_of_savedRoot {o' : Overlay}
    (hholds : Holds o' (savedRoot o)) : o.Persisted o' := by
  have hentry : ∀ k e, o.entries.lookup k = some e → o.inVolatile k = false →
      o'.entries.lookup k = some ⟨e.path, savedNode o e.path e.node, 1, 1⟩ := by
    intro k e he hkept
    have hx := hholds.node _ ((mem_savedRoot hinv hnamed).mpr ⟨k, e, he, hkept, rfl⟩)
    rwa [hinv.spelled k e he] at hx
  have hkeys : ∀ k, k ∈ o'.entries ↔ k ∈ o.entries ∧ o.inVolatile k = false := by
    intro k
    constructor
    · intro hk
      obtain ⟨x, hx, rfl⟩ := hholds.mem_iff.mp hk
      obtain ⟨j, e, he, hkept, rfl⟩ := (mem_savedRoot hinv hnamed).mp hx
      rw [hinv.spelled j e he]
      exact ⟨mem_of_lookup he, hkept⟩
    · rintro ⟨hk, hkept⟩
      obtain ⟨e, he⟩ := exists_lookup hk
      exact mem_of_lookup (hentry k e he hkept)
  refine ⟨hkeys, ?_, ?_⟩
  · intro k e e' he he'
    obtain ⟨-, hkept⟩ := (hkeys k).mp (mem_of_lookup he')
    rw [hentry k e he hkept] at he'
    cases he'
    exact ⟨rfl, rfl, rfl, lookup_savedNode_children hinv hnamed he hkept, rfl,
      (volatile_of_kept he prefix_rfl hkept).symm, rfl⟩
  · intro t
    rw [hholds.tomb]
    constructor
    · rintro ⟨x, hx, c, sp, hc, rfl⟩
      obtain ⟨k, e, he, hkept, rfl⟩ := (mem_savedRoot hinv hnamed).mp hx
      dsimp only at hc
      rw [lookup_savedNode_children hinv hnamed he hkept] at hc
      rw [hinv.spelled k e he]
      split_ifs at hc with hvol
      exact ⟨(hinv.tomb_iff he).mpr ⟨sp, hc⟩, Bool.eq_false_iff.mpr hvol⟩
    · rintro ⟨ht, hkept⟩
      induction t using reverseRecOn with
      | nil => exact absurd ht hinv.tree.tomb_nil
      | append_singleton k c _ =>
        obtain ⟨e, he⟩ := exists_lookup (hinv.tree.has_of_tomb ht)
        obtain ⟨sp, hc⟩ := (hinv.tomb_iff he).mp ht
        have hkept' := kept_above (prefix_append k [c]) hkept
        refine ⟨_, (mem_savedRoot hinv hnamed).mpr ⟨k, e, he, hkept', rfl⟩, c, sp, ?_, ?_⟩
        · rw [lookup_savedNode_children hinv hnamed he hkept', if_neg (by rw [hkept]; simp)]
          exact hc
        · rw [hinv.spelled k e he]

theorem decode_encode_of_saveable (hsave : o.Saveable) :
    ∃ o', decode (encode o) = .ok o' ∧ o.Persisted o' := by
  have hkeys : ∀ x ∈ savedRoot o, validPath x.1 = true ∧ x.1.length ≤ maxDecodeDepth + 2 := by
    intro x hx
    obtain ⟨k, e, he, hkept, rfl⟩ := (mem_savedRoot hinv hnamed).mp hx
    have hin : k ∈ o.entries := mem_of_lookup he
    have hspell := hinv.spelled k e he
    refine ⟨validPath_of_clean ?_ (clean_foldPath.mp ?_), ?_⟩
    · exact hspell ▸ hinv.tree.top k hin
    · exact hspell ▸ hnamed.keys k hin
    · have hlen := (hsave k e he hkept).depth
      rwa [← hspell, foldPath, length_map] at hlen
  obtain ⟨o', ho'⟩ := insertNodes_of_le hkeys new
  have hdecode : decode (encode o) = .ok { o' with version := 1 } := by
    rw [decode_encode_eq, rebuild, decodeRoot_of_saveable hinv hnamed hsave, ok_bind]
    dsimp only
    rw [if_neg (not_not.mpr rfl), ho', ok_bind]
    rfl
  have hholds := (rooted_savedRoot hinv).1.holds o' ho'
  have hversion : Holds { o' with version := 1 } (savedRoot o) :=
    ⟨hholds.node, hholds.only, hholds.tomb⟩
  exact ⟨_, hdecode, persisted_of_savedRoot hinv hnamed hversion⟩

/-! ## The overlay that could be read back -/

theorem writes_of_sameKey {e e' : Entry} (he : o.entries.lookup k = some e)
    (hkept : o.inVolatile k = false) (hsame : o.SameKey k e e')
    (hread : (utf16Len (leaf e'.path) ≤ maxKeyName ∧ e'.path.length ≤ maxDecodeDepth + 2) ∧
      ∃ head kids, Head.Ok head kids ∧ e'.node = head.node kids) : o.Writes k e := by
  have hok := hinv.node k e he
  obtain ⟨hpath, hvalues, htombs, hchildren, -⟩ := hsame
  obtain ⟨⟨hleaf, hdepth⟩, head, kids, hhead, hnode⟩ := hread
  rw [hnode] at hvalues htombs hchildren
  have hlen : k.length = e'.path.length := by
    rw [← hinv.spelled k e he, foldPath, length_map, hpath]
  have hdead : tombstonedChildren e.node ⊆ head.childTombstones := by
    intro t ht
    obtain ⟨c, hc⟩ := mem_tombstonedChildren.mp ht
    have hthere := hchildren c
    rw [kept_tombstone hinv he hkept hc, if_neg Bool.false_ne_true, hc] at hthere
    exact (Head.lookup_node hthere).2.2 rfl
  have hlive : (savedChildren o e.path e.node).map Prod.fst ⊆ kids := by
    intro t ht
    obtain ⟨kid, hkid, rfl⟩ := mem_map.mp ht
    obtain ⟨c, hc⟩ := (mem_savedChildren.mp hkid).1
    obtain ⟨-, -, -, -, hkept'⟩ := kid_entry hinv hnamed he hkept hkid
    rw [hok.children_folded c _ _ hc] at hkept'
    have hthere := hchildren c
    rw [hkept', if_neg Bool.false_ne_true, hc] at hthere
    exact (Head.lookup_node hthere).2.1 rfl
  have hlive_nodup : ((savedChildren o e.path e.node).map Prod.fst).Nodup := by
    refine Nodup.of_map fold ?_
    rw [map_map]
    exact nodup_savedChildren hok
  have hlive_le := (hlive_nodup.subperm hlive).length_le
  rw [length_map] at hlive_le
  have hdead_le := ((nodup_tombstonedChildren hok).of_map.subperm hdead).length_le
  exact ⟨hlen ▸ hdepth, hpath ▸ hleaf, htombs ▸ hhead.tombstones_sized,
    fun t ht => (hhead.children_accepted t (hdead ht)).1, hvalues ▸ hhead.valueCount,
    htombs ▸ hhead.tombstoneCount, hdead_le.trans_lt hhead.childTombstoneCount,
    hlive_le.trans_lt hhead.kidCount⟩

theorem saveable_of_persisted {o' : Overlay} (hdecode : decode (encode o) = .ok o')
    (hsame : o.Persisted o') : o.Saveable := by
  intro k e he hkept
  obtain ⟨e', he'⟩ := exists_lookup ((hsame.keys k).mpr ⟨mem_of_lookup he, hkept⟩)
  exact writes_of_sameKey hinv hnamed he hkept (hsame.entry k e e' he he')
    (decode_entry hdecode he')

end Saved

/-- Whatever calls made it, the overlay is read back without its volatile keys exactly when
what is written of it is within what `decode` accepts. -/
theorem decode_encode_iff_saveable (cs : List Overlay.Call) :
    (∃ o', decode (encode (Overlay.runCalls cs)) = .ok o' ∧
      (Overlay.runCalls cs).Persisted o') ↔ (Overlay.runCalls cs).Saveable := by
  obtain ⟨hinv, hnamed⟩ := named_runCalls cs
  constructor
  · rintro ⟨o', hdecode, hsame⟩
    exact saveable_of_persisted hinv hnamed hdecode hsame
  · exact decode_encode_of_saveable hinv hnamed

end Format

namespace Overlay

/-- `delete_key` of a key of the real registry whose name is too long for a key of the
overlay. -/
def overlongDelete : List Call :=
  [⟨'\\' :: (['R', 'e', 'g', 'i', 's', 't', 'r', 'y', '\\'] ++ List.replicate 256 'x'),
    .deleteKey, 0⟩]

attribute [local instance] asciiLowercase

theorem not_persisted_overlongDelete :
    ¬ ∃ o', Format.decode (Format.encode (runCalls overlongDelete)) = .ok o' ∧
      (runCalls overlongDelete).Persisted o' := by
  rintro ⟨o', hdecode, hsame⟩
  obtain ⟨hinv, hnamed⟩ := named_runCalls overlongDelete
  have hsave := Format.saveable_of_persisted hinv hnamed hdecode hsame
  have hroot : ((runCalls overlongDelete).entries.lookup root).any
      (fun e => (Format.tombstonedChildren e.node).any fun n => maxKeyName < utf16Len n) = true := by
    decide +kernel
  rw [Option.any_eq_true] at hroot
  obtain ⟨e, he, hlong⟩ := hroot
  obtain ⟨n, hn, hlt⟩ := any_eq_true.mp hlong
  have hkept : (runCalls overlongDelete).inVolatile root = false := by decide +kernel
  have hle := (hsave root e he hkept).childTombstones n hn
  exact absurd hle (not_le.mpr (of_decide_eq_true hlt))

end Overlay

end AetherVfs.Registry
