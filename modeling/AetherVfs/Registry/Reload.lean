import AetherVfs.Lib.Outcome
import AetherVfs.Registry.Format

/-!
# Reading back what was written

What `decode` makes of the bytes `encode` writes, as long as every length and count fits the 32
bits it is written in: the nodes `encode` went through, each with the children that were
written. `decode` may refuse the file (a name too long for the format, too deep a nesting),
so the results are about the overlays it returns.
-/

namespace AetherVfs.Registry.Format

open Outcome List Reader LittleEndian

theorem length_utf8_le (s : Str) : (utf8 s).length ≤ utf16Len s * 3 := by
  induction s with
  | nil => rfl
  | cons c s ih =>
    have hcons : utf8 (c :: s) = String.utf8EncodeChar c ++ utf8 s := rfl
    have hunits : utf16Len (c :: s) = (if c.toNat < 65536 then 1 else 2) + utf16Len s := rfl
    have hchar : c.utf8Size ≤ (if c.toNat < 65536 then 1 else 2) * 3 := by
      have hsize := Char.utf8Size_le_four c
      split_ifs with hlt
      · have hle : c.val ≤ 0xffff := UInt32.le_iff_toNat_le.mpr (Nat.lt_succ_iff.mp hlt)
        unfold Char.utf8Size
        dsimp only
        split_ifs with h1 h2 h3
        · omega
        · omega
        · omega
        · exact absurd hle h3
      · omega
    rw [hcons, hunits, length_append, String.length_utf8EncodeChar]
    omega

namespace Reader

variable {n : ℕ} {s : Str}

theorem take_append {front : List UInt8} (h : front.length = n) (rest : List UInt8) :
    take (front ++ rest) n = .ok (front, rest) := by
  subst h
  simp [take]

theorem u32_putU32 (h : n < 2 ^ 32) (rest : List UInt8) :
    u32 (putU32 n ++ rest) = .ok (n, rest) := by
  have hval : value (putU32 n) = n :=
    value_bytes_of_lt (h.trans_le (by norm_num))
  have htake : take (putU32 n ++ rest) 4 = .ok (putU32 n, rest) :=
    take_append (length_bytes 4 n) rest
  simp only [u32, htake, ok_bind, hval]
  rfl

theorem u32_ty (ty : UInt32) (rest : List UInt8) :
    u32 (LittleEndian.bytes 4 ty.toNat ++ rest) = .ok (ty.toNat, rest) :=
  u32_putU32 ty.toNat_lt rest

theorem u64_bytes (x : UInt64) (rest : List UInt8) :
    u64 (LittleEndian.bytes 8 x.toNat ++ rest) = .ok (x, rest) := by
  have hval : value (bytes 8 x.toNat) = x.toNat :=
    value_bytes_of_lt (x.toNat_lt.trans_le (by norm_num))
  simp only [u64, take_append (length_bytes 8 x.toNat), ok_bind, hval,
    UInt64.ofNat_toNat]
  rfl

theorem u8_cons (b : UInt8) (rest : List UInt8) : u8 (b :: rest) = .ok (b, rest) := rfl

theorem count_putU32 (h : n < 2 ^ 32) (rest : List UInt8) :
    Ends (count (putU32 n ++ rest)) fun x => x = (n, rest) := by
  rw [count, u32_putU32 h, ok_bind]
  exact ends_unless fun _ => ends_pure rfl

theorem string_putStr (h : (utf8 s).length < 2 ^ 32) (m : ℕ) (rest : List UInt8) :
    Ends (string (putStr s ++ rest) m) fun x => x = (s, rest) := by
  rw [string, putStr, append_assoc, u32_putU32 h, ok_bind]
  refine ends_unless fun _ => ?_
  rw [take_append rfl, ok_bind]
  simp only [fromUtf8_utf8]
  exact ends_unless fun _ => ends_pure rfl

theorem keyName_putStr (h : (utf8 s).length < 2 ^ 32) (rest : List UInt8) :
    Ends (keyName (putStr s ++ rest)) fun x => x = (s, rest) := by
  unfold keyName
  refine (string_putStr h _ rest).bind ?_
  rintro x rfl
  exact ends_unless fun _ => ends_pure rfl

theorem count_of_le (h : n < 2 ^ 32) {rest : List UInt8} (hle : n ≤ rest.length) :
    count (putU32 n ++ rest) = .ok (n, rest) := by
  rw [count, u32_putU32 h, ok_bind]
  dsimp only
  rw [if_neg (by omega)]
  rfl

theorem string_of_le {m : ℕ} (hm : m * 3 < 2 ^ 32) (hunits : utf16Len s ≤ m) (rest : List UInt8) :
    string (putStr s ++ rest) m = .ok (s, rest) := by
  have hbytes : (utf8 s).length ≤ m * 3 :=
    (length_utf8_le s).trans (Nat.mul_le_mul_right 3 hunits)
  rw [string, putStr, append_assoc, u32_putU32 (hbytes.trans_lt hm), ok_bind]
  dsimp only
  rw [if_neg (by omega), take_append rfl, ok_bind]
  simp only [fromUtf8_utf8]
  rw [if_neg (by omega)]
  rfl

theorem keyName_of_le (hunits : utf16Len s ≤ maxKeyName) (hne : s ≠ []) (hsep : '\\' ∉ s)
    (rest : List UInt8) : keyName (putStr s ++ rest) = .ok (s, rest) := by
  rw [keyName, string_of_le (by norm_num [maxKeyName]) hunits, ok_bind]
  simp [hne, hsep]
  rfl

end Reader

variable [ToLowercase]

theorem decodeValues_putValue {vs : List Value}
    (hfits : ∀ v ∈ vs, (utf8 v.name).length < 2 ^ 32 ∧ v.data.length < 2 ^ 32)
    (rest : List UInt8) (seen : List Str) (acc : List Value) :
    Ends (decodeValues vs.length (vs.flatMap putValue ++ rest) seen acc)
      fun x => x.1 = acc ++ vs ∧ x.2.2 = rest := by
  induction vs generalizing seen acc with
  | nil => exact ends_ok ⟨by simp, rfl⟩
  | cons v vs ih =>
    obtain ⟨hname, hdata⟩ := hfits v mem_cons_self
    rw [length_cons, decodeValues, flatMap_cons, putValue]
    simp only [append_assoc]
    refine (string_putStr hname _ _).bind ?_
    rintro x rfl
    dsimp only
    rw [u32_ty, ok_bind, u32_putU32 hdata, ok_bind]
    refine ends_unless fun _ => ?_
    rw [take_append rfl, ok_bind]
    refine ends_unless fun _ => ?_
    refine (ih (fun v hv => hfits v (mem_cons_of_mem _ hv)) _ _).mono ?_
    rintro x ⟨hx, hr⟩
    refine ⟨?_, hr⟩
    rw [hx]
    simp

theorem decodeValues_of_le {vs : List Value}
    (hok : ∀ v ∈ vs, utf16Len v.name ≤ maxValueName ∧ v.data.length ≤ maxData)
    {seen : List Str} (hnodup : (vs.map fun v => fold v.name).Nodup)
    (hseen : ∀ v ∈ vs, fold v.name ∉ seen) (rest : List UInt8) (acc : List Value) :
    decodeValues vs.length (vs.flatMap putValue ++ rest) seen acc =
      .ok (acc ++ vs, (vs.map fun v => fold v.name).reverse ++ seen, rest) := by
  induction vs generalizing seen acc with
  | nil => simp [decodeValues]
  | cons v vs ih =>
    obtain ⟨hunits, hdata⟩ := hok v mem_cons_self
    rw [map_cons, nodup_cons] at hnodup
    have hseen' : ∀ w ∈ vs, fold w.name ∉ fold v.name :: seen := by
      intro w hw hmem
      rcases mem_cons.mp hmem with heq | hmem
      · exact hnodup.1 (heq ▸ mem_map_of_mem (f := fun v : Value => fold v.name) hw)
      · exact hseen w (mem_cons_of_mem _ hw) hmem
    have hrec := ih (fun v hv => hok v (mem_cons_of_mem _ hv)) hnodup.2 hseen' (acc ++ [v])
    rw [length_cons, decodeValues, flatMap_cons, putValue]
    simp only [append_assoc]
    have hlt : v.data.length < 2 ^ 32 := hdata.trans_lt (by norm_num [maxData])
    rw [string_of_le (by norm_num [maxValueName]) hunits, ok_bind]
    dsimp only
    rw [u32_ty, ok_bind]
    dsimp only
    rw [u32_putU32 hlt, ok_bind]
    dsimp only
    rw [if_neg (by omega), take_append rfl, ok_bind]
    dsimp only
    rw [if_neg (hseen v mem_cons_self), UInt32.ofNat_toNat, hrec]
    simp

theorem decodeValueTombstones_putStr {ts : List Str}
    (hfits : ∀ t ∈ ts, (utf8 t).length < 2 ^ 32) (rest : List UInt8) (seen acc : List Str) :
    Ends (decodeValueTombstones ts.length (ts.flatMap putStr ++ rest) seen acc)
      fun x => x = (acc ++ ts, rest) := by
  induction ts generalizing seen acc with
  | nil => exact ends_ok (by simp)
  | cons t ts ih =>
    rw [length_cons, decodeValueTombstones, flatMap_cons, append_assoc]
    refine (string_putStr (hfits t mem_cons_self) _ _).bind ?_
    rintro x rfl
    refine ends_unless fun _ => ends_unless fun _ => ?_
    have hrec := ih (fun t ht => hfits t (mem_cons_of_mem _ ht)) (t :: seen) (acc ++ [t])
    simpa using hrec

/-- The child list after a loop over names, in the state `st`. -/
def listed (children : Table Str (Str × Child)) (names : List Str) (st : Child) :
    Table Str (Str × Child) :=
  Table.insertAll children (names.map fun name => (fold name, (name, st)))

theorem decodeChildTombstones_putStr {ts : List Str}
    (hfits : ∀ t ∈ ts, (utf8 t).length < 2 ^ 32) (rest : List UInt8)
    (children : Table Str (Str × Child)) :
    Ends (decodeChildTombstones ts.length (ts.flatMap putStr ++ rest) children)
      fun x => x = (listed children ts .tombstone, rest) := by
  induction ts generalizing children with
  | nil => exact ends_ok rfl
  | cons t ts ih =>
    rw [length_cons, decodeChildTombstones, flatMap_cons, append_assoc]
    refine (keyName_putStr (hfits t mem_cons_self) _).bind ?_
    rintro x rfl
    refine ends_unless fun _ => ?_
    exact ih (fun t ht => hfits t (mem_cons_of_mem _ ht)) _

variable {path : Path} {o : Overlay}

theorem decodeKids_put {decodeChild : Reader → Path → Except FormatError (List (Path × Node) × Reader)}
    {kids : List (Str × Node)} {body : Str × Node → List UInt8}
    {nodes : Str × Node → List (Path × Node)}
    (hfits : ∀ k ∈ kids, (utf8 k.1).length < 2 ^ 32)
    (hchild : ∀ k ∈ kids, ∀ rest,
      Ends (decodeChild (body k ++ rest) (path ++ [k.1])) fun x => x = (nodes k, rest))
    (rest : List UInt8) (children : Table Str (Str × Child)) (out : List (Path × Node)) :
    Ends (decodeKids decodeChild path kids.length
        (kids.flatMap (fun k => putStr k.1 ++ body k) ++ rest) children out)
      fun x => x = (listed children (kids.map Prod.fst) .present, out ++ kids.flatMap nodes,
        rest) := by
  induction kids generalizing children out with
  | nil => exact ends_ok (by simp [listed, Table.insertAll])
  | cons k kids ih =>
    rw [length_cons, decodeKids, flatMap_cons, append_assoc, append_assoc]
    refine (keyName_putStr (hfits k mem_cons_self) _).bind ?_
    rintro x rfl
    refine ends_unless fun _ => ?_
    refine (hchild k mem_cons_self _).bind ?_
    rintro x rfl
    have hrec := ih (fun k hk => hfits k (mem_cons_of_mem _ hk))
      (fun k hk => hchild k (mem_cons_of_mem _ hk))
      (children.insert (fold k.1) (k.1, .present)) (out ++ nodes k)
    simpa [listed, Table.insertAll] using hrec

/-- The node `decode` makes of what `encode_node` writes. -/
def savedNode (o : Overlay) (path : Path) (node : Node) : Node where
  values := node.values
  valueTombstones := node.valueTombstones
  children := listed (listed ∅ (tombstonedChildren node) .tombstone)
    ((savedChildren o path node).map Prod.fst) .present
  created := node.created
  volatile := false
  lastWrite := node.lastWrite

/-- The nodes `encode_node` goes through, each with its path, parents before children. -/
def saved (o : Overlay) : ℕ → Path → Node → List (Path × Node)
  | 0, _, _ => []
  | fuel + 1, path, node =>
    (path, savedNode o path node) ::
      (savedChildren o path node).flatMap fun k => saved o fuel (path ++ [k.1]) k.2

/-- Every length and count of the node fits the 32 bits it is written in. -/
def NodeFits (node : Node) : Prop :=
  (node.values.length < 2 ^ 32 ∧ node.valueTombstones.length < 2 ^ 32 ∧
      node.children.entries.length < 2 ^ 32) ∧
    (∀ v ∈ node.values, (utf8 v.name).length < 2 ^ 32 ∧ v.data.length < 2 ^ 32) ∧
    (∀ t ∈ node.valueTombstones, (utf8 t).length < 2 ^ 32) ∧
    ∀ c ∈ node.children.entries, (utf8 c.2.1).length < 2 ^ 32

/-- Every length and count `encode` writes fits the 32 bits it is written in. -/
def Fits (o : Overlay) : Prop :=
  ∀ r ∈ o.entries.entries, NodeFits r.2.node ∧ (utf8 (leaf r.2.path)).length < 2 ^ 32

instance (node : Node) : Decidable (NodeFits node) :=
  inferInstanceAs (Decidable ((_ ∧ _ ∧ _) ∧ (∀ v ∈ node.values, _ ∧ _) ∧
    (∀ t ∈ node.valueTombstones, _) ∧ ∀ c ∈ node.children.entries, _))

instance (o : Overlay) : Decidable (Fits o) :=
  inferInstanceAs (Decidable (∀ r ∈ o.entries.entries, NodeFits r.2.node ∧ _))

omit [ToLowercase] in
theorem mem_sortedChildren {node : Node} {x : Str × Child} :
    x ∈ sortedChildren node ↔ ∃ c, node.children.lookup c = some x := by
  have hperm := perm_insertionSort
    (fun a b : (_ : Str) × Str × Child => a.1 ≤ b.1) node.children.entries
  simp only [sortedChildren, mem_map, hperm.mem_iff]
  constructor
  · rintro ⟨⟨c, y⟩, hmem, rfl⟩
    exact ⟨c, AList.mem_lookup_iff.mpr hmem⟩
  · rintro ⟨c, hc⟩
    exact ⟨⟨c, x⟩, AList.mem_lookup_iff.mp hc, rfl⟩

omit [ToLowercase] in
theorem mem_tombstonedChildren {node : Node} {t : Str} :
    t ∈ tombstonedChildren node ↔ ∃ c, node.children.lookup c = some (t, .tombstone) := by
  simp only [tombstonedChildren, mem_filterMap, mem_sortedChildren]
  constructor
  · rintro ⟨⟨name, st⟩, ⟨c, hc⟩, hif⟩
    split_ifs at hif with hst
    cases hif
    exact ⟨c, hst ▸ hc⟩
  · rintro ⟨c, hc⟩
    exact ⟨(t, .tombstone), ⟨c, hc⟩, by simp⟩

theorem mem_savedChildren {node : Node} {k : Str × Node} :
    k ∈ savedChildren o path node ↔ (∃ c, node.children.lookup c = some (k.1, .present)) ∧
      o.node (path ++ [k.1]) = some k.2 ∧ k.2.volatile = false := by
  simp only [savedChildren, mem_filterMap, mem_sortedChildren]
  constructor
  · rintro ⟨⟨name, st⟩, ⟨c, hc⟩, hif⟩
    split_ifs at hif with hst
    obtain ⟨n, hn, rfl⟩ := Option.map_eq_some_iff.mp hif
    obtain ⟨hn, hvol⟩ := Option.filter_eq_some_iff.mp hn
    exact ⟨⟨c, hst ▸ hc⟩, hn, by simpa using hvol⟩
  · rintro ⟨⟨c, hc⟩, hn, hvol⟩
    refine ⟨(k.1, .present), ⟨c, hc⟩, ?_⟩
    simp [hn, hvol]

omit [ToLowercase] in
theorem length_sortedChildren (node : Node) :
    (sortedChildren node).length = node.children.entries.length := by
  simp [sortedChildren]

omit [ToLowercase] in
theorem length_le_encodeFuel {k : Path} (h : k ∈ o.entries) :
    k.length ≤ encodeFuel o := by
  have hmem : k.length ∈ o.entries.keys.map length := mem_map_of_mem h
  unfold encodeFuel
  generalize o.entries.keys.map length = ls at hmem
  induction ls with
  | nil => simp at hmem
  | cons l ls ih =>
    rcases mem_cons.mp hmem with rfl | hmem
    · exact le_max_left _ _
    · exact (ih hmem).trans (le_max_right _ _)

theorem Fits.node (h : Fits o) {node : Node} (hnode : o.node path = some node) :
    NodeFits node ∧ foldPath path ∈ o.entries := by
  obtain ⟨e, he, rfl⟩ := Option.map_eq_some_iff.mp hnode
  have hmem : (⟨foldPath path, e⟩ : (_ : Path) × Entry) ∈ o.entries.entries :=
    AList.mem_lookup_iff.mp he
  exact ⟨(h _ hmem).1, Table.mem_of_lookup he⟩

theorem decodeNode_encodeBody (hfits : Fits o) (depth fuel : ℕ) {node : Node}
    (hnode : o.node path = some node) (hfuel : encodeFuel o < fuel + path.length)
    (rest : List UInt8) :
    Ends (decodeNode depth (encodeBody o fuel path node ++ rest) path)
      fun x => x = (saved o fuel path node, rest) := by
  induction fuel generalizing depth path node rest with
  | zero =>
    have hlen := length_le_encodeFuel (hfits.node hnode).2
    simp only [foldPath, length_map] at hlen
    omega
  | succ fuel ih =>
    obtain ⟨⟨hnv, hnt, hnc⟩, hvalues, htombs, hchildren⟩ := (hfits.node hnode).1
    have hnames : ∀ name st, (∃ c, node.children.lookup c = some (name, st)) →
        (utf8 name).length < 2 ^ 32 := by
      rintro name st ⟨c, hc⟩
      exact hchildren ⟨c, name, st⟩ (AList.mem_lookup_iff.mp hc)
    have hsorted := length_sortedChildren node
    have hnct : (tombstonedChildren node).length < 2 ^ 32 :=
      (length_filterMap_le _ _).trans_lt (hsorted ▸ hnc)
    have hnk : (savedChildren o path node).length < 2 ^ 32 :=
      (length_filterMap_le _ _).trans_lt (hsorted ▸ hnc)
    cases depth with
    | zero => exact ends_error _ _
    | succ depth =>
      rw [encodeBody, decodeNode]
      simp only [append_assoc, cons_append, nil_append, u8_cons, ok_bind]
      refine ends_unless fun _ => ?_
      rw [u64_bytes, ok_bind]
      refine (count_putU32 hnv _).bind ?_
      rintro x rfl
      refine (count_putU32 hnt _).bind ?_
      rintro x rfl
      refine (count_putU32 hnct _).bind ?_
      rintro x rfl
      refine (count_putU32 hnk _).bind ?_
      rintro x rfl
      refine (decodeValues_putValue hvalues _ [] []).bind ?_
      rintro ⟨values, seen, r⟩ ⟨hval, hr⟩
      dsimp only at hval hr
      subst hr
      refine (decodeValueTombstones_putStr htombs _ _ []).bind ?_
      rintro x rfl
      refine (decodeChildTombstones_putStr
        (fun t ht => hnames t _ (mem_tombstonedChildren.mp ht)) _ ∅).bind ?_
      rintro x rfl
      have hkids : ∀ k ∈ savedChildren o path node, ∀ rest,
          Ends (decodeNode depth (encodeBody o fuel (path ++ [k.1]) k.2 ++ rest)
            (path ++ [k.1])) fun x => x = (saved o fuel (path ++ [k.1]) k.2, rest) := by
        intro k hk rest
        refine ih depth (mem_savedChildren.mp hk).2.1 ?_ rest
        simp only [length_append, length_singleton]
        omega
      refine (decodeKids_put (fun k hk => hnames k.1 _ (mem_savedChildren.mp hk).1) hkids
        rest _ []).bind ?_
      rintro x rfl
      refine ends_pure ?_
      have hflag : decide ((if node.created = true then flagCreated else 0) = flagCreated) =
          node.created := by
        cases node.created <;> rfl
      simp only [saved, savedNode, hval, hflag, nil_append]

end AetherVfs.Registry.Format
