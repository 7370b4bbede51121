import AetherVfs.Registry.Names
import AetherVfs.Registry.Restore

/-!
# The trees a file describes

The syntax of a saved overlay: what is written of one key, and the keys below it. `decode_node`
accepts exactly the layouts of the trees that meet its checks, and returns their nodes.
-/

namespace AetherVfs.Registry.Format

open Outcome List Reader LittleEndian

theorem length_le_flatMap {α : Type} (xs : List α) (put : α → List UInt8)
    (h : ∀ x, 1 ≤ (put x).length) : xs.length ≤ (xs.flatMap put).length := by
  induction xs with
  | nil => simp
  | cons x xs ih =>
    have := h x
    rw [flatMap_cons, length_append, length_cons]
    omega

theorem one_le_length_putStr (s : Str) : 1 ≤ (putStr s).length := by
  rw [putStr, length_append, putU32, length_bytes]
  omega

/-- What a file says of one key, apart from its name and the keys below it. -/
structure Head where
  created : Bool
  lastWrite : UInt64
  values : List Value
  valueTombstones : List Str
  childTombstones : List Str

/-- Everything of a node up to its `kids` child nodes. -/
def Head.layout (head : Head) (kids : ℕ) : List UInt8 :=
  [if head.created then flagCreated else 0] ++ LittleEndian.bytes 8 head.lastWrite.toNat ++
    putU32 head.values.length ++ putU32 head.valueTombstones.length ++
    putU32 head.childTombstones.length ++ putU32 kids ++
    head.values.flatMap putValue ++ head.valueTombstones.flatMap putStr ++
    head.childTombstones.flatMap putStr

/-- Keys that a file lists side by side: the first one's name, what is written of it and the keys
below it, and then those after it. -/
inductive Forest where
  | nil
  | cons (name : Str) (head : Head) (below next : Forest)

namespace Forest

def names : Forest → List Str
  | nil => []
  | cons name _ _ next => name :: next.names

def layout : Forest → List UInt8
  | nil => []
  | cons name head below next =>
    putStr name ++ (head.layout below.names.length ++ below.layout) ++ next.layout

def single (name : Str) (head : Head) (below : Forest) : Forest := cons name head below nil

theorem length_names_le (f : Forest) : f.names.length ≤ f.layout.length := by
  induction f with
  | nil => exact le_rfl
  | cons name head below next _ ih =>
    have hname := one_le_length_putStr name
    simp only [names, layout, length_cons, length_append]
    omega

end Forest

/-- A name that `key_name` accepts. -/
def Accepts (name : Str) : Prop := utf16Len name ≤ maxKeyName ∧ IsName name

variable [ToLowercase]

/-- The node `decode_node` makes of a head and the names of the keys below. -/
def Head.node (head : Head) (kids : List Str) : Node where
  values := head.values
  valueTombstones := head.valueTombstones
  children := listed (listed ∅ head.childTombstones .tombstone) kids .present
  created := head.created
  volatile := false
  lastWrite := head.lastWrite

/-- What `decode_node` checks of a node with the child nodes `kids`. -/
structure Head.Ok (head : Head) (kids : List Str) : Prop where
  sized : ∀ v ∈ head.values, utf16Len v.name ≤ maxValueName ∧ v.data.length ≤ maxData
  values_unique : (head.values.map fun v => fold v.name).Nodup
  tombstones_sized : ∀ t ∈ head.valueTombstones, utf16Len t ≤ maxValueName
  tombstones_folded : ∀ t ∈ head.valueTombstones, fold t = t
  tombstones_unique : head.valueTombstones.Nodup
  values_disjoint : ∀ t ∈ head.valueTombstones, t ∉ head.values.map fun v => fold v.name
  children_accepted : ∀ t ∈ head.childTombstones, Accepts t
  children_unique : ((head.childTombstones ++ kids).map fold).Nodup
  valueCount : head.values.length < 2 ^ 32
  tombstoneCount : head.valueTombstones.length < 2 ^ 32
  childTombstoneCount : head.childTombstones.length < 2 ^ 32
  kidCount : kids.length < 2 ^ 32

variable {depth : ℕ} {children : Table Str (Str × Child)}

namespace Forest

def nodes : Forest → Path → List (Path × Node)
  | nil, _ => []
  | cons name head below next, path =>
    (path ++ [name], head.node below.names) ::
      (below.nodes (path ++ [name]) ++ next.nodes path)

/-- Every key meets the checks, and they are nested at most `depth` deep. -/
def Ok : Forest → ℕ → Prop
  | nil, _ => True
  | cons _ _ _ _, 0 => False
  | cons name head below next, depth + 1 =>
    Accepts name ∧ head.Ok below.names ∧ below.Ok depth ∧ next.Ok (depth + 1)

theorem ok_cons {name : Str} {head : Head} {below next : Forest} :
    (cons name head below next).Ok depth ↔ (single name head below).Ok depth ∧ next.Ok depth := by
  cases depth with
  | zero => simp [Ok, single]
  | succ depth => simp [Ok, single, and_assoc]

theorem nodes_cons (name : Str) (head : Head) (below next : Forest) (path : Path) :
    (cons name head below next).nodes path =
      (single name head below).nodes path ++ next.nodes path := by
  simp [nodes, single]

end Forest

/-! ## Reading what is laid out -/

theorem decodeValueTombstones_of_le {ts : List Str} (hunits : ∀ t ∈ ts, utf16Len t ≤ maxValueName)
    (hfold : ∀ t ∈ ts, fold t = t) (hnodup : ts.Nodup) {seen : List Str}
    (hseen : ∀ t ∈ ts, t ∉ seen) (rest : List UInt8) (acc : List Str) :
    decodeValueTombstones ts.length (ts.flatMap putStr ++ rest) seen acc =
      .ok (acc ++ ts, rest) := by
  induction ts generalizing seen acc with
  | nil => simp [decodeValueTombstones]
  | cons t ts ih =>
    rw [nodup_cons] at hnodup
    have hseen' : ∀ u ∈ ts, u ∉ t :: seen := by
      intro u hu hmem
      rcases mem_cons.mp hmem with rfl | hmem
      · exact hnodup.1 hu
      · exact hseen u (mem_cons_of_mem _ hu) hmem
    have hrec := ih (fun u hu => hunits u (mem_cons_of_mem _ hu))
      (fun u hu => hfold u (mem_cons_of_mem _ hu)) hnodup.2 hseen' (acc ++ [t])
    rw [length_cons, decodeValueTombstones, flatMap_cons, append_assoc,
      string_of_le (by norm_num [maxValueName]) (hunits t mem_cons_self), ok_bind]
    dsimp only
    rw [if_neg (not_not.mpr (hfold t mem_cons_self)),
      if_neg (hseen t mem_cons_self), hrec]
    simp

theorem decodeChildTombstones_of_le {ts : List Str}
    (hname : ∀ t ∈ ts, utf16Len t ≤ maxKeyName ∧ IsName t) (hnodup : (ts.map fold).Nodup)
    (hfree : ∀ t ∈ ts, fold t ∉ children) (rest : List UInt8) :
    decodeChildTombstones ts.length (ts.flatMap putStr ++ rest) children =
      .ok (listed children ts .tombstone, rest) := by
  induction ts generalizing children with
  | nil => rfl
  | cons t ts ih =>
    rw [map_cons, nodup_cons] at hnodup
    obtain ⟨hunits, hne, hsep⟩ := hname t mem_cons_self
    have hfree' : ∀ u ∈ ts, fold u ∉ children.insert (fold t) (t, Child.tombstone) := by
      intro u hu hmem
      rw [AList.mem_insert] at hmem
      rcases hmem with heq | hmem
      · exact hnodup.1 (heq ▸ mem_map_of_mem hu)
      · exact hfree u (mem_cons_of_mem _ hu) hmem
    rw [length_cons, decodeChildTombstones, flatMap_cons, append_assoc,
      keyName_of_le hunits hne hsep, ok_bind]
    dsimp only
    rw [if_neg (hfree t mem_cons_self)]
    exact ih (fun u hu => hname u (mem_cons_of_mem _ hu)) hnodup.2 hfree'

theorem mem_listed {names : List Str} {st : Child} {c : Str} :
    c ∈ listed children names st ↔ c ∈ children ∨ c ∈ names.map fold := by
  induction names generalizing children with
  | nil => simp [listed, Table.insertAll]
  | cons name names ih =>
    have hstep : listed children (name :: names) st =
        listed (children.insert (fold name) (name, st)) names st := rfl
    rw [hstep, ih, AList.mem_insert, map_cons, mem_cons]
    tauto

omit [ToLowercase] in
theorem flags_accepted (created : Bool) : ¬ ((if created = true then flagCreated else 0) ≠ 0 ∧
    (if created = true then flagCreated else 0) ≠ flagCreated) := by
  cases created <;> simp

omit [ToLowercase] in
theorem decide_flags (created : Bool) :
    decide ((if created = true then flagCreated else 0) = flagCreated) = created := by
  cases created <;> rfl

omit [ToLowercase] in
theorem flags_of_known {flags : UInt8} (h : ¬ (flags ≠ 0 ∧ flags ≠ flagCreated)) :
    (if decide (flags = flagCreated) = true then flagCreated else 0) = flags := by
  by_cases hset : flags = flagCreated
  · rw [if_pos (decide_eq_true hset), hset]
  · rw [if_neg (by simpa using hset)]
    by_contra hne
    exact h ⟨fun hzero => hne hzero.symm, hset⟩

theorem decodeNode_layout {head : Head} {kids : List Str} (hok : head.Ok kids) (depth : ℕ)
    (path : Path) {rest : List UInt8} (hrest : kids.length ≤ rest.length) :
    decodeNode (depth + 1) (head.layout kids.length ++ rest) path = (do
      let (children, below, r) ← decodeKids (decodeNode depth) path kids.length rest
        (listed ∅ head.childTombstones .tombstone) []
      return ((path, { head.node kids with children }) :: below, r)) := by
  have hvaluesLen : head.values.length ≤ (head.values.flatMap putValue).length :=
    length_le_flatMap _ putValue fun v => by
      rw [putValue, append_assoc, append_assoc, length_append]
      exact (one_le_length_putStr v.name).trans (Nat.le_add_right _ _)
  have htombsLen := length_le_flatMap head.valueTombstones putStr one_le_length_putStr
  have hdeadLen := length_le_flatMap head.childTombstones putStr one_le_length_putStr
  have hseen : ∀ t ∈ head.valueTombstones,
      t ∉ (head.values.map fun v => fold v.name).reverse ++ [] := by
    intro t ht hmem
    rw [append_nil, mem_reverse] at hmem
    exact hok.values_disjoint t ht hmem
  have hdead : (head.childTombstones.map fold).Nodup := by
    have hunique := hok.children_unique
    rw [map_append] at hunique
    exact hunique.of_append_left
  rw [Head.layout, decodeNode]
  simp only [append_assoc, cons_append, nil_append, u8_cons, ok_bind]
  rw [if_neg (flags_accepted _), u64_bytes, ok_bind]
  dsimp only
  rw [count_of_le hok.valueCount (by simp only [length_append]; omega), ok_bind]
  dsimp only
  rw [count_of_le hok.tombstoneCount (by simp only [length_append]; omega), ok_bind]
  dsimp only
  rw [count_of_le hok.childTombstoneCount (by simp only [length_append]; omega),
    ok_bind]
  dsimp only
  rw [count_of_le hok.kidCount (by simp only [length_append]; omega), ok_bind]
  dsimp only
  rw [decodeValues_of_le hok.sized hok.values_unique (fun v _ => not_mem_nil), ok_bind]
  dsimp only
  rw [decodeValueTombstones_of_le hok.tombstones_sized hok.tombstones_folded
    hok.tombstones_unique hseen, ok_bind]
  dsimp only
  rw [decodeChildTombstones_of_le hok.children_accepted hdead (fun _ _ => AList.notMem_empty _),
    ok_bind]
  simp only [Head.node, decide_flags, nil_append]

theorem decodeKids_layout {path : Path} (f : Forest) (hok : f.Ok depth)
    (hsingle : ∀ name head below, (Forest.single name head below).Ok depth → ∀ rest,
      decodeNode depth (head.layout below.names.length ++ below.layout ++ rest) (path ++ [name]) =
        .ok ((Forest.single name head below).nodes path, rest)) (hnodup : (f.names.map fold).Nodup)
    (hfree : ∀ name ∈ f.names, fold name ∉ children) (out : List (Path × Node))
    (rest : List UInt8) :
    decodeKids (decodeNode depth) path f.names.length (f.layout ++ rest) children out =
      .ok (listed children f.names .present, out ++ f.nodes path, rest) := by
  induction f generalizing children out with
  | nil => simp [Forest.names, Forest.layout, Forest.nodes, decodeKids, listed, Table.insertAll]
  | cons name head below next _ ih =>
    obtain ⟨hfirst, hnext⟩ := Forest.ok_cons.mp hok
    have haccepts : Accepts name := by
      cases depth with
      | zero => exact hok.elim
      | succ depth => exact hok.1
    rw [Forest.names, map_cons, nodup_cons] at hnodup
    have hfree' : ∀ other ∈ next.names,
        fold other ∉ children.insert (fold name) (name, Child.present) := by
      intro other hother hmem
      rcases (AList.mem_insert _).mp hmem with heq | hmem
      · exact hnodup.1 (heq ▸ mem_map_of_mem hother)
      · exact hfree other (mem_cons_of_mem _ hother) hmem
    have hrec := ih hnext hnodup.2 hfree' (out ++ (Forest.single name head below).nodes path)
    rw [Forest.names, length_cons, decodeKids, Forest.layout]
    simp only [append_assoc]
    rw [keyName_of_le haccepts.1 haccepts.2.1 haccepts.2.2, ok_bind]
    dsimp only
    rw [if_neg (hfree name mem_cons_self), ← append_assoc, hsingle name head below hfirst,
      ok_bind]
    dsimp only
    rw [hrec, append_assoc, ← Forest.nodes_cons]
    rfl

theorem decodeNode_of_ok (depth : ℕ) (path : Path) (name : Str) (head : Head) (below : Forest)
    (hok : (Forest.single name head below).Ok depth) (rest : List UInt8) :
    decodeNode depth (head.layout below.names.length ++ below.layout ++ rest) (path ++ [name]) =
      .ok ((Forest.single name head below).nodes path, rest) := by
  induction depth generalizing path name head below rest with
  | zero => exact hok.elim
  | succ depth ih =>
    obtain ⟨-, hhead, hbelow, -⟩ := hok
    have hunique := hhead.children_unique
    rw [map_append, nodup_append] at hunique
    have hfree : ∀ kid ∈ below.names, fold kid ∉ listed ∅ head.childTombstones .tombstone := by
      intro kid hkid hmem
      rcases mem_listed.mp hmem with hmem | hmem
      · exact AList.notMem_empty _ hmem
      · exact hunique.2.2 _ hmem _ (mem_map_of_mem hkid) rfl
    have hlen : below.names.length ≤ (below.layout ++ rest).length := by
      rw [length_append]
      exact below.length_names_le.trans (Nat.le_add_right _ _)
    rw [append_assoc, decodeNode_layout hhead depth _ hlen,
      decodeKids_layout below hbelow (fun n h b hb r => ih _ n h b hb r) hunique.2.1 hfree,
      ok_bind]
    simp [Forest.single, Forest.nodes, Head.node]
    rfl

/-! ## What is read was laid out -/

namespace Reader

omit [ToLowercase]

theorem splits_take (r : Reader) (n : ℕ) :
    Ends (r.take n) fun x => x.1.length = n ∧ r = x.1 ++ x.2 := by
  unfold take
  split_ifs with hlt
  · exact ends_error _ _
  · refine ends_ok ⟨?_, ?_⟩
    · rw [splitAt_eq, length_take]
      omega
    · rw [splitAt_eq]
      exact (take_append_drop n r).symm

theorem splits_u8 (r : Reader) : Ends r.u8 fun x => r = x.1 :: x.2 := by
  cases r with
  | nil => exact ends_error _ _
  | cons b r => exact ends_ok rfl

theorem splits_u32 (r : Reader) : Ends r.u32 fun x => x.1 < 2 ^ 32 ∧ r = putU32 x.1 ++ x.2 := by
  refine (splits_take r 4).bind fun x hx => ends_pure ⟨?_, ?_⟩
  · exact (value_lt x.1).trans_le (by rw [hx.1]; norm_num)
  · rw [putU32, bytes_value hx.1]
    exact hx.2

theorem splits_u64 (r : Reader) :
    Ends r.u64 fun x => r = LittleEndian.bytes 8 x.1.toNat ++ x.2 := by
  refine (splits_take r 8).bind fun x hx => ends_pure ?_
  have hlt : value x.1 < 2 ^ 64 :=
    (value_lt x.1).trans_le (by rw [hx.1]; norm_num)
  dsimp only
  rw [UInt64.toNat_ofNat_of_lt' hlt, bytes_value hx.1]
  exact hx.2

theorem splits_count (r : Reader) :
    Ends r.count fun x => x.1 < 2 ^ 32 ∧ r = putU32 x.1 ++ x.2 :=
  (splits_u32 r).bind fun _ hx => ends_unless fun _ => ends_pure hx

theorem splits_string (r : Reader) (m : ℕ) :
    Ends (r.string m) fun x => utf16Len x.1 ≤ m ∧ r = putStr x.1 ++ x.2 := by
  unfold string
  refine (splits_u32 r).bind fun x hx => ends_unless fun _ => ?_
  refine (splits_take x.2 x.1).bind fun y hy => ?_
  dsimp only
  split
  · next s hs =>
      refine ends_unless fun hle => ends_pure ⟨not_lt.mp hle, ?_⟩
      rw [putStr, utf8_of_fromUtf8 hs, hy.1, append_assoc, ← hy.2]
      exact hx.2
  · exact ends_throw _ _

theorem splits_keyName (r : Reader) :
    Ends r.keyName fun x => Accepts x.1 ∧ r = putStr x.1 ++ x.2 := by
  refine (splits_string r maxKeyName).bind fun x hx => ends_unless fun hno => ends_pure ?_
  rw [not_or] at hno
  exact ⟨⟨hx.1, hno.1, hno.2⟩, hx.2⟩

end Reader

theorem splits_decodeValues (n : ℕ) (r : Reader) (seen : List Str) (acc : List Value) :
    Ends (decodeValues n r seen acc) fun x => ∃ vs : List Value, vs.length = n ∧
      x = (acc ++ vs, (vs.map fun v => fold v.name).reverse ++ seen, x.2.2) ∧
      r = vs.flatMap putValue ++ x.2.2 ∧
      (∀ v ∈ vs, utf16Len v.name ≤ maxValueName ∧ v.data.length ≤ maxData) ∧
      (vs.map fun v => fold v.name).Nodup ∧ ∀ v ∈ vs, fold v.name ∉ seen := by
  induction n generalizing r seen acc with
  | zero => exact ends_ok ⟨[], by simp⟩
  | succ n ih =>
    rw [decodeValues]
    refine (splits_string r _).bind fun name hname => ?_
    refine (splits_u32 name.2).bind fun ty hty => ?_
    refine (splits_u32 ty.2).bind fun len hlen => ends_unless fun hmax => ?_
    refine (splits_take len.2 len.1).bind fun data hdata => ends_unless fun hnew => ?_
    refine (ih _ _ _).mono ?_
    rintro x ⟨vs, hcount, hx, hr, hsized, hnodup, hseen⟩
    have htoNat : (UInt32.ofNat ty.1).toNat = ty.1 := UInt32.toNat_ofNat_of_lt' hty.1
    refine ⟨⟨name.1, UInt32.ofNat ty.1, data.1⟩ :: vs, ?_, ?_, ?_, ?_, ?_, ?_⟩
    · rw [length_cons, hcount]
    · rw [hx]
      simp
    · rw [flatMap_cons, putValue, htoNat, hdata.1, hname.2, hty.2, hlen.2, hdata.2, hr]
      simp [putU32]
    · intro v hv
      rcases mem_cons.mp hv with rfl | hv
      · refine ⟨hname.1, ?_⟩
        rw [hdata.1]
        exact not_lt.mp hmax
      · exact hsized v hv
    · rw [map_cons, nodup_cons]
      refine ⟨fun hmem => ?_, hnodup⟩
      obtain ⟨v, hv, heq⟩ := mem_map.mp hmem
      exact hseen v hv (heq ▸ mem_cons_self)
    · intro v hv
      rcases mem_cons.mp hv with rfl | hv
      · exact hnew
      · exact fun hmem => hseen v hv (mem_cons_of_mem _ hmem)

theorem splits_decodeValueTombstones (n : ℕ) (r : Reader) (seen acc : List Str) :
    Ends (decodeValueTombstones n r seen acc) fun x => ∃ ts : List Str, ts.length = n ∧
      x.1 = acc ++ ts ∧ r = ts.flatMap putStr ++ x.2 ∧
      (∀ t ∈ ts, utf16Len t ≤ maxValueName ∧ fold t = t ∧ t ∉ seen) ∧ ts.Nodup := by
  induction n generalizing r seen acc with
  | zero => exact ends_ok ⟨[], by simp⟩
  | succ n ih =>
    rw [decodeValueTombstones]
    refine (splits_string r _).bind fun name hname => ?_
    refine ends_unless fun hfold => ends_unless fun hnew => (ih _ _ _).mono ?_
    rintro x ⟨ts, hcount, hx, hr, hts, hnodup⟩
    refine ⟨name.1 :: ts, ?_, ?_, ?_, ?_, ?_⟩
    · rw [length_cons, hcount]
    · rw [hx, append_assoc]
      rfl
    · rw [flatMap_cons, append_assoc, ← hr]
      exact hname.2
    · intro t ht
      rcases mem_cons.mp ht with rfl | ht
      · exact ⟨hname.1, not_not.mp hfold, hnew⟩
      · obtain ⟨hunits, hfold, hseen⟩ := hts t ht
        exact ⟨hunits, hfold, fun hmem => hseen (mem_cons_of_mem _ hmem)⟩
    · rw [nodup_cons]
      exact ⟨fun hmem => (hts _ hmem).2.2 mem_cons_self, hnodup⟩

theorem splits_decodeChildTombstones (n : ℕ) (r : Reader) (children : Table Str (Str × Child)) :
    Ends (decodeChildTombstones n r children) fun x => ∃ ts : List Str, ts.length = n ∧
      x.1 = listed children ts .tombstone ∧ r = ts.flatMap putStr ++ x.2 ∧
      (∀ t ∈ ts, Accepts t ∧ fold t ∉ children) ∧ (ts.map fold).Nodup := by
  induction n generalizing r children with
  | zero => exact ends_ok ⟨[], rfl, rfl, rfl, by simp, nodup_nil⟩
  | succ n ih =>
    rw [decodeChildTombstones]
    refine (splits_keyName r).bind fun name hname => ends_unless fun hnew => ?_
    refine (ih _ _).mono ?_
    rintro x ⟨ts, hcount, hx, hr, hts, hnodup⟩
    have hfree : ∀ t ∈ ts, fold t ≠ fold name.1 ∧ fold t ∉ children := by
      intro t ht
      have hnot := (hts t ht).2
      rw [AList.mem_insert, not_or] at hnot
      exact hnot
    refine ⟨name.1 :: ts, ?_, hx, ?_, ?_, ?_⟩
    · rw [length_cons, hcount]
    · rw [flatMap_cons, append_assoc, ← hr]
      exact hname.2
    · intro t ht
      rcases mem_cons.mp ht with rfl | ht
      · exact ⟨hname.1, hnew⟩
      · exact ⟨(hts t ht).1, (hfree t ht).2⟩
    · rw [map_cons, nodup_cons]
      refine ⟨fun hmem => ?_, hnodup⟩
      obtain ⟨t, ht, heq⟩ := mem_map.mp hmem
      exact (hfree t ht).1 heq

theorem splits_decodeKids {path : Path}
    (hsingle : ∀ r name, Accepts name → Ends (decodeNode depth r (path ++ [name])) fun x =>
      ∃ head below, x.1 = (Forest.single name head below).nodes path ∧
        r = head.layout below.names.length ++ below.layout ++ x.2 ∧
        (Forest.single name head below).Ok depth) (n : ℕ) (r : Reader)
    (children : Table Str (Str × Child)) (out : List (Path × Node)) :
    Ends (decodeKids (decodeNode depth) path n r children out) fun x => ∃ f : Forest,
      f.names.length = n ∧ x = (listed children f.names .present, out ++ f.nodes path, x.2.2) ∧
      r = f.layout ++ x.2.2 ∧ f.Ok depth ∧ (f.names.map fold).Nodup ∧
      ∀ name ∈ f.names, fold name ∉ children := by
  induction n generalizing r children out with
  | zero => exact ends_ok ⟨.nil, rfl, by simp [Forest.names, Forest.nodes, listed, Table.insertAll],
      rfl, trivial, nodup_nil, by simp [Forest.names]⟩
  | succ n ih =>
    rw [decodeKids]
    refine (splits_keyName r).bind fun name hname => ends_unless fun hnew => ?_
    refine (hsingle name.2 name.1 hname.1).bind ?_
    rintro y ⟨head, below, hy, hyr, hfirst⟩
    refine (ih _ _ _).mono ?_
    rintro x ⟨f, hcount, hx, hr, hok, hnodup, hfree⟩
    have hother : ∀ other ∈ f.names, fold other ≠ fold name.1 ∧ fold other ∉ children := by
      intro other hmem
      have hnot := hfree other hmem
      rw [AList.mem_insert, not_or] at hnot
      exact hnot
    refine ⟨.cons name.1 head below f, ?_, ?_, ?_, ?_, ?_, ?_⟩
    · rw [Forest.names, length_cons, hcount]
    · rw [hx, hy, Forest.nodes_cons, append_assoc]
      rfl
    · rw [Forest.layout, hname.2, hyr, hr]
      simp only [append_assoc]
    · exact Forest.ok_cons.mpr ⟨hfirst, hok⟩
    · rw [Forest.names, map_cons, nodup_cons]
      refine ⟨fun hmem => ?_, hnodup⟩
      obtain ⟨other, hmem, heq⟩ := mem_map.mp hmem
      exact (hother other hmem).1 heq
    · intro other hmem
      rcases mem_cons.mp hmem with rfl | hmem
      · exact hnew
      · exact (hother other hmem).2

/-- What `decode_node` returns is the nodes of a tree that meets its checks, and what it read is
the tree's layout. -/
theorem splits_decodeNode (depth : ℕ) (r : Reader) (path : Path) (name : Str)
    (hname : Accepts name) :
    Ends (decodeNode depth r (path ++ [name])) fun x => ∃ head below,
      x.1 = (Forest.single name head below).nodes path ∧
      r = head.layout below.names.length ++ below.layout ++ x.2 ∧
      (Forest.single name head below).Ok depth := by
  induction depth generalizing r path name with
  | zero => exact ends_error _ _
  | succ depth ih =>
    rw [decodeNode]
    refine (splits_u8 r).bind fun flags hflags => ends_unless fun hknown => ?_
    refine (splits_u64 _).bind fun lastWrite hlast => ?_
    refine (splits_count _).bind fun nv hnv => ?_
    refine (splits_count _).bind fun nt hnt => ?_
    refine (splits_count _).bind fun nct hnct => ?_
    refine (splits_count _).bind fun nc hnc => ?_
    refine (splits_decodeValues _ _ _ _).bind ?_
    rintro ⟨values, seen, r₁⟩ ⟨vs, hvs, hv, hvr, hsized, hvnodup, -⟩
    rw [append_nil, nil_append] at hv
    obtain ⟨hvalues, hv⟩ := Prod.mk.inj hv
    obtain ⟨hseen, -⟩ := Prod.mk.inj hv
    refine (splits_decodeValueTombstones _ _ _ _).bind ?_
    rintro ⟨tombs, r₂⟩ ⟨ts, hts, htombs, htr, htok, htnodup⟩
    refine (splits_decodeChildTombstones _ _ _).bind ?_
    rintro ⟨dead, r₃⟩ ⟨ds, hds, hdead, hdr, hdok, hdnodup⟩
    refine (splits_decodeKids (fun r kid hkid => ih r (path ++ [name]) kid hkid)
      _ _ _ _).bind ?_
    rintro ⟨children, below, r₄⟩ ⟨f, hf, hkids, hkr, hfok, hfnodup, hffree⟩
    obtain ⟨hchildren, hkids⟩ := Prod.mk.inj hkids
    obtain ⟨hbelow, -⟩ := Prod.mk.inj hkids
    dsimp only at hvr htombs htr hdead hdr hchildren hbelow hkr
    subst hvalues hseen htombs hdead hchildren hbelow
    have hunique : ((ds ++ f.names).map fold).Nodup := by
      rw [map_append, nodup_append]
      refine ⟨hdnodup, hfnodup, ?_⟩
      intro c hc d hd heq
      obtain ⟨kid, hkid, rfl⟩ := mem_map.mp hd
      exact hffree kid hkid (mem_listed.mpr (Or.inr (heq ▸ hc)))
    have hdisjoint : ∀ t ∈ tombs, t ∉ values.map fun v => fold v.name := by
      intro t ht hmem
      exact (htok t ht).2.2 (mem_reverse.mpr hmem)
    refine ends_pure ⟨⟨decide (flags.1 = flagCreated), lastWrite.1, values, tombs, ds⟩, f, ?_, ?_, ?_⟩
    · simp [Forest.single, Forest.nodes, Head.node]
    · rw [Head.layout]
      dsimp only
      rw [flags_of_known hknown, hvs, hts, hds, hf, hflags, hlast, hnv.2, hnt.2, hnct.2, hnc.2, hvr, htr, hdr,
        hkr]
      simp only [append_assoc, cons_append, nil_append]
    · refine ⟨hname, ⟨hsized, hvnodup, fun t ht => (htok t ht).1, fun t ht => (htok t ht).2.1,
        htnodup, hdisjoint, fun t ht => (hdok t ht).1, hunique, ?_, ?_, ?_, ?_⟩, hfok, trivial⟩
      · exact hvs ▸ hnv.1
      · exact hts ▸ hnt.1
      · exact hds ▸ hnct.1
      · exact hf ▸ hnc.1

/-! ## The file of a tree -/

/-- What a file says of the whole tree of keys. -/
def Forest.rootBytes : Forest → List UInt8
  | .nil => [0]
  | .cons name head below next => 1 :: (Forest.cons name head below next).layout

/-- The tree of keys a file may hold: none, or one key `Registry` that meets the checks. -/
def Forest.IsFile : Forest → Prop
  | .nil => True
  | .cons name head below next =>
    next = .nil ∧ fold name = registry ∧
      (Forest.single name head below).Ok (maxDecodeDepth + 1)

theorem decodeRoot_of_isFile {f : Forest} (hfile : f.IsFile) (rest : List UInt8) :
    decodeRoot (f.rootBytes ++ rest) = .ok (f.nodes [[]], rest) := by
  cases f with
  | nil => rfl
  | cons name head below next =>
    obtain ⟨rfl, hreg, hok⟩ := hfile
    have haccepts : Accepts name := hok.1
    have hread := decodeNode_of_ok (maxDecodeDepth + 1) [[]] name head below hok rest
    unfold decodeRoot
    simp only [Forest.rootBytes, Forest.layout, cons_append, append_assoc,
      nil_append, u8_cons, ok_bind]
    rw [if_neg (by decide), if_neg (by decide),
      keyName_of_le haccepts.1 haccepts.2.1 haccepts.2.2, ok_bind]
    dsimp only
    rw [if_neg (not_not.mpr hreg), ← append_assoc]
    exact hread

theorem splits_decodeRoot (r : Reader) : Ends (decodeRoot r) fun x =>
    ∃ f : Forest, f.IsFile ∧ x.1 = f.nodes [[]] ∧ r = f.rootBytes ++ x.2 := by
  unfold decodeRoot
  refine (splits_u8 r).bind fun flag hflag => ?_
  dsimp only
  by_cases hzero : flag.1 = 0
  · rw [if_pos hzero]
    refine ends_pure ⟨.nil, trivial, rfl, ?_⟩
    rw [hflag, hzero]
    rfl
  · rw [if_neg hzero]
    refine ends_unless fun hone => ?_
    refine (splits_keyName _).bind fun name hname => ends_unless fun hreg => ?_
    refine (splits_decodeNode (maxDecodeDepth + 1) name.2 [[]] name.1 hname.1).mono ?_
    rintro x ⟨head, below, hx, hr, hok⟩
    refine ⟨.single name.1 head below, ⟨rfl, not_not.mp hreg, hok⟩, hx, ?_⟩
    rw [hflag, not_not.mp hone, hname.2, hr]
    simp [Forest.single, Forest.rootBytes, Forest.layout]

theorem splits_decode (b : List UInt8) :
    Ends (decode b) fun o => ∃ r, b = frame r ∧ rebuild r = .ok o := by
  unfold decode
  refine ends_unless fun _ => ends_unless fun hmagic => ends_unless fun hlen => ?_
  dsimp only
  refine ends_unless fun hsum => fun o ho => ?_
  rw [not_not] at hmagic hsum
  rw [splitAt_eq] at hsum ho
  dsimp only at hsum ho
  have hlen' : 17 ≤ b.length := by
    have hm : magic.length = 8 := rfl
    omega
  refine ⟨(b.take (b.length - 8)).drop magic.length, ?_, ho⟩
  have hbody : magic ++ (b.take (b.length - 8)).drop magic.length = b.take (b.length - 8) := by
    have htake : (b.take (b.length - 8)).take magic.length = magic := by
      rw [take_take, min_eq_left (by change 8 ≤ _; omega)]
      exact hmagic
    have hsplit := take_append_drop magic.length (b.take (b.length - 8))
    rwa [htake] at hsplit
  have hbytes : bytes 8 (checksum (b.take (b.length - 8))).toNat =
      b.drop (b.length - 8) := by
    have hlen8 : (b.drop (b.length - 8)).length = 8 := by
      rw [length_drop]
      omega
    have hlt : value (b.drop (b.length - 8)) < 2 ^ 64 :=
      (value_lt _).trans_le (by rw [hlen8]; norm_num)
    rw [hsum, UInt64.toNat_ofNat_of_lt' hlt, bytes_value hlen8]
  rw [frame, hbody, hbytes, take_append_drop]

theorem decode_eq_ok_iff {b : List UInt8} {o : Overlay} : decode b = .ok o ↔
    ∃ f : Forest, f.IsFile ∧ b = frame f.rootBytes ∧
      ∃ o₁, insertNodes Overlay.new (f.nodes [[]]) = .ok o₁ ∧ o = { o₁ with version := 1 } := by
  constructor
  · intro hb
    obtain ⟨r, rfl, hr⟩ := splits_decode b o hb
    obtain ⟨⟨nodes, rest⟩, hroot, hr⟩ := bind_eq_ok.mp hr
    obtain ⟨f, hfile, hnodes, hsplit⟩ := splits_decodeRoot r _ hroot
    dsimp only at hnodes hsplit hr
    obtain ⟨hrest, hr⟩ := unless_eq_ok.mp hr
    obtain ⟨o₁, ho₁, ho⟩ := bind_eq_ok.mp hr
    rw [not_not.mp hrest, append_nil] at hsplit
    exact ⟨f, hfile, by rw [hsplit], o₁, hnodes ▸ ho₁, pure_eq_ok.mp ho⟩
  · rintro ⟨f, hfile, rfl, o₁, ho₁, rfl⟩
    have hpos : 0 < f.rootBytes.length := by
      cases f <;> simp [Forest.rootBytes]
    have hroot := decodeRoot_of_isFile hfile []
    rw [append_nil] at hroot
    rw [decode_frame hpos, rebuild, hroot, ok_bind]
    dsimp only
    rw [if_neg (not_not.mpr rfl), ho₁, ok_bind]
    rfl

end AetherVfs.Registry.Format
