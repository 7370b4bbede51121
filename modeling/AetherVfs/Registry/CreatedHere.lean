import AetherVfs.Registry.Restore

/-!
# Created-here keys and what lies below them

A key created here hides the real key of its name and everything real below it. The shim asks
only the nearest ancestor the overlay knows (`below_created`); that is enough because every
key below a created-here key is created-here, through every mutator and through a save and a
reload of the overlay.
-/

namespace AetherVfs.Registry

open List

variable [ToLowercase]

namespace Overlay

/-- A node whose parent's node is created-here is created-here. -/
def CreatedClosed (o : Overlay) : Prop :=
  ∀ k c pe e, o.entries.lookup k = some pe → o.entries.lookup (k ++ [c]) = some e →
    pe.node.created = true → e.node.created = true

/-- The loop of the shim's `below_created` over the ancestors, nearest first. The lookups are
the overlay's; one that fails (a lost connection) is not modelled. -/
def belowCreatedLoop (o : Overlay) : List Path → Bool
  | [] => false
  | p :: rest =>
    match (o.lookup p).1 with
    | .present created => created
    | .tombstoned => true
    | .absent => belowCreatedLoop o rest

/-- `below_created` of `vfs-shim/src/regkeys.rs`. -/
def belowCreated (o : Overlay) (canonical : Path) : Bool :=
  belowCreatedLoop o (ancestors canonical)

/-- The key at `a` is created-here or deleted. -/
def Hides (o : Overlay) (a : Path) : Prop :=
  validPath a = true ∧ ((∃ e, o.entries.lookup (foldPath a) = some e ∧ e.node.created = true) ∨
    foldPath a ∈ o.tombs)

end Overlay

section Ancestors

omit [ToLowercase] in
theorem length_parent {p q : Path} (h : parent p = some q) : q.length < p.length := by
  match p, h with
  | [a, b], h =>
    simp only [parent] at h
    split_ifs at h
    cases h
    simp
  | a :: b :: c :: rest, h =>
    simp only [parent, Option.some.injEq] at h
    subst h
    simp

omit [ToLowercase] in
theorem upward_eq {n : ℕ} {p : Path} (h : p.length ≤ n) : upward n p = p :: ancestors p := by
  induction n using Nat.strong_induction_on generalizing p with
  | h n ih =>
    cases n with
    | zero =>
      have : p = [] := length_eq_zero_iff.mp (by omega)
      subst this
      rfl
    | succ n =>
      rw [upward, ancestors]
      cases hp : parent p with
      | none => rfl
      | some q =>
        have hlt := length_parent hp
        simp only [Option.elim]
        rw [selfAndAncestors, ih n (by omega) (by omega), ih q.length (by omega) le_rfl]

omit [ToLowercase] in
theorem selfAndAncestors_eq (p : Path) : selfAndAncestors p = p :: ancestors p :=
  upward_eq le_rfl

omit [ToLowercase] in
theorem ancestors_of_parent {p q : Path} (h : parent p = some q) :
    ancestors p = q :: ancestors q := by
  rw [ancestors, h]
  exact selfAndAncestors_eq q

theorem parent_foldPath (p : Path) : parent (foldPath p) = (parent p).map foldPath := by
  match p with
  | [] => rfl
  | [a] => rfl
  | [a, b] =>
    simp only [foldPath, map_cons, map_nil, parent, fold_eq_nil]
    split_ifs <;> rfl
  | a :: b :: c :: rest =>
    simp only [foldPath, map_cons, parent, Option.map_some, map_dropLast]

theorem ancestors_foldPath (p : Path) : ancestors (foldPath p) = (ancestors p).map foldPath := by
  induction hn : p.length using Nat.strong_induction_on generalizing p with
  | h n ih =>
    cases hp : parent p with
    | none =>
      have hf : parent (foldPath p) = none := by rw [parent_foldPath, hp]; rfl
      rw [ancestors, ancestors, hf, hp]
      rfl
    | some q =>
      have hf : parent (foldPath p) = some (foldPath q) := by rw [parent_foldPath, hp]; rfl
      rw [ancestors_of_parent hf, ancestors_of_parent hp, map_cons,
        ih q.length (hn ▸ length_parent hp) q rfl]

theorem validPath_ancestors {p a : Path} (hp : validPath p = true) (ha : a ∈ ancestors p) :
    validPath a = true ∧ a <+: p := by
  induction hn : p.length using Nat.strong_induction_on generalizing p with
  | h n ih =>
    cases hq : parent p with
    | none =>
      rw [ancestors, hq] at ha
      simp at ha
    | some q =>
      obtain ⟨hvalid, hpq⟩ := Overlay.validPath_parent hp hq
      have hpre : q <+: p := ⟨[leaf p], hpq.symm⟩
      rw [ancestors_of_parent hq] at ha
      rcases mem_cons.mp ha with rfl | ha
      · exact ⟨hvalid, hpre⟩
      · obtain ⟨h1, h2⟩ := ih q.length (hn ▸ length_parent hq) hvalid ha rfl
        exact ⟨h1, h2.trans hpre⟩

end Ancestors

namespace Overlay

variable {o : Overlay}

theorem Inv.createdClosed (h : Inv o) : CreatedClosed o :=
  fun k c pe e hpe he => (h.under k c pe e hpe he).2

theorem Inv.created_below (h : Inv o) {k s : Path} {upper lower : Entry}
    (hupper : o.entries.lookup k = some upper) (hlower : o.entries.lookup (k ++ s) = some lower)
    (hcreated : upper.node.created = true) : lower.node.created = true := by
  induction s using reverseRecOn generalizing lower with
  | nil =>
    rw [append_nil, hupper] at hlower
    cases hlower
    exact hcreated
  | append_singleton s c ih =>
    rw [← append_assoc] at hlower
    obtain ⟨mid, hmid⟩ := h.lookup_between hupper hlower
    exact (h.under _ c mid lower hmid hlower).2 (ih hmid)

theorem isTombstoned_iff (p : Path) : o.isTombstoned (foldPath p) = true ↔
    foldPath p ∈ o.tombs ∨ ∃ a ∈ ancestors p, foldPath a ∈ o.tombs := by
  simp [isTombstoned, selfAndAncestors_eq, ancestors_foldPath]

theorem Inv.belowCreated_iff (h : Inv o) (p : Path) :
    o.belowCreated p = true ↔ ∃ a ∈ ancestors p, o.Hides a := by
  unfold belowCreated
  induction hn : p.length using Nat.strong_induction_on generalizing p with
  | h n ih =>
    cases hq : parent p with
    | none =>
      have hnil : ancestors p = [] := by rw [ancestors, hq]; rfl
      simp [hnil, belowCreatedLoop]
    | some q =>
      have hrec := ih q.length (hn ▸ length_parent hq) q rfl
      rw [ancestors_of_parent hq, belowCreatedLoop]
      simp only [mem_cons, exists_eq_or_imp]
      by_cases hvalid : validPath q = true
      · simp only [Overlay.lookup, hvalid, not_true_eq_false, if_false]
        cases he : o.entries.lookup (foldPath q) with
        | some e =>
          -- The nearest node: if it is not created-here, nothing above it hides it.
          dsimp only
          have hin : foldPath q ∈ o.entries := Table.mem_of_lookup he
          constructor
          · intro hcr
            exact Or.inl ⟨hvalid, Or.inl ⟨e, he, hcr⟩⟩
          · rintro (⟨-, ⟨e', he', hcr⟩ | ht⟩ | ⟨a, ha, -, ⟨e', he', hcr⟩ | ht⟩)
            · rw [he] at he'
              cases he'
              exact hcr
            · exact absurd hin (h.tree.not_has_of_tomb ht)
            · obtain ⟨s, hs⟩ := ((validPath_ancestors hvalid ha).2).map fold
              have hlower : o.entries.lookup (foldPath a ++ s) = some e := hs ▸ he
              exact h.created_below he' hlower hcr
            · have hpre := (validPath_ancestors hvalid ha).2.map fold
              exact absurd hin (h.tree.not_has_below_tomb ht hpre)
        | none =>
          dsimp only
          by_cases htomb : o.isTombstoned (foldPath q) = true
          · rw [if_pos htomb]
            refine iff_of_true rfl ?_
            rcases (isTombstoned_iff q).mp htomb with ht | ⟨a, ha, ht⟩
            · exact Or.inl ⟨hvalid, Or.inr ht⟩
            · exact Or.inr ⟨a, ha, (validPath_ancestors hvalid ha).1, Or.inr ht⟩
          · rw [if_neg htomb]
            have hno : ¬ o.Hides q := by
              rintro ⟨-, ⟨e, he', -⟩ | ht⟩
              · rw [he] at he'
                cases he'
              · exact htomb ((isTombstoned_iff q).mpr (Or.inl ht))
            simp only [hno, false_or]
            exact hrec
      · have hno : ¬ o.Hides q := fun hh => hvalid hh.1
        simp only [Overlay.lookup, hvalid, hno, false_or]
        exact hrec

/-- A call of a mutator, or a save of the overlay and a reload from the file. -/
inductive Event where
  | call (op : Op)
  | reload

def next (o : Overlay) : Event → Overlay
  | .call op => o.step op
  | .reload =>
    match Format.decode (Format.encode o) with
    | .ok o' => o'
    | .error _ => o

/-- What is saved fits the format: no length or count needs more than 32 bits. -/
def Saves (o : Overlay) : Event → Prop
  | .call _ => True
  | .reload => Format.Fits o

theorem Inv.next (h : Inv o) {e : Event} (hsaves : o.Saves e) : Inv (o.next e) := by
  cases e with
  | call op => exact h.step op
  | reload =>
    cases hd : Format.decode (Format.encode o) with
    | ok o' =>
      simp only [Overlay.next, hd]
      exact Format.ends_decode_encode h hsaves o' hd
    | error err =>
      simp only [Overlay.next, hd]
      exact h

/-- In every run of mutators, saves and reloads in which what is saved fits the format, the
created-here keys are closed downwards, and the shim's question to the nearest ancestor is
answered as if it had asked all of them. -/
theorem created_closed_of_saves {es : List Event} (h : Transition.AllSteps next Saves new es) :
    CreatedClosed (Transition.run next new es) ∧ ∀ p,
      (Transition.run next new es).belowCreated p = true ↔
        ∃ a ∈ ancestors p, (Transition.run next new es).Hides a := by
  have hstep : ∀ o e, Inv o → Saves o e → Inv (Overlay.next o e) := fun _ _ hi hs => hi.next hs
  have hinv := Transition.run_invariant_of_allSteps hstep inv_new h
  exact ⟨hinv.createdClosed, hinv.belowCreated_iff⟩

instance (o : Overlay) (e : Event) : Decidable (Saves o e) :=
  match e with
  | .call _ => inferInstanceAs (Decidable True)
  | .reload => inferInstanceAs (Decidable (Format.Fits o))

/-- A key with a value, created, saved and read back, with a key then made below it. -/
def savedRun : List Event :=
  [.call (.createKey [[], ['R', 'e', 'g', 'i', 's', 't', 'r', 'y'], ['S'], ['A']] false false 7),
    .call (.setValue [[], ['R', 'e', 'g', 'i', 's', 't', 'r', 'y'], ['s'], ['a']] ['V'] 1 [5] 8),
    .reload,
    .call (.createKey [[], ['R', 'e', 'g', 'i', 's', 't', 'r', 'y'], ['S'], ['A'], ['B']]
      false false 9)]

omit [ToLowercase] in
theorem created_closed_savedRun :
    Transition.AllSteps (@next asciiLowercase) Saves new savedRun ∧
      CreatedClosed (Transition.run (@next asciiLowercase) new savedRun) := by
  have hsaves : Transition.AllSteps (@next asciiLowercase) Saves new savedRun := by decide +kernel
  exact ⟨hsaves, (@created_closed_of_saves asciiLowercase _ hsaves).1⟩

section Overlong

open Format

def spelledRegistry : Str := ['R', 'e', 'g', 'i', 's', 't', 'r', 'y']

/-- The overlay after `delete_key` of `\Registry\name\x`. -/
def deletedUnder (name : Str) : Overlay :=
  new.step (.deleteKey [[], spelledRegistry, name, ['x']] 0)

/-- The chain `delete_key` makes on the way. -/
def chainTo (name : Str) : Overlay :=
  { new with version := 1 }.ensureChain [[], spelledRegistry, name] true 1 0

variable {name : Str}

theorem deletedUnder_eq (hname : name ≠ []) :
    deletedUnder name = ((((chainTo name).removeSubtree (root ++ [fold name] ++ [['x']])).tomb
      (root ++ [fold name] ++ [['x']]) 1).modify (root ++ [fold name])
        (setChild ['x'] .tombstone 1 0)).touchAncestors [[], spelledRegistry, name] 1 := by
  have hvalid : validPath [[], spelledRegistry, name, ['x']] = true := by
    have : fold spelledRegistry = registry := rfl
    simp [validPath, this, hname]
  have habsent : (lookup new [[], spelledRegistry, name, ['x']]).1 ≠ .tombstoned := by
    simp [lookup, new, isTombstoned, hvalid]
  have hcall : new.deleteKey [[], spelledRegistry, name, ['x']] 0 = .ok (1,
      ((((chainTo name).removeSubtree (root ++ [fold name] ++ [['x']])).tomb
      (root ++ [fold name] ++ [['x']]) 1).modify (root ++ [fold name])
        (setChild ['x'] .tombstone 1 0)).touchAncestors [[], spelledRegistry, name] 1) := by
    unfold deleteKey
    rw [if_neg (not_not.mpr hvalid)]
    simp only [parent]
    rw [if_neg habsent]
    rfl
  simp only [deletedUnder, step, call, hcall]

/-- The chain's first round. -/
def chainRoot : Overlay :=
  { new with version := 1 }.addNode none [[], spelledRegistry] spelledRegistry true 1 0

theorem lookup_chainRoot (j : Path) : chainRoot.entries.lookup j =
    if j = root then some ⟨[[], spelledRegistry], Node.empty, 1, 0⟩ else none := by
  have hroot : foldPath [[], spelledRegistry] = root := rfl
  simp only [chainRoot, addNode, hroot, Table.lookup_insert_eq_ite]
  rfl

theorem chainTo_eq (name : Str) :
    chainTo name = chainRoot.addNode (some root) [[], spelledRegistry, name] name true 1 0 := by
  have hnone : chainRoot.entries.lookup (foldPath [[], spelledRegistry, name]) = none := by
    rw [lookup_chainRoot, if_neg]
    simp [foldPath, root]
  have hfirst : chainTo name = ensureChainLoop true 1 0 chainRoot [[], spelledRegistry]
      (some root) [name] := rfl
  rw [hfirst, ensureChainLoop]
  simp only [cons_append, nil_append, hnone]
  rfl

theorem lookup_chainTo (name : Str) (j : Path) : (chainTo name).entries.lookup j =
    if j = root then some ⟨[[], spelledRegistry],
        { Node.empty with children := (∅ : Table Str (Str × Child)).insert (fold name) (name, .present) }, 1, 0⟩
    else if j = root ++ [fold name] then some ⟨[[], spelledRegistry, name], Node.empty, 1, 0⟩
    else none := by
  have hlong : foldPath [[], spelledRegistry, name] = root ++ [fold name] := rfl
  have hne : root ≠ root ++ [fold name] := by simp
  have hat : chainRoot.entries.lookup root = some ⟨[[], spelledRegistry], Node.empty, 1, 0⟩ := by
    rw [lookup_chainRoot, if_pos rfl]
  have htomb : root ++ [fold name] ∉ chainRoot.tombs := by
    simp [chainRoot, addNode, new]
  have hfresh : chainRoot.freshEntry (some root) [[], spelledRegistry, name] name true 1 0 =
      ⟨[[], spelledRegistry, name], Node.empty, 1, 0⟩ := by
    simp [freshEntry, hat, hlong, htomb, Node.empty]
  rw [chainTo_eq, addNode, hfresh, hlong]
  by_cases hj : j = root
  · subst hj
    simp only [modify, Table.lookup_modify, if_true, AList.lookup_insert_ne hne, hat]
    rfl
  · simp only [modify, Table.lookup_modify, if_neg hj, Table.lookup_insert_eq_ite, lookup_chainRoot]

theorem lookup_deletedUnder (hname : name ≠ []) :
    ((deletedUnder name).entries.lookup root).map (fun e => (e.path, e.node)) =
        some ([[], spelledRegistry], { Node.empty with
          children := (∅ : Table Str (Str × Child)).insert (fold name) (name, .present) }) ∧
      (deletedUnder name).node [[], spelledRegistry, name] = some { Node.empty with
        children := (∅ : Table Str (Str × Child)).insert ['x'] (['x'], .tombstone) } := by
  have hroot : foldPath [[], spelledRegistry] = root := rfl
  have hlong : foldPath [[], spelledRegistry, name] = root ++ [fold name] := rfl
  have hne : root ≠ root ++ [fold name] := by simp
  have hanc : ancestors [[], spelledRegistry, name] = [[[], spelledRegistry]] := rfl
  have hp1 : ¬ root ++ [fold name] ++ [['x']] <+: root := by
    intro h
    have := h.length_le
    simp at this
  have hp2 : ¬ root ++ [fold name] ++ [['x']] <+: root ++ [fold name] := not_append_prefix_self
  rw [deletedUnder_eq hname]
  constructor
  · simp only [hroot, touchAncestors, hanc, foldl_cons, foldl_nil, modify,
      Table.lookup_modify, if_true, if_neg hne, entries_tomb, lookup_removeSubtree, if_neg hp1,
      lookup_chainTo]
    rfl
  · simp only [node, hroot, hlong, touchAncestors, hanc, foldl_cons, foldl_nil, modify,
      Table.lookup_modify, if_true, if_neg hne.symm, entries_tomb, lookup_removeSubtree,
      if_neg hp2, lookup_chainTo]
    rfl

/-- What `encode_node` writes before the items of a node last written at time 0. -/
def header (flags : UInt8) (nv nt nct nc : ℕ) : List UInt8 :=
  [flags] ++ LittleEndian.bytes 8 0 ++ putU32 nv ++ putU32 nt ++ putU32 nct ++ putU32 nc

def bodyUnder : List UInt8 := header 0 0 0 1 0 ++ putStr ['x']

theorem encodeRoot_deletedUnder (hname : name ≠ []) :
    encodeRoot (deletedUnder name) =
      [1] ++ putStr spelledRegistry ++ (header 0 0 0 0 1 ++ (putStr name ++ bodyUnder)) := by
  obtain ⟨hroot, hunder⟩ := lookup_deletedUnder hname
  obtain ⟨e, he, hpath⟩ := Option.map_eq_some_iff.mp hroot
  obtain ⟨hpath, hnode⟩ := Prod.mk.inj hpath
  have hinv : (deletedUnder name).Inv := inv_new.step _
  have hfuel : 3 ≤ encodeFuel (deletedUnder name) := length_le_encodeFuel (mem_of_node hunder)
  obtain ⟨n, hn⟩ : ∃ n, encodeFuel (deletedUnder name) = n + 2 :=
    ⟨encodeFuel (deletedUnder name) - 2, by omega⟩
  have hkids : savedChildren (deletedUnder name) [[], spelledRegistry] e.node =
      [(name, { Node.empty with
        children := (∅ : Table Str (Str × Child)).insert ['x'] (['x'], .tombstone) })] := by
    have hsorted : sortedChildren e.node = [(name, .present)] := by rw [hnode]; rfl
    simp [savedChildren, hsorted, hunder, Node.empty]
  have hnokids : savedChildren (deletedUnder name) [[], spelledRegistry, name] { Node.empty with
      children := (∅ : Table Str (Str × Child)).insert ['x'] (['x'], .tombstone) } = [] := rfl
  have htombs : tombstonedChildren e.node = [] := by rw [hnode]; rfl
  have hif : (!e.node.volatile && decide (e.path.length = 2)) = true := by
    rw [hnode, hpath]
    rfl
  have hleaf : leaf e.path = spelledRegistry := by rw [hpath]; rfl
  have hbody : encodeBody (deletedUnder name) (n + 1) [[], spelledRegistry, name]
      { Node.empty with
        children := (∅ : Table Str (Str × Child)).insert ['x'] (['x'], .tombstone) } =
      bodyUnder := rfl
  have hroot : encodeBody (deletedUnder name) (n + 2) [[], spelledRegistry] e.node =
      header 0 0 0 0 1 ++ (putStr name ++ bodyUnder) := by
    rw [encodeBody, hkids, htombs, hnode, ← hbody]
    simp [header, Node.empty]
  rw [encodeRoot, firstEntry_of_root hinv he]
  dsimp only
  rw [if_pos hif, hleaf, hn, hpath, hroot]

theorem decodeNode_header {flags : UInt8} (hflags : flags = 0 ∨ flags = flagCreated)
    {nv nt nct nc : ℕ} {rest : List UInt8} (hv : nv ≤ rest.length) (ht : nt ≤ rest.length)
    (hct : nct ≤ rest.length) (hc : nc ≤ rest.length) (hlt : nv < 2 ^ 32 ∧ nt < 2 ^ 32 ∧ nct < 2 ^ 32 ∧ nc < 2 ^ 32)
    (depth : ℕ) (path : Path) :
    decodeNode (depth + 1) (header flags nv nt nct nc ++ rest) path = (do
      let (values, seen, r) ← decodeValues nv rest [] []
      let (valueTombstones, r) ← decodeValueTombstones nt r seen []
      let (children, r) ← decodeChildTombstones nct r ∅
      let (children, below, r) ← decodeKids (decodeNode depth) path nc r children []
      return ((path, {
        values, valueTombstones, children
        created := decide (flags = flagCreated)
        volatile := false
        lastWrite := 0 }) :: below, r)) := by
  have hok : ¬ (flags ≠ 0 ∧ flags ≠ flagCreated) := by tauto
  have hzero : Reader.u64 (LittleEndian.bytes 8 0 ++ (putU32 nv ++ (putU32 nt ++ (putU32 nct ++
      (putU32 nc ++ rest))))) = .ok (0, putU32 nv ++ (putU32 nt ++ (putU32 nct ++
      (putU32 nc ++ rest)))) := Reader.u64_bytes 0 _
  have hlen : ∀ n r, (putU32 n ++ r).length = 4 + r.length := by
    intro n r
    simp [putU32]
  rw [decodeNode, header]
  simp only [append_assoc, cons_append, nil_append, Reader.u8_cons,
    Outcome.ok_bind]
  rw [if_neg hok, hzero, Outcome.ok_bind]
  dsimp only
  rw [Reader.count_of_le hlt.1 (by simp only [hlen]; omega), Outcome.ok_bind]
  dsimp only
  rw [Reader.count_of_le hlt.2.1 (by simp only [hlen]; omega), Outcome.ok_bind]
  dsimp only
  rw [Reader.count_of_le hlt.2.2.1 (by simp only [hlen]; omega), Outcome.ok_bind]
  dsimp only
  rw [Reader.count_of_le hlt.2.2.2 hc, Outcome.ok_bind]

section Chars

omit [ToLowercase]

def plain (b : UInt8) : Bool := decide (b.toNat < 128) && b != 0x5C

def asChars (b : List UInt8) : Str := b.map fun x => Char.ofNat x.toNat

theorem utf8_append (s t : Str) : utf8 (s ++ t) = utf8 s ++ utf8 t := flatMap_append

theorem char_of_plain (x : UInt8) (h : plain x = true) :
    String.utf8EncodeChar (Char.ofNat x.toNat) = [x] ∧ Char.ofNat x.toNat ≠ '\\' := by
  have hall : ∀ i : Fin 256, plain (UInt8.ofNat i) = true →
      String.utf8EncodeChar (Char.ofNat (UInt8.ofNat i).toNat) = [UInt8.ofNat i] ∧
        Char.ofNat (UInt8.ofNat i).toNat ≠ '\\' := by
    decide +kernel
  have hx := hall ⟨x.toNat, x.toNat_lt⟩
  rw [UInt8.ofNat_toNat] at hx
  exact hx h

theorem utf8_asChars {b : List UInt8} (h : b.all plain = true) : utf8 (asChars b) = b := by
  induction b with
  | nil => rfl
  | cons x b ih =>
    rw [all_cons, Bool.and_eq_true] at h
    have hcons : utf8 (asChars (x :: b)) =
        String.utf8EncodeChar (Char.ofNat x.toNat) ++ utf8 (asChars b) := rfl
    rw [hcons, (char_of_plain x h.1).1, ih h.2]
    rfl

theorem separator_notMem_asChars {b : List UInt8} (h : b.all plain = true) :
    '\\' ∉ asChars b := by
  intro hmem
  obtain ⟨x, hx, heq⟩ := mem_map.mp hmem
  exact (char_of_plain x (all_eq_true.mp h x hx)).2 heq

/-- The name of the `i`th filler value: one character of three bytes. -/
def fillerName (i : ℕ) : Char := Char.ofNat (0x4E00 + i)

/-- A filler value: its number and how many zero bytes it has. -/
def filler (f : ℕ × ℕ) : Value := ⟨[fillerName f.1], 0, List.replicate f.2 0⟩

theorem toNat_fillerName {i : ℕ} (hi : i < 4101) : (fillerName i).val.toNat = 0x4E00 + i := by
  have hvalid : Nat.isValidChar (0x4E00 + i) := by
    left
    omega
  rw [fillerName, Char.ofNat, dif_pos hvalid]
  rfl

variable {f : ℕ × ℕ}

theorem length_utf8_filler (hf : f.1 < 4101) :
    (utf8 (filler f).name).length = 3 := by
  have hval := toNat_fillerName hf
  simp only [utf8, filler, flatMap_cons, flatMap_nil, append_nil,
    String.length_utf8EncodeChar, Char.utf8Size]
  rw [if_neg, if_neg, if_pos]
  all_goals
    rw [UInt32.le_iff_toNat_le, hval, UInt32.toNat_ofNatLT]
    omega

/-- The characters whose bytes are those `encode` writes for a filler value. -/
def fillerChars (f : ℕ × ℕ) : Str :=
  asChars (putU32 3) ++ ([fillerName f.1] ++ (asChars (LittleEndian.bytes 4 0) ++
    (asChars (putU32 f.2) ++ asChars (List.replicate f.2 0))))

theorem plain_zeros (n : ℕ) : (List.replicate n (0 : UInt8)).all plain = true := by
  rw [all_replicate]
  simp [plain]

theorem utf8_fillerChars (hf : f.1 < 4101) (hn : (putU32 f.2).all plain = true) :
    utf8 (fillerChars f) = Format.putValue (filler f) := by
  have hdata : (filler f).data.length = f.2 := length_replicate
  have h3 : (putU32 3).all plain = true := by decide
  have h0 : (LittleEndian.bytes 4 0).all plain = true := by decide
  simp only [fillerChars, utf8_append, utf8_asChars h3, utf8_asChars h0, utf8_asChars hn,
    utf8_asChars (plain_zeros f.2), Format.putValue, putStr, length_utf8_filler hf, hdata,
    append_assoc]
  rfl

theorem separator_notMem_fillerChars (hf : f.1 < 4101)
    (hn : (putU32 f.2).all plain = true) : '\\' ∉ fillerChars f := by
  have hname : '\\' ≠ fillerName f.1 := by
    intro heq
    have hval := toNat_fillerName hf
    rw [← heq] at hval
    have : '\\'.val.toNat = 0x5C := rfl
    omega
  simp only [fillerChars, mem_append, mem_singleton, not_or]
  exact ⟨separator_notMem_asChars (by decide), hname, separator_notMem_asChars (by decide),
    separator_notMem_asChars hn, separator_notMem_asChars (plain_zeros f.2)⟩

def lastFillers : List (ℕ × ℕ) :=
  [(4095, 0xE0000), (4096, 0x7F00), (4097, 0x7F00), (4098, 0x1100), (4099, 0x7F), (4100, 0x18)]

/-- The filler values: 4095 of 1 MiB, and six that make up the rest of 4 GiB. -/
def fillers : List (ℕ × ℕ) := (List.range 4095).map (fun i => (i, 2 ^ 20)) ++ lastFillers

theorem fillers_spec (hf : f ∈ fillers) :
    f.1 < 4101 ∧ f.2 ≤ maxData ∧ (putU32 f.2).all plain = true := by
  rcases mem_append.mp hf with hf | hf
  · obtain ⟨i, hi, rfl⟩ := mem_map.mp hf
    rw [mem_range] at hi
    have hplain : (putU32 (2 ^ 20)).all plain = true := by decide
    exact ⟨by dsimp only; omega, by norm_num [maxData], hplain⟩
  · have hlast : ∀ f ∈ lastFillers, f.1 < 4101 ∧ f.2 ≤ maxData ∧
        (putU32 f.2).all plain = true := by
      decide
    exact hlast f hf

theorem nodup_fillers : (fillers.map Prod.fst).Nodup := by
  have hfirst : ((range 4095).map fun i => (i, 2 ^ 20)).map Prod.fst = range 4095 := by
    rw [map_map]
    exact map_id _
  have hlast : lastFillers.map Prod.fst = (range 6).map (4095 + ·) := rfl
  rw [fillers, map_append, hfirst, hlast, ← range_add]
  exact nodup_range

theorem length_fillers : fillers.length = 4101 := by
  rw [fillers, length_append, length_map, length_range]
  rfl

theorem length_putValue_fillers :
    ((fillers.map filler).flatMap Format.putValue).length = 2 ^ 32 - 30 := by
  have hone : ∀ f ∈ fillers, (Format.putValue (filler f)).length = 15 + f.2 := by
    intro f hf
    have hname := length_utf8_filler (fillers_spec hf).1
    have hdata : (filler f).data.length = f.2 := length_replicate
    simp only [Format.putValue, putStr, length_append, hname, hdata, putU32,
      LittleEndian.length_bytes]
  rw [length_flatMap, map_map]
  have hmap : fillers.map (length ∘ Format.putValue ∘ filler) = fillers.map fun f => 15 + f.2 :=
    map_congr_left hone
  have hfirst : ∀ n m : ℕ, (((range n).map fun i => (i, m)).map fun f => 15 + f.2).sum =
      n * (15 + m) := by
    intro n m
    simp [Function.comp_def]
  have hlast : (lastFillers.map fun f => 15 + f.2).sum = 0xE0000 + 0x7F00 + 0x7F00 + 0x1100 +
      0x7F + 0x18 + 90 := rfl
  have hsum : (fillers.map fun f => 15 + f.2).sum = 4095 * (15 + 2 ^ 20) + (0xE0000 + 0x7F00 +
      0x7F00 + 0x1100 + 0x7F + 0x18 + 90) := by
    rw [fillers, map_append, sum_append, hfirst, hlast]
  exact (congrArg sum hmap).trans (hsum.trans (by norm_num))

/-- What follows the first byte of the overlong name: the body of a created-here node with the
filler values and one child, up to the child's name. -/
def hiddenBody : List UInt8 :=
  header 1 4101 0 0 1 ++ ((fillers.map filler).flatMap Format.putValue ++ putStr ['c'])

/-- A name of one byte more than 4 GiB. -/
def overlongName : Str :=
  'n' :: (asChars (header 1 4101 0 0 1) ++ (fillers.flatMap fillerChars ++
    asChars (putStr ['c'])))

theorem utf8_overlongName : utf8 overlongName = [0x6E] ++ hiddenBody := by
  have hcons : overlongName = ['n'] ++ (asChars (header 1 4101 0 0 1) ++
    (fillers.flatMap fillerChars ++ asChars (putStr ['c']))) := rfl
  have hfill : utf8 (fillers.flatMap fillerChars) =
      (fillers.map filler).flatMap Format.putValue := by
    have hflat : utf8 (fillers.flatMap fillerChars) =
        fillers.flatMap fun f => utf8 (fillerChars f) := flatMap_assoc
    rw [hflat, flatMap_map]
    refine flatMap_congr fun f hf => ?_
    exact utf8_fillerChars (fillers_spec hf).1 (fillers_spec hf).2.2
  rw [hcons]
  simp only [utf8_append, hfill, hiddenBody]
  rw [utf8_asChars (by decide), utf8_asChars (by decide)]
  rfl

theorem length_hiddenBody : hiddenBody.length = 2 ^ 32 := by
  rw [hiddenBody, length_append, length_append, length_putValue_fillers]
  rfl

theorem separator_notMem_overlongName : '\\' ∉ overlongName := by
  simp only [overlongName, mem_cons, mem_append, not_or]
  refine ⟨by decide, separator_notMem_asChars (by decide), ?_, separator_notMem_asChars (by decide)⟩
  intro hmem
  obtain ⟨f, hf, hmem⟩ := mem_flatMap.mp hmem
  exact separator_notMem_fillerChars (fillers_spec hf).1 (fillers_spec hf).2.2 hmem

theorem putStr_overlongName : putStr overlongName = putStr ['n'] ++ hiddenBody := by
  have hlen : (utf8 overlongName).length = 2 ^ 32 + 1 := by
    rw [utf8_overlongName, length_append, length_hiddenBody]
    rfl
  have hwrap : putU32 (2 ^ 32 + 1) = putU32 1 := by decide
  rw [putStr, hlen, hwrap, utf8_overlongName]
  rfl

end Chars

/-- What `decode` reads from the saved overlay: the name of one byte, the hidden body, and below
it the node that was saved. -/
def misread (vs : List Value) : List (Path × Node) :=
  [([[], spelledRegistry], { Node.empty with
      children := (∅ : Table Str (Str × Child)).insert ['n'] (['n'], .present) }),
    ([[], spelledRegistry, ['n']], { Node.empty with
      values := vs
      children := (∅ : Table Str (Str × Child)).insert ['c'] (['c'], .present)
      created := true }),
    ([[], spelledRegistry, ['n'], ['c']], { Node.empty with
      children := (∅ : Table Str (Str × Child)).insert ['x'] (['x'], .tombstone) })]

/-- Lower case leaves the names of the filler values alone. -/
def KeepsFillers : Prop := ∀ i < 4101, fold [fillerName i] = [fillerName i]

theorem decodeValues_fillers (hkeeps : KeepsFillers) (rest : List UInt8) :
    ∃ seen, decodeValues 4101 ((fillers.map filler).flatMap Format.putValue ++ rest) [] [] =
      .ok (fillers.map filler, seen, rest) := by
  have hfold : ∀ f ∈ fillers, fold (filler f).name = [fillerName f.1] :=
    fun f hf => hkeeps f.1 (fillers_spec hf).1
  have hnodup : ((fillers.map filler).map fun v => fold v.name).Nodup := by
    rw [map_map]
    refine Nodup.map_on ?_ (Nodup.of_map _ nodup_fillers)
    intro f hf g hg heq
    simp only [Function.comp_apply, hfold f hf, hfold g hg, cons.injEq, and_true] at heq
    have hval := toNat_fillerName (fillers_spec hf).1
    rw [heq, toNat_fillerName (fillers_spec hg).1] at hval
    exact inj_on_of_nodup_map nodup_fillers hf hg (by omega)
  have hok : ∀ v ∈ fillers.map filler,
      utf16Len v.name ≤ maxValueName ∧ v.data.length ≤ maxData := by
    intro v hv
    obtain ⟨f, hf, rfl⟩ := mem_map.mp hv
    obtain ⟨hi, hn, -⟩ := fillers_spec hf
    have hunits : utf16Len (filler f).name ≤ 2 := by
      simp only [filler, utf16Len, map_cons, map_nil, sum_cons, sum_nil]
      split_ifs <;> omega
    refine ⟨hunits.trans (by norm_num [maxValueName]), ?_⟩
    rw [filler, length_replicate]
    exact hn
  have hread := decodeValues_of_le hok hnodup (fun v _ => not_mem_nil) rest []
  rw [length_map, length_fillers, nil_append] at hread
  exact ⟨_, hread⟩

theorem decodeNode_bodyUnder (d : ℕ) (path : Path) : decodeNode (d + 1) bodyUnder path =
    .ok ([(path, { Node.empty with
      children := (∅ : Table Str (Str × Child)).insert ['x'] (['x'], .tombstone) })], []) := rfl

theorem decodeKids_one {decodeChild : Reader → Path → Except FormatError (List (Path × Node) × Reader)}
    {c : Char} (hc : c = 'n' ∨ c = 'c') {path : Path} {r rest : Reader} {nodes : List (Path × Node)}
    (hread : decodeChild r (path ++ [[c]]) = .ok (nodes, rest)) :
    decodeKids decodeChild path 1 (putStr [c] ++ r) ∅ [] =
      .ok ((∅ : Table Str (Str × Child)).insert [c] ([c], .present), nodes, rest) := by
  have hfold : fold [c] = [c] := by rcases hc with rfl | rfl <;> rfl
  have hname : Reader.keyName (putStr [c] ++ r) = .ok ([c], r) := by
    rcases hc with rfl | rfl
    all_goals exact Reader.keyName_of_le (by decide) (by decide) (by decide) r
  rw [decodeKids, hname, Outcome.ok_bind]
  dsimp only
  rw [hfold, if_neg (AList.notMem_empty _), hread]
  rfl

theorem decodeNode_hiddenBody (hkeeps : KeepsFillers) (d : ℕ) :
    decodeNode (d + 2) (hiddenBody ++ bodyUnder) [[], spelledRegistry, ['n']] =
      .ok ((misread (fillers.map filler)).tail, []) := by
  have hfill := length_putValue_fillers
  have hcreated : (1 : UInt8) = 0 ∨ (1 : UInt8) = flagCreated := Or.inr rfl
  obtain ⟨seen, hvalues⟩ := decodeValues_fillers hkeeps (putStr ['c'] ++ bodyUnder)
  rw [hiddenBody, append_assoc, append_assoc]
  generalize (fillers.map filler).flatMap Format.putValue = written at *
  generalize fillers.map filler = vs at *
  have hlen : 4101 ≤ (written ++ (putStr ['c'] ++ bodyUnder)).length := by
    rw [length_append, hfill]
    omega
  rw [decodeNode_header hcreated hlen (Nat.zero_le _) (Nat.zero_le _) (by omega) (by norm_num),
    hvalues, Outcome.ok_bind]
  simp only [decodeValueTombstones, decodeChildTombstones, Outcome.ok_bind]
  rw [decodeKids_one (Or.inr rfl) (decodeNode_bodyUnder d _)]
  rfl

theorem decodeRoot_of_hidden {hidden : List UInt8} {vs : List Value}
    (hhidden : decodeNode maxDecodeDepth (hidden ++ bodyUnder) [[], spelledRegistry, ['n']] =
      .ok ((misread vs).tail, [])) :
    decodeRoot ([1] ++ putStr spelledRegistry ++ (header 0 0 0 0 1 ++ (putStr ['n'] ++ hidden ++
      bodyUnder))) = .ok (misread vs, []) := by
  have hreg : fold spelledRegistry = registry := rfl
  have hplain : (0 : UInt8) = 0 ∨ (0 : UInt8) = flagCreated := Or.inl rfl
  have hlen : 1 ≤ (putStr ['n'] ++ (hidden ++ bodyUnder)).length := by
    rw [length_append]
    have : (putStr ['n']).length = 5 := rfl
    omega
  rw [decodeRoot]
  simp only [cons_append, nil_append, append_assoc, Reader.u8_cons, Outcome.ok_bind]
  rw [if_neg (by decide), if_neg (by decide),
    Reader.keyName_of_le (by decide) (by decide) (by decide), Outcome.ok_bind]
  dsimp only
  rw [if_neg (not_not.mpr hreg), decodeNode_header hplain (Nat.zero_le _)
    (Nat.zero_le _) (Nat.zero_le _) hlen (by norm_num)]
  simp only [decodeValues, decodeValueTombstones, decodeChildTombstones, Outcome.ok_bind]
  rw [decodeKids_one (Or.inl rfl) hhidden]
  rfl

theorem decodeRoot_misread (hkeeps : KeepsFillers) :
    decodeRoot (encodeRoot (deletedUnder overlongName)) =
      .ok (misread (fillers.map filler), []) := by
  have hname : overlongName ≠ [] := cons_ne_nil _ _
  rw [encodeRoot_deletedUnder hname, putStr_overlongName]
  exact decodeRoot_of_hidden (decodeNode_hiddenBody hkeeps 1022)

theorem misread_not_closed (hkeeps : KeepsFillers) :
    ∃ o, decode (encode (deletedUnder overlongName)) = .ok o ∧ ¬ CreatedClosed o := by
  rw [decode_encode_eq, rebuild, decodeRoot_misread hkeeps, Outcome.ok_bind]
  refine ⟨_, rfl, ?_⟩
  intro hclosed
  have := hclosed (root ++ [['n']]) ['c'] _ _ rfl rfl rfl
  cases this

omit [ToLowercase] in
theorem keepsFillers_ascii : @KeepsFillers asciiLowercase := by
  intro i hi
  have hval := toNat_fillerName hi
  have hself : (fillerName i).toLower = fillerName i := by
    apply toLower_of_not_upper
    intro hup
    have := hup.bounds.2
    omega
  rw [@fold_eq_flatMap asciiLowercase, flatMap_singleton]
  exact congrArg (fun c => [c]) hself

theorem not_closed_of_reload
    (h : ∃ o, decode (encode (deletedUnder name)) = .ok o ∧ ¬ CreatedClosed o) :
    ¬ CreatedClosed (Transition.run next new
      [.call (.deleteKey [[], spelledRegistry, name, ['x']] 0), .reload]) := by
  obtain ⟨o, hread, hopen⟩ := h
  have hrun : Transition.run next new
      [.call (.deleteKey [[], spelledRegistry, name, ['x']] 0), .reload] =
        (deletedUnder name).next .reload := rfl
  rw [hrun, next, hread]
  exact hopen

omit [ToLowercase] in
/-- Deleting a key below an ancestor whose name is one byte longer than 4 GiB, then saving and
reloading. The name's length is written as one: its other bytes are read as the body of a
created-here key `n`, and the saved body of the ancestor as that of a key `n\c` below it, which
is not created-here. -/
theorem created_not_closed_after_reload : '\\' ∉ overlongName ∧
    ¬ CreatedClosed (Transition.run (@next asciiLowercase) new
      [.call (.deleteKey [[], spelledRegistry, overlongName, ['x']] 0), .reload]) :=
  ⟨separator_notMem_overlongName,
    @not_closed_of_reload asciiLowercase overlongName
      (@misread_not_closed asciiLowercase keepsFillers_ascii)⟩

end Overlong

end Overlay

end AetherVfs.Registry
