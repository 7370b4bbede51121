import AetherVfs.Compose.MemoryForks

/-!
# The stored paths are those of a tree

In a tree in memory that no call has forked, files have nothing at or below them: no directory
of the same path and no entry under it. A call keeps it so if it puts a new entry only where no
entry of the other kind is and no file is above. In such a tree the listing of a directory and
`getattr` agree, so that the tree is a provider whose answers fit together.
-/

namespace AetherVfs.Compose.Memory

open Forks List AList

/-- No file is a directory as well, stored or implied. -/
structure IsTree (s : Memory) : Prop where
  ne_nil : ∀ k ∈ s.files, k ≠ []
  not_dir : ∀ k ∈ s.files, k ∉ s.dirs
  leaf : ∀ k ∈ s.files, ∀ j ∈ s.paths, ¬ Key.Below k j

/-- No stored path has an empty component. -/
def Clean (s : Memory) : Prop := ∀ k ∈ s.paths, [] ∉ k

variable {s t : Memory} {c : VPath} {name : Str}

theorem IsTree.mono (h : s.IsTree) (hfiles : ∀ k ∈ t.files, k ∈ s.files)
    (hdirs : ∀ k ∈ t.dirs, k ∈ s.dirs) : t.IsTree where
  ne_nil k hk := h.ne_nil k (hfiles k hk)
  not_dir k hk hd := h.not_dir k (hfiles k hk) (hdirs k hd)
  leaf k hk j hj := h.leaf k (hfiles k hk) j (hj.imp (hfiles j) (hdirs j))

theorem IsTree.congr (h : s.IsTree) (hfiles : t.files = s.files) (hdirs : t.dirs = s.dirs) :
    t.IsTree :=
  h.mono (fun _ hk => hfiles ▸ hk) fun _ hk => hdirs ▸ hk

theorem IsTree.insertFile (h : s.IsTree) (hfree : ¬ Live s.paths c)
    (habove : ∀ k ∈ s.files, ¬ Key.Below k c) (b : Bytes) :
    { s with files := s.files.insert c b }.IsTree := by
  have hroot : c ≠ [] := fun heq => hfree (Or.inl heq)
  have hpaths := paths_insertFile s c b
  refine ⟨fun k hk => ?_, fun k hk hd => ?_, fun k hk j hj => ?_⟩
  · rcases (mem_insert _).mp hk with rfl | hk
    · exact hroot
    · exact h.ne_nil k hk
  · rcases (mem_insert _).mp hk with rfl | hk
    · exact hfree (live_of_mem (Or.inr hd))
    · exact h.not_dir k hk hd
  · rw [hpaths] at hj
    rcases (mem_insert _).mp hk with rfl | hold
    · rcases hj with rfl | hj
      · exact fun hb => hb.2 rfl
      · exact fun hb => hfree (Or.inr ⟨j, hj, hb.1⟩)
    · rcases hj with rfl | hj
      · exact habove k hold
      · exact h.leaf k hold j hj

theorem IsTree.insertDir (h : s.IsTree) (hfile : c ∉ s.files)
    (habove : ∀ k ∈ s.files, ¬ Key.Below k c) : { s with dirs := s.dirs.insert c () }.IsTree := by
  have hpaths := paths_insertDir s c
  refine ⟨h.ne_nil, fun k hk hd => ?_, fun k hk j hj => ?_⟩
  · rcases (mem_insert _).mp hd with rfl | hd
    · exact hfile hk
    · exact h.not_dir k hk hd
  · rw [hpaths] at hj
    rcases hj with rfl | hj
    · exact habove k hk
    · exact h.leaf k hk j hj

/-! ## Listings -/

theorem directChild_eq_some {path key : VPath} {leaf : Bool} :
    directChild path key = some (name, leaf) ↔
      name ≠ [] ∧ ∃ rest, key = path ++ name :: rest ∧ leaf = decide (rest = []) := by
  unfold directChild
  constructor
  · intro h
    split_ifs at h with hp
    obtain ⟨t, rfl⟩ := hp
    rw [drop_left] at h
    cases t with
    | nil => cases h
    | cons a rest =>
      dsimp only at h
      split_ifs at h with ha
      cases h
      exact ⟨ha, rest, rfl, rfl⟩
  · rintro ⟨hne, rest, rfl, rfl⟩
    rw [if_pos (prefix_append _ _), drop_left]
    exact if_neg hne

theorem lookup_foldl_orInsert (items : List (Str × Stat)) (names : Table Str Stat) (n : Str) :
    (items.foldl (fun names c => orInsert names c.1 c.2) names).lookup n =
      (names.lookup n).or ((items.find? fun c => c.1 = n).map Prod.snd) := by
  induction items generalizing names with
  | nil => rw [find?_nil, Option.map_none, Option.or_none, foldl_nil]
  | cons c items ih =>
    rw [foldl_cons, ih, orInsert]
    by_cases hn : c.1 = n
    · rw [find?_cons_of_pos (by simpa using hn)]
      split_ifs with hmem
      · obtain ⟨st, hst⟩ := Table.exists_lookup hmem
        rw [hn] at hst
        rw [hst]
        rfl
      · have hnone := lookup_eq_none.mpr hmem
        rw [hn] at hnone
        rw [Table.lookup_insert_eq_ite, if_pos hn.symm, hnone]
        rfl
    · rw [find?_cons_of_neg (by simpa using hn)]
      split_ifs with hmem
      · rfl
      · rw [Table.lookup_insert_eq_ite, if_neg (Ne.symm hn)]

section Listing

variable {s : Memory}

theorem IsTree.statOf_of_mem_children (h : s.IsTree) {st : Stat}
    (hmem : (name, st) ∈ s.children c) : name ≠ [] ∧ s.statOf (c ++ [name]) = some st := by
  -- Anything that a stored path passes through on its way down is a directory.
  have hdir : ∀ k ∈ s.paths, c ++ [name] <+: k → (k ∈ s.files → k ≠ c ++ [name]) →
      s.statOf (c ++ [name]) = some ⟨.dir, 0, 0⟩ := by
    intro k hk hp hne
    refine statOf_eq_dir (Or.inr ⟨k, hk, hp⟩) fun hfile => ?_
    by_cases heq : c ++ [name] = k
    · rcases hk with hk | hk
      · exact hne hk heq.symm
      · exact h.not_dir _ hfile (heq ▸ hk)
    · exact h.leaf _ hfile k hk ⟨hp, heq⟩
  rcases mem_append.mp hmem with hmem | hmem
  · obtain ⟨⟨k, b⟩, hk, hitem⟩ := mem_filterMap.mp hmem
    obtain ⟨⟨name', leaf⟩, hchild, heq⟩ := Option.map_eq_some_iff.mp hitem
    obtain ⟨hne, rest, hkey, hleaf⟩ := directChild_eq_some.mp hchild
    have hlookup : s.files.lookup k = some b := mem_lookup_iff.mpr hk
    have hfile : k ∈ s.files := Table.mem_of_lookup hlookup
    cases heq
    refine ⟨hne, ?_⟩
    dsimp only at hkey hleaf
    subst hkey hleaf
    by_cases hrest : rest = []
    · subst hrest
      exact statOf_eq_file (by simp) hlookup
    · rw [decide_eq_false hrest]
      exact hdir _ (Or.inl hfile) ⟨rest, by simp⟩ fun _ => by simpa using hrest
  · obtain ⟨k, hk, hitem⟩ := mem_filterMap.mp hmem
    obtain ⟨⟨name', leaf⟩, hchild, heq⟩ := Option.map_eq_some_iff.mp hitem
    obtain ⟨hne, rest, rfl, -⟩ := directChild_eq_some.mp hchild
    cases heq
    have hk : c ++ name' :: rest ∈ s.dirs := hk
    exact ⟨hne, hdir _ (Or.inr hk) ⟨rest, by simp⟩ fun hfile => absurd hk (h.not_dir _ hfile)⟩

theorem mem_children_of_live (hne : name ≠ []) (hlive : Live s.paths (c ++ [name])) :
    ∃ st, (name, st) ∈ s.children c := by
  rcases hlive with hnil | ⟨k, hk, rest, rfl⟩
  · simp at hnil
  have hchild : directChild c (c ++ [name] ++ rest) = some (name, decide (rest = [])) :=
    directChild_eq_some.mpr ⟨hne, rest, by simp, rfl⟩
  rcases hk with hk | hk
  · obtain ⟨b, hb⟩ := Table.exists_lookup hk
    have hentry : (⟨c ++ [name] ++ rest, b⟩ : Σ _ : VPath, Bytes) ∈ s.files.entries :=
      mem_lookup_iff.mp hb
    refine ⟨if rest = [] then ⟨.file, b.length, 0⟩ else ⟨.dir, 0, 0⟩,
      mem_append_left _ (mem_filterMap.mpr ⟨_, hentry, ?_⟩)⟩
    rw [hchild]
    simp
  · refine ⟨⟨.dir, 0, 0⟩, mem_append_right _ (mem_filterMap.mpr ⟨_, hk, ?_⟩)⟩
    rw [hchild]
    rfl

theorem IsTree.lookup_listNames (h : s.IsTree) (c : VPath) (name : Str) :
    (s.listNames c).lookup name = if name = [] then none else s.statOf (c ++ [name]) := by
  rw [listNames, lookup_foldl_orInsert]
  have hempty : (∅ : Table Str Stat).lookup name = none := rfl
  rw [hempty, Option.none_or]
  cases hfind : (s.children c).find? fun x => x.1 = name with
  | some item =>
    have hname : item.1 = name := by simpa using find?_some hfind
    have hmem : (name, item.2) ∈ s.children c := hname ▸ mem_of_find?_eq_some hfind
    obtain ⟨hne, hst⟩ := h.statOf_of_mem_children hmem
    rw [if_neg hne, hst]
    rfl
  | none =>
    split_ifs with hne
    · rfl
    · cases hst : s.statOf (c ++ [name]) with
      | none => rfl
      | some st =>
        obtain ⟨st', hmem⟩ := mem_children_of_live hne (live_of_statOf hst)
        exact absurd (find?_eq_none.mp hfind _ hmem) (by simp)

end Listing

section

variable [ToLowercase]

/-! ## What a path is resolved to -/

variable {p : VPath}

section Resolved

variable {s : Memory}

theorem walk_spec {parts : List Str} (hparts : [] ∉ parts) {cur : VPath} (hcur : [] ∉ cur) :
    [] ∉ s.walk cur parts ∧ (s.walk cur parts).map fold = (cur ++ parts).map fold := by
  induction parts generalizing cur with
  | nil => exact ⟨hcur, by rw [walk, append_nil]⟩
  | cons part parts ih =>
    rw [mem_cons, not_or] at hparts
    have hgo : ∀ name, name ≠ [] → fold name = fold part →
        [] ∉ s.walk (cur ++ [name]) parts ∧
          (s.walk (cur ++ [name]) parts).map fold = (cur ++ part :: parts).map fold := by
      intro name hne hfold
      have hcur' : [] ∉ cur ++ [name] := by simp [hcur, hne.symm]
      obtain ⟨hclean, hkeys⟩ := ih hparts.2 hcur'
      refine ⟨hclean, hkeys.trans ?_⟩
      simp [hfold]
    rw [walk]
    split_ifs
    · exact hgo part (Ne.symm hparts.1) rfl
    · cases hbest : s.best cur part with
      | some name =>
        obtain ⟨-, hne, hfold⟩ := best_eq_some hbest
        exact hgo name hne hfold
      | none => exact ⟨by simp [hcur, hparts], rfl⟩

theorem nil_notMem_of_keys {q : VPath} (hkeys : p.map fold = q.map fold) (hq : [] ∉ q) :
    [] ∉ p := by
  have hnil : ∀ r : VPath, [] ∈ r.map fold ↔ [] ∈ r := by simp
  rwa [← hnil, hkeys, hnil]

omit [ToLowercase] in
theorem filter_ne_nil {q : VPath} (h : [] ∉ q) : q.filter (fun c => c ≠ []) = q := by
  apply filter_eq_self.mpr
  intro c hc
  exact decide_eq_true fun heq => h (heq ▸ hc)

theorem canonicalIn_spec (hclean : s.Clean) (hidx : s.Indexed) (p : VPath) :
    [] ∉ s.canonicalIn p ∧
      (s.canonicalIn p).map fold = (p.filter fun c => c ≠ []).map fold := by
  rw [canonicalIn]
  split_ifs with hroot hstored
  · subst hroot
    exact ⟨not_mem_nil, rfl⟩
  · have hp := hclean p hstored
    exact ⟨hp, by rw [filter_ne_nil hp]⟩
  · cases hhit : s.byFold.lookup (p.map fold) with
    | some hit =>
      obtain ⟨hmem, hkeys⟩ := hidx _ _ hhit
      have hclean' := hclean hit hmem
      rw [filter_ne_nil (nil_notMem_of_keys hkeys.symm hclean')]
      exact ⟨hclean', hkeys⟩
    | none =>
      have hparts : [] ∉ p.filter fun c => c ≠ [] := by simp
      exact walk_spec hparts not_mem_nil

theorem canonicalIn_of_live (h : s.NeverForks) (hclean : s.Clean) {ℓ : VPath} (hℓ : Live s.paths ℓ)
    (hkeys : ℓ.map fold = (p.filter fun c => c ≠ []).map fold) : s.canonicalIn p = ℓ := by
  obtain ⟨hunforked, hidx⟩ := neverForks_iff.mp h
  refine (canonicalIn_fits hunforked hidx p _ prefix_rfl ℓ hℓ ?_).symm
  rw [hkeys, (canonicalIn_spec hclean hidx p).2]

end Resolved

/-! ## Runs -/

/-- A call that does not put an entry where one of the other kind is, or below a file. -/
def Placed (s : Memory) : Call → Prop
  | .openPath p flags =>
    let c := s.canonicalIn (trimRel p)
    flags.create → c ∉ s.files → s.statOf c = none ∧ ∀ k ∈ s.files, ¬ Key.Below k c
  | .mkdir p =>
    let c := s.canonicalIn (trimRel p)
    c ∉ s.files ∧ ∀ k ∈ s.files, ¬ Key.Below k c
  | .rename src dst =>
    let srcC := s.canonicalIn (trimRel src)
    let dstC := s.canonicalIn (trimRel dst)
    s.statOf dstC = none → ∀ k ∈ s.files, k ≠ srcC → ¬ Key.Below k dstC
  | _ => True

/-- What holds of the stored paths throughout. -/
structure Grown (s : Memory) : Prop where
  neverForks : s.NeverForks
  tree : s.IsTree
  clean : s.Clean

namespace Grown

variable {s : Memory} (h : s.Grown)

include h

theorem unforked : Unforked fold s.paths := (neverForks_iff.mp h.neverForks).1

theorem indexed : s.Indexed := h.neverForks.2

theorem canonical_clean (p : VPath) : [] ∉ s.canonicalIn p :=
  (canonicalIn_spec h.clean h.indexed p).1

omit h [ToLowercase] in
theorem not_live (hp : s.statOf p = none) : ¬ Live s.paths p := by
  rw [← isSome_statOf, hp]
  simp

variable {src dst : Str} {d : VPath}

theorem insertBase_spec (hcareful : s.Careful (.rename src dst))
    (hplaced : s.Placed (.rename src dst)) (hdst : (s.statOf (s.canonicalIn (trimRel dst))).isSome →
      s.canonicalIn (trimRel dst) ∈ s.files ∨
        s.canonicalIn (trimRel dst) = s.canonicalIn (trimRel src) ∧
          s.canonicalIn (trimRel src) ≠ []) :
    [] ∉ s.insertBase (trimRel dst) ∧ s.insertBase (trimRel dst) ≠ [] ∧
      (Live s.paths (s.insertBase (trimRel dst)) →
        s.insertBase (trimRel dst) = s.canonicalIn (trimRel dst)) ∧
      ∀ k ∈ s.files, k ≠ s.canonicalIn (trimRel src) → ¬ Key.Below k (s.insertBase (trimRel dst)) := by
  have hclean := h.canonical_clean (trimRel dst)
  unfold insertBase
  split_ifs with hsome
  · obtain ⟨hkeys, hdrop, -⟩ := hcareful hsome
    have hlive := isSome_statOf.mp hsome
    have hne : s.canonicalIn (trimRel dst) ≠ [] := by
      rcases hdst hsome with hfile | ⟨heq, hne⟩
      · exact h.tree.ne_nil _ hfile
      · exact heq ▸ hne
    refine ⟨nil_notMem_of_keys hkeys hclean, ?_, fun hl => h.unforked _ _ hl hlive hkeys,
      fun k hk _ hbelow => ?_⟩
    · intro heq
      exact hne (map_eq_nil_iff.mp (hkeys.symm.trans (congrArg (map fold) heq)))
    · -- A file above the new spelling is above the stored one, which something is at or below.
      have hbelow' : Key.Below k (s.canonicalIn (trimRel dst)) := by
        rcases hbelow.dropLast with rfl | hb
        · rw [hdrop]
          exact Key.below_dropLast hne
        · rw [hdrop] at hb
          exact hb.trans (Key.below_dropLast hne)
      rcases hlive with hnil | ⟨j, hj, hp⟩
      · exact hne hnil
      · refine h.tree.leaf k hk j hj ⟨hbelow'.1.trans hp, ?_⟩
        rintro rfl
        exact hbelow'.2 (hbelow'.1.eq_of_length_le hp.length_le)
  · have hnone : s.statOf (s.canonicalIn (trimRel dst)) = none := by simpa using hsome
    exact ⟨hclean, fun heq => not_live hnone (Or.inl heq), fun _ => rfl, hplaced hnone⟩

theorem renameFile {body : Bytes} (hfile : s.files.lookup (s.canonicalIn (trimRel src)) = some body)
    (hkind : s.canonicalIn (trimRel dst) ≠ s.canonicalIn (trimRel src) →
      (s.statOf (s.canonicalIn (trimRel dst))).map Stat.kind ≠ some .dir)
    (hcareful : s.Careful (.rename src dst)) (hplaced : s.Placed (.rename src dst)) :
    (s.renameFile (s.canonicalIn (trimRel src)) (s.canonicalIn (trimRel dst))
      (s.insertBase (trimRel dst)) body).IsTree ∧
    (s.renameFile (s.canonicalIn (trimRel src)) (s.canonicalIn (trimRel dst))
      (s.insertBase (trimRel dst)) body).Clean := by
  have hsrc : s.canonicalIn (trimRel src) ∈ s.files := Table.mem_of_lookup hfile
  -- What is at the destination is a file.
  have hdst : (s.statOf (s.canonicalIn (trimRel dst))).isSome →
      s.canonicalIn (trimRel dst) ∈ s.files := by
    intro hsome
    by_cases heq : s.canonicalIn (trimRel dst) = s.canonicalIn (trimRel src)
    · rw [heq]
      exact hsrc
    · by_contra hnot
      refine hkind heq ?_
      rw [statOf_eq_dir (isSome_statOf.mp hsome) hnot]
      rfl
  obtain ⟨hbclean, hbne, hblive, hbabove⟩ := h.insertBase_spec hcareful hplaced fun hsome =>
    Or.inl (hdst hsome)
  obtain ⟨hdirs, hfiles, -⟩ := renameFile_spec s (s.canonicalIn (trimRel src))
    (s.canonicalIn (trimRel dst)) (s.insertBase (trimRel dst)) body
  generalize s.renameFile (s.canonicalIn (trimRel src)) (s.canonicalIn (trimRel dst))
    (s.insertBase (trimRel dst)) body = t at hdirs hfiles ⊢
  generalize s.insertBase (trimRel dst) = base at *
  have hpaths : ∀ k ∈ t.paths, k = base ∨ k ∈ s.paths := by
    rintro k (hk | hk)
    · exact (hfiles k hk).imp_right fun h => Or.inl h.1
    · exact Or.inr (Or.inr (hdirs ▸ hk))
  -- Where the new path was there before, it was that of the file which is replaced.
  have hold : Live s.paths base → base ∈ s.files := by
    intro hlive
    have heq := hblive hlive
    exact heq ▸ hdst (isSome_statOf.mpr (heq ▸ hlive))
  refine ⟨⟨fun k hk => ?_, fun k hk hd => ?_, fun k hk j hj => ?_⟩, fun k hk => ?_⟩
  · rcases hfiles k hk with rfl | ⟨hk, -⟩
    · exact hbne
    · exact h.tree.ne_nil k hk
  · rw [hdirs] at hd
    rcases hfiles k hk with rfl | ⟨hk, -⟩
    · exact h.tree.not_dir k (hold (live_of_mem (Or.inr hd))) hd
    · exact h.tree.not_dir k hk hd
  · rcases hfiles k hk with rfl | ⟨hk, hsrc', -⟩
    · rcases hpaths j hj with rfl | hj
      · exact fun hb => hb.2 rfl
      · exact fun hb => h.tree.leaf k (hold (Or.inr ⟨j, hj, hb.1⟩)) j hj hb
    · rcases hpaths j hj with rfl | hj
      · exact hbabove k hk hsrc'
      · exact h.tree.leaf k hk j hj
  · rcases hpaths k hk with rfl | hk
    · exact hbclean
    · exact h.clean k hk

theorem moveAll (hnot : s.canonicalIn (trimRel src) ∉ s.files)
    (hroot : s.canonicalIn (trimRel src) ≠ [])
    (hocc : (s.statOf (s.canonicalIn (trimRel dst))).isSome →
      s.canonicalIn (trimRel dst) = s.canonicalIn (trimRel src))
    (hcareful : s.Careful (.rename src dst)) (hplaced : s.Placed (.rename src dst)) :
    (s.moveAll (s.canonicalIn (trimRel src)) (s.insertBase (trimRel dst))).IsTree ∧
      (s.moveAll (s.canonicalIn (trimRel src)) (s.insertBase (trimRel dst))).Clean := by
  obtain ⟨hbclean, hbne, hblive, hbabove⟩ := h.insertBase_spec hcareful hplaced fun hsome =>
    Or.inr ⟨hocc hsome, hroot⟩
  generalize s.canonicalIn (trimRel src) = srcC at *
  -- What stays is not at or below the new place.
  have hfree : ∀ k ∈ s.paths, ¬ srcC <+: k → ¬ s.insertBase (trimRel dst) <+: k := by
    intro k hk hcut hp
    have hbase := hblive (Or.inr ⟨k, hk, hp⟩)
    rw [hbase] at hp
    have hsome := isSome_statOf.mpr (Or.inr ⟨k, hk, hp⟩)
    exact hcut (hocc hsome ▸ hp)
  generalize s.insertBase (trimRel dst) = base at *
  have hfiles : ∀ k ∈ (s.moveAll srcC base).files, k ∈ s.files ∧ ¬ srcC <+: k ∨
      ∃ r, srcC ++ r ∈ s.files ∧ r ≠ [] ∧ k = base ++ r := fun k hk => mem_files_moveAll hnot hk
  have hpaths : ∀ k ∈ (s.moveAll srcC base).paths, k ∈ s.paths ∧ ¬ srcC <+: k ∨
      ∃ r, srcC ++ r ∈ s.paths ∧ k = base ++ r := fun k hk => paths_moveAll hnot hk
  refine ⟨⟨fun k hk => ?_, fun k hk hd => ?_, fun k hk j hj => ?_⟩, fun k hk => ?_⟩
  · rcases hfiles k hk with ⟨hk, -⟩ | ⟨r, -, hr, rfl⟩
    · exact h.tree.ne_nil k hk
    · exact fun heq => hr (append_eq_nil_iff.mp heq).2
  · rcases hfiles k hk with ⟨hk, hcut⟩ | ⟨r, hr, -, rfl⟩
    · rcases mem_dirs_moveAll hd with ⟨hd, -⟩ | ⟨r, -, rfl⟩
      · exact h.tree.not_dir k hk hd
      · exact hfree _ (Or.inl hk) hcut (prefix_append _ _)
    · rcases mem_dirs_moveAll hd with ⟨hd, hcut⟩ | ⟨r', hr', heq⟩
      · exact hfree _ (Or.inr hd) hcut (prefix_append _ _)
      · rw [append_cancel_left heq] at hr
        exact h.tree.not_dir _ hr hr'
  · rcases hfiles k hk with ⟨hkept, hcut⟩ | ⟨r, hr, -, rfl⟩
    · rcases hpaths j hj with ⟨hj, -⟩ | ⟨r, -, rfl⟩
      · exact h.tree.leaf k hkept j hj
      · rintro ⟨hp, -⟩
        rcases split_above hp with hp | ⟨t, rfl, -⟩
        · refine hbabove k hkept (fun heq => hnot (heq ▸ hkept)) ⟨hp, ?_⟩
          rintro rfl
          exact hfree k (Or.inl hkept) hcut prefix_rfl
        · exact hfree _ (Or.inl hkept) hcut (prefix_append _ _)
    · rcases hpaths j hj with ⟨hj, hcut⟩ | ⟨r', hr', rfl⟩
      · exact fun hb => hfree j hj hcut ((prefix_append _ _).trans hb.1)
      · rintro ⟨hp, hne⟩
        refine h.tree.leaf _ hr _ hr' ⟨?_, fun heq => hne ?_⟩
        · exact (prefix_append_right_inj _).mpr ((prefix_append_right_inj _).mp hp)
        · rw [append_cancel_left heq]
  · rcases hpaths k hk with ⟨hk, -⟩ | ⟨r, hr, rfl⟩
    · exact h.clean k hk
    · have hr := h.clean _ hr
      rw [mem_append, not_or] at hr ⊢
      exact ⟨hbclean, hr.2⟩

theorem clean_of_subset (ht : t.paths ⊆ insert c s.paths) (hc : [] ∉ c) : t.Clean := by
  intro k hk
  rcases ht hk with rfl | hk
  · exact hc
  · exact h.clean k hk

theorem openPath {p : Str} {flags : Flags} (hplaced : s.Placed (.openPath p flags)) :
    (s.openPath (trimRel p) flags).2.IsTree := by
  unfold Memory.openPath
  dsimp only
  by_cases hexcl : flags.excl = true ∧ s.canonicalIn (trimRel p) ∈ s.files
  · rw [if_pos hexcl]
    exact h.tree
  rw [if_neg hexcl]
  by_cases hmissing : ¬ flags.create = true ∧ s.canonicalIn (trimRel p) ∉ s.files
  · rw [if_pos hmissing]
    exact h.tree
  rw [if_neg hmissing]
  -- The tree with the file in it; an open that truncates only changes its bytes.
  have hcreated : (s.create (s.canonicalIn (trimRel p))).IsTree ∧
      s.canonicalIn (trimRel p) ∈ (s.create (s.canonicalIn (trimRel p))).files := by
    unfold create
    split_ifs with hfile
    · exact ⟨h.tree, hfile⟩
    · have hcreate : flags.create = true := by tauto
      obtain ⟨hfree, habove⟩ := hplaced hcreate hfile
      exact ⟨(h.tree.insertFile (not_live hfree) habove []).congr rfl rfl,
        (mem_insert _).mpr (Or.inl rfl)⟩
  split_ifs
  · refine hcreated.1.mono (fun k hk => ?_) fun k hk => hk
    rcases (mem_insert _).mp hk with rfl | hk
    · exact hcreated.2
    · exact hk
  · exact hcreated.1.congr rfl rfl

theorem remove (p : VPath) : (s.remove p).2.Grown where
  neverForks := by
    obtain ⟨hpaths, hindexed⟩ := remove_spec s p
    exact neverForks_iff.mpr ⟨h.unforked.mono hpaths, hindexed h.indexed⟩
  tree := by
    rw [Memory.remove]
    split_ifs
    · exact h.tree.mono (fun k hk => (mem_erase.mp hk).2) fun k hk => hk
    · exact h.tree
    · exact h.tree.mono (fun k hk => hk) fun k hk => (mem_erase.mp hk).2
    · exact h.tree
  clean k hk := h.clean k ((remove_spec s p).1 hk)

theorem step {c : Call} (hcareful : s.Careful c) (hplaced : s.Placed c) : (s.step c).Grown := by
  have hunforked := neverForks_iff.mpr (unforked_step h.unforked h.indexed hcareful)
  suffices hboth : (s.step c).IsTree ∧ (s.step c).Clean from ⟨hunforked, hboth.1, hboth.2⟩
  cases c with
  | openPath p flags =>
    exact ⟨h.openPath hplaced,
      h.clean_of_subset (openPath_spec s _ flags).1 (h.canonical_clean _)⟩
  | mkdir p =>
    refine ⟨?_, h.clean_of_subset (mkdir_spec s _).1.le (h.canonical_clean _)⟩
    rw [Memory.step, Memory.mkdir]
    dsimp only
    split_ifs
    · exact h.tree
    · exact (h.tree.insertDir hplaced.1 hplaced.2).congr rfl rfl
  | remove p =>
    have hremove := h.remove (trimRel p)
    exact ⟨hremove.tree, hremove.clean⟩
  | onHandle op n =>
    rw [Memory.step]
    rcases onHandle_cases hcareful with ⟨opens, heq⟩ | ⟨path, change, hpath, heq⟩
    · rw [heq]
      exact ⟨h.tree.congr rfl rfl, h.clean⟩
    · rw [heq]
      refine ⟨h.tree.mono (fun k hk => ?_) fun k hk => ?_, ?_⟩
      · simp only [changeBody, if_pos hpath, mem_insert] at hk
        exact hk.elim (fun heq => heq ▸ hpath) id
      · simpa only [changeBody, if_pos hpath] using hk
      · exact h.clean_of_subset (changeBody_spec s path change).1.le
          (h.clean path (Or.inl hpath))
  | rename src dst =>
    rw [Memory.step]
    rcases rename_cases s (trimRel src) (trimRel dst) with
      heq | ⟨body, hfile, hkind, heq⟩ | ⟨hnot, hroot, hocc, heq⟩
    · rw [heq]
      exact ⟨h.tree, h.clean⟩
    · rw [heq]
      exact h.renameFile hfile hkind hcareful hplaced
    · rw [heq]
      exact h.moveAll hnot hroot hocc hcareful hplaced

/-! ### The views -/

theorem getattr_of_live {ℓ : VPath} (hℓ : Live s.paths ℓ)
    (hkeys : ℓ.map fold = (p.filter fun c => c ≠ []).map fold) : s.getattr p = s.statOf ℓ := by
  rw [getattr, canonicalIn_of_live h.neverForks h.clean hℓ hkeys]

theorem canonical_concat {n : Str} (hn : n ≠ []) {st : Stat}
    (hst : s.getattr (d ++ [n]) = some st) :
    ∃ name, fold name = fold n ∧ name ≠ [] ∧ Live s.paths (s.canonicalIn d ++ [name]) ∧
      s.canonicalIn (d ++ [n]) = s.canonicalIn d ++ [name] := by
  have hlive := live_of_statOf hst
  obtain ⟨hclean, hkeys⟩ := canonicalIn_spec h.clean h.indexed (d ++ [n])
  have hfilter : (d ++ [n]).filter (fun c => c ≠ []) = d.filter (fun c => c ≠ []) ++ [n] := by
    simp [hn]
  rw [hfilter, map_append] at hkeys
  obtain ⟨e, t, heq, he, ht⟩ := map_eq_append_iff.mp hkeys
  obtain ⟨name, t', rfl, hname, ht'⟩ := map_eq_cons_iff.mp ht
  obtain rfl := map_eq_nil_iff.mp ht'
  rw [heq] at hlive hclean ⊢
  have hdir : s.canonicalIn d = e :=
    canonicalIn_of_live h.neverForks h.clean (hlive.of_above (prefix_append _ _)) he
  rw [hdir]
  refine ⟨name, hname, ?_, hlive, rfl⟩
  rintro rfl
  exact hclean (by simp)

theorem readdir_eq_ok {es : List DirEntry} (hes : s.readdir d = .ok es) :
    Live s.paths (s.canonicalIn d) ∧
      ∀ e, e ∈ es ↔ e.name ≠ [] ∧ s.statOf (s.canonicalIn d ++ [e.name]) = some e.stat := by
  unfold Memory.readdir at hes
  dsimp only at hes
  split at hes
  · cases hes
  · next st hst =>
      refine ⟨live_of_statOf hst, fun e => ?_⟩
      split_ifs at hes
      cases hes
      have hlookup := h.tree.lookup_listNames (s.canonicalIn d) e.name
      have hmem : e ∈ (s.listNames (s.canonicalIn d)).entries.map (fun r => DirEntry.mk r.1 r.2) ↔
          (s.listNames (s.canonicalIn d)).lookup e.name = some e.stat := by
        have hentry : (s.listNames (s.canonicalIn d)).lookup e.name = some e.stat ↔
            (⟨e.name, e.stat⟩ : Σ _ : Str, Stat) ∈ (s.listNames (s.canonicalIn d)).entries :=
          mem_lookup_iff
        rw [hentry, mem_map]
        constructor
        · rintro ⟨r, hr, rfl⟩
          exact hr
        · exact fun hr => ⟨_, hr, rfl⟩
      rw [hmem, hlookup]
      split_ifs with hne
      · simp [hne]
      · simp [hne]

theorem foldUnique_readdir {es : List DirEntry} (hes : s.readdir d = .ok es) : FoldUnique es := by
  obtain ⟨-, hmem⟩ := h.readdir_eq_ok hes
  have hnames : (es.map DirEntry.name).Nodup := by
    unfold Memory.readdir at hes
    dsimp only at hes
    split at hes
    · cases hes
    · split_ifs at hes
      cases hes
      rw [map_map]
      exact (s.listNames (s.canonicalIn d)).nodupKeys
  refine Nodup.map_on ?_ (Nodup.of_map _ hnames)
  intro e he e' he' hfold
  obtain ⟨-, hst⟩ := (hmem e).mp he
  obtain ⟨-, hst'⟩ := (hmem e').mp he'
  have hname := unforked_iff_siblings.mp h.unforked _ _ _ (live_of_statOf hst)
    (live_of_statOf hst') hfold
  exact inj_on_of_nodup_map hnames he he' hname

omit h in
theorem map_fold_filter (p : VPath) :
    (p.filter fun c => c ≠ []).map fold = (p.map fold).filter fun c => c ≠ [] := by
  rw [filter_map]
  congr 1
  apply filter_congr
  intro c _
  simp [fold_eq_nil]

theorem consistent : s.view.Consistent where
  answers _ := rfl
  folds := by
    -- If one of the two is there, the other is resolved to it.
    have hsome : ∀ {p q : VPath} {st : Stat}, p.map fold = q.map fold → s.getattr p = some st →
        s.getattr q = some st := by
      intro p q st hpq hst
      have hkeys := (canonicalIn_spec h.clean h.indexed p).2
      rw [map_fold_filter, hpq, ← map_fold_filter] at hkeys
      rw [h.getattr_of_live (live_of_statOf hst) hkeys]
      exact hst
    intro p q hpq
    change s.getattr p = s.getattr q
    apply Option.ext
    intro st
    exact ⟨hsome hpq, hsome hpq.symm⟩
  missing := by
    intro d hd
    have hd : s.statOf (s.canonicalIn d) = none := hd
    simp [view, Memory.readdir, hd]
  plain := by
    intro d st hd hk
    have hd : s.statOf (s.canonicalIn d) = some st := hd
    simp [view, Memory.readdir, hd, hk]
  lists := by
    intro d st hd hk
    have hd : s.statOf (s.canonicalIn d) = some st := hd
    have hread : s.readdir d =
        .ok ((s.listNames (s.canonicalIn d)).entries.map fun r => ⟨r.1, r.2⟩) := by
      simp [Memory.readdir, hd, hk]
    exact ⟨_, hread, h.foldUnique_readdir hread⟩
  listed := by
    intro d n e he
    obtain ⟨es, hread, he⟩ := View.shown_eq_some.mp he
    have hread : s.readdir d = .ok es := hread
    obtain ⟨hmem, hfold⟩ := entryAt_eq_some he
    obtain ⟨hne, hst⟩ := ((h.readdir_eq_ok hread).2 e).mp hmem
    have hn : n ≠ [] := by
      rintro rfl
      rw [fold_nil] at hfold
      exact hne (fold_eq_nil.mp hfold)
    change s.getattr (d ++ [n]) = some e.stat
    rw [h.getattr_of_live (live_of_statOf hst), hst]
    rw [map_append, (canonicalIn_spec h.clean h.indexed d).2]
    simp [hn, hfold]
  resolved := by
    intro d n st hn hst
    have hst : s.getattr (d ++ [n]) = some st := hst
    obtain ⟨name, hfold, hne, hlive, hcanon⟩ := h.canonical_concat hn hst
    -- What lies below is there, so that the directory is listed.
    have hdir : s.statOf (s.canonicalIn d) = some ⟨.dir, 0, 0⟩ := by
      refine statOf_eq_dir (hlive.of_above (prefix_append _ _)) fun hfile => ?_
      rcases hlive with hnil | ⟨k, hk, hp⟩
      · simp at hnil
      · refine h.tree.leaf _ hfile k hk ⟨(prefix_append _ _).trans hp, ?_⟩
        rintro rfl
        simpa using hp.length_le
    obtain ⟨es, hread⟩ : ∃ es, s.readdir d = .ok es := ⟨_, by simp [Memory.readdir, hdir]; rfl⟩
    have hmem : (⟨name, st⟩ : DirEntry) ∈ es := by
      apply ((h.readdir_eq_ok hread).2 _).mpr
      exact ⟨hne, by rw [← hcanon]; exact hst⟩
    have hentry := (h.foldUnique_readdir hread).entryAt_of_mem hmem
    rw [hfold] at hentry
    exact ⟨⟨name, st⟩, View.shown_eq_some.mpr ⟨es, hread, hentry⟩⟩
  named _ := Or.inl rfl

theorem getattr_remove (hok : (s.remove p).1 = .ok ()) : (s.remove p).2.getattr p = none := by
  have ht : (s.remove p).2.Grown := h.remove p
  rw [Option.eq_none_iff_forall_ne_some]
  intro st hst
  -- The path was resolved to the same node before.
  have hlive := live_of_statOf hst
  have hcanon : s.canonicalIn p = (s.remove p).2.canonicalIn p :=
    canonicalIn_of_live h.neverForks h.clean (hlive.mono (remove_spec s p).1)
      (canonicalIn_spec ht.clean ht.indexed p).2
  rw [← hcanon] at hlive
  unfold Memory.remove at hok hlive
  dsimp only at hok hlive
  split_ifs at hok hlive with hfile hbelow hdir
  · -- Nothing was at or below a file but the file.
    have hleaf := h.tree.leaf _ hfile
    rcases hlive with hnil | ⟨k, hk | hk, hp⟩
    · exact h.tree.ne_nil _ hfile hnil
    · obtain ⟨hne, hk⟩ := mem_erase.mp hk
      exact hleaf k (Or.inl hk) ⟨hp, Ne.symm hne⟩
    · have hnot := h.tree.not_dir _ hfile
      exact hleaf k (Or.inr hk) ⟨hp, fun heq => hnot (heq ▸ hk)⟩
  · -- Nothing was below the directory.
    have hnone : ∀ k ∈ s.paths, ¬ (Key.Below (s.canonicalIn p) k ∨ s.canonicalIn p = []) :=
      fun k hk hor => hbelow ⟨k, mem_keys.mpr hk, hor⟩
    rcases hlive with hnil | ⟨k, hk | hk, hp⟩
    · exact hnone _ (Or.inr hdir) (Or.inr hnil)
    · exact hnone k (Or.inl hk) (Or.inl ⟨hp, fun heq => hfile (heq ▸ hk)⟩)
    · obtain ⟨hne, hk⟩ := mem_erase.mp hk
      exact hnone k (Or.inr hk) (Or.inl ⟨hp, Ne.symm hne⟩)

end Grown

/-- A directory: the root, one that was made, or one on the way to something stored. -/
def HasDir (s : Memory) (p : VPath) : Prop := p = [] ∨ p ∈ s.dirs ∨ ∃ k ∈ s.paths, Key.Below p k

/-- The files and directories are those of a tree, and the two ways to look at it agree. -/
structure HoldsTree (s : Memory) : Prop where
  notBoth : ∀ p, ¬ (p ∈ s.files ∧ s.HasDir p)
  notAbove : ∀ p ∈ s.files, ∀ k ∈ s.paths, ¬ Key.Below p k
  agree : ∀ d n, n ≠ [] →
    (s.view.shown d n).map (fun e => e.stat.kind) = (s.getattr (d ++ [n])).map Stat.kind

theorem Grown.holdsTree (h : s.Grown) : s.HoldsTree where
  notBoth := by
    rintro p ⟨hfile, hroot | hdir | ⟨k, hk, hbelow⟩⟩
    · exact h.tree.ne_nil p hfile hroot
    · exact h.tree.not_dir p hfile hdir
    · exact h.tree.leaf p hfile k hk hbelow
  notAbove := h.tree.leaf
  agree := by
    intro d n hn
    have hstat : s.view.stat (d ++ [n]) = s.getattr (d ++ [n]) := rfl
    rw [← hstat, ← h.consistent.map_stat_shown d hn, Option.map_map]
    rfl

/-- Through every run of careful calls that put their entries in free places, the tree stays
one. -/
theorem holdsTree_run {s : Memory} (h : s.Grown) {calls : List Call}
    (hcalls : Transition.AllSteps step (fun s c => s.Careful c ∧ s.Placed c) s calls) :
    (Transition.run step s calls).HoldsTree := by
  apply Grown.holdsTree
  refine Transition.run_invariant_of_allSteps (I := Grown) ?_ h hcalls
  intro s c hs hc
  exact hs.step hc.1 hc.2

theorem grown_new : Grown new where
  neverForks := by
    refine @neverForks_fromFiles _ [] fun p q hp hq _ => ?_
    rcases hp with rfl | ⟨k, ⟨e, he, -⟩, -⟩
    · rcases hq with rfl | ⟨k, ⟨e, he, -⟩, -⟩
      · rfl
      · cases he
    · cases he
  tree := by
    have hnot : ∀ k, k ∉ new.files := fun k => notMem_empty k
    exact ⟨fun k hk => absurd hk (hnot k), fun k hk => absurd hk (hnot k),
      fun k hk => absurd hk (hnot k)⟩
  clean := by
    rintro k (hk | hk)
    · cases hk
    · cases hk

end

attribute [local instance] asciiLowercase

def movedUp : List Call :=
  [.mkdir ['D'], .openPath ['d', '/', 'x'] creating, .rename ['D', '/', 'X'] ['y']]

theorem holdsTree_movedUp : (Transition.run step new movedUp).HoldsTree := by
  refine holdsTree_run grown_new ?_
  refine ⟨⟨trivial, ?_⟩, ⟨trivial, fun _ _ => ?_⟩, ⟨fun h => ?_, fun _ => ?_⟩, trivial⟩
  · exact ⟨by decide +kernel, fun k hk => absurd hk (notMem_empty k)⟩
  · exact ⟨by decide +kernel, fun k hk => absurd hk (notMem_empty k)⟩
  · exact absurd h (by decide +kernel)
  · decide +kernel

def madeTwice : List Call := [.openPath ['a'] creating, .mkdir ['a']]

/-- The path is a file and a directory afterwards. -/
theorem madeTwice_both : ¬ (Transition.run step new madeTwice).HoldsTree := by
  intro h
  exact h.notBoth [['a']] ⟨by decide +kernel, Or.inr (Or.inl (by decide +kernel))⟩

end AetherVfs.Compose.Memory
