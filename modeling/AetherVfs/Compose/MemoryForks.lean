import AetherVfs.Compose.Memory
import AetherVfs.Lib.Transition

/-!
# No name is forked

A tree in memory whose directories have no two children that fold to the same name keeps that
property through every call, as long as a renamed entry that replaces another is spelled as the
stored directories are, and nothing is written through the handle of a removed file. The index by
folded path names stored paths throughout.
-/

namespace AetherVfs.Compose.Memory

open Forks List AList

def paths (s : Memory) : Set VPath := {k | k ∈ s.files ∨ k ∈ s.dirs}

variable {s : Memory} {k cur : VPath} {name : Str}

theorem mem_paths : k ∈ s.paths ↔ k ∈ s.files ∨ k ∈ s.dirs := Iff.rfl

theorem mem_keys : k ∈ s.keys ↔ k ∈ s.paths := by
  rw [keys, mem_append]
  rfl

variable {p : VPath}

theorem live_iff :
    Live s.paths p ↔ p = [] ∨ p ∈ s.files ∨ p ∈ s.dirs ∨ ∃ k ∈ s.keys, Key.Below p k := by
  constructor
  · rintro (rfl | ⟨k, hk, hp⟩)
    · exact Or.inl rfl
    · by_cases heq : p = k
      · subst heq
        rcases hk with hk | hk
        · exact Or.inr (Or.inl hk)
        · exact Or.inr (Or.inr (Or.inl hk))
      · exact Or.inr (Or.inr (Or.inr ⟨k, mem_keys.mpr hk, hp, heq⟩))
  · rintro (rfl | hf | hd | ⟨k, hk, hp, -⟩)
    · exact Or.inl rfl
    · exact live_of_mem (Or.inl hf)
    · exact live_of_mem (Or.inr hd)
    · exact Or.inr ⟨k, mem_keys.mp hk, hp⟩

theorem isSome_statOf : (s.statOf p).isSome ↔ Live s.paths p := by
  rw [live_iff, statOf]
  by_cases hroot : p = []
  · simp [hroot]
  rw [if_neg hroot]
  cases hf : s.files.lookup p with
  | some b =>
    have hmem : p ∈ s.files := Table.mem_of_lookup hf
    simp [hmem]
  | none =>
    have hmem : p ∉ s.files := lookup_eq_none.mp hf
    simp only [hroot, hmem, false_or]
    split_ifs with h
    · simpa using h
    · simpa using h

theorem live_of_statOf {st : Stat} (h : s.statOf p = some st) : Live s.paths p :=
  isSome_statOf.mp (h ▸ rfl)

theorem statOf_eq_dir (hlive : Live s.paths p) (hfile : p ∉ s.files) :
    s.statOf p = some ⟨.dir, 0, 0⟩ := by
  rw [live_iff] at hlive
  by_cases hroot : p = []
  · rw [statOf, if_pos hroot]
  · rw [statOf, if_neg hroot, lookup_eq_none.mpr hfile]
    exact if_pos ((hlive.resolve_left hroot).resolve_left hfile)

theorem statOf_eq_file (hroot : p ≠ []) {b : Bytes} (hfile : s.files.lookup p = some b) :
    s.statOf p = some ⟨.file, b.length, 0⟩ := by
  rw [statOf, if_neg hroot, hfile]

theorem mem_childNames : name ∈ s.childNames cur ↔ Live s.paths (cur ++ [name]) := by
  rw [childNames, mem_filterMap]
  constructor
  · rintro ⟨k, hk, h⟩
    split_ifs at h with hcur
    obtain ⟨rest, rfl⟩ := hcur
    rw [drop_left, head?_eq_some_iff] at h
    obtain ⟨tail, rfl⟩ := h
    exact Or.inr ⟨_, mem_keys.mp hk, ⟨tail, by simp⟩⟩
  · rintro (h | ⟨k, hk, rest, rfl⟩)
    · simp at h
    · refine ⟨_, mem_keys.mpr hk, ?_⟩
      rw [append_assoc, if_pos (prefix_append _ _), drop_left]
      rfl

variable [ToLowercase]

/-- Every entry of the index names a stored path that folds to it. -/
def Indexed (s : Memory) : Prop :=
  ∀ f k, s.byFold.lookup f = some k → k ∈ s.paths ∧ k.map fold = f

section Resolution

variable {s : Memory}

theorem better_cases (part : Str) (best : Option Str) (name : Str) :
    (better part best name = best ∧ (name ≠ [] → fold name ≠ fold part)) ∨
      ∃ x, better part best name = some x ∧ (best = some x ∨ x = name) ∧ name ≠ [] ∧
        fold name = fold part := by
  unfold better
  by_cases h : name = [] ∨ fold name ≠ fold part
  · rw [if_pos h]
    exact Or.inl ⟨rfl, h.resolve_left⟩
  · rw [if_neg h]
    rw [not_or, not_not] at h
    right
    cases best with
    | none => exact ⟨name, rfl, Or.inr rfl, h⟩
    | some prev =>
      by_cases hle : prev ≤ name
      · exact ⟨prev, if_pos hle, Or.inl rfl, h⟩
      · exact ⟨name, if_neg hle, Or.inr rfl, h⟩

theorem foldl_better (part : Str) (names : List Str) (start : Option Str) :
    (∀ name, names.foldl (better part) start = some name →
      start = some name ∨ name ∈ names ∧ name ≠ [] ∧ fold name = fold part) ∧
    (names.foldl (better part) start = none →
      start = none ∧ ∀ name ∈ names, name ≠ [] → fold name ≠ fold part) := by
  induction names generalizing start with
  | nil => simp
  | cons a names ih =>
    rw [foldl_cons]
    obtain ⟨hsome, hnone⟩ := ih (better part start a)
    rcases better_cases part start a with ⟨hsame, hno⟩ | ⟨x, hx, hfrom, ha⟩
    · rw [hsame] at hsome hnone ⊢
      refine ⟨fun name h => ?_, fun h => ?_⟩
      · exact (hsome name h).imp_right fun ⟨hmem, h⟩ => ⟨mem_cons_of_mem _ hmem, h⟩
      · obtain ⟨hstart, hall⟩ := hnone h
        exact ⟨hstart, forall_mem_cons.mpr ⟨hno, hall⟩⟩
    · rw [hx] at hsome hnone ⊢
      refine ⟨fun name h => ?_, fun h => absurd (hnone h).1 (by simp)⟩
      rcases hsome name h with h | ⟨hmem, h⟩
      · cases h
        rcases hfrom with hfrom | rfl
        · exact Or.inl hfrom
        · exact Or.inr ⟨mem_cons_self, ha⟩
      · exact Or.inr ⟨mem_cons_of_mem _ hmem, h⟩

theorem best_eq_some {part : Str} (h : s.best cur part = some name) :
    Live s.paths (cur ++ [name]) ∧ name ≠ [] ∧ fold name = fold part := by
  rcases (foldl_better part (s.childNames cur) none).1 name h with h | ⟨hmem, h⟩
  · cases h
  · exact ⟨mem_childNames.mp hmem, h⟩

theorem best_eq_none {part : Str} (h : s.best cur part = none)
    (hlive : Live s.paths (cur ++ [name])) (hne : name ≠ []) : fold name ≠ fold part :=
  ((foldl_better part (s.childNames cur) none).2 h).2 name (mem_childNames.mpr hlive) hne

theorem walk_fits (h : Unforked fold s.paths) {parts : List Str} (hparts : ∀ c ∈ parts, c ≠ [])
    (hcur : Live s.paths cur) : Fits fold s.paths (s.walk cur parts) := by
  induction parts generalizing cur with
  | nil => exact h.fits_of_live hcur
  | cons part parts ih =>
    rw [forall_mem_cons] at hparts
    rw [walk]
    split_ifs with hexact
    · exact ih hparts.2 (isSome_statOf.mp hexact)
    · cases hbest : s.best cur part with
      | some name => exact ih hparts.2 (best_eq_some hbest).1
      | none =>
        refine h.fits_append hcur (fun b hb heq => ?_) parts
        refine best_eq_none hbest hb ?_ heq
        rintro rfl
        exact hparts.1 (fold_eq_nil.mp (heq.symm.trans fold_nil))

theorem canonicalIn_fits (h : Unforked fold s.paths) (hidx : s.Indexed) (p : VPath) :
    Fits fold s.paths (s.canonicalIn p) := by
  rw [canonicalIn]
  split_ifs with hroot hstored
  · exact h.fits_of_live (Or.inl rfl)
  · exact h.fits_of_live (live_of_mem hstored)
  · cases hhit : s.byFold.lookup (p.map fold) with
    | some hit => exact h.fits_of_live (live_of_mem (hidx _ _ hhit).1)
    | none =>
      refine walk_fits h (fun c hc => ?_) (Or.inl rfl)
      simpa using (mem_filter.mp hc).2

end Resolution

/-! ## The index -/

section Index

variable {s t : Memory}

theorem Indexed.insert (h : s.Indexed) (hkeep : s.paths ⊆ t.paths) (hidx : t.byFold = s.byFold)
    {key : VPath} (hkey : key ∈ t.paths) : (t.indexInsert key).Indexed := by
  intro f k hk
  rw [indexInsert, Table.lookup_insert_eq_ite, hidx] at hk
  split_ifs at hk with hf
  · cases hk
    exact ⟨hkey, hf.symm⟩
  · exact ⟨hkeep (h f k hk).1, (h f k hk).2⟩

theorem Indexed.remove (h : s.Indexed) {key : VPath} (hkeep : ∀ k ∈ s.paths, k ≠ key → k ∈ t.paths)
    (hidx : t.byFold = s.byFold) : (t.indexRemove key).Indexed := by
  intro f k hk
  rw [indexRemove, Table.lookup_erase_eq_ite, hidx] at hk
  split_ifs at hk with hf
  obtain ⟨hmem, hfold⟩ := h f k hk
  refine ⟨hkeep k hmem ?_, hfold⟩
  rintro rfl
  exact hf hfold.symm

theorem Indexed.mono (h : s.Indexed) (hkeep : s.paths ⊆ t.paths) (hidx : t.byFold = s.byFold) :
    t.Indexed := by
  intro f k hk
  rw [hidx] at hk
  exact ⟨hkeep (h f k hk).1, (h f k hk).2⟩

end Index

/-! ## What each call does to the stored paths -/

section Paths

variable {s : Memory}

omit [ToLowercase] in
theorem paths_insertFile (s : Memory) (k : VPath) (b : Bytes) :
    { s with files := s.files.insert k b }.paths = insert k s.paths := by
  ext j
  simp only [mem_paths, mem_insert, Set.mem_insert_iff]
  tauto

omit [ToLowercase] in
theorem paths_insertDir (s : Memory) (k : VPath) :
    { s with dirs := s.dirs.insert k () }.paths = insert k s.paths := by
  ext j
  simp only [mem_paths, mem_insert, Set.mem_insert_iff]
  tauto

omit [ToLowercase] in
theorem paths_eraseFile_subset (s : Memory) (k : VPath) :
    { s with files := s.files.erase k }.paths ⊆ s.paths := by
  intro j hj
  simp only [mem_paths, mem_erase] at hj ⊢
  tauto

omit [ToLowercase] in
theorem paths_eraseDir_subset (s : Memory) (k : VPath) :
    { s with dirs := s.dirs.erase k }.paths ⊆ s.paths := by
  intro j hj
  simp only [mem_paths, mem_erase] at hj ⊢
  tauto

omit [ToLowercase] in
theorem mem_paths_eraseFile (s : Memory) (k : VPath) :
    ∀ j ∈ s.paths, j ≠ k → j ∈ { s with files := s.files.erase k }.paths := by
  intro j hj hne
  simp only [mem_paths, mem_erase] at hj ⊢
  tauto

omit [ToLowercase] in
theorem mem_paths_eraseDir (s : Memory) (k : VPath) :
    ∀ j ∈ s.paths, j ≠ k → j ∈ { s with dirs := s.dirs.erase k }.paths := by
  intro j hj hne
  simp only [mem_paths, mem_erase] at hj ⊢
  tauto

theorem Indexed.insertFile (h : s.Indexed) (k : VPath) (b : Bytes) :
    ({ s with files := s.files.insert k b }.indexInsert k).Indexed := by
  have hpaths := paths_insertFile s k b
  exact h.insert (t := { s with files := s.files.insert k b })
    (by rw [hpaths]; exact Set.subset_insert _ _) rfl (by rw [hpaths]; exact Set.mem_insert _ _)

theorem Indexed.insertDir (h : s.Indexed) (k : VPath) :
    ({ s with dirs := s.dirs.insert k () }.indexInsert k).Indexed := by
  have hpaths := paths_insertDir s k
  exact h.insert (t := { s with dirs := s.dirs.insert k () })
    (by rw [hpaths]; exact Set.subset_insert _ _) rfl (by rw [hpaths]; exact Set.mem_insert _ _)

theorem Indexed.eraseFile (h : s.Indexed) (k : VPath) :
    ({ s with files := s.files.erase k }.indexRemove k).Indexed :=
  h.remove (mem_paths_eraseFile s k) rfl

theorem Indexed.eraseDir (h : s.Indexed) (k : VPath) :
    ({ s with dirs := s.dirs.erase k }.indexRemove k).Indexed :=
  h.remove (mem_paths_eraseDir s k) rfl

theorem create_spec (s : Memory) (path : VPath) :
    (s.create path).paths = insert path s.paths ∧ (s.Indexed → (s.create path).Indexed) := by
  unfold create
  split_ifs with h
  · exact ⟨(Set.insert_eq_of_mem (mem_paths.mpr (Or.inl h))).symm, id⟩
  · exact ⟨paths_insertFile s path [], fun hidx => hidx.insertFile path []⟩

theorem openPath_spec (s : Memory) (p : VPath) (flags : Flags) :
    (s.openPath p flags).2.paths ⊆ insert (s.canonicalIn p) s.paths ∧
      (s.Indexed → (s.openPath p flags).2.Indexed) := by
  obtain ⟨hpaths, hindexed⟩ := create_spec s (s.canonicalIn p)
  have htrunc : ((s.create (s.canonicalIn p)).truncate (s.canonicalIn p)).paths =
      insert (s.canonicalIn p) s.paths := by
    rw [truncate, paths_insertFile, hpaths, Set.insert_eq_of_mem (Set.mem_insert _ _)]
  unfold openPath
  dsimp only
  split_ifs
  · exact ⟨Set.subset_insert _ _, id⟩
  · exact ⟨Set.subset_insert _ _, id⟩
  · refine ⟨htrunc.le, fun h => (hindexed h).mono ?_ rfl⟩
    rw [hpaths]
    exact htrunc.ge
  · exact ⟨hpaths.le, fun h => (hindexed h).mono le_rfl rfl⟩

theorem changeBody_spec (s : Memory) (path : VPath) (change : Bytes → Bytes) :
    (s.changeBody path change).paths = insert path s.paths ∧
      (s.Indexed → (s.changeBody path change).Indexed) := by
  unfold changeBody
  dsimp only
  split_ifs with h
  · refine ⟨paths_insertFile s path _, fun hidx => hidx.mono ?_ rfl⟩
    rw [paths_insertFile]
    exact Set.subset_insert _ _
  · exact ⟨paths_insertFile s path _, fun hidx => hidx.insertFile path _⟩

theorem mkdir_spec (s : Memory) (p : VPath) :
    (s.mkdir p).2.paths = insert (s.canonicalIn p) s.paths ∧
      (s.Indexed → (s.mkdir p).2.Indexed) := by
  unfold mkdir
  dsimp only
  split_ifs with h
  · exact ⟨(Set.insert_eq_of_mem (mem_paths.mpr (Or.inr h))).symm, id⟩
  · exact ⟨paths_insertDir s _, fun hidx => hidx.insertDir _⟩

theorem remove_spec (s : Memory) (p : VPath) :
    (s.remove p).2.paths ⊆ s.paths ∧ (s.Indexed → (s.remove p).2.Indexed) := by
  unfold remove
  dsimp only
  split_ifs
  · exact ⟨paths_eraseFile_subset s _, fun h => h.eraseFile _⟩
  · exact ⟨le_rfl, id⟩
  · exact ⟨paths_eraseDir_subset s _, fun h => h.eraseDir _⟩
  · exact ⟨le_rfl, id⟩

/-- What the rename of a file leaves of the files: the new one, and those that are neither the
old one nor the one it replaced. -/
theorem renameFile_spec (s : Memory) (src dstC base : VPath) (body : Bytes) :
    (s.renameFile src dstC base body).dirs = s.dirs ∧
      (∀ k ∈ (s.renameFile src dstC base body).files,
        k = base ∨ k ∈ s.files ∧ k ≠ src ∧ ((s.statOf dstC).isSome → k ≠ dstC)) ∧
      (s.Indexed → (s.renameFile src dstC base body).Indexed) := by
  unfold renameFile
  dsimp only
  split_ifs with h
  · refine ⟨rfl, fun k hk => ?_, fun hidx => ?_⟩
    · have hk : k ∈ ((s.files.erase dstC).erase src).insert base body := hk
      rw [mem_insert, mem_erase, mem_erase] at hk
      tauto
    · exact ((hidx.eraseFile dstC).eraseFile src).insertFile base body
  · refine ⟨rfl, fun k hk => ?_, fun hidx => ?_⟩
    · have hk : k ∈ (s.files.erase src).insert base body := hk
      rw [mem_insert, mem_erase] at hk
      rcases hk with hk | ⟨hne, hk⟩
      · exact Or.inl hk
      · refine Or.inr ⟨hk, hne, fun hsome heq => h ⟨hsome, ?_⟩⟩
        exact heq ▸ hne
    · exact (hidx.eraseFile src).insertFile base body

theorem moveFiles_spec (src base : VPath) (moving : List VPath) (s : Memory) :
    (moveFiles src base s moving).files = Table.rekey (rewrite src base) [] s.files moving ∧
      (moveFiles src base s moving).dirs = s.dirs ∧
      (s.Indexed → (moveFiles src base s moving).Indexed) := by
  induction moving generalizing s with
  | nil => exact ⟨rfl, rfl, id⟩
  | cons old rest ih =>
    obtain ⟨hfiles, hdirs, hidx⟩ := ih _
    exact ⟨hfiles, hdirs, fun h => hidx ((h.eraseFile old).insertFile (rewrite src base old) _)⟩

theorem moveDirs_spec (src base : VPath) (moving : List VPath) (s : Memory) :
    (moveDirs src base s moving).dirs = Table.rekey (rewrite src base) () s.dirs moving ∧
      (moveDirs src base s moving).files = s.files ∧
      (s.Indexed → (moveDirs src base s moving).Indexed) := by
  induction moving generalizing s with
  | nil => exact ⟨rfl, rfl, id⟩
  | cons old rest ih =>
    obtain ⟨hdirs, hfiles, hidx⟩ := ih _
    exact ⟨hdirs, hfiles, fun h => hidx ((h.eraseDir old).insertDir (rewrite src base old))⟩

theorem files_moveAll (s : Memory) (src base : VPath) : (s.moveAll src base).files =
    Table.rekey (rewrite src base) [] s.files (s.movingFiles src) := by
  rw [moveAll, (moveDirs_spec _ _ _ _).2.1, (moveFiles_spec _ _ _ _).1]

theorem dirs_moveAll (s : Memory) (src base : VPath) : (s.moveAll src base).dirs =
    Table.rekey (rewrite src base) () s.dirs (s.movingDirs src) := by
  rw [moveAll, (moveDirs_spec _ _ _ _).1, (moveFiles_spec _ _ _ _).2.1]

variable {src base : VPath}

theorem mem_files_moveAll (hsrc : src ∉ s.files) (hk : k ∈ (s.moveAll src base).files) :
    k ∈ s.files ∧ ¬ src <+: k ∨ ∃ r, src ++ r ∈ s.files ∧ r ≠ [] ∧ k = base ++ r := by
  rw [files_moveAll] at hk
  rcases Table.mem_rekey hk with ⟨hk, hnot⟩ | ⟨old, hold, rfl⟩
  · refine Or.inl ⟨hk, fun hpre => hnot ?_⟩
    refine mem_filter.mpr ⟨hk, ?_⟩
    rw [decide_eq_true_eq]
    exact Or.inl ⟨hpre, fun heq => hsrc (heq ▸ hk)⟩
  · obtain ⟨hfile, hbelow⟩ := mem_filter.mp hold
    have hfile : old ∈ s.files := hfile
    rw [decide_eq_true_eq] at hbelow
    have hne : src ≠ old := fun heq => hsrc (heq ▸ hfile)
    obtain ⟨r, rfl⟩ : src <+: old := by
      rcases hbelow with h | rfl
      · exact h.1
      · exact nil_prefix
    refine Or.inr ⟨r, hfile, ?_, by rw [rewrite, drop_left]⟩
    rintro rfl
    exact hne (append_nil _).symm

theorem mem_dirs_moveAll (hk : k ∈ (s.moveAll src base).dirs) :
    k ∈ s.dirs ∧ ¬ src <+: k ∨ ∃ r, src ++ r ∈ s.dirs ∧ k = base ++ r := by
  rw [dirs_moveAll] at hk
  rcases Table.mem_rekey hk with ⟨hk, hnot⟩ | ⟨old, hold, rfl⟩
  · refine Or.inl ⟨hk, fun hpre => hnot (mem_filter.mpr ⟨hk, ?_⟩)⟩
    simpa using hpre
  · obtain ⟨hdir, hbelow⟩ := mem_filter.mp hold
    rw [decide_eq_true_eq] at hbelow
    obtain ⟨r, rfl⟩ := hbelow
    exact Or.inr ⟨r, hdir, by rw [rewrite, drop_left]⟩

theorem paths_moveAll (hsrc : src ∉ s.files) :
    (s.moveAll src base).paths ⊆ moved s.paths src base := by
  intro k hk
  rcases hk with hk | hk
  · rcases mem_files_moveAll hsrc hk with ⟨hk, hnot⟩ | ⟨r, hr, -, rfl⟩
    · exact Or.inl ⟨Or.inl hk, hnot⟩
    · exact Or.inr ⟨r, Or.inl hr, rfl⟩
  · rcases mem_dirs_moveAll hk with ⟨hk, hnot⟩ | ⟨r, hr, rfl⟩
    · exact Or.inl ⟨Or.inr hk, hnot⟩
    · exact Or.inr ⟨r, Or.inr hr, rfl⟩

theorem Indexed.moveAll (h : s.Indexed) (src base : VPath) : (s.moveAll src base).Indexed :=
  (moveDirs_spec _ _ _ _).2.2 ((moveFiles_spec _ _ _ _).2.2 h)

theorem rename_outcomes (s : Memory) (src dst : VPath) :
    (∃ e, s.rename src dst = (.error e, s)) ∨
    (src = dst ∧ s.rename src dst = (.ok (), s)) ∨
    (∃ body, s.files.lookup (s.canonicalIn src) = some body ∧
      (s.canonicalIn dst ≠ s.canonicalIn src →
        (s.statOf (s.canonicalIn dst)).map Stat.kind ≠ some .dir) ∧
      s.rename src dst = (.ok (),
        s.renameFile (s.canonicalIn src) (s.canonicalIn dst) (s.insertBase dst) body)) ∨
    (s.canonicalIn src ∉ s.files ∧ s.canonicalIn src ≠ [] ∧
      ((s.statOf (s.canonicalIn dst)).isSome → s.canonicalIn dst = s.canonicalIn src) ∧
      s.rename src dst = (.ok (), s.moveAll (s.canonicalIn src) (s.insertBase dst))) := by
  unfold rename
  dsimp only
  by_cases hsame : src = dst
  · rw [if_pos hsame]
    exact Or.inr (Or.inl ⟨hsame, rfl⟩)
  rw [if_neg hsame]
  cases hfile : s.files.lookup (s.canonicalIn src) with
  | some body =>
    dsimp only
    split_ifs with hdir
    · exact Or.inl ⟨_, rfl⟩
    · rw [not_and] at hdir
      exact Or.inr (Or.inr (Or.inl ⟨body, rfl, hdir, rfl⟩))
  | none =>
    have hnot : s.canonicalIn src ∉ s.files := lookup_eq_none.mp hfile
    dsimp only
    split_ifs with hempty hinto hocc
    · exact Or.inl ⟨_, rfl⟩
    · exact Or.inl ⟨_, rfl⟩
    · exact Or.inl ⟨_, rfl⟩
    · refine Or.inr (Or.inr (Or.inr ⟨hnot, fun h => hinto (Or.inr h), fun hsome => ?_, rfl⟩))
      by_contra hne
      exact hocc ⟨hsome, hne⟩

theorem rename_cases (s : Memory) (src dst : VPath) :
    (s.rename src dst).2 = s ∨
    (∃ body, s.files.lookup (s.canonicalIn src) = some body ∧
      (s.canonicalIn dst ≠ s.canonicalIn src →
        (s.statOf (s.canonicalIn dst)).map Stat.kind ≠ some .dir) ∧
      (s.rename src dst).2 =
        s.renameFile (s.canonicalIn src) (s.canonicalIn dst) (s.insertBase dst) body) ∨
    (s.canonicalIn src ∉ s.files ∧ s.canonicalIn src ≠ [] ∧
      ((s.statOf (s.canonicalIn dst)).isSome → s.canonicalIn dst = s.canonicalIn src) ∧
      (s.rename src dst).2 = s.moveAll (s.canonicalIn src) (s.insertBase dst)) := by
  obtain ⟨e, heq⟩ | ⟨-, heq⟩ | ⟨body, hfile, hkind, heq⟩ | ⟨hnot, hroot, hocc, heq⟩ :=
    rename_outcomes s src dst
  · exact Or.inl (by rw [heq])
  · exact Or.inl (by rw [heq])
  · exact Or.inr (Or.inl ⟨body, hfile, hkind, by rw [heq]⟩)
  · exact Or.inr (Or.inr ⟨hnot, hroot, hocc, by rw [heq]⟩)

end Paths

/-! ## Runs -/

/-- Nothing else is stored at or below the path. -/
def Alone (s : Memory) (c : VPath) : Prop :=
  (∀ k ∈ s.dirs, ¬ c <+: k) ∧ ∀ k ∈ s.files, c <+: k → k = c

/-- A call that does not fork a name. Through a handle only a file that is still there is
written. A rename onto something that is there spells the directories of the destination as they
are stored, and if it spells the destination itself differently, a file is replaced that nothing
else is stored at or below. -/
def Careful (s : Memory) : Call → Prop
  | .onHandle (.writeAt _ _) h | .onHandle (.setLen _) h =>
    ∀ path, s.opens.map.lookup h = some path → path ∈ s.files
  | .rename src dst =>
    let dst := trimRel dst
    let dstC := s.canonicalIn dst
    (s.statOf dstC).isSome →
      dst.map fold = dstC.map fold ∧ dst.dropLast = dstC.dropLast ∧
        (dst ≠ dstC → s.canonicalIn (trimRel src) ∈ s.files → s.Alone dstC)
  | _ => True

/-- Through a handle, only the body of a file that is there is changed. -/
theorem onHandle_cases {op : HandleOp} {n : Handle} (hc : s.Careful (.onHandle op n)) :
    (∃ opens, (s.onHandle op n).2 = { s with opens := opens }) ∨
      ∃ path change, path ∈ s.files ∧ (s.onHandle op n).2 = s.changeBody path change := by
  rw [onHandle]
  cases hopen : s.opens.map.lookup n with
  | none => exact Or.inl ⟨_, rfl⟩
  | some path =>
    cases op with
    | readAt offset len => exact Or.inl ⟨s.opens, by dsimp only; split <;> rfl⟩
    | writeAt offset data => exact Or.inr ⟨path, _, hc path hopen, rfl⟩
    | setLen len => exact Or.inr ⟨path, (resize · len), hc path hopen, rfl⟩
    | flush => exact Or.inl ⟨_, rfl⟩
    | close => exact Or.inl ⟨_, rfl⟩

section Step

variable {s : Memory} (h : Unforked fold s.paths)

include h

theorem unforked_renameFile (hidx : s.Indexed) {src dst : Str} {body : Bytes}
    (hfile : s.files.lookup (s.canonicalIn (trimRel src)) = some body)
    (hcareful : s.Careful (.rename src dst)) :
    Unforked fold (s.renameFile (s.canonicalIn (trimRel src)) (s.canonicalIn (trimRel dst))
      (s.insertBase (trimRel dst)) body).paths := by
  generalize hdstC : s.canonicalIn (trimRel dst) = dstC at *
  have hfits : Fits fold s.paths dstC := hdstC ▸ canonicalIn_fits h hidx _
  -- What the rename leaves beside the new path.
  let rest : Set VPath := {k | k ∈ s.dirs ∨
    k ∈ s.files ∧ k ≠ s.canonicalIn (trimRel src) ∧ ((s.statOf dstC).isSome → k ≠ dstC)}
  have hrest : rest ⊆ s.paths := by
    rintro k (hk | ⟨hk, -⟩)
    · exact Or.inr hk
    · exact Or.inl hk
  have hsub : (s.renameFile (s.canonicalIn (trimRel src)) dstC (s.insertBase (trimRel dst))
      body).paths ⊆ insert (s.insertBase (trimRel dst)) rest := by
    obtain ⟨hdirs, hfiles, -⟩ := renameFile_spec s (s.canonicalIn (trimRel src)) dstC
      (s.insertBase (trimRel dst)) body
    rintro k (hk | hk)
    · rcases hfiles k hk with rfl | hk
      · exact Set.mem_insert _ _
      · exact Or.inr (Or.inr hk)
    · exact Or.inr (Or.inl (hdirs ▸ hk))
  refine ((h.mono hrest).insert ?_).mono hsub
  unfold insertBase
  rw [hdstC]
  split_ifs with hsome
  · have hc := hcareful (by rw [hdstC]; exact hsome)
    rw [hdstC] at hc
    obtain ⟨hkeys, hdrop, halone⟩ := hc
    by_cases hsame : trimRel dst = dstC
    · rw [hsame]
      exact hfits.mono hrest
    · refine h.fits_respelled (isSome_statOf.mp hsome) hkeys hdrop hrest ?_
      have hmem : s.canonicalIn (trimRel src) ∈ s.files :=
        Table.mem_of_lookup hfile
      obtain ⟨hdirs, hfiles⟩ := halone hsame hmem
      rintro (rfl | ⟨k, hk | ⟨hk, -, hne⟩, hp⟩)
      · exact hsame (map_eq_nil_iff.mp hkeys)
      · exact hdirs k hk hp
      · exact hne hsome (hfiles k hk hp)
  · exact hfits.mono hrest

theorem unforked_moveAll (hidx : s.Indexed) {src dst : Str}
    (hcareful : s.Careful (.rename src dst)) (hnot : s.canonicalIn (trimRel src) ∉ s.files)
    (hroot : s.canonicalIn (trimRel src) ≠ [])
    (hocc : (s.statOf (s.canonicalIn (trimRel dst))).isSome →
      s.canonicalIn (trimRel dst) = s.canonicalIn (trimRel src)) :
    Unforked fold (s.moveAll (s.canonicalIn (trimRel src)) (s.insertBase (trimRel dst))).paths := by
  refine Unforked.mono (paths_moveAll hnot) ?_
  by_cases hsome : (s.statOf (s.canonicalIn (trimRel dst))).isSome
  · rw [insertBase, if_pos hsome]
    obtain ⟨hkeys, hdrop, -⟩ := hcareful hsome
    have hlive := isSome_statOf.mp hsome
    rw [hocc hsome] at hkeys hdrop hlive
    have hgone := not_live_cut (K := s.paths) hroot
    refine h.moved (h.fits_respelled hlive hkeys hdrop (cut_subset _ _) hgone) ?_
    intro k hk hp
    have hdst : Live s.paths (trimRel dst) := Or.inr ⟨k, hk.1, hp⟩
    exact hk.2 (h _ _ hdst hlive hkeys ▸ hp)
  · rw [insertBase, if_neg hsome]
    refine h.moved ((canonicalIn_fits h hidx _).mono (cut_subset _ _)) ?_
    intro k hk hp
    exact hsome (isSome_statOf.mpr (Or.inr ⟨k, hk.1, hp⟩))

theorem unforked_step (hidx : s.Indexed) {c : Call} (hc : s.Careful c) :
    Unforked fold (s.step c).paths ∧ (s.step c).Indexed := by
  cases c with
  | openPath p flags =>
    obtain ⟨hpaths, hindexed⟩ := openPath_spec s (trimRel p) flags
    exact ⟨(h.insert (canonicalIn_fits h hidx _)).mono hpaths, hindexed hidx⟩
  | mkdir p =>
    obtain ⟨hpaths, hindexed⟩ := mkdir_spec s (trimRel p)
    exact ⟨(h.insert (canonicalIn_fits h hidx _)).mono hpaths.le, hindexed hidx⟩
  | remove p =>
    obtain ⟨hpaths, hindexed⟩ := remove_spec s (trimRel p)
    exact ⟨h.mono hpaths, hindexed hidx⟩
  | onHandle op n =>
    rw [step]
    rcases onHandle_cases hc with ⟨opens, heq⟩ | ⟨path, change, hpath, heq⟩
    · rw [heq]
      exact ⟨h, hidx⟩
    · obtain ⟨hpaths, hindexed⟩ := changeBody_spec s path change
      rw [Set.insert_eq_of_mem (mem_paths.mpr (Or.inl hpath))] at hpaths
      rw [heq]
      exact ⟨hpaths ▸ h, hindexed hidx⟩
  | rename src dst =>
    rw [step]
    rcases rename_cases s (trimRel src) (trimRel dst) with
      heq | ⟨body, hfile, -, heq⟩ | ⟨hnot, hroot, hocc, heq⟩
    · rw [heq]
      exact ⟨h, hidx⟩
    · rw [heq]
      exact ⟨unforked_renameFile h hidx hfile hc, (renameFile_spec s _ _ _ _).2.2 hidx⟩
    · rw [heq]
      exact ⟨unforked_moveAll h hidx hc hnot hroot hocc, hidx.moveAll _ _⟩

end Step

/-- The names of the children of a directory, as the stored paths have them. -/
def HasChild (s : Memory) (d : VPath) (name : Str) : Prop := ∃ k ∈ s.paths, d ++ [name] <+: k

/-- No directory has two children whose names fold to the same, and the index names stored
paths under their fold. -/
def NeverForks (s : Memory) : Prop :=
  (∀ d a b, s.HasChild d a → s.HasChild d b → fold a = fold b → a = b) ∧ s.Indexed

theorem neverForks_iff : s.NeverForks ↔ Unforked fold s.paths ∧ s.Indexed := by
  have hlive : ∀ d a, Live s.paths (d ++ [a]) ↔ s.HasChild d a := by
    intro d a
    simp [Live, HasChild]
  rw [NeverForks, unforked_iff_siblings]
  simp only [hlive]

/-- Through every run of careful calls from a tree without forks, no name is forked. -/
theorem neverForks_run {s : Memory} (h : s.NeverForks) {calls : List Call}
    (hcareful : Transition.AllSteps step Careful s calls) :
    (Transition.run step s calls).NeverForks := by
  refine Transition.run_invariant_of_allSteps (I := NeverForks) ?_ h hcareful
  intro s c hs hc
  obtain ⟨hunforked, hidx⟩ := neverForks_iff.mp hs
  exact neverForks_iff.mpr (unforked_step hunforked hidx hc)

theorem neverForks_fromFiles {entries : List (Str × Bytes)}
    (h : Unforked fold {k | ∃ e ∈ entries, k = trimRel e.1}) : (fromFiles entries).NeverForks := by
  have hloop : ∀ (entries : List (Str × Bytes)) (s : Memory), s.Indexed →
      let t := entries.foldl (fun s e =>
        { s with files := s.files.insert (trimRel e.1) e.2 }.indexInsert (trimRel e.1)) s
      t.Indexed ∧ t.paths ⊆ s.paths ∪ {k | ∃ e ∈ entries, k = trimRel e.1} := by
    intro entries
    induction entries with
    | nil =>
      intro s hs
      exact ⟨hs, Set.subset_union_left⟩
    | cons e entries ih =>
      intro s hs
      obtain ⟨hidx, hsub⟩ := ih _ (hs.insertFile (trimRel e.1) e.2)
      refine ⟨hidx, hsub.trans ?_⟩
      rintro k (hk | ⟨e', he', rfl⟩)
      · have hk : k ∈ { s with files := s.files.insert (trimRel e.1) e.2 }.paths := hk
        rw [paths_insertFile] at hk
        rcases hk with rfl | hk
        · exact Or.inr ⟨e, mem_cons_self, rfl⟩
        · exact Or.inl hk
      · exact Or.inr ⟨e', mem_cons_of_mem _ he', rfl⟩
  have hnew : Indexed new := by
    intro f k hk
    cases hk
  obtain ⟨hidx, hsub⟩ := hloop entries new hnew
  refine neverForks_iff.mpr ⟨h.mono (hsub.trans ?_), hidx⟩
  rintro k (hk | hk)
  · rcases hk with hk | hk
    · cases hk
    · cases hk
  · exact hk

section Spellings

omit [ToLowercase]

def creating : Flags := ⟨true, true, false, false⟩

/-- Two files made under two spellings of one directory, and one of them renamed there. -/
def sameDirectory : List Call :=
  [.openPath ['D', '/', 'x'] creating, .openPath ['d', '/', 'y'] creating,
    .rename ['d', '/', 'X'] ['d', '/', 'z']]

theorem neverForks_sameDirectory :
    @NeverForks asciiLowercase (Transition.run (@step asciiLowercase) new sameDirectory) := by
  refine @neverForks_run asciiLowercase new ?_ sameDirectory ?_
  · exact @neverForks_fromFiles asciiLowercase [] fun p q hp hq _ => by
      rcases hp with rfl | ⟨k, ⟨e, he, -⟩, -⟩
      · rcases hq with rfl | ⟨k, ⟨e, he, -⟩, -⟩
        · rfl
        · cases he
      · cases he
  · exact ⟨trivial, trivial, fun h => absurd h (by decide +kernel), trivial⟩

def otherSpelling : List Call :=
  [.openPath ['D', '/', 'x'] creating, .openPath ['D', '/', 'y'] creating,
    .openPath ['f'] creating, .rename ['f'] ['d', '/', 'x']]

/-- The directory is there twice afterwards. -/
theorem otherSpelling_forks :
    ¬ @NeverForks asciiLowercase (Transition.run (@step asciiLowercase) new otherSpelling) := by
  rintro ⟨h, -⟩
  have hupper : HasChild (Transition.run (@step asciiLowercase) new otherSpelling) [] ['D'] :=
    ⟨[['D'], ['y']], mem_keys.mp (by decide +kernel), by decide⟩
  have hlower : HasChild (Transition.run (@step asciiLowercase) new otherSpelling) [] ['d'] :=
    ⟨[['d'], ['x']], mem_keys.mp (by decide +kernel), by decide⟩
  exact absurd (h [] _ _ hupper hlower rfl) (by decide)

end Spellings

end AetherVfs.Compose.Memory
