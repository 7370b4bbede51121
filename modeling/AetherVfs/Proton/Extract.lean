import AetherVfs.Core.Path
import AetherVfs.Lib.LinkTree
import AetherVfs.Lib.Transition

/-!
# Unpacking a runtime

`extract_tar_gz` of `vfs-proton/src/install.rs`. Member paths and link targets are checked as
text, before anything is made; the file system then walks them over the links that earlier
members made. The two agree as long as no link is reached through a link, the targets of links
climb only at their start and no hard link is made to a link.
-/

namespace AetherVfs.Proton

open HostPath LinkTree Transition

inductive EntryType where
  /-- A header for the member that follows: a pax header, or a long name or link of GNU tar. -/
  | metadata
  | directory
  | symlink
  | hardLink
  /-- A regular or a contiguous file. -/
  | regular
  /-- A device or a fifo. -/
  | other
deriving DecidableEq, Repr

structure Member where
  kind : EntryType
  path : Str
  linkName : Option Str
deriving DecidableEq, Repr

inductive InstallError where
  | io (err : Errno)
  | archive (text : Str)
  | traversal (text : Str)
deriving DecidableEq, Repr

/-- `safe_member_path`: the names of the path, if it has nothing but names and `.`. -/
def safeMemberPath (raw : Str) : Except InstallError (List Seg) :=
  if raw.head? = some '/' ∨ dotDot ∈ pieces .unix raw then
    .error (.traversal ("member ".toList ++ raw ++ " escapes the target directory".toList))
  else .ok ((pieces .unix raw).filter (· ≠ dot))

/-- The loop of `resolve_lexically` over the components of the target. -/
def resolveLoop (stack : List Seg) : List Seg → Option (List Seg)
  | [] => some stack
  | s :: rest =>
    if s = dot then resolveLoop stack rest
    else if s = dotDot then if stack = [] then none else resolveLoop stack.dropLast rest
    else resolveLoop (stack ++ [s]) rest

/-- `resolve_lexically`, from an anchor that is the names of a directory. -/
def resolveLexically (anchor : List Seg) (target : Str) : Option (List Seg) :=
  if target.head? = some '/' then none else resolveLoop anchor (pieces .unix target)

def call (fs : Fs) (r : Except Errno Fs) : Except InstallError Unit × Fs :=
  match r with
  | .ok fs' => (.ok (), fs')
  | .error err => (.error (.io err), fs)

/-- `create_parent`, and a call after it. -/
def inParent (into : Loc) (fs : Fs) (rel : List Seg) (k : Fs → Except Errno Fs) :
    Except InstallError Unit × Fs :=
  match createDirAll into fs rel.dropLast.reverse with
  | (.error err, fs') => (.error (.io err), fs')
  | (.ok (), fs') => call fs' (k fs')

/-- A link. The target of a symbolic link is relative to the link's own directory, that of a hard
link to the root of the archive. -/
def placeLink (into : Loc) (fs : Fs) (m : Member) (rel : List Seg) :
    Except InstallError Unit × Fs :=
  match m.linkName with
  | none => (.error (.archive ("link ".toList ++ m.path ++ " has no target".toList)), fs)
  | some target =>
    match resolveLexically (if m.kind = .symlink then rel.dropLast else []) target with
    | none => (.error (.traversal ("link ".toList ++ m.path ++ " targets ".toList ++ target ++
        " outside the archive tree".toList)), fs)
    | some resolved => inParent into fs rel fun fs =>
      if m.kind = .symlink then fs.symlink into target rel
      else fs.hardLink into resolved rel

def place (into : Loc) (fs : Fs) (m : Member) (rel : List Seg) : Except InstallError Unit × Fs :=
  match m.kind with
  | .directory =>
    match createDirAll into fs rel.reverse with
    | (.ok (), fs') => (.ok (), fs')
    | (.error err, fs') => (.error (.io err), fs')
  | .symlink => placeLink into fs m rel
  | .hardLink => placeLink into fs m rel
  | .regular => inParent into fs rel fun fs => fs.create into rel
  | _ => (.ok (), fs)

structure Extraction where
  top : Option Seg
  fs : Fs
  failed : Option InstallError

def Extraction.fail (x : Extraction) (err : InstallError) : Extraction :=
  { x with failed := some err }

/-- One turn of the loop, on an entry of the archive or why it cannot be read. -/
def step (into : Loc) (x : Extraction) (entry : Except Str Member) : Extraction :=
  if x.failed ≠ none then x
  else
    match entry with
    | .error text => x.fail (.archive text)
    | .ok m =>
      if m.kind = .metadata then x
      else
        match safeMemberPath m.path with
        | .error err => x.fail err
        | .ok [] => x
        | .ok (first :: rest) =>
          match x.top with
          | some seen =>
            if seen = first then put m (first :: rest) x
            else x.fail (.archive ("archive has more than one top-level entry: ".toList ++
              seen ++ " and ".toList ++ first))
          | none => put m (first :: rest) { x with top := some first }
where
  put (m : Member) (rel : List Seg) (x : Extraction) : Extraction :=
    match place into x.fs m rel with
    | (.ok (), fs) => { x with fs }
    | (.error err, fs) => { x with fs, failed := some err }

def start (t : Tree) : Extraction := ⟨none, ⟨t, []⟩, none⟩

def extractTarGz (into : Loc) (t : Tree) (entries : List (Except Str Member)) :
    Except InstallError Loc × Fs :=
  let x := run (step into) (start t) entries
  match x.failed, x.top with
  | some err, _ => (.error err, x.fs)
  | none, none => (.error (.archive "archive is empty".toList), x.fs)
  | none, some top =>
    if x.fs.isDir into [top] then (.ok (into ++ [top]), x.fs)
    else (.error (.archive ("top-level entry ".toList ++ top ++
      " is not a directory".toList)), x.fs)

/-! ## Containment -/

variable {rel : List Seg}

section Checks

theorem safeMemberPath_names {raw : Str} (h : safeMemberPath raw = .ok rel) :
    dot ∉ rel ∧ dotDot ∉ rel := by
  unfold safeMemberPath at h
  split_ifs at h with hbad
  cases h
  obtain ⟨-, hup⟩ := not_or.mp hbad
  exact ⟨by simp, fun hmem => hup (List.mem_of_mem_filter hmem)⟩

variable {resolved : List Seg}

/-- A target that climbs only at its start, and was not refused, climbs no further than the
anchor. -/
theorem descends_of_resolveLoop {stack path : List Seg} {depth : ℕ}
    (h : resolveLoop stack path = some resolved) (hpath : Descends depth path) :
    Descends stack.length path := by
  induction path generalizing stack depth with
  | nil => trivial
  | cons s rest ih =>
    rw [resolveLoop] at h
    rw [Descends] at hpath ⊢
    split_ifs at h hpath ⊢ with hdot hup hempty
    · exact ih h hpath
    · refine ⟨List.length_pos_iff.mpr hempty, ?_⟩
      rw [← List.length_dropLast]
      exact ih h hpath.2
    · exact hpath

theorem resolveLoop_names {stack path : List Seg} (h : resolveLoop stack path = some resolved)
    (hstack : dot ∉ stack ∧ dotDot ∉ stack) : dot ∉ resolved ∧ dotDot ∉ resolved := by
  induction path generalizing stack with
  | nil =>
    cases h
    exact hstack
  | cons s rest ih =>
    rw [resolveLoop] at h
    split_ifs at h with hdot hup hempty
    · exact ih h hstack
    · exact ih h ⟨fun hmem => hstack.1 (List.mem_of_mem_dropLast hmem),
        fun hmem => hstack.2 (List.mem_of_mem_dropLast hmem)⟩
    · apply ih h
      simp [hstack, Ne.symm hdot, Ne.symm hup]

theorem resolveLexically_eq {anchor : List Seg} {target : Str}
    (h : resolveLexically anchor target = some resolved) :
    target.head? ≠ some '/' ∧ resolveLoop anchor (pieces .unix target) = some resolved := by
  unfold resolveLexically at h
  split_ifs at h with habs
  exact ⟨habs, h⟩

theorem descends_of_resolveLexically {anchor : List Seg} {target : Str} {depth : ℕ}
    (h : resolveLexically anchor target = some resolved)
    (htarget : Descends depth (segsOf target)) : Descends anchor.length (segsOf target) := by
  have hpieces := descends_of_resolveLoop (resolveLexically_eq h).2 htarget.of_append
  apply hpieces.append
  split_ifs <;> decide

end Checks

/-- The member is no link, or one on which the text of the archive and the file system agree: the
target of a symbolic link does not climb, or climbs only at its start while the link's path leads
over no link; the file a hard link is made to is no link, and is not reached over one. -/
def Member.Careful (into : Loc) (t : Tree) (rel : List Seg) (m : Member) : Prop :=
  ∀ target, m.linkName = some target →
    (m.kind = .symlink → dotDot ∉ segsOf target ∨
      Direct t into rel.dropLast ∧ ∃ depth, Descends depth (segsOf target)) ∧
    (m.kind = .hardLink → ∀ src, resolveLexically [] target = some src → Direct t into src)

/-- The entry is careful in the tree it comes to. -/
def Careful (into : Loc) (x : Extraction) (entry : Except Str Member) : Prop :=
  ∀ m rel, entry = .ok m → safeMemberPath m.path = .ok rel → m.Careful into x.fs.tree rel

section Contained

variable {into : Loc} {fs : Fs}

theorem inParent_contained (h : Contained into fs) (hrel : dotDot ∉ rel) {k : Fs → Except Errno Fs}
    (hk : ∀ fs' fs'', Contained into fs' →
      (∀ l target, fs'.tree l = some (.symlink target) → fs.tree l = some (.symlink target)) →
      k fs' = .ok fs'' → Contained into fs'') : Contained into (inParent into fs rel k).2 := by
  have hup : dotDot ∉ rel.dropLast.reverse := by
    rw [List.mem_reverse]
    exact fun hmem => hrel (List.mem_of_mem_dropLast hmem)
  obtain ⟨hdirs, hlinks⟩ := h.createDirAll hup
  unfold inParent
  split
  · next err fs' heq => simpa only [heq] using hdirs
  · next fs' heq =>
      rw [heq] at hdirs hlinks
      unfold call
      split
      · next fs'' hfs'' => exact hk fs' fs'' hdirs hlinks hfs''
      · exact hdirs

theorem placeLink_contained (h : Contained into fs) {m : Member} (hrel : dot ∉ rel ∧ dotDot ∉ rel)
    (hkind : m.kind = .symlink ∨ m.kind = .hardLink) (hcareful : m.Careful into fs.tree rel) :
    Contained into (placeLink into fs m rel).2 := by
  unfold placeLink
  split
  · exact h
  · next target htarget =>
      obtain ⟨hsym, hhard⟩ := hcareful target htarget
      split
      · exact h
      · next resolved hresolved =>
          apply inParent_contained h hrel.2
          intro fs' fs'' hfs' hlinks hk
          rcases hkind with hkind | hkind
          · rw [if_pos hkind] at hk hresolved
            have habs := (resolveLexically_eq hresolved).1
            refine hfs'.symlink hrel habs ((hsym hkind).imp_right fun hcare => ?_) hk
            obtain ⟨hdirect, depth, hdesc⟩ := hcare
            refine ⟨hdirect.mono hlinks, ?_⟩
            rw [← List.length_dropLast]
            exact descends_of_resolveLexically hresolved hdesc
          · have hne : m.kind ≠ .symlink := by simp [hkind]
            rw [if_neg hne] at hk hresolved
            have hnames := resolveLoop_names (resolveLexically_eq hresolved).2 (by simp)
            have hdirect := (hhard hkind resolved hresolved).mono hlinks
            exact hfs'.hardLink hnames hdirect hrel.2 hk

theorem place_contained (h : Contained into fs) {m : Member} (hrel : dot ∉ rel ∧ dotDot ∉ rel)
    (hcareful : m.Careful into fs.tree rel) : Contained into (place into fs m rel).2 := by
  unfold place
  split
  · have hdirs := (h.createDirAll fun hmem => hrel.2 (List.mem_reverse.mp hmem)).1
    split
    · next fs' heq => simpa only [heq] using hdirs
    · next err fs' heq => simpa only [heq] using hdirs
  · next hkind => exact placeLink_contained h hrel (.inl hkind) hcareful
  · next hkind => exact placeLink_contained h hrel (.inr hkind) hcareful
  · apply inParent_contained h hrel.2
    intro fs' fs'' hfs' _ hk
    exact hfs'.create hrel.2 hk
  · exact h

theorem step_contained {x : Extraction} {entry : Except Str Member} (h : Contained into x.fs)
    (hcareful : Careful into x entry) : Contained into (step into x entry).fs := by
  have hput {m : Member} {rel : List Seg} (hm : entry = .ok m)
      (hrel : safeMemberPath m.path = .ok rel) {x' : Extraction} (hx' : x'.fs = x.fs) :
      Contained into (step.put into m rel x').fs := by
    have hplace : Contained into (place into x'.fs m rel).2 := by
      rw [hx']
      exact place_contained h (safeMemberPath_names hrel) (hcareful m rel hm hrel)
    unfold step.put
    split
    · next fs' heq => simpa only [heq] using hplace
    · next err fs' heq => simpa only [heq] using hplace
  unfold step
  split_ifs with hfailed
  · exact h
  · split
    · exact h
    · split_ifs
      · exact h
      · split
        · exact h
        · exact h
        · next first rest hrel =>
            split
            · split_ifs
              · exact hput rfl hrel rfl
              · exact h
            · exact hput rfl hrel rfl

end Contained

def EmptyDir (loc : Loc) (t : Tree) : Prop := t loc = some .dir ∧ ∀ l ≠ [], t (loc ++ l) = none

theorem start_contained {into : Loc} {t : Tree} (h : EmptyDir into t) :
    Contained into (start t).fs := by
  refine ⟨h.1, fun c s target htarget => ?_, by simp [start]⟩
  have hnone : t (into ++ c ++ [s]) = none := by
    rw [List.append_assoc]
    exact h.2 _ (by simp)
  exact absurd (htarget.symm.trans hnone) (by simp)

theorem extractTarGz_fs (into : Loc) (t : Tree) (entries : List (Except Str Member)) :
    (extractTarGz into t entries).2 = (run (step into) (start t) entries).fs := by
  unfold extractTarGz
  dsimp only
  split
  · rfl
  · rfl
  · split_ifs <;> rfl

/-- In an extraction whose links are all careful, everything that is created, written or linked
lies in the target directory. -/
theorem extractTarGz_contained (into : Loc) (t : Tree) (entries : List (Except Str Member))
    (hempty : EmptyDir into t)
    (hcareful : AllSteps (step into) (Careful into) (start t) entries) :
    ∀ e ∈ (extractTarGz into t entries).2.log, ∀ loc ∈ e.locs, into <+: loc := by
  have hrun := run_invariant_of_allSteps (I := fun x => Contained into x.fs)
    (fun x entry => step_contained) (start_contained hempty) hcareful
  rw [extractTarGz_fs]
  exact hrun.log

def emptyTree : Tree := fun loc => if loc = [] ∨ loc = [['d']] then some .dir else none

theorem emptyTree_emptyDir : EmptyDir [['d']] emptyTree :=
  ⟨rfl, fun l hl => by simp [emptyTree, hl]⟩

/-- A file written through a link that climbs one directory. -/
def throughLink : List (Except Str Member) :=
  [.ok ⟨.directory, ['t', '/', 'a'], none⟩,
   .ok ⟨.symlink, ['t', '/', 'b', '/', 'l'], some ['.', '.', '/', 'a']⟩,
   .ok ⟨.regular, ['t', '/', 'b', '/', 'l', '/', 'f'], none⟩]

theorem throughLink_careful :
    AllSteps (step [['d']]) (Careful [['d']]) (start emptyTree) throughLink := by
  refine ⟨fun m rel hm hrel target htarget => ?_, fun m rel hm hrel target htarget => ?_,
    fun m rel hm hrel target htarget => ?_, trivial⟩
  · cases hm
    cases htarget
  · cases hm
    cases htarget
    obtain rfl : [['t'], ['b'], ['l']] = rel := Except.ok.inj hrel
    refine ⟨fun _ => .inr ⟨⟨fun target => ?_, fun target => ?_, trivial⟩, 1, by decide⟩,
      fun hkind => by cases hkind⟩
    · change some Node.dir ≠ _
      simp
    · change none ≠ _
      simp
  · cases hm
    cases htarget

theorem extractTarGz_contained_throughLink :
    .wrote [['d'], ['t'], ['a'], ['f']] ∈ (extractTarGz [['d']] emptyTree throughLink).2.log ∧
      ∀ e ∈ (extractTarGz [['d']] emptyTree throughLink).2.log, ∀ loc ∈ e.locs, [['d']] <+: loc :=
  ⟨by decide, extractTarGz_contained _ _ _ emptyTree_emptyDir throughLink_careful⟩

/-- A link to its own directory, a link that is made through it and so stands higher than its path
says, and a file written through that one. -/
def climbing : List (Except Str Member) :=
  [.ok ⟨.symlink, ['t', '/', 'r'], some ['.']⟩,
   .ok ⟨.symlink, ['t', '/', 'r', '/', 's'], some ['.', '.', '/', '.', '.']⟩,
   .ok ⟨.regular, ['t', '/', 's', '/', 'f'], none⟩]

theorem climbing_escapes :
    EmptyDir [['d']] emptyTree ∧
      (extractTarGz [['d']] emptyTree climbing).1 = .ok [['d'], ['t']] ∧
      .wrote [['f']] ∈ (extractTarGz [['d']] emptyTree climbing).2.log ∧
      ¬ [['d']] <+: [['f']] :=
  ⟨emptyTree_emptyDir, by decide, by decide, by decide⟩

end AetherVfs.Proton
