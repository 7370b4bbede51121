import AetherVfs.Lib.HostPath

/-!
# Directory trees with symbolic links

How Unix finds a file and what the calls that create one do. A path is walked from a directory;
a link on the way is replaced by its target, which starts from the directory that holds the
link. A tree keeps to a directory if every link below it climbs no further than to that
directory, and then names: walked from there, every path that does not climb ends below it.
-/

namespace LinkTree

open HostPath List Function

/-- A place in the tree, by the names of the real directories that lead to it. -/
abbrev Loc := List Seg

inductive Node where
  | dir
  | file
  | symlink (target : Seg)
deriving DecidableEq, Repr

abbrev Tree := Loc → Option Node

inductive Errno where
  | noEnt
  | notDir
  | isDir
  | exist
  | loop
  | perm
deriving DecidableEq, Repr

/-- The components of a path as they are walked. A slash at the end asks for a directory. -/
def segsOf (path : Seg) : List Seg :=
  pieces .unix path ++ if path.getLast? = some '/' then [dot] else []

/-- What is done with the last component of a path. -/
inductive Mode where
  /-- It is there, and followed if it is a link. -/
  | stat
  /-- It is followed, and may be missing. -/
  | create
  /-- It is an entry of its directory, and not followed. -/
  | entry
deriving DecidableEq, Repr

section Follow

variable (t : Tree) (mode : Mode)

/-- A path walked from a directory; `k` goes on where a link leads. -/
def followWith (k : Loc → List Seg → Except Errno Loc) : Loc → List Seg → Except Errno Loc
  | cur, [] => .ok cur
  | cur, s :: rest =>
    if s = dot then followWith k cur rest
    else if s = dotDot then followWith k cur.dropLast rest
    else if rest = [] ∧ mode = .entry then .ok (cur ++ [s])
    else
      match t (cur ++ [s]) with
      | none => if rest = [] ∧ mode = .create then .ok (cur ++ [s]) else .error .noEnt
      | some .dir => followWith k (cur ++ [s]) rest
      | some .file => if rest = [] then .ok (cur ++ [s]) else .error .notDir
      | some (.symlink target) =>
        k (if target.head? = some '/' then [] else cur) (segsOf target ++ rest)

def follow : ℕ → Loc → List Seg → Except Errno Loc
  | 0 => followWith t mode fun _ _ => .error .loop
  | n + 1 => followWith t mode (follow n)

end Follow

/-- How many links Linux follows in one path. -/
def maxLinks : ℕ := 40

/-! ## The calls -/

inductive Effect where
  | made (loc : Loc)
  | wrote (loc : Loc)
  | linked (src loc : Loc)
deriving DecidableEq, Repr

def Effect.locs : Effect → List Loc
  | made loc => [loc]
  | wrote loc => [loc]
  | linked src loc => [src, loc]

structure Fs where
  tree : Tree
  log : List Effect

namespace Fs

variable (fs : Fs) (cwd : Loc)

def add (loc : Loc) (node : Node) (e : Effect) : Fs where
  tree := Function.update fs.tree loc (some node)
  log := fs.log ++ [e]

@[simp] theorem add_tree (loc : Loc) (node : Node) (e : Effect) :
    (fs.add loc node e).tree = Function.update fs.tree loc (some node) := rfl

def isDir (path : List Seg) : Bool :=
  match follow fs.tree .stat maxLinks cwd path with
  | .ok loc => fs.tree loc = some .dir
  | .error _ => false

def mkdir (path : List Seg) : Except Errno Fs :=
  match follow fs.tree .entry maxLinks cwd path with
  | .error err => .error err
  | .ok loc => if fs.tree loc = none then .ok (fs.add loc .dir (.made loc)) else .error .exist

/-- An open that creates the file, or truncates it. -/
def create (path : List Seg) : Except Errno Fs :=
  match follow fs.tree .create maxLinks cwd path with
  | .error err => .error err
  | .ok loc =>
    match fs.tree loc with
    | none => .ok (fs.add loc .file (.wrote loc))
    | some .file => .ok { fs with log := fs.log ++ [.wrote loc] }
    | some .dir => .error .isDir
    | some (.symlink _) => .error .loop

def symlink (target : Seg) (path : List Seg) : Except Errno Fs :=
  if target = [] then .error .noEnt
  else
    match follow fs.tree .entry maxLinks cwd path with
    | .error err => .error err
    | .ok loc =>
      if fs.tree loc = none then .ok (fs.add loc (.symlink target) (.made loc))
      else .error .exist

/-- A new name for what is at `src`, which is not followed if it is a link. -/
def hardLink (src path : List Seg) : Except Errno Fs :=
  match follow fs.tree .entry maxLinks cwd src with
  | .error err => .error err
  | .ok from' =>
    match fs.tree from' with
    | none => .error .noEnt
    | some .dir => .error .perm
    | some node =>
      match follow fs.tree .entry maxLinks cwd path with
      | .error err => .error err
      | .ok loc =>
        if fs.tree loc = none then .ok (fs.add loc node (.linked from' loc))
        else .error .exist

end Fs

/-- `std::fs::create_dir_all`, on the path below `cwd` read from its end. -/
def createDirAll (cwd : Loc) (fs : Fs) : List Seg → Except Errno Unit × Fs
  | [] =>
    match fs.mkdir cwd [] with
    | .ok fs' => (.ok (), fs')
    | .error err => if fs.isDir cwd [] then (.ok (), fs) else (.error err, fs)
  | n :: rest =>
    match fs.mkdir cwd (n :: rest).reverse with
    | .ok fs' => (.ok (), fs')
    | .error .noEnt =>
      match createDirAll cwd fs rest with
      | (.error err, fs') => (.error err, fs')
      | (.ok (), fs') =>
        match fs'.mkdir cwd (n :: rest).reverse with
        | .ok fs'' => (.ok (), fs'')
        | .error err =>
          if fs'.isDir cwd (n :: rest).reverse then (.ok (), fs') else (.error err, fs')
    | .error err =>
      if fs.isDir cwd (n :: rest).reverse then (.ok (), fs) else (.error err, fs)

theorem createDirAll_keeps {cwd : Loc} {P : Fs → Prop} {rev : List Seg}
    (hmkdir : ∀ fs fs' path, path <+: rev.reverse → fs.mkdir cwd path = .ok fs' → P fs → P fs')
    {fs : Fs} (hfs : P fs) : P (createDirAll cwd fs rev).2 := by
  induction rev generalizing fs with
  | nil =>
    rw [createDirAll]
    split
    · next fs' hfs' => exact hmkdir fs fs' _ (prefix_refl _) hfs' hfs
    · split_ifs <;> exact hfs
  | cons n rest ih =>
    have hrest := ih (fun fs fs' path hpath =>
      hmkdir fs fs' path (hpath.trans (by rw [reverse_cons]; exact prefix_append _ _)))
      hfs
    rw [createDirAll]
    split
    · next fs' hfs' => exact hmkdir fs fs' _ (prefix_refl _) hfs' hfs
    · split
      · next err fs' heq => simpa only [heq] using hrest
      · next fs' heq =>
          rw [heq] at hrest
          split
          · next fs'' hfs'' => exact hmkdir fs' fs'' _ (prefix_refl _) hfs'' hrest
          · split_ifs <;> exact hrest
    · split_ifs <;> exact hfs

/-! ## Trees that keep to a directory -/

/-- From `depth` levels down, the segments climb first, and no further than to where they started,
and then only go down. -/
def Descends : ℕ → List Seg → Prop
  | _, [] => True
  | depth, s :: rest =>
    if s = dot then Descends depth rest
    else if s = dotDot then 0 < depth ∧ Descends (depth - 1) rest
    else dotDot ∉ rest

instance decidableDescends : ∀ depth segs, Decidable (Descends depth segs)
  | _, [] => isTrue trivial
  | depth, s :: rest =>
    have := decidableDescends depth rest
    have := decidableDescends (depth - 1) rest
    inferInstanceAs (Decidable (if s = dot then Descends depth rest
      else if s = dotDot then 0 < depth ∧ Descends (depth - 1) rest else dotDot ∉ rest))

variable {segs : List Seg} {t : Tree} {mode : Mode}

theorem descends_of_notMem (h : dotDot ∉ segs) (depth : ℕ) : Descends depth segs := by
  induction segs with
  | nil => trivial
  | cons s rest ih =>
    rw [mem_cons, not_or] at h
    rw [Descends, if_neg (Ne.symm h.1)]
    split_ifs
    · exact ih h.2
    · exact h.2

theorem Descends.append {depth : ℕ} {rest : List Seg} (h : Descends depth segs)
    (hrest : dotDot ∉ rest) : Descends depth (segs ++ rest) := by
  induction segs generalizing depth with
  | nil => exact descends_of_notMem hrest depth
  | cons s segs ih =>
    rw [Descends] at h
    rw [cons_append, Descends]
    split_ifs at h ⊢ with hdot hup
    · exact ih h
    · exact ⟨h.1, ih h.2⟩
    · simp [h, hrest]

theorem Descends.of_append {depth : ℕ} {rest : List Seg} (h : Descends depth (segs ++ rest)) :
    Descends depth segs := by
  induction segs generalizing depth with
  | nil => trivial
  | cons s segs ih =>
    rw [cons_append, Descends] at h
    rw [Descends]
    split_ifs at h ⊢ with hdot hup
    · exact ih h
    · exact ⟨h.1, ih h.2⟩
    · exact fun hmem => h (mem_append_left _ hmem)

/-- Every link below `base` leads below `base` from where it stands. -/
def Keeps (base : Loc) (t : Tree) : Prop :=
  ∀ c s target, t (base ++ c ++ [s]) = some (.symlink target) →
    target.head? ≠ some '/' ∧ Descends c.length (segsOf target)

variable {path : List Seg} {loc : Loc}

theorem followWith_below {base : Loc} (ht : Keeps base t) {k : Loc → List Seg → Except Errno Loc}
    (hk : ∀ c path loc, Descends c.length path → k (base ++ c) path = .ok loc → base <+: loc)
    {c : Loc} (hpath : Descends c.length path)
    (h : followWith t mode k (base ++ c) path = .ok loc) : base <+: loc := by
  induction path generalizing c with
  | nil =>
    cases h
    exact prefix_append _ _
  | cons s rest ih =>
    have hbelow : base <+: base ++ c ++ [s] :=
      (prefix_append _ _).trans (prefix_append _ _)
    rw [Descends] at hpath
    rw [followWith] at h
    by_cases hdot : s = dot
    · rw [if_pos hdot] at h hpath
      exact ih hpath h
    by_cases hup : s = dotDot
    · rw [if_neg hdot, if_pos hup] at h hpath
      rw [dropLast_append_of_ne_nil (length_pos_iff.mp hpath.1)] at h
      apply ih _ h
      rw [length_dropLast]
      exact hpath.2
    rw [if_neg hdot, if_neg hup] at h hpath
    by_cases hlast : rest = [] ∧ mode = .entry
    · rw [if_pos hlast] at h
      cases h
      exact hbelow
    rw [if_neg hlast] at h
    split at h
    · split_ifs at h
      cases h
      exact hbelow
    · rw [append_assoc] at h
      exact ih (descends_of_notMem hpath _) h
    · split_ifs at h
      cases h
      exact hbelow
    · next target htarget =>
        obtain ⟨hrel, hdesc⟩ := ht c s target htarget
        rw [if_neg hrel] at h
        exact hk _ _ _ (hdesc.append hpath) h

theorem follow_below {base : Loc} (ht : Keeps base t) {n : ℕ} {c : Loc}
    (hpath : Descends c.length path) (h : follow t mode n (base ++ c) path = .ok loc) :
    base <+: loc := by
  induction n generalizing c path loc with
  | zero => exact followWith_below ht (fun _ _ _ _ hk => by cases hk) hpath h
  | succ n ih => exact followWith_below ht (fun c path loc hp hk => ih hp hk) hpath h

/-- None of the places on the way from `loc` along the names is a link. -/
def Direct (t : Tree) : Loc → List Seg → Prop
  | _, [] => True
  | loc, s :: rest =>
    (∀ target, t (loc ++ [s]) ≠ some (.symlink target)) ∧ Direct t (loc ++ [s]) rest

theorem follow_entry_of_direct {n : ℕ} {cur : Loc} (hnames : dot ∉ path ∧ dotDot ∉ path)
    (h : Direct t cur path.dropLast) (hloc : follow t .entry n cur path = .ok loc) :
    loc = cur ++ path := by
  have key : ∀ {k : Loc → List Seg → Except Errno Loc} {cur : Loc} {path : List Seg},
      dot ∉ path → dotDot ∉ path → Direct t cur path.dropLast →
      followWith t .entry k cur path = .ok loc → loc = cur ++ path := by
    intro k cur path hdot hup h hloc
    induction path generalizing cur with
    | nil =>
      cases hloc
      simp
    | cons s rest ih =>
      rw [mem_cons, not_or] at hdot hup
      rw [followWith, if_neg (Ne.symm hdot.1), if_neg (Ne.symm hup.1)] at hloc
      cases rest with
      | nil =>
        rw [if_pos ⟨rfl, rfl⟩] at hloc
        cases hloc
        rfl
      | cons s' rest =>
        rw [dropLast_cons_of_ne_nil (cons_ne_nil _ _)] at h
        rw [if_neg (by simp)] at hloc
        split at hloc
        · simp at hloc
        · rw [ih hdot.2 hup.2 h.2 hloc]
          simp
        · simp at hloc
        · next target htarget => exact absurd htarget (h.1 target)
  cases n with
  | zero => exact key hnames.1 hnames.2 h hloc
  | succ n => exact key hnames.1 hnames.2 h hloc

theorem Direct.mono {t' : Tree} (h : Direct t loc path)
    (hlinks : ∀ l target, t' l = some (.symlink target) → t l = some (.symlink target)) :
    Direct t' loc path := by
  induction path generalizing loc with
  | nil => trivial
  | cons s rest ih => exact ⟨fun target ht => h.1 target (hlinks _ _ ht), ih h.2⟩

theorem Direct.notLink (h : Direct t loc path) (hne : path ≠ []) (target : Seg) :
    t (loc ++ path) ≠ some (.symlink target) := by
  induction path generalizing loc with
  | nil => exact absurd rfl hne
  | cons s rest ih =>
    cases rest with
    | nil => exact h.1 target
    | cons s' rest =>
      have hrest := ih h.2 (cons_ne_nil _ _)
      rwa [append_assoc, singleton_append] at hrest

theorem Direct.dropLast (h : Direct t loc path) : Direct t loc path.dropLast := by
  induction path generalizing loc with
  | nil => trivial
  | cons s rest ih =>
    cases rest with
    | nil => trivial
    | cons s' rest => exact ⟨h.1, ih h.2⟩

/-! ## What the calls keep -/

/-- The tree keeps to the directory `base`, and nothing outside of it was touched. -/
structure Contained (base : Loc) (fs : Fs) : Prop where
  dir : fs.tree base = some .dir
  keeps : Keeps base fs.tree
  log : ∀ e ∈ fs.log, ∀ loc ∈ e.locs, base <+: loc

namespace Contained

variable {base : Loc} {fs fs' : Fs}

section

variable (h : Contained base fs)

include h

theorem wrote {e : Effect} (he : ∀ l ∈ e.locs, base <+: l) :
    ∀ e' ∈ fs.log ++ [e], ∀ l ∈ e'.locs, base <+: l := by
  intro e' he'
  rcases mem_append.mp he' with hold | hnew
  · exact h.log e' hold
  · exact mem_singleton.mp hnew ▸ he

theorem add {loc : Loc} {node : Node} {e : Effect}
    (hnone : fs.tree loc = none) (he : ∀ l ∈ e.locs, base <+: l)
    (hnode : ∀ c s target, base ++ c ++ [s] = loc → node = .symlink target →
      target.head? ≠ some '/' ∧ Descends c.length (segsOf target)) :
    Contained base (fs.add loc node e) := by
  refine ⟨?_, fun c s target htarget => ?_, h.wrote he⟩
  · have hne : base ≠ loc := by
      intro heq
      rw [← heq, h.dir] at hnone
      cases hnone
    rw [Fs.add_tree, update_of_ne hne, h.dir]
  · rw [Fs.add_tree] at htarget
    by_cases hloc : base ++ c ++ [s] = loc
    · apply hnode c s target hloc
      rw [hloc, update_self] at htarget
      exact Option.some.inj htarget
    · rw [update_of_ne hloc] at htarget
      exact h.keeps c s target htarget

variable {path : List Seg}

theorem follow (hpath : dotDot ∉ path) {loc : Loc}
    (hloc : LinkTree.follow fs.tree mode maxLinks base path = .ok loc) : base <+: loc := by
  rw [← append_nil base] at hloc
  exact follow_below h.keeps (descends_of_notMem hpath _) hloc

theorem mkdir (hpath : dotDot ∉ path)
    (hmk : fs.mkdir base path = .ok fs') : Contained base fs' := by
  unfold Fs.mkdir at hmk
  split at hmk
  · cases hmk
  · next loc hloc =>
      split_ifs at hmk with hnone
      cases hmk
      apply h.add hnone
      · simpa [Effect.locs] using h.follow hpath hloc
      · intro c s target _ hnode
        cases hnode

theorem create (hpath : dotDot ∉ path)
    (hcr : fs.create base path = .ok fs') : Contained base fs' := by
  unfold Fs.create at hcr
  split at hcr
  · cases hcr
  · next loc hloc =>
      have hbelow : ∀ l ∈ (Effect.wrote loc).locs, base <+: l := by
        simpa [Effect.locs] using h.follow hpath hloc
      split at hcr
      · next hnone =>
          cases hcr
          apply h.add hnone hbelow
          intro c s target _ hnode
          cases hnode
      · cases hcr
        exact ⟨h.dir, h.keeps, h.wrote hbelow⟩
      · cases hcr
      · cases hcr

/-- A link whose path leads over no link stands where its path says, so that its target may climb
as often as the path has directories. -/
theorem symlink {target : Seg}
    (hnames : dot ∉ path ∧ dotDot ∉ path) (hrel : target.head? ≠ some '/')
    (hdesc : dotDot ∉ segsOf target ∨
      Direct fs.tree base path.dropLast ∧ Descends (path.length - 1) (segsOf target))
    (hsym : fs.symlink base target path = .ok fs') : Contained base fs' := by
  unfold Fs.symlink at hsym
  split_ifs at hsym
  split at hsym
  · cases hsym
  · next loc hloc =>
      split_ifs at hsym with hnone
      cases hsym
      apply h.add hnone
      · simpa [Effect.locs] using h.follow hnames.2 hloc
      · intro c s target' hc hnode
        cases hnode
        refine ⟨hrel, ?_⟩
        rcases hdesc with hdown | ⟨hdirect, hdesc⟩
        · exact descends_of_notMem hdown _
        · have hpath : path = c ++ [s] := by
            rw [follow_entry_of_direct hnames hdirect hloc, append_assoc] at hc
            exact (append_cancel_left hc).symm
          simpa [hpath] using hdesc

theorem notLink (hnames : dot ∉ path ∧ dotDot ∉ path)
    (hdirect : Direct fs.tree base path) {loc : Loc}
    (hloc : LinkTree.follow fs.tree .entry maxLinks base path = .ok loc) (target : Seg) :
    fs.tree loc ≠ some (.symlink target) := by
  rw [follow_entry_of_direct hnames hdirect.dropLast hloc]
  by_cases hne : path = []
  · simp [hne, h.dir]
  · exact hdirect.notLink hne target

theorem hardLink {src path : List Seg} (hsrc : dot ∉ src ∧ dotDot ∉ src)
    (hdirect : Direct fs.tree base src) (hpath : dotDot ∉ path)
    (hlink : fs.hardLink base src path = .ok fs') : Contained base fs' := by
  unfold Fs.hardLink at hlink
  split at hlink
  · cases hlink
  · next from' hfrom =>
      split at hlink
      · cases hlink
      · cases hlink
      · next node hnotDir hnode =>
          split at hlink
          · cases hlink
          · next loc hloc =>
              split_ifs at hlink with hnone
              cases hlink
              apply h.add hnone
              · simpa [Effect.locs] using ⟨h.follow hsrc.2 hfrom, h.follow hpath hloc⟩
              · intro c s target _ heq
                subst heq
                exact absurd hnode (h.notLink hsrc hdirect hfrom target)

theorem createDirAll {rev : List Seg} (hrev : dotDot ∉ rev) :
    Contained base (LinkTree.createDirAll base fs rev).2 ∧
      ∀ l target, (LinkTree.createDirAll base fs rev).2.tree l = some (.symlink target) →
        fs.tree l = some (.symlink target) := by
  let P : Fs → Prop := fun fs' => Contained base fs' ∧
    ∀ l target, fs'.tree l = some (.symlink target) → fs.tree l = some (.symlink target)
  have hstart : P fs := ⟨h, fun _ _ hl => hl⟩
  refine createDirAll_keeps (fun fs₁ fs₂ path hpath hmk hfs => ?_) hstart
  have hup : dotDot ∉ path := fun hmem => hrev (mem_reverse.mp (hpath.subset hmem))
  refine ⟨hfs.1.mkdir hup hmk, fun l target hl => hfs.2 l target ?_⟩
  unfold Fs.mkdir at hmk
  split at hmk
  · cases hmk
  · next loc hloc =>
      split_ifs at hmk
      cases hmk
      rw [Fs.add_tree] at hl
      by_cases heq : l = loc
      · rw [heq, update_self] at hl
        cases hl
      · rwa [update_of_ne heq] at hl

end

end Contained

end LinkTree
