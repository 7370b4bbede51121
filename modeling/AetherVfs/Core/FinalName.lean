import AetherVfs.Core.Path
import AetherVfs.Registry.Format

/-!
# Final names

`vfs-core/src/finalname.rs`: the path a handle is finally known by, put together from the declared
spelling of its root and the stored spelling of each component. Two handles of one tree that
name the root alike are named from one spelling, however they were opened.
-/

namespace AetherVfs.FinalName

open List

def stripNt (path : Str) : Str :=
  if ['\\', '?', '?', '\\'] <+: path ∨ ['\\', '\\', '?', '\\'] <+: path then path.drop 4 else path

def components (path : Str) : List Str :=
  ((stripNt path).splitOnP isSep).filter fun c => c ≠ []

section Names

variable [ToLowercase]

def openedTail (opened : Str) (under : List Str) : Option (List Str) :=
  let asked := components opened
  if asked.length < under.length then none
  else
    let tail := asked.drop (asked.length - under.length)
    if (tail.zip under).all fun r => fold r.1 = r.2 then some tail else none

/-- The components that a root is looked up by. -/
def askedPrefix (opened : Str) (under : List Str) : List Str :=
  match openedTail opened under with
  | some _ => ((components opened).take ((components opened).length - under.length)).map fold
  | none => []

/-- The root that the caller's spelling names, the first one if it names none. -/
def chosenRoot (opened : Str) (under roots : List Str) : Str :=
  let root := (roots.find? fun r => (components r).map fold = askedPrefix opened under).or
    roots.head?
  (root.map fun r => ['\\'].intercalate (components r)).getD []

/-- A root with one spelling is named by it, however it was opened. -/
theorem chosenRoot_singleton (opened : Str) (under : List Str) (root : Str) :
    chosenRoot opened under [root] = ['\\'].intercalate (components root) := by
  rw [chosenRoot, find?_singleton, head?_singleton]
  split_ifs <;> rfl

def spelled (tail : Option (List Str)) (stored : ℕ → Option Str) (i : ℕ) (folded : Str) : Str :=
  match stored i, tail with
  | some name, _ => name
  | none, some tail => tail[i]?.getD folded
  | none, none => folded

/-- Two bytes that end in a colon: a bare drive. -/
def Bare (out : Str) : Prop := (Registry.utf8 out).length = 2 ∧ out.getLast? = some ':'

instance (out : Str) : Decidable (Bare out) := inferInstanceAs (Decidable (_ ∧ _))

def finalDosPath (opened : Str) (under roots : List Str) (stored : ℕ → Option Str) : Str :=
  let tail := openedTail opened under
  let out := chosenRoot opened under roots ++
    (under.mapIdx fun i folded => '\\' :: spelled tail stored i folded).flatten
  if Bare out then out ++ ['\\'] else out

def listed (list : Str → Option (List Str)) (under : List Str) (i : ℕ) : Option Str := do
  let names ← list (joined (under.take i))
  let folded ← under[i]?
  names.find? fun n => fold n = folded

def finalDosPathByListing (opened : Str) (under roots : List Str)
    (list : Str → Option (List Str)) : Str :=
  finalDosPath opened under roots (listed list under)

end Names

/-! ## The tree -/

inductive Tree
  | file
  | dir (children : List (Str × Tree))

variable {t x : Tree} {u : List Str}

namespace Tree

variable [ToLowercase]

def child? (folded : Str) : Tree → Option (Str × Tree)
  | .file => none
  | .dir children => children.find? fun e => fold e.1 = folded

def walk : Tree → List Str → Option Tree
  | t, [] => some t
  | t, c :: u => (t.child? c).bind fun e => walk e.2 u

/-- How the component `i` of `under` is spelled where it is stored. -/
def stored (t : Tree) (under : List Str) (i : ℕ) : Option Str := do
  let dir ← t.walk (under.take i)
  let folded ← under[i]?
  let e ← dir.child? folded
  return e.1

/-- No two siblings have one fold. -/
def Unique (t : Tree) : Prop :=
  ∀ u children, t.walk u = some (.dir children) → (children.map fun e => fold e.1).Nodup

/-- `list` reports the names of every directory of the tree, in some order. -/
def Lists (t : Tree) (list : Str → Option (List Str)) : Prop :=
  ∀ u children, t.walk u = some (.dir children) →
    ∃ names, list (joined u) = some names ∧ ∀ n, n ∈ names ↔ n ∈ children.map Prod.fst

theorem walk_append (t : Tree) (u v : List Str) :
    t.walk (u ++ v) = (t.walk u).bind fun d => d.walk v := by
  induction u generalizing t with
  | nil => rfl
  | cons c u ih =>
    rw [cons_append, walk, walk]
    cases t.child? c with
    | none => rfl
    | some e => exact ih e.2

theorem exists_stored (h : t.walk u = some x) {i : ℕ} (hi : i < u.length) :
    ∃ children e, t.walk (u.take i) = some (.dir children) ∧
      children.find? (fun e => fold e.1 = u[i]) = some e ∧ t.stored u i = some e.1 := by
  rw [← take_append_drop i u, drop_eq_getElem_cons hi, walk_append] at h
  obtain ⟨d, hd, h⟩ := Option.bind_eq_some_iff.mp h
  rw [walk] at h
  obtain ⟨e, he, -⟩ := Option.bind_eq_some_iff.mp h
  cases d with
  | file => cases he
  | dir children =>
    refine ⟨children, e, hd, he, ?_⟩
    simp only [stored, hd, getElem?_eq_getElem hi, he, Option.bind_eq_bind, Option.bind_some,
      Option.pure_def]

theorem stored_append (v : List Str) {i : ℕ} (hi : i < u.length) :
    t.stored (u ++ v) i = t.stored u i := by
  rw [stored, stored, take_append_of_le_length hi.le, getElem?_append_left hi]

theorem find_listed (hunique : t.Unique) {list : Str → Option (List Str)} (hlist : t.Lists list)
    (h : t.walk u = some x) {i : ℕ} (hi : i < u.length) : listed list u i = t.stored u i := by
  obtain ⟨children, e, hdir, hfind, hstored⟩ := exists_stored h hi
  obtain ⟨names, hnames, hmem⟩ := hlist _ children hdir
  have he : e ∈ children := mem_of_find?_eq_some hfind
  have hfold : fold e.1 = u[i] := by simpa using find?_some hfind
  rw [hstored, listed, hnames, getElem?_eq_getElem hi]
  simp only [Option.bind_eq_bind, Option.bind_some]
  cases hn : names.find? fun n => fold n = u[i] with
  | none =>
    have := find?_eq_none.mp hn e.1 ((hmem e.1).mpr (mem_map_of_mem he))
    simp [hfold] at this
  | some n =>
    have hnfold : fold n = u[i] := by simpa using find?_some hn
    obtain ⟨e', he', rfl⟩ := mem_map.mp ((hmem n).mp (mem_of_find?_eq_some hn))
    have hsame : e' = e :=
      inj_on_of_nodup_map (hunique _ children hdir) he' he (hnfold.trans hfold.symm)
    rw [hsame]

end Tree

/-! ## One spelling -/

def closed (out : Str) : Str := if Bare out then out ++ ['\\'] else out

theorem prefix_closed (out : Str) : out <+: closed out := by
  unfold closed
  split_ifs
  · exact prefix_append _ _
  · exact prefix_rfl

/-- A drive with the separator of its root. -/
def BareDrive (path : Str) : Prop := ∃ letter, path = [letter, ':', '\\']

theorem Bare.bareDrive {out : Str} (h : Bare out) : BareDrive (out ++ ['\\']) := by
  obtain ⟨hlen, hlast⟩ := h
  obtain ⟨front, rfl⟩ := getLast?_eq_some_iff.mp hlast
  have hfront : (Registry.utf8 front).length = 1 := by
    rw [Registry.utf8, flatMap_append, length_append] at hlen
    have hcolon : ([':'].flatMap String.utf8EncodeChar).length = 1 := rfl
    rw [hcolon] at hlen
    exact Nat.succ.inj hlen
  have hbytes (c : Char) (s : Str) : (Registry.utf8 (c :: s)).length =
      c.utf8Size + (Registry.utf8 s).length := by
    rw [Registry.utf8, flatMap_cons, length_append, String.length_utf8EncodeChar]
    rfl
  match front with
  | [] => simp [Registry.utf8] at hfront
  | [letter] => exact ⟨letter, rfl⟩
  | c :: c' :: s =>
    rw [hbytes, hbytes] at hfront
    have := c.utf8Size_pos
    have := c'.utf8Size_pos
    omega

section Consistency

variable [ToLowercase]

/-- The stored names on the way to `u`, each after a separator. -/
def below (t : Tree) (u : List Str) : Str :=
  (u.mapIdx fun i _ => '\\' :: (t.stored u i).getD []).flatten

theorem finalDosPath_congr {stored stored' : ℕ → Option Str}
    (h : ∀ i < u.length, stored i = stored' i) (opened : Str) (roots : List Str) :
    finalDosPath opened u roots stored = finalDosPath opened u roots stored' := by
  have hnames : ∀ tail : Option (List Str),
      (u.mapIdx fun i folded => '\\' :: spelled tail stored i folded) =
        u.mapIdx fun i folded => '\\' :: spelled tail stored' i folded := by
    intro tail
    apply ext_getElem (by simp)
    intro i hi _
    simp [spelled, h i (by simpa using hi)]
  simp only [finalDosPath, hnames]

theorem finalDosPathByListing_eq (hunique : t.Unique) {list : Str → Option (List Str)}
    (hlist : t.Lists list) (h : t.walk u = some x) (opened : Str) (roots : List Str) :
    finalDosPathByListing opened u roots list = finalDosPath opened u roots (t.stored u) :=
  finalDosPath_congr (fun _ hi => Tree.find_listed hunique hlist h hi) opened roots

theorem finalDosPath_eq (h : t.walk u = some x) (opened : Str) (roots : List Str) :
    finalDosPath opened u roots (t.stored u) = closed (chosenRoot opened u roots ++ below t u) := by
  have hnames : (u.mapIdx fun i folded =>
      '\\' :: spelled (openedTail opened u) (t.stored u) i folded) =
      u.mapIdx fun i _ => '\\' :: (t.stored u i).getD [] := by
    apply ext_getElem (by simp)
    intro i hi _
    obtain ⟨children, e, -, -, hstored⟩ := Tree.exists_stored h (by simpa using hi)
    simp [spelled, hstored]
  simp only [finalDosPath, hnames]
  rfl

theorem below_append (t : Tree) (u : List Str) {v : List Str} (hv : v ≠ []) :
    ∃ rest, below t (u ++ v) = below t u ++ '\\' :: rest := by
  have hfront : (u.mapIdx fun i _ => '\\' :: (t.stored (u ++ v) i).getD []) =
      u.mapIdx fun i _ => '\\' :: (t.stored u i).getD [] := by
    apply ext_getElem (by simp)
    intro i hi _
    rw [getElem_mapIdx, getElem_mapIdx, Tree.stored_append v (by simpa using hi)]
  obtain ⟨c, v', rfl⟩ := exists_cons_of_ne_nil hv
  unfold below
  rw [mapIdx_append, hfront, flatten_append, mapIdx_cons, flatten_cons,
    cons_append]
  exact ⟨_, rfl⟩

/-- Of one root and one tree, the final name of a directory and a separator, or the directory's
name alone if it is a bare drive that has one, is the start of the final name of what is under
it. -/
theorem closed_below (root : Str) (t : Tree) (d : List Str) {rest : List Str} (hrest : rest ≠ []) :
    (BareDrive (closed (root ++ below t d)) →
      closed (root ++ below t d) <+: closed (root ++ below t (d ++ rest))) ∧
    (¬ BareDrive (closed (root ++ below t d)) →
      closed (root ++ below t d) ++ ['\\'] <+: closed (root ++ below t (d ++ rest))) := by
  obtain ⟨after, hafter⟩ := below_append t d hrest
  have hsep : (root ++ below t d) ++ ['\\'] <+: closed (root ++ below t (d ++ rest)) := by
    refine List.IsPrefix.trans ?_ (prefix_closed _)
    rw [hafter]
    exact ⟨after, by simp⟩
  constructor
  · intro _
    by_cases hbare : Bare (root ++ below t d)
    · rwa [closed, if_pos hbare]
    · rw [closed, if_neg hbare]
      exact (prefix_append _ _).trans hsep
  · intro hdrive
    by_cases hbare : Bare (root ++ below t d)
    · rw [closed, if_pos hbare] at hdrive
      exact absurd hbare.bareDrive hdrive
    · rwa [closed, if_neg hbare]

/-- What the spelling of one handle shares with that of another. -/
theorem finalDosPath_consistent {t : Tree} (hunique : t.Unique) {list : Str → Option (List Str)}
    (hlist : t.Lists list) {d rest : List Str} (hrest : rest ≠ []) {x : Tree}
    (hf : t.walk (d ++ rest) = some x) {roots : List Str} {openedD openedD' openedF openedF' : Str}
    (hD : chosenRoot openedD d roots = chosenRoot openedD' d roots)
    (hF : chosenRoot openedF (d ++ rest) roots = chosenRoot openedF' (d ++ rest) roots)
    (hDF : chosenRoot openedD d roots = chosenRoot openedF (d ++ rest) roots) :
    let dir := finalDosPath openedD d roots (t.stored d)
    let file := finalDosPath openedF (d ++ rest) roots (t.stored (d ++ rest))
    (BareDrive dir → dir <+: file) ∧ (¬ BareDrive dir → dir ++ ['\\'] <+: file) ∧
    finalDosPath openedD' d roots (t.stored d) = dir ∧
    finalDosPath openedF' (d ++ rest) roots (t.stored (d ++ rest)) = file ∧
    finalDosPathByListing openedD d roots list = dir ∧
    finalDosPathByListing openedF (d ++ rest) roots list = file := by
  obtain ⟨y, hd⟩ : ∃ y, t.walk d = some y := by
    rw [Tree.walk_append] at hf
    obtain ⟨y, hy, -⟩ := Option.bind_eq_some_iff.mp hf
    exact ⟨y, hy⟩
  dsimp only
  rw [finalDosPathByListing_eq hunique hlist hd, finalDosPathByListing_eq hunique hlist hf,
    finalDosPath_eq hd, finalDosPath_eq hd, finalDosPath_eq hf, finalDosPath_eq hf, ← hD, ← hF, hDF]
  obtain ⟨hdrive, hsep⟩ := closed_below (chosenRoot openedF (d ++ rest) roots) t d hrest
  exact ⟨hdrive, hsep, rfl, rfl, rfl, rfl⟩

end Consistency

attribute [local instance] asciiLowercase

def smallTree : Tree := .dir [(['D'], .dir [(['A'], .file)])]

theorem walk_smallTree {children : List (Str × Tree)}
    (h : smallTree.walk u = some (.dir children)) :
    (u = [] ∧ children = [(['D'], .dir [(['A'], .file)])]) ∨
      (u = [['d']] ∧ children = [(['A'], .file)]) := by
  cases u with
  | nil =>
    cases h
    exact Or.inl ⟨rfl, rfl⟩
  | cons c u =>
    obtain ⟨e, he, hrest⟩ := Option.bind_eq_some_iff.mp h
    have he : [(['D'], Tree.dir [(['A'], .file)])].find? (fun e => fold e.1 = c) = some e := he
    have hfold : fold e.1 = c := by simpa using find?_some he
    obtain rfl := mem_singleton.mp (mem_of_find?_eq_some he)
    cases u with
    | nil =>
      cases hrest
      exact Or.inr ⟨by rw [← hfold]; rfl, rfl⟩
    | cons c' u =>
      obtain ⟨e', he', hrest⟩ := Option.bind_eq_some_iff.mp hrest
      have he' : [(['A'], Tree.file)].find? (fun e => fold e.1 = c') = some e' := he'
      obtain rfl := mem_singleton.mp (mem_of_find?_eq_some he')
      cases u <;> cases hrest

def smallList (dir : Str) : Option (List Str) :=
  if dir = [] then some [['D']] else if dir = ['d'] then some [['A']] else none

theorem unique_smallTree : smallTree.Unique := by
  intro u children h
  rcases walk_smallTree h with ⟨-, rfl⟩ | ⟨-, rfl⟩
  · exact nodup_singleton _
  · exact nodup_singleton _

theorem lists_smallTree : smallTree.Lists smallList := by
  intro u children h
  rcases walk_smallTree h with ⟨rfl, rfl⟩ | ⟨rfl, rfl⟩
  · exact ⟨[['D']], rfl, fun n => Iff.rfl⟩
  · exact ⟨[['A']], rfl, fun n => Iff.rfl⟩

def cGame : Str := ['C', ':', '\\', 'G']
def dAlias : Str := ['D', ':', '\\', 'A']

def smallName (opened : Str) (u roots : List Str) : Str :=
  finalDosPath opened u roots (smallTree.stored u)

theorem finalDosPath_twoSpellings :
    ¬ BareDrive (smallName (cGame ++ ['\\', 'd']) [['d']] [cGame]) ∧
      smallName (cGame ++ ['\\', 'd']) [['d']] [cGame] ++ ['\\'] <+:
        smallName ['c', ':', '/', 'g', '/', 'D', '/', 'a'] [['d'], ['a']] [cGame] := by
  have hdrive : ¬ BareDrive (smallName (cGame ++ ['\\', 'd']) [['d']] [cGame]) := by
    rintro ⟨letter, heq⟩
    have hlen : (smallName (cGame ++ ['\\', 'd']) [['d']] [cGame]).length = 6 := by decide +kernel
    rw [heq] at hlen
    cases hlen
  have h := @finalDosPath_consistent _ smallTree unique_smallTree smallList
    lists_smallTree [['d']] [['a']] (by simp) .file rfl [cGame] (cGame ++ ['\\', 'd'])
    (cGame ++ ['\\', 'd']) ['c', ':', '/', 'g', '/', 'D', '/', 'a']
    ['c', ':', '/', 'g', '/', 'D', '/', 'a'] rfl rfl rfl
  exact ⟨hdrive, h.2.1 hdrive⟩

/-- A directory and its file are named from different roots when they were opened by different
ones; and a bare drive has its separator already. -/
theorem finalDosPath_alias_drive : smallTree.Unique ∧
    smallName (cGame ++ ['\\', 'd']) [['d']] [cGame, dAlias] ≠
      smallName (dAlias ++ ['\\', 'd']) [['d']] [cGame, dAlias] ∧
    ¬ smallName (cGame ++ ['\\', 'd']) [['d']] [cGame, dAlias] ++ ['\\'] <+:
      smallName (dAlias ++ ['\\', 'd', '\\', 'a']) [['d'], ['a']] [cGame, dAlias] ∧
    ¬ smallName ['C', ':', '\\'] [] [['C', ':']] ++ ['\\'] <+:
      smallName ['C', ':', '\\', 'd'] [['d']] [['C', ':']] := by
  refine ⟨unique_smallTree, ?_, ?_, ?_⟩ <;> decide +kernel

end AetherVfs.FinalName
