import Mathlib.Tactic

/-!
# Paths of a host file system

How a path is extended and where it leads, on Unix and on Windows. On Windows a backslash
separates too, and extending a path by one that has a drive or a root starts over. A path
keeps its `.` and `..` as they are written; `walk` follows them. A path that never climbs above
the place it starts from leads below that place.
-/

namespace HostPath

open List

abbrev Seg := List Char

inductive Host where
  | unix
  | windows
deriving DecidableEq, Repr

def dot : Seg := ['.']

def dotDot : Seg := ['.', '.']

def isSep : Host → Char → Bool
  | .unix, c => c = '/'
  | .windows, c => c = '/' || c = '\\'

/-- A path: its drive, whether it starts at the root, and what stands between separators. -/
structure PathBuf where
  drive : Option Char
  rooted : Bool
  segs : List Seg
deriving DecidableEq, Repr

def pieces (host : Host) (s : Seg) : List Seg := (s.splitOnP (isSep host)).filter (· ≠ [])

/-- A drive at the start of a string, and the rest of it. -/
def splitDrive : Host → Seg → Option Char × Seg
  | .windows, c :: ':' :: rest => if c.isAlpha then (some c, rest) else (none, c :: ':' :: rest)
  | _, s => (none, s)

def parse (host : Host) (s : Seg) : PathBuf where
  drive := (splitDrive host s).1
  rooted := (splitDrive host s).2.head?.any (isSep host)
  segs := pieces host (splitDrive host s).2

/-- A string that starts a path over when it is pushed. -/
def Carries (host : Host) (s : Seg) : Prop :=
  (parse host s).drive ≠ none ∨ (parse host s).rooted = true

instance (host : Host) (s : Seg) : Decidable (Carries host s) :=
  inferInstanceAs (Decidable (_ ∨ _))

namespace PathBuf

def push (host : Host) (p : PathBuf) (s : Seg) : PathBuf :=
  if (parse host s).drive ≠ none then parse host s
  else if (parse host s).rooted then { parse host s with drive := p.drive }
  else { p with segs := p.segs ++ (parse host s).segs }

/-- `Path::parent`. A `.` does not count as a component. -/
def parent (p : PathBuf) : Option PathBuf :=
  if p.segs.filter (· ≠ dot) = [] then none
  else some { p with segs := (p.segs.filter (· ≠ dot)).dropLast }

end PathBuf

/-- Where the segments lead from `loc`, in a tree without links. The root is above itself. -/
def walk : List Seg → List Seg → List Seg
  | loc, [] => loc
  | loc, s :: rest =>
    if s = dot then walk loc rest
    else if s = dotDot then walk loc.dropLast rest
    else walk (loc ++ [s]) rest

/-- From `depth` levels down, the segments never climb above where they started. -/
def Stays : ℕ → List Seg → Prop
  | _, [] => True
  | depth, s :: rest =>
    if s = dot then Stays depth rest
    else if s = dotDot then 0 < depth ∧ Stays (depth - 1) rest
    else Stays (depth + 1) rest

instance decidableStays : ∀ depth segs, Decidable (Stays depth segs)
  | _, [] => isTrue trivial
  | depth, s :: rest =>
    have := decidableStays depth rest
    have := decidableStays (depth - 1) rest
    have := decidableStays (depth + 1) rest
    inferInstanceAs (Decidable (if s = dot then Stays depth rest
      else if s = dotDot then 0 < depth ∧ Stays (depth - 1) rest else Stays (depth + 1) rest))

/-- The name of a file or directory: what a listing can show. -/
def IsPlain (host : Host) (n : Seg) : Prop :=
  n ≠ [] ∧ n ≠ dot ∧ n ≠ dotDot ∧ ∀ c ∈ n, isSep host c = false

structure Root (host : Host) where
  drive : Option Char
  names : List Seg
  plain : ∀ n ∈ names, IsPlain host n

/-- A directory right below the root of the host. -/
def Root.single {host : Host} {n : Seg} (h : IsPlain host n) : Root host where
  drive := none
  names := [n]
  plain := List.forall_mem_singleton.mpr h

def Root.path {host : Host} (root : Root host) : PathBuf := ⟨root.drive, true, root.names⟩

/-- The path leads to the directory or below it. -/
def Root.Below {host : Host} (root : Root host) (p : PathBuf) : Prop :=
  p.drive = root.drive ∧ p.rooted = true ∧ root.names <+: walk [] p.segs

variable {segs : List Seg}

section Walk

theorem walk_append (loc a b : List Seg) : walk loc (a ++ b) = walk (walk loc a) b := by
  induction a generalizing loc with
  | nil => rfl
  | cons s a ih =>
    rw [cons_append, walk, walk]
    split_ifs <;> exact ih _

theorem walk_names {names : List Seg} (h : ∀ n ∈ names, n ≠ dot ∧ n ≠ dotDot) (loc : List Seg) :
    walk loc names = loc ++ names := by
  induction names generalizing loc with
  | nil => simp [walk]
  | cons n names ih =>
    obtain ⟨hn, hrest⟩ := forall_mem_cons.mp h
    rw [walk, if_neg hn.1, if_neg hn.2, ih hrest]
    simp

variable {loc : List Seg}

theorem Stays.walk_below {base : List Seg} (h : Stays loc.length segs) :
    base <+: walk (base ++ loc) segs := by
  induction segs generalizing loc with
  | nil => exact prefix_append _ _
  | cons s rest ih =>
    rw [Stays] at h
    rw [walk]
    split_ifs at h ⊢ with hdot hup
    · exact ih h
    · have hne : loc ≠ [] := length_pos_iff.mp h.1
      rw [dropLast_append_of_ne_nil hne]
      apply ih
      rw [length_dropLast]
      exact h.2
    · rw [append_assoc]
      apply ih
      simpa using h

theorem notMem_walk {name : Seg} (hloc : name ∉ loc) (hsegs : name ∉ segs) :
    name ∉ walk loc segs := by
  induction segs generalizing loc with
  | nil => exact hloc
  | cons s rest ih =>
    rw [mem_cons, not_or] at hsegs
    rw [walk]
    split_ifs
    · exact ih hloc hsegs.2
    · exact ih (fun hmem => hloc (mem_of_mem_dropLast hmem)) hsegs.2
    · apply ih _ hsegs.2
      simp [hloc, hsegs.1]

theorem fresh_notMem_walk {fresh : Seg} (hloc : fresh ∉ loc) (hsegs : fresh ∉ segs)
    (h : ¬ Stays loc.length segs) : fresh ∉ walk (fresh :: loc) segs := by
  induction segs generalizing loc with
  | nil => exact absurd trivial h
  | cons s rest ih =>
    rw [mem_cons, not_or] at hsegs
    rw [Stays] at h
    rw [walk]
    split_ifs at h ⊢ with hdot hup
    · exact ih hloc hsegs.2 h
    · by_cases hne : loc = []
      · subst hne
        exact notMem_walk not_mem_nil hsegs.2
      · rw [dropLast_cons_of_ne_nil hne]
        apply ih (fun hmem => hloc (mem_of_mem_dropLast hmem)) hsegs.2
        rw [length_dropLast]
        exact fun hstay => h ⟨length_pos_iff.mpr hne, hstay⟩
    · apply ih _ hsegs.2
      · simpa using h
      · simp [hloc, hsegs.1]

theorem stays_of_notMem (h : dotDot ∉ segs) (depth : ℕ) : Stays depth segs := by
  induction segs generalizing depth with
  | nil => trivial
  | cons s rest ih =>
    have hrest : dotDot ∉ rest := fun hmem => h (mem_cons_of_mem _ hmem)
    have hs : s ≠ dotDot := fun heq => h (heq ▸ mem_cons_self)
    rw [Stays, if_neg hs]
    split_ifs
    · exact ih hrest _
    · exact ih hrest _

theorem Stays.of_append {a b : List Seg} {depth : ℕ} (h : Stays depth (a ++ b)) :
    Stays depth a := by
  induction a generalizing depth with
  | nil => trivial
  | cons s a ih =>
    rw [cons_append, Stays] at h
    rw [Stays]
    split_ifs at h ⊢ with hdot hup
    · exact ih h
    · exact ⟨h.1, ih h.2⟩
    · exact ih h

theorem stays_filter_dot {depth : ℕ} : Stays depth (segs.filter (· ≠ dot)) ↔ Stays depth segs := by
  induction segs generalizing depth with
  | nil => rfl
  | cons s rest ih =>
    by_cases hs : s = dot
    · rw [filter_cons_of_neg (by simpa using hs), ih, Stays, if_pos hs]
    · rw [filter_cons_of_pos (by simpa using hs), Stays, Stays, if_neg hs, if_neg hs]
      split_ifs
      · exact and_congr_right fun _ => ih
      · exact ih

end Walk

namespace Root

variable {host : Host} (root : Root host)

theorem names_walk (loc : List Seg) : walk loc root.names = loc ++ root.names :=
  walk_names (fun n hn => ⟨(root.plain n hn).2.1, (root.plain n hn).2.2.1⟩) loc

theorem below_of_stays (h : Stays 0 segs) : root.Below ⟨root.drive, true, root.names ++ segs⟩ := by
  refine ⟨rfl, rfl, ?_⟩
  rw [walk_append, root.names_walk, nil_append]
  have hwalk : root.names <+: walk (root.names ++ []) segs := Stays.walk_below h
  rwa [append_nil] at hwalk

end Root

end HostPath
