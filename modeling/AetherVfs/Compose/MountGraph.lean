import AetherVfs.Compose.Layered

/-!
# Mounts

`vfs-compose/src/mount_graph.rs` and `path.rs`: providers placed at paths of one tree, in the
order they were registered. A path is given as what stands between its separators, of either
kind, and is normalized by every call.
-/

namespace AetherVfs.Compose

open List

def normalizeFrom (out : VPath) : List Str → Option VPath
  | [] => some out
  | part :: parts =>
    if part = [] ∨ part = ['.'] then normalizeFrom out parts
    else if part = ['.', '.'] then
      if out = [] then none else normalizeFrom out.dropLast parts
    else normalizeFrom (out ++ [part]) parts

/-- `normalize`: `none` for a path that escapes the root. -/
def normalize (p : VPath) : Option VPath := normalizeFrom [] p

/-- What can be the name of an entry. -/
def IsName (n : Str) : Prop := n ≠ [] ∧ n ≠ ['.'] ∧ n ≠ ['.', '.']

instance (n : Str) : Decidable (IsName n) := inferInstanceAs (Decidable (_ ∧ _))

theorem normalizeFrom_append (out : VPath) (a b : List Str) :
    normalizeFrom out (a ++ b) = (normalizeFrom out a).bind fun out => normalizeFrom out b := by
  induction a generalizing out with
  | nil => rfl
  | cons part a ih =>
    rw [cons_append, normalizeFrom, normalizeFrom]
    split_ifs
    · exact ih out
    · rfl
    · exact ih _
    · exact ih _

theorem normalize_concat (d : VPath) {n : Str} (hn : IsName n) :
    normalize (d ++ [n]) = (normalize d).map fun path => path ++ [n] := by
  rw [normalize, normalizeFrom_append, normalize]
  cases normalizeFrom [] d with
  | none => rfl
  | some path => simp [normalizeFrom, hn.1, hn.2.1, hn.2.2]

section Fold

variable [ToLowercase]

/-- `strip_prefix`: the rest of the path below the mount point. A mount point has no empty
component, so that nothing matches it once the path has ended. -/
def stripPrefix : VPath → VPath → Option VPath
  | path, [] => some path
  | [], _ :: _ => none
  | head :: tail, want :: wants => if fold head = fold want then stripPrefix tail wants else none

/-- `mount_child_name`: the next component of a mount point that lies below the path. -/
def mountChildName : VPath → VPath → Option Str
  | _, [] => none
  | [], name :: _ => some name
  | have' :: path, head :: rest =>
    if fold head = fold have' then mountChildName path rest else none

theorem stripPrefix_eq_some {path pre rel : VPath} :
    stripPrefix path pre = some rel ↔ ∃ up, path = up ++ rel ∧ up.map fold = pre.map fold := by
  induction pre generalizing path with
  | nil =>
    cases path <;> simp [stripPrefix, eq_comm]
  | cons want wants ih =>
    cases path with
    | nil =>
      simp only [stripPrefix, reduceCtorEq, false_iff]
      rintro ⟨up, hpath, hup⟩
      obtain ⟨rfl, -⟩ := append_eq_nil_iff.mp hpath.symm
      cases hup
    | cons head tail =>
      rw [stripPrefix]
      constructor
      · intro h
        split_ifs at h with hhead
        obtain ⟨up, rfl, hup⟩ := ih.mp h
        exact ⟨head :: up, rfl, by rw [map_cons, map_cons, hup, hhead]⟩
      · rintro ⟨up, hpath, hup⟩
        obtain ⟨head', up', rfl, hhead, hup'⟩ := map_eq_cons_iff.mp hup
        obtain ⟨rfl, rfl⟩ := cons.inj hpath
        rw [if_pos hhead]
        exact ih.mpr ⟨up', rfl, hup'⟩

theorem mountChildName_eq_some {path pre : VPath} {name : Str} :
    mountChildName path pre = some name ↔
      ∃ up rest, pre = up ++ name :: rest ∧ up.map fold = path.map fold := by
  induction path generalizing pre with
  | nil =>
    cases pre with
    | nil => simp [mountChildName]
    | cons head rest =>
      simp only [mountChildName, Option.some.injEq, map_nil, map_eq_nil_iff]
      constructor
      · rintro rfl
        exact ⟨[], rest, rfl, rfl⟩
      · rintro ⟨up, rest', hpre, rfl⟩
        exact (cons.inj hpre).1
  | cons have' path ih =>
    cases pre with
    | nil => simp [mountChildName]
    | cons head rest =>
      rw [mountChildName]
      constructor
      · intro h
        split_ifs at h with hhead
        obtain ⟨up, rest', rfl, hup⟩ := ih.mp h
        exact ⟨head :: up, rest', rfl, by rw [map_cons, map_cons, hup, hhead]⟩
      · rintro ⟨up, rest', hpre, hup⟩
        obtain ⟨head', up', rfl, hhead, hup'⟩ := map_eq_cons_iff.mp hup
        obtain ⟨rfl, rfl⟩ := cons.inj hpre
        rw [if_pos hhead]
        exact ih.mpr ⟨up', rest', rfl, hup'⟩

theorem stripPrefix_concat (d : VPath) (n : Str) (pre : VPath) :
    stripPrefix (d ++ [n]) pre =
      ((stripPrefix d pre).map fun rel => rel ++ [n]).or
        (if pre.map fold = (d ++ [n]).map fold then some [] else none) := by
  apply Option.ext
  intro rel
  rw [Option.or_eq_some_iff, Option.map_eq_some_iff, stripPrefix_eq_some]
  constructor
  · rintro ⟨up, heq, hup⟩
    rcases eq_nil_or_concat rel with rfl | ⟨rel', n', rfl⟩
    · rw [append_nil] at heq
      subst heq
      rw [if_pos hup.symm]
      refine Or.inr ⟨?_, rfl⟩
      rw [Option.map_eq_none_iff, Option.eq_none_iff_forall_ne_some]
      intro rel hrel
      obtain ⟨up, rfl, hup'⟩ := stripPrefix_eq_some.mp hrel
      simpa using congrArg length (hup'.trans hup.symm)
    · rw [concat_eq_append, ← append_assoc] at heq
      obtain ⟨rfl, hn⟩ := append_inj' heq rfl
      refine Or.inl ⟨rel', stripPrefix_eq_some.mpr ⟨up, rfl, hup⟩, ?_⟩
      rw [concat_eq_append, hn]
  · rintro (⟨rel', hrel', rfl⟩ | ⟨-, h⟩)
    · obtain ⟨up, rfl, hup⟩ := stripPrefix_eq_some.mp hrel'
      exact ⟨up, by simp, hup⟩
    · split_ifs at h with hup
      cases h
      exact ⟨d ++ [n], by simp, hup.symm⟩

structure Mount (β : Type) where
  mountPrefix : VPath
  backend : β

namespace MountGraph

/-! ## The calls that look

The loops over the mounts, each with what its provider answers at present. -/

def findStat (path : VPath) : List (Mount View) → Except Status (Option Stat)
  | [] => .ok none
  | m :: ms =>
    match stripPrefix path m.mountPrefix with
    | none => findStat path ms
    | some rel =>
      match m.backend.getattr rel with
      | .error e => .error e
      | .ok (some s) => .ok (some s)
      | .ok none => findStat path ms

def getattr (mounts : List (Mount View)) (p : VPath) : Except Status (Option Stat) :=
  match normalize p with
  | none => .error .badRequest
  | some path =>
    match findStat path mounts.reverse with
    | .error e => .error e
    | .ok (some s) => .ok (some s)
    -- The root is there if anything is mounted.
    | .ok none => .ok (if path = [] ∧ mounts ≠ [] then some ⟨.dir, 0, 0⟩ else none)

def findName (path : VPath) : List (Mount View) → Except Status (Option Str)
  | [] => .ok none
  | m :: ms =>
    match stripPrefix path m.mountPrefix with
    | none => findName path ms
    | some rel =>
      if rel = [] then findName path ms
      else
        match m.backend.storedNameOf rel with
        | .error e => .error e
        | .ok (some name) => .ok (some name)
        | .ok none => findName path ms

def storedName (mounts : List (Mount View)) (p : VPath) : Except Status (Option Str) :=
  match normalize p with
  | none => .error .badRequest
  | some path =>
    match path.getLast? with
    | none => .ok none
    | some last =>
      match findName path mounts.reverse with
      | .error e => .error e
      | .ok (some name) => .ok (some name)
      | .ok none =>
        .ok ((mounts.filterMap fun m => mountChildName path.dropLast m.mountPrefix).find?
          fun name => fold name = fold last)

/-- A listing under way: the entries so far, and whether some mount has the path as a directory
or as a file. -/
structure Gathered where
  map : Merged
  sawDir : Bool
  notDir : Bool

def gather (path : VPath) : Gathered → List (Mount View) → Except Status Gathered
  | g, [] => .ok g
  | g, m :: ms =>
    match stripPrefix path m.mountPrefix with
    | none => gather path g ms
    | some rel =>
      match m.backend.readdir rel with
      | .ok entries => gather path { g with map := g.map.insertAll entries, sawDir := true } ms
      | .error .notFound => gather path g ms
      | .error .notADir => gather path { g with notDir := true } ms
      | .error e => .error e

/-- The loop of `readdir` over the mounts below the path, with whether one was surfaced. -/
def surface (path : VPath) : Merged × Bool → List (Mount View) → Merged × Bool
  | acc, [] => acc
  | acc, m :: ms =>
    match mountChildName path m.mountPrefix with
    | none => surface path acc ms
    | some name =>
      if fold name ∈ acc.1.rows then surface path acc ms
      else
        match m.backend.getattr [] with
        | .ok (some stat) => surface path (acc.1.insert ⟨name, stat⟩, true) ms
        | _ => surface path acc ms

def readdir (mounts : List (Mount View)) (p : VPath) : Except Status (List DirEntry) :=
  match normalize p with
  | none => .error .badRequest
  | some path =>
    match gather path ⟨.empty, false, false⟩ mounts with
    | .error e => .error e
    | .ok g =>
      let acc := surface path (g.map, false) mounts
      if g.sawDir = false ∧ acc.2 = false then
        if g.notDir then .error .notADir
        else if path = [] ∧ mounts ≠ [] then .ok []
        else .error .notFound
      else .ok acc.1.sortedByFoldedName

def view (mounts : List (Mount View)) : View where
  getattr := getattr mounts
  readdir := readdir mounts
  storedName := storedName mounts

end MountGraph

/-! ## The calls that change something -/

/-- `MountGraph`: the providers, and where they are mounted in the order of registration. One
provider may be mounted several times. -/
structure MountGraph (ι : Type) where
  backends : ι → Provider
  mounts : List (Mount ι)

namespace MountGraph

variable {ι : Type} [DecidableEq ι] (g : MountGraph ι)

structure State where
  children : ∀ i, (g.backends i).State
  opens : HandleTable (ι × Handle)

variable {g}

namespace State

def ofChild {α : Type} (s : State g) (i : ι) (x : α × (g.backends i).State) : α × State g :=
  (x.1, { s with children := Function.update s.children i x.2 })

/-- `mkdir`, `remove` and `set_attr`: the last mount at or above the path takes the call. -/
def onPath (s : State g) (op : PathOp) (p : VPath) : Except Status Unit × State g :=
  match normalize p with
  | none => (.error .badRequest, s)
  | some path =>
    match g.mounts.reverse.findSome? fun m =>
      (stripPrefix path m.mountPrefix).map fun rel => (m.backend, rel) with
    | none => (.error .notFound, s)
    | some (i, rel) => s.ofChild i ((g.backends i).onPath (s.children i) op rel)

/-- `rename`: the last mount at or above both paths takes the call. -/
def rename (s : State g) (src dst : VPath) : Except Status Unit × State g :=
  match normalize src, normalize dst with
  | some src, some dst =>
    match g.mounts.reverse.findSome? fun m =>
      (stripPrefix src m.mountPrefix).bind fun srcRel =>
        (stripPrefix dst m.mountPrefix).map fun dstRel => (m.backend, srcRel, dstRel) with
    | none => (.error .badRequest, s)
    | some (i, srcRel, dstRel) =>
      s.ofChild i ((g.backends i).rename (s.children i) srcRel dstRel)
  | _, _ => (.error .badRequest, s)

end State

end MountGraph

end Fold

end AetherVfs.Compose
