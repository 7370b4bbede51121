import AetherVfs.Compose.MountGraph

/-!
# What a graph of mounts shows

`getattr` takes the last mount at or above a path that has it. A listing takes a name from the
last mount at or above the directory that lists it, and else from the first mount below whose
root is there, and `stored_name` does so without looking for a root. The three agree at a name
exactly where these choices do.
-/

namespace AetherVfs.Compose

open List Option

section

variable [ToLowercase]

/-- At one name, the listing and `getattr` agree on the kind of entry, the name is listed once if
it is there, and `stored_name` gives the name that is listed. -/
structure View.AgreesAt (v : View) (d : VPath) (n : Str) : Prop where
  listed : ∀ {es e}, v.readdir d = .ok es → e ∈ es → fold e.name = fold n →
    (v.stat (d ++ [n])).map Stat.kind = some e.stat.kind
  resolved : ∀ {s}, v.stat (d ++ [n]) = some s →
    ∃ es e, v.readdir d = .ok es ∧ es.filter (fun e => fold e.name = fold n) = [e]
  named : ∀ {r}, v.getattr d = .ok r →
    v.storedName (d ++ [n]) = .ok ((v.shown d n).map DirEntry.name)

namespace Mount

def stat (m : Mount View) (path : VPath) : Option Stat :=
  (stripPrefix path m.mountPrefix).bind m.backend.stat

/-- What the provider of a mount at or above `d` lists there under a name. -/
def entry (m : Mount View) (d : VPath) (n : Str) : Option DirEntry :=
  (stripPrefix d m.mountPrefix).bind fun rel => m.backend.shown rel n

/-- The root of the provider, for a mount at the path. -/
def rootAt (m : Mount View) (path : VPath) : Option Stat :=
  if m.mountPrefix.map fold = path.map fold then m.backend.stat [] else none

/-- How a mount at or below `d/n` spells the name. -/
def component (m : Mount View) (d : VPath) (n : Str) : Option Str :=
  (mountChildName d m.mountPrefix).filter fun name => fold name = fold n

/-- The name with the root of the provider, for a mount at or below `d/n`. -/
def rooted (m : Mount View) (d : VPath) (n : Str) : Option DirEntry :=
  (m.component d n).bind fun name => (m.backend.stat []).map (DirEntry.mk name)

theorem stat_concat {m : Mount View} (hm : m.backend.Consistent) (d : VPath) {n : Str}
    (hn : n ≠ []) :
    m.stat (d ++ [n]) = ((m.entry d n).map DirEntry.stat).or (m.rootAt (d ++ [n])) := by
  rw [stat, stripPrefix_concat, entry, rootAt]
  cases hrel : stripPrefix d m.mountPrefix with
  | some rel =>
    -- A mount above `d` is not at `d/n` as well.
    have hnot : m.mountPrefix.map fold ≠ (d ++ [n]).map fold := by
      intro heq
      obtain ⟨up, rfl, hup⟩ := stripPrefix_eq_some.mp hrel
      simpa using congrArg length (hup.trans heq)
    rw [if_neg hnot, if_neg hnot, or_none, or_none]
    exact (hm.map_stat_shown rel hn).symm
  | none =>
    rw [map_none, none_or]
    split_ifs with heq <;> rfl

end Mount

namespace MountGraph

variable {mounts : List (Mount View)} (h : ∀ m ∈ mounts, m.backend.Consistent)

section Loops

include h

theorem findStat_eq (path : VPath) :
    findStat path mounts = .ok (mounts.findSome? fun m => m.stat path) := by
  induction mounts with
  | nil => rfl
  | cons m ms ih =>
    have ih := ih fun m' hm' => h m' (mem_cons_of_mem _ hm')
    rw [findStat, findSome?_cons, Mount.stat]
    cases hrel : stripPrefix path m.mountPrefix with
    | none => exact ih
    | some rel =>
      dsimp only
      rw [(h m mem_cons_self).answers rel, bind_some]
      cases m.backend.stat rel with
      | none => exact ih
      | some s => rfl

theorem findName_eq (d : VPath) (n : Str) :
    findName (d ++ [n]) mounts =
      .ok (mounts.findSome? fun m => (m.entry d n).map DirEntry.name) := by
  induction mounts with
  | nil => rfl
  | cons m ms ih =>
    have ih := ih fun m' hm' => h m' (mem_cons_of_mem _ hm')
    rw [findName, findSome?_cons, Mount.entry, stripPrefix_concat]
    cases hrel : stripPrefix d m.mountPrefix with
    | none =>
      rw [map_none, none_or]
      split_ifs with heq
      · exact ih
      · exact ih
    | some rel =>
      rw [map_some, some_or, bind_some]
      dsimp only
      rw [if_neg (by simp), (h m mem_cons_self).storedNameOf_eq]
      cases m.backend.shown rel n with
      | none => exact ih
      | some e => rfl

theorem gather_eq (d : VPath) (g : Gathered) : ∃ g', gather d g mounts = .ok g' ∧
    (∀ n, g'.map.rows.lookup (fold n) =
      (mounts.reverse.findSome? fun m => m.entry d n).or (g.map.rows.lookup (fold n))) ∧
    (g'.sawDir = false → g.sawDir = false ∧ g'.map = g.map) := by
  induction mounts generalizing g with
  | nil => exact ⟨g, rfl, fun n => rfl, fun hs => ⟨hs, rfl⟩⟩
  | cons m ms ih =>
    have ih := ih fun m' hm' => h m' (mem_cons_of_mem _ hm')
    have hm := h m mem_cons_self
    have hrev : ∀ n, (m :: ms).reverse.findSome? (fun m => m.entry d n) =
        (ms.reverse.findSome? fun m => m.entry d n).or (m.entry d n) := by
      intro n
      rw [reverse_cons, findSome?_append, findSome?_singleton]
    -- A mount that lists nothing leaves the entries as they are.
    have hpass : ∀ g₁ : Gathered, g₁.map = g.map → g₁.sawDir = g.sawDir →
        (∀ n, m.entry d n = none) → ∃ g', gather d g₁ ms = .ok g' ∧
        (∀ n, g'.map.rows.lookup (fold n) =
          ((m :: ms).reverse.findSome? fun m => m.entry d n).or
            (g.map.rows.lookup (fold n))) ∧
        (g'.sawDir = false → g.sawDir = false ∧ g'.map = g.map) := by
      intro g₁ hmap hsaw hnone
      obtain ⟨g', hg', hlookup, hdir⟩ := ih g₁
      refine ⟨g', hg', fun n => ?_, fun hs => ?_⟩
      · rw [hlookup, hrev, hnone, or_none, hmap]
      · rw [← hsaw, ← hmap]
        exact hdir hs
    rw [gather]
    cases hrel : stripPrefix d m.mountPrefix with
    | none => exact hpass g rfl rfl fun n => by rw [Mount.entry, hrel]; rfl
    | some rel =>
      dsimp only
      have hentry : ∀ n, m.entry d n = m.backend.shown rel n := by
        intro n
        rw [Mount.entry, hrel, bind_some]
      rcases hm.readdir_cases rel with ⟨es, hread, hes⟩ | hread | hread
      · rw [hread]
        obtain ⟨g', hg', hlookup, hdir⟩ :=
          ih { g with map := g.map.insertAll es, sawDir := true }
        refine ⟨g', hg', fun n => ?_, fun hs => absurd (hdir hs).1 (by simp)⟩
        rw [hlookup, hrev, hentry, View.shown_of_ok hread, Option.or_assoc,
          Merged.lookup_insertAll hes]
      · rw [hread]
        exact hpass g rfl rfl fun n => (hentry n).trans (View.shown_of_error hread n)
      · rw [hread]
        refine hpass { g with notDir := true } rfl rfl fun n => ?_
        exact (hentry n).trans (View.shown_of_error hread n)

theorem surface_eq (d : VPath) (acc : Merged × Bool) :
    (∀ n, (surface d acc mounts).1.rows.lookup (fold n) =
      (acc.1.rows.lookup (fold n)).or (mounts.findSome? fun m => m.rooted d n)) ∧
    ((surface d acc mounts).2 = false → acc.2 = false ∧ (surface d acc mounts).1 = acc.1) := by
  induction mounts generalizing acc with
  | nil => exact ⟨fun n => (or_none).symm, fun hs => ⟨hs, rfl⟩⟩
  | cons m ms ih =>
    have ih := ih fun m' hm' => h m' (mem_cons_of_mem _ hm')
    -- A mount that adds nothing to what is there leaves the entries as they are.
    have hpass : (∀ n, acc.1.rows.lookup (fold n) = none → m.rooted d n = none) →
        (∀ n, (surface d acc ms).1.rows.lookup (fold n) =
          (acc.1.rows.lookup (fold n)).or ((m :: ms).findSome? fun m => m.rooted d n)) ∧
        ((surface d acc ms).2 = false →
          acc.2 = false ∧ (surface d acc ms).1 = acc.1) := by
      intro hnone
      refine ⟨fun n => ?_, (ih acc).2⟩
      rw [(ih acc).1, findSome?_cons]
      cases hn : acc.1.rows.lookup (fold n) with
      | some e => rfl
      | none => rw [hnone n hn]
    rw [surface]
    cases hname : mountChildName d m.mountPrefix with
    | none =>
      refine hpass fun n _ => ?_
      rw [Mount.rooted, Mount.component, hname]
      rfl
    | some name =>
      dsimp only
      have hrooted : ∀ n, m.rooted d n =
          if fold name = fold n then (m.backend.stat []).map (DirEntry.mk name) else none := by
        intro n
        rw [Mount.rooted, Mount.component, hname, filter_some]
        by_cases hn : fold name = fold n <;> simp [hn]
      by_cases hmem : fold name ∈ acc.1.rows
      · rw [if_pos hmem]
        refine hpass fun n hn => ?_
        rw [hrooted, if_neg]
        intro heq
        rw [← heq, AList.lookup_eq_none] at hn
        exact hn hmem
      · rw [if_neg hmem, (h m mem_cons_self).answers []]
        cases hst : m.backend.stat [] with
        | none =>
          refine hpass fun n _ => ?_
          rw [hrooted, hst, map_none, ite_self]
        | some st =>
          dsimp only
          obtain ⟨hlookup, hder⟩ := ih (acc.1.insert ⟨name, st⟩, true)
          refine ⟨fun n => ?_, fun hs => absurd (hder hs).1 (by simp)⟩
          rw [hlookup, Merged.lookup_insert, findSome?_cons, hrooted, hst,
            map_some]
          by_cases heq : fold name = fold n
          · have hnone := AList.lookup_eq_none.mpr hmem
            rw [if_pos heq, if_pos heq.symm, ← heq, hnone]
            rfl
          · rw [if_neg heq, if_neg (Ne.symm heq)]

end Loops

/-! ## What the graph answers -/

/-- The entry a listing of the graph shows. -/
def shownAt (mounts : List (Mount View)) (d : VPath) (n : Str) : Option DirEntry :=
  (mounts.reverse.findSome? fun m => m.entry d n).or (mounts.findSome? fun m => m.rooted d n)

section Answers

variable {d path : VPath} (hd : normalize d = some path)

include h hd

theorem readdir_spec :
    (∀ n, (view mounts).shown d n = shownAt mounts path n) ∧
      ∀ {es}, (view mounts).readdir d = .ok es → FoldUnique es := by
  obtain ⟨g, hg, hlookup, hsaw⟩ := gather_eq h path ⟨.empty, false, false⟩
  obtain ⟨hsurface, hderived⟩ := surface_eq h path (g.map, false)
  have hall : ∀ n, (surface path (g.map, false) mounts).1.rows.lookup (fold n) =
      shownAt mounts path n := by
    intro n
    rw [hsurface, hlookup, Merged.lookup_empty, or_none]
    rfl
  have hread : (view mounts).readdir d =
      if g.sawDir = false ∧ (surface path (g.map, false) mounts).2 = false then
        if g.notDir then .error .notADir
        else if path = [] ∧ mounts ≠ [] then .ok []
        else .error .notFound
      else .ok (surface path (g.map, false) mounts).1.sortedByFoldedName := by
    change readdir mounts d = _
    rw [readdir, hd]
    dsimp only
    rw [hg]
  by_cases hnothing : g.sawDir = false ∧ (surface path (g.map, false) mounts).2 = false
  · -- Neither loop found a directory, so that nothing is listed.
    have hempty : ∀ n, shownAt mounts path n = none := by
      intro n
      rw [← hall n, (hderived hnothing.2).2, (hsaw hnothing.1).2]
      rfl
    rw [if_pos hnothing] at hread
    refine ⟨fun n => ?_, fun {es} hes => ?_⟩
    · rw [hempty, View.shown, hread]
      split_ifs <;> rfl
    · rw [hread] at hes
      split_ifs at hes
      cases hes
      exact nodup_nil
  · rw [if_neg hnothing] at hread
    refine ⟨fun n => ?_, fun {es} hes => ?_⟩
    · rw [View.shown, hread, ← hall n, ← Merged.entryAt_sortedByFoldedName]
      rfl
    · rw [hread] at hes
      cases hes
      exact Merged.foldUnique_sortedByFoldedName _

theorem stat_eq {n : Str} (hn : IsName n) : (view mounts).stat (d ++ [n]) =
    mounts.reverse.findSome? fun m => m.stat (path ++ [n]) := by
  have hrev : ∀ m ∈ mounts.reverse, m.backend.Consistent :=
    fun m hm => h m (mem_reverse.mp hm)
  have hget : (view mounts).getattr (d ++ [n]) =
      .ok (mounts.reverse.findSome? fun m => m.stat (path ++ [n])) := by
    change getattr mounts (d ++ [n]) = _
    rw [getattr, normalize_concat d hn, hd, map_some]
    dsimp only
    rw [findStat_eq hrev]
    cases mounts.reverse.findSome? fun m => m.stat (path ++ [n]) with
    | none => simp
    | some s => rfl
  rw [View.stat, hget]
  rfl

theorem storedName_eq {n : Str} (hn : IsName n) : (view mounts).storedName (d ++ [n]) =
    .ok ((mounts.reverse.findSome? fun m => (m.entry path n).map DirEntry.name).or
      (mounts.findSome? fun m => m.component path n)) := by
  have hrev : ∀ m ∈ mounts.reverse, m.backend.Consistent :=
    fun m hm => h m (mem_reverse.mp hm)
  change storedName mounts (d ++ [n]) = _
  rw [storedName, normalize_concat d hn, hd, map_some]
  simp only [getLast?_append, getLast?_singleton, some_or,
    dropLast_concat]
  rw [findName_eq hrev]
  cases mounts.reverse.findSome? fun m => (m.entry path n).map DirEntry.name with
  | some name => rfl
  | none =>
    dsimp only
    rw [none_or]
    congr 1
    have hcomp : (fun m : Mount View => m.component path n) = fun m =>
        (mountChildName path m.mountPrefix).filter fun name => fold name = fold n := rfl
    rw [hcomp]
    clear h hrev
    induction mounts with
    | nil => rfl
    | cons m ms ih =>
      rw [filterMap_cons, findSome?_cons]
      cases mountChildName path m.mountPrefix with
      | none => exact ih
      | some name =>
        dsimp only
        rw [filter_some, find?_cons]
        by_cases hname : fold name = fold n <;> simp [hname, ih]

end Answers

/-- Where the mounts make the same choices at the name `n` of `d`. -/
structure Fitting (mounts : List (Mount View)) (d : VPath) (n : Str) : Prop where
  /-- If mounts at or above `d` have the name, then the last of them lists the kind of entry that
  the last mount at `d/n` itself has for a root, if one with a root is registered later. -/
  covered : ∀ {before m after e s}, mounts = before ++ m :: after → m.entry d n = some e →
    (∀ m' ∈ after, m'.entry d n = none) →
    (after.reverse.findSome? fun m' => m'.rootAt (d ++ [n])) = some s → s.kind = e.stat.kind
  /-- If none of them has it, but a mount is at or below `d/n`, then one with a root is at `d/n`
  itself, of the kind that the first mount at or below with a root has, and that mount spells the
  name as the first mount at or below does. -/
  uncovered : (∀ m ∈ mounts, m.entry d n = none) →
    ∀ {name}, (mounts.findSome? fun m => m.component d n) = some name →
    ∃ e s, (mounts.findSome? fun m => m.rooted d n) = some e ∧
      (mounts.reverse.findSome? fun m => m.rootAt (d ++ [n])) = some s ∧
      s.kind = e.stat.kind ∧ e.name = name

section Agreement

include h

variable {n : Str}

theorem findSome_stat {d : VPath} (hn : IsName n)
    (hnone : ∀ m ∈ mounts, m.entry d n = none) :
    (mounts.findSome? fun m => m.stat (d ++ [n])) =
      mounts.findSome? fun m => m.rootAt (d ++ [n]) := by
  induction mounts with
  | nil => rfl
  | cons m ms ih =>
    rw [findSome?_cons, findSome?_cons,
      Mount.stat_concat (h m mem_cons_self) d hn.1, hnone m mem_cons_self,
      map_none, none_or,
      ih (fun m' hm' => h m' (mem_cons_of_mem _ hm'))
        fun m' hm' => hnone m' (mem_cons_of_mem _ hm')]

omit h in
theorem findSome_rooted {d : VPath} {s : Stat}
    (hs : (mounts.reverse.findSome? fun m => m.rootAt (d ++ [n])) = some s) :
    ∃ name, (mounts.findSome? fun m => m.component d n) = some name := by
  obtain ⟨m, hm, hroot⟩ := exists_of_findSome?_eq_some hs
  have hm := mem_reverse.mp hm
  rw [Mount.rootAt] at hroot
  split_ifs at hroot with hkeys
  rw [map_append] at hkeys
  obtain ⟨up, t, hpre, hup, ht⟩ := map_eq_append_iff.mp hkeys
  obtain ⟨name, t', rfl, hname, ht'⟩ := map_eq_cons_iff.mp ht
  have hcomp : m.component d n = some name := by
    rw [Mount.component, mountChildName_eq_some.mpr ⟨up, t', hpre, hup⟩, filter_some,
      if_pos (by simpa using hname)]
  apply isSome_iff_exists.mp
  exact findSome?_isSome_iff.mpr ⟨m, hm, by rw [hcomp]; rfl⟩

theorem agreesAt_normalized {d path : VPath} (hd : normalize d = some path)
    (hn : IsName n) : (view mounts).AgreesAt d n ↔
      (mounts.reverse.findSome? fun m => m.stat (path ++ [n])).map Stat.kind =
        (shownAt mounts path n).map (fun e => e.stat.kind) ∧
      (mounts.reverse.findSome? fun m => (m.entry path n).map DirEntry.name).or
          (mounts.findSome? fun m => m.component path n) =
        (shownAt mounts path n).map DirEntry.name := by
  obtain ⟨hshown, hunique⟩ := readdir_spec h hd
  have hstat := stat_eq h hd hn
  have hname := storedName_eq h hd hn
  have hget : ∃ r, (view mounts).getattr d = .ok r := by
    have hrev : ∀ m ∈ mounts.reverse, m.backend.Consistent :=
      fun m hm => h m (mem_reverse.mp hm)
    change ∃ r, getattr mounts d = .ok r
    rw [getattr, hd]
    dsimp only
    rw [findStat_eq hrev]
    cases mounts.reverse.findSome? fun m => m.stat path with
    | none => exact ⟨_, rfl⟩
    | some s => exact ⟨_, rfl⟩
  have hboth := View.listed_resolved_iff (n := n) Stat.kind hunique
  rw [hstat, hshown] at hboth
  rw [← hboth]
  constructor
  · intro hagree
    refine ⟨⟨fun es e hread hmem hfold => ?_, fun st hst => ?_⟩, ?_⟩
    · rw [← hstat]
      exact hagree.listed hread hmem hfold
    · exact hagree.resolved (hstat.trans hst)
    · obtain ⟨r, hr⟩ := hget
      have hnamed := hagree.named hr
      rw [hname, hshown] at hnamed
      exact Except.ok.inj hnamed
  · rintro ⟨⟨hlisted, hresolved⟩, hnames⟩
    refine ⟨fun {es e} hread hmem hfold => ?_, fun {st} hst => ?_, fun {r} _ => ?_⟩
    · rw [hstat]
      exact hlisted es e hread hmem hfold
    · exact hresolved st (hstat ▸ hst)
    · rw [hname, hnames, hshown]

theorem covered_answers {before after : List (Mount View)} {m : Mount View} {d : VPath}
    {e : DirEntry} (hn : IsName n) (hsplit : mounts = before ++ m :: after)
    (he : m.entry d n = some e) (hafter : ∀ m' ∈ after, m'.entry d n = none) :
    shownAt mounts d n = some e ∧
      (mounts.reverse.findSome? fun m => m.stat (d ++ [n])) =
        (after.reverse.findSome? fun m => m.rootAt (d ++ [n])).or (some e.stat) ∧
      (mounts.reverse.findSome? fun m => (m.entry d n).map DirEntry.name) = some e.name := by
  have hrev : mounts.reverse = after.reverse ++ m :: before.reverse := by
    rw [hsplit, reverse_append, reverse_cons, append_assoc, singleton_append]
  have hafter : ∀ m' ∈ after.reverse, m'.entry d n = none :=
    fun m' hm' => hafter m' (mem_reverse.mp hm')
  have hcons : ∀ m' ∈ after.reverse, m'.backend.Consistent := by
    intro m' hm'
    apply h
    rw [hsplit]
    exact mem_append_right _ (mem_cons_of_mem _ (mem_reverse.mp hm'))
  have hm : m.backend.Consistent := h m (by simp [hsplit])
  refine ⟨?_, ?_, ?_⟩
  · rw [shownAt, hrev, findSome?_append, findSome?_eq_none_iff.mpr hafter,
      findSome?_cons, he]
    rfl
  · rw [hrev, findSome?_append, findSome_stat hcons hn hafter, findSome?_cons,
      Mount.stat_concat hm d hn.1, he]
    rfl
  · have hnone : ∀ m' ∈ after.reverse, (m'.entry d n).map DirEntry.name = none := by
      intro m' hm'
      rw [hafter m' hm']
      rfl
    rw [hrev, findSome?_append, findSome?_eq_none_iff.mpr hnone, findSome?_cons, he]
    rfl

theorem uncovered_answers {d : VPath} (hn : IsName n)
    (hnone : ∀ m ∈ mounts, m.entry d n = none) :
    shownAt mounts d n = (mounts.findSome? fun m => m.rooted d n) ∧
      (mounts.reverse.findSome? fun m => m.stat (d ++ [n])) =
        (mounts.reverse.findSome? fun m => m.rootAt (d ++ [n])) ∧
      (mounts.reverse.findSome? fun m => (m.entry d n).map DirEntry.name) = none := by
  have hnone' : ∀ m ∈ mounts.reverse, m.entry d n = none :=
    fun m hm => hnone m (mem_reverse.mp hm)
  have hrev : ∀ m ∈ mounts.reverse, m.backend.Consistent :=
    fun m hm => h m (mem_reverse.mp hm)
  refine ⟨?_, findSome_stat hrev hn hnone', ?_⟩
  · rw [shownAt, findSome?_eq_none_iff.mpr hnone', none_or]
  · rw [findSome?_eq_none_iff]
    intro m hm
    rw [hnone' m hm]
    rfl

/-- The three ways to look agree at a name exactly where the mounts make the same choices. -/
theorem agreesAt_iff (d : VPath) {n : Str} (hn : IsName n) :
    (view mounts).AgreesAt d n ↔ ∀ path, normalize d = some path → Fitting mounts path n := by
  cases hd : normalize d with
  | none =>
    -- Every call refuses the path.
    have hread : (view mounts).readdir d = .error .badRequest := by
      change readdir mounts d = _
      rw [readdir, hd]
    have hget : (view mounts).getattr d = .error .badRequest := by
      change getattr mounts d = _
      rw [getattr, hd]
    have hstat : (view mounts).stat (d ++ [n]) = none := by
      have : (view mounts).getattr (d ++ [n]) = .error .badRequest := by
        change getattr mounts (d ++ [n]) = _
        rw [getattr, normalize_concat d hn, hd]
        rfl
      rw [View.stat, this]
      rfl
    simp only [reduceCtorEq, false_implies, implies_true, iff_true]
    refine ⟨fun {es e} hes => ?_, fun {s} hs => ?_, fun {r} hr => ?_⟩
    · rw [hread] at hes
      cases hes
    · rw [hstat] at hs
      cases hs
    · rw [hget] at hr
      cases hr
  | some path =>
    rw [agreesAt_normalized h hd hn]
    simp only [some.injEq, forall_eq']
    constructor
    · rintro ⟨hkind, hnames⟩
      refine ⟨fun {before m after e s} hsplit he hafter hs => ?_, fun hnone {name} hname => ?_⟩
      · obtain ⟨hshown, hstat, -⟩ := covered_answers h hn hsplit he hafter
        rw [hshown, hstat, hs] at hkind
        exact some.inj hkind
      · obtain ⟨hshown, hstat, hno⟩ := uncovered_answers h hn hnone
        rw [hshown, hno, hname, none_or, eq_comm, map_eq_some_iff] at hnames
        obtain ⟨e, he, hspelled⟩ := hnames
        rw [hshown, hstat, he, map_some, map_eq_some_iff] at hkind
        obtain ⟨s, hs, hsame⟩ := hkind
        exact ⟨e, s, he, hs, hsame, hspelled⟩
    · intro hfit
      cases hlast : mounts.reverse.findSome? fun m => m.entry path n with
      | some e =>
        obtain ⟨after, m, before, hrev, he, hafter⟩ := findSome?_eq_some_iff.mp hlast
        have hsplit : mounts = before.reverse ++ m :: after.reverse := by
          have := congrArg reverse hrev
          simpa using this
        have hafter : ∀ m' ∈ after.reverse, m'.entry path n = none :=
          fun m' hm' => hafter m' (mem_reverse.mp hm')
        obtain ⟨hshown, hstat, hname⟩ := covered_answers h hn hsplit he hafter
        rw [hshown, hstat, hname]
        refine ⟨?_, rfl⟩
        cases hs : after.reverse.reverse.findSome? fun m => m.rootAt (path ++ [n]) with
        | none => rfl
        | some s =>
          have hsame := hfit.covered hsplit he hafter hs
          exact congrArg some hsame
      | none =>
        have hnone : ∀ m ∈ mounts, m.entry path n = none := fun m hm =>
          findSome?_eq_none_iff.mp hlast m (mem_reverse.mpr hm)
        obtain ⟨hshown, hstat, hname⟩ := uncovered_answers h hn hnone
        rw [hshown, hstat, hname, none_or]
        cases hcomp : mounts.findSome? fun m => m.component path n with
        | some name =>
          obtain ⟨e, s, he, hs, hsame, hspelled⟩ := hfit.uncovered hnone hcomp
          rw [he, hs]
          exact ⟨congrArg some hsame, congrArg some hspelled.symm⟩
        | none =>
          -- No mount is at or below the name, so that none has a root to show.
          have hrooted : (mounts.findSome? fun m => m.rooted path n) = none := by
            rw [findSome?_eq_none_iff] at hcomp ⊢
            intro m hm
            rw [Mount.rooted, hcomp m hm]
            rfl
          have hroot : (mounts.reverse.findSome? fun m => m.rootAt (path ++ [n])) = none := by
            rw [eq_none_iff_forall_ne_some]
            intro s hs
            obtain ⟨name, hname⟩ := findSome_rooted hs
            rw [hcomp] at hname
            cases hname
          rw [hrooted, hroot]
          exact ⟨rfl, rfl⟩

end Agreement

end MountGraph

end

namespace MountGraph

attribute [local instance] asciiLowercase

abbrev mounted (mountPrefix : VPath) (t : FixedTree) : Mount View :=
  ⟨mountPrefix, t.view⟩

/-- A file `x` in the directory `d` of the one mount, at `data`. -/
theorem agreesAt_file :
    (view [mounted [['d', 'a', 't', 'a']] filled]).AgreesAt [['D', 'a', 't', 'a'], ['.'], ['d']]
      ['X'] := by
  have hfilled : ∀ m ∈ [mounted [['d', 'a', 't', 'a']] filled], m.backend.Consistent := by
    intro m hm
    rw [mem_singleton.mp hm]
    exact filled.consistent (by decide)
  refine (agreesAt_iff hfilled _ (by decide)).mpr fun path hpath => ?_
  have hpath : path = [['D', 'a', 't', 'a'], ['d']] := (some.inj hpath).symm
  subst hpath
  constructor
  · -- Nothing is registered after the one mount.
    intro before m after e s hsplit _ _ hs
    have hlen := congrArg length hsplit
    simp only [length_append, length_cons, length_nil] at hlen
    obtain rfl : after = [] := length_eq_zero_iff.mp (by omega)
    cases hs
  · intro hnone
    exact absurd (hnone _ mem_cons_self) (by decide +kernel)

/-- One mount, at `data/a/b`: the listing of `data` shows `a`, and `getattr` knows nothing of
it. -/
theorem deepMount_disagrees :
    let mounts := [mounted [['d', 'a', 't', 'a'], ['a'], ['b']] bare]
    (∀ m ∈ mounts, m.backend.Consistent) ∧
      ¬ (view mounts).AgreesAt [['d', 'a', 't', 'a']] ['a'] := by
  refine ⟨fun m hm => ?_, fun hagree => ?_⟩
  · rw [mem_singleton.mp hm]
    exact bare.consistent (by decide)
  · have hlisted := @hagree.listed [⟨['a'], directory⟩]
      ⟨['a'], directory⟩ (by decide +kernel) mem_cons_self rfl
    exact absurd hlisted (by decide +kernel)

end MountGraph

end AetherVfs.Compose
