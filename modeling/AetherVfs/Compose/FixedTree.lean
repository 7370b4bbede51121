import AetherVfs.Compose.Provider

/-!
# A tree that never changes

The simplest provider: a finite tree, each row an entry under the folded path of its directory.
Its root may be missing, or a file. Where no entry is under a missing or plain directory and no
two entries of one directory fold to the same name, its answers fit together.
-/

namespace AetherVfs.Compose

open List

structure FixedTree where
  root : Option Stat
  rows : List (Key × DirEntry)

namespace FixedTree

variable [ToLowercase]

/-- The entry in the directory with the key `d` whose name folds to `k`. -/
def entry (t : FixedTree) (d : Key) (k : Str) : Option DirEntry :=
  (t.rows.find? fun r => decide (r.1 = d ∧ fold r.2.name = k)).map Prod.snd

def stat (t : FixedTree) (p : VPath) : Option Stat :=
  match p.getLast? with
  | none => t.root
  | some n => (t.entry (p.dropLast.map fold) (fold n)).map DirEntry.stat

def listing (t : FixedTree) (d : Key) : List DirEntry :=
  (t.rows.filter fun r => r.1 = d).map Prod.snd

def view (t : FixedTree) : View where
  getattr p := .ok (t.stat p)
  readdir d :=
    match t.stat d with
    | none => .error .notFound
    | some s => if s.kind = .dir then .ok (t.listing (d.map fold)) else .error .notADir
  storedName _ := .error .notSupported

def WellFormed (t : FixedTree) : Prop :=
  (t.rows.map fun r => (r.1, fold r.2.name)).Nodup ∧
    ∀ r ∈ t.rows, (t.stat r.1).map Stat.kind = some .dir ∧ r.1.map fold = r.1

instance (t : FixedTree) : Decidable t.WellFormed := inferInstanceAs (Decidable (_ ∧ _))

theorem stat_concat (t : FixedTree) (d : VPath) (n : Str) :
    t.stat (d ++ [n]) = (t.entry (d.map fold) (fold n)).map DirEntry.stat := by
  simp [stat]

theorem stat_fold (t : FixedTree) {p q : VPath} (h : p.map fold = q.map fold) :
    t.stat p = t.stat q := by
  rcases eq_nil_or_concat p with rfl | ⟨d, n, rfl⟩
  · rw [map_nil, eq_comm, map_eq_nil_iff] at h
    rw [h]
  · rcases eq_nil_or_concat q with rfl | ⟨d', n', rfl⟩
    · simp at h
    · simp only [concat_eq_append, map_append, map_cons, map_nil] at h
      obtain ⟨hd, hn⟩ := append_inj' h rfl
      rw [concat_eq_append, concat_eq_append, stat_concat, stat_concat, hd,
        cons.inj hn |>.1]

theorem entryAt_listing (t : FixedTree) (d : Key) (k : Str) :
    entryAt (t.listing d) k = t.entry d k := by
  rw [entryAt, listing, find?_map, entry, find?_filter]
  congr 2
  funext r
  simp

theorem foldUnique_listing {t : FixedTree} (h : t.WellFormed) (d : Key) :
    FoldUnique (t.listing d) := by
  have hsub := h.1.sublist ((filter_sublist (p := fun r => decide (r.1 = d))).map
    fun r : Key × DirEntry => (r.1, fold r.2.name))
  have hmap : (t.rows.filter fun r => r.1 = d).map (fun r => (r.1, fold r.2.name)) =
      ((t.rows.filter fun r => r.1 = d).map fun r => fold r.2.name).map fun k => (d, k) := by
    rw [map_map]
    refine map_congr_left fun r hr => ?_
    have hd : r.1 = d := by simpa using (mem_filter.mp hr).2
    simp [hd]
  rw [hmap] at hsub
  rw [FoldUnique, listing, map_map]
  exact hsub.of_map

theorem consistent {t : FixedTree} (h : t.WellFormed) : t.view.Consistent where
  answers _ := rfl
  folds := t.stat_fold
  missing := by
    intro d hd
    have hd : t.stat d = none := hd
    simp [view, hd]
  plain := by
    intro d s hd hk
    have hd : t.stat d = some s := hd
    simp [view, hd, hk]
  lists := by
    intro d s hd hk
    have hd : t.stat d = some s := hd
    exact ⟨t.listing (d.map fold), by simp [view, hd, hk], foldUnique_listing h _⟩
  listed := by
    intro d n e he
    obtain ⟨es, hread, he⟩ := Option.bind_eq_some_iff.mp he
    have hes : es = t.listing (d.map fold) := by
      simp only [view] at hread
      split at hread
      · cases hread
      · split_ifs at hread
        · cases hread
          rfl
        · cases hread
    change t.stat (d ++ [n]) = some e.stat
    rw [stat_concat, ← entryAt_listing, ← hes, he]
    rfl
  resolved := by
    intro d n s _ hs
    have hs : t.stat (d ++ [n]) = some s := hs
    rw [stat_concat, Option.map_eq_some_iff] at hs
    obtain ⟨e, he, -⟩ := hs
    obtain ⟨r, hr, rfl⟩ := Option.map_eq_some_iff.mp he
    have hrow := find?_some hr
    simp only [decide_eq_true_eq] at hrow
    obtain ⟨ds, hds, hdir⟩ := Option.map_eq_some_iff.mp (h.2 r (mem_of_find?_eq_some hr)).1
    have hd : t.stat d = some ds := by
      rw [← hds, hrow.1]
      apply stat_fold
      simp
    refine ⟨r.2, ?_⟩
    simp only [View.shown, view, hd, if_pos hdir, Except.toOption, Option.bind_some]
    rw [entryAt_listing, he]
  named _ := Or.inl rfl

theorem blind (t : FixedTree) : t.view.Blind := by
  intro p q hpq
  simp only [view, t.stat_fold hpq, hpq]

/-- The tree as a provider. A provider of files only, as `InlineProvider` is, refuses the open of
a directory as not found. -/
def provider (t : FixedTree) (access : Access) (opensDirs : Bool) : Provider where
  State := Unit
  state := ()
  access := access
  view _ := t.view
  openPath _ p _ :=
    match t.stat p with
    | none => (.error .notFound, ())
    | some s =>
      if s.kind = .dir ∧ opensDirs = false then (.error .notFound, ())
      else (.ok ⟨0, s.size, s.kind = .dir⟩, ())
  onHandle _ _ _ := (.ok .done, ())
  onPath _ _ _ := (.error .notSupported, ())
  rename _ _ _ := (.error .notSupported, ())

end FixedTree

end AetherVfs.Compose
