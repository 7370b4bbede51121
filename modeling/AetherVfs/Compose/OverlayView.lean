import AetherVfs.Compose.Overlay

/-!
# What an overlay shows

The walk through the index finds a path hidden exactly when a marker that it knows of hides it or a
directory on the way to it: one in the index, or in the upper where nothing was scanned. A listing
takes names out by the markers it meets in the upper's listing, and knows a reserved name when it
sees one; `getattr`, `open` and `stored_name` take what the upper has under any name.
-/

namespace AetherVfs.Compose.Overlay

open List

section

variable [ToLowercase] {upper base : View} {ix : WhiteoutIndex}

/-! ## The walk -/

/-- The upper has a marker in `d` for the names that fold to `k`. -/
def Marked (upper : View) (d : VPath) (k : Str) : Prop :=
  ∃ es, upper.readdir d = .ok es ∧ ∃ e ∈ es, Marks k e

/-- A walk takes a name of `d` that folds to `k` for hidden: by the index if `d` was scanned, and
else by the markers that a scan of the upper finds. -/
def Known (upper : View) (ix : WhiteoutIndex) (d : VPath) (k : Str) : Prop :=
  match ix.dirs.lookup (d.map fold) with
  | some hidden => k ∈ hidden
  | none => Marked upper d k

/-- A marker hides the path itself. The root has itself for a parent, and the empty name. -/
def Hides (known : VPath → Str → Prop) (p : VPath) : Prop :=
  known p.dropLast (fold (p.getLast?.getD []))

theorem scanWhiteouts_spec (hu : upper.Consistent) (d : VPath) :
    ∃ hidden, scanWhiteouts upper d = .ok hidden ∧ ∀ k, k ∈ hidden ↔ Marked upper d k := by
  have hempty : ∀ e, upper.readdir d = .error e → ∀ k, k ∈ ([] : List Str) ↔ Marked upper d k := by
    intro e he k
    refine ⟨fun h => absurd h not_mem_nil, ?_⟩
    rintro ⟨es, hread, -⟩
    rw [he] at hread
    cases hread
  rcases hu.readdir_cases d with ⟨es, hread, -⟩ | hread | hread
  · refine ⟨_, by rw [scanWhiteouts, hread], fun k => ?_⟩
    rw [mem_filterMap, Marked, hread]
    simp [Marks]
  · exact ⟨[], by rw [scanWhiteouts, hread], hempty _ hread⟩
  · exact ⟨[], by rw [scanWhiteouts, hread], hempty _ hread⟩

/-- A scan brings nothing into the index that was not known. -/
theorem known_insert (hblind : upper.Blind) {dir : VPath} {hidden : List Str}
    (hscan : ∀ k, k ∈ hidden ↔ Marked upper dir k) (hnot : dir.map fold ∉ ix.dirs) :
    Known upper { ix with dirs := ix.dirs.insert (dir.map fold) hidden } = Known upper ix := by
  funext d k
  simp only [Known, Table.lookup_insert_eq_ite]
  by_cases hd : d.map fold = dir.map fold
  · rw [if_pos hd, hd, AList.lookup_eq_none.mpr hnot]
    dsimp only
    rw [hscan, Marked, Marked, hblind hd]
  · rw [if_neg hd]

/-- What a walk from a path outwards is to find. -/
def WalkHides (known : VPath → Str → Prop) (own ancestors : Bool) (p : VPath) : Prop :=
  own = true ∧ Hides known p ∨
    ancestors = true ∧ ∃ q, q <+: p ∧ q ≠ p ∧ q ≠ [] ∧ Hides known q

theorem walkHides_concat (known : VPath → Str → Prop) (own ancestors : Bool) (d : VPath) (n : Str) :
    WalkHides known own ancestors (d ++ [n]) ↔
      own = true ∧ known d (fold n) ∨
        ancestors = true ∧ d ≠ [] ∧ WalkHides known true ancestors d := by
  have hown : Hides known (d ++ [n]) ↔ known d (fold n) := by simp [Hides]
  rw [WalkHides, hown]
  refine or_congr_right (and_congr_right fun hanc => ?_)
  constructor
  · rintro ⟨q, hq, hne, hroot, hhides⟩
    have hq : q <+: d := by
      rcases prefix_concat_iff.mp hq with heq | hq
      · exact absurd heq hne
      · exact hq
    refine ⟨?_, ?_⟩
    · rintro rfl
      exact hroot (prefix_nil.mp hq)
    · by_cases heq : q = d
      · exact Or.inl ⟨rfl, heq ▸ hhides⟩
      · exact Or.inr ⟨hanc, q, hq, heq, hroot, hhides⟩
  · rintro ⟨hd, ⟨-, hhides⟩ | ⟨-, q, hq, hne, hroot, hhides⟩⟩
    · exact ⟨d, prefix_append _ _, by simp, hd, hhides⟩
    · refine ⟨q, hq.trans (prefix_append _ _), ?_, hroot, hhides⟩
      rintro rfl
      have := hq.length_le
      simp at this

theorem walkFrom_spec (upper : View) (ix : WhiteoutIndex) (ancestors own : Bool) (p : VPath) :
    (∃ hidden : Bool, walkFrom ix ancestors own p.reverse = .found hidden ∧
      (hidden = true ↔ WalkHides (Known upper ix) own ancestors p)) ∨
    ∃ dir, walkFrom ix ancestors own p.reverse = .unscanned dir ∧ dir <+: p ∧
      dir.map fold ∉ ix.dirs := by
  induction p using reverseRecOn generalizing own with
  | nil =>
    rw [reverse_nil, walkFrom]
    cases own with
    | false => exact Or.inl ⟨false, rfl, by simp [WalkHides]⟩
    | true =>
      rw [if_pos rfl]
      cases hlookup : ix.dirs.lookup ([] : Key) with
      | none => exact Or.inr ⟨[], rfl, prefix_rfl, AList.lookup_eq_none.mp hlookup⟩
      | some hidden =>
        refine Or.inl ⟨_, rfl, ?_⟩
        have hmem : Known upper ix [] [] ↔ [] ∈ hidden := by rw [Known, map_nil, hlookup]
        simp [WalkHides, Hides, hmem]
  | append_singleton d n ih =>
    rw [reverse_append, reverse_singleton, singleton_append, walkFrom,
      reverse_reverse]
    -- The rest of the walk, from the directory outwards.
    have hout : (∃ hidden : Bool, (if ancestors = false ∨ d.reverse = [] then Walk.found false
          else walkFrom ix ancestors true d.reverse) = .found hidden ∧
          (hidden = true ↔ ancestors = true ∧ d ≠ [] ∧
            WalkHides (Known upper ix) true ancestors d)) ∨
        ∃ dir, (if ancestors = false ∨ d.reverse = [] then Walk.found false
          else walkFrom ix ancestors true d.reverse) = .unscanned dir ∧ dir <+: d ++ [n] ∧
          dir.map fold ∉ ix.dirs := by
      split_ifs with hstop
      · refine Or.inl ⟨false, rfl, ?_⟩
        rw [reverse_eq_nil_iff] at hstop
        rcases hstop with hstop | hstop <;> simp [hstop]
      · rw [not_or, Bool.not_eq_false, reverse_eq_nil_iff] at hstop
        rcases ih true with ⟨hidden, hfound, hiff⟩ | ⟨dir, hfound, hdir, hnot⟩
        · exact Or.inl ⟨hidden, hfound, by simp [hiff, hstop]⟩
        · exact Or.inr ⟨dir, hfound, hdir.trans (prefix_append _ _), hnot⟩
    simp only [walkHides_concat]
    cases own with
    | false =>
      rw [if_neg (by simp)]
      simpa using hout
    | true =>
      rw [if_pos rfl]
      cases hlookup : ix.dirs.lookup (d.map fold) with
      | none =>
        exact Or.inr ⟨d, rfl, prefix_append _ _, AList.lookup_eq_none.mp hlookup⟩
      | some hidden =>
        have hmem : Known upper ix d (fold n) ↔ fold n ∈ hidden := by rw [Known, hlookup]
        dsimp only
        by_cases hn : fold n ∈ hidden
        · rw [if_pos hn]
          exact Or.inl ⟨true, rfl, by simp [hmem.mpr hn]⟩
        · rw [if_neg hn]
          simpa [mt hmem.mp hn] using hout

/-- The directories of a path that are not scanned yet. -/
def toScan (ix : WhiteoutIndex) (p : VPath) : Finset Key :=
  (p.inits.map (List.map fold)).toFinset.filter fun k => k ∉ ix.dirs

theorem card_toScan_le (ix : WhiteoutIndex) (p : VPath) : (toScan ix p).card ≤ p.length + 1 := by
  calc (toScan ix p).card ≤ ((p.inits.map (map fold)).toFinset).card :=
        Finset.card_filter_le _ _
    _ ≤ (p.inits.map (map fold)).length := toFinset_card_le _
    _ = p.length + 1 := by rw [length_map, length_inits]

theorem walkLoop_spec (hu : upper.Consistent) (hblind : upper.Blind) (own ancestors : Bool)
    (p : VPath) {fuel : ℕ} {ix : WhiteoutIndex} (hfuel : (toScan ix p).card < fuel) :
    ∃ hidden : Bool, (walkLoop upper p own ancestors fuel ix).1 = .ok hidden ∧
      (hidden = true ↔ WalkHides (Known upper ix) own ancestors p) := by
  induction fuel generalizing ix with
  | zero => omega
  | succ fuel ih =>
    rw [walkLoop]
    rcases walkFrom_spec upper ix ancestors own p with
      ⟨hidden, hfound, hiff⟩ | ⟨dir, hfound, hdir, hnot⟩
    · rw [hfound]
      exact ⟨hidden, rfl, hiff⟩
    · obtain ⟨hidden, hscan, hmarked⟩ := scanWhiteouts_spec hu dir
      rw [hfound]
      dsimp only
      rw [hscan, ← known_insert hblind hmarked hnot]
      apply ih
      -- One directory less is left to scan.
      have hmem : dir.map fold ∈ toScan ix p := by
        rw [toScan, Finset.mem_filter, mem_toFinset, mem_map]
        exact ⟨⟨dir, (mem_inits _ _).mpr hdir, rfl⟩, hnot⟩
      have hlt : (toScan { ix with dirs := ix.dirs.insert (dir.map fold) hidden } p).card <
          (toScan ix p).card := by
        refine Finset.card_lt_card ((Finset.ssubset_iff_of_subset fun k hk => ?_).mpr
          ⟨dir.map fold, hmem, fun hk => ?_⟩)
        · rw [toScan, Finset.mem_filter] at hk ⊢
          exact ⟨hk.1, fun hin => hk.2 ((AList.mem_insert _).mpr (Or.inr hin))⟩
        · rw [toScan, Finset.mem_filter] at hk
          exact hk.2 ((AList.mem_insert _).mpr (Or.inl rfl))
      omega

theorem hiddenByWhiteout_spec (hu : upper.Consistent) (hblind : upper.Blind) (ix : WhiteoutIndex)
    (p : VPath) : ∃ hidden : Bool, hiddenByWhiteout upper ix p = .ok hidden ∧
      (hidden = true ↔ WalkHides (Known upper ix) true true p) := by
  apply walkLoop_spec hu hblind true true p
  have := card_toScan_le ix p
  omega

/-! ## The listing -/

/-- What one entry of the upper's listing does to the entry under the folded name `k`. -/
def putEntry (k : Str) (cur : Option DirEntry) (e : DirEntry) : Option DirEntry :=
  if Marks k e then none
  else if Reserved e.name then cur
  else if fold e.name = k then some (Merged.live cur e) else cur

theorem lookup_mergeUpper (m : Merged) (e : DirEntry) (k : Str) :
    (mergeUpper m e).rows.lookup k = putEntry k (m.rows.lookup k) e := by
  rw [mergeUpper, putEntry]
  cases htarget : markerOf e.name with
  | some target =>
    have hmarks : Marks k e ↔ k = fold target := by
      rw [Marks, htarget, Option.map_some, Option.some.injEq, eq_comm]
    dsimp only
    rw [Merged.lookup_erase]
    by_cases hk : k = fold target
    · rw [if_pos hk, if_pos (hmarks.mpr hk)]
    · rw [if_neg hk, if_neg (mt hmarks.mp hk), if_pos (reserved_of_markerOf htarget)]
  | none =>
    have hmarks : ¬ Marks k e := by simp [Marks, htarget]
    have hplain : ¬ whiteoutPrefix <+: e.name := by
      intro hp
      simp [markerOf, hp] at htarget
    dsimp only
    rw [if_neg hmarks]
    by_cases hcopy : copyUpPrefix <+: e.name
    · rw [if_pos hcopy, if_pos (show Reserved e.name from Or.inr hcopy)]
    · have hnot : ¬ Reserved e.name := fun h => h.elim hplain hcopy
      rw [if_neg hcopy, if_neg hnot, Merged.lookup_mergeUpperEntry]
      simp only [eq_comm]

theorem lookup_foldl_mergeUpper (es : List DirEntry) (m : Merged) (k : Str) :
    (es.foldl mergeUpper m).rows.lookup k = es.foldl (putEntry k) (m.rows.lookup k) := by
  induction es generalizing m with
  | nil => rfl
  | cons e es ih => rw [foldl_cons, ih, lookup_mergeUpper, foldl_cons]

/-- Every entry under the folded name `k` that is content has a marker for it later on in the
listing. -/
def Buried (es : List DirEntry) (k : Str) : Prop :=
  ∀ before e after, es = before ++ e :: after → ¬ Reserved e.name → fold e.name = k →
    ∃ m ∈ after, Marks k m

variable {es : List DirEntry} {k : Str} {d : VPath}

theorem buried_cons {e : DirEntry} :
    Buried (e :: es) k ↔
      (¬ Reserved e.name → fold e.name = k → ∃ m ∈ es, Marks k m) ∧ Buried es k := by
  constructor
  · intro h
    refine ⟨h [] e es rfl, fun before e' after hes => ?_⟩
    exact h (e :: before) e' after (by rw [hes, cons_append])
  · rintro ⟨hfirst, hrest⟩ before e' after hes
    cases before with
    | nil =>
      obtain ⟨rfl, rfl⟩ := cons.inj hes
      exact hfirst
    | cons b before =>
      exact hrest before e' after (cons.inj hes).2

theorem foldl_putEntry_of_buried (h : Buried es k) (cur : Option DirEntry) :
    es.foldl (putEntry k) cur = if ∃ m ∈ es, Marks k m then none else cur := by
  induction es generalizing cur with
  | nil => simp
  | cons e es ih =>
    obtain ⟨hfirst, hrest⟩ := buried_cons.mp h
    rw [foldl_cons, ih hrest, putEntry]
    by_cases hlater : ∃ m ∈ es, Marks k m
    · simp [hlater]
    · by_cases hres : Reserved e.name
      · simp [hlater, hres]
      · have hmark : ¬ Marks k e := mt Marks.reserved hres
        have hk : fold e.name ≠ k := fun hk => hlater (hfirst hres hk)
        simp [hlater, hres, hmark, hk]

/-- Content that no marker follows is listed, and takes over the spelling of what is there already
unless a marker took that out. -/
theorem foldl_putEntry_of_not_buried (hes : FoldUnique es) (h : ¬ Buried es k)
    (cur : Option DirEntry) :
    ∃ e, entryAt es k = some e ∧ ¬ Reserved e.name ∧ es.foldl (putEntry k) cur =
      some (Merged.live (if ∃ m ∈ es, Marks k m then none else cur) e) := by
  induction es generalizing cur with
  | nil => exact absurd (by simp [Buried]) h
  | cons e es ih =>
    obtain ⟨hnot, hes⟩ := nodup_cons.mp hes
    rw [foldl_cons, entryAt_cons]
    by_cases hrest : Buried es k
    · rw [buried_cons, not_and_or, or_iff_left (not_not.mpr hrest)] at h
      simp only [Classical.not_imp] at h
      obtain ⟨hres, hk, hlater⟩ := h
      have hmark : ¬ Marks k e := mt Marks.reserved hres
      refine ⟨e, if_pos hk, hres, ?_⟩
      rw [foldl_putEntry_of_buried hrest]
      simp [putEntry, hlater, hmark, hres, hk]
    · obtain ⟨e', he', hres', hfold⟩ := ih hes hrest (putEntry k cur e)
      have hk : fold e.name ≠ k := by
        rintro rfl
        exact hnot (mem_map.mpr ⟨e', entryAt_eq_some he'⟩)
      refine ⟨e', by rw [if_neg hk, he'], hres', ?_⟩
      rw [hfold, putEntry]
      by_cases hlater : ∃ m ∈ es, Marks k m <;> by_cases hmark : Marks k e <;>
        simp [hlater, hmark, hk]

/-! ## What the overlay answers -/

def entriesOf (v : View) (d : VPath) : List DirEntry := (v.readdir d).toOption.getD []

theorem foldUnique_entriesOf {v : View} (hv : v.Consistent) (d : VPath) :
    FoldUnique (entriesOf v d) := by
  rw [entriesOf]
  rcases hv.readdir_cases d with ⟨es, hread, hes⟩ | hread | hread
  · rw [hread]
    exact hes
  · rw [hread]
    exact nodup_nil
  · rw [hread]
    exact nodup_nil

theorem entryAt_entriesOf (v : View) (d : VPath) (n : Str) :
    entryAt (entriesOf v d) (fold n) = v.shown d n := by
  rw [entriesOf, View.shown]
  cases v.readdir d <;> rfl

theorem marked_iff {v : View} : Marked v d k ↔ ∃ m ∈ entriesOf v d, Marks k m := by
  rw [Marked, entriesOf]
  cases v.readdir d with
  | error e => simp [Except.toOption]
  | ok es => simp [Except.toOption]

section Answers

variable (hu : upper.Consistent) (hblind : upper.Blind) (hb : base.Consistent)

include hu hblind

variable {p : VPath}

theorem storedName_of_hidden (hp : WalkHides (Known upper ix) true true p) :
    (view upper base ix).storedName p = .ok none := by
  obtain ⟨hidden, hfound, hiff⟩ := hiddenByWhiteout_spec hu hblind ix p
  obtain rfl := hiff.mpr hp
  change storedName upper base ix p = _
  rw [storedName, hfound, ite_self]

theorem stat_of_hidden (hroot : p ≠ []) (hp : WalkHides (Known upper ix) true true p) :
    (view upper base ix).stat p = none := by
  obtain ⟨hidden, hfound, hiff⟩ := hiddenByWhiteout_spec hu hblind ix p
  obtain rfl := hiff.mpr hp
  change (getattr upper base ix p).toOption.join = none
  rw [getattr, if_neg hroot, hfound]
  rfl

include hb

theorem getattr_of_visible (hroot : p ≠ []) (hp : ¬ WalkHides (Known upper ix) true true p) :
    getattr upper base ix p = .ok ((upper.stat p).or (base.stat p)) := by
  obtain ⟨hidden, hfound, hiff⟩ := hiddenByWhiteout_spec hu hblind ix p
  have hvisible : hidden = false := by simpa [hp] using hiff
  subst hvisible
  rw [getattr, if_neg hroot, hfound, hu.answers, hb.answers]
  cases upper.stat p <;> rfl

theorem storedName_of_visible {n : Str} (hp : ¬ WalkHides (Known upper ix) true true (d ++ [n])) :
    (view upper base ix).storedName (d ++ [n]) =
      .ok (((base.shown d n).map DirEntry.name).or ((upper.shown d n).map DirEntry.name)) := by
  obtain ⟨hidden, hfound, hiff⟩ := hiddenByWhiteout_spec hu hblind ix (d ++ [n])
  have hvisible : hidden = false := by simpa [hp] using hiff
  subst hvisible
  change storedName upper base ix (d ++ [n]) = _
  rw [storedName, if_neg (by simp), hfound]
  dsimp only
  rw [mergeStoredName, hb.storedNameOf_eq, hu.storedNameOf_eq]
  cases base.shown d n <;> rfl

omit hu hblind in
theorem readBase_spec (d : VPath) (hidden : Bool) : ∃ map baseIsDir notDir,
    readBase base d hidden = .ok (map, baseIsDir, notDir) ∧
      (∀ n, map.rows.lookup (fold n) = if hidden then none else base.shown d n) ∧
      (baseIsDir = false → map = .empty) := by
  cases hidden with
  | true => exact ⟨.empty, false, false, rfl, fun n => rfl, fun _ => rfl⟩
  | false =>
    rw [readBase, if_neg (by simp)]
    rcases hb.readdir_cases d with ⟨es, hread, hes⟩ | hread | hread
    · rw [hread]
      refine ⟨_, true, false, rfl, fun n => ?_, fun h => by cases h⟩
      rw [Merged.lookup_insertAll hes, Merged.lookup_empty, Option.or_none, View.shown_of_ok hread]
      rfl
    · rw [hread]
      exact ⟨.empty, false, false, rfl, fun n => (View.shown_of_error hread n).symm, fun _ => rfl⟩
    · rw [hread]
      exact ⟨.empty, false, true, rfl, fun n => (View.shown_of_error hread n).symm, fun _ => rfl⟩

omit hu hblind hb in
theorem finish_spec {map : Merged} {baseIsDir notDir : Bool}
    (hempty : baseIsDir = false → map = .empty) {r : Except Status (List DirEntry)}
    (hr : finish upper base ix d map baseIsDir notDir = r) :
    (∀ k, (r.toOption.bind fun es => entryAt es k) = map.rows.lookup k) ∧
      ∀ {es}, r = .ok es → FoldUnique es := by
  have hcases : r = .ok map.sortedByFoldedName ∨ baseIsDir = false ∧ ∃ e, r = .error e := by
    subst hr
    unfold finish
    split_ifs with hdir hnot hroot
    · exact .inl rfl
    · exact .inr ⟨by simpa using hdir, _, rfl⟩
    · exact .inl rfl
    · split
      · exact .inr ⟨by simpa using hdir, _, rfl⟩
      · exact .inr ⟨by simpa using hdir, _, rfl⟩
      · exact .inl rfl
  rcases hcases with rfl | ⟨hdir, e, rfl⟩
  · refine ⟨fun k => Merged.entryAt_sortedByFoldedName map k, fun {es} hes => ?_⟩
    cases hes
    exact Merged.foldUnique_sortedByFoldedName map
  · rw [hempty hdir]
    exact ⟨fun k => rfl, fun {es} hes => by cases hes⟩

/-- The listing: the base's entries, unless the directory is hidden, and then the upper's, one
after another. -/
theorem readdir_spec (d : VPath) : ∃ hidden : Bool,
    (hidden = true ↔ WalkHides (Known upper ix) true true d) ∧
    (∀ n, (view upper base ix).shown d n = (entriesOf upper d).foldl (putEntry (fold n))
      (if hidden then none else base.shown d n)) ∧
    ∀ {es}, (view upper base ix).readdir d = .ok es → FoldUnique es := by
  obtain ⟨hidden, hfound, hiff⟩ := hiddenByWhiteout_spec hu hblind ix d
  obtain ⟨map, baseIsDir, notDir, hbase, hlookup, hempty⟩ := readBase_spec hb d hidden
  refine ⟨hidden, hiff, ?_⟩
  -- Where the upper has no directory, it adds nothing.
  have hpass : ∀ e notDir', upper.readdir d = .error e →
      readdir upper base ix d = finish upper base ix d map baseIsDir notDir' →
      (∀ n, (view upper base ix).shown d n = (entriesOf upper d).foldl (putEntry (fold n))
        (if hidden then none else base.shown d n)) ∧
      ∀ {es}, (view upper base ix).readdir d = .ok es → FoldUnique es := by
    intro e notDir' hread heq
    obtain ⟨hshown, hunique⟩ := finish_spec hempty heq.symm
    refine ⟨fun n => ?_, hunique⟩
    rw [entriesOf, hread, ← hlookup n]
    exact hshown (fold n)
  rcases hu.readdir_cases d with ⟨es, hread, -⟩ | hread | hread
  · have hmerged : (view upper base ix).readdir d =
        .ok (es.foldl mergeUpper map).sortedByFoldedName := by
      simp [view, readdir, hfound, hbase, hread]
    refine ⟨fun n => ?_, fun {es'} hes' => ?_⟩
    · have hentries : entriesOf upper d = es := by
        rw [entriesOf, hread]
        rfl
      rw [hentries, ← hlookup n, ← lookup_foldl_mergeUpper,
        ← Merged.entryAt_sortedByFoldedName, View.shown_of_ok hmerged]
    · rw [hmerged] at hes'
      cases hes'
      exact Merged.foldUnique_sortedByFoldedName _
  · exact hpass _ notDir hread (by simp [readdir, hfound, hbase, hread])
  · exact hpass _ true hread (by simp [readdir, hfound, hbase, hread])

end Answers

/-- At one name, the listing and `getattr` agree, the name is listed once if it is there,
`stored_name` gives the name that is listed, and what the upper holds under a reserved name is
neither listed nor served. -/
structure State.ShowsOne {upper base : Provider} (s : State upper base) (d : VPath) (n : Str) :
    Prop where
  listed : ∀ {es e}, s.now.readdir d = .ok es → e ∈ es → fold e.name = fold n →
    ∃ st, s.now.stat (d ++ [n]) = some st ∧ st.kind = e.stat.kind ∧ st.size = e.stat.size
  resolved : ∀ {st}, s.now.stat (d ++ [n]) = some st →
    ∃ es e, s.now.readdir d = .ok es ∧ es.filter (fun e => fold e.name = fold n) = [e]
  named : s.now.storedName (d ++ [n]) = .ok ((s.now.shown d n).map DirEntry.name)
  reserved : ∀ {r}, (upper.view s.upper).shown d n = some r → Reserved r.name →
    s.now.shown d n = none ∧ s.now.stat (d ++ [n]) = none ∧
      ∀ flags : Flags, flags.write = false → (s.openRead (d ++ [n]) flags).1 = .error .notFound

/-- Where the layers and the index are clear about the name `n` of `d`. -/
structure Clear (upper base : View) (ix : WhiteoutIndex) (d : VPath) (n : Str) : Prop where
  /-- If the walk takes the path for hidden, then content of the name is in the upper's listing only
  before a marker for it, and the base's entry goes with the directory or by a marker. -/
  hidden : WalkHides (Known upper ix) true true (d ++ [n]) → Buried (entriesOf upper d) (fold n) ∧
    (WalkHides (Known upper ix) true true d ∨ base.shown d n = none ∨ Marked upper d (fold n))
  /-- If not, then what the upper has under the name is content that no marker for it follows. -/
  content : ¬ WalkHides (Known upper ix) true true (d ++ [n]) → ∀ u, upper.shown d n = some u →
    ¬ Buried (entriesOf upper d) (fold n)
  /-- If not, and the listing leaves the base's entry out (for a marker the walk does not know of,
  or in the root for one for the empty name), then the upper has the name in the base's
  spelling. -/
  left : ¬ WalkHides (Known upper ix) true true (d ++ [n]) →
    d = [] ∧ Hides (Known upper ix) [] ∨ Marked upper d (fold n) →
    ∀ e, base.shown d n = some e → ∃ u, upper.shown d n = some u ∧ u.name = e.name

section Agreement

variable {upper base : Provider} {s : State upper base}
  (hu : (upper.view s.upper).Consistent) (hblind : (upper.view s.upper).Blind)
  (hb : (base.view s.base).Consistent)

include hu hblind hb

theorem showsOne_iff_same (d : VPath) (n : Str) : s.ShowsOne d n ↔
    (s.now.stat (d ++ [n])).map (fun st => (st.kind, st.size)) =
        (s.now.shown d n).map (fun e => (e.stat.kind, e.stat.size)) ∧
      s.now.storedName (d ++ [n]) = .ok ((s.now.shown d n).map DirEntry.name) ∧
      ∀ r, (upper.view s.upper).shown d n = some r → Reserved r.name →
        s.now.shown d n = none ∧ s.now.stat (d ++ [n]) = none ∧
          ∀ flags : Flags, flags.write = false →
            (s.openRead (d ++ [n]) flags).1 = .error .notFound := by
  obtain ⟨-, -, -, hunique⟩ := readdir_spec hu hblind hb d
  have hboth := View.listed_resolved_iff (v := s.now) (d := d) (n := n)
    (fun st => (st.kind, st.size)) hunique
  have hpair : ∀ e : DirEntry, (s.now.stat (d ++ [n])).map (fun st => (st.kind, st.size)) =
      some (e.stat.kind, e.stat.size) ↔ ∃ st, s.now.stat (d ++ [n]) = some st ∧
        st.kind = e.stat.kind ∧ st.size = e.stat.size := by
    intro e
    simp [Option.map_eq_some_iff]
  rw [← hboth]
  constructor
  · intro h
    exact ⟨⟨fun es e hread hmem hfold => (hpair e).mpr (h.listed hread hmem hfold),
      fun st hst => h.resolved hst⟩, h.named, fun r => h.reserved⟩
  · rintro ⟨⟨hlisted, hresolved⟩, hnamed, hreserved⟩
    exact ⟨fun hread hmem hfold => (hpair _).mp (hlisted _ _ hread hmem hfold),
      fun hst => hresolved _ hst, hnamed, fun hr => hreserved _ hr⟩

theorem showsOne_of_hidden {n : Str}
    (hp : WalkHides (Known (upper.view s.upper) s.whiteouts) true true (d ++ [n])) :
    s.ShowsOne d n ↔ Buried (entriesOf (upper.view s.upper) d) (fold n) ∧
      (WalkHides (Known (upper.view s.upper) s.whiteouts) true true d ∨
        (base.view s.base).shown d n = none ∨ Marked (upper.view s.upper) d (fold n)) := by
  obtain ⟨hidden, hiff, hshown, -⟩ := readdir_spec hu hblind hb d
  have hshown : s.now.shown d n = _ := hshown n
  have hstat : s.now.stat (d ++ [n]) = none := stat_of_hidden hu hblind (by simp) hp
  have hname : s.now.storedName (d ++ [n]) = .ok none := storedName_of_hidden hu hblind hp
  have hopen : ∀ flags : Flags, (s.openRead (d ++ [n]) flags).1 = .error .notFound := by
    intro flags
    obtain ⟨found, hfound, hfiff⟩ := hiddenByWhiteout_spec hu hblind s.whiteouts (d ++ [n])
    obtain rfl := hfiff.mpr hp
    rw [hiddenByWhiteout] at hfound
    rw [State.openRead]
    dsimp only
    rw [hfound]
  have hnone : s.ShowsOne d n ↔ s.now.shown d n = none := by
    rw [showsOne_iff_same hu hblind hb, hstat, hname]
    constructor
    · rintro ⟨hsame, -, -⟩
      rwa [Option.map_none, eq_comm, Option.map_eq_none_iff] at hsame
    · intro hnone
      rw [hnone]
      exact ⟨rfl, rfl, fun r _ _ => ⟨rfl, rfl, fun flags _ => hopen flags⟩⟩
  rw [hnone, hshown, ← hiff, marked_iff]
  by_cases hburied : Buried (entriesOf (upper.view s.upper) d) (fold n)
  · rw [foldl_putEntry_of_buried hburied, and_iff_right hburied]
    by_cases hmarked : ∃ m ∈ entriesOf (upper.view s.upper) d, Marks (fold n) m <;>
      cases hidden <;> simp [hmarked]
  · obtain ⟨e, -, -, hlisted⟩ := foldl_putEntry_of_not_buried (foldUnique_entriesOf hu d) hburied
      (if hidden then none else (base.view s.base).shown d n)
    simp [hlisted, hburied]

theorem showsOne_of_visible {n : Str} (hn : n ≠ [])
    (hp : ¬ WalkHides (Known (upper.view s.upper) s.whiteouts) true true (d ++ [n])) :
    s.ShowsOne d n ↔
      (∀ u, (upper.view s.upper).shown d n = some u →
        ¬ Buried (entriesOf (upper.view s.upper) d) (fold n)) ∧
      (d = [] ∧ Hides (Known (upper.view s.upper) s.whiteouts) [] ∨
          Marked (upper.view s.upper) d (fold n) →
        ∀ e, (base.view s.base).shown d n = some e →
          ∃ u, (upper.view s.upper).shown d n = some u ∧ u.name = e.name) := by
  obtain ⟨hidden, hiff, hshown, -⟩ := readdir_spec hu hblind hb d
  have hshown : s.now.shown d n = _ := hshown n
  have hstat : s.now.stat (d ++ [n]) = (((upper.view s.upper).shown d n).map DirEntry.stat).or
      (((base.view s.base).shown d n).map DirEntry.stat) := by
    rw [hu.map_stat_shown d hn, hb.map_stat_shown d hn]
    change (getattr _ _ _ _).toOption.join = _
    rw [getattr_of_visible hu hblind hb (by simp) hp]
    rfl
  have hname := storedName_of_visible hu hblind hb hp
  have hname : s.now.storedName (d ++ [n]) = _ := hname
  -- The walk passes the base over only for the root, by a marker for the empty name.
  have hskip : hidden = true ↔ d = [] ∧ Hides (Known (upper.view s.upper) s.whiteouts) [] := by
    rw [hiff]
    constructor
    · intro hd
      have hroot : d = [] := by
        by_contra hne
        exact hp ((walkHides_concat _ _ _ _ _).mpr (Or.inr ⟨rfl, hne, hd⟩))
      subst hroot
      refine ⟨rfl, ?_⟩
      rcases hd with ⟨-, hd⟩ | ⟨-, q, hq, hne, -⟩
      · exact hd
      · exact absurd (prefix_nil.mp hq) hne
    · rintro ⟨rfl, hd⟩
      exact Or.inl ⟨rfl, hd⟩
  rw [← hskip, marked_iff, showsOne_iff_same hu hblind hb, hstat, hname, hshown]
  clear hshown hstat hname
  by_cases hburied : Buried (entriesOf (upper.view s.upper) d) (fold n)
  · rw [foldl_putEntry_of_buried hburied]
    cases hupper : (upper.view s.upper).shown d n with
    | none =>
      by_cases hmarked : ∃ m ∈ entriesOf (upper.view s.upper) d, Marks (fold n) m <;>
        cases hidden <;> cases (base.view s.base).shown d n <;> simp [hmarked]
    | some u =>
      obtain ⟨hmem, hfold⟩ := entryAt_eq_some ((entryAt_entriesOf _ d n).trans hupper)
      refine iff_of_false ?_ fun h => h.1 u rfl hburied
      rintro ⟨hsame, -, hreserved⟩
      have hplain : ¬ Reserved u.name := by
        intro hres
        obtain ⟨-, hnone, -⟩ := hreserved u rfl hres
        simp at hnone
      obtain ⟨before, after, hsplit⟩ := append_of_mem hmem
      obtain ⟨m, hm, hmarks⟩ := hburied before u after hsplit hplain hfold
      have hmarked : ∃ m ∈ entriesOf (upper.view s.upper) d, Marks (fold n) m :=
        ⟨m, hsplit ▸ mem_append_right _ (mem_cons_of_mem _ hm), hmarks⟩
      simp [hmarked] at hsame
  · obtain ⟨u, hupper, hplain, hlisted⟩ := foldl_putEntry_of_not_buried (foldUnique_entriesOf hu d)
      hburied (if hidden then none else (base.view s.base).shown d n)
    rw [entryAt_entriesOf] at hupper
    rw [hlisted, hupper]
    by_cases hmarked : ∃ m ∈ entriesOf (upper.view s.upper) d, Marks (fold n) m <;>
      cases hidden <;> cases (base.view s.base).shown d n <;>
        simp [hmarked, hburied, hplain, Merged.live, eq_comm (a := u.name)]

theorem showsOne_iff (d : VPath) {n : Str} (hn : n ≠ []) :
    s.ShowsOne d n ↔ Clear (upper.view s.upper) (base.view s.base) s.whiteouts d n := by
  by_cases hp : WalkHides (Known (upper.view s.upper) s.whiteouts) true true (d ++ [n])
  · rw [showsOne_of_hidden hu hblind hb hp]
    exact ⟨fun h => ⟨fun _ => h, fun hnot => absurd hp hnot, fun hnot => absurd hp hnot⟩,
      fun h => h.hidden hp⟩
  · rw [showsOne_of_visible hu hblind hb hn hp]
    exact ⟨fun h => ⟨fun hyes => absurd hyes hp, fun _ => h.1, fun _ => h.2⟩,
      fun h => ⟨h.content hp, h.left hp⟩⟩

end Agreement

end

attribute [local instance] asciiLowercase

/-- An overlay of two fixed trees with nothing scanned yet, under ASCII folding. -/
abbrev fixedOverlay (upper base : FixedTree) :
    State (served upper .readWrite true) (served base .read true) :=
  ⟨(), (), .new, .new⟩

def marking : FixedTree := ⟨some directory, [([], ⟨['.', 'w', 'h', '.', 'd'], fileOf 0⟩)]⟩

theorem showsOne_marked : State.ShowsOne (fixedOverlay marking filled) [] ['D'] := by
  refine (@showsOne_iff _ _ _ (fixedOverlay marking filled) (marking.consistent (by decide))
    marking.blind (filled.consistent (by decide)) _ _ (by decide)).mpr ?_
  have hmarked : Marked marking.view [] ['d'] :=
    ⟨_, rfl, ⟨['.', 'w', 'h', '.', 'd'], fileOf 0⟩, mem_cons_self, rfl⟩
  have hhides : WalkHides (Known marking.view .new) true true [['D']] := Or.inl ⟨rfl, hmarked⟩
  refine ⟨fun _ => ⟨?_, .inr (.inr hmarked)⟩, fun hnot => absurd hhides hnot,
    fun hnot => absurd hhides hnot⟩
  -- The marker is all the upper lists.
  intro before e after hsplit hplain _
  have he : e ∈ [(⟨['.', 'w', 'h', '.', 'd'], fileOf 0⟩ : DirEntry)] := by
    have hmem : e ∈ before ++ e :: after := mem_append_right _ mem_cons_self
    rw [← hsplit] at hmem
    exact hmem
  rw [mem_singleton] at he
  exact absurd (Or.inl (by rw [he]; decide)) hplain

/-- The marker itself is served, though it is not listed. -/
theorem marker_served : marking.view.Consistent ∧ filled.view.Consistent ∧
    ¬ State.ShowsOne (fixedOverlay marking filled) [] ['.', 'w', 'h', '.', 'd'] := by
  refine ⟨marking.consistent (by decide), filled.consistent (by decide), fun h => ?_⟩
  obtain ⟨-, hnone, -⟩ := @h.reserved
    ⟨['.', 'w', 'h', '.', 'd'], fileOf 0⟩ (by decide +kernel) (by decide)
  exact absurd hnone (by decide +kernel)

end AetherVfs.Compose.Overlay
