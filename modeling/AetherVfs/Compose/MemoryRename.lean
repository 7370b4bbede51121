import AetherVfs.Compose.MemoryTree

/-!
# What a rename of the tree in memory moves

The rename of `MemoryProvider` takes entries out of the flat maps and puts them back under other
paths, one after the other. In a well-formed tree nothing is stored at or below the new place but
a file that is replaced, so that no entry is moved over another one, also when the new place is
the old one in another spelling.
-/

namespace AetherVfs.Compose.Memory

open Forks List AList

/-! ### The loops over the moved paths -/

section Loops

variable {ν : Type} {t : Table VPath ν} {c b : VPath} {ks : List VPath}

theorem lookup_rekey_rewrite (d : ν) (hnodup : ks.Nodup) (hks : ∀ k, k ∈ ks ↔ k ∈ t ∧ c <+: k)
    (hb : b = c ∨ ∀ k ∈ t, ¬ b <+: k) :
    (∀ r, (Table.rekey (rewrite c b) d t ks).lookup (b ++ r) = t.lookup (c ++ r)) ∧
      ∀ k, ¬ b <+: k → (Table.rekey (rewrite c b) d t ks).lookup k =
        if c <+: k then none else t.lookup k := by
  have hnew : ∀ r, rewrite c b (c ++ r) = b ++ r := fun r => by rw [rewrite, drop_left]
  have hold : ∀ k ∈ ks, ∃ r, k = c ++ r := by
    intro k hk
    obtain ⟨r, rfl⟩ := ((hks k).mp hk).2
    exact ⟨r, rfl⟩
  constructor
  · intro r
    by_cases hr : c ++ r ∈ t
    · rw [← hnew r]
      apply Table.lookup_rekey_of_mem hnodup
      · intro x hx y hy heq
        obtain ⟨p, rfl⟩ := hold x hx
        obtain ⟨q, rfl⟩ := hold y hy
        rw [hnew, hnew] at heq
        rw [append_cancel_left heq]
      · intro x hx y hy heq
        obtain ⟨p, rfl⟩ := hold x hx
        rw [hnew] at heq
        obtain rfl | hfree := hb
        · exact heq
        · exact absurd (heq ▸ prefix_append b p) (hfree y ((hks y).mp hy).1)
      · exact (hks _).mpr ⟨hr, prefix_append c r⟩
      · exact hr
    · rw [Table.lookup_rekey_of_notMem, lookup_eq_none.mpr hr]
      · obtain rfl | hfree := hb
        · rw [lookup_eq_none.mpr hr, ite_self]
        · have hnone : t.lookup (b ++ r) = none :=
            lookup_eq_none.mpr fun hmem => hfree _ hmem (prefix_append b r)
          rw [hnone, ite_self]
      · intro k hk heq
        obtain ⟨p, rfl⟩ := hold k hk
        rw [hnew] at heq
        exact hr (append_cancel_left heq ▸ ((hks _).mp hk).1)
  · intro k hk
    rw [Table.lookup_rekey_of_notMem]
    · by_cases hc : c <+: k
      · by_cases hmem : k ∈ t
        · rw [if_pos ((hks k).mpr ⟨hmem, hc⟩), if_pos hc]
        · rw [lookup_eq_none.mpr hmem, ite_self, ite_self]
      · rw [if_neg fun hmem => hc ((hks k).mp hmem).2, if_neg hc]
    · intro a ha heq
      obtain ⟨r, rfl⟩ := hold a ha
      rw [hnew] at heq
      exact hk (heq ▸ prefix_append b r)

end Loops

section Rename

variable [ToLowercase] {s : Memory}

def folded (p : VPath) : VPath := (p.filter fun c => c ≠ []).map fold

/-- What was at and below `c` is now at and below `b`, in place of a file at `replaced` if there
was one, and every other entry is as it was. -/
structure Moves (s t : Memory) (c b replaced : VPath) : Prop where
  files_arrived : ∀ r, t.files.lookup (b ++ r) = s.files.lookup (c ++ r)
  dirs_arrived : ∀ r, b ++ r ∈ t.dirs ↔ c ++ r ∈ s.dirs
  left : ∀ k, c <+: k → ¬ b <+: k → k ∉ t.paths
  files_kept : ∀ k, ¬ c <+: k → ¬ b <+: k → k ≠ replaced → t.files.lookup k = s.files.lookup k
  dirs_kept : ∀ k, ¬ c <+: k → ¬ b <+: k → (k ∈ t.dirs ↔ k ∈ s.dirs)
  replaces : Live s.paths replaced → replaced = c ∨ replaced ∈ s.files
  gone : replaced ≠ c → replaced ≠ b → replaced ∉ t.paths

/-- The place a rename writes to is free, unless it is the path the destination was resolved
to. -/
theorem Grown.insertBase_free (h : s.Grown) (dst : VPath) :
    s.insertBase dst = s.canonicalIn dst ∨ ¬ Live s.paths (s.insertBase dst) := by
  unfold insertBase
  split_ifs with hsome
  · by_cases hlive : Live s.paths dst
    · left
      have hclean : [] ∉ dst := by
        rcases hlive with rfl | ⟨k, hk, hp⟩
        · exact not_mem_nil
        · exact fun hnil => h.clean k hk (hp.subset hnil)
      exact (canonicalIn_of_live h.neverForks h.clean hlive (by rw [filter_ne_nil hclean])).symm
    · exact Or.inr hlive
  · exact Or.inl rfl

theorem Grown.folded_canonicalIn (h : s.Grown) (p : VPath) :
    (s.canonicalIn p).map fold = folded p ∧ folded (s.canonicalIn p) = folded p := by
  obtain ⟨hclean, hkeys⟩ := canonicalIn_spec h.clean h.indexed p
  exact ⟨hkeys, by rw [folded, filter_ne_nil hclean, hkeys, folded]⟩

theorem Grown.folded_insertBase (h : s.Grown) (dst : VPath) :
    folded (s.insertBase dst) = folded dst := by
  unfold insertBase
  split_ifs with hsome
  · rfl
  · exact (h.folded_canonicalIn dst).2

theorem lookup_renameFile (s : Memory) (c d b : VPath) (body : Bytes) (k : VPath) :
    (s.renameFile c d b body).files.lookup k =
      if k = b then some body
      else if k = c ∨ k = d ∧ (s.statOf d).isSome then none
      else s.files.lookup k := by
  have hstep : ∀ t : Memory, ({ t with files := (t.files.erase c).insert b body }.reindex c
      b).files.lookup k = if k = b then some body else if k = c then none else t.files.lookup k := by
    intro t
    exact (Table.lookup_insert_eq_ite _ _ _ _).trans (by rw [Table.lookup_erase_eq_ite])
  unfold renameFile
  dsimp only
  rw [hstep]
  by_cases hkb : k = b
  · rw [if_pos hkb, if_pos hkb]
  by_cases hkc : k = c
  · rw [if_neg hkb, if_neg hkb, if_pos hkc, if_pos (Or.inl hkc)]
  rw [if_neg hkb, if_neg hkb, if_neg hkc]
  by_cases hkd : k = d
  · subst hkd
    by_cases hsome : (s.statOf k).isSome
    · rw [if_pos ⟨hsome, hkc⟩, if_pos (Or.inr ⟨rfl, hsome⟩)]
      exact lookup_erase _ _
    · rw [if_neg fun h => hsome h.1, if_neg (by tauto)]
  · have hnot : ¬ (k = c ∨ k = d ∧ (s.statOf d).isSome) := by tauto
    rw [if_neg hnot]
    split_ifs with herase
    · exact lookup_erase_ne hkd
    · rfl

omit [ToLowercase] in
theorem IsTree.eq_of_prefix (h : s.IsTree) {c k : VPath} (hc : c ∈ s.files) (hk : k ∈ s.paths)
    (hp : c <+: k) : k = c ∧ k ∉ s.dirs := by
  have heq : k = c := by
    by_contra hne
    exact h.leaf c hc k hk ⟨hp, fun h => hne h.symm⟩
  exact ⟨heq, heq ▸ h.not_dir c hc⟩

theorem Grown.moves_renameFile (h : s.Grown) {c d b : VPath} {body : Bytes}
    (hfile : s.files.lookup c = some body) (hd : Live s.paths d → d = c ∨ d ∈ s.files)
    (hb : b = d ∨ ¬ Live s.paths b) : Moves s (s.renameFile c d b body) c b d := by
  have hc : c ∈ s.files := Table.mem_of_lookup hfile
  have hlookup := lookup_renameFile s c d b body
  have hdirs : (s.renameFile c d b body).dirs = s.dirs := (renameFile_spec s c d b body).1
  -- What is stored at or below the new place is the file that is replaced.
  have hplace : ∀ k ∈ s.paths, b <+: k → k = b ∧ k ∉ s.dirs := by
    intro k hk hp
    have hlive : Live s.paths b := Or.inr ⟨k, hk, hp⟩
    obtain rfl | hnot := hb
    · obtain rfl | hfile := hd hlive
      · exact h.tree.eq_of_prefix hc hk hp
      · exact h.tree.eq_of_prefix hfile hk hp
    · exact absurd hlive hnot
  refine ⟨?_, ?_, ?_, ?_, ?_, hd, ?_⟩
  · intro r
    rw [hlookup]
    by_cases hr : r = []
    · subst hr
      rw [append_nil, if_pos rfl, append_nil, hfile]
    · have hne : ∀ p : VPath, p ++ r ≠ p := fun p heq =>
        hr (append_cancel_left (heq.trans (append_nil p).symm))
      have hbelow : s.files.lookup (c ++ r) = none := by
        apply lookup_eq_none.mpr
        intro hmem
        exact hne c (h.tree.eq_of_prefix hc (Or.inl hmem) (prefix_append c r)).1
      have hfree : s.files.lookup (b ++ r) = none := by
        apply lookup_eq_none.mpr
        intro hmem
        exact hne b (hplace _ (Or.inl hmem) (prefix_append b r)).1
      rw [if_neg (hne b), hbelow, hfree, ite_self]
  · intro r
    rw [hdirs]
    constructor
    · intro hmem
      exact absurd hmem (hplace _ (Or.inr hmem) (prefix_append b r)).2
    · intro hmem
      exact absurd hmem (h.tree.eq_of_prefix hc (Or.inr hmem) (prefix_append c r)).2
  · rintro k hck hbk (hmem | hmem)
    · have hkb : k ≠ b := fun heq => hbk (heq ▸ prefix_rfl)
      rw [← lookup_isSome, hlookup, if_neg hkb] at hmem
      split_ifs at hmem with hgone
      · cases hmem
      · have hk := lookup_isSome.mp hmem
        exact hgone (Or.inl (h.tree.eq_of_prefix hc (Or.inl hk) hck).1)
    · rw [hdirs] at hmem
      exact (h.tree.eq_of_prefix hc (Or.inr hmem) hck).2 hmem
  · intro k hck hbk hkd
    have hkc : k ≠ c := fun heq => hck (heq ▸ prefix_rfl)
    have hkb : k ≠ b := fun heq => hbk (heq ▸ prefix_rfl)
    rw [hlookup, if_neg hkb, if_neg (by tauto)]
  · intro k _ _
    rw [hdirs]
  · rintro hdc hdb (hmem | hmem)
    · rw [← lookup_isSome, hlookup, if_neg hdb] at hmem
      split_ifs at hmem with hgone
      · cases hmem
      · have hlive : Live s.paths d := live_of_mem (Or.inl (lookup_isSome.mp hmem))
        exact hgone (Or.inr ⟨rfl, isSome_statOf.mpr hlive⟩)
    · rw [hdirs] at hmem
      obtain heq | hfile := hd (live_of_mem (Or.inr hmem))
      · exact hdc heq
      · exact h.tree.not_dir d hfile hmem

theorem moves_moveAll {c d b : VPath} (hfile : c ∉ s.files) (hroot : c ≠ [])
    (hd : Live s.paths d → d = c) (hb : b = d ∨ ¬ Live s.paths b)
    (hnew : ¬ Live s.paths d → b = d) : Moves s (s.moveAll c b) c b d := by
  have hfree : b = c ∨ ∀ k ∈ s.paths, ¬ b <+: k := by
    by_cases hlive : Live s.paths b
    · left
      obtain rfl | hnot := hb
      · exact hd hlive
      · exact absurd hlive hnot
    · exact Or.inr fun k hk hp => hlive (Or.inr ⟨k, hk, hp⟩)
  have hmovingFiles : ∀ k, k ∈ s.movingFiles c ↔ k ∈ s.files ∧ c <+: k := by
    intro k
    rw [movingFiles, mem_filter, decide_eq_true_eq, or_iff_left hroot]
    apply and_congr_right
    intro hk
    exact ⟨fun hbelow => hbelow.1, fun hp => ⟨hp, fun heq => hfile (heq ▸ hk)⟩⟩
  have hmovingDirs : ∀ k, k ∈ s.movingDirs c ↔ k ∈ s.dirs ∧ c <+: k := by
    intro k
    rw [movingDirs, mem_filter, decide_eq_true_eq]
    rfl
  have hfiles := files_moveAll s c b
  have hdirs := dirs_moveAll s c b
  obtain ⟨hfilesArrived, hfilesKept⟩ := lookup_rekey_rewrite [] (s.files.keys_nodup.filter _)
    hmovingFiles (hfree.imp_right fun h k hk => h k (Or.inl hk))
  obtain ⟨hdirsArrived, hdirsKept⟩ := lookup_rekey_rewrite () (s.dirs.keys_nodup.filter _)
    hmovingDirs (hfree.imp_right fun h k hk => h k (Or.inr hk))
  have hout : ∀ k, ¬ b <+: k → ((s.moveAll c b).files.lookup k =
      if c <+: k then none else s.files.lookup k) ∧
      (k ∈ (s.moveAll c b).dirs ↔ ¬ c <+: k ∧ k ∈ s.dirs) := by
    intro k hbk
    rw [hfiles, hdirs, ← lookup_isSome, ← lookup_isSome]
    refine ⟨hfilesKept k hbk, ?_⟩
    rw [show (Table.rekey (rewrite c b) () s.dirs (s.movingDirs c)).lookup k = _ from
      hdirsKept k hbk]
    split_ifs with hck <;> simp [hck]
  refine ⟨?_, ?_, ?_, ?_, ?_, fun hlive => Or.inl (hd hlive), ?_⟩
  · rw [hfiles]
    exact hfilesArrived
  · intro r
    rw [hdirs, ← lookup_isSome, ← lookup_isSome]
    exact Eq.to_iff (congrArg (fun o => Option.isSome o = true) (hdirsArrived r))
  · rintro k hck hbk (hmem | hmem)
    · rw [← lookup_isSome, (hout k hbk).1, if_pos hck] at hmem
      cases hmem
    · exact ((hout k hbk).2.mp hmem).1 hck
  · intro k hck hbk _
    rw [(hout k hbk).1, if_neg hck]
  · intro k hck hbk
    rw [(hout k hbk).2, and_iff_right hck]
  · intro hdc hdb _
    exact hdb (hnew fun hlive => hdc (hd hlive)).symm

omit [ToLowercase] in
theorem getLast_trimRel (raw : Str) (h : trimRel raw ≠ []) : (trimRel raw).getLast h ≠ [] := by
  have hlast := rdropWhile_last_not (fun c : Str => decide (c = [])) _ h
  rw [decide_eq_true_eq] at hlast
  exact hlast

theorem folded_trimRel_eq_nil {raw : Str} (h : folded (trimRel raw) = []) : trimRel raw = [] := by
  by_contra hne
  have hmem := getLast_mem hne
  rw [folded, map_eq_nil_iff, filter_eq_nil_iff] at h
  exact h _ hmem (decide_eq_true (getLast_trimRel raw hne))

theorem not_below_folded (raw : Str) : ¬ Key.Below (folded (trimRel raw)) ((trimRel raw).map fold) := by
  rintro ⟨⟨r, hr⟩, hne⟩
  have hempty : r.filter (fun c => c ≠ []) = [] := by
    have hfilter := congrArg (filter fun c => c ≠ []) hr
    have hself : (folded (trimRel raw)).filter (fun c => c ≠ []) = folded (trimRel raw) := by
      rw [folded, Grown.map_fold_filter, filter_filter]
      simp
    rw [filter_append, hself, ← Grown.map_fold_filter] at hfilter
    exact append_cancel_left (hfilter.trans (append_nil _).symm)
  have hrne : r ≠ [] := by
    rintro rfl
    exact hne (by rw [← hr, append_nil])
  have hpath : trimRel raw ≠ [] := by
    intro hnil
    rw [hnil, map_nil] at hr
    exact hrne (append_eq_nil_iff.mp hr).2
  -- the last component of the path is the last one of `r`, and it is not empty
  have hlast : r.getLast hrne = fold ((trimRel raw).getLast hpath) := by
    have hends := congrArg getLast? hr
    rw [getLast?_append_of_ne_nil _ hrne, getLast?_map, getLast?_eq_some_getLast hrne,
      getLast?_eq_some_getLast hpath, Option.map_some] at hends
    exact Option.some.inj hends
  rw [filter_eq_nil_iff] at hempty
  refine hempty _ (getLast_mem hrne) (decide_eq_true ?_)
  rw [hlast, Ne, fold_eq_nil]
  exact getLast_trimRel raw hpath

omit [ToLowercase] in
theorem moving_ne_nil {c : VPath} (hfile : c ∉ s.files) (hroot : c ≠ [])
    (hlive : Live s.paths c) : ¬ (s.movingFiles c = [] ∧ s.movingDirs c = []) := by
  rintro ⟨hfiles, hdirs⟩
  obtain rfl | ⟨k, hk | hk, hp⟩ := hlive
  · exact hroot rfl
  · have hmem : k ∈ s.movingFiles c := by
      apply mem_filter.mpr ⟨hk, decide_eq_true (Or.inl ⟨hp, fun heq => hfile (heq ▸ hk)⟩)⟩
    rw [hfiles] at hmem
    cases hmem
  · have hmem : k ∈ s.movingDirs c := mem_filter.mpr ⟨hk, decide_eq_true hp⟩
    rw [hdirs] at hmem
    cases hmem

theorem Grown.rename_respelled (h : s.Grown) {src dst : Str}
    (hsame : folded (trimRel src) = folded (trimRel dst))
    (hlive : Live s.paths (s.canonicalIn (trimRel src))) :
    (s.rename (trimRel src) (trimRel dst)).1 = .ok () ∧
      s.insertBase (trimRel dst) = trimRel dst := by
  have hkeys := (h.folded_canonicalIn (trimRel src)).1
  have hdst : s.canonicalIn (trimRel dst) = s.canonicalIn (trimRel src) :=
    canonicalIn_of_live h.neverForks h.clean hlive (hkeys.trans hsame)
  refine ⟨?_, by rw [insertBase, hdst, if_pos (isSome_statOf.mpr hlive)]⟩
  by_cases heq : trimRel src = trimRel dst
  · rw [rename, if_pos heq]
  have hroot : s.canonicalIn (trimRel src) ≠ [] := by
    intro hnil
    rw [hnil] at hkeys
    have hsrc := folded_trimRel_eq_nil hkeys.symm
    exact heq (hsrc.trans (folded_trimRel_eq_nil (hsame.symm.trans hkeys.symm)).symm)
  rw [rename, if_neg heq]
  dsimp only
  rw [hdst]
  cases hfile : s.files.lookup (s.canonicalIn (trimRel src)) with
  | some body =>
    dsimp only
    rw [if_neg fun h => h.1 rfl]
  | none =>
    dsimp only
    have hnot := moving_ne_nil (lookup_eq_none.mp hfile) hroot hlive
    rw [if_neg hnot, if_neg, if_neg fun h => h.2 rfl]
    rintro (hbelow | hnil)
    · rw [hkeys, hsame] at hbelow
      exact not_below_folded dst hbelow
    · exact hroot hnil

/-- In a well-formed tree a rename that succeeds moves what is at and below the source to the
destination, replacing at most a file there; one that is refused changes nothing; and one that
only changes the case is not refused and writes to the very spelling given. -/
theorem rename_moves (h : s.Grown) (src dst : Str) :
    (∀ t, s.rename (trimRel src) (trimRel dst) = (.ok (), t) →
      t.Indexed ∧ if trimRel src = trimRel dst then t = s
        else folded (s.insertBase (trimRel dst)) = folded (trimRel dst) ∧
          Moves s t (s.canonicalIn (trimRel src)) (s.insertBase (trimRel dst))
            (s.canonicalIn (trimRel dst))) ∧
    (∀ e t, s.rename (trimRel src) (trimRel dst) = (.error e, t) → t = s) ∧
    (folded (trimRel src) = folded (trimRel dst) → (s.getattr (trimRel src)).isSome →
      (s.rename (trimRel src) (trimRel dst)).1 = .ok () ∧
        s.insertBase (trimRel dst) = trimRel dst) := by
  refine ⟨?_, ?_, ?_⟩
  · intro t ht
    split_ifs with hne
    · rw [rename, if_pos hne] at ht
      cases ht
      exact ⟨h.indexed, rfl⟩
    have hfree := h.insertBase_free (trimRel dst)
    have hfolded := h.folded_insertBase (trimRel dst)
    obtain ⟨e, heq⟩ | ⟨hsame, -⟩ | ⟨body, hfile, hkind, heq⟩ | ⟨hnot, hroot, hocc, heq⟩ :=
      rename_outcomes s (trimRel src) (trimRel dst)
    · cases heq.symm.trans ht
    · exact absurd hsame hne
    · cases heq.symm.trans ht
      refine ⟨(renameFile_spec s _ _ _ _).2.2 h.indexed, hfolded,
        h.moves_renameFile hfile ?_ hfree⟩
      intro hlive
      by_contra hnot
      rw [not_or] at hnot
      apply hkind hnot.1
      rw [statOf_eq_dir hlive hnot.2]
      rfl
    · cases heq.symm.trans ht
      refine ⟨h.indexed.moveAll _ _, hfolded, moves_moveAll hnot hroot ?_ hfree ?_⟩
      · exact fun hlive => hocc (isSome_statOf.mpr hlive)
      · intro hlive
        rw [insertBase, if_neg fun hsome => hlive (isSome_statOf.mp hsome)]
  · intro e t ht
    obtain ⟨e', heq⟩ | ⟨-, heq⟩ | ⟨body, -, -, heq⟩ | ⟨-, -, -, heq⟩ :=
      rename_outcomes s (trimRel src) (trimRel dst)
    · cases heq.symm.trans ht
      rfl
    · cases heq.symm.trans ht
    · cases heq.symm.trans ht
    · cases heq.symm.trans ht
  · intro hsame hsome
    exact h.rename_respelled hsame (isSome_statOf.mp hsome)

end Rename

attribute [local instance] asciiLowercase

def filledDir : Memory :=
  Transition.run step new [.mkdir ['D'], .openPath ['d', '/', 'x'] creating]

theorem grown_filledDir : Grown filledDir := by
  have hcalls : Transition.AllSteps step (fun s c => Careful s c ∧ Placed s c) new
      [.mkdir ['D'], .openPath ['d', '/', 'x'] creating] := by
    refine ⟨⟨trivial, by decide +kernel, ?_⟩, ⟨trivial, fun _ _ => ⟨by decide +kernel, ?_⟩⟩, trivial⟩
    · exact fun k hk => absurd hk (notMem_empty k)
    · exact fun k hk => absurd hk (notMem_empty k)
  apply Transition.run_invariant_of_allSteps (I := Grown) _ _ hcalls
  · exact fun s c hs hc => hs.step hc.1 hc.2
  · exact grown_new

/-- A directory that is renamed to another case is then stored in that case. -/
theorem rename_moves_filledDir :
    ∃ t, rename filledDir (trimRel ['D']) (trimRel ['d']) = (.ok (), t) ∧ Indexed t ∧
      Moves filledDir t [['D']] [['d']] [['D']] := by
  obtain ⟨hmoves, -, hcase⟩ := rename_moves grown_filledDir ['D'] ['d']
  obtain ⟨hdone, hspelled⟩ := hcase (by decide +kernel) (by decide +kernel)
  obtain ⟨hindexed, hmoved⟩ := hmoves _ (Prod.ext hdone rfl)
  have hsrc : canonicalIn filledDir (trimRel ['D']) = [['D']] := by decide +kernel
  have hdst : canonicalIn filledDir (trimRel ['d']) = [['D']] := by decide +kernel
  rw [if_neg (by decide +kernel), hspelled, hsrc, hdst] at hmoved
  exact ⟨_, Prod.ext hdone rfl, hindexed, hmoved.2⟩

end AetherVfs.Compose.Memory
