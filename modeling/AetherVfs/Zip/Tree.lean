import AetherVfs.Zip.Backend

/-!
# When the lookups in an archive agree

What the index holds under a key: the last entry with that key, or an implied directory. The
listing of a directory shows the parts that follow its key in the index. So the lookups agree
exactly when no two paths of the archive differ by case alone and no path goes through a file or
has an empty part.
-/

namespace AetherVfs.Zip

open Compose List AList

/-! ## The index -/

/-- The paths of an archive: of its entries, and of the directories above them. -/
def paths (entries : List CdEntry) : List (List Str) :=
  entries.flatMap fun e => e.parents ++ [e.key]

/-- The last entry with a key. -/
def entryOf (entries : List CdEntry) (k : List Str) : Option CdEntry :=
  entries.reverse.find? fun e => e.key = k

def CdEntry.stat (e : CdEntry) : Stat :=
  if e.isDir then ⟨.dir, 0, e.mtime⟩ else ⟨.file, e.uncompSize, e.mtime⟩

/-- What an archive has at a path. -/
def statOf (entries : List CdEntry) (k : List Str) : Option Stat :=
  match entryOf entries k with
  | some e => some e.stat
  | none => if k ∈ paths entries then some ⟨.dir, 0, 0⟩ else none

theorem stat_node (e : CdEntry) (off : ℕ) : (e.node off).stat = e.stat := by
  unfold CdEntry.node CdEntry.stat
  split_ifs <;> rfl

theorem entryOf_concat (entries : List CdEntry) (e : CdEntry) (k : List Str) :
    entryOf (entries ++ [e]) k = if e.key = k then some e else entryOf entries k := by
  unfold entryOf
  rw [reverse_append, reverse_singleton, singleton_append, find?_cons]
  by_cases h : e.key = k <;> simp [h]

variable {e : CdEntry} {k j rest pre : List Str} {entries : List CdEntry}
  {dataOffset : ℕ → Option ℕ} {nodes : Nodes} {c : Str}

theorem mem_paths_concat :
    k ∈ paths (entries ++ [e]) ↔ k ∈ paths entries ∨ k ∈ e.parents ∨ k = e.key := by
  simp [paths]

theorem mem_paths_of_entryOf (h : entryOf entries k = some e) : k ∈ paths entries := by
  have hmem : e ∈ entries := by simpa using mem_of_find?_eq_some h
  have hkey : e.key = k := by simpa using find?_some h
  refine mem_flatMap.mpr ⟨e, hmem, ?_⟩
  rw [hkey]
  exact mem_append_right _ (mem_singleton_self k)

theorem statOf_eq_none : statOf entries k = none ↔ k ∉ paths entries := by
  unfold statOf
  cases h : entryOf entries k with
  | some e => simpa using mem_paths_of_entryOf h
  | none => simp

theorem exists_statOf (h : k ∈ paths entries) : ∃ s, statOf entries k = some s :=
  Option.ne_none_iff_exists'.mp (statOf_eq_none.not.mpr (not_not.mpr h))

theorem lookup_orInsert (nodes : Nodes) (k j : List Str) :
    (orInsert nodes k).lookup j =
      (nodes.lookup j).or (if j = k then some Node.implied else none) := by
  unfold orInsert
  split_ifs with hk hj hj
  · obtain ⟨n, hn⟩ := Table.exists_lookup hk
    rw [hj, hn]
    rfl
  · rw [Option.or_none]
  · have hnone : nodes.lookup j = none := lookup_eq_none.mpr (hj ▸ hk)
    rw [Table.lookup_insert_eq_ite, if_pos hj, hnone]
    rfl
  · rw [Table.lookup_insert_eq_ite, if_neg hj, Option.or_none]

theorem lookup_foldl_orInsert (ks : List (List Str)) (nodes : Nodes) (j : List Str) :
    (ks.foldl orInsert nodes).lookup j =
      (nodes.lookup j).or (if j ∈ ks then some Node.implied else none) := by
  induction ks generalizing nodes with
  | nil => simp
  | cons k ks ih =>
    rw [foldl_cons, ih, lookup_orInsert]
    cases nodes.lookup j with
    | some n => rfl
    | none => by_cases hj : j = k <;> simp [hj]

theorem addEntry_eq_ok {nodes' : Nodes} (h : addEntry dataOffset nodes e = .ok nodes') :
    ∃ off, nodes' = (ensureParents nodes e).insert e.key (e.node off) := by
  unfold addEntry at h
  split_ifs at h
  · cases h
    exact ⟨0, rfl⟩
  · split at h
    · cases h
    · next off _ =>
        cases h
        exact ⟨off, rfl⟩

theorem statOf_concat (entries : List CdEntry) (e : CdEntry) (k : List Str) :
    statOf (entries ++ [e]) k = if k = e.key then some e.stat else
      (statOf entries k).or (if k ∈ e.parents then some Node.implied.stat else none) := by
  unfold statOf
  rw [entryOf_concat]
  by_cases hk : k = e.key
  · rw [if_pos hk.symm, if_pos hk]
  · rw [if_neg (Ne.symm hk), if_neg hk]
    cases entryOf entries k with
    | some e' => rfl
    | none =>
      have hmem : k ∈ paths (entries ++ [e]) ↔ k ∈ paths entries ∨ k ∈ e.parents := by
        rw [mem_paths_concat]
        simp [hk]
      by_cases hold : k ∈ paths entries
      · simp [hmem, hold]
      · by_cases hnew : k ∈ e.parents <;> simp [hmem, hold, hnew, Node.implied, Node.stat]

theorem stat_index (h : index dataOffset entries = .ok nodes) (k : List Str) :
    (nodes.lookup k).map Node.stat = statOf entries k := by
  induction entries using reverseRecOn generalizing nodes with
  | nil =>
    cases h
    rfl
  | append_singleton entries e ih =>
    unfold index at h
    rw [foldlM_append] at h
    cases hold : entries.foldlM (addEntry dataOffset) ∅ with
    | error err =>
      rw [hold] at h
      cases h
    | ok old =>
      rw [hold] at h
      simp only [foldlM_cons, foldlM_nil, bind_pure] at h
      obtain ⟨off, rfl⟩ := addEntry_eq_ok h
      rw [Table.lookup_insert_eq_ite, ensureParents, lookup_foldl_orInsert, statOf_concat,
        ← ih hold]
      split_ifs with hk
      · exact congrArg some (stat_node e off)
      · rw [Option.map_or]
        rfl
      · rw [Option.map_or]
        rfl

/-! ## The folded index -/

section

variable [ToLowercase]

theorem lookup_foldIndex {keys : List (List Str)} {f k : List Str}
    (h : (foldIndex keys).lookup f = some k) : k ∈ keys ∧ k.map fold = f := by
  induction keys using reverseRecOn with
  | nil => cases h
  | append_singleton keys j ih =>
    rw [foldIndex, foldl_append, ← foldIndex] at h
    simp only [foldl_cons, foldl_nil] at h
    rw [Table.lookup_insert_eq_ite] at h
    split_ifs at h with hf
    · cases h
      exact ⟨mem_append_right _ (mem_singleton_self k), hf.symm⟩
    · exact (ih h).imp_left (mem_append_left _)

theorem exists_lookup_foldIndex {keys : List (List Str)} (hj : j ∈ keys) :
    ∃ k, (foldIndex keys).lookup (j.map fold) = some k := by
  induction keys using reverseRecOn with
  | nil => exact absurd hj not_mem_nil
  | append_singleton keys i ih =>
    rw [foldIndex, foldl_append, ← foldIndex]
    simp only [foldl_cons, foldl_nil]
    rw [Table.lookup_insert_eq_ite]
    split_ifs with hf
    · exact ⟨i, rfl⟩
    · apply ih
      rcases mem_append.mp hj with hj | hj
      · exact hj
      · exact absurd (by rw [mem_singleton.mp hj]) hf

end

/-! ## The listing of a directory -/

section Children

variable {canon : List Str}

theorem addChild_direct (kids : Table Str DirEntry) (c : Str) (n : Node) :
    Provider.addChild canon kids (canon ++ [c]) n =
      if c = [] then kids else kids.insert c ⟨c, n.stat⟩ := by
  rw [Provider.addChild, if_pos (prefix_append _ _), drop_left]

theorem addChild_through (kids : Table Str DirEntry) (c d : Str) (rest : List Str) (n : Node) :
    Provider.addChild canon kids (canon ++ c :: d :: rest) n =
      if c ∈ kids then kids else kids.insert c ⟨c, Node.implied.stat⟩ := by
  rw [Provider.addChild, if_pos (prefix_append _ _), drop_left]

theorem addChild_other (kids : Table Str DirEntry) {k : List Str} (n : Node)
    (hk : ∀ c rest, k ≠ canon ++ c :: rest) : Provider.addChild canon kids k n = kids := by
  unfold Provider.addChild
  split_ifs with h
  · obtain ⟨t, rfl⟩ := h
    cases t with
    | nil => simp
    | cons c rest => exact absurd rfl (hk c rest)
  · rfl

/-- What a listing of `canon` shows, from some rows of the index: the rows right below it, and a
directory for a part that only leads to others. -/
structure Follows (canon : List Str) (rows : List (Σ _ : List Str, Node)) (kids : Table Str DirEntry) :
    Prop where
  sound : ∀ {c e}, kids.lookup c = some e → e.name = c ∧
    ((c ≠ [] ∧ ∃ n, ⟨canon ++ [c], n⟩ ∈ rows ∧ e.stat = n.stat) ∨
      (∃ d rest n, ⟨canon ++ c :: d :: rest, n⟩ ∈ rows) ∧
        ∀ n, c ≠ [] → ⟨canon ++ [c], n⟩ ∉ rows)
  direct : ∀ {c n}, c ≠ [] → ⟨canon ++ [c], n⟩ ∈ rows → c ∈ kids
  through : ∀ {c d rest n}, ⟨canon ++ c :: d :: rest, n⟩ ∈ rows → c ∈ kids

section

variable {rows : List (Σ _ : List Str, Node)} {kids : Table Str DirEntry}

attribute [local grind =] AList.mem_insert Table.lookup_insert_eq_ite List.append_cancel_left_eq

section

variable (h : Follows canon rows kids)

include h

theorem Follows.skip {k : List Str} {n : Node}
    (hk : ∀ c rest, k = canon ++ c :: rest → c = [] ∧ rest = []) :
    Follows canon (rows ++ [⟨k, n⟩]) kids := by
  obtain ⟨sound, direct, through⟩ := h
  constructor
  · intro c e he
    specialize sound he
    grind
  · grind
  · grind

theorem Follows.insert_direct {n : Node} (hc : c ≠ []) :
    Follows canon (rows ++ [⟨canon ++ [c], n⟩]) (kids.insert c ⟨c, n.stat⟩) := by
  obtain ⟨sound, direct, through⟩ := h
  constructor
  · intro c' e he
    rw [Table.lookup_insert_eq_ite] at he
    split_ifs at he with hcc
    · grind
    · specialize sound he
      grind
  · grind
  · grind

theorem Follows.insert_through {d : Str} {n : Node} :
    Follows canon (rows ++ [⟨canon ++ c :: d :: rest, n⟩])
      (if c ∈ kids then kids else kids.insert c ⟨c, Node.implied.stat⟩) := by
  obtain ⟨sound, direct, through⟩ := h
  constructor
  · intro c' e he
    have hold : c' ≠ c ∨ c ∈ kids → kids.lookup c' = some e := by
      grind
    by_cases hin : c' ≠ c ∨ c ∈ kids
    · specialize sound (hold hin)
      grind
    · grind
  · grind
  · grind

theorem Follows.step (r : Σ _ : List Str, Node) :
    Follows canon (rows ++ [r]) (Provider.addChild canon kids r.1 r.2) := by
  obtain ⟨k, n⟩ := r
  by_cases hk : ∃ c rest, k = canon ++ c :: rest
  · obtain ⟨c, rest, rfl⟩ := hk
    cases rest with
    | nil =>
      rw [addChild_direct]
      split_ifs with hc
      · apply h.skip
        intro c' rest' heq
        simp only [append_cancel_left_eq, cons.injEq] at heq
        exact ⟨heq.1 ▸ hc, heq.2.symm⟩
      · exact h.insert_direct hc
    | cons d rest =>
      rw [addChild_through]
      exact h.insert_through
  · have hother : ∀ c rest, k ≠ canon ++ c :: rest := fun c rest heq => hk ⟨c, rest, heq⟩
    rw [addChild_other kids n hother]
    exact h.skip fun c rest heq => absurd heq (hother c rest)

end

end

theorem follows_children (z : Provider) (canon : List Str) :
    Follows canon z.nodes.entries (z.children canon) := by
  unfold Provider.children
  have hall : ∀ rows : List (Σ _ : List Str, Node), Follows canon rows
      (rows.foldl (fun kids r => Provider.addChild canon kids r.1 r.2) ∅) := by
    intro rows
    induction rows using reverseRecOn with
    | nil =>
      refine ⟨fun h => ?_, fun _ h => ?_, fun h => ?_⟩
      · cases h
      · exact absurd h not_mem_nil
      · exact absurd h not_mem_nil
    | append_singleton rows r ih =>
      rw [foldl_append]
      exact ih.step r
  exact hall _

end Children

/-! ## Paths and their prefixes -/

theorem mem_parents :
    k ∈ e.parents ↔ k <+: e.key.dropLast.filter (· ≠ []) ∧ k ≠ [] := by
  unfold CdEntry.parents
  generalize e.key.dropLast.filter (· ≠ []) = l
  cases l with
  | nil => simp
  | cons a l =>
    rw [inits_cons, tail_cons, mem_map]
    constructor
    · rintro ⟨t, ht, rfl⟩
      exact ⟨cons_prefix_cons.mpr ⟨rfl, (mem_inits _ _).mp ht⟩, cons_ne_nil _ _⟩
    · rintro ⟨hpre, hne⟩
      obtain ⟨b, t, rfl⟩ := exists_cons_of_ne_nil hne
      obtain ⟨rfl, ht⟩ := cons_prefix_cons.mp hpre
      exact ⟨t, (mem_inits _ _).mpr ht, rfl⟩

theorem mem_paths_of_append (h : pre ++ c :: rest ∈ paths entries) (hpre : [] ∉ pre)
    (hne : pre ≠ []) : pre ∈ paths entries := by
  obtain ⟨e, he, hk⟩ := mem_flatMap.mp h
  refine mem_flatMap.mpr ⟨e, he, mem_append_left _ (mem_parents.mpr ⟨?_, hne⟩)⟩
  rcases mem_append.mp hk with hk | hk
  · exact (prefix_append _ _).trans (mem_parents.mp hk).1
  · have hself : pre.filter (· ≠ []) = pre := by
      rw [filter_eq_self]
      intro a ha
      simpa using fun heq : a = [] => hpre (heq ▸ ha)
    rw [← mem_singleton.mp hk, dropLast_append_of_ne_nil (cons_ne_nil _ _),
      filter_append, hself]
    exact prefix_append _ _

theorem above_mem_paths (h : pre ++ c :: rest ∈ paths entries) (hpre : [] ∉ pre) :
    pre = [] ∨ pre ∈ paths entries :=
  or_iff_not_imp_left.mpr (mem_paths_of_append h hpre)

theorem slash_notMem_parts {s : Str} (h : c ∈ parts s) : '/' ∉ c := by
  unfold parts at h
  split_ifs at h with hs
  · exact absurd h not_mem_nil
  · intro hslash
    exact absurd (eq_false_of_mem_splitOnP h '/' hslash) (by decide)

theorem slash_notMem_of_mem_paths (h : k ∈ paths entries) (hc : c ∈ k) : '/' ∉ c := by
  obtain ⟨e, -, hk⟩ := mem_flatMap.mp h
  rcases mem_append.mp hk with hk | hk
  · apply slash_notMem_parts (s := e.vpath)
    have hmem := (mem_parents.mp hk).1.subset hc
    exact mem_of_mem_dropLast (mem_of_mem_filter hmem)
  · rw [mem_singleton.mp hk] at hc
    exact slash_notMem_parts hc

/-- A request path: no component is empty or has a slash. -/
def IsPath (d : VPath) : Prop := ∀ c ∈ d, IsComponent c

theorem IsPath.nil_notMem {d : VPath} (h : IsPath d) : [] ∉ d := fun hmem => (h [] hmem).1 rfl

theorem isPath_of_mem_paths (h : k ∈ paths entries) (hne : [] ∉ k) : IsPath k := by
  intro c hc
  exact ⟨fun heq => hne (heq ▸ hc), slash_notMem_of_mem_paths h hc⟩

section Lookups

variable [ToLowercase] {entries : List CdEntry} {z : Provider}

theorem nil_notMem_of_fold {k : List Str} (h : j.map fold = k.map fold) (hk : [] ∉ k) : [] ∉ j := by
  intro hj
  have hmem : [] ∈ k.map fold := by
    rw [← h]
    exact mem_map.mpr ⟨[], hj, fold_nil⟩
  obtain ⟨c, hc, hfold⟩ := mem_map.mp hmem
  exact hk (fold_eq_nil.mp hfold ▸ hc)

/-- What folds to a path with a last part has a last part. -/
theorem exists_concat_of_fold {d : List Str} {n : Str} (h : j.map fold = (d ++ [n]).map fold) :
    ∃ k c, j = k ++ [c] ∧ k.map fold = d.map fold ∧ fold c = fold n := by
  obtain ⟨k, j', rfl, hk, hj'⟩ := map_eq_append_iff.mp (h.trans map_append)
  obtain ⟨c, rfl, hc⟩ := map_eq_singleton_iff.mp hj'
  exact ⟨k, c, rfl, hk, hc⟩

/-- The provider holds the index of the entries. -/
structure Indexed (entries : List CdEntry) (z : Provider) : Prop where
  stat : ∀ k, (z.nodes.lookup k).map Node.stat = statOf entries k
  folded : ∀ {f k}, z.byFold.lookup f = some k → k ∈ paths entries ∧ k.map fold = f
  found : ∀ {k}, k ∈ paths entries → ∃ j, z.byFold.lookup (k.map fold) = some j

omit [ToLowercase] in
theorem mem_nodes_iff {k : List Str} (h : (nodes.lookup k).map Node.stat = statOf entries k) :
    k ∈ nodes ↔ k ∈ paths entries := by
  have hnone : nodes.lookup k = none ↔ k ∉ paths entries := by
    rw [← statOf_eq_none, ← h, Option.map_eq_none_iff]
  rw [← lookup_isSome, Option.isSome_iff_ne_none, ne_eq, hnone, not_not]

theorem openZip_indexed {order : List (List Str) → List (List Str)} (horder : ∀ l, (order l).Perm l)
    (h : Provider.openZip dataOffset order entries = .ok z) : Indexed entries z := by
  unfold Provider.openZip at h
  cases hidx : index dataOffset entries with
  | error err =>
    rw [hidx] at h
    cases h
  | ok nodes =>
    rw [hidx] at h
    obtain rfl : ⟨nodes, foldIndex (order nodes.keys)⟩ = z := Except.ok.inj h
    have hstat := stat_index hidx
    have hmem : ∀ {k}, k ∈ order nodes.keys ↔ k ∈ paths entries := by
      intro k
      rw [(horder _).mem_iff, ← AList.mem_keys, mem_nodes_iff (hstat k)]
    refine ⟨hstat, fun hf => ?_, fun hk => exists_lookup_foldIndex (hmem.mpr hk)⟩
    obtain ⟨hk, hfold⟩ := lookup_foldIndex hf
    exact ⟨hmem.mp hk, hfold⟩

/-- An archive has a directory at a path: the root, or a path with no file at it. -/
def DirAt (entries : List CdEntry) (k : List Str) : Prop :=
  k = [] ∨ (statOf entries k).map Stat.kind = some .dir

/-- No two paths of the archive differ by case alone, and a path goes on with a name where it has
come to a directory, and with none where it has come to a file. -/
structure WellNamed (entries : List CdEntry) : Prop where
  folds : ∀ j ∈ paths entries, ∀ k ∈ paths entries, [] ∉ j → [] ∉ k →
    j.map fold = k.map fold → j = k
  nested : ∀ k ∈ paths entries, ∀ pre c rest, k = pre ++ c :: rest → [] ∉ pre →
    (c ≠ [] ∨ rest ≠ []) → (c ≠ [] ↔ DirAt entries pre)

/-- The lookups of a view agree: what is listed has a name and resolves to the kind and size that
are listed, what resolves is listed once, a path that resolves can be listed if it is a directory
and only then, and the stored name is the listed one. -/
structure Agrees (v : View) : Prop where
  listed : ∀ d es e, IsPath d → v.readdir d = .ok es → e ∈ es → e.name ≠ [] ∧
    ∃ s, v.stat (d ++ [e.name]) = some s ∧ s.kind = e.stat.kind ∧ s.size = e.stat.size
  resolved : ∀ d n s, IsPath (d ++ [n]) → v.stat (d ++ [n]) = some s →
    ∃ es e, v.readdir d = .ok es ∧ es.filter (fun e => fold e.name = fold n) = [e]
  oneKind : ∀ p s, IsPath p → v.stat p = some s → (s.kind = .dir ↔ ∃ es, v.readdir p = .ok es)
  named : ∀ d n, IsPath (d ++ [n]) →
    v.storedName (d ++ [n]) = .ok ((v.shown d n).map DirEntry.name)

theorem stat_view {p : VPath} : z.view.stat p =
    if p = [] then some ⟨.dir, 0, 0⟩ else (z.get p).map Node.stat := rfl

namespace Indexed

variable (h : Indexed entries z)
include h

theorem stat_eq {p : VPath} (hp : p ≠ []) : z.view.stat p =
    (statOf entries p).or ((z.byFold.lookup (p.map fold)).bind (statOf entries)) := by
  rw [stat_view, if_neg hp, ← h.stat p]
  unfold Provider.get
  cases z.nodes.lookup p with
  | some n => rfl
  | none =>
    simp only [Option.map_none, Option.none_or]
    cases z.byFold.lookup (p.map fold) with
    | none => rfl
    | some k => exact h.stat k

end Indexed

/-- The key a directory is listed under. -/
def Provider.canon (z : Provider) (d : VPath) : Option (List Str) :=
  if d = [] then some [] else z.byFold.lookup (d.map fold)

namespace Indexed

variable {d : VPath} {k : List Str}

section

variable (h : Indexed entries z)

include h

theorem canon_spec (hk : z.canon d = some k) :
    (k = [] ∨ k ∈ paths entries) ∧ k.map fold = d.map fold := by
  unfold Provider.canon at hk
  split_ifs at hk with hd
  · cases hk
    exact ⟨.inl rfl, by rw [hd]⟩
  · exact (h.folded hk).imp_left .inr

theorem canon_eq
    (hk : k = [] ∨ k ∈ paths entries) (hfold : k.map fold = d.map fold)
    (huniq : ∀ j ∈ paths entries, j.map fold = k.map fold → j = k) : z.canon d = some k := by
  unfold Provider.canon
  by_cases hnil : d = []
  · subst hnil
    rw [if_pos rfl, map_eq_nil_iff.mp hfold]
  · rw [if_neg hnil, ← hfold]
    have hne : k ≠ [] := by
      rintro rfl
      exact hnil (map_eq_nil_iff.mp hfold.symm)
    obtain ⟨j, hj⟩ := h.found (hk.resolve_left hne)
    obtain ⟨hmem, hjk⟩ := h.folded hj
    rw [hj, huniq j hmem hjk]

theorem listed_iff :
    z.listed d = .ok k ↔ z.canon d = some k ∧ (z.view.stat d).map Stat.kind = some .dir := by
  unfold Provider.listed Provider.canon
  by_cases hd : d = []
  · subst hd
    simp [stat_view, eq_comm]
  · rw [if_neg hd, if_neg hd, stat_view, if_neg hd]
    cases hget : z.get d with
    | none => simp
    | some n =>
      obtain ⟨j, hj⟩ : ∃ j, z.byFold.lookup (d.map fold) = some j := by
        unfold Provider.get at hget
        cases hlook : z.nodes.lookup d with
        | some m =>
          apply h.found
          rw [← mem_nodes_iff (h.stat d), ← lookup_isSome, hlook]
          rfl
        | none =>
          rw [hlook] at hget
          obtain ⟨j, hj, -⟩ := Option.bind_eq_some_iff.mp hget
          exact ⟨j, hj⟩
      cases hdir : n.isDir <;> simp [hj, Node.stat, hdir]

theorem mem_of_readdir {es : List DirEntry}
    (hread : z.view.readdir d = .ok es) :
    ∃ k, z.canon d = some k ∧ (z.view.stat d).map Stat.kind = some .dir ∧
      (∀ e, e ∈ es ↔ (z.children k).lookup e.name = some e) ∧
      (es.map DirEntry.name).Nodup := by
  have hread : (z.listed d).map _ = .ok es := hread
  cases hlisted : z.listed d with
  | error st =>
    rw [hlisted] at hread
    cases hread
  | ok k =>
    rw [hlisted] at hread
    obtain rfl := Except.ok.inj hread
    obtain ⟨hcanon, hdir⟩ := h.listed_iff.mp hlisted
    have hfollows := follows_children z k
    have hname : ∀ r ∈ (z.children k).entries, r.2.name = r.1 := by
      intro r hr
      exact (hfollows.sound (mem_lookup_iff.mpr hr)).1
    refine ⟨k, hcanon, hdir, fun e => ?_, ?_⟩
    · rw [mem_insertionSort, mem_map]
      constructor
      · rintro ⟨r, hr, rfl⟩
        rw [hname r hr]
        exact mem_lookup_iff.mpr hr
      · intro he
        exact ⟨_, mem_lookup_iff.mp he, rfl⟩
    · have hperm := (perm_insertionSort (fun a b : DirEntry => fold a.name ≤ fold b.name)
        ((z.children k).entries.map Sigma.snd)).map DirEntry.name
      rw [hperm.nodup_iff, map_map]
      have hkeys : (z.children k).entries.map (DirEntry.name ∘ Sigma.snd) =
          (z.children k).entries.map Sigma.fst := map_congr_left hname
      rw [hkeys]
      exact (z.children k).nodupKeys

theorem readdir_of_dir
    (hk : z.canon d = some k) (hdir : (z.view.stat d).map Stat.kind = some .dir) :
    ∃ es, z.view.readdir d = .ok es := by
  have hlisted := h.listed_iff.mpr ⟨hk, hdir⟩
  exact ⟨_, by simp only [Provider.view, Provider.readdir, hlisted]; rfl⟩

/-! What is among the children of a directory. -/

theorem mem_entries :
    (∃ n, ⟨k, n⟩ ∈ z.nodes.entries) ↔ k ∈ paths entries := by
  rw [← mem_nodes_iff (h.stat k), ← lookup_isSome, Option.isSome_iff_exists]
  exact exists_congr fun n => mem_lookup_iff.symm

theorem child_direct (hc : c ≠ []) (hk : k ++ [c] ∈ paths entries) :
    ∃ e, (z.children k).lookup c = some e := by
  obtain ⟨n, hn⟩ := h.mem_entries.mpr hk
  exact Option.isSome_iff_exists.mp
    (lookup_isSome.mpr ((follows_children z k).direct hc hn))

theorem child_through {k : List Str} {d : Str} (hk : k ++ c :: d :: rest ∈ paths entries) :
    ∃ e, (z.children k).lookup c = some e := by
  obtain ⟨n, hn⟩ := h.mem_entries.mpr hk
  exact Option.isSome_iff_exists.mp
    (lookup_isSome.mpr ((follows_children z k).through hn))

theorem child_cases {e : DirEntry} (he : (z.children k).lookup c = some e) : e.name = c ∧
      (c ≠ [] ∧ k ++ [c] ∈ paths entries ∧ statOf entries (k ++ [c]) = some e.stat ∨
        (∃ d rest, k ++ c :: d :: rest ∈ paths entries) ∧ (c ≠ [] → k ++ [c] ∉ paths entries)) := by
  obtain ⟨hname, ⟨hc, n, hn, hstat⟩ | ⟨⟨d, rest, n, hn⟩, hnot⟩⟩ := (follows_children z k).sound he
  · refine ⟨hname, .inl ⟨hc, h.mem_entries.mp ⟨n, hn⟩, ?_⟩⟩
    have hlook : z.nodes.lookup (k ++ [c]) = some n := mem_lookup_iff.mpr hn
    rw [← h.stat, hlook, hstat]
    rfl
  · refine ⟨hname, .inr ⟨⟨d, rest, h.mem_entries.mp ⟨n, hn⟩⟩, fun hc hmem => ?_⟩⟩
    obtain ⟨m, hm⟩ := h.mem_entries.mpr hmem
    exact hnot m hc hm

end

end Indexed

/-! ## Well named archives -/

namespace WellNamed

variable (w : WellNamed entries) (h : Indexed entries z)
include w h

variable {d : VPath}

theorem canon_eq (hd : [] ∉ d) {k : List Str} (hk : k = [] ∨ k ∈ paths entries)
    (hfold : k.map fold = d.map fold) : z.canon d = some k := by
  have hknil := nil_notMem_of_fold hfold hd
  refine h.canon_eq hk hfold fun j hj hjk => ?_
  by_cases hne : k = []
  · rw [hne] at hjk ⊢
    exact map_eq_nil_iff.mp hjk
  · exact w.folds j hj k (hk.resolve_left hne) (nil_notMem_of_fold hjk hknil) hknil hjk

theorem stat_eq_canon (hd : [] ∉ d) (hne : d ≠ []) :
    z.view.stat d = (z.canon d).bind (statOf entries) := by
  have hcanon : z.canon d = z.byFold.lookup (d.map fold) := if_neg hne
  rw [h.stat_eq hne]
  cases hs : statOf entries d with
  | none => rw [Option.none_or, hcanon]
  | some s =>
    have hmem : d ∈ paths entries := by
      by_contra hnot
      rw [statOf_eq_none.mpr hnot] at hs
      cases hs
    rw [w.canon_eq h hd (.inr hmem) rfl, Option.some_or, Option.bind_some, hs]

theorem dirAt_iff (hd : [] ∉ d) {k : List Str} (hk : z.canon d = some k) :
    (z.view.stat d).map Stat.kind = some .dir ↔ DirAt entries k := by
  by_cases hnil : d = []
  · subst hnil
    obtain rfl : [] = k := Option.some.inj hk
    simp [DirAt, stat_view]
  · have hne : k ≠ [] := by
      rintro rfl
      exact hnil (map_eq_nil_iff.mp (h.canon_spec hk).2.symm)
    rw [w.stat_eq_canon h hd hnil, hk, Option.bind_some, DirAt]
    exact (or_iff_right hne).symm

theorem child_spec {k : List Str} (hk : [] ∉ k) (hdir : DirAt entries k) {e : DirEntry}
    (he : (z.children k).lookup c = some e) :
    e.name = c ∧ c ≠ [] ∧ k ++ [c] ∈ paths entries ∧ statOf entries (k ++ [c]) = some e.stat := by
  obtain ⟨hname, ⟨hc, hmem, hstat⟩ | ⟨⟨d, rest, hmem⟩, hnot⟩⟩ := h.child_cases he
  · exact ⟨hname, hc, hmem, hstat⟩
  · have hc : c ≠ [] :=
      (w.nested _ hmem k c (d :: rest) rfl hk (.inr (cons_ne_nil _ _))).mpr hdir
    have hmem : (k ++ [c]) ++ d :: rest ∈ paths entries := by simpa using hmem
    refine absurd ?_ (hnot hc)
    apply mem_paths_of_append hmem
    · simp [hk, Ne.symm hc]
    · simp

theorem of_readdir (hd : [] ∉ d) {es : List DirEntry}
    (hread : z.view.readdir d = .ok es) :
    ∃ k, z.canon d = some k ∧ FoldUnique es ∧ ∀ e, e ∈ es →
      e.name ≠ [] ∧ k ++ [e.name] ∈ paths entries ∧ statOf entries (k ++ [e.name]) = some e.stat := by
  obtain ⟨k, hk, hdir, hmem, hnodup⟩ := h.mem_of_readdir hread
  have hknil := nil_notMem_of_fold (h.canon_spec hk).2 hd
  have hspec : ∀ e, e ∈ es → e.name ≠ [] ∧ k ++ [e.name] ∈ paths entries ∧
      statOf entries (k ++ [e.name]) = some e.stat := fun e he =>
    (w.child_spec h hknil ((w.dirAt_iff h hd hk).mp hdir) ((hmem e).mp he)).2
  refine ⟨k, hk, ?_, hspec⟩
  have hmap : es.map (fun e => fold e.name) = (es.map DirEntry.name).map fold := by
    rw [map_map]
    rfl
  rw [FoldUnique, hmap]
  apply hnodup.map_on
  intro m hm n hn hmn
  obtain ⟨e, he, rfl⟩ := mem_map.mp hm
  obtain ⟨e', he', rfl⟩ := mem_map.mp hn
  obtain ⟨hne, hpath, -⟩ := hspec e he
  obtain ⟨hne', hpath', -⟩ := hspec e' he'
  have heq := w.folds _ hpath _ hpath' (by simp [hknil, Ne.symm hne]) (by simp [hknil, Ne.symm hne'])
    (by simp [hmn])
  simpa using heq

theorem shown_iff {n : Str} (hd : [] ∉ d ++ [n]) {e : DirEntry} :
    z.view.shown d n = some e ↔ ∃ k, z.canon (d ++ [n]) = some (k ++ [e.name]) ∧
      statOf entries (k ++ [e.name]) = some e.stat := by
  have hd' : [] ∉ d := fun hmem => hd (mem_append_left _ hmem)
  rw [View.shown_eq_some]
  constructor
  · rintro ⟨es, hread, he⟩
    obtain ⟨hmem, hfold⟩ := entryAt_eq_some he
    obtain ⟨k, hk, -, hspec⟩ := w.of_readdir h hd' hread
    obtain ⟨-, hpath, hstat⟩ := hspec e hmem
    refine ⟨k, w.canon_eq h hd (.inr hpath) ?_, hstat⟩
    simp [(h.canon_spec hk).2, hfold]
  · rintro ⟨k, hk, hstat⟩
    obtain ⟨hpath, hfold⟩ := h.canon_spec hk
    have hpath := hpath.resolve_left (by simp)
    have hnil := nil_notMem_of_fold hfold hd
    simp only [map_append, map_cons, map_nil] at hfold
    obtain ⟨hfoldk, hfoldn⟩ := append_inj' hfold rfl
    have hne : e.name ≠ [] := fun heq => hnil (by simp [heq])
    have hknil : [] ∉ k := fun hmem => hnil (mem_append_left _ hmem)
    have hcanon := w.canon_eq h hd' (above_mem_paths hpath hknil) hfoldk
    have hdir : DirAt entries k := (w.nested _ hpath k _ [] rfl hknil (.inl hne)).mp hne
    obtain ⟨es, hread⟩ := h.readdir_of_dir hcanon ((w.dirAt_iff h hd' hcanon).mpr hdir)
    obtain ⟨k', hk', -, hmem, -⟩ := h.mem_of_readdir hread
    obtain rfl : k = k' := Option.some.inj (hcanon.symm.trans hk')
    obtain ⟨e', he'⟩ := h.child_direct hne hpath
    obtain ⟨hname, -, -, hstat'⟩ := w.child_spec h hknil hdir he'
    have heq : e' = e := by
      cases e
      cases e'
      cases hname
      rw [hstat] at hstat'
      cases hstat'
      rfl
    obtain ⟨-, -, hunique, -⟩ := w.of_readdir h hd' hread
    refine ⟨es, hread, ?_⟩
    rw [heq] at he'
    rw [← cons.inj hfoldn |>.1]
    exact hunique.entryAt_of_mem ((hmem e).mpr he')

theorem agrees : Agrees z.view where
  listed := by
    intro d es e hd hread he
    obtain ⟨k, hk, -, hspec⟩ := w.of_readdir h hd.nil_notMem hread
    obtain ⟨hne, hpath, hstat⟩ := hspec e he
    have hnil : [] ∉ d ++ [e.name] := by simp [hd.nil_notMem, Ne.symm hne]
    have hcanon : z.canon (d ++ [e.name]) = some (k ++ [e.name]) :=
      w.canon_eq h hnil (.inr hpath) (by simp [(h.canon_spec hk).2])
    refine ⟨hne, e.stat, ?_, rfl, rfl⟩
    rw [w.stat_eq_canon h hnil (by simp), hcanon, Option.bind_some, hstat]
  resolved := by
    intro d n s hd hs
    rw [w.stat_eq_canon h hd.nil_notMem (by simp)] at hs
    obtain ⟨j, hj, hs⟩ := Option.bind_eq_some_iff.mp hs
    obtain ⟨k, c, rfl, -⟩ := exists_concat_of_fold (h.canon_spec hj).2
    have hshown : z.view.shown d n = some ⟨c, s⟩ :=
      (w.shown_iff h hd.nil_notMem).mpr ⟨k, hj, hs⟩
    obtain ⟨es, hread, he⟩ := View.shown_eq_some.mp hshown
    have hd' : [] ∉ d := fun hmem => hd.nil_notMem (mem_append_left _ hmem)
    obtain ⟨-, -, hunique, -⟩ := w.of_readdir h hd' hread
    exact ⟨es, ⟨c, s⟩, hread, hunique.filter_eq.mpr he⟩
  oneKind := by
    intro p s hp hs
    constructor
    · intro hdir
      obtain ⟨k, hk⟩ : ∃ k, z.canon p = some k := by
        by_cases hnil : p = []
        · exact ⟨[], if_pos hnil⟩
        · rw [w.stat_eq_canon h hp.nil_notMem hnil] at hs
          obtain ⟨k, hk, -⟩ := Option.bind_eq_some_iff.mp hs
          exact ⟨k, hk⟩
      exact h.readdir_of_dir hk (by rw [hs, Option.map_some, hdir])
    · rintro ⟨es, hread⟩
      obtain ⟨k, -, hdir, -⟩ := h.mem_of_readdir hread
      rw [hs, Option.map_some] at hdir
      exact Option.some.inj hdir
  named := by
    intro d n hd
    have hstored : z.view.storedName (d ++ [n]) =
        .ok ((z.canon (d ++ [n])).bind getLast?) := by
      simp [Provider.view, Provider.storedName, Provider.canon]
    rw [hstored]
    cases hcanon : z.canon (d ++ [n]) with
    | none =>
      cases hshown : z.view.shown d n with
      | none => rfl
      | some e =>
        obtain ⟨k, hk, -⟩ := (w.shown_iff h hd.nil_notMem).mp hshown
        rw [hcanon] at hk
        cases hk
    | some j =>
      obtain ⟨hpath, hfold⟩ := h.canon_spec hcanon
      obtain ⟨k, c, rfl, -⟩ := exists_concat_of_fold hfold
      obtain ⟨s, hs⟩ := exists_statOf (hpath.resolve_left (by simp))
      have hshown : z.view.shown d n = some ⟨c, s⟩ :=
        (w.shown_iff h hd.nil_notMem).mpr ⟨k, hcanon, hs⟩
      rw [hshown]
      simp

end WellNamed

namespace Agrees

variable (a : Agrees z.view) (h : Indexed entries z)
include a h

omit a in
theorem stat_of_mem {k : List Str} (hk : k ∈ paths entries) (hne : k ≠ []) :
    ∃ s, z.view.stat k = some s := by
  obtain ⟨s, hs⟩ := exists_statOf hk
  exact ⟨s, by rw [h.stat_eq hne, hs, Option.some_or]⟩

theorem child_unique (hcanon : z.canon pre = some pre) {c' : Str} (hpath : IsPath (pre ++ [c]))
    (hc : pre ++ [c] ∈ paths entries) (hc' : pre ++ [c'] ∈ paths entries) (hne' : c' ≠ [])
    (hfold : fold c' = fold c) : c = c' := by
  have hne : c ≠ [] := fun heq => hpath.nil_notMem (by simp [heq])
  obtain ⟨s, hs⟩ := stat_of_mem h hc (by simp)
  obtain ⟨es, e, hread, hfilter⟩ := a.resolved pre c s hpath hs
  obtain ⟨k, hk, -, hmem, -⟩ := h.mem_of_readdir hread
  obtain rfl : pre = k := Option.some.inj (hcanon.symm.trans hk)
  have only : ∀ {n}, n ≠ [] → pre ++ [n] ∈ paths entries → fold n = fold c → n = e.name := by
    intro n hn hpath hnc
    obtain ⟨e', he'⟩ := h.child_direct hn hpath
    have hname := (h.child_cases he').1
    have hin : e' ∈ es.filter fun e => fold e.name = fold c := by
      refine mem_filter.mpr ⟨(hmem e').mpr (hname ▸ he'), ?_⟩
      simp [hname, hnc]
    rw [hfilter, mem_singleton] at hin
    rw [← hname, hin]
  exact (only hne hc rfl).trans (only hne' hc' hfold).symm

theorem folds (j : List Str) : ∀ k, j ∈ paths entries → k ∈ paths entries → [] ∉ j → [] ∉ k →
    j.map fold = k.map fold → j = k := by
  induction j using reverseRecOn with
  | nil =>
    intro k _ _ _ _ hfold
    exact (map_eq_nil_iff.mp hfold.symm).symm
  | append_singleton pre c ih =>
    intro k hj hk hjnil hknil hfold
    obtain ⟨pre', c', rfl, hpre, hc⟩ := exists_concat_of_fold hfold.symm
    have hnil : [] ∉ pre := fun hmem => hjnil (mem_append_left _ hmem)
    have hself := above_mem_paths hj hnil
    -- the two directories are one, and it is listed under its own key
    have huniq : ∀ i, (i = [] ∨ i ∈ paths entries) → i.map fold = pre.map fold → pre = i := by
      intro i hi hfoldi
      by_cases hpnil : pre = []
      · subst hpnil
        exact (map_eq_nil_iff.mp hfoldi).symm
      · have hine : i ≠ [] := by
          rintro rfl
          exact hpnil (map_eq_nil_iff.mp hfoldi.symm)
        exact ih i (hself.resolve_left hpnil) (hi.resolve_left hine) hnil
          (nil_notMem_of_fold hfoldi hnil) hfoldi.symm
    obtain rfl : pre = pre' := by
      refine huniq pre' (above_mem_paths hk fun hin => hknil ?_) hpre
      exact mem_append_left _ hin
    have hcanon : z.canon pre = some pre :=
      h.canon_eq hself rfl fun i hi hfoldi => (huniq i (.inr hi) hfoldi).symm
    have hne' : c' ≠ [] := fun heq => hknil (by simp [heq])
    rw [a.child_unique h hcanon (isPath_of_mem_paths hj hjnil) hj hk hne' hc]

theorem wellNamed : WellNamed entries where
  folds := fun j hj k hk hjnil hknil hfold => a.folds h j k hj hk hjnil hknil hfold
  nested := by
    rintro k hk pre c rest rfl hpre hnonempty
    have hmem : pre ≠ [] → pre ∈ paths entries := mem_paths_of_append hk hpre
    have hcanon : z.canon pre = some pre := by
      refine h.canon_eq (or_iff_not_imp_left.mpr hmem) rfl fun i hi hfold => ?_
      by_cases hnil : pre = []
      · rw [hnil] at hfold ⊢
        exact map_eq_nil_iff.mp hfold
      · exact a.folds h i pre hi (hmem hnil) (nil_notMem_of_fold hfold hpre) hpre hfold
    have hpath : IsPath pre := by
      by_cases hnil : pre = []
      · simp [hnil, IsPath]
      · exact isPath_of_mem_paths (hmem hnil) hpre
    have hdir : (z.view.stat pre).map Stat.kind = some .dir ↔ DirAt entries pre := by
      by_cases hnil : pre = []
      · subst hnil
        simp [DirAt, stat_view]
      · obtain ⟨s, hs⟩ := exists_statOf (hmem hnil)
        rw [DirAt, or_iff_right hnil, h.stat_eq hnil, hs, Option.some_or]
    constructor
    · intro hc
      have hchild : pre ++ [c] ∈ paths entries := by
        cases rest with
        | nil => exact hk
        | cons d rest =>
          have hk : (pre ++ [c]) ++ d :: rest ∈ paths entries := by simpa using hk
          exact mem_paths_of_append hk (by simp [hpre, Ne.symm hc]) (by simp)
      obtain ⟨s, hs⟩ := stat_of_mem h hchild (by simp)
      obtain ⟨es, e, hread, -⟩ := a.resolved pre c s
        (isPath_of_mem_paths hchild (by simp [hpre, Ne.symm hc])) hs
      obtain ⟨-, -, hkind, -⟩ := h.mem_of_readdir hread
      exact hdir.mp hkind
    · intro hat
      cases rest with
      | nil => exact hnonempty.resolve_right fun hne => hne rfl
      | cons d rest =>
        obtain ⟨es, hread⟩ := h.readdir_of_dir hcanon (hdir.mpr hat)
        obtain ⟨k, hk', -, hmemes, -⟩ := h.mem_of_readdir hread
        obtain rfl : pre = k := Option.some.inj (hcanon.symm.trans hk')
        obtain ⟨e, he⟩ := h.child_through hk
        have hname := (h.child_cases he).1
        rw [← hname]
        exact (a.listed pre es e hpath hread ((hmemes e).mpr (hname ▸ he))).1

end Agrees

/-- **When an archive serves one tree.** Whatever the order of the hash map, for every list of
entries that opens: the lookups agree if and only if the archive is well named. -/
theorem agrees_iff {dataOffset : ℕ → Option ℕ} {order : List (List Str) → List (List Str)}
    (horder : ∀ l, (order l).Perm l) (hopen : Provider.openZip dataOffset order entries = .ok z) :
    Agrees z.view ↔ WellNamed entries := by
  have h := openZip_indexed horder hopen
  exact ⟨fun a => a.wellNamed h, fun w => w.agrees h⟩

end Lookups

/-! ## Some archives -/

/-- A file of `size` bytes, stored. -/
def stored (name : String) (size : ℕ) : CdEntry := ⟨name.toList, 0, size, 0, 0⟩

attribute [local instance] asciiLowercase

def openPlain (entries : List CdEntry) : Except ZipError Provider :=
  Provider.openZip (fun _ => some 0) id entries

/-- One file in a directory. -/
def plain : List CdEntry := [stored "Data/a.txt" 5]

theorem paths_plain : paths plain = [["Data".toList], ["Data".toList, "a.txt".toList]] := by
  decide +kernel

theorem wellNamed_plain : WellNamed plain := by
  constructor
  · rw [paths_plain]
    decide +kernel
  · intro k hk pre c rest heq _ _
    have hdata : DirAt plain ["Data".toList] := .inr (by decide +kernel)
    rw [paths_plain, mem_cons, mem_singleton] at hk
    subst heq
    rcases pre with _ | ⟨x, _ | ⟨y, pre⟩⟩
    · have hc : c = "Data".toList := by
        rcases hk with hk | hk <;> exact (cons.inj hk).1
      exact ⟨fun _ => .inl rfl, fun _ => hc ▸ by decide⟩
    · rcases hk with hk | hk
      · simp at hk
      · obtain ⟨hx, hrest⟩ := cons.inj hk
        obtain ⟨hc, -⟩ := cons.inj hrest
        rw [hx, hc]
        exact ⟨fun _ => hdata, fun _ => by decide⟩
    · rcases hk with hk | hk <;> simp at hk

theorem agrees_plain : ∃ z, openPlain plain = .ok z ∧ Agrees z.view := by
  obtain ⟨z, hz⟩ : ∃ z, openPlain plain = .ok z := ⟨_, rfl⟩
  exact ⟨z, hz, (agrees_iff (fun _ => List.Perm.refl _) hz).mpr wellNamed_plain⟩

/-- The names a listing of an archive shows. -/
def namesIn (entries : List CdEntry) (d : VPath) : Option (List Str) := do
  let z ← (openPlain entries).toOption
  let es ← (z.readdir d).toOption
  return es.map DirEntry.name

/-- What an archive resolves a path to. -/
def kindIn (entries : List CdEntry) (p : VPath) : Option Kind := do
  let z ← (openPlain entries).toOption
  let s ← (z.getattr p).toOption.join
  return s.kind

/-- A doubled slash lists an empty name, directories that differ by case are listed twice, and
what is below a file resolves and is not listed. -/
theorem lookups_disagree :
    namesIn [stored "a//b" 1] ["a".toList] = some [[]] ∧
      namesIn [stored "Data/x" 1, stored "data/y" 1] [] = some ["Data".toList, "data".toList] ∧
      kindIn [stored "a" 1, stored "a/b" 1] ["a".toList, "b".toList] = some .file ∧
      namesIn [stored "a" 1, stored "a/b" 1] ["a".toList] = none := by
  decide +kernel

end AetherVfs.Zip
