import AetherVfs.Registry.FileTree

/-!
# What `decode` accepts

The nodes of a file are one tree of keys, each within the limits `decode` checks: the nesting, the
names, and the counts, which it reads as 32-bit numbers.
-/

namespace AetherVfs.Registry.Format

open Outcome List AList Table

variable [ToLowercase]

omit [ToLowercase] in
theorem clean_lead : Clean [[]] := by
  intro n hn
  cases hn

variable {head : Head} {name : Str} {f : Forest}

theorem Head.lookup_node {kids : List Str} {c sp : Str} {st : Child}
    (hc : (head.node kids).children.lookup c = some (sp, st)) : fold sp = c ∧
      (st = .present → sp ∈ kids) ∧ (st = .tombstone → sp ∈ head.childTombstones) := by
  rcases mem_of_lookup_insertAll hc with hc | hc
  · rcases mem_of_lookup_insertAll hc with hc | hc
    · cases hc
    · obtain ⟨name, hname, heq⟩ := mem_map.mp hc
      cases heq
      exact ⟨rfl, (by simp), fun _ => hname⟩
  · obtain ⟨name, hname, heq⟩ := mem_map.mp hc
    cases heq
    exact ⟨rfl, fun _ => hname, by simp⟩

namespace Head.Ok

variable {head : Head} {kids : List Str}

theorem kids_unique (h : head.Ok kids) : (kids.map fold).Nodup := by
  have hunique := h.children_unique
  rw [map_append] at hunique
  exact hunique.of_append_right

theorem nodeOk (h : head.Ok kids) : NodeOk (head.node kids) :=
  ⟨h.values_unique, h.values_disjoint, h.tombstones_unique, h.tombstones_folded,
    fun _ _ _ hc => (Head.lookup_node hc).1⟩

theorem lookup_kid (h : head.Ok kids) (hname : name ∈ kids) :
    (head.node kids).children.lookup (fold name) = some (name, .present) :=
  lookup_listed_of_mem h.kids_unique hname _

end Head.Ok

namespace Forest

variable {path : Path} {x : Path × Node} {below next : Forest} {depth : ℕ}

theorem mem_nodes_cons :
    x ∈ (cons name head below next).nodes path ↔ x = (path ++ [name], head.node below.names) ∨
      x ∈ below.nodes (path ++ [name]) ∨ x ∈ next.nodes path := by
  simp [nodes]

theorem mem_below (hx : x ∈ below.nodes (path ++ [name])) :
    x ∈ (cons name head below next).nodes path :=
  mem_nodes_cons.mpr (.inr (.inl hx))

theorem mem_next (hx : x ∈ next.nodes path) : x ∈ (cons name head below next).nodes path :=
  mem_nodes_cons.mpr (.inr (.inr hx))

theorem exists_name (hx : x ∈ f.nodes path) : ∃ name ∈ f.names, path ++ [name] <+: x.1 := by
  induction f generalizing path with
  | nil => simp [nodes] at hx
  | cons name head below next ihBelow ihNext =>
    rcases mem_nodes_cons.mp hx with rfl | hx | hx
    · exact ⟨name, mem_cons_self, prefix_rfl⟩
    · obtain ⟨kid, -, hpre⟩ := ihBelow hx
      exact ⟨name, mem_cons_self, (prefix_append _ _).trans hpre⟩
    · obtain ⟨other, hother, hpre⟩ := ihNext hx
      exact ⟨other, mem_cons_of_mem _ hother, hpre⟩

theorem exists_node (hname : name ∈ f.names) (path : Path) :
    ∃ x ∈ f.nodes path, x.1 = path ++ [name] := by
  induction f with
  | nil => simp [names] at hname
  | cons first head below next _ ih =>
    rcases mem_cons.mp hname with rfl | hname
    · exact ⟨_, mem_cons_self, rfl⟩
    · obtain ⟨x, hx, hpath⟩ := ih hname
      exact ⟨x, mem_next hx, hpath⟩

theorem key_prefix (hx : x ∈ f.nodes path) :
    ∃ name ∈ f.names, foldPath path ++ [fold name] <+: foldPath x.1 := by
  obtain ⟨name, hname, hpre⟩ := exists_name hx
  refine ⟨name, hname, ?_⟩
  have hmap := hpre.map fold
  rwa [map_append] at hmap

theorem nodes_ok (hok : f.Ok depth) (hclean : Clean path) (hx : x ∈ f.nodes path) :
    Clean x.1 ∧ (utf16Len (leaf x.1) ≤ maxKeyName ∧ x.1.length ≤ path.length + depth) ∧
      ∃ head kids, Head.Ok head kids ∧ x.2 = head.node kids := by
  induction f generalizing depth path with
  | nil => simp [nodes] at hx
  | cons name head below next ihBelow ihNext =>
    cases depth with
    | zero => exact hok.elim
    | succ depth =>
      obtain ⟨hname, hhead, hbelow, hnext⟩ := hok
      rcases mem_nodes_cons.mp hx with rfl | hx | hx
      · have hleaf : leaf (path ++ [name]) = name := by simp [leaf]
        exact ⟨hclean.concat hname.2, ⟨hleaf.symm ▸ hname.1, by simp⟩, head, below.names, hhead,
          rfl⟩
      · obtain ⟨hx, ⟨hunits, hlen⟩, hnode⟩ := ihBelow hbelow (hclean.concat hname.2) hx
        rw [length_append, length_singleton] at hlen
        exact ⟨hx, ⟨hunits, by omega⟩, hnode⟩
      · exact ihNext hnext hclean hx

theorem nodup_nodes (hok : f.Ok depth) (hnodup : (f.names.map fold).Nodup) (path : Path) :
    ((f.nodes path).map fun x => foldPath x.1).Nodup := by
  induction f generalizing depth path with
  | nil => exact nodup_nil
  | cons name head below next ihBelow ihNext =>
    cases depth with
    | zero => exact hok.elim
    | succ depth =>
      obtain ⟨-, hhead, hbelow, hnext⟩ := hok
      rw [names, map_cons, nodup_cons] at hnodup
      have hkey : foldPath (path ++ [name]) = foldPath path ++ [fold name] :=
        Overlay.foldPath_append _ _
      -- A key below is longer than the key itself, one after it has another name.
      have hbelowKey : ∀ x ∈ below.nodes (path ++ [name]), ∃ kid,
          foldPath path ++ [fold name] ++ [kid] <+: foldPath x.1 := by
        intro x hx
        obtain ⟨kid, -, hpre⟩ := key_prefix hx
        exact ⟨fold kid, hkey ▸ hpre⟩
      have hnextKey : ∀ x ∈ next.nodes path,
          ¬ foldPath path ++ [fold name] <+: foldPath x.1 := by
        intro x hx hpre
        obtain ⟨other, hother, hpre'⟩ := key_prefix hx
        have heq := (prefix_of_prefix_length_le hpre hpre' (by simp)).eq_of_length (by simp)
        have hfold : fold name = fold other := by simpa using heq
        exact hnodup.1 (hfold ▸ mem_map_of_mem hother)
      rw [nodes, map_cons, map_append, nodup_cons, nodup_append, hkey]
      refine ⟨?_, ihBelow hbelow hhead.kids_unique _, ihNext hnext hnodup.2 _, ?_⟩
      · intro hmem
        rcases mem_append.mp hmem with hmem | hmem
        · obtain ⟨x, hx, heq⟩ := mem_map.mp hmem
          obtain ⟨kid, hpre⟩ := hbelowKey x hx
          rw [heq] at hpre
          exact not_append_prefix_self hpre
        · obtain ⟨x, hx, heq⟩ := mem_map.mp hmem
          exact hnextKey x hx (heq ▸ prefix_rfl)
      · intro k hk j hj heq
        obtain ⟨x, hx, rfl⟩ := mem_map.mp hk
        obtain ⟨y, hy, rfl⟩ := mem_map.mp hj
        obtain ⟨kid, hpre⟩ := hbelowKey x hx
        refine hnextKey y hy ?_
        rw [← heq]
        exact (prefix_append _ _).trans hpre

theorem nodes_up (hok : f.Ok depth) (hx : x ∈ f.nodes path) :
    (∃ name ∈ f.names, x.1 = path ++ [name]) ∨
      ∃ y ∈ f.nodes path, ∃ name, x.1 = y.1 ++ [name] ∧
        y.2.children.lookup (fold name) = some (name, .present) := by
  induction f generalizing depth path with
  | nil => simp [nodes] at hx
  | cons name head below next ihBelow ihNext =>
    cases depth with
    | zero => exact hok.elim
    | succ depth =>
      obtain ⟨-, hhead, hbelow, hnext⟩ := hok
      rcases mem_nodes_cons.mp hx with rfl | hx | hx
      · exact .inl ⟨name, mem_cons_self, rfl⟩
      · rcases ihBelow hbelow hx with ⟨kid, hkid, hpath⟩ | ⟨y, hy, hyx⟩
        · exact .inr ⟨_, mem_cons_self, kid, hpath, hhead.lookup_kid hkid⟩
        · exact .inr ⟨y, mem_below hy, hyx⟩
      · rcases ihNext hnext hx with ⟨other, hother, hpath⟩ | ⟨y, hy, hyx⟩
        · exact .inl ⟨other, mem_cons_of_mem _ hother, hpath⟩
        · exact .inr ⟨y, mem_next hy, hyx⟩

theorem nodes_down {y : Path × Node} (hy : y ∈ f.nodes path) {c sp : Str}
    (hc : y.2.children.lookup c = some (sp, .present)) : ∃ x ∈ f.nodes path, x.1 = y.1 ++ [sp] := by
  induction f generalizing path with
  | nil => simp [nodes] at hy
  | cons name head below next ihBelow ihNext =>
    rcases mem_nodes_cons.mp hy with rfl | hy | hy
    · obtain ⟨x, hx, hpath⟩ := exists_node ((Head.lookup_node hc).2.1 rfl) (path ++ [name])
      exact ⟨x, mem_below hx, hpath⟩
    · obtain ⟨x, hx, hpath⟩ := ihBelow hy
      exact ⟨x, mem_below hx, hpath⟩
    · obtain ⟨x, hx, hpath⟩ := ihNext hy
      exact ⟨x, mem_next hx, hpath⟩

namespace IsFile

variable {f : Forest}

theorem ok (h : f.IsFile) : f.Ok (maxDecodeDepth + 1) := by
  cases f with
  | nil => trivial
  | cons name head below next =>
    obtain ⟨rfl, -, hok⟩ := h
    exact hok

theorem rooted (h : f.IsFile) : Rooted (f.nodes [[]]) := by
  have hnames : (f.names.map fold).Nodup ∧ ∀ name ∈ f.names, fold name = registry := by
    cases f with
    | nil => simp [names]
    | cons name head below next =>
      obtain ⟨rfl, hreg, -⟩ := h
      simp [names, hreg]
  refine ⟨nodup_nodes h.ok hnames.1 _, ?_, ?_, fun y hy c sp hc => nodes_down hy hc⟩
  · intro x hx
    obtain ⟨-, -, head, kids, hok, hnode⟩ := nodes_ok h.ok clean_lead hx
    rw [hnode]
    exact hok.nodeOk
  · intro x hx
    rcases nodes_up h.ok hx with ⟨name, hname, hpath⟩ | hup
    · left
      rw [hpath, Overlay.foldPath_append, foldPath, map_singleton, foldPath,
        map_singleton, hnames.2 name hname]
      rfl
    · exact Or.inr hup

end IsFile

end Forest

/-- An entry of an overlay that `decode` returns is a key of the file. -/
theorem decode_entry {b : List UInt8} {o : Overlay} {k : Path} {e : Entry} (hb : decode b = .ok o)
    (he : o.entries.lookup k = some e) : (utf16Len (leaf e.path) ≤ maxKeyName ∧
      e.path.length ≤ maxDecodeDepth + 2) ∧ ∃ head kids, Head.Ok head kids ∧
        e.node = head.node kids := by
  obtain ⟨f, hfile, -, o₁, ho₁, rfl⟩ := decode_eq_ok_iff.mp hb
  obtain ⟨x, hx, -, rfl⟩ := (hfile.rooted.holds o₁ ho₁).back he
  obtain ⟨-, ⟨hunits, hlen⟩, hnode⟩ := Forest.nodes_ok hfile.ok clean_lead hx
  rw [length_singleton, Nat.add_comm] at hlen
  exact ⟨⟨hunits, hlen⟩, hnode⟩

end AetherVfs.Registry.Format
