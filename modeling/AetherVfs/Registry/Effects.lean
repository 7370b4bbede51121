import AetherVfs.Lib.Outcome
import AetherVfs.Registry.Rename

/-!
# What each mutator does to the maps

One lemma per mutator says when a call succeeds and what the overlay is then; the proofs about
runs of calls start from these and never unfold a mutator.
-/

namespace AetherVfs.Registry

namespace Overlay

open Outcome

variable [ToLowercase] {o : Overlay} {path pp : Path} {now : UInt64} {r : ℕ × Overlay}

theorem validPath_parent (hvalid : validPath path = true)
    (hparent : parent path = some pp) :
    validPath pp = true ∧ path = pp ++ [leaf path] := by
  obtain ⟨r, rest, rfl, hr, hrest⟩ := validPath_iff.mp hvalid
  cases rest with
  | nil => simp [parent] at hparent
  | cons c rest =>
    have hpp : pp = ([] : Str) :: r :: (c :: rest).dropLast := by
      simpa [parent] using hparent.symm
    refine ⟨validPath_iff.mpr ⟨r, _, hpp, hr, fun d hd => hrest d (List.mem_of_mem_dropLast hd)⟩, ?_⟩
    have hleaf : leaf ([] :: r :: c :: rest) = (c :: rest).getLast (List.cons_ne_nil _ _) := by
      simp [leaf, List.getLastD_eq_getLast?, List.getLast?_eq_some_getLast]
    rw [hpp, hleaf, List.cons_append, List.cons_append, List.dropLast_append_getLast]

theorem foldPath_parent (hvalid : validPath path = true)
    (hparent : parent path = some pp) : foldPath path = foldPath pp ++ [fold (leaf path)] := by
  conv_lhs => rw [(validPath_parent hvalid hparent).2]
  simp [foldPath]

def bumped (o : Overlay) : Overlay := { o with version := o.version + 1 }

def valueSet (name : Str) (ty : UInt32) (data : List UInt8) (now : UInt64) (e : Entry) : Entry :=
  { e with
    node := { e.node with
      valueTombstones := e.node.valueTombstones.filter fun t => t ≠ fold name
      values := putValue name ty data e.node.values
      lastWrite := now } }

def valueDeleted (name : Str) (now : UInt64) (e : Entry) : Entry :=
  { e with
    node := { e.node with
      values := e.node.values.filter fun x => fold x.name ≠ fold name
      valueTombstones :=
        if fold name ∈ e.node.valueTombstones then e.node.valueTombstones
        else e.node.valueTombstones ++ [fold name]
      lastWrite := now } }

def madeVolatile (volatile : Bool) (e : Entry) : Entry :=
  { e with node := { e.node with volatile } }

/-- The keys of the path are there, and the node at it is changed and marked. -/
def edited (o : Overlay) (path : Path) (real : Bool) (now : UInt64) (f : Entry → Entry) : Overlay :=
  ((o.bumped.ensureChain path real (o.version + 1) now).modify (foldPath path) f).mark path
    (o.version + 1)

def Writable (path : Path) : Prop :=
  checkKeyName path = .ok () ∧ checkDepth path maxWriteDepth = .ok ()

theorem setValue_eq_ok {name : Str} {ty : UInt32} {data : List UInt8} :
    o.setValue path name ty data now = .ok r ↔
      (validPath path = true ∧ Writable path ∧ utf16Len name ≤ maxValueName ∧
        data.length ≤ maxData) ∧
      r = (o.version + 1, o.edited path true now (valueSet name ty data now)) := by
  simp only [Overlay.setValue, unless_eq_ok, bind_eq_ok, pure_eq_ok, not_not, not_lt, Writable]
  constructor
  · rintro ⟨hvalid, ⟨⟩, hkey, ⟨⟩, hdepth, hname, hdata, rfl⟩
    exact ⟨⟨hvalid, ⟨hkey, hdepth⟩, hname, hdata⟩, rfl⟩
  · rintro ⟨⟨hvalid, ⟨hkey, hdepth⟩, hname, hdata⟩, rfl⟩
    exact ⟨hvalid, (), hkey, (), hdepth, hname, hdata, rfl⟩

theorem deleteValue_eq_ok {name : Str} : o.deleteValue path name now = .ok r ↔
      (validPath path = true ∧ checkKeyName path = .ok () ∧ utf16Len name ≤ maxValueName ∧
        (o.lookup path).1 ≠ .tombstoned) ∧
      r = (o.version + 1, o.edited path true now (valueDeleted name now)) := by
  simp only [Overlay.deleteValue, unless_eq_ok, bind_eq_ok, pure_eq_ok, not_not, not_lt]
  constructor
  · rintro ⟨hvalid, ⟨⟩, hkey, hname, hlook, rfl⟩
    exact ⟨⟨hvalid, hkey, hname, hlook⟩, rfl⟩
  · rintro ⟨⟨hvalid, hkey, hname, hlook⟩, rfl⟩
    exact ⟨hvalid, (), hkey, hname, hlook, rfl⟩

theorem createKey_eq_ok {volatile realExists : Bool} :
    o.createKey path volatile realExists now = .ok r ↔
      (validPath path = true ∧ Writable path ∧ foldPath path ∉ o.entries) ∧
      r = (o.version + 1, o.edited path realExists now (madeVolatile volatile)) := by
  simp only [Overlay.createKey, unless_eq_ok, bind_eq_ok, pure_eq_ok, not_not, Writable]
  constructor
  · rintro ⟨hvalid, ⟨⟩, hkey, ⟨⟩, hdepth, hnew, rfl⟩
    exact ⟨⟨hvalid, ⟨hkey, hdepth⟩, hnew⟩, rfl⟩
  · rintro ⟨⟨hvalid, ⟨hkey, hdepth⟩, hnew⟩, rfl⟩
    exact ⟨hvalid, (), hkey, (), hdepth, hnew, rfl⟩

theorem deleteKey_eq_ok : o.deleteKey path now = .ok r ↔
    ∃ pp, (validPath path = true ∧ parent path = some pp ∧ (o.lookup path).1 ≠ .tombstoned) ∧
      r = (o.version + 1, ((o.bumped.ensureChain pp true (o.version + 1) now).cutBelow
        (foldPath pp) (leaf path) (o.version + 1) now).touchAncestors pp (o.version + 1)) := by
  simp only [Overlay.deleteKey, unless_eq_ok, not_not]
  cases hparent : parent path with
  | none => simp [throw_ne_ok]
  | some pp =>
    simp only [unless_eq_ok, pure_eq_ok, Option.some.injEq, cutBelow]
    constructor
    · rintro ⟨hvalid, hlook, rfl⟩
      refine ⟨pp, ⟨hvalid, rfl, hlook⟩, ?_⟩
      rw [foldPath_parent hvalid hparent]
      rfl
    · rintro ⟨pp', ⟨hvalid, rfl, hlook⟩, rfl⟩
      refine ⟨hvalid, hlook, ?_⟩
      rw [foldPath_parent hvalid hparent]
      rfl

theorem Inv.parent_mem (h : Inv o) (hvalid : validPath path = true)
    (hparent : parent path = some pp) (hin : foldPath path ∈ o.entries) :
    foldPath pp ∈ o.entries := by
  rw [foldPath_parent hvalid hparent] at hin
  rcases h.tree.up _ _ hin with htop | hup
  · obtain ⟨r, rest, rfl, -, -⟩ := validPath_iff.mp (validPath_parent hvalid hparent).1
    simp [root, foldPath] at htop
  · exact hup

/-- The stored path of the renamed key, with the new leaf, folds to the parent's key and the
folded leaf. -/
theorem Inv.foldPath_newPath (h : Inv o) {old : Entry} (hvalid : validPath path = true)
    (hparent : parent path = some pp) (hold : o.entries.lookup (foldPath path) = some old)
    (newLeaf : Str) :
    foldPath (old.path.dropLast ++ [newLeaf]) = foldPath pp ++ [fold newLeaf] := by
  have hin : foldPath path ∈ o.entries := Table.mem_of_lookup hold
  have hp := h.parent_mem hvalid hparent hin
  obtain ⟨pe, hpe⟩ := Table.exists_lookup hp
  rw [foldPath_parent hvalid hparent] at hold
  obtain ⟨⟨name, hname⟩, -⟩ := h.under _ _ pe old hpe hold
  rw [hname, List.dropLast_concat, foldPath_append, h.spelled _ _ hpe]
  rfl

theorem Inv.parent_stored (h : Inv o) {path pp : Path} {old : Entry}
    (hvalid : validPath path = true) (hparent : parent path = some pp)
    (hold : o.entries.lookup (foldPath path) = some old) :
    parent old.path = some old.path.dropLast := by
  have hlen : old.path.length = path.length := by
    have hspelled := congrArg List.length (h.spelled _ _ hold)
    simpa [foldPath] using hspelled
  obtain ⟨r, rest, rfl, -, -⟩ := validPath_iff.mp hvalid
  cases rest with
  | nil => simp [parent] at hparent
  | cons c rest =>
    rcases hpath : old.path with _ | ⟨a, _ | ⟨b, _ | ⟨d, tail⟩⟩⟩
    · simp [hpath] at hlen
    · simp [hpath] at hlen
    · simp [hpath] at hlen
    · rfl

theorem Inv.renames (h : Inv o) {newLeaf : Str} {old : Entry} (hvalid : validPath path = true)
    (hparent : parent path = some pp) (hold : o.entries.lookup (foldPath path) = some old)
    (hfree : ¬ (foldPath pp ++ [fold newLeaf] ≠ foldPath path ∧
      foldPath pp ++ [fold newLeaf] ∈ o.entries)) :
    Renames o (foldPath pp) old (fold (leaf path)) (fold newLeaf) := by
  have hin : foldPath path ∈ o.entries := Table.mem_of_lookup hold
  refine ⟨h, h.parent_mem hvalid hparent hin, foldPath_parent hvalid hparent ▸ hold, ?_⟩
  rw [foldPath_parent hvalid hparent, ne_eq, concat_eq_concat] at hfree
  tauto

theorem Renames.bumped {old : Entry} {a b : Str} (h : Renames o pp old a b) :
    Renames o.bumped pp old a b :=
  ⟨⟨h.inv.tree, h.inv.spelled, h.inv.node, h.inv.under⟩, h.parent, h.old, h.free⟩

theorem Inv.renameKey_eq_ok (h : Inv o) {newLeaf : Str} :
    o.renameKey path newLeaf now = .ok r ↔
      ∃ pp old, (validPath path = true ∧ newLeaf ≠ [] ∧ '\\' ∉ newLeaf ∧
        utf16Len newLeaf ≤ maxKeyName ∧ parent path = some pp ∧
        Renames o (foldPath pp) old (fold (leaf path)) (fold newLeaf)) ∧
      r = (o.version + 1, (o.bumped.renamed (foldPath pp) old (leaf path) newLeaf
        (old.path.dropLast ++ [newLeaf]) (o.version + 1) now).touchAncestors pp
          (o.version + 1)) := by
  simp only [Overlay.renameKey, unless_eq_ok, not_not, not_or, not_lt]
  cases hparent : parent path with
  | none => simp [throw_ne_ok]
  | some pp =>
    cases hold : o.entries.lookup (foldPath path) with
    | none =>
      simp only [throw_ne_ok, and_false, false_iff]
      rintro ⟨pp', old, ⟨hvalid, -, -, -, hpp, hren⟩, -⟩
      cases hpp
      rw [foldPath_parent hvalid hparent, hren.old] at hold
      cases hold
    | some old =>
      simp only [unless_eq_ok, pure_eq_ok, Option.some.injEq]
      constructor
      · rintro ⟨hvalid, ⟨hne, hsep⟩, hlen, hfree, rfl⟩
        have hnew := h.foldPath_newPath hvalid hparent hold newLeaf
        rw [hnew] at hfree ⊢
        rw [foldPath_parent hvalid hparent]
        exact ⟨pp, old, ⟨hvalid, hne, hsep, hlen, rfl, h.renames hvalid hparent hold hfree⟩, rfl⟩
      · rintro ⟨pp', old', ⟨hvalid, hne, hsep, hlen, rfl, hren⟩, rfl⟩
        have hnew := h.foldPath_newPath hvalid hparent hold newLeaf
        rw [foldPath_parent hvalid hparent, hren.old] at hold
        cases hold
        rw [hnew, foldPath_parent hvalid hparent]
        refine ⟨hvalid, ⟨hne, hsep⟩, hlen, ?_, rfl⟩
        rintro ⟨hcase, hmem⟩
        rcases hren.free with hfree | hfree
        · exact hcase (by rw [hfree])
        · exact hfree hmem

end Overlay

end AetherVfs.Registry
