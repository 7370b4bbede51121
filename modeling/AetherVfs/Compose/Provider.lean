import AetherVfs.Core.Path
import AetherVfs.Lib.Table

/-!
# Providers

`vfs-provider`: what a file tree answers to the calls of the `Provider` trait, and what it means
that its answers fit together. A path is the list of its components, as a provider sees it:
normalized, the root being the empty list. The root id of a path is handed on unchanged by every
composition and is left out.
-/

namespace AetherVfs.Compose

open List

inductive Kind where
  | file
  | dir
deriving DecidableEq, Repr

structure Stat where
  kind : Kind
  size : ℕ
  mtime : ℤ
deriving DecidableEq, Repr

structure DirEntry where
  name : Str
  stat : Stat
deriving DecidableEq, Repr

inductive Status where
  | notFound
  | notADir
  | badRequest
  | ioError
  | isDir
  | badFh
  | noSpace
  | notSupported
  | readOnly
  | exists
deriving DecidableEq, Repr

/-- `Access`, weakest first. -/
inductive Access where
  | seqRead
  | read
  | readWrite
deriving DecidableEq, Repr

structure Flags where
  write : Bool
  create : Bool
  trunc : Bool
  excl : Bool
deriving DecidableEq, Repr

def Flags.read : Flags := ⟨false, false, false, false⟩

def Flags.Reading (flags : Flags) : Prop := flags.write = false ∧ flags.create = false

abbrev VPath := List Str

abbrev Handle := ℕ

/-- What an open returns: the handle, the size, and whether it is a directory. -/
structure Opened where
  handle : Handle
  size : ℕ
  isDir : Bool
deriving DecidableEq, Repr

structure SetAttr where
  size : Option ℕ
  mtime : Option ℤ
deriving DecidableEq, Repr

inductive HandleOp where
  | readAt (offset len : ℕ)
  | writeAt (offset : ℕ) (data : List UInt8)
  | setLen (len : ℕ)
  | flush
  | close
deriving DecidableEq

inductive PathOp where
  | mkdir
  | remove
  | setAttr (attr : SetAttr)

inductive Reply where
  | bytes (data : List UInt8)
  | count (n : ℕ)
  | done
deriving DecidableEq, Repr

structure View where
  getattr : VPath → Except Status (Option Stat)
  readdir : VPath → Except Status (List DirEntry)
  storedName : VPath → Except Status (Option Str)

/-- `dyn Provider`: an implementation of the trait with its present state. -/
structure Provider where
  State : Type
  state : State
  access : Access
  view : State → View
  openPath : State → VPath → Flags → Except Status Opened × State
  onHandle : State → HandleOp → Handle → Except Status Reply × State
  onPath : State → PathOp → VPath → Except Status Unit × State
  rename : State → VPath → VPath → Except Status Unit × State

namespace Provider

def now (P : Provider) : View := P.view P.state

/-- The replies to one call after another on a handle. -/
def replies (P : Provider) (s : P.State) (h : Handle) : List HandleOp → List (Except Status Reply)
  | [] => []
  | op :: ops => (P.onHandle s op h).1 :: P.replies (P.onHandle s op h).2 h ops

end Provider

section Listings

variable [ToLowercase]

/-- The entry of a listing whose name folds to `k`. -/
def entryAt (es : List DirEntry) (k : Str) : Option DirEntry := es.find? fun e => fold e.name = k

/-- A listing without two names that fold to the same. -/
def FoldUnique (es : List DirEntry) : Prop := (es.map fun e => fold e.name).Nodup

variable {es : List DirEntry} {e : DirEntry} {k : Str}

theorem entryAt_eq_some (h : entryAt es k = some e) : e ∈ es ∧ fold e.name = k :=
  ⟨mem_of_find?_eq_some h, by simpa using find?_some h⟩

theorem entryAt_eq_none : entryAt es k = none ↔ ∀ e ∈ es, fold e.name ≠ k := by
  simp [entryAt]

theorem FoldUnique.entryAt_of_mem (h : FoldUnique es)
    (he : e ∈ es) : entryAt es (fold e.name) = some e := by
  obtain ⟨e', he'⟩ : ∃ e', entryAt es (fold e.name) = some e' := by
    rw [← Option.isSome_iff_exists, Option.isSome_iff_ne_none]
    intro hnone
    exact entryAt_eq_none.mp hnone e he rfl
  obtain ⟨hmem, hfold⟩ := entryAt_eq_some he'
  rw [he', inj_on_of_nodup_map h hmem he hfold]

theorem FoldUnique.entryAt_eq_some_iff (h : FoldUnique es) :
    entryAt es k = some e ↔ e ∈ es ∧ fold e.name = k := by
  constructor
  · exact entryAt_eq_some
  · rintro ⟨he, rfl⟩
    exact h.entryAt_of_mem he

theorem FoldUnique.filter_eq (h : FoldUnique es) :
    es.filter (fun e => fold e.name = k) = [e] ↔ entryAt es k = some e := by
  constructor
  · intro hfilter
    rw [entryAt, ← head?_filter, hfilter]
    rfl
  · intro he
    have hnodup : (es.filter fun e => fold e.name = k).Nodup := (Nodup.of_map _ h).filter _
    refine perm_singleton.mp ((perm_ext_iff_of_nodup hnodup (nodup_singleton e)).mpr
      fun e' => ?_)
    rw [mem_singleton, mem_filter, decide_eq_true_iff, ← h.entryAt_eq_some_iff, he]
    exact ⟨fun heq => (Option.some.inj heq).symm, fun heq => congrArg some heq.symm⟩

theorem entryAt_cons (e : DirEntry) (es : List DirEntry) (k : Str) :
    entryAt (e :: es) k = if fold e.name = k then some e else entryAt es k := by
  by_cases h : fold e.name = k
  · rw [if_pos h, entryAt, find?_cons_of_pos (by simpa using h)]
  · rw [if_neg h, entryAt, find?_cons_of_neg (by simpa using h)]
    rfl

/-- A merged listing under way: entries by folded name. -/
structure Merged where
  rows : Table Str DirEntry
  keyed : ∀ {k e}, rows.lookup k = some e → fold e.name = k

namespace Merged

def empty : Merged := ⟨∅, fun h => by simp at h⟩

def insert (m : Merged) (e : DirEntry) : Merged where
  rows := m.rows.insert (fold e.name) e
  keyed := by
    intro k e' h
    rw [Table.lookup_insert_eq_ite] at h
    split_ifs at h with hk
    · cases h
      exact hk.symm
    · exact m.keyed h

def erase (m : Merged) (k : Str) : Merged where
  rows := m.rows.erase k
  keyed := by
    intro k' e h
    rw [Table.lookup_erase_eq_ite] at h
    split_ifs at h
    exact m.keyed h

/-- `merge_upper_entry`: the entry of the upper side is the live one, under the spelling of the
lower side if that has the name. -/
def mergeUpperEntry (m : Merged) (upper : DirEntry) : Merged :=
  match h : m.rows.lookup (fold upper.name) with
  | some lower =>
    ⟨m.rows.insert (fold upper.name) { lower with stat := upper.stat }, by
      intro k e he
      rw [Table.lookup_insert_eq_ite] at he
      split_ifs at he with hk
      · cases he
        exact (m.keyed h).trans hk.symm
      · exact m.keyed he⟩
  | none => m.insert upper

/-- An entry of the lower side, if any, with the stat of the one of the upper side. -/
def live : Option DirEntry → DirEntry → DirEntry
  | some lower, upper => { lower with stat := upper.stat }
  | none, upper => upper

@[simp] theorem lookup_empty (k : Str) : empty.rows.lookup k = none := rfl

@[simp] theorem lookup_insert (m : Merged) (e : DirEntry) (k : Str) :
    (m.insert e).rows.lookup k = if k = fold e.name then some e else m.rows.lookup k :=
  Table.lookup_insert_eq_ite _ _ _ _

@[simp] theorem lookup_erase (m : Merged) (j k : Str) :
    (m.erase j).rows.lookup k = if k = j then none else m.rows.lookup k :=
  Table.lookup_erase_eq_ite _ _ _

theorem lookup_mergeUpperEntry (m : Merged) (u : DirEntry) (k : Str) :
    (m.mergeUpperEntry u).rows.lookup k =
      if k = fold u.name then some (live (m.rows.lookup k) u) else m.rows.lookup k := by
  unfold mergeUpperEntry
  split
  · next lower h =>
      rw [Table.lookup_insert_eq_ite]
      split_ifs with hk
      · rw [hk, h]
        rfl
      · rfl
  · next h =>
      rw [lookup_insert]
      split_ifs with hk
      · rw [hk, h]
        rfl
      · rfl

def insertAll (m : Merged) (es : List DirEntry) : Merged := es.foldl insert m

def mergeAll (m : Merged) (es : List DirEntry) : Merged := es.foldl mergeUpperEntry m

theorem lookup_foldl {put : Merged → DirEntry → Merged} {g : Option DirEntry → DirEntry → DirEntry}
    (hput : ∀ m e k, (put m e).rows.lookup k =
      if k = fold e.name then some (g (m.rows.lookup k) e) else m.rows.lookup k)
    {es : List DirEntry} (hes : FoldUnique es) (m : Merged) (k : Str) :
    (es.foldl put m).rows.lookup k =
      ((entryAt es k).map (g (m.rows.lookup k))).or (m.rows.lookup k) := by
  induction es generalizing m with
  | nil => rfl
  | cons e es ih =>
    obtain ⟨hnot, hes⟩ := nodup_cons.mp hes
    rw [foldl_cons, ih hes, hput, entryAt_cons]
    by_cases hk : fold e.name = k
    · have hnone : entryAt es k = none := entryAt_eq_none.mpr fun e' he' heq =>
        hnot (mem_map.mpr ⟨e', he', heq.trans hk.symm⟩)
      rw [hnone, if_pos hk, if_pos hk.symm]
      rfl
    · rw [if_neg hk, if_neg (Ne.symm hk)]

theorem lookup_insertAll {es : List DirEntry} (hes : FoldUnique es) (m : Merged) (k : Str) :
    (m.insertAll es).rows.lookup k = (entryAt es k).or (m.rows.lookup k) := by
  rw [insertAll, lookup_foldl (g := fun _ e => e) lookup_insert hes, Option.map_id']

theorem lookup_mergeAll {es : List DirEntry} (hes : FoldUnique es) (m : Merged) (k : Str) :
    (m.mergeAll es).rows.lookup k =
      ((entryAt es k).map (live (m.rows.lookup k))).or (m.rows.lookup k) :=
  lookup_foldl lookup_mergeUpperEntry hes m k

def sortedByFoldedName (m : Merged) : List DirEntry :=
  (m.rows.entries.insertionSort fun a b => a.1 ≤ b.1).map fun r => r.2

theorem mem_sortedByFoldedName {m : Merged} {e : DirEntry} :
    e ∈ m.sortedByFoldedName ↔ m.rows.lookup (fold e.name) = some e := by
  have hlookup : ∀ k, m.rows.lookup k = some e ↔ (⟨k, e⟩ : Σ _ : Str, DirEntry) ∈ m.rows.entries :=
    fun k => AList.mem_lookup_iff
  simp only [sortedByFoldedName, mem_map, mem_insertionSort]
  constructor
  · rintro ⟨⟨k, e'⟩, hmem, rfl⟩
    have hk := (hlookup k).mpr hmem
    rwa [m.keyed hk]
  · intro h
    exact ⟨_, (hlookup _).mp h, rfl⟩

theorem foldUnique_sortedByFoldedName (m : Merged) : FoldUnique m.sortedByFoldedName := by
  have hkeys : (m.rows.entries.map Sigma.fst).Nodup := m.rows.nodupKeys
  have hperm := (perm_insertionSort
    (fun a b : Σ _ : Str, DirEntry => a.1 ≤ b.1) m.rows.entries).map Sigma.fst
  have hmap : (m.sortedByFoldedName).map (fun e => fold e.name) =
      (m.rows.entries.insertionSort fun a b => a.1 ≤ b.1).map Sigma.fst := by
    rw [sortedByFoldedName, map_map]
    refine map_congr_left fun r hr => ?_
    have hmem : r ∈ m.rows.entries := (perm_insertionSort _ _).mem_iff.mp hr
    exact m.keyed (AList.mem_lookup_iff.mpr hmem)
  rw [FoldUnique, hmap]
  exact hperm.nodup_iff.mpr hkeys

@[simp] theorem entryAt_sortedByFoldedName (m : Merged) (k : Str) :
    entryAt m.sortedByFoldedName k = m.rows.lookup k := by
  apply Option.ext
  intro e
  rw [m.foldUnique_sortedByFoldedName.entryAt_eq_some_iff, mem_sortedByFoldedName]
  constructor
  · rintro ⟨h, rfl⟩
    exact h
  · intro h
    have hk := m.keyed h
    exact ⟨hk ▸ h, hk⟩

end Merged

/-! ## Views that fit together -/

namespace View

def stat (v : View) (p : VPath) : Option Stat := (v.getattr p).toOption.join

/-- The entry the listing of `d` shows under a name. -/
def shown (v : View) (d : VPath) (n : Str) : Option DirEntry :=
  (v.readdir d).toOption.bind fun es => entryAt es (fold n)

variable {v : View} {d : VPath}

theorem shown_eq_some {n : Str} {e : DirEntry} :
    v.shown d n = some e ↔ ∃ es, v.readdir d = .ok es ∧ entryAt es (fold n) = some e := by
  rw [shown]
  cases v.readdir d with
  | error e' => simp [Except.toOption]
  | ok es => simp [Except.toOption]

/-- A name is listed once where it is there, and with the same `f` of its stat, exactly when the
entry that is listed and the stat that is there have the same. -/
theorem listed_resolved_iff {n : Str} {β : Type} (f : Stat → β)
    (hunique : ∀ {es}, v.readdir d = .ok es → FoldUnique es) :
    ((∀ es e, v.readdir d = .ok es → e ∈ es → fold e.name = fold n →
        (v.stat (d ++ [n])).map f = some (f e.stat)) ∧
      ∀ s, v.stat (d ++ [n]) = some s →
        ∃ es e, v.readdir d = .ok es ∧ es.filter (fun e => fold e.name = fold n) = [e]) ↔
      (v.stat (d ++ [n])).map f = (v.shown d n).map fun e => f e.stat := by
  constructor
  · rintro ⟨hlisted, hresolved⟩
    cases hs : v.shown d n with
    | some e =>
      obtain ⟨es, hread, he⟩ := shown_eq_some.mp hs
      obtain ⟨hmem, hfold⟩ := entryAt_eq_some he
      exact hlisted es e hread hmem hfold
    | none =>
      cases hst : v.stat (d ++ [n]) with
      | none => rfl
      | some s =>
        obtain ⟨es, e, hread, hfilter⟩ := hresolved s hst
        have he := (hunique hread).filter_eq.mp hfilter
        rw [shown_eq_some.mpr ⟨es, hread, he⟩] at hs
        cases hs
  · intro hsame
    refine ⟨fun es e hread hmem hfold => ?_, fun s hs => ?_⟩
    · have he := (hunique hread).entryAt_of_mem hmem
      rw [hfold] at he
      rw [hsame, shown_eq_some.mpr ⟨es, hread, he⟩]
      rfl
    · rw [hs, Option.map_some, eq_comm, Option.map_eq_some_iff] at hsame
      obtain ⟨e, he, -⟩ := hsame
      obtain ⟨es, hread, he⟩ := shown_eq_some.mp he
      exact ⟨es, e, hread, (hunique hread).filter_eq.mpr he⟩

/-- `stored_name`: the provider's own answer, or the name in a listing of the parent. -/
def storedNameOf (v : View) (p : VPath) : Except Status (Option Str) :=
  match v.storedName p with
  | .error .notSupported =>
    match p.getLast? with
    | none => .ok none
    | some name =>
      match v.readdir p.dropLast with
      | .ok entries => .ok ((entryAt entries (fold name)).map DirEntry.name)
      | .error .notFound => .ok none
      | .error .notADir => .ok none
      | .error e => .error e
  | answered => answered

/-- The answers of a view fit together: they are those of one tree whose names differ by more
than case. -/
structure Consistent (v : View) : Prop where
  answers : ∀ p, v.getattr p = .ok (v.stat p)
  folds : ∀ {p q : VPath}, p.map fold = q.map fold → v.stat p = v.stat q
  missing : ∀ {d}, v.stat d = none → v.readdir d = .error .notFound
  plain : ∀ {d s}, v.stat d = some s → s.kind = .file → v.readdir d = .error .notADir
  lists : ∀ {d s}, v.stat d = some s → s.kind = .dir → ∃ es, v.readdir d = .ok es ∧ FoldUnique es
  listed : ∀ {d n e}, v.shown d n = some e → v.stat (d ++ [n]) = some e.stat
  resolved : ∀ {d n s}, n ≠ [] → v.stat (d ++ [n]) = some s → ∃ e, v.shown d n = some e
  named : ∀ p, v.storedName p = .error .notSupported ∨ v.storedName p =
    .ok (p.getLast?.bind fun n => (v.shown p.dropLast n).map DirEntry.name)

/-- A listing does not depend on how its directory is spelled. -/
def Blind (v : View) : Prop :=
  ∀ {p q : VPath}, p.map fold = q.map fold → v.readdir p = v.readdir q

theorem shown_of_ok {es : List DirEntry} (h : v.readdir d = .ok es) (n : Str) :
    v.shown d n = entryAt es (fold n) := by
  rw [shown, h]
  rfl

theorem shown_of_error {e : Status} (h : v.readdir d = .error e) (n : Str) :
    v.shown d n = none := by
  rw [shown, h]
  rfl

namespace Consistent

variable {v : View} (h : Consistent v)

include h

theorem map_stat_shown (d : VPath) {n : Str} (hn : n ≠ []) :
    (v.shown d n).map DirEntry.stat = v.stat (d ++ [n]) := by
  cases hs : v.shown d n with
  | some e => exact (h.listed hs).symm
  | none =>
    cases hst : v.stat (d ++ [n]) with
    | none => rfl
    | some s =>
      obtain ⟨e, he⟩ := h.resolved hn hst
      rw [hs] at he
      cases he

theorem readdir_cases (d : VPath) : (∃ es, v.readdir d = .ok es ∧ FoldUnique es) ∨
    v.readdir d = .error .notFound ∨ v.readdir d = .error .notADir := by
  cases hd : v.stat d with
  | none => exact Or.inr (Or.inl (h.missing hd))
  | some s =>
    cases hk : s.kind with
    | file => exact Or.inr (Or.inr (h.plain hd hk))
    | dir => exact Or.inl (h.lists hd hk)

theorem storedNameOf_eq (d : VPath) (n : Str) :
    v.storedNameOf (d ++ [n]) = .ok ((v.shown d n).map DirEntry.name) := by
  unfold storedNameOf
  rcases h.named (d ++ [n]) with hnot | hok
  · rw [hnot]
    simp only [getLast?_append, getLast?_singleton, Option.some_or,
      dropLast_concat]
    rcases h.readdir_cases d with ⟨es, hread, -⟩ | hread | hread
    · rw [hread, shown_of_ok hread]
    · rw [hread, shown_of_error hread]
      rfl
    · rw [hread, shown_of_error hread]
      rfl
  · rw [hok]
    simp

end Consistent

end View

/-- A provider whose answers fit together; an open for reading of what it does not have is
refused as not found. -/
structure Provider.Consistent (P : Provider) : Prop where
  view : P.now.Consistent
  opens : ∀ {p flags}, Flags.Reading flags → P.now.stat p = none →
    (P.openPath P.state p flags).1 = .error .notFound

end Listings

end AetherVfs.Compose
