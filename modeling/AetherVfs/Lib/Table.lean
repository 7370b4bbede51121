import Mathlib.Data.List.AList
import Mathlib.Tactic

/-!
# Finite tables

A table is a finite map from keys to rows, kept as a list without repeated keys. The lemmas
say what a lookup finds after one write, and after a loop of writes or removals.
-/

/-- A finite map from `κ` to `ν`. -/
abbrev Table (κ ν : Type*) := AList (fun _ : κ => ν)

namespace Table

open List AList

variable {κ ν : Type*} [DecidableEq κ] {t : Table κ ν} {k j : κ} {v : ν} {rows : List (κ × ν)}
  {f : κ → κ} {ks : List κ}

theorem mem_of_lookup (h : t.lookup k = some v) : k ∈ t :=
  lookup_isSome.mp (h ▸ rfl)

theorem exists_lookup (h : k ∈ t) : ∃ v, t.lookup k = some v :=
  Option.isSome_iff_exists.mp (lookup_isSome.mpr h)

theorem lookup_insert_eq_ite (t : Table κ ν) (k : κ) (v : ν) (j : κ) :
    (t.insert k v).lookup j = if j = k then some v else t.lookup j := by
  by_cases h : j = k
  · subst h
    simp
  · rw [if_neg h, lookup_insert_ne h]

theorem lookup_erase_eq_ite (t : Table κ ν) (k j : κ) :
    (t.erase k).lookup j = if j = k then none else t.lookup j := by
  by_cases h : j = k
  · subst h
    simp
  · rw [if_neg h, lookup_erase_ne h]

def modify (t : Table κ ν) (k : κ) (f : ν → ν) : Table κ ν :=
  match t.lookup k with
  | some v => t.insert k (f v)
  | none => t

theorem lookup_modify (t : Table κ ν) (k : κ) (f : ν → ν) (j : κ) :
    (modify t k f).lookup j = if j = k then (t.lookup j).map f else t.lookup j := by
  unfold modify
  by_cases hj : j = k
  · subst hj
    cases h : t.lookup j with
    | none => simp [h]
    | some v => simp
  · cases h : t.lookup k with
    | none => simp [hj]
    | some v => simp [hj]

theorem modify_modify (t : Table κ ν) (k : κ) (f g : ν → ν) :
    modify (modify t k f) k g = modify t k (g ∘ f) := by
  cases h : t.lookup k <;> simp [modify, h, insert_insert]

theorem map_map_eq {α β : Type*} {x : Option α} {g : α → α} {f : α → β} (h : ∀ a, f (g a) = f a) :
    (x.map g).map f = x.map f := by
  cases x <;> simp [h]

theorem map_lookup_modify {β : Type*} {g : ν → ν} {f : ν → β} (h : ∀ v, f (g v) = f v) :
    ((modify t k g).lookup j).map f = (t.lookup j).map f := by
  rw [lookup_modify]
  split_ifs
  · exact map_map_eq h
  · rfl

def eraseAll (t : Table κ ν) (ks : List κ) : Table κ ν := ks.foldl (fun t k => t.erase k) t

theorem lookup_eraseAll (t : Table κ ν) (ks : List κ) (j : κ) :
    (eraseAll t ks).lookup j = if j ∈ ks then none else t.lookup j := by
  induction ks generalizing t with
  | nil => simp [eraseAll]
  | cons k ks ih =>
    have hstep : (eraseAll t (k :: ks)).lookup j = (eraseAll (t.erase k) ks).lookup j := rfl
    rw [hstep, ih, lookup_erase_eq_ite]
    by_cases hj : j = k <;> simp [hj]

def insertAll (t : Table κ ν) (rows : List (κ × ν)) : Table κ ν :=
  rows.foldl (fun t r => t.insert r.1 r.2) t

theorem lookup_insertAll_of_notMem (t : Table κ ν) (hj : ∀ r ∈ rows, r.1 ≠ j) :
    (insertAll t rows).lookup j = t.lookup j := by
  induction rows generalizing t with
  | nil => rfl
  | cons r rows ih =>
    have hstep : insertAll t (r :: rows) = insertAll (t.insert r.1 r.2) rows := rfl
    rw [hstep, ih _ fun r' hr' => hj r' (mem_cons_of_mem _ hr')]
    exact lookup_insert_ne (hj r mem_cons_self).symm

theorem lookup_insertAll_of_mem (t : Table κ ν) (hnodup : (rows.map Prod.fst).Nodup)
    (hj : (j, v) ∈ rows) : (insertAll t rows).lookup j = some v := by
  induction rows generalizing t with
  | nil => simp at hj
  | cons r rows ih =>
    have hstep : insertAll t (r :: rows) = insertAll (t.insert r.1 r.2) rows := rfl
    rw [map_cons, nodup_cons] at hnodup
    rcases mem_cons.mp hj with rfl | hj
    · rw [hstep, lookup_insertAll_of_notMem]
      · simp
      · intro r hr heq
        have hmem : r.1 ∈ rows.map Prod.fst := mem_map_of_mem hr
        exact hnodup.1 (heq ▸ hmem)
    · rw [hstep]
      exact ih _ hnodup.2 hj

theorem mem_of_lookup_insertAll (h : (insertAll t rows).lookup j = some v) :
    t.lookup j = some v ∨ (j, v) ∈ rows := by
  induction rows generalizing t with
  | nil => exact Or.inl h
  | cons r rows ih =>
    rcases ih h with hold | hmem
    · rw [lookup_insert_eq_ite] at hold
      split_ifs at hold with hj
      · cases hold
        exact Or.inr (hj ▸ mem_cons_self)
      · exact Or.inl hold
    · exact Or.inr (mem_cons_of_mem _ hmem)

theorem length_keys_insertAll_le (t : Table κ ν) (rows : List (κ × ν)) :
    (insertAll t rows).keys.length ≤ t.keys.length + rows.length := by
  induction rows generalizing t with
  | nil => exact le_rfl
  | cons r rows ih =>
    have hstep : (t.insert r.1 r.2).keys.length ≤ t.keys.length + 1 := by
      rw [keys_insert, length_cons]
      exact Nat.succ_le_succ (length_erase_le)
    refine (ih (t.insert r.1 r.2)).trans ?_
    rw [length_cons]
    omega

theorem length_keys_le_insert (t : Table κ ν) (k : κ) (v : ν) :
    t.keys.length ≤ (t.insert k v).keys.length := by
  rw [keys_insert, length_cons]
  have herase : t.keys.length - 1 ≤ (t.keys.erase k).length := le_length_erase
  omega

omit [DecidableEq κ] in
theorem length_keys_congr {ν' : Type*} {u : Table κ ν'} (h : ∀ k, k ∈ t ↔ k ∈ u) :
    t.keys.length = u.keys.length := by
  refine List.Perm.length_eq ((perm_ext_iff_of_nodup t.keys_nodup u.keys_nodup).mpr ?_)
  intro k
  exact h k

/-- Move the rows of the keys of `ks`, first key first, each to the key that `f` gives. -/
def rekey (f : κ → κ) (d : ν) (t : Table κ ν) (ks : List κ) : Table κ ν :=
  ks.foldl (fun t k => (t.erase k).insert (f k) ((t.lookup k).getD d)) t

theorem rekey_cons (f : κ → κ) (d : ν) (t : Table κ ν) (k : κ) (ks : List κ) :
    rekey f d t (k :: ks) = rekey f d ((t.erase k).insert (f k) ((t.lookup k).getD d)) ks := rfl

theorem lookup_rekey_of_notMem {d : ν} (hj : ∀ k ∈ ks, f k ≠ j) :
    (rekey f d t ks).lookup j = if j ∈ ks then none else t.lookup j := by
  induction ks generalizing t with
  | nil => simp [rekey]
  | cons k ks ih =>
    have hne : j ≠ f k := fun heq => hj k mem_cons_self heq.symm
    rw [rekey_cons, ih fun k' hk' => hj k' (mem_cons_of_mem k hk'), lookup_insert_eq_ite,
      if_neg hne, lookup_erase_eq_ite]
    by_cases hjk : j = k <;> simp [hjk]

theorem mem_rekey {d : ν} (h : j ∈ rekey f d t ks) : j ∈ t ∧ j ∉ ks ∨ ∃ k ∈ ks, j = f k := by
  by_cases hnew : ∃ k ∈ ks, j = f k
  · exact Or.inr hnew
  · rw [← lookup_isSome, lookup_rekey_of_notMem fun k hk heq => hnew ⟨k, hk, heq.symm⟩] at h
    split_ifs at h with hks
    · cases h
    · exact Or.inl ⟨lookup_isSome.mp h, hks⟩

theorem lookup_rekey_of_mem {d : ν} (hnodup : ks.Nodup)
    (hinj : ∀ a ∈ ks, ∀ b ∈ ks, f a = f b → a = b) (hsep : ∀ a ∈ ks, ∀ b ∈ ks, f a = b → a = b)
    (hk : k ∈ ks) (ht : k ∈ t) : (rekey f d t ks).lookup (f k) = t.lookup k := by
  induction ks generalizing t with
  | nil => cases hk
  | cons a ks ih =>
    obtain ⟨ha, hnodup⟩ := nodup_cons.mp hnodup
    have hother : ∀ b ∈ ks, f a ≠ b := fun b hb heq =>
      ha (hsep a mem_cons_self b (mem_cons_of_mem a hb) heq ▸ hb)
    rw [rekey_cons]
    obtain rfl | hk := mem_cons.mp hk
    · obtain ⟨v, hv⟩ := Option.isSome_iff_exists.mp (lookup_isSome.mpr ht)
      rw [lookup_rekey_of_notMem, if_neg fun hmem => hother _ hmem rfl, lookup_insert_eq_ite,
        if_pos rfl, hv, Option.getD_some]
      intro b hb heq
      exact ha (hinj b (mem_cons_of_mem k hb) k mem_cons_self heq ▸ hb)
    · have hkept : ((t.erase a).insert (f a) ((t.lookup a).getD d)).lookup k = t.lookup k := by
        rw [lookup_insert_eq_ite, if_neg (hother k hk).symm, lookup_erase_eq_ite, if_neg]
        exact fun heq => ha (heq ▸ hk)
      rw [← hkept]
      apply ih hnodup
      · exact fun x hx y hy => hinj x (mem_cons_of_mem a hx) y (mem_cons_of_mem a hy)
      · exact fun x hx y hy => hsep x (mem_cons_of_mem a hx) y (mem_cons_of_mem a hy)
      · exact hk
      · rw [← lookup_isSome, hkept]
        exact lookup_isSome.mpr ht

def keep (t : Table κ ν) (p : κ → Bool) : Table κ ν :=
  ⟨t.entries.filter fun r => p r.1, t.nodupKeys.sublist List.filter_sublist⟩

theorem lookup_keep (t : Table κ ν) (p : κ → Bool) (k : κ) :
    (keep t p).lookup k = if p k then t.lookup k else none := by
  apply Option.ext
  intro v
  have hkept : (keep t p).lookup k = some v ↔
      (⟨k, v⟩ : Σ _ : κ, ν) ∈ t.entries.filter fun r => p r.1 := mem_lookup_iff
  have hlookup : t.lookup k = some v ↔ (⟨k, v⟩ : Σ _ : κ, ν) ∈ t.entries :=
    mem_lookup_iff
  rw [hkept, mem_filter, ← hlookup]
  split_ifs with hp <;> simp [hp]

omit [DecidableEq κ] in
theorem length_keys_keep_le (t : Table κ ν) (p : κ → Bool) :
    (keep t p).keys.length ≤ t.keys.length := by
  simp only [AList.keys, List.keys, List.length_map]
  exact length_filter_le _ _

def rowsWhere (t : Table κ ν) (p : κ → Bool) : List (κ × ν) :=
  (t.entries.filter fun r => p r.1).map fun r => (r.1, r.2)

theorem mem_rowsWhere {p : κ → Bool} :
    (k, v) ∈ rowsWhere t p ↔ t.lookup k = some v ∧ p k = true := by
  have hlookup : t.lookup k = some v ↔ (⟨k, v⟩ : Σ _ : κ, ν) ∈ t.entries :=
    mem_lookup_iff
  rw [hlookup]
  simp only [rowsWhere, mem_map, mem_filter, Prod.mk.injEq]
  constructor
  · rintro ⟨⟨k', v'⟩, ⟨hmem, hp⟩, rfl, rfl⟩
    exact ⟨hmem, hp⟩
  · rintro ⟨hmem, hp⟩
    exact ⟨⟨k, v⟩, ⟨hmem, hp⟩, rfl, rfl⟩

omit [DecidableEq κ] in
theorem nodup_rowsWhere (t : Table κ ν) (p : κ → Bool) :
    ((rowsWhere t p).map Prod.fst).Nodup := by
  have hkeys : (t.entries.map Sigma.fst).Nodup := t.nodupKeys
  have hsub : ((rowsWhere t p).map Prod.fst).Sublist (t.entries.map Sigma.fst) := by
    simp only [rowsWhere, map_map, Function.comp_def]
    exact filter_sublist.map _
  exact hkeys.sublist hsub

section Total

def total (w : ν → ℕ) (t : Table κ ν) : ℕ := (t.entries.map fun r => w r.2).sum

variable {w : ν → ℕ}

theorem total_erase (h : t.lookup k = some v) : total w (t.erase k) + w v = total w t := by
  have hk : k ∈ t.entries.keys := lookup_isSome.mp (h ▸ rfl)
  obtain ⟨v', l₁, l₂, -, hsplit, herase⟩ := exists_of_kerase hk
  have hv : t.lookup k = some v' := mem_lookup_iff.mpr (by simp [hsplit])
  obtain rfl : v = v' := Option.some.inj (h.symm.trans hv)
  have herased : (t.erase k).entries = l₁ ++ l₂ := herase
  simp only [total, herased, hsplit, map_append, map_cons, sum_append, sum_cons]
  omega

theorem total_insert (h : k ∉ t) : total w (t.insert k v) = w v + total w t := by
  rw [total, entries_insert_of_notMem h, map_cons, sum_cons, total]

theorem total_modify {f : ν → ν} (hf : ∀ v, w (f v) = w v) (t : Table κ ν) (k : κ) :
    total w (modify t k f) = total w t := by
  unfold modify
  cases h : t.lookup k with
  | none => rfl
  | some v =>
    have hinsert : total w (t.insert k (f v)) = w (f v) + total w (t.erase k) := rfl
    have herase := total_erase (w := w) h
    rw [hf] at hinsert
    dsimp only
    omega

omit [DecidableEq κ] in
theorem total_keep_add (w : ν → ℕ) (t : Table κ ν) (p : κ → Bool) :
    total w (keep t p) + total w (keep t fun k => !p k) = total w t := by
  simp only [total, keep]
  induction t.entries with
  | nil => rfl
  | cons r l ih => by_cases hr : p r.1 <;> simp [hr] <;> omega

end Total

end Table
