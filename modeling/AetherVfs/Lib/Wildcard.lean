import Mathlib.Tactic

/-!
# Wildcards

A pattern is a list of atoms: any run of symbols, one symbol of a kind, or one symbol of a kind
where there is one. `Matches` says which words a pattern stands for. A matcher that goes from left
to right and comes back only to the last run it passed loses nothing: `matches_last_run`.
-/

namespace Wildcard

open List

variable {α : Type*}

inductive Atom (α : Type*) where
  | run
  | one (kind : α → Bool)
  /-- A symbol of the kind if that is what comes next, otherwise nothing. -/
  | next (kind : α → Bool)

inductive Matches : List (Atom α) → List α → Prop where
  | nil : Matches [] []
  | run (w : List α) {as : List (Atom α)} {s : List α} : Matches as s → Matches (.run :: as) (w ++ s)
  | one {kind : α → Bool} {c : α} {as : List (Atom α)} {s : List α} :
      kind c = true → Matches as s → Matches (.one kind :: as) (c :: s)
  | take {kind : α → Bool} {c : α} {as : List (Atom α)} {s : List α} :
      kind c = true → Matches as s → Matches (.next kind :: as) (c :: s)
  | skip {kind : α → Bool} {as : List (Atom α)} {s : List α} :
      (∀ c ∈ s.head?, kind c = false) → Matches as s → Matches (.next kind :: as) s

variable {as : List (Atom α)} {s : List α} {kind : α → Bool}

@[simp] theorem matches_nil : Matches [] s ↔ s = [] := by
  constructor
  · intro h
    cases h
    rfl
  · rintro rfl
    exact Matches.nil

theorem matches_run : Matches (.run :: as) s ↔ ∃ t, t <:+ s ∧ Matches as t := by
  constructor
  · intro h
    cases h with
    | run w h => exact ⟨_, suffix_append w _, h⟩
  · rintro ⟨t, ⟨w, rfl⟩, h⟩
    exact h.run w

theorem matches_one : Matches (.one kind :: as) s ↔
    ∃ c t, s = c :: t ∧ kind c = true ∧ Matches as t := by
  constructor
  · intro h
    cases h with
    | one hc h => exact ⟨_, _, rfl, hc, h⟩
  · rintro ⟨c, t, rfl, hc, h⟩
    exact h.one hc

theorem matches_next_nil : Matches (.next kind :: as) [] ↔ Matches as [] := by
  constructor
  · intro h
    cases h with
    | skip _ h => exact h
  · intro h
    exact h.skip (by simp)

theorem matches_next_cons (c : α) : Matches (.next kind :: as) (c :: s) ↔
    Matches as (if kind c then s else c :: s) := by
  constructor
  · intro h
    cases h with
    | take hc h => rwa [if_pos hc]
    | skip hc h =>
      rw [if_neg (by simp [hc c rfl])]
      exact h
  · intro h
    split_ifs at h with hc
    · exact h.take hc
    · exact h.skip (by simpa using hc)

/-- `f` holds of the word or of what is left of it after some symbols. -/
def anySuffix (f : List α → Bool) : List α → Bool
  | [] => f []
  | c :: s => f (c :: s) || anySuffix f s

theorem anySuffix_eq_true {f : List α → Bool} :
    anySuffix f s = true ↔ ∃ t, t <:+ s ∧ f t = true := by
  induction s with
  | nil => simp [anySuffix]
  | cons c s ih =>
    simp only [anySuffix, Bool.or_eq_true, ih, suffix_cons_iff, or_and_right, exists_or,
      exists_eq_left]

/-! ## The last run -/

variable {kinds : List (α → Bool)} {w : List α}

theorem matches_ones_append (h : List.Forall₂ (fun kind c => kind c = true) kinds w) :
    Matches (kinds.map .one ++ as) (w ++ s) ↔ Matches as s := by
  induction h with
  | nil => rfl
  | cons hc _ ih =>
    rw [map_cons, cons_append, cons_append, matches_one]
    constructor
    · rintro ⟨c, t, ht, -, hmatch⟩
      cases ht
      exact ih.mp hmatch
    · intro hmatch
      exact ⟨_, _, rfl, hc, ih.mpr hmatch⟩

theorem exists_of_matches_ones (h : Matches (kinds.map .one ++ as) s) :
    ∃ w t, s = w ++ t ∧ w.length = kinds.length ∧ Matches as t := by
  induction kinds generalizing s with
  | nil => exact ⟨[], s, rfl, rfl, h⟩
  | cons kind kinds ih =>
    obtain ⟨c, t, rfl, -, ht⟩ := matches_one.mp h
    obtain ⟨w, u, rfl, hlen, hu⟩ := ih ht
    exact ⟨c :: w, u, rfl, by simp [hlen], hu⟩

/-- When the symbols after one run were found as early as they can be, and another run follows,
the first run need not grow: whatever it could still skip, the second one can. -/
theorem matches_last_run (h : List.Forall₂ (fun kind c => kind c = true) kinds w) :
    (∃ t, t <:+ w ++ s ∧ Matches (kinds.map .one ++ .run :: as) t) ↔
      ∃ t, t <:+ s ∧ Matches as t := by
  constructor
  · rintro ⟨t, ht, hmatch⟩
    obtain ⟨w', u, rfl, hlen, hu⟩ := exists_of_matches_ones hmatch
    obtain ⟨v, hv, hmatch⟩ := matches_run.mp hu
    refine ⟨v, ?_, hmatch⟩
    have hle : u.length ≤ s.length := by
      have h1 := ht.length_le
      have h2 := h.length_eq
      rw [length_append, length_append] at h1
      omega
    have hus : u <:+ s := suffix_of_suffix_length_le
      ((suffix_append w' u).trans ht) (suffix_append w s) hle
    exact hv.trans hus
  · rintro ⟨t, ht, hmatch⟩
    exact ⟨w ++ s, suffix_rfl, (matches_ones_append h).mpr (matches_run.mpr ⟨t, ht, hmatch⟩)⟩

theorem matches_last_ones (h : List.Forall₂ (fun kind c => kind c = true) kinds w) :
    (∃ t, t <:+ w ∧ Matches (kinds.map .one ++ as) t) ↔ Matches as [] := by
  constructor
  · rintro ⟨t, ht, hmatch⟩
    obtain ⟨w', u, rfl, hlen, hu⟩ := exists_of_matches_ones hmatch
    have hnil : u = [] := by
      have h1 := ht.length_le
      have h2 := h.length_eq
      rw [length_append] at h1
      exact length_eq_zero_iff.mp (by omega)
    rwa [hnil] at hu
  · intro hmatch
    refine ⟨w, suffix_rfl, ?_⟩
    rw [← append_nil w]
    exact (matches_ones_append h).mpr hmatch

end Wildcard
