import Mathlib.Tactic

/-!
# Exclusive custody

A family of parties, each with a list of the things in its hands. Custody is
exclusive when no thing is in two hands, or twice in one. Everything a party
does to its own list is one `Function.update`, so `Exclusive.set` covers every
move.
-/

namespace Custody

open Function

variable {ι α : Type*} {held : ι → List α} {i : ι} {l : List α} {a : α}

/-- Some party has `a`. -/
def Owned (held : ι → List α) (a : α) : Prop := ∃ i, a ∈ held i

/-- No thing is held twice, by one party or by two. -/
structure Exclusive (held : ι → List α) : Prop where
  nodup : ∀ i, (held i).Nodup
  holder_unique : ∀ i j a, a ∈ held i → a ∈ held j → i = j

theorem exclusive_of_empty (h : ∀ i, held i = []) : Exclusive held := by
  refine ⟨fun i => ?_, fun i j a hi => ?_⟩
  · rw [h i]
    exact List.nodup_nil
  · simp [h i] at hi

theorem not_owned_of_empty (h : ∀ i, held i = []) : ¬ Owned held a := by
  rintro ⟨i, hi⟩
  simp [h i] at hi

variable [DecidableEq ι]

theorem Exclusive.update (hex : Exclusive held) (hl : l.Nodup)
    (hfrom : ∀ a ∈ l, a ∈ held i ∨ ¬ Owned held a) : Exclusive (Function.update held i l) := by
  refine ⟨fun j => ?_, fun j k a hj hk => ?_⟩
  · by_cases hji : j = i
    · subst hji
      simpa using hl
    · simpa [update_of_ne hji] using hex.nodup j
  · by_cases hji : j = i <;> by_cases hki : k = i
    · rw [hji, hki]
    · subst hji
      rw [update_self] at hj
      rw [update_of_ne hki] at hk
      rcases hfrom a hj with h | h
      · exact hex.holder_unique _ _ a h hk
      · exact absurd ⟨k, hk⟩ h
    · subst hki
      rw [update_self] at hk
      rw [update_of_ne hji] at hj
      rcases hfrom a hk with h | h
      · exact hex.holder_unique _ _ a hj h
      · exact absurd ⟨j, hj⟩ h
    · rw [update_of_ne hji] at hj
      rw [update_of_ne hki] at hk
      exact hex.holder_unique _ _ a hj hk

theorem owned_update_iff (hex : Exclusive held) :
    Owned (Function.update held i l) a ↔ a ∈ l ∨ (Owned held a ∧ a ∉ held i) := by
  constructor
  · rintro ⟨j, hj⟩
    by_cases hji : j = i
    · subst hji
      exact .inl (by simpa using hj)
    · rw [update_of_ne hji] at hj
      exact .inr ⟨⟨j, hj⟩, fun hi => hji (hex.holder_unique _ _ a hj hi)⟩
  · rintro (hl | ⟨⟨j, hj⟩, hi⟩)
    · exact ⟨i, by simpa using hl⟩
    · have hji : j ≠ i := by
        rintro rfl
        exact hi hj
      exact ⟨j, by simpa [update_of_ne hji] using hj⟩

/-- A party's move that concerns at most `s`, where `P` says before and `Q` after it what is in
some hand. -/
theorem Exclusive.set {P Q : α → Prop} {s : α} (hex : Exclusive held)
    (hP : ∀ a, Owned held a ↔ P a) (hother : ∀ a, a ≠ s → (Q a ↔ P a))
    (hlist : ∀ a, a ≠ s → (a ∈ l ↔ a ∈ held i)) (hl : l.Nodup) (hmine : s ∈ held i ∨ ¬ P s)
    (hs : s ∈ l ↔ Q s) :
    Exclusive (Function.update held i l) ∧ ∀ a, Owned (Function.update held i l) a ↔ Q a := by
  refine ⟨hex.update hl fun a ha => ?_, fun a => ?_⟩
  · by_cases has : a = s
    · subst has
      rwa [hP]
    · exact .inl ((hlist a has).mp ha)
  · rw [owned_update_iff hex, hP]
    by_cases has : a = s
    · subst has
      rcases hmine with hm | hm <;> simp [hm, hs]
    · have hmem : a ∈ held i → P a := fun ha => (hP a).mp ⟨i, ha⟩
      rw [hlist a has, hother a has]
      tauto

end Custody
