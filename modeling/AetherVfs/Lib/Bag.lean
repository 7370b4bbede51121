import Mathlib.Tactic

/-!
# Lists used as bags

A vector whose order nobody looks at: entries are found by a test, changed in
place or taken out. Every such change is described by a permutation, so sums,
membership and repetitions are read off the head of a list.
-/

namespace Bag

variable {α : Type*}

def updateFirst (p : α → Bool) (f : α → α) : List α → List α
  | [] => []
  | a :: l => if p a then f a :: l else a :: updateFirst p f l

/-- The entry found stands at the head of a permutation, and the changed list is that
permutation with the head changed. -/
theorem exists_perm_of_find {p : α → Bool} {f : α → α} {l : List α} {a : α}
    (h : l.find? p = some a) : ∃ r, l.Perm (a :: r) ∧ (updateFirst p f l).Perm (f a :: r) := by
  induction l with
  | nil => simp at h
  | cons b l ih =>
    by_cases hb : p b = true
    · simp only [List.find?_cons, hb, Option.some.injEq] at h
      subst h
      exact ⟨l, List.Perm.refl _, by simp [updateFirst, hb]⟩
    · simp only [List.find?_cons, hb] at h
      obtain ⟨r, hr, hr'⟩ := ih h
      refine ⟨b :: r, ?_, ?_⟩
      · exact (hr.cons b).trans (List.Perm.swap a b r)
      · simp only [updateFirst, hb, Bool.false_eq_true, if_false]
        exact (hr'.cons b).trans (List.Perm.swap (f a) b r)

/-- Every entry of the changed list is an old one, or an old one that passed the test,
changed. -/
theorem mem_updateFirst {p : α → Bool} {f : α → α} {l : List α} {b : α}
    (h : b ∈ updateFirst p f l) : b ∈ l ∨ ∃ a ∈ l, p a = true ∧ b = f a := by
  induction l with
  | nil => simp [updateFirst] at h
  | cons a l ih =>
    by_cases ha : p a = true
    · simp only [updateFirst, ha, if_true, List.mem_cons] at h
      rcases h with rfl | h
      · exact .inr ⟨a, List.mem_cons_self, ha, rfl⟩
      · exact .inl (List.mem_cons_of_mem _ h)
    · simp only [updateFirst, ha, Bool.false_eq_true, if_false, List.mem_cons] at h
      rcases h with rfl | h
      · exact .inl List.mem_cons_self
      · rcases ih h with h | ⟨c, hc, hp, rfl⟩
        · exact .inl (List.mem_cons_of_mem _ h)
        · exact .inr ⟨c, List.mem_cons_of_mem _ hc, hp, rfl⟩

end Bag
