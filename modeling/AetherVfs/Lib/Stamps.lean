import Mathlib.Tactic

/-!
# Change stamps on a tree of records

Records under keys, each with the version of its last change and of the last change below it.
Removing a record removes its stamps, so a version is kept for keys whose records went. `Next`
says what one step at a version must stamp; `Since` is what the stamps then tell about any
earlier state. The order of the keys is any relation.
-/

namespace Stamps

variable {κ α : Type*}

structure Book (κ α : Type*) where
  record : κ → Option α
  changed : κ → ℕ
  subtree : κ → ℕ
  removed : κ → ℕ

variable {above : κ → κ → Prop} {s₀ s s' : Book κ α} {v₀ v : ℕ}

/-- One step at version `v`: a record that is not stamped is as it was, a change is stamped on
every record above it, and a removal leaves its version at or above the key. -/
structure Next (above : κ → κ → Prop) (v : ℕ) (s s' : Book κ α) : Prop where
  own : ∀ k, s'.record k ≠ none → s'.changed k = v ∨
    (s'.changed k = s.changed k ∧ s'.record k = s.record k)
  below : ∀ k j, above k j → s'.record k ≠ none → s'.record j ≠ s.record j →
    s'.changed k = v ∨ s'.subtree k = v
  subtree : ∀ k, s'.record k ≠ none →
    s'.changed k = v ∨ s'.subtree k = v ∨ s'.subtree k = s.subtree k
  gone : ∀ k, s.record k ≠ none → s'.record k = none → ∃ q, above q k ∧ v ≤ s'.removed q
  removed : ∀ q, s.removed q ≤ s'.removed q

/-- What the stamps of `s` tell about the earlier state `s₀` at version `v₀`. -/
structure Since (above : κ → κ → Prop) (v₀ : ℕ) (s₀ s : Book κ α) : Prop where
  own : ∀ k, s.record k ≠ none → s.changed k ≤ v₀ → s.record k = s₀.record k
  below : ∀ k, s.record k ≠ none → s.changed k ≤ v₀ → s.subtree k ≤ v₀ →
    ∀ j, above k j → s.record j = s₀.record j
  gone : ∀ k, s.record k = none → (∀ q, above q k → s.removed q ≤ v₀) → s₀.record k = none

theorem since_refl (above : κ → κ → Prop) (v₀ : ℕ) (s : Book κ α) : Since above v₀ s s :=
  ⟨fun _ _ _ => rfl, fun _ _ _ _ _ _ => rfl, fun _ h _ => h⟩

theorem Since.next (h : Since above v₀ s₀ s) (hv : v₀ < v) (hnext : Next above v s s') :
    Since above v₀ s₀ s' := by
  refine ⟨?_, ?_, ?_⟩
  · intro k hk hle
    rcases hnext.own k hk with hstamp | ⟨hstamp, hsame⟩
    · omega
    · rw [hsame]
      exact h.own k (hsame ▸ hk) (hstamp ▸ hle)
  · intro k hk hle hsub j hkj
    rcases hnext.own k hk with hstamp | ⟨hstamp, hsame⟩
    · omega
    have hj : s'.record j = s.record j := by
      by_contra hne
      rcases hnext.below k j hkj hk hne with hstamp | hstamp <;> omega
    have hold : s'.subtree k = s.subtree k := by
      rcases hnext.subtree k hk with hstamp | hstamp | hold
      · omega
      · omega
      · exact hold
    rw [hj]
    exact h.below k (hsame ▸ hk) (hstamp ▸ hle) (hold ▸ hsub) j hkj
  · intro k hk hquiet
    refine h.gone k ?_ fun q hq => (hnext.removed q).trans (hquiet q hq)
    by_contra hne
    obtain ⟨q, hq, hmark⟩ := hnext.gone k hne hk
    have := hquiet q hq
    omega

end Stamps
