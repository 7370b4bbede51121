import Mathlib.Tactic

/-!
# What holds when a fallible computation succeeds

`Ends x P` is the partial-correctness judgement for `Except`: if `x` returns a value, the value
meets `P`. The rules follow the shape of a `do` block.
-/

namespace Outcome

variable {ε α β : Type}

@[simp] theorem ok_bind (a : α) (f : α → Except ε β) : (Except.ok a >>= f) = f a := rfl

/-- Every value `x` can return meets `P`. -/
def Ends (x : Except ε α) (P : α → Prop) : Prop := ∀ a, x = .ok a → P a

variable {a : α} {P : α → Prop} {x : Except ε α} {f : α → Except ε β}

theorem ends_ok (h : P a) : Ends (.ok a : Except ε α) P := by
  intro b hb
  cases hb
  exact h

theorem ends_pure (h : P a) : Ends (pure a : Except ε α) P := ends_ok h

theorem ends_error (e : ε) (P : α → Prop) : Ends (.error e : Except ε α) P := by
  intro a ha
  cases ha

theorem ends_throw (e : ε) (P : α → Prop) : Ends (throw e : Except ε α) P := ends_error e P

theorem Ends.mono {Q : α → Prop} (h : Ends x P) (hPQ : ∀ a, P a → Q a) :
    Ends x Q := fun a ha => hPQ a (h a ha)

theorem Ends.bind (h : Ends x P) {Q : β → Prop} (hf : ∀ a, P a → Ends (f a) Q) :
    Ends (x >>= f) Q := by
  cases x with
  | error e => exact ends_error e Q
  | ok a => exact hf a (h a rfl)

theorem ends_bind_any {Q : β → Prop} (hf : ∀ a, Ends (f a) Q) : Ends (x >>= f) Q :=
  Ends.bind (fun _ _ => trivial : Ends x fun _ => True) fun a _ => hf a

theorem ends_unless {c : Prop} [Decidable c] {e : ε} {k : Unit → Except ε α}
    (h : ¬ c → Ends (k ()) P) : Ends (if c then (throw e : Except ε Unit) >>= k else k ()) P := by
  split_ifs with hc
  · exact ends_error e P
  · exact h hc

/-! ## When a block succeeds -/

theorem bind_eq_ok {b : β} : (x >>= f) = .ok b ↔ ∃ a, x = .ok a ∧ f a = .ok b := by
  cases x with
  | error e =>
    constructor
    · intro h
      cases h
    · rintro ⟨a, ha, -⟩
      cases ha
  | ok a =>
    constructor
    · exact fun h => ⟨a, rfl, h⟩
    · rintro ⟨a', ha, h⟩
      cases ha
      exact h

theorem unless_eq_ok {c : Prop} [Decidable c] {e : ε} {k : Unit → Except ε α} :
    (if c then (throw e : Except ε Unit) >>= k else k ()) = .ok a ↔ ¬ c ∧ k () = .ok a := by
  split_ifs with hc
  · constructor
    · intro h
      cases h
    · exact fun h => absurd hc h.1
  · exact ⟨fun h => ⟨hc, h⟩, And.right⟩

theorem pure_eq_ok {b : α} : (pure a : Except ε α) = .ok b ↔ b = a :=
  ⟨fun h => (Except.ok.inj h).symm, fun h => h ▸ rfl⟩

theorem throw_ne_ok {e : ε} : (throw e : Except ε α) ≠ .ok a := nofun

end Outcome
