import Mathlib.Tactic

/-!
# Runs of a transition function and their invariants

A system is a state type, an event type and a total step function. The event
carries every choice of the scheduler and of the environment, so a run is a
finite list of events and a property of every reachable state is a property
of every such list.
-/

namespace Transition

variable {σ ε : Type*}

def run (step : σ → ε → σ) (s : σ) (es : List ε) : σ := es.foldl step s

@[simp] theorem run_nil (step : σ → ε → σ) (s : σ) : run step s [] = s := rfl

@[simp] theorem run_cons (step : σ → ε → σ) (s : σ) (e : ε) (es : List ε) :
    run step s (e :: es) = run step (step s e) es := rfl

@[simp] theorem run_append (step : σ → ε → σ) (s : σ) (es fs : List ε) :
    run step s (es ++ fs) = run step (run step s es) fs := List.foldl_append

variable {step : σ → ε → σ} {I : σ → Prop} {s : σ} {P : σ → ε → Prop} {es : List ε}

theorem run_invariant (hstep : ∀ s e, I s → I (step s e)) (hs : I s) (es : List ε) :
    I (run step s es) := by
  induction es generalizing s with
  | nil => exact hs
  | cons e es ih => exact ih (hstep s e hs)

/-- Every step of the run from `s` along `es` is taken in a state where it meets `P`. -/
def AllSteps (step : σ → ε → σ) (P : σ → ε → Prop) : σ → List ε → Prop
  | _, [] => True
  | s, e :: es => P s e ∧ AllSteps step P (step s e) es

instance decidableAllSteps (step : σ → ε → σ) (P : σ → ε → Prop) [∀ s e, Decidable (P s e)] :
    ∀ s es, Decidable (AllSteps step P s es)
  | _, [] => isTrue trivial
  | s, e :: es =>
    have := decidableAllSteps step P (step s e) es
    inferInstanceAs (Decidable (P s e ∧ AllSteps step P (step s e) es))

theorem allSteps_append {fs : List ε} :
    AllSteps step P s (es ++ fs) ↔ AllSteps step P s es ∧ AllSteps step P (run step s es) fs := by
  induction es generalizing s with
  | nil => simp [AllSteps]
  | cons e es ih => simp [AllSteps, ih, and_assoc]

theorem allSteps_of_forall_mem (h : ∀ s e, e ∈ es → P s e) (s : σ) : AllSteps step P s es := by
  induction es generalizing s with
  | nil => trivial
  | cons e es ih =>
    exact ⟨h s e List.mem_cons_self, ih (fun s e he => h s e (List.mem_cons_of_mem _ he)) _⟩

theorem run_invariant_of_allSteps (hstep : ∀ s e, I s → P s e → I (step s e)) (hs : I s)
    (hes : AllSteps step P s es) : I (run step s es) := by
  induction es generalizing s with
  | nil => exact hs
  | cons e es ih => exact ih (hstep s e hs hes.1) hes.2

theorem run_simulation {τ : Type*} {spec : τ → ε → τ} {r : σ → τ → Prop}
    (hstep : ∀ s t e, r s t → P s e → r (step s e) (spec t e)) {t : τ} (hst : r s t)
    (hes : AllSteps step P s es) : r (run step s es) (run spec t es) := by
  induction es generalizing s t with
  | nil => exact hst
  | cons e es ih => exact ih (hstep s t e hst hes.1) hes.2

/-- A rank that drops with every turn of `e` until the goal is reached bounds the number
of turns it takes. -/
theorem exists_replicate_of_rank {e : ε} {G : σ → Prop} (rank : σ → ℕ)
    (hstep : ∀ s, I s → G (step s e) ∨ (I (step s e) ∧ rank (step s e) < rank s)) (hs : I s) :
    ∃ n, G (run step s (List.replicate n e)) := by
  induction hr : rank s using Nat.strong_induction_on generalizing s with
  | h r ih =>
    rcases hstep s hs with hgoal | ⟨hinv, hlt⟩
    · exact ⟨1, hgoal⟩
    · obtain ⟨n, hn⟩ := ih _ (hr ▸ hlt) hinv rfl
      exact ⟨n + 1, hn⟩

/-- Turning the predicate off at one entry of a list without repetitions takes one off the
count. -/
theorem countP_turn_off {α : Type*} {l : List α} {a : α} {p q : α → Bool} (hl : l.Nodup)
    (ha : a ∈ l) (hp : p a = true) (hq : q a = false) (hother : ∀ b, b ≠ a → q b = p b) :
    l.countP q + 1 = l.countP p := by
  obtain ⟨l₁, l₂, rfl⟩ := List.append_of_mem ha
  have hnd := List.nodup_middle.mp hl
  have hne : ∀ b ∈ l₁ ++ l₂, b ≠ a := fun b hb heq => (List.nodup_cons.mp hnd).1 (heq ▸ hb)
  have h₁ : l₁.countP q = l₁.countP p := List.countP_congr fun b hb => by
    rw [hother b (hne b (List.mem_append_left _ hb))]
  have h₂ : l₂.countP q = l₂.countP p := List.countP_congr fun b hb => by
    rw [hother b (hne b (List.mem_append_right _ hb))]
  simp [List.countP_append, hp, hq, h₁, h₂]
  omega

section Threads

variable {ι τ : Type*}

theorem le_sum_of_ne [Fintype ι] (f : ι → ℕ) {i j : ι} (hij : i ≠ j) : f i + f j ≤ ∑ k, f k := by
  classical
  rw [← Finset.sum_pair hij]
  exact Finset.sum_le_sum_of_subset (Finset.subset_univ _)

theorem sum_indicator_eq_one [Fintype ι] {P : ι → Prop} [DecidablePred P] {i : ι} (hi : P i)
    (hunique : ∀ j, P j → j = i) : (∑ j, if P j then 1 else 0) = 1 := by
  rw [Finset.sum_eq_single i]
  · simp [hi]
  · exact fun j _ hj => if_neg fun h => hj (hunique j h)
  · exact fun h => absurd (Finset.mem_univ i) h

variable [DecidableEq ι]

/-- A property of every thread survives the move of one of them, if it is kept by
the threads that stand still and reestablished by the one that moves. -/
theorem forall_update {th : ι → τ} {i : ι} {x : τ} {P : τ → Prop}
    (hx : P x) (hrest : ∀ j, j ≠ i → P (th j)) : ∀ j, P (Function.update th i x j) := by
  intro j
  by_cases hj : j = i
  · subst hj
    simpa using hx
  · simpa [Function.update_of_ne hj] using hrest j hj

theorem sum_update_add [Fintype ι] (th : ι → τ) (i : ι) (x : τ) (f : τ → ℕ) :
    (∑ j, f (Function.update th i x j)) + f (th i) = (∑ j, f (th j)) + f x := by
  have hnew : (∑ j, f (Function.update th i x j)) =
      f x + ∑ j ∈ Finset.univ.erase i, f (th j) := by
    rw [← Finset.add_sum_erase _ _ (Finset.mem_univ i), Function.update_self]
    congr 1
    apply Finset.sum_congr rfl
    intro j hj
    rw [Function.update_of_ne (Finset.ne_of_mem_erase hj)]
  have hold : (∑ j, f (th j)) = f (th i) + ∑ j ∈ Finset.univ.erase i, f (th j) :=
    (Finset.add_sum_erase _ (fun j => f (th j)) (Finset.mem_univ i)).symm
  omega

end Threads

end Transition
