import Mathlib.Tactic

/-!
# Programs made of atomic steps

A program is a tree of atomic steps on a state. A step may have to wait for the state to allow it,
and it takes a choice of the environment, which settles what the program does not: a call that
fails, what a failed call left behind, when a cache evicts. `wp` is the weakest precondition of
a program, for its result, its error, and the states it passes through, which are those a
crash can leave.
-/

/-- A program over the state `σ` with the environment's choices `χ` that ends with an `α` or
fails with an `ε`. -/
inductive Prog (σ χ ε α : Type) : Type 1 where
  | done (a : α)
  | fail (e : ε)
  | step {β : Type} (enabled : σ → Bool) (act : χ → σ → β × σ) (next : β → Prog σ χ ε α)

namespace Prog

variable {σ χ ε ε' α β γ : Type}

def bind : Prog σ χ ε α → (α → Prog σ χ ε β) → Prog σ χ ε β
  | done a, f => f a
  | fail e, _ => fail e
  | step g act k, f => step g act fun b => (k b).bind f

instance : Monad (Prog σ χ ε) where
  pure := done
  bind := bind

def handle (x : Prog σ χ ε α) (h : ε → Prog σ χ ε' α) : Prog σ χ ε' α :=
  match x with
  | done a => done a
  | fail e => h e
  | step g act k => step g act fun b => (k b).handle h

instance : MonadExceptOf ε (Prog σ χ ε) where
  throw := fail
  tryCatch := handle

def inspect (f : σ → α) : Prog σ χ ε α := step (fun _ => true) (fun _ s => (f s, s)) done

def update (f : σ → σ) : Prog σ χ ε Unit := step (fun _ => true) (fun _ s => ((), f s)) done

def call (f : χ → σ → Except ε α × σ) : Prog σ χ ε α :=
  step (fun _ => true) f fun
    | .ok a => done a
    | .error e => fail e

/-- The program run to its end, with the choices of the list and `d` after them. There is no
result if a step waits. -/
def exec (d : χ) : Prog σ χ ε α → List χ → σ → Option (Except ε α) × σ
  | done a, _, s => (some (.ok a), s)
  | fail e, _, s => (some (.error e), s)
  | step g act k, cs, s =>
    if g s then exec d (k (act (cs.headD d) s).1) cs.tail (act (cs.headD d) s).2 else (none, s)

/-- The state after one step for each choice of the list, or at the end of the program. -/
def upTo : Prog σ χ ε α → List χ → σ → σ
  | step g act k, c :: cs, s => if g s then upTo (k (act c s).1) cs (act c s).2 else s
  | _, _, s => s

/-- From `s`, and as long as the environment's choices meet `A`, the program stands only in
states that meet `C`, which is told whether the next step can be taken there, and it ends with a
result and a state that meet `Q` or with an error and a state that meet `E`. -/
def wp (A : χ → Prop) (C : Bool → σ → Prop) (Q : α → σ → Prop) (E : ε → σ → Prop) :
    Prog σ χ ε α → σ → Prop
  | done a, s => Q a s
  | fail e, s => E e s
  | step g act k, s =>
    C (g s) s ∧ (g s = true → ∀ c, A c → wp A C Q E (k (act c s).1) (act c s).2)

variable {x : Prog σ χ ε α}

section Rules

variable {A : χ → Prop} {C C' : Bool → σ → Prop} {Q Q' : α → σ → Prop} {E E' : ε → σ → Prop} {s : σ}

@[simp] theorem wp_done (a : α) : wp A C Q E (done a : Prog σ χ ε α) s ↔ Q a s := Iff.rfl

@[simp] theorem wp_pure (a : α) : wp A C Q E (pure a : Prog σ χ ε α) s ↔ Q a s := Iff.rfl

@[simp] theorem wp_fail (e : ε) : wp A C Q E (fail e : Prog σ χ ε α) s ↔ E e s := Iff.rfl

@[simp] theorem wp_throw (e : ε) : wp A C Q E (throw e : Prog σ χ ε α) s ↔ E e s := Iff.rfl

theorem wp_call {f : χ → σ → Except ε α × σ} : wp A C Q E (call f) s ↔ C true s ∧ ∀ c, A c →
    match f c s with
    | (.ok a, s') => Q a s'
    | (.error e, s') => E e s' := by
  simp only [call, wp, true_implies]
  refine and_congr_right fun _ => forall_congr' fun c => imp_congr_right fun _ => ?_
  rcases f c s with ⟨_ | _, s'⟩ <;> rfl

theorem wp_bind {f : α → Prog σ χ ε β} {Q : β → σ → Prop} :
    wp A C Q E (x >>= f) s ↔ wp A C (fun a => wp A C Q E (f a)) E x s := by
  change wp A C Q E (x.bind f) s ↔ _
  induction x generalizing s with
  | done a => rfl
  | fail e => rfl
  | step g act k ih =>
    simp only [bind, wp]
    exact and_congr_right fun _ => imp_congr_right fun _ => forall_congr' fun c =>
      imp_congr_right fun _ => ih _

theorem wp_handle {ε' : Type} {h : ε → Prog σ χ ε' α} {E : ε' → σ → Prop} :
    wp A C Q E (x.handle h) s ↔ wp A C Q (fun e => wp A C Q E (h e)) x s := by
  induction x generalizing s with
  | done a => rfl
  | fail e => rfl
  | step g act k ih =>
    simp only [handle, wp]
    exact and_congr_right fun _ => imp_congr_right fun _ => forall_congr' fun c =>
      imp_congr_right fun _ => ih _

theorem wp.mono (h : wp A C Q E x s) (hC : ∀ r s, C r s → C' r s) (hQ : ∀ a s, Q a s → Q' a s)
    (hE : ∀ e s, E e s → E' e s) : wp A C' Q' E' x s := by
  induction x generalizing s with
  | done a => exact hQ a s h
  | fail e => exact hE e s h
  | step g act k ih => exact ⟨hC _ s h.1, fun hg c hc => ih _ (h.2 hg c hc)⟩

theorem wp.weaken (h : wp A C Q E x s) (hQ : ∀ a s, Q a s → Q' a s) (hE : ∀ e s, E e s → E' e s) :
    wp A C Q' E' x s := h.mono (fun _ _ => id) hQ hE

theorem wp.upTo (h : wp A C Q E x s) (hQ : ∀ a s, Q a s → ∃ r, C r s)
    (hE : ∀ e s, E e s → ∃ r, C r s) {cs : List χ} (hcs : ∀ c ∈ cs, A c) :
    ∃ r, C r (x.upTo cs s) := by
  induction x generalizing s cs with
  | done a =>
    cases cs <;> exact hQ a s h
  | fail e =>
    cases cs <;> exact hE e s h
  | step g act k ih =>
    cases cs with
    | nil => exact ⟨_, h.1⟩
    | cons c cs =>
      rw [Prog.upTo]
      split_ifs with hg
      · exact ih _ (h.2 hg c (hcs c List.mem_cons_self)) fun c hc =>
          hcs c (List.mem_cons_of_mem _ hc)
      · exact ⟨_, h.1⟩

theorem wp_iff_upTo {I : σ → Prop} :
    wp (fun _ => True) (fun _ => I) (fun _ => I) (fun _ => I) x s ↔ ∀ cs, I (x.upTo cs s) := by
  refine ⟨fun h cs => ?_, fun h => ?_⟩
  · obtain ⟨-, hI⟩ := h.upTo (fun _ _ hs => ⟨true, hs⟩) (fun _ _ hs => ⟨true, hs⟩)
      fun c (_ : c ∈ cs) => trivial
    exact hI
  · induction x generalizing s with
    | done a => exact h []
    | fail e => exact h []
    | step g act k ih =>
      refine ⟨h [], fun hg c _ => ih _ fun cs => ?_⟩
      have hcs := h (c :: cs)
      rwa [Prog.upTo, if_pos hg] at hcs

end Rules

/-- The program keeps `I`, whatever the environment does. -/
def Keeps (A : χ → Prop) (I : σ → Prop) (x : Prog σ χ ε α) : Prop :=
  ∀ s, I s → wp A (fun _ => I) (fun _ => I) (fun _ => I) x s

namespace Keeps

variable {A : χ → Prop} {I : σ → Prop}

theorem update {f : σ → σ} (h : ∀ s, I s → I (f s)) : Keeps A I (update f : Prog σ χ ε Unit) :=
  fun s hs => ⟨hs, fun _ _ _ => h s hs⟩

theorem call {f : χ → σ → Except ε α × σ} (h : ∀ c s, A c → I s → I (f c s).2) :
    Keeps A I (call f) := by
  intro s hs
  refine wp_call.mpr ⟨hs, fun c hc => ?_⟩
  have := h c s hc hs
  rcases heq : f c s with ⟨_ | _, s'⟩ <;> rwa [heq] at this

theorem bind {f : α → Prog σ χ ε β} (hx : Keeps A I x) (hf : ∀ a, Keeps A I (f a)) :
    Keeps A I (x >>= f) := fun s hs =>
  wp_bind.mpr ((hx s hs).weaken (fun a s' hs' => hf a s' hs') fun _ _ => id)

end Keeps

end Prog
