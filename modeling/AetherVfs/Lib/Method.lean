import Mathlib.Tactic

/-!
# Methods of a mutable receiver

A method call that reads and changes its receiver statement by statement and may leave at any of
them, with an error or in a panic. Whatever way it leaves, the receiver is what the statements so
far have made of it. `Transacts` is what a careful caller hopes for: an error leaves the receiver
as it was, and a result comes with the change `R`. The rules prove it from the shape of the body:
statements that only read, which may refuse, and then statements that never refuse.
-/

inductive Exit (ε α : Type) where
  | returned (a : α)
  | refused (e : ε)
  | panicked
deriving DecidableEq

/-- The body of a method with the receiver `σ`. -/
def Method (σ ε α : Type) := σ → Exit ε α × σ

namespace Method

variable {σ ε α β : Type}

def bind (m : Method σ ε α) (f : α → Method σ ε β) : Method σ ε β := fun s =>
  match m s with
  | (.returned a, s') => f a s'
  | (.refused e, s') => (.refused e, s')
  | (.panicked, s') => (.panicked, s')

instance : Monad (Method σ ε) where
  pure a := fun s => (.returned a, s)
  bind := bind

/-- `return Err(e)`. -/
def refuse (e : ε) : Method σ ε α := fun s => (.refused e, s)

def read (f : σ → α) : Method σ ε α := fun s => (.returned (f s), s)

def change (f : σ → σ) : Method σ ε Unit := fun s => (.returned (), f s)

/-- The `?` operator. -/
def ask : Except ε α → Method σ ε α
  | .ok a => pure a
  | .error e => refuse e

/-- `ok_or(e)?`, and `let Some(..) = .. else { return Err(e) }`. -/
def orRefuse (e : ε) : Option α → Method σ ε α
  | some a => pure a
  | none => refuse e

def expect : Option α → Method σ ε α
  | some a => pure a
  | none => fun s => (.panicked, s)

/-- The results of a loop over a list. -/
def each (f : α → Method σ ε β) : List α → Method σ ε (List β)
  | [] => pure []
  | a :: as => do
      let b ← f a
      let bs ← each f as
      return b :: bs

theorem pure_apply (a : α) (s : σ) : (pure a : Method σ ε α) s = (.returned a, s) := rfl

variable {m : Method σ ε α} {f : α → Method σ ε β} {s : σ} {P : α → σ → Prop} {Q : σ → Prop}

theorem bind_of_returned {s' : σ} {a : α} (h : m s = (.returned a, s')) : (m >>= f) s = f a s' := by
  change bind m f s = _
  rw [bind, h]

theorem bind_of_refused {s' : σ} {e : ε} (h : m s = (.refused e, s')) :
    (m >>= f) s = (.refused e, s') := by
  change bind m f s = _
  rw [bind, h]

theorem bind_of_panicked {s' : σ} (h : m s = (.panicked, s')) : (m >>= f) s = (.panicked, s') := by
  change bind m f s = _
  rw [bind, h]

@[simp] theorem pure_bind_apply (a : α) (f : α → Method σ ε β) (s : σ) :
    ((pure a : Method σ ε α) >>= f) s = f a s := rfl

@[simp] theorem read_bind_apply (g : σ → α) (f : α → Method σ ε β) (s : σ) :
    ((read g : Method σ ε α) >>= f) s = f (g s) s := rfl

@[simp] theorem change_bind_apply (g : σ → σ) (f : Unit → Method σ ε β) (s : σ) :
    ((change g : Method σ ε Unit) >>= f) s = f () (g s) := rfl

@[simp] theorem expect_some_bind_apply (a : α) (f : α → Method σ ε β) (s : σ) :
    ((expect (some a) : Method σ ε α) >>= f) s = f a s := rfl

/-- A loop every round of which returns. `I` is kept for the rounds left, and `F` is what they make
of the receiver. -/
theorem each_eq {ι : Type} {k : ι → α} {g : ι → β} {F : σ → List ι → σ} {I : σ → List ι → Prop}
    (hnil : ∀ s, F s [] = s) (hround : ∀ s x xs, I s (x :: xs) →
      ∃ s', f (k x) s = (.returned (g x), s') ∧ F s' xs = F s (x :: xs) ∧ I s' xs) {xs : List ι}
    (hI : I s xs) : each f (xs.map k) s = (.returned (xs.map g), F s xs) := by
  induction xs generalizing s with
  | nil =>
    rw [hnil]
    rfl
  | cons x xs ih =>
    obtain ⟨s', hx, hF, hxs⟩ := hround s x xs hI
    rw [List.map_cons, each, bind_of_returned hx, bind_of_returned (ih hxs), hF]
    rfl

def Reads (m : Method σ ε α) : Prop := ∀ s, (m s).2 = s

theorem reads_pure (a : α) : Reads (pure a : Method σ ε α) := fun _ => rfl

theorem reads_refuse (e : ε) : Reads (refuse e : Method σ ε α) := fun _ => rfl

theorem reads_read (f : σ → α) : Reads (read f : Method σ ε α) := fun _ => rfl

theorem reads_ask (x : Except ε α) : Reads (ask x : Method σ ε α) := by
  cases x with
  | ok a => exact reads_pure a
  | error e => exact reads_refuse e

theorem reads_orRefuse (e : ε) (x : Option α) : Reads (orRefuse e x : Method σ ε α) := by
  cases x with
  | some a => exact reads_pure a
  | none => exact reads_refuse e

theorem reads_expect (x : Option α) : Reads (expect x : Method σ ε α) := by
  cases x with
  | some a => exact reads_pure a
  | none => exact fun _ => rfl

section Writes

variable {γ : Type} {p : σ → γ}

/-- The body never refuses, and leaves `p` of the receiver as it is. -/
structure Writes (p : σ → γ) (m : Method σ ε α) : Prop where
  not_refused : ∀ s e, (m s).1 ≠ .refused e
  keeps : ∀ s, p (m s).2 = p s

theorem writes_change {f : σ → σ} (h : ∀ s, p (f s) = p s) :
    Writes p (change f : Method σ ε Unit) where
  not_refused s e := by simp [change]
  keeps := h

theorem writes_read (f : σ → α) : Writes p (read f : Method σ ε α) where
  not_refused s e := by simp [read]
  keeps _ := rfl

theorem writes_pure (a : α) : Writes p (pure a : Method σ ε α) := writes_read fun _ => a

theorem writes_expect (x : Option α) : Writes p (expect x : Method σ ε α) := by
  cases x with
  | some a => exact writes_pure a
  | none => exact ⟨fun s e => by simp [expect], fun _ => rfl⟩

theorem Writes.bind (hm : Writes p m) (hf : ∀ a, Writes p (f a)) : Writes p (m >>= f) := by
  have hboth : ∀ s, (∀ e, ((m >>= f) s).1 ≠ .refused e) ∧ p ((m >>= f) s).2 = p s := by
    intro s
    have hne := hm.not_refused s
    have hkeeps := hm.keeps s
    rcases hms : m s with ⟨_ | _ | _, s'⟩
    · rw [hms] at hkeeps
      rw [bind_of_returned hms]
      exact ⟨(hf _).not_refused s', ((hf _).keeps s').trans hkeeps⟩
    · rw [hms] at hne
      exact absurd rfl (hne _)
    · rw [hms] at hkeeps
      rw [bind_of_panicked hms]
      exact ⟨by simp, hkeeps⟩
  exact ⟨fun s => (hboth s).1, fun s => (hboth s).2⟩

theorem writes_each (hf : ∀ a, Writes p (f a)) (as : List α) : Writes p (each f as) := by
  induction as with
  | nil => exact writes_pure []
  | cons a as ih => exact (hf a).bind fun b => ih.bind fun bs => writes_pure (b :: bs)

end Writes

section Steps

variable {R : σ → σ → Prop}

/-- What a call of a receiver `s` ended with: an error left the receiver as it was, and a
result comes with the change `R`. -/
structure Transacts (R : σ → σ → Prop) (s : σ) (r : Exit ε α × σ) : Prop where
  refused : ∀ e, r.1 = .refused e → r.2 = s
  returned : ∀ a, r.1 = .returned a → R s r.2

theorem Writes.transacts {γ : Type} {p : σ → γ} (h : Writes p m) {s₁ : σ}
    (hR : ∀ s₂, p s₂ = p s₁ → R s s₂) : Transacts R s (m s₁) :=
  ⟨fun e he => absurd he (h.not_refused s₁ e), fun _ _ => hR _ (h.keeps s₁)⟩

theorem transacts_refused (e : ε) (s : σ) : Transacts R s ((.refused e, s) : Exit ε α × σ) :=
  ⟨fun _ _ => rfl, by simp⟩

theorem transacts_panicked (s : σ) : Transacts R s ((.panicked, s) : Exit ε α × σ) :=
  ⟨by simp, by simp⟩

theorem Reads.transacts_bind (hm : Reads m) (hf : ∀ a, Transacts R s (f a s)) :
    Transacts R s ((m >>= f) s) := by
  have hs := hm s
  rcases hms : m s with ⟨a | e | _, s'⟩
  all_goals obtain rfl : s' = s := by rw [← hs, hms]
  · rw [bind_of_returned hms]
    exact hf a
  · rw [bind_of_refused hms]
    exact transacts_refused e s'
  · rw [bind_of_panicked hms]
    exact transacts_panicked s'

theorem transacts_unless {c : Prop} [Decidable c] {e : ε} {k : Unit → Method σ ε α}
    (h : ¬ c → Transacts R s (k () s)) :
    Transacts R s ((if c then (refuse e : Method σ ε Unit) >>= k else k ()) s) := by
  split_ifs with hc
  · exact transacts_refused e s
  · exact h hc

end Steps

/-- A call that ended well ended as `P` says, and one that ended with an error left the receiver
as `Q` says. It did not panic. -/
def Meets (P : α → σ → Prop) (Q : σ → Prop) : Exit ε α × σ → Prop
  | (.returned a, s) => P a s
  | (.refused _, s) => Q s
  | (.panicked, _) => False

theorem Meets.bind {R : β → σ → Prop} (h : Meets P Q (m s))
    (hf : ∀ a s', P a s' → Meets R Q (f a s')) : Meets R Q ((m >>= f) s) := by
  rcases hms : m s with ⟨a | e | _, s'⟩
  · rw [hms] at h
    rw [bind_of_returned hms]
    exact hf a s' h
  · rw [hms] at h
    rw [bind_of_refused hms]
    exact h
  · rw [hms] at h
    exact h.elim

theorem Meets.mono {P' : α → σ → Prop} {Q' : σ → Prop} {r : Exit ε α × σ} (h : Meets P Q r)
    (hP : ∀ a s, P a s → P' a s) (hQ : ∀ s, Q s → Q' s) : Meets P' Q' r := by
  rcases r with ⟨a | e | _, s⟩
  · exact hP a s h
  · exact hQ s h
  · exact h

theorem Meets.elim {C : Exit ε α → σ → Prop} {r : Exit ε α × σ} (h : Meets P Q r)
    (hP : ∀ a s, P a s → C (.returned a) s) (hQ : ∀ e s, Q s → C (.refused e) s) : C r.1 r.2 := by
  rcases r with ⟨a | e | _, s⟩
  · exact hP a s h
  · exact hQ e s h
  · exact False.elim h

end Method
