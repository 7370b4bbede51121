import Mathlib.Tactic

/-!
# Readers that return what is left

A reader takes a value off the front of a list of symbols, or fails. It is steady when its
answer depends on what it takes only. A reader built from steady ones that ends with a check
that nothing is left accepts a prefix-free set: no accepted input extends another.
-/

namespace Cursor

abbrev Reader (β α : Type) := StateT (List β) Option α

variable {β α γ : Type}

/-- The answer and what is taken do not depend on what follows. -/
def Steady (read : Reader β α) : Prop :=
  ∀ p x rest, read.run p = some (x, rest) →
    ∃ front, p = front ++ rest ∧ ∀ rest', read.run (front ++ rest') = some (x, rest')

/-- No accepted input is a proper prefix of an accepted input. -/
def PrefixFree (decode : List β → Option α) : Prop :=
  ∀ p extra, (decode p).isSome → (decode (p ++ extra)).isSome → extra = []

/-- Decoding what was encoded gives the value back, and only equal values have one encoding. -/
def Faithful (ok : α → Prop) (encode : α → List β) (decode : List β → Option α) : Prop :=
  (∀ x, ok x → decode (encode x) = some x) ∧
    ∀ x y, ok x → ok y → encode x = encode y → x = y

theorem faithful_of_decode {ok : α → Prop} {encode : α → List β} {decode : List β → Option α}
    (h : ∀ x, ok x → decode (encode x) = some x) : Faithful ok encode decode := by
  refine ⟨h, fun x y hx hy heq => ?_⟩
  have := h x hx
  rw [heq, h y hy] at this
  exact (Option.some.inj this).symm

/-! ## Steady readers -/

variable {read : Reader β α} {k : α → Reader β γ} {p rest : List β} {xs : List α}

theorem run_bind_eq_some {y : γ × List β} :
    (read >>= k).run p = some y ↔
      ∃ x rest, read.run p = some (x, rest) ∧ (k x).run rest = some y := by
  rw [StateT.run_bind, Option.bind_eq_bind, Option.bind_eq_some_iff]
  exact Prod.exists

theorem steady_pure (x : α) : Steady (pure x : Reader β α) := by
  intro p y rest h
  cases h
  exact ⟨[], rfl, fun _ => rfl⟩

theorem steady_failure : Steady (failure : Reader β α) := by
  intro p x rest h
  cases h

theorem steady_lift (x : Option α) : Steady (liftM x : Reader β α) := by
  cases x with
  | none => exact fun p x rest h => by cases h
  | some x => exact steady_pure x

theorem Steady.bind (h : Steady read) (hk : ∀ x, Steady (k x)) : Steady (read >>= k) := by
  intro p y rest hsome
  obtain ⟨x, mid, hx, hy⟩ := run_bind_eq_some.mp hsome
  obtain ⟨front, rfl, hread⟩ := h p x mid hx
  obtain ⟨front', rfl, hread'⟩ := hk x mid y rest hy
  refine ⟨front ++ front', (List.append_assoc _ _ _).symm, fun rest' => ?_⟩
  rw [List.append_assoc]
  exact run_bind_eq_some.mpr ⟨x, front' ++ rest', hread _, hread' rest'⟩

theorem Steady.ite {c : Prop} [Decidable c] {f g : Reader β α} (hf : Steady f) (hg : Steady g) :
    Steady (if c then f else g) := by
  split_ifs
  · exact hf
  · exact hg

/-! ## Decoders -/

theorem run'_eq_some {x : α} : read.run' p = some x ↔ ∃ rest, read.run p = some (x, rest) := by
  simp [StateT.run', StateT.run]

theorem prefixFree_run : PrefixFree read.run' ↔ PrefixFree read.run := by
  have hsome : ∀ p, (read.run' p).isSome = (read.run p).isSome := by
    intro p
    simp [StateT.run', StateT.run]
  simp only [PrefixFree, hsome]

theorem PrefixFree.bind (h : Steady read) (hk : ∀ x, PrefixFree (k x).run) :
    PrefixFree (read >>= k).run := by
  intro p extra hp hextra
  obtain ⟨y, hsome⟩ := Option.isSome_iff_exists.mp hp
  obtain ⟨x, mid, hx, hy⟩ := run_bind_eq_some.mp hsome
  obtain ⟨front, rfl, hread⟩ := h p x mid hx
  obtain ⟨z, hz⟩ := Option.isSome_iff_exists.mp hextra
  rw [List.append_assoc] at hz
  obtain ⟨x', mid', hx', hz⟩ := run_bind_eq_some.mp hz
  rw [hread] at hx'
  cases hx'
  exact hk x mid extra (Option.isSome_iff_exists.mpr ⟨y, hy⟩)
    (Option.isSome_iff_exists.mpr ⟨z, hz⟩)

theorem PrefixFree.ite {c : Prop} [Decidable c] {f g : Reader β α} (hf : PrefixFree f.run)
    (hg : PrefixFree g.run) : PrefixFree (if c then f else g).run := by
  split_ifs
  · exact hf
  · exact hg

theorem prefixFree_failure : PrefixFree (failure : Reader β α).run := by
  intro p extra h
  cases h

/-! ## A counted list of items -/

/-- Read `n` items one after the other. -/
def items (read : Reader β α) : ℕ → Reader β (List α)
  | 0 => pure []
  | n + 1 => do
      let x ← read
      let xs ← items read n
      return x :: xs

theorem steady_items (h : Steady read) (n : ℕ) : Steady (items read n) := by
  induction n with
  | zero => exact steady_pure []
  | succ n ih => exact h.bind fun x => ih.bind fun xs => steady_pure (x :: xs)

theorem items_flatMap (read : Reader β α) (put : α → List β)
    (h : ∀ x ∈ xs, ∀ rest, read.run (put x ++ rest) = some (x, rest)) (rest : List β) :
    (items read xs.length).run (xs.flatMap put ++ rest) = some (xs, rest) := by
  induction xs with
  | nil => rfl
  | cons x xs ih =>
    have hx := h x List.mem_cons_self (xs.flatMap put ++ rest)
    have hxs := ih fun y hy => h y (List.mem_cons_of_mem _ hy)
    simp [items, hx, hxs]

theorem items_succ_eq_some {n : ℕ} :
    (items read (n + 1)).run p = some (xs, rest) ↔
      ∃ x ys mid, read.run p = some (x, mid) ∧ (items read n).run mid = some (ys, rest) ∧
        xs = x :: ys := by
  simp only [items, run_bind_eq_some, StateT.run_pure, Option.pure_def, Option.some.injEq,
    Prod.mk.injEq]
  constructor
  · rintro ⟨x, mid, hx, ys, rest', hys, rfl, rfl⟩
    exact ⟨x, ys, mid, hx, hys, rfl⟩
  · rintro ⟨x, ys, mid, hx, hys, rfl⟩
    exact ⟨x, mid, hx, ys, rest, hys, rfl, rfl⟩

theorem length_items {n : ℕ} (h : (items read n).run p = some (xs, rest)) : xs.length = n := by
  induction n generalizing p xs with
  | zero =>
    cases h
    rfl
  | succ n ih =>
    obtain ⟨x, ys, mid, -, hys, rfl⟩ := items_succ_eq_some.mp h
    rw [List.length_cons, ih hys]

theorem forall_items {P : α → Prop} (hread : ∀ p x rest, read.run p = some (x, rest) → P x) {n : ℕ}
    (h : (items read n).run p = some (xs, rest)) : ∀ x ∈ xs, P x := by
  induction n generalizing p xs with
  | zero =>
    cases h
    simp
  | succ n ih =>
    obtain ⟨x, ys, mid, hx, hys, rfl⟩ := items_succ_eq_some.mp h
    intro y hy
    rcases List.mem_cons.mp hy with rfl | hy
    · exact hread p _ _ hx
    · exact ih hys y hy

/-! ## One spelling for each value -/

/-- What the reader takes is exactly what is written for the value it returns. -/
def Canonical (put : α → List β) (read : Reader β α) : Prop :=
  ∀ p x rest, read.run p = some (x, rest) → p = put x ++ rest

theorem Canonical.items {put : α → List β} (h : Canonical put read) (n : ℕ) :
    Canonical (fun xs => xs.flatMap put) (items read n) := by
  induction n with
  | zero =>
    intro p xs rest hp
    cases hp
    rfl
  | succ n ih =>
    intro p xs rest hp
    obtain ⟨x, ys, mid, hx, hys, rfl⟩ := items_succ_eq_some.mp hp
    dsimp only
    rw [h p x mid hx, ih mid ys rest hys, List.flatMap_cons, List.append_assoc]

end Cursor
