import Mathlib.Tactic

/-!
# Windows of an indexed sequence

`window f off n` lists `f off, …, f (off + n - 1)`: what a read of `n` places
at `off` of a sequence returns. Cutting a window gives a window, and windows
that meet join.
-/

namespace Window

variable {β : Type*} (f : ℕ → β)

def window (off n : ℕ) : List β := (List.range' off n).map f

@[simp] theorem length_window (off n : ℕ) : (window f off n).length = n := by
  simp [window]

theorem drop_window (off n k : ℕ) : (window f off n).drop k = window f (off + k) (n - k) := by
  simp [window, ← List.map_drop, List.drop_range']

theorem take_window (off n k : ℕ) : (window f off n).take k = window f off (min k n) := by
  apply List.ext_getElem
  · simp
  · intro i _ _
    simp [window]

theorem window_append (off n m : ℕ) :
    window f off n ++ window f (off + n) m = window f off (n + m) := by
  simp [window, ← List.map_append]

theorem window_congr {f g : ℕ → β} {off n : ℕ}
    (h : ∀ i, off ≤ i → i < off + n → f i = g i) : window f off n = window g off n := by
  apply List.map_congr_left
  intro i hi
  rw [List.mem_range'_1] at hi
  exact h i hi.1 hi.2

end Window
