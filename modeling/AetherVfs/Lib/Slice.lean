import Mathlib.Tactic

/-!
# Writing into a buffer of fixed length

`overwrite off xs buf` is the buffer with `xs` from `off` on, as far as the buffer reaches. A
`Piece` is one write of a layout: a field, which has to fit, or a tail, of which the buffer gets
as much as it has room for. Writing a list of pieces into the start of a buffer is the start of
what the whole buffer gets.
-/

namespace Slice

open List

variable {α : Type}

def overwrite (off : ℕ) (xs buf : List α) : List α :=
  buf.mapIdx fun i b => if off ≤ i then (xs[i - off]?).getD b else b

@[simp] theorem length_overwrite (off : ℕ) (xs buf : List α) :
    (overwrite off xs buf).length = buf.length := by
  simp [overwrite]

theorem getElem?_overwrite (off : ℕ) (xs buf : List α) (i : ℕ) :
    (overwrite off xs buf)[i]? =
      if off ≤ i ∧ i < off + xs.length ∧ i < buf.length then xs[i - off]? else buf[i]? := by
  rw [overwrite, getElem?_mapIdx]
  by_cases hi : i < buf.length
  · rw [getElem?_eq_getElem hi, Option.map_some]
    by_cases hin : off ≤ i ∧ i < off + xs.length
    · have hx : i - off < xs.length := by omega
      rw [if_pos hin.1, if_pos ⟨hin.1, hin.2, hi⟩, getElem?_eq_getElem hx, Option.getD_some]
    · have hout : ¬ (off ≤ i ∧ i < off + xs.length ∧ i < buf.length) :=
        fun h => hin ⟨h.1, h.2.1⟩
      by_cases hoff : off ≤ i
      · have hx : xs.length ≤ i - off := by omega
        rw [if_pos hoff, if_neg hout, getElem?_eq_none hx, Option.getD_none]
      · rw [if_neg hoff, if_neg hout]
  · rw [getElem?_eq_none (not_lt.mp hi), if_neg (fun h => hi h.2.2)]
    rfl

theorem take_overwrite (n off : ℕ) (xs buf : List α) :
    (overwrite off xs buf).take n = overwrite off xs (buf.take n) := by
  apply ext_getElem?
  intro i
  rw [getElem?_take, getElem?_overwrite, getElem?_overwrite, getElem?_take,
    length_take]
  by_cases hi : i < n
  · simp only [if_pos hi]
    apply if_congr _ rfl rfl
    omega
  · rw [if_neg hi, if_neg hi, if_neg]
    omega

/-- The `n` elements from `off` on. -/
def range (off n : ℕ) (buf : List α) : List α := (buf.drop off).take n

theorem getElem?_range (off n : ℕ) (buf : List α) (i : ℕ) :
    (range off n buf)[i]? = if i < n then buf[off + i]? else none := by
  rw [range, getElem?_take, getElem?_drop]

@[simp] theorem length_range (off n : ℕ) (buf : List α) :
    (range off n buf).length = min n (buf.length - off) := by
  simp [range]

variable {xs buf : List α}

theorem range_overwrite_self {off : ℕ} (h : off + xs.length ≤ buf.length) :
    range off xs.length (overwrite off xs buf) = xs := by
  apply ext_getElem?
  intro i
  rw [getElem?_range, getElem?_overwrite]
  by_cases hi : i < xs.length
  · rw [if_pos hi, if_pos ⟨by omega, by omega, by omega⟩, Nat.add_sub_cancel_left]
  · rw [if_neg hi, getElem?_eq_none (not_lt.mp hi)]

theorem range_overwrite_of_disjoint {p n off : ℕ} (buf : List α)
    (h : p + n ≤ off ∨ off + xs.length ≤ p) : range p n (overwrite off xs buf) = range p n buf := by
  apply ext_getElem?
  intro i
  rw [getElem?_range, getElem?_range, getElem?_overwrite]
  by_cases hi : i < n
  · rw [if_pos hi, if_pos hi, if_neg]
    omega
  · rw [if_neg hi, if_neg hi]

theorem overwrite_range (off n : ℕ) (buf : List α) : overwrite off (range off n buf) buf = buf := by
  apply ext_getElem?
  intro i
  rw [getElem?_overwrite, getElem?_range]
  split_ifs with h h'
  · rw [Nat.add_sub_of_le h.1]
  · rw [length_range] at h
    omega
  · rfl

theorem overwrite_overwrite {off : ℕ} {ys : List α} (buf : List α) (h : xs.length = ys.length) :
    overwrite off xs (overwrite off ys buf) = overwrite off xs buf := by
  apply ext_getElem?
  intro i
  simp only [getElem?_overwrite, length_overwrite, h]
  split_ifs <;> rfl

theorem overwrite_comm {p q : ℕ} {ys : List α} (buf : List α)
    (h : p + xs.length ≤ q ∨ q + ys.length ≤ p) :
    overwrite p xs (overwrite q ys buf) = overwrite q ys (overwrite p xs buf) := by
  apply ext_getElem?
  intro i
  simp only [getElem?_overwrite, length_overwrite]
  split_ifs <;> first | rfl | omega

/-- `buf[off..off + xs.len()].copy_from_slice(xs)`; there is no result when the range is outside
the buffer. -/
def put (off : ℕ) (xs buf : List α) : Option (List α) :=
  if off + xs.length ≤ buf.length then some (overwrite off xs buf) else none

inductive Piece (α : Type) where
  | field (off : ℕ) (xs : List α)
  | tail (off : ℕ) (xs : List α)

variable {p : Piece α}

namespace Piece

def write : Piece α → List α → Option (Bool × List α)
  | .field off xs, buf => (put off xs buf).map fun buf => (true, buf)
  | .tail off xs, buf => some (decide (xs.length ≤ buf.length - off), overwrite off xs buf)

def off : Piece α → ℕ
  | .field off _ => off
  | .tail off _ => off

def elems : Piece α → List α
  | .field _ xs => xs
  | .tail _ xs => xs

/-- A field lies within the first `n` places. -/
def Within (n : ℕ) : Piece α → Prop
  | .field off xs => off + xs.length ≤ n
  | .tail _ _ => True

/-- A field within the first `n` places, and no tail. -/
def IsField (n : ℕ) : Piece α → Prop
  | .field off xs => off + xs.length ≤ n
  | .tail _ _ => False

/-- All of a tail fits into `n` places. -/
def Fits (n : ℕ) : Piece α → Prop
  | .field _ _ => True
  | .tail off xs => xs.length ≤ n - off

instance (n : ℕ) : (p : Piece α) → Decidable (p.Fits n)
  | .field _ _ => isTrue trivial
  | .tail off xs => inferInstanceAs (Decidable (xs.length ≤ n - off))

theorem IsField.within {n : ℕ} (h : p.IsField n) : p.Within n := by
  cases p with
  | field off xs => exact h
  | tail off xs => trivial

theorem IsField.fits {n : ℕ} (h : p.IsField n) (m : ℕ) : p.Fits m := by
  cases p with
  | field off xs => trivial
  | tail off xs => exact h.elim

end Piece

def writeAll : List (Piece α) → List α → Option (Bool × List α)
  | [], buf => some (true, buf)
  | p :: ps, buf => do
      let (fit, buf) ← p.write buf
      let (rest, buf) ← writeAll ps buf
      return (fit && rest, buf)

def overwriteAll (ps : List (Piece α)) (buf : List α) : List α :=
  ps.foldl (fun buf p => overwrite p.off p.elems buf) buf

@[simp] theorem length_overwriteAll (ps : List (Piece α)) (buf : List α) :
    (overwriteAll ps buf).length = buf.length := by
  induction ps generalizing buf with
  | nil => rfl
  | cons p ps ih =>
    rw [overwriteAll, foldl_cons]
    exact (ih _).trans (length_overwrite _ _ _)

theorem writeAll_eq {ps : List (Piece α)} (h : ∀ p ∈ ps, p.Within buf.length) :
    writeAll ps buf = some (decide (∀ p ∈ ps, p.Fits buf.length), overwriteAll ps buf) := by
  induction ps generalizing buf with
  | nil => simp [writeAll, overwriteAll]
  | cons p ps ih =>
    have hp : p.write buf = some (decide (p.Fits buf.length), overwrite p.off p.elems buf) := by
      have hin := h p mem_cons_self
      cases p with
      | field off xs =>
        have hput : put off xs buf = some (overwrite off xs buf) := if_pos hin
        rw [Piece.write, hput]
        rfl
      | tail off xs => rfl
    have hps := @ih (overwrite p.off p.elems buf) (by
      intro q hq
      rw [length_overwrite]
      exact h q (mem_cons_of_mem p hq))
    rw [length_overwrite] at hps
    rw [writeAll, hp]
    simp only [Option.bind_eq_bind, Option.bind_some, hps, forall_mem_cons, overwriteAll,
      foldl_cons, pure, Bool.decide_and]

theorem take_overwriteAll (n : ℕ) (ps : List (Piece α)) (buf : List α) :
    (overwriteAll ps buf).take n = overwriteAll ps (buf.take n) := by
  induction ps generalizing buf with
  | nil => rfl
  | cons p ps ih =>
    rw [overwriteAll, overwriteAll, foldl_cons, foldl_cons, ← take_overwrite]
    exact ih _

theorem range_overwriteAll {before after : List (Piece α)}
    (hin : p.off + p.elems.length ≤ buf.length)
    (hafter : ∀ q ∈ after, p.off + p.elems.length ≤ q.off ∨ q.off + q.elems.length ≤ p.off) :
    range p.off p.elems.length (overwriteAll (before ++ p :: after) buf) = p.elems := by
  have hlater : ∀ (qs : List (Piece α)) (b : List α),
      (∀ q ∈ qs, p.off + p.elems.length ≤ q.off ∨ q.off + q.elems.length ≤ p.off) →
      range p.off p.elems.length (overwriteAll qs b) = range p.off p.elems.length b := by
    intro qs
    induction qs with
    | nil => exact fun b _ => rfl
    | cons q qs ih =>
      intro b hqs
      rw [overwriteAll, foldl_cons]
      exact (ih _ fun x hx => hqs x (mem_cons_of_mem q hx)).trans
        (range_overwrite_of_disjoint b (hqs q mem_cons_self))
  rw [overwriteAll, foldl_append, foldl_cons]
  refine (hlater after _ hafter).trans (range_overwrite_self ?_)
  have hlen := length_overwriteAll before buf
  unfold overwriteAll at hlen
  rw [hlen]
  exact hin

theorem getElem?_overwriteAll_of_outside {ps : List (Piece α)} {i : ℕ}
    (h : ∀ p ∈ ps, ¬ (p.off ≤ i ∧ i < p.off + p.elems.length)) :
    (overwriteAll ps buf)[i]? = buf[i]? := by
  induction ps generalizing buf with
  | nil => rfl
  | cons p ps ih =>
    rw [overwriteAll, foldl_cons]
    refine (ih fun q hq => h q (mem_cons_of_mem p hq)).trans ?_
    rw [getElem?_overwrite, if_neg]
    exact fun hin => h p mem_cons_self ⟨hin.1, hin.2.1⟩

end Slice
