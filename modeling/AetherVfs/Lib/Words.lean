import AetherVfs.Lib.LittleEndian
import AetherVfs.Lib.Slice

/-!
# Adding to words of a buffer

`read w p` is the little-endian number in the `w` bytes at `p`, and `bump d p` adds `d` to the
64-bit word at `p`, modulo `2 ^ 64`. Bumps of words that lie apart commute and bumps of one word
add up, so bumping every word of a list of such words is an action of the 64-bit integers.
-/

namespace Words

variable {buf : List UInt8} {p q : ℕ} {d d' : UInt64}

def read (w p : ℕ) (buf : List UInt8) : ℕ := LittleEndian.value (Slice.range p w buf)

def word (p : ℕ) (buf : List UInt8) : UInt64 := UInt64.ofNat (read 8 p buf)

def bump (d : UInt64) (p : ℕ) (buf : List UInt8) : List UInt8 :=
  Slice.overwrite p (LittleEndian.bytes 8 (word p buf + d).toNat) buf

/-- The words at the two places have no byte in common. -/
def Apart (p q : ℕ) : Prop := p + 8 ≤ q ∨ q + 8 ≤ p

theorem Apart.symm (h : Apart p q) : Apart q p := Or.symm h

@[simp] theorem length_bump : (bump d p buf).length = buf.length := Slice.length_overwrite ..

theorem range_bump_of_disjoint {n : ℕ} (h : q + n ≤ p ∨ p + 8 ≤ q) :
    Slice.range q n (bump d p buf) = Slice.range q n buf :=
  Slice.range_overwrite_of_disjoint _ (by rwa [LittleEndian.length_bytes])

theorem word_bump_of_apart (h : Apart q p) : word q (bump d p buf) = word q buf := by
  rw [word, read, range_bump_of_disjoint h]
  rfl

theorem word_bump_self (h : p + 8 ≤ buf.length) : word p (bump d p buf) = word p buf + d := by
  have hlen := LittleEndian.length_bytes 8 (word p buf + d).toNat
  have hrange : Slice.range p 8 (bump d p buf) = LittleEndian.bytes 8 (word p buf + d).toNat := by
    have hself := Slice.range_overwrite_self (hlen.symm ▸ h)
    rwa [hlen] at hself
  rw [word, read, hrange, LittleEndian.value_bytes_of_lt (word p buf + d).toNat_lt,
    UInt64.ofNat_toNat]

theorem bump_zero (h : p + 8 ≤ buf.length) : bump 0 p buf = buf := by
  have hlen : (Slice.range p 8 buf).length = 8 := by
    rw [Slice.length_range]
    omega
  have hlt := LittleEndian.value_lt (Slice.range p 8 buf)
  rw [hlen] at hlt
  rw [bump, UInt64.add_zero, word, read, UInt64.toNat_ofNat_of_lt' hlt,
    LittleEndian.bytes_value hlen, Slice.overwrite_range]

theorem bump_bump (h : p + 8 ≤ buf.length) : bump d' p (bump d p buf) = bump (d + d') p buf := by
  rw [bump, word_bump_self h, bump, Slice.overwrite_overwrite _ (by simp), UInt64.add_assoc]
  rfl

theorem bump_comm (h : Apart p q) : bump d p (bump d' q buf) = bump d' q (bump d p buf) := by
  rw [bump, word_bump_of_apart h, bump, Slice.overwrite_comm _ (by simpa [Apart] using h), bump,
    word_bump_of_apart h.symm]
  rfl

/-! ## Many words -/

def bumpAll (d : UInt64) (ps : List ℕ) (buf : List UInt8) : List UInt8 :=
  ps.foldl (fun buf p => bump d p buf) buf

variable {ps : List ℕ}

@[simp] theorem length_bumpAll : (bumpAll d ps buf).length = buf.length := by
  induction ps generalizing buf with
  | nil => rfl
  | cons p ps ih => exact ih.trans length_bump

theorem range_bumpAll_of_disjoint {n : ℕ} (h : ∀ p ∈ ps, q + n ≤ p ∨ p + 8 ≤ q) :
    Slice.range q n (bumpAll d ps buf) = Slice.range q n buf := by
  induction ps generalizing buf with
  | nil => rfl
  | cons p ps ih =>
    obtain ⟨hp, hps⟩ := List.forall_mem_cons.mp h
    exact (ih hps).trans (range_bump_of_disjoint hp)

theorem bump_bumpAll (h : ∀ p ∈ ps, Apart q p) :
    bump d q (bumpAll d' ps buf) = bumpAll d' ps (bump d q buf) := by
  induction ps generalizing buf with
  | nil => rfl
  | cons p ps ih =>
    obtain ⟨hp, hps⟩ := List.forall_mem_cons.mp h
    exact (ih hps).trans (congrArg (bumpAll d' ps) (bump_comm hp))

theorem bumpAll_bumpAll (hps : ps.Pairwise Apart) (h : ∀ p ∈ ps, p + 8 ≤ buf.length) :
    bumpAll d' ps (bumpAll d ps buf) = bumpAll (d + d') ps buf := by
  induction ps generalizing buf with
  | nil => rfl
  | cons p ps ih =>
    obtain ⟨hp, hps⟩ := List.pairwise_cons.mp hps
    obtain ⟨hin, hall⟩ := List.forall_mem_cons.mp h
    calc bumpAll d' ps (bump d' p (bumpAll d ps (bump d p buf)))
        = bumpAll d' ps (bumpAll d ps (bump d' p (bump d p buf))) := by rw [bump_bumpAll hp]
      _ = bumpAll (d + d') ps (bump (d + d') p buf) := by
        rw [bump_bump hin]
        exact ih hps (by simpa using hall)

theorem bumpAll_zero (h : ∀ p ∈ ps, p + 8 ≤ buf.length) : bumpAll 0 ps buf = buf := by
  induction ps with
  | nil => rfl
  | cons p ps ih =>
    obtain ⟨hin, hall⟩ := List.forall_mem_cons.mp h
    exact (congrArg (bumpAll 0 ps) (bump_zero hin)).trans (ih hall)

theorem word_bumpAll (hps : ps.Pairwise Apart) (h : ∀ p ∈ ps, p + 8 ≤ buf.length) (hq : q ∈ ps) :
    word q (bumpAll d ps buf) = word q buf + d := by
  induction ps generalizing buf with
  | nil => cases hq
  | cons p ps ih =>
    obtain ⟨hp, hps⟩ := List.pairwise_cons.mp hps
    obtain ⟨hin, hall⟩ := List.forall_mem_cons.mp h
    change word q (bumpAll d ps (bump d p buf)) = _
    rcases List.mem_cons.mp hq with rfl | hq
    · rw [word, read, range_bumpAll_of_disjoint hp]
      exact word_bump_self hin
    · rw [ih hps (by simpa using hall) hq, word_bump_of_apart (hp q hq).symm]

end Words
