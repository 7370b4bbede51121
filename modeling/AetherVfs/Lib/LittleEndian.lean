import Mathlib.Tactic

/-!
# Little-endian bytes

The low `w` bytes of a number, least significant first, and the number that a
list of bytes spells. Writing and reading back reduces to the width written.
-/

namespace LittleEndian

def bytes : ℕ → ℕ → List UInt8
  | 0, _ => []
  | w + 1, n => UInt8.ofNat n :: bytes w (n / 256)

def value : List UInt8 → ℕ
  | [] => 0
  | b :: bs => b.toNat + 256 * value bs

@[simp] theorem length_bytes (w n : ℕ) : (bytes w n).length = w := by
  induction w generalizing n with
  | zero => rfl
  | succ w ih => simp [bytes, ih]

theorem value_bytes (w n : ℕ) : value (bytes w n) = n % 256 ^ w := by
  induction w generalizing n with
  | zero => simp [bytes, value, Nat.mod_one]
  | succ w ih =>
    have hb : (UInt8.ofNat n).toNat = n % 256 := by simp
    rw [bytes, value, ih, hb, pow_succ', Nat.mod_mul]

theorem value_lt (b : List UInt8) : value b < 256 ^ b.length := by
  induction b with
  | nil => exact Nat.one_pos
  | cons x b ih =>
    have hx : x.toNat < 256 := x.toNat_lt
    rw [value, List.length_cons, pow_succ]
    omega

theorem value_bytes_of_lt {w n : ℕ} (h : n < 256 ^ w) : value (bytes w n) = n := by
  rw [value_bytes, Nat.mod_eq_of_lt h]

theorem bytes_value {w : ℕ} {b : List UInt8} (h : b.length = w) : bytes w (value b) = b := by
  induction b generalizing w with
  | nil =>
    subst h
    rfl
  | cons x b ih =>
    subst h
    have hx : x.toNat < 256 := x.toNat_lt
    have hlow : UInt8.ofNat (x.toNat + 256 * value b) = x := by
      apply UInt8.toNat_inj.mp
      rw [UInt8.toNat_ofNat']
      omega
    have hhigh : (x.toNat + 256 * value b) / 256 = value b := by omega
    rw [value, List.length_cons, bytes, hlow, hhigh, ih rfl]

end LittleEndian
