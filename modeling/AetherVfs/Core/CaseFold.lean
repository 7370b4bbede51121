import Mathlib.Data.Char
import Mathlib.Tactic

/-!
# Case folding of names

Every lookup by name, of files and of registry keys, goes through `fold`: `char::to_lowercase`
of each character, with a fast path for ASCII strings. The Unicode tables are the standard
library's; what the development needs of them is stated as the fields of `ToLowercase`.
-/

namespace AetherVfs

open List

abbrev Str := List Char

/-- `char::to_lowercase`. -/
class ToLowercase where
  lower : Char → List Char
  /-- An ASCII character has its ASCII lower case. -/
  lower_ascii : ∀ c, c.toNat < 128 → lower c = [c.toLower]
  /-- No other character turns into ASCII punctuation: the only ASCII characters among the
  lower cases of the others are letters (the `i` of `İ`, the `k` of the Kelvin sign). -/
  lower_nonascii : ∀ c, 128 ≤ c.toNat → ∀ d ∈ lower c, d.toNat < 128 → d.isLower
  /-- Lower case is stable. -/
  lower_lower : ∀ c, ∀ d ∈ lower c, lower d = [d]
  lower_ne_nil : ∀ c, lower c ≠ []

instance : LawfulBEq Str := inferInstance

def Upper (c : Char) : Prop := c.val ≥ 'A'.val ∧ c.val ≤ 'Z'.val

theorem Upper.bounds {c : Char} (h : Upper c) : 65 ≤ c.val.toNat ∧ c.val.toNat ≤ 90 :=
  ⟨UInt32.le_iff_toNat_le.mp h.1, UInt32.le_iff_toNat_le.mp h.2⟩

theorem toLower_of_not_upper {c : Char} (h : ¬ Upper c) : c.toLower = c := dif_neg h

theorem Upper.val_toLower {c : Char} (h : Upper c) : c.toLower.val.toNat = c.val.toNat + 32 := by
  have hval : c.toLower.val = c.val + ('a'.val - 'A'.val) := congrArg Char.val (dif_pos h)
  have h32 : ('a'.val - 'A'.val).toNat = 32 := rfl
  have hle := h.bounds.2
  rw [hval, UInt32.toNat_add, h32]
  omega

theorem toLower_toLower (c : Char) : c.toLower.toLower = c.toLower := by
  by_cases hup : Upper c
  · apply toLower_of_not_upper
    intro hlow
    have := hup.val_toLower
    have := hup.bounds.1
    have := hlow.bounds.2
    omega
  · rw [toLower_of_not_upper hup, toLower_of_not_upper hup]

theorem isLower_of_nonascii_toLower (c : Char) (hc : 128 ≤ c.toNat) :
    ∀ d ∈ [c.toLower], d.toNat < 128 → d.isLower := by
  intro d hd hlt
  have hup : ¬ Upper c := fun h => by
    have : c.toNat ≤ 90 := h.bounds.2
    omega
  rw [mem_singleton.mp hd, toLower_of_not_upper hup] at hlt
  omega

theorem lower_of_mem_toLower (c : Char) : ∀ d ∈ [c.toLower], [d.toLower] = [d] := by
  intro d hd
  rw [mem_singleton.mp hd, toLower_toLower]

theorem singleton_toLower_ne_nil (c : Char) : [c.toLower] ≠ [] := cons_ne_nil _ _

/-- Lower case of ASCII characters only. -/
@[reducible] def asciiLowercase : ToLowercase where
  lower c := [c.toLower]
  lower_ascii _ _ := rfl
  lower_nonascii := isLower_of_nonascii_toLower
  lower_lower := lower_of_mem_toLower
  lower_ne_nil := singleton_toLower_ne_nil

variable [ToLowercase]

theorem eq_of_mem_lower {c d : Char} (hd : d ∈ ToLowercase.lower c) (hascii : d.toNat < 128)
    (hlow : d.isLower = false) : c = d := by
  by_cases hc : c.toNat < 128
  · rw [ToLowercase.lower_ascii c hc, mem_singleton] at hd
    by_cases hup : Upper c
    · have hlower : d.isLower = true := by
        have hval := hup.val_toLower
        have hc := hup.bounds
        rw [← hd] at hval
        have ha : 'a'.val ≤ d.val := UInt32.le_iff_toNat_le.mpr (by
          change 97 ≤ d.val.toNat
          omega)
        have hz : d.val ≤ 'z'.val := UInt32.le_iff_toNat_le.mpr (by
          change d.val.toNat ≤ 122
          omega)
        exact Bool.and_eq_true_iff.mpr ⟨decide_eq_true ha, decide_eq_true hz⟩
      rw [hlower] at hlow
      cases hlow
    · rw [toLower_of_not_upper hup] at hd
      exact hd.symm
  · rw [ToLowercase.lower_nonascii c (not_lt.mp hc) d hd hascii] at hlow
    cases hlow

def fold (s : Str) : Str :=
  if s.all fun c => c.toNat < 128 then s.map Char.toLower else s.flatMap ToLowercase.lower

theorem fold_eq_flatMap (s : Str) : fold s = s.flatMap ToLowercase.lower := by
  unfold fold
  split_ifs with hascii
  · rw [map_eq_flatMap]
    refine flatMap_congr fun c hc => ?_
    have hlt : c.toNat < 128 := by simpa using all_eq_true.mp hascii c hc
    exact (ToLowercase.lower_ascii c hlt).symm
  · rfl

@[simp] theorem fold_nil : fold [] = [] := by simp [fold_eq_flatMap]

theorem fold_append (s t : Str) : fold (s ++ t) = fold s ++ fold t := by
  simp [fold_eq_flatMap]

@[simp] theorem fold_fold (s : Str) : fold (fold s) = fold s := by
  simp only [fold_eq_flatMap, flatMap_assoc]
  refine flatMap_congr fun c _ => ?_
  have hstable : ∀ l : List Char, (∀ d ∈ l, ToLowercase.lower d = [d]) →
      l.flatMap ToLowercase.lower = l := by
    intro l hl
    induction l with
    | nil => rfl
    | cons d l ih =>
      rw [flatMap_cons, hl d mem_cons_self,
        ih fun d hd => hl d (mem_cons_of_mem _ hd)]
      rfl
  exact hstable _ (ToLowercase.lower_lower c)

@[simp] theorem fold_eq_nil {s : Str} : fold s = [] ↔ s = [] := by
  rw [fold_eq_flatMap, flatMap_eq_nil_iff]
  constructor
  · intro h
    cases s with
    | nil => rfl
    | cons c s => exact absurd (h c mem_cons_self) (ToLowercase.lower_ne_nil c)
  · rintro rfl
    simp

theorem mem_fold_iff {s : Str} {d : Char} (hascii : d.toNat < 128) (hlow : d.isLower = false)
    (hself : d.toLower = d) : d ∈ fold s ↔ d ∈ s := by
  rw [fold_eq_flatMap, mem_flatMap]
  constructor
  · rintro ⟨c, hc, hmem⟩
    exact eq_of_mem_lower hmem hascii hlow ▸ hc
  · intro h
    refine ⟨d, h, ?_⟩
    rw [ToLowercase.lower_ascii d hascii, hself]
    exact mem_singleton_self d

theorem fold_eq_iff_of_caseless {s t : Str}
    (ht : ∀ d ∈ t, d.toNat < 128 ∧ d.isLower = false ∧ d.toLower = d) : fold s = t ↔ s = t := by
  have hself : ∀ l : Str, (∀ d ∈ l, d ∈ t) → fold l = l := by
    intro l hl
    rw [fold_eq_flatMap]
    induction l with
    | nil => rfl
    | cons d l ih =>
      obtain ⟨hascii, -, hlow⟩ := ht d (hl d mem_cons_self)
      rw [flatMap_cons, ToLowercase.lower_ascii d hascii, hlow,
        ih fun c hc => hl c (mem_cons_of_mem _ hc)]
      rfl
  constructor
  · intro h
    rw [← h]
    refine (hself s fun c hc => ?_).symm
    obtain ⟨d, hd⟩ := exists_mem_of_ne_nil _ (ToLowercase.lower_ne_nil c)
    have hmem : d ∈ t := by
      rw [← h, fold_eq_flatMap]
      exact mem_flatMap.mpr ⟨c, hc, hd⟩
    obtain ⟨hascii, hlow, -⟩ := ht d hmem
    rwa [eq_of_mem_lower hd hascii hlow]
  · rintro rfl
    exact hself s fun _ h => h

end AetherVfs
