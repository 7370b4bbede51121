import AetherVfs.Lib.Words

/-!
# Base relocations

`apply_relocs` walks the blocks of the relocation directory and adds the change of the load base
to the 64-bit slots they list. The directory lies in the image that is being changed. As long as no
slot touches what the walk reads, the slots it finds are those of the image as it was, and the
whole is one addition to each of them.
-/

namespace AetherVfs.Pe

open Words

abbrev Image := List UInt8

def isPe32Plus (img : Image) (lfanew : ℕ) : Bool :=
  lfanew + 24 + 2 ≤ img.length && read 2 (lfanew + 24) img == 0x20B

def ddBase (img : Image) (lfanew : ℕ) : ℕ :=
  if isPe32Plus img lfanew then lfanew + 24 + 112 else lfanew + 24 + 96

/-- Address and size of the relocation directory, where there is one to apply. -/
def relocDir (img : Image) (lfanew : ℕ) : Option (ℕ × ℕ) :=
  let dir := ddBase img lfanew + 5 * 8
  if isPe32Plus img lfanew = false ∨ img.length < dir + 8 then none
  else if read 4 dir img = 0 ∨ read 4 (dir + 4) img = 0 then none
  else some (read 4 dir img, read 4 (dir + 4) img)

/-- The entries of one block, from `eoff` on. -/
def applyEntries (delta : UInt64) (va : ℕ) : ℕ → ℕ → Image → Image
  | 0, _, img => img
  | count + 1, eoff, img =>
    if img.length < eoff + 2 then img
    else
      let e := read 2 eoff img
      let p := va + e % 0x1000
      applyEntries delta va count (eoff + 2)
        (if e / 0x1000 = 10 ∧ p + 8 ≤ img.length then bump delta p img else img)

/-- The blocks from `off` on. Each takes at least eight bytes, so the loop ends. -/
def applyBlocks (delta : UInt64) (stop : ℕ) : ℕ → ℕ → Image → Image
  | 0, _, img => img
  | fuel + 1, off, img =>
    if off + 8 ≤ stop ∧ off + 8 ≤ img.length then
      let size := read 4 (off + 4) img
      if size < 8 then img
      else
        applyBlocks delta stop fuel (off + size)
          (applyEntries delta (read 4 off img) ((size - 8) / 2) (off + 8) img)
    else img

def applyRelocs (img : Image) (lfanew : ℕ) (imageBase newBase : UInt64) : Image :=
  match relocDir img lfanew with
  | none => img
  | some (rva, size) => applyBlocks (newBase - imageBase) (rva + size) img.length rva img

theorem length_applyEntries (delta : UInt64) (va count eoff : ℕ) (img : Image) :
    (applyEntries delta va count eoff img).length = img.length := by
  induction count generalizing eoff img with
  | zero => rfl
  | succ count ih =>
    unfold applyEntries
    split_ifs
    · rfl
    · dsimp only
      rw [ih]
      split_ifs <;> simp

/-- The rounds given are enough: one more changes nothing. -/
theorem applyBlocks_succ (delta : UInt64) (stop : ℕ) {fuel off : ℕ} {img : Image}
    (h : img.length ≤ fuel + off) :
    applyBlocks delta stop (fuel + 1) off img = applyBlocks delta stop fuel off img := by
  induction fuel generalizing off img with
  | zero =>
    simp only [applyBlocks]
    rw [if_neg (by omega)]
  | succ fuel ih =>
    rw [applyBlocks, applyBlocks]
    split_ifs
    · dsimp only
      split_ifs
      · rfl
      · apply ih
        rw [length_applyEntries]
        omega
    · rfl

/-! ## The slots an image lists -/

def entrySlots (img : Image) (va : ℕ) : ℕ → ℕ → List ℕ
  | 0, _ => []
  | count + 1, eoff =>
    if img.length < eoff + 2 then []
    else
      let e := read 2 eoff img
      let p := va + e % 0x1000
      (if e / 0x1000 = 10 ∧ p + 8 ≤ img.length then [p] else []) ++
        entrySlots img va count (eoff + 2)

def blockSlots (img : Image) (stop : ℕ) : ℕ → ℕ → List ℕ
  | 0, _ => []
  | fuel + 1, off =>
    if off + 8 ≤ stop ∧ off + 8 ≤ img.length then
      let size := read 4 (off + 4) img
      if size < 8 then []
      else
        entrySlots img (read 4 off img) ((size - 8) / 2) (off + 8) ++
          blockSlots img stop fuel (off + size)
    else []

/-- The `DIR64` slots inside the image, in the order of the directory. -/
def listedSlots (img : Image) (lfanew : ℕ) : List ℕ :=
  match relocDir img lfanew with
  | none => []
  | some (rva, size) => blockSlots img (rva + size) img.length rva

/-- Blocks of eight bytes and more follow each other up to the end of the directory. -/
inductive Tiled (img : Image) (stop : ℕ) : ℕ → Prop
  | done : Tiled img stop stop
  | block {off : ℕ} (hsize : 8 ≤ read 4 (off + 4) img)
      (hrest : Tiled img stop (off + read 4 (off + 4) img)) : Tiled img stop off

/-- The bytes from `lo` to `hi` are not part of the slot. -/
def Avoids (lo hi p : ℕ) : Prop := p + 8 ≤ lo ∨ hi ≤ p

/-- The blocks fill the directory, the slots lie apart, and none touches the directory or, of the
headers, the magic number and the directory's place. -/
structure WellFormed (img : Image) (lfanew : ℕ) : Prop where
  tiled : ∀ d ∈ relocDir img lfanew, Tiled img (d.1 + d.2) d.1
  apart : (listedSlots img lfanew).Pairwise Apart
  directory : ∀ d ∈ relocDir img lfanew, ∀ p ∈ listedSlots img lfanew, Avoids d.1 (d.1 + d.2) p
  magic : ∀ p ∈ listedSlots img lfanew, Avoids (lfanew + 24) (lfanew + 26) p
  place : ∀ p ∈ listedSlots img lfanew,
    Avoids (ddBase img lfanew + 5 * 8) (ddBase img lfanew + 5 * 8 + 8) p

variable {img img' : Image} {lfanew lo hi stop : ℕ} {delta : UInt64}

theorem Tiled.le {off : ℕ} (h : Tiled img stop off) : off ≤ stop := by
  induction h with
  | done => exact le_rfl
  | block hsize hrest ih => omega

/-- The same length, and the same bytes from `lo` to `hi`. -/
def Same (lo hi : ℕ) (img img' : Image) : Prop :=
  img'.length = img.length ∧
    ∀ p w, lo ≤ p → p + w ≤ hi → Slice.range p w img' = Slice.range p w img

theorem same_refl (lo hi : ℕ) (img : Image) : Same lo hi img img := ⟨rfl, fun _ _ _ _ => rfl⟩

theorem Same.read (h : Same lo hi img img') {p w : ℕ} (hlo : lo ≤ p) (hhi : p + w ≤ hi) :
    read w p img' = read w p img := by
  rw [Words.read, h.2 p w hlo hhi, Words.read]

theorem Same.bumpAll {ps : List ℕ} (h : Same lo hi img img') (hps : ∀ p ∈ ps, Avoids lo hi p)
    (delta : UInt64) : Same lo hi img (bumpAll delta ps img') := by
  refine ⟨length_bumpAll.trans h.1, fun p w hlo hhi => ?_⟩
  rw [range_bumpAll_of_disjoint, h.2 p w hlo hhi]
  intro q hq
  have := hps q hq
  unfold Avoids at this
  omega

theorem applyEntries_eq {va count eoff : ℕ} (h : Same lo hi img img') (hlo : lo ≤ eoff)
    (hhi : eoff + 2 * count ≤ hi) (hslots : ∀ p ∈ entrySlots img va count eoff, Avoids lo hi p) :
    applyEntries delta va count eoff img' = bumpAll delta (entrySlots img va count eoff) img' := by
  induction count generalizing eoff img' with
  | zero => rfl
  | succ count ih =>
    have hread := h.read (w := 2) hlo (by omega)
    simp only [applyEntries, entrySlots, h.1, hread] at hslots ⊢
    split_ifs at hslots ⊢
    · rfl
    · obtain ⟨hp, hrest⟩ := List.forall_mem_cons.mp hslots
      have hnext := h.bumpAll (List.forall_mem_singleton.mpr hp) delta
      exact ih hnext (by omega) (by omega) hrest
    · exact ih h (by omega) (by omega) hslots

theorem applyBlocks_eq {fuel off : ℕ} (h : Same lo stop img img') (hlo : lo ≤ off)
    (ht : Tiled img stop off) (hslots : ∀ p ∈ blockSlots img stop fuel off, Avoids lo stop p) :
    applyBlocks delta stop fuel off img' =
      bumpAll delta (blockSlots img stop fuel off) img' := by
  induction fuel generalizing off img' with
  | zero => rfl
  | succ fuel ih =>
    simp only [applyBlocks, blockSlots, h.1] at hslots ⊢
    by_cases hroom : off + 8 ≤ stop ∧ off + 8 ≤ img.length
    · rw [if_pos hroom] at hslots
      rw [if_pos hroom, if_pos hroom, h.read (w := 4) hlo (by omega),
        h.read (p := off + 4) (w := 4) (by omega) (by omega)]
      split_ifs at hslots ⊢
      · rfl
      · cases ht with
        | done => omega
        | block _ hrest =>
          have hle := hrest.le
          obtain ⟨hentries, hblocks⟩ := List.forall_mem_append.mp hslots
          rw [applyEntries_eq h (by omega) (by omega) hentries,
            ih (h.bumpAll hentries delta) (by omega) hrest hblocks]
          exact (List.foldl_append ..).symm
    · rw [if_neg hroom, if_neg hroom]
      rfl

/-! ## What it comes to -/

theorem add_eight_le_of_mem_entrySlots {va count eoff p : ℕ}
    (h : p ∈ entrySlots img va count eoff) : p + 8 ≤ img.length := by
  induction count generalizing eoff with
  | zero => cases h
  | succ count ih =>
    simp only [entrySlots] at h
    split_ifs at h with hend hslot
    · cases h
    · rcases List.mem_cons.mp h with rfl | h
      · exact hslot.2
      · exact ih h
    · exact ih h

theorem add_eight_le_of_mem_blockSlots {fuel off p : ℕ} (h : p ∈ blockSlots img stop fuel off) :
    p + 8 ≤ img.length := by
  induction fuel generalizing off with
  | zero => cases h
  | succ fuel ih =>
    simp only [blockSlots] at h
    split_ifs at h
    · cases h
    · rcases List.mem_append.mp h with h | h
      · exact add_eight_le_of_mem_entrySlots h
      · exact ih h
    · cases h

theorem add_eight_le_of_mem_listedSlots {p : ℕ} (h : p ∈ listedSlots img lfanew) :
    p + 8 ≤ img.length := by
  unfold listedSlots at h
  split at h
  · cases h
  · exact add_eight_le_of_mem_blockSlots h

namespace WellFormed

variable (h : WellFormed img lfanew)

include h

/-- An image that agrees with this one where the walk reads is changed at the slots of this one. -/
theorem applyRelocs_eq (hdir : relocDir img' lfanew = relocDir img lfanew)
    (hsame : ∀ d ∈ relocDir img lfanew, Same d.1 (d.1 + d.2) img img') (b₀ b₁ : UInt64) :
    applyRelocs img' lfanew b₀ b₁ = bumpAll (b₁ - b₀) (listedSlots img lfanew) img' := by
  have hslots := h.directory
  have htiled := h.tiled
  unfold applyRelocs listedSlots at *
  rw [hdir]
  cases hd : relocDir img lfanew with
  | none => rfl
  | some d =>
    rw [hd] at hslots htiled hsame
    dsimp only
    rw [(hsame d rfl).1]
    exact applyBlocks_eq (hsame d rfl) le_rfl (htiled d rfl) (hslots d rfl)

theorem applyRelocs_self (b₀ b₁ : UInt64) :
    applyRelocs img lfanew b₀ b₁ = bumpAll (b₁ - b₀) (listedSlots img lfanew) img :=
  h.applyRelocs_eq rfl (fun _ _ => same_refl _ _ _) b₀ b₁

theorem relocDir_bumpAll :
    relocDir (bumpAll delta (listedSlots img lfanew) img) lfanew = relocDir img lfanew := by
  have hmagic := ((same_refl _ _ img).bumpAll h.magic delta).read (w := 2) le_rfl le_rfl
  have hplace := (same_refl _ _ img).bumpAll h.place delta
  have hplus : isPe32Plus (bumpAll delta (listedSlots img lfanew) img) lfanew =
      isPe32Plus img lfanew := by
    rw [isPe32Plus, isPe32Plus, length_bumpAll, hmagic]
  have hbase : ddBase (bumpAll delta (listedSlots img lfanew) img) lfanew = ddBase img lfanew := by
    rw [ddBase, ddBase, hplus]
  rw [relocDir, relocDir, hplus, hbase, length_bumpAll, hplace.read (w := 4) le_rfl (by omega),
    hplace.read (w := 4) (Nat.le_add_right _ 4) (by omega)]

end WellFormed

/-- Relocations compose and can be undone, and each adds the change of the base to the listed
slots and to nothing else. -/
theorem relocations_compose (h : WellFormed img lfanew) (b₀ b₁ b₂ : UInt64) :
    applyRelocs (applyRelocs img lfanew b₀ b₁) lfanew b₁ b₂ = applyRelocs img lfanew b₀ b₂ ∧
      applyRelocs (applyRelocs img lfanew b₀ b₁) lfanew b₁ b₀ = img ∧
      (applyRelocs img lfanew b₀ b₁).length = img.length ∧
      (∀ p ∈ listedSlots img lfanew,
        word p (applyRelocs img lfanew b₀ b₁) = word p img + (b₁ - b₀)) ∧
      ∀ i, (∀ p ∈ listedSlots img lfanew, i < p ∨ p + 8 ≤ i) →
        (applyRelocs img lfanew b₀ b₁)[i]? = img[i]? := by
  have hin : ∀ p ∈ listedSlots img lfanew, p + 8 ≤ img.length := fun p =>
    add_eight_le_of_mem_listedSlots
  have htwice : ∀ b, applyRelocs (applyRelocs img lfanew b₀ b₁) lfanew b₁ b =
      bumpAll (b - b₀) (listedSlots img lfanew) img := by
    intro b
    -- The second walk reads what the first one read.
    have hsame : ∀ d ∈ relocDir img lfanew, Same d.1 (d.1 + d.2) img
        (bumpAll (b₁ - b₀) (listedSlots img lfanew) img) := fun d hd =>
      (same_refl _ _ img).bumpAll (h.directory d hd) _
    have hsum : b₁ - b₀ + (b - b₁) = b - b₀ := by grind
    rw [h.applyRelocs_self, h.applyRelocs_eq h.relocDir_bumpAll hsame,
      bumpAll_bumpAll h.apart hin, hsum]
  refine ⟨?_, ?_, ?_, fun p hp => ?_, fun i hi => ?_⟩
  · rw [htwice, h.applyRelocs_self]
  · rw [htwice, UInt64.sub_self, bumpAll_zero hin]
  · rw [h.applyRelocs_self, length_bumpAll]
  · rw [h.applyRelocs_self, word_bumpAll h.apart hin hp]
  · have hrange : Slice.range i 1 (applyRelocs img lfanew b₀ b₁) = Slice.range i 1 img := by
      rw [h.applyRelocs_self, range_bumpAll_of_disjoint hi]
    have hget : (Slice.range i 1 (applyRelocs img lfanew b₀ b₁))[0]? = (Slice.range i 1 img)[0]? := by
      rw [hrange]
    rwa [Slice.getElem?_range, Slice.getElem?_range, if_pos one_pos, if_pos one_pos] at hget

/-- A 208-byte image whose only block lists the slot at 200. -/
def oneSlot : Image :=
  List.replicate 24 0 ++ [0x0B, 0x02] ++ List.replicate 150 0 ++
    [184, 0, 0, 0, 12, 0, 0, 0, 100, 0, 0, 0, 12, 0, 0, 0, 100, 160, 0, 0, 0, 0, 0, 0] ++
    [1, 2, 3, 4, 5, 6, 7, 8]

theorem wellFormed_oneSlot : WellFormed oneSlot 0 := by
  have hdir : relocDir oneSlot 0 = some (184, 12) := by decide +kernel
  have hslots : listedSlots oneSlot 0 = [200] := by decide +kernel
  have hsize : read 4 188 oneSlot = 12 := by decide +kernel
  have hbase : ddBase oneSlot 0 = 136 := by decide +kernel
  constructor
  · simp only [hdir, Option.mem_some_iff, forall_eq']
    exact .block (by rw [hsize]; omega) (hsize ▸ .done)
  all_goals simp [hdir, hslots, hbase, Avoids]

theorem relocations_compose_oneSlot :
    WellFormed oneSlot 0 ∧
      applyRelocs (applyRelocs oneSlot 0 0x1000 0) 0 0 0x1000 = oneSlot :=
  ⟨wellFormed_oneSlot, (relocations_compose wellFormed_oneSlot 0x1000 0 0).2.1⟩

end AetherVfs.Pe
