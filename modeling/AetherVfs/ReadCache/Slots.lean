import AetherVfs.ReadCache.File

/-!
# The slots of one file

What the operations on a file's slots do to the three things the accounting
is about: which unit is filed under which key, how many bytes are ready, and
that no unit has two slots and no file too many.
-/

namespace AetherVfs.ReadCache

open List

/-- The tick of the last read and the key in the LRU index of a ready unit. -/
def Slot.filed? (s : Slot) : Option (ℕ × ℕ) :=
  match s.kind with
  | .ready _ last lruKey => some (last, lruKey)
  | .loading _ => none

def filedIn (slots : List Slot) (j : ℕ) : Option (ℕ × ℕ) :=
  (slots.find? fun s => s.idx = j).bind Slot.filed?

def readyBytes (slots : List Slot) : ℕ := (slots.map Slot.bytes).sum

/-- No unit has two slots, and there are at most `n` of them. -/
structure Tidy (n : ℕ) (slots : List Slot) : Prop where
  nodup : (slots.map Slot.idx).Nodup
  length_le : slots.length ≤ n

variable {n : ℕ} {slots slots' r : List Slot} {s s' : Slot} {j : ℕ}

section

variable (h : (slots.map Slot.idx).Nodup)

include h

theorem find_idx_iff :
    (slots.find? fun s => s.idx = j) = some s ↔ s ∈ slots ∧ s.idx = j := by
  constructor
  · intro hfind
    exact ⟨mem_of_find?_eq_some hfind, by simpa using find?_some hfind⟩
  · rintro ⟨hmem, hidx⟩
    cases hfind : slots.find? fun s => s.idx = j with
    | none => exact absurd hidx (by simpa using find?_eq_none.mp hfind s hmem)
    | some t =>
      have ht : t.idx = j := by simpa using find?_some hfind
      rw [inj_on_of_nodup_map h (mem_of_find?_eq_some hfind) hmem (ht.trans hidx.symm)]

theorem filedIn_eq_some_iff {x : ℕ × ℕ} :
    filedIn slots j = some x ↔ ∃ s ∈ slots, s.idx = j ∧ s.filed? = some x := by
  simp only [filedIn, Option.bind_eq_some_iff, find_idx_iff h, and_assoc]

theorem filedIn_eq_some_iff_mem {l k : ℕ} :
    filedIn slots j = some (l, k) ↔ ∃ data, ⟨j, .ready data l k⟩ ∈ slots := by
  rw [filedIn_eq_some_iff h]
  constructor
  · rintro ⟨⟨idx, kind⟩, hs, rfl, hx⟩
    cases kind with
    | ready data last lruKey =>
      simp only [Slot.filed?, Option.some.injEq, Prod.mk.injEq] at hx
      obtain ⟨rfl, rfl⟩ := hx
      exact ⟨data, hs⟩
    | loading fl => simp [Slot.filed?] at hx
  · rintro ⟨data, hs⟩
    exact ⟨_, hs, rfl, rfl⟩

theorem filedIn_congr (h' : (slots'.map Slot.idx).Nodup)
    (hmem : ∀ s x, s.filed? = some x → (s ∈ slots' ↔ s ∈ slots)) :
    filedIn slots' = filedIn slots := by
  funext j
  ext x
  simp only [filedIn_eq_some_iff h, filedIn_eq_some_iff h']
  constructor
  · rintro ⟨s, hs, hj, hx⟩
    exact ⟨s, (hmem s x hx).mp hs, hj, hx⟩
  · rintro ⟨s, hs, hj, hx⟩
    exact ⟨s, (hmem s x hx).mpr hs, hj, hx⟩

theorem filedIn_perm_cons (hperm : slots.Perm (s :: r)) :
    filedIn slots = Function.update (filedIn r) s.idx s.filed? := by
  have hcons : ((s :: r).map Slot.idx).Nodup := (hperm.map Slot.idx).nodup_iff.mp h
  rw [filedIn_congr hcons h fun t x _ => hperm.mem_iff]
  funext j
  by_cases hj : j = s.idx
  · subst hj
    simp [filedIn]
  · simp [filedIn, hj, Ne.symm hj]

end

theorem filedIn_eq_none (h : ∀ s ∈ slots, s.idx ≠ j) : filedIn slots j = none := by
  have hfind : (slots.find? fun s => s.idx = j) = none := by simpa using h
  simp [filedIn, hfind]

theorem Tidy.of_perm_cons (h : Tidy n slots) (hperm : slots.Perm (s :: r)) : Tidy n r := by
  refine ⟨?_, ?_⟩
  · have hcons := (hperm.map Slot.idx).nodup_iff.mp h.nodup
    exact (nodup_cons.mp hcons).2
  · have hlen := hperm.length_eq
    have hle := h.length_le
    rw [length_cons] at hlen
    omega

theorem filedIn_remove (h : (slots.map Slot.idx).Nodup) (hperm : slots.Perm (s :: r)) :
    filedIn r = Function.update (filedIn slots) s.idx none := by
  have hnot : filedIn r s.idx = none := by
    apply filedIn_eq_none
    intro t ht heq
    have hcons := (hperm.map Slot.idx).nodup_iff.mp h
    exact (nodup_cons.mp hcons).1 (heq ▸ mem_map_of_mem ht)
  rw [filedIn_perm_cons h hperm, Function.update_idem, ← hnot, Function.update_eq_self]

/-- One slot was changed in place. -/
structure Replaced (slots : List Slot) (s : Slot) (slots' : List Slot) (s' : Slot) : Prop where
  idx : s'.idx = s.idx
  perm : ∃ r, slots.Perm (s :: r) ∧ slots'.Perm (s' :: r)

theorem readyBytes_perm_cons (hperm : slots.Perm (s :: r)) :
    readyBytes slots = s.bytes + readyBytes r := by
  simpa [readyBytes] using (hperm.map Slot.bytes).sum_nat

namespace Replaced

theorem of_find {p : Slot → Bool} {f : Slot → Slot} (hfind : slots.find? p = some s)
    (hidx : (f s).idx = s.idx) : Replaced slots s (Bag.updateFirst p f slots) (f s) :=
  ⟨hidx, Bag.exists_perm_of_find hfind⟩

variable (h : Replaced slots s slots' s')

include h

theorem map_idx : (slots'.map Slot.idx).Perm (slots.map Slot.idx) := by
  obtain ⟨r, hperm, hperm'⟩ := h.perm
  calc (slots'.map Slot.idx).Perm ((s' :: r).map Slot.idx) := hperm'.map _
    _ = (s :: r).map Slot.idx := by rw [map_cons, h.idx, ← map_cons]
    _ |>.Perm (slots.map Slot.idx) := (hperm.map _).symm

theorem tidy (ht : Tidy n slots) : Tidy n slots' := by
  refine ⟨h.map_idx.nodup_iff.mpr ht.nodup, ?_⟩
  have hlen := h.map_idx.length_eq
  simp only [length_map] at hlen
  exact hlen ▸ ht.length_le

theorem filedIn (ht : Tidy n slots) :
    filedIn slots' = Function.update (ReadCache.filedIn slots) s.idx s'.filed? := by
  obtain ⟨r, hperm, hperm'⟩ := h.perm
  rw [filedIn_perm_cons (h.tidy ht).nodup hperm', filedIn_perm_cons ht.nodup hperm, h.idx,
    Function.update_idem]

theorem bytes : readyBytes slots' + s.bytes = readyBytes slots + s'.bytes := by
  obtain ⟨r, hperm, hperm'⟩ := h.perm
  rw [readyBytes_perm_cons hperm, readyBytes_perm_cons hperm']
  omega

theorem old_mem : s ∈ slots := by
  obtain ⟨r, hperm, -⟩ := h.perm
  exact hperm.mem_iff.mpr mem_cons_self

end Replaced

namespace State

variable {st : State} {fl : Flight}

theorem dropFlight_tidy (h : Tidy n st.slots) : Tidy n (st.dropFlight fl).slots := by
  refine ⟨h.nodup.sublist (filter_sublist.map _), ?_⟩
  exact (length_filter_le _ _).trans h.length_le

theorem dropFlight_filedIn (h : Tidy n st.slots) :
    filedIn (st.dropFlight fl).slots = filedIn st.slots := by
  apply filedIn_congr h.nodup (dropFlight_tidy h).nodup
  rintro ⟨idx, kind⟩ x hx
  cases kind with
  | ready data last lruKey => simp [dropFlight, Slot.waitsFor]
  | loading g => simp [Slot.filed?] at hx

theorem dropFlight_bytes : readyBytes (st.dropFlight fl).slots = readyBytes st.slots := by
  simp only [dropFlight, readyBytes]
  induction st.slots with
  | nil => rfl
  | cons s slots ih =>
    rw [filter_cons]
    split_ifs with hs
    · simp [ih]
    · have hbytes : s.bytes = 0 := by
        have hk : s.kind = .loading fl := by simpa [Slot.waitsFor] using hs
        simp [Slot.bytes, hk]
      simp [ih, hbytes]

theorem touch_replaced {idx last lruKey tick : ℕ} {data : List UInt8}
    (hfind : st.findIdx idx = some ⟨j, .ready data last lruKey⟩) :
    Replaced st.slots ⟨j, .ready data last lruKey⟩ (st.touch idx tick).slots
      ⟨j, .ready data tick lruKey⟩ :=
  Replaced.of_find hfind rfl

theorem fill_replaced (data : List UInt8) (tick : ℕ)
    (hfind : (st.slots.find? fun s => s.idx = j && s.waitsFor fl) = some s) :
    Replaced st.slots s (st.fill fl j data tick).slots ⟨s.idx, .ready data tick tick⟩ :=
  Replaced.of_find hfind rfl

theorem refile_replaced {idx key l last lruKey : ℕ} {data : List UInt8}
    (hfind : (st.slots.find? fun s => s.idx = idx && s.filedUnder key) =
      some ⟨j, .ready data l lruKey⟩) :
    Replaced st.slots ⟨j, .ready data l lruKey⟩ (st.refile idx key last).slots
      ⟨j, .ready data l last⟩ :=
  Replaced.of_find hfind rfl

section Install

variable {cfg : CacheConfig} {run : ℕ}

theorem mem_install : s ∈ (st.install cfg fl run).slots ↔
    s ∈ st.slots ∨ ∃ j, fl.base ≤ j ∧ j < fl.stop ∧ s = ⟨j, .loading fl⟩ := by
  simp only [install, mem_append, mem_map, mem_range'_1]
  refine or_congr_right ⟨?_, ?_⟩
  · rintro ⟨j, ⟨hbase, hstop⟩, rfl⟩
    exact ⟨j, hbase, by omega, rfl⟩
  · rintro ⟨j, hbase, hstop, rfl⟩
    exact ⟨j, ⟨hbase, by omega⟩, rfl⟩

theorem install_tidy (h : Tidy n st.slots)
    (hfree : ∀ s ∈ st.slots, s.idx < fl.base ∨ fl.stop ≤ s.idx)
    (hroom : st.slots.length + (fl.stop - fl.base) ≤ n) :
    Tidy n (st.install cfg fl run).slots := by
  refine ⟨?_, by simpa [install] using hroom⟩
  simp only [install, map_append, map_map]
  refine Nodup.append h.nodup ?_ ?_
  · have hid : (Slot.idx ∘ fun j => (⟨j, .loading fl⟩ : Slot)) = id := rfl
    rw [hid, map_id]
    exact nodup_range'
  · intro i hi hi'
    obtain ⟨s, hs, rfl⟩ := mem_map.mp hi
    obtain ⟨j, hj, heq⟩ := mem_map.mp hi'
    rw [mem_range'_1] at hj
    have hj' : j = s.idx := heq
    rcases hfree s hs with hlt | hle <;> omega

theorem install_filedIn (h : Tidy n st.slots) (h' : Tidy n (st.install cfg fl run).slots) :
    filedIn (st.install cfg fl run).slots = filedIn st.slots := by
  apply filedIn_congr h.nodup h'.nodup
  intro s x hx
  rw [mem_install]
  refine or_iff_left ?_
  rintro ⟨j, -, -, rfl⟩
  simp [Slot.filed?] at hx

theorem install_bytes : readyBytes (st.install cfg fl run).slots = readyBytes st.slots := by
  have hzero : (Slot.bytes ∘ fun j => (⟨j, .loading fl⟩ : Slot)) = fun _ => 0 := rfl
  simp [readyBytes, install, hzero]

end Install

theorem oldest_mem (h : st.oldest = some s) : s ∈ st.slots :=
  mem_of_mem_filter (argmin_mem h)

theorem remove_perm (h : s ∈ st.slots) : st.slots.Perm (s :: (st.remove s).slots) :=
  perm_cons_erase h

theorem rememberPressure_slots (idx : ℕ) : (st.rememberPressure idx).slots = st.slots := by
  unfold rememberPressure
  split_ifs <;> rfl

end State

end AetherVfs.ReadCache
