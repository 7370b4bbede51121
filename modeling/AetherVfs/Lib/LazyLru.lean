import Mathlib.Tactic

/-!
# A least-recently-used index that is re-filed lazily

Every item that is held carries the tick of its last use and the key it is
filed under in an index ordered by key. A use changes the first and not the
second, so it does not touch the index: an item found at the front with a
newer use is filed again under that use. Between taking an entry out of the
index and dealing with its item, or between holding an item and filing it, the
entry is in somebody's hand.

`Indexed` says that the index and the hands together have exactly one entry
for each held item. Ticks are drawn from a counter, each for one item, which is
why no key is ever filed twice; the item a tick was drawn for is remembered by
the existential in `drawn`.
-/

namespace LazyLru

open List Function

variable {α : Type*}

structure Indexed (filed : α → Option (ℕ × ℕ)) (index : List (ℕ × α)) (tick : ℕ)
    (hand : Set (ℕ × α)) : Prop where
  nodup : index.Nodup
  sound : ∀ x ∈ index, (∃ l, filed x.2 = some (l, x.1)) ∧ x ∉ hand
  complete : ∀ a l k, filed a = some (l, k) → (k, a) ∈ index ∨ (k, a) ∈ hand
  key_le : ∀ a l k, filed a = some (l, k) → k ≤ l
  hand_le : ∀ x ∈ hand, ∀ l k, filed x.2 = some (l, k) → x.1 ≤ k
  drawn : ∃ own : ℕ → Option α, (∀ t a, own t = some a → t < tick) ∧
    (∀ a l k, filed a = some (l, k) → own l = some a ∧ own k = some a) ∧
    ∀ x ∈ hand, own x.1 = some x.2

variable {filed : α → Option (ℕ × ℕ)} {index : List (ℕ × α)} {tick : ℕ} {hand : Set (ℕ × α)}
  {a : α} {l k : ℕ} {x : ℕ × α}

theorem indexed_empty (tick : ℕ) : Indexed (fun _ : α => none) [] tick ∅ where
  nodup := nodup_nil
  sound := by simp
  complete := by simp
  key_le := by simp
  hand_le := by simp
  drawn := ⟨fun _ => none, by simp⟩

namespace Indexed

section

variable (h : Indexed filed index tick hand)

include h

theorem eq_of_key {b : α} {l' k' : ℕ}
    (ha : filed a = some (l, k)) (hb : filed b = some (l', k')) (hk : k' = k ∨ k' = l) :
    b = a := by
  obtain ⟨own, -, hfiled, -⟩ := h.drawn
  have hown : own k' = some a := by
    rcases hk with rfl | rfl
    · exact (hfiled a _ _ ha).2
    · exact (hfiled a _ _ ha).1
  exact Option.some.inj ((hfiled b _ _ hb).2.symm.trans hown)

theorem fst_eq_of_mem (hx : x ∈ index)
    (ha : filed x.2 = some (l, k)) : x.1 = k := by
  obtain ⟨l', hl'⟩ := (h.sound x hx).1
  rw [ha] at hl'
  exact (Prod.ext_iff.mp (Option.some.inj hl')).2.symm

theorem fst_lt_of_hand (hx : x ∈ hand) : x.1 < tick := by
  obtain ⟨own, hlt, -, hhand⟩ := h.drawn
  exact hlt x.1 x.2 (hhand x hx)

theorem nodup_filter :
    (index.filter fun x => x.1 ≠ k).Nodup := h.nodup.filter _

theorem mono {tick' : ℕ} (hle : tick ≤ tick') :
    Indexed filed index tick' hand := by
  obtain ⟨own, hlt, hrest⟩ := h.drawn
  exact ⟨h.nodup, h.sound, h.complete, h.key_le, h.hand_le,
    own, fun t a ht => (hlt t a ht).trans_le hle, hrest⟩

theorem forget (hx : ∀ l, filed x.2 ≠ some (l, x.1)) :
    Indexed filed index tick (hand \ {x}) where
  nodup := h.nodup
  sound := fun y hy => ⟨(h.sound y hy).1, fun hy' => (h.sound y hy).2 hy'.1⟩
  complete := by
    intro b l k hb
    refine (h.complete b l k hb).imp_right fun hhand => ⟨hhand, ?_⟩
    rintro rfl
    exact hx l hb
  key_le := h.key_le
  hand_le := fun y hy => h.hand_le y hy.1
  drawn := by
    obtain ⟨own, hlt, hfiled, hhand⟩ := h.drawn
    exact ⟨own, hlt, hfiled, fun y hy => hhand y hy.1⟩

theorem pop (hx : x ∈ index) :
    Indexed filed (index.filter fun y => y.1 ≠ x.1) tick (insert x hand) where
  nodup := h.nodup_filter
  sound := by
    intro y hy
    simp only [mem_filter, decide_eq_true_eq, ne_eq] at hy
    refine ⟨(h.sound y hy.1).1, ?_⟩
    rintro (rfl | hhand)
    · exact hy.2 rfl
    · exact (h.sound y hy.1).2 hhand
  complete := by
    intro b l k hb
    rcases h.complete b l k hb with hmem | hhand
    · by_cases hk : k = x.1
      · obtain ⟨l', hl'⟩ := (h.sound x hx).1
        obtain rfl := h.eq_of_key hl' hb (.inl hk)
        exact .inr (.inl (Prod.ext hk rfl))
      · exact .inl (by simpa using ⟨hmem, hk⟩)
    · exact .inr (.inr hhand)
  key_le := h.key_le
  hand_le := by
    rintro y (rfl | hy) l k hl
    · exact (h.fst_eq_of_mem hx hl).le
    · exact h.hand_le y hy l k hl
  drawn := by
    obtain ⟨own, hlt, hfiled, hhand⟩ := h.drawn
    refine ⟨own, hlt, hfiled, ?_⟩
    rintro y (rfl | hy)
    · obtain ⟨l', hl'⟩ := (h.sound y hx).1
      exact (hfiled _ _ _ hl').2
    · exact hhand y hy

theorem file (hx : x ∈ hand)
    (ha : filed x.2 = some (l, x.1)) :
    Indexed filed (x :: index.filter fun y => y.1 ≠ x.1) tick (hand \ {x}) where
  nodup := nodup_cons.mpr ⟨by simp, h.nodup_filter⟩
  sound := by
    intro y hy
    rcases mem_cons.mp hy with rfl | hy
    · exact ⟨⟨l, ha⟩, fun hhand => hhand.2 rfl⟩
    · have hy' := mem_of_mem_filter hy
      exact ⟨(h.sound y hy').1, fun hhand => (h.sound y hy').2 hhand.1⟩
  complete := by
    intro b l' k' hb
    by_cases heq : (k', b) = x
    · exact .inl (heq ▸ mem_cons_self)
    · refine (h.complete b l' k' hb).imp (fun hmem => ?_) fun hhand => ⟨hhand, heq⟩
      apply mem_cons_of_mem
      simp only [mem_filter, decide_eq_true_eq, ne_eq]
      refine ⟨hmem, fun hk => heq ?_⟩
      exact Prod.ext hk (h.eq_of_key ha hb (.inl hk))
  key_le := h.key_le
  hand_le := fun y hy => h.hand_le y hy.1
  drawn := by
    obtain ⟨own, hlt, hfiled, hhand⟩ := h.drawn
    exact ⟨own, hlt, hfiled, fun y hy => hhand y hy.1⟩

end

variable [DecidableEq α]

theorem filed_update_none {b : α} {l' k' : ℕ}
    (hb : Function.update filed a none b = some (l', k')) : b ≠ a ∧ filed b = some (l', k') := by
  by_cases hba : b = a
  · subst hba
    simp at hb
  · exact ⟨hba, by simpa [hba] using hb⟩

theorem filed_update_some {b : α} {l' k' : ℕ}
    (hb : Function.update filed a (some (l, k)) b = some (l', k')) :
    (b = a ∧ l' = l ∧ k' = k) ∨ (b ≠ a ∧ filed b = some (l', k')) := by
  by_cases hba : b = a
  · subst hba
    simp only [update_self, Option.some.injEq, Prod.mk.injEq] at hb
    exact .inl ⟨rfl, hb.1.symm, hb.2.symm⟩
  · exact .inr ⟨hba, by simpa [hba] using hb⟩

section

variable (h : Indexed filed index tick hand)

include h

theorem remove (ha : filed a = some (l, k)) :
    Indexed (Function.update filed a none) (index.filter fun y => y.1 ≠ k) tick hand where
  nodup := h.nodup_filter
  sound := by
    intro y hy
    simp only [mem_filter, decide_eq_true_eq, ne_eq] at hy
    obtain ⟨⟨l', hl'⟩, hhand⟩ := h.sound y hy.1
    have hya : y.2 ≠ a := by
      rintro rfl
      exact hy.2 (h.fst_eq_of_mem hy.1 ha)
    exact ⟨⟨l', by simpa [hya] using hl'⟩, hhand⟩
  complete := by
    intro b l' k' hb
    obtain ⟨hba, hb⟩ := filed_update_none hb
    refine (h.complete b l' k' hb).imp_left fun hmem => ?_
    simp only [mem_filter, decide_eq_true_eq, ne_eq]
    exact ⟨hmem, fun hk => hba (h.eq_of_key ha hb (.inl hk))⟩
  key_le := fun b l' k' hb => h.key_le b l' k' (filed_update_none hb).2
  hand_le := fun y hy l' k' hb => h.hand_le y hy l' k' (filed_update_none hb).2
  drawn := by
    obtain ⟨own, hlt, hfiled, hhand⟩ := h.drawn
    exact ⟨own, hlt, fun b l' k' hb => hfiled b l' k' (filed_update_none hb).2, hhand⟩

theorem evict (hx : x ∈ hand)
    (ha : filed x.2 = some (l, x.1)) :
    Indexed (Function.update filed x.2 none) index tick (hand \ {x}) where
  nodup := h.nodup
  sound := by
    intro y hy
    obtain ⟨⟨l', hl'⟩, hhand⟩ := h.sound y hy
    have hya : y.2 ≠ x.2 := by
      intro heq
      have hkey : y.1 = x.1 := h.fst_eq_of_mem hy (heq ▸ ha)
      exact hhand ((Prod.ext hkey heq : y = x) ▸ hx)
    exact ⟨⟨l', by simpa [hya] using hl'⟩, fun hy' => hhand hy'.1⟩
  complete := by
    intro b l' k' hb
    obtain ⟨hba, hb⟩ := filed_update_none hb
    refine (h.complete b l' k' hb).imp_right fun hhand => ⟨hhand, ?_⟩
    rintro rfl
    exact hba rfl
  key_le := fun b l' k' hb => h.key_le b l' k' (filed_update_none hb).2
  hand_le := fun y hy l' k' hb => h.hand_le y hy.1 l' k' (filed_update_none hb).2
  drawn := by
    obtain ⟨own, hlt, hfiled, hhand⟩ := h.drawn
    exact ⟨own, hlt, fun b l' k' hb => hfiled b l' k' (filed_update_none hb).2,
      fun y hy => hhand y hy.1⟩

theorem draw {k' : ℕ} {hand' : Set (ℕ × α)}
    (hk : k' = tick ∨ ∃ l, filed a = some (l, k'))
    (hhand' : ∀ x ∈ hand', x ∈ hand ∨ x = (tick, a)) :
    ∃ own : ℕ → Option α, (∀ t b, own t = some b → t < tick + 1) ∧
      (∀ b l m, Function.update filed a (some (tick, k')) b = some (l, m) →
        own l = some b ∧ own m = some b) ∧ ∀ x ∈ hand', own x.1 = some x.2 := by
  obtain ⟨own, hlt, hfiled, hhand⟩ := h.drawn
  have hold : ∀ {t b}, own t = some b → update own tick (some a) t = some b := by
    intro t b ht
    rw [update_of_ne (hlt t b ht).ne]
    exact ht
  refine ⟨update own tick (some a), ?_, ?_, ?_⟩
  · intro t b ht
    by_cases htt : t = tick
    · omega
    · have := hlt t b (by simpa [htt] using ht)
      omega
  · intro b l m hb
    rcases filed_update_some hb with ⟨rfl, rfl, rfl⟩ | ⟨-, hb⟩
    · refine ⟨by simp, ?_⟩
      rcases hk with rfl | ⟨l', hl'⟩
      · simp
      · exact hold (hfiled b l' m hl').2
    · exact ⟨hold (hfiled b l m hb).1, hold (hfiled b l m hb).2⟩
  · intro x hx
    rcases hhand' x hx with hx | rfl
    · exact hold (hhand x hx)
    · simp

theorem touch (ha : filed a = some (l, k)) :
    Indexed (Function.update filed a (some (tick, k))) index (tick + 1) hand := by
  obtain ⟨own, hlt, hfiled, -⟩ := h.drawn
  refine ⟨h.nodup, ?_, ?_, ?_, ?_, h.draw (.inr ⟨l, ha⟩) fun _ hx => .inl hx⟩
  · intro y hy
    obtain ⟨⟨l', hl'⟩, hhand⟩ := h.sound y hy
    refine ⟨?_, hhand⟩
    by_cases hya : y.2 = a
    · rw [hya, update_self, h.fst_eq_of_mem hy (hya ▸ ha)]
      exact ⟨tick, rfl⟩
    · exact ⟨l', by simpa [hya] using hl'⟩
  · intro b l' k' hb
    rcases filed_update_some hb with ⟨rfl, rfl, rfl⟩ | ⟨-, hb⟩
    · exact h.complete b l k' ha
    · exact h.complete b l' k' hb
  · intro b l' k' hb
    rcases filed_update_some hb with ⟨rfl, rfl, rfl⟩ | ⟨-, hb⟩
    · exact (hlt k' b (hfiled b l k' ha).2).le
    · exact h.key_le b l' k' hb
  · intro y hy l' k' hb
    rcases filed_update_some hb with ⟨rfl, rfl, rfl⟩ | ⟨-, hb⟩
    · exact h.hand_le y hy l k' ha
    · exact h.hand_le y hy l' k' hb

theorem hold (ha : filed a = none) :
    Indexed (Function.update filed a (some (tick, tick))) index (tick + 1)
      (insert (tick, a) hand) := by
  obtain ⟨own, hlt, -, hhand⟩ := h.drawn
  refine ⟨h.nodup, ?_, ?_, ?_, ?_, h.draw (.inl rfl) fun _ hx => hx.symm⟩
  · intro y hy
    obtain ⟨⟨l', hl'⟩, hnot⟩ := h.sound y hy
    have hya : y.2 ≠ a := by
      rintro rfl
      simp [ha] at hl'
    refine ⟨⟨l', by simpa [hya] using hl'⟩, ?_⟩
    rintro (rfl | hy')
    · exact hya rfl
    · exact hnot hy'
  · intro b l' k' hb
    rcases filed_update_some hb with ⟨rfl, rfl, rfl⟩ | ⟨hba, hb⟩
    · exact .inr (.inl rfl)
    · exact (h.complete b l' k' hb).imp_right .inr
  · intro b l' k' hb
    rcases filed_update_some hb with ⟨rfl, rfl, rfl⟩ | ⟨hba, hb⟩
    · exact le_rfl
    · exact h.key_le b l' k' hb
  · rintro y (rfl | hy) l' k' hb
    · rcases filed_update_some hb with ⟨-, -, rfl⟩ | ⟨hba, -⟩
      · exact le_rfl
      · exact absurd rfl hba
    · rcases filed_update_some hb with ⟨-, -, rfl⟩ | ⟨-, hb⟩
      · exact (hlt y.1 y.2 (hhand y hy)).le
      · exact h.hand_le y hy l' k' hb

theorem refile (hx : x ∈ hand)
    (ha : filed x.2 = some (l, x.1)) (hlt : x.1 < l) :
    Indexed (Function.update filed x.2 (some (l, l)))
      ((l, x.2) :: index.filter fun y => y.1 ≠ l) tick (hand \ {x}) := by
  obtain ⟨own, hown, hfiled, hhand⟩ := h.drawn
  refine ⟨nodup_cons.mpr ⟨by simp, h.nodup_filter⟩, ?_, ?_, ?_, ?_, own, hown, ?_, ?_⟩
  · intro y hy
    rcases mem_cons.mp hy with rfl | hy
    · refine ⟨⟨l, by simp⟩, fun hy' => ?_⟩
      exact absurd (h.hand_le _ hy'.1 _ _ ha) (by simpa using hlt)
    · have hmem := mem_of_mem_filter hy
      obtain ⟨⟨l', hl'⟩, hnot⟩ := h.sound y hmem
      have hya : y.2 ≠ x.2 := by
        intro heq
        have hkey : y.1 = x.1 := h.fst_eq_of_mem hmem (heq ▸ ha)
        exact hnot ((Prod.ext hkey heq : y = x) ▸ hx)
      exact ⟨⟨l', by simpa [hya] using hl'⟩, fun hy' => hnot hy'.1⟩
  · intro b l' k' hb
    rcases filed_update_some hb with ⟨rfl, rfl, rfl⟩ | ⟨hba, hb⟩
    · exact .inl mem_cons_self
    · refine (h.complete b l' k' hb).imp (fun hmem => ?_) fun hhand => ⟨hhand, ?_⟩
      · apply mem_cons_of_mem
        simp only [mem_filter, decide_eq_true_eq, ne_eq]
        exact ⟨hmem, fun hk => hba (h.eq_of_key ha hb (.inr hk))⟩
      · rintro rfl
        exact hba rfl
  · intro b l' k' hb
    rcases filed_update_some hb with ⟨-, rfl, rfl⟩ | ⟨-, hb⟩
    · exact le_rfl
    · exact h.key_le b l' k' hb
  · rintro y ⟨hy, -⟩ l' k' hb
    rcases filed_update_some hb with ⟨heq, rfl, rfl⟩ | ⟨-, hb⟩
    · exact (h.hand_le y hy _ _ (heq ▸ ha)).trans hlt.le
    · exact h.hand_le y hy l' k' hb
  · intro b l' k' hb
    rcases filed_update_some hb with ⟨rfl, rfl, rfl⟩ | ⟨-, hb⟩
    · exact ⟨(hfiled _ _ _ ha).1, (hfiled _ _ _ ha).1⟩
    · exact hfiled b l' k' hb
  · exact fun y hy => hhand y hy.1

end

end Indexed

end LazyLru
