import Mathlib.Tactic

/-!
# Paths told apart up to a key of their components

A set of paths stands for the tree of all their beginnings. The tree is unforked, for a key `f`
of the components, if it never has two branches whose components have the same keys. What keeps
it so: paths may be dropped, a path that fits may be added, and a whole branch may be moved to a
place that fits.
-/

namespace Forks

open List

variable {α β : Type*} (f : α → β)

/-- A node of the tree of the paths `K`: the root, or the beginning of one of them. -/
def Live (K : Set (List α)) (p : List α) : Prop := p = [] ∨ ∃ k ∈ K, p <+: k

/-- Two nodes with the same keys are the same node. -/
def Unforked (K : Set (List α)) : Prop :=
  ∀ p q, Live K p → Live K q → p.map f = q.map f → p = q

/-- Wherever the path `c` meets the keys of a node, it runs along that node. -/
def Fits (K : Set (List α)) (c : List α) : Prop :=
  ∀ p, p <+: c → ∀ q, Live K q → q.map f = p.map f → q = p

variable {f} {K L : Set (List α)}

theorem Live.mono (hKL : K ⊆ L) {p : List α} (h : Live K p) : Live L p := by
  rcases h with rfl | ⟨k, hk, hp⟩
  · exact Or.inl rfl
  · exact Or.inr ⟨k, hKL hk, hp⟩

theorem live_of_mem {k : List α} (hk : k ∈ K) : Live K k := Or.inr ⟨k, hk, prefix_rfl⟩

theorem Live.of_above {p q : List α} (h : Live K q) (hp : p <+: q) : Live K p := by
  rcases h with rfl | ⟨k, hk, hq⟩
  · exact Or.inl (prefix_nil.mp hp)
  · exact Or.inr ⟨k, hk, hp.trans hq⟩

theorem Unforked.mono (hKL : K ⊆ L) (h : Unforked f L) : Unforked f K :=
  fun p q hp hq heq => h p q (hp.mono hKL) (hq.mono hKL) heq

theorem Fits.mono (hKL : K ⊆ L) {c : List α} (h : Fits f L c) : Fits f K c :=
  fun p hp q hq heq => h p hp q (hq.mono hKL) heq

theorem Unforked.fits_of_live (h : Unforked f K) {c : List α} (hc : Live K c) : Fits f K c :=
  fun p hp q hq heq => h q p hq (hc.of_above hp) heq

theorem eq_of_map_eq {p q c : List α} (hp : p <+: c) (hq : q <+: c) (heq : p.map f = q.map f) :
    p = q := by
  have hlen : p.length = q.length := by simpa using congrArg length heq
  exact (prefix_of_prefix_length_le hp hq hlen.le).eq_of_length hlen

theorem split_above {p d r : List α} (hp : p <+: d ++ r) :
    p <+: d ∨ ∃ t, p = d ++ t ∧ t <+: r := by
  rcases prefix_or_prefix_of_prefix hp (prefix_append d r) with hpd | ⟨t, rfl⟩
  · exact Or.inl hpd
  · exact Or.inr ⟨t, rfl, (prefix_append_right_inj d).mp hp⟩

theorem Unforked.insert (h : Unforked f K) {c : List α} (hc : Fits f K c) :
    Unforked f (insert c K) := by
  have hcases : ∀ p, Live (Insert.insert c K) p → Live K p ∨ p <+: c := by
    intro p hp
    rcases hp with rfl | ⟨k, rfl | hk, hp⟩
    · exact Or.inl (Or.inl rfl)
    · exact Or.inr hp
    · exact Or.inl (Or.inr ⟨k, hk, hp⟩)
  intro p q hp hq heq
  rcases hcases p hp with hp | hp
  · rcases hcases q hq with hq | hq
    · exact h p q hp hq heq
    · exact hc q hq p hp heq
  · rcases hcases q hq with hq | hq
    · exact (hc p hp q hq heq.symm).symm
    · exact eq_of_map_eq hp hq heq

theorem unforked_iff_siblings : Unforked f K ↔
    ∀ d a b, Live K (d ++ [a]) → Live K (d ++ [b]) → f a = f b → a = b := by
  constructor
  · intro h d a b ha hb heq
    have hsame := h _ _ ha hb (by simp [heq])
    simpa using hsame
  · intro h p
    induction p using reverseRecOn with
    | nil =>
      intro q _ _ heq
      exact (map_eq_nil_iff.mp heq.symm).symm
    | append_singleton d a ih =>
      intro q hp hq heq
      rcases eq_nil_or_concat q with rfl | ⟨e, b, rfl⟩
      · simp at heq
      · rw [concat_eq_append] at hq heq ⊢
        rw [map_append, map_append] at heq
        obtain ⟨hd, hab⟩ := append_inj' heq rfl
        have hde := ih e (hp.of_above (prefix_append _ _))
          (hq.of_above (prefix_append _ _)) hd
        subst hde
        rw [h d a b hp hq (cons.inj hab).1]

theorem Unforked.fits_append (h : Unforked f K) {d : List α} (hd : Live K d) {a : α}
    (hnew : ∀ b, Live K (d ++ [b]) → f b ≠ f a) (rest : List α) : Fits f K (d ++ a :: rest) := by
  intro p hp q hq heq
  rcases split_above hp with hp | ⟨t, rfl, ht⟩
  · exact h q p hq (hd.of_above hp) heq
  cases t with
  | nil =>
    rw [append_nil] at heq ⊢
    exact h q d hq hd heq
  | cons b t =>
    obtain ⟨rfl, -⟩ := cons_prefix_cons.mp ht
    -- The child of `d` on the way to `q` has the key of `b`.
    rw [map_append, map_cons] at heq
    obtain ⟨d', q', rfl, hd', hq'⟩ := map_eq_append_iff.mp heq
    obtain ⟨c, q'', rfl, hc, -⟩ := map_eq_cons_iff.mp hq'
    have hlive : Live K (d' ++ [c]) := hq.of_above ⟨q'', by simp⟩
    have hdd := h d' d (hlive.of_above (prefix_append _ _)) hd hd'
    subst hdd
    exact absurd hc (hnew c hlive)

theorem Unforked.fits_respelled (h : Unforked f K) {c c' : List α} (hc : Live K c)
    (hkeys : c'.map f = c.map f) (hdrop : c'.dropLast = c.dropLast) (hLK : L ⊆ K)
    (hgone : ¬ Live L c) : Fits f L c' := by
  intro p hp q hq heq
  have hproper : p = c' ∨ p <+: c'.dropLast := by
    rcases eq_nil_or_concat c' with rfl | ⟨d, a, rfl⟩
    · exact Or.inl (prefix_nil.mp hp)
    · rw [concat_eq_append] at hp ⊢
      rw [dropLast_concat]
      exact prefix_concat_iff.mp hp
  rcases hproper with rfl | hp
  · have hqc := h q c (hq.mono hLK) hc (heq.trans hkeys)
    exact absurd (hqc ▸ hq) hgone
  · rw [hdrop] at hp
    have hlive := hc.of_above (hp.trans (List.dropLast_prefix c))
    exact h q p (hq.mono hLK) hlive heq

/-- What is left when the branch at `src` is cut. -/
def cut (K : Set (List α)) (src : List α) : Set (List α) := {k ∈ K | ¬ src <+: k}

/-- The paths after the branch at `src` was moved to `dst`. -/
def moved (K : Set (List α)) (src dst : List α) : Set (List α) :=
  cut K src ∪ {k | ∃ r, src ++ r ∈ K ∧ k = dst ++ r}

theorem not_live_cut {src : List α} (hsrc : src ≠ []) : ¬ Live (cut K src) src := by
  rintro (h | ⟨k, hk, hp⟩)
  · exact hsrc h
  · exact hk.2 hp

theorem cut_subset (K : Set (List α)) (src : List α) : cut K src ⊆ K := fun _ h => h.1

theorem Unforked.moved (h : Unforked f K) {src dst : List α} (hfits : Fits f (cut K src) dst)
    (hfree : ∀ k ∈ cut K src, ¬ dst <+: k) : Unforked f (moved K src dst) := by
  have hcut : Unforked f (cut K src) := h.mono (cut_subset K src)
  have hcases : ∀ p, Live (Forks.moved K src dst) p →
      Live (cut K src) p ∨ p <+: dst ∨ ∃ t, p = dst ++ t ∧ Live K (src ++ t) := by
    intro p hp
    rcases hp with rfl | ⟨k, hk | ⟨r, hr, rfl⟩, hp⟩
    · exact Or.inl (Or.inl rfl)
    · exact Or.inl (Or.inr ⟨k, hk, hp⟩)
    · rcases split_above hp with hp | ⟨t, rfl, ht⟩
      · exact Or.inr (Or.inl hp)
      · exact Or.inr (Or.inr ⟨t, rfl, Or.inr ⟨_, hr, (prefix_append_right_inj _).mpr ht⟩⟩)
  -- What is left has no other node with the keys of one at or below `dst`.
  have hleft : ∀ q t, Live (cut K src) q → q.map f = (dst ++ t).map f → q = dst ++ t := by
    intro q t hq heq
    rw [map_append] at heq
    obtain ⟨d, q', rfl, hd, hq'⟩ := map_eq_append_iff.mp heq
    have hlive : Live (cut K src) d := hq.of_above (prefix_append _ _)
    have hdst := hfits dst prefix_rfl d hlive hd
    subst hdst
    rcases hq with hnil | ⟨k, hk, hp⟩
    · obtain ⟨rfl, rfl⟩ := append_eq_nil_iff.mp hnil
      rw [map_eq_nil_iff.mp hq'.symm]
    · exact absurd ((prefix_append _ _).trans hp) (hfree k hk)
  have hinner : ∀ p t, p <+: dst → p.map f = (dst ++ t).map f → p = dst ++ t := by
    intro p t hp heq
    have hlen : p.length = dst.length + t.length := by simpa using congrArg length heq
    have hle := hp.length_le
    obtain rfl : t = [] := length_eq_zero_iff.mp (by omega)
    rw [append_nil] at heq ⊢
    exact eq_of_map_eq hp prefix_rfl heq
  intro p q hp hq heq
  rcases hcases p hp with hp | hp | ⟨t, rfl, ht⟩
  · rcases hcases q hq with hq | hq | ⟨t, rfl, -⟩
    · exact hcut p q hp hq heq
    · exact hfits q hq p hp heq
    · exact hleft p t hp heq
  · rcases hcases q hq with hq | hq | ⟨t, rfl, -⟩
    · exact (hfits p hp q hq heq.symm).symm
    · exact eq_of_map_eq hp hq heq
    · exact hinner p t hp heq
  · rcases hcases q hq with hq | hq | ⟨t', rfl, ht'⟩
    · exact (hleft q t hq heq.symm).symm
    · exact (hinner q t hq heq.symm).symm
    · rw [map_append, map_append, append_cancel_left_eq] at heq
      have hsame := h _ _ ht ht' (by rw [map_append, map_append, heq])
      rw [append_cancel_left hsame]

end Forks
