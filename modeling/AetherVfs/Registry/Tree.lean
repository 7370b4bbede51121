import AetherVfs.Registry.Overlay

/-!
# The tree of keys behind the flat maps

The overlay keeps its nodes, its tombstones and the child lists in flat maps keyed by folded
path. `Tree` says how the three agree; the lemmas below it say that planting the root, linking
a child, cutting a subtree and moving a subtree keep them in agreement. They are about any
three such maps, so nothing here depends on what a node holds.
-/

namespace AetherVfs.Registry

open List

/-- The folded path of `\Registry`. -/
def root : Path := [[], registry]

/-- The keys that have a node, what the child list of a node says of a name, and the keys with
a tombstone record, agreeing on one tree below `\Registry`. -/
structure Tree (has : Path → Prop) (child : Path → Str → Option Child) (tomb : Path → Prop) :
    Prop where
  top : ∀ k, has k → root <+: k
  up : ∀ k c, has (k ++ [c]) → k ++ [c] = root ∨ has k
  present_iff : ∀ k c, child k c = some .present ↔ has k ∧ has (k ++ [c])
  tombstone_iff : ∀ k c, child k c = some .tombstone ↔ tomb (k ++ [c])
  tomb_nil : ¬ tomb []
  listed : ∀ k c, child k c ≠ none → has k

variable {k p : Path} {c : Str}

theorem not_append_prefix_self : ¬ k ++ [c] <+: k := by
  intro h
  have := h.length_le
  simp at this

theorem concat_eq_concat {d : Str} : k ++ [d] = p ++ [c] ↔ k = p ∧ d = c := by
  constructor
  · intro h
    obtain ⟨rfl, hd⟩ := append_inj' h rfl
    exact ⟨rfl, singleton_inj.mp hd⟩
  · rintro ⟨rfl, rfl⟩
    rfl

theorem prefix_concat {d : Str} : p ++ [c] <+: k ++ [d] ↔ p ++ [c] <+: k ∨ k = p ∧ d = c := by
  rw [prefix_concat_iff, eq_comm, concat_eq_concat, or_comm]

namespace Tree

variable {has : Path → Prop} {child : Path → Str → Option Child} {tomb : Path → Prop}

section

variable (h : Tree has child tomb)

include h

theorem not_has_nil : ¬ has [] := by
  intro hnil
  have := (h.top _ hnil).length_le
  simp [root] at this

theorem has_above {j : Path} (hk : has k) (hroot : root <+: j) (hjk : j <+: k) : has j := by
  induction k using reverseRecOn with
  | nil => exact absurd hk h.not_has_nil
  | append_singleton k c ih =>
    rcases prefix_concat_iff.mp hjk with rfl | hjk
    · exact hk
    · rcases h.up k c hk with htop | hup
      · have hlen := hjk.length_le
        have hroot := hroot.length_le
        have htop := congrArg length htop
        simp only [length_append, length_singleton] at htop
        omega
      · exact ih hup hjk

theorem has_of_tomb (ht : tomb (k ++ [c])) : has k := by
  refine h.listed k c ?_
  rw [(h.tombstone_iff k c).mpr ht]
  exact Option.some_ne_none _

theorem not_has_of_tomb (ht : tomb k) : ¬ has k := by
  induction k using reverseRecOn with
  | nil => exact absurd ht h.tomb_nil
  | append_singleton k c _ =>
    intro hk
    have hpresent := (h.present_iff k c).mpr ⟨h.has_of_tomb ht, hk⟩
    rw [(h.tombstone_iff k c).mpr ht] at hpresent
    cases hpresent

theorem not_has_below_tomb {t : Path} (ht : tomb t) (htk : t <+: k) : ¬ has k := by
  intro hk
  have hroot : root <+: t := by
    induction t using reverseRecOn with
    | nil => exact absurd ht h.tomb_nil
    | append_singleton t c _ =>
      exact (h.top t (h.has_of_tomb ht)).trans (prefix_append t [c])
  exact h.not_has_of_tomb ht (h.has_above hk hroot htk)

theorem not_has_of_not_root (hroot : ¬ has root) (k : Path) :
    ¬ has k := fun hk => hroot (h.has_above hk prefix_rfl (h.top k hk))

theorem not_tomb_of_not_root (hroot : ¬ has root) (k : Path) :
    ¬ tomb k := by
  intro ht
  induction k using reverseRecOn with
  | nil => exact h.tomb_nil ht
  | append_singleton k c _ => exact h.not_has_of_not_root hroot k (h.has_of_tomb ht)

theorem plant (hroot : ¬ has root) :
    Tree (fun j => j = root ∨ has j) child (fun j => j ≠ root ∧ tomb j) := by
  have hnone : ∀ k, ¬ has k := h.not_has_of_not_root hroot
  have hnotomb : ∀ k, ¬ tomb k := h.not_tomb_of_not_root hroot
  have hlong : ∀ c, root ++ [c] ≠ root := by simp
  have hpresent := h.present_iff
  have htomb := h.tombstone_iff
  have hlisted := h.listed
  refine ⟨?_, ?_, ?_, ?_, ?_, ?_⟩
  · rintro k (rfl | hk)
    · exact prefix_rfl
    · exact absurd hk (hnone k)
  all_goals grind

theorem link {pk : Path} (hpk : has pk) (hnew : ¬ has (pk ++ [c])) :
    Tree (fun j => j = pk ++ [c] ∨ has j)
      (fun j d => if j = pk ∧ d = c then some .present else child j d)
      (fun j => j ≠ pk ++ [c] ∧ tomb j) := by
  have hleaf : ∀ d, ¬ has (pk ++ [c] ++ [d]) := by
    intro d hd
    rcases h.up _ _ hd with htop | hup
    · have hlen := (h.top pk hpk).length_le
      have htop := congrArg length htop
      simp only [length_append, length_singleton] at htop
      omega
    · exact hnew hup
  obtain ⟨htop, hup, hpresent, htomb, hnil, hlisted⟩ := h
  refine ⟨?_, ?_, ?_, ?_, ?_, ?_⟩
  · rintro k (rfl | hk)
    · exact (htop pk hpk).trans (prefix_append _ _)
    · exact htop k hk
  all_goals grind [concat_eq_concat]

theorem cut (hp : has p) :
    Tree (fun j => has j ∧ ¬ p ++ [c] <+: j)
      (fun j d => if p ++ [c] <+: j then none
        else if j = p ∧ d = c then some .tombstone else child j d)
      (fun j => (tomb j ∧ ¬ p ++ [c] <+: j) ∨ j = p ++ [c]) := by
  obtain ⟨htop, hup, hpresent, htomb, hnil, hlisted⟩ := h
  have hself : ¬ p ++ [c] <+: p := not_append_prefix_self
  refine ⟨fun k hk => htop k hk.1, ?_, ?_, ?_, ?_, ?_⟩
  all_goals grind [prefix_concat, concat_eq_concat]

end

/-- Where a key of the subtree at `p ++ [b]` was before the move from `p ++ [a]`. -/
def source (p : Path) (a b : Str) (j : Path) : Path := p ++ [a] ++ j.drop (p ++ [b]).length

theorem source_append (p : Path) (a b : Str) (s : Path) :
    source p a b (p ++ [b] ++ s) = p ++ [a] ++ s := by
  simp only [source, drop_left]

theorem source_concat {a b d : Str} (hk : p ++ [b] <+: k) :
    source p a b (k ++ [d]) = source p a b k ++ [d] := by
  obtain ⟨s, rfl⟩ := hk
  rw [append_assoc (p ++ [b]), source_append, source_append, append_assoc (p ++ [a])]

/-- The subtree at `p ++ [a]` moves to `p ++ [b]`, which had no node, or only changes its
spelling; the name it leaves behind becomes a tombstone. -/
theorem move (h : Tree has child tomb) {a b : Str} (hold : has (p ++ [a])) (hp : has p) :
    Tree (fun j => if p ++ [b] <+: j then has (source p a b j) else has j ∧ ¬ p ++ [a] <+: j)
      (fun j d => if p ++ [b] <+: j then child (source p a b j) d
        else if p ++ [a] <+: j then none
        else if j = p ∧ d = b then some .present
        else if j = p ∧ d = a then some .tombstone else child j d)
      (fun j => if p ++ [b] <+: j then tomb (source p a b j)
        else (tomb j ∧ ¬ p ++ [a] <+: j) ∨ j = p ++ [a]) := by
  have hself : ∀ x, ¬ p ++ [x] <+: p := fun x => not_append_prefix_self
  have hnew : source p a b (p ++ [b]) = p ++ [a] := by
    simpa using source_append p a b []
  have hroot : ∀ k d, source p a b k ++ [d] ≠ root := by
    intro k d heq
    have hlen := (h.top p hp).length_le
    have := congrArg length heq
    simp only [source, length_append, length_singleton] at this
    omega
  have hnot : ¬ tomb (p ++ [a]) := fun ht => h.not_has_of_tomb ht hold
  obtain ⟨htop, hup, hpresent, htomb, hnil, hlisted⟩ := h
  have htop' : root <+: p ++ [b] := (htop p hp).trans (prefix_append _ _)
  refine ⟨fun j hj => ?_, fun k d hk => ?_, fun k d => ?_, fun k d => ?_, ?_, fun k d hkd => ?_⟩
  · by_cases hin : p ++ [b] <+: j
    · exact htop'.trans hin
    · rw [if_neg hin] at hj
      exact htop j hj.1
  -- Inside the moved subtree each goal is what held at the source, outside what held in place.
  · by_cases hin : p ++ [b] <+: k
    · simp only [prefix_concat, hin, true_or, if_true, source_concat hin] at hk ⊢
      exact .inr ((hup _ d hk).resolve_left (hroot k d))
    · grind [prefix_concat]
  · by_cases hin : p ++ [b] <+: k
    · simpa only [prefix_concat, hin, true_or, if_true, source_concat hin] using hpresent _ d
    · grind [prefix_concat]
  · by_cases hin : p ++ [b] <+: k
    · simpa only [prefix_concat, hin, true_or, if_true, source_concat hin] using htomb _ d
    · grind [prefix_concat, concat_eq_concat]
  · grind
  · by_cases hin : p ++ [b] <+: k
    · simp only [hin, if_true] at hkd ⊢
      exact hlisted _ d hkd
    · grind

end Tree

end AetherVfs.Registry
