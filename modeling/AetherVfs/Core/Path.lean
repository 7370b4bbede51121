import AetherVfs.Core.CaseFold

/-!
# Relative paths

`vfs-core/src/path.rs`: a request path is split at either separator, empty components are
dropped, and `.` and `..` are refused. The key of a path is the list of its folded components. The
catalog spells it as one string, the components joined by `/`; the two carry the same
information, and "below" means the same for both.
-/

namespace AetherVfs

open List

def isSep (c : Char) : Bool := c = '/' || c = '\\'

def joined (parts : List Str) : Str := ['/'].intercalate parts

abbrev Key := List Str

namespace Key

/-- The key `k` lies below `d`. -/
def Below (d k : Key) : Prop := d <+: k ∧ d ≠ k

instance (d k : Key) : Decidable (Below d k) := inferInstanceAs (Decidable (_ ∧ _))

theorem below_iff {d k : Key} : Below d k ↔ ∃ c rest, k = d ++ c :: rest := by
  constructor
  · rintro ⟨⟨rest, rfl⟩, hne⟩
    cases rest with
    | nil => simp at hne
    | cons c rest => exact ⟨c, rest, rfl⟩
  · rintro ⟨c, rest, rfl⟩
    exact ⟨prefix_append _ _, by simp⟩

theorem Below.dropLast {d k : Key} (h : Below d k) : d = k.dropLast ∨ Below d k.dropLast := by
  obtain ⟨c, rest, rfl⟩ := below_iff.mp h
  rcases eq_nil_or_concat rest with rfl | ⟨init, last, rfl⟩
  · left
    simp
  · right
    refine below_iff.mpr ⟨c, init, ?_⟩
    rw [concat_eq_append, ← cons_append, ← append_assoc, dropLast_concat]

theorem Below.trans {d e k : Key} (h : Below d e) (h' : Below e k) : Below d k := by
  obtain ⟨c, rest, rfl⟩ := below_iff.mp h
  obtain ⟨c', rest', rfl⟩ := below_iff.mp h'
  exact below_iff.mpr ⟨c, rest ++ c' :: rest', by simp⟩

theorem below_dropLast {k : Key} (hk : k ≠ []) : Below k.dropLast k :=
  below_iff.mpr ⟨k.getLast hk, [], (dropLast_append_getLast hk).symm⟩

end Key

section Spelling

/-- A component that can stand in a key: not empty, and without a slash. -/
def IsComponent (c : Str) : Prop := c ≠ [] ∧ '/' ∉ c

theorem spec_of_mem_splitOnP {p : Char → Bool} {s c : Str} (h : c ∈ s.splitOnP p) :
    ∀ a ∈ c, p a = false ∧ a ∈ s := by
  induction s generalizing c with
  | nil =>
    simp only [splitOnP_nil, mem_singleton] at h
    simp [h]
  | cons b s ih =>
    have hlater {w : Str} (hw : w ∈ s.splitOnP p) : ∀ a ∈ w, p a = false ∧ a ∈ b :: s :=
      fun a ha => ⟨(ih hw a ha).1, mem_cons_of_mem b (ih hw a ha).2⟩
    rw [splitOnP_cons_eq_if_modifyHead] at h
    split_ifs at h with hb
    · rcases mem_cons.mp h with rfl | h
      · simp
      · exact hlater h
    · obtain ⟨w, ws, hsplit⟩ := exists_cons_of_ne_nil (splitOnP_ne_nil p s)
      rw [hsplit] at hlater
      rw [hsplit, modifyHead_cons] at h
      rcases mem_cons.mp h with rfl | h
      · intro a ha
        rcases mem_cons.mp ha with rfl | ha
        · simpa using hb
        · exact hlater mem_cons_self a ha
      · exact hlater (mem_cons_of_mem _ h)

theorem eq_false_of_mem_splitOnP {p : Char → Bool} {s c : Str} (h : c ∈ s.splitOnP p) :
    ∀ a ∈ c, p a = false := fun a ha => (spec_of_mem_splitOnP h a ha).1

theorem subset_of_mem_splitOnP {p : Char → Bool} {s c : Str} (h : c ∈ s.splitOnP p) : c ⊆ s :=
  fun a ha => (spec_of_mem_splitOnP h a ha).2

theorem joined_cons_cons (c d : Str) (parts : List Str) :
    joined (c :: d :: parts) = c ++ '/' :: joined (d :: parts) := by
  simp [joined, intercalate_cons_cons]

theorem joined_append {p q : List Str} (hp : p ≠ []) (hq : q ≠ []) :
    joined (p ++ q) = joined p ++ '/' :: joined q := by
  induction p with
  | nil => exact absurd rfl hp
  | cons c p ih =>
    cases p with
    | nil =>
      obtain ⟨d, q, rfl⟩ := exists_cons_of_ne_nil hq
      rw [singleton_append, joined_cons_cons]
      simp [joined]
    | cons d p =>
      rw [cons_append, cons_append, joined_cons_cons, ← cons_append,
        ih (cons_ne_nil d p), joined_cons_cons, append_assoc, cons_append]

theorem joined_ne_nil {p : List Str} (hp : ∀ c ∈ p, IsComponent c) (hne : p ≠ []) :
    joined p ≠ [] := by
  match p with
  | [] => exact absurd rfl hne
  | [c] => simpa [joined] using (hp c mem_cons_self).1
  | c :: d :: p => simp [joined_cons_cons]

theorem splitOn_joined {p : List Str} (hp : ∀ c ∈ p, IsComponent c) (hne : p ≠ []) :
    (joined p).splitOn '/' = p :=
  splitOn_intercalate '/' (fun c hc => (hp c hc).2) hne

theorem joined_injective {p q : List Str} (hp : ∀ c ∈ p, IsComponent c)
    (hq : ∀ c ∈ q, IsComponent c) (h : joined p = joined q) : p = q := by
  by_cases hp0 : p = []
  · by_contra hne
    subst hp0
    exact joined_ne_nil hq (Ne.symm hne) h.symm
  by_cases hq0 : q = []
  · subst hq0
    exact absurd h (joined_ne_nil hp hp0)
  rw [← splitOn_joined hp hp0, ← splitOn_joined hq hq0, h]

theorem joined_below_iff {p : List Str} (hp : ∀ c ∈ p, IsComponent c) (hne : p ≠ []) (t : Str) :
    joined p = t ∨ t ++ ['/'] <+: joined p ↔ t.splitOn '/' <+: p := by
  constructor
  · rintro (rfl | ⟨rest, hrest⟩)
    · rw [splitOn_joined hp hne]
    · rw [← splitOn_joined hp hne, ← hrest, append_assoc, singleton_append]
      have hsplit : (t ++ '/' :: rest).splitOn '/' = t.splitOn '/' ++ rest.splitOn '/' :=
        splitOnP_append_cons t rest (beq_self_eq_true '/')
      rw [hsplit]
      exact prefix_append _ _
  · rintro ⟨rest, rfl⟩
    have ht : joined (t.splitOn '/') = t := intercalate_splitOn '/'
    by_cases hrest : rest = []
    · left
      rw [hrest, append_nil, ht]
    · right
      have hsome : t.splitOn '/' ≠ [] := splitOnP_ne_nil _ _
      rw [joined_append hsome hrest, ht]
      exact ⟨joined rest, by simp⟩

variable [ToLowercase]

theorem fold_joined (parts : List Str) : fold (joined parts) = joined (parts.map fold) := by
  have hslash : fold ['/'] = ['/'] := rfl
  match parts with
  | [] => exact fold_nil
  | [c] => simp [joined]
  | c :: d :: parts =>
    rw [joined_cons_cons, fold_append, map_cons, map_cons, joined_cons_cons,
      ← map_cons, ← fold_joined (d :: parts), ← singleton_append, fold_append, hslash]
    rfl

end Spelling

end AetherVfs
