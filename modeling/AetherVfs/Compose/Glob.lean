import AetherVfs.Compose.Memory
import AetherVfs.Lib.Wildcard
import AetherVfs.Registry.Format

/-!
# Globs of the router

`vfs-compose/src/glob.rs`: a pattern and a path are split into folded components, `**` stands for
any number of them, and within a component `*` and `?` are matched byte by byte, coming back to
the last star when a byte does not fit.
-/

namespace AetherVfs.Compose.Glob

open Wildcard Registry List

abbrev Bytes := List UInt8

def star : UInt8 := 0x2A
def mark : UInt8 := 0x3F

/-- The loop of `match_one`, with what is left of the pattern and of the component. `last` is the
pattern after the last star passed, and what was left of the component then. -/
def matchLoop (p s : Bytes) (last : Option (Bytes × Bytes)) : Bool :=
  match s with
  | [] => (p.dropWhile fun b => b = star).isEmpty
  | c :: s =>
    if p.head? = some mark ∨ p.head? = some c then matchLoop p.tail s last
    else if p.head? = some star then matchLoop p.tail (c :: s) (some (p.tail, c :: s))
    else
      match last with
      | some (q, _ :: t) => matchLoop q t (some (q, t))
      | _ => false
-- To come back leaves less to come back to; the other steps leave less of the pattern.
termination_by (last.elim (s.length + 1) fun r => max r.2.length s.length, p.length)
decreasing_by
  · apply Prod.Lex.right'
    · cases last <;> simp only [Option.elim_none, Option.elim_some, List.length_cons] <;> omega
    · cases p <;> simp_all
  · apply Prod.Lex.right'
    · cases last <;> simp only [Option.elim_none, Option.elim_some, List.length_cons] <;> omega
    · cases p <;> simp_all
  · simp only [Option.elim_some, max_self, List.length_cons]
    exact Prod.Lex.left _ _ (by omega)

def matchOne (pat seg : Str) : Bool :=
  if pat = ['*'] then true else matchLoop (utf8 pat) (utf8 seg) none

def matchRec : List Str → List Str → Bool
  | [], path => path.isEmpty
  | p :: pat, path =>
    if p = ['*', '*'] then
      -- The remainder after any number of components.
      anySuffix (matchRec pat) path
    else
      match path with
      | [] => false
      | seg :: path => if matchOne p seg then matchRec pat path else false

def splitSegs (s : Str) : List Str :=
  if s = [] then [] else (s.splitOn '/').filter fun p => p ≠ []

section Strings

variable [ToLowercase]

def normalize (s : Str) : Str := fold (joined (trimRel s))

def «matches» (pattern path : Str) : Bool :=
  matchRec (splitSegs (normalize pattern)) (splitSegs (normalize path))

/-! ## What a glob stands for -/

def segments (s : Str) : List Str := ((s.splitOnP isSep).filter fun c => c ≠ []).map fold

section Meaning

variable {α : Type} [DecidableEq α]

/-- A unit of a pattern: `star` is any run of units, `mark` any one, another one itself. -/
def wild (star mark b : α) : Atom α :=
  if b = star then .run else .one fun x => b = mark ∨ x = b

open Classical in
/-- A component of a pattern: `**` is any run of components, another one is matched within the
component, in the units the strings are made of. -/
noncomputable def segment (units : Str → List α) (star mark : α) (p : Str) : Atom Str :=
  if p = ['*', '*'] then .run
  else .one fun seg => Matches ((units p).map (wild star mark)) (units seg)

def Means (units : Str → List α) (star mark : α) (pattern path : Str) : Prop :=
  Matches ((segments pattern).map (segment units star mark)) (segments path)

end Meaning

end Strings

/-! ## Within a component -/

def kind (b x : UInt8) : Bool := b = mark ∨ x = b

theorem map_wild_of_notMem {front : Bytes} (h : star ∉ front) :
    front.map (wild star mark) = (front.map kind).map .one := by
  rw [map_map]
  apply map_congr_left
  intro b hb
  have hne : b ≠ star := fun heq => h (heq ▸ hb)
  exact if_neg hne

theorem map_wild_star {p : Bytes} (h : p.head? = some star) :
    p.map (wild star mark) = .run :: p.tail.map (wild star mark) := by
  cases p with
  | nil => cases h
  | cons b p =>
    cases h
    rfl

theorem matches_wild_nil (p : Bytes) :
    Matches (p.map (wild star mark)) [] ↔ (p.dropWhile fun b => b = star).isEmpty = true := by
  induction p with
  | nil => simp
  | cons b p ih =>
    by_cases hb : b = star
    · simp [wild, hb, matches_run, ih]
    · simp [wild, hb, matches_one]

theorem not_matches_wild {p s : Bytes} {c : UInt8}
    (htake : ¬ (p.head? = some mark ∨ p.head? = some c)) (hskip : p.head? ≠ some star) :
    ¬ Matches (p.map (wild star mark)) (c :: s) := by
  cases p with
  | nil => simp
  | cons b p =>
    simp only [head?_cons, Option.some.injEq, not_or, ne_eq] at htake hskip
    simp only [map_cons, wild, if_neg hskip, matches_one]
    rintro ⟨c', t, ht, hkind, -⟩
    cases ht
    rcases of_decide_eq_true hkind with hmark | heq
    · exact htake.1 hmark
    · exact htake.2 heq.symm

/-- From where the last star was passed, `q` against `t`, the units up to `p` against `s` were
found. -/
structure Passed (p s q t : Bytes) : Prop where
  found : ∃ front w, q = front ++ p ∧ t = w ++ s ∧ star ∉ front ∧
    List.Forall₂ (fun kind c => kind c = true) (front.map kind) w

theorem Passed.refl (p s : Bytes) : Passed p s p s := ⟨[], [], rfl, rfl, by simp, by simp⟩

theorem Passed.step {p s q t : Bytes} {c : UInt8} (h : Passed p (c :: s) q t) (hc : c ≠ star)
    (htake : p.head? = some mark ∨ p.head? = some c) : Passed p.tail s q t := by
  obtain ⟨front, w, rfl, rfl, hfront, hw⟩ := h
  cases p with
  | nil => simp at htake
  | cons b p =>
    simp only [head?_cons, Option.some.injEq] at htake
    have hb : b ≠ star := by
      rintro rfl
      rcases htake with hmark | heq
      · exact absurd hmark (by decide)
      · exact hc heq.symm
    have hkind : kind b c = true := decide_eq_true (htake.imp_right Eq.symm)
    refine ⟨front ++ [b], w ++ [c], by simp, by simp, ?_, ?_⟩
    · rw [mem_append, mem_singleton]
      rintro (hmem | rfl)
      · exact hfront hmem
      · exact hb rfl
    · rw [map_append]
      exact rel_append hw (List.Forall₂.cons hkind List.Forall₂.nil)

theorem Passed.matches_iff {p s q t : Bytes} (h : Passed p s q t) :
    Matches (q.map (wild star mark)) t ↔ Matches (p.map (wild star mark)) s := by
  obtain ⟨front, w, rfl, rfl, hfront, hw⟩ := h
  rw [map_append, map_wild_of_notMem hfront, matches_ones_append hw]

/-- What the loop is to find: the rest of the pattern, or the pattern after the last star
anywhere in what was left then. -/
def Wanted (p s : Bytes) : Option (Bytes × Bytes) → Prop
  | none => Matches (p.map (wild star mark)) s
  | some (q, t) => ∃ u, u <:+ t ∧ Matches (q.map (wild star mark)) u

theorem wanted_nil {p : Bytes} {last : Option (Bytes × Bytes)}
    (hlast : ∀ q t, last = some (q, t) → Passed p [] q t) :
    Wanted p [] last ↔ Matches (p.map (wild star mark)) [] := by
  cases last with
  | none => rfl
  | some r =>
    obtain ⟨front, w, hq, ht, hfront, hw⟩ := hlast r.1 r.2 rfl
    rw [append_nil] at ht
    rw [Wanted, hq, ht, map_append, map_wild_of_notMem hfront, matches_last_ones hw]

theorem wanted_star {p s : Bytes} {last : Option (Bytes × Bytes)} (hstar : p.head? = some star)
    (hlast : ∀ q t, last = some (q, t) → Passed p s q t) :
    Wanted p s last ↔ Wanted p.tail s (some (p.tail, s)) := by
  cases last with
  | none =>
    rw [Wanted, map_wild_star hstar, matches_run]
    rfl
  | some r =>
    obtain ⟨front, w, hq, ht, hfront, hw⟩ := hlast r.1 r.2 rfl
    rw [Wanted, hq, ht, map_append, map_wild_of_notMem hfront, map_wild_star hstar,
      matches_last_run hw]
    rfl

theorem matchLoop_eq_true (p s : Bytes) (last : Option (Bytes × Bytes)) (hs : star ∉ s)
    (hlast : ∀ q t, last = some (q, t) → Passed p s q t ∧ star ∉ t) :
    matchLoop p s last = true ↔ Wanted p s last := by
  fun_induction matchLoop p s last with
  | case1 p last => rw [← matches_wild_nil, wanted_nil fun q t h => (hlast q t h).1]
  | case2 p last c s htake ih =>
    rw [mem_cons, not_or] at hs
    have hstep : ∀ q t, last = some (q, t) → Passed p.tail s q t ∧ star ∉ t := by
      intro q t h
      exact ⟨(hlast q t h).1.step (Ne.symm hs.1) htake, (hlast q t h).2⟩
    rw [ih hs.2 hstep]
    cases last with
    | none => exact ((Passed.refl p (c :: s)).step (Ne.symm hs.1) htake).matches_iff.symm
    | some r => rfl
  | case3 p last c s htake hstar ih =>
    rw [wanted_star hstar fun q t h => (hlast q t h).1]
    apply ih hs
    rintro q t ⟨rfl, rfl⟩
    exact ⟨Passed.refl _ _, hs⟩
  | case4 p c s htake hskip q x t ih =>
    obtain ⟨hpassed, ht⟩ := hlast q (x :: t) rfl
    have hhere : ¬ Matches (q.map (wild star mark)) (x :: t) :=
      fun h => not_matches_wild htake hskip (hpassed.matches_iff.mp h)
    have ht' : star ∉ t := fun h => ht (mem_cons_of_mem x h)
    rw [ih ht' (by rintro _ _ ⟨rfl, rfl⟩; exact ⟨Passed.refl _ _, ht'⟩)]
    -- The pattern was not found where it was tried, so it is found further on or not at all.
    constructor
    · rintro ⟨u, hu, hmatch⟩
      exact ⟨u, hu.trans (suffix_cons x t), hmatch⟩
    · rintro ⟨u, hu, hmatch⟩
      rcases suffix_cons_iff.mp hu with rfl | hu
      · exact absurd hmatch hhere
      · exact ⟨u, hu, hmatch⟩
  | case5 p last c s htake hskip hback =>
    apply iff_of_false (by simp)
    cases last with
    | none => exact not_matches_wild htake hskip
    | some r =>
      obtain ⟨front, w, -, ht, -⟩ := (hlast r.1 r.2 rfl).1
      cases w with
      | nil => exact (hback r.1 c s (by rw [← nil_append (c :: s), ← ht])).elim
      | cons x w => exact (hback r.1 x (w ++ c :: s) (by rw [← cons_append, ← ht])).elim

theorem toNat_eq_of_star_eq {n : ℕ} (h : star = UInt8.ofNat n) (hn : n < 256) : n = 42 := by
  have hval := congrArg UInt8.toNat h
  have hstar : star.toNat = 42 := rfl
  rw [hstar, UInt8.toNat_ofNat'] at hval
  omega

theorem star_mem_utf8 {s : Str} : star ∈ utf8 s ↔ '*' ∈ s := by
  rw [utf8, mem_flatMap]
  constructor
  · rintro ⟨c, hc, hmem⟩
    have hval : c.val.toNat = 42 := by
      unfold String.utf8EncodeChar at hmem
      dsimp only at hmem
      -- Every byte of a character beyond ASCII is at least 128.
      split_ifs at hmem with h1 h2 h3
      · exact toNat_eq_of_star_eq (mem_singleton.mp hmem) (by omega)
      all_goals
        simp only [mem_cons, not_mem_nil, or_false] at hmem
        repeat' rcases hmem with hmem | hmem
        all_goals
          have := toNat_eq_of_star_eq hmem (by omega)
          omega
    have hstar : c = '*' := by
      rw [← Char.ofNat_toNat c, Char.toNat, hval]
    exact hstar ▸ hc
  · intro h
    exact ⟨'*', h, by decide⟩

theorem matchOne_eq_true {pat seg : Str} (hseg : '*' ∉ seg) :
    matchOne pat seg = true ↔ Matches ((utf8 pat).map (wild star mark)) (utf8 seg) := by
  unfold matchOne
  split_ifs with hpat
  · rw [hpat]
    apply iff_of_true rfl
    exact matches_run.mpr ⟨[], nil_suffix, Matches.nil⟩
  · exact matchLoop_eq_true _ _ none (mt star_mem_utf8.mp hseg) (by simp)

/-! ## Components -/

theorem matchRec_eq_true (pat path : List Str) (hpath : ∀ seg ∈ path, '*' ∉ seg) :
    matchRec pat path = true ↔ Matches (pat.map (segment utf8 star mark)) path := by
  induction pat generalizing path with
  | nil => simp [matchRec]
  | cons p pat ih =>
    rw [matchRec.eq_def, map_cons, segment]
    dsimp only
    split_ifs with hrun
    · rw [anySuffix_eq_true, matches_run]
      apply exists_congr
      intro t
      apply and_congr_right
      intro ht
      exact ih t fun seg hseg => hpath seg (ht.subset hseg)
    · rw [matches_one]
      cases path with
      | nil => simp
      | cons seg path =>
        rw [forall_mem_cons] at hpath
        have hone : matchOne p seg = true ↔ _ := matchOne_eq_true hpath.1
        by_cases hseg : matchOne p seg
        · simp [hseg, hone.mp hseg, ih path hpath.2]
        · simp [hseg, mt hone.mpr hseg]

theorem filter_dropWhile_nil (l : List Str) :
    (l.dropWhile fun c => c = []).filter (fun c => c ≠ []) = l.filter fun c => c ≠ [] := by
  induction l with
  | nil => rfl
  | cons c l ih =>
    by_cases hc : c = []
    · simpa [hc] using ih
    · simp [hc]

theorem filter_trimRel (s : Str) :
    (trimRel s).filter (fun c => c ≠ []) = (s.splitOnP isSep).filter fun c => c ≠ [] := by
  rw [trimRel, rdropWhile, filter_reverse, filter_dropWhile_nil, ← filter_reverse,
    reverse_reverse, filter_dropWhile_nil]

theorem slash_notMem_trimRel {s c : Str} (h : c ∈ trimRel s) : '/' ∉ c := by
  have hsplit : c ∈ s.splitOnP isSep :=
    (dropWhile_sublist _).subset ((List.rdropWhile_prefix _ _).subset h)
  intro hslash
  exact absurd (eq_false_of_mem_splitOnP hsplit '/' hslash) (by decide)

section Strings

variable [ToLowercase]

theorem splitSegs_normalize (s : Str) : splitSegs (normalize s) = segments s := by
  have hslash : ∀ c ∈ (trimRel s).map fold, '/' ∉ c := by
    refine forall_mem_map.mpr fun c hc hmem => ?_
    exact slash_notMem_trimRel hc ((mem_fold_iff (by decide) (by decide) (by decide)).mp hmem)
  have hfilter : ((trimRel s).map fold).filter (fun c => c ≠ []) = segments s := by
    rw [segments, ← filter_trimRel, filter_map]
    congr 1
    apply filter_congr
    intro c _
    simp
  rw [← hfilter, normalize, fold_joined, splitSegs]
  by_cases hnil : (trimRel s).map fold = []
  · rw [hnil]
    rfl
  · have hsplit : (joined ((trimRel s).map fold)).splitOn '/' = (trimRel s).map fold :=
      splitOn_intercalate '/' hslash hnil
    rw [hsplit]
    split_ifs with hempty
    · rw [hempty] at hsplit
      rw [← hsplit]
      rfl
    · rfl

/-- For a path without stars the matcher finds exactly the paths the pattern stands for, byte by
byte. -/
theorem matches_eq_true (pattern path : Str) (h : '*' ∉ path) :
    «matches» pattern path = true ↔ Means utf8 star mark pattern path := by
  have hstar : ∀ seg ∈ segments path, '*' ∉ seg := by
    refine forall_mem_map.mpr fun c hc hmem => ?_
    have hmem : '*' ∈ c := (mem_fold_iff (by decide) (by decide) (by decide)).mp hmem
    exact h (subset_of_mem_splitOnP (mem_filter.mp hc).1 hmem)
  rw [«matches», splitSegs_normalize, splitSegs_normalize, matchRec_eq_true _ _ hstar]
  rfl

end Strings

attribute [local instance] asciiLowercase

theorem matches_upperCase :
    «matches» ['D', '/', '*', 'x'] ['d', '/', 'A', 'X'] = true ↔
      Means utf8 star mark ['D', '/', '*', 'x'] ['d', '/', 'A', 'X'] :=
  matches_eq_true _ _ (by decide)

/-- A mark takes one byte and not one character; and a star of the path is taken for the one of
the pattern, which then is no wildcard. -/
theorem matches_accented_starred :
    («matches» ['?'] ['é'] = false ∧ Means id '*' '?' ['?'] ['é']) ∧
    («matches» ['*', 'a'] ['*', 'b', 'a'] = false ∧
      Means id '*' '?' ['*', 'a'] ['*', 'b', 'a']) := by
  have hsegs : segments ['?'] = [['?']] ∧ segments ['é'] = [['é']] ∧
      segments ['*', 'a'] = [['*', 'a']] ∧ segments ['*', 'b', 'a'] = [['*', 'b', 'a']] := by
    decide
  have hbytes : utf8 ['?'] = [mark] ∧ utf8 ['é'] = [0xC3, 0xA9] ∧ utf8 ['*', 'a'] = [star, 0x61] ∧
      utf8 ['*', 'b', 'a'] = [star, 0x62, 0x61] := by
    decide
  simp only [«matches», Means, splitSegs_normalize, hsegs]
  refine ⟨⟨?_, ?_⟩, ?_, ?_⟩
  · simp [matchRec, matchOne, hbytes, matchLoop, star, mark]
  · simp [segment, wild, matches_one]
  · simp [matchRec, matchOne, hbytes, matchLoop, star, mark]
  · have hlast : ['a'] <:+ ['*', 'b', 'a'] := ⟨['*', 'b'], rfl⟩
    simp [segment, wild, matches_one, matches_run, hlast]

end AetherVfs.Compose.Glob
