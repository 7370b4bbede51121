import AetherVfs.Registry.Names

/-!
# Canonical registry paths

`canonical` and `to_nt` of `vfs-registry/src/path.rs`, on the text of a path. Below
`\Registry\User` the user's SID is spelled as a symbol, so that a layer written for one account
reads back for another. Two paths get canonical forms that fold to the same text exactly when
they name the same key, with one exception: a path that spells the symbol itself.
-/

namespace AetherVfs.Registry

open List

inductive PathError where
  | notRegistry
  | badComponent
deriving DecidableEq

def currentUser : Str :=
  ['<', 'C', 'u', 'r', 'r', 'e', 'n', 't', 'U', 's', 'e', 'r', '>']

def classes : Str := ['_', 'C', 'l', 'a', 's', 's', 'e', 's']

/-- The folded names of the two hives with a spelling of their own. -/
def machine : Str := ['m', 'a', 'c', 'h', 'i', 'n', 'e']
def user : Str := ['u', 's', 'e', 'r']

def components (s : Str) : List Str := (pieces s).filter fun c => c ≠ []

def text (parts : List Str) : Str := parts.flatMap fun c => '\\' :: c

section

variable [ToLowercase]

/-- The hive name in its conventional spelling. -/
def spellHive (part : Str) : Str :=
  if fold part = machine then ['M', 'a', 'c', 'h', 'i', 'n', 'e']
  else if fold part = user then ['U', 's', 'e', 'r']
  else part

def sidToSymbol (part : Str) (userSid : Option Str) : Str :=
  match userSid with
  | some sid =>
    if fold part = fold sid then currentUser
    else if fold part = fold sid ++ fold classes then currentUser ++ classes
    else part
  | none => part

/-- The loop of `canonical` over the components below `\Registry`. -/
def canonicalParts (userSid : Option Str) : List Str → List Str
  | [] => []
  | [hive] => [spellHive hive]
  | hive :: sub :: rest =>
    spellHive hive :: (if fold hive = user then sidToSymbol sub userSid else sub) :: rest

def canonical (ntPath : Str) (userSid : Option Str) : Except PathError Str :=
  match components ntPath with
  | [] => .error .notRegistry
  | r :: parts =>
    if ntPath.head? = some '\\' ∧ fold r = registry then
      .ok (text (['R', 'e', 'g', 'i', 's', 't', 'r', 'y'] :: canonicalParts userSid parts))
    else .error .notRegistry

/-- What `to_nt` writes for the piece number `i` of a canonical path. -/
def ntPart (userHive : Bool) (userSid : Option Str) (i : ℕ) (part : Str) : Str :=
  if i = 1 ∧ fold part = registry then ['R', 'E', 'G', 'I', 'S', 'T', 'R', 'Y']
  else if i = 2 ∧ fold part = machine then ['M', 'A', 'C', 'H', 'I', 'N', 'E']
  else if i = 2 ∧ fold part = user then ['U', 'S', 'E', 'R']
  else
    match userSid with
    | some sid =>
      if i = 3 ∧ userHive ∧ part = currentUser then sid
      else if i = 3 ∧ userHive ∧ part = currentUser ++ classes then sid ++ classes
      else part
    | none => part

def toNt (path : Str) (userSid : Option Str) : Str :=
  let parts := pieces path
  let userHive := parts[2]?.any fun p => fold p = user
  List.intercalate ['\\'] (parts.mapIdx (ntPart userHive userSid))

end

/-- The form of a user's SID as text. -/
structure IsSid (s : Str) : Prop where
  head : ∃ rest, s = 'S' :: '-' :: rest
  separator : '\\' ∉ s

/-! ## Texts and components -/

theorem text_eq_intercalate (parts : List Str) :
    text parts = List.intercalate ['\\'] ([] :: parts) := by
  rw [intercalate_cons]
  rfl

variable {parts a b : List Str} {s : Str}

theorem pieces_text (h : ∀ c ∈ parts, '\\' ∉ c) : pieces (text parts) = [] :: parts := by
  rw [text_eq_intercalate, pieces]
  apply splitOn_intercalate
  · intro c hc
    rcases mem_cons.mp hc with rfl | hc
    · exact not_mem_nil
    · exact h c hc
  · exact cons_ne_nil _ _

theorem components_text (h : ∀ c ∈ parts, IsName c) : components (text parts) = parts := by
  rw [components, pieces_text fun c hc => (h c hc).2]
  simp only [ne_eq, not_true_eq_false, decide_false, Bool.false_eq_true, not_false_eq_true,
    filter_cons_of_neg]
  rw [filter_eq_self]
  intro c hc
  simpa using (h c hc).1

theorem isName_of_mem_components {c : Str} (h : c ∈ components s) : IsName c := by
  obtain ⟨hc, hne⟩ := mem_filter.mp h
  exact ⟨by simpa using hne, separator_notMem_pieces hc⟩

theorem text_injective (ha : ∀ c ∈ a, '\\' ∉ c) (hb : ∀ c ∈ b, '\\' ∉ c) (h : text a = text b) :
    a = b := by
  have hpieces := pieces_text ha
  rw [h, pieces_text hb] at hpieces
  exact (cons.inj hpieces).2.symm

section

variable [ToLowercase]

theorem fold_text (parts : List Str) : fold (text parts) = text (parts.map fold) := by
  induction parts with
  | nil => exact fold_nil
  | cons c parts ih =>
    have hcons : ∀ d : Str, text (d :: (parts.map fold)) = ['\\'] ++ d ++ text (parts.map fold) :=
      fun _ => rfl
    have hsep : fold ['\\'] = ['\\'] := rfl
    change fold (['\\'] ++ c ++ text parts) = _
    rw [fold_append, fold_append, ih, hsep]
    rfl

def keyOf (s : Str) : List Str := (components s).map fold

/-- Windows reads the two paths alike: up to case, to repeated separators and to a trailing
one. -/
def SameKey (p q : Str) : Prop :=
  (p.head? = some '\\' ↔ q.head? = some '\\') ∧ keyOf p = keyOf q

def canonicalText (userSid : Option Str) (parts : List Str) : Str :=
  text (['R', 'e', 'g', 'i', 's', 't', 'r', 'y'] :: canonicalParts userSid parts)

variable {userSid : Option Str} {part : Str}

theorem canonical_eq_ok {p c : Str} : canonical p userSid = .ok c ↔
    p.head? = some '\\' ∧ ∃ r parts, components p = r :: parts ∧ fold r = registry ∧
      c = canonicalText userSid parts := by
  unfold canonical
  cases components p with
  | nil => simp
  | cons r parts =>
    simp only [cons.injEq]
    by_cases hok : p.head? = some '\\' ∧ fold r = registry
    · rw [if_pos hok]
      constructor
      · intro h
        cases h
        exact ⟨hok.1, r, parts, ⟨rfl, rfl⟩, hok.2, rfl⟩
      · rintro ⟨-, r', parts', ⟨rfl, rfl⟩, -, rfl⟩
        rfl
    · rw [if_neg hok]
      constructor
      · intro h
        cases h
      · rintro ⟨hhead, r', parts', ⟨rfl, rfl⟩, hr, -⟩
        exact absurd ⟨hhead, hr⟩ hok

/-! ## One component -/

theorem fold_spellHive (part : Str) : fold (spellHive part) = fold part := by
  unfold spellHive
  split_ifs with hmachine huser
  · rw [hmachine]
    rfl
  · rw [huser]
    rfl
  · rfl

theorem spellHive_idem (part : Str) : spellHive (spellHive part) = spellHive part := by
  conv_lhs => rw [spellHive, fold_spellHive]
  unfold spellHive
  split_ifs <;> rfl

theorem isName_spellHive (h : IsName part) : IsName (spellHive part) := by
  unfold spellHive
  split_ifs
  · exact ⟨by decide, by decide⟩
  · exact ⟨by decide, by decide⟩
  · exact h

theorem isName_sidToSymbol (h : IsName part) (userSid : Option Str) :
    IsName (sidToSymbol part userSid) := by
  cases userSid with
  | none => exact h
  | some sid =>
    unfold sidToSymbol
    dsimp only
    split_ifs
    · exact ⟨by decide, by decide⟩
    · exact ⟨by decide, by decide⟩
    · exact h

theorem IsSid.fold_ne (h : IsSid s) (x rest : Str) : fold s ++ x ≠ fold currentUser ++ rest := by
  obtain ⟨tail, rfl⟩ := h.head
  have hfold : fold ('S' :: '-' :: tail) = 's' :: '-' :: fold tail := fold_append ['S', '-'] tail
  have hsymbol : fold currentUser ++ rest = '<' :: ((fold currentUser).drop 1 ++ rest) := rfl
  rw [hfold, hsymbol]
  intro heq
  exact absurd (cons.inj heq).1 (by decide)

omit [ToLowercase] in
theorem isName_of_isSid (h : IsSid s) : IsName s := by
  refine ⟨?_, h.separator⟩
  obtain ⟨tail, rfl⟩ := h.head
  exact cons_ne_nil _ _

/-- What the substitution does to a folded component. -/
def foldedSymbol (userSid : Option Str) (f : Str) : Str :=
  match userSid with
  | some sid =>
    if f = fold sid then fold currentUser
    else if f = fold sid ++ fold classes then fold currentUser ++ fold classes
    else f
  | none => f

theorem foldedSymbol_some (s f : Str) : foldedSymbol (some s) f =
    if f = fold s then fold currentUser
    else if f = fold s ++ fold classes then fold currentUser ++ fold classes
    else f := rfl

theorem fold_sidToSymbol (part : Str) (userSid : Option Str) :
    fold (sidToSymbol part userSid) = foldedSymbol userSid (fold part) := by
  cases userSid with
  | none => rfl
  | some sid =>
    unfold sidToSymbol foldedSymbol
    dsimp only
    split_ifs
    · rfl
    · exact fold_append _ _
    · rfl

theorem sidToSymbol_symbol {sid : Str} (hsid : IsSid sid)
    (hpart : part = currentUser ∨ part = currentUser ++ classes) :
    sidToSymbol part (some sid) = part := by
  obtain ⟨rest, hrest⟩ : ∃ rest, fold part = fold currentUser ++ rest := by
    rcases hpart with rfl | rfl
    · exact ⟨[], (append_nil _).symm⟩
    · exact ⟨fold classes, fold_append _ _⟩
  have hsid₁ : fold part ≠ fold sid := by
    rw [hrest]
    intro heq
    exact hsid.fold_ne [] rest (by rw [append_nil, heq])
  have hsid₂ : fold part ≠ fold sid ++ fold classes := by
    rw [hrest]
    exact fun heq => hsid.fold_ne _ rest heq.symm
  unfold sidToSymbol
  dsimp only
  rw [if_neg hsid₁, if_neg hsid₂]

theorem sidToSymbol_idem (hsid : ∀ s ∈ userSid, IsSid s) (part : Str) :
    sidToSymbol (sidToSymbol part userSid) userSid = sidToSymbol part userSid := by
  cases userSid with
  | none => rfl
  | some sid =>
    have hs := hsid sid rfl
    by_cases h₁ : fold part = fold sid
    · have hself : sidToSymbol part (some sid) = currentUser := if_pos h₁
      rw [hself, sidToSymbol_symbol hs (Or.inl rfl)]
    · by_cases h₂ : fold part = fold sid ++ fold classes
      · have hclasses : sidToSymbol part (some sid) = currentUser ++ classes :=
          (if_neg h₁).trans (if_pos h₂)
        rw [hclasses, sidToSymbol_symbol hs (Or.inr rfl)]
      · have hother : sidToSymbol part (some sid) = part := (if_neg h₁).trans (if_neg h₂)
        rw [hother, hother]

theorem sidToSymbol_sid (sid : Str) : sidToSymbol sid (some sid) = currentUser := if_pos rfl

theorem sidToSymbol_sid_classes (sid : Str) :
    sidToSymbol (sid ++ classes) (some sid) = currentUser ++ classes := by
  have hne : fold (sid ++ classes) ≠ fold sid := by
    rw [fold_append]
    intro heq
    have hnil := append_right_eq_self.mp heq
    exact absurd (fold_eq_nil.mp hnil) (by decide)
  exact (if_neg hne).trans (if_pos (fold_append _ _))

/-! ## All of them -/

theorem isName_canonicalParts (h : ∀ c ∈ parts, IsName c) :
    ∀ c ∈ canonicalParts userSid parts, IsName c := by
  rcases parts with _ | ⟨hive, _ | ⟨sub, rest⟩⟩
  · exact h
  · intro c hc
    rw [canonicalParts, mem_singleton] at hc
    rw [hc]
    exact isName_spellHive (h hive (by simp))
  · intro c hc
    rw [canonicalParts, mem_cons, mem_cons] at hc
    rcases hc with rfl | rfl | hc
    · exact isName_spellHive (h hive (by simp))
    · split_ifs
      · exact isName_sidToSymbol (h sub (by simp)) userSid
      · exact h sub (by simp)
    · exact h c (by simp [hc])

theorem canonicalParts_idem (hsid : ∀ s ∈ userSid, IsSid s)
    (parts : List Str) :
    canonicalParts userSid (canonicalParts userSid parts) = canonicalParts userSid parts := by
  rcases parts with _ | ⟨hive, _ | ⟨sub, rest⟩⟩
  · rfl
  · simp only [canonicalParts, spellHive_idem]
  · simp only [canonicalParts, spellHive_idem, fold_spellHive]
    by_cases huser : fold hive = user
    · simp only [if_pos huser, sidToSymbol_idem hsid]
    · simp only [if_neg huser]

/-- What the substitution does to a folded path below `\Registry`. -/
def symbolised (userSid : Option Str) : List Str → List Str
  | hive :: sub :: rest => hive :: (if hive = user then foldedSymbol userSid sub else sub) :: rest
  | short => short

theorem map_fold_canonicalParts (userSid : Option Str) (parts : List Str) :
    (canonicalParts userSid parts).map fold = symbolised userSid (parts.map fold) := by
  rcases parts with _ | ⟨hive, _ | ⟨sub, rest⟩⟩
  · rfl
  · simp [canonicalParts, symbolised, fold_spellHive]
  · simp only [canonicalParts, symbolised, map_cons, fold_spellHive]
    split_ifs
    · rw [fold_sidToSymbol]
    · rfl

/-! ## There and back -/

theorem ntPart_far (userHive : Bool) (userSid : Option Str) {i : ℕ} (hi : 4 ≤ i) (part : Str) :
    ntPart userHive userSid i part = part := by
  have h₁ : i ≠ 1 := by omega
  have h₂ : i ≠ 2 := by omega
  have h₃ : i ≠ 3 := by omega
  cases userSid <;> simp [ntPart, h₁, h₂, h₃]

theorem ntPart_two (userHive : Bool) (userSid : Option Str) (part : Str) :
    ntPart userHive userSid 2 part =
      if fold part = machine then ['M', 'A', 'C', 'H', 'I', 'N', 'E']
      else if fold part = user then ['U', 'S', 'E', 'R']
      else part := by
  cases userSid <;> simp [ntPart]

theorem fold_ntPart_two (userHive : Bool) (userSid : Option Str) (part : Str) :
    fold (ntPart userHive userSid 2 part) = fold part := by
  rw [ntPart_two]
  split_ifs with hmachine huser
  · rw [hmachine]
    rfl
  · rw [huser]
    rfl
  · rfl

theorem spellHive_ntPart (userHive : Bool) (userSid : Option Str) (hive : Str) :
    spellHive (ntPart userHive userSid 2 (spellHive hive)) = spellHive hive := by
  conv_lhs => rw [spellHive, fold_ntPart_two, ntPart_two, fold_spellHive]
  unfold spellHive
  split_ifs <;> rfl

theorem sidToSymbol_ntPart (hsid : ∀ s ∈ userSid, IsSid s) (sub : Str) :
    sidToSymbol (ntPart true userSid 3 (sidToSymbol sub userSid)) userSid =
      sidToSymbol sub userSid := by
  cases userSid with
  | none => simp [ntPart, sidToSymbol]
  | some sid =>
    set part := sidToSymbol sub (some sid) with hpart
    by_cases h₁ : part = currentUser
    · have hnt : ntPart true (some sid) 3 part = sid := by simp [ntPart, h₁]
      rw [hnt, sidToSymbol_sid, h₁]
    · by_cases h₂ : part = currentUser ++ classes
      · have hnt : ntPart true (some sid) 3 part = sid ++ classes := by
          have hne : currentUser ++ classes ≠ currentUser := by decide
          simp [ntPart, h₂, hne]
        rw [hnt, sidToSymbol_sid_classes, h₂]
      · have hnt : ntPart true (some sid) 3 part = part := by simp [ntPart, h₁, h₂]
        rw [hnt, hpart, sidToSymbol_idem hsid]

theorem canonicalParts_ntParts (hsid : ∀ s ∈ userSid, IsSid s)
    (parts : List Str) :
    canonicalParts userSid ((canonicalParts userSid parts).mapIdx fun i =>
      ntPart (((canonicalParts userSid parts).head?).any fun p => fold p = user) userSid (i + 2)) =
      canonicalParts userSid parts := by
  rcases parts with _ | ⟨hive, _ | ⟨sub, rest⟩⟩
  · rfl
  · simp [canonicalParts, spellHive_ntPart]
  · have hrest : ∀ b, (rest.mapIdx fun i => ntPart b userSid (i + 1 + 1 + 2)) = rest := by
      intro b
      apply ext_getElem?
      intro i
      rw [getElem?_mapIdx]
      cases rest[i]? with
      | none => rfl
      | some part => exact congrArg some (ntPart_far b userSid (by omega) part)
    simp only [canonicalParts, mapIdx_cons, hrest, head?_cons, Option.any_some,
      fold_spellHive, Nat.zero_add]
    rw [spellHive_ntPart, fold_ntPart_two, fold_spellHive]
    by_cases huser : fold hive = user
    · simp only [huser, if_true, decide_true]
      rw [sidToSymbol_ntPart hsid]
    · have hplain : ntPart false userSid 3 sub = sub := by cases userSid <;> simp [ntPart]
      simp [huser, hplain]

theorem isName_ntPart (hsid : ∀ s ∈ userSid, IsSid s)
    (h : IsName part) (userHive : Bool) (i : ℕ) : IsName (ntPart userHive userSid i part) := by
  unfold ntPart
  cases userSid with
  | none =>
    dsimp only
    split_ifs
    · exact ⟨by decide, by decide⟩
    · exact ⟨by decide, by decide⟩
    · exact ⟨by decide, by decide⟩
    · exact h
  | some sid =>
    have hname := isName_of_isSid (hsid sid rfl)
    have hsep : '\\' ∉ classes := by decide
    dsimp only
    split_ifs
    · exact ⟨by decide, by decide⟩
    · exact ⟨by decide, by decide⟩
    · exact ⟨by decide, by decide⟩
    · exact hname
    · exact ⟨fun hnil => hname.1 (append_eq_nil_iff.mp hnil).1,
        fun hmem => (mem_append.mp hmem).elim hname.2 hsep⟩
    · exact h

theorem toNt_canonicalText (h : ∀ c ∈ parts, IsName c) (userSid : Option Str) :
    toNt (canonicalText userSid parts) userSid =
      text (['R', 'E', 'G', 'I', 'S', 'T', 'R', 'Y'] ::
        (canonicalParts userSid parts).mapIdx fun i =>
          ntPart (((canonicalParts userSid parts).head?).any fun p => fold p = user) userSid
            (i + 2)) := by
  have hpieces : pieces (canonicalText userSid parts) =
      [] :: ['R', 'e', 'g', 'i', 's', 't', 'r', 'y'] :: canonicalParts userSid parts := by
    refine pieces_text fun c hc => ?_
    rcases mem_cons.mp hc with rfl | hc
    · decide
    · exact (isName_canonicalParts h c hc).2
  have hlead : ∀ b, ntPart b userSid 0 [] = [] := by
    intro b
    cases userSid <;> simp [ntPart]
  have hroot : ∀ b, ntPart b userSid 1 ['R', 'e', 'g', 'i', 's', 't', 'r', 'y'] =
      ['R', 'E', 'G', 'I', 'S', 'T', 'R', 'Y'] := fun b => if_pos ⟨rfl, rfl⟩
  have hthird : ([] :: ['R', 'e', 'g', 'i', 's', 't', 'r', 'y'] :: canonicalParts userSid parts)[2]? =
      (canonicalParts userSid parts).head? := by
    cases canonicalParts userSid parts <;> rfl
  unfold toNt
  rw [hpieces, text_eq_intercalate]
  simp only [hthird, mapIdx_cons, hlead, hroot, Nat.zero_add]

/-- Two folded keys that differ only in how they name the user: one by the SID, the other by the
symbol that stands for it. -/
inductive Aliased (userSid : Option Str) : List Str → List Str → Prop
  | hive (s : Str) (rest : List Str) (h : userSid = some s) :
      Aliased userSid (registry :: user :: fold s :: rest)
        (registry :: user :: fold currentUser :: rest)
  | classes (s : Str) (rest : List Str) (h : userSid = some s) :
      Aliased userSid (registry :: user :: (fold s ++ fold classes) :: rest)
        (registry :: user :: (fold currentUser ++ fold classes) :: rest)

theorem foldedSymbol_eq_iff (hsid : IsSid s) (a b : Str) :
    foldedSymbol (some s) a = foldedSymbol (some s) b ↔ a = b ∨
      (a = fold s ∧ b = fold currentUser) ∨ (b = fold s ∧ a = fold currentUser) ∨
      (a = fold s ++ fold classes ∧ b = fold currentUser ++ fold classes) ∨
      (b = fold s ++ fold classes ∧ a = fold currentUser ++ fold classes) := by
  have h₁ := hsid.fold_ne [] []
  have h₂ := hsid.fold_ne [] (fold classes)
  have h₃ := hsid.fold_ne (fold classes) []
  have h₄ := hsid.fold_ne (fold classes) (fold classes)
  have hself : ∀ x : Str, x ++ fold classes ≠ x := by
    intro x hx
    exact absurd (fold_eq_nil.mp (append_right_eq_self.mp hx)) (by decide)
  have h₅ := hself (fold s)
  have h₆ := hself (fold currentUser)
  simp only [append_nil] at h₁ h₂ h₃
  rw [foldedSymbol_some, foldedSymbol_some]
  generalize fold s ++ fold classes = sc at *
  generalize fold currentUser ++ fold classes = yc at *
  generalize fold s = f at *
  generalize fold currentUser = y at *
  split_ifs <;> grind

theorem aliased_iff :
    Aliased userSid (registry :: a) (registry :: b) ↔ ∃ s x y rest, userSid = some s ∧
      a = user :: x :: rest ∧ b = user :: y :: rest ∧
      (x = fold s ∧ y = fold currentUser ∨
        x = fold s ++ fold classes ∧ y = fold currentUser ++ fold classes) := by
  constructor
  · intro h
    cases h with
    | hive s rest h => exact ⟨s, _, _, rest, h, rfl, rfl, Or.inl ⟨rfl, rfl⟩⟩
    | classes s rest h => exact ⟨s, _, _, rest, h, rfl, rfl, Or.inr ⟨rfl, rfl⟩⟩
  · rintro ⟨s, x, y, rest, h, rfl, rfl, ⟨rfl, rfl⟩ | ⟨rfl, rfl⟩⟩
    · exact .hive s rest h
    · exact .classes s rest h

theorem symbolised_eq_iff (hsid : ∀ s ∈ userSid, IsSid s) (a b : List Str) :
    symbolised userSid a = symbolised userSid b ↔
      a = b ∨ Aliased userSid (registry :: a) (registry :: b) ∨
        Aliased userSid (registry :: b) (registry :: a) := by
  rw [aliased_iff, aliased_iff]
  rcases a with _ | ⟨h₁, _ | ⟨s₁, rest₁⟩⟩
  · rcases b with _ | ⟨h₂, _ | ⟨s₂, rest₂⟩⟩ <;> simp [symbolised]
  · rcases b with _ | ⟨h₂, _ | ⟨s₂, rest₂⟩⟩ <;> simp [symbolised]
  · rcases b with _ | ⟨h₂, _ | ⟨s₂, rest₂⟩⟩
    · simp [symbolised]
    · simp [symbolised]
    · cases userSid with
      | none => simp [symbolised, foldedSymbol]
      | some s =>
        have hfolded := foldedSymbol_eq_iff (hsid s rfl) s₁ s₂
        simp only [symbolised, cons.injEq, Option.some.injEq]
        constructor
        · rintro ⟨rfl, hsub, rfl⟩
          split_ifs at hsub with huser
          · subst huser
            rcases hfolded.mp hsub with rfl | h | h | h | h
            · exact Or.inl ⟨rfl, rfl, rfl⟩
            · exact Or.inr (Or.inl ⟨s, s₁, s₂, _, rfl, ⟨rfl, rfl, rfl⟩, ⟨rfl, rfl, rfl⟩, Or.inl h⟩)
            · exact Or.inr (Or.inr ⟨s, s₂, s₁, _, rfl, ⟨rfl, rfl, rfl⟩, ⟨rfl, rfl, rfl⟩, Or.inl h⟩)
            · exact Or.inr (Or.inl ⟨s, s₁, s₂, _, rfl, ⟨rfl, rfl, rfl⟩, ⟨rfl, rfl, rfl⟩, Or.inr h⟩)
            · exact Or.inr (Or.inr ⟨s, s₂, s₁, _, rfl, ⟨rfl, rfl, rfl⟩, ⟨rfl, rfl, rfl⟩, Or.inr h⟩)
          · exact Or.inl ⟨rfl, hsub, rfl⟩
        · rintro (⟨rfl, rfl, rfl⟩ | ⟨_, x, y, rest, rfl, ⟨rfl, rfl, rfl⟩, ⟨rfl, rfl, rfl⟩, h⟩ |
            ⟨_, x, y, rest, rfl, ⟨rfl, rfl, rfl⟩, ⟨rfl, rfl, rfl⟩, h⟩)
          · exact ⟨rfl, rfl, rfl⟩
          · refine ⟨rfl, ?_, rfl⟩
            rw [if_pos rfl, if_pos rfl]
            apply hfolded.mpr
            tauto
          · refine ⟨rfl, ?_, rfl⟩
            rw [if_pos rfl, if_pos rfl]
            apply hfolded.mpr
            tauto

omit [ToLowercase] in
theorem isName_mapIdx {f : ℕ → Str → Str} (hf : ∀ i c, IsName c → IsName (f i c)) {l : List Str}
    (h : ∀ c ∈ l, IsName c) : ∀ c ∈ l.mapIdx f, IsName c := by
  intro c hc
  obtain ⟨i, hi, rfl⟩ := mem_mapIdx.mp hc
  exact hf i _ (h _ (getElem_mem hi))

theorem canonical_text {r : Str} (hr : fold r = registry) (h : ∀ c ∈ parts, IsName c)
    (userSid : Option Str) :
    canonical (text (r :: parts)) userSid = .ok (canonicalText userSid parts) := by
  refine canonical_eq_ok.mpr ⟨rfl, r, parts, components_text ?_, hr, rfl⟩
  intro c hc
  rcases mem_cons.mp hc with rfl | hc
  · exact isName_registry hr
  · exact h c hc

theorem fold_canonicalText_eq_iff (userSid : Option Str) (ha : ∀ c ∈ a, IsName c)
    (hb : ∀ c ∈ b, IsName c) :
    fold (canonicalText userSid a) = fold (canonicalText userSid b) ↔
      symbolised userSid (a.map fold) = symbolised userSid (b.map fold) := by
  have hclean : ∀ {l : List Str}, (∀ c ∈ l, IsName c) → ∀ c ∈
      (['R', 'e', 'g', 'i', 's', 't', 'r', 'y'] :: canonicalParts userSid l).map fold, '\\' ∉ c := by
    intro l hl c hc
    obtain ⟨n, hn, rfl⟩ := mem_map.mp hc
    rw [separator_mem_fold]
    rcases mem_cons.mp hn with rfl | hn
    · decide
    · exact (isName_canonicalParts hl n hn).2
  rw [canonicalText, canonicalText, fold_text, fold_text, ← map_fold_canonicalParts,
    ← map_fold_canonicalParts]
  constructor
  · intro h
    exact (cons.inj (text_injective (hclean ha) (hclean hb) h)).2
  · intro h
    rw [map_cons, map_cons, h]

/-- For every SID, or none: a canonical path is its own canonical form and that of its NT
spelling; and the canonical forms of two paths fold to the same text exactly when the paths name
the same key, or one of them spells the symbol where the other has the user's SID. -/
theorem canonical_faithful {userSid : Option Str} (hsid : ∀ s ∈ userSid, IsSid s) :
    (∀ p c, canonical p userSid = .ok c →
      canonical c userSid = .ok c ∧ canonical (toNt c userSid) userSid = .ok c) ∧
    (∀ p q, SameKey p q → (canonical p userSid).map fold = (canonical q userSid).map fold) ∧
    ∀ p q c d, canonical p userSid = .ok c → canonical q userSid = .ok d →
      (fold c = fold d ↔ keyOf p = keyOf q ∨ Aliased userSid (keyOf p) (keyOf q) ∨
        Aliased userSid (keyOf q) (keyOf p)) := by
  refine ⟨?_, ?_, ?_⟩
  · intro p c hp
    obtain ⟨-, r, parts, hparts, hr, rfl⟩ := canonical_eq_ok.mp hp
    have hnames : ∀ n ∈ parts, IsName n := by
      intro n hn
      exact isName_of_mem_components (hparts ▸ mem_cons_of_mem r hn)
    have hcanonical : ∀ n ∈ canonicalParts userSid parts, IsName n :=
      isName_canonicalParts hnames
    constructor
    · refine (canonical_text rfl hcanonical userSid).trans ?_
      rw [canonicalText, canonicalParts_idem hsid]
      rfl
    · rw [toNt_canonicalText hnames, canonical_text rfl]
      · rw [canonicalText, canonicalParts_ntParts hsid]
        rfl
      · exact isName_mapIdx (fun i c hc => isName_ntPart hsid hc _ _) hcanonical
  · rintro p q ⟨hhead, hkey⟩
    unfold keyOf at hkey
    unfold canonical
    cases hp : components p with
    | nil =>
      rw [hp, map_nil, eq_comm, map_eq_nil_iff] at hkey
      rw [hkey]
    | cons r parts =>
      cases hq : components q with
      | nil =>
        rw [hp, hq] at hkey
        cases hkey
      | cons r' parts' =>
        rw [hp, hq, map_cons, map_cons, cons.injEq] at hkey
        obtain ⟨hr, hparts⟩ := hkey
        have hcond : p.head? = some '\\' ∧ fold r = registry ↔
            q.head? = some '\\' ∧ fold r' = registry := by rw [hhead, hr]
        dsimp only
        rw [if_congr hcond rfl rfl]
        split_ifs
        · have hfold := (fold_canonicalText_eq_iff userSid
            (fun n hn => isName_of_mem_components (hp ▸ mem_cons_of_mem r hn))
            (fun n hn => isName_of_mem_components (hq ▸ mem_cons_of_mem r' hn))).mpr
              (by rw [hparts])
          exact congrArg Except.ok hfold
        · rfl
  · intro p q c d hc hd
    obtain ⟨-, r, a, ha, hr, rfl⟩ := canonical_eq_ok.mp hc
    obtain ⟨-, r', b, hb, hr', rfl⟩ := canonical_eq_ok.mp hd
    have hkp : keyOf p = registry :: a.map fold := by rw [keyOf, ha, map_cons, hr]
    have hkq : keyOf q = registry :: b.map fold := by rw [keyOf, hb, map_cons, hr']
    rw [fold_canonicalText_eq_iff userSid
      (fun n hn => isName_of_mem_components (ha ▸ mem_cons_of_mem r hn))
      (fun n hn => isName_of_mem_components (hb ▸ mem_cons_of_mem r' hn)),
      symbolised_eq_iff hsid, hkp, hkq, cons.injEq]
    simp only [true_and]

end

def sidS1 : Str := ['S', '-', '1']

def hiveS1 : Str := text [['R', 'e', 'g', 'i', 's', 't', 'r', 'y'], ['U', 's', 'e', 'r'], sidS1]

def hiveSymbol : Str :=
  text [['R', 'e', 'g', 'i', 's', 't', 'r', 'y'], ['U', 's', 'e', 'r'], currentUser]

theorem isSid_sidS1 : IsSid sidS1 := ⟨⟨['1'], rfl⟩, by decide⟩

attribute [local instance] asciiLowercase

theorem canonical_faithful_sidS1 : canonical hiveS1 (some sidS1) = .ok hiveSymbol ∧
    canonical (toNt hiveSymbol (some sidS1)) (some sidS1) = .ok hiveSymbol := by
  have hcanonical : canonical hiveS1 (some sidS1) = .ok hiveSymbol := by decide +kernel
  have hsid : ∀ s ∈ some sidS1, IsSid s := by
    intro s hs
    cases hs
    exact isSid_sidS1
  exact ⟨hcanonical, ((canonical_faithful hsid).1 hiveS1 hiveSymbol hcanonical).2⟩

/-- A hive that is loaded under the name of the symbol is another key than the user's, and gets
the same canonical path. -/
theorem canonical_symbol_collides :
    keyOf hiveS1 ≠ keyOf hiveSymbol ∧ canonical hiveS1 (some sidS1) = .ok hiveSymbol ∧
      canonical hiveSymbol (some sidS1) = .ok hiveSymbol := by
  refine ⟨?_, ?_, ?_⟩
  · decide +kernel
  · decide +kernel
  · decide +kernel

end AetherVfs.Registry
