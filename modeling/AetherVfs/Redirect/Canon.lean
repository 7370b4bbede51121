import AetherVfs.Core.Path
import Mathlib.Data.List.DropRight

/-!
# Canonical open paths

`canonicalise` of `vfs-redirect/src/canon.rs` brings the spellings of an open path to one: the
stream suffix is cut, aliases and object-manager prefixes are peeled off, trailing dots and spaces
go, and `..` is resolved, below the drive if the path has one. Each pass runs once, in that order.
The result is a list of plain names. Another run gives it back if it finds nothing to do in it: no
stream, no alias and no drive without its root.
-/

namespace AetherVfs

open List

/-! ## `normalize_vpath` -/

inductive PathError
  | escapesRoot
  | emptyRoot
  deriving DecidableEq

/-- The components of a path, at either separator. -/
def splitPath (s : Str) : List Str := s.splitOnP isSep

/-- One component in the loops that resolve dots, over those kept so far. -/
def clampStep (out : List Str) (c : Str) : List Str :=
  if c = [] ∨ c = ['.'] then out else if c = ['.', '.'] then out.dropLast else out ++ [c]

def normalizeStep (out : List Str) (c : Str) : Except PathError (List Str) :=
  if c = ['.', '.'] ∧ out = [] then .error .escapesRoot else .ok (clampStep out c)

def longPrefixes : List Str :=
  [['\\', '?', '?', '\\'], ['\\', '\\', '?', '\\'], ['/', '?', '?', '/'], ['/', '/', '?', '/']]

def stripLong (raw : Str) : Str := if longPrefixes.any (·.isPrefixOf raw) then raw.drop 4 else raw

def normalizeVpath (raw : Str) : Except PathError Str :=
  ((splitPath (stripLong raw)).foldlM normalizeStep []).map joined

namespace Redirect

variable [ToLowercase]

/-! ## Aliases -/

structure VolumeMap where
  /-- A prefix and the text that replaces it. -/
  entries : List (Str × Str)

def utf8Len (s : Str) : ℕ := (s.map Char.utf8Size).sum

/-- `path.get(..n)` and the rest: the path cut after `n` bytes, where a character ends. -/
def splitBytes : ℕ → Str → Option (Str × Str)
  | 0, s => some ([], s)
  | _ + 1, [] => none
  | n + 1, c :: s =>
    if n + 1 < c.utf8Size then none
    else (splitBytes (n + 1 - c.utf8Size) s).map fun r => (c :: r.1, r.2)

/-- One entry in the loop of `VolumeMap::resolve`. -/
def VolumeMap.consider (path : Str) (best : Option (Str × ℕ)) (e : Str × Str) : Option (Str × ℕ) :=
  match splitBytes (utf8Len e.1) path with
  | none => best
  | some (candidate, rest) =>
    if fold candidate ≠ fold e.1 then best
    else if rest ≠ [] ∧ rest.head?.any isSep = false then best
    else if best.all fun b => b.2 < utf8Len e.1 then some (e.2, utf8Len e.1)
    else best

/-- The replacement of the longest prefix that matches, and the length it has in bytes. -/
def VolumeMap.resolve (volumes : VolumeMap) (path : Str) : Option (Str × ℕ) :=
  volumes.entries.foldl (VolumeMap.consider path) none

def resolveAlias (path : Str) (volumes : VolumeMap) : Option Str :=
  (volumes.resolve path).bind fun b => (splitBytes b.2 path).map fun r => b.1 ++ r.2

/-! ## Prefixes -/

inductive Namespace
  | dosDevicesCanonical
  | dosDevicesAliased
  | elsewhere
  deriving DecidableEq

def namespaceTokens : List (Str × Namespace) :=
  [(['?'], .elsewhere), (['?', '?'], .dosDevicesCanonical),
    ("GLOBAL??".toList, .dosDevicesAliased), ("Global".toList, .dosDevicesAliased),
    ("GLOBALROOT".toList, .elsewhere)]

def eqIgnoreAsciiCase (a b : Str) : Bool := a.map Char.toLower = b.map Char.toLower

def stripOneNamespaceToken (s : Str) : Option (Str × Namespace) :=
  let body := s.dropWhile isSep
  if body.length = s.length then none
  else
    (namespaceTokens.find? fun t => eqIgnoreAsciiCase t.1 (body.takeWhile (!isSep ·))).map
      fun t => (body.dropWhile (!isSep ·), t.2)

/-- The loop of `strip_all_nt_prefixes`; a token shortens the path, so its length is enough. -/
def stripAllLoop : ℕ → Str → Str
  | 0, s => s
  | n + 1, s =>
    match stripOneNamespaceToken s with
    | some (rest, _) => stripAllLoop n rest
    | none => s

def stripAllNtPrefixes (s : Str) : Str := (stripAllLoop s.length s).dropWhile isSep

/-- The loop of `resolve_aliases_and_strip_prefixes`, over the steps left. -/
def peelLoop (volumes : VolumeMap) : ℕ → Str → Bool → Str
  | 0, cur, _ => cur
  | n + 1, cur, respell =>
    match resolveAlias cur volumes with
    | some next => peelLoop volumes n next false
    | none =>
      match if respell then resolveAlias (['\\', '?', '?'] ++ cur) volumes else none with
      | some next => peelLoop volumes n next false
      | none =>
        match stripOneNamespaceToken cur with
        | some (rest, ns) => peelLoop volumes n rest (ns = .dosDevicesAliased)
        | none => cur

def maxPrefixSteps : ℕ := 16

def resolveAliasesAndStripPrefixes (path : Str) (volumes : VolumeMap) : Str :=
  (peelLoop volumes maxPrefixSteps path false).dropWhile isSep

/-! ## The passes -/

/-- The last component up to the colon of a stream; the colon of a drive is none. -/
def cutStream : Str → Str
  | c :: ':' :: s => if c.isAlpha then c :: ':' :: s.takeWhile (· ≠ ':')
    else (c :: ':' :: s).takeWhile (· ≠ ':')
  | s => s.takeWhile (· ≠ ':')

def stripStreamSuffix (raw : Str) : Str :=
  raw.rdropWhile (!isSep ·) ++ cutStream (raw.rtakeWhile (!isSep ·))

def isPunct (c : Char) : Bool := c = '.' || c = ' '

def trimComponent (c : Str) : Str :=
  if c = ['.'] ∨ c = ['.', '.'] then c else c.rdropWhile isPunct

def stripTrailingPunctuation (path : Str) : Str := joined ((splitPath path).map trimComponent)

def isDriveRelative : Str → Bool
  | c :: ':' :: d :: _ => c.isAlpha && !isSep d
  | _ => false

def isDriveComponent : Str → Bool
  | [c, ':'] => c.isAlpha
  | _ => false

def clampDotdot (remainder : Str) : Str := joined ((splitPath remainder).foldl clampStep [])

/-- `s.split_once('/')`. -/
def splitOnce (s : Str) : Option (Str × Str) :=
  match s.dropWhile (· ≠ '/') with
  | [] => none
  | _ :: rest => some (s.takeWhile (· ≠ '/'), rest)

/-- The path without its stream and its wrapper, as the later passes of `canonicalise` see it. -/
def unprefixed (raw : Str) (volumes : VolumeMap) : Str :=
  stripAllNtPrefixes (resolveAliasesAndStripPrefixes (stripStreamSuffix raw) volumes)

/-- The passes of `canonicalise` over a path without a wrapper. -/
def finish (path : Str) : Except PathError Str :=
  if isDriveRelative path then .error .escapesRoot
  else
    let trimmed := stripTrailingPunctuation path
    match splitOnce trimmed with
    | some (drive, rest) =>
      if isDriveComponent drive then normalizeVpath (drive ++ '/' :: clampDotdot rest)
      else normalizeVpath trimmed
    | none => normalizeVpath trimmed

def canonicalise (raw : Str) (volumes : VolumeMap) : Except PathError Str :=
  finish (unprefixed raw volumes)

end Redirect

/-! ## Dots -/

/-- A component that the loops keep. -/
def Kept (c : Str) : Prop := c ≠ [] ∧ c ≠ ['.'] ∧ c ≠ ['.', '.']

variable {cs out : List Str} {raw c : Str}

theorem foldl_clampStep_of_kept (h : ∀ c ∈ cs, Kept c) (out : List Str) :
    cs.foldl clampStep out = out ++ cs := by
  induction cs generalizing out with
  | nil => simp
  | cons c cs ih =>
    obtain ⟨hc, hcs⟩ := forall_mem_cons.mp h
    obtain ⟨h1, h2, h3⟩ := hc
    rw [foldl_cons, ih hcs]
    simp [clampStep, h1, h2, h3]

theorem mem_foldl_clampStep {d : Str} (h : d ∈ cs.foldl clampStep out) :
    d ∈ out ∨ d ∈ cs ∧ Kept d := by
  induction cs generalizing out with
  | nil => exact .inl h
  | cons c cs ih =>
    rcases ih h with hd | ⟨hd, hk⟩
    · have hmem : d ∈ out.dropLast → d ∈ out := mem_of_mem_dropLast
      grind [clampStep, Kept]
    · exact .inr ⟨mem_cons_of_mem _ hd, hk⟩

theorem foldlM_normalizeStep {out' : List Str} (h : cs.foldlM normalizeStep out = .ok out') :
    out' = cs.foldl clampStep out := by
  induction cs generalizing out with
  | nil => exact (Except.ok.inj h).symm
  | cons c cs ih =>
    rw [foldlM_cons, normalizeStep] at h
    split_ifs at h with hc
    · cases h
    · exact ih h

theorem foldlM_normalizeStep_of_kept (h : ∀ c ∈ cs, Kept c) (out : List Str) :
    cs.foldlM normalizeStep out = .ok (out ++ cs) := by
  induction cs generalizing out with
  | nil => simp; rfl
  | cons c cs ih =>
    obtain ⟨hc, hcs⟩ := forall_mem_cons.mp h
    have hstep : normalizeStep out c = .ok (out ++ [c]) := by
      simp [normalizeStep, clampStep, hc.1, hc.2.1, hc.2.2]
    rw [foldlM_cons, hstep]
    exact (ih hcs (out ++ [c])).trans (by simp)

theorem exists_of_map_eq_ok {ε α β : Type} {f : α → β} {x : Except ε α} {b : β}
    (h : x.map f = .ok b) : ∃ a, x = .ok a ∧ f a = b := by
  cases x with
  | error e => cases h
  | ok a => exact ⟨a, rfl, Except.ok.inj h⟩

/-! ## Splitting and joining -/

theorem splitPath_joined (h : ∀ c ∈ cs, ∀ a ∈ c, isSep a = false) (hne : cs ≠ []) :
    splitPath (joined cs) = cs := by
  induction cs with
  | nil => exact absurd rfl hne
  | cons c cs ih =>
    obtain ⟨hc, hcs⟩ := forall_mem_cons.mp h
    cases cs with
    | nil => simpa [joined, splitPath] using splitOnP_eq_singleton hc
    | cons d cs =>
      rw [joined_cons_cons, splitPath, splitOnP_append_cons_of_forall_mem hc '/' rfl,
        ← splitPath, ih hcs (cons_ne_nil _ _)]

/-- A long-path prefix is a text of its own before the separator that ends it. -/
theorem splitPath_of_long (h : stripLong raw ≠ raw) : ∃ pre ∈ longPrefixes.map dropLast,
    splitPath raw = splitPath pre ++ splitPath (stripLong raw) := by
  have hcut : ∃ pre ∈ longPrefixes.map dropLast, ∃ sep, isSep sep = true ∧
      raw = pre ++ sep :: stripLong raw := by
    unfold stripLong at h ⊢
    split_ifs at h ⊢ with hpre
    · simp only [longPrefixes, any_cons, any_nil, isPrefixOf_iff_prefix,
        Bool.or_eq_true, Bool.or_false] at hpre
      rcases hpre with ⟨t, rfl⟩ | ⟨t, rfl⟩ | ⟨t, rfl⟩ | ⟨t, rfl⟩
      · exact ⟨['\\', '?', '?'], by decide, '\\', rfl, rfl⟩
      · exact ⟨['\\', '\\', '?'], by decide, '\\', rfl, rfl⟩
      · exact ⟨['/', '?', '?'], by decide, '/', rfl, rfl⟩
      · exact ⟨['/', '/', '?'], by decide, '/', rfl, rfl⟩
    · exact absurd rfl h
  obtain ⟨pre, hpre, sep, hsep, hraw⟩ := hcut
  refine ⟨pre, hpre, ?_⟩
  nth_rewrite 1 [hraw]
  rw [splitPath, splitOnP_append_cons _ _ hsep]
  rfl

theorem splitPath_stripLong (h : c ∈ splitPath (stripLong raw)) : c ∈ splitPath raw := by
  by_cases hlong : stripLong raw = raw
  · rwa [hlong] at h
  · obtain ⟨pre, -, hsplit⟩ := splitPath_of_long hlong
    rw [hsplit]
    exact mem_append_right _ h

theorem stripLong_of_head (h : raw.head?.any isSep = false) : stripLong raw = raw := by
  rw [stripLong, if_neg]
  intro hpre
  cases raw with
  | nil => exact absurd hpre (by decide)
  | cons a raw =>
    simp only [head?_cons, Option.any_some, isSep, Bool.or_eq_false_iff,
      decide_eq_false_iff_not] at h
    simp [longPrefixes, Ne.symm h.1, Ne.symm h.2] at hpre

theorem head_joined (hne : c ≠ []) (hc : ∀ a ∈ c, isSep a = false) :
    (joined (c :: cs)).head?.any isSep = false := by
  obtain ⟨a, s, rfl⟩ := exists_cons_of_ne_nil hne
  have ha := hc a mem_cons_self
  cases cs <;> simp [joined, intercalate_cons_cons, ha]

namespace Redirect

/-- A component of a result: kept by the loops, with no separator, no dot or space at its end. -/
structure Plain (c : Str) : Prop where
  ne_nil : c ≠ []
  noSep : ∀ a ∈ c, isSep a = false
  trimmed : c.rdropWhile isPunct = c

theorem Plain.kept (h : Plain c) : Kept c := by
  refine ⟨h.ne_nil, ?_, ?_⟩ <;> rintro rfl <;> exact absurd h.trimmed (by decide)

theorem Plain.trimComponent (h : Plain c) : trimComponent c = c := by
  rw [Redirect.trimComponent, if_neg (not_or.mpr h.kept.2), h.trimmed]

theorem plain_of_trimComponent (h : ∀ a ∈ c, isSep a = false) (hk : Kept (trimComponent c)) :
    Plain (trimComponent c) := by
  unfold trimComponent at hk ⊢
  split_ifs at hk ⊢ with hc
  · exact absurd hk (by rcases hc with rfl | rfl <;> simp [Kept])
  · exact ⟨hk.1, fun a ha => h a ((List.rdropWhile_prefix _ _).subset ha),
      rdropWhile_idempotent _ _⟩

/-- The trimmed components of a path. -/
def trimmedParts (path : Str) : List Str := (splitPath path).map trimComponent

theorem plain_of_mem_trimmedParts {path : Str} (h : c ∈ trimmedParts path) (hk : Kept c) :
    Plain c := by
  obtain ⟨d, hd, rfl⟩ := mem_map.mp h
  exact plain_of_trimComponent (eq_false_of_mem_splitOnP hd) hk

theorem isAlpha_not_sep {c : Char} (h : c.isAlpha = true) : isSep c = false := by
  rw [isSep, Bool.or_eq_false_iff, decide_eq_false_iff_not, decide_eq_false_iff_not]
  constructor <;> rintro rfl <;> exact absurd h (by decide)

theorem plain_of_isDriveComponent {d : Str} (h : isDriveComponent d = true) : Plain d := by
  unfold isDriveComponent at h
  split at h
  · next c =>
      refine ⟨cons_ne_nil _ _, ?_, ?_⟩
      · simp only [mem_cons, not_mem_nil, or_false]
        rintro a (rfl | rfl)
        · exact isAlpha_not_sep h
        · rfl
      · rw [rdropWhile_eq_self_iff]
        intro _
        simp [isPunct]
  · cases h

theorem head_of_plain (hc : Plain c) :
    (joined (c :: cs)).head?.any isSep = false := head_joined hc.ne_nil hc.noSep

theorem normalizeVpath_joined (h : ∀ c ∈ cs, Plain c) :
    normalizeVpath (joined cs) = .ok (joined cs) := by
  cases cs with
  | nil => rfl
  | cons c cs =>
    rw [normalizeVpath, stripLong_of_head (head_of_plain (h c mem_cons_self)),
      splitPath_joined (fun c hc => (h c hc).noSep) (cons_ne_nil _ _),
      foldlM_normalizeStep_of_kept fun c hc => (h c hc).kept]
    rfl

theorem normalizeVpath_drive {d : Str} {k : List Str} (hd : Plain d) (hk : ∀ c ∈ k, Plain c) :
    normalizeVpath (d ++ '/' :: joined k) = .ok (joined (d :: k)) := by
  cases k with
  | nil =>
    have hstep : [d, []].foldlM normalizeStep [] = .ok [d] := by
      rw [foldlM_cons, normalizeStep, if_neg fun h => hd.kept.2.2 h.1, clampStep,
        if_neg (not_or.mpr ⟨hd.kept.1, hd.kept.2.1⟩), if_neg hd.kept.2.2]
      rfl
    have hsplit : splitPath (joined [d, []]) = [d, []] :=
      splitPath_joined (by simpa using hd.noSep) (cons_ne_nil _ _)
    have hjoin : d ++ '/' :: joined [] = joined [d, []] := (joined_cons_cons d [] []).symm
    rw [hjoin, normalizeVpath, stripLong_of_head (head_of_plain hd), hsplit, hstep]
    rfl
  | cons e k =>
    rw [← joined_cons_cons]
    exact normalizeVpath_joined (forall_mem_cons.mpr ⟨hd, hk⟩)

theorem slash_notMem (hc : ∀ a ∈ c, isSep a = false) : '/' ∉ c :=
  fun hmem => absurd (hc _ hmem) (by decide)

theorem splitOnce_joined (hc : '/' ∉ c) :
    splitOnce (joined (c :: cs)) = if cs = [] then none else some (c, joined cs) := by
  have hslash : ∀ a ∈ c, decide (a ≠ '/') = true := fun a ha =>
    decide_eq_true fun heq => hc (heq ▸ ha)
  cases cs with
  | nil =>
    have hdrop : c.dropWhile (· ≠ '/') = [] := dropWhile_eq_nil_iff.mpr hslash
    simp only [splitOnce, joined, intercalate_singleton, hdrop]
    rfl
  | cons d cs =>
    have hdrop : (c ++ '/' :: joined (d :: cs)).dropWhile (· ≠ '/') = '/' :: joined (d :: cs) := by
      rw [dropWhile_append_of_pos hslash]
      rfl
    have htake : (c ++ '/' :: joined (d :: cs)).takeWhile (· ≠ '/') = c := by
      rw [takeWhile_append_of_pos hslash]
      simp
    rw [joined_cons_cons, splitOnce, hdrop, htake]
    rfl

section

variable {path d : Str} {cs : List Str}

theorem noSep_of_trimmedParts (h : c ∈ trimmedParts path) : ∀ a ∈ c, isSep a = false := by
  obtain ⟨d, hd, rfl⟩ := mem_map.mp h
  intro a ha
  refine eq_false_of_mem_splitOnP hd a ?_
  unfold trimComponent at ha
  split_ifs at ha
  · exact ha
  · exact (List.rdropWhile_prefix _ _).subset ha

theorem finish_drive (hrel : isDriveRelative path = false) (hparts : trimmedParts path = d :: cs)
    (hd : isDriveComponent d = true) :
    finish path = .ok (joined (d :: cs.foldl clampStep [])) := by
  have hplain := plain_of_isDriveComponent hd
  have hmem : ∀ {c}, c ∈ d :: cs → ∀ a ∈ c, isSep a = false := fun hc =>
    noSep_of_trimmedParts (hparts ▸ hc)
  have htrim : stripTrailingPunctuation path = joined (d :: cs) := congrArg joined hparts
  simp only [finish, hrel, htrim, splitOnce_joined (slash_notMem (hmem mem_cons_self))]
  by_cases hcs : cs = []
  · subst hcs
    exact normalizeVpath_joined (by simpa using hplain)
  · rw [if_neg hcs]
    simp only [hd, if_true, Bool.false_eq_true, if_false, clampDotdot]
    rw [splitPath_joined (fun c hc => hmem (mem_cons_of_mem _ hc)) hcs]
    refine normalizeVpath_drive hplain fun c hc => ?_
    obtain ⟨hc, hk⟩ := (mem_foldl_clampStep hc).resolve_left not_mem_nil
    exact plain_of_mem_trimmedParts (hparts ▸ mem_cons_of_mem _ hc) hk

theorem finish_other (hrel : isDriveRelative path = false) (hparts : trimmedParts path = d :: cs)
    (hd : isDriveComponent d = false) : finish path = normalizeVpath (joined (d :: cs)) := by
  have htrim : stripTrailingPunctuation path = joined (d :: cs) := congrArg joined hparts
  have hmem : d ∈ trimmedParts path := hparts ▸ mem_cons_self
  simp only [finish, hrel, htrim, splitOnce_joined (slash_notMem (noSep_of_trimmedParts hmem))]
  by_cases hcs : cs = [] <;> simp [hcs, hd]

/-- What comes out is plain, and a path on a drive stays on it. -/
theorem finish_spec {r : Str} (h : finish path = .ok r) : ∃ out, r = joined out ∧
    (∀ c ∈ out, Plain c) ∧ ∀ d, isDriveComponent d = true → (splitPath path).head? = some d →
      out.head? = some d := by
  have hrel : isDriveRelative path = false := by
    by_contra hrel
    rw [finish, if_pos (Bool.not_eq_false _ ▸ hrel)] at h
    cases h
  obtain ⟨c, cs, hsplit⟩ := exists_cons_of_ne_nil (splitOnP_ne_nil isSep path)
  have hparts : trimmedParts path = trimComponent c :: cs.map trimComponent := by
    rw [trimmedParts, splitPath, hsplit, map_cons]
  have hhead : ∀ d, isDriveComponent d = true → (splitPath path).head? = some d →
      trimComponent c = d := by
    intro d hd hc
    rw [splitPath, hsplit, head?_cons, Option.some.injEq] at hc
    rw [hc, (plain_of_isDriveComponent hd).trimComponent]
  cases hdrive : isDriveComponent (trimComponent c) with
  | true =>
    rw [finish_drive hrel hparts hdrive] at h
    refine ⟨_, (Except.ok.inj h).symm, ?_, fun d hd hc => by simp [hhead d hd hc]⟩
    refine forall_mem_cons.mpr ⟨plain_of_isDriveComponent hdrive, fun e he => ?_⟩
    obtain ⟨he, hk⟩ := (mem_foldl_clampStep he).resolve_left not_mem_nil
    exact plain_of_mem_trimmedParts (hparts ▸ mem_cons_of_mem _ he) hk
  | false =>
    rw [finish_other hrel hparts hdrive, normalizeVpath] at h
    obtain ⟨out, hout, rfl⟩ := exists_of_map_eq_ok h
    refine ⟨out, rfl, fun e he => ?_, fun d hd hc => ?_⟩
    · rw [foldlM_normalizeStep hout] at he
      obtain ⟨he, hk⟩ := (mem_foldl_clampStep he).resolve_left not_mem_nil
      have he := splitPath_stripLong he
      rw [← hparts, splitPath_joined (fun c hc => noSep_of_trimmedParts hc) (by simp [hparts])] at he
      exact plain_of_mem_trimmedParts he hk
    · rw [hhead d hd hc, hd] at hdrive
      cases hdrive

theorem finish_joined (h : ∀ c ∈ out, Plain c) (hrel : isDriveRelative (joined out) = false) :
    finish (joined out) = .ok (joined out) := by
  cases out with
  | nil => rfl
  | cons d cs =>
    have hparts : trimmedParts (joined (d :: cs)) = d :: cs := by
      rw [trimmedParts, splitPath_joined (fun c hc => (h c hc).noSep) (cons_ne_nil _ _)]
      exact (map_congr_left fun c hc => (h c hc).trimComponent).trans (map_id _)
    cases hd : isDriveComponent d with
    | true =>
      rw [finish_drive hrel hparts hd, foldl_clampStep_of_kept, nil_append]
      exact fun c hc => (h c (mem_cons_of_mem _ hc)).kept
    | false => rw [finish_other hrel hparts hd, normalizeVpath_joined h]

end

section

variable [ToLowercase] {raw r : Str} {volumes : VolumeMap}

/-- Where no stream, alias or leading separator is, there is nothing to peel off. -/
theorem unprefixed_eq_self (hstream : stripStreamSuffix r = r) (halias : volumes.resolve r = none)
    (hhead : r.head?.any isSep = false) : unprefixed r volumes = r := by
  have hdrop : r.dropWhile isSep = r := by cases r <;> simp_all
  have htoken : stripOneNamespaceToken r = none := by simp [stripOneNamespaceToken, hdrop]
  have hpeel : resolveAliasesAndStripPrefixes r volumes = r := by
    simp [resolveAliasesAndStripPrefixes, maxPrefixSteps, peelLoop, resolveAlias, halias, htoken,
      hdrop]
  have hall : stripAllLoop r.length r = r := by
    cases r <;> simp [stripAllLoop, htoken]
  rw [unprefixed, hstream, hpeel, stripAllNtPrefixes, hall, hdrop]

/-- Every result is a list of plain names, none of them empty, `.` or `..`; a path on a drive keeps
its drive; and the result is its own canonical form, unless it has a stream in its last name, an
alias or a drive without its root, which a second run would take up. -/
theorem canonicalise_normal_form (h : canonicalise raw volumes = .ok r) :
    (r ≠ [] → ∀ c ∈ splitPath r, c ≠ [] ∧ c ≠ ['.'] ∧ c ≠ ['.', '.']) ∧
    (∀ d, isDriveComponent d = true → (splitPath (unprefixed raw volumes)).head? = some d →
      (splitPath r).head? = some d) ∧
    (stripStreamSuffix r = r → volumes.resolve r = none → isDriveRelative r = false →
      canonicalise r volumes = .ok r) := by
  obtain ⟨out, rfl, hplain, hdrive⟩ := finish_spec h
  have hsplit : out ≠ [] → splitPath (joined out) = out :=
    splitPath_joined fun c hc => (hplain c hc).noSep
  refine ⟨fun hne c hc => ?_, fun d hd hhead => ?_, fun hstream halias hrel => ?_⟩
  · rw [hsplit (by rintro rfl; exact hne rfl)] at hc
    exact (hplain c hc).kept
  · have hout := hdrive d hd hhead
    rwa [hsplit (by rintro rfl; cases hout)]
  · have hhead : (joined out).head?.any isSep = false := by
      cases out with
      | nil => rfl
      | cons c cs => exact head_of_plain (hplain c mem_cons_self)
    rw [canonicalise, unprefixed_eq_self hstream halias hhead, finish_joined hplain hrel]

/-- With no alias at all: on the drive `C`, a name with a colon that `..` brings to the end. -/
def streamUncovered : Str := "C:\\ab:s\\c\\..".toList

/-- A drive without its root that `..` brings to the front. -/
def driveUncovered : Str := "x\\..\\C:foo".toList

end

attribute [local instance] asciiLowercase

theorem canonicalise_normal_form_plain :
    canonicalise "\\??\\C:\\Games\\.\\x\\..\\Data".toList ⟨[]⟩ =
        .ok "C:/Games/Data".toList ∧
      canonicalise "C:/Games/Data".toList ⟨[]⟩ = .ok "C:/Games/Data".toList := by
  have h : canonicalise "\\??\\C:\\Games\\.\\x\\..\\Data".toList ⟨[]⟩ =
      .ok "C:/Games/Data".toList := by decide +kernel
  exact ⟨h, (canonicalise_normal_form h).2.2 (by decide +kernel) rfl
    (by decide +kernel)⟩

/-- The second run cuts the stream that the first one uncovered, refuses the drive, or replaces the
alias. -/
theorem canonicalise_not_idempotent :
    canonicalise streamUncovered ⟨[]⟩ = .ok "C:/ab:s".toList ∧
      canonicalise "C:/ab:s".toList ⟨[]⟩ = .ok "C:/ab".toList ∧
      canonicalise driveUncovered ⟨[]⟩ = .ok "C:foo".toList ∧
      canonicalise "C:foo".toList ⟨[]⟩ = .error .escapesRoot ∧
      canonicalise "x\\..\\a\\b".toList ⟨[("a".toList, "C:/t".toList)]⟩ =
        .ok "a/b".toList ∧
      canonicalise "a/b".toList ⟨[("a".toList, "C:/t".toList)]⟩ =
        .ok "C:/t/b".toList := by
  decide +kernel

end Redirect

end AetherVfs
