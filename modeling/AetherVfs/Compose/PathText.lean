import AetherVfs.Compose.Memory
import AetherVfs.Compose.MountGraph
import AetherVfs.Redirect.Canon

/-!
# Paths as texts

`vfs-compose/src/path.rs` and `casefold.rs` read paths as strings, as `normalize_vpath` of
`vfs-core` does. The two normalizations are one loop over the components; they differ in the
long-path prefix, which only `normalize_vpath` takes off. Prefixes are compared component by
component, so that it does not matter that folding changes the length of a text.
-/

namespace AetherVfs.Compose.PathText

open List

def normalize (raw : Str) : Option Str :=
  if trimRel raw = [] then some [] else (normalizeFrom [] (trimRel raw)).map joined

/-! ## Normalizing -/

theorem normalizeFrom_dropWhile (out : VPath) (cs : List Str) :
    normalizeFrom out (cs.dropWhile fun c => c = []) = normalizeFrom out cs := by
  induction cs with
  | nil => rfl
  | cons c cs ih =>
    by_cases hc : c = []
    · rw [dropWhile_cons_of_pos (by simpa using hc), ih, normalizeFrom, if_pos (.inl hc)]
    · rw [dropWhile_cons_of_neg (by simpa using hc)]

theorem normalizeFrom_rdropWhile (out : VPath) (cs : List Str) :
    normalizeFrom out (cs.rdropWhile fun c => c = []) = normalizeFrom out cs := by
  induction cs using reverseRecOn with
  | nil => rfl
  | append_singleton cs c ih =>
    by_cases hc : c = []
    · rw [rdropWhile_concat_pos _ _ _ (by simpa using hc), ih, hc, normalizeFrom_append]
      exact (Option.bind_fun_some _).symm
    · rw [rdropWhile_concat_neg _ _ _ (by simpa using hc)]

theorem normalize_eq (raw : Str) :
    normalize raw = (normalizeFrom [] (splitPath raw)).map joined := by
  rw [splitPath, ← normalizeFrom_dropWhile, ← normalizeFrom_rdropWhile, ← trimRel, normalize]
  split_ifs with hraw
  · rw [hraw]
    rfl
  · rfl

theorem toOption_eq_some {ε α : Type} {x : Except ε α} {a : α} :
    x.toOption = some a ↔ x = .ok a := by
  cases x <;> simp [Except.toOption]

theorem normalizeFrom_eq (out : VPath) (cs : List Str) :
    normalizeFrom out cs = (cs.foldlM normalizeStep out).toOption := by
  induction cs generalizing out with
  | nil => rfl
  | cons c cs ih =>
    rw [normalizeFrom, foldlM_cons, normalizeStep, clampStep]
    by_cases hskip : c = [] ∨ c = ['.']
    · have hup : c ≠ ['.', '.'] := by rcases hskip with rfl | rfl <;> decide
      rw [if_pos hskip, if_neg fun h => hup h.1, if_pos hskip]
      exact ih out
    rw [if_neg hskip, if_neg hskip]
    by_cases hup : c = ['.', '.']
    · by_cases hout : out = []
      · rw [if_pos hup, if_pos hout, if_pos ⟨hup, hout⟩]
        rfl
      · rw [if_pos hup, if_neg hout, if_neg fun h => hout h.2, if_pos hup]
        exact ih _
    · rw [if_neg hup, if_neg fun h => hup h.1, if_neg hup]
      exact ih _

/-- Some front part of the path has more `..` than names. -/
def Climbs (cs : List Str) : Prop :=
  ∃ front, front <+: cs ∧ front.countP (IsName ·) < front.count ['.', '.']

theorem normalizeFrom_eq_none {out : VPath} {cs : List Str} :
    normalizeFrom out cs = none ↔
      ∃ front, front <+: cs ∧ out.length + front.countP (IsName ·) < front.count ['.', '.'] := by
  induction cs generalizing out with
  | nil => simp [normalizeFrom]
  | cons c cs ih =>
    have hcons : (∃ front, front <+: c :: cs ∧
        out.length + front.countP (IsName ·) < front.count ['.', '.']) ↔ ∃ front, front <+: cs ∧
          out.length + (c :: front).countP (IsName ·) < (c :: front).count ['.', '.'] := by
      constructor
      · rintro ⟨_ | ⟨d, front⟩, hpre, hlt⟩
        · simp at hlt
        · obtain ⟨rfl, hfront⟩ := cons_prefix_cons.mp hpre
          exact ⟨front, hfront, hlt⟩
      · rintro ⟨front, hpre, hlt⟩
        exact ⟨c :: front, cons_prefix_cons.mpr ⟨rfl, hpre⟩, hlt⟩
    rw [hcons, normalizeFrom]
    split_ifs with hskip hup hout
    · rw [ih]
      refine exists_congr fun front => and_congr_right fun _ => ?_
      rcases hskip with rfl | rfl <;> simp [IsName]
    · simp only [true_iff]
      exact ⟨[], nil_prefix, by simp [hout, hup, IsName]⟩
    · rw [ih]
      refine exists_congr fun front => and_congr_right fun _ => ?_
      have hpos := length_pos_iff.mpr hout
      simp only [hup, IsName, countP_cons, count_cons, length_dropLast]
      simp
      omega
    · rw [ih]
      refine exists_congr fun front => and_congr_right fun _ => ?_
      rw [not_or] at hskip
      simp [IsName, hskip, hup]
      omega

/-- A result is read back as it is. -/
theorem normalize_result {raw r : Str} (h : normalize raw = some r) :
    normalize r = some r ∧ stripLong r = r ∧ (r ≠ [] → ∀ c ∈ splitPath r, IsName c) := by
  rw [normalize_eq, normalizeFrom_eq] at h
  obtain ⟨out, hout, rfl⟩ := Option.map_eq_some_iff.mp h
  have hfold := foldlM_normalizeStep (toOption_eq_some.mp hout)
  have hparts : ∀ c ∈ out, Kept c ∧ ∀ a ∈ c, isSep a = false := by
    intro c hc
    obtain ⟨hmem, hkept⟩ := (mem_foldl_clampStep (hfold ▸ hc)).resolve_left not_mem_nil
    exact ⟨hkept, eq_false_of_mem_splitOnP hmem⟩
  cases out with
  | nil => exact ⟨rfl, rfl, fun hne => absurd rfl hne⟩
  | cons c cs =>
    have hsplit := splitPath_joined (fun c hc => (hparts c hc).2) (cons_ne_nil c cs)
    obtain ⟨hc, hsep⟩ := hparts c mem_cons_self
    refine ⟨?_, stripLong_of_head (head_joined hc.1 hsep), fun _ d hd => ?_⟩
    · rw [normalize_eq, hsplit, normalizeFrom_eq,
        foldlM_normalizeStep_of_kept fun c hc => (hparts c hc).1]
      rfl
    · exact (hparts d (hsplit ▸ hd)).1

theorem toOption_normalizeVpath (raw : Str) :
    (normalizeVpath raw).toOption = normalize (stripLong raw) := by
  rw [normalize_eq, normalizeFrom_eq, normalizeVpath]
  cases (splitPath (stripLong raw)).foldlM normalizeStep [] <;> rfl

theorem normalizeFrom_cons {out r : VPath} {cs : List Str} (x : Str)
    (h : normalizeFrom out cs = some r) : normalizeFrom (x :: out) cs = some (x :: r) := by
  induction cs generalizing out with
  | nil => rw [← Option.some.inj h, normalizeFrom]
  | cons c cs ih =>
    rw [normalizeFrom] at h ⊢
    by_cases hskip : c = [] ∨ c = ['.']
    · rw [if_pos hskip] at h ⊢
      exact ih h
    rw [if_neg hskip] at h ⊢
    by_cases hup : c = ['.', '.']
    · rw [if_pos hup] at h ⊢
      split_ifs at h with hout
      rw [if_neg (cons_ne_nil x out), dropLast_cons_of_ne_nil hout]
      exact ih h
    · rw [if_neg hup] at h ⊢
      exact ih h

/-- The long-path prefix is a component to `normalize`, and makes its result longer. -/
theorem normalizeVpath_ne_of_long {raw r : Str} (h : stripLong raw ≠ raw)
    (hr : normalize raw = some r) : normalizeVpath raw ≠ .ok r := by
  intro hv
  rw [← toOption_eq_some, toOption_normalizeVpath, normalize_eq] at hv
  obtain ⟨out, hout, rfl⟩ := Option.map_eq_some_iff.mp hv
  obtain ⟨pre, hpre, hsplit⟩ := splitPath_of_long h
  obtain ⟨x, hx, hname⟩ : ∃ x, x ≠ [] ∧ normalizeFrom [] (splitPath pre) = some [x] := by
    simp only [longPrefixes, map_cons, map_nil, mem_cons, not_mem_nil, or_false] at hpre
    rcases hpre with rfl | rfl | rfl | rfl
    · exact ⟨['?', '?'], by decide, rfl⟩
    · exact ⟨['?'], by decide, rfl⟩
    · exact ⟨['?', '?'], by decide, rfl⟩
    · exact ⟨['?'], by decide, rfl⟩
  rw [normalize_eq, hsplit, normalizeFrom_append, hname, Option.bind_some,
    normalizeFrom_cons x hout, Option.map_some] at hr
  have hlen := congrArg length (Option.some.inj hr)
  have hpos := length_pos_iff.mpr hx
  cases out with
  | nil => simp [joined, hx] at hlen
  | cons c cs =>
    rw [joined_cons_cons, length_append, length_cons] at hlen
    omega

/-- Both give results that they give back, of names only; both fail if the path climbs above the
root; and `normalize_vpath` is `normalize` after the long-path prefix, if there is one, and then
never gives what `normalize` gives of the whole path. -/
theorem normalize_spec (raw : Str) :
    (∀ r, normalize raw = some r →
      normalize r = some r ∧ (r ≠ [] → ∀ c ∈ splitPath r, IsName c)) ∧
    (∀ r, normalizeVpath raw = .ok r →
      normalizeVpath r = .ok r ∧ (r ≠ [] → ∀ c ∈ splitPath r, IsName c)) ∧
    (normalize raw = none ↔ Climbs (splitPath raw)) ∧
    ((∃ e, normalizeVpath raw = .error e) ↔ Climbs (splitPath (stripLong raw))) ∧
    (normalizeVpath raw).toOption = normalize (stripLong raw) ∧
    (stripLong raw ≠ raw → ∀ r, normalize raw = some r → normalizeVpath raw ≠ .ok r) := by
  have hfails : ∀ raw, normalize raw = none ↔ Climbs (splitPath raw) := by
    intro raw
    rw [normalize_eq, Option.map_eq_none_iff, normalizeFrom_eq_none, Climbs]
    simp
  have hvpath := toOption_normalizeVpath
  refine ⟨fun r hr => ?_, fun r hr => ?_, hfails raw, ?_, hvpath raw,
    fun hlong r hr => normalizeVpath_ne_of_long hlong hr⟩
  · obtain ⟨hback, -, hnames⟩ := normalize_result hr
    exact ⟨hback, hnames⟩
  · have hsome : normalize (stripLong raw) = some r := by rw [← hvpath, hr, Except.toOption]
    obtain ⟨hback, hlong, hnames⟩ := normalize_result hsome
    rw [← hlong, ← hvpath, toOption_eq_some, hlong] at hback
    exact ⟨hback, hnames⟩
  · rw [← hfails, ← hvpath]
    cases normalizeVpath raw <;> simp [Except.toOption]

/-- Of a path with the prefix of an NT name, `normalize` keeps it as a component. -/
theorem normalize_ne_normalizeVpath :
    normalize "\\??\\C:\\x".toList = some "??/C:/x".toList ∧
      normalizeVpath "\\??\\C:\\x".toList = .ok "C:/x".toList := by
  decide +kernel

/-! ## Prefixes -/

open Redirect

theorem slash_notMem_splitOn {s c : Str} (hc : c ∈ s.splitOn '/') : '/' ∉ c :=
  fun hmem => absurd (eq_false_of_mem_splitOnP hc '/' hmem) (by decide)

theorem joined_splitOn (s : Str) : joined (s.splitOn '/') = s := intercalate_splitOn '/'

theorem splitBytes_append (a b : Str) :
    splitBytes (utf8Len a) (a ++ b) = some (a, b) := by
  induction a with
  | nil => simp [utf8Len, splitBytes]
  | cons c a ih =>
    have hpos := c.utf8Size_pos
    have hlen : utf8Len (c :: a) = (c.utf8Size + utf8Len a - 1) + 1 := by
      simp only [utf8Len, map_cons, sum_cons]
      omega
    have hrest : c.utf8Size + utf8Len a - 1 + 1 - c.utf8Size = utf8Len a := by
      omega
    rw [hlen, cons_append, splitBytes, if_neg (by omega), hrest, ih]
    rfl

/-- Each component before the rest takes its own length and the slash's. -/
theorem splitBytes_joined {up rest : List Str} (hrest : rest ≠ []) :
    splitBytes (up.map fun c => utf8Len c + 1).sum (joined (up ++ rest)) =
      some (up.flatMap (· ++ ['/']), joined rest) := by
  have hlen : (up.map fun c => utf8Len c + 1).sum = utf8Len (up.flatMap (· ++ ['/'])) := by
    have hslash : '/'.utf8Size = 1 := rfl
    induction up with
    | nil => rfl
    | cons c up ih =>
      rw [map_cons, sum_cons, ih]
      simp [utf8Len, hslash]
      omega
  have hjoin : joined (up ++ rest) = up.flatMap (· ++ ['/']) ++ joined rest := by
    clear hlen
    induction up with
    | nil => rfl
    | cons c up ih =>
      obtain ⟨d, ds, hd⟩ := exists_cons_of_ne_nil (append_ne_nil_of_right_ne_nil up hrest)
      rw [cons_append, hd, joined_cons_cons, ← hd, ih]
      simp
  rw [hjoin, hlen, splitBytes_append]

section Prefixes

variable [ToLowercase]

def stripLoop : Str → List Str → Option Str
  | rest, [] => some rest
  | rest, want :: wants =>
    let (head, tail) := (splitOnce rest).getD (rest, [])
    if fold head ≠ fold want then none else stripLoop tail wants

def trimSlashes (s : Str) : Str := (s.dropWhile (· = '/')).rdropWhile (· = '/')

/-- The components of a mount's prefix. -/
def wanted (pre : Str) : List Str := ((trimSlashes pre).splitOn '/').filter (· ≠ [])

def stripPrefix (path pre : Str) : Option Str :=
  if trimSlashes pre = [] then some path else stripLoop path (wanted pre)

def foldComponents (path : Str) : List Str :=
  if path = [] then [] else (path.splitOn '/').map fold

/-- The inner value is the result; there is none if the slice of the key is out of bounds. -/
def foldStripPrefix (key : Str) (query : List Str) : Option (Option Str) :=
  let kc := key.splitOn '/'
  if kc.length ≤ query.length then some none
  else if (kc.take query.length).map fold ≠ query then some none
  else
    let consumed := ((kc.take query.length).map fun c => utf8Len c + 1).sum
    (splitBytes consumed key).map fun cut => some cut.2

theorem stripLoop_joined {cs wants : List Str} (hcs : ∀ c ∈ cs, '/' ∉ c) (hwants : [] ∉ wants) :
    stripLoop (joined cs) wants = (Compose.stripPrefix cs wants).map joined := by
  induction wants generalizing cs with
  | nil => cases cs <;> rfl
  | cons want wants ih =>
    rw [mem_cons, not_or] at hwants
    cases cs with
    | nil =>
      have hfold : fold [] ≠ fold want := by simpa [eq_comm] using hwants.1
      exact if_pos hfold
    | cons c cs =>
      obtain ⟨hc, hcs⟩ := forall_mem_cons.mp hcs
      have hhead : (splitOnce (joined (c :: cs))).getD (joined (c :: cs), []) = (c, joined cs) := by
        rw [splitOnce_joined hc]
        cases cs <;> simp [joined]
      simp only [stripLoop, hhead, Compose.stripPrefix, ih hcs hwants.2]
      split_ifs <;> simp_all

theorem stripPrefix_eq (path pre : Str) :
    stripPrefix path pre = (Compose.stripPrefix (path.splitOn '/') (wanted pre)).map joined := by
  rw [stripPrefix]
  split_ifs with hpre
  · have hnone : wanted pre = [] := by simp [wanted, hpre]
    rw [hnone, Compose.stripPrefix, Option.map_some, joined_splitOn]
  · nth_rewrite 1 [← joined_splitOn path]
    exact stripLoop_joined (fun _ => slash_notMem_splitOn) (by simp [wanted])

/-- The slice is in bounds, at the end of a component. -/
theorem foldStripPrefix_eq (key : Str) (query : List Str) : foldStripPrefix key query = some
    (if ((key.splitOn '/').take query.length).map fold = query ∧
        (key.splitOn '/').drop query.length ≠ []
      then some (joined ((key.splitOn '/').drop query.length)) else none) := by
  rw [foldStripPrefix]
  by_cases hshort : (key.splitOn '/').length ≤ query.length
  · rw [if_pos hshort, if_neg fun h => h.2 (drop_eq_nil_of_le hshort)]
  · have hrest : (key.splitOn '/').drop query.length ≠ [] := by simpa using hshort
    have hcut := @splitBytes_joined ((key.splitOn '/').take query.length) _ hrest
    rw [take_append_drop, joined_splitOn] at hcut
    by_cases hq : ((key.splitOn '/').take query.length).map fold = query
    · rw [if_neg hshort, if_neg (not_not.mpr hq), if_pos ⟨hq, hrest⟩]
      simp only [hcut, Option.map_some]
    · rw [if_neg hshort, if_pos hq, if_neg fun h => hq h.1]

/-- A prefix is found if its components are the first of the path, but for their case, and what is
left is the text of the others. Of a key, one component has to be left. -/
theorem strips_components (path pre key query : Str) :
    (∀ r, stripPrefix path pre = some r ↔ ∃ up rest, path.splitOn '/' = up ++ rest ∧
      up.map fold = (wanted pre).map fold ∧ r = joined rest) ∧
    ∃ found, foldStripPrefix key (foldComponents query) = some found ∧
      ∀ r, found = some r ↔ ∃ up rest, key.splitOn '/' = up ++ rest ∧
        up.map fold = foldComponents query ∧ rest ≠ [] ∧ r = joined rest := by
  refine ⟨fun r => ?_, _, foldStripPrefix_eq key _, fun r => ?_⟩
  · rw [stripPrefix_eq, Option.map_eq_some_iff]
    constructor
    · rintro ⟨rest, hrest, rfl⟩
      obtain ⟨up, hsplit, hup⟩ := stripPrefix_eq_some.mp hrest
      exact ⟨up, rest, hsplit, hup, rfl⟩
    · rintro ⟨up, rest, hsplit, hup, rfl⟩
      exact ⟨rest, stripPrefix_eq_some.mpr ⟨up, hsplit, hup⟩, rfl⟩
  · generalize foldComponents query = q
    constructor
    · intro h
      split_ifs at h with hq
      exact ⟨_, _, (take_append_drop q.length _).symm, hq.1, hq.2, (Option.some.inj h).symm⟩
    · rintro ⟨up, rest, hsplit, rfl, hrest, rfl⟩
      simp [hsplit, hrest]

/-- On texts, a mount is asked for what the mount graph asks it for on lists of components. -/
theorem normalize_stripPrefix_eq (raw pre : Str) : (normalize raw).bind (stripPrefix · pre) =
    ((Compose.normalize (splitPath raw)).bind (Compose.stripPrefix · (wanted pre))).map joined := by
  rw [normalize_eq, Compose.normalize]
  cases hnorm : normalizeFrom [] (splitPath raw) with
  | none => rfl
  | some out =>
    have hout : ∀ c ∈ out, '/' ∉ c := by
      intro c hc
      rw [normalizeFrom_eq] at hnorm
      rw [foldlM_normalizeStep (toOption_eq_some.mp hnorm)] at hc
      have hmem := ((mem_foldl_clampStep hc).resolve_left not_mem_nil).1
      exact slash_notMem (eq_false_of_mem_splitOnP hmem)
    rw [Option.map_some, Option.bind_some, Option.bind_some, stripPrefix]
    split_ifs with hpre
    · have hnone : wanted pre = [] := by simp [wanted, hpre]
      rw [hnone, Compose.stripPrefix, Option.map_some]
    · exact stripLoop_joined hout (by simp [wanted])

end Prefixes

attribute [local instance] asciiLowercase

/-- A key is not below itself, where a path is below the mount at the path. -/
theorem foldStripPrefix_same :
    foldStripPrefix "Data".toList (foldComponents "data".toList) = some none ∧
      stripPrefix "Data".toList "data".toList = some [] := by
  decide +kernel

end AetherVfs.Compose.PathText
