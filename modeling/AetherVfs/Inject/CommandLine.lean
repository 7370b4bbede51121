import AetherVfs.Core.CaseFold

/-!
# The command line of a launched program

`command_line_for` of `vfs-inject/src/inject.rs` puts the image and each argument between quotes
and escapes nothing. The program splits the line by the rules of the C runtime, where
backslashes before a quote escape it or each other. An argument comes back if it has no quote and
no backslash at its end, and only then.
-/

namespace AetherVfs.Inject

open List

def inQuotes (a : Str) : Str := '"' :: (a ++ ['"'])

def commandLineFor (image : Str) (args : List Str) : Str :=
  args.foldl (fun cmdline a => cmdline ++ ' ' :: inQuotes a) (inQuotes image)

/-! ## The rules for splitting -/

def isBlank (c : Char) : Bool := c = ' ' || c = '\t'

/-- The program's name: quotes keep the blanks between them, and nothing escapes a quote. -/
def splitName : Bool → Str → Str → Str × Str
  | _, name, [] => (name, [])
  | quoted, name, c :: s =>
    if c = '"' then splitName (!quoted) name s
    else if isBlank c && !quoted then (name, s)
    else splitName quoted (name ++ [c]) s

/-- Where the arguments are read: `closed` is right after the quote that ends a quoted part. -/
inductive Mode
  | plain
  | quoted
  | closed
  deriving DecidableEq

/-- The argument read so far, if one has begun, with the backslashes that follow it. -/
def flush (n : ℕ) (cur : Option Str) : Option Str :=
  if n = 0 then cur else some (cur.getD [] ++ List.replicate n '\\')

/-- The arguments in a text, after `n` backslashes that are not yet taken into `cur`. Some
descriptions of the rules add that a pair of quotes in a quoted part stands for one (`pairs`). -/
def splitArgs (pairs : Bool) : Mode → ℕ → Option Str → Str → List Str
  | _, n, cur, [] => (flush n cur).toList
  | m, n, cur, c :: s =>
    if c = '\\' then splitArgs pairs (if m = .quoted then m else .plain) (n + 1) cur s
    else if c = '"' then
      let half := cur.getD [] ++ List.replicate (n / 2) '\\'
      if n % 2 = 1 ∨ pairs = true ∧ m = .closed then
        splitArgs pairs (if m = .plain then m else .quoted) 0 (some (half ++ ['"'])) s
      else splitArgs pairs (if m = .quoted then .closed else .quoted) 0 (some half) s
    else if isBlank c ∧ m ≠ .quoted then (flush n cur).toList ++ splitArgs pairs .plain 0 none s
    else
      splitArgs pairs (if m = .quoted then m else .plain) 0
        (some (cur.getD [] ++ List.replicate n '\\' ++ [c])) s

def splitLine (pairs : Bool) (line : Str) : List Str :=
  let (name, rest) := splitName false [] line
  name :: splitArgs pairs .plain 0 none rest

/-! ## Quoted parts -/

variable {pairs : Bool} {image : Str} {args : List Str}

/-- The line after the image. -/
def tailOf (args : List Str) : Str := args.flatMap fun a => ' ' :: inQuotes a

theorem commandLineFor_eq (image : Str) (args : List Str) :
    commandLineFor image args = inQuotes image ++ tailOf args := by
  unfold commandLineFor
  generalize inQuotes image = line
  induction args generalizing line with
  | nil => simp [tailOf]
  | cons a args ih => simp [ih, tailOf]

theorem splitName_inQuotes (h : '"' ∉ image) (rest : Str) :
    splitName false [] (inQuotes image ++ rest) = splitName false image rest := by
  have hread : ∀ name s : Str, '"' ∉ s →
      splitName true name (s ++ '"' :: rest) = splitName false (name ++ s) rest := by
    intro name s hs
    induction s generalizing name with
    | nil => simp [splitName]
    | cons c s ih =>
      rw [mem_cons, not_or] at hs
      simp [splitName, Ne.symm hs.1, ih _ hs.2]
  simpa [inQuotes, splitName] using hread [] image h

/-- The blank before the first argument belongs to the name, but it would change nothing. -/
theorem splitLine_commandLineFor (h : '"' ∉ image) :
    splitLine pairs (commandLineFor image args) =
      image :: splitArgs pairs .plain 0 none (tailOf args) := by
  rw [splitLine, commandLineFor_eq, splitName_inQuotes h]
  cases args with
  | nil => rfl
  | cons a args => simp [tailOf, splitName, splitArgs, isBlank, flush]

/-- What can stand between quotes as it is. -/
def Clean (a : Str) : Prop := '"' ∉ a ∧ a.getLast? ≠ some '\\'

theorem splitArgs_quoted {n : ℕ} {cur a : Str} (h : Clean (List.replicate n '\\' ++ a)) (s : Str) :
    splitArgs pairs .quoted n (some cur) (a ++ '"' :: s) =
      splitArgs pairs .closed 0 (some (cur ++ List.replicate n '\\' ++ a)) s := by
  induction a generalizing n cur with
  | nil =>
    cases n with
    | zero => simp [splitArgs]
    | succ n => simp [Clean, List.replicate_succ'] at h
  | cons c a ih =>
    have hc : c ≠ '"' := by
      rintro rfl
      simp [Clean] at h
    by_cases hslash : c = '\\'
    · subst hslash
      have hmove : replicate (n + 1) '\\' ++ a = replicate n '\\' ++ '\\' :: a := by
        simp [replicate_succ']
      rw [cons_append, splitArgs, if_pos rfl, if_pos rfl, ih (hmove ▸ h), append_assoc,
        hmove, ← append_assoc]
    · have ha : Clean (replicate 0 '\\' ++ a) := by
        cases a <;> simp_all [Clean]
      simp [splitArgs, hslash, hc, ih ha]

theorem splitArgs_tailOf (h : ∀ a ∈ args, Clean a) {m : Mode} (hm : m ≠ .quoted)
    (cur : Option Str) : splitArgs pairs m 0 cur (tailOf args) = cur.toList ++ args := by
  induction args generalizing m cur with
  | nil => simp [tailOf, splitArgs, flush]
  | cons a args ih =>
    obtain ⟨ha, hargs⟩ := forall_mem_cons.mp h
    have hopen : splitArgs pairs m 0 cur (tailOf (a :: args)) = cur.toList ++
        splitArgs pairs .quoted 0 (some []) (a ++ '"' :: tailOf args) := by
      simp [tailOf, inQuotes, splitArgs, isBlank, flush, hm]
    rw [hopen, splitArgs_quoted (by simpa using ha), ih hargs (by decide)]
    rfl

/-! ## What is lost -/

/-- Each quote after a backslash costs a backslash. If all of them come out, no quote was escaped,
so that none comes out. -/
theorem count_splitArgs (m : Mode) (n : ℕ) (cur : Option Str) (s : Str) :
    (splitArgs false m n cur s).flatten.count '\\' ≤
        (cur.getD []).count '\\' + n + s.count '\\' ∧
      ((splitArgs false m n cur s).flatten.count '\\' =
          (cur.getD []).count '\\' + n + s.count '\\' →
        (splitArgs false m n cur s).flatten.count '"' = (cur.getD []).count '"' ∧
          (0 < n → s.head? ≠ some '"') ∧ ¬ ['\\', '"'] <:+: s) := by
  have hflush : ∀ n (cur : Option Str), (flush n cur).toList.flatten =
      cur.getD [] ++ List.replicate n '\\' := by
    intro n cur
    cases cur <;> cases n <;> simp [flush]
  induction s generalizing m n cur with
  | nil => simp [splitArgs, hflush, List.count_replicate]
  | cons c s ih =>
    have hescape : ['\\', '"'] <:+: c :: s ↔
        c = '\\' ∧ s.head? = some '"' ∨ ['\\', '"'] <:+: s := by
      rw [infix_cons_iff, cons_prefix_cons]
      cases s <;> grind
    rw [hescape, splitArgs]
    generalize (if m = .quoted then m else .plain) = m₁, (if m = .plain then m else .quoted) = m₂,
      (if m = .quoted then Mode.closed else .quoted) = m₃
    dsimp only
    split_ifs with h1 h2 h3 h4
    · grind [ih m₁ (n + 1) cur]
    · grind [ih m₂ 0 (some (cur.getD [] ++ replicate (n / 2) '\\' ++ ['"']))]
    · grind [ih m₃ 0 (some (cur.getD [] ++ List.replicate (n / 2) '\\'))]
    · grind [ih .plain 0 none]
    · grind [ih m₁ 0 (some (cur.getD [] ++ List.replicate n '\\' ++ [c]))]

/-- By the rules without pairs, arguments that come back are clean. -/
theorem clean_of_splitLine_eq (h : '"' ∉ image)
    (hsplit : splitLine false (commandLineFor image args) = image :: args) :
    ∀ a ∈ args, Clean a := by
  have hargs : splitArgs false .plain 0 none (tailOf args) = args := by
    simpa [splitLine_commandLineFor h] using hsplit
  have hslashes : (tailOf args).count '\\' = args.flatten.count '\\' := by
    simp [tailOf, inQuotes, List.count_flatMap, List.count_flatten, Function.comp_def]
  obtain ⟨-, hall⟩ := count_splitArgs .plain 0 none (tailOf args)
  rw [hargs] at hall
  obtain ⟨hquotes, -, hescape⟩ := hall (by simp [hslashes])
  intro a ha
  refine ⟨fun hmem => ?_, fun hlast => hescape ?_⟩
  · have : '"' ∈ args.flatten := mem_flatten_of_mem ha hmem
    simp [count_eq_zero.mp hquotes] at this
  · obtain ⟨b, rfl⟩ := getLast?_eq_some_iff.mp hlast
    have hpart : ' ' :: inQuotes (b ++ ['\\']) <:+: tailOf args :=
      infix_of_mem_flatten (mem_map_of_mem ha)
    exact List.IsInfix.trans ⟨' ' :: '"' :: b, [], by simp [inQuotes]⟩ hpart

theorem splitLine_of_clean (h : '"' ∉ image) (hclean : ∀ a ∈ args, Clean a) :
    splitLine pairs (commandLineFor image args) = image :: args := by
  rw [splitLine_commandLineFor h, splitArgs_tailOf hclean (by decide)]
  rfl

/-- The program gets the image and the arguments if no argument has a quote or a backslash at its
end, and only then: by the rules without pairs, and by both descriptions of them. -/
theorem splitLine_eq_iff (h : '"' ∉ image) :
    (splitLine false (commandLineFor image args) = image :: args ↔
      ∀ a ∈ args, '"' ∉ a ∧ a.getLast? ≠ some '\\') ∧
    ((∀ pairs, splitLine pairs (commandLineFor image args) = image :: args) ↔
      ∀ a ∈ args, '"' ∉ a ∧ a.getLast? ≠ some '\\') := by
  refine ⟨⟨clean_of_splitLine_eq h, splitLine_of_clean h⟩, fun hsplit => ?_, fun hclean pairs => ?_⟩
  · exact clean_of_splitLine_eq h (hsplit false)
  · exact splitLine_of_clean h hclean

theorem splitLine_eq_blank : '"' ∉ "C:\\a b\\".toList ∧ ∀ pairs,
    splitLine pairs (commandLineFor "C:\\a b\\".toList ["".toList, "c d".toList]) =
      ["C:\\a b\\".toList, "".toList, "c d".toList] := by
  have himage : '"' ∉ "C:\\a b\\".toList := by decide +kernel
  exact ⟨himage, (splitLine_eq_iff himage).2.mpr (by decide +kernel)⟩

/-- The folder's backslash escapes the quote after it, and the next argument is read with it. -/
theorem splitLine_folder : '"' ∉ "C:\\g.exe".toList ∧ ∀ pairs,
    splitLine pairs (commandLineFor "C:\\g.exe".toList ["C:\\d\\".toList, "-x".toList]) =
      ["C:\\g.exe".toList, "C:\\d\" -x".toList] := by
  decide +kernel

end AetherVfs.Inject
