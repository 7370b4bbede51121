import AetherVfs.Core.CaseFold
import AetherVfs.Lib.Wildcard

/-!
# The wildcards of a directory query

`vfs-core/src/wildcard.rs`. The matcher decides what the wildcards stand for: `*` and `<` any run
of characters, `?` one character, `>` one character other than a dot where there is one, `"` a
dot where there is one, and anything else itself.
-/

namespace AetherVfs

open Wildcard

/-- `do_match`, with what is left of the pattern and of the name. -/
def doMatch : List Char → List Char → Bool
  | [], n => n.isEmpty
  | c :: p, n =>
    if c = '*' ∨ c = '<' then
      -- The remainder at each position of the name.
      anySuffix (doMatch p) n
    else if c = '?' then
      match n with
      | [] => false
      | _ :: n => doMatch p n
    else if c = '>' then
      match n with
      | [] => doMatch p []
      | x :: n => doMatch p (if x ≠ '.' then n else x :: n)
    else if c = '"' then
      match n with
      | [] => doMatch p []
      | x :: n => doMatch p (if x = '.' then n else x :: n)
    else
      match n with
      | [] => false
      | x :: n => if x ≠ c then false else doMatch p n

/-- What a character of a pattern stands for. -/
def wildcard (c : Char) : Atom Char :=
  if c = '*' ∨ c = '<' then .run
  else if c = '?' then .one fun _ => true
  else if c = '>' then .next fun x => x ≠ '.'
  else if c = '"' then .next fun x => x = '.'
  else .one fun x => x = c

theorem doMatch_eq_true (p n : List Char) :
    doMatch p n = true ↔ Matches (p.map wildcard) n := by
  induction p generalizing n with
  | nil => simp [doMatch]
  | cons c p ih =>
    rw [doMatch.eq_def, List.map_cons, wildcard]
    dsimp only
    split_ifs with hrun hany hqm hdot
    · rw [anySuffix_eq_true, matches_run]
      simp only [ih]
    · cases n <;> simp [matches_one, ih]
    · cases n with
      | nil => rw [matches_next_nil, ih]
      | cons x n =>
        rw [matches_next_cons]
        simp [ih]
    · cases n with
      | nil => rw [matches_next_nil, ih]
      | cons x n =>
        rw [matches_next_cons]
        simp [ih]
    · cases n with
      | nil => simp [matches_one]
      | cons x n => by_cases hx : x = c <;> simp [matches_one, ih, hx]

variable [ToLowercase]

def wildcardMatch (pattern name : Str) : Bool := doMatch (fold pattern) (fold name)

/-- The matcher finds exactly the names the pattern stands for, up to case. -/
theorem wildcardMatch_eq_true (pattern name : Str) :
    wildcardMatch pattern name = true ↔ Matches ((fold pattern).map wildcard) (fold name) :=
  doMatch_eq_true _ _

end AetherVfs
