import AetherVfs.Core.Path
import AetherVfs.Lib.Table
import AetherVfs.Lib.Transition
import Mathlib.Data.List.DropRight

/-!
# The cache of stored names

`NameCache` of `vfs-core/src/finalname.rs`: the stored spelling of the last component of each path,
by root and folded path, good for a time. What it answers was remembered for those very
components, recently enough, and nothing that covers them was forgotten since.
-/

namespace AetherVfs

open List

structure NameCache where
  ttlMs : ℕ
  capacity : ℕ
  /-- A name and when it was learned, by root and path. -/
  names : Table (UInt32 × Str) (Str × ℕ)

namespace NameCache

def new (ttlMs capacity : ℕ) : NameCache := ⟨ttlMs, max capacity 1, ∅⟩

def len (c : NameCache) : ℕ := c.names.keys.length

def leadingLoop (c : NameCache) (root : UInt32) (now : ℕ) : Str → List Str → List Str
  | _, [] => []
  | path, comp :: under =>
    let path := (if path = [] then path else path ++ ['/']) ++ comp
    match c.names.lookup (root, path) with
    | some (name, learned) =>
      if now - learned < c.ttlMs then name :: leadingLoop c root now path under else []
    | none => []

def leading (c : NameCache) (root : UInt32) (under : List Str) (now : ℕ) : List Str :=
  c.leadingLoop root now [] under

/-- There is one name for each component from `first` on. -/
def Accepted (under : List Str) (first : ℕ) (names : List Str) : Prop :=
  first ≤ under.length ∧ names.length = under.length - first

instance (under : List Str) (first : ℕ) (names : List Str) : Decidable (Accepted under first names) :=
  inferInstanceAs (Decidable (_ ∧ _))

def rows (root : UInt32) (under : List Str) (first : ℕ) (names : List Str) (now : ℕ) :
    List ((UInt32 × Str) × (Str × ℕ)) :=
  names.mapIdx fun i name => ((root, joined (under.take (first + i + 1))), (name, now))

def remember (c : NameCache) (root : UInt32) (under : List Str) (first : ℕ) (names : List Str)
    (now : ℕ) : NameCache :=
  if ¬ Accepted under first names then c
  else
    let known := if c.names.keys.length + names.length > c.capacity then ∅ else c.names
    { c with names := known.insertAll (rows root under first names now) }

def trimmed (folded : Str) : Str := (folded.dropWhile (· = '/')).rdropWhile (· = '/')

def forget (c : NameCache) (root : UInt32) (folded : Str) : NameCache :=
  let folded := trimmed folded
  if folded = [] ∨ folded = ['.'] then
    { c with names := c.names.keep fun k => k.1 ≠ root }
  else
    let below := folded ++ ['/']
    { c with names := c.names.keep fun k => k.1 ≠ root || !(k.2 = folded || below.isPrefixOf k.2) }

inductive Call
  | remember (root : UInt32) (under : List Str) (first : ℕ) (names : List Str) (now : ℕ)
  | forget (root : UInt32) (folded : Str)
  | leading (root : UInt32) (under : List Str) (now : ℕ)

def step (c : NameCache) : Call → NameCache
  | .remember root under first names now => c.remember root under first names now
  | .forget root folded => c.forget root folded
  | .leading _ _ _ => c

/-! ## What stands -/

/-- Forgetting `folded` covers the path `u`: it is the root, or the path itself, or above it. -/
def Covers (folded : Str) (u : List Str) : Prop :=
  trimmed folded = [] ∨ trimmed folded = ['.'] ∨ (trimmed folded).splitOn '/' <+: u

/-- Among the calls one remembered `name` for the components `u` at the time `learned`, and none
after it forgot them. -/
structure Stands (calls : List Call) (root : UInt32) (u : List Str) (name : Str) (learned : ℕ) :
    Prop where
  found : ∃ before after under first names i,
    calls = before ++ .remember root under first names learned :: after ∧
    Accepted under first names ∧ names[i]? = some name ∧ under.take (first + i + 1) = u ∧
    ∀ folded, .forget root folded ∈ after → ¬ Covers folded u

variable {calls : List Call} {root : UInt32} {c : NameCache} {name : Str} {call : Call}
  {under : List Str} {now : ℕ}

theorem Stands.concat {u : List Str} {learned : ℕ} (h : Stands calls root u name learned)
    (hcall : ∀ folded, call = .forget root folded → ¬ Covers folded u) :
    Stands (calls ++ [call]) root u name learned := by
  obtain ⟨before, after, under, first, names, i, rfl, hok, hname, hu, hafter⟩ := h
  refine ⟨before, after ++ [call], under, first, names, i, by simp, hok, hname, hu, ?_⟩
  intro folded hmem
  rcases mem_append.mp hmem with hmem | hmem
  · exact hafter folded hmem
  · exact hcall folded (mem_singleton.mp hmem).symm

/-- What a cache is asked to do: to remember no more names at once than it has room for, for
components that are no more than that. -/
def Call.Ok (capacity : ℕ) : Call → Prop
  | .remember _ under first names _ =>
    (Accepted under first names → names.length ≤ capacity) ∧ ∀ c ∈ under, IsComponent c
  | .forget _ _ => True
  | .leading _ _ _ => True

structure Sound (c : NameCache) (calls : List Call) : Prop where
  size : c.len ≤ c.capacity
  row : ∀ root path name learned, c.names.lookup (root, path) = some (name, learned) →
    ∃ u, u ≠ [] ∧ (∀ comp ∈ u, IsComponent comp) ∧ path = joined u ∧
      Stands calls root u name learned

theorem Sound.of_rows {c c' : NameCache} (h : c.Sound calls) (hsize : c'.len ≤ c'.capacity)
    (hrow : ∀ root path name learned, c'.names.lookup (root, path) = some (name, learned) →
      (c.names.lookup (root, path) = some (name, learned) ∧
        ∀ u, u ≠ [] → (∀ comp ∈ u, IsComponent comp) → path = joined u →
          ∀ folded, call = .forget root folded → ¬ Covers folded u) ∨
      ∃ u, u ≠ [] ∧ (∀ comp ∈ u, IsComponent comp) ∧ path = joined u ∧
        Stands (calls ++ [call]) root u name learned) : c'.Sound (calls ++ [call]) := by
  refine ⟨hsize, fun root path name learned hlookup => ?_⟩
  rcases hrow root path name learned hlookup with ⟨hold, hkept⟩ | hnew
  · obtain ⟨u, hne, hu, hpath, hstands⟩ := h.row root path name learned hold
    exact ⟨u, hne, hu, hpath, hstands.concat (hkept u hne hu hpath)⟩
  · exact hnew

theorem mem_rows {first : ℕ} {names : List Str} {root' : UInt32} {path : Str} {learned : ℕ}
    (h : ((root', path), (name, learned)) ∈ rows root under first names now) :
    root' = root ∧ learned = now ∧
      ∃ i, names[i]? = some name ∧ path = joined (under.take (first + i + 1)) := by
  obtain ⟨i, hi, heq⟩ := mem_mapIdx.mp h
  cases heq
  exact ⟨rfl, rfl, i, getElem?_eq_getElem hi, rfl⟩

theorem Sound.remember (h : c.Sound calls) {first : ℕ} {names : List Str}
    (hok : Call.Ok c.capacity (.remember root under first names now)) :
    (c.remember root under first names now).Sound
      (calls ++ [.remember root under first names now]) := by
  unfold NameCache.remember
  by_cases haccepted : Accepted under first names
  · rw [if_neg (not_not.mpr haccepted)]
    have hroom := hok.1 haccepted
    apply h.of_rows
    · refine (Table.length_keys_insertAll_le _ _).trans ?_
      rw [rows, length_mapIdx]
      dsimp only
      split_ifs with hfull
      · simpa using hroom
      · exact not_lt.mp hfull
    · intro root' path name learned hlookup
      rcases Table.mem_of_lookup_insertAll hlookup with hold | hnew
      · left
        split_ifs at hold with hfull
        · simp at hold
        · exact ⟨hold, by simp⟩
      · right
        obtain ⟨rfl, rfl, i, hname, rfl⟩ := mem_rows hnew
        refine ⟨under.take (first + i + 1), ?_, ?_, rfl, calls, [], under, first, names, i, rfl,
          haccepted, hname, rfl, by simp⟩
        · have hi : i < names.length := (List.getElem?_eq_some_iff.mp hname).1
          have hlen := haccepted.2
          intro hnil
          have : (under.take (first + i + 1)).length = 0 := by rw [hnil]; rfl
          rw [length_take] at this
          omega
        · exact fun comp hcomp => hok.2 comp (mem_of_mem_take hcomp)
  · rw [if_pos haccepted]
    apply h.of_rows h.size
    intro root' path name learned hlookup
    exact Or.inl ⟨hlookup, by simp⟩

theorem Sound.keep (h : c.Sound calls)
    {folded : Str} {p : UInt32 × Str → Bool}
    (hp : ∀ u, u ≠ [] → (∀ comp ∈ u, IsComponent comp) → Covers folded u →
      p (root, joined u) = false) :
    Sound { c with names := c.names.keep p } (calls ++ [.forget root folded]) := by
  apply h.of_rows
  · exact (Table.length_keys_keep_le c.names p).trans h.size
  · intro root' path name learned hlookup
    dsimp only at hlookup
    rw [Table.lookup_keep] at hlookup
    split_ifs at hlookup with hkept
    refine Or.inl ⟨hlookup, ?_⟩
    rintro u hne hu rfl folded' ⟨rfl, rfl⟩ hcovers
    rw [hp u hne hu hcovers] at hkept
    cases hkept

theorem Sound.forget (h : c.Sound calls) (root : UInt32)
    (folded : Str) : (c.forget root folded).Sound (calls ++ [.forget root folded]) := by
  unfold NameCache.forget
  dsimp only
  split_ifs with hall
  · apply h.keep
    intro u _ _ _
    simp
  · apply h.keep
    intro u hne hu hcovers
    rcases hcovers with hnil | hdot | hbelow
    · exact absurd (Or.inl hnil) hall
    · exact absurd (Or.inr hdot) hall
    · rcases (joined_below_iff hu hne _).mpr hbelow with heq | hbelow
      · simp [heq]
      · simp [List.isPrefixOf_iff_prefix.mpr hbelow]

theorem Sound.step (h : c.Sound calls) (hok : call.Ok c.capacity) :
    (c.step call).Sound (calls ++ [call]) := by
  cases call with
  | remember root under first names now => exact h.remember hok
  | forget root folded => exact h.forget root folded
  | leading root under now =>
    apply h.of_rows h.size
    intro root' path name learned hlookup
    exact Or.inl ⟨hlookup, by simp⟩

/-! ## What is answered -/

theorem leadingLoop_getElem? {front : List Str} (hcomp : ∀ comp ∈ front ++ under, IsComponent comp)
    {i : ℕ} (h : (c.leadingLoop root now (joined front) under)[i]? = some name) :
    ∃ learned, c.names.lookup (root, joined (front ++ under.take (i + 1))) = some (name, learned) ∧
      now - learned < c.ttlMs := by
  induction under generalizing front i with
  | nil => simp [leadingLoop] at h
  | cons comp under ih =>
    have hpath : (if joined front = [] then joined front else joined front ++ ['/']) ++ comp =
        joined (front ++ [comp]) := by
      by_cases hfront : front = []
      · simp [hfront, joined]
      · have hne : joined front ≠ [] :=
          joined_ne_nil (fun d hd => hcomp d (mem_append_left _ hd)) hfront
        rw [if_neg hne, joined_append hfront (by simp), append_assoc]
        simp [joined]
    rw [leadingLoop, hpath] at h
    split at h
    · next name' learned hlookup =>
        split_ifs at h with hfresh
        · cases i with
          | zero =>
            cases h
            exact ⟨learned, by simpa using hlookup, hfresh⟩
          | succ i =>
            obtain ⟨learned', hlookup', hfresh'⟩ :=
              @ih (front ++ [comp]) (by simpa using hcomp) i h
            rw [append_assoc] at hlookup'
            exact ⟨learned', hlookup', hfresh'⟩
        · simp at h
    · simp at h

@[simp] theorem step_capacity (c : NameCache) (call : Call) :
    (c.step call).capacity = c.capacity := by
  cases call <;> simp only [step, NameCache.remember, NameCache.forget] <;> split_ifs <;> rfl

@[simp] theorem step_ttlMs (c : NameCache) (call : Call) : (c.step call).ttlMs = c.ttlMs := by
  cases call <;> simp only [step, NameCache.remember, NameCache.forget] <;> split_ifs <;> rfl

def run (ttlMs capacity : ℕ) (calls : List Call) : NameCache :=
  Transition.run step (new ttlMs capacity) calls

theorem run_inv (ttlMs capacity : ℕ) (calls : List Call)
    (hok : ∀ call ∈ calls, call.Ok (max capacity 1)) :
    (run ttlMs capacity calls).Sound calls ∧
      (run ttlMs capacity calls).capacity = max capacity 1 ∧
      (run ttlMs capacity calls).ttlMs = ttlMs := by
  induction calls using reverseRecOn with
  | nil =>
    refine ⟨⟨Nat.zero_le _, fun root path name learned h => ?_⟩, rfl, rfl⟩
    simp [run, new] at h
  | append_singleton calls call ih =>
    obtain ⟨hsound, hcap, httl⟩ := ih fun call hcall => hok call (mem_append_left _ hcall)
    have hstep : run ttlMs capacity (calls ++ [call]) = (run ttlMs capacity calls).step call :=
      Transition.run_append _ _ _ _
    have hcall := hok call (mem_append_right _ (mem_singleton_self call))
    rw [hstep, step_capacity, step_ttlMs]
    exact ⟨hsound.step (hcap.symm ▸ hcall), hcap, httl⟩

/-- In every run whose calls remember no more names at once than there is room for, the cache
stays within its capacity, and a name that it answers was remembered for those very components,
not too long ago, and not forgotten since. -/
theorem run_sound (ttlMs capacity : ℕ) (calls : List Call)
    (hok : ∀ call ∈ calls, call.Ok (max capacity 1)) :
    (run ttlMs capacity calls).len ≤ max capacity 1 ∧
    ∀ (root : UInt32) (under : List Str) (now : ℕ), (∀ comp ∈ under, IsComponent comp) →
      ∀ (i : ℕ) (name : Str),
        ((run ttlMs capacity calls).leading root under now)[i]? = some name →
        ∃ learned, Stands calls root (under.take (i + 1)) name learned ∧
          now - learned < ttlMs := by
  obtain ⟨hsound, hcap, httl⟩ := run_inv ttlMs capacity calls hok
  refine ⟨hcap ▸ hsound.size, fun root under now hcomp i name h => ?_⟩
  obtain ⟨learned, hlookup, hfresh⟩ := @leadingLoop_getElem? root _ name under now [] hcomp i h
  obtain ⟨u, -, hu, hpath, hstands⟩ := hsound.row _ _ _ _ hlookup
  have htake : under.take (i + 1) = u :=
    joined_injective (fun comp h => hcomp comp (mem_of_mem_take h)) hu hpath
  rw [httl] at hfresh
  exact ⟨learned, htake ▸ hstands, hfresh⟩

/-- Two files of one directory, the first of which is forgotten again. -/
def siblings : List Call :=
  [.remember 0 [['a'], ['b']] 0 [['A'], ['B']] 5, .remember 0 [['a'], ['c']] 1 [['C']] 7,
    .forget 0 ['a', '/', 'b']]

theorem run_remembered :
    (run 1000 3 siblings).leading 0 [['a'], ['b']] 8 = [['A']] ∧
      (run 1000 3 siblings).leading 0 [['a'], ['c']] 8 = [['A'], ['C']] ∧
      ∃ learned, Stands siblings 0 [['a'], ['c']] ['C'] learned ∧ 8 - learned < 1000 :=
  ⟨rfl, rfl, (run_sound 1000 3 siblings (by simp [siblings, Call.Ok, IsComponent])).2
    0 [['a'], ['c']] 8 (by simp [IsComponent]) 1 ['C'] rfl⟩

/-- Two names at once do not fit a cache for one, and are both kept. -/
theorem run_overfull :
    (run 1000 1 [.remember 0 [['a'], ['b']] 0 [['A'], ['B']] 5]).len = 2 := by
  rfl

end NameCache

end AetherVfs
