import AetherVfs.Compose.MemoryTree
import AetherVfs.Compose.MountView

/-!
# Which mount takes a change

`getattr` passes over the mounts that do not have a path. A call that changes something goes to
the last mount at or above its paths, whether that has them or not. The two are the same where
the last mount has the path, or where it refuses the call.
-/

namespace AetherVfs.Compose.MountGraph

open List Option

section Changes

variable [ToLowercase] {ι : Type} {g : MountGraph ι}

inductive Change where
  | remove
  | setAttr (attr : SetAttr)
  | rename (dst : VPath)

namespace State

/-- The mount whose provider answers `getattr`, with the path below its mount point. -/
def findMount (s : State g) (path : VPath) : List (Mount ι) → Option (Mount ι × VPath)
  | [] => none
  | m :: ms =>
    match stripPrefix path m.mountPrefix with
    | none => findMount s path ms
    | some rel =>
      match ((g.backends m.backend).view (s.children m.backend)).getattr rel with
      | .error _ => none
      | .ok (some _) => some (m, rel)
      | .ok none => findMount s path ms

def resolves (s : State g) (p : VPath) : Option (Mount ι × VPath) :=
  (normalize p).bind fun path => s.findMount path g.mounts.reverse

/-- What the mount has at a path below it. -/
def statIn (s : State g) (m : Mount ι) (rel : VPath) : Option Stat :=
  ((g.backends m.backend).view (s.children m.backend)).stat rel

variable {path p : VPath} {m : Mount ι} {s : State g} {c : Change}

theorem findMount_spec (s : State g) {ms : List (Mount ι)} {rel : VPath}
    (h : s.findMount path ms = some (m, rel)) :
    m ∈ ms ∧ stripPrefix path m.mountPrefix = some rel ∧ ∃ st, s.statIn m rel = some st ∧
      findStat path (ms.map fun m =>
        ⟨m.mountPrefix, (g.backends m.backend).view (s.children m.backend)⟩) = .ok (some st) := by
  induction ms with
  | nil => cases h
  | cons m' ms ih =>
    have hpass : s.findMount path ms = some (m, rel) → m ∈ m' :: ms ∧
        stripPrefix path m.mountPrefix = some rel ∧ ∃ st, s.statIn m rel = some st ∧
        findStat path (ms.map fun m =>
          ⟨m.mountPrefix, (g.backends m.backend).view (s.children m.backend)⟩) =
          .ok (some st) := fun h => ⟨mem_cons_of_mem _ (ih h).1, (ih h).2⟩
    rw [findMount] at h
    rw [map_cons, findStat]
    cases hrel : stripPrefix path m'.mountPrefix with
    | none =>
      rw [hrel] at h
      exact hpass h
    | some rel' =>
      rw [hrel] at h
      dsimp only at h ⊢
      cases hget : ((g.backends m'.backend).view (s.children m'.backend)).getattr rel' with
      | error e =>
        rw [hget] at h
        cases h
      | ok r =>
        rw [hget] at h
        cases r with
        | none => exact hpass h
        | some st =>
          cases h
          refine ⟨mem_cons_self, hrel, st, ?_, rfl⟩
          rw [statIn, View.stat, hget]
          rfl

variable [DecidableEq ι]

def change (s : State g) (c : Change) (p : VPath) : Except Status Unit × State g :=
  match c with
  | .remove => s.onPath .remove p
  | .setAttr attr => s.onPath (.setAttr attr) p
  | .rename dst => s.rename p dst

def changeIn (s : State g) (m : Mount ι) (c : Change) (path : VPath) :
    Option (Except Status Unit × State g) :=
  let P := g.backends m.backend
  let child := s.children m.backend
  match c with
  | .remove => (stripPrefix path m.mountPrefix).map fun rel =>
    s.ofChild m.backend (P.onPath child .remove rel)
  | .setAttr attr => (stripPrefix path m.mountPrefix).map fun rel =>
    s.ofChild m.backend (P.onPath child (.setAttr attr) rel)
  | .rename dst => (stripPrefix path m.mountPrefix).bind fun rel =>
    (normalize dst).bind fun dst => (stripPrefix dst m.mountPrefix).map fun dstRel =>
      s.ofChild m.backend (P.rename child rel dstRel)

theorem change_cases (s : State g) (hp : normalize p = some path) (c : Change) :
    (g.mounts.reverse.findSome? fun m => s.changeIn m c path) = some (s.change c p) ∨
      (g.mounts.reverse.findSome? fun m => s.changeIn m c path) = none ∧
        (s.change c p).1 ≠ .ok () := by
  -- A call at one path: the outcome depends on the provider and the path below the mount only.
  have honPath : ∀ op,
      let found := g.mounts.reverse.findSome? fun m => (stripPrefix path m.mountPrefix).map fun rel =>
        s.ofChild m.backend ((g.backends m.backend).onPath (s.children m.backend) op rel)
      found = some (s.onPath op p) ∨ found = none ∧ (s.onPath op p).1 ≠ .ok () := by
    intro op
    have hmap : (g.mounts.reverse.findSome? fun m =>
          (stripPrefix path m.mountPrefix).map fun rel => (m.backend, rel)).map
            (fun t => s.ofChild t.1 ((g.backends t.1).onPath (s.children t.1) op t.2)) = _ :=
      map_findSome?
    simp only [Function.comp_def, Option.map_map] at hmap
    rw [← hmap, State.onPath, hp]
    dsimp only
    cases g.mounts.reverse.findSome? fun m =>
        (stripPrefix path m.mountPrefix).map fun rel => (m.backend, rel) with
    | none => exact Or.inr ⟨rfl, by simp⟩
    | some t => exact Or.inl rfl
  cases c with
  | remove => exact honPath .remove
  | setAttr attr => exact honPath (.setAttr attr)
  | rename dst =>
    cases hdst : normalize dst with
    | none =>
      refine Or.inr ⟨?_, ?_⟩
      · rw [findSome?_eq_none_iff]
        intro m _
        simp [changeIn, hdst]
      · simp [change, State.rename, hp, hdst]
    | some dstPath =>
      have hmap : (g.mounts.reverse.findSome? fun m =>
          (stripPrefix path m.mountPrefix).bind fun rel =>
            (stripPrefix dstPath m.mountPrefix).map fun dstRel =>
              (m.backend, rel, dstRel)).map
            (fun t => s.ofChild t.1
              ((g.backends t.1).rename (s.children t.1) t.2.1 t.2.2)) = _ :=
        map_findSome?
      simp only [Function.comp_def, Option.map_bind, Option.map_map] at hmap
      simp only [changeIn, hdst, Option.bind_some]
      rw [← hmap, change, State.rename, hp, hdst]
      dsimp only
      cases g.mounts.reverse.findSome? fun m =>
          (stripPrefix path m.mountPrefix).bind fun rel =>
            (stripPrefix dstPath m.mountPrefix).map fun dstRel =>
              (m.backend, rel, dstRel) with
      | none => exact Or.inr ⟨rfl, by simp⟩
      | some t => exact Or.inl rfl

theorem changeIn_congr {t : Mount ι} (hbackend : t.backend = m.backend)
    (hplace : t.mountPrefix.map fold = m.mountPrefix.map fold) (c : Change) (path : VPath) :
    s.changeIn t c path = s.changeIn m c path := by
  have hstrip : ∀ path, stripPrefix path t.mountPrefix = stripPrefix path m.mountPrefix := by
    intro path
    apply ext
    intro rel
    rw [stripPrefix_eq_some, stripPrefix_eq_some, hplace]
  unfold changeIn
  simp only [hstrip]
  rw [hbackend]

theorem children_of_changeIn {r : Except Status Unit × State g} (h : s.changeIn m c path = some r)
    {j : ι} (hj : j ≠ m.backend) : r.2.children j = s.children j := by
  have hframe : ∀ x : Except Status Unit × (g.backends m.backend).State,
      (s.ofChild m.backend x).2.children j = s.children j := by
    intro x
    exact Function.update_of_ne hj _ _
  cases c with
  | remove =>
    obtain ⟨rel, -, rfl⟩ := map_eq_some_iff.mp h
    exact hframe _
  | setAttr attr =>
    obtain ⟨rel, -, rfl⟩ := map_eq_some_iff.mp h
    exact hframe _
  | rename dst =>
    obtain ⟨rel, -, h⟩ := bind_eq_some_iff.mp h
    obtain ⟨dstPath, -, h⟩ := bind_eq_some_iff.mp h
    obtain ⟨dstRel, -, rfl⟩ := map_eq_some_iff.mp h
    exact hframe _

/-- A successful call changes the entry that `getattr` shows at the path, in the provider of its
mount, and nothing in any other provider; and an entry that was removed is not shown again. -/
structure Hits (s : State g) (c : Change) (p : VPath) : Prop where
  entry : ∀ {path m rel}, normalize p = some path → s.resolves p = some (m, rel) →
    (s.change c p).1 = .ok () → s.changeIn m c path = some (s.change c p)
  others : ∀ {m rel}, s.resolves p = some (m, rel) → (s.change c p).1 = .ok () →
    ∀ j, j ≠ m.backend → (s.change c p).2.children j = s.children j
  gone : c = .remove → ∀ {m rel}, s.resolves p = some (m, rel) → (s.change c p).1 = .ok () →
    ∀ m', m'.backend = m.backend → (s.change c p).2.resolves p ≠ some (m', rel)

/-- The mount that takes the call, with the outcome there: the last one at or above the paths. -/
def Takes (s : State g) (c : Change) (p : VPath) (t : Mount ι)
    (r : Except Status Unit × State g) : Prop :=
  ∃ path before after, normalize p = some path ∧ g.mounts = before ++ t :: after ∧
    s.changeIn t c path = some r ∧ ∀ m ∈ after, s.changeIn m c path = none

theorem Takes.change_eq {t : Mount ι} {r : Except Status Unit × State g} (h : s.Takes c p t r) :
    s.change c p = r := by
  obtain ⟨path, before, after, hp, hsplit, hr, hafter⟩ := h
  have hfind : (g.mounts.reverse.findSome? fun m => s.changeIn m c path) = some r := by
    rw [hsplit, reverse_append, reverse_cons, append_assoc, findSome?_append,
      findSome?_eq_none_iff.mpr fun m hm => hafter m (mem_reverse.mp hm)]
    rw [none_or, singleton_append, findSome?_cons, hr]
  rcases change_cases s hp c with h | ⟨h, -⟩
  · rw [hfind] at h
    exact (some.inj h).symm
  · rw [hfind] at h
    cases h

theorem exists_takes (hp : normalize p = some path) (hok : (s.change c p).1 = .ok ()) :
    ∃ t, s.Takes c p t (s.change c p) := by
  rcases change_cases s hp c with h | ⟨-, h⟩
  · obtain ⟨after, t, before, hrev, ht, hafter⟩ := findSome?_eq_some_iff.mp h
    have hsplit : g.mounts = before.reverse ++ t :: after.reverse := by
      simpa using congrArg reverse hrev
    exact ⟨t, path, before.reverse, after.reverse, hp, hsplit, ht,
      fun m hm => hafter m (mem_reverse.mp hm)⟩
  · exact absurd hok h

/-- The mount that takes the call is the one `getattr` resolves the path to (the same provider at
the same place), unless its provider refuses the call. -/
def Aimed (s : State g) (c : Change) (p : VPath) : Prop :=
  ∀ m rel t r, s.resolves p = some (m, rel) → s.Takes c p t r → r.1 = .ok () →
    t.backend = m.backend ∧ t.mountPrefix.map fold = m.mountPrefix.map fold

/-- What a provider has removed it does not have any more. -/
def Removes (s : State g) : Prop :=
  ∀ i rel, ((g.backends i).onPath (s.children i) .remove rel).1 = .ok () →
    ((g.backends i).view ((g.backends i).onPath (s.children i) .remove rel).2).stat rel = none

/-- A call whose taker is the mount that has the path hits what `getattr` shows. Where another
provider takes the call and does not refuse it, that holds only if the call changed nothing. -/
theorem hits_of_aimed {s : State g} (hremoves : s.Removes) (c : Change) (p : VPath) :
    (s.Aimed c p → s.Hits c p) ∧
      (s.Hits c p → ∀ m rel t r, s.resolves p = some (m, rel) → s.Takes c p t r → r.1 = .ok () →
        t.backend ≠ m.backend → r.2.children t.backend = s.children t.backend) := by
  constructor
  · intro haimed
    have hentry : ∀ {path m rel}, normalize p = some path → s.resolves p = some (m, rel) →
        (s.change c p).1 = .ok () → s.changeIn m c path = some (s.change c p) := by
      intro path m rel hp hres hok
      obtain ⟨t, ht⟩ := exists_takes hp hok
      obtain ⟨hbackend, hplace⟩ := haimed m rel t _ hres ht hok
      rw [← changeIn_congr hbackend hplace]
      obtain ⟨path', before, after, hp', -, hr, -⟩ := ht
      rw [hp, some.injEq] at hp'
      rw [hp']
      exact hr
    refine ⟨hentry, fun {m rel} hres hok j hj => ?_, fun hc {m rel} hres hok m' hm' hres' => ?_⟩
    · obtain ⟨path, hp, -⟩ := bind_eq_some_iff.mp hres
      exact children_of_changeIn (hentry hp hres hok) hj
    · subst hc
      obtain ⟨path, hp, hfind⟩ := bind_eq_some_iff.mp hres
      obtain ⟨-, hrel, -⟩ := s.findMount_spec hfind
      have hchanged := hentry hp hres hok
      rw [changeIn, hrel, map_some, some.injEq] at hchanged
      rw [← hchanged] at hok hres'
      -- The entry is not there any more.
      have hnone := hremoves m.backend rel hok
      obtain ⟨path', -, hfind'⟩ := bind_eq_some_iff.mp hres'
      obtain ⟨-, -, st, hst, -⟩ := findMount_spec _ hfind'
      unfold statIn at hst
      rw [hm'] at hst
      have hchild : (s.ofChild m.backend ((g.backends m.backend).onPath
          (s.children m.backend) .remove rel)).2.children m.backend =
          ((g.backends m.backend).onPath (s.children m.backend) .remove rel).2 :=
        Function.update_self _ _ _
      rw [hchild, hnone] at hst
      cases hst
  · intro hhits m rel t r hres ht hr hne
    have heq := ht.change_eq
    rw [← heq] at hr ⊢
    exact hhits.others hres hr _ hne

end State

end Changes

attribute [local instance] asciiLowercase

open Memory State

/-- Two trees in memory: one at the root, and one at `data` that is registered later. -/
abbrev twoMounts : MountGraph Bool where
  backends _ := Memory.new.provider
  mounts := [⟨[], false⟩, ⟨[['d', 'a', 't', 'a']], true⟩]

/-- The file `data/f` in the tree at the root, and the file `f` in the tree at `data`. -/
def bothHold : State twoMounts where
  children
    | false => Memory.new.step (.openPath ['d', 'a', 't', 'a', '/', 'f'] creating)
    | true => Memory.new.step (.openPath ['f'] creating)
  opens := .new

theorem grown_created (p : Str) (hp : Memory.new.Placed (.openPath p creating)) :
    (Memory.new.step (.openPath p creating)).Grown :=
  grown_new.step trivial hp

theorem removes_bothHold : Removes bothHold := by
  have hgrown : ∀ i, (bothHold.children i).Grown := by
    intro i
    cases i with
    | false => exact grown_created _ fun _ _ => ⟨by decide +kernel, by decide +kernel⟩
    | true => exact grown_created _ fun _ _ => ⟨by decide +kernel, by decide +kernel⟩
  intro i rel hok
  exact (hgrown i).getattr_remove hok

/-- The file that is shown at `data/f` is removed: that of the tree at `data`. -/
theorem hits_removed : Hits bothHold .remove [['D', 'a', 't', 'a'], ['F']] := by
  apply (hits_of_aimed removes_bothHold _ _).1
  intro m rel t r hres htakes _
  have hres' : resolves bothHold [['D', 'a', 't', 'a'], ['F']] =
      some (⟨[['d', 'a', 't', 'a']], true⟩, [['F']]) := rfl
  rw [hres', some.injEq, Prod.mk.injEq] at hres
  obtain ⟨rfl, -⟩ := hres
  obtain ⟨path, before, after, hp, hsplit, -, hafter⟩ := htakes
  obtain rfl : path = [['D', 'a', 't', 'a'], ['F']] := (some.inj hp).symm
  -- The mount at `data` is the last one, and at or above the path.
  cases before with
  | nil =>
    have hrest := (cons.inj hsplit).2
    have hnone := hafter ⟨[['d', 'a', 't', 'a']], true⟩ (hrest ▸ mem_cons_self)
    cases hnone
  | cons first before =>
    have hrest := (cons.inj hsplit).2
    cases before with
    | nil =>
      obtain rfl := (cons.inj hrest).1
      exact ⟨rfl, rfl⟩
    | cons second before =>
      have hnil := (cons.inj hrest).2
      simp at hnil

/-- A rename of `data/f` to a place outside of `data`: the file of the tree at the root is
renamed, and the one that is shown at `data/f` stays. -/
theorem rename_misses :
    Removes bothHold ∧ ¬ Hits bothHold
      (.rename [['o', 't', 'h', 'e', 'r'], ['g']]) [['d', 'a', 't', 'a'], ['f']] := by
  refine ⟨removes_bothHold, fun hhits => ?_⟩
  have hkept := @hhits.others
    ⟨[['d', 'a', 't', 'a']], true⟩ [['f']] rfl (by decide +kernel) false (by decide)
  have hfiles := congrArg (fun m : Memory => m.files.keys) hkept
  exact absurd hfiles (by decide +kernel)

end AetherVfs.Compose.MountGraph
