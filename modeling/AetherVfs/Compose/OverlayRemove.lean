import AetherVfs.Compose.OverlayChanges

/-!
# What an overlay shows while a path is removed

The entry of the upper goes first and the marker for the base's comes after it. In between, and for
good if the marker cannot be written, a look at the path falls through to the base.
-/

namespace AetherVfs.Compose.Overlay

section Removal

variable [ToLowercase] {upper base : Provider}

open Act

/-- Which provider `getattr` answers a path from. -/
def State.servedBy (s : State upper base) (p : VPath) : Option Layer :=
  if p = [] then none
  else
    match hiddenByWhiteout (upper.view s.upper) s.whiteouts p with
    | .ok false =>
      match (upper.view s.upper).getattr p with
      | .ok (some _) => some .upper
      | .ok none =>
        match (base.view s.base).getattr p with
        | .ok (some _) => some .base
        | _ => none
      | .error _ => none
    | _ => none

variable {s : State upper base} {p : VPath}

theorem State.servedBy_iff :
    (s.servedBy p = some .upper ↔ p ≠ [] ∧
      hiddenByWhiteout (upper.view s.upper) s.whiteouts p = .ok false ∧
      ∃ st, (upper.view s.upper).getattr p = .ok (some st)) ∧
    (s.servedBy p = some .base ↔ p ≠ [] ∧
      hiddenByWhiteout (upper.view s.upper) s.whiteouts p = .ok false ∧
      (upper.view s.upper).getattr p = .ok none ∧
      ∃ st, (base.view s.base).getattr p = .ok (some st)) := by
  by_cases hp : p = []
  · simp [servedBy, hp]
  · unfold servedBy
    rw [if_neg hp]
    rcases hiddenByWhiteout (upper.view s.upper) s.whiteouts p with e | _ | _
    · simp
    · rcases (upper.view s.upper).getattr p with e | _ | st
      · simp
      · rcases (base.view s.base).getattr p with e | _ | st <;> simp [hp]
      · simp [hp]
    · simp

/-! ## The walk alone -/

section Walk

variable {U : View} {p : VPath} {own ancestors : Bool}

theorem walkFrom_of_walkLoop {n : ℕ} {ix ix' : WhiteoutIndex} {b : Bool}
    (h : walkLoop U p own ancestors n ix = (.ok b, ix')) :
    walkFrom ix' ancestors own p.reverse = .found b := by
  induction n generalizing ix with
  | zero => cases h
  | succ n ih =>
    rw [walkLoop] at h
    cases hwalk : walkFrom ix ancestors own p.reverse with
    | found hidden =>
      rw [hwalk] at h
      cases h
      exact hwalk
    | unscanned dir =>
      rw [hwalk] at h
      simp only at h
      cases hscan : scanWhiteouts U dir with
      | error e =>
        rw [hscan] at h
        cases h
      | ok hidden =>
        rw [hscan] at h
        exact ih h

theorem walkLoop_of_found {V : View} {n : ℕ} {ix : WhiteoutIndex} {b : Bool}
    (h : walkFrom ix ancestors own p.reverse = .found b) :
    walkLoop V p own ancestors (n + 1) ix = (.ok b, ix) := by
  rw [walkLoop, h]

/-- The walk of a single thread: it passes through states with more and more of the index, in all
of which the answer is the same. -/
theorem wp_walkRounds {C : Bool → State upper base → Prop} {Q : Bool → State upper base → Prop}
    {E : Status → State upper base → Prop} {n : ℕ} {ix' : WhiteoutIndex} {b : Bool}
    (h : walkLoop (upper.view s.upper) p own ancestors n s.whiteouts = (.ok b, ix'))
    (hC : ∀ m ix, m ≤ n → walkLoop (upper.view s.upper) p own ancestors m ix = (.ok b, ix') →
      C true { s with whiteouts := ix }) :
    Prog.wp (fun _ : Unit => True) C Q E (walkRounds p own ancestors n) s ↔
      Q b { s with whiteouts := ix' } := by
  induction n generalizing s with
  | zero => cases h
  | succ n ih =>
    have hhere : C true s := hC (n + 1) s.whiteouts le_rfl h
    rw [walkRounds, Prog.wp_bind, wp_inspect, and_iff_right hhere]
    rw [walkLoop] at h
    cases hwalk : walkFrom s.whiteouts ancestors own p.reverse with
    | found hidden =>
      rw [hwalk] at h
      cases h
      rfl
    | unscanned dir =>
      rw [hwalk] at h
      simp only at h ⊢
      rw [Prog.wp_bind, wp_look, and_iff_right hhere]
      cases hscan : scanWhiteouts (upper.view s.upper) dir with
      | error e =>
        rw [hscan] at h
        cases h
      | ok hidden =>
        rw [hscan] at h
        rw [then_ok, Prog.wp_bind, wp_update, and_iff_right hhere, if_pos rfl]
        exact ih h fun m ix hm => hC m ix (Nat.le_succ_of_le hm)

end Walk

/-! ## The removal -/

/-- Neither the open of the marker nor a close takes the entry at `p` away. -/
structure Steady (upper : Provider) (p : VPath) : Prop where
  opens : ∀ u, (upper.view u).getattr p ≠ .ok none →
    (upper.view (upper.openPath u (whiteoutPath p) writeCreateTrunc).2).getattr p ≠ .ok none
  closes : ∀ u h, (upper.view u).getattr p ≠ .ok none →
    (upper.view (upper.onHandle u .close h).2).getattr p ≠ .ok none

theorem writeWhiteout_keeps (h : Steady upper p) :
    Prog.Keeps (fun _ : Unit => True)
      (fun s : State upper base => (upper.view s.upper).getattr p ≠ .ok none)
      (writeWhiteout p) := by
  apply Prog.Keeps.bind
  · exact .call fun _ s _ hs => h.opens s.upper hs
  · intro o
    apply Prog.Keeps.bind
    · exact .call fun _ s _ hs => h.closes s.upper o.handle hs
    · exact fun _ => .update fun _ hs => hs

theorem servedBy_ne_base_of_stat (h : (upper.view s.upper).getattr p ≠ .ok none) :
    s.servedBy p ≠ some .base :=
  fun hbase => h (State.servedBy_iff.2.mp hbase).2.2.1

/-- For a path that is served from the upper and is in the base as well: at no point of a removal,
nor after it, is the base's entry served, exactly if the upper's own removal leaves its
entry. -/
theorem remove_hides_base_iff {s : State upper base} {p : VPath}
    (hsteady : Steady upper p) (hserved : s.servedBy p = some .upper)
    (hbase : ∃ st, (base.view s.base).getattr p = .ok (some st)) :
    (∀ cs, ((remove (p.length + 2) p).upTo cs s).servedBy p ≠ some .base) ↔
      (upper.view (upper.onPath s.upper .remove p).2).getattr p ≠ .ok none := by
  obtain ⟨hp, hhidden, st, hst⟩ := State.servedBy_iff.1.mp hserved
  obtain ⟨bst, hbst⟩ := hbase
  -- The walk finds the path visible and leaves an index that says so by itself.
  obtain ⟨ix, hwalk⟩ : ∃ ix, walkLoop (upper.view s.upper) p true true (p.length + 2) s.whiteouts =
      (.ok false, ix) := ⟨_, Prod.ext hhidden rfl⟩
  have hfound := walkFrom_of_walkLoop hwalk
  have hst' : (upper.view s.upper).getattr p ≠ .ok none := by simp [hst]
  have hhere : ∀ ix', ({ s with whiteouts := ix' } : State upper base).servedBy p ≠ some .base :=
    fun _ => servedBy_ne_base_of_stat hst'
  -- After the upper's removal only its answer decides.
  have hafter : ∀ u, ({ s with whiteouts := ix, upper := u } : State upper base).servedBy p ≠
      some .base ↔ (upper.view u).getattr p ≠ .ok none := by
    intro u
    rw [not_iff_not, State.servedBy_iff.2]
    have hstill : hiddenByWhiteout (upper.view u) ix p = .ok false := by
      rw [hiddenByWhiteout, whiteoutWalk, walkLoop_of_found hfound]
    exact ⟨fun h => h.2.2.1, fun h => ⟨hp, hstill, h, bst, hbst⟩⟩
  let I : State upper base → Prop := fun s' => s'.servedBy p ≠ some .base
  refine (Prog.wp_iff_upTo (I := I)).symm.trans ?_
  rw [remove, Prog.wp_bind, wp_walkRounds hwalk fun _ ix' _ _ => hhere ix']
  simp only [Bool.false_eq_true, if_false]
  rw [Prog.wp_bind, wp_upperStat, and_iff_right (hhere ix), hst, then_ok, Prog.wp_bind,
    wp_baseStat, and_iff_right (hhere ix), hbst, then_ok]
  simp only [Option.isNone_some, Option.isSome_some, Bool.false_eq_true, false_and, if_false,
    if_true]
  rw [Prog.wp_bind, wp_onUpper, and_iff_right (hhere ix)]
  cases hremoved : (upper.onPath s.upper .remove p).1 with
  | error e => exact hafter _
  | ok u =>
    refine ⟨fun h => (hafter _).mp ?_, fun h => ?_⟩
    · exact h.1
    · exact (writeWhiteout_keeps hsteady _ h).mono (fun _ _ => servedBy_ne_base_of_stat)
        (fun _ _ => servedBy_ne_base_of_stat) fun _ _ => servedBy_ne_base_of_stat

end Removal

attribute [local instance] asciiLowercase

/-- An upper that refuses to remove anything goes on serving its entry. -/
theorem remove_hides_base_stray :
    let s := State.start (served stray .readWrite true) (served stray .read true)
    ∀ cs, ((remove 3 [['d']]).upTo cs s).servedBy [['d']] ≠ some .base :=
  (remove_hides_base_iff ⟨fun _ h => h, fun _ _ h => h⟩ rfl ⟨_, rfl⟩).mpr (by decide)

def oneFile : Memory := .fromFiles [(['x'], [])]

abbrev inMemory : Provider := oneFile.provider

abbrev sealedMemory : Provider := { inMemory with openPath := fun s _ _ => (.error .ioError, s) }

/-- Between the removal of the upper's file and the marker the base's file is served, and it stays
so if the marker cannot be written. -/
theorem base_resurfaces :
    let s := State.start inMemory inMemory
    let s' := State.start sealedMemory inMemory
    s.servedBy [['x']] = some .upper ∧
      ((remove 3 [['x']]).upTo (List.replicate 7 ()) s).servedBy [['x']] = some .base ∧
      s'.servedBy [['x']] = some .upper ∧
      ((remove 3 [['x']]).exec () [] s').1 = some (.error .ioError) ∧
      ((remove 3 [['x']]).exec () [] s').2.servedBy [['x']] = some .base :=
  ⟨rfl, rfl, rfl, rfl, rfl⟩

end AetherVfs.Compose.Overlay
