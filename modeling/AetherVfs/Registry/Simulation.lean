import AetherVfs.Registry.Shown

/-!
# The overlay against a plain registry

A `Machine` is the real registry and the overlay over it; the shim's writes
(`vfs-shim/src/regwrite.rs`) change the overlay only. `Reference` is an ordinary registry: a key
by folded path, and in it the values by folded name, with no layers. Every write the shim sends
under its own conditions does to the merged view what it does to the plain registry, so the two
agree after any sequence of them.
-/

namespace AetherVfs.Registry

/-- The writes the shim sends. The director creates every key as created-here. -/
inductive Write where
  | setValue (path : Path) (name : Str) (ty : UInt32) (data : List UInt8)
  | deleteValue (path : Path) (name : Str)
  | createKey (path : Path) (volatile : Bool)
  | deleteKey (path : Path)

def Write.op (now : UInt64) : Write → Overlay.Op
  | .setValue path name ty data => .setValue path name ty data now
  | .deleteValue path name => .deleteValue path name now
  | .createKey path volatile => .createKey path volatile false now
  | .deleteKey path => .deleteKey path now

section

variable [ToLowercase]

/-- The write is within the limits on paths, names and data; any other is refused. -/
def Write.accepted : Write → Bool
  | .setValue path name _ data =>
    validPath path && (checkKeyName path).isOk && (checkDepth path maxWriteDepth).isOk &&
      decide (utf16Len name ≤ maxValueName) && decide (data.length ≤ maxData)
  | .deleteValue path name =>
    validPath path && (checkKeyName path).isOk && decide (utf16Len name ≤ maxValueName)
  | .createKey path _ =>
    validPath path && (checkKeyName path).isOk && (checkDepth path maxWriteDepth).isOk
  | .deleteKey path => validPath path && (parent path).isSome

abbrev Reference := Path → Option PlainKey

namespace Reference

def ofReal (R : Real) : Reference := fun k => (R.key k).map fun v => valueOf v.values

def apply (r : Reference) : Write → Reference
  | .setValue path name ty data =>
    Function.update r (foldPath path)
      ((r (foldPath path)).map fun key => Function.update key (fold name) (some (ty, data)))
  | .deleteValue path name =>
    Function.update r (foldPath path)
      ((r (foldPath path)).map fun key => Function.update key (fold name) none)
  | .createKey path _ => Function.update r (foldPath path) (some fun _ => none)
  | .deleteKey path => Function.update r (foldPath path) none

def step (r : Reference) (w : Write × UInt64) : Reference :=
  if w.1.accepted then r.apply w.1 else r

end Reference

structure Machine where
  real : Real
  overlay : Overlay

namespace Machine

def view (m : Machine) (p : Path) : Option KeyView := m.overlay.view m.real p

def step (m : Machine) (w : Write × UInt64) : Machine :=
  { m with overlay := m.overlay.step (w.1.op w.2) }

/-- What the shim checks before it sends a write. -/
def issued (m : Machine) (w : Write × UInt64) : Bool :=
  match w.1 with
  | .setValue path _ _ _ => (m.view path).isSome
  | .deleteValue path _ => (m.view path).isSome
  | .createKey path _ => ((parent path).any fun pp => (m.view pp).isSome) && (m.view path).isNone
  | .deleteKey path => (m.view path).any fun v => v.subkeys.isEmpty

end Machine

omit [ToLowercase] in
theorem isOk_iff {ε : Type} (x : Except ε Unit) : x.isOk = true ↔ x = .ok () := by
  cases x <;> simp [Except.isOk, Except.toBool]

namespace Overlay

variable {R : Real} {o : Overlay} {k : Path}

theorem over_valueSet (name : Str) (ty : UInt32) (data : List UInt8) (now : UInt64) (e : Entry)
    (real : Option KeyView) : (valueSet name ty data now e).node.over real =
      Function.update (e.node.over real) (fold name) (some (ty, data)) := by
  funext f
  by_cases hf : f = fold name
  · subst hf
    simp [Node.over, valueSet, valueOf_putValue]
  · simp [Node.over, valueSet, valueOf_putValue, hf]

theorem over_valueDeleted (name : Str) (now : UInt64) (e : Entry) (real : Option KeyView) :
    (valueDeleted name now e).node.over real =
      Function.update (e.node.over real) (fold name) none := by
  funext f
  have hvalues : valueOf (valueDeleted name now e).node.values f =
      if f = fold name then none else valueOf e.node.values f := by
    have h := valueOf_filter e.node.values (fun g => decide (g ≠ fold name)) f
    simp only [valueDeleted]
    rw [h]
    by_cases hf : f = fold name <;> simp [hf]
  have htombs : f ∈ (valueDeleted name now e).node.valueTombstones ↔
      f = fold name ∨ f ∈ e.node.valueTombstones := by
    simp only [valueDeleted]
    grind
  have hcreated : (valueDeleted name now e).node.created = e.node.created := rfl
  by_cases hf : f = fold name
  · subst hf
    simp [Node.over, hvalues, htombs]
  · simp [Node.over, hvalues, htombs, hf, hcreated]

theorem step_of_ok {op : Op} {r : ℕ × Overlay} (h : o.call op = .ok r) : o.step op = r.2 := by
  rw [step, h]

theorem step_of_not_ok {op : Op} (h : ∀ r, o.call op ≠ .ok r) : o.step op = o := by
  cases hcall : o.call op with
  | ok r => exact absurd hcall (h r)
  | error err => rw [step, hcall]

theorem accepted_of_ok {w : Write} {now : UInt64} {r : ℕ × Overlay}
    (h : o.call (w.op now) = .ok r) : w.accepted = true := by
  cases w with
  | setValue path name ty data =>
    obtain ⟨⟨hp, ⟨hkey, hdepth⟩, hname, hdata⟩, -⟩ := setValue_eq_ok.mp h
    simp [Write.accepted, isOk_iff, hp, hkey, hdepth, hname, hdata]
  | deleteValue path name =>
    obtain ⟨⟨hp, hkey, hname, -⟩, -⟩ := deleteValue_eq_ok.mp h
    simp [Write.accepted, isOk_iff, hp, hkey, hname]
  | createKey path volatile =>
    obtain ⟨⟨hp, ⟨hkey, hdepth⟩, -⟩, -⟩ := createKey_eq_ok.mp h
    simp [Write.accepted, isOk_iff, hp, hkey, hdepth]
  | deleteKey path =>
    obtain ⟨pp, ⟨hp, hparent, -⟩, -⟩ := deleteKey_eq_ok.mp h
    simp [Write.accepted, hp, hparent]

theorem notMem_of_shown_eq_none (h : o.shown R k = none) : k ∉ o.entries := by
  intro hin
  obtain ⟨e, he⟩ := Table.exists_lookup hin
  rw [shown_of_lookup he] at h
  cases h

theorem Inv.not_tombstoned_of_shown (h : Inv o) {p : Path} (hp : validPath p = true)
    (hvis : (o.shown R (foldPath p)).isSome) : (o.lookup p).1 ≠ .tombstoned := by
  intro hdead
  cases he : o.entries.lookup (foldPath p) with
  | some e => simp [Overlay.lookup, hp, he] at hdead
  | none =>
    have hhid := (h.hidden_iff_lookup hp he).mpr (Or.inl hdead)
    exact not_hidden_of_shown hvis (AList.lookup_eq_none.mp he) hhid

theorem Inv.shown_chain (h : Inv o) {path : Path} (hp : validPath path = true)
    (hvis : (o.shown R (foldPath path)).isSome) (v : ℕ) (now : UInt64) :
    (∀ k, (o.bumped.ensureChain path true v now).shown R k = o.shown R k) ∧
      ∃ e, (o.bumped.ensureChain path true v now).entries.lookup (foldPath path) = some e := by
  have hb : Inv o.bumped := h.version _
  obtain ⟨h₁, hin⟩ := hb.ensureChain hp true v now
  refine ⟨fun k => ?_, Table.exists_lookup hin⟩
  refine (hb.grown_ensureChain hp true v now).shown_eq hb h₁ (fun j htop hj _ => ?_) nofun
  exact h.shown_above htop hj hvis

theorem Inv.shown_written (h : Inv o) {path : Path} (hp : validPath path = true)
    (hvis : (o.shown R (foldPath path)).isSome) {g : Entry → Entry} {u : PlainKey → PlainKey}
    (hg : ∀ e, (g e).node.created = e.node.created)
    (hover : ∀ e real, (g e).node.over real = u (e.node.over real)) (v : ℕ) (now : UInt64) :
    (((o.bumped.ensureChain path true v now).modify (foldPath path) g).mark path v).shown R =
      Function.update (o.shown R) (foldPath path) ((o.shown R (foldPath path)).map u) := by
  obtain ⟨hsame, e, he⟩ := h.shown_chain hp hvis v now
  funext k
  rw [shown_mark hp hg he]
  by_cases hk : k = foldPath path
  · subst hk
    rw [if_pos rfl, Function.update_self, ← hsame, shown_of_lookup he, hover]
    rfl
  · rw [if_neg hk, Function.update_of_ne hk, hsame]

theorem Inv.shown_createdKey (h : Inv o) {path pp : Path} (hp : validPath path = true)
    (hparent : parent path = some pp) (hvis : (o.shown R (foldPath pp)).isSome)
    (hnone : o.shown R (foldPath path) = none) (volatile : Bool) (v : ℕ) (now : UInt64) :
    (((o.bumped.ensureChain path false v now).modify (foldPath path)
      (madeVolatile volatile)).mark path v).shown R =
      Function.update (o.shown R) (foldPath path) (some fun _ => none) := by
  have hb : Inv o.bumped := h.version _
  have hroot := root_prefix_foldPath hp
  have hout := notMem_of_shown_eq_none hnone
  obtain ⟨h₁, hin⟩ := hb.ensureChain hp false v now
  have hg := hb.grown_ensureChain hp false v now
  have hend := fun {k} hk => hg.shown_created (R := R) (k := k) hb hroot hout hin hk
  obtain ⟨e, he⟩ := Table.exists_lookup hin
  funext k
  rw [shown_mark (g := madeVolatile volatile) hp (fun _ => rfl) he]
  by_cases hk : k = foldPath path
  · subst hk
    have hself := hend List.prefix_rfl
    rw [if_pos rfl, shown_of_lookup he] at hself
    rw [if_pos rfl, Function.update_self, ← hself]
    exact congrArg some (over_congr rfl rfl rfl _)
  · rw [if_neg hk, Function.update_of_ne hk]
    by_cases hbelow : foldPath path <+: k
    · rw [hend hbelow, if_neg hk]
      by_contra hne
      have hvisk : (o.shown R k).isSome := Option.isSome_iff_ne_none.mpr (Ne.symm hne)
      have hvisp := h.shown_above hroot hbelow hvisk
      rw [hnone] at hvisp
      cases hvisp
    · refine hg.shown_eq hb h₁ (fun j htop hj hne => ?_) fun _ => hbelow
      refine h.shown_above htop ?_ hvis
      rw [foldPath_parent hp hparent] at hj hne
      rcases List.prefix_concat_iff.mp hj with heq | hj
      · exact absurd heq (hne rfl)
      · exact hj

theorem Inv.shown_deletedKey (h : Inv o) {path pp : Path} (hp : validPath path = true)
    (hparent : parent path = some pp) (hvis : (o.shown R (foldPath pp)).isSome) (v : ℕ)
    (now : UInt64) (k : Path) :
    (((o.bumped.ensureChain pp true v now).cutBelow (foldPath pp) (leaf path) v
      now).touchAncestors pp v).shown R k =
      if foldPath path <+: k then none else o.shown R k := by
  have hpp := (validPath_parent hp hparent).1
  rw [shown_touchAncestors _ hpp, shown_cutBelow, foldPath_parent hp hparent,
    (h.shown_chain hpp hvis v now).1]

/-- A key without subkeys goes away alone. -/
theorem Inv.shown_deletedLeaf (h : Inv o) {path pp : Path} (hp : validPath path = true)
    (hparent : parent path = some pp) {view : KeyView} (hview : o.seen R (foldPath path) = some view)
    (hempty : view.subkeys = []) (v : ℕ) (now : UInt64) :
    (((o.bumped.ensureChain pp true v now).cutBelow (foldPath pp) (leaf path) v
      now).touchAncestors pp v).shown R = Function.update (o.shown R) (foldPath path) none := by
  have hvis : (o.shown R (foldPath path)).isSome := by rw [isSome_shown, hview]; rfl
  have hvisp : (o.shown R (foldPath pp)).isSome := by
    refine h.shown_above (root_prefix_foldPath (validPath_parent hp hparent).1) ?_ hvis
    rw [foldPath_parent hp hparent]
    exact List.prefix_append _ _
  funext k
  rw [h.shown_deletedKey hp hparent hvisp, Function.update_apply]
  by_cases hk : k = foldPath path
  · rw [if_pos hk, if_pos (hk ▸ List.prefix_rfl)]
  · rw [if_neg hk, ite_eq_right_iff]
    rintro ⟨s, rfl⟩
    -- What is below a key goes through one of its subkeys, and that one would be listed.
    obtain ⟨c, s, rfl⟩ := List.exists_cons_of_ne_nil fun hs : s = [] => hk (by simp [hs])
    by_contra hne
    have hchild : (o.shown R (foldPath path ++ [c])).isSome := by
      refine h.shown_above ((root_prefix_foldPath hp).trans (List.prefix_append _ _))
        ⟨s, by simp⟩ (Option.isSome_iff_ne_none.mpr (Ne.symm hne))
    obtain ⟨sub, hsub, -⟩ := (h.subkeys_iff hview c).mpr hchild
    rw [hempty] at hsub
    cases hsub

theorem Inv.shown_step (h : Inv o) {w : Write × UInt64} (hw : Machine.issued ⟨R, o⟩ w = true) :
    (o.step (w.1.op w.2)).shown R = Reference.step (o.shown R) w := by
  obtain ⟨w, now⟩ := w
  have hview : ∀ {p : Path}, validPath p = true →
      (o.shown R (foldPath p)).isSome = (o.view R p).isSome := by
    intro p hp
    rw [isSome_shown, h.view_eq_seen R hp]
  simp only [Reference.step]
  by_cases hacc : w.accepted = true
  swap
  · rw [if_neg hacc, step_of_not_ok fun r hr => hacc (accepted_of_ok hr)]
  rw [if_pos hacc]
  cases w with
  | setValue path name ty data =>
    obtain ⟨hp, hrest⟩ : validPath path = true ∧ Writable path ∧ utf16Len name ≤ maxValueName ∧
        data.length ≤ maxData := by
      simpa [Write.accepted, Writable, isOk_iff, and_assoc] using hacc
    have hcall : o.call (.setValue path name ty data now) = .ok _ :=
      setValue_eq_ok.mpr ⟨⟨hp, hrest⟩, rfl⟩
    rw [Write.op, step_of_ok hcall]
    exact h.shown_written (g := valueSet name ty data now)
      (u := fun key => Function.update key (fold name) (some (ty, data))) hp ((hview hp).trans hw)
      (fun _ => rfl) (over_valueSet name ty data now) _ now
  | deleteValue path name =>
    obtain ⟨hp, hkey, hname⟩ : validPath path = true ∧ checkKeyName path = .ok () ∧
        utf16Len name ≤ maxValueName := by
      simpa [Write.accepted, isOk_iff, and_assoc] using hacc
    have hvis := (hview hp).trans hw
    have hcall : o.call (.deleteValue path name now) = .ok _ :=
      deleteValue_eq_ok.mpr ⟨⟨hp, hkey, hname, h.not_tombstoned_of_shown hp hvis⟩, rfl⟩
    rw [Write.op, step_of_ok hcall]
    exact h.shown_written (g := valueDeleted name now)
      (u := fun key => Function.update key (fold name) none) hp hvis
      (fun _ => rfl) (over_valueDeleted name now) _ now
  | createKey path volatile =>
    obtain ⟨hp, hwrite⟩ : validPath path = true ∧ Writable path := by
      simpa [Write.accepted, Writable, isOk_iff, and_assoc] using hacc
    simp only [Machine.issued, Bool.and_eq_true, Option.isNone_iff_eq_none] at hw
    rw [Option.any_eq_true] at hw
    obtain ⟨⟨pp, hparent, hvis⟩, hnone⟩ := hw
    have hvis := (hview (validPath_parent hp hparent).1).trans hvis
    have hnone : o.shown R (foldPath path) = none := by
      rw [← Option.not_isSome_iff_eq_none, hview hp, Option.not_isSome_iff_eq_none]
      exact hnone
    have hcall : o.call (.createKey path volatile false now) = .ok _ :=
      createKey_eq_ok.mpr ⟨⟨hp, hwrite, notMem_of_shown_eq_none hnone⟩, rfl⟩
    rw [Write.op, step_of_ok hcall]
    exact h.shown_createdKey hp hparent hvis hnone volatile _ now
  | deleteKey path =>
    obtain ⟨hp, pp, hparent⟩ : validPath path = true ∧ ∃ pp, parent path = some pp := by
      simpa [Write.accepted, Option.isSome_iff_exists] using hacc
    obtain ⟨view, hview', hempty⟩ := (Option.any_eq_true _ _).mp hw
    have hseen : o.seen R (foldPath path) = some view := (h.view_eq_seen R hp).symm.trans hview'
    have hlive := h.not_tombstoned_of_shown (R := R) hp (by rw [isSome_shown, hseen]; rfl)
    have hcall : o.call (.deleteKey path now) = .ok _ :=
      deleteKey_eq_ok.mpr ⟨pp, ⟨hp, hparent, hlive⟩, rfl⟩
    rw [Write.op, step_of_ok hcall]
    exact h.shown_deletedLeaf hp hparent hseen (List.isEmpty_iff.mp hempty) _ now

theorem shown_new (R : Real) : new.shown R = Reference.ofReal R := by
  funext k
  have hshow : ¬ new.hidden k = true := by
    rw [hidden_iff]
    rintro (⟨a, -, ht⟩ | ⟨a, e, -, -, he, -⟩)
    · simp [new] at ht
    · simp [new] at he
  rw [shown_of_none rfl, if_neg hshow]
  rfl

end Overlay

namespace Machine

/-- After any writes the shim sends under its own conditions, the real registry is as it was, and
the merged view at every path is the plain registry that started as the real one and had the same
writes applied to it: the same keys, with the same values under the same subkeys. -/
theorem view_run_eq_reference (R : Real) {ws : List (Write × UInt64)}
    (hws : Transition.AllSteps step (fun m w => m.issued w = true) ⟨R, Overlay.new⟩ ws) :
    let m := Transition.run step ⟨R, Overlay.new⟩ ws
    let r := Transition.run Reference.step (Reference.ofReal R) ws
    m.real = R ∧ ∀ p, validPath p = true →
      ((m.view p).map fun v => valueOf v.values) = r (foldPath p) ∧
      ∀ v, m.view p = some v → ∀ c,
        (∃ s ∈ v.subkeys, fold s = c) ↔ (r (foldPath p ++ [c])).isSome := by
  intro m r
  have hsim : m.overlay.Inv ∧ m.real = R ∧ m.overlay.shown R = r := by
    refine Transition.run_simulation
      (r := fun (m : Machine) r => m.overlay.Inv ∧ m.real = R ∧ m.overlay.shown R = r)
      ?_ ⟨Overlay.inv_new, rfl, Overlay.shown_new R⟩ hws
    rintro ⟨_, o⟩ r w ⟨hinv, rfl, rfl⟩ hw
    exact ⟨hinv.step _, rfl, hinv.shown_step hw⟩
  obtain ⟨hinv, hreal, hshown⟩ := hsim
  refine ⟨hreal, fun p hp => ?_⟩
  have hview : m.view p = m.overlay.seen R (foldPath p) := by
    rw [view, hreal, hinv.view_eq_seen R hp]
  rw [hview, ← hshown]
  exact ⟨rfl, fun v hv c => hinv.subkeys_iff hv c⟩

end Machine

end

attribute [local instance] asciiLowercase

/-- A real registry with one key below the root, and one value in it. -/
def oneKey : Real := Real.along (root ++ [['s']]) [⟨['v'], 1, [7]⟩] (by decide)

def keyS : Path := [[], ['R', 'e', 'g', 'i', 's', 't', 'r', 'y'], ['S']]

/-- The key is deleted and created again, and a value is written below the new one. -/
def recreateWrites : List (Write × UInt64) :=
  [(.deleteKey keyS, 5), (.createKey keyS false, 6), (.createKey (keyS ++ [['K']]) false, 7),
    (.setValue (keyS ++ [['K']]) ['w'] 4 [1, 2], 8), (.deleteValue keyS ['V'], 9)]

def oneKeyMachine : Machine := ⟨oneKey, Overlay.new⟩

theorem view_recreateWrites :
    Transition.AllSteps Machine.step (fun m w => m.issued w = true) oneKeyMachine recreateWrites ∧
    (((Transition.run Machine.step oneKeyMachine recreateWrites).view keyS).map
      fun v => valueOf v.values) =
      Transition.run Reference.step (Reference.ofReal oneKey) recreateWrites (foldPath keyS) := by
  have hws : Transition.AllSteps Machine.step (fun m w => m.issued w = true) oneKeyMachine
      recreateWrites := by decide +kernel
  exact ⟨hws, ((Machine.view_run_eq_reference oneKey hws).2 keyS rfl).1⟩

end AetherVfs.Registry
