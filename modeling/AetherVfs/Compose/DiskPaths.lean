import AetherVfs.Compose.Disk

/-!
# Which paths a disk provider hands to the host

On Unix a component is a single name, so every path stays below the root, except that an open
that creates looks at the parent of the root when its path names nothing. On Windows a
component may hold a drive, a root or backslashes, and the path it is pushed onto is left.
-/

namespace AetherVfs.Compose.Disk

open HostPath List

/-! ## The rules for calls -/

namespace Calls

variable {α β : Type} {host : Host} {P : PathBuf → Prop}

theorem Meets.bind {Q : α → Prop} {R : β → Prop} {m : Calls α} {f : α → Calls β}
    (hm : m.Meets host P Q) (hf : ∀ a, Q a → (f a).Meets host P R) :
    (m.bind f).Meets host P R := by
  induction m with
  | done a => exact hf a hm
  | metadata p k ih | symlinkMetadata p k ih | openFile p flags k ih | change p k ih =>
    exact ⟨hm.1, fun r => ih r (hm.2 r)⟩
  | readDir p k ih =>
    exact ⟨hm.1, fun err => ih _ (hm.2.1 err), fun es hes => ih _ (hm.2.2 es hes)⟩

theorem Meets.mono {Q R : α → Prop} {m : Calls α} (hm : m.Meets host P Q)
    (h : ∀ a, Q a → R a) : m.Meets host P R := by
  induction m with
  | done a => exact h a hm
  | metadata p k ih | symlinkMetadata p k ih | openFile p flags k ih | change p k ih =>
    exact ⟨hm.1, fun r => ih r (hm.2 r)⟩
  | readDir p k ih =>
    exact ⟨hm.1, fun err => ih _ (hm.2.1 err), fun es hes => ih _ (hm.2.2 es hes)⟩

theorem forall_result {ε : Type} {R : Except ε α → Prop} :
    (∀ r, R r) ↔ (∀ a, R (.ok a)) ∧ ∀ e, R (.error e) :=
  ⟨fun h => ⟨fun a => h _, fun e => h _⟩, fun h r => by cases r; exacts [h.2 _, h.1 _]⟩

theorem forall_ioKind {R : IoKind → Prop} :
    (∀ e, R e) ↔ R .notFound ∧ R .notADirectory ∧ R .alreadyExists ∧ R .other :=
  ⟨fun h => ⟨h _, h _, h _, h _⟩, fun h e => by cases e; exacts [h.1, h.2.1, h.2.2.1, h.2.2.2]⟩

end Calls

/-! ## What is pushed -/

def allSegs (host : Host) (ps : List Str) : List Seg :=
  ps.flatMap fun part => (parse host part).segs

def Refused (rel : Str) : Prop := dotDot ∈ parts rel

instance (rel : Str) : Decidable (Refused rel) := inferInstanceAs (Decidable (_ ∈ _))

/-- No component starts the path over, and together they never climb above the root. -/
def Stay (host : Host) (rel : Str) : Prop :=
  (∀ part ∈ parts rel, ¬ Carries host part) ∧ Stays 0 (allSegs host (parts rel))

instance (host : Host) (rel : Str) : Decidable (Stay host rel) :=
  inferInstanceAs (Decidable (_ ∧ _))

def Named (host : Host) (rel : Str) : Prop := ∃ s ∈ allSegs host (parts rel), s ≠ dot

instance (host : Host) (rel : Str) : Decidable (Named host rel) :=
  inferInstanceAs (Decidable (∃ s ∈ _, _))

variable {host : Host} {p q : PathBuf} {ps : List Str} {named : Prop} {rel : Str} {s : State}
  {flags : Flags}

theorem push_of_not_carries {s : Str} (h : ¬ Carries host s) :
    p.push host s = { p with segs := p.segs ++ (parse host s).segs } := by
  obtain ⟨hdrive, hroot⟩ := not_or.mp h
  rw [PathBuf.push, if_neg hdrive, if_neg hroot]

theorem pushParts_eq_none : pushParts host p ps = none ↔ dotDot ∈ ps := by
  induction ps generalizing p with
  | nil => simp [pushParts]
  | cons part rest ih =>
    rw [pushParts, mem_cons]
    split_ifs with h
    · simp [h]
    · rw [ih, or_iff_right (Ne.symm h)]

theorem pushParts_of_not_carries (hps : ∀ part ∈ ps, ¬ Carries host part)
    (h : pushParts host p ps = some q) : q = { p with segs := p.segs ++ allSegs host ps } := by
  induction ps generalizing p with
  | nil =>
    cases h
    simp [allSegs]
  | cons part rest ih =>
    obtain ⟨hpart, hrest⟩ := forall_mem_cons.mp hps
    rw [pushParts] at h
    split_ifs at h
    rw [ih hrest h, push_of_not_carries hpart]
    simp [allSegs, append_assoc]

theorem mem_segs_of_carries {fresh : Seg} (hfresh : fresh ∉ allSegs host ps)
    (h : pushParts host p ps = some q) (hcarry : fresh ∉ p.segs ∨ ∃ part ∈ ps, Carries host part) :
    fresh ∉ q.segs := by
  induction ps generalizing p with
  | nil =>
    cases h
    exact hcarry.resolve_right (by simp)
  | cons part rest ih =>
    rw [allSegs, flatMap_cons, mem_append, not_or] at hfresh
    rw [pushParts] at h
    split_ifs at h
    apply ih hfresh.2 h
    by_cases hpart : Carries host part
    · left
      unfold PathBuf.push
      split_ifs with hdrive hroot
      · exact hfresh.1
      · exact hfresh.1
      · exact absurd hpart (not_or.mpr ⟨hdrive, hroot⟩)
    · rcases hcarry with hp | ⟨part', hmem, hcarry⟩
      · left
        rw [push_of_not_carries hpart, mem_append, not_or]
        exact ⟨hp, hfresh.1⟩
      · right
        rcases mem_cons.mp hmem with rfl | hmem
        · exact absurd hcarry hpart
        · exact ⟨part', hmem, hcarry⟩

theorem exists_fresh (host : Host) (l : List Seg) : ∃ f, IsPlain host f ∧ f ∉ l := by
  have hlong : ∀ l : List Seg, ∀ s ∈ l, s.length ≤ (l.map length).sum := by
    intro l s hs
    exact single_le_sum (fun _ _ => Nat.zero_le _) _ (mem_map_of_mem hs)
  refine ⟨replicate ((l.map length).sum + 1) 'x', ⟨by simp, ?_, ?_, ?_⟩, fun hmem => ?_⟩
  · simp [dot, replicate_succ]
  · simp [dotDot, replicate_succ]
  · intro c hc
    rw [eq_of_mem_replicate hc]
    cases host <;> rfl
  · have := hlong l _ hmem
    simp at this

/-! ## Paths that stay inside -/

section Inside

variable {host : Host} {root : Root host}

/-- The root extended by segments that stay, one of them more than `.` if the path is `named`. -/
def Inside (root : Root host) (named : Prop) (p : PathBuf) : Prop :=
  ∃ segs, p = ⟨root.drive, true, root.names ++ segs⟩ ∧ Stays 0 segs ∧
    (named → ∃ s ∈ segs, s ≠ dot)

theorem Inside.below (h : Inside root named p) : root.Below p := by
  obtain ⟨segs, rfl, hstays, -⟩ := h
  exact root.below_of_stays hstays

theorem Inside.mono {other : Prop} (h : Inside root named p) (hother : other → named) :
    Inside root other p := by
  obtain ⟨segs, hp, hstays, hnamed⟩ := h
  exact ⟨segs, hp, hstays, fun ho => hnamed (hother ho)⟩

theorem filter_names (root : Root host) : root.names.filter (· ≠ dot) = root.names := by
  rw [filter_eq_self]
  intro n hn
  simpa using (root.plain n hn).2.1

theorem Inside.parent {dir : PathBuf} (h : Inside root True p) (hdir : p.parent = some dir) :
    root.Below dir := by
  obtain ⟨segs, rfl, hstays, hnamed⟩ := h
  obtain ⟨s, hs, hne⟩ := hnamed trivial
  have hfilter : segs.filter (· ≠ dot) ≠ [] :=
    ne_nil_of_mem (mem_filter.mpr ⟨hs, by simpa using hne⟩)
  unfold PathBuf.parent at hdir
  rw [filter_append, filter_names] at hdir
  split_ifs at hdir
  cases hdir
  rw [dropLast_append_of_ne_nil hfilter]
  apply root.below_of_stays
  have hall := stays_filter_dot.mpr hstays
  rw [← dropLast_append_getLast hfilter] at hall
  exact hall.of_append

theorem resolve_inside (hstay : Stay host rel) (h : resolve host root.path rel = .ok p) :
    Inside root (Named host rel) p := by
  unfold resolve at h
  split at h
  · next q hq =>
      cases h
      refine ⟨allSegs host (parts rel), ?_, hstay.2, id⟩
      exact pushParts_of_not_carries hstay.1 hq
  · cases h

theorem resolve_error_iff : (∃ st, resolve host p rel = .error st) ↔ Refused rel := by
  have hnone : pushParts host p (parts rel) = none ↔ Refused rel := pushParts_eq_none
  rw [← hnone, resolve]
  cases pushParts host p (parts rel) <;> simp

end Inside

/-! ## On Unix -/

section Unix

variable {root : Root .unix} {part : Str}

theorem parse_unix (hne : part ≠ []) (hslash : '/' ∉ part) :
    parse .unix part = ⟨none, false, [part]⟩ := by
  have hsplit : part.splitOnP (HostPath.isSep .unix) = [part] := by
    apply splitOnP_eq_singleton
    intro c hc
    have : c ≠ '/' := fun heq => hslash (heq ▸ hc)
    simpa [HostPath.isSep] using this
  have hhead : part.head?.any (HostPath.isSep .unix) = false := by
    cases part with
    | nil => rfl
    | cons c part =>
      have : c ≠ '/' := fun heq => hslash (heq ▸ mem_cons_self)
      simpa [HostPath.isSep] using this
  simp [parse, splitDrive, pieces, hsplit, hhead, hne]

theorem mem_parts (h : part ∈ parts rel) : part ≠ [] ∧ '/' ∉ part := by
  obtain ⟨hmem, hne⟩ := mem_filter.mp h
  refine ⟨by simpa using hne, fun hslash => ?_⟩
  exact absurd (eq_false_of_mem_splitOnP hmem '/' hslash) (by decide)

theorem push_unix (h : part ≠ [] ∧ '/' ∉ part) :
    p.push .unix part = { p with segs := p.segs ++ [part] } := by
  have hparse := parse_unix h.1 h.2
  simp [PathBuf.push, hparse]

theorem allSegs_unix (h : ∀ part ∈ ps, part ≠ [] ∧ '/' ∉ part) : allSegs .unix ps = ps := by
  induction ps with
  | nil => rfl
  | cons part ps ih =>
    obtain ⟨hpart, hps⟩ := forall_mem_cons.mp h
    rw [allSegs, flatMap_cons, ← allSegs, ih hps, parse_unix hpart.1 hpart.2]
    rfl

theorem stay_unix (h : ¬ Refused rel) : Stay .unix rel := by
  refine ⟨fun part hpart => ?_, ?_⟩
  · obtain ⟨hne, hslash⟩ := mem_parts hpart
    simp [Carries, parse_unix hne hslash]
  · rw [allSegs_unix fun _ => mem_parts]
    exact stays_of_notMem h 0

variable [ToLowercase]

theorem better_eq {name : Str} {best : Option Str} {e : Listed}
    (h : better part best e = some name) : best = some name ∨ e.utf8 = some name := by
  unfold better at h
  split at h
  · exact .inl h
  · next n hn =>
      split_ifs at h
      · split at h
        · split_ifs at h
          · exact .inl h
          · exact .inr (hn.trans h)
        · exact .inr (hn.trans h)
      · exact .inl h

theorem best_mem {name : Str} {es : List Listed} (h : best part es = some name) :
    ∃ e ∈ es, e.utf8 = some name := by
  induction es using reverseRecOn with
  | nil => cases h
  | append_singleton es e ih =>
    rw [best, foldl_append, ← best] at h
    rcases better_eq h with hold | hnew
    · obtain ⟨e', he', hname⟩ := ih hold
      exact ⟨e', mem_append_left _ he', hname⟩
    · exact ⟨e, mem_append_right _ (mem_singleton_self e), hnew⟩

def Plainly (root : Root .unix) (named : Prop) (p : PathBuf) : Prop :=
  ∃ segs, p = ⟨root.drive, true, root.names ++ segs⟩ ∧ dotDot ∉ segs ∧
    (named → ∃ s ∈ segs, s ≠ dot)

namespace Plainly

variable {named : Prop} {p : PathBuf}

section

variable (h : Plainly root named p)

include h

omit [ToLowercase] in
theorem inside : Inside root named p := by
  obtain ⟨segs, rfl, hsegs, hnamed⟩ := h
  exact ⟨segs, rfl, stays_of_notMem hsegs 0, hnamed⟩

omit [ToLowercase] in
theorem mono {other : Prop} (hother : other → named) :
    Plainly root other p := by
  obtain ⟨segs, hp, hsegs, hnamed⟩ := h
  exact ⟨segs, hp, hsegs, fun ho => hnamed (hother ho)⟩

omit [ToLowercase] in
theorem push (hpart : part ≠ [] ∧ '/' ∉ part) (hup : part ≠ dotDot) :
    Plainly root (named ∨ part ≠ dot) (p.push .unix part) := by
  obtain ⟨segs, rfl, hsegs, hnamed⟩ := h
  rw [push_unix hpart]
  refine ⟨segs ++ [part], by simp, by simp [hsegs, Ne.symm hup], fun h => ?_⟩
  rcases h with hold | hnew
  · obtain ⟨s, hs, hne⟩ := hnamed hold
    exact ⟨s, mem_append_left _ hs, hne⟩
  · exact ⟨part, by simp, hnew⟩

omit [ToLowercase] in
theorem pushAll (hps : ∀ part ∈ ps, part ≠ [] ∧ '/' ∉ part) (hup : dotDot ∉ ps) :
    Plainly root (named ∨ ∃ part ∈ ps, part ≠ dot) (ps.foldl (PathBuf.push .unix) p) := by
  induction ps generalizing p named with
  | nil => exact h.mono (by simp)
  | cons part ps ih =>
    obtain ⟨hpart, hps⟩ := forall_mem_cons.mp hps
    rw [mem_cons, not_or] at hup
    apply (ih (h.push hpart (Ne.symm hup.1)) hps hup.2).mono
    simp [or_assoc]

end

end Plainly

/-- Whether a component is there as it is written, is found under another spelling or is not
found, the walk goes on from a path that extends the root. -/
theorem foldWalk_meets {cur : PathBuf} (hcur : Plainly root named cur)
    (hps : ∀ part ∈ ps, part ≠ [] ∧ '/' ∉ part) (hup : dotDot ∉ ps) :
    (foldWalk .unix cur ps).Meets .unix root.Below fun r =>
      ∀ p ∈ r, Plainly root (named ∨ ∃ part ∈ ps, part ≠ dot) p := by
  induction ps generalizing cur named with
  | nil =>
    intro p hp
    cases hp
    exact hcur.mono (by simp)
  | cons part ps ih =>
    obtain ⟨hpart, hps'⟩ := forall_mem_cons.mp hps
    have hup' := hup
    rw [mem_cons, not_or] at hup'
    have hnext := hcur.push hpart (Ne.symm hup'.1)
    have hkept : ∀ p ∈ some (ps.foldl (PathBuf.push .unix) (cur.push .unix part)),
        Plainly root (named ∨ ∃ part' ∈ part :: ps, part' ≠ dot) p := by
      intro p hp
      cases hp
      exact hcur.pushAll hps hup
    have hgoes : ∀ {q : PathBuf}, Plainly root (named ∨ part ≠ dot) q →
        (foldWalk .unix q ps).Meets .unix root.Below fun r =>
          ∀ p ∈ r, Plainly root (named ∨ ∃ part' ∈ part :: ps, part' ≠ dot) p := by
      intro q hq
      apply (ih hq hps' hup'.2).mono
      intro r hr p hp
      apply (hr p hp).mono
      simp [or_assoc]
    rw [foldWalk, if_neg (Ne.symm hup'.1)]
    refine ⟨hnext.inside.below, fun r => ?_⟩
    cases r with
    | ok m => exact hgoes hnext
    | error err =>
      refine ⟨hcur.inside.below, fun err => hkept, fun es hes => ?_⟩
      cases hbest : best part es with
      | none =>
        simp only [hbest]
        exact hkept
      | some name =>
        obtain ⟨e, he, hname⟩ := best_mem hbest
        obtain ⟨hne, hdot, hup, hsep⟩ := hes e he name hname
        have hslash : '/' ∉ name := fun hmem => absurd (hsep '/' hmem) (by decide)
        have hfound : Plainly root (named ∨ part ≠ dot) (cur.push .unix name) :=
          (hcur.push ⟨hne, hslash⟩ hup).mono fun _ => .inr hdot
        simpa only [hbest] using hgoes hfound

end Unix

/-! ## Resolving -/

section Resolved

variable [ToLowercase] {host : Host} {root : Root host} {rel : Str}

omit [ToLowercase] in
theorem pushParts_of_resolve (h : resolve host p rel = .ok q) :
    pushParts host p (parts rel) = some q := by
  unfold resolve at h
  split at h
  · cases h
    assumption
  · cases h

theorem resolveFoldEqual_meets {root : Root .unix} {exact : PathBuf}
    (h : resolve .unix root.path rel = .ok exact) :
    (resolveFoldEqual .unix root.path rel).Meets .unix root.Below fun r =>
      ∀ p ∈ r, Inside root (Named .unix rel) p := by
  have hpush := pushParts_of_resolve h
  have hup : dotDot ∉ parts rel := by
    intro hmem
    rw [pushParts_eq_none.mpr hmem] at hpush
    cases hpush
  have hexact := resolve_inside (stay_unix hup) h
  rw [resolveFoldEqual, hpush]
  refine ⟨hexact.below, fun r => ?_⟩
  cases r with
  | ok m =>
    intro p hp
    cases hp
    exact hexact
  | error err =>
    have hroot : Plainly root False root.path := ⟨[], by simp [Root.path], by simp, False.elim⟩
    apply (foldWalk_meets hroot (fun _ => mem_parts) hup).mono
    intro r hr p hp
    apply ((hr p hp).mono _).inside
    intro hnamed
    rw [Named, allSegs_unix fun _ => mem_parts] at hnamed
    exact .inr hnamed

theorem foldFallback_meets (hstay : Stay host rel) {exact : PathBuf}
    (h : resolve host root.path rel = .ok exact) :
    (foldFallback host root.path rel exact).Meets host root.Below
      (Inside root (Named host rel)) := by
  cases host with
  | windows => exact resolve_inside hstay h
  | unix =>
    apply (resolveFoldEqual_meets h).bind
    intro found hfound
    cases found with
    | none => exact resolve_inside hstay h
    | some p => exact hfound p rfl

def Kept (host : Host) (rel : Str) : Prop := Refused rel ∨ Stay host rel

instance (host : Host) (rel : Str) : Decidable (Kept host rel) :=
  inferInstanceAs (Decidable (_ ∨ _))

omit [ToLowercase] in
theorem kept_unix : Kept .unix rel := or_iff_not_imp_left.mpr stay_unix

omit [ToLowercase] in
theorem Kept.stay (h : Kept host rel) (hok : resolve host p rel = .ok q) : Stay host rel := by
  apply h.resolve_left
  intro href
  obtain ⟨st, herr⟩ := resolve_error_iff.mpr href
  exact absurd (hok.symm.trans herr) (by simp)

theorem resolveCaseAware_windows (p : PathBuf) :
    resolveCaseAware .windows p rel = .done (resolve .windows p rel) := by
  unfold resolveCaseAware
  cases resolve .windows p rel <;> rfl

theorem resolveCaseAware_meets (h : Kept host rel) :
    (resolveCaseAware host root.path rel).Meets host root.Below fun r =>
      ∀ p, r = .ok p → Inside root (Named host rel) p := by
  unfold resolveCaseAware
  split
  · intro p hp
    cases hp
  · next exact hexact =>
      apply (foldFallback_meets (h.stay hexact) hexact).bind
      intro p hp q hq
      cases hq
      exact hp

end Resolved

/-! ## The calls stay below the root -/

section Kept

variable [ToLowercase] {host : Host} {root : Root host} {rel : Str}

/-- A path that is kept is refused, or it and what is found in its place are below the root. -/
theorem Kept.cases (h : Kept host rel) (root : Root host) :
    (∃ st, resolve host root.path rel = .error st) ∨
      ∃ exact, resolve host root.path rel = .ok exact ∧ root.Below exact ∧
        ∀ {β : Type} {f : PathBuf → Calls β}, (∀ p, root.Below p → (f p).Passes host root.Below) →
          ((foldFallback host root.path rel exact).bind f).Passes host root.Below := by
  cases hres : resolve host root.path rel with
  | error st => exact .inl ⟨st, rfl⟩
  | ok exact =>
    have hstay := h.stay hres
    exact .inr ⟨exact, rfl, (resolve_inside hstay hres).below, fun hf =>
      (foldFallback_meets hstay hres).bind fun p hp => hf p hp.below⟩

-- The answers of the file system are taken apart, and each branch passes on what is below.
attribute [local simp] Calls.Passes Calls.Meets Calls.forall_result Calls.forall_ioKind

theorem getattr_passes (h : Kept host rel) :
    (getattr host root.path rel).Passes host root.Below := by
  rcases h.cases root with ⟨st, hst⟩ | ⟨exact, hok, hexact, hfold⟩
  · simp [getattr, hst]
  · simpa [getattr, hok, hexact] using hfold fun p hp => by simp [hp]

theorem readdir_passes (h : Kept host rel) :
    (readdir host root.path rel).Passes host root.Below := by
  rcases h.cases root with ⟨st, hst⟩ | ⟨exact, hok, hexact, hfold⟩
  · simp [readdir, hst]
  · simpa [readdir, hok, hexact] using hfold fun p hp => by simp [hp]

theorem openRead_passes (h : Kept host rel) :
    (openRead host root.path s rel).Passes host root.Below := by
  have hfinish : ∀ p m, root.Below p → (openRead.finish s p m).Passes host root.Below := by
    intro p m hp
    unfold openRead.finish
    split_ifs <;> simp [hp]
  rcases h.cases root with ⟨st, hst⟩ | ⟨exact, hok, hexact, hfold⟩
  · simp [openRead, hst]
  · simpa [openRead, hok, hexact] using
      ⟨fun m => hfinish exact m hexact, hfold fun p hp => by simpa [hp] using (hfinish p · hp)⟩

theorem openExisting_passes (h : Kept host rel) :
    (openExisting host root.path s rel flags).Passes host root.Below := by
  rcases h.cases root with ⟨st, hst⟩ | ⟨exact, hok, hexact, hfold⟩
  · simp [openExisting, hst]
  · simpa [openExisting, hok, hexact] using hfold fun p hp => by simp [hp]

theorem openCreate_passes (h : Kept host rel) (hnamed : ¬ Refused rel → Named host rel) :
    (openCreate host root.path s rel flags).Passes host root.Below := by
  have hattempt : ∀ p, root.Below p → (openCreate.attempt s flags p).Passes host root.Below := by
    intro p hp
    simp [openCreate.attempt, hp]
  by_cases href : Refused rel
  · obtain ⟨st, hst⟩ := resolve_error_iff.mpr href
    rw [openCreate, resolveCaseAware, hst]
    trivial
  · apply (resolveCaseAware_meets h).bind
    intro r hr
    cases r with
    | error st => trivial
    | ok p =>
      have hp := hr p rfl
      cases hdir : p.parent with
      | none => simpa [hdir] using hattempt p hp.below
      | some dir =>
        have hbelow : root.Below dir := (hp.mono fun _ => hnamed href).parent hdir
        simpa [hdir, hbelow] using hattempt p hp.below

theorem mkdir_passes (h : Kept host rel) : (mkdir host root.path rel).Passes host root.Below := by
  apply (resolveCaseAware_meets h).bind
  intro r hr
  cases r with
  | error st => trivial
  | ok p => exact ⟨by simpa using (hr p rfl).below, fun r => trivial⟩

theorem remove_passes (h : Kept host rel) :
    (remove host root.path rel).Passes host root.Below := by
  apply (resolveCaseAware_meets h).bind
  intro r hr
  cases r with
  | error st => trivial
  | ok p =>
    have hp := (hr p rfl).below
    refine ⟨by simpa using hp, fun r => ?_⟩
    dsimp only
    split
    · trivial
    · trivial
    · refine ⟨hp, fun r => ?_⟩
      dsimp only
      split <;> simp [hp]

theorem rename_passes {src dst : Str} {sameRoot : Bool}
    (h : sameRoot = true → Refused src ∨ Refused dst ∨ Kept host src ∧ Kept host dst) :
    (rename host root.path sameRoot src dst).Passes host root.Below := by
  have hboth (hsrc : Kept host src) (hdst : Kept host dst) :
      (rename host root.path sameRoot src dst).Passes host root.Below := by
    unfold rename
    split_ifs
    · trivial
    · apply (resolveCaseAware_meets hsrc).bind
      intro r hr
      cases r with
      | error st => trivial
      | ok p =>
        apply (resolveCaseAware_meets hdst).bind
        intro r' hr'
        cases r' with
        | error st => trivial
        | ok q => exact ⟨by simpa using ⟨(hr p rfl).below, (hr' q rfl).below⟩, fun r => trivial⟩
  cases host with
  | unix => exact hboth kept_unix kept_unix
  | windows =>
    by_cases hsame : sameRoot = false
    · rw [rename, if_pos hsame]
      trivial
    · rcases h (by simpa using hsame) with href | href | ⟨hsrc, hdst⟩
      · obtain ⟨st, hst⟩ := resolve_error_iff.mpr href
        rw [rename, if_neg hsame, resolveCaseAware_windows, hst]
        trivial
      · obtain ⟨st, hst⟩ := resolve_error_iff.mpr href
        rw [rename, if_neg hsame, resolveCaseAware_windows, resolveCaseAware_windows, hst]
        cases resolve .windows root.path src <;> trivial
      · exact hboth hsrc hdst

theorem setAttr_passes {attr : SetAttr} (h : attr.size = none ∧ attr.mtime = none ∨ Kept host rel) :
    (setAttr host root.path rel attr).Passes host root.Below := by
  have happly : (setAttr.apply attr).Passes host root.Below := by
    have htimes : (setAttr.times attr).Passes host root.Below := by
      unfold setAttr.times
      split_ifs <;> simp
    unfold setAttr.apply
    split_ifs
    · exact htimes
    · simpa using htimes
  unfold setAttr
  split_ifs with hnone
  · trivial
  · rcases (h.resolve_left hnone).cases root with ⟨st, hst⟩ | ⟨exact, hok, hexact, hfold⟩
    · simp [hst]
    · simpa [hok, hexact] using
        ⟨fun _ => happly, hfold fun p hp => by simpa [hp] using fun _ => happly⟩

end Kept

/-! ## The calls that leave the root -/

section Escapes

variable {host : Host} {rel : Str}

theorem resolve_ok (h : ¬ Refused rel) (p : PathBuf) : ∃ q, resolve host p rel = .ok q := by
  cases hres : resolve host p rel with
  | ok q => exact ⟨q, rfl⟩
  | error st => exact absurd (resolve_error_iff.mp ⟨st, hres⟩) h

theorem exists_escape (h : ¬ Kept host rel) :
    ∃ root : Root host, ∃ p, resolve host root.path rel = .ok p ∧ ¬ root.Below p := by
  obtain ⟨href, hstay⟩ := not_or.mp h
  obtain ⟨fresh, hplain, hfresh⟩ := exists_fresh host (allSegs host (parts rel))
  obtain ⟨p, hp⟩ := resolve_ok href (Root.single hplain).path
  refine ⟨Root.single hplain, p, hp, fun hbelow => ?_⟩
  have hmem : fresh ∈ walk [] p.segs := hbelow.2.2.subset (mem_singleton_self fresh)
  have hpush := pushParts_of_resolve hp
  by_cases hcarry : ∃ part ∈ parts rel, Carries host part
  · have hgone : fresh ∉ p.segs := mem_segs_of_carries hfresh hpush (.inr hcarry)
    exact notMem_walk not_mem_nil hgone hmem
  · simp only [not_exists, not_and] at hcarry
    have hsegs : p.segs = [fresh] ++ allSegs host (parts rel) := by
      rw [pushParts_of_not_carries hcarry hpush]
      rfl
    have hwalk : walk [] [fresh] = [fresh] := (Root.single hplain).names_walk []
    have hstays : ¬ Stays 0 (allSegs host (parts rel)) := fun hs => hstay ⟨hcarry, hs⟩
    rw [hsegs, walk_append, hwalk] at hmem
    exact fresh_notMem_walk not_mem_nil hfresh hstays hmem

theorem exists_parent_escape (hstay : Stay host rel) (hnamed : ¬ Named host rel) :
    ∃ root : Root host, ∀ p, resolve host root.path rel = .ok p →
      ∃ dir, p.parent = some dir ∧ ¬ root.Below dir := by
  obtain ⟨n, hplain, -⟩ := exists_fresh host []
  refine ⟨Root.single hplain, fun p hp => ?_⟩
  have hdots : (allSegs host (parts rel)).filter (· ≠ dot) = [] := by
    simpa [Named, filter_eq_nil_iff] using hnamed
  have hfilter : p.segs.filter (· ≠ dot) = [n] := by
    rw [pushParts_of_not_carries hstay.1 (pushParts_of_resolve hp), filter_append, hdots,
      append_nil]
    exact filter_names (Root.single hplain)
  refine ⟨{ p with segs := [] }, by simp only [PathBuf.parent, hfilter]; simp, fun hbelow => ?_⟩
  have hle := hbelow.2.2.length_le
  simp [Root.single, walk] at hle

theorem passes_of_resolveCaseAware [ToLowercase] {β : Type} {P : PathBuf → Prop} {root : PathBuf}
    {f : Except Status PathBuf → Calls β} (hp : resolve host root rel = .ok p)
    (h : ((resolveCaseAware host root rel).bind f).Passes host P) : (f (.ok p)).Passes host P := by
  cases host with
  | windows =>
    rw [resolveCaseAware_windows, hp] at h
    exact h
  | unix =>
    simp only [resolveCaseAware, hp, foldFallback, resolveFoldEqual,
      pushParts_of_resolve hp] at h
    exact h.2 (.ok ⟨false, false, 0⟩)

end Escapes

/-! ## Containment -/

inductive Op where
  | getattr (rel : Str)
  | readdir (rel : Str)
  | openPath (s : State) (rel : Str) (flags : Flags)
  | mkdir (rel : Str)
  | remove (rel : Str)
  | rename (sameRoot : Bool) (src dst : Str)
  | setAttr (rel : Str) (attr : SetAttr)

namespace Op

variable [ToLowercase] {host : Host}

/-- Every host path the call passes to the file system is the root or below it, whatever the file
system answers. -/
def Contained (host : Host) (root : Root host) : Op → Prop
  | getattr rel => (Disk.getattr host root.path rel).Passes host root.Below
  | readdir rel => (Disk.readdir host root.path rel).Passes host root.Below
  | openPath s rel flags => (Disk.openPath host root.path s rel flags).Passes host root.Below
  | mkdir rel => (Disk.mkdir host root.path rel).Passes host root.Below
  | remove rel => (Disk.remove host root.path rel).Passes host root.Below
  | rename sameRoot src dst =>
    (Disk.rename host root.path sameRoot src dst).Passes host root.Below
  | setAttr rel attr => (Disk.setAttr host root.path rel attr).Passes host root.Below

/-- The paths of the call are kept where they are resolved, and one that an open may create names
something. -/
def Safe (host : Host) : Op → Prop
  | getattr rel => Kept host rel
  | readdir rel => Kept host rel
  | openPath _ rel flags => Kept host rel ∧
      (flags.write = true → flags.create = true → Refused rel ∨ Named host rel)
  | mkdir rel => Kept host rel
  | remove rel => Kept host rel
  | rename sameRoot src dst => sameRoot = true →
      Refused src ∨ Refused dst ∨ Kept host src ∧ Kept host dst
  | setAttr rel attr => (attr.size = none ∧ attr.mtime = none) ∨ Kept host rel

theorem contained_of_safe {op : Op} (h : op.Safe host) (root : Root host) :
    op.Contained host root := by
  cases op with
  | getattr rel => exact getattr_passes h
  | readdir rel => exact readdir_passes h
  | openPath s rel flags =>
    rw [Contained, Disk.openPath]
    split_ifs with hwrite hcreate
    · exact openRead_passes h.1
    · refine openCreate_passes h.1 fun href => ?_
      exact (h.2 (by simpa using hwrite) hcreate).resolve_left href
    · exact openExisting_passes h.1
  | mkdir rel => exact mkdir_passes h
  | remove rel => exact remove_passes h
  | rename sameRoot src dst => exact rename_passes h
  | setAttr rel attr => exact setAttr_passes h

theorem kept_of_contained {op : Op} (h : ∀ root : Root host, op.Contained host root)
    (hpassed : ∀ (root : Root host) p, resolve host root.path rel = .ok p →
      op.Contained host root → root.Below p) : Kept host rel := by
  by_contra hnot
  obtain ⟨root, p, hp, hout⟩ := exists_escape hnot
  exact hout (hpassed root p hp (h root))

theorem openPath_safe (h : ∀ root : Root host, (openPath s rel flags).Contained host root) :
    (openPath s rel flags).Safe host := by
  have hpassed : ∀ (root : Root host) p, resolve host root.path rel = .ok p →
      root.Below p ∧ (flags.write = true → flags.create = true →
        ∀ dir, p.parent = some dir → root.Below dir) := by
    intro root p hp
    have hpass := h root
    rw [Contained, Disk.openPath] at hpass
    split_ifs at hpass with hwrite hcreate
    · rw [openRead, hp] at hpass
      exact ⟨hpass.1, by simp [hwrite]⟩
    · have hcreated := passes_of_resolveCaseAware hp hpass
      cases hdir : p.parent with
      | none =>
        simp only [hdir] at hcreated
        exact ⟨hcreated.1, by simp⟩
      | some dir =>
        simp only [hdir] at hcreated
        have hbelow : root.Below dir := hcreated.1 dir (mem_singleton_self dir)
        exact ⟨(hcreated.2 (.ok ())).1, by simpa using fun _ _ => hbelow⟩
    · rw [openExisting, hp] at hpass
      exact ⟨hpass.1, by simp [hcreate]⟩
  have hkept := kept_of_contained h fun root p hp _ => (hpassed root p hp).1
  refine ⟨hkept, fun hwrite hcreate => or_iff_not_imp_left.mpr fun href => ?_⟩
  by_contra hnamed
  obtain ⟨root, hout⟩ := exists_parent_escape (hkept.resolve_left href) hnamed
  obtain ⟨p, hp⟩ := resolve_ok href root.path
  obtain ⟨dir, hdir, hbelow⟩ := hout p hp
  exact hbelow ((hpassed root p hp).2 hwrite hcreate dir hdir)

theorem rename_safe {src dst : Str} {sameRoot : Bool}
    (h : ∀ root : Root host, (rename sameRoot src dst).Contained host root) :
    (rename sameRoot src dst).Safe host := by
  intro hsame
  by_cases hsrc : Refused src
  · exact .inl hsrc
  by_cases hdst : Refused dst
  · exact .inr (.inl hdst)
  have hpassed : ∀ (root : Root host) p q, resolve host root.path src = .ok p →
      resolve host root.path dst = .ok q → root.Below p ∧ root.Below q := by
    intro root p q hp hq
    have hpass := h root
    rw [Contained, Disk.rename, if_neg (by simp [hsame])] at hpass
    have hmoved := passes_of_resolveCaseAware hq (passes_of_resolveCaseAware hp hpass)
    exact ⟨hmoved.1 p (by simp), hmoved.1 q (by simp)⟩
  refine .inr (.inr ⟨kept_of_contained h ?_, kept_of_contained h ?_⟩)
  · intro root p hp _
    obtain ⟨q, hq⟩ := resolve_ok hdst root.path
    exact (hpassed root p q hp hq).1
  · intro root q hq _
    obtain ⟨p, hp⟩ := resolve_ok hsrc root.path
    exact (hpassed root p q hp hq).2

theorem safe_of_contained {op : Op} (h : ∀ root : Root host, op.Contained host root) :
    op.Safe host := by
  cases op with
  | getattr rel =>
    apply kept_of_contained h
    intro root p hp hpass
    rw [Contained, Disk.getattr, hp] at hpass
    exact hpass.1
  | readdir rel =>
    apply kept_of_contained h
    intro root p hp hpass
    rw [Contained, Disk.readdir, hp] at hpass
    exact hpass.1
  | openPath s rel flags => exact openPath_safe h
  | mkdir rel =>
    apply kept_of_contained h
    intro root p hp hpass
    exact (passes_of_resolveCaseAware hp hpass).1 p (mem_singleton_self p)
  | remove rel =>
    apply kept_of_contained h
    intro root p hp hpass
    exact (passes_of_resolveCaseAware hp hpass).1 p (mem_singleton_self p)
  | rename sameRoot src dst => exact rename_safe h
  | setAttr rel attr =>
    by_cases hnone : attr.size = none ∧ attr.mtime = none
    · exact .inl hnone
    · right
      apply kept_of_contained h
      intro root p hp hpass
      rw [Contained, Disk.setAttr, if_neg hnone, hp] at hpass
      exact hpass.1

/-- A call stays below every root exactly if its paths, as the host joins them, neither start over
nor climb, and it creates no file without a name. -/
theorem contained_iff (host : Host) (op : Op) :
    (∀ root : Root host, op.Contained host root) ↔ op.Safe host :=
  ⟨safe_of_contained, contained_of_safe⟩

end Op

theorem isPlain_mods (host : Host) : IsPlain host ['m', 'o', 'd', 's'] :=
  ⟨by decide, by decide, by decide, by cases host <;> simp [HostPath.isSep]⟩

def modsOnC : Root .windows := { Root.single (isPlain_mods .windows) with drive := some 'C' }

/-- On Windows a component with a drive or a root replaces the root, and one with backslashes
climbs out of it. On either host an open that creates makes the directory above the root when
its path is empty. -/
theorem Op.escapes :
    (¬ @Op.Contained asciiLowercase .windows modsOnC (.getattr ['D', ':', '/', 'w'])) ∧
    (¬ @Op.Contained asciiLowercase .windows modsOnC (.mkdir ['.', '.', '\\', 'w'])) ∧
    ¬ @Op.Contained asciiLowercase .unix (Root.single (isPlain_mods .unix))
      (.openPath ⟨0, ∅⟩ [] ⟨true, true, false, false⟩) := by
  refine ⟨fun h => ?_, fun h => ?_, fun h => ?_⟩
  · exact absurd h.1.2.2 (by decide)
  · exact absurd (h.1 _ (mem_singleton_self _)).2.2 (by decide)
  · exact absurd ((h.2 (.ok ⟨true, false, 0⟩)).1 _ (mem_singleton_self _)).2.2 (by decide)

end AetherVfs.Compose.Disk
