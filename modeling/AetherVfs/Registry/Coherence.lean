import AetherVfs.Registry.ClientCache

/-!
# Cached registry answers are current

An answer is kept under a generation that was read before it was asked for, and every write that
a generation stands for was applied before the generation was published. So an answer kept under
a generation shows every write up to it; and a write is replied to once every ring shows its
generation, so a call that begins later reads that generation or a newer one.
-/

namespace AetherVfs.Registry

open List

section

variable [ToLowercase]

/-! ## Answers depend on the folded path -/

@[simp] theorem foldPath_foldPath (p : Path) : foldPath (foldPath p) = foldPath p := by
  simp only [foldPath, map_map]
  exact map_congr_left fun n _ => fold_fold n

theorem validPath_foldPath (p : Path) : validPath (foldPath p) = validPath p := by
  match p with
  | [] => rfl
  | [lead] => rfl
  | lead :: r :: rest =>
    have hrest : (rest.map fold).all (fun c => decide (c ≠ [])) =
        rest.all fun c => decide (c ≠ []) := by
      rw [all_map]
      exact congrArg rest.all (funext fun c => by simp)
    simp only [foldPath, map_cons, validPath, fold_fold, fold_eq_nil, hrest]

theorem Overlay.lookup_foldPath (o : Overlay) (p : Path) : o.lookup (foldPath p) = o.lookup p := by
  rw [Overlay.lookup, Overlay.lookup, validPath_foldPath, foldPath_foldPath]

theorem Overlay.node_foldPath (o : Overlay) (p : Path) : o.node (foldPath p) = o.node p := by
  rw [Overlay.node, Overlay.node, foldPath_foldPath]

namespace Director

theorem fold_mem_dots {n : Str} : fold n ∈ dots ↔ n ∈ dots := by
  have h₁ : fold n = ['.'] ↔ n = ['.'] := fold_eq_iff_of_caseless (by simp)
  have h₂ : fold n = ['.', '.'] ↔ n = ['.', '.'] := fold_eq_iff_of_caseless (by simp)
  simp only [dots, mem_cons, not_mem_nil, or_false, h₁, h₂]

theorem fold_hive (n : Str) : fold (hive n) = fold n := by
  unfold hive
  split_ifs with hm hu
  · rw [hm]
    rfl
  · rw [hu]
    rfl
  · rfl

theorem foldPath_modifyHead_hive (p : Path) : foldPath (p.modifyHead hive) = foldPath p := by
  cases p with
  | nil => rfl
  | cons n p => simp [foldPath, fold_hive]

theorem filter_foldPath (p : Path) :
    ((foldPath p).filter fun n => n ≠ []) = foldPath (p.filter fun n => n ≠ []) := by
  rw [foldPath, foldPath, filter_map]
  exact congrArg _ (filter_congr fun n _ => by simp)

theorem validPath_foldPath (p : Path) : validPath (foldPath p) = validPath p := by
  have hhead : (foldPath p).head? = some [] ↔ p.head? = some [] := by
    cases p with
    | nil => rfl
    | cons n p => simp [foldPath]
  have hdots : (foldPath p).any (fun n => decide (n ∈ dots)) =
      p.any fun n => decide (n ∈ dots) := by
    rw [foldPath, any_map]
    exact congrArg p.any (funext fun n => decide_eq_decide.mpr fold_mem_dots)
  unfold validPath canonical
  rw [filter_foldPath]
  cases hparts : p.filter fun n => n ≠ [] with
  | nil => rfl
  | cons r rest =>
    have hrest : foldPath (r :: rest) = fold r :: foldPath rest := rfl
    simp only [hrest, hhead, fold_fold]
    by_cases hroot : p.head? = some [] ∧ fold r = registry
    · have hcons : ∀ rest' : Path, foldPath ([] :: ['R', 'e', 'g', 'i', 's', 't', 'r', 'y'] ::
          rest'.modifyHead hive) = [] :: registry :: foldPath rest' := by
        intro rest'
        rw [← foldPath_modifyHead_hive rest']
        rfl
      simp only [if_pos hroot, hcons, hdots, foldPath_foldPath]
    · simp only [if_neg hroot]

def folded : Query → Query
  | .lookup p => .lookup (foldPath p)
  | .key p => .key (foldPath p)

theorem answer_folded (o : Overlay) (q : Query) : answer o (folded q) = answer o q := by
  cases q with
  | lookup p => simp only [folded, answer, validPath_foldPath, Overlay.lookup_foldPath]
  | key p => simp only [folded, answer, validPath_foldPath, Overlay.node_foldPath]

end Director

/-! ## The cache -/

variable {c : Cache} {g : ℕ} {q : Query} {a : Answer}

namespace Cache

omit [ToLowercase] in
theorem lookup_insertBounded {ν : Type} {m : Table Path ν} {k j : Path} {v w : ν}
    (h : (insertBounded m k v).lookup j = some w) : (j = k ∧ w = v) ∨ m.lookup j = some w := by
  rw [insertBounded, Table.lookup_insert_eq_ite] at h
  split_ifs at h with hjk
  · exact Or.inl ⟨hjk, (Option.some.inj h).symm⟩
  · simp at h
  · exact Or.inr h

omit [ToLowercase] in
theorem generation_reach (c : Cache) (g : ℕ) : (c.reach g).generation = max c.generation g := by
  unfold reach
  split_ifs with h
  · exact (max_eq_right h.le).symm
  · exact (max_eq_left (not_lt.mp h)).symm

omit [ToLowercase] in
theorem generation_of_isAt (h : c.isAt g = true) : (c.reach g).generation = g :=
  (of_decide_eq_true h).symm

theorem get_reach (h : (c.reach g).get q = some a) :
    (c.reach g).generation = c.generation ∧ c.get q = some a := by
  unfold reach at h ⊢
  split_ifs at h ⊢ with hlt
  · cases q <;> simp [get] at h
  · exact ⟨rfl, h⟩

@[simp] theorem generation_insert (c : Cache) (q : Query) (a : Answer) :
    (c.insert q a).generation = c.generation := by
  cases q <;> cases a <;> rfl

theorem get_insert {q' : Query} {a' : Answer} (h : (c.insert q a).get q' = some a') :
    (Director.folded q' = Director.folded q ∧ a' = a) ∨ c.get q' = some a' := by
  cases q with
  | lookup p =>
    cases a with
    | key n => exact Or.inr h
    | lookup r =>
      cases q' with
      | key p' => exact Or.inr h
      | lookup p' =>
        obtain ⟨r', hr', rfl⟩ := Option.map_eq_some_iff.mp h
        rcases lookup_insertBounded hr' with ⟨hp, rfl⟩ | hold
        · exact Or.inl ⟨congrArg Query.lookup hp, rfl⟩
        · exact Or.inr (Option.map_eq_some_iff.mpr ⟨r', hold, rfl⟩)
  | key p =>
    cases a with
    | lookup r => exact Or.inr h
    | key n =>
      cases q' with
      | lookup p' => exact Or.inr h
      | key p' =>
        obtain ⟨n', hn', rfl⟩ := Option.map_eq_some_iff.mp h
        rcases lookup_insertBounded hn' with ⟨hp, rfl⟩ | hold
        · exact Or.inl ⟨congrArg Query.key hp, rfl⟩
        · exact Or.inr (Option.map_eq_some_iff.mpr ⟨n', hold, rfl⟩)

end Cache

/-! ## The invariant -/

namespace Session

variable {γ τ ρ δ : Type} {s s' : State γ τ ρ δ}

/-- The overlay has every write that a generation up to `g` stands for. -/
def Current (s : State γ τ ρ δ) (g : ℕ) (o : Overlay) : Prop :=
  ∀ w ∈ s.log, w.1 ≤ g → w.2 ≤ o.version

/-- Every ring shows a generation that stands for the write. -/
def Published (s : State γ τ ρ δ) (v : ℕ) : Prop :=
  ∃ g, (g, v) ∈ s.log ∧ ∀ r ∈ s.sinks, g ≤ s.header r

/-- The answer is the director's with an overlay that has the writes `before`. -/
def Answered (s : State γ τ ρ δ) (before : List ℕ) (q : Query) (a : Answer) : Prop :=
  ∃ o ∈ s.past, (∀ v ∈ before, v ≤ o.version) ∧ Director.answer o q = some a

/-- Every entry is an answer for the generation it is kept under. -/
structure CacheFact (s : State γ τ ρ δ) (c : Cache) : Prop where
  generation : c.generation ≤ s.generation
  entry : ∀ q a, c.get q = some a →
    ∃ o ∈ s.past, Current s c.generation o ∧ Director.answer o q = some a

/-- The generation a thread has read, if there was one, stands for all the writes `before`. -/
structure Loaded (s : State γ τ ρ δ) (before : List ℕ) (g : ℕ) : Prop where
  replied : before ⊆ s.replied
  generation : g ≤ s.generation
  covers : g ≠ 0 → ∀ v ∈ before, ∃ g', (g', v) ∈ s.log ∧ g' ≤ g

def ReaderFact (s : State γ τ ρ δ) : Reader → Prop
  | .idle => True
  | .begun _ before => before ⊆ s.replied
  | .loaded _ before g | .asking _ before g => Loaded s before g
  | .fetched q before g a => g ≤ s.generation ∧ ∃ o ∈ s.past, (∀ v ∈ before, v ≤ o.version) ∧
      Current s g o ∧ Director.answer o q = some a
  | .returned _ _ none => True
  | .returned q before (some a) => Answered s before q a

def WorkerFact (s : State γ τ ρ δ) : Worker ρ → Prop
  | .idle => True
  | .applied v | .bumping v => v ≤ s.overlay.version
  | .publishing v g rest => (g, v) ∈ s.log ∧ rest ⊆ s.sinks ∧
      ∀ r ∈ s.sinks, r ∈ rest ∨ g ≤ s.header r
  | .replying v => Published s v

/-- What is true of the director and its rings. -/
structure Core (s : State γ τ ρ δ) : Prop where
  inv : Overlay.Inv s.overlay
  current : s.overlay ∈ s.past
  log : ∀ w ∈ s.log, w.1 ≤ s.generation ∧ w.2 ≤ s.overlay.version
  header : ∀ r, s.header r ≤ s.generation
  served : ∀ r, s.header r ≠ 0 → r ∈ s.sinks

structure Sound (s : State γ τ ρ δ) : Prop where
  core : Core s
  replied : ∀ v ∈ s.replied, Published s v
  caches : ∀ c, CacheFact s (s.caches c)
  readers : ∀ t, ReaderFact s (s.readers t)
  workers : ∀ i, WorkerFact s (s.workers i)

/-- What no event takes back: a generation that has been published stands for the same writes
for ever, and a ring that is new shows what is current. -/
structure Extends (s s' : State γ τ ρ δ) : Prop where
  version : s.overlay.version ≤ s'.overlay.version
  generation : s.generation ≤ s'.generation
  header : ∀ r, s.header r ≤ s'.header r
  log : s.log ⊆ s'.log
  fresh : ∀ w ∈ s'.log, w ∈ s.log ∨ s.generation < w.1
  past : s.past ⊆ s'.past
  replied : s.replied ⊆ s'.replied
  served : s.sinks ⊆ s'.sinks
  sinks : ∀ r ∈ s'.sinks, r ∈ s.sinks ∨ s.generation ≤ s'.header r

variable {o : Overlay}

omit [ToLowercase] in
theorem Current.mono (h : Current s g o) (hx : Extends s s') (hg : g ≤ s.generation) :
    Current s' g o := by
  intro w hw hle
  rcases hx.fresh w hw with hold | hnew
  · exact h w hold hle
  · omega

theorem Published.mono {v : ℕ} (h : Published s v) (hc : Core s) (hx : Extends s s') :
    Published s' v := by
  obtain ⟨g, hg, hall⟩ := h
  refine ⟨g, hx.log hg, fun r hr => ?_⟩
  rcases hx.sinks r hr with hold | hnew
  · exact (hall r hold).trans (hx.header r)
  · exact ((hc.log _ hg).1).trans hnew

theorem CacheFact.mono (h : CacheFact s c) (hx : Extends s s') : CacheFact s' c := by
  refine ⟨h.generation.trans hx.generation, fun q a hget => ?_⟩
  obtain ⟨o, ho, hcur, ha⟩ := h.entry q a hget
  exact ⟨o, hx.past ho, hcur.mono hx h.generation, ha⟩

theorem readerFact_mono {rd : Reader} (h : ReaderFact s rd) (hx : Extends s s') :
    ReaderFact s' rd := by
  have hloaded : ∀ {before g}, Loaded s before g → Loaded s' before g := by
    intro before g hl
    refine ⟨List.Subset.trans hl.replied hx.replied, hl.generation.trans hx.generation, fun h0 v hv => ?_⟩
    obtain ⟨g', hg', hle⟩ := hl.covers h0 v hv
    exact ⟨g', hx.log hg', hle⟩
  cases rd with
  | idle => trivial
  | begun q before => exact List.Subset.trans h hx.replied
  | loaded q before g => exact hloaded h
  | asking q before g => exact hloaded h
  | fetched q before g a =>
    obtain ⟨hg, o, ho, hver, hcur, ha⟩ := h
    exact ⟨hg.trans hx.generation, o, hx.past ho, hver, hcur.mono hx hg, ha⟩
  | returned q before a =>
    cases a with
    | none => trivial
    | some a =>
      obtain ⟨o, ho, hrest⟩ := h
      exact ⟨o, hx.past ho, hrest⟩

theorem workerFact_mono {w : Worker ρ} (h : WorkerFact s w) (hc : Core s) (hx : Extends s s') :
    WorkerFact s' w := by
  cases w with
  | idle => trivial
  | applied v | bumping v => exact le_trans h hx.version
  | publishing v g rest =>
    refine ⟨hx.log h.1, List.Subset.trans h.2.1 hx.served, fun r hr => ?_⟩
    rcases hx.sinks r hr with hold | hnew
    · exact (h.2.2 r hold).imp_right fun hle => hle.trans (hx.header r)
    · exact Or.inr (((hc.log _ h.1).1).trans hnew)
  | replying v => exact Published.mono h hc hx

theorem Sound.extend (h : Sound s) (hx : Extends s s') (hcore : Core s')
    (hreplied : ∀ v ∈ s'.replied, v ∈ s.replied ∨ Published s' v)
    (hcaches : ∀ c, s'.caches c = s.caches c ∨ CacheFact s' (s'.caches c))
    (hreaders : ∀ t, s'.readers t = s.readers t ∨ ReaderFact s' (s'.readers t))
    (hworkers : ∀ i, s'.workers i = s.workers i ∨ WorkerFact s' (s'.workers i)) : Sound s' := by
  refine ⟨hcore, fun v hv => ?_, fun c => ?_, fun t => ?_, fun i => ?_⟩
  · exact (hreplied v hv).elim (fun hold => (h.replied v hold).mono h.core hx) id
  · exact (hcaches c).elim (fun heq => heq ▸ (h.caches c).mono hx) id
  · exact (hreaders t).elim (fun heq => heq ▸ readerFact_mono (h.readers t) hx) id
  · exact (hworkers i).elim (fun heq => heq ▸ workerFact_mono (h.workers i) h.core hx) id

/-! ## Events -/

omit [ToLowercase] in
theorem update_eq_or {α β : Type} [DecidableEq α] {f : α → β} {a : α} {b : β} {P : β → Prop}
    (hb : P b) (x : α) : Function.update f a b x = f x ∨ P (Function.update f a b x) := by
  by_cases hx : x = a
  · subst hx
    rw [Function.update_self]
    exact Or.inr hb
  · exact Or.inl (Function.update_of_ne hx ..)

theorem Sound.setReader [DecidableEq τ] {t : τ} {rd : Reader} (h : Sound s)
    (hrd : ReaderFact (s.setReader t rd) rd) : Sound (s.setReader t rd) := by
  have hx : Extends s (s.setReader t rd) :=
    ⟨le_rfl, le_rfl, fun _ => le_rfl, List.Subset.refl _, fun _ => Or.inl, List.Subset.refl _,
      List.Subset.refl _, List.Subset.refl _, fun _ => Or.inl⟩
  have hcore : Core (s.setReader t rd) :=
    ⟨h.core.inv, h.core.current, h.core.log, h.core.header, h.core.served⟩
  exact h.extend hx hcore (fun _ => Or.inl) (fun _ => Or.inl rfl) (update_eq_or hrd)
    fun _ => Or.inl rfl

theorem Sound.setWorker [DecidableEq δ] {i : δ} {w : Worker ρ} (h : Sound s) (lock : Option δ)
    (hw : WorkerFact s w) : Sound ({ s with lock }.setWorker i w) := by
  have hx : Extends s ({ s with lock }.setWorker i w) :=
    ⟨le_rfl, le_rfl, fun _ => le_rfl, List.Subset.refl _, fun _ => Or.inl, List.Subset.refl _,
      List.Subset.refl _, List.Subset.refl _, fun _ => Or.inl⟩
  have hcore : Core ({ s with lock }.setWorker i w) :=
    ⟨h.core.inv, h.core.current, h.core.log, h.core.header, h.core.served⟩
  exact h.extend hx hcore (fun _ => Or.inl) (fun _ => Or.inl rfl) (fun _ => Or.inl rfl)
    (update_eq_or (workerFact_mono hw h.core hx))

theorem Sound.setCache [DecidableEq γ] {c : γ} {cache : Cache} (h : Sound s) (hcache : CacheFact s cache) :
    Sound (s.setCache c cache) := by
  have hx : Extends s (s.setCache c cache) :=
    ⟨le_rfl, le_rfl, fun _ => le_rfl, List.Subset.refl _, fun _ => Or.inl, List.Subset.refl _,
      List.Subset.refl _, List.Subset.refl _, fun _ => Or.inl⟩
  have hcore : Core (s.setCache c cache) :=
    ⟨h.core.inv, h.core.current, h.core.log, h.core.header, h.core.served⟩
  exact h.extend hx hcore (fun _ => Or.inl) (update_eq_or (hcache.mono hx)) (fun _ => Or.inl rfl)
    fun _ => Or.inl rfl

theorem CacheFact.reach (h : CacheFact s c) (hg : g ≤ s.generation) : CacheFact s (c.reach g) := by
  refine ⟨?_, fun q a hget => ?_⟩
  · rw [Cache.generation_reach]
    exact max_le h.generation hg
  · obtain ⟨hgen, hold⟩ := Cache.get_reach hget
    rw [hgen]
    exact h.entry q a hold

theorem CacheFact.insert (h : CacheFact s c) (ho : o ∈ s.past) (hcur : Current s c.generation o)
    (ha : Director.answer o q = some a) : CacheFact s (c.insert q a) := by
  refine ⟨?_, fun q' a' hget => ?_⟩
  · rw [Cache.generation_insert]
    exact h.generation
  · rw [Cache.generation_insert]
    rcases Cache.get_insert hget with ⟨hq, rfl⟩ | hold
    · refine ⟨o, ho, hcur, ?_⟩
      rw [← Director.answer_folded, hq, Director.answer_folded]
      exact ha
    · exact h.entry q' a' hold

omit [ToLowercase] in
theorem Loaded.of_eq {before : List ℕ} (h : Loaded s before g) (hreplied : s'.replied = s.replied)
    (hgen : s'.generation = s.generation) (hlog : s'.log = s.log) : Loaded s' before g :=
  ⟨hreplied ▸ h.replied, hgen ▸ h.generation, hlog ▸ h.covers⟩

theorem Sound.read [DecidableEq γ] [DecidableEq τ] (h : Sound s) (c : γ) (ring : ρ) (t : τ) (ok : Bool) :
    Sound (s.read c ring t ok) := by
  have hfact := h.readers t
  unfold State.read
  cases hrd : s.readers t with
  | idle | returned q before a => exact h
  | begun q before =>
    rw [hrd] at hfact
    refine h.setReader ⟨hfact, h.core.header ring, fun h0 v hv => ?_⟩
    obtain ⟨g, hg, hall⟩ := h.replied v (hfact hv)
    exact ⟨g, hg, hall ring (h.core.served ring h0)⟩
  | loaded q before g =>
    rw [hrd] at hfact
    have hl : Loaded s before g := hfact
    by_cases hg : g ≠ 0
    · have hreach := (h.caches c).reach hl.generation
      simp only [if_pos hg]
      cases hget : if (s.caches c).isAt g then ((s.caches c).reach g).get q else none with
      | none => exact (h.setCache hreach).setReader (hl.of_eq rfl rfl rfl)
      | some a =>
        refine (h.setCache hreach).setReader ?_
        split_ifs at hget with hat
        obtain ⟨o, ho, hcur, ha⟩ := hreach.entry q a hget
        rw [Cache.generation_of_isAt hat] at hcur
        refine ⟨o, ho, fun v hv => ?_, ha⟩
        obtain ⟨g', hg', hle⟩ := hl.covers hg v hv
        exact hcur (g', v) hg' hle
    · simp only [if_neg hg]
      exact h.setReader (hl.of_eq rfl rfl rfl)
  | asking q before g =>
    rw [hrd] at hfact
    have hl : Loaded s before g := hfact
    dsimp only
    cases hget : if ok then Director.answer s.overlay q else none with
    | none => exact h.setReader trivial
    | some a =>
      split_ifs at hget with hok
      refine h.setReader ⟨hl.generation, s.overlay, h.core.current, fun v hv => ?_,
        fun w hw _ => (h.core.log w hw).2, hget⟩
      obtain ⟨g', hg', -⟩ := h.replied v (hl.replied hv)
      exact (h.core.log _ hg').2
  | fetched q before g a =>
    rw [hrd] at hfact
    obtain ⟨hgen, o, ho, hver, hcur, ha⟩ := hfact
    dsimp only
    split_ifs with hg hat
    · refine (h.setCache ?_).setReader ⟨o, ho, hver, ha⟩
      refine ((h.caches c).reach hgen).insert ho ?_ ha
      rwa [Cache.generation_of_isAt hat]
    · exact (h.setCache ((h.caches c).reach hgen)).setReader ⟨o, ho, hver, ha⟩
    · exact h.setReader ⟨o, ho, hver, ha⟩

theorem Sound.call [DecidableEq τ] (h : Sound s) (t : τ) (q : Query) : Sound (s.call t q) := by
  unfold State.call
  cases hrd : s.readers t with
  | idle | returned _ _ _ => exact h.setReader (List.Subset.refl _)
  | begun | loaded | asking | fetched => exact h

omit [ToLowercase] in
theorem header_publish [DecidableEq ρ] (s : State γ τ ρ δ) (r r' : ρ) (g : ℕ) :
    (s.publish r g).header r' = if r' = r then max (s.header r) g else s.header r' :=
  Function.update_apply ..

omit [ToLowercase] in
theorem le_header_publish [DecidableEq ρ] (s : State γ τ ρ δ) (r r' : ρ) (g : ℕ) :
    s.header r' ≤ (s.publish r g).header r' := by
  rw [header_publish]
  split_ifs with hr
  · exact hr ▸ le_max_left _ _
  · exact le_rfl

theorem Core.header_publish_le [DecidableEq ρ] (h : Core s) {r : ρ} (hg : g ≤ s.generation)
    (r' : ρ) : (s.publish r g).header r' ≤ s.generation := by
  rw [header_publish]
  split_ifs
  · exact max_le (h.header r) hg
  · exact h.header r'

theorem Sound.serve [DecidableEq ρ] (h : Sound s) (r : ρ) : Sound (s.serve r) := by
  unfold State.serve
  cases hlock : s.lock with
  | some i => exact h
  | none =>
    have hnew : ∀ r' ∈ s.sinks ++ [r], r' ∈ s.sinks ∨
        s.generation ≤ (s.publish r s.generation).header r' := by
      intro r' hr'
      rcases mem_append.mp hr' with hold | hr'
      · exact Or.inl hold
      · rw [mem_singleton.mp hr', header_publish, if_pos rfl]
        exact Or.inr (le_max_right _ _)
    refine h.extend ⟨le_rfl, le_rfl, fun r' => le_header_publish s r r' _, List.Subset.refl _,
      fun _ => Or.inl, List.Subset.refl _, List.Subset.refl _, subset_append_left _ _, hnew⟩ ?_ (fun _ => Or.inl)
      (fun _ => Or.inl rfl) (fun _ => Or.inl rfl) fun _ => Or.inl rfl
    refine ⟨h.core.inv, h.core.current, h.core.log, h.core.header_publish_le le_rfl,
      fun r' hr' => mem_append.mpr ?_⟩
    by_cases heq : r' = r
    · exact Or.inr (mem_singleton.mpr heq)
    · have hsame := header_publish s r r' s.generation
      rw [if_neg heq] at hsame
      exact Or.inl (h.core.served r' fun h0 => hr' (hsame.trans h0))

theorem call_of_mutate {c : Overlay.Call} {r : ℕ × Overlay}
    (h : Director.mutate o c = some r) : o.call c.op = .ok r := by
  have hcall : (o.call c.op).toOption = some r := by
    unfold Director.mutate at h
    split_ifs at h
    split at h
    · split_ifs at h
      exact h
    · exact h
  cases ho : o.call c.op with
  | error err =>
    rw [ho] at hcall
    cases hcall
  | ok r' =>
    rw [ho] at hcall
    exact congrArg Except.ok (Option.some.inj hcall)

theorem Sound.write [DecidableEq δ] (h : Sound s) (i : δ) (c : Overlay.Call) :
    Sound (s.write i c) := by
  unfold State.write
  cases hw : s.workers i with
  | applied | bumping | publishing | replying => exact h
  | idle =>
    dsimp only
    cases hmut : Director.mutate s.overlay c with
    | none => exact h
    | some r =>
      have hcall := call_of_mutate hmut
      have hv := h.core.inv.version_of_ok hcall
      have hversion := (h.core.inv.advances_of_ok hcall).1
      have hinv : Overlay.Inv r.2 := by
        have hstep : s.overlay.step c.op = r.2 := by rw [Overlay.step, hcall]
        exact hstep ▸ h.core.inv.step c.op
      have hle : s.overlay.version ≤ r.2.version := by omega
      refine h.extend ⟨hle, le_rfl, fun _ => le_rfl, List.Subset.refl _, fun _ => Or.inl,
        subset_cons_self _ _, List.Subset.refl _, List.Subset.refl _, fun _ => Or.inl⟩ ?_
        (fun _ => Or.inl) (fun _ => Or.inl rfl) (fun _ => Or.inl rfl) (update_eq_or ?_)
      · exact ⟨hinv, mem_cons_self, fun w hw =>
          ⟨(h.core.log w hw).1, (h.core.log w hw).2.trans hle⟩, h.core.header, h.core.served⟩
      · change r.1 ≤ r.2.version
        omega

theorem Sound.work [DecidableEq ρ] [DecidableEq δ] (h : Sound s) (i : δ) : Sound (s.work i) := by
  have hfact := h.workers i
  have hcore := h.core
  unfold State.work
  cases hw : s.workers i with
  | idle => exact h
  | applied v =>
    rw [hw] at hfact
    dsimp only
    cases hlock : s.lock with
    | some j => exact h
    | none =>
      exact h.setWorker (some i) hfact
  | bumping v =>
    rw [hw] at hfact
    have hv : v ≤ s.overlay.version := hfact
    refine h.extend ⟨le_rfl, Nat.le_succ _, fun _ => le_rfl, subset_cons_self _ _, ?_,
      List.Subset.refl _, List.Subset.refl _, List.Subset.refl _, fun _ => Or.inl⟩ ?_
      (fun _ => Or.inl) (fun _ => Or.inl rfl) (fun _ => Or.inl rfl) (update_eq_or ?_)
    · intro w hmem
      rcases mem_cons.mp hmem with rfl | hold
      · exact Or.inr (Nat.lt_succ_self _)
      · exact Or.inl hold
    · refine ⟨hcore.inv, hcore.current, fun w hmem => ?_, fun r => (hcore.header r).trans
        (Nat.le_succ _), hcore.served⟩
      rcases mem_cons.mp hmem with rfl | hold
      · exact ⟨le_rfl, hv⟩
      · exact ⟨(hcore.log w hold).1.trans (Nat.le_succ _), (hcore.log w hold).2⟩
    · exact ⟨mem_cons_self, List.Subset.refl _, fun r hr => Or.inl hr⟩
  | publishing v g rest =>
    rw [hw] at hfact
    obtain ⟨hlog, hrest, hall⟩ := hfact
    cases rest with
    | nil =>
      exact h.setWorker none
        ⟨g, hlog, fun r hr => (hall r hr).resolve_left not_mem_nil⟩
    | cons r rest =>
      refine h.extend ⟨le_rfl, le_rfl, fun r' => le_header_publish s r r' g,
        List.Subset.refl _, fun _ => Or.inl, List.Subset.refl _, List.Subset.refl _,
        List.Subset.refl _, fun _ => Or.inl⟩ ?_ (fun _ => Or.inl) (fun _ => Or.inl rfl) (fun _ => Or.inl rfl)
        (update_eq_or ?_)
      · refine ⟨hcore.inv, hcore.current, hcore.log,
          hcore.header_publish_le (hcore.log _ hlog).1, fun r' hr' => ?_⟩
        by_cases heq : r' = r
        · rw [heq]
          exact hrest mem_cons_self
        · have hsame := header_publish s r r' g
          rw [if_neg heq] at hsame
          exact hcore.served r' fun h0 => hr' (hsame.trans h0)
      · refine ⟨hlog, fun r' hr' => hrest (mem_cons_of_mem _ hr'), fun r' hr' => ?_⟩
        by_cases heq : r' = r
        · subst heq
          refine Or.inr ?_
          change g ≤ (s.publish r' g).header r'
          rw [header_publish, if_pos rfl]
          exact le_max_right _ _
        · refine (hall r' hr').imp (fun hmem => ?_) fun hle => ?_
          · exact (mem_cons.mp hmem).resolve_left heq
          · exact hle.trans (le_header_publish s r r' g)
  | replying v =>
    rw [hw] at hfact
    refine h.extend ⟨le_rfl, le_rfl, fun _ => le_rfl, List.Subset.refl _, fun _ => Or.inl,
      List.Subset.refl _, subset_cons_self _ _, List.Subset.refl _, fun _ => Or.inl⟩ ?_
      (fun v' hv' => ?_) (fun _ => Or.inl rfl) (fun _ => Or.inl rfl) (update_eq_or trivial)
    · exact ⟨hcore.inv, hcore.current, hcore.log, hcore.header, hcore.served⟩
    · rcases mem_cons.mp hv' with rfl | hold
      · exact Or.inr hfact
      · exact Or.inl hold

theorem sound_start (h : Overlay.Inv o) : Sound (State.start o : State γ τ ρ δ) := by
  refine ⟨⟨h, mem_singleton_self o, nofun, fun _ => Nat.zero_le _, ?_⟩, nofun, fun c => ?_,
    fun _ => trivial, fun _ => trivial⟩
  · exact fun r h0 => absurd rfl h0
  · refine ⟨Nat.zero_le _, fun q a hget => ?_⟩
    cases q <;> simp [State.start, Cache.empty, Cache.get] at hget

variable [DecidableEq γ] [DecidableEq τ] [DecidableEq ρ] [DecidableEq δ]

theorem Sound.step (h : Sound s) (home : τ → γ) (ring : γ → ρ) (e : Event τ ρ δ) :
    Sound (s.step home ring e) := by
  cases e with
  | write i c => exact h.write i c
  | work i => exact h.work i
  | serve r => exact h.serve r
  | call t q => exact h.call t q
  | read t ok => exact h.read _ _ t ok

/-- Whatever the clients and the director do, an answer that a client returns is the director's
with an overlay that has every write replied to before the call began. -/
theorem returned_answer_current (home : τ → γ) (ring : γ → ρ) {o : Overlay} (h : Overlay.Inv o)
    (es : List (Event τ ρ δ)) :
    let s := Transition.run (State.step home ring) (State.start o : State γ τ ρ δ) es
    ∀ t q before a, s.readers t = .returned q before (some a) →
      ∃ o' ∈ s.past, (∀ v ∈ before, v ≤ o'.version) ∧ Director.answer o' q = some a := by
  intro s t q before a hret
  have hsound : Sound s :=
    Transition.run_invariant (fun _ e hs => hs.step home ring e) (sound_start h) es
  have hfact := hsound.readers t
  rw [hret] at hfact
  exact hfact

end Session

end

namespace Session

def sKey : Path := [[], ['R', 'e', 'g', 'i', 's', 't', 'r', 'y'], ['S']]

/-- A key is created; when that is replied to, a client looks it up twice. -/
def twoLookups : List (Event Unit Unit Unit) :=
  .serve () :: .write () ⟨['\\', 'R', 'e', 'g', 'i', 's', 't', 'r', 'y', '\\', 's'],
      .createKey false false, 0⟩ ::
    List.replicate 5 (.work ()) ++ .call () (.lookup sKey) :: List.replicate 4 (.read () true) ++
    .call () (.lookup sKey) :: List.replicate 2 (.read () true)

def afterTwoLookups : State Unit Unit Unit Unit :=
  Transition.run (@State.step Unit Unit Unit Unit _ _ _ _ asciiLowercase id id)
    (State.start Overlay.new) twoLookups

theorem twoLookups_current : ∃ o' ∈ afterTwoLookups.past, 1 ≤ o'.version ∧
    @Director.answer asciiLowercase o' (.lookup sKey) =
      some (.lookup (.present true, false)) := by
  obtain ⟨o', ho', hv, ha⟩ := @returned_answer_current asciiLowercase Unit Unit Unit Unit _ _ _ _
    id id Overlay.new (@Overlay.inv_new asciiLowercase) twoLookups () (.lookup sKey) [1]
    (.lookup (.present true, false)) rfl
  exact ⟨o', ho', hv 1 (mem_singleton_self 1), ha⟩

end Session

end AetherVfs.Registry
