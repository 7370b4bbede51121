import AetherVfs.ReadCache.Transparency

/-!
# What an invalidation is good for

A poisoned file is never served again, and nothing takes the poison back. So
an invalidation that has returned holds for good over every file whose entry
it found, and `invalidate_path` makes an entry for the path itself. It makes
none for what lies below: a file that had no entry then, because it was never
opened or because a sweep dropped it, gets a fresh one at its next open and is
cached like any other. The invariant below therefore holds along the runs in
which no covered name is registered without an entry to find.
-/

namespace AetherVfs.ReadCache

open List Transition

/-- The names an invalidation speaks of: the file itself, or the path and all below it, by
whole components. -/
def Invalidation.Covers : Invalidation → Name → Prop
  | .file m, n => n = m
  | .path root p, n => n.root = root ∧
      (wholeRoot p = true ∨ n.path = p ∨ ∃ rest, n.path = p ++ '/' :: rest)

theorem under_iff {p path : List Char} :
    under p path = true ↔ path = p ∨ ∃ rest, path = p ++ '/' :: rest := by
  simp only [under, Bool.or_eq_true, Bool.and_eq_true, decide_eq_true_eq, isPrefixOf_iff_prefix]
  refine or_congr_right ⟨?_, ?_⟩
  · rintro ⟨⟨hlt, t, rfl⟩, hslash⟩
    rw [getElem?_append_right le_rfl, Nat.sub_self] at hslash
    cases t with
    | nil => simp at hslash
    | cons a rest =>
      obtain rfl : a = '/' := by simpa using hslash
      exact ⟨rest, rfl⟩
  · rintro ⟨rest, rfl⟩
    refine ⟨⟨by simp, prefix_append _ _⟩, ?_⟩
    rw [getElem?_append_right le_rfl, Nat.sub_self]
    rfl

instance (v : Invalidation) (n : Name) : Decidable (v.Covers n) :=
  match v with
  | .file m => inferInstanceAs (Decidable (n = m))
  | .path root p =>
    decidable_of_iff (n.root = root ∧ (wholeRoot p = true ∨ under p n.path = true)) <|
      and_congr_right fun _ => or_congr_right under_iff

/-- The read a thread has started and not checked yet. -/
def Pc.begun : Pc → Option (Entry × ℕ)
  | .read r => some (r.entry, r.began)
  | _ => none

def Why.past : Why → Option (Entry × ℕ)
  | .judged r => some (r.entry, r.began)
  | _ => none

/-- The read a thread may still answer, once it has passed the check. -/
def Pc.past : Pc → Option (Entry × ℕ)
  | .unit r | .unitStale r _ | .wait r _ | .judge r => some (r.entry, r.began)
  | .clear _ why | .clearGive _ why _ => why.past
  | .missRoom m | .missGive m _ => some (m.read.entry, m.read.began)
  | .reserve l | .reserveCas l _ | .evictPop l | .evictFile l _ _ _ | .fetch l
  | .loadFile l _ | .loadSlot l _ _ _ _ | .loadLru l _ _ _ _ _ | .loadGive l _ _ _
  | .loadComplete l _ _ => some (l.read.entry, l.read.began)
  | _ => none

/-- Every file in the table that the path covers is poisoned or still to be visited. -/
def Cache.Visiting (c : Cache) (root : ℕ) (path : List Char) (rest : List Entry) : Prop :=
  ∀ e ∈ c.table, (Invalidation.path root path).Covers e.name →
    (c.state e).poisoned = true ∨ e ∈ rest

def Why.Progress (c : Cache) (e : Entry) : Why → Prop
  | .poison .invalidate => (c.state e).poisoned = true
  | .poison (.path root path rest) => c.Visiting root path rest
  | _ => True

/-- How far an invalidation has come. -/
def Pc.Progress (c : Cache) : Pc → Prop
  | .pathFiles root path hit => c.Visiting root path hit
  | .clear e why | .clearGive e why _ => why.Progress c e
  | _ => True

/-- What a step does for invalidations: no poison is taken back, a read that passes the check
found its file clean, and an invalidation returns only when all it covers is poisoned. -/
structure Fate (c : Cache) (pc : Pc) (c' : Cache) (pc' : Pc) : Prop where
  poisoned : ∀ e ∈ c.table, (c.state e).poisoned = true → (c'.state e).poisoned = true
  begun : ∀ x ∈ pc'.begun, x ∈ pc.begun
  past : ∀ x ∈ pc'.past, x ∈ pc.past ∨ x ∈ pc.begun ∧ (c.state x.1).poisoned = false
  served : ∀ a ∈ c'.served, a ∈ c.served ∨ ∃ x ∈ pc.past, a.name = x.1.name ∧ a.began = x.2
  invalidated : ∀ f ∈ c'.invalidated, f ∈ c.invalidated ∨
    f.clock = c.clock ∧ ∀ e ∈ c'.table, f.what.Covers e.name → (c'.state e).poisoned = true
  clock : c'.clock = c.clock
  progress : pc'.Progress c'

/-- No file loses its poison. -/
def Poisons (state state' : Entry → State) : Prop :=
  ∀ e, (state e).poisoned = true → (state' e).poisoned = true

theorem poisons_refl (state : Entry → State) : Poisons state state := fun _ h => h

theorem poisons_update {state : Entry → State} {e : Entry} {st : State}
    (h : (state e).poisoned = true → st.poisoned = true) :
    Poisons state (Function.update state e st) := by
  intro d hd
  by_cases hde : d = e
  · subst hde
    simpa using h hd
  · simpa [hde] using hd

theorem poisons_update_update {state : Entry → State} {e : Entry} {st st' : State}
    (h : (state e).poisoned = true → st'.poisoned = true) :
    Poisons state (Function.update (Function.update state e st) e st') := by
  rw [Function.update_idem]
  exact poisons_update h

namespace Cache

variable {cfg : CacheConfig} {content : Name → Version → ℕ → UInt8} {c c' : Cache} {env : Env}
  {inUse : Entry → Bool} {pc pc' : Pc}

/-- What was answered, which invalidations ended, and the time. -/
def logs (c : Cache) : List Served × List Finished × ℕ := (c.served, c.invalidated, c.clock)

theorem fate_quiet (hbegun : ∀ x ∈ pc'.begun, x ∈ pc.begun) (hpast : ∀ x ∈ pc'.past, x ∈ pc.past)
    (hprog : pc'.Progress c') (hstate : Poisons c.state c'.state) (hlogs : c'.logs = c.logs) :
    Fate c pc c' pc' := by
  simp only [logs, Prod.mk.injEq] at hlogs
  obtain ⟨hserved, hinv, hclock⟩ := hlogs
  exact ⟨fun e _ => hstate e, hbegun, fun x hx => .inl (hpast x hx), fun _ ha => .inl (hserved ▸ ha),
    fun _ hf => .inl (hinv ▸ hf), hclock, hprog⟩

/-- A step of a read that leaves no invalidation behind: the read goes on, or is given up. -/
theorem fate_read (hpast : pc'.past = none ∨ pc'.past = pc.past)
    (hstate : Poisons c.state c'.state) (hbegun : pc'.begun = none) (hprog : pc'.Progress c')
    (hlogs : c'.logs = c.logs) : Fate c pc c' pc' := by
  refine fate_quiet (by simp [hbegun]) ?_ hprog hstate hlogs
  intro x hx
  rcases hpast with hnone | hsame
  · simp [hnone] at hx
  · exact hsame ▸ hx

theorem fate_answered {r : Read} (hr : (r.entry, r.began) ∈ pc.past)
    (hstate : Poisons c.state c'.state) (hlogs : c'.logs = c.logs) :
    Fate c pc (c'.answered r).1 (c'.answered r).2 := by
  simp only [logs, Prod.mk.injEq] at hlogs
  obtain ⟨hserved, hinv, hclock⟩ := hlogs
  refine ⟨fun e _ => hstate e, by simp [Pc.begun], by simp [Pc.past], ?_,
    fun _ hf => .inl (hinv ▸ hf), hclock, trivial⟩
  intro a ha
  rcases mem_cons.mp ha with rfl | ha
  · exact .inr ⟨_, hr, rfl, rfl⟩
  · exact .inl (hserved ▸ ha)

theorem fate_stay (hprog : pc.Progress c) : Fate c pc c pc :=
  fate_quiet (fun _ h => h) (fun _ h => h) hprog (poisons_refl _) rfl

theorem fate_finished {what : Invalidation}
    (hall : ∀ e ∈ c'.table, what.Covers e.name → (c'.state e).poisoned = true)
    (hstate : Poisons c.state c'.state) (hlogs : c'.logs = c.logs) :
    Fate c pc (c'.finished what).1 (c'.finished what).2 := by
  simp only [logs, Prod.mk.injEq] at hlogs
  obtain ⟨hserved, hinv, hclock⟩ := hlogs
  refine ⟨fun e _ => hstate e, by simp [Pc.begun], by simp [Pc.past],
    fun _ ha => .inl (hserved ▸ ha), ?_, hclock, trivial⟩
  intro f hf
  rcases mem_cons.mp hf with rfl | hf
  · exact .inr ⟨hclock, hall⟩
  · exact .inl (hinv ▸ hf)

variable {e : Entry}

theorem fate_poison {k : Poisoner} (hpath : ∀ root path rest,
      k = .path root path rest → c.Visiting root path (e :: rest)) :
    Fate c pc (c.poison e k).1 (c.poison e k).2 := by
  refine fate_read (.inl rfl) (poisons_update fun _ => rfl) (by cases k <;> rfl) ?_ (by cases k <;> rfl)
  cases k with
  | register => trivial
  | invalidate => simp [Cache.poison, Pc.Progress, Why.Progress]
  | path root path rest =>
    intro d hd hcovers
    by_cases hde : d = e
    · subst hde
      exact .inl (by simp [Cache.poison])
    · rcases hpath root path rest rfl d hd hcovers with hp | hmem
      · exact .inl (by simpa [Cache.poison, hde] using hp)
      · exact .inr ((mem_cons.mp hmem).resolve_left hde)

theorem cleared_fate {why : Why} (hprog : why.Progress c e) (he : e ∈ c.table)
    (hnames : (c.table.map Entry.name).Nodup) :
    Fate c (.clear e why) (c.cleared e why).1 (c.cleared e why).2 := by
  rcases why with (_ | _ | ⟨root, path, rest⟩) | v | l | r
  · exact fate_read (.inl rfl) (poisons_update id) rfl trivial rfl
  · refine fate_finished ?_ (poisons_update id) rfl
    -- the names in the table are distinct, so the file is the only one of its name
    intro d hd hname
    obtain rfl : d = e := inj_on_of_nodup_map hnames hd he hname
    simpa [Why.Progress] using hprog
  · have hpoisons : Poisons c.state (c.cleared e (.poison (.path root path rest))).1.state :=
      poisons_update id
    refine fate_read (.inl rfl) hpoisons rfl ?_ rfl
    intro d hd hcovers
    exact (hprog d hd hcovers).imp_left (hpoisons d)
  · exact fate_read (.inl rfl) (poisons_update id) rfl trivial rfl
  · exact fate_read (.inl rfl) (poisons_refl _) rfl trivial rfl
  · exact fate_answered rfl (poisons_update id) rfl

theorem Why.progress_congr {why : Why} (h : why.Progress c e)
    (hstate : Poisons c.state c'.state) (htable : c'.table = c.table) : why.Progress c' e := by
  rcases why with (_ | _ | ⟨root, path, rest⟩) | v | l | r
  · trivial
  · exact hstate e h
  · intro d hd hcovers
    exact (h d (htable ▸ hd) hcovers).imp_left (hstate d)
  all_goals trivial

theorem clear_fate {why : Why} (hprog : why.Progress c e) (he : e ∈ c.table)
    (hnames : (c.table.map Entry.name).Nodup) :
    Fate c (.clear e why) (c.clear e why).1 (c.clear e why).2 := by
  have hslots : ∀ rest, Poisons c.state (Function.update c.state e
      { c.state e with slots := rest }) := fun _ => poisons_update id
  unfold clear
  split
  · exact cleared_fate hprog he hnames
  · exact fate_quiet (fun _ h => h) (fun _ h => h) (Why.progress_congr hprog (hslots _) rfl) (hslots _) rfl
  · exact fate_quiet (fun _ h => h) (fun _ h => h) (Why.progress_congr hprog (hslots _) rfl) (hslots _) rfl

theorem registerTable_fate {a : Registration} (hserial : ∀ e ∈ c.table, e.serial < c.nextEntry) :
    Fate c (.registerTable a) (c.registerTable env inUse a).1
      (c.registerTable env inUse a).2 := by
  rcases c.registerTable_cases env inUse a with heq | ⟨-, c₁, hc₁, hout⟩
  · rw [heq]
    exact fate_stay trivial
  · have h₁ : c₁.state = c.state ∧ c₁.served = c.served ∧ c₁.invalidated = c.invalidated ∧
        c₁.clock = c.clock ∧ c₁.logs = c.logs := by
      rcases hc₁ with rfl | rfl <;> exact ⟨rfl, rfl, rfl, rfl, rfl⟩
    obtain ⟨hstate, hserved, hinv, hclock, hlogs⟩ := h₁
    rcases hout with ⟨e, -, -, heq⟩ | ⟨-, heq⟩
    · rw [heq]
      exact fate_read (.inl rfl) (hstate ▸ poisons_refl _) rfl trivial hlogs
    · rw [heq]
      refine ⟨?_, by simp [Pc.begun], by simp [Pc.past], fun _ ha => .inl (hserved ▸ ha),
        fun _ hf => .inl (hinv ▸ hf), hclock, trivial⟩
      intro e he hp
      have hne : e ≠ ⟨c.nextEntry, a.name⟩ := by
        rintro rfl
        exact lt_irrefl _ (hserial _ he)
      simpa [hne, hstate] using hp

theorem pathTable_fate {root : ℕ} {path : List Char}
    (hserial : ∀ e ∈ c.table, e.serial < c.nextEntry) :
    Fate c (.pathTable root path) (c.pathTable root path).1 (c.pathTable root path).2 := by
  rcases c.pathTable_cases root path with heq | ⟨-, c₁, hit, heq, rfl, hc₁⟩
  · rw [heq]
    exact fate_stay trivial
  · have hhit : ∀ e ∈ c.table, (Invalidation.path root path).Covers e.name →
        e ∈ c.table.filter fun e =>
          e.name.root = root && (wholeRoot path || under path e.name.path) := by
      rintro e he ⟨hroot, hpath⟩
      rw [← under_iff, ← Bool.or_eq_true] at hpath
      exact mem_filter.mpr ⟨he, by simp [hroot, hpath]⟩
    rw [heq]
    rcases hc₁ with ⟨rfl, -⟩ | ⟨-, rfl⟩
    · exact fate_read (.inl rfl) (poisons_refl _) rfl
        (fun e he hcovers => .inr (hhit e he hcovers)) rfl
    · have hne : ∀ e ∈ c.table, e ≠ ⟨c.nextEntry, ⟨root, path⟩⟩ := by
        rintro e he rfl
        exact lt_irrefl _ (hserial _ he)
      refine ⟨?_, by simp [Pc.begun], by simp [Pc.past], fun _ ha => .inl ha,
        fun _ hf => .inl hf, rfl, ?_⟩
      · intro e he hp
        simpa [hne e he] using hp
      · intro e he hcovers
        rcases mem_cons.mp he with rfl | he
        · exact .inl (by simp)
        · exact .inr (hhit e he hcovers)

theorem fate_next {r : Read} {data : List UInt8} {got : Got}
    (hpast : pc.past = some (r.entry, r.began))
    (hstate : Poisons c.state c'.state) (hlogs : c'.logs = c.logs) :
    Fate c pc c' (r.next cfg data got) := by
  unfold Read.next
  dsimp only
  split_ifs <;> exact fate_read (.inr hpast.symm) hstate rfl trivial hlogs

theorem judge_fate (r : Read) : Fate c (.judge r) (c.judge cfg r).1 (c.judge cfg r).2 := by
  unfold judge
  split
  · exact fate_stay trivial
  · split
    case h_5 =>
      dsimp only
      split_ifs
      · exact fate_answered rfl (poisons_update id) rfl
      · refine fate_read (.inr rfl) (poisons_update_update fun h => ?_) rfl trivial rfl
        simpa [State.goCold] using h
      · refine fate_answered rfl (poisons_update_update fun h => ?_) rfl
        simpa using h
    all_goals first
      | exact fate_answered rfl (poisons_refl _) rfl
      | exact fate_answered rfl (poisons_update id) rfl

theorem read_fate (r : Read) : Fate c (.read r) (c.read r).1 (c.read r).2 := by
  unfold read
  split
  · exact fate_stay trivial
  · split
    · exact fate_read (.inl rfl) (poisons_refl _) rfl trivial rfl
    · next hserves =>
      split
      · exact fate_read (.inl rfl) (poisons_update id) rfl trivial rfl
      · refine ⟨fun _ _ h => h, by simp [Pc.begun], ?_, fun _ h => .inl h, fun _ h => .inl h, rfl,
          trivial⟩
        rintro x ⟨⟩
        refine .inr ⟨rfl, ?_⟩
        simp only [State.serves] at hserves
        simp_all

theorem unit_fate (r : Read) : Fate c (.unit r) (c.unit cfg env r).1 (c.unit cfg env r).2 := by
  unfold unit
  split
  · exact fate_stay trivial
  · split
    · exact fate_read (.inl rfl) (poisons_refl _) rfl trivial rfl
    · split
      · exact fate_next rfl (poisons_update id) rfl
      · split_ifs
        · exact fate_read (.inr rfl) (poisons_update id) rfl trivial rfl
        · exact fate_read (.inr rfl) (poisons_refl _) rfl trivial rfl
      · exact fate_read (.inr rfl) (poisons_update id) rfl trivial rfl

theorem evictFile_fate (l : Load) (key : ℕ) (e : Entry) (idx : ℕ) :
    Fate c (.evictFile l key e idx) (c.evictFile l key e idx).1 (c.evictFile l key e idx).2 := by
  unfold evictFile
  split
  · exact fate_read (.inr rfl) (poisons_refl _) rfl trivial rfl
  · split
    · exact fate_read (.inr rfl) (poisons_refl _) rfl trivial rfl
    · split
      · split_ifs
        · exact fate_read (.inr rfl) (poisons_update id) rfl trivial rfl
        · refine fate_read (.inr rfl) (poisons_update ?_) rfl trivial rfl
          intro h
          simp only [State.rememberPressure]
          split_ifs <;> exact h
      · exact fate_read (.inr rfl) (poisons_refl _) rfl trivial rfl

theorem fetchFailed_fate (l : Load) :
    Fate c (.fetchFailed l) (c.fetchFailed l).1 (c.fetchFailed l).2 := by
  unfold fetchFailed
  dsimp only
  split_ifs
  · exact fate_stay trivial
  · refine fate_read (.inl rfl) (poisons_update_update fun h => ?_) rfl trivial rfl
    simpa [State.goCold] using h
  · exact fate_read (.inl rfl) (poisons_update id) rfl trivial rfl

theorem step_fate (hprog : pc.Progress c) (harcs : ∀ e ∈ pc.arcs, e ∈ c.table)
    (hserial : ∀ e ∈ c.table, e.serial < c.nextEntry)
    (hnames : (c.table.map Entry.name).Nodup) :
    Fate c pc (c.step cfg content env inUse pc).1 (c.step cfg content env inUse pc).2 := by
  cases pc with
  | registerTable a => exact registerTable_fate hserial
  | registerFile e a =>
    simp only [step, registerFile]
    split_ifs
    · exact fate_stay trivial
    · exact fate_poison (by simp)
    all_goals exact fate_read (.inl rfl) (poisons_refl _) rfl trivial rfl
  | invalidate e =>
    simp only [step, invalidate]
    split_ifs
    · exact fate_stay trivial
    · exact fate_poison (by simp)
  | pathTable root path => exact pathTable_fate hserial
  | pathFiles root path hit =>
    simp only [step, pathFiles]
    split
    · refine fate_finished ?_ (poisons_refl _) rfl
      intro e he hcovers
      exact (hprog e he hcovers).resolve_right (not_mem_nil)
    · split_ifs
      · exact fate_stay hprog
      · refine fate_poison ?_
        rintro root path rest ⟨⟩
        exact hprog
  | clear e why => exact clear_fate hprog (harcs e mem_cons_self) hnames
  | clearGive e why n =>
    exact fate_quiet (fun _ h => h) (fun _ h => h)
      (Why.progress_congr hprog (poisons_refl _) rfl) (poisons_refl _) rfl
  | read r => exact read_fate r
  | unit r => exact unit_fate r
  | wait r fl =>
    simp only [step, wait]
    split
    · exact fate_next rfl (poisons_refl _) rfl
    · exact fate_read (.inl rfl) (poisons_refl _) rfl trivial rfl
    · split_ifs
      · exact fate_read (.inl rfl) (poisons_refl _) rfl trivial rfl
      · exact fate_stay trivial
  | evictFile l key e idx => exact evictFile_fate l key e idx
  | fetchFailed l => exact fetchFailed_fate l
  | loadComplete l run data => exact fate_next rfl (poisons_refl _) rfl
  | judge r => exact judge_fate r
  | _ =>
    -- The others neither poison nor answer: the read goes on, or is given up.
    simp only [step, waitDrop, missRoom, startLoad, reserve, reserveCas, evictPop, fetch, loadFile,
      loadSlot, loadGive, guardDrop]
    (repeat' split) <;> refine fate_read ?_ ?_ rfl trivial rfl <;>
      first | exact .inr rfl | exact .inl rfl | exact poisons_refl _ | exact poisons_update id

theorem table_of_locked (pc : Pc) (h : c.tableLocked = true) :
    (c.step cfg content env inUse pc).1.table = c.table := by
  by_cases hpc : pc.onTable = true
  · cases pc with
    | registerTable a => simp [step, registerTable, h]
    | pathTable root path => simp [step, pathTable, h]
    | _ => simp [Pc.onTable] at hpc
  · exact (step_tableKept cfg content env inUse pc (by simpa using hpc)).table

/-- A file that is new in the table has a name no file there had, and is poisoned already or
comes from a registration. -/
theorem new_entry (he : e ∈ (c.step cfg content env inUse pc).1.table)
    (hnew : e ∉ c.table) :
    ((c.step cfg content env inUse pc).1.state e).poisoned = true ∨
      ∃ a, pc = .registerTable a ∧ e.name = a.name ∧
        ∀ d ∈ c.table, d.name = a.name → (c.state d).poisoned = false := by
  by_cases hpc : pc.onTable = true
  · cases pc with
    | registerTable a =>
      rcases c.registerTable_cases env inUse a with heq | ⟨-, c₁, hc₁, hout⟩
      · simp only [step, heq] at he
        exact absurd he hnew
      · have hsub : c₁.table ⊆ c.table := by
          rcases hc₁ with rfl | rfl
          · exact List.Subset.refl _
          · exact fun _ hd => mem_of_mem_filter hd
        rcases hout with ⟨d, -, -, heq⟩ | ⟨hnone, heq⟩
        · simp only [step, heq] at he
          exact absurd (hsub he) hnew
        · simp only [step, heq] at he
          rcases mem_cons.mp he with rfl | he
          · refine .inr ⟨a, rfl, rfl, fun d hd hname => ?_⟩
            -- a poisoned entry would have survived the sweep
            by_contra hp
            rw [Bool.not_eq_false] at hp
            refine hnone d ?_ hname
            rcases hc₁ with rfl | rfl
            · exact hd
            · simp [hd, hp]
          · exact absurd (hsub he) hnew
    | pathTable root path =>
      rcases c.pathTable_cases root path with heq | ⟨-, c₁, hit, heq, -, hc₁⟩
      · simp only [step, heq] at he
        exact absurd he hnew
      · simp only [step, heq] at he ⊢
        rcases hc₁ with ⟨rfl, -⟩ | ⟨-, rfl⟩
        · exact absurd he hnew
        · rcases mem_cons.mp he with rfl | he
          · exact .inl (by simp)
          · exact absurd he hnew
    | _ => simp [Pc.onTable] at hpc
  · rw [(step_tableKept cfg content env inUse pc (by simpa using hpc)).table] at he
    exact absurd he hnew

theorem step_names (pc : Pc) (hnames : (c.table.map Entry.name).Nodup) :
    ((c.step cfg content env inUse pc).1.table.map Entry.name).Nodup := by
  have hcons : ∀ {d : Entry} {l : List Entry}, (l.map Entry.name).Nodup →
      (∀ e ∈ l, e.name ≠ d.name) → ((d :: l).map Entry.name).Nodup := by
    intro d l hl hd
    refine nodup_cons.mpr ⟨?_, hl⟩
    intro hmem
    obtain ⟨e, he, hname⟩ := mem_map.mp hmem
    exact hd e he hname
  by_cases hpc : pc.onTable = true
  · cases pc with
    | registerTable a =>
      rcases c.registerTable_cases env inUse a with heq | ⟨-, c₁, hc₁, hout⟩
      · simpa only [step, heq] using hnames
      · have h₁ : (c₁.table.map Entry.name).Nodup := by
          rcases hc₁ with rfl | rfl
          · exact hnames
          · exact hnames.sublist (filter_sublist.map _)
        rcases hout with ⟨d, -, -, heq⟩ | ⟨hnone, heq⟩
        · simpa only [step, heq] using h₁
        · simp only [step, heq]
          exact hcons h₁ hnone
    | pathTable root path =>
      rcases c.pathTable_cases root path with heq | ⟨-, c₁, hit, heq, -, hc₁⟩
      · simpa only [step, heq] using hnames
      · simp only [step, heq]
        rcases hc₁ with ⟨rfl, -⟩ | ⟨hnone, rfl⟩
        · exact hnames
        · exact hcons hnames hnone
    | _ => simp [Pc.onTable] at hpc
  · rw [(step_tableKept cfg content env inUse pc (by simpa using hpc)).table]
    exact hnames

end Cache

theorem Pc.Progress.frame {c c' : Cache} {pc : Pc} (h : pc.Progress c)
    (hpoisoned : ∀ e ∈ c.table, (c.state e).poisoned = true → (c'.state e).poisoned = true)
    (htable : .table ∈ pc.held → c'.table = c.table) (harcs : ∀ e ∈ pc.arcs, e ∈ c.table) :
    pc.Progress c' := by
  have hvisit : ∀ {root path rest}, c'.table = c.table → c.Visiting root path rest →
      c'.Visiting root path rest := by
    intro root path rest heq hv e he hcovers
    rw [heq] at he
    exact (hv e he hcovers).imp_left (hpoisoned e he)
  cases pc with
  | pathFiles root path hit => exact hvisit (htable mem_cons_self) h
  | clear e why | clearGive e why n =>
    rcases why with (_ | _ | ⟨root, path, rest⟩) | v | l | r
    case poison.invalidate => exact hpoisoned e (harcs e mem_cons_self) h
    case poison.path => exact hvisit (htable mem_cons_self) h
    all_goals trivial
  | _ => trivial

theorem Pc.mem_arcs_of_begun {pc : Pc} {x : Entry × ℕ} (h : x ∈ pc.begun) : x.1 ∈ pc.arcs := by
  cases pc with
  | read r =>
    obtain rfl : _ = x := by simpa [Pc.begun] using h
    exact mem_cons_self
  | _ => simp [Pc.begun] at h

/-- No finished invalidation covers a read of `n` that began at or after its end. -/
def Cache.Unaffected (c : Cache) (n : Name) (began : ℕ) : Prop :=
  ∀ f ∈ c.invalidated, f.clock ≤ began → ¬ f.what.Covers n

/-- The invariant of the runs below: every file in the table that a finished invalidation
covers is poisoned, and reads that may still be answered, or were, are not affected by one
that finished before them. Everything so far began before `now`. -/
structure FinalOn {ι : Type*} (σ : System ι) (now : ℕ) : Prop extends Guarded σ where
  names : (σ.cache.table.map Entry.name).Nodup
  covered : ∀ f ∈ σ.cache.invalidated, ∀ e ∈ σ.cache.table, f.what.Covers e.name →
    (σ.cache.state e).poisoned = true
  progress : ∀ i, (σ.pc i).Progress σ.cache
  begun : ∀ i, ∀ x ∈ (σ.pc i).begun, x.2 < now
  past : ∀ i, ∀ x ∈ (σ.pc i).past, x.2 < now ∧ σ.cache.Unaffected x.1.name x.2
  served : ∀ a ∈ σ.cache.served, a.began < now ∧ σ.cache.Unaffected a.name a.began

def Final {ι : Type*} (σ : System ι) : Prop := FinalOn σ σ.cache.clock

/-- The registration that `ev` lets look its file up in the table. -/
def System.registering {ι : Type*} (σ : System ι) : Event ι → Option Registration
  | .step i _ =>
    match σ.pc i with
    | .registerTable a => some a
    | _ => none
  | _ => none

/-- A registration that finds no entry of its name is not of a name that a finished
invalidation covers. -/
def Remembered {ι : Type*} (σ : System ι) (ev : Event ι) : Prop :=
  ∀ a ∈ σ.registering ev, (∀ e ∈ σ.cache.table, e.name ≠ a.name) →
    ∀ f ∈ σ.cache.invalidated, ¬ f.what.Covers a.name

instance {ι : Type*} (σ : System ι) (ev : Event ι) : Decidable (Remembered σ ev) :=
  inferInstanceAs (Decidable (∀ a ∈ σ.registering ev, _))

namespace FinalOn

variable {ι : Type*} {σ : System ι} {cfg : CacheConfig} {content : Name → Version → ℕ → UInt8}

theorem new : Final (System.new : System ι) where
  toGuarded := Guarded.new
  names := nodup_nil
  covered := by simp [System.new]
  progress := fun _ => trivial
  begun := by simp [System.new, Pc.begun]
  past := by simp [System.new, Pc.past]
  served := by simp [System.new]

theorem mono {now later : ℕ} (h : FinalOn σ now) (hle : now ≤ later) : FinalOn σ later where
  toGuarded := h.toGuarded
  names := h.names
  covered := h.covered
  progress := h.progress
  begun := fun i x hx => (h.begun i x hx).trans_le hle
  past := fun i x hx => ⟨(h.past i x hx).1.trans_le hle, (h.past i x hx).2⟩
  served := fun a ha => ⟨(h.served a ha).1.trans_le hle, (h.served a ha).2⟩

variable [DecidableEq ι]

theorem call (h : Final σ) {i : ι} {pc : Pc} (hg : Guarded (σ.call i pc))
    (hpast : pc.past = none) (hbegun : ∀ x ∈ pc.begun, x.2 = σ.cache.clock)
    (hprog : pc.Progress σ.cache) : FinalOn (σ.call i pc) (σ.cache.clock + 1) where
  toGuarded := hg
  names := h.names
  covered := h.covered
  progress := forall_update (P := Pc.Progress σ.cache) hprog fun j _ => h.progress j
  begun := forall_update (P := fun pc : Pc => ∀ x ∈ pc.begun, x.2 < σ.cache.clock + 1)
    (fun x hx => by rw [hbegun x hx]; exact Nat.lt_succ_self _)
    fun j _ x hx => (h.begun j x hx).trans (Nat.lt_succ_self _)
  past := forall_update (P := fun pc : Pc => ∀ x ∈ pc.past,
      x.2 < σ.cache.clock + 1 ∧ σ.cache.Unaffected x.1.name x.2) (by simp [hpast])
    fun j _ x hx => ⟨(h.past j x hx).1.trans (Nat.lt_succ_self _), (h.past j x hx).2⟩
  served := fun a ha => ⟨(h.served a ha).1.trans (Nat.lt_succ_self _), (h.served a ha).2⟩

variable [Fintype ι]

theorem step_thread (h : Final σ) (i : ι) (env : Env)
    (hrem : ∀ a, σ.pc i = .registerTable a → (∀ e ∈ σ.cache.table, e.name ≠ a.name) →
      ∀ f ∈ σ.cache.invalidated, ¬ f.what.Covers a.name) :
    FinalOn (σ.act cfg content (.step i env)) (σ.cache.clock + 1) := by
  have hfate : Fate σ.cache (σ.pc i) (Cache.step cfg content env σ.inUse σ.cache (σ.pc i)).1
      (Cache.step cfg content env σ.inUse σ.cache (σ.pc i)).2 :=
    Cache.step_fate (h.progress i) (h.arcs i) h.serial_lt h.names
  have hunaffected : ∀ n began, began < σ.cache.clock → σ.cache.Unaffected n began →
      (Cache.step cfg content env σ.inUse σ.cache (σ.pc i)).1.Unaffected n began := by
    intro n began hlt hun f hf hle
    rcases hfate.invalidated f hf with hf | ⟨hclock, -⟩
    · exact hun f hf hle
    · omega
  have hlt := Nat.lt_succ_self σ.cache.clock
  have hpast : ∀ x ∈ (σ.pc i).past, x.2 < σ.cache.clock + 1 ∧
      (Cache.step cfg content env σ.inUse σ.cache (σ.pc i)).1.Unaffected x.1.name x.2 :=
    fun x hx => ⟨(h.past i x hx).1.trans hlt,
      hunaffected _ _ (h.past i x hx).1 (h.past i x hx).2⟩
  refine ⟨h.toGuarded.step_thread cfg content env i, Cache.step_names (σ.pc i) h.names, ?_, ?_, ?_,
    ?_, ?_⟩
  · intro f hf e he hcovers
    rcases hfate.invalidated f hf with hf | ⟨-, hall⟩
    · by_cases hold : e ∈ σ.cache.table
      · exact hfate.poisoned e hold (h.covered f hf e hold hcovers)
      · rcases Cache.new_entry he hold with hp | ⟨a, hpc, hname, hclean⟩
        · exact hp
        · -- the name had no entry, or only one that was clean, so nothing finished covers it
          refine absurd (hname ▸ hcovers) (hrem a hpc (fun d hd hda => ?_) f hf)
          have hpoisoned := h.covered f hf d hd ((hda.trans hname.symm) ▸ hcovers)
          rw [hclean d hd hda] at hpoisoned
          cases hpoisoned
    · exact hall e he hcovers
  · refine forall_update (P := Pc.Progress _) hfate.progress fun j hj => ?_
    refine (h.progress j).frame hfate.poisoned (fun htab => ?_) (h.arcs j)
    exact Cache.table_of_locked (σ.pc i) (h.locked j _ htab)
  · refine forall_update
      (P := fun pc : Pc => ∀ x ∈ pc.begun, x.2 < σ.cache.clock + 1) ?_ ?_
    · exact fun x hx => (h.begun i x (hfate.begun x hx)).trans hlt
    · exact fun j _ x hx => (h.begun j x hx).trans hlt
  · refine forall_update (P := fun pc : Pc => ∀ x ∈ pc.past, x.2 < σ.cache.clock + 1 ∧
      (Cache.step cfg content env σ.inUse σ.cache (σ.pc i)).1.Unaffected x.1.name x.2) ?_ ?_
    · intro x hx
      rcases hfate.past x hx with hx | ⟨hx, hclean⟩
      · exact hpast x hx
      · have hbegan := h.begun i x hx
        refine ⟨hbegan.trans hlt, hunaffected _ _ hbegan fun f hf _ hcovers => ?_⟩
        have hp := h.covered f hf x.1 (h.arcs i _ (Pc.mem_arcs_of_begun hx)) hcovers
        rw [hclean] at hp
        cases hp
    · exact fun j _ x hx => ⟨(h.past j x hx).1.trans hlt,
        hunaffected _ _ (h.past j x hx).1 (h.past j x hx).2⟩
  · intro a ha
    rcases hfate.served a ha with ha | ⟨x, hx, hname, hbegan⟩
    · exact ⟨(h.served a ha).1.trans hlt, hunaffected _ _ (h.served a ha).1 (h.served a ha).2⟩
    · rw [hname, hbegan]
      exact hpast x hx

theorem act (h : Final σ) (ev : Event ι) (hrem : Remembered σ ev) :
    FinalOn (σ.act cfg content ev) (σ.cache.clock + 1) := by
  have hg := h.toGuarded.act cfg content ev
  have hstay : FinalOn σ (σ.cache.clock + 1) := h.mono (Nat.le_succ _)
  cases ev with
  | step i env =>
    exact step_thread h i env fun a hpc => hrem a (by simp [System.registering, hpc])
  | register i | invalidate i | invalidatePath i =>
    simp only [System.act] at hg ⊢
    split_ifs at hg ⊢
    · exact call h hg rfl (by simp [Pc.begun]) trivial
    · exact hstay
  | read i f off asked =>
    simp only [System.act, System.beginRead] at hg ⊢
    split_ifs at hg ⊢
    · split
      · exact hstay
      · next v hv =>
        rw [hv] at hg
        dsimp only at hg
        split_ifs at hg ⊢
        · exact call h hg rfl (by simp [Pc.begun]) trivial
        · exact hstay
    · exact hstay
  | cloneRef f =>
    simp only [System.act] at hg ⊢
    split_ifs at hg ⊢
    · exact ⟨hg, hstay.names, hstay.covered, hstay.progress, hstay.begun, hstay.past,
        hstay.served⟩
    · exact hstay
  | dropRef f =>
    exact ⟨hg, hstay.names, hstay.covered, hstay.progress, hstay.begun, hstay.past,
      hstay.served⟩

theorem act_clock (h : Final σ) (ev : Event ι) :
    (σ.act cfg content ev).cache.clock = σ.cache.clock := by
  cases ev with
  | step i env => exact (Cache.step_fate (h.progress i) (h.arcs i) h.serial_lt h.names).clock
  | read i f off asked =>
    simp only [System.act, System.beginRead]
    split_ifs
    · split
      · rfl
      · split_ifs <;> rfl
    · rfl
  | dropRef f => rfl
  | _ =>
    simp only [System.act]
    split_ifs <;> rfl

theorem step (h : Final σ) (ev : Event ι) (hrem : Remembered σ ev) :
    Final (σ.step cfg content ev) := by
  have h' : FinalOn (σ.act cfg content ev) (σ.cache.clock + 1) := act h ev hrem
  have hclock : (σ.act cfg content ev).cache.clock = σ.cache.clock := act_clock h ev
  unfold Final
  simp only [System.step, hclock]
  exact ⟨⟨h'.exclusive, h'.locked, h'.refs, h'.arcs, h'.serial_lt, h'.nodup⟩, h'.names, h'.covered,
    h'.progress, h'.begun, h'.past, h'.served⟩

end FinalOn

/-- In every run in which no name that a finished invalidation covers is registered without an
entry in the table: once an invalidation of a file, or of a path, has returned, no read of
that file, or of anything at or below that path, that begins later is answered by the cache. -/
theorem System.invalidation_final {ι : Type*} [DecidableEq ι] [Fintype ι] (cfg : CacheConfig)
    (content : Name → Version → ℕ → UInt8) (es : List (Event ι))
    (hes : Transition.AllSteps (System.step cfg content) Remembered System.new es) :
    ∀ f ∈ (System.run cfg content es).cache.invalidated,
      ∀ a ∈ (System.run cfg content es).cache.served,
        f.clock ≤ a.began → ¬ f.what.Covers a.name := by
  have h : Final (System.run cfg content es) := by
    refine run_invariant_of_allSteps (fun _ ev h hrem => ?_) ?_ hes
    · exact FinalOn.step h ev hrem
    · exact FinalOn.new
  exact fun f hf a ha hle => (h.served a ha).2 f hf hle

/-- A file is registered and read twice, its directory is invalidated, and it is registered and
read again. -/
def invalidatedRun : List (Event Unit) :=
  List.flatten [
    [.register () ⟨⟨0, ['d', '/', 'q']⟩, ⟨4, 1⟩, true, false⟩], List.replicate 3 (.step () {}),
    [.read () ⟨⟨0, ⟨0, ['d', '/', 'q']⟩⟩, some ⟨4, 1⟩⟩ 0 3], List.replicate 14 (.step () {}),
    [.invalidatePath () 0 ['d']], List.replicate 6 (.step () {}),
    [.register () ⟨⟨0, ['d', '/', 'q']⟩, ⟨4, 1⟩, true, false⟩], List.replicate 3 (.step () {}),
    [.read () ⟨⟨0, ⟨0, ['d', '/', 'q']⟩⟩, some ⟨4, 1⟩⟩ 0 3], List.replicate 14 (.step () {})]

theorem System.invalidation_final_invalidatedRun :
    let c := (System.run tinyConfig countingContent invalidatedRun).cache
    let f : Finished := ⟨.path 0 ['d'], 25⟩
    f ∈ c.invalidated ∧ ∀ a ∈ c.served, f.clock ≤ a.began → ¬ f.what.Covers a.name := by
  intro c f
  have hmem : f ∈ c.invalidated := by decide +kernel
  have hes : Transition.AllSteps (System.step tinyConfig countingContent) Remembered
      System.new invalidatedRun := by
    decide +kernel
  exact ⟨hmem, System.invalidation_final tinyConfig countingContent invalidatedRun hes f hmem⟩

/-- A path is invalidated; then a file below it is registered for the first time, with the
version it had before, and read twice. -/
def reopenedRun : List (Event Unit) :=
  List.flatten [
    [.invalidatePath () 0 ['d']], List.replicate 2 (.step () {}),
    [.register () ⟨⟨0, ['d', '/', 'q']⟩, ⟨4, 1⟩, true, false⟩], List.replicate 3 (.step () {}),
    [.read () ⟨⟨1, ⟨0, ['d', '/', 'q']⟩⟩, some ⟨4, 1⟩⟩ 0 3], List.replicate 14 (.step () {}),
    [.read () ⟨⟨1, ⟨0, ['d', '/', 'q']⟩⟩, some ⟨4, 1⟩⟩ 0 3], List.replicate 3 (.step () {})]

def reopenedAnswer : Served :=
  ⟨⟨0, ['d', '/', 'q']⟩, ⟨4, 1⟩, 0, 3, [0, 1, 2], .hit, 22⟩

/-- The table remembers the path, not what is below it: the second read is answered from
cached bytes long after the invalidation returned. -/
theorem System.below_invalidated_served :
    let c := (System.run tinyConfig countingContent reopenedRun).cache
    let f : Finished := ⟨.path 0 ['d'], 2⟩
    f ∈ c.invalidated ∧ reopenedAnswer ∈ c.served ∧ f.clock ≤ reopenedAnswer.began ∧
      f.what.Covers reopenedAnswer.name := by
  decide +kernel

end AetherVfs.ReadCache
