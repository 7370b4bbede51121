import AetherVfs.Registry.Saves

/-!
# What the saved file holds

`saved` is a lock, so of all the threads in a save or a sync one at a time is past it: only that
one touches the temporary file, the flag and the saved version. What the others know is about
versions, and versions only grow within a session.
-/

namespace AetherVfs.Registry.Saves

open List Function Transition

variable {ι : Type}

/-! ## Invariants -/

/-- The versions up to `since` were in the file at a sync, if this session made them. -/
def Covered (s : State ι) (since : ℕ) : Prop :=
  since ≤ s.opened ∨ ∃ w, s.synced = some w ∧ since ≤ w

/-- A hook call is under way, or failed and is not yet noted. -/
def Pc.syncing : Pc → Bool
  | .hook | .unmark => true
  | _ => false

/-- What the file holds and no sync has covered is marked. -/
def Flagged (s : State ι) : Prop :=
  s.unsynced = true ∨ (∃ i, (s.threads i).pc.syncing = true) ∨ s.held = s.opened ∨
    s.synced = some s.held

section Runs

variable [ToLowercase]

/-- The snapshot of a save that has not renamed yet. -/
structure Snap (s : State ι) (since : ℕ) (o : Overlay) : Prop where
  inv : Overlay.Inv o
  named : o.Named
  saveable : o.Saveable
  commit : o ∈ s.commits
  past : o ∈ s.past
  since : since ≤ o.version
  held : s.held ≤ o.version

def Fact (s : State ι) (th : Thread) : Prop :=
  match th.pc with
  | .idle | .wantSave | .read => True
  | .mark o => Snap s th.since o
  | .openTmp o => s.unsynced = true ∧ Snap s th.since o
  | .write o off => s.unsynced = true ∧ Snap s th.since o ∧
      s.tmp = some ((Format.encode o).take off)
  | .close o res => s.unsynced = true ∧ Snap s th.since o ∧
      (res = true → s.tmp = some (Format.encode o))
  | .rename o => s.unsynced = true ∧ Snap s th.since o ∧ s.tmp = some (Format.encode o)
  | .record o => s.unsynced = true ∧ th.since ≤ o.version ∧ s.held = o.version
  | .wantSync | .swap | .hook | .unmark => th.task = .durable → th.since ≤ s.held
  | .returned ok => ok = true → th.task = .durable → s.hooked = true → Covered s th.since

/-- The file holds something that was committed. -/
def Committed (s : State ι) : Prop :=
  ∃ o ∈ s.commits, Overlay.Inv o ∧ o.Named ∧ Holds s.file o

/-- What is true of the overlay, the file and the versions. -/
structure Settled (s : State ι) : Prop where
  inv : Overlay.Inv s.overlay
  named : s.overlay.Named
  current : s.overlay ∈ s.past
  past : ∀ o ∈ s.past, o.version ≤ s.overlay.version ∧
    (o.version = s.overlay.version → o = s.overlay)
  dirty : s.overlay.version = s.opened ∨ s.overlay ∈ s.commits ∧ s.overlay.Saveable
  content : ∃ o ∈ s.past, o.version = s.held ∧ Holds s.file o
  committed : Committed s
  opened_le : s.opened ≤ s.saved
  saved_le : s.saved ≤ s.held
  held_le : s.held ≤ s.overlay.version
  synced_le : ∀ w, s.synced = some w → w ≤ s.held

structure Live (s : State ι) : Prop where
  settled : Settled s
  lock : ∀ i, s.lock = some i ↔ (s.threads i).pc.holds = true
  begun : ∀ i, (s.threads i).since ≤ s.overlay.version
  fact : ∀ i, Fact s (s.threads i)
  flagged : Flagged s

/-- What no step within a session takes back. -/
structure Grows (s s' : State ι) : Prop where
  opened : s'.opened = s.opened
  hooked : s'.hooked = s.hooked
  version : s.overlay.version ≤ s'.overlay.version
  held : s.held ≤ s'.held
  synced : ∀ w, s.synced = some w → ∃ w', s'.synced = some w' ∧ w ≤ w'
  commits : s.commits ⊆ s'.commits
  past : s.past ⊆ s'.past

/-- The parts that only the thread that holds `saved` changes are the same. -/
structure SameSave (s s' : State ι) : Prop where
  tmp : s'.tmp = s.tmp
  unsynced : s'.unsynced = s.unsynced
  held : s'.held = s.held

section

variable {s s' : State ι}

omit [ToLowercase] in
theorem Covered.mono {since : ℕ} (h : Covered s since) (hg : Grows s s') : Covered s' since := by
  rcases h with hle | ⟨w, hw, hle⟩
  · exact Or.inl (hg.opened ▸ hle)
  · obtain ⟨w', hw', hww⟩ := hg.synced w hw
    exact Or.inr ⟨w', hw', hle.trans hww⟩

theorem Snap.mono {since : ℕ} {o : Overlay} (h : Snap s since o) (hg : Grows s s')
    (hheld : s'.held = s.held) : Snap s' since o :=
  ⟨h.inv, h.named, h.saveable, hg.commits h.commit, hg.past h.past, h.since, hheld ▸ h.held⟩

/-- A fact outlives the steps of others: past the lock no one else saves, and what is known
elsewhere is about versions that grow. -/
theorem fact_mono {th : Thread} (h : Fact s th) (hg : Grows s s')
    (hsame : th.pc.holds = true → SameSave s s') : Fact s' th := by
  obtain ⟨task, since, pc⟩ := th
  cases pc with
  | idle | wantSave | read => trivial
  | mark o => exact Snap.mono h hg (hsame rfl).held
  | openTmp o =>
    obtain ⟨htmp, hun, hheld⟩ := hsame rfl
    exact ⟨hun ▸ h.1, h.2.mono hg hheld⟩
  | write o off =>
    obtain ⟨htmp, hun, hheld⟩ := hsame rfl
    exact ⟨hun ▸ h.1, h.2.1.mono hg hheld, htmp ▸ h.2.2⟩
  | close o res =>
    obtain ⟨htmp, hun, hheld⟩ := hsame rfl
    exact ⟨hun ▸ h.1, h.2.1.mono hg hheld, fun hres => htmp ▸ h.2.2 hres⟩
  | rename o =>
    obtain ⟨htmp, hun, hheld⟩ := hsame rfl
    exact ⟨hun ▸ h.1, h.2.1.mono hg hheld, htmp ▸ h.2.2⟩
  | record o =>
    obtain ⟨htmp, hun, hheld⟩ := hsame rfl
    exact ⟨hun ▸ h.1, h.2.1, hheld ▸ h.2.2⟩
  | wantSync | swap | hook | unmark => exact fun htask => (h htask).trans hg.held
  | returned ok =>
    exact fun hok htask hhook => Covered.mono (h hok htask (hg.hooked ▸ hhook)) hg

/-! ## One thread moves -/

/-- How the move of thread `i` changes who holds `saved`. -/
inductive LockMoves (s s' : State ι) (i : ι) : Prop where
  | stays (hlock : s'.lock = s.lock) (hpc : (s'.threads i).pc.holds = (s.threads i).pc.holds)
  | takes (hfree : s.lock = none) (hlock : s'.lock = some i) (hpc : (s'.threads i).pc.holds = true)
  | leaves (hheld : (s.threads i).pc.holds = true) (hlock : s'.lock = none)
      (hpc : (s'.threads i).pc.holds = false)

omit [ToLowercase] in
theorem LockMoves.lock_iff {i : ι} (hmove : LockMoves s s' i)
    (h : ∀ j, s.lock = some j ↔ (s.threads j).pc.holds = true)
    (hrest : ∀ j, j ≠ i → s'.threads j = s.threads j) (j : ι) :
    s'.lock = some j ↔ (s'.threads j).pc.holds = true := by
  by_cases hj : j = i
  · subst hj
    cases hmove with
    | stays hlock hpc => rw [hlock, hpc, h]
    | takes hfree hlock hpc => simp [hlock, hpc]
    | leaves hheld hlock hpc => simp [hlock, hpc]
  · rw [hrest j hj, ← h j]
    cases hmove with
    | stays hlock hpc => rw [hlock]
    | takes hfree hlock hpc => simp [hlock, hfree, Ne.symm hj]
    | leaves hheld hlock hpc => simp [hlock, (h i).mpr hheld, Ne.symm hj]

theorem Live.moved {i : ι} (h : Live s) (hset : Settled s') (hg : Grows s s')
    (hrest : ∀ j, j ≠ i → s'.threads j = s.threads j)
    (hbegun : (s'.threads i).since ≤ s'.overlay.version) (hmove : LockMoves s s' i)
    (hsame : (s.threads i).pc.holds = false → SameSave s s')
    (hfact : Fact s' (s'.threads i)) (hflag : Flagged s') : Live s' := by
  refine ⟨hset, hmove.lock_iff h.lock hrest, fun j => ?_, fun j => ?_, hflag⟩
  · by_cases hj : j = i
    · rw [hj]
      exact hbegun
    · rw [hrest j hj]
      exact (h.begun j).trans hg.version
  · by_cases hj : j = i
    · rw [hj]
      exact hfact
    · rw [hrest j hj]
      refine fact_mono (h.fact j) hg fun hheld => hsame ?_
      -- The thread that holds `saved` is `j`, so `i` does not.
      rw [Bool.eq_false_iff]
      intro hi
      have hlock := ((h.lock j).mpr hheld).symm.trans ((h.lock i).mpr hi)
      exact hj (Option.some.inj hlock)

/-- Nothing but the threads, the lock, the flag, the temporary file and the saved version
changed. -/
structure Keeps (s s' : State ι) : Prop where
  overlay : s'.overlay = s.overlay
  hooked : s'.hooked = s.hooked
  file : s'.file = s.file
  commits : s'.commits = s.commits
  past : s'.past = s.past
  opened : s'.opened = s.opened
  held : s'.held = s.held
  synced : s'.synced = s.synced

omit [ToLowercase] in
theorem Keeps.grows (h : Keeps s s') : Grows s s' := by
  refine ⟨h.opened, h.hooked, (congrArg _ h.overlay).ge, h.held.ge, ?_, ?_, ?_⟩
  · exact fun w hw => ⟨w, h.synced.trans hw, le_rfl⟩
  · rw [h.commits]; exact List.Subset.refl _
  · rw [h.past]; exact List.Subset.refl _

theorem Keeps.settled (h : Keeps s s') (hset : Settled s) (hopened : s.opened ≤ s'.saved)
    (hheld : s'.saved ≤ s.held) : Settled s' := by
  obtain ⟨hoverlay, -, hfile, hcommits, hpast, hop, hhold, hsynced⟩ := h
  refine ⟨?_, ?_, ?_, ?_, ?_, ?_, ?_, ?_, ?_, ?_, ?_⟩
  · rw [hoverlay]; exact hset.inv
  · rw [hoverlay]; exact hset.named
  · rw [hoverlay, hpast]; exact hset.current
  · rw [hoverlay, hpast]; exact hset.past
  · rw [hoverlay, hop, hcommits]; exact hset.dirty
  · rw [hpast, hhold, hfile]; exact hset.content
  · rw [Committed, hcommits, hfile]; exact hset.committed
  · rw [hop]; exact hopened
  · rw [hhold]; exact hheld
  · rw [hhold, hoverlay]; exact hset.held_le
  · rw [hhold, hsynced]; exact hset.synced_le

/-- What a step does within a session. -/
def Moves (s s' : State ι) : Prop := Live s' ∧ Grows s s'

theorem Live.stays (h : Live s) : Moves s s :=
  ⟨h, Keeps.grows ⟨rfl, rfl, rfl, rfl, rfl, rfl, rfl, rfl⟩⟩

/-- A step that no thread takes part in. -/
theorem Live.beside (h : Live s) (hset : Settled s') (hg : Grows s s') (hsame : SameSave s s')
    (hthreads : s'.threads = s.threads) (hlock : s'.lock = s.lock) (hflag : Flagged s') :
    Moves s s' := by
  refine ⟨⟨hset, ?_, fun j => ?_, fun j => ?_, hflag⟩, hg⟩
  · rw [hthreads, hlock]
    exact h.lock
  · rw [hthreads]
    exact (h.begun j).trans hg.version
  · rw [hthreads]
    exact fact_mono (h.fact j) hg fun _ => hsame

variable [DecidableEq ι]

omit [ToLowercase] in
@[simp] theorem State.goto_self (s : State ι) (i : ι) (pc : Pc) :
    (s.goto i pc).threads i = { s.threads i with pc } := update_self ..

omit [ToLowercase] in
theorem State.goto_of_ne (s : State ι) {i j : ι} (pc : Pc) (hj : j ≠ i) :
    (s.goto i pc).threads j = s.threads j := update_of_ne hj ..

section

variable {i : ι} {task : Task} {since : ℕ} {pc pc' : Pc} {o : Overlay} {io : Io}
  {lock : Option ι} {unsynced : Bool} {tmp : Option Bytes}

theorem Snap.goto (h : Snap s since o) :
    Snap ({ s with lock, unsynced, tmp }.goto i pc) since o :=
  ⟨h.1, h.2, h.3, h.4, h.5, h.6, h.7⟩

omit [ToLowercase] in
theorem Flagged.goto (h : Flagged s) (hsync : (s.threads i).pc.syncing = false) :
    Flagged ({ s with lock, tmp }.goto i pc) := by
  rcases h with h | ⟨j, hj⟩ | h
  · exact Or.inl h
  · refine Or.inr (Or.inl ⟨j, ?_⟩)
    rwa [State.goto_of_ne]
    rintro rfl
    rw [hsync] at hj
    cases hj
  · exact Or.inr (Or.inr h)

omit [ToLowercase] in
theorem flagged_syncing (s : State ι) (hpc : pc.syncing = true) : Flagged (s.goto i pc) := by
  refine Or.inr (Or.inl ⟨i, ?_⟩)
  rw [State.goto_self]
  exact hpc

variable (h : Live s)

include h

section

variable (hth : s.threads i = ⟨task, since, pc⟩)

include hth

theorem Live.goto
    (hmove : LockMoves s ({ s with lock, unsynced, tmp }.goto i pc') i)
    (hsame : pc.holds = true ∨ SameSave s { s with lock, unsynced, tmp })
    (hfact : Fact ({ s with lock, unsynced, tmp }.goto i pc') ⟨task, since, pc'⟩)
    (hflag : Flagged ({ s with lock, unsynced, tmp }.goto i pc')) :
    Moves s ({ s with lock, unsynced, tmp }.goto i pc') := by
  have hk : Keeps s ({ s with lock, unsynced, tmp }.goto i pc') :=
    ⟨rfl, rfl, rfl, rfl, rfl, rfl, rfl, rfl⟩
  have hset := hk.settled h.settled h.settled.opened_le h.settled.saved_le
  refine ⟨h.moved hset hk.grows (fun j hj => State.goto_of_ne _ _ hj) ?_ hmove (fun hpc => ?_) ?_
    hflag, hk.grows⟩
  · rw [State.goto_self]
    exact h.begun i
  · rw [hth] at hpc
    rcases hsame with hholds | hsame
    · exact absurd (hpc.symm.trans hholds) Bool.false_ne_true
    · exact ⟨hsame.tmp, hsame.unsynced, rfl⟩
  · rw [State.goto_self, hth]
    exact hfact

theorem Live.taking (hfree : s.lock = none)
    (hsync : pc.syncing = false) (hpc' : pc'.holds = true)
    (hfact : Fact ({ s with lock := some i }.goto i pc') ⟨task, since, pc'⟩) :
    Moves s ({ s with lock := some i }.goto i pc') := by
  refine h.goto hth (.takes hfree rfl ?_) (.inr ⟨rfl, rfl, rfl⟩) hfact (h.flagged.goto ?_)
  · rw [State.goto_self]
    exact hpc'
  · rw [hth]
    exact hsync

theorem Live.holding (hpc : pc.holds = true)
    (hpc' : pc'.holds = true)
    (hfact : Fact ({ s with unsynced, tmp }.goto i pc') ⟨task, since, pc'⟩)
    (hflag : Flagged ({ s with unsynced, tmp }.goto i pc')) :
    Moves s ({ s with unsynced, tmp }.goto i pc') := by
  refine h.goto hth (.stays rfl ?_) (.inl hpc) hfact hflag
  rw [State.goto_self, hth]
  exact hpc'.trans hpc.symm

theorem Live.leaving (hpc : pc.holds = true)
    (hpc' : pc'.holds = false)
    (hfact : Fact ({ s with lock := none, unsynced, tmp }.goto i pc') ⟨task, since, pc'⟩)
    (hflag : Flagged ({ s with lock := none, unsynced, tmp }.goto i pc')) :
    Moves s ({ s with lock := none, unsynced, tmp }.goto i pc') := by
  refine h.goto hth (.leaves ?_ rfl ?_) (.inl hpc) hfact hflag
  · rw [hth]
    exact hpc
  · rw [State.goto_self]
    exact hpc'

end

omit h

/-- Where a save ends. -/
def Pc.afterSave (task : Task) (ok : Bool) : Pc :=
  if task = .durable ∧ ok = true then .wantSync else .returned ok

omit [ToLowercase] [DecidableEq ι] in
theorem Pc.holds_afterSave (task : Task) (ok : Bool) : (Pc.afterSave task ok).holds = false := by
  unfold Pc.afterSave
  split_ifs <;> rfl

omit [DecidableEq ι] in
theorem fact_afterSave {ok : Bool} (h : ok = true → since ≤ s.held) :
    Fact s ⟨task, since, Pc.afterSave task ok⟩ := by
  unfold Pc.afterSave
  split_ifs with hif
  · exact fun _ => h hif.2
  · exact fun hok htask => absurd ⟨htask, hok⟩ hif

omit [ToLowercase] in
theorem saveReturns_eq (hth : s.threads i = ⟨task, since, pc⟩) (ok : Bool) :
    s.saveReturns i ok = { s with lock := none }.goto i (.afterSave task ok) := by
  simp only [State.saveReturns, Pc.afterSave, hth]

include h

theorem Live.saveReturns (hth : s.threads i = ⟨task, since, pc⟩) (hpc : pc.holds = true)
    (hsync : pc.syncing = false) {ok : Bool} (hok : ok = true → since ≤ s.held) :
    Moves s ({ s with tmp }.saveReturns i ok) := by
  rw [saveReturns_eq (s := { s with tmp }) hth]
  refine h.leaving hth hpc (Pc.holds_afterSave _ _) (fact_afterSave hok) (h.flagged.goto ?_)
  rw [hth]
  exact hsync

theorem Live.turn_wantSave (hth : s.threads i = ⟨task, since, .wantSave⟩) :
    Moves s (s.turn i io) := by
  simp only [State.turn, hth]
  split
  · next hlock => exact h.taking hth hlock rfl rfl trivial
  · exact h.stays

theorem Live.turn_read (hth : s.threads i = ⟨task, since, .read⟩) : Moves s (s.turn i io) := by
  have hsince : since ≤ s.overlay.version := by simpa [hth] using h.begun i
  have hle := h.settled.saved_le
  simp only [State.turn, hth]
  split_ifs with hclean
  · exact h.saveReturns hth rfl rfl fun _ => (hsince.trans hclean.le).trans hle
  · refine h.holding hth rfl rfl ?_ (h.flagged.goto (by rw [hth]; rfl))
    -- The overlay is not the one the session began with, which is saved.
    have hcommit : s.overlay ∈ s.commits ∧ s.overlay.Saveable := by
      refine h.settled.dirty.resolve_left fun hopen => hclean ?_
      have := h.settled.opened_le
      have := h.settled.held_le
      omega
    exact ⟨h.settled.inv, h.settled.named, hcommit.2, hcommit.1, h.settled.current, hsince,
      h.settled.held_le⟩

theorem Live.turn_mark (hth : s.threads i = ⟨task, since, .mark o⟩) : Moves s (s.turn i io) := by
  have hsnap : Snap s since o := by
    have hfact := h.fact i
    rwa [hth] at hfact
  simp only [State.turn, hth]
  exact h.holding hth rfl rfl ⟨rfl, hsnap.goto⟩ (Or.inl rfl)

theorem Live.turn_openTmp (hth : s.threads i = ⟨task, since, .openTmp o⟩) :
    Moves s (s.turn i io) := by
  obtain ⟨hun, hsnap⟩ : Fact s ⟨task, since, .openTmp o⟩ := hth ▸ h.fact i
  simp only [State.turn, hth]
  split_ifs
  · exact h.holding hth rfl rfl ⟨hun, hsnap.goto, rfl⟩ (Or.inl hun)
  · exact h.saveReturns hth rfl rfl nofun
  · exact h.saveReturns hth rfl rfl nofun

omit [ToLowercase] [DecidableEq ι] h in
theorem writeAt_take (bytes : Bytes) (off n : ℕ) :
    writeAt (bytes.take off) bytes off n = bytes.take (off + n) := by
  have hdrop : (bytes.take off).drop (off + n) = [] :=
    drop_eq_nil_of_le ((length_take_le off bytes).trans (Nat.le_add_right off n))
  rw [writeAt, hdrop, append_nil, take_take, min_self, take_add]

theorem Live.turn_write {off : ℕ} (hth : s.threads i = ⟨task, since, .write o off⟩) :
    Moves s (s.turn i io) := by
  obtain ⟨hun, hsnap, htmp⟩ : Fact s ⟨task, since, .write o off⟩ := hth ▸ h.fact i
  have hfailed : ∀ tmp, Moves s ({ s with tmp }.goto i (.close o false)) := fun tmp =>
    h.holding hth rfl rfl ⟨hun, hsnap.goto, nofun⟩ (Or.inl hun)
  simp only [State.turn, hth]
  split_ifs with hoff
  · exact hfailed _
  · refine h.holding hth rfl rfl ⟨hun, hsnap.goto, ?_⟩ (Or.inl hun)
    change s.tmp.map _ = _
    rw [htmp, Option.map_some, writeAt_take]
  · exact hfailed _
  · exact hfailed _
  · refine h.holding hth rfl rfl ⟨hun, hsnap.goto, fun _ => ?_⟩ (Or.inl hun)
    exact htmp.trans (congrArg some (take_of_length_le (not_lt.mp hoff)))

theorem Live.turn_close {res : Bool} (hth : s.threads i = ⟨task, since, .close o res⟩) :
    Moves s (s.turn i io) := by
  obtain ⟨hun, hsnap, htmp⟩ : Fact s ⟨task, since, .close o res⟩ := hth ▸ h.fact i
  simp only [State.turn, hth]
  split_ifs with hok
  · exact h.holding hth rfl rfl ⟨hun, hsnap.goto, htmp hok.1⟩ (Or.inl hun)
  · exact h.saveReturns hth rfl rfl nofun

/-! ## The rename and what follows it -/

omit [DecidableEq ι] h in
theorem Settled.renamed (h : Settled s) (hsnap : Snap s since o)
    (htmp : s.tmp = some (Format.encode o)) :
    Settled (s.renamed o) ∧ Grows s (s.renamed o) := by
  have hholds : Holds (s.renamed o).file o := by
    obtain ⟨o', hdecode, hsame⟩ :=
      Format.decode_encode_of_saveable hsnap.inv hsnap.named hsnap.saveable
    exact ⟨o', (congrArg load htmp).trans hdecode, hsame⟩
  refine ⟨⟨h.inv, h.named, h.current, h.past, h.dirty, ?_, ?_, h.opened_le, ?_, ?_, ?_⟩, ?_⟩
  · exact ⟨o, hsnap.past, rfl, hholds⟩
  · exact ⟨o, hsnap.commit, hsnap.inv, hsnap.named, hholds⟩
  · exact h.saved_le.trans hsnap.held
  · exact (h.past o hsnap.past).1
  · exact fun w hw => (h.synced_le w hw).trans hsnap.held
  · exact ⟨rfl, rfl, le_rfl, hsnap.held, fun w hw => ⟨w, hw, le_rfl⟩, List.Subset.refl _,
      List.Subset.refl _⟩

theorem Live.renamed (hth : s.threads i = ⟨task, since, .rename o⟩)
    (hmove : LockMoves s ({ s.renamed o with lock }.goto i pc') i)
    (hfact : Fact ({ s.renamed o with lock }.goto i pc') ⟨task, since, pc'⟩) :
    Moves s ({ s.renamed o with lock }.goto i pc') := by
  obtain ⟨hun, hsnap, htmp⟩ : Fact s ⟨task, since, .rename o⟩ := hth ▸ h.fact i
  obtain ⟨hset, hg⟩ := h.settled.renamed hsnap htmp
  have hk : Keeps (s.renamed o) ({ s.renamed o with lock }.goto i pc') :=
    ⟨rfl, rfl, rfl, rfl, rfl, rfl, rfl, rfl⟩
  have hg' : Grows s ({ s.renamed o with lock }.goto i pc') :=
    ⟨hg.1, hg.2, hg.3, hg.4, hg.5, hg.6, hg.7⟩
  have hself : ({ s.renamed o with lock }.goto i pc').threads i = ⟨task, since, pc'⟩ := by
    rw [State.goto_self]
    exact congrArg (fun th : Thread => { th with pc := pc' }) hth
  refine ⟨h.moved (hk.settled hset hset.opened_le hset.saved_le) hg'
    (fun j hj => State.goto_of_ne _ _ hj) ?_ hmove (fun hno => ?_) ?_ (Or.inl hun), hg'⟩
  · rw [State.goto_self]
    exact h.begun i
  · rw [hth] at hno
    cases hno
  · rw [hself]
    exact hfact

theorem Live.turn_rename (hth : s.threads i = ⟨task, since, .rename o⟩) :
    Moves s (s.turn i io) := by
  obtain ⟨hun, hsnap, htmp⟩ : Fact s ⟨task, since, .rename o⟩ := hth ▸ h.fact i
  have hlocked : (s.threads i).pc.holds = true := by
    rw [hth]
    rfl
  simp only [State.turn, hth]
  split_ifs
  · refine h.renamed hth (.stays rfl ?_) ⟨hun, hsnap.since, rfl⟩
    rw [State.goto_self, hlocked]
    rfl
  · rw [saveReturns_eq (s := s.renamed o) hth]
    refine h.renamed hth (.leaves hlocked rfl ?_) (fact_afterSave nofun)
    rw [State.goto_self]
    exact Pc.holds_afterSave _ _
  · exact h.saveReturns hth rfl rfl nofun

theorem Live.turn_record (hth : s.threads i = ⟨task, since, .record o⟩) :
    Moves s (s.turn i io) := by
  obtain ⟨-, hsince, hheld⟩ : Fact s ⟨task, since, .record o⟩ := hth ▸ h.fact i
  have hk : Keeps s { s with saved := s.held } := ⟨rfl, rfl, rfl, rfl, rfl, rfl, rfl, rfl⟩
  have hset := hk.settled h.settled (h.settled.opened_le.trans h.settled.saved_le) le_rfl
  have hsaved := h.beside hset hk.grows ⟨rfl, rfl, rfl⟩ rfl rfl h.flagged
  simp only [State.turn, hth, ← hheld]
  obtain ⟨hlive, hg⟩ := hsaved.1.saveReturns hth rfl rfl fun _ => hsince.trans hheld.ge
  exact ⟨hlive, hg.1, hg.2, hg.3, hg.4, hg.5, hg.6, hg.7⟩

/-! ## The sync -/

theorem Live.turn_wantSync (hth : s.threads i = ⟨task, since, .wantSync⟩) :
    Moves s (s.turn i io) := by
  have hfact : Fact s ⟨task, since, .wantSync⟩ := hth ▸ h.fact i
  simp only [State.turn, hth]
  split_ifs with hhook
  · split
    · next hlock => exact h.taking hth hlock rfl rfl hfact
    · exact h.stays
  · refine h.goto hth (.stays rfl ?_) (.inr ⟨rfl, rfl, rfl⟩) ?_ (h.flagged.goto (by rw [hth]; rfl))
    · rw [State.goto_self, hth]
      rfl
    · exact fun _ _ hhooked => absurd hhooked hhook

theorem Live.turn_swap (hth : s.threads i = ⟨task, since, .swap⟩) : Moves s (s.turn i io) := by
  have hfact : Fact s ⟨task, since, .swap⟩ := hth ▸ h.fact i
  simp only [State.turn, hth]
  split_ifs with hun
  · exact h.holding hth rfl rfl hfact (flagged_syncing _ rfl)
  · refine h.leaving hth rfl rfl ?_ (h.flagged.goto (by rw [hth]; rfl))
    intro _ htask _
    have hle : since ≤ s.held := hfact htask
    -- No hook call is under way, since this thread holds `saved`.
    rcases h.flagged with h' | ⟨j, hj⟩ | h' | h'
    · exact absurd h' hun
    · have hjlock : s.lock = some j := by
        refine (h.lock j).mpr ?_
        cases hpc : (s.threads j).pc <;> simp_all [Pc.syncing, Pc.holds]
      have hilock : s.lock = some i := (h.lock i).mpr (by rw [hth]; rfl)
      obtain rfl : j = i := Option.some.inj (hjlock.symm.trans hilock)
      rw [hth] at hj
      cases hj
    · exact Or.inl (hle.trans h'.le)
    · exact Or.inr ⟨s.held, h', hle⟩

omit [DecidableEq ι] in
theorem Live.synced_held : Moves s { s with synced := some s.held } := by
  have hset := h.settled
  refine h.beside ⟨hset.inv, hset.named, hset.current, hset.past, hset.dirty, hset.content,
    hset.committed, hset.opened_le, hset.saved_le, hset.held_le, ?_⟩ ⟨rfl, rfl, le_rfl, le_rfl,
    fun w hw => ⟨s.held, rfl, hset.synced_le w hw⟩, List.Subset.refl _, List.Subset.refl _⟩
    ⟨rfl, rfl, rfl⟩ rfl rfl (Or.inr (Or.inr (Or.inr rfl)))
  rintro w hw
  exact (Option.some.inj hw).ge

theorem Live.turn_hook (hth : s.threads i = ⟨task, since, .hook⟩) : Moves s (s.turn i io) := by
  have hfact : Fact s ⟨task, since, .hook⟩ := hth ▸ h.fact i
  simp only [State.turn, hth]
  split_ifs
  · obtain ⟨hlive, hg⟩ := h.synced_held
    refine ⟨(hlive.leaving hth rfl rfl ?_ (Or.inr (Or.inr (Or.inr rfl)))).1, rfl, rfl, le_rfl,
      le_rfl, hg.synced, hg.commits, hg.past⟩
    exact fun _ htask _ => Or.inr ⟨s.held, rfl, hfact htask⟩
  · exact h.holding hth rfl rfl hfact (flagged_syncing _ rfl)

theorem Live.turn_unmark (hth : s.threads i = ⟨task, since, .unmark⟩) : Moves s (s.turn i io) := by
  simp only [State.turn, hth]
  exact h.leaving hth rfl rfl nofun (Or.inl rfl)

theorem Live.turn (i : ι) (io : Io) : Moves s (s.turn i io) := by
  rcases hth : s.threads i with ⟨task, since, pc⟩
  cases pc with
  | idle | returned ok =>
    simp only [State.turn, hth]
    exact h.stays
  | wantSave => exact h.turn_wantSave hth
  | read => exact h.turn_read hth
  | mark o => exact h.turn_mark hth
  | openTmp o => exact h.turn_openTmp hth
  | write o off => exact h.turn_write hth
  | close o res => exact h.turn_close hth
  | rename o => exact h.turn_rename hth
  | record o => exact h.turn_record hth
  | wantSync => exact h.turn_wantSync hth
  | swap => exact h.turn_swap hth
  | hook => exact h.turn_hook hth
  | unmark => exact h.turn_unmark hth

/-! ## Every event -/

theorem Live.ask (i : ι) (t : Task) : Moves s (s.ask i t) := by
  by_cases hfree : (s.threads i).pc = .idle ∨ ∃ ok, (s.threads i).pc = .returned ok
  · set th : Thread := ⟨t, s.overlay.version, if t = .sync then .wantSync else .wantSave⟩ with hnew
    have hask : s.ask i t = { s with threads := update s.threads i th } := by
      rcases hfree with hpc | ⟨ok, hpc⟩ <;> simp only [State.ask, hpc, ← hnew]
    have hquiet : (s.threads i).pc.holds = false ∧ (s.threads i).pc.syncing = false := by
      rcases hfree with hpc | ⟨ok, hpc⟩ <;> rw [hpc] <;> exact ⟨rfl, rfl⟩
    have hk : Keeps s { s with threads := update s.threads i th } :=
      ⟨rfl, rfl, rfl, rfl, rfl, rfl, rfl, rfl⟩
    have hset := hk.settled h.settled h.settled.opened_le h.settled.saved_le
    have hself : update s.threads i th i = th := update_self ..
    rw [hask]
    refine ⟨h.moved hset hk.grows (fun j hj => update_of_ne hj ..) ?_ (.stays rfl ?_)
      (fun _ => ⟨rfl, rfl, rfl⟩) ?_ ?_, hk.grows⟩
    · exact (congrArg Thread.since hself).le
    · change (update s.threads i th i).pc.holds = _
      rw [hself, hquiet.1, hnew]
      dsimp only
      split_ifs <;> rfl
    · change Fact _ (update s.threads i th i)
      rw [hself, hnew]
      split_ifs with ht
      · intro htask
        rw [ht] at htask
        cases htask
      · trivial
    · rcases h.flagged with h' | ⟨j, hj⟩ | h'
      · exact Or.inl h'
      · refine Or.inr (Or.inl ⟨j, ?_⟩)
        have hji : j ≠ i := by
          rintro rfl
          rw [hquiet.2] at hj
          cases hj
        rw [← hj]
        exact congrArg (fun th : Thread => th.pc.syncing) (update_of_ne hji ..)
      · exact Or.inr (Or.inr h')
  · have hask : s.ask i t = s := by
      unfold State.ask
      split
      · next hpc => exact absurd (Or.inl hpc) hfree
      · next hpc => exact absurd (Or.inr ⟨_, hpc⟩) hfree
      · rfl
    rw [hask]
    exact h.stays

omit [DecidableEq ι] in
theorem Live.mutate (c : Overlay.Call) (hfits : Fits s (.mutate c)) : Moves s (s.mutate c) := by
  cases hcall : s.overlay.call c.op with
  | error err =>
    simp only [State.mutate, hcall]
    exact h.stays
  | ok r =>
    obtain ⟨v, o⟩ := r
    have hstep : s.overlay.step c.op = o := by rw [Overlay.step, hcall]
    have hsave : o.Saveable := hfits (v, o) (by rw [hcall]; rfl)
    have hversion : o.version = s.overlay.version + 1 :=
      (h.settled.inv.advances_of_ok hcall).1
    have hg : Grows s { s with overlay := o, commits := o :: s.commits, past := o :: s.past } :=
      ⟨rfl, rfl, by simp [hversion], le_rfl, fun w hw => ⟨w, hw, le_rfl⟩,
        subset_cons_self _ _, subset_cons_self _ _⟩
    simp only [State.mutate, hcall]
    refine h.beside ⟨?_, ?_, mem_cons_self, ?_, Or.inr ⟨mem_cons_self, hsave⟩, ?_, ?_,
      h.settled.opened_le, h.settled.saved_le, h.settled.held_le.trans hg.version,
      h.settled.synced_le⟩ hg ⟨rfl, rfl, rfl⟩ rfl rfl h.flagged
    · exact hstep ▸ h.settled.inv.step c.op
    · exact hstep ▸ h.settled.named.step h.settled.inv c
    · intro o₁ ho₁
      rcases mem_cons.mp ho₁ with rfl | ho₁
      · exact ⟨le_rfl, fun _ => rfl⟩
      · have hle := (h.settled.past o₁ ho₁).1
        change o₁.version ≤ o.version ∧ (o₁.version = o.version → o₁ = o)
        exact ⟨by omega, fun heq => by omega⟩
    · obtain ⟨o₁, ho₁, hheld⟩ := h.settled.content
      exact ⟨o₁, mem_cons_of_mem _ ho₁, hheld⟩
    · obtain ⟨o₁, ho₁, hheld⟩ := h.settled.committed
      exact ⟨o₁, mem_cons_of_mem _ ho₁, hheld⟩

omit h

omit [DecidableEq ι] in
theorem Committed.live_openedWith (h : Committed s) (hooked : Bool) {o : Overlay}
    (hload : load s.file = .ok o) : Live (s.openedWith hooked o) := by
  obtain ⟨c, hc, hinv, hnamed, o', hload', hsame⟩ := h
  obtain rfl : o = o' := Except.ok.inj (hload.symm.trans hload')
  refine ⟨⟨hsame.inv hinv, hsame.named hnamed, mem_singleton_self o, ?_, Or.inl rfl, ?_, ?_,
    le_rfl, le_rfl, le_rfl, nofun⟩, fun _ => ⟨nofun, nofun⟩, fun _ => Nat.zero_le _,
    fun _ => trivial, Or.inr (Or.inr (Or.inl rfl))⟩
  · intro o₁ ho₁
    obtain rfl := mem_singleton.mp ho₁
    exact ⟨le_rfl, fun _ => rfl⟩
  · exact ⟨o, mem_singleton_self o, rfl, o, hload, hsame.self⟩
  · exact ⟨c, hc, hinv, hnamed, o, hload, hsame⟩

structure Safe (s : State ι) : Prop where
  committed : Committed s
  live : s.up = true → Live s

omit [DecidableEq ι] in
theorem Safe.restart (h : Safe s) (hooked readOk : Bool) (aside : Io) :
    Safe (s.restart hooked readOk aside) := by
  obtain ⟨c, hc, hinv, hnamed, o, hload, hsame⟩ := h.committed
  cases readOk with
  | false => exact ⟨h.committed, nofun⟩
  | true =>
    have hopen : s.restart hooked true aside = s.openedWith hooked o := by
      simp only [State.restart, if_true, hload]
    rw [hopen]
    exact ⟨h.committed, fun _ => h.committed.live_openedWith hooked hload⟩

theorem Safe.step (h : Safe s) (e : Event ι) (hfits : Fits s e) :
    Safe (s.step e) ∧ (e.isRestart = false → s.held ≤ (s.step e).held) := by
  have hdown : s.up ≠ true → Safe s ∧ (e.isRestart = false → s.held ≤ s.held) :=
    fun _ => ⟨h, fun _ => le_rfl⟩
  have hup : ∀ {s' : State ι}, Moves s s' →
      Safe s' ∧ (e.isRestart = false → s.held ≤ s'.held) :=
    fun hmove => ⟨⟨hmove.1.settled.committed, fun _ => hmove.1⟩, fun _ => hmove.2.held⟩
  cases e with
  | mutate c =>
    unfold State.step
    split_ifs with hs
    · exact hup ((h.live hs).mutate c hfits)
    · exact hdown hs
  | ask i t =>
    unfold State.step
    split_ifs with hs
    · exact hup ((h.live hs).ask i t)
    · exact hdown hs
  | turn i io =>
    unfold State.step
    split_ifs with hs
    · exact hup ((h.live hs).turn i io)
    · exact hdown hs
  | restart hooked readOk aside => exact ⟨h.restart hooked readOk aside, nofun⟩

omit [DecidableEq ι] in
theorem safe_empty : Safe (State.empty : State ι) := by
  refine ⟨⟨Overlay.new, mem_singleton_self _, Overlay.inv_new, Overlay.named_new,
    Overlay.new, rfl, ?_⟩, nofun⟩
  refine ⟨?_, ?_, ?_⟩ <;> simp [Overlay.new]

theorem safe_run {es : List (Event ι)}
    (hes : Transition.AllSteps State.step Fits State.empty es) :
    Safe (Transition.run State.step (State.empty : State ι) es) :=
  run_invariant_of_allSteps (fun _ e h hfits => (h.step e hfits).1) safe_empty hes

theorem Safe.held_run (h : Safe s) {es : List (Event ι)}
    (hes : Transition.AllSteps State.step Fits s es) (hsession : ∀ e ∈ es, e.isRestart = false) :
    s.held ≤ (Transition.run State.step s es).held := by
  induction es generalizing s with
  | nil => exact le_rfl
  | cons e es ih =>
    obtain ⟨hsafe, hheld⟩ := h.step e hes.1
    exact (hheld (hsession e mem_cons_self)).trans
      (ih hsafe hes.2 fun e' he' => hsession e' (mem_cons_of_mem _ he'))

/-- In every run whose mutations leave what can be read back: the file holds something that was
committed, and of this session no less than it held before; a saved version is the one the file
holds; and a durable save of a host with a hook returns `Ok` only when a sync has covered what
the session had committed before the call. -/
theorem file_holds_run {es fs : List (Event ι)}
    (hrun : Transition.AllSteps State.step Fits (State.empty : State ι) (es ++ fs))
    (hsession : ∀ e ∈ fs, e.isRestart = false) :
    let s := run State.step (State.empty : State ι) es
    (∃ o ∈ s.commits, Holds s.file o) ∧
      (s.up = true → ∃ o ∈ s.past, o.version = s.held ∧ Holds s.file o) ∧
      s.held ≤ (run State.step s fs).held ∧
      (s.up = true → s.saved = s.overlay.version →
        s.held = s.overlay.version ∧ Holds s.file s.overlay) ∧
      (s.up = true → s.hooked = true → ∀ i, (s.threads i).task = .durable →
        (s.threads i).pc = .returned true → Covered s (s.threads i).since) := by
  intro s
  obtain ⟨hes, hfs⟩ := allSteps_append.mp hrun
  have hsafe : Safe s := safe_run hes
  refine ⟨?_, fun hup => (hsafe.live hup).settled.content, hsafe.held_run hfs hsession, ?_, ?_⟩
  · obtain ⟨o, ho, -, -, hholds⟩ := hsafe.committed
    exact ⟨o, ho, hholds⟩
  · intro hup hsaved
    have hset := (hsafe.live hup).settled
    have hheld : s.held = s.overlay.version := le_antisymm hset.held_le (hsaved ▸ hset.saved_le)
    obtain ⟨o, ho, hversion, hholds⟩ := hset.content
    obtain rfl : o = s.overlay := (hset.past o ho).2 (hversion.trans hheld)
    exact ⟨hheld, hholds⟩
  · intro hup hhook i htask hpc
    have hfact := (hsafe.live hup).fact i
    rw [Fact, hpc] at hfact
    exact hfact rfl htask hhook

end

end

end Runs

def Io.good : Io := ⟨true, true, 1000⟩

def savedBy (hooked : Bool) (t : Task) : List (Event Unit) :=
  .restart hooked true Io.good ::
    .mutate ⟨['\\', 'R', 'e', 'g', 'i', 's', 't', 'r', 'y', '\\', 'S'],
      .createKey false false, 0⟩ ::
    .ask () t :: List.replicate 12 (.turn () Io.good)

def reopened : List (Event Unit) :=
  savedBy true .save ++ .restart true true Io.good :: .ask () .durable ::
    List.replicate 4 (.turn () Io.good)

def Pc.isReturned : Pc → Bool
  | .returned ok => ok
  | _ => false

theorem Pc.eq_of_isReturned {pc : Pc} (h : pc.isReturned = true) : pc = .returned true := by
  cases pc <;> simp_all [Pc.isReturned]

/-- The state a run ends in, with the case folding of the examples. -/
def stateAfter (es : List (Event Unit)) : State Unit :=
  Transition.run (@State.step Unit asciiLowercase _) State.empty es

theorem covered_savedBy_durable :
    Covered (stateAfter (savedBy true .durable))
        ((stateAfter (savedBy true .durable)).threads ()).since ∧
      ((stateAfter (savedBy true .durable)).threads ()).since = 1 ∧
      (stateAfter (savedBy true .durable)).opened = 0 := by
  have hrun : Transition.AllSteps (@State.step Unit asciiLowercase _) (@Fits Unit asciiLowercase)
      State.empty (savedBy true .durable ++ []) := by
    decide +kernel
  have hall := @file_holds_run Unit asciiLowercase _ (savedBy true .durable) [] hrun (by simp)
  refine ⟨?_, by decide +kernel, by decide +kernel⟩
  refine hall.2.2.2.2 (by decide +kernel) (by decide +kernel) () (by decide +kernel) ?_
  exact Pc.eq_of_isReturned (by decide +kernel)

/-- A durable save returns `Ok` and nothing was synced: without a hook; and with one, when the
version was saved by an earlier process that had not synced yet. -/
theorem returned_without_sync :
    (Transition.AllSteps (@State.step Unit asciiLowercase _) (@Fits Unit asciiLowercase)
        State.empty (savedBy false .durable) ∧
      ((stateAfter (savedBy false .durable)).threads ()).task = .durable ∧
      ((stateAfter (savedBy false .durable)).threads ()).pc = .returned true ∧
      ¬ Covered (stateAfter (savedBy false .durable))
        ((stateAfter (savedBy false .durable)).threads ()).since) ∧
    (Transition.AllSteps (@State.step Unit asciiLowercase _) (@Fits Unit asciiLowercase)
        State.empty reopened ∧
      (stateAfter (savedBy true .save)).commits.length = 2 ∧
      (stateAfter (savedBy true .save)).synced = none ∧
      ((stateAfter reopened).threads ()).task = .durable ∧
      ((stateAfter reopened).threads ()).pc = .returned true ∧
      (stateAfter reopened).hooked = true ∧ (stateAfter reopened).synced = none) := by
  refine ⟨⟨by decide +kernel, by decide +kernel, Pc.eq_of_isReturned (by decide +kernel), ?_⟩,
    by decide +kernel, by decide +kernel, by decide +kernel, by decide +kernel,
    Pc.eq_of_isReturned (by decide +kernel), by decide +kernel, by decide +kernel⟩
  have hsynced : (stateAfter (savedBy false .durable)).synced = none := by decide +kernel
  have hlt : (stateAfter (savedBy false .durable)).opened <
      ((stateAfter (savedBy false .durable)).threads ()).since := by
    decide +kernel
  rintro (hle | ⟨w, hw, -⟩)
  · omega
  · rw [hsynced] at hw
    cases hw

end AetherVfs.Registry.Saves
