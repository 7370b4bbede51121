import AetherVfs.Lib.Custody
import AetherVfs.ReadCache.Cache

/-!
# Who has which lock of the read cache

Every file is changed under its lock only, and the file table under its own.
`Cache.step_locks` says once what a step does to the locks; from it, no lock
ever has two holders, and a file that one thread has locked is left alone by
every other.
-/

namespace AetherVfs.ReadCache

open List Function Transition

inductive Lock where
  | table
  | file (e : Entry)
deriving DecidableEq

/-- The locks of a thread that clears a file's slots. -/
def Why.held (e : Entry) : Why → List Lock
  | .poison (.path _ _ _) => [.table, .file e]
  | _ => [.file e]

/-- The locks a thread has between two of its steps. -/
def Pc.held : Pc → List Lock
  | .pathFiles _ _ _ => [.table]
  | .clear e why | .clearGive e why _ => why.held e
  | .unitStale r _ => [.file r.entry]
  | .missRoom m | .missGive m _ => [.file m.read.entry]
  | .loadSlot l _ _ _ _ | .loadLru l _ _ _ _ _ | .loadGive l _ _ _ => [.file l.read.entry]
  | _ => []

theorem Why.held_nodup (e : Entry) (why : Why) : (why.held e).Nodup := by
  unfold Why.held
  split <;> simp

theorem Why.file_mem_held (e : Entry) (why : Why) : .file e ∈ why.held e := by
  unfold Why.held
  split <;> simp

@[simp] theorem Miss.begin_read (cfg : CacheConfig) (st : State) (r : Read) :
    (Miss.begin cfg st r).2.read = r := rfl

theorem Why.eq_of_file_mem_held {e d : Entry} {why : Why} (h : .file d ∈ why.held e) : d = e := by
  unfold Why.held at h
  split at h <;> simpa using h

theorem Pc.held_nodup (pc : Pc) : pc.held.Nodup := by
  cases pc <;> simp [Pc.held, Why.held_nodup]

theorem Read.held_next (cfg : CacheConfig) (r : Read) (data : List UInt8) (got : Got) :
    (r.next cfg data got).held = [] := by
  unfold Read.next
  dsimp only
  split_ifs <;> rfl

theorem Read.arcs_next (cfg : CacheConfig) (r : Read) (data : List UInt8) (got : Got) :
    (r.next cfg data got).arcs ⊆ [r.entry] := by
  unfold Read.next
  dsimp only
  split_ifs <;> exact List.Subset.refl _

/-- The two steps that change the file table. -/
def Pc.onTable : Pc → Bool
  | .registerTable _ | .pathTable _ _ => true
  | _ => false

def Cache.isLocked (c : Cache) : Lock → Bool
  | .table => c.tableLocked
  | .file e => c.locked e

/-- The lock belongs to the table or to an entry made so far. -/
def Lock.Made (c : Cache) : Lock → Prop
  | .table => True
  | .file e => e.serial < c.nextEntry

/-- What a step does to the locks: a lock it leaves held was its own or was free, the locks
of the others stay, and so do the files behind them. -/
structure LockSpec (c : Cache) (pc : Pc) (c' : Cache) (pc' : Pc) : Prop where
  nodup : pc'.held.Nodup
  taken : ∀ l ∈ pc'.held, l ∈ pc.held ∨ c.isLocked l = false
  kept : ∀ l ∈ pc'.held, c'.isLocked l = true
  others : ∀ l, l.Made c → l ∉ pc.held → c.isLocked l = true → c'.isLocked l = true
  frame : ∀ e, e.serial < c.nextEntry → .file e ∉ pc.held → c.locked e = true →
    c'.state e = c.state e

namespace Cache

attribute [simp] registered finished answered

variable (cfg : CacheConfig) (content : Name → Version → ℕ → UInt8) (env : Env)
  (inUse : Entry → Bool) {c : Cache}

/-- Two caches that differ, as to files and locks, at one file only. -/
@[mk_iff]
structure SameBut (e : Entry) (c c' : Cache) : Prop where
  state : ∀ d, d ≠ e → c'.state d = c.state d
  locked : ∀ d, d ≠ e → c'.locked d = c.locked d
  tableLocked : c'.tableLocked = c.tableLocked

variable {pc pc' : Pc}

/-- A step on a file that is free, or the thread's own. -/
theorem lockSpec_at (e : Entry) {c c' : Cache} (hown : c.locked e = false ∨ .file e ∈ pc.held)
    (hheld : ∀ l ∈ pc.held, c.isLocked l = true)
    (hfile : ∀ d, .file d ∈ pc'.held → d = e ∧ c'.locked e = true)
    (htable : .table ∈ pc'.held → .table ∈ pc.held) (h : SameBut e c c') :
    LockSpec c pc c' pc' where
  nodup := pc'.held_nodup
  taken := by
    rintro (_ | d) hl
    · exact .inl (htable hl)
    · obtain ⟨rfl, _⟩ := hfile d hl
      exact hown.symm
  kept := by
    rintro (_ | d) hl
    · exact h.tableLocked.trans (hheld _ (htable hl))
    · obtain ⟨rfl, hlocked⟩ := hfile d hl
      exact hlocked
  others := by
    rintro (_ | d) _ hl hlocked
    · exact h.tableLocked.trans hlocked
    · have hde : d ≠ e := by
        rintro rfl
        rcases hown with hfree | hmine
        · simp [isLocked, hfree] at hlocked
        · exact hl hmine
      exact (h.locked d hde).trans hlocked
  frame := by
    intro d _ hd hlocked
    apply h.state
    rintro rfl
    rcases hown with hfree | hmine
    · simp [hfree] at hlocked
    · exact hd hmine

theorem isLocked_eq {c c' : Cache} (hlocked : c'.locked = c.locked)
    (htable : c'.tableLocked = c.tableLocked) : c'.isLocked = c.isLocked := by
  funext l
  cases l
  · exact htable
  · exact congrFun hlocked _

theorem lockSpec_of_eq {c c' : Cache} (hheld : ∀ l ∈ pc.held, c.isLocked l = true)
    (hpc : pc'.held = pc.held) (hstate : c'.state = c.state) (hlocked : c'.locked = c.locked)
    (htable : c'.tableLocked = c.tableLocked) : LockSpec c pc c' pc' where
  nodup := pc'.held_nodup
  taken := fun _ hl => .inl (hpc ▸ hl)
  kept := fun l hl => isLocked_eq hlocked htable ▸ hheld l (hpc ▸ hl)
  others := fun _ _ _ hl => isLocked_eq hlocked htable ▸ hl
  frame := fun _ _ _ _ => hstate ▸ rfl

section Steps

attribute [local simp] Pc.held Why.held poison startLoad sameBut_iff

/-- What is left after the last slot: the file is unlocked, and a poisoner of a path goes on
with the file table still its own. -/
theorem cleared_locks (e : Entry) (why : Why) (hheld : ∀ l ∈ why.held e, c.isLocked l = true) :
    LockSpec c (.clear e why) (c.cleared e why).1 (c.cleared e why).2 := by
  have hown : .file e ∈ (Pc.clear e why).held := why.file_mem_held e
  unfold cleared
  rcases why with (_ | _ | ⟨root, path, rest⟩) | v | l | r <;> apply lockSpec_at e (.inr hown) hheld <;> simp +contextual [*]

theorem clear_locks (e : Entry) (why : Why) (hheld : ∀ l ∈ why.held e, c.isLocked l = true) :
    LockSpec c (.clear e why) (c.clear e why).1 (c.clear e why).2 := by
  have hown : .file e ∈ (Pc.clear e why).held := why.file_mem_held e
  have hfile : ∀ d, .file d ∈ why.held e → d = e ∧ c.locked e = true := fun d hd =>
    ⟨Why.eq_of_file_mem_held hd, hheld _ hown⟩
  unfold clear
  split
  · exact cleared_locks e why hheld
  · exact lockSpec_at e (.inr hown) hheld hfile id (by simp +contextual)
  · exact lockSpec_at e (.inr hown) hheld hfile id (by simp +contextual)

theorem registerTable_locks (a : Registration) :
    LockSpec c (.registerTable a) (c.registerTable env inUse a).1
      (c.registerTable env inUse a).2 := by
  have hlt : ∀ d : Entry, d.serial < c.nextEntry → d ≠ ⟨c.nextEntry, a.name⟩ := by
    rintro d hd rfl
    exact lt_irrefl _ hd
  unfold registerTable
  split
  · exact lockSpec_of_eq (by simp [Pc.held]) rfl rfl rfl rfl
  · dsimp only
    generalize hswept : (if c.sweepAt ≤ c.table.length then
      c.sweep fun e => inUse e || env.keep e else c) = c₁
    have hsame : c₁.state = c.state ∧ c₁.locked = c.locked ∧ c₁.tableLocked = c.tableLocked ∧
        c₁.nextEntry = c.nextEntry := by
      rw [← hswept]
      split_ifs <;> simp
    obtain ⟨hstate, hlocked, htable, hnext⟩ := hsame
    split
    · exact lockSpec_of_eq (by simp [Pc.held]) rfl hstate hlocked htable
    · refine ⟨nodup_nil, by simp [Pc.held], by simp [Pc.held], ?_, ?_⟩
      · rintro (_ | d) hmade _ hl
        · simpa [isLocked, htable] using hl
        · simpa [isLocked, hlocked, hnext, hlt d hmade] using hl
      · intro d hd _ _
        simp [hstate, hnext, hlt d hd]

theorem pathTable_locks (root : ℕ) (path : List Char) :
    LockSpec c (.pathTable root path) (c.pathTable root path).1 (c.pathTable root path).2 := by
  have hlt : ∀ d : Entry, d.serial < c.nextEntry → d ≠ ⟨c.nextEntry, ⟨root, path⟩⟩ := by
    rintro d hd rfl
    exact lt_irrefl _ hd
  unfold pathTable
  split
  · exact lockSpec_of_eq (by simp [Pc.held]) rfl rfl rfl rfl
  · next hfree =>
    rw [Bool.not_eq_true] at hfree
    dsimp only
    split_ifs <;> refine ⟨by simp [Pc.held], by simp [Pc.held, isLocked, hfree],
      by simp [Pc.held, isLocked], ?_, ?_⟩
    · rintro (_ | d) _ _ hl
      · rfl
      · exact hl
    · exact fun _ _ _ _ => rfl
    · rintro (_ | d) hmade _ hl
      · rfl
      · simpa [isLocked, hlt d hmade] using hl
    · intro d hd _ _
      simp [hlt d hd]

theorem pathFiles_locks (root : ℕ) (path : List Char) (hit : List Entry)
    (hheld : c.tableLocked = true) :
    LockSpec c (.pathFiles root path hit) (c.pathFiles root path hit).1
      (c.pathFiles root path hit).2 := by
  have hheld' : ∀ l ∈ (Pc.pathFiles root path hit).held, c.isLocked l = true := by
    simpa [Pc.held, isLocked] using hheld
  unfold pathFiles
  split
  · refine ⟨nodup_nil, by simp [Pc.held], by simp [Pc.held], ?_, fun _ _ _ _ => rfl⟩
    rintro (_ | d) _ hl hlocked
    · exact absurd mem_cons_self hl
    · exact hlocked
  · next e rest =>
    split_ifs
    · exact lockSpec_of_eq hheld' rfl rfl rfl rfl
    · apply lockSpec_at e (.inl (by simp_all)) hheld' <;> simp +contextual [*]

theorem missRoom_locks (m : Miss) (hheld : c.locked m.read.entry = true) :
    LockSpec c (.missRoom m) (c.missRoom cfg m).1 (c.missRoom cfg m).2 := by
  have hheld' : ∀ l ∈ (Pc.missRoom m).held, c.isLocked l = true := by
    simpa [Pc.held, isLocked] using hheld
  have hown : .file m.read.entry ∈ (Pc.missRoom m).held := mem_cons_self
  simp only [missRoom]
  split_ifs
  case pos => apply lockSpec_at m.read.entry (.inr hown) hheld' <;> simp +contextual [*]
  all_goals split <;> apply lockSpec_at m.read.entry (.inr hown) hheld' <;> simp +contextual [*]

theorem unit_locks (r : Read) :
    LockSpec c (.unit r) (c.unit cfg env r).1 (c.unit cfg env r).2 := by
  have hheld : ∀ l ∈ (Pc.unit r).held, c.isLocked l = true := by simp [Pc.held]
  unfold unit
  by_cases hfree : c.locked r.entry = true
  · rw [if_pos hfree]
    exact lockSpec_of_eq hheld rfl rfl rfl rfl
  · rw [if_neg hfree]
    rw [Bool.not_eq_true] at hfree
    split
    · exact lockSpec_of_eq hheld rfl rfl rfl rfl
    · split
      · apply lockSpec_at r.entry (.inl hfree) hheld <;> simp +contextual [Read.held_next, -Pc.held]
      · split_ifs
        · apply lockSpec_at r.entry (.inl hfree) hheld <;> simp +contextual [*]
        · exact lockSpec_of_eq hheld rfl rfl rfl rfl
      · apply lockSpec_at r.entry (.inl hfree) hheld <;> simp +contextual [*]

theorem judge_locks (r : Read) :
    LockSpec c (.judge r) (c.judge cfg r).1 (c.judge cfg r).2 := by
  have hheld : ∀ l ∈ (Pc.judge r).held, c.isLocked l = true := by simp [Pc.held]
  unfold judge
  by_cases hfree : c.locked r.entry = true
  · rw [if_pos hfree]
    exact lockSpec_of_eq hheld rfl rfl rfl rfl
  · rw [if_neg hfree]
    rw [Bool.not_eq_true] at hfree
    split
    case h_5 =>
      dsimp only
      split_ifs <;> apply lockSpec_at r.entry (.inl hfree) hheld <;> simp +contextual [*]
    all_goals apply lockSpec_at r.entry (.inl hfree) hheld <;> simp +contextual [*]

theorem evictFile_locks (l : Load) (key : ℕ) (e : Entry) (idx : ℕ) :
    LockSpec c (.evictFile l key e idx) (c.evictFile l key e idx).1
      (c.evictFile l key e idx).2 := by
  have hheld : ∀ k ∈ (Pc.evictFile l key e idx).held, c.isLocked k = true := by simp [Pc.held]
  unfold evictFile
  split
  · exact lockSpec_of_eq hheld rfl rfl rfl rfl
  · split
    · exact lockSpec_of_eq hheld rfl rfl rfl rfl
    · next hfree =>
      rw [Bool.not_eq_true] at hfree
      split
      · split_ifs <;> apply lockSpec_at e (.inl hfree) hheld <;> simp +contextual [*]
      · exact lockSpec_of_eq hheld rfl rfl rfl rfl

theorem step_locks (pc : Pc) (hheld : ∀ l ∈ pc.held, c.isLocked l = true) :
    LockSpec c pc (c.step cfg content env inUse pc).1 (c.step cfg content env inUse pc).2 := by
  cases pc with
  | registerTable a => exact registerTable_locks env inUse a
  | pathTable root path => exact pathTable_locks root path
  | pathFiles root path hit => exact pathFiles_locks root path hit (hheld .table (by simp [Pc.held]))
  | clear e why => exact clear_locks e why hheld
  | missRoom m => exact missRoom_locks cfg m (hheld (.file m.read.entry) (by simp [Pc.held]))
  | unit r => exact unit_locks cfg env r
  | evictFile l key e idx => exact evictFile_locks l key e idx
  | judge r => exact judge_locks cfg r
  | registerFile e | invalidate e =>
    simp only [step, registerFile, invalidate]
    split_ifs
    case pos => exact lockSpec_of_eq hheld rfl rfl rfl rfl
    all_goals apply lockSpec_at e (.inl (by simp_all)) hheld <;> simp +contextual [*]
  | read r | waitDrop r =>
    simp only [step, read, waitDrop]
    split_ifs
    case pos => exact lockSpec_of_eq hheld rfl rfl rfl rfl
    all_goals apply lockSpec_at r.entry (.inl (by simp_all)) hheld <;> simp +contextual [*]
  | loadSlot l run j installed first =>
    have hown : .file l.read.entry ∈ (Pc.loadSlot l run j installed first).held :=
      mem_cons_self
    have hlocked : c.locked l.read.entry = true := hheld _ hown
    simp only [step, loadSlot]
    split_ifs
    case pos => exact lockSpec_of_eq hheld rfl rfl rfl rfl
    split
    · exact lockSpec_of_eq hheld rfl rfl rfl rfl
    · apply lockSpec_at l.read.entry (.inr hown) hheld <;> simp +contextual [*]
  | loadGive l run installed first =>
    have hown : .file l.read.entry ∈ (Pc.loadGive l run installed first).held :=
      mem_cons_self
    simp only [step, loadGive]
    cases first <;> apply lockSpec_at l.read.entry (.inr hown) hheld <;> simp +contextual [*]
  | loadFile l =>
    simp only [step, loadFile]
    split_ifs
    case pos | pos => exact lockSpec_of_eq hheld rfl rfl rfl rfl
    apply lockSpec_at l.read.entry (.inl (by simp_all)) hheld <;> simp +contextual [*]
  | guardDrop l | fetchFailed l =>
    simp only [step, guardDrop, fetchFailed]
    split_ifs
    case pos => exact lockSpec_of_eq hheld rfl rfl rfl rfl
    all_goals apply lockSpec_at l.read.entry (.inl (by simp_all)) hheld <;> simp +contextual [*]
  | unitStale r fl =>
    have hown : .file r.entry ∈ (Pc.unitStale r fl).held := mem_cons_self
    simp only [step, unitStale]
    apply lockSpec_at r.entry (.inr hown) hheld <;> simp +contextual [*]
  | wait r fl =>
    simp only [step, wait]
    split
    · exact lockSpec_of_eq hheld (Read.held_next _ _ _ _) rfl rfl rfl
    · exact lockSpec_of_eq hheld rfl rfl rfl rfl
    · split_ifs <;> exact lockSpec_of_eq hheld rfl rfl rfl rfl
  | fetch | reserve | reserveCas | evictPop =>
    simp only [step, fetch, reserve, reserveCas, evictPop]
    (repeat' split) <;> exact lockSpec_of_eq hheld rfl rfl rfl rfl
  | loadComplete l run data => exact lockSpec_of_eq hheld (Read.held_next _ _ _ _) rfl rfl rfl
  | _ => exact lockSpec_of_eq hheld rfl rfl rfl rfl

end Steps

/-! ## The file table and what keeps its entries -/

/-- What every step but the two on the file table does to it: nothing. The thread keeps no
entry alive that it did not keep before, and a handle it hands out is of such an entry. -/
structure TableKept (c : Cache) (pc : Pc) (c' : Cache) (pc' : Pc) : Prop where
  table : c'.table = c.table
  nextEntry : c'.nextEntry = c.nextEntry
  arcs : pc'.arcs ⊆ pc.arcs
  refs : ∀ f ∈ c'.refs, f ∈ c.refs ∨ f.entry ∈ pc.arcs

theorem tableKept_of_subset {c c' : Cache} (harcs : pc'.arcs ⊆ pc.arcs)
    (htable : c'.table = c.table) (hnext : c'.nextEntry = c.nextEntry)
    (hrefs : c'.refs = c.refs) : TableKept c pc c' pc' :=
  ⟨htable, hnext, harcs, fun _ hf => .inl (hrefs ▸ hf)⟩

theorem registered_tableKept {pc : Pc} {c' : Cache} {e : Entry} {v : Option Version}
    (he : e ∈ pc.arcs) (htable : c'.table = c.table) (hnext : c'.nextEntry = c.nextEntry)
    (hrefs : c'.refs = c.refs) :
    TableKept c pc (c'.registered e v).1 (c'.registered e v).2 := by
  refine ⟨htable, hnext, nil_subset _, ?_⟩
  intro f hf
  rcases mem_cons.mp hf with rfl | hf
  · exact .inr he
  · exact .inl (hrefs ▸ hf)

theorem clear_tableKept (e : Entry) (why : Why) :
    TableKept c (.clear e why) (c.clear e why).1 (c.clear e why).2 := by
  unfold clear
  split
  · unfold cleared
    rcases why with (_ | _ | ⟨root, path, rest⟩) | v | l | r
    · exact registered_tableKept mem_cons_self rfl rfl rfl
    · exact tableKept_of_subset (nil_subset _) rfl rfl rfl
    · exact tableKept_of_subset (subset_cons_self _ _) rfl rfl rfl
    · exact registered_tableKept mem_cons_self rfl rfl rfl
    · exact tableKept_of_subset (subset_cons_self _ _) rfl rfl rfl
    · exact tableKept_of_subset (nil_subset _) rfl rfl rfl
  · exact tableKept_of_subset (List.Subset.refl _) rfl rfl rfl
  · exact tableKept_of_subset (List.Subset.refl _) rfl rfl rfl

theorem step_tableKept (pc : Pc) (hpc : pc.onTable = false) :
    TableKept c pc (c.step cfg content env inUse pc).1 (c.step cfg content env inUse pc).2 := by
  cases pc with
  | registerTable | pathTable => cases hpc
  | clear e why => exact clear_tableKept e why
  | registerFile e a =>
    simp only [step, registerFile]
    split_ifs
    · exact tableKept_of_subset (List.Subset.refl _) rfl rfl rfl
    · exact tableKept_of_subset (List.Subset.refl _) rfl rfl rfl
    · exact registered_tableKept mem_cons_self rfl rfl rfl
    · exact tableKept_of_subset (List.Subset.refl _) rfl rfl rfl
    · exact registered_tableKept mem_cons_self rfl rfl rfl
  | loadComplete l run data => exact tableKept_of_subset (Read.arcs_next _ _ _ _) rfl rfl rfl
  | _ =>
    -- No access of the others is to the table; the thread goes on with its file or lets go of it.
    simp only [step, pathFiles, invalidate, read, unit, wait, waitDrop, judge, missRoom, reserve,
      reserveCas, evictPop, evictFile, fetch, fetchFailed, loadFile, loadSlot, loadGive, guardDrop]
    (repeat' split) <;> first
      | exact tableKept_of_subset (List.Subset.refl _) rfl rfl rfl
      | exact tableKept_of_subset (nil_subset _) rfl rfl rfl
      | exact tableKept_of_subset (Read.arcs_next _ _ _ _) rfl rfl rfl
      | exact tableKept_of_subset (by simp [Pc.arcs, Why.arcs]) rfl rfl rfl

/-- A step of `register` on the file table: it sweeps, or not, and then finds the entry of
the name or makes it. -/
theorem registerTable_cases (a : Registration) :
    (c.registerTable env inUse a = (c, .registerTable a)) ∨
      c.tableLocked = false ∧
      ∃ c₁, (c₁ = c ∨ c₁ = c.sweep fun e => inUse e || env.keep e) ∧
        ((∃ e ∈ c₁.table, e.name = a.name ∧
            c.registerTable env inUse a = (c₁, .registerFile e a)) ∨
          ((∀ e ∈ c₁.table, e.name ≠ a.name) ∧ c.registerTable env inUse a =
            (c₁.addEntry ⟨c.nextEntry, a.name⟩ {}, .registerFile ⟨c.nextEntry, a.name⟩ a))) := by
  unfold registerTable
  split
  · exact .inl rfl
  · next hfree =>
    refine .inr ⟨by simpa using hfree, ?_⟩
    dsimp only
    generalize hswept : (if c.sweepAt ≤ c.table.length then
      c.sweep fun e => inUse e || env.keep e else c) = c₁
    have hc₁ : c₁ = c ∨ c₁ = c.sweep fun e => inUse e || env.keep e := by
      rw [← hswept]
      split_ifs
      · exact .inr rfl
      · exact .inl rfl
    have hnext : c₁.nextEntry = c.nextEntry := by
      rcases hc₁ with rfl | rfl <;> rfl
    refine ⟨c₁, hc₁, ?_⟩
    split
    · next e he =>
      exact .inl ⟨e, mem_of_find?_eq_some he, by simpa using find?_some he, rfl⟩
    · next hnone => exact .inr ⟨by simpa using hnone, by rw [hnext]⟩

/-- A step of `invalidate_path` on the file table: it collects the entries it has to poison
and makes a poisoned one for the path itself if there is none. -/
theorem pathTable_cases (root : ℕ) (path : List Char) :
    c.pathTable root path = (c, .pathTable root path) ∨
      c.tableLocked = false ∧ ∃ c₁ hit, c.pathTable root path = (c₁, .pathFiles root path hit) ∧
        (hit = c.table.filter fun e =>
          e.name.root = root && (wholeRoot path || under path e.name.path)) ∧
        (c₁ = c.setTableLocked true ∧
            (wholeRoot path = true ∨ ∃ e ∈ c.table, e.name = ⟨root, path⟩) ∨
          (∀ e ∈ c.table, e.name ≠ ⟨root, path⟩) ∧
            c₁ = (c.setTableLocked true).addEntry ⟨c.nextEntry, ⟨root, path⟩⟩
              { poisoned := true }) := by
  unfold pathTable
  split
  · exact .inl rfl
  · next hfree =>
    refine .inr ⟨by simpa using hfree, ?_⟩
    dsimp only
    split_ifs with h
    · exact ⟨_, _, rfl, rfl, .inl ⟨rfl, by simpa using h⟩⟩
    · simp only [Bool.or_eq_true, any_eq_true, decide_eq_true_eq, not_or, not_exists,
        not_and] at h
      exact ⟨_, _, rfl, rfl, .inr ⟨h.2, rfl⟩⟩

/-- A thread that has a file locked does not wait. -/
theorem step_ne_of_file_mem_held {e : Entry} (he : .file e ∈ pc.held) :
    c.step cfg content env inUse pc ≠ (c, pc) := by
  intro heq
  have hpc := congrArg Prod.snd heq
  cases pc with
  | clear d why =>
    -- A slot that was loading leaves the thread where it is, with one slot less.
    have hslots := congrArg (fun x => (x.1.state d).slots) heq
    simp only [step, clear] at hpc hslots
    split at hpc
    · rcases why with (_ | _ | _) | _ | _ | _ <;> simp [cleared] at hpc
    · simp at hpc
    · simp_all
  | loadSlot | missRoom | loadGive =>
    simp only [step, loadSlot, missRoom, loadGive, startLoad] at hpc
    repeat' split at hpc
    all_goals simp at hpc
  | clearGive | unitStale | missGive | loadLru => simp [step, unitStale, loadLru] at hpc
  | _ => simp [Pc.held] at he

end Cache

theorem Pc.mem_arcs_of_held {pc : Pc} {e : Entry} (h : .file e ∈ pc.held) : e ∈ pc.arcs := by
  cases pc with
  | clear d why | clearGive d why _ =>
    rw [Why.eq_of_file_mem_held h]
    exact mem_cons_self
  | _ => simp_all [Pc.held, Pc.arcs]

/-- Locks have one holder each, and whatever a handle or a thread refers to is in the file
table. -/
structure Guarded {ι : Type*} (σ : System ι) : Prop where
  exclusive : Custody.Exclusive fun i => (σ.pc i).held
  locked : ∀ i, ∀ l ∈ (σ.pc i).held, σ.cache.isLocked l = true
  refs : ∀ f ∈ σ.cache.refs, f.entry ∈ σ.cache.table
  arcs : ∀ i, ∀ e ∈ (σ.pc i).arcs, e ∈ σ.cache.table
  serial_lt : ∀ e ∈ σ.cache.table, e.serial < σ.cache.nextEntry
  nodup : σ.cache.table.Nodup

namespace Guarded

variable {ι : Type*} {σ : System ι}

theorem made (h : Guarded σ) {i : ι} {l : Lock} (hl : l ∈ (σ.pc i).held) : l.Made σ.cache := by
  cases l with
  | table => trivial
  | file e => exact h.serial_lt e (h.arcs i e (Pc.mem_arcs_of_held hl))

theorem new : Guarded (System.new : System ι) where
  exclusive := Custody.exclusive_of_empty fun _ => rfl
  locked := by simp [System.new, Pc.held]
  refs := by simp [System.new]
  arcs := by simp [System.new, Pc.arcs]
  serial_lt := by simp [System.new]
  nodup := nodup_nil

/-- The half of the invariant that is about references, after the thread's own step. -/
structure Live (σ : System ι) (c' : Cache) (pc' : Pc) : Prop where
  refs : ∀ f ∈ c'.refs, f.entry ∈ c'.table
  arcs : ∀ i, ∀ e ∈ (σ.pc i).arcs, e ∈ c'.table
  own : ∀ e ∈ pc'.arcs, e ∈ c'.table
  serial_lt : ∀ e ∈ c'.table, e.serial < c'.nextEntry
  nodup : c'.table.Nodup

theorem live_of_tableKept (h : Guarded σ) {i : ι} {c' : Cache} {pc' : Pc}
    (hkept : Cache.TableKept σ.cache (σ.pc i) c' pc') : Live σ c' pc' where
  refs := by
    intro f hf
    rw [hkept.table]
    rcases hkept.refs f hf with hf | hf
    · exact h.refs f hf
    · exact h.arcs i _ hf
  arcs := fun j e he => hkept.table ▸ h.arcs j e he
  own := fun e he => hkept.table ▸ h.arcs i e (hkept.arcs he)
  serial_lt := by
    rw [hkept.table, hkept.nextEntry]
    exact h.serial_lt
  nodup := hkept.table ▸ h.nodup

variable [Fintype ι] (cfg : CacheConfig) (content : Name → Version → ℕ → UInt8) (env : Env)
  {e : Entry}

theorem frame (h : Guarded σ) {i j : ι} (hij : j ≠ i) (he : .file e ∈ (σ.pc j).held) :
    (Cache.step cfg content env σ.inUse σ.cache (σ.pc i)).1.state e = σ.cache.state e := by
  have hnot : .file e ∉ (σ.pc i).held := fun hi =>
    hij (h.exclusive.holder_unique j i _ he hi)
  exact (Cache.step_locks cfg content env σ.inUse (σ.pc i) (h.locked i)).frame e (h.made he) hnot
    (h.locked j _ he)

theorem mem_sweep (he : e ∈ σ.cache.table) (huse : σ.inUse e = true) :
    e ∈ (σ.cache.sweep fun e => σ.inUse e || env.keep e).table := by
  simp [he, huse]

theorem inUse_of_ref {f : FileRef} (hf : f ∈ σ.cache.refs) : σ.inUse f.entry = true := by
  simp only [System.inUse, Bool.or_eq_true, any_eq_true, decide_eq_true_eq]
  exact .inl ⟨f, hf, rfl⟩

theorem inUse_of_arc {i : ι} (he : e ∈ (σ.pc i).arcs) : σ.inUse e = true := by
  simp only [System.inUse, Bool.or_eq_true, any_eq_true, decide_eq_true_eq]
  exact .inr ⟨i, he⟩

section

variable (h : Guarded σ)

include h

theorem live_addEntry (c₁ : Cache) {st : State} {pc' : Pc}
    (hsub : c₁.table.Sublist σ.cache.table) (hnext : c₁.nextEntry = σ.cache.nextEntry)
    (hrefs : c₁.refs = σ.cache.refs) (huse : ∀ d ∈ σ.cache.table, σ.inUse d = true → d ∈ c₁.table)
    (he : e.serial = σ.cache.nextEntry) (hpc : ∀ d ∈ pc'.arcs, d = e ∨ d ∈ c₁.table) :
    Live σ (c₁.addEntry e st) pc' where
  refs := by
    intro f hf
    have hf' : f ∈ σ.cache.refs := hrefs ▸ hf
    exact mem_cons_of_mem _ (huse _ (h.refs f hf') (inUse_of_ref hf'))
  arcs := fun j d hd => mem_cons_of_mem _ (huse d (h.arcs j d hd) (inUse_of_arc hd))
  own := fun d hd => mem_cons.mpr (hpc d hd)
  serial_lt := by
    intro d hd
    simp only [Cache.addEntry_nextEntry, hnext]
    rcases mem_cons.mp hd with rfl | hd
    · omega
    · have := h.serial_lt d (hsub.subset hd)
      omega
  nodup := by
    refine nodup_cons.mpr ⟨?_, hsub.nodup h.nodup⟩
    intro hd
    have := h.serial_lt e (hsub.subset hd)
    omega

theorem registerTable_live (a : Registration) :
    Live σ (σ.cache.registerTable env σ.inUse a).1 (σ.cache.registerTable env σ.inUse a).2 := by
  have hstay : Live σ σ.cache (.registerTable a) :=
    ⟨h.refs, h.arcs, by simp [Pc.arcs], h.serial_lt, h.nodup⟩
  rcases σ.cache.registerTable_cases env σ.inUse a with heq | ⟨-, c₁, hc₁, hout⟩
  · rw [heq]
    exact hstay
  · have hsub : c₁.table.Sublist σ.cache.table := by
      rcases hc₁ with rfl | rfl
      · exact List.Sublist.refl _
      · exact filter_sublist
    have hnext : c₁.nextEntry = σ.cache.nextEntry := by rcases hc₁ with rfl | rfl <;> rfl
    have hrefs : c₁.refs = σ.cache.refs := by rcases hc₁ with rfl | rfl <;> rfl
    have huse : ∀ d ∈ σ.cache.table, σ.inUse d = true → d ∈ c₁.table := by
      rcases hc₁ with rfl | rfl
      · exact fun d hd _ => hd
      · exact fun d hd hd' => mem_sweep env hd hd'
    rcases hout with ⟨e, he, -, heq⟩ | ⟨-, heq⟩
    · rw [heq]
      refine ⟨?_, ?_, by simpa [Pc.arcs] using he, ?_, hsub.nodup h.nodup⟩
      · intro f hf
        have hf' : f ∈ σ.cache.refs := hrefs ▸ hf
        exact huse _ (h.refs f hf') (inUse_of_ref hf')
      · exact fun j d hd => huse d (h.arcs j d hd) (inUse_of_arc hd)
      · exact fun d hd => hnext ▸ h.serial_lt d (hsub.subset hd)
    · rw [heq]
      exact h.live_addEntry _ hsub hnext hrefs huse rfl (by simp [Pc.arcs])

theorem pathTable_live (root : ℕ) (path : List Char) :
    Live σ (σ.cache.pathTable root path).1 (σ.cache.pathTable root path).2 := by
  have hstay : ∀ {c' : Cache} {pc' : Pc}, c'.table = σ.cache.table → c'.refs = σ.cache.refs →
      c'.nextEntry = σ.cache.nextEntry → pc'.arcs ⊆ σ.cache.table → Live σ c' pc' := by
    intro c' pc' htable hrefs hnext harcs
    refine ⟨?_, ?_, ?_, ?_, ?_⟩ <;> rw [htable]
    · exact fun f hf => h.refs f (hrefs ▸ hf)
    · exact h.arcs
    · exact fun e he => harcs he
    · rw [hnext]
      exact h.serial_lt
    · exact h.nodup
  rcases σ.cache.pathTable_cases root path with heq | ⟨-, c₁, hit, heq, rfl, hc₁⟩
  · rw [heq]
    exact hstay rfl rfl rfl (nil_subset _)
  · rw [heq]
    rcases hc₁ with ⟨rfl, -⟩ | ⟨-, rfl⟩
    · exact hstay rfl rfl rfl fun _ hd => mem_of_mem_filter hd
    · exact live_addEntry h (σ.cache.setTableLocked true) (List.Sublist.refl _) rfl rfl
        (fun _ hd _ => hd) rfl fun _ hd => .inr (mem_of_mem_filter hd)

theorem step_live (i : ι) :
    Live σ (Cache.step cfg content env σ.inUse σ.cache (σ.pc i)).1
      (Cache.step cfg content env σ.inUse σ.cache (σ.pc i)).2 := by
  by_cases htable : (σ.pc i).onTable = true
  · cases hpc : σ.pc i with
    | registerTable a => exact h.registerTable_live env a
    | pathTable root path => exact h.pathTable_live root path
    | _ => simp [hpc, Pc.onTable] at htable
  · apply h.live_of_tableKept (i := i)
    exact Cache.step_tableKept cfg content env σ.inUse (σ.pc i) (by simpa using htable)

variable [DecidableEq ι]

theorem step_thread (i : ι) :
    Guarded (σ.act cfg content (.step i env)) := by
  have hlocks := Cache.step_locks cfg content env σ.inUse (σ.pc i) (h.locked i)
  have hlive := h.step_live cfg content env i
  simp only [System.act]
  generalize Cache.step cfg content env σ.inUse σ.cache (σ.pc i) = out at hlocks hlive
  refine ⟨?_, ?_, hlive.refs, ?_, hlive.serial_lt, hlive.nodup⟩
  · have hheld : (fun j => (update σ.pc i out.2 j).held) =
        update (fun j => (σ.pc j).held) i out.2.held := by
      funext j
      exact apply_update (fun _ => Pc.held) σ.pc i out.2 j
    rw [hheld]
    apply h.exclusive.update hlocks.nodup
    intro l hl
    refine (hlocks.taken l hl).imp_right ?_
    rintro hfree ⟨j, hj⟩
    simp [h.locked j l hj] at hfree
  · apply forall_update (P := fun pc : Pc => ∀ l ∈ pc.held, out.1.isLocked l = true)
    · exact hlocks.kept
    · intro j hj l hl
      apply hlocks.others l (h.made hl) _ (h.locked j l hl)
      exact fun hi => hj (h.exclusive.holder_unique j i l hl hi)
  · exact forall_update (P := fun pc : Pc => ∀ e ∈ pc.arcs, e ∈ out.1.table)
      hlive.own fun j _ => hlive.arcs j

omit [Fintype ι] in
theorem call {i : ι} {pc : Pc} (hheld : pc.held = [])
    (harcs : ∀ e ∈ pc.arcs, e ∈ σ.cache.table) : Guarded (σ.call i pc) := by
  refine ⟨?_, ?_, h.refs, ?_, h.serial_lt, h.nodup⟩
  · have hupd : (fun j => (update σ.pc i pc j).held) =
        update (fun j => (σ.pc j).held) i pc.held := by
      funext j
      exact apply_update (fun _ => Pc.held) σ.pc i pc j
    simp only [System.call]
    rw [hupd, hheld]
    exact h.exclusive.update nodup_nil (by simp)
  · apply forall_update (P := fun p : Pc => ∀ l ∈ p.held, σ.cache.isLocked l = true)
    · simp [hheld]
    · exact fun j _ => h.locked j
  · exact forall_update (P := fun p : Pc => ∀ e ∈ p.arcs, e ∈ σ.cache.table) harcs
      fun j _ => h.arcs j

theorem act (ev : Event ι) : Guarded (σ.act cfg content ev) := by
  cases ev with
  | step i env => exact h.step_thread cfg content env i
  | register i | invalidatePath i =>
    simp only [System.act]
    split_ifs
    · exact h.call rfl (by simp [Pc.arcs])
    · exact h
  | invalidate i f =>
    simp only [System.act]
    split_ifs with hf
    · exact h.call rfl (by simpa [Pc.arcs] using h.refs f hf.2)
    · exact h
  | read i f off asked =>
    simp only [System.act, System.beginRead]
    split_ifs with hf
    · split
      · exact h
      · split_ifs
        · exact h.call rfl (by simpa [Pc.arcs] using h.refs f hf.2)
        · exact h
    · exact h
  | cloneRef f =>
    simp only [System.act]
    split_ifs with hf
    · refine ⟨h.exclusive, h.locked, ?_, h.arcs, h.serial_lt, h.nodup⟩
      intro g hg
      rcases mem_cons.mp hg with rfl | hg
      · exact h.refs g hf
      · exact h.refs g hg
    · exact h
  | dropRef f =>
    exact ⟨h.exclusive, h.locked, fun g hg => h.refs g (mem_of_mem_erase hg), h.arcs,
      h.serial_lt, h.nodup⟩

theorem step (ev : Event ι) : Guarded (σ.step cfg content ev) :=
  let h' := h.act cfg content ev
  ⟨h'.exclusive, h'.locked, h'.refs, h'.arcs, h'.serial_lt, h'.nodup⟩

omit h in
/-- In every run no lock has two holders, and the file of a handle stays in the table. A thread
that has a file locked can go on, whatever the environment does, and no other changes the file. -/
theorem locks_held (es : List (Event ι)) :
    let σ := System.run cfg content es
    (Custody.Exclusive fun i => (σ.pc i).held) ∧ (∀ f ∈ σ.cache.refs, f.entry ∈ σ.cache.table) ∧
    ∀ j e, .file e ∈ (σ.pc j).held → e ∈ σ.cache.table ∧ ∀ env,
      Cache.step cfg content env σ.inUse σ.cache (σ.pc j) ≠ (σ.cache, σ.pc j) ∧
      ∀ i, i ≠ j → (σ.act cfg content (.step i env)).cache.state e = σ.cache.state e := by
  have h : Guarded (System.run cfg content es) :=
    run_invariant (fun _ ev hσ => hσ.step cfg content ev) new es
  refine ⟨h.exclusive, h.refs, fun j e he => ⟨h.arcs j e (Pc.mem_arcs_of_held he), fun env => ?_⟩⟩
  exact ⟨Cache.step_ne_of_file_mem_held cfg content env _ he,
    fun i hij => h.frame cfg content env hij.symm he⟩

end

end Guarded

end AetherVfs.ReadCache
