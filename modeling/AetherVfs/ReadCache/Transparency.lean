import AetherVfs.ReadCache.Locks

/-!
# What the cache serves is what the file holds

Every ready slot holds its unit of the version its file's state names, every
flight that finished well carries the bytes of the version it was made for,
and a reader only takes units of the version it was opened with. So a read
that is answered has the bytes of that version at its offset.
-/

namespace AetherVfs.ReadCache

open List Transition

open Window (window)

variable (cfg : CacheConfig) (content : Name → Version → ℕ → UInt8)

def unitBytes (n : Name) (v : Version) (idx : ℕ) : List UInt8 :=
  window (content n v) (idx * cfg.block) (min cfg.block (v.size - idx * cfg.block))

/-- The run of units `[base, stop)` of a version of a file. -/
def runBytes (n : Name) (v : Version) (base stop : ℕ) : List UInt8 :=
  window (content n v) (base * cfg.block) (min (stop * cfg.block) v.size - base * cfg.block)

variable {j : ℕ} {fl : Flight} {data : List UInt8} {e : Entry} {r : Read}

theorem unit_of_run {n : Name} {v : Version} {base stop : ℕ} (hbase : base ≤ j) (hstop : j < stop) :
    ((runBytes cfg content n v base stop).drop ((j - base) * cfg.block)).take cfg.block =
      unitBytes cfg content n v j := by
  have hj : base * cfg.block + (j - base) * cfg.block = j * cfg.block := by
    rw [← add_mul, Nat.add_sub_cancel' hbase]
  have hnext : (j + 1) * cfg.block ≤ stop * cfg.block := Nat.mul_le_mul_right _ hstop
  rw [add_one_mul] at hnext
  rw [runBytes, Window.drop_window, Window.take_window, hj, unitBytes]
  congr 1
  omega

/-- What a slot of a file of version `v` may hold. -/
def SlotOk (e : Entry) (v : Version) (s : Slot) : Prop :=
  match s.kind with
  | .ready data _ _ => data = unitBytes cfg content e.name v s.idx
  | .loading fl => fl.entry = e ∧ fl.version = v ∧ fl.base ≤ s.idx ∧ s.idx < fl.stop

def EntryOk (e : Entry) (st : State) : Prop :=
  ∀ s ∈ st.slots, ∃ v, st.version = some v ∧ SlotOk cfg content e v s

/-- What a flight may tell its waiters. -/
def FlightOk (fl : Flight) (got : Option Fetched) : Prop :=
  ∀ base run, got = some (some (base, run)) →
    base = fl.base ∧ run = runBytes cfg content fl.entry.name fl.version fl.base fl.stop

namespace EntryOk

variable {cfg content} {e : Entry} {st st' : State}

theorem of_nil (h : st.slots = []) : EntryOk cfg content e st := by
  simp [EntryOk, h]

variable (h : EntryOk cfg content e st)

include h

theorem of_subset (hslots : st'.slots ⊆ st.slots)
    (hversion : st'.version = st.version) : EntryOk cfg content e st' :=
  fun s hs => hversion ▸ h s (hslots hs)

/-- Changing the first slot that passes a test keeps the file well formed if the change keeps
slots well formed. -/
theorem updateFirst {p : Slot → Bool} {f : Slot → Slot}
    (hslots : st'.slots = Bag.updateFirst p f st.slots) (hversion : st'.version = st.version)
    (hf : ∀ v s, p s = true → SlotOk cfg content e v s → SlotOk cfg content e v (f s)) :
    EntryOk cfg content e st' := by
  intro s hs
  rw [hslots] at hs
  rw [hversion]
  rcases Bag.mem_updateFirst hs with hs | ⟨t, ht, hp, rfl⟩
  · exact h s hs
  · obtain ⟨v, hv, hok⟩ := h t ht
    exact ⟨v, hv, hf v t hp hok⟩

theorem touch (idx tick : ℕ) :
    EntryOk cfg content e (st.touch idx tick) := by
  refine h.updateFirst rfl rfl ?_
  rintro v ⟨j, kind⟩ - hok
  cases kind <;> exact hok

theorem dropFlight (fl : Flight) :
    EntryOk cfg content e (st.dropFlight fl) :=
  h.of_subset (fun _ hs => mem_of_mem_filter hs) rfl

theorem refile (idx key last : ℕ) :
    EntryOk cfg content e (st.refile idx key last) := by
  refine h.updateFirst rfl rfl ?_
  rintro v ⟨j, kind⟩ - hok
  cases kind <;> exact hok

theorem remove (s : Slot) : EntryOk cfg content e (st.remove s) :=
  h.of_subset erase_subset rfl

theorem rememberPressure (idx : ℕ) :
    EntryOk cfg content e (st.rememberPressure idx) := by
  unfold State.rememberPressure
  split_ifs
  · exact h.of_subset (List.Subset.refl _) rfl
  · exact h

theorem install {run : ℕ} (hentry : fl.entry = e) (hversion : st.version = some fl.version) :
    EntryOk cfg content e (st.install cfg fl run) := by
  intro s hs
  rcases mem_append.mp hs with hs | hs
  · exact h s hs
  · obtain ⟨j, hj, rfl⟩ := mem_map.mp hs
    rw [mem_range'_1] at hj
    have hstop : j < fl.stop := by omega
    exact ⟨fl.version, hversion, hentry, rfl, hj.1, hstop⟩

theorem fill {tick : ℕ} (hdata : data = unitBytes cfg content fl.entry.name fl.version j) :
    EntryOk cfg content e (st.fill fl j data tick) := by
  refine h.updateFirst rfl rfl ?_
  rintro v ⟨i, kind⟩ hp hok
  simp only [Bool.and_eq_true, decide_eq_true_eq, Slot.waitsFor] at hp
  obtain ⟨rfl, rfl⟩ := hp
  obtain ⟨rfl, rfl, -⟩ := hok
  exact hdata

end EntryOk

/- The versions of files that were ever registered. -/
variable (R : Set (Name × Version))

/-- What a read has copied so far are the bytes of its version at its offset. -/
structure ReadOk (r : Read) : Prop where
  registered : (r.entry.name, r.version) ∈ R
  len_eq : r.len = min r.asked (r.version.size - r.off)
  len_pos : 0 < r.len
  buf_le : r.buf.length ≤ r.len
  buf_eq : r.buf = window (content r.entry.name r.version) r.off r.buf.length

/-- A read that has yet to copy from unit `r.idx`. -/
structure Reading (r : Read) : Prop extends ReadOk content R r where
  idx_le : r.idx * cfg.block ≤ r.off + r.buf.length
  lt_idx : r.off + r.buf.length < (r.idx + 1) * cfg.block
  buf_lt : r.buf.length < r.len

/-- A read that has copied all it will. -/
structure ReadDone (r : Read) : Prop extends ReadOk content R r where
  buf_len : r.buf.length = r.len

/-- A load fetches, for its read, a run that starts with the unit the read is at. -/
structure LoadOk (l : Load) : Prop where
  reading : Reading cfg content R l.read
  entry : l.flight.entry = l.read.entry
  version : l.flight.version = l.read.version
  base : l.flight.base = l.read.idx
  base_lt : l.flight.base < l.flight.stop

/-- The run a load has fetched, and the unit it is to return. -/
structure RunOk (l : Load) (run : List UInt8) (first : Option (List UInt8)) : Prop
    extends LoadOk cfg content R l where
  run_eq : run = runBytes cfg content l.read.entry.name l.read.version l.flight.base l.flight.stop
  first_eq : ∀ data ∈ first,
    data = unitBytes cfg content l.read.entry.name l.read.version l.read.idx

/-- The flight a read waits for fetches the unit it is at. -/
structure WaitOk (r : Read) (fl : Flight) : Prop where
  reading : Reading cfg content R r
  entry : fl.entry = r.entry
  version : fl.version = r.version
  base_le : fl.base ≤ r.idx
  lt_stop : r.idx < fl.stop

def WhyOk (e : Entry) : Why → Prop
  | .poison _ => True
  | .version v => (e.name, v) ∈ R
  | .failed l => LoadOk cfg content R l
  | .judged r => ReadDone content R r

/-- What a thread knows about the read it serves, at each of its places. -/
def PcOk : Pc → Prop
  | .idle | .invalidate _ | .pathTable _ _ | .pathFiles _ _ _ => True
  | .registerTable a => (a.name, a.version) ∈ R
  | .registerFile e a => (e.name, a.version) ∈ R
  | .clear e why | .clearGive e why _ => WhyOk cfg content R e why
  | .read r | .unit r | .unitStale r _ => Reading cfg content R r
  | .wait r fl => WaitOk cfg content R r fl
  | .waitDrop _ _ | .waitCancel _ _ => True
  | .missRoom m | .missGive m _ => Reading cfg content R m.read ∧ m.read.idx < m.stop
  | .reserve l | .reserveCas l _ | .evictPop l | .evictFile l _ _ _ | .fetch l
  | .fetchFailed l | .guardGive l | .guardDrop l | .guardCancel l => LoadOk cfg content R l
  | .loadFile l run => RunOk cfg content R l run none
  | .loadSlot l run j _ first | .loadLru l run j _ first _ =>
    RunOk cfg content R l run first ∧ l.flight.base ≤ j
  | .loadGive l run _ first => RunOk cfg content R l run first
  | .loadComplete l run data => RunOk cfg content R l run (some data)
  | .judge r => ReadDone content R r

/-- The version a thread has seen in a file it has locked. -/
def Pc.sees : Pc → Option (Entry × Version)
  | .missRoom m | .missGive m _ => some (m.read.entry, m.read.version)
  | _ => none

/-- An answered read has the bytes of its version, cut short at its end. -/
def ServedOk (a : Served) : Prop :=
  (a.name, a.version) ∈ R ∧ a.bytes = window (content a.name a.version) a.off (min a.asked (a.version.size - a.off))

section Reading

variable {cfg content R} {r : Read} {got : Got}

theorem ReadOk.end_le (h : ReadOk content R r) : r.off + r.len ≤ r.version.size := by
  have hlen := h.len_eq
  have hpos := h.len_pos
  omega

theorem Reading.copy_buf (h : Reading cfg content R r) :
    (r.copy cfg (unitBytes cfg content r.entry.name r.version r.idx) got).buf =
      window (content r.entry.name r.version) r.off
        (min r.len ((r.idx + 1) * cfg.block - r.off)) := by
  have hend := h.toReadOk.end_le
  have hle := h.idx_le
  have hlt := h.lt_idx
  have hbuf := h.buf_lt
  have hstart : r.idx * cfg.block + (r.off + r.buf.length - r.idx * cfg.block) =
      r.off + r.buf.length := by omega
  rw [add_one_mul] at hlt ⊢
  simp only [Read.copy, unitBytes]
  rw [Window.drop_window, Window.take_window, hstart]
  nth_rewrite 1 [h.buf_eq]
  rw [Window.window_append]
  congr 1
  omega

theorem Reading.copy_readOk (h : Reading cfg content R r) (got : Got) :
    ReadOk content R (r.copy cfg (unitBytes cfg content r.entry.name r.version r.idx) got) := by
  refine ⟨h.registered, h.len_eq, h.len_pos, ?_, ?_⟩
  · rw [h.copy_buf, Window.length_window]
    exact min_le_left _ _
  · rw [h.copy_buf, Window.length_window]
    rfl

theorem Reading.next (h : Reading cfg content R r)
    (hdata : data = unitBytes cfg content r.entry.name r.version r.idx) :
    PcOk cfg content R (r.next cfg data got) := by
  subst hdata
  have hok := h.copy_readOk got
  have hlen : (r.copy cfg (unitBytes cfg content r.entry.name r.version r.idx) got).buf.length =
      min r.len ((r.idx + 1) * cfg.block - r.off) := by
    rw [h.copy_buf, Window.length_window]
  have hle := h.idx_le
  have hlt := h.lt_idx
  have hbuf := h.buf_lt
  have hlast : r.idx ≤ r.lastIdx cfg := by
    rw [Read.lastIdx, Nat.le_div_iff_mul_le cfg.block_pos]
    omega
  unfold Read.next
  dsimp only
  split_ifs with hidx
  · refine ⟨hok, ?_⟩
    have hcover : r.off + r.len - 1 < (r.idx + 1) * cfg.block := by
      rw [hidx]
      exact Nat.lt_mul_of_div_lt (Nat.lt_succ_self _) cfg.block_pos
    rw [hlen]
    simp only [Read.copy]
    omega
  · have hmore : (r.idx + 1) * cfg.block ≤ r.off + r.len - 1 := by
      rw [← Nat.le_div_iff_mul_le cfg.block_pos]
      exact lt_of_le_of_ne hlast hidx
    refine ⟨⟨hok.registered, hok.len_eq, hok.len_pos, hok.buf_le, hok.buf_eq⟩, ?_, ?_, ?_⟩
    · simp only [hlen]
      simp only [Read.copy]
      omega
    · simp only [hlen]
      simp only [Read.copy]
      rw [add_one_mul (r.idx + 1)]
      have := cfg.block_pos
      omega
    · simp only [hlen]
      simp only [Read.copy]
      omega

end Reading

/-- The files, the flights and the answers given so far are right. -/
structure FaithfulOn (state : Entry → State) (done : Flight → Option Fetched)
    (served : List Served) (refs : List FileRef) : Prop where
  entries : ∀ e, EntryOk cfg content e (state e)
  flights : ∀ fl, FlightOk cfg content fl (done fl)
  served : ∀ a ∈ served, ServedOk content R a
  refs : ∀ f ∈ refs, ∀ v ∈ f.version, (f.entry.name, v) ∈ R

def Faithful (c : Cache) : Prop := FaithfulOn cfg content R c.state c.done c.served c.refs

/-- The cache is right, and so is what one thread knows of it. -/
structure Sound (c : Cache) (pc : Pc) : Prop where
  faithful : Faithful cfg content R c
  place : PcOk cfg content R pc
  sees : ∀ p ∈ pc.sees, (c.state p.1).version = some p.2

namespace FaithfulOn

variable {cfg content R} {state : Entry → State} {done : Flight → Option Fetched}
  {served : List Served} {refs : List FileRef} (h : FaithfulOn cfg content R state done served refs)

include h

variable {st : State}

theorem update (hst : EntryOk cfg content e st) :
    FaithfulOn cfg content R (Function.update state e st) done served refs := by
  refine ⟨?_, h.flights, h.served, h.refs⟩
  intro d
  by_cases hd : d = e
  · subst hd
    simpa using hst
  · simpa [hd] using h.entries d

theorem complete {v : Fetched} (hv : FlightOk cfg content fl (some v)) :
    FaithfulOn cfg content R state (Function.update done fl ((done fl).or (some v))) served refs := by
  refine ⟨h.entries, ?_, h.served, h.refs⟩
  intro g
  by_cases hg : g = fl
  · subst hg
    rw [Function.update_self]
    cases hdone : done g with
    | none => simpa using hv
    | some w => simpa [hdone] using h.flights g
  · simpa [hg] using h.flights g

theorem complete_none (fl : Flight) :
    FaithfulOn cfg content R state (Function.update done fl ((done fl).or (some none))) served refs :=
  h.complete (by simp [FlightOk])

theorem logServed (hr : ReadDone content R r) : FaithfulOn cfg content R state done
      (⟨r.entry.name, r.version, r.off, r.asked, r.buf, r.how, r.began⟩ :: served) refs := by
  refine ⟨h.entries, h.flights, ?_, h.refs⟩
  intro a ha
  rcases mem_cons.mp ha with rfl | ha
  · refine ⟨hr.registered, ?_⟩
    rw [← hr.len_eq, ← hr.buf_len]
    exact hr.buf_eq
  · exact h.served a ha

/-- A change of a file's counters. -/
theorem same_slots (hslots : st.slots = (state e).slots)
    (hversion : st.version = (state e).version) :
    FaithfulOn cfg content R (Function.update state e st) done served refs :=
  h.update ((h.entries e).of_subset (hslots ▸ List.Subset.refl _) hversion)

theorem goCold (hst : EntryOk cfg content e st) :
    FaithfulOn cfg content R (Function.update (Function.update state e st) e
      (Function.update state e st e).goCold) done served refs := by
  refine (h.update hst).update ?_
  rw [Function.update_self]
  exact hst.of_subset (List.Subset.refl _) rfl

end FaithfulOn

variable {pc : Pc}

theorem sound_of_unseen {cfg : CacheConfig} {content : Name → Version → ℕ → UInt8}
    {R : Set (Name × Version)} {c : Cache} (h : Faithful cfg content R c)
    (hpc : PcOk cfg content R pc) (hsees : pc.sees = none) : Sound cfg content R c pc :=
  ⟨h, hpc, by simp [hsees]⟩

theorem Read.sees_next (r : Read) (data : List UInt8) (got : Got) :
    (r.next cfg data got).sees = none := by
  unfold Read.next
  dsimp only
  split_ifs <;> rfl

namespace Cache

variable {cfg content R} {c : Cache} {env : Env} {inUse : Entry → Bool}

theorem answered_sound (h : Faithful cfg content R c) (hr : ReadDone content R r) :
    Sound cfg content R (c.answered r).1 (c.answered r).2 :=
  sound_of_unseen (h.logServed hr) trivial rfl

theorem registered_sound {v : Option Version} (h : Faithful cfg content R c)
    (hv : ∀ w ∈ v, (e.name, w) ∈ R) :
    Sound cfg content R (c.registered e v).1 (c.registered e v).2 := by
  refine sound_of_unseen ⟨h.entries, h.flights, h.served, ?_⟩ trivial rfl
  intro f hf
  rcases mem_cons.mp hf with rfl | hf
  · exact hv
  · exact h.refs f hf

theorem cleared_sound {why : Why} (h : Faithful cfg content R c) (hwhy : WhyOk cfg content R e why)
    (hnil : (c.state e).slots = []) :
    Sound cfg content R (c.cleared e why).1 (c.cleared e why).2 := by
  rcases why with (_ | _ | ⟨root, path, rest⟩) | v | l | r
  case poison.register => exact registered_sound (h.update (.of_nil hnil)) (by simp)
  case version =>
    refine registered_sound (h.update (.of_nil hnil)) ?_
    rintro w ⟨⟩
    exact hwhy
  case failed => exact sound_of_unseen h hwhy rfl
  case judged => exact answered_sound (h.update (.of_nil hnil)) hwhy
  all_goals exact sound_of_unseen (h.update (.of_nil hnil)) trivial rfl

theorem clear_sound {why : Why} (h : Faithful cfg content R c) (hwhy : WhyOk cfg content R e why) :
    Sound cfg content R (c.clear e why).1 (c.clear e why).2 := by
  have hrest : ∀ {s : Slot} {rest : List Slot}, (c.state e).slots = s :: rest →
      EntryOk cfg content e { c.state e with slots := rest } := fun heq =>
    (h.entries e).of_subset (heq ▸ subset_cons_self _ _) rfl
  unfold clear
  split
  · next hnil => exact cleared_sound h hwhy hnil
  · next heq => exact sound_of_unseen (h.update (hrest heq)) hwhy rfl
  · next heq => exact sound_of_unseen ((h.update (hrest heq)).complete_none _) hwhy rfl

theorem registerTable_sound (h : Faithful cfg content R c) (a : Registration)
    (ha : (a.name, a.version) ∈ R) :
    Sound cfg content R (c.registerTable env inUse a).1 (c.registerTable env inUse a).2 := by
  rcases c.registerTable_cases env inUse a with heq | ⟨-, c₁, hc₁, hout⟩
  · rw [heq]
    exact sound_of_unseen h ha rfl
  · have h₁ : Faithful cfg content R c₁ := by rcases hc₁ with rfl | rfl <;> exact h
    rcases hout with ⟨e, -, hname, heq⟩ | ⟨-, heq⟩
    · rw [heq]
      exact sound_of_unseen h₁ (hname ▸ ha : (e.name, a.version) ∈ R) rfl
    · rw [heq]
      exact sound_of_unseen (h₁.update (.of_nil rfl)) ha rfl

theorem pathTable_sound (h : Faithful cfg content R c) (root : ℕ) (path : List Char) :
    Sound cfg content R (c.pathTable root path).1 (c.pathTable root path).2 := by
  rcases c.pathTable_cases root path with heq | ⟨-, c₁, hit, heq, -, hc₁⟩
  · rw [heq]
    exact sound_of_unseen h trivial rfl
  · rw [heq]
    rcases hc₁ with ⟨rfl, -⟩ | ⟨-, rfl⟩
    · exact sound_of_unseen h trivial rfl
    · exact sound_of_unseen (h.update (.of_nil rfl)) trivial rfl

theorem unit_sound (h : Faithful cfg content R c) (hr : Reading cfg content R r) :
    Sound cfg content R (c.unit cfg env r).1 (c.unit cfg env r).2 := by
  have hfile := h.entries r.entry
  unfold unit
  split
  · exact sound_of_unseen h hr rfl
  · split
    · exact sound_of_unseen h trivial rfl
    · next hserves =>
      have hversion : (c.state r.entry).version = some r.version := by
        simp only [State.serves] at hserves
        simp_all
      have hslot : ∀ {s : Slot}, (c.state r.entry).findIdx r.idx = some s →
          s.idx = r.idx ∧ SlotOk cfg content r.entry r.version s := by
        intro s hs
        obtain ⟨v, hv, hok⟩ := hfile s (mem_of_find?_eq_some hs)
        rw [hversion, Option.some.injEq] at hv
        subst hv
        exact ⟨by simpa using find?_some hs, hok⟩
      split
      · next idx data last lruKey hfind =>
        obtain ⟨rfl, hdata⟩ := hslot hfind
        exact sound_of_unseen (h.update (hfile.touch _ _)) (hr.next hdata) (r.sees_next cfg _ _)
      · next idx fl hfind =>
        obtain ⟨rfl, hentry, hver, hbase, hstop⟩ := hslot hfind
        split_ifs
        · exact sound_of_unseen (h.update (hfile.dropFlight fl)) hr rfl
        · exact sound_of_unseen h ⟨hr, hentry, hver, hbase, hstop⟩ rfl
      · refine ⟨h.update (hfile.of_subset (List.Subset.refl _) rfl), ⟨hr, ?_⟩, ?_⟩
        · exact State.le_runEnd _ _ _ _
        · rintro p ⟨⟩
          simpa [Miss.begin] using hversion

theorem startLoad_sound {m : Miss} {stop : ℕ} (h : Faithful cfg content R c)
    (hr : Reading cfg content R m.read) (hstop : m.read.idx < stop)
    (hversion : (c.state m.read.entry).version = some m.read.version) :
    Sound cfg content R (c.startLoad cfg m stop).1 (c.startLoad cfg m stop).2 := by
  refine sound_of_unseen (h.update ?_) ⟨hr, rfl, rfl, rfl, hstop⟩ rfl
  exact (h.entries m.read.entry).install rfl hversion

theorem missRoom_sound {m : Miss} (h : Sound cfg content R c (.missRoom m)) :
    Sound cfg content R (c.missRoom cfg m).1 (c.missRoom cfg m).2 := by
  obtain ⟨hr, hstop⟩ := h.place
  have hversion : (c.state m.read.entry).version = some m.read.version := h.sees _ rfl
  unfold missRoom
  dsimp only
  split
  · exact startLoad_sound h.faithful hr hstop hversion
  · split
    · refine ⟨h.faithful.update ((h.faithful.entries m.read.entry).remove _), ⟨hr, hstop⟩, ?_⟩
      rintro p ⟨⟩
      simpa [State.remove] using hversion
    · split_ifs with hroom
      · exact startLoad_sound h.faithful hr (by omega) hversion
      · exact sound_of_unseen h.faithful trivial rfl

variable {l : Load}

section

variable (h : Faithful cfg content R c)

include h

theorem evictFile_sound {key idx : ℕ} (hl : LoadOk cfg content R l) :
    Sound cfg content R (c.evictFile l key e idx).1 (c.evictFile l key e idx).2 := by
  have hfile := h.entries e
  unfold evictFile
  split
  · exact sound_of_unseen h hl rfl
  · split
    · exact sound_of_unseen h hl rfl
    · split
      · split_ifs
        · exact sound_of_unseen (h.update (hfile.refile _ _ _)) hl rfl
        · exact sound_of_unseen (h.update ((hfile.remove _).rememberPressure _)) hl rfl
      · exact sound_of_unseen h hl rfl

theorem fetch_sound (hl : LoadOk cfg content R l) :
    Sound cfg content R (c.fetch cfg content env l).1 (c.fetch cfg content env l).2 := by
  unfold fetch
  split
  · exact sound_of_unseen h ⟨hl, rfl, by simp⟩ rfl
  · exact sound_of_unseen h hl rfl
  · exact sound_of_unseen h hl rfl

theorem fetchFailed_sound (hl : LoadOk cfg content R l) :
    Sound cfg content R (c.fetchFailed l).1 (c.fetchFailed l).2 := by
  have hfile := h.entries l.read.entry
  unfold fetchFailed
  dsimp only
  split_ifs
  · exact sound_of_unseen h hl rfl
  · exact sound_of_unseen (h.goCold hfile) hl rfl
  · exact sound_of_unseen (h.same_slots rfl rfl) hl rfl

variable {run : List UInt8}

theorem loadSlot_sound {installed : ℕ} {first : Option (List UInt8)}
    (hl : RunOk cfg content R l run first) (hbase : l.flight.base ≤ j) :
    Sound cfg content R (c.loadSlot cfg l run j installed first).1
      (c.loadSlot cfg l run j installed first).2 := by
  unfold loadSlot
  split
  · exact sound_of_unseen h hl rfl
  · next hstop =>
    split
    · exact sound_of_unseen h ⟨hl, hbase.trans (Nat.le_succ j)⟩ rfl
    · refine sound_of_unseen (h.update ((h.entries l.read.entry).fill ?_)) ⟨hl, hbase⟩ rfl
      rw [Load.unitOf, hl.run_eq, hl.entry, hl.version]
      exact unit_of_run cfg content hbase (by omega)

theorem loadLru_sound {installed tick : ℕ} {first : Option (List UInt8)}
    (hl : RunOk cfg content R l run first) (hbase : l.flight.base ≤ j) :
    Sound cfg content R (c.loadLru cfg l run j installed first tick).1
      (c.loadLru cfg l run j installed first tick).2 := by
  refine sound_of_unseen h ⟨⟨hl.toLoadOk, hl.run_eq, ?_⟩, hbase.trans (Nat.le_succ j)⟩ rfl
  intro data hdata
  split_ifs at hdata with hj
  · obtain rfl : _ = data := by simpa using hdata
    rw [Load.unitOf, hj, hl.run_eq, ← hl.base]
    exact unit_of_run cfg content le_rfl hl.base_lt
  · exact hl.first_eq data hdata

theorem wait_sound (hw : WaitOk cfg content R r fl) :
    Sound cfg content R (c.wait cfg env r fl).1 (c.wait cfg env r fl).2 := by
  unfold wait
  split
  · next base run hdone =>
    obtain ⟨rfl, rfl⟩ := h.flights fl base run hdone
    refine sound_of_unseen h (hw.reading.next ?_) (r.sees_next cfg _ _)
    rw [hw.entry, hw.version]
    exact unit_of_run cfg content hw.base_le hw.lt_stop
  · exact sound_of_unseen h trivial rfl
  · split_ifs
    · exact sound_of_unseen h trivial rfl
    · exact sound_of_unseen h hw rfl

theorem loadComplete_sound (hl : RunOk cfg content R l run (some data)) :
    Sound cfg content R (c.loadComplete cfg l run data).1 (c.loadComplete cfg l run data).2 := by
  refine sound_of_unseen (h.complete ?_) (hl.reading.next (hl.first_eq data rfl))
    (l.read.sees_next cfg _ _)
  rintro base run' ⟨⟩
  refine ⟨rfl, ?_⟩
  rw [hl.entry, hl.version]
  exact hl.run_eq

theorem judge_sound (hr : ReadDone content R r) :
    Sound cfg content R (c.judge cfg r).1 (c.judge cfg r).2 := by
  unfold judge
  split
  · exact sound_of_unseen h hr rfl
  · split
    case h_1 => exact answered_sound (h.same_slots rfl rfl) hr
    case h_5 =>
      dsimp only
      split_ifs
      · exact answered_sound (h.same_slots rfl rfl) hr
      · exact sound_of_unseen
          (h.goCold ((h.entries r.entry).of_subset (List.Subset.refl _) rfl)) hr rfl
      · refine answered_sound ((h.same_slots ?_ ?_).same_slots ?_ ?_) hr
        all_goals simp
    all_goals exact answered_sound h hr

end

theorem step_sound (h : Sound cfg content R c pc) :
    Sound cfg content R (c.step cfg content env inUse pc).1
      (c.step cfg content env inUse pc).2 := by
  have hF := h.faithful
  have hpc := h.place
  cases pc with
  | idle => exact h
  | registerTable a => exact registerTable_sound hF a hpc
  | registerFile e a =>
    simp only [step, registerFile]
    split_ifs
    · exact h
    · exact sound_of_unseen (hF.same_slots rfl rfl) trivial rfl
    · exact registered_sound hF (by simp)
    · exact sound_of_unseen hF hpc rfl
    · refine registered_sound hF ?_
      rintro w ⟨⟩
      exact hpc
  | invalidate e =>
    simp only [step, invalidate]
    split_ifs
    · exact h
    · exact sound_of_unseen (hF.same_slots rfl rfl) trivial rfl
  | pathTable root path => exact pathTable_sound hF root path
  | pathFiles root path hit =>
    simp only [step, pathFiles]
    split
    · exact sound_of_unseen hF trivial rfl
    · next e rest =>
      split_ifs
      · exact h
      · exact sound_of_unseen (hF.same_slots rfl rfl) trivial rfl
  | clear e why => exact clear_sound hF hpc
  | clearGive e why n => exact sound_of_unseen hF hpc rfl
  | read r =>
    simp only [step, read]
    split_ifs
    · exact h
    · exact sound_of_unseen hF trivial rfl
    · exact sound_of_unseen (hF.same_slots rfl rfl) trivial rfl
    · exact sound_of_unseen hF hpc rfl
  | unit r => exact unit_sound hF hpc
  | unitStale r fl => exact sound_of_unseen (hF.complete_none fl) hpc rfl
  | wait r fl => exact wait_sound hF hpc
  | waitDrop r fl =>
    simp only [step, waitDrop]
    split_ifs
    · exact h
    · exact sound_of_unseen (hF.update ((hF.entries r.entry).dropFlight fl)) trivial rfl
  | waitCancel r fl => exact sound_of_unseen (hF.complete_none fl) trivial rfl
  | missRoom m => exact missRoom_sound h
  | missGive m n => exact ⟨hF, hpc, h.sees⟩
  | reserve | reserveCas | evictPop =>
    simp only [step, reserve, reserveCas, evictPop]
    (repeat' split) <;> exact sound_of_unseen hF hpc rfl
  | evictFile l key e idx => exact evictFile_sound hF hpc
  | fetch l => exact fetch_sound hF hpc
  | fetchFailed l => exact fetchFailed_sound hF hpc
  | loadFile l run =>
    simp only [step, loadFile]
    split_ifs
    · exact h
    · exact sound_of_unseen hF hpc.toLoadOk rfl
    · exact sound_of_unseen hF ⟨hpc, le_rfl⟩ rfl
  | loadSlot l run j installed first => exact loadSlot_sound hF hpc.1 hpc.2
  | loadLru l run j installed first tick => exact loadLru_sound hF hpc.1 hpc.2
  | loadGive l run installed first =>
    cases first
    · exact sound_of_unseen hF (RunOk.toLoadOk hpc) rfl
    · exact sound_of_unseen hF hpc rfl
  | loadComplete l run data => exact loadComplete_sound hF hpc
  | guardGive l => exact sound_of_unseen hF hpc rfl
  | guardDrop l =>
    simp only [step, guardDrop]
    split_ifs
    · exact h
    · exact sound_of_unseen (hF.update ((hF.entries l.read.entry).dropFlight l.flight)) hpc rfl
  | guardCancel l => exact sound_of_unseen (hF.complete_none l.flight) trivial rfl
  | judge r => exact judge_sound hF hpc

end Cache

theorem Pc.held_of_sees {p : Entry × Version} (h : p ∈ pc.sees) : .file p.1 ∈ pc.held := by
  cases pc with
  | missRoom m | missGive m n =>
    obtain rfl : _ = p := by simpa [Pc.sees] using h
    exact mem_cons_self
  | _ => simp [Pc.sees] at h

/-- The invariant of every run: locks are respected, the cache is right, and every thread
knows what its place says. -/
structure Transparent {ι : Type*} (σ : System ι) : Prop extends Guarded σ where
  faithful : Faithful cfg content R σ.cache
  place : ∀ i, PcOk cfg content R (σ.pc i)
  sees : ∀ i, ∀ p ∈ (σ.pc i).sees, (σ.cache.state p.1).version = some p.2

namespace Transparent

variable {ι : Type*} {σ : System ι} {cfg content R}

theorem new : Transparent cfg content R (System.new : System ι) where
  toGuarded := Guarded.new
  faithful := ⟨fun _ => .of_nil rfl, by simp [System.new, FlightOk], by simp [System.new],
    by simp [System.new]⟩
  place := fun _ => trivial
  sees := by simp [System.new, Pc.sees]

variable [DecidableEq ι]

section

variable (h : Transparent cfg content R σ)

include h

theorem call {i : ι} (hg : Guarded (σ.call i pc)) (hpc : PcOk cfg content R pc)
    (hsees : pc.sees = none) : Transparent cfg content R (σ.call i pc) where
  toGuarded := hg
  faithful := h.faithful
  place := forall_update (P := PcOk cfg content R) hpc fun j _ => h.place j
  sees := forall_update
    (P := fun pc : Pc => ∀ p ∈ pc.sees, (σ.cache.state p.1).version = some p.2)
    (by simp [hsees]) fun j _ => h.sees j

variable [Fintype ι]

theorem step_thread (i : ι) (env : Env) :
    Transparent cfg content R (σ.act cfg content (.step i env)) := by
  have hsound : Sound cfg content R (Cache.step cfg content env σ.inUse σ.cache (σ.pc i)).1
      (Cache.step cfg content env σ.inUse σ.cache (σ.pc i)).2 :=
    Cache.step_sound ⟨h.faithful, h.place i, h.sees i⟩
  refine ⟨h.toGuarded.step_thread cfg content env i, hsound.faithful, ?_, ?_⟩
  · exact forall_update (P := PcOk cfg content R) hsound.place fun j _ => h.place j
  · refine forall_update (P := fun pc : Pc => ∀ p ∈ pc.sees, (Cache.state
      (Cache.step cfg content env σ.inUse σ.cache (σ.pc i)).1 p.1).version = some p.2)
      hsound.sees ?_
    intro j hj p hp
    rw [h.toGuarded.frame cfg content env hj (Pc.held_of_sees hp)]
    exact h.sees j p hp

omit [Fintype ι] in
theorem beginRead {i : ι} {f : FileRef} {off asked : ℕ}
    (hf : f ∈ σ.cache.refs) (hg : Guarded (σ.beginRead cfg i f off asked)) :
    Transparent cfg content R (σ.beginRead cfg i f off asked) := by
  unfold System.beginRead at hg ⊢
  split
  · exact h
  · next v hv =>
    rw [hv] at hg
    dsimp only at hg
    split_ifs at hg ⊢ with hread
    · obtain ⟨hasked, -, hoff⟩ := hread
      refine h.call hg ⟨⟨h.faithful.refs f hf v hv, rfl, ?_, Nat.zero_le _, rfl⟩, ?_, ?_, ?_⟩ rfl
      · dsimp only
        omega
      · exact Nat.div_mul_le_self off cfg.block
      · exact Nat.lt_mul_of_div_lt (Nat.lt_succ_self _) cfg.block_pos
      · dsimp only [length_nil]
        omega
    · exact h

theorem act (ev : Event ι)
    (hR : ∀ i a, ev = .register i a → (a.name, a.version) ∈ R) :
    Transparent cfg content R (σ.act cfg content ev) := by
  have hg := h.toGuarded.act cfg content ev
  cases ev with
  | step i env => exact h.step_thread i env
  | register i a =>
    simp only [System.act] at hg ⊢
    split_ifs at hg ⊢
    · exact h.call hg (hR i a rfl) rfl
    · exact h
  | invalidate i | invalidatePath i =>
    simp only [System.act] at hg ⊢
    split_ifs at hg ⊢
    · exact h.call hg trivial rfl
    · exact h
  | read i f off asked =>
    simp only [System.act] at hg ⊢
    split_ifs at hg ⊢ with hf
    · exact h.beginRead hf.2 hg
    · exact h
  | cloneRef f =>
    simp only [System.act] at hg ⊢
    split_ifs at hg ⊢ with hf
    · refine ⟨hg, ⟨h.faithful.entries, h.faithful.flights, h.faithful.served, ?_⟩, h.place,
        h.sees⟩
      intro g hmem
      rcases mem_cons.mp hmem with rfl | hmem
      · exact h.faithful.refs g hf
      · exact h.faithful.refs g hmem
    · exact h
  | dropRef f =>
    exact ⟨hg, ⟨h.faithful.entries, h.faithful.flights, h.faithful.served,
      fun g hmem => h.faithful.refs g (mem_of_mem_erase hmem)⟩, h.place, h.sees⟩

theorem step (ev : Event ι)
    (hR : ∀ i a, ev = .register i a → (a.name, a.version) ∈ R) :
    Transparent cfg content R (σ.step cfg content ev) :=
  let h' := h.act ev hR
  ⟨h.toGuarded.step cfg content ev, h'.faithful, h'.place, h'.sees⟩

end

end Transparent

/-- In every run, whatever is registered, invalidated, swept, evicted or left half done, and
whichever fetches fail: a read that was answered went through a version of the file that was
registered, it has as many bytes as were asked for, cut short at the end of that version, and
they are the bytes of that version of that file at the read's offset. -/
theorem System.served_bytes_exact {ι : Type*} [DecidableEq ι] [Fintype ι]
    (cfg : CacheConfig) (content : Name → Version → ℕ → UInt8) (es : List (Event ι)) (a : Served)
    (ha : a ∈ (System.run cfg content es).cache.served) :
    (∃ i b, Event.register i b ∈ es ∧ b.name = a.name ∧ b.version = a.version) ∧
      a.bytes.length = min a.asked (a.version.size - a.off) ∧
      a.bytes = window (content a.name a.version) a.off a.bytes.length := by
  let R : Set (Name × Version) :=
    {p | ∃ i b, Event.register i b ∈ es ∧ (b.name, b.version) = p}
  have hsteps : Transition.AllSteps (System.step cfg content)
      (fun _ ev => ∀ (i : ι) b, ev = .register i b → (b.name, b.version) ∈ R) System.new es := by
    apply allSteps_of_forall_mem
    rintro _ _ hev i b rfl
    exact ⟨i, b, hev, rfl⟩
  have hinv : Transparent cfg content R (System.run cfg content es) :=
    run_invariant_of_allSteps (fun _ ev h hR => h.step ev hR) Transparent.new hsteps
  obtain ⟨⟨i, b, hmem, hb⟩, hbytes⟩ := hinv.faithful.served a ha
  have hlen : a.bytes.length = min a.asked (a.version.size - a.off) := by
    rw [hbytes, Window.length_window]
  refine ⟨⟨i, b, hmem, congrArg Prod.fst hb, congrArg Prod.snd hb⟩, hlen, ?_⟩
  rw [hlen]
  exact hbytes

def tinyConfig : CacheConfig where
  block := 4
  maxRun := 2
  threshold := 4
  blocksPerFile := 2
  maxBytes := 12
  coldHitsPerMiss := 8
  coldCountsFirstFetch := false
  block_pos := by decide
  blocksPerFile_pos := by decide
  maxRun_pos := by decide
  threshold_le := by decide

def countingContent : Name → Version → ℕ → UInt8 := fun _ _ k => UInt8.ofNat k

/-- One thread registers a file of six bytes and reads three of them across two units. -/
def oneReadRun : List (Event Unit) :=
  [.register () ⟨⟨0, ['a']⟩, ⟨6, 1⟩, true, false⟩] ++ List.replicate 3 (.step () {}) ++
    [.read () ⟨⟨0, ⟨0, ['a']⟩⟩, some ⟨6, 1⟩⟩ 2 3] ++ List.replicate 24 (.step () {})

def oneReadAnswer : Served :=
  ⟨⟨0, ['a']⟩, ⟨6, 1⟩, 2, 3, [2, 3, 4], .fetched false false, 4⟩

theorem System.served_bytes_exact_oneReadRun :
    oneReadAnswer ∈ (System.run tinyConfig countingContent oneReadRun).cache.served ∧
      oneReadAnswer.bytes.length = 3 ∧
      oneReadAnswer.bytes = window (countingContent oneReadAnswer.name oneReadAnswer.version) 2 3 :=
  have hmem : oneReadAnswer ∈ (System.run tinyConfig countingContent oneReadRun).cache.served := by
    decide +kernel
  ⟨hmem, (System.served_bytes_exact tinyConfig countingContent oneReadRun oneReadAnswer hmem).2⟩

end AetherVfs.ReadCache
