import AetherVfs.Lib.LazyLru
import AetherVfs.ReadCache.Slots
import AetherVfs.ReadCache.Transparency

/-!
# What the cache says it holds, and what it holds

The byte count is the bytes of all ready units plus what threads have in
transit: the reservation of a load, as far as its units are not installed yet,
and the bytes of a unit that was just dropped and are not given back yet. The
LRU index has one entry for every ready unit, except that the entry may be in
the hands of the thread that evicts or installs that unit. Files stay within
their limits at every moment.

`BooksOn` states this over an arbitrary set of entries in hand and an
arbitrary amount in transit, so that what other threads have is a frame; each
of its lemmas is one kind of move a step can make.
-/

namespace AetherVfs.ReadCache

open List Function

open LazyLru (Indexed)

def filedOf (state : Entry → State) (a : Entry × ℕ) : Option (ℕ × ℕ) :=
  filedIn (state a.1).slots a.2

def heldBytes (state : Entry → State) (table : List Entry) : ℕ :=
  ∑ e ∈ table.toFinset, readyBytes (state e).slots

structure BooksOn (cfg : CacheConfig) (state : Entry → State) (table : List Entry) (used : ℕ)
    (lru : List (ℕ × Entry × ℕ)) (tick : ℕ) (hand : Set (ℕ × Entry × ℕ)) (transit : ℕ) :
    Prop where
  tidy : ∀ e, Tidy cfg.blocksPerFile (state e).slots
  live : ∀ e, (state e).slots ≠ [] → e ∈ table
  used_eq : used = heldBytes state table + transit
  used_le : used ≤ cfg.maxBytes
  index : Indexed (filedOf state) lru tick hand

variable {state : Entry → State} {e : Entry} {j : ℕ} {x : ℕ × Entry × ℕ} {run : List UInt8}
  {first : Option (List UInt8)}

theorem filedOf_update {st : State} {v : Option (ℕ × ℕ)}
    (h : filedIn st.slots = Function.update (filedIn (state e).slots) j v) :
    filedOf (Function.update state e st) = Function.update (filedOf state) (e, j) v := by
  funext ⟨d, i⟩
  by_cases hd : d = e
  · subst hd
    simp only [filedOf, update_self, h]
    by_cases hi : i = j
    · subst hi
      simp
    · simp [filedOf, hi]
  · simp [filedOf, hd]

theorem filedOf_update_same {st : State} (h : filedIn st.slots = filedIn (state e).slots) :
    filedOf (Function.update state e st) = filedOf state := by
  funext ⟨d, i⟩
  by_cases hd : d = e
  · subst hd
    simp [filedOf, h]
  · simp [filedOf, hd]

theorem heldBytes_update (state : Entry → State) {table : List Entry} (he : e ∈ table)
    (st : State) :
    heldBytes (Function.update state e st) table + readyBytes (state e).slots =
      heldBytes state table + readyBytes st.slots := by
  have he' : e ∈ table.toFinset := mem_toFinset.mpr he
  simp only [heldBytes]
  rw [← Finset.add_sum_erase _ _ he', ← Finset.add_sum_erase _ (fun d => _) he']
  have hrest : ∑ d ∈ table.toFinset.erase e, readyBytes (update state e st d).slots =
      ∑ d ∈ table.toFinset.erase e, readyBytes (state d).slots := by
    apply Finset.sum_congr rfl
    intro d hd
    rw [update_of_ne (Finset.ne_of_mem_erase hd)]
  rw [hrest, update_self]
  omega

theorem heldBytes_update_of_not_mem {table : List Entry} (he : e ∉ table) (st : State) :
    heldBytes (Function.update state e st) table =
      heldBytes state table := by
  apply Finset.sum_congr rfl
  intro d hd
  rw [update_of_ne]
  rintro rfl
  exact he (mem_toFinset.mp hd)

namespace BooksOn

variable {cfg : CacheConfig} {state : Entry → State} {table : List Entry} {used : ℕ}
  {lru : List (ℕ × Entry × ℕ)} {tick : ℕ} {hand : Set (ℕ × Entry × ℕ)} {transit : ℕ} {e : Entry}
  {st : State} (h : BooksOn cfg state table used lru tick hand transit)

include h

theorem tidy_update (hst : Tidy cfg.blocksPerFile st.slots) (d : Entry) :
    Tidy cfg.blocksPerFile (Function.update state e st d).slots := by
  by_cases hd : d = e
  · subst hd
    simpa using hst
  · simpa [hd] using h.tidy d

theorem live_update (hst : st.slots ≠ [] → e ∈ table) (d : Entry)
    (hd : (Function.update state e st d).slots ≠ []) : d ∈ table := by
  by_cases hde : d = e
  · subst hde
    exact hst (by simpa using hd)
  · exact h.live d (by simpa [hde] using hd)

theorem reslot (hst : Tidy cfg.blocksPerFile st.slots) (hlive : st.slots ≠ [] → e ∈ table)
    (hfiled : filedIn st.slots = filedIn (state e).slots)
    (hbytes : readyBytes st.slots = readyBytes (state e).slots) :
    BooksOn cfg (Function.update state e st) table used lru tick hand transit where
  tidy := h.tidy_update hst
  live := h.live_update hlive
  used_eq := by
    have hused := h.used_eq
    by_cases he : e ∈ table
    · have hsum := heldBytes_update state he st
      omega
    · rw [heldBytes_update_of_not_mem he]
      exact hused
  used_le := h.used_le
  index := (filedOf_update_same hfiled).symm ▸ h.index

theorem same_slots (hst : st.slots = (state e).slots) :
    BooksOn cfg (Function.update state e st) table used lru tick hand transit := by
  apply h.reslot <;> rw [hst]
  · exact h.tidy e
  · exact h.live e

theorem drop_flight (fl : Flight) :
    BooksOn cfg (Function.update state e ((state e).dropFlight fl)) table used lru tick hand
      transit := by
  apply h.reslot (State.dropFlight_tidy (h.tidy e)) _ (State.dropFlight_filedIn (h.tidy e))
    State.dropFlight_bytes
  intro hne
  apply h.live e
  intro hnil
  simp [State.dropFlight, hnil] at hne

theorem drop_loading {fl : Flight} (hperm : (state e).slots.Perm (⟨j, .loading fl⟩ :: st.slots)) :
    BooksOn cfg (Function.update state e st) table used lru tick hand transit := by
  have hmem : ⟨j, .loading fl⟩ ∈ (state e).slots := hperm.mem_iff.mpr mem_cons_self
  have hnone : filedIn (state e).slots j = none := by
    have hfind := (find_idx_iff (h.tidy e).nodup).mpr ⟨hmem, rfl⟩
    simp only [filedIn]
    rw [hfind]
    rfl
  apply h.reslot ((h.tidy e).of_perm_cons hperm) fun _ => h.live e (ne_nil_of_mem hmem)
  · rw [filedIn_remove (h.tidy e).nodup hperm, ← hnone]
    exact update_eq_self _ _
  · rw [readyBytes_perm_cons hperm]
    exact (Nat.zero_add _).symm

theorem later {tick' : ℕ}
    (hle : tick ≤ tick') : BooksOn cfg state table used lru tick' hand transit :=
  ⟨h.tidy, h.live, h.used_eq, h.used_le, h.index.mono hle⟩

theorem give {n rest : ℕ}
    (hn : transit = rest + n) : BooksOn cfg state table (used - n) lru tick hand rest := by
  have hused := h.used_eq
  have hle := h.used_le
  exact ⟨h.tidy, h.live, by omega, by omega, h.index⟩

theorem take {n : ℕ}
    (hn : used + n ≤ cfg.maxBytes) :
    BooksOn cfg state table (used + n) lru tick hand (transit + n) := by
  have hused := h.used_eq
  exact ⟨h.tidy, h.live, by omega, hn, h.index⟩

variable {j l k : ℕ} {data : List UInt8}

theorem filed_of_mem (hmem : ⟨j, .ready data l k⟩ ∈ (state e).slots) :
    filedOf state (e, j) = some (l, k) :=
  (filedIn_eq_some_iff_mem (h.tidy e).nodup).mpr ⟨data, hmem⟩

theorem replace {s s' : Slot}
    {lru' : List (ℕ × Entry × ℕ)} {tick' transit' : ℕ} {hand' : Set (ℕ × Entry × ℕ)}
    (hrep : Replaced (state e).slots s st.slots s')
    (htransit : transit' + s'.bytes = transit + s.bytes)
    (hindex : Indexed (Function.update (filedOf state) (e, s.idx) s'.filed?) lru' tick' hand') :
    BooksOn cfg (Function.update state e st) table used lru' tick' hand' transit' := by
  have he : e ∈ table := h.live e (ne_nil_of_mem hrep.old_mem)
  refine ⟨h.tidy_update (hrep.tidy (h.tidy e)), h.live_update fun _ => he, ?_, h.used_le, ?_⟩
  · have hsum := heldBytes_update state he st
    have hbytes := hrep.bytes
    have hused := h.used_eq
    omega
  · rw [filedOf_update (hrep.filedIn (h.tidy e))]
    exact hindex

theorem remove {s : Slot}
    {lru' : List (ℕ × Entry × ℕ)} {used' transit' : ℕ} {hand' : Set (ℕ × Entry × ℕ)}
    (hperm : (state e).slots.Perm (s :: st.slots)) (hle : used' ≤ used)
    (htransit : used' + transit + s.bytes = used + transit')
    (hindex : Indexed (Function.update (filedOf state) (e, s.idx) none) lru' tick hand') :
    BooksOn cfg (Function.update state e st) table used' lru' tick hand' transit' := by
  have hmem : s ∈ (state e).slots := hperm.mem_iff.mpr mem_cons_self
  have he : e ∈ table := h.live e (ne_nil_of_mem hmem)
  refine ⟨h.tidy_update ((h.tidy e).of_perm_cons hperm), h.live_update fun _ => he, ?_,
    hle.trans h.used_le, ?_⟩
  · have hsum := heldBytes_update state he st
    have hbytes := readyBytes_perm_cons hperm
    have hused := h.used_eq
    omega
  · rw [filedOf_update (filedIn_remove (h.tidy e).nodup hperm)]
    exact hindex

theorem drop_ready (hperm : (state e).slots.Perm (⟨j, .ready data l k⟩ :: st.slots)) :
    BooksOn cfg (Function.update state e st) table used (lru.filter fun x => x.1 ≠ k) tick hand
      (transit + data.length) :=
  h.remove hperm le_rfl (by simp [Slot.bytes, add_assoc])
    (h.index.remove (h.filed_of_mem (hperm.mem_iff.mpr mem_cons_self)))

theorem touch (hrep : Replaced (state e).slots ⟨j, .ready data l k⟩ st.slots
      ⟨j, .ready data tick k⟩) :
    BooksOn cfg (Function.update state e st) table used lru (tick + 1) hand transit :=
  h.replace hrep rfl (h.index.touch (h.filed_of_mem hrep.old_mem))

/-- A unit that was being fetched is ready; its entry is in hand, and its bytes are no
longer in transit. -/
theorem fill {j rest : ℕ}
    {fl : Flight}
    (hrep : Replaced (state e).slots ⟨j, .loading fl⟩ st.slots ⟨j, .ready data tick tick⟩)
    (hdata : transit = rest + data.length) :
    BooksOn cfg (Function.update state e st) table used lru (tick + 1)
      (insert (tick, e, j) hand) rest := by
  refine h.replace hrep hdata.symm (h.index.hold ?_)
  have hfind := (find_idx_iff (h.tidy e).nodup).mpr ⟨hrep.old_mem, rfl⟩
  simp only [filedOf, filedIn]
  rw [hfind]
  rfl

theorem file {j k l : ℕ}
    (hx : (k, e, j) ∈ hand) (hfiled : filedIn (state e).slots j = some (l, k)) :
    BooksOn cfg state table used ((k, e, j) :: lru.filter fun x => x.1 ≠ k) tick
      (hand \ {(k, e, j)}) transit :=
  ⟨h.tidy, h.live, h.used_eq, h.used_le, h.index.file hx hfiled⟩

theorem pop (hx : x ∈ lru) :
    BooksOn cfg state table used (lru.filter fun y => y.1 ≠ x.1) tick (insert x hand) transit :=
  ⟨h.tidy, h.live, h.used_eq, h.used_le, h.index.pop hx⟩

theorem forget {j k : ℕ}
    (hx : ∀ l, filedIn (state e).slots j ≠ some (l, k)) :
    BooksOn cfg state table used lru tick (hand \ {(k, e, j)}) transit :=
  ⟨h.tidy, h.live, h.used_eq, h.used_le, h.index.forget hx⟩

theorem refile (hrep : Replaced (state e).slots ⟨j, .ready data l k⟩ st.slots
      ⟨j, .ready data l l⟩) (hx : (k, e, j) ∈ hand) (hlt : k < l) :
    BooksOn cfg (Function.update state e st) table used
      ((l, e, j) :: lru.filter fun x => x.1 ≠ l) tick (hand \ {(k, e, j)}) transit :=
  h.replace hrep rfl (h.index.refile hx (h.filed_of_mem hrep.old_mem) hlt)

theorem evict (hperm : (state e).slots.Perm (⟨j, .ready data l k⟩ :: st.slots))
    (hx : (k, e, j) ∈ hand) :
    BooksOn cfg (Function.update state e st) table (used - data.length) lru tick
      (hand \ {(k, e, j)}) transit := by
  have hmem : ⟨j, .ready data l k⟩ ∈ (state e).slots := hperm.mem_iff.mpr mem_cons_self
  refine h.remove hperm (Nat.sub_le _ _) ?_ (h.index.evict hx (h.filed_of_mem hmem))
  -- the unit's bytes are among those of the files in the table
  have hbytes : readyBytes (state e).slots = data.length + readyBytes st.slots :=
    readyBytes_perm_cons hperm
  have he : e ∈ table := h.live e (ne_nil_of_mem hmem)
  have hsum := heldBytes_update state he st
  have hused := h.used_eq
  simp only [Slot.bytes]
  omega

theorem sweep {table' : List Entry}
    (hsub : table' ⊆ table) (hkeep : ∀ e ∈ table, (state e).slots ≠ [] → e ∈ table') :
    BooksOn cfg state table' used lru tick hand transit := by
  refine ⟨h.tidy, fun e he => hkeep e (h.live e he) he, ?_, h.used_le, h.index⟩
  have hsum : heldBytes state table' = heldBytes state table := by
    apply Finset.sum_subset
    · exact fun e he => mem_toFinset.mpr (hsub (mem_toFinset.mp he))
    · intro e he hnot
      have hnil : (state e).slots = [] := by
        by_contra hne
        exact hnot (mem_toFinset.mpr (hkeep e (mem_toFinset.mp he) hne))
      simp [hnil, readyBytes]
  rw [hsum]
  exact h.used_eq

theorem add_entry (he : e ∉ table)
    (hst : st.slots = []) :
    BooksOn cfg (Function.update state e st) (e :: table) used lru tick hand transit := by
  have hold : (state e).slots = [] := by
    by_contra hne
    exact he (h.live e hne)
  have h' : BooksOn cfg (update state e st) table used lru tick hand transit :=
    h.same_slots (hst.trans hold.symm)
  refine ⟨h'.tidy, fun d hd => mem_cons_of_mem _ (h'.live d hd), ?_, h'.used_le, h'.index⟩
  have hsum : heldBytes (update state e st) (e :: table) =
      heldBytes (update state e st) table := by
    have hnot : e ∉ table.toFinset := by simpa using he
    simp only [heldBytes]
    rw [toFinset_cons, Finset.sum_insert hnot]
    simp [hst, readyBytes]
  rw [hsum]
  exact h'.used_eq

end BooksOn

/-! ## What the threads have in transit and in hand -/

section Places

variable (cfg : CacheConfig)

def Why.reserved : Why → ℕ
  | .failed l => l.want cfg
  | _ => 0

/-- The part of a load's reservation that stands for units not installed yet. -/
def Pc.reserved : Pc → ℕ
  | .clear _ why | .clearGive _ why _ => why.reserved cfg
  | .fetch l | .fetchFailed l | .loadFile l _ | .guardGive l => l.want cfg
  | .loadSlot l _ _ installed _ | .loadGive l _ installed _ => l.want cfg - installed
  | .loadLru l run j installed _ _ => l.want cfg - (installed + (l.unitOf cfg run j).length)
  | _ => 0

/-- Bytes of a unit that was dropped, on their way back. -/
def Pc.returning : Pc → ℕ
  | .clearGive _ _ n | .missGive _ n => n
  | _ => 0

def Pc.transit (pc : Pc) : ℕ := pc.reserved cfg + pc.returning

/-- The entry of the LRU index a thread has in hand: the one it took out and has not dealt
with, or the one it is about to file. -/
def Pc.inHand : Pc → List (ℕ × Entry × ℕ)
  | .evictFile _ key e idx => [(key, e, idx)]
  | .loadLru l _ j _ _ tick => [(tick, l.read.entry, j)]
  | _ => []

theorem Pc.inHand_nodup (pc : Pc) : pc.inHand.Nodup := by
  cases pc <;> simp [Pc.inHand]

/-- Bytes of the run of a load that come before unit `j`. -/
def Load.before (l : Load) (j : ℕ) : ℕ :=
  min (j * cfg.block) l.read.version.size - l.start cfg

/-- What a thread knows of its own load, and of the file it has locked. -/
def Pc.Counts (c : Cache) : Pc → Prop
  | .missRoom m | .missGive m _ =>
    ∀ s ∈ (c.state m.read.entry).slots, s.idx < m.read.idx ∨ m.stop ≤ s.idx
  | .loadSlot l _ j installed _ => installed ≤ l.before cfg j ∧ j ≤ l.flight.stop
  | .loadLru l _ j installed _ tick => installed ≤ l.before cfg j ∧ j < l.flight.stop ∧
      filedIn (c.state l.read.entry).slots j = some (tick, tick)
  | .loadGive l _ installed _ => installed ≤ l.want cfg
  | .reserveCas l cur => cur + l.want cfg ≤ cfg.maxBytes
  | _ => True

theorem Load.before_succ {l : Load} (hbase : l.flight.base ≤ j) :
    l.before cfg j + min cfg.block (l.read.version.size - j * cfg.block) =
      l.before cfg (j + 1) := by
  have hle : l.flight.base * cfg.block ≤ j * cfg.block := Nat.mul_le_mul_right _ hbase
  simp only [Load.before, Load.start, add_one_mul]
  omega

theorem Load.before_mono (l : Load) {i : ℕ} (hij : i ≤ j) : l.before cfg i ≤ l.before cfg j := by
  have hle : i * cfg.block ≤ j * cfg.block := Nat.mul_le_mul_right _ hij
  simp only [Load.before]
  omega

theorem RunOk.length_unitOf {content : Name → Version → ℕ → UInt8} {R : Set (Name × Version)}
    {l : Load} (h : RunOk cfg content R l run first) (hbase : l.flight.base ≤ j)
    (hstop : j < l.flight.stop) :
    (l.unitOf cfg run j).length = min cfg.block (l.read.version.size - j * cfg.block) := by
  rw [Load.unitOf, h.run_eq, unit_of_run cfg content hbase hstop, unitBytes,
    Window.length_window]

theorem Read.next_settled (r : Read) (data : List UInt8) (got : Got) (c : Cache) :
    (r.next cfg data got).inHand = [] ∧ (r.next cfg data got).transit cfg = 0 ∧
      (r.next cfg data got).Counts cfg c := by
  unfold Read.next
  dsimp only
  split_ifs <;> exact ⟨rfl, rfl, trivial⟩

end Places

def Books (cfg : CacheConfig) (c : Cache) (hand : Set (ℕ × Entry × ℕ)) (transit : ℕ) : Prop :=
  BooksOn cfg c.state c.table c.used c.lru c.tick hand transit

/-- The books after a step of one thread, whatever the others have: `hand` is what all had in
hand before, `n` what the others have in transit. -/
structure Settled (cfg : CacheConfig) (hand : Set (ℕ × Entry × ℕ)) (n : ℕ) (pc : Pc)
    (c' : Cache) (pc' : Pc) : Prop where
  books : Books cfg c' {x | x ∈ pc'.inHand ∨ x ∈ hand ∧ x ∉ pc.inHand} (n + pc'.transit cfg)
  fresh : ∀ x ∈ pc'.inHand, x ∈ pc.inHand ∨ x ∉ hand
  counts : pc'.Counts cfg c'

section Steps

variable {cfg : CacheConfig} {content : Name → Version → ℕ → UInt8} {R : Set (Name × Version)}
  {c c' : Cache} {env : Env} {inUse : Entry → Bool} {hand : Set (ℕ × Entry × ℕ)} {n : ℕ}
  {pc pc' : Pc}

theorem settled_of_books (h : Books cfg c' hand (n + pc'.transit cfg))
    (hcounts : pc'.Counts cfg c') (hpc' : pc'.inHand = []) (hpc : pc.inHand = []) :
    Settled cfg hand n pc c' pc' := by
  refine ⟨?_, by simp [hpc'], hcounts⟩
  have hset : {x | x ∈ pc'.inHand ∨ x ∈ hand ∧ x ∉ pc.inHand} = hand := by
    ext x
    simp [hpc, hpc']
  rw [hset]
  exact h

theorem cleared_settled {why : Why} (hb : Books cfg c hand (n + why.reserved cfg)) :
    Settled cfg hand n (.clear e why) (c.cleared e why).1 (c.cleared e why).2 := by
  rcases why with (_ | _ | ⟨root, path, rest⟩) | v | l | r
  case failed => exact settled_of_books hb trivial rfl rfl
  all_goals exact settled_of_books (hb.same_slots rfl) trivial rfl rfl

theorem clear_settled {why : Why} (hb : Books cfg c hand (n + why.reserved cfg)) :
    Settled cfg hand n (.clear e why) (c.clear e why).1 (c.clear e why).2 := by
  unfold Cache.clear
  split
  · exact cleared_settled hb
  · next heq =>
    refine settled_of_books ?_ trivial rfl rfl
    simp only [Pc.transit, Pc.reserved, Pc.returning, ← add_assoc]
    exact BooksOn.drop_ready hb (List.Perm.of_eq heq)
  · next heq =>
    refine settled_of_books ?_ trivial rfl rfl
    exact BooksOn.drop_loading hb (List.Perm.of_eq heq)

section

variable (hb : Books cfg c hand (n + 0))

include hb

theorem registerTable_settled {a : Registration}
    (hserial : ∀ e ∈ c.table, e.serial < c.nextEntry) :
    Settled cfg hand n (.registerTable a) (c.registerTable env inUse a).1
      (c.registerTable env inUse a).2 := by
  rcases c.registerTable_cases env inUse a with heq | ⟨-, c₁, hc₁, hout⟩
  · rw [heq]
    exact settled_of_books hb trivial rfl rfl
  · have hsub : c₁.table ⊆ c.table := by
      rcases hc₁ with rfl | rfl
      · exact List.Subset.refl _
      · exact fun _ he => mem_of_mem_filter he
    have h₁ : Books cfg c₁ hand (n + 0) := by
      rcases hc₁ with rfl | rfl
      · exact hb
      · apply hb.sweep hsub
        intro e he hne
        simp [he, hne]
    rcases hout with ⟨e, -, -, heq⟩ | ⟨-, heq⟩
    · rw [heq]
      exact settled_of_books h₁ trivial rfl rfl
    · rw [heq]
      refine settled_of_books (h₁.add_entry ?_ rfl) trivial rfl rfl
      exact fun he => lt_irrefl _ (hserial _ (hsub he))

theorem pathTable_settled {root : ℕ} {path : List Char}
    (hserial : ∀ e ∈ c.table, e.serial < c.nextEntry) :
    Settled cfg hand n (.pathTable root path) (c.pathTable root path).1
      (c.pathTable root path).2 := by
  rcases c.pathTable_cases root path with heq | ⟨-, c₁, hit, heq, -, hc₁⟩
  · rw [heq]
    exact settled_of_books hb trivial rfl rfl
  · rw [heq]
    rcases hc₁ with ⟨rfl, -⟩ | ⟨-, rfl⟩
    · exact settled_of_books hb trivial rfl rfl
    · refine settled_of_books (hb.add_entry ?_ rfl) trivial rfl rfl
      exact fun he => lt_irrefl _ (hserial _ he)

theorem unit_settled {r : Read} :
    Settled cfg hand n (.unit r) (c.unit cfg env r).1 (c.unit cfg env r).2 := by
  unfold Cache.unit
  split
  · exact settled_of_books hb trivial rfl rfl
  · split
    · exact settled_of_books hb trivial rfl rfl
    · split
      · next idx data last lruKey hfind =>
        obtain ⟨hhand, htransit, hcounts⟩ := r.next_settled cfg data .hit
          (c.draw.modify r.entry fun st => st.touch r.idx c.tick)
        refine settled_of_books ?_ hcounts hhand rfl
        rw [htransit]
        exact hb.touch (State.touch_replaced hfind)
      · next idx fl hfind =>
        have hlater : BooksOn cfg c.state c.table c.used c.lru (c.tick + 1) hand (n + 0) :=
          hb.later (Nat.le_succ _)
        split_ifs
        · exact settled_of_books (hlater.drop_flight fl) trivial rfl rfl
        · exact settled_of_books hlater trivial rfl rfl
      · next hfind =>
        have hlater : BooksOn cfg c.state c.table c.used c.lru (c.tick + 1) hand (n + 0) :=
          hb.later (Nat.le_succ _)
        refine settled_of_books (hlater.same_slots rfl) ?_ rfl rfl
        -- neither the missing unit nor those its run grew over have a slot
        intro s hs
        have hs' : s ∈ (c.state r.entry).slots := by simpa [Miss.begin] using hs
        have hne : s.idx ≠ r.idx := by simpa using find?_eq_none.mp hfind s hs'
        rcases Nat.lt_or_gt_of_ne hne with hlt | hgt
        · exact .inl hlt
        · exact .inr (State.runEnd_free hs' hgt)

theorem startLoad_settled {m : Miss} {stop : ℕ}
    (hmem : m.read.entry ∈ c.table)
    (hfree : ∀ s ∈ (c.state m.read.entry).slots, s.idx < m.read.idx ∨ stop ≤ s.idx)
    (hroom : (c.state m.read.entry).slots.length + (stop - m.read.idx) ≤ cfg.blocksPerFile) :
    Settled cfg hand n (.missRoom m) (c.startLoad cfg m stop).1 (c.startLoad cfg m stop).2 := by
  have htidy : Tidy cfg.blocksPerFile ((c.state m.read.entry).install cfg
      ⟨c.nextFlight, m.read.entry, m.read.version, m.read.idx, stop⟩ m.run).slots :=
    State.install_tidy (hb.tidy m.read.entry) hfree hroom
  refine settled_of_books ?_ trivial rfl rfl
  exact hb.reslot htidy (fun _ => hmem) (State.install_filedIn (hb.tidy m.read.entry) htidy)
    State.install_bytes

theorem missRoom_settled {m : Miss}
    (hmem : m.read.entry ∈ c.table) (hcounts : (Pc.missRoom m).Counts cfg c) :
    Settled cfg hand n (.missRoom m) (c.missRoom cfg m).1 (c.missRoom cfg m).2 := by
  unfold Cache.missRoom
  dsimp only
  split
  · next hroom => exact startLoad_settled hb hmem hcounts hroom
  · next hfull =>
    split
    · next idx data last lruKey hold =>
      have hperm := State.remove_perm (State.oldest_mem hold)
      have hdrop := hb.drop_ready hperm
      rw [add_assoc] at hdrop
      refine settled_of_books hdrop ?_ rfl rfl
      intro s hs
      apply hcounts s
      have hs' : s ∈ ((c.state m.read.entry).remove ⟨idx, .ready data last lruKey⟩).slots := by
        simpa using hs
      exact hperm.mem_iff.mpr (mem_cons_of_mem _ hs')
    · split_ifs with hroom
      · apply startLoad_settled hb hmem
        · intro s hs
          rcases hcounts s hs with hlt | hle
          · exact .inl hlt
          · exact .inr (by omega)
        · omega
      · exact settled_of_books hb trivial rfl rfl

end

theorem settled_of_dropped (h : Books cfg c' (hand \ {x}) (n + pc'.transit cfg))
    (hcounts : pc'.Counts cfg c') (hpc : pc.inHand = [x]) (hpc' : pc'.inHand = []) :
    Settled cfg hand n pc c' pc' := by
  refine ⟨?_, by simp [hpc'], hcounts⟩
  have hset : {y | y ∈ pc'.inHand ∨ y ∈ hand ∧ y ∉ pc.inHand} = hand \ {x} := by
    ext y
    simp [hpc, hpc']
  rw [hset]
  exact h

theorem settled_of_taken (h : Books cfg c' (insert x hand) (n + pc'.transit cfg))
    (hpc : pc.inHand = []) (hpc' : pc'.inHand = [x]) (hx : x ∉ hand) (hcounts : pc'.Counts cfg c') :
    Settled cfg hand n pc c' pc' := by
  refine ⟨?_, by simp [hpc', hx], hcounts⟩
  have hset : {y | y ∈ pc'.inHand ∨ y ∈ hand ∧ y ∉ pc.inHand} = insert x hand := by
    ext y
    simp [hpc, hpc']
  rw [hset]
  exact h

variable {l : Load}

theorem evictPop_settled (hb : Books cfg c hand (n + 0)) :
    Settled cfg hand n (.evictPop l) (c.evictPop l).1 (c.evictPop l).2 := by
  unfold Cache.evictPop
  split
  · exact settled_of_books hb trivial rfl rfl
  · next key e idx hmin =>
    have hmem : (key, e, idx) ∈ c.lru := argmin_mem hmin
    exact settled_of_taken (hb.pop hmem) rfl rfl (hb.index.sound _ hmem).2 trivial

theorem evictFile_settled {key idx : ℕ} (hb : Books cfg c hand (n + 0))
    (hx : (key, e, idx) ∈ hand) :
    Settled cfg hand n (.evictFile l key e idx) (c.evictFile l key e idx).1
      (c.evictFile l key e idx).2 := by
  unfold Cache.evictFile
  split
  · next hgone =>
    -- an entry that left the table has no slots
    have hnil : (c.state e).slots = [] := by
      by_contra hne
      exact hgone (hb.live e hne)
    refine settled_of_dropped (hb.forget ?_) trivial rfl rfl
    simp [hnil, filedIn]
  · split
    · refine ⟨?_, fun x hx => .inl hx, trivial⟩
      have hset : {x | x ∈ (Pc.evictFile l key e idx).inHand ∨
          x ∈ hand ∧ x ∉ (Pc.evictFile l key e idx).inHand} = hand := by
        ext x
        simp only [Pc.inHand, mem_singleton, Set.mem_ofPred_eq]
        by_cases hxe : x = (key, e, idx)
        · simp [hxe, hx]
        · simp [hxe]
      rw [hset]
      exact hb
    · split
      · next j data last lruKey hfind =>
        have hfound := find?_some hfind
        simp only [Slot.filedUnder, Bool.and_eq_true, decide_eq_true_eq] at hfound
        obtain ⟨rfl, rfl⟩ := hfound
        split_ifs with hlast
        · exact settled_of_dropped (hb.refile (State.refile_replaced hfind) hx hlast) trivial rfl rfl
        · refine settled_of_dropped (hb.evict (l := last) ?_ hx) trivial rfl rfl
          rw [State.rememberPressure_slots]
          exact State.remove_perm (mem_of_find?_eq_some hfind)
      · next hnone =>
        refine settled_of_dropped (hb.forget ?_) trivial rfl rfl
        intro l' hfiled
        obtain ⟨data, hs⟩ := (filedIn_eq_some_iff_mem (hb.tidy e).nodup).mp hfiled
        cases hfind : (c.state e).slots.find? fun s => s.idx = idx && s.filedUnder key with
        | none => simpa [Slot.filedUnder] using find?_eq_none.mp hfind _ hs
        | some t =>
          obtain ⟨j, kind⟩ := t
          cases kind with
          | ready data last lruKey => exact hnone j data last lruKey hfind
          | loading fl => simpa [Slot.filedUnder] using find?_some hfind

variable {installed : ℕ}

theorem loadSlot_settled (hb : Books cfg c hand (n + (l.want cfg - installed)))
    (hrun : RunOk cfg content R l run first) (hbase : l.flight.base ≤ j)
    (hcounts : installed ≤ l.before cfg j ∧ j ≤ l.flight.stop) :
    Settled cfg hand n (.loadSlot l run j installed first)
      (c.loadSlot cfg l run j installed first).1 (c.loadSlot cfg l run j installed first).2 := by
  obtain ⟨hinstalled, hj⟩ := hcounts
  unfold Cache.loadSlot
  split
  · refine settled_of_books hb ?_ rfl rfl
    exact hinstalled.trans (l.before_mono cfg hj)
  · next hstop =>
    rw [Nat.not_le] at hstop
    split
    · refine settled_of_books hb ⟨?_, hstop⟩ rfl rfl
      exact hinstalled.trans (l.before_mono cfg (Nat.le_succ j))
    · next s hfind =>
      have hfound := find?_some hfind
      simp only [Slot.waitsFor, Bool.and_eq_true, decide_eq_true_eq] at hfound
      obtain ⟨idx, kind⟩ := s
      dsimp only at hfound
      obtain ⟨rfl, rfl⟩ := hfound
      -- the unit fits in what is left of the reservation
      have hlen := hrun.length_unitOf cfg hbase hstop
      have hsucc := l.before_succ cfg hbase
      have hwant : l.before cfg (idx + 1) ≤ l.want cfg := l.before_mono cfg hstop
      have hrep := State.fill_replaced (l.unitOf cfg run idx) c.tick hfind
      refine settled_of_taken (hb.fill hrep ?_) rfl rfl ?_ ⟨hinstalled, hstop, ?_⟩
      · simp only [Pc.transit, Pc.reserved, Pc.returning]
        omega
      · exact fun hhand => lt_irrefl _ (hb.index.fst_lt_of_hand hhand)
      · simp only [Cache.modify_state, update_self, Cache.draw_state]
        rw [hrep.filedIn (hb.tidy l.read.entry), update_self]
        rfl

theorem loadLru_settled {tick : ℕ}
    (hb : Books cfg c hand (n + (Pc.loadLru l run j installed first tick).transit cfg))
    (hx : (tick, l.read.entry, j) ∈ hand) (hrun : RunOk cfg content R l run first)
    (hbase : l.flight.base ≤ j) (hcounts : (Pc.loadLru l run j installed first tick).Counts cfg c) :
    Settled cfg hand n (.loadLru l run j installed first tick)
      (c.loadLru cfg l run j installed first tick).1
      (c.loadLru cfg l run j installed first tick).2 := by
  obtain ⟨hinstalled, hstop, hfiled⟩ := hcounts
  refine settled_of_dropped (hb.file hx hfiled) ⟨?_, hstop⟩ rfl rfl
  have hlen := hrun.length_unitOf cfg hbase hstop
  have hsucc := l.before_succ cfg hbase
  omega

theorem loadGive_settled (hb : Books cfg c hand (n + (l.want cfg - installed))) :
    Settled cfg hand n (.loadGive l run installed first)
      (c.loadGive cfg l run installed first).1 (c.loadGive cfg l run installed first).2 := by
  cases first <;> exact settled_of_books (hb.give rfl) trivial rfl rfl

theorem judge_settled {r : Read} (hb : Books cfg c hand (n + 0)) :
    Settled cfg hand n (.judge r) (c.judge cfg r).1 (c.judge cfg r).2 := by
  unfold Cache.judge
  split
  · exact settled_of_books hb trivial rfl rfl
  · split
    case h_1 => exact settled_of_books (hb.same_slots rfl) trivial rfl rfl
    case h_5 =>
      dsimp only
      split_ifs
      · exact settled_of_books (hb.same_slots rfl) trivial rfl rfl
      · exact settled_of_books (BooksOn.same_slots (hb.same_slots rfl) rfl) trivial rfl rfl
      · exact settled_of_books (BooksOn.same_slots (hb.same_slots rfl) rfl) trivial rfl rfl
    all_goals exact settled_of_books hb trivial rfl rfl

theorem step_settled (hpc : PcOk cfg content R pc) (hcounts : pc.Counts cfg c)
    (harcs : ∀ e ∈ pc.arcs, e ∈ c.table) (hserial : ∀ e ∈ c.table, e.serial < c.nextEntry)
    (hin : ∀ x ∈ pc.inHand, x ∈ hand) (hb : Books cfg c hand (n + pc.transit cfg)) :
    Settled cfg hand n pc (c.step cfg content env inUse pc).1
      (c.step cfg content env inUse pc).2 := by
  cases pc with
  | registerTable a => exact registerTable_settled hb hserial
  | pathTable root path => exact pathTable_settled hb hserial
  | clear e why => exact clear_settled hb
  | unit r => exact unit_settled hb
  | missRoom m => exact missRoom_settled hb (harcs _ mem_cons_self) hcounts
  | evictPop l => exact evictPop_settled hb
  | evictFile l key e idx => exact evictFile_settled hb (hin _ mem_cons_self)
  | loadSlot l run j installed first => exact loadSlot_settled hb hpc.1 hpc.2 hcounts
  | loadLru l run j installed first tick =>
    exact loadLru_settled hb (hin _ mem_cons_self) hpc.1 hpc.2 hcounts
  | loadGive l run installed first => exact loadGive_settled hb
  | judge r => exact judge_settled hb
  | clearGive e why m =>
    exact settled_of_books (hb.give (add_assoc n (why.reserved cfg) m).symm) trivial rfl rfl
  | wait r fl =>
    simp only [Cache.step, Cache.wait]
    split
    · obtain ⟨hhand, htransit, hcounts'⟩ := r.next_settled cfg _ .waited c
      exact settled_of_books (htransit.symm ▸ hb) hcounts' hhand rfl
    · exact settled_of_books hb trivial rfl rfl
    · split_ifs <;> exact settled_of_books hb trivial rfl rfl
  | waitDrop r fl =>
    simp only [Cache.step, Cache.waitDrop]
    split_ifs
    · exact settled_of_books hb trivial rfl rfl
    · exact settled_of_books (hb.drop_flight fl) trivial rfl rfl
  | missGive m k => exact settled_of_books (hb.give (Nat.add_assoc n 0 k).symm) hcounts rfl rfl
  | reserve l =>
    simp only [Cache.step, Cache.reserve]
    split_ifs with hbig hfit
    · exact settled_of_books hb trivial rfl rfl
    · exact settled_of_books hb hfit rfl rfl
    · exact settled_of_books hb trivial rfl rfl
  | reserveCas l cur =>
    simp only [Cache.step, Cache.reserveCas]
    split_ifs with hcur
    · subst hcur
      exact settled_of_books (hb.take hcounts) trivial rfl rfl
    · exact settled_of_books hb trivial rfl rfl
  | loadFile l run =>
    simp only [Cache.step, Cache.loadFile]
    split_ifs
    · exact settled_of_books hb trivial rfl rfl
    · exact settled_of_books hb trivial rfl rfl
    · exact settled_of_books hb ⟨Nat.zero_le _, hpc.base_lt.le⟩ rfl rfl
  | loadComplete l run data =>
    obtain ⟨hhand, htransit, hcounts'⟩ := l.read.next_settled cfg data
      (.fetched l.counts l.pressure) (c.complete l.flight (some (l.flight.base, run)))
    exact settled_of_books (htransit.symm ▸ hb) hcounts' hhand rfl
  | guardGive l => exact settled_of_books (BooksOn.give hb rfl) trivial rfl rfl
  | guardDrop l =>
    simp only [Cache.step, Cache.guardDrop]
    split_ifs
    · exact settled_of_books hb trivial rfl rfl
    · exact settled_of_books (hb.drop_flight l.flight) trivial rfl rfl
  | _ =>
    -- The others leave the slots of every file alone.
    simp only [Cache.step, Cache.registerFile, Cache.invalidate, Cache.pathFiles, Cache.read,
      Cache.fetch, Cache.fetchFailed]
    (repeat' split) <;> first
      | exact settled_of_books hb trivial rfl rfl
      | exact settled_of_books (hb.same_slots rfl) trivial rfl rfl
      | exact settled_of_books (BooksOn.same_slots (hb.same_slots rfl) rfl) trivial rfl rfl

end Steps

theorem Pc.Counts.frame {cfg : CacheConfig} {c c' : Cache} {pc : Pc} (h : pc.Counts cfg c)
    (hsame : ∀ e, .file e ∈ pc.held → c'.state e = c.state e) : pc.Counts cfg c' := by
  cases pc with
  | missRoom m | missGive m n =>
    simp only [Pc.Counts] at h ⊢
    rw [hsame m.read.entry mem_cons_self]
    exact h
  | loadLru l run j installed first tick =>
    simp only [Pc.Counts] at h ⊢
    rw [hsame l.read.entry mem_cons_self]
    exact h
  | _ => exact h

/-- The invariant of every run: the books balance over all threads. -/
structure Balanced (cfg : CacheConfig) (content : Name → Version → ℕ → UInt8) {ι : Type*}
    [Fintype ι] (σ : System ι) : Prop extends Transparent cfg content Set.univ σ where
  counts : ∀ i, (σ.pc i).Counts cfg σ.cache
  hands : Custody.Exclusive fun i => (σ.pc i).inHand
  books : Books cfg σ.cache {x | Custody.Owned (fun i => (σ.pc i).inHand) x}
    (∑ i, (σ.pc i).transit cfg)

namespace Balanced

variable {ι : Type*} [Fintype ι] {σ : System ι} {cfg : CacheConfig}
  {content : Name → Version → ℕ → UInt8}

theorem new : Balanced cfg content (System.new : System ι) where
  toTransparent := Transparent.new
  counts := fun _ => trivial
  hands := Custody.exclusive_of_empty fun _ => rfl
  books := by
    have hhand : {x | Custody.Owned (fun i => ((System.new : System ι).pc i).inHand) x} = ∅ := by
      ext x
      exact iff_of_false (Custody.not_owned_of_empty fun _ => rfl) (Set.notMem_empty x)
    have htransit : ∑ i, ((System.new : System ι).pc i).transit cfg = 0 :=
      Finset.sum_eq_zero fun _ _ => rfl
    rw [hhand, htransit]
    refine ⟨fun _ => ⟨nodup_nil, Nat.zero_le _⟩, fun _ h => absurd rfl h, rfl,
      Nat.zero_le _, ?_⟩
    exact LazyLru.indexed_empty 1

variable [DecidableEq ι]

section

variable (h : Balanced cfg content σ)

include h

theorem of_settled {i : ι} {c' : Cache} {pc' : Pc}
    (ht : Transparent cfg content Set.univ (⟨c', Function.update σ.pc i pc'⟩ : System ι))
    (hsame : ∀ j, j ≠ i → ∀ e, .file e ∈ (σ.pc j).held → c'.state e = σ.cache.state e)
    (hnd : pc'.inHand.Nodup)
    (hs : Settled cfg {x | Custody.Owned (fun i => (σ.pc i).inHand) x}
      (∑ j ∈ Finset.univ.erase i, (σ.pc j).transit cfg) (σ.pc i) c' pc') :
    Balanced cfg content (⟨c', Function.update σ.pc i pc'⟩ : System ι) := by
  have hupd : (fun j => (update σ.pc i pc' j).inHand) =
      update (fun j => (σ.pc j).inHand) i pc'.inHand := by
    funext j
    exact apply_update (fun _ => Pc.inHand) σ.pc i pc' j
  refine ⟨ht, ?_, ?_, ?_⟩
  · exact Transition.forall_update (P := fun pc : Pc => pc.Counts cfg c') hs.counts
      fun j hj => (h.counts j).frame (hsame j hj)
  · simp only
    rw [hupd]
    exact h.hands.update hnd hs.fresh
  · have hhand : {x | Custody.Owned (fun j => (update σ.pc i pc' j).inHand) x} =
        {x | x ∈ pc'.inHand ∨ x ∈ {x | Custody.Owned (fun i => (σ.pc i).inHand) x} ∧
          x ∉ (σ.pc i).inHand} := by
      ext x
      rw [Set.mem_ofPred_eq, hupd]
      exact Custody.owned_update_iff h.hands
    have hsum : ∑ j, (update σ.pc i pc' j).transit cfg =
        (∑ j ∈ Finset.univ.erase i, (σ.pc j).transit cfg) + pc'.transit cfg := by
      rw [← Finset.sum_erase_add _ _ (Finset.mem_univ i), update_self]
      congr 1
      apply Finset.sum_congr rfl
      intro j hj
      rw [update_of_ne (Finset.ne_of_mem_erase hj)]
    simp only
    rw [hhand, hsum]
    exact hs.books

theorem step_thread (i : ι) (env : Env) :
    Balanced cfg content (σ.act cfg content (.step i env)) := by
  have hsum : ∑ j, (σ.pc j).transit cfg =
      (∑ j ∈ Finset.univ.erase i, (σ.pc j).transit cfg) + (σ.pc i).transit cfg :=
    (Finset.sum_erase_add _ _ (Finset.mem_univ i)).symm
  have hbooks := h.books
  rw [hsum] at hbooks
  apply h.of_settled (h.toTransparent.step_thread i env)
  · exact fun j hj e he => h.toGuarded.frame cfg content env hj he
  · exact Pc.inHand_nodup _
  · exact step_settled (h.place i) (h.counts i) (h.arcs i) h.serial_lt (fun x hx => ⟨i, hx⟩) hbooks

theorem call {i : ι} {pc : Pc} (hidle : σ.pc i = .idle)
    (ht : Transparent cfg content Set.univ (σ.call i pc)) (hhand : pc.inHand = [])
    (htransit : pc.transit cfg = 0) (hcounts : pc.Counts cfg σ.cache) :
    Balanced cfg content (σ.call i pc) := by
  have hsum : ∑ j, (σ.pc j).transit cfg =
      (∑ j ∈ Finset.univ.erase i, (σ.pc j).transit cfg) + pc.transit cfg := by
    rw [← Finset.sum_erase_add _ _ (Finset.mem_univ i), hidle, htransit]
    rfl
  have hbooks := h.books
  rw [hsum] at hbooks
  apply h.of_settled ht (fun _ _ _ _ => rfl) (by simp [hhand])
  exact settled_of_books hbooks hcounts hhand (by rw [hidle]; rfl)

theorem act (ev : Event ι) :
    Balanced cfg content (σ.act cfg content ev) := by
  have ht := h.toTransparent.act ev fun _ _ _ => Set.mem_univ _
  cases ev with
  | step i env => exact h.step_thread i env
  | register i | invalidatePath i =>
    simp only [System.act] at ht ⊢
    split_ifs at ht ⊢ with hidle
    · exact h.call hidle ht rfl rfl trivial
    · exact h
  | invalidate i f =>
    simp only [System.act] at ht ⊢
    split_ifs at ht ⊢ with hidle
    · exact h.call hidle.1 ht rfl rfl trivial
    · exact h
  | read i f off asked =>
    simp only [System.act, System.beginRead] at ht ⊢
    split_ifs at ht ⊢ with hidle
    · split
      · exact h
      · next v hv =>
        rw [hv] at ht
        dsimp only at ht
        split_ifs at ht ⊢
        · exact h.call hidle.1 ht rfl rfl trivial
        · exact h
    · exact h
  | cloneRef f =>
    simp only [System.act] at ht ⊢
    split_ifs at ht ⊢
    · exact ⟨ht, h.counts, h.hands, h.books⟩
    · exact h
  | dropRef f => exact ⟨ht, h.counts, h.hands, h.books⟩

theorem step (ev : Event ι) :
    Balanced cfg content (σ.step cfg content ev) :=
  let h' := h.act ev
  ⟨h.toTransparent.step ev fun _ _ _ => Set.mem_univ _, h'.counts, h'.hands, h'.books⟩

end

end Balanced

/-- Unit `j` of a file is ready, and filed under `key`. -/
def Cache.ReadyUnder (c : Cache) (key : ℕ) (e : Entry) (j : ℕ) : Prop :=
  ∃ data last, ⟨j, .ready data last key⟩ ∈ (c.state e).slots

/-- In every state of every run: the byte count is the bytes of the ready units of all files
in the table, plus what loads in flight have reserved for units they have not installed,
plus the bytes of units just dropped that are on their way back, and it is within the limit.
No unit has two slots and no file more than its share of them. The LRU index has one entry
for each ready unit and no other, except for the units whose entry a thread has in hand; and
a file with a ready unit is in the table. -/
theorem System.cache_balanced {ι : Type*} [DecidableEq ι] [Fintype ι] (cfg : CacheConfig)
    (content : Name → Version → ℕ → UInt8) (es : List (Event ι)) :
    let σ := System.run cfg content es
    σ.cache.used = ∑ e ∈ σ.cache.table.toFinset, readyBytes (σ.cache.state e).slots +
        ∑ i, (σ.pc i).reserved cfg + ∑ i, (σ.pc i).returning ∧
      σ.cache.used ≤ cfg.maxBytes ∧
      (∀ e, ((σ.cache.state e).slots.map Slot.idx).Nodup ∧
        (σ.cache.state e).slots.length ≤ cfg.blocksPerFile) ∧
      σ.cache.lru.Nodup ∧
      (∀ key e j, (key, e, j) ∈ σ.cache.lru ↔
        σ.cache.ReadyUnder key e j ∧ ∀ i, (key, e, j) ∉ (σ.pc i).inHand) ∧
      ∀ key e j, σ.cache.ReadyUnder key e j → e ∈ σ.cache.table := by
  intro σ
  have h : Balanced cfg content σ :=
    Transition.run_invariant (fun _ ev h => h.step ev) Balanced.new es
  have hb := h.books
  have hready : ∀ key e j, σ.cache.ReadyUnder key e j ↔
      ∃ last, filedOf σ.cache.state (e, j) = some (last, key) := by
    intro key e j
    simp only [Cache.ReadyUnder, filedOf, filedIn_eq_some_iff_mem (hb.tidy e).nodup]
    exact exists_comm
  refine ⟨?_, hb.used_le, fun e => ⟨(hb.tidy e).nodup, (hb.tidy e).length_le⟩, hb.index.nodup,
    ?_, ?_⟩
  · have hused := hb.used_eq
    simp only [Pc.transit, Finset.sum_add_distrib] at hused
    rw [hused, heldBytes, add_assoc]
  · intro key e j
    constructor
    · intro hmem
      obtain ⟨hfiled, hnot⟩ := hb.index.sound _ hmem
      exact ⟨(hready key e j).mpr hfiled, fun i hi => hnot ⟨i, hi⟩⟩
    · rintro ⟨hr, hnot⟩
      obtain ⟨last, hfiled⟩ := (hready key e j).mp hr
      refine (hb.index.complete _ _ _ hfiled).resolve_right ?_
      rintro ⟨i, hi⟩
      exact hnot i hi
  · rintro key e j ⟨data, last, hmem⟩
    exact hb.live e (ne_nil_of_mem hmem)

def oneUnitConfig : CacheConfig := { tinyConfig with maxBytes := 4 }

/-- One thread reads a file across two units, up to where it has taken the first unit out of
the LRU index to make room for the second. -/
def evictingRun : List (Event Unit) :=
  [.register () ⟨⟨0, ['a']⟩, ⟨8, 1⟩, true, false⟩] ++ List.replicate 3 (.step () {}) ++
    [.read () ⟨⟨0, ⟨0, ['a']⟩⟩, some ⟨8, 1⟩⟩ 2 3] ++ List.replicate 16 (.step () {})

/-- Between the two halves of an eviction a ready unit of a live file has no entry in the LRU
index, with no file and no table locked. -/
theorem System.ready_unit_unlisted :
    let c := (System.run oneUnitConfig countingContent evictingRun).cache
    let e : Entry := ⟨0, ⟨0, ['a']⟩⟩
    e ∈ c.table ∧ ⟨0, .ready [0, 1, 2, 3] 2 2⟩ ∈ (c.state e).slots ∧ c.lru = [] ∧
      c.locked e = false ∧ c.tableLocked = false := by
  decide +kernel

end AetherVfs.ReadCache
