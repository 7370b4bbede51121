import AetherVfs.Lib.LittleEndian
import AetherVfs.Lib.Table
import AetherVfs.Lib.Transition

/-!
# The RAM tier

`aether-storage/src/ram.rs`: decompressed blocks in shards, each a map with a CLOCK ring. The byte
counters are `u64`s, whose sums are taken modulo `2 ^ 64`. A run is a sequence of calls; the flag
of the one-time warning is left out.
-/

namespace AetherVfs.Storage

open Transition

abbrev Block := List UInt8

/-- Store file id and block index. -/
structure BlockKey where
  fileId : Vector UInt8 17
  block : UInt64
deriving DecidableEq

structure RamEntry where
  data : Block
  /-- The CLOCK reference bit. -/
  referenced : Bool

structure Shard where
  map : Table BlockKey RamEntry
  ring : List BlockKey
  bytes : ℕ
  hits : ℕ

structure RamTier where
  budget : ℕ
  /-- By number, up to `shardMask`. -/
  shards : ℕ → Shard
  shardMask : ℕ
  shardBudget : ℕ
  misses : ℕ
  evicts : ℕ
  oversizedRejects : ℕ

def minBlocksPerShard : ℕ := 8

def maxShards : ℕ := 64

def u64 (n : ℕ) : ℕ := n % 2 ^ 64

def RamEntry.len (e : RamEntry) : ℕ := e.data.length

namespace Shard

/-- The bytes the shard has for a key. -/
def held (g : Shard) (k : BlockKey) : Option Block := (g.map.lookup k).map RamEntry.data

/-- Sets the reference bit of a key's entry. -/
def mark (g : Shard) (k : BlockKey) (bit : Bool) : Shard :=
  { g with map := Table.modify g.map k fun e => { e with referenced := bit } }

/-- `evict_to_fit`, with the evictions so far: the second-chance sweep. -/
def evictToFit (budget need : ℕ) (g : Shard) (chances evicts : ℕ) : Shard × ℕ :=
  if u64 (g.bytes + need) ≤ budget then (g, evicts)
  else
    match _hring : g.ring with
    | [] => (g, evicts)
    | cand :: rest =>
      match g.map.lookup cand with
      | none => evictToFit budget need { g with ring := rest } chances evicts
      | some e =>
        if _he : e.referenced ∧ 0 < chances then
          evictToFit budget need { g.mark cand false with ring := rest ++ [cand] } (chances - 1)
            evicts
        else
          evictToFit budget need
            { g with map := g.map.erase cand, ring := rest, bytes := g.bytes - e.len } chances
            (evicts + 1)
termination_by g.ring.length + chances
decreasing_by
  all_goals
    simp only [_hring, List.length_append, List.length_cons, List.length_nil]
    omega

/-- The common end of `put` and `fill`: room is made, and the block is entered unreferenced. -/
def store (budget : ℕ) (k : BlockKey) (data : Block) (g : Shard) : Shard × ℕ :=
  let (g, evicts) := g.evictToFit budget data.length g.ring.length 0
  ({ g with
      map := g.map.insert k ⟨data, false⟩
      ring := g.ring ++ [k]
      bytes := u64 (g.bytes + data.length) }, evicts)

/-- What `put` does with the block it replaces. -/
def drop (k : BlockKey) (g : Shard) : Shard :=
  match g.map.lookup k with
  | none => g
  | some old =>
    { g with
      map := g.map.erase k
      ring := g.ring.filter (· ≠ k)
      bytes := g.bytes - old.len }

/-- The sweep of `invalidate_file` over one shard. -/
def invalidate (fileId : Vector UInt8 17) (g : Shard) : Shard :=
  let kept := Table.keep g.map fun k => k.fileId ≠ fileId
  let freed := Table.total RamEntry.len (Table.keep g.map fun k => !decide (k.fileId ≠ fileId))
  if kept.keys.length = g.map.keys.length then { g with map := kept }
  else
    { g with
      map := kept
      ring := g.ring.filter fun k => k.fileId ≠ fileId
      bytes := g.bytes - freed }

end Shard

namespace RamTier

/-- The loop of `with_geometry` over the number of shards. -/
def doubled (capacity n : ℕ) : ℕ :=
  if 0 < n ∧ n * 2 ≤ maxShards ∧ n * 2 ≤ capacity then doubled capacity (n * 2) else n
termination_by maxShards - n
decreasing_by omega

def withGeometry (budget blockSize : ℕ) : RamTier :=
  let n := doubled (budget / max blockSize 1 / minBlocksPerShard) 1
  { budget
    shards := fun _ => ⟨∅, [], 0, 0⟩
    shardMask := n - 1
    shardBudget := budget / n
    misses := 0
    evicts := 0
    oversizedRejects := 0 }

/-- The splitmix64 finalizer over the key that `shard` takes the shard's number from. -/
def hash (k : BlockKey) : BitVec 64 :=
  let word (bytes : List UInt8) := BitVec.ofNat 64 (LittleEndian.value bytes)
  let a := word (k.fileId.toList.take 8)
  let b := word ((k.fileId.toList.drop 8).take 8)
  let h := a ^^^ b.rotateLeft 21 ^^^ (word (k.fileId.toList.drop 16)).rotateLeft 7 ^^^
    k.block.toBitVec.rotateLeft 43
  let h := (h ^^^ h >>> 30) * 0xbf58476d1ce4e5b9#64
  let h := (h ^^^ h >>> 27) * 0x94d049bb133111eb#64
  h ^^^ h >>> 31

def index (t : RamTier) (k : BlockKey) : ℕ := (hash k).toNat &&& t.shardMask

/-- The bytes the tier has for a key. -/
def held (t : RamTier) (k : BlockKey) : Option Block := (t.shards (t.index k)).held k

/-- Runs a change of the shard of a key that reports its evictions. -/
def onShard (t : RamTier) (k : BlockKey) (f : Shard → Shard × ℕ) : RamTier :=
  { t with
    shards := Function.update t.shards (t.index k) (f (t.shards (t.index k))).1
    evicts := t.evicts + (f (t.shards (t.index k))).2 }

def get (t : RamTier) (k : BlockKey) : Option Block × RamTier :=
  match (t.shards (t.index k)).map.lookup k with
  | some e => (some e.data, t.onShard k fun g => ({ g.mark k true with hits := g.hits + 1 }, 0))
  | none => (none, { t with misses := t.misses + 1 })

def put (t : RamTier) (k : BlockKey) (data : Block) : RamTier :=
  if t.shardBudget < data.length then { t with oversizedRejects := t.oversizedRejects + 1 }
  else t.onShard k fun g => (g.drop k).store t.shardBudget k data

def fill (t : RamTier) (k : BlockKey) (data : Block) : Block × RamTier :=
  if t.shardBudget < data.length then
    (data, { t with oversizedRejects := t.oversizedRejects + 1 })
  else
    match (t.shards (t.index k)).map.lookup k with
    | some e => (e.data, t)
    | none => (data, t.onShard k fun g => g.store t.shardBudget k data)

def invalidateFile (t : RamTier) (fileId : Vector UInt8 17) : RamTier :=
  { t with shards := fun i => (t.shards i).invalidate fileId }

end RamTier

/-- The map and the ring have the same keys, once each, and the counter is what is stored. -/
structure Shard.Ok (budget : ℕ) (g : Shard) : Prop where
  nodup : g.ring.Nodup
  mem_ring : ∀ k, k ∈ g.ring ↔ k ∈ g.map
  bytes_eq : g.bytes = Table.total RamEntry.len g.map
  bytes_le : g.bytes ≤ budget

namespace Shard

variable {budget need : ℕ} {g : Shard} {k : BlockKey} {data : Block}

theorem mem_map_iff : k ∈ g.map ↔ (g.held k).isSome := by
  rw [held, Option.isSome_map, AList.lookup_isSome]

theorem held_mark (bit : Bool) (j : BlockKey) : (g.mark k bit).held j = g.held j := by
  rw [held, mark, Table.lookup_modify, held]
  split_ifs <;> cases g.map.lookup j <;> rfl

theorem mem_mark {bit : Bool} {j : BlockKey} : j ∈ (g.mark k bit).map ↔ j ∈ g.map := by
  rw [mem_map_iff, held_mark, mem_map_iff]

theorem held_erase (j : BlockKey) :
    { g with map := g.map.erase k }.held j = if j = k then none else g.held j := by
  rw [held, Table.lookup_erase_eq_ite]
  split_ifs <;> rfl

theorem u64_eq {n m : ℕ} (hbudget : budget < 2 ^ 63) (hn : n ≤ budget) (hm : m ≤ budget) :
    u64 (n + m) = n + m := Nat.mod_eq_of_lt (by omega)

namespace Ok

theorem mark (h : g.Ok budget) (k : BlockKey) (bit : Bool) : (g.mark k bit).Ok budget where
  nodup := h.nodup
  mem_ring j := (h.mem_ring j).trans mem_mark.symm
  bytes_eq := by
    rw [Shard.mark, Table.total_modify]
    · exact h.bytes_eq
    · exact fun _ => rfl
  bytes_le := h.bytes_le

theorem rotate {rest : List BlockKey} (h : g.Ok budget) (hring : g.ring = k :: rest) :
    { g with ring := rest ++ [k] }.Ok budget := by
  have hperm : (rest ++ [k]).Perm g.ring := hring ▸ List.perm_append_singleton k rest
  exact ⟨hperm.nodup_iff.mpr h.nodup, fun j => hperm.mem_iff.trans (h.mem_ring j), h.bytes_eq,
    h.bytes_le⟩

theorem erase {e : RamEntry} {ring : List BlockKey} (h : g.Ok budget) (he : g.map.lookup k = some e)
    (hnodup : ring.Nodup) (hring : ∀ j, j ∈ ring ↔ j ≠ k ∧ j ∈ g.ring) :
    { g with map := g.map.erase k, ring := ring, bytes := g.bytes - e.len }.Ok budget := by
  have htotal := Table.total_erase (w := RamEntry.len) he
  have hbytes := h.bytes_eq
  refine ⟨hnodup, fun j => ?_, ?_, (Nat.sub_le _ _).trans h.bytes_le⟩
  · rw [hring, h.mem_ring, AList.mem_erase]
  · dsimp only
    omega

theorem insert (hbudget : budget < 2 ^ 63) (h : g.Ok budget)
    (hroom : g.bytes + data.length ≤ budget) (hk : k ∉ g.map) :
    { g with
      map := g.map.insert k ⟨data, false⟩
      ring := g.ring ++ [k]
      bytes := u64 (g.bytes + data.length) }.Ok budget := by
  rw [u64_eq hbudget h.bytes_le (by omega)]
  refine ⟨?_, fun j => ?_, ?_, hroom⟩
  · refine (List.perm_append_singleton k g.ring).nodup_iff.mpr (List.nodup_cons.mpr ⟨?_, h.nodup⟩)
    rwa [h.mem_ring]
  · rw [List.mem_append, List.mem_singleton, h.mem_ring, AList.mem_insert, or_comm]
  · rw [Table.total_insert hk, h.bytes_eq, Nat.add_comm, RamEntry.len]

theorem lookup_isSome_of_mem (h : g.Ok budget) (hk : k ∈ g.ring) : g.map.lookup k ≠ none := by
  rw [Ne, AList.lookup_eq_none, not_not]
  exact (h.mem_ring k).mp hk

end Ok

/-- What is left of a shard after the sweep: room, and nothing new. -/
theorem evictToFit_spec (hbudget : budget < 2 ^ 63) (hneed : need ≤ budget) (h : g.Ok budget)
    (chances evicts : ℕ) {g' : Shard} (hg' : (g.evictToFit budget need chances evicts).1 = g') :
    g'.Ok budget ∧ g'.bytes + need ≤ budget ∧ ∀ j d, g'.held j = some d → g.held j = some d := by
  fun_induction evictToFit budget need g chances evicts with
  | case1 g chances evicts hfits =>
    subst hg'
    rw [u64_eq hbudget h.bytes_le hneed] at hfits
    exact ⟨h, hfits, fun _ _ => id⟩
  | case2 g chances evicts hfull hring =>
    -- with the ring empty nothing is stored, and the block fits
    have hempty : g.map.entries = [] := by
      refine List.eq_nil_iff_forall_not_mem.mpr fun r hr => ?_
      have hmem : r.1 ∈ g.ring := (h.mem_ring r.1).mpr (List.mem_map_of_mem hr)
      simp [hring] at hmem
    have hzero : g.bytes = 0 := by rw [h.bytes_eq, Table.total, hempty]; rfl
    rw [hzero, u64_eq hbudget (Nat.zero_le _) hneed] at hfull
    omega
  | case3 g chances evicts hfull cand rest hring hnone ih =>
    exact absurd hnone (h.lookup_isSome_of_mem (hring ▸ List.mem_cons_self))
  | case4 g chances evicts hfull cand rest hring e he href ih =>
    obtain ⟨hok, hroom, hheld⟩ := ih ((h.mark cand false).rotate hring) hg'
    exact ⟨hok, hroom, fun j d hd => held_mark (g := g) false j ▸ hheld j d hd⟩
  | case5 g chances evicts hfull cand rest hring e he href ih =>
    have hnodup := h.nodup
    rw [hring, List.nodup_cons] at hnodup
    have hmem (j : BlockKey) : j ∈ rest ↔ j ≠ cand ∧ j ∈ g.ring := by
      rw [hring, List.mem_cons]
      refine ⟨fun hj => ⟨?_, .inr hj⟩, fun hj => hj.2.resolve_left hj.1⟩
      rintro rfl
      exact hnodup.1 hj
    obtain ⟨hok, hroom, hheld⟩ := ih (h.erase he hnodup.2 hmem) hg'
    refine ⟨hok, hroom, fun j d hd => ?_⟩
    have hbefore : (if j = cand then none else g.held j) = some d :=
      held_erase (g := g) j ▸ hheld j d hd
    split_ifs at hbefore
    exact hbefore

theorem store_spec (hbudget : budget < 2 ^ 63) (hlen : data.length ≤ budget) (h : g.Ok budget)
    (hk : g.held k = none) : (g.store budget k data).1.Ok budget ∧
      (g.store budget k data).1.held k = some data ∧
      ∀ j d, j ≠ k → (g.store budget k data).1.held j = some d → g.held j = some d := by
  obtain ⟨hok, hroom, hheld⟩ := evictToFit_spec hbudget hlen h g.ring.length 0 rfl
  set g' := (g.evictToFit budget data.length g.ring.length 0).1
  have hnew : k ∉ g'.map := by
    rw [mem_map_iff]
    cases hg : g'.held k with
    | none => simp
    | some d => exact absurd (hheld k d hg) (by simp [hk])
  have hlookup (j : BlockKey) : (g.store budget k data).1.held j =
      if j = k then some data else g'.held j := by
    simp only [store, held, Table.lookup_insert_eq_ite]
    split_ifs <;> rfl
  refine ⟨hok.insert hbudget hroom hnew, by rw [hlookup, if_pos rfl], fun j d hj hd => ?_⟩
  rw [hlookup, if_neg hj] at hd
  exact hheld j d hd

theorem drop_ok (h : g.Ok budget) (k : BlockKey) : (g.drop k).Ok budget := by
  unfold drop
  split
  · exact h
  · next e he => exact h.erase he (h.nodup.filter _) fun j => by simp [and_comm]

theorem held_drop (j : BlockKey) : (g.drop k).held j = if j = k then none else g.held j := by
  unfold drop
  split
  · next hnone =>
    split_ifs with hj
    · rw [hj, held, hnone]
      rfl
    · rfl
  · exact held_erase j

theorem invalidate_ok (h : g.Ok budget) (fileId : Vector UInt8 17) :
    (g.invalidate fileId).Ok budget := by
  have hmem (j : BlockKey) : j ∈ Table.keep g.map (fun k => k.fileId ≠ fileId) ↔
      j.fileId ≠ fileId ∧ j ∈ g.map := by
    rw [← AList.lookup_isSome, Table.lookup_keep, ← AList.lookup_isSome]
    by_cases hj : j.fileId = fileId <;> simp [hj]
  have htotal := Table.total_keep_add RamEntry.len g.map fun k => k.fileId ≠ fileId
  have hbytes := h.bytes_eq
  unfold invalidate
  dsimp only
  split_ifs with hall
  · have hsame : Table.keep g.map (fun k => k.fileId ≠ fileId) = g.map := by
      apply AList.ext
      simp only [AList.keys, List.keys, List.length_map] at hall
      exact List.filter_eq_self.mpr (List.length_filter_eq_length_iff.mp hall)
    rw [hsame]
    exact h
  · refine ⟨h.nodup.filter _, fun j => ?_, ?_, (Nat.sub_le _ _).trans h.bytes_le⟩
    · rw [List.mem_filter, hmem, h.mem_ring, and_comm]
      simp
    · dsimp only at htotal ⊢
      omega

theorem held_invalidate (fileId : Vector UInt8 17) (j : BlockKey) :
    (g.invalidate fileId).held j = if j.fileId = fileId then none else g.held j := by
  have hmap : (g.invalidate fileId).map = Table.keep g.map fun k => k.fileId ≠ fileId := by
    unfold invalidate
    dsimp only
    split_ifs <;> rfl
  rw [held, hmap, Table.lookup_keep]
  by_cases hj : j.fileId = fileId <;> simp [hj, held]

end Shard

namespace RamTier

structure Ok (budget : ℕ) (t : RamTier) : Prop where
  shards : ∀ i, (t.shards i).Ok t.shardBudget
  budget_lt : t.shardBudget < 2 ^ 63
  geometry : (t.shardMask + 1) * t.shardBudget ≤ budget

variable {budget : ℕ} {t : RamTier} {k : BlockKey} {data : Block} {f : Shard → Shard × ℕ}

theorem doubled_pos (capacity : ℕ) {n : ℕ} (hn : 0 < n) : 0 < doubled capacity n := by
  fun_induction doubled capacity n with
  | case1 n _ ih => exact ih (by omega)
  | case2 n _ => exact hn

theorem withGeometry_ok {blockSize : ℕ}
    (hbudget : (withGeometry budget blockSize).shardBudget < 2 ^ 63) :
    (withGeometry budget blockSize).Ok budget := by
  have hpos := doubled_pos (budget / max blockSize 1 / minBlocksPerShard) Nat.one_pos
  refine ⟨fun _ => ⟨List.nodup_nil, fun _ => ?_, rfl, Nat.zero_le _⟩, hbudget, ?_⟩
  · exact iff_of_false List.not_mem_nil (AList.notMem_empty _)
  · simp only [withGeometry]
    rw [Nat.sub_add_cancel hpos]
    exact Nat.mul_div_le budget _

theorem onShard_ok (h : t.Ok budget) (hf : (f (t.shards (t.index k))).1.Ok t.shardBudget) :
    (t.onShard k f).Ok budget := by
  refine ⟨?_, h.budget_lt, h.geometry⟩
  exact (Function.forall_update_iff _ fun _ (g : Shard) => g.Ok t.shardBudget).mpr
    ⟨hf, fun i _ => h.shards i⟩

theorem index_onShard (j : BlockKey) : (t.onShard k f).index j = t.index j := rfl

theorem held_onShard (j : BlockKey) : (t.onShard k f).held j =
    if t.index j = t.index k then (f (t.shards (t.index k))).1.held j else t.held j := by
  rw [held, index_onShard, onShard]
  dsimp only
  rw [Function.update_apply]
  split_ifs <;> rfl

theorem get_eq (t : RamTier) (k : BlockKey) : (t.get k).1 = t.held k := by
  unfold get held Shard.held
  cases (t.shards (t.index k)).map.lookup k <;> rfl

theorem get_ok (h : t.Ok budget) (k : BlockKey) : (t.get k).2.Ok budget := by
  unfold get
  cases (t.shards (t.index k)).map.lookup k with
  | none => exact ⟨h.shards, h.budget_lt, h.geometry⟩
  | some e =>
    have hmark := (h.shards (t.index k)).mark k true
    dsimp only
    apply onShard_ok h
    exact ⟨hmark.nodup, hmark.mem_ring, hmark.bytes_eq, hmark.bytes_le⟩

theorem held_get (j : BlockKey) : (t.get k).2.held j = t.held j := by
  unfold get
  cases (t.shards (t.index k)).map.lookup k with
  | none => rfl
  | some e =>
    rw [held_onShard]
    split_ifs with hj
    · rw [held, hj]
      exact Shard.held_mark true j
    · rfl

end RamTier

/-- A call on the tier. -/
inductive RamOp where
  | get (k : BlockKey)
  | put (k : BlockKey) (data : Block)
  | fill (k : BlockKey) (data : Block)
  | invalidateFile (fileId : Vector UInt8 17)

namespace RamOp

/-- Whether bytes of `k` from before the call are old after it. -/
def Outdates (k : BlockKey) : RamOp → Prop
  | put j _ => j = k
  | invalidateFile fileId => k.fileId = fileId
  | _ => False

/-- No block that is too large for a shard is put over one that the tier holds. -/
def Replaces (t : RamTier) : RamOp → Prop
  | put k data => t.shardBudget < data.length → t.held k = none
  | _ => True

end RamOp

namespace RamTier

variable {budget : ℕ} {t : RamTier} {k : BlockKey} {data : Block} {f : Shard → Shard × ℕ}

def step (t : RamTier) : RamOp → RamTier
  | .get k => (t.get k).2
  | .put k data => t.put k data
  | .fill k data => (t.fill k data).2
  | .invalidateFile fileId => t.invalidateFile fileId

theorem put_spec (h : t.Ok budget) (hlen : data.length ≤ t.shardBudget) : (t.put k data).Ok budget ∧
    (t.put k data).held k = some data ∧
    ∀ j d, j ≠ k → (t.put k data).held j = some d → t.held j = some d := by
  rw [put, if_neg (Nat.not_lt.mpr hlen)]
  obtain ⟨hok, hnew, hold⟩ := Shard.store_spec h.budget_lt hlen
    (Shard.drop_ok (h.shards (t.index k)) k) (by rw [Shard.held_drop, if_pos rfl])
  refine ⟨onShard_ok h hok, by rw [held_onShard, if_pos rfl, hnew], fun j d hj hd => ?_⟩
  rw [held_onShard] at hd
  split_ifs at hd with hindex
  · have hdrop := hold j d hj hd
    rw [Shard.held_drop, if_neg hj] at hdrop
    rwa [held, hindex]
  · exact hd

theorem fill_spec (h : t.Ok budget) : (t.fill k data).2.Ok budget ∧
    ∀ j d, (t.fill k data).2.held j = some d →
      t.held j = some d ∨ j = k ∧ d = data ∧ t.held k = none := by
  unfold fill
  split_ifs with hlen
  · exact ⟨⟨h.shards, h.budget_lt, h.geometry⟩, fun j d => .inl⟩
  · cases hk : (t.shards (t.index k)).map.lookup k with
    | some e => exact ⟨h, fun j d => .inl⟩
    | none =>
      have hnone : (t.shards (t.index k)).held k = none := by rw [Shard.held, hk]; rfl
      obtain ⟨hok, hnew, hold⟩ := Shard.store_spec h.budget_lt (Nat.le_of_not_lt hlen)
        (h.shards (t.index k)) hnone
      refine ⟨onShard_ok h hok, fun j d hd => ?_⟩
      rw [held_onShard] at hd
      split_ifs at hd with hindex
      · by_cases hj : j = k
        · subst hj
          exact .inr ⟨rfl, Option.some.inj (hd.symm.trans hnew), hnone⟩
        · rw [held, hindex]
          exact .inl (hold j d hj hd)
      · exact .inl hd

theorem held_invalidateFile (fileId : Vector UInt8 17) (j : BlockKey) :
    (t.invalidateFile fileId).held j = if j.fileId = fileId then none else t.held j :=
  Shard.held_invalidate fileId j

theorem put_oversized (hlen : t.shardBudget < data.length) :
    t.put k data = { t with oversizedRejects := t.oversizedRejects + 1 } := if_pos hlen

theorem step_ok (t : RamTier) (o : RamOp) (h : t.Ok budget) : (t.step o).Ok budget := by
  cases o with
  | get k => exact get_ok h k
  | put k data =>
    by_cases hlen : t.shardBudget < data.length
    · rw [step, put_oversized hlen]
      exact ⟨h.shards, h.budget_lt, h.geometry⟩
    · exact (put_spec h (Nat.le_of_not_lt hlen)).1
  | fill k data => exact (fill_spec h).1
  | invalidateFile fileId =>
    exact ⟨fun i => Shard.invalidate_ok (h.shards i) fileId, h.budget_lt, h.geometry⟩

variable {d : Block} {t₀ : RamTier}

/-- Where the bytes of a key can come from in one step. -/
theorem held_step {o : RamOp} {j : BlockKey} (h : t.Ok budget) (ho : o.Replaces t)
    (hd : (t.step o).held j = some d) : t.held j = some d ∧ ¬o.Outdates j ∨ o = .put j d ∨
      o = .fill j d ∧ t.held j = none := by
  cases o with
  | get k =>
    rw [step, held_get] at hd
    exact .inl ⟨hd, id⟩
  | put k data =>
    by_cases hlen : t.shardBudget < data.length
    · rw [step, put_oversized hlen] at hd
      refine .inl ⟨hd, ?_⟩
      rintro rfl
      exact Option.some_ne_none d (hd.symm.trans (ho hlen))
    · obtain ⟨-, hnew, hold⟩ := put_spec (k := k) h (Nat.le_of_not_lt hlen)
      by_cases hj : j = k
      · subst hj
        exact .inr (.inl (by rw [Option.some.inj (hd.symm.trans hnew)]))
      · exact .inl ⟨hold j d hj hd, fun heq => hj heq.symm⟩
  | fill k data =>
    obtain hold | ⟨rfl, rfl, hnone⟩ := (fill_spec h).2 j d hd
    · exact .inl ⟨hold, id⟩
    · exact .inr (.inr ⟨rfl, hnone⟩)
  | invalidateFile fileId =>
    rw [step, held_invalidateFile] at hd
    split_ifs at hd with hj
    exact .inl ⟨hd, hj⟩

/-- The bytes `d` are what a `put` of `k` gave, or a `fill` at a time the tier had no block of `k`,
and no later call of the list put `k` or invalidated its file. -/
def Fresh (t₀ : RamTier) (ops : List RamOp) (k : BlockKey) (d : Block) : Prop :=
  ∃ earlier op later, ops = earlier ++ op :: later ∧ (∀ o ∈ later, ¬o.Outdates k) ∧
    (op = .put k d ∨ op = .fill k d ∧ (run step t₀ earlier).held k = none)

theorem Fresh.concat {ops : List RamOp} {o : RamOp}
    (h : Fresh t₀ ops k d) (ho : ¬o.Outdates k) : Fresh t₀ (ops ++ [o]) k d := by
  obtain ⟨earlier, op, later, rfl, hlater, hop⟩ := h
  refine ⟨earlier, op, later ++ [o], by simp, fun o' ho' => ?_, hop⟩
  obtain ho' | ho' := List.mem_append.mp ho'
  · exact hlater o' ho'
  · rwa [List.mem_singleton.mp ho']

theorem not_fresh_concat (ops : List RamOp) (hd : d ≠ data) :
    ¬Fresh t₀ (ops ++ [.put k data]) k d := by
  rintro ⟨earlier, op, later, hsplit, hlater, hop⟩
  obtain rfl | ⟨later, last, rfl⟩ := later.eq_nil_or_concat
  · obtain ⟨-, hlast⟩ := List.append_inj' hsplit rfl
    obtain rfl := List.singleton_inj.mp hlast
    simp [hd.symm] at hop
  · have hsplit' : ops ++ [.put k data] = earlier ++ op :: later ++ [last] := by simpa using hsplit
    have hlast := (List.append_inj' hsplit' rfl).2
    refine hlater last (by simp) ?_
    rw [← List.singleton_inj.mp hlast]
    exact rfl

theorem Ok.length_le (h : t.Ok budget) (hd : t.held k = some d) :
    d.length ≤ t.shardBudget := by
  have hok := h.shards (t.index k)
  obtain ⟨e, he, rfl⟩ := Option.map_eq_some_iff.mp hd
  have htotal := Table.total_erase (w := RamEntry.len) he
  have hle := hok.bytes_le
  rw [hok.bytes_eq, ← htotal] at hle
  exact (Nat.le_add_left _ _).trans hle

theorem fresh_concat_iff {ops : List RamOp} {o : RamOp}
    (hok : (run step t₀ ops).Ok budget)
    (h : ∀ k d, (run step t₀ ops).held k = some d → Fresh t₀ ops k d) :
    (∀ k d, (run step t₀ (ops ++ [o])).held k = some d → Fresh t₀ (ops ++ [o]) k d) ↔
      o.Replaces (run step t₀ ops) := by
  rw [run_append, run_cons, run_nil]
  constructor
  · intro hfresh
    cases o with
    | put k data =>
      intro hlarge
      by_contra hheld
      obtain ⟨d, hd⟩ := Option.ne_none_iff_exists'.mp hheld
      have hstays : ((run step t₀ ops).step (.put k data)).held k = some d := by
        rw [step, put_oversized hlarge]
        exact hd
      refine not_fresh_concat ops ?_ (hfresh k d hstays)
      rintro rfl
      exact absurd (hok.length_le hd) (Nat.not_le.mpr hlarge)
    | _ => trivial
  · intro ho k d hd
    obtain ⟨hold, hout⟩ | rfl | ⟨rfl, hnone⟩ := held_step hok ho hd
    · exact (h k d hold).concat hout
    · exact ⟨ops, _, [], rfl, by simp, .inl rfl⟩
    · exact ⟨ops, _, [], rfl, by simp, .inr ⟨rfl, hnone⟩⟩

theorem fresh_iff_allSteps (hok : t₀.Ok budget) (hempty : ∀ k, t₀.held k = none)
    (ops : List RamOp) : (∀ seen, seen <+: ops → ∀ k d, (run step t₀ seen).held k = some d →
      Fresh t₀ seen k d) ↔ AllSteps step (fun t o => o.Replaces t) t₀ ops := by
  induction ops using List.reverseRecOn with
  | nil =>
    refine iff_of_true (fun seen hseen k d hd => ?_) trivial
    rw [List.prefix_nil.mp hseen, run_nil, hempty] at hd
    cases hd
  | append_singleton ops o ih =>
    have hlast (h : ∀ k d, (run step t₀ ops).held k = some d → Fresh t₀ ops k d) :=
      fresh_concat_iff (o := o) (run_invariant (fun t o => step_ok t o) hok ops) h
    rw [allSteps_append, ← ih]
    constructor
    · intro h
      have hops : ∀ seen, seen <+: ops → _ := fun seen hseen =>
        h seen (hseen.trans (List.prefix_append ops [o]))
      exact ⟨hops, (hlast (hops ops List.prefix_rfl)).mp (h _ List.prefix_rfl), trivial⟩
    · rintro ⟨hops, ho, -⟩ seen hseen
      obtain rfl | hseen := List.prefix_concat_iff.mp hseen
      · exact (hlast (hops ops List.prefix_rfl)).mpr ho
      · exact hops seen hseen

theorem total_bytes_le (h : t.Ok budget) :
    ∑ i ∈ Finset.range (t.shardMask + 1), (t.shards i).bytes ≤ budget := by
  calc ∑ i ∈ Finset.range (t.shardMask + 1), (t.shards i).bytes
      ≤ ∑ _i ∈ Finset.range (t.shardMask + 1), t.shardBudget :=
        Finset.sum_le_sum fun i _ => (h.shards i).bytes_le
    _ = (t.shardMask + 1) * t.shardBudget := by simp
    _ ≤ budget := h.geometry

/-- The tier after the calls of a list. -/
def after (budget blockSize : ℕ) (ops : List RamOp) : RamTier :=
  run step (withGeometry budget blockSize) ops

/-- After any calls on a tier whose shards have budgets below `2 ^ 63`: the shards are consistent
and within their budgets, the tier is within its own, and a sweep makes the room it is asked for. No
lookup of the run returns old bytes exactly if no oversized block was put over one the tier held. -/
theorem after_sound {budget blockSize : ℕ}
    (hbudget : (withGeometry budget blockSize).shardBudget < 2 ^ 63) (ops : List RamOp) :
    (∀ i, ((after budget blockSize ops).shards i).Ok (after budget blockSize ops).shardBudget) ∧
    ∑ i ∈ Finset.range ((after budget blockSize ops).shardMask + 1),
      ((after budget blockSize ops).shards i).bytes ≤ budget ∧
    (∀ i need chances evicts, need ≤ (after budget blockSize ops).shardBudget →
      (((after budget blockSize ops).shards i).evictToFit (after budget blockSize ops).shardBudget
        need chances evicts).1.bytes + need ≤ (after budget blockSize ops).shardBudget) ∧
    ((∀ seen, seen <+: ops → ∀ k d, ((after budget blockSize seen).get k).1 = some d →
        Fresh (withGeometry budget blockSize) seen k d) ↔
      AllSteps step (fun t o => o.Replaces t) (withGeometry budget blockSize) ops) := by
  have hinit := withGeometry_ok hbudget
  have hok : (after budget blockSize ops).Ok budget :=
    run_invariant (fun t o => step_ok t o) hinit ops
  refine ⟨hok.shards, total_bytes_le hok, fun i need chances evicts hneed => ?_, ?_⟩
  · exact (Shard.evictToFit_spec hok.budget_lt hneed (hok.shards i) chances evicts rfl).2.1
  · simp only [get_eq]
    exact fresh_iff_allSteps hinit (fun _ => rfl) ops

/-- Block 0 of the file whose id is all zeros. -/
def zeroBlock : BlockKey := ⟨Vector.replicate 17 0, 0⟩

theorem shardBudget_withGeometry_eight : (withGeometry 8 1).shardBudget = 8 := by
  have hone : doubled (8 / max 1 1 / minBlocksPerShard) 1 = 1 := by
    rw [doubled, if_neg (by decide)]
  rw [withGeometry, hone]

theorem shardBudget_withGeometry_lt : (withGeometry 8 1).shardBudget < 2 ^ 63 := by
  rw [shardBudget_withGeometry_eight]
  norm_num

theorem held_put_one : ((withGeometry 8 1).put zeroBlock [1]).held zeroBlock = some [1] := by
  refine (put_spec (withGeometry_ok shardBudget_withGeometry_lt) ?_).2.1
  rw [shardBudget_withGeometry_eight]
  decide

theorem after_sound_put : Fresh (withGeometry 8 1) [.put zeroBlock [1]] zeroBlock [1] := by
  refine (after_sound shardBudget_withGeometry_lt [.put zeroBlock [1]]).2.2.2.mpr
    ⟨fun _ => rfl, trivial⟩ _ List.prefix_rfl zeroBlock [1] ?_
  rw [get_eq]
  exact held_put_one

/-- A second `put` of nine bytes, which no shard takes, leaves the first one's byte in place. -/
theorem get_after_oversized :
    ((after 8 1 [.put zeroBlock [1], .put zeroBlock (List.replicate 9 2)]).get zeroBlock).1 =
        some [1] ∧
      ¬Fresh (withGeometry 8 1) [.put zeroBlock [1], .put zeroBlock (List.replicate 9 2)] zeroBlock
        [1] := by
  have hbudget : ((withGeometry 8 1).put zeroBlock [1]).shardBudget = 8 := by
    rw [put, shardBudget_withGeometry_eight]
    exact shardBudget_withGeometry_eight
  have hlarge : ((withGeometry 8 1).put zeroBlock [1]).shardBudget <
      (List.replicate 9 (2 : UInt8)).length := by
    rw [hbudget]
    decide
  constructor
  · rw [get_eq, after, run_cons, run_cons, run_nil, step, step, put_oversized hlarge]
    exact held_put_one
  · have hne : ([1] : Block) ≠ List.replicate 9 2 := by decide
    exact not_fresh_concat [.put zeroBlock [1]] hne

end RamTier

end AetherVfs.Storage
