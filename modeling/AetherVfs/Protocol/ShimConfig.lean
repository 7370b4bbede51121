import AetherVfs.Protocol.Strings

/-!
# The configuration of the shim

`vfs-protocol/src/shimcfg.rs`: the root and the table of static imports, behind a magic and a
version. What is left of the buffer stands for the offset into it.
-/

namespace AetherVfs.Protocol.ShimCfg

open Cursor Registry Rd

structure StaticImport where
  dllName : Str
  backingPath : Str
  deriving DecidableEq

/-- `VFSC`. -/
def configMagic : List UInt8 := [0x56, 0x46, 0x53, 0x43]

def configVersion : UInt32 := 2

structure ShimConfig where
  root : Str
  staticImports : List StaticImport
  deriving DecidableEq

inductive ConfigError
  | unversioned
  | version (found expected : UInt32)
  | malformed
  deriving DecidableEq

def putImport (e : StaticImport) : List UInt8 := putStr e.dllName ++ putStr e.backingPath

def encodeConfigFull (root : Str) (staticImports : List StaticImport) : List UInt8 :=
  configMagic ++ put32 configVersion ++ putStr root ++ putLen staticImports.length ++
    staticImports.flatMap putImport

/-- A length and that many bytes of UTF-8. -/
abbrev readField : Read Str := str

def readImport : Read StaticImport := do
  let dllName ← readField
  let backingPath ← readField
  return ⟨dllName, backingPath⟩

def decodeV2Body : Read ShimConfig := do
  let root ← readField
  let n ← word
  let staticImports ← items readImport n.toNat
  done
  return ⟨root, staticImports⟩

def decodeConfig (bytes : List UInt8) : Except ConfigError ShimConfig :=
  if bytes.length < 4 then .error .malformed
  else if bytes.take 4 ≠ configMagic then .error .unversioned
  else
    match word.run (bytes.drop 4) with
    | none => .error .malformed
    | some (found, body) =>
      if found ≠ configVersion then .error (.version found configVersion)
      else
        match decodeV2Body.run' body with
        | none => .error .malformed
        | some c => .ok c

/-! ## What is accepted is what would be written -/

theorem canonical_readImport : Canonical putImport readImport := by
  intro p e rest h
  obtain ⟨dllName, mid, hname, h⟩ := run_bind_eq_some.mp h
  obtain ⟨backingPath, rest', hpath, h⟩ := run_bind_eq_some.mp h
  cases h
  rw [canonical_str _ _ _ hname, canonical_str _ _ _ hpath, putImport,
    List.append_assoc]

/-- Every length and the count fit the 32 bits they are written in. -/
structure ShimConfig.Fits (c : ShimConfig) : Prop where
  root : (utf8 c.root).length < 2 ^ 32
  count : c.staticImports.length < 2 ^ 32
  imports : ∀ e ∈ c.staticImports,
    (utf8 e.dllName).length < 2 ^ 32 ∧ (utf8 e.backingPath).length < 2 ^ 32

theorem decodeConfig_eq_ok {bytes : List UInt8} {c : ShimConfig} (h : decodeConfig bytes = .ok c) :
    ∃ body, bytes = configMagic ++ put32 configVersion ++ body ∧
      decodeV2Body.run' body = some c := by
  unfold decodeConfig at h
  split_ifs at h with hlen hmagic
  split at h
  · cases h
  · next found body hword =>
      split_ifs at h with hversion
      rw [not_not] at hmagic hversion
      split at h
      · cases h
      · next c' hbody =>
          cases h
          refine ⟨body, ?_, hbody⟩
          rw [← List.take_append_drop 4 bytes, hmagic, canonical_word _ _ _ hword, hversion,
            List.append_assoc]

theorem decodeV2Body_eq_some {p : List UInt8} {c : ShimConfig} (h : decodeV2Body.run' p = some c) :
    p = putStr c.root ++ putLen c.staticImports.length ++ c.staticImports.flatMap putImport ∧
      c.Fits := by
  obtain ⟨rest, h⟩ := run'_eq_some.mp h
  obtain ⟨root, p1, hroot, h⟩ := run_bind_eq_some.mp h
  obtain ⟨n, p2, hn, h⟩ := run_bind_eq_some.mp h
  obtain ⟨imports, p3, himports, h⟩ := run_bind_eq_some.mp h
  obtain ⟨u, p4, hdone, h⟩ := run_bind_eq_some.mp h
  cases h
  have hnil : p3 = [] := by
    by_contra hne
    simp [done, StateT.run, hne] at hdone
  have hcount : imports.length = n.toNat := length_items himports
  refine ⟨?_, length_of_str hroot, ?_, ?_⟩
  · rw [canonical_str _ _ _ hroot, canonical_word _ _ _ hn,
      canonical_readImport.items _ _ _ _ himports, hnil, putLen, hcount, UInt32.ofNat_toNat]
    simp
  · rw [hcount]
    exact n.toNat_lt
  · refine forall_items (fun p e rest he => ?_) himports
    obtain ⟨dllName, mid, hname, he⟩ := run_bind_eq_some.mp he
    obtain ⟨backingPath, rest', hpath, he⟩ := run_bind_eq_some.mp he
    cases he
    exact ⟨length_of_str hname, length_of_str hpath⟩

/-! ## What is written is read back -/

theorem readImport_putImport {e : StaticImport} (hname : (utf8 e.dllName).length < 2 ^ 32)
    (hpath : (utf8 e.backingPath).length < 2 ^ 32) (rest : List UInt8) :
    readImport.run (putImport e ++ rest) = some (e, rest) := by
  simp [readImport, putImport, str_putStr hname, str_putStr hpath]

theorem decodeConfig_encode {c : ShimConfig} (h : c.Fits) :
    decodeConfig (encodeConfigFull c.root c.staticImports) = .ok c := by
  have himports : ∀ e ∈ c.staticImports, ∀ rest,
      readImport.run (putImport e ++ rest) = some (e, rest) :=
    fun e he => readImport_putImport (h.imports e he).1 (h.imports e he).2
  have hitems := items_flatMap readImport putImport himports []
  rw [List.append_nil] at hitems
  have hbody : decodeV2Body.run' (putStr c.root ++ (putLen c.staticImports.length ++
      c.staticImports.flatMap putImport)) = some c := by
    apply run'_eq_some.mpr
    refine ⟨[], ?_⟩
    simp [decodeV2Body, str_putStr h.root, putLen, toNat_len h.count, hitems]
  have hlen : configMagic.length = 4 := rfl
  rw [encodeConfigFull, decodeConfig]
  simp only [List.append_assoc]
  rw [if_neg (by rw [List.length_append, hlen]; omega), List.take_left' hlen,
    List.drop_left' hlen, if_neg (not_not.mpr rfl), word_put32]
  dsimp only
  rw [if_neg (not_not.mpr rfl), hbody]

/-- The configurations that come back are those whose lengths and count fit their 32 bits, and
whatever is accepted is what would be written for it. -/
theorem decodeConfig_encodeConfigFull (c : ShimConfig) :
    (decodeConfig (encodeConfigFull c.root c.staticImports) = .ok c ↔ c.Fits) ∧
    ∀ bytes, decodeConfig bytes = .ok c → encodeConfigFull c.root c.staticImports = bytes := by
  constructor
  · constructor
    · intro h
      obtain ⟨body, -, hbody⟩ := decodeConfig_eq_ok h
      exact (decodeV2Body_eq_some hbody).2
    · exact decodeConfig_encode
  · intro bytes h
    obtain ⟨body, rfl, hbody⟩ := decodeConfig_eq_ok h
    rw [(decodeV2Body_eq_some hbody).1, encodeConfigFull]
    simp only [List.append_assoc]

/-- The length of a root of 4 GiB is written as zero. -/
theorem decodeConfig_longRoot :
    decodeConfig (encodeConfigFull (List.replicate (2 ^ 32) 'a') []) ≠
      .ok ⟨List.replicate (2 ^ 32) 'a', []⟩ := by
  intro h
  obtain ⟨body, -, hbody⟩ := decodeConfig_eq_ok h
  have hlt := (decodeV2Body_eq_some hbody).2.root
  rw [length_utf8_replicate] at hlt
  exact lt_irrefl _ hlt

end AetherVfs.Protocol.ShimCfg
