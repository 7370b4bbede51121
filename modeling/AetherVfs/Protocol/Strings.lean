import AetherVfs.Lib.Cursor
import AetherVfs.Protocol.Wire
import AetherVfs.Registry.Format

/-!
# Flags, byte strings and names on the wire

The rest of the cursor of `vfs-protocol/src/wire.rs`: single bytes, booleans, counted byte
strings, UTF-8 text and the check that nothing is left, each with what it reads back and the
fact that it is steady.
-/

namespace AetherVfs.Protocol

open Cursor Registry

/-- A length or count, as the 32 bits that are written. -/
def putLen (n : ℕ) : List UInt8 := put32 (UInt32.ofNat n)

def putBool (b : Bool) : UInt8 := if b then 1 else 0

def putStr (s : Str) : List UInt8 := putLen (utf8 s).length ++ utf8 s

theorem length_utf8_replicate (n : ℕ) : (utf8 (List.replicate n 'a')).length = n := by
  induction n with
  | zero => rfl
  | succ n ih =>
    rw [List.replicate_succ]
    have hcons : utf8 ('a' :: List.replicate n 'a') = [0x61] ++ utf8 (List.replicate n 'a') := rfl
    rw [hcons, List.length_append, ih]
    simp [Nat.add_comm]

namespace Rd

abbrev Read (α : Type) := Reader UInt8 α

def skip (n : ℕ) : Read (List UInt8) := take n
def word : Read UInt32 := u32
def long : Read UInt64 := u64

def u8 : Read UInt8
  | [] => none
  | b :: p => some (b, p)

def bool : Read Bool := do
  let b ← u8
  if b = 0 then return false else if b = 1 then return true else failure

/-- A boolean read as `!= 0`. -/
def flag : Read Bool := do
  let b ← u8
  return b != 0

def bytes (max : ℕ) : Read (List UInt8) := do
  let n ← word
  if n.toNat > max then failure else skip n.toNat

def str : Read Str := do
  let n ← word
  let b ← skip n.toNat
  fromUtf8 b

/-- A string whose length in UTF-16 units is at most `maxUnits`. -/
def strMax (maxUnits : ℕ) : Read Str := do
  let s ← str
  if utf16Len s ≤ maxUnits then return s else failure

def restStr : Read Str := fun p => (fromUtf8 p).map fun s => (s, [])

def done : Read Unit := fun p => if p = [] then some ((), p) else none

/-! ## What was written is read back -/

@[simp] theorem u8_cons (b : UInt8) (rest : List UInt8) : u8.run (b :: rest) = some (b, rest) :=
  rfl

@[simp] theorem bool_putBool (b : Bool) (rest : List UInt8) :
    bool.run (putBool b :: rest) = some (b, rest) := by
  cases b <;> rfl

@[simp] theorem flag_putBool (b : Bool) (rest : List UInt8) :
    flag.run (putBool b :: rest) = some (b, rest) := by
  cases b <;> rfl

@[simp] theorem word_put32 (x : UInt32) (rest : List UInt8) :
    word.run (put32 x ++ rest) = some (x, rest) := u32_put32 x rest

@[simp] theorem long_put64 (x : UInt64) (rest : List UInt8) :
    long.run (put64 x ++ rest) = some (x, rest) := u64_put64 x rest

theorem skip_append {n : ℕ} {front : List UInt8} (h : front.length = n) (rest : List UInt8) :
    (skip n).run (front ++ rest) = some (front, rest) := take_append h rest

@[simp] theorem skip_put32 (x : UInt32) (rest : List UInt8) :
    (skip 4).run (put32 x ++ rest) = some (put32 x, rest) := skip_append (length_put32 x) rest

@[simp] theorem restStr_utf8 (s : Str) : restStr.run (utf8 s) = some (s, []) := by
  simp [restStr, StateT.run]

@[simp] theorem done_nil : done.run [] = some ((), []) := rfl

theorem toNat_len {n : ℕ} (h : n < 2 ^ 32) : (UInt32.ofNat n).toNat = n :=
  UInt32.toNat_ofNat_of_lt' h

variable {max : ℕ} {s : Str} {p rest : List UInt8}

theorem bytes_putLen {data : List UInt8} (h : data.length < 2 ^ 32) (hmax : data.length ≤ max)
    (rest : List UInt8) :
    (bytes max).run (putLen data.length ++ (data ++ rest)) = some (data, rest) := by
  have hle : ¬ data.length > max := not_lt.mpr hmax
  simp [bytes, putLen, toNat_len h, hle, skip_append rfl]

theorem str_putStr (h : (utf8 s).length < 2 ^ 32) (rest : List UInt8) :
    str.run (putStr s ++ rest) = some (s, rest) := by
  simp [str, putStr, putLen, toNat_len h, skip_append rfl]

theorem strMax_putStr (h : (utf8 s).length < 2 ^ 32) (hmax : utf16Len s ≤ max) (rest : List UInt8) :
    (strMax max).run (putStr s ++ rest) = some (s, rest) := by
  simp [strMax, str_putStr h, hmax]

/-! ## Steadiness -/

theorem skip_eq_some {n : ℕ} {x : List UInt8} (h : (skip n).run p = some (x, rest)) :
    p = x ++ rest ∧ x.length = n := by
  simp only [skip, take, StateT.run] at h
  split_ifs at h with hlt
  simp only [List.splitAt_eq, Option.some.injEq, Prod.mk.injEq] at h
  obtain ⟨rfl, rfl⟩ := h
  refine ⟨(List.take_append_drop n p).symm, ?_⟩
  rw [List.length_take]
  omega

theorem steady_skip (n : ℕ) : Steady (skip n) := by
  intro p x rest h
  obtain ⟨hp, hlen⟩ := skip_eq_some h
  exact ⟨x, hp, skip_append hlen⟩

theorem steady_u8 : Steady u8 := by
  intro p x rest h
  cases p with
  | nil => cases h
  | cons b p =>
    cases h
    exact ⟨[x], rfl, fun _ => rfl⟩

theorem word_eq : word = skip 4 >>= fun b => pure (UInt32.ofNat (LittleEndian.value b)) := by
  funext p
  simp only [word, u32, skip]
  cases hp : take 4 p <;> simp only [Bind.bind, StateT.bind, hp] <;> rfl

theorem steady_word : Steady word := by
  rw [word_eq]
  exact (steady_skip 4).bind fun _ => steady_pure _

theorem steady_long : Steady long := by
  have heq : long = skip 8 >>= fun b => pure (UInt64.ofNat (LittleEndian.value b)) := by
    funext p
    simp only [long, u64, skip]
    cases hp : take 8 p <;> simp only [Bind.bind, StateT.bind, hp] <;> rfl
  rw [heq]
  exact (steady_skip 8).bind fun _ => steady_pure _

theorem steady_bool : Steady bool :=
  steady_u8.bind fun _ => (steady_pure _).ite ((steady_pure _).ite steady_failure)

theorem steady_bytes (max : ℕ) : Steady (bytes max) :=
  steady_word.bind fun n => steady_failure.ite (steady_skip n.toNat)

theorem steady_str : Steady str :=
  steady_word.bind fun n => (steady_skip n.toNat).bind fun b => steady_lift (fromUtf8 b)

theorem steady_strMax (max : ℕ) : Steady (strMax max) :=
  steady_str.bind fun _ => (steady_pure _).ite steady_failure

theorem utf16Len_of_strMax (h : (strMax max).run p = some (s, rest)) : utf16Len s ≤ max := by
  obtain ⟨s', p', -, h⟩ := run_bind_eq_some.mp h
  split_ifs at h with hmax
  · cases h
    exact hmax
  · cases h

theorem length_of_str (h : str.run p = some (s, rest)) : (utf8 s).length < 2 ^ 32 := by
  obtain ⟨n, p', -, h⟩ := run_bind_eq_some.mp h
  obtain ⟨b, p'', hskip, h⟩ := run_bind_eq_some.mp h
  have hlen : b.length = n.toNat := (skip_eq_some hskip).2
  cases hb : fromUtf8 b with
  | none =>
    rw [hb] at h
    cases h
  | some s' =>
    rw [hb] at h
    cases h
    rw [utf8_of_fromUtf8 hb, hlen]
    exact n.toNat_lt

theorem canonical_word : Canonical put32 word := by
  intro p x rest h
  rw [word_eq] at h
  obtain ⟨b, rest', hskip, h⟩ := run_bind_eq_some.mp h
  cases h
  obtain ⟨rfl, hlen⟩ := skip_eq_some hskip
  have hval : LittleEndian.value b < 2 ^ 32 := by
    have := LittleEndian.value_lt b
    rwa [hlen] at this
  rw [put32, UInt32.toNat_ofNat_of_lt' hval, LittleEndian.bytes_value hlen]

theorem canonical_str : Canonical putStr str := by
  intro p s rest h
  obtain ⟨n, p', hn, h⟩ := run_bind_eq_some.mp h
  obtain ⟨b, rest', hskip, h⟩ := run_bind_eq_some.mp h
  obtain ⟨hp', hlen⟩ := skip_eq_some hskip
  cases hb : fromUtf8 b with
  | none =>
    rw [hb] at h
    cases h
  | some s' =>
    rw [hb] at h
    cases h
    rw [canonical_word p n p' hn, hp', putStr, putLen, utf8_of_fromUtf8 hb, hlen,
      UInt32.ofNat_toNat, List.append_assoc]

theorem prefixFree_done {α : Type} (x : α) :
    PrefixFree (done >>= fun _ => (pure x : Read α)).run := by
  have hnil : ∀ p, ((done >>= fun _ => (pure x : Read α)).run p).isSome → p = [] := by
    intro p hp
    obtain ⟨y, hy⟩ := Option.isSome_iff_exists.mp hp
    obtain ⟨u, rest, hdone, -⟩ := run_bind_eq_some.mp hy
    by_contra hne
    simp [done, StateT.run, hne] at hdone
  intro p extra hp hextra
  exact (List.append_eq_nil_iff.mp (hnil _ hextra)).2

end Rd

end AetherVfs.Protocol
