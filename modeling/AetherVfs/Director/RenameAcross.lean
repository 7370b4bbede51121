import AetherVfs.Compose.Memory
import AetherVfs.Lib.Program

/-!
# A rename from one root to another

`Director::rename_across` of `vfs-director`, for two different roots: a program whose steps are the
calls on the two providers, each answered as the environment chooses within the contract of the
trait: any call may fail, a read may be short before the end of the file and is empty only there,
and a write may be short.
-/

namespace AetherVfs.Director

open List

open Compose (Access Bytes Kind)

/-- `ST_CROSS_ROOT` beside the statuses of the providers. -/
inductive Status where
  | crossRoot
  | of (s : Compose.Status)
deriving DecidableEq

/-- The files at the two paths, and the handles the call has on them. The files are independent: a
call on one, and the handle on it, leave the other as it is. -/
structure Files where
  source : Option Bytes
  dest : Option Bytes
  sourceOpen : Bool
  destOpen : Bool
  /-- All of the destination's bytes were flushed. -/
  flushed : Bool
  /-- A write failed, or took nothing. -/
  refused : Bool

/-- How a provider answers a call: the status it fails with, or how many bytes it is ready to move;
and what a call that fails leaves at the destination. -/
structure Answer where
  result : Except Status ℕ
  left : Option Bytes

abbrev Act := Prog Files Answer Status

/-- A call that changes the files only if it does not fail. -/
def call {α : Type} (f : Files → α × Files) : Act (Except Status α) :=
  .step (fun _ => true) (fun a s =>
    match a.result with
    | .error e => (.error e, s)
    | .ok _ => (.ok (f s).1, (f s).2)) .done

/-- The `?` operator. -/
def ask {α : Type} : Except Status α → Act α
  | .ok a => pure a
  | .error e => throw e

def maxRead : ℕ := 2 ^ 20

/-- `read_at` of the source: at least one byte before the end. -/
def readAt (offset : ℕ) : Act (Except Status Bytes) :=
  .step (fun _ => true) (fun a s =>
    (a.result.map fun n => ((s.source.getD []).drop offset).take (max 1 (min n maxRead)), s)) .done

def writeAt (offset : ℕ) (data : Bytes) : Act ℕ :=
  .call fun a s =>
    match a.result with
    | .error e => (.error e, { s with dest := a.left, flushed := false, refused := true })
    | .ok n =>
      let data := data.take n
      (.ok data.length, { s with
        dest := s.dest.map (Compose.Memory.overwrite offset data)
        flushed := false
        refused := s.refused || data.isEmpty })

def openDest : Act Unit :=
  .call fun a s =>
    match a.result with
    | .error e => (.error e, { s with dest := a.left })
    | .ok _ => (.ok (), { s with dest := some [], destOpen := true, flushed := false })

/-- A handle is gone after `close`, whatever that answers. -/
def close (f : Files → Files) : Act (Except Status Unit) :=
  .step (fun _ => true) (fun a s => (a.result.map fun _ => (), f s)) .done

/-- The inner loop: a write that takes nothing is an error. -/
def writeAll (offset : ℕ) (data : Bytes) : Act Unit :=
  if data.length = 0 then pure ()
  else do
    let n ← writeAt offset data
    if n = 0 then throw (.of .ioError) else writeAll (offset + n) (data.drop n)
termination_by data.length
decreasing_by grind

/-- The loop of the copy; a failed write leaves the whole closure. -/
def copyLoop (size pos : ℕ) : Act (Except Status Unit) :=
  if size ≤ pos then pure (.ok ())
  else do
    match ← readAt pos with
    | .error e => pure (.error e)
    | .ok data =>
      if data.length = 0 then pure (.ok ())
      else do
        writeAll pos data
        copyLoop size (pos + data.length)
termination_by size - pos
decreasing_by omega

/-- The closure that copies the file. -/
def copy (size : ℕ) : Act Unit := do
  openDest
  let result ← copyLoop size 0
  let flushed ← call fun s => ((), { s with flushed := true })
  let closed ← close fun s => { s with destOpen := false }
  ask (result >>= fun _ => flushed >>= fun _ => closed)

/-- `rename_across` from the open of the source on. -/
def moveFile : Act Unit := do
  let opened ← call fun s => ((s.source.getD []).length, { s with sourceOpen := true })
  let size ← ask opened
  let copied ← (copy size >>= fun _ => pure (.ok ())).handle fun e => pure (.error e)
  let _ ← close fun s => { s with sourceOpen := false }
  ask copied
  let removed ← call fun s => ((), { s with source := none })
  ask removed

/-- `rename_across`: `found` is what comes of normalizing the paths and finding the providers,
`kind` what the source is, and `access` that of the destination's provider. -/
def renameAcross (found : Except Status Unit) (kind : Kind) (access : Access) : Act Unit := do
  ask found
  let stat ← call fun s => (s.source, s)
  let some _ ← ask stat | throw (.of .notFound)
  if kind = .dir then throw .crossRoot
  else if access ≠ .readWrite then throw (.of .readOnly)
  else moveFile

/-- The source is there, or all of it is at the destination and flushed. -/
def Safe (content : Bytes) (s : Files) : Prop :=
  s.source = some content ∨ s.source = none ∧ s.dest = some content ∧ s.flushed = true

section Rules

variable {α : Type} {C : Bool → Files → Prop} {E : Status → Files → Prop} {s : Files}

theorem wp_call {f : Files → α × Files} {Q : Except Status α → Files → Prop} :
    Prog.wp (fun _ => True) C Q E (call f) s ↔
      C true s ∧ (∀ e, Q (.error e) s) ∧ Q (.ok (f s).1) (f s).2 := by
  refine and_congr_right fun _ => ⟨fun h => ?_, fun h _ a _ => ?_⟩
  · exact ⟨fun e => h rfl ⟨.error e, none⟩ trivial, h rfl ⟨.ok 0, none⟩ trivial⟩
  · obtain ⟨e | n, left⟩ := a
    · exact h.1 e
    · exact h.2

theorem wp_close {f : Files → Files} {Q : Except Status Unit → Files → Prop} :
    Prog.wp (fun _ => True) C Q E (close f) s ↔ C true s ∧ ∀ r, Q r (f s) := by
  refine and_congr_right fun _ => ⟨fun h r => ?_, fun h _ a _ => h _⟩
  cases r with
  | error e => exact h rfl ⟨.error e, none⟩ trivial
  | ok _ => exact h rfl ⟨.ok 0, none⟩ trivial

theorem wp_readAt {offset : ℕ} {Q : Except Status Bytes → Files → Prop} :
    Prog.wp (fun _ => True) C Q E (readAt offset) s ↔ C true s ∧ (∀ e, Q (.error e) s) ∧
      ∀ n, Q (.ok (((s.source.getD []).drop offset).take (max 1 (min n maxRead)))) s := by
  refine and_congr_right fun _ => ⟨fun h => ?_, fun h _ a _ => ?_⟩
  · exact ⟨fun e => h rfl ⟨.error e, none⟩ trivial, fun n => h rfl ⟨.ok n, none⟩ trivial⟩
  · obtain ⟨e | n, left⟩ := a
    · exact h.1 e
    · exact h.2 n

theorem wp_ask_ok {a : α} {Q : α → Files → Prop} :
    Prog.wp (fun _ => True) C Q E (ask (.ok a)) s ↔ Q a s := Iff.rfl

theorem wp_ask_error {e : Status} {Q : α → Files → Prop} :
    Prog.wp (fun _ => True) C Q E (ask (.error e)) s ↔ E e s := Iff.rfl

end Rules

theorem overwrite_end (body data : Bytes) :
    Compose.Memory.overwrite body.length data body = body ++ data := by
  unfold Compose.Memory.overwrite Compose.Memory.resize
  by_cases hdata : data = []
  · simp [hdata]
  · have hpos := length_pos_iff.mpr hdata
    have htake : body.take (body.length + data.length) = body :=
      take_of_length_le (Nat.le_add_right _ _)
    simp [hpos, htake]

theorem take_append_eq_take {content data : Bytes} {pos : ℕ} (h : data <+: content.drop pos) :
    content.take pos ++ data = content.take (pos + data.length) := by
  rw [take_add, ← prefix_iff_eq_take.mp h]

/-- The first `pos` bytes are copied. -/
structure Copying (content : Bytes) (pos : ℕ) (s : Files) : Prop where
  source : s.source = some content
  destOpen : s.destOpen = true
  refused : s.refused = false
  dest : s.dest = some (content.take pos)

/-- A write was refused, and the closure was left with the destination open. -/
def Stuck (content : Bytes) (s : Files) : Prop :=
  s.source = some content ∧ s.destOpen = true ∧ s.refused = true

variable {content : Bytes} {s : Files}

theorem writeAll_spec {pos : ℕ} {data : Bytes} (hdata : data <+: content.drop pos)
    (h : Copying content pos s) : Prog.wp (fun _ => True) (fun _ => Safe content)
      (fun _ => Copying content (pos + data.length)) (fun _ => Stuck content) (writeAll pos data)
      s := by
  induction pos, data using writeAll.induct generalizing s with
  | case1 pos data hempty =>
    rw [writeAll, if_pos hempty, hempty]
    exact h
  | case2 pos data hne ih =>
    rw [writeAll, if_neg hne, Prog.wp_bind, writeAt, Prog.wp_call]
    refine ⟨.inl h.source, fun answer _ => ?_⟩
    obtain ⟨r, left⟩ := answer
    cases r with
    | error e => exact ⟨h.source, h.destOpen, rfl⟩
    | ok n =>
      dsimp only
      split_ifs with hzero
      · refine ⟨h.source, h.destOpen, ?_⟩
        simp [eq_nil_of_length_eq_zero hzero]
      · have htaken : data.take n <+: content.drop pos := (List.take_prefix n data).trans hdata
        have hpos : (content.take pos).length = pos := by
          have hle := hdata.length_le
          rw [length_drop] at hle
          rw [length_take]
          omega
        have hrest : data.drop (data.take n).length <+:
            content.drop (pos + (data.take n).length) := by
          rw [← drop_drop]
          exact hdata.drop _
        have hsum : pos + (data.take n).length + (data.drop (data.take n).length).length =
            pos + data.length := by
          rw [length_drop, length_take]
          omega
        have hdest : s.dest.map (Compose.Memory.overwrite pos (data.take n)) =
            some (content.take (pos + (data.take n).length)) := by
          rw [h.dest, Option.map_some, ← take_append_eq_take htaken, ← overwrite_end, hpos]
        have htook : (s.refused || (data.take n).isEmpty) = false := by
          rw [h.refused, Bool.false_or, isEmpty_eq_false_iff, ← length_pos_iff]
          exact Nat.pos_of_ne_zero hzero
        rw [← hsum]
        exact ih _ hzero hrest ⟨h.source, h.destOpen, htook, hdest⟩

theorem copyLoop_spec {pos : ℕ} (h : Copying content pos s) (hpos : pos ≤ content.length) :
    Prog.wp (fun _ => True) (fun _ => Safe content)
      (fun r s' => ∃ pos', Copying content pos' s' ∧ (r = .ok () → pos' = content.length))
      (fun _ => Stuck content) (copyLoop content.length pos) s := by
  induction hleft : content.length - pos using Nat.strong_induction_on generalizing pos s with
  | _ left ih =>
    rw [copyLoop]
    split_ifs with hend
    · exact ⟨pos, h, fun _ => by omega⟩
    · rw [Prog.wp_bind, wp_readAt, h.source, Option.getD_some]
      refine ⟨.inl h.source, fun e => ⟨pos, h, fun hok => by cases hok⟩, fun n => ?_⟩
      set data := (content.drop pos).take (max 1 (min n maxRead)) with hdata
      have hlen : data.length = min (max 1 (min n maxRead)) (content.length - pos) := by
        rw [hdata, length_take, length_drop]
      dsimp only
      rw [if_neg (by omega), Prog.wp_bind]
      refine (writeAll_spec (List.take_prefix _ _) h).weaken (fun _ s' hs' => ?_) fun _ _ => id
      exact ih _ (by omega) hs' (by omega) rfl

/-- What the closure leaves: the whole file, flushed and closed, or an error, with the destination
open exactly if it refused a write. -/
theorem copy_spec (hsource : s.source = some content) (hdest : s.destOpen = false)
    (hrefused : s.refused = false) :
    Prog.wp (fun _ => True) (fun _ => Safe content)
      (fun _ s' => s'.source = some content ∧ s'.destOpen = false ∧ s'.refused = false ∧
        s'.dest = some content ∧ s'.flushed = true)
      (fun _ s' => s'.source = some content ∧ s'.destOpen = s'.refused)
      (copy content.length) s := by
  rw [copy, Prog.wp_bind, openDest, Prog.wp_call]
  refine ⟨.inl hsource, fun answer _ => ?_⟩
  obtain ⟨r, left⟩ := answer
  cases r with
  | error e => exact ⟨hsource, hdest.trans hrefused.symm⟩
  | ok _ =>
    have hstart : Copying content 0
        { s with dest := some [], destOpen := true, flushed := false } :=
      ⟨hsource, rfl, hrefused, rfl⟩
    dsimp only
    rw [Prog.wp_bind]
    refine (copyLoop_spec hstart (Nat.zero_le _)).weaken (fun r s' hs' => ?_)
      fun _ s' hs' => ⟨hs'.1, hs'.2.1.trans hs'.2.2.symm⟩
    obtain ⟨pos, hs', hr⟩ := hs'
    simp only [Prog.wp_bind, wp_call, wp_close]
    refine ⟨.inl hs'.source, fun e => ⟨.inl hs'.source, fun c => ?_⟩, .inl hs'.source, fun c => ?_⟩
    · cases r <;> exact ⟨hs'.source, hs'.refused.symm⟩
    · cases r with
      | error e => exact ⟨hs'.source, hs'.refused.symm⟩
      | ok _ =>
        cases c with
        | error e => exact ⟨hs'.source, hs'.refused.symm⟩
        | ok _ =>
          have hall := hs'.dest
          rw [hr rfl, take_length] at hall
          exact ⟨hs'.source, rfl, hs'.refused, hall, rfl⟩

/-- Nothing is open, and the source has the content. -/
def start (content : Bytes) (dest : Option Bytes) : Files :=
  ⟨some content, dest, false, false, false, false⟩

/-- Both handles are closed, except that the destination's is left open if it refused a write. -/
def Failed (content : Bytes) (s : Files) : Prop :=
  s.source = some content ∧ s.sourceOpen = false ∧ s.destOpen = s.refused

/-- The file is at the destination, and both handles are closed. -/
def Moved (content : Bytes) (s : Files) : Prop :=
  s.source = none ∧ s.dest = some content ∧ s.flushed = true ∧ s.sourceOpen = false ∧
    s.destOpen = false

theorem moveFile_spec (content : Bytes) (dest : Option Bytes) :
    Prog.wp (fun _ => True) (fun _ => Safe content) (fun _ => Moved content)
      (fun _ => Failed content) moveFile (start content dest) := by
  rw [moveFile]
  simp only [Prog.wp_bind, wp_call, wp_ask_ok, wp_ask_error, Prog.wp_handle]
  refine ⟨.inl rfl, fun e => ⟨rfl, rfl, rfl⟩, ?_⟩
  refine (copy_spec rfl rfl rfl).weaken (fun _ s hs => ?_) fun e s hs => ?_
  · obtain ⟨hsource, hclosed, hrefused, hdest, hflushed⟩ := hs
    simp only [Prog.wp_pure, Prog.wp_bind, wp_close, wp_ask_ok, wp_ask_error, wp_call]
    refine ⟨.inl hsource, fun _ => ⟨.inl hsource, fun e => ?_, ?_⟩⟩
    · exact ⟨hsource, rfl, hclosed.trans hrefused.symm⟩
    · exact ⟨rfl, hdest, hflushed, rfl, hclosed⟩
  · simp only [Prog.wp_pure, Prog.wp_bind, wp_close, wp_ask_error]
    exact ⟨.inl hs.1, fun _ => ⟨hs.1, rfl, hs.2⟩⟩

/-- Whatever the providers answer: while the call runs, the source is there or its bytes are at the
destination and flushed. If it returns, the file was moved and both handles are closed; if it
fails, the source is as it was, and the handles are closed unless the destination refused a write,
in which case that of the destination is left open. -/
theorem renameAcross_spec (found : Except Status Unit) (kind : Kind) (access : Access)
    (content : Bytes) (dest : Option Bytes) :
    Prog.wp (fun _ => True) (fun _ => Safe content) (fun _ => Moved content)
      (fun _ => Failed content) (renameAcross found kind access) (start content dest) := by
  rw [renameAcross, Prog.wp_bind]
  cases found with
  | error e => exact ⟨rfl, rfl, rfl⟩
  | ok _ =>
    simp only [Prog.wp_bind, wp_call, wp_ask_ok, wp_ask_error]
    refine ⟨.inl rfl, fun e => ⟨rfl, rfl, rfl⟩, ?_⟩
    dsimp only [start]
    split_ifs
    · exact ⟨rfl, rfl, rfl⟩
    · exact ⟨rfl, rfl, rfl⟩
    · exact moveFile_spec content dest

/-- A file of one byte whose only write fails: the destination's handle is not always closed. -/
theorem renameAcross_not_closed : ¬Prog.wp (fun _ => True) (fun _ => Safe [1]) (fun _ => Moved [1])
    (fun _ s => Failed [1] s ∧ s.destOpen = false) (renameAcross (.ok ()) .file .readWrite)
    (start [1] none) := by
  intro h
  simp only [renameAcross, moveFile, Prog.wp_bind, wp_ask_ok, wp_ask_error, wp_call] at h
  -- the source is found and opened
  have h := h.2.2
  rw [start] at h
  dsimp only at h
  rw [if_neg (by decide), if_neg (by decide)] at h
  simp only [Prog.wp_bind, wp_ask_ok, wp_ask_error, wp_call, Prog.wp_handle] at h
  have h := h.2.2
  rw [copy, Prog.wp_bind, openDest, Prog.wp_call] at h
  have h := h.2 ⟨.ok 0, none⟩ trivial
  -- the destination is opened, and the byte is read
  dsimp only at h
  rw [Prog.wp_bind, copyLoop, if_neg (by decide), Prog.wp_bind, wp_readAt] at h
  have h := h.2.2 1
  dsimp only at h
  rw [if_neg (by decide), Prog.wp_bind, writeAll, if_neg (by decide), Prog.wp_bind, writeAt,
    Prog.wp_call] at h
  have h := h.2 ⟨.error (.of .noSpace), none⟩ trivial
  dsimp only at h
  simp [Prog.wp_bind, wp_close, wp_ask_error] at h

end AetherVfs.Director
