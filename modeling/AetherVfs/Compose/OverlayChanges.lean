import AetherVfs.Compose.Memory
import AetherVfs.Compose.Overlay
import AetherVfs.Lib.Program

/-!
# Removal from an overlay

`remove` of `vfs-compose/src/overlay/`: a program whose steps are the calls it makes on the upper
and on the base, and the sections under its own locks; other threads run between them. A provider
is called in its present state and moves it.
-/

namespace AetherVfs.Compose.Overlay

def State.start (upper base : Provider) : State upper base where
  upper := upper.state
  base := base.state
  opens := .new
  whiteouts := .new

abbrev Act (upper base : Provider) := Prog (State upper base) Unit Status

namespace Act

variable {upper base : Provider} {α : Type}

def look (f : State upper base → Except Status α) : Act upper base α := .call fun _ s => (f s, s)

def onUpper (f : upper.State → Except Status α × upper.State) : Act upper base α :=
  .call fun _ s => ((f s.upper).1, { s with upper := (f s.upper).2 })

def wait : Act upper base α := .step (fun _ => false) (fun _ s => ((), s)) fun _ => .fail .ioError

def upperStat (p : VPath) : Act upper base (Option Stat) :=
  look fun s => (upper.view s.upper).getattr p

def baseStat (p : VPath) : Act upper base (Option Stat) :=
  look fun s => (base.view s.base).getattr p

section Rules

variable {C : Bool → State upper base → Prop} {Q : α → State upper base → Prop}
  {E : Status → State upper base → Prop} {s : State upper base}

/-- What is left to show once a call returned `r`. -/
def Then (Q : α → State upper base → Prop) (E : Status → State upper base → Prop)
    (r : Except Status α) (s : State upper base) : Prop :=
  match r with
  | .ok a => Q a s
  | .error e => E e s

@[simp] theorem then_ok (a : α) : Then Q E (.ok a) s ↔ Q a s := Iff.rfl

@[simp] theorem then_error (e : Status) : Then Q E (.error e) s ↔ E e s := Iff.rfl

theorem wp_call {f : State upper base → Except Status α × State upper base} :
    Prog.wp (fun _ : Unit => True) C Q E (.call fun _ => f) s ↔
      C true s ∧ Then Q E (f s).1 (f s).2 := by
  rw [Prog.wp_call]
  refine and_congr_right fun _ => ⟨fun h => ?_, fun h _ _ => ?_⟩
  · have h := h () trivial
    rcases heq : f s with ⟨_ | _, s'⟩ <;> simpa [heq] using h
  · rcases heq : f s with ⟨_ | _, s'⟩ <;> simpa [heq] using h

theorem wp_look {f : State upper base → Except Status α} :
    Prog.wp (fun _ : Unit => True) C Q E (look f) s ↔ C true s ∧ Then Q E (f s) s := wp_call

theorem wp_upperStat {Q : Option Stat → State upper base → Prop} {p : VPath} :
    Prog.wp (fun _ : Unit => True) C Q E (upperStat p) s ↔
      C true s ∧ Then Q E ((upper.view s.upper).getattr p) s := wp_call

theorem wp_baseStat {Q : Option Stat → State upper base → Prop} {p : VPath} :
    Prog.wp (fun _ : Unit => True) C Q E (baseStat p) s ↔
      C true s ∧ Then Q E ((base.view s.base).getattr p) s := wp_call

theorem wp_onUpper {f : upper.State → Except Status α × upper.State} :
    Prog.wp (fun _ : Unit => True) C Q E (onUpper f) s ↔
      C true s ∧ Then Q E (f s.upper).1 { s with upper := (f s.upper).2 } := wp_call

theorem wp_free {β : Type} {act : State upper base → β × State upper base}
    {k : β → Act upper base α} :
    Prog.wp (fun _ : Unit => True) C Q E (.step (fun _ => true) (fun _ => act) k) s ↔
      C true s ∧ Prog.wp (fun _ : Unit => True) C Q E (k (act s).1) (act s).2 :=
  and_congr_right fun _ => ⟨fun h => h rfl () trivial, fun h _ _ _ => h⟩

theorem wp_update {Q : Unit → State upper base → Prop}
    {f : State upper base → State upper base} :
    Prog.wp (fun _ : Unit => True) C Q E (.update f) s ↔ C true s ∧ Q () (f s) := wp_free

theorem wp_inspect {f : State upper base → α} :
    Prog.wp (fun _ : Unit => True) C Q E (.inspect f) s ↔ C true s ∧ Q (f s) s := wp_free

end Rules

end Act

def whiteoutName (name : Str) : Str := whiteoutPrefix ++ name

def whiteoutPath (p : VPath) : VPath := p.dropLast ++ [whiteoutName (p.getLast?.getD [])]

def writeCreateTrunc : Flags := ⟨true, true, true, false⟩

variable [ToLowercase] {upper base : Provider}

open Act

/-! ## Whiteouts -/

/-- `whiteout_walk`, of which at most `rounds` scans are followed: a thread that needs more is seen
as still walking. A scan is kept only if no marker changed meanwhile. -/
def walkRounds (p : VPath) (own ancestors : Bool) : ℕ → Act upper base Bool
  | 0 => wait
  | rounds + 1 => do
      let (walk, generation) ← Prog.inspect fun s : State upper base =>
        (walkFrom s.whiteouts ancestors own p.reverse, s.whiteouts.generation)
      match walk with
      | .found hidden => pure hidden
      | .unscanned dir =>
        let hidden ← look fun s => scanWhiteouts (upper.view s.upper) dir
        Prog.update fun s =>
          if s.whiteouts.generation = generation then
            { s with whiteouts.dirs := s.whiteouts.dirs.insert (dir.map fold) hidden }
          else s
        walkRounds p own ancestors rounds

def WhiteoutIndex.note (ix : WhiteoutIndex) (p : VPath) (hidden : Bool) : WhiteoutIndex where
  generation := ix.generation + 1
  dirs :=
    match ix.dirs.lookup (p.dropLast.map fold) with
    | none => ix.dirs
    | some names =>
      let name := fold (p.getLast?.getD [])
      ix.dirs.insert (p.dropLast.map fold)
        (if hidden then name :: names else names.filter (· ≠ name))

def noteWhiteout (p : VPath) (hidden : Bool) : Act upper base Unit :=
  .update fun s => { s with whiteouts := s.whiteouts.note p hidden }

def writeWhiteout (p : VPath) : Act upper base Unit := do
  let o ← onUpper fun u => upper.openPath u (whiteoutPath p) writeCreateTrunc
  let _ ← onUpper fun u => upper.onHandle u .close o.handle
  noteWhiteout p true

/-! ## The calls -/

variable (rounds : ℕ)

def remove (p : VPath) : Act upper base Unit := do
  if ← walkRounds p true true rounds then throw .notFound
  else
    let inUpper ← upperStat p
    let inBase ← baseStat p
    if inUpper.isNone ∧ inBase.isNone then throw .notFound
    else
      if inUpper.isSome then onUpper fun u => upper.onPath u .remove p
      if inBase.isSome then writeWhiteout p

end AetherVfs.Compose.Overlay
