import AetherVfs.Compose.FixedTree
import Mathlib.Data.List.TakeWhile

/-!
# Layers

`vfs-compose/src/layered.rs` and `stack_layers` of `lib.rs`: a provider over another one, and a
list of them stacked from the bottom to the top. `getattr` asks from the top down and takes the
first answer; a listing takes the spelling of a name from the bottom and its stat from the top.
-/

namespace AetherVfs.Compose

open List

structure HandleTable (τ : Type) where
  next : Handle
  map : Table Handle τ

namespace HandleTable

variable {τ : Type}

def new : HandleTable τ := ⟨1, ∅⟩

def insert (t : HandleTable τ) (value : τ) : Handle × HandleTable τ :=
  (t.next, ⟨t.next + 1, t.map.insert t.next value⟩)

theorem lookup_insert (t : HandleTable τ) (value : τ) :
    (t.insert value).2.map.lookup (t.insert value).1 = some value :=
  AList.lookup_insert _

end HandleTable

inductive Layer where
  | top
  | bottom
deriving DecidableEq

section Layered

variable [ToLowercase]

def mergeStoredName (lower upper : View) (p : VPath) : Except Status (Option Str) :=
  match lower.storedNameOf p with
  | .error e => .error e
  | .ok (some name) => .ok (some name)
  | .ok none => upper.storedNameOf p

namespace LayeredProvider

def view (top bottom : View) : View where
  getattr p :=
    match top.getattr p with
    | .error e => .error e
    | .ok (some s) => .ok (some s)
    | .ok none => bottom.getattr p
  readdir p :=
    match top.readdir p with
    | .error .notFound => bottom.readdir p
    | .error e => .error e
    | .ok topEntries =>
      let bottomEntries := (bottom.readdir p).toOption.getD []
      .ok ((Merged.empty.insertAll bottomEntries).mergeAll topEntries).sortedByFoldedName
  storedName p := mergeStoredName bottom top p

def writeTarget (top bottom : Access) : Option Layer :=
  if top = .readWrite then some .top else if bottom = .readWrite then some .bottom else none

def strongest : Access → Access → Access
  | .readWrite, _ | _, .readWrite => .readWrite
  | .read, _ | _, .read => .read
  | .seqRead, .seqRead => .seqRead

variable (top bottom : Provider)

structure State where
  top : top.State
  bottom : bottom.State
  opens : HandleTable (Layer × Handle)

variable {top bottom}

namespace State

def ofTop {α : Type} (s : State top bottom) (x : α × top.State) : α × State top bottom :=
  (x.1, { s with top := x.2 })

def ofBottom {α : Type} (s : State top bottom) (x : α × bottom.State) : α × State top bottom :=
  (x.1, { s with bottom := x.2 })

def track (s : State top bottom) (layer : Layer) (o : Opened) :
    Except Status Opened × State top bottom :=
  let (h, opens) := s.opens.insert (layer, o.handle)
  (.ok { o with handle := h }, { s with opens := opens })

def finish (layer : Layer) :
    Except Status Opened × State top bottom → Except Status Opened × State top bottom
  | (.ok o, s) => s.track layer o
  | (.error e, s) => (.error e, s)

def openPath (s : State top bottom) (p : VPath) (flags : Flags) :
    Except Status Opened × State top bottom :=
  if flags.write then
    match writeTarget top.access bottom.access with
    | none => (.error .readOnly, s)
    | some .top => finish .top (s.ofTop (top.openPath s.top p flags))
    | some .bottom => finish .bottom (s.ofBottom (bottom.openPath s.bottom p flags))
  else
    match s.ofTop (top.openPath s.top p flags) with
    | (.error .notFound, s) => finish .bottom (s.ofBottom (bottom.openPath s.bottom p flags))
    | r => finish .top r

/-- The calls on a handle go to the child that holds it; a close takes it out of the table. -/
def onHandle (s : State top bottom) (op : HandleOp) (h : Handle) :
    Except Status Reply × State top bottom :=
  match s.opens.map.lookup h with
  | none => (.error .badFh, s)
  | some (layer, inner) =>
    let s := if op = .close then { s with opens.map := s.opens.map.erase h } else s
    match layer with
    | .top => s.ofTop (top.onHandle s.top op inner)
    | .bottom => s.ofBottom (bottom.onHandle s.bottom op inner)

def onPath (s : State top bottom) (op : PathOp) (p : VPath) :
    Except Status Unit × State top bottom :=
  match writeTarget top.access bottom.access with
  | none => (.error .readOnly, s)
  | some .top => s.ofTop (top.onPath s.top op p)
  | some .bottom => s.ofBottom (bottom.onPath s.bottom op p)

def rename (s : State top bottom) (src dst : VPath) :
    Except Status Unit × State top bottom :=
  match writeTarget top.access bottom.access with
  | none => (.error .readOnly, s)
  | some .top => s.ofTop (top.rename s.top src dst)
  | some .bottom => s.ofBottom (bottom.rename s.bottom src dst)

end State

end LayeredProvider

open LayeredProvider in
/-- `LayeredProvider::new`. -/
@[reducible] def layered (top bottom : Provider) : Provider where
  State := State top bottom
  state := ⟨top.state, bottom.state, .new⟩
  access := strongest top.access bottom.access
  view s := view (top.view s.top) (bottom.view s.bottom)
  openPath := State.openPath
  onHandle := State.onHandle
  onPath := State.onPath
  rename := State.rename

def topStat (down : List View) (p : VPath) : Option Stat := down.findSome? fun v => v.stat p

/-- The layers above the topmost one that has `d` as a file. -/
def above (down : List View) (d : VPath) : List View :=
  down.takeWhile fun v => (v.stat d).map Stat.kind ≠ some .file

/-- The spelling of the bottommost layer that lists the name. -/
def bottomName (down : List View) (d : VPath) (n : Str) : Option Str :=
  down.reverse.findSome? fun v => (v.shown d n).map DirEntry.name

/-- The union of the listings at one name: the stat of the topmost layer that lists it, under the
spelling of the bottommost. -/
def unionAt (down : List View) (d : VPath) (n : Str) : Option DirEntry :=
  match down.findSome? fun v => (v.shown d n).map DirEntry.stat, bottomName down d n with
  | some stat, some name => some ⟨name, stat⟩
  | _, _ => none

theorem bottomName_cons (u : View) (down : List View) (d : VPath) (n : Str) :
    bottomName (u :: down) d n = (bottomName down d n).or ((u.shown d n).map DirEntry.name) := by
  rw [bottomName, reverse_cons, findSome?_append, findSome?_singleton]
  rfl

variable {down : List View} {p : VPath} {flags : Flags}

theorem unionAt_eq_none {d : VPath} {n : Str} (h : ∀ v ∈ down, v.shown d n = none) :
    unionAt down d n = none := by
  have hstat : down.findSome? (fun v => (v.shown d n).map DirEntry.stat) = none := by
    rw [findSome?_eq_none_iff]
    intro v hv
    rw [h v hv]
    rfl
  rw [unionAt, hstat]

theorem unionAt_cons (u : View) (down : List View) (d : VPath) (n : Str) :
    unionAt (u :: down) d n =
      ((u.shown d n).map (Merged.live (unionAt down d n))).or (unionAt down d n) := by
  rw [unionAt, bottomName_cons, findSome?_cons]
  -- Below, some layer gives a stat exactly when some layer gives a name.
  have hboth : (down.findSome? fun v => (v.shown d n).map DirEntry.stat) = none ↔
      bottomName down d n = none := by
    simp [bottomName, findSome?_eq_none_iff]
  cases hu : u.shown d n with
  | none =>
    cases hs : down.findSome? fun v => (v.shown d n).map DirEntry.stat <;>
      simp [unionAt, hs]
  | some e =>
    cases hs : down.findSome? fun v => (v.shown d n).map DirEntry.stat with
    | none => simp [unionAt, hs, hboth.mp hs, Merged.live]
    | some s =>
      cases hn : bottomName down d n with
      | none =>
        rw [hboth.mpr hn] at hs
        cases hs
      | some name => simp [unionAt, hs, hn, Merged.live]

/-- The view answers as the layers do. -/
structure Merges (v : View) (down : List View) : Prop where
  getattr : ∀ p, v.getattr p = .ok (topStat down p)
  missing : ∀ {d}, topStat down d = none → v.readdir d = .error .notFound
  plain : ∀ {d s}, topStat down d = some s → s.kind = .file → v.readdir d = .error .notADir
  lists : ∀ {d s}, topStat down d = some s → s.kind = .dir → ∃ es, v.readdir d = .ok es ∧
    FoldUnique es ∧ ∀ n, entryAt es (fold n) = unionAt (above down d) d n
  storedName : ∀ d n, v.storedNameOf (d ++ [n]) = .ok (bottomName down d n)

theorem LayeredProvider.view_storedNameOf {top bottom : View} {r : Option Str}
    (h : mergeStoredName bottom top p = .ok r) : (view top bottom).storedNameOf p = .ok r := by
  have hname : (view top bottom).storedName p = .ok r := h
  rw [View.storedNameOf, hname]

theorem Merges.entryAt_getD {v : View} (h : Merges v down) (hdown : ∀ w ∈ down, w.Consistent)
    (d : VPath) (n : Str) :
    entryAt ((v.readdir d).toOption.getD []) (fold n) = unionAt (above down d) d n ∧
      FoldUnique ((v.readdir d).toOption.getD []) := by
  -- Where `d` is missing, or a file hides it, no layer above the file lists anything.
  have hnone : ∀ e, (∀ w ∈ above down d, w.stat d = none) → v.readdir d = .error e →
      entryAt ((v.readdir d).toOption.getD []) (fold n) = unionAt (above down d) d n ∧
        FoldUnique ((v.readdir d).toOption.getD []) := by
    intro e habove hread
    rw [hread, unionAt_eq_none fun w hw => ?_]
    · exact ⟨rfl, nodup_nil⟩
    · have hw' : w ∈ down := (takeWhile_subset _) hw
      exact View.shown_of_error ((hdown w hw').missing (habove w hw)) n
  cases htop : topStat down d with
  | none =>
    refine hnone _ (fun w hw => ?_) (h.missing htop)
    exact findSome?_eq_none_iff.mp htop w (takeWhile_subset _ hw)
  | some s =>
    cases hk : s.kind with
    | dir =>
      obtain ⟨es, hread, hes, hentry⟩ := h.lists htop hk
      rw [hread]
      exact ⟨hentry n, hes⟩
    | file =>
      refine hnone _ (fun w hw => ?_) (h.plain htop hk)
      obtain ⟨l₁, a, l₂, rfl, ha, hl₁⟩ := findSome?_eq_some_iff.mp htop
      have hcut : above (l₁ ++ a :: l₂) d = l₁ := by
        rw [above, takeWhile_append_of_pos]
        · simp [ha, hk]
        · intro w hw
          simp [hl₁ w hw]
      rw [hcut] at hw
      exact hl₁ w hw

theorem Merges.layered {u v : View} (hu : u.Consistent) (h : Merges v down)
    (hdown : ∀ w ∈ down, w.Consistent) : Merges (LayeredProvider.view u v) (u :: down) := by
  have htop : ∀ p, topStat (u :: down) p = (u.stat p).or (topStat down p) := by
    intro p
    rw [topStat, findSome?_cons]
    cases u.stat p <;> rfl
  have hpass : ∀ {d}, u.stat d = none → (LayeredProvider.view u v).readdir d = v.readdir d := by
    intro d hd
    simp only [LayeredProvider.view, hu.missing hd]
  refine ⟨fun p => ?_, ?_, ?_, ?_, fun d n => ?_⟩
  · rw [htop]
    simp only [LayeredProvider.view, hu.answers p]
    cases hp : u.stat p with
    | none => exact h.getattr p
    | some s => rfl
  · intro d hd
    rw [htop, Option.or_eq_none_iff] at hd
    rw [hpass hd.1]
    exact h.missing hd.2
  · intro d s hd hk
    rw [htop] at hd
    cases hud : u.stat d with
    | none =>
      rw [hud, Option.none_or] at hd
      rw [hpass hud]
      exact h.plain hd hk
    | some s' =>
      rw [hud, Option.some_or] at hd
      cases hd
      simp only [LayeredProvider.view, hu.plain hud hk]
  · intro d s hd hk
    rw [htop] at hd
    cases hud : u.stat d with
    | none =>
      rw [hud, Option.none_or] at hd
      obtain ⟨es, hread, hes, hentry⟩ := h.lists hd hk
      refine ⟨es, (hpass hud).trans hread, hes, fun n => ?_⟩
      have habove : above (u :: down) d = u :: above down d := by simp [above, hud]
      have hshown : u.shown d n = none := View.shown_of_error (hu.missing hud) n
      rw [habove, unionAt_cons, hshown, hentry]
      rfl
    | some s' =>
      rw [hud, Option.some_or] at hd
      cases hd
      obtain ⟨tops, hread, htops⟩ := hu.lists hud hk
      refine ⟨((Merged.empty.insertAll ((v.readdir d).toOption.getD [])).mergeAll
        tops).sortedByFoldedName, by simp only [LayeredProvider.view, hread],
        Merged.foldUnique_sortedByFoldedName _, fun n => ?_⟩
      obtain ⟨hbelow, hbottoms⟩ := h.entryAt_getD hdown d n
      have habove : above (u :: down) d = u :: above down d := by simp [above, hud, hk]
      rw [Merged.entryAt_sortedByFoldedName, Merged.lookup_mergeAll htops,
        Merged.lookup_insertAll hbottoms, hbelow, habove, unionAt_cons,
        View.shown_of_ok hread, Merged.lookup_empty, Option.or_none]
  · apply LayeredProvider.view_storedNameOf
    rw [mergeStoredName, h.storedName, bottomName_cons]
    cases bottomName down d n with
    | none => exact hu.storedNameOf_eq d n
    | some name => rfl

/-! ## Opens -/

/-- An open of `P` goes as it does in `l`: it fails with the same status, or gives the same size
and kind and a handle on which every call is answered as on the handle of `l`. -/
def OpensAs (P l : Provider) (p : VPath) (flags : Flags) : Prop :=
  match (l.openPath l.state p flags).1 with
  | .error e => (P.openPath P.state p flags).1 = .error e
  | .ok o => ∃ h, (P.openPath P.state p flags).1 = .ok { o with handle := h } ∧
      ∀ ops, .close ∉ ops → P.replies (P.openPath P.state p flags).2 h ops =
        l.replies (l.openPath l.state p flags).2 o.handle ops

section Routing

variable {top bottom : Provider}

open LayeredProvider

variable {s : State top bottom}

theorem layered_replies_top {h inner : Handle} {ops : List HandleOp} (hops : .close ∉ ops)
    (hs : s.opens.map.lookup h = some (.top, inner)) :
    (layered top bottom).replies s h ops = top.replies s.top inner ops := by
  induction ops generalizing s with
  | nil => rfl
  | cons op ops ih =>
    rw [mem_cons, not_or] at hops
    have hstep : (layered top bottom).onHandle s op h =
        s.ofTop (top.onHandle s.top op inner) := by
      change State.onHandle s op h = _
      rw [State.onHandle, hs]
      dsimp only
      rw [if_neg (Ne.symm hops.1)]
    rw [Provider.replies, hstep]
    exact congrArg _ (ih hops.2 hs)

theorem layered_replies_bottom {h inner : Handle} {ops : List HandleOp} (hops : .close ∉ ops)
    (hs : s.opens.map.lookup h = some (.bottom, inner)) :
    (layered top bottom).replies s h ops = bottom.replies s.bottom inner ops := by
  induction ops generalizing s with
  | nil => rfl
  | cons op ops ih =>
    rw [mem_cons, not_or] at hops
    have hstep : (layered top bottom).onHandle s op h =
        s.ofBottom (bottom.onHandle s.bottom op inner) := by
      change State.onHandle s op h = _
      rw [State.onHandle, hs]
      dsimp only
      rw [if_neg (Ne.symm hops.1)]
    rw [Provider.replies, hstep]
    exact congrArg _ (ih hops.2 hs)

theorem opensAs_of_top (h : (layered top bottom).openPath (layered top bottom).state p flags =
      State.finish .top (State.ofTop (layered top bottom).state
        (top.openPath top.state p flags))) : OpensAs (layered top bottom) top p flags := by
  unfold OpensAs
  rw [h]
  obtain ⟨r, t⟩ := top.openPath top.state p flags
  cases r with
  | error e => rfl
  | ok o =>
    refine ⟨_, rfl, fun ops hops => ?_⟩
    exact layered_replies_top hops (HandleTable.lookup_insert _ _)

theorem OpensAs.of_bottom {l : Provider} (hl : OpensAs bottom l p flags)
    (hs : s.bottom = bottom.state)
    (h : (layered top bottom).openPath (layered top bottom).state p flags =
      State.finish .bottom (s.ofBottom (bottom.openPath s.bottom p flags))) :
    OpensAs (layered top bottom) l p flags := by
  unfold OpensAs at hl ⊢
  rw [h, hs]
  generalize bottom.openPath bottom.state p flags = x at hl ⊢
  obtain ⟨r, b⟩ := x
  cases hlo : (l.openPath l.state p flags).1 with
  | error e =>
    rw [hlo] at hl
    dsimp only at hl ⊢
    rw [hl]
    rfl
  | ok o =>
    rw [hlo] at hl
    obtain ⟨h, rfl, hreplies⟩ := hl
    refine ⟨_, rfl, fun ops hops => ?_⟩
    rw [← hreplies ops hops]
    exact layered_replies_bottom hops (HandleTable.lookup_insert _ _)

end Routing

/-! ## Stacks -/

def Misses (P : Provider) (p : VPath) (flags : Flags) : Prop :=
  (P.openPath P.state p flags).1 = .error .notFound

/-- The provider answers as the layers, listed from the bottom to the top. -/
structure Stacks (P : Provider) (layers : List Provider) : Prop where
  /-- The calls that only look. -/
  merges : Merges P.now (layers.reverse.map Provider.now)
  /-- An open that does not write, of what every layer answers not-found to. -/
  missing : ∀ {p flags}, flags.write = false → (∀ l ∈ layers, Misses l p flags) → Misses P p flags
  /-- An open that does not write goes to the topmost layer that does not answer not-found. -/
  reads : ∀ {below l upper p flags}, layers = below ++ l :: upper → flags.write = false →
    (∀ u ∈ upper, Misses u p flags) → ¬ Misses l p flags → OpensAs P l p flags
  /-- An open for writing goes to the topmost layer that can be written. -/
  writes : ∀ {below l upper p flags}, layers = below ++ l :: upper → flags.write = true →
    l.access = .readWrite → (∀ u ∈ upper, u.access ≠ .readWrite) → OpensAs P l p flags
  access : P.access = .readWrite ↔ ∃ l ∈ layers, l.access = .readWrite

omit [ToLowercase] in
theorem forall_mem_reverse_now {layers : List Provider} {Q : View → Prop}
    (h : ∀ l ∈ layers, Q l.now) : ∀ v ∈ layers.reverse.map Provider.now, Q v := by
  simpa using h

open LayeredProvider in
theorem layered_openPath_of_notFound {top : Provider} (bottom : Provider)
    (hread : flags.write = false) (htop : Misses top p flags) :
    ∃ s : State top bottom, s.bottom = bottom.state ∧
      (layered top bottom).openPath (layered top bottom).state p flags =
        State.finish .bottom (s.ofBottom (bottom.openPath s.bottom p flags)) := by
  refine ⟨⟨(top.openPath top.state p flags).2, bottom.state, .new⟩, rfl, ?_⟩
  change State.openPath _ p flags = _
  have hpair : State.ofTop (⟨top.state, bottom.state, .new⟩ : State top bottom)
      (top.openPath top.state p flags) =
      (.error .notFound, ⟨(top.openPath top.state p flags).2, bottom.state, .new⟩) :=
    Prod.ext htop rfl
  simp only [State.openPath, hread, Bool.false_eq_true, if_false, hpair]

open LayeredProvider in
theorem layered_openPath_of_found {top bottom : Provider} (hread : flags.write = false)
    (htop : ¬ Misses top p flags) :
    (layered top bottom).openPath (layered top bottom).state p flags =
      State.finish .top (State.ofTop (layered top bottom).state
        (top.openPath top.state p flags)) := by
  change State.openPath _ p flags = _
  simp only [State.openPath, hread, Bool.false_eq_true, if_false]
  split
  · next h => exact absurd (congrArg Prod.fst h) htop
  · rfl

theorem Stacks.layered {u P : Provider} {layers : List Provider} (hu : u.Consistent)
    (h : Stacks P layers) (hlayers : ∀ l ∈ layers, l.Consistent) :
    Stacks (layered u P) (layers ++ [u]) where
  merges := by
    rw [reverse_append, map_append]
    exact Merges.layered hu.view h.merges (forall_mem_reverse_now fun l hl => (hlayers l hl).view)
  missing := by
    intro p flags hread hnone
    obtain ⟨s, hs, hopen⟩ := layered_openPath_of_notFound P hread (hnone u (by simp))
    have hbottom := h.missing hread fun l hl => hnone l (mem_append_left _ hl)
    rw [Misses] at hbottom
    rw [Misses, hopen, hs, LayeredProvider.State.ofBottom, hbottom]
    rfl
  reads := by
    intro below l upper p flags heq hread hupper hfound
    rcases eq_nil_or_concat upper with rfl | ⟨upper, u', rfl⟩
    · obtain ⟨-, hl⟩ := append_inj' heq rfl
      cases hl
      exact opensAs_of_top (layered_openPath_of_found hread hfound)
    · rw [concat_eq_append] at heq hupper
      rw [← cons_append, ← append_assoc] at heq
      obtain ⟨hlow, hu'⟩ := append_inj' heq rfl
      cases hu'
      obtain ⟨s, hs, hopen⟩ := layered_openPath_of_notFound P hread (hupper u (by simp))
      refine OpensAs.of_bottom (h.reads hlow hread (fun v hv => hupper v ?_) hfound) hs hopen
      exact mem_append_left _ hv
  writes := by
    intro below l upper p flags heq hwrite hacc hupper
    rcases eq_nil_or_concat upper with rfl | ⟨upper, u', rfl⟩
    · obtain ⟨-, hl⟩ := append_inj' heq rfl
      cases hl
      apply opensAs_of_top
      change LayeredProvider.State.openPath _ p flags = _
      simp only [LayeredProvider.State.openPath, hwrite, LayeredProvider.writeTarget, hacc, if_true]
    · rw [concat_eq_append] at heq hupper
      rw [← cons_append, ← append_assoc] at heq
      obtain ⟨hlow, hu'⟩ := append_inj' heq rfl
      cases hu'
      have hnotTop : u.access ≠ .readWrite := hupper u (by simp)
      have hbelow : P.access = .readWrite := h.access.mpr ⟨l, by simp [hlow], hacc⟩
      have hl : OpensAs P l p flags := h.writes hlow hwrite hacc fun v hv =>
        hupper v (mem_append_left _ hv)
      apply OpensAs.of_bottom hl (s := (Compose.layered u P).state) rfl
      change LayeredProvider.State.openPath _ p flags = _
      simp only [LayeredProvider.State.openPath, hwrite, LayeredProvider.writeTarget, if_true,
        if_neg hnotTop, if_pos hbelow]
  access := by
    have hstrong : ∀ a b, LayeredProvider.strongest a b = .readWrite ↔
        a = .readWrite ∨ b = .readWrite := by
      intro a b
      cases a <;> cases b <;> simp [LayeredProvider.strongest]
    rw [hstrong, h.access]
    simp only [mem_append, mem_singleton]
    constructor
    · rintro (hacc | ⟨l, hl, hacc⟩)
      · exact ⟨u, Or.inr rfl, hacc⟩
      · exact ⟨l, Or.inl hl, hacc⟩
    · rintro ⟨l, hl | rfl, hacc⟩
      · exact Or.inr ⟨l, hl, hacc⟩
      · exact Or.inl hacc

end Layered

section Conflicts

def directory : Stat := ⟨.dir, 0, 0⟩

def fileOf (size : ℕ) : Stat := ⟨.file, size, 0⟩

def filled : FixedTree := ⟨some directory, [([], ⟨['d'], directory⟩), ([['d']], ⟨['x'], fileOf 1⟩)]⟩

def stray : FixedTree := ⟨some directory, [([], ⟨['d'], fileOf 2⟩)]⟩

def bare : FixedTree := ⟨some directory, []⟩

attribute [local instance] asciiLowercase

abbrev served (t : FixedTree) (access : Access) (opensDirs : Bool) : Provider :=
  t.provider access opensDirs

end Conflicts

end AetherVfs.Compose
