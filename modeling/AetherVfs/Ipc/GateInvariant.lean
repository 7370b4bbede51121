import AetherVfs.Ipc.Gate

/-!
# Where every permit of the gate is

At any moment a permit is free, in a live `Permits`, granted to a place in
line, out for a retired slot, or in the hands of a `hand_out` or `reclaim`
that is moving it. `StepSpec` says once what an access may do to the words
of the gate and to the caller's own share; the invariants of the whole gate
are read off it.
-/

namespace AetherVfs.Ipc.DataGate

def Caller.place : Caller → Option ℕ
  | .acquire => none
  | .wait w => some w

def Return.place : Return → Option ℕ
  | .dropped | .retired => none
  | .reclaimed c _ => c.place
  | .joined w | .polled w => some w

def JoinPc.locked : JoinPc → Bool
  | .lock _ => false
  | .push | .count _ | .unlock _ => true

def JoinPc.place : JoinPc → Option ℕ
  | .lock _ | .push => none
  | .count w | .unlock w => some w

def WaitPc.locked : WaitPc → Bool
  | .look | .unlock => true
  | _ => false

namespace HandPc

def locked : HandPc → Bool
  | .queued | .lock _ => false
  | _ => true

/-- The permit between `take_one` and the grant, or on its way back. -/
def inHand : HandPc → ℕ
  | .grant _ | .giveBack _ => 1
  | _ => 0

/-- Between settling a place and taking it off `queued`. -/
def uncounting : HandPc → ℕ
  | .staleCount _ | .grantCount _ => 1
  | _ => 0

def atFront : HandPc → Option ℕ
  | .seen f | .stale f | .staleCount f | .takeLoad f | .takeCas f _ | .grant f | .grantCount f
  | .asleep f | .giveBack f | .pop f => some f
  | .queued | .lock _ | .front | .unlock => none

/-- The place at the front is known not to be waiting any more. -/
def settled : HandPc → Bool
  | .staleCount _ | .grantCount _ | .asleep _ | .giveBack _ | .pop _ => true
  | _ => false

end HandPc

namespace Pc

def place : Pc → Option ℕ
  | .idle | .acquire _ | .leave | .retire _ => none
  | .join p => p.place
  | .wait w _ => some w
  | .reclaim c _ => c.place
  | .release r _ | .hand r _ => r.place

def holdsLine : Pc → Bool
  | .join p => p.locked
  | .wait _ p => p.locked
  | .hand _ p => p.locked
  | _ => false

/-- Permits that are in no `Permits` while this access is pending. -/
def inHand : Pc → ℕ
  | .reclaim _ (.store freed) | .reclaim _ (.unlock freed) => freed
  | .release (.reclaimed _ _) k => k
  | .hand _ p => p.inHand
  | _ => 0

/-- Permits still in the caller's `Permits` that have already been retired or returned. -/
def pledged : Pc → ℕ
  | .retire .store | .retire .unlock | .hand .retired _ => 1
  | _ => 0

def joining : Pc → ℕ
  | .join (.count _) => 1
  | _ => 0

def uncounting : Pc → ℕ
  | .leave => 1
  | .hand _ p => p.uncounting
  | _ => 0

end Pc

namespace Gate

/-- The permit granted to the place a caller waits at. -/
def granted (γ : Gate) : Option ℕ → ℕ
  | some w => if γ.stateOf w = .granted then 1 else 0
  | none => 0

def waiting (γ : Gate) : ℕ := γ.line.countP fun w => γ.stateOf w = .waiting

end Gate

namespace Thread

/-- The permits this caller accounts for. -/
def share (t : Thread) : ℕ := t.n - t.pc.pledged + t.pc.inHand

/-- What a caller's own locals satisfy. -/
def Ok (t : Thread) : Prop :=
  match t.pc with
  | .idle => True
  | .acquire (.takeCas _ cur) => t.n = 0 ∧ 0 < cur
  | .release .dropped k => t.n = k
  | .release .retired k => 0 < t.n ∧ k = 1
  | .release (.joined _) _ | .release (.polled _) _ => False
  | .hand .retired _ | .retire _ => 0 < t.n
  | _ => t.n = 0

end Thread

/-- What a caller knows about the line it has locked. -/
def LineOk (γ : Gate) : Pc → Prop
  | .join (.count w) => w ∈ γ.line ∧ γ.stateOf w = .waiting
  | .hand _ p =>
    ∀ f, p.atFront = some f → γ.line.head? = some f ∧ (p.settled = true → γ.stateOf f ≠ .waiting)
  | _ => True

/-- What an access may do to the line and to the places in it; `k` is the number of permits
it grants. -/
inductive LineMove (γ : Gate) (p : Pc) (γ' : Gate) (p' : Pc) (k : ℕ) : Prop
  | quiet (hk : k = 0) (hline : γ'.line = γ.line) (hjoined : γ'.joined = γ.joined)
      (hstate : γ'.stateOf = γ.stateOf)
      (hplace : p'.place = p.place ∨ p'.place = none ∧ ∀ w ∈ p.place, γ.stateOf w ≠ .waiting)
      (hqueued : p.uncounting ≤ γ.queued →
        γ'.queued + p'.joining + p.uncounting = γ.queued + p.joining + p'.uncounting)
  | push (hk : k = 0) (hp : p = .join .push) (hp' : p' = .join (.count γ.joined))
      (hline : γ'.line = γ.line ++ [γ.joined]) (hjoined : γ'.joined = γ.joined + 1)
      (hstate : γ'.stateOf = Function.update γ.stateOf γ.joined .waiting)
      (hqueued : γ'.queued = γ.queued)
  | settle (w : ℕ) (st : WaiterState) (hk : k = if st = .granted then 1 else 0)
      (hw : γ.stateOf w = .waiting) (hst : st ≠ .waiting)
      (hmine : p.place = some w ∨ p.holdsLine = true ∧ γ.line.head? = some w)
      (hline : γ'.line = γ.line) (hjoined : γ'.joined = γ.joined)
      (hstate : γ'.stateOf = Function.update γ.stateOf w st)
      (hplace : p'.place = p.place ∨ p'.place = none ∧ p.place = some w)
      (hqueued : γ'.queued = γ.queued) (hjoining : p.joining = 0 ∧ p'.joining = 0)
      (huncount : p.uncounting = 0 ∧ p'.uncounting = 1)
  | pop (hk : k = 0) (hlocked : p.holdsLine = true) (hline : γ'.line = γ.line.tail)
      (hjoined : γ'.joined = γ.joined) (hstate : γ'.stateOf = γ.stateOf)
      (hfront : ∀ w, γ.line.head? = some w → γ.stateOf w ≠ .waiting)
      (hplace : p'.place = p.place) (hqueued : γ'.queued = γ.queued)
      (hjoining : p.joining = 0 ∧ p'.joining = 0) (huncount : p.uncounting = 0 ∧ p'.uncounting = 0)

/-- A grant that is about to succeed. -/
def Thread.granting (γ : Gate) (t : Thread) : ℕ :=
  match t.pc with
  | .hand _ (.grant f) => if γ.stateOf f = .waiting then 1 else 0
  | _ => 0

/-- What one access does. -/
structure StepSpec (γ : Gate) (t : Thread) (γ' : Gate) (t' : Thread) : Prop where
  ok : t'.Ok
  limit : γ'.limit = γ.limit
  lock : γ'.lineLocked.toNat + t.pc.holdsLine.toNat = γ.lineLocked.toNat + t'.pc.holdsLine.toNat
  balance : γ'.avail + γ'.retired.length + t'.share + γ'.granted t'.pc.place + t.granting γ =
    γ.avail + γ.retired.length + t.share + γ'.granted t.pc.place
  line : LineMove γ t.pc γ' t'.pc (t.granting γ)
  lineOk : LineOk γ' t'.pc

/-- A caller between two calls, or outside every loop that touches the line. -/
structure Quiet (t : Thread) (o : Option ℕ) (n : ℕ) : Prop where
  ok : t.Ok
  holdsLine : t.pc.holdsLine = false
  share : t.share = n
  place : t.pc.place = o
  joining : t.pc.joining = 0
  uncounting : t.pc.uncounting = 0
  lineOk : ∀ γ, LineOk γ t.pc

variable {p : HandPc} {t : Thread}

namespace Thread

theorem retireNext_quiet (t : Thread) : Quiet t.retireNext none t.n := by
  unfold retireNext
  split
  · exact ⟨trivial, rfl, rfl, rfl, rfl, rfl, fun _ => trivial⟩
  · split_ifs with hn
    · exact ⟨trivial, rfl, rfl, rfl, rfl, rfl, fun _ => trivial⟩
    · exact ⟨Nat.pos_of_ne_zero hn, rfl, rfl, rfl, rfl, rfl, fun _ => trivial⟩

theorem reclaimed_quiet (t : Thread) (hn : t.n = 0) (c : Caller) (freed : ℕ) :
    Quiet (t.reclaimed c freed) c.place 0 := by
  cases c with
  | acquire =>
    unfold reclaimed
    split_ifs <;> exact ⟨hn, rfl, by simp [share, hn, Pc.inHand, Pc.pledged], rfl, rfl, rfl, fun _ => trivial⟩
  | wait w =>
    refine ⟨hn, rfl, ?_, rfl, rfl, rfl, fun γ => ?_⟩
    · simp [reclaimed, share, hn, Pc.inHand, HandPc.inHand]
    · simp [reclaimed, LineOk, HandPc.atFront]

theorem tookNone_quiet (t : Thread) (hn : t.n = 0) (a : Attempt) : Quiet (t.tookNone a) none 0 := by
  cases a <;>
    exact ⟨hn, rfl, by simp [tookNone, share, hn, Pc.inHand], rfl, rfl, rfl, fun _ => trivial⟩

theorem handed_quiet (t : Thread) (r : Return) (hok : t.Ok) (hpc : t.pc = .hand r p)
    (hp : p.inHand = 0) : Quiet (t.handed r) r.place t.share := by
  cases r <;> simp only [Ok, hpc] at hok
  case dropped =>
    refine ⟨trivial, rfl, ?_, rfl, rfl, rfl, fun _ => trivial⟩
    simp [handed, share, hpc, Pc.pledged, Pc.inHand, hp]
  case retired =>
    have h := retireNext_quiet { t with n := t.n - 1 }
    refine ⟨h.ok, h.holdsLine, ?_, h.place, h.joining, h.uncounting, h.lineOk⟩
    rw [show (t.handed .retired).share = _ from h.share]
    simp [share, hpc, Pc.pledged, Pc.inHand, hp]
  case reclaimed c freed =>
    have h := reclaimed_quiet t hok c freed
    refine ⟨h.ok, h.holdsLine, ?_, h.place, h.joining, h.uncounting, h.lineOk⟩
    rw [show (t.handed (.reclaimed c freed)).share = _ from h.share]
    simp [share, hpc, Pc.inHand, hp, hok]
  case joined w | polled w =>
    refine ⟨hok, rfl, ?_, rfl, rfl, rfl, fun _ => trivial⟩
    simp [handed, share, hpc, Pc.pledged, Pc.inHand, hp]

end Thread

variable {o : Option ℕ}

theorem Quiet.granting {n : ℕ} (h : Quiet t o n) (γ : Gate) : t.granting γ = 0 := by
  have hlock := h.holdsLine
  unfold Thread.granting
  split
  · next hpc => simp [hpc, Pc.holdsLine, HandPc.locked] at hlock
  · rfl

theorem quiet_zero (hok : t.Ok) (hn : t.n = 0) (hline : ∀ γ, LineOk γ t.pc)
    (hpc : t.pc.holdsLine = false ∧ t.pc.place = o ∧ t.pc.joining = 0 ∧ t.pc.uncounting = 0) :
    Quiet t o t.pc.inHand :=
  ⟨hok, hpc.1, by simp [Thread.share, hn], hpc.2.1, hpc.2.2.1, hpc.2.2.2, hline⟩

theorem StepSpec.of_quiet {γ : Gate} {t' : Thread} {m n avail count : ℕ} {retired : List ℕ}
    {locked : Bool} (hq : Quiet t o m) (hq' : Quiet t' o n)
    (hbalance : avail + retired.length + n = γ.avail + γ.retired.length + m) :
    StepSpec γ t { γ with avail, retired, retiredLocked := locked, retiredCount := count } t' := by
  refine ⟨hq'.ok, rfl, ?_, ?_, .quiet (hq.granting γ) rfl rfl rfl ?_ ?_, hq'.lineOk _⟩
  · rw [hq.holdsLine, hq'.holdsLine]
  · rw [hq.share, hq'.share, hq.place, hq'.place, hq.granting]
    dsimp only
    omega
  · exact .inl (hq'.place.trans hq.place.symm)
  · intro _
    rw [hq.joining, hq.uncounting, hq'.joining, hq'.uncounting]

namespace Thread

variable {γ : Gate} {t : Thread} {env : Env}

theorem acquireStep_spec {p : AcquirePc} (hok : t.Ok) (hpc : t.pc = .acquire p) :
    StepSpec γ t (t.acquireStep γ env p).1 (t.acquireStep γ env p).2 := by
  obtain ⟨n, want, start, patience, todo, nowMs, wake, pc⟩ := t
  obtain rfl : pc = .acquire p := hpc
  have hn : n = 0 := by
    cases p with
    | takeCas => exact hok.1
    | _ => exact hok
  have hq := quiet_zero hok hn (fun _ => trivial) ⟨rfl, rfl, rfl, rfl⟩
  cases p with
  | queued | spin =>
    simp only [acquireStep]
    split_ifs <;> exact .of_quiet hq (quiet_zero hn hn (fun _ => trivial) ⟨rfl, rfl, rfl, rfl⟩) rfl
  | takeLoad a =>
    simp only [acquireStep]
    split_ifs with h0
    · exact .of_quiet hq (tookNone_quiet _ hn a) rfl
    · exact .of_quiet hq (quiet_zero ⟨hn, Nat.pos_of_ne_zero h0⟩ hn (fun _ => trivial) ⟨rfl, rfl, rfl, rfl⟩) rfl
  | takeCas a cur =>
    have hcur : 0 < cur := hok.2
    simp only [acquireStep]
    split_ifs with hcas h0
    · refine .of_quiet hq ⟨trivial, rfl, rfl, rfl, rfl, rfl, fun _ => trivial⟩ ?_
      have hle := min_le_left (cur - 1 - γ.reserve) (want - 1)
      simp only [share, Pc.pledged, Pc.inHand]
      omega
    · exact .of_quiet hq (tookNone_quiet _ hn a) rfl
    · exact .of_quiet hq (quiet_zero ⟨hn, Nat.pos_of_ne_zero h0⟩ hn (fun _ => trivial) ⟨rfl, rfl, rfl, rfl⟩) rfl

theorem reclaimStep_spec {c : Caller} {p : ReclaimPc} (hok : t.Ok) (hpc : t.pc = .reclaim c p) :
    StepSpec γ t (t.reclaimStep γ env c p).1 (t.reclaimStep γ env c p).2 := by
  obtain ⟨n, want, start, patience, todo, nowMs, wake, pc⟩ := t
  obtain rfl : pc = .reclaim c p := hpc
  have hn : n = 0 := hok
  have hq := quiet_zero (o := c.place) hok hn (fun _ => trivial) ⟨rfl, rfl, rfl, rfl⟩
  cases p with
  | count =>
    simp only [reclaimStep]
    split_ifs
    · exact .of_quiet hq (reclaimed_quiet _ hn c 0) rfl
    · exact .of_quiet hq (quiet_zero hn hn (fun _ => trivial) ⟨rfl, rfl, rfl, rfl⟩) rfl
  | lock =>
    simp only [reclaimStep]
    split_ifs
    · exact .of_quiet hq (quiet_zero hn hn (fun _ => trivial) ⟨rfl, rfl, rfl, rfl⟩) rfl
    · exact .of_quiet hq (reclaimed_quiet _ hn c 0) rfl
  | retain =>
    refine .of_quiet hq (quiet_zero hn hn (fun _ => trivial) ⟨rfl, rfl, rfl, rfl⟩) ?_
    have hle := List.length_filter_le env.abandoned γ.retired
    simp only [reclaimStep, Pc.inHand]
    omega
  | store freed => exact .of_quiet hq (quiet_zero hn hn (fun _ => trivial) ⟨rfl, rfl, rfl, rfl⟩) rfl
  | unlock freed =>
    simp only [reclaimStep]
    split_ifs with h0
    · subst h0
      exact .of_quiet hq (reclaimed_quiet _ hn c 0) rfl
    · exact .of_quiet hq (quiet_zero hn hn (fun _ => trivial) ⟨rfl, rfl, rfl, rfl⟩) rfl

theorem retireStep_spec {p : RetirePc} (hok : t.Ok) (hpc : t.pc = .retire p) :
    StepSpec γ t (t.retireStep γ p).1 (t.retireStep γ p).2 := by
  obtain ⟨n, want, start, patience, todo, nowMs, wake, pc⟩ := t
  obtain rfl : pc = .retire p := hpc
  have hn : 0 < n := hok
  have hq : Quiet ⟨n, want, start, patience, todo, nowMs, wake, .retire p⟩ none
      (n - (Pc.retire p).pledged) := ⟨hok, rfl, rfl, rfl, rfl, rfl, fun _ => trivial⟩
  cases p with
  | lock s outer tries =>
    simp only [retireStep]
    split_ifs
    · exact .of_quiet hq ⟨hn, rfl, rfl, rfl, rfl, rfl, fun _ => trivial⟩ rfl
    · exact .of_quiet hq ⟨hn, rfl, rfl, rfl, rfl, rfl, fun _ => trivial⟩ rfl
    · exact .of_quiet hq ⟨hn, rfl, rfl, rfl, rfl, rfl, fun _ => trivial⟩ rfl
    · exact .of_quiet hq (retireNext_quiet _) rfl
  | look s =>
    simp only [retireStep]
    split_ifs
    · exact .of_quiet hq ⟨hn, rfl, rfl, rfl, rfl, rfl, fun _ => trivial⟩ rfl
    · refine .of_quiet hq ⟨hn, rfl, rfl, rfl, rfl, rfl, fun _ => trivial⟩ ?_
      simp only [share, Pc.pledged, Pc.inHand, List.length_append, List.length_singleton]
      omega
  | store => exact .of_quiet hq ⟨hn, rfl, rfl, rfl, rfl, rfl, fun _ => trivial⟩ rfl
  | unlock => exact .of_quiet hq (retireNext_quiet _) rfl
  | again => exact .of_quiet hq ⟨⟨hn, rfl⟩, rfl, rfl, rfl, rfl, rfl, fun _ => trivial⟩ rfl

theorem stateOf_setState (w : ℕ) (st : WaiterState) :
    (γ.setState w st).stateOf = Function.update γ.stateOf w st :=
  funext (Function.apply_update (fun _ x => Waiter.state x) γ.waiters w _)

theorem joinStep_spec {p : JoinPc} (hok : t.Ok) (hline : LineOk γ t.pc) (hpc : t.pc = .join p)
    (hlock : t.pc.holdsLine = true → γ.lineLocked = true) :
    StepSpec γ t (t.joinStep γ env p).1 (t.joinStep γ env p).2 := by
  obtain ⟨n, want, start, patience, todo, nowMs, wake, pc⟩ := t
  obtain rfl : pc = .join p := hpc
  have hn : n = 0 := hok
  subst hn
  cases p with
  | lock tries =>
    have hq := quiet_zero hok rfl (fun _ => trivial) ⟨rfl, rfl, rfl, rfl⟩
    simp only [joinStep]
    split_ifs with hfree
    · exact ⟨rfl, rfl, by simp [hfree, Pc.holdsLine, JoinPc.locked], rfl,
        .quiet rfl rfl rfl rfl (.inl rfl) fun _ => rfl, trivial⟩
    · exact .of_quiet hq (quiet_zero rfl rfl (fun _ => trivial) ⟨rfl, rfl, rfl, rfl⟩) rfl
    · exact .of_quiet hq (quiet_zero trivial rfl (fun _ => trivial) ⟨rfl, rfl, rfl, rfl⟩) rfl
    · exact .of_quiet hq (quiet_zero rfl rfl (fun _ => trivial) ⟨rfl, rfl, rfl, rfl⟩) rfl
  | push =>
    have hstate := Function.apply_update (fun _ x => Waiter.state x) γ.waiters γ.joined
      ⟨.waiting, false, env.now / 1000⟩
    refine ⟨rfl, rfl, rfl, ?_, .push rfl rfl rfl rfl rfl (funext hstate) rfl, ?_, ?_⟩
    · simp [share, joinStep, Pc.inHand, Pc.place, JoinPc.place, granting, Gate.granted,
        Gate.stateOf]
    · simp [joinStep]
    · simp [joinStep, Gate.stateOf]
  | count w =>
    exact ⟨rfl, rfl, rfl, rfl, .quiet rfl rfl rfl rfl (.inl rfl) fun _ => rfl, trivial⟩
  | unlock w =>
    refine ⟨rfl, rfl, ?_, rfl, .quiet rfl rfl rfl rfl (.inl rfl) fun _ => rfl, ?_⟩
    · rw [hlock rfl]
      rfl
    · simp [joinStep, LineOk, HandPc.atFront]

theorem leave_spec (hok : t.Ok) (hpc : t.pc = .leave) :
    StepSpec γ t { γ with queued := γ.queued - 1 } { t with pc := .idle } := by
  obtain ⟨n, want, start, patience, todo, nowMs, wake, pc⟩ := t
  obtain rfl : pc = .leave := hpc
  obtain rfl : n = 0 := hok
  refine ⟨trivial, rfl, rfl, rfl, .quiet rfl rfl rfl rfl (.inl rfl) fun hle => ?_, trivial⟩
  exact Nat.sub_add_cancel hle

variable {r : Return}

theorem release_spec {k : ℕ} (hok : t.Ok) (hpc : t.pc = .release r k) :
    StepSpec γ t { γ with avail := γ.avail + k }
      { t with n := if r = .dropped then 0 else t.n, pc := .hand r .queued } := by
  obtain ⟨n, want, start, patience, todo, nowMs, wake, pc⟩ := t
  obtain rfl : pc = .release r k := hpc
  refine ⟨?_, rfl, rfl, ?_, .quiet rfl rfl rfl rfl (.inl rfl) fun _ => rfl, ?_⟩
  · cases r <;> simp only [Ok] at hok ⊢ <;> simp
    case retired => exact hok.1
    case reclaimed => exact hok
  · have hplace : (Pc.hand r .queued).place = (Pc.release r k).place := rfl
    simp only [hplace]
    cases r <;> simp only [Ok] at hok <;>
      simp [share, granting, Pc.pledged, Pc.inHand, HandPc.inHand, Gate.granted] <;> omega
  · simp [LineOk, HandPc.atFront]

theorem stateOf_setWaiter_same {w : ℕ} {x : Waiter} (hx : x.state = γ.stateOf w) :
    (γ.setWaiter w x).stateOf = γ.stateOf := by
  funext w'
  by_cases hw : w' = w
  · subst hw
    simpa [Gate.setWaiter, Gate.stateOf] using hx
  · simp [Gate.setWaiter, Gate.stateOf, hw]

/-- A step within `wait_in_line` that touches at most the line's lock and the owner's own marks
at its place. -/
theorem wait_spec {w : ℕ} {p p' : WaitPc} {locked : Bool} {waiters : ℕ → Waiter} (hok : t.Ok)
    (hpc : t.pc = .wait w p)
    (hlocked : locked.toNat + p.locked.toNat = γ.lineLocked.toNat + p'.locked.toNat)
    (hstate : { γ with waiters }.stateOf = γ.stateOf) :
    StepSpec γ t { γ with lineLocked := locked, waiters } { t with pc := .wait w p' } := by
  obtain ⟨n, want, start, patience, todo, nowMs, wake, pc⟩ := t
  obtain rfl : pc = .wait w p := hpc
  exact ⟨hok, rfl, hlocked, rfl, .quiet rfl rfl rfl hstate (.inl rfl) fun _ => rfl, trivial⟩

theorem waitStep_spec {w : ℕ} {p : WaitPc} (hok : t.Ok) (hpc : t.pc = .wait w p)
    (hlock : t.pc.holdsLine = true → γ.lineLocked = true) :
    StepSpec γ t (t.waitStep γ env w p).1 (t.waitStep γ env w p).2 := by
  obtain ⟨n, want, start, patience, todo, nowMs, wake, pc⟩ := t
  obtain rfl : pc = .wait w p := hpc
  have hn : n = 0 := hok
  subst hn
  have hleft : γ.stateOf w ≠ .waiting → ∀ w' ∈ (Pc.wait w p).place, γ.stateOf w' ≠ .waiting := by
    rintro hst w' ⟨⟩
    exact hst
  cases p with
  | load =>
    simp only [waitStep]
    split
    · next hst =>
        refine ⟨trivial, rfl, rfl, ?_, .quiet rfl rfl rfl rfl (.inr ⟨rfl, hleft ?_⟩) fun _ => rfl,
          trivial⟩
        · simp [share, granting, Pc.inHand, Pc.pledged, Pc.place, Gate.granted, hst]
        · simp [hst]
    · next hst =>
        refine ⟨rfl, rfl, rfl, ?_, .quiet rfl rfl rfl rfl (.inr ⟨rfl, hleft ?_⟩) fun _ => rfl,
          trivial⟩
        · simp [share, granting, Pc.inHand, Pc.place, JoinPc.place, Gate.granted, hst]
        · simp [hst]
    · split_ifs <;> exact wait_spec hok rfl rfl rfl
  | leave =>
    simp only [waitStep]
    split_ifs with hst
    · refine ⟨rfl, rfl, rfl, ?_, .settle w .gone rfl hst (by simp) (.inl rfl) rfl rfl
        (stateOf_setState w .gone) (.inr ⟨rfl, rfl⟩) rfl ⟨rfl, rfl⟩ ⟨rfl, rfl⟩, trivial⟩
      simp only [share, granting, Pc.inHand, Pc.place, Gate.granted, γ.stateOf_setState_self]
      rfl
    · exact wait_spec hok rfl rfl rfl
  | seen waited =>
    have hstate := stateOf_setWaiter_same (γ := γ) (w := w)
      (x := { γ.waiters w with seenMs := env.now / 1000 }) rfl
    simp only [waitStep]
    split_ifs
    · exact wait_spec hok rfl rfl hstate
    · exact ⟨rfl, rfl, rfl, rfl, .quiet rfl rfl rfl hstate (.inl rfl) fun _ => rfl, trivial⟩
  | announce => exact wait_spec hok rfl rfl (stateOf_setWaiter_same rfl)
  | lock tries =>
    simp only [waitStep]
    split_ifs with hfree
    · exact wait_spec hok rfl (by simp [hfree, WaitPc.locked]) rfl
    · exact wait_spec hok rfl rfl rfl
    · exact wait_spec hok rfl rfl rfl
  | look =>
    simp only [waitStep]
    split_ifs
    · exact wait_spec hok rfl (by simp [hlock rfl, WaitPc.locked]) rfl
    · exact wait_spec hok rfl rfl rfl
  | blocked =>
    simp only [waitStep]
    split_ifs with hfree
    · exact wait_spec hok rfl (by simp [hfree, WaitPc.locked]) rfl
    · exact wait_spec hok rfl rfl rfl
  | unlock => exact wait_spec hok rfl (by simp [hlock rfl, WaitPc.locked]) rfl

theorem ok_hand_iff (hpc : t.pc = .hand r p) :
    t.Ok ↔ if r = .retired then 0 < t.n else t.n = 0 := by
  cases r <;> simp [Ok, hpc]

theorem granting_of_ne (hpc : t.pc = .hand r p) (hne : ∀ f, p ≠ .grant f) : t.granting γ = 0 := by
  unfold granting
  split
  · next f heq =>
      rw [hpc] at heq
      exact absurd (Pc.hand.inj heq).2 (hne f)
  · rfl

variable {γ' : Gate}

theorem hand_spec {p' : HandPc} {nowMs : ℕ} {wake : Bool} (hok : t.Ok) (hpc : t.pc = .hand r p)
    (hline : LineMove γ (.hand r p) γ' (.hand r p') (t.granting γ))
    (hlineOk : LineOk γ' (.hand r p'))
    (hbalance : γ'.avail + γ'.retired.length + p'.inHand + t.granting γ =
      γ.avail + γ.retired.length + p.inHand)
    (hlocked : γ'.lineLocked.toNat + p.locked.toNat = γ.lineLocked.toNat + p'.locked.toNat)
    (hlimit : γ'.limit = γ.limit) : StepSpec γ t γ' { t with nowMs, wake, pc := .hand r p' } := by
  refine ⟨?_, hlimit, ?_, ?_, by rwa [hpc], hlineOk⟩
  · exact (ok_hand_iff rfl).mpr ((ok_hand_iff hpc).mp hok)
  · simpa [hpc, Pc.holdsLine] using hlocked
  · have hpledged : (Pc.hand r p').pledged = (Pc.hand r p).pledged := by cases r <;> rfl
    have hplace : (Pc.hand r p').place = (Pc.hand r p).place := rfl
    simp only [share, hpc, hpledged, hplace, Pc.inHand]
    omega

/-- An access of `hand_out` to something other than the line and its places. -/
theorem hand_stay {p' : HandPc} {avail queued nowMs : ℕ} {locked wake : Bool} (hok : t.Ok)
    (hpc : t.pc = .hand r p) (hok' : LineOk { γ with avail, queued } (.hand r p'))
    (hne : ∀ f, p ≠ .grant f)
    (hlocked : locked.toNat + p.locked.toNat = γ.lineLocked.toNat + p'.locked.toNat)
    (havail : avail + p'.inHand = γ.avail + p.inHand)
    (hqueued : p.uncounting ≤ γ.queued → queued + p.uncounting = γ.queued + p'.uncounting) :
    StepSpec γ t { γ with avail, queued, lineLocked := locked }
      { t with nowMs, wake, pc := .hand r p' } := by
  have hgrant := granting_of_ne (γ := γ) hpc hne
  refine hand_spec hok hpc (.quiet hgrant rfl rfl rfl (.inl rfl) hqueued) hok' ?_ hlocked rfl
  rw [hgrant]
  dsimp only
  omega

theorem handed_spec {b : Bool} (hok : t.Ok) (hpc : t.pc = .hand r p)
    (hlocked : b.toNat + p.locked.toNat = γ.lineLocked.toNat) (hne : ∀ f, p ≠ .grant f)
    (hhand : p.inHand = 0) (huncount : p.uncounting = 0) :
    StepSpec γ t { γ with lineLocked := b } (t.handed r) := by
  have hgrant := granting_of_ne (γ := γ) hpc hne
  have hq := handed_quiet t r hok hpc hhand
  refine ⟨hq.ok, rfl, ?_, ?_, .quiet hgrant rfl rfl rfl (.inl ?_) fun _ => ?_, hq.lineOk _⟩
  · rw [hq.holdsLine, hpc]
    exact hlocked
  · rw [hq.share, hq.place, hgrant, hpc]
    rfl
  · rw [hq.place, hpc]
    rfl
  · rw [hq.joining, hq.uncounting, hpc]
    simp [Pc.uncounting, Pc.joining, huncount]

theorem lineOk_hand (h : p.atFront = none) : LineOk γ' (.hand r p) := by
  intro f hf
  simp [h] at hf

theorem lineOk_front {f : ℕ} (hp : p.atFront = some f) (hhead : γ'.line.head? = some f)
    (hsettled : p.settled = true → γ'.stateOf f ≠ .waiting) : LineOk γ' (.hand r p) := by
  intro f' hf
  obtain rfl : f = f' := Option.some.inj (hp.symm.trans hf)
  exact ⟨hhead, hsettled⟩

theorem handStep_spec (hok : t.Ok) (hline : LineOk γ t.pc) (hpc : t.pc = .hand r p)
    (hlock : t.pc.holdsLine = true → γ.lineLocked = true) :
    StepSpec γ t (t.handStep γ env r p).1 (t.handStep γ env r p).2 := by
  rw [hpc] at hline hlock
  cases p with
  | queued =>
    simp only [handStep]
    split_ifs
    · exact handed_spec hok hpc rfl (by simp) rfl rfl
    · exact hand_stay hok hpc (lineOk_hand rfl) (by simp) rfl rfl fun _ => rfl
  | lock tries =>
    simp only [handStep]
    split_ifs with hfree
    · exact hand_stay hok hpc (lineOk_hand rfl) (by simp) (by simp [hfree, HandPc.locked]) rfl
        fun _ => rfl
    · exact hand_stay hok hpc (lineOk_hand rfl) (by simp) rfl rfl fun _ => rfl
    · exact handed_spec hok hpc rfl (by simp) rfl rfl
  | front =>
    simp only [handStep]
    split
    · exact hand_stay hok hpc (lineOk_hand rfl) (by simp) rfl rfl fun _ => rfl
    · next f rest hl =>
        have hhead : γ.line.head? = some f := by simp [hl]
        split_ifs with hst
        · exact hand_stay hok hpc (lineOk_front rfl hhead nofun) (by simp) rfl rfl fun _ => rfl
        · exact hand_stay hok hpc (lineOk_front rfl hhead fun _ => hst) (by simp) rfl rfl
            fun _ => rfl
  | seen f =>
    obtain ⟨hhead, -⟩ := hline f rfl
    simp only [handStep]
    split_ifs <;>
      exact hand_stay hok hpc (lineOk_front rfl hhead nofun) (by simp) rfl rfl fun _ => rfl
  | stale f =>
    obtain ⟨hhead, -⟩ := hline f rfl
    have hgrant := granting_of_ne (γ := γ) hpc (by simp)
    simp only [handStep]
    split_ifs with hst
    · refine hand_spec hok hpc (.settle f .gone hgrant hst (by simp) (.inr ⟨rfl, hhead⟩) rfl rfl
        (stateOf_setState f .gone) (.inl rfl) rfl ⟨rfl, rfl⟩ ⟨rfl, rfl⟩) (lineOk_front rfl hhead ?_)
        ?_ rfl rfl
      · simp [γ.stateOf_setState_self]
      · rw [hgrant]
        rfl
    · exact hand_stay hok hpc (lineOk_front rfl hhead fun _ => hst) (by simp) rfl rfl fun _ => rfl
  | staleCount f | grantCount f =>
    obtain ⟨hhead, hsettled⟩ := hline f rfl
    exact hand_stay hok hpc (lineOk_front rfl hhead fun _ => hsettled rfl) (by simp) rfl rfl
      Nat.sub_add_cancel
  | takeLoad f =>
    obtain ⟨hhead, -⟩ := hline f rfl
    exact hand_stay hok hpc (lineOk_front rfl hhead nofun) (by simp) rfl rfl fun _ => rfl
  | takeCas f cur =>
    obtain ⟨hhead, -⟩ := hline f rfl
    simp only [handStep]
    split_ifs with h0 hcas
    · exact hand_stay hok hpc (lineOk_hand rfl) (by simp) rfl rfl fun _ => rfl
    · refine hand_stay hok hpc (lineOk_front rfl hhead nofun) (by simp) rfl ?_ fun _ => rfl
      simp only [HandPc.inHand]
      omega
    · exact hand_stay hok hpc (lineOk_front rfl hhead nofun) (by simp) rfl rfl fun _ => rfl
  | grant f =>
    obtain ⟨hhead, -⟩ := hline f rfl
    simp only [handStep]
    split_ifs with hst
    · refine hand_spec hok hpc (.settle f .granted (by simp [granting, hpc, hst]) hst (by simp)
        (.inr ⟨rfl, hhead⟩) rfl rfl (stateOf_setState f .granted) (.inl rfl) rfl ⟨rfl, rfl⟩
        ⟨rfl, rfl⟩) (lineOk_front rfl hhead ?_)
        ?_ rfl rfl
      · simp [γ.stateOf_setState_self]
      · simp [granting, hpc, hst, HandPc.inHand, Gate.setState, Gate.setWaiter]
    · have hgrant : t.granting γ = 0 := by simp [granting, hpc, hst]
      exact hand_spec hok hpc (.quiet hgrant rfl rfl rfl (.inl rfl) fun _ => rfl)
        (lineOk_front rfl hhead fun _ => hst) (by rw [hgrant]; rfl) rfl rfl
  | asleep f | giveBack f =>
    obtain ⟨hhead, hsettled⟩ := hline f rfl
    exact hand_stay hok hpc (lineOk_front rfl hhead fun _ => hsettled rfl) (by simp) rfl rfl
      fun _ => rfl
  | pop f =>
    obtain ⟨hhead, hsettled⟩ := hline f rfl
    have hgrant := granting_of_ne (γ := γ) hpc (by simp)
    refine hand_spec hok hpc (.pop hgrant rfl rfl rfl rfl ?_ rfl rfl ⟨rfl, rfl⟩ ⟨rfl, rfl⟩)
      (lineOk_hand rfl) (by rw [hgrant]; rfl) rfl rfl
    intro w hw
    rw [hhead] at hw
    exact Option.some.inj hw ▸ hsettled rfl
  | unlock => exact handed_spec hok hpc (by rw [hlock rfl]; rfl) (by simp) rfl rfl

theorem step_spec (hok : t.Ok) (hline : LineOk γ t.pc)
    (hlock : t.pc.holdsLine = true → γ.lineLocked = true) :
    StepSpec γ t (t.step γ env).1 (t.step γ env).2 := by
  cases hpc : t.pc <;> simp only [step, hpc]
  case idle =>
    have hidle : Quiet t none t.n := by
      constructor <;> simp [Ok, share, hpc, Pc.holdsLine, Pc.pledged, Pc.inHand, Pc.place,
        Pc.joining, Pc.uncounting, LineOk]
    exact .of_quiet hidle hidle rfl
  case acquire p => exact acquireStep_spec hok hpc
  case join p => exact joinStep_spec hok hline hpc hlock
  case wait w p => exact waitStep_spec hok hpc hlock
  case leave => exact leave_spec hok hpc
  case reclaim c p => exact reclaimStep_spec hok hpc
  case release r k => exact release_spec hok hpc
  case hand r p => exact handStep_spec hok hline hpc hlock
  case retire p => exact retireStep_spec hok hpc

end Thread

end AetherVfs.Ipc.DataGate
