import AetherVfs.Ipc.GateConservation

/-!
# Fairness of the gate

What a take leaves free, the order in which the line is served, and what a
`hand_out` that has walked the line leaves behind. The places in line are
numbered as they joined, so the line is sorted, and every place that still
waits is in it.
-/

namespace AetherVfs.Ipc.DataGate

open Transition List Function

variable {ι : Type*}

/-! ## What no access changes -/

/-- The bounds of the gate and the number of permits a caller asked for stay. -/
structure Bounds (γ : Gate) (t : Thread) (γ' : Gate) (t' : Thread) : Prop where
  reserve : γ'.reserve = γ.reserve
  perCall : γ'.perCall = γ.perCall
  want : t'.want = t.want

namespace Thread

variable {γ : Gate} {t : Thread} {env : Env}

@[simp] theorem retireNext_want (t : Thread) : t.retireNext.want = t.want := by
  unfold retireNext
  split
  · rfl
  · split_ifs <;> rfl

@[simp] theorem reclaimed_want (t : Thread) (c : Caller) (k : ℕ) :
    (t.reclaimed c k).want = t.want := by
  cases c <;> rfl

@[simp] theorem handed_want (t : Thread) (r : Return) : (t.handed r).want = t.want := by
  cases r <;> simp [handed]

@[simp] theorem tookNone_want (t : Thread) (a : Attempt) : (t.tookNone a).want = t.want := by
  cases a <;> rfl

theorem step_bounds (γ : Gate) (t : Thread) (env : Env) :
    Bounds γ t (t.step γ env).1 (t.step γ env).2 := by
  cases hpc : t.pc <;> simp only [step, hpc]
  case idle | leave | release => exact ⟨rfl, rfl, rfl⟩
  case acquire p =>
    cases p <;> simp only [acquireStep] <;> split_ifs <;> constructor <;> simp
  case join p =>
    cases p <;> simp only [joinStep] <;> (repeat' split) <;> constructor <;> rfl
  case wait w p =>
    cases p <;> simp only [waitStep] <;> (repeat' split) <;> constructor <;> rfl
  case reclaim c p =>
    cases p <;> simp only [reclaimStep] <;> (repeat' split) <;> constructor <;> simp
  case hand r p =>
    cases p <;> simp only [handStep] <;> (repeat' split) <;> constructor <;>
      simp [Gate.setState, Gate.setWaiter]
  case retire p =>
    cases p <;> simp only [retireStep] <;> (repeat' split) <;> constructor <;> simp

end Thread

namespace System

/-- What holds of the numbers in every state: nobody asks for more than one call may have, and
the line is sorted by who joined first. -/
structure Ordered (limit : ℕ) (σ : System ι) : Prop where
  reserve : σ.gate.reserve = (Gate.new limit).reserve
  perCall : σ.gate.perCall = (Gate.new limit).perCall
  want : ∀ i, (σ.threads i).want ≤ σ.gate.perCall
  line : σ.gate.line.Pairwise (· < ·)

variable {limit : ℕ} {σ : System ι} {i : ι} {env : Env} {t : Thread} {γ : Gate}

theorem Ordered.line_step [Fintype ι] (h : Ordered limit σ) (hi : Invariant σ) {γ' : Gate}
    {t' : Thread} (hs : StepSpec σ.gate (σ.threads i) γ' t') : γ'.line.Pairwise (· < ·) := by
  cases hs.line with
  | quiet hk hline => exact hline ▸ h.line
  | settle w st hk hw hst hmine hline => exact hline ▸ h.line
  | pop hk hlocked hline => exact hline ▸ h.line.tail
  | push hk hp hp' hline =>
    rw [hline, pairwise_append]
    refine ⟨h.line, pairwise_singleton _ _, fun a ha b hb => ?_⟩
    rw [mem_singleton.mp hb]
    exact hi.line_lt a ha

theorem access [Fintype ι] (hi : Invariant σ) (i : ι) (env : Env) :
    StepSpec σ.gate (σ.threads i) ((σ.threads i).step σ.gate env).1
      ((σ.threads i).step σ.gate env).2 :=
  Thread.step_spec (hi.ok i) (hi.lineOk i) hi.lineLocked_of_holds

variable [DecidableEq ι]

theorem Ordered.set (h : Ordered limit σ) {x : Gate × Thread}
    (hb : x.1.reserve = σ.gate.reserve ∧ x.1.perCall = σ.gate.perCall)
    (hw : x.2.want ≤ σ.gate.perCall) (hline : x.1.line.Pairwise (· < ·)) :
    Ordered limit (σ.set i x) where
  reserve := hb.1.trans h.reserve
  perCall := hb.2.trans h.perCall
  want := by
    apply forall_update (P := fun t : Thread => t.want ≤ x.1.perCall)
    · rwa [hb.2]
    · intro j _
      rw [hb.2]
      exact h.want j
  line := hline

theorem Ordered.step [Fintype ι] (h : Ordered limit σ) (hi : Invariant σ) (e : Event ι) :
    Ordered limit (σ.step e) := by
  cases e with
  | acquire i want patience now =>
    simp only [System.step]
    split_ifs
    · exact h.set ⟨rfl, rfl⟩ (min_le_right _ _) h.line
    · exact h
  | retire i slots =>
    simp only [System.step]
    split_ifs
    · apply h.set ⟨rfl, rfl⟩ _ h.line
      rw [Thread.retireNext_want]
      exact h.want i
    · exact h
  | drop i =>
    simp only [System.step]
    split_ifs
    · exact h.set ⟨rfl, rfl⟩ (h.want i) h.line
    · exact h
  | step i env =>
    have hb := Thread.step_bounds σ.gate (σ.threads i) env
    apply h.set ⟨hb.reserve, hb.perCall⟩
    · rw [hb.want]
      exact h.want i
    · exact h.line_step hi (access hi i env)

theorem run_ordered [Fintype ι] (limit : ℕ) (es : List (Event ι)) :
    Ordered limit (System.run limit es) := by
  refine (Transition.run_invariant (I := fun σ => Invariant σ ∧ Ordered limit σ)
    (fun _ e h => ⟨h.1.step e, h.2.step h.1 e⟩) ⟨Invariant.new limit, ?_⟩ es).2
  exact ⟨rfl, rfl, fun _ => Nat.zero_le _, List.Pairwise.nil⟩

theorem run_concat (limit : ℕ) (es : List (Event ι)) (e : Event ι) :
    System.run limit (es ++ [e]) = (System.run limit es).step e := by
  simp [System.run]

/-! ## A take -/

theorem take_bounds (h : Ordered limit σ) {a : Attempt} {cur : ℕ} (hok : (σ.threads i).Ok)
    (hpc : (σ.threads i).pc = .acquire (.takeCas a cur))
    (hidle : ((σ.step (.step i env)).threads i).pc = .idle) :
    σ.gate.avail = (σ.step (.step i env)).gate.avail + ((σ.step (.step i env)).threads i).n ∧
      ((σ.step (.step i env)).threads i).n ≤ (Gate.new limit).perCall ∧
      (2 ≤ ((σ.step (.step i env)).threads i).n →
        (Gate.new limit).reserve ≤ (σ.step (.step i env)).gate.avail) := by
  have hcur : 0 < cur := by
    simp only [Thread.Ok, hpc] at hok
    exact hok.2
  have hwant := h.want i
  have hreserve := h.reserve
  have hper := h.perCall
  have hpos : 0 < (Gate.new limit).perCall := by
    simp only [Gate.new]
    omega
  simp only [System.step, System.set, update_self, Thread.step, hpc,
    Thread.acquireStep] at hidle ⊢
  split_ifs at hidle ⊢ with hcas hnone
  · dsimp only
    omega
  · cases a <;> simp [Thread.tookNone] at hidle

/-! ## The line is served in order -/

omit [DecidableEq ι] in
theorem granting_eq (h : t.granting γ ≠ 0) :
    ∃ r f, t.pc = .hand r (.grant f) ∧ γ.stateOf f = .waiting := by
  unfold Thread.granting at h
  split at h
  · next r f hpc =>
      refine ⟨r, f, hpc, ?_⟩
      by_contra hw
      exact h (if_neg hw)
  · exact absurd rfl h

theorem front_granted [Fintype ι] (hi : Invariant σ) {f : ℕ} (hf : σ.gate.stateOf f ≠ .granted)
    (hf' : (σ.step (.step i env)).gate.stateOf f = .granted) : σ.gate.line.head? = some f := by
  have hs : StepSpec σ.gate (σ.threads i) (σ.step (.step i env)).gate _ :=
    access hi i env
  have hgrant : (σ.threads i).granting σ.gate ≠ 0 := by
    cases hs.line with
    | quiet hk hline hjoined hstate => exact absurd (hstate ▸ hf') hf
    | pop hk hlocked hline hjoined hstate => exact absurd (hstate ▸ hf') hf
    | push hk hp hp' hline hjoined hstate =>
      rw [hstate] at hf'
      by_cases hne : f = σ.gate.joined
      · rw [hne, update_self] at hf'
        cases hf'
      · rw [update_of_ne hne] at hf'
        exact absurd hf' hf
    | settle w st hk hw hst hmine hline hjoined hstate =>
      rw [hstate] at hf'
      by_cases hne : f = w
      · rw [hne, update_self] at hf'
        rw [hk, if_pos hf']
        exact one_ne_zero
      · rw [update_of_ne hne] at hf'
        exact absurd hf' hf
  obtain ⟨r, f', hpc, hwait⟩ := granting_eq hgrant
  have hgate : (σ.step (.step i env)).gate = σ.gate.setState f' .granted := by
    simp [System.step, System.set, Thread.step, hpc, Thread.handStep, hwait]
  have hline := hi.lineOk i
  rw [hpc] at hline
  rw [hgate] at hf'
  by_cases hne : f = f'
  · rw [hne]
    exact (hline f' rfl).1
  · rw [Gate.stateOf_setState_of_ne _ hne] at hf'
    exact absurd hf' hf

theorem granted_first [Fintype ι] (h : Ordered limit σ) (hi : Invariant σ) (e : Event ι) {f w : ℕ}
    (hf : σ.gate.stateOf f ≠ .granted) (hf' : (σ.step e).gate.stateOf f = .granted)
    (hw : σ.gate.stateOf w = .waiting) : f ≤ w := by
  cases e with
  | step i env =>
    have hhead := front_granted hi hf hf'
    have hmem := hi.waiting_mem w hw
    have hsorted := h.line
    cases hline : σ.gate.line with
    | nil => simp [hline] at hmem
    | cons a rest =>
      rw [hline] at hhead hmem hsorted
      obtain rfl : a = f := Option.some.inj hhead
      rcases mem_cons.mp hmem with rfl | hrest
      · exact le_rfl
      · exact (rel_of_pairwise_cons hsorted hrest).le
  | _ =>
    simp only [System.step] at hf'
    split_ifs at hf' <;> exact absurd hf' hf

/-! ## What a walk of the line leaves behind -/

/-- A `hand_out` called for `r` that has seen no free permit and has not returned since. -/
def Gave (r : Return) : Pc → Prop
  | .hand r' (.takeCas _ cur) => r' = r ∧ cur = 0
  | .hand r' .unlock => r' = r
  | _ => False

/-- When the `hand_out` that caller `i` is in looked for a permit the last time, none was
free. -/
def NoneFree (limit : ℕ) (es : List (Event ι)) (i : ι) (r : Return) : Prop :=
  ∃ es₁, es₁ <+: es ∧ (System.run limit es₁).gate.avail = 0 ∧
    ∀ es', es₁ <+: es' → es' <+: es → Gave r ((System.run limit es').threads i).pc

variable {r : Return}

theorem NoneFree.now {es : List (Event ι)} (havail : (System.run limit es).gate.avail = 0)
    (hpc : Gave r ((System.run limit es).threads i).pc) : NoneFree limit es i r := by
  refine ⟨es, prefix_rfl, havail, fun es' h₁ h₂ => ?_⟩
  rwa [← h₁.eq_of_length (le_antisymm h₁.length_le h₂.length_le)]

theorem NoneFree.concat {es : List (Event ι)} (h : NoneFree limit es i r) {e : Event ι}
    (hpc : Gave r ((System.run limit (es ++ [e])).threads i).pc) :
    NoneFree limit (es ++ [e]) i r := by
  obtain ⟨es₁, hle, havail, hall⟩ := h
  refine ⟨es₁, hle.trans (prefix_append _ _), havail, fun es' h₁ h₂ => ?_⟩
  rcases prefix_concat_iff.mp h₂ with rfl | h₂
  · exact hpc
  · exact hall es' h₁ h₂

omit [DecidableEq ι] in
theorem line_of_holds [Fintype ι] (hi : Invariant σ) {j : ι} (hij : j ≠ i) {γ' : Gate} {t' : Thread}
    (hs : StepSpec σ.gate (σ.threads j) γ' t') (hlock : (σ.threads i).pc.holdsLine = true) :
    γ'.line = σ.gate.line := by
  have hnot := hi.not_holds_of_ne hij hlock
  cases hs.line with
  | quiet hk hline => exact hline
  | settle w st hk hw hst hmine hline => exact hline
  | pop hk hlocked => simp [hlocked] at hnot
  | push hk hp => simp [hp, Pc.holdsLine, JoinPc.locked] at hnot

omit [DecidableEq ι] in
theorem holdsLine_of_gave {p : Pc} (h : Gave r p) : p.holdsLine = true := by
  unfold Gave at h
  split at h
  · rfl
  · rfl
  · exact h.elim

@[simp] theorem not_gave_retireNext (t : Thread) (r : Return) : ¬ Gave r t.retireNext.pc := by
  unfold Thread.retireNext
  split
  · exact id
  · split_ifs <;> exact id

@[simp] theorem not_gave_reclaimed (t : Thread) (c : Caller) (k : ℕ) (r : Return) :
    ¬ Gave r (t.reclaimed c k).pc := by
  cases c <;> exact id

@[simp] theorem not_gave_handed (t : Thread) (r' r : Return) : ¬ Gave r (t.handed r').pc := by
  cases r' with
  | retired => exact not_gave_retireNext _ r
  | reclaimed c freed => exact not_gave_reclaimed t c freed r
  | _ => exact id

@[simp] theorem not_gave_tookNone (t : Thread) (a : Attempt) (r : Return) :
    ¬ Gave r (t.tookNone a).pc := by
  cases a <;> exact id

/-- The access by which a walk of the line ends: it saw no place, or no permit, or it had
ended before. -/
theorem gave_handStep {r r' : Return} {p : HandPc} (hpc : t.pc = .hand r' p)
    (h : Gave r (t.handStep γ env r' p).2.pc) :
    (t.handStep γ env r' p).1.line = [] ∨ (t.handStep γ env r' p).1.avail = 0 ∨
      Gave r t.pc ∧ (t.handStep γ env r' p).1.line = γ.line := by
  cases p with
  | queued | lock =>
    simp only [Thread.handStep] at h
    split_ifs at h <;> first | exact h.elim | exact absurd h (not_gave_handed _ _ _)
  | front =>
    simp only [Thread.handStep] at h ⊢
    split at h
    · next hline => exact .inl hline
    · split_ifs at h <;> exact h.elim
  | takeLoad f => exact .inr (.inl h.2)
  | takeCas f cur =>
    simp only [Thread.handStep] at h ⊢
    split_ifs at h ⊢ with hzero hcas
    · refine .inr (.inr ⟨?_, rfl⟩)
      rw [hpc]
      exact ⟨h, hzero⟩
    · exact h.elim
    · exact .inr (.inl h.2)
  | unlock => exact absurd h (not_gave_handed _ _ _)
  | seen f | stale f | grant f =>
    simp only [Thread.handStep] at h
    split_ifs at h <;> exact h.elim
  | _ => exact h.elim

theorem not_gave_step (hpc : ∀ r' p, t.pc ≠ .hand r' p) : ¬ Gave r (t.step γ env).2.pc := by
  cases hp : t.pc <;> simp only [Thread.step, hp]
  case idle | leave | release => simp [Gave]
  case acquire p =>
    cases p <;> simp only [Thread.acquireStep] <;> split_ifs <;> first | exact id | simp
  case join p =>
    cases p <;> simp only [Thread.joinStep] <;> (repeat' split) <;> exact id
  case wait w p =>
    cases p <;> simp only [Thread.waitStep] <;> (repeat' split) <;> simp [Gave, hp]
  case reclaim c p =>
    cases p <;> simp only [Thread.reclaimStep] <;> (repeat' split) <;> first | exact id | simp
  case hand r' p => exact absurd hp (hpc r' p)
  case retire p =>
    cases p <;> simp only [Thread.retireStep] <;> (repeat' split) <;> first | exact id | simp

theorem gave_step (h : Gave r (t.step γ env).2.pc) :
    (t.step γ env).1.line = [] ∨ (t.step γ env).1.avail = 0 ∨
      Gave r t.pc ∧ (t.step γ env).1.line = γ.line := by
  by_cases hpc : ∃ r' p, t.pc = .hand r' p
  · obtain ⟨r', p, hpc⟩ := hpc
    have hstep : t.step γ env = t.handStep γ env r' p := by simp only [Thread.step, hpc]
    rw [hstep] at h ⊢
    exact gave_handStep hpc h
  · exact absurd h (not_gave_step fun r' p hp => hpc ⟨r', p, hp⟩)

theorem gave_of_set {j : ι} {x : Gate × Thread} (hx : ¬ Gave r x.2.pc)
    (h : Gave r ((σ.set j x).threads i).pc) : Gave r (σ.threads i).pc := by
  simp only [System.set] at h
  by_cases hij : i = j
  · subst hij
    rw [update_self] at h
    exact absurd h hx
  · rwa [update_of_ne hij] at h

theorem gave_event [Fintype ι] (hinv : Invariant σ) (e : Event ι)
    (h : Gave r ((σ.step e).threads i).pc) :
    (σ.step e).gate.line = [] ∨ (σ.step e).gate.avail = 0 ∨
      Gave r (σ.threads i).pc ∧ (σ.step e).gate.line = σ.gate.line := by
  cases e with
  | step j env =>
    by_cases hij : i = j
    · subst hij
      simp only [System.step, System.set, update_self] at h ⊢
      exact gave_step h
    · -- nobody else touches a line that `i` has locked
      have hgave : Gave r (σ.threads i).pc := by
        simpa only [System.step, System.set, update_of_ne hij] using h
      refine .inr (.inr ⟨hgave, ?_⟩)
      exact line_of_holds hinv (Ne.symm hij) (access hinv j env) (holdsLine_of_gave hgave)
  | acquire j | retire j | drop j =>
    simp only [System.step] at h ⊢
    split_ifs at h ⊢
    · exact .inr (.inr ⟨gave_of_set (by first | exact id | simp) h, rfl⟩)
    · exact .inr (.inr ⟨h, rfl⟩)

/-- A caller whose walk of the line has ended saw the line empty, as it still is, or saw no free
permit. -/
theorem gave_run [Fintype ι] (limit : ℕ) (es : List (Event ι))
    (h : Gave r ((System.run limit es).threads i).pc) :
    (System.run limit es).gate.line = [] ∨ NoneFree limit es i r := by
  induction es using reverseRecOn with
  | nil => exact h.elim
  | append_singleton es e ih =>
    have hnow := h
    rw [run_concat] at hnow
    rcases gave_event (System.run_invariant limit es).1 e hnow with hline | havail | ⟨hgave, hline⟩
    · exact .inl (by rwa [run_concat])
    · exact .inr (NoneFree.now (by rwa [run_concat]) h)
    · rw [run_concat, hline]
      exact (ih hgave).imp_right fun hnone => hnone.concat h

/-- **Fairness of the gate.** Along every run: a take is for at most `perCall` permits and one
for more than one leaves the reserve free, a place is granted a permit only when no place that
joined before it still waits, and a `hand_out` that returns with the line's lock leaves the line
empty or saw no free permit when it last looked. -/
theorem gate_fair [Fintype ι] (limit : ℕ) (es : List (Event ι)) :
    (∀ i env a cur, ((run limit es).threads i).pc = .acquire (.takeCas a cur) →
      ((run limit (es ++ [.step i env])).threads i).pc = .idle →
        (run limit es).gate.avail = (run limit (es ++ [.step i env])).gate.avail +
            ((run limit (es ++ [.step i env])).threads i).n ∧
          ((run limit (es ++ [.step i env])).threads i).n ≤ (Gate.new limit).perCall ∧
          (2 ≤ ((run limit (es ++ [.step i env])).threads i).n →
            (Gate.new limit).reserve ≤ (run limit (es ++ [.step i env])).gate.avail)) ∧
    (∀ e f w, (run limit es).gate.stateOf f ≠ .granted →
      (run limit (es ++ [e])).gate.stateOf f = .granted →
        (run limit es).gate.stateOf w = .waiting → f ≤ w) ∧
    (∀ i env r, ((run limit es).threads i).pc = .hand r .unlock →
      (run limit (es ++ [.step i env])).gate.line = [] ∨ NoneFree limit es i r) := by
  have hinv := (System.run_invariant limit es).1
  have hord := run_ordered limit es
  refine ⟨fun i env a cur hpc => ?_, fun e f w => ?_, fun i env r hpc => ?_⟩
  · rw [run_concat]
    exact take_bounds hord (hinv.ok i) hpc
  · rw [run_concat]
    exact granted_first hord hinv e
  · have hline : (run limit (es ++ [.step i env])).gate.line = (run limit es).gate.line := by
      rw [run_concat]
      simp [System.step, System.set, Thread.step, hpc, Thread.handStep]
    rw [hline]
    apply gave_run limit es
    rw [hpc]
    rfl

/-- One caller takes the only permit and another gets in line for it. While the second still has
the lock of the line, the first drops its permit and gives up on the lock. -/
def missedRun : List (Event Bool) :=
  let turns (i : Bool) (k : ℕ) : List (Event Bool) :=
    List.replicate k (.step i ⟨0, false, fun _ => false⟩)
  .acquire false 1 5 0 :: turns false 3 ++ .acquire true 1 5 0 :: turns true 526 ++
    .drop false :: turns false 258 ++ turns true 1

/-- Both have returned from `hand_out`, the permit is free, and the second caller still waits
for one. -/
theorem permit_missed :
    let σ := run 1 missedRun
    (σ.threads false).pc = .idle ∧ (σ.threads true).pc = .wait 0 .load ∧ σ.gate.lineLocked = false ∧
      σ.gate.avail = 1 ∧ σ.gate.line = [0] ∧ σ.gate.stateOf 0 = .waiting := by
  decide +kernel

end System

end AetherVfs.Ipc.DataGate
