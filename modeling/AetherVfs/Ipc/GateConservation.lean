import AetherVfs.Ipc.GateInvariant

/-!
# Conservation of permits

The invariant of the gate with all its callers, that every event keeps it,
and what it says: no permit is lost or made, and `queued` counts the places
still waiting.
-/

namespace AetherVfs.Ipc.DataGate

open Transition List Function

variable {ι : Type*}

structure Invariant [Fintype ι] (σ : System ι) : Prop where
  ok : ∀ i, (σ.threads i).Ok
  lineOk : ∀ i, LineOk σ.gate (σ.threads i).pc
  lock : ∑ i, (σ.threads i).pc.holdsLine.toNat = σ.gate.lineLocked.toNat
  conserve : σ.gate.avail + σ.gate.retired.length + ∑ i, (σ.threads i).share +
    ∑ i, σ.gate.granted (σ.threads i).pc.place = σ.gate.limit
  count : σ.gate.queued + ∑ i, (σ.threads i).pc.joining =
    σ.gate.waiting + ∑ i, (σ.threads i).pc.uncounting
  line_nodup : σ.gate.line.Nodup
  line_lt : ∀ w ∈ σ.gate.line, w < σ.gate.joined
  waiting_mem : ∀ w, σ.gate.stateOf w = .waiting → w ∈ σ.gate.line
  waiting_owned : ∀ w, σ.gate.stateOf w = .waiting → ∃ i, (σ.threads i).pc.place = some w
  place_lt : ∀ i w, (σ.threads i).pc.place = some w → w < σ.gate.joined
  place_unique : ∀ i j w, (σ.threads i).pc.place = some w → (σ.threads j).pc.place = some w → i = j

variable {γ γ' : Gate} {t : Thread}

theorem LineOk.of_not_holdsLine {p : Pc} (h : p.holdsLine = false) : LineOk γ p := by
  cases p with
  | join p => cases p <;> simp_all [LineOk, Pc.holdsLine, JoinPc.locked]
  | hand r p => cases p <;> simp_all [LineOk, Pc.holdsLine, HandPc.locked, HandPc.atFront]
  | _ => trivial

theorem LineOk.congr {p : Pc} (hline : γ'.line = γ.line) (hstate : γ'.stateOf = γ.stateOf)
    (h : LineOk γ p) : LineOk γ' p := by
  unfold LineOk at h ⊢
  rw [hline, hstate]
  exact h

namespace Pc

theorem joining_le (p : Pc) : p.joining ≤ p.holdsLine.toNat := by
  unfold joining
  split
  · exact le_refl _
  · exact Nat.zero_le _

theorem eq_count_of_joining {p : Pc} (h : p.joining ≠ 0) : ∃ w, p = .join (.count w) := by
  unfold joining at h
  split at h
  · exact ⟨_, rfl⟩
  · exact absurd rfl h

end Pc

namespace Gate

theorem waiting_congr (hline : γ'.line = γ.line) (hstate : γ'.stateOf = γ.stateOf) :
    γ'.waiting = γ.waiting := by
  rw [waiting, waiting, hline, hstate]

theorem granted_congr (hstate : γ'.stateOf = γ.stateOf) (o : Option ℕ) :
    γ'.granted o = γ.granted o := by
  cases o <;> simp [granted, hstate]

end Gate

namespace Invariant

variable [Fintype ι] {σ : System ι}

theorem lineLocked_of_holds (h : Invariant σ) {i : ι} (hi : (σ.threads i).pc.holdsLine = true) :
    σ.gate.lineLocked = true := by
  have hle : (σ.threads i).pc.holdsLine.toNat ≤ ∑ j, (σ.threads j).pc.holdsLine.toNat :=
    Finset.single_le_sum (f := fun j => (σ.threads j).pc.holdsLine.toNat) (fun _ _ => Nat.zero_le _) (Finset.mem_univ i)
  rw [h.lock, hi] at hle
  cases hl : σ.gate.lineLocked <;> simp_all

theorem not_holds_of_ne (h : Invariant σ) {i j : ι} (hij : j ≠ i)
    (hi : (σ.threads i).pc.holdsLine = true) : (σ.threads j).pc.holdsLine = false := by
  have hle := le_sum_of_ne (fun k => (σ.threads k).pc.holdsLine.toNat) hij
  rw [h.lock] at hle
  cases hj : (σ.threads j).pc.holdsLine with
  | false => rfl
  | true =>
    have := Bool.toNat_le σ.gate.lineLocked
    simp [hi, hj] at hle
    omega

/-- The counter never goes below zero: a caller that joined and is not yet counted still
waits. -/
theorem uncounting_le_queued (h : Invariant σ) (i : ι) :
    (σ.threads i).pc.uncounting ≤ σ.gate.queued := by
  have hone : (σ.threads i).pc.uncounting ≤ ∑ j, (σ.threads j).pc.uncounting :=
    Finset.single_le_sum (f := fun j => (σ.threads j).pc.uncounting) (fun _ _ => Nat.zero_le _) (Finset.mem_univ i)
  have hcount := h.count
  suffices hjoin : ∑ j, (σ.threads j).pc.joining ≤ σ.gate.waiting by omega
  by_cases hnone : ∀ j, (σ.threads j).pc.joining = 0
  · simp [hnone]
  · push Not at hnone
    obtain ⟨j, hj⟩ := hnone
    have hle : ∑ j, (σ.threads j).pc.joining ≤ ∑ j, (σ.threads j).pc.holdsLine.toNat :=
      Finset.sum_le_sum fun j _ => (σ.threads j).pc.joining_le
    have hlocked := Bool.toNat_le σ.gate.lineLocked
    have hwaits : 0 < σ.gate.waiting := by
      obtain ⟨w, hw⟩ := Pc.eq_count_of_joining hj
      have hok := h.lineOk j
      rw [hw] at hok
      exact countP_pos_iff.mpr ⟨w, hok.1, by simp [hok.2]⟩
    rw [h.lock] at hle
    omega

section Step

variable {i : ι} {γ' : Gate} {t' : Thread} (h : Invariant σ)
  (hs : StepSpec σ.gate (σ.threads i) γ' t')

include h hs

theorem lineOk_other {j : ι} (hj : j ≠ i) : LineOk γ' (σ.threads j).pc := by
  cases hs.line with
  | quiet hk hline hjoined hstate => exact (h.lineOk j).congr hline hstate
  | push hk hp =>
    exact .of_not_holdsLine (h.not_holds_of_ne hj (by rw [hp]; rfl))
  | pop hk hlocked => exact .of_not_holdsLine (h.not_holds_of_ne hj hlocked)
  | settle w st hk hw hst hmine hline hjoined hstate =>
    rcases hmine with hmine | ⟨hlocked, -⟩
    · have hok := h.lineOk j
      cases hpc : (σ.threads j).pc with
      | join p =>
        cases p with
        | count w' =>
          have hne : w' ≠ w := by
            rintro rfl
            exact hj (h.place_unique j i w' (by rw [hpc]; rfl) hmine)
          rw [hpc] at hok
          exact ⟨hline ▸ hok.1, by rw [hstate, update_of_ne hne]; exact hok.2⟩
        | _ => trivial
      | hand r p =>
        rw [hpc] at hok
        intro f hf
        obtain ⟨hhead, hsettled⟩ := hok f hf
        refine ⟨hline ▸ hhead, fun hs => ?_⟩
        rw [hstate]
        by_cases hfw : f = w
        · subst hfw
          simpa using hst
        · simpa [hfw] using hsettled hs
      | _ => trivial
    · exact .of_not_holdsLine (h.not_holds_of_ne hj hlocked)

theorem granted_sum :
    ∑ j, γ'.granted (σ.threads j).pc.place =
      ∑ j, σ.gate.granted (σ.threads j).pc.place + (σ.threads i).granting σ.gate := by
  cases hs.line with
  | quiet hk hline hjoined hstate => simp [hk, Gate.granted_congr hstate]
  | pop hk hlocked hline hjoined hstate => simp [hk, Gate.granted_congr hstate]
  | push hk hp hp' hline hjoined hstate =>
    rw [hk, add_zero]
    refine Finset.sum_congr rfl fun j _ => ?_
    cases hplace : (σ.threads j).pc.place with
    | none => rfl
    | some w =>
      have hne : w ≠ σ.gate.joined := (h.place_lt j w hplace).ne
      simp [Gate.granted, hstate, hne]
  | settle w st hk hw hst hmine hline hjoined hstate =>
    obtain ⟨k, hk'⟩ := h.waiting_owned w hw
    have hone := sum_indicator_eq_one (P := fun j => (σ.threads j).pc.place = some w) hk'
      fun j hj => h.place_unique j k w hj hk'
    have hpoint : ∀ j, γ'.granted (σ.threads j).pc.place =
        σ.gate.granted (σ.threads j).pc.place +
          (if (σ.threads j).pc.place = some w then 1 else 0) *
            (σ.threads i).granting σ.gate := by
      intro j
      cases hplace : (σ.threads j).pc.place with
      | none => simp [Gate.granted]
      | some w' =>
        by_cases hww : w' = w
        · subst hww
          simp [Gate.granted, hstate, hw, hk]
        · simp [Gate.granted, hstate, hww]
    rw [Finset.sum_congr rfl fun j _ => hpoint j, Finset.sum_add_distrib, ← Finset.sum_mul, hone,
      one_mul]

theorem waiting_step :
    γ'.queued + t'.pc.joining + (σ.gate.waiting + (σ.threads i).pc.uncounting) =
      σ.gate.queued + (σ.threads i).pc.joining + (γ'.waiting + t'.pc.uncounting) := by
  cases hs.line with
  | quiet hk hline hjoined hstate hplace hqueued =>
    have hq := hqueued (h.uncounting_le_queued i)
    rw [Gate.waiting_congr hline hstate]
    omega
  | push hk hp hp' hline hjoined hstate hqueued =>
    have hw : γ'.waiting = σ.gate.waiting + 1 := by
      rw [Gate.waiting, hline, countP_append, hstate]
      congr 1
      · refine countP_congr fun w hw => ?_
        have hne : w ≠ σ.gate.joined := (h.line_lt w hw).ne
        simp [hne]
      · simp
    rw [hw, hqueued, hp, hp']
    simp [Pc.joining, Pc.uncounting]
    omega
  | settle w st hk hw hst hmine hline hjoined hstate hplace hqueued hjoining huncount =>
    have hcount : γ'.waiting + 1 = σ.gate.waiting := by
      rw [Gate.waiting, Gate.waiting, hline, hstate]
      refine countP_turn_off h.line_nodup (h.waiting_mem w hw) (by simp [hw]) (by simp [hst]) ?_
      intro b hb
      simp [hb]
    rw [hqueued, hjoining.1, hjoining.2, huncount.1, huncount.2]
    omega
  | pop hk hlocked hline hjoined hstate hfront hplace hqueued hjoining huncount =>
    have hw : γ'.waiting = σ.gate.waiting := by
      rw [Gate.waiting, Gate.waiting, hline, hstate]
      cases hl : σ.gate.line with
      | nil => rfl
      | cons f rest =>
        have hf := hfront f (by simp [hl])
        simp [hf]
    rw [hw, hqueued, hjoining.1, hjoining.2, huncount.1, huncount.2]

omit h [Fintype ι] in
theorem places_step {w : ℕ} (hw : t'.pc.place = some w) :
    (σ.threads i).pc.place = some w ∨ w = σ.gate.joined ∧ γ'.joined = σ.gate.joined + 1 := by
  cases hs.line with
  | quiet hk hline hjoined hstate hplace =>
    rcases hplace with hplace | ⟨hnone, -⟩
    · exact .inl (hplace ▸ hw)
    · simp [hnone] at hw
  | push hk hp hp' hline hjoined =>
    rw [hp'] at hw
    exact .inr ⟨(Option.some.inj hw).symm, hjoined⟩
  | settle w' st hk hw' hst hmine hline hjoined hstate hplace =>
    rcases hplace with hplace | ⟨hnone, -⟩
    · exact .inl (hplace ▸ hw)
    · simp [hnone] at hw
  | pop hk hlocked hline hjoined hstate hfront hplace => exact .inl (hplace ▸ hw)

theorem line_nodup_step : γ'.line.Nodup := by
  cases hs.line with
  | quiet hk hline => exact hline ▸ h.line_nodup
  | settle w st hk hw hst hmine hline => exact hline ▸ h.line_nodup
  | pop hk hlocked hline => exact hline ▸ h.line_nodup.tail
  | push hk hp hp' hline =>
    rw [hline, nodup_append']
    refine ⟨h.line_nodup, nodup_singleton _, ?_⟩
    rw [disjoint_singleton]
    exact fun hmem => (h.line_lt _ hmem).false

theorem line_lt_step : ∀ w ∈ γ'.line, w < γ'.joined := by
  intro w hw
  cases hs.line with
  | quiet hk hline hjoined => exact hjoined ▸ h.line_lt w (hline ▸ hw)
  | settle w' st hk hw' hst hmine hline hjoined => exact hjoined ▸ h.line_lt w (hline ▸ hw)
  | pop hk hlocked hline hjoined =>
    exact hjoined ▸ h.line_lt w (mem_of_mem_tail (hline ▸ hw))
  | push hk hp hp' hline hjoined =>
    rw [hline] at hw
    rcases mem_append.mp hw with hw | hw
    · have := h.line_lt w hw
      omega
    · rw [mem_singleton.mp hw, hjoined]
      omega

theorem waiting_mem_step {w : ℕ} (hw : γ'.stateOf w = .waiting) : w ∈ γ'.line := by
  cases hs.line with
  | quiet hk hline hjoined hstate => exact hline ▸ h.waiting_mem w (hstate ▸ hw)
  | push hk hp hp' hline hjoined hstate =>
    rw [hline]
    by_cases hwj : w = σ.gate.joined
    · simp [hwj]
    · rw [hstate, update_of_ne hwj] at hw
      exact mem_append_left _ (h.waiting_mem w hw)
  | settle w' st hk hw' hst hmine hline hjoined hstate =>
    have hne : w ≠ w' := by
      rintro rfl
      rw [hstate, update_self] at hw
      exact hst hw
    rw [hstate, update_of_ne hne] at hw
    exact hline ▸ h.waiting_mem w hw
  | pop hk hlocked hline hjoined hstate hfront =>
    have hmem := h.waiting_mem w (hstate ▸ hw)
    rw [hline]
    cases hl : σ.gate.line with
    | nil => simp [hl] at hmem
    | cons f rest =>
      rw [hl] at hmem
      rcases mem_cons.mp hmem with rfl | hrest
      · exact absurd (hstate ▸ hw) (hfront w (by simp [hl]))
      · exact hrest

/-- A place still waiting after the access of caller `i` was waiting before, or is the one
`i` has just made; and it has not lost its owner. -/
theorem waiting_owned_step [DecidableEq ι] {w : ℕ} (hw : γ'.stateOf w = .waiting) :
    ∃ j, (Function.update σ.threads i t' j).pc.place = some w := by
  have hkeep : σ.gate.stateOf w = .waiting →
      ((σ.threads i).pc.place = some w → t'.pc.place = some w) →
      ∃ j, (update σ.threads i t' j).pc.place = some w := by
    intro hold hmine
    obtain ⟨j, hj⟩ := h.waiting_owned w hold
    refine ⟨j, ?_⟩
    by_cases hji : j = i
    · subst hji
      simpa using hmine hj
    · simpa [hji] using hj
  cases hs.line with
  | quiet hk hline hjoined hstate hplace =>
    refine hkeep (hstate ▸ hw) fun hp => ?_
    rcases hplace with hplace | ⟨-, hnot⟩
    · exact hplace.trans hp
    · exact absurd (hstate ▸ hw) (hnot w hp)
  | pop hk hlocked hline hjoined hstate hfront hplace =>
    exact hkeep (hstate ▸ hw) fun hp => hplace.trans hp
  | push hk hp hp' hline hjoined hstate =>
    by_cases hwj : w = σ.gate.joined
    · refine ⟨i, ?_⟩
      rw [update_self, hp', hwj]
      rfl
    · rw [hstate, update_of_ne hwj] at hw
      refine hkeep hw fun hplace => ?_
      rw [hp] at hplace
      simp [Pc.place, JoinPc.place] at hplace
  | settle w' st hk hw' hst hmine hline hjoined hstate hplace =>
    have hne : w ≠ w' := by
      rintro rfl
      rw [hstate, update_self] at hw
      exact hst hw
    rw [hstate, update_of_ne hne] at hw
    refine hkeep hw fun hp => ?_
    rcases hplace with hplace | ⟨-, hwas⟩
    · exact hplace.trans hp
    · exact absurd (Option.some.inj (hp.symm.trans hwas)) hne

theorem set [DecidableEq ι] : Invariant (σ.set i (γ', t')) := by
  have hshare := sum_update_add σ.threads i t' Thread.share
  have hgrant := sum_update_add σ.threads i t' fun t : Thread => γ'.granted t.pc.place
  have hlock := sum_update_add σ.threads i t' fun t : Thread => t.pc.holdsLine.toNat
  have hjoin := sum_update_add σ.threads i t' fun t : Thread => t.pc.joining
  have huncount := sum_update_add σ.threads i t' fun t : Thread => t.pc.uncounting
  have hle : σ.gate.joined ≤ γ'.joined := by
    cases hs.line <;> omega
  refine ⟨?_, ?_, ?_, ?_, ?_, ?_, ?_, ?_, ?_, ?_, ?_⟩
  · exact forall_update hs.ok fun j _ => h.ok j
  · exact forall_update (P := fun t : Thread => LineOk γ' t.pc) hs.lineOk fun j hj => h.lineOk_other hs hj
  · have := hs.lock
    have := h.lock
    simp only [System.set]
    omega
  · have := hs.balance
    have := hs.limit
    have := h.conserve
    have := h.granted_sum hs
    simp only [System.set]
    omega
  · have := h.waiting_step hs
    have := h.count
    simp only [System.set]
    omega
  · exact h.line_nodup_step hs
  · exact h.line_lt_step hs
  · exact fun w hw => h.waiting_mem_step hs hw
  · exact fun w hw => h.waiting_owned_step hs hw
  · intro j w hw
    by_cases hji : j = i
    · subst hji
      rcases places_step hs (by simpa [System.set] using hw) with hold | ⟨hnew, hjoined⟩
      · exact (h.place_lt j w hold).trans_le hle
      · change w < γ'.joined
        omega
    · exact (h.place_lt j w (by simpa [System.set, hji] using hw)).trans_le hle
  · have hmine : ∀ j w, j ≠ i → t'.pc.place = some w → (σ.threads j).pc.place ≠ some w := by
      intro j w hji hw hj
      rcases places_step hs hw with hold | ⟨hnew, -⟩
      · exact hji (h.place_unique j i w hj hold)
      · exact (h.place_lt j w hj).ne hnew
    intro j k w hj hk
    by_cases hji : j = i <;> by_cases hki : k = i
    · rw [hji, hki]
    · subst hji
      exact absurd (by simpa [System.set, hki] using hk)
        (hmine k w hki (by simpa [System.set] using hj))
    · subst hki
      exact absurd (by simpa [System.set, hji] using hj)
        (hmine j w hji (by simpa [System.set] using hk))
    · exact h.place_unique j k w (by simpa [System.set, hji] using hj)
        (by simpa [System.set, hki] using hk)

end Step

end Invariant

theorem idle_quiet (hpc : t.pc = .idle) : Quiet t none t.n := by
  constructor <;> simp [Thread.Ok, Thread.share, hpc, Pc.holdsLine, Pc.pledged, Pc.inHand, Pc.place,
    Pc.joining, Pc.uncounting, LineOk]

namespace Invariant

variable [Fintype ι] [DecidableEq ι] {σ : System ι}

theorem step (h : Invariant σ) (e : Event ι) : Invariant (σ.step e) := by
  cases e with
  | acquire i want patience now =>
    simp only [System.step]
    split_ifs with hidle
    · have hq := idle_quiet hidle.1
      rw [hidle.2] at hq
      refine h.set (.of_quiet hq ?_ rfl)
      exact quiet_zero hidle.2 hidle.2 (fun _ => trivial) ⟨rfl, rfl, rfl, rfl⟩
    · exact h
  | retire i slots =>
    simp only [System.step]
    split_ifs with hidle
    · refine h.set (.of_quiet (idle_quiet hidle.1) ?_ rfl)
      exact Thread.retireNext_quiet _
    · exact h
  | drop i =>
    simp only [System.step]
    split_ifs with hidle
    · refine h.set (.of_quiet (idle_quiet hidle.1) ?_ rfl)
      exact ⟨rfl, rfl, rfl, rfl, rfl, rfl, fun _ => trivial⟩
    · exact h
  | step i env =>
    exact h.set (Thread.step_spec (h.ok i) (h.lineOk i) h.lineLocked_of_holds)

theorem step_limit (h : Invariant σ) (e : Event ι) :
    (σ.step e).gate.limit = σ.gate.limit := by
  cases e with
  | step i env =>
    exact (Thread.step_spec (h.ok i) (h.lineOk i) h.lineLocked_of_holds).limit
  | _ =>
    simp only [System.step]
    split_ifs <;> rfl

end Invariant

theorem Invariant.new [Fintype ι] (limit : ℕ) :
    Invariant (⟨Gate.new limit, fun _ => Thread.new⟩ : System ι) := by
  constructor <;>
    simp [Gate.new, Thread.new, Thread.Ok, LineOk, Thread.share, Pc.holdsLine, Pc.inHand,
      Pc.place, Pc.joining, Pc.uncounting, Gate.granted, Gate.waiting, Gate.stateOf]

theorem System.run_invariant [Fintype ι] [DecidableEq ι] (limit : ℕ) (es : List (Event ι)) :
    Invariant (System.run limit es) ∧ (System.run limit es).gate.limit = max limit 1 :=
  Transition.run_invariant (I := fun σ => Invariant σ ∧ σ.gate.limit = max limit 1)
    (fun _ e h => ⟨h.1.step e, (h.1.step_limit e).trans h.2⟩) ⟨Invariant.new limit, rfl⟩ es

theorem Thread.Ok.pledged_le (h : t.Ok) : t.pc.pledged ≤ t.n := by
  unfold Pc.pledged
  split <;> simp_all [Thread.Ok] <;> omega

theorem Thread.Ok.share_add_pledged (h : t.Ok) : t.share + t.pc.pledged = t.n + t.pc.inHand := by
  have := h.pledged_le
  unfold Thread.share
  omega

/-- **Permits are conserved.** In every state a run reaches, the free permits, those in live
`Permits`, those granted to a place and not yet picked up, those out for retired slots and
those a `hand_out` or `reclaim` is moving make up the limit, where a permit its `Permits` has
already retired or returned is not counted as held. No caller has pledged more than it holds,
and `queued` counts the places in line still waiting, up to the callers that have joined or
settled a place and are about to count it. -/
theorem System.permits_conserved [Fintype ι] [DecidableEq ι] (limit : ℕ) (es : List (Event ι)) :
    let σ := System.run limit es
    σ.gate.avail + ∑ i, (σ.threads i).n + ∑ i, σ.gate.granted (σ.threads i).pc.place +
        σ.gate.retired.length + ∑ i, (σ.threads i).pc.inHand =
      max limit 1 + ∑ i, (σ.threads i).pc.pledged ∧
    (∀ i, (σ.threads i).pc.pledged ≤ (σ.threads i).n) ∧
    σ.gate.queued + ∑ i, (σ.threads i).pc.joining =
      σ.gate.waiting + ∑ i, (σ.threads i).pc.uncounting := by
  intro σ
  obtain ⟨h, hlimit⟩ : Invariant σ ∧ σ.gate.limit = max limit 1 := System.run_invariant limit es
  have hshare : ∑ i, (σ.threads i).share + ∑ i, (σ.threads i).pc.pledged =
      ∑ i, (σ.threads i).n + ∑ i, (σ.threads i).pc.inHand := by
    rw [← Finset.sum_add_distrib, ← Finset.sum_add_distrib]
    exact Finset.sum_congr rfl fun i _ => (h.ok i).share_add_pledged
  have hconserve := h.conserve
  rw [hlimit] at hconserve
  exact ⟨by omega, fun i => (h.ok i).pledged_le, h.count⟩

def retiringRun : List (Event Unit) :=
  .acquire () 1 0 0 :: List.replicate 3 (.step () ⟨0, false, fun _ => true⟩) ++
    .retire () [5] :: List.replicate 2 (.step () ⟨0, false, fun _ => true⟩)

/-- Between the push onto the retired list and the decrement of `Permits` the permit is in
both places. -/
theorem System.retiring_counts_twice :
    let σ := System.run 1 retiringRun
    σ.gate.avail + ∑ i, (σ.threads i).n + ∑ i, σ.gate.granted (σ.threads i).pc.place +
      σ.gate.retired.length ≠ σ.gate.limit := by
  decide +kernel

end AetherVfs.Ipc.DataGate
