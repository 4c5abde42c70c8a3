import JustApi.Core.BreakerPeriods

/-! # Who closes and re-opens the breaker

A completion does not say when its request was admitted. As long as only probes of the
current half-open period complete while the breaker is half open, it is their verdict
alone that ends the period. -/
namespace JustApi.Core.Breaker
open JustApi.Lib.Run

variable {config : CircuitBreakerConfig} {w w' : World} {event : Event}

/-- While the breaker is half open, only requests admitted in this period complete. -/
def OwnProbes (w : World) : Event → Prop
  | .act i .record => ∀ phase ∈ w.requests[i]?, w.breaker.state = .halfOpen →
      w.isProbe phase.admittedIn = true
  | _ => True

instance (w : World) (event : Event) : Decidable (OwnProbes w event) :=
  match event with
  | .act i .record => inferInstanceAs (Decidable (∀ phase ∈ w.requests[i]?,
      w.breaker.state = .halfOpen → w.isProbe phase.admittedIn = true))
  | .tick _ | .arrive | .act _ .acquire | .act _ (.finish _) | .act _ .drop => .isTrue trivial

/-- The breaker closes after enough successes of requests of the same half-open period,
and the completion of any other request leaves an open or half-open breaker as it is. -/
structure Judged (config : CircuitBreakerConfig) (w : World) (event : Event) (w' : World) :
    Prop where
  closes : w.breaker.state = .halfOpen → w'.breaker.state = .closed →
    w'.tally.period = w.tally.period ∧ config.successThreshold ≤ w'.tally.succeeded
  strangers : ∀ i, event = .act i .record → ∀ phase ∈ w.requests[i]?,
    w.isProbe phase.admittedIn = false → w.breaker.state ≠ .closed →
      w'.breaker.state = w.breaker.state

/-- The half-open breaker has counted the successes of its probes and no others. -/
structure OwnCount (config : CircuitBreakerConfig) (w : World) : Prop where
  accounted : Accounted config w
  own : w.breaker.state = .halfOpen → w.breaker.successCount = w.tally.succeeded

theorem ownCount_step (h : OwnCount config w) (hstep : Step config w event w')
    (hown : OwnProbes w event) : OwnCount config w' := by
  refine ⟨accounted_step h.accounted hstep, ?_⟩
  cases step_move hstep with
  | tick elapsed => exact h.own
  | arrive => exact h.own
  | refuse hi hf => exact h.own
  | pass hi hs => exact h.own
  | trigger hi hs ht => exact fun _ => rfl
  | probe hi hs hu => exact fun _ => h.own hs
  | finish failed hi => exact h.own
  | failure hi => exact fun hs => absurd hs (recordFailure_state _ _)
  | @success i period hi =>
    intro hs
    obtain ⟨hw, -, hb⟩ := recordSuccess_halfOpen hs
    have hprobe : w.isProbe period = true := hown _ hi hw
    rw [hb]
    show w.breaker.successCount + 1 = w.tally.succeeded + (w.isProbe period).toNat
    rw [hprobe, h.own hw]
    rfl
  | drop hi hne => exact h.own

/-- A success that closes the half-open breaker is the one that reaches the threshold. -/
theorem recordSuccess_closes {b : BreakerInner} (hb : b.state = .halfOpen)
    (h : (b.recordSuccess config).state = .closed) :
    config.successThreshold ≤ b.successCount + 1 := by
  unfold BreakerInner.recordSuccess at h
  simp only [hb] at h
  split at h
  · assumption
  · cases h

theorem judged_step (h : OwnCount config w) (hstep : Step config w event w')
    (hown : OwnProbes w event) : Judged config w event w' := by
  refine ⟨fun hs hc => ?_, ?_⟩
  · have hsame : w'.breaker.state = w.breaker.state → False := fun he => by
      rw [he, hs] at hc
      cases hc
    cases step_move hstep with
    | tick elapsed => exact absurd rfl hsame
    | arrive => exact absurd rfl hsame
    | refuse hi hf => exact absurd rfl hsame
    | pass hi hs' => exact absurd rfl hsame
    | trigger hi hs' ht => cases hc
    | probe hi hs' hu => exact absurd rfl hsame
    | finish failed hi => exact absurd rfl hsame
    | failure hi =>
      simp only [BreakerInner.recordFailure, hs] at hc
      cases hc
    | @success i period hi =>
      have hprobe : w.isProbe period = true := hown _ hi hs
      refine ⟨rfl, ?_⟩
      show config.successThreshold ≤ w.tally.succeeded + (w.isProbe period).toNat
      rw [hprobe, ← h.own hs]
      exact recordSuccess_closes hs hc
    | drop hi hne => exact absurd rfl hsame
  · rintro i rfl phase hphase hprobe hopen
    have hnot : w.breaker.state ≠ .halfOpen := fun hs => by
      rw [hown phase hphase hs] at hprobe
      cases hprobe
    -- an open breaker ignores completions
    cases hs : w.breaker.state with
    | closed => exact absurd hs hopen
    | halfOpen => exact absurd hs hnot
    | opened openedAt =>
      cases step_move hstep with
      | failure hi => simp only [BreakerInner.recordFailure, hs]
      | success hi => simp only [BreakerInner.recordSuccess, hs]

/-- **The recovery is judged by its own probes.** In every run at most
`half_open_max_requests` requests besides the one that triggered it are admitted in a
half-open period. If, while the breaker is half open, only requests admitted in that
period complete, then it closes only after `success_threshold` of them have succeeded,
and no completion of another request closes or re-opens it. -/
theorem recovery_judged_by_own_probes (config : CircuitBreakerConfig)
    (tr : List (Event × World)) (hrun : Along (Step config) (.new config) tr) :
    (∀ w ∈ visited (.new config) tr, w.breaker.state = .halfOpen →
      w.tally.admitted ≤ config.halfOpenMaxRequests + 1) ∧
    (Along (fun w event _ => OwnProbes w event) (.new config) tr →
      Along (Judged config) (.new config) tr) := by
  constructor
  · intro w hw hs
    have h := Along.invariant (I := Accounted config) (fun _ _ _ => accounted_step)
      (accounted_new config) hrun w hw
    obtain ⟨hadm, hle⟩ := h.used hs
    rw [hadm, ← h.allowed]
    exact Nat.succ_le_succ hle
  · intro hown
    refine (hrun.and hown).of_invariant (I := OwnCount config) ?_
      ⟨accounted_new config, fun hs => (by cases hs)⟩
    exact fun w event w' h hq => ⟨ownCount_step h hq.1 hq.2, judged_step h hq.1 hq.2⟩

/-- Two probes close the breaker; a request from before it opened completes only then. -/
def slowStranger : List Event :=
  [.arrive, .act 0 .acquire, .arrive, .act 1 .acquire, .act 1 (.finish true), .act 1 .record,
    .tick 20, .arrive, .act 2 .acquire, .arrive, .act 3 .acquire, .act 3 (.finish false),
    .act 3 .record, .act 2 (.finish false), .act 2 .record, .act 0 (.finish false), .act 0 .record]

theorem recovery_judged_by_own_probes_slow_stranger :
    let config : CircuitBreakerConfig := ⟨1, 2, 20, 2⟩
    let tr := replay (exec config) (.new config) slowStranger
    tr.length = 17 ∧ (final (exec config) (.new config) slowStranger).breaker.state = .closed ∧
    Along (Judged config) (.new config) tr := by
  refine ⟨by decide, by decide, ?_⟩
  exact (recovery_judged_by_own_probes ⟨1, 2, 20, 2⟩ _ (along_replay _ _ _)).2 (by decide)

/-- A request admitted before the breaker opened completes while a probe is still in
flight, and closes the breaker. -/
def strangerCloses : List Event :=
  [.arrive, .act 0 .acquire, .arrive, .act 1 .acquire, .act 1 (.finish true), .act 1 .record,
    .tick 20, .arrive, .act 2 .acquire, .act 0 (.finish false), .act 0 .record]

theorem stranger_closes_breaker :
    let config : CircuitBreakerConfig := ⟨1, 1, 20, 1⟩
    let tr := replay (exec config) (.new config) strangerCloses
    Along (Step config) (.new config) tr ∧ ¬ Along (Judged config) (.new config) tr ∧
    (final (exec config) (.new config) strangerCloses).breaker.state = .closed ∧
    (final (exec config) (.new config) strangerCloses).tally = ⟨1, 1, 0, 0⟩ := by
  refine ⟨along_replay _ _ _, fun h => ?_, by decide, by decide⟩
  have hlast := h.2.2.2.2.2.2.2.2.2.2.1.closes (by decide) (by decide)
  exact absurd hlast.2 (by decide)

end JustApi.Core.Breaker
