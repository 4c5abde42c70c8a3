import Mathlib.Data.List.Basic
import JustApi.Core.Breaker

/-! # Half-open periods

What a half-open period of the circuit breaker comes to. Of the requests admitted in it
some are in flight, some have succeeded and some were dropped; the first failure ends
it. From these counts follow when the breaker can get stuck half open, and whose
successes close it. -/
namespace JustApi.Core.Breaker
open JustApi.Lib.Run

variable {config : CircuitBreakerConfig} {w w' : World} {event : Event}

/-! ## What a step can do -/

/-- The steps, each with its guard. -/
inductive Move (config : CircuitBreakerConfig) (w : World) : Event → World → Prop
  | tick (elapsed : Nat) : Move config w (.tick elapsed) { w with now := w.now + elapsed }
  | arrive : Move config w .arrive { w with requests := w.requests ++ [.arrived] }
  | refuse {i : Nat} : w.requests[i]? = some .arrived →
      (w.breaker.tryAcquire config w.now).1 = false →
      Move config w (.act i .acquire) { w with requests := w.requests.set i .gone }
  | pass {i : Nat} : w.requests[i]? = some .arrived → w.breaker.state = .closed →
      Move config w (.act i .acquire) { w with requests := w.requests.set i (.handling none) }
  | trigger {i openedAt : Nat} : w.requests[i]? = some .arrived →
      w.breaker.state = .opened openedAt → config.openTimeout ≤ w.now - openedAt →
      Move config w (.act i .acquire)
        { w with
          breaker := { w.breaker with state := .halfOpen, halfOpenUsed := 0, successCount := 0 }
          tally := ⟨w.tally.period + 1, 1, 0, 0⟩
          requests := w.requests.set i (.handling (some (w.tally.period + 1))) }
  | probe {i : Nat} : w.requests[i]? = some .arrived → w.breaker.state = .halfOpen →
      w.breaker.halfOpenUsed < w.breaker.halfOpenAllowed →
      Move config w (.act i .acquire)
        { w with
          breaker := { w.breaker with halfOpenUsed := w.breaker.halfOpenUsed + 1 }
          tally := { w.tally with admitted := w.tally.admitted + 1 }
          requests := w.requests.set i (.handling (some w.tally.period)) }
  | finish {i : Nat} {period : Option Nat} (failed : Bool) :
      w.requests[i]? = some (.handling period) →
      Move config w (.act i (.finish failed))
        { w with requests := w.requests.set i (.handled period failed) }
  | failure {i : Nat} {period : Option Nat} : w.requests[i]? = some (.handled period true) →
      Move config w (.act i .record)
        { w with
          breaker := w.breaker.recordFailure config w.now, requests := w.requests.set i .gone }
  | success {i : Nat} {period : Option Nat} : w.requests[i]? = some (.handled period false) →
      Move config w (.act i .record)
        { w with
          breaker := w.breaker.recordSuccess config
          requests := w.requests.set i .gone
          tally := { w.tally with
            succeeded := w.tally.succeeded + (w.isProbe period).toNat } }
  | drop {i : Nat} {phase : Phase} : w.requests[i]? = some phase → phase ≠ .gone →
      Move config w (.act i .drop)
        { w with
          requests := w.requests.set i .gone
          tally := { w.tally with
            dropped := w.tally.dropped + (w.isProbe phase.admittedIn).toNat } }

/-- `try_acquire` in each state of the breaker. -/
theorem move_acquire {i : Nat} (h : w.requests[i]? = some .arrived)
    (hx : advance config w i .arrived .acquire = .ok w') :
    Move config w (.act i .acquire) w' := by
  simp only [advance] at hx
  cases hs : w.breaker.state with
  | closed =>
    simp only [BreakerInner.tryAcquire, World.takeSlot, hs] at hx
    cases hx
    exact .pass h hs
  | opened openedAt =>
    by_cases ht : config.openTimeout ≤ w.now - openedAt
    · simp only [BreakerInner.tryAcquire, World.takeSlot, hs, if_pos ht] at hx
      cases hx
      exact .trigger h hs ht
    · have hf : w.breaker.tryAcquire config w.now = (false, w.breaker) := by
        simp only [BreakerInner.tryAcquire, hs, if_neg ht]
      rw [hf] at hx
      cases hx
      exact .refuse h (congrArg Prod.fst hf)
  | halfOpen =>
    by_cases hu : w.breaker.halfOpenUsed < w.breaker.halfOpenAllowed
    · simp only [BreakerInner.tryAcquire, World.takeSlot, hs, if_pos hu] at hx
      cases hx
      have hm : Move config w _ _ := .probe h hs hu
      simp only [hs] at hm
      exact hm
    · have hf : w.breaker.tryAcquire config w.now = (false, w.breaker) := by
        simp only [BreakerInner.tryAcquire, hs, if_neg hu]
      rw [hf] at hx
      cases hx
      exact .refuse h (congrArg Prod.fst hf)

theorem step_move (h : Step config w event w') : Move config w event w' := by
  cases event with
  | tick elapsed =>
    cases h
    exact .tick elapsed
  | arrive =>
    cases h
    exact .arrive
  | act i action =>
    simp only [Step, exec] at h
    split at h
    · cases h
    · rename_i phase hphase
      cases action with
      | acquire =>
        cases phase with
        | arrived => exact move_acquire hphase h
        | handling _ => cases h
        | handled _ _ => cases h
        | gone => cases h
      | finish failed =>
        cases phase with
        | handling period =>
          cases h
          exact .finish failed hphase
        | arrived => cases h
        | handled _ _ => cases h
        | gone => cases h
      | record =>
        cases phase with
        | handled period failed =>
          cases failed with
          | true =>
            cases h
            exact .failure hphase
          | false =>
            cases h
            exact .success hphase
        | arrived => cases h
        | handling _ => cases h
        | gone => cases h
      | drop =>
        cases phase with
        | gone => cases h
        | arrived =>
          cases h
          exact .drop hphase (by decide)
        | handling period =>
          cases h
          exact .drop hphase (by simp)
        | handled period failed =>
          cases h
          exact .drop hphase (by simp)

/-! ## Counting the requests of a period -/

/-- The requests in flight that were admitted in the latest half-open period. -/
def pending (w : World) : Nat := w.requests.countP fun phase => w.isProbe phase.admittedIn

/-- Counting after the phase of one request has changed. -/
theorem countP_set_of_getElem? {α : Type} {as : List α} {i : Nat} {a b : α} (p : α → Bool)
    (h : as[i]? = some a) : (as.set i b).countP p + (p a).toNat = as.countP p + (p b).toNat := by
  obtain ⟨hi, rfl⟩ := List.getElem?_eq_some_iff.mp h
  have hpos : (p as[i]).toNat ≤ as.countP p := by
    cases hp : p as[i] with
    | true => exact List.countP_pos_iff.mpr ⟨as[i], List.getElem_mem hi, hp⟩
    | false => exact Nat.zero_le _
  rw [List.countP_set hi]
  cases hp : p as[i] <;> cases p b <;> simp only [hp, Bool.toNat_true, Bool.toNat_false, if_true,
    Bool.false_eq_true, if_false] at hpos ⊢ <;> omega

/-- What the breaker's counters say about the latest half-open period while it lasts,
and the marks of the requests about the past. -/
structure Accounted (config : CircuitBreakerConfig) (w : World) : Prop where
  allowed : w.breaker.halfOpenAllowed = config.halfOpenMaxRequests
  past : ∀ phase ∈ w.requests, ∀ p, phase.admittedIn = some p → p ≤ w.tally.period
  used : w.breaker.state = .halfOpen → w.tally.admitted = w.breaker.halfOpenUsed + 1 ∧
    w.breaker.halfOpenUsed ≤ w.breaker.halfOpenAllowed
  tallied : w.breaker.state = .halfOpen →
    w.tally.admitted = w.tally.succeeded + w.tally.dropped + pending w
  successes : w.breaker.state = .halfOpen → w.tally.succeeded ≤ w.breaker.successCount

theorem accounted_new (config : CircuitBreakerConfig) : Accounted config (.new config) where
  allowed := rfl
  past _ h := by cases h
  used h := by cases h
  tallied h := by cases h
  successes h := by cases h

theorem recordFailure_allowed (now : Nat) (b : BreakerInner) :
    (b.recordFailure config now).halfOpenAllowed = b.halfOpenAllowed := by
  unfold BreakerInner.recordFailure
  cases b.state with
  | closed => dsimp only; split <;> rfl
  | opened _ => rfl
  | halfOpen => rfl

/-- A failure never leaves the breaker half open. -/
theorem recordFailure_state (now : Nat) (b : BreakerInner) :
    (b.recordFailure config now).state ≠ .halfOpen := by
  unfold BreakerInner.recordFailure
  cases hs : b.state with
  | closed => dsimp only; split <;> simp
  | opened _ => simp [hs]
  | halfOpen => simp

theorem recordSuccess_allowed (b : BreakerInner) :
    (b.recordSuccess config).halfOpenAllowed = b.halfOpenAllowed := by
  unfold BreakerInner.recordSuccess
  cases b.state with
  | closed => rfl
  | opened _ => rfl
  | halfOpen => dsimp only; split <;> rfl

/-- After a success that leaves the breaker half open it has counted one more, and the
threshold is not reached. -/
theorem recordSuccess_halfOpen {b : BreakerInner} (h : (b.recordSuccess config).state = .halfOpen) :
    b.state = .halfOpen ∧ b.successCount + 1 < config.successThreshold ∧
      b.recordSuccess config = { b with successCount := b.successCount + 1 } := by
  unfold BreakerInner.recordSuccess at h ⊢
  cases hs : b.state with
  | closed => simp [hs] at h
  | opened _ => simp [hs] at h
  | halfOpen =>
    simp only [hs] at h ⊢
    split
    · rename_i hle
      rw [if_pos hle] at h
      cases h
    · exact ⟨trivial, by omega, rfl⟩

/-- A request changes its phase, within the period. -/
theorem Accounted.replace {i : Nat} {phase phase' : Phase} {breaker : BreakerInner} {tally : Tally}
    (h : Accounted config w) (hi : w.requests[i]? = some phase)
    (hperiod : tally.period = w.tally.period)
    (hmark : ∀ p, phase'.admittedIn = some p → p ≤ w.tally.period)
    (hallowed : breaker.halfOpenAllowed = w.breaker.halfOpenAllowed)
    (hhalf : breaker.state = .halfOpen → w.breaker.state = .halfOpen ∧
      tally.admitted = breaker.halfOpenUsed + 1 ∧
      breaker.halfOpenUsed ≤ w.breaker.halfOpenAllowed ∧
      tally.succeeded ≤ breaker.successCount ∧
      tally.admitted + (w.isProbe phase.admittedIn).toNat + (w.tally.succeeded + w.tally.dropped) =
        w.tally.admitted + (w.isProbe phase'.admittedIn).toNat + (tally.succeeded + tally.dropped)) :
    Accounted config { w with breaker, tally, requests := w.requests.set i phase' } := by
  have hcount : pending { w with breaker, tally, requests := w.requests.set i phase' } +
      (w.isProbe phase.admittedIn).toNat = pending w + (w.isProbe phase'.admittedIn).toNat := by
    have := countP_set_of_getElem? (b := phase') (fun phase => w.isProbe phase.admittedIn) hi
    simpa only [pending, World.isProbe, hperiod] using this
  refine ⟨hallowed.trans h.allowed, ?_, fun hs => ?_, fun hs => ?_, fun hs => (hhalf hs).2.2.2.1⟩
  · intro q hq p hp
    show p ≤ tally.period
    rw [hperiod]
    rcases List.mem_or_eq_of_mem_set hq with hmem | rfl
    · exact h.past q hmem p hp
    · exact hmark p hp
  · obtain ⟨-, hadm, hle, -⟩ := hhalf hs
    exact ⟨hadm, hallowed ▸ hle⟩
  · obtain ⟨hw, -, -, -, hbal⟩ := hhalf hs
    have := h.tallied hw
    show tally.admitted = tally.succeeded + tally.dropped +
      pending { w with breaker, tally, requests := w.requests.set i phase' }
    omega

/-- A request opens a new period, whose number nobody carries yet. -/
theorem Accounted.trigger {i : Nat} (h : Accounted config w)
    (hi : w.requests[i]? = some .arrived) :
    Accounted config { w with
      breaker := { w.breaker with state := .halfOpen, halfOpenUsed := 0, successCount := 0 }
      tally := ⟨w.tally.period + 1, 1, 0, 0⟩
      requests := w.requests.set i (.handling (some (w.tally.period + 1))) } := by
  have hfresh : w.requests.countP
      (fun phase => phase.admittedIn = some (w.tally.period + 1)) = 0 := by
    refine List.countP_eq_zero.mpr fun phase hphase => ?_
    rw [decide_eq_true_eq]
    intro hp
    have := h.past phase hphase _ hp
    omega
  have hcount := countP_set_of_getElem? (b := .handling (some (w.tally.period + 1)))
    (fun phase => phase.admittedIn = some (w.tally.period + 1)) hi
  rw [hfresh] at hcount
  refine ⟨h.allowed, fun phase hphase p hp => ?_, fun _ => ⟨rfl, Nat.zero_le _⟩, fun _ => ?_,
    fun _ => Nat.le_refl _⟩
  · rcases List.mem_or_eq_of_mem_set hphase with hmem | rfl
    · exact Nat.le_succ_of_le (h.past phase hmem p hp)
    · cases hp
      exact Nat.le_refl _
  · show 1 = 0 + 0 + List.countP _ _
    simpa [Phase.admittedIn, World.isProbe] using hcount.symm

/-- Each step keeps the account. -/
theorem accounted_step (h : Accounted config w) (hstep : Step config w event w') :
    Accounted config w' := by
  have hmarked : ∀ {i : Nat} {phase : Phase}, w.requests[i]? = some phase →
      ∀ p, phase.admittedIn = some p → p ≤ w.tally.period :=
    fun hi => h.past _ (List.mem_of_getElem? hi)
  have hnone : ∀ p, Phase.gone.admittedIn = some p → p ≤ w.tally.period := by
    intro p hp
    cases hp
  cases step_move hstep with
  | tick elapsed => exact ⟨h.allowed, h.past, h.used, h.tallied, h.successes⟩
  | arrive =>
    refine ⟨h.allowed, fun phase hphase p hp => ?_, h.used, fun hs => ?_, h.successes⟩
    · rcases List.mem_append.mp hphase with hmem | hmem
      · exact h.past phase hmem p hp
      · rw [List.mem_singleton.mp hmem] at hp
        cases hp
    · have : pending { w with requests := w.requests ++ [.arrived] } = pending w := by
        simp [pending, World.isProbe, Phase.admittedIn, List.countP_append]
      rw [this]
      exact h.tallied hs
  | refuse hi hf =>
    refine h.replace hi rfl hnone rfl fun hs => ⟨hs, (h.used hs).1, (h.used hs).2, h.successes hs, ?_⟩
    rfl
  | pass hi hs =>
    refine h.replace hi rfl (fun p hp => by cases hp) rfl fun hs' => ?_
    rw [hs] at hs'
    cases hs'
  | trigger hi hs ht => exact h.trigger hi
  | probe hi hs hu =>
    obtain ⟨hadm, -⟩ := h.used hs
    refine h.replace hi rfl (fun p hp => by cases hp; exact Nat.le_refl _) rfl fun _ =>
      ⟨hs, by simp only [hadm], hu, h.successes hs, ?_⟩
    simp [World.isProbe, Phase.admittedIn]
  | finish failed hi =>
    refine h.replace hi rfl (fun p hp => hmarked hi p hp) rfl fun hs =>
      ⟨hs, (h.used hs).1, (h.used hs).2, h.successes hs, ?_⟩
    rfl
  | failure hi =>
    refine h.replace hi rfl hnone (recordFailure_allowed ..) fun hs => ?_
    exact absurd hs (recordFailure_state _ _)
  | @success i period hi =>
    refine h.replace hi rfl hnone (recordSuccess_allowed ..) fun hs => ?_
    obtain ⟨hw, -, hb⟩ := recordSuccess_halfOpen hs
    have hsucc := h.successes hw
    have hone := Bool.toNat_le (w.isProbe period)
    have hgone : w.isProbe Phase.gone.admittedIn = false := rfl
    have hmark : w.isProbe (Phase.handled period false).admittedIn = w.isProbe period := rfl
    rw [hb, hgone, hmark, Bool.toNat_false]
    exact ⟨hw, (h.used hw).1, (h.used hw).2, by dsimp only; omega, by dsimp only; omega⟩
  | drop hi hne =>
    have hgone : w.isProbe Phase.gone.admittedIn = false := rfl
    refine h.replace hi rfl hnone rfl fun hs =>
      ⟨hs, (h.used hs).1, (h.used hs).2, h.successes hs, ?_⟩
    rw [hgone, Bool.toNat_false]
    dsimp only
    omega

/-! ## Never stuck half open -/

/-- Half open, the breaker has a slot left. -/
def Unwedged (b : BreakerInner) : Prop := b.state = .halfOpen → b.halfOpenUsed < b.halfOpenAllowed

/-- No request is in flight. -/
def Quiet (w : World) : Prop := ∀ phase ∈ w.requests, phase = .gone

instance (w : World) : Decidable (Quiet w) :=
  inferInstanceAs (Decidable (∀ phase ∈ w.requests, phase = .gone))

/-- A request that arrives late enough is admitted exactly when the breaker is not
stuck. -/
theorem unwedged_iff_admits (config : CircuitBreakerConfig) (now : Nat) (b : BreakerInner) :
    Unwedged b ↔ ∃ wait, (b.tryAcquire config (now + wait)).1 = true := by
  unfold Unwedged BreakerInner.tryAcquire
  cases hs : b.state with
  | closed => simp
  | opened openedAt =>
    simp only [reduceCtorEq, false_implies, true_iff]
    refine ⟨config.openTimeout + openedAt, ?_⟩
    rw [if_pos (by omega)]
  | halfOpen =>
    simp only [forall_const]
    by_cases hu : b.halfOpenUsed < b.halfOpenAllowed
    · simp [hu]
    · simp [hu]

/-- Successes the half-open breaker has counted that are not those of its probes. -/
def strays (w : World) : Nat := w.breaker.successCount - w.tally.succeeded

/-- While the breaker is half open, the drop of one of its probes leaves enough of them
to close it, with the other successes it has counted. -/
def SparesProbes (config : CircuitBreakerConfig) (w : World) : Event → Prop
  | .act i .drop => ∀ phase ∈ w.requests[i]?, w.breaker.state = .halfOpen →
      w.isProbe phase.admittedIn = true →
      config.successThreshold + (w.tally.dropped + 1) ≤ config.halfOpenMaxRequests + 1 + strays w
  | _ => True

instance (config : CircuitBreakerConfig) (w : World) (event : Event) :
    Decidable (SparesProbes config w event) :=
  match event with
  | .act i .drop => inferInstanceAs (Decidable (∀ phase ∈ w.requests[i]?,
      w.breaker.state = .halfOpen → w.isProbe phase.admittedIn = true →
      config.successThreshold + (w.tally.dropped + 1) ≤ config.halfOpenMaxRequests + 1 + strays w))
  | .tick _ | .arrive | .act _ .acquire | .act _ (.finish _) | .act _ .record => .isTrue trivial

/-- Half open, the successes are below the threshold, and what was dropped is spared. -/
structure Recoverable (config : CircuitBreakerConfig) (w : World) : Prop where
  accounted : Accounted config w
  below : w.breaker.state = .halfOpen → w.breaker.successCount < config.successThreshold
  spared : w.breaker.state = .halfOpen →
    config.successThreshold + w.tally.dropped ≤ config.halfOpenMaxRequests + 1 + strays w

theorem recoverable_step (hpos : 0 < config.successThreshold)
    (hslots : config.successThreshold ≤ config.halfOpenMaxRequests + 1)
    (h : Recoverable config w) (hstep : Step config w event w')
    (hspare : SparesProbes config w event) : Recoverable config w' := by
  refine ⟨accounted_step h.accounted hstep, ?_, ?_⟩
  · cases step_move hstep with
    | tick elapsed => exact h.below
    | arrive => exact h.below
    | refuse hi hf => exact h.below
    | pass hi hs => exact h.below
    | trigger hi hs ht => exact fun _ => hpos
    | probe hi hs hu => exact fun _ => h.below hs
    | finish failed hi => exact h.below
    | failure hi => exact fun hs => absurd hs (recordFailure_state _ _)
    | success hi =>
      intro hs
      obtain ⟨-, hlt, hb⟩ := recordSuccess_halfOpen hs
      rw [hb]
      exact hlt
    | drop hi hne => exact h.below
  · cases step_move hstep with
    | tick elapsed => exact h.spared
    | arrive => exact h.spared
    | refuse hi hf => exact h.spared
    | pass hi hs => exact h.spared
    | trigger hi hs ht =>
      intro _
      exact hslots
    | probe hi hs hu => exact fun _ => h.spared hs
    | finish failed hi => exact h.spared
    | failure hi => exact fun hs => absurd hs (recordFailure_state _ _)
    | @success i period hi =>
      intro hs
      obtain ⟨hw, -, hb⟩ := recordSuccess_halfOpen hs
      have hold := h.spared hw
      have hsucc := h.accounted.successes hw
      have hone := Bool.toNat_le (w.isProbe period)
      simp only [strays, hb] at hold ⊢
      omega
    | @drop i phase hi hne =>
      intro hs
      have hold := h.spared hs
      have hnew := hspare phase hi hs
      show config.successThreshold + (w.tally.dropped + (w.isProbe phase.admittedIn).toNat) ≤ _
      cases hp : w.isProbe phase.admittedIn with
      | false => exact hold
      | true => exact hnew hp

theorem Recoverable.unwedged (h : Recoverable config w) (hquiet : Quiet w) :
    Unwedged w.breaker := by
  intro hs
  have hnone : pending w = 0 := by
    refine List.countP_eq_zero.mpr fun phase hphase => ?_
    rw [hquiet phase hphase]
    exact Bool.false_ne_true
  obtain ⟨hadm, -⟩ := h.accounted.used hs
  have htally := h.accounted.tallied hs
  have hsucc := h.accounted.successes hs
  have hbelow := h.below hs
  have hspared := h.spared hs
  simp only [strays] at hspared
  rw [h.accounted.allowed]
  omega

/-- **The breaker does not get stuck half open when its probes suffice.** If the
success threshold is at most the number of probes of a half-open period, then in every
run in which the drops of probes leave enough successes possible: in every state
without a request in flight the breaker is closed, open or half open with a slot left,
and so a request that arrives late enough is admitted. -/
theorem breaker_recovers (config : CircuitBreakerConfig) (hpos : 0 < config.successThreshold)
    (hslots : config.successThreshold ≤ config.halfOpenMaxRequests + 1)
    (tr : List (Event × World)) (hrun : Along (Step config) (.new config) tr)
    (hspare : Along (fun w event _ => SparesProbes config w event) (.new config) tr) :
    ∀ w ∈ visited (.new config) tr, Quiet w → Unwedged w.breaker ∧
      ∃ wait, (w.breaker.tryAcquire config (w.now + wait)).1 = true := by
  intro w hw hquiet
  have h := Along.invariant (I := Recoverable config)
    (fun _ _ _ h hq => recoverable_step hpos hslots h hq.1 hq.2)
    ⟨accounted_new config, fun hs => (by cases hs), fun hs => (by cases hs)⟩
    (hrun.and hspare) w hw
  have hun := h.unwedged hquiet
  exact ⟨hun, (unwedged_iff_admits config w.now w.breaker).mp hun⟩

/-- The breaker opens, and a client gives up during the first probe. The second one
succeeds and closes it. -/
def oneProbeDropped : List Event :=
  [.arrive, .act 0 .acquire, .act 0 (.finish true), .act 0 .record, .tick 20, .arrive,
    .act 1 .acquire, .act 1 .drop, .arrive, .act 2 .acquire, .act 2 (.finish false), .act 2 .record]

theorem breaker_recovers_one_dropped :
    let config : CircuitBreakerConfig := ⟨1, 1, 20, 1⟩
    let tr := replay (exec config) (.new config) oneProbeDropped
    tr.length = 12 ∧ (final (exec config) (.new config) oneProbeDropped).breaker.state = .closed ∧
    ∀ w ∈ visited (.new config) tr, Quiet w → Unwedged w.breaker ∧
      ∃ wait, (w.breaker.tryAcquire config (w.now + wait)).1 = true := by
  refine ⟨by decide, by decide, ?_⟩
  exact breaker_recovers ⟨1, 1, 20, 1⟩ (by decide) (by decide) _ (along_replay _ _ _) (by decide)

/-- The breaker opens, and clients give up during all probes of the half-open period.
No request is in flight, and none is ever admitted again. -/
def allProbesDropped : List Event :=
  [.arrive, .act 0 .acquire, .act 0 (.finish true), .act 0 .record, .tick 20, .arrive,
    .act 1 .acquire, .act 1 .drop, .arrive, .act 2 .acquire, .act 2 .drop]

theorem breaker_stuck_half_open :
    let config : CircuitBreakerConfig := ⟨1, 1, 20, 1⟩
    let tr := replay (exec config) (.new config) allProbesDropped
    Along (Step config) (.new config) tr ∧ ∃ w ∈ visited (.new config) tr, Quiet w ∧
      ¬ Unwedged w.breaker ∧ ∀ wait, (w.breaker.tryAcquire config (w.now + wait)).1 = false := by
  refine ⟨along_replay _ _ _, final (exec ⟨1, 1, 20, 1⟩) _ allProbesDropped,
    final_mem_visited _ _ _, by decide, ?_, fun wait => ?_⟩
  · exact fun h => absurd (h (by decide)) (by decide)
  · rfl

end JustApi.Core.Breaker
