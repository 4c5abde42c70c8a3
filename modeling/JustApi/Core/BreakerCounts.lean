import Mathlib.Data.List.Induction
import JustApi.Core.Breaker

/-! # What the breaker counts

Any interleaving of the three operations of a circuit breaker, logged with the state
before and after each. While the breaker is closed its counter is the number of
failures since the last success or since it was closed, so it opens at exactly the
failure that makes this number reach the threshold. -/
namespace JustApi.Core.BreakerCounts
open JustApi.Core.Breaker

/-- A breaker and the clock it reads. -/
structure Timed where
  breaker : BreakerInner
  now : Nat
  deriving DecidableEq, Repr

def Timed.new (config : CircuitBreakerConfig) : Timed := ⟨.new config, 0⟩

inductive Call where
  | tick (elapsed : Nat)
  | tryAcquire
  | recordSuccess
  | recordFailure
  deriving DecidableEq, Repr

def exec (config : CircuitBreakerConfig) (s : Timed) : Call → Timed
  | .tick elapsed => { s with now := s.now + elapsed }
  | .tryAcquire => { s with breaker := (s.breaker.tryAcquire config s.now).2 }
  | .recordSuccess => { s with breaker := s.breaker.recordSuccess config }
  | .recordFailure => { s with breaker := s.breaker.recordFailure config s.now }

/-- A call with the states around it. -/
structure Entry where
  before : Timed
  call : Call
  after : Timed
  deriving DecidableEq, Repr

def final (config : CircuitBreakerConfig) (calls : List Call) : Timed :=
  calls.foldl (exec config) (.new config)

/-- The log of a run, oldest call first. -/
def logFrom (config : CircuitBreakerConfig) : Timed → List Call → List Entry
  | _, [] => []
  | s, call :: rest => ⟨s, call, exec config s call⟩ :: logFrom config (exec config s call) rest

def log (config : CircuitBreakerConfig) (calls : List Call) : List Entry :=
  logFrom config (.new config) calls

def isOpen : BreakerState → Bool
  | .opened _ => true
  | .closed | .halfOpen => false

/-- The count begins anew: at a success, and when the breaker is closed. -/
def restarts (e : Entry) : Bool :=
  e.call = .recordSuccess || (e.before.breaker.state ≠ .closed && e.after.breaker.state = .closed)

/-- The `record_failure` calls since the last `record_success` or since the breaker
last entered Closed. -/
def failuresSince (entries : List Entry) : Nat :=
  (entries.reverse.takeWhile fun e => !restarts e).countP fun e => e.call = .recordFailure

/-- When the breaker was last opened. -/
def openedAt (entries : List Entry) : Option Nat :=
  (entries.reverse.find? fun e =>
    !isOpen e.before.breaker.state && isOpen e.after.breaker.state).map fun e => e.before.now

/-! ## The log as it grows -/

theorem logFrom_concat (config : CircuitBreakerConfig) (s : Timed) (calls : List Call)
    (call : Call) : logFrom config s (calls ++ [call]) = logFrom config s calls ++
      [⟨calls.foldl (exec config) s, call, exec config (calls.foldl (exec config) s) call⟩] := by
  induction calls generalizing s with
  | nil => rfl
  | cons c rest ih => simp [logFrom, ih]

theorem failuresSince_concat (entries : List Entry) (e : Entry) :
    failuresSince (entries ++ [e]) =
      if restarts e then 0
      else failuresSince entries + if e.call = .recordFailure then 1 else 0 := by
  cases h : restarts e <;> simp [failuresSince, h, List.countP_cons]

theorem openedAt_concat (entries : List Entry) (e : Entry) :
    openedAt (entries ++ [e]) =
      if !isOpen e.before.breaker.state && isOpen e.after.breaker.state then some e.before.now
      else openedAt entries := by
  cases h : !isOpen e.before.breaker.state && isOpen e.after.breaker.state <;>
    simp [openedAt, h]

/-! ## What each operation does -/

section Operations

variable (config : CircuitBreakerConfig) (now : Nat) (b : BreakerInner)

theorem tryAcquire_cases : (b.tryAcquire config now).2 = b ∨
    ((b.tryAcquire config now).2.state = .halfOpen ∧ b.state ≠ .closed) := by
  unfold BreakerInner.tryAcquire
  cases h : b.state with
  | closed => exact .inl rfl
  | opened t =>
    dsimp only
    split
    · exact .inr ⟨rfl, by simp⟩
    · exact .inl rfl
  | halfOpen =>
    dsimp only
    split
    · exact .inr ⟨rfl, by simp⟩
    · exact .inl rfl

/-- A success is ignored, resets the counter of a closed breaker, counts towards
closing, or closes. -/
theorem recordSuccess_cases : (isOpen b.state = true ∧ b.recordSuccess config = b) ∨
    (isOpen b.state = false ∧ (b.recordSuccess config).state = .closed ∧
      (b.recordSuccess config).failureCount = 0) ∨
    (b.state = .halfOpen ∧ (b.recordSuccess config).state = .halfOpen) := by
  unfold BreakerInner.recordSuccess
  cases h : b.state with
  | closed => exact .inr (.inl ⟨rfl, rfl, rfl⟩)
  | opened t => exact .inl ⟨rfl, rfl⟩
  | halfOpen =>
    dsimp only
    split
    · exact .inr (.inl ⟨rfl, rfl, rfl⟩)
    · exact .inr (.inr ⟨rfl, rfl⟩)

/-- A failure is ignored, counts towards opening, or opens. -/
theorem recordFailure_cases : (isOpen b.state = true ∧ b.recordFailure config now = b) ∨
    (b.state = .closed ∧ b.failureCount + 1 < config.failureThreshold ∧
      b.recordFailure config now = { b with failureCount := b.failureCount + 1 }) ∨
    (isOpen b.state = false ∧ (b.recordFailure config now).state = .opened now ∧
      (b.state = .closed → config.failureThreshold ≤ b.failureCount + 1)) := by
  unfold BreakerInner.recordFailure
  cases h : b.state with
  | closed =>
    dsimp only
    split
    · rename_i hle
      exact .inr (.inr ⟨rfl, rfl, fun _ => hle⟩)
    · exact .inr (.inl ⟨rfl, by omega, rfl⟩)
  | opened t => exact .inl ⟨rfl, rfl⟩
  | halfOpen => exact .inr (.inr ⟨rfl, rfl, by simp⟩)

end Operations

/-! ## The counter -/

/-- What the breaker's state says about the log. -/
structure Counted (config : CircuitBreakerConfig) (entries : List Entry) (s : Timed) : Prop where
  count : s.breaker.state = .closed → s.breaker.failureCount = failuresSince entries ∧
    s.breaker.failureCount < config.failureThreshold
  time : ∀ t, s.breaker.state = .opened t → openedAt entries = some t ∧ t ≤ s.now

variable {config : CircuitBreakerConfig} {entries : List Entry} {s : Timed}

theorem counted_new (h : 1 ≤ config.failureThreshold) : Counted config [] (.new config) where
  count _ := ⟨rfl, h⟩
  time _ ht := nomatch ht

/-- A call that leaves the breaker as it is. While it is closed, only ticks and
requests do. -/
theorem Counted.idle {now : Nat} (h : Counted config entries s) (call : Call)
    (hs : s.breaker.state = .closed → call ≠ .recordSuccess ∧ call ≠ .recordFailure)
    (hnow : s.now ≤ now) :
    Counted config (entries ++ [⟨s, call, ⟨s.breaker, now⟩⟩]) ⟨s.breaker, now⟩ where
  count hc := by
    obtain ⟨hns, hnf⟩ := hs hc
    have hr : restarts ⟨s, call, ⟨s.breaker, now⟩⟩ = false := by simp_all [restarts]
    simpa [failuresSince_concat, hr, hnf] using h.count hc
  time t ht := by
    obtain ⟨hat, hle⟩ := h.time t ht
    exact ⟨by simpa [openedAt_concat] using hat, Nat.le_trans hle hnow⟩

/-- A call that ends half open. -/
theorem counted_of_halfOpen {s' : Timed} (e : Entry) (h : s'.breaker.state = .halfOpen) :
    Counted config (entries ++ [e]) s' where
  count hc := by simp [h] at hc
  time t ht := by simp [h] at ht

theorem counted_tryAcquire (h : Counted config entries s) :
    Counted config (entries ++ [⟨s, .tryAcquire, exec config s .tryAcquire⟩])
      (exec config s .tryAcquire) := by
  rcases tryAcquire_cases config s.now s.breaker with hsame | ⟨hhalf, -⟩
  · have := h.idle .tryAcquire (by simp) (Nat.le_refl s.now)
    simpa only [exec, hsame] using this
  · exact counted_of_halfOpen _ hhalf

theorem counted_recordSuccess (hpos : 1 ≤ config.failureThreshold)
    (h : Counted config entries s) :
    Counted config (entries ++ [⟨s, .recordSuccess, exec config s .recordSuccess⟩])
      (exec config s .recordSuccess) := by
  rcases recordSuccess_cases config s.breaker with ⟨hopen, hsame⟩ | ⟨-, hclosed, hzero⟩ |
    ⟨-, hhalf⟩
  · have hne : s.breaker.state ≠ .closed := fun hc => by simp [hc, isOpen] at hopen
    have := h.idle .recordSuccess (fun hc => absurd hc hne) (Nat.le_refl s.now)
    simpa only [exec, hsame] using this
  · have hr : restarts ⟨s, .recordSuccess, exec config s .recordSuccess⟩ = true := by
      simp [restarts]
    refine ⟨fun _ => ?_, fun t ht => ?_⟩
    · rw [failuresSince_concat, if_pos hr]
      exact ⟨hzero, Nat.lt_of_le_of_lt (Nat.le_of_eq hzero) hpos⟩
    · simp only [exec, hclosed] at ht
      cases ht
  · exact counted_of_halfOpen _ hhalf

theorem counted_recordFailure (h : Counted config entries s) :
    Counted config (entries ++ [⟨s, .recordFailure, exec config s .recordFailure⟩])
      (exec config s .recordFailure) := by
  rcases recordFailure_cases config s.now s.breaker with ⟨hopen, hsame⟩ | ⟨hclosed, hlt, hcount⟩ |
    ⟨hnot, hopened, -⟩
  · have hne : s.breaker.state ≠ .closed := fun hc => by simp [hc, isOpen] at hopen
    have := h.idle .recordFailure (fun hc => absurd hc hne) (Nat.le_refl s.now)
    simpa only [exec, hsame] using this
  · have hr : restarts ⟨s, .recordFailure, exec config s .recordFailure⟩ = false := by
      simp [restarts, hclosed]
    refine ⟨fun _ => ?_, fun t ht => ?_⟩
    · rw [failuresSince_concat, hr]
      simp [exec, hcount, (h.count hclosed).1, (h.count hclosed).1 ▸ hlt]
    · simp [exec, hcount, hclosed] at ht
  · refine ⟨fun hc => ?_, fun t ht => ?_⟩
    · simp [exec, hopened] at hc
    · simp only [exec, hopened] at ht
      cases ht
      have hyes : isOpen (exec config s .recordFailure).breaker.state = true := by
        simp [exec, hopened, isOpen]
      exact ⟨by simp [openedAt_concat, hnot, hyes], Nat.le_refl _⟩

theorem counted_exec (hpos : 1 ≤ config.failureThreshold) (h : Counted config entries s)
    (call : Call) :
    Counted config (entries ++ [⟨s, call, exec config s call⟩]) (exec config s call) := by
  cases call with
  | tick elapsed => exact h.idle (.tick elapsed) (by simp) (Nat.le_add_right s.now elapsed)
  | tryAcquire => exact counted_tryAcquire h
  | recordSuccess => exact counted_recordSuccess hpos h
  | recordFailure => exact counted_recordFailure h

theorem counted_log (hpos : 1 ≤ config.failureThreshold) (calls : List Call) :
    Counted config (log config calls) (final config calls) := by
  induction calls using List.reverseRecOn with
  | nil => exact counted_new hpos
  | append_singleton calls call ih =>
    have := counted_exec hpos ih call
    simpa [log, logFrom_concat, final] using this

/-- Of all calls only a failure leads out of Closed, at the threshold. -/
theorem leaves_closed_iff (hs : s.breaker.state = .closed)
    (hlt : s.breaker.failureCount < config.failureThreshold) (call : Call) :
    (exec config s call).breaker.state ≠ .closed ↔
      call = .recordFailure ∧ s.breaker.failureCount + 1 = config.failureThreshold := by
  cases call with
  | tick elapsed => simp [exec, hs]
  | tryAcquire => simp [exec, BreakerInner.tryAcquire, hs]
  | recordSuccess => simp [exec, BreakerInner.recordSuccess, hs]
  | recordFailure =>
    rcases recordFailure_cases config s.now s.breaker with ⟨hopen, -⟩ | ⟨-, hless, hcount⟩ |
      ⟨-, hopened, hle⟩
    · simp [hs, isOpen] at hopen
    · simp [exec, hcount, hs]
      omega
    · have := hle hs
      simp [exec, hopened]
      omega

/-- **The breaker opens exactly on consecutive failures.** After any calls of a
breaker with a positive threshold: while it is closed, its counter is the number of
failures since the last success or since it was closed, and below the threshold; the
next call takes it out of Closed if and only if it is the failure that makes this
number reach the threshold. While it is open it admits nobody before the timeout,
counted from the call that opened it, is over; and a failure in the half-open state
opens it again. -/
theorem breaker_opens_on_consecutive_failures (config : CircuitBreakerConfig)
    (hpos : 1 ≤ config.failureThreshold) (calls : List Call) :
    let s := final config calls
    (s.breaker.state = .closed →
      s.breaker.failureCount = failuresSince (log config calls) ∧
      s.breaker.failureCount < config.failureThreshold ∧
      ∀ call, (exec config s call).breaker.state ≠ .closed ↔
        call = .recordFailure ∧
          failuresSince (log config calls) + 1 = config.failureThreshold) ∧
    (∀ t, s.breaker.state = .opened t → openedAt (log config calls) = some t ∧ t ≤ s.now ∧
      (s.now < t + config.openTimeout → s.breaker.tryAcquire config s.now = (false, s.breaker))) ∧
    (s.breaker.state = .halfOpen →
      (exec config s .recordFailure).breaker.state = .opened s.now) := by
  intro s
  have h := counted_log hpos calls
  refine ⟨fun hs => ?_, fun t ht => ?_, fun hs => ?_⟩
  · obtain ⟨hcount, hlt⟩ := h.count hs
    refine ⟨hcount, hlt, fun call => ?_⟩
    rw [← hcount]
    exact leaves_closed_iff hs hlt call
  · obtain ⟨hat, hle⟩ := h.time t ht
    refine ⟨hat, hle, fun hearly => ?_⟩
    have hnot : ¬ config.openTimeout ≤ s.now - t := by
      have : t ≤ s.now := hle
      omega
    simp [BreakerInner.tryAcquire, ht, hnot]
  · simp [exec, BreakerInner.recordFailure, hs]

/-- A success in between, two failures in a row, and a refused request. -/
theorem breaker_opens_on_consecutive_failures_twice :
    let config : CircuitBreakerConfig := ⟨2, 1, 20, 1⟩
    let calls : List Call := [.recordFailure, .recordSuccess, .recordFailure, .tick 5,
      .recordFailure, .tick 10]
    (final config calls).breaker.state = .opened 5 ∧
      (final config calls).breaker.tryAcquire config (final config calls).now =
        (false, (final config calls).breaker) := by
  intro config calls
  have hstate : (final config calls).breaker.state = .opened 5 := by decide
  obtain ⟨-, hopen, -⟩ := breaker_opens_on_consecutive_failures config (by decide) calls
  exact ⟨hstate, (hopen 5 hstate).2.2 (by decide)⟩

end JustApi.Core.BreakerCounts
