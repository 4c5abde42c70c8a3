import JustApi.Lib.Run

/-! # The circuit breaker

`CircuitBreaker` and the requests that go through `CircuitBreakerMiddleware`. Each of
the breaker's operations holds its lock from start to end and is one step; between
them requests run, finish or are dropped in any order. -/
namespace JustApi.Core.Breaker
open JustApi.Lib.Run

/-- `open` comes with the time the breaker opened at. -/
inductive BreakerState where
  | closed
  | opened (openedAt : Nat)
  | halfOpen
  deriving DecidableEq, Repr

structure CircuitBreakerConfig where
  failureThreshold : Nat
  successThreshold : Nat
  openTimeout : Nat
  halfOpenMaxRequests : Nat
  deriving DecidableEq, Repr

/-- Times are in milliseconds. -/
def CircuitBreakerConfig.default : CircuitBreakerConfig := ⟨5, 3, 30000, 3⟩

structure BreakerInner where
  state : BreakerState
  failureCount : Nat
  successCount : Nat
  halfOpenAllowed : Nat
  halfOpenUsed : Nat
  deriving DecidableEq, Repr

namespace BreakerInner

variable (config : CircuitBreakerConfig)

def new : BreakerInner := ⟨.closed, 0, 0, config.halfOpenMaxRequests, 0⟩

/-- Whether a request may pass, at the time `now`. The one that finds the timeout over
starts the half-open period and takes none of its slots. -/
def tryAcquire (now : Nat) (b : BreakerInner) : Bool × BreakerInner :=
  match b.state with
  | .closed => (true, b)
  | .opened openedAt =>
    if config.openTimeout ≤ now - openedAt then
      (true, { b with state := .halfOpen, halfOpenUsed := 0, successCount := 0 })
    else (false, b)
  | .halfOpen =>
    if b.halfOpenUsed < b.halfOpenAllowed then
      (true, { b with halfOpenUsed := b.halfOpenUsed + 1 })
    else (false, b)

def recordSuccess (b : BreakerInner) : BreakerInner :=
  match b.state with
  | .halfOpen =>
    if config.successThreshold ≤ b.successCount + 1 then
      { b with state := .closed, failureCount := 0, successCount := 0 }
    else { b with successCount := b.successCount + 1 }
  | .closed => { b with failureCount := 0 }
  | .opened _ => b

def recordFailure (now : Nat) (b : BreakerInner) : BreakerInner :=
  match b.state with
  | .closed =>
    if config.failureThreshold ≤ b.failureCount + 1 then
      { b with state := .opened now, failureCount := 0 }
    else { b with failureCount := b.failureCount + 1 }
  | .halfOpen => { b with state := .opened now, failureCount := 0 }
  | .opened _ => b

end BreakerInner

/-! ## Requests -/

/-- Where a request is in `handle`. `period` is not in the code: it is the half-open
period in which the request was admitted, `none` when the breaker was closed. -/
inductive Phase where
  /-- before `try_acquire` has the lock -/
  | arrived
  /-- in `next.run(req).await` -/
  | handling (period : Option Nat)
  /-- before the outcome is recorded -/
  | handled (period : Option Nat) (failed : Bool)
  /-- The request has its response, or was dropped. -/
  | gone
  deriving DecidableEq, Repr

/-- The half-open period a request in flight was admitted in. -/
def Phase.admittedIn : Phase → Option Nat
  | .handling period | .handled period _ => period
  | .arrived | .gone => none

/-- What happened in the latest half-open period, by number. -/
structure Tally where
  period : Nat
  admitted : Nat
  succeeded : Nat
  dropped : Nat
  deriving DecidableEq, Repr

structure World where
  breaker : BreakerInner
  now : Nat
  requests : List Phase
  tally : Tally
  deriving DecidableEq, Repr

def World.new (config : CircuitBreakerConfig) : World := ⟨.new config, 0, [], ⟨0, 0, 0, 0⟩⟩

/-- What a request can do next, if its phase allows it. `finish` says whether the
handler failed, with an error or a server-error response. -/
inductive Action where
  | acquire
  | finish (failed : Bool)
  | record
  | drop
  deriving DecidableEq, Repr

inductive Event where
  | tick (elapsed : Nat)
  | arrive
  | act (request : Nat) (action : Action)
  deriving DecidableEq, Repr

namespace World

/-- The tally after an admission, and the period the request is admitted in. -/
def takeSlot (w : World) : Tally × Option Nat :=
  match w.breaker.state with
  | .closed => (w.tally, none)
  | .opened _ => (⟨w.tally.period + 1, 1, 0, 0⟩, some (w.tally.period + 1))
  | .halfOpen =>
    ({ w.tally with admitted := w.tally.admitted + 1 }, some w.tally.period)

/-- The request belongs to the latest half-open period. -/
def isProbe (w : World) (period : Option Nat) : Bool := period = some w.tally.period

end World

/-- The action of a request, in the phase it is in. -/
def advance (config : CircuitBreakerConfig) (w : World) (i : Nat) :
    Phase → Action → Except Disabled World
  | .arrived, .acquire =>
    match w.breaker.tryAcquire config w.now with
    | (true, breaker) =>
      .ok { w with
        breaker, tally := w.takeSlot.1, requests := w.requests.set i (.handling w.takeSlot.2) }
    | (false, breaker) => .ok { w with breaker, requests := w.requests.set i .gone }
  | .handling period, .finish failed =>
    .ok { w with requests := w.requests.set i (.handled period failed) }
  | .handled period failed, .record =>
    if failed then
      .ok { w with
        breaker := w.breaker.recordFailure config w.now, requests := w.requests.set i .gone }
    else
      .ok { w with
        breaker := w.breaker.recordSuccess config
        requests := w.requests.set i .gone
        tally := { w.tally with
          succeeded := w.tally.succeeded + (w.isProbe period).toNat } }
  | .gone, .drop => .error .disabled
  | phase, .drop =>
    .ok { w with
      requests := w.requests.set i .gone
      tally := { w.tally with dropped := w.tally.dropped + (w.isProbe phase.admittedIn).toNat } }
  | _, _ => .error .disabled

def exec (config : CircuitBreakerConfig) (w : World) : Event → Except Disabled World
  | .tick elapsed => .ok { w with now := w.now + elapsed }
  | .arrive => .ok { w with requests := w.requests ++ [.arrived] }
  | .act i action =>
    match w.requests[i]? with
    | none => .error .disabled
    | some phase => advance config w i phase action

def Step (config : CircuitBreakerConfig) (w : World) (event : Event) (w' : World) : Prop :=
  exec config w event = .ok w'

end JustApi.Core.Breaker
