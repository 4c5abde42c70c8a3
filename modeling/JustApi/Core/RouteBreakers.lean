import Mathlib.Logic.Function.Basic
import Mathlib.Data.List.Basic
import JustApi.Core.Breaker
import JustApi.Core.Http

/-! # Breakers by route

`PerRouteCircuitBreakerMiddleware`: a breaker for each path, in a map of bounded size.
A request is given its breaker when it arrives (`get_breaker`) and asks it afterwards;
both hold a lock from start to end and are one step each. A breaker that has left the map
lives on with the requests that were given it. -/
namespace JustApi.Core.RouteBreakers
open JustApi.Lib.Run JustApi.Core.Breaker JustApi.Core.Http

def maxPerRouteBreakers : Nat := 1024

def jsonTextResponse (status : Nat) (body : String) : Response :=
  let bytes := body.toUTF8.toList
  ⟨status, [("content-type", "application/json"), ("content-length", toString bytes.length)],
    [.ok (.data bytes)]⟩

def circuitOpenResponse : Response :=
  let resp := jsonTextResponse 503
    "\x7b\"detail\":\"service unavailable — circuit breaker open\"\x7d"
  { resp with headers := resp.headers ++ [("retry-after", "30")] }

/-- Where a request is in `handle`, with what `next.run(req).await` gave. -/
inductive Phase where
  | asking
  | handling
  | handled (outcome : Except String Response)
  | refused (resp : Response)
  /-- The request has its response from the handler, or was dropped. -/
  | gone

/-- A request holds the breaker it was given. -/
structure Request where
  path : String
  breaker : Nat
  phase : Phase

/-- Breakers are numbered as they are made. `opened` is not in the code: it is the time
when a breaker last opened while the map had it for the path. -/
structure World where
  heap : Nat → BreakerInner
  next : Nat
  breakers : List (String × Nat)
  requests : List Request
  now : Nat
  opened : String → Option Nat

def World.new (config : CircuitBreakerConfig) : World :=
  ⟨fun _ => .new config, 0, [], [], 0, fun _ => none⟩

inductive Action where
  | acquire
  | finish (outcome : Except String Response)
  | record
  | drop

/-- `first` is the key that an iteration over the map begins with. -/
inductive Event where
  | tick (elapsed : Nat)
  | arrive (path first : String)
  | act (request : Nat) (action : Action)

/-- Errors and server-error responses count as failures. -/
def isFailure : Except String Response → Bool
  | .ok resp => 500 ≤ resp.status ∧ resp.status < 600
  | .error _ => true

/-- The breaker opens between the two. -/
def opens (before after : BreakerInner) : Bool :=
  match before.state, after.state with
  | .opened _, _ => false
  | _, .opened _ => true
  | _, _ => false

namespace World

variable (config : CircuitBreakerConfig) (w : World)

/-- A new breaker for a path, in a map with room for it. -/
def insertBreaker (breakers : List (String × Nat)) (path : String) : World :=
  { w with
    heap := Function.update w.heap w.next (.new config)
    next := w.next + 1
    breakers := (path, w.next) :: breakers }

/-- The breaker that the map has for the path from here on, which is the one the request
is given. A map that is full first loses its first key. -/
def getBreaker (path first : String) : Except Disabled (World × Nat) :=
  match w.breakers.lookup path with
  | some breaker => .ok (w, breaker)
  | none =>
    if maxPerRouteBreakers ≤ w.breakers.length then
      if first ∈ w.breakers.map Prod.fst then
        .ok (w.insertBreaker config (w.breakers.filter fun entry => entry.1 ≠ first) path, w.next)
      else .error .disabled
    else .ok (w.insertBreaker config w.breakers path, w.next)

def setRequest (i : Nat) (request : Request) : World :=
  { w with requests := w.requests.set i request }

/-- The breaker after the outcome is recorded. -/
def judged (request : Request) (outcome : Except String Response) : BreakerInner :=
  if isFailure outcome then (w.heap request.breaker).recordFailure config w.now
  else (w.heap request.breaker).recordSuccess config

/-- The map has the request's breaker for its path, and it opens with this outcome. -/
def opensRoute (request : Request) (outcome : Except String Response) : Bool :=
  w.breakers.lookup request.path = some request.breaker ∧
    opens (w.heap request.breaker) (w.judged config request outcome)

end World

/-- The action of a request, in the phase it is in. -/
def advance (config : CircuitBreakerConfig) (w : World) (i : Nat) (request : Request) :
    Phase → Action → Except Disabled World
  | .asking, .acquire =>
    match (w.heap request.breaker).tryAcquire config w.now with
    | (true, breaker) =>
      .ok { w with
        heap := Function.update w.heap request.breaker breaker
        requests := w.requests.set i { request with phase := .handling } }
    | (false, breaker) =>
      .ok { w with
        heap := Function.update w.heap request.breaker breaker
        requests := w.requests.set i { request with phase := .refused circuitOpenResponse } }
  | .handling, .finish outcome => .ok (w.setRequest i { request with phase := .handled outcome })
  | .handled outcome, .record =>
    .ok { w with
      heap := Function.update w.heap request.breaker (w.judged config request outcome)
      requests := w.requests.set i { request with phase := .gone }
      opened :=
        if w.opensRoute config request outcome then
          Function.update w.opened request.path (some w.now)
        else w.opened }
  | .asking, .drop | .handling, .drop | .handled _, .drop =>
    .ok (w.setRequest i { request with phase := .gone })
  | _, _ => .error .disabled

def exec (config : CircuitBreakerConfig) (w : World) : Event → Except Disabled World
  | .tick elapsed => .ok { w with now := w.now + elapsed }
  | .arrive path first =>
    match w.getBreaker config path first with
    | .ok (w', breaker) => .ok { w' with requests := w'.requests ++ [⟨path, breaker, .asking⟩] }
    | .error e => .error e
  | .act i action =>
    match w.requests[i]? with
    | none => .error .disabled
    | some request => advance config w i request request.phase action

def Step (config : CircuitBreakerConfig) (w : World) (event : Event) (w' : World) : Prop :=
  exec config w event = .ok w'

end JustApi.Core.RouteBreakers
