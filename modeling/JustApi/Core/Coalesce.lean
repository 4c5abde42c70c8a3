import Mathlib.Data.List.AList
import JustApi.Lib.Run
import JustApi.Core.Http

/-! # Request coalescing

`RequestCoalescer` as a system of concurrent requests. A request goes through the
phases of `handle`, `wait_for_leader` and `run_leader`; a step is what one thread does
between two points where another can come in. The critical sections on `in_flight`
await nothing and are single steps. A request future can be dropped where it awaits. -/
namespace JustApi.Core.Coalesce
open JustApi.Lib.Run JustApi.Core.Http
open Function (update update_self update_of_ne)

/-- A buffered snapshot of a successful response. -/
structure CoalescedResponse where
  status : Nat
  headers : Headers
  body : Bytes
  deriving DecidableEq, Repr

/-- The framing headers are recomputed for the replayed body, which is one frame, or
none when there is nothing in it. -/
def CoalescedResponse.toResponse (c : CoalescedResponse) : Response where
  status := c.status
  headers := c.headers.filter fun h => h.1 ≠ "transfer-encoding" ∧ h.1 ≠ "connection"
  body := if c.body = [] then [] else [.ok (.data c.body)]

inductive Outcome where
  | pending
  | ok (response : CoalescedResponse)
  | err (message : String)
  deriving DecidableEq, Repr

structure CoalesceKey where
  method : Method
  uri : String
  headers : Headers
  deriving DecidableEq, Repr

/-- The headers of the key are those of `includeHeaders` that the request has, each
with its first value. -/
def keyOf (includeHeaders : List String) (req : Request) : CoalesceKey :=
  ⟨req.method, req.uri,
    includeHeaders.filterMap fun name => (req.headers.lookup name).map fun value => (name, value)⟩

/-- A watch channel. `origin` is not in the code: it records the response that the
leader of the channel got from the handler. -/
structure Channel where
  value : Outcome
  version : Nat
  origin : Option Response
  deriving DecidableEq, Repr

def Channel.new : Channel := ⟨.pending, 0, none⟩

/-! ## The fan-out body -/

structure FanoutBody where
  inner : ResponseBody
  status : Nat
  headers : Headers
  acc : Bytes
  finished : Bool
  deriving DecidableEq, Repr

namespace FanoutBody

def of (r : Response) : FanoutBody := ⟨r.body, r.status, r.headers, [], false⟩

/-- The snapshot of what has been read so far. -/
def snapshot (b : FanoutBody) : Outcome := .ok ⟨b.status, b.headers, b.acc⟩

/-- The body after a poll, and what the poll publishes. -/
def pollFrame (b : FanoutBody) : FanoutBody × Option Outcome :=
  match b.inner with
  | .ok frame :: rest => ({ b with inner := rest, acc := b.acc ++ frame.bytes }, none)
  | .error _ :: rest => ({ b with inner := rest }, none)
  | [] =>
    if b.finished then (b, none)
    else ({ b with acc := [], finished := true }, some b.snapshot)

/-- What dropping the body publishes. -/
def dropped (b : FanoutBody) : Option Outcome := if b.finished then none else some b.snapshot

end FanoutBody

/-! ## Requests -/

/-- Where a request is. `ch` is the channel whose sender it holds. -/
inductive Phase where
  /-- `handle`, before it has the lock -/
  | arrived
  /-- `handle`, with the sender of another request -/
  | found (ch : Nat)
  /-- `wait_for_leader`, about to look at the channel -/
  | subscribed (ch seen : Nat)
  /-- `wait_for_leader`, in `changed().await` -/
  | parked (ch seen : Nat)
  /-- `run_leader`, in `next.run(req).await` -/
  | running (ch : Nat)
  /-- `run_leader`, in `lock().await` -/
  | queued (ch : Nat) (result : Except String Response)
  /-- `run_leader`, the key removed -/
  | removed (ch : Nat) (result : Except String Response)
  /-- The response is with the client. -/
  | streaming (ch : Nat) (body : FanoutBody)
  /-- `wait_for_leader` has returned a response. -/
  | answered (ch : Nat) (response : Response)
  /-- The request has returned an error. -/
  | failed (message : String)
  /-- Dropped, the future or the body of the response. -/
  | gone
  deriving DecidableEq, Repr

structure Task where
  req : Request
  phase : Phase
  deriving DecidableEq, Repr

/-- What a request can do next, if its phase allows it. -/
inductive Action where
  | claim
  | subscribe
  | look
  | changed
  | closed
  /-- `contended`: the lock is not to be had at once. -/
  | handlerReturns (result : Except String Response) (contended : Bool)
  | remove
  | finish
  | pollBody
  | dropBody
  | drop
  deriving DecidableEq, Repr

inductive Event where
  | arrive (req : Request)
  | act (request : Nat) (action : Action)
  deriving DecidableEq, Repr

namespace Phase

/-- The channel a request still has to publish on. -/
def publishes : Phase → Option Nat
  | .running ch | .queued ch _ | .removed ch _ => some ch
  | .streaming ch body => if body.finished then none else some ch
  | _ => none

/-- The channel a request waits for. -/
def waits : Phase → Option Nat
  | .found ch | .subscribed ch _ | .parked ch _ => some ch
  | _ => none

/-- The channel a request has a receiver of. -/
def receives : Phase → Option Nat
  | .subscribed ch _ | .parked ch _ => some ch
  | _ => none

/-- The channel a request has a sender of. -/
def holds : Phase → Option Nat
  | .streaming ch _ => some ch
  | phase => phase.publishes <|> phase.waits

/-- What an action publishes. -/
def published : Phase → Action → Option (Nat × Outcome)
  | .removed ch (.error message), .finish => some (ch, .err message)
  | .streaming ch body, .pollBody => body.pollFrame.2.map fun o => (ch, o)
  | .streaming ch body, .dropBody => body.dropped.map fun o => (ch, o)
  | _, _ => none

end Phase

/-! ## The coalescer -/

/-- The coalescer, the channels allocated up to `next` and the requests. -/
structure State where
  inFlight : AList fun _ : CoalesceKey => Nat
  channels : Nat → Channel
  next : Nat
  tasks : List Task

namespace State

def empty : State := ⟨∅, fun _ => .new, 0, []⟩

def arrive (s : State) (req : Request) : State :=
  { s with tasks := s.tasks ++ [⟨req, .arrived⟩] }

/-- A request in a new phase. -/
def become (s : State) (i : Nat) (req : Request) (phase : Phase) : State :=
  { s with tasks := s.tasks.set i ⟨req, phase⟩ }

def heardOn (s : State) (ch : Nat) : Bool := s.tasks.any fun t => t.phase.receives = some ch

/-- A value that nobody has a receiver for is not kept. -/
def send (s : State) (ch : Nat) (outcome : Outcome) : State :=
  if s.heardOn ch then
    let c := s.channels ch
    { s with
      channels := update s.channels ch { c with value := outcome, version := c.version + 1 } }
  else s

/-- Send, if there is something to send. -/
def publish (s : State) (ch : Nat) : Option Outcome → State
  | some outcome => s.send ch outcome
  | none => s

/-- Whether a sender of the channel is left. -/
def senderAlive (s : State) (ch : Nat) : Bool :=
  (s.inFlight.entries.any fun e => e.2 = ch) || s.tasks.any fun t => t.phase.holds = some ch

/-- A new channel, at the address `next`. -/
def openChannel (s : State) (key : CoalesceKey) : State :=
  { s with
    inFlight := s.inFlight.insert key s.next
    channels := update s.channels s.next .new
    next := s.next + 1 }

/-- Note the response a leader got. -/
def record (s : State) (ch : Nat) (r : Response) : State :=
  let c := s.channels ch
  { s with channels := update s.channels ch { c with origin := some r } }

end State

section Steps

variable (includeHeaders : List String)

/-- The action of a request, in the phase it is in. -/
def advance (s : State) (i : Nat) (req : Request) : Phase → Action → Except Disabled State
  | .arrived, .claim =>
    let key := keyOf includeHeaders req
    match s.inFlight.lookup key with
    | some existing => .ok (s.become i req (.found existing))
    | none => .ok ((s.openChannel key).become i req (.running s.next))
  | .found ch, .subscribe => .ok (s.become i req (.subscribed ch (s.channels ch).version))
  | .subscribed ch seen, .look =>
    match (s.channels ch).value with
    | .ok coalesced => .ok (s.become i req (.answered ch coalesced.toResponse))
    | .err message => .ok (s.become i req (.failed message))
    | .pending => .ok (s.become i req (.parked ch seen))
  | .parked ch seen, .changed =>
    if (s.channels ch).version = seen then .error .disabled
    else .ok (s.become i req (.subscribed ch (s.channels ch).version))
  | .parked ch _, .closed =>
    if s.senderAlive ch then .error .disabled else .ok (s.become i req (.running ch))
  | .running ch, .handlerReturns result contended =>
    if contended then .ok (s.become i req (.queued ch result))
    else .ok ({ s with inFlight := s.inFlight.erase (keyOf includeHeaders req) }.become i req
      (.removed ch result))
  | .queued ch result, .remove =>
    .ok ({ s with inFlight := s.inFlight.erase (keyOf includeHeaders req) }.become i req
      (.removed ch result))
  | .removed ch (.error message), .finish =>
    .ok ((s.send ch (.err message)).become i req (.failed message))
  | .removed ch (.ok response), .finish =>
    .ok ((s.record ch response).become i req (.streaming ch (.of response)))
  | .streaming ch body, .pollBody =>
    .ok ((s.publish ch body.pollFrame.2).become i req (.streaming ch body.pollFrame.1))
  | .streaming ch body, .dropBody => .ok ((s.publish ch body.dropped).become i req .gone)
  | .arrived, .drop => .ok (s.become i req .gone)
  | .parked _ _, .drop => .ok (s.become i req .gone)
  | .running _, .drop => .ok (s.become i req .gone)
  | .queued _ _, .drop => .ok (s.become i req .gone)
  | _, _ => .error .disabled

def exec (s : State) : Event → Except Disabled State
  | .arrive req => .ok (s.arrive req)
  | .act i action => do
    let some t := s.tasks[i]? | .error .disabled
    advance includeHeaders s i t.req t.phase action

end Steps

end JustApi.Core.Coalesce
