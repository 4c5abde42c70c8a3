import JustApi.Lib.Run
import JustApi.Lib.Semaphores

/-! # The connections of a server

The accept loop starts a task for each connection, which waits for a permit and holds it for
as long as it serves. After the shutdown signal the loop waits for the tasks, and drops what
is left of them when the time is up. A step is what the loop or a task does between two
points where it waits. -/
namespace JustApi.Core.Connections
open JustApi.Lib.Run JustApi.Lib.Semaphores

/-- `maxConnectionsVar` is `JUSTAPI_MAX_CONNECTIONS`, as far as it is a number, and `graceful`
says whether there is a token for the shutdown. With TLS a connection is counted when it is
accepted, otherwise when it has its permit. -/
structure Config where
  maxConnectionsVar : Option Nat
  tls : Bool
  graceful : Bool
  deriving DecidableEq, Repr

def Config.maxConnections (config : Config) : Nat :=
  (config.maxConnectionsVar.filter (0 < ·)).getD 10000

theorem Config.maxConnections_pos (config : Config) : 0 < config.maxConnections := by
  unfold maxConnections
  cases h : config.maxConnectionsVar.filter (0 < ·) with
  | none => exact Nat.succ_pos _
  | some n => simpa using (Option.filter_eq_some_iff.mp h).2

inductive Phase where
  | spawned
  | waiting
  | serving (shuttingDown : Bool)
  | closed
  | aborted (counted : Bool)
  deriving DecidableEq, Repr

inductive Loop where
  | accepting
  | draining
  | returned
  deriving DecidableEq, Repr

/-- `activeConnections` is the gauge of the metrics, a counter of 64 bits. -/
structure World (config : Config) where
  loop : Loop
  cancelled : Bool
  semaphore : Semaphore config.maxConnections
  conns : List Phase
  activeConnections : UInt64
  deriving DecidableEq

inductive Event where
  | accept
  /-- `accept` fails, and with it the loop. -/
  | acceptError
  | cancel
  | stop
  | poll (i : Nat)
  | granted (i : Nat)
  | gracefulShutdown (i : Nat)
  | close (i : Nat)
  | joined
  | timeout
  | abort (i : Nat)
  deriving DecidableEq, Repr

/-- A connection that is counted in the gauge. -/
def Config.counts (config : Config) : Phase → Bool
  | .spawned | .waiting => config.tls
  | .serving _ => true
  | .closed => false
  | .aborted counted => counted

namespace Phase

def isOver : Phase → Bool
  | .closed | .aborted _ => true
  | .spawned | .waiting | .serving _ => false

def isServing : Phase → Bool
  | .serving _ => true
  | .spawned | .waiting | .closed | .aborted _ => false

end Phase

section Steps

variable {config : Config}

namespace World

def new : World config := ⟨.accepting, false, .new, [], 0⟩

def setPhase (w : World config) (i : Nat) (phase : Phase) : World config :=
  { w with conns := w.conns.set i phase }

/-- A task that has its permit. -/
def serve (w : World config) (i : Nat) : World config :=
  { w.setPhase i (.serving false) with
    activeConnections :=
      if config.tls then w.activeConnections else w.activeConnections + 1 }

end World

def exec (w : World config) : Event → Except Disabled (World config)
  | .accept =>
    if w.loop = .accepting then
      .ok { w with
        conns := w.conns ++ [.spawned]
        activeConnections :=
          if config.tls then w.activeConnections + 1 else w.activeConnections }
    else .error .disabled
  | .acceptError =>
    if w.loop = .accepting then .ok { w with loop := .returned } else .error .disabled
  | .cancel => if config.graceful then .ok { w with cancelled := true } else .error .disabled
  | .stop =>
    if w.loop = .accepting ∧ w.cancelled then .ok { w with loop := .draining }
    else .error .disabled
  | .poll i =>
    match w.conns[i]? with
    | some .spawned =>
      let semaphore := w.semaphore.acquire i
      if i ∈ semaphore.holders then .ok { w.serve i with semaphore }
      else .ok { w.setPhase i .waiting with semaphore }
    | _ => .error .disabled
  | .granted i =>
    match w.conns[i]? with
    | some .waiting => if i ∈ w.semaphore.holders then .ok (w.serve i) else .error .disabled
    | _ => .error .disabled
  | .gracefulShutdown i =>
    match w.conns[i]? with
    | some (.serving false) =>
      if w.cancelled then .ok (w.setPhase i (.serving true)) else .error .disabled
    | _ => .error .disabled
  | .close i =>
    match w.conns[i]? with
    | some (.serving _) => .ok { w.setPhase i .closed with
        semaphore := w.semaphore.leave i
        activeConnections := w.activeConnections - 1 }
    | _ => .error .disabled
  | .joined =>
    if w.loop = .draining ∧ ∀ c ∈ w.conns, c.isOver = true then .ok { w with loop := .returned }
    else .error .disabled
  | .timeout =>
    if w.loop = .draining then .ok { w with loop := .returned } else .error .disabled
  -- the set of tasks is dropped with the loop
  | .abort i =>
    match w.conns[i]? with
    | some phase =>
      if w.loop = .returned ∧ phase.isOver = false then
        .ok { w.setPhase i (.aborted (config.counts phase)) with
          semaphore := w.semaphore.leave i }
      else .error .disabled
    | none => .error .disabled

def Step (w : World config) (event : Event) (w' : World config) : Prop := exec w event = .ok w'

end Steps

end JustApi.Core.Connections
