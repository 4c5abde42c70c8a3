import JustApi.Inference.Autoscaling
import JustApi.Inference.ReplicaRouting

/-! # The multi-replica supervisor

The supervisor keeps the set of live replicas at the count the autoscaler wants, emits
intents to start and stop replicas, and pushes its view of them into its router. -/
namespace JustApi.Inference.Supervision
open JustApi.Inference.Autoscaling JustApi.Inference.ReplicaRouting

structure LiveReplica (F : Type) where
  id : String
  healthy : Bool
  activeSequences : Nat
  kvPressurePct : F
  deriving DecidableEq, Repr

inductive SupervisorAction where
  | startReplica (id model version : String)
  | stopReplica (id : String)
  deriving DecidableEq, Repr

structure SupervisorConfig (F : Type) where
  model : String
  version : String
  device : EngineDevice
  minReplicas : Nat
  maxReplicas : Nat
  maxConcurrencyPerReplica : Nat
  targetTtftMs : F
  targetKvPressurePct : F
  queueDepthScaleUp : Nat
  queueDepthScaleDown : Nat
  cooldownTicks : Nat
  deriving DecidableEq, Repr

structure Supervisor (F : Type) where
  config : SupervisorConfig F
  autoscaler : Autoscaler F
  router : Router F
  live : List (LiveReplica F)
  /-- How many replicas were started so far. -/
  nextIndex : Nat
  deriving DecidableEq, Repr

namespace Supervisor

variable {F : Type}

def new (config : SupervisorConfig F) : Supervisor F :=
  { config
    autoscaler := .new
      { minReplicas := config.minReplicas, maxReplicas := config.maxReplicas,
        targetTtftMs := config.targetTtftMs, targetKvPressurePct := config.targetKvPressurePct,
        queueDepthScaleUp := config.queueDepthScaleUp,
        queueDepthScaleDown := config.queueDepthScaleDown, cooldownTicks := config.cooldownTicks }
    router := .new .leastLoaded
    live := []
    nextIndex := 0 }

def desired (s : Supervisor F) : Nat := s.autoscaler.current

def liveCount (s : Supervisor F) : Nat := s.live.length

def healthyCount (s : Supervisor F) : Nat := s.live.countP LiveReplica.healthy

def liveIds (s : Supervisor F) : List String := s.live.map LiveReplica.id

/-! ## The router's copy -/

/-- What the router is told of a live replica. -/
def advertised (config : SupervisorConfig F) (lr : LiveReplica F) : Replica F :=
  { id := lr.id, model := config.model, version := config.version, device := config.device,
    maxConcurrency := config.maxConcurrencyPerReplica, activeSequences := lr.activeSequences,
    kvPressurePct := lr.kvPressurePct, healthy := lr.healthy, loadedAdapters := [] }

/-- Drop the replicas that are gone, then register the live ones. -/
def syncRouter (s : Supervisor F) : Supervisor F :=
  let dropped := s.router.replicas.foldl (fun router r =>
    if r.id ∈ s.liveIds then router else router.removeReplica r.id) s.router
  { s with router := s.live.foldl (fun router lr =>
      router.registerReplica (advertised s.config lr)) dropped }

/-! ## Reconciling -/

/-- `format!("{}-{}-{}", model, version, index)` -/
def replicaId (config : SupervisorConfig F) (index : Nat) : String :=
  config.model ++ "-" ++ config.version ++ "-" ++ toString index

section Reconcile

variable [OfScientific F]

/-- The loop that starts replicas. Each turn adds one to the live set, so `desired`
turns are enough. -/
def startReplicas (desired : Nat) : Nat → Supervisor F → List SupervisorAction × Supervisor F
  | 0, s => ([], s)
  | fuel + 1, s =>
    if s.live.length < desired ∧ s.live.length < s.config.maxReplicas then
      let id := replicaId s.config s.nextIndex
      let out := startReplicas desired fuel
        { s with nextIndex := s.nextIndex + 1, live := s.live ++ [⟨id, false, 0, 0.0⟩] }
      (.startReplica id s.config.model s.config.version :: out.1, out.2)
    else ([], s)

end Reconcile

/-- The replica to stop: the first unhealthy one, or else the last. -/
def stopIndex (live : List (LiveReplica F)) : Nat :=
  (live.findIdx? fun r => !r.healthy).getD (live.length - 1)

/-- The loop that stops replicas. Each turn takes one from the live set. -/
def stopReplicas (desired : Nat) : Nat → Supervisor F → List SupervisorAction × Supervisor F
  | 0, s => ([], s)
  | fuel + 1, s =>
    if desired < s.live.length then
      match s.live[stopIndex s.live]? with
      | none => ([], s)
      | some removed =>
        let out := stopReplicas desired fuel { s with live := s.live.eraseIdx (stopIndex s.live) }
        (.stopReplica removed.id :: out.1, out.2)
    else ([], s)

def reconcile [LE F] [DecidableLE F] [Mul F] [OfScientific F] (s : Supervisor F)
    (m : LlmMetrics F) : List SupervisorAction × Supervisor F :=
  let s := { s with autoscaler := (s.autoscaler.decide m).2 }
  let started := startReplicas s.desired s.desired s
  let stopped := stopReplicas s.desired started.2.live.length started.2
  (started.1 ++ stopped.1, stopped.2.syncRouter)

/-! ## What the executor reports -/

def onReplicaStarted (s : Supervisor F) (id : String) : Supervisor F :=
  { s with
    live := updateFirst (fun r => r.id == id) (fun r => { r with healthy := true }) s.live }.syncRouter

def onReplicaReport (s : Supervisor F) (id : String) (activeSequences : Nat) (kvPressurePct : F) :
    Supervisor F :=
  { s with
    live := updateFirst (fun r => r.id == id) (fun r => { r with activeSequences, kvPressurePct })
      s.live }.syncRouter

def onReplicaStopped (s : Supervisor F) (id : String) : Supervisor F :=
  { s with live := s.live.filter (fun r => r.id != id), router := s.router.removeReplica id }

end Supervisor

/-! ## Calls -/

/-- A call of the supervisor, or of `set_loaded_adapters` of its router. -/
inductive Op (F : Type) where
  | reconcile (metrics : LlmMetrics F)
  | onReplicaStarted (id : String)
  | onReplicaReport (id : String) (activeSequences : Nat) (kvPressurePct : F)
  | onReplicaStopped (id : String)
  | setLoadedAdapters (id : String) (adapters : List String)
  deriving DecidableEq, Repr

/-- The intents a call emits and the supervisor after it. -/
def exec {F : Type} [LE F] [DecidableLE F] [Mul F] [OfScientific F] (s : Supervisor F) :
    Op F → List SupervisorAction × Supervisor F
  | .reconcile m => s.reconcile m
  | .onReplicaStarted id => ([], s.onReplicaStarted id)
  | .onReplicaReport id active kv => ([], s.onReplicaReport id active kv)
  | .onReplicaStopped id => ([], s.onReplicaStopped id)
  | .setLoadedAdapters id adapters =>
    ([], { s with router := s.router.setLoadedAdapters id adapters })

end JustApi.Inference.Supervision
