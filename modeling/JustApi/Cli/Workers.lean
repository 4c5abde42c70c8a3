import Mathlib.Data.Rat.Defs
import JustApi.Lib.Run

/-! # The prefork supervisor

`supervise` with the worker processes it spawns. A turn of its loop takes two steps, the
branch that `select!` takes and the check of the drain; processes end at any time between. -/
namespace JustApi.Cli.Workers

/-- Processes by the order in which they are spawned. -/
abbrev Pid := Nat

/-- `f64` by what the supervisor does with it. -/
class Load (L : Type) extends OfScientific L where
  le : L → L → Bool
  zero_le_low : le 0.0 0.3 = true
  not_high_le_zero : le 0.7 0.0 = false

instance : Load ℚ where
  le x y := x ≤ y
  zero_le_low := by decide +kernel
  not_high_le_zero := by decide +kernel

structure ScalingPolicy (L : Type) where
  minWorkers : Nat
  maxWorkers : Nat
  low : L
  high : L
  cooldown : Nat
  step : Nat

/-- A second, where time is in nanoseconds. -/
def second : Nat := 1000000000

def ScalingPolicy.default {L : Type} [Load L] : ScalingPolicy L := ⟨1, 4, 0.3, 0.7, 15 * second, 1⟩

def clamp (n low high : Nat) : Nat := if n < low then low else if high < n then high else n

def decideScale {L : Type} [Load L] (current : Nat) (load : L) (policy : ScalingPolicy L) : Nat :=
  let desired :=
    if Load.le policy.high load then current + policy.step
    else if Load.le load policy.low then current - policy.step
    else current
  clamp desired policy.minWorkers policy.maxWorkers

inductive Outcome where
  | ok
  | failed
  deriving DecidableEq

/-- Where `supervise` is. -/
inductive Phase where
  /-- So many workers are still to be spawned before the loop. -/
  | starting (remaining : Nat)
  /-- In `select!`, whose guard has found the token as here. -/
  | selecting (cancelled : Bool)
  | checking
  | returned (outcome : Outcome)
  deriving DecidableEq

def Phase.InLoop (p : Phase) : Prop := (∃ cancelled, p = .selecting cancelled) ∨ p = .checking

/-- A scaling action with the number of workers before it and the one that is wanted. -/
structure Scaling where
  time : Nat
  active : Nat
  desired : Nat
  deriving DecidableEq

structure Supervisor where
  /-- The processes that run. -/
  alive : List Pid
  nextPid : Pid
  pids : List (Option Pid)
  waits : List (Nat × Pid)
  stopping : List Nat
  drainDeadline : Option Nat
  lastScale : Nat
  /-- The shutdown token. -/
  cancelled : Bool
  /-- The scaling actions as they are logged, the last first. -/
  scalings : List Scaling
  now : Nat
  phase : Phase
  deriving DecidableEq

/-- What `supervise` is called with, besides the count. -/
structure Settings (L : Type) where
  policy : ScalingPolicy L
  drainTimeout : Nat

/-- A policy with its probe, or `NoProbe`. -/
def Settings.of {L : Type} [Load L] (policy : Option (ScalingPolicy L)) (drainTimeout : Nat) :
    Settings L := ⟨policy.getD .default, drainTimeout⟩

def Settings.scalingEnabled {L : Type} (settings : Settings L) : Bool :=
  settings.policy.minWorkers < settings.policy.maxWorkers

/-- What a turn of the loop does. -/
inductive Branch (L : Type) where
  /-- `join_next` has a worker's wait. It was waited for or there was an error, and a
  worker in its place could be spawned or not. -/
  | exited (wait : Nat) (waited respawned : Bool)
  /-- The wait itself is lost. -/
  | joinError (wait : Nat)
  | noChildren
  | shutdown
  /-- SIGTERM or SIGINT. -/
  | signal
  /-- A tick, with the load and the workers that could be spawned. -/
  | tick (load : L) (spawned : Nat → Bool)

inductive Event (L : Type) where
  /-- A process ends. -/
  | exits (pid : Pid)
  /-- The caller cancels the token. -/
  | cancel
  /-- A worker of the fixed start is spawned, or cannot be. -/
  | launch (spawned : Bool)
  /-- The handlers of signals are installed, or cannot be. -/
  | install (time : Nat) (installed : Bool)
  | select (time : Nat) (branch : Branch L)
  | check (time : Nat)

namespace Supervisor

/-- Before the first worker. -/
def start (count time : Nat) : Supervisor :=
  ⟨[], 0, [], [], [], none, 0, false, [], time,
    if 1 ≤ count then .starting count else .returned .failed⟩

/-- A worker is spawned for a slot. -/
def spawnInto (s : Supervisor) (slot : Nat) : Supervisor :=
  { s with
    alive := s.nextPid :: s.alive
    nextPid := s.nextPid + 1
    pids := s.pids.set slot (some s.nextPid)
    waits := s.waits ++ [(slot, s.nextPid)] }

def occupied (s : Supervisor) (slot : Nat) : Bool := s.pids[slot]?.join.isSome

/-- The slot has a worker that is not stopping. -/
def working (s : Supervisor) (slot : Nat) : Bool := s.occupied slot && slot ∉ s.stopping

def active (s : Supervisor) : Nat := (List.range s.pids.length).countP s.working

def nextFreeSlot (s : Supervisor) : Nat × Supervisor :=
  match s.pids.findIdx? Option.isNone with
  | some slot => (slot, s)
  | none => (s.pids.length, { s with pids := s.pids ++ [none] })

def scaleUp (spawned : Nat → Bool) : Nat → Supervisor → Supervisor
  | 0, s => s
  | toAdd + 1, s =>
    let (slot, s) := s.nextFreeSlot
    if spawned toAdd then scaleUp spawned toAdd (s.spawnInto slot) else s

/-- The workers to stop are sought in these slots. -/
def scaleDown : List Nat → Nat → Supervisor → Supervisor
  | [], _, s => s
  | slot :: slots, toRemove, s =>
    if toRemove = 0 then s
    else if s.working slot then
      scaleDown slots (toRemove - 1) { s with stopping := slot :: s.stopping }
    else scaleDown slots toRemove s

variable {L : Type} [Load L] (settings : Settings L)

/-- A tick whose load calls for another number of workers, the cooldown being over. -/
def scales (s : Supervisor) (load : L) : Bool :=
  decideScale s.active load settings.policy ≠ s.active ∧
    settings.policy.cooldown ≤ s.now - s.lastScale

def tick (s : Supervisor) (load : L) (spawned : Nat → Bool) : Supervisor :=
  let active := s.active
  let desired := decideScale active load settings.policy
  if s.scales settings load then
    let s := { s with lastScale := s.now, scalings := ⟨s.now, active, desired⟩ :: s.scalings }
    if active < desired then s.scaleUp spawned (min (desired - active) settings.policy.step)
    else s.scaleDown (List.range s.pids.length).reverse
      (min (active - desired) settings.policy.step)
  else s

/-- The branch for a worker whose wait is over. -/
def exited (s : Supervisor) (wait slot : Nat) (waited respawned : Bool) : Supervisor :=
  let s := { s with pids := s.pids.set slot none, waits := s.waits.eraseIdx wait }
  if slot ∈ s.stopping then
    -- not restarted, and on to the next turn
    { s with
      stopping := s.stopping.filter fun other => other ≠ slot
      phase := .selecting s.cancelled }
  else if waited && !s.cancelled then
    if respawned then { s.spawnInto slot with phase := .checking }
    else { s with phase := .returned .failed }
  else { s with phase := .checking }

/-- The first the branch for shutdown finds sets the deadline; SIGTERM is sent to all. -/
def shutdown (s : Supervisor) : Supervisor :=
  { s with
    drainDeadline := s.drainDeadline.or (some (s.now + settings.drainTimeout))
    phase := .checking }

def select (s : Supervisor) (cancelled : Bool) : Branch L → Option Supervisor
  | .exited wait waited respawned => do
    let (slot, pid) ← s.waits[wait]?
    if waited && pid ∈ s.alive then none else some (s.exited wait slot waited respawned)
  | .joinError wait =>
    if wait < s.waits.length then
      some { s with waits := s.waits.eraseIdx wait, phase := .checking }
    else none
  | .noChildren =>
    if s.waits = [] then
      some { s with phase := if s.cancelled then .returned .ok else .checking }
    else none
  | .shutdown => if s.cancelled then some (s.shutdown settings) else none
  | .signal => some { s with cancelled := true, phase := .checking }
  | .tick load spawned =>
    if settings.scalingEnabled && !cancelled then
      some { s.tick settings load spawned with phase := .checking }
    else none

/-- Every slot is empty or stopping. -/
def allExited (s : Supervisor) : Bool :=
  (List.range s.pids.length).all fun slot => !s.occupied slot || slot ∈ s.stopping

/-- The processes in the slots are killed and waited for. -/
def signalKill (s : Supervisor) : Supervisor :=
  { s with alive := s.alive.filter fun pid => some pid ∉ s.pids, waits := [] }

def check (s : Supervisor) : Supervisor :=
  match s.drainDeadline with
  | none => { s with phase := .selecting s.cancelled }
  | some deadline =>
    if s.allExited then { s with phase := .returned .ok }
    else if deadline ≤ s.now then { s.signalKill with phase := .returned .ok }
    else { s with phase := .selecting s.cancelled }

/-- The slots of the start are numbered from 0. -/
def launch (s : Supervisor) (remaining : Nat) (spawned : Bool) : Supervisor :=
  if spawned then
    { { s with pids := s.pids ++ [none] }.spawnInto s.pids.length with
      phase := .starting remaining }
  else { s with phase := .returned .failed }

def install (s : Supervisor) (installed : Bool) : Supervisor :=
  if installed then
    { s with
      -- `checked_sub`
      lastScale :=
        if settings.policy.cooldown ≤ s.now then s.now - settings.policy.cooldown else s.now
      phase := .selecting s.cancelled }
  else { s with phase := .returned .failed }

def atTime (s : Supervisor) (time : Nat) : Option Supervisor :=
  if s.now ≤ time then some { s with now := time } else none

def step (s : Supervisor) : Event L → Option Supervisor
  | .exits pid =>
    if pid ∈ s.alive then some { s with alive := s.alive.filter fun other => other ≠ pid } else none
  | .cancel => some { s with cancelled := true }
  | .launch spawned =>
    match s.phase with
    | .starting (remaining + 1) => some (s.launch remaining spawned)
    | _ => none
  | .install time installed =>
    if s.phase = .starting 0 then (s.atTime time).map fun s => s.install settings installed
    else none
  | .select time branch =>
    match s.phase with
    | .selecting cancelled => (s.atTime time).bind fun s => s.select settings cancelled branch
    | _ => none
  | .check time =>
    if s.phase = .checking then (s.atTime time).map check else none

def Step (s : Supervisor) (e : Event L) (t : Supervisor) : Prop := s.step settings e = some t

instance (s : Supervisor) (e : Event L) (t : Supervisor) : Decidable (s.Step settings e t) :=
  inferInstanceAs (Decidable (s.step settings e = some t))

/-- A step as runs are computed from. -/
def exec (s : Supervisor) (e : Event L) : Except Lib.Run.Disabled Supervisor :=
  (s.step settings e).elim (.error .disabled) .ok

end Supervisor

end JustApi.Cli.Workers
