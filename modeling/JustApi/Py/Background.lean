import JustApi.Lib.Run

/-! # Background tasks

The runner of background tasks with the threads that call it. A step is one atomic access
of a thread to what they share: the queue under its lock, or a counter. -/
namespace JustApi.Py.Background

/-- Where a call of `enqueue` is. -/
inductive EnqueuePhase where
  | started
  /-- The queue was found full. -/
  | refused
  /-- The queue was found to have room. -/
  | admitted
  /-- In `push`, with the lock: the task is in the queue but not in its size. -/
  | pushing
  | pushed
  /-- The task is counted as submitted but not as active. -/
  | submitted
  | finished
  deriving DecidableEq

/-- Where a worker is. -/
inductive WorkerPhase where
  /-- In `pop`, before it has the lock or where it waits. -/
  | idle
  /-- In `pop`, with the lock: the task is out of the queue but still in its size. -/
  | popping
  | running
  /-- The callable has returned a coroutine. -/
  | awaiting
  /-- The task is counted as completed or failed, and still as active. -/
  | counted
  | exited
  deriving DecidableEq

/-- What running a callable comes to. -/
inductive CallResult where
  | value
  | coroutine
  | error
  deriving DecidableEq

structure Runner where
  maxTotal : Nat
  /-- The tasks, by the calls that have enqueued them. -/
  queue : List Nat
  size : Nat
  locked : Bool
  shutdown : Bool
  submitted : Nat
  /-- The counter is this number modulo the size of a word. -/
  active : Int
  completed : Nat
  failed : Nat
  dropped : Nat
  asyncs : Nat
  calls : List EnqueuePhase
  workers : List WorkerPhase
  /-- How many tasks were submitted when the first `shutdown` that waits returned. -/
  returned : Option Nat
  deriving DecidableEq

inductive Event where
  /-- `enqueue` is called. -/
  | call
  | enqueue (call : Nat)
  /-- The next step of a worker, with the result if it runs a task. -/
  | work (worker : Nat) (result : CallResult)
  /-- `shutdown` sets its flag. -/
  | shutdown
  /-- `shutdown(wait=True)` has joined the workers. -/
  | joined
  deriving DecidableEq

/-- How many workers there are for so much parallelism. -/
def poolSize (gilEnabled : Bool) (n : Nat) : Nat :=
  if gilEnabled then min (n + 4) 32 else min (n * 2) 256

namespace Runner

def new (maxTotal workers : Nat) : Runner where
  maxTotal
  queue := []
  size := 0
  locked := false
  shutdown := false
  submitted := 0
  active := 0
  completed := 0
  failed := 0
  dropped := 0
  asyncs := 0
  calls := []
  workers := List.replicate workers .idle
  returned := none

def setCall (r : Runner) (call : Nat) (phase : EnqueuePhase) : Runner :=
  { r with calls := r.calls.set call phase }

def setWorker (r : Runner) (worker : Nat) (phase : WorkerPhase) : Runner :=
  { r with workers := r.workers.set worker phase }

/-- The next step of `enqueue`. -/
def enqueue (r : Runner) (call : Nat) : EnqueuePhase → Option Runner
  | .started => some (r.setCall call (if r.maxTotal ≤ r.size then .refused else .admitted))
  | .refused => some { r.setCall call .finished with dropped := r.dropped + 1 }
  | .admitted =>
    if r.locked then none
    else some { r.setCall call .pushing with queue := r.queue ++ [call], locked := true }
  | .pushing => some { r.setCall call .pushed with size := r.size + 1, locked := false }
  | .pushed => some { r.setCall call .submitted with submitted := r.submitted + 1 }
  | .submitted => some { r.setCall call .finished with active := r.active + 1 }
  | .finished => none

/-- The next step of `pop` or of `process`. -/
def work (r : Runner) (worker : Nat) (result : CallResult) : WorkerPhase → Option Runner
  | .idle =>
    if r.locked then none
    else match r.queue with
      | _ :: queue => some { r.setWorker worker .popping with queue, locked := true }
      | [] => if r.shutdown then some (r.setWorker worker .exited) else none
  | .popping => some { r.setWorker worker .running with size := r.size - 1, locked := false }
  | .running =>
    match result with
    | .coroutine => some { r.setWorker worker .awaiting with asyncs := r.asyncs + 1 }
    | .value => some { r.setWorker worker .counted with completed := r.completed + 1 }
    | .error => some { r.setWorker worker .counted with failed := r.failed + 1 }
  | .awaiting =>
    match result with
    | .error => some { r.setWorker worker .counted with failed := r.failed + 1 }
    | .value | .coroutine => some { r.setWorker worker .counted with completed := r.completed + 1 }
  | .counted => some { r.setWorker worker .idle with active := r.active - 1 }
  | .exited => none

def step (r : Runner) : Event → Option Runner
  | .call => some { r with calls := r.calls ++ [.started] }
  | .enqueue call => r.calls[call]?.bind (r.enqueue call)
  | .work worker result => r.workers[worker]?.bind (r.work worker result)
  | .shutdown => some { r with shutdown := true }
  | .joined =>
    if r.shutdown ∧ ∀ phase ∈ r.workers, phase = .exited then
      some { r with returned := r.returned.or (some r.submitted) }
    else none

def Step (r : Runner) (e : Event) (u : Runner) : Prop := r.step e = some u

instance (r : Runner) (e : Event) (u : Runner) : Decidable (r.Step e u) :=
  inferInstanceAs (Decidable (r.step e = some u))

/-- A step as runs are computed from. -/
def exec (r : Runner) (e : Event) : Except Lib.Run.Disabled Runner :=
  (r.step e).elim (.error .disabled) .ok

end Runner

end JustApi.Py.Background
