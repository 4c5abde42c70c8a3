import Mathlib.Algebra.Group.Nat.Defs
import JustApi.Lib.Run
import JustApi.Lib.Channels

/-! # The threads that run Python

`run_python` sends a job to the bounded channel of one worker and waits for the answer on
a channel of its own. The pool belongs to one process: a child of a fork inherits its
memory without its threads. A step is what one task or thread does between two points
where it can wait. -/
namespace JustApi.Py.GilPool
open JustApi.Lib.Run JustApi.Lib.Channels

inductive RuntimeMode where
  | gilBased
  | gilFree
  deriving DecidableEq, Repr

/-- What decides the size of a pool: `JUSTAPI_GIL_WORKERS`, as far as it is a number, the
mode of the interpreter and the hardware. -/
structure Setup where
  gilWorkers : Option Nat
  mode : RuntimeMode
  availableParallelism : Option Nat
  deriving DecidableEq, Repr

def defaultPoolSize (setup : Setup) : Nat :=
  match setup.gilWorkers.filter (0 < ·) with
  | some n => n
  | none =>
    match setup.mode with
    | .gilFree => max (setup.availableParallelism.getD 4) 2
    | .gilBased => 1

theorem defaultPoolSize_pos (setup : Setup) : 0 < defaultPoolSize setup := by
  unfold defaultPoolSize
  split
  · rename_i n h
    simpa using (Option.filter_eq_some_iff.mp h).2
  · split <;> omega

def channelCapPerWorker : Nat := 16

/-- A thread with its channel. A job is named by the call that it answers. -/
structure Worker where
  channel : Channel Nat
  running : Option Nat
  deriving DecidableEq

/-- `home` is the process whose threads the workers are. -/
structure Pool where
  workers : List Worker
  next : Nat
  home : Nat
  deriving DecidableEq

def Pool.capacity (p : Pool) : Nat := max p.workers.length 1 * channelCapPerWorker

/-- Where a call of `run_python` is. -/
inductive Phase (V : Type) where
  | sending
  | waiting
  | returned (resp : V)
  | dropped
  deriving DecidableEq, Repr

/-- A call, with the worker whose turn it was. -/
structure Caller (V : Type) where
  worker : Nat
  phase : Phase V
  deriving DecidableEq, Repr

/-- A process. `ran` is a record of the jobs that were run: the worker, the call and what
the job gave. -/
structure World (V : Type) where
  pid : Nat
  poolPid : Nat
  pool : Option Pool
  callers : List (Caller V)
  ran : List (Nat × Nat × V)
  deriving DecidableEq

inductive Event (V : Type) where
  | init
  | call
  | send (i : Nat)
  /-- The future of a call is dropped. -/
  | drop (i : Nat)
  | take (k : Nat)
  | finish (k : Nat) (resp : V)
  /-- `fork`, followed in the child. -/
  | fork (pid : Nat)
  deriving DecidableEq, Repr

section Steps

variable {V : Type} (setup : Setup)

def buildPool (pid : Nat) : Pool :=
  ⟨List.replicate (defaultPoolSize setup) ⟨.empty, none⟩, 0, pid⟩

namespace Pool

def setWorker (p : Pool) (k : Nat) (worker : Worker) : Pool :=
  { p with workers := p.workers.set k worker }

/-- The worker whose turn it is, and the counter after it. -/
def dispatch (p : Pool) : Nat × Nat :=
  if p.workers.length = 1 then (0, p.next)
  else (p.next % p.workers.length, (p.next + 1) % 2 ^ 64)

end Pool

namespace World

def new (pid : Nat) : World V := ⟨pid, 0, none, [], []⟩

/-- The pool that a call finds under the lock, built anew in another process. -/
def ensurePool (w : World V) : Pool :=
  match w.pool with
  | some p => if w.poolPid = w.pid then p else buildPool setup w.pid
  | none => buildPool setup w.pid

def setPhase (w : World V) (i : Nat) (phase : Phase V) : World V :=
  { w with callers := w.callers.modify i fun c => { c with phase } }

/-- The pool, as long as its threads are in this process. -/
def running (w : World V) : Option Pool := w.pool.filter (·.home = w.pid)

end World

/-- `resp_tx.send`, which is lost on a call that is gone. -/
def Caller.answer (resp : V) (c : Caller V) : Caller V :=
  match c.phase with
  | .waiting => { c with phase := .returned resp }
  | _ => c

def exec (w : World V) : Event V → Except Disabled (World V)
  | .init => .ok { w with pool := some (w.ensurePool setup), poolPid := w.pid }
  | .call =>
    let p := w.ensurePool setup
    .ok { w with
      pool := some { p with next := p.dispatch.2 }
      poolPid := w.pid
      callers := w.callers ++ [⟨p.dispatch.1, .sending⟩] }
  | .send i =>
    match w.callers[i]?, w.pool with
    | some ⟨k, .sending⟩, some p =>
      match p.workers[k]? with
      | some worker =>
        if worker.channel.queue.length < p.capacity then
          .ok { w.setPhase i .waiting with
            pool := some (p.setWorker k { worker with channel := worker.channel.send i }) }
        else .error .disabled
      | none => .error .disabled
    | _, _ => .error .disabled
  | .drop i =>
    match w.callers[i]? with
    | some ⟨_, .sending⟩ | some ⟨_, .waiting⟩ => .ok (w.setPhase i .dropped)
    | _ => .error .disabled
  | .take k =>
    match w.running with
    | some p =>
      match p.workers[k]? with
      | some ⟨channel, none⟩ =>
        match channel.recv? with
        | some (i, channel) => .ok { w with pool := some (p.setWorker k ⟨channel, some i⟩) }
        | none => .error .disabled
      | _ => .error .disabled
    | none => .error .disabled
  | .finish k resp =>
    match w.running with
    | some p =>
      match p.workers[k]? with
      | some ⟨channel, some i⟩ =>
        .ok { w with
          pool := some (p.setWorker k ⟨channel, none⟩)
          callers := w.callers.modify i (Caller.answer resp)
          ran := w.ran ++ [(k, i, resp)] }
      | _ => .error .disabled
    | none => .error .disabled
  -- the calls of the parent go on in the parent
  | .fork pid => .ok { w with pid, callers := [], ran := [] }

def Step (w : World V) (event : Event V) (w' : World V) : Prop := exec setup w event = .ok w'

end Steps

end JustApi.Py.GilPool
