import Mathlib.Data.List.Basic
import JustApi.Lib.Run

/-! # Adaptive batching

`Batcher::execute` and the loop that `start_batcher` spawns, with the channel between
them. A step is what happens between two points where another task can run. -/
namespace JustApi.Core.Batching
open JustApi.Lib.Run

/-- A request in the channel. Its responder is told by the caller it belongs to. -/
structure BatchRequest (Req : Type) where
  payload : Req
  responder : Nat
  deriving DecidableEq, Repr

/-- Where a call of `execute` is. It has returned as soon as there is something in its
oneshot channel. -/
inductive Phase (Res : Type) where
  | sending
  | waiting
  | returned (result : Except String Res)
  | dropped
  deriving DecidableEq, Repr

structure Caller (Req Res : Type) where
  payload : Req
  phase : Phase Res
  deriving DecidableEq, Repr

/-- The two lists a batch is collected in. -/
structure Taken (Req : Type) where
  batch : List Req
  responders : List Nat
  deriving DecidableEq, Repr

/-- Where the loop is. -/
inductive Task (Req Res : Type) where
  /-- waiting for the first request of a batch -/
  | idle
  /-- waiting for the deadline or another request -/
  | filling (taken : Taken Req)
  /-- in `processor(batch).await` -/
  | processing (taken : Taken Req)
  /-- handing out the results; the responders left over have none -/
  | scattering (pairs : List (Nat × Res)) (leftover : List Nat)
  | ended
  deriving DecidableEq, Repr

/-- `sent` and `batches`, with their results, are a record of what has happened. -/
structure World (Req Res : Type) where
  callers : List (Caller Req Res)
  queue : List (BatchRequest Req)
  /-- Some handle is left. -/
  isOpen : Bool
  task : Task Req Res
  sent : List (BatchRequest Req)
  batches : List (Taken Req × List Res)
  deriving DecidableEq, Repr

inductive Event (Req Res : Type) where
  | execute (payload : Req)
  | send (i : Nat)
  | drop (i : Nat)
  /-- The last handle is dropped. -/
  | close
  | recv
  | deadline
  | processed (results : List Res)
  | scatter
  deriving DecidableEq, Repr

section Steps

variable {Req Res : Type}

namespace Taken

def empty : Taken Req := ⟨[], []⟩

def push (taken : Taken Req) (r : BatchRequest Req) : Taken Req :=
  ⟨taken.batch ++ [r.payload], taken.responders ++ [r.responder]⟩

/-- The requests the two lists were collected from. -/
def requests (taken : Taken Req) : List (BatchRequest Req) :=
  List.zipWith BatchRequest.mk taken.batch taken.responders

/-- The two lists have grown together. -/
def Paired (taken : Taken Req) : Prop := taken.batch.length = taken.responders.length

@[simp] theorem requests_empty : (empty : Taken Req).requests = [] := rfl

theorem paired_push {taken : Taken Req} (h : taken.Paired) (r : BatchRequest Req) :
    (taken.push r).Paired := by
  simpa [push, Paired] using h

theorem requests_push {taken : Taken Req} (h : taken.Paired) (r : BatchRequest Req) :
    (taken.push r).requests = taken.requests ++ [r] := by
  simp only [push, requests]
  rw [List.zipWith_append h]
  rfl

@[simp] theorem length_push (taken : Taken Req) (r : BatchRequest Req) :
    (taken.push r).batch.length = taken.batch.length + 1 := by
  simp [push]

end Taken

/-- `responder.send`, which is lost on a caller that is gone. -/
def Caller.answer (result : Except String Res) (c : Caller Req Res) : Caller Req Res :=
  match c.phase with
  | .waiting => { c with phase := .returned result }
  | _ => c

namespace World

def new : World Req Res := ⟨[], [], true, .idle, [], []⟩

def answer (w : World Req Res) (i : Nat) (result : Except String Res) : World Req Res :=
  { w with callers := w.callers.modify i (Caller.answer result) }

def setPhase (w : World Req Res) (i : Nat) (phase : Phase Res) : World Req Res :=
  { w with callers := w.callers.modify i fun c => { c with phase } }

end World

variable (maxSize : Nat)

/-- The loop that fills a batch, at the head of its body. -/
def fill (taken : Taken Req) : Task Req Res :=
  if maxSize ≤ taken.batch.length then .processing taken else .filling taken

/-- What a call does next, sending or being dropped. -/
def send (w : World Req Res) (i : Nat) (payload : Req) : Except Disabled (World Req Res) :=
  match w.task with
  | .ended => .ok (w.setPhase i (.returned (.error "Batcher is closed")))
  | _ =>
    if w.queue.length < 1024 then
      .ok { w.setPhase i .waiting with
        queue := w.queue ++ [⟨payload, i⟩], sent := w.sent ++ [⟨payload, i⟩] }
    else .error .disabled

/-- `rx.recv().await`, ready when there is a request or no handle is left. -/
def recv (w : World Req Res) : Except Disabled (World Req Res) :=
  match w.task, w.queue with
  | .idle, r :: queue => .ok { w with queue, task := fill maxSize (Taken.empty.push r) }
  | .filling taken, r :: queue => .ok { w with queue, task := fill maxSize (taken.push r) }
  | .idle, [] => if w.isOpen then .error .disabled else .ok { w with task := .ended }
  | .filling taken, [] =>
    if w.isOpen then .error .disabled else .ok { w with task := .processing taken }
  | _, _ => .error .disabled

def exec (w : World Req Res) : Event Req Res → Except Disabled (World Req Res)
  | .execute payload =>
    if w.isOpen then .ok { w with callers := w.callers ++ [⟨payload, .sending⟩] }
    else .error .disabled
  | .send i =>
    match w.callers[i]? with
    | some ⟨payload, .sending⟩ => send w i payload
    | _ => .error .disabled
  | .drop i =>
    match w.callers[i]? with
    | some ⟨_, .sending⟩ | some ⟨_, .waiting⟩ => .ok (w.setPhase i .dropped)
    | _ => .error .disabled
  | .close =>
    -- a call that is sending holds a handle
    if w.callers.any fun c => c.phase matches .sending then .error .disabled
    else .ok { w with isOpen := false }
  | .recv => recv maxSize w
  | .deadline =>
    match w.task with
    | .filling taken => .ok { w with task := .processing taken }
    | _ => .error .disabled
  | .processed results =>
    match w.task with
    | .processing taken =>
      .ok { w with
        task := .scattering (taken.responders.zip results) (taken.responders.drop results.length)
        batches := w.batches ++ [(taken, results)] }
    | _ => .error .disabled
  | .scatter =>
    match w.task with
    | .scattering ((i, res) :: pairs) leftover =>
      .ok { w.answer i (.ok res) with task := .scattering pairs leftover }
    | .scattering [] leftover =>
      .ok { leftover.foldl (fun w i => w.answer i (.error "Batcher dropped the response")) w with
        task := .idle }
    | _ => .error .disabled

def Step (w : World Req Res) (event : Event Req Res) (w' : World Req Res) : Prop :=
  exec maxSize w event = .ok w'

end Steps

end JustApi.Core.Batching
