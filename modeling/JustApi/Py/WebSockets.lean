import JustApi.Lib.Run
import JustApi.Lib.Channels
import JustApi.Core.QueryString

/-! # The two directions of a WebSocket

An accepted connection is served by three parties: a task that forwards what the peer
sends, a task that writes what the handler sends, and the handler. Two channels without a
bound connect them. A step is what one of them does between two points where it waits. -/
namespace JustApi.Py.WebSockets
open JustApi.Lib.Run JustApi.Lib.Channels
open JustApi.Core.Http (Bytes)
open JustApi.Core.QueryString (asBytes fromUtf8Lossy)

inductive WsMessage where
  | text (t : String)
  | bytes (b : Bytes)
  | close (code : Option Nat) (reason : Option String)
  deriving DecidableEq, Repr

structure CloseFrame where
  code : Nat
  reason : String
  deriving DecidableEq, Repr

/-- A message of the WebSocket library. -/
inductive Message where
  | text (t : String)
  | binary (b : Bytes)
  | ping (b : Bytes)
  | pong (b : Bytes)
  | close (frame : Option CloseFrame)
  deriving DecidableEq, Repr

/-- What the reader puts into the channel for a message, or for an error. -/
def forward : Option Message → Option WsMessage
  | some (.text t) => some (.text t)
  | some (.binary b) => some (.bytes b)
  | some (.close _) | none => some (.close none none)
  | some (.ping _) | some (.pong _) => none

namespace WsMessage

def isClose : WsMessage → Bool
  | .close _ _ => true
  | .text _ | .bytes _ => false

def frame : WsMessage → Message
  | .text t => .text t
  | .bytes b => .binary b
  | .close code reason => .close (code.map fun c => ⟨c, reason.getD ""⟩)

end WsMessage

/-! ## What a receive gives -/

inductive Receive where
  | any
  | text
  | bytes
  | json
  deriving DecidableEq, Repr

inductive Value (J : Type) where
  | none
  | str (s : String)
  | bytes (b : Bytes)
  | json (v : J)
  deriving DecidableEq, Repr

inductive PyErr (E : Type) where
  | eof (message : String)
  | webSocketDisconnect (code : Nat) (reason : String)
  | raised (e : E)
  deriving DecidableEq, Repr

section Values

variable {J E : Type} (loads : String → Except E J)

/-- The four receives of the native object, on what `recv` gave. -/
def Receive.native (kind : Receive) (given : Option WsMessage) : Except (PyErr E) (Value J) :=
  match kind, given with
  | .any, some (.text t) | .text, some (.text t) => .ok (.str t)
  | .any, some (.bytes b) | .text, some (.bytes b) => .ok (.str (fromUtf8Lossy b))
  | .any, some (.close _ _) | .any, none => .ok .none
  | .bytes, some (.text t) => .ok (.bytes (asBytes t))
  | .bytes, some (.bytes b) => .ok (.bytes b)
  | .json, some (.text t) => ((loads t).mapError .raised).map .json
  | .json, some (.bytes b) => ((loads (fromUtf8Lossy b)).mapError .raised).map .json
  | .text, some (.close _ _) | .text, none | .bytes, some (.close _ _) | .bytes, none
  | .json, some (.close _ _) | .json, none => .error (.eof "websocket connection closed")

/-- The wrapper turns the end of the connection into a `WebSocketDisconnect`. -/
def Receive.result (kind : Receive) (given : Option WsMessage) : Except (PyErr E) (Value J) :=
  match kind.native loads given with
  | .error (.eof _) => .error (.webSocketDisconnect 1000 "")
  | answer => answer

end Values

/-! ## The parties -/

/-- A receive first waits for the lock of the channel, then for a message. -/
inductive ReceivePhase where
  | called
  | locking
  | given (msg : Option WsMessage)
  | cancelled
  deriving DecidableEq, Repr

structure ReceiveCall where
  kind : Receive
  phase : ReceivePhase
  deriving DecidableEq, Repr

/-- `refused` is a `ConnectionError`. -/
inductive SendPhase where
  | called
  | done
  | refused
  deriving DecidableEq, Repr

structure SendCall where
  message : WsMessage
  phase : SendPhase
  deriving DecidableEq, Repr

inductive Writer where
  | idle
  | writing (i : Nat)
  | closing
  | ended
  deriving DecidableEq, Repr

inductive WebSocketState where
  | connecting
  | connected
  | disconnected
  | response
  deriving DecidableEq, Repr

/-- `lock` are the receives that hold or wait for the lock, in turn. `arrived`, `served` and
`written` are records: what the stream gave, the receives with what they were given, and
the sends whose frames were written. -/
structure World where
  arrived : List (Option Message)
  reading : Bool
  incoming : Channel WsMessage
  receives : List ReceiveCall
  lock : List Nat
  served : List (Nat × Option WsMessage)
  sends : List SendCall
  outgoing : Channel Nat
  writer : Writer
  written : List Nat
  released : Bool
  clientState : WebSocketState
  applicationState : WebSocketState
  subprotocol : Option String
  deriving DecidableEq

inductive Event where
  | arrive (msg : Option Message)
  | eof
  | accept (subprotocol : Option String)
  | receive (kind : Receive)
  | lock (i : Nat)
  | deliver
  | cancel (i : Nat)
  /-- `send_text`, `send_bytes`, `send_json` and `close`. -/
  | send (message : WsMessage)
  | flush (i : Nat)
  | next
  | wrote (ok : Bool)
  | hangUp
  | shut
  /-- The handler lets go of its object. -/
  | release
  deriving DecidableEq, Repr

namespace World

def new : World where
  arrived := []
  reading := true
  incoming := .empty
  receives := []
  lock := []
  served := []
  sends := []
  outgoing := .empty
  writer := .idle
  written := []
  released := false
  clientState := .connecting
  applicationState := .connecting
  subprotocol := none

def setReceive (w : World) (i : Nat) (phase : ReceivePhase) : World :=
  { w with receives := w.receives.modify i fun c => { c with phase } }

def setSend (w : World) (i : Nat) (phase : SendPhase) : World :=
  { w with sends := w.sends.modify i fun c => { c with phase } }

/-- What `recv` gives: nothing while the reader may still put something in. -/
def recv? (w : World) : Option (Option WsMessage × Channel WsMessage) :=
  match w.incoming.recv? with
  | some (msg, incoming) => some (some msg, incoming)
  | none => if w.reading then none else some (none, w.incoming)

end World

def exec (w : World) : Event → Except Disabled World
  | .arrive msg =>
    if w.reading then
      match forward msg with
      | some m => .ok { w with
          arrived := w.arrived ++ [msg]
          incoming := w.incoming.send m
          reading := !m.isClose }
      | none => .ok { w with arrived := w.arrived ++ [msg] }
    else .error .disabled
  | .eof => if w.reading then .ok { w with reading := false } else .error .disabled
  | .accept subprotocol =>
    if w.released then .error .disabled
    else .ok { w with
      subprotocol := subprotocol.or w.subprotocol
      clientState := .connected
      applicationState := .connected }
  | .receive kind =>
    if w.released then .error .disabled
    else .ok { w with receives := w.receives ++ [⟨kind, .called⟩] }
  | .lock i =>
    match w.receives[i]? with
    | some ⟨_, .called⟩ => .ok { w.setReceive i .locking with lock := w.lock ++ [i] }
    | _ => .error .disabled
  | .deliver =>
    match w.lock, w.recv? with
    | i :: lock, some (given, incoming) =>
      .ok { w.setReceive i (.given given) with
        lock, incoming, served := w.served ++ [(i, given)] }
    | _, _ => .error .disabled
  | .cancel i =>
    match w.receives[i]? with
    | some ⟨_, .called⟩ | some ⟨_, .locking⟩ =>
      .ok { w.setReceive i .cancelled with lock := w.lock.filter (· ≠ i) }
    | _ => .error .disabled
  | .send message =>
    if w.released then .error .disabled
    else
      let w := if message.isClose then
        { w with clientState := .disconnected, applicationState := .disconnected } else w
      .ok { w with sends := w.sends ++ [⟨message, .called⟩] }
  | .flush i =>
    match w.sends[i]? with
    | some ⟨message, .called⟩ =>
      if w.writer = .ended then
        -- `close` passes over the error
        .ok (w.setSend i (if message.isClose then .done else .refused))
      else .ok { w.setSend i .done with outgoing := w.outgoing.send i }
    | _ => .error .disabled
  | .next =>
    match w.writer, w.outgoing.recv? with
    | .idle, some (i, outgoing) => .ok { w with writer := .writing i, outgoing }
    | _, _ => .error .disabled
  | .wrote ok =>
    match w.writer with
    | .writing i =>
      if ok then
        let closing := (w.sends[i]?.map (·.message.isClose)).getD false
        .ok { w with
          written := w.written ++ [i], writer := if closing then .closing else .idle }
      else .ok { w with writer := .closing }
    | _ => .error .disabled
  | .hangUp =>
    if w.writer = .idle ∧ w.outgoing.queue = [] ∧ w.released ∧
        ∀ c ∈ w.sends, c.phase ≠ .called then
      .ok { w with writer := .closing }
    else .error .disabled
  | .shut => if w.writer = .closing then .ok { w with writer := .ended } else .error .disabled
  | .release => .ok { w with released := true }

def Step (w : World) (event : Event) (w' : World) : Prop := exec w event = .ok w'

end JustApi.Py.WebSockets
