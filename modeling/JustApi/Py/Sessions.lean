import JustApi.Core.Auth
import JustApi.Lib.Run
import Mathlib.Data.List.AList

/-! # Agent sessions

The session store of the bindings, and requests with a `Session` parameter. A step is what
runs under one lock of the store. `serde_json::from_str` is a parameter. -/
namespace JustApi.Py.Sessions
open JustApi.Core.Auth (Json)
open JustApi.Lib.Run (Disabled)

abbrev Fields := AList fun _ : String => Json

/-- A JSON value, by what the store looks at. -/
inductive Value where
  | null
  | object (fields : Fields)
  /-- Neither null nor an object. -/
  | other (json : Json)

def Value.get (key : String) : Value → Option Json
  | .object fields => fields.lookup key
  | _ => none

abbrev Store := AList fun _ : String => Value

section Calls

variable (fromStr : String → Except String Value)

def parsed (json : String) : Except String Value :=
  (fromStr json).mapError fun e => "invalid session JSON: " ++ e

namespace Store

/-- `create_session`, where a new id would be `uuid`. -/
def createSession (uuid : String) (id initialJson : Option String) (sessions : Store) :
    Except String (String × Store) := do
  let value ← match initialJson with
    | some s => parsed fromStr s
    | none => .ok (.object ∅)
  let id := id.getD uuid
  pure (id, sessions.insert id value)

/-- `get_session` of the app; `json.loads` makes None of null. -/
def getSession (id : String) (sessions : Store) : Option Value :=
  match sessions.lookup id with
  | none => none
  | some .null => none
  | some value => some value

def setSession (id json : String) (sessions : Store) : Except String (Bool × Store) := do
  let value ← parsed fromStr json
  match sessions.lookup id with
  | some _ => pure (true, sessions.insert id value)
  | none => pure (false, sessions)

/-- The fields of an object, one after the other. -/
def mergeInto (existing incoming : Fields) : Fields :=
  incoming.entries.foldl (fun fields e => fields.insert e.1 e.2) existing

def updateSession (id json : String) (sessions : Store) : Except String (Bool × Store) := do
  let incoming ← parsed fromStr json
  match sessions.lookup id with
  | none => pure (false, sessions)
  | some existing =>
    match incoming, existing with
    | .object inc, .object ex => pure (true, sessions.insert id (.object (mergeInto ex inc)))
    | _, _ => pure (true, sessions.insert id incoming)

def deleteSession (id : String) (sessions : Store) : Bool × Store :=
  ((sessions.lookup id).isSome, sessions.erase id)

end Store

/-- What handlers can do with the store. -/
inductive Op where
  | create (uuid : String) (id initialJson : Option String)
  | get (id : String)
  | set (id json : String)
  | update (id json : String)
  | delete (id : String)

inductive Outcome where
  | created (id : String)
  | value (value : Option Value)
  | flag (b : Bool)
  | raised (detail : String)
  /-- Nothing that a handler would see. -/
  | silent

def Op.run (sessions : Store) : Op → Outcome × Store
  | .create uuid id initialJson =>
    match sessions.createSession fromStr uuid id initialJson with
    | .ok (id, sessions) => (.created id, sessions)
    | .error e => (.raised e, sessions)
  | .get id => (.value (sessions.getSession id), sessions)
  | .set id json =>
    match sessions.setSession fromStr id json with
    | .ok (b, sessions) => (.flag b, sessions)
    | .error e => (.raised e, sessions)
  | .update id json =>
    match sessions.updateSession fromStr id json with
    | .ok (b, sessions) => (.flag b, sessions)
    | .error e => (.raised e, sessions)
  | .delete id =>
    let (b, sessions) := sessions.deleteSession id
    (.flag b, sessions)

end Calls

/-! ## Requests -/

structure Request where
  cookie : Option String
  query : Option String
  /-- `get_session` was None, and `create_session` is what comes next. -/
  creating : Bool

def Request.sid (req : Request) : Option String := req.cookie.orElse fun _ => req.query

structure Server where
  enabled : Bool
  sessions : Store
  requests : List Request

inductive Event where
  /-- `_resolve_kwargs` comes to a `Session` parameter; `uuid` is there for a new id. -/
  | resolve (request : Nat) (uuid : String)
  /-- It creates the session that it has not found. -/
  | materialize (request : Nat)
  /-- A handler or a dependency calls one of the functions. -/
  | call (request : Nat) (op : Op)

section Steps

variable (fromStr : String → Except String Value)

namespace Server

def setCreating (server : Server) (request : Nat) (creating : Bool) : List Request :=
  server.requests.modify request fun req => { req with creating }

/-- The session of a parameter, up to the first lock. -/
def resolve (server : Server) (request : Nat) (req : Request) (uuid : String) : Server :=
  if server.enabled then
    match req.sid with
    | none => { server with sessions := server.sessions.insert uuid (.object ∅) }
    | some sid =>
      match server.sessions.getSession sid with
      | some _ => server
      | none => { server with requests := server.setCreating request true }
  else server

def step (server : Server) : Event → Option (Outcome × Server)
  | .resolve request uuid => do
    let req ← server.requests[request]?
    if req.creating then none else some (.silent, server.resolve request req uuid)
  | .materialize request => do
    let req ← server.requests[request]?
    let sid ← req.sid
    if req.creating then
      some (.silent, { server with
        sessions := server.sessions.insert sid (.object ∅)
        requests := server.setCreating request false })
    else none
  | .call request op => do
    let req ← server.requests[request]?
    if req.creating then none
    else
      let (outcome, sessions) := op.run fromStr server.sessions
      some (outcome, { server with sessions })

end Server

/-! ## What handlers rely on -/

/-- The keys that handlers have written to a session, with their values. -/
abbrev Written := String → String → Option Json

def Written.of (value : Value) (written : Written) (id : String) : Written := fun i k =>
  if i = id then value.get k else written i k

/-- The keys of an object beside those written before; other values replace all. -/
def Written.merged (value : Value) (written : Written) (id : String) : Written := fun i k =>
  if i = id then
    match value with
    | .object fields => (fields.lookup k).or (written i k)
    | _ => none
  else written i k

/-- What is written after a call with this outcome. -/
def Written.after (written : Written) : Op → Outcome → Written
  | .set id json, .flag true =>
    match fromStr json with
    | .ok value => written.of value id
    | .error _ => written
  | .update id json, .flag true =>
    match fromStr json with
    | .ok value => written.merged value id
    | .error _ => written
  | .delete id, _ => written.of .null id
  | _, _ => written

/-- What is written is in the store. -/
def Written.Kept (written : Written) (sessions : Store) : Prop :=
  ∀ id k v, written id k = some v →
    ∃ value, sessions.lookup id = some value ∧ value.get k = some v

/-- The server, and what its handlers have written. -/
structure State where
  server : Server
  written : Written

def State.observe (s : State) : Event → Outcome → Written
  | .call _ op, outcome => s.written.after fromStr op outcome
  | _, _ => s.written

def State.Step (s : State) (e : Event) (t : State) : Prop :=
  ∃ outcome, s.server.step fromStr e = some (outcome, t.server) ∧
    t.written = s.observe fromStr e outcome

/-- A step as it is computed. -/
def State.exec (s : State) (e : Event) : Except Disabled State :=
  match s.server.step fromStr e with
  | some (outcome, server) => .ok ⟨server, s.observe fromStr e outcome⟩
  | none => .error .disabled

/-- Every key that a handler wrote has the value it wrote. -/
def State.NothingLost (s : State) : Prop := s.written.Kept s.server.sessions

/-- The session that a step creates, by a parameter or by a handler. -/
def Server.creates (server : Server) : Event → Option (String × Value)
  | .resolve request uuid => do
    let req ← server.requests[request]?
    if server.enabled && req.sid.isNone then some (uuid, .object ∅) else none
  | .materialize request => do
    let req ← server.requests[request]?
    let sid ← req.sid
    some (sid, .object ∅)
  | .call _ (.create uuid id none) => some (id.getD uuid, .object ∅)
  | .call _ (.create uuid id (some json)) =>
    match fromStr json with
    | .ok value => some (id.getD uuid, value)
    | .error _ => none
  | .call _ _ => none

/-- A session is created only where handlers have written nothing that it does not have. -/
def State.CreatesUnwritten (s : State) (e : Event) : Prop :=
  ∀ id value, s.server.creates fromStr e = some (id, value) →
    ∀ k v, s.written id k = some v → value.get k = some v

/-- Requests that have not been looked at, on a store that handlers have not written to. -/
def State.start (enabled : Bool) (sessions : Store) (ids : List (Option String × Option String)) :
    State :=
  ⟨⟨enabled, sessions, ids.map fun (cookie, query) => ⟨cookie, query, false⟩⟩, fun _ _ => none⟩

end Steps

end JustApi.Py.Sessions
