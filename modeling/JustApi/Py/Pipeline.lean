import JustApi.Core.Crud
import JustApi.Py.RouteTables
import Mathlib.Data.List.Infix

/-! # The dispatcher

`make_native_handler` and `make_test_handler` up to the point where it is decided what
answers a request. The parsers of bodies and the validator of schemas are parameters. -/
namespace JustApi.Py.Pipeline
open JustApi.Core.Http JustApi.Core.Routing
open JustApi.Core.Crud (CrudOp CrudSpec)
open JustApi.Py.RouteTables (Tables)

structure Incoming where
  method : Method
  path : String
  query : Bytes
  headers : Headers
  body : Bytes
  client : Option (String × Nat)
  httpVersion : String
  /-- The claims that a middleware has left. -/
  authClaims : Option String

/-- What a handler is called with; `F` is the type of parsed forms. -/
structure PythonCall (F : Type) where
  handlerId : Nat
  pathParams : List (String × String)
  queryString : Bytes
  headers : Headers
  body : Bytes
  form : Option F
  method : Method
  path : String
  scheme : String
  client : Option (String × Nat)
  needsRequest : Bool
  httpVersion : String
  authClaims : Option String

structure BatchedReq where
  method : Method
  path : String
  pathParams : List (String × String)
  queryString : Bytes
  headers : Headers
  body : Bytes

/-- What answers a request. -/
inductive Exit (F : Type) where
  /-- A JSON response of the dispatcher itself. -/
  | json (status : Nat) (body : String)
  | batched (handlerId : Nat) (breq : BatchedReq)
  | sse (handlerId count intervalMs : Nat)
  | crud (handlerId : Nat) (spec : CrudSpec) (pathParams : List (String × String))
    (queryString body : Bytes)
  /-- A native route: the body it echoes, or the detail of what is invalid. -/
  | native (handlerId : Nat) (result : Except String Bytes)
  /-- The body does not meet the schema. -/
  | validation (detail : String)
  | python (call : PythonCall F)

structure Parsers (F : Type) where
  validateJsonSchema : Bytes → String → Except String Unit
  /-- An XML body as JSON. -/
  xmlToJson : Bytes → Except String Bytes
  parseMultipart : Bytes → String → Except String F
  /-- The query string as a JSON object, if it is form encoded. -/
  queryJson : Bytes → Option Bytes

structure Server (H S : Type) where
  tables : Tables H S
  /-- The schemas that could be compiled. -/
  schemaValidators : List (Option (Bytes → Except String Unit))
  needsRequest : List Bool
  hasPool : Bool
  maxBodySize : Nat

section Dispatching

variable {E F H S : Type} (mx : Matchit E Nat) (parsers : Parsers F) (server : Server H S)

/-! ## Bodies -/

def contentType (req : Incoming) : Option String := (req.headers.lookup "content-type").bind toStr

def isMultipart (contentType : Option String) : Bool :=
  (contentType.getD "").startsWith "multipart/form-data"

def isXml (contentType : Option String) : Bool :=
  let ctLower := ((contentType.getD "").map Char.toLower).toList
  "application/xml".toList <:+: ctLower || "text/xml".toList <:+: ctLower

def payloadTooLarge : Exit F := .json 413 "\x7b\"detail\":\"payload too large\"\x7d"

def multipartForm (body : Bytes) (ct : String) : Except (Exit F) F :=
  match parsers.parseMultipart body ct with
  | .ok form => .ok form
  | .error msg =>
    if "exceeds maximum size".toList <:+: msg.toList then .error payloadTooLarge
    else .error (.json 400 "\x7b\"detail\":\"invalid multipart body\"\x7d")

/-- The body is taken within its limit. -/
def limited (body : Bytes) : Except (Exit F) Bytes :=
  if server.maxBodySize < body.length then .error payloadTooLarge else .ok body

/-- The body and the form in production. -/
def nativeBody (req : Incoming) : Except (Exit F) (Bytes × Option F) :=
  if isMultipart (contentType req) then do
    let form ← multipartForm parsers req.body ((contentType req).getD "")
    pure ([], some form)
  else do
    let body ← limited server req.body
    if isXml (contentType req) then
      match parsers.xmlToJson body with
      | .ok json => pure (json, none)
      | .error e => .error (.json 400 ("\x7b\"detail\":\"invalid xml body: " ++ e ++ "\"\x7d"))
    else pure (body, none)

/-- The body and the form in the test client. -/
def testBody (req : Incoming) : Except (Exit F) (Bytes × Option F) := do
  let body ← limited server req.body
  if isMultipart (contentType req) then
    let form ← multipartForm parsers body ((contentType req).getD "")
    pure (body, some form)
  else pure (body, none)

/-! ## Routes -/

/-- The route, or the response without one. -/
def matched (req : Incoming) : Except (Exit F) (RouteResolution Nat) :=
  match server.tables.router.rawResolve mx req.method req.path with
  | .ok m => .ok m
  | .error .methodNotAllowed => .error (.json 405 "\x7b\"detail\":\"method not allowed\"\x7d")
  | .error .notFound => .error (.json 404 "\x7b\"detail\":\"not found\"\x7d")

def validateBody (handlerId : Nat) (body : Bytes) (schemaJson : String) : Except String Unit :=
  match server.schemaValidators[handlerId]?.join with
  | some v => v body
  | none => parsers.validateJsonSchema body schemaJson

def tryNativeFastPath (handlerId : Nat) (body : Bytes) : Option (Except String Bytes) :=
  if server.tables.native[handlerId]?.getD false then
    match server.schemaValidators[handlerId]?.join with
    | some v => some ((v body).map fun _ => body)
    | none => server.tables.schemaJsons[handlerId]?.join.map fun sj =>
      (parsers.validateJsonSchema body sj).map fun _ => body
  else none

def tryNativeFastPathQuery (handlerId : Nat) (query : Bytes) : Option (Except String Bytes) :=
  if server.tables.native[handlerId]?.getD false then
    server.tables.querySchemaJsons[handlerId]?.join.map fun schemaJson =>
      match parsers.queryJson query with
      | none => .error "Query string is not valid form encoding"
      | some json => (parsers.validateJsonSchema json schemaJson).map fun _ => json
  else none

/-- The CRUD operation of a method. -/
def crudOp : Method → Option CrudOp
  | .post => some .insert
  | .get => some .select
  | .put => some .update
  | .patch => some .update
  | .delete => some .delete
  | _ => none

/-- The native routes, the schema and the handler, in this order. -/
def answerById (handlerId : Nat) (query body : Bytes) (call : PythonCall F) : Exit F :=
  match tryNativeFastPath parsers server handlerId body with
  | some nr => .native handlerId nr
  | none =>
    match tryNativeFastPathQuery parsers server handlerId query with
    | some nr => .native handlerId nr
    | none =>
      match server.tables.schemaJsons[handlerId]?.join with
      | none => .python call
      | some schemaJson =>
        match validateBody parsers server handlerId body schemaJson with
        | .ok _ => .python call
        | .error detail => .validation detail

/-- The CRUD configuration of a route, where there is a pool and an operation. -/
def crudSpec (handlerId : Nat) (method : Method) : Option CrudSpec := do
  let (table, columns, idColumn) ← server.tables.crud[handlerId]?.join
  if server.hasPool then
    let op ← crudOp method
    pure ⟨op, table, columns, idColumn⟩
  else none

def needsContentType (req : Incoming) : Bool :=
  decide (req.method = .extension "QUERY") && (req.headers.lookup "content-type").isNone

def contentTypeRequired : Exit F :=
  .json 400 "\x7b\"detail\":\"QUERY requires a Content-Type header\"\x7d"

/-- `make_native_handler`. -/
def nativeExit (scheme : String) (req : Incoming) : Exit F :=
  if needsContentType req then contentTypeRequired
  else
    match nativeBody parsers server req with
    | .error exit => exit
    | .ok (body, form) =>
      match matched mx server req with
      | .error exit => exit
      | .ok m =>
        let id := m.handler
        match server.tables.batchConfigs[id]?.join with
        | some _ => .batched id ⟨req.method, req.path, m.params, req.query, req.headers, body⟩
        | none =>
          match server.tables.sseSpecs[id]?.join with
          | some (count, intervalMs) => .sse id count intervalMs
          | none =>
            match crudSpec server id req.method with
            | some spec => .crud id spec m.params req.query body
            | none =>
              answerById parsers server id req.query body
                ⟨id, m.params, req.query, req.headers, body, form, req.method, req.path, scheme,
                  req.client, server.needsRequest[id]?.getD false, req.httpVersion,
                  req.authClaims⟩

/-- `make_test_handler`, without batches and CRUD. -/
def testExit (req : Incoming) : Exit F :=
  if needsContentType req then contentTypeRequired
  else
    match testBody parsers server req with
    | .error exit => exit
    | .ok (body, form) =>
      match matched mx server req with
      | .error exit => exit
      | .ok m =>
        let id := m.handler
        match server.tables.sseSpecs[id]?.join with
        | some (count, intervalMs) => .sse id count intervalMs
        | none =>
          answerById parsers server id req.query body
            ⟨id, m.params, req.query, req.headers, body, form, req.method, req.path, "http",
              none, server.needsRequest[id]?.getD false, "1.1", none⟩

end Dispatching

end JustApi.Py.Pipeline
