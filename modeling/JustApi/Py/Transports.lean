import JustApi.Core.Auth
import JustApi.Core.CrossOrigin
import JustApi.Core.Crud
import JustApi.Core.Gateway
import JustApi.Core.QueryString
import JustApi.Core.RouteBreakers
import JustApi.Py.Pipeline

/-! # Transports

The server that `JustAPIApp::run` builds, and the ways a request takes to the handlers of
the app: over TCP through the chain of middlewares, as a WebSocket upgrade, and over
HTTP/3. What the breakers, the coalescer and the gateway's file have come to when a
request asks them is given with the request. -/
namespace JustApi.Py.Transports
open JustApi.Lib.Text JustApi.Core.Http JustApi.Core.Routing JustApi.Py.Pipeline
open JustApi.Core.Auth (Json JwtAuth)
open JustApi.Core.CrossOrigin (Cors Failure insertHeader parseValue)
open JustApi.Core.Crud (Serde jsonResponse errorResponse full)
open JustApi.Core.Gateway (GatewayRoute)
open JustApi.Core.QueryString (asBytes eqIgnoreAsciiCase)
open JustApi.Core.RouteBreakers (circuitOpenResponse)

structure SecurityHeaders where
  hsts : String
  cspDirectives : List String
  includeXfo : Bool
  includeCsp : Bool
  includeHsts : Bool
  includeHstsPreload : Bool
  deriving DecidableEq, Repr

namespace SecurityHeaders

def default : SecurityHeaders :=
  ⟨"max-age=31536000; includeSubDomains", ["default-src 'self'"], true, true, true, false⟩

def withoutHsts (sh : SecurityHeaders) : SecurityHeaders := { sh with includeHsts := false }

def trimEndMatches (pattern s : String) : String :=
  String.ofList (trimStartMatches pattern.toList.reverse s.length s.toList.reverse).reverse

def hstsValue (sh : SecurityHeaders) : String :=
  if sh.includeHstsPreload then trimEndMatches "; preload" sh.hsts ++ "; preload" else sh.hsts

def insertHsts (sh : SecurityHeaders) (headers : Headers) : Except Failure Headers :=
  if sh.includeHsts then do
    let val ← (parseValue sh.hstsValue).mapError fun e => .error ("invalid HSTS value: " ++ e)
    .ok (insertHeader headers "strict-transport-security" val)
  else .ok headers

def insertCsp (sh : SecurityHeaders) (headers : Headers) : Except Failure Headers :=
  if sh.includeCsp then do
    let val ← (parseValue ("; ".intercalate sh.cspDirectives)).mapError fun e =>
      .error ("invalid CSP value: " ++ e)
    .ok (insertHeader headers "content-security-policy" val)
  else .ok headers

def stamp (sh : SecurityHeaders) (resp : Response) : Except Failure Response := do
  let headers := insertHeader resp.headers "x-content-type-options" "nosniff"
  let headers := if sh.includeXfo then insertHeader headers "x-frame-options" "DENY" else headers
  let headers ← sh.insertCsp (← sh.insertHsts headers)
  .ok { resp with headers := insertHeader headers "x-xss-protection" "0" }

end SecurityHeaders

/-- The middlewares that `run` knows. -/
inductive Middleware where
  | circuitBreaker
  | coalescer
  | securityHeaders (sh : SecurityHeaders)
  | jwt (auth : JwtAuth)
  | cors (policy : Cors)
  | gateway

structure Config where
  circuitBreaker : Bool
  coalesce : Bool
  secureHeaders : Bool
  secureHeadersConfig : Option SecurityHeaders
  /-- `decode` of the secret and the algorithm of `set_jwt_auth`. -/
  jwtAuth : Option (String → Option Json)
  cors : Option Cors
  gatewayConfig : Bool
  /-- What the module has for a request: a status and a body, or an error. -/
  wasm : Option (Incoming → Option (Nat × String))
  /-- A certificate and a key. -/
  http3 : Bool
  /-- The paths of the WebSocket handlers. -/
  wsRoutes : List String

/-- The middlewares in the order `run` adds them, the outermost first. -/
def Config.chain (config : Config) : List Middleware :=
  (if config.circuitBreaker then [.circuitBreaker] else []) ++
  (if config.coalesce then [.coalescer] else []) ++
  (if config.secureHeaders then
    [.securityHeaders (config.secureHeadersConfig.getD SecurityHeaders.default.withoutHsts)]
  else []) ++
  (config.jwtAuth.map fun decode => .jwt ⟨decode, [], .required⟩).toList ++
  (config.cors.map .cors).toList ++
  (if config.gatewayConfig then [.gateway] else [])

/-- What is known of a request afterwards: the middlewares that passed it on, and the
handlers of the app that were started for it. -/
inductive Event where
  | passed (mw : Middleware)
  | started (handlerId : Nat)
  | socket (path : String)

abbrev Serve (α : Type) := EStateM Failure (List Event) α

/-- What a request meets in the state it shares with others. -/
structure Moment (F : Type) where
  /-- The breaker of the path lets it in. -/
  admitted : Bool
  /-- What the leader of the same request shares; without it the request leads. -/
  shared : Option (Except String Response)
  gateway : Router GatewayRoute
  /-- The response once it is decided what answers. -/
  respond : Exit F → Except String Response
  /-- The client goes through with the upgrade. -/
  upgraded : Bool

/-- The code that is not the repository's: `matchit` for the two routers, the parsers,
`serde_json` and the hash of a WebSocket key. -/
structure Crates (E F : Type) where
  matchit : Matchit E Nat
  gatewayMatchit : Matchit E GatewayRoute
  parsers : Parsers F
  serde : Serde
  claimsText : Json → String
  acceptKey : String → String

/-- The handler of the app that an exit of the dispatcher starts. -/
def handlerOf {F : Type} : Exit F → Option Nat
  | .batched id _ => some id
  | .sse id _ _ => some id
  | .crud id _ _ _ _ => some id
  | .native id (.ok _) => some id
  | .python call => some call.handlerId
  | .native _ (.error _) | .json _ _ | .validation _ => none

section Serving

variable {E F H S : Type} (crates : Crates E F) (server : Server H S) (config : Config)
  (moment : Moment F)

def log (event : Event) : Serve Unit := modify fun events => events ++ [event]

def orThrow {α : Type} : Except Failure α → Serve α
  | .ok a => pure a
  | .error e => throw e

/-! ## The chain -/

/-- The handler that `make_native_handler` makes. -/
def dispatch (scheme : String) (req : Incoming) : Serve Response := do
  let exit := nativeExit crates.matchit crates.parsers server scheme req
  if let some id := handlerOf exit then log (.started id)
  orThrow ((moment.respond exit).mapError .error)

/-- `json_error` -/
def jsonError (status : Nat) (detail : String) : Response :=
  let resp := errorResponse crates.serde status detail
  { resp with headers := resp.headers.map fun (name, value) =>
      if name = "content-type" then (name, "application/problem+json") else (name, value) }

def proxied (route : GatewayRoute) : Response :=
  ⟨200, [("x-justapi-gateway", "hot-reloaded")],
    full (asBytes ("Proxied to: " ++ route.upstream))⟩

def Middleware.handle (mw : Middleware) (req : Incoming) (next : Incoming → Serve Response) :
    Serve Response :=
  match mw with
  | .circuitBreaker => if moment.admitted then next req else pure circuitOpenResponse
  | .coalescer =>
    match moment.shared with
    | some (.ok resp) => pure resp
    | some (.error e) => throw (.error e)
    | none => next req
  | .securityHeaders sh => do
    let resp ← next req
    orThrow (sh.stamp resp)
  | .jwt auth =>
    match auth.handle ⟨req.path, req.headers⟩ with
    | .answer status detail => pure (jsonError crates status detail)
    | .next none => next req
    | .next (some claims) => next { req with authClaims := some (crates.claimsText claims) }
  | .cors policy =>
    match policy.matchedOrigin ⟨req.method, req.path, req.headers, req.body⟩ with
    | none => next req
    | some origin =>
      if req.method = .options then orThrow (policy.preflight origin)
      else do
        let resp ← next req
        orThrow (policy.stamp origin resp)
  | .gateway =>
    match Core.Gateway.resolve crates.gatewayMatchit moment.gateway req.method req.path with
    | .ok matched => pure (proxied matched.handler)
    | .error _ => next req

/-- `Next::run` -/
def run : List Middleware → Incoming → Serve Response
  | [], req => dispatch crates server moment "http" req
  | mw :: rest, req => mw.handle crates moment req fun req => do
    log (.passed mw)
    run rest req

/-! ## TCP -/

def maxPathLength : Nat := 8192
def maxQueryLength : Nat := 2048
def maxHeaderCount : Nat := 100
def maxHeaderValueLength : Nat := 8192

/-- The checks of a request before anything else is done. -/
def refusal (req : Incoming) : Option Response :=
  if maxPathLength < req.path.utf8ByteSize then
    some (errorResponse crates.serde 414 "request URI exceeds maximum length")
  else if maxQueryLength < req.query.length then
    some (errorResponse crates.serde 414 "query string exceeds maximum length")
  else if maxHeaderCount < req.headers.length then
    some (errorResponse crates.serde 431 "too many request headers")
  else
    (req.headers.find? fun field => maxHeaderValueLength < field.2.length).map fun field =>
      errorResponse crates.serde 431
        ("header '" ++ field.1 ++ "' exceeds maximum value length")

/-- The key of a WebSocket upgrade. -/
def upgradeKey (req : Incoming) : Option String :=
  if (((req.headers.lookup "upgrade").bind toStr).map fun s =>
      eqIgnoreAsciiCase s "websocket").getD false then
    (req.headers.lookup "sec-websocket-key").map fun key => (toStr key).getD ""
  else none

def switchingProtocols (key : String) : Response :=
  let resp := jsonResponse 101 ""
  let headers := insertHeader resp.headers "upgrade" "websocket"
  let headers := insertHeader headers "connection" "upgrade"
  { resp with headers := insertHeader headers "sec-websocket-accept" (crates.acceptKey key) }

/-- The module's answer, if it does not let the request through. -/
def wasmAnswer (req : Incoming) : Option Response := do
  let module ← config.wasm
  let (status, body) ← module req
  if status = 200 then none
  else
    let code := status % 2 ^ 16
    some (jsonResponse (if 100 ≤ code ∧ code < 1000 then code else 403) body)

/-- An error of the chain is a response of the server. A panic goes on. -/
def internalError : Failure → Serve Response
  | .error _ => pure (errorResponse crates.serde 500 "internal server error")
  | .panicked => throw .panicked

/-- `handle_request` -/
def handleRequest (req : Incoming) : Serve Response :=
  match refusal crates req with
  | some resp => pure resp
  | none =>
    match upgradeKey req with
    | some key => do
      -- the task that waits for the upgrade
      if moment.upgraded ∧ req.path ∈ config.wsRoutes then log (.socket req.path)
      pure (switchingProtocols crates key)
    | none =>
      match wasmAnswer config req with
      | some resp => pure resp
      | none => tryCatch (run crates server moment config.chain req) (internalError crates)

/-! ## HTTP/3 -/

def maxHttp3Body : Nat := 50 * 1024 * 1024

/-- The chain of HTTP/3 has the handler only. -/
def handleHttp3 (req : Incoming) : Serve (Option Response) :=
  if maxHttp3Body < req.body.length then pure none
  else do
    let resp ← dispatch crates server moment "https" req
    pure (some resp)

inductive Arrival where
  /-- With or without an upgrade. -/
  | tcp (req : Incoming)
  | http3 (req : Incoming)

/-- No middleware has seen a request that arrives. -/
def Arrival.req : Arrival → Incoming
  | .tcp req => { req with authClaims := none }
  | .http3 req => { req with client := none, httpVersion := "1.1", authClaims := none }

def finalLog {α : Type} : EStateM.Result Failure (List Event) α → List Event
  | .ok _ events => events
  | .error _ events => events

/-- What there is to know of an arrival. -/
def served (arrival : Arrival) : List Event :=
  match arrival with
  | .tcp _ => finalLog (handleRequest crates server config moment arrival.req [])
  | .http3 _ =>
    if config.http3 then finalLog (handleHttp3 crates server moment arrival.req []) else []

end Serving

end JustApi.Py.Transports
