import JustApi.Py.Dependencies
import JustApi.Py.Pipeline

/-! # Registrations

What the Python app puts into the route tables, and what is called when the dispatcher has
decided what answers a request. -/
namespace JustApi.Py.Registrations
open JustApi.Core.Http JustApi.Core.Routing JustApi.Py.Dependencies JustApi.Py.Pipeline
open JustApi.Py.RouteTables (Tables Raised Registration)

/-- A handler function; `adaptive_batch` leaves a batch size and a window on it. -/
structure Handler (ι : Type) where
  signature : Signature ι
  coroutine : Bool
  hasBg : Bool
  batchSize : Option Nat
  batchWindowMs : Option Nat

/-- What stands in the handler table. -/
inductive Wrapped (ι : Type) where
  /-- `_wrap_handler`, with the dependencies that it resolves. -/
  | handler (route : Route ι)
  | batch
  | sse
  | crudNoop

/-- A handler with what the route declares. -/
structure Slot (ι : Type) where
  declared : Route ι
  wrapped : Wrapped ι

structure App (ι S : Type) where
  dependencies : List (Depends ι)
  /-- Whether the app has middlewares. -/
  middlewares : Bool
  tables : Tables (Slot ι) S
  /-- What the sockets declare. -/
  wsRoutes : AList fun _ : String => Route ι

inductive RouteMethod where
  | get
  | post
  | put
  | patch
  | delete
  | query
  | head
  | options
  | trace
  deriving DecidableEq, Repr

structure RouteOptions (ι S : Type) where
  path : String
  handler : Option (Handler ι)
  bodySchema : Option S
  schema : Option S
  querySchema : Option S
  dependencies : List (Depends ι)
  middlewares : Bool
  native : Bool
  crudTable : Option String
  crudColumns : Option (List String)

/-- One call of the Rust app's registration functions. The `Depends` of a stream or a
socket are those that its router or controller has for it. -/
inductive Step (ι S : Type) where
  | route (method : RouteMethod) (o : RouteOptions ι S)
  | sse (path : String) (handler : Handler ι) (dependencies : List (Depends ι))
  | sseNative (path : String) (count intervalMs : Nat)
  | websocket (path : String) (handler : Handler ι) (dependencies : List (Depends ι))
  | streamJson (path : String) (handler : Handler ι) (dependencies : List (Depends ι))

section Wrapping

variable {E ι S : Type} (app : App ι S)

/-- What a route declares: the dependencies of the app, its own, and those of its handler's
parameters. -/
def App.declares (dependencies : List (Depends ι)) (h : Handler ι) : Route ι :=
  ⟨app.dependencies ++ dependencies, h.signature, h.coroutine, h.hasBg⟩

def bypassed : String :=
  "native=True cannot be combined with dependencies or route middlewares: the native fast " ++
    "path validates and echoes the request without invoking the handler, so those would be "

def App.wrapHandler (h : Handler ι) (routeDependencies : List (Depends ι))
    (routeMiddlewares native : Bool) : Except (Raised E) (Wrapped ι) :=
  if native && (!app.dependencies.isEmpty || !routeDependencies.isEmpty || app.middlewares ||
      routeMiddlewares) then
    .error (.valueError (bypassed ++ "silently bypassed. Use a non-native route, or move " ++
      "the logic into the native validation schema."))
  else .ok (.handler (app.declares routeDependencies h))

def App.wrapBatchHandler (native : Bool) : Except (Raised E) (Wrapped ι) :=
  if native && (!app.dependencies.isEmpty || app.middlewares) then
    .error (.valueError (bypassed ++ "silently bypassed."))
  else .ok .batch

end Wrapping

section Registering

variable {E ι S : Type} (mx : Matchit E Nat) (schemaJson : S → Option String)

/-- A call of the Rust app. -/
def App.apply (app : App ι S) (call : RouteTables.Call (Slot ι) S) :
    Except (Raised E) (App ι S) :=
  match call.exec mx schemaJson app.tables with
  | (.ok _, tables) => .ok { app with tables := tables }
  | (.error e, _) => .error e

/-- The methods that take a CRUD table. -/
def RouteMethod.hasCrud : RouteMethod → Bool
  | .get | .post | .put | .patch | .delete => true
  | .query | .head | .options | .trace => false

/-- The methods that look for a batch size on the handler. -/
def RouteMethod.hasBatches : RouteMethod → Bool
  | .post | .put | .patch => true
  | _ => false

/-- The methods that pass `native` on to the wrapper. -/
def RouteMethod.passesNative : RouteMethod → Bool
  | .post | .put | .patch | .query => true
  | _ => false

def RouteMethod.call (r : Registration (Slot ι) S) : RouteMethod → RouteTables.Call (Slot ι) S
  | .get => .get r
  | .post => .post r
  | .put => .put r
  | .patch => .patch r
  | .delete => .delete r
  | .query => .query r
  | .head => .head r
  | .options => .options r
  | .trace => .trace r

def RouteOptions.registration (o : RouteOptions ι S) (m : RouteMethod) (slot : Slot ι)
    (batchSize batchWindowMs : Option Nat) : Registration (Slot ι) S :=
  ⟨o.path, slot, o.bodySchema, o.schema, o.querySchema, batchSize, batchWindowMs, some o.native,
    if m.hasCrud then o.crudTable else none, if m.hasCrud then o.crudColumns else none⟩

/-- The batch size and the window that a method finds on a handler. -/
def RouteMethod.batch (m : RouteMethod) (h : Handler ι) : Option Nat × Option Nat :=
  if m.hasBatches then (h.batchSize, h.batchWindowMs) else (none, none)

/-- The wrapper that a method chooses for a handler. -/
def App.wrap (app : App ι S) (m : RouteMethod) (o : RouteOptions ι S) (h : Handler ι) :
    Except (Raised E) (Wrapped ι) :=
  if (m.batch h).1.getD 0 ≠ 0 then app.wrapBatchHandler o.native
  else app.wrapHandler h o.dependencies o.middlewares (m.passesNative && o.native)

/-- The registration functions for the methods. -/
def App.route (app : App ι S) (m : RouteMethod) (o : RouteOptions ι S) :
    Except (Raised E) (App ι S) :=
  match o.handler with
  | none =>
    -- without a table a decorator is returned
    if m.hasCrud && o.crudTable.isSome then
      app.apply mx schemaJson (m.call (o.registration m
        ⟨⟨app.dependencies ++ o.dependencies, [], false, false⟩, .crudNoop⟩ none none))
    else .ok app
  | some h => do
    let wrapped ← app.wrap m o h
    app.apply mx schemaJson (m.call (o.registration m ⟨app.declares o.dependencies h, wrapped⟩
      (m.batch h).1 (m.batch h).2))

/-- A registration without options. -/
def plain (path : String) (slot : Slot ι) : Registration (Slot ι) S :=
  ⟨path, slot, none, none, none, none, none, none, none, none⟩

def App.step (app : App ι S) : Step ι S → Except (Raised E) (App ι S)
  | .route m o => app.route mx schemaJson m o
  -- the dependencies are not passed on
  | .sse path h dependencies =>
    app.apply mx schemaJson (.get (plain path ⟨app.declares dependencies h, .sse⟩))
  | .sseNative path count intervalMs =>
    app.apply mx schemaJson (.sseNative path count intervalMs)
  | .websocket path h dependencies =>
    match app.wsRoutes.lookup path with
    | some _ => .error (.valueError ("WebSocket route already registered: " ++ path))
    | none => .ok { app with wsRoutes := app.wsRoutes.insert path (app.declares dependencies h) }
  | .streamJson path h dependencies => do
    let adapted := { h with coroutine := false }
    let wrapped ← app.wrapHandler adapted dependencies false false
    app.apply mx schemaJson (.get (plain path ⟨app.declares dependencies adapted, wrapped⟩))

end Registering

/-- An app without routes. -/
def App.new {ι S : Type} (dependencies : List (Depends ι)) (middlewares : Bool) : App ι S :=
  ⟨dependencies, middlewares, .new, ∅⟩

/-! ## Routers and controllers -/

inductive RouterMethod where
  | http (method : RouteMethod)
  | sse
  | ws
  deriving DecidableEq, Repr

structure RouterRoute (ι S : Type) where
  method : RouterMethod
  path : String
  handler : Handler ι
  bodySchema : Option S
  schema : Option S
  dependencies : List (Depends ι)
  middlewares : Bool

structure APIRouter (ι S : Type) where
  pathPrefix : String
  dependencies : List (Depends ι)
  middlewares : Bool
  routes : List (RouterRoute ι S)

/-- The registration functions of a router. -/
def APIRouter.store {ι S : Type} (router : APIRouter ι S) (route : RouterRoute ι S) :
    APIRouter ι S :=
  { router with
    routes := router.routes ++ [{ route with path := router.pathPrefix ++ route.path }] }

/-- A router within a router. -/
def APIRouter.includeRouter {ι S : Type} (router sub : APIRouter ι S) (pathPrefix : String)
    (dependencies : List (Depends ι)) : APIRouter ι S :=
  { router with
    routes := router.routes ++ sub.routes.map fun route =>
      { route with
        path := router.pathPrefix ++ pathPrefix ++ route.path
        dependencies := dependencies ++ router.dependencies ++ sub.dependencies ++
          route.dependencies
        middlewares := router.middlewares || sub.middlewares || route.middlewares } }

structure Controller (ι S : Type) where
  path : String
  dependencies : List (Depends ι)
  routes : List (RouterRoute ι S)

inductive Op (ι S : Type) where
  | step (s : Step ι S)
  | includeRouter (router : APIRouter ι S) (pathPrefix : String)
    (dependencies : List (Depends ι))
  | includeController (controller : Controller ι S)

/-- The options of a route of a router or a controller. -/
def RouterRoute.options {ι S : Type} (route : RouterRoute ι S) (path : String)
    (dependencies : List (Depends ι)) (middlewares : Bool) : RouteOptions ι S :=
  ⟨path, some route.handler, route.bodySchema, route.schema, none, dependencies, middlewares,
    false, none, none⟩

/-- The registrations of a router's route. -/
def RouterRoute.step {ι S : Type} (route : RouterRoute ι S) (path : String)
    (dependencies : List (Depends ι)) (middlewares : Bool) : Step ι S :=
  match route.method with
  | .http m => .route m (route.options path dependencies middlewares)
  | .sse => .sse path route.handler dependencies
  | .ws => .websocket path route.handler dependencies

/-- The methods that a controller's routes are registered for. -/
def RouterMethod.controlled : RouterMethod → Bool
  | .http .get | .http .post | .http .put | .http .delete | .http .query | .sse | .ws => true
  | .http _ => false

/-- The calls that an operation makes one after another. -/
def Op.steps {ι S : Type} : Op ι S → List (Step ι S)
  | .step s => [s]
  | .includeRouter router pathPrefix dependencies =>
    router.routes.map fun route => route.step (pathPrefix ++ route.path)
      (dependencies ++ router.dependencies ++ route.dependencies)
      (router.middlewares || route.middlewares)
  | .includeController controller =>
    (controller.routes.filter fun route => route.method.controlled).map fun route =>
      route.step (controller.path ++ route.path) (controller.dependencies ++ route.dependencies)
        false

/-! ## Requests -/

inductive Answer (ι V X : Type) where
  /-- The framework answers, or nothing does. -/
  | refused
  /-- The application logic answers, and nothing was resolved before. -/
  | direct
  /-- The wrapper was called, with this log. -/
  | wrapped (log : List (Event ι V X))

/-- What happens to a request in the code that is not the framework's. -/
structure Course (ι V X S : Type) where
  bodyAccepted : S → Bytes → Bool
  outcome : Nat → Except X V
  recursionError : X
  depth : Nat
  handles : X → Bool
  /-- How many times the middlewares pass the request on. -/
  passes : Nat

section Serving

variable {E F ι V X S : Type} [DecidableEq ι] (c : Callables ι) (app : App ι S)
  (course : Course ι V X S)

/-- A wrapper that is called as often as the middlewares do. -/
def passed (route : Route ι) : Request ι V X :=
  (List.range course.passes).foldl (fun r _ =>
    match wrapper (if route.isAsync c then .async else .sync) c course.outcome
      course.recursionError course.depth course.handles route r with
    | .ok _ r => r
    | .error _ r => r) .new

/-- A handler that is called with a request. -/
def Wrapped.answer : Wrapped ι → Answer ι V X
  | .handler route => .wrapped (passed c course route).log
  | .batch => .direct
  | .sse => .direct
  | .crudNoop => .refused

/-- A handler that is called with a list of requests; a wrapper stores its cache in what it
is given, which a list does not allow. -/
def Wrapped.batchAnswer : Wrapped ι → Answer ι V X
  | .handler _ => .refused
  | .batch => .direct
  | .sse => .direct
  | .crudNoop => .refused

def App.slot (handlerId : Nat) : Option (Slot ι) := app.tables.handlers[handlerId]?.join

/-- What is declared for a route, where a native stream has no dependencies of its own. -/
def App.declared (handlerId : Nat) : Route ι :=
  match app.slot handlerId with
  | some slot => slot.declared
  | none => ⟨app.dependencies, [], false, false⟩

/-- What answers a request, with what the route declares. -/
def App.answer : Exit F → Option (Route ι × Answer ι V X)
  | .json _ _ => none
  | .batched id _ => (app.slot id).map fun slot => (slot.declared, slot.wrapped.batchAnswer)
  | .sse id _ _ => some (app.declared id, .direct)
  | .crud id _ _ _ _ => some (app.declared id, .direct)
  | .native id (.ok _) => some (app.declared id, .direct)
  | .native _ (.error _) => none
  | .validation _ => none
  | .python call =>
    match app.slot call.handlerId with
    | none => none
    | some slot =>
      match app.tables.schemas[call.handlerId]?.join with
      | none => some (slot.declared, slot.wrapped.answer c course)
      | some schema =>
        if course.bodyAccepted schema call.body then
          some (slot.declared, slot.wrapped.answer c course)
        else none

/-- A request to a socket, or one that is dispatched. -/
inductive Arrival where
  | websocket (path : String)
  | http (req : Incoming)

def App.serve (mx : Matchit E Nat) (parsers : Parsers F)
    (compile : String → Option (Bytes → Except String Unit)) (needsRequest : List Bool)
    (hasPool : Bool) (maxBodySize : Nat) (scheme : String) :
    Arrival → Option (Route ι × Answer ι V X)
  | .websocket path => (app.wsRoutes.lookup path).map fun declared => (declared, .direct)
  | .http req =>
    app.answer c course (nativeExit mx parsers
      ⟨app.tables, app.tables.schemaJsons.map (·.bind compile), needsRequest, hasPool, maxBodySize⟩
      scheme req)

end Serving

end JustApi.Py.Registrations
