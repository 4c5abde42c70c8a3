import Mathlib.Data.List.AList

/-! # Dependency injection

The resolvers of the Python app and the wrapper of a handler. What a callable does when it
is called is its own code: `outcome` says, for each point of a request at which something
may raise, whether it does and otherwise which object comes of it. -/
namespace JustApi.Py.Dependencies

/-- What `inspect` sees in a callable. -/
inductive Kind where
  | plain
  | coroutine
  | generator
  | asyncGenerator
  deriving DecidableEq, Repr

structure Depends (ι : Type) where
  dependency : ι
  useCache : Bool
  deriving DecidableEq, Repr

/-- A parameter whose default is a `Depends`, or one whose value is looked up in the
request. -/
inductive Param (ι : Type) where
  | depends (u : Depends ι)
  | value
  deriving DecidableEq, Repr

abbrev Signature (ι : Type) := List (String × Param ι)

structure Callables (ι : Type) where
  kind : ι → Kind
  signature : ι → Signature ι

/-- A handler with the dependencies of its app and of its route. -/
structure Route (ι : Type) where
  allDeps : List (Depends ι)
  signature : Signature ι
  coroutine : Bool
  hasBg : Bool

inductive Event (ι V X : Type) where
  /-- Execution `n` of a dependency, of a generator up to its first value. -/
  | ran (n : Nat) (dependency : ι) (kwargs : List (String × V)) (outcome : Except X V)
  /-- A coroutine or an async generator that was made and is not started. -/
  | unstarted (dependency : ι)
  | handler (kwargs : List (String × V)) (outcome : Except X V)
  | background
  | closed (n : Nat)

structure Request (ι V X : Type) where
  depCache : AList fun _ : ι => V
  /-- The executions whose generators are to be closed. -/
  depCleanup : List Nat
  log : List (Event ι V X)
  /-- The number of points passed. -/
  clock : Nat

def Request.new {ι V X : Type} : Request ι V X := ⟨∅, [], [], 0⟩

abbrev Resolve (ι V X α : Type) := EStateM X (Request ι V X) α

/-- A wrapper and its resolvers are written twice. -/
inductive Mode where
  | async
  | sync
  deriving DecidableEq, Repr

section Resolving

variable {ι V X : Type} [DecidableEq ι] (mode : Mode) (c : Callables ι) (outcome : Nat → Except X V)

/-- Something that may raise. -/
def point : Resolve ι V X V := fun r =>
  match outcome r.clock with
  | .ok v => .ok v { r with clock := r.clock + 1 }
  | .error e => .error e { r with clock := r.clock + 1 }

/-- A point that the log shows. -/
def logged (event : Except X V → Event ι V X) : Resolve ι V X V := do
  modify fun r => { r with log := r.log ++ [event (outcome r.clock)] }
  point outcome

def IsGenerator (k : Kind) : Prop := k = .generator ∨ k = .asyncGenerator

instance (k : Kind) : Decidable (IsGenerator k) := inferInstanceAs (Decidable (_ ∨ _))

/-- A call of a dependency. Without `await` a coroutine or an async generator is an object
like any other. -/
def execute (dependency : ι) (kwargs : List (String × V)) : Resolve ι V X V :=
  if mode = .sync ∧ (c.kind dependency = .coroutine ∨ c.kind dependency = .asyncGenerator) then
    logged outcome fun _ => .unstarted dependency
  else do
    let n := (← get).clock
    let res ← logged outcome (.ran n dependency kwargs)
    if IsGenerator (c.kind dependency) then
      modify fun r => { r with depCleanup := r.depCleanup ++ [n] }
    pure res

/-- The object in the cache, if it is to be used; the callable is hashed for that. -/
def cached (u : Depends ι) : Resolve ι V X (Option V) :=
  if u.useCache then do
    let _ ← point outcome
    pure ((← get).depCache.lookup u.dependency)
  else pure none

/-- A call that is remembered, as both resolvers make it. -/
def invoke (u : Depends ι) (kwargs : List (String × V)) : Resolve ι V X V := do
  let res ← execute mode c outcome u.dependency kwargs
  if u.useCache then
    modify fun r => { r with depCache := r.depCache.insert u.dependency res }
  pure res

/-- One parameter of `_resolve_kwargs`. -/
def resolveParam (resolveKwargs : Signature ι → Resolve ι V X (List (String × V)))
    (param : String × Param ι) : Resolve ι V X (String × V) :=
  match param.2 with
  | .value => do
    let val ← point outcome
    pure (param.1, val)
  | .depends u => do
    match ← cached outcome u with
    | some res => pure (param.1, res)
    | none =>
      let _ ← point outcome
      let depKwargs ← resolveKwargs (c.signature u.dependency)
      let res ← invoke mode c outcome u depKwargs
      pure (param.1, res)

/-- `depth` calls fit on the stack. -/
def resolveKwargs (recursionError : X) : Nat → Signature ι → Resolve ι V X (List (String × V))
  | 0, _ => throw recursionError
  | depth + 1, sig => do
    -- the query string is decoded
    let _ ← point outcome
    sig.mapM (resolveParam mode c outcome (resolveKwargs recursionError depth))

def resolveDependenciesList (recursionError : X) (depth : Nat) (deps : List (Depends ι)) :
    Resolve ι V X Unit :=
  forM deps fun dep => do
    let _ ← point outcome
    -- the parameters are resolved before the cache is looked at
    let depKwargs ← resolveKwargs mode c outcome recursionError depth (c.signature dep.dependency)
    match ← cached outcome dep with
    | some _ => pure ()
    | none =>
      let _ ← invoke mode c outcome dep depKwargs
      pure ()

/-- An exception handler is called if one is registered. -/
def handleException (handles : X → Bool) (e : X) : Resolve ι V X V :=
  if handles e then point outcome else throw e

/-- A generator is closed, and what that raises is passed over. -/
def close (n : Nat) : Resolve ι V X Unit := do
  modify fun r => { r with log := r.log ++ [.closed n] }
  tryCatch (do let _ ← point outcome) fun _ => pure ()

/-- `async_wrapper` and `sync_wrapper`. -/
def wrapper (recursionError : X) (depth : Nat) (handles : X → Bool) (route : Route ι) :
    Resolve ι V X V :=
  tryFinally
    (tryCatch
      (do
        resolveDependenciesList mode c outcome recursionError depth route.allDeps
        let kwargs ← resolveKwargs mode c outcome recursionError depth route.signature
        let result ← logged outcome (.handler kwargs)
        if route.hasBg then
          let _ ← logged outcome fun _ => .background
        pure result)
      (handleException outcome handles))
    (do forM (← get).depCleanup.reverse (close outcome))

/-- What a request has logged when its handler's wrapper is done. -/
def wrapperLog (recursionError : X) (depth : Nat) (handles : X → Bool) (route : Route ι) :
    List (Event ι V X) :=
  match wrapper mode c outcome recursionError depth handles route .new with
  | .ok _ r => r.log
  | .error _ r => r.log

end Resolving

/-- Which of the two wrappers a route gets. -/
def Route.isAsync {ι : Type} (c : Callables ι) (route : Route ι) : Bool :=
  route.coroutine || route.signature.any (fun p => match p.2 with
    | .depends u => c.kind u.dependency == .coroutine
    | .value => false) ||
    route.allDeps.any fun u => c.kind u.dependency == .coroutine

end JustApi.Py.Dependencies
