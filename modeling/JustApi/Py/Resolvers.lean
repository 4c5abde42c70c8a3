import JustApi.Py.Dependencies

/-! # Resolvers of any calls

The resolvers and the wrapper with the call of a dependency as a parameter, `run`. Those of the
Python app are instances. -/
namespace JustApi.Py.Dependencies

section Resolving

variable {ι V X : Type} [DecidableEq ι] (c : Callables ι) (outcome : Nat → Except X V)
  (run : ι → List (String × V) → Resolve ι V X V)

/-- A call that is remembered. -/
def invokeBy (u : Depends ι) (kwargs : List (String × V)) : Resolve ι V X V := do
  let res ← run u.dependency kwargs
  if u.useCache then
    modify fun r => { r with depCache := r.depCache.insert u.dependency res }
  pure res

def resolveParamBy (resolveKwargs : Signature ι → Resolve ι V X (List (String × V)))
    (param : String × Param ι) : Resolve ι V X (String × V) :=
  match param.2 with
  | .value => do
    let val ← point outcome
    pure (param.1, val)
  | .depends u => do
    match ← cached outcome u with
    | some res => pure (param.1, res)
    | none =>
      let _ ← point outcome
      let depKwargs ← resolveKwargs (c.signature u.dependency)
      let res ← invokeBy run u depKwargs
      pure (param.1, res)

def resolveKwargsBy (recursionError : X) :
    Nat → Signature ι → Resolve ι V X (List (String × V))
  | 0, _ => throw recursionError
  | depth + 1, sig => do
    let _ ← point outcome
    sig.mapM (resolveParamBy c outcome run (resolveKwargsBy recursionError depth))

def resolveListBy (recursionError : X) (depth : Nat) (deps : List (Depends ι)) :
    Resolve ι V X Unit :=
  forM deps fun dep => do
    let _ ← point outcome
    let depKwargs ← resolveKwargsBy c outcome run recursionError depth (c.signature dep.dependency)
    match ← cached outcome dep with
    | some _ => pure ()
    | none =>
      let _ ← invokeBy run dep depKwargs
      pure ()

/-- What is tried in a wrapper. -/
def handleBy (recursionError : X) (depth : Nat) (route : Route ι) : Resolve ι V X V := do
  resolveListBy c outcome run recursionError depth route.allDeps
  let kwargs ← resolveKwargsBy c outcome run recursionError depth route.signature
  let result ← logged outcome (.handler kwargs)
  if route.hasBg then
    let _ ← logged outcome fun _ => .background
  pure result

/-- The generators are closed in the reverse order. -/
def cleanUp : Resolve ι V X Unit := do forM (← get).depCleanup.reverse (close outcome)

def wrapperBy (recursionError : X) (depth : Nat) (handles : X → Bool) (route : Route ι) :
    Resolve ι V X V :=
  tryFinally
    (tryCatch (handleBy c outcome run recursionError depth route)
      (handleException outcome handles))
    (cleanUp outcome)

/-! ## The resolvers of the app -/

variable (mode : Mode)

theorem resolveKwargs_eq (recursionError : X) (depth : Nat) :
    resolveKwargs mode c outcome recursionError depth =
      resolveKwargsBy c outcome (execute mode c outcome) recursionError depth := by
  induction depth with
  | zero => rfl
  | succ depth ih =>
    funext sig
    rw [resolveKwargs, resolveKwargsBy, ih]
    rfl

theorem resolveDependenciesList_eq (recursionError : X) (depth : Nat) (deps : List (Depends ι)) :
    resolveDependenciesList mode c outcome recursionError depth deps =
      resolveListBy c outcome (execute mode c outcome) recursionError depth deps := by
  rw [resolveDependenciesList, resolveListBy, resolveKwargs_eq]
  rfl

theorem wrapper_eq (recursionError : X) (depth : Nat) (handles : X → Bool) (route : Route ι) :
    wrapper mode c outcome recursionError depth handles route =
      wrapperBy c outcome (execute mode c outcome) recursionError depth handles route := by
  rw [wrapper, wrapperBy, handleBy, resolveDependenciesList_eq, resolveKwargs_eq]
  rfl

end Resolving

end JustApi.Py.Dependencies
