import JustApi.Lib.Text
import JustApi.Core.Routing

/-! # The gateway

`GatewayState::load_config`: the router that is built from a configuration. The maps of
the configuration are listed as an iteration over them goes; what is inserted in vain is
ignored. -/
namespace JustApi.Core.Gateway
open JustApi.Lib.Text JustApi.Core.Http JustApi.Core.Routing

structure GatewayRoute where
  upstream : String
  rateLimitCapacity : Option Nat
  rateLimitReplenishRate : Option Nat
  wasmPlugin : Option String
  deriving DecidableEq, Repr

/-- The routes of each path by method. -/
abbrev Routes := List (String × List (String × GatewayRoute))

def parseMethod (method : String) : Option Method :=
  match toUppercase method with
  | "GET" => some .get
  | "POST" => some .post
  | "PUT" => some .put
  | "DELETE" => some .delete
  | "PATCH" => some .patch
  | "OPTIONS" => some .options
  | _ => none

section Load

variable {E : Type} (mx : Matchit E GatewayRoute)

/-- The router of a configuration. -/
def loadConfig (routes : Routes) : Router GatewayRoute :=
  routes.foldl (fun router (path, methods) =>
    methods.foldl (fun router (name, route) =>
      match parseMethod name with
      | some method => (router.insert mx method path route).2
      | none => router) router) ⟨∅, [], some 0⟩

/-- What the router resolves a request to, with its cache still empty. -/
def resolve (router : Router GatewayRoute) (method : Method) (path : String) :
    Except RouterError (RouteResolution GatewayRoute) :=
  ((⟨[router], fun _ => .new 16384, 1⟩ : World GatewayRoute).resolve mx router method path).1

end Load

/-- The same maps, iterated over in another order. -/
def Reordered (routes routes' : Routes) : Prop :=
  ∃ between, routes.Perm between ∧
    List.Forall₂ (fun entry entry' => entry.1 = entry'.1 ∧ entry.2.Perm entry'.2) between routes'

/-- The same file always gives the same routing. -/
def Deterministic {E : Type} (mx : Matchit E GatewayRoute) (routes : Routes) : Prop :=
  ∀ routes₁ routes₂, Reordered routes routes₁ → Reordered routes routes₂ → ∀ method path,
    resolve mx (loadConfig mx routes₁) method path = resolve mx (loadConfig mx routes₂) method path

end JustApi.Core.Gateway
