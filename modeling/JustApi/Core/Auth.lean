import JustApi.Lib.Text
import JustApi.Core.Http

/-! # JWT authentication

`JwtAuth`, its rules by path, and the server that `with_oauth2_password` builds. The
verification of tokens comes from the crate `jsonwebtoken` and is a parameter: a token is
decoded to its claims or not at all. -/
namespace JustApi.Core.Auth
open JustApi.Lib.Text JustApi.Core.Http

/-- Claims; numbers are never looked into. -/
inductive Json where
  | null
  | bool (b : Bool)
  | number (text : String)
  | string (s : String)
  | array (values : List Json)
  | object (fields : List (String × Json))

namespace Json

def get (key : String) : Json → Option Json
  | .object fields => fields.lookup key
  | _ => none

def asStr : Json → Option String
  | .string s => some s
  | _ => none

def asArray : Json → Option (List Json)
  | .array values => some values
  | _ => none

end Json

inductive JwtRequirement where
  | none
  | required
  | roles (required : List String)
  | scopes (required : List String)
  deriving DecidableEq, Repr

/-- `decode` is `jsonwebtoken::decode` with the key and the validation. -/
structure JwtAuth where
  decode : String → Option Json
  routeRules : List (String × JwtRequirement)
  defaultRequirement : JwtRequirement

/-- The part of a request that is looked at; `path` is that of the URI. -/
structure Request where
  path : String
  headers : Headers
  deriving DecidableEq, Repr

/-- What a middleware does with a request: it runs the next one, with claims for it, or
answers itself with a status and a detail. -/
inductive Passage where
  | next (claims : Option Json)
  | answer (status : Nat) (detail : String)

def checkClaims (claims : Json) : JwtRequirement → Except String Unit
  | .none | .required => .ok ()
  | .roles required =>
    match (claims.get "roles").bind Json.asArray with
    | some list =>
      let roles := list.filterMap Json.asStr
      if required.any roles.contains then .ok () else .error "missing required role"
    | none => .error "missing roles claim"
  | .scopes required =>
    let claim := (claims.get "scope").or (claims.get "scopes")
    let scopes := ((claim.bind Json.asStr).map splitWhitespace).or
      ((claim.bind Json.asArray).map fun list => list.filterMap Json.asStr)
    match scopes with
    | some scopes =>
      if required.any scopes.contains then .ok () else .error "missing required scope"
    | none => .error "missing scope/scopes claim"

namespace JwtAuth

def requireFor (jwt : JwtAuth) (start : String) (requirement : JwtRequirement) : JwtAuth :=
  { jwt with routeRules := jwt.routeRules ++ [(start, requirement)] }

/-- The requirement of the first rule that the path starts with. -/
def requirementForPath (jwt : JwtAuth) (path : String) : JwtRequirement :=
  ((jwt.routeRules.find? fun rule => startsWith path rule.1).map Prod.snd).getD
    jwt.defaultRequirement

end JwtAuth

/-- The token in the `authorization` header. -/
def bearerToken (req : Request) : Option String := do
  let header ← (req.headers.lookup "authorization").bind toStr
  if startsWith header "Bearer " then some (String.ofList (header.toList.drop 7)) else none

def JwtAuth.handle (jwt : JwtAuth) (req : Request) : Passage :=
  match jwt.requirementForPath req.path with
  | .none => .next none
  | requirement =>
    match bearerToken req with
    | none => .answer 401 "missing or invalid authorization header"
    | some token =>
      match jwt.decode token with
      | some claims =>
        match checkClaims claims requirement with
        | .ok () => .next (some claims)
        | .error detail => .answer 403 detail
      | none => .answer 401 "invalid token"

/-! ## Servers -/

/-- `decode` is that of the provider's key, algorithm and issuer. -/
structure OAuth2Password where
  tokenPath : String
  decode : String → Option Json

def OAuth2Password.new (decode : String → Option Json) : OAuth2Password := ⟨"/token", decode⟩

def OAuth2Password.jwtAuth (oauth2 : OAuth2Password) : JwtAuth := ⟨oauth2.decode, [], .required⟩

/-- The middlewares around the handler, the outermost first. -/
structure Server where
  chain : List JwtAuth

namespace Server

def new : Server := ⟨[]⟩

def withOauth2Password (server : Server) (oauth2 : OAuth2Password) : Server :=
  ⟨server.chain ++ [oauth2.jwtAuth.requireFor oauth2.tokenPath .none]⟩

/-- Where a request ends up: at the handler, or with the answer of a middleware. -/
def run (server : Server) (req : Request) : Passage :=
  server.chain.foldr (fun jwt rest =>
    match jwt.handle req with
    | .next claims =>
      match rest with
      | .next claims' => .next (claims'.or claims)
      | answer => answer
    | answer => answer) (.next none)

end Server

/-! ## Who reaches the handler -/

/-- The request carries a token that is decoded. -/
def HasValidToken (oauth2 : OAuth2Password) (req : Request) : Prop :=
  ∃ token claims, bearerToken req = some token ∧ oauth2.decode token = some claims

/-- The request reaches the handler. -/
def Reaches (server : Server) (req : Request) : Prop := ∃ claims, server.run req = .next claims

/-- Without a valid token a request to this path does not reach the handler, unless it is
the token path. -/
def Guarded (oauth2 : OAuth2Password) (path : String) : Prop :=
  ∀ req : Request, req.path = path → ¬ HasValidToken oauth2 req →
    Reaches (Server.new.withOauth2Password oauth2) req → path = oauth2.tokenPath

variable {oauth2 : OAuth2Password} {req : Request}

theorem requirement_oauth2 (oauth2 : OAuth2Password) (path : String) :
    (oauth2.jwtAuth.requireFor oauth2.tokenPath .none).requirementForPath path =
      if startsWith path oauth2.tokenPath then .none else .required := by
  cases h : startsWith path oauth2.tokenPath <;>
    simp [JwtAuth.requirementForPath, JwtAuth.requireFor, OAuth2Password.jwtAuth, h]

theorem reaches_oauth2 (oauth2 : OAuth2Password) (req : Request) :
    Reaches (Server.new.withOauth2Password oauth2) req ↔
      ∃ claims, (oauth2.jwtAuth.requireFor oauth2.tokenPath .none).handle req = .next claims := by
  simp only [Reaches, Server.run, Server.withOauth2Password, Server.new, List.nil_append,
    List.foldr_cons, List.foldr_nil]
  cases h : (oauth2.jwtAuth.requireFor oauth2.tokenPath .none).handle req with
  | next claims => simp
  | answer status detail => simp

/-- The handler is reached with a valid token, or on a path that starts with the token
path. -/
theorem reaches_iff (oauth2 : OAuth2Password) (req : Request) :
    Reaches (Server.new.withOauth2Password oauth2) req ↔
      startsWith req.path oauth2.tokenPath = true ∨ HasValidToken oauth2 req := by
  rw [reaches_oauth2, JwtAuth.handle, requirement_oauth2]
  cases hstart : startsWith req.path oauth2.tokenPath with
  | true => simp
  | false =>
    cases htoken : bearerToken req with
    | none => simp [HasValidToken, htoken]
    | some token =>
      have hdecode : (oauth2.jwtAuth.requireFor oauth2.tokenPath .none).decode = oauth2.decode := rfl
      cases hclaims : oauth2.decode token with
      | none => simp [HasValidToken, htoken, hclaims, hdecode]
      | some claims => simp [HasValidToken, htoken, hclaims, hdecode, checkClaims]

/-- **The exempted paths.** The token path is the only one that is exempted exactly when
no other path starts with it. -/
theorem oauth2_guards_iff (oauth2 : OAuth2Password) (path : String) :
    Guarded oauth2 path ↔
      (startsWith path oauth2.tokenPath = true → path = oauth2.tokenPath) := by
  constructor
  · intro h hstart
    refine h ⟨path, []⟩ rfl ?_ ((reaches_iff oauth2 _).mpr (.inl hstart))
    rintro ⟨token, claims, htoken, -⟩
    cases htoken
  · rintro h req rfl hnot hreaches
    exact h (((reaches_iff oauth2 req).mp hreaches).resolve_right hnot)

/-- With the default token path, `/tokens/admin` is open to everyone. -/
theorem tokens_admin_open : ¬ ∀ path, Guarded (.new fun _ => none) path := by
  intro h
  have hnone : ¬ HasValidToken (.new fun _ => none) ⟨"/tokens/admin", []⟩ := by
    rintro ⟨token, claims, htoken, -⟩
    cases htoken
  have hpath := h "/tokens/admin" ⟨"/tokens/admin", []⟩ rfl hnone
    ((reaches_iff _ _).mpr (.inl rfl))
  revert hpath
  decide

end JustApi.Core.Auth
