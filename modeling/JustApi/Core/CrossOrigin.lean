import JustApi.Lib.Result
import JustApi.Core.Http

/-! # CORS

`Cors`, the middleware that answers preflight requests and stamps the responses of the
handler, and what a shared cache may do with its responses. -/
namespace JustApi.Core.CrossOrigin
open JustApi.Core.Http JustApi.Lib.Result

/-! ## Header maps -/

/-- The values under a name, in order. -/
def valuesOf (name : String) (headers : Headers) : List String :=
  (headers.filter fun field => field.1 = name).map Prod.snd

/-- `HeaderMap::insert`: all values under the name give way to the new one. -/
def insertHeader (headers : Headers) (name value : String) : Headers :=
  headers.filter (fun field => field.1 ≠ name) ++ [(name, value)]

theorem valuesOf_append (name : String) (headers headers' : Headers) :
    valuesOf name (headers ++ headers') = valuesOf name headers ++ valuesOf name headers' := by
  simp [valuesOf]

@[simp] theorem valuesOf_insert_self (headers : Headers) (name value : String) :
    valuesOf name (insertHeader headers name value) = [value] := by
  have hnone : valuesOf name (headers.filter fun field => field.1 ≠ name) = [] := by
    simp [valuesOf, List.filter_filter]
  rw [insertHeader, valuesOf_append, hnone]
  simp [valuesOf]

theorem valuesOf_insert_ne {name name' : String} (h : name ≠ name') (headers : Headers)
    (value : String) :
    valuesOf name (insertHeader headers name' value) = valuesOf name headers := by
  have hsame : valuesOf name (headers.filter fun field => field.1 ≠ name') =
      valuesOf name headers := by
    rw [valuesOf, valuesOf, List.filter_filter]
    congr 1
    refine List.filter_congr fun field _ => ?_
    by_cases hf : field.1 = name
    · simp [hf, h]
    · simp [hf]
  rw [insertHeader, valuesOf_append, hsame]
  simp [valuesOf, h.symm]

/-- The characters a header value may have. -/
def isValueChar (c : Char) : Bool := c = '\t' ∨ 32 ≤ c.toNat ∧ c.toNat ≠ 127

def isValue (value : String) : Bool := value.toList.all isValueChar

/-- `HeaderValue::from_str` -/
def parseValue (value : String) : Except String String :=
  if isValue value then .ok value else .error "failed to parse header value"

def isBlank (c : Char) : Bool := c = ' ' ∨ c = '\t'

/-- The names in a list separated by commas, in lower case. -/
def listedNames (value : String) : List String :=
  (value.toList.splitOnP (· = ',')).map fun item =>
    String.ofList ((((item.dropWhile isBlank).reverse.dropWhile isBlank).reverse).map Char.toLower)

/-- The names that the `vary` headers list. -/
def varyNames (headers : Headers) : List String := (valuesOf "vary" headers).flatMap listedNames

/-! ## The middleware -/

structure Cors where
  allowOrigins : List String
  allowMethods : String
  allowHeaders : String
  exposeHeaders : List String
  maxAge : String
  allowCredentials : Bool
  deriving DecidableEq, Repr

/-- No response: an error, or a panic in `unwrap`. -/
inductive Failure where
  | error (e : String)
  | panicked
  deriving DecidableEq, Repr

namespace Cors

def permissive : Cors :=
  ⟨["*"], "GET, POST, PUT, DELETE, PATCH, OPTIONS", "Content-Type, Authorization", [], "86400",
    false⟩

def new : Cors :=
  ⟨[], "GET, POST, PUT, DELETE, PATCH, OPTIONS", "Content-Type, Authorization", [], "86400", false⟩

def allowOrigin (cors : Cors) (origin : String) : Cors :=
  if origin = "*" then { cors with allowOrigins := ["*"] }
  else if cors.allowOrigins = ["*"] then { cors with allowOrigins := [origin] }
  else { cors with allowOrigins := cors.allowOrigins ++ [origin] }

def originMatches (origin : String) (allowed : List String) : Bool :=
  allowed.any fun a => a = "*" ∨ a = origin

def allowAll (cors : Cors) : Bool := cors.allowOrigins.any fun a => a = "*"

/-- The origin that the response is stamped with; without one the request goes through
as it is. -/
def matchedOrigin (cors : Cors) (req : Request) : Option String :=
  let reqOrigin := (req.headers.lookup "origin").bind toStr
  if cors.allowAll then
    if cors.allowCredentials then reqOrigin else some "*"
  else
    match reqOrigin with
    | some origin => if originMatches origin cors.allowOrigins then some origin else none
    | none => none

def addVary (cors : Cors) : Bool := !cors.allowAll

def parseOrigin (origin : String) : Except Failure String :=
  (parseValue origin).mapError fun e => .error ("invalid CORS origin header value: " ++ e)

def preflightHeaders (cors : Cors) (originVal : String) : Headers :=
  [("access-control-allow-origin", originVal),
    ("access-control-allow-methods", cors.allowMethods),
    ("access-control-allow-headers", cors.allowHeaders),
    ("access-control-max-age", cors.maxAge)] ++
  (if cors.allowCredentials then [("access-control-allow-credentials", "true")] else []) ++
  (if cors.exposeHeaders.isEmpty then []
    else [("access-control-expose-headers", ", ".intercalate cors.exposeHeaders)]) ++
  (if cors.addVary then [("vary", "Origin")] else [])

/-- The answer to a preflight request. An invalid value in the configuration panics when
the response is built. -/
def preflight (cors : Cors) (origin : String) : Except Failure Response := do
  let originVal ← parseOrigin origin
  let headers := cors.preflightHeaders originVal
  if headers.all fun field => isValue field.2 then .ok ⟨204, headers, []⟩ else .error .panicked

def insertCredentials (cors : Cors) (headers : Headers) : Headers :=
  if cors.allowCredentials then insertHeader headers "access-control-allow-credentials" "true"
  else headers

def insertExposed (cors : Cors) (headers : Headers) : Except Failure Headers :=
  if cors.exposeHeaders.isEmpty then .ok headers
  else do
    let val ← (parseValue (", ".intercalate cors.exposeHeaders)).mapError fun e =>
      .error ("invalid CORS expose-headers value: " ++ e)
    .ok (insertHeader headers "access-control-expose-headers" val)

def insertVary (cors : Cors) (headers : Headers) : Headers :=
  if cors.addVary then insertHeader headers "vary" "Origin" else headers

/-- The response of the handler, with the headers of the configuration. -/
def stamp (cors : Cors) (origin : String) (resp : Response) : Except Failure Response := do
  let originVal ← parseOrigin origin
  let headers := insertHeader resp.headers "access-control-allow-origin" originVal
  let headers ← cors.insertExposed (cors.insertCredentials headers)
  .ok { resp with headers := cors.insertVary headers }

/-- `next` is the rest of the chain. -/
def handle (cors : Cors) (next : Request → Except String Response) (req : Request) :
    Except Failure Response :=
  match cors.matchedOrigin req with
  | none => (next req).mapError .error
  | some origin =>
    if req.method = .options then cors.preflight origin
    else (next req).mapError .error >>= cors.stamp origin

end Cors

/-! ## What a shared cache may do -/

abbrev Next := Request → Except String Response

/-- The requests agree in everything but the `origin` header. -/
def DifferInOrigin (r₁ r₂ : Request) : Prop :=
  r₁.method = r₂.method ∧ r₁.uri = r₂.uri ∧ r₁.body = r₂.body ∧
    r₁.headers.filter (fun field => field.1 ≠ "origin") =
      r₂.headers.filter fun field => field.1 ≠ "origin"

/-- The middleware answers the request itself. -/
def Cors.answers (cors : Cors) (req : Request) : Bool :=
  (cors.matchedOrigin req).isSome ∧ req.method = .options

def ListsOrigin (resp : Response) : Prop := "origin" ∈ varyNames resp.headers

/-- What the handler's response varies with, the response to the request does too. -/
def KeepsVary (cors : Cors) (next : Next) (req : Request) (resp : Response) : Prop :=
  cors.answers req = false → ∀ own, next req = .ok own →
    ∀ name ∈ varyNames own.headers, name ∈ varyNames resp.headers

def allowOriginOf (resp : Response) : List String :=
  valuesOf "access-control-allow-origin" resp.headers

/-- The responses to two requests can be told apart by a cache as far as they differ. -/
structure CacheSafe (cors : Cors) (next : Next) (r₁ r₂ : Request) (p₁ p₂ : Response) : Prop where
  varies : allowOriginOf p₁ ≠ allowOriginOf p₂ → ListsOrigin p₁ ∧ ListsOrigin p₂
  keeps₁ : KeepsVary cors next r₁ p₁
  keeps₂ : KeepsVary cors next r₂ p₂

/-! ## What the configuration and the handler have to do with it -/

/-- The headers of the handler's own response. -/
def ownHeaders (next : Next) (req : Request) : Headers :=
  match next req with
  | .ok own => own.headers
  | .error _ => []

/-- The origin that is allowed: the one that is stamped, or what the handler says. -/
def Cors.allowed (cors : Cors) (next : Next) (req : Request) : List String :=
  match cors.matchedOrigin req with
  | some origin => [origin]
  | none => valuesOf "access-control-allow-origin" (ownHeaders next req)

/-- The origin is one of a list, or the handler is asked and lists `origin` itself. -/
def Cors.Marked (cors : Cors) (next : Next) (req : Request) : Prop :=
  (cors.matchedOrigin req).isSome ∧ cors.addVary = true ∨
    cors.answers req = false ∧ "origin" ∈ varyNames (ownHeaders next req)

/-- Where the origin is one of a list, the handler lists nothing but `origin`. -/
def Cors.Spares (cors : Cors) (next : Next) (req : Request) : Prop :=
  (cors.matchedOrigin req).isSome → cors.addVary = true → cors.answers req = false →
    ∀ name ∈ varyNames (ownHeaders next req), name = "origin"

/-- The two are allowed the same origin or are both marked, and no list takes the place
of what the handler says. -/
def Cors.Careful (cors : Cors) (next : Next) (r₁ r₂ : Request) : Prop :=
  (cors.allowed next r₁ = cors.allowed next r₂ ∨ cors.Marked next r₁ ∧ cors.Marked next r₂) ∧
    cors.Spares next r₁ ∧ cors.Spares next r₂

variable {cors : Cors} {next : Next} {req : Request} {own resp : Response} {origin : String}

theorem parseOrigin_ok {val : String} (h : Cors.parseOrigin origin = .ok val) : val = origin := by
  obtain h := mapError_eq_ok.mp h
  unfold parseValue at h
  split at h
  · exact (Except.ok.inj h).symm
  · cases h

theorem varyNames_insert_vary (headers : Headers) :
    varyNames (insertHeader headers "vary" "Origin") = ["origin"] := by
  rw [varyNames, valuesOf_insert_self]
  decide

theorem insertCredentials_keeps (cors : Cors) (headers : Headers) {name : String}
    (h : name ≠ "access-control-allow-credentials") :
    valuesOf name (cors.insertCredentials headers) = valuesOf name headers := by
  unfold Cors.insertCredentials
  split
  · exact valuesOf_insert_ne h _ _
  · rfl

theorem insertExposed_keeps {headers headers' : Headers}
    (h : cors.insertExposed headers = .ok headers') {name : String}
    (hname : name ≠ "access-control-expose-headers") :
    valuesOf name headers' = valuesOf name headers := by
  unfold Cors.insertExposed at h
  split at h
  · cases h
    rfl
  · obtain ⟨val, -, hok⟩ := bind_eq_ok.mp h
    cases hok
    exact valuesOf_insert_ne hname _ _

/-- A stamped response: its origin, and what it varies with. -/
theorem stamp_ok (h : cors.stamp origin own = .ok resp) :
    allowOriginOf resp = [origin] ∧
      varyNames resp.headers = if cors.addVary then ["origin"] else varyNames own.headers := by
  obtain ⟨val, hval, hrest⟩ := bind_eq_ok.mp h
  obtain ⟨headers, hheaders, hok⟩ := bind_eq_ok.mp hrest
  cases hok
  have hval := parseOrigin_ok hval
  subst hval
  have horigin : valuesOf "access-control-allow-origin" headers = [val] := by
    rw [insertExposed_keeps hheaders (by decide), insertCredentials_keeps _ _ (by decide),
      valuesOf_insert_self]
  have hown : valuesOf "vary" headers = valuesOf "vary" own.headers := by
    rw [insertExposed_keeps hheaders (by decide), insertCredentials_keeps _ _ (by decide),
      valuesOf_insert_ne (by decide)]
  rw [allowOriginOf, Cors.insertVary]
  split
  · exact ⟨(valuesOf_insert_ne (by decide) _ _).trans horigin, varyNames_insert_vary _⟩
  · exact ⟨horigin, congrArg (fun values => values.flatMap listedNames) hown⟩

theorem valuesOf_ite (name : String) (b : Bool) (headers headers' : Headers) :
    valuesOf name (if b then headers else headers') =
      if b then valuesOf name headers else valuesOf name headers' := by
  cases b <;> rfl

theorem preflight_ok (h : cors.preflight origin = .ok resp) :
    allowOriginOf resp = [origin] ∧
      varyNames resp.headers = if cors.addVary then ["origin"] else [] := by
  obtain ⟨val, hval, hrest⟩ := bind_eq_ok.mp h
  have hval := parseOrigin_ok hval
  subst hval
  dsimp only at hrest
  split at hrest
  · cases hrest
    constructor
    · simp only [allowOriginOf, Cors.preflightHeaders, valuesOf_append, valuesOf_ite]
      simp [valuesOf]
    · have hvary : valuesOf "vary" (cors.preflightHeaders val) =
          if cors.addVary then ["Origin"] else [] := by
        simp only [Cors.preflightHeaders, valuesOf_append, valuesOf_ite]
        simp [valuesOf]
      rw [varyNames, hvary]
      cases cors.addVary with
      | true => decide
      | false => rfl
  · cases hrest

/-- What a response allows and lists, whichever way it was made. -/
theorem handle_ok (h : cors.handle next req = .ok resp) :
    allowOriginOf resp = cors.allowed next req ∧
      varyNames resp.headers =
        if (cors.matchedOrigin req).isSome ∧ cors.addVary = true then ["origin"]
        else if cors.answers req then [] else varyNames (ownHeaders next req) := by
  unfold Cors.handle at h
  cases hmatched : cors.matchedOrigin req with
  | none =>
    rw [hmatched] at h
    have hown : next req = .ok resp := mapError_eq_ok.mp h
    simp [allowOriginOf, Cors.allowed, Cors.answers, ownHeaders, hmatched, hown]
  | some origin =>
    rw [hmatched] at h
    dsimp only at h
    split at h
    · rename_i hoptions
      obtain ⟨horigin, hvary⟩ := preflight_ok h
      simp [Cors.allowed, Cors.answers, hmatched, hoptions, horigin, hvary]
    · rename_i hmethod
      obtain ⟨own, hown, hstamp⟩ := bind_eq_ok.mp h
      have hown : next req = .ok own := mapError_eq_ok.mp hown
      obtain ⟨horigin, hvary⟩ := stamp_ok hstamp
      simp [Cors.allowed, Cors.answers, ownHeaders, hmatched, hmethod, hown, horigin, hvary]

theorem listsOrigin_iff (h : cors.handle next req = .ok resp) :
    ListsOrigin resp ↔ cors.Marked next req := by
  rw [ListsOrigin, (handle_ok h).2, Cors.Marked]
  by_cases hlist : (cors.matchedOrigin req).isSome ∧ cors.addVary = true
  · rw [if_pos hlist]
    exact ⟨fun _ => .inl hlist, fun _ => List.mem_singleton_self _⟩
  · rw [if_neg hlist]
    cases hanswers : cors.answers req with
    | true => simp [hlist]
    | false => simp [hlist]

theorem varyNames_own {name : String} (h : name ∈ varyNames (ownHeaders next req)) :
    ∃ own, next req = .ok own ∧ name ∈ varyNames own.headers := by
  unfold ownHeaders at h
  split at h
  · exact ⟨_, ‹_›, h⟩
  · cases h

theorem keepsVary_iff (h : cors.handle next req = .ok resp) :
    KeepsVary cors next req resp ↔ cors.Spares next req := by
  have hnames := (handle_ok h).2
  constructor
  · intro hkeeps hsome hvary hanswers name hname
    obtain ⟨own, hown, hname⟩ := varyNames_own hname
    have hin := hkeeps hanswers own hown name hname
    rw [hnames, if_pos ⟨hsome, hvary⟩] at hin
    exact List.mem_singleton.mp hin
  · intro hspares hanswers own hown name hname
    have hown : ownHeaders next req = own.headers := by rw [ownHeaders, hown]
    rw [hnames]
    by_cases hlist : (cors.matchedOrigin req).isSome ∧ cors.addVary = true
    · rw [if_pos hlist]
      exact List.mem_singleton.mpr (hspares hlist.1 hlist.2 hanswers name (hown ▸ hname))
    · rw [if_neg hlist, hanswers, hown]
      exact hname

/-- The wildcard without credentials is always careful. -/
theorem careful_of_wildcard (hall : cors.allowAll = true)
    (hcredentials : cors.allowCredentials = false) (next : Next) (r₁ r₂ : Request) :
    cors.Careful next r₁ r₂ := by
  have hmatched : ∀ req, cors.matchedOrigin req = some "*" := by
    intro req
    simp [Cors.matchedOrigin, hall, hcredentials]
  have hspares : ∀ req, cors.Spares next req := by
    intro req _ hvary
    simp [Cors.addVary, hall] at hvary
  exact ⟨.inl (by simp [Cors.allowed, hmatched]), hspares r₁, hspares r₂⟩

theorem permissive_careful (next : Next) (r₁ r₂ : Request) :
    Cors.permissive.Careful next r₁ r₂ := careful_of_wildcard rfl rfl next r₁ r₂

/-- **Responses in a cache.** The responses to two requests that differ in their origin
can be told apart by it, and still vary with all that the handler's do, exactly when the
two are allowed the same origin or are both marked, and no list takes the place of what
the handler says. -/
theorem cors_cache_safe_iff (cors : Cors) (next : Next) (r₁ r₂ : Request) (p₁ p₂ : Response)
    (_ : DifferInOrigin r₁ r₂) (h₁ : cors.handle next r₁ = .ok p₁)
    (h₂ : cors.handle next r₂ = .ok p₂) :
    CacheSafe cors next r₁ r₂ p₁ p₂ ↔ cors.Careful next r₁ r₂ := by
  have hsame : allowOriginOf p₁ = allowOriginOf p₂ ↔
      cors.allowed next r₁ = cors.allowed next r₂ := by
    rw [(handle_ok h₁).1, (handle_ok h₂).1]
  constructor
  · rintro ⟨hvaries, hkeeps₁, hkeeps₂⟩
    refine ⟨?_, (keepsVary_iff h₁).mp hkeeps₁, (keepsVary_iff h₂).mp hkeeps₂⟩
    by_cases heq : allowOriginOf p₁ = allowOriginOf p₂
    · exact .inl (hsame.mp heq)
    · exact .inr ⟨(listsOrigin_iff h₁).mp (hvaries heq).1, (listsOrigin_iff h₂).mp (hvaries heq).2⟩
  · rintro ⟨hor, hspares₁, hspares₂⟩
    refine ⟨fun hne => ?_, (keepsVary_iff h₁).mpr hspares₁, (keepsVary_iff h₂).mpr hspares₂⟩
    obtain ⟨hm₁, hm₂⟩ := hor.resolve_left fun heq => hne (hsame.mpr heq)
    exact ⟨(listsOrigin_iff h₁).mpr hm₁, (listsOrigin_iff h₂).mpr hm₂⟩

def fromOrigin (origin : String) : Request := ⟨.get, "/", [("origin", origin)], []⟩

theorem cors_cache_safe_listed :
    CacheSafe ((Cors.new.allowOrigin "https://a.example").allowOrigin "https://b.example")
      (fun _ => .ok ⟨200, [], []⟩) (fromOrigin "https://a.example") (fromOrigin "https://b.example")
      ⟨200, [("access-control-allow-origin", "https://a.example"), ("vary", "Origin")], []⟩
      ⟨200, [("access-control-allow-origin", "https://b.example"), ("vary", "Origin")], []⟩ := by
  refine (cors_cache_safe_iff _ _ _ _ _ _ ?_ ?_ ?_).mpr ⟨.inr ⟨?_, ?_⟩, ?_, ?_⟩
  · exact ⟨rfl, rfl, rfl, rfl⟩
  · rfl
  · rfl
  · exact .inl ⟨rfl, rfl⟩
  · exact .inl ⟨rfl, rfl⟩
  · exact fun _ _ _ name hname => by cases hname
  · exact fun _ _ _ name hname => by cases hname

/-- Without the header nothing is said about what the response varies with. -/
theorem absent_origin_unmarked : ¬ ∀ cors next r₁ r₂ p₁ p₂, DifferInOrigin r₁ r₂ →
    Cors.handle cors next r₁ = .ok p₁ → Cors.handle cors next r₂ = .ok p₂ →
    CacheSafe cors next r₁ r₂ p₁ p₂ := by
  intro h
  have hsafe := h (Cors.new.allowOrigin "https://a.example") (fun _ => .ok ⟨200, [], []⟩)
    (fromOrigin "https://a.example") ⟨.get, "/", [], []⟩
    ⟨200, [("access-control-allow-origin", "https://a.example"), ("vary", "Origin")], []⟩
    ⟨200, [], []⟩ ⟨rfl, rfl, rfl, rfl⟩ rfl rfl
  have hlists := (hsafe.varies (by decide)).2
  cases hlists

end JustApi.Core.CrossOrigin
