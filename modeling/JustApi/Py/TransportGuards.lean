import JustApi.Lib.Raising
import JustApi.Py.Transports

/-! # Middlewares before the handlers

Over TCP no handler is started without an upgrade that a middleware of the chain has not
passed on. A WebSocket upgrade and HTTP/3 come to the handlers past the chain. -/
namespace JustApi.Py.Transports
open JustApi.Lib.Raising
open JustApi.Core.Http JustApi.Core.Routing JustApi.Py.Pipeline
open JustApi.Core.Auth (Json JwtAuth)
open JustApi.Core.CrossOrigin (Failure)

/-! ## The law -/

/-- A handler of the app begins. -/
def Event.Starts : Event → Prop
  | .passed _ => False
  | .started _ | .socket _ => True

/-- The request carries a token that is decoded. -/
def HasToken (decode : String → Option Json) (req : Incoming) : Prop :=
  ∃ token claims, Core.Auth.bearerToken ⟨req.path, req.headers⟩ = some token ∧
    decode token = some claims

/-- What a middleware that passes a request on has seen in it. -/
def Vouched (req : Incoming) : Middleware → Prop
  | .jwt auth => ∃ claims, auth.handle ⟨req.path, req.headers⟩ = .next claims
  | _ => True

/-- Before a handler begins, the middlewares have passed the request on. -/
def Guarded (mws : List Middleware) (req : Incoming) (events : List Event) : Prop :=
  ∀ before event after, events = before ++ event :: after → event.Starts →
    ∀ mw ∈ mws, .passed mw ∈ before ∧ Vouched req mw

/-- A handler begins only after every middleware of the configuration, and where there is
authentication only for a request with a token. -/
structure Enforced (config : Config) (req : Incoming) (events : List Event) : Prop where
  passed : ∀ before event after, events = before ++ event :: after → event.Starts →
    ∀ mw ∈ config.chain, .passed mw ∈ before
  token : ∀ decode, config.jwtAuth = some decode → ∀ event ∈ events, event.Starts →
    HasToken decode req

theorem guarded_nil (mws : List Middleware) (req : Incoming) : Guarded mws req [] := by
  intro before event after h
  cases before <;> cases h

theorem Guarded.passed {mw : Middleware} {mws : List Middleware} {req : Incoming}
    {events : List Event} (hmw : Vouched req mw) (h : Guarded mws req events) :
    Guarded (mw :: mws) req (.passed mw :: events) := by
  intro before event after hsplit hstarts m hm
  rcases before with _ | ⟨first, before⟩
  · obtain ⟨rfl, -⟩ := List.cons.inj hsplit
    exact hstarts.elim
  · obtain ⟨rfl, htail⟩ := List.cons.inj hsplit
    rcases List.mem_cons.mp hm with rfl | hm
    · exact ⟨List.mem_cons_self, hmw⟩
    · obtain ⟨hpassed, hvouched⟩ := h before event after htail hstarts m hm
      exact ⟨List.mem_cons_of_mem _ hpassed, hvouched⟩

/-- The middleware of `set_jwt_auth` passes on what has a token. -/
theorem hasToken_of_vouched {decode : String → Option Json} {req : Incoming}
    (h : Vouched req (.jwt ⟨decode, [], .required⟩)) : HasToken decode req := by
  obtain ⟨claims, h⟩ := h
  unfold JwtAuth.handle at h
  have hrequired :
    (⟨decode, [], .required⟩ : JwtAuth).requirementForPath req.path = .required := rfl
  dsimp only at h
  rw [hrequired] at h
  dsimp only at h
  split at h
  · cases h
  next token htoken =>
    split at h
    next claims' hclaims => exact ⟨token, claims', htoken, hclaims⟩
    · cases h

theorem jwt_mem_chain {config : Config} {decode : String → Option Json}
    (h : config.jwtAuth = some decode) : .jwt ⟨decode, [], .required⟩ ∈ config.chain := by
  simp [Config.chain, h]

/-- Without a middleware there is nothing to enforce. -/
theorem enforced_of_chain_nil {config : Config} (h : config.chain = []) (req : Incoming)
    (events : List Event) : Enforced config req events where
  passed := fun _ _ _ _ _ mw hmw => by
    rw [h] at hmw
    cases hmw
  token := fun decode hdecode => by
    have hmem := jwt_mem_chain hdecode
    rw [h] at hmem
    cases hmem

theorem enforced_of_guarded {config : Config} {req : Incoming} {events : List Event}
    (h : Guarded config.chain req events) : Enforced config req events where
  passed := fun before event after hsplit hstarts mw hmw =>
    (h before event after hsplit hstarts mw hmw).1
  token := by
    intro decode hdecode event hevent hstarts
    obtain ⟨before, after, hsplit⟩ := List.append_of_mem hevent
    exact hasToken_of_vouched
      (h before event after hsplit hstarts _ (jwt_mem_chain hdecode)).2

/-- What begins without a middleware is not enforced when there is one. -/
theorem chain_nil_of_enforced {config : Config} {req : Incoming} {event : Event}
    (hstarts : event.Starts) (h : Enforced config req [event]) : config.chain = [] := by
  rw [List.eq_nil_iff_forall_not_mem]
  intro mw hmw
  cases h.passed [] event [] rfl hstarts mw hmw

/-! ## The chain -/

section Chain

variable {E F H S : Type} (crates : Crates E F) (server : Server H S) (config : Config)
  (moment : Moment F)

/-- What holds of the log when a computation ends, with a response or not. -/
def Logs {α : Type} (P : List Event → Prop) (x : EStateM.Result Failure (List Event) α) : Prop :=
  Ends (fun _ events => P events) (fun _ events => P events) x

variable {P : List Event → Prop} {events : List Event}

theorem logs_orThrow {α : Type} (x : Except Failure α) (h : P events) :
    Logs P ((orThrow x : Serve α) events) := by
  cases x <;> exact h

theorem Logs.bind {α β : Type} {x : Serve α} {f : α → Serve β} (h : Logs P (x events))
    (hf : ∀ a events, P events → Logs P (f a events)) : Logs P ((x >>= f) events) := by
  unfold Logs
  rw [ends_bind]
  exact h.mono (fun a events ha => hf a events ha) fun _ _ he => he

theorem dispatch_log (scheme : String) (req : Incoming) :
    Logs (fun t => t = events ++ ((handlerOf (nativeExit crates.matchit crates.parsers server scheme
      req)).map Event.started).toList) (dispatch crates server moment scheme req events) := by
  unfold dispatch
  dsimp only
  cases handlerOf (nativeExit crates.matchit crates.parsers server scheme req) with
  | none => exact logs_orThrow _ (List.append_nil _).symm
  | some id =>
    have hlogged : Logs (fun t => t = events ++ [.started id])
      (log (.started id) events) := rfl
    exact hlogged.bind fun _ _ h => logs_orThrow _ h

/-- A middleware answers by itself, or runs what is next with the same request and
whatever it found in it. -/
theorem handle_log (mw : Middleware) (req : Incoming) (next : Incoming → Serve Response)
    (hself : P events)
    (hnext : ∀ req' : Incoming, req'.path = req.path → req'.headers = req.headers →
      Vouched req mw → Logs P (next req' events)) :
    Logs P (mw.handle crates moment req next events) := by
  unfold Middleware.handle
  cases mw with
  | circuitBreaker =>
    dsimp only
    split
    · exact hnext req rfl rfl trivial
    · exact hself
  | coalescer =>
    rcases moment.shared with _ | e | resp
    · exact hnext req rfl rfl trivial
    · exact hself
    · exact hself
  | securityHeaders sh =>
    exact (hnext req rfl rfl trivial).bind fun _ _ h => logs_orThrow _ h
  | jwt auth =>
    dsimp only
    rcases h : auth.handle ⟨req.path, req.headers⟩ with ⟨_ | claims⟩ | ⟨status, detail⟩
    · exact hnext req rfl rfl ⟨_, h⟩
    · exact hnext _ rfl rfl ⟨_, h⟩
    · exact hself
  | cors policy =>
    dsimp only
    rcases policy.matchedOrigin ⟨req.method, req.path, req.headers, req.body⟩ with _ | origin
    · exact hnext req rfl rfl trivial
    · dsimp only
      split
      · exact logs_orThrow _ hself
      · exact (hnext req rfl rfl trivial).bind fun _ _ h => logs_orThrow _ h
  | gateway =>
    dsimp only
    rcases Core.Gateway.resolve crates.gatewayMatchit moment.gateway req.method req.path with _ | _
    · exact hnext req rfl rfl trivial
    · exact hself

theorem Vouched.congr {req req' : Incoming} (hpath : req'.path = req.path)
    (hheaders : req'.headers = req.headers) {mw : Middleware} :
    Vouched req' mw ↔ Vouched req mw := by
  cases mw <;> simp only [Vouched, hpath, hheaders]

/-- The chain ends with a log in which no handler comes before a middleware. -/
theorem run_log (mws : List Middleware) (req : Incoming) (events : List Event) :
    Logs (fun t => ∃ more, t = events ++ more ∧ Guarded mws req more)
      (run crates server moment mws req events) := by
  induction mws generalizing req events with
  | nil =>
    exact (dispatch_log crates server moment "http" req).mono
      (fun _ _ h => ⟨_, h, fun _ _ _ _ _ _ hmw => by cases hmw⟩)
      fun _ _ h => ⟨_, h, fun _ _ _ _ _ _ hmw => by cases hmw⟩
  | cons mw mws ih =>
    refine handle_log crates moment mw req _ ⟨[], (List.append_nil _).symm, guarded_nil _ _⟩ ?_
    intro req' hpath hheaders hvouched
    have hrest : ∀ t, (∃ more, t = (events ++ [.passed mw]) ++ more ∧ Guarded mws req' more) →
        ∃ more, t = events ++ more ∧ Guarded (mw :: mws) req more := by
      rintro t ⟨more, rfl, hmore⟩
      refine ⟨.passed mw :: more, List.append_assoc _ _ _, .passed hvouched ?_⟩
      intro before event after hsplit hstarts m hm
      obtain ⟨hpassed, hm⟩ := hmore before event after hsplit hstarts m hm
      exact ⟨hpassed, (Vouched.congr hpath hheaders).mp hm⟩
    exact (ih req' (events ++ [.passed mw])).mono (fun _ t h => hrest t h) fun _ t h => hrest t h

theorem finalLog_of_logs {α : Type} {x : EStateM.Result Failure (List Event) α} (h : Logs P x) :
    P (finalLog x) := by
  cases x <;> exact h

/-! ## Arrivals -/

/-- Where a request comes to a handler of the app past the chain. -/
def Bypasses (arrival : Arrival) : Prop :=
  match arrival with
  | .tcp _ => refusal crates arrival.req = none ∧ (upgradeKey arrival.req).isSome = true ∧
    arrival.req.path ∈ config.wsRoutes
  | .http3 _ => config.http3 = true ∧ arrival.req.body.length ≤ maxHttp3Body ∧
    (handlerOf (nativeExit crates.matchit crates.parsers server "https" arrival.req)).isSome = true

theorem guarded_tcp (req : Incoming)
    (h : ¬ Bypasses crates server config (.tcp req)) :
    Guarded config.chain (Arrival.tcp req).req
      (served crates server config moment (.tcp req)) := by
  refine finalLog_of_logs (P := fun t => Guarded config.chain (Arrival.tcp req).req t) ?_
  unfold handleRequest
  cases hrefusal : refusal crates (Arrival.tcp req).req with
  | some resp => exact guarded_nil _ _
  | none =>
    cases hkey : upgradeKey (Arrival.tcp req).req with
    | some key =>
      dsimp only
      have hpath : ¬ (moment.upgraded ∧ (Arrival.tcp req).req.path ∈ config.wsRoutes) :=
        fun hpath => h ⟨hrefusal, by rw [hkey]; rfl, hpath.2⟩
      rw [if_neg hpath]
      exact guarded_nil _ _
    | none =>
      dsimp only
      cases wasmAnswer config (Arrival.tcp req).req with
      | some resp => exact guarded_nil _ _
      | none =>
        dsimp only
        unfold Logs
        rw [ends_tryCatch]
        refine (run_log crates server moment config.chain (Arrival.tcp req).req []).mono ?_ ?_
        · rintro _ _ ⟨more, rfl, hmore⟩
          exact hmore
        · rintro e _ ⟨more, rfl, hmore⟩
          cases e <;> exact hmore

theorem guarded_http3 (req : Incoming) (h : ¬ Bypasses crates server config (.http3 req)) :
    Guarded config.chain (Arrival.http3 req).req
      (served crates server config moment (.http3 req)) := by
  unfold served
  dsimp only
  split
  next htrue =>
    refine finalLog_of_logs (P := fun t => Guarded config.chain (Arrival.http3 req).req t) ?_
    unfold handleHttp3
    split
    · exact guarded_nil _ _
    next hbody =>
      refine Logs.bind ((dispatch_log crates server moment "https" _).mono (fun _ t ht => ?_)
        fun _ t ht => ?_) fun _ _ ht => ht
      all_goals
        have hnone := Option.not_isSome_iff_eq_none.mp fun hsome =>
          h ⟨htrue, Nat.le_of_not_lt hbody, hsome⟩
        rw [ht, hnone]
        exact guarded_nil _ _
  · exact guarded_nil _ _

/-- A client that goes through with its upgrade, where nothing has happened yet. -/
def eager : Moment F := ⟨true, none, ⟨∅, [], none⟩, fun _ => .error "", true⟩

/-- A handler begins, and nothing comes before it. -/
theorem served_of_bypasses {arrival : Arrival} (h : Bypasses crates server config arrival) :
    ∃ event : Event, event.Starts ∧ served crates server config eager arrival = [event] := by
  cases arrival with
  | tcp req =>
    obtain ⟨hrefusal, hkey, hpath⟩ := h
    obtain ⟨key, hkey⟩ := Option.isSome_iff_exists.mp hkey
    refine ⟨.socket (Arrival.tcp req).req.path, trivial, ?_⟩
    unfold served handleRequest
    rw [hrefusal, hkey]
    dsimp only
    rw [if_pos ⟨rfl, hpath⟩]
    rfl
  | http3 req =>
    obtain ⟨htrue, hbody, hstarts⟩ := h
    obtain ⟨id, hid⟩ := Option.isSome_iff_exists.mp hstarts
    refine ⟨.started id, trivial, ?_⟩
    unfold served handleHttp3
    rw [if_pos htrue, if_neg (Nat.not_lt.mpr hbody)]
    refine finalLog_of_logs (P := fun t => t = [.started id]) ?_
    refine Logs.bind ((dispatch_log crates server eager "https" _).mono (fun _ t ht => ?_)
      fun _ t ht => ?_) fun _ _ ht => ht
    all_goals
      rw [hid] at ht
      exact ht

end Chain

/-- Crates that find no route and parse nothing. -/
def idle : Crates Unit Unit :=
  ⟨⟨fun _ _ => .ok (), fun _ _ => none⟩, ⟨fun _ _ => .ok (), fun _ _ => none⟩,
    ⟨fun _ _ => .ok (), .ok, fun _ _ => .ok (), some⟩, ⟨fun _ => none, fun _ => ""⟩, fun _ => "",
    fun key => key⟩

/-- Authentication for which no token is valid, and one WebSocket handler. -/
def authenticated : Config :=
  ⟨false, false, false, none, some fun _ => none, none, false, none, false, ["/ws"]⟩

def upgrade : Arrival :=
  .tcp ⟨.get, "/ws", [], [("upgrade", "websocket"), ("sec-websocket-key", "AQIDBA==")], [], none,
    "1.1", none⟩

end JustApi.Py.Transports
