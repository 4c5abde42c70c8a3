import Mathlib.Data.List.DropRight
import JustApi.Core.StaticFiles
import JustApi.Lib.Tally
import JustApi.Py.TransportGuards

/-! # Request metrics

What `handle_request` and `serve_quic_conn` record of a request, and the status of what they
send for it. -/
namespace JustApi.Py.RequestMetrics
open JustApi.Core.Http JustApi.Core.StaticFiles JustApi.Lib.Tally JustApi.Py.Pipeline
open JustApi.Py.Transports

/-! ## Static files -/

def isFile (fs : FileSystem) (path : List Char) : Bool :=
  ((fs.metadata path).map Metadata.isFile).getD false

def underPrefix (mount : StaticMount) (path : List Char) : Bool :=
  mount.mountPrefix = ['/'] || path = mount.mountPrefix ||
    mount.mountPrefix.rdropWhile (· = '/') ++ ['/'] <+: path

/-- The file of a path in a mount, or what unmatched paths get. -/
def mountFile (fs : FileSystem) (path : List Char) (mount : StaticMount) : Option (List Char) :=
  match (mount.resolve fs path).filter (isFile fs) with
  | some filePath => some filePath
  | none => (mount.fallback.filter fun _ => underPrefix mount path).bind fun fallback =>
    let fb := join mount.dir.root (fallback.dropWhile (· = '/'))
    if isFile fs fb then some fb else none

/-- A file that cannot be read is none. -/
def tryServeStatic (fs : FileSystem) (now : Int) (path : List Char)
    (staticDir : Option StaticDir) (staticMounts : List StaticMount) : Option Response :=
  match staticMounts.findSome? (mountFile fs path) with
  | some filePath => (StaticDir.serveFile fs now filePath).toOption
  | none => (staticDir.bind fun sd => (sd.resolve fs path).filter (isFile fs)).bind fun filePath =>
    (StaticDir.serveFile fs now filePath).toOption

/-! ## Requests -/

/-- A call of the metrics, or a response that is sent, with its status. -/
inductive Effect where
  | recordRequest
  | recordStatus (code : Nat)
  | recordLatency
  | sent (code : Nat)
  deriving DecidableEq, Repr

structure Host where
  config : Config
  wsHandler : Bool
  staticDir : Option StaticDir
  staticMounts : List StaticMount

/-- What a request meets: what the chain comes to in time, the files and the clock. -/
structure Meets where
  chain : Option (Except String Response)
  fs : FileSystem
  now : Int

/-- What becomes of a request over HTTP/3. -/
inductive Http3 where
  | unresolved
  | bodyFailed
  | failed (error : String)
  /-- The answer of the handler, and whether its head and its body can be sent. -/
  | answered (status : Nat) (body : Bytes) (head data : Bool)

inductive Exchange where
  | tcp (req : Incoming) (meets : Meets)
  | http3 (outcome : Http3)

/-- `StatusCode::from_u16(..).unwrap_or(INTERNAL_SERVER_ERROR)` -/
def statusCode (status : Nat) : Nat := if 100 ≤ status ∧ status < 1000 then status else 500

section Handling

variable {E F : Type} (crates : Crates E F) (host : Host)

/-- What is called and returned after the chain. -/
def chainAnswer (req : Incoming) (meets : Meets) : List Effect × Response :=
  match meets.chain with
  | some (.ok response) =>
    ([.recordStatus response.status, .recordLatency],
      if response.status = 404 then
        (tryServeStatic meets.fs meets.now req.path.toList host.staticDir host.staticMounts).getD
          response
      else response)
  | some (.error _) =>
    ([.recordStatus 500, .recordLatency],
      Core.Crud.errorResponse crates.serde 500 "internal server error")
  | none =>
    ([.recordStatus 504, .recordLatency],
      Core.Crud.errorResponse crates.serde 504 "request timeout")

/-- `handle_request` -/
def handleRequest (req : Incoming) (meets : Meets) : List Effect × Response :=
  match refusal crates req with
  | some resp => ([], resp)
  | none =>
    match if host.wsHandler then upgradeKey req else none with
    | some key => ([.recordRequest], switchingProtocols crates key)
    | none =>
      match wasmAnswer host.config req with
      | some resp => ([.recordRequest, .recordStatus resp.status, .recordLatency], resp)
      | none =>
        let (calls, resp) := chainAnswer crates host req meets
        (.recordRequest :: calls, resp)

/-- One request of `serve_quic_conn`. -/
def serveQuic : Http3 → List Effect
  | .unresolved => []
  | .bodyFailed => [.recordStatus 400, .recordLatency]
  | .failed _ => [.recordStatus 500, .recordLatency]
  | .answered status body head data =>
    if head = false then []
    else if body ≠ [] ∧ data = false then [.sent (statusCode status)]
    else [.sent (statusCode status), .recordStatus (statusCode status), .recordLatency]

def effects : Exchange → List Effect
  | .tcp req meets =>
    let (calls, resp) := handleRequest crates host req meets
    calls ++ [.sent resp.status]
  | .http3 outcome => serveQuic outcome

/-! ## Conservation -/

def isStatus : Effect → Bool
  | .recordStatus _ => true
  | _ => false

structure Conserved (log : List Effect) : Prop where
  statuses : log.countP (· = .recordRequest) = log.countP isStatus
  latencies : log.countP isStatus = log.countP (· = .recordLatency)
  sent : ∀ code, log.countP (· = .recordStatus code) = log.countP (· = .sent code)

/-- Over TCP: neither refused nor upgraded, and no file in place of a 404. Over HTTP/3: not
answered, and no failure recorded. -/
def Counted : Exchange → Prop
  | .tcp req meets => refusal crates req = none ∧ (host.wsHandler → upgradeKey req = none) ∧
      (wasmAnswer host.config req = none →
        ∀ response, meets.chain = some (.ok response) → response.status = 404 →
          tryServeStatic meets.fs meets.now req.path.toList host.staticDir host.staticMounts = none)
  | .http3 .unresolved => True
  | .http3 .bodyFailed => False
  | .http3 (.failed _) => False
  | .http3 (.answered _ _ head _) => head = false

/-! ## Runs -/

/-- What a request can come to. -/
inductive Came : List Effect → Prop where
  | nothing : Came []
  | counted (code : Nat) :
      Came [.recordRequest, .recordStatus code, .recordLatency, .sent code]
  /-- Refused, or broken off after the head over HTTP/3. -/
  | uncounted (code : Nat) : Came [.sent code]
  | upgraded : Came [.recordRequest, .sent 101]
  | replaced : Came [.recordRequest, .recordStatus 404, .recordLatency, .sent 200]
  | answered (code : Nat) : Came [.sent code, .recordStatus code, .recordLatency]
  | failed (code : Nat) (h : code ≠ 101) : Came [.recordStatus code, .recordLatency]

/-- Everything once, or nothing. -/
def Level (log : List Effect) : Prop := log = [] ∨
  ∃ code, log = [.recordRequest, .recordStatus code, .recordLatency, .sent code]

section Shapes

variable {log : List Effect}

theorem Level.conserved (h : Level log) : Conserved log := by
  rcases h with rfl | ⟨code, rfl⟩
  · exact ⟨rfl, rfl, fun _ => rfl⟩
  · exact ⟨by simp [isStatus, List.countP_cons], by simp [isStatus, List.countP_cons],
      fun c => by simp [List.countP_cons]⟩

theorem Came.switching_le (h : Came log) :
    log.countP (· = .recordStatus 101) ≤ log.countP (· = .sent 101) := by
  cases h with
  | failed code h => simp [h]
  | _ => simp [List.countP_cons]

theorem Came.requests_le (h : Came log)
    (hswitching : log.countP (· = .recordStatus 101) = log.countP (· = .sent 101)) :
    log.countP (· = .recordRequest) ≤ log.countP isStatus := by
  cases h with
  | upgraded => simp at hswitching
  | _ => simp [isStatus, List.countP_cons]

/-- What is left where no upgrade and no answer over HTTP/3 is counted. -/
inductive Left : List Effect → Prop where
  | level {log : List Effect} : Level log → Left log
  | uncounted (code : Nat) : Left [.sent code]
  | replaced : Left [.recordRequest, .recordStatus 404, .recordLatency, .sent 200]

theorem Came.left (h : Came log)
    (hswitching : log.countP (· = .recordStatus 101) = log.countP (· = .sent 101))
    (hrequests : log.countP (· = .recordRequest) = log.countP isStatus) : Left log := by
  cases h with
  | nothing => exact .level (.inl rfl)
  | counted code => exact .level (.inr ⟨code, rfl⟩)
  | uncounted code => exact .uncounted code
  | upgraded => simp at hswitching
  | replaced => exact .replaced
  | answered code => simp [isStatus, List.countP_cons] at hrequests
  | failed code h => simp [isStatus, List.countP_cons] at hrequests

theorem Left.sent_le (h : Left log) {code : Nat} (hcode : code ≠ 404) :
    log.countP (· = .recordStatus code) ≤ log.countP (· = .sent code) := by
  cases h with
  | level h => exact (h.conserved.sent code).le
  | uncounted _ => simp [List.countP_cons]
  | replaced => simp [hcode.symm]

theorem Left.missing_le (h : Left log)
    (hfile : log.countP (· = .recordStatus 200) = log.countP (· = .sent 200)) :
    log.countP (· = .recordStatus 404) ≤ log.countP (· = .sent 404) := by
  cases h with
  | level h => exact (h.conserved.sent 404).le
  | uncounted _ => simp [List.countP_cons]
  | replaced => simp at hfile

theorem Left.level_of_sent (h : Left log)
    (hsent : ∀ code, log.countP (· = .recordStatus code) = log.countP (· = .sent code)) :
    Level log := by
  cases h with
  | level h => exact h
  | uncounted code => exact absurd (hsent code) (by simp)
  | replaced => exact absurd (hsent 404) (by simp)

/-- Together the requests are even exactly if each of them is: an upgrade shows in 101, then an
answer over HTTP/3 in the requests, then a file in 200, and a refusal in its own status. -/
theorem conserved_flatMap_iff {α : Type} {f : α → List Effect} {items : List α}
    (hcame : ∀ a ∈ items, Came (f a)) :
    Conserved (items.flatMap f) ↔ ∀ a ∈ items, Level (f a) := by
  constructor
  · intro h
    have hswitching := countP_eq_of_flatMap (fun a ha => (hcame a ha).switching_le) (h.sent 101)
    have hrequests := countP_eq_of_flatMap
      (fun a ha => (hcame a ha).requests_le (hswitching a ha)) h.statuses
    have hleft (a : α) (ha : a ∈ items) : Left (f a) :=
      (hcame a ha).left (hswitching a ha) (hrequests a ha)
    have hother {code : Nat} (hcode : code ≠ 404) :=
      countP_eq_of_flatMap (fun a ha => (hleft a ha).sent_le hcode) (h.sent code)
    have hmissing := countP_eq_of_flatMap
      (fun a ha => (hleft a ha).missing_le (hother (by decide) a ha)) (h.sent 404)
    intro a ha
    refine (hleft a ha).level_of_sent fun code => ?_
    by_cases hcode : code = 404
    · exact hcode ▸ hmissing a ha
    · exact hother hcode a ha
  · intro h
    exact ⟨countP_flatMap_eq fun a ha => (h a ha).conserved.statuses,
      countP_flatMap_eq fun a ha => (h a ha).conserved.latencies,
      fun code => countP_flatMap_eq fun a ha => (h a ha).conserved.sent code⟩

end Shapes

/-! ## Exchanges -/

theorem status_serveFile {fs : FileSystem} {now : Int} {path : List Char} {resp : Response}
    (hfile : isFile fs path = true) (h : StaticDir.serveFile fs now path = .ok resp) :
    resp.status = 200 := by
  unfold StaticDir.serveFile at h
  unfold isFile at hfile
  cases hmeta : fs.metadata path with
  | none => simp [hmeta] at hfile
  | some metadata =>
    simp only [hmeta, Option.map_some, Option.getD_some] at hfile
    simp only [hmeta, hfile, if_true] at h
    obtain ⟨body, -, rfl⟩ := Lib.Result.map_eq_ok.mp h
    rfl

theorem isFile_mountFile {fs : FileSystem} {path filePath : List Char} {mount : StaticMount}
    (h : mountFile fs path mount = some filePath) : isFile fs filePath = true := by
  unfold mountFile at h
  split at h
  next found hfound =>
    cases h
    exact (Option.filter_eq_some_iff.mp hfound).2
  · obtain ⟨fallback, -, hfb⟩ := Option.bind_eq_some_iff.mp h
    dsimp only at hfb
    split at hfb
    next hfile =>
      cases hfb
      exact hfile
    · cases hfb

/-- A static file is sent with 200. -/
theorem status_tryServeStatic {fs : FileSystem} {now : Int} {path : List Char}
    {staticDir : Option StaticDir} {staticMounts : List StaticMount} {resp : Response}
    (h : tryServeStatic fs now path staticDir staticMounts = some resp) : resp.status = 200 := by
  have hserved {filePath : List Char} (hfile : isFile fs filePath = true)
      (hresp : (StaticDir.serveFile fs now filePath).toOption = some resp) : resp.status = 200 := by
    cases hserve : StaticDir.serveFile fs now filePath with
    | error e => simp [hserve, Except.toOption] at hresp
    | ok served =>
      simp only [hserve, Except.toOption, Option.some_inj] at hresp
      exact hresp ▸ status_serveFile hfile hserve
  unfold tryServeStatic at h
  split at h
  next filePath hfound =>
    obtain ⟨mount, -, hmount⟩ := List.exists_of_findSome?_eq_some hfound
    exact hserved (isFile_mountFile hmount) h
  · obtain ⟨filePath, hfound, hresp⟩ := Option.bind_eq_some_iff.mp h
    obtain ⟨sd, -, hresolved⟩ := Option.bind_eq_some_iff.mp hfound
    exact hserved (Option.filter_eq_some_iff.mp hresolved).2 hresp

/-- What an exchange comes to, and when it is even. -/
def Settles (counted : Prop) (log : List Effect) : Prop := Came log ∧ (Level log ↔ counted)

theorem settles_counted {counted : Prop} (code : Nat) (h : counted) :
    Settles counted [.recordRequest, .recordStatus code, .recordLatency, .sent code] :=
  ⟨.counted code, iff_of_true (.inr ⟨code, rfl⟩) h⟩

theorem settles_nothing {counted : Prop} (h : counted) : Settles counted [] :=
  ⟨.nothing, iff_of_true (.inl rfl) h⟩

theorem settles_other {counted : Prop} {log : List Effect} (hcame : Came log)
    (hlevel : ¬ Level log) (h : ¬ counted) : Settles counted log :=
  ⟨hcame, iff_of_false hlevel h⟩

theorem not_level_uncounted (code : Nat) : ¬ Level [.sent code] := by simp [Level]

/-- After the chain only a file in place of a 404 is not even. -/
theorem settles_chain (req : Incoming) (meets : Meets) :
    Settles (∀ response, meets.chain = some (.ok response) → response.status = 404 →
        tryServeStatic meets.fs meets.now req.path.toList host.staticDir host.staticMounts = none)
      (.recordRequest :: (chainAnswer crates host req meets).1 ++
        [.sent (chainAnswer crates host req meets).2.status]) := by
  unfold chainAnswer
  cases hchain : meets.chain with
  | none => exact settles_counted 504 fun _ h => by cases h
  | some result =>
    cases result with
    | error e => exact settles_counted 500 fun _ h => by cases h
    | ok response =>
      by_cases hmissing : response.status = 404
      · cases hstatic : tryServeStatic meets.fs meets.now req.path.toList host.staticDir
            host.staticMounts with
        | none =>
          simp only [hmissing, if_true, Option.getD_none]
          exact settles_counted 404 fun _ _ _ => trivial
        | some file =>
          simp only [hmissing, if_true, Option.getD_some, status_tryServeStatic hstatic]
          refine settles_other .replaced (by simp [Level]) fun h => ?_
          have := h response rfl hmissing
          cases this
      · simp only [hmissing, if_false]
        refine settles_counted response.status fun other h hother => ?_
        cases h
        exact absurd hother hmissing

section Requests

variable {req : Incoming} {meets : Meets} {resp : Response}

theorem effects_refused (h : refusal crates req = some resp) :
    effects crates host (.tcp req meets) = [.sent resp.status] := by
  simp only [effects, handleRequest, h, List.nil_append]

theorem effects_upgraded {key : String} (hrefusal : refusal crates req = none)
    (hkey : (if host.wsHandler then upgradeKey req else none) = some key) :
    effects crates host (.tcp req meets) = [.recordRequest, .sent 101] := by
  simp only [effects, handleRequest, hrefusal, hkey]
  rfl

theorem effects_wasm (hrefusal : refusal crates req = none)
    (hkey : (if host.wsHandler then upgradeKey req else none) = none)
    (hwasm : wasmAnswer host.config req = some resp) :
    effects crates host (.tcp req meets) =
      [.recordRequest, .recordStatus resp.status, .recordLatency, .sent resp.status] := by
  simp only [effects, handleRequest, hrefusal, hkey, hwasm]
  rfl

theorem effects_chain (hrefusal : refusal crates req = none)
    (hkey : (if host.wsHandler then upgradeKey req else none) = none)
    (hwasm : wasmAnswer host.config req = none) :
    effects crates host (.tcp req meets) =
      .recordRequest :: (chainAnswer crates host req meets).1 ++
        [.sent (chainAnswer crates host req meets).2.status] := by
  simp only [effects, handleRequest, hrefusal, hkey, hwasm]

theorem noUpgrade_iff : (if host.wsHandler then upgradeKey req else none) = none ↔
    (host.wsHandler → upgradeKey req = none) := by
  cases host.wsHandler <;> simp

end Requests

theorem settles_http3 (outcome : Http3) :
    Settles (Counted crates host (.http3 outcome)) (serveQuic outcome) := by
  cases outcome with
  | unresolved => exact settles_nothing trivial
  | bodyFailed => exact settles_other (.failed 400 (by decide)) (by simp [Level, serveQuic]) id
  | failed e => exact settles_other (.failed 500 (by decide)) (by simp [Level, serveQuic]) id
  | answered status body head data =>
    cases head with
    | false => exact settles_nothing rfl
    | true =>
      simp only [serveQuic, Counted, Bool.true_eq_false, if_false]
      split
      · exact settles_other (.uncounted _) (not_level_uncounted _) id
      · exact settles_other (.answered _) (by simp [Level]) id

theorem settles_tcp (req : Incoming) (meets : Meets) :
    Settles (Counted crates host (.tcp req meets)) (effects crates host (.tcp req meets)) := by
  cases hrefusal : refusal crates req with
  | some resp =>
    rw [effects_refused crates host hrefusal]
    refine settles_other (.uncounted _) (not_level_uncounted _) fun h => ?_
    rw [h.1] at hrefusal
    cases hrefusal
  | none =>
    cases hkey : (if host.wsHandler then upgradeKey req else none) with
    | some key =>
      rw [effects_upgraded crates host hrefusal hkey]
      refine settles_other .upgraded (by simp [Level]) fun h => ?_
      rw [noUpgrade_iff host |>.mpr h.2.1] at hkey
      cases hkey
    | none =>
      have hnone := (noUpgrade_iff host).mp hkey
      cases hwasm : wasmAnswer host.config req with
      | some resp =>
        rw [effects_wasm crates host hrefusal hkey hwasm]
        refine settles_counted resp.status ⟨hrefusal, hnone, fun h => ?_⟩
        rw [h] at hwasm
        cases hwasm
      | none =>
        rw [effects_chain crates host hrefusal hkey hwasm]
        obtain ⟨hcame, hlevel⟩ := settles_chain crates host req meets
        exact ⟨hcame, hlevel.trans
          ⟨fun h => ⟨hrefusal, hnone, fun _ => h⟩, fun h => h.2.2 hwasm⟩⟩

theorem settles_effects (exchange : Exchange) :
    Settles (Counted crates host exchange) (effects crates host exchange) := by
  cases exchange with
  | tcp req meets => exact settles_tcp crates host req meets
  | http3 outcome => exact settles_http3 crates host outcome

/-- **Request metrics.** However its requests overlap, a run conserves them exactly if each of
its requests is counted. -/
theorem metrics_conserved_iff {exchanges : List Exchange} {log : List Effect}
    (hlog : log.Perm (exchanges.flatMap (effects crates host))) :
    Conserved log ↔ ∀ exchange ∈ exchanges, Counted crates host exchange := by
  have hperm : Conserved log ↔ Conserved (exchanges.flatMap (effects crates host)) := by
    constructor
    · exact fun h => ⟨by rw [← hlog.countP_eq, ← hlog.countP_eq, h.statuses],
        by rw [← hlog.countP_eq, ← hlog.countP_eq, h.latencies],
        fun code => by rw [← hlog.countP_eq, ← hlog.countP_eq, h.sent code]⟩
    · exact fun h => ⟨by rw [hlog.countP_eq, hlog.countP_eq, h.statuses],
        by rw [hlog.countP_eq, hlog.countP_eq, h.latencies],
        fun code => by rw [hlog.countP_eq, hlog.countP_eq, h.sent code]⟩
  rw [hperm, conserved_flatMap_iff fun exchange _ => (settles_effects crates host exchange).1]
  exact forall₂_congr fun exchange _ => (settles_effects crates host exchange).2

end Handling

/-! ## Some runs -/

/-- Only one stylesheet. -/
def stylesheet : FileSystem where
  canonicalize := some
  metadata path := if path = "/srv/app.css".toList then some ⟨true, 4, none⟩ else none
  read _ := .ok [112, 123, 125, 10]
  stream _ := .ok []

/-- One WebSocket handler, and the files of a directory. -/
def site : Host := ⟨authenticated, true, some ⟨"/srv".toList⟩, []⟩

def answer (status : Nat) : Response := ⟨status, [], []⟩

def page (path : String) : Incoming := ⟨.get, path, [], [], [], none, "1.1", none⟩

/-- Two requests side by side, the second of which takes too long. -/
theorem metrics_conserved_iff_page :
    Conserved [.recordRequest, .recordRequest, .recordStatus 200, .recordLatency, .sent 200,
      .recordStatus 504, .recordLatency, .sent 504] := by
  have hperm : List.Perm [.recordRequest, .recordRequest, .recordStatus 200, .recordLatency,
        .sent 200, .recordStatus 504, .recordLatency, .sent 504]
      ([.tcp (page "/") ⟨some (.ok (answer 200)), stylesheet, 0⟩,
        .tcp (page "/slow") ⟨none, stylesheet, 0⟩].flatMap (effects idle site)) := by
    have heffects : [Exchange.tcp (page "/") ⟨some (.ok (answer 200)), stylesheet, 0⟩,
        .tcp (page "/slow") ⟨none, stylesheet, 0⟩].flatMap (effects idle site) =
        [.recordRequest, .recordStatus 200, .recordLatency, .sent 200, .recordRequest,
          .recordStatus 504, .recordLatency, .sent 504] := by with_unfolding_all rfl
    rw [heffects]
    decide
  refine (metrics_conserved_iff idle site hperm).mpr fun exchange hexchange => ?_
  simp only [List.mem_cons, List.not_mem_nil, or_false] at hexchange
  rcases hexchange with rfl | rfl
  · refine ⟨rfl, fun _ => rfl, fun _ response h hmissing => ?_⟩
    cases h
    cases hmissing
  · refine ⟨rfl, fun _ => rfl, fun _ response h => ?_⟩
    cases h

/-- An upgrade, a stylesheet that the chain does not know, a request over HTTP/3, and one with a
query that is too long. -/
theorem metrics_drift :
    ¬ Conserved (effects idle site (.tcp upgrade.req ⟨none, stylesheet, 0⟩)) ∧
    ¬ Conserved (effects idle site
      (.tcp (page "/app.css") ⟨some (.ok (answer 404)), stylesheet, 0⟩)) ∧
    ¬ Conserved (effects idle site (.http3 (.answered 200 [] true true))) ∧
    ¬ Conserved (effects idle site
      (.tcp { page "/" with query := List.replicate 2049 97 } ⟨none, stylesheet, 0⟩)) := by
  have hupgrade : effects idle site (.tcp upgrade.req ⟨none, stylesheet, 0⟩) =
      [.recordRequest, .sent 101] := by with_unfolding_all rfl
  have hfile : effects idle site
      (.tcp (page "/app.css") ⟨some (.ok (answer 404)), stylesheet, 0⟩) =
      [.recordRequest, .recordStatus 404, .recordLatency, .sent 200] := by with_unfolding_all rfl
  have hlong : maxQueryLength < (List.replicate 2049 (97 : UInt8)).length := by
    rw [List.length_replicate]
    decide
  have hrefusal : refusal idle { page "/" with query := List.replicate 2049 97 } =
      some (Core.Crud.errorResponse idle.serde 414 "query string exceeds maximum length") := by
    rw [refusal, if_neg (by decide), if_pos hlong]
  have hquery : effects idle site
      (.tcp { page "/" with query := List.replicate 2049 97 } ⟨none, stylesheet, 0⟩) = [.sent _] :=
    effects_refused idle site hrefusal
  rw [hupgrade, hfile, hquery]
  refine ⟨fun h => ?_, fun h => ?_, fun h => ?_, fun h => ?_⟩
  · exact absurd h.statuses (by decide)
  · exact absurd (h.sent 404) (by decide)
  · exact absurd h.statuses (by decide)
  · exact absurd (h.sent 414) (by simp [Core.Crud.errorResponse, Core.Crud.jsonResponse])

end JustApi.Py.RequestMetrics
