import JustApi.Lib.Result
import JustApi.Py.DependencyRuns
import JustApi.Py.Registrations
import JustApi.Py.RouteAlignment

/-! # Dependencies before the application

Every route resolves what it declares before its application logic answers, as long as
each registration with declared dependencies goes to a wrapped handler. -/
namespace JustApi.Py.Registrations
open JustApi.Lib.Raising
open JustApi.Core.Http JustApi.Core.Routing JustApi.Py.Dependencies JustApi.Py.Pipeline
open JustApi.Py.RouteTables (Tables Raised Registration Entry jsonOf crudOf makeCrudSpec plainPaths)

/-! ## The law -/

section Law

variable {ι V X : Type} (c : Callables ι)

/-- Application logic answers only after everything that is declared has completed. -/
def Answer.Safe (declared : Route ι) : Answer ι V X → Prop
  | .refused => True
  | .direct => ∀ d, ¬ Reached c declared d
  | .wrapped log => ∀ before kwargs out after, log = before ++ .handler kwargs out :: after →
    ∀ d, Reached c declared d → ∃ n kw v, .ran n d kw (.ok v) ∈ before

/-- A route without dependencies. -/
def Bare (route : Route ι) : Prop :=
  route.allDeps = [] ∧ ∀ name u, (name, Param.depends u) ∉ route.signature

/-- The wrapper awaits whatever is to be awaited. -/
def Awaited (route : Route ι) : Prop :=
  route.isAsync c = true ∨ ∀ u, Declared c route u →
    c.kind u.dependency ≠ .coroutine ∧ c.kind u.dependency ≠ .asyncGenerator

theorem Bare.not_declared {route : Route ι} (h : Bare route) (u : Depends ι) :
    ¬ Declared c route u := by
  intro hu
  induction hu with
  | listed hmem =>
    rw [h.1] at hmem
    cases hmem
  | parameter hmem => exact h.2 _ _ hmem
  | nested _ _ ih => exact ih

theorem Bare.not_reached {route : Route ι} (h : Bare route) (d : ι) : ¬ Reached c route d := by
  rintro ⟨u, hu, -⟩
  exact h.not_declared c u hu

end Law

/-! ## The wrapper -/

section Tracing

variable {ι V X : Type} [DecidableEq ι] (c : Callables ι) (route : Route ι)

/-- What the log of a request shows, however often its wrapper is called. -/
structure Traced (r : Request ι V X) : Prop where
  remembered : ∀ d v, r.depCache.lookup d = some v → ∃ n kw, .ran n d kw (.ok v) ∈ r.log
  supplied : ∀ before n d kw out after, r.log = before ++ .ran n d kw out :: after →
    Supplied before (c.signature d) kw
  complete : ∀ before kw out after, r.log = before ++ .handler kw out :: after →
    ∀ d, Reached c route d → ∃ n kw v, .ran n d kw (.ok v) ∈ before

variable {c route} {mode : Mode} {outcome : Nat → Except X V}

theorem traced_new : Traced (V := V) (X := X) c route .new where
  remembered := fun _ _ h => by cases h
  supplied := fun before _ _ _ _ _ h => by cases before <;> cases h
  complete := fun before _ _ _ h => by cases before <;> cases h

theorem Traced.tick {r : Request ι V X} (h : Traced c route r) :
    Traced c route { r with clock := r.clock + 1 } := ⟨h.1, h.2, h.3⟩

/-- An execution is logged. -/
theorem Traced.run {r t : Request ι V X} (h : Traced c route r) {n : Nat} {d : ι}
    {kw : List (String × V)} {out : Except X V} (hsupplied : Supplied r.log (c.signature d) kw)
    (hlog : t.log = r.log ++ [.ran n d kw out]) (hcache : t.depCache = r.depCache) :
    Traced c route t := by
  refine ⟨fun d' v hv => ?_, fun before m d' kw' out' after hsplit => ?_,
    fun before kw' out' after hsplit => ?_⟩
  · rw [hcache] at hv
    rw [hlog]
    obtain ⟨m, kw', hmem⟩ := h.remembered d' v hv
    exact ⟨m, kw', List.mem_append_left _ hmem⟩
  · rw [hlog] at hsplit
    rcases split_concat hsplit with ⟨rfl, he⟩ | ⟨rest, hsplit⟩
    · cases he
      exact hsupplied
    · exact h.supplied before m d' kw' out' rest hsplit
  · rw [hlog] at hsplit
    rcases split_concat hsplit with ⟨_, he⟩ | ⟨rest, hsplit⟩
    · cases he
    · exact h.complete before kw' out' rest hsplit

/-- A completed execution is remembered. -/
theorem Traced.remember {r : Request ι V X} (h : Traced c route r) {n : Nat} {d : ι}
    {kw : List (String × V)} {v : V} (hran : .ran n d kw (.ok v) ∈ r.log) :
    Traced c route { r with depCache := r.depCache.insert d v } := by
  refine ⟨fun d' v' hv' => ?_, h.supplied, h.complete⟩
  by_cases hd : d' = d
  · subst hd
    rw [AList.lookup_insert] at hv'
    cases hv'
    exact ⟨n, kw, hran⟩
  · rw [AList.lookup_insert_ne hd] at hv'
    exact h.remembered d' v' hv'

/-- Another event is logged; for the call of the handler everything has completed. -/
theorem Traced.event {r t : Request ι V X} (h : Traced c route r) {e : Event ι V X}
    (hran : ∀ n d kw out, e ≠ .ran n d kw out)
    (hhandler : ∀ kw out, e = .handler kw out →
      ∀ d, Reached c route d → ∃ n kw v, .ran n d kw (.ok v) ∈ r.log)
    (hlog : t.log = r.log ++ [e]) (hcache : t.depCache = r.depCache) : Traced c route t := by
  refine ⟨fun d v hv => ?_, fun before m d kw out after hsplit => ?_,
    fun before kw out after hsplit => ?_⟩
  · rw [hcache] at hv
    rw [hlog]
    obtain ⟨m, kw, hmem⟩ := h.remembered d v hv
    exact ⟨m, kw, List.mem_append_left _ hmem⟩
  · rw [hlog] at hsplit
    rcases split_concat hsplit with ⟨_, he⟩ | ⟨rest, hsplit⟩
    · exact absurd he.symm (hran m d kw out)
    · exact h.supplied before m d kw out rest hsplit
  · rw [hlog] at hsplit
    rcases split_concat hsplit with ⟨rfl, he⟩ | ⟨rest, hsplit⟩
    · exact hhandler kw out he.symm
    · exact h.complete before kw out rest hsplit

/-- A declared dependency runs in either mode. -/
theorem ends_execute_traced (hawaited : mode = .sync → ∀ u, Declared c route u →
      c.kind u.dependency ≠ .coroutine ∧ c.kind u.dependency ≠ .asyncGenerator)
    {r : Request ι V X} (h : Traced c route r) {u : Depends ι} (hu : Declared c route u)
    {kw : List (String × V)} (hsupplied : Supplied r.log (c.signature u.dependency) kw) :
    Ends (fun v t => Traced c route t ∧
        (∃ n, t.log = r.log ++ [.ran n u.dependency kw (.ok v)]) ∧ t.depCache = r.depCache)
      (fun _ t => Traced c route t) (execute mode c outcome u.dependency kw r) := by
  have hawait : ¬ (mode = .sync ∧
      (c.kind u.dependency = .coroutine ∨ c.kind u.dependency = .asyncGenerator)) := by
    rintro ⟨hmode, hkind⟩
    exact hkind.elim (hawaited hmode u hu).1 (hawaited hmode u hu).2
  unfold execute
  rw [if_neg hawait, ends_bind, ends_get, ends_bind]
  refine ends_logged (fun v => ?_) fun e => h.run hsupplied rfl rfl
  split
  · exact ⟨h.run hsupplied rfl rfl, ⟨_, rfl⟩, rfl⟩
  · exact ⟨h.run hsupplied rfl rfl, ⟨_, rfl⟩, rfl⟩

theorem preserved_traced (hawaited : mode = .sync → ∀ u, Declared c route u →
      c.kind u.dependency ≠ .coroutine ∧ c.kind u.dependency ≠ .asyncGenerator)
    (outcome : Nat → Except X V) :
    Preserved mode c route outcome (Traced c route) (Traced c route) where
  sound := fun _ h => h
  tick := fun _ h => h.tick
  remembered := fun _ h => h.remembered
  invoked := fun _ _ _ h hu hsupplied _ =>
    ends_invokeBy (fun _ _ _ _ _ ht hran => ht.remember hran)
      (ends_execute_traced hawaited h hu hsupplied)

theorem ends_wrapper_traced (outcome : Nat → Except X V)
    (hawaited : mode = .sync → ∀ u, Declared c route u →
      c.kind u.dependency ≠ .coroutine ∧ c.kind u.dependency ≠ .asyncGenerator)
    (recursionError : X) (depth : Nat) (handles : X → Bool) {r : Request ι V X}
    (h : Traced c route r) :
    Ends (fun _ t => Traced c route t) (fun _ t => Traced c route t)
      (wrapper mode c outcome recursionError depth handles route r) := by
  rw [wrapper_eq]
  refine (preserved_traced hawaited outcome).kept.wrapper (fun r kw out hr hlisted hsupplied => ?_)
    (fun r hr => ?_) (fun r n hr => ?_) recursionError depth handles h
  · have hreached := reached_completed hr.supplied hlisted hsupplied
    exact hr.event (fun _ _ _ _ he => by cases he) (fun _ _ _ => hreached) rfl rfl
  · exact hr.event (fun _ _ _ _ he => by cases he) (fun _ _ he => by cases he) rfl rfl
  · exact hr.event (fun _ _ _ _ he => by cases he) (fun _ _ he => by cases he) rfl rfl

/-- However often the middlewares call a wrapper that awaits everything. -/
theorem passed_traced (h : Awaited c route) {S : Type} (course : Course ι V X S) :
    Traced c route (passed c course route) := by
  have hawaited : (if route.isAsync c then Mode.async else .sync) = .sync →
      ∀ u, Declared c route u →
        c.kind u.dependency ≠ .coroutine ∧ c.kind u.dependency ≠ .asyncGenerator := by
    intro hmode u hu
    split at hmode
    · cases hmode
    next hasync => exact h.resolve_left hasync u hu
  unfold passed
  induction course.passes with
  | zero => exact traced_new
  | succ passes ih =>
    rw [List.range_succ, List.foldl_concat]
    have hends := ends_wrapper_traced course.outcome hawaited course.recursionError course.depth
      course.handles ih
    revert hends
    cases wrapper _ c course.outcome course.recursionError course.depth course.handles route _ with
    | ok _ t => exact fun ht => ht
    | error _ t => exact fun ht => ht

end Tracing

/-! ## Registrations that keep the law -/

section Guards

variable {E ι V X S F : Type} {mx : Matchit E Nat} {schemaJson : S → Option String}
  (c : Callables ι)

/-- A registration for `GET` takes over a slot of `sse_native`. -/
def TakesOverStream (app : App ι S) (path : String) : Prop :=
  ∃ id spec, app.tables.routeIndices.lookup (.get, path) = some id ∧
    app.tables.sseSpecs[id]? = some (some spec)

/-- The methods that keep a schema for the body. -/
def RouteMethod.readsBody : RouteMethod → Bool
  | .post | .put | .patch | .query => true
  | _ => false

/-- A route with a handler resolves what it declares: it has no batches and no CRUD table,
it is not native with a schema to check, and its wrapper awaits everything. -/
def Resolving (c : Callables ι) (app : App ι S) (m : RouteMethod) (o : RouteOptions ι S)
    (h : Handler ι) : Prop :=
  (m.batch h).1.getD 0 = 0 ∧ (m.hasCrud = true → o.crudTable = none) ∧
    (o.native = true → (m.readsBody = true → o.schema = none) ∧ o.querySchema = none) ∧
    Awaited c (app.declares o.dependencies h) ∧ ¬ (m = .get ∧ TakesOverStream app o.path)

/-- A call that leaves no declared dependency behind. -/
def Guarded (app : App ι S) : Step ι S → Prop
  | .route m o =>
    match o.handler with
    | none => m.hasCrud = true ∧ o.crudTable.isSome = true →
      app.dependencies ++ o.dependencies = []
    | some h => Bare (app.declares o.dependencies h) ∨ Resolving c app m o h
  | .sse _ h dependencies => Bare (app.declares dependencies h)
  | .sseNative _ _ _ => app.dependencies = []
  | .websocket _ h dependencies => Bare (app.declares dependencies h)
  | .streamJson path h dependencies =>
    Bare (app.declares dependencies { h with coroutine := false }) ∨
      Awaited c (app.declares dependencies { h with coroutine := false }) ∧
        ¬ TakesOverStream app path

/-- The entries of a slot whose application logic resolves what is declared. -/
def EntrySafe (dependencies : List (Depends ι)) (e : Entry (Slot ι) S) : Prop :=
  match e.handler with
  | none => dependencies = []
  | some slot => Bare slot.declared ∨ slot.wrapped = .handler slot.declared ∧
      Awaited c slot.declared ∧ e.sseSpec = none ∧ e.crud = none ∧
      (e.native = true → e.schemaJson = none ∧ e.querySchemaJson = none)

structure Protected (app : App ι S) : Prop where
  aligned : app.tables.Aligned
  entries : ∀ id < app.tables.handlers.length, ∃ e, app.tables.Holds id e ∧
    EntrySafe c app.dependencies e
  sockets : ∀ path declared, app.wsRoutes.lookup path = some declared → Bare declared

variable {c}

theorem Protected.apply {app app' : App ι S} (h : Protected c app)
    {call : RouteTables.Call (Slot ι) S} (hok : app.apply mx schemaJson call = .ok app')
    (hnew : EntrySafe c app.dependencies (call.route schemaJson).2.2)
    (hget : ∀ r id e, call = .get r → app.tables.routeIndices.lookup (.get, r.path) = some id →
      app.tables.Holds id e → EntrySafe c app.dependencies (RouteTables.regotten schemaJson r e))
    (hsse : ∀ path count intervalMs, call = .sseNative path count intervalMs →
      app.dependencies = []) :
    Protected c app' ∧ app'.dependencies = app.dependencies := by
  unfold App.apply at hok
  split at hok
  next t hexec =>
    cases hok
    obtain ⟨haligned, hentries⟩ := RouteTables.exec_slots hexec h.aligned h.entries hnew
      (fun r id e hcall hid he _ => hget r id e hcall hid he)
      fun path count intervalMs _ hcall _ => hsse path count intervalMs hcall
    exact ⟨⟨haligned, hentries, h.sockets⟩, rfl⟩
  · cases hok

/-- The entries of a registration for a method. -/
theorem route_entry (m : RouteMethod) (r : Registration (Slot ι) S) :
    ((m.call r).route schemaJson).2.2.handler = some r.handler ∧
    ((m.call r).route schemaJson).2.2.native = r.native.getD false ∧
    ((m.call r).route schemaJson).2.2.crud = crudOf r ∧
    ((m.call r).route schemaJson).2.2.sseSpec = none ∧
    ((m.call r).route schemaJson).2.2.schemaJson =
      (if m.readsBody then jsonOf schemaJson r.schema else none) ∧
    ((m.call r).route schemaJson).2.2.querySchemaJson = jsonOf schemaJson r.querySchema := by
  cases m <;> exact ⟨rfl, rfl, rfl, rfl, rfl, rfl⟩

theorem call_eq_get {m : RouteMethod} {r r' : Registration (Slot ι) S} (h : m.call r = .get r') :
    m = .get ∧ r = r' := by
  cases m with
  | get => exact ⟨rfl, RouteTables.Call.get.inj h⟩
  | _ => cases h

theorem entrySafe_of_bare {dependencies : List (Depends ι)} {e : Entry (Slot ι) S}
    {slot : Slot ι} (hslot : e.handler = some slot) (h : Bare slot.declared) :
    EntrySafe c dependencies e := by
  rw [EntrySafe, hslot]
  exact .inl h

/-- A registration of a handler that declares nothing. -/
theorem Protected.bare {app app' : App ι S} (h : Protected c app) {m : RouteMethod}
    {r : Registration (Slot ι) S} (hbare : Bare r.handler.declared)
    (hok : app.apply mx schemaJson (m.call r) = .ok app') :
    Protected c app' ∧ app'.dependencies = app.dependencies := by
  refine h.apply hok (entrySafe_of_bare (route_entry m r).1 hbare) ?_ ?_
  · intro r' id e hcall _ _
    obtain ⟨-, rfl⟩ := call_eq_get hcall
    exact entrySafe_of_bare rfl hbare
  · intro path count intervalMs hcall
    cases m <;> cases hcall

/-- A registration of a wrapped handler. -/
theorem Protected.resolving {app app' : App ι S} (h : Protected c app) {m : RouteMethod}
    {r : Registration (Slot ι) S} (hwrapped : r.handler.wrapped = .handler r.handler.declared)
    (hawaited : Awaited c r.handler.declared) (hcrud : crudOf r = none)
    (hnative : r.native.getD false = true →
      (m.readsBody = true → r.schema = none) ∧ r.querySchema = none)
    (hstream : ¬ (m = .get ∧ TakesOverStream app r.path))
    (hok : app.apply mx schemaJson (m.call r) = .ok app') :
    Protected c app' ∧ app'.dependencies = app.dependencies := by
  obtain ⟨e1, e2, e3, e4, e5, e6⟩ := @route_entry ι S schemaJson m r
  refine h.apply hok ?_ ?_ ?_
  · rw [EntrySafe, e1]
    refine .inr ⟨hwrapped, hawaited, e4, e3.trans hcrud, fun htrue => ?_⟩
    rw [e2] at htrue
    obtain ⟨hschema, hquery⟩ := hnative htrue
    rw [e5, e6, hquery]
    refine ⟨?_, rfl⟩
    split
    next hbody => rw [hschema hbody, jsonOf, Option.bind_none]
    · rfl
  · intro r' id e hcall hid he
    obtain ⟨rfl, rfl⟩ := call_eq_get hcall
    refine .inr ⟨hwrapped, hawaited, ?_, hcrud, fun htrue => ?_⟩
    · cases hspec : e.sseSpec with
      | none => exact hspec
      | some spec =>
        obtain ⟨_, _, _, hsse, _⟩ := he
        rw [hspec] at hsse
        exact absurd ⟨rfl, id, spec, hid, hsse⟩ hstream
    · refine ⟨rfl, ?_⟩
      show jsonOf schemaJson r.querySchema = none
      rw [(hnative htrue).2, jsonOf, Option.bind_none]
  · intro path count intervalMs hcall
    cases m <;> cases hcall

theorem wrapHandler_ok {app : App ι S} {h : Handler ι} {dependencies : List (Depends ι)}
    {middlewares native : Bool} {wrapped : Wrapped ι}
    (hok : app.wrapHandler (E := E) h dependencies middlewares native = .ok wrapped) :
    wrapped = .handler (app.declares dependencies h) := by
  unfold App.wrapHandler at hok
  split at hok
  · cases hok
  · exact (Except.ok.inj hok).symm

theorem crudOf_registration {m : RouteMethod} {o : RouteOptions ι S} {slot : Slot ι}
    {batch : Option Nat × Option Nat} (h : m.hasCrud = true → o.crudTable = none) :
    crudOf (o.registration m slot batch.1 batch.2) = none := by
  unfold crudOf RouteOptions.registration
  cases hcrud : m.hasCrud with
  | false => rfl
  | true => simp [h hcrud]

theorem Protected.step {app app' : App ι S} (h : Protected c app) {step : Step ι S}
    (hguard : Guarded c app step) (hok : app.step mx schemaJson step = .ok app') :
    Protected c app' ∧ app'.dependencies = app.dependencies := by
  cases step with
  | route m o =>
    unfold App.step App.route at hok
    unfold Guarded at hguard
    dsimp only at hok hguard
    cases hhandler : o.handler with
    | none =>
      rw [hhandler] at hok hguard
      dsimp only at hok hguard
      split at hok
      next hcrud =>
        rw [Bool.and_eq_true] at hcrud
        have hbare : Bare (⟨app.dependencies ++ o.dependencies, [], false, false⟩ : Route ι) :=
          ⟨hguard hcrud, fun _ _ hmem => by cases hmem⟩
        exact h.bare (r := o.registration m ⟨_, .crudNoop⟩ none none) hbare hok
      · cases hok
        exact ⟨h, rfl⟩
    | some handler =>
      rw [hhandler] at hok hguard
      dsimp only at hok hguard
      obtain ⟨wrapped, hwrapped, hok⟩ := JustApi.Lib.Result.bind_eq_ok.mp hok
      rcases hguard with hbare | ⟨hbatch, hcrud, hnative, hawaited, hstream⟩
      · exact h.bare (r := o.registration m ⟨_, wrapped⟩ _ _) hbare hok
      · rw [App.wrap, if_neg (not_not_intro hbatch)] at hwrapped
        exact h.resolving (r := o.registration m ⟨_, wrapped⟩ _ _) (wrapHandler_ok hwrapped)
          hawaited (crudOf_registration hcrud) hnative hstream hok
  | sse path handler dependencies =>
    exact h.bare (m := .get) (r := plain path ⟨_, .sse⟩) hguard hok
  | sseNative path count intervalMs =>
    refine h.apply hok hguard (fun r id e hcall => by cases hcall) fun _ _ _ _ => hguard
  | websocket path handler dependencies =>
    unfold App.step at hok
    dsimp only at hok
    split at hok
    · cases hok
    · cases hok
      refine ⟨⟨h.aligned, h.entries, fun path' declared hlookup => ?_⟩, rfl⟩
      by_cases hpath : path' = path
      · rw [hpath, AList.lookup_insert] at hlookup
        cases hlookup
        exact hguard
      · rw [AList.lookup_insert_ne hpath] at hlookup
        exact h.sockets path' declared hlookup
  | streamJson path handler dependencies =>
    unfold App.step at hok
    obtain ⟨wrapped, hwrapped, hok⟩ := JustApi.Lib.Result.bind_eq_ok.mp hok
    rcases hguard with hbare | ⟨hawaited, hstream⟩
    · exact h.bare (m := .get) (r := plain path ⟨_, wrapped⟩) hbare hok
    · exact h.resolving (m := .get) (r := plain path ⟨_, wrapped⟩) (wrapHandler_ok hwrapped)
        hawaited rfl (fun htrue => by cases htrue) (fun hget => hstream hget.2) hok

/-! ## Requests -/

/-- What the tables have where the dispatcher answers by itself. -/
def Grounded (server : Server (Slot ι) S) : Exit F → Prop
  | .sse id _ _ => ∃ spec, server.tables.sseSpecs[id]? = some (some spec)
  | .crud id _ _ _ _ => ∃ spec, server.tables.crud[id]? = some (some spec)
  | .native id _ => server.tables.native[id]? = some true ∧
      ((∃ v, server.schemaValidators[id]? = some (some v)) ∨
        (∃ json, server.tables.schemaJsons[id]? = some (some json)) ∨
          ∃ json, server.tables.querySchemaJsons[id]? = some (some json))
  | _ => True

theorem nativeBody_error {parsers : Parsers F} {server : Server (Slot ι) S} {req : Incoming}
    {exit : Exit F} (h : nativeBody parsers server req = .error exit) :
    ∃ status body, exit = .json status body := by
  unfold nativeBody at h
  split at h
  · cases hform : multipartForm parsers req.body ((contentType req).getD "") with
    | ok form =>
      rw [hform] at h
      cases h
    | error e =>
      rw [hform] at h
      cases h
      unfold multipartForm at hform
      split at hform
      · cases hform
      · split at hform <;> cases hform <;> exact ⟨_, _, rfl⟩
  · cases hbody : limited (F := F) server req.body with
    | error e =>
      rw [hbody] at h
      cases h
      unfold limited at hbody
      split at hbody <;> cases hbody
      exact ⟨_, _, rfl⟩
    | ok body =>
      rw [hbody] at h
      simp only [Except.bind, bind] at h
      split at h
      · split at h <;> cases h
        exact ⟨_, _, rfl⟩
      · cases h

theorem matched_error {server : Server (Slot ι) S} {req : Incoming} {exit : Exit F}
    (h : matched mx server req = .error exit) : ∃ status body, exit = .json status body := by
  unfold matched at h
  split at h <;> cases h <;> exact ⟨_, _, rfl⟩

theorem join_eq_some {α : Type} {o : Option (Option α)} {a : α} :
    o.join = some a ↔ o = some (some a) := by
  rcases o with _ | _ | b <;> simp

theorem answerById_grounded (parsers : Parsers F) (server : Server (Slot ι) S) (id : Nat)
    (query body : Bytes) (call : PythonCall F) :
    Grounded server (answerById parsers server id query body call) := by
  have hnative : ∀ {b}, server.tables.native[id]?.getD false = b → b = true →
      server.tables.native[id]? = some true := by
    rintro b hb rfl
    cases hget : server.tables.native[id]? with
    | none =>
      rw [hget] at hb
      cases hb
    | some b =>
      rw [hget] at hb
      exact congrArg some hb
  unfold answerById
  split
  next nr hnr =>
    unfold tryNativeFastPath at hnr
    split at hnr
    next htrue =>
      refine ⟨hnative rfl htrue, ?_⟩
      split at hnr
      next v hv => exact .inl ⟨v, join_eq_some.mp hv⟩
      · obtain ⟨json, hjson, -⟩ := Option.map_eq_some_iff.mp hnr
        exact .inr (.inl ⟨json, join_eq_some.mp hjson⟩)
    · cases hnr
  · split
    next nr hnr =>
      unfold tryNativeFastPathQuery at hnr
      split at hnr
      next htrue =>
        obtain ⟨json, hjson, -⟩ := Option.map_eq_some_iff.mp hnr
        exact ⟨hnative rfl htrue, .inr (.inr ⟨json, join_eq_some.mp hjson⟩)⟩
      · cases hnr
    · split
      · trivial
      · split <;> trivial

theorem nativeExit_grounded (mx : Matchit E Nat) (parsers : Parsers F)
    (server : Server (Slot ι) S) (scheme : String) (req : Incoming) :
    Grounded server (nativeExit mx parsers server scheme req) := by
  unfold nativeExit
  split
  · trivial
  split
  next exit hexit =>
    obtain ⟨status, body, rfl⟩ := nativeBody_error hexit
    trivial
  split
  next exit hexit =>
    obtain ⟨status, body, rfl⟩ := matched_error hexit
    trivial
  next m hm =>
    dsimp only
    split
    · trivial
    split
    next count intervalMs hsse => exact ⟨_, join_eq_some.mp hsse⟩
    split
    next spec hspec =>
      unfold crudSpec at hspec
      obtain ⟨entry, hentry, -⟩ := Option.bind_eq_some_iff.mp hspec
      exact ⟨entry, join_eq_some.mp hentry⟩
    · exact answerById_grounded parsers server _ _ _ _

/-- A slot and its entries. -/
theorem Protected.slot {app : App ι S} (h : Protected c app) {id : Nat} {slot : Slot ι}
    (hslot : app.slot id = some slot) : ∃ e, app.tables.Holds id e ∧ e.handler = some slot ∧
      EntrySafe c app.dependencies e := by
  have hget := join_eq_some.mp hslot
  obtain ⟨hid, -⟩ := List.getElem?_eq_some_iff.mp hget
  obtain ⟨e, hholds, hsafe⟩ := h.entries id hid
  exact ⟨e, hholds, Option.some.inj (hholds.1.symm.trans hget), hsafe⟩

/-- Where the dispatcher answers by itself, nothing is declared. -/
theorem Protected.declared_bare {app : App ι S} (h : Protected c app) {id : Nat}
    (hentry : ∀ e, app.tables.Holds id e → ¬ (e.sseSpec = none ∧ e.crud = none ∧
      (e.native = true → e.schemaJson = none ∧ e.querySchemaJson = none)))
    (hid : id < app.tables.handlers.length) : Bare (app.declared id) := by
  obtain ⟨e, hholds, hsafe⟩ := h.entries id hid
  have hslot : app.slot id = e.handler := by
    rw [App.slot, hholds.1]
    rfl
  unfold App.declared
  rw [hslot]
  unfold EntrySafe at hsafe
  cases hhandler : e.handler with
  | none =>
    rw [hhandler] at hsafe
    exact ⟨hsafe, fun _ _ hmem => by cases hmem⟩
  | some slot =>
    rw [hhandler] at hsafe
    exact hsafe.resolve_right fun hs => hentry e hholds hs.2.2

theorem Protected.sse_bare {app : App ι S} (h : Protected c app) {id : Nat}
    (hsse : ∃ spec, app.tables.sseSpecs[id]? = some (some spec)) : Bare (app.declared id) := by
  obtain ⟨spec, hspec⟩ := hsse
  refine h.declared_bare (fun e he hs => ?_) ?_
  · have hget := he.2.2.2.1.symm.trans hspec
    rw [hs.1] at hget
    cases hget
  · rw [← h.aligned.2.2.1]
    exact (List.getElem?_eq_some_iff.mp hspec).1

theorem Protected.crud_bare {app : App ι S} (h : Protected c app) {id : Nat}
    (hcrud : ∃ spec, app.tables.crud[id]? = some (some spec)) : Bare (app.declared id) := by
  obtain ⟨spec, hspec⟩ := hcrud
  refine h.declared_bare (fun e he hs => ?_) ?_
  · have hget := he.2.2.1.symm.trans hspec
    rw [hs.2.1] at hget
    cases hget
  · rw [← h.aligned.2.1]
    exact (List.getElem?_eq_some_iff.mp hspec).1

/-- A native handler that the dispatcher answers has a schema. -/
theorem Protected.native_bare {app : App ι S} (h : Protected c app)
    {compile : String → Option (Bytes → Except String Unit)} {id : Nat}
    (hnative : app.tables.native[id]? = some true)
    (hschema : (∃ v, (app.tables.schemaJsons.map (·.bind compile))[id]? = some (some v)) ∨
      (∃ json, app.tables.schemaJsons[id]? = some (some json)) ∨
        ∃ json, app.tables.querySchemaJsons[id]? = some (some json)) :
    Bare (app.declared id) := by
  refine h.declared_bare (fun e he hs => ?_) ?_
  · have htrue : e.native = true := Option.some.inj (he.2.1.symm.trans hnative)
    obtain ⟨hjson, hquery⟩ := hs.2.2 htrue
    have hgetJson := he.2.2.2.2.2.1
    rw [hjson] at hgetJson
    rcases hschema with ⟨v, hv⟩ | ⟨json, hj⟩ | ⟨json, hj⟩
    · rw [List.getElem?_map, hgetJson] at hv
      cases hv
    · cases hgetJson.symm.trans hj
    · have hgetQuery := he.2.2.2.2.2.2.1
      rw [hquery] at hgetQuery
      cases hgetQuery.symm.trans hj
  · rw [← h.aligned.1]
    exact (List.getElem?_eq_some_iff.mp hnative).1

variable [DecidableEq ι]

theorem Protected.answer_safe {app : App ι S} (h : Protected c app) (course : Course ι V X S)
    {id : Nat} {slot : Slot ι} (hslot : app.slot id = some slot) :
    (slot.wrapped.answer c course).Safe c slot.declared ∧
      (slot.wrapped.batchAnswer (V := V) (X := X)).Safe c slot.declared := by
  obtain ⟨e, -, he, hsafe⟩ := h.slot hslot
  unfold EntrySafe at hsafe
  rw [he] at hsafe
  rcases hsafe with hbare | ⟨hwrapped, hawaited, -⟩
  · have hnot := hbare.not_reached c
    constructor
    · cases hw : slot.wrapped with
      | handler route => exact fun _ _ _ _ _ d hd => absurd hd (hnot d)
      | batch => exact hnot
      | sse => exact hnot
      | crudNoop => trivial
    · cases hw : slot.wrapped with
      | handler route => trivial
      | batch => exact hnot
      | sse => exact hnot
      | crudNoop => trivial
  · rw [hwrapped]
    exact ⟨(passed_traced hawaited course).complete, trivial⟩

/-- Whatever answers a request to a protected app is safe. -/
theorem Protected.serve_safe {app : App ι S} (h : Protected c app) (course : Course ι V X S)
    (parsers : Parsers F) (compile : String → Option (Bytes → Except String Unit))
    (needsRequest : List Bool) (hasPool : Bool) (maxBodySize : Nat) (scheme : String)
    (arrival : Arrival) {declared : Route ι} {answer : Answer ι V X}
    (hserve : app.serve c course mx parsers compile needsRequest hasPool maxBodySize scheme
      arrival = some (declared, answer)) : answer.Safe c declared := by
  cases arrival with
  | websocket path =>
    obtain ⟨route, hroute, heq⟩ := Option.map_eq_some_iff.mp hserve
    cases heq
    exact (h.sockets path _ hroute).not_reached c
  | http req =>
    unfold App.serve at hserve
    dsimp only at hserve
    have hgrounded := nativeExit_grounded mx parsers (⟨app.tables,
      app.tables.schemaJsons.map (·.bind compile), needsRequest, hasPool, maxBodySize⟩ :
      Server (Slot ι) S) scheme req
    revert hserve hgrounded
    cases nativeExit mx parsers (⟨app.tables, app.tables.schemaJsons.map (·.bind compile),
      needsRequest, hasPool, maxBodySize⟩ : Server (Slot ι) S) scheme req with
    | json status body => exact fun hserve => by cases hserve
    | validation detail => exact fun hserve => by cases hserve
    | batched id breq =>
      intro hserve _
      obtain ⟨slot, hslot, heq⟩ := Option.map_eq_some_iff.mp hserve
      cases heq
      exact (h.answer_safe course hslot).2
    | sse id count intervalMs =>
      intro hserve hsse
      cases hserve
      exact (h.sse_bare hsse).not_reached c
    | crud id spec pathParams queryString body =>
      intro hserve hcrud
      cases hserve
      exact (h.crud_bare hcrud).not_reached c
    | native id result =>
      rintro hserve ⟨hnative, hschema⟩
      cases result with
      | error detail => cases hserve
      | ok body =>
        cases hserve
        exact (h.native_bare hnative hschema).not_reached c
    | python call =>
      intro hserve _
      unfold App.answer at hserve
      dsimp only at hserve
      split at hserve
      · cases hserve
      next slot hslot =>
        split at hserve
        · cases hserve
          exact (h.answer_safe course hslot).1
        · split at hserve <;> cases hserve
          exact (h.answer_safe course hslot).1

/-! ## Runs -/

omit [DecidableEq ι] in
theorem protected_new (dependencies : List (Depends ι)) (middlewares : Bool) :
    Protected c (App.new (S := S) dependencies middlewares) where
  aligned := ⟨rfl, rfl, rfl, rfl, rfl, rfl, rfl⟩
  entries := fun _ h => absurd h (Nat.not_lt_zero _)
  sockets := fun _ _ h => by cases h

omit [DecidableEq ι] in
theorem protected_run {app app' : App ι S} (h : Protected c app) {steps : List (Step ι S)}
    (hrun : steps.foldlM (App.step mx schemaJson) app = .ok app')
    (hguard : ∀ before step rest reached, steps = before ++ step :: rest →
      before.foldlM (App.step mx schemaJson) app = .ok reached → Guarded c reached step) :
    Protected c app' := by
  induction steps generalizing app with
  | nil =>
    cases hrun
    exact h
  | cons step steps ih =>
    rw [List.foldlM_cons] at hrun
    obtain ⟨next, hnext, hrun⟩ := JustApi.Lib.Result.bind_eq_ok.mp hrun
    have hstep := h.step (hguard [] step steps app rfl rfl) hnext
    refine ih hstep.1 hrun fun before s rest reached hsteps hreached => ?_
    refine hguard (step :: before) s rest reached (by rw [hsteps, List.cons_append]) ?_
    rw [List.foldlM_cons, hnext]
    exact hreached

end Guards

section Items

/-- One dependency, a plain function without parameters. -/
def auth : Callables Unit := ⟨fun _ => .plain, fun _ => []⟩

/-- `GET /items` with the dependency. -/
def items (native : Bool) (querySchema : Option String) : Op Unit String :=
  .step (.route .get ⟨"/items", some ⟨[], false, false, none, none⟩, none, none, querySchema,
    [⟨(), true⟩], false, native, none, none⟩)

def declaredAuth : Route Unit := ⟨[⟨(), true⟩], [], false, false⟩

/-- One call of the wrapper, in which nothing raises. -/
def smooth : Course Unit Unit Unit String :=
  ⟨fun _ _ => true, fun _ => .ok (), (), 1, fun _ => false, 1⟩

def accepting : Parsers Unit := ⟨fun _ _ => .ok (), .ok, fun _ _ => .ok (), some⟩

def getItems : Arrival := .http ⟨.get, "/items", [], [], [], none, "1.1", none⟩

/-- The dependency, then the handler. -/
def itemsAnswer : Answer Unit Unit Unit := .wrapped [.ran 3 () [] (.ok ()), .handler [] (.ok ())]

end Items

end JustApi.Py.Registrations
