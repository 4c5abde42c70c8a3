import JustApi.Lib.Result
import JustApi.Lib.Tally

/-! # Router trees

`APIRouter` and the two `include_router`: what a tree of routers declares, and what the app
registers for it. What a route is served by is its target: a handler, or the directory of a
frontend. -/
namespace JustApi.Py.RouterTrees
open JustApi.Lib.Result JustApi.Lib.Tally

inductive Kind where
  /-- The method in capitals. -/
  | http (method : String)
  | frontend
  | sse
  | ws
  deriving DecidableEq, Repr

/-- What a router is made with. -/
structure Settings (μ δ : Type) where
  /-- `prefix` -/
  routerPrefix : String
  middlewares : List μ
  dependencies : List δ

/-- A call that builds a router. -/
inductive Item (μ δ η : Type) where
  /-- `get`, `post` and so on, or `route` for one of its methods. -/
  | route (method path : String) (target : η) (middlewares : List μ) (dependencies : List δ)
  | frontend (path : String) (target : η)
  | sse (path : String) (target : η) (dependencies : List δ)
  | websocket (path : String) (target : η) (dependencies : List δ)
  /-- `include_router`, with what the other router was built with by then and later. -/
  | includeRouter (includePrefix : String) (dependencies : List δ) (router : Settings μ δ)
      (items late : List (Item μ δ η))

/-- One of the dicts in `routes`. -/
structure Entry (μ δ η : Type) where
  kind : Kind
  path : String
  target : η
  dependencies : Option (List δ)
  middlewares : Option (List μ)

inductive Raised where
  | keyError (key : String)
  | valueError (message : String)
  deriving DecidableEq, Repr

def methods : List String :=
  ["GET", "POST", "PUT", "DELETE", "PATCH", "QUERY", "HEAD", "OPTIONS", "TRACE"]

/-- `upper` -/
def upper (method : String) : String := String.ofList (method.toList.map Char.toUpper)

section Building

variable {μ δ η : Type}

def Entry.merge (self : Settings μ δ) (includePrefix : String) (dependencies : List δ)
    (router : Settings μ δ) (route : Entry μ δ η) : Except Raised (Entry μ δ η) :=
  match route.dependencies with
  | none => .error (.keyError "dependencies")
  | some own => .ok { route with
      path := self.routerPrefix ++ includePrefix ++ route.path
      dependencies := some (dependencies ++ self.dependencies ++ router.dependencies ++ own)
      middlewares := some (self.middlewares ++ router.middlewares ++ route.middlewares.getD []) }

mutual
/-- What a call appends to `self.routes`. -/
def Item.routes (self : Settings μ δ) : Item μ δ η → Except Raised (List (Entry μ δ η))
  | .route method path target middlewares dependencies =>
    .ok (if upper method ∈ methods then
      [⟨.http (upper method), self.routerPrefix ++ path, target, some dependencies,
        some middlewares⟩]
    else [])
  | .frontend path target => .ok [⟨.frontend, path, target, none, none⟩]
  | .sse path target dependencies =>
    .ok [⟨.sse, self.routerPrefix ++ path, target, some dependencies, none⟩]
  | .websocket path target dependencies =>
    .ok [⟨.ws, self.routerPrefix ++ path, target, some dependencies, none⟩]
  | .includeRouter includePrefix dependencies router items _ => do
    (← routesOf router items).mapM (Entry.merge self includePrefix dependencies router)
def routesOf (self : Settings μ δ) : List (Item μ δ η) → Except Raised (List (Entry μ δ η))
  | [] => .ok []
  | item :: rest => do
    let routes ← item.routes self
    let others ← routesOf self rest
    .ok (routes ++ others)
end

/-! ## The app -/

/-- What the app serves a route with. -/
structure AppRoute (μ η : Type) where
  kind : Kind
  path : String
  target : η
  middlewares : List μ

variable {σ : Type} (hasBatch : η → Bool)
  (register : σ → Kind → String → η → Except Raised σ)

/-- Whether the handler is wrapped in the middlewares of its route: a batch handler is not. -/
def Kind.wraps (kind : Kind) (target : η) : Bool :=
  match kind with
  | .http method => !(hasBatch target && method ∈ ["POST", "PUT", "PATCH"])
  | .frontend | .sse | .ws => false

def Entry.appRoute (includePrefix : String) (router : Settings μ δ) (route : Entry μ δ η) :
    Except Raised (AppRoute μ η) :=
  match route.dependencies with
  | none => .error (.keyError "dependencies")
  | some _ =>
    let combinedMws := router.middlewares ++ route.middlewares.getD []
    .ok ⟨route.kind, includePrefix ++ route.path, route.target,
      if route.kind.wraps hasBatch route.target then combinedMws else []⟩

/-- The loop of `JustAPIApp.include_router`, with the routes that the app has got. -/
def includeRoutes (includePrefix : String) (router : Settings μ δ) :
    σ → List (Entry μ δ η) → Except Raised (σ × List (AppRoute μ η))
  | app, [] => .ok (app, [])
  | app, route :: rest => do
    let appRoute ← route.appRoute hasBatch includePrefix router
    let app ← register app appRoute.kind appRoute.path appRoute.target
    let (app, routes) ← includeRoutes includePrefix router app rest
    .ok (app, appRoute :: routes)

/-- `include_router` of a router that was built with these items. -/
def includeRouter (app : σ) (includePrefix : String) (router : Settings μ δ)
    (items : List (Item μ δ η)) : Except Raised (σ × List (AppRoute μ η)) := do
  includeRoutes hasBatch register includePrefix router app (← routesOf router items)

/-! ## What is declared -/

/-- A route as it is declared: with the prefixes and the middlewares from the root to its
router. -/
structure Declared (μ η : Type) where
  kind : Kind
  path : String
  target : η
  /-- The middlewares of the routers above, from the root on. -/
  above : List (List μ)
  router : List μ
  own : List μ

mutual
/-- What is declared by a call, and when `late` holds also what was declared too late. -/
def Item.declared (late : Bool) (pathSoFar : String) (above : List (List μ))
    (self : Settings μ δ) : Item μ δ η → List (Declared μ η)
  | .route method path target middlewares _ =>
    [⟨.http (upper method), pathSoFar ++ path, target, above, self.middlewares, middlewares⟩]
  | .frontend path target =>
    [⟨.frontend, pathSoFar ++ path, target, above, self.middlewares, []⟩]
  | .sse path target _ => [⟨.sse, pathSoFar ++ path, target, above, self.middlewares, []⟩]
  | .websocket path target _ => [⟨.ws, pathSoFar ++ path, target, above, self.middlewares, []⟩]
  | .includeRouter includePrefix _ router items lateItems =>
    let path := pathSoFar ++ includePrefix ++ router.routerPrefix
    let routers := above ++ [self.middlewares]
    declaredBy late path routers router items ++
      if late then declaredBy late path routers router lateItems else []
def declaredBy (late : Bool) (pathSoFar : String) (above : List (List μ))
    (self : Settings μ δ) : List (Item μ δ η) → List (Declared μ η)
  | [] => []
  | item :: rest =>
    item.declared late pathSoFar above self ++ declaredBy late pathSoFar above self rest
end

/-- Every middleware of a router once, the root's outermost, then those of the route where they
are applied. -/
def Declared.appRoute (d : Declared μ η) : AppRoute μ η :=
  ⟨d.kind, d.path, d.target,
    d.above.flatten ++ d.router ++ if d.kind.wraps hasBatch d.target then d.own else []⟩

/-- The app has a route for every declared one, and no others. -/
def Faithful (app : σ) (includePrefix : String) (router : Settings μ δ)
    (items late : List (Item μ δ η)) : Prop :=
  ∃ app' routes, includeRouter hasBatch register app includePrefix router items =
      .ok (app', routes) ∧
    routes.Perm ((declaredBy true (includePrefix ++ router.routerPrefix) [] router
      (items ++ late)).map (Declared.appRoute hasBatch))

/-- The kinds of route that an inclusion brings to the app. -/
def Kind.included : Kind → Bool
  | .http method => method ∈ methods
  | .frontend => false
  | .sse | .ws => true

/-- No frontend and no method that the app does not have, and no middlewares in the routers
above, nor in its own where they are not applied. -/
structure Declared.Sound (d : Declared μ η) : Prop where
  included : d.kind.included = true
  above : d.above.flatten = []
  router : d.kind.wraps hasBatch d.target = false → d.router = []

/-- Nothing is declared on a router after it has been included. -/
def InTime (includePrefix : String) (router : Settings μ δ) (items late : List (Item μ δ η)) :
    Prop :=
  declaredBy true (includePrefix ++ router.routerPrefix) [] router (items ++ late) =
    declaredBy false (includePrefix ++ router.routerPrefix) [] router items

/-- The app takes the routes one after the other. -/
def Accepts : σ → List (AppRoute μ η) → Prop
  | _, [] => True
  | app, route :: rest => ∃ app', register app route.kind route.path route.target = .ok app' ∧
      Accepts app' rest

end Building

section Inclusion

variable {μ δ η σ : Type} {hasBatch : η → Bool}
  {register : σ → Kind → String → η → Except Raised σ}

/-! ## What comes of a declared route -/

/-- Whether a declared route gets into `routes`. -/
def Declared.stored (d : Declared μ η) : Bool := d.kind.included || d.kind = .frontend

def twice (above : List (List μ)) : List μ := above.flatMap fun mws => mws ++ mws

theorem twice_concat (above : List (List μ)) (mws : List μ) :
    twice (above ++ [mws]) = twice above ++ (mws ++ mws) := by
  simp [twice]

/-- The entry that a declared route has in the `routes` of a router, where `outer` and `above` are
what is still to come. -/
structure Becomes (outer : String) (above : List (List μ)) (router : Settings μ δ)
    (d : Declared μ η) (e : Entry μ δ η) : Prop where
  kind : d.kind = e.kind
  path : d.kind ≠ .frontend → d.path = outer ++ e.path
  target : d.target = e.target
  middlewares : twice d.above ++ d.router ++ d.own =
    twice above ++ router.middlewares ++ e.middlewares.getD []
  dependencies : e.dependencies = none ↔ d.kind = .frontend

theorem Becomes.merge {outer includePrefix : String} {above : List (List μ)}
    {self router : Settings μ δ} {dependencies : List δ} {d : Declared μ η} {e e' : Entry μ δ η}
    (h : Becomes (outer ++ self.routerPrefix ++ includePrefix) (above ++ [self.middlewares])
      router d e)
    (hmerge : e.merge self includePrefix dependencies router = .ok e') :
    Becomes outer above self d e' := by
  obtain ⟨hkind, hpath, htarget, hmws, hdeps⟩ := h
  unfold Entry.merge at hmerge
  cases hown : e.dependencies with
  | none => simp [hown] at hmerge
  | some own =>
    simp only [hown, Except.ok.injEq] at hmerge
    subst hmerge
    refine ⟨hkind, ?_, htarget, ?_, ?_⟩
    · intro hne
      simp [hpath hne, String.append_assoc]
    · rw [hmws, twice_concat]
      simp
    · simp [← hdeps, hown]

theorem merge_succeeds {self router : Settings μ δ} {includePrefix : String}
    {dependencies : List δ} {e : Entry μ δ η} (h : e.dependencies ≠ none) :
    ∃ e', e.merge self includePrefix dependencies router = .ok e' := by
  obtain ⟨own, hown⟩ := Option.ne_none_iff_exists'.mp h
  exact ⟨_, by rw [Entry.merge, hown]⟩

/-- A merged list is merged one by one. -/
theorem Becomes.merged {outer includePrefix : String} {above : List (List μ)}
    {self router : Settings μ δ} {dependencies : List δ} {ds : List (Declared μ η)}
    {es es' : List (Entry μ δ η)}
    (h : List.Forall₂ (Becomes (outer ++ self.routerPrefix ++ includePrefix)
      (above ++ [self.middlewares]) router) ds es)
    (hmerge : es.mapM (Entry.merge self includePrefix dependencies router) = .ok es') :
    List.Forall₂ (Becomes outer above self) ds es' := by
  induction h generalizing es' with
  | nil =>
    cases hmerge
    exact .nil
  | cons hd _ ih =>
    rw [List.mapM_cons] at hmerge
    obtain ⟨e', he', hmerge⟩ := bind_eq_ok.mp hmerge
    obtain ⟨rest', hrest', hmerge⟩ := bind_eq_ok.mp hmerge
    cases hmerge
    exact .cons (hd.merge he') (ih hrest')

mutual
theorem Item.becomes (outer : String) (above : List (List μ)) (self : Settings μ δ) :
    ∀ (item : Item μ δ η) (es : List (Entry μ δ η)), item.routes self = .ok es →
      List.Forall₂ (Becomes outer above self)
        ((item.declared false (outer ++ self.routerPrefix) above self).filter Declared.stored) es
  | .route method path target middlewares dependencies, es, h => by
    rw [Item.routes, Except.ok.injEq] at h
    subst h
    by_cases hmethod : upper method ∈ methods
    · simp only [hmethod, if_true, Item.declared, Declared.stored, Kind.included, decide_true,
        Bool.true_or, List.filter_cons_of_pos, List.filter_nil]
      exact .cons ⟨rfl, fun _ => String.append_assoc, rfl, rfl, by simp⟩ .nil
    · simp [hmethod, Item.declared, Declared.stored, Kind.included]
  | .frontend path target, es, h => by
    rw [Item.routes, Except.ok.injEq] at h
    subst h
    exact .cons ⟨rfl, fun hne => absurd rfl hne, rfl, rfl, by simp⟩ .nil
  | .sse path target dependencies, es, h => by
    rw [Item.routes, Except.ok.injEq] at h
    subst h
    exact .cons ⟨rfl, fun _ => String.append_assoc, rfl, rfl, by simp⟩ .nil
  | .websocket path target dependencies, es, h => by
    rw [Item.routes, Except.ok.injEq] at h
    subst h
    exact .cons ⟨rfl, fun _ => String.append_assoc, rfl, rfl, by simp⟩ .nil
  | .includeRouter includePrefix dependencies router items late, es, h => by
    rw [Item.routes] at h
    obtain ⟨inner, hinner, hmerge⟩ := bind_eq_ok.mp h
    have hrest := becomesBy (outer ++ self.routerPrefix ++ includePrefix)
      (above ++ [self.middlewares]) router items inner hinner
    simp only [Item.declared, Bool.false_eq_true, if_false, List.append_nil]
    exact Becomes.merged hrest hmerge
theorem becomesBy (outer : String) (above : List (List μ)) (self : Settings μ δ) :
    ∀ (items : List (Item μ δ η)) (es : List (Entry μ δ η)), routesOf self items = .ok es →
      List.Forall₂ (Becomes outer above self)
        ((declaredBy false (outer ++ self.routerPrefix) above self items).filter Declared.stored)
        es
  | [], es, h => by
    cases h
    exact .nil
  | item :: rest, es, h => by
    rw [routesOf] at h
    obtain ⟨routes, hroutes, h⟩ := bind_eq_ok.mp h
    obtain ⟨others, hothers, h⟩ := bind_eq_ok.mp h
    cases h
    rw [declaredBy, List.filter_append]
    exact List.rel_append (Item.becomes outer above self item routes hroutes)
      (becomesBy outer above self rest others hothers)
end

/-- Without frontends nothing is missed when routers are included. -/
theorem Becomes.dependencies_ne {outer : String} {above : List (List μ)} {self : Settings μ δ}
    {ds : List (Declared μ η)} {es : List (Entry μ δ η)}
    (h : List.Forall₂ (Becomes outer above self) ds es) (hno : ∀ d ∈ ds, d.kind ≠ .frontend) :
    ∀ e ∈ es, e.dependencies ≠ none := by
  induction h with
  | nil => simp
  | cons hd _ ih =>
    obtain ⟨hfirst, hrest⟩ := List.forall_mem_cons.mp hno
    exact List.forall_mem_cons.mpr ⟨fun hnone => hfirst (hd.dependencies.mp hnone), ih hrest⟩

mutual
theorem Item.routes_succeeds (outer : String) (above : List (List μ)) (self : Settings μ δ) :
    ∀ item : Item μ δ η,
      (∀ d ∈ item.declared false (outer ++ self.routerPrefix) above self, d.kind ≠ .frontend) →
      ∃ es, item.routes self = .ok es
  | .route _ _ _ _ _, _ => ⟨_, rfl⟩
  | .frontend _ _, _ => ⟨_, rfl⟩
  | .sse _ _ _, _ => ⟨_, rfl⟩
  | .websocket _ _ _, _ => ⟨_, rfl⟩
  | .includeRouter includePrefix dependencies router items late, hno => by
    simp only [Item.declared, Bool.false_eq_true, if_false, List.append_nil] at hno
    obtain ⟨inner, hinner⟩ := routesOf_succeeds (outer ++ self.routerPrefix ++ includePrefix)
      (above ++ [self.middlewares]) router items hno
    have hbecomes := becomesBy (outer ++ self.routerPrefix ++ includePrefix)
      (above ++ [self.middlewares]) router items inner hinner
    have hdeps := Becomes.dependencies_ne hbecomes fun d hd => hno d (List.mem_of_mem_filter hd)
    obtain ⟨es, hes⟩ := mapM_succeeds (f := Entry.merge self includePrefix dependencies router)
      fun e he => merge_succeeds (hdeps e he)
    exact ⟨es, by rw [Item.routes, hinner, ok_bind, hes]⟩
theorem routesOf_succeeds (outer : String) (above : List (List μ)) (self : Settings μ δ) :
    ∀ items : List (Item μ δ η),
      (∀ d ∈ declaredBy false (outer ++ self.routerPrefix) above self items,
        d.kind ≠ .frontend) →
      ∃ es, routesOf self items = .ok es
  | [], _ => ⟨[], rfl⟩
  | item :: rest, hno => by
    rw [declaredBy] at hno
    obtain ⟨routes, hroutes⟩ := Item.routes_succeeds outer above self item
      fun d hd => hno d (List.mem_append_left _ hd)
    obtain ⟨others, hothers⟩ := routesOf_succeeds outer above self rest
      fun d hd => hno d (List.mem_append_right _ hd)
    exact ⟨routes ++ others, by rw [routesOf, hroutes, ok_bind, hothers, ok_bind]⟩
end

/-! ## What the app gets -/

/-- What the app really serves a declared route with: the middlewares of the routers above are
applied twice. -/
def Declared.served (hasBatch : η → Bool) (d : Declared μ η) : AppRoute μ η :=
  ⟨d.kind, d.path, d.target,
    if d.kind.wraps hasBatch d.target then twice d.above ++ d.router ++ d.own else []⟩

theorem Becomes.appRoute {includePrefix : String} {router : Settings μ δ} {d : Declared μ η}
    {e : Entry μ δ η} (h : Becomes includePrefix [] router d e) {r : AppRoute μ η}
    (hr : e.appRoute hasBatch includePrefix router = .ok r) :
    d.kind ≠ .frontend ∧ d.served hasBatch = r := by
  obtain ⟨hkind, hpath, htarget, hmws, hdeps⟩ := h
  unfold Entry.appRoute at hr
  cases hown : e.dependencies with
  | none => simp [hown] at hr
  | some own =>
    have hne : d.kind ≠ .frontend := fun hf => by simp [hdeps.mpr hf] at hown
    simp only [hown, Except.ok.injEq] at hr
    subst hr
    refine ⟨hne, ?_⟩
    simp only [Declared.served, hkind, hpath hne, htarget, hmws]
    rfl

theorem appRoute_succeeds (hasBatch : η → Bool) {includePrefix : String} {router : Settings μ δ}
    {e : Entry μ δ η} (h : e.dependencies ≠ none) :
    ∃ r, e.appRoute hasBatch includePrefix router = .ok r := by
  obtain ⟨own, hown⟩ := Option.ne_none_iff_exists'.mp h
  exact ⟨_, by rw [Entry.appRoute, hown]⟩

/-- The loop goes through if each route can be had and the app takes it. -/
theorem includeRoutes_eq_ok {includePrefix : String} {router : Settings μ δ} :
    ∀ (es : List (Entry μ δ η)) (app : σ) (routes : List (AppRoute μ η)),
      (∃ app', includeRoutes hasBatch register includePrefix router app es = .ok (app', routes)) ↔
        List.Forall₂ (fun e r => e.appRoute hasBatch includePrefix router = .ok r) es routes ∧
          Accepts register app routes
  | [], app, routes => by
    constructor
    · rintro ⟨app', h⟩
      cases h
      exact ⟨.nil, trivial⟩
    · rintro ⟨hroutes, -⟩
      cases hroutes
      exact ⟨app, rfl⟩
  | e :: rest, app, routes => by
    constructor
    · rintro ⟨app', h⟩
      rw [includeRoutes] at h
      obtain ⟨r, hr, h⟩ := bind_eq_ok.mp h
      obtain ⟨next, hnext, h⟩ := bind_eq_ok.mp h
      obtain ⟨⟨last, others⟩, hrest, h⟩ := bind_eq_ok.mp h
      cases h
      obtain ⟨hroutes, haccepts⟩ := (includeRoutes_eq_ok rest next others).mp ⟨_, hrest⟩
      exact ⟨.cons hr hroutes, next, hnext, haccepts⟩
    · rintro ⟨hroutes, haccepts⟩
      cases hroutes with
      | cons hr hroutes =>
        obtain ⟨next, hnext, haccepts⟩ := haccepts
        obtain ⟨app', hrest⟩ := (includeRoutes_eq_ok rest next _).mpr ⟨hroutes, haccepts⟩
        exact ⟨app', by rw [includeRoutes, hr, ok_bind, hnext, ok_bind, hrest, ok_bind]⟩

theorem Becomes.included {includePrefix : String} {router : Settings μ δ}
    {ds : List (Declared μ η)} {es : List (Entry μ δ η)} {routes : List (AppRoute μ η)}
    (h : List.Forall₂ (Becomes includePrefix [] router) ds es)
    (hroutes : List.Forall₂ (fun e r => e.appRoute hasBatch includePrefix router = .ok r) es
      routes) :
    (∀ d ∈ ds, d.kind ≠ .frontend) ∧ routes = ds.map (Declared.served hasBatch) := by
  induction h generalizing routes with
  | nil =>
    cases hroutes
    exact ⟨by simp, rfl⟩
  | cons hd _ ih =>
    cases hroutes with
    | cons hr hroutes =>
      obtain ⟨hne, hserved⟩ := hd.appRoute hr
      obtain ⟨hrest, heq⟩ := ih hroutes
      exact ⟨List.forall_mem_cons.mpr ⟨hne, hrest⟩, by rw [List.map_cons, hserved, heq]⟩

theorem appRoutes_succeed (hasBatch : η → Bool) {includePrefix : String} {router : Settings μ δ}
    {es : List (Entry μ δ η)} (h : ∀ e ∈ es, e.dependencies ≠ none) :
    ∃ routes, List.Forall₂ (fun e r => e.appRoute hasBatch includePrefix router = .ok r) es
      routes := by
  induction es with
  | nil => exact ⟨[], .nil⟩
  | cons e rest ih =>
    obtain ⟨hfirst, hrest⟩ := List.forall_mem_cons.mp h
    obtain ⟨r, hr⟩ := appRoute_succeeds hasBatch hfirst
    obtain ⟨routes, hroutes⟩ := ih hrest
    exact ⟨r :: routes, .cons hr hroutes⟩

section Routers

variable {includePrefix : String} {router : Settings μ δ} {items late : List (Item μ δ η)}
  {app app' : σ} {routes : List (AppRoute μ η)}

/-- What the app gets is what is stored in time. -/
theorem routes_of_includeRouter
    (h : includeRouter hasBatch register app includePrefix router items = .ok (app', routes)) :
    Accepts register app routes ∧
      (∀ d ∈ (declaredBy false (includePrefix ++ router.routerPrefix) [] router items).filter
        Declared.stored, d.kind ≠ .frontend) ∧
      routes = ((declaredBy false (includePrefix ++ router.routerPrefix) [] router items).filter
        Declared.stored).map (Declared.served hasBatch) := by
  obtain ⟨es, hes, h⟩ := bind_eq_ok.mp h
  obtain ⟨hroutes, haccepts⟩ := (includeRoutes_eq_ok es app routes).mp ⟨app', h⟩
  exact ⟨haccepts, Becomes.included (becomesBy includePrefix [] router items es hes) hroutes⟩

/-- Without frontends all that is stored is included, if the app takes it. -/
theorem includeRouter_succeeds
    (hno : ∀ d ∈ declaredBy false (includePrefix ++ router.routerPrefix) [] router items,
      d.kind ≠ .frontend)
    (haccepts : Accepts register app
      (((declaredBy false (includePrefix ++ router.routerPrefix) [] router items).filter
        Declared.stored).map (Declared.served hasBatch))) :
    ∃ app', includeRouter hasBatch register app includePrefix router items = .ok (app',
      ((declaredBy false (includePrefix ++ router.routerPrefix) [] router items).filter
        Declared.stored).map (Declared.served hasBatch)) := by
  obtain ⟨es, hes⟩ := routesOf_succeeds includePrefix [] router items hno
  have hbecomes := becomesBy includePrefix [] router items es hes
  obtain ⟨routes, hroutes⟩ := appRoutes_succeed hasBatch
    (Becomes.dependencies_ne hbecomes fun d hd => hno d (List.mem_of_mem_filter hd))
  obtain ⟨-, rfl⟩ := Becomes.included hbecomes hroutes
  obtain ⟨app', happ'⟩ := (includeRoutes_eq_ok es app _).mpr ⟨hroutes, haccepts⟩
  exact ⟨app', by rw [includeRouter, hes, ok_bind, happ']⟩

end Routers

/-! ## Faithful inclusion -/

mutual
/-- What is declared in time is among what is declared. -/
theorem Item.declared_sublist (pathSoFar : String) (above : List (List μ))
    (self : Settings μ δ) : ∀ item : Item μ δ η,
      (item.declared false pathSoFar above self).Sublist (item.declared true pathSoFar above self)
  | .route _ _ _ _ _ => List.Sublist.refl _
  | .frontend _ _ => List.Sublist.refl _
  | .sse _ _ _ => List.Sublist.refl _
  | .websocket _ _ _ => List.Sublist.refl _
  | .includeRouter includePrefix dependencies router items late => by
    simp only [Item.declared, Bool.false_eq_true, if_false, if_true, List.append_nil]
    exact (declaredBy_sublist _ _ router items).trans (List.sublist_append_left _ _)
theorem declaredBy_sublist (pathSoFar : String) (above : List (List μ)) (self : Settings μ δ) :
    ∀ items : List (Item μ δ η), (declaredBy false pathSoFar above self items).Sublist
      (declaredBy true pathSoFar above self items)
  | [] => List.Sublist.refl _
  | item :: rest => by
    rw [declaredBy, declaredBy]
    exact (Item.declared_sublist pathSoFar above self item).append
      (declaredBy_sublist pathSoFar above self rest)
end

theorem declaredBy_append (late : Bool) (pathSoFar : String) (above : List (List μ))
    (self : Settings μ δ) (items others : List (Item μ δ η)) :
    declaredBy late pathSoFar above self (items ++ others) =
      declaredBy late pathSoFar above self items ++ declaredBy late pathSoFar above self others := by
  induction items with
  | nil => rfl
  | cons item rest ih => rw [List.cons_append, declaredBy, ih, declaredBy, List.append_assoc]

theorem length_twice (above : List (List μ)) :
    (twice above).length = above.flatten.length + above.flatten.length := by
  induction above with
  | nil => rfl
  | cons mws rest ih =>
    simp only [twice, List.flatMap_cons, List.length_append, List.flatten_cons] at ih ⊢
    omega

theorem Declared.Sound.served_eq {d : Declared μ η} (h : d.Sound hasBatch) :
    d.served hasBatch = d.appRoute hasBatch := by
  have htwice : twice d.above = [] := by
    rw [← List.length_eq_zero_iff, length_twice, h.above]
    rfl
  unfold Declared.served Declared.appRoute
  cases hwraps : d.kind.wraps hasBatch d.target with
  | true => simp [htwice, h.above]
  | false => simp [h.above, h.router hwraps]

/-- The middlewares of a route, if it is wrapped, and else. -/
def AppRoute.weight (hasBatch : η → Bool) (wrapped : Bool) (r : AppRoute μ η) : Nat :=
  if r.kind.wraps hasBatch r.target = wrapped then r.middlewares.length else 0

theorem Declared.weight_wrapped_le (d : Declared μ η) :
    (d.appRoute hasBatch).weight hasBatch true ≤ (d.served hasBatch).weight hasBatch true := by
  simp only [AppRoute.weight, Declared.appRoute, Declared.served]
  by_cases hwraps : d.kind.wraps hasBatch d.target = true
  · simp only [hwraps, if_true, List.length_append, length_twice]
    omega
  · simp [hwraps]

theorem Declared.weight_bare_le (d : Declared μ η) :
    (d.served hasBatch).weight hasBatch false ≤ (d.appRoute hasBatch).weight hasBatch false := by
  simp only [AppRoute.weight, Declared.appRoute, Declared.served]
  by_cases hwraps : d.kind.wraps hasBatch d.target = true
  · simp [hwraps]
  · simp [hwraps]

/-- Where the app serves as much as is declared, every route is sound. -/
theorem sound_of_perm {ds : List (Declared μ η)} (hincluded : ∀ d ∈ ds, d.kind.included = true)
    (hperm : (ds.map (Declared.served hasBatch)).Perm (ds.map (Declared.appRoute hasBatch))) :
    ∀ d ∈ ds, d.Sound hasBatch := by
  intro d hd
  have hwrapped := weight_eq_of_perm (fun d _ => d.weight_wrapped_le) hperm.symm d hd
  have hbare := weight_eq_of_perm (fun d _ => d.weight_bare_le) hperm d hd
  simp only [AppRoute.weight, Declared.appRoute, Declared.served] at hwrapped hbare
  cases hwraps : d.kind.wraps hasBatch d.target with
  | true =>
    simp only [hwraps, if_true, List.length_append, length_twice] at hwrapped
    refine ⟨hincluded d hd, List.length_eq_zero_iff.mp (by omega), fun h => ?_⟩
    rw [hwraps] at h
    cases h
  | false =>
    simp only [hwraps, if_true, Bool.false_eq_true, if_false, List.append_nil, List.length_nil,
      List.length_append] at hbare
    exact ⟨hincluded d hd, List.length_eq_zero_iff.mp (by omega),
      fun _ => List.length_eq_zero_iff.mp (by omega)⟩

theorem Declared.stored_of_included {d : Declared μ η} (h : d.kind.included = true) :
    d.stored = true := by
  rw [Declared.stored, h, Bool.true_or]

theorem Declared.included_of_stored {d : Declared μ η} (h : d.stored = true)
    (hne : d.kind ≠ .frontend) : d.kind.included = true := by
  simpa [Declared.stored, hne] using h

theorem ne_frontend_of_included {kind : Kind} (h : kind.included = true) : kind ≠ .frontend := by
  intro hf
  rw [hf] at h
  cases h

/-- Nothing is left out and nothing comes late where the two lists are of one length. -/
theorem all_stored_of_length {includePrefix : String} {router : Settings μ δ}
    {items late : List (Item μ δ η)}
    (hlength : ((declaredBy false (includePrefix ++ router.routerPrefix) [] router items).filter
        Declared.stored).length =
      (declaredBy true (includePrefix ++ router.routerPrefix) [] router (items ++ late)).length) :
    (declaredBy false (includePrefix ++ router.routerPrefix) [] router items).filter
        Declared.stored =
      declaredBy true (includePrefix ++ router.routerPrefix) [] router (items ++ late) ∧
    InTime includePrefix router items late := by
  have hlive : (declaredBy false (includePrefix ++ router.routerPrefix) [] router items).Sublist
      (declaredBy true (includePrefix ++ router.routerPrefix) [] router (items ++ late)) := by
    rw [declaredBy_append]
    exact (declaredBy_sublist _ _ router items).trans (List.sublist_append_left _ _)
  have hall := (List.filter_sublist.trans hlive).eq_of_length hlength
  have hfilter := List.filter_sublist.eq_of_length
    (Nat.le_antisymm (List.length_filter_le _ _) (hlive.length_le.trans_eq hlength.symm))
  exact ⟨hall, hall.symm.trans hfilter⟩

/-- **Router trees.** An inclusion is faithful exactly if every declared route is sound, none is
declared too late, and the app takes them all. -/
theorem include_faithful_iff (hasBatch : η → Bool)
    (register : σ → Kind → String → η → Except Raised σ) (app : σ) (includePrefix : String)
    (router : Settings μ δ) (items late : List (Item μ δ η)) :
    Faithful hasBatch register app includePrefix router items late ↔
      (∀ d ∈ declaredBy true (includePrefix ++ router.routerPrefix) [] router (items ++ late),
        d.Sound hasBatch) ∧
      InTime includePrefix router items late ∧
      Accepts register app ((declaredBy true (includePrefix ++ router.routerPrefix) [] router
        (items ++ late)).map (Declared.appRoute hasBatch)) := by
  constructor
  · rintro ⟨app', routes, hincluded, hperm⟩
    obtain ⟨haccepts, hno, rfl⟩ := routes_of_includeRouter hincluded
    have hlength := hperm.length_eq
    rw [List.length_map, List.length_map] at hlength
    obtain ⟨hall, hintime⟩ := all_stored_of_length hlength
    rw [hall] at hperm hno haccepts
    have hstored : ∀ d ∈ declaredBy true (includePrefix ++ router.routerPrefix) [] router
        (items ++ late), d.stored = true := by
      intro d hd
      rw [← hall] at hd
      exact List.of_mem_filter hd
    have hsound := sound_of_perm
      (fun d hd => Declared.included_of_stored (hstored d hd) (hno d hd)) hperm
    refine ⟨hsound, hintime, ?_⟩
    rwa [List.map_congr_left fun d hd => (hsound d hd).served_eq] at haccepts
  · rintro ⟨hsound, hintime, haccepts⟩
    unfold InTime at hintime
    unfold Faithful
    rw [hintime] at hsound haccepts ⊢
    have hfilter : (declaredBy false (includePrefix ++ router.routerPrefix) [] router items).filter
        Declared.stored =
        declaredBy false (includePrefix ++ router.routerPrefix) [] router items :=
      List.filter_eq_self.mpr fun d hd => Declared.stored_of_included (hsound d hd).included
    have hserved := List.map_congr_left fun d hd => (hsound d hd).served_eq
    obtain ⟨app', happ'⟩ := includeRouter_succeeds
      (fun d hd => ne_frontend_of_included (hsound d hd).included)
      (by rwa [hfilter, hserved] : Accepts register app _)
    rw [hfilter, hserved] at happ'
    exact ⟨app', _, happ', List.Perm.refl _⟩

end Inclusion

/-! ## Some trees -/

/-- An app that takes everything. -/
def takesAll (_ : Unit) (_ : Kind) (_ : String) (_ : String) : Except Raised Unit := .ok ()

def noBatch (_ : String) : Bool := false

def api : Settings String Unit := ⟨"/api", ["log"], []⟩

/-- Users below the API. -/
def nested : List (Item String Unit String) :=
  [.includeRouter "/v1" [] ⟨"/users", ["auth"], []⟩ [.route "GET" "/list" "list" [] []] []]

/-- A router below another is wrapped in the outer middleware twice, a stream in none, and a
frontend is not included at all. -/
theorem routers_unfaithful :
    includeRouter noBatch takesAll () "" api nested =
      .ok ((), [⟨.http "GET", "/api/v1/users/list", "list", ["log", "log", "auth"]⟩]) ∧
    ¬ Faithful noBatch takesAll () "" api nested [] ∧
    ¬ Faithful noBatch takesAll () "" api [.sse "/events" "events" []] [] ∧
    ¬ Faithful noBatch takesAll () "" api [.frontend "/" "dist"] [] := by
  have hnested : includeRouter noBatch takesAll () "" api nested =
      .ok ((), [⟨.http "GET", "/api/v1/users/list", "list", ["log", "log", "auth"]⟩]) := by
    with_unfolding_all rfl
  refine ⟨hnested, ?_, ?_, ?_⟩
  · rintro ⟨_, routes, h, hperm⟩
    rw [hnested] at h
    cases h
    have hmws := congrArg AppRoute.middlewares (List.singleton_perm_singleton.mp hperm)
    exact absurd hmws (by decide)
  · rintro ⟨_, routes, h, hperm⟩
    cases h
    have hmws := congrArg AppRoute.middlewares (List.singleton_perm_singleton.mp hperm)
    exact absurd hmws (by decide)
  · rintro ⟨_, routes, h, -⟩
    cases h

end JustApi.Py.RouterTrees
