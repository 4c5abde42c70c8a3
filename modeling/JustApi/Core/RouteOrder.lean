import JustApi.Core.GatewayOrder

/-! # The order of registration

Routes that are registered one after another, and when they can be registered in any
order: an explicit `HEAD` route meets the one that a `GET` route brings along. -/
namespace JustApi.Core.RouteOrder
open JustApi.Core.Http JustApi.Core.Routing JustApi.Core.Gateway

/-- A method, a path and a handler. -/
abbrev Registration (T : Type) := Method × String × T

section Registering

variable {E T : Type} (mx : Matchit E T)

/-- One registration, an error if it is refused. -/
def registerOne (r : Router T) (a : Registration T) : Except E (Router T) :=
  match r.insert mx a.1 a.2.1 a.2.2 with
  | (.ok _, r) => .ok r
  | (.error e, _) => .error e

/-- The registrations one after another, up to the first that is refused. -/
def register (r : Router T) (regs : List (Registration T)) : Except E (Router T) :=
  regs.foldlM (registerOne mx) r

/-- What a router answers to requests that come one after another. -/
def answers (r : Router T) (w : World T) : List Key → List (Except RouterError (RouteResolution T))
  | [] => []
  | (method, path) :: requests =>
    (w.resolve mx r method path).1 :: answers r (w.resolve mx r method path).2 requests

/-- In every other order the registrations succeed as well, the router answers alike, from
whatever the caches hold, and lists no route twice. -/
def OrderFree (cache : Option Nat) (regs : List (Registration T)) (r : Router T) : Prop :=
  ∀ regs', regs.Perm regs' → ∃ r', register mx ⟨∅, [], cache⟩ regs' = .ok r' ∧
    (∀ w requests, answers mx r w requests = answers mx r' w requests) ∧ r'.routeList.Nodup

end Registering

/-- No route for `HEAD` conflicts with a route for `GET`. -/
def HeadsClear {T : Type} (conflicts : String → String → Prop)
    (regs : List (Registration T)) : Prop :=
  ∀ a ∈ regs, ∀ b ∈ regs, a.1 = .head → b.1 = .get → ¬ conflicts a.2.1 b.2.1

/-- The matcher rejects what is not valid and what conflicts with a route it has, and does
not depend on the order of routes that do not conflict. -/
structure Orderless {E T : Type} (mx : Matchit E T) (valid : String → Prop)
    (conflicts : String → String → Prop) : Prop where
  check : ∀ paths path, (∃ u, mx.check paths path = .ok u) ↔
    valid path ∧ ∀ p ∈ paths, ¬ conflicts p path
  symm : ∀ p q, conflicts p q → conflicts q p
  self : ∀ p, valid p → conflicts p p
  empty : ∀ path, mx.find [] path = none
  order : ∀ routes routes', Fits valid conflicts routes → Fits valid conflicts routes' →
    routes.Perm routes' → ∀ path, mx.find routes path = mx.find routes' path

section Order

variable {E T : Type} {mx : Matchit E T} {valid : String → Prop}
  {conflicts : String → String → Prop}

/-! ## One registration -/

/-- The methods whose matchers a registration goes to. -/
def tables (method : Method) : List Method := if method = .get then [.get, .head] else [method]

theorem mem_tables {method m : Method} :
    m ∈ tables method ↔ m = method ∨ method = .get ∧ m = .head := by
  unfold tables
  by_cases h : method = .get <;> simp [h]

theorem insert_eq_ok (hlaw : Orderless mx valid conflicts) {routes : List (String × T)}
    {path : String} (hvalid : valid path) (hfree : ∀ route ∈ routes, ¬ conflicts route.1 path)
    (handler : T) : mx.insert routes path handler = .ok (routes ++ [(path, handler)]) := by
  have hpaths : ∀ p ∈ routes.map Prod.fst, ¬ conflicts p path := List.forall_mem_map.mpr hfree
  obtain ⟨u, hu⟩ := (hlaw.check _ path).mpr ⟨hvalid, hpaths⟩
  rw [Matchit.insert, hu]
  rfl

theorem of_insert_eq_ok (hlaw : Orderless mx valid conflicts) {routes routes' : List (String × T)}
    {path : String} {handler : T} (h : mx.insert routes path handler = .ok routes') :
    valid path ∧ (∀ route ∈ routes, ¬ conflicts route.1 path) ∧
      routes' = routes ++ [(path, handler)] := by
  unfold Matchit.insert at h
  cases hcheck : mx.check (routes.map Prod.fst) path with
  | error e =>
    rw [hcheck] at h
    cases h
  | ok u =>
    rw [hcheck] at h
    obtain ⟨hvalid, hpaths⟩ := (hlaw.check _ path).mp ⟨u, hcheck⟩
    exact ⟨hvalid, fun route hmem => hpaths _ (List.mem_map_of_mem hmem), (Except.ok.inj h).symm⟩

/-- A route that fits in all its matchers is in all of them. -/
theorem insert_fits (hlaw : Orderless mx valid conflicts) {r : Router T} {method : Method}
    {path : String} (hvalid : valid path)
    (hfree : ∀ m ∈ tables method, ∀ route ∈ r.routesOf m, ¬ conflicts route.1 path) (handler : T) :
    ∃ r', r.insert mx method path handler = (.ok (), r') ∧ r'.cache = r.cache ∧
      r'.routeList = r.routeList ++ (tables method).map (·, path) ∧
      ∀ m, r'.routesOf m =
        if m ∈ tables method then r.routesOf m ++ [(path, handler)] else r.routesOf m := by
  have hself := insert_eq_ok hlaw hvalid (hfree method (mem_tables.mpr (.inl rfl))) handler
  by_cases hget : method = .get
  · subst hget
    have hhead := insert_eq_ok hlaw hvalid (hfree .head (mem_tables.mpr (.inr ⟨rfl, rfl⟩))) handler
    rw [← routesOf_insert_ne r (by decide : Method.head ≠ .get) (r.routesOf .get ++ [(path, handler)])
      (r.routeList ++ [(.get, path)]) r.cache] at hhead
    unfold Router.insert
    rw [hself]
    dsimp only
    rw [if_pos rfl, hhead]
    refine ⟨_, rfl, rfl, List.append_assoc _ _ _, fun m => ?_⟩
    by_cases hm : m = .head
    · subst hm
      rw [if_pos (mem_tables.mpr (.inr ⟨rfl, rfl⟩)), routesOf_insert_self,
        routesOf_insert_ne r (by decide)]
    · rw [routesOf_insert_ne ⟨r.routes.insert .get _, [], none⟩ hm]
      by_cases hm' : m = .get
      · subst hm'
        rw [if_pos (mem_tables.mpr (.inl rfl)), routesOf_insert_self]
      · rw [if_neg (by simp [mem_tables, hm, hm']), routesOf_insert_ne r hm']
  · unfold Router.insert
    rw [hself]
    dsimp only
    rw [if_neg hget]
    refine ⟨_, rfl, rfl, by simp [tables, hget], fun m => ?_⟩
    by_cases hm : m = method
    · subst hm
      rw [if_pos (mem_tables.mpr (.inl rfl)), routesOf_insert_self]
    · rw [if_neg (by simp [mem_tables, hm, hget]), routesOf_insert_ne r hm]

/-- A registration that succeeds has found its method's matcher free, and takes nothing out
of any matcher. -/
theorem of_insert_ok (hlaw : Orderless mx valid conflicts) {r r' : Router T} {method : Method}
    {path : String} {handler : T} {u : Unit}
    (h : r.insert mx method path handler = (.ok u, r')) :
    valid path ∧ (∀ route ∈ r.routesOf method, ¬ conflicts route.1 path) ∧
      (path, handler) ∈ r'.routesOf method ∧ ∀ m, ∀ route ∈ r.routesOf m, route ∈ r'.routesOf m := by
  unfold Router.insert at h
  cases hself : mx.insert (r.routesOf method) path handler with
  | error e =>
    rw [hself] at h
    cases (Prod.mk.inj h).1
  | ok routes =>
    obtain ⟨hvalid, hfree, rfl⟩ := of_insert_eq_ok hlaw hself
    refine ⟨hvalid, hfree, ?_⟩
    rw [hself] at h
    dsimp only at h
    by_cases hget : method = .get
    · subst hget
      rw [if_pos rfl] at h
      rw [← (Prod.mk.inj h).2]
      constructor
      · rw [routesOf_insert_ne ⟨r.routes.insert .get _, [], none⟩ (by decide), routesOf_insert_self]
        exact List.mem_append_right _ (List.mem_singleton_self _)
      · intro m route hmem
        by_cases hm : m = .head
        · subst hm
          rw [routesOf_insert_self]
          split
          case h_1 routes hinsert =>
            rw [routesOf_insert_ne r (by decide)] at hinsert
            rw [(of_insert_eq_ok hlaw hinsert).2.2]
            exact List.mem_append_left _ hmem
          case h_2 =>
            rw [routesOf_insert_ne r (by decide)]
            exact hmem
        · rw [routesOf_insert_ne ⟨r.routes.insert .get _, [], none⟩ hm]
          by_cases hm' : m = .get
          · subst hm'
            rw [routesOf_insert_self]
            exact List.mem_append_left _ hmem
          · rwa [routesOf_insert_ne r hm']
    · rw [if_neg hget] at h
      rw [← (Prod.mk.inj h).2]
      constructor
      · rw [routesOf_insert_self]
        exact List.mem_append_right _ (List.mem_singleton_self _)
      · intro m route hmem
        by_cases hm : m = method
        · subst hm
          rw [routesOf_insert_self]
          exact List.mem_append_left _ hmem
        · rwa [routesOf_insert_ne r hm]

/-! ## Registrations one after another -/

theorem registerOne_eq_ok {r r' : Router T} {a : Registration T} :
    registerOne mx r a = .ok r' ↔ ∃ u, r.insert mx a.1 a.2.1 a.2.2 = (.ok u, r') := by
  unfold registerOne
  rcases r.insert mx a.1 a.2.1 a.2.2 with ⟨result, after⟩
  cases result with
  | ok u => simp
  | error e => simp

theorem register_concat (r : Router T) (regs : List (Registration T)) (a : Registration T) :
    register mx r (regs ++ [a]) = (register mx r regs).bind fun r => registerOne mx r a := by
  unfold register
  rw [List.foldlM_append]
  simp only [List.foldlM_cons, List.foldlM_nil, bind_pure]
  rfl

/-- The routes that are meant for a method's matcher. -/
def served (regs : List (Registration T)) (m : Method) : List (String × T) :=
  (regs.filter fun a => m ∈ tables a.1).map Prod.snd

/-- The routes that are registered for a method. -/
def explicit (regs : List (Registration T)) (m : Method) : List (String × T) :=
  (regs.filter fun a => a.1 = m).map Prod.snd

/-- What is listed for the registrations. -/
def listed (regs : List (Registration T)) : List (Method × String) :=
  regs.flatMap fun a => (tables a.1).map (·, a.2.1)

theorem served_concat (regs : List (Registration T)) (a : Registration T) (m : Method) :
    served (regs ++ [a]) m =
      if m ∈ tables a.1 then served regs m ++ [a.2] else served regs m := by
  unfold served
  by_cases h : m ∈ tables a.1 <;> simp [h]

/-- Fitting is a matter of each two registrations in turn. -/
theorem fits_iff {regs : List (Registration T)} {p : Method → Bool} :
    Fits valid conflicts ((regs.filter fun a => p a.1).map Prod.snd) ↔
      (∀ a ∈ regs, p a.1 → valid a.2.1) ∧
        regs.Pairwise fun a b => p a.1 → p b.1 → ¬ conflicts a.2.1 b.2.1 := by
  unfold Fits
  rw [List.pairwise_map, List.pairwise_filter]
  simp only [List.mem_map, List.mem_filter, forall_exists_index, and_imp]
  constructor
  · rintro ⟨hvalid, hpairs⟩
    exact ⟨fun a ha hp => hvalid a.2 a ha hp rfl, hpairs⟩
  · rintro ⟨hvalid, hpairs⟩
    refine ⟨?_, hpairs⟩
    rintro route a ha hp rfl
    exact hvalid a ha hp

theorem Fits.of_append_left {routes routes' : List (String × T)}
    (h : Fits valid conflicts (routes ++ routes')) : Fits valid conflicts routes :=
  ⟨fun route hmem => h.1 route (List.mem_append_left _ hmem), (List.pairwise_append.mp h.2).1⟩

/-- Registrations that fit in all their matchers all succeed. -/
theorem register_fits (hlaw : Orderless mx valid conflicts) (cache : Option Nat)
    {regs : List (Registration T)} (hfits : ∀ m, Fits valid conflicts (served regs m)) :
    ∃ r, register mx ⟨∅, [], cache⟩ regs = .ok r ∧ r.cache = cache ∧ r.routeList = listed regs ∧
      ∀ m, r.routesOf m = served regs m := by
  induction regs using List.reverseRecOn with
  | nil => exact ⟨_, rfl, rfl, rfl, fun _ => rfl⟩
  | append_singleton regs a ih =>
    have hbefore : ∀ m, Fits valid conflicts (served regs m) := by
      intro m
      have hm := hfits m
      rw [served_concat] at hm
      split at hm
      · exact Fits.of_append_left hm
      · exact hm
    obtain ⟨r, hr, hcache, hlist, hroutes⟩ := ih hbefore
    have hnew : ∀ m ∈ tables a.1, Fits valid conflicts (served regs m ++ [a.2]) := by
      intro m hm
      have hfit := hfits m
      rwa [served_concat, if_pos hm] at hfit
    have hvalid : valid a.2.1 := (hnew a.1 (mem_tables.mpr (.inl rfl))).1 a.2
      (List.mem_append_right _ (List.mem_singleton_self _))
    have hfree : ∀ m ∈ tables a.1, ∀ route ∈ r.routesOf m, ¬ conflicts route.1 a.2.1 := by
      intro m hm route hmem
      rw [hroutes] at hmem
      exact (List.pairwise_append.mp (hnew m hm).2).2.2 route hmem a.2 (List.mem_singleton_self _)
    obtain ⟨r', hinsert, hcache', hlist', hroutes'⟩ := insert_fits hlaw hvalid hfree a.2.2
    refine ⟨r', ?_, hcache'.trans hcache, ?_, fun m => ?_⟩
    · rw [register_concat, hr]
      exact registerOne_eq_ok.mpr ⟨(), hinsert⟩
    · rw [hlist', hlist]
      simp [listed]
    · rw [hroutes', hroutes, served_concat]

/-- Registrations that have all succeeded fit, by their methods, and are in the matchers. -/
theorem fits_of_register (hlaw : Orderless mx valid conflicts) {cache : Option Nat}
    {regs : List (Registration T)} {r : Router T}
    (h : register mx ⟨∅, [], cache⟩ regs = .ok r) (m : Method) :
    Fits valid conflicts (explicit regs m) ∧ ∀ route ∈ explicit regs m, route ∈ r.routesOf m := by
  induction regs using List.reverseRecOn generalizing r m with
  | nil => exact ⟨⟨fun _ h => absurd h List.not_mem_nil, .nil⟩, fun _ h => absurd h List.not_mem_nil⟩
  | append_singleton regs a ih =>
    rw [register_concat] at h
    cases hbefore : register mx ⟨∅, [], cache⟩ regs with
    | error e =>
      rw [hbefore] at h
      cases h
    | ok before =>
      rw [hbefore] at h
      obtain ⟨u, hinsert⟩ := registerOne_eq_ok.mp h
      obtain ⟨hvalid, hfree, hself, hkept⟩ := of_insert_ok hlaw hinsert
      obtain ⟨hfits, hmem⟩ := ih hbefore m
      by_cases hm : a.1 = m
      · have hexplicit : explicit (regs ++ [a]) m = explicit regs m ++ [a.2] := by
          simp [explicit, hm]
        rw [hexplicit]
        subst hm
        refine ⟨⟨?_, List.pairwise_append.mpr ⟨hfits.2, List.pairwise_singleton _ _, ?_⟩⟩, ?_⟩
        · intro route hroute
          rcases List.mem_append.mp hroute with hroute | hroute
          · exact hfits.1 route hroute
          · rw [List.mem_singleton.mp hroute]
            exact hvalid
        · intro route hroute route' hroute'
          rw [List.mem_singleton.mp hroute']
          exact hfree route (hmem route hroute)
        · intro route hroute
          rcases List.mem_append.mp hroute with hroute | hroute
          · exact hkept _ route (hmem route hroute)
          · rw [List.mem_singleton.mp hroute]
            exact hself
      · have hexplicit : explicit (regs ++ [a]) m = explicit regs m := by
          simp [explicit, hm]
        rw [hexplicit]
        exact ⟨hfits, fun route hroute => hkept m route (hmem route hroute)⟩

/-! ## In any order -/

theorem fits_served {regs : List (Registration T)}
    (hexplicit : ∀ m, Fits valid conflicts (explicit regs m)) (hsymm : ∀ p q, conflicts p q →
      conflicts q p) (hclear : HeadsClear conflicts regs) (m : Method) :
    Fits valid conflicts (served regs m) := by
  have hfits : ∀ m, _ := fun m => (fits_iff (p := fun n => decide (n = m))).mp (hexplicit m)
  simp only [decide_eq_true_eq] at hfits
  refine (fits_iff (p := fun n => decide (m ∈ tables n))).mpr ⟨?_, ?_⟩
  · intro a ha _
    exact (hfits a.1).1 a ha rfl
  · simp only [decide_eq_true_eq, mem_tables]
    have hpairs := ((hfits m).2.and ((hfits .get).2))
    refine hpairs.imp_of_mem ?_
    rintro a b ha hb ⟨hm, hget⟩ (hma | ⟨hga, rfl⟩) (hmb | ⟨hgb, hmb⟩)
    · exact hm hma.symm hmb.symm
    · exact hclear a ha b hb (hma.symm.trans hmb) hgb
    · exact fun hconflict => hclear b hb a ha hmb.symm hga (hsymm _ _ hconflict)
    · exact hget hga hgb

theorem served_perm {regs regs' : List (Registration T)} (h : regs.Perm regs') (m : Method) :
    (served regs m).Perm (served regs' m) := (h.filter _).map _

theorem Fits.perm {routes routes' : List (String × T)} (h : Fits valid conflicts routes)
    (hsymm : ∀ p q, conflicts p q → conflicts q p) (hperm : routes.Perm routes') :
    Fits valid conflicts routes' := by
  refine ⟨fun route hmem => h.1 route (hperm.mem_iff.mpr hmem), ?_⟩
  exact (hperm.pairwise_iff fun hfree hback => hfree (hsymm _ _ hback)).mp h.2

/-- No route is listed twice: two registrations for one method do not conflict, and a
pattern conflicts with itself. -/
theorem nodup_listed (hself : ∀ p, valid p → conflicts p p) {regs : List (Registration T)}
    (hfits : ∀ m, Fits valid conflicts (served regs m)) : (listed regs).Nodup := by
  refine List.nodup_flatMap.mpr ⟨fun a _ => ?_, ?_⟩
  · unfold tables
    split <;> simp
  · refine List.pairwise_iff_forall_sublist.mpr fun {a b} hsub => ?_
    intro entry hmem hmem'
    obtain ⟨m, hm, rfl⟩ := List.mem_map.mp hmem
    obtain ⟨m', hm', hentry⟩ := List.mem_map.mp hmem'
    obtain ⟨rfl, hpath⟩ := Prod.mk.inj hentry
    obtain ⟨hvalid, hpairs⟩ := (fits_iff (p := fun n => decide (m' ∈ tables n))).mp (hfits m')
    simp only [decide_eq_true_eq] at hvalid hpairs
    have hfree := List.pairwise_iff_forall_sublist.mp hpairs hsub hm hm'
    rw [hpath] at hfree
    exact hfree (hself _ (hvalid a (hsub.subset List.mem_cons_self) hm))

theorem answers_congr {r r' : Router T} (hcache : r.cache = r'.cache)
    (hraw : ∀ m path, r.rawResolve mx m path = r'.rawResolve mx m path) (w : World T)
    (requests : List Key) : answers mx r w requests = answers mx r' w requests := by
  induction requests generalizing w with
  | nil => rfl
  | cons key requests ih =>
    obtain ⟨m, path⟩ := key
    have hresolve : w.resolve mx r m path = w.resolve mx r' m path := by
      unfold World.resolve
      rw [hcache, hraw]
    unfold answers
    rw [hresolve, ih]

/-- The routes of one router in any other order. -/
theorem orderFree_of_headsClear (hlaw : Orderless mx valid conflicts) {cache : Option Nat}
    {regs : List (Registration T)} {r : Router T}
    (h : register mx ⟨∅, [], cache⟩ regs = .ok r) (hclear : HeadsClear conflicts regs) :
    OrderFree mx cache regs r := by
  have hfits := fits_served (fun m => (fits_of_register hlaw h m).1) hlaw.symm hclear
  obtain ⟨r₀, hr₀, hcache, -, hroutes⟩ := register_fits hlaw cache hfits
  cases h.symm.trans hr₀
  intro regs' hperm
  have hfits' := fun m => Fits.perm (hfits m) hlaw.symm (served_perm hperm m)
  obtain ⟨r', hr', hcache', hlist', hroutes'⟩ := register_fits hlaw cache hfits'
  refine ⟨r', hr', answers_congr (hcache.trans hcache'.symm) ?_, ?_⟩
  · intro m path
    refine rawResolve_congr hlaw.empty (funext fun n => ?_) m
    unfold finds
    rw [hroutes, hroutes']
    exact hlaw.order _ _ (hfits n) (hfits' n) (served_perm hperm n) path
  · rw [hlist']
    exact nodup_listed hlaw.self hfits'

/-- Two of the registrations can come first. -/
theorem exists_first_two {a b : Registration T} (hne : a ≠ b) {regs : List (Registration T)}
    (ha : a ∈ regs) (hb : b ∈ regs) : ∃ rest, regs.Perm (b :: a :: rest) := by
  obtain ⟨before, after, rfl⟩ := List.append_of_mem hb
  have ha' : a ∈ before ++ after := by
    rcases List.mem_append.mp ha with h | h
    · exact List.mem_append_left _ h
    · exact List.mem_append_right _ ((List.mem_cons.mp h).resolve_left hne)
  obtain ⟨before', after', hsplit⟩ := List.append_of_mem ha'
  refine ⟨before' ++ after', List.perm_middle.trans (.cons b ?_)⟩
  rw [hsplit]
  exact List.perm_middle

/-- A `GET` route that comes first takes the place of a conflicting `HEAD` route. -/
theorem register_get_first (hlaw : Orderless mx valid conflicts) (cache : Option Nat)
    {a b : Registration T} (ha : a.1 = .head) (hb : b.1 = .get)
    (hconflict : conflicts a.2.1 b.2.1) (rest : List (Registration T)) (r : Router T) :
    register mx ⟨∅, [], cache⟩ (b :: a :: rest) ≠ .ok r := by
  obtain ⟨method, path, handler⟩ := a
  obtain ⟨method', path', handler'⟩ := b
  dsimp only at ha hb hconflict
  subst ha hb
  intro h
  rw [register, List.foldlM_cons] at h
  cases hfirst : registerOne mx ⟨∅, [], cache⟩ (Method.get, path', handler') with
  | error e =>
    rw [hfirst] at h
    cases h
  | ok first =>
    rw [hfirst] at h
    replace h : register mx first ((.head, path, handler) :: rest) = .ok r := h
    obtain ⟨u, hinsert⟩ := registerOne_eq_ok.mp hfirst
    have hvalid := (of_insert_ok hlaw hinsert).1
    obtain ⟨after, hafter, -, -, hroutes⟩ := insert_fits (r := ⟨∅, [], cache⟩) hlaw hvalid
      (fun _ _ _ hmem => absurd hmem List.not_mem_nil) handler'
    cases (Prod.mk.inj (hinsert.symm.trans hafter)).2
    rw [register, List.foldlM_cons] at h
    cases hsecond : registerOne mx first (Method.head, path, handler) with
    | error e =>
      rw [hsecond] at h
      cases h
    | ok second =>
      obtain ⟨u, hinsert'⟩ := registerOne_eq_ok.mp hsecond
      refine (of_insert_ok hlaw hinsert').2.1 (path', handler') ?_ (hlaw.symm _ _ hconflict)
      rw [hroutes, if_pos (mem_tables.mpr (.inr ⟨rfl, rfl⟩))]
      exact List.mem_append_right _ (List.mem_singleton_self _)

/-- Registrations that have all succeeded can be made in any order, with the same outcome,
exactly if no explicit `HEAD` route conflicts with a `GET` route. -/
theorem registration_order_free_iff (hlaw : Orderless mx valid conflicts) (cache : Option Nat)
    (regs : List (Registration T)) (r : Router T)
    (h : register mx ⟨∅, [], cache⟩ regs = .ok r) :
    OrderFree mx cache regs r ↔ HeadsClear conflicts regs := by
  constructor
  · intro hfree a ha b hb hhead hget hconflict
    have hne : a ≠ b := by
      rintro rfl
      exact absurd (hhead.symm.trans hget) (by decide)
    obtain ⟨rest, hperm⟩ := exists_first_two hne ha hb
    obtain ⟨r', hr', -⟩ := hfree _ hperm
    exact register_get_first hlaw cache hhead hget hconflict rest r' hr'
  · exact orderFree_of_headsClear hlaw h

end Order

theorem orderless_of_lawful {E : Type} {mx : Matchit E GatewayRoute} {valid : String → Prop}
    {conflicts : String → String → Prop} (h : Lawful mx valid conflicts) :
    Orderless mx valid conflicts := ⟨h.check, h.symm, h.self, h.empty, h.order⟩

theorem registration_order_free_pages :
    ∃ r, register statics ⟨∅, [], some 0⟩
        [(.get, "/pages", blue), (.head, "/status", green), (.post, "/pages", green)] = .ok r ∧
      OrderFree statics (some 0)
        [(.get, "/pages", blue), (.head, "/status", green), (.post, "/pages", green)] r :=
  ⟨_, rfl, (registration_order_free_iff (orderless_of_lawful statics_lawful) _ _ _ rfl).mpr (by
    unfold HeadsClear
    decide)⟩

/-- `HEAD` before `GET` is accepted, with `HEAD` listed twice, and `GET` before `HEAD` is
not. -/
theorem head_before_get :
    ∃ r, register statics ⟨∅, [], some 0⟩
        [(.head, "/status", blue), (.get, "/status", green)] = .ok r ∧
      ¬ r.routeList.Nodup ∧
      ¬ OrderFree statics (some 0) [(.head, "/status", blue), (.get, "/status", green)] r := by
  refine ⟨_, rfl, by decide, fun h => ?_⟩
  obtain ⟨r', hr', -⟩ := h _ (.swap (Method.get, "/status", green) (Method.head, "/status", blue) [])
  cases hr'

end JustApi.Core.RouteOrder
