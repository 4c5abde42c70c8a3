import Mathlib.Data.List.Induction
import JustApi.Core.Gateway

/-! # The order of a configuration

Which routes a matcher takes when they are offered one after another, and when that does
not depend on the order they are offered in. -/
namespace JustApi.Core.Gateway
open JustApi.Core.Http JustApi.Core.Routing

/-! ## Matchers -/

section Matchers

variable {E T : Type} {mx : Matchit E T} {valid : String → Prop}
  {conflicts : String → String → Prop}

/-- Routes that can be in a matcher together. -/
def Fits (valid : String → Prop) (conflicts : String → String → Prop)
    (routes : List (String × T)) : Prop :=
  (∀ route ∈ routes, valid route.1) ∧
    routes.Pairwise fun route route' => ¬ conflicts route.1 route'.1

/-- The matcher rejects what is not valid and what conflicts with a route it has, and
finds by the set of its routes. -/
structure Lawful (mx : Matchit E T) (valid : String → Prop)
    (conflicts : String → String → Prop) : Prop where
  check : ∀ paths path, (∃ u, mx.check paths path = .ok u) ↔
    valid path ∧ ∀ p ∈ paths, ¬ conflicts p path
  symm : ∀ p q, conflicts p q → conflicts q p
  self : ∀ p, valid p → conflicts p p
  empty : ∀ path, mx.find [] path = none
  order : ∀ routes routes', Fits valid conflicts routes → Fits valid conflicts routes' →
    routes.Perm routes' → ∀ path, mx.find routes path = mx.find routes' path
  separates : ∀ routes routes', Fits valid conflicts routes → Fits valid conflicts routes' →
    (∀ path, mx.find routes path = mx.find routes' path) → ∀ route ∈ routes, route ∈ routes'

/-- A route is offered to a matcher. -/
def offer (mx : Matchit E T) (routes : List (String × T)) (route : String × T) :
    List (String × T) :=
  match mx.insert routes route.1 route.2 with
  | .ok routes => routes
  | .error _ => routes

/-- What a matcher takes of a list of routes. -/
def accept (mx : Matchit E T) (offered : List (String × T)) : List (String × T) :=
  offered.foldl (offer mx) []

theorem accept_concat (mx : Matchit E T) (offered : List (String × T)) (route : String × T) :
    accept mx (offered ++ [route]) = offer mx (accept mx offered) route := by
  rw [accept, List.foldl_concat]
  rfl

/-- Taken or not, as the check says. -/
theorem offer_cases (hlawful : Lawful mx valid conflicts) (routes : List (String × T))
    (route : String × T) :
    (valid route.1 ∧ (∀ r ∈ routes, ¬ conflicts r.1 route.1) ∧
        offer mx routes route = routes ++ [route]) ∨
      ¬ (valid route.1 ∧ ∀ r ∈ routes, ¬ conflicts r.1 route.1) ∧
        offer mx routes route = routes := by
  have hcheck := hlawful.check (routes.map Prod.fst) route.1
  simp only [List.forall_mem_map] at hcheck
  cases h : mx.check (routes.map Prod.fst) route.1 with
  | ok u =>
    obtain ⟨hvalid, hfree⟩ := hcheck.mp ⟨u, h⟩
    refine .inl ⟨hvalid, hfree, ?_⟩
    rw [offer, Matchit.insert, h]
    rfl
  | error e =>
    refine .inr ⟨fun hfits => ?_, ?_⟩
    · obtain ⟨u, hu⟩ := hcheck.mpr hfits
      rw [h] at hu
      cases hu
    · rw [offer, Matchit.insert, h]
      rfl

theorem accept_fits (hlawful : Lawful mx valid conflicts) (offered : List (String × T)) :
    Fits valid conflicts (accept mx offered) := by
  induction offered using List.reverseRecOn with
  | nil => exact ⟨fun _ h => absurd h List.not_mem_nil, List.Pairwise.nil⟩
  | append_singleton offered route ih =>
    rw [accept_concat]
    rcases offer_cases hlawful (accept mx offered) route with ⟨hvalid, hfree, hoffer⟩ | ⟨-, hoffer⟩
    · rw [hoffer]
      refine ⟨fun r hr => ?_, List.pairwise_append.mpr ⟨ih.2, List.pairwise_singleton _ _, ?_⟩⟩
      · rcases List.mem_append.mp hr with hr | hr
        · exact ih.1 r hr
        · rw [List.mem_singleton.mp hr]
          exact hvalid
      · intro r hr r' hr'
        rw [List.mem_singleton.mp hr']
        exact hfree r hr
    · rw [hoffer]
      exact ih

theorem mem_offer {routes : List (String × T)} {route r : String × T}
    (hlawful : Lawful mx valid conflicts) (h : r ∈ routes) : r ∈ offer mx routes route := by
  rcases offer_cases hlawful routes route with ⟨-, -, hoffer⟩ | ⟨-, hoffer⟩
  · rw [hoffer]
    exact List.mem_append_left _ h
  · rwa [hoffer]

theorem mem_of_mem_accept (hlawful : Lawful mx valid conflicts) {offered : List (String × T)}
    {r : String × T} (h : r ∈ accept mx offered) : r ∈ offered := by
  induction offered using List.reverseRecOn with
  | nil => exact h
  | append_singleton offered route ih =>
    rw [accept_concat] at h
    rcases offer_cases hlawful (accept mx offered) route with ⟨-, -, hoffer⟩ | ⟨-, hoffer⟩
    · rw [hoffer] at h
      exact List.mem_append.mpr ((List.mem_append.mp h).imp_left ih)
    · rw [hoffer] at h
      exact List.mem_append_left _ (ih h)

/-- What is valid and not taken conflicts with something that is. -/
theorem accepted_or_conflicts (hlawful : Lawful mx valid conflicts) {offered : List (String × T)}
    {r : String × T} (h : r ∈ offered) (hvalid : valid r.1) :
    ∃ taken ∈ accept mx offered, conflicts taken.1 r.1 := by
  induction offered using List.reverseRecOn with
  | nil => cases h
  | append_singleton offered route ih =>
    rw [accept_concat]
    rcases List.mem_append.mp h with h | h
    · obtain ⟨taken, hmem, hconflict⟩ := ih h
      exact ⟨taken, mem_offer hlawful hmem, hconflict⟩
    · have hr := List.mem_singleton.mp h
      subst hr
      rcases offer_cases hlawful (accept mx offered) r with ⟨-, -, hoffer⟩ | ⟨hnot, hoffer⟩
      · rw [hoffer]
        exact ⟨r, List.mem_append_right _ (List.mem_singleton_self r), hlawful.self _ hvalid⟩
      · rw [hoffer]
        have hsome : ¬ ∀ taken ∈ accept mx offered, ¬ conflicts taken.1 r.1 :=
          fun hfree => hnot ⟨hvalid, hfree⟩
        simpa using hsome

theorem Fits.nodup {routes : List (String × T)} (h : Fits valid conflicts routes)
    (hlawful : Lawful mx valid conflicts) : routes.Nodup := by
  refine List.Pairwise.imp_of_mem ?_ h.2
  intro r r' hr _ hfree he
  exact hfree (he ▸ hlawful.self r.1 (h.1 r hr))

theorem Fits.eq_of_conflicts {routes : List (String × T)} (h : Fits valid conflicts routes)
    (hsymm : ∀ p q, conflicts p q → conflicts q p) {r r' : String × T} (hr : r ∈ routes)
    (hr' : r' ∈ routes) (hconflict : conflicts r.1 r'.1) : r = r' := by
  have hfree : Std.Symm fun route route' : String × T => ¬ conflicts route.1 route'.1 :=
    ⟨fun _ _ hfree hback => hfree (hsymm _ _ hback)⟩
  by_contra hne
  exact h.2.forall hr hr' hne hconflict

/-- Among routes of which only equal ones conflict, all that are valid are taken. -/
theorem mem_accept_iff (hlawful : Lawful mx valid conflicts) {offered : List (String × T)}
    (hclear : ∀ r ∈ offered, ∀ r' ∈ offered, valid r.1 → valid r'.1 → conflicts r.1 r'.1 → r = r')
    (r : String × T) : r ∈ accept mx offered ↔ r ∈ offered ∧ valid r.1 := by
  have hfits := accept_fits hlawful offered
  constructor
  · exact fun h => ⟨mem_of_mem_accept hlawful h, hfits.1 r h⟩
  · rintro ⟨hmem, hvalid⟩
    obtain ⟨taken, htaken, hconflict⟩ := accepted_or_conflicts hlawful hmem hvalid
    have heq := hclear taken (mem_of_mem_accept hlawful htaken) r hmem (hfits.1 taken htaken)
      hvalid hconflict
    exact heq ▸ htaken

/-- The route that is offered first is taken, if it is valid. -/
theorem first_mem_accept (hlawful : Lawful mx valid conflicts) {r : String × T}
    {offered : List (String × T)} (hvalid : valid r.1) : r ∈ accept mx (r :: offered) := by
  induction offered using List.reverseRecOn with
  | nil =>
    rcases offer_cases hlawful [] r with ⟨-, -, hoffer⟩ | ⟨hnot, -⟩
    · show r ∈ offer mx [] r
      rw [hoffer]
      exact List.mem_singleton_self r
    · exact absurd ⟨hvalid, fun _ h => by cases h⟩ hnot
  | append_singleton offered route ih =>
    rw [← List.cons_append, accept_concat]
    exact mem_offer hlawful ih

end Matchers

/-! ## Paths without parameters -/

/-- A matcher of paths without parameters. -/
def statics : Matchit Unit GatewayRoute where
  check := fun paths path => if path ∈ paths then .error () else .ok ()
  find := fun routes path => (routes.find? fun route => route.1 = path).map (⟨·.2, []⟩)

theorem statics_find_iff {routes : List (String × GatewayRoute)}
    (h : Fits (fun _ => True) Eq routes) (path : String)
    (resolution : RouteResolution GatewayRoute) :
    statics.find routes path = some resolution ↔
      resolution.params = [] ∧ (path, resolution.handler) ∈ routes := by
  constructor
  · intro hfound
    obtain ⟨route, hfind, rfl⟩ := Option.map_eq_some_iff.mp hfound
    have hpath : route.1 = path := by simpa using List.find?_some hfind
    exact ⟨rfl, hpath ▸ List.mem_of_find?_eq_some hfind⟩
  · rintro ⟨hparams, hmem⟩
    have hsome : (routes.find? fun route => route.1 = path).isSome :=
      List.find?_isSome.mpr ⟨_, hmem, decide_eq_true rfl⟩
    obtain ⟨route, hfind⟩ := Option.isSome_iff_exists.mp hsome
    have hpath : route.1 = path := by simpa using List.find?_some hfind
    have heq := h.eq_of_conflicts (fun _ _ => Eq.symm) (List.mem_of_find?_eq_some hfind) hmem hpath
    show (routes.find? fun route => route.1 = path).map _ = some resolution
    rw [hfind, heq, Option.map_some, ← hparams]

theorem statics_check_iff (paths : List String) (path : String) :
    (∃ u, statics.check paths path = .ok u) ↔ True ∧ ∀ p ∈ paths, ¬ p = path := by
  have hnot : path ∉ paths ↔ ∀ p ∈ paths, ¬ p = path :=
    ⟨fun h p hp he => h (he ▸ hp), fun h hpath => h path hpath rfl⟩
  rw [true_and, ← hnot]
  unfold statics
  by_cases hmem : path ∈ paths <;> simp [hmem]

theorem statics_lawful : Lawful statics (fun _ => True) Eq where
  check := statics_check_iff
  symm := fun _ _ => Eq.symm
  self := fun _ _ => rfl
  empty := fun _ => rfl
  order := by
    intro routes routes' hfits hfits' hperm path
    refine Option.ext fun resolution => ?_
    rw [statics_find_iff hfits, statics_find_iff hfits', hperm.mem_iff]
  separates := by
    intro routes routes' hfits hfits' h route hroute
    have hfound := (statics_find_iff hfits route.1 ⟨route.2, []⟩).mpr ⟨rfl, hroute⟩
    rw [h] at hfound
    exact ((statics_find_iff hfits' route.1 ⟨route.2, []⟩).mp hfound).2

/-! ## Routers of any handlers -/

section Finding

variable {E T : Type} {mx : Matchit E T}

theorem routesOf_insert_self (table : AList fun _ : Method => List (String × T))
    (m : Method) (routes : List (String × T)) (list : List (Method × String)) (cache : Option Nat) :
    (⟨table.insert m routes, list, cache⟩ : Router T).routesOf m = routes := by
  simp [Router.routesOf]

theorem routesOf_insert_ne (r : Router T) {m m' : Method} (h : m ≠ m')
    (routes : List (String × T)) (list : List (Method × String)) (cache : Option Nat) :
    (⟨r.routes.insert m' routes, list, cache⟩ : Router T).routesOf m = r.routesOf m := by
  simp [Router.routesOf, AList.lookup_insert_ne h]

/-- What a router finds for a method. -/
def finds (mx : Matchit E T) (r : Router T) (path : String) (m : Method) :
    Option (RouteResolution T) := mx.find (r.routesOf m) path

theorem finds_eq_bind (hempty : ∀ path, mx.find [] path = none) (r : Router T)
    (path : String) (m : Method) :
    finds mx r path m = (r.routes.lookup m).bind fun routes => mx.find routes path := by
  unfold finds Router.routesOf
  cases r.routes.lookup m with
  | none => exact hempty path
  | some routes => rfl

theorem any_entries_iff (hempty : ∀ path, mx.find [] path = none) (r : Router T)
    (path : String) (m : Method) :
    (r.routes.entries.any fun e => e.1 ≠ m && (mx.find e.2 path).isSome) = true ↔
      ∃ other, other ≠ m ∧ (finds mx r path other).isSome := by
  simp only [List.any_eq_true, Bool.and_eq_true, decide_eq_true_eq]
  constructor
  · rintro ⟨⟨other, routes⟩, hmem, hne, hfound⟩
    refine ⟨other, hne, ?_⟩
    rw [finds_eq_bind hempty, AList.mem_lookup_iff.mpr hmem]
    exact hfound
  · rintro ⟨other, hne, hfound⟩
    rw [finds_eq_bind hempty] at hfound
    cases hlookup : r.routes.lookup other with
    | none =>
      rw [hlookup] at hfound
      cases hfound
    | some routes =>
      rw [hlookup] at hfound
      exact ⟨⟨other, routes⟩, AList.mem_lookup_iff.mp hlookup, hne, hfound⟩

/-- Resolving looks at the matchers and at nothing else. -/
theorem rawResolve_congr (hempty : ∀ path, mx.find [] path = none) {r r' : Router T}
    {path : String} (h : finds mx r path = finds mx r' path) (m : Method) :
    r.rawResolve mx m path = r'.rawResolve mx m path := by
  have hothers := (any_entries_iff hempty r path m).trans
    (h ▸ (any_entries_iff hempty r' path m).symm)
  unfold Router.rawResolve
  rw [← finds_eq_bind hempty, ← finds_eq_bind hempty, h, Bool.eq_iff_iff.mpr hothers]

theorem finds_of_rawResolve {r : Router T} (hempty : ∀ path, mx.find [] path = none)
    (m : Method) (path : String) :
    finds mx r path m = (r.rawResolve mx m path).toOption := by
  unfold Router.rawResolve
  rw [← finds_eq_bind hempty]
  cases finds mx r path m with
  | some matched => rfl
  | none =>
    dsimp only
    split <;> rfl

end Finding

/-! ## The router -/

section Routers

variable {E : Type} {mx : Matchit E GatewayRoute} {valid : String → Prop}
  {conflicts : String → String → Prop}

/-- A route with its method and its path. -/
abbrev Attempt := Method × String × GatewayRoute

/-- The insertions that a configuration comes to, in order. -/
def attempts (routes : Routes) : List Attempt :=
  routes.flatMap fun entry => entry.2.filterMap fun route =>
    (parseMethod route.1).map fun method => (method, entry.1, route.2)

def insertAll (mx : Matchit E GatewayRoute) (router : Router GatewayRoute)
    (list : List Attempt) : Router GatewayRoute :=
  list.foldl (fun router a => (router.insert mx a.1 a.2.1 a.2.2).2) router

theorem attempts_cons (path : String) (methods : List (String × GatewayRoute)) (routes : Routes) :
    attempts ((path, methods) :: routes) = (methods.filterMap fun route =>
      (parseMethod route.1).map fun method => (method, path, route.2)) ++ attempts routes :=
  List.flatMap_cons

theorem insertAll_append (mx : Matchit E GatewayRoute) (router : Router GatewayRoute)
    (list list' : List Attempt) :
    insertAll mx router (list ++ list') = insertAll mx (insertAll mx router list) list' :=
  List.foldl_append

theorem loadConfig_eq (mx : Matchit E GatewayRoute) (routes : Routes) :
    loadConfig mx routes = insertAll mx ⟨∅, [], some 0⟩ (attempts routes) := by
  unfold loadConfig
  generalize (⟨∅, [], some 0⟩ : Router GatewayRoute) = router
  induction routes generalizing router with
  | nil => rfl
  | cons entry routes ih =>
    obtain ⟨path, methods⟩ := entry
    rw [List.foldl_cons, ih, attempts_cons, insertAll_append]
    congr 1
    dsimp only
    induction methods generalizing router with
    | nil => rfl
    | cons route methods ihm =>
      rw [List.foldl_cons, ihm]
      cases hmethod : parseMethod route.1 with
      | none => rw [List.filterMap_cons_none (by rw [hmethod]; rfl)]
      | some method =>
        rw [List.filterMap_cons_some (by rw [hmethod]; rfl)]
        rfl

theorem parseMethod_ne_head {name : String} {method : Method} (h : parseMethod name = some method) :
    method ≠ .head := by
  unfold parseMethod at h
  split at h <;> cases h <;> decide

/-- The method whose routes a method is served by. -/
def source (method : Method) : Method := if method = .head then .get else method

/-- The routes of a list of attempts for a method. -/
def offeredFor (list : List Attempt) (method : Method) : List (String × GatewayRoute) :=
  (list.filter fun a => a.1 = method).map Prod.snd

/-- The matcher of `HEAD` has the routes of that of `GET`. -/
def HeadAsGet (r : Router GatewayRoute) : Prop := r.routesOf .head = r.routesOf .get

theorem routesOf_source {r : Router GatewayRoute} (h : HeadAsGet r) (m : Method) :
    r.routesOf (source m) = r.routesOf m := by
  unfold source
  split
  case isTrue hm => rw [hm, h]
  case isFalse => rfl

theorem source_of_ne {m : Method} (h : m ≠ .head) : source m = m := if_neg h

/-- An insertion offers the route to the matcher of its method, and one for `GET` to that
of `HEAD` as well. -/
theorem routesOf_insert {r : Router GatewayRoute} (hhead : HeadAsGet r) {method : Method}
    (hmethod : method ≠ .head) (path : String) (route : GatewayRoute) (m : Method) :
    (r.insert mx method path route).2.routesOf m =
      if source m = method then offer mx (r.routesOf m) (path, route) else r.routesOf m := by
  have hsource : source m = method → r.routesOf m = r.routesOf method := by
    intro h
    rw [← h, routesOf_source hhead]
  unfold offer Router.insert
  cases hinsert : mx.insert (r.routesOf method) path route with
  | error e =>
    dsimp only
    by_cases hm : m = method
    · rw [hm, routesOf_insert_self, hinsert, ite_self]
    · rw [routesOf_insert_ne r hm]
      split
      case isTrue h => rw [hsource h, hinsert]
      case isFalse => rfl
  | ok routes =>
    dsimp only
    by_cases hget : method = .get
    · subst hget
      rw [if_pos rfl]
      dsimp only
      by_cases hm : m = .head
      · subst hm
        rw [routesOf_insert_self, routesOf_insert_ne r hmethod.symm]
        rfl
      · rw [routesOf_insert_ne ⟨r.routes.insert .get routes, [], none⟩ hm, source_of_ne hm]
        by_cases hm' : m = .get
        · rw [hm', routesOf_insert_self, if_pos rfl, hinsert]
        · rw [routesOf_insert_ne r hm', if_neg hm']
    · rw [if_neg hget]
      dsimp only
      by_cases hm : m = method
      · rw [hm, routesOf_insert_self, source_of_ne hmethod, if_pos rfl, hinsert]
      · have hne : source m ≠ method := by
          unfold source
          split
          case isTrue => exact Ne.symm hget
          case isFalse => exact hm
        rw [routesOf_insert_ne r hm, if_neg hne]

theorem offeredFor_concat (list : List Attempt) (a : Attempt) (method : Method) :
    offeredFor (list ++ [a]) method =
      if method = a.1 then offeredFor list method ++ [a.2] else offeredFor list method := by
  unfold offeredFor
  by_cases h : method = a.1
  · simp [h]
  · simp [h, Ne.symm h]

theorem routesOf_insertAll (list : List Attempt) (hmethods : ∀ a ∈ list, a.1 ≠ .head)
    (m : Method) :
    (insertAll mx ⟨∅, [], some 0⟩ list).routesOf m = accept mx (offeredFor list (source m)) := by
  induction list using List.reverseRecOn generalizing m with
  | nil => rfl
  | append_singleton list a ih =>
    have ih := ih fun a' ha' => hmethods a' (List.mem_append_left _ ha')
    have ha := hmethods a (List.mem_append_right _ (List.mem_singleton_self a))
    have hhead : HeadAsGet (insertAll mx ⟨∅, [], some 0⟩ list) := by
      rw [HeadAsGet, ih, ih]
      rfl
    rw [insertAll_append, offeredFor_concat]
    refine (routesOf_insert hhead ha a.2.1 a.2.2 m).trans ?_
    rw [ih]
    by_cases hm : source m = a.1
    · rw [if_pos hm, if_pos hm, accept_concat]
    · rw [if_neg hm, if_neg hm]

theorem resolve_eq (r : Router GatewayRoute) (hcache : r.cache = some 0) (m : Method)
    (path : String) : resolve mx r m path = r.rawResolve mx m path := by
  unfold resolve World.resolve
  rw [hcache]
  dsimp only
  rw [RouteCache.get_new]
  dsimp only
  split <;> rfl

theorem insertAll_cache (list : List Attempt) (r : Router GatewayRoute) :
    (insertAll mx r list).cache = r.cache := by
  induction list generalizing r with
  | nil => rfl
  | cons a list ih => exact (ih _).trans (Router.insert_cache mx r a.1 a.2.1 a.2.2)

end Routers

/-! ## Configurations -/

section Configurations

variable {E : Type} {mx : Matchit E GatewayRoute} {valid : String → Prop}
  {conflicts : String → String → Prop}

theorem mem_attempts {routes : Routes} {a : Attempt} (h : a ∈ attempts routes) :
    ∃ entry ∈ routes, ∃ route ∈ entry.2, parseMethod route.1 = some a.1 ∧
      a.2 = (entry.1, route.2) := by
  obtain ⟨entry, hentry, h⟩ := List.mem_flatMap.mp h
  obtain ⟨route, hroute, h⟩ := List.mem_filterMap.mp h
  obtain ⟨method, hmethod, rfl⟩ := Option.map_eq_some_iff.mp h
  exact ⟨entry, hentry, route, hroute, hmethod, rfl⟩

theorem attempts_ne_head {routes : Routes} : ∀ a ∈ attempts routes, a.1 ≠ .head := by
  intro a ha
  obtain ⟨entry, -, route, -, hmethod, -⟩ := mem_attempts ha
  exact parseMethod_ne_head hmethod

theorem mem_offeredFor {list : List Attempt} {method : Method} {r : String × GatewayRoute} :
    r ∈ offeredFor list method ↔ (method, r) ∈ list := by
  simp [offeredFor]

theorem offeredFor_cons_self (a : Attempt) (list : List Attempt) :
    offeredFor (a :: list) a.1 = a.2 :: offeredFor list a.1 := by
  simp [offeredFor]

/-- What the router of a configuration finds. -/
theorem finds_loadConfig (routes : Routes) (path : String) (m : Method) :
    finds mx (loadConfig mx routes) path m =
      mx.find (accept mx (offeredFor (attempts routes) (source m))) path := by
  rw [finds, loadConfig_eq, routesOf_insertAll _ attempts_ne_head]

theorem resolve_loadConfig (routes : Routes) (m : Method) (path : String) :
    resolve mx (loadConfig mx routes) m path = (loadConfig mx routes).rawResolve mx m path := by
  refine resolve_eq _ ?_ m path
  rw [loadConfig_eq, insertAll_cache]

theorem Reordered.attempts_perm {routes routes' : Routes} (h : Reordered routes routes') :
    (attempts routes).Perm (attempts routes') := by
  obtain ⟨between, hperm, hentries⟩ := h
  refine (hperm.flatMap_right _).trans ?_
  clear hperm
  induction hentries with
  | nil => exact .nil
  | @cons entry entry' between routes' hentry _ ih =>
    obtain ⟨path, methods⟩ := entry
    obtain ⟨path', methods'⟩ := entry'
    obtain ⟨hpath, hmethods⟩ := hentry
    dsimp only at hpath hmethods
    subst hpath
    rw [List.flatMap_cons, attempts_cons]
    exact (hmethods.filterMap _).append ih

/-- Any of the attempts can come first. -/
theorem exists_first {routes : Routes} {a : Attempt} (h : a ∈ attempts routes) :
    ∃ routes', Reordered routes routes' ∧ ∃ rest, attempts routes' = a :: rest := by
  obtain ⟨⟨path, methods⟩, hentry, ⟨name, route⟩, hroute, hmethod, ha⟩ := mem_attempts h
  obtain ⟨before, after, rfl⟩ := List.append_of_mem hentry
  obtain ⟨methods₁, methods₂, rfl⟩ := List.append_of_mem hroute
  obtain ⟨method, path', route'⟩ := a
  dsimp only at hmethod ha
  cases ha
  refine ⟨(path, (name, route) :: (methods₁ ++ methods₂)) :: (before ++ after),
    ⟨_, List.perm_middle, .cons ⟨rfl, List.perm_middle⟩ ?_⟩, ?_⟩
  · exact List.forall₂_same.mpr fun entry _ => ⟨rfl, .refl _⟩
  · rw [attempts_cons, List.filterMap_cons_some (by rw [hmethod]; rfl)]
    exact ⟨_, rfl⟩

/-- Two valid entries for one method whose patterns conflict are the same pattern with the
same route. -/
def Unambiguous (valid : String → Prop) (conflicts : String → String → Prop)
    (routes : Routes) : Prop :=
  ∀ a ∈ attempts routes, ∀ a' ∈ attempts routes,
    a.1 = a'.1 → valid a.2.1 → valid a'.2.1 → conflicts a.2.1 a'.2.1 → a.2 = a'.2

theorem Unambiguous.offered {routes routes' : Routes} (h : Unambiguous valid conflicts routes)
    (hperm : (attempts routes).Perm (attempts routes')) (m : Method) :
    ∀ r ∈ offeredFor (attempts routes') m, ∀ r' ∈ offeredFor (attempts routes') m,
      valid r.1 → valid r'.1 → conflicts r.1 r'.1 → r = r' := by
  intro r hr r' hr'
  exact h (m, r) (hperm.mem_iff.mpr (mem_offeredFor.mp hr)) (m, r')
    (hperm.mem_iff.mpr (mem_offeredFor.mp hr')) rfl

/-- Then what the matchers take is, up to its order, that of the configuration. -/
theorem Unambiguous.accept_perm (hlawful : Lawful mx valid conflicts) {routes routes' : Routes}
    (h : Unambiguous valid conflicts routes) (hreordered : Reordered routes routes') (m : Method) :
    (accept mx (offeredFor (attempts routes) m)).Perm
      (accept mx (offeredFor (attempts routes') m)) := by
  have hperm := hreordered.attempts_perm
  refine (List.perm_ext_iff_of_nodup ((accept_fits hlawful _).nodup hlawful)
    ((accept_fits hlawful _).nodup hlawful)).mpr fun r => ?_
  rw [mem_accept_iff hlawful (h.offered (.refl _) m), mem_accept_iff hlawful (h.offered hperm m),
    mem_offeredFor, mem_offeredFor, hperm.mem_iff]

theorem Unambiguous.finds_eq (hlawful : Lawful mx valid conflicts) {routes routes' : Routes}
    (h : Unambiguous valid conflicts routes) (hreordered : Reordered routes routes')
    (path : String) :
    finds mx (loadConfig mx routes) path = finds mx (loadConfig mx routes') path := by
  funext m
  rw [finds_loadConfig, finds_loadConfig]
  exact hlawful.order _ _ (accept_fits hlawful _) (accept_fits hlawful _)
    (h.accept_perm hlawful hreordered (source m)) path

theorem Unambiguous.deterministic (hlawful : Lawful mx valid conflicts) {routes : Routes}
    (h : Unambiguous valid conflicts routes) : Deterministic mx routes := by
  intro routes₁ routes₂ h₁ h₂ method path
  rw [resolve_loadConfig, resolve_loadConfig]
  refine rawResolve_congr hlawful.empty ?_ method
  rw [← h.finds_eq hlawful h₁, h.finds_eq hlawful h₂]

/-- The valid route that comes first is in its matcher. -/
theorem exists_accepting (hlawful : Lawful mx valid conflicts) {routes : Routes} {a : Attempt}
    (h : a ∈ attempts routes) (hvalid : valid a.2.1) :
    ∃ routes', Reordered routes routes' ∧ a.2 ∈ accept mx (offeredFor (attempts routes') a.1) := by
  obtain ⟨routes', hreordered, rest, hrest⟩ := exists_first h
  refine ⟨routes', hreordered, ?_⟩
  rw [hrest, offeredFor_cons_self]
  exact first_mem_accept hlawful hvalid

theorem Deterministic.find_eq (hempty : ∀ path, mx.find [] path = none)
    {routes routes₁ routes₂ : Routes} (h : Deterministic mx routes)
    (h₁ : Reordered routes routes₁) (h₂ : Reordered routes routes₂) {m : Method}
    (hm : m ≠ .head) (path : String) :
    mx.find (accept mx (offeredFor (attempts routes₁) m)) path =
      mx.find (accept mx (offeredFor (attempts routes₂) m)) path := by
  have hresolve := h routes₁ routes₂ h₁ h₂ m path
  rw [resolve_loadConfig, resolve_loadConfig] at hresolve
  have hfinds := congrArg Except.toOption hresolve
  rw [← finds_of_rawResolve hempty, ← finds_of_rawResolve hempty, finds_loadConfig,
    finds_loadConfig, source_of_ne hm] at hfinds
  exact hfinds

/-- Loading a configuration gives the same routing for all orders its maps are iterated
over in, exactly if no two valid entries for one method conflict, other than by having
the same pattern and the same route. -/
theorem gateway_deterministic_iff (hlawful : Lawful mx valid conflicts) (routes : Routes) :
    Deterministic mx routes ↔ Unambiguous valid conflicts routes := by
  constructor
  · intro h a ha a' ha' hmethod hvalid hvalid' hconflict
    obtain ⟨routes₁, h₁, hmem₁⟩ := exists_accepting hlawful ha hvalid
    obtain ⟨routes₂, h₂, hmem₂⟩ := exists_accepting hlawful ha' hvalid'
    have hmem : a.2 ∈ accept mx (offeredFor (attempts routes₂) a.1) :=
      hlawful.separates _ _ (accept_fits hlawful _) (accept_fits hlawful _)
        (h.find_eq hlawful.empty h₁ h₂ (attempts_ne_head a ha)) a.2 hmem₁
    rw [← hmethod] at hmem₂
    exact (accept_fits hlawful _).eq_of_conflicts hlawful.symm hmem hmem₂ hconflict
  · exact Unambiguous.deterministic hlawful

def blue : GatewayRoute := ⟨"http://blue:8080", none, none, none⟩

def green : GatewayRoute := ⟨"http://green:8080", none, none, none⟩

theorem gateway_deterministic_orders :
    Deterministic statics [("/orders", [("get", blue), ("POST", green)]), ("/bills", [])] :=
  (gateway_deterministic_iff statics_lawful _).mpr (by
    unfold Unambiguous
    decide)

/-- A method is spelled in two ways, and the spelling that comes first gets the requests. -/
theorem two_spellings_race :
    ¬ Deterministic statics [("/orders", [("get", blue), ("GET", green)])] := by
  intro h
  have hsame := h [("/orders", [("get", blue), ("GET", green)])]
    [("/orders", [("GET", green), ("get", blue)])]
    ⟨_, .refl _, .cons ⟨rfl, .refl _⟩ .nil⟩ ⟨_, .refl _, .cons ⟨rfl, .swap _ _ _⟩ .nil⟩
    .get "/orders"
  revert hsame
  decide

end Configurations

end JustApi.Core.Gateway
