import Mathlib.Data.Int.CardIntervalMod
import JustApi.Inference.ModelRegistry

/-! # How evenly round robin spreads

Requests routed one after the other through a control plane and a table of replicas
that stay as they are. One counter serves all of them, whichever their candidates. -/
namespace JustApi.Inference.RoundRobin
open JustApi.Lib.Run JustApi.Inference.ReplicaRouting
open JustApi.Inference.ModelRegistry (ControlPlane)

structure RouteRequest where
  model : String
  version : Option String
  routingKey : Option String
  deriving DecidableEq, Repr

/-- What the control plane makes of a request, as far as routing uses it. -/
def resolveRequest (cp : ControlPlane) (request : RouteRequest) : Option ResolvedModel :=
  (cp.resolve request.model request.version request.routingKey).map fun resolved =>
    { modelName := resolved.modelName, version := resolved.version, adapter := resolved.adapter }

/-- The numbers fall on the residues modulo `n` equally often, give or take one. -/
def Spread (n : Nat) (numbers : List Nat) : Prop :=
  ∀ i < n, ∀ j < n,
    numbers.countP (fun k => k % n = i) ≤ numbers.countP (fun k => k % n = j) + 1

/-- Consecutive numbers do. -/
theorem spread_range' (n start m : Nat) : Spread n (List.range' start m) := by
  intro i hi j hj
  have hn : 0 < n := Nat.lt_of_le_of_lt (Nat.zero_le i) hi
  have hcount : ∀ i < n, (List.range' start m).countP (fun k => k % n = i) +
      (start / n + if i < start % n then 1 else 0) =
        (start + m) / n + if i < (start + m) % n then 1 else 0 := by
    intro i hi
    have hmod : ∀ b : Nat, b.count (fun k => k % n = i) = b / n + if i < b % n then 1 else 0 := by
      intro b
      have h := Nat.count_modEq_card b hn i
      simpa only [Nat.ModEq, Nat.mod_eq_of_lt hi] using h
    have hadd := Nat.count_add (fun k => k % n = i) start m
    rw [hmod, hmod] at hadd
    rw [hadd, Nat.add_comm, List.range'_eq_map_range, List.countP_map]
    rfl
  have hci := hcount i hi
  have hcj := hcount j hj
  split_ifs at hci hcj <;> omega

variable {F : Type} {cp : ControlPlane} {request : RouteRequest} {requests : List RouteRequest}
  {ids : List String} {id : String}

section Candidates

variable [LE F] [DecidableLE F] [OfScientific F]

/-- The ids of the replicas that can serve the request. -/
def candidateIds (router : Router F) (cp : ControlPlane) (request : RouteRequest) : List String :=
  match resolveRequest cp request with
  | none => []
  | some resolved => (router.candidates resolved).map Replica.id

/-- The counter values at which the requests with these candidates come: it starts at
`rr` and advances with every request that has a candidate. -/
def drawn (router : Router F) (cp : ControlPlane) (ids : List String) :
    Nat → List RouteRequest → List Nat
  | _, [] => []
  | rr, request :: rest =>
    if candidateIds router cp request = [] then drawn router cp ids rr rest
    else if candidateIds router cp request = ids then
      rr :: drawn router cp ids ((rr + 1) % 2 ^ 64) rest
    else drawn router cp ids ((rr + 1) % 2 ^ 64) rest

variable {router : Router F}

theorem nodup_candidateIds (h : router.ids.Nodup) (cp : ControlPlane) (request : RouteRequest) :
    (candidateIds router cp request).Nodup := by
  unfold candidateIds
  split
  · exact List.nodup_nil
  · exact h.sublist (List.filter_sublist.map _)

/-- The replica can serve the request. -/
def serves (cp : ControlPlane) (request : RouteRequest) (r : Replica F) : Bool :=
  (resolveRequest cp request).any fun resolved => Router.eligible resolved r

theorem candidateIds_eq (router : Router F) (cp : ControlPlane) (request : RouteRequest) :
    candidateIds router cp request =
      (router.replicas.filter (serves cp request)).map Replica.id := by
  unfold candidateIds
  cases h : resolveRequest cp request with
  | none =>
    have hnone : router.replicas.filter (serves cp request) = [] :=
      List.filter_eq_nil_iff.mpr fun r _ => by simp [serves, h]
    simp [hnone]
  | some resolved =>
    have hsame : serves cp request = Router.eligible (F := F) resolved := by
      funext r
      simp [serves, h]
    rw [hsame]
    rfl

/-- Requests with the same candidates have them in the same order. -/
theorem candidateIds_ext (hnd : router.ids.Nodup) {a b : RouteRequest}
    (h : ∀ id, id ∈ candidateIds router cp a ↔ id ∈ candidateIds router cp b) :
    candidateIds router cp a = candidateIds router cp b := by
  have hserves : ∀ request, ∀ r ∈ router.replicas,
      (r.id ∈ candidateIds router cp request ↔ serves cp request r = true) := by
    intro request r hr
    rw [candidateIds_eq, List.mem_map]
    constructor
    · intro ⟨q, hq, hid⟩
      obtain ⟨hq, hserve⟩ := List.mem_filter.mp hq
      exact List.inj_on_of_nodup_map hnd hq hr hid ▸ hserve
    · intro hserve
      exact ⟨r, List.mem_filter.mpr ⟨hr, hserve⟩, rfl⟩
  rw [candidateIds_eq, candidateIds_eq]
  congr 1
  refine List.filter_congr fun r hr => Bool.eq_iff_iff.mpr ?_
  rw [← hserves a r hr, ← hserves b r hr]
  exact h r.id

/-- The numbers drawn depend on the replicas alone. -/
theorem drawn_congr {router' : Router F} (h : router'.replicas = router.replicas) (rr : Nat) :
    drawn router' cp ids rr requests = drawn router cp ids rr requests := by
  induction requests generalizing rr with
  | nil => rfl
  | cons request rest ih =>
    have hcand : candidateIds router' cp request = candidateIds router cp request := by
      simp only [candidateIds, Router.candidates, h]
    simp only [drawn, hcand, ih]

/-- Requests that all have the same candidates, or none, draw consecutive numbers. -/
theorem drawn_single {rr : Nat} (hne : ids ≠ [])
    (hall : ∀ request ∈ requests, candidateIds router cp request = [] ∨
      candidateIds router cp request = ids) (hrr : rr + requests.length < 2 ^ 64) :
    ∃ m, drawn router cp ids rr requests = List.range' rr m := by
  induction requests generalizing rr with
  | nil => exact ⟨0, rfl⟩
  | cons request rest ih =>
    rw [List.length_cons] at hrr
    have hrest := fun r hr => hall r (List.mem_cons_of_mem _ hr)
    rcases hall request List.mem_cons_self with hnil | hids
    · obtain ⟨m, hm⟩ := ih hrest (by omega : rr + rest.length < 2 ^ 64)
      exact ⟨m, by rw [drawn, if_pos hnil, hm]⟩
    · obtain ⟨m, hm⟩ := ih hrest (by omega : rr + 1 + rest.length < 2 ^ 64)
      refine ⟨m + 1, ?_⟩
      rw [drawn, if_neg (hids ▸ hne), if_pos hids, Nat.mod_eq_of_lt (by omega), hm]
      rfl

end Candidates

section Route

variable [LE F] [DecidableLE F] [LT F] [DecidableLT F] [OfScientific F]

def routeRequest (router : Router F) (cp : ControlPlane) (request : RouteRequest) :
    Option RouteDecision × Router F :=
  router.route (resolveRequest cp request)

/-- The requests in turn, each with the replica it was given. -/
def routeAll (router : Router F) (cp : ControlPlane) :
    List RouteRequest → List (RouteRequest × Option String)
  | [] => []
  | request :: rest =>
    let (decision, router') := routeRequest router cp request
    (request, decision.map (·.replica)) :: routeAll router' cp rest

/-- How often the replica was given one of the requests with these candidates. -/
def timesChosen (router : Router F) (cp : ControlPlane) (requests : List RouteRequest)
    (ids : List String) (id : String) : Nat :=
  (routeAll router cp requests).countP fun e =>
    candidateIds router cp e.1 = ids ∧ e.2 = some id

/-! ## The tables -/

/-- A call of the router. -/
inductive Op (F : Type) where
  | registerReplica (replica : Replica F)
  | updateLoad (id : String) (activeSequences : Nat) (kvPressurePct : F) (healthy : Bool)
  | setLoadedAdapters (id : String) (adapters : List String)
  | removeReplica (id : String)
  | route (cp : ControlPlane) (request : RouteRequest)

def exec (router : Router F) : Op F → Router F
  | .registerReplica replica => router.registerReplica replica
  | .updateLoad id activeSequences kvPressurePct healthy =>
    router.updateLoad id activeSequences kvPressurePct healthy
  | .setLoadedAdapters id adapters => router.setLoadedAdapters id adapters
  | .removeReplica id => router.removeReplica id
  | .route cp request => (routeRequest router cp request).2

def Step (router : Router F) (op : Op F) (router' : Router F) : Prop := exec router op = router'

variable {router : Router F}

/-- Routing changes the counter only. -/
theorem replicas_route (router : Router F) (resolved : Option ResolvedModel) :
    (router.route resolved).2.replicas = router.replicas ∧
      (router.route resolved).2.strategy = router.strategy := by
  unfold Router.route
  split
  · exact ⟨rfl, rfl⟩
  · split
    · exact ⟨rfl, rfl⟩
    · split
      · exact ⟨rfl, rfl⟩
      · exact ⟨rfl, rfl⟩
      · exact ⟨rfl, rfl⟩

/-- No call gives two replicas one id, and none changes the strategy. -/
theorem nodup_exec (h : router.ids.Nodup) (op : Op F) :
    (exec router op).ids.Nodup ∧ (exec router op).strategy = router.strategy := by
  cases op with
  | registerReplica replica => exact ⟨Router.nodup_registerReplica h replica, rfl⟩
  | updateLoad id activeSequences kvPressurePct healthy =>
    have hids : (router.updateLoad id activeSequences kvPressurePct healthy).ids = router.ids := by
      refine Router.map_updateFirst ?_ router.replicas
      intro r _
      rfl
    exact ⟨hids ▸ h, rfl⟩
  | setLoadedAdapters id adapters =>
    exact ⟨Router.ids_setLoadedAdapters router id adapters ▸ h, rfl⟩
  | removeReplica id => exact ⟨Router.nodup_removeReplica h, rfl⟩
  | route cp request =>
    obtain ⟨hreplicas, hstrategy⟩ := replicas_route router (resolveRequest cp request)
    refine ⟨?_, hstrategy⟩
    show ((router.route _).2.replicas.map Replica.id).Nodup
    rwa [hreplicas]

/-! ## The counter -/

/-- What one request is given: nothing without a candidate, else the candidate that the
counter points at, and then the counter advances. -/
theorem routeRequest_spec (hrr : router.strategy = .roundRobin) (cp : ControlPlane)
    (request : RouteRequest) :
    (candidateIds router cp request = [] ∧ (routeRequest router cp request).1 = none ∧
        (routeRequest router cp request).2 = router) ∨
      (candidateIds router cp request ≠ [] ∧
        ((routeRequest router cp request).1.map (·.replica)) =
          (candidateIds router cp request)[router.rr % (candidateIds router cp request).length]? ∧
        (routeRequest router cp request).2 = { router with rr := (router.rr + 1) % 2 ^ 64 }) := by
  unfold candidateIds routeRequest
  cases resolveRequest cp request with
  | none => exact .inl ⟨rfl, rfl, rfl⟩
  | some resolved =>
    cases hc : router.candidates resolved with
    | nil => exact .inl ⟨by simp [hc], by simp [Router.route, hc], by simp [Router.route, hc]⟩
    | cons head rest =>
      have hlt : router.rr % (rest.length + 1) < (head :: rest).length :=
        Nat.mod_lt _ (Nat.succ_pos _)
      have hget : ((head :: rest).map Replica.id)[router.rr % (rest.length + 1)]? =
          some (head :: rest)[router.rr % (rest.length + 1)].id := by
        rw [List.getElem?_map, List.getElem?_eq_getElem hlt, Option.map_some]
      refine .inr ⟨by simp [hc], ?_, by simp [Router.route, hc, hrr]⟩
      simpa [Router.route, hc, hrr, List.getElem?_eq_getElem hlt] using hget.symm

/-- A replica is chosen as often as the counter points at its place. -/
theorem timesChosen_eq (hrr : router.strategy = .roundRobin) (hids : ids.Nodup) {i : Nat}
    (hi : ids[i]? = some id) (requests : List RouteRequest) :
    timesChosen router cp requests ids id =
      (drawn router cp ids router.rr requests).countP fun k => k % ids.length = i := by
  induction requests generalizing router with
  | nil => rfl
  | cons request rest ih =>
    obtain ⟨hlt, -⟩ := List.getElem?_eq_some_iff.mp hi
    have hne : ids ≠ [] := List.ne_nil_of_length_pos (Nat.lt_of_le_of_lt (Nat.zero_le i) hlt)
    rcases routeRequest_spec hrr cp request with ⟨hnil, hnone, hsame⟩ | ⟨hcand, hgiven, hnext⟩
    · have hrest := ih hrr
      rw [drawn, if_pos hnil, ← hrest]
      simp [timesChosen, routeAll, hnone, hsame]
    · -- the advanced router lists the same replicas
      have hrest : timesChosen { router with rr := (router.rr + 1) % 2 ^ 64 } cp rest ids id =
          (drawn router cp ids ((router.rr + 1) % 2 ^ 64) rest).countP
            fun k => k % ids.length = i := by
        have hnum : drawn { router with rr := (router.rr + 1) % 2 ^ 64 } cp ids
            ((router.rr + 1) % 2 ^ 64) rest =
              drawn router cp ids ((router.rr + 1) % 2 ^ 64) rest := by
          refine drawn_congr ?_ _
          rfl
        rw [← hnum]
        exact ih hrr
      have hcons : timesChosen router cp (request :: rest) ids id =
          timesChosen { router with rr := (router.rr + 1) % 2 ^ 64 } cp rest ids id +
            if candidateIds router cp request = ids ∧
              ids[router.rr % ids.length]? = some id then 1 else 0 := by
        simp only [timesChosen, routeAll, hnext, List.countP_cons, hgiven]
        congr 1
        by_cases he : candidateIds router cp request = ids
        · simp [he]
        · simp [he]
      rw [hcons, hrest, drawn, if_neg hcand]
      by_cases he : candidateIds router cp request = ids
      · have hpoint : ids[router.rr % ids.length]? = some id ↔ router.rr % ids.length = i := by
          rw [← hi]
          exact List.getElem?_inj (Nat.mod_lt _ (List.length_pos_iff.mpr hne)) hids
        simp [he, hpoint, List.countP_cons]
      · simp [he]

/-- Among the requests with the same candidates, any two of these are chosen equally
often, give or take one. -/
def Even (router : Router F) (cp : ControlPlane) (requests : List RouteRequest) : Prop :=
  ∀ request ∈ requests, ∀ a ∈ candidateIds router cp request,
    ∀ b ∈ candidateIds router cp request,
      timesChosen router cp requests (candidateIds router cp request) a ≤
        timesChosen router cp requests (candidateIds router cp request) b + 1

theorem even_iff (hrr : router.strategy = .roundRobin) (hnd : router.ids.Nodup)
    (cp : ControlPlane) (requests : List RouteRequest) : Even router cp requests ↔
      ∀ request ∈ requests, Spread (candidateIds router cp request).length
        (drawn router cp (candidateIds router cp request) router.rr requests) := by
  refine forall₂_congr fun request _ => ?_
  have hids := nodup_candidateIds hnd cp request
  constructor
  · intro h i hi j hj
    have hi' := List.getElem?_eq_getElem hi
    have hj' := List.getElem?_eq_getElem hj
    rw [← timesChosen_eq hrr hids hi', ← timesChosen_eq hrr hids hj']
    exact h _ (List.getElem_mem hi) _ (List.getElem_mem hj)
  · intro h a ha b hb
    obtain ⟨i, hi, rfl⟩ := List.getElem_of_mem ha
    obtain ⟨j, hj, rfl⟩ := List.getElem_of_mem hb
    rw [timesChosen_eq hrr hids (List.getElem?_eq_getElem hi),
      timesChosen_eq hrr hids (List.getElem?_eq_getElem hj)]
    exact h i hi j hj

/-- **Round robin.** For every table of replicas a run of the router's calls leads to,
every control plane and every sequence of requests: requests with the same candidates
are given any two of these equally often, give or take one, exactly when the places of
these requests among all that have a candidate are spread over the residues modulo the
number of their candidates. -/
theorem round_robin_even_iff (tr : List (Op F × Router F)) (hrun : Along Step (.new .roundRobin) tr)
    (cp : ControlPlane) (requests : List RouteRequest) :
    let router := last (.new .roundRobin) tr
    (∀ a b, (∀ id, id ∈ candidateIds router cp a ↔ id ∈ candidateIds router cp b) →
      candidateIds router cp a = candidateIds router cp b) ∧
    (Even router cp requests ↔ ∀ request ∈ requests,
      Spread (candidateIds router cp request).length
        (drawn router cp (candidateIds router cp request) router.rr requests)) := by
  intro router
  obtain ⟨hnd, hrr⟩ : router.ids.Nodup ∧ router.strategy = .roundRobin := by
    refine hrun.invariant (I := fun r => r.ids.Nodup ∧ r.strategy = .roundRobin) ?_
      ⟨List.nodup_nil, rfl⟩ router (last_mem_visited _ tr)
    intro r op r' ⟨hnd, hrr⟩ hstep
    obtain ⟨hnd', hsame⟩ := nodup_exec hnd op
    exact hstep ▸ ⟨hnd', hsame.trans hrr⟩
  exact ⟨fun a b => candidateIds_ext hnd, even_iff hrr hnd cp requests⟩

end Route

/-! ## One model and two -/

/-- Two models with one version each. -/
def twoModels : ControlPlane :=
  (ControlPlane.new.registerVersion "a" { version := "v1", weightLocation := .«local» "/a" })
    |>.registerVersion "b" { version := "v1", weightLocation := .«local» "/b" }

def idle (id model : String) : Replica Rat :=
  { id, model, version := "v1", device := .cpu, maxConcurrency := 1, activeSequences := 0
    kvPressurePct := 0, healthy := true, loadedAdapters := [] }

/-- Two replicas of the one model and one of the other. -/
def threeReplicas : List (Op Rat × Router Rat) :=
  let first := (Router.new .roundRobin).registerReplica (idle "a1" "a")
  let second := first.registerReplica (idle "a2" "a")
  [(.registerReplica (idle "a1" "a"), first), (.registerReplica (idle "a2" "a"), second),
    (.registerReplica (idle "b1" "b"), second.registerReplica (idle "b1" "b"))]

theorem threeReplicas_run : Along Step (.new .roundRobin) threeReplicas :=
  ⟨rfl, rfl, rfl, trivial⟩

def ask (model : String) : RouteRequest := ⟨model, none, none⟩

/-- Requests for one model alone. -/
theorem round_robin_even_iff_one_model :
    Even (last (.new .roundRobin) threeReplicas) twoModels [ask "a", ask "a", ask "a"] := by
  refine (round_robin_even_iff _ threeReplicas_run twoModels _).2.mpr ?_
  intro request hrequest
  obtain rfl : request = ask "a" := by simpa using hrequest
  obtain ⟨m, hm⟩ : ∃ m, drawn (last (.new .roundRobin) threeReplicas) twoModels
      (candidateIds (last (.new .roundRobin) threeReplicas) twoModels (ask "a")) 0
      [ask "a", ask "a", ask "a"] = List.range' 0 m :=
    drawn_single (by decide +kernel) (by simp) (by decide)
  have hrr : (last (.new .roundRobin) threeReplicas).rr = 0 := rfl
  rw [hrr, hm]
  exact spread_range' _ 0 m

/-- Requests for two models in turn: the first of the two replicas is given every
request, the second none. -/
theorem alternating_models_starve_replica :
    let router := last (.new .roundRobin) threeReplicas
    let requests := [ask "a", ask "b", ask "a", ask "b"]
    Along Step (.new .roundRobin) threeReplicas ∧
      candidateIds router twoModels (ask "a") = ["a1", "a2"] ∧
      timesChosen router twoModels requests ["a1", "a2"] "a1" = 2 ∧
      timesChosen router twoModels requests ["a1", "a2"] "a2" = 0 ∧
      ¬ Even router twoModels requests := by
  refine ⟨threeReplicas_run, by decide +kernel, by decide +kernel, by decide +kernel, fun h => ?_⟩
  have := h (ask "a") (by simp) "a1" (by decide +kernel) "a2" (by decide +kernel)
  exact absurd this (by decide +kernel)

end JustApi.Inference.RoundRobin
