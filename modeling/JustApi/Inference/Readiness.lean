import Mathlib.Algebra.Order.Ring.Unbundled.Rat
import JustApi.Inference.RoundRobin

/-! # The inference gateway and the readiness of pods

The gateway puts a request through the control plane and the router, and keeps the router's
table by what the cluster reports of its pods. The callback of a readiness probe reads a row
and writes it back in two steps, with the load as it was. A step is what a call does while it
holds the lock of the table. -/
namespace JustApi.Inference.Readiness
open JustApi.Lib.Run JustApi.Inference.ReplicaRouting
open JustApi.Inference.ModelRegistry (ControlPlane)
open JustApi.Inference.RoundRobin (RouteRequest resolveRequest)

/-! ## Endpoints -/

/-- `str::replace` from a position on; `skip` characters belong to the last match. -/
def replaceFrom (pattern new : List Char) : Nat → List Char → List Char
  | _, [] => []
  | skip + 1, _ :: cs => replaceFrom pattern new skip cs
  | 0, c :: cs =>
    if pattern.isPrefixOf (c :: cs) then new ++ replaceFrom pattern new (pattern.length - 1) cs
    else c :: replaceFrom pattern new 0 cs

def replace (s pattern new : String) : String :=
  String.ofList (replaceFrom pattern.toList new.toList 0 s.toList)

structure GatewayConfig where
  «namespace» : String
  serviceTemplate : String
  strategy : RoutingStrategy
  requireReady : Bool
  deriving DecidableEq, Repr

namespace GatewayConfig

def default : GatewayConfig where
  «namespace» := "justapi"
  serviceTemplate := "\x7breplica\x7d.\x7bnamespace\x7d.svc.cluster.local"
  strategy := .lowestKvPressure
  requireReady := true

/-- What the router is told of a pod. -/
def healthy (config : GatewayConfig) (ready : Bool) : Bool :=
  if config.requireReady then ready else true

def endpointFor (config : GatewayConfig) (replica : String) (resolved : ResolvedModel) : String :=
  let s := replace config.serviceTemplate "\x7breplica\x7d" replica
  let s := replace s "\x7bmodel\x7d" resolved.modelName
  let s := replace s "\x7bversion\x7d" resolved.version
  replace s "\x7bnamespace\x7d" config.namespace

/-- Text without a brace has no match in it. -/
theorem replaceFrom_append {pattern new cs rest : List Char} (hcs : '{' ∉ cs) :
    replaceFrom ('{' :: pattern) new 0 (cs ++ rest) =
      cs ++ replaceFrom ('{' :: pattern) new 0 rest := by
  induction cs with
  | nil => rfl
  | cons c cs ih =>
    obtain ⟨hc, hcs⟩ : ¬ '{' = c ∧ '{' ∉ cs := by simpa using hcs
    have hmatch : ('{' :: pattern).isPrefixOf (c :: (cs ++ rest)) = false := by
      simp [List.isPrefixOf, hc]
    rw [List.cons_append, replaceFrom, if_neg (by simp [hmatch]), ih hcs, List.cons_append]

/-- A replacement in what follows a text without a brace. -/
theorem replace_toList {s pattern new : String} {cs rest body : List Char}
    (hpattern : pattern.toList = '{' :: body) (hs : s.toList = cs ++ rest) (hcs : '{' ∉ cs) :
    (replace s pattern new).toList = cs ++ replaceFrom pattern.toList new.toList 0 rest := by
  rw [replace, String.toList_ofList, hs, hpattern, replaceFrom_append hcs]

/-- The default template, for an id that is no template itself. -/
theorem endpointFor_default (ns : String) {replica : String} (h : '{' ∉ replica.toList)
    (resolved : ResolvedModel) :
    { default with «namespace» := ns }.endpointFor replica resolved =
      replica ++ "." ++ ns ++ ".svc.cluster.local" := by
  apply String.toList_injective
  have hreplica : (replace default.serviceTemplate "\x7breplica\x7d" replica).toList =
      replica.toList ++ ".\x7bnamespace\x7d.svc.cluster.local".toList := by
    rw [replace, String.toList_ofList]
    rfl
  have hmodel : (replace _ "\x7bmodel\x7d" resolved.modelName).toList = _ :=
    replace_toList rfl hreplica h
  have hversion : (replace _ "\x7bversion\x7d" resolved.version).toList = _ :=
    replace_toList rfl hmodel h
  have hnamespace : (replace _ "\x7bnamespace\x7d" ns).toList = _ :=
    replace_toList rfl hversion h
  refine hnamespace.trans ?_
  simp only [String.toList_append, List.append_assoc]
  rfl

end GatewayConfig

/-! ## The gateway -/

structure GatewayDecision where
  replica : String
  resolved : ResolvedModel
  endpoint : String
  deriving DecidableEq, Repr

structure InferenceGateway (F : Type) where
  cp : ControlPlane
  router : Router F
  config : GatewayConfig

namespace InferenceGateway

variable {F : Type}

def new (config : GatewayConfig) : InferenceGateway F := ⟨.new, .new config.strategy, config⟩

/-- The row that a search for the id finds. -/
def find (g : InferenceGateway F) (id : String) : Option (Replica F) :=
  g.router.replicas.find? fun r => r.id == id

def registerReplica (g : InferenceGateway F) (replica : Replica F) : InferenceGateway F :=
  { g with router := g.router.registerReplica replica }

def updateLoad (g : InferenceGateway F) (id : String) (activeSequences : Nat) (kvPressurePct : F)
    (ready : Bool) : InferenceGateway F :=
  { g with
    router := g.router.updateLoad id activeSequences kvPressurePct (g.config.healthy ready) }

/-- A call that nothing comes in between. -/
def setReady (g : InferenceGateway F) (id : String) (ready : Bool) : InferenceGateway F :=
  match g.find id with
  | some r => g.updateLoad id r.activeSequences r.kvPressurePct ready
  | none => g

def removeReplica (g : InferenceGateway F) (id : String) : InferenceGateway F :=
  { g with router := g.router.removeReplica id }

section Route

variable [LE F] [DecidableLE F] [LT F] [DecidableLT F] [OfScientific F]

/-- `route` from where the control plane has answered, which holds a lock of its own. -/
def routeResolved (g : InferenceGateway F) (resolved? : Option ResolvedModel) :
    Option GatewayDecision × InferenceGateway F :=
  let (decision, router) := g.router.route resolved?
  (decision.map fun d => ⟨d.replica, d.resolved, g.config.endpointFor d.replica d.resolved⟩,
    { g with router })

def route (g : InferenceGateway F) (request : RouteRequest) :
    Option GatewayDecision × InferenceGateway F :=
  g.routeResolved (resolveRequest g.cp request)

end Route

end InferenceGateway

/-! ## The table by ids -/

section Table

variable {F : Type} {g : InferenceGateway F} {id key : String}

/-- What is said of one pod leaves the others alone. -/
def say (id : String) (change : Option (Replica F) → Option (Replica F))
    (table : String → Option (Replica F)) (key : String) : Option (Replica F) :=
  if key = id then change (table id) else table key

theorem find?_updateFirst {α : Type} {name : α → String} {f : α → α} {as : List α}
    (hf : ∀ a, name a = id → name (f a) = id) :
    (updateFirst (fun a => name a == id) f as).find? (fun a => name a == key) =
      if key = id then (as.find? fun a => name a == id).map f
      else as.find? fun a => name a == key := by
  induction as with
  | nil => simp [updateFirst]
  | cons a rest ih =>
    by_cases ha : name a = id <;> by_cases hkey : key = id
    · subst hkey
      simp [updateFirst, ha, hf a ha]
    · have hne : name a ≠ key := fun h => hkey (h.symm.trans ha)
      have hne' : name (f a) ≠ key := fun h => hkey (h.symm.trans (hf a ha))
      simp [updateFirst, ha, hkey, hne', show ¬ id = key from fun h => hkey h.symm]
    · subst hkey
      simpa [updateFirst, ha] using ih
    · by_cases hak : name a = key
      · simp [updateFirst, hkey, hak]
      · simpa [updateFirst, ha, hkey, hak] using ih

theorem find_id {r : Replica F} (h : g.find id = some r) : r.id = id := by
  simpa using List.find?_some h

/-- A search for the id of a pod in the table finds a row. -/
theorem exists_find {r : Replica F} (hr : r ∈ g.router.replicas) :
    ∃ q ∈ g.router.replicas, g.find r.id = some q := by
  cases hfind : g.find r.id with
  | none => exact absurd (beq_self_eq_true r.id) (List.find?_eq_none.mp hfind r hr)
  | some q => exact ⟨q, List.mem_of_find?_eq_some hfind, rfl⟩

theorem find_updateLoad (activeSequences : Nat) (kvPressurePct : F) (ready : Bool) :
    (g.updateLoad id activeSequences kvPressurePct ready).find =
      say id (Option.map fun r =>
        { r with activeSequences, kvPressurePct, healthy := g.config.healthy ready }) g.find := by
  funext key
  exact find?_updateFirst fun _ h => h

theorem find_registerReplica (replica : Replica F) :
    (g.registerReplica replica).find = say replica.id (fun _ => some replica) g.find := by
  funext key
  unfold say
  by_cases hany : g.router.replicas.any fun r => r.id == replica.id
  · have hfind : (g.registerReplica replica).find key = (updateFirst
        (fun r => r.id == replica.id) (fun _ => replica) g.router.replicas).find?
          fun r => r.id == key := by
      simp [InferenceGateway.find, InferenceGateway.registerReplica, Router.registerReplica, hany]
    rw [hfind, find?_updateFirst fun _ _ => rfl]
    obtain ⟨q, hq, hid⟩ := List.any_eq_true.mp hany
    obtain ⟨r, -, hr⟩ := exists_find hq
    rw [InferenceGateway.find, beq_iff_eq.mp hid] at hr
    rw [hr]
    rfl
  · have hfind : (g.registerReplica replica).find key =
        (g.router.replicas ++ [replica]).find? fun r => r.id == key := by
      simp [InferenceGateway.find, InferenceGateway.registerReplica, Router.registerReplica, hany]
    rw [hfind, List.find?_append]
    by_cases hkey : key = replica.id
    · subst hkey
      have hnone : g.router.replicas.find? (fun r => r.id == replica.id) = none :=
        List.find?_eq_none.mpr fun q hq hid => hany (List.any_eq_true.mpr ⟨q, hq, hid⟩)
      simp [hnone]
    · have hnot : [replica].find? (fun r => r.id == key) = none := by
        simp [show ¬ replica.id = key from fun h => hkey h.symm]
      rw [hnot, Option.or_none, if_neg hkey]
      rfl

/-- A pod is in the table if a search for its id finds it. -/
theorem mem_iff_find (hnd : g.router.ids.Nodup) (r : Replica F) :
    r ∈ g.router.replicas ↔ g.find r.id = some r := by
  constructor
  · intro hr
    obtain ⟨q, hmem, hq⟩ := exists_find hr
    rw [hq, List.inj_on_of_nodup_map hnd hmem hr (find_id hq)]
  · exact List.mem_of_find?_eq_some

theorem find_removeReplica (hnd : g.router.ids.Nodup) :
    (g.removeReplica id).find = say id (fun _ => none) g.find := by
  funext key
  unfold say
  have hnd' : (g.removeReplica id).router.ids.Nodup := Router.nodup_removeReplica hnd
  have hmem : ∀ r, (g.removeReplica id).find key = some r ↔
      (if key = id then none else g.find key) = some r := by
    intro r
    constructor
    · intro hr
      obtain rfl := find_id hr
      obtain ⟨hr, hne⟩ := (Router.mem_removeReplica hnd r).mp ((mem_iff_find hnd' r).mpr hr)
      rw [if_neg hne]
      exact (mem_iff_find hnd r).mp hr
    · intro hr
      by_cases hkey : key = id
      · simp [hkey] at hr
      · rw [if_neg hkey] at hr
        obtain rfl := find_id hr
        refine (mem_iff_find hnd' r).mp ((Router.mem_removeReplica hnd r).mpr ⟨?_, hkey⟩)
        exact (mem_iff_find hnd r).mpr hr
  exact Option.ext hmem

/-- What a load report leaves as it is, and the readiness. -/
def withoutLoad (r : Replica F) :
    String × String × String × EngineDevice × Nat × Bool × List String :=
  (r.id, r.model, r.version, r.device, r.maxConcurrency, r.healthy, r.loadedAdapters)

/-- Two tables that differ in nothing but the load. -/
def Alike (s t : String → Option (Replica F)) : Prop :=
  ∀ id, (s id).map withoutLoad = (t id).map withoutLoad

/-- The two changes differ in nothing but the load. -/
theorem Alike.say {s t : String → Option (Replica F)} (h : Alike s t) {id : String}
    {change change' : Option (Replica F) → Option (Replica F)}
    (hchange : ∀ x y, x.map withoutLoad = y.map withoutLoad →
      (change x).map withoutLoad = (change' y).map withoutLoad) :
    Alike (say id change s) (say id change' t) := by
  intro key
  unfold Readiness.say
  split
  · exact hchange _ _ (h id)
  · exact h key

/-- The pod serves the resolved model: it is ready, runs that version and has the adapter. -/
def Fits (resolved : ResolvedModel) (pod : Replica F) : Prop :=
  pod.model = resolved.modelName ∧ pod.version = resolved.version ∧ pod.healthy = true ∧
    ∀ a, resolved.adapter = some a → a ∈ pod.loadedAdapters

/-- The pod a search finds fits exactly if what was reported of it does. -/
theorem fits_iff_of_alike {s t : String → Option (Replica F)} (h : Alike s t) {id : String}
    {r : Replica F} (hr : s id = some r) (resolved : ResolvedModel) :
    ∃ pod, t id = some pod ∧ (Fits resolved pod ↔ Fits resolved r) := by
  have hid := h id
  rw [hr] at hid
  obtain ⟨pod, hpod, heq⟩ := Option.map_eq_some_iff.mp hid.symm
  simp only [withoutLoad, Prod.mk.injEq] at heq
  obtain ⟨-, hmodel, hversion, -, -, hhealthy, hadapters⟩ := heq
  refine ⟨pod, hpod, ?_⟩
  rw [Fits, Fits, hmodel, hversion, hhealthy, hadapters]

end Table

/-! ## What routing picks -/

section Picks

variable {F : Type}

theorem minBy_mem (gt : Replica F → Replica F → Bool) (head : Replica F)
    (rest : List (Replica F)) : Router.minBy gt head rest ∈ head :: rest := by
  induction rest generalizing head with
  | nil => exact List.mem_singleton_self head
  | cons r rest ih =>
    have hrest : Router.minBy gt head (r :: rest) =
        Router.minBy gt (if gt head r then r else head) rest := rfl
    rw [hrest]
    rcases List.mem_cons.mp (ih (if gt head r then r else head)) with h | h
    · rw [h]
      split <;> simp
    · exact List.mem_cons_of_mem _ (List.mem_cons_of_mem _ h)

theorem minBy_le [LinearOrder F] (head : Replica F) (rest : List (Replica F)) :
    ∀ r ∈ head :: rest,
      (Router.minBy (fun x y => y.kvPressurePct < x.kvPressurePct) head rest).kvPressurePct ≤
        r.kvPressurePct := by
  induction rest generalizing head with
  | nil =>
    intro r hr
    exact le_of_eq (congrArg _ (List.mem_singleton.mp hr).symm)
  | cons q rest ih =>
    let next := if q.kvPressurePct < head.kvPressurePct then q else head
    have hrest : Router.minBy (fun x y => y.kvPressurePct < x.kvPressurePct) head (q :: rest) =
        Router.minBy (fun x y => y.kvPressurePct < x.kvPressurePct) next rest := by
      simp [Router.minBy, next]
    have hnext : next.kvPressurePct ≤ head.kvPressurePct ∧
        next.kvPressurePct ≤ q.kvPressurePct := by
      by_cases h : q.kvPressurePct < head.kvPressurePct
      · simp [next, h, le_of_lt h]
      · simp [next, h, not_lt.mp h]
    have hle := ih next next List.mem_cons_self
    intro r hr
    rw [hrest]
    rcases List.mem_cons.mp hr with rfl | hr
    · exact hle.trans hnext.1
    · rcases List.mem_cons.mp hr with rfl | hr
      · exact hle.trans hnext.2
      · exact ih next r (List.mem_cons_of_mem _ hr)

variable [LE F] [DecidableLE F] [LT F] [DecidableLT F] [OfScientific F]

omit [LT F] [DecidableLT F] in
theorem eligible_iff {resolved : ResolvedModel} {r : Replica F} :
    Router.eligible resolved r = true ↔ Fits resolved r ∧ Router.isOverloaded r = false := by
  cases hadapter : resolved.adapter with
  | none => simp [Router.eligible, Fits, hadapter, and_assoc]
  | some a => simp [Router.eligible, Fits, hadapter]; tauto

/-- A request that is given a replica is given a candidate. -/
theorem route_some {router : Router F} {resolved? : Option ResolvedModel} {d : RouteDecision}
    (h : (router.route resolved?).1 = some d) :
    resolved? = some d.resolved ∧ ∃ r ∈ router.candidates d.resolved, r.id = d.replica := by
  cases resolved? with
  | none => simp [Router.route] at h
  | some resolved =>
    cases hc : router.candidates resolved with
    | nil => simp [Router.route, hc] at h
    | cons head rest =>
      have hpick : ∃ r ∈ head :: rest, d = ⟨r.id, resolved⟩ := by
        cases hstrategy : router.strategy with
        | leastLoaded =>
          simp only [Router.route, hc, hstrategy, Option.some.injEq] at h
          exact ⟨_, minBy_mem _ _ _, h.symm⟩
        | lowestKvPressure =>
          simp only [Router.route, hc, hstrategy, Option.some.injEq] at h
          exact ⟨_, minBy_mem _ _ _, h.symm⟩
        | roundRobin =>
          have hlt : router.rr % (rest.length + 1) < (head :: rest).length :=
            Nat.mod_lt _ (Nat.succ_pos _)
          simp only [Router.route, hc, hstrategy, List.getElem?_eq_getElem hlt, Option.getD_some,
            Option.some.injEq] at h
          exact ⟨_, List.getElem_mem hlt, h.symm⟩
      obtain ⟨r, hr, rfl⟩ := hpick
      exact ⟨rfl, r, hc ▸ hr, rfl⟩

/-- A request that is given none has no candidate. -/
theorem route_none {router : Router F} {resolved : ResolvedModel}
    (h : (router.route (some resolved)).1 = none) : router.candidates resolved = [] := by
  cases hc : router.candidates resolved with
  | nil => rfl
  | cons head rest =>
    cases hstrategy : router.strategy <;> simp [Router.route, hc, hstrategy] at h

omit [LT F] [DecidableLT F] in
theorem mem_candidates {g : InferenceGateway F} (hnd : g.router.ids.Nodup)
    {resolved : ResolvedModel} {r : Replica F} :
    r ∈ g.router.candidates resolved ↔
      g.find r.id = some r ∧ Fits resolved r ∧ Router.isOverloaded r = false := by
  rw [Router.candidates, List.mem_filter, mem_iff_find hnd, eligible_iff]

theorem routeResolved_some {g : InferenceGateway F} {resolved? : Option ResolvedModel}
    {d : GatewayDecision} (h : (g.routeResolved resolved?).1 = some d) :
    (g.router.route resolved?).1 = some ⟨d.replica, d.resolved⟩ ∧
      d.endpoint = g.config.endpointFor d.replica d.resolved := by
  obtain ⟨decision, hdecision, rfl⟩ := Option.map_eq_some_iff.mp h
  exact ⟨hdecision, rfl⟩

theorem routeResolved_none {g : InferenceGateway F} {resolved? : Option ResolvedModel} :
    (g.routeResolved resolved?).1 = none ↔ (g.router.route resolved?).1 = none :=
  Option.map_eq_none_iff

end Picks

/-! ## Concurrent calls -/

/-- A call of `set_ready`; `read` is the row it has still to write. -/
structure Probe (F : Type) where
  id : String
  ready : Bool
  read : Option (Replica F)
  deriving DecidableEq, Repr

/-- `reported` is a record for the statements: for each pod what was last said of it, where a
probe speaks of the readiness alone. -/
structure World (F : Type) where
  gateway : InferenceGateway F
  probes : List (Probe F)
  reported : String → Option (Replica F)

/-- A request is routed with what the control plane made of it at some time before. -/
inductive Event (F : Type) where
  | registry (op : ModelRegistry.Op)
  | registerReplica (replica : Replica F)
  | updateLoad (id : String) (activeSequences : Nat) (kvPressurePct : F) (ready : Bool)
  | setReady (id : String) (ready : Bool)
  | writeReady (i : Nat)
  | removeReplica (id : String)
  | route (resolved? : Option ResolvedModel)

section Runs

variable {F : Type}

def World.new (config : GatewayConfig) : World F := ⟨.new config, [], fun _ => none⟩

structure Tracks (w : World F) : Prop where
  nodup : w.gateway.router.ids.Nodup
  alike : Alike w.gateway.find w.reported

theorem tracks_new (config : GatewayConfig) : Tracks (World.new config : World F) :=
  ⟨List.nodup_nil, fun _ => rfl⟩

variable [LE F] [DecidableLE F] [LT F] [DecidableLT F] [OfScientific F]

def exec (w : World F) : Event F → World F
  | .registry op => { w with gateway.cp := ModelRegistry.exec w.gateway.cp op }
  | .registerReplica replica =>
    { w with
      gateway := w.gateway.registerReplica replica
      reported := say replica.id (fun _ => some replica) w.reported }
  | .updateLoad id activeSequences kvPressurePct ready =>
    { w with
      gateway := w.gateway.updateLoad id activeSequences kvPressurePct ready
      reported := say id (Option.map fun pod =>
        { pod with activeSequences, kvPressurePct, healthy := w.gateway.config.healthy ready })
        w.reported }
  | .setReady id ready => { w with probes := w.probes ++ [⟨id, ready, w.gateway.find id⟩] }
  | .writeReady i =>
    match w.probes[i]? with
    | some ⟨id, ready, some r⟩ =>
      { gateway := w.gateway.updateLoad id r.activeSequences r.kvPressurePct ready
        probes := w.probes.set i ⟨id, ready, none⟩
        reported := say id (Option.map fun pod =>
          { pod with healthy := w.gateway.config.healthy ready }) w.reported }
    | _ => w
  | .removeReplica id =>
    { w with
      gateway := w.gateway.removeReplica id
      reported := say id (fun _ => none) w.reported }
  | .route resolved? => { w with gateway := (w.gateway.routeResolved resolved?).2 }

def Step (w : World F) (event : Event F) (w' : World F) : Prop := exec w event = w'

/-! ## What the table has of the reports -/

/-- The write of a probe finds the load that it read. -/
def KeepsLoad (w : World F) : Event F → Prop
  | .writeReady i => ∀ probe r now, w.probes[i]? = some probe → probe.read = some r →
      w.gateway.find probe.id = some now →
        now.activeSequences = r.activeSequences ∧ now.kvPressurePct = r.kvPressurePct
  | _ => True

/-- What a step does to the table and to the record of the reports: nothing, or one change to
both, or it is the write of a probe. -/
theorem exec_cases {w : World F} (hnd : w.gateway.router.ids.Nodup) (event : Event F) :
    (KeepsLoad w event ∧ (exec w event).gateway.find = w.gateway.find ∧
        (exec w event).reported = w.reported) ∨
      (∃ id change, KeepsLoad w event ∧
        (exec w event).gateway.find = say id change w.gateway.find ∧
        (exec w event).reported = say id change w.reported ∧
        ∀ x y, x.map withoutLoad = y.map withoutLoad →
          (change x).map withoutLoad = (change y).map withoutLoad) ∨
      ∃ i id ready r, event = .writeReady i ∧ w.probes[i]? = some ⟨id, ready, some r⟩ ∧
        (exec w event).gateway.find = say id (Option.map fun now =>
          { now with
            activeSequences := r.activeSequences
            kvPressurePct := r.kvPressurePct
            healthy := w.gateway.config.healthy ready }) w.gateway.find ∧
        (exec w event).reported = say id (Option.map fun pod =>
          { pod with healthy := w.gateway.config.healthy ready }) w.reported := by
  cases event with
  | registry op => exact .inl ⟨trivial, rfl, rfl⟩
  | setReady id ready => exact .inl ⟨trivial, rfl, rfl⟩
  | route resolved? =>
    refine .inl ⟨trivial, ?_, rfl⟩
    funext key
    show (w.gateway.router.route resolved?).2.replicas.find? _ = _
    rw [(RoundRobin.replicas_route _ _).1]
    rfl
  | registerReplica replica =>
    exact .inr (.inl ⟨_, _, trivial, find_registerReplica replica, rfl, fun _ _ _ => rfl⟩)
  | removeReplica id =>
    exact .inr (.inl ⟨_, _, trivial, find_removeReplica hnd, rfl, fun _ _ _ => rfl⟩)
  | updateLoad id activeSequences kvPressurePct ready =>
    refine .inr (.inl ⟨_, _, trivial, find_updateLoad activeSequences kvPressurePct ready, rfl, ?_⟩)
    intro x y hxy
    cases x <;> cases y <;> simp_all [withoutLoad]
  | writeReady i =>
    cases hprobe : w.probes[i]? with
    | none =>
      exact .inl ⟨by simp [KeepsLoad, hprobe], by simp [exec, hprobe], by simp [exec, hprobe]⟩
    | some probe =>
      obtain ⟨id, ready, read⟩ := probe
      cases read with
      | none =>
        refine .inl ⟨?_, by simp [exec, hprobe], by simp [exec, hprobe]⟩
        intro probe r now hprobe' hread
        obtain rfl := Option.some.inj (hprobe.symm.trans hprobe')
        cases hread
      | some r =>
        refine .inr (.inr ⟨i, id, ready, r, rfl, hprobe, ?_, by simp [exec, hprobe]⟩)
        simpa [exec, hprobe] using find_updateLoad r.activeSequences r.kvPressurePct ready

/-- No step gives two rows one id, and none changes the strategy. -/
theorem nodup_exec {w : World F} (hnd : w.gateway.router.ids.Nodup) (event : Event F) :
    (exec w event).gateway.router.ids.Nodup ∧
      (exec w event).gateway.router.strategy = w.gateway.router.strategy := by
  cases event with
  | registry op => exact ⟨hnd, rfl⟩
  | setReady id ready => exact ⟨hnd, rfl⟩
  | registerReplica replica => exact RoundRobin.nodup_exec hnd (.registerReplica replica)
  | removeReplica id => exact RoundRobin.nodup_exec hnd (.removeReplica id)
  | route resolved? =>
    obtain ⟨hreplicas, hstrategy⟩ := RoundRobin.replicas_route w.gateway.router resolved?
    refine ⟨?_, hstrategy⟩
    show ((w.gateway.router.route resolved?).2.replicas.map Replica.id).Nodup
    rwa [hreplicas]
  | updateLoad id activeSequences kvPressurePct ready =>
    exact RoundRobin.nodup_exec hnd (.updateLoad id activeSequences kvPressurePct _)
  | writeReady i =>
    simp only [exec]
    split
    · exact RoundRobin.nodup_exec hnd (.updateLoad _ _ _ _)
    · exact ⟨hnd, rfl⟩

theorem tracks_exec {w : World F} (h : Tracks w) (event : Event F) : Tracks (exec w event) := by
  refine ⟨(nodup_exec h.nodup event).1, ?_⟩
  obtain ⟨-, hfind, hreported⟩ | ⟨id, change, -, hfind, hreported, hchange⟩ |
    ⟨i, id, ready, r, -, -, hfind, hreported⟩ := exec_cases h.nodup event
  · rw [hfind, hreported]
    exact h.alike
  · rw [hfind, hreported]
    exact h.alike.say hchange
  · -- the load that the probe writes is all that may be wrong
    rw [hfind, hreported]
    refine h.alike.say fun x y hxy => ?_
    cases x <;> cases y <;> simp_all [withoutLoad]

/-! ## Readiness -/

/-- A request goes to a pod that fits by what was last reported of it. It is turned down if
the control plane did not know the model, or if every pod that fits has too much to do by
the table. -/
def RoutesToReady (w : World F) (resolved? : Option ResolvedModel) : Prop :=
  match (w.gateway.routeResolved resolved?).1 with
  | some d =>
    resolved? = some d.resolved ∧
      (∃ pod, w.reported d.replica = some pod ∧ Fits d.resolved pod) ∧
      d.endpoint = w.gateway.config.endpointFor d.replica d.resolved
  | none => ∀ resolved, resolved? = some resolved →
      ∀ id pod, w.reported id = some pod → Fits resolved pod →
        ∃ r, w.gateway.find id = some r ∧ Router.isOverloaded r = true

theorem routesToReady_of_tracks {w : World F} (h : Tracks w) (resolved? : Option ResolvedModel) :
    RoutesToReady w resolved? := by
  unfold RoutesToReady
  cases hroute : (w.gateway.routeResolved resolved?).1 with
  | some d =>
    obtain ⟨hrouted, hendpoint⟩ := routeResolved_some hroute
    obtain ⟨hresolved, r, hr, hid⟩ := route_some hrouted
    obtain ⟨hfind, hfits, -⟩ := (mem_candidates h.nodup).mp hr
    obtain ⟨pod, hpod, hiff⟩ := fits_iff_of_alike h.alike (hid ▸ hfind) d.resolved
    exact ⟨hresolved, ⟨pod, hpod, hiff.mpr hfits⟩, hendpoint⟩
  | none =>
    rintro resolved rfl id pod hpod hfits
    have hnone := route_none (routeResolved_none.mp hroute)
    have halike : Alike w.reported w.gateway.find := fun key => (h.alike key).symm
    obtain ⟨r, hr, hiff⟩ := fits_iff_of_alike halike hpod resolved
    refine ⟨r, hr, ?_⟩
    by_contra hfree
    have hcandidate : r ∈ w.gateway.router.candidates resolved :=
      (mem_candidates h.nodup).mpr
        ⟨find_id hr ▸ hr, hiff.mpr hfits, Bool.not_eq_true _ ▸ hfree⟩
    rw [hnone] at hcandidate
    exact absurd hcandidate List.not_mem_nil

/-- Whatever the interleaving of the calls, in every state a run comes to. -/
theorem gateway_routes_to_ready {config : GatewayConfig} (tr : List (Event F × World F))
    (hrun : Along Step (.new config) tr) :
    ∀ w ∈ visited (.new config) tr, ∀ resolved?, RoutesToReady w resolved? := by
  have hinv : ∀ w ∈ visited (.new config) tr, Tracks w := by
    refine hrun.invariant (fun w event w' h hstep => ?_) (tracks_new config)
    exact hstep ▸ tracks_exec h event
  exact fun w hw => routesToReady_of_tracks (hinv w hw)

/-! ## Reports that a probe overwrites -/

/-- The table has what was last reported of each pod. -/
def UpToDate (w : World F) : Prop := w.gateway.find = w.reported

theorem upToDate_exec_iff {w : World F} (hnd : w.gateway.router.ids.Nodup) (h : UpToDate w)
    (event : Event F) : UpToDate (exec w event) ↔ KeepsLoad w event := by
  unfold UpToDate at h ⊢
  obtain ⟨hkeeps, hfind, hreported⟩ | ⟨id, change, hkeeps, hfind, hreported, -⟩ |
    ⟨i, id, ready, r, rfl, hprobe, hfind, hreported⟩ := exec_cases hnd event
  · simp [hfind, hreported, h, hkeeps]
  · simp [hfind, hreported, h, hkeeps]
  · rw [hfind, hreported, ← h]
    constructor
    · intro hsame probe q now hprobe' hread hnow
      obtain rfl := Option.some.inj (hprobe.symm.trans hprobe')
      obtain rfl := Option.some.inj hread
      have hrow := congrFun hsame id
      simp only [say, if_pos, hnow, Option.map_some, Option.some.injEq, Replica.mk.injEq] at hrow
      exact ⟨hrow.2.2.2.2.2.1.symm, hrow.2.2.2.2.2.2.1.symm⟩
    · intro hkeeps
      funext key
      unfold say
      split
      · cases hnow : w.gateway.find id with
        | none => rfl
        | some now =>
          obtain ⟨hactive, hpressure⟩ := hkeeps _ r now hprobe rfl hnow
          simp [hactive, hpressure]
      · rfl

/-- The table is up to date in every state of a run exactly if every probe finds the load it
has read: a report or a registration in between is lost. -/
theorem reports_kept_iff {config : GatewayConfig} (tr : List (Event F × World F))
    (hrun : Along Step (.new config) tr) :
    (∀ w ∈ visited (.new config) tr, UpToDate w) ↔
      Along (fun w event _ => KeepsLoad w event) (.new config) tr := by
  refine Along.forall_visited_iff (I := fun w => w.gateway.router.ids.Nodup ∧ UpToDate w)
    ?_ ?_ (fun w h => h.2) ⟨List.nodup_nil, rfl⟩ hrun
  · rintro w event _ ⟨hnd, h⟩ rfl hkeeps
    exact ⟨(nodup_exec hnd event).1, (upToDate_exec_iff hnd h event).mpr hkeeps⟩
  · rintro w event _ ⟨hnd, h⟩ rfl hnext
    exact (upToDate_exec_iff hnd h event).mp hnext

/-- A call that nothing comes in between is the whole of `set_ready`, and it keeps the load. -/
theorem setReady_alone (w : World F) (id : String) (ready : Bool) :
    (exec (exec w (.setReady id ready)) (.writeReady w.probes.length)).gateway =
        w.gateway.setReady id ready ∧
      KeepsLoad (exec w (.setReady id ready)) (.writeReady w.probes.length) := by
  have hprobe : (exec w (.setReady id ready)).probes[w.probes.length]? =
      some ⟨id, ready, w.gateway.find id⟩ := by simp [exec]
  have hgateway : (exec w (.setReady id ready)).gateway = w.gateway := rfl
  constructor
  · unfold InferenceGateway.setReady
    cases hfind : w.gateway.find id with
    | none => simp [exec, hfind]
    | some r => simp [exec, hfind]
  · intro probe r now hprobe' hread hnow
    obtain rfl := Option.some.inj (hprobe.symm.trans hprobe')
    rw [hgateway] at hnow
    obtain rfl := Option.some.inj (hread.symm.trans hnow)
    exact ⟨rfl, rfl⟩

end Runs

/-! ## Routing by pressure -/

section Pressure

variable {F : Type} [LinearOrder F] [OfScientific F]

/-- A pod that fits and has room, by what was last reported of it. -/
def Available (w : World F) (resolved : ResolvedModel) (id : String) (pod : Replica F) : Prop :=
  w.reported id = some pod ∧ Fits resolved pod ∧ Router.isOverloaded pod = false

/-- The request goes to an available pod with the least pressure of all, and is turned down
only if there is none. -/
def RoutesToLeast (w : World F) (resolved : ResolvedModel) : Prop :=
  match (w.gateway.routeResolved (some resolved)).1 with
  | some d => ∃ pod, Available w resolved d.replica pod ∧
      ∀ id other, Available w resolved id other → pod.kvPressurePct ≤ other.kvPressurePct
  | none => ∀ id pod, ¬ Available w resolved id pod

theorem mem_candidates_iff_available {w : World F} (hnd : w.gateway.router.ids.Nodup)
    (h : UpToDate w) {resolved : ResolvedModel} {pod : Replica F} :
    pod ∈ w.gateway.router.candidates resolved ↔ Available w resolved pod.id pod := by
  rw [mem_candidates hnd, h, Available]

theorem routesToLeast_of_upToDate {w : World F} (hnd : w.gateway.router.ids.Nodup)
    (hstrategy : w.gateway.router.strategy = .lowestKvPressure) (h : UpToDate w)
    (resolved : ResolvedModel) : RoutesToLeast w resolved := by
  have hknown : ∀ id pod, Available w resolved id pod →
      pod ∈ w.gateway.router.candidates resolved := by
    rintro id pod ⟨hpod, hfits⟩
    have hfind : w.gateway.find id = some pod := h ▸ hpod
    exact (mem_candidates hnd).mpr ⟨find_id hfind ▸ hfind, hfits⟩
  unfold RoutesToLeast
  cases hc : w.gateway.router.candidates resolved with
  | nil =>
    have hnone : (w.gateway.routeResolved (some resolved)).1 = none :=
      routeResolved_none.mpr (by simp [Router.route, hc])
    rw [hnone]
    intro id pod hpod
    exact absurd (hc ▸ hknown id pod hpod) List.not_mem_nil
  | cons head rest =>
    let least := Router.minBy (fun x y => y.kvPressurePct < x.kvPressurePct) head rest
    have hsome : (w.gateway.routeResolved (some resolved)).1 = some ⟨least.id, resolved,
        w.gateway.config.endpointFor least.id resolved⟩ := by
      simp [InferenceGateway.routeResolved, Router.route, hc, hstrategy, least]
    rw [hsome]
    have hleast : least ∈ w.gateway.router.candidates resolved := hc ▸ minBy_mem _ head rest
    refine ⟨least, (mem_candidates_iff_available hnd h).mp hleast, fun id other hother => ?_⟩
    exact minBy_le head rest other (hc ▸ hknown id other hother)

/-- In a run in which every probe finds the load it has read. -/
theorem gateway_routes_to_least {config : GatewayConfig}
    (hconfig : config.strategy = .lowestKvPressure) (tr : List (Event F × World F))
    (hrun : Along Step (.new config) tr)
    (hkeeps : Along (fun w event _ => KeepsLoad w event) (.new config) tr) :
    ∀ w ∈ visited (.new config) tr, ∀ resolved, RoutesToLeast w resolved := by
  have hdate := (reports_kept_iff tr hrun).mpr hkeeps
  have hinv : ∀ w ∈ visited (.new config) tr, w.gateway.router.ids.Nodup ∧
      w.gateway.router.strategy = .lowestKvPressure := by
    refine hrun.invariant ?_ ⟨List.nodup_nil, hconfig⟩
    rintro w event _ ⟨hnd, hstrategy⟩ rfl
    exact ⟨(nodup_exec hnd event).1, (nodup_exec hnd event).2.trans hstrategy⟩
  intro w hw resolved
  exact routesToLeast_of_upToDate (hinv w hw).1 (hinv w hw).2 (hdate w hw) resolved

end Pressure

/-! ## Two pods -/

def pod (id : String) : Replica Rat :=
  { id, model := "llama", version := "v1", device := .cuda 0, maxConcurrency := 4
    activeSequences := 0, kvPressurePct := 0, healthy := true, loadedAdapters := [] }

def play (events : List (Event Rat)) : List (Event Rat × World Rat) :=
  replay (fun w event => (.ok (exec w event) : Except Disabled (World Rat))) (.new .default) events

theorem play_run (events : List (Event Rat)) : Along Step (.new .default) (play events) :=
  (along_replay _ _ _).imp fun _ _ _ h => Except.ok.inj h

/-- Both report their load; the first has the higher pressure. -/
def twoPods : List (Event Rat) :=
  [.registerReplica (pod "p1"), .registerReplica (pod "p2"), .updateLoad "p1" 2 40 true,
    .updateLoad "p2" 1 20 true]

/-- The second is drained. -/
def drained : List (Event Rat) := twoPods ++ [.setReady "p2" false, .writeReady 0]

def llama : ResolvedModel := ⟨"llama", "v1", none⟩

theorem drained_keepsLoad :
    Along (fun w event _ => KeepsLoad w event) (.new .default) (play drained) :=
  ⟨trivial, trivial, trivial, trivial, trivial, (setReady_alone _ "p2" false).2, trivial⟩

/-- The drained pod is given no request, though its pressure is the lower one. -/
theorem gateway_routes_to_ready_drained :
    let w := last (.new .default) (play drained)
    RoutesToReady w (some llama) ∧
      (w.gateway.routeResolved (some llama)).1.map (·.replica) = some "p1" :=
  ⟨gateway_routes_to_ready _ (play_run drained) _ (last_mem_visited _ _) _, by decide +kernel⟩

theorem reports_kept_drained : UpToDate (last (.new .default) (play drained)) :=
  (reports_kept_iff _ (play_run drained)).mpr drained_keepsLoad _ (last_mem_visited _ _)

/-- A load that is reported between the two steps of a probe is gone. -/
example :
    let w := last (.new .default) (play
      [.registerReplica (pod "p1"), .setReady "p1" true, .updateLoad "p1" 3 80 true, .writeReady 0])
    (w.gateway.find "p1").map (·.activeSequences) = some 0 ∧
      (w.reported "p1").map (·.activeSequences) = some 3 := by decide +kernel

theorem gateway_routes_to_least_two_pods :
    let w := last (.new .default) (play twoPods)
    RoutesToLeast w llama ∧
      (w.gateway.routeResolved (some llama)).1.map (·.replica) = some "p2" :=
  ⟨gateway_routes_to_least rfl _ (play_run twoPods)
    ⟨trivial, trivial, trivial, trivial, trivial⟩ _ (last_mem_visited _ _) _, by decide +kernel⟩

end JustApi.Inference.Readiness
