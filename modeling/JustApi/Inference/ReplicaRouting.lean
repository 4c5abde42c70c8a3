import Mathlib.Algebra.Group.Nat.Defs
import Mathlib.Data.List.Nodup

/-! # The request router

The router's table of replicas and how a request, resolved by the control plane to
a model, a version and possibly an adapter, is given to one of them. -/
namespace JustApi.Inference.ReplicaRouting

inductive EngineDevice where
  | cpu
  | cuda (ordinal : Nat)
  | metal (ordinal : Nat)
  deriving DecidableEq, Repr

structure Replica (F : Type) where
  id : String
  model : String
  version : String
  device : EngineDevice
  maxConcurrency : Nat
  activeSequences : Nat
  kvPressurePct : F
  healthy : Bool
  loadedAdapters : List String
  deriving DecidableEq, Repr

/-- What routing uses of a resolved model. -/
structure ResolvedModel where
  modelName : String
  version : String
  adapter : Option String
  deriving DecidableEq, Repr

structure RouteDecision where
  replica : String
  resolved : ResolvedModel
  deriving DecidableEq, Repr

inductive RoutingStrategy where
  | leastLoaded
  | lowestKvPressure
  | roundRobin
  deriving DecidableEq, Repr

structure Router (F : Type) where
  strategy : RoutingStrategy
  replicas : List (Replica F)
  /-- The `AtomicUsize` of round robin; `fetch_add` wraps around. -/
  rr : Nat
  deriving DecidableEq, Repr

/-- `iter_mut().find(p)` and an update of what it finds. -/
def updateFirst {α : Type} (p : α → Bool) (f : α → α) : List α → List α
  | [] => []
  | a :: rest => if p a then f a :: rest else a :: updateFirst p f rest

namespace Router

variable {F : Type}

def new (strategy : RoutingStrategy) : Router F := ⟨strategy, [], 0⟩

/-- Register a replica, or replace the one with its id. -/
def registerReplica (router : Router F) (replica : Replica F) : Router F :=
  { router with
    replicas :=
      if router.replicas.any fun r => r.id == replica.id then
        updateFirst (fun r => r.id == replica.id) (fun _ => replica) router.replicas
      else router.replicas ++ [replica] }

def updateLoad (router : Router F) (id : String) (activeSequences : Nat) (kvPressurePct : F)
    (healthy : Bool) : Router F :=
  { router with
    replicas := updateFirst (fun r => r.id == id)
      (fun r => { r with activeSequences, kvPressurePct, healthy }) router.replicas }

def setLoadedAdapters (router : Router F) (id : String) (adapters : List String) : Router F :=
  { router with
    replicas := updateFirst (fun r => r.id == id) (fun r => { r with loadedAdapters := adapters })
      router.replicas }

def removeReplica (router : Router F) (id : String) : Router F :=
  { router with replicas := router.replicas.eraseP fun r => r.id == id }

section Route

variable [LE F] [DecidableLE F] [LT F] [DecidableLT F] [OfScientific F]

def isOverloaded (r : Replica F) : Bool :=
  r.maxConcurrency ≤ r.activeSequences || (95.0 : F) ≤ r.kvPressurePct

/-- The replica can serve the resolved model. -/
def eligible (resolved : ResolvedModel) (r : Replica F) : Bool :=
  r.model == resolved.modelName && r.version == resolved.version && r.healthy &&
    !isOverloaded r &&
      match resolved.adapter with
      | some a => r.loadedAdapters.any fun la => la == a
      | none => true

def candidates (router : Router F) (resolved : ResolvedModel) : List (Replica F) :=
  router.replicas.filter (eligible resolved)

/-- The first of the smallest, as `min_by` finds it; `gt` says that its first
argument is the greater one. -/
def minBy (gt : Replica F → Replica F → Bool) (head : Replica F) (rest : List (Replica F)) :
    Replica F :=
  rest.foldl (fun x y => if gt x y then y else x) head

/-- Route a request that the control plane has resolved, `none` when it does not know
the model. -/
def route (router : Router F) (resolved : Option ResolvedModel) :
    Option RouteDecision × Router F :=
  match resolved with
  | none => (none, router)
  | some resolved =>
    match router.candidates resolved with
    | [] => (none, router)
    | head :: rest =>
      match router.strategy with
      | .leastLoaded =>
        (some ⟨(minBy (fun x y => y.activeSequences < x.activeSequences) head rest).id, resolved⟩,
          router)
      | .lowestKvPressure =>
        -- numbers that do not compare count as equal
        (some ⟨(minBy (fun x y => y.kvPressurePct < x.kvPressurePct) head rest).id, resolved⟩,
          router)
      | .roundRobin =>
        let chosen := ((head :: rest)[router.rr % (rest.length + 1)]?).getD head
        (some ⟨chosen.id, resolved⟩, { router with rr := (router.rr + 1) % 2 ^ 64 })

end Route

/-! ## The table by ids -/

def ids (router : Router F) : List String := router.replicas.map Replica.id

theorem map_updateFirst {α β : Type} {p : α → Bool} {f : α → α} {g : α → β}
    (h : ∀ a, p a = true → g (f a) = g a) (as : List α) :
    (updateFirst p f as).map g = as.map g := by
  induction as with
  | nil => rfl
  | cons a rest ih =>
    simp only [updateFirst]
    split
    · rename_i hp
      rw [List.map_cons, List.map_cons, h a hp]
    · rw [List.map_cons, List.map_cons, ih]

/-- In a list whose keys are not shared, updating the first entry with a key updates
all of them. -/
theorem updateFirst_eq_map {α : Type} {key : α → String} {id : String} {f : α → α} {as : List α}
    (hnd : (as.map key).Nodup) :
    updateFirst (fun a => key a == id) f as = as.map fun a => if key a = id then f a else a := by
  induction as with
  | nil => rfl
  | cons a rest ih =>
    obtain ⟨hnot, hnd⟩ := List.nodup_cons.mp hnd
    simp only [updateFirst, beq_iff_eq, List.map_cons]
    by_cases ha : key a = id
    · have hrest : ∀ b ∈ rest, (if key b = id then f b else b) = b := by
        intro b hb
        rw [if_neg]
        intro hbid
        exact hnot (ha.trans hbid.symm ▸ List.mem_map_of_mem hb)
      rw [if_pos ha, if_pos ha, List.map_congr_left hrest, List.map_id']
    · rw [if_neg ha, if_neg ha, ih hnd]

/-- The same for erasing. -/
theorem eraseP_eq_filter {α : Type} {key : α → String} {id : String} {as : List α}
    (hnd : (as.map key).Nodup) :
    as.eraseP (fun a => key a == id) = as.filter fun a => key a ≠ id := by
  induction as with
  | nil => rfl
  | cons a rest ih =>
    obtain ⟨hnot, hnd⟩ := List.nodup_cons.mp hnd
    by_cases ha : key a = id
    · rw [List.eraseP_cons_of_pos (by simpa using ha), List.filter_cons_of_neg (by simpa using ha)]
      refine (List.filter_eq_self.mpr fun b hb => ?_).symm
      rw [decide_eq_true_eq]
      intro hbid
      exact hnot (ha.trans hbid.symm ▸ List.mem_map_of_mem hb)
    · rw [List.eraseP_cons_of_neg (by simpa using ha), List.filter_cons_of_pos (by simpa using ha),
        ih hnd]

section Table

variable {router : Router F} {id : String}

/-- Registering puts the replica in the place of the one with its id. -/
theorem mem_registerReplica (hnd : router.ids.Nodup) (replica r : Replica F) :
    r ∈ (router.registerReplica replica).replicas ↔
      r = replica ∨ (r ∈ router.replicas ∧ r.id ≠ replica.id) := by
  simp only [registerReplica]
  split
  · rename_i hany
    rw [updateFirst_eq_map hnd, List.mem_map]
    obtain ⟨q, hq, hid⟩ := List.any_eq_true.mp hany
    constructor
    · rintro ⟨a, ha, rfl⟩
      split
      · exact .inl rfl
      · rename_i hne
        exact .inr ⟨ha, hne⟩
    · rintro (rfl | ⟨hr, hne⟩)
      · exact ⟨q, hq, if_pos (beq_iff_eq.mp hid)⟩
      · exact ⟨r, hr, if_neg hne⟩
  · rename_i hany
    have hnone : ∀ q ∈ router.replicas, q.id ≠ replica.id := by
      intro q hq he
      exact hany (List.any_eq_true.mpr ⟨q, hq, beq_iff_eq.mpr he⟩)
    rw [List.mem_append, List.mem_singleton]
    constructor
    · rintro (hr | rfl)
      · exact .inr ⟨hr, hnone r hr⟩
      · exact .inl rfl
    · rintro (rfl | ⟨hr, -⟩)
      · exact .inr rfl
      · exact .inl hr

theorem nodup_registerReplica (hnd : router.ids.Nodup) (replica : Replica F) :
    (router.registerReplica replica).ids.Nodup := by
  unfold ids
  simp only [registerReplica]
  split
  · rw [map_updateFirst (g := Replica.id) fun r hr => (beq_iff_eq.mp hr).symm]
    exact hnd
  · rename_i hany
    rw [List.map_append, List.map_singleton]
    refine List.nodup_append'.mpr ⟨hnd, List.nodup_singleton _, ?_⟩
    intro x hx hx'
    obtain ⟨q, hq, rfl⟩ := List.mem_map.mp hx
    exact hany (List.any_eq_true.mpr ⟨q, hq, beq_iff_eq.mpr (List.mem_singleton.mp hx')⟩)

theorem mem_removeReplica (hnd : router.ids.Nodup) (r : Replica F) :
    r ∈ (router.removeReplica id).replicas ↔ r ∈ router.replicas ∧ r.id ≠ id := by
  show r ∈ router.replicas.eraseP (fun r => r.id == id) ↔ _
  rw [eraseP_eq_filter hnd, List.mem_filter, decide_eq_true_eq]

theorem nodup_removeReplica (hnd : router.ids.Nodup) : (router.removeReplica id).ids.Nodup :=
  hnd.sublist (List.eraseP_sublist.map _)

theorem ids_setLoadedAdapters (router : Router F) (id : String) (adapters : List String) :
    (router.setLoadedAdapters id adapters).ids = router.ids := by
  refine map_updateFirst ?_ router.replicas
  intro r _
  rfl

end Table

end Router

end JustApi.Inference.ReplicaRouting
