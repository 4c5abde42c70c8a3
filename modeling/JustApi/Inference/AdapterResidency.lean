import Mathlib.Logic.Function.Basic
import JustApi.Inference.FleetAgreement

/-! # Which adapters the router knows of

Runs of the supervisor's calls with the adapters last reported for each live replica.
Every sync registers the live replicas anew, without adapters, so a report lasts until
the next call that syncs. -/
namespace JustApi.Inference.AdapterResidency
open JustApi.Lib.Run JustApi.Inference.Autoscaling JustApi.Inference.ReplicaRouting
open JustApi.Inference.Supervision JustApi.Inference.Supervision.Supervisor
open JustApi.Inference.FleetAgreement
open Function (update)

variable {F : Type}

/-- A fleet with the adapters last set for a replica that was live then. -/
structure Residency (F : Type) where
  fleet : Fleet F
  lastSet : String → Option (List String)

def Residency.new (config : SupervisorConfig F) : Residency F := ⟨.new config, fun _ => none⟩

/-- The adapters the router has for an id, `none` when it does not list it. -/
def loadedAdapters (router : Router F) (id : String) : Option (List String) :=
  (router.replicas.find? fun r => r.id == id).map Replica.loadedAdapters

/-- While the replica is live, the router has the adapters last set for it. -/
def Resident (id : String) (r : Residency F) : Prop :=
  id ∈ r.fleet.sup.liveIds → ∀ adapters, r.lastSet id = some adapters →
    loadedAdapters r.fleet.sup.router id = some adapters

section Act

variable [LE F] [DecidableLE F] [Mul F] [OfScientific F]

def Residency.act (r : Residency F) (op : Op F) : Residency F :=
  { fleet := r.fleet.act op
    lastSet :=
      match op with
      | .setLoadedAdapters id adapters =>
        if id ∈ r.fleet.sup.liveIds then update r.lastSet id (some adapters) else r.lastSet
      | _ => r.lastSet }

def Step (r : Residency F) (op : Op F) (r' : Residency F) : Prop := r.act op = r'

/-- A call that syncs the router and keeps the replica live finds no adapters set for
it, or an empty list. -/
def Spares (id : String) (r : Residency F) (op : Op F) : Prop :=
  match op with
  | .reconcile _ | .onReplicaStarted _ | .onReplicaReport _ _ _ =>
    id ∈ (r.act op).fleet.sup.liveIds → ∀ adapters, r.lastSet id = some adapters → adapters = []
  | .onReplicaStopped _ | .setLoadedAdapters _ _ => True

end Act

/-! ## What each call does to the adapters of an id -/

section Table

variable {router : Router F} {id other : String}

theorem loadedAdapters_remove (hne : id ≠ other) :
    loadedAdapters (router.removeReplica other) id = loadedAdapters router id := by
  show ((router.replicas.eraseP fun r => r.id == other).find? _).map _ = _
  unfold loadedAdapters
  congr 1
  induction router.replicas with
  | nil => rfl
  | cons r rest ih =>
    by_cases hr : r.id = other
    · have hid : (r.id == id) = false := beq_false_of_ne fun he => hne (he ▸ hr)
      rw [List.eraseP_cons_of_pos (by simpa using hr), List.find?_cons_of_neg (by simp [hid])]
    · rw [List.eraseP_cons_of_neg (by simpa using hr), List.find?_cons, List.find?_cons, ih]

theorem loadedAdapters_set_ne (hne : id ≠ other) (adapters : List String) :
    loadedAdapters (router.setLoadedAdapters other adapters) id = loadedAdapters router id := by
  show ((updateFirst (fun r => r.id == other) (fun r => { r with loadedAdapters := adapters })
    router.replicas).find? _).map _ = _
  unfold loadedAdapters
  congr 1
  induction router.replicas with
  | nil => rfl
  | cons r rest ih =>
    simp only [updateFirst]
    by_cases hr : r.id = other
    · have hid : (r.id == id) = false := beq_false_of_ne fun he => hne (he ▸ hr)
      rw [if_pos (by simpa using hr), List.find?_cons_of_neg (by simp [hid]),
        List.find?_cons_of_neg (by simp [hid])]
    · rw [if_neg (by simpa using hr), List.find?_cons, List.find?_cons, ih]

theorem loadedAdapters_set_self (h : id ∈ router.ids) (adapters : List String) :
    loadedAdapters (router.setLoadedAdapters id adapters) id = some adapters := by
  show ((updateFirst (fun r => r.id == id) (fun r => { r with loadedAdapters := adapters })
    router.replicas).find? _).map _ = _
  unfold Router.ids at h
  generalize router.replicas = replicas at h ⊢
  induction replicas with
  | nil => cases h
  | cons r rest ih =>
    simp only [updateFirst]
    by_cases hr : r.id = id
    · rw [if_pos (by simpa using hr), List.find?_cons_of_pos (by simpa using hr)]
      rfl
    · rw [if_neg (by simpa using hr), List.find?_cons_of_neg (by simpa using hr)]
      exact ih ((List.mem_cons.mp h).resolve_left (Ne.symm hr))

/-- A sync leaves a live replica without adapters. -/
theorem loadedAdapters_sync {s : Supervisor F} (hlive : s.liveIds.Nodup)
    (hnd : s.router.ids.Nodup) (hid : id ∈ s.liveIds) :
    loadedAdapters s.syncRouter.router id = some [] := by
  obtain ⟨-, hmem⟩ := syncRouter_spec hlive hnd
  obtain ⟨lr, hlr, he⟩ := List.mem_map.mp hid
  unfold loadedAdapters
  cases hf : s.syncRouter.router.replicas.find? fun r => r.id == id with
  | none =>
    have := List.find?_eq_none.mp hf _ ((hmem _).mpr (List.mem_map_of_mem hlr))
    exact absurd (beq_iff_eq.mpr he) this
  | some r =>
    obtain ⟨lr', -, rfl⟩ := List.mem_map.mp ((hmem r).mp (List.mem_of_find?_eq_some hf))
    rfl

end Table

/-! ## One call -/

/-- The router knows every live replica. -/
theorem mem_ids_of_live {f : Fleet F} (h : Tied f) {id : String} (hid : id ∈ f.sup.liveIds) :
    id ∈ f.sup.router.ids := by
  obtain ⟨lr, hlr, rfl⟩ := List.mem_map.mp hid
  obtain ⟨r, hr, he⟩ := List.mem_map.mp ((h.entries _).mpr (List.mem_map_of_mem hlr))
  exact List.mem_map.mpr ⟨r, hr, congrArg Prod.fst he⟩

section Steps

variable [LE F] [DecidableLE F] [Mul F] [OfScientific F] {r : Residency F} {id : String}

/-- The three calls that sync leave every live replica without adapters. -/
theorem loadedAdapters_act (h : Tied r.fleet) {op : Op F}
    (hop : (∃ m, op = .reconcile m) ∨ (∃ i, op = .onReplicaStarted i) ∨
      ∃ i n kv, op = .onReplicaReport i n kv)
    (hid : id ∈ (r.act op).fleet.sup.liveIds) :
    loadedAdapters (r.act op).fleet.sup.router id = some [] := by
  have htied := (tied_act h op).distinct
  rcases hop with ⟨m, rfl⟩ | ⟨i, rfl⟩ | ⟨i, n, kv, rfl⟩
  · obtain ⟨k, kept, removed, hr, -⟩ := reconcile_spec r.fleet.sup m
    change id ∈ (r.fleet.sup.reconcile m).2.liveIds at hid
    change (r.fleet.sup.reconcile m).2.liveIds.Nodup at htied
    show loadedAdapters (r.fleet.sup.reconcile m).2.router id = some []
    rw [hr] at hid htied ⊢
    exact loadedAdapters_sync htied h.routerIds hid
  · exact loadedAdapters_sync htied h.routerIds hid
  · exact loadedAdapters_sync htied h.routerIds hid

theorem resident_act (h : Tied r.fleet) (hres : Resident id r) {op : Op F}
    (hop : Spares id r op) : Resident id (r.act op) := by
  intro hid adapters hset
  cases op with
  | reconcile m =>
    rw [loadedAdapters_act h (.inl ⟨m, rfl⟩) hid, hop hid adapters hset]
  | onReplicaStarted i =>
    rw [loadedAdapters_act h (.inr (.inl ⟨i, rfl⟩)) hid, hop hid adapters hset]
  | onReplicaReport i n kv =>
    rw [loadedAdapters_act h (.inr (.inr ⟨i, n, kv, rfl⟩)) hid, hop hid adapters hset]
  | onReplicaStopped i =>
    obtain ⟨lr, hlr, rfl⟩ := List.mem_map.mp hid
    obtain ⟨hmem, hne⟩ := List.mem_filter.mp hlr
    show loadedAdapters (r.fleet.sup.router.removeReplica i) lr.id = some adapters
    rw [loadedAdapters_remove (bne_iff_ne.mp hne)]
    exact hres (List.mem_map_of_mem hmem) adapters hset
  | setLoadedAdapters i set =>
    change id ∈ r.fleet.sup.liveIds at hid
    change (if i ∈ r.fleet.sup.liveIds then update r.lastSet i (some set) else r.lastSet) id =
      some adapters at hset
    show loadedAdapters (r.fleet.sup.router.setLoadedAdapters i set) id = some adapters
    by_cases hi : id = i
    · subst hi
      rw [if_pos hid, Function.update_self] at hset
      rw [loadedAdapters_set_self (mem_ids_of_live h hid), hset]
    · rw [loadedAdapters_set_ne hi]
      refine hres hid adapters ?_
      split at hset
      · rwa [Function.update_of_ne hi] at hset
      · exact hset

/-- The other way round: adapters that are still resident after a sync are none. -/
theorem spares_of_resident (h : Tied r.fleet) {op : Op F} (hres : Resident id (r.act op)) :
    Spares id r op := by
  cases op with
  | reconcile m =>
    intro hid adapters hset
    have := hres hid adapters hset
    rw [loadedAdapters_act h (.inl ⟨m, rfl⟩) hid] at this
    exact (Option.some.inj this).symm
  | onReplicaStarted i =>
    intro hid adapters hset
    have := hres hid adapters hset
    rw [loadedAdapters_act h (.inr (.inl ⟨i, rfl⟩)) hid] at this
    exact (Option.some.inj this).symm
  | onReplicaReport i n kv =>
    intro hid adapters hset
    have := hres hid adapters hset
    rw [loadedAdapters_act h (.inr (.inr ⟨i, n, kv, rfl⟩)) hid] at this
    exact (Option.some.inj this).symm
  | onReplicaStopped i => exact trivial
  | setLoadedAdapters i set => exact trivial

/-- **A report of adapters lasts exactly until the next sync.** In every run of the
supervisor's calls and of `set_loaded_adapters`, for every id: the router has the
adapters last set for the replica in every state in which it is live if and only if no
reconciliation, start or load report that keeps it live comes while a non-empty list is
set for it. -/
theorem adapters_resident_iff (config : SupervisorConfig F) (id : String)
    (tr : List (Op F × Residency F)) (hrun : Along Step (.new config) tr) :
    (∀ r ∈ visited (.new config) tr, Resident id r) ↔
      Along (fun r op _ => Spares id r op) (.new config) tr := by
  refine Along.forall_visited_iff (I := fun r => Tied r.fleet ∧ Resident id r) ?_ ?_
    (fun _ h => h.2) ⟨tied_new config, fun hid => by cases hid⟩ hrun
  · rintro r op _ ⟨h, hres⟩ rfl hop
    exact ⟨tied_act h op, resident_act h hres hop⟩
  · rintro r op _ ⟨h, -⟩ rfl hres
    exact spares_of_resident h hres

end Steps

/-- Adapters are set after all replicas of a fleet have started, and another replica
stops. -/
theorem adapters_resident_after_start :
    ∃ tr : List (Op Rat × Residency Rat), tr.map Prod.fst =
        [.reconcile ⟨100, 0, 10⟩, .onReplicaStarted "llama-v1-0", .onReplicaStarted "llama-v1-1",
          .setLoadedAdapters "llama-v1-0" ["math"], .onReplicaStopped "llama-v1-1"] ∧
      (∃ r ∈ visited (.new smallFleet) tr, r.fleet.sup.liveIds = ["llama-v1-0"] ∧
        r.lastSet "llama-v1-0" = some ["math"]) ∧
      ∀ r ∈ visited (.new smallFleet) tr, Resident "llama-v1-0" r := by
  have hrun : Along Step (.new smallFleet)
      [(.reconcile ⟨100, 0, 10⟩, _), (.onReplicaStarted "llama-v1-0", _),
        (.onReplicaStarted "llama-v1-1", _), (.setLoadedAdapters "llama-v1-0" ["math"], _),
        (.onReplicaStopped "llama-v1-1", _)] :=
    ⟨rfl, rfl, rfl, rfl, rfl, trivial⟩
  refine ⟨_, rfl, ?_, (adapters_resident_iff smallFleet "llama-v1-0" _ hrun).mpr ?_⟩
  · exact ⟨_, List.mem_cons_of_mem _ (List.mem_of_mem_getLast? rfl), by decide +kernel,
      by decide +kernel⟩
  · exact ⟨fun _ _ h => (by cases h), fun _ _ h => (by cases h), fun _ _ h => (by cases h),
      trivial, trivial, trivial⟩

/-- A replica has the adapter `math` and takes requests for it. A load report for the
other replica comes in, and no replica takes them any more. -/
theorem report_forgets_adapters :
    ∃ tr : List (Op Rat × Residency Rat), tr.map Prod.fst =
        [.reconcile ⟨100, 0, 10⟩, .onReplicaStarted "llama-v1-0", .onReplicaStarted "llama-v1-1",
          .setLoadedAdapters "llama-v1-0" ["math"], .onReplicaReport "llama-v1-1" 3 50] ∧
      Along Step (.new smallFleet) tr ∧
      ∃ before ∈ visited (.new smallFleet) tr, ∃ after ∈ visited (.new smallFleet) tr,
        Step before (.onReplicaReport "llama-v1-1" 3 50) after ∧
        ¬ Resident "llama-v1-0" after ∧
        (before.fleet.sup.router.route (some ⟨"llama", "v1", some "math"⟩)).1 =
          some ⟨"llama-v1-0", ⟨"llama", "v1", some "math"⟩⟩ ∧
        (after.fleet.sup.router.route (some ⟨"llama", "v1", some "math"⟩)).1 = none := by
  have hrun : Along Step (.new smallFleet)
      [(.reconcile ⟨100, 0, 10⟩, _), (.onReplicaStarted "llama-v1-0", _),
        (.onReplicaStarted "llama-v1-1", _), (.setLoadedAdapters "llama-v1-0" ["math"], _),
        (.onReplicaReport "llama-v1-1" 3 50, _)] :=
    ⟨rfl, rfl, rfl, rfl, rfl, trivial⟩
  refine ⟨_, rfl, hrun, _, List.mem_of_getElem? (i := 4) rfl, _,
    List.mem_of_getElem? (i := 5) rfl, rfl, fun h => ?_, by decide +kernel, by decide +kernel⟩
  have := h (by decide +kernel) ["math"] (by decide +kernel)
  exact absurd this (by decide +kernel)

end JustApi.Inference.AdapterResidency
