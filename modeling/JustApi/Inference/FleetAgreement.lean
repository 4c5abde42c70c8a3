import Mathlib.Data.List.Perm.Basic
import JustApi.Lib.Run
import JustApi.Inference.Supervision

/-! # Supervisor, router and intents agree

Runs of the supervisor's calls with the log of the intents they emitted. The router
lists exactly the live replicas, every live replica was started once, and every
intent to stop names a replica that was started and not stopped before. -/
namespace JustApi.Inference.FleetAgreement
open JustApi.Lib.Run JustApi.Inference.Autoscaling JustApi.Inference.ReplicaRouting
open JustApi.Inference.Supervision JustApi.Inference.Supervision.Supervisor

variable {F : Type}

/-! ## The router after a sync -/

section Sync

variable {router : Router F} {ids : List String}

/-- Dropping the listed replicas whose ids are not in `ids`. -/
theorem dropped_spec (ids : List String) (rs : List (Replica F)) (hnd : router.ids.Nodup) :
    let out := rs.foldl (fun router r => if r.id ∈ ids then router else router.removeReplica r.id)
      router
    out.ids.Nodup ∧ ∀ x, x ∈ out.replicas ↔
      x ∈ router.replicas ∧ ∀ r ∈ rs, r.id ∉ ids → x.id ≠ r.id := by
  induction rs generalizing router with
  | nil => exact ⟨hnd, fun x => by simp⟩
  | cons r rest ih =>
    simp only [List.foldl_cons]
    by_cases hr : r.id ∈ ids
    · rw [if_pos hr]
      obtain ⟨hnd', hmem⟩ := ih hnd
      refine ⟨hnd', fun x => (hmem x).trans ?_⟩
      simp [hr]
    · rw [if_neg hr]
      obtain ⟨hnd', hmem⟩ := ih (Router.nodup_removeReplica hnd)
      refine ⟨hnd', fun x => (hmem x).trans ?_⟩
      rw [Router.mem_removeReplica hnd]
      simp [hr, and_assoc]

/-- Registering the live replicas. -/
theorem registered_spec (config : SupervisorConfig F) (live : List (LiveReplica F))
    (hlive : (live.map LiveReplica.id).Nodup) (hnd : router.ids.Nodup) :
    let out := live.foldl (fun router lr => router.registerReplica (advertised config lr)) router
    out.ids.Nodup ∧ ∀ x, x ∈ out.replicas ↔ x ∈ live.map (advertised config) ∨
      (x ∈ router.replicas ∧ x.id ∉ live.map LiveReplica.id) := by
  induction live generalizing router with
  | nil => exact ⟨hnd, fun x => by simp⟩
  | cons lr rest ih =>
    simp only [List.foldl_cons]
    obtain ⟨hnot, hrest⟩ := List.nodup_cons.mp hlive
    obtain ⟨hnd', hmem⟩ := ih hrest (Router.nodup_registerReplica hnd (advertised config lr))
    refine ⟨hnd', fun x => (hmem x).trans ?_⟩
    rw [Router.mem_registerReplica hnd, List.map_cons, List.map_cons, List.mem_cons, List.mem_cons]
    have hid : (advertised config lr).id = lr.id := rfl
    constructor
    · rintro (hx | ⟨rfl | ⟨hx, hne⟩, hx'⟩)
      · exact .inl (.inr hx)
      · exact .inl (.inl rfl)
      · exact .inr ⟨hx, fun h => h.elim hne hx'⟩
    · rintro ((rfl | hx) | ⟨hx, hx'⟩)
      · exact .inr ⟨.inl rfl, hid ▸ hnot⟩
      · exact .inl hx
      · exact .inr ⟨.inr ⟨hx, fun h => hx' (.inl h)⟩, fun h => hx' (.inr h)⟩

/-- After a sync the router lists what it is told of the live replicas, each once. -/
theorem syncRouter_spec {s : Supervisor F} (hlive : s.liveIds.Nodup) (hnd : s.router.ids.Nodup) :
    s.syncRouter.router.ids.Nodup ∧
      ∀ x, x ∈ s.syncRouter.router.replicas ↔ x ∈ s.live.map (advertised s.config) := by
  obtain ⟨hnd₁, hmem₁⟩ := dropped_spec s.liveIds s.router.replicas hnd
  obtain ⟨hnd₂, hmem₂⟩ := registered_spec s.config s.live hlive hnd₁
  refine ⟨hnd₂, fun x => (hmem₂ x).trans ?_⟩
  rw [hmem₁]
  constructor
  · rintro (hx | ⟨⟨hx, hgone⟩, hnot⟩)
    · exact hx
    · exact absurd rfl (hgone x hx hnot)
  · exact .inl

end Sync

/-! ## The loops of reconciling -/

/-- A replica as it is started. -/
def starting [OfScientific F] (config : SupervisorConfig F) (index : Nat) : LiveReplica F :=
  ⟨replicaId config index, false, 0, 0.0⟩

def startIntent (config : SupervisorConfig F) (index : Nat) : SupervisorAction :=
  .startReplica (replicaId config index) config.model config.version

/-- Starting adds replicas under the next indices, up to the desired count. -/
theorem startReplicas_spec [OfScientific F] (desired fuel : Nat) (s : Supervisor F)
    (hfuel : desired ≤ s.live.length + fuel) : ∃ k,
      startReplicas desired fuel s = ((List.range' s.nextIndex k).map (startIntent s.config),
        { s with nextIndex := s.nextIndex + k,
                 live := s.live ++ (List.range' s.nextIndex k).map (starting s.config) }) ∧
      s.live.length + k = max s.live.length (min desired s.config.maxReplicas) := by
  induction fuel generalizing s with
  | zero => exact ⟨0, by simp [startReplicas], by omega⟩
  | succ fuel ih =>
    simp only [startReplicas]
    split
    · rename_i hlt
      obtain ⟨k, hk, hlen⟩ := ih { s with
        nextIndex := s.nextIndex + 1, live := s.live ++ [starting s.config s.nextIndex] }
        (by simp only [List.length_append, List.length_singleton]; omega)
      refine ⟨k + 1, ?_, ?_⟩
      · change startReplicas desired fuel { s with
          nextIndex := s.nextIndex + 1, live := s.live ++ [⟨_, false, 0, 0.0⟩] } = _ at hk
        rw [hk]
        simp [List.range'_succ, startIntent, starting, Nat.add_assoc, Nat.add_comm 1 k]
      · simp only [List.length_append, List.length_singleton] at hlen
        omega
    · exact ⟨0, by simp, by omega⟩

theorem stopIndex_lt {live : List (LiveReplica F)} (h : 0 < live.length) :
    stopIndex live < live.length := by
  unfold stopIndex
  cases hf : live.findIdx? fun r => !r.healthy with
  | none => simp only [Option.getD_none]; omega
  | some i => exact (List.findIdx?_eq_some_iff_findIdx_eq.mp hf).1

/-- Stopping splits the live set into what stays and what is named, down to the
desired count. -/
theorem stopReplicas_spec (desired fuel : Nat) (s : Supervisor F) (hfuel : s.live.length ≤ fuel) :
    ∃ kept removed, stopReplicas desired fuel s =
        (removed.map fun r => .stopReplica r.id, { s with live := kept }) ∧
      kept.Sublist s.live ∧ (kept ++ removed).Perm s.live ∧
      kept.length = min s.live.length desired := by
  induction fuel generalizing s with
  | zero =>
    refine ⟨s.live, [], rfl, List.Sublist.refl _, by simp, ?_⟩
    omega
  | succ fuel ih =>
    simp only [stopReplicas]
    split
    · rename_i hlt
      have hi : stopIndex s.live < s.live.length := stopIndex_lt (by omega)
      rw [List.getElem?_eq_getElem hi]
      have hlen := List.length_eraseIdx_of_lt hi
      obtain ⟨kept, removed, hk, hsub, hperm, hmin⟩ := ih
        { s with live := s.live.eraseIdx (stopIndex s.live) } (by simp only; omega)
      refine ⟨kept, s.live[stopIndex s.live] :: removed, by simp only [hk]; rfl,
        hsub.trans (List.eraseIdx_sublist _ _), ?_, ?_⟩
      · refine List.perm_middle.trans ((hperm.cons _).trans ?_)
        exact List.getElem_cons_eraseIdx_perm hi
      · simp only at hmin
        omega
    · exact ⟨s.live, [], rfl, List.Sublist.refl _, by simp, by omega⟩

/-! ## The log of intents -/

def startedIds (log : List SupervisorAction) : List String :=
  log.filterMap fun
    | .startReplica id _ _ => some id
    | .stopReplica _ => none

def stoppedIds (log : List SupervisorAction) : List String :=
  log.filterMap fun
    | .startReplica _ _ _ => none
    | .stopReplica id => some id

/-- No replica is started twice, and a stop names one that was started before and not
stopped since. -/
structure Sound (log : List SupervisorAction) : Prop where
  starts : (startedIds log).Nodup
  stops : ∀ pre id post, log = pre ++ .stopReplica id :: post →
    id ∈ startedIds pre ∧ id ∉ stoppedIds pre

@[simp] theorem startedIds_append (log log' : List SupervisorAction) :
    startedIds (log ++ log') = startedIds log ++ startedIds log' := List.filterMap_append

@[simp] theorem stoppedIds_append (log log' : List SupervisorAction) :
    stoppedIds (log ++ log') = stoppedIds log ++ stoppedIds log' := List.filterMap_append

section Intents

variable {config : SupervisorConfig F}

theorem startedIds_starts (indices : List Nat) :
    startedIds (indices.map (startIntent config)) = indices.map (replicaId config) := by
  induction indices with
  | nil => rfl
  | cons i rest ih => simpa [startedIds, startIntent] using ih

theorem stoppedIds_starts (indices : List Nat) :
    stoppedIds (indices.map (startIntent config)) = [] := by
  induction indices with
  | nil => rfl
  | cons i rest ih => simp [stoppedIds, startIntent]

theorem startedIds_stops (removed : List (LiveReplica F)) :
    startedIds (removed.map fun r => .stopReplica r.id) = [] := by
  induction removed with
  | nil => rfl
  | cons r rest ih => simp [startedIds]

theorem stoppedIds_stops (removed : List (LiveReplica F)) :
    stoppedIds (removed.map fun r => .stopReplica r.id) = removed.map LiveReplica.id := by
  induction removed with
  | nil => rfl
  | cons r rest ih => simp [stoppedIds]

theorem replicaId_injective {i j : Nat} (h : replicaId config i = replicaId config j) : i = j := by
  have hlist := congrArg String.toList h
  simp only [replicaId, String.toList_append] at hlist
  have hnum := congrArg (fun ds => Nat.ofDigitChars 10 ds 0) (List.append_cancel_left hlist)
  simpa [Nat.toString_eq_ofList_toDigits] using hnum

/-- A log that ends in an intent to start is sound if it was, and the id is new. -/
theorem Sound.start {log : List SupervisorAction} (h : Sound log) {id model version : String}
    (hnew : id ∉ startedIds log) : Sound (log ++ [.startReplica id model version]) := by
  refine ⟨?_, fun pre stopped post he => ?_⟩
  · rw [startedIds_append]
    exact h.starts.append (List.nodup_singleton _) fun x hx hx' =>
      hnew (List.mem_singleton.mp hx' ▸ hx)
  · rcases List.eq_nil_or_concat post with rfl | ⟨post', last, rfl⟩
    · have := (List.append_inj' he rfl).2
      cases this
    · rw [List.concat_eq_append, ← List.cons_append, ← List.append_assoc] at he
      exact h.stops pre stopped post' (List.append_inj' he rfl).1

/-- The same for an intent to stop. -/
theorem Sound.stop {log : List SupervisorAction} (h : Sound log) {id : String}
    (hstarted : id ∈ startedIds log) (hnot : id ∉ stoppedIds log) :
    Sound (log ++ [.stopReplica id]) := by
  refine ⟨?_, fun pre stopped post he => ?_⟩
  · rw [startedIds_append]
    show (startedIds log ++ []).Nodup
    rw [List.append_nil]
    exact h.starts
  · rcases List.eq_nil_or_concat post with rfl | ⟨post', last, rfl⟩
    · obtain ⟨rfl, hl⟩ := List.append_inj' he rfl
      cases hl
      exact ⟨hstarted, hnot⟩
    · rw [List.concat_eq_append, ← List.cons_append, ← List.append_assoc] at he
      exact h.stops pre stopped post' (List.append_inj' he rfl).1

theorem Sound.starts_append {log : List SupervisorAction} {indices : List Nat} (h : Sound log)
    (hnd : indices.Nodup) (hnew : ∀ i ∈ indices, replicaId config i ∉ startedIds log) :
    Sound (log ++ indices.map (startIntent config)) := by
  induction indices generalizing log with
  | nil => simpa using h
  | cons i rest ih =>
    obtain ⟨hnot, hrest⟩ := List.nodup_cons.mp hnd
    rw [List.map_cons, List.append_cons]
    refine ih (h.start (hnew i List.mem_cons_self)) hrest fun j hj => ?_
    rw [startedIds_append, List.mem_append, not_or]
    refine ⟨hnew j (List.mem_cons_of_mem _ hj), fun hm => ?_⟩
    exact hnot (replicaId_injective (List.mem_singleton.mp hm) ▸ hj)

theorem Sound.stops_append {log : List SupervisorAction} {removed : List (LiveReplica F)}
    (h : Sound log) (hnd : (removed.map LiveReplica.id).Nodup)
    (hok : ∀ r ∈ removed, r.id ∈ startedIds log ∧ r.id ∉ stoppedIds log) :
    Sound (log ++ removed.map fun r => .stopReplica r.id) := by
  induction removed generalizing log with
  | nil => simpa using h
  | cons r rest ih =>
    obtain ⟨hnot, hrest⟩ := List.nodup_cons.mp hnd
    rw [List.map_cons, List.append_cons]
    obtain ⟨hs, hn⟩ := hok r List.mem_cons_self
    refine ih (h.stop hs hn) hrest fun q hq => ?_
    obtain ⟨hs, hn⟩ := hok q (List.mem_cons_of_mem _ hq)
    rw [startedIds_append, stoppedIds_append, List.mem_append, List.mem_append, not_or]
    refine ⟨.inl hs, hn, fun hm => ?_⟩
    exact hnot (List.mem_singleton.mp hm ▸ List.mem_map_of_mem hq)

end Intents

/-! ## What holds after every call -/

/-- The supervisor with the intents emitted so far. -/
structure Fleet (F : Type) where
  sup : Supervisor F
  log : List SupervisorAction

def Fleet.new (config : SupervisorConfig F) : Fleet F := ⟨.new config, []⟩

/-- Id, health, active sequences and KV pressure of a replica in the router. -/
def routerEntry (r : Replica F) : String × Bool × Nat × F :=
  (r.id, r.healthy, r.activeSequences, r.kvPressurePct)

/-- The same of a live replica. -/
def liveEntry (lr : LiveReplica F) : String × Bool × Nat × F :=
  (lr.id, lr.healthy, lr.activeSequences, lr.kvPressurePct)

/-- Router, live set and log agree. -/
structure Agrees (f : Fleet F) : Prop where
  entries : (f.sup.router.replicas.map routerEntry).Perm (f.sup.live.map liveEntry)
  distinct : f.sup.liveIds.Nodup
  capped : f.sup.liveCount ≤ f.sup.config.maxReplicas
  sound : Sound f.log
  known : ∀ id ∈ f.sup.liveIds, id ∈ startedIds f.log

/-- What ties them together: the ids started so far are those of the indices below
`nextIndex`, and no live replica was asked to stop. -/
structure Tied (f : Fleet F) : Prop where
  routerIds : f.sup.router.ids.Nodup
  entries : ∀ x, x ∈ f.sup.router.replicas.map routerEntry ↔ x ∈ f.sup.live.map liveEntry
  distinct : f.sup.liveIds.Nodup
  sound : Sound f.log
  started : startedIds f.log = (List.range f.sup.nextIndex).map (replicaId f.sup.config)
  alive : ∀ id ∈ f.sup.liveIds, id ∈ startedIds f.log ∧ id ∉ stoppedIds f.log

theorem tied_new (config : SupervisorConfig F) : Tied (.new config) where
  routerIds := List.nodup_nil
  entries _ := Iff.rfl
  distinct := List.nodup_nil
  sound := ⟨List.nodup_nil, fun pre id post h => by cases pre <;> cases h⟩
  started := rfl
  alive _ h := by cases h

/-- With bounds in order, the live count stays within them. -/
structure Kept (f : Fleet F) : Prop where
  tied : Tied f
  bounded : f.sup.autoscaler.Bounded
  cap : f.sup.autoscaler.config.maxReplicas = f.sup.config.maxReplicas
  capped : f.sup.liveCount ≤ f.sup.config.maxReplicas

theorem Tied.perm {f : Fleet F} (h : Tied f) :
    (f.sup.router.replicas.map routerEntry).Perm (f.sup.live.map liveEntry) := by
  refine (List.perm_ext_iff_of_nodup ?_ ?_).mpr h.entries
  · exact List.Nodup.of_map Prod.fst (by rw [List.map_map]; exact h.routerIds)
  · exact List.Nodup.of_map Prod.fst (by rw [List.map_map]; exact h.distinct)

theorem Kept.agrees {f : Fleet F} (h : Kept f) : Agrees f :=
  ⟨h.tied.perm, h.tied.distinct, h.capped, h.tied.sound, fun id hid => (h.tied.alive id hid).1⟩

theorem kept_new {config : SupervisorConfig F} (hmin : 1 ≤ config.minReplicas)
    (hmax : config.minReplicas ≤ config.maxReplicas) : Kept (.new config) :=
  ⟨tied_new config, Autoscaler.bounded_new hmin hmax, rfl, Nat.zero_le _⟩

/-- An id in the log's stops was started. -/
theorem Sound.started_of_stopped {log : List SupervisorAction} (h : Sound log) {id : String}
    (hid : id ∈ stoppedIds log) : id ∈ startedIds log := by
  obtain ⟨action, hmem, ha⟩ := List.mem_filterMap.mp hid
  cases action with
  | startReplica _ _ _ => cases ha
  | stopReplica id' =>
    cases ha
    obtain ⟨pre, post, rfl⟩ := List.append_of_mem hmem
    rw [startedIds_append]
    exact List.mem_append_left _ (h.stops pre id post rfl).1

section Steps

variable {f : Fleet F} {s : Supervisor F}

/-- Pushing a changed live set into the router restores the agreement. -/
theorem Tied.sync (h : Tied f) (hrouter : s.router = f.sup.router)
    {log : List SupervisorAction} (hdistinct : s.liveIds.Nodup)
    (hsound : Sound log)
    (hstarted : startedIds log = (List.range s.nextIndex).map (replicaId s.config))
    (halive : ∀ id ∈ s.liveIds, id ∈ startedIds log ∧ id ∉ stoppedIds log) :
    Tied ⟨s.syncRouter, log⟩ := by
  obtain ⟨hnd, hmem⟩ := syncRouter_spec hdistinct (hrouter ▸ h.routerIds)
  refine ⟨hnd, fun x => ?_, hdistinct, hsound, hstarted, halive⟩
  show x ∈ s.syncRouter.router.replicas.map routerEntry ↔ x ∈ s.live.map liveEntry
  simp only [List.mem_map, hmem]
  constructor
  · rintro ⟨_, ⟨lr, hlr, rfl⟩, rfl⟩
    exact ⟨lr, hlr, rfl⟩
  · rintro ⟨lr, hlr, rfl⟩
    exact ⟨_, ⟨lr, hlr, rfl⟩, rfl⟩

/-- A report that leaves the ids alone. -/
theorem Tied.report (h : Tied f) (p : LiveReplica F → Bool) (g : LiveReplica F → LiveReplica F)
    (hg : ∀ r, (g r).id = r.id) :
    Tied ⟨{ f.sup with live := updateFirst p g f.sup.live }.syncRouter, f.log⟩ := by
  have hids : (updateFirst p g f.sup.live).map LiveReplica.id = f.sup.liveIds :=
    Router.map_updateFirst (fun r _ => hg r) f.sup.live
  refine h.sync (s := { f.sup with live := updateFirst p g f.sup.live }) rfl
    ?_ h.sound h.started ?_
  · show ((updateFirst p g f.sup.live).map LiveReplica.id).Nodup
    rw [hids]
    exact h.distinct
  · show ∀ id ∈ (updateFirst p g f.sup.live).map LiveReplica.id, _
    rw [hids]
    exact h.alive

theorem Tied.replicaStopped (h : Tied f) (id : String) :
    Tied ⟨f.sup.onReplicaStopped id, f.log⟩ := by
  have hsub : ((f.sup.live.filter fun r => r.id != id).map LiveReplica.id).Sublist f.sup.liveIds :=
    List.filter_sublist.map _
  refine ⟨Router.nodup_removeReplica h.routerIds, fun x => ?_, h.distinct.sublist hsub, h.sound,
    h.started, fun i hi => h.alive i (hsub.subset hi)⟩
  show x ∈ (f.sup.router.removeReplica id).replicas.map routerEntry ↔
    x ∈ (f.sup.live.filter fun r => r.id != id).map liveEntry
  have hx := h.entries x
  simp only [List.mem_map] at hx ⊢
  simp only [Router.mem_removeReplica h.routerIds, List.mem_filter, bne_iff_ne]
  constructor
  · rintro ⟨r, ⟨hr, hne⟩, rfl⟩
    obtain ⟨lr, hlr, he⟩ := hx.mp ⟨r, hr, rfl⟩
    have hid : lr.id = r.id := congrArg Prod.fst he
    exact ⟨lr, ⟨hlr, hid ▸ hne⟩, he⟩
  · rintro ⟨lr, ⟨hlr, hne⟩, rfl⟩
    obtain ⟨r, hr, he⟩ := hx.mpr ⟨lr, hlr, rfl⟩
    have hid : r.id = lr.id := congrArg Prod.fst he
    exact ⟨r, ⟨hr, hid ▸ hne⟩, he⟩

theorem Tied.loadedAdapters (h : Tied f) (id : String) (adapters : List String) :
    Tied ⟨{ f.sup with router := f.sup.router.setLoadedAdapters id adapters }, f.log⟩ := by
  refine ⟨?_, fun x => ?_, h.distinct, h.sound, h.started, h.alive⟩
  · show (f.sup.router.setLoadedAdapters id adapters).ids.Nodup
    rw [Router.ids_setLoadedAdapters]
    exact h.routerIds
  · have : (f.sup.router.setLoadedAdapters id adapters).replicas.map routerEntry =
        f.sup.router.replicas.map routerEntry := by
      refine Router.map_updateFirst ?_ _
      intro r _
      rfl
    show x ∈ (f.sup.router.setLoadedAdapters id adapters).replicas.map routerEntry ↔ _
    rw [this]
    exact h.entries x

end Steps

/-- An index that was not used so far gives a new id. -/
theorem Tied.index_new {f : Fleet F} (h : Tied f) {i : Nat} (hi : f.sup.nextIndex ≤ i) :
    replicaId f.sup.config i ∉ startedIds f.log := by
  intro hm
  rw [h.started] at hm
  obtain ⟨j, hj, he⟩ := List.mem_map.mp hm
  have := replicaId_injective he
  have := List.mem_range.mp hj
  omega

/-- The live replicas and the new ones have an id each, that of a start and of no
stop. -/
theorem Tied.pool [OfScientific F] {f : Fleet F} (h : Tied f) (k : Nat) :
    ((f.sup.live ++ (List.range' f.sup.nextIndex k).map (starting f.sup.config)).map
      LiveReplica.id).Nodup ∧
    ∀ r ∈ f.sup.live ++ (List.range' f.sup.nextIndex k).map (starting f.sup.config),
      r.id ∈ startedIds (f.log ++ (List.range' f.sup.nextIndex k).map
        (startIntent f.sup.config)) ∧ r.id ∉ stoppedIds f.log := by
  have hnew : ∀ i ∈ List.range' f.sup.nextIndex k, replicaId f.sup.config i ∉ startedIds f.log :=
    fun i hi => h.index_new (List.mem_range'_1.mp hi).1
  have hids : ((f.sup.live ++ (List.range' f.sup.nextIndex k).map
      (starting f.sup.config)).map LiveReplica.id) =
        f.sup.liveIds ++ (List.range' f.sup.nextIndex k).map (replicaId f.sup.config) := by
    simp [liveIds, starting]
  refine ⟨?_, fun r hr => ?_⟩
  · rw [hids]
    refine h.distinct.append (List.Nodup.map ?_ List.nodup_range') ?_
    · exact fun i j => replicaId_injective
    · intro id hid hid'
      obtain ⟨i, hi, rfl⟩ := List.mem_map.mp hid'
      exact hnew i hi (h.alive _ hid).1
  · have hmem := List.mem_map_of_mem (f := LiveReplica.id) hr
    rw [hids, List.mem_append] at hmem
    rw [startedIds_append, startedIds_starts, List.mem_append]
    rcases hmem with hmem | hmem
    · exact ⟨.inl (h.alive _ hmem).1, (h.alive _ hmem).2⟩
    · refine ⟨.inr hmem, fun hs => ?_⟩
      obtain ⟨i, hi, he⟩ := List.mem_map.mp hmem
      exact hnew i hi (he ▸ h.sound.started_of_stopped hs)

section Reconcile

variable [LE F] [DecidableLE F] [Mul F] [OfScientific F] {f : Fleet F}

/-- What a reconciliation starts and stops. -/
theorem reconcile_spec (s : Supervisor F) (m : LlmMetrics F) : ∃ k kept removed,
    s.reconcile m = ((List.range' s.nextIndex k).map (startIntent s.config) ++
        removed.map fun r => .stopReplica r.id,
      { s with autoscaler := (s.autoscaler.decide m).2, nextIndex := s.nextIndex + k,
               live := kept }.syncRouter) ∧
    kept.Sublist (s.live ++ (List.range' s.nextIndex k).map (starting s.config)) ∧
    (kept ++ removed).Perm (s.live ++ (List.range' s.nextIndex k).map (starting s.config)) ∧
    ((s.autoscaler.decide m).2.current ≤ s.config.maxReplicas →
      kept.length = (s.autoscaler.decide m).2.current) := by
  obtain ⟨k, hstart, hlen⟩ := startReplicas_spec (s.autoscaler.decide m).2.current
    (s.autoscaler.decide m).2.current { s with autoscaler := (s.autoscaler.decide m).2 } (by omega)
  obtain ⟨kept, removed, hstop, hsub, hperm, hmin⟩ := stopReplicas_spec
    (s.autoscaler.decide m).2.current
    (s.live ++ (List.range' s.nextIndex k).map (starting s.config)).length
    { s with autoscaler := (s.autoscaler.decide m).2, nextIndex := s.nextIndex + k,
             live := s.live ++ (List.range' s.nextIndex k).map (starting s.config) } (Nat.le_refl _)
  refine ⟨k, kept, removed, ?_, hsub, hperm, fun hle => ?_⟩
  · simp only [reconcile, desired, hstart, hstop]
  · simp only [List.length_append, List.length_map, List.length_range'] at hmin hlen
    omega

theorem Tied.reconcile (h : Tied f) (m : LlmMetrics F) :
    Tied ⟨(f.sup.reconcile m).2, f.log ++ (f.sup.reconcile m).1⟩ := by
  obtain ⟨k, kept, removed, hr, hsub, hperm, -⟩ := reconcile_spec f.sup m
  rw [hr]
  obtain ⟨hids, hpool⟩ := h.pool k
  have hdistinct : ((kept ++ removed).map LiveReplica.id).Nodup :=
    (hperm.map _).nodup_iff.mpr hids
  have hstarted : startedIds (f.log ++ (List.range' f.sup.nextIndex k).map
      (startIntent f.sup.config)) =
        (List.range (f.sup.nextIndex + k)).map (replicaId f.sup.config) := by
    rw [startedIds_append, startedIds_starts, h.started, ← List.map_append, List.range_eq_range',
      List.range_eq_range', ← List.range'_append_1, Nat.zero_add]
  have hnostop : stoppedIds (f.log ++ (List.range' f.sup.nextIndex k).map
      (startIntent f.sup.config)) = stoppedIds f.log := by
    rw [stoppedIds_append, stoppedIds_starts, List.append_nil]
  -- old or new, they were started and not stopped
  have hall : ∀ r ∈ kept ++ removed,
      r.id ∈ startedIds (f.log ++ (List.range' f.sup.nextIndex k).map
        (startIntent f.sup.config)) ∧ r.id ∉ stoppedIds f.log :=
    fun r hr => hpool r (hperm.mem_iff.mp hr)
  have hremoved : (removed.map LiveReplica.id).Nodup := by
    rw [List.map_append] at hdistinct
    exact (List.nodup_append'.mp hdistinct).2.1
  have hnew : ∀ i ∈ List.range' f.sup.nextIndex k, replicaId f.sup.config i ∉ startedIds f.log :=
    fun i hi => h.index_new (List.mem_range'_1.mp hi).1
  have hsound := (h.sound.starts_append List.nodup_range' hnew).stops_append hremoved fun r hr => by
    rw [hnostop]
    exact hall r (List.mem_append_right _ hr)
  rw [List.append_assoc] at hsound
  refine h.sync (s := { f.sup with
    autoscaler := (f.sup.autoscaler.decide m).2, nextIndex := f.sup.nextIndex + k, live := kept })
    rfl ?_ hsound ?_ ?_
  · rw [List.map_append] at hdistinct
    exact (List.nodup_append'.mp hdistinct).1
  · rw [← List.append_assoc, startedIds_append, startedIds_stops, List.append_nil, hstarted]
  · intro id hid
    obtain ⟨r, hr, rfl⟩ := List.mem_map.mp hid
    obtain ⟨hs, hn⟩ := hall r (List.mem_append_left _ hr)
    rw [← List.append_assoc, startedIds_append, startedIds_stops, List.append_nil,
      stoppedIds_append, hnostop, stoppedIds_stops, List.mem_append, not_or]
    refine ⟨hs, hn, fun hm => ?_⟩
    rw [List.map_append] at hdistinct
    exact List.disjoint_of_nodup_append hdistinct hid hm

/-- A reconciliation brings the live count to the desired one. -/
theorem Kept.reconcile (h : Kept f) (m : LlmMetrics F) :
    Kept ⟨(f.sup.reconcile m).2, f.log ++ (f.sup.reconcile m).1⟩ ∧
      (f.sup.reconcile m).2.liveCount = (f.sup.reconcile m).2.desired := by
  have htied := h.tied.reconcile m
  obtain ⟨k, kept, removed, hr, -, -, hlen⟩ := reconcile_spec f.sup m
  have hbounded := h.bounded.decide m
  have hconfig : (f.sup.autoscaler.decide m).2.config = f.sup.autoscaler.config :=
    Autoscaler.config_decide f.sup.autoscaler m
  have hcap : (f.sup.autoscaler.decide m).2.current ≤ f.sup.config.maxReplicas := by
    rw [← h.cap, ← hconfig]
    exact hbounded.high
  have hkept := hlen hcap
  rw [hr] at htied ⊢
  exact ⟨⟨htied, hbounded, hconfig ▸ h.cap, Nat.le_trans (Nat.le_of_eq hkept) hcap⟩, hkept⟩

end Reconcile

/-! ## Whole runs -/

section Runs

variable [LE F] [DecidableLE F] [Mul F] [OfScientific F]

def Fleet.act (f : Fleet F) (op : Op F) : Fleet F := ⟨(exec f.sup op).2, f.log ++ (exec f.sup op).1⟩

def Step (f : Fleet F) (op : Op F) (f' : Fleet F) : Prop := f.act op = f'

/-- What holds of a call: a reconciliation reaches the desired count, and an id that
joins the live set was never started before. -/
structure Lawful (f : Fleet F) (op : Op F) (f' : Fleet F) : Prop where
  reconciled : ∀ m, op = .reconcile m → f'.sup.liveCount = f'.sup.desired
  joined : ∀ id ∈ f'.sup.liveIds, id ∈ f.sup.liveIds ∨ id ∉ startedIds f.log

theorem tied_act {f : Fleet F} (h : Tied f) (op : Op F) : Tied (f.act op) := by
  have hquiet : ∀ {s : Supervisor F}, Tied ⟨s, f.log⟩ → Tied ⟨s, f.log ++ []⟩ := by
    intro s hs
    rwa [List.append_nil]
  cases op with
  | reconcile m => exact h.reconcile m
  | onReplicaStarted id =>
    exact hquiet (h.report (fun r => r.id == id) (fun r => { r with healthy := true }) fun _ => rfl)
  | onReplicaReport id active kv =>
    exact hquiet (h.report (fun r => r.id == id)
      (fun r => { r with activeSequences := active, kvPressurePct := kv }) fun _ => rfl)
  | onReplicaStopped id => exact hquiet (h.replicaStopped id)
  | setLoadedAdapters id adapters => exact hquiet (h.loadedAdapters id adapters)

theorem length_updateFirst {α : Type} (p : α → Bool) (g : α → α) (as : List α) :
    (updateFirst p g as).length = as.length := by
  simpa using congrArg List.length (Router.map_updateFirst (g := fun _ => ()) (p := p) (f := g)
    (fun _ _ => rfl) as)

theorem kept_act {f : Fleet F} (h : Kept f) (op : Op F) : Kept (f.act op) := by
  have htied := tied_act h.tied op
  cases op with
  | reconcile m => exact (h.reconcile m).1
  | onReplicaStarted id =>
    exact ⟨htied, h.bounded, h.cap, Nat.le_trans (Nat.le_of_eq (length_updateFirst ..)) h.capped⟩
  | onReplicaReport id active kv =>
    exact ⟨htied, h.bounded, h.cap, Nat.le_trans (Nat.le_of_eq (length_updateFirst ..)) h.capped⟩
  | onReplicaStopped id =>
    exact ⟨htied, h.bounded, h.cap, Nat.le_trans (List.length_filter_le ..) h.capped⟩
  | setLoadedAdapters id adapters => exact ⟨htied, h.bounded, h.cap, h.capped⟩

theorem lawful_act {f : Fleet F} (h : Kept f) (op : Op F) : Lawful f op (f.act op) := by
  refine ⟨?_, fun id hid => ?_⟩
  · rintro m rfl
    exact (h.reconcile m).2
  · have hsame : ∀ (p : LiveReplica F → Bool) (g : LiveReplica F → LiveReplica F),
        (∀ r, (g r).id = r.id) → id ∈ (updateFirst p g f.sup.live).map LiveReplica.id →
          id ∈ f.sup.liveIds := by
      intro p g hg hm
      rwa [Router.map_updateFirst fun r _ => hg r] at hm
    cases op with
    | reconcile m =>
      obtain ⟨k, kept, removed, hr, hsub, -, -⟩ := reconcile_spec f.sup m
      change id ∈ (f.sup.reconcile m).2.live.map LiveReplica.id at hid
      rw [hr] at hid
      have hmem := (hsub.map LiveReplica.id).subset hid
      rw [List.map_append, List.mem_append, List.map_map] at hmem
      refine hmem.imp_right fun hm => ?_
      obtain ⟨i, hi, rfl⟩ := List.mem_map.mp hm
      exact h.tied.index_new (List.mem_range'_1.mp hi).1
    | onReplicaStarted id' =>
      exact .inl (hsame (fun r => r.id == id') (fun r => { r with healthy := true })
        (fun _ => rfl) hid)
    | onReplicaReport id' active kv =>
      exact .inl (hsame (fun r => r.id == id')
        (fun r => { r with activeSequences := active, kvPressurePct := kv }) (fun _ => rfl) hid)
    | onReplicaStopped id' => exact .inl ((List.filter_sublist.map _).subset hid)
    | setLoadedAdapters id' adapters => exact .inl hid

/-- **Supervisor, router and intents agree.** For bounds in order, in every run of
reconciliations, executor reports and adapter reports, whatever their ids and metrics:
after each call the router lists exactly the live replicas with their health and load,
live ids are distinct, were started once and join only when they are new, the live
count is within the maximum and after a reconciliation the desired one, and every
intent to stop names a replica that was started before and not stopped since. -/
theorem fleet_agrees (config : SupervisorConfig F) (hmin : 1 ≤ config.minReplicas)
    (hmax : config.minReplicas ≤ config.maxReplicas) (tr : List (Op F × Fleet F))
    (hrun : Along Step (.new config) tr) :
    (∀ f ∈ visited (.new config) tr, Agrees f) ∧ Along Lawful (.new config) tr := by
  have hstep : ∀ (f : Fleet F) op f', Kept f → Step f op f' → Kept f' ∧ Lawful f op f' := by
    rintro f op _ h rfl
    exact ⟨kept_act h op, lawful_act h op⟩
  refine ⟨fun f hf => ?_, hrun.of_invariant hstep (kept_new hmin hmax)⟩
  exact (Along.invariant (I := Kept) (fun f op f' h hs => (hstep f op f' h hs).1)
    (kept_new hmin hmax) hrun f hf).agrees

end Runs

/-- Two to three replicas. -/
def smallFleet : SupervisorConfig Rat :=
  ⟨"llama", "v1", .cuda 0, 2, 3, 8, 500, 80, 16, 2, 0⟩

/-- A busy fleet grows and then shrinks, while reports come for stopped and unknown
replicas. -/
theorem fleet_agrees_grow_shrink :
    ∃ tr : List (Op Rat × Fleet Rat), tr.map Prod.fst =
        [.reconcile ⟨100, 0, 10⟩, .onReplicaStarted "llama-v1-1", .reconcile ⟨900, 40, 90⟩,
          .onReplicaStopped "llama-v1-0", .onReplicaReport "llama-v1-0" 3 50,
          .reconcile ⟨900, 40, 90⟩, .reconcile ⟨50, 0, 5⟩] ∧
      (tr.map fun x => x.2.sup.liveIds) =
        [["llama-v1-0", "llama-v1-1"], ["llama-v1-0", "llama-v1-1"],
          ["llama-v1-0", "llama-v1-1", "llama-v1-2"], ["llama-v1-1", "llama-v1-2"],
          ["llama-v1-1", "llama-v1-2"], ["llama-v1-1", "llama-v1-2", "llama-v1-3"],
          ["llama-v1-1", "llama-v1-3"]] ∧
      ∀ f ∈ visited (.new smallFleet) tr, Agrees f := by
  have hrun : Along Step (.new smallFleet)
      [(.reconcile ⟨100, 0, 10⟩, _), (.onReplicaStarted "llama-v1-1", _),
        (.reconcile ⟨900, 40, 90⟩, _), (.onReplicaStopped "llama-v1-0", _),
        (.onReplicaReport "llama-v1-0" 3 50, _), (.reconcile ⟨900, 40, 90⟩, _),
        (.reconcile ⟨50, 0, 5⟩, _)] :=
    ⟨rfl, rfl, rfl, rfl, rfl, rfl, rfl, trivial⟩
  exact ⟨_, rfl, by decide +kernel, (fleet_agrees smallFleet (by decide) (by decide) _ hrun).1⟩

end JustApi.Inference.FleetAgreement
