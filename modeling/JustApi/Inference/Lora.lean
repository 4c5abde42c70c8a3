import Mathlib.Data.List.AList
import JustApi.Lib.Run

/-! # LoRA adapters by routing key

The registry keeps the adapters by name, and beside them a name for each routing key.
Every call holds the lock throughout. -/
namespace JustApi.Inference.Lora
open JustApi.Lib.Run

structure LoraAdapter where
  name : String
  routingKey : Option String
  active : Bool
  deriving DecidableEq, Repr

structure LoraRegistry where
  adapters : AList fun _ : String => LoraAdapter
  /-- The name of an adapter for a routing key. -/
  routing : AList fun _ : String => String
  deriving DecidableEq

namespace LoraRegistry

def new : LoraRegistry := ⟨∅, ∅⟩

/-- The adapter replaces one of its name. -/
def register (r : LoraRegistry) (adapter : LoraAdapter) : LoraRegistry where
  adapters := r.adapters.insert adapter.name adapter
  routing :=
    match adapter.routingKey with
    | some key => r.routing.insert key adapter.name
    | none => r.routing

def unregister (r : LoraRegistry) (name : String) : Option LoraAdapter × LoraRegistry :=
  match r.adapters.lookup name with
  | none => (none, r)
  | some adapter =>
    (some adapter,
      { adapters := r.adapters.erase name
        routing :=
          match adapter.routingKey with
          | some key => r.routing.erase key
          | none => r.routing })

def get (r : LoraRegistry) (name : String) : Option LoraAdapter := r.adapters.lookup name

def getByRoutingKey (r : LoraRegistry) (key : String) : Option LoraAdapter := do
  let name ← r.routing.lookup key
  r.adapters.lookup name

def setActive (r : LoraRegistry) (active : Bool) (name : String) : Bool × LoraRegistry :=
  match r.adapters.lookup name with
  | some adapter => (true, { r with adapters := r.adapters.insert name { adapter with active } })
  | none => (false, r)

def activate (r : LoraRegistry) (name : String) : Bool × LoraRegistry := r.setActive true name

def deactivate (r : LoraRegistry) (name : String) : Bool × LoraRegistry := r.setActive false name

/-- An explicit name before the routing key; without an adapter the base model serves. -/
def resolve (r : LoraRegistry) (adapterName routingKey : Option String) : Option LoraAdapter :=
  match adapterName with
  | some name => do
    let adapter ← r.get name
    if adapter.active then some adapter else none
  | none =>
    match routingKey with
    | some key => do
      let adapter ← r.getByRoutingKey key
      if adapter.active then some adapter else none
    | none => none

end LoraRegistry

inductive Op where
  | register (adapter : LoraAdapter)
  | unregister (name : String)
  | activate (name : String)
  | deactivate (name : String)
  deriving DecidableEq, Repr

def exec (r : LoraRegistry) : Op → LoraRegistry
  | .register adapter => r.register adapter
  | .unregister name => (r.unregister name).2
  | .activate name => (r.activate name).2
  | .deactivate name => (r.deactivate name).2

def Step (r : LoraRegistry) (op : Op) (r' : LoraRegistry) : Prop := r' = exec r op

/-! ## Routing -/

/-- The adapter claims the routing key. -/
def Claims (r : LoraRegistry) (name key : String) : Prop :=
  ∃ adapter, r.get name = some adapter ∧ adapter.routingKey = some key

/-- What is found under a key claims it, and a key that is claimed is found. -/
structure IndexCoherent (r : LoraRegistry) : Prop where
  found : ∀ key adapter, r.getByRoutingKey key = some adapter →
    r.get adapter.name = some adapter ∧ adapter.routingKey = some key
  missing : ∀ key, r.getByRoutingKey key = none → ∀ name, ¬ Claims r name key

/-- Requests for a key are served by an adapter that claims it, and by the base model only
if there is none. -/
structure ResolvesClaims (r : LoraRegistry) : Prop where
  served : ∀ key adapter, r.resolve none (some key) = some adapter →
    adapter.routingKey = some key
  fallback : ∀ key, r.resolve none (some key) = none → ∀ name, ¬ Claims r name key

/-- An adapter that is found under its key is not replaced by one with another key, and of
the adapters that claim a key none is unregistered but the only one. -/
def KeepsIndex (r : LoraRegistry) : Op → Prop
  | .register adapter => ∀ old ∈ r.get adapter.name, ∀ key ∈ old.routingKey,
      r.getByRoutingKey key = some old → adapter.routingKey = some key
  | .unregister name => ∀ key, Claims r name key → ∀ other, Claims r other key → other = name
  | .activate _ | .deactivate _ => True

/-- What is found under a key is active. -/
def KeepsServing (r : LoraRegistry) : Op → Prop
  | .register adapter => adapter.routingKey ≠ none → adapter.active = true
  | .deactivate name => ∀ adapter ∈ r.get name, ∀ key ∈ adapter.routingKey,
      r.getByRoutingKey key ≠ some adapter
  | .activate _ | .unregister _ => True

/-- The names in the index are those of adapters that claim the key. -/
structure Indexed (r : LoraRegistry) : Prop where
  named : ∀ name adapter, r.get name = some adapter → adapter.name = name
  routed : ∀ key name, r.routing.lookup key = some name → Claims r name key
  claimed : ∀ name key, Claims r name key → r.routing.lookup key ≠ none

/-- The names in the index are those of active adapters. -/
def RoutesActive (r : LoraRegistry) : Prop :=
  ∀ key name, r.routing.lookup key = some name → ∀ adapter ∈ r.get name, adapter.active = true

/-! ## What the calls do -/

section Calls

variable {r : LoraRegistry} {adapter old : LoraAdapter} {name key : String} {active : Bool}

theorem get_register : (r.register adapter).get name =
    if name = adapter.name then some adapter else r.get name := by
  by_cases heq : name = adapter.name
  · rw [heq, if_pos rfl]
    exact AList.lookup_insert _
  · rw [if_neg heq]
    exact AList.lookup_insert_ne heq

theorem routing_register : (r.register adapter).routing.lookup key =
    if adapter.routingKey = some key then some adapter.name else r.routing.lookup key := by
  unfold LoraRegistry.register
  cases hkey : adapter.routingKey with
  | none => exact (if_neg (Option.some_ne_none key).symm).symm
  | some k =>
    by_cases heq : k = key
    · rw [heq, if_pos rfl]
      exact AList.lookup_insert _
    · rw [if_neg fun h => heq (Option.some.inj h)]
      exact AList.lookup_insert_ne (Ne.symm heq)

theorem unregister_none (h : r.get name = none) : (r.unregister name).2 = r := by
  unfold LoraRegistry.get at h
  rw [LoraRegistry.unregister, h]

theorem get_unregister {other : String} : (r.unregister name).2.get other =
    if other = name then none else r.get other := by
  cases h : r.get name with
  | none =>
    rw [unregister_none h]
    split
    · rename_i heq
      rw [heq, h]
    · rfl
  | some adapter =>
    unfold LoraRegistry.get at h
    simp only [LoraRegistry.get, LoraRegistry.unregister, h]
    split
    · rename_i heq
      rw [heq, AList.lookup_erase]
    · rename_i hne
      exact AList.lookup_erase_ne hne

theorem routing_unregister (h : r.get name = some adapter) :
    (r.unregister name).2.routing.lookup key =
      if adapter.routingKey = some key then none else r.routing.lookup key := by
  unfold LoraRegistry.get at h
  simp only [LoraRegistry.unregister, h]
  cases hkey : adapter.routingKey with
  | none => exact (if_neg (Option.some_ne_none key).symm).symm
  | some k =>
    by_cases heq : k = key
    · rw [heq, if_pos rfl]
      exact AList.lookup_erase _ _
    · rw [if_neg fun h => heq (Option.some.inj h)]
      exact AList.lookup_erase_ne (Ne.symm heq)

theorem get_setActive {other : String} : (r.setActive active name).2.get other =
    if other = name then (r.get name).map fun a => { a with active } else r.get other := by
  unfold LoraRegistry.get LoraRegistry.setActive
  cases h : r.adapters.lookup name with
  | none =>
    by_cases heq : other = name
    · rw [heq, if_pos rfl]
      exact h
    · rw [if_neg heq]
  | some adapter =>
    by_cases heq : other = name
    · rw [heq, if_pos rfl]
      exact AList.lookup_insert _
    · rw [if_neg heq]
      exact AList.lookup_insert_ne heq

theorem routing_setActive : (r.setActive active name).2.routing = r.routing := by
  unfold LoraRegistry.setActive
  split <;> rfl

theorem claims_setActive {other : String} :
    Claims (r.setActive active name).2 other key ↔ Claims r other key := by
  unfold Claims
  rw [get_setActive]
  split
  · rename_i heq
    rw [heq]
    simp
  · rfl

theorem getByRoutingKey_eq_some : r.getByRoutingKey key = some adapter ↔
    ∃ name, r.routing.lookup key = some name ∧ r.get name = some adapter :=
  Option.bind_eq_some_iff

theorem resolve_eq_some : r.resolve none (some key) = some adapter ↔
    r.getByRoutingKey key = some adapter ∧ adapter.active = true := by
  simp only [LoraRegistry.resolve]
  cases r.getByRoutingKey key with
  | none => simp
  | some found =>
    cases h : found.active with
    | false =>
      refine ⟨fun he => ?_, fun ⟨he, hactive⟩ => ?_⟩
      · simp [h] at he
      · rw [Option.some.inj he, hactive] at h
        cases h
    | true =>
      simp only [Option.bind_eq_bind, Option.bind_some, h, if_true]
      refine ⟨fun he => ⟨he, ?_⟩, And.left⟩
      rw [← Option.some.inj he, h]

end Calls

/-! ## The index -/

section Index

variable {r : LoraRegistry} {adapter : LoraAdapter} {name key : String} {op : Op}

theorem indexed_new : Indexed .new where
  named _ _ h := by cases h
  routed _ _ h := by cases h
  claimed _ _ h := by
    obtain ⟨_, h, _⟩ := h
    cases h

theorem Indexed.getByRoutingKey (h : Indexed r) (hkey : r.getByRoutingKey key = some adapter) :
    r.routing.lookup key = some adapter.name ∧ r.get adapter.name = some adapter ∧
      adapter.routingKey = some key := by
  obtain ⟨name, hname, hget⟩ := getByRoutingKey_eq_some.mp hkey
  obtain ⟨a, ha, hakey⟩ := h.routed key name hname
  cases hget.symm.trans ha
  rw [h.named name adapter hget]
  exact ⟨hname, hget, hakey⟩

theorem Indexed.coherent (h : Indexed r) : IndexCoherent r where
  found _ _ hkey := (h.getByRoutingKey hkey).2
  missing key hnone name hclaims := by
    obtain ⟨other, hother⟩ := Option.ne_none_iff_exists'.mp (h.claimed name key hclaims)
    obtain ⟨adapter, hget, _⟩ := h.routed key other hother
    rw [getByRoutingKey_eq_some.mpr ⟨other, hother, hget⟩] at hnone
    cases hnone

theorem claims_register {other : String} (h : other ≠ adapter.name) :
    Claims (r.register adapter) other key ↔ Claims r other key := by
  unfold Claims
  rw [get_register, if_neg h]

theorem claims_registered : Claims (r.register adapter) adapter.name key ↔
    adapter.routingKey = some key := by
  unfold Claims
  rw [get_register, if_pos rfl]
  exact ⟨fun ⟨_, he, hkey⟩ => Option.some.inj he ▸ hkey, fun hkey => ⟨adapter, rfl, hkey⟩⟩

theorem Indexed.register (h : Indexed r) (hkeep : KeepsIndex r (.register adapter)) :
    Indexed (r.register adapter) where
  named name a hget := by
    rw [get_register] at hget
    split at hget
    · rename_i heq
      rw [heq, Option.some.inj hget]
    · exact h.named name a hget
  routed key name hname := by
    rw [routing_register] at hname
    split at hname
    · rename_i hkey
      rw [← Option.some.inj hname]
      exact claims_registered.mpr hkey
    · rename_i hkey
      have hclaims := h.routed key name hname
      by_cases heq : name = adapter.name
      · -- the adapter that is replaced is the one in the index
        obtain ⟨old, hold, hkeyOld⟩ := hclaims
        have hfound := getByRoutingKey_eq_some.mpr ⟨name, hname, hold⟩
        exact absurd (hkeep old (heq ▸ hold) key hkeyOld hfound) hkey
      · exact (claims_register heq).mpr hclaims
  claimed name key hclaims := by
    rw [routing_register]
    split
    · exact Option.some_ne_none _
    · rename_i hkey
      by_cases heq : name = adapter.name
      · rw [heq] at hclaims
        exact absurd (claims_registered.mp hclaims) hkey
      · exact h.claimed name key ((claims_register heq).mp hclaims)

theorem claims_unregister {other : String} :
    Claims (r.unregister name).2 other key ↔ other ≠ name ∧ Claims r other key := by
  unfold Claims
  rw [get_unregister]
  split
  · rename_i heq
    simp [heq]
  · rename_i hne
    simp [hne]

theorem Indexed.unregister (h : Indexed r) (hkeep : KeepsIndex r (.unregister name)) :
    Indexed (r.unregister name).2 := by
  cases hget : r.get name with
  | none =>
    rw [unregister_none hget]
    exact h
  | some adapter =>
    refine ⟨fun other a hother => ?_, fun key other hother => ?_, fun other key hclaims => ?_⟩
    · rw [get_unregister] at hother
      split at hother
      · cases hother
      · exact h.named other a hother
    · rw [routing_unregister hget] at hother
      split at hother
      · cases hother
      · rename_i hkey
        have hclaims := h.routed key other hother
        refine claims_unregister.mpr ⟨?_, hclaims⟩
        rintro rfl
        obtain ⟨a, ha, hakey⟩ := hclaims
        cases hget.symm.trans ha
        exact hkey hakey
    · obtain ⟨hne, hclaims⟩ := claims_unregister.mp hclaims
      rw [routing_unregister hget, if_neg]
      · exact h.claimed other key hclaims
      · exact fun hkey => hne (hkeep key ⟨adapter, hget, hkey⟩ other hclaims)

theorem Indexed.setActive (h : Indexed r) (active : Bool) (name : String) :
    Indexed (r.setActive active name).2 where
  named other a hget := by
    rw [get_setActive] at hget
    split at hget
    · rename_i heq
      obtain ⟨b, hb, rfl⟩ := Option.map_eq_some_iff.mp hget
      rw [heq]
      exact h.named name b hb
    · exact h.named other a hget
  routed key other hother := by
    rw [routing_setActive] at hother
    exact claims_setActive.mpr (h.routed key other hother)
  claimed other key hclaims := by
    rw [routing_setActive]
    exact h.claimed other key (claims_setActive.mp hclaims)

theorem Indexed.exec (h : Indexed r) (hkeep : KeepsIndex r op) : Indexed (exec r op) := by
  cases op with
  | register adapter => exact h.register hkeep
  | unregister name => exact h.unregister hkeep
  | activate name => exact h.setActive true name
  | deactivate name => exact h.setActive false name

/-- A call after which the index is coherent keeps it. -/
theorem Indexed.keepsIndex (h : Indexed r) (hafter : IndexCoherent (Lora.exec r op)) :
    KeepsIndex r op := by
  cases op with
  | register adapter =>
    intro old hold key hkey hfound
    by_contra hne
    have hindex := (h.getByRoutingKey hfound).1
    rw [h.named _ _ hold] at hindex
    -- the index still has the name, and what is there has another key now
    have hstale : (r.register adapter).getByRoutingKey key = some adapter := by
      refine getByRoutingKey_eq_some.mpr ⟨adapter.name, ?_, ?_⟩
      · rw [routing_register, if_neg hne, hindex]
      · rw [get_register, if_pos rfl]
    exact hne (hafter.found key adapter hstale).2
  | unregister name =>
    intro key hclaims other hother
    by_contra hne
    obtain ⟨adapter, hget, hkey⟩ := hclaims
    have hgone : (r.unregister name).2.getByRoutingKey key = none := by
      rw [LoraRegistry.getByRoutingKey, routing_unregister hget, if_pos hkey]
      rfl
    exact hafter.missing key hgone other (claims_unregister.mpr ⟨hne, hother⟩)
  | activate name => trivial
  | deactivate name => trivial

end Index

/-! ## Serving -/

section Serving

variable {r : LoraRegistry} {op : Op}

theorem Indexed.resolvesClaims (h : Indexed r) (hactive : RoutesActive r) : ResolvesClaims r where
  served key adapter hserved := (h.getByRoutingKey (resolve_eq_some.mp hserved).1).2.2
  fallback key hnone name hclaims := by
    obtain ⟨other, hother⟩ := Option.ne_none_iff_exists'.mp (h.claimed name key hclaims)
    obtain ⟨adapter, hget, _⟩ := h.routed key other hother
    have hserved := resolve_eq_some.mpr
      ⟨getByRoutingKey_eq_some.mpr ⟨other, hother, hget⟩, hactive key other hother adapter hget⟩
    rw [hserved] at hnone
    cases hnone

/-- The routed adapter of a later state, and what it claims. -/
theorem Indexed.routed_get {adapter : LoraAdapter} {name key : String} (h : Indexed r)
    (hname : r.routing.lookup key = some name) (hget : r.get name = some adapter) :
    adapter.routingKey = some key := by
  obtain ⟨a, ha, hkey⟩ := h.routed key name hname
  rw [← Option.some.inj (ha.symm.trans hget), hkey]

theorem RoutesActive.exec (h : RoutesActive r)
    (hafter : Indexed (exec r op)) (hkeep : KeepsServing r op) : RoutesActive (exec r op) := by
  intro key name hname a ha
  have hkey := hafter.routed_get hname ha
  cases op with
  | register adapter =>
    rw [Lora.exec, routing_register] at hname
    rw [Lora.exec, Option.mem_def, get_register] at ha
    split at ha
    · rw [Option.some.inj ha] at hkeep
      exact hkeep (hkey ▸ Option.some_ne_none key)
    · rename_i hne
      split at hname
      · exact absurd (Option.some.inj hname).symm hne
      · exact h key name hname a ha
  | unregister other =>
    rw [Lora.exec, Option.mem_def, get_unregister] at ha
    split at ha
    · cases ha
    · refine h key name ?_ a ha
      cases hget : r.get other with
      | none =>
        rwa [Lora.exec, unregister_none hget] at hname
      | some adapter =>
        rw [Lora.exec, routing_unregister hget] at hname
        split at hname
        · cases hname
        · exact hname
  | activate other =>
    rw [Lora.exec, LoraRegistry.activate, routing_setActive] at hname
    rw [Lora.exec, LoraRegistry.activate, Option.mem_def, get_setActive] at ha
    split at ha
    · obtain ⟨b, _, rfl⟩ := Option.map_eq_some_iff.mp ha
      rfl
    · exact h key name hname a ha
  | deactivate other =>
    rw [Lora.exec, LoraRegistry.deactivate, routing_setActive] at hname
    rw [Lora.exec, LoraRegistry.deactivate, Option.mem_def, get_setActive] at ha
    split at ha
    · rename_i heq
      obtain ⟨b, hb, rfl⟩ := Option.map_eq_some_iff.mp ha
      exact absurd (getByRoutingKey_eq_some.mpr ⟨name, hname, heq ▸ hb⟩) (hkeep b hb key hkey)
    · exact h key name hname a ha

/-- A call after which requests are served by what they ask for keeps what is found active. -/
theorem Indexed.keepsServing (h : Indexed r) (hafter : ResolvesClaims (Lora.exec r op)) :
    KeepsServing r op := by
  cases op with
  | register adapter =>
    intro hsome
    obtain ⟨key, hkey⟩ := Option.ne_none_iff_exists'.mp hsome
    by_contra hinactive
    refine hafter.fallback key ?_ adapter.name (claims_registered.mpr hkey)
    rw [Option.eq_none_iff_forall_ne_some]
    intro served hserved
    obtain ⟨hfound, hactive⟩ := resolve_eq_some.mp hserved
    obtain ⟨name, hname, hget⟩ := getByRoutingKey_eq_some.mp hfound
    rw [Lora.exec, routing_register, if_pos hkey] at hname
    rw [Lora.exec, ← Option.some.inj hname, get_register, if_pos rfl] at hget
    exact hinactive (Option.some.inj hget ▸ hactive)
  | deactivate name =>
    intro adapter hget key hkey hfound
    have hname := (h.getByRoutingKey hfound).1
    rw [h.named name adapter hget] at hname
    refine hafter.fallback key ?_ name (claims_setActive.mpr ⟨adapter, hget, hkey⟩)
    rw [Option.eq_none_iff_forall_ne_some]
    intro served hserved
    obtain ⟨hfound', hactive⟩ := resolve_eq_some.mp hserved
    obtain ⟨other, hother, hget'⟩ := getByRoutingKey_eq_some.mp hfound'
    rw [Lora.exec, LoraRegistry.deactivate, routing_setActive, hname] at hother
    rw [Lora.exec, LoraRegistry.deactivate, ← Option.some.inj hother, get_setActive, if_pos rfl] at hget'
    obtain ⟨b, _, rfl⟩ := Option.map_eq_some_iff.mp hget'
    cases hactive
  | activate name => trivial
  | unregister name => trivial

end Serving

/-- **Routing keys.** The index is coherent throughout a run of calls exactly if no adapter
that is found under its key is replaced by one with another key, and none that shares its
key is unregistered. Requests for a key fall back to the base model only where no adapter
claims it exactly if, besides, what is found under a key is never inactive. -/
theorem index_coherent_iff (tr : List (Op × LoraRegistry)) (hrun : Along Step .new tr) :
    ((∀ r ∈ visited .new tr, IndexCoherent r) ↔
      Along (fun r op _ => KeepsIndex r op) .new tr) ∧
    ((∀ r ∈ visited .new tr, IndexCoherent r ∧ ResolvesClaims r) ↔
      Along (fun r op _ => KeepsIndex r op ∧ KeepsServing r op) .new tr) := by
  constructor
  · refine hrun.forall_visited_iff (I := Indexed) ?_ ?_ ?_ indexed_new
    · intro r op r' h hstep hkeep
      exact hstep ▸ h.exec hkeep
    · intro r op r' h hstep hcoherent
      exact h.keepsIndex (hstep ▸ hcoherent)
    · exact fun r h => h.coherent
  · refine hrun.forall_visited_iff (I := fun r => Indexed r ∧ RoutesActive r) ?_ ?_ ?_ ?_
    · intro r op r' h hstep hkeep
      have hafter := h.1.exec hkeep.1
      exact hstep ▸ ⟨hafter, h.2.exec hafter hkeep.2⟩
    · intro r op r' h hstep hgood
      rw [hstep] at hgood
      exact ⟨h.1.keepsIndex hgood.1, h.1.keepsServing hgood.2⟩
    · exact fun r h => ⟨h.1.coherent, h.1.resolvesClaims h.2⟩
    · refine ⟨indexed_new, ?_⟩
      intro key name hname
      cases hname

/-- Two adapters that claim one key, and the first is not found any more. -/
def shared : List Op :=
  [.register ⟨"math", some "k", true⟩, .register ⟨"algebra", some "k", true⟩, .deactivate "math"]

theorem index_coherent_iff_shared : ∃ tr : List (Op × LoraRegistry), tr.map Prod.fst = shared ∧
    ∀ r ∈ visited .new tr, IndexCoherent r ∧ ResolvesClaims r := by
  have hrun : Along Step .new [(shared[0], _), (shared[1], _), (shared[2], _)] :=
    ⟨rfl, rfl, rfl, trivial⟩
  refine ⟨_, rfl, (index_coherent_iff _ hrun).2.mpr ⟨⟨?_, ?_⟩, ⟨?_, ?_⟩, ⟨trivial, ?_⟩, trivial⟩⟩
  · intro old hold
    cases hold
  · exact fun _ => rfl
  · intro old hold
    cases hold
  · exact fun _ => rfl
  · intro adapter hget key hkey hfound
    obtain rfl : (⟨"math", some "k", true⟩ : LoraAdapter) = adapter :=
      Option.some.inj (hget.symm.trans rfl).symm
    cases hkey
    exact absurd hfound (by decide)

/-- An adapter is registered again with another key. -/
def renamed : List Op := [.register ⟨"a", some "k1", true⟩, .register ⟨"a", some "k2", true⟩]

/-- Two adapters claim a key, and the one that is not found under it goes. -/
def unshared : List Op :=
  [.register ⟨"math", some "k", true⟩, .register ⟨"algebra", some "k", true⟩, .unregister "math"]

/-- The old key serves an adapter that does not claim it, and a claimed key the base model. -/
theorem stale_and_lost_keys :
    (∃ tr, tr.map Prod.fst = renamed ∧ Along Step .new tr ∧ ∃ r ∈ visited .new tr,
      r.resolve none (some "k1") = some ⟨"a", some "k2", true⟩ ∧ ¬ IndexCoherent r) ∧
    ∃ tr, tr.map Prod.fst = unshared ∧ Along Step .new tr ∧ ∃ r ∈ visited .new tr,
      r.resolve none (some "k") = none ∧
        r.get "algebra" = some ⟨"algebra", some "k", true⟩ ∧ ¬ IndexCoherent r := by
  constructor
  · have hrun : Along Step .new [(renamed[0], _), (renamed[1], _)] := ⟨rfl, rfl, trivial⟩
    refine ⟨_, rfl, hrun, _, List.mem_cons_of_mem _ (List.mem_of_mem_getLast? rfl), ?_, ?_⟩
    · decide
    · intro h
      exact absurd (h.found "k1" ⟨"a", some "k2", true⟩ (by decide)).2 (by decide)
  · have hrun : Along Step .new [(unshared[0], _), (unshared[1], _), (unshared[2], _)] :=
      ⟨rfl, rfl, rfl, trivial⟩
    refine ⟨_, rfl, hrun, _, List.mem_cons_of_mem _ (List.mem_of_mem_getLast? rfl), ?_, ?_, ?_⟩
    · decide
    · decide
    · intro h
      exact h.missing "k" (by decide) "algebra" ⟨⟨"algebra", some "k", true⟩, by decide, rfl⟩

end JustApi.Inference.Lora
