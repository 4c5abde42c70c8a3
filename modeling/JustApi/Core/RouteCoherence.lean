import JustApi.Core.Routing

/-! # Cached against uncached resolution

A cache agrees with the routers that share it until a registration changes the
resolution of a cached key, or a router caches a result another one of them does not
share. -/
namespace JustApi.Core.RouteCoherence
open JustApi.Lib.Run JustApi.Core.Http JustApi.Core.Routing
open Function (update update_self update_of_ne)

variable {E T : Type} (mx : Matchit E T)

/-- Whatever is resolved next, on whichever router, the answer is the uncached one. -/
def Agrees (w : World T) : Prop :=
  ∀ r ∈ w.routers, ∀ method path,
    (w.resolve mx r method path).1 = r.rawResolve mx method path

/-- A call after which the caches can still be trusted. A registration does not change
the resolution of a key in the router's cache; a result that goes into the cache is
the result of every router that shares the cache. -/
def Undisturbing (w : World T) : Call T → Prop
  | .insert i method path handler =>
    ∀ r, w.routers[i]? = some r → ∀ key, w.cached r key ≠ none →
      (r.insert mx method path handler).2.rawResolve mx key.1 key.2 = r.rawResolve mx key.1 key.2
  | .resolve i method path =>
    ∀ r, w.routers[i]? = some r → r.cache ≠ none →
      CacheEntry.ofResult (r.rawResolve mx method path) ≠ none →
      ∀ r' ∈ w.routers, r'.cache = r.cache →
        r'.rawResolve mx method path = r.rawResolve mx method path
  | _ => True

/-- A router whose cache is allocated and holds nothing but its uncached results. -/
structure Trusts (w : World T) (r : Router T) : Prop where
  allocated : ∀ c, r.cache = some c → c < w.next
  faithful : ∀ key e, w.cached r key = some e → e.result = r.rawResolve mx key.1 key.2

def Sound (w : World T) : Prop := ∀ r ∈ w.routers, Trusts mx w r

variable {mx} {w w' : World T}

theorem resolve_result (w : World T) (r : Router T) (method : Method) (path : String) :
    (w.resolve mx r method path).1 =
      ((w.cached r (method, path)).map CacheEntry.result).getD (r.rawResolve mx method path) := by
  unfold World.resolve World.cached
  split
  · rename_i hc
    simp [hc]
  · rename_i c hc
    simp only [hc, Option.bind_some]
    split
    · rename_i entry hget
      simp [hget]
    · rename_i hget
      split <;> simp [hget]

/-- Agreement says that what is cached is the uncached result. -/
theorem Agrees.faithful (h : Agrees mx w) {r : Router T} (hr : r ∈ w.routers) {key : Key}
    {e : CacheEntry T} (he : w.cached r key = some e) :
    e.result = r.rawResolve mx key.1 key.2 := by
  have := h r hr key.1 key.2
  rw [resolve_result, he] at this
  exact this

theorem Sound.agrees (h : Sound mx w) : Agrees mx w := by
  intro r hr method path
  rw [resolve_result]
  cases he : w.cached r (method, path) with
  | none => rfl
  | some e => exact (h r hr).faithful (method, path) e he

/-- What `resolve` leaves in the caches: what was there, or the result it found. -/
theorem cached_of_resolve {r r' : Router T} {method : Method} {path : String} {key : Key}
    {e : CacheEntry T} (h : (w.resolve mx r method path).2.cached r' key = some e) :
    w.cached r' key = some e ∨
      r.cache ≠ none ∧ r'.cache = r.cache ∧ key = (method, path) ∧
        CacheEntry.ofResult (r.rawResolve mx method path) = some e := by
  unfold World.resolve at h
  split at h
  · exact .inl h
  · rename_i c hc
    split at h
    · exact .inl h
    · dsimp only at h
      split at h
      · rename_i entry hentry
        unfold World.cached at h ⊢
        dsimp only at h
        obtain ⟨c', hc', hget⟩ := Option.bind_eq_some_iff.mp h
        by_cases hcc : c' = c
        · subst hcc
          rw [update_self] at hget
          obtain ⟨rfl, rfl⟩ | hold := RouteCache.get_of_insert hget
          · exact .inr ⟨by simp [hc], by rw [hc', hc], rfl, hentry⟩
          · exact .inl (by simpa [hc'] using hold)
        · rw [update_of_ne hcc] at hget
          exact .inl (by simpa [hc'] using hget)
      · exact .inl h

/-- A result that can be kept is found in the cache after `resolve`. -/
theorem cached_after_resolve {r r' : Router T} {method : Method} {path : String}
    {e : CacheEntry T} (hc : r.cache ≠ none) (hshare : r'.cache = r.cache)
    (hmiss : w.cached r (method, path) = none)
    (he : CacheEntry.ofResult (r.rawResolve mx method path) = some e) :
    (w.resolve mx r method path).2.cached r' (method, path) = some e := by
  obtain ⟨c, hc⟩ := Option.ne_none_iff_exists'.mp hc
  have hget : (w.caches c).get (method, path) = none := by simpa [World.cached, hc] using hmiss
  unfold World.resolve
  simp only [hc, hget, he]
  simp [World.cached, hshare, hc]

theorem resolve_routers (mx : Matchit E T) (w : World T) (r : Router T) (method : Method)
    (path : String) :
    (w.resolve mx r method path).2.routers = w.routers ∧
      (w.resolve mx r method path).2.next = w.next := by
  unfold World.resolve
  split
  · exact ⟨rfl, rfl⟩
  · split
    · exact ⟨rfl, rfl⟩
    · dsimp only
      split <;> exact ⟨rfl, rfl⟩

/-- A new cache is empty and is found by no router that was there before. -/
theorem Trusts.allocate {r : Router T} (h : Trusts mx w r) (capacity : Nat) :
    Trusts mx (w.allocate capacity) r := by
  refine ⟨fun c hc => Nat.lt_succ_of_lt (h.allocated c hc), fun key e he => h.faithful key e ?_⟩
  simp only [World.cached, World.allocate] at he
  obtain ⟨c, hc, hget⟩ := Option.bind_eq_some_iff.mp he
  rw [update_of_ne (Nat.ne_of_lt (h.allocated c hc))] at hget
  simpa [World.cached, hc] using hget

theorem Trusts.new {r : Router T} (hr : r.cache = some w.next) (capacity : Nat) :
    Trusts mx (w.allocate capacity) r := by
  refine ⟨fun c hc => ?_, fun key e he => ?_⟩
  · rw [hr] at hc
    cases hc
    exact Nat.lt_succ_self _
  · simp [World.cached, hr, World.allocate] at he

theorem Trusts.uncached {r : Router T} (hr : r.cache = none) : Trusts mx w r := by
  refine ⟨fun c hc => ?_, fun key e he => ?_⟩
  · simp [hr] at hc
  · simp [World.cached, hr] at he

theorem Sound.allocate (h : Sound mx w) (capacity : Nat) : Sound mx (w.allocate capacity) :=
  fun r hr => (h r hr).allocate capacity

theorem Sound.add (h : Sound mx w) {r : Router T} (hr : Trusts mx w r) :
    Sound mx { w with routers := w.routers ++ [r] } := by
  intro r' hr'
  rcases List.mem_append.mp hr' with hr' | hr'
  · exact ⟨(h r' hr').allocated, (h r' hr').faithful⟩
  · cases List.mem_singleton.mp hr'
    exact ⟨hr.allocated, hr.faithful⟩

theorem Sound.set (h : Sound mx w) {r : Router T} (hr : Trusts mx w r) (i : Nat) :
    Sound mx { w with routers := w.routers.set i r } := by
  intro r' hr'
  rcases List.mem_or_eq_of_mem_set hr' with hr' | rfl
  · exact ⟨(h r' hr').allocated, (h r' hr').faithful⟩
  · exact ⟨hr.allocated, hr.faithful⟩

/-- After an undisturbing registration the router can still trust its cache. -/
theorem Trusts.insert {i : Nat} {r : Router T} {method : Method} {path : String} {handler : T}
    (h : Trusts mx w r) (hi : w.routers[i]? = some r)
    (hc : Undisturbing mx w (.insert i method path handler)) :
    Trusts mx w (r.insert mx method path handler).2 := by
  have hcached : ∀ key, w.cached (r.insert mx method path handler).2 key = w.cached r key := by
    intro key
    simp [World.cached]
  refine ⟨fun c hcache => h.allocated c (by simpa using hcache), fun key e he => ?_⟩
  rw [hcached] at he
  rw [hc r hi key (by simp [he])]
  exact h.faithful key e he

/-- After an undisturbing resolution every router can still trust its cache. -/
theorem Sound.resolve {i : Nat} {r : Router T} {method : Method} {path : String}
    (h : Sound mx w) (hi : w.routers[i]? = some r)
    (hc : Undisturbing mx w (.resolve i method path)) :
    Sound mx (w.resolve mx r method path).2 := by
  obtain ⟨hrouters, hnext⟩ := resolve_routers mx w r method path
  intro r' hr'
  rw [hrouters] at hr'
  refine ⟨fun c hcache => by rw [hnext]; exact (h r' hr').allocated c hcache, fun key e he => ?_⟩
  obtain hold | ⟨hcache, hshare, rfl, hkept⟩ := cached_of_resolve he
  · exact (h r' hr').faithful key e hold
  · rw [hc r hi hcache (by simp [hkept]) r' hr' hshare]
    exact CacheEntry.result_ofResult hkept

theorem Sound.exec {call : Call T} (h : Sound mx w) (hexec : w.exec mx call = .ok w')
    (hc : Undisturbing mx w call) : Sound mx w' := by
  cases call with
  | new =>
    cases hexec
    exact (h.allocate 16384).add (.new rfl _)
  | withoutCache =>
    cases hexec
    exact h.add (.uncached rfl)
  | withCacheCapacity i capacity =>
    simp only [World.exec] at hexec
    split at hexec
    · cases hexec
      unfold World.withCacheCapacity
      split
      · exact h.set (.uncached rfl) i
      · exact (h.allocate capacity).set (.new rfl _) i
    · cases hexec
  | clone i =>
    simp only [World.exec] at hexec
    split at hexec
    · rename_i r hi
      cases hexec
      exact h.add (h r (List.mem_of_getElem? hi))
    · cases hexec
  | insert i method path handler =>
    simp only [World.exec] at hexec
    split at hexec
    · rename_i r hi
      cases hexec
      exact h.set ((h r (List.mem_of_getElem? hi)).insert hi hc) i
    · cases hexec
  | resolve i method path =>
    simp only [World.exec] at hexec
    split at hexec
    · rename_i r hi
      cases hexec
      exact h.resolve hi hc
    · cases hexec

/-- A call that leaves all routers in agreement with their caches was undisturbing. -/
theorem Sound.undisturbing {call : Call T} (h : Sound mx w) (hexec : w.exec mx call = .ok w')
    (ha : Agrees mx w') : Undisturbing mx w call := by
  cases call with
  | insert i method path handler =>
    intro r hi key hkey
    simp only [World.exec, hi] at hexec
    cases hexec
    obtain ⟨e, he⟩ := Option.ne_none_iff_exists'.mp hkey
    have hlt : i < w.routers.length := (List.getElem?_eq_some_iff.mp hi).1
    have hcached : w.cached (r.insert mx method path handler).2 key = some e := by
      simpa [World.cached] using he
    have hafter := ha.faithful (List.mem_set hlt _) hcached
    rw [← hafter, (h r (List.mem_of_getElem? hi)).faithful key e he]
  | resolve i method path =>
    intro r hi hcache hkept r' hr' hshare
    simp only [World.exec, hi] at hexec
    cases hexec
    have hr := List.mem_of_getElem? hi
    cases hmiss : w.cached r (method, path) with
    | some e =>
      have hsame : w.cached r' (method, path) = some e := by
        rw [← hmiss]
        simp [World.cached, hshare]
      rw [← (h r hr).faithful _ e hmiss, ← (h r' hr').faithful _ e hsame]
    | none =>
      obtain ⟨e, he⟩ := Option.ne_none_iff_exists'.mp hkept
      have hafter := cached_after_resolve hcache hshare hmiss he
      rw [← ha.faithful (by rwa [(resolve_routers mx w r method path).1]) hafter]
      exact CacheEntry.result_ofResult he
  | new | withoutCache | withCacheCapacity i capacity | clone i => trivial

/-- **When cached resolution agrees with the uncached router.** In a run of calls on
any number of routers, whatever the matcher, cached and uncached resolution agree in
every state exactly when every call is undisturbing. -/
theorem cached_resolution_agrees_iff (mx : Matchit E T) (tr : List (Call T × World T))
    (hrun : Along (fun w call w' => w.exec mx call = .ok w') World.empty tr) :
    (∀ w ∈ visited World.empty tr, Agrees mx w) ↔
      Along (fun w call _ => Undisturbing mx w call) World.empty tr := by
  have hstart : Sound mx (World.empty : World T) := by
    intro r hr
    exact absurd hr List.not_mem_nil
  exact Along.forall_visited_iff (I := Sound mx) (fun _ _ _ h hexec hc => h.exec hexec hc)
    (fun _ _ _ h hexec ha => h.undisturbing hexec ha) (fun _ h => h.agrees) hstart hrun

/-- A matcher of paths without parameters. -/
def literalPaths : Matchit Unit String where
  check paths path := if path ∈ paths then .error () else .ok ()
  find routes path := (routes.lookup path).map fun handler => ⟨handler, []⟩

/-- A route is registered, found, and found again by a clone. -/
theorem cached_resolution_agrees_registered_first :
    let tr := replay (World.exec literalPaths) World.empty
      [.new, .insert 0 .get "/a" "a", .resolve 0 .get "/a", .clone 0, .resolve 1 .get "/a"]
    tr.length = 5 ∧ ∀ w ∈ visited World.empty tr, Agrees literalPaths w := by
  intro tr
  refine ⟨by decide +kernel, (cached_resolution_agrees_iff _ tr (along_replay _ _ _)).mpr ?_⟩
  refine ⟨trivial, ?_, ?_, trivial, ?_, trivial⟩
  · intro r hr key hkey
    cases hr
    exact absurd rfl hkey
  · intro r hr _ _ r' hr' _
    cases hr
    cases List.mem_singleton.mp hr'
    rfl
  · intro r hr _ _ r' hr' _
    cases hr
    obtain rfl | hr' := List.mem_cons.mp hr'
    · rfl
    · cases List.mem_singleton.mp hr'
      rfl

/-- A path is looked up before its route is registered; the miss stays in the cache. -/
theorem registration_after_miss_unseen :
    ¬ ∀ tr, Along (fun w call w' => World.exec literalPaths w call = .ok w') World.empty tr →
      ∀ w ∈ visited World.empty tr, Agrees literalPaths w := by
  intro h
  let calls : List (Call String) := [.new, .resolve 0 .get "/a", .insert 0 .get "/a" "a"]
  have ha := h _ (along_replay _ World.empty calls) _ (final_mem_visited _ World.empty calls)
  have hcached : ((final (World.exec literalPaths) World.empty calls).routers.map fun r =>
      (((final (World.exec literalPaths) World.empty calls).resolve literalPaths r .get "/a").1,
        r.rawResolve literalPaths .get "/a")) = [(.error .notFound, .ok ⟨"a", []⟩)] := by
    decide +kernel
  obtain ⟨r, hr, heq⟩ := List.mem_map.mp (hcached ▸ List.mem_singleton_self _)
  have := ha r hr .get "/a"
  rw [Prod.mk.injEq] at heq
  rw [heq.1, heq.2] at this
  cases this

end JustApi.Core.RouteCoherence
