import Mathlib.Data.List.AList
import JustApi.Lib.Run
import JustApi.Core.Http

/-! # The HTTP router

`Router` with its route cache. The path matcher comes from the crate `matchit` and is
a parameter: per method it is known by the routes inserted so far. A cache is shared
by the clones of a router, so caches live on a heap and a router holds an address. -/
namespace JustApi.Core.Routing
open JustApi.Lib.Run JustApi.Core.Http
open Function (update)

inductive RouterError where
  | notFound
  | methodNotAllowed
  deriving DecidableEq, Repr

structure RouteResolution (T : Type) where
  handler : T
  params : List (String × String)
  deriving DecidableEq, Repr

/-- The path matcher, `E` its insertion errors. A new route is checked against the
paths inserted so far; a path is matched against the routes inserted so far. -/
structure Matchit (E T : Type) where
  check : List String → String → Except E Unit
  find : List (String × T) → String → Option (RouteResolution T)

section Matching

variable {E T : Type}

def Matchit.insert (mx : Matchit E T) (routes : List (String × T)) (path : String) (handler : T) :
    Except E (List (String × T)) := do
  mx.check (routes.map Prod.fst) path
  pure (routes ++ [(path, handler)])

end Matching

/-! ## The route cache -/

/-- A method with a path. -/
abbrev Key := Method × String

inductive CacheEntry (T : Type) where
  | hit (resolution : RouteResolution T)
  | notFound
  deriving DecidableEq, Repr

structure RouteCache (T : Type) where
  map : AList fun _ : Key => CacheEntry T
  /-- The keys of the map, the oldest first. -/
  order : List Key
  capacity : Nat

section Caching

variable {T : Type}

/-- What `resolve` returns for an entry. -/
def CacheEntry.result : CacheEntry T → Except RouterError (RouteResolution T)
  | .hit resolution => .ok resolution
  | .notFound => .error .notFound

/-- The entry `resolve` keeps for a result, if it keeps one: static hits and
definitive misses. -/
def CacheEntry.ofResult : Except RouterError (RouteResolution T) → Option (CacheEntry T)
  | .ok resolution => if resolution.params.isEmpty then some (.hit resolution) else none
  | .error .notFound => some .notFound
  | .error .methodNotAllowed => none

theorem CacheEntry.result_ofResult {r : Except RouterError (RouteResolution T)} {e : CacheEntry T}
    (h : CacheEntry.ofResult r = some e) : e.result = r := by
  unfold ofResult at h
  split at h
  · split at h
    · cases h; rfl
    · cases h
  · cases h; rfl
  · cases h

namespace RouteCache

def new (capacity : Nat) : RouteCache T := ⟨∅, [], max capacity 1⟩

def get (c : RouteCache T) (key : Key) : Option (CacheEntry T) := c.map.lookup key

/-- A new key goes to the end of the order; when there are too many the oldest
leaves. -/
def enqueue (c : RouteCache T) (key : Key) : RouteCache T :=
  let order := c.order ++ [key]
  if c.capacity < order.length then
    match order with
    | old :: rest => { c with map := c.map.erase old, order := rest }
    | [] => { c with order := order }
  else { c with order := order }

def insert (c : RouteCache T) (key : Key) (entry : CacheEntry T) : RouteCache T :=
  let c := if key ∈ c.map then c else c.enqueue key
  { c with map := c.map.insert key entry }

@[simp] theorem get_new (capacity : Nat) (key : Key) : (new capacity : RouteCache T).get key = none :=
  AList.lookup_empty key

/-- Making room only loses entries. -/
theorem get_of_enqueue {c : RouteCache T} {key key' : Key} {e : CacheEntry T}
    (h : (c.enqueue key).get key' = some e) : c.get key' = some e := by
  unfold enqueue at h
  dsimp only at h
  split at h
  · split at h
    · rename_i old rest _
      by_cases hk : key' = old
      · subst hk
        simp [get] at h
      · simpa [get, AList.lookup_erase_ne hk] using h
    · exact h
  · exact h

@[simp] theorem get_insert_self (c : RouteCache T) (key : Key) (e : CacheEntry T) :
    (c.insert key e).get key = some e := AList.lookup_insert _

theorem get_of_insert {c : RouteCache T} {key key' : Key} {e e' : CacheEntry T}
    (h : (c.insert key e).get key' = some e') :
    key' = key ∧ e' = e ∨ c.get key' = some e' := by
  by_cases hk : key' = key
  · subst hk
    rw [get_insert_self] at h
    exact .inl ⟨rfl, (Option.some.inj h).symm⟩
  · simp only [insert, get, AList.lookup_insert_ne hk] at h
    split at h
    · exact .inr h
    · exact .inr (get_of_enqueue h)

end RouteCache

end Caching

/-! ## Routers -/

structure Router (T : Type) where
  routes : AList fun _ : Method => List (String × T)
  routeList : List (Method × String)
  /-- The address of the cache; none disables caching. -/
  cache : Option Nat

namespace Router

variable {E T : Type} (mx : Matchit E T)

/-- The routes of a method, none before the first insertion. -/
def routesOf (r : Router T) (method : Method) : List (String × T) :=
  (r.routes.lookup method).getD []

/-- A route for `GET` also serves `HEAD`, unless `HEAD` has a conflicting route. -/
def insert (r : Router T) (method : Method) (path : String) (handler : T) :
    Except E Unit × Router T :=
  match mx.insert (r.routesOf method) path handler with
  | .error e =>
    -- the method's matcher has been created by then
    (.error e, { r with routes := r.routes.insert method (r.routesOf method) })
  | .ok routes =>
    let r := { r with
      routes := r.routes.insert method routes
      routeList := r.routeList ++ [(method, path)] }
    if method = .get then
      let head := match mx.insert (r.routesOf .head) path handler with
        | .ok routes => routes
        | .error _ => r.routesOf .head
      (.ok (), { r with
        routes := r.routes.insert .head head
        routeList := r.routeList ++ [(.head, path)] })
    else (.ok (), r)

def rawResolve (r : Router T) (method : Method) (path : String) :
    Except RouterError (RouteResolution T) :=
  match (r.routes.lookup method).bind fun routes => mx.find routes path with
  | some matched => .ok matched
  | none =>
    if r.routes.entries.any fun e => e.1 ≠ method && (mx.find e.2 path).isSome then
      .error .methodNotAllowed
    else .error .notFound

/-- Registration does not touch the cache. -/
@[simp] theorem insert_cache (r : Router T) (method : Method) (path : String) (handler : T) :
    (r.insert mx method path handler).2.cache = r.cache := by
  unfold insert
  split
  · rfl
  · dsimp only
    split <;> rfl

end Router

/-! ## Programs that use routers -/

/-- The routers of a program and the heap of their caches, allocated up to `next`. -/
structure World (T : Type) where
  routers : List (Router T)
  caches : Nat → RouteCache T
  next : Nat

inductive Call (T : Type) where
  | new
  | withoutCache
  | withCacheCapacity (router capacity : Nat)
  | clone (router : Nat)
  | insert (router : Nat) (method : Method) (path : String) (handler : T)
  | resolve (router : Nat) (method : Method) (path : String)
  deriving DecidableEq, Repr

namespace World

variable {E T : Type} (mx : Matchit E T)

def empty : World T := ⟨[], fun _ => .new 0, 0⟩

/-- A new cache, at the address `next`. -/
def allocate (w : World T) (capacity : Nat) : World T :=
  { w with caches := update w.caches w.next (.new capacity), next := w.next + 1 }

/-- The entry a router finds in its cache. -/
def cached (w : World T) (r : Router T) (key : Key) : Option (CacheEntry T) :=
  r.cache.bind fun c => (w.caches c).get key

/-- `Router::resolve`, with the caches after it. -/
def resolve (w : World T) (r : Router T) (method : Method) (path : String) :
    Except RouterError (RouteResolution T) × World T :=
  match r.cache with
  | none => (r.rawResolve mx method path, w)
  | some c =>
    match (w.caches c).get (method, path) with
    | some entry => (entry.result, w)
    | none =>
      let result := r.rawResolve mx method path
      match CacheEntry.ofResult result with
      | some entry =>
        (result, { w with
          caches := update w.caches c ((w.caches c).insert (method, path) entry) })
      | none => (result, w)

/-- `Router::with_cache_capacity` on a router of the program. -/
def withCacheCapacity (w : World T) (i : Nat) (r : Router T) (capacity : Nat) : World T :=
  if capacity = 0 then { w with routers := w.routers.set i { r with cache := none } }
  else { w.allocate capacity with routers := w.routers.set i { r with cache := some w.next } }

def exec (w : World T) : Call T → Except Disabled (World T)
  | .new => .ok { w.allocate 16384 with routers := w.routers ++ [⟨∅, [], some w.next⟩] }
  | .withoutCache => .ok { w with routers := w.routers ++ [⟨∅, [], none⟩] }
  | .withCacheCapacity i capacity => do
    let some r := w.routers[i]? | .error .disabled
    pure (w.withCacheCapacity i r capacity)
  | .clone i => do
    let some r := w.routers[i]? | .error .disabled
    pure { w with routers := w.routers ++ [r] }
  | .insert i method path handler => do
    let some r := w.routers[i]? | .error .disabled
    pure { w with routers := w.routers.set i (r.insert mx method path handler).2 }
  | .resolve i method path => do
    let some r := w.routers[i]? | .error .disabled
    pure (w.resolve mx r method path).2

end World

end JustApi.Core.Routing
