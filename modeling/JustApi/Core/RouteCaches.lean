import JustApi.Core.Routing

/-! # The representation of a route cache

The map of a cache and the queue of its keys are changed under one lock, so the calls of
any number of threads are a list of calls, in the order in which they get the lock. -/
namespace JustApi.Core.RouteCaches
open JustApi.Core.Routing

inductive Op (T : Type) where
  | get (key : Key)
  | insert (key : Key) (entry : CacheEntry T)

/-- A cache and the history of its keys, the latest first: a key comes in when it is inserted
and is not there. -/
structure Logged (T : Type) where
  cache : RouteCache T
  entered : List Key

section Calls

variable {T : Type}

def Logged.new (capacity : Nat) : Logged T := ⟨.new capacity, []⟩

def exec (s : Logged T) : Op T → Logged T
  | .get _ => s
  | .insert key entry =>
    ⟨s.cache.insert key entry, if key ∈ s.cache.map then s.entered else key :: s.entered⟩

def run (capacity : Nat) (ops : List (Op T)) : Logged T := ops.foldl exec (.new capacity)

/-! ## The law -/

/-- Queue and map agree. -/
structure Represents (c : RouteCache T) (capacity : Nat) : Prop where
  nodup : c.order.Nodup
  keys : ∀ key, key ∈ c.order ↔ key ∈ c.map
  bounded : c.order.length ≤ max capacity 1

/-- The key that came in before all others that are there. -/
def Oldest (s : Logged T) (old : Key) : Prop :=
  old ∈ s.cache.map ∧
    ∀ key ∈ s.cache.map, key ≠ old → s.entered.idxOf key < s.entered.idxOf old

/-- What an insertion leaves. The oldest key goes if a new one comes into a full cache, and no
other entry changes. -/
structure Inserts (s : Logged T) (key : Key) (entry : CacheEntry T) (t : Logged T)
    (capacity : Nat) : Prop where
  present : t.cache.get key = some entry
  evicts : key ∉ s.cache.map → s.cache.order.length = max capacity 1 →
    ∃ old, Oldest s old ∧ t.cache.get old = none
  keeps : ∀ k, k ≠ key → t.cache.get k = s.cache.get k ∨
    key ∉ s.cache.map ∧ s.cache.order.length = max capacity 1 ∧ Oldest s k

/-! ## Insertion -/

/-- The queue is that of the map, with the key that came in first at its head. -/
structure Queued (s : Logged T) (capacity : Nat) : Prop
    extends Represents s.cache capacity where
  capacity_eq : s.cache.capacity = max capacity 1
  fifo : s.cache.order.Pairwise fun a b => s.entered.idxOf b < s.entered.idxOf a

variable {s : Logged T} {capacity : Nat} {key : Key}

theorem queued_new (capacity : Nat) : Queued (.new capacity : Logged T) capacity where
  nodup := List.nodup_nil
  keys key := ⟨fun h => (List.not_mem_nil h).elim, fun h => (AList.notMem_empty key h).elim⟩
  bounded := Nat.zero_le _
  capacity_eq := rfl
  fifo := List.Pairwise.nil

/-- The head of the queue came in before the rest. -/
theorem Queued.oldest (h : Queued s capacity) {old : Key} {rest : List Key}
    (horder : s.cache.order = old :: rest) : Oldest s old := by
  have hfifo := h.fifo
  rw [horder, List.pairwise_cons] at hfifo
  refine ⟨(h.keys old).mp (horder ▸ List.mem_cons_self), fun k hk hne => ?_⟩
  have hmem := (h.keys k).mpr hk
  rw [horder] at hmem
  exact hfifo.1 k ((List.mem_cons.mp hmem).resolve_left hne)

/-- An entry is replaced where the key is. -/
theorem Queued.replace (h : Queued s capacity) (entry : CacheEntry T) (hkey : key ∈ s.cache.map) :
    Queued (exec s (.insert key entry)) capacity := by
  have hcache : s.cache.insert key entry =
      { s.cache with map := s.cache.map.insert key entry } := by
    rw [RouteCache.insert, if_pos hkey]
  rw [exec, hcache, if_pos hkey]
  refine ⟨⟨h.nodup, fun k => ?_, h.bounded⟩, h.capacity_eq, h.fifo⟩
  rw [AList.mem_insert, h.keys]
  exact ⟨.inr, fun hk => hk.elim (fun he => he ▸ hkey) id⟩

/-- A new key is the latest to come in. -/
theorem fifo_snoc {order entered : List Key} (hnew : key ∉ order)
    (h : order.Pairwise fun a b => entered.idxOf b < entered.idxOf a) :
    (order ++ [key]).Pairwise fun a b => (key :: entered).idxOf b < (key :: entered).idxOf a := by
  have hlater {k : Key} (hk : k ∈ order) :
      (key :: entered).idxOf k = entered.idxOf k + 1 :=
    List.idxOf_cons_ne _ fun he => hnew (he ▸ hk)
  refine List.pairwise_append.mpr ⟨?_, List.pairwise_singleton _ _, fun a ha b hb => ?_⟩
  · refine h.imp_of_mem fun ha hb hlt => ?_
    rw [hlater ha, hlater hb]
    exact Nat.succ_lt_succ hlt
  · rw [List.mem_singleton.mp hb, List.idxOf_cons_self, hlater ha]
    exact Nat.succ_pos _

theorem enqueue_room {c : RouteCache T} (hlen : c.order.length < c.capacity) :
    c.enqueue key = { c with order := c.order ++ [key] } := by
  have hfits : ¬ c.capacity < (c.order ++ [key]).length := by
    rw [List.length_append, List.length_singleton]
    omega
  rw [RouteCache.enqueue]
  exact if_neg hfits

theorem enqueue_full {c : RouteCache T} {old : Key} {rest : List Key}
    (horder : c.order = old :: rest) (hlen : c.order.length = c.capacity) :
    c.enqueue key = { c with map := c.map.erase old, order := rest ++ [key] } := by
  have hover : c.capacity < (c.order ++ [key]).length := by
    rw [List.length_append, List.length_singleton]
    omega
  rw [RouteCache.enqueue]
  simp only [if_pos hover]
  rw [horder]
  rfl

theorem insert_new {c : RouteCache T} (entry : CacheEntry T) (hkey : key ∉ c.map) :
    c.insert key entry = { c.enqueue key with map := (c.enqueue key).map.insert key entry } := by
  rw [RouteCache.insert, if_neg hkey]

/-- A new key with room for it. -/
theorem Queued.enter (h : Queued s capacity) (entry : CacheEntry T) (hkey : key ∉ s.cache.map)
    (hlen : s.cache.order.length < max capacity 1) :
    Queued (exec s (.insert key entry)) capacity ∧
      Inserts s key entry (exec s (.insert key entry)) capacity := by
  have hnew : key ∉ s.cache.order := fun hk => hkey ((h.keys key).mp hk)
  have hcache := insert_new entry hkey
  rw [enqueue_room (h.capacity_eq ▸ hlen)] at hcache
  rw [exec, hcache, if_neg hkey]
  refine ⟨⟨⟨?_, fun k => ?_, ?_⟩, h.capacity_eq, fifo_snoc hnew h.fifo⟩, ?_, ?_, ?_⟩
  · exact List.nodup_append.mpr ⟨h.nodup, List.nodup_singleton _,
      fun a ha b hb he => hnew (List.mem_singleton.mp hb ▸ he ▸ ha)⟩
  · rw [List.mem_append, List.mem_singleton, AList.mem_insert, h.keys, or_comm]
  · rw [List.length_append, List.length_singleton]
    exact hlen
  · exact AList.lookup_insert _
  · intro _ hfull
    omega
  · exact fun k hk => .inl (AList.lookup_insert_ne hk)

/-- A new key in a full cache. -/
theorem Queued.evict (h : Queued s capacity) (entry : CacheEntry T) (hkey : key ∉ s.cache.map)
    (hlen : s.cache.order.length = max capacity 1) :
    Queued (exec s (.insert key entry)) capacity ∧
      Inserts s key entry (exec s (.insert key entry)) capacity := by
  have hnew : key ∉ s.cache.order := fun hk => hkey ((h.keys key).mp hk)
  obtain ⟨old, rest, horder⟩ : ∃ old rest, s.cache.order = old :: rest := by
    apply List.exists_cons_of_length_pos
    omega
  have hold := h.oldest horder
  have hnodup := h.nodup
  have hfifo := h.fifo
  rw [horder] at hnodup hnew hfifo
  obtain ⟨holdrest, hrest⟩ := List.nodup_cons.mp hnodup
  have hne : old ≠ key := fun he => hnew (he ▸ List.mem_cons_self)
  have hnewrest : key ∉ rest := fun hk => hnew (List.mem_cons_of_mem _ hk)
  have hcache := insert_new entry hkey
  rw [enqueue_full horder (h.capacity_eq ▸ hlen)] at hcache
  rw [exec, hcache, if_neg hkey]
  refine ⟨⟨⟨?_, fun k => ?_, ?_⟩, h.capacity_eq, ?_⟩, ?_, ?_, ?_⟩
  · exact List.nodup_append.mpr ⟨hrest, List.nodup_singleton _,
      fun a ha b hb he => hnewrest (List.mem_singleton.mp hb ▸ he ▸ ha)⟩
  · -- the rest of the queue is what the map has besides the oldest key
    have hmem : k ∈ rest ↔ k ≠ old ∧ k ∈ s.cache.map := by
      rw [← h.keys, horder, List.mem_cons]
      constructor
      · exact fun hk => ⟨fun he => holdrest (he ▸ hk), .inr hk⟩
      · exact fun hk => hk.2.resolve_left hk.1
    rw [List.mem_append, List.mem_singleton, AList.mem_insert, AList.mem_erase, hmem, or_comm]
  · rw [horder, List.length_cons] at hlen
    rw [List.length_append, List.length_singleton]
    omega
  · exact fifo_snoc hnewrest (List.pairwise_cons.mp hfifo).2
  · exact AList.lookup_insert _
  · intro _ _
    refine ⟨old, hold, ?_⟩
    rw [RouteCache.get, AList.lookup_insert_ne hne, AList.lookup_erase]
  · intro k hk
    rw [RouteCache.get, AList.lookup_insert_ne hk]
    by_cases hko : k = old
    · exact .inr ⟨hkey, hlen, hko ▸ hold⟩
    · exact .inl (AList.lookup_erase_ne hko)

/-- What an insertion does to any cache that is queued. -/
theorem Queued.insert (h : Queued s capacity) (key : Key) (entry : CacheEntry T) :
    Queued (exec s (.insert key entry)) capacity ∧
      Inserts s key entry (exec s (.insert key entry)) capacity := by
  by_cases hkey : key ∈ s.cache.map
  · refine ⟨h.replace entry hkey, RouteCache.get_insert_self _ _ _, fun hn => absurd hkey hn, ?_⟩
    intro k hk
    left
    rw [exec, RouteCache.insert, if_pos hkey]
    exact AList.lookup_insert_ne hk
  · rcases Nat.lt_or_eq_of_le h.bounded with hlt | heq
    · exact h.enter entry hkey hlt
    · exact h.evict entry hkey heq

theorem Queued.run {ops : List (Op T)} (h : Queued s capacity) :
    Queued (ops.foldl exec s) capacity := by
  induction ops generalizing s with
  | nil => exact h
  | cons op ops ih =>
    cases op with
    | get key => exact ih h
    | insert key entry => exact ih (h.insert key entry).1

/-- After any calls the queue has each key of the map once and no others, and no more of them
than the capacity; a next insertion leaves its own entry and takes away the oldest one if
there is no room. -/
theorem cache_represented (capacity : Nat) (ops : List (Op T)) :
    Represents (run capacity ops).cache capacity ∧
      ∀ key entry, Inserts (run capacity ops) key entry
        (run capacity (ops ++ [.insert key entry])) capacity := by
  have h : Queued (run capacity ops) capacity := (queued_new capacity).run
  refine ⟨h.toRepresents, fun key entry => ?_⟩
  have hnext : run capacity (ops ++ [.insert key entry]) =
      exec (run capacity ops) (.insert key entry) := by
    rw [run, List.foldl_append]
    rfl
  rw [hnext]
  exact (h.insert key entry).2

end Calls

end JustApi.Core.RouteCaches
