import Mathlib.Algebra.Group.Nat.Defs
import Mathlib.Data.List.Basic
import Mathlib.Data.List.Rotate

/-! # The paged KV-cache manager

`KvBlockPool` is the fixed-size block allocator with clock-sweep eviction, and
`Sequence` is the run of blocks one request holds. The model is the release
build: an `assert!` that fails and an index out of bounds end the call with a
`Panic`, while a `debug_assert!` is compiled out and integer arithmetic wraps. -/
namespace JustApi.Inference.KvCache

/-- Token positions per block. -/
def BLOCK_SIZE : Nat := 16

theorem blockSize_pos : 0 < BLOCK_SIZE := by decide

/-- Maximum addressable blocks. -/
def MAX_BLOCKS : Nat := 2 ^ 24

/-- Largest value of a reference count (`u32::MAX`). -/
def REF_MAX : Nat := 2 ^ 32 - 1

/-- Block ids index the pool. The source's `u32` holds every id below
`MAX_BLOCKS`, so nothing is lost in the casts. -/
abbrev BlockId := Nat

/-- A `usize` result on a 64-bit target, without overflow checks. -/
def usize (n : Nat) : Nat := n % 2 ^ 64

inductive Panic where
  | indexOutOfBounds
  | sliceOutOfRange
  | retainNonAllocated (block : BlockId)
  | reclaimInUse (block : BlockId)
  | releaseNonAllocated (block : BlockId)
  | freeCachedInUse (block : BlockId)
  | blockMisalignment
  deriving DecidableEq, Repr

def Panic.message : Panic → String
  | .indexOutOfBounds => "index out of bounds"
  | .sliceOutOfRange => "range out of bounds"
  | .retainNonAllocated block => s!"retain on non-allocated block {block}"
  | .reclaimInUse block => s!"reclaim on in-use block {block}"
  | .releaseNonAllocated block => s!"release on non-allocated block {block}"
  | .freeCachedInUse block => s!"free_cached on in-use block {block}"
  | .blockMisalignment => "block misalignment"

structure BlockMeta where
  refCount : Nat
  pinned : Bool
  hash : UInt64
  deriving DecidableEq, Repr

def BlockMeta.new : BlockMeta := ⟨0, false, 0⟩

structure KvBlockPool where
  metas : List BlockMeta
  /-- The free list as a stack, its top (the end of the `Vec`) first. -/
  free : List BlockId
  clockHand : Nat
  evictionCount : Nat
  allocatedCount : Nat
  cachedCount : Nat
  deriving DecidableEq, Repr

namespace KvBlockPool

/-- `capacity` is clamped to `1 ..= MAX_BLOCKS`; the lowest id is on top. -/
def new (capacity : Nat) : KvBlockPool :=
  let capacity := min (max capacity 1) MAX_BLOCKS
  { metas := List.replicate capacity BlockMeta.new, free := List.range capacity,
    clockHand := 0, evictionCount := 0, allocatedCount := 0, cachedCount := 0 }

def capacity (p : KvBlockPool) : Nat := p.metas.length

def allocated (p : KvBlockPool) : Nat := p.allocatedCount

def inUse (p : KvBlockPool) : Nat := p.allocatedCount - p.cachedCount

def cached (p : KvBlockPool) : Nat := p.cachedCount

def available (p : KvBlockPool) : Nat := p.free.length

/-- The reference count of a block, zero outside the pool. -/
def refCount (p : KvBlockPool) (block : BlockId) : Nat :=
  (p.metas[block]?.getD BlockMeta.new).refCount

def pinned (p : KvBlockPool) (block : BlockId) : Bool :=
  (p.metas[block]?.getD BlockMeta.new).pinned

def isInUse (p : KvBlockPool) (block : BlockId) : Bool := 0 < p.refCount block

def setMeta (p : KvBlockPool) (block : BlockId) (m : BlockMeta) : KvBlockPool :=
  { p with metas := p.metas.set block m }

/-- `self.metas[block as usize]`, which every operation on one block starts with. -/
def withMeta {β : Type} (p : KvBlockPool) (block : BlockId)
    (k : BlockMeta → Except Panic β) : Except Panic β :=
  match p.metas[block]? with
  | some m => k m
  | none => .error .indexOutOfBounds

/-! ## Eviction -/

/-- The indices `(start + offset) % n` for `offset` in `0..n`, in the order the
clock sweep probes them. -/
def clockOrder (p : KvBlockPool) : List BlockId :=
  (List.range p.metas.length).map fun offset => (p.clockHand + offset) % p.metas.length

/-- A block the sweep does not skip. -/
def evictable (p : KvBlockPool) (block : BlockId) : Bool :=
  p.refCount block == 0 && !p.pinned block

/-- Evict the first evictable block in clock order. The hand moves past each
probed index, so a sweep that finds nothing brings it back to where it was. -/
def evictOne (p : KvBlockPool) : Option BlockId × KvBlockPool :=
  match p.clockOrder.find? p.evictable with
  | none => (none, { p with clockHand := p.clockHand % p.metas.length })
  | some idx =>
    (some idx, { p.setMeta idx BlockMeta.new with
      free := idx :: p.free
      clockHand := (idx + 1) % p.metas.length
      evictionCount := p.evictionCount + 1
      allocatedCount := p.allocatedCount - 1
      cachedCount := p.cachedCount - 1 })

/-- The blocks up to `target` calls of `evictOne` evict, in order, stopping at
the first call that finds nothing. -/
def evictLoop : Nat → KvBlockPool → List BlockId × KvBlockPool
  | 0, p => ([], p)
  | target + 1, p =>
    match p.evictOne with
    | (none, p') => ([], p')
    | (some block, p') => (block :: (evictLoop target p').1, (evictLoop target p').2)

/-- `evict` reports how many blocks went. -/
def evict (p : KvBlockPool) (target : Nat) : Nat × KvBlockPool :=
  ((evictLoop target p).1.length, (evictLoop target p).2)

/-! ## Allocation and reference counting -/

/-- The end of both paths of `alloc`: the block leaves with one reference. -/
def handOut (p : KvBlockPool) (block : BlockId) : Except Panic (Option BlockId × KvBlockPool) :=
  p.withMeta block fun m =>
    .ok (some block, { p.setMeta block { m with refCount := 1, hash := 0 } with
      allocatedCount := p.allocatedCount + 1 })

def alloc (p : KvBlockPool) : Except Panic (Option BlockId × KvBlockPool) :=
  match p.free with
  | block :: rest => { p with free := rest }.handOut block
  | [] =>
    -- `evictOne` has put the block on the free list, where it stays
    match p.evictOne with
    | (none, p') => .ok (none, p')
    | (some evicted, p') => p'.handOut evicted

def retain (p : KvBlockPool) (block : BlockId) : Except Panic KvBlockPool :=
  p.withMeta block fun m =>
    if 0 < m.refCount then
      .ok (p.setMeta block { m with refCount := min (m.refCount + 1) REF_MAX })
    else .error (.retainNonAllocated block)

def reclaim (p : KvBlockPool) (block : BlockId) : Except Panic KvBlockPool :=
  p.withMeta block fun m =>
    if m.refCount = 0 then
      .ok { p.setMeta block { m with refCount := 1 } with cachedCount := p.cachedCount - 1 }
    else .error (.reclaimInUse block)

def release (p : KvBlockPool) (block : BlockId) (hash : UInt64) : Except Panic KvBlockPool :=
  p.withMeta block fun m =>
    if 0 < m.refCount then
      if m.refCount - 1 = 0 then
        .ok { p.setMeta block { m with refCount := m.refCount - 1, hash := hash } with
          cachedCount := p.cachedCount + 1 }
      else .ok (p.setMeta block { m with refCount := m.refCount - 1 })
    else .error (.releaseNonAllocated block)

def freeCached (p : KvBlockPool) (block : BlockId) : Except Panic KvBlockPool :=
  p.withMeta block fun m =>
    if m.refCount = 0 then
      .ok { p.setMeta block { m with pinned := false, hash := 0 } with
        cachedCount := p.cachedCount - 1, free := block :: p.free }
    else .error (.freeCachedInUse block)

def pin (p : KvBlockPool) (block : BlockId) : Except Panic KvBlockPool :=
  p.withMeta block fun m => .ok (p.setMeta block { m with pinned := true })

def unpin (p : KvBlockPool) (block : BlockId) : Except Panic KvBlockPool :=
  p.withMeta block fun m => .ok (p.setMeta block { m with pinned := false })

end KvBlockPool

/-! ## Sequences -/

/-- The blocks of one request, in position order. -/
structure Sequence where
  id : Nat
  blocks : List BlockId
  numTokens : Nat
  deriving DecidableEq, Repr

namespace Sequence

def new (id : Nat) : Sequence := ⟨id, [], 0⟩

/-- `none` when the pool is exhausted, which leaves the sequence as it was. -/
def grow (seq : Sequence) (pool : KvBlockPool) :
    Except Panic (Option BlockId × Sequence × KvBlockPool) :=
  match pool.alloc with
  | .error e => .error e
  | .ok (none, pool') => .ok (none, seq, pool')
  | .ok (some block, pool') => .ok (some block, { seq with blocks := seq.blocks ++ [block] }, pool')

def advance (seq : Sequence) (n : Nat) : Sequence :=
  { seq with numTokens := usize (seq.numTokens + n) }

/-- Adopt `blocks` from the prefix cache, reclaiming each one in turn. -/
def restoreFromCache (seq : Sequence) (blocks : List BlockId) (numTokens : Nat)
    (pool : KvBlockPool) : Except Panic (Sequence × KvBlockPool) :=
  match blocks.foldlM KvBlockPool.reclaim pool with
  | .error e => .error e
  | .ok pool' => .ok ({ seq with blocks := blocks, numTokens := numTokens }, pool')

end Sequence

/-! ## What each operation does to the block table

Reference counts, pins and the free stack are all that later arguments use of a
pool; `view` forgets the counters, the hashes and the clock hand. -/

/-- The block table behind a pool. -/
structure View where
  capacity : Nat
  free : List BlockId
  refCount : BlockId → Nat
  pinned : BlockId → Bool

namespace KvBlockPool

open Function (update)

variable {p q : KvBlockPool} {b : BlockId}

def view (p : KvBlockPool) : View := ⟨p.capacity, p.free, p.refCount, p.pinned⟩

@[simp] theorem view_capacity (p : KvBlockPool) : p.view.capacity = p.capacity := rfl
@[simp] theorem view_free (p : KvBlockPool) : p.view.free = p.free := rfl
@[simp] theorem view_refCount (p : KvBlockPool) : p.view.refCount = p.refCount := rfl
@[simp] theorem view_pinned (p : KvBlockPool) : p.view.pinned = p.pinned := rfl

theorem capacity_setMeta (p : KvBlockPool) (b : BlockId) (m : BlockMeta) :
    (p.setMeta b m).capacity = p.capacity := by
  simp [capacity, setMeta]

theorem refCount_setMeta (hb : b < p.capacity) (m : BlockMeta) :
    (p.setMeta b m).refCount = update p.refCount b m.refCount := by
  funext c
  by_cases hc : c = b
  · subst hc
    simp [refCount, setMeta, List.getElem?_set_self (show c < p.metas.length from hb)]
  · simp [refCount, setMeta, hc, List.getElem?_set_ne (Ne.symm hc)]

theorem pinned_setMeta (hb : b < p.capacity) (m : BlockMeta) :
    (p.setMeta b m).pinned = update p.pinned b m.pinned := by
  funext c
  by_cases hc : c = b
  · subst hc
    simp [pinned, setMeta, List.getElem?_set_self (show c < p.metas.length from hb)]
  · simp [pinned, setMeta, hc, List.getElem?_set_ne (Ne.symm hc)]

theorem view_setMeta (hb : b < p.capacity) (m : BlockMeta) :
    (p.setMeta b m).view = { p.view with
      refCount := update p.refCount b m.refCount, pinned := update p.pinned b m.pinned } := by
  simp only [view, capacity_setMeta, refCount_setMeta hb, pinned_setMeta hb]
  rfl

/-- An operation on one block that did not panic found the block in the pool. -/
theorem withMeta_ok {β : Type} {k : BlockMeta → Except Panic β} {r : β}
    (h : p.withMeta b k = .ok r) :
    b < p.capacity ∧ ∃ m, m.refCount = p.refCount b ∧ m.pinned = p.pinned b ∧ k m = .ok r := by
  unfold withMeta at h
  cases hm : p.metas[b]? with
  | none => rw [hm] at h; cases h
  | some m =>
    rw [hm] at h
    refine ⟨(List.getElem?_eq_some_iff.mp hm).1, m, ?_, ?_, h⟩
    · simp [refCount, hm]
    · simp [pinned, hm]

/-- Inside the pool, an operation on one block reaches its body. -/
theorem withMeta_of_lt {β : Type} (k : BlockMeta → Except Panic β) (hb : b < p.capacity) :
    ∃ m, m.refCount = p.refCount b ∧ m.pinned = p.pinned b ∧ p.withMeta b k = k m := by
  have hm : p.metas[b]? = some p.metas[b] := List.getElem?_eq_getElem hb
  exact ⟨p.metas[b], by simp [refCount, hm], by simp [pinned, hm], by simp [withMeta, hm]⟩

theorem handOut_ok {r : Option BlockId} (h : p.handOut b = .ok (r, q)) :
    b < p.capacity ∧ r = some b ∧ q.view = { p.view with refCount := update p.refCount b 1 } := by
  obtain ⟨hb, m, -, hpin, hk⟩ := withMeta_ok h
  cases hk
  refine ⟨hb, rfl, ?_⟩
  have hv := view_setMeta hb { m with refCount := 1, hash := 0 }
  rw [show update p.pinned b m.pinned = p.pinned by rw [hpin, Function.update_eq_self]] at hv
  exact hv

theorem handOut_succeeds (hb : b < p.capacity) : ∃ q, p.handOut b = .ok (some b, q) := by
  obtain ⟨m, -, -, hk⟩ := withMeta_of_lt (p := p) (b := b) (fun m =>
    .ok (some b, { p.setMeta b { m with refCount := 1, hash := 0 } with
      allocatedCount := p.allocatedCount + 1 })) hb
  exact ⟨_, hk⟩

theorem retain_ok (h : p.retain b = .ok q) :
    b < p.capacity ∧ 0 < p.refCount b ∧ q.view =
      { p.view with refCount := update p.refCount b (min (p.refCount b + 1) REF_MAX) } := by
  obtain ⟨hb, m, hrc, hpin, hk⟩ := withMeta_ok h
  split at hk
  · cases hk
    refine ⟨hb, by omega, ?_⟩
    rw [view_setMeta hb, hrc, hpin, Function.update_eq_self]
    rfl
  · cases hk

theorem reclaim_ok (h : p.reclaim b = .ok q) :
    b < p.capacity ∧ p.refCount b = 0 ∧
      q.view = { p.view with refCount := update p.refCount b 1 } := by
  obtain ⟨hb, m, hrc, hpin, hk⟩ := withMeta_ok h
  split at hk
  · cases hk
    refine ⟨hb, by omega, ?_⟩
    have hv := view_setMeta hb { m with refCount := 1 }
    rw [show update p.pinned b m.pinned = p.pinned by rw [hpin, Function.update_eq_self]] at hv
    exact hv
  · cases hk

theorem reclaim_succeeds (hb : b < p.capacity) (h0 : p.refCount b = 0) :
    ∃ q, p.reclaim b = .ok q := by
  unfold reclaim
  obtain ⟨m, hrc, -, hk⟩ := withMeta_of_lt _ hb
  rw [hk, if_pos (hrc.trans h0)]
  exact ⟨_, rfl⟩

theorem release_ok {hash : UInt64} (h : p.release b hash = .ok q) :
    b < p.capacity ∧ 0 < p.refCount b ∧
      q.view = { p.view with refCount := update p.refCount b (p.refCount b - 1) } := by
  obtain ⟨hb, m, hrc, hpin, hk⟩ := withMeta_ok h
  have hpin' : update p.pinned b m.pinned = p.pinned := by rw [hpin, Function.update_eq_self]
  split at hk
  · refine ⟨hb, by omega, ?_⟩
    rw [← hrc]
    split at hk
    · cases hk
      have hv := view_setMeta hb { m with refCount := m.refCount - 1, hash := hash }
      rw [hpin'] at hv
      exact hv
    · cases hk
      have hv := view_setMeta hb { m with refCount := m.refCount - 1 }
      rw [hpin'] at hv
      exact hv
  · cases hk

theorem release_succeeds (hash : UInt64) (hb : b < p.capacity) (h0 : 0 < p.refCount b) :
    ∃ q, p.release b hash = .ok q := by
  unfold release
  obtain ⟨m, hrc, -, hk⟩ := withMeta_of_lt _ hb
  rw [hk, if_pos (by omega)]
  split
  · exact ⟨_, rfl⟩
  · exact ⟨_, rfl⟩

theorem freeCached_ok (h : p.freeCached b = .ok q) :
    b < p.capacity ∧ p.refCount b = 0 ∧
      q.view = { p.view with free := b :: p.free, pinned := update p.pinned b false } := by
  obtain ⟨hb, m, hrc, hpin, hk⟩ := withMeta_ok h
  split at hk
  · cases hk
    refine ⟨hb, by omega, ?_⟩
    have hv := view_setMeta hb { m with pinned := false, hash := 0 }
    rw [show update p.refCount b m.refCount = p.refCount by
      rw [hrc, Function.update_eq_self]] at hv
    exact congrArg (fun v : View => { v with free := b :: p.free }) hv
  · cases hk

theorem freeCached_succeeds (hb : b < p.capacity) (h0 : p.refCount b = 0) :
    ∃ q, p.freeCached b = .ok q := by
  unfold freeCached
  obtain ⟨m, hrc, -, hk⟩ := withMeta_of_lt _ hb
  rw [hk, if_pos (hrc.trans h0)]
  exact ⟨_, rfl⟩

theorem pin_ok (h : p.pin b = .ok q) :
    b < p.capacity ∧ q.view = { p.view with pinned := update p.pinned b true } := by
  obtain ⟨hb, m, hrc, -, hk⟩ := withMeta_ok h
  cases hk
  exact ⟨hb, by rw [view_setMeta hb, hrc, Function.update_eq_self]; rfl⟩

theorem pin_succeeds (hb : b < p.capacity) : ∃ q, p.pin b = .ok q := by
  unfold pin
  obtain ⟨m, -, -, hk⟩ := withMeta_of_lt _ hb
  exact ⟨_, hk⟩

theorem unpin_ok (h : p.unpin b = .ok q) :
    b < p.capacity ∧ q.view = { p.view with pinned := update p.pinned b false } := by
  obtain ⟨hb, m, hrc, -, hk⟩ := withMeta_ok h
  cases hk
  exact ⟨hb, by rw [view_setMeta hb, hrc, Function.update_eq_self]; rfl⟩

theorem unpin_succeeds (hb : b < p.capacity) : ∃ q, p.unpin b = .ok q := by
  unfold unpin
  obtain ⟨m, -, -, hk⟩ := withMeta_of_lt _ hb
  exact ⟨_, hk⟩

theorem clockOrder_lt {b : BlockId} (h : b ∈ p.clockOrder) : b < p.capacity := by
  obtain ⟨offset, ho, rfl⟩ := List.mem_map.mp h
  exact Nat.mod_lt _ (by have := List.mem_range.mp ho; omega)

theorem evictable_iff : p.evictable b = true ↔ p.refCount b = 0 ∧ p.pinned b = false := by
  simp [evictable]

/-- The sweep's order is the block ids turned so that the hand comes first. -/
theorem clockOrder_eq_rotate (p : KvBlockPool) :
    p.clockOrder = (List.range p.capacity).rotate p.clockHand := by
  apply List.ext_getElem
  · simp [clockOrder, capacity]
  · intro i h₁ h₂
    simp [clockOrder, List.getElem_rotate, capacity, Nat.add_comm]

theorem mem_clockOrder : b ∈ p.clockOrder ↔ b < p.capacity := by
  rw [clockOrder_eq_rotate, List.mem_rotate, List.mem_range]

/-- The evictable blocks in the order the sweep meets them. -/
def evictOrder (p : KvBlockPool) : List BlockId := p.clockOrder.filter p.evictable

theorem evictOrder_eq_nil_iff :
    p.evictOrder = [] ↔ ∀ b < p.capacity, p.refCount b = 0 → p.pinned b = true := by
  simp only [evictOrder, List.filter_eq_nil_iff, mem_clockOrder, evictable_iff]
  exact ⟨fun h b hb h0 => by simpa [h0] using h b hb, fun h b hb => by
    rintro ⟨h0, h1⟩
    rw [h b hb h0] at h1
    cases h1⟩

theorem evictOne_none (h : p.evictOne = (none, q)) : q.view = p.view ∧ p.evictOrder = [] := by
  unfold evictOne at h
  split at h
  · rename_i hfind
    cases h
    exact ⟨rfl, List.filter_eq_nil_iff.mpr (List.find?_eq_none.mp hfind)⟩
  · cases h

/-- An eviction takes the head of the eviction order, pushes it on the free list
and changes nothing else of the table. The block stays evictable, and the hand
has passed it, so it is the last of the next order. -/
theorem evictOne_some (h : p.evictOne = (some b, q)) :
    b < p.capacity ∧ p.refCount b = 0 ∧ q.view = { p.view with free := b :: p.free } ∧
      ∃ rest, p.evictOrder = b :: rest ∧ q.evictOrder = rest ++ [b] := by
  unfold evictOne at h
  split at h
  · cases h
  rename_i idx hfind
  cases h
  have hb : b < p.capacity := clockOrder_lt (List.mem_of_find?_eq_some hfind)
  obtain ⟨hev, before, after, horder, hskip⟩ := List.find?_eq_some_iff_append.mp hfind
  obtain ⟨h0, hpin⟩ := evictable_iff.mp hev
  have hview : (p.setMeta b BlockMeta.new).view = p.view := by
    rw [view_setMeta hb]
    simp only [BlockMeta.new, ← h0, ← hpin, Function.update_eq_self]
    rfl
  have hevict : (p.setMeta b BlockMeta.new).evictable = p.evictable := by
    funext c
    have hrc := congrArg View.refCount hview
    have hpn := congrArg View.pinned hview
    simp only [view_refCount, view_pinned] at hrc hpn
    simp only [evictable, hrc, hpn]
  have hbefore : before.filter p.evictable = [] :=
    List.filter_eq_nil_iff.mpr fun c hc => by simpa using hskip c hc
  refine ⟨hb, h0, congrArg (fun v : View => { v with free := b :: p.free }) hview,
    after.filter p.evictable, ?_, ?_⟩
  · simp [evictOrder, horder, hbefore, hev]
  · -- turning past `b` moves what was probed before it, and `b`, to the end
    have hidx : b = (p.clockHand + before.length) % p.capacity := by
      have hget : p.clockOrder[before.length]? = some b := by simp [horder]
      obtain ⟨hlt, hget⟩ := List.getElem?_eq_some_iff.mp hget
      rw [← hget]
      simp [clockOrder, capacity]
    have hclock : (List.range p.capacity).rotate ((b + 1) % p.capacity) =
        after ++ (before ++ [b]) := by
      have hmod : (b + 1) % p.capacity = (p.clockHand + (before.length + 1)) % p.capacity := by
        rw [hidx, Nat.mod_add_mod, Nat.add_assoc]
      have hlen : (before ++ [b]).length = before.length + 1 := by simp
      have hsplit : p.clockOrder = (before ++ [b]) ++ after := by simp [horder]
      have hturn : (List.range p.capacity).rotate (p.clockHand + (before.length + 1)) =
          after ++ (before ++ [b]) := by
        rw [← List.rotate_rotate, ← clockOrder_eq_rotate, hsplit, ← hlen,
          List.rotate_append_length_eq]
      rw [hmod, ← hturn]
      have := List.rotate_mod (List.range p.capacity) (p.clockHand + (before.length + 1))
      rwa [List.length_range] at this
    have hcap := capacity_setMeta p b BlockMeta.new
    rw [evictOrder, clockOrder_eq_rotate]
    show List.filter (p.setMeta b BlockMeta.new).evictable
      ((List.range (p.setMeta b BlockMeta.new).capacity).rotate ((b + 1) % p.capacity)) = _
    rw [hevict, hcap, hclock]
    simp [hbefore, hev]

/-- The three ways a call of `alloc` can go. -/
theorem alloc_cases {r : Option BlockId} (h : p.alloc = .ok (r, q)) :
    (∃ b rest, p.free = b :: rest ∧ b < p.capacity ∧ r = some b ∧
      q.view = { p.view with free := rest, refCount := update p.refCount b 1 }) ∨
    (p.free = [] ∧ p.evictOrder = [] ∧ r = none ∧ q.view = p.view) ∨
    (∃ b rest, p.free = [] ∧ p.evictOrder = b :: rest ∧ p.refCount b = 0 ∧ r = some b ∧
      q.view = { p.view with free := [b], refCount := update p.refCount b 1 }) := by
  unfold alloc at h
  split at h
  · rename_i b rest hfree
    obtain ⟨hb, hr, hv⟩ := handOut_ok h
    exact .inl ⟨b, rest, hfree, hb, hr, hv⟩
  · rename_i hfree
    cases he : p.evictOne with
    | mk o p' =>
      rw [he] at h
      cases o with
      | none =>
        cases h
        obtain ⟨hv, ho⟩ := evictOne_none he
        exact .inr (.inl ⟨hfree, ho, rfl, hv⟩)
      | some b =>
        obtain ⟨-, h0, hv, rest, ho, -⟩ := evictOne_some he
        obtain ⟨-, hr, hv'⟩ := handOut_ok h
        refine .inr (.inr ⟨b, rest, hfree, ho, h0, hr, ?_⟩)
        have hrc := congrArg View.refCount hv
        simp only [view_refCount] at hrc
        rw [hv', hv, hrc, hfree]

theorem evictOne_eq_none_iff : p.evictOne.1 = none ↔ p.evictOrder = [] := by
  constructor
  · intro h
    exact (evictOne_none (q := p.evictOne.2) (Prod.ext h rfl)).2
  · intro h
    cases he : p.evictOne.1 with
    | none => rfl
    | some b =>
      obtain ⟨-, -, -, rest, ho, -⟩ := evictOne_some (b := b) (q := p.evictOne.2) (Prod.ext he rfl)
      rw [h] at ho
      cases ho

/-- What a sequence of evictions leaves: the evicted blocks on the free list. -/
theorem evictLoop_view (target : Nat) (p : KvBlockPool) : (evictLoop target p).2.view =
    { p.view with free := (evictLoop target p).1.reverse ++ p.free } := by
  induction target generalizing p with
  | zero => rfl
  | succ target ih =>
    cases he : p.evictOne with
    | mk o p' =>
      cases o with
      | none => simp only [evictLoop, he, (evictOne_none he).1]; rfl
      | some b =>
        obtain ⟨-, -, hv, -⟩ := evictOne_some he
        have hf := congrArg View.free hv
        simp only [view_free] at hf
        simp only [evictLoop, he, ih p', hv, hf, List.reverse_cons, List.append_assoc,
          List.singleton_append]

/-- As long as the eviction order lasts, its blocks go one after the other. -/
theorem evictLoop_take (target : Nat) (p : KvBlockPool) (h : target ≤ p.evictOrder.length) :
    (evictLoop target p).1 = p.evictOrder.take target := by
  induction target generalizing p with
  | zero => simp [evictLoop]
  | succ target ih =>
    cases he : p.evictOne with
    | mk o p' =>
      cases o with
      | none => simp [(evictOne_none he).2] at h
      | some b =>
        obtain ⟨-, -, -, rest, ho, ho'⟩ := evictOne_some he
        rw [ho, List.length_cons] at h
        have hlen : target ≤ p'.evictOrder.length := by simp [ho']; omega
        simp only [evictLoop, he, ih p' hlen, ho, ho', List.take_succ_cons]
        rw [List.take_append_of_le_length (by omega)]

theorem evictLoop_nil (target : Nat) (h : p.evictOrder = []) : (evictLoop target p).1 = [] := by
  cases target with
  | zero => rfl
  | succ target =>
    have he := evictOne_eq_none_iff.mpr h
    cases hp : p.evictOne with
    | mk o p' =>
      rw [hp] at he
      cases he
      simp [evictLoop, hp]

theorem mem_evictLoop_of_mem_take (target : Nat) (p : KvBlockPool) {c : BlockId}
    (hc : c ∈ p.evictOrder.take target) : c ∈ (evictLoop target p).1 := by
  induction target generalizing p with
  | zero => simp at hc
  | succ target ih =>
    cases he : p.evictOne with
    | mk o p' =>
      cases o with
      | none => simp [(evictOne_none he).2] at hc
      | some b =>
        obtain ⟨-, -, -, rest, ho, ho'⟩ := evictOne_some he
        rw [ho, List.take_succ_cons, List.mem_cons] at hc
        simp only [evictLoop, he, List.mem_cons]
        refine hc.imp_right fun hc => ih p' ?_
        rw [ho', List.take_append]
        exact List.mem_append_left _ hc

/-- Asked for more evictions than there are evictable blocks, the sweep comes
around and evicts its first block again. -/
theorem evictLoop_wraps {target : Nat} (hne : p.evictOrder ≠ [])
    (h : p.evictOrder.length < target) : ¬ (evictLoop target p).1.Nodup := by
  obtain ⟨target, rfl⟩ : ∃ n, target = n + 1 := ⟨target - 1, by omega⟩
  cases he : p.evictOne with
  | mk o p' =>
    cases o with
    | none => exact absurd (evictOne_none he).2 hne
    | some b =>
      obtain ⟨-, -, -, rest, ho, ho'⟩ := evictOne_some he
      rw [ho, List.length_cons] at h
      have hagain : b ∈ (evictLoop target p').1 := by
        apply mem_evictLoop_of_mem_take
        rw [List.take_of_length_le (by simp [ho']; omega), ho']
        simp
      simp only [evictLoop, he, List.nodup_cons]
      exact fun hn => hn.1 hagain

end KvBlockPool

end JustApi.Inference.KvCache
