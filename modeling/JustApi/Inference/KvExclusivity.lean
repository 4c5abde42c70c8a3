import Mathlib.Data.Finset.Basic
import JustApi.Lib.Run
import JustApi.Lib.Result
import JustApi.Inference.KvCache

/-! # Who may hold a block

Runs of the pool's operations under the callers' contract: `retain` and
`release` on referenced blocks, `reclaim` and `freeCached` on blocks that were
released and not taken back since. The free list stays free of duplicates and
of referenced blocks exactly as long as the clock sweep does not put a block on
it that is already there, and does not hand one out from there. -/
namespace JustApi.Inference.KvExclusivity
open JustApi.Lib.Run JustApi.Lib.Result JustApi.Inference.KvCache
open Function (update)

inductive Op where
  | alloc
  | retain (block : BlockId)
  | reclaim (block : BlockId)
  | release (block : BlockId) (hash : UInt64)
  | freeCached (block : BlockId)
  | pin (block : BlockId)
  | unpin (block : BlockId)
  | evict (target : Nat)
  deriving DecidableEq, Repr

/-- A pool with the caller's record of the blocks it released to a count of
zero and has not seen reclaimed, freed or evicted since. -/
structure Tracked where
  pool : KvBlockPool
  released : Finset BlockId

def Tracked.new (capacity : Nat) : Tracked := ⟨.new capacity, ∅⟩

def exec (s : Tracked) : Op → Except Panic Tracked
  | .alloc =>
    match s.pool.alloc with
    | .error e => .error e
    | .ok (r, p) =>
      -- only the slow path evicts
      .ok ⟨p, if s.pool.free = [] then s.released.filter (fun b => r ≠ some b) else s.released⟩
  | .retain b => (s.pool.retain b).map fun p => ⟨p, s.released⟩
  | .reclaim b => (s.pool.reclaim b).map fun p => ⟨p, s.released.erase b⟩
  | .release b hash => (s.pool.release b hash).map fun p =>
      ⟨p, if p.refCount b = 0 then insert b s.released else s.released⟩
  | .freeCached b => (s.pool.freeCached b).map fun p => ⟨p, s.released.erase b⟩
  | .pin b => (s.pool.pin b).map fun p => ⟨p, s.released⟩
  | .unpin b => (s.pool.unpin b).map fun p => ⟨p, s.released⟩
  | .evict target =>
    .ok ⟨(s.pool.evict target).2,
      s.released.filter (fun b => b ∉ (KvBlockPool.evictLoop target s.pool).1)⟩

/-- The operations' own asserts, as the caller respects them. -/
def Respects (s : Tracked) : Op → Prop
  | .retain b => 0 < s.pool.refCount b
  | .release b _ => 0 < s.pool.refCount b
  | .reclaim b => b ∈ s.released
  | .freeCached b => b ∈ s.released
  | _ => True

instance (s : Tracked) (op : Op) : Decidable (Respects s op) :=
  match op with
  | .retain b => inferInstanceAs (Decidable (0 < s.pool.refCount b))
  | .release b _ => inferInstanceAs (Decidable (0 < s.pool.refCount b))
  | .reclaim b => inferInstanceAs (Decidable (b ∈ s.released))
  | .freeCached b => inferInstanceAs (Decidable (b ∈ s.released))
  | .alloc | .pin _ | .unpin _ | .evict _ => .isTrue trivial

def Step (s : Tracked) (op : Op) (t : Tracked) : Prop := Respects s op ∧ exec s op = .ok t

/-- No block is on the free list twice or while it is referenced. -/
def Exclusive (p : KvBlockPool) : Prop := p.free.Nodup ∧ ∀ b ∈ p.free, p.refCount b = 0

/-- The sweep is not used where it goes wrong: `alloc` on an empty free list
finds nothing to evict, and `evict` stays within one turn of the clock over
blocks that are not on the free list already. -/
def SweepSafe (p : KvBlockPool) : Op → Prop
  | .alloc => p.free = [] → p.evictOrder = []
  | .evict target => p.evictOrder = [] ∨
      (target ≤ p.evictOrder.length ∧ ∀ b ∈ p.evictOrder.take target, b ∉ p.free)
  | _ => True

instance (p : KvBlockPool) (op : Op) : Decidable (SweepSafe p op) :=
  match op with
  | .alloc => inferInstanceAs (Decidable (p.free = [] → p.evictOrder = []))
  | .evict target => inferInstanceAs (Decidable (p.evictOrder = [] ∨
      (target ≤ p.evictOrder.length ∧ ∀ b ∈ p.evictOrder.take target, b ∉ p.free)))
  | .retain _ | .release _ _ | .reclaim _ | .freeCached _ | .pin _ | .unpin _ => .isTrue trivial

/-- Exclusivity, with what the caller's record says about the pool. -/
structure Coherent (s : Tracked) : Prop where
  nodup : s.pool.free.Nodup
  unreferenced : ∀ b ∈ s.pool.free, s.pool.refCount b = 0
  released : ∀ b ∈ s.released, s.pool.refCount b = 0 ∧ b ∉ s.pool.free

theorem Coherent.exclusive {s : Tracked} (h : Coherent s) : Exclusive s.pool :=
  ⟨h.nodup, h.unreferenced⟩

theorem coherent_new (capacity : Nat) : Coherent (.new capacity) where
  nodup := List.nodup_range
  unreferenced b hb := by
    simp only [Tracked.new, KvBlockPool.new, List.mem_range] at hb
    simp [Tracked.new, KvBlockPool.new, KvBlockPool.refCount, hb, BlockMeta.new]
  released b hb := by simp [Tracked.new] at hb

/-! ## One step -/

/-- A block `alloc` returns was not referenced. -/
theorem Exclusive.alloc_unreferenced {p q : KvBlockPool} {b : BlockId} (h : Exclusive p)
    (ha : p.alloc = .ok (some b, q)) : p.refCount b = 0 := by
  rcases KvBlockPool.alloc_cases ha with ⟨c, rest, hf, -, hr, -⟩ | ⟨-, -, hr, -⟩ |
    ⟨c, rest, -, -, h0, hr, -⟩
  · cases hr
    exact h.2 b (by simp [hf])
  · cases hr
  · cases hr
    exact h0

/-- A coherent state stays coherent when one block's count changes, provided the
block is not free and leaves the record unless the count is zero. -/
theorem Coherent.update {s t : Tracked} {b : BlockId} {n : Nat} (h : Coherent s)
    (hfree : t.pool.free = s.pool.free) (hrc : t.pool.refCount = update s.pool.refCount b n)
    (hb : b ∉ s.pool.free)
    (hrel : ∀ c ∈ t.released, (c ≠ b ∧ c ∈ s.released) ∨ (c = b ∧ n = 0)) : Coherent t := by
  refine ⟨hfree ▸ h.nodup, ?_, ?_⟩
  · intro c hc
    rw [hfree] at hc
    have hne : c ≠ b := fun he => hb (he ▸ hc)
    rw [hrc, Function.update_of_ne hne]
    exact h.unreferenced c hc
  · intro c hc
    rw [hrc, hfree]
    rcases hrel c hc with ⟨hne, hc⟩ | ⟨rfl, rfl⟩
    · rw [Function.update_of_ne hne]
      exact h.released c hc
    · exact ⟨Function.update_self .., hb⟩

theorem Coherent.same_table {s t : Tracked} (h : Coherent s) (hfree : t.pool.free = s.pool.free)
    (hrc : t.pool.refCount = s.pool.refCount) (hrel : t.released = s.released) : Coherent t :=
  ⟨hfree ▸ h.nodup, by rw [hfree, hrc]; exact h.unreferenced,
    by rw [hfree, hrc, hrel]; exact h.released⟩

theorem Coherent.not_free {s : Tracked} {b : BlockId} (h : Coherent s)
    (hb : 0 < s.pool.refCount b) : b ∉ s.pool.free := by
  intro hm
  have := h.unreferenced b hm
  omega

theorem coherent_alloc {s t : Tracked} (h : Coherent s) (hx : exec s .alloc = .ok t)
    (hsafe : s.pool.free = [] → s.pool.evictOrder = []) : Coherent t := by
  simp only [exec] at hx
  split at hx
  · cases hx
  rename_i r p ha
  cases hx
  rcases KvBlockPool.alloc_cases ha with ⟨b, rest, hf, -, -, hv⟩ | ⟨hf, -, -, hv⟩ |
    ⟨b, rest, hf, ho, -⟩
  · -- the top of the free list leaves it
    have hfree : p.free = rest := congrArg View.free hv
    have hrc : p.refCount = update s.pool.refCount b 1 := congrArg View.refCount hv
    have hne : s.pool.free ≠ [] := by simp [hf]
    have hnd := h.nodup
    rw [hf, List.nodup_cons] at hnd
    refine ⟨hfree ▸ hnd.2, ?_, ?_⟩
    · intro c hc
      rw [hfree] at hc
      have hcb : c ≠ b := fun he => hnd.1 (he ▸ hc)
      rw [hrc, Function.update_of_ne hcb]
      exact h.unreferenced c (by simp [hf, hc])
    · intro c hc
      rw [if_neg hne] at hc
      obtain ⟨h0, hnot⟩ := h.released c hc
      rw [hf, List.mem_cons, not_or] at hnot
      rw [hrc, hfree, Function.update_of_ne hnot.1]
      exact ⟨h0, hnot.2⟩
  · have hfree : p.free = s.pool.free := congrArg View.free hv
    have hrc : p.refCount = s.pool.refCount := congrArg View.refCount hv
    refine ⟨hfree ▸ h.nodup, by rw [hfree, hrc]; exact h.unreferenced, ?_⟩
    intro c hc
    rw [if_pos hf, Finset.mem_filter] at hc
    rw [hrc, hfree]
    exact h.released c hc.1
  · rw [hsafe hf] at ho
    cases ho

theorem coherent_evict {s t : Tracked} {target : Nat} (h : Coherent s)
    (hx : exec s (.evict target) = .ok t) (hsafe : SweepSafe s.pool (.evict target)) :
    Coherent t := by
  cases hx
  have hv := KvBlockPool.evictLoop_view target s.pool
  have hfree := congrArg View.free hv
  have hrc := congrArg View.refCount hv
  simp only [KvBlockPool.view_free, KvBlockPool.view_refCount] at hfree hrc
  -- what went is part of the eviction order, and none of it was free
  have hgone : (KvBlockPool.evictLoop target s.pool).1 = s.pool.evictOrder.take target ∧
      ∀ b ∈ s.pool.evictOrder.take target, b ∉ s.pool.free := by
    rcases hsafe with hnil | ⟨hlen, hnew⟩
    · simp [KvBlockPool.evictLoop_nil target hnil, hnil]
    · exact ⟨KvBlockPool.evictLoop_take target s.pool hlen, hnew⟩
  obtain ⟨hgone, hnew⟩ := hgone
  have horder : s.pool.evictOrder.Nodup := by
    refine List.Nodup.filter _ ?_
    rw [KvBlockPool.clockOrder_eq_rotate]
    exact List.nodup_rotate.mpr List.nodup_range
  refine ⟨?_, ?_, ?_⟩
  · show (KvBlockPool.evictLoop target s.pool).2.free.Nodup
    rw [hfree, hgone]
    refine List.nodup_append'.mpr ⟨List.nodup_reverse.mpr (horder.sublist (List.take_sublist ..)),
      h.nodup, ?_⟩
    intro c hc
    exact hnew c (List.mem_reverse.mp hc)
  · intro c hc
    change c ∈ (KvBlockPool.evictLoop target s.pool).2.free at hc
    show (KvBlockPool.evictLoop target s.pool).2.refCount c = 0
    rw [hrc]
    rw [hfree, hgone, List.mem_append, List.mem_reverse] at hc
    rcases hc with hc | hc
    · have hev := (List.mem_filter.mp (List.mem_of_mem_take hc)).2
      exact (KvBlockPool.evictable_iff.mp hev).1
    · exact h.unreferenced c hc
  · intro c hc
    obtain ⟨hc, hstay⟩ := Finset.mem_filter.mp hc
    obtain ⟨h0, hnot⟩ := h.released c hc
    show (KvBlockPool.evictLoop target s.pool).2.refCount c = 0 ∧
      c ∉ (KvBlockPool.evictLoop target s.pool).2.free
    rw [hrc, hfree, List.mem_append, List.mem_reverse, not_or]
    exact ⟨h0, hstay, hnot⟩

/-- Releasing the last reference leaves the block released, another one nothing. -/
theorem coherent_release {s t : Tracked} {b : BlockId} {hash : UInt64} (h : Coherent s)
    (hresp : Respects s (.release b hash)) (hx : exec s (.release b hash) = .ok t) : Coherent t := by
  obtain ⟨p, hp, rfl⟩ := map_eq_ok.mp hx
  obtain ⟨-, -, hv⟩ := KvBlockPool.release_ok hp
  have hrc : p.refCount = update s.pool.refCount b (s.pool.refCount b - 1) :=
    congrArg View.refCount hv
  refine h.update (congrArg View.free hv) hrc (h.not_free hresp) ?_
  intro c hc
  by_cases hcb : c = b
  · refine .inr ⟨hcb, ?_⟩
    subst hcb
    by_contra hn
    have hp0 : p.refCount c ≠ 0 := by rw [hrc, Function.update_self]; exact hn
    rw [if_neg hp0] at hc
    have := (h.released c hc).1
    omega
  · refine .inl ⟨hcb, ?_⟩
    split at hc
    · exact (Finset.mem_insert.mp hc).resolve_left hcb
    · exact hc

/-- A released block joins the free list. -/
theorem coherent_freeCached {s t : Tracked} {b : BlockId} (h : Coherent s)
    (hresp : Respects s (.freeCached b)) (hx : exec s (.freeCached b) = .ok t) : Coherent t := by
  obtain ⟨p, hp, rfl⟩ := map_eq_ok.mp hx
  obtain ⟨-, h0, hv⟩ := KvBlockPool.freeCached_ok hp
  have hfree : p.free = b :: s.pool.free := congrArg View.free hv
  have hrc : p.refCount = s.pool.refCount := congrArg View.refCount hv
  refine ⟨?_, ?_, ?_⟩
  · rw [hfree]
    exact List.nodup_cons.mpr ⟨(h.released b hresp).2, h.nodup⟩
  · intro c hc
    rw [hfree, List.mem_cons] at hc
    rw [hrc]
    rcases hc with rfl | hc
    · exact h0
    · exact h.unreferenced c hc
  · intro c hc
    obtain ⟨hne, hc⟩ := Finset.mem_erase.mp hc
    obtain ⟨hc0, hnot⟩ := h.released c hc
    rw [hrc, hfree, List.mem_cons, not_or]
    exact ⟨hc0, hne, hnot⟩

/-- A step under the contract keeps a state coherent when the sweep is safe. -/
theorem coherent_step {s t : Tracked} {op : Op} (h : Coherent s) (hstep : Step s op t)
    (hsafe : SweepSafe s.pool op) : Coherent t := by
  obtain ⟨hresp, hx⟩ := hstep
  cases op with
  | alloc => exact coherent_alloc h hx hsafe
  | evict target => exact coherent_evict h hx hsafe
  | retain b =>
    obtain ⟨p, hp, rfl⟩ := map_eq_ok.mp hx
    obtain ⟨-, -, hv⟩ := KvBlockPool.retain_ok hp
    refine h.update (congrArg View.free hv) (congrArg View.refCount hv) (h.not_free hresp) ?_
    intro c hc
    refine .inl ⟨?_, hc⟩
    rintro rfl
    have := (h.released c hc).1
    simp only [Respects] at hresp
    omega
  | reclaim b =>
    obtain ⟨p, hp, rfl⟩ := map_eq_ok.mp hx
    obtain ⟨-, -, hv⟩ := KvBlockPool.reclaim_ok hp
    refine h.update (congrArg View.free hv) (congrArg View.refCount hv) (h.released b hresp).2 ?_
    exact fun c hc => .inl (Finset.mem_erase.mp hc)
  | release b hash => exact coherent_release h hresp hx
  | freeCached b => exact coherent_freeCached h hresp hx
  | pin b =>
    obtain ⟨p, hp, rfl⟩ := map_eq_ok.mp hx
    obtain ⟨-, hv⟩ := KvBlockPool.pin_ok hp
    exact h.same_table (congrArg View.free hv) (congrArg View.refCount hv) rfl
  | unpin b =>
    obtain ⟨p, hp, rfl⟩ := map_eq_ok.mp hx
    obtain ⟨-, hv⟩ := KvBlockPool.unpin_ok hp
    exact h.same_table (congrArg View.free hv) (congrArg View.refCount hv) rfl

/-- The other way round: a step after which the free list is still exclusive
used the sweep safely. -/
theorem sweepSafe_of_exclusive {s t : Tracked} {op : Op} (hstep : Step s op t)
    (hex : Exclusive t.pool) : SweepSafe s.pool op := by
  obtain ⟨-, hx⟩ := hstep
  cases op with
  | alloc =>
    intro hnil
    simp only [exec] at hx
    split at hx
    · cases hx
    rename_i r p ha
    cases hx
    rcases KvBlockPool.alloc_cases ha with ⟨b, rest, hf, -⟩ | ⟨-, ho, -⟩ |
      ⟨b, rest, -, -, -, -, hv⟩
    · rw [hnil] at hf; cases hf
    · exact ho
    · -- the evicted block is handed out and on the free list
      have hfree : p.free = [b] := congrArg View.free hv
      have hrc : p.refCount = update s.pool.refCount b 1 := congrArg View.refCount hv
      have h0 := hex.2 b (by simp [hfree])
      rw [show p.refCount b = 1 by rw [hrc, Function.update_self]] at h0
      cases h0
  | evict target =>
    cases hx
    have hv := KvBlockPool.evictLoop_view target s.pool
    have hfree := congrArg View.free hv
    simp only [KvBlockPool.view_free] at hfree
    have hnd : (KvBlockPool.evictLoop target s.pool).2.free.Nodup := hex.1
    rw [hfree, List.nodup_append', List.nodup_reverse] at hnd
    obtain ⟨hgone, -, hdisj⟩ := hnd
    by_cases hnil : s.pool.evictOrder = []
    · exact .inl hnil
    · have hlen : target ≤ s.pool.evictOrder.length := by
        by_contra hgt
        exact KvBlockPool.evictLoop_wraps hnil (by omega) hgone
      refine .inr ⟨hlen, fun b hb hbf => ?_⟩
      exact hdisj (List.mem_reverse.mpr (KvBlockPool.mem_evictLoop_of_mem_take _ _ hb)) hbf
  | _ => trivial

/-! ## Whole runs -/

/-- **The free list is exclusive exactly when the sweep is safe.** In every run
of the pool's operations under the callers' contract, no state has a duplicate
or a referenced block on its free list, and so `alloc` never returns a block
that is still referenced, if and only if every `alloc` and `evict` of the run
meets `SweepSafe`. -/
theorem free_list_exclusive_iff (capacity : Nat) (tr : List (Op × Tracked))
    (hrun : Along Step (.new capacity) tr) :
    (∀ s ∈ visited (.new capacity) tr, Exclusive s.pool ∧
      ∀ b q, s.pool.alloc = .ok (some b, q) → s.pool.refCount b = 0) ↔
    Along (fun s op _ => SweepSafe s.pool op) (.new capacity) tr :=
  Along.forall_visited_iff (I := Coherent)
    (fun _ _ _ h hstep hsafe => coherent_step h hstep hsafe)
    (fun _ _ _ _ hstep hex => sweepSafe_of_exclusive hstep hex.1)
    (fun _ h => ⟨h.exclusive, fun _ _ ha => h.exclusive.alloc_unreferenced ha⟩)
    (coherent_new capacity) hrun

/-- A run that allocates, releases and frees a block of a pool of one. -/
theorem free_list_exclusive_release_run :
    ∃ tr : List (Op × Tracked), tr.map Prod.fst = [.alloc, .release 0 42, .freeCached 0, .alloc] ∧
      ∀ s ∈ visited (.new 1) tr, Exclusive s.pool ∧
        ∀ b q, s.pool.alloc = .ok (some b, q) → s.pool.refCount b = 0 := by
  have hrun : Along Step (.new 1) [(.alloc, _), (.release 0 42, _), (.freeCached 0, _), (.alloc, _)] :=
    ⟨⟨trivial, rfl⟩, ⟨by decide, rfl⟩, ⟨by decide, rfl⟩, ⟨trivial, rfl⟩, trivial⟩
  refine ⟨_, rfl, (free_list_exclusive_iff 1 _ hrun).mpr ?_⟩
  exact ⟨by decide, by decide, by decide, by decide, trivial⟩

/-- Two blocks are handed out and the first is released to the cache. The next
`alloc` evicts it, hands it out and leaves it on the free list; the one after
that hands it out again while it is referenced. -/
theorem alloc_returns_referenced_block :
    ∃ tr : List (Op × Tracked), tr.map Prod.fst = [.alloc, .alloc, .release 0 42, .alloc] ∧
      Along Step (.new 2) tr ∧ ∃ s ∈ visited (.new 2) tr, ¬ Exclusive s.pool ∧
        ∃ q, s.pool.alloc = .ok (some 0, q) ∧ s.pool.refCount 0 = 1 := by
  have hrun : Along Step (.new 2) [(.alloc, _), (.alloc, _), (.release 0 42, _), (.alloc, _)] :=
    ⟨⟨trivial, rfl⟩, ⟨trivial, rfl⟩, ⟨by decide, rfl⟩, ⟨trivial, rfl⟩, trivial⟩
  refine ⟨_, rfl, hrun, _, List.mem_cons_of_mem _ (List.mem_of_mem_getLast? rfl), ?_, _, rfl, rfl⟩
  intro hex
  have := hex.2 0 (by decide)
  exact absurd this (by decide)

end JustApi.Inference.KvExclusivity
