import JustApi.Inference.KvExclusivity

/-! # What the pool's counters say

`allocatedCount` and `cachedCount` are kept up to date by each operation on its own.
They agree with the blocks as long as no block is freed from the cache and the clock
sweep takes no block that is on the free list. -/
namespace JustApi.Inference.PoolAccounting
open JustApi.Lib.Run JustApi.Lib.Result JustApi.Inference.KvCache JustApi.Inference.KvExclusivity
open Function (update)

/-- How many blocks meet a condition. -/
def count (p : KvBlockPool) (f : BlockId → Bool) : Nat := (List.range p.capacity).countP f

/-- Blocks with `ref_count > 0`. -/
def referenced (p : KvBlockPool) : Nat := count p fun b => 0 < p.refCount b

/-- Blocks with `ref_count == 0` that are not on the free list. -/
def tracked (p : KvBlockPool) : Nat := count p fun b => p.refCount b = 0 ∧ b ∉ p.free

/-- The pool's own figures are those of its blocks. -/
def Accurate (p : KvBlockPool) : Prop :=
  p.inUse = referenced p ∧ p.cached = tracked p ∧ p.allocated + p.available = p.capacity

/-- No block is freed from the cache, and the sweep is safe. -/
def Counted (p : KvBlockPool) : Op → Prop
  | .freeCached _ => False
  | op => SweepSafe p op

instance (p : KvBlockPool) (op : Op) : Decidable (Counted p op) :=
  match op with
  | .freeCached _ => .isFalse id
  | .alloc => inferInstanceAs (Decidable (SweepSafe p .alloc))
  | .evict target => inferInstanceAs (Decidable (SweepSafe p (.evict target)))
  | .retain _ | .release _ _ | .reclaim _ | .pin _ | .unpin _ => .isTrue trivial

/-! ## Counting blocks -/

/-- Two conditions that differ at one block only. -/
theorem countP_range_of_ne {n b : Nat} {f g : Nat → Bool} (hb : b < n)
    (h : ∀ c, c ≠ b → f c = g c) :
    (List.range n).countP f + (g b).toNat = (List.range n).countP g + (f b).toNat := by
  induction n with
  | zero => omega
  | succ n ih =>
    simp only [List.range_succ, List.countP_append, List.countP_singleton]
    by_cases hn : b = n
    · subst hn
      have hsame : (List.range b).countP f = (List.range b).countP g := by
        refine List.countP_congr fun c hc => ?_
        rw [h c (Nat.ne_of_lt (List.mem_range.mp hc))]
      rw [hsame]
      cases f b <;> cases g b <;> simp
    · have := ih (by omega)
      rw [h n (Ne.symm hn)]
      omega

section Counts

variable {p q : KvBlockPool} {b : BlockId}

/-- A block's count changes from one kind to the other, or stays of its kind. -/
theorem count_of_ne {f g : BlockId → Bool} (hcap : q.capacity = p.capacity) (hb : b < p.capacity)
    (h : ∀ c, c ≠ b → f c = g c) : count q f + (g b).toNat = count p g + (f b).toNat := by
  unfold count
  rw [hcap]
  exact countP_range_of_ne hb h

theorem count_congr {f g : BlockId → Bool} (hcap : q.capacity = p.capacity) (h : f = g) :
    count q f = count p g := by
  unfold count
  rw [hcap, h]

theorem referenced_of_update {n : Nat} (hcap : q.capacity = p.capacity) (hb : b < p.capacity)
    (hrc : q.refCount = update p.refCount b n) :
    referenced q + (decide (0 < p.refCount b)).toNat = referenced p + (decide (0 < n)).toNat := by
  have := count_of_ne (q := q) (f := fun c => 0 < q.refCount c) (g := fun c => 0 < p.refCount c)
    hcap hb fun c hc => by rw [hrc, Function.update_of_ne hc]
  rwa [hrc, Function.update_self, ← hrc] at this

theorem tracked_of_update {n : Nat} (hcap : q.capacity = p.capacity) (hb : b < p.capacity)
    (hrc : q.refCount = update p.refCount b n) (hfree : ∀ c, c ≠ b → (c ∈ q.free ↔ c ∈ p.free)) :
    tracked q + (decide (p.refCount b = 0 ∧ b ∉ p.free)).toNat =
      tracked p + (decide (n = 0 ∧ b ∉ q.free)).toNat := by
  have hn : q.refCount b = n := by rw [hrc, Function.update_self]
  rw [← hn]
  exact count_of_ne (f := fun c => q.refCount c = 0 ∧ c ∉ q.free)
    (g := fun c => p.refCount c = 0 ∧ c ∉ p.free) hcap hb fun c hc => by
      simp only [hrc, Function.update_of_ne hc, hfree c hc]

theorem tracked_pos (hb : b < p.capacity) (h0 : p.refCount b = 0) (hfree : b ∉ p.free) :
    0 < tracked p :=
  List.countP_pos_iff.mpr ⟨b, List.mem_range.mpr hb, by simp [h0, hfree]⟩

/-- The counts do not see pins and hashes. -/
theorem counts_of_same (hcap : q.capacity = p.capacity) (hrc : q.refCount = p.refCount)
    (hfree : q.free = p.free) : referenced q = referenced p ∧ tracked q = tracked p :=
  ⟨count_congr hcap (by rw [hrc]), count_congr hcap (by rw [hrc, hfree])⟩

/-- Every block is referenced, tracked or free. -/
theorem counts_partition (hfree : ∀ b ∈ p.free, b < p.capacity ∧ p.refCount b = 0) :
    referenced p + tracked p + p.free.dedup.length = p.capacity := by
  have hlen : (List.range p.capacity).countP (fun b => b ∈ p.free) = p.free.dedup.length := by
    rw [List.countP_eq_length_filter]
    refine List.Perm.length_eq ?_
    refine (List.perm_ext_iff_of_nodup (List.nodup_range.filter _) p.free.nodup_dedup).mpr
      fun b => ?_
    simp only [List.mem_filter, List.mem_range, decide_eq_true_eq, List.mem_dedup,
      and_iff_right_iff_imp]
    exact fun hb => (hfree b hb).1
  have hsplit : ∀ bs : List BlockId, bs.countP (fun b => 0 < p.refCount b) +
      bs.countP (fun b => p.refCount b = 0 ∧ b ∉ p.free) + bs.countP (fun b => b ∈ p.free) =
        bs.length := by
    intro bs
    induction bs with
    | nil => rfl
    | cons b rest ih =>
      have hnot : b ∈ p.free → p.refCount b = 0 := fun hb => (hfree b hb).2
      simp only [List.countP_cons, List.length_cons, decide_eq_true_eq]
      split <;> split <;> split <;> first | omega | (exfalso; grind)
  have := hsplit (List.range p.capacity)
  rw [hlen, List.length_range] at this
  exact this

end Counts

/-! ## The counters -/

section Counters

variable {p q : KvBlockPool} {b : BlockId}

theorem evictOne_counters (h : p.evictOne = (some b, q)) :
    q.allocatedCount = p.allocatedCount - 1 ∧ q.cachedCount = p.cachedCount - 1 := by
  unfold KvBlockPool.evictOne at h
  split at h
  · cases h
  · cases h
    exact ⟨rfl, rfl⟩

theorem evictOne_none_counters (h : p.evictOne = (none, q)) :
    q.allocatedCount = p.allocatedCount ∧ q.cachedCount = p.cachedCount := by
  unfold KvBlockPool.evictOne at h
  split at h
  · cases h
    exact ⟨rfl, rfl⟩
  · cases h

theorem handOut_counters {r : Option BlockId} (h : p.handOut b = .ok (r, q)) :
    q.allocatedCount = p.allocatedCount + 1 ∧ q.cachedCount = p.cachedCount := by
  obtain ⟨-, m, -, -, hk⟩ := KvBlockPool.withMeta_ok h
  cases hk
  exact ⟨rfl, rfl⟩

/-- An allocation from the free list counts one block more; one that evicts
first leaves `allocatedCount` where it was. -/
theorem alloc_counters {r : Option BlockId} (h : p.alloc = .ok (r, q)) :
    (p.free ≠ [] → q.allocatedCount = p.allocatedCount + 1 ∧ q.cachedCount = p.cachedCount) ∧
    (p.free = [] → r = none →
      q.allocatedCount = p.allocatedCount ∧ q.cachedCount = p.cachedCount) ∧
    (p.free = [] → r ≠ none → q.allocatedCount = p.allocatedCount - 1 + 1) := by
  unfold KvBlockPool.alloc at h
  split at h
  · rename_i b rest hfree
    have := handOut_counters (p := { p with free := rest }) h
    exact ⟨fun _ => this, by simp [hfree], by simp [hfree]⟩
  · rename_i hfree
    refine ⟨absurd hfree, fun _ hr => ?_, fun _ hr => ?_⟩
    · split at h
      · rename_i p' he
        cases h
        exact evictOne_none_counters he
      · rw [hr] at h
        cases (KvBlockPool.handOut_ok h).2.1
    · split at h
      · cases h
        exact absurd rfl hr
      · rename_i b p' he
        rw [(handOut_counters h).1, (evictOne_counters he).1]

theorem retain_counters (h : p.retain b = .ok q) :
    q.allocatedCount = p.allocatedCount ∧ q.cachedCount = p.cachedCount := by
  obtain ⟨-, m, -, -, hk⟩ := KvBlockPool.withMeta_ok h
  split at hk <;> cases hk
  exact ⟨rfl, rfl⟩

theorem reclaim_counters (h : p.reclaim b = .ok q) :
    q.allocatedCount = p.allocatedCount ∧ q.cachedCount = p.cachedCount - 1 := by
  obtain ⟨-, m, -, -, hk⟩ := KvBlockPool.withMeta_ok h
  split at hk <;> cases hk
  exact ⟨rfl, rfl⟩

theorem release_counters {hash : UInt64} (h : p.release b hash = .ok q) :
    q.allocatedCount = p.allocatedCount ∧
      q.cachedCount = p.cachedCount + (decide (p.refCount b - 1 = 0)).toNat := by
  obtain ⟨-, m, hrc, -, hk⟩ := KvBlockPool.withMeta_ok h
  rw [← hrc]
  split at hk
  · split at hk
    · rename_i h1
      cases hk
      exact ⟨rfl, by simp [h1]⟩
    · rename_i h1
      cases hk
      exact ⟨rfl, by simp [h1]; rfl⟩
  · cases hk

theorem freeCached_counters (h : p.freeCached b = .ok q) :
    q.allocatedCount = p.allocatedCount ∧ q.cachedCount = p.cachedCount - 1 := by
  obtain ⟨-, m, -, -, hk⟩ := KvBlockPool.withMeta_ok h
  split at hk <;> cases hk
  exact ⟨rfl, rfl⟩

theorem pin_counters (h : p.pin b = .ok q) :
    q.allocatedCount = p.allocatedCount ∧ q.cachedCount = p.cachedCount := by
  obtain ⟨-, m, -, -, hk⟩ := KvBlockPool.withMeta_ok h
  cases hk
  exact ⟨rfl, rfl⟩

theorem unpin_counters (h : p.unpin b = .ok q) :
    q.allocatedCount = p.allocatedCount ∧ q.cachedCount = p.cachedCount := by
  obtain ⟨-, m, -, -, hk⟩ := KvBlockPool.withMeta_ok h
  cases hk
  exact ⟨rfl, rfl⟩

theorem evictLoop_counters (target : Nat) (p : KvBlockPool) :
    (KvBlockPool.evictLoop target p).2.allocatedCount =
      p.allocatedCount - (KvBlockPool.evictLoop target p).1.length ∧
    (KvBlockPool.evictLoop target p).2.cachedCount =
      p.cachedCount - (KvBlockPool.evictLoop target p).1.length := by
  induction target generalizing p with
  | zero => exact ⟨rfl, rfl⟩
  | succ target ih =>
    cases he : p.evictOne with
    | mk r q =>
      cases r with
      | none =>
        simp only [KvBlockPool.evictLoop, he]
        exact evictOne_none_counters he
      | some b =>
        obtain ⟨ha, hc⟩ := evictOne_counters he
        obtain ⟨hla, hlc⟩ := ih q
        simp only [KvBlockPool.evictLoop, he, List.length_cons]
        omega

end Counters

/-! ## One step -/

/-- A coherent state whose counters count. -/
structure Settled (s : Tracked) : Prop where
  coherent : Coherent s
  inPool : ∀ b ∈ s.pool.free, b < s.pool.capacity
  allocated : s.pool.allocatedCount = referenced s.pool + tracked s.pool
  cached : s.pool.cachedCount = tracked s.pool

theorem Settled.free_ok {s : Tracked} (h : Settled s) :
    ∀ b ∈ s.pool.free, b < s.pool.capacity ∧ s.pool.refCount b = 0 :=
  fun b hb => ⟨h.inPool b hb, h.coherent.unreferenced b hb⟩

theorem Settled.partition {s : Tracked} (h : Settled s) :
    referenced s.pool + tracked s.pool + s.pool.available = s.pool.capacity := by
  have := counts_partition h.free_ok
  rwa [h.coherent.nodup.dedup] at this

theorem Settled.accurate {s : Tracked} (h : Settled s) : Accurate s.pool := by
  refine ⟨?_, h.cached, ?_⟩
  · show s.pool.allocatedCount - s.pool.cachedCount = referenced s.pool
    rw [h.allocated, h.cached, Nat.add_sub_cancel]
  · show s.pool.allocatedCount + s.pool.available = s.pool.capacity
    rw [h.allocated, h.partition]

theorem settled_new (capacity : Nat) : Settled (.new capacity) := by
  have hpool : ∀ b ∈ (KvBlockPool.new capacity).free, b < (KvBlockPool.new capacity).capacity := by
    intro b hb
    simpa [KvBlockPool.new, KvBlockPool.capacity] using hb
  have hcoh := coherent_new capacity
  -- the free list is the whole pool
  have hall : referenced (.new capacity) + tracked (.new capacity) = 0 := by
    have := counts_partition fun b hb => ⟨hpool b hb, hcoh.unreferenced b hb⟩
    rw [show (KvBlockPool.new capacity).free.dedup = _ from hcoh.nodup.dedup] at this
    simp only [Tracked.new, KvBlockPool.new, KvBlockPool.capacity, List.length_range,
      List.length_replicate] at this ⊢
    omega
  refine ⟨hcoh, hpool, hall.symm, ?_⟩
  show 0 = tracked (.new capacity)
  omega

/-- The count of one block that is not free changes, and the counters with it. -/
theorem Settled.update {s t : Tracked} {b : BlockId} {n : Nat} (h : Settled s)
    (hcoh : Coherent t) (hb : b < s.pool.capacity) (hnot : b ∉ s.pool.free)
    (hv : t.pool.view = { s.pool.view with refCount := update s.pool.refCount b n })
    (hall : t.pool.allocatedCount = s.pool.allocatedCount)
    (hcached : t.pool.cachedCount + (decide (s.pool.refCount b = 0)).toNat =
      s.pool.cachedCount + (decide (n = 0)).toNat) : Settled t := by
  have hcap : t.pool.capacity = s.pool.capacity := congrArg View.capacity hv
  have hfree : t.pool.free = s.pool.free := congrArg View.free hv
  have hrc : t.pool.refCount = Function.update s.pool.refCount b n := congrArg View.refCount hv
  have hr := referenced_of_update hcap hb hrc
  have ht := tracked_of_update hcap hb hrc fun c _ => by rw [hfree]
  simp only [hfree, hnot, not_false_eq_true, and_true] at ht
  have hpos : ∀ k : Nat, (decide (0 < k)).toNat + (decide (k = 0)).toNat = 1 := by
    intro k
    cases k <;> rfl
  have h1 := hpos (s.pool.refCount b)
  have h2 := hpos n
  have ha := h.allocated
  have hc := h.cached
  refine ⟨hcoh, ?_, by omega, by omega⟩
  intro c hc
  rw [hfree] at hc
  rw [hcap]
  exact h.inPool c hc

/-- Pins, and a count that stays positive, do not show. -/
theorem Settled.same {s t : Tracked} (h : Settled s) (hcoh : Coherent t)
    (hcap : t.pool.capacity = s.pool.capacity) (hfree : t.pool.free = s.pool.free)
    (hrc : t.pool.refCount = s.pool.refCount)
    (hcounters : t.pool.allocatedCount = s.pool.allocatedCount ∧
      t.pool.cachedCount = s.pool.cachedCount) : Settled t := by
  obtain ⟨hr, ht⟩ := counts_of_same hcap hrc hfree
  obtain ⟨ha, hc⟩ := hcounters
  refine ⟨hcoh, ?_, by rw [ha, hr, ht, h.allocated], by rw [hc, ht, h.cached]⟩
  rw [hcap, hfree]
  exact h.inPool

theorem settled_alloc {s t : Tracked} (h : Settled s) (hx : exec s .alloc = .ok t)
    (hsafe : s.pool.free = [] → s.pool.evictOrder = []) : Settled t := by
  have hcoh := coherent_alloc h.coherent hx hsafe
  simp only [exec] at hx
  split at hx
  · cases hx
  rename_i r p ha
  cases hx
  obtain ⟨hpop, hnone, -⟩ := alloc_counters ha
  rcases KvBlockPool.alloc_cases ha with ⟨b, rest, hf, hb, -, hv⟩ | ⟨hf, -, hr, hv⟩ |
    ⟨b, rest, hf, ho, -⟩
  · -- the top of the free list becomes referenced
    have hcap : p.capacity = s.pool.capacity := congrArg View.capacity hv
    have hfree : p.free = rest := congrArg View.free hv
    have hrc : p.refCount = update s.pool.refCount b 1 := congrArg View.refCount hv
    have hb0 := h.coherent.unreferenced b (by simp [hf])
    have hr := referenced_of_update hcap hb hrc
    have ht := tracked_of_update hcap hb hrc fun c hne => by simp [hfree, hf, hne]
    simp only [hb0, hf, List.mem_cons, true_or, not_true_eq_false, and_false, decide_false,
      Nat.lt_irrefl, Nat.one_ne_zero, false_and, Nat.lt_add_one, decide_true, Bool.toNat_true,
      Bool.toNat_false, Nat.add_zero] at hr ht
    obtain ⟨hall, hcached⟩ := hpop (by simp [hf])
    refine ⟨hcoh, ?_, ?_, ?_⟩
    · intro c hc
      change c ∈ p.free at hc
      show c < p.capacity
      rw [hfree] at hc
      rw [hcap]
      exact h.inPool c (by simp [hf, hc])
    · show p.allocatedCount = referenced p + tracked p
      have := h.allocated
      omega
    · show p.cachedCount = tracked p
      rw [hcached, ht, h.cached]
  · exact h.same hcoh (congrArg View.capacity hv) (congrArg View.free hv)
      (congrArg View.refCount hv) (hnone hf hr)
  · rw [hsafe hf] at ho
    cases ho

theorem evictLoop_mem (target : Nat) (p : KvBlockPool) :
    ∀ b ∈ (KvBlockPool.evictLoop target p).1, b < p.capacity ∧ p.refCount b = 0 := by
  induction target generalizing p with
  | zero => intro b hb; cases hb
  | succ target ih =>
    cases he : p.evictOne with
    | mk r q =>
      cases r with
      | none => simp [KvBlockPool.evictLoop, he]
      | some b =>
        obtain ⟨hb, h0, hv, -⟩ := KvBlockPool.evictOne_some he
        have hcap : q.capacity = p.capacity := congrArg View.capacity hv
        have hrc : q.refCount = p.refCount := congrArg View.refCount hv
        intro c hc
        simp only [KvBlockPool.evictLoop, he, List.mem_cons] at hc
        rcases hc with rfl | hc
        · exact ⟨hb, h0⟩
        · simpa only [hcap, hrc] using ih q c hc

/-- What `evict` does to the counts: the blocks it puts on the free list, each
counted once, are no longer tracked. -/
theorem evict_counts {s : Tracked} (h : Settled s) (target : Nat) :
    let out := KvBlockPool.evictLoop target s.pool
    referenced out.2 = referenced s.pool ∧
    tracked out.2 + out.2.free.dedup.length = tracked s.pool + s.pool.available ∧
    out.2.available = out.1.length + s.pool.available := by
  intro out
  have hv := KvBlockPool.evictLoop_view target s.pool
  have hcap : out.2.capacity = s.pool.capacity := congrArg View.capacity hv
  have hfree : out.2.free = out.1.reverse ++ s.pool.free := congrArg View.free hv
  have hrc : out.2.refCount = s.pool.refCount := congrArg View.refCount hv
  have hr : referenced out.2 = referenced s.pool := count_congr hcap (by rw [hrc])
  have hok : ∀ b ∈ out.2.free, b < out.2.capacity ∧ out.2.refCount b = 0 := by
    intro b hb
    rw [hfree, List.mem_append, List.mem_reverse] at hb
    rw [hcap, hrc]
    rcases hb with hb | hb
    · exact evictLoop_mem target s.pool b hb
    · exact h.free_ok b hb
  have hpart := counts_partition hok
  have := h.partition
  refine ⟨hr, by omega, ?_⟩
  show out.2.free.length = out.1.length + s.pool.free.length
  rw [hfree, List.length_append, List.length_reverse]

theorem settled_evict {s t : Tracked} {target : Nat} (h : Settled s)
    (hx : exec s (.evict target) = .ok t) (hsafe : SweepSafe s.pool (.evict target)) :
    Settled t := by
  have hcoh := coherent_evict h.coherent hx hsafe
  cases hx
  have hv := KvBlockPool.evictLoop_view target s.pool
  obtain ⟨hr, ht, hav⟩ := evict_counts h target
  obtain ⟨ha, hc⟩ := evictLoop_counters target s.pool
  have hnd : (KvBlockPool.evictLoop target s.pool).2.free.Nodup := hcoh.nodup
  rw [hnd.dedup] at ht
  change _ + KvBlockPool.available _ = _ at ht
  have hall := h.allocated
  have hcached := h.cached
  refine ⟨hcoh, ?_, ?_, ?_⟩
  · intro b hb
    change b ∈ (KvBlockPool.evictLoop target s.pool).2.free at hb
    show b < (KvBlockPool.evictLoop target s.pool).2.capacity
    rw [show (KvBlockPool.evictLoop target s.pool).2.free = _ from congrArg View.free hv] at hb
    rw [show (KvBlockPool.evictLoop target s.pool).2.capacity = s.pool.capacity from
      congrArg View.capacity hv]
    rcases List.mem_append.mp hb with hb | hb
    · exact (evictLoop_mem target s.pool b (List.mem_reverse.mp hb)).1
    · exact h.inPool b hb
  · show (KvBlockPool.evictLoop target s.pool).2.allocatedCount =
      referenced (KvBlockPool.evictLoop target s.pool).2 +
        tracked (KvBlockPool.evictLoop target s.pool).2
    omega
  · show (KvBlockPool.evictLoop target s.pool).2.cachedCount =
      tracked (KvBlockPool.evictLoop target s.pool).2
    omega

/-- A step that frees nothing from the cache and sweeps safely keeps the
counters in step with the blocks. -/
theorem settled_step {s t : Tracked} {op : Op} (h : Settled s) (hstep : Step s op t)
    (hcount : Counted s.pool op) : Settled t := by
  have hsafe : SweepSafe s.pool op := by
    cases op
    case freeCached => exact trivial
    all_goals exact hcount
  have hcoh := coherent_step h.coherent hstep hsafe
  obtain ⟨hresp, hx⟩ := hstep
  cases op with
  | alloc => exact settled_alloc h hx hsafe
  | evict target => exact settled_evict h hx hsafe
  | freeCached b => exact hcount.elim
  | retain b =>
    obtain ⟨p, hp, rfl⟩ := map_eq_ok.mp hx
    obtain ⟨hb, hpos, hv⟩ := KvBlockPool.retain_ok hp
    obtain ⟨hall, hcached⟩ := retain_counters hp
    refine h.update hcoh hb (h.coherent.not_free hpos) hv hall ?_
    have hrm : ¬ (min (s.pool.refCount b + 1) REF_MAX = 0) := by
      simp only [REF_MAX]
      omega
    simp only [hcached, hrm, Nat.ne_of_gt hpos]
  | reclaim b =>
    obtain ⟨p, hp, rfl⟩ := map_eq_ok.mp hx
    obtain ⟨hb, h0, hv⟩ := KvBlockPool.reclaim_ok hp
    obtain ⟨hall, hcached⟩ := reclaim_counters hp
    have hnot := (h.coherent.released b hresp).2
    have hpos := tracked_pos hb h0 hnot
    have := h.cached
    refine h.update hcoh hb hnot hv hall ?_
    simp only [hcached, h0, decide_true, Bool.toNat_true, Nat.one_ne_zero, decide_false,
      Bool.toNat_false, Nat.add_zero]
    omega
  | release b hash =>
    obtain ⟨p, hp, rfl⟩ := map_eq_ok.mp hx
    obtain ⟨hb, hpos, hv⟩ := KvBlockPool.release_ok hp
    obtain ⟨hall, hcached⟩ := release_counters hp
    refine h.update hcoh hb (h.coherent.not_free hpos) hv hall ?_
    simp only [hcached, Nat.ne_of_gt hpos, decide_false, Bool.toNat_false, Nat.add_zero]
  | pin b =>
    obtain ⟨p, hp, rfl⟩ := map_eq_ok.mp hx
    obtain ⟨-, hv⟩ := KvBlockPool.pin_ok hp
    exact h.same hcoh (congrArg View.capacity hv) (congrArg View.free hv)
      (congrArg View.refCount hv) (pin_counters hp)
  | unpin b =>
    obtain ⟨p, hp, rfl⟩ := map_eq_ok.mp hx
    obtain ⟨-, hv⟩ := KvBlockPool.unpin_ok hp
    exact h.same hcoh (congrArg View.capacity hv) (congrArg View.free hv)
      (congrArg View.refCount hv) (unpin_counters hp)

/-- Accurate figures after an eviction mean that no block went on the free list
that was on it already. -/
theorem nodup_of_accurate_evict {s : Tracked} (h : Settled s) {target : Nat}
    (hacc : Accurate (s.pool.evict target).2) : (s.pool.evict target).2.free.Nodup := by
  change Accurate (KvBlockPool.evictLoop target s.pool).2 at hacc
  show (KvBlockPool.evictLoop target s.pool).2.free.Nodup
  obtain ⟨hr, ht, hav⟩ := evict_counts h target
  obtain ⟨ha, hc⟩ := evictLoop_counters target s.pool
  obtain ⟨hin, hcached, hsum⟩ := hacc
  simp only [KvBlockPool.inUse, KvBlockPool.cached, KvBlockPool.allocated] at hin hcached hsum
  have hall := h.allocated
  have hcac := h.cached
  have hpart := h.partition
  have hcap : (KvBlockPool.evictLoop target s.pool).2.capacity = s.pool.capacity :=
    congrArg View.capacity (KvBlockPool.evictLoop_view target s.pool)
  -- the saturated counters agree with the blocks only if nothing saturated
  have hlen : (KvBlockPool.evictLoop target s.pool).2.free.dedup.length =
      (KvBlockPool.evictLoop target s.pool).2.available := by
    omega
  have := (List.dedup_sublist _).eq_of_length hlen
  rw [← this]
  exact List.nodup_dedup _

/-- The other way round: a step after which the figures are still accurate freed
nothing from the cache and used the sweep safely. -/
theorem counted_of_accurate {s t : Tracked} {op : Op} (h : Settled s) (hstep : Step s op t)
    (hacc : Accurate t.pool) : Counted s.pool op := by
  have hx := hstep.2
  cases op with
  | freeCached b =>
    obtain ⟨p, hp, rfl⟩ := map_eq_ok.mp hx
    obtain ⟨-, -, hv⟩ := KvBlockPool.freeCached_ok hp
    have hcap : p.capacity = s.pool.capacity := congrArg View.capacity hv
    have hfree : p.free = b :: s.pool.free := congrArg View.free hv
    have hsum : p.allocatedCount + p.free.length = p.capacity := hacc.2.2
    have hbefore : s.pool.allocatedCount + s.pool.free.length = s.pool.capacity := h.accurate.2.2
    rw [(freeCached_counters hp).1, hfree, List.length_cons, hcap] at hsum
    omega
  | alloc =>
    intro hnil
    simp only [exec] at hx
    split at hx
    · cases hx
    rename_i r p ha
    cases hx
    rcases KvBlockPool.alloc_cases ha with ⟨b, rest, hf, -⟩ | ⟨-, ho, -⟩ |
      ⟨b, rest, -, ho, -, rfl, hv⟩
    · rw [hnil] at hf; cases hf
    · exact ho
    · -- the whole pool is allocated, and so is the block on the free list
      have hcap : p.capacity = s.pool.capacity := congrArg View.capacity hv
      have hfree : p.free = [b] := congrArg View.free hv
      have hsum : p.allocatedCount + p.free.length = p.capacity := hacc.2.2
      have hbefore : s.pool.allocatedCount + s.pool.free.length = s.pool.capacity := h.accurate.2.2
      rw [(alloc_counters ha).2.2 hnil (Option.some_ne_none b), hfree, hcap,
        List.length_singleton] at hsum
      rw [hnil, List.length_nil] at hbefore
      have hb : b < s.pool.capacity := KvBlockPool.mem_clockOrder.mp
        (List.mem_filter.mp (show b ∈ s.pool.evictOrder by simp [ho])).1
      omega
  | evict target =>
    cases hx
    have hnd := nodup_of_accurate_evict h hacc
    refine sweepSafe_of_exclusive hstep ⟨hnd, fun b hb => ?_⟩
    have hv := KvBlockPool.evictLoop_view target s.pool
    change b ∈ (KvBlockPool.evictLoop target s.pool).2.free at hb
    show (KvBlockPool.evictLoop target s.pool).2.refCount b = 0
    rw [show (KvBlockPool.evictLoop target s.pool).2.refCount = s.pool.refCount from
      congrArg View.refCount hv]
    rw [show (KvBlockPool.evictLoop target s.pool).2.free = _ from congrArg View.free hv] at hb
    rcases List.mem_append.mp hb with hb | hb
    · exact (evictLoop_mem target s.pool b (List.mem_reverse.mp hb)).2
    · exact h.coherent.unreferenced b hb
  | retain b => exact trivial
  | reclaim b => exact trivial
  | release b hash => exact trivial
  | pin b => exact trivial
  | unpin b => exact trivial

/-! ## Whole runs -/

/-- **The figures are the blocks' exactly when nothing is freed from the cache
and the sweep is safe.** In every run of the pool's operations under the
callers' contract, `in_use`, `cached` and `allocated` agree with the block
states in every state if and only if every step of the run is `Counted`. -/
theorem figures_accurate_iff (capacity : Nat) (tr : List (Op × Tracked))
    (hrun : Along Step (.new capacity) tr) :
    (∀ s ∈ visited (.new capacity) tr, Accurate s.pool) ↔
    Along (fun s op _ => Counted s.pool op) (.new capacity) tr :=
  Along.forall_visited_iff (I := Settled)
    (fun _ _ _ h hstep hcount => settled_step h hstep hcount)
    (fun _ _ _ h hstep hacc => counted_of_accurate h hstep hacc)
    (fun _ h => h.accurate) (settled_new capacity) hrun

/-- A run that allocates, shares, releases, takes back and evicts. -/
theorem figures_accurate_reclaim_run :
    ∃ tr : List (Op × Tracked), tr.map Prod.fst =
        [.alloc, .alloc, .retain 0, .release 0 7, .release 0 7, .reclaim 0, .release 1 9, .evict 1] ∧
      ∀ s ∈ visited (.new 3) tr, Accurate s.pool := by
  have hrun : Along Step (.new 3) [(.alloc, _), (.alloc, _), (.retain 0, _), (.release 0 7, _),
      (.release 0 7, _), (.reclaim 0, _), (.release 1 9, _), (.evict 1, _)] :=
    ⟨⟨trivial, rfl⟩, ⟨trivial, rfl⟩, ⟨by decide, rfl⟩, ⟨by decide, rfl⟩, ⟨by decide, rfl⟩,
      ⟨by decide, rfl⟩, ⟨by decide, rfl⟩, ⟨trivial, rfl⟩, trivial⟩
  refine ⟨_, rfl, (figures_accurate_iff 3 _ hrun).mpr ?_⟩
  exact ⟨by decide, by decide, by decide, by decide, by decide, by decide, by decide, by decide,
    trivial⟩

/-- A block of a pool of one is handed out, released and freed from the cache.
Nothing is allocated any more, and the pool reports one block in use. -/
theorem freed_block_still_allocated :
    ∃ tr : List (Op × Tracked), tr.map Prod.fst = [.alloc, .release 0 42, .freeCached 0] ∧
      Along Step (.new 1) tr ∧ ∃ s ∈ visited (.new 1) tr,
        s.pool.inUse = 1 ∧ referenced s.pool = 0 ∧
        s.pool.allocated + s.pool.available = s.pool.capacity + 1 := by
  have hrun : Along Step (.new 1) [(.alloc, _), (.release 0 42, _), (.freeCached 0, _)] :=
    ⟨⟨trivial, rfl⟩, ⟨by decide, rfl⟩, ⟨by decide, rfl⟩, trivial⟩
  exact ⟨_, rfl, hrun, _, List.mem_cons_of_mem _ (List.mem_of_mem_getLast? rfl), rfl, rfl, rfl⟩

end JustApi.Inference.PoolAccounting
