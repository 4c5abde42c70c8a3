import JustApi.Inference.BlockLedger
import JustApi.Inference.RadixWalks
import JustApi.Inference.SchedulerFrame

/-! # The scheduler keeps the ledger

Each piece of `schedule` and `cancel` succeeds on a state whose ledger is kept and
is one of the ledger's movements. What it takes beyond the invariant is said where
it is used: an insertion follows the tree to a block boundary, and a request only
reuses cached blocks without live references. -/
namespace JustApi.Inference.SchedulerLedger
open JustApi.Lib.Result JustApi.Inference.KvCache JustApi.Inference.RadixCache
open JustApi.Inference.RadixEntries JustApi.Inference.RadixWalks JustApi.Inference.BlockLedger
open JustApi.Inference.Scheduling JustApi.Inference.Scheduling.Scheduler
open Function (update)

variable {F : Type} {s t : Scheduler F} {exact : Prop} {hs : List Holder} {order : HashOrder}
  {prompt : List Token}

def ledger (s : Scheduler F) : Ledger := ⟨s.pool.view, s.prefixRefs⟩

/-- The entries of the scheduler's prefix cache. -/
def stored (s : Scheduler F) : List Entry := entries s.prefixCache.root

/-- The tree is aligned and free, held and cached blocks are told apart. -/
structure Tidy (s : Scheduler F) (hs : List Holder) : Prop where
  aligned : Aligned s.prefixCache.root
  apart : Apart (ledger s) (stored s) hs

/-- The ledger of the scheduler is kept for the holders `hs`. -/
structure Books (exact : Prop) (s : Scheduler F) (hs : List Holder) : Prop where
  aligned : Aligned s.prefixCache.root
  kept : Kept exact (ledger s) (stored s) hs

theorem Books.tidy (h : Books exact s hs) : Tidy s hs := ⟨h.aligned, h.kept.owned.apart⟩

/-! ## Loops over blocks -/

/-- A loop over distinct blocks whose turns each succeed on their block and leave
the others ready does to the ledger what `g` says. -/
theorem foldlM_ledger {f : Scheduler F → BlockId → Except Panic (Scheduler F)}
    {g : Ledger → List BlockId → Ledger} {C : Ledger → BlockId → Prop} {bs : List BlockId}
    (hnil : ∀ l, g l [] = l)
    (hstep : ∀ s b, C (ledger s) b → ∃ t, f s b = .ok t ∧ t.prefixCache = s.prefixCache ∧
      (∀ bs, g (ledger t) bs = g (ledger s) (b :: bs)) ∧
      ∀ c, c ≠ b → C (ledger s) c → C (ledger t) c)
    (hnd : bs.Nodup) (hc : ∀ b ∈ bs, C (ledger s) b) :
    ∃ t, bs.foldlM f s = .ok t ∧ t.prefixCache = s.prefixCache ∧ ledger t = g (ledger s) bs := by
  induction bs generalizing s with
  | nil => exact ⟨s, rfl, rfl, (hnil _).symm⟩
  | cons b rest ih =>
    rw [List.nodup_cons] at hnd
    obtain ⟨u, hu, hcache, hg, hkeep⟩ := hstep s b (hc b List.mem_cons_self)
    have hrest : ∀ c ∈ rest, C (ledger u) c := fun c hcr =>
      hkeep c (fun he => hnd.1 (he ▸ hcr)) (hc c (List.mem_cons_of_mem _ hcr))
    obtain ⟨t, ht, hcache', hl⟩ := ih hnd.2 hrest
    exact ⟨t, by rw [foldlM_cons, hu]; exact ht, hcache'.trans hcache, hl.trans (hg rest)⟩

theorem reclaim_all {p : KvBlockPool} {bs : List BlockId} (hnd : bs.Nodup)
    (hc : ∀ b ∈ bs, b < p.capacity ∧ p.refCount b = 0) :
    ∃ q, bs.foldlM KvBlockPool.reclaim p = .ok q ∧
      q.view = { p.view with refCount := setOn bs 1 p.refCount } := by
  induction bs generalizing p with
  | nil => exact ⟨p, rfl, by simp [KvBlockPool.view]⟩
  | cons b rest ih =>
    rw [List.nodup_cons] at hnd
    obtain ⟨hlt, h0⟩ := hc b List.mem_cons_self
    obtain ⟨q, hq⟩ := KvBlockPool.reclaim_succeeds hlt h0
    obtain ⟨-, -, hv⟩ := KvBlockPool.reclaim_ok hq
    have hcap : q.capacity = p.capacity := congrArg View.capacity hv
    have hrc : q.refCount = update p.refCount b 1 := congrArg View.refCount hv
    have hrest : ∀ c ∈ rest, c < q.capacity ∧ q.refCount c = 0 := by
      intro c hcr
      have hne : c ≠ b := fun he => hnd.1 (he ▸ hcr)
      rw [hcap, hrc, Function.update_of_ne hne]
      exact hc c (List.mem_cons_of_mem _ hcr)
    obtain ⟨q', hq', hv'⟩ := ih hnd.2 hrest
    refine ⟨q', by rw [foldlM_cons, hq]; exact hq', ?_⟩
    rw [hv', hv, hrc, setOn_cons]

/-- `adopt` unpins a block of the pool and counts a live reference. -/
theorem adopt_ok {b : BlockId} (hb : b < s.pool.capacity) : ∃ t, s.adopt b = .ok t ∧
    t.prefixCache = s.prefixCache ∧ ledger t =
      ⟨{ s.pool.view with pinned := update s.pool.pinned b false },
        update s.prefixRefs b (s.prefixRefs b + 1)⟩ := by
  obtain ⟨q, hq⟩ := KvBlockPool.unpin_succeeds hb
  obtain ⟨-, hv⟩ := KvBlockPool.unpin_ok hq
  refine ⟨{ s with pool := q, prefixRefs := update s.prefixRefs b (s.prefixRefs b + 1) },
    by simp only [adopt, hq, ok_bind]; rfl, rfl, ?_⟩
  exact congrArg (fun v => Ledger.mk v _) hv

theorem releasePinned_ok {b : BlockId} (hb : b < s.pool.capacity) (h1 : s.pool.refCount b = 1) :
    ∃ t, s.releasePinned b = .ok t ∧ t.prefixCache = s.prefixCache ∧ ledger t =
      ⟨{ s.pool.view with refCount := update s.pool.refCount b 0, pinned := update s.pool.pinned b true },
        s.prefixRefs⟩ := by
  obtain ⟨q, hq⟩ := KvBlockPool.release_succeeds 0 hb (by omega)
  obtain ⟨-, -, hv⟩ := KvBlockPool.release_ok hq
  have hcap : q.capacity = s.pool.capacity := congrArg View.capacity hv
  have hpin : q.pinned = s.pool.pinned := congrArg View.pinned hv
  obtain ⟨r, hr⟩ := KvBlockPool.pin_succeeds (hcap ▸ hb)
  obtain ⟨-, hv'⟩ := KvBlockPool.pin_ok hr
  refine ⟨{ s with pool := r }, by simp only [releasePinned, hq, ok_bind, hr]; rfl, rfl, ?_⟩
  rw [hv, hpin, h1] at hv'
  exact congrArg (fun v => Ledger.mk v _) hv'

/-- Whichever way `dropHold` goes, a block held once is left to the cache. -/
theorem dropHold_ok {b : BlockId} (hb : b < s.pool.capacity) (h1 : s.pool.refCount b = 1)
    (hr : s.prefixRefs b ≤ 1) : ∃ t, s.dropHold b = .ok t ∧ t.prefixCache = s.prefixCache ∧
    ledger t = ⟨{ s.pool.view with
      refCount := update s.pool.refCount b 0, pinned := update s.pool.pinned b true },
        update s.prefixRefs b 0⟩ := by
  unfold dropHold
  by_cases h0 : s.prefixRefs b = 0
  · obtain ⟨t, ht, hcache, hl⟩ := releasePinned_ok hb h1
    refine ⟨t, by rw [if_pos h0, ht], hcache, ?_⟩
    rw [hl, ← h0, Function.update_eq_self]
  · have hone : s.prefixRefs b - 1 = 0 := by omega
    rw [if_neg h0]
    simp only [hone, if_true]
    exact releasePinned_ok (s := { s with prefixRefs := update s.prefixRefs b 0 }) hb h1

theorem dropCached_ok {b : BlockId} (hb : b < s.pool.capacity) (h0 : s.pool.refCount b = 0) :
    ∃ t, s.dropCached b = .ok t ∧ t.prefixCache = s.prefixCache ∧ ledger t =
      ⟨{ s.pool.view with free := b :: s.pool.free, pinned := update s.pool.pinned b false },
        update s.prefixRefs b 0⟩ := by
  obtain ⟨q, hq⟩ := KvBlockPool.unpin_succeeds hb
  obtain ⟨-, hv⟩ := KvBlockPool.unpin_ok hq
  have hcap : q.capacity = s.pool.capacity := congrArg View.capacity hv
  have hrc : q.refCount = s.pool.refCount := congrArg View.refCount hv
  have hfree : q.free = s.pool.free := congrArg View.free hv
  have hpin : q.pinned = update s.pool.pinned b false := congrArg View.pinned hv
  obtain ⟨r, hr⟩ := KvBlockPool.freeCached_succeeds (hcap ▸ hb) (hrc ▸ h0)
  obtain ⟨-, -, hv'⟩ := KvBlockPool.freeCached_ok hr
  refine ⟨{ s with pool := r, prefixRefs := update s.prefixRefs b 0 },
    by simp only [dropCached, hq, ok_bind, hr]; rfl, rfl, ?_⟩
  rw [hv, hfree, hpin, Function.update_idem] at hv'
  exact congrArg (fun v => Ledger.mk v _) hv'

/-! ## Leaving -/

/-- The insertion of a leaving sequence follows the tree to a block boundary. -/
def AtBoundary (s : Scheduler F) (prompt : List Token) (blocks : List BlockId) : Prop :=
  matchedTokens s.prefixCache (prompt.take (cacheBlocks prompt blocks * BLOCK_SIZE)) % BLOCK_SIZE = 0

/-- All blocks of a leaving sequence are cached, and what the tree has for its
prompt are its own blocks. -/
def LeavesClean (s : Scheduler F) (prompt : List Token) (blocks : List BlockId) : Prop :=
  blocks.length ≤ prompt.length / BLOCK_SIZE ∧ ∀ e ∈ stored s, e.1 <+: prompt → e.2 ∈ blocks

theorem dropHold_all {bs : List BlockId} (hnd : bs.Nodup)
    (hc : ∀ b ∈ bs, b < s.pool.capacity ∧ s.pool.refCount b = 1 ∧ s.prefixRefs b ≤ 1) :
    ∃ t, bs.foldlM dropHold s = .ok t ∧ t.prefixCache = s.prefixCache ∧
      ledger t = (ledger s).settle bs := by
  refine foldlM_ledger (g := Ledger.settle)
    (C := fun l b => b < l.view.capacity ∧ l.view.refCount b = 1 ∧ l.refs b ≤ 1)
    (fun l => by simp [Ledger.settle]) ?_ hnd hc
  rintro s b ⟨hlt, h1, hr⟩
  obtain ⟨t, ht, hcache, hl⟩ := dropHold_ok hlt h1 hr
  refine ⟨t, ht, hcache, fun bs => ?_, fun c hne hcc => ?_⟩
  · rw [hl]
    simp only [Ledger.settle, setOn_cons]
    rfl
  · rw [hl]
    simp only [Function.update_of_ne hne]
    exact hcc

/-- The blocks of a leaving sequence that the insertion skips are in the tree, when
what the tree has for the prompt are its own blocks. -/
theorem skipped_mem {blocks : List BlockId} {n : Nat} (ha : Aligned s.prefixCache.root)
    (ho : Apart (ledger s) (stored s) ((prompt, blocks) :: hs))
    (hown : ∀ e ∈ stored s, e.1 <+: prompt → e.2 ∈ blocks) :
    ∀ b ∈ blocks.take (matchedTokens s.prefixCache (prompt.take n) / BLOCK_SIZE),
      b ∈ treeBlocks (stored s) := by
  intro b hb
  obtain ⟨j, hj⟩ := List.mem_iff_getElem?.mp hb
  rw [List.getElem?_take] at hj
  split at hj
  · rename_i hlt
    -- the tree has a block of its own at this place
    obtain ⟨_, _, -, -, -, ⟨-, hz⟩ | ⟨bs, -, hlen, hentry⟩⟩ := lookup_aligned (prompt.take n) ha
    · rw [hz] at hlt
      simp at hlt
    have hlt' : j < bs.length := by omega
    have he := hentry j bs[j] (List.getElem?_eq_getElem hlt')
    have hle : (j + 1) * BLOCK_SIZE ≤ (prompt.take n).length := calc
      (j + 1) * BLOCK_SIZE ≤ matchedTokens s.prefixCache (prompt.take n) / BLOCK_SIZE * BLOCK_SIZE :=
        Nat.mul_le_mul_right _ hlt
      _ ≤ matchedTokens s.prefixCache (prompt.take n) := Nat.div_mul_le_self _ _
      _ ≤ (prompt.take n).length := matchLen_le _ _ _
    have hcut : (prompt.take n).take ((j + 1) * BLOCK_SIZE) = prompt.take ((j + 1) * BLOCK_SIZE) := by
      rw [List.length_take] at hle
      rw [List.take_take, Nat.min_eq_left (by omega)]
    rw [hcut] at he
    -- it is a block of this sequence, and its place is where the path ends
    obtain ⟨i, hi⟩ := List.mem_iff_getElem?.mp (hown _ he (List.take_prefix _ _))
    obtain ⟨hle', he'⟩ := ho.path _ List.mem_cons_self i bs[j] hi (mem_treeBlocks.mpr ⟨_, he⟩)
    have hpath := congrArg List.length (Apart.entry_unique ho.treeNodup he he')
    rw [List.length_take] at hle
    rw [List.length_take, List.length_take, Nat.min_eq_left (by omega), Nat.min_eq_left hle'] at hpath
    have hij := Nat.eq_of_mul_eq_mul_right blockSize_pos hpath
    have : i = j := by omega
    subst this
    rw [hi] at hj
    cases hj
    exact mem_treeBlocks.mpr ⟨_, he⟩
  · cases hj

/-- How many blocks the insertion of a leaving sequence finds on the tree already. -/
def skipped (s : Scheduler F) (prompt : List Token) (n : Nat) : Nat :=
  matchedTokens s.prefixCache (prompt.take (n * BLOCK_SIZE)) / BLOCK_SIZE

/-- A sequence leaves for the cache: its blocks settle there, and the entries of
those the tree does not have yet are added. -/
theorem cacheCompleted_ok {blocks : List BlockId} {n : Nat}
    (h : Tidy s ((prompt, blocks) :: hs)) (hb : AtBoundary s prompt blocks)
    (hn : cacheBlocks prompt blocks = n) (h0 : n ≠ 0) :
    (∀ p b, (p, b) ∈ stored s → p <+: prompt.take (n * BLOCK_SIZE) →
      p.length ≤ skipped s prompt n * BLOCK_SIZE) ∧
    ∃ t, s.cacheCompleted prompt blocks = .ok t ∧ Aligned t.prefixCache.root ∧
      ledger t = (ledger s).settle (blocks.take n) ∧
      (stored t).Perm (stored s ++
        (blockPaths (prompt.take (n * BLOCK_SIZE)) (blocks.take n)).drop (skipped s prompt n)) := by
  have hnp : n ≤ prompt.length / BLOCK_SIZE := by rw [← hn]; exact Nat.min_le_left _ _
  have hnb : n ≤ blocks.length := by rw [← hn]; exact Nat.min_le_right _ _
  rw [AtBoundary, hn] at hb
  have ho := h.apart
  have hnt : n * BLOCK_SIZE ≤ prompt.length := calc
    n * BLOCK_SIZE ≤ prompt.length / BLOCK_SIZE * BLOCK_SIZE := Nat.mul_le_mul_right _ hnp
    _ ≤ prompt.length := Nat.div_mul_le_self _ _
  have hlen : (prompt.take (n * BLOCK_SIZE)).length = (blocks.take n).length * BLOCK_SIZE := by
    rw [List.length_take, List.length_take, Nat.min_eq_left hnt, Nat.min_eq_left hnb]
  obtain ⟨c, hins, hal, hperm⟩ := insert_aligned h.aligned hlen hb
  -- the loop over the blocks
  have hready : ∀ b ∈ blocks.take n, b < s.pool.capacity ∧ s.pool.refCount b = 1 ∧
      s.prefixRefs b ≤ 1 := by
    intro b hbn
    obtain ⟨hlt, h1⟩ := ho.held b (List.mem_append_left _ (List.mem_of_mem_take hbn))
    refine ⟨hlt, h1, ?_⟩
    by_cases hz : s.prefixRefs b = 0
    · omega
    · have := (ho.refs b hz).1
      exact Nat.le_of_eq this
  have hnd : (blocks.take n).Nodup :=
    (List.nodup_append'.mp ho.heldNodup).1.sublist (List.take_sublist _ _)
  obtain ⟨t, ht, hcache, hl⟩ := dropHold_all (s := { s with prefixCache := c }) hnd hready
  refine ⟨fun p b hp hpre => ?_, t, ?_, by rw [hcache]; exact hal, hl, ?_⟩
  · rw [skipped, Nat.div_mul_cancel (Nat.dvd_of_mod_eq_zero hb)]
    exact length_le_matchLen _ _ _ p b h.aligned (Nat.lt_succ_self _) hpre hp
  · unfold Scheduler.cacheCompleted
    dsimp only
    rw [hn, if_neg h0, hins]
    exact ht
  · rw [stored, hcache]
    exact hperm

theorem cacheCompleted_zero {blocks : List BlockId} (h0 : cacheBlocks prompt blocks = 0) :
    s.cacheCompleted prompt blocks = .ok s := by
  unfold Scheduler.cacheCompleted
  dsimp only
  rw [if_pos h0]

theorem Tidy.cacheCompleted {blocks : List BlockId} (h : Tidy s ((prompt, blocks) :: hs))
    (hb : AtBoundary s prompt blocks) : ∃ t, s.cacheCompleted prompt blocks = .ok t ∧ Tidy t hs := by
  by_cases h0 : cacheBlocks prompt blocks = 0
  · exact ⟨s, cacheCompleted_zero h0, h.aligned, h.apart.forget⟩
  · obtain ⟨hcover, t, ht, hal, hl, hperm⟩ := cacheCompleted_ok h hb rfl h0
    refine ⟨t, ht, hal, ?_⟩
    rw [hl]
    exact (h.apart.settle hcover).perm hperm

theorem Books.cacheCompleted {blocks : List BlockId} (h : Books exact s ((prompt, blocks) :: hs))
    (hb : AtBoundary s prompt blocks) (hclean : exact → LeavesClean s prompt blocks) :
    ∃ t, s.cacheCompleted prompt blocks = .ok t ∧ Books exact t hs := by
  by_cases h0 : cacheBlocks prompt blocks = 0
  · refine ⟨s, cacheCompleted_zero h0, h.aligned, h.kept.forget fun hx => ?_⟩
    have hlen := (hclean hx).1
    have : blocks.length = 0 := by
      simp only [cacheBlocks] at h0
      omega
    exact List.length_eq_zero_iff.mp this
  · obtain ⟨hcover, t, ht, hal, hl, hperm⟩ := cacheCompleted_ok h.tidy hb rfl h0
    have hkept := h.kept.settle hcover fun hx =>
      ⟨Nat.le_min.mpr ⟨(hclean hx).1, Nat.le_refl _⟩,
        skipped_mem h.aligned h.kept.owned.apart (hclean hx).2⟩
    refine ⟨t, ht, hal, ?_⟩
    rw [hl]
    exact hkept.perm hperm

/-! ## Admission -/

theorem adopt_all {bs : List BlockId} (hnd : bs.Nodup)
    (hc : ∀ b ∈ bs, b < s.pool.capacity ∧ s.prefixRefs b = 0) :
    ∃ t, bs.foldlM adopt s = .ok t ∧ t.prefixCache = s.prefixCache ∧ ledger t =
      ⟨{ s.pool.view with pinned := setOn bs false s.pool.pinned }, setOn bs 1 s.prefixRefs⟩ := by
  refine foldlM_ledger
    (g := fun l bs => ⟨{ l.view with pinned := setOn bs false l.view.pinned }, setOn bs 1 l.refs⟩)
    (C := fun l b => b < l.view.capacity ∧ l.refs b = 0) (fun l => by simp) ?_ hnd hc
  rintro s b ⟨hlt, h0⟩
  obtain ⟨t, ht, hcache, hl⟩ := adopt_ok hlt
  rw [show s.prefixRefs b = 0 from h0] at hl
  refine ⟨t, ht, hcache, fun bs => ?_, fun c hne hcc => ?_⟩
  · rw [hl]
    simp only [setOn_cons]
    rfl
  · rw [hl]
    simp only [Function.update_of_ne hne]
    exact hcc

/-- A new sequence takes over the blocks the tree has along its prompt. -/
theorem reuse_ok {bs : List BlockId} (h : Tidy s hs) (id n : Nat)
    (ha : OnPath (stored s) prompt bs) (hz : ∀ b ∈ bs, s.prefixRefs b = 0) :
    ∃ seq t, s.reuse (.new id) bs n = .ok (seq, t) ∧ seq.blocks = bs ∧
      t.prefixCache = s.prefixCache ∧ ledger t = (ledger s).restore bs := by
  unfold Scheduler.reuse
  cases hbs : bs.isEmpty with
  | true =>
    rw [List.isEmpty_iff.mp hbs]
    exact ⟨.new id, s, rfl, rfl, rfl, by simp [Ledger.restore]⟩
  | false =>
    have ho := h.apart
    have hnd := OnPath.nodup ho.treeNodup ha
    have htree : ∀ b ∈ bs, b < s.pool.capacity ∧ s.pool.refCount b = 0 := fun b hb =>
      ⟨(ho.tree b (OnPath.mem ha hb)).1, (ho.tree b (OnPath.mem ha hb)).2.2.trans (hz b hb)⟩
    obtain ⟨q, hq, hv⟩ := reclaim_all hnd htree
    have hcap : q.capacity = s.pool.capacity := congrArg View.capacity hv
    have hpin : q.pinned = s.pool.pinned := congrArg View.pinned hv
    obtain ⟨t, ht, hcache, hl⟩ := adopt_all (s := { s with pool := q }) hnd
      fun b hb => ⟨hcap ▸ (htree b hb).1, hz b hb⟩
    refine ⟨{ Sequence.new id with blocks := bs, numTokens := n }, t, ?_, rfl, hcache, ?_⟩
    · simp only [Sequence.restoreFromCache, hq, ok_bind, ht]
      rfl
    · dsimp only at hl
      rw [hv, hpin] at hl
      exact hl

theorem Tidy.reuse {bs : List BlockId} (h : Tidy s hs) (id n : Nat)
    (ha : OnPath (stored s) prompt bs) (hz : ∀ b ∈ bs, s.prefixRefs b = 0) :
    ∃ seq t, s.reuse (.new id) bs n = .ok (seq, t) ∧ Tidy t ((prompt, seq.blocks) :: hs) := by
  obtain ⟨seq, t, ht, rfl, hcache, hl⟩ := reuse_ok h id n ha hz
  refine ⟨seq, t, ht, by rw [hcache]; exact h.aligned, ?_⟩
  rw [stored, hcache, hl]
  exact h.apart.restore ha hz

theorem Books.reuse {bs : List BlockId} (h : Books exact s hs) (id n : Nat)
    (ha : OnPath (stored s) prompt bs) (hz : ∀ b ∈ bs, s.prefixRefs b = 0) :
    ∃ seq t, s.reuse (.new id) bs n = .ok (seq, t) ∧ Books exact t ((prompt, seq.blocks) :: hs) := by
  obtain ⟨seq, t, ht, rfl, hcache, hl⟩ := reuse_ok h.tidy id n ha hz
  refine ⟨seq, t, ht, by rw [hcache]; exact h.aligned, ?_⟩
  rw [stored, hcache, hl]
  exact h.kept.restore ha hz

/-- The sweep finds nothing: what it could take is on the free list already. -/
theorem evictOrder_nil (ho : Owned (ledger s) (stored s) hs) (hf : s.pool.free = []) :
    s.pool.evictOrder = [] := by
  refine KvBlockPool.evictOrder_eq_nil_iff.mpr fun b hb h0 => ?_
  rcases ho.unused b hb h0 with hm | hp
  · rw [show (ledger s).view.free = [] from hf] at hm
    cases hm
  · exact hp

/-- While the pool has no block to evict for itself, a sequence grows by the top of
the free list, or not at all. -/
theorem grow_ok {seq : Sequence} (h : Apart (ledger s) (stored s) hs)
    (hsweep : s.pool.free = [] → s.pool.evictOrder = []) :
    ∃ got seq' pool, seq.grow s.pool = .ok (got, seq', pool) ∧
      ((got = none ∧ s.pool.free = [] ∧ seq' = seq ∧ ledger { s with pool := pool } = ledger s) ∨
        ∃ b rest, got = some b ∧ (ledger s).view.free = b :: rest ∧
          seq' = { seq with blocks := seq.blocks ++ [b] } ∧
          ledger { s with pool := pool } = (ledger s).handOut b rest) := by
  cases hf : s.pool.free with
  | nil =>
    have hnone := KvBlockPool.evictOne_eq_none_iff.mpr (hsweep hf)
    cases he : s.pool.evictOne with
    | mk r pool =>
      rw [he] at hnone
      cases hnone
      have ha : s.pool.alloc = .ok (none, pool) := by simp [KvBlockPool.alloc, hf, he]
      refine ⟨none, seq, pool, by simp [Sequence.grow, ha], .inl ⟨rfl, rfl, rfl, ?_⟩⟩
      exact congrArg (fun v => Ledger.mk v _) (KvBlockPool.evictOne_none he).1
  | cons b rest =>
    have hb : b < s.pool.capacity := (h.free b (by simp [ledger, hf])).1
    obtain ⟨pool, hp⟩ := KvBlockPool.handOut_succeeds (p := { s.pool with free := rest }) hb
    have ha : s.pool.alloc = .ok (some b, pool) := by simp [KvBlockPool.alloc, hf, hp]
    obtain ⟨-, -, hv⟩ := KvBlockPool.handOut_ok hp
    refine ⟨some b, { seq with blocks := seq.blocks ++ [b] }, pool, by simp [Sequence.grow, ha],
      .inr ⟨b, rest, rfl, hf, rfl, ?_⟩⟩
    exact congrArg (fun v => Ledger.mk v _) hv

theorem Tidy.grow {seq : Sequence} (h : Tidy s ((prompt, seq.blocks) :: hs))
    (hsweep : s.pool.free = [] → s.pool.evictOrder = []) :
    ∃ got seq' pool, seq.grow s.pool = .ok (got, seq', pool) ∧
      Tidy { s with pool := pool } ((prompt, seq'.blocks) :: hs) := by
  obtain ⟨got, seq', pool, hg, ⟨-, -, rfl, hl⟩ | ⟨b, rest, -, hf, rfl, hl⟩⟩ := grow_ok h.apart hsweep
  · exact ⟨got, seq, pool, hg, h.aligned, by rw [hl]; exact h.apart⟩
  · exact ⟨got, _, pool, hg, h.aligned, by rw [hl]; exact h.apart.handOut hf⟩

theorem Books.grow {seq : Sequence} (h : Books exact s ((prompt, seq.blocks) :: hs)) :
    ∃ got seq' pool, seq.grow s.pool = .ok (got, seq', pool) ∧
      Books exact { s with pool := pool } ((prompt, seq'.blocks) :: hs) := by
  obtain ⟨got, seq', pool, hg, ⟨-, -, rfl, hl⟩ | ⟨b, rest, -, hf, rfl, hl⟩⟩ :=
    grow_ok h.tidy.apart (evictOrder_nil h.kept.owned)
  · exact ⟨got, seq, pool, hg, h.aligned, by rw [hl]; exact h.kept⟩
  · exact ⟨got, _, pool, hg, h.aligned, by rw [hl]; exact h.kept.handOut hf⟩

theorem dropCached_all {bs : List BlockId} (hnd : bs.Nodup)
    (hc : ∀ b ∈ bs, b < s.pool.capacity ∧ s.pool.refCount b = 0) :
    ∃ t, bs.foldlM dropCached s = .ok t ∧ t.prefixCache = s.prefixCache ∧
      ledger t = (ledger s).giveBack bs := by
  refine foldlM_ledger (g := Ledger.giveBack)
    (C := fun l b => b < l.view.capacity ∧ l.view.refCount b = 0)
    (fun l => by simp [Ledger.giveBack]) ?_ hnd hc
  rintro s b ⟨hlt, h0⟩
  obtain ⟨t, ht, hcache, hl⟩ := dropCached_ok hlt h0
  refine ⟨t, ht, hcache, fun bs => ?_, fun c hne hcc => ?_⟩
  · rw [hl]
    simp only [Ledger.giveBack, setOn_cons, List.reverse_cons, List.append_assoc,
      List.singleton_append]
    rfl
  · rw [hl]
    exact hcc

/-- The blocks and the tree that `evictUnreferenced` gets from the filter. -/
def unreferenced (s : Scheduler F) (order : HashOrder) (k : Nat) : List BlockId × RadixPrefixCache :=
  s.prefixCache.evictFilter order k fun _ bs => bs.all fun b => s.prefixRefs b == 0

/-- Unreferenced leaves give their blocks back. -/
theorem evictUnreferenced_ok (h : Tidy s hs) (order : HashOrder) (k : Nat) :
    ∃ t gone, s.evictUnreferenced order k = .ok t ∧ Aligned t.prefixCache.root ∧
      (stored s).Perm (gone ++ stored t) ∧ (∀ b ∈ treeBlocks gone, s.prefixRefs b = 0) ∧
      ledger t = (ledger s).giveBack (treeBlocks gone) ∧
      (treeBlocks gone, t.prefixCache) = unreferenced s order k := by
  unfold Scheduler.evictUnreferenced
  dsimp only
  obtain ⟨hal, gone, hfreed, hperm, hkeep⟩ := evictFilter_aligned order k
    (fun _ bs => bs.all fun b => s.prefixRefs b == 0) h.aligned
  have ho := h.apart
  have hz : ∀ b ∈ treeBlocks gone, s.prefixRefs b = 0 := by
    intro b hb
    obtain ⟨p, hp⟩ := mem_treeBlocks.mp hb
    obtain ⟨_, bs, hbs, hall⟩ := hkeep _ hp
    simpa using List.all_eq_true.mp hall b hbs
  have hsub : ∀ b ∈ treeBlocks gone, b ∈ treeBlocks (stored s) := fun b hb => by
    obtain ⟨p, hp⟩ := mem_treeBlocks.mp hb
    exact mem_treeBlocks.mpr ⟨p, hperm.mem_iff.mpr (List.mem_append_left _ hp)⟩
  have hnd : (treeBlocks gone).Nodup := by
    have := (hperm.map Prod.snd).nodup_iff.mp ho.treeNodup
    rw [List.map_append] at this
    exact (List.nodup_append'.mp this).1
  rw [hfreed]
  obtain ⟨t, ht, hcache, hl⟩ := dropCached_all
    (s := { s with prefixCache := (s.prefixCache.evictFilter order k _).2 }) hnd
    fun b hb => ⟨(ho.tree b (hsub b hb)).1, (ho.tree b (hsub b hb)).2.2.trans (hz b hb)⟩
  refine ⟨t, gone, ht, by rw [hcache]; exact hal, ?_, hz, hl, ?_⟩
  · rw [stored, stored, hcache]
    exact hperm
  · rw [hcache]
    exact Prod.ext hfreed.symm rfl

theorem Tidy.evictUnreferenced (h : Tidy s hs) (order : HashOrder) (k : Nat) :
    ∃ t, s.evictUnreferenced order k = .ok t ∧ Tidy t hs := by
  obtain ⟨t, gone, ht, hal, hperm, hz, hl, -⟩ := evictUnreferenced_ok h order k
  exact ⟨t, ht, hal, by rw [hl]; exact h.apart.giveBack hperm hz⟩

theorem Books.evictUnreferenced (h : Books exact s hs) (order : HashOrder) (k : Nat) :
    ∃ t, s.evictUnreferenced order k = .ok t ∧ Books exact t hs := by
  obtain ⟨t, gone, ht, hal, hperm, hz, hl, -⟩ := evictUnreferenced_ok h.tidy order k
  exact ⟨t, ht, hal, by rw [hl]; exact h.kept.giveBack hperm hz⟩

theorem Books.growOrEvict {seq : Sequence} (h : Books exact s ((prompt, seq.blocks) :: hs))
    (order : HashOrder) (n : Nat) : ∃ ok seq' t, s.growOrEvict order n seq = .ok (ok, seq', t) ∧
      Books exact t ((prompt, seq'.blocks) :: hs) := by
  obtain ⟨got, seq₁, pool, hg, h₁⟩ := h.grow
  simp only [Scheduler.growOrEvict, hg, ok_bind]
  cases hgot : got.isSome with
  | true => exact ⟨true, seq₁, _, rfl, h₁⟩
  | false =>
    obtain ⟨s₂, he, h₂⟩ := h₁.evictUnreferenced order n
    obtain ⟨got', seq₃, pool', hg', h₃⟩ := h₂.grow
    refine ⟨got'.isSome, seq₃, { s₂ with pool := pool' }, ?_, h₃⟩
    simp only [Bool.false_eq_true, if_false, he, ok_bind, hg']
    rfl

theorem Books.growTail {seq : Sequence} (h : Books exact s ((prompt, seq.blocks) :: hs))
    (order : HashOrder) (n m : Nat) : ∃ ok seq' t, growTail order n m s seq = .ok (ok, seq', t) ∧
      Books exact t ((prompt, seq'.blocks) :: hs) := by
  induction m generalizing s seq with
  | zero => exact ⟨true, seq, s, rfl, h⟩
  | succ m ih =>
    obtain ⟨ok, seq₁, s₁, hg, h₁⟩ := h.growOrEvict order n
    simp only [Scheduler.growTail, hg, ok_bind]
    cases ok with
    | true => exact ih h₁
    | false => exact ⟨false, seq₁, s₁, rfl, h₁⟩

/-- The blocks of a request are found. -/
theorem Books.gather {bs : List BlockId} {req : NewRequest F} (h : Books exact s hs)
    (order : HashOrder) (n : Nat) (ha : OnPath (stored s) req.prompt bs)
    (hz : ∀ b ∈ bs, s.prefixRefs b = 0) : ∃ ok seq t, s.gather order req bs n = .ok (ok, seq, t) ∧
      Books exact t ((req.prompt, seq.blocks) :: hs) := by
  obtain ⟨seq, s₁, hr, h₁⟩ := h.reuse req.id n ha hz
  simp only [Scheduler.gather, hr, ok_bind]
  exact h₁.growTail order _ _

/-- The cached blocks a request would reuse. -/
def reusable (s : Scheduler F) (req : NewRequest F) : List BlockId :=
  match s.prefixCache.lookup req.prompt with
  | .ok (some (_, blocks), _) => blocks
  | _ => []

/-- What an unhinted request finds in the tree. -/
theorem cachedPrefix_ok {req : NewRequest F} (ha : Aligned s.prefixCache.root)
    (hreq : req.cachedBlocks = []) :
    ∃ c, s.cachedPrefix req = .ok ((reusable s req, matchedTokens s.prefixCache req.prompt),
        { s with prefixCache := c }) ∧ Aligned c.root ∧ (entries c.root).Perm (stored s) ∧
      OnPath (stored s) req.prompt (reusable s req) := by
  obtain ⟨r, c, hl, hal, hperm, hr⟩ := lookup_aligned req.prompt ha
  simp only [Scheduler.cachedPrefix, reusable, hreq, List.isEmpty_nil, if_true, hl, ok_bind]
  refine ⟨c, ?_, hal, hperm, ?_⟩
  · rcases hr with ⟨rfl, hz⟩ | ⟨bs, rfl, -⟩
    · rw [hz]; rfl
    · rfl
  · rcases hr with ⟨rfl, hz⟩ | ⟨bs, rfl, hlen, hentry⟩
    · intro j b hj
      simp at hj
    · refine fun j b hj => ⟨?_, hentry j b hj⟩
      have hlt : j < matchedTokens s.prefixCache req.prompt / BLOCK_SIZE := by
        rw [← hlen]
        exact (List.getElem?_eq_some_iff.mp hj).1
      calc (j + 1) * BLOCK_SIZE
          ≤ matchedTokens s.prefixCache req.prompt / BLOCK_SIZE * BLOCK_SIZE :=
            Nat.mul_le_mul_right _ hlt
        _ ≤ matchedTokens s.prefixCache req.prompt := Nat.div_mul_le_self _ _
        _ ≤ req.prompt.length := matchLen_le _ _ _

theorem Books.cachedPrefix {req : NewRequest F} (h : Books exact s hs) (hreq : req.cachedBlocks = []) :
    ∃ c, s.cachedPrefix req = .ok ((reusable s req, matchedTokens s.prefixCache req.prompt),
        { s with prefixCache := c }) ∧ Books exact { s with prefixCache := c } hs ∧
      (entries c.root).Perm (stored s) ∧ OnPath (stored s) req.prompt (reusable s req) := by
  obtain ⟨c, hp, hal, hperm, hpath⟩ := cachedPrefix_ok h.aligned hreq
  exact ⟨c, hp, ⟨hal, h.kept.perm hperm⟩, hperm, hpath⟩

/-- Blocks that were reclaimed in a row had no reference. -/
theorem refCount_of_reclaimed {p q : KvBlockPool} {bs : List BlockId}
    (h : bs.foldlM KvBlockPool.reclaim p = .ok q) : ∀ b ∈ bs, p.refCount b = 0 := by
  induction bs generalizing p with
  | nil => exact fun _ hb => nomatch hb
  | cons c rest ih =>
    obtain ⟨r, hr, h⟩ := bind_eq_ok.mp h
    obtain ⟨-, h0, hv⟩ := KvBlockPool.reclaim_ok hr
    have hrc : r.refCount = update p.refCount c 1 := congrArg View.refCount hv
    intro b hb
    rcases List.mem_cons.mp hb with rfl | hb
    · exact h0
    · have := ih h b hb
      by_cases hbc : b = c
      · rw [hbc]; exact h0
      · rwa [hrc, Function.update_of_ne hbc] at this

/-- Reuse that did not panic took blocks without references. -/
theorem refCount_of_reused {bs : List BlockId} {seq : Sequence} {n : Nat} {r : Sequence × Scheduler F}
    (h : s.reuse seq bs n = .ok r) : ∀ b ∈ bs, s.pool.refCount b = 0 := by
  unfold Scheduler.reuse at h
  split at h
  · rename_i hbs
    intro b hb
    rw [List.isEmpty_iff.mp hbs] at hb
    cases hb
  · obtain ⟨⟨_, _⟩, hr, -⟩ := bind_eq_ok.mp h
    unfold Sequence.restoreFromCache at hr
    split at hr
    · cases hr
    · rename_i hq
      exact refCount_of_reclaimed hq

end JustApi.Inference.SchedulerLedger
