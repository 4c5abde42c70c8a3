import JustApi.Inference.EvictionReach
import JustApi.Inference.SchedulerRuns
import JustApi.Inference.TokenBudget

/-! # What a failed admission leaves behind

A turn of the admission loop that does not find enough blocks puts its request back,
and nothing else: cached blocks it has reclaimed and blocks it has been given stay
taken. So it leaves no trace exactly when there was nothing it could take. -/
namespace JustApi.Inference.FailedAdmission
open JustApi.Lib.Run JustApi.Lib.Result JustApi.Inference.KvCache JustApi.Inference.RadixCache
open JustApi.Inference.RadixEntries JustApi.Inference.BlockLedger
open JustApi.Inference.Scheduling JustApi.Inference.Scheduling.Scheduler
open JustApi.Inference.SchedulerLedger JustApi.Inference.SchedulerRuns
open JustApi.Inference.Handoff JustApi.Inference.TokenBudget
open Function (update)

variable {F : Type} {s t u v w : Scheduler F} {order : HashOrder} {req : NewRequest F}

/-- The turn that starts here takes the first request off the queue and fails to
allocate its blocks. -/
def lacksBlocks (w : Scheduler F) (order : HashOrder) : Bool :=
  match w.waitQueue with
  | [] => false
  | req :: rest =>
    if w.running.length < w.config.maxNumSeqs then
      match w.cachedPrefix req with
      | .error _ => false
      | .ok ((cachedBlocks, cachedTokens), u) =>
        if overBudget u.config req cachedTokens then false
        else
          match gather { u with waitQueue := rest } order req cachedBlocks cachedTokens with
          | .ok (false, _, _) => true
          | _ => false
    else false

/-- `b` was in the tree before the attempt and is free after it. -/
structure Evicted (w t : Scheduler F) (b : BlockId) : Prop where
  stored : b ∈ treeBlocks (stored w)
  removed : b ∉ treeBlocks (SchedulerLedger.stored t)
  free : b ∈ t.pool.free
  refCount : t.pool.refCount b = 0
  pinned : t.pool.pinned b = false
  prefixRefs : t.prefixRefs b = 0

/-- Block by block the attempt from `w` is undone in `t` unless the block was evicted;
the next attempt has every free block this one had, and its request is back in front. -/
structure RolledBack (w t : Scheduler F) : Prop where
  blocks : ∀ b, (t.pool.refCount b = w.pool.refCount b ∧ t.pool.pinned b = w.pool.pinned b ∧
    t.prefixRefs b = w.prefixRefs b) ∨ Evicted w t b
  retry : ∀ b ∈ w.pool.free, b ∈ t.pool.free
  queue : t.waitQueue = w.waitQueue

/-- No leaf of the tree is there to evict: each has no blocks or one that a live
sequence references. -/
def AllReferenced (u : Scheduler F) : Prop :=
  ∀ leaf ∈ collectLeaves u.prefixCache.root [], leaf.blocks ≠ [] →
    ∃ b ∈ leaf.blocks, u.prefixRefs b ≠ 0

/-- There is no block to be had: none is free, the sweep finds none, nor does the
tree. -/
structure Exhausted (u : Scheduler F) : Prop where
  free : u.pool.free = []
  sweep : u.pool.evictOrder = []
  tree : AllReferenced u

/-- The first request has no cached blocks to reuse and no others to be given. -/
def NothingToTake (w : Scheduler F) : Prop :=
  ∀ req ∈ w.waitQueue.head?, ∀ found u, w.cachedPrefix req = .ok (found, u) →
    found.1 = [] ∧ Exhausted u

/-! ## Reference counts during an attempt -/

/-- Every count is as it was, or is one. -/
def Takes (p q : KvBlockPool) : Prop := ∀ b, q.refCount b = p.refCount b ∨ q.refCount b = 1

namespace Takes

variable {p q r : KvBlockPool}

theorem refl (p : KvBlockPool) : Takes p p := fun _ => .inl rfl

theorem of_eq (h : q.refCount = p.refCount) : Takes p q := fun b => .inl (congrFun h b)

theorem of_update {b : BlockId} (h : q.refCount = update p.refCount b 1) : Takes p q := by
  intro c
  rw [h]
  by_cases hc : c = b
  · exact .inr (by rw [hc, Function.update_self])
  · exact .inl (Function.update_of_ne hc _ _)

theorem trans (h : Takes p q) (h' : Takes q r) : Takes p r := by
  intro b
  rcases h' b with he | he
  · rw [he]
    exact h b
  · exact .inr he

/-- A block that is taken stays taken. -/
theorem one (h : Takes p q) {b : BlockId} (hb : p.refCount b = 1) : q.refCount b = 1 :=
  (h b).elim (fun he => he.trans hb) id

end Takes

/-- Some unused block is taken. -/
def Takes.Some (p q : KvBlockPool) : Prop := ∃ b, p.refCount b = 0 ∧ q.refCount b = 1

theorem Takes.Some.extend {p q r s : KvBlockPool} (h : Takes.Some q r)
    (hpq : q.refCount = p.refCount) (hrs : Takes r s) : Takes.Some p s := by
  obtain ⟨b, hb, hb'⟩ := h
  exact ⟨b, by rw [← hpq]; exact hb, hrs.one hb'⟩

theorem dropCached_counts {b : BlockId} (h : s.dropCached b = .ok t) :
    s.pool.refCount b = 0 ∧ t.pool.refCount = s.pool.refCount ∧ t.pool.free = b :: s.pool.free := by
  obtain ⟨p, hp, h⟩ := bind_eq_ok.mp h
  obtain ⟨q, hq, h⟩ := bind_eq_ok.mp h
  cases h
  obtain ⟨-, hv⟩ := KvBlockPool.unpin_ok hp
  obtain ⟨-, h0, hv'⟩ := KvBlockPool.freeCached_ok hq
  have hrc := congrArg View.refCount hv
  have hfree := congrArg View.free hv
  have hrc' := congrArg View.refCount hv'
  have hfree' := congrArg View.free hv'
  simp only [KvBlockPool.view_refCount, KvBlockPool.view_free] at hrc hrc' hfree hfree'
  refine ⟨by rw [← hrc]; exact h0, hrc'.trans hrc, ?_⟩
  show q.free = _
  rw [hfree', hfree]

theorem dropAll_counts {bs : List BlockId} (h : bs.foldlM dropCached s = .ok t) :
    t.pool.refCount = s.pool.refCount ∧
      (bs ≠ [] → ∃ b rest, t.pool.free = b :: rest ∧ s.pool.refCount b = 0) := by
  induction bs generalizing s with
  | nil =>
    cases h
    exact ⟨rfl, fun hne => absurd rfl hne⟩
  | cons b rest ih =>
    rw [List.foldlM_cons] at h
    obtain ⟨s₁, hd, h⟩ := bind_eq_ok.mp h
    obtain ⟨h0, hrc, hfree⟩ := dropCached_counts hd
    obtain ⟨hrc', hlast⟩ := ih h
    refine ⟨hrc'.trans hrc, fun _ => ?_⟩
    cases rest with
    | nil =>
      cases h
      exact ⟨b, _, hfree, h0⟩
    | cons c rest =>
      obtain ⟨d, ds, hds, hd0⟩ := hlast (List.cons_ne_nil _ _)
      exact ⟨d, ds, hds, by rw [← hrc]; exact hd0⟩

/-! ## The leaves there are to evict -/

theorem isLeaf_reorder {a b : RadixNode} (h : Reorder a b) : b.isLeaf = a.isLeaf := by
  induction h with
  | refl node => rfl
  | trans _ _ ihab ihbc => exact ihbc.trans ihab
  | @perm node cs hp =>
    rw [Bool.eq_iff_iff]
    simp only [RadixNode.isLeaf, List.isEmpty_iff]
    exact ⟨fun he => List.Perm.eq_nil (he ▸ hp), fun he => List.Perm.eq_nil (he ▸ hp.symm)⟩
  | @child node before after key c c' hcs _ _ =>
    rw [RadixNode.isLeaf, RadixNode.isLeaf, hcs]
    show (before ++ ⟨key, c'⟩ :: after).isEmpty = _
    cases before <;> rfl

theorem blocks_reorder {a b : RadixNode} (h : Reorder a b) : b.blocks = a.blocks := by
  induction h with
  | refl node => rfl
  | trans _ _ ihab ihbc => exact ihbc.trans ihab
  | perm node hp => rfl
  | child node hcs _ _ => rfl

/-- Whatever the order of the maps, the leaves have the same blocks. -/
theorem leafBlocks_reorder {a b : RadixNode} (h : Reorder a b) (path : List Token) :
    ((collectLeaves b path).map Leaf.blocks).Perm ((collectLeaves a path).map Leaf.blocks) := by
  induction h generalizing path with
  | refl node => exact .refl _
  | trans _ _ ihab ihbc => exact (ihbc path).trans (ihab path)
  | @perm node cs hp =>
    rw [RadixWalks.collectLeaves_eq, RadixWalks.collectLeaves_eq node]
    exact (hp.symm.flatMap_right _).map _
  | @child node before after key c c' hcs hr ih =>
    rw [RadixWalks.collectLeaves_eq, RadixWalks.collectLeaves_eq node, hcs]
    show (((before ++ ⟨key, c'⟩ :: after).flatMap _).map _).Perm _
    simp only [List.flatMap_append, List.flatMap_cons, List.map_append]
    refine .append_left _ (.append_right _ ?_)
    rw [isLeaf_reorder hr, blocks_reorder hr]
    split
    · exact .refl _
    · exact ih _

/-- A pass whose leaves all stay reports nothing. -/
theorem evictLeaves_nil {n : Nat} {keep : Nat → List BlockId → Bool} (leaves : List Leaf)
    (calls : Nat) (root : RadixNode)
    (h : ∀ l ∈ leaves, ∀ i, keep i l.blocks = true → l.blocks = []) :
    (RadixPrefixCache.evictLeaves n keep leaves calls root []).1 = [] := by
  induction leaves generalizing calls root with
  | nil => rfl
  | cons l rest ih =>
    have hrest : ∀ l' ∈ rest, ∀ i, keep i l'.blocks = true → l'.blocks = [] :=
      fun l' hl' => h l' (List.mem_cons_of_mem _ hl')
    simp only [RadixPrefixCache.evictLeaves]
    split
    · rfl
    · split
      · rename_i hk
        rw [h l List.mem_cons_self calls hk]
        exact ih _ _ hrest
      · exact ih _ _ hrest

/-- The blocks that `evictUnreferenced` gets from the tree. -/
def unreferenced (s : Scheduler F) (order : HashOrder) (k : Nat) : List BlockId :=
  (s.prefixCache.evictFilter order k fun _ bs => bs.all fun b => s.prefixRefs b == 0).1

theorem unreferenced_nil_iff {k : Nat} (hk : 0 < k) :
    unreferenced s order k = [] ↔ AllReferenced s := by
  have hperm := (List.perm_insertionSort (fun a b : Leaf => a.access ≤ b.access)
    (collectLeaves (order.apply s.prefixCache.root) []))
  have hblocks := ((hperm.map Leaf.blocks).trans
    (leafBlocks_reorder (order.reorder s.prefixCache.root) []))
  constructor
  · intro h leaf hleaf hne
    by_contra hall
    push Not at hall
    obtain ⟨l, hl, heq⟩ := List.mem_map.mp (hblocks.mem_iff.mpr (List.mem_map_of_mem hleaf))
    refine EvictionReach.evictLeaves_ne_nil hk _ 0 _ [] (.inr ⟨l, hl, fun _ => ?_, heq ▸ hne⟩) h
    rw [heq, List.all_eq_true]
    exact fun b hb => beq_iff_eq.mpr (hall b hb)
  · intro h
    refine evictLeaves_nil _ 0 _ fun l hl _ hk => ?_
    obtain ⟨leaf, hleaf, heq⟩ := List.mem_map.mp (hblocks.mem_iff.mp (List.mem_map_of_mem hl))
    by_contra hne
    obtain ⟨b, hb, hb0⟩ := h leaf hleaf (heq ▸ hne)
    rw [List.all_eq_true] at hk
    exact hb0 (beq_iff_eq.mp (hk b (heq ▸ hb)))

theorem evictUnreferenced_none {k : Nat} (h : s.evictUnreferenced order k = .ok t)
    (hnone : unreferenced s order k = []) : t.pool = s.pool ∧ t.prefixRefs = s.prefixRefs := by
  obtain ⟨cache, h⟩ : ∃ cache, (unreferenced s order k).foldlM dropCached
      { s with prefixCache := cache } = .ok t := ⟨_, h⟩
  rw [hnone] at h
  cases h
  exact ⟨rfl, rfl⟩

/-! ## Growing -/

theorem grow_alloc {seq seq' : Sequence} {p q : KvBlockPool} {got : Option BlockId}
    (h : seq.grow p = .ok (got, seq', q)) : p.alloc = .ok (got, q) := by
  unfold Sequence.grow at h
  split at h
  · cases h
  · cases h
    assumption
  · cases h
    assumption

section Alloc

variable {p q : KvBlockPool} {got : Option BlockId}

theorem alloc_takes (h : p.alloc = .ok (got, q)) : Takes p q := by
  rcases KvBlockPool.alloc_cases h with ⟨b, rest, -, -, -, hv⟩ | ⟨-, -, -, hv⟩ |
    ⟨b, rest, -, -, -, -, hv⟩
  · exact .of_update (congrArg View.refCount hv)
  · exact .of_eq (congrArg View.refCount hv)
  · exact .of_update (congrArg View.refCount hv)

theorem alloc_none (h : p.alloc = .ok (none, q)) :
    p.free = [] ∧ p.evictOrder = [] ∧ q.view = p.view := by
  rcases KvBlockPool.alloc_cases h with ⟨c, rest, -, -, hsome, -⟩ | ⟨hf, ho, -, hv⟩ |
    ⟨c, rest, -, -, -, hsome, -⟩
  · cases hsome
  · exact ⟨hf, ho, hv⟩
  · cases hsome

/-- A block that is given out was free, or the sweep found it. -/
theorem alloc_some {b : BlockId} (h : p.alloc = .ok (some b, q)) :
    p.free ≠ [] ∨ p.evictOrder ≠ [] ∧ Takes.Some p q := by
  rcases KvBlockPool.alloc_cases h with ⟨c, rest, hf, -⟩ | ⟨-, -, hnone, -⟩ |
    ⟨c, rest, -, ho, h0, -, hv⟩
  · exact .inl (by simp [hf])
  · cases hnone
  · refine .inr ⟨by simp [ho], c, h0, ?_⟩
    have hrc : q.refCount = update p.refCount c 1 := congrArg View.refCount hv
    rw [hrc, Function.update_self]

theorem alloc_exhausted (hf : p.free = []) (ho : p.evictOrder = []) (h : p.alloc = .ok (got, q)) :
    got = none ∧ q.view = p.view := by
  cases got with
  | none => exact ⟨rfl, (alloc_none h).2.2⟩
  | some b =>
    rcases alloc_some h with hne | ⟨hne, -⟩
    · exact absurd hf hne
    · exact absurd ho hne

/-- The top of the free list is what is given out. -/
theorem alloc_free {c : BlockId} {rest : List BlockId} (hf : p.free = c :: rest)
    (h : p.alloc = .ok (got, q)) : got = some c ∧ q.refCount c = 1 := by
  rcases KvBlockPool.alloc_cases h with ⟨c', rest', hf', -, hgot, hv⟩ | ⟨hf', -⟩ | ⟨-, -, hf', -⟩
  · rw [hf] at hf'
    cases hf'
    have hrc : q.refCount = update p.refCount c 1 := congrArg View.refCount hv
    exact ⟨hgot, by rw [hrc, Function.update_self]⟩
  · rw [hf] at hf'
    cases hf'
  · rw [hf] at hf'
    cases hf'

theorem evictOrder_congr (h : q.view = p.view) (ho : p.evictOrder = []) : q.evictOrder = [] := by
  have hcap : q.capacity = p.capacity := congrArg View.capacity h
  have hrc : q.refCount = p.refCount := congrArg View.refCount h
  have hpin : q.pinned = p.pinned := congrArg View.pinned h
  rw [KvBlockPool.evictOrder_eq_nil_iff, hcap, hrc, hpin]
  exact KvBlockPool.evictOrder_eq_nil_iff.mp ho

end Alloc

theorem evictUnreferenced_takes {k : Nat} (h : s.evictUnreferenced order k = .ok t) :
    Takes s.pool t.pool := .of_eq (dropAll_counts h).1

theorem growOrEvict_takes {n : Nat} {seq seq' : Sequence} {ok : Bool}
    (h : s.growOrEvict order n seq = .ok (ok, seq', t)) : Takes s.pool t.pool := by
  obtain ⟨⟨got, seq₁, pool⟩, hg, h⟩ := bind_eq_ok.mp h
  have hfirst := alloc_takes (grow_alloc hg)
  cases got with
  | some b =>
    cases h
    exact hfirst
  | none =>
    obtain ⟨s₁, he, h⟩ := bind_eq_ok.mp h
    obtain ⟨⟨got', seq₂, pool'⟩, hg', h⟩ := bind_eq_ok.mp h
    cases h
    exact (hfirst.trans (evictUnreferenced_takes he)).trans (alloc_takes (grow_alloc hg'))

theorem growTail_takes {n m : Nat} {seq seq' : Sequence} {ok : Bool}
    (h : growTail order n m s seq = .ok (ok, seq', t)) : Takes s.pool t.pool := by
  induction m generalizing s seq with
  | zero =>
    cases h
    exact .refl _
  | succ m ih =>
    obtain ⟨⟨ok₁, seq₁, s₁⟩, hg, h⟩ := bind_eq_ok.mp h
    cases ok₁ with
    | true => exact (growOrEvict_takes hg).trans (ih h)
    | false =>
      cases h
      exact growOrEvict_takes hg

/-- What a turn that gave out a block says about the state it started in. -/
def Gained (s t : Scheduler F) : Prop :=
  ¬ Exhausted s ∧ (s.pool.free ≠ [] ∨ Takes.Some s.pool t.pool)

/-- Nothing is gained and nothing changed but the tree's order. -/
structure Unmoved (s t : Scheduler F) : Prop where
  exhausted : Exhausted s
  pool : t.pool.view = s.pool.view
  prefixRefs : t.prefixRefs = s.prefixRefs

theorem Unmoved.free (h : Unmoved s t) : t.pool.free = [] :=
  (congrArg View.free h.pool).trans h.exhausted.free

theorem growOrEvict_outcome {n : Nat} (hn : 0 < n) {seq seq' : Sequence} {ok : Bool}
    (h : s.growOrEvict order n seq = .ok (ok, seq', t)) :
    if ok then Gained s t else Unmoved s t := by
  obtain ⟨⟨got, seq₁, pool⟩, hg, h⟩ := bind_eq_ok.mp h
  cases got with
  | some b =>
    cases h
    rcases alloc_some (grow_alloc hg) with hfree | ⟨hsweep, htook⟩
    · exact ⟨fun he => hfree he.free, .inl hfree⟩
    · exact ⟨fun he => hsweep he.sweep, .inr htook⟩
  | none =>
    obtain ⟨s₁, he, h⟩ := bind_eq_ok.mp h
    obtain ⟨⟨got', seq₂, pool'⟩, hg', h⟩ := bind_eq_ok.mp h
    cases h
    obtain ⟨hfree, hsweep, hview⟩ := alloc_none (grow_alloc hg)
    by_cases hnone : unreferenced { s with pool := pool } order n = []
    · -- the tree has nothing either
      obtain ⟨hpool, hrefs⟩ := evictUnreferenced_none he hnone
      have hview₁ : s₁.pool.view = s.pool.view := by rw [hpool, ← hview]
      have hfree₁ : s₁.pool.free = [] := (congrArg View.free hview₁).trans hfree
      obtain ⟨rfl, hview'⟩ :=
        alloc_exhausted hfree₁ (evictOrder_congr hview₁ hsweep) (grow_alloc hg')
      exact ⟨⟨hfree, hsweep, (unreferenced_nil_iff hn).mp hnone⟩, hview'.trans hview₁, hrefs⟩
    · -- an evicted block is given out
      obtain ⟨-, hlast⟩ := dropAll_counts he
      obtain ⟨c, rest, hfree₁, h0⟩ := hlast hnone
      obtain ⟨rfl, hone⟩ := alloc_free hfree₁ (grow_alloc hg')
      have hrc : pool.refCount = s.pool.refCount := congrArg View.refCount hview
      refine ⟨fun hex => hnone ((unreferenced_nil_iff hn).mpr hex.tree), .inr ⟨c, ?_, hone⟩⟩
      rw [← hrc]
      exact h0

/-- A tail that could not be allocated leaves no free block, and either nothing was to
be had from the start or something is taken. -/
theorem growTail_failed {n m : Nat} (hn : 0 < n) {seq seq' : Sequence}
    (h : growTail order n m s seq = .ok (false, seq', t)) :
    t.pool.free = [] ∧ (Unmoved s t ∨ Gained s t) := by
  induction m generalizing s seq with
  | zero => cases h
  | succ m ih =>
    obtain ⟨⟨ok₁, seq₁, s₁⟩, hg, h⟩ := bind_eq_ok.mp h
    have hout := growOrEvict_outcome hn hg
    cases ok₁ with
    | true =>
      obtain ⟨hne, hgain⟩ : Gained s s₁ := hout
      have htail : growTail order n m s₁ seq₁ = .ok (false, seq', t) := h
      refine ⟨(ih htail).1, .inr ⟨hne, hgain.imp_right fun htook => ?_⟩⟩
      exact htook.extend rfl (growTail_takes htail)
    | false =>
      cases h
      have hstill : Unmoved s t := hout
      exact ⟨hstill.free, .inl hstill⟩

/-! ## Reusing -/

theorem reclaim_takes {b : BlockId} {p q : KvBlockPool} (h : p.reclaim b = .ok q) : Takes p q :=
  .of_update (congrArg View.refCount (KvBlockPool.reclaim_ok h).2.2)

theorem adopt_takes {b : BlockId} (h : s.adopt b = .ok t) : Takes s.pool t.pool := by
  obtain ⟨p, hp, h⟩ := bind_eq_ok.mp h
  cases h
  exact .of_eq (congrArg View.refCount (KvBlockPool.unpin_ok hp).2)

/-- Reused blocks were unused before. -/
theorem reuse_takes {seq seq' : Sequence} {bs : List BlockId} {n : Nat}
    (h : s.reuse seq bs n = .ok (seq', t)) :
    if bs = [] then t = s else Takes.Some s.pool t.pool := by
  cases bs with
  | nil =>
    cases h
    rfl
  | cons b rest =>
    obtain ⟨⟨seq₁, pool⟩, hr, h⟩ := bind_eq_ok.mp h
    obtain ⟨s₁, ha, h⟩ := bind_eq_ok.mp h
    cases h
    have hadopt : Takes pool t.pool := foldlM_invariant (I := fun u => Takes pool u.pool)
      (fun _ _ _ hu hv => hu.trans (adopt_takes hv)) (.refl _) ha
    unfold Sequence.restoreFromCache at hr
    split at hr
    · cases hr
    · rename_i hfold
      cases hr
      rw [List.foldlM_cons] at hfold
      obtain ⟨p₁, hb, hfold⟩ := bind_eq_ok.mp hfold
      obtain ⟨-, h0, hv⟩ := KvBlockPool.reclaim_ok hb
      have hrest : Takes p₁ pool := foldlM_invariant (I := Takes p₁)
        (fun _ _ _ hu hv => hu.trans (reclaim_takes hv)) (.refl _) hfold
      have hrc : p₁.refCount = update s.pool.refCount b 1 := congrArg View.refCount hv
      refine ⟨b, h0, (hrest.trans hadopt).one ?_⟩
      rw [hrc, Function.update_self]

/-- The two ways an attempt fails. -/
theorem gather_failed {bs : List BlockId} {n : Nat} {seq : Sequence}
    (h : s.gather order req bs n = .ok (false, seq, t)) :
    t.pool.free = [] ∧ ((bs = [] ∧ Unmoved s t) ∨
      (¬ (bs = [] ∧ Exhausted s) ∧ (s.pool.free ≠ [] ∨ Takes.Some s.pool t.pool))) := by
  obtain ⟨⟨seq₁, s₁⟩, hr, h⟩ := bind_eq_ok.mp h
  have hreuse := reuse_takes hr
  have hpos : 0 < totalBlocks req.prompt - bs.length := by
    rw [Nat.pos_iff_ne_zero]
    intro hz
    dsimp only at h
    rw [hz] at h
    cases h
  obtain ⟨hfree, hout⟩ := growTail_failed hpos h
  refine ⟨hfree, ?_⟩
  by_cases hbs : bs = []
  · rw [if_pos hbs] at hreuse
    subst hreuse
    rcases hout with hstill | ⟨hne, hgain⟩
    · exact .inl ⟨hbs, hstill⟩
    · exact .inr ⟨fun he => hne he.2, hgain⟩
  · rw [if_neg hbs] at hreuse
    exact .inr ⟨fun he => hbs he.1, .inr (hreuse.extend rfl (growTail_takes h))⟩

/-! ## A failing turn -/

theorem lacksBlocks_ok (h : lacksBlocks w order = true) : ∃ req rest found u seq v,
    w.waitQueue = req :: rest ∧ w.cachedPrefix req = .ok (found, u) ∧
      gather { u with waitQueue := rest } order req found.1 found.2 = .ok (false, seq, v) ∧
      w.admitNext order = .ok (.stop true, { v with waitQueue := req :: v.waitQueue }) := by
  unfold lacksBlocks at h
  split at h
  · cases h
  rename_i req rest hq
  split at h
  · rename_i hlen
    split at h
    · cases h
    rename_i bs n u hp
    split at h
    · cases h
    · rename_i hover
      split at h
      · rename_i seq v hg
        refine ⟨req, rest, (bs, n), u, seq, v, hq, hp, hg, ?_⟩
        simp only [Scheduler.admitNext, hlen, if_true, hq, hp, ok_bind, hover, hg]
        rfl
      · cases h
  · cases h

/-- The loop stops at a turn that stops, and ends where it does. -/
theorem admitLoop_stops {fuel : Nat} {r : List (Nat × Nat) × Bool} {blocked : Bool}
    (h : admitLoop order fuel s = .ok (r, t)) (hw : w ∈ turns order fuel s)
    (hstop : w.admitNext order = .ok (.stop blocked, u)) : t = u := by
  induction fuel generalizing s r with
  | zero => cases hw
  | succ fuel ih =>
    simp only [admitLoop] at h
    simp only [turns] at hw
    rcases List.mem_cons.mp hw with rfl | hw
    · rw [hstop] at h
      cases h
      rfl
    · split at hw
      · rename_i hn
        rw [hn] at h
        obtain ⟨x, hl, h⟩ := bind_eq_ok.mp h
        cases h
        exact ih hl hw
      · cases hw

theorem cachedPrefix_pool {found : List BlockId × Nat} (h : w.cachedPrefix req = .ok (found, u)) :
    u.pool = w.pool ∧ u.prefixRefs = w.prefixRefs := by
  unfold cachedPrefix at h
  split at h
  · obtain ⟨⟨_, _⟩, -, h⟩ := bind_eq_ok.mp h
    cases h
    exact ⟨rfl, rfl⟩
  · cases h
    exact ⟨rfl, rfl⟩

/-- The turn is undone exactly when there was nothing to take. -/
theorem rolledBack_iff (hf : lacksBlocks w order = true)
    (hx : w.admitNext order = .ok (.stop true, u)) (hpool : t.pool = u.pool)
    (hrefs : t.prefixRefs = u.prefixRefs) (hqueue : t.waitQueue = u.waitQueue) :
    RolledBack w t ↔ NothingToTake w := by
  obtain ⟨req, rest, found, s, seq, v, hq, hp, hg, hx'⟩ := lacksBlocks_ok hf
  rw [hx] at hx'
  cases hx'
  obtain ⟨hspool, hsrefs⟩ := cachedPrefix_pool hp
  obtain ⟨hfree, hout⟩ := gather_failed hg
  have hempty : t.pool.free = [] := by rw [hpool]; exact hfree
  have hiff : NothingToTake w ↔ found.1 = [] ∧ Exhausted s := by
    constructor
    · exact fun h => h req (by simp [hq]) found s hp
    · intro h req' hreq' found' s' hp'
      have he : req' = req := by simpa [hq, eq_comm] using hreq'
      subst he
      rw [hp] at hp'
      cases hp'
      exact h
  have hback : t.waitQueue = w.waitQueue := by
    rw [hqueue, hq]
    show req :: v.waitQueue = _
    rw [(gather_frame hg).1.waitQueue]
  rw [hiff]
  rcases hout with ⟨hbs, hstill⟩ | ⟨hne, hgain⟩
  · have hview : t.pool.view = w.pool.view := by
      rw [hpool, ← hspool]
      exact hstill.pool
    refine iff_of_true ⟨fun b => .inl ⟨?_, ?_, ?_⟩, fun b hb => ?_, hback⟩
      ⟨hbs, hstill.exhausted.free, hstill.exhausted.sweep, hstill.exhausted.tree⟩
    · exact congrFun (congrArg View.refCount hview) b
    · exact congrFun (congrArg View.pinned hview) b
    · rw [hrefs, ← hsrefs]
      exact congrFun hstill.prefixRefs b
    · have hsame : t.pool.free = w.pool.free := congrArg View.free hview
      rwa [hsame]
  · refine iff_of_false (fun h => ?_) fun h => hne ⟨h.1, h.2.free, h.2.sweep, h.2.tree⟩
    rcases hgain with hfree' | ⟨b, h0, h1⟩
    · -- a block that was free is gone
      obtain ⟨b, hb⟩ := List.exists_mem_of_ne_nil _ hfree'
      have hgone := h.retry b (by rw [← hspool]; exact hb)
      rw [hempty] at hgone
      cases hgone
    · -- a block that nobody held is held
      have hw0 : w.pool.refCount b = 0 := by rw [← hspool]; exact h0
      have ht1 : t.pool.refCount b = 1 := by rw [hpool]; exact h1
      rcases h.blocks b with ⟨he, -⟩ | hev
      · rw [hw0, ht1] at he
        cases he
      · rw [hev.refCount] at ht1
        cases ht1

/-! ## Runs -/

/-- The states in which a call starts the admissions that fail for lack of blocks. -/
def failedAttempts (s : Scheduler F) : Call F → List (Scheduler F)
  | .op (.schedule order) =>
    ((admitTurns s (.schedule order)).map Prod.fst).filter fun w => lacksBlocks w order
  | _ => []

theorem rolledBack_iff_of_step {call : Call F} (h : Performs s call t) :
    ∀ w ∈ failedAttempts s call, (RolledBack w t ↔ NothingToTake w) := by
  intro w hw
  unfold failedAttempts at hw
  split at hw
  · rename_i order
    obtain ⟨hw, hf⟩ := List.mem_filter.mp hw
    obtain ⟨⟨sch, t'⟩, hs, rfl⟩ := map_eq_ok.mp h
    obtain ⟨u, v, adm, blocked, hr, ha, -, rfl⟩ := schedule_ok hs
    obtain ⟨x, hx, rfl⟩ := List.mem_map.mp hw
    simp only [admitTurns, hr] at hx
    obtain ⟨w, hturn, rfl⟩ := List.mem_map.mp hx
    obtain ⟨req, rest, found, s', seq, v', -, -, -, hstop⟩ := lacksBlocks_ok hf
    have hend := admitLoop_stops ha hturn hstop
    subst hend
    exact rolledBack_iff hf hstop rfl rfl rfl
  · cases hw

/-- **A failed admission leaves no trace exactly when there was nothing to take.** In
every run of a scheduler's operations, for every admission that fails for lack of
blocks: after its `schedule` the counts, pins and references are as before the attempt
but for evicted blocks, no free block is gone and the request is back in front, if and
only if the request had no cached blocks and none was free or left to evict. -/
theorem failed_admission_rolledBack_iff (config : SchedulerConfig) (pool : KvBlockPool)
    (tr : List (Call F × Scheduler F)) (hrun : Along Performs (.new config pool) tr) :
    Along (fun s call t => ∀ w ∈ failedAttempts s call, (RolledBack w t ↔ NothingToTake w))
      (.new config pool) tr :=
  hrun.imp fun _ _ _ => rolledBack_iff_of_step

/-- Two prompts; the first takes a block of sixteen tokens, the second needs two. -/
def oneAfterAnother : List (Call Unit) :=
  [.op (.addRequest ⟨0, (List.range 16).map UInt32.ofNat, ⟨2, (), (), 0, []⟩, 0, []⟩),
    .op (.schedule .listed),
    .op (.addRequest ⟨0, (List.range 32).map UInt32.ofNat, ⟨2, (), (), 0, []⟩, 0, []⟩)]

/-- In a pool of one block the second prompt finds nothing. -/
theorem failed_admission_rolledBack_fullPool :
    let calls := oneAfterAnother ++ [.op (.schedule .listed)]
    (failedAttempts (final perform (.new ⟨4, 64, 64, none⟩ (.new 1)) oneAfterAnother)
      (.op (.schedule .listed))).map (fun w => (w.pool.free, w.waitQueue.map NewRequest.id)) =
        [([], [2])] ∧
    Along (fun s call t => ∀ w ∈ failedAttempts s call, (RolledBack w t ↔ NothingToTake w))
      (.new ⟨4, 64, 64, none⟩ (.new 1)) (replay perform (.new ⟨4, 64, 64, none⟩ (.new 1)) calls) :=
  ⟨by decide +kernel, failed_admission_rolledBack_iff ⟨4, 64, 64, none⟩ (.new 1) _
    (along_replay perform _ _)⟩

/-- In a pool of two blocks it takes the one that is free, and fails. The block stays
referenced, in the hands of nobody. -/
theorem failed_admission_keeps_block :
    let s := final perform (.new ⟨4, 64, 64, none⟩ (.new 2)) oneAfterAnother
    (failedAttempts s (.op (.schedule .listed))).map (fun w => (w.pool.free, w.pool.refCount 1)) =
      [([1], 0)] ∧
    (perform s (.op (.schedule .listed))).map (fun t => (t.pool.free, t.pool.refCount 1,
      t.running.map fun r => r.seq.blocks)) = .ok ([], 1, [[0]]) ∧
    ¬ ∀ t, Performs s (.op (.schedule .listed)) t →
      ∀ w ∈ failedAttempts s (.op (.schedule .listed)), RolledBack w t := by
  have hbefore : (failedAttempts (final perform (.new ⟨4, 64, 64, none⟩ (.new 2)) oneAfterAnother)
      (.op (.schedule .listed))).map (fun w => (w.pool.free, w.pool.refCount 1)) = [([1], 0)] := by
    decide +kernel
  have hafter : (perform (final perform (.new ⟨4, 64, 64, none⟩ (.new 2)) oneAfterAnother)
      (.op (.schedule .listed))).map (fun t => (t.pool.free, t.pool.refCount 1,
        t.running.map fun r => r.seq.blocks)) = .ok ([], 1, [[0]]) := by
    decide +kernel
  refine ⟨hbefore, hafter, fun hall => ?_⟩
  obtain ⟨t, ht, he⟩ := map_eq_ok.mp hafter
  obtain ⟨w, hw, hew⟩ := List.mem_map.mp (hbefore ▸ List.mem_singleton.mpr rfl)
  simp only [Prod.mk.injEq] at he hew
  rcases (hall t ht w hw).blocks 1 with ⟨hcount, -⟩ | hev
  · rw [he.2.1, hew.2] at hcount
    cases hcount
  · rw [hev.refCount] at he
    cases he.2.1

end JustApi.Inference.FailedAdmission
