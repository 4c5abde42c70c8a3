import JustApi.Inference.HandoffFrame
import JustApi.Inference.SchedulerSafety

/-! # The tree and the pool

A block handed out by the pool is overwritten by its new owner, so none that the
radix tree names may be handed out. The free list keeps clear of the tree; the
pool's own sweep does not, since a sequence that is handed over to another
scheduler leaves the tree's blocks it had reused unpinned. -/
namespace JustApi.Inference.TreeCoherence
open JustApi.Lib.Result JustApi.Inference.KvCache JustApi.Inference.RadixCache
open JustApi.Inference.RadixEntries JustApi.Inference.RadixWalks JustApi.Inference.BlockLedger
open JustApi.Inference.Scheduling JustApi.Inference.Scheduling.Scheduler
open JustApi.Inference.SchedulerLedger JustApi.Inference.SchedulerRuns
open JustApi.Inference.SchedulerSafety JustApi.Inference.Handoff
open Function (update)

variable {F : Type} {s t : Scheduler F} {hs : List Holder} {order : HashOrder} {prompt : List Token}

/-! ## The allocations of a call -/

/-- The states in which one `growOrEvict` calls `alloc`. -/
def growAllocs (s : Scheduler F) (order : HashOrder) (uncached : Nat) (seq : Sequence) :
    List (Scheduler F) :=
  s :: match seq.grow s.pool with
    | .ok (none, _, pool) =>
      match { s with pool := pool }.evictUnreferenced order uncached with
      | .ok u => [u]
      | .error _ => []
    | _ => []

/-- The states in which the loop over the uncached tail calls `alloc`. -/
def tailAllocs (order : HashOrder) (uncached : Nat) :
    Nat → Scheduler F → Sequence → List (Scheduler F)
  | 0, _, _ => []
  | n + 1, s, seq =>
    growAllocs s order uncached seq ++ match s.growOrEvict order uncached seq with
      | .ok (true, seq, s) => tailAllocs order uncached n s seq
      | _ => []

/-- The states in which `gather` calls `alloc`. -/
def gatherAllocs (s : Scheduler F) (order : HashOrder) (req : NewRequest F)
    (cachedBlocks : List BlockId) (cachedTokens : Nat) : List (Scheduler F) :=
  let uncached := totalBlocks req.prompt - cachedBlocks.length
  match s.reuse (.new req.id) cachedBlocks cachedTokens with
  | .error _ => []
  | .ok (seq, s) => tailAllocs order uncached uncached s seq

/-- The states in which a turn of the admission loop calls `alloc`. -/
def turnAllocs (s : Scheduler F) (order : HashOrder) : List (Scheduler F) :=
  if s.running.length < s.config.maxNumSeqs then
    match s.waitQueue with
    | [] => []
    | req :: rest =>
      match s.cachedPrefix req with
      | .error _ => []
      | .ok ((cachedBlocks, cachedTokens), s) =>
        if overBudget s.config req cachedTokens then []
        else gatherAllocs { s with waitQueue := rest } order req cachedBlocks cachedTokens
  else []

/-- The states in which `growBlocks` calls `alloc`. -/
def blockAllocs : Nat → Scheduler F → Sequence → List (Scheduler F)
  | 0, _, _ => []
  | n + 1, s, seq =>
    s :: match seq.grow s.pool with
      | .ok (some _, seq, pool) => blockAllocs n { s with pool := pool } seq
      | _ => []

/-- The states in which a call makes its calls of `alloc`. -/
def allocStates (s : Scheduler F) : Call F → List (Scheduler F)
  | .op op => (admitTurns s op).flatMap fun x => turnAllocs x.1 x.2
  | .takeCompletedPrefill => []
  | .admitTransferred t => blockAllocs (blocksFor (totalTokens t)) s (.new s.nextSeqId)

/-- What `alloc` hands out in this state is in no node of the radix tree. -/
def HandsOutUncached (u : Scheduler F) : Prop :=
  ∀ b pool, u.pool.alloc = .ok (some b, pool) → b ∉ treeBlocks (stored u)

/-- `alloc` does not evict a block of its own accord: the free list has one, or no
block is evictable. -/
def LeavesEviction (u : Scheduler F) : Prop := u.pool.free = [] → u.pool.evictOrder = []

theorem handsOutUncached_of_apart {u : Scheduler F} (h : Apart (ledger u) (stored u) hs)
    (hsweep : LeavesEviction u) : HandsOutUncached u := by
  intro b pool ha hb
  rcases KvBlockPool.alloc_cases ha with ⟨c, rest, hf, -, hc, -⟩ | ⟨-, -, hc, -⟩ | ⟨c, rest, hf, ho, -⟩
  · cases hc
    refine (h.tree b hb).2.1 ?_
    show b ∈ u.pool.free
    rw [hf]
    exact List.mem_cons_self
  · cases hc
  · rw [hsweep hf] at ho
    cases ho

/-! ## Growing -/

/-- In these states free, held and cached blocks are told apart, for some holders. -/
def AllTidy (us : List (Scheduler F)) : Prop := ∀ u ∈ us, ∃ hs, Tidy u hs

theorem growOrEvict_tidy {seq : Sequence} {n : Nat} (h : Tidy s ((prompt, seq.blocks) :: hs))
    (hsweep : ∀ u ∈ growAllocs s order n seq, LeavesEviction u) :
    AllTidy (growAllocs s order n seq) ∧ ∃ ok seq' t, s.growOrEvict order n seq = .ok (ok, seq', t) ∧
      Tidy t ((prompt, seq'.blocks) :: hs) := by
  obtain ⟨got, seq₁, pool, hg, h₁⟩ := h.grow (hsweep s List.mem_cons_self)
  simp only [growAllocs, Scheduler.growOrEvict, hg, ok_bind] at hsweep ⊢
  cases got with
  | some b =>
    refine ⟨?_, true, seq₁, { s with pool := pool }, rfl, h₁⟩
    intro u hu
    rw [List.mem_singleton.mp hu]
    exact ⟨_, h⟩
  | none =>
    obtain ⟨s₂, he, h₂⟩ := h₁.evictUnreferenced order n
    simp only [he, ok_bind, Option.isSome_none, Bool.false_eq_true, if_false] at hsweep ⊢
    obtain ⟨got', seq₃, pool', hg', h₃⟩ :=
      h₂.grow (hsweep s₂ (List.mem_cons_of_mem _ List.mem_cons_self))
    refine ⟨?_, got'.isSome, seq₃, { s₂ with pool := pool' }, ?_, h₃⟩
    · intro u hu
      rcases List.mem_cons.mp hu with rfl | hu
      · exact ⟨_, h⟩
      · rw [List.mem_singleton.mp hu]
        exact ⟨_, h₂⟩
    · simp only [hg', ok_bind]
      rfl

theorem growTail_tidy {seq : Sequence} {n m : Nat} (h : Tidy s ((prompt, seq.blocks) :: hs))
    (hsweep : ∀ u ∈ tailAllocs order n m s seq, LeavesEviction u) :
    AllTidy (tailAllocs order n m s seq) ∧ ∃ ok seq' t,
      Scheduler.growTail order n m s seq = .ok (ok, seq', t) ∧
      Tidy t ((prompt, seq'.blocks) :: hs) := by
  induction m generalizing s seq with
  | zero => exact ⟨fun _ hu => (nomatch hu), true, seq, s, rfl, h⟩
  | succ m ih =>
    obtain ⟨hall, ok, seq₁, s₁, hg, h₁⟩ :=
      growOrEvict_tidy h fun u hu => hsweep u (List.mem_append_left _ hu)
    simp only [tailAllocs, Scheduler.growTail, hg, ok_bind] at hsweep ⊢
    cases ok with
    | true =>
      obtain ⟨hrest, hdone⟩ := ih h₁ fun u hu => hsweep u (List.mem_append_right _ hu)
      refine ⟨fun u hu => ?_, hdone⟩
      rcases List.mem_append.mp hu with hu | hu
      · exact hall u hu
      · exact hrest u hu
    | false =>
      refine ⟨fun u hu => ?_, false, seq₁, s₁, rfl, h₁⟩
      rw [List.append_nil] at hu
      exact hall u hu

theorem growBlocks_tidy {seq : Sequence} {n : Nat} (h : Tidy s ((prompt, seq.blocks) :: hs))
    (hsweep : ∀ u ∈ blockAllocs n s seq, LeavesEviction u) :
    AllTidy (blockAllocs n s seq) ∧ ∀ ok seq' pool,
      Handoff.growBlocks n seq s.pool = .ok (ok, seq', pool) →
      Tidy { s with pool := pool } ((prompt, seq'.blocks) :: hs) := by
  induction n generalizing s seq with
  | zero =>
    refine ⟨fun _ hu => (nomatch hu), fun ok seq' pool hg => ?_⟩
    cases hg
    exact h
  | succ n ih =>
    obtain ⟨got, seq₁, pool₁, hg, h₁⟩ := h.grow (hsweep s List.mem_cons_self)
    simp only [blockAllocs, Handoff.growBlocks, hg, ok_bind] at hsweep ⊢
    cases got with
    | some b =>
      obtain ⟨hrest, hdone⟩ := ih h₁ fun u hu => hsweep u (List.mem_cons_of_mem _ hu)
      refine ⟨fun u hu => ?_, hdone⟩
      rcases List.mem_cons.mp hu with rfl | hu
      · exact ⟨_, h⟩
      · exact hrest u hu
    | none =>
      refine ⟨fun u hu => ?_, fun ok seq' pool hp => ?_⟩
      · rw [List.mem_singleton.mp hu]
        exact ⟨_, h⟩
      · cases hp
        exact h₁

theorem gather_tidy {req : NewRequest F} {bs : List BlockId} {n : Nat} (h : Tidy s hs)
    (ha : OnPath (stored s) req.prompt bs)
    (hsweep : ∀ u ∈ gatherAllocs s order req bs n, LeavesEviction u) :
    AllTidy (gatherAllocs s order req bs n) ∧
      ∀ ok seq t, s.gather order req bs n = .ok (ok, seq, t) →
        Tidy t ((req.prompt, seq.blocks) :: hs) := by
  cases hr : s.reuse (.new req.id) bs n with
  | error e =>
    refine ⟨fun u hu => ?_, fun ok seq t hg => ?_⟩
    · simp [gatherAllocs, hr] at hu
    · obtain ⟨_, hr', -⟩ := bind_eq_ok.mp hg
      rw [hr] at hr'
      cases hr'
  | ok r =>
    -- the blocks were reclaimed, so nobody references them
    have hz : ∀ b ∈ bs, s.prefixRefs b = 0 := fun b hb =>
      (h.apart.tree b (OnPath.mem ha hb)).2.2.symm.trans (refCount_of_reused hr b hb)
    obtain ⟨seq, u, hr', hu⟩ := h.reuse req.id n ha hz
    rw [hr'] at hr
    cases hr
    simp only [gatherAllocs, Scheduler.gather, hr', ok_bind] at hsweep ⊢
    obtain ⟨hall, ok', seq', t', hg', ht'⟩ := growTail_tidy hu hsweep
    refine ⟨hall, fun ok seq t hg => ?_⟩
    rw [hg'] at hg
    cases hg
    exact ht'

/-! ## Calls -/

/-- Free, held and cached blocks are told apart for the running batch, and no
request in the queue brings a hint of its own. -/
structure Coherent (s : Scheduler F) : Prop where
  tidy : Tidy s (s.running.map holder)
  unhinted : ∀ req ∈ s.waitQueue, req.cachedBlocks = []

/-- A turn of the admission loop. -/
theorem admitNext_coherent (h : Coherent s)
    (hsweep : ∀ u ∈ turnAllocs s order, LeavesEviction u) :
    AllTidy (turnAllocs s order) ∧
      ∀ turn t, s.admitNext order = .ok (turn, t) → Coherent t := by
  unfold turnAllocs at hsweep ⊢
  unfold Scheduler.admitNext
  by_cases hlen : s.running.length < s.config.maxNumSeqs
  · simp only [hlen, if_true] at hsweep ⊢
    cases hq : s.waitQueue with
    | nil => exact ⟨fun _ hu => (by cases hu), fun turn t ht => by cases ht; exact h⟩
    | cons req rest =>
      have hreq : req.cachedBlocks = [] := h.unhinted req (hq ▸ List.mem_cons_self)
      have hrest : ∀ r ∈ rest, r.cachedBlocks = [] := fun r hr =>
        h.unhinted r (hq ▸ List.mem_cons_of_mem _ hr)
      obtain ⟨c, hp, hal, hperm, hpath⟩ := cachedPrefix_ok h.tidy.aligned hreq
      have htidy (q : List (NewRequest F)) :
          Tidy { s with prefixCache := c, waitQueue := q } (s.running.map holder) :=
        ⟨hal, h.tidy.apart.perm hperm⟩
      simp only [hq, hp, ok_bind] at hsweep ⊢
      cases hover : overBudget s.config req (matchedTokens s.prefixCache req.prompt) with
      | true =>
        simp only [if_true]
        refine ⟨fun _ hu => (by cases hu), fun turn t ht => ?_⟩
        cases ht
        exact ⟨htidy _, hq ▸ h.unhinted⟩
      | false =>
        simp only [hover, Bool.false_eq_true, if_false] at hsweep ⊢
        obtain ⟨hall, hdone⟩ := gather_tidy (htidy rest)
          (fun j b hj => ⟨(hpath j b hj).1, hperm.mem_iff.mpr (hpath j b hj).2⟩) hsweep
        refine ⟨hall, fun turn t ht => ?_⟩
        obtain ⟨⟨ok, seq, v⟩, hg, ht⟩ := bind_eq_ok.mp ht
        have hv := hdone ok seq v hg
        obtain ⟨hf, -⟩ := gather_frame hg
        have hrun : v.running = s.running := hf.running
        have hqueue : v.waitQueue = rest := hf.waitQueue
        cases ok with
        | true =>
          cases ht
          refine ⟨⟨hv.aligned, ?_⟩, fun r hr => hrest r (hqueue ▸ hr)⟩
          rw [hrun, List.map_append]
          exact hv.apart.permHolders (List.perm_append_singleton _ _)
        | false =>
          cases ht
          refine ⟨⟨hv.aligned, ?_⟩, fun r hr => ?_⟩
          · rw [hrun]
            exact hv.apart.forget
          · rw [hqueue] at hr
            exact h.unhinted r (hq ▸ hr)
  · simp only [hlen, if_false] at hsweep ⊢
    exact ⟨fun _ hu => (by cases hu), fun turn t ht => by cases ht; exact h⟩

theorem admitLoop_coherent (fuel : Nat) (h : Coherent s)
    (hsweep : ∀ v ∈ turns order fuel s, ∀ u ∈ turnAllocs v order, LeavesEviction u) :
    (∀ v ∈ turns order fuel s, AllTidy (turnAllocs v order)) ∧
      ∀ r t, admitLoop order fuel s = .ok (r, t) → Coherent t := by
  induction fuel generalizing s with
  | zero =>
    refine ⟨fun _ hv => (by cases hv), fun r t ht => ?_⟩
    cases ht
    exact h
  | succ fuel ih =>
    obtain ⟨hall, hdone⟩ := admitNext_coherent h (hsweep s List.mem_cons_self)
    cases hn : s.admitNext order with
    | error e =>
      simp only [turns, Scheduler.admitLoop, hn] at hsweep ⊢
      refine ⟨fun v hv => ?_, fun r t ht => (by cases ht)⟩
      rw [List.mem_singleton.mp hv]
      exact hall
    | ok x =>
      obtain ⟨turn, u⟩ := x
      have hu := hdone turn u hn
      cases turn with
      | stop blocked =>
        simp only [turns, Scheduler.admitLoop, hn] at hsweep ⊢
        refine ⟨fun v hv => ?_, fun r t ht => ?_⟩
        · rw [List.mem_singleton.mp hv]
          exact hall
        · cases ht
          exact hu
      | admitted id n =>
        simp only [turns, Scheduler.admitLoop, hn] at hsweep ⊢
        obtain ⟨hrest, hloop⟩ := ih hu fun v hv => hsweep v (List.mem_cons_of_mem _ hv)
        refine ⟨fun v hv => ?_, fun r t ht => ?_⟩
        · rcases List.mem_cons.mp hv with rfl | hv
          · exact hall
          · exact hrest v hv
        · obtain ⟨⟨⟨adm, blocked⟩, w⟩, hl, ht⟩ := bind_eq_ok.mp ht
          cases ht
          exact hloop _ _ hl

theorem retire_coherent (h : Coherent s)
    (hb : ∀ x ∈ trail cacheSeq s.withoutFinished (s.running.filter (finished s.config)),
      AtBoundary x.1 x.2.prompt x.2.seq.blocks) :
    ∃ t, s.retire = .ok t ∧ Coherent t := by
  have hstart : Tidy s.withoutFinished
      ((s.running.filter (finished s.config)).map holder ++ s.withoutFinished.running.map holder) := by
    refine ⟨h.tidy.aligned, h.tidy.apart.permHolders ?_⟩
    rw [← List.map_append]
    exact (List.filter_append_perm _ _).map holder
  obtain ⟨t, ht, htidy⟩ := foldlM_succeeds
    (I := fun rest u => Tidy u (rest.map holder ++ s.withoutFinished.running.map holder))
    (C := fun u r => AtBoundary u r.prompt r.seq.blocks)
    (fun u r rest hu hc => hu.cacheCompleted hc) hstart hb
  have hf := retire_frame ht
  refine ⟨t, ht, ?_, ?_⟩
  · rw [hf.running]
    exact htidy
  · rw [hf.waitQueue]
    exact h.unhinted

theorem cancel_coherent {seqId : Nat} (h : Coherent s) (hb : CachesAtBoundary s (.cancel seqId)) :
    ∃ t, s.cancel seqId = .ok t ∧ Coherent t := by
  unfold Scheduler.cancel
  cases hr : s.running.find? fun r => r.seq.id == seqId with
  | none => exact ⟨s, rfl, h⟩
  | some r =>
    have hbound : AtBoundary s r.prompt r.seq.blocks := hb (s, r) (by simp [cacheCalls, hr])
    have hperm : (holder r :: (s.running.eraseP fun r => r.seq.id == seqId).map holder).Perm
        (s.running.map holder) := by
      rw [← List.map_cons]
      exact (perm_cons_eraseP hr).symm.map holder
    have htidy : Tidy { s with running := s.running.eraseP fun r => r.seq.id == seqId }
        (holder r :: (s.running.eraseP fun r => r.seq.id == seqId).map holder) :=
      ⟨h.tidy.aligned, h.tidy.apart.permHolders hperm⟩
    obtain ⟨t, ht, htt⟩ := htidy.cacheCompleted hbound
    have hf := cacheCompleted_frame ht
    refine ⟨t, ht, ?_, ?_⟩
    · rw [hf.running]
      exact htt
    · rw [hf.waitQueue]
      exact h.unhinted

/-! ### Handing over -/

theorem handOver_all {bs : List BlockId} (hnd : bs.Nodup)
    (hc : ∀ b ∈ bs, b < s.pool.capacity ∧ s.pool.refCount b = 1) :
    ∃ t, bs.foldlM handOver s = .ok t ∧ t.prefixCache = s.prefixCache ∧
      ledger t = (ledger s).vacate bs := by
  refine foldlM_ledger (g := Ledger.vacate)
    (C := fun l b => b < l.view.capacity ∧ l.view.refCount b = 1)
    (fun l => by simp [Ledger.vacate]) ?_ hnd hc
  rintro s b ⟨hlt, h1⟩
  have h1 : s.pool.refCount b = 1 := h1
  obtain ⟨q, hq⟩ := KvBlockPool.release_succeeds (p := s.pool) 0 hlt (by omega)
  obtain ⟨-, -, hv⟩ := KvBlockPool.release_ok hq
  rw [h1] at hv
  have hl : ledger { s with pool := q, prefixRefs := update s.prefixRefs b 0 } =
      ⟨{ s.pool.view with refCount := update s.pool.refCount b 0 }, update s.prefixRefs b 0⟩ :=
    congrArg (fun v => Ledger.mk v _) hv
  refine ⟨{ s with pool := q, prefixRefs := update s.prefixRefs b 0 },
    by simp only [handOver, hq, ok_bind]; rfl, rfl, fun bs => ?_, fun c hne hcc => ?_⟩
  · rw [hl]
    simp only [Ledger.vacate, setOn_cons]
    rfl
  · rw [hl]
    simp only [Function.update_of_ne hne]
    exact hcc

theorem handOverSeq_tidy {r : RunningSeq F} (h : Tidy s (holder r :: hs)) :
    ∃ t, handOverSeq s r = .ok t ∧ Tidy t hs := by
  have ho := h.apart
  obtain ⟨t, ht, hcache, hl⟩ := handOver_all (List.nodup_append'.mp ho.heldNodup).1
    fun b hb => ho.held b (List.mem_append_left _ hb)
  refine ⟨t, ht, by rw [hcache]; exact h.aligned, ?_⟩
  rw [stored, hcache, hl]
  exact ho.vacate

theorem takeCompletedPrefill_coherent {taken : List (TransferableSequence F)} (h : Coherent s)
    (hx : takeCompletedPrefill s = .ok (taken, t)) : Coherent t := by
  obtain ⟨hfold, -, hf, -⟩ := takeCompletedPrefill_ok hx
  have hstart : Tidy (withoutReady s)
      ((s.running.filter ready).map holder ++ (withoutReady s).running.map holder) := by
    refine ⟨h.tidy.aligned, h.tidy.apart.permHolders ?_⟩
    rw [← List.map_append]
    exact (List.filter_append_perm _ _).map holder
  obtain ⟨t', ht', htidy⟩ := foldlM_succeeds
    (I := fun rest u => Tidy u (rest.map holder ++ (withoutReady s).running.map holder))
    (C := fun _ _ => True) (fun u r rest hu _ => handOverSeq_tidy hu) hstart (fun _ _ => trivial)
  rw [hfold] at ht'
  cases ht'
  refine ⟨?_, ?_⟩
  · rw [hf.running]
    exact htidy
  · rw [hf.waitQueue]
    exact h.unhinted

theorem admitTransferred_coherent {x : TransferableSequence F} (h : Coherent s)
    (hsweep : ∀ u ∈ allocStates s (.admitTransferred x), LeavesEviction u) :
    AllTidy (allocStates s (.admitTransferred x)) ∧
      ∀ t, admitTransferred s x = .ok t → Coherent t := by
  have hstart : Tidy s ((x.prompt, (Sequence.new s.nextSeqId).blocks) :: s.running.map holder) :=
    ⟨h.tidy.aligned, h.tidy.apart.start x.prompt⟩
  obtain ⟨hall, hdone⟩ := growBlocks_tidy hstart hsweep
  refine ⟨hall, fun t ht => ?_⟩
  obtain ⟨ok, seq, pool, hg, -, rfl⟩ := admitTransferred_ok ht
  have htidy := hdone ok seq pool hg
  refine ⟨⟨htidy.aligned, ?_⟩, h.unhinted⟩
  cases ok with
  | true =>
    rw [if_pos rfl, List.map_append]
    exact htidy.apart.permHolders (List.perm_append_singleton _ _)
  | false => exact htidy.apart.forget

/-! ## Runs -/

/-- Every sequence a call caches follows the tree to a block boundary. -/
def CallsAtBoundary (s : Scheduler F) : Call F → Prop
  | .op op => CachesAtBoundary s op
  | .takeCompletedPrefill | .admitTransferred _ => True

/-- The call adds no request with a block hint of its own. -/
def CallUnhinted : Call F → Prop
  | .op op => op.Unhinted
  | .takeCompletedPrefill | .admitTransferred _ => True

/-- The pool evicts nothing by itself in any allocation of the call. -/
def NeverSweeps (s : Scheduler F) (call : Call F) : Prop :=
  ∀ u ∈ allocStates s call, LeavesEviction u

theorem perform_coherent {call : Call F} (h : Coherent s) (hu : CallUnhinted call)
    (hb : CallsAtBoundary s call) (hsweep : NeverSweeps s call) :
    AllTidy (allocStates s call) ∧ ∀ t, perform s call = .ok t → Coherent t := by
  cases call with
  | takeCompletedPrefill =>
    refine ⟨fun _ hu => (nomatch hu), fun t ht => ?_⟩
    obtain ⟨⟨taken, t'⟩, hx, rfl⟩ := map_eq_ok.mp ht
    exact takeCompletedPrefill_coherent h hx
  | admitTransferred x => exact admitTransferred_coherent h hsweep
  | op op =>
    cases op with
    | addRequest req =>
      refine ⟨fun _ hu => (nomatch hu), fun t ht => ?_⟩
      cases ht
      refine ⟨⟨h.tidy.aligned, h.tidy.apart⟩, fun r hr => ?_⟩
      rcases List.mem_append.mp hr with hr | hr
      · exact h.unhinted r hr
      · rw [List.mem_singleton.mp hr]
        exact hu
    | onStepComplete seqId n =>
      refine ⟨fun _ hu => (nomatch hu), fun t ht => ?_⟩
      cases ht
      have hmap := onStepComplete_running s seqId n (g := holder) fun _ _ => rfl
      rw [onStepComplete_eq s seqId n]
      exact ⟨⟨h.tidy.aligned, by rw [hmap]; exact h.tidy.apart⟩, h.unhinted⟩
    | cancel seqId =>
      refine ⟨fun _ hu => (nomatch hu), fun t ht => ?_⟩
      obtain ⟨t', ht', h'⟩ := cancel_coherent h hb
      rw [perform, exec, ht'] at ht
      cases ht
      exact h'
    | schedule order =>
      obtain ⟨v, hr, hv⟩ := retire_coherent h hb
      have hturns : allocStates s (.op (.schedule order)) =
          (turns order (v.waitQueue.length + 1) v).flatMap fun w => turnAllocs w order := by
        simp [allocStates, admitTurns, hr, List.flatMap_map]
      rw [NeverSweeps, hturns] at hsweep
      rw [hturns]
      obtain ⟨hall, hloop⟩ := admitLoop_coherent (v.waitQueue.length + 1) hv
        fun w hw u hu => hsweep u (List.mem_flatMap.mpr ⟨w, hw, hu⟩)
      refine ⟨fun u hu => ?_, fun t ht => ?_⟩
      · obtain ⟨w, hw, hu⟩ := List.mem_flatMap.mp hu
        exact hall w hw u hu
      · obtain ⟨⟨sch, t'⟩, hs, rfl⟩ := map_eq_ok.mp ht
        obtain ⟨v', w, adm, blocked, hr', hl, -, rfl⟩ := schedule_ok hs
        rw [hr] at hr'
        cases hr'
        have hw := hloop _ _ hl
        have hf : Fills w.running (w.buildSchedule blocked).1.prefill
            (w.buildSchedule blocked).2.running := fillPrefill_fills w.config _ w.running
        have hmap := hf.map_eq (g := holder) fun _ _ _ => rfl
        exact ⟨⟨hw.tidy.aligned, by rw [hmap]; exact hw.tidy.apart⟩, hw.unhinted⟩

/-- **The pool hands out no block of the tree.** In every run whose calls cache
sequences at block boundaries and whose allocations find a free block, or no
evictable one, no block `alloc` hands out is in a node of the radix tree. -/
theorem handed_out_blocks_uncached (config : SchedulerConfig) (capacity : Nat)
    (calls : List (Call F)) (hu : ∀ call ∈ calls, CallUnhinted call)
    (hb : ∀ x ∈ trail perform (fresh config capacity) calls, CallsAtBoundary x.1 x.2)
    (hsweep : ∀ x ∈ trail perform (fresh config capacity) calls, NeverSweeps x.1 x.2) :
    ∀ x ∈ trail perform (fresh config capacity) calls,
      ∀ u ∈ allocStates x.1 x.2, HandsOutUncached u := by
  have hhealthy := healthy_fresh (F := F) False config capacity
  have hinv := trail_invariant (I := Coherent)
    (C := fun s call => CallUnhinted call ∧ CallsAtBoundary s call ∧ NeverSweeps s call)
    (fun s call t h hc ht => (perform_coherent h hc.1 hc.2.1 hc.2.2).2 t ht)
    ⟨hhealthy.books.tidy, hhealthy.unhinted⟩
    fun x hx => ⟨hu x.2 (mem_of_mem_trail hx), hb x hx, hsweep x hx⟩
  intro x hx u hus
  obtain ⟨hall, -⟩ := perform_coherent (hinv x hx) (hu x.2 (mem_of_mem_trail hx)) (hb x hx)
    (hsweep x hx)
  obtain ⟨hs, htidy⟩ := hall u hus
  exact handsOutUncached_of_apart htidy.apart (hsweep x hx u hus)

instance (s : Scheduler F) (call : Call F) : Decidable (CallsAtBoundary s call) :=
  match call with
  | .op op => inferInstanceAs (Decidable (CachesAtBoundary s op))
  | .takeCompletedPrefill | .admitTransferred _ => .isTrue trivial

instance (s : Scheduler F) (call : Call F) : Decidable (NeverSweeps s call) :=
  inferInstanceAs (Decidable (∀ u ∈ allocStates s call, u.pool.free = [] → u.pool.evictOrder = []))

/-- A prompt is cached, a longer one reuses its block and is handed over, and a
third one comes that has nothing in the cache. -/
def handedOverReuse : List (Call Unit) :=
  [.op (.addRequest (ask 16)), .op (.schedule .listed), .op (.onStepComplete 1 1),
    .op (.schedule .listed), .op (.addRequest (ask 32)), .op (.schedule .listed),
    .takeCompletedPrefill, .op (.addRequest { ask 16 with prompt := List.replicate 16 7 }),
    .op (.schedule .listed)]

theorem handedOverReuse_unhinted : ∀ call ∈ handedOverReuse, CallUnhinted call := by
  simp [handedOverReuse, CallUnhinted, Op.Unhinted, ask]

/-- In a pool of eight blocks the third request finds a free one. -/
theorem handed_out_blocks_uncached_roomy_pool :
    let calls := trail perform (fresh .default 8) handedOverReuse
    calls.length = 9 ∧ ∀ x ∈ calls, ∀ u ∈ allocStates x.1 x.2, HandsOutUncached u :=
  ⟨by decide +kernel, handed_out_blocks_uncached .default 8 handedOverReuse
    handedOverReuse_unhinted (by decide +kernel) (by decide +kernel)⟩

/-- In a pool of two blocks the third request gets block 0 while the tree names it
for the first prompt. -/
theorem tree_block_handed_out :
    (∀ call ∈ handedOverReuse, CallUnhinted call) ∧
      ∃ x ∈ trail perform (fresh .default 2) handedOverReuse,
        ∃ u ∈ allocStates x.1 x.2, ¬ HandsOutUncached u := by
  have h : ∃ x ∈ trail perform (fresh .default 2) handedOverReuse, ∃ u ∈ allocStates x.1 x.2,
      u.pool.alloc.map Prod.fst = .ok (some 0) ∧ 0 ∈ treeBlocks (stored u) :=
    of_decide_eq_true (by decide +kernel)
  obtain ⟨x, hx, u, hu, ha, hb⟩ := h
  refine ⟨handedOverReuse_unhinted, x, hx, u, hu, fun hout => ?_⟩
  obtain ⟨⟨r, pool⟩, hr, rfl⟩ := map_eq_ok.mp ha
  exact hout 0 pool hr hb

end JustApi.Inference.TreeCoherence
