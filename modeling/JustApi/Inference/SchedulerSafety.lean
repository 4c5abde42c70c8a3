import JustApi.Lib.Run
import JustApi.Inference.SchedulerRuns

/-! # Panics and leaks of the scheduler

From a new scheduler, runs whose sequences are cached at block boundaries panic
exactly where an admission reuses a block with a live reference, and lose no block
as long as every sequence leaves with all its blocks cached and no failed
admission had blocks in hand. -/
namespace JustApi.Inference.SchedulerSafety
open JustApi.Lib.Run JustApi.Lib.Result JustApi.Inference.KvCache JustApi.Inference.RadixCache
open JustApi.Inference.RadixEntries JustApi.Inference.RadixWalks JustApi.Inference.BlockLedger
open JustApi.Inference.Scheduling JustApi.Inference.Scheduling.Scheduler
open JustApi.Inference.SchedulerLedger JustApi.Inference.SchedulerRuns

variable {F : Type}

/-- A new scheduler over a new pool. -/
def fresh (config : SchedulerConfig) (capacity : Nat) : Scheduler F := .new config (.new capacity)

theorem view_new (capacity : Nat) : ∃ n, (KvBlockPool.new capacity).view =
    ⟨n, List.range n, fun _ => 0, fun _ => false⟩ := by
  refine ⟨min (max capacity 1) MAX_BLOCKS, ?_⟩
  have hmeta : ∀ b : BlockId, (KvBlockPool.new capacity).metas[b]?.getD BlockMeta.new =
      BlockMeta.new := by
    intro b
    simp only [KvBlockPool.new, List.getElem?_replicate]
    split <;> rfl
  simp only [KvBlockPool.view, KvBlockPool.capacity, View.mk.injEq]
  refine ⟨by simp [KvBlockPool.new], rfl, funext fun b => ?_, funext fun b => ?_⟩
  · rw [KvBlockPool.refCount, hmeta]; rfl
  · rw [KvBlockPool.pinned, hmeta]; rfl

theorem healthy_fresh (exact : Prop) (config : SchedulerConfig) (capacity : Nat) :
    Healthy exact (fresh (F := F) config capacity) := by
  obtain ⟨n, hv⟩ := view_new capacity
  have hl : ledger (fresh (F := F) config capacity) =
      ⟨⟨n, List.range n, fun _ => 0, fun _ => false⟩, fun _ => 0⟩ :=
    congrArg (fun v => Ledger.mk v _) hv
  have hs : stored (fresh (F := F) config capacity) = [] := rfl
  refine ⟨⟨.mk List.nodupKeys_nil (fun _ he => nomatch he) (fun _ he => nomatch he), ?_⟩,
    fun _ h => nomatch h⟩
  rw [hl, hs]
  refine ⟨⟨List.nodup_range, ?_, ?_, List.nodup_nil, ?_, ?_, List.nodup_nil, ?_, ?_⟩,
    fun _ => ⟨?_, ?_⟩⟩
  · exact fun b hb => ⟨List.mem_range.mp hb, rfl, rfl⟩
  · exact fun b hb _ => .inl (List.mem_range.mpr hb)
  · exact fun _ hb => nomatch hb
  · exact fun _ hb => absurd rfl hb
  · exact fun _ hb => nomatch hb
  · exact fun _ hb => nomatch hb
  · exact fun b hb => .inl (List.mem_range.mpr hb)
  · exact fun _ hb => absurd rfl hb

/-! ## Panics -/

theorem run_ok_iff {s : Scheduler F} (h : Healthy False s) (ops : List (Op F))
    (hu : ∀ op ∈ ops, op.Unhinted) (hb : ∀ x ∈ trail exec s ops, CachesAtBoundary x.1 x.2) :
    (∃ t, ops.foldlM exec s = .ok t) ↔ ∀ x ∈ trail exec s ops, ReusesUnreferenced x.1 x.2 := by
  induction ops generalizing s with
  | nil => exact ⟨fun _ _ hx => (nomatch hx), fun _ => ⟨s, rfl⟩⟩
  | cons op rest ih =>
    have hu₁ := hu op List.mem_cons_self
    have hb₁ := hb (s, op) List.mem_cons_self
    constructor
    · rintro ⟨t, ht⟩
      obtain ⟨u, hx, ht⟩ := bind_eq_ok.mp ht
      obtain ⟨hfree, u', hx', hh⟩ := h.exec hu₁ hb₁ (.inl ⟨u, hx⟩) False.elim
      rw [hx] at hx'
      cases hx'
      rw [trail_cons_ok hx] at hb ⊢
      intro x hxm
      rcases List.mem_cons.mp hxm with rfl | hxm
      · exact hfree
      · exact (ih hh (fun o ho => hu o (List.mem_cons_of_mem _ ho))
          fun y hy => hb y (List.mem_cons_of_mem _ hy)).mp ⟨t, ht⟩ x hxm
    · intro hfree
      obtain ⟨-, u, hx, hh⟩ := h.exec hu₁ hb₁ (.inr (hfree (s, op) List.mem_cons_self)) False.elim
      rw [trail_cons_ok hx] at hb hfree
      obtain ⟨t, ht⟩ := (ih hh (fun o ho => hu o (List.mem_cons_of_mem _ ho))
        fun y hy => hb y (List.mem_cons_of_mem _ hy)).mpr
          fun y hy => hfree y (List.mem_cons_of_mem _ hy)
      exact ⟨t, by rw [foldlM_cons, hx]; exact ht⟩

/-- **The scheduler panics exactly on reuse of a live block.** In every run whose
calls cache sequences at block boundaries of the tree, no call panics if and only
if every admission of the run reuses cached blocks without live references only. -/
theorem scheduler_never_panics_iff (config : SchedulerConfig) (capacity : Nat) (ops : List (Op F))
    (hu : ∀ op ∈ ops, op.Unhinted)
    (hb : ∀ x ∈ trail exec (fresh config capacity) ops, CachesAtBoundary x.1 x.2) :
    (∃ t, ops.foldlM exec (fresh config capacity) = .ok t) ↔
      ∀ x ∈ trail exec (fresh config capacity) ops, ReusesUnreferenced x.1 x.2 :=
  run_ok_iff (healthy_fresh False config capacity) ops hu hb

instance (s : Scheduler F) (op : Op F) : Decidable (CachesAtBoundary s op) :=
  inferInstanceAs (Decidable (∀ x ∈ cacheCalls s op,
    matchedTokens x.1.prefixCache (x.2.prompt.take
      (cacheBlocks x.2.prompt x.2.seq.blocks * BLOCK_SIZE)) % BLOCK_SIZE = 0))

instance (s : Scheduler F) (op : Op F) : Decidable (ReusesUnreferenced s op) :=
  inferInstanceAs (Decidable (∀ x ∈ admitTurns s op,
    ∀ req ∈ candidate x.1, ∀ b ∈ reusable x.1 req, x.1.prefixRefs b = 0))

/-- A request for one token of the prompt `0, 1, …, n - 1`. -/
def ask (n : Nat) : NewRequest Unit := ⟨0, (List.range n).map UInt32.ofNat, ⟨1, (), (), 0, []⟩, 0, []⟩

/-- A request runs, finishes and leaves its prompt in the cache; so does the same
prompt a second time. -/
def oneAfterTheOther : List (Op Unit) :=
  [.addRequest (ask 32), .schedule .listed, .onStepComplete 1 1, .schedule .listed,
    .addRequest (ask 32), .schedule .listed, .onStepComplete 2 1, .schedule .listed]

theorem scheduler_never_panics_one_after_the_other :
    ∃ t, oneAfterTheOther.foldlM exec (fresh .default 8) = .ok t :=
  (scheduler_never_panics_iff .default 8 oneAfterTheOther
    (by simp [oneAfterTheOther, Op.Unhinted, ask]) (by decide +kernel)).mpr (by decide +kernel)

/-- The same prompt twice at once, when its blocks are cached. -/
def bothAtOnce : List (Op Unit) :=
  [.addRequest (ask 32), .schedule .listed, .onStepComplete 1 1, .schedule .listed,
    .addRequest (ask 32), .addRequest (ask 32), .schedule .listed]

/-- The second of two concurrent requests reclaims the blocks of the first. -/
theorem schedule_reclaims_live_block :
    (∀ op ∈ bothAtOnce, op.Unhinted) ∧
      bothAtOnce.foldlM exec (fresh .default 8) = .error (.reclaimInUse 0) := by
  refine ⟨by simp [bothAtOnce, Op.Unhinted, ask], ?_⟩
  have h : (bothAtOnce.foldlM exec (fresh .default 8)).map (fun _ => ()) =
      .error (.reclaimInUse 0) := of_decide_eq_true (by decide +kernel)
  cases hx : bothAtOnce.foldlM exec (fresh .default 8) with
  | ok t => rw [hx] at h; cases h
  | error e => rw [hx] at h; cases h; rfl

/-! ## Leaks -/

/-- Every block is free, or unreferenced and evictable: none stays referenced, and
none stays pinned without being in the tree. -/
def NoLeak (s : Scheduler F) : Prop :=
  ∀ b < s.pool.capacity,
    (b ∈ s.pool.free ∨ (s.pool.refCount b = 0 ∧
      (s.pool.pinned b = false ∨ b ∈ treeBlocks (stored s)))) ∧
    s.pool.refCount b = 0 ∧ (s.pool.pinned b = true → b ∈ treeBlocks (stored s))

def Step (s : Scheduler F) (op : Op F) (t : Scheduler F) : Prop :=
  op.Unhinted ∧ exec s op = .ok t

theorem noLeak_of_idle {s : Scheduler F} (h : Healthy True s) (hidle : s.isIdle = true) :
    NoLeak s := by
  have hrun : s.running = [] := by simpa using (Bool.and_eq_true_iff.mp hidle).1
  have hk := h.books.kept
  rw [hrun] at hk
  have ho := hk.owned
  intro b hb
  rcases (hk.complete trivial).cover b hb with hf | hh | ht
  · obtain ⟨-, h0, hp⟩ := ho.free b hf
    have hp : s.pool.pinned b = false := hp
    exact ⟨.inl hf, h0, by simp [hp]⟩
  · cases hh
  · have h0 : s.pool.refCount b = 0 := by
      refine (ho.tree b ht).2.2.trans ?_
      by_contra hne
      exact nomatch (hk.complete trivial).live b hne
    exact ⟨.inr ⟨h0, .inr ht⟩, h0, fun _ => ht⟩

/-- The ledger is kept in every state of a run. -/
theorem healthy_visited (exact : Prop) {config : SchedulerConfig} {capacity : Nat}
    {tr : List (Op F × Scheduler F)} (hrun : Along Step (fresh config capacity) tr)
    (hclean : Along (fun s op _ => CachesAtBoundary s op ∧ (exact → LosesNothing s op))
      (fresh config capacity) tr) :
    ∀ s ∈ visited (fresh config capacity) tr, Healthy exact s := by
  refine Along.invariant (I := Healthy exact) (fun s op t h hstep => ?_)
    (healthy_fresh exact config capacity) (hrun.and hclean)
  obtain ⟨⟨hu, hx⟩, hb, hl⟩ := hstep
  obtain ⟨-, t', hx', hh⟩ := h.exec hu hb (.inl ⟨t, hx⟩) hl
  rw [hx] at hx'
  cases hx'
  exact hh

/-- **No block leaks from a clean run.** In every run without a panic whose calls
cache sequences at block boundaries and lose nothing, an idle scheduler has every
block on the free list or in the tree, without references. -/
theorem no_block_leaks (config : SchedulerConfig) (capacity : Nat)
    (tr : List (Op F × Scheduler F)) (hrun : Along Step (fresh config capacity) tr)
    (hclean : Along (fun s op _ => CachesAtBoundary s op ∧ LosesNothing s op)
      (fresh config capacity) tr) :
    ∀ s ∈ visited (fresh config capacity) tr, s.isIdle = true → NoLeak s := by
  have hinv := healthy_visited True hrun (hclean.imp fun _ _ _ h => ⟨h.1, fun _ => h.2⟩)
  exact fun s hs hidle => noLeak_of_idle (hinv s hs) hidle

instance (s : Scheduler F) (op : Op F) : Decidable (LosesNothing s op) :=
  inferInstanceAs (Decidable ((∀ x ∈ cacheCalls s op,
    x.2.seq.blocks.length ≤ x.2.prompt.length / BLOCK_SIZE ∧
      ∀ e ∈ stored x.1, e.1 <+: x.2.prompt → e.2 ∈ x.2.seq.blocks) ∧
    ∀ x ∈ admitTurns s op, strandsBlocks x.1 x.2 = false))

/-- The two requests one after the other end in an idle scheduler with two blocks
cached and the others free. -/
theorem no_block_leaks_one_after_the_other :
    (final exec (fresh .default 8) oneAfterTheOther).isIdle = true ∧
      (final exec (fresh .default 8) oneAfterTheOther).pool.cached = 2 ∧
      NoLeak (final exec (fresh .default 8) oneAfterTheOther) := by
  refine ⟨by decide +kernel, by decide +kernel,
    no_block_leaks .default 8 _ (along_replay_labels exec _ oneAfterTheOther ?_) ?_ _
      (final_mem_visited exec _ _) (by decide +kernel)⟩
  · simp [oneAfterTheOther, Op.Unhinted, ask]
  · decide +kernel

/-- A prompt of a block and a quarter comes and goes. -/
def unevenPrompt : List (Op Unit) :=
  [.addRequest (ask 20), .schedule .listed, .onStepComplete 1 1, .schedule .listed]

/-- The block of the last four tokens stays referenced when nobody runs. -/
theorem uneven_prompt_leaks_block :
    ∃ tr, Along Step (fresh .default 8) tr ∧ tr.map Prod.fst = unevenPrompt ∧
      ∃ s ∈ visited (fresh .default 8) tr, s.isIdle = true ∧ s.pool.refCount 1 = 1 ∧ ¬ NoLeak s := by
  have hrc : (final exec (fresh .default 8) unevenPrompt).pool.refCount 1 = 1 := by decide +kernel
  have hcap : 1 < (final exec (fresh .default 8) unevenPrompt).pool.capacity := by decide +kernel
  refine ⟨replay exec (fresh .default 8) unevenPrompt, along_replay_labels exec _ _ ?_, rfl,
    final exec (fresh .default 8) unevenPrompt, final_mem_visited exec _ _, by decide +kernel, hrc, ?_⟩
  · simp [unevenPrompt, Op.Unhinted, ask]
  · intro hn
    rw [(hn 1 hcap).2.1] at hrc
    cases hrc

end JustApi.Inference.SchedulerSafety
