import Mathlib.Algebra.GroupWithZero.Nat
import JustApi.Lib.Run
import JustApi.Inference.HandoffFrame
import JustApi.Inference.SchedulerSafety

/-! # Requests and blocks across a hand-off

`transferCompleted` takes sequences from the prefill scheduler before it knows
whether the decode scheduler has room for them. Where it has, every sequence goes
on there; and as long as sequences leave the decode scheduler with all their blocks
cached, a block of its pool is referenced only while a sequence runs on it. -/
namespace JustApi.Inference.TransferSafety
open JustApi.Lib.Run JustApi.Lib.Result JustApi.Inference.KvCache JustApi.Inference.RadixCache
open JustApi.Inference.BlockLedger JustApi.Inference.Scheduling
open JustApi.Inference.Scheduling.Scheduler JustApi.Inference.SchedulerLedger
open JustApi.Inference.SchedulerRuns JustApi.Inference.SchedulerSafety
open JustApi.Inference.FifoService JustApi.Inference.Handoff

variable {F : Type} {s t : Scheduler F}

/-- The sequence that goes on where a transferred one stopped. -/
def Continues (x : TransferableSequence F) (r : RunningSeq F) : Prop :=
  r.prompt = x.prompt ∧ r.params = x.params ∧ r.numPrefilled = x.numPrefilled ∧
    r.numGenerated = x.numGenerated

/-- Every sequence a transfer takes has joined the decode batch, each as one of its
own, or it is still with the prefill scheduler, or the count tells the caller that
not all of them were moved. -/
def Accounted (pd : PdScheduler F) (count : Nat) (pd' : PdScheduler F) : Prop :=
  ∀ taken prefill, takeCompletedPrefill pd.prefill = .ok (taken, prefill) →
    ∃ arrived joined, arrived.Sublist taken ∧ pd'.decode.running = pd.decode.running ++ joined ∧
      List.Forall₂ Continues arrived joined ∧
      ∀ x ∈ taken, x ∈ arrived ∨ x.srcSeqId ∈ line pd'.prefill ∨ count ≠ taken.length

/-- The call loses no request. -/
def LosesNobody (pd : PdScheduler F) : PdOp F → Prop
  | .transferCompleted => ∀ count pd', pd.transferCompleted = .ok (count, pd') → Accounted pd count pd'
  | _ => True

/-- The blocks of the running sequences. -/
def runningBlocks (s : Scheduler F) : List BlockId := s.running.flatMap fun r => r.seq.blocks

/-- Referenced blocks belong to running sequences. -/
def HoldsForRunning (s : Scheduler F) : Prop :=
  ∀ b, 0 < s.pool.refCount b → b ∈ runningBlocks s

/-! ## Blocks of the decode pool -/

/-- Referenced blocks are the ones in `hs`, each with one reference, and free
blocks have none. The tree of the decode scheduler is never read, so its live
references stay at zero. -/
structure Steady (l : Ledger) (hs : List BlockId) : Prop where
  refs : l.refs = fun _ => 0
  freeNodup : l.view.free.Nodup
  free : ∀ b ∈ l.view.free, b < l.view.capacity ∧ l.view.refCount b = 0
  heldNodup : hs.Nodup
  held : ∀ b ∈ hs, b < l.view.capacity ∧ l.view.refCount b = 1
  used : ∀ b, 0 < l.view.refCount b → b ∈ hs

namespace Steady

variable {l : Ledger} {hs hs' bs : List BlockId}

theorem perm (h : Steady l hs) (hp : hs'.Perm hs) : Steady l hs' :=
  ⟨h.refs, h.freeNodup, h.free, hp.nodup_iff.mpr h.heldNodup, fun b hb => h.held b (hp.mem_iff.mp hb),
    fun b hb => hp.mem_iff.mpr (h.used b hb)⟩

theorem not_held_of_free (h : Steady l hs) {b : BlockId} (hb : b ∈ l.view.free) : b ∉ hs := by
  intro hh
  have := (h.free b hb).2
  rw [(h.held b hh).2] at this
  cases this

/-- A sequence leaves with all its blocks. -/
theorem settle (h : Steady l (bs ++ hs)) : Steady (l.settle bs) hs := by
  obtain ⟨-, hnd, hdisj⟩ := List.nodup_append'.mp h.heldNodup
  refine ⟨?_, h.freeNodup, ?_, hnd, ?_, ?_⟩
  · exact (setOn_eq_self fun b _ => congrFun h.refs b).trans h.refs
  · intro b hb
    have hbs : b ∉ bs := fun hbs => h.not_held_of_free hb (List.mem_append_left _ hbs)
    simp only [Ledger.settle, setOn_notMem hbs]
    exact h.free b hb
  · intro b hb
    have hbs : b ∉ bs := fun hbs => hdisj hbs hb
    simp only [Ledger.settle, setOn_notMem hbs]
    exact h.held b (List.mem_append_right _ hb)
  · intro b hb
    by_cases hbs : b ∈ bs
    · simp [Ledger.settle, setOn_mem hbs] at hb
    · simp only [Ledger.settle, setOn_notMem hbs] at hb
      exact (List.mem_append.mp (h.used b hb)).resolve_left hbs

/-- A sequence takes the first `n` free blocks. -/
theorem take (h : Steady l hs) (n : Nat) :
    Steady ⟨{ l.view with free := l.view.free.drop n
                          refCount := setOn (l.view.free.take n) 1 l.view.refCount }, l.refs⟩
      (hs ++ l.view.free.take n) := by
  have hnd := h.freeNodup
  rw [← List.take_append_drop n l.view.free] at hnd
  obtain ⟨hnt, hndr, hdisj⟩ := List.nodup_append'.mp hnd
  refine ⟨h.refs, hndr, ?_, ?_, ?_, ?_⟩
  · intro b hb
    have hbt : b ∉ l.view.free.take n := fun hbt => hdisj hbt hb
    simp only [setOn_notMem hbt]
    exact h.free b (List.mem_of_mem_drop hb)
  · refine List.nodup_append'.mpr ⟨h.heldNodup, hnt, fun b hb hbt => ?_⟩
    exact h.not_held_of_free (List.mem_of_mem_take hbt) hb
  · intro b hb
    by_cases hbt : b ∈ l.view.free.take n
    · exact ⟨(h.free b (List.mem_of_mem_take hbt)).1, setOn_mem hbt⟩
    · simp only [setOn_notMem hbt]
      exact h.held b ((List.mem_append.mp hb).resolve_right hbt)
  · intro b hb
    by_cases hbt : b ∈ l.view.free.take n
    · exact List.mem_append_right _ hbt
    · simp only [setOn_notMem hbt] at hb
      exact List.mem_append_left _ (h.used b hb)

end Steady

/-- While the free list lasts, blocks are taken from its top. -/
theorem growBlocks_free {n : Nat} (seq : Sequence) {pool : KvBlockPool}
    (hlt : ∀ b ∈ pool.free, b < pool.capacity) (hn : n ≤ pool.free.length) :
    ∃ pool', growBlocks n seq pool =
        .ok (true, { seq with blocks := seq.blocks ++ pool.free.take n }, pool') ∧
      pool'.view = { pool.view with
        free := pool.free.drop n
        refCount := setOn (pool.free.take n) 1 pool.refCount } := by
  induction n generalizing seq pool with
  | zero => exact ⟨pool, by simp [growBlocks], by simp [KvBlockPool.view]⟩
  | succ n ih =>
    cases hf : pool.free with
    | nil =>
      rw [hf] at hn
      simp at hn
    | cons b rest =>
      rw [hf] at hn hlt
      obtain ⟨pool₁, hp⟩ := KvBlockPool.handOut_succeeds (p := { pool with free := rest })
        (hlt b List.mem_cons_self)
      have ha : pool.alloc = .ok (some b, pool₁) := by simp [KvBlockPool.alloc, hf, hp]
      obtain ⟨-, -, hv⟩ := KvBlockPool.handOut_ok hp
      have hfree : pool₁.free = rest := congrArg View.free hv
      have hcap : pool₁.capacity = pool.capacity := congrArg View.capacity hv
      have hrc : pool₁.refCount = Function.update pool.refCount b 1 := congrArg View.refCount hv
      have hlt₁ : ∀ c ∈ pool₁.free, c < pool₁.capacity := fun c hc =>
        hcap ▸ hlt c (List.mem_cons_of_mem _ (hfree ▸ hc))
      obtain ⟨pool₂, hg, hv₂⟩ := ih { seq with blocks := seq.blocks ++ [b] } hlt₁
        (by rw [hfree]; simpa using hn)
      refine ⟨pool₂, ?_, ?_⟩
      · simp only [growBlocks, Sequence.grow, ha, ok_bind, Option.isSome_some, if_true, hg, hfree,
          List.take_succ_cons, List.append_assoc, List.singleton_append]
      · rw [hv₂, hv, hfree, hrc, List.take_succ_cons, List.drop_succ_cons, setOn_cons]
        rfl

/-! ## Calls on the decode scheduler -/

/-- The decode scheduler has no queue, and its referenced blocks are those of its
batch. -/
structure Serving (s : Scheduler F) : Prop where
  queue : s.waitQueue = []
  steady : Steady (ledger s) (runningBlocks s)

theorem Serving.holdsForRunning (h : Serving s) : HoldsForRunning s := h.steady.used

/-- What a leaving sequence does to the ledger, whatever the tree looks like. -/
theorem cacheCompleted_settles {prompt : List Token} {blocks : List BlockId}
    (h : s.cacheCompleted prompt blocks = .ok t) (hnd : blocks.Nodup)
    (hc : ∀ b ∈ blocks, b < s.pool.capacity ∧ s.pool.refCount b = 1 ∧ s.prefixRefs b ≤ 1) :
    ledger t = (ledger s).settle (blocks.take (cacheBlocks prompt blocks)) := by
  unfold Scheduler.cacheCompleted at h
  dsimp only at h
  split at h
  · rename_i h0
    cases h
    simp [h0, Ledger.settle]
  · obtain ⟨c, -, h⟩ := bind_eq_ok.mp h
    obtain ⟨t', ht', -, hl⟩ := dropHold_all (s := { s with prefixCache := c })
      (hnd.sublist (List.take_sublist (cacheBlocks prompt blocks) _))
      fun b hb => hc b (List.mem_of_mem_take hb)
    rw [h] at ht'
    cases ht'
    exact hl

/-- All blocks of the sequence are filled by its prompt. -/
def PromptFills (r : RunningSeq F) : Prop := r.seq.blocks.length ≤ r.prompt.length / BLOCK_SIZE

/-- A sequence whose prompt fills its blocks leaves nothing behind. -/
theorem cacheSeq_steady {r : RunningSeq F} {hs : List BlockId}
    (h : Steady (ledger s) (r.seq.blocks ++ hs)) (hfill : PromptFills r)
    (hx : s.cacheSeq r = .ok t) : Steady (ledger t) hs := by
  have hrefs (b : BlockId) : s.prefixRefs b ≤ 1 :=
    (Nat.le_of_eq (congrFun h.refs b)).trans (Nat.zero_le 1)
  have hl := cacheCompleted_settles hx (List.nodup_append'.mp h.heldNodup).1 fun b hb =>
    ⟨(h.held b (List.mem_append_left _ hb)).1, (h.held b (List.mem_append_left _ hb)).2, hrefs b⟩
  have htake : r.seq.blocks.take (cacheBlocks r.prompt r.seq.blocks) = r.seq.blocks :=
    List.take_of_length_le (Nat.le_min.mpr ⟨hfill, Nat.le_refl _⟩)
  rw [hl, htake]
  exact h.settle

theorem Serving.retire (h : Serving s)
    (hfill : ∀ r ∈ s.running.filter (finished s.config), PromptFills r) (hx : s.retire = .ok t) :
    Serving t := by
  have hf := retire_frame hx
  refine ⟨hf.waitQueue.trans h.queue, ?_⟩
  have hloop (rs : List (RunningSeq F)) (hs : List BlockId) (u : Scheduler F)
      (hrs : ∀ r ∈ rs, PromptFills r) (hu : Steady (ledger u) (rs.flatMap (·.seq.blocks) ++ hs))
      (hfold : rs.foldlM cacheSeq u = .ok t) : Steady (ledger t) hs := by
    induction rs generalizing u with
    | nil =>
      cases hfold
      exact hu
    | cons r rest ih =>
      obtain ⟨v, hv, hfold⟩ := bind_eq_ok.mp hfold
      rw [List.flatMap_cons, List.append_assoc] at hu
      exact ih v (fun r hr => hrs r (List.mem_cons_of_mem _ hr))
        (cacheSeq_steady hu (hrs r List.mem_cons_self) hv) hfold
  refine hloop _ _ s.withoutFinished hfill ?_ hx
  refine h.steady.perm ?_
  rw [runningBlocks, hf.running, ← List.flatMap_append]
  exact (List.filter_append_perm _ _).flatMap_right _

theorem Serving.schedule {order : HashOrder} {sch : Schedule} (h : Serving s)
    (hfill : ∀ r ∈ s.running.filter (finished s.config), PromptFills r)
    (hx : s.schedule order = .ok (sch, t)) : Serving t := by
  obtain ⟨u, v, adm, blocked, hr, hl, -, rfl⟩ := schedule_ok hx
  have hu := h.retire hfill hr
  -- nobody waits, so nobody is admitted
  rw [admitLoop_empty hu.queue] at hl
  cases hl
  have hf : Fills u.running (u.buildSchedule false).1.prefill
      (u.buildSchedule false).2.running := fillPrefill_fills u.config _ u.running
  have hmap := hf.map_eq (g := fun r => r.seq.blocks) fun _ _ _ => rfl
  refine ⟨hu.queue, ?_⟩
  have hblocks : runningBlocks (u.buildSchedule false).2 = runningBlocks u := by
    rw [runningBlocks, runningBlocks, List.flatMap_def, List.flatMap_def, hmap]
  rw [hblocks]
  exact hu.steady

theorem Serving.cancel {seqId : Nat} (h : Serving s)
    (hfill : ∀ r ∈ s.running.find? fun r => r.seq.id == seqId, PromptFills r)
    (hx : s.cancel seqId = .ok t) : Serving t := by
  unfold Scheduler.cancel at hx
  cases hr : s.running.find? fun r => r.seq.id == seqId with
  | none =>
    rw [hr] at hx
    cases hx
    exact h
  | some r =>
    rw [hr] at hx
    have hf := cacheCompleted_frame hx
    refine ⟨hf.waitQueue.trans h.queue, ?_⟩
    rw [runningBlocks, hf.running]
    refine cacheSeq_steady (s := { s with running := s.running.eraseP fun r => r.seq.id == seqId })
      (h.steady.perm ?_) (hfill r hr) hx
    exact ((perm_cons_eraseP hr).flatMap_right fun r => r.seq.blocks).symm

/-- How many blocks a transferred sequence needs. -/
def needs (x : TransferableSequence F) : Nat := blocksFor (totalTokens x)

/-- A sequence for which the free list has room goes on. -/
theorem Serving.join {x : TransferableSequence F} (h : Serving s)
    (hfit : needs x ≤ s.pool.free.length) : ∃ t r, admitTransferred s x = .ok t ∧ Serving t ∧
      t.running = s.running ++ [r] ∧ Continues x r ∧ t.pool.free = s.pool.free.drop (needs x) := by
  obtain ⟨pool, hg, hv⟩ := growBlocks_free (.new s.nextSeqId)
    (fun b hb => (h.steady.free b hb).1) hfit
  have hsteady := h.steady.take (needs x)
  refine ⟨{ s with
      nextSeqId := s.nextSeqId + 1
      pool := pool
      running := s.running ++ [resume x ⟨s.nextSeqId, s.pool.free.take (needs x), 0⟩] },
    resume x ⟨s.nextSeqId, s.pool.free.take (needs x), 0⟩, ?_, ⟨h.queue, ?_⟩, rfl,
    ⟨rfl, rfl, rfl, rfl⟩, congrArg View.free hv⟩
  · rw [needs] at hg
    simp only [admitTransferred, hg, ok_bind, if_true]
    rfl
  · have hl : ledger { s with
        nextSeqId := s.nextSeqId + 1
        pool := pool
        running := s.running ++ [resume x ⟨s.nextSeqId, s.pool.free.take (needs x), 0⟩] } =
        ⟨{ s.pool.view with
          free := s.pool.free.drop (needs x)
          refCount := setOn (s.pool.free.take (needs x)) 1 s.pool.refCount }, s.prefixRefs⟩ :=
      congrArg (fun v => Ledger.mk v _) hv
    have hblocks : runningBlocks { s with
        nextSeqId := s.nextSeqId + 1
        pool := pool
        running := s.running ++ [resume x ⟨s.nextSeqId, s.pool.free.take (needs x), 0⟩] } =
        runningBlocks s ++ s.pool.free.take (needs x) := by
      simp [runningBlocks, resume, Sequence.advance]
    rw [hl, hblocks]
    exact hsteady

theorem Serving.admitAll {xs : List (TransferableSequence F)} (h : Serving s)
    (hfit : (xs.map needs).sum ≤ s.pool.free.length) :
    ∃ t joined, xs.foldlM admitTransferred s = .ok t ∧ Serving t ∧
      t.running = s.running ++ joined ∧ List.Forall₂ Continues xs joined := by
  induction xs generalizing s with
  | nil => exact ⟨s, [], rfl, h, (List.append_nil _).symm, .nil⟩
  | cons x xs ih =>
    rw [List.map_cons, List.sum_cons] at hfit
    obtain ⟨u, r, hu, hs, hrun, hr, hfree⟩ := h.join (x := x) (by omega)
    obtain ⟨t, joined, ht, hst, hjoin, hall⟩ := ih hs (by rw [hfree, List.length_drop]; omega)
    refine ⟨t, r :: joined, by rw [foldlM_cons, hu]; exact ht, hst, ?_, .cons hr hall⟩
    rw [hjoin, hrun, List.append_assoc, List.singleton_append]

/-! ## Runs of the controller -/

/-- The decode pool has a free block for every block the transferred sequences need,
and a sequence leaves the decode scheduler with its blocks filled by its prompt. -/
def Fits (pd : PdScheduler F) : PdOp F → Prop
  | .transferCompleted =>
    ((pd.prefill.running.filter ready).map fun r => needs (transferable r)).sum ≤
      pd.decode.pool.available
  | .scheduleDecode _ =>
    ∀ r ∈ pd.decode.running.filter (finished pd.decode.config), PromptFills r
  | .cancel seqId => ∀ r ∈ pd.decode.running.find? fun r => r.seq.id == seqId, PromptFills r
  | _ => True

theorem transferCompleted_serving {pd : PdScheduler F} (h : Serving pd.decode)
    (hfit : Fits pd .transferCompleted) (count : Nat) (pd' : PdScheduler F)
    (hx : pd.transferCompleted = .ok (count, pd')) :
    Serving pd'.decode ∧ Accounted pd count pd' := by
  obtain ⟨⟨taken, prefill⟩, ht, hx⟩ := bind_eq_ok.mp hx
  obtain ⟨decode, hd, hx⟩ := bind_eq_ok.mp hx
  cases hx
  obtain ⟨-, rfl, -⟩ := takeCompletedPrefill_ok ht
  obtain ⟨decode', joined, hd', hs, hrun, hall⟩ := h.admitAll (by rw [List.map_map]; exact hfit)
  rw [hd'] at hd
  cases hd
  refine ⟨hs, fun taken' prefill' ht' => ?_⟩
  rw [ht] at ht'
  cases ht'
  exact ⟨_, joined, List.Sublist.refl _, hrun, hall, fun x hx => .inl hx⟩

theorem execPd_serving {pd pd' : PdScheduler F} {op : PdOp F} (h : Serving pd.decode)
    (hfit : Fits pd op) (hx : execPd pd op = .ok pd') : Serving pd'.decode := by
  cases op with
  | addRequest req => cases hx; exact h
  | schedulePrefill order =>
    obtain ⟨_, hp, rfl⟩ := map_eq_ok.mp hx
    obtain ⟨_, -, rfl⟩ := map_eq_ok.mp hp
    exact h
  | onPrefillComplete seqId n => cases hx; exact h
  | transferCompleted =>
    obtain ⟨⟨count, pd'⟩, ht, rfl⟩ := map_eq_ok.mp hx
    exact (transferCompleted_serving h hfit count pd' ht).1
  | scheduleDecode order =>
    obtain ⟨_, hd, rfl⟩ := map_eq_ok.mp hx
    obtain ⟨⟨sch, t⟩, hs, rfl⟩ := map_eq_ok.mp hd
    exact h.schedule hfit hs
  | onDecodeComplete seqId n =>
    cases hx
    have hmap := onStepComplete_running pd.decode seqId n (g := fun r => r.seq.blocks) fun _ _ => rfl
    show Serving (pd.decode.onStepComplete seqId n)
    rw [onStepComplete_eq]
    refine ⟨h.queue, ?_⟩
    rw [runningBlocks, List.flatMap_def, hmap, ← List.flatMap_def]
    exact h.steady
  | cancel seqId =>
    obtain ⟨prefill, -, hx⟩ := bind_eq_ok.mp hx
    obtain ⟨decode, hd, hx⟩ := bind_eq_ok.mp hx
    cases hx
    exact h.cancel hfit hd

theorem serving_fresh (config : SchedulerConfig) (capacity : Nat) :
    Serving (fresh (F := F) config capacity) := by
  have h := (healthy_fresh (F := F) False config capacity).books.kept.owned
  obtain ⟨n, hv⟩ := view_new capacity
  refine ⟨rfl, rfl, h.freeNodup, fun b hb => ⟨(h.free b hb).1, (h.free b hb).2.1⟩, List.nodup_nil,
    fun _ hb => (nomatch hb), fun b hb => ?_⟩
  have h0 : (fresh (F := F) config capacity).pool.refCount = fun _ => 0 := congrArg View.refCount hv
  change 0 < (fresh (F := F) config capacity).pool.refCount b at hb
  rw [h0] at hb
  exact absurd hb (Nat.lt_irrefl 0)

/-- **No request is lost and no decode block is leaked.** In every run of the
controller whose transfers find their blocks free on the decode side and whose
decode sequences leave with their blocks filled by their prompts, every transfer
accounts for the sequences it takes, and a block of the decode pool is referenced
only while a sequence runs on it. -/
theorem handoff_loses_nothing (prefillConfig decodeConfig : SchedulerConfig)
    (prefillBlocks decodeBlocks : Nat) (tr : List (PdOp F × PdScheduler F))
    (hrun : Along PdStep (freshPd prefillConfig prefillBlocks decodeConfig decodeBlocks) tr)
    (hfit : Along (fun pd op _ => Fits pd op)
      (freshPd prefillConfig prefillBlocks decodeConfig decodeBlocks) tr) :
    Along (fun pd op _ => LosesNobody pd op)
        (freshPd prefillConfig prefillBlocks decodeConfig decodeBlocks) tr ∧
      ∀ pd ∈ visited (freshPd prefillConfig prefillBlocks decodeConfig decodeBlocks) tr,
        HoldsForRunning pd.decode := by
  have hstart : Serving
      (freshPd (F := F) prefillConfig prefillBlocks decodeConfig decodeBlocks).decode :=
    serving_fresh decodeConfig decodeBlocks
  have hsteps := hrun.and hfit
  constructor
  · refine (Along.congr_of_invariant (I := fun pd : PdScheduler F => Serving pd.decode)
      (A := fun pd op _ => Fits pd op) (fun pd op pd' h hs => ?_) hstart hsteps).mp hfit
    refine ⟨execPd_serving h hs.2 hs.1, fun _ => ?_, fun _ => hs.2⟩
    cases op with
    | transferCompleted =>
      exact fun count pd'' hx => (transferCompleted_serving h hs.2 count pd'' hx).2
    | _ => trivial
  · have hinv := Along.invariant (I := fun pd : PdScheduler F => Serving pd.decode)
      (fun pd op pd' h hs => execPd_serving h hs.2 hs.1) hstart hsteps
    exact fun pd hpd => (hinv pd hpd).holdsForRunning

instance (r : RunningSeq F) : Decidable (PromptFills r) :=
  inferInstanceAs (Decidable (r.seq.blocks.length ≤ r.prompt.length / BLOCK_SIZE))

instance (pd : PdScheduler F) (op : PdOp F) : Decidable (Fits pd op) :=
  match op with
  | .transferCompleted => inferInstanceAs (Decidable
      (((pd.prefill.running.filter ready).map fun r => needs (transferable r)).sum ≤
        pd.decode.pool.available))
  | .scheduleDecode _ => inferInstanceAs (Decidable
      (∀ r ∈ pd.decode.running.filter (finished pd.decode.config), PromptFills r))
  | .cancel seqId => inferInstanceAs (Decidable
      (∀ r ∈ pd.decode.running.find? fun r => r.seq.id == seqId, PromptFills r))
  | .addRequest _ | .schedulePrefill _ | .onPrefillComplete _ _ | .onDecodeComplete _ _ =>
    .isTrue trivial

/-- A prompt of one block is prefilled, moves over, gets its token and leaves. -/
def oneTransfer : List (PdOp Unit) :=
  [.addRequest (ask 16), .schedulePrefill .listed, .transferCompleted, .scheduleDecode .listed,
    .onDecodeComplete 1 1, .scheduleDecode .listed]

theorem handoff_loses_nothing_one_transfer :
    let tr := replay execPd (freshPd .default 8 .default 8) oneTransfer
    tr.length = 6 ∧ Along (fun pd op _ => LosesNobody pd op) (freshPd .default 8 .default 8) tr ∧
      ∀ pd ∈ visited (freshPd .default 8 .default 8) tr, HoldsForRunning pd.decode :=
  ⟨by decide +kernel, handoff_loses_nothing .default .default 8 8 _
    (along_replay execPd _ oneTransfer) (by decide +kernel)⟩

/-- A transfer that reports all its sequences as moved and keeps none of them has
made the decode batch longer. -/
def lengthens (pd : PdScheduler F) : PdOp F → Bool
  | .transferCompleted =>
    match takeCompletedPrefill pd.prefill, pd.transferCompleted with
    | .ok (taken, _), .ok (count, pd') => taken.isEmpty || count != taken.length ||
        taken.any (fun x => (line pd'.prefill).contains x.srcSeqId) ||
        pd.decode.running.length < pd'.decode.running.length
    | _, _ => true
  | _ => true

theorem LosesNobody.lengthens {pd : PdScheduler F} {op : PdOp F} (h : LosesNobody pd op) :
    lengthens pd op = true := by
  cases op with
  | transferCompleted =>
    simp only [TransferSafety.lengthens]
    split
    · rename_i taken prefill count pd' ht hx
      obtain ⟨arrived, joined, hsub, hrun, hall, hacc⟩ := h count pd' hx taken prefill ht
      cases taken with
      | nil => rfl
      | cons x rest =>
        rcases hacc x List.mem_cons_self with hx | hx | hx
        · have hjoined : 0 < joined.length := by
            rw [← hall.length_eq]
            exact List.length_pos_of_mem hx
          have hlong : pd.decode.running.length < pd'.decode.running.length := by
            rw [hrun, List.length_append]
            omega
          simp [hlong]
        · simp [hx]
        · have hcount : count ≠ rest.length + 1 := hx
          simp [hcount]
    · rfl
  | _ => rfl

/-- A prompt of two blocks moves over to a pool of one. -/
def crampedTransfer : List (PdOp Unit) :=
  [.addRequest (ask 32), .schedulePrefill .listed, .transferCompleted]

/-- The request is counted as moved and runs nowhere, and the block it got stays
referenced. -/
theorem cramped_transfer_lost :
    ∃ tr, Along PdStep (freshPd .default 8 .default 1) tr ∧ tr.map Prod.fst = crampedTransfer ∧
      ¬ Along (fun pd op _ => LosesNobody pd op) (freshPd .default 8 .default 1) tr ∧
      ∃ pd ∈ visited (freshPd .default 8 .default 1) tr, ¬ HoldsForRunning pd.decode := by
  refine ⟨replay execPd (freshPd .default 8 .default 1) crampedTransfer,
    along_replay execPd _ crampedTransfer, rfl, fun h => ?_, ?_⟩
  · have hlong := h.imp (R := fun pd op _ => lengthens pd op = true) fun _ _ _ h => h.lengthens
    exact absurd hlong (by decide +kernel)
  · refine ⟨final execPd _ crampedTransfer, final_mem_visited execPd _ _, fun h => ?_⟩
    have hrc : 0 < (final execPd (freshPd .default 8 .default 1) crampedTransfer).decode.pool.refCount
        0 := by decide +kernel
    have hnone : (0 : BlockId) ∉ runningBlocks
        (final execPd (freshPd .default 8 .default 1) crampedTransfer).decode := by decide +kernel
    exact hnone (h 0 hrc)

end JustApi.Inference.TransferSafety
