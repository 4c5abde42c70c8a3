import Mathlib.Data.Finset.Card
import Mathlib.Data.Finset.Filter
import Mathlib.Data.Finset.Range
import JustApi.Inference.TokenBudget
import JustApi.Inference.TransferSafety

/-! # How many sequences run at once

A sequence joins the batch from the queue or from another scheduler. The admission loop
looks at `maxNumSeqs`; a transfer looks at the pool alone, so the bound depends on how
many blocks the pool can supply when it comes. -/
namespace JustApi.Inference.SeqBounds
open JustApi.Lib.Run JustApi.Lib.Result JustApi.Inference.KvCache JustApi.Inference.RadixCache
open JustApi.Inference.LanguageModel JustApi.Inference.Scheduling
open JustApi.Inference.Scheduling.Scheduler JustApi.Inference.Handoff JustApi.Inference.TokenBudget
open JustApi.Inference.TransferSafety (needs)
open JustApi.Inference.SchedulerSafety (ask)

/-! ## What a pool can supply -/

section Pool

variable {p q : KvBlockPool}

/-- The blocks that are not on the free list and that a sweep would evict. -/
def idle (p : KvBlockPool) : Finset BlockId :=
  (Finset.range p.capacity).filter fun b => p.evictable b = true ∧ b ∉ p.free

/-- How many times `alloc` can succeed in a row: the evicted block stays on the free list
when it is handed out, and is handed out again. -/
def supply (p : KvBlockPool) : Nat := p.free.length + 2 * (idle p).card

theorem mem_idle {b : BlockId} : b ∈ idle p ↔
    b < p.capacity ∧ (p.refCount b = 0 ∧ p.pinned b = false) ∧ b ∉ p.free := by
  simp [idle, KvBlockPool.evictable_iff]

theorem alloc_supply {r : Option BlockId} (h : p.alloc = .ok (r, q)) :
    (r = none ∧ supply p = 0 ∧ supply q = 0) ∨ (r.isSome = true ∧ supply p = supply q + 1) := by
  rcases KvBlockPool.alloc_cases h with ⟨b, rest, hf, hb, rfl, hv⟩ | ⟨hf, ho, rfl, hv⟩ |
    ⟨b, rest, hf, ho, h0, rfl, hv⟩
  · refine .inr ⟨rfl, ?_⟩
    have hidle : idle q = idle p := by
      ext c
      have hcap : q.capacity = p.capacity := congrArg View.capacity hv
      have hfree : q.free = rest := congrArg View.free hv
      have hrc : q.refCount = Function.update p.refCount b 1 := congrArg View.refCount hv
      have hpin : q.pinned = p.pinned := congrArg View.pinned hv
      simp only [mem_idle, hcap, hfree, hrc, hpin, hf, List.mem_cons, not_or]
      by_cases hc : c = b
      · simp [hc]
      · simp [hc]
    have hfree : q.free = rest := congrArg View.free hv
    simp only [supply, hidle, hfree, hf, List.length_cons]
    omega
  · refine .inl ⟨rfl, ?_⟩
    have hnone : ∀ c, ¬ (c < p.capacity ∧ (p.refCount c = 0 ∧ p.pinned c = false) ∧ c ∉ p.free) := by
      intro c ⟨hc, ⟨h0, hpin⟩, _⟩
      have := KvBlockPool.evictOrder_eq_nil_iff.mp ho c hc h0
      rw [hpin] at this
      cases this
    have hview : q.capacity = p.capacity ∧ q.free = p.free ∧ q.refCount = p.refCount ∧
        q.pinned = p.pinned :=
      ⟨congrArg View.capacity hv, congrArg View.free hv, congrArg View.refCount hv,
        congrArg View.pinned hv⟩
    have hp : idle p = ∅ := Finset.eq_empty_of_forall_notMem fun c hc => hnone c (mem_idle.mp hc)
    have hq : idle q = idle p := by
      ext c
      simp only [mem_idle, hview]
    simp [supply, hq, hp, hview, hf]
  · refine .inr ⟨rfl, ?_⟩
    have hcap : q.capacity = p.capacity := congrArg View.capacity hv
    have hfree : q.free = [b] := congrArg View.free hv
    have hrc : q.refCount = Function.update p.refCount b 1 := congrArg View.refCount hv
    have hpin : q.pinned = p.pinned := congrArg View.pinned hv
    have hb : b ∈ idle p := by
      have hmem : b ∈ p.evictOrder := by simp [ho]
      obtain ⟨hclock, hev⟩ := List.mem_filter.mp hmem
      rw [mem_idle, hf]
      exact ⟨KvBlockPool.clockOrder_lt hclock, KvBlockPool.evictable_iff.mp hev, by simp⟩
    have hidle : idle q = (idle p).erase b := by
      ext c
      simp only [Finset.mem_erase, mem_idle, hcap, hfree, hrc, hpin, hf, List.mem_singleton]
      by_cases hc : c = b
      · simp [hc]
      · simp [hc]
    have hcard := Finset.card_erase_add_one hb
    simp only [supply, hidle, hfree, hf, List.length_nil, List.length_singleton]
    omega

/-- A sequence gets its blocks exactly when the pool can supply them. When it cannot, it
has nothing left afterwards. -/
theorem growBlocks_supply {n : Nat} {seq seq' : Sequence} {ok : Bool}
    (h : growBlocks n seq p = .ok (ok, seq', q)) :
    if n ≤ supply p then ok = true ∧ supply q = supply p - n else ok = false ∧ supply q = 0 := by
  induction n generalizing seq p with
  | zero =>
    cases h
    simp
  | succ n ih =>
    obtain ⟨⟨got, seq₁, p₁⟩, hg, h⟩ := bind_eq_ok.mp h
    unfold Sequence.grow at hg
    cases ha : p.alloc with
    | error e => simp [ha] at hg
    | ok r =>
      obtain ⟨got', p'⟩ := r
      rcases alloc_supply ha with ⟨rfl, hp, hq⟩ | ⟨hsome, hp⟩
      · simp only [ha] at hg
        cases hg
        cases h
        rw [if_neg (by omega)]
        exact ⟨rfl, hq⟩
      · obtain ⟨b, rfl⟩ := Option.isSome_iff_exists.mp hsome
        simp only [ha] at hg
        cases hg
        have hrest := ih h
        split at hrest
        · rw [if_pos (by omega)]
          exact ⟨hrest.1, by omega⟩
        · rw [if_neg (by omega)]
          exact hrest

end Pool

section Schedulers

variable {F : Type} {s t : Scheduler F}

/-- The running set is within the configured bound. -/
def Bounded (s : Scheduler F) : Prop := s.running.length ≤ s.config.maxNumSeqs

/-- How many of these demands, served in turn, a supply meets. The first one it does not
meet uses it up. -/
def served : Nat → List Nat → Nat
  | _, [] => 0
  | supply, n :: rest =>
    if n ≤ supply then served (supply - n) rest + 1 else served 0 rest

/-- The transferred sequences that fit in the pool join the batch, the others do not. -/
theorem admitAll_length {xs : List (TransferableSequence F)}
    (h : xs.foldlM admitTransferred s = .ok t) : t.config = s.config ∧
      t.running.length = s.running.length + served (supply s.pool) (xs.map needs) := by
  induction xs generalizing s with
  | nil =>
    cases h
    exact ⟨rfl, rfl⟩
  | cons x rest ih =>
    obtain ⟨u, hx, h⟩ := bind_eq_ok.mp h
    obtain ⟨ok, seq, pool, hg, -, rfl⟩ := admitTransferred_ok hx
    obtain ⟨hconfig, hlen⟩ := ih h
    have hsupply := growBlocks_supply hg
    refine ⟨hconfig, ?_⟩
    rw [hlen, List.map_cons, served]
    by_cases hfit : needs x ≤ supply s.pool
    · rw [if_pos (show blocksFor (totalTokens x) ≤ supply s.pool from hfit)] at hsupply
      simp only [hsupply, if_pos hfit, if_true, List.length_append, List.length_singleton]
      rw [show blocksFor (totalTokens x) = needs x from rfl]
      omega
    · rw [if_neg (show ¬ blocksFor (totalTokens x) ≤ supply s.pool from hfit)] at hsupply
      simp [hsupply, if_neg hfit]

/-- The admission loop stays within the bound. -/
theorem bounded_schedule {order : HashOrder} {sch : Schedule} (hs : Bounded s)
    (h : s.schedule order = .ok (sch, t)) : Bounded t := by
  obtain ⟨u, v, adm, blocked, hr, ha, -, rfl⟩ := schedule_ok h
  have hf := retire_frame hr
  have hu : Bounded u := by
    have hle : s.withoutFinished.running.length ≤ s.running.length := List.length_filter_le _ _
    have hconfig : u.config = s.config := hf.config
    rw [Bounded, hf.running, hconfig]
    exact Nat.le_trans hle hs
  have hv : Bounded v := by
    refine admitLoop_invariant (I := Bounded) (fun w turn w' hw hturn => ?_) hu ha
    by_cases hlt : w.running.length < w.config.maxNumSeqs
    · rcases admitNext_cases hturn with ⟨-, hsame⟩ |
        ⟨req, rest, seq, n, -, -, -, hconfig, -, -, hrunning, -⟩
      · rwa [Bounded, hsame.running, hsame.config]
      · rw [Bounded, hrunning, hconfig, List.length_append, List.length_singleton]
        exact hlt
    · rw [admitNext, if_neg hlt] at hturn
      cases hturn
      exact hw
  have hids := congrArg List.length (buildSchedule_fed v blocked).ids
  rw [List.length_map, List.length_map] at hids
  rw [Bounded, hids]
  exact hv

/-- Every call but a transfer stays within the bound. -/
theorem bounded_exec (op : Op F) (hs : Bounded s) (h : Scheduling.exec s op = .ok t) :
    Bounded t := by
  cases op with
  | addRequest req =>
    cases h
    exact hs
  | schedule order =>
    obtain ⟨⟨sch, t'⟩, hsch, rfl⟩ := map_eq_ok.mp h
    exact bounded_schedule hs hsch
  | onStepComplete seqId n =>
    cases h
    have hlen := congrArg List.length
      (onStepComplete_running s seqId n (g := fun r => r.seq.id) fun _ _ => rfl)
    rw [List.length_map, List.length_map] at hlen
    rw [Bounded, hlen, onStepComplete_eq]
    exact hs
  | cancel seqId =>
    have hconfig : t.config = s.config := FifoService.exec_config h
    rw [Bounded, hconfig]
    exact Nat.le_trans (cancel_frame h).1.length_le hs

theorem bounded_take {taken : List (TransferableSequence F)} (hs : Bounded s)
    (h : takeCompletedPrefill s = .ok (taken, t)) : Bounded t := by
  obtain ⟨-, -, hf, -⟩ := takeCompletedPrefill_ok h
  have hle : (withoutReady s).running.length ≤ s.running.length := List.length_filter_le _ _
  have hconfig : t.config = s.config := hf.config
  rw [Bounded, hf.running, hconfig]
  exact Nat.le_trans hle hs

/-- A transfer comes when the batch has room, or the pool cannot supply its blocks. -/
def Roomy (s : Scheduler F) : Call F → Prop
  | .admitTransferred x => s.running.length + served (supply s.pool) [needs x] ≤
      s.config.maxNumSeqs
  | _ => True

theorem bounded_perform_iff {call : Call F} (hs : Bounded s) (h : perform s call = .ok t) :
    Bounded t ↔ Roomy s call := by
  cases call with
  | op op => exact iff_of_true (bounded_exec op hs h) trivial
  | takeCompletedPrefill =>
    obtain ⟨⟨taken, t'⟩, ht, rfl⟩ := map_eq_ok.mp h
    exact iff_of_true (bounded_take hs ht) trivial
  | admitTransferred x =>
    have hall : [x].foldlM admitTransferred s = .ok t := by
      rw [foldlM_cons, show admitTransferred s x = .ok t from h]
      rfl
    obtain ⟨hconfig, hlen⟩ := admitAll_length hall
    rw [Bounded, hconfig, hlen]
    rfl

/-! ## The controller of two schedulers -/

variable {pd pd' : PdScheduler F}

/-- What a hand-over brings to the decode scheduler fits in its batch, as far as its pool
can supply the blocks. -/
def PdRoomy (pd : PdScheduler F) : PdOp F → Prop
  | .transferCompleted => pd.decode.running.length + served (supply pd.decode.pool)
      ((pd.prefill.running.filter ready).map fun r => needs (transferable r)) ≤
        pd.decode.config.maxNumSeqs
  | _ => True

theorem bounded_execPd_iff {op : PdOp F} (hp : Bounded pd.prefill) (hd : Bounded pd.decode)
    (h : execPd pd op = .ok pd') : (Bounded pd'.prefill ∧ Bounded pd'.decode) ↔ PdRoomy pd op := by
  cases op with
  | addRequest req =>
    cases h
    exact iff_of_true ⟨hp, hd⟩ trivial
  | schedulePrefill order =>
    obtain ⟨⟨sch, u⟩, hu, rfl⟩ := map_eq_ok.mp h
    obtain ⟨⟨sch', v⟩, hv, hvu⟩ := map_eq_ok.mp hu
    cases hvu
    exact iff_of_true ⟨bounded_schedule hp hv, hd⟩ trivial
  | onPrefillComplete seqId n =>
    cases h
    exact iff_of_true ⟨bounded_exec (.onStepComplete seqId n) hp rfl, hd⟩ trivial
  | transferCompleted =>
    obtain ⟨⟨n, u⟩, hu, rfl⟩ := map_eq_ok.mp h
    obtain ⟨⟨transferred, prefill⟩, htake, hu⟩ := bind_eq_ok.mp hu
    obtain ⟨decode, hall, hu⟩ := bind_eq_ok.mp hu
    cases hu
    obtain ⟨-, rfl, -⟩ := takeCompletedPrefill_ok htake
    obtain ⟨hconfig, hlen⟩ := admitAll_length hall
    have hprefill := bounded_take hp htake
    rw [List.map_map] at hlen
    rw [and_iff_right hprefill, Bounded, hconfig, hlen]
    rfl
  | scheduleDecode order =>
    obtain ⟨⟨sch, u⟩, hu, rfl⟩ := map_eq_ok.mp h
    obtain ⟨⟨sch', v⟩, hv, hvu⟩ := map_eq_ok.mp hu
    cases hvu
    exact iff_of_true ⟨hp, bounded_schedule hd hv⟩ trivial
  | onDecodeComplete seqId n =>
    cases h
    exact iff_of_true ⟨hp, bounded_exec (.onStepComplete seqId n) hd rfl⟩ trivial
  | cancel seqId =>
    obtain ⟨prefill, hprefill, h⟩ := bind_eq_ok.mp h
    obtain ⟨decode, hdecode, h⟩ := bind_eq_ok.mp h
    cases h
    exact iff_of_true ⟨bounded_exec (.cancel seqId) hp hprefill,
      bounded_exec (.cancel seqId) hd hdecode⟩ trivial

/-- **How many sequences run at once.** In a run of a scheduler, and of a controller of
two, every batch stays within `maxNumSeqs` exactly when every transfer comes when the
receiving batch has room for as many sequences as its pool can supply blocks for. -/
theorem running_bounded_iff (config config' : SchedulerConfig) (pool pool' : KvBlockPool)
    (tr : List (Call F × Scheduler F)) (hrun : Along Performs (.new config pool) tr)
    (pdTr : List (PdOp F × PdScheduler F))
    (hpd : Along PdStep (.new config pool config' pool') pdTr) :
    ((∀ s ∈ visited (.new config pool) tr, s.running.length ≤ s.config.maxNumSeqs) ↔
      Along (fun s call _ => Roomy s call) (.new config pool) tr) ∧
    ((∀ pd ∈ visited (.new config pool config' pool') pdTr,
        pd.prefill.running.length ≤ pd.prefill.config.maxNumSeqs ∧
        pd.decode.running.length ≤ pd.decode.config.maxNumSeqs) ↔
      Along (fun pd op _ => PdRoomy pd op) (.new config pool config' pool') pdTr) := by
  constructor
  · refine hrun.forall_visited_iff (I := Bounded) ?_ ?_ (fun _ hs => hs) (Nat.zero_le _)
    · intro s call t hs hstep hroom
      exact (bounded_perform_iff hs hstep).mpr hroom
    · intro s call t hs hstep ht
      exact (bounded_perform_iff hs hstep).mp ht
  · refine hpd.forall_visited_iff (I := fun pd : PdScheduler F => Bounded pd.prefill ∧ Bounded pd.decode)
      ?_ ?_ (fun _ hs => hs) ⟨Nat.zero_le _, Nat.zero_le _⟩
    · intro pd op pd' hs hstep hroom
      exact (bounded_execPd_iff hs.1 hs.2 hstep).mpr hroom
    · intro pd op pd' hs hstep ht
      exact (bounded_execPd_iff hs.1 hs.2 hstep).mp ht

instance (s : Scheduler F) (call : Call F) : Decidable (Roomy s call) :=
  match call with
  | .admitTransferred x => inferInstanceAs (Decidable
      (s.running.length + served (supply s.pool) [needs x] ≤ s.config.maxNumSeqs))
  | .op _ | .takeCompletedPrefill => .isTrue trivial

instance (pd : PdScheduler F) (op : PdOp F) : Decidable (PdRoomy pd op) :=
  match op with
  | .transferCompleted => inferInstanceAs (Decidable
      (pd.decode.running.length + served (supply pd.decode.pool)
        ((pd.prefill.running.filter ready).map fun r => needs (transferable r)) ≤
          pd.decode.config.maxNumSeqs))
  | .addRequest _ | .schedulePrefill _ | .onPrefillComplete _ _ | .scheduleDecode _
  | .onDecodeComplete _ _ | .cancel _ => .isTrue trivial

end Schedulers

/-! ## A decode batch of one -/

/-- Two prompts are prefilled and moved over one after the other, the second when the
first has left. -/
def oneByOne : List (PdOp Unit) :=
  [.addRequest (ask 16), .schedulePrefill .listed, .transferCompleted, .onDecodeComplete 1 1,
    .scheduleDecode .listed, .addRequest (ask 16), .schedulePrefill .listed, .transferCompleted]

def oneAtATime : SchedulerConfig := ⟨1, 64, 64, none⟩

theorem running_bounded_iff_one_by_one :
    let pd := PdScheduler.new oneAtATime (.new 8) oneAtATime (.new 8)
    (replay execPd pd oneByOne).length = 8 ∧
      ∀ pd' ∈ visited pd (replay execPd pd oneByOne),
        pd'.prefill.running.length ≤ pd'.prefill.config.maxNumSeqs ∧
        pd'.decode.running.length ≤ pd'.decode.config.maxNumSeqs := by
  intro pd
  have hall := (running_bounded_iff oneAtATime oneAtATime (.new 8) (.new 8) []
    (along_nil _ _) _ (along_replay execPd pd oneByOne)).2
  exact ⟨by decide +kernel, hall.mpr (by decide +kernel)⟩

/-- The second one moves over while the first is still decoding: the batch of one holds
two. -/
theorem transfer_exceeds_batch :
    let pd := PdScheduler.new oneAtATime (.new 8) oneAtATime (.new 8)
    let ops : List (PdOp Unit) := [.addRequest (ask 16), .schedulePrefill .listed,
      .transferCompleted, .addRequest (ask 16), .schedulePrefill .listed, .transferCompleted]
    Along PdStep pd (replay execPd pd ops) ∧
      ∃ pd' ∈ visited pd (replay execPd pd ops), pd'.decode.config.maxNumSeqs = 1 ∧
        pd'.decode.running.length = 2 := by
  intro pd ops
  exact ⟨along_replay execPd pd ops, final execPd pd ops, final_mem_visited execPd pd ops,
    by decide +kernel, by decide +kernel⟩

end JustApi.Inference.SeqBounds
