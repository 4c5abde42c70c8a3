import JustApi.Inference.FifoService
import JustApi.Inference.Handoff

/-! # What a hand-off leaves alone

Taking sequences works on the pool and the live references besides the batch it
takes them from; admitting one works on the pool, the batch and the id counter.
Whatever the calls, ids are never shared. -/
namespace JustApi.Inference.Handoff
open JustApi.Lib.Result JustApi.Inference.KvCache JustApi.Inference.RadixCache
open JustApi.Inference.Scheduling JustApi.Inference.Scheduling.Scheduler
open JustApi.Inference.FifoService

variable {F : Type} {s t : Scheduler F}

theorem handOver_frame {b : BlockId} (h : handOver s b = .ok t) :
    SameQueues s t ∧ t.prefixCache = s.prefixCache := by
  obtain ⟨_, -, h⟩ := bind_eq_ok.mp h
  cases h
  exact ⟨⟨rfl, rfl, rfl, rfl⟩, rfl⟩

theorem handOverSeq_frame {r : RunningSeq F} (h : handOverSeq s r = .ok t) :
    SameQueues s t ∧ t.prefixCache = s.prefixCache := by
  refine foldlM_invariant (I := fun u => SameQueues s u ∧ u.prefixCache = s.prefixCache) ?_
    ⟨.refl s, rfl⟩ h
  rintro u b v ⟨hq, hc⟩ hv
  exact ⟨hq.trans (handOver_frame hv).1, (handOver_frame hv).2.trans hc⟩

theorem takeCompletedPrefill_ok {taken : List (TransferableSequence F)}
    (h : takeCompletedPrefill s = .ok (taken, t)) :
    (s.running.filter ready).foldlM handOverSeq (withoutReady s) = .ok t ∧
      taken = (s.running.filter ready).map transferable ∧ SameQueues (withoutReady s) t ∧
      t.prefixCache = s.prefixCache := by
  obtain ⟨u, hu, h⟩ := bind_eq_ok.mp h
  cases h
  have hf := foldlM_invariant
    (I := fun u => SameQueues (withoutReady s) u ∧ u.prefixCache = s.prefixCache)
    (fun u r v hu hv => ⟨hu.1.trans (handOverSeq_frame hv).1, (handOverSeq_frame hv).2.trans hu.2⟩)
    ⟨.refl _, rfl⟩ hu
  exact ⟨hu, rfl, hf.1, hf.2⟩

theorem growBlocks_id {n : Nat} {seq seq' : Sequence} {pool pool' : KvBlockPool} {ok : Bool}
    (h : growBlocks n seq pool = .ok (ok, seq', pool')) : seq'.id = seq.id := by
  induction n generalizing seq pool with
  | zero =>
    cases h
    rfl
  | succ n ih =>
    obtain ⟨⟨got, seq₁, pool₁⟩, hg, h⟩ := bind_eq_ok.mp h
    dsimp only at h
    split at h
    · exact (ih h).trans (grow_id hg)
    · cases h
      exact grow_id hg

/-- An admission gives out the next id, and the sequence joins the batch or is
dropped. -/
theorem admitTransferred_ok {x : TransferableSequence F} (h : admitTransferred s x = .ok t) :
    ∃ ok seq pool, growBlocks (blocksFor (totalTokens x)) (.new s.nextSeqId) s.pool =
        .ok (ok, seq, pool) ∧ seq.id = s.nextSeqId ∧
      t = { s with
        nextSeqId := s.nextSeqId + 1
        pool := pool
        running := if ok then s.running ++ [resume x seq] else s.running } := by
  obtain ⟨⟨ok, seq, pool⟩, hg, h⟩ := bind_eq_ok.mp h
  refine ⟨ok, seq, pool, hg, growBlocks_id hg, ?_⟩
  cases ok with
  | true => cases h; rfl
  | false => cases h; rfl

/-- Ids are not shared, and the next one is beyond all of them. -/
structure Numbered (s : Scheduler F) : Prop where
  nodup : (line s).Nodup
  bounded : ∀ id ∈ line s, id < s.nextSeqId

namespace Numbered

theorem new (config : SchedulerConfig) (pool : KvBlockPool) :
    Numbered (F := F) (.new config pool) := ⟨List.nodup_nil, fun _ h => nomatch h⟩

theorem running (h : Numbered s) : s.runningIds.Nodup := (List.nodup_append'.mp h.nodup).1

theorem running_lt (h : Numbered s) {r : RunningSeq F} (hr : r ∈ s.running) :
    r.seq.id < s.nextSeqId :=
  h.bounded _ (List.mem_append_left _ (List.mem_map_of_mem hr))

/-- A running sequence is told by its id. -/
theorem eq_of_id (h : Numbered s) {r r' : RunningSeq F} (hr : r ∈ s.running)
    (hr' : r' ∈ s.running) (hid : r.seq.id = r'.seq.id) : r = r' :=
  List.inj_on_of_nodup_map h.running hr hr' hid

theorem running_not_waiting (h : Numbered s) {r : RunningSeq F} {req : NewRequest F}
    (hr : r ∈ s.running) (hreq : req ∈ s.waitQueue) : r.seq.id ≠ req.id := fun he =>
  List.disjoint_of_nodup_append h.nodup (List.mem_map_of_mem hr)
    (he ▸ List.mem_map_of_mem hreq)

/-- Part of the line, under the same or a later counter. -/
theorem shrink (h : Numbered s) (hsub : (line t).Sublist (line s))
    (hn : s.nextSeqId ≤ t.nextSeqId) : Numbered t :=
  ⟨h.nodup.sublist hsub, fun id hid => Nat.lt_of_lt_of_le (h.bounded id (hsub.subset hid)) hn⟩

/-- One more id, the one the counter gave. -/
theorem grow (h : Numbered s) (hp : (line t).Perm (s.nextSeqId :: line s))
    (hn : t.nextSeqId = s.nextSeqId + 1) : Numbered t := by
  refine ⟨hp.nodup_iff.mpr (List.nodup_cons.mpr ⟨fun hm => ?_, h.nodup⟩), fun id hid => ?_⟩
  · exact Nat.lt_irrefl _ (h.bounded _ hm)
  · rw [hn]
    rcases List.mem_cons.mp (hp.mem_iff.mp hid) with rfl | hid
    · exact Nat.lt_succ_self _
    · exact Nat.lt_succ_of_lt (h.bounded id hid)

theorem exec {op : Op F} (h : Numbered s) (hx : Scheduling.exec s op = .ok t) : Numbered t := by
  by_cases hop : ∀ req, op ≠ .addRequest req
  · exact h.shrink (line_sublist hx hop) (exec_nextSeqId hx)
  · push Not at hop
    obtain ⟨req, rfl⟩ := hop
    obtain ⟨hr, hw⟩ := exec_keepsOrder hx
    cases hx
    refine h.grow ?_ rfl
    rw [line, hr, hw, ← List.append_assoc]
    exact List.perm_append_singleton _ _

theorem schedule {order : HashOrder} {sch : Schedule} (h : Numbered s)
    (hs : s.schedule order = .ok (sch, t)) : Numbered t :=
  h.exec (show Scheduling.exec s (.schedule order) = .ok t from map_eq_ok.mpr ⟨_, hs, rfl⟩)

theorem addRequest (h : Numbered s) (req : NewRequest F) : Numbered (s.addRequest req).2 :=
  h.exec (show Scheduling.exec s (.addRequest req) = _ from rfl)

theorem take {taken : List (TransferableSequence F)} (h : Numbered s)
    (ht : takeCompletedPrefill s = .ok (taken, t)) : Numbered t := by
  obtain ⟨-, -, hf, -⟩ := takeCompletedPrefill_ok ht
  refine h.shrink ?_ (Nat.le_of_eq hf.nextSeqId.symm)
  rw [line, runningIds, waitingIds, hf.running, hf.waitQueue]
  exact (List.filter_sublist.map _).append_right _

theorem join {x : TransferableSequence F} (h : Numbered s)
    (ht : admitTransferred s x = .ok t) : Numbered t := by
  obtain ⟨ok, seq, pool, -, hid, rfl⟩ := admitTransferred_ok ht
  cases ok with
  | true =>
    refine h.grow ?_ rfl
    have hids : (s.running ++ [resume x seq]).map (fun r => r.seq.id) =
        s.runningIds ++ [s.nextSeqId] := by
      simp [runningIds, resume, Sequence.advance, hid]
    show ((s.running ++ [resume x seq]).map (fun r => r.seq.id) ++ waitingIds s).Perm _
    rw [hids, List.append_assoc]
    exact List.perm_middle
  | false => exact h.shrink (List.Sublist.refl _) (Nat.le_succ _)

theorem perform {call : Call F} (h : Numbered s) (hx : Handoff.perform s call = .ok t) :
    Numbered t := by
  cases call with
  | op op => exact h.exec hx
  | takeCompletedPrefill =>
    obtain ⟨⟨taken, t'⟩, ht, rfl⟩ := map_eq_ok.mp hx
    exact h.take ht
  | admitTransferred x => exact h.join hx

end Numbered

end JustApi.Inference.Handoff
