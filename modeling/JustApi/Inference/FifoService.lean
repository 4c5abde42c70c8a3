import JustApi.Lib.Run
import JustApi.Inference.SchedulerFrame

/-! # Requests are served in the order they came

The batch followed by the queue is one line of requests in the order of their ids.
New requests join at its end, admission only moves the border between the two
parts, and a request leaves the line by finishing or by being cancelled. -/
namespace JustApi.Inference.FifoService
open JustApi.Lib.Run JustApi.Lib.Result JustApi.Inference.KvCache JustApi.Inference.RadixCache
open JustApi.Inference.Scheduling JustApi.Inference.Scheduling.Scheduler

variable {F : Type} {s t : Scheduler F} {op : Op F}

def waitingIds (s : Scheduler F) : List Nat := s.waitQueue.map NewRequest.id

/-- The ids of the batch, then those of the queue. -/
def line (s : Scheduler F) : List Nat := s.runningIds ++ waitingIds s

/-- The call removes the request: it has reached its token limit or the length
limit, or it is cancelled while it runs. -/
def Leaves (s : Scheduler F) : Op F → Nat → Prop
  | .schedule _, id => ∃ r ∈ s.running, r.seq.id = id ∧
      (r.params.maxTokens ≤ r.numGenerated ∨ s.config.maxSeqLen ≤ r.seq.numTokens)
  | .cancel seqId, id => id = seqId ∧ id ∈ s.runningIds
  | .addRequest _, _ => False
  | .onStepComplete _ _, _ => False

/-- What a call does to the two parts of the line. A scheduling step takes the
finished out of the batch and appends a front part of the queue to it, whether or
not a further admission fails. -/
def KeepsOrder (s : Scheduler F) (op : Op F) (t : Scheduler F) : Prop :=
  match op with
  | .addRequest req => t.runningIds = s.runningIds ∧
      waitingIds t = waitingIds s ++ [(s.addRequest req).1]
  | .schedule _ => ∃ ids, waitingIds s = ids ++ waitingIds t ∧
      t.runningIds = (s.running.filter fun r => !finished s.config r).map (fun r => r.seq.id) ++ ids
  | .onStepComplete _ _ => t.runningIds = s.runningIds ∧ waitingIds t = waitingIds s
  | .cancel seqId => t.runningIds = s.runningIds.erase seqId ∧ waitingIds t = waitingIds s

/-- A call loses no request: who is in line stays there unless it leaves, and a
request just made is in line. -/
def LosesNobody (s : Scheduler F) (op : Op F) (t : Scheduler F) : Prop :=
  (∀ id ∈ line s, id ∈ line t ∨ Leaves s op id) ∧
    ∀ req, op = .addRequest req → (s.addRequest req).1 ∈ line t

/-- The line is in order, and the next id is beyond it. -/
structure InLine (s : Scheduler F) : Prop where
  increasing : (line s).Pairwise (· < ·)
  bounded : ∀ id ∈ line s, id < s.nextSeqId

theorem inLine_new (config : SchedulerConfig) (pool : KvBlockPool) :
    InLine (F := F) (.new config pool) :=
  ⟨List.Pairwise.nil, fun _ h => nomatch h⟩

theorem map_eraseP_id {rs : List (RunningSeq F)} (seqId : Nat) :
    (rs.eraseP fun r => r.seq.id == seqId).map (fun r => r.seq.id) =
      (rs.map fun r => r.seq.id).erase seqId := by
  induction rs with
  | nil => rfl
  | cons r rest ih =>
    by_cases hr : r.seq.id = seqId
    · rw [List.eraseP_cons_of_pos (by simpa using hr), List.map_cons, hr, List.erase_cons_head]
    · rw [List.eraseP_cons_of_neg (by simpa using hr), List.map_cons, List.map_cons, ih,
        List.erase_cons_tail (by simpa using hr)]

/-- `cancel` takes the sequence out of the batch and leaves the rest as it was. -/
theorem cancel_running {seqId : Nat} (h : s.cancel seqId = .ok t) :
    t.running = (s.running.eraseP fun r => r.seq.id == seqId) ∧ t.waitQueue = s.waitQueue ∧
      t.nextSeqId = s.nextSeqId ∧ t.config = s.config := by
  unfold Scheduler.cancel at h
  split at h
  · rename_i hnone
    cases h
    exact ⟨(List.eraseP_of_forall_not fun r hr => List.find?_eq_none.mp hnone r hr).symm,
      rfl, rfl, rfl⟩
  · have hf := cacheCompleted_frame h
    exact ⟨hf.running, hf.waitQueue, hf.nextSeqId, hf.config⟩

theorem exec_keepsOrder (h : exec s op = .ok t) : KeepsOrder s op t := by
  cases op with
  | addRequest req =>
    cases h
    exact ⟨rfl, by simp [waitingIds, addRequest]⟩
  | schedule order =>
    obtain ⟨⟨sch, t'⟩, hs, rfl⟩ := map_eq_ok.mp h
    obtain ⟨reqs, hq, hall, hfed, -⟩ := schedule_batch hs
    refine ⟨reqs.map NewRequest.id, ?_, ?_⟩
    · rw [waitingIds, hq, List.map_append]
      rfl
    · rw [runningIds, hfed.ids, List.map_append, became_ids hall]
  | onStepComplete seqId n =>
    cases h
    refine ⟨onStepComplete_running s seqId n fun _ _ => rfl, ?_⟩
    rw [onStepComplete_eq s seqId n]
    rfl
  | cancel seqId =>
    obtain ⟨hr, hq, -⟩ := cancel_running h
    exact ⟨by rw [runningIds, hr, map_eraseP_id]; rfl, by rw [waitingIds, hq]; rfl⟩

theorem exec_nextSeqId (h : exec s op = .ok t) : s.nextSeqId ≤ t.nextSeqId := by
  cases op with
  | addRequest req =>
    cases h
    exact Nat.le_succ _
  | schedule order =>
    obtain ⟨⟨sch, t'⟩, hs, rfl⟩ := map_eq_ok.mp h
    obtain ⟨_, -, -, -, -, hn⟩ := schedule_batch hs
    exact Nat.le_of_eq hn.symm
  | onStepComplete seqId n =>
    cases h
    rw [onStepComplete_eq s seqId n]
  | cancel seqId => exact Nat.le_of_eq (cancel_running h).2.2.1.symm

theorem exec_config (h : exec s op = .ok t) : t.config = s.config := by
  cases op with
  | addRequest req =>
    cases h
    rfl
  | schedule order =>
    obtain ⟨⟨sch, t'⟩, hs, rfl⟩ := map_eq_ok.mp h
    obtain ⟨_, -, -, -, hc, -⟩ := schedule_batch hs
    exact hc
  | onStepComplete seqId n =>
    cases h
    rw [onStepComplete_eq s seqId n]
  | cancel seqId => exact (cancel_running h).2.2.2

/-- A call that makes no request leaves part of the line, in its order. -/
theorem line_sublist (h : exec s op = .ok t) (hop : ∀ req, op ≠ .addRequest req) :
    (line t).Sublist (line s) := by
  have hk := exec_keepsOrder h
  cases op with
  | addRequest req => exact absurd rfl (hop req)
  | schedule order =>
    obtain ⟨ids, hw, hr⟩ := hk
    rw [line, line, hr, hw, List.append_assoc]
    exact (List.filter_sublist.map _).append_right _
  | onStepComplete seqId n =>
    obtain ⟨hr, hw⟩ := hk
    rw [line, hr, hw]
    exact List.Sublist.refl _
  | cancel seqId =>
    obtain ⟨hr, hw⟩ := hk
    rw [line, hr, hw]
    exact List.erase_sublist.append_right _

theorem inLine_step (hs : InLine s) (h : exec s op = .ok t) : InLine t := by
  by_cases hop : ∀ req, op ≠ .addRequest req
  · have hsub := line_sublist h hop
    exact ⟨hs.increasing.sublist hsub, fun id hid =>
      Nat.lt_of_lt_of_le (hs.bounded id (hsub.subset hid)) (exec_nextSeqId h)⟩
  · push Not at hop
    obtain ⟨req, rfl⟩ := hop
    obtain ⟨hr, hw⟩ := exec_keepsOrder h
    have hline : line t = line s ++ [s.nextSeqId] := by
      rw [line, hr, hw, line, List.append_assoc]
      rfl
    cases h
    refine ⟨?_, ?_⟩
    · rw [hline]
      refine List.pairwise_append.mpr ⟨hs.increasing, List.pairwise_singleton _ _, ?_⟩
      intro id hid id' hid'
      rw [List.mem_singleton.mp hid']
      exact hs.bounded id hid
    · intro id hid
      rw [hline] at hid
      rcases List.mem_append.mp hid with hid | hid
      · exact Nat.lt_succ_of_lt (hs.bounded id hid)
      · rw [List.mem_singleton.mp hid]
        exact Nat.lt_succ_self _

theorem exec_losesNobody (h : exec s op = .ok t) : LosesNobody s op t := by
  have hk := exec_keepsOrder h
  constructor
  · intro id hid
    rcases List.mem_append.mp hid with hrun | hwait
    · cases op with
      | addRequest req => exact .inl (List.mem_append_left _ (hk.1 ▸ hrun))
      | schedule order =>
        obtain ⟨ids, hw, hr⟩ := hk
        obtain ⟨r, hmem, rfl⟩ := List.mem_map.mp hrun
        by_cases hfin : finished s.config r = true
        · exact .inr ⟨r, hmem, rfl, by simpa [finished] using hfin⟩
        · refine .inl (List.mem_append_left _ ?_)
          rw [hr]
          exact List.mem_append_left _
            (List.mem_map_of_mem (List.mem_filter.mpr ⟨hmem, by simpa using hfin⟩))
      | onStepComplete seqId n => exact .inl (List.mem_append_left _ (hk.1 ▸ hrun))
      | cancel seqId =>
        by_cases he : id = seqId
        · exact .inr ⟨he, hrun⟩
        · refine .inl (List.mem_append_left _ ?_)
          rw [hk.1]
          exact (List.mem_erase_of_ne he).mpr hrun
    · cases op with
      | addRequest req =>
        refine .inl (List.mem_append_right _ ?_)
        rw [hk.2]
        exact List.mem_append_left _ hwait
      | schedule order =>
        obtain ⟨ids, hw, hr⟩ := hk
        rw [hw] at hwait
        rcases List.mem_append.mp hwait with hid | hid
        · refine .inl (List.mem_append_left _ ?_)
          rw [hr]
          exact List.mem_append_right _ hid
        · exact .inl (List.mem_append_right _ hid)
      | onStepComplete seqId n => exact .inl (List.mem_append_right _ (hk.2 ▸ hwait))
      | cancel seqId => exact .inl (List.mem_append_right _ (hk.2 ▸ hwait))
  · rintro req rfl
    refine List.mem_append_right _ ?_
    rw [hk.2]
    exact List.mem_append_right _ List.mem_cons_self

def Step (s : Scheduler F) (op : Op F) (t : Scheduler F) : Prop := exec s op = .ok t

/-- **Requests are served in order and none is lost.** In every run the ids of the
batch followed by those of the queue are strictly increasing in every state; a
request that was made is in line from then on until it leaves by its token limit,
the length limit or a cancellation; and no call reorders either part of the line. -/
theorem served_in_order (config : SchedulerConfig) (pool : KvBlockPool)
    (tr : List (Op F × Scheduler F)) (hrun : Along Step (.new config pool) tr) :
    (∀ s ∈ visited (.new config pool) tr, (line s).Pairwise (· < ·)) ∧
      Along (fun s op t => LosesNobody s op t ∧ KeepsOrder s op t) (.new config pool) tr := by
  constructor
  · intro s hs
    exact (Along.invariant (I := InLine) (fun _ _ _ => inLine_step)
      (inLine_new config pool) hrun s hs).increasing
  · exact hrun.imp fun _ _ _ h => ⟨exec_losesNobody h, exec_keepsOrder h⟩

/-- Three requests, the second of which does not fit beside the first: its admission
fails twice, and each time it is first in the queue afterwards. -/
def crowded : List (Op Unit) :=
  [.addRequest ⟨0, (List.range 32).map UInt32.ofNat, ⟨2, (), (), 0, []⟩, 0, []⟩,
    .addRequest ⟨0, (List.range 40).map UInt32.ofNat, ⟨2, (), (), 0, []⟩, 0, []⟩,
    .addRequest ⟨0, [7], ⟨2, (), (), 0, []⟩, 0, []⟩, .schedule .listed, .onStepComplete 1 2,
    .cancel 3, .schedule .listed]

theorem served_in_order_crowded :
    let tr := replay exec (.new .default (.new 4)) crowded
    tr.length = 7 ∧ (tr.map fun x => (x.2.runningIds, waitingIds x.2)).drop 3 =
      [([1], [2, 3]), ([1], [2, 3]), ([1], [2, 3]), ([], [2, 3])] ∧
    ∀ s ∈ visited (.new .default (.new 4)) tr, (line s).Pairwise (· < ·) :=
  ⟨by decide +kernel, by decide +kernel,
    (served_in_order .default (.new 4) _ (along_replay exec _ _)).1⟩

end JustApi.Inference.FifoService
