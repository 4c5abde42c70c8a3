import JustApi.Lib.Run
import JustApi.Inference.HandoffFrame
import JustApi.Inference.StepLists
import JustApi.Inference.SchedulerSafety

/-! # What a cancelled number stands for

The two schedulers of the controller number their sequences independently, and
`cancel` goes by the number on both. A request is told by its number on the prefill
scheduler, where it starts; the record kept beside the controller says which request
each decode number was given to and which numbers the caller has seen on a step. -/
namespace JustApi.Inference.CancelScope
open JustApi.Lib.Run JustApi.Lib.Result JustApi.Inference.KvCache JustApi.Inference.RadixCache
open JustApi.Inference.Scheduling JustApi.Inference.Scheduling.Scheduler
open JustApi.Inference.FifoService JustApi.Inference.Handoff
open JustApi.Inference.SchedulerSafety (ask)

variable {F : Type}

/-- The controller with a record of the numbers it has given out and shown. -/
structure Tracked (F : Type) where
  pd : PdScheduler F
  /-- The decode numbers, each with the prefill number of its request. -/
  origins : List (Nat × Nat)
  /-- The numbers on the steps of the prefill scheduler. -/
  prefillCarried : List Nat
  /-- The numbers on the steps of the decode scheduler. -/
  decodeCarried : List Nat

/-- Decode numbers from `n` on, for the sequences of a transfer. -/
def numbered : Nat → List (TransferableSequence F) → List (Nat × Nat)
  | _, [] => []
  | n, x :: rest => (n, x.srcSeqId) :: numbered (n + 1) rest

def execTracked (T : Tracked F) : PdOp F → Except Panic (Tracked F)
  | .schedulePrefill order => (T.pd.schedulePrefill order).map fun r =>
      { T with pd := r.2, prefillCarried := T.prefillCarried ++ listed r.1 }
  | .scheduleDecode order => (T.pd.scheduleDecode order).map fun r =>
      { T with pd := r.2, decodeCarried := T.decodeCarried ++ listed r.1 }
  | .transferCompleted => do
      let (taken, _) ← takeCompletedPrefill T.pd.prefill
      let (_, pd) ← T.pd.transferCompleted
      pure { T with pd := pd, origins := T.origins ++ numbered T.pd.decode.nextSeqId taken }
  | op => (execPd T.pd op).map fun pd => { T with pd := pd }

/-- The record follows the controller. -/
theorem execTracked_pd {T T' : Tracked F} {op : PdOp F} (h : execTracked T op = .ok T') :
    execPd T.pd op = .ok T'.pd := by
  cases op with
  | transferCompleted =>
    obtain ⟨⟨taken, prefill⟩, -, h⟩ := bind_eq_ok.mp h
    obtain ⟨⟨count, pd⟩, hx, h⟩ := bind_eq_ok.mp h
    cases h
    exact map_eq_ok.mpr ⟨_, hx, rfl⟩
  | schedulePrefill order =>
    obtain ⟨r, hr, rfl⟩ := map_eq_ok.mp h
    exact map_eq_ok.mpr ⟨r, hr, rfl⟩
  | scheduleDecode order =>
    obtain ⟨r, hr, rfl⟩ := map_eq_ok.mp h
    exact map_eq_ok.mpr ⟨r, hr, rfl⟩
  | cancel seqId =>
    obtain ⟨pd, hpd, rfl⟩ := map_eq_ok.mp h
    exact hpd
  | addRequest req => cases h; rfl
  | onPrefillComplete seqId n => cases h; rfl
  | onDecodeComplete seqId n => cases h; rfl

/-- The caller knows the request `x` by the number: its prefill steps carried it, or
its decode steps carry it. -/
def Known (T : Tracked F) (id x : Nat) : Prop :=
  (x = id ∧ id ∈ T.prefillCarried) ∨ (id ∈ T.decodeCarried ∧ (id, x) ∈ T.origins)

/-- The request waits or runs on the prefill scheduler, or runs on the decode
scheduler. -/
def Live (T : Tracked F) (x : Nat) : Prop :=
  x ∈ line T.pd.prefill ∨ ∃ d ∈ T.pd.decode.runningIds, (d, x) ∈ T.origins

/-- How many sequences are gone from the two batches. -/
def removed (pd pd' : PdScheduler F) : Nat :=
  (pd.prefill.running.length - pd'.prefill.running.length) +
    (pd.decode.running.length - pd'.decode.running.length)

/-- A cancellation that led to `pd'` took at most one request, and changed nothing if
a request the caller knows by the number is no longer live. -/
def TouchesOnlyNamed (T : Tracked F) (id : Nat) (pd' : PdScheduler F) : Prop :=
  removed T.pd pd' ≤ 1 ∧ ∀ x, Known T id x → ¬ Live T x → pd' = T.pd

/-- While the number runs on the prefill scheduler, the decode scheduler neither runs
it nor has shown it; while it runs on the decode scheduler, a request that showed it
in its prefill is still live. -/
def Unambiguous (T : Tracked F) (id : Nat) : Prop :=
  (id ∈ T.pd.prefill.runningIds → id ∉ T.pd.decode.runningIds ∧ id ∉ T.decodeCarried) ∧
    (id ∈ T.pd.decode.runningIds → id ∈ T.prefillCarried → Live T id)

/-! ## The record -/

/-- Decode numbers are given out once, to requests that have left the prefill
scheduler for good, and every sequence of the decode batch has one. -/
structure Recorded (T : Tracked F) : Prop where
  prefill : Numbered T.pd.prefill
  decode : Numbered T.pd.decode
  queue : T.pd.decode.waitQueue = []
  given : ∀ e ∈ T.origins, e.1 < T.pd.decode.nextSeqId ∧ e.2 < T.pd.prefill.nextSeqId ∧
    e.2 ∉ line T.pd.prefill
  once : (T.origins.map Prod.snd).Nodup
  running : ∀ d ∈ T.pd.decode.runningIds, ∃ x, (d, x) ∈ T.origins
  carried : ∀ d ∈ T.decodeCarried, ∃ x, (d, x) ∈ T.origins

theorem recorded_new (prefillConfig decodeConfig : SchedulerConfig)
    (prefillBlocks decodeBlocks : Nat) :
    Recorded (F := F) ⟨freshPd prefillConfig prefillBlocks decodeConfig decodeBlocks, [], [], []⟩ where
  prefill := .new _ _
  decode := .new _ _
  queue := rfl
  given _ he := nomatch he
  once := List.nodup_nil
  running _ hd := nomatch hd
  carried _ hd := nomatch hd

/-- A call after which both schedulers have part of the sequences they had. -/
theorem Recorded.shrink {T T' : Tracked F} (h : Recorded T)
    (hp : (line T'.pd.prefill).Sublist (line T.pd.prefill))
    (hpn : T.pd.prefill.nextSeqId ≤ T'.pd.prefill.nextSeqId)
    (hd : (line T'.pd.decode).Sublist (line T.pd.decode))
    (hdn : T.pd.decode.nextSeqId ≤ T'.pd.decode.nextSeqId)
    (hq : T'.pd.decode.waitQueue = []) (ho : T'.origins = T.origins)
    (hc : ∀ d ∈ T'.decodeCarried, d ∈ T.decodeCarried ∨ d ∈ T'.pd.decode.runningIds) :
    Recorded T' := by
  have hrun : ∀ d ∈ T'.pd.decode.runningIds, ∃ x, (d, x) ∈ T'.origins := by
    intro d hm
    have hm := hd.subset (List.mem_append_left _ hm)
    rw [line, waitingIds, h.queue, List.map_nil, List.append_nil] at hm
    rw [ho]
    exact h.running d hm
  refine ⟨h.prefill.shrink hp hpn, h.decode.shrink hd hdn, hq, ?_, ho ▸ h.once, hrun, ?_⟩
  · intro e he
    rw [ho] at he
    obtain ⟨h1, h2, h3⟩ := h.given e he
    exact ⟨by omega, by omega, fun hm => h3 (hp.subset hm)⟩
  · intro d hm
    rcases hc d hm with hm | hm
    · rw [ho]
      exact h.carried d hm
    · exact hrun d hm

theorem numbered_fst_lt {n : Nat} {xs : List (TransferableSequence F)} :
    ∀ e ∈ numbered n xs, e.1 < n + xs.length := by
  induction xs generalizing n with
  | nil => exact fun _ he => nomatch he
  | cons x xs ih =>
    intro e he
    rcases List.mem_cons.mp he with rfl | he
    · simp
    · have := ih e he
      rw [List.length_cons]
      omega

theorem numbered_snd (n : Nat) (xs : List (TransferableSequence F)) :
    (numbered n xs).map Prod.snd = xs.map TransferableSequence.srcSeqId := by
  induction xs generalizing n with
  | nil => rfl
  | cons x xs ih => simp [numbered, ih]

/-- The sequences that join the decode batch in a transfer have the numbers given to
them. -/
theorem admitAll_ids {s t : Scheduler F} {xs : List (TransferableSequence F)}
    (h : xs.foldlM admitTransferred s = .ok t) (hn : Numbered s) :
    Numbered t ∧ t.waitQueue = s.waitQueue ∧ t.nextSeqId = s.nextSeqId + xs.length ∧
      ∀ d ∈ t.runningIds, d ∈ s.runningIds ∨ ∃ x, (d, x) ∈ numbered s.nextSeqId xs := by
  induction xs generalizing s with
  | nil =>
    cases h
    exact ⟨hn, rfl, rfl, fun d hd => .inl hd⟩
  | cons x xs ih =>
    obtain ⟨u, hu, h⟩ := bind_eq_ok.mp h
    obtain ⟨hnt, hq, hnext, hids⟩ := ih h (hn.join hu)
    obtain ⟨ok, seq, pool, -, hid, rfl⟩ := admitTransferred_ok hu
    refine ⟨hnt, hq, ?_, fun d hd => ?_⟩
    · rw [hnext, List.length_cons]
      show s.nextSeqId + 1 + xs.length = _
      omega
    · rcases hids d hd with hd | ⟨y, hy⟩
      · cases ok with
        | true =>
          rw [runningIds, if_pos rfl, List.map_append] at hd
          rcases List.mem_append.mp hd with hd | hd
          · exact .inl hd
          · have hd : d = seq.id := by simpa [resume, Sequence.advance] using hd
            exact .inr ⟨x.srcSeqId, by rw [hd, hid]; exact List.mem_cons_self⟩
        | false => exact .inl hd
      · exact .inr ⟨y, List.mem_cons_of_mem _ hy⟩

/-- What is taken ran on the prefill scheduler and is gone from it. -/
theorem taken_gone {s s' : Scheduler F} {taken : List (TransferableSequence F)} (hn : Numbered s)
    (h : takeCompletedPrefill s = .ok (taken, s')) :
    ∀ r ∈ s.running.filter ready, r.seq.id < s.nextSeqId ∧ r.seq.id ∉ line s' := by
  obtain ⟨-, -, hf, -⟩ := takeCompletedPrefill_ok h
  intro r hr
  obtain ⟨hr, hready⟩ := List.mem_filter.mp hr
  refine ⟨hn.running_lt hr, fun hm => ?_⟩
  rw [line, runningIds, waitingIds, hf.running, hf.waitQueue] at hm
  rcases List.mem_append.mp hm with hm | hm
  · obtain ⟨q, hq, hid⟩ := List.mem_map.mp hm
    obtain ⟨hq, hnot⟩ := List.mem_filter.mp hq
    rw [hn.eq_of_id hq hr hid, hready] at hnot
    cases hnot
  · obtain ⟨req, hreq, hid⟩ := List.mem_map.mp hm
    exact hn.running_not_waiting hr hreq hid.symm

/-- A new id on the decode side is next to the id of a sequence that was ready. -/
theorem mem_origins {rs : List (RunningSeq F)} {n : Nat} {e : Nat × Nat}
    (he : e ∈ numbered n (rs.map transferable)) : ∃ r ∈ rs, r.seq.id = e.2 := by
  have hmem := List.mem_map_of_mem (f := Prod.snd) he
  rw [numbered_snd, List.map_map] at hmem
  exact List.mem_map.mp hmem

theorem Recorded.transfer {T T' : Tracked F} (h : Recorded T)
    (hx : execTracked T .transferCompleted = .ok T') : Recorded T' := by
  obtain ⟨⟨taken, prefill⟩, ht, hx⟩ := bind_eq_ok.mp hx
  obtain ⟨⟨count, pd⟩, hp, hx⟩ := bind_eq_ok.mp hx
  cases hx
  obtain ⟨⟨taken', prefill'⟩, ht', hp⟩ := bind_eq_ok.mp hp
  obtain ⟨decode, hd, hp⟩ := bind_eq_ok.mp hp
  cases hp
  rw [ht] at ht'
  cases ht'
  obtain ⟨-, rfl, hf, -⟩ := takeCompletedPrefill_ok ht
  obtain ⟨hnt, hq, hnext, hids⟩ := admitAll_ids hd h.decode
  have hsub : (line prefill).Sublist (line T.pd.prefill) := by
    rw [line, runningIds, waitingIds, hf.running, hf.waitQueue]
    exact (List.filter_sublist.map _).append_right _
  have hnextp : prefill.nextSeqId = T.pd.prefill.nextSeqId := hf.nextSeqId
  have hsrc : ((T.pd.prefill.running.filter ready).map transferable).map
      TransferableSequence.srcSeqId = (T.pd.prefill.running.filter ready).map fun r => r.seq.id := by
    rw [List.map_map]
    rfl
  have hgone := taken_gone h.prefill ht
  refine ⟨h.prefill.take ht, hnt, hq.trans h.queue, ?_, ?_, ?_, ?_⟩
  · intro e he
    rcases List.mem_append.mp he with he | he
    · obtain ⟨h1, h2, h3⟩ := h.given e he
      refine ⟨?_, ?_, fun hm => h3 (hsub.subset hm)⟩
      · show e.1 < decode.nextSeqId
        omega
      · show e.2 < prefill.nextSeqId
        omega
    · have hlt := numbered_fst_lt e he
      obtain ⟨r, hr, hid⟩ := mem_origins he
      refine ⟨?_, ?_, ?_⟩
      · show e.1 < decode.nextSeqId
        omega
      · show e.2 < prefill.nextSeqId
        rw [← hid, hnextp]
        exact (hgone r hr).1
      · rw [← hid]
        exact (hgone r hr).2
  · show ((T.origins ++ numbered _ _).map Prod.snd).Nodup
    rw [List.map_append, numbered_snd, hsrc]
    refine List.nodup_append'.mpr ⟨h.once, ?_, fun x hx hm => ?_⟩
    · exact h.prefill.running.sublist (List.filter_sublist.map _)
    · obtain ⟨e, he, rfl⟩ := List.mem_map.mp hx
      refine (h.given e he).2.2 (List.mem_append_left _ ?_)
      exact (List.filter_sublist.map _).subset hm
  · intro d hd
    rcases hids d hd with hd | ⟨x, hx⟩
    · obtain ⟨x, hx⟩ := h.running d hd
      exact ⟨x, List.mem_append_left _ hx⟩
    · exact ⟨x, List.mem_append_right _ hx⟩
  · intro d hd
    obtain ⟨x, hx⟩ := h.carried d hd
    exact ⟨x, List.mem_append_left _ hx⟩

theorem Recorded.addRequest {T T' : Tracked F} {req : NewRequest F} (h : Recorded T)
    (hx : execTracked T (.addRequest req) = .ok T') : Recorded T' := by
  cases hx
  have hadd : exec T.pd.prefill (.addRequest req) = .ok (T.pd.prefill.addRequest req).2 := rfl
  refine ⟨h.prefill.exec hadd, h.decode, h.queue, fun e he => ?_, h.once, h.running, h.carried⟩
  obtain ⟨h1, h2, h3⟩ := h.given e he
  refine ⟨h1, Nat.lt_succ_of_lt h2, fun hm => ?_⟩
  obtain ⟨hr, hw⟩ := exec_keepsOrder hadd
  change e.2 ∈ line (T.pd.prefill.addRequest req).2 at hm
  rw [line, hr, hw, ← List.append_assoc] at hm
  rcases List.mem_append.mp hm with hm | hm
  · exact h3 hm
  · have : e.2 = T.pd.prefill.nextSeqId := List.mem_singleton.mp hm
    omega

theorem Recorded.step {T T' : Tracked F} {op : PdOp F} (h : Recorded T)
    (hx : execTracked T op = .ok T') : Recorded T' := by
  cases op with
  | transferCompleted => exact h.transfer hx
  | addRequest req => exact h.addRequest hx
  | schedulePrefill order =>
    obtain ⟨⟨sch, pd⟩, hp, rfl⟩ := map_eq_ok.mp hx
    obtain ⟨⟨sch', t⟩, hs, he⟩ := map_eq_ok.mp hp
    cases he
    have hop : exec T.pd.prefill (.schedule order) = .ok t := map_eq_ok.mpr ⟨_, hs, rfl⟩
    exact h.shrink (line_sublist hop fun _ he => by cases he) (exec_nextSeqId hop)
      (List.Sublist.refl _)
      (Nat.le_refl _) h.queue rfl fun d hd => .inl hd
  | scheduleDecode order =>
    obtain ⟨⟨sch, pd⟩, hp, rfl⟩ := map_eq_ok.mp hx
    obtain ⟨⟨sch', t⟩, hs, he⟩ := map_eq_ok.mp hp
    cases he
    have hop : exec T.pd.decode (.schedule order) = .ok t := map_eq_ok.mpr ⟨_, hs, rfl⟩
    have hq : t.waitQueue = [] := by
      obtain ⟨reqs, hq, -⟩ := schedule_batch hs
      rw [h.queue] at hq
      exact (List.append_eq_nil_iff.mp hq.symm).2
    refine h.shrink (List.Sublist.refl _) (Nat.le_refl _) (line_sublist hop fun _ he => by cases he)
      (exec_nextSeqId hop) hq rfl fun d hd => ?_
    exact (List.mem_append.mp hd).imp_right fun hd => listed_subset hs hd
  | onPrefillComplete seqId n =>
    cases hx
    have hop : exec T.pd.prefill (.onStepComplete seqId n) =
      .ok (T.pd.prefill.onStepComplete seqId n) := rfl
    exact h.shrink (line_sublist hop fun _ he => by cases he) (exec_nextSeqId hop)
      (List.Sublist.refl _)
      (Nat.le_refl _) h.queue rfl fun d hd => .inl hd
  | onDecodeComplete seqId n =>
    cases hx
    have hop : exec T.pd.decode (.onStepComplete seqId n) =
      .ok (T.pd.decode.onStepComplete seqId n) := rfl
    refine h.shrink (List.Sublist.refl _) (Nat.le_refl _) (line_sublist hop fun _ he => by cases he)
      (exec_nextSeqId hop) ?_ rfl fun d hd => .inl hd
    show (T.pd.decode.onStepComplete seqId n).waitQueue = []
    rw [onStepComplete_eq]
    exact h.queue
  | cancel seqId =>
    obtain ⟨pd, hp, rfl⟩ := map_eq_ok.mp hx
    obtain ⟨prefill, hpre, hp⟩ := bind_eq_ok.mp hp
    obtain ⟨decode, hdec, hp⟩ := bind_eq_ok.mp hp
    cases hp
    have hop : exec T.pd.prefill (.cancel seqId) = .ok prefill := hpre
    have hod : exec T.pd.decode (.cancel seqId) = .ok decode := hdec
    exact h.shrink (line_sublist hop fun _ he => by cases he) (exec_nextSeqId hop)
      (line_sublist hod fun _ he => by cases he) (exec_nextSeqId hod)
      ((cancel_running hdec).2.1.trans h.queue) rfl fun d hd => .inl hd

/-! ## Cancellation -/

theorem mem_runningIds {s : Scheduler F} {id : Nat} :
    id ∈ s.runningIds ↔ ∃ r ∈ s.running, (r.seq.id == id) = true := by
  simp [runningIds]

theorem cancel_absent {s t : Scheduler F} {id : Nat} (h : s.cancel id = .ok t)
    (hid : id ∉ s.runningIds) : t = s := by
  have hnone : (s.running.find? fun r => r.seq.id == id) = none :=
    List.find?_eq_none.mpr fun r hr he => hid (mem_runningIds.mpr ⟨r, hr, he⟩)
  rw [Scheduler.cancel, hnone] at h
  cases h
  rfl

theorem cancel_present {s t : Scheduler F} {id : Nat} (h : s.cancel id = .ok t)
    (hid : id ∈ s.runningIds) : t.running.length + 1 = s.running.length := by
  obtain ⟨r, hr, he⟩ := mem_runningIds.mp hid
  have hlen := List.length_eraseP_of_mem (p := fun r : RunningSeq F => r.seq.id == id) hr he
  have hpos := List.length_pos_of_mem hr
  rw [(cancel_running h).1, hlen]
  omega

theorem cancel_changes {s t : Scheduler F} {id : Nat} (h : s.cancel id = .ok t)
    (hid : id ∈ s.runningIds) : t ≠ s := by
  rintro rfl
  have := cancel_present h hid
  omega

/-- A request that was given a decode number is live only while it runs under it. -/
theorem Recorded.live_iff {T : Tracked F} (h : Recorded T) {d x : Nat} (hx : (d, x) ∈ T.origins) :
    Live T x ↔ d ∈ T.pd.decode.runningIds := by
  constructor
  · rintro (hm | ⟨d', hd', hx'⟩)
    · exact absurd hm (h.given _ hx).2.2
    · cases List.inj_on_of_nodup_map h.once hx hx' rfl
      exact hd'
  · exact fun hd => .inr ⟨d, hd, hx⟩

theorem Recorded.touches_iff {T : Tracked F} (h : Recorded T) {id : Nat} {pd' : PdScheduler F}
    (hx : T.pd.cancel id = .ok pd') : TouchesOnlyNamed T id pd' ↔ Unambiguous T id := by
  obtain ⟨prefill, hpre, hx⟩ := bind_eq_ok.mp hx
  obtain ⟨decode, hdec, hx⟩ := bind_eq_ok.mp hx
  cases hx
  constructor
  · rintro ⟨hone, hsame⟩
    refine ⟨fun hp => ⟨fun hd => ?_, fun hd => ?_⟩, fun hd hc => ?_⟩
    · have h1 := cancel_present hpre hp
      have h2 := cancel_present hdec hd
      simp only [removed] at hone
      omega
    · obtain ⟨x, hx⟩ := h.carried id hd
      by_cases hrun : id ∈ T.pd.decode.runningIds
      · have h1 := cancel_present hpre hp
        have h2 := cancel_present hdec hrun
        simp only [removed] at hone
        omega
      · have heq := hsame x (.inr ⟨hd, hx⟩) fun hl => hrun ((h.live_iff hx).mp hl)
        exact cancel_changes hpre hp (congrArg PdScheduler.prefill heq)
    · by_contra hl
      have heq := hsame id (.inl ⟨rfl, hc⟩) hl
      exact cancel_changes hdec hd (congrArg PdScheduler.decode heq)
  · rintro ⟨hp, hd⟩
    constructor
    · simp only [removed]
      by_cases hrp : id ∈ T.pd.prefill.runningIds
      · have h1 := cancel_present hpre hrp
        rw [cancel_absent hdec (hp hrp).1]
        omega
      · rw [cancel_absent hpre hrp]
        by_cases hrd : id ∈ T.pd.decode.runningIds
        · have h2 := cancel_present hdec hrd
          omega
        · rw [cancel_absent hdec hrd]
          omega
    · -- the request is gone, so the number runs on neither scheduler
      intro x hknown hlive
      have habsent : id ∉ T.pd.prefill.runningIds ∧ id ∉ T.pd.decode.runningIds := by
        rcases hknown with ⟨rfl, hc⟩ | ⟨hc, hx⟩
        · exact ⟨fun hr => hlive (.inl (List.mem_append_left _ hr)), fun hr => hlive (hd hr hc)⟩
        · exact ⟨fun hr => (hp hr).2 hc, fun hr => hlive ((h.live_iff hx).mpr hr)⟩
      rw [cancel_absent hpre habsent.1, cancel_absent hdec habsent.2]

/-! ## Runs -/

def Step (T : Tracked F) (op : PdOp F) (T' : Tracked F) : Prop := execTracked T op = .ok T'

/-- A new controller, nothing recorded. -/
def freshTracked (prefillConfig : SchedulerConfig) (prefillBlocks : Nat)
    (decodeConfig : SchedulerConfig) (decodeBlocks : Nat) : Tracked F :=
  ⟨freshPd prefillConfig prefillBlocks decodeConfig decodeBlocks, [], [], []⟩

instance (T : Tracked F) (x : Nat) : Decidable (Live T x) :=
  inferInstanceAs (Decidable (x ∈ line T.pd.prefill ∨
    ∃ d ∈ T.pd.decode.runningIds, (d, x) ∈ T.origins))

instance (T : Tracked F) (id : Nat) : Decidable (Unambiguous T id) :=
  inferInstanceAs (Decidable
    ((id ∈ T.pd.prefill.runningIds → id ∉ T.pd.decode.runningIds ∧ id ∉ T.decodeCarried) ∧
      (id ∈ T.pd.decode.runningIds → id ∈ T.prefillCarried → Live T id)))

/-- One request is prefilled and moves over. -/
def aloneTransferred : List (PdOp Unit) :=
  [.addRequest (ask 16), .schedulePrefill .listed, .transferCompleted, .scheduleDecode .listed]

/-- A long prompt is prefilled in chunks while a short one behind it is done and moves
over, where it gets the number of the long one. -/
def overtaken : List (PdOp Unit) :=
  [.addRequest (ask 64), .addRequest (ask 16), .schedulePrefill .listed, .transferCompleted]

end JustApi.Inference.CancelScope
