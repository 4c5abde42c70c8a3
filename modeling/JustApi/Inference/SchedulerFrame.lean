import JustApi.Lib.Result
import JustApi.Inference.Scheduling

/-! # What the phases of a step leave alone

Caching a leaving sequence and finding blocks for a new one work on the pool, the
prefix cache and the live references only; the batch and the queue change in the
one place each phase has for it. -/
namespace JustApi.Inference.Scheduling
open JustApi.Lib.Result JustApi.Inference.KvCache JustApi.Inference.RadixCache

variable {F : Type} {s t : Scheduler F} {order : HashOrder}

/-- Same configuration, batch, queue and id counter. -/
structure SameQueues (s t : Scheduler F) : Prop where
  config : t.config = s.config
  running : t.running = s.running
  waitQueue : t.waitQueue = s.waitQueue
  nextSeqId : t.nextSeqId = s.nextSeqId

namespace SameQueues

theorem refl (s : Scheduler F) : SameQueues s s := ⟨rfl, rfl, rfl, rfl⟩

theorem trans {u : Scheduler F} (hst : SameQueues s t) (htu : SameQueues t u) : SameQueues s u :=
  ⟨htu.config.trans hst.config, htu.running.trans hst.running,
    htu.waitQueue.trans hst.waitQueue, htu.nextSeqId.trans hst.nextSeqId⟩

end SameQueues

namespace Scheduler

theorem releasePinned_frame {b : BlockId} (h : s.releasePinned b = .ok t) : SameQueues s t := by
  obtain ⟨_, -, h⟩ := bind_eq_ok.mp h
  obtain ⟨_, -, h⟩ := bind_eq_ok.mp h
  cases h
  exact ⟨rfl, rfl, rfl, rfl⟩

theorem dropHold_frame {b : BlockId} (h : s.dropHold b = .ok t) : SameQueues s t := by
  unfold dropHold at h
  split at h
  · exact releasePinned_frame h
  · dsimp only at h
    split at h
    · have hf := releasePinned_frame h
      exact ⟨hf.config, hf.running, hf.waitQueue, hf.nextSeqId⟩
    · cases h
      exact ⟨rfl, rfl, rfl, rfl⟩

theorem cacheCompleted_frame {prompt : List Token} {blocks : List BlockId}
    (h : s.cacheCompleted prompt blocks = .ok t) : SameQueues s t := by
  unfold cacheCompleted at h
  dsimp only at h
  split at h
  · cases h
    exact .refl s
  · obtain ⟨c, -, h⟩ := bind_eq_ok.mp h
    refine foldlM_invariant (I := SameQueues s) ?_ ?_ h
    · exact fun _ _ _ hs hd => hs.trans (dropHold_frame hd)
    · exact ⟨rfl, rfl, rfl, rfl⟩

theorem retire_frame (h : s.retire = .ok t) : SameQueues s.withoutFinished t :=
  foldlM_invariant (I := SameQueues s.withoutFinished)
    (fun _ _ _ hs hc => hs.trans (cacheCompleted_frame hc)) (.refl _) h

theorem cancel_frame {seqId : Nat} (h : s.cancel seqId = .ok t) :
    t.running.Sublist s.running ∧ t.waitQueue = s.waitQueue ∧ t.nextSeqId = s.nextSeqId := by
  unfold cancel at h
  split at h
  · cases h
    exact ⟨List.Sublist.refl _, rfl, rfl⟩
  · have hf := cacheCompleted_frame h
    refine ⟨?_, hf.waitQueue, hf.nextSeqId⟩
    rw [hf.running]
    exact List.eraseP_sublist

theorem onStepComplete_eq (s : Scheduler F) (seqId n : Nat) :
    s.onStepComplete seqId n = { s with running := (s.onStepComplete seqId n).running } := by
  unfold onStepComplete
  split <;> rfl

/-- A completed step touches the counts of the sequence it names only. -/
theorem onStepComplete_running (s : Scheduler F) (seqId n : Nat) {β : Type}
    {g : RunningSeq F → β} (hg : ∀ (r : RunningSeq F) (k : Nat),
      g { r with numGenerated := k, seq := r.seq.advance n } = g r) :
    (s.onStepComplete seqId n).running.map g = s.running.map g := by
  have hmod : ∀ (rs : List (RunningSeq F)) (i : Nat), (rs.modify i fun r =>
      { r with numGenerated := usize (r.numGenerated + n), seq := r.seq.advance n }).map g =
        rs.map g := by
    intro rs
    induction rs with
    | nil => intro i; cases i <;> rfl
    | cons r rest ih =>
      intro i
      cases i with
      | zero => simp [hg]
      | succ i => simp [ih]
  unfold onStepComplete
  split
  · rfl
  · exact hmod _ _

/-- After a completed step a sequence is where it was in its prompt. -/
theorem mem_onStepComplete {seqId n : Nat} {r : RunningSeq F}
    (hr : r ∈ (s.onStepComplete seqId n).running) : ∃ q ∈ s.running, r.seq.id = q.seq.id ∧
      r.prompt = q.prompt ∧ r.numPrefilled = q.numPrefilled ∧ r.state = q.state := by
  have hmap := onStepComplete_running s seqId n
    (g := fun r => (r.seq.id, r.prompt, r.numPrefilled, r.state)) fun _ _ => rfl
  have hmem : (r.seq.id, r.prompt, r.numPrefilled, r.state) ∈
      s.running.map fun r => (r.seq.id, r.prompt, r.numPrefilled, r.state) :=
    hmap ▸ List.mem_map_of_mem hr
  obtain ⟨q, hq, he⟩ := List.mem_map.mp hmem
  simp only [Prod.mk.injEq] at he
  exact ⟨q, hq, he.1.symm, he.2.1.symm, he.2.2.1.symm, he.2.2.2.symm⟩

theorem dropCached_frame {b : BlockId} (h : s.dropCached b = .ok t) : SameQueues s t := by
  obtain ⟨_, -, h⟩ := bind_eq_ok.mp h
  obtain ⟨_, -, h⟩ := bind_eq_ok.mp h
  cases h
  exact ⟨rfl, rfl, rfl, rfl⟩

theorem evictUnreferenced_frame {k : Nat} (h : s.evictUnreferenced order k = .ok t) :
    SameQueues s t := by
  refine foldlM_invariant (I := SameQueues s) ?_ ?_ h
  · exact fun _ _ _ hs hd => hs.trans (dropCached_frame hd)
  · exact ⟨rfl, rfl, rfl, rfl⟩

theorem grow_id {seq seq' : Sequence} {pool pool' : KvBlockPool} {got : Option BlockId}
    (h : seq.grow pool = .ok (got, seq', pool')) : seq'.id = seq.id := by
  unfold Sequence.grow at h
  split at h
  · cases h
  · cases h; rfl
  · cases h; rfl

theorem growOrEvict_frame {n : Nat} {seq seq' : Sequence} {ok : Bool}
    (h : s.growOrEvict order n seq = .ok (ok, seq', t)) : SameQueues s t ∧ seq'.id = seq.id := by
  obtain ⟨⟨got, seq₁, pool⟩, hg, h⟩ := bind_eq_ok.mp h
  dsimp only at h
  split at h
  · cases h
    exact ⟨⟨rfl, rfl, rfl, rfl⟩, grow_id hg⟩
  · obtain ⟨s₁, he, h⟩ := bind_eq_ok.mp h
    obtain ⟨⟨got', seq₂, pool'⟩, hg', h⟩ := bind_eq_ok.mp h
    cases h
    have hf := evictUnreferenced_frame he
    exact ⟨⟨hf.config, hf.running, hf.waitQueue, hf.nextSeqId⟩, (grow_id hg').trans (grow_id hg)⟩

theorem growTail_frame {n m : Nat} {seq seq' : Sequence} {ok : Bool}
    (h : growTail order n m s seq = .ok (ok, seq', t)) : SameQueues s t ∧ seq'.id = seq.id := by
  induction m generalizing s seq with
  | zero =>
    cases h
    exact ⟨.refl _, rfl⟩
  | succ m ih =>
    obtain ⟨⟨ok₁, seq₁, s₁⟩, hg, h⟩ := bind_eq_ok.mp h
    obtain ⟨hf, hid⟩ := growOrEvict_frame hg
    dsimp only at h
    split at h
    · obtain ⟨hf', hid'⟩ := ih h
      exact ⟨hf.trans hf', hid'.trans hid⟩
    · cases h
      exact ⟨hf, hid⟩

theorem reuse_frame {seq seq' : Sequence} {bs : List BlockId} {n : Nat}
    (h : s.reuse seq bs n = .ok (seq', t)) : SameQueues s t ∧ seq'.id = seq.id := by
  unfold reuse at h
  split at h
  · cases h
    exact ⟨.refl s, rfl⟩
  · obtain ⟨⟨seq₁, pool⟩, hr, h⟩ := bind_eq_ok.mp h
    obtain ⟨s₁, ha, h⟩ := bind_eq_ok.mp h
    cases h
    refine ⟨foldlM_invariant (I := SameQueues s) ?_ ?_ ha, ?_⟩
    · intro u b v hu hv
      obtain ⟨_, -, hv⟩ := bind_eq_ok.mp hv
      cases hv
      exact hu.trans ⟨rfl, rfl, rfl, rfl⟩
    · exact ⟨rfl, rfl, rfl, rfl⟩
    · unfold Sequence.restoreFromCache at hr
      split at hr
      · cases hr
      · cases hr; rfl

theorem cachedPrefix_frame {req : NewRequest F} {r : List BlockId × Nat}
    (h : s.cachedPrefix req = .ok (r, t)) : SameQueues s t := by
  unfold cachedPrefix at h
  split at h
  · obtain ⟨⟨_, _⟩, -, h⟩ := bind_eq_ok.mp h
    cases h
    exact ⟨rfl, rfl, rfl, rfl⟩
  · cases h
    exact .refl s

theorem gather_frame {req : NewRequest F} {bs : List BlockId} {n : Nat} {ok : Bool}
    {seq : Sequence} (h : s.gather order req bs n = .ok (ok, seq, t)) :
    SameQueues s t ∧ seq.id = req.id := by
  obtain ⟨⟨seq₁, s₁⟩, hr, h⟩ := bind_eq_ok.mp h
  obtain ⟨hf, hid⟩ := reuse_frame hr
  obtain ⟨hf', hid'⟩ := growTail_frame h
  exact ⟨hf.trans hf', hid'.trans hid⟩

theorem grow_seq {seq seq' : Sequence} {pool pool' : KvBlockPool} {got : Option BlockId}
    (h : seq.grow pool = .ok (got, seq', pool')) :
    seq'.blocks.length = seq.blocks.length + got.toList.length ∧ seq'.numTokens = seq.numTokens := by
  unfold Sequence.grow at h
  split at h
  · cases h
  · cases h
    exact ⟨rfl, rfl⟩
  · cases h
    exact ⟨by simp, rfl⟩

theorem growOrEvict_seq {n : Nat} {seq seq' : Sequence} {ok : Bool}
    (h : s.growOrEvict order n seq = .ok (ok, seq', t)) :
    seq'.blocks.length = seq.blocks.length + ok.toNat ∧ seq'.numTokens = seq.numTokens := by
  obtain ⟨⟨got, seq₁, pool⟩, hg, h⟩ := bind_eq_ok.mp h
  obtain ⟨hlen, hnum⟩ := grow_seq hg
  cases got with
  | some b =>
    cases h
    exact ⟨hlen, hnum⟩
  | none =>
    obtain ⟨s₁, -, h⟩ := bind_eq_ok.mp h
    obtain ⟨⟨got', seq₂, pool'⟩, hg', h⟩ := bind_eq_ok.mp h
    obtain ⟨hlen', hnum'⟩ := grow_seq hg'
    cases h
    refine ⟨?_, hnum'.trans hnum⟩
    rw [hlen', hlen]
    cases got' <;> rfl

theorem growTail_seq {n m : Nat} {seq seq' : Sequence} {ok : Bool}
    (h : growTail order n m s seq = .ok (ok, seq', t)) :
    (ok = true → seq'.blocks.length = seq.blocks.length + m) ∧ seq'.numTokens = seq.numTokens := by
  induction m generalizing s seq with
  | zero =>
    cases h
    exact ⟨fun _ => rfl, rfl⟩
  | succ m ih =>
    obtain ⟨⟨ok₁, seq₁, s₁⟩, hg, h⟩ := bind_eq_ok.mp h
    obtain ⟨hlen, hnum⟩ := growOrEvict_seq hg
    cases ok₁ with
    | true =>
      obtain ⟨hlen', hnum'⟩ := ih h
      refine ⟨fun hok => ?_, hnum'.trans hnum⟩
      rw [hlen' hok, hlen]
      simp only [Bool.toNat_true]
      omega
    | false =>
      cases h
      exact ⟨fun hok => (nomatch hok), hnum⟩

/-- A request whose blocks are in place has the restored ones and those its prompt
needs besides, and counts the restored tokens. -/
theorem gather_seq {req : NewRequest F} {bs : List BlockId} {n : Nat} {ok : Bool} {seq : Sequence}
    (h : s.gather order req bs n = .ok (ok, seq, t)) :
    (ok = true → seq.blocks.length = max bs.length (totalBlocks req.prompt)) ∧
      seq.numTokens = if bs.isEmpty then 0 else n := by
  obtain ⟨⟨seq₁, s₁⟩, hr, h⟩ := bind_eq_ok.mp h
  obtain ⟨hlen, hnum⟩ := growTail_seq h
  have hreuse : seq₁.blocks = bs ∧ seq₁.numTokens = if bs.isEmpty then 0 else n := by
    unfold reuse at hr
    split at hr
    · rename_i hbs
      cases hr
      exact ⟨(List.isEmpty_iff.mp hbs).symm, by rw [if_pos hbs]; rfl⟩
    · rename_i hbs
      obtain ⟨⟨seq₂, pool⟩, hrest, hr⟩ := bind_eq_ok.mp hr
      obtain ⟨s₂, -, hr⟩ := bind_eq_ok.mp hr
      cases hr
      unfold Sequence.restoreFromCache at hrest
      split at hrest
      · cases hrest
      · cases hrest
        exact ⟨rfl, by rw [if_neg hbs]⟩
  refine ⟨fun hok => ?_, hnum.trans hreuse.2⟩
  rw [hlen hok, hreuse.1]
  omega

/-- Nobody is admitted when nobody waits. -/
theorem admitLoop_empty (hq : s.waitQueue = []) (fuel : Nat) :
    admitLoop order fuel s = .ok (([], false), s) := by
  have hturn : s.admitNext order = .ok (.stop false, s) := by
    unfold admitNext
    rw [hq]
    split <;> rfl
  cases fuel with
  | zero => rfl
  | succ fuel => simp only [admitLoop, hturn]

/-- The two ways a turn of the admission loop ends. -/
theorem admitNext_ok {turn : Turn} (h : s.admitNext order = .ok (turn, t)) :
    ((∃ blocked, turn = .stop blocked) ∧ SameQueues s t) ∨
    (∃ req rest bs n u seq v, s.waitQueue = req :: rest ∧ s.cachedPrefix req = .ok ((bs, n), u) ∧
      gather { u with waitQueue := rest } order req bs n = .ok (true, seq, v) ∧
      turn = .admitted req.id bs.length ∧
      t = { v with running := v.running ++ [start req seq bs.length] }) := by
  unfold admitNext at h
  split at h
  · split at h
    · cases h
      exact .inl ⟨⟨_, rfl⟩, .refl s⟩
    · rename_i req rest hq
      obtain ⟨⟨⟨bs, n⟩, u⟩, hp, h⟩ := bind_eq_ok.mp h
      have hf := cachedPrefix_frame hp
      dsimp only at h
      split at h
      · cases h
        exact .inl ⟨⟨_, rfl⟩, hf⟩
      · obtain ⟨⟨ok, seq, v⟩, hg, h⟩ := bind_eq_ok.mp h
        cases ok with
        | true =>
          cases h
          exact .inr ⟨req, rest, bs, n, u, seq, v, hq, hp, hg, rfl, rfl⟩
        | false =>
          cases h
          obtain ⟨hall, -⟩ := gather_frame hg
          refine .inl ⟨⟨_, rfl⟩, hall.config.trans hf.config, hall.running.trans hf.running, ?_,
            hall.nextSeqId.trans hf.nextSeqId⟩
          show req :: v.waitQueue = _
          rw [hall.waitQueue, hq]
  · cases h
    exact .inl ⟨⟨_, rfl⟩, .refl s⟩

/-- What a turn of the admission loop does to the batch and the queue. -/
theorem admitNext_cases {turn : Turn} (h : s.admitNext order = .ok (turn, t)) :
    ((∃ blocked, turn = .stop blocked) ∧ SameQueues s t) ∨
    (∃ req rest seq n, s.waitQueue = req :: rest ∧ seq.id = req.id ∧
      turn = .admitted req.id n ∧ t.config = s.config ∧ t.nextSeqId = s.nextSeqId ∧
      t.waitQueue = rest ∧ t.running = s.running ++ [start req seq n] ∧
      seq.blocks.length = max n (totalBlocks req.prompt)) := by
  rcases admitNext_ok h with h | ⟨req, rest, bs, n, u, seq, v, hq, hp, hg, rfl, rfl⟩
  · exact .inl h
  · have hf := cachedPrefix_frame hp
    obtain ⟨hall, hid⟩ := gather_frame hg
    refine .inr ⟨req, rest, seq, bs.length, hq, hid, rfl, hall.config.trans hf.config,
      hall.nextSeqId.trans hf.nextSeqId, hall.waitQueue, ?_, (gather_seq hg).1 rfl⟩
    show v.running ++ _ = _
    rw [hall.running, ← hf.running]

/-- What every turn of the admission loop keeps, the loop keeps. -/
theorem admitLoop_invariant {I : Scheduler F → Prop} {fuel : Nat} {r : List (Nat × Nat) × Bool}
    (hturn : ∀ s turn t, I s → s.admitNext order = .ok (turn, t) → I t) (hs : I s)
    (h : admitLoop order fuel s = .ok (r, t)) : I t := by
  induction fuel generalizing s r with
  | zero =>
    cases h
    exact hs
  | succ fuel ih =>
    simp only [admitLoop] at h
    split at h
    · cases h
    · rename_i hn
      cases h
      exact hturn _ _ _ hs hn
    · rename_i hn
      obtain ⟨⟨⟨_, _⟩, _⟩, hl, h⟩ := bind_eq_ok.mp h
      cases h
      exact ih (hturn _ _ _ hs hn) hl

/-- A request and the sequence it became. -/
def Became (req : NewRequest F) (r : RunningSeq F) : Prop :=
  ∃ seq n, seq.id = req.id ∧ seq.blocks.length = max n (totalBlocks req.prompt) ∧
    r = start req seq n

/-- The admission loop moves requests from the front of the queue to the end of the
batch, in their order. -/
theorem admitLoop_joins {fuel : Nat} {r : List (Nat × Nat) × Bool}
    (h : admitLoop order fuel s = .ok (r, t)) : ∃ reqs joined,
      s.waitQueue = reqs ++ t.waitQueue ∧ t.running = s.running ++ joined ∧
      List.Forall₂ Became reqs joined ∧ t.config = s.config ∧ t.nextSeqId = s.nextSeqId := by
  refine admitLoop_invariant (I := fun u => ∃ reqs joined,
    s.waitQueue = reqs ++ u.waitQueue ∧ u.running = s.running ++ joined ∧
    List.Forall₂ Became reqs joined ∧ u.config = s.config ∧ u.nextSeqId = s.nextSeqId)
    ?_ ⟨[], [], rfl, (List.append_nil _).symm, .nil, rfl, rfl⟩ h
  rintro u turn v ⟨reqs, joined, hq, hr, hall, hc, hn⟩ hturn
  rcases admitNext_cases hturn with ⟨-, hf⟩ |
    ⟨req, rest, seq, n, hq', hid, -, hc', hn', htq, htr, hlen⟩
  · exact ⟨reqs, joined, by rw [hq, hf.waitQueue], by rw [hf.running, hr], hall,
      hf.config.trans hc, hf.nextSeqId.trans hn⟩
  · refine ⟨reqs ++ [req], joined ++ [start req seq n], ?_, ?_, ?_, hc'.trans hc, hn'.trans hn⟩
    · rw [hq, hq', htq, List.append_assoc, List.singleton_append]
    · rw [htr, hr, List.append_assoc]
    · exact List.rel_append hall (.cons ⟨seq, n, hid, hlen, rfl⟩ .nil)

/-- The phases of a scheduling step. -/
theorem scheduleStep_ok {adm : List (Nat × Nat)} {sch : Schedule}
    (h : s.scheduleStep order = .ok ((adm, sch), t)) : ∃ u v blocked, s.retire = .ok u ∧
      admitLoop order (u.waitQueue.length + 1) u = .ok ((adm, blocked), v) ∧
      sch = (v.buildSchedule blocked).1 ∧ t = (v.buildSchedule blocked).2 := by
  obtain ⟨u, hr, h⟩ := bind_eq_ok.mp h
  obtain ⟨⟨⟨adm', blocked⟩, v⟩, ha, h⟩ := bind_eq_ok.mp h
  cases h
  exact ⟨u, v, blocked, hr, ha, rfl, rfl⟩

theorem schedule_ok {sch : Schedule} (h : s.schedule order = .ok (sch, t)) :
    ∃ u v adm blocked, s.retire = .ok u ∧
      admitLoop order (u.waitQueue.length + 1) u = .ok ((adm, blocked), v) ∧
      sch = (v.buildSchedule blocked).1 ∧ t = (v.buildSchedule blocked).2 := by
  obtain ⟨⟨⟨adm, sch'⟩, t'⟩, hs, he⟩ := map_eq_ok.mp h
  cases he
  obtain ⟨u, v, blocked, hr, ha, hsch, ht⟩ := scheduleStep_ok hs
  exact ⟨u, v, adm, blocked, hr, ha, hsch, ht⟩

/-! ## The prefill loop -/

/-- What the prefill loop does to the batch: some sequences only change state, the
others feed a chunk that stays within their prompt. -/
inductive Fills : List (RunningSeq F) → List PrefillStep → List (RunningSeq F) → Prop
  | nil : Fills [] [] []
  | keep {r : RunningSeq F} {rest rest' : List (RunningSeq F)} {steps : List PrefillStep}
      (state : SeqState) : Fills rest steps rest' →
      Fills (r :: rest) steps ({ r with state := state } :: rest')
  | feed {r : RunningSeq F} {rest rest' : List (RunningSeq F)} {steps : List PrefillStep}
      {n : Nat} : r.numPrefilled + n ≤ r.prompt.length → Fills rest steps rest' →
      Fills (r :: rest) (prefillStep r n :: steps) (feed r n :: rest')

/-- What neither the state nor the progress of a sequence shows in stays. -/
theorem Fills.map_eq {rs rs' : List (RunningSeq F)} {steps : List PrefillStep} {β : Type}
    {g : RunningSeq F → β} (h : Fills rs steps rs')
    (hg : ∀ (r : RunningSeq F) (n : Nat) (state : SeqState),
      g { r with numPrefilled := n, state := state } = g r) : rs'.map g = rs.map g := by
  induction h with
  | nil => rfl
  | @keep r _ _ _ state _ ih => rw [List.map_cons, List.map_cons, ih, ← hg r r.numPrefilled state]
  | @feed r _ _ _ n _ _ ih => rw [List.map_cons, List.map_cons, ih, Scheduler.feed, hg]

theorem chunk_le (config : SchedulerConfig) (budget remaining : Nat) :
    chunk config budget remaining ≤ remaining := by
  unfold chunk
  split <;> omega

/-- The turns of the prefill loop in full: a sequence is passed over, found to have
no prompt left, or fed a chunk. -/
inductive Fed : List (RunningSeq F) → List PrefillStep → List (RunningSeq F) → Prop
  | nil : Fed [] [] []
  | same (r : RunningSeq F) {rest rest' : List (RunningSeq F)} {steps : List PrefillStep} :
      Fed rest steps rest' → Fed (r :: rest) steps (r :: rest')
  | switch {r : RunningSeq F} {rest rest' : List (RunningSeq F)} {steps : List PrefillStep} :
      r.state = .prefilling → r.prompt.length ≤ r.numPrefilled → Fed rest steps rest' →
      Fed (r :: rest) steps ({ r with state := .decoding } :: rest')
  | feed {r : RunningSeq F} {rest rest' : List (RunningSeq F)} {steps : List PrefillStep}
      {n : Nat} : r.state = .prefilling → 0 < n → r.numPrefilled + n ≤ r.prompt.length →
      Fed rest steps rest' → Fed (r :: rest) (prefillStep r n :: steps) (feed r n :: rest')

theorem Fed.refl (rs : List (RunningSeq F)) : Fed rs [] rs := by
  induction rs with
  | nil => exact .nil
  | cons r rest ih => exact .same r ih

theorem Fed.fills {rs rs' : List (RunningSeq F)} {steps : List PrefillStep}
    (h : Fed rs steps rs') : Fills rs steps rs' := by
  induction h with
  | nil => exact .nil
  | same r _ ih => exact .keep r.state ih
  | switch _ _ _ ih => exact .keep .decoding ih
  | feed _ _ hle _ ih => exact .feed hle ih

theorem fillPrefill_fed (config : SchedulerConfig) (budget : Nat) (rs : List (RunningSeq F)) :
    Fed rs (fillPrefill config budget rs).1 (fillPrefill config budget rs).2 := by
  induction rs generalizing budget with
  | nil => exact .nil
  | cons r rest ih =>
    simp only [fillPrefill]
    split
    · rename_i hstate
      split
      · exact .switch hstate (by omega) (ih budget)
      · split
        · exact .refl _
        · have hle := chunk_le config budget (r.prompt.length - r.numPrefilled)
          exact .feed hstate (by omega) (by omega) (ih _)
    · exact .same r (ih budget)

theorem fillPrefill_fills (config : SchedulerConfig) (budget : Nat) (rs : List (RunningSeq F)) :
    Fills rs (fillPrefill config budget rs).1 (fillPrefill config budget rs).2 :=
  (fillPrefill_fed config budget rs).fills

theorem buildSchedule_fed (s : Scheduler F) (blocked : Bool) :
    Fed s.running (s.buildSchedule blocked).1.prefill (s.buildSchedule blocked).2.running :=
  fillPrefill_fed s.config _ s.running

/-- The sequences a scheduling step admits, as they join the batch. -/
def admittedBy (s : Scheduler F) (order : HashOrder) : List (RunningSeq F) :=
  match s.retire with
  | .error _ => []
  | .ok u =>
    match admitLoop order (u.waitQueue.length + 1) u with
    | .error _ => []
    | .ok (_, v) => v.running.drop u.running.length

/-- What a scheduling step does to the batch and the queue: finished sequences
leave, requests from the front of the queue join at the end, and chunks of prompts
are fed. -/
theorem schedule_batch {sch : Schedule} (h : s.schedule order = .ok (sch, t)) :
    ∃ reqs, s.waitQueue = reqs ++ t.waitQueue ∧
      List.Forall₂ Became reqs (s.admittedBy order) ∧
      Fed ((s.running.filter fun r => !finished s.config r) ++ s.admittedBy order) sch.prefill
        t.running ∧
      t.config = s.config ∧ t.nextSeqId = s.nextSeqId := by
  obtain ⟨u, v, adm, blocked, hr, ha, rfl, rfl⟩ := schedule_ok h
  have hf := retire_frame hr
  obtain ⟨reqs, joined, hq, hrun, hall, hc, hn⟩ := admitLoop_joins ha
  have hadm : s.admittedBy order = joined := by
    simp only [admittedBy, hr, ha, hrun, List.drop_left]
  rw [hadm]
  refine ⟨reqs, hf.waitQueue.symm.trans hq, hall, ?_, hc.trans hf.config, hn.trans hf.nextSeqId⟩
  have hfed := buildSchedule_fed v blocked
  rwa [hrun, hf.running] at hfed

/-- The ids of a batch that has fed chunks are those it had. -/
theorem Fed.ids {rs rs' : List (RunningSeq F)} {steps : List PrefillStep}
    (h : Fed rs steps rs') : rs'.map (fun r => r.seq.id) = rs.map fun r => r.seq.id :=
  h.fills.map_eq fun _ _ _ => rfl

theorem became_of_mem {reqs : List (NewRequest F)} {joined : List (RunningSeq F)}
    {r : RunningSeq F} (h : List.Forall₂ Became reqs joined) (hr : r ∈ joined) :
    ∃ req ∈ reqs, Became req r := by
  induction h with
  | nil => cases hr
  | cons hb _ ih =>
    rcases List.mem_cons.mp hr with rfl | hr
    · exact ⟨_, List.mem_cons_self, hb⟩
    · obtain ⟨req, hreq, hb⟩ := ih hr
      exact ⟨req, List.mem_cons_of_mem _ hreq, hb⟩

theorem became_ids {reqs : List (NewRequest F)} {joined : List (RunningSeq F)}
    (h : List.Forall₂ Became reqs joined) :
    joined.map (fun r => r.seq.id) = reqs.map NewRequest.id := by
  induction h with
  | nil => rfl
  | cons hb _ ih =>
    obtain ⟨seq, n, hid, -, rfl⟩ := hb
    rw [List.map_cons, List.map_cons, ih, ← hid]
    rfl

end Scheduler

end JustApi.Inference.Scheduling
