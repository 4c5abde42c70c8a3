import JustApi.Lib.Run
import JustApi.Inference.HandoffFrame

/-! # A prompt is prefilled once, in order

Runs of all operations of a scheduler with a journal of the sequences `schedule`
admitted and of the prefill steps it emitted. The steps of a sequence, one after the
other, are its prompt from where it was admitted up to where its prefill has come. -/
namespace JustApi.Inference.PrefillOrder
open JustApi.Lib.Run JustApi.Lib.Result JustApi.Inference.KvCache JustApi.Inference.RadixCache
open JustApi.Inference.Scheduling JustApi.Inference.Scheduling.Scheduler
open JustApi.Inference.FifoService JustApi.Inference.Handoff

variable {F : Type}

/-- A scheduler with the sequences admitted so far, as they joined the batch, and the
prefill steps emitted so far, in their order. -/
structure Journal (F : Type) where
  sched : Scheduler F
  admitted : List (RunningSeq F)
  emitted : List PrefillStep

def Journal.new (config : SchedulerConfig) (pool : KvBlockPool) : Journal F :=
  ⟨.new config pool, [], []⟩

def record (j : Journal F) : Call F → Except Panic (Journal F)
  | .op (.schedule order) =>
    (j.sched.schedule order).map fun r =>
      ⟨r.2, j.admitted ++ j.sched.admittedBy order, j.emitted ++ r.1.prefill⟩
  | call => (perform j.sched call).map fun t => { j with sched := t }

def Step (j : Journal F) (call : Call F) (j' : Journal F) : Prop := record j call = .ok j'

/-- The steps of one sequence. -/
def stepsOf (steps : List PrefillStep) (id : Nat) : List PrefillStep :=
  steps.filter fun st => st.seqId == id

/-- The tokens of some steps, one step after the other. -/
def fedTokens (steps : List PrefillStep) : List Token := steps.flatMap PrefillStep.tokens

/-- `prompt[from..to]` -/
def slice (prompt : List Token) (i j : Nat) : List Token := (prompt.take j).drop i

/-- The steps feed the prompt from position `k` on, each from where the ones before it
stopped. -/
structure FeedsFrom (prompt : List Token) (k : Nat) (steps : List PrefillStep) : Prop where
  tokens : fedTokens steps = slice prompt k (k + (fedTokens steps).length)
  computed : ∀ (i : Nat) (st : PrefillStep), steps[i]? = some st →
    st.computedTokens = k + (fedTokens (steps.take i)).length

/-- The running sequence `r` has come as far as the steps of the admitted sequence `a`
say. -/
structure CameTo (a r : RunningSeq F) (steps : List PrefillStep) : Prop where
  prompt : r.prompt = a.prompt
  prefilled : r.numPrefilled = a.numPrefilled + (fedTokens steps).length
  state : r.state = .decoding ↔ r.prompt.length ≤ r.numPrefilled

/-- The prompt of every admitted sequence is prefilled in order. -/
def PrefilledInOrder (j : Journal F) : Prop :=
  ∀ a ∈ j.admitted, FeedsFrom a.prompt a.numPrefilled (stepsOf j.emitted a.seq.id) ∧
    ∀ r ∈ j.sched.running, r.seq.id = a.seq.id → CameTo a r (stepsOf j.emitted a.seq.id)

/-! ## One pass of the prefill loop -/

theorem stepsOf_append (steps steps' : List PrefillStep) (id : Nat) :
    stepsOf (steps ++ steps') id = stepsOf steps id ++ stepsOf steps' id :=
  List.filter_append _ _

theorem stepsOf_eq_nil {steps : List PrefillStep} {id : Nat} (h : ∀ st ∈ steps, st.seqId ≠ id) :
    stepsOf steps id = [] :=
  List.filter_eq_nil_iff.mpr fun st hst => by simpa using h st hst

theorem fedTokens_append (steps steps' : List PrefillStep) :
    fedTokens (steps ++ steps') = fedTokens steps ++ fedTokens steps' := List.flatMap_append

/-- What one pass does to one sequence, with the steps it emits for it. -/
inductive Advance (r : RunningSeq F) : List PrefillStep → RunningSeq F → Prop
  | same : Advance r [] r
  | switch : r.state = .prefilling → r.prompt.length ≤ r.numPrefilled →
      Advance r [] { r with state := .decoding }
  | feed {n : Nat} : r.state = .prefilling → 0 < n → r.numPrefilled + n ≤ r.prompt.length →
      Advance r [prefillStep r n] (feed r n)

theorem seqId_of_fed {rs rs' : List (RunningSeq F)} {steps : List PrefillStep}
    (h : Fed rs steps rs') : ∀ st ∈ steps, st.seqId ∈ rs.map fun r => r.seq.id := by
  induction h with
  | nil => exact fun _ hst => nomatch hst
  | same r _ ih => exact fun st hst => List.mem_cons_of_mem _ (ih st hst)
  | switch _ _ _ ih => exact fun st hst => List.mem_cons_of_mem _ (ih st hst)
  | feed _ _ _ _ ih =>
    intro st hst
    rcases List.mem_cons.mp hst with rfl | hst
    · exact List.mem_cons_self
    · exact List.mem_cons_of_mem _ (ih st hst)

theorem stepsOf_fed_eq_nil {rs rs' : List (RunningSeq F)} {steps : List PrefillStep} {id : Nat}
    (h : Fed rs steps rs') (hid : id ∉ rs.map fun r => r.seq.id) : stepsOf steps id = [] :=
  stepsOf_eq_nil fun st hst he => hid (he ▸ seqId_of_fed h st hst)

theorem stepsOf_cons_ne {st : PrefillStep} {steps : List PrefillStep} {id : Nat}
    (h : st.seqId ≠ id) : stepsOf (st :: steps) id = stepsOf steps id :=
  List.filter_cons_of_neg (by simpa using h)

/-- The steps a pass emits for a sequence of the batch are those of its own turn. -/
theorem advance_of_fed {rs rs' : List (RunningSeq F)} {steps : List PrefillStep}
    (h : Fed rs steps rs') (hnd : (rs.map fun r => r.seq.id).Nodup) :
    ∀ r' ∈ rs', ∃ r ∈ rs, r'.seq.id = r.seq.id ∧ Advance r (stepsOf steps r.seq.id) r' := by
  induction h with
  | nil => exact fun _ hr' => nomatch hr'
  | @same r rest rest' steps hrest ih =>
    rw [List.map_cons, List.nodup_cons] at hnd
    intro r' hr'
    rcases List.mem_cons.mp hr' with rfl | hr'
    · refine ⟨r', List.mem_cons_self, rfl, ?_⟩
      rw [stepsOf_fed_eq_nil hrest hnd.1]
      exact .same
    · obtain ⟨q, hq, hspec⟩ := ih hnd.2 r' hr'
      exact ⟨q, List.mem_cons_of_mem _ hq, hspec⟩
  | @switch r rest rest' steps hstate hle hrest ih =>
    rw [List.map_cons, List.nodup_cons] at hnd
    intro r' hr'
    rcases List.mem_cons.mp hr' with rfl | hr'
    · refine ⟨r, List.mem_cons_self, rfl, ?_⟩
      rw [stepsOf_fed_eq_nil hrest hnd.1]
      exact .switch hstate hle
    · obtain ⟨q, hq, hspec⟩ := ih hnd.2 r' hr'
      exact ⟨q, List.mem_cons_of_mem _ hq, hspec⟩
  | @feed r rest rest' steps n hstate hn hle hrest ih =>
    rw [List.map_cons, List.nodup_cons] at hnd
    intro r' hr'
    rcases List.mem_cons.mp hr' with rfl | hr'
    · refine ⟨r, List.mem_cons_self, rfl, ?_⟩
      have hown : stepsOf (prefillStep r n :: steps) r.seq.id = [prefillStep r n] := by
        rw [stepsOf, List.filter_cons_of_pos (by simp [prefillStep])]
        exact congrArg _ (stepsOf_fed_eq_nil hrest hnd.1)
      rw [hown]
      exact .feed hstate hn hle
    · obtain ⟨q, hq, hid, hspec⟩ := ih hnd.2 r' hr'
      refine ⟨q, List.mem_cons_of_mem _ hq, hid, ?_⟩
      rw [stepsOf_cons_ne (fun he : r.seq.id = q.seq.id => hnd.1 (he ▸ List.mem_map_of_mem hq))]
      exact hspec

/-! ## What an advance does to the law -/

theorem feedsFrom_nil (prompt : List Token) (k : Nat) : FeedsFrom prompt k [] :=
  ⟨by simp [fedTokens, slice], fun i st h => by simp at h⟩

theorem cameTo_start {req : NewRequest F} {r : RunningSeq F} (h : Became req r) :
    CameTo r r [] := by
  obtain ⟨seq, n, -, -, rfl⟩ := h
  refine ⟨rfl, rfl, ?_⟩
  simp only [start]
  split
  · exact ⟨fun _ => ‹_›, fun _ => rfl⟩
  · exact ⟨fun h => (nomatch h), fun h => absurd h ‹_›⟩

theorem fedTokens_prefillStep {r : RunningSeq F} {n : Nat}
    (hle : r.numPrefilled + n ≤ r.prompt.length) :
    fedTokens [prefillStep r n] = (r.prompt.drop r.numPrefilled).take n ∧
      (fedTokens [prefillStep r n]).length = n := by
  have htok : fedTokens [prefillStep r n] = (r.prompt.drop r.numPrefilled).take n := by
    simp [fedTokens, prefillStep]
  refine ⟨htok, ?_⟩
  rw [htok, List.length_take, List.length_drop]
  omega

/-- The chunk fed next continues what was fed. -/
theorem feedsFrom_feed {a r : RunningSeq F} {steps : List PrefillStep} {n : Nat}
    (h : FeedsFrom a.prompt a.numPrefilled steps) (hr : CameTo a r steps)
    (hle : r.numPrefilled + n ≤ r.prompt.length) :
    FeedsFrom a.prompt a.numPrefilled (steps ++ [prefillStep r n]) := by
  obtain ⟨htok, hlen⟩ := fedTokens_prefillStep hle
  constructor
  · rw [fedTokens_append, List.length_append, hlen, ← Nat.add_assoc, ← hr.prefilled, htok,
      hr.prompt]
    have hold := h.tokens
    rw [← hr.prefilled] at hold
    rw [hold, slice, slice, List.take_add, List.drop_append_of_le_length]
    rw [List.length_take, hr.prefilled]
    have := hr.prefilled
    rw [hr.prompt] at hle
    omega
  · intro i st hi
    rcases Nat.lt_or_ge i steps.length with hlt | hge
    · rw [List.getElem?_append_left hlt] at hi
      rw [List.take_append_of_le_length (Nat.le_of_lt hlt)]
      exact h.computed i st hi
    · rw [List.getElem?_append_right hge] at hi
      have hlast : i = steps.length := by
        have := (List.getElem?_eq_some_iff.mp hi).1
        rw [List.length_singleton] at this
        omega
      subst hlast
      rw [Nat.sub_self] at hi
      cases hi
      rw [List.take_left]
      exact hr.prefilled

theorem cameTo_advance {a r r' : RunningSeq F} {steps new : List PrefillStep}
    (hr : CameTo a r steps) (h : Advance r new r') : CameTo a r' (steps ++ new) := by
  cases h with
  | same => rw [List.append_nil]; exact hr
  | switch hstate hle =>
    rw [List.append_nil]
    exact ⟨hr.prompt, hr.prefilled, ⟨fun _ => hle, fun _ => rfl⟩⟩
  | @feed n hstate hn hle =>
    obtain ⟨-, hlen⟩ := fedTokens_prefillStep hle
    refine ⟨hr.prompt, ?_, ?_⟩
    · rw [fedTokens_append, List.length_append, hlen, ← Nat.add_assoc, ← hr.prefilled]
      rfl
    · simp only [feed]
      split
      · exact ⟨fun _ => ‹_›, fun _ => rfl⟩
      · rw [hstate]
        exact ⟨fun h => (by cases h), fun h => absurd h ‹_›⟩

theorem feedsFrom_advance {a r r' : RunningSeq F} {steps new : List PrefillStep}
    (h : FeedsFrom a.prompt a.numPrefilled steps) (hr : CameTo a r steps) (ha : Advance r new r') :
    FeedsFrom a.prompt a.numPrefilled (steps ++ new) := by
  cases ha with
  | same => rw [List.append_nil]; exact h
  | switch _ _ => rw [List.append_nil]; exact h
  | feed _ _ hle => exact feedsFrom_feed h hr hle

/-! ## Whole runs -/

/-- The law with what keeps it: ids are not shared, and nothing was emitted or
admitted under the id of a request that waits or is still to come. -/
structure Journaled (j : Journal F) : Prop where
  numbered : Numbered j.sched
  admitted : ∀ a ∈ j.admitted, a.seq.id < j.sched.nextSeqId ∧ a.seq.id ∉ waitingIds j.sched
  emitted : ∀ st ∈ j.emitted, st.seqId < j.sched.nextSeqId ∧ st.seqId ∉ waitingIds j.sched
  law : PrefilledInOrder j

theorem journaled_new (config : SchedulerConfig) (pool : KvBlockPool) :
    Journaled (F := F) (.new config pool) :=
  ⟨.new config pool, fun _ h => (nomatch h), fun _ h => (nomatch h), fun _ h => (nomatch h)⟩

/-- A call that emits nothing keeps the law if what it leaves in the batch is what was
there, or is new. -/
theorem Journaled.quiet {j : Journal F} {t : Scheduler F} (h : Journaled j) (hn : Numbered t)
    (hnext : j.sched.nextSeqId ≤ t.nextSeqId)
    (hwait : ∀ id ∈ waitingIds t, id ∈ waitingIds j.sched ∨ j.sched.nextSeqId ≤ id)
    (hrun : ∀ r ∈ t.running, (∃ q ∈ j.sched.running, r.seq.id = q.seq.id ∧ r.prompt = q.prompt ∧
      r.numPrefilled = q.numPrefilled ∧ r.state = q.state) ∨ j.sched.nextSeqId ≤ r.seq.id) :
    Journaled { j with sched := t } := by
  have hnot : ∀ id, id < j.sched.nextSeqId ∧ id ∉ waitingIds j.sched →
      id < t.nextSeqId ∧ id ∉ waitingIds t := by
    rintro id ⟨hlt, hw⟩
    refine ⟨Nat.lt_of_lt_of_le hlt hnext, fun hm => ?_⟩
    rcases hwait id hm with hm | hm
    · exact hw hm
    · omega
  refine ⟨hn, fun a ha => hnot _ (h.admitted a ha), fun st hst => hnot _ (h.emitted st hst), ?_⟩
  intro a ha
  obtain ⟨hfeeds, hcame⟩ := h.law a ha
  refine ⟨hfeeds, fun r hr hid => ?_⟩
  rcases hrun r hr with ⟨q, hq, hqid, hp, hnum, hst⟩ | hge
  · have hq' := hcame q hq (hqid ▸ hid)
    exact ⟨hp.trans hq'.prompt, hnum.trans hq'.prefilled, by rw [hst, hp, hnum]; exact hq'.state⟩
  · have := (h.admitted a ha).1
    omega

section Schedule

variable {j : Journal F} {t : Scheduler F} {sch : Schedule} {order : HashOrder}

/-- The line is split between what the call admits and what still waits. -/
theorem waitingIds_split (hs : j.sched.schedule order = .ok (sch, t)) :
    waitingIds j.sched =
      (j.sched.admittedBy order).map (fun r => r.seq.id) ++ waitingIds t := by
  obtain ⟨reqs, hq, hall, -⟩ := schedule_batch hs
  rw [became_ids hall, waitingIds, hq, List.map_append]
  rfl

/-- Before this call's steps the law holds of the batch, new sequences included. -/
theorem Journaled.law_before (h : Journaled j) (hs : j.sched.schedule order = .ok (sch, t)) :
    ∀ a ∈ j.admitted ++ j.sched.admittedBy order,
      FeedsFrom a.prompt a.numPrefilled (stepsOf j.emitted a.seq.id) ∧
        ∀ r ∈ (j.sched.running.filter fun r => !finished j.sched.config r) ++
          j.sched.admittedBy order, r.seq.id = a.seq.id →
            CameTo a r (stepsOf j.emitted a.seq.id) := by
  have hwait := waitingIds_split hs
  obtain ⟨reqs, -, hall, hfed, -⟩ := schedule_batch hs
  have hbatch := (h.numbered.schedule hs).running
  rw [runningIds, hfed.ids] at hbatch
  have hwaited : ∀ r ∈ j.sched.admittedBy order, r.seq.id ∈ waitingIds j.sched := by
    intro r hr
    rw [hwait]
    exact List.mem_append_left _ (List.mem_map_of_mem hr)
  intro a ha
  rcases List.mem_append.mp ha with ha | ha
  · obtain ⟨hfeeds, hcame⟩ := h.law a ha
    refine ⟨hfeeds, fun r hr hid => ?_⟩
    rcases List.mem_append.mp hr with hr | hr
    · exact hcame r (List.mem_of_mem_filter hr) hid
    · exact absurd (hid ▸ hwaited r hr) (h.admitted a ha).2
  · have hnil : stepsOf j.emitted a.seq.id = [] :=
      stepsOf_eq_nil fun st hst he => (h.emitted st hst).2 (he ▸ hwaited a ha)
    rw [hnil]
    refine ⟨feedsFrom_nil _ _, fun r hr hid => ?_⟩
    have : r = a := List.inj_on_of_nodup_map hbatch hr (List.mem_append_right _ ha) hid
    subst this
    obtain ⟨req, -, hb⟩ := became_of_mem hall ha
    exact cameTo_start hb

/-- This call's steps go on where the ones before them stopped. -/
theorem Journaled.law_after (h : Journaled j) (hs : j.sched.schedule order = .ok (sch, t)) :
    PrefilledInOrder ⟨t, j.admitted ++ j.sched.admittedBy order, j.emitted ++ sch.prefill⟩ := by
  obtain ⟨reqs, -, -, hfed, -⟩ := schedule_batch hs
  have hbatch := (h.numbered.schedule hs).running
  rw [runningIds, hfed.ids] at hbatch
  intro a ha
  obtain ⟨hfeeds, hcame⟩ := h.law_before hs a ha
  rw [stepsOf_append]
  refine ⟨?_, fun r' hr' hid => ?_⟩
  · by_cases hmem : a.seq.id ∈ t.runningIds
    · obtain ⟨r', hr', hid⟩ := List.mem_map.mp hmem
      obtain ⟨r, hr, hid', hadv⟩ := advance_of_fed hfed hbatch r' hr'
      have hra : r.seq.id = a.seq.id := hid'.symm.trans hid
      rw [hra] at hadv
      exact feedsFrom_advance hfeeds (hcame r hr hra) hadv
    · rw [stepsOf_fed_eq_nil hfed (hfed.ids ▸ hmem), List.append_nil]
      exact hfeeds
  · obtain ⟨r, hr, hid', hadv⟩ := advance_of_fed hfed hbatch r' hr'
    have hra : r.seq.id = a.seq.id := hid'.symm.trans hid
    rw [hra] at hadv
    exact cameTo_advance (hcame r hr hra) hadv

theorem Journaled.schedule (h : Journaled j) (hs : j.sched.schedule order = .ok (sch, t)) :
    Journaled ⟨t, j.admitted ++ j.sched.admittedBy order, j.emitted ++ sch.prefill⟩ := by
  have hnum : Numbered t := h.numbered.schedule hs
  have hwait := waitingIds_split hs
  obtain ⟨reqs, -, -, hfed, -, hnext⟩ := schedule_batch hs
  have hnot : ∀ id, id < j.sched.nextSeqId ∧ id ∉ waitingIds j.sched →
      id < t.nextSeqId ∧ id ∉ waitingIds t := by
    intro id hid
    exact ⟨hnext ▸ hid.1, fun hm => hid.2 (hwait ▸ List.mem_append_right _ hm)⟩
  have hnew : ∀ id ∈ (j.sched.admittedBy order).map (fun r => r.seq.id),
      id < t.nextSeqId ∧ id ∉ waitingIds t := by
    intro id hid
    have hnd := (List.nodup_append'.mp h.numbered.nodup).2.1
    rw [hwait] at hnd
    refine ⟨?_, fun hm => List.disjoint_of_nodup_append hnd hid hm⟩
    rw [hnext]
    exact h.numbered.bounded id (List.mem_append_right _ (hwait ▸ List.mem_append_left _ hid))
  have hrunning : ∀ id ∈ (j.sched.running.filter fun r => !finished j.sched.config r).map
      (fun r => r.seq.id), id < t.nextSeqId ∧ id ∉ waitingIds t := by
    intro id hid
    obtain ⟨r, hr, rfl⟩ := List.mem_map.mp hid
    have hmem := List.mem_of_mem_filter hr
    refine hnot _ ⟨h.numbered.running_lt hmem, fun hm => ?_⟩
    obtain ⟨req, hreq, he⟩ := List.mem_map.mp hm
    exact h.numbered.running_not_waiting hmem hreq he.symm
  refine ⟨hnum, fun a ha => ?_, fun st hst => ?_, h.law_after hs⟩
  · rcases List.mem_append.mp ha with ha | ha
    · exact hnot _ (h.admitted a ha)
    · exact hnew _ (List.mem_map_of_mem ha)
  · rcases List.mem_append.mp hst with hst | hst
    · exact hnot _ (h.emitted st hst)
    · have := seqId_of_fed hfed st hst
      rw [List.map_append] at this
      exact (List.mem_append.mp this).elim (hrunning _) (hnew _)

end Schedule

theorem Journaled.perform {j : Journal F} {t : Scheduler F} {call : Call F} (h : Journaled j)
    (hx : perform j.sched call = .ok t) (hcall : ∀ order, call ≠ .op (.schedule order)) :
    Journaled { j with sched := t } := by
  have hn := h.numbered.perform hx
  have hkept : ∀ r ∈ j.sched.running, (∃ q ∈ j.sched.running, r.seq.id = q.seq.id ∧
      r.prompt = q.prompt ∧ r.numPrefilled = q.numPrefilled ∧ r.state = q.state) ∨
      j.sched.nextSeqId ≤ r.seq.id := fun r hr => .inl ⟨r, hr, rfl, rfl, rfl, rfl⟩
  cases call with
  | op op =>
    refine h.quiet hn (exec_nextSeqId hx) ?_ ?_
    · intro id hid
      have hk := exec_keepsOrder hx
      cases op with
      | addRequest req =>
        rw [hk.2] at hid
        rcases List.mem_append.mp hid with hid | hid
        · exact .inl hid
        · rw [List.mem_singleton.mp hid]
          exact .inr (Nat.le_refl _)
      | schedule order => exact absurd rfl (hcall order)
      | onStepComplete seqId n => exact .inl (hk.2 ▸ hid)
      | cancel seqId => exact .inl (hk.2 ▸ hid)
    · intro r hr
      cases op with
      | addRequest req =>
        cases hx
        exact hkept r hr
      | schedule order => exact absurd rfl (hcall order)
      | onStepComplete seqId n =>
        cases hx
        exact .inl (mem_onStepComplete hr)
      | cancel seqId =>
        rw [(cancel_running hx).1] at hr
        exact hkept r (List.mem_of_mem_eraseP hr)
  | takeCompletedPrefill =>
    obtain ⟨⟨taken, t'⟩, ht, rfl⟩ := map_eq_ok.mp hx
    obtain ⟨-, -, hf, -⟩ := takeCompletedPrefill_ok ht
    refine h.quiet hn (Nat.le_of_eq hf.nextSeqId.symm) ?_ ?_
    · intro id hid
      rw [waitingIds, hf.waitQueue] at hid
      exact .inl hid
    · intro r hr
      rw [hf.running] at hr
      exact hkept r (List.mem_of_mem_filter hr)
  | admitTransferred x =>
    obtain ⟨ok, seq, pool, -, hid, rfl⟩ := admitTransferred_ok hx
    refine h.quiet hn (Nat.le_succ _) (fun id hid => .inl hid) fun r hr => ?_
    cases ok with
    | false => exact hkept r hr
    | true =>
      rcases List.mem_append.mp hr with hr | hr
      · exact hkept r hr
      · rw [List.mem_singleton.mp hr]
        exact .inr (Nat.le_of_eq hid.symm)

theorem journaled_step {j j' : Journal F} {call : Call F} (h : Journaled j)
    (hstep : Step j call j') : Journaled j' := by
  by_cases hcall : ∀ order, call ≠ .op (.schedule order)
  · have hx : (perform j.sched call).map (fun t => { j with sched := t }) = .ok j' := by
      unfold Step record at hstep
      split at hstep
      · exact absurd rfl (hcall _)
      · exact hstep
    obtain ⟨t, ht, rfl⟩ := map_eq_ok.mp hx
    exact h.perform ht hcall
  · push Not at hcall
    obtain ⟨order, rfl⟩ := hcall
    obtain ⟨⟨sch, t⟩, hs, rfl⟩ := map_eq_ok.mp hstep
    exact h.schedule hs

/-- **A prompt is prefilled once and in order.** In every run of a scheduler's
operations, for every sequence `schedule` has admitted: the tokens of its prefill
steps so far, in their order, are its prompt from its `numPrefilled` at admission
on, each step starts where the ones before it stopped, and while it runs its
`numPrefilled` is where the last step stopped and it is decoding exactly when that
is the end of the prompt. -/
theorem prompt_prefilled_in_order (config : SchedulerConfig) (pool : KvBlockPool)
    (tr : List (Call F × Journal F)) (hrun : Along Step (.new config pool) tr) :
    ∀ j ∈ visited (.new config pool) tr, PrefilledInOrder j :=
  fun j hj => (Along.invariant (I := Journaled) (fun _ _ _ => journaled_step)
    (journaled_new config pool) hrun j hj).law

/-- Two prompts share a budget of sixteen tokens a step and chunks of twelve. -/
def sharedBudget : List (Call Unit) :=
  [.op (.addRequest ⟨0, (List.range 20).map UInt32.ofNat, ⟨9, (), (), 0, []⟩, 0, []⟩),
    .op (.addRequest ⟨0, (List.range 9).map UInt32.ofNat, ⟨9, (), (), 0, []⟩, 0, []⟩),
    .op (.schedule .listed), .op (.schedule .listed), .op (.schedule .listed),
    .takeCompletedPrefill]

theorem prompt_prefilled_in_order_shared_budget :
    let config : SchedulerConfig := ⟨4, 16, 64, some 12⟩
    let tr := replay record (.new config (.new 8)) sharedBudget
    tr.length = 6 ∧ (final record (.new config (.new 8)) sharedBudget).emitted.map
        (fun st => (st.seqId, st.computedTokens, st.tokens.length)) =
      [(1, 0, 12), (2, 0, 4), (1, 12, 8), (2, 4, 5)] ∧
    ∀ j ∈ visited (.new config (.new 8)) tr, PrefilledInOrder j :=
  ⟨by decide +kernel, by decide +kernel,
    prompt_prefilled_in_order _ _ _ (along_replay record _ _)⟩

end JustApi.Inference.PrefillOrder
