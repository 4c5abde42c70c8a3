import JustApi.Lib.Tally
import JustApi.Inference.StepLists
import JustApi.Inference.DecodeShare

/-! # The batch drains

A round is what the loop of the engine does to the scheduler: a step, and one token for
each entry of its two lists. A round in which somebody is in the batch uses up some of the
work that the batch and the queue still are. -/
namespace JustApi.Inference.BatchDrain
open JustApi.Lib.Run JustApi.Lib.Result JustApi.Inference.KvCache JustApi.Inference.RadixCache
open JustApi.Inference.Scheduling JustApi.Inference.Scheduling.Scheduler
open JustApi.Inference.Handoff JustApi.Inference.FifoService JustApi.Inference.TokenBudget

variable {F : Type} {s t u : Scheduler F} {order : HashOrder} {sch : Schedule}

/-- A step of the scheduler whose entries are all answered. -/
def round (s : Scheduler F) (order : HashOrder) : Except Panic (Scheduler F) :=
  (s.schedule order).map fun r => r.2.answer (listed r.1)

/-! ## The work that is left -/

/-- The tokens a sequence may still get, its prefill, and that it has to leave. -/
def weight (r : RunningSeq F) : Nat :=
  (r.params.maxTokens - r.numGenerated) + (if r.state = .prefilling then 1 else 0) + 1

/-- A request has to be admitted besides. -/
def demand (req : NewRequest F) : Nat := req.samplingParams.maxTokens + 3

def workLeft (s : Scheduler F) : Nat :=
  (s.running.map weight).sum + (s.waitQueue.map demand).sum

/-- The counts do not wrap around: a limit is not the largest number there is. -/
structure Modest (s : Scheduler F) : Prop where
  running : ∀ r ∈ s.running, r.params.maxTokens + 1 < 2 ^ 64
  waiting : ∀ req ∈ s.waitQueue, req.samplingParams.maxTokens + 1 < 2 ^ 64

/-! ## Answers -/

theorem answer_running (s : Scheduler F) (ids : List Nat) (hnd : s.runningIds.Nodup) :
    (s.answer ids).running = s.running.map fun r => bump^[ids.count r.seq.id] r := by
  induction ids generalizing s with
  | nil => simp [answer]
  | cons id rest ih =>
    have hids : (s.onStepComplete id 1).runningIds = s.runningIds :=
      onStepComplete_running s id 1 fun _ _ => rfl
    change ((s.onStepComplete id 1).answer rest).running = _
    rw [ih _ (hids ▸ hnd), onStepComplete_map hnd, List.map_map]
    refine List.map_congr_left fun r _ => ?_
    by_cases he : r.seq.id = id
    · simp [he, bump_id]
    · simp [he, List.count_cons_of_ne (Ne.symm he)]

theorem bump_iterate (r : RunningSeq F) (n : Nat) (h : r.numGenerated + n < 2 ^ 64) :
    (bump^[n] r).numGenerated = r.numGenerated + n ∧ (bump^[n] r).params = r.params ∧
      (bump^[n] r).state = r.state := by
  induction n with
  | zero => exact ⟨rfl, rfl, rfl⟩
  | succ n ih =>
    obtain ⟨hgen, hparams, hstate⟩ := ih (by omega)
    rw [Function.iterate_succ_apply']
    refine ⟨?_, hparams, hstate⟩
    show usize ((bump^[n] r).numGenerated + 1) = _
    rw [hgen]
    exact Nat.mod_eq_of_lt (by omega)

/-- Answers use up tokens. -/
theorem weight_bump_iterate (r : RunningSeq F) (n : Nat) (h : r.numGenerated + n < 2 ^ 64) :
    weight (bump^[n] r) ≤ weight r ∧
      (0 < n → r.numGenerated < r.params.maxTokens → weight (bump^[n] r) < weight r) := by
  obtain ⟨hgen, hparams, hstate⟩ := bump_iterate r n h
  simp only [weight, hgen, hparams, hstate]
  omega

/-! ## The lists of a step -/

theorem weight_of_passed {r r' : RunningSeq F} (h : Passed r r') : weight r' ≤ weight r := by
  cases h with
  | same => exact Nat.le_refl _
  | switch hstate _ => simp [weight, hstate]
  | feed hstate _ _ =>
    simp only [weight, feed, hstate]
    split <;> simp

theorem sum_weight_of_passed {rs rs' : List (RunningSeq F)} (h : List.Forall₂ Passed rs rs') :
    (rs'.map weight).sum ≤ (rs.map weight).sum := by
  induction h with
  | nil => exact Nat.le_refl _
  | cons hp _ ih =>
    rw [List.map_cons, List.map_cons, List.sum_cons, List.sum_cons]
    exact Nat.add_le_add (weight_of_passed hp) ih

theorem chunk_pos {config : SchedulerConfig} {budget remaining : Nat} (hbudget : 0 < budget)
    (hchunk : config.chunkedPrefillSize ≠ some 0) (hrem : 0 < remaining) :
    0 < chunk config budget remaining := by
  unfold chunk
  split
  · rename_i size hsize
    have : size ≠ 0 := fun h => hchunk (h ▸ hsize)
    omega
  · omega

/-- With tokens to spend, the first sequence that prefills is fed or is done with it. -/
theorem fillPrefill_progress {config : SchedulerConfig} {budget : Nat} {r : RunningSeq F}
    {rest : List (RunningSeq F)} (hbudget : 0 < budget)
    (hchunk : config.chunkedPrefillSize ≠ some 0) (hr : r.state = .prefilling) :
    (fillPrefill config budget (r :: rest)).1 ≠ [] ∨
      ((fillPrefill config budget (r :: rest)).2.map weight).sum <
        ((r :: rest).map weight).sum := by
  by_cases hrem : r.prompt.length - r.numPrefilled = 0
  · right
    have hrest := sum_weight_of_passed (fillPrefill_fed config budget rest).passed
    have hdone : weight { r with state := .decoding } < weight r := by simp [weight, hr]
    simp only [fillPrefill, hr, if_true, hrem, List.map_cons, List.sum_cons]
    exact Nat.add_lt_add_of_lt_of_le hdone hrest
  · left
    have hpos := chunk_pos hbudget hchunk (Nat.pos_of_ne_zero hrem)
    simp [fillPrefill, hr, hrem, Nat.ne_of_gt hpos]

/-- A step with a batch lists somebody or ends a prefill. -/
theorem buildSchedule_progress (s : Scheduler F) (blocked : Bool)
    (hbudget : 0 < s.config.maxNumBatchedTokens)
    (hchunk : s.config.chunkedPrefillSize ≠ some 0) (hne : s.running ≠ []) :
    listed (s.buildSchedule blocked).1 ≠ [] ∨
      ((s.buildSchedule blocked).2.running.map weight).sum < (s.running.map weight).sum := by
  by_cases hdec : 0 < s.running.countP fun r => r.state = .decoding
  · left
    have hpass := countP_le_of_passed (buildSchedule_fed s blocked).passed
    have hlen : 0 < (s.buildSchedule blocked).1.decode.length := by
      rw [buildSchedule_decode, List.length_map, List.length_take, decodeShare]
      omega
    simp [listed, List.ne_nil_of_length_pos hlen]
  · obtain ⟨r, rest, hrs⟩ := List.exists_cons_of_ne_nil hne
    have hzero : s.running.countP (fun r => r.state = .decoding) = 0 := by omega
    have hr : r.state = .prefilling := by
      have := List.countP_eq_zero.mp hzero r (hrs ▸ List.mem_cons_self)
      cases hstate : r.state with
      | prefilling => rfl
      | decoding => simp [hstate] at this
    simp only [buildSchedule, hzero, Nat.zero_min, Nat.sub_zero, listed]
    rw [hrs]
    refine (fillPrefill_progress hbudget hchunk hr).imp_left fun hfed => ?_
    simp [hfed]

/-! ## A round -/

/-- Somebody is in the batch that the next step works on. -/
def busy (s : Scheduler F) (order : HashOrder) : Bool := !(s.batch order).isEmpty

theorem sum_weight_joined {reqs : List (NewRequest F)} {joined : List (RunningSeq F)}
    (h : List.Forall₂ Became reqs joined) :
    (joined.map weight).sum + joined.length ≤ (reqs.map demand).sum := by
  induction h with
  | nil => exact Nat.le_refl _
  | @cons req r reqs joined hb _ ih =>
    obtain ⟨seq, n, -, -, rfl⟩ := hb
    have hone : weight (start req seq n) + 1 ≤ demand req := by
      have hflag : ∀ state : SeqState, (if state = .prefilling then 1 else 0) ≤ 1 := by
        intro state
        split <;> omega
      have := hflag (start req seq n).state
      simp only [weight, start, demand] at this ⊢
      omega
    simp only [List.map_cons, List.sum_cons, List.length_cons]
    omega

/-- What leaves, and what joins, uses up work. -/
theorem workLeft_batch (h : s.schedule order = .ok (sch, u)) :
    ((s.batch order).map weight).sum + (s.admittedBy order).length +
      (u.waitQueue.map demand).sum ≤ workLeft s := by
  obtain ⟨reqs, hqueue, hjoined, -⟩ := schedule_batch h
  have hsum := sum_weight_joined hjoined
  have hstay : ((s.running.filter fun r => !finished s.config r).map weight).sum ≤
      (s.running.map weight).sum := (List.filter_sublist.map weight).sum_le_sum (by simp)
  rw [workLeft, hqueue, batch, List.map_append, List.map_append, List.sum_append, List.sum_append]
  omega

/-- A member of the batch has tokens to get, or has just been admitted. -/
theorem mem_batch {r : RunningSeq F} (h : s.schedule order = .ok (sch, u)) (hm : Modest s)
    (hr : r ∈ s.batch order) : r.params.maxTokens + 1 < 2 ^ 64 ∧
      (r.numGenerated < r.params.maxTokens ∨ r.numGenerated = 0 ∧ s.admittedBy order ≠ []) := by
  rcases List.mem_append.mp hr with hr | hr
  · obtain ⟨hrun, hunfinished⟩ := List.mem_filter.mp hr
    refine ⟨hm.running r hrun, .inl ?_⟩
    simp [finished] at hunfinished
    exact hunfinished.1
  · obtain ⟨reqs, hqueue, hjoined, -⟩ := schedule_batch h
    obtain ⟨req, hreq, seq, n, -, -, rfl⟩ := became_of_mem hjoined hr
    refine ⟨hm.waiting req ?_, .inr ⟨rfl, List.ne_nil_of_mem hr⟩⟩
    exact hqueue ▸ List.mem_append_left _ hreq

theorem count_listed_le_two (hn : Numbered s) (h : s.schedule order = .ok (sch, u)) (id : Nat) :
    (listed sch).count id ≤ 2 := by
  have hnd : ((s.batch order).map fun r => r.seq.id).Nodup :=
    (schedule_lists h).1.ids ▸ (hn.schedule h).running
  have hp := count_prefill_le_one h hnd id
  have hd := count_decode_le_one h hnd id
  rw [listed, List.count_append]
  omega

/-- The answers use up work, at least one if anybody is listed who was there before. -/
theorem workLeft_answer (hn : Numbered s) (hm : Modest s) (h : s.schedule order = .ok (sch, u)) :
    ((u.answer (listed sch)).running.map weight).sum ≤ (u.running.map weight).sum ∧
      (listed sch ≠ [] → s.admittedBy order = [] →
        ((u.answer (listed sch)).running.map weight).sum < (u.running.map weight).sum) := by
  have hmember : ∀ r ∈ u.running, r.numGenerated + (listed sch).count r.seq.id < 2 ^ 64 ∧
      (s.admittedBy order = [] → r.numGenerated < r.params.maxTokens) := by
    intro r hr
    obtain ⟨q, hq, hpassed⟩ := exists_of_passed (schedule_lists h).1.passed hr
    obtain ⟨hlimit, hroom⟩ := mem_batch h hm hq
    have hcount := count_listed_le_two hn h r.seq.id
    rw [hpassed.numGenerated, hpassed.params]
    refine ⟨by omega, fun hnone => ?_⟩
    rcases hroom with hroom | ⟨-, hsome⟩
    · exact hroom
    · exact absurd hnone hsome
  rw [answer_running u (listed sch) (hn.schedule h).running, List.map_map]
  have hle : ∀ r ∈ u.running,
      weight (bump^[(listed sch).count r.seq.id] r) ≤ weight r := fun r hr =>
    (weight_bump_iterate r _ (hmember r hr).1).1
  refine ⟨List.sum_le_sum hle, fun hne hnone => ?_⟩
  obtain ⟨id, rest, hlisted⟩ := List.exists_cons_of_ne_nil hne
  have hid : id ∈ listed sch := hlisted ▸ List.mem_cons_self
  obtain ⟨r, hr, rfl⟩ := List.mem_map.mp (listed_subset h hid)
  refine List.sum_lt_sum _ _ hle ⟨r, hr, ?_⟩
  exact (weight_bump_iterate r _ (hmember r hr).1).2 (List.count_pos_iff.mpr hid)
    ((hmember r hr).2 hnone)

theorem round_work (hn : Numbered s) (hm : Modest s) (hbudget : 0 < s.config.maxNumBatchedTokens)
    (hchunk : s.config.chunkedPrefillSize ≠ some 0) (h : round s order = .ok t) :
    (busy s order).toNat + workLeft t ≤ workLeft s := by
  obtain ⟨⟨sch, u⟩, hs, rfl⟩ := map_eq_ok.mp h
  have hbatch := workLeft_batch hs
  obtain ⟨hle, hlt⟩ := workLeft_answer hn hm hs
  have hpass := sum_weight_of_passed (schedule_lists hs).1.passed
  have hqueue : (u.answer (listed sch)).waitQueue = u.waitQueue := by rw [answer_eq]
  simp only [workLeft, hqueue] at hbatch ⊢
  cases hbusy : busy s order with
  | false =>
    simp only [Bool.toNat_false]
    omega
  | true =>
    have hne : s.batch order ≠ [] := by simpa [busy] using hbusy
    by_cases hnone : s.admittedBy order = []
    · obtain ⟨v, blocked, hrun, hconfig, rfl, rfl⟩ := DecodeShare.schedule_built hs
      have hprog := buildSchedule_progress v blocked (hconfig ▸ hbudget) (hconfig ▸ hchunk)
        (hrun ▸ hne)
      rw [show v.running = s.batch order from hrun] at hprog
      simp only [Bool.toNat_true]
      rcases hprog with hlisted | hfewer
      · have := hlt hlisted hnone
        omega
      · omega
    · have := List.length_pos_iff.mpr hnone
      simp only [Bool.toNat_true]
      omega

/-! ## Rounds -/

theorem round_config (h : round s order = .ok t) : t.config = s.config := by
  obtain ⟨⟨sch, u⟩, hs, rfl⟩ := map_eq_ok.mp h
  rw [answer_eq]
  exact (schedule_batch hs).choose_spec.2.2.2.1

theorem round_waitQueue (h : round s order = .ok t) : ∃ reqs, s.waitQueue = reqs ++ t.waitQueue := by
  obtain ⟨⟨sch, u⟩, hs, rfl⟩ := map_eq_ok.mp h
  obtain ⟨reqs, hqueue, -⟩ := schedule_batch hs
  exact ⟨reqs, by rw [answer_eq]; exact hqueue⟩

theorem round_numbered (hn : Numbered s) (h : round s order = .ok t) : Numbered t := by
  obtain ⟨⟨sch, u⟩, hs, rfl⟩ := map_eq_ok.mp h
  have hu := hn.schedule hs
  have hline : line (u.answer (listed sch)) = line u := by
    rw [line, line, answer_ids, waitingIds, answer_eq]
    rfl
  refine ⟨hline ▸ hu.nodup, fun id hid => ?_⟩
  rw [answer_eq]
  exact hu.bounded id (hline ▸ hid)

theorem round_modest (hm : Modest s) (h : round s order = .ok t) : Modest t := by
  obtain ⟨reqs, hqueue⟩ := round_waitQueue h
  refine ⟨?_, fun req hreq => hm.waiting req (hqueue ▸ List.mem_append_right _ hreq)⟩
  obtain ⟨⟨sch, u⟩, hs, rfl⟩ := map_eq_ok.mp h
  intro r hr
  have hparams : (u.answer (listed sch)).running.map RunningSeq.params =
      u.running.map RunningSeq.params := answer_map u _ fun _ _ => rfl
  obtain ⟨r', hr', heq⟩ := List.mem_map.mp (hparams ▸ List.mem_map_of_mem hr)
  obtain ⟨q, hq, hpassed⟩ := exists_of_passed (schedule_lists hs).1.passed hr'
  rw [← heq, hpassed.params]
  exact (mem_batch hs hm hq).1

/-- What a run of rounds needs of the state it starts in. -/
structure Ready (s : Scheduler F) : Prop where
  numbered : Numbered s
  modest : Modest s
  budget : 0 < s.config.maxNumBatchedTokens
  chunks : s.config.chunkedPrefillSize ≠ some 0

def Rounds (s : Scheduler F) (order : HashOrder) (t : Scheduler F) : Prop := round s order = .ok t

theorem Ready.round (hs : Ready s) (h : Rounds s order t) :
    Ready t ∧ (busy s order).toNat + workLeft t ≤ workLeft s :=
  ⟨⟨round_numbered hs.numbered h, round_modest hs.modest h, round_config h ▸ hs.budget,
    round_config h ▸ hs.chunks⟩, round_work hs.numbered hs.modest hs.budget hs.chunks h⟩

/-- With nobody in the batch there is nobody left who was running or has been admitted. -/
theorem round_of_not_busy (h : Rounds s order t) (hbusy : busy s order = false) :
    t.runningIds = [] := by
  obtain ⟨⟨sch, u⟩, hs, rfl⟩ := map_eq_ok.mp h
  have hempty : s.batch order = [] := by simpa [busy] using hbusy
  have hids := (schedule_lists hs).1.ids
  rw [hempty] at hids
  rw [answer_ids]
  exact hids

/-- The line of the last state is what was left in the queue where the batch was empty. -/
theorem line_of_not_busy {tr : List (HashOrder × Scheduler F)} (hrun : Along Rounds s tr)
    (hidle : countSteps busy s tr < tr.length) :
    (last s tr).runningIds ⊆ waitingIds s := by
  have hkeep : ∀ (s : Scheduler F) (tr : List (HashOrder × Scheduler F)), Along Rounds s tr →
      line (last s tr) ⊆ line s := by
    intro s tr hrun
    induction tr generalizing s with
    | nil => exact List.Subset.refl _
    | cons head rest ih =>
      obtain ⟨⟨sch, u⟩, hs, heq⟩ := map_eq_ok.mp hrun.1
      have hu : (line u).Sublist (line s) := line_sublist
        (show exec s (.schedule head.1) = .ok u from map_eq_ok.mpr ⟨_, hs, rfl⟩) (by simp)
      have hline : line head.2 = line u := by
        rw [← heq, line, line, answer_ids, waitingIds, answer_eq]
        rfl
      exact List.Subset.trans (ih head.2 hrun.2) (hline ▸ hu.subset)
  have hwait : ∀ {s : Scheduler F} {order : HashOrder} {t : Scheduler F}, Rounds s order t →
      waitingIds t ⊆ waitingIds s := by
    intro s order t h
    obtain ⟨reqs, hqueue⟩ := round_waitQueue h
    rw [waitingIds, waitingIds, hqueue, List.map_append]
    exact List.subset_append_right _ _
  induction tr generalizing s with
  | nil => exact absurd hidle (Nat.lt_irrefl 0)
  | cons head rest ih =>
    obtain ⟨order, t⟩ := head
    obtain ⟨hround, hrest⟩ := hrun
    cases hbusy : busy s order with
    | true =>
      refine List.Subset.trans (ih hrest ?_) (hwait hround)
      rw [countSteps, hbusy, List.length_cons, Bool.toNat_true] at hidle
      omega
    | false =>
      have hline := hkeep t rest hrest
      rw [line, line, round_of_not_busy hround hbusy, List.nil_append] at hline
      exact List.Subset.trans (List.subset_append_left _ _)
        (List.Subset.trans hline (hwait hround))

/-- **The batch drains.** After any operations, let the loop run on its own. No more of its
rounds find somebody in the batch than there is work left, and after that many rounds every
sequence that was running has left. -/
theorem batch_drains {config : SchedulerConfig} {pool : KvBlockPool}
    (hbudget : 0 < config.maxNumBatchedTokens) (hchunk : config.chunkedPrefillSize ≠ some 0)
    {tr : List (Call F × Scheduler F)} (hrun : Along Performs (.new config pool) tr)
    (hs : s ∈ visited (.new config pool) tr) (hm : Modest s)
    {rounds : List (HashOrder × Scheduler F)} (hrounds : Along Rounds s rounds) :
    countSteps busy s rounds ≤ workLeft s ∧
      (workLeft s < rounds.length → ∀ id ∈ s.runningIds, id ∉ (last s rounds).runningIds) := by
  have hn := numbered_of_run hrun s hs
  have hconfig := config_of_run hrun s hs
  have hready : Ready s := ⟨hn, hm, hconfig ▸ hbudget, hconfig ▸ hchunk⟩
  have hcount : countSteps busy s rounds + workLeft (last s rounds) ≤ workLeft s :=
    hrounds.countSteps_add_le (I := Ready) busy workLeft (fun _ _ _ hs h => hs.round h) hready
  have hle : countSteps busy s rounds ≤ workLeft s := Nat.le_trans (Nat.le_add_right _ _) hcount
  refine ⟨hle, ?_⟩
  intro hlong id hid hlast
  have hwait := line_of_not_busy hrounds (Nat.lt_of_le_of_lt hle hlong) hlast
  exact List.disjoint_of_nodup_append hn.nodup hid hwait

/-- A decoding and a prefilling sequence share a budget of five tokens. -/
theorem batch_drains_longBesideShort :
    let s := final perform (.new ⟨4, 5, 64, some 4⟩ (.new 8)) longBesideShort
    let rounds := replay round s (List.replicate 12 .listed)
    workLeft s = 7 ∧ rounds.length = 12 ∧ s.runningIds = [1, 2] ∧
      ∀ id ∈ s.runningIds, id ∉ (last s rounds).runningIds := by
  intro s rounds
  have hwork : workLeft s = 7 := by decide +kernel
  have hlen : rounds.length = 12 := by decide +kernel
  refine ⟨hwork, hlen, by decide +kernel, ?_⟩
  have hrun := along_replay perform (.new ⟨4, 5, 64, some 4⟩ (.new 8)) longBesideShort
  have hs := final_mem_visited perform (.new ⟨4, 5, 64, some 4⟩ (.new 8)) longBesideShort
  have hmodest : Modest s := ⟨by decide +kernel, by decide +kernel⟩
  exact (batch_drains (by decide) (by decide) hrun hs hmodest
    (along_replay round s _)).2 (by rw [hwork, hlen]; decide)

end JustApi.Inference.BatchDrain
