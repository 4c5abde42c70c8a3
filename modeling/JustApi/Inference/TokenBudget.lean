import Mathlib.Algebra.GroupWithZero.Nat
import JustApi.Lib.Run
import JustApi.Inference.HandoffFrame

/-! # Every batch respects the token budget

The decode share is set aside before the prefill loop runs, and the loop divides what
is left of the budget among the prompts. Whatever states the loop leaves behind, no
more sequences are decoded than the share that was set aside. -/
namespace JustApi.Inference.TokenBudget
open JustApi.Lib.Run JustApi.Lib.Result JustApi.Inference.KvCache JustApi.Inference.RadixCache
open JustApi.Inference.Scheduling JustApi.Inference.Scheduling.Scheduler
open JustApi.Inference.FifoService JustApi.Inference.Handoff

variable {F : Type} {s t : Scheduler F}

/-- A step of a scheduler: any of its public operations. -/
def Performs (s : Scheduler F) (call : Call F) (t : Scheduler F) : Prop := perform s call = .ok t

/-- The tokens the model computes for a batch. -/
def batchTokens (sch : Schedule) : Nat :=
  (sch.prefill.map fun st => st.tokens.length).sum + sch.decode.length

structure WithinBudget (config : SchedulerConfig) (sch : Schedule) : Prop where
  tokens : batchTokens sch ≤ config.maxNumBatchedTokens
  chunks : ∀ size, config.chunkedPrefillSize = some size →
    ∀ st ∈ sch.prefill, 1 ≤ st.tokens.length ∧ st.tokens.length ≤ size
  prefillOnce : (sch.prefill.map PrefillStep.seqId).Nodup
  decodeOnce : sch.decode.Nodup

/-! ## The prefill loop -/

theorem chunk_le_budget (config : SchedulerConfig) (budget remaining : Nat) :
    chunk config budget remaining ≤ budget := by
  unfold chunk
  split <;> omega

theorem chunk_le_size {config : SchedulerConfig} {size : Nat}
    (hsize : config.chunkedPrefillSize = some size) (budget remaining : Nat) :
    chunk config budget remaining ≤ size := by
  simp only [chunk, hsize]
  omega

/-- A step carries as many tokens as its chunk has. -/
theorem prefillStep_length {r : RunningSeq F} {n : Nat} (h : n ≤ r.prompt.length - r.numPrefilled) :
    (prefillStep r n).tokens.length = n := by
  simp [prefillStep, h]

/-- The loop takes every chunk from what is left of the budget. -/
theorem fillPrefill_tokens (config : SchedulerConfig) (budget : Nat) (rs : List (RunningSeq F)) :
    ((fillPrefill config budget rs).1.map fun st => st.tokens.length).sum ≤ budget := by
  induction rs generalizing budget with
  | nil => simp [fillPrefill]
  | cons r rest ih =>
    simp only [fillPrefill]
    split
    · split
      · exact ih budget
      · split
        · simp
        · have hlen := prefillStep_length (r := r) (chunk_le config budget _)
          have hle := chunk_le_budget config budget (r.prompt.length - r.numPrefilled)
          have hrest := ih (budget - chunk config budget (r.prompt.length - r.numPrefilled))
          simp only [List.map_cons, List.sum_cons, hlen]
          omega
    · exact ih budget

theorem fillPrefill_chunks {config : SchedulerConfig} {size : Nat}
    (hsize : config.chunkedPrefillSize = some size) (budget : Nat) (rs : List (RunningSeq F)) :
    ∀ st ∈ (fillPrefill config budget rs).1, 1 ≤ st.tokens.length ∧ st.tokens.length ≤ size := by
  induction rs generalizing budget with
  | nil => simp [fillPrefill]
  | cons r rest ih =>
    simp only [fillPrefill]
    split
    · split
      · exact ih budget
      · split
        · simp
        · rename_i hn
          intro st hst
          rcases List.mem_cons.mp hst with rfl | hst
          · rw [prefillStep_length (chunk_le config budget _)]
            exact ⟨by omega, chunk_le_size hsize budget _⟩
          · exact ih _ st hst
    · exact ih budget

/-- One pass feeds a sequence at most once, in the order of the batch. -/
theorem seqIds_sublist {rs rs' : List (RunningSeq F)} {steps : List PrefillStep}
    (h : Fed rs steps rs') :
    (steps.map PrefillStep.seqId).Sublist (rs.map fun r => r.seq.id) := by
  induction h with
  | nil => exact .slnil
  | same r _ ih => exact ih.cons _
  | switch _ _ _ ih => exact ih.cons _
  | feed _ _ _ _ ih => exact ih.cons_cons _

/-! ## The batch of a step -/

theorem buildSchedule_tokens (s : Scheduler F) (blocked : Bool) :
    batchTokens (s.buildSchedule blocked).1 ≤ s.config.maxNumBatchedTokens := by
  have hfill := fillPrefill_tokens s.config (s.config.maxNumBatchedTokens -
    min (s.running.countP fun r => r.state = .decoding) s.config.maxNumBatchedTokens) s.running
  simp only [batchTokens, buildSchedule, List.length_map, List.length_take]
  omega

theorem decode_sublist (s : Scheduler F) (blocked : Bool) :
    (s.buildSchedule blocked).1.decode.Sublist (s.buildSchedule blocked).2.runningIds :=
  ((List.take_sublist _ _).trans List.filter_sublist).map _

/-- Over a batch whose ids are not shared, the schedule is within the budget. -/
theorem buildSchedule_within (hs : s.runningIds.Nodup) (blocked : Bool) :
    WithinBudget s.config (s.buildSchedule blocked).1 := by
  have hfed := buildSchedule_fed s blocked
  have hids : (s.buildSchedule blocked).2.runningIds = s.runningIds := hfed.ids
  constructor
  · exact buildSchedule_tokens s blocked
  · intro size hsize
    exact fillPrefill_chunks hsize _ s.running
  · exact hs.sublist (seqIds_sublist hfed)
  · exact (hids ▸ hs).sublist (decode_sublist s blocked)

/-- The ids of the batch a schedule is built from are those the batch has afterwards. -/
theorem schedule_within {order : HashOrder} {sch : Schedule} (hn : Numbered s)
    (h : s.schedule order = .ok (sch, t)) : WithinBudget s.config sch := by
  have ht : t.runningIds.Nodup := (hn.schedule h).running
  have hc : t.config = s.config := (schedule_batch h).choose_spec.2.2.2.1
  obtain ⟨u, v, adm, blocked, -, -, rfl, rfl⟩ := schedule_ok h
  have hids : (v.buildSchedule blocked).2.runningIds = v.runningIds :=
    (buildSchedule_fed v blocked).ids
  rw [← hc]
  exact buildSchedule_within (hids ▸ ht) blocked

/-! ## Runs -/

theorem perform_config {call : Call F} (h : perform s call = .ok t) : t.config = s.config := by
  cases call with
  | op op => exact exec_config h
  | takeCompletedPrefill =>
    obtain ⟨⟨taken, t'⟩, ht, rfl⟩ := map_eq_ok.mp h
    exact (takeCompletedPrefill_ok ht).2.2.1.config
  | admitTransferred x =>
    obtain ⟨ok, seq, pool, -, -, rfl⟩ := admitTransferred_ok h
    rfl

/-- The configuration of a scheduler is the one it was made with. -/
theorem config_of_run {config : SchedulerConfig} {pool : KvBlockPool}
    {tr : List (Call F × Scheduler F)} (hrun : Along Performs (.new config pool) tr) :
    ∀ s ∈ visited (.new config pool) tr, s.config = config :=
  hrun.invariant (fun _ _ _ hs hstep => (perform_config hstep).trans hs) rfl

theorem numbered_of_run {config : SchedulerConfig} {pool : KvBlockPool}
    {tr : List (Call F × Scheduler F)} (hrun : Along Performs (.new config pool) tr) :
    ∀ s ∈ visited (.new config pool) tr, Numbered s :=
  hrun.invariant (fun _ _ _ hs hstep => hs.perform hstep) (.new config pool)

/-- **Every batch respects the token budget.** Whatever the operations before it, a
schedule has no more tokens than `maxNumBatchedTokens`, none of its prefill steps is
empty or longer than the chunk size, and no sequence is listed twice for prefill or
twice for decode. -/
theorem batches_within_budget (config : SchedulerConfig) (pool : KvBlockPool)
    (tr : List (Call F × Scheduler F)) (hrun : Along Performs (.new config pool) tr) :
    ∀ s ∈ visited (.new config pool) tr, ∀ order sch t, s.schedule order = .ok (sch, t) →
      WithinBudget config sch := by
  intro s hs order sch t h
  rw [← config_of_run hrun s hs]
  exact schedule_within (numbered_of_run hrun s hs) h

/-- One prompt decodes while a longer one is fed four tokens at a time. -/
def longBesideShort : List (Call Unit) :=
  [.op (.addRequest ⟨0, (List.range 3).map UInt32.ofNat, ⟨2, (), (), 0, []⟩, 0, []⟩),
    .op (.addRequest ⟨0, (List.range 8).map UInt32.ofNat, ⟨2, (), (), 0, []⟩, 0, []⟩),
    .op (.schedule .listed)]

theorem batches_within_budget_longBesideShort :
    let s := final perform (.new ⟨4, 5, 64, some 4⟩ (.new 8)) longBesideShort
    (s.schedule .listed).map (fun r => (r.1.prefill.map fun st => (st.seqId, st.tokens.length),
      r.1.decode)) = .ok ([(2, 4)], [1]) ∧
    ∀ order sch t, s.schedule order = .ok (sch, t) → WithinBudget ⟨4, 5, 64, some 4⟩ sch :=
  ⟨by decide +kernel, batches_within_budget ⟨4, 5, 64, some 4⟩ (.new 8) _
    (along_replay perform _ longBesideShort) _ (final_mem_visited perform _ _)⟩

end JustApi.Inference.TokenBudget
