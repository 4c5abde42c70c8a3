import JustApi.Inference.TokenBudget

/-! # Who is decoded in a step

The decode list is filled by position in the batch, after the prefill loop has moved
finished prompts on to decoding. A prompt that finishes in front of a decoding
sequence takes the place the share had for it. -/
namespace JustApi.Inference.DecodeShare
open JustApi.Lib.Run JustApi.Lib.Result JustApi.Inference.KvCache JustApi.Inference.RadixCache
open JustApi.Inference.Scheduling JustApi.Inference.Scheduling.Scheduler
open JustApi.Inference.FifoService JustApi.Inference.Handoff JustApi.Inference.TokenBudget

variable {F : Type} {s t : Scheduler F} {config : SchedulerConfig}

def decoding (r : RunningSeq F) : Bool := r.state = .decoding

/-- The batch a schedule is built from: the sequences that stay and those that are
admitted. -/
def batch (s : Scheduler F) (order : HashOrder) : List (RunningSeq F) :=
  (s.running.filter fun r => !finished s.config r) ++ s.admittedBy order

/-- No sequence is both fed and decoded; as long as the budget has a token for each,
every sequence that was decoding is decoded; a sequence whose prompt is finished in
this step is decoding from the next one on. -/
structure Splits (s : Scheduler F) (order : HashOrder) (sch : Schedule) (t : Scheduler F) :
    Prop where
  disjoint : ∀ st ∈ sch.prefill, st.seqId ∉ sch.decode
  served : (batch s order).countP decoding ≤ s.config.maxNumBatchedTokens →
    ∀ r ∈ batch s order, decoding r → r.seq.id ∈ sch.decode
  next : ∀ r ∈ t.running, r.seq.id ∈ sch.prefill.map PrefillStep.seqId →
    r.prompt.length ≤ r.numPrefilled → decoding r ∧ r.seq.id ∉ sch.decode

/-! ## Finishing a prompt -/

def remaining (r : RunningSeq F) : Nat := r.prompt.length - r.numPrefilled

/-- The tokens a sequence is fed in one step when the budget does not run out. -/
def demand (config : SchedulerConfig) (r : RunningSeq F) : Nat :=
  if r.state = .prefilling then min (remaining r) (config.chunkedPrefillSize.getD (remaining r))
  else 0

/-- One step feeds `r` the rest of its prompt, behind the sequences `before`. -/
structure Finishes (config : SchedulerConfig) (budget : Nat) (before : List (RunningSeq F))
    (r : RunningSeq F) : Prop where
  prefilling : r.state = .prefilling
  left : 0 < remaining r
  whole : demand config r = remaining r
  room : (before.map (demand config)).sum + remaining r ≤ budget

/-- What the prefill loop has left when the decode share is set aside. -/
def prefillBudget (config : SchedulerConfig) (rs : List (RunningSeq F)) : Nat :=
  config.maxNumBatchedTokens - min (rs.countP decoding) config.maxNumBatchedTokens

/-- No sequence that finishes its prompt in the step stands in front of a decoding
one. -/
def FinishersLast (s : Scheduler F) (order : HashOrder) : Prop :=
  ∀ before r after, batch s order = before ++ r :: after →
    Finishes s.config (prefillBudget s.config (batch s order)) before r →
    ∀ q ∈ after, decoding q = false

/-- A sequence finishes its prompt with fewer than `k` decoding ones before it. -/
def Early (config : SchedulerConfig) (k budget : Nat) (rs : List (RunningSeq F)) : Prop :=
  ∃ before r after, rs = before ++ r :: after ∧ Finishes config budget before r ∧
    before.countP decoding < k

/-- Every sequence that is prefilling has some of its prompt left. -/
def PromptsLeft (rs : List (RunningSeq F)) : Prop :=
  ∀ r ∈ rs, r.state = .prefilling → 0 < remaining r

/-! ## One turn of the prefill loop -/

theorem chunk_eq (config : SchedulerConfig) (budget : Nat) {r : RunningSeq F}
    (h : r.state = .prefilling) :
    chunk config budget (remaining r) = min (demand config r) budget := by
  unfold chunk demand
  cases config.chunkedPrefillSize with
  | some size => simp [h]
  | none => simp [h]

/-- With a chunk size of zero nobody finishes. -/
theorem Finishes.demand_pos {budget : Nat} {before : List (RunningSeq F)} {r q : RunningSeq F}
    (h : Finishes config budget before r) (hq : q.state = .prefilling) (hleft : 0 < remaining q) :
    0 < demand config q := by
  have hpos : 0 < demand config r := by
    rw [h.whole]
    exact h.left
  rw [demand, if_pos h.prefilling] at hpos
  rw [demand, if_pos hq]
  cases hsize : config.chunkedPrefillSize with
  | some size =>
    rw [hsize, Option.getD_some] at hpos
    rw [Option.getD_some]
    omega
  | none =>
    rw [Option.getD_none]
    omega

/-- The head finishes in front of its first decode, or the fault is further on. -/
theorem early_cons {k budget : Nat} {r : RunningSeq F} {rest : List (RunningSeq F)} :
    Early config k budget (r :: rest) ↔ (Finishes config budget [] r ∧ 0 < k) ∨
      Early config (k - (decoding r).toNat) (budget - demand config r) rest := by
  constructor
  · intro h
    obtain ⟨before, q, after, hsplit, hq, hlt⟩ := h
    cases before with
    | nil =>
      cases hsplit
      exact .inl ⟨hq, by simpa using hlt⟩
    | cons r' before =>
      cases hsplit
      have hroom := hq.room
      have hleft := hq.left
      simp only [List.map_cons, List.sum_cons] at hroom
      refine .inr ⟨before, q, after, rfl, ⟨hq.prefilling, hleft, hq.whole, by omega⟩, ?_⟩
      rw [List.countP_cons] at hlt
      cases hr : decoding r <;> simp only [hr, Bool.toNat_true, Bool.toNat_false] at hlt ⊢ <;>
        simp at hlt <;> omega
  · rintro (⟨hr, hk⟩ | ⟨before, q, after, rfl, hq, hlt⟩)
    · exact ⟨[], r, rest, rfl, hr, by simpa using hk⟩
    · have hroom := hq.room
      have hleft := hq.left
      refine ⟨r :: before, q, after, rfl, ⟨hq.prefilling, hleft, hq.whole, ?_⟩, ?_⟩
      · simp only [List.map_cons, List.sum_cons]
        omega
      · rw [List.countP_cons]
        cases hr : decoding r <;> simp only [hr, Bool.toNat_true, Bool.toNat_false] at hlt ⊢ <;>
          simp <;> omega

/-- The ids of the first `k` decoding sequences. -/
def firstDecoding (k : Nat) (rs : List (RunningSeq F)) : List Nat :=
  ((rs.filter decoding).take k).map fun r => r.seq.id

theorem firstDecoding_zero (rs : List (RunningSeq F)) : firstDecoding 0 rs = [] := rfl

theorem firstDecoding_pass {k : Nat} {r : RunningSeq F} (rest : List (RunningSeq F))
    (h : decoding r = false) : firstDecoding k (r :: rest) = firstDecoding k rest := by
  simp [firstDecoding, h]

theorem firstDecoding_take {k : Nat} {r : RunningSeq F} (rest : List (RunningSeq F))
    (h : decoding r = true) :
    firstDecoding (k + 1) (r :: rest) = r.seq.id :: firstDecoding k rest := by
  simp [firstDecoding, h]

theorem feed_decoding {r : RunningSeq F} (h : r.state = .prefilling) (n : Nat) :
    decoding (feed r n) = true ↔ remaining r ≤ n := by
  unfold decoding feed remaining
  by_cases hn : r.prompt.length ≤ r.numPrefilled + n
  · simp [hn]
    omega
  · simp [hn, h]
    omega

theorem decoding_false {r : RunningSeq F} : decoding r = false ↔ r.state = .prefilling := by
  unfold decoding
  cases r.state <;> simp

theorem not_prefilling {r : RunningSeq F} (h : decoding r = true) : r.state ≠ .prefilling := by
  rw [Ne, ← decoding_false, h]
  exact Bool.noConfusion

/-- A decoding sequence takes nothing from the prefill budget. -/
theorem demand_decoding {r : RunningSeq F} (h : decoding r = true) : demand config r = 0 :=
  if_neg (not_prefilling h)

/-- The three ways a turn of the loop goes when the prompts have something left. -/
theorem fillPrefill_cons (config : SchedulerConfig) (budget : Nat) {r : RunningSeq F}
    (rest : List (RunningSeq F)) (hleft : r.state = .prefilling → 0 < remaining r) :
    (decoding r = true ∧ fillPrefill config budget (r :: rest) =
      ((fillPrefill config budget rest).1, r :: (fillPrefill config budget rest).2)) ∨
    (r.state = .prefilling ∧ min (demand config r) budget = 0 ∧
      fillPrefill config budget (r :: rest) = ([], r :: rest)) ∨
    (r.state = .prefilling ∧ 0 < min (demand config r) budget ∧
      fillPrefill config budget (r :: rest) =
        (prefillStep r (min (demand config r) budget) ::
            (fillPrefill config (budget - demand config r) rest).1,
          feed r (min (demand config r) budget) ::
            (fillPrefill config (budget - demand config r) rest).2)) := by
  cases hd : decoding r with
  | true =>
    refine .inl ⟨rfl, ?_⟩
    rw [fillPrefill, if_neg (not_prefilling hd)]
  | false =>
    have hstate := decoding_false.mp hd
    have hpos : r.prompt.length - r.numPrefilled ≠ 0 := Nat.ne_of_gt (hleft hstate)
    have hchunk : chunk config budget (r.prompt.length - r.numPrefilled) =
        min (demand config r) budget := chunk_eq config budget hstate
    have hrest : budget - min (demand config r) budget = budget - demand config r := by omega
    simp only [fillPrefill, if_pos hstate, if_neg hpos, hchunk]
    by_cases hn : min (demand config r) budget = 0
    · exact .inr (.inl ⟨hstate, hn, if_pos hn⟩)
    · exact .inr (.inr ⟨hstate, Nat.pos_of_ne_zero hn, by rw [if_neg hn, hrest]⟩)

/-! ## One pass -/

theorem Finishes.amount {budget : Nat} {r : RunningSeq F} (h : Finishes config budget [] r) :
    min (demand config r) budget = remaining r := by
  have hroom := h.room
  simp only [List.map_nil, List.sum_nil] at hroom
  rw [h.whole]
  omega

theorem finishes_nil {budget : Nat} {r : RunningSeq F} (hstate : r.state = .prefilling)
    (hleft : 0 < remaining r) (h : remaining r ≤ min (demand config r) budget) :
    Finishes config budget [] r := by
  have hle : demand config r ≤ remaining r := by
    rw [demand, if_pos hstate]
    exact Nat.min_le_left _ _
  refine ⟨hstate, hleft, by omega, ?_⟩
  simp only [List.map_nil, List.sum_nil]
  omega

/-- When nobody finishes early, the first `k` sequences to decode are those that were
decoding already. -/
theorem firstDecoding_fillPrefill {k budget : Nat} {rs : List (RunningSeq F)}
    (hleft : PromptsLeft rs) (h : ¬ Early config k budget rs) :
    firstDecoding k (fillPrefill config budget rs).2 = firstDecoding k rs := by
  induction rs generalizing k budget with
  | nil => rfl
  | cons r rest ih =>
    have hrest : PromptsLeft rest := fun q hq => hleft q (List.mem_cons_of_mem _ hq)
    rw [early_cons, not_or] at h
    obtain ⟨hhead, htail⟩ := h
    cases k with
    | zero => rw [firstDecoding_zero, firstDecoding_zero]
    | succ k =>
      have hr := hleft r List.mem_cons_self
      rcases fillPrefill_cons config budget rest hr with
        ⟨hd, heq⟩ | ⟨hstate, hn, heq⟩ | ⟨hstate, hn, heq⟩
      · rw [hd, Bool.toNat_true, Nat.add_sub_cancel, demand_decoding hd, Nat.sub_zero] at htail
        rw [heq, firstDecoding_take _ hd, firstDecoding_take _ hd, ih hrest htail]
      · rw [heq]
      · have hlong : ¬ remaining r ≤ min (demand config r) budget := fun hle =>
          hhead ⟨finishes_nil hstate (hr hstate) hle, Nat.succ_pos k⟩
        have hd := decoding_false.mpr hstate
        have hfeed : decoding (feed r (min (demand config r) budget)) = false := by
          rw [← Bool.not_eq_true, feed_decoding hstate]
          exact hlong
        rw [hd, Bool.toNat_false, Nat.sub_zero] at htail
        rw [heq, firstDecoding_pass _ hfeed, firstDecoding_pass _ hd, ih hrest htail]

theorem Early.pos {k budget : Nat} {rs : List (RunningSeq F)} (h : Early config k budget rs) :
    0 < k := by
  obtain ⟨before, r, after, -, -, hlt⟩ := h
  omega

/-- A sequence that finishes early is fed and takes a place in the decode list. -/
theorem early_fed_and_decoded {k budget : Nat} {rs : List (RunningSeq F)}
    (hleft : PromptsLeft rs) (h : Early config k budget rs) :
    ∃ st ∈ (fillPrefill config budget rs).1,
      st.seqId ∈ firstDecoding k (fillPrefill config budget rs).2 := by
  induction rs generalizing k budget with
  | nil =>
    obtain ⟨before, r, after, hsplit, -⟩ := h
    simp at hsplit
  | cons r rest ih =>
    have hrest : PromptsLeft rest := fun q hq => hleft q (List.mem_cons_of_mem _ hq)
    have hr := hleft r List.mem_cons_self
    obtain ⟨k, rfl⟩ := Nat.exists_eq_succ_of_ne_zero (Nat.ne_of_gt h.pos)
    have hturn := early_cons.mp h
    rcases fillPrefill_cons config budget rest hr with
      ⟨hd, heq⟩ | ⟨hstate, hn, heq⟩ | ⟨hstate, hn, heq⟩
    · have htail := hturn.resolve_left fun hfin => not_prefilling hd hfin.1.prefilling
      rw [hd, Bool.toNat_true, Nat.succ_sub_one, demand_decoding hd, Nat.sub_zero] at htail
      obtain ⟨st, hst, hmem⟩ := ih hrest htail
      rw [heq]
      refine ⟨st, hst, ?_⟩
      rw [firstDecoding_take _ hd]
      exact List.mem_cons_of_mem _ hmem
    · -- the loop stops here, so nobody finishes
      exfalso
      rcases hturn with ⟨hfin, -⟩ | ⟨before, q, after, -, hq, -⟩
      · have hpos := hfin.left
        rw [hfin.amount] at hn
        omega
      · have hpos := hq.demand_pos hstate (hr hstate)
        have hroom := hq.room
        have hq' := hq.left
        omega
    · rw [heq]
      cases hfeed : decoding (feed r (min (demand config r) budget)) with
      | true =>
        refine ⟨_, List.mem_cons_self, ?_⟩
        rw [firstDecoding_take _ hfeed]
        exact List.mem_cons_self
      | false =>
        have hlong : ¬ remaining r ≤ min (demand config r) budget := by
          rw [← feed_decoding hstate, hfeed]
          exact Bool.noConfusion
        have htail := hturn.resolve_left fun hfin => hlong (Nat.le_of_eq hfin.1.amount.symm)
        rw [decoding_false.mpr hstate, Bool.toNat_false, Nat.sub_zero] at htail
        obtain ⟨st, hst, hmem⟩ := ih hrest htail
        refine ⟨st, List.mem_cons_of_mem _ hst, ?_⟩
        rw [firstDecoding_pass _ hfeed]
        exact hmem

/-! ## The prompts have something left -/

theorem PromptsLeft.sublist {rs rs' : List (RunningSeq F)} (h : PromptsLeft rs)
    (hsub : rs'.Sublist rs) : PromptsLeft rs' := fun r hr => h r (hsub.subset hr)

theorem PromptsLeft.append {rs rs' : List (RunningSeq F)} (h : PromptsLeft rs)
    (h' : PromptsLeft rs') : PromptsLeft (rs ++ rs') := by
  intro r hr
  rcases List.mem_append.mp hr with hr | hr
  · exact h r hr
  · exact h' r hr

theorem PromptsLeft.fed {rs rs' : List (RunningSeq F)} {steps : List PrefillStep}
    (h : PromptsLeft rs) (hfed : Fed rs steps rs') : PromptsLeft rs' := by
  induction hfed with
  | nil => exact h
  | @same r rest rest' steps _ ih =>
    intro q hq hstate
    rcases List.mem_cons.mp hq with rfl | hq
    · exact h _ List.mem_cons_self hstate
    · exact ih (fun x hx => h x (List.mem_cons_of_mem _ hx)) q hq hstate
  | @switch r rest rest' steps _ _ _ ih =>
    intro q hq hstate
    rcases List.mem_cons.mp hq with rfl | hq
    · cases hstate
    · exact ih (fun x hx => h x (List.mem_cons_of_mem _ hx)) q hq hstate
  | @feed r rest rest' steps n hpre _ _ _ ih =>
    intro q hq hstate
    rcases List.mem_cons.mp hq with rfl | hq
    · have hn := feed_decoding hpre n
      rw [decoding_false.mpr hstate] at hn
      simp only [Bool.false_eq_true, false_iff] at hn
      simp only [remaining, feed] at hn ⊢
      omega
    · exact ih (fun x hx => h x (List.mem_cons_of_mem _ hx)) q hq hstate

/-- A request joins the batch prefilling exactly when the restored blocks leave some of
its prompt. -/
theorem promptsLeft_joined {reqs : List (NewRequest F)} {joined : List (RunningSeq F)}
    (h : List.Forall₂ Became reqs joined) : PromptsLeft joined := by
  intro r hr hstate
  obtain ⟨req, -, seq, n, -, -, rfl⟩ := became_of_mem h hr
  simp only [start] at hstate
  split at hstate
  · cases hstate
  · simp only [remaining, start]
    omega

theorem batch_promptsLeft {order : HashOrder} {sch : Schedule} (h : PromptsLeft s.running)
    (hs : s.schedule order = .ok (sch, t)) : PromptsLeft (batch s order) := by
  obtain ⟨reqs, -, hall, -⟩ := schedule_batch hs
  exact (h.sublist List.filter_sublist).append (promptsLeft_joined hall)

theorem PromptsLeft.schedule {order : HashOrder} {sch : Schedule} (h : PromptsLeft s.running)
    (hs : s.schedule order = .ok (sch, t)) : PromptsLeft t.running := by
  obtain ⟨-, -, -, hfed, -⟩ := schedule_batch hs
  exact (batch_promptsLeft h hs).fed hfed

theorem PromptsLeft.exec {op : Op F} (h : PromptsLeft s.running) (hx : exec s op = .ok t) :
    PromptsLeft t.running := by
  cases op with
  | addRequest req =>
    cases hx
    exact h
  | schedule order =>
    obtain ⟨⟨sch, t'⟩, hs, rfl⟩ := map_eq_ok.mp hx
    exact h.schedule hs
  | onStepComplete seqId n =>
    cases hx
    intro r hr hstate
    obtain ⟨q, hq, -, hprompt, hnum, hq'⟩ := mem_onStepComplete hr
    rw [remaining, hprompt, hnum]
    exact h q hq (hq'.symm.trans hstate)
  | cancel seqId => exact h.sublist (cancel_frame hx).1

theorem PromptsLeft.perform {call : Call F} (h : PromptsLeft s.running)
    (hx : perform s call = .ok t) : PromptsLeft t.running := by
  cases call with
  | op op => exact h.exec hx
  | takeCompletedPrefill =>
    obtain ⟨⟨taken, t'⟩, ht, rfl⟩ := map_eq_ok.mp hx
    obtain ⟨-, -, hf, -⟩ := takeCompletedPrefill_ok ht
    rw [hf.running]
    exact h.sublist List.filter_sublist
  | admitTransferred x =>
    obtain ⟨ok, seq, pool, -, -, rfl⟩ := admitTransferred_ok hx
    cases ok with
    | false => exact h
    | true =>
      refine h.append fun r hr hstate => ?_
      rw [List.mem_singleton.mp hr] at hstate
      cases hstate

/-! ## A step -/

/-- A schedule is built from its batch. -/
theorem schedule_built {order : HashOrder} {sch : Schedule} (h : s.schedule order = .ok (sch, t)) :
    ∃ (v : Scheduler F) (blocked : Bool), v.running = batch s order ∧ v.config = s.config ∧
      sch = (v.buildSchedule blocked).1 ∧ t = (v.buildSchedule blocked).2 := by
  obtain ⟨u, v, adm, blocked, hr, ha, hsch, ht⟩ := schedule_ok h
  have hf := retire_frame hr
  obtain ⟨reqs, joined, -, hrun, -, hc, -⟩ := admitLoop_joins ha
  refine ⟨v, blocked, ?_, hc.trans hf.config, hsch, ht⟩
  simp only [batch, admittedBy, hr, ha, hrun, List.drop_left, hf.running]
  rfl

/-- Nobody finishes early exactly when no finisher stands in front of a decoding
sequence. -/
theorem not_early_iff (config : SchedulerConfig) (rs : List (RunningSeq F)) :
    ¬ Early config (min (rs.countP decoding) config.maxNumBatchedTokens)
        (prefillBudget config rs) rs ↔
      ∀ before r after, rs = before ++ r :: after →
        Finishes config (prefillBudget config rs) before r → ∀ q ∈ after, decoding q = false := by
  -- who finishes leaves room in the budget, so the share is the number of decoding sequences
  have hshare : ∀ before r after, rs = before ++ r :: after →
      Finishes config (prefillBudget config rs) before r →
      (before.countP decoding < min (rs.countP decoding) config.maxNumBatchedTokens ↔
        0 < after.countP decoding) := by
    intro before r after hsplit hr
    have hroom := hr.room
    have hleft := hr.left
    have hcount : rs.countP decoding = before.countP decoding + after.countP decoding := by
      rw [hsplit, List.countP_append, List.countP_cons_of_neg]
      simp [decoding_false.mpr hr.prefilling]
    unfold prefillBudget at hroom
    omega
  constructor
  · intro h before r after hsplit hr q hq
    rw [← Bool.not_eq_true]
    intro hd
    refine h ⟨before, r, after, hsplit, hr, (hshare before r after hsplit hr).mpr ?_⟩
    exact List.countP_pos_iff.mpr ⟨q, hq, hd⟩
  · rintro h ⟨before, r, after, hsplit, hr, hlt⟩
    obtain ⟨q, hq, hd⟩ := List.countP_pos_iff.mp ((hshare before r after hsplit hr).mp hlt)
    rw [h before r after hsplit hr q hq] at hd
    cases hd

/-- Only prefilling sequences are fed. -/
theorem fed_prefilling {rs rs' : List (RunningSeq F)} {steps : List PrefillStep}
    (h : Fed rs steps rs') :
    ∀ st ∈ steps, ∃ r ∈ rs, r.state = .prefilling ∧ st.seqId = r.seq.id := by
  induction h with
  | nil => exact fun _ hst => nomatch hst
  | same r _ ih =>
    intro st hst
    obtain ⟨q, hq, hspec⟩ := ih st hst
    exact ⟨q, List.mem_cons_of_mem _ hq, hspec⟩
  | switch _ _ _ ih =>
    intro st hst
    obtain ⟨q, hq, hspec⟩ := ih st hst
    exact ⟨q, List.mem_cons_of_mem _ hq, hspec⟩
  | @feed r _ _ _ _ hstate _ _ _ ih =>
    intro st hst
    rcases List.mem_cons.mp hst with rfl | hst
    · exact ⟨r, List.mem_cons_self, hstate, rfl⟩
    · obtain ⟨q, hq, hspec⟩ := ih st hst
      exact ⟨q, List.mem_cons_of_mem _ hq, hspec⟩

theorem mem_firstDecoding {k id : Nat} {rs : List (RunningSeq F)} (h : id ∈ firstDecoding k rs) :
    ∃ r ∈ rs, decoding r = true ∧ r.seq.id = id := by
  obtain ⟨r, hr, rfl⟩ := List.mem_map.mp h
  have hmem := List.mem_filter.mp (List.mem_of_mem_take hr)
  exact ⟨r, hmem.1, hmem.2, rfl⟩

/-- With room for all of them, all decoding sequences are listed. -/
theorem firstDecoding_all {k : Nat} {rs : List (RunningSeq F)} (hk : rs.countP decoding ≤ k)
    {r : RunningSeq F} (hr : r ∈ rs) (hd : decoding r = true) : r.seq.id ∈ firstDecoding k rs := by
  rw [firstDecoding, List.take_of_length_le (by rwa [← List.countP_eq_length_filter])]
  exact List.mem_map_of_mem (List.mem_filter.mpr ⟨hr, hd⟩)

theorem splits_iff {order : HashOrder} {sch : Schedule} (hn : Numbered s)
    (hleft : PromptsLeft s.running) (h : s.schedule order = .ok (sch, t)) :
    Splits s order sch t ↔ FinishersLast s order := by
  have hbatch := batch_promptsLeft hleft h
  have hafter := hleft.schedule h
  have hids : (t.running.map fun r => r.seq.id).Nodup := (hn.schedule h).running
  obtain ⟨v, blocked, hrun, hc, rfl, rfl⟩ := schedule_built h
  have hfed := buildSchedule_fed v blocked
  have hnd : (v.running.map fun r => r.seq.id).Nodup := by rwa [hfed.ids] at hids
  have hdecode : (v.buildSchedule blocked).1.decode = firstDecoding
      (min (v.running.countP decoding) v.config.maxNumBatchedTokens)
      (fillPrefill v.config (prefillBudget v.config v.running) v.running).2 := rfl
  rw [← hrun] at hbatch
  have hiff := not_early_iff v.config v.running
  rw [FinishersLast, ← hrun, ← hc, ← hiff]
  constructor
  · intro hsplit hearly
    obtain ⟨st, hst, hmem⟩ := early_fed_and_decoded hbatch hearly
    exact hsplit.disjoint st hst hmem
  · intro hearly
    rw [firstDecoding_fillPrefill hbatch hearly] at hdecode
    have hdisjoint : ∀ st ∈ (v.buildSchedule blocked).1.prefill,
        st.seqId ∉ (v.buildSchedule blocked).1.decode := by
      intro st hst hmem
      obtain ⟨r, hr, hstate, hid⟩ := fed_prefilling hfed st hst
      obtain ⟨q, hq, hd, hid'⟩ := mem_firstDecoding (hdecode ▸ hmem)
      have he : r = q := List.inj_on_of_nodup_map hnd hr hq (hid.symm.trans hid'.symm)
      rw [← he, decoding_false.mpr hstate] at hd
      cases hd
    refine ⟨hdisjoint, ?_, ?_⟩
    · intro hroom r hr hd
      rw [← hrun] at hroom hr
      rw [← hc] at hroom
      rw [hdecode]
      exact firstDecoding_all (Nat.le_min.mpr ⟨Nat.le_refl _, hroom⟩) hr hd
    · intro r hr hid hdone
      obtain ⟨st, hst, he⟩ := List.mem_map.mp hid
      refine ⟨?_, he ▸ hdisjoint st hst⟩
      rw [← Bool.not_eq_false, decoding_false]
      intro hstate
      have hpos := hafter r hr hstate
      unfold remaining at hpos
      omega

/-! ## Runs -/

theorem promptsLeft_of_run {config : SchedulerConfig} {pool : KvBlockPool}
    {tr : List (Call F × Scheduler F)} (hrun : Along Performs (.new config pool) tr) :
    ∀ s ∈ visited (.new config pool) tr, PromptsLeft s.running :=
  hrun.invariant (fun _ _ _ hs hstep => hs.perform hstep) fun _ hr => nomatch hr

/-- **Prefill and decode share a step.** In every run of a scheduler's operations, a
schedule keeps its two lists apart and decodes everyone who was decoding exactly when
no sequence that finishes its prompt in the step stands in front of a decoding one. -/
theorem steps_split_iff (config : SchedulerConfig) (pool : KvBlockPool)
    (tr : List (Call F × Scheduler F)) (hrun : Along Performs (.new config pool) tr) :
    ∀ s ∈ visited (.new config pool) tr, ∀ order sch t, s.schedule order = .ok (sch, t) →
      (Splits s order sch t ↔ FinishersLast s order) := by
  intro s hs order sch t h
  exact splits_iff (numbered_of_run hrun s hs) (promptsLeft_of_run hrun s hs) h

/-- The shorter prompt is in front: it decodes while the longer one is finished. -/
theorem steps_split_longBesideShort :
    let s := final perform (.new ⟨4, 5, 64, some 4⟩ (.new 8)) (longBesideShort ++
      [.op (.onStepComplete 1 1), .op (.schedule .listed)])
    (s.schedule .listed).map (fun r => (r.1.prefill.map PrefillStep.seqId, r.1.decode)) =
      .ok ([2], [1]) ∧
    ∀ order sch t, s.schedule order = .ok (sch, t) →
      (Splits s order sch t ↔ FinishersLast s order) :=
  ⟨by decide +kernel, steps_split_iff ⟨4, 5, 64, some 4⟩ (.new 8) _ (along_replay perform _ _) _
    (final_mem_visited perform _ _)⟩

/-- The longer prompt is in front: it takes two steps of four tokens, the shorter one
is done after the first. -/
def shortBehindLong : List (Call Unit) :=
  [.op (.addRequest ⟨0, (List.range 8).map UInt32.ofNat, ⟨2, (), (), 0, []⟩, 0, []⟩),
    .op (.addRequest ⟨0, (List.range 3).map UInt32.ofNat, ⟨2, (), (), 0, []⟩, 0, []⟩),
    .op (.schedule .listed)]

/-- In the second step the longer prompt is finished and decoded as well, and the
sequence that was decoding is not served. -/
theorem finisher_takes_decode_place :
    let s := final perform (.new ⟨4, 16, 64, some 4⟩ (.new 8)) shortBehindLong
    (s.schedule .listed).map (fun r => (r.1.prefill.map PrefillStep.seqId, r.1.decode)) =
      .ok ([1], [1]) ∧
    (batch s .listed).map (fun r => (r.seq.id, r.state)) = [(1, .prefilling), (2, .decoding)] ∧
    ¬ ∀ order sch t, s.schedule order = .ok (sch, t) → Splits s order sch t := by
  have hlists : ((final perform (.new ⟨4, 16, 64, some 4⟩ (.new 8)) shortBehindLong).schedule
      .listed).map (fun r => (r.1.prefill.map PrefillStep.seqId, r.1.decode)) = .ok ([1], [1]) := by
    decide +kernel
  refine ⟨hlists, by decide +kernel, fun hall => ?_⟩
  obtain ⟨⟨sch, t⟩, hs, he⟩ := map_eq_ok.mp hlists
  rw [Prod.mk.injEq] at he
  obtain ⟨st, hst, hid⟩ := List.mem_map.mp (he.1 ▸ List.mem_singleton.mpr rfl)
  refine (hall _ sch t hs).disjoint st hst ?_
  rw [hid, he.2]
  exact List.mem_singleton.mpr rfl

end JustApi.Inference.DecodeShare
