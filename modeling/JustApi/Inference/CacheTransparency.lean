import JustApi.Lib.Run
import JustApi.Inference.HandoffFrame
import JustApi.Inference.StepLists

/-! # What a warm prefix cache changes for a request

Runs in rounds: requests arrive, `schedule` is called, and every listed prefill and
decode is answered with one token. A request generates the tokens it asked for,
whatever the tree holds, as long as the length limit leaves room for them beyond the
restored tokens and its prefill does not use up its tokens; the two runs with a cold
and a warm cache then agree because both give that number. -/
namespace JustApi.Inference.CacheTransparency
open JustApi.Lib.Run JustApi.Lib.Result JustApi.Inference.KvCache JustApi.Inference.RadixCache
open JustApi.Inference.Scheduling JustApi.Inference.Scheduling.Scheduler
open JustApi.Inference.FifoService JustApi.Inference.Handoff

variable {F : Type}

/-- A scheduler with the requests that have arrived so far and the sequences that
`schedule` has removed, as they were then. -/
structure Driven (F : Type) where
  sched : Scheduler F
  arrived : List (NewRequest F)
  removed : List (RunningSeq F)

def Driven.new (s : Scheduler F) : Driven F := ⟨s, [], []⟩

/-- The requests that arrive before a call of `schedule`, and the iteration order the
maps have in it. -/
structure Round (F : Type) where
  arrivals : List (NewRequest F)
  order : HashOrder

def submit (s : Scheduler F) (reqs : List (NewRequest F)) : Scheduler F :=
  reqs.foldl (fun s req => (s.addRequest req).2) s

/-- One turn of the driver. -/
def drive (d : Driven F) (round : Round F) : Except Panic (Driven F) := do
  let s := submit d.sched round.arrivals
  let (sch, t) ← s.schedule round.order
  pure ⟨t.answer (listed sch), d.arrived ++ round.arrivals,
    d.removed ++ s.running.filter (finished s.config)⟩

def Step (d : Driven F) (round : Round F) (d' : Driven F) : Prop := drive d round = .ok d'

/-- What a request must find for its tokens to be counted right: a length limit that
leaves room for them beyond the restored tokens, a prefill that is over when the last
of them comes, and no decoding sequence behind it in the step that ends the prefill
with that last token. -/
structure Unhurried (s : Scheduler F) (order : HashOrder) : Prop where
  fits : ∀ r ∈ s.admittedBy order, 1 ≤ r.params.maxTokens ∧
    r.seq.numTokens + r.params.maxTokens ≤ s.config.maxSeqLen
  prefilled : ∀ r ∈ s.running, r.params.maxTokens ≤ r.numGenerated →
    r.prompt.length ≤ r.numPrefilled
  single : (s.batch order).Pairwise fun r q => r.state = .prefilling →
    r.numGenerated + 1 = r.params.maxTokens → q.state = .prefilling

/-- Every round of the driver meets the condition when its requests have arrived. -/
def Undisturbed (d : Driven F) (round : Round F) : Prop :=
  Unhurried (submit d.sched round.arrivals) round.order

/-! ## The tokens of a sequence are counted up to those it asked for -/

/-- The sequence has tokens left for `n` answers, and the length limit is not reached
before the last of them. -/
structure Paced (limit n : Nat) (r : RunningSeq F) : Prop where
  tokens : r.numGenerated + n ≤ r.params.maxTokens
  within : r.params.maxTokens ≤ limit
  length : r.seq.numTokens + r.params.maxTokens ≤ limit + r.numGenerated ∨
    2 ^ 64 ≤ limit ∧ r.seq.numTokens < limit

theorem Paced.bump {limit n : Nat} {r : RunningSeq F} (h : Paced limit (n + 1) r) :
    Paced limit n (bump r) := by
  obtain ⟨htokens, hwithin, hlength⟩ := h
  have hgen : (Scheduler.bump r).numGenerated ≤ r.numGenerated + 1 := Nat.mod_le _ _
  have hmax : (Scheduler.bump r).params.maxTokens = r.params.maxTokens := rfl
  have hnum : (Scheduler.bump r).seq.numTokens < 2 ^ 64 := Nat.mod_lt _ (by decide)
  have hnum' : (Scheduler.bump r).seq.numTokens ≤ r.seq.numTokens + 1 := Nat.mod_le _ _
  refine ⟨by omega, hwithin, ?_⟩
  by_cases hbig : 2 ^ 64 ≤ limit
  · exact .inr ⟨hbig, by omega⟩
  · -- the counter does not wrap below the limit
    have hexact : (Scheduler.bump r).numGenerated = r.numGenerated + 1 :=
      Nat.mod_eq_of_lt (by omega)
    rcases hlength with hlength | ⟨hb, -⟩
    · exact .inl (by omega)
    · exact absurd hb hbig

theorem Paced.of_passed {limit n : Nat} {r r' : RunningSeq F} (h : Paced limit n r)
    (hp : Passed r r') : Paced limit n r' := by
  obtain ⟨htokens, hwithin, hlength⟩ := h
  exact ⟨by rw [hp.numGenerated, hp.params]; exact htokens, by rw [hp.params]; exact hwithin,
    by rw [hp.numGenerated, hp.params, hp.seq]; exact hlength⟩

/-- A sequence in pace that `schedule` removes has the tokens it asked for. -/
theorem Paced.finished {config : SchedulerConfig} {r : RunningSeq F}
    (h : Paced config.maxSeqLen 0 r) (hf : finished config r = true) :
    r.numGenerated = r.params.maxTokens := by
  obtain ⟨htokens, hwithin, hlength⟩ := h
  simp only [Scheduler.finished, Bool.or_eq_true, decide_eq_true_eq] at hf
  rcases hf with hf | hf
  · omega
  · rcases hlength with hlength | ⟨-, hlt⟩ <;> omega

/-- In the batch of an unhurried step every sequence has tokens left for the answers
it will get. -/
theorem paced_of_batch {s t : Scheduler F} {order : HashOrder} {sch : Schedule} {r : RunningSeq F}
    (hs : s.schedule order = .ok (sch, t)) (hu : Unhurried s order)
    (hnd : ((s.batch order).map fun r => r.seq.id).Nodup)
    (hpaced : ∀ r ∈ s.running, Paced s.config.maxSeqLen 0 r) (hr : r ∈ s.batch order) :
    Paced s.config.maxSeqLen ((listed sch).count r.seq.id) r := by
  -- it may get at least one more token
  have hone : Paced s.config.maxSeqLen 1 r := by
    rcases List.mem_append.mp hr with hr | hr
    · obtain ⟨hr, hnot⟩ := List.mem_filter.mp hr
      have hp := hpaced r hr
      refine ⟨?_, hp.within, hp.length⟩
      simp only [Scheduler.finished, Bool.not_eq_true', Bool.or_eq_false_iff,
        decide_eq_false_iff_not] at hnot
      omega
    · obtain ⟨h1, hfit⟩ := hu.fits r hr
      obtain ⟨_, -, hall, -⟩ := schedule_batch hs
      obtain ⟨req, -, seq, n, -, -, rfl⟩ := became_of_mem hall hr
      exact ⟨by simpa [start] using h1, by omega, .inl (by simpa [start] using hfit)⟩
  refine ⟨?_, hone.within, hone.length⟩
  have htokens := hone.tokens
  obtain ⟨pre, post, hb⟩ := List.append_of_mem hr
  by_cases hlast : r.numGenerated + 1 = r.params.maxTokens
  · have hpost : r.state = .prefilling → ∀ q ∈ post, q.state = .prefilling := by
      intro hstate q hq
      have hpair := hu.single
      rw [hb, List.pairwise_append, List.pairwise_cons] at hpair
      exact hpair.2.1.1 q hq hstate hlast
    have := count_listed_le_one hs hnd hb hpost
    omega
  · have hp := count_prefill_le_one hs hnd r.seq.id
    have hd := count_decode_le_one hs hnd r.seq.id
    rw [listed, List.count_append]
    omega

/-! ## Whole runs -/

theorem submit_frame (s : Scheduler F) (reqs : List (NewRequest F)) :
    (submit s reqs).running = s.running ∧ (submit s reqs).config = s.config := by
  induction reqs generalizing s with
  | nil => exact ⟨rfl, rfl⟩
  | cons req rest ih => exact ih (s.addRequest req).2

theorem numbered_submit {s : Scheduler F} (h : Numbered s) (reqs : List (NewRequest F)) :
    Numbered (submit s reqs) := by
  induction reqs generalizing s with
  | nil => exact h
  | cons req rest ih => exact ih (h.addRequest req)

/-- The requests of a queue and a batch are those that arrived, numbered from `base`
in the order of their arrival. -/
structure Matches (base : Nat) (d : Driven F) : Prop where
  next : d.sched.nextSeqId = base + d.arrived.length
  waiting : ∀ req ∈ d.sched.waitQueue, ∃ i req₀, req.id = base + i ∧ d.arrived[i]? = some req₀ ∧
    req.samplingParams = req₀.samplingParams
  seqs : ∀ r ∈ d.sched.running ++ d.removed, ∃ i req₀, r.seq.id = base + i ∧
    d.arrived[i]? = some req₀ ∧ r.params = req₀.samplingParams

theorem Matches.addRequest {base : Nat} {d : Driven F} (h : Matches base d) (req : NewRequest F) :
    Matches base ⟨(d.sched.addRequest req).2, d.arrived ++ [req], d.removed⟩ := by
  have hold : ∀ {i : Nat} {req₀ : NewRequest F}, d.arrived[i]? = some req₀ →
      (d.arrived ++ [req])[i]? = some req₀ := fun hi =>
    (List.getElem?_append_left (List.getElem?_eq_some_iff.mp hi).1).trans hi
  refine ⟨?_, ?_, ?_⟩
  · simp [Scheduler.addRequest, h.next, Nat.add_assoc]
  · intro req' hreq'
    rcases List.mem_append.mp hreq' with hreq' | hreq'
    · obtain ⟨i, req₀, hid, hi, hp⟩ := h.waiting req' hreq'
      exact ⟨i, req₀, hid, hold hi, hp⟩
    · rw [List.mem_singleton.mp hreq']
      exact ⟨d.arrived.length, req, h.next, by simp, rfl⟩
  · intro r hr
    obtain ⟨i, req₀, hid, hi, hp⟩ := h.seqs r hr
    exact ⟨i, req₀, hid, hold hi, hp⟩

theorem Matches.submit {base : Nat} {d : Driven F} (h : Matches base d)
    (reqs : List (NewRequest F)) :
    Matches base ⟨submit d.sched reqs, d.arrived ++ reqs, d.removed⟩ := by
  induction reqs generalizing d with
  | nil => rwa [List.append_nil]
  | cons req rest ih =>
    have := ih (h.addRequest req)
    rwa [List.append_assoc] at this

/-- What a step leaves of the queue and the batch still matches the arrivals. -/
theorem Matches.schedule {base : Nat} {d : Driven F} {t : Scheduler F} {order : HashOrder}
    {sch : Schedule} (h : Matches base d) (hs : d.sched.schedule order = .ok (sch, t)) :
    Matches base ⟨t.answer (listed sch), d.arrived,
      d.removed ++ d.sched.running.filter (finished d.sched.config)⟩ := by
  obtain ⟨reqs, hq, hall, hfed, -, hn⟩ := schedule_batch hs
  have heq := answer_eq t (listed sch)
  have hfrom : ∀ r ∈ t.running, ∃ i req₀, r.seq.id = base + i ∧ d.arrived[i]? = some req₀ ∧
      r.params = req₀.samplingParams := by
    intro r hr
    obtain ⟨q, hq', hp⟩ := exists_of_passed hfed.passed hr
    rw [hp.seq, hp.params]
    rcases List.mem_append.mp hq' with hq' | hq'
    · exact h.seqs q (List.mem_append_left _ (List.mem_of_mem_filter hq'))
    · obtain ⟨req, hreq, seq, n, hid, -, rfl⟩ := became_of_mem hall hq'
      obtain ⟨i, req₀, hi, hreq₀, hparams⟩ := h.waiting req (hq ▸ List.mem_append_left _ hreq)
      exact ⟨i, req₀, hid.trans hi, hreq₀, hparams⟩
  refine ⟨?_, ?_, ?_⟩
  · rw [heq]
    exact hn.trans h.next
  · rw [heq]
    exact fun req hreq => h.waiting req (hq ▸ List.mem_append_right _ hreq)
  · intro r hr
    rcases List.mem_append.mp hr with hr | hr
    · have hmem : (r.seq.id, r.params) ∈ t.running.map fun r => (r.seq.id, r.params) :=
        answer_map t (listed sch) (g := fun r => (r.seq.id, r.params)) (fun _ _ => rfl) ▸
          List.mem_map_of_mem hr
      obtain ⟨q, hq', he⟩ := List.mem_map.mp hmem
      obtain ⟨hid, hparams⟩ := Prod.mk.inj he
      rw [← hid, ← hparams]
      exact hfrom q hq'
    · rcases List.mem_append.mp hr with hr | hr
      · exact h.seqs r (List.mem_append_right _ hr)
      · exact h.seqs r (List.mem_append_left _ (List.mem_of_mem_filter hr))

/-- The invariant of a driven run: every sequence keeps its pace, and those removed
have the tokens they asked for and their whole prompt. -/
structure OnPace (base : Nat) (d : Driven F) : Prop where
  numbered : Numbered d.sched
  matched : Matches base d
  paced : ∀ r ∈ d.sched.running, Paced d.sched.config.maxSeqLen 0 r
  removed : ∀ r ∈ d.removed, r.numGenerated = r.params.maxTokens ∧
    r.prompt.length ≤ r.numPrefilled

theorem onPace_step {base : Nat} {d d' : Driven F} {round : Round F} (h : OnPace base d)
    (hstep : Step d round d') (hu : Undisturbed d round) : OnPace base d' := by
  obtain ⟨⟨sch, t⟩, hs, he⟩ := bind_eq_ok.mp hstep
  cases he
  obtain ⟨hrun, hconfig⟩ := submit_frame d.sched round.arrivals
  have hnum := numbered_submit h.numbered round.arrivals
  have hpaced : ∀ r ∈ (submit d.sched round.arrivals).running,
      Paced (submit d.sched round.arrivals).config.maxSeqLen 0 r := by
    rw [hrun, hconfig]
    exact h.paced
  have hnumt : Numbered t := hnum.schedule hs
  obtain ⟨hfed, -⟩ := schedule_lists hs
  have hnd := hnumt.running
  obtain ⟨_, -, -, -, hct, -⟩ := schedule_batch hs
  have heq := answer_eq t (listed sch)
  refine ⟨?_, (h.matched.submit round.arrivals).schedule hs, ?_, ?_⟩
  · refine hnumt.shrink ?_ (by rw [heq])
    rw [line, answer_ids, waitingIds, heq]
    exact List.Sublist.refl _
  · have hlimit : (t.answer (listed sch)).config.maxSeqLen =
        (submit d.sched round.arrivals).config.maxSeqLen := by rw [heq, ← hct]
    rw [hlimit]
    refine answer_induction (I := Paced _) (fun n r => Paced.bump) hnd fun r hr => ?_
    obtain ⟨q, hq, hp⟩ := exists_of_passed hfed.passed hr
    rw [hp.seq]
    rw [runningIds, hfed.ids] at hnd
    exact (paced_of_batch hs hu hnd hpaced hq).of_passed hp
  · intro r hr
    rcases List.mem_append.mp hr with hr | hr
    · exact h.removed r hr
    · obtain ⟨hr, hfin⟩ := List.mem_filter.mp hr
      have hgen := (hpaced r hr).finished hfin
      exact ⟨hgen, hu.prefilled r hr (Nat.le_of_eq hgen.symm)⟩

theorem onPace_new {s : Scheduler F} (hrun : s.running = []) (hwait : s.waitQueue = []) :
    OnPace s.nextSeqId (.new s) := by
  have hline : line s = [] := by simp [line, runningIds, waitingIds, hrun, hwait]
  refine ⟨⟨hline ▸ List.nodup_nil, fun id hid => ?_⟩, ⟨rfl, ?_, ?_⟩, ?_, fun r hr => by cases hr⟩
  · rw [show line (Driven.new s).sched = [] from hline] at hid
    cases hid
  · intro req hreq
    rw [show (Driven.new s).sched.waitQueue = [] from hwait] at hreq
    cases hreq
  · intro r hr
    rw [show (Driven.new s).sched.running = [] from hrun] at hr
    cases hr
  · intro r hr
    rw [show (Driven.new s).sched.running = [] from hrun] at hr
    cases hr

/-- Each request that `schedule` has removed in both runs has its whole prompt
computed or restored in both, and has generated the same number of tokens. -/
def SameOutcome (base₁ base₂ : Nat) (d₁ d₂ : Driven F) : Prop :=
  ∀ i, ∀ r₁ ∈ d₁.removed, ∀ r₂ ∈ d₂.removed, r₁.seq.id = base₁ + i → r₂.seq.id = base₂ + i →
    r₁.numGenerated = r₂.numGenerated ∧ r₁.prompt.length ≤ r₁.numPrefilled ∧
      r₂.prompt.length ≤ r₂.numPrefilled

/-- **An unhurried request does not notice the prefix cache.** Take a run from a new
scheduler and one from an idle scheduler with any prefix cache, with the same
requests. When all rounds of both are unhurried, every request that `schedule` has
removed in both has generated the same number of tokens, with its whole prompt
computed or restored. -/
theorem cached_prefix_unnoticed (config : SchedulerConfig) (pool : KvBlockPool)
    (warm : Scheduler F) (hidle : warm.isIdle = true)
    (tr₁ tr₂ : List (Round F × Driven F)) (hrun₁ : Along Step (.new (.new config pool)) tr₁)
    (hrun₂ : Along Step (.new warm) tr₂)
    (hu₁ : Along (fun d round _ => Undisturbed d round) (.new (.new config pool)) tr₁)
    (hu₂ : Along (fun d round _ => Undisturbed d round) (.new warm) tr₂) :
    ∀ d₁ ∈ visited (.new (.new config pool)) tr₁, ∀ d₂ ∈ visited (.new warm) tr₂,
      d₁.arrived = d₂.arrived → SameOutcome 1 warm.nextSeqId d₁ d₂ := by
  have hstep : ∀ base (d : Driven F) round d', OnPace base d →
      Step d round d' ∧ Undisturbed d round → OnPace base d' :=
    fun base d round d' h hs => onPace_step h hs.1 hs.2
  have hidle : warm.running = [] ∧ warm.waitQueue = [] := by
    simpa [Scheduler.isIdle] using hidle
  intro d₁ hd₁ d₂ hd₂ hsame i r₁ hr₁ r₂ hr₂ hid₁ hid₂
  have h₁ := Along.invariant (hstep 1) (onPace_new (s := .new config pool) rfl rfl)
    (hrun₁.and hu₁) d₁ hd₁
  have h₂ := Along.invariant (hstep warm.nextSeqId) (onPace_new hidle.1 hidle.2)
    (hrun₂.and hu₂) d₂ hd₂
  obtain ⟨hg₁, hp₁⟩ := h₁.removed r₁ hr₁
  obtain ⟨hg₂, hp₂⟩ := h₂.removed r₂ hr₂
  refine ⟨?_, hp₁, hp₂⟩
  -- the two sequences belong to the same request
  obtain ⟨i₁, req₁, hi₁, ha₁, hpar₁⟩ := h₁.matched.seqs r₁ (List.mem_append_right _ hr₁)
  obtain ⟨i₂, req₂, hi₂, ha₂, hpar₂⟩ := h₂.matched.seqs r₂ (List.mem_append_right _ hr₂)
  have he₁ : i₁ = i := by omega
  have he₂ : i₂ = i := by omega
  rw [he₁, hsame] at ha₁
  rw [he₂, ha₁] at ha₂
  cases ha₂
  rw [hg₁, hg₂, hpar₁, hpar₂]

instance (d : Driven F) (round : Round F) : Decidable (Undisturbed d round) :=
  decidable_of_iff
    ((∀ r ∈ (submit d.sched round.arrivals).admittedBy round.order, 1 ≤ r.params.maxTokens ∧
        r.seq.numTokens + r.params.maxTokens ≤ (submit d.sched round.arrivals).config.maxSeqLen) ∧
      (∀ r ∈ (submit d.sched round.arrivals).running, r.params.maxTokens ≤ r.numGenerated →
        r.prompt.length ≤ r.numPrefilled) ∧
      ((submit d.sched round.arrivals).batch round.order).Pairwise fun r q =>
        r.state = .prefilling → r.numGenerated + 1 = r.params.maxTokens → q.state = .prefilling)
    ⟨fun h => ⟨h.1, h.2.1, h.2.2⟩, fun h => ⟨h.fits, h.prefilled, h.single⟩⟩

/-- A request for `n` tokens after a prompt that fills one block. -/
def oneBlock (n : Nat) : NewRequest Unit :=
  ⟨0, (List.range 16).map UInt32.ofNat, ⟨n, (), (), 0, []⟩, 0, []⟩

/-- The request arrives, and rounds follow until it is gone. -/
def serve (n rounds : Nat) : List (Round Unit) :=
  ⟨[oneBlock n], .listed⟩ :: List.replicate rounds ⟨[], .listed⟩

/-- A scheduler that has served the prompt before. -/
def warmed (config : SchedulerConfig) : Scheduler Unit :=
  (final drive (.new (.new config (.new 8))) (serve 1 1)).sched

theorem cached_prefix_unnoticed_three_tokens :
    ((final drive (.new (.new .default (.new 8))) (serve 3 3)).removed.map fun r =>
        (r.seq.id, r.seq.numTokens)) = [(1, 3)] ∧
      ((final drive (.new (warmed .default)) (serve 3 3)).removed.map fun r =>
        (r.seq.id, r.seq.numTokens)) = [(2, 19)] ∧
      SameOutcome 1 (warmed .default).nextSeqId
        (final drive (.new (.new .default (.new 8))) (serve 3 3))
        (final drive (.new (warmed .default)) (serve 3 3)) :=
  ⟨by decide +kernel, by decide +kernel,
    cached_prefix_unnoticed .default (.new 8) (warmed .default) (by decide +kernel) _ _
      (along_replay drive _ _) (along_replay drive _ _) (by decide +kernel) (by decide +kernel)
      _ (final_mem_visited drive _ _) _ (final_mem_visited drive _ _) (by decide +kernel)⟩

/-- At most eighteen tokens a sequence, prompts prefilled at once. -/
def shortSequences : SchedulerConfig := ⟨4, 64, 18, none⟩

/-- The prompt comes for twenty tokens. With a cold cache it generates eighteen, as
many as the limit allows; with its prompt in the cache it is removed after two. -/
theorem warm_cache_cuts_tokens :
    ∃ tr₁ tr₂ : List (Round Unit × Driven Unit),
      Along Step (.new (.new shortSequences (.new 8))) tr₁ ∧
      Along Step (.new (warmed shortSequences)) tr₂ ∧
      (warmed shortSequences).config = shortSequences ∧ (warmed shortSequences).isIdle = true ∧
      ∃ d₁ ∈ visited (.new (.new shortSequences (.new 8))) tr₁,
        ∃ d₂ ∈ visited (.new (warmed shortSequences)) tr₂, d₁.arrived = d₂.arrived ∧
          d₁.removed.map (fun r => (r.seq.id, r.numGenerated)) = [(1, 18)] ∧
          d₂.removed.map (fun r => (r.seq.id, r.numGenerated)) = [(2, 2)] ∧
          ¬ SameOutcome 1 (warmed shortSequences).nextSeqId d₁ d₂ := by
  refine ⟨replay drive (.new (.new shortSequences (.new 8))) (serve 20 18),
    replay drive (.new (warmed shortSequences)) (serve 20 2), along_replay drive _ _,
    along_replay drive _ _, by decide +kernel, by decide +kernel,
    _, final_mem_visited drive _ _, _, final_mem_visited drive _ _, by decide +kernel, ?_⟩
  have h₁ : (final drive (.new (.new shortSequences (.new 8))) (serve 20 18)).removed.map
      (fun r => (r.seq.id, r.numGenerated)) = [(1, 18)] := by decide +kernel
  have h₂ : (final drive (.new (warmed shortSequences)) (serve 20 2)).removed.map
      (fun r => (r.seq.id, r.numGenerated)) = [(2, 2)] := by decide +kernel
  refine ⟨h₁, h₂, fun hsame => ?_⟩
  obtain ⟨r₁, hr₁, he₁⟩ := List.mem_map.mp (h₁ ▸ List.mem_singleton_self (1, 18))
  obtain ⟨r₂, hr₂, he₂⟩ := List.mem_map.mp (h₂ ▸ List.mem_singleton_self (2, 2))
  have hnext : (warmed shortSequences).nextSeqId = 2 := by decide +kernel
  simp only [Prod.mk.injEq] at he₁ he₂
  have := (hsame 0 r₁ hr₁ r₂ hr₂ he₁.1 (by rw [hnext]; exact he₂.1)).1
  omega

end JustApi.Inference.CacheTransparency
