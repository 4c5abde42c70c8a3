import JustApi.Inference.ServingFrame
import JustApi.Inference.SpecLossless

/-! # Batched requests against requests alone

At temperature zero a request decoded alone is sent the greedy continuation of its
prompt. The loop keeps a context per sequence instead, and the token of the prefill
step is not appended to it, so the first decode step computes that token again: what a
request is sent is its first token and then its continuation. -/
namespace JustApi.Inference.BatchOutputs
open JustApi.Lib.Run JustApi.Lib.Result
open JustApi.Inference.KvCache JustApi.Inference.RadixCache JustApi.Inference.LanguageModel
open JustApi.Inference.Scheduling hiding exec
open JustApi.Inference.Scheduling.Scheduler
open JustApi.Inference.FifoService (line waitingIds exec_keepsOrder)
open JustApi.Inference.Serving JustApi.Inference.Serving.SchedulerEngine
open JustApi.Inference.SpecDecode (Floating)
open JustApi.Inference.SpecLossless (greedy)
open Function (update)

/-! ## Continuations -/

section Continuations

variable (next : List Token → Token) (stop context prompt : List Token)

/-- The next `n` greedy tokens, whatever the stop tokens. -/
def continuation (n : Nat) : List Token := (greedy next [] n context).1

/-- What the loop sends first: the first token, then the continuation from its start. -/
def streamed : Nat → List Token
  | 0 => []
  | n + 1 => next prompt :: continuation next prompt n

/-- The context the loop keeps when so many tokens are out. -/
def keptContext : Nat → Option (List Token)
  | 0 => none
  | n + 1 => some (prompt ++ continuation next prompt n)

@[simp] theorem continuation_zero : continuation next context 0 = [] := rfl

theorem continuation_cons (n : Nat) : continuation next context (n + 1) =
    next context :: continuation next (context ++ [next context]) n := by
  simp [continuation, greedy]

theorem continuation_succ (n : Nat) : continuation next context (n + 1) =
    continuation next context n ++ [next (context ++ continuation next context n)] := by
  induction n generalizing context with
  | zero => simp [continuation_cons]
  | succ n ih =>
    rw [continuation_cons, ih, continuation_cons next context n]
    simp

theorem length_continuation (n : Nat) : (continuation next context n).length = n := by
  induction n with
  | zero => rfl
  | succ n ih => rw [continuation_succ, List.length_append, ih, List.length_singleton]

theorem length_streamed (n : Nat) : (streamed next prompt n).length = n := by
  cases n with
  | zero => rfl
  | succ n => rw [streamed, List.length_cons, length_continuation]

/-- One more token is out. -/
theorem streamed_succ (n : Nat) : streamed next prompt (n + 1) =
    streamed next prompt n ++ [next (prompt ++ continuation next prompt (n - 1))] := by
  cases n with
  | zero => simp [streamed]
  | succ n => rw [streamed, streamed, continuation_succ, Nat.add_sub_cancel, List.cons_append]

variable {next stop context prompt}

/-- Without stop tokens among them, the greedy tokens are the continuation. -/
theorem greedy_of_no_stop {n : Nat} (h : ∀ t ∈ continuation next context n, t ∉ stop) :
    (greedy next stop n context).1 = continuation next context n := by
  induction n generalizing context with
  | zero => rfl
  | succ n ih =>
    rw [continuation_cons] at h ⊢
    simp only [greedy]
    rw [if_neg (h _ List.mem_cons_self), ih fun t ht => h t (List.mem_cons_of_mem _ ht)]

/-- As many greedy tokens as were asked for are the continuation. -/
theorem greedy_of_length {n : Nat} (h : (greedy next stop n context).1.length = n) :
    (greedy next stop n context).1 = continuation next context n := by
  induction n generalizing context with
  | zero => rfl
  | succ n ih =>
    rw [continuation_cons]
    simp only [greedy] at h ⊢
    split at h
    · rename_i hstop
      obtain rfl : n = 0 := by simpa using h.symm
      rw [if_pos hstop]
      rfl
    · rename_i hstop
      rw [if_neg hstop, ih (by simpa using h)]

theorem eq_replicate_of_shift {α : Type} {a x : α} {l : List α} (h : a :: l = l ++ [x]) :
    l = List.replicate l.length a := by
  induction l with
  | nil => rfl
  | cons b l ih =>
    obtain ⟨rfl, h⟩ := List.cons.inj h
    rw [List.length_cons, List.replicate_succ, ← ih h]

/-- The loop sends what decoding alone gives exactly when one token is asked for at
most, or the continuation repeats one token that is no stop token. -/
theorem streamed_eq_greedy_iff (m : Nat) : streamed next prompt m = (greedy next stop m prompt).1 ↔
    m ≤ 1 ∨ ∃ t ∉ stop, continuation next prompt m = List.replicate m t := by
  match m with
  | 0 => exact iff_of_true rfl (.inl (Nat.zero_le _))
  | 1 =>
    refine iff_of_true ?_ (.inl (Nat.le_refl _))
    simp only [greedy]
    split <;> rfl
  | n + 2 =>
    rw [or_iff_right (by omega)]
    constructor
    · intro h
      have hfull := greedy_of_length (h ▸ length_streamed next prompt (n + 2))
      have hshift : next prompt :: continuation next prompt (n + 1) =
          continuation next prompt (n + 1) ++
            [next (prompt ++ continuation next prompt (n + 1))] := by
        rw [← continuation_succ, ← hfull, ← h]
        rfl
      refine ⟨next prompt, fun hstop => ?_, ?_⟩
      · have hone : (greedy next stop (n + 2) prompt).1 = [next prompt] := by
          simp only [greedy]
          rw [if_pos hstop]
        have := length_streamed next prompt (n + 2)
        rw [h, hone, List.length_singleton] at this
        omega
      · rw [continuation_succ, ← hshift, eq_replicate_of_shift hshift, length_continuation]
        rfl
    · rintro ⟨t, ht, hall⟩
      rw [greedy_of_no_stop fun x hx => by rw [hall] at hx; rwa [List.eq_of_mem_replicate hx], hall]
      rw [continuation_succ, List.replicate_succ'] at hall
      have hn := List.append_inj_left' hall rfl
      have hfirst : next prompt = t := by
        rw [continuation_cons, List.replicate_succ] at hn
        exact (List.cons.inj hn).1
      rw [streamed, hn, hfirst]
      rfl

end Continuations

/-! ## Between two entries -/

section Between

variable {F : Type}

/-- The loop is not in the middle of an entry. -/
def Between (l : Loop F) : Prop :=
  ∀ before sch item phase rest, l = .entry before sch item phase rest → phase = .params

theorem between_nextEntry (before : List Nat) (sch : Schedule) (items : List Item) :
    Between (nextEntry (F := F) before sch items) := by
  intro _ _ _ _ _ h
  cases items <;> cases h
  rfl

theorem between_startEntries (before : List Nat) (sch : Schedule) :
    Between (startEntries (F := F) before sch) := by
  unfold startEntries
  split
  · exact fun _ _ _ _ _ h => nomatch h
  · exact between_nextEntry _ _ _

end Between

/-! ## Runs -/

section Runs

variable {F : Type} [Floating F]

/-- The model answers every context. -/
def Total (model : Model F) : Prop := ∀ context, ∃ logits, model.forwardLogits context = .ok logits

/-- Effectively temperature zero. -/
def Cold (params : SamplingParams F) : Prop :=
  Floating.le params.temperature 1.1920929e-7 = true

/-- The token greedy decoding takes after a context; 0 where the model fails. -/
def nextToken (model : Model F) (context : List Token) : Token :=
  match model.forwardLogits context with
  | .ok logits => argmax logits
  | .error _ => 0

/-- A call that names a total model at temperature zero, its limit a `usize`. -/
def AsksGreedily : Move F → Prop
  | .generate registry modelName _ params =>
    (∀ model, registry modelName = some model → Total model) ∧ Cold params ∧
      params.maxTokens < 2 ^ 64
  | .register _ => True
  | .loop _ _ => True

/-- The ids of the tokens sent, the final one apart. -/
def delivered (e : SchedulerEngine F) (id : Nat) : List Token :=
  ((e.streams id).filter fun x => x.finishReason.isNone).map GeneratedToken.id

/-- The loop is about to call `schedule`. -/
def scheduling : Loop F → Bool
  | .schedule _ => true
  | _ => false

/-- The loop is about to start on an entry. -/
def starting : Loop F → Option (Schedule × Item)
  | .entry _ sch item .params _ => some (sch, item)
  | _ => none

/-- What the entry needs of the context: a prefill step carries the whole prompt and is
the first, a decode step has a context to go on from. -/
def Prepared (e : SchedulerEngine F) (c : Call F) : Item → Prop
  | .prefill step => step.tokens = c.prompt ∧ e.seqContext step.seqId = none
  | .decode seqId => e.seqContext seqId ≠ none

/-- The entry is worked on as if its request were alone: the call has returned, the
schedule lists the sequence no more often than it has tokens left, and the context is as
needed. -/
def Ready (e : SchedulerEngine F) (sch : Schedule) (item : Item) : Prop :=
  ∃ c ∈ e.calls item.seqId, c.todo = [] ∧
    (∀ n ∈ e.scheduler.runningSeqGenerated item.seqId,
      n + (listed sch).count item.seqId ≤ c.params.maxTokens) ∧ Prepared e c item

/-- Sequences leave only by their own token limit, and every entry is ready when the
loop starts on it. -/
def Undisturbed (e : SchedulerEngine F) : Move F → Prop
  | .loop _ _ =>
    (scheduling e.loop = true → ∀ r ∈ e.scheduler.running,
      finished e.scheduler.config r = true → r.params.maxTokens ≤ r.numGenerated) ∧
    ∀ x ∈ starting e.loop, Ready e x.1 x.2
  | .generate _ _ _ _ => True
  | .register _ => True

/-! ## Where a request stands -/

/-- So many tokens of the request are out, and none is on its way. -/
structure Steady (e : SchedulerEngine F) (id : Nat) (c : Call F) (n : Nat) : Prop where
  out : delivered e id = streamed (nextToken c.model) c.prompt n
  context : e.seqContext id = keptContext (nextToken c.model) c.prompt n

/-- The first token comes from the prefill step, the others from decode steps. -/
def Yields (c : Call F) (n : Nat) : Item → Prop
  | .prefill step => step.tokens = c.prompt ∧ n = 0
  | .decode _ => 0 < n

/-- The loop has begun to work on an entry that was ready. -/
structure Begun (e : SchedulerEngine F) (sch : Schedule) (item : Item) (c : Call F) (n : Nat) :
    Prop where
  returned : c.todo = []
  room : ∀ k ∈ e.scheduler.runningSeqGenerated item.seqId,
    k + (listed sch).count item.seqId ≤ c.params.maxTokens
  kind : Yields c n item
  out : delivered e item.seqId = streamed (nextToken c.model) c.prompt n

/-- The context the next token is computed from. -/
def source (c : Call F) (n : Nat) : List Token :=
  c.prompt ++ continuation (nextToken c.model) c.prompt (n - 1)

/-- What holds of the entry at work, phase by phase. -/
def At (e : SchedulerEngine F) (sch : Schedule) (item : Item) (c : Call F) (n : Nat) :
    Phase F → Prop
  | .params => Steady e item.seqId c n
  | .model params => Begun e sch item c n ∧ Cold params ∧
      e.seqContext item.seqId = keptContext (nextToken c.model) c.prompt n
  | .extend params model tokens => Begun e sch item c n ∧ Cold params ∧ model = c.model ∧
      tokens = c.prompt ∧ n = 0 ∧ e.seqContext item.seqId = none
  | .context params model => Begun e sch item c n ∧ Cold params ∧ model = c.model ∧
      e.seqContext item.seqId = some (source c n)
  | .push token => Begun e sch item c n ∧ token = nextToken c.model (source c n) ∧ 0 < n ∧
      e.seqContext item.seqId = some (source c n)
  | .limit token => Begun e sch item c n ∧ token = nextToken c.model (source c n) ∧
      e.seqContext item.seqId = keptContext (nextToken c.model) c.prompt (n + 1)
  | .generated token max => Begun e sch item c n ∧ token = nextToken c.model (source c n) ∧
      e.seqContext item.seqId = keptContext (nextToken c.model) c.prompt (n + 1) ∧
      max = c.params.maxTokens
  | .deliver token done => Begun e sch item c n ∧ token = nextToken c.model (source c n) ∧
      e.seqContext item.seqId = keptContext (nextToken c.model) c.prompt (n + 1) ∧ done = false

/-- Where the request stands, at work or not. -/
def Stands (e : SchedulerEngine F) (id : Nat) (c : Call F) (n : Nat) : Prop :=
  match e.loop with
  | .entry _ sch item phase _ => if item.seqId = id then At e sch item c n phase else Steady e id c n
  | _ => Steady e id c n

/-- The answers the scheduler will get for the sequence in this iteration. -/
def answers : Loop F → Nat → Nat
  | .entry _ sch _ _ _, id => (listed sch).count id
  | .notify _ sch, id => (listed sch).count id
  | _, _ => 0

/-- The entries of the sequence that are not done. -/
def due (l : Loop F) (id : Nat) : Nat := (l.entries.map Item.seqId).count id

/-- No answers are on their way and no entries left. -/
structure Idle (l : Loop F) : Prop where
  entries : l.entries = []
  answers : ∀ id, answers l id = 0

/-- Every request is sent its stream token by token, and the scheduler counts them. -/
structure OnCourse (e : SchedulerEngine F) : Prop where
  asked : ∀ id c, e.calls id = some c → Total c.model ∧ Cold c.params ∧ c.params.maxTokens < 2 ^ 64
  waiting : ∀ id ∈ waitingIds e.scheduler, ∀ c, e.calls id = some c → Steady e id c 0
  running : ∀ r ∈ e.scheduler.running, ∀ c, e.calls r.seq.id = some c → ∃ n ≤ c.params.maxTokens,
    r.numGenerated + answers e.loop r.seq.id = n + due e.loop r.seq.id ∧ Stands e r.seq.id c n
  gone : ∀ id c, e.calls id = some c → id ∉ line e.scheduler →
    delivered e id = streamed (nextToken c.model) c.prompt c.params.maxTokens
  bounded : ∀ id, due e.loop id ≤ answers e.loop id

theorem onCourse_fresh (config : SchedulerConfig) (numBlocks : Nat) :
    OnCourse (F := F) (fresh config numBlocks) :=
  ⟨fun _ _ h => (nomatch h), fun _ h => (nomatch h), fun _ h => (nomatch h),
    fun _ _ h => (nomatch h), fun _ => Nat.le_refl _⟩

section Counts

omit [Floating F]

/-- The count of a running sequence, told by its id. -/
theorem runningSeqGenerated_eq {s : Scheduler F} {r : RunningSeq F}
    (hn : JustApi.Inference.Handoff.Numbered s) (hr : r ∈ s.running) :
    s.runningSeqGenerated r.seq.id = some r.numGenerated := by
  unfold runningSeqGenerated
  cases hf : s.running.find? fun q => q.seq.id == r.seq.id with
  | none => exact absurd (List.find?_eq_none.mp hf r hr) (by simp)
  | some q =>
    have hid : q.seq.id = r.seq.id := by simpa using List.find?_some hf
    rw [hn.eq_of_id (List.mem_of_find?_eq_some hf) hr hid]
    rfl

theorem Idle.due {l : Loop F} (h : Idle l) (id : Nat) : due l id = 0 := by
  rw [BatchOutputs.due, h.entries]
  rfl

theorem Idle.between {l : Loop F} (h : Idle l) : Between l := by
  rintro before sch item phase rest rfl
  exact absurd h.entries (List.cons_ne_nil _ _)

theorem idle_nextGone (rest : List Nat) : Idle (nextGone (F := F) rest) := by
  cases rest <;> exact ⟨rfl, fun _ => rfl⟩

theorem answers_nextEntry (before : List Nat) (sch : Schedule) (items : List Item) (id : Nat) :
    answers (nextEntry (F := F) before sch items) id = (listed sch).count id := by
  cases items <;> rfl

theorem answers_startEntries (before : List Nat) (sch : Schedule) (id : Nat) :
    answers (startEntries (F := F) before sch) id = (listed sch).count id := by
  unfold startEntries
  split
  · rename_i hempty
    rw [Bool.and_eq_true, List.isEmpty_iff, List.isEmpty_iff] at hempty
    simp [answers, listed, hempty.1, hempty.2]
  · exact answers_nextEntry _ _ _ _

end Counts

/-! ## The work on an entry -/

section Work

variable {e e' : SchedulerEngine F} {draw : Draw F} {before : List Nat} {sch : Schedule}
  {item : Item} {rest : List Item} {phase : Phase F} {c : Call F} {n : Nat}

theorem keptContext_of_pos {next : List Token → Token} {prompt : List Token} (hn : 0 < n) :
    keptContext next prompt n = some (prompt ++ continuation next prompt (n - 1)) := by
  cases n with
  | zero => exact absurd hn (Nat.lt_irrefl 0)
  | succ n => rfl

/-- The context is never ahead of the stream by more than the token on its way. -/
theorem source_succ (hn : 0 < n) : source c n ++ [nextToken c.model (source c n)] =
    c.prompt ++ continuation (nextToken c.model) c.prompt n := by
  obtain ⟨k, rfl⟩ := Nat.exists_eq_add_of_lt hn
  rw [Nat.zero_add, source, Nat.add_sub_cancel, continuation_succ, List.append_assoc]

theorem nextToken_of_ok {model : Model F} {context : List Token} {logits : List F}
    (h : model.forwardLogits context = .ok logits) : nextToken model context = argmax logits := by
  unfold nextToken
  rw [h]

theorem sample_cold {params : SamplingParams F} (h : Cold params) (logits : List F) :
    sampleTokenWithParams logits params draw = argmax logits := by
  unfold sampleTokenWithParams
  exact if_pos h

theorem Begun.moved (h : Begun e sch item c n) (hs : e'.scheduler = e.scheduler)
    (hst : e'.streams = e.streams) : Begun e' sch item c n where
  returned := h.returned
  room := hs ▸ h.room
  kind := h.kind
  out := by
    rw [delivered, hst]
    exact h.out

/-- An entry that is ready begins. -/
theorem Ready.begun (h : Ready e sch item) (hcall : e.calls item.seqId = some c)
    (hs : Steady e item.seqId c n) : Begun e sch item c n := by
  obtain ⟨d, hd, hret, hroom, hkind⟩ := h
  obtain rfl : c = d := Option.some.inj (hcall.symm.trans hd)
  refine ⟨hret, hroom, ?_, hs.out⟩
  have hctx := hs.context
  cases item with
  | prefill step =>
    refine ⟨hkind.1, ?_⟩
    cases n with
    | zero => rfl
    | succ n => cases hkind.2.symm.trans hctx
  | decode seqId =>
    cases n with
    | zero => exact absurd hctx hkind
    | succ n => exact Nat.succ_pos n

/-- One locked step of the work on an entry leads to the next phase, or sends the next
token of the stream. -/
theorem work_stands (draw : Draw F) (before : List Nat) (rest : List Item)
    (hw : ∀ t ∉ c.todo, e.Has item.seqId c t) (htot : Total c.model)
    (hcold : Cold c.params) (hcount : 0 < (listed sch).count item.seqId)
    (hbegun : phase = .params → Begun e sch item c n) (hat : At e sch item c n phase) :
    (∃ phase', (e.work draw before sch item rest phase).loop = .entry before sch item phase' rest ∧
      At (e.work draw before sch item rest phase) sch item c n phase') ∨
    ((e.work draw before sch item rest phase).loop = nextEntry before sch rest ∧
      Begun e sch item c n ∧
      Steady (e.work draw before sch item rest phase) item.seqId c (n + 1)) := by
  cases phase with
  | params =>
    have hb := hbegun rfl
    have hparams : e.seqParams item.seqId = some c.params :=
      hw .params (by rw [hb.returned]; exact List.not_mem_nil)
    refine .inl ⟨_, rfl, hb.moved rfl rfl, ?_, hat.context⟩
    rw [hparams]
    exact hcold
  | model params =>
    obtain ⟨hb, hp, hctx⟩ := hat
    have hmodel : e.seqModel item.seqId = some c.model :=
      hw .model (by rw [hb.returned]; exact List.not_mem_nil)
    have hkind := hb.kind
    simp only [work, hmodel]
    cases item with
    | prefill step =>
      obtain ⟨htok, rfl⟩ := hkind
      exact .inl ⟨_, rfl, hb.moved rfl rfl, hp, rfl, htok, rfl, hctx⟩
    | decode seqId =>
      exact .inl ⟨_, rfl, hb.moved rfl rfl, hp, rfl, hctx.trans (keptContext_of_pos hkind)⟩
  | extend params model tokens =>
    obtain ⟨hb, hp, hm, rfl, rfl, hctx⟩ := hat
    refine .inl ⟨_, rfl, hb.moved rfl rfl, hp, hm, ?_⟩
    simp [work, hctx, source]
  | context params model =>
    obtain ⟨hb, hp, rfl, hctx⟩ := hat
    obtain ⟨logits, hlog⟩ := htot (source c n)
    have hkind := hb.kind
    simp only [work, hctx, hlog, sample_cold hp]
    cases item with
    | prefill step =>
      obtain ⟨-, rfl⟩ := hkind
      exact .inl ⟨_, rfl, hb.moved rfl rfl, (nextToken_of_ok hlog).symm, hctx⟩
    | decode seqId =>
      exact .inl ⟨_, rfl, hb.moved rfl rfl, (nextToken_of_ok hlog).symm, hkind, hctx⟩
  | push token =>
    obtain ⟨hb, rfl, hn, hctx⟩ := hat
    refine .inl ⟨_, rfl, hb.moved rfl rfl, rfl, ?_⟩
    simp only [work, hctx, Function.update_self, Option.map_some, source_succ hn]
    rfl
  | limit token =>
    obtain ⟨hb, htok, hctx⟩ := hat
    have hmax : e.seqMaxTokens item.seqId = some c.params.maxTokens :=
      hw .maxTokens (by rw [hb.returned]; exact List.not_mem_nil)
    refine .inl ⟨_, rfl, hb.moved rfl rfl, htok, hctx, ?_⟩
    rw [hmax]
    rfl
  | generated token max =>
    obtain ⟨hb, htok, hctx, rfl⟩ := hat
    refine .inl ⟨_, rfl, hb.moved rfl rfl, htok, hctx, ?_⟩
    cases hk : e.scheduler.runningSeqGenerated item.seqId with
    | none => rfl
    | some k =>
      have := hb.room k hk
      exact decide_eq_false (by omega)
  | deliver token done =>
    obtain ⟨hb, rfl, hctx, rfl⟩ := hat
    have hsend : e.senders item.seqId = some () :=
      hw .senders (by rw [hb.returned]; exact List.not_mem_nil)
    refine .inr ⟨rfl, hb, ?_, ?_⟩
    · show ((e.deliver item.seqId (stepToken _ false)).streams item.seqId |>.filter _).map _ = _
      rw [deliver_streams, if_neg (by rw [hsend]; exact fun h => by cases h), Function.update_self,
        List.filter_append, List.map_append, streamed_succ, ← hb.out]
      rfl
    · simpa [work] using hctx

end Work

/-! ## What does not show in where a request stands -/

section Frame

variable {e e' : SchedulerEngine F} {id n : Nat} {c : Call F}

theorem Steady.congr (h : Steady e id c n) (hst : delivered e' id = delivered e id)
    (hctx : e'.seqContext id = e.seqContext id) : Steady e' id c n :=
  ⟨hst.trans h.out, hctx.trans h.context⟩

theorem At.congr {sch : Schedule} {item : Item} {phase : Phase F} (h : At e sch item c n phase)
    (hk : e'.scheduler.runningSeqGenerated item.seqId =
      e.scheduler.runningSeqGenerated item.seqId)
    (hst : delivered e' item.seqId = delivered e item.seqId)
    (hctx : e'.seqContext item.seqId = e.seqContext item.seqId) : At e' sch item c n phase := by
  have hb : Begun e sch item c n → Begun e' sch item c n := fun hb =>
    ⟨hb.returned, hk ▸ hb.room, hb.kind, hst.trans hb.out⟩
  cases phase with
  | params => exact Steady.congr h hst hctx
  | model params =>
    obtain ⟨h1, h2, h3⟩ := h
    exact ⟨hb h1, h2, hctx.trans h3⟩
  | extend params model tokens =>
    obtain ⟨h1, h2, h3, h4, h5, h6⟩ := h
    exact ⟨hb h1, h2, h3, h4, h5, hctx.trans h6⟩
  | context params model =>
    obtain ⟨h1, h2, h3, h4⟩ := h
    exact ⟨hb h1, h2, h3, hctx.trans h4⟩
  | push token =>
    obtain ⟨h1, h2, h3, h4⟩ := h
    exact ⟨hb h1, h2, h3, hctx.trans h4⟩
  | limit token =>
    obtain ⟨h1, h2, h3⟩ := h
    exact ⟨hb h1, h2, hctx.trans h3⟩
  | generated token max =>
    obtain ⟨h1, h2, h3, h4⟩ := h
    exact ⟨hb h1, h2, hctx.trans h3, h4⟩
  | deliver token done =>
    obtain ⟨h1, h2, h3, h4⟩ := h
    exact ⟨hb h1, h2, hctx.trans h3, h4⟩

theorem Stands.congr (h : Stands e id c n) (hl : e'.loop = e.loop)
    (hk : ∀ id, e'.scheduler.runningSeqGenerated id = e.scheduler.runningSeqGenerated id)
    (hst : delivered e' id = delivered e id) (hctx : e'.seqContext id = e.seqContext id) :
    Stands e' id c n := by
  unfold Stands at h ⊢
  rw [hl]
  split at h
  · split at h
    · rename_i heq
      rw [if_pos heq]
      subst heq
      exact At.congr h (hk _) hst hctx
    · rename_i hne
      rw [if_neg hne]
      exact h.congr hst hctx
  · exact h.congr hst hctx

/-- A call that has still to write something is not being worked on. -/
theorem Stands.goOn (h : Stands e id c n) (hc : c.todo ≠ []) (todo : List Table) :
    Stands e id { c with todo := todo } n := by
  unfold Stands at h ⊢
  split
  · split
    · rename_i before sch item phase rest hl hid
      rw [hl] at h
      dsimp only at h
      rw [if_pos hid] at h
      cases phase with
      | params => exact ⟨h.out, h.context⟩
      | _ => exact absurd h.1.returned hc
    · rename_i before sch item phase rest hl hid
      rw [hl] at h
      dsimp only at h
      rw [if_neg hid] at h
      exact ⟨h.out, h.context⟩
  · rename_i hno
    split at h
    · rename_i hl
      exact absurd hl (hno _ _ _ _ _)
    · exact ⟨h.out, h.context⟩

theorem stands_iff (hl : Between e.loop) : Stands e id c n ↔ Steady e id c n := by
  unfold Stands
  split
  · rename_i before sch item phase rest heq
    obtain rfl := hl _ _ _ _ _ heq
    split
    · rename_i hid
      subst hid
      exact Iff.rfl
    · exact Iff.rfl
  · exact Iff.rfl

end Frame

/-! ## Every move keeps the course -/

namespace OnCourse

variable {e e' : SchedulerEngine F}

theorem generate {registry : Registry F} {modelName : String} {prompt : List Token}
    {params : SamplingParams F} (h : OnCourse e) (hc : Consistent e)
    (hm : AsksGreedily (.generate registry modelName prompt params))
    (hx : e.generate registry modelName prompt params = .ok e') : OnCourse e' := by
  obtain ⟨model, hmodel, rfl⟩ := generate_ok hx
  have hold : ∀ {id c}, id ≠ e.scheduler.nextSeqId →
      update e.calls e.scheduler.nextSeqId (some ⟨model, prompt, params, inserts⟩) id = some c →
      e.calls id = some c := by
    intro id c hn hcall
    rwa [Function.update_of_ne hn] at hcall
  refine ⟨fun id c hcall => ?_, fun id hid c hcall => ?_, fun r hr c hcall => ?_,
    fun id c hcall hid => ?_, h.bounded⟩
  · by_cases hn : id = e.scheduler.nextSeqId
    · dsimp only at hcall
      rw [hn, Function.update_self] at hcall
      cases hcall
      exact ⟨hm.1 model hmodel, hm.2.1, hm.2.2⟩
    · exact h.asked id c (hold hn hcall)
  · by_cases hn : id = e.scheduler.nextSeqId
    · subst hn
      obtain ⟨hstream, hnone⟩ := hc.unknown _ hc.booked.unissued
      refine ⟨?_, not_not.mp (hnone .context)⟩
      simp [delivered, hstream, streamed]
    · refine (h.waiting id ?_ c (hold hn hcall)).congr rfl rfl
      rw [waitingIds, addRequest, List.map_append] at hid
      exact (List.mem_append.mp hid).resolve_right (by simpa using hn)
  · have hn := Nat.ne_of_lt (hc.booked.numbered.running_lt hr)
    obtain ⟨n, hle, hcnt, hst⟩ := h.running r hr c (hold hn hcall)
    exact ⟨n, hle, hcnt, hst.congr rfl (fun _ => rfl) rfl rfl⟩
  · rw [line_addRequest] at hid
    obtain ⟨hid, hn⟩ := not_or.mp (List.mem_append.not.mp hid)
    exact h.gone id c (hold (by simpa using hn) hcall) hid

theorem register {seqId : Nat} (h : OnCourse e) (hx : exec e (.register seqId) = .ok e') :
    OnCourse e' := by
  obtain ⟨c, t, todo, hcall, htodo, rfl⟩ := register_ok hx
  have hopen : c.todo ≠ [] := by
    rw [htodo]
    exact List.cons_ne_nil _ _
  -- a call is what it was but for the tables it has still to write
  have hback : ∀ {id d}, update e.calls seqId (some { c with todo := todo }) id = some d →
      (id = seqId ∧ d = { c with todo := todo }) ∨ e.calls id = some d := by
    intro id d hd
    by_cases hn : id = seqId
    · rw [hn, Function.update_self] at hd
      exact .inl ⟨hn, (Option.some.inj hd).symm⟩
    · rw [Function.update_of_ne hn] at hd
      exact .inr hd
  have hsame : ∀ id, delivered { e.insert seqId c t with
      calls := update e.calls seqId (some { c with todo := todo }) } id = delivered e id := by
    intro id
    simp [delivered]
  refine ⟨fun id d hd => ?_, fun id hid d hd => ?_, fun r hr d hd => ?_, fun id d hd hid => ?_, ?_⟩
  · rcases hback hd with ⟨rfl, rfl⟩ | hd
    · exact h.asked _ c hcall
    · exact h.asked id d hd
  · simp only [insert_frame] at hid
    have hs : ∀ {b}, e.calls id = some b → Steady _ id b 0 := fun hb =>
      (h.waiting id hid _ hb).congr (hsame id) (by simp)
    rcases hback hd with ⟨rfl, rfl⟩ | hd
    · exact ⟨(hs hcall).out, (hs hcall).context⟩
    · exact hs hd
  · simp only [insert_frame] at hr ⊢
    have hs : ∀ {b n}, Stands e r.seq.id b n → Stands _ r.seq.id b n := fun hb =>
      hb.congr (by simp) (fun _ => by simp) (hsame r.seq.id) (by simp)
    rcases hback hd with ⟨hid, rfl⟩ | hd
    · obtain ⟨n, hle, hcnt, hst⟩ := h.running r hr c (hid ▸ hcall)
      refine ⟨n, hle, hcnt, ?_⟩
      have := hs (hst.goOn hopen todo)
      simpa only [insert_frame] using this
    · obtain ⟨n, hle, hcnt, hst⟩ := h.running r hr d hd
      refine ⟨n, hle, hcnt, ?_⟩
      have := hs hst
      simpa only [insert_frame] using this
  · simp only [insert_frame] at hid
    rw [hsame]
    rcases hback hd with ⟨rfl, rfl⟩ | hd
    · exact h.gone _ c hcall hid
    · exact h.gone id d hd hid
  · simp only [insert_frame]
    exact h.bounded

/-- A step that neither lists nor answers anything. -/
theorem idle (h : OnCourse e) (hs : e'.scheduler = e.scheduler) (hcalls : e'.calls = e.calls)
    (hst : ∀ id, delivered e' id = delivered e id)
    (hctx : ∀ id ∈ line e.scheduler, e'.seqContext id = e.seqContext id)
    (hl : Idle e.loop) (hl' : Idle e'.loop) : OnCourse e' := by
  refine ⟨?_, fun id hid c hcall => ?_, fun r hr c hcall => ?_, fun id c hcall hid => ?_,
    fun id => ?_⟩
  · rw [hcalls]
    exact h.asked
  · rw [hs] at hid
    rw [hcalls] at hcall
    exact (h.waiting id hid c hcall).congr (hst id) (hctx id (List.mem_append_right _ hid))
  · rw [hs] at hr
    rw [hcalls] at hcall
    obtain ⟨n, hle, hcnt, hstands⟩ := h.running r hr c hcall
    rw [stands_iff hl.between] at hstands
    refine ⟨n, hle, ?_, (stands_iff hl'.between).mpr (hstands.congr (hst _) (hctx _ ?_))⟩
    · rw [hl.answers, hl.due] at hcnt
      rw [hl'.answers, hl'.due]
      exact hcnt
    · exact List.mem_append_left _ (List.mem_map_of_mem hr)
  · rw [hs] at hid
    rw [hcalls] at hcall
    rw [hst]
    exact h.gone id c hcall hid
  · rw [hl'.due]
    exact Nat.zero_le _

theorem schedule {before : List Nat} {order : HashOrder} {sch : Schedule} {t : Scheduler F}
    (h : OnCourse e) (hc : Consistent e) (hl : e.loop = .schedule before)
    (hleave : ∀ r ∈ e.scheduler.running, finished e.scheduler.config r = true →
      r.params.maxTokens ≤ r.numGenerated)
    (hs : e.scheduler.schedule order = .ok (sch, t)) :
    OnCourse { e with scheduler := t, loop := startEntries before sch } := by
  have hidle : Idle e.loop := by
    rw [hl]
    exact ⟨rfl, fun _ => rfl⟩
  obtain ⟨-, hleft, hwait⟩ := schedule_line hs
  have hstart : ∀ id, answers (startEntries (F := F) before sch) id = (listed sch).count id ∧
      due (startEntries (F := F) before sch) id = (listed sch).count id := fun id =>
    ⟨answers_startEntries before sch id, by
      rw [due, (startEntries_pending before sch).2.2.2, items_seqId]⟩
  have hsteady : ∀ r ∈ e.scheduler.running, ∀ c, e.calls r.seq.id = some c →
      r.numGenerated ≤ c.params.maxTokens ∧ Steady e r.seq.id c r.numGenerated := by
    intro r hr c hcall
    obtain ⟨n, hle, hcnt, hst⟩ := h.running r hr c hcall
    rw [hidle.answers, hidle.due] at hcnt
    obtain rfl : r.numGenerated = n := hcnt
    exact ⟨hle, (stands_iff hidle.between).mp hst⟩
  have hbatch : ∀ r ∈ t.running, ∀ c, e.calls r.seq.id = some c →
      r.numGenerated ≤ c.params.maxTokens ∧ Steady e r.seq.id c r.numGenerated := by
    intro r' hr' c hcall
    rcases schedule_origin hs hr' with ⟨r, hr, -, hp⟩ | ⟨req, hreq, r, hb, hp⟩
    · rw [hp.seq] at hcall ⊢
      rw [hp.numGenerated]
      exact hsteady r hr c hcall
    · obtain ⟨seq, k, hid, -, rfl⟩ := hb
      rw [hp.seq] at hcall ⊢
      rw [hp.numGenerated]
      refine ⟨Nat.zero_le _, ?_⟩
      change e.calls seq.id = some c at hcall
      show Steady e seq.id c 0
      rw [hid] at hcall ⊢
      exact h.waiting req.id (List.mem_map_of_mem hreq) c hcall
  refine ⟨h.asked, fun id hid c hcall => (h.waiting id (hwait hid) c hcall).congr rfl rfl,
    fun r hr c hcall => ?_, fun id c hcall hid => ?_, fun id => ?_⟩
  · obtain ⟨hle, hst⟩ := hbatch r hr c hcall
    refine ⟨r.numGenerated, hle, ?_,
      (stands_iff (between_startEntries _ _)).mpr (hst.congr rfl rfl)⟩
    rw [(hstart _).1, (hstart _).2]
  · by_cases hwas : id ∈ line e.scheduler
    · obtain ⟨r, hr, rfl⟩ := List.mem_map.mp ((hleft id hwas).resolve_left hid)
      have hfin : finished e.scheduler.config r = true := by
        by_contra hnot
        exact hid (List.mem_append_left _ (schedule_keeps hs hr (by simpa using hnot)))
      obtain ⟨c', hcall', -, hpar⟩ := hc.booked.running r hr
      obtain rfl : c = c' := Option.some.inj (hcall.symm.trans hcall')
      obtain ⟨hle, hst⟩ := hsteady r hr c hcall
      have hge := hleave r hr hfin
      rw [hpar] at hge
      rw [← Nat.le_antisymm hle hge]
      exact hst.out
    · exact h.gone id c hcall hwas
  · dsimp only
    rw [(hstart id).1, (hstart id).2]

section Entry

variable {draw : Draw F} {before : List Nat} {sch : Schedule} {item : Item} {phase : Phase F}
  {rest : List Item}

/-- The request an entry is for runs, and has this answer and those of the later entries
to come. -/
theorem of_entry (h : OnCourse e) (hc : Consistent e)
    (hl : e.loop = .entry before sch item phase rest) :
    ∃ r ∈ e.scheduler.running, r.seq.id = item.seqId ∧ ∃ c, e.calls item.seqId = some c ∧
      ∃ n ≤ c.params.maxTokens, r.numGenerated + (listed sch).count item.seqId =
        n + ((rest.map Item.seqId).count item.seqId + 1) ∧ At e sch item c n phase := by
  obtain ⟨r, hr, hid⟩ := List.mem_map.mp
    (hc.placed.entries item (by rw [hl]; exact List.mem_cons_self))
  obtain ⟨c, hcall, -⟩ := hc.booked.running r hr
  obtain ⟨n, hle, hcnt, hst⟩ := h.running r hr c hcall
  rw [hid] at hcall hcnt hst
  unfold Stands at hst
  rw [hl] at hst
  dsimp only at hst
  rw [if_pos rfl] at hst
  simp only [hl, answers, due, Loop.entries, List.map_cons, List.count_cons_self] at hcnt
  exact ⟨r, hr, hid, c, hcall, n, hle, hcnt, hst⟩

/-- The other running requests are between two tokens. -/
theorem of_other (h : OnCourse e) (hl : e.loop = .entry before sch item phase rest)
    {r : RunningSeq F} (hr : r ∈ e.scheduler.running) (hne : r.seq.id ≠ item.seqId) {c : Call F}
    (hcall : e.calls r.seq.id = some c) :
    ∃ n ≤ c.params.maxTokens,
      r.numGenerated + (listed sch).count r.seq.id = n + (rest.map Item.seqId).count r.seq.id ∧
      Steady e r.seq.id c n := by
  obtain ⟨n, hle, hcnt, hst⟩ := h.running r hr c hcall
  unfold Stands at hst
  rw [hl] at hst
  dsimp only at hst
  rw [if_neg (Ne.symm hne)] at hst
  simp only [hl, answers, due, Loop.entries, List.map_cons] at hcnt
  rw [List.count_cons_of_ne (Ne.symm hne)] at hcnt
  exact ⟨n, hle, hcnt, hst⟩

/-- The work on an entry does not touch the other requests. -/
theorem steady_work {id : Nat} {c : Call F} {n : Nat} (hid : id ≠ item.seqId)
    (hs : Steady e id c n) : Steady (e.work draw before sch item rest phase) id c n := by
  have hf := e.work_onlyAt draw before sch item rest phase
  exact hs.congr (by rw [delivered, hf.streams id hid]; rfl) (hf.seqContext id hid)

/-- The work on an entry keeps the course when it keeps the running requests on it. -/
theorem work_of_running (h : OnCourse e) (hc : Consistent e)
    (hl : e.loop = .entry before sch item phase rest)
    (hrun : ∀ r ∈ e.scheduler.running, ∀ c, e.calls r.seq.id = some c →
      ∃ n ≤ c.params.maxTokens,
        r.numGenerated + answers (e.work draw before sch item rest phase).loop r.seq.id =
          n + due (e.work draw before sch item rest phase).loop r.seq.id ∧
        Stands (e.work draw before sch item rest phase) r.seq.id c n)
    (hbound : ∀ id, due (e.work draw before sch item rest phase).loop id ≤
      answers (e.work draw before sch item rest phase).loop id) :
    OnCourse (e.work draw before sch item rest phase) := by
  have hf := e.work_onlyAt draw before sch item rest phase
  have hitem : item.seqId ∈ e.scheduler.runningIds :=
    hc.placed.entries item (by rw [hl]; exact List.mem_cons_self)
  refine ⟨?_, ?_, ?_, ?_, hbound⟩
  · rw [hf.calls]
    exact h.asked
  · rw [hf.scheduler, hf.calls]
    intro id hid c hcall
    refine steady_work ?_ (h.waiting id hid c hcall)
    intro he
    exact List.disjoint_of_nodup_append hc.booked.numbered.nodup (he ▸ hitem) hid
  · rw [hf.scheduler, hf.calls]
    exact hrun
  · rw [hf.scheduler, hf.calls]
    intro id c hcall hid
    have hne : id ≠ item.seqId := fun he => hid (List.mem_append_left _ (he ▸ hitem))
    rw [delivered, hf.streams id hne]
    exact h.gone id c hcall hid

theorem work (h : OnCourse e) (hc : Consistent e)
    (hl : e.loop = .entry before sch item phase rest)
    (hready : phase = .params → Ready e sch item) :
    OnCourse (e.work draw before sch item rest phase) := by
  obtain ⟨r₀, hr₀, hid₀, c₀, hcall₀, n₀, hle₀, hcnt₀, hat₀⟩ := h.of_entry hc hl
  obtain ⟨htot, hcold, -⟩ := h.asked _ c₀ hcall₀
  have hsame : ∀ r ∈ e.scheduler.running, r.seq.id = item.seqId → r = r₀ := fun r hr hid =>
    hc.booked.numbered.eq_of_id hr hr₀ (hid.trans hid₀.symm)
  have hbound := h.bounded
  simp only [hl, answers, due, Loop.entries, List.map_cons] at hbound
  have hcount : 0 < (listed sch).count item.seqId := by
    have := hbound item.seqId
    rw [List.count_cons_self] at this
    omega
  have hw : ∀ t ∉ c₀.todo, e.Has item.seqId c₀ t :=
    hc.written _ c₀ hcall₀ (.inl (List.mem_append_left _ (hid₀ ▸ List.mem_map_of_mem hr₀)))
  have hbegin : phase = .params → Begun e sch item c₀ n₀ := fun hp =>
    (hready hp).begun hcall₀ (by subst hp; exact hat₀)
  rcases work_stands draw before rest hw htot hcold hcount hbegin hat₀ with
    ⟨phase', hloop, hat⟩ | ⟨hloop, hbegun, hsteady⟩
  · -- the entry goes on
    refine h.work_of_running hc hl (fun r hr c hcall => ?_) (by rw [hloop]; exact hbound)
    unfold Stands
    rw [hloop]
    simp only [answers, due, Loop.entries, List.map_cons]
    by_cases hid : r.seq.id = item.seqId
    · obtain rfl := hsame r hr hid
      rw [hid] at hcall ⊢
      obtain rfl : c₀ = c := Option.some.inj (hcall₀.symm.trans hcall)
      rw [List.count_cons_self]
      refine ⟨n₀, hle₀, hcnt₀, ?_⟩
      rw [if_pos rfl]
      exact hat
    · obtain ⟨n, hle, hcnt, hst⟩ := h.of_other hl hr hid hcall
      rw [List.count_cons_of_ne (Ne.symm hid)]
      refine ⟨n, hle, hcnt, ?_⟩
      rw [if_neg (Ne.symm hid)]
      exact steady_work hid hst
  · -- the token is out
    have hroom := hbegun.room r₀.numGenerated
      (hid₀ ▸ runningSeqGenerated_eq hc.booked.numbered hr₀)
    have hleft : ∀ id, due (nextEntry (F := F) before sch rest) id =
        (rest.map Item.seqId).count id := fun id => by
      rw [due, (nextEntry_pending before sch rest).2.2.2]
    refine h.work_of_running hc hl (fun r hr c hcall => ?_) fun id => ?_
    · have hstands : ∀ {n}, Steady (e.work draw before sch item rest phase) r.seq.id c n →
          Stands (e.work draw before sch item rest phase) r.seq.id c n :=
        (stands_iff (hloop ▸ between_nextEntry _ _ _)).mpr
      rw [hloop, answers_nextEntry, hleft]
      by_cases hid : r.seq.id = item.seqId
      · obtain rfl := hsame r hr hid
        rw [hid] at hcall hstands ⊢
        obtain rfl : c₀ = c := Option.some.inj (hcall₀.symm.trans hcall)
        exact ⟨n₀ + 1, by omega, by omega, hstands hsteady⟩
      · obtain ⟨n, hle, hcnt, hst⟩ := h.of_other hl hr hid hcall
        exact ⟨n, hle, hcnt, hstands (steady_work hid hst)⟩
    · rw [hloop, answers_nextEntry, hleft]
      exact Nat.le_trans (List.count_le_count_cons ..) (hbound id)

end Entry

theorem notify {before : List Nat} {sch : Schedule} (h : OnCourse e) (hc : Consistent e)
    (hl : e.loop = .notify before sch) :
    OnCourse { e with scheduler := e.scheduler.answer (listed sch), loop := .after before } := by
  have hidle : Idle (.after before : Loop F) := ⟨rfl, fun _ => rfl⟩
  -- a sequence with so many answers to come is that far behind its stream
  have hanswered : ∀ r ∈ (e.scheduler.answer (listed sch)).running, ∀ c,
      e.calls r.seq.id = some c → ∃ n ≤ c.params.maxTokens, r.numGenerated + 0 = n ∧
        Steady e r.seq.id c n := answer_induction
    (I := fun k r => ∀ c, e.calls r.seq.id = some c → ∃ n ≤ c.params.maxTokens,
      r.numGenerated + k = n ∧ Steady e r.seq.id c n)
    (fun k r hk c hcall => by
      obtain ⟨n, hle, hcnt, hst⟩ := hk c hcall
      have hsmall := (h.asked _ c hcall).2.2
      refine ⟨n, hle, ?_, hst⟩
      show usize (r.numGenerated + 1) + k = n
      rw [usize, Nat.mod_eq_of_lt (by omega)]
      omega)
    hc.booked.numbered.running fun r hr c hcall => by
      obtain ⟨n, hle, hcnt, hst⟩ := h.running r hr c hcall
      unfold Stands at hst
      rw [hl] at hst
      simp only [hl, answers, due, Loop.entries] at hcnt
      exact ⟨n, hle, hcnt, hst⟩
  refine ⟨h.asked, fun id hid c hcall => ?_, fun r hr c hcall => ?_, fun id c hcall hid => ?_,
    fun id => Nat.le_refl _⟩
  · dsimp only at hid
    rw [waitingIds_answer] at hid
    exact (h.waiting id hid c hcall).congr rfl rfl
  · obtain ⟨n, hle, hcnt, hst⟩ := hanswered r hr c hcall
    exact ⟨n, hle, hcnt, (stands_iff hidle.between).mpr (hst.congr rfl rfl)⟩
  · dsimp only at hid
    rw [line_answer] at hid
    exact h.gone id c hcall hid

theorem advance {order : HashOrder} {draw : Draw F} (h : OnCourse e) (hc : Consistent e)
    (hm : Undisturbed e (.loop order draw)) (hx : e.advance order draw = .ok e') : OnCourse e' := by
  obtain ⟨hleave, hready⟩ := hm
  cases advance_ok hx with
  | top hl =>
    refine h.idle rfl rfl (fun _ => rfl) (fun _ _ => rfl) ?_ ⟨rfl, fun _ => rfl⟩
    rw [hl]
    exact ⟨rfl, fun _ => rfl⟩
  | @schedule before sch t hl hs =>
    rw [hl] at hleave
    exact h.schedule hc hl (hleave rfl) hs
  | @entry before sch item phase rest hl =>
    rw [hl] at hready
    refine h.work hc hl fun hp => ?_
    subst hp
    exact hready _ rfl
  | @notify before sch hl =>
    exact h.notify hc hl
  | @after before hl =>
    refine h.idle rfl rfl (fun _ => rfl) (fun _ _ => rfl) ?_ (idle_nextGone _)
    rw [hl]
    exact ⟨rfl, fun _ => rfl⟩
  | @finish seqId rest hl =>
    have hf := OnlyAt.delivered seqId e finishToken (.remove seqId removals rest)
    refine h.idle hf.scheduler hf.calls (fun id => ?_) (fun id _ => by simp) ?_ ⟨rfl, fun _ => rfl⟩
    · show ((e.deliver seqId finishToken).streams id |>.filter _).map _ = _
      rw [deliver_streams]
      split
      · rfl
      · by_cases hid : id = seqId
        · subst hid
          rw [Function.update_self, List.filter_append]
          simp [finishToken, delivered]
        · rw [Function.update_of_ne hid]
          rfl
    · rw [hl]
      exact ⟨rfl, fun _ => rfl⟩
  | @removed seqId rest hl =>
    have hidle : Idle e.loop := by
      rw [hl]
      exact ⟨rfl, fun _ => rfl⟩
    exact h.idle rfl rfl (fun _ => rfl) (fun _ _ => rfl) hidle (idle_nextGone _)
  | @remove seqId t todo rest hl =>
    have hidle : Idle e.loop := by
      rw [hl]
      exact ⟨rfl, fun _ => rfl⟩
    refine h.idle (by simp) (by simp) (fun id => ?_) (fun id hid => ?_) hidle ⟨rfl, fun _ => rfl⟩
    · simp [delivered]
    · have hne : id ≠ seqId := by
        rintro rfl
        have hp := hc.placed
        rw [hl] at hp
        exact hp.not_open_of_remove (.inl hid)
      cases t with
      | context => exact Function.update_of_ne hne _ _
      | _ => rfl

theorem step {m : Move F} (h : OnCourse e) (hc : Consistent e) (ha : AsksGreedily m)
    (hm : Undisturbed e m) (hx : Step e m e') : OnCourse e' := by
  cases m with
  | generate registry modelName prompt params => exact h.generate hc ha (mapError_eq_ok.mp hx)
  | register seqId => exact h.register hx
  | loop order draw => exact h.advance hc hm (mapError_eq_ok.mp hx)

end OnCourse

/-- **Batching against decoding alone.** Take a run of greedy requests to total models in
which sequences leave only by their token limit and every entry is ready when the loop
starts on it. Once a request has left the scheduler, the tokens on its stream are those
of decoding it alone exactly when it asked for one token at most, or its greedy
continuation repeats one token that is no stop token. -/
theorem batched_as_alone_iff (config : SchedulerConfig) (numBlocks : Nat)
    (tr : List (Move F × SchedulerEngine F)) (hrun : Along Step (fresh config numBlocks) tr)
    (hasks : Along (fun _ m _ => AsksGreedily m) (fresh config numBlocks) tr)
    (hcond : Along (fun e m _ => Undisturbed e m) (fresh config numBlocks) tr) :
    ∀ e ∈ visited (fresh config numBlocks) tr, ∀ id c, e.calls id = some c →
      id ∉ line e.scheduler →
        (delivered e id =
            (greedy (nextToken c.model) c.params.stopTokens c.params.maxTokens c.prompt).1 ↔
          c.params.maxTokens ≤ 1 ∨ ∃ t ∉ c.params.stopTokens,
            continuation (nextToken c.model) c.prompt c.params.maxTokens =
              List.replicate c.params.maxTokens t) := by
  intro e he id c hcall hid
  have hinv := Along.invariant (I := fun e : SchedulerEngine F => Consistent e ∧ OnCourse e)
    (fun _ _ _ hi hq => ⟨hi.1.step hq.1.1, hi.2.step hi.1 hq.1.2 hq.2 hq.1.1⟩)
    ⟨consistent_fresh config numBlocks, onCourse_fresh config numBlocks⟩
    ((hrun.and hasks).and hcond) e he
  rw [hinv.2.gone id c hcall hid]
  exact streamed_eq_greedy_iff _

end Runs

section Witness

instance {F : Type} (e : SchedulerEngine F) (c : Call F) : ∀ item, Decidable (Prepared e c item)
  | .prefill step =>
    inferInstanceAs (Decidable (step.tokens = c.prompt ∧ e.seqContext step.seqId = none))
  | .decode seqId => inferInstanceAs (Decidable (e.seqContext seqId ≠ none))

instance {F : Type} (e : SchedulerEngine F) (sch : Schedule) (item : Item) :
    Decidable (Ready e sch item) :=
  inferInstanceAs (Decidable (∃ c ∈ e.calls item.seqId, c.todo = [] ∧
    (∀ n ∈ e.scheduler.runningSeqGenerated item.seqId,
      n + (listed sch).count item.seqId ≤ c.params.maxTokens) ∧ Prepared e c item))

instance {F : Type} (e : SchedulerEngine F) : ∀ m : Move F, Decidable (Undisturbed e m)
  | .loop _ _ => inferInstanceAs (Decidable (
      (scheduling e.loop = true → ∀ r ∈ e.scheduler.running,
        finished e.scheduler.config r = true → r.params.maxTokens ≤ r.numGenerated) ∧
      ∀ x ∈ starting e.loop, Ready e x.1 x.2))
  | .generate _ _ _ _ => .isTrue trivial
  | .register _ => .isTrue trivial

/-- Four tokens; the next one is the last one plus one. -/
def countUp : Model Rat :=
  .ofTotal fun context => (List.range 4).map fun i =>
    if i = (context.getLast?.getD 0).toNat + 1 then 1 else 0

/-- The next one is always token 1. -/
def onlyOne : Model Rat := .ofTotal fun _ => [0, 1]

def ask (model : Model Rat) (prompt : List Token) (maxTokens : Nat) : Move Rat :=
  .generate (fun _ => some model) "m" prompt ⟨maxTokens, 0, 1, 0, []⟩

def spin (n : Nat) : List (Move Rat) := List.replicate n (.loop .listed ⟨[], 0⟩)

/-- A request for one token and, while it is worked on, one for three. -/
def joining : List (Move Rat) :=
  ask countUp [0] 1 :: List.replicate 4 (.register 1) ++ spin 5 ++
    ask onlyOne [5, 6] 3 :: List.replicate 4 (.register 2) ++ spin 60

def countingUp : List (Move Rat) := ask countUp [0] 2 :: List.replicate 4 (.register 1) ++ spin 33

theorem cold_zero : Floating.le (0 : Rat) 1.1920929e-7 = true := by decide +kernel

theorem asksGreedily_ask (logits : List Token → List Rat) (prompt : List Token) {maxTokens : Nat}
    (h : maxTokens < 2 ^ 64) : AsksGreedily (ask (.ofTotal logits) prompt maxTokens) := by
  refine ⟨fun model hm => ?_, cold_zero, h⟩
  cases hm
  exact fun context => ⟨_, rfl⟩

theorem asksGreedily_of_mem {ms : List (Move Rat)}
    (h : ∀ m ∈ ms, (∃ logits prompt maxTokens, m = ask (.ofTotal logits) prompt maxTokens ∧
      maxTokens < 2 ^ 64) ∨ (∃ id, m = .register id) ∨ m = .loop .listed ⟨[], 0⟩)
    (s : SchedulerEngine Rat) : Along (fun _ m _ => AsksGreedily m) s (replay exec s ms) := by
  refine (along_replay_labels exec s ms (P := AsksGreedily) fun m hm => ?_).imp fun _ _ _ h => h.1
  rcases h m hm with ⟨logits, prompt, maxTokens, rfl, hlt⟩ | ⟨id, rfl⟩ | rfl
  · exact asksGreedily_ask logits prompt hlt
  · trivial
  · trivial

theorem joining_greedy : Along (fun _ m _ => AsksGreedily m) (fresh .default 8)
    (replay exec (fresh .default 8) joining) := by
  refine asksGreedily_of_mem (fun m hm => ?_) _
  simp only [joining, spin, List.cons_append, List.append_assoc, List.mem_cons, List.mem_append,
    List.mem_replicate] at hm
  rcases hm with rfl | ⟨-, rfl⟩ | ⟨-, rfl⟩ | rfl | ⟨-, rfl⟩ | ⟨-, rfl⟩
  · exact .inl ⟨_, _, _, rfl, by decide⟩
  · exact .inr (.inl ⟨_, rfl⟩)
  · exact .inr (.inr rfl)
  · exact .inl ⟨_, _, _, rfl, by decide⟩
  · exact .inr (.inl ⟨_, rfl⟩)
  · exact .inr (.inr rfl)

theorem batched_as_alone_iff_joining :
    let tr := replay exec (fresh .default 8) joining
    let e := final exec (fresh .default 8) joining
    tr.length = 75 ∧ [1, 2].map (delivered e) = [[1], [1, 1, 1]] ∧
    ∀ id c, e.calls id = some c → id ∉ line e.scheduler →
      (delivered e id =
          (greedy (nextToken c.model) c.params.stopTokens c.params.maxTokens c.prompt).1 ↔
        c.params.maxTokens ≤ 1 ∨ ∃ t ∉ c.params.stopTokens,
          continuation (nextToken c.model) c.prompt c.params.maxTokens =
            List.replicate c.params.maxTokens t) :=
  ⟨by decide +kernel, by decide +kernel,
    batched_as_alone_iff .default 8 _ (along_replay exec _ _) joining_greedy (by decide +kernel) _
      (final_mem_visited exec _ _)⟩

/-- One request, whose continuation counts up, is sent its first token twice. -/
theorem first_token_sent_twice :
    ¬ ∀ tr : List (Move Rat × SchedulerEngine Rat), Along Step (fresh .default 8) tr →
      Along (fun _ m _ => AsksGreedily m) (fresh .default 8) tr →
      ∀ e ∈ visited (fresh .default 8) tr, ∀ id c, e.calls id = some c → id ∉ line e.scheduler →
        delivered e id =
          (greedy (nextToken c.model) c.params.stopTokens c.params.maxTokens c.prompt).1 := by
  intro h
  have hasks : Along (fun _ m _ => AsksGreedily m) (fresh .default 8)
      (replay exec (fresh .default 8) countingUp) := by
    refine asksGreedily_of_mem (fun m hm => ?_) _
    simp only [countingUp, spin, List.cons_append, List.mem_cons, List.mem_append,
      List.mem_replicate] at hm
    rcases hm with rfl | ⟨-, rfl⟩ | ⟨-, rfl⟩
    · exact .inl ⟨_, _, _, rfl, by decide⟩
    · exact .inr (.inl ⟨_, rfl⟩)
    · exact .inr (.inr rfl)
  have halone : ((final exec (fresh .default 8) countingUp).calls 1).map (fun c =>
      (greedy (nextToken c.model) c.params.stopTokens c.params.maxTokens c.prompt).1) =
        some [1, 2] := by
    decide +kernel
  obtain ⟨c, hcall, hgreedy⟩ := Option.map_eq_some_iff.mp halone
  have hsame := h _ (along_replay exec _ _) hasks _ (final_mem_visited exec _ _) 1 c hcall
    (by decide +kernel)
  rw [hgreedy] at hsame
  exact absurd hsame (by decide +kernel)

end Witness

end JustApi.Inference.BatchOutputs
