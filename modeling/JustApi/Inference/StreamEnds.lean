import JustApi.Inference.ServingFrame
import JustApi.Inference.SpecLossless

/-! # How streams end

The loop sends a final token to a sequence that has left the batch and then clears its
five tables, one lock at a time. A stream ends exactly once and leaves nothing behind
as long as the call has written what is being cleared and no earlier token carried a
finish reason. -/
namespace JustApi.Inference.StreamEnds
open JustApi.Lib.Run JustApi.Lib.Result
open JustApi.Inference.KvCache JustApi.Inference.RadixCache JustApi.Inference.LanguageModel
open JustApi.Inference.Scheduling hiding exec
open JustApi.Inference.Scheduling.Scheduler
open JustApi.Inference.FifoService (line waitingIds)
open JustApi.Inference.Serving JustApi.Inference.Serving.SchedulerEngine
open JustApi.Inference.SpecDecode (Floating)
open Function (update)

variable {F : Type}

/-- One token with a finish reason, and nothing after it. -/
def Ended (stream : List (GeneratedToken F)) : Prop :=
  ∃ init last, stream = init ++ [last] ∧ last.finishReason ≠ none ∧
    ∀ x ∈ init, x.finishReason = none

/-- The request has left the scheduler and the loop has no business with it any more. -/
def Settled (e : SchedulerEngine F) (id : Nat) : Prop :=
  e.calls id ≠ none ∧ id ∉ line e.scheduler ∧ id ∉ e.loop.pending

def EndsOnce (e : SchedulerEngine F) : Prop :=
  ∀ id, Settled e id → Ended (e.streams id) ∧ ∀ t, ¬ e.Holds id t

/-- The call that got the id has still to write the table. -/
def StillToWrite (e : SchedulerEngine F) (id : Nat) (t : Table) : Prop :=
  ∃ c ∈ e.calls id, t ∈ c.todo

/-- `is_seq_done` is about to compare: the sequence and the limit it has read. -/
def asking : Loop F → Option (Nat × Nat)
  | .entry _ _ item (.generated _ max) _ => some (item.seqId, max)
  | _ => none

/-- The table the end of a sequence is about to use or to clear. -/
def ending : Loop F → Option (Nat × Table)
  | .finish seqId _ => some (seqId, .senders)
  | .remove seqId (t :: _) _ => some (seqId, t)
  | _ => none

/-- `is_seq_done` is asked about a sequence below its limit. -/
def AsksBelow (e : SchedulerEngine F) : Move F → Prop
  | .loop _ _ => ∀ x ∈ asking e.loop, ∀ n ∈ e.scheduler.runningSeqGenerated x.1, n < x.2
  | .generate _ _ _ _ => True
  | .register _ => True

/-- The end of a sequence finds the table written by the call. -/
def EndsAfterWrites (e : SchedulerEngine F) : Move F → Prop
  | .loop _ _ => ∀ x ∈ ending e.loop, ¬ StillToWrite e x.1 x.2
  | .generate _ _ _ _ => True
  | .register _ => True

/-- A move that does not upset the end of a stream. -/
def Timely (e : SchedulerEngine F) (m : Move F) : Prop := AsksBelow e m ∧ EndsAfterWrites e m

/-- The tables the clean-up has still to clear. -/
def left : Loop F → Nat → List Table
  | .remove seqId todo _, id => if id = seqId then todo else []
  | _, _ => []

/-- No finish reason while a request is open; once it is not, the stream has ended and
the tables that are not left to clear are clear for good. -/
structure Tidied (e : SchedulerEngine F) : Prop where
  streaming : ∀ id c, e.calls id = some c → Open e.scheduler e.loop id →
    ∀ x ∈ e.streams id, x.finishReason = none
  closed : ∀ id c, e.calls id = some c → ¬ Open e.scheduler e.loop id →
    Ended (e.streams id) ∧ ∀ t ∉ left e.loop id, ¬ e.Holds id t ∧ t ∉ c.todo
  below : ∀ before sch item token done rest,
    e.loop = .entry before sch item (.deliver token done) rest → done = false

theorem tidied_fresh (config : SchedulerConfig) (numBlocks : Nat) :
    Tidied (F := F) (fresh config numBlocks) :=
  ⟨fun _ _ h => (nomatch h), fun _ _ h => (nomatch h), fun _ _ _ _ _ _ h => (nomatch h)⟩

namespace Tidied

variable {e e' : SchedulerEngine F}

theorem endsOnce (h : Tidied e) : EndsOnce e := by
  rintro id ⟨hcall, hline, hpend⟩
  obtain ⟨c, hcall⟩ := Option.ne_none_iff_exists'.mp hcall
  have hclosed : ¬ Open e.scheduler e.loop id := by
    rintro (ho | ho)
    · exact hline ho
    · exact hpend (e.loop.unfinished_subset ho)
  obtain ⟨hend, hclear⟩ := h.closed id c hcall hclosed
  refine ⟨hend, fun t => (hclear t ?_).1⟩
  cases hl : e.loop with
  | remove seqId todo rest =>
    rw [hl] at hpend
    have hne : id ≠ seqId := fun he => hpend (he ▸ List.mem_cons_self)
    simp [left, hne]
  | _ => exact fun ht => nomatch ht

/-! ## Calls -/

theorem generate {registry : Registry F} {modelName : String} {prompt : List Token}
    {params : SamplingParams F} (h : Tidied e) (hc : Consistent e)
    (hx : e.generate registry modelName prompt params = .ok e') : Tidied e' := by
  obtain ⟨model, -, rfl⟩ := generate_ok hx
  have hopen : ∀ id, id ≠ e.scheduler.nextSeqId →
      (Open (e.scheduler.addRequest ⟨0, prompt, params, 0, []⟩).2 e.loop id ↔
        Open e.scheduler e.loop id) := by
    intro id hn
    rw [Open, line_addRequest, Open, List.mem_append, List.mem_singleton, or_iff_left hn]
  refine ⟨fun id c hcall ho => ?_, fun id c hcall ho => ?_, h.below⟩
  · by_cases hn : id = e.scheduler.nextSeqId
    · dsimp only
      rw [hn, (hc.unknown _ hc.booked.unissued).1]
      exact fun x hx => nomatch hx
    · dsimp only at hcall ho
      rw [Function.update_of_ne hn] at hcall
      exact h.streaming id c hcall ((hopen id hn).mp ho)
  · by_cases hn : id = e.scheduler.nextSeqId
    · refine absurd (.inl ?_) ho
      rw [line_addRequest, hn]
      exact List.mem_append_right _ List.mem_cons_self
    · dsimp only at hcall ho
      rw [Function.update_of_ne hn] at hcall
      have := h.closed id c hcall fun hh => ho ((hopen id hn).mpr hh)
      refine ⟨this.1, fun t ht => ?_⟩
      obtain ⟨hnone, htodo⟩ := this.2 t ht
      exact ⟨by cases t <;> exact hnone, htodo⟩

theorem register [Floating F] {seqId : Nat} (h : Tidied e)
    (hx : exec e (.register seqId) = .ok e') : Tidied e' := by
  obtain ⟨c, t, todo, hcall, htodo, rfl⟩ := register_ok hx
  refine ⟨fun id d hd ho => ?_, fun id d hd ho => ?_, ?_⟩
  · simp only [insert_frame] at ho ⊢
    dsimp only at hd
    by_cases hn : id = seqId
    · subst hn
      exact h.streaming id c hcall ho
    · rw [Function.update_of_ne hn] at hd
      exact h.streaming id d hd ho
  · simp only [insert_frame] at ho
    dsimp only at hd
    by_cases hn : id = seqId
    · subst hn
      rw [Function.update_self] at hd
      cases hd
      obtain ⟨hend, hclear⟩ := h.closed id c hcall ho
      refine ⟨by simpa using hend, fun t' ht' => ?_⟩
      simp only [insert_frame] at ht'
      obtain ⟨hnone, hnot⟩ := hclear t' ht'
      rw [htodo] at hnot
      obtain ⟨hne, hnot⟩ := not_or.mp (List.mem_cons.not.mp hnot)
      rw [holds_calls]
      exact ⟨not_holds_insert hnone (.inr hne), hnot⟩
    · rw [Function.update_of_ne hn] at hd
      obtain ⟨hend, hclear⟩ := h.closed id d hd ho
      refine ⟨by simpa using hend, fun t' ht' => ?_⟩
      simp only [insert_frame] at ht'
      rw [holds_calls]
      exact ⟨not_holds_insert (hclear t' ht').1 (.inl hn), (hclear t' ht').2⟩
  · simp only [insert_frame]
    exact h.below

/-! ## The loop -/

/-- A step that only moves the loop or the scheduler. -/
theorem quiet (h : Tidied e) (hcalls : e'.calls = e.calls) (hstreams : e'.streams = e.streams)
    (hholds : ∀ id t, ¬ e.Holds id t → ¬ e'.Holds id t)
    (hopen : ∀ id, Open e'.scheduler e'.loop id ↔ Open e.scheduler e.loop id)
    (hleft : ∀ id t, t ∈ left e.loop id → t ∈ left e'.loop id)
    (hno : ∀ before sch item token done rest,
      e'.loop ≠ .entry before sch item (.deliver token done) rest) : Tidied e' where
  streaming id c hcall ho := by
    rw [hstreams]
    exact h.streaming id c (hcalls ▸ hcall) ((hopen id).mp ho)
  closed id c hcall ho := by
    obtain ⟨hend, hclear⟩ := h.closed id c (hcalls ▸ hcall) fun hh => ho ((hopen id).mpr hh)
    rw [hstreams]
    refine ⟨hend, fun t ht => ?_⟩
    obtain ⟨hnone, htodo⟩ := hclear t fun hm => ht (hleft id t hm)
    exact ⟨hholds id t hnone, htodo⟩
  below before sch item token done rest hl := absurd hl (hno before sch item token done rest)

end Tidied

theorem nextEntry_ne_deliver {before before' : List Nat} {sch sch' : Schedule} {items rest : List Item}
    {item : Item} {token : Token} {done : Bool} :
    nextEntry (F := F) before sch items ≠ .entry before' sch' item (.deliver token done) rest := by
  cases items <;> exact fun h => nomatch h

section Work

variable [Floating F] {e : SchedulerEngine F} {draw : Draw F} {before : List Nat} {sch : Schedule}
  {item : Item} {rest : List Item} {phase : Phase F}

/-- Only `deliver` sends something. -/
theorem mem_streams_work {x : GeneratedToken F}
    (hx : x ∈ (e.work draw before sch item rest phase).streams item.seqId) :
    x ∈ e.streams item.seqId ∨
      ∃ token done, phase = .deliver token done ∧ x = stepToken token done := by
  cases phase with
  | deliver token done =>
    change x ∈ (e.deliver item.seqId (stepToken token done)).streams item.seqId at hx
    rw [deliver_streams] at hx
    split at hx
    · exact .inl hx
    · rw [Function.update_self] at hx
      rcases List.mem_append.mp hx with hx | hx
      · exact .inl hx
      · exact .inr ⟨token, done, rfl, List.mem_singleton.mp hx⟩
  | model params =>
    simp only [work] at hx
    split at hx
    · exact .inl hx
    · split at hx <;> exact .inl hx
  | context params model =>
    simp only [work] at hx
    split at hx
    · exact .inl hx
    · split at hx
      · exact .inl hx
      · split at hx <;> exact .inl hx
  | _ => exact .inl hx

/-- A token is delivered after `is_seq_done` has been asked. -/
theorem work_deliver {before' : List Nat} {sch' : Schedule} {item' : Item} {token : Token}
    {done : Bool} {rest' : List Item} (h : (e.work draw before sch item rest phase).loop =
      .entry before' sch' item' (.deliver token done) rest') :
    ∃ max, phase = .generated token max ∧
      (done = true → ∃ n, e.scheduler.runningSeqGenerated item.seqId = some n ∧ max ≤ n) := by
  cases phase with
  | generated token' max =>
    simp only [work, work.go, Loop.entry.injEq, Phase.deliver.injEq] at h
    obtain ⟨-, -, -, ⟨rfl, rfl⟩, -⟩ := h
    refine ⟨max, rfl, fun hdone => ?_⟩
    cases hn : e.scheduler.runningSeqGenerated item.seqId with
    | none =>
      rw [hn] at hdone
      cases hdone
    | some n =>
      rw [hn] at hdone
      exact ⟨n, rfl, of_decide_eq_true hdone⟩
  | model params =>
    simp only [work] at h
    split at h
    · exact absurd h nextEntry_ne_deliver
    · split at h <;> cases h
  | context params model =>
    simp only [work] at h
    split at h
    · exact absurd h nextEntry_ne_deliver
    · split at h
      · exact absurd h nextEntry_ne_deliver
      · split at h <;> cases h
  | deliver token' done' => exact absurd h nextEntry_ne_deliver
  | _ => cases h

end Work

namespace Tidied

section Cases

variable {e e' : SchedulerEngine F} {id seqId : Nat}

/-- A step at one id leaves what is closed at another as it is. -/
theorem closed_of_onlyAt {c : Call F} (h : Tidied e) (hf : OnlyAt seqId e e') (hn : id ≠ seqId)
    (hcall : e.calls id = some c) (ho : ¬ Open e.scheduler e.loop id)
    (hleft : left e.loop id = []) :
    Ended (e'.streams id) ∧ ∀ t, ¬ e'.Holds id t ∧ t ∉ c.todo := by
  obtain ⟨hstream, hclear⟩ := h.closed id c hcall ho
  rw [hf.streams id hn]
  refine ⟨hstream, fun t => ?_⟩
  obtain ⟨hnone, htodo⟩ := hclear t (by rw [hleft]; exact List.not_mem_nil)
  exact ⟨hf.not_holds hn hnone, htodo⟩

theorem work [Floating F] {draw : Draw F} {before : List Nat} {sch : Schedule} {item : Item}
    {phase : Phase F} {rest : List Item} (h : Tidied e) (hc : Consistent e)
    (hl : e.loop = .entry before sch item phase rest)
    (hask : ∀ token max, phase = .generated token max →
      ∀ n, e.scheduler.runningSeqGenerated item.seqId = some n → n < max)
    (hopen : ∀ id, Open (e.work draw before sch item rest phase).scheduler
      (e.work draw before sch item rest phase).loop id ↔ Open e.scheduler e.loop id) :
    Tidied (e.work draw before sch item rest phase) := by
  have hf := e.work_onlyAt draw before sch item rest phase
  have hrun : item.seqId ∈ e.scheduler.runningIds :=
    hc.placed.entries item (by rw [hl]; exact List.mem_cons_self)
  refine ⟨fun id c hcall ho x hx => ?_, fun id c hcall ho => ?_, ?_⟩
  · rw [hf.calls] at hcall
    have hold := h.streaming id c hcall ((hopen id).mp ho)
    by_cases hn : id = item.seqId
    · subst hn
      rcases mem_streams_work hx with hx | ⟨token, done, rfl, rfl⟩
      · exact hold x hx
      · rw [h.below before sch item token done rest hl]
        rfl
    · rw [hf.streams id hn] at hx
      exact hold x hx
  · rw [hf.calls] at hcall
    rw [hopen] at ho
    have hn : id ≠ item.seqId := fun he => ho (.inl (List.mem_append_left _ (he ▸ hrun)))
    obtain ⟨hend, hclear⟩ := h.closed_of_onlyAt hf hn hcall ho (by rw [hl]; rfl)
    exact ⟨hend, fun t _ => hclear t⟩
  · intro before' sch' item' token done rest' he
    obtain ⟨max, rfl, hdone⟩ := work_deliver he
    rw [Bool.eq_false_iff]
    intro hd
    obtain ⟨n, hn, hle⟩ := hdone hd
    exact absurd (hask token max rfl n hn) (Nat.not_lt.mpr hle)

theorem finish [Floating F] {rest : List Nat} (h : Tidied e) (hc : Consistent e)
    (hl : e.loop = .finish seqId rest)
    (hend : ¬ StillToWrite e seqId .senders)
    (hopen : ∀ id ≠ seqId, Open e.scheduler (.remove seqId removals rest) id ↔
      Open e.scheduler e.loop id)
    (hclosed : ¬ Open e.scheduler (.remove seqId removals rest) seqId) :
    Tidied { e.deliver seqId finishToken with loop := .remove seqId removals rest } := by
  have hf := OnlyAt.delivered seqId e finishToken (.remove seqId removals rest)
  refine ⟨fun id c hcall ho x hx => ?_, fun id c hcall ho => ?_, fun _ _ _ _ _ _ he => by cases he⟩
  · rw [hf.calls] at hcall
    rw [hf.scheduler] at ho
    have hn : id ≠ seqId := fun he => hclosed (he ▸ ho)
    rw [hf.streams id hn] at hx
    exact h.streaming id c hcall ((hopen id hn).mp ho) x hx
  · rw [hf.calls] at hcall
    rw [hf.scheduler] at ho
    by_cases hn : id = seqId
    · subst hn
      -- the channel is registered, so the final token arrives
      have hwas : Open e.scheduler e.loop id := .inr (by rw [hl]; exact List.mem_cons_self)
      have hsend : e.senders id = some () :=
        hc.written id c hcall hwas .senders fun hm => hend ⟨c, hcall, hm⟩
      have hstream : (e.deliver id finishToken).streams id = e.streams id ++ [finishToken] := by
        rw [deliver_streams, if_neg (by rw [hsend]; exact fun hh => by cases hh),
          Function.update_self]
      refine ⟨⟨e.streams id, finishToken, hstream, fun hh => (by cases hh),
        h.streaming id c hcall hwas⟩, fun t hm => ?_⟩
      refine absurd ?_ hm
      cases t <;> simp [left, removals]
    · rw [hopen id hn] at ho
      obtain ⟨hend, hclear⟩ := h.closed_of_onlyAt hf hn hcall ho (by rw [hl]; rfl)
      exact ⟨hend, fun t _ => hclear t⟩

theorem remove {t : Table} {todo : List Table} {rest : List Nat} (h : Tidied e)
    (hl : e.loop = .remove seqId (t :: todo) rest)
    (hend : ¬ StillToWrite e seqId t)
    (hopen : ∀ id, Open e.scheduler (.remove seqId todo rest) id ↔ Open e.scheduler e.loop id) :
    Tidied { e.remove seqId t with loop := .remove seqId todo rest } := by
  refine ⟨fun id c hcall ho => ?_, fun id c hcall ho => ?_, fun _ _ _ _ _ _ he => by cases he⟩
  · simp only [remove_frame] at hcall ho ⊢
    exact h.streaming id c hcall ((hopen id).mp ho)
  · simp only [remove_frame] at hcall ho
    rw [hopen] at ho
    obtain ⟨hstream, hclear⟩ := h.closed id c hcall ho
    refine ⟨by simpa using hstream, fun t' ht' => ?_⟩
    show ¬ (e.remove seqId t).Holds id t' ∧ _
    by_cases hthis : id = seqId ∧ t' = t
    · obtain ⟨rfl, rfl⟩ := hthis
      exact ⟨not_holds_remove, fun hm => hend ⟨c, hcall, hm⟩⟩
    · obtain ⟨hnone, htodo⟩ := hclear t' (by
        rw [hl]
        dsimp only [left] at ht' ⊢
        split
        · rename_i he
          rw [if_pos he] at ht'
          exact fun hm => ht' ((List.mem_cons.mp hm).resolve_left fun hh => hthis ⟨he, hh⟩)
        · exact List.not_mem_nil)
      exact ⟨not_holds_remove_of hnone, htodo⟩

end Cases

theorem advance [Floating F] {e e' : SchedulerEngine F} {order : HashOrder} {draw : Draw F}
    (h : Tidied e) (hc : Consistent e) (ht : Timely e (.loop order draw))
    (hx : e.advance order draw = .ok e') : Tidied e' := by
  obtain ⟨hask, hend⟩ := ht
  dsimp only [AsksBelow, EndsAfterWrites] at hask hend
  have hopen := fun id (hno : ∀ rest, e.loop ≠ .finish id rest) => open_advance_iff hc hx hno
  have hp' := hc.placed.advance hc.booked hx
  have hholds : ∀ {s l} id t, ¬ e.Holds id t →
      ¬ Holds { e with scheduler := s, loop := l } id t := fun id t hn => by
    cases t <;> exact hn
  cases advance_ok hx with
  | top hl =>
    refine h.quiet rfl rfl hholds (fun id => hopen id fun _ he => ?_) (fun id t hm => ?_)
      (fun _ _ _ _ _ _ he => by cases he)
    · cases hl.symm.trans he
    · rw [hl] at hm
      cases hm
  | @schedule before sch s hl hs =>
    refine h.quiet rfl rfl hholds (fun id => hopen id fun _ he => ?_) (fun id t hm => ?_)
      (fun _ _ _ _ _ _ he => ?_)
    · cases hl.symm.trans he
    · rw [hl] at hm
      cases hm
    · dsimp only [startEntries] at he
      split at he
      · cases he
      · exact nextEntry_ne_deliver he
  | @entry before sch item phase rest hl =>
    rw [hl] at hask
    refine h.work hc hl (fun token max hp n hn => ?_) fun id => hopen id fun _ he => ?_
    · subst hp
      exact hask _ rfl n hn
    · cases hl.symm.trans he
  | @notify before sch hl =>
    refine h.quiet rfl rfl hholds (fun id => hopen id fun _ he => ?_) (fun id t hm => ?_)
      (fun _ _ _ _ _ _ he => by cases he)
    · cases hl.symm.trans he
    · rw [hl] at hm
      cases hm
  | @after before hl =>
    refine h.quiet rfl rfl hholds (fun id => hopen id fun _ he => ?_) (fun id t hm => ?_)
      (fun _ _ _ _ _ _ he => ?_)
    · cases hl.symm.trans he
    · rw [hl] at hm
      cases hm
    · dsimp only at he
      cases hg : before.filter fun id => id ∉ e.scheduler.runningIds <;> rw [hg] at he <;> cases he
  | @finish seqId rest hl =>
    rw [hl] at hend
    have hf := OnlyAt.delivered seqId e finishToken (.remove seqId removals rest)
    refine h.finish hc hl (hend _ rfl) (fun id hn => ?_) ?_
    · have := hopen id fun _ he => hn (Loop.finish.inj (hl.symm.trans he)).1.symm
      rwa [hf.scheduler] at this
    · rw [hf.scheduler, hf.calls] at hp'
      exact hp'.not_open_of_remove
  | @removed seqId rest hl =>
    refine h.quiet rfl rfl hholds (fun id => hopen id fun _ he => ?_) (fun id t hm => ?_)
      (fun _ _ _ _ _ _ he => ?_)
    · cases hl.symm.trans he
    · rw [hl] at hm
      simp [left] at hm
    · cases rest <;> cases he
  | @remove seqId t todo rest hl =>
    rw [hl] at hend
    refine h.remove hl (hend _ rfl) fun id => ?_
    have := hopen id fun _ he => by cases hl.symm.trans he
    simpa only [remove_frame] using this

end Tidied

theorem Tidied.step [Floating F] {e e' : SchedulerEngine F} {m : Move F} (h : Tidied e)
    (hc : Consistent e) (ht : Timely e m) (hx : Step e m e') : Tidied e' := by
  cases m with
  | generate registry modelName prompt params => exact h.generate hc (mapError_eq_ok.mp hx)
  | register seqId => exact h.register hx
  | loop order draw => exact h.advance hc ht (mapError_eq_ok.mp hx)

/-- **Streams end exactly once.** In every interleaving of calls with the loop in which
`is_seq_done` is asked only about sequences below their limit and the clean-up of a
sequence finds the tables written, every request that has left the scheduler and the
loop has received one token with a finish reason, as the last, and is in no table. -/
theorem streams_end_once [Floating F] (config : SchedulerConfig) (numBlocks : Nat)
    (tr : List (Move F × SchedulerEngine F)) (hrun : Along Step (fresh config numBlocks) tr)
    (htimely : Along (fun e m _ => Timely e m) (fresh config numBlocks) tr) :
    ∀ e ∈ visited (fresh config numBlocks) tr, EndsOnce e := by
  intro e he
  have hinv := Along.invariant (I := fun e : SchedulerEngine F => Consistent e ∧ Tidied e)
    (fun _ _ _ hi hq => ⟨hi.1.step hq.1, hi.2.step hi.1 hq.2 hq.1⟩)
    ⟨consistent_fresh config numBlocks, tidied_fresh config numBlocks⟩ (hrun.and htimely) e he
  exact hinv.2.endsOnce

section Witness

instance (e : SchedulerEngine F) (id : Nat) (t : Table) : Decidable (StillToWrite e id t) :=
  inferInstanceAs (Decidable (∃ c ∈ e.calls id, t ∈ c.todo))

instance (e : SchedulerEngine F) : ∀ m : Move F, Decidable (Timely e m)
  | .loop _ _ => inferInstanceAs (Decidable (
      (∀ x ∈ asking e.loop, ∀ n ∈ e.scheduler.runningSeqGenerated x.1, n < x.2) ∧
        ∀ x ∈ ending e.loop, ¬ StillToWrite e x.1 x.2))
  | .generate _ _ _ _ => .isTrue ⟨trivial, trivial⟩
  | .register _ => .isTrue ⟨trivial, trivial⟩

/-- A model that always prefers token 1. -/
def onlyOne : Registry Rat := fun _ => some (.ofTotal fun _ => [0, 1])

def ask (prompt : List Token) (maxTokens : Nat) : Move Rat :=
  .generate onlyOne "m" prompt ⟨maxTokens, 0, 1, 0, []⟩

/-- So many moves of the loop. -/
def spin (n : Nat) : List (Move Rat) := List.replicate n (.loop .listed ⟨[], 0⟩)

/-- Two requests; the loop starts on them before the second call has returned. -/
def twoRequests : List (Move Rat) :=
  [ask [1, 2] 1, .register 1, ask [3] 2, .register 2, .register 1, .register 1, .register 1] ++
    spin 8 ++ [.register 2, .register 2] ++ spin 16 ++ [.register 2] ++ spin 42

theorem streams_end_once_two_requests :
    let tr := replay exec (fresh .default 8) twoRequests
    let e := final exec (fresh .default 8) twoRequests
    tr.length = 76 ∧ Along (fun e m _ => Timely e m) (fresh .default 8) tr ∧
      [1, 2].map (fun id => (e.streams id).map GeneratedToken.finishReason) =
        [[none, some .length], [none, none, some .length]] ∧ EndsOnce e :=
  ⟨by decide +kernel, by decide +kernel, by decide +kernel,
    streams_end_once .default 8 _ (along_replay exec _ _) (by decide +kernel) _
      (final_mem_visited exec _ _)⟩

/-- A stream that has ended has one token with a finish reason. -/
theorem Ended.countP {stream : List (GeneratedToken F)} (h : Ended stream) :
    stream.countP (fun x => x.finishReason.isSome) = 1 := by
  obtain ⟨init, last, rfl, hlast, hinit⟩ := h
  have hnone : init.countP (fun x => x.finishReason.isSome) = 0 :=
    List.countP_eq_zero.mpr fun x hx => by simp [hinit x hx]
  rw [List.countP_append, hnone, List.countP_singleton]
  simpa [Option.isSome_iff_ne_none] using hlast

/-- A request for no tokens is sent its prompt's token with a finish reason, and the
final token besides; a call that the loop overtakes is never sent a final token and
leaves its entries behind. -/
theorem streams_end_wrongly :
    ¬ EndsOnce (final exec (fresh .default 8)
      ([ask [1, 2] 0] ++ List.replicate 4 (.register 1) ++ spin 21)) ∧
    ¬ EndsOnce (final exec (fresh .default 8)
      ([ask [1, 2] 1] ++ spin 16 ++ List.replicate 4 (.register 1))) := by
  constructor
  · intro h
    have := (h 1 ⟨by decide +kernel, by decide +kernel, by decide +kernel⟩).1.countP
    exact absurd this (by decide +kernel)
  · intro h
    have := (h 1 ⟨by decide +kernel, by decide +kernel, by decide +kernel⟩).1.countP
    exact absurd this (by decide +kernel)

end Witness

/-! ## Requests for at least one token -/

/-- A call that asks for at least one token, as many as a `usize` holds. -/
def AsksForSome : Move F → Prop
  | .generate _ _ _ params => 1 ≤ params.maxTokens ∧ params.maxTokens < 2 ^ 64
  | _ => True

/-- While the loop works on a schedule, every sequence of the batch is below its limit. -/
structure Below (e : SchedulerEngine F) : Prop where
  asked : ∀ id c, e.calls id = some c → 1 ≤ c.params.maxTokens ∧ c.params.maxTokens < 2 ^ 64
  limits : ∀ id m, e.seqMaxTokens id = some m → ∃ c, e.calls id = some c ∧ m = c.params.maxTokens
  running : e.loop.entries ≠ [] → ∀ r ∈ e.scheduler.running, r.numGenerated < r.params.maxTokens
  generated : ∀ before sch item token max rest,
    e.loop = .entry before sch item (.generated token max) rest →
      ∀ r ∈ e.scheduler.running, r.seq.id = item.seqId → r.numGenerated < max

theorem nextEntry_ne_generated {before before' : List Nat} {sch sch' : Schedule}
    {items rest : List Item} {item : Item} {token : Token} {max : Nat} :
    nextEntry (F := F) before sch items ≠ .entry before' sch' item (.generated token max) rest := by
  cases items <;> exact fun h => nomatch h

/-- The count is read after the limit. -/
theorem work_generated [Floating F] {e : SchedulerEngine F} {draw : Draw F}
    {before before' : List Nat} {sch sch' : Schedule} {item item' : Item} {rest rest' : List Item}
    {phase : Phase F} {token : Token} {max : Nat}
    (h : (e.work draw before sch item rest phase).loop =
      .entry before' sch' item' (.generated token max) rest') :
    item' = item ∧ max = (e.seqMaxTokens item.seqId).getD (2 ^ 64 - 1) := by
  cases phase with
  | limit token' =>
    simp only [work, work.go, Loop.entry.injEq, Phase.generated.injEq] at h
    obtain ⟨-, -, rfl, ⟨-, rfl⟩, -⟩ := h
    exact ⟨rfl, rfl⟩
  | model params =>
    simp only [work] at h
    split at h
    · exact absurd h nextEntry_ne_generated
    · split at h <;> cases h
  | context params model =>
    simp only [work] at h
    split at h
    · exact absurd h nextEntry_ne_generated
    · split at h
      · exact absurd h nextEntry_ne_generated
      · split at h <;> cases h
  | deliver token' done => exact absurd h nextEntry_ne_generated
  | _ => cases h

namespace Below

variable {e e' : SchedulerEngine F}

/-- The loop is not at work on a schedule after the step. -/
theorem idle (h : Below e) (hcalls : e'.calls = e.calls)
    (hlimits : ∀ id m, e'.seqMaxTokens id = some m → e.seqMaxTokens id = some m)
    (hidle : e'.loop.entries = []) : Below e' where
  asked id c hcall := h.asked id c (hcalls ▸ hcall)
  limits id m hm := hcalls ▸ h.limits id m (hlimits id m hm)
  running hne := absurd hidle hne
  generated before sch item token max rest hl := by
    rw [hl] at hidle
    cases hidle

theorem advance [Floating F] {order : HashOrder} {draw : Draw F} (h : Below e) (hc : Consistent e)
    (hx : e.advance order draw = .ok e') : Below e' := by
  cases advance_ok hx with
  | top hl =>
    exact h.idle rfl (fun _ _ hm => hm) rfl
  | @schedule before sch s hl hs =>
    refine ⟨h.asked, h.limits, fun _ r' hr' => ?_, fun _ _ _ _ _ _ he => ?_⟩
    · rcases schedule_origin hs hr' with ⟨r, hr, hfin, hp⟩ | ⟨req, hreq, r, hb, hp⟩
      · rw [hp.numGenerated, hp.params]
        exact Nat.lt_of_not_le fun hle => by simp [finished, hle] at hfin
      · obtain ⟨seq, n, -, -, rfl⟩ := hb
        obtain ⟨c, hcall, -, hpar⟩ := hc.booked.waiting req hreq
        rw [hp.numGenerated, hp.params]
        show 0 < req.samplingParams.maxTokens
        rw [hpar]
        exact (h.asked _ c hcall).1
    · dsimp only [startEntries] at he
      split at he
      · cases he
      · exact absurd he nextEntry_ne_generated
  | @entry before sch item phase rest hl =>
    have hf := e.work_onlyAt draw before sch item rest phase
    have hbusy := h.running (by rw [hl]; exact List.cons_ne_nil _ _)
    refine ⟨?_, ?_, fun _ => ?_, ?_⟩
    · rw [hf.calls]
      exact h.asked
    · rw [hf.seqMaxTokens, hf.calls]
      exact h.limits
    · rw [hf.scheduler]
      exact hbusy
    · intro before' sch' item' token max rest' he r hr hid
      rw [hf.scheduler] at hr
      obtain ⟨rfl, rfl⟩ := work_generated he
      have hlt := hbusy r hr
      obtain ⟨c, hcall, -, hpar⟩ := hc.booked.running r hr
      have hsmall := (h.asked _ c hcall).2
      rw [hpar] at hlt
      cases hm : e.seqMaxTokens item'.seqId with
      | none =>
        rw [Option.getD_none]
        omega
      | some m =>
        obtain ⟨d, hd, rfl⟩ := h.limits _ m hm
        rw [← hid, hcall] at hd
        cases hd
        exact hlt
  | @notify before sch hl =>
    exact h.idle rfl (fun _ _ hm => hm) rfl
  | @after before hl =>
    exact h.idle rfl (fun _ _ hm => hm) (by simp)
  | @finish seqId rest hl =>
    have hf := OnlyAt.delivered seqId e finishToken (.remove seqId removals rest)
    exact h.idle hf.calls (fun _ _ hm => hf.seqMaxTokens ▸ hm) rfl
  | @removed seqId rest hl =>
    exact h.idle rfl (fun _ _ hm => hm) (by simp)
  | @remove seqId t todo rest hl =>
    refine h.idle (remove_frame e seqId t).2.1 (fun id m hm => ?_) rfl
    by_cases hid : id = seqId
    · cases t with
      | maxTokens =>
        change update e.seqMaxTokens seqId none id = some m at hm
        rw [hid, Function.update_self] at hm
        cases hm
      | _ => exact hm
    · cases t with
      | maxTokens => exact (Function.update_of_ne hid _ _).symm.trans hm
      | _ => exact hm

theorem generate {registry : Registry F} {modelName : String} {prompt : List Token}
    {params : SamplingParams F} (h : Below e) (hc : Consistent e)
    (hm : 1 ≤ params.maxTokens ∧ params.maxTokens < 2 ^ 64)
    (hx : e.generate registry modelName prompt params = .ok e') : Below e' := by
  obtain ⟨model, -, rfl⟩ := generate_ok hx
  refine ⟨fun id c hcall => ?_, fun id k hk => ?_, h.running, h.generated⟩
  · dsimp only at hcall
    by_cases hn : id = e.scheduler.nextSeqId
    · rw [hn, Function.update_self] at hcall
      cases hcall
      exact hm
    · rw [Function.update_of_ne hn] at hcall
      exact h.asked id c hcall
  · obtain ⟨c, hcall, rfl⟩ := h.limits id k hk
    refine ⟨c, ?_, rfl⟩
    dsimp only
    rw [Function.update_of_ne (Nat.ne_of_lt (hc.booked.issued id c hcall))]
    exact hcall

/-- A limit in the table after a call has written is an old one or its own. -/
theorem limit_insert {seqId id : Nat} {c : Call F} {t : Table} {k : Nat}
    (hk : (e.insert seqId c t).seqMaxTokens id = some k) :
    e.seqMaxTokens id = some k ∨ id = seqId ∧ k = c.params.maxTokens := by
  cases t with
  | maxTokens =>
    change update e.seqMaxTokens seqId (some c.params.maxTokens) id = some k at hk
    by_cases hn : id = seqId
    · rw [hn, Function.update_self] at hk
      cases hk
      exact .inr ⟨hn, rfl⟩
    · rw [Function.update_of_ne hn] at hk
      exact .inl hk
  | _ => exact .inl hk

theorem register [Floating F] {seqId : Nat} (h : Below e) (hx : exec e (.register seqId) = .ok e') :
    Below e' := by
  obtain ⟨c, t, todo, hcall, -, rfl⟩ := register_ok hx
  -- what a call asked for does not change
  have hparams : ∀ id, (update e.calls seqId (some { c with todo := todo }) id).map Call.params =
      (e.calls id).map Call.params := by
    intro id
    by_cases hn : id = seqId
    · subst hn
      rw [Function.update_self, hcall]
      rfl
    · rw [Function.update_of_ne hn]
  have hback : ∀ id d, e.calls id = some d →
      ∃ d', update e.calls seqId (some { c with todo := todo }) id = some d' ∧
        d'.params = d.params := by
    intro id d hd
    have hpar := hparams id
    rw [hd] at hpar
    exact Option.map_eq_some_iff.mp hpar
  refine ⟨fun id d hd => ?_, fun id k hk => ?_, ?_, ?_⟩
  · have hpar := hparams id
    rw [show update e.calls seqId (some { c with todo := todo }) id = some d from hd] at hpar
    obtain ⟨d', hd', heq⟩ := Option.map_eq_some_iff.mp hpar.symm
    rw [← heq]
    exact h.asked id d' hd'
  · rcases limit_insert hk with hk | ⟨rfl, rfl⟩
    · obtain ⟨d, hd, rfl⟩ := h.limits id k hk
      obtain ⟨d', hd', hpar⟩ := hback id d hd
      exact ⟨d', hd', by rw [hpar]⟩
    · obtain ⟨d', hd', hpar⟩ := hback id c hcall
      exact ⟨d', hd', by rw [hpar]⟩
  · simp only [insert_frame]
    exact h.running
  · simp only [insert_frame]
    exact h.generated

theorem step [Floating F] {m : Move F} (h : Below e) (hc : Consistent e) (hm : AsksForSome m)
    (hx : Step e m e') : Below e' := by
  cases m with
  | generate registry modelName prompt params => exact h.generate hc hm (mapError_eq_ok.mp hx)
  | register seqId => exact h.register hx
  | loop order draw => exact h.advance hc (mapError_eq_ok.mp hx)

/-- Where every request asks for at least one token, `is_seq_done` is never true. -/
theorem timely_iff (h : Below e) (m : Move F) : Timely e m ↔ EndsAfterWrites e m := by
  refine and_iff_right ?_
  cases m with
  | loop order draw =>
    intro x hx n hn
    unfold asking at hx
    split at hx
    · rename_i before sch item token max rest hl
      cases hx
      obtain ⟨r, hr, rfl⟩ := Option.map_eq_some_iff.mp hn
      refine h.generated before sch item token max rest hl r (List.mem_of_find?_eq_some hr) ?_
      simpa using List.find?_some hr
    · cases hx
  | _ => trivial

end Below

/-- When every request asks for at least one token, only the order of the end of a
sequence and the writes of its call matters. -/
theorem timely_of_positive [Floating F] (config : SchedulerConfig) (numBlocks : Nat)
    (tr : List (Move F × SchedulerEngine F)) (hrun : Along Step (fresh config numBlocks) tr)
    (hasks : Along (fun _ m _ => AsksForSome m) (fresh config numBlocks) tr) :
    Along (fun e m _ => Timely e m) (fresh config numBlocks) tr ↔
      Along (fun e m _ => EndsAfterWrites e m) (fresh config numBlocks) tr := by
  refine Along.congr_of_invariant (I := fun e : SchedulerEngine F => Consistent e ∧ Below e)
    (fun e m e' hi hq => ⟨⟨hi.1.step hq.1, hi.2.step hi.1 hq.2 hq.1⟩, hi.2.timely_iff m⟩)
    ⟨consistent_fresh config numBlocks, ?_⟩ (hrun.and hasks)
  exact ⟨fun _ _ hc => (nomatch hc), fun _ _ hm => (nomatch hm), fun hne => absurd rfl hne,
    fun _ _ _ _ _ _ hl => (nomatch hl)⟩

end JustApi.Inference.StreamEnds
