import JustApi.Lib.Run
import JustApi.Inference.HandoffFrame
import JustApi.Inference.Serving

/-! # What holds between the calls, the loop and the scheduler

Whatever the interleaving, the scheduler's sequences are those the calls asked for,
the loop works only on sequences that run and cleans up only after sequences that
have left, and what a call has written stays in its table until the clean-up. -/
namespace JustApi.Inference.Serving
open JustApi.Lib.Run JustApi.Lib.Result
open JustApi.Inference.KvCache JustApi.Inference.RadixCache JustApi.Inference.LanguageModel
open JustApi.Inference.Scheduling JustApi.Inference.Scheduling.Scheduler
open JustApi.Inference.FifoService (line waitingIds exec_keepsOrder)
open JustApi.Inference.Handoff (Numbered)
open JustApi.Inference.SpecDecode (Floating)
open Function (update)

variable {F : Type}

/-! ## The line of the scheduler -/

section Line

variable {s t : Scheduler F} {order : HashOrder} {sch : Schedule}

/-- A scheduling step takes only running sequences out of the line, and nobody joins
the queue. -/
theorem schedule_line (h : s.schedule order = .ok (sch, t)) :
    line t ⊆ line s ∧ (∀ id ∈ line s, id ∈ line t ∨ id ∈ s.runningIds) ∧
      waitingIds t ⊆ waitingIds s := by
  obtain ⟨ids, hw, hr⟩ := exec_keepsOrder
    (show Scheduling.exec s (.schedule order) = .ok t from map_eq_ok.mpr ⟨_, h, rfl⟩)
  refine ⟨fun id hid => ?_, fun id hid => ?_, fun id hid => ?_⟩
  · rw [line, hr, List.append_assoc, ← hw] at hid
    exact ((List.filter_sublist.map _).append_right _).subset hid
  · rcases List.mem_append.mp hid with hid | hid
    · exact .inr hid
    · rw [line, hr, List.append_assoc, ← hw]
      exact .inl (List.mem_append_right _ hid)
  · rw [hw]
    exact List.mem_append_right _ hid

theorem answer_waitQueue (s : Scheduler F) (ids : List Nat) :
    (s.answer ids).waitQueue = s.waitQueue := by
  rw [answer_eq]

theorem answer_nextSeqId (s : Scheduler F) (ids : List Nat) :
    (s.answer ids).nextSeqId = s.nextSeqId := by
  rw [answer_eq]

theorem waitingIds_answer (s : Scheduler F) (ids : List Nat) :
    waitingIds (s.answer ids) = waitingIds s := by
  rw [waitingIds, answer_waitQueue]
  rfl

theorem line_answer (s : Scheduler F) (ids : List Nat) : line (s.answer ids) = line s := by
  rw [line, answer_ids, waitingIds_answer]
  rfl

/-- A member of the batch after a scheduling step ran before it or waited. -/
theorem schedule_origin {r' : RunningSeq F} (h : s.schedule order = .ok (sch, t))
    (hr' : r' ∈ t.running) :
    (∃ r ∈ s.running, finished s.config r = false ∧ Passed r r') ∨
      ∃ req ∈ s.waitQueue, ∃ r, Became req r ∧ Passed r r' := by
  obtain ⟨reqs, hq, hall, hfed, -⟩ := schedule_batch h
  obtain ⟨r, hr, hp⟩ := exists_of_passed hfed.passed hr'
  rcases List.mem_append.mp hr with hr | hr
  · obtain ⟨hr, hfin⟩ := List.mem_filter.mp hr
    exact .inl ⟨r, hr, by simpa using hfin, hp⟩
  · obtain ⟨req, hreq, hb⟩ := became_of_mem hall hr
    refine .inr ⟨req, ?_, r, hb, hp⟩
    rw [hq]
    exact List.mem_append_left _ hreq

/-- Who is not finished stays in the batch. -/
theorem schedule_keeps {r : RunningSeq F} (h : s.schedule order = .ok (sch, t)) (hr : r ∈ s.running)
    (hfin : finished s.config r = false) : r.seq.id ∈ t.runningIds := by
  obtain ⟨-, -, -, hfed, -⟩ := schedule_batch h
  rw [runningIds, hfed.ids, List.map_append]
  have hkept : r ∈ s.running.filter fun r => !finished s.config r :=
    List.mem_filter.mpr ⟨hr, by rw [hfin]; rfl⟩
  exact List.mem_append_left _ (List.mem_map_of_mem hkept)

end Line

/-! ## Sequences and calls -/

/-- Every sequence of the scheduler is what a call asked for. -/
structure Booked (s : Scheduler F) (calls : Nat → Option (Call F)) : Prop where
  numbered : Numbered s
  running : ∀ r ∈ s.running, ∃ c, calls r.seq.id = some c ∧ r.prompt = c.prompt ∧ r.params = c.params
  waiting : ∀ q ∈ s.waitQueue, ∃ c, calls q.id = some c ∧ q.prompt = c.prompt ∧
    q.samplingParams = c.params
  issued : ∀ id c, calls id = some c → id < s.nextSeqId

namespace Booked

variable {s t : Scheduler F} {calls : Nat → Option (Call F)}

theorem schedule {order : HashOrder} {sch : Schedule} (hb : Booked s calls)
    (h : s.schedule order = .ok (sch, t)) : Booked t calls := by
  obtain ⟨reqs, hq, -, -, -, hnext⟩ := schedule_batch h
  refine ⟨hb.numbered.schedule h, fun r' hr' => ?_, fun q hm => ?_, ?_⟩
  · rcases schedule_origin h hr' with ⟨r, hr, -, hp⟩ | ⟨req, hreq, r, hbec, hp⟩
    · rw [hp.seq, hp.prompt, hp.params]
      exact hb.running r hr
    · obtain ⟨seq, n, hid, -, rfl⟩ := hbec
      rw [hp.seq, hp.prompt, hp.params]
      show ∃ c, calls seq.id = some c ∧ req.prompt = c.prompt ∧ req.samplingParams = c.params
      rw [hid]
      exact hb.waiting req hreq
  · refine hb.waiting q ?_
    rw [hq]
    exact List.mem_append_right _ hm
  · rw [hnext]
    exact hb.issued

theorem answer (hb : Booked s calls) (ids : List Nat) : Booked (s.answer ids) calls := by
  refine ⟨⟨?_, ?_⟩, fun r hr => ?_, ?_, ?_⟩
  · rw [line_answer]
    exact hb.numbered.nodup
  · rw [line_answer, answer_nextSeqId]
    exact hb.numbered.bounded
  · have hmem := List.mem_map_of_mem (f := fun r : RunningSeq F => (r.seq.id, r.prompt, r.params)) hr
    rw [answer_map s ids fun _ _ => rfl] at hmem
    obtain ⟨q, hq, he⟩ := List.mem_map.mp hmem
    simp only [Prod.mk.injEq] at he
    rw [← he.1, ← he.2.1, ← he.2.2]
    exact hb.running q hq
  · rw [answer_waitQueue]
    exact hb.waiting
  · rw [answer_nextSeqId]
    exact hb.issued

theorem unissued (hb : Booked s calls) : calls s.nextSeqId = none := by
  cases hc : calls s.nextSeqId with
  | none => rfl
  | some c => exact absurd (hb.issued _ c hc) (Nat.lt_irrefl _)

theorem addRequest (hb : Booked s calls) (model : Model F) (prompt : List Token)
    (params : SamplingParams F) (todo : List Table) :
    Booked (s.addRequest ⟨0, prompt, params, 0, []⟩).2
      (update calls s.nextSeqId (some ⟨model, prompt, params, todo⟩)) := by
  have hold : ∀ id c, calls id = some c →
      update calls s.nextSeqId (some ⟨model, prompt, params, todo⟩) id = some c := by
    intro id c hc
    rw [Function.update_of_ne (Nat.ne_of_lt (hb.issued id c hc))]
    exact hc
  refine ⟨hb.numbered.addRequest _, fun r hr => ?_, fun q hq => ?_, fun id c hc => ?_⟩
  · obtain ⟨c, hc, hpc⟩ := hb.running r hr
    exact ⟨c, hold _ c hc, hpc⟩
  · rcases List.mem_append.mp hq with hq | hq
    · obtain ⟨c, hc, hpc⟩ := hb.waiting q hq
      exact ⟨c, hold _ c hc, hpc⟩
    · rw [List.mem_singleton.mp hq]
      exact ⟨_, Function.update_self _ _ _, rfl, rfl⟩
  · show id < s.nextSeqId + 1
    by_cases hid : id = s.nextSeqId
    · omega
    · rw [Function.update_of_ne hid] at hc
      exact Nat.lt_succ_of_lt (hb.issued id c hc)

/-- A call goes on. -/
theorem goOn {id : Nat} {c : Call F} (hb : Booked s calls) (hc : calls id = some c)
    (todo : List Table) : Booked s (update calls id (some { c with todo := todo })) := by
  have hnew : ∀ x d, calls x = some d →
      ∃ d', update calls id (some { c with todo := todo }) x = some d' ∧
      d'.prompt = d.prompt ∧ d'.params = d.params := by
    intro x d hd
    by_cases hx : x = id
    · subst hx
      cases hc.symm.trans hd
      exact ⟨_, Function.update_self _ _ _, rfl, rfl⟩
    · exact ⟨d, by rw [Function.update_of_ne hx]; exact hd, rfl, rfl⟩
  refine ⟨hb.numbered, fun r hr => ?_, fun q hq => ?_, fun x d hd => ?_⟩
  · obtain ⟨d, hd, hp, hpar⟩ := hb.running r hr
    obtain ⟨d', hd', hp', hpar'⟩ := hnew _ d hd
    exact ⟨d', hd', hp.trans hp'.symm, hpar.trans hpar'.symm⟩
  · obtain ⟨d, hd, hp, hpar⟩ := hb.waiting q hq
    obtain ⟨d', hd', hp', hpar'⟩ := hnew _ d hd
    exact ⟨d', hd', hp.trans hp'.symm, hpar.trans hpar'.symm⟩
  · by_cases hx : x = id
    · rw [hx]
      exact hb.issued id c hc
    · rw [Function.update_of_ne hx] at hd
      exact hb.issued x d hd

end Booked

/-! ## The position of the loop -/

namespace Loop

/-- The sequences this iteration may still have to clean up after. -/
def pending : Loop F → List Nat
  | .top => []
  | .schedule before => before
  | .entry before _ _ _ _ => before
  | .notify before _ => before
  | .after before => before
  | .finish seqId rest => seqId :: rest
  | .remove seqId _ rest => seqId :: rest

/-- Those of them whose final token has not been sent. -/
def unfinished : Loop F → List Nat
  | .remove _ _ rest => rest
  | l => l.pending

/-- The sequences found to have left the batch. -/
def gone : Loop F → List Nat
  | .finish seqId rest => seqId :: rest
  | .remove seqId _ rest => seqId :: rest
  | _ => []

/-- The entries of the schedule that are not done. -/
def entries : Loop F → List Item
  | .entry _ _ item _ rest => item :: rest
  | _ => []

theorem unfinished_subset (l : Loop F) : l.unfinished ⊆ l.pending := by
  cases l with
  | remove seqId todo rest => exact List.subset_cons_self _ _
  | _ => exact List.Subset.refl _

end Loop

section Positions

variable (before : List Nat) (sch : Schedule)

@[simp] theorem nextEntry_pending (items : List Item) :
    (SchedulerEngine.nextEntry (F := F) before sch items).pending = before ∧
      (SchedulerEngine.nextEntry (F := F) before sch items).unfinished = before ∧
      (SchedulerEngine.nextEntry (F := F) before sch items).gone = [] ∧
      (SchedulerEngine.nextEntry (F := F) before sch items).entries = items := by
  cases items with
  | nil => exact ⟨rfl, rfl, rfl, rfl⟩
  | cons item rest => exact ⟨rfl, rfl, rfl, rfl⟩

@[simp] theorem startEntries_pending :
    (SchedulerEngine.startEntries (F := F) before sch).pending = before ∧
      (SchedulerEngine.startEntries (F := F) before sch).unfinished = before ∧
      (SchedulerEngine.startEntries (F := F) before sch).gone = [] ∧
      (SchedulerEngine.startEntries (F := F) before sch).entries = SchedulerEngine.items sch := by
  unfold SchedulerEngine.startEntries
  split
  · rename_i hempty
    rw [Bool.and_eq_true, List.isEmpty_iff, List.isEmpty_iff] at hempty
    refine ⟨rfl, rfl, rfl, ?_⟩
    simp [SchedulerEngine.items, hempty.1, hempty.2, Loop.entries]
  · exact nextEntry_pending before sch _

@[simp] theorem nextGone_pending (rest : List Nat) :
    (SchedulerEngine.nextGone (F := F) rest).pending = rest ∧
      (SchedulerEngine.nextGone (F := F) rest).unfinished = rest ∧
      (SchedulerEngine.nextGone (F := F) rest).gone = rest ∧
      (SchedulerEngine.nextGone (F := F) rest).entries = [] := by
  cases rest with
  | nil => exact ⟨rfl, rfl, rfl, rfl⟩
  | cons seqId rest => exact ⟨rfl, rfl, rfl, rfl⟩

theorem items_seqId : (SchedulerEngine.items sch).map Item.seqId = listed sch := by
  simp [SchedulerEngine.items, listed, Item.seqId, Function.comp_def]

end Positions

/-- The loop is where the scheduler's batch and queue say it can be. -/
structure Placed (s : Scheduler F) (calls : Nat → Option (Call F)) (l : Loop F) : Prop where
  nodup : l.pending.Nodup
  asked : ∀ id ∈ l.pending, calls id ≠ none
  notWaiting : ∀ id ∈ l.pending, id ∉ waitingIds s
  gone : ∀ id ∈ l.gone, id ∉ s.runningIds
  before : ∀ before, l = .schedule before → before = s.runningIds
  entries : ∀ x ∈ l.entries, x.seqId ∈ s.runningIds

namespace Placed

variable {s t : Scheduler F} {calls : Nat → Option (Call F)} {l l' : Loop F}

/-- The loop goes on within its iteration. -/
theorem goOn (h : Placed s calls l) (hsub : l'.pending.Sublist l.pending)
    (hbatch : t.runningIds = s.runningIds) (hqueue : waitingIds t = waitingIds s)
    (hgone : ∀ id ∈ l'.gone, id ∉ s.runningIds) (hno : ∀ before, l' ≠ .schedule before)
    (hentries : l'.entries ⊆ l.entries) : Placed t calls l' where
  nodup := h.nodup.sublist hsub
  asked id hid := h.asked id (hsub.subset hid)
  notWaiting id hid := hqueue ▸ h.notWaiting id (hsub.subset hid)
  gone := hbatch ▸ hgone
  before b hb := absurd hb (hno b)
  entries x hx := hbatch ▸ h.entries x (hentries hx)

theorem addRequest (h : Placed s calls l) (hb : Booked s calls) (req : NewRequest F) (c : Call F) :
    Placed (s.addRequest req).2 (update calls s.nextSeqId (some c)) l where
  nodup := h.nodup
  asked id hid := by
    by_cases hn : id = s.nextSeqId
    · rw [hn, Function.update_self]
      exact fun hc => nomatch hc
    · rw [Function.update_of_ne hn]
      exact h.asked id hid
  notWaiting id hid hm := by
    rw [waitingIds, Scheduler.addRequest, List.map_append] at hm
    rcases List.mem_append.mp hm with hm | hm
    · exact h.notWaiting id hid hm
    · have : id = s.nextSeqId := by simpa using hm
      rw [this] at hid
      exact h.asked _ hid hb.unissued
  gone := h.gone
  before := h.before
  entries := h.entries

theorem more {calls' : Nat → Option (Call F)} (h : Placed s calls l)
    (hc : ∀ id, calls id ≠ none → calls' id ≠ none) : Placed s calls' l :=
  { h with asked := fun id hid => hc id (h.asked id hid) }

end Placed

/-! ## The tables -/

namespace SchedulerEngine

/-- The table has what the call writes to it. The context is not a call's. -/
def Has (e : SchedulerEngine F) (id : Nat) (c : Call F) : Table → Prop
  | .senders => e.senders id = some ()
  | .model => e.seqModel id = some c.model
  | .context => True
  | .maxTokens => e.seqMaxTokens id = some c.params.maxTokens
  | .params => e.seqParams id = some c.params

/-- The table has an entry under the id. -/
def Holds (e : SchedulerEngine F) (id : Nat) : Table → Prop
  | .senders => e.senders id ≠ none
  | .model => e.seqModel id ≠ none
  | .context => e.seqContext id ≠ none
  | .maxTokens => e.seqMaxTokens id ≠ none
  | .params => e.seqParams id ≠ none

section Tables

variable (e : SchedulerEngine F) (id : Nat) (c : Call F) (t : Table) (x : GeneratedToken F)

@[simp] theorem insert_frame : (e.insert id c t).scheduler = e.scheduler ∧
    (e.insert id c t).calls = e.calls ∧ (e.insert id c t).loop = e.loop ∧
    (e.insert id c t).streams = e.streams ∧ (e.insert id c t).seqContext = e.seqContext := by
  cases t <;> exact ⟨rfl, rfl, rfl, rfl, rfl⟩

@[simp] theorem remove_frame : (e.remove id t).scheduler = e.scheduler ∧
    (e.remove id t).calls = e.calls ∧ (e.remove id t).loop = e.loop ∧
    (e.remove id t).streams = e.streams := by
  cases t <;> exact ⟨rfl, rfl, rfl, rfl⟩

@[simp] theorem deliver_frame : (e.deliver id x).scheduler = e.scheduler ∧
    (e.deliver id x).calls = e.calls ∧ (e.deliver id x).loop = e.loop ∧
    (e.deliver id x).senders = e.senders ∧ (e.deliver id x).seqModel = e.seqModel ∧
    (e.deliver id x).seqContext = e.seqContext ∧ (e.deliver id x).seqMaxTokens = e.seqMaxTokens ∧
    (e.deliver id x).seqParams = e.seqParams := by
  unfold deliver
  split <;> exact ⟨rfl, rfl, rfl, rfl, rfl, rfl, rfl, rfl⟩

theorem deliver_streams : (e.deliver id x).streams =
    if e.senders id = none then e.streams else update e.streams id (e.streams id ++ [x]) := by
  unfold deliver
  cases e.senders id <;> rfl

variable {e id c t}

theorem has_insert : (e.insert id c t).Has id c t := by
  cases t with
  | context => trivial
  | _ => exact Function.update_self _ _ _

/-- How far the calls are does not show in the tables. -/
@[simp] theorem has_calls {calls : Nat → Option (Call F)} :
    Has { e with calls := calls } id c t = Has e id c t := by
  cases t <;> rfl

@[simp] theorem has_todo {todo : List Table} :
    Has e id { c with todo := todo } t = Has e id c t := by
  cases t <;> rfl

@[simp] theorem holds_calls {calls : Nat → Option (Call F)} :
    Holds { e with calls := calls } id t = Holds e id t := by
  cases t <;> rfl

theorem Has.insert {id' : Nat} {c' : Call F} {t' : Table} (h : e.Has id' c' t')
    (hne : id' ≠ id ∨ t' ≠ t) : (e.insert id c t).Has id' c' t' := by
  by_cases hid : id' = id
  · cases t <;> cases t' <;> first
      | exact h
      | exact absurd rfl (hne.resolve_left (not_not.mpr hid))
  · cases t <;> cases t' <;> first
      | exact h
      | exact (Function.update_of_ne hid _ _).trans h

theorem Has.remove {id' : Nat} {c' : Call F} {t' : Table} (h : e.Has id' c' t')
    (hid : id' ≠ id) : (e.remove id t).Has id' c' t' := by
  cases t <;> cases t' <;> first
    | exact h
    | exact (Function.update_of_ne hid _ _).trans h

theorem not_holds_remove : ¬ (e.remove id t).Holds id t := by
  cases t <;> exact fun h => h (Function.update_self _ _ _)

theorem not_holds_remove_of {id' : Nat} {t' : Table} (h : ¬ e.Holds id' t') :
    ¬ (e.remove id t).Holds id' t' := by
  by_cases hid : id' = id
  · subst hid
    cases t <;> cases t' <;> first
      | exact h
      | exact fun hh => hh (Function.update_self _ _ _)
  · cases t <;> cases t' <;> first
      | exact h
      | exact fun hh => h fun he => hh ((Function.update_of_ne hid _ _).trans he)

theorem not_holds_insert {id' : Nat} {t' : Table} (h : ¬ e.Holds id' t')
    (hne : id' ≠ id ∨ t' ≠ t) : ¬ (e.insert id c t).Holds id' t' := by
  by_cases hid : id' = id
  · cases t <;> cases t' <;> first
      | exact h
      | exact absurd rfl (hne.resolve_left (not_not.mpr hid))
  · cases t <;> cases t' <;> first
      | exact h
      | exact fun hh => h fun he => hh ((Function.update_of_ne hid _ _).trans he)

end Tables

/-! ## The loop's work on an entry -/

/-- Nothing but the context and the stream of one sequence changes, and the position of
the loop. -/
structure OnlyAt (id : Nat) (e e' : SchedulerEngine F) : Prop where
  scheduler : e'.scheduler = e.scheduler
  calls : e'.calls = e.calls
  senders : e'.senders = e.senders
  seqModel : e'.seqModel = e.seqModel
  seqMaxTokens : e'.seqMaxTokens = e.seqMaxTokens
  seqParams : e'.seqParams = e.seqParams
  seqContext : ∀ x ≠ id, e'.seqContext x = e.seqContext x
  streams : ∀ x ≠ id, e'.streams x = e.streams x

theorem OnlyAt.moved (id : Nat) (e : SchedulerEngine F) (l : Loop F) :
    OnlyAt id e { e with loop := l } :=
  ⟨rfl, rfl, rfl, rfl, rfl, rfl, fun _ _ => rfl, fun _ _ => rfl⟩

theorem OnlyAt.delivered (id : Nat) (e : SchedulerEngine F) (x : GeneratedToken F) (l : Loop F) :
    OnlyAt id e { e.deliver id x with loop := l } := by
  refine ⟨?_, ?_, ?_, ?_, ?_, ?_, fun y _ => ?_, fun y hy => ?_⟩
  case refine_8 =>
    show (e.deliver id x).streams y = _
    rw [deliver_streams]
    split
    · rfl
    · exact Function.update_of_ne hy _ _
  all_goals simp

theorem OnlyAt.has {id id' : Nat} {e e' : SchedulerEngine F} {c : Call F} {t : Table}
    (h : OnlyAt id e e') (hh : e.Has id' c t) : e'.Has id' c t := by
  cases t with
  | senders => rwa [Has, h.senders]
  | model => rwa [Has, h.seqModel]
  | context => trivial
  | maxTokens => rwa [Has, h.seqMaxTokens]
  | params => rwa [Has, h.seqParams]

theorem OnlyAt.not_holds {id id' : Nat} {e e' : SchedulerEngine F} {t : Table}
    (h : OnlyAt id e e') (hid : id' ≠ id) (hh : ¬ e.Holds id' t) : ¬ e'.Holds id' t := by
  cases t with
  | senders => rwa [Holds, h.senders]
  | model => rwa [Holds, h.seqModel]
  | context => rwa [Holds, h.seqContext id' hid]
  | maxTokens => rwa [Holds, h.seqMaxTokens]
  | params => rwa [Holds, h.seqParams]

section Work

variable [Floating F] (e : SchedulerEngine F) (draw : Draw F) (before : List Nat) (sch : Schedule)
  (item : Item) (rest : List Item) (phase : Phase F)

theorem work_onlyAt : OnlyAt item.seqId e (e.work draw before sch item rest phase) := by
  cases phase with
  | params => exact .moved _ _ _
  | model params =>
    simp only [work]
    split
    · exact .moved _ _ _
    · split <;> exact .moved _ _ _
  | extend params model tokens =>
    refine ⟨rfl, rfl, rfl, rfl, rfl, rfl, fun x hx => ?_, fun _ _ => rfl⟩
    exact Function.update_of_ne hx _ _
  | context params model =>
    simp only [work]
    split
    · exact .moved _ _ _
    · split
      · exact .moved _ _ _
      · split <;> exact .moved _ _ _
  | push token =>
    refine ⟨rfl, rfl, rfl, rfl, rfl, rfl, fun x hx => ?_, fun _ _ => rfl⟩
    exact Function.update_of_ne hx _ _
  | limit token => exact .moved _ _ _
  | generated token max => exact .moved _ _ _
  | deliver token done => exact .delivered _ _ _ _

/-- The loop stays at the entry or goes on to the next. -/
theorem work_loop : (e.work draw before sch item rest phase).loop = nextEntry before sch rest ∨
    ∃ phase', (e.work draw before sch item rest phase).loop =
      .entry before sch item phase' rest := by
  cases phase with
  | params => exact .inr ⟨_, rfl⟩
  | model params =>
    simp only [work]
    split
    · exact .inl rfl
    · split <;> exact .inr ⟨_, rfl⟩
  | extend params model tokens => exact .inr ⟨_, rfl⟩
  | context params model =>
    simp only [work]
    split
    · exact .inl rfl
    · split
      · exact .inl rfl
      · split <;> exact .inr ⟨_, rfl⟩
  | push token => exact .inr ⟨_, rfl⟩
  | limit token => exact .inr ⟨_, rfl⟩
  | generated token max => exact .inr ⟨_, rfl⟩
  | deliver token done => exact .inl rfl

theorem work_pending : (e.work draw before sch item rest phase).loop.pending = before ∧
    (e.work draw before sch item rest phase).loop.unfinished = before ∧
    (e.work draw before sch item rest phase).loop.gone = [] ∧
    (e.work draw before sch item rest phase).loop.entries ⊆ item :: rest ∧
    ∀ b, (e.work draw before sch item rest phase).loop ≠ .schedule b := by
  rcases e.work_loop draw before sch item rest phase with h | ⟨phase', h⟩
  · rw [h]
    refine ⟨by simp, by simp, by simp, by simp, fun b hb => ?_⟩
    cases rest <;> cases hb
  · rw [h]
    exact ⟨rfl, rfl, rfl, List.Subset.refl _, fun b hb => nomatch hb⟩

end Work

end SchedulerEngine

/-! ## What a step of the loop does -/

section Advanced

variable [Floating F] {e e' : SchedulerEngine F} {order : HashOrder} {draw : Draw F}

/-- The steps of the loop, each with what it leads to. -/
inductive Advanced (e : SchedulerEngine F) (order : HashOrder) (draw : Draw F) :
    SchedulerEngine F → Prop
  | top : e.loop = .top → Advanced e order draw { e with loop := .schedule e.scheduler.runningIds }
  | schedule {before : List Nat} {sch : Schedule} {t : Scheduler F} :
      e.loop = .schedule before → e.scheduler.schedule order = .ok (sch, t) →
      Advanced e order draw
        { e with scheduler := t, loop := SchedulerEngine.startEntries before sch }
  | entry {before : List Nat} {sch : Schedule} {item : Item} {phase : Phase F} {rest : List Item} :
      e.loop = .entry before sch item phase rest →
      Advanced e order draw (e.work draw before sch item rest phase)
  | notify {before : List Nat} {sch : Schedule} : e.loop = .notify before sch →
      Advanced e order draw
        { e with scheduler := e.scheduler.answer (listed sch), loop := .after before }
  | after {before : List Nat} : e.loop = .after before →
      Advanced e order draw { e with
        loop := SchedulerEngine.nextGone (before.filter fun id => id ∉ e.scheduler.runningIds) }
  | finish {seqId : Nat} {rest : List Nat} : e.loop = .finish seqId rest →
      Advanced e order draw { e.deliver seqId SchedulerEngine.finishToken with
        loop := .remove seqId removals rest }
  | removed {seqId : Nat} {rest : List Nat} : e.loop = .remove seqId [] rest →
      Advanced e order draw { e with loop := SchedulerEngine.nextGone rest }
  | remove {seqId : Nat} {t : Table} {todo : List Table} {rest : List Nat} :
      e.loop = .remove seqId (t :: todo) rest →
      Advanced e order draw { e.remove seqId t with loop := .remove seqId todo rest }

theorem advance_ok (h : e.advance order draw = .ok e') : Advanced e order draw e' := by
  unfold SchedulerEngine.advance at h
  split at h
  · cases h
    exact .top ‹_›
  · obtain ⟨⟨sch, t⟩, hs, rfl⟩ := map_eq_ok.mp h
    exact .schedule ‹_› hs
  · cases h
    exact .entry ‹_›
  · cases h
    exact .notify ‹_›
  · cases h
    exact .after ‹_›
  · cases h
    exact .finish ‹_›
  · cases h
    exact .removed ‹_›
  · cases h
    exact .remove ‹_›

end Advanced

/-! ## The invariant -/

/-- In line, or due for its final token. -/
def Open (s : Scheduler F) (l : Loop F) (id : Nat) : Prop := id ∈ line s ∨ id ∈ l.unfinished

/-- The sequence being cleaned up after is not open. -/
theorem Placed.not_open_of_remove {s : Scheduler F} {calls : Nat → Option (Call F)} {id : Nat}
    {todo : List Table} {rest : List Nat} (h : Placed s calls (.remove id todo rest)) :
    ¬ Open s (.remove id todo rest) id := by
  rintro (ho | ho)
  · rcases List.mem_append.mp ho with ho | ho
    · exact h.gone id List.mem_cons_self ho
    · exact h.notWaiting id List.mem_cons_self ho
  · exact (List.nodup_cons.mp h.nodup).1 ho

structure Consistent (e : SchedulerEngine F) : Prop where
  booked : Booked e.scheduler e.calls
  placed : Placed e.scheduler e.calls e.loop
  /-- What a call has written is there while the request is open. -/
  written : ∀ id c, e.calls id = some c → Open e.scheduler e.loop id → ∀ t ∉ c.todo, e.Has id c t
  /-- Nothing is known of an id before it is given out. -/
  unknown : ∀ id, e.calls id = none → e.streams id = [] ∧ ∀ t, ¬ e.Holds id t

theorem consistent_fresh (config : SchedulerConfig) (numBlocks : Nat) :
    Consistent (F := F) (fresh config numBlocks) where
  booked := ⟨.new _ _, fun _ h => (nomatch h), fun _ h => (nomatch h), fun _ _ h => (nomatch h)⟩
  placed := ⟨List.nodup_nil, fun _ h => (nomatch h), fun _ h => (nomatch h), fun _ h => (nomatch h),
    fun _ h => (nomatch h), fun _ h => (nomatch h)⟩
  written _ _ h := nomatch h
  unknown id _ := ⟨rfl, fun t => by cases t <;> exact fun h => h rfl⟩

/-- A step that writes no table and answers nobody. -/
theorem Consistent.quiet {e : SchedulerEngine F} {s : Scheduler F} {l : Loop F}
    (hc : Consistent e) (hb : Booked s e.calls) (hp : Placed s e.calls l)
    (hopen : ∀ id, Open s l id → Open e.scheduler e.loop id) :
    Consistent { e with scheduler := s, loop := l } :=
  ⟨hb, hp, fun id c hcall ho => hc.written id c hcall (hopen id ho), hc.unknown⟩

/-- A step that touches nothing but what belongs to one request. -/
theorem Consistent.onlyAt {e e' : SchedulerEngine F} {seqId : Nat} (hc : Consistent e)
    (hf : SchedulerEngine.OnlyAt seqId e e') (hasked : e.calls seqId ≠ none)
    (hp : Placed e'.scheduler e'.calls e'.loop)
    (hopen : ∀ id, Open e'.scheduler e'.loop id → Open e.scheduler e.loop id) :
    Consistent e' := by
  refine ⟨?_, hp, fun id c hcall ho t ht => ?_, fun id hid => ?_⟩
  · rw [hf.scheduler, hf.calls]
    exact hc.booked
  · rw [hf.calls] at hcall
    exact hf.has (hc.written id c hcall (hopen id ho) t ht)
  · rw [hf.calls] at hid
    have hne : id ≠ seqId := fun he => hasked (he ▸ hid)
    obtain ⟨hstream, hnone⟩ := hc.unknown id hid
    exact ⟨(hf.streams id hne).trans hstream, fun t => hf.not_holds hne (hnone t)⟩

section Advance

variable [Floating F] {e e' : SchedulerEngine F} {order : HashOrder} {draw : Draw F}

/-- A step of the loop closes only the request it sends the final token to, and opens
none. -/
theorem open_advance (hc : Consistent e) (h : e.advance order draw = .ok e') (id : Nat) :
    (Open e'.scheduler e'.loop id → Open e.scheduler e.loop id) ∧
      (Open e.scheduler e.loop id →
        Open e'.scheduler e'.loop id ∨ ∃ rest, e.loop = .finish id rest) := by
  unfold Open
  cases advance_ok h with
  | top hl =>
    rw [hl]
    refine ⟨?_, ?_⟩
    · rintro (hid | hid)
      · exact .inl hid
      · exact .inl (List.mem_append_left _ hid)
    · rintro (hid | hid)
      · exact .inl (.inl hid)
      · cases hid
  | @schedule before sch t hl hs =>
    rw [hl]
    obtain ⟨hsub, hleft, -⟩ := schedule_line hs
    have hbefore := hc.placed.before before hl
    simp only [startEntries_pending]
    refine ⟨?_, ?_⟩
    · rintro (hid | hid)
      · exact .inl (hsub hid)
      · exact .inr hid
    · rintro (hid | hid)
      · rcases hleft id hid with hid | hid
        · exact .inl (.inl hid)
        · exact .inl (.inr (hbefore ▸ hid))
      · exact .inl (.inr hid)
  | @entry before sch item phase rest hl =>
    rw [hl]
    obtain ⟨-, hun, -⟩ := e.work_pending draw before sch item rest phase
    rw [hun, (e.work_onlyAt draw before sch item rest phase).scheduler]
    exact ⟨fun hid => hid, fun hid => .inl hid⟩
  | @notify before sch hl =>
    rw [hl]
    dsimp only
    rw [line_answer]
    exact ⟨fun hid => hid, fun hid => .inl hid⟩
  | @after before hl =>
    rw [hl]
    simp only [nextGone_pending]
    refine ⟨?_, ?_⟩
    · rintro (hid | hid)
      · exact .inl hid
      · exact .inr (List.mem_of_mem_filter hid)
    · rintro (hid | hid)
      · exact .inl (.inl hid)
      · by_cases hrun : id ∈ e.scheduler.runningIds
        · exact .inl (.inl (List.mem_append_left _ hrun))
        · exact .inl (.inr (List.mem_filter.mpr ⟨hid, by simpa using hrun⟩))
  | @finish seqId rest hl =>
    rw [hl]
    simp only [SchedulerEngine.deliver_frame]
    refine ⟨?_, ?_⟩
    · rintro (hid | hid)
      · exact .inl hid
      · exact .inr (List.mem_cons_of_mem _ hid)
    · rintro (hid | hid)
      · exact .inl (.inl hid)
      · rcases List.mem_cons.mp hid with rfl | hid
        · exact .inr ⟨rest, rfl⟩
        · exact .inl (.inr hid)
  | @removed seqId rest hl =>
    rw [hl]
    simp only [nextGone_pending]
    exact ⟨fun hid => hid, fun hid => .inl hid⟩
  | @remove seqId t todo rest hl =>
    rw [hl]
    simp only [SchedulerEngine.remove_frame]
    exact ⟨fun hid => hid, fun hid => .inl hid⟩

theorem open_advance_iff (hc : Consistent e) (h : e.advance order draw = .ok e') {id : Nat}
    (hno : ∀ rest, e.loop ≠ .finish id rest) :
    Open e'.scheduler e'.loop id ↔ Open e.scheduler e.loop id := by
  refine ⟨(open_advance hc h id).1, fun ho => ((open_advance hc h id).2 ho).resolve_right ?_⟩
  rintro ⟨rest, hl⟩
  exact hno rest hl

theorem Placed.advance (hp : Placed e.scheduler e.calls e.loop) (hb : Booked e.scheduler e.calls)
    (h : e.advance order draw = .ok e') : Placed e'.scheduler e'.calls e'.loop := by
  cases advance_ok h with
  | top hl =>
    refine ⟨hb.numbered.running, fun id hid => ?_, fun id hid hm => ?_, fun _ hid => (nomatch hid),
      fun b he => by cases he; rfl, fun _ hx => (nomatch hx)⟩
    · obtain ⟨r, hr, rfl⟩ := List.mem_map.mp hid
      obtain ⟨c, hcall, -⟩ := hb.running r hr
      show e.calls r.seq.id ≠ none
      rw [hcall]
      exact fun hn => nomatch hn
    · exact List.disjoint_of_nodup_append hb.numbered.nodup hid hm
  | @schedule before sch t hl hs =>
    rw [hl] at hp
    obtain ⟨-, -, hwait⟩ := schedule_line hs
    refine ⟨?_, ?_, ?_, ?_, fun b he => ?_, fun x hx => ?_⟩
    · simp only [startEntries_pending]
      exact hp.nodup
    · simp only [startEntries_pending]
      exact hp.asked
    · intro id hid hm
      simp only [startEntries_pending] at hid
      exact hp.notWaiting id hid (hwait hm)
    · simp
    · dsimp only at he
      unfold SchedulerEngine.startEntries at he
      split at he
      · cases he
      · cases hi : SchedulerEngine.items sch <;> rw [hi] at he <;> cases he
    · simp only [startEntries_pending] at hx
      have := List.mem_map_of_mem (f := Item.seqId) hx
      rw [items_seqId] at this
      exact listed_subset hs this
  | @entry before sch item phase rest hl =>
    rw [hl] at hp
    have hf := e.work_onlyAt draw before sch item rest phase
    obtain ⟨hpend, -, hgone, hent, hno⟩ := e.work_pending draw before sch item rest phase
    rw [hf.scheduler, hf.calls]
    refine hp.goOn (by rw [hpend]; exact List.Sublist.refl _) rfl rfl ?_ hno hent
    rw [hgone]
    exact fun _ hid => nomatch hid
  | @notify before sch hl =>
    rw [hl] at hp
    exact hp.goOn (List.Sublist.refl _) (answer_ids _ _) (waitingIds_answer _ _)
      (fun _ hid => (nomatch hid)) (fun _ he => (nomatch he)) (List.nil_subset _)
  | @after before hl =>
    rw [hl] at hp
    refine hp.goOn ?_ rfl rfl (fun id hid => ?_) (fun b he => ?_) (by simp)
    · simp only [nextGone_pending]
      exact List.filter_sublist
    · simp only [nextGone_pending] at hid
      simpa using (List.mem_filter.mp hid).2
    · cases hf : before.filter fun id => id ∉ e.scheduler.runningIds <;> rw [hf] at he <;> cases he
  | @finish seqId rest hl =>
    rw [hl] at hp
    simp only [SchedulerEngine.deliver_frame]
    exact hp.goOn (List.Sublist.refl _) rfl rfl hp.gone (fun _ he => (nomatch he))
      (List.nil_subset _)
  | @removed seqId rest hl =>
    rw [hl] at hp
    refine hp.goOn ?_ rfl rfl (fun id hid => ?_) (fun b he => ?_) (by simp)
    · simp only [nextGone_pending]
      exact List.sublist_cons_self _ _
    · simp only [nextGone_pending] at hid
      exact hp.gone id (List.mem_cons_of_mem _ hid)
    · cases rest <;> cases he
  | @remove seqId t todo rest hl =>
    rw [hl] at hp
    simp only [SchedulerEngine.remove_frame]
    exact hp.goOn (List.Sublist.refl _) rfl rfl hp.gone (fun _ he => (nomatch he))
      (List.nil_subset _)

theorem Consistent.advance (hc : Consistent e) (h : e.advance order draw = .ok e') :
    Consistent e' := by
  have hopen := fun id => (open_advance hc h id).1
  have hplaced := hc.placed.advance hc.booked h
  cases advance_ok h with
  | top hl => exact hc.quiet hc.booked hplaced hopen
  | schedule hl hs => exact hc.quiet (hc.booked.schedule hs) hplaced hopen
  | @entry before sch item phase rest hl =>
    refine hc.onlyAt (e.work_onlyAt draw before sch item rest phase) (fun hnone => ?_) hplaced hopen
    -- the entry is of a sequence that runs, hence of a call
    have hrun := hc.placed.entries item (by rw [hl]; exact List.mem_cons_self)
    obtain ⟨r, hr, hrid⟩ := List.mem_map.mp hrun
    obtain ⟨c, hcall, -⟩ := hc.booked.running r hr
    rw [hrid, hnone] at hcall
    cases hcall
  | notify hl => exact hc.quiet (hc.booked.answer _) hplaced hopen
  | after hl => exact hc.quiet hc.booked hplaced hopen
  | @finish seqId rest hl =>
    have hf := SchedulerEngine.OnlyAt.delivered seqId e SchedulerEngine.finishToken
      (.remove seqId removals rest)
    exact hc.onlyAt hf (hc.placed.asked seqId (by rw [hl]; exact List.mem_cons_self)) hplaced hopen
  | removed hl => exact hc.quiet hc.booked hplaced hopen
  | @remove seqId t todo rest hl =>
    refine ⟨?_, hplaced, fun id c hcall ho t' ht' => ?_, fun id hid => ?_⟩
    · simp only [SchedulerEngine.remove_frame]
      exact hc.booked
    · simp only [SchedulerEngine.remove_frame] at hcall
      have ho := hopen id ho
      refine SchedulerEngine.Has.remove (hc.written id c hcall ho t' ht') fun hid => ?_
      have hp := hc.placed
      rw [hl] at hp ho
      exact hp.not_open_of_remove (hid ▸ ho)
    · simp only [SchedulerEngine.remove_frame] at hid ⊢
      obtain ⟨hstream, hnone⟩ := hc.unknown id hid
      exact ⟨hstream, fun t' => SchedulerEngine.not_holds_remove_of (hnone t')⟩

end Advance

section Calls

variable {e e' : SchedulerEngine F}

/-- What a call that comes in does. -/
theorem generate_ok {registry : SchedulerEngine.Registry F} {modelName : String}
    {prompt : List Token} {params : SamplingParams F}
    (h : e.generate registry modelName prompt params = .ok e') :
    ∃ model, registry modelName = some model ∧ e' = { e with
      scheduler := (e.scheduler.addRequest ⟨0, prompt, params, 0, []⟩).2
      calls := update e.calls e.scheduler.nextSeqId (some ⟨model, prompt, params, inserts⟩) } := by
  unfold SchedulerEngine.generate at h
  split at h
  · cases h
  · rename_i model hm
    cases h
    exact ⟨model, hm, rfl⟩

theorem line_addRequest (s : Scheduler F) (req : NewRequest F) :
    line (s.addRequest req).2 = line s ++ [s.nextSeqId] := by
  simp [line, waitingIds, addRequest, runningIds]

theorem Consistent.generate {registry : SchedulerEngine.Registry F} {modelName : String}
    {prompt : List Token} {params : SamplingParams F} (hc : Consistent e)
    (h : e.generate registry modelName prompt params = .ok e') : Consistent e' := by
  obtain ⟨model, -, rfl⟩ := generate_ok h
  refine ⟨hc.booked.addRequest _ _ _ _, hc.placed.addRequest hc.booked _ _,
    fun id c hcall ho t ht => ?_, fun id hid => ?_⟩
  · by_cases hn : id = e.scheduler.nextSeqId
    · subst hn
      dsimp only at hcall
      rw [Function.update_self] at hcall
      cases hcall
      cases t with
      | context => trivial
      | _ => exact absurd (by simp [inserts]) ht
    · dsimp only at hcall ho
      rw [Function.update_of_ne hn] at hcall
      refine hc.written id c hcall (ho.imp_left fun hm => ?_) t ht
      rw [line_addRequest] at hm
      exact (List.mem_append.mp hm).resolve_right (by simpa using hn)
  · dsimp only at hid
    by_cases hn : id = e.scheduler.nextSeqId
    · rw [hn, Function.update_self] at hid
      cases hid
    · rw [Function.update_of_ne hn] at hid
      exact hc.unknown id hid

/-- What a write of a call does. -/
theorem register_ok [Floating F] {seqId : Nat} (h : exec e (.register seqId) = .ok e') :
    ∃ c t todo, e.calls seqId = some c ∧ c.todo = t :: todo ∧ e' = { e.insert seqId c t with
      calls := update e.calls seqId (some { c with todo := todo }) } := by
  unfold exec at h
  dsimp only at h
  split at h
  · rename_i model prompt params t todo hcall
    cases h
    exact ⟨_, t, todo, hcall, rfl, rfl⟩
  · cases h

theorem Consistent.register [Floating F] {seqId : Nat} (hc : Consistent e)
    (h : exec e (.register seqId) = .ok e') : Consistent e' := by
  obtain ⟨c, t, todo, hcall, htodo, rfl⟩ := register_ok h
  have hknown : ∀ id, e.calls id ≠ none →
      update e.calls seqId (some { c with todo := todo }) id ≠ none := by
    intro id hid
    by_cases hn : id = seqId
    · rw [hn, Function.update_self]
      exact fun hx => nomatch hx
    · rwa [Function.update_of_ne hn]
  refine ⟨?_, ?_, fun id d hd ho t' ht' => ?_, fun id hid => ?_⟩
  · simp only [SchedulerEngine.insert_frame]
    exact hc.booked.goOn hcall todo
  · simp only [SchedulerEngine.insert_frame]
    exact hc.placed.more hknown
  · simp only [SchedulerEngine.insert_frame] at ho
    dsimp only at hd
    by_cases hn : id = seqId
    · subst hn
      rw [Function.update_self] at hd
      cases hd
      rw [SchedulerEngine.has_calls, SchedulerEngine.has_todo]
      by_cases ht : t' = t
      · rw [ht]
        exact SchedulerEngine.has_insert
      · refine SchedulerEngine.Has.insert (hc.written id c hcall ho t' ?_) (.inr ht)
        rw [htodo]
        exact fun hm => ht' ((List.mem_cons.mp hm).resolve_left ht)
    · rw [Function.update_of_ne hn] at hd
      rw [SchedulerEngine.has_calls]
      exact (hc.written id d hd ho t' ht').insert (.inl hn)
  · dsimp only at hid
    have hn : id ≠ seqId := by
      rintro rfl
      rw [Function.update_self] at hid
      cases hid
    rw [Function.update_of_ne hn] at hid
    obtain ⟨hstream, hnone⟩ := hc.unknown id hid
    refine ⟨?_, fun t' => ?_⟩
    · simp only [SchedulerEngine.insert_frame]
      exact hstream
    · rw [SchedulerEngine.holds_calls]
      exact SchedulerEngine.not_holds_insert (hnone t') (.inl hn)

theorem Consistent.step [Floating F] {m : Move F} (hc : Consistent e) (h : Step e m e') :
    Consistent e' := by
  cases m with
  | generate registry modelName prompt params =>
    exact hc.generate (mapError_eq_ok.mp h)
  | register seqId => exact hc.register h
  | loop order draw => exact hc.advance (mapError_eq_ok.mp h)

end Calls

end JustApi.Inference.Serving
