import Mathlib.Data.List.Nodup
import JustApi.Core.Batching

/-! # Requests, batches and results

Every request that was sent is in one place: a batch, the one being collected, or the
channel, and in the order it was sent in. The results of a batch go to the callers
whose payloads stand at their positions. -/
namespace JustApi.Core.Batching
open JustApi.Lib.Run

variable {Req Res : Type} {maxSize : Nat} {w w' : World Req Res} {event : Event Req Res}

/-! ## What a step can do -/

/-- The steps, each with its guard. -/
inductive Move (maxSize : Nat) (w : World Req Res) : Event Req Res → World Req Res → Prop
  | execute (payload : Req) : w.isOpen = true →
      Move maxSize w (.execute payload) { w with callers := w.callers ++ [⟨payload, .sending⟩] }
  | refuse {i : Nat} {payload : Req} : w.callers[i]? = some ⟨payload, .sending⟩ → w.task = .ended →
      Move maxSize w (.send i) (w.setPhase i (.returned (.error "Batcher is closed")))
  | send {i : Nat} {payload : Req} : w.callers[i]? = some ⟨payload, .sending⟩ → w.task ≠ .ended →
      Move maxSize w (.send i) { w.setPhase i .waiting with
        queue := w.queue ++ [⟨payload, i⟩], sent := w.sent ++ [⟨payload, i⟩] }
  | drop {i : Nat} {c : Caller Req Res} : w.callers[i]? = some c →
      c.phase = .sending ∨ c.phase = .waiting → Move maxSize w (.drop i) (w.setPhase i .dropped)
  | close : (∀ c ∈ w.callers, c.phase ≠ .sending) →
      Move maxSize w .close { w with isOpen := false }
  | first {r : BatchRequest Req} {queue : List (BatchRequest Req)} : w.task = .idle →
      w.queue = r :: queue →
      Move maxSize w .recv { w with queue, task := fill maxSize (Taken.empty.push r) }
  | next {taken : Taken Req} {r : BatchRequest Req} {queue : List (BatchRequest Req)} :
      w.task = .filling taken → w.queue = r :: queue →
      Move maxSize w .recv { w with queue, task := fill maxSize (taken.push r) }
  | finish : w.task = .idle → w.queue = [] → w.isOpen = false →
      Move maxSize w .recv { w with task := .ended }
  | flush {event : Event Req Res} {taken : Taken Req} : w.task = .filling taken →
      event = .recv ∨ event = .deadline →
      Move maxSize w event { w with task := .processing taken }
  | processed {taken : Taken Req} (results : List Res) : w.task = .processing taken →
      Move maxSize w (.processed results) { w with
        task := .scattering (taken.responders.zip results) (taken.responders.drop results.length)
        batches := w.batches ++ [(taken, results)] }
  | answer {i : Nat} {res : Res} {pairs : List (Nat × Res)} {leftover : List Nat} :
      w.task = .scattering ((i, res) :: pairs) leftover →
      Move maxSize w .scatter { w.answer i (.ok res) with task := .scattering pairs leftover }
  | dropResponders {leftover : List Nat} : w.task = .scattering [] leftover →
      Move maxSize w .scatter
        { leftover.foldl (fun w i => w.answer i (.error "Batcher dropped the response")) w with
          task := .idle }

theorem recv_move (h : recv maxSize w = .ok w') : Move maxSize w .recv w' := by
  unfold recv at h
  split at h
  · rename_i htask hqueue
    cases h
    exact .first htask hqueue
  · rename_i htask hqueue
    cases h
    exact .next htask hqueue
  · rename_i htask hqueue
    split at h
    · cases h
    · rename_i hopen
      cases h
      exact .finish htask hqueue (by simpa using hopen)
  · rename_i htask hqueue
    split at h
    · cases h
    · cases h
      exact .flush htask (.inl rfl)
  · cases h

theorem send_move {i : Nat} {payload : Req} (hi : w.callers[i]? = some ⟨payload, .sending⟩)
    (h : send w i payload = .ok w') : Move maxSize w (.send i) w' := by
  unfold send at h
  split at h
  · rename_i htask
    cases h
    exact .refuse hi htask
  · rename_i htask
    split at h
    · cases h
      exact .send hi fun he => htask he
    · cases h

theorem exec_move (h : exec maxSize w event = .ok w') : Move maxSize w event w' := by
  unfold exec at h
  cases event with
  | execute payload =>
    dsimp only at h
    split at h
    · rename_i hopen
      cases h
      exact .execute payload hopen
    · cases h
  | send i =>
    dsimp only at h
    split at h
    · rename_i payload hi
      exact send_move hi h
    · cases h
  | drop i =>
    dsimp only at h
    split at h
    · rename_i hi
      cases h
      exact .drop hi (.inl rfl)
    · rename_i hi
      cases h
      exact .drop hi (.inr rfl)
    · cases h
  | close =>
    dsimp only at h
    split at h
    · cases h
    · rename_i hnone
      cases h
      refine .close fun c hc hsending => hnone (List.any_eq_true.mpr ⟨c, hc, ?_⟩)
      rw [hsending]
  | recv => exact recv_move h
  | deadline =>
    dsimp only at h
    split at h
    · rename_i htask
      cases h
      exact .flush htask (.inr rfl)
    · cases h
  | processed results =>
    dsimp only at h
    split at h
    · rename_i htask
      cases h
      exact .processed results htask
    · cases h
  | scatter =>
    dsimp only at h
    split at h
    · rename_i htask
      cases h
      exact .answer htask
    · rename_i htask
      cases h
      exact .dropResponders htask
    · cases h

/-! ## Order -/

/-- The batch being collected or processed. -/
def Task.taken : Task Req Res → Taken Req
  | .filling taken | .processing taken => taken
  | _ => .empty

/-- The results that have not been handed out. -/
def Task.unsent : Task Req Res → List (Nat × Res)
  | .scattering pairs _ => pairs
  | _ => []

/-- The processor returns one result for each input. -/
def OnePerInput (w : World Req Res) : Event Req Res → Prop
  | .processed results => results.length = w.task.taken.batch.length
  | _ => True

instance (w : World Req Res) (event : Event Req Res) : Decidable (OnePerInput w event) := by
  unfold OnePerInput
  cases event <;> infer_instance

/-- A batch of a size that is allowed, with a result for each of its requests. -/
structure Complete (maxSize : Nat) (b : Taken Req × List Res) : Prop where
  paired : b.1.Paired
  results : b.2.length = b.1.batch.length
  nonempty : 1 ≤ b.1.batch.length
  size : b.1.batch.length ≤ maxSize

/-- What the loop holds is a batch that can still be completed. -/
def Holds (maxSize : Nat) (w : World Req Res) : Task Req Res → Prop
  | .idle => True
  | .filling taken => taken.Paired ∧ 1 ≤ taken.batch.length ∧ taken.batch.length < maxSize
  | .processing taken => taken.Paired ∧ 1 ≤ taken.batch.length ∧ taken.batch.length ≤ maxSize
  | .scattering _ leftover => leftover = []
  | .ended => w.isOpen = false ∧ w.queue = []

structure InOrder (maxSize : Nat) (w : World Req Res) : Prop where
  sent : w.sent = w.batches.flatMap (fun b => b.1.requests) ++ w.task.taken.requests ++ w.queue
  complete : ∀ b ∈ w.batches, Complete maxSize b
  holds : Holds maxSize w w.task
  closed : w.isOpen = false → ∀ c ∈ w.callers, c.phase ≠ .sending

theorem taken_fill (taken : Taken Req) : (fill maxSize taken : Task Req Res).taken = taken := by
  unfold fill
  split <;> rfl

theorem unsent_fill (taken : Taken Req) : (fill maxSize taken : Task Req Res).unsent = [] := by
  unfold fill
  split <;> rfl

theorem holds_fill {taken : Taken Req} (hp : taken.Paired) (h₁ : 1 ≤ taken.batch.length)
    (h₂ : taken.batch.length ≤ maxSize) : Holds maxSize w (fill maxSize taken) := by
  unfold fill
  split
  · exact ⟨hp, h₁, h₂⟩
  · exact ⟨hp, h₁, by omega⟩

theorem mem_setPhase {i : Nat} {phase : Phase Res} {c : Caller Req Res}
    (h : c ∈ (w.setPhase i phase).callers) : c ∈ w.callers ∨ c.phase = phase := by
  obtain ⟨j, hj⟩ := List.mem_iff_getElem?.mp h
  rw [World.setPhase, List.getElem?_modify] at hj
  cases hw : w.callers[j]? with
  | none => simp [hw] at hj
  | some c' =>
    by_cases hij : i = j
    · simp only [hw, hij, if_true, Option.map_eq_map, Option.map_some, Option.some.injEq] at hj
      exact .inr (by rw [← hj])
    · simp only [hw, hij, if_false, Option.map_eq_map, Option.map_some, Option.some.injEq] at hj
      exact .inl (hj ▸ List.mem_of_getElem? hw)

theorem inOrder_new : InOrder maxSize (World.new : World Req Res) := by
  refine ⟨rfl, ?_, trivial, ?_⟩
  · intro b hb
    cases hb
  · intro _ c hc
    cases hc

/-- The phases of the callers play no part in the order. -/
theorem InOrder.callers (h : InOrder maxSize w) (callers : List (Caller Req Res))
    (hc : w.isOpen = false → ∀ c ∈ callers, c.phase ≠ .sending) :
    InOrder maxSize { w with callers } :=
  ⟨h.sent, h.complete, h.holds, hc⟩

theorem InOrder.setPhase (h : InOrder maxSize w) (i : Nat) {phase : Phase Res}
    (hp : phase ≠ .sending) : InOrder maxSize (w.setPhase i phase) := by
  refine h.callers _ fun hopen c hc => ?_
  rcases mem_setPhase hc with hc | hc
  · exact h.closed hopen c hc
  · rw [hc]
    exact hp

theorem InOrder.answer (h : InOrder maxSize w) (i : Nat) (result : Except String Res) :
    InOrder maxSize (w.answer i result) := by
  refine h.callers _ fun hopen c hc => ?_
  obtain ⟨j, hj⟩ := List.mem_iff_getElem?.mp hc
  rw [List.getElem?_modify] at hj
  obtain ⟨c', hc', rfl⟩ := Option.map_eq_some_iff.mp hj
  have hno := h.closed hopen c' (List.mem_of_getElem? hc')
  split
  · unfold Caller.answer
    split
    · simp
    · exact hno
  · exact hno

/-- What the loop holds does not depend on the senders, unless it has ended. -/
theorem Holds.congr {task : Task Req Res} (h : Holds maxSize w task)
    (hended : task = .ended → w'.isOpen = false ∧ w'.queue = []) : Holds maxSize w' task := by
  cases task with
  | ended => exact hended rfl
  | idle | filling taken | processing taken | scattering pairs leftover => exact h

theorem InOrder.holds_of (h : InOrder maxSize w) {task : Task Req Res} (htask : w.task = task) :
    Holds maxSize w task := htask ▸ h.holds

/-- A turn of the loop that starts no batch and ends none. -/
theorem InOrder.turn (h : InOrder maxSize w) {task : Task Req Res}
    (htaken : task.taken.requests = w.task.taken.requests) (hholds : Holds maxSize w task) :
    InOrder maxSize { w with task } := by
  refine ⟨?_, h.complete, hholds.congr fun he => ?_, h.closed⟩
  · show w.sent = _
    rw [h.sent, ← htaken]
  · rw [he] at hholds
    exact hholds

/-- A request of the channel joins the batch that is collected. -/
theorem InOrder.push (h : InOrder maxSize w) {taken : Taken Req} {r : BatchRequest Req}
    {queue : List (BatchRequest Req)} (htaken : w.task.taken = taken)
    (hqueue : w.queue = r :: queue) (hpaired : taken.Paired)
    (hlen : taken.batch.length < maxSize) :
    InOrder maxSize { w with queue, task := fill maxSize (taken.push r) } := by
  refine ⟨?_, h.complete, holds_fill (Taken.paired_push hpaired r) (by simp) ?_, h.closed⟩
  · show w.sent = _
    rw [h.sent, htaken, hqueue, taken_fill, Taken.requests_push hpaired]
    simp
  · rw [Taken.length_push]
    exact hlen

theorem InOrder.send (h : InOrder maxSize w) (i : Nat) (payload : Req) (htask : w.task ≠ .ended) :
    InOrder maxSize { w.setPhase i .waiting with
      queue := w.queue ++ [⟨payload, i⟩], sent := w.sent ++ [⟨payload, i⟩] } := by
  have hwaiting : InOrder maxSize (w.setPhase i .waiting) := h.setPhase i (by simp)
  refine ⟨?_, h.complete, h.holds.congr fun he => absurd he htask, hwaiting.closed⟩
  show w.sent ++ _ = _
  rw [h.sent, List.append_assoc]
  rfl

theorem InOrder.processed (h : InOrder maxSize w) {taken : Taken Req} {results : List Res}
    (htask : w.task = .processing taken) (hlen : results.length = taken.batch.length) :
    InOrder maxSize { w with
      task := .scattering (taken.responders.zip results) (taken.responders.drop results.length)
      batches := w.batches ++ [(taken, results)] } := by
  obtain ⟨hpaired, hpos, hle⟩ := h.holds_of htask
  refine ⟨?_, fun b hb => ?_, ?_, h.closed⟩
  · show w.sent = _
    rw [h.sent, htask]
    simp [Task.taken]
  · rcases List.mem_append.mp hb with hb | hb
    · exact h.complete b hb
    · rw [List.mem_singleton.mp hb]
      exact ⟨hpaired, hlen, hpos, hle⟩
  · show List.drop _ _ = []
    rw [hlen, hpaired, List.drop_length]

theorem InOrder.move (h : InOrder maxSize w) (hmax : 1 ≤ maxSize) (hm : Move maxSize w event w')
    (hone : OnePerInput w event) : InOrder maxSize w' := by
  cases hm with
  | execute payload hopen =>
    refine h.callers _ fun hclosed => ?_
    rw [hopen] at hclosed
    cases hclosed
  | refuse => exact h.setPhase _ (by simp)
  | send _ htask => exact h.send _ _ htask
  | drop => exact h.setPhase _ (by simp)
  | close hnone =>
    refine ⟨h.sent, h.complete, h.holds.congr fun he => ⟨rfl, ?_⟩, fun _ => hnone⟩
    exact (h.holds_of he).2
  | first htask hqueue =>
    refine h.push (by rw [htask]; rfl) hqueue rfl ?_
    exact hmax
  | next htask hqueue =>
    obtain ⟨hpaired, -, hlt⟩ := h.holds_of htask
    exact h.push (by rw [htask]; rfl) hqueue hpaired hlt
  | finish htask hqueue hopen => exact h.turn (by rw [htask]; rfl) ⟨hopen, hqueue⟩
  | flush htask =>
    obtain ⟨hpaired, hpos, hlt⟩ := h.holds_of htask
    exact h.turn (by rw [htask]; rfl) ⟨hpaired, hpos, Nat.le_of_lt hlt⟩
  | processed results htask =>
    exact h.processed htask (by simpa [OnePerInput, htask, Task.taken] using hone)
  | answer htask =>
    exact (h.answer _ _).turn (by rw [World.answer, htask]; rfl) (h.holds_of htask)
  | dropResponders htask =>
    -- no responder is left without a result
    have hleftover := h.holds_of htask
    cases hleftover
    exact h.turn (by rw [htask]; rfl) trivial

/-! ## Results -/

/-- The request stands at position `j` of the batch, and the result at that of its
results. -/
def At (b : Taken Req × List Res) (j : Nat) (r : BatchRequest Req) (res : Res) : Prop :=
  b.1.batch[j]? = some r.payload ∧ b.1.responders[j]? = some r.responder ∧ b.2[j]? = some res

/-- The callers whose requests have not been answered, in the order of the requests. -/
def World.unanswered (w : World Req Res) : List Nat :=
  w.task.unsent.map Prod.fst ++ w.task.taken.responders ++ w.queue.map BatchRequest.responder

/-- A caller of the list in one of the phases. -/
def InPhase (callers : List (Caller Req Res)) (i : Nat) (p : Phase Res → Prop) : Prop :=
  ∃ c, callers[i]? = some c ∧ p c.phase

structure Served (w : World Req Res) : Prop where
  once : (w.sent.map BatchRequest.responder).Nodup
  mine : ∀ r ∈ w.sent, ∃ c, w.callers[r.responder]? = some c ∧ c.payload = r.payload ∧
    c.phase ≠ .sending
  distinct : w.unanswered.Nodup
  waiting : ∀ i ∈ w.unanswered, InPhase w.callers i fun p => p = .waiting ∨ p = .dropped
  origin : ∀ p ∈ w.task.unsent, ∃ b ∈ w.batches, ∃ j r, At b j r p.2 ∧ r.responder = p.1
  received : ∀ i c result, w.callers[i]? = some c → c.phase = .returned result →
    ∃ b ∈ w.batches, ∃ j res, At b j ⟨c.payload, i⟩ res ∧ result = .ok res
  answered : ∀ b ∈ w.batches, ∀ j r res, At b j r res → (r.responder, res) ∈ w.task.unsent ∨
    InPhase w.callers r.responder fun p => p = .returned (.ok res) ∨ p = .dropped

theorem served_new : Served (World.new : World Req Res) := by
  refine ⟨List.nodup_nil, ?_, List.nodup_nil, ?_, ?_, ?_, ?_⟩
  all_goals simp [World.new, World.unanswered, Task.unsent, Task.taken, Taken.empty]

theorem getElem?_requests {taken : Taken Req} {j : Nat} {r : BatchRequest Req}
    (hb : taken.batch[j]? = some r.payload) (hr : taken.responders[j]? = some r.responder) :
    r ∈ taken.requests := by
  refine List.mem_of_getElem? (i := j) ?_
  rw [Taken.requests, List.getElem?_zipWith, hb, hr]

/-- What stands in a batch has been sent. -/
theorem InOrder.mem_sent (h : InOrder maxSize w) {b : Taken Req × List Res} (hb : b ∈ w.batches)
    {j : Nat} {r : BatchRequest Req} {res : Res} (hat : At b j r res) : r ∈ w.sent := by
  rw [h.sent, List.mem_append, List.mem_append]
  exact .inl (.inl (List.mem_flatMap.mpr ⟨b, hb, getElem?_requests hat.1 hat.2.1⟩))

/-- A change of one caller's phase. -/
theorem getElem?_change {f : Caller Req Res → Caller Req Res} {callers : List (Caller Req Res)}
    {i j : Nat} {c : Caller Req Res} (h : (callers.modify i f)[j]? = some c) :
    ∃ c', callers[j]? = some c' ∧ (i = j ∧ c = f c' ∨ i ≠ j ∧ c = c') := by
  rw [List.getElem?_modify] at h
  obtain ⟨c', hc', he⟩ := Option.map_eq_some_iff.mp h
  refine ⟨c', hc', ?_⟩
  by_cases hij : i = j
  · rw [if_pos hij] at he
    exact .inl ⟨hij, he.symm⟩
  · rw [if_neg hij] at he
    exact .inr ⟨hij, he.symm⟩

/-- The other callers stay in their phases. -/
theorem InPhase.modify_ne {callers : List (Caller Req Res)} {i j : Nat} {p : Phase Res → Prop}
    (h : InPhase callers j p) (hij : i ≠ j) (f : Caller Req Res → Caller Req Res) :
    InPhase (callers.modify i f) j p := by
  obtain ⟨c, hc, hp⟩ := h
  refine ⟨c, ?_, hp⟩
  rw [List.getElem?_modify_ne _ _ hij]
  exact hc

/-- A phase that the change of a caller keeps. -/
theorem InPhase.modify {callers : List (Caller Req Res)} {i j : Nat} {p : Phase Res → Prop}
    (h : InPhase callers j p) {f : Caller Req Res → Caller Req Res}
    (hf : ∀ c : Caller Req Res, callers[i]? = some c → p c.phase → p (f c).phase) :
    InPhase (callers.modify i f) j p := by
  by_cases hij : i = j
  · obtain ⟨c, hc, hp⟩ := h
    subst hij
    refine ⟨f c, ?_, hf c hc hp⟩
    rw [List.getElem?_modify_eq, hc]
    rfl
  · exact h.modify_ne hij f

/-- A change of one caller that keeps its payload, and that it is not sending. -/
theorem mine_modify {callers : List (Caller Req Res)} {i : Nat} {r : BatchRequest Req}
    {f : Caller Req Res → Caller Req Res} (hf : ∀ c, (f c).payload = c.payload)
    (hs : ∀ c : Caller Req Res, c.phase ≠ .sending → (f c).phase ≠ .sending)
    (h : ∃ c, callers[r.responder]? = some c ∧ c.payload = r.payload ∧ c.phase ≠ .sending) :
    ∃ c, (callers.modify i f)[r.responder]? = some c ∧ c.payload = r.payload ∧
      c.phase ≠ .sending := by
  obtain ⟨c, hc, hpay, hphase⟩ := h
  by_cases hi : i = r.responder
  · refine ⟨f c, ?_, (hf c).trans hpay, hs c hphase⟩
    rw [hi, List.getElem?_modify_eq, hc]
    rfl
  · refine ⟨c, ?_, hpay, hphase⟩
    rw [List.getElem?_modify_ne _ _ hi]
    exact hc

/-- The loop moves a request from one place to the next. -/
theorem Served.moveOn (h : Served w) (hcallers : w'.callers = w.callers) (hsent : w'.sent = w.sent)
    (hbatches : w'.batches = w.batches) (hunsent : w'.task.unsent = w.task.unsent)
    (hunanswered : w'.unanswered = w.unanswered) : Served w' := by
  obtain ⟨once, mine, distinct, waiting, origin, received, answered⟩ := h
  refine ⟨?_, ?_, ?_, ?_, ?_, ?_, ?_⟩
  · rwa [hsent]
  · rwa [hsent, hcallers]
  · rwa [hunanswered]
  · rwa [hunanswered, hcallers]
  · rwa [hunsent, hbatches]
  · rwa [hcallers, hbatches]
  · rwa [hbatches, hunsent, hcallers]

/-- A caller goes away. -/
theorem Served.drop (h : Served w) (i : Nat) : Served (w.setPhase i .dropped) := by
  refine ⟨h.once, fun r hr => mine_modify (fun _ => rfl) (by simp) (h.mine r hr), h.distinct,
    fun j hj => (h.waiting j hj).modify fun _ _ _ => .inr rfl, h.origin, ?_,
    fun b hb j r res hat => (h.answered b hb j r res hat).imp_right fun hin =>
      hin.modify fun _ _ _ => .inr rfl⟩
  intro j c' result hc' hphase
  obtain ⟨c'', hc'', ⟨-, rfl⟩ | ⟨-, rfl⟩⟩ := getElem?_change hc'
  · cases hphase
  · exact h.received j c' result hc'' hphase

/-- A new caller changes nothing for the others. -/
theorem Served.execute (h : Served w) (payload : Req) :
    Served { w with callers := w.callers ++ [⟨payload, .sending⟩] } := by
  have hkeep : ∀ {i : Nat} {c : Caller Req Res}, w.callers[i]? = some c →
      (w.callers ++ [⟨payload, .sending⟩])[i]? = some c := fun hc => by
    rw [List.getElem?_append_left (List.getElem?_eq_some_iff.mp hc).1]
    exact hc
  refine ⟨h.once, fun r hr => ?_, h.distinct, fun i hi => ?_, h.origin,
    fun i c result hc hphase => ?_,
    fun b hb j r res hat => (h.answered b hb j r res hat).imp_right fun hin => ?_⟩
  · obtain ⟨c, hc, hrest⟩ := h.mine r hr
    exact ⟨c, hkeep hc, hrest⟩
  · obtain ⟨c, hc, hp⟩ := h.waiting i hi
    exact ⟨c, hkeep hc, hp⟩
  · rw [List.getElem?_append] at hc
    split at hc
    · exact h.received i c result hc hphase
    · rw [List.getElem?_singleton] at hc
      split at hc
      · cases hc
        cases hphase
      · cases hc
  · obtain ⟨c, hc, hp⟩ := hin
    exact ⟨c, hkeep hc, hp⟩

/-- A request goes to the end of the channel. -/
theorem Served.send (h : Served w) (i : Nat) {payload : Req}
    (hi : w.callers[i]? = some ⟨payload, .sending⟩) :
    Served { w.setPhase i .waiting with
      queue := w.queue ++ [⟨payload, i⟩], sent := w.sent ++ [⟨payload, i⟩] } := by
  have hnew : (w.setPhase i .waiting).callers[i]? = some ⟨payload, .waiting⟩ := by
    rw [World.setPhase, List.getElem?_modify_eq, hi]
    rfl
  have hfresh : i ∉ w.unanswered := by
    intro hin
    obtain ⟨c, hc, hp⟩ := h.waiting i hin
    rw [hi] at hc
    cases hc
    simp at hp
  have hlist : ({ w.setPhase i .waiting with
      queue := w.queue ++ [⟨payload, i⟩], sent := w.sent ++ [⟨payload, i⟩] } :
      World Req Res).unanswered = w.unanswered ++ [i] := by
    simp [World.unanswered, World.setPhase]
  refine ⟨?_, fun r hr => ?_, ?_, fun j hj => ?_, h.origin, fun j c result hc hphase => ?_,
    fun b hb j r res hat => (h.answered b hb j r res hat).imp_right fun hin =>
      hin.modify fun c hc hp => ?_⟩
  · rw [List.map_append, List.nodup_append']
    refine ⟨h.once, List.nodup_singleton _, ?_⟩
    intro j hj hj'
    obtain ⟨r, hr, rfl⟩ := List.mem_map.mp hj
    obtain ⟨c, hc, -, hphase⟩ := h.mine r hr
    rw [List.mem_singleton.mp hj', hi] at hc
    cases hc
    exact hphase rfl
  · rcases List.mem_append.mp hr with hr | hr
    · exact mine_modify (fun _ => rfl) (by simp) (h.mine r hr)
    · rw [List.mem_singleton.mp hr]
      exact ⟨_, hnew, rfl, by simp⟩
  · rw [hlist, List.nodup_append']
    refine ⟨h.distinct, List.nodup_singleton _, ?_⟩
    intro j hj hj'
    exact hfresh (List.mem_singleton.mp hj' ▸ hj)
  · rw [hlist] at hj
    rcases List.mem_append.mp hj with hj | hj
    · exact (h.waiting j hj).modify fun _ _ _ => .inl rfl
    · rw [List.mem_singleton.mp hj]
      exact ⟨_, hnew, .inl rfl⟩
  · obtain ⟨c', hc', ⟨-, rfl⟩ | ⟨-, rfl⟩⟩ := getElem?_change hc
    · cases hphase
    · exact h.received j c result hc' hphase
  · rw [hi] at hc
    cases hc
    simp at hp

/-- The results of a batch wait to be handed out. -/
theorem Served.processed (h : Served w) {taken : Taken Req} {results : List Res}
    (htask : w.task = .processing taken) (hpaired : taken.Paired)
    (hlen : results.length = taken.batch.length) :
    Served { w with
      task := .scattering (taken.responders.zip results) (taken.responders.drop results.length)
      batches := w.batches ++ [(taken, results)] } := by
  have hzip : (taken.responders.zip results).map Prod.fst = taken.responders :=
    List.map_fst_zip (Nat.le_of_eq (by rw [hlen, hpaired]))
  have hlist : ({ w with
      task := .scattering (taken.responders.zip results) (taken.responders.drop results.length)
      batches := w.batches ++ [(taken, results)] } : World Req Res).unanswered = w.unanswered := by
    simp [World.unanswered, Task.unsent, Task.taken, Taken.empty, hzip, htask]
  have hbatch : ∀ {b}, b ∈ w.batches → b ∈ w.batches ++ [(taken, results)] :=
    fun hb => List.mem_append_left _ hb
  refine ⟨h.once, h.mine, ?_, ?_, fun p hp => ?_, fun i c result hc hphase => ?_,
    fun b hb j r res hat => ?_⟩
  · rw [hlist]
    exact h.distinct
  · rw [hlist]
    exact h.waiting
  · obtain ⟨j, hj⟩ := List.mem_iff_getElem?.mp hp
    obtain ⟨hr, hres⟩ := List.getElem?_zip_eq_some.mp hj
    have hlt : j < taken.batch.length := by
      rw [hpaired]
      exact (List.getElem?_eq_some_iff.mp hr).1
    exact ⟨_, List.mem_append_right _ List.mem_cons_self, j, ⟨taken.batch[j], p.1⟩,
      ⟨List.getElem?_eq_getElem hlt, hr, hres⟩, rfl⟩
  · obtain ⟨b, hb, hrest⟩ := h.received i c result hc hphase
    exact ⟨b, hbatch hb, hrest⟩
  · rcases List.mem_append.mp hb with hb | hb
    · refine .inr ((h.answered b hb j r res hat).resolve_left fun hin => ?_)
      rw [htask] at hin
      cases hin
    · rw [List.mem_singleton.mp hb] at hat
      exact .inl (List.mem_of_getElem? (List.getElem?_zip_eq_some.mpr ⟨hat.2.1, hat.2.2⟩))

theorem payload_answer (result : Except String Res) (c : Caller Req Res) :
    (c.answer result).payload = c.payload := by
  unfold Caller.answer
  split <;> rfl

theorem answer_ne_sending (result : Except String Res) {c : Caller Req Res}
    (h : c.phase ≠ .sending) : (c.answer result).phase ≠ .sending := by
  unfold Caller.answer
  split
  · simp
  · exact h

/-- A caller that has its result, or is gone, is not told another one. -/
theorem InPhase.answer {callers : List (Caller Req Res)} {i j : Nat} {res : Res}
    (h : InPhase callers j fun p => p = .returned (.ok res) ∨ p = .dropped)
    (result : Except String Res) :
    InPhase (callers.modify i (Caller.answer result)) j
      fun p => p = .returned (.ok res) ∨ p = .dropped := by
  refine h.modify fun c _ hp => ?_
  rcases hp with hp | hp
  · exact .inl (by simp [Caller.answer, hp])
  · exact .inr (by simp [Caller.answer, hp])

/-- A caller that waits is told its result. -/
theorem InPhase.told {callers : List (Caller Req Res)} {i : Nat}
    (h : InPhase callers i fun p => p = .waiting ∨ p = .dropped) (res : Res) :
    InPhase (callers.modify i (Caller.answer (.ok res))) i
      fun p => p = .returned (.ok res) ∨ p = .dropped := by
  obtain ⟨c, hc, hp⟩ := h
  refine ⟨c.answer (.ok res), ?_, ?_⟩
  · rw [List.getElem?_modify_eq, hc]
    rfl
  · rcases hp with hwait | hdrop
    · exact .inl (by simp [Caller.answer, hwait])
    · exact .inr (by simp [Caller.answer, hdrop])

/-- The result that is handed out next is that of its caller's own payload. -/
theorem Served.own_result (h : Served w) (ho : InOrder maxSize w) {p : Nat × Res}
    (hp : p ∈ w.task.unsent) {c : Caller Req Res} (hc : w.callers[p.1]? = some c) :
    ∃ b ∈ w.batches, ∃ j, At b j ⟨c.payload, p.1⟩ p.2 := by
  obtain ⟨b, hb, j, r, hat, hr⟩ := h.origin p hp
  obtain ⟨c', hc', hpay, -⟩ := h.mine r (ho.mem_sent hb hat)
  rw [hr, hc] at hc'
  cases hc'
  refine ⟨b, hb, j, ?_⟩
  rw [hpay, ← hr]
  exact hat

/-- A result goes to its caller, who is waiting for it or gone. -/
theorem Served.answer (h : Served w) (ho : InOrder maxSize w) {i : Nat} {res : Res}
    {pairs : List (Nat × Res)} {leftover : List Nat}
    (htask : w.task = .scattering ((i, res) :: pairs) leftover) :
    Served { w.answer i (.ok res) with task := .scattering pairs leftover } := by
  have hunsent : w.task.unsent = (i, res) :: pairs := by rw [htask]; rfl
  have hlist : w.unanswered = i :: ({ w.answer i (.ok res) with
      task := .scattering pairs leftover } : World Req Res).unanswered := by
    simp [World.unanswered, World.answer, Task.unsent, Task.taken, htask]
  have hdistinct := h.distinct
  rw [hlist] at hdistinct
  obtain ⟨hnot, hnodup⟩ := List.nodup_cons.mp hdistinct
  have hwaiting := h.waiting i (hlist ▸ List.mem_cons_self)
  refine ⟨h.once, fun r hr => mine_modify (payload_answer _) (fun _ => answer_ne_sending _)
    (h.mine r hr), hnodup, fun j hj => ?_, fun p hp => h.origin p ?_,
    fun j c result hc hphase => ?_, fun b hb j r res' hat => ?_⟩
  · have hij : i ≠ j := fun he => hnot (he ▸ hj)
    exact (h.waiting j (hlist ▸ List.mem_cons_of_mem _ hj)).modify_ne hij _
  · rw [hunsent]
    exact List.mem_cons_of_mem _ hp
  · obtain ⟨c', hc', ⟨rfl, rfl⟩ | ⟨-, rfl⟩⟩ := getElem?_change hc
    · obtain ⟨c₀, hc₀, hp₀⟩ := hwaiting
      rw [hc₀] at hc'
      cases hc'
      rcases hp₀ with hwait | hdrop
      · obtain ⟨b, hb, j, hat⟩ := h.own_result ho (hunsent ▸ List.mem_cons_self) hc₀
        have hres : result = .ok res := by
          simpa [Caller.answer, hwait, eq_comm] using hphase
        exact ⟨b, hb, j, res, (payload_answer (.ok res) _).symm ▸ hat, hres⟩
      · simp [Caller.answer, hdrop] at hphase
    · exact h.received j c result hc' hphase
  · rcases h.answered b hb j r res' hat with hin | hin
    · rw [hunsent] at hin
      rcases List.mem_cons.mp hin with he | hin
      · obtain ⟨hr, rfl⟩ := Prod.mk.inj he
        right
        rw [hr]
        exact hwaiting.told res'
      · exact .inl hin
    · exact .inr (hin.answer _)

/-- A turn of the loop that leaves the requests where they are. -/
theorem Served.turn (h : Served w) {task : Task Req Res} (hunsent : task.unsent = w.task.unsent)
    (hresponders : task.taken.responders = w.task.taken.responders) :
    Served { w with task } := by
  refine h.moveOn rfl rfl rfl hunsent ?_
  rw [World.unanswered, World.unanswered, ← hunsent, ← hresponders]

/-- A request of the channel joins the batch that is collected. -/
theorem Served.push (h : Served w) {taken : Taken Req} {r : BatchRequest Req}
    {queue : List (BatchRequest Req)} (hunsent : w.task.unsent = [])
    (htaken : w.task.taken = taken) (hqueue : w.queue = r :: queue) :
    Served { w with queue, task := fill maxSize (taken.push r) } := by
  refine h.moveOn rfl rfl rfl ?_ ?_
  · rw [unsent_fill, hunsent]
  · simp only [World.unanswered, unsent_fill, taken_fill, hunsent, htaken, hqueue]
    simp [Taken.push]

theorem Served.move (h : Served w) (ho : InOrder maxSize w) (hm : Move maxSize w event w')
    (hone : OnePerInput w event) : Served w' := by
  cases hm with
  | execute payload => exact h.execute payload
  | refuse hi htask =>
    have hclosed := ho.closed (ho.holds_of htask).1 _ (List.mem_of_getElem? hi)
    exact absurd rfl hclosed
  | send hi => exact h.send _ hi
  | drop => exact h.drop _
  | close => exact h.moveOn rfl rfl rfl rfl rfl
  | first htask hqueue => exact h.push (by rw [htask]; rfl) (by rw [htask]; rfl) hqueue
  | next htask hqueue => exact h.push (by rw [htask]; rfl) (by rw [htask]; rfl) hqueue
  | finish htask => exact h.turn (by rw [htask]; rfl) (by rw [htask]; rfl)
  | flush htask => exact h.turn (by rw [htask]; rfl) (by rw [htask]; rfl)
  | processed results htask =>
    have hlen : results.length = _ := hone
    rw [htask] at hlen
    exact h.processed htask (ho.holds_of htask).1 hlen
  | answer htask => exact h.answer ho htask
  | dropResponders htask =>
    have hleftover := ho.holds_of htask
    cases hleftover
    exact h.turn (by rw [htask]; rfl) (by rw [htask]; rfl)

/-! ## The loop gets on -/

/-- A step of the loop. -/
def IsLoop : Event Req Res → Prop
  | .recv | .deadline | .processed _ | .scatter => True
  | .execute _ | .send _ | .drop _ | .close => False

/-- The loop cannot take a step. -/
def AtRest (maxSize : Nat) (w : World Req Res) : Prop :=
  ∀ event, IsLoop event → exec maxSize w event = .error .disabled

def Task.weight : Task Req Res → Nat
  | .filling taken => taken.batch.length + 4
  | .processing taken => taken.batch.length + 3
  | .scattering pairs _ => pairs.length + 2
  | .idle => 1
  | .ended => 0

/-- How many steps of the loop are left at most. -/
def World.work (w : World Req Res) : Nat := 5 * w.queue.length + w.task.weight

theorem weight_fill (Res : Type) (maxSize : Nat) (taken : Taken Req) :
    (fill maxSize taken : Task Req Res).weight ≤ taken.batch.length + 4 := by
  unfold fill
  split <;> simp [Task.weight]

theorem queue_answer_all (leftover : List Nat) (result : Except String Res) (w : World Req Res) :
    (leftover.foldl (fun w i => w.answer i result) w).queue = w.queue := by
  induction leftover generalizing w with
  | nil => rfl
  | cons i leftover ih => exact ih _

/-- Each step of the loop brings it closer to the end. -/
theorem work_decreases (h : InOrder maxSize w) (hm : Move maxSize w event w')
    (hloop : IsLoop event) : w'.work < w.work := by
  cases hm with
  | execute | refuse | send | drop | close => exact hloop.elim
  | @first r queue htask hqueue =>
    have := weight_fill Res maxSize (Taken.empty.push r)
    have hone : (Taken.empty.push r : Taken Req).batch.length = 1 := rfl
    have hold : w.work = 5 * (queue.length + 1) + 1 := by
      rw [World.work, htask, hqueue]
      rfl
    rw [hold]
    dsimp only [World.work]
    omega
  | @next taken r queue htask hqueue =>
    have := weight_fill Res maxSize (taken.push r)
    have hone := Taken.length_push taken r
    have hold : w.work = 5 * (queue.length + 1) + (taken.batch.length + 4) := by
      rw [World.work, htask, hqueue]
      rfl
    rw [hold]
    dsimp only [World.work]
    omega
  | finish htask hqueue =>
    simp [World.work, htask, hqueue, Task.weight]
  | flush htask =>
    simp [World.work, htask, Task.weight]
  | @processed taken results htask =>
    have hpaired : taken.batch.length = taken.responders.length := (h.holds_of htask).1
    simp only [World.work, htask, Task.weight, List.length_zip]
    omega
  | answer htask =>
    simp [World.work, World.answer, htask, Task.weight]
  | @dropResponders leftover htask =>
    simp only [World.work, htask, Task.weight, queue_answer_all, List.length_nil]
    omega

/-- A loop that cannot go on has nothing left to do. -/
theorem settled_of_atRest (h : AtRest maxSize w) :
    w.queue = [] ∧ w.task.taken.requests = [] ∧ w.task.unsent = [] ∨ w.task = .ended := by
  cases htask : w.task with
  | ended => exact .inr rfl
  | idle =>
    cases hqueue : w.queue with
    | nil => exact .inl ⟨rfl, rfl, rfl⟩
    | cons r queue =>
      have := h .recv trivial
      simp [exec, recv, htask, hqueue] at this
  | filling taken =>
    have := h .deadline trivial
    simp [exec, htask] at this
  | processing taken =>
    have := h (.processed []) trivial
    simp [exec, htask] at this
  | scattering pairs leftover =>
    have := h .scatter trivial
    cases pairs <;> simp [exec, htask] at this

/-- What batching owes its callers. -/
structure Faithful (maxSize : Nat) (w : World Req Res) : Prop where
  /-- The batches, what is being collected and the channel are the requests as they were
  sent. -/
  fifo : w.sent = w.batches.flatMap (fun b => b.1.requests) ++ w.task.taken.requests ++ w.queue
  once : (w.sent.map BatchRequest.responder).Nodup
  mine : ∀ r ∈ w.sent, ∃ c, w.callers[r.responder]? = some c ∧ c.payload = r.payload
  sizes : ∀ b ∈ w.batches, 1 ≤ b.1.batch.length ∧ b.1.batch.length ≤ maxSize
  /-- Whatever a caller gets is the result at its own payload's position. -/
  received : ∀ i c result, w.callers[i]? = some c → c.phase = .returned result →
    ∃ b ∈ w.batches, ∃ j res, At b j ⟨c.payload, i⟩ res ∧ result = .ok res
  /-- Every caller of a batch gets its result, unless it is gone. -/
  answered : ∀ b ∈ w.batches, ∀ j r, b.1.requests[j]? = some r → ∃ res, At b j r res ∧
    ((r.responder, res) ∈ w.task.unsent ∨
      InPhase w.callers r.responder fun p => p = .returned (.ok res) ∨ p = .dropped)
  /-- When the loop is at rest every request is in a batch, and all results are handed
  out. -/
  settled : AtRest maxSize w →
    w.sent = w.batches.flatMap (fun b => b.1.requests) ∧ w.task.unsent = []

theorem faithful_of_invariants (ho : InOrder maxSize w) (h : Served w) : Faithful maxSize w := by
  refine ⟨ho.sent, h.once, fun r hr => ?_, fun b hb => ?_, h.received, fun b hb j r hj => ?_,
    fun hrest => ?_⟩
  · obtain ⟨c, hc, hpay, -⟩ := h.mine r hr
    exact ⟨c, hc, hpay⟩
  · exact ⟨(ho.complete b hb).nonempty, (ho.complete b hb).size⟩
  · obtain ⟨p, i, hp, hi, rfl⟩ := List.getElem?_zipWith_eq_some.mp hj
    have hlt : j < b.2.length := by
      rw [(ho.complete b hb).results]
      exact (List.getElem?_eq_some_iff.mp hp).1
    have hat : At b j ⟨p, i⟩ b.2[j] := ⟨hp, hi, List.getElem?_eq_getElem hlt⟩
    exact ⟨_, hat, h.answered b hb j _ _ hat⟩
  · have hsent := ho.sent
    rcases settled_of_atRest hrest with ⟨hqueue, htaken, hunsent⟩ | hended
    · rw [hqueue, htaken, List.append_nil, List.append_nil] at hsent
      exact ⟨hsent, hunsent⟩
    · rw [hended, (ho.holds_of hended).2, List.append_nil] at hsent
      refine ⟨?_, by rw [hended]; rfl⟩
      simpa [Task.taken] using hsent

/-- Three callers, batches of two, and a processor that adds a hundred. -/
def threeCallers : List (Event Nat Nat) :=
  [.execute 1, .execute 2, .execute 3, .send 1, .send 0, .recv, .recv, .send 2,
    .processed [102, 101], .scatter, .scatter, .scatter, .recv, .deadline, .processed [103],
    .scatter, .scatter, .close, .recv]

end JustApi.Core.Batching
