import JustApi.Lib.Tables
import JustApi.Py.WebSockets

/-! # Both directions keep their order

What the receives are given is what arrived, in order and up to the first close; what is
written is what was sent, in order and up to the first close. -/
namespace JustApi.Py.WebSockets
open JustApi.Lib.Run JustApi.Lib.Channels JustApi.Lib.Tables
open JustApi.Core.QueryString (fromUtf8Lossy)

variable {w w' : World} {event : Event}

/-! ## What a step can do -/

/-- Whether a send is a close. -/
def World.closes (w : World) (i : Nat) : Bool := (w.sends[i]?.map (·.message.isClose)).getD false

/-- The steps, each with its guard. -/
inductive Move (w : World) : Event → World → Prop
  | arrive {msg : Option Message} {m : WsMessage} : w.reading = true → forward msg = some m →
      Move w (.arrive msg) { w with
        arrived := w.arrived ++ [msg], incoming := w.incoming.send m, reading := !m.isClose }
  | pass {msg : Option Message} : w.reading = true → forward msg = none →
      Move w (.arrive msg) { w with arrived := w.arrived ++ [msg] }
  | eof : w.reading = true → Move w .eof { w with reading := false }
  | accept (given subprotocol : Option String) : Move w (.accept given) { w with
      subprotocol, clientState := .connected, applicationState := .connected }
  | receive (kind : Receive) :
      Move w (.receive kind) { w with receives := w.receives ++ [⟨kind, .called⟩] }
  | lock {i : Nat} {c : ReceiveCall} : w.receives[i]? = some c → c.phase = .called →
      Move w (.lock i) { w.setReceive i .locking with lock := w.lock ++ [i] }
  | deliver {i : Nat} {lock : List Nat} {given : Option WsMessage}
      {incoming : Channel WsMessage} : w.lock = i :: lock → w.recv? = some (given, incoming) →
      Move w .deliver { w.setReceive i (.given given) with
        lock, incoming, served := w.served ++ [(i, given)] }
  | cancel {i : Nat} {c : ReceiveCall} : w.receives[i]? = some c →
      c.phase = .called ∨ c.phase = .locking →
      Move w (.cancel i) { w.setReceive i .cancelled with lock := w.lock.filter (· ≠ i) }
  | send (message : WsMessage) (clientState applicationState : WebSocketState) :
      Move w (.send message) { w with
        clientState, applicationState, sends := w.sends ++ [⟨message, .called⟩] }
  | refuse {i : Nat} {c : SendCall} : w.sends[i]? = some c → c.phase = .called →
      w.writer = .ended →
      Move w (.flush i) (w.setSend i (if c.message.isClose then .done else .refused))
  | flush {i : Nat} {c : SendCall} : w.sends[i]? = some c → c.phase = .called →
      w.writer ≠ .ended →
      Move w (.flush i) { w.setSend i .done with outgoing := w.outgoing.send i }
  | next {i : Nat} {outgoing : Channel Nat} : w.writer = .idle →
      w.outgoing.recv? = some (i, outgoing) →
      Move w .next { w with writer := .writing i, outgoing }
  | wrote {i : Nat} : w.writer = .writing i → Move w (.wrote true) { w with
      written := w.written ++ [i], writer := if w.closes i then .closing else .idle }
  | fail {i : Nat} : w.writer = .writing i → Move w (.wrote false) { w with writer := .closing }
  | hangUp : w.writer = .idle → w.outgoing.queue = [] → Move w .hangUp { w with writer := .closing }
  | shut : w.writer = .closing → Move w .shut { w with writer := .ended }
  | release : Move w .release { w with released := true }

theorem exec_move (h : exec w event = .ok w') : Move w event w' := by
  unfold exec at h
  cases event with
  | arrive msg =>
    dsimp only at h
    split at h
    · rename_i hreading
      split at h
      · rename_i m hm
        cases h
        exact .arrive hreading hm
      · rename_i hm
        cases h
        exact .pass hreading hm
    · cases h
  | eof =>
    dsimp only at h
    split at h
    · cases h
      exact .eof ‹_›
    · cases h
  | accept given =>
    dsimp only at h
    split at h
    · cases h
    · cases h
      exact .accept given _
  | receive kind =>
    dsimp only at h
    split at h
    · cases h
    · cases h
      exact .receive kind
  | lock i =>
    dsimp only at h
    split at h
    · rename_i hi
      cases h
      exact .lock hi rfl
    · cases h
  | deliver =>
    dsimp only at h
    split at h
    · rename_i hlock hrecv
      cases h
      exact .deliver hlock hrecv
    · cases h
  | cancel i =>
    dsimp only at h
    split at h
    · rename_i hi
      cases h
      exact .cancel hi (.inl rfl)
    · rename_i hi
      cases h
      exact .cancel hi (.inr rfl)
    · cases h
  | send message =>
    dsimp only at h
    split at h
    · cases h
    · cases h
      split
      · exact .send message _ _
      · exact .send message _ _
  | flush i =>
    dsimp only at h
    split at h
    · rename_i hi
      split at h
      · rename_i hended
        cases h
        exact .refuse hi rfl hended
      · rename_i hended
        cases h
        exact .flush hi rfl hended
    · cases h
  | next =>
    dsimp only at h
    split at h
    · rename_i hidle hrecv
      cases h
      exact .next hidle hrecv
    · cases h
  | wrote ok =>
    dsimp only at h
    split at h
    · rename_i hwriting
      cases ok with
      | true =>
        cases h
        exact .wrote hwriting
      | false =>
        cases h
        exact .fail hwriting
    · cases h
  | hangUp =>
    dsimp only at h
    split at h
    · rename_i hguard
      cases h
      exact .hangUp hguard.1 hguard.2.1
    · cases h
  | shut =>
    dsimp only at h
    split at h
    · cases h
      exact .shut ‹_›
    · cases h
  | release =>
    cases h
    exact .release

/-! ## From the peer to the handler -/

/-- What has been read and what has been given. -/
structure Reads (w : World) : Prop where
  entered : w.incoming.entered = w.arrived.filterMap forward
  goesOn : w.reading = true → ∀ m ∈ w.incoming.entered, m.isClose = false
  last : ∀ m ∈ w.incoming.entered.dropLast, m.isClose = false
  given : ∃ n, w.served.map (·.2) = w.incoming.left.map some ++ List.replicate n none ∧
    (n ≠ 0 → w.reading = false ∧ w.incoming.queue = [])

theorem recv?_cases {given : Option WsMessage} {incoming : Channel WsMessage}
    (h : w.recv? = some (given, incoming)) :
    (∃ m, given = some m ∧ w.incoming.queue = m :: incoming.queue ∧
      incoming.entered = w.incoming.entered ∧ incoming.left = w.incoming.left ++ [m]) ∨
    (given = none ∧ incoming = w.incoming ∧ w.reading = false ∧ w.incoming.queue = []) := by
  unfold World.recv? at h
  split at h
  · rename_i m incoming' hrecv
    cases h
    exact .inl ⟨m, rfl, Channel.recv?_eq_some hrecv⟩
  · rename_i hrecv
    split at h
    · cases h
    · rename_i hreading
      cases h
      exact .inr ⟨rfl, rfl, by simpa using hreading, Channel.recv?_eq_none.mp hrecv⟩

theorem reads_new : Reads .new :=
  ⟨rfl, by simp [World.new], by simp [World.new], 0, rfl, fun h => absurd rfl h⟩

theorem Reads.move (h : Reads w) (hmove : Move w event w') : Reads w' := by
  obtain ⟨n, hgiven, hn⟩ := h.given
  cases hmove with
  | @arrive msg m hreading hm =>
    have hopen := h.goesOn hreading
    have hzero : n = 0 := by
      by_contra hne
      simp [hreading] at hn
      exact hne hn
    refine ⟨?_, ?_, ?_, 0, ?_, fun hne => absurd rfl hne⟩
    · simp [h.entered, hm]
    · intro hgoes a ha
      rcases List.mem_append.mp ha with ha | ha
      · exact hopen a ha
      · obtain rfl := List.mem_singleton.mp ha
        simpa using hgoes
    · simpa using hopen
    · simpa [hzero] using hgiven
  | @pass msg hreading hm =>
    exact ⟨by simp [h.entered, hm], h.goesOn, h.last, n, hgiven, hn⟩
  | eof hreading =>
    refine ⟨h.entered, by simp, h.last, n, hgiven, fun hne => ⟨rfl, (hn hne).2⟩⟩
  | @deliver i lock given incoming hlock hrecv =>
    rcases recv?_cases hrecv with ⟨m, rfl, hqueue, hentered, hleft⟩ | ⟨rfl, rfl, hreading, hqueue⟩
    · have hzero : n = 0 := by
        by_contra hne
        simp [hqueue] at hn
        exact hne hn
      refine ⟨hentered.trans h.entered, hentered ▸ h.goesOn, hentered ▸ h.last, 0, ?_,
        fun hne => absurd rfl hne⟩
      simp [hgiven, hleft, hzero]
    · refine ⟨h.entered, h.goesOn, h.last, n + 1, ?_, fun _ => ⟨hreading, hqueue⟩⟩
      simp [hgiven, List.replicate_succ']
  | accept | receive | lock | cancel | send | refuse | flush | next | wrote | fail | hangUp | shut
  | release => exact ⟨h.entered, h.goesOn, h.last, n, hgiven, hn⟩

/-- Where a receive is. -/
def World.receivePhase (w : World) (i : Nat) : Option ReceivePhase := w.receives[i]?.map (·.phase)

theorem receivePhase_setReceive {i : Nat} {c : ReceiveCall} (hc : w.receives[i]? = some c)
    (phase : ReceivePhase) (j : Nat) :
    (w.setReceive i phase).receivePhase j = if i = j then some phase else w.receivePhase j := by
  simp only [World.receivePhase, World.setReceive, List.getElem?_modify]
  split
  · rename_i heq
    subst heq
    simp [hc]
  · simp

theorem receivePhase_concat (w : World) (kind : Receive) (j : Nat) :
    ({ w with receives := w.receives ++ [⟨kind, .called⟩] } : World).receivePhase j =
      if j = w.receives.length then some .called else w.receivePhase j := by
  unfold World.receivePhase
  rcases Nat.lt_trichotomy j w.receives.length with hlt | rfl | hgt
  · simp [List.getElem?_append_left hlt, Nat.ne_of_lt hlt]
  · simp
  · simp [List.getElem?_eq_none (Nat.le_of_lt hgt), Nat.ne_of_gt hgt]
    omega

/-- The receives that wait and those that are over. -/
structure Receives (w : World) : Prop where
  nodup : w.lock.Nodup
  locking : ∀ i, i ∈ w.lock ↔ w.receivePhase i = some .locking
  served : ∀ i given, (i, given) ∈ w.served ↔ w.receivePhase i = some (.given given)
  once : (w.served.map (·.1)).Nodup

theorem receives_new : Receives .new := by
  refine ⟨?_, ?_, ?_, ?_⟩ <;> simp [World.new, World.receivePhase]

/-- A call that is not over is not among those that were served. -/
theorem Receives.not_served (h : Receives w) {i : Nat}
    (hphase : ∀ given, w.receivePhase i ≠ some (.given given)) : i ∉ w.served.map (·.1) := by
  intro hi
  obtain ⟨⟨j, given⟩, hmem, rfl⟩ := List.mem_map.mp hi
  exact hphase given ((h.served _ _).mp hmem)

theorem Receives.move (h : Receives w) (hmove : Move w event w') : Receives w' := by
  cases hmove with
  | receive kind =>
    have hnew : w.receivePhase w.receives.length = none := by simp [World.receivePhase]
    refine ⟨h.nodup, fun i => ?_, fun i given => ?_, h.once⟩
    · rw [receivePhase_concat, h.locking]
      split
      · rename_i heq
        simp [heq, hnew]
      · rfl
    · rw [receivePhase_concat, h.served]
      split
      · rename_i heq
        simp [heq, hnew]
      · rfl
  | @lock i c hc hphase =>
    have hcalled : w.receivePhase i = some .called := by simp [World.receivePhase, hc, hphase]
    refine ⟨?_, fun j => ?_, fun j given => ?_, h.once⟩
    · have hnot : i ∉ w.lock := by
        rw [h.locking, hcalled]
        simp
      exact List.nodup_append.mpr ⟨h.nodup, by simp, fun a ha b hb =>
        List.mem_singleton.mp hb ▸ ne_of_mem_of_not_mem ha hnot⟩
    · change j ∈ w.lock ++ [i] ↔ (w.setReceive i .locking).receivePhase j = _
      rw [receivePhase_setReceive hc, List.mem_append, h.locking, List.mem_singleton]
      split
      · simp [*]
      · rename_i hne
        simp [Ne.symm hne]
    · change (j, given) ∈ w.served ↔ (w.setReceive i .locking).receivePhase j = _
      rw [receivePhase_setReceive hc, h.served]
      split
      · rename_i heq
        simp [← heq, hcalled]
      · rfl
  | @deliver i lock given incoming hlock hrecv =>
    have hlocking : w.receivePhase i = some .locking :=
      (h.locking i).mp (hlock ▸ List.mem_cons_self)
    obtain ⟨c, hc, -⟩ := Option.map_eq_some_iff.mp hlocking
    have hnodup := h.nodup
    rw [hlock, List.nodup_cons] at hnodup
    refine ⟨hnodup.2, fun j => ?_, fun j answer => ?_, ?_⟩
    · change j ∈ lock ↔ (w.setReceive i (.given given)).receivePhase j = _
      rw [receivePhase_setReceive hc]
      split
      · rename_i heq
        simp [← heq, hnodup.1]
      · rename_i hne
        rw [← h.locking, hlock, List.mem_cons]
        simp [Ne.symm hne]
    · change (j, answer) ∈ w.served ++ [(i, given)] ↔
        (w.setReceive i (.given given)).receivePhase j = _
      rw [receivePhase_setReceive hc, List.mem_append, h.served]
      split
      · rename_i heq
        simp [← heq, hlocking, eq_comm]
      · rename_i hne
        simp [Ne.symm hne]
    · simp only [List.map_append, List.map_cons, List.map_nil]
      refine List.nodup_append.mpr ⟨h.once, by simp, fun a ha b hb => ?_⟩
      have hnot := h.not_served (i := i) (by simp [hlocking])
      exact List.mem_singleton.mp hb ▸ ne_of_mem_of_not_mem ha hnot
  | @cancel i c hc hphase =>
    have hopen : ∀ given, w.receivePhase i ≠ some (.given given) := by
      rcases hphase with hphase | hphase <;> simp [World.receivePhase, hc, hphase]
    refine ⟨h.nodup.filter _, fun j => ?_, fun j given => ?_, h.once⟩
    · change j ∈ w.lock.filter (· ≠ i) ↔ (w.setReceive i .cancelled).receivePhase j = _
      rw [receivePhase_setReceive hc, List.mem_filter, h.locking]
      split
      · rename_i heq
        simp [heq]
      · rename_i hne
        simp [Ne.symm hne]
    · change (j, given) ∈ w.served ↔ (w.setReceive i .cancelled).receivePhase j = _
      rw [receivePhase_setReceive hc, h.served]
      split
      · rename_i heq
        simp [← heq, hopen]
      · rfl
  | arrive | pass | eof | accept | send | refuse | flush | next | wrote | fail | hangUp | shut
  | release => exact ⟨h.nodup, h.locking, h.served, h.once⟩

/-! ## From the handler to the peer -/

/-- What the writer has taken from the channel and not written. -/
def Writer.Holds : Writer → List Nat → Prop
  | .idle, taken => taken = []
  | .writing i, taken => taken = [i]
  | .closing, taken | .ended, taken => taken.length ≤ 1

def Writer.Goes (writer : Writer) : Prop := writer ≠ .closing ∧ writer ≠ .ended

structure Writes (w : World) : Prop where
  entered : ∀ i ∈ w.outgoing.entered, ∃ c, w.sends[i]? = some c ∧ c.phase = .done
  once : w.outgoing.entered.Nodup
  left : ∃ taken, w.outgoing.left = w.written ++ taken ∧ w.writer.Holds taken
  last : ∀ i ∈ w.written.dropLast, w.closes i = false
  goesOn : w.writer.Goes → ∀ i ∈ w.written, w.closes i = false
  done : ∀ i c, w.sends[i]? = some c → c.phase = .done →
    i ∈ w.outgoing.entered ∨ w.writer = .ended ∧ c.message.isClose
  refused : ∀ c ∈ w.sends, c.phase = .refused → w.writer = .ended

theorem writes_new : Writes .new := by
  refine ⟨?_, ?_, ⟨[], ?_, ?_⟩, ?_, ?_, ?_, ?_⟩ <;> simp [World.new, Writer.Holds]

theorem closes_setSend (w : World) (i : Nat) (phase : SendPhase) (j : Nat) :
    (w.setSend i phase).closes j = w.closes j := by
  simp only [World.closes, World.setSend, List.getElem?_modify]
  cases w.sends[j]? with
  | none => rfl
  | some c => by_cases heq : i = j <;> simp [heq]

theorem Writes.written_subset (h : Writes w) : w.written ⊆ w.outgoing.entered := by
  obtain ⟨taken, hleft, -⟩ := h.left
  intro i hi
  exact w.outgoing.left_prefix.subset (hleft ▸ List.mem_append_left _ hi)

/-- A send that has not been done is not in the channel. -/
theorem Writes.not_entered (h : Writes w) {i : Nat} {c : SendCall} (hc : w.sends[i]? = some c)
    (hphase : c.phase = .called) : i ∉ w.outgoing.entered := by
  intro hi
  obtain ⟨c', hc', hdone⟩ := h.entered i hi
  rw [hc] at hc'
  cases hc'
  rw [hphase] at hdone
  cases hdone

/-- A step of the writer alone. -/
theorem Writes.writer (h : Writes w) {outgoing : Channel Nat} {writer : Writer}
    {written : List Nat} (hentered : outgoing.entered = w.outgoing.entered)
    (hleft : ∃ taken, outgoing.left = written ++ taken ∧ writer.Holds taken)
    (hlast : ∀ i ∈ written.dropLast, w.closes i = false)
    (hgoes : writer.Goes → ∀ i ∈ written, w.closes i = false)
    (hended : w.writer = .ended → writer = .ended) :
    Writes { w with outgoing, writer, written } where
  entered := hentered ▸ h.entered
  once := hentered ▸ h.once
  left := hleft
  last := hlast
  goesOn := hgoes
  done := by
    intro i c hc hdone
    rcases h.done i c hc hdone with hin | ⟨hw, hclose⟩
    · exact .inl (hentered ▸ hin)
    · exact .inr ⟨hended hw, hclose⟩
  refused c hc href := hended (h.refused c hc href)

theorem Writes.send (h : Writes w) (message : WsMessage)
    (clientState applicationState : WebSocketState) :
    Writes { w with
      clientState, applicationState, sends := w.sends ++ [⟨message, .called⟩] } := by
  have hcloses : ∀ i ∈ w.written,
      ({ w with clientState, applicationState, sends := w.sends ++ [⟨message, .called⟩] } :
        World).closes i = w.closes i := by
    intro i hi
    obtain ⟨c, hc, -⟩ := h.entered i (h.written_subset hi)
    simp only [World.closes, getElem?_concat_of_some hc, hc]
  refine ⟨fun i hi => ?_, h.once, h.left, fun i hi => ?_, fun hgoes i hi => ?_, ?_, ?_⟩
  · obtain ⟨c, hc, hdone⟩ := h.entered i hi
    exact ⟨c, getElem?_concat_of_some hc _, hdone⟩
  · rw [hcloses i (List.dropLast_sublist _ |>.subset hi)]
    exact h.last i hi
  · rw [hcloses i hi]
    exact h.goesOn hgoes i hi
  · intro i c hc hdone
    rcases getElem?_concat.mp hc with hc | ⟨-, rfl⟩
    · exact h.done i c hc hdone
    · cases hdone
  · intro c hc href
    rcases List.mem_append.mp hc with hc | hc
    · exact h.refused c hc href
    · obtain rfl := List.mem_singleton.mp hc
      cases href

/-- A send that is done or refused, and goes into the channel if it can. -/
theorem Writes.settle (h : Writes w) {i : Nat} {c : SendCall} {phase : SendPhase}
    {outgoing : Channel Nat} (hc : w.sends[i]? = some c) (hphase : c.phase = .called)
    (hentered : outgoing.entered = w.outgoing.entered ∨
      outgoing.entered = w.outgoing.entered ++ [i] ∧ phase = .done)
    (hleft : outgoing.left = w.outgoing.left)
    (hdone : phase = .done → i ∈ outgoing.entered ∨ w.writer = .ended ∧ c.message.isClose)
    (href : phase = .refused → w.writer = .ended) :
    Writes { w.setSend i phase with outgoing } := by
  have hnew : i ∉ w.outgoing.entered := h.not_entered hc hphase
  have hsub : w.outgoing.entered ⊆ outgoing.entered := by
    rcases hentered with heq | ⟨heq, -⟩
    · exact heq ▸ List.Subset.refl _
    · exact heq ▸ List.subset_append_left _ _
  refine ⟨fun j hj => ?_, ?_, hleft ▸ h.left, fun j hj => ?_, fun hgoes j hj => ?_, ?_, ?_⟩
  · have hold : ∀ j ∈ w.outgoing.entered, ∃ c, (w.setSend i phase).sends[j]? = some c ∧
        c.phase = .done := by
      intro j hj
      obtain ⟨c', hc', hdone'⟩ := h.entered j hj
      refine ⟨_, getElem?_modify_of_some hc', ?_⟩
      rw [if_neg (ne_of_mem_of_not_mem hj hnew).symm]
      exact hdone'
    rcases hentered with heq | ⟨heq, rfl⟩
    · exact hold j (heq ▸ hj)
    · rcases List.mem_append.mp (heq ▸ hj) with hj | hj
      · exact hold j hj
      · obtain rfl := List.mem_singleton.mp hj
        exact ⟨_, getElem?_modify_of_some hc, by simp⟩
  · rcases hentered with heq | ⟨heq, -⟩
    · exact heq ▸ h.once
    · refine heq ▸ List.nodup_append.mpr ⟨h.once, by simp, fun a ha b hb => ?_⟩
      exact List.mem_singleton.mp hb ▸ ne_of_mem_of_not_mem ha hnew
  · exact (closes_setSend w i phase j).trans (h.last j hj)
  · exact (closes_setSend w i phase j).trans (h.goesOn hgoes j hj)
  · intro j c' hc' hdone'
    obtain ⟨old, hold, rfl⟩ := getElem?_modify.mp hc'
    split at hdone'
    · rename_i heq
      subst heq
      rw [hc] at hold
      cases hold
      rw [if_pos rfl]
      exact hdone hdone'
    · rename_i hne
      rw [if_neg hne]
      exact (h.done j old hold hdone').imp (fun hin => hsub hin) id
  · intro c' hc' href'
    obtain ⟨j, hj⟩ := List.mem_iff_getElem?.mp hc'
    obtain ⟨old, hold, rfl⟩ := getElem?_modify.mp hj
    split at href'
    · exact href href'
    · exact h.refused old (List.mem_of_getElem? hold) href'

theorem Writes.move (h : Writes w) (hmove : Move w event w') : Writes w' := by
  obtain ⟨taken, hleft, hholds⟩ := h.left
  cases hmove with
  | send message => exact h.send message _ _
  | @refuse i c hc hphase hended =>
    refine h.settle hc hphase (.inl rfl) rfl (fun hdone => .inr ⟨hended, ?_⟩) fun _ => hended
    split at hdone
    · assumption
    · cases hdone
  | @flush i c hc hphase hended =>
    exact h.settle hc hphase (.inr ⟨rfl, rfl⟩) rfl (fun _ => .inl (by simp)) (fun href => by cases href)
  | @next i outgoing hidle hrecv =>
    obtain ⟨-, hentered, hleft'⟩ := Channel.recv?_eq_some hrecv
    have hnil : taken = [] := by simpa [hidle, Writer.Holds] using hholds
    refine h.writer hentered ⟨[i], ?_, rfl⟩ h.last (fun _ => ?_) (by simp [hidle])
    · rw [hleft', hleft, hnil, List.append_nil]
    · exact h.goesOn (by simp [hidle, Writer.Goes])
  | @wrote i hwriting =>
    have hone : taken = [i] := by simpa [hwriting, Writer.Holds] using hholds
    have hopen := h.goesOn (by simp [hwriting, Writer.Goes])
    refine h.writer rfl ⟨[], ?_, ?_⟩ (by simpa using hopen) ?_ (by simp [hwriting])
    · rw [hleft, hone, List.append_nil]
    · split <;> simp [Writer.Holds]
    · intro hgoes j hj
      split at hgoes
      · exact absurd rfl hgoes.1
      · rename_i hclose
        rcases List.mem_append.mp hj with hj | hj
        · exact hopen j hj
        · obtain rfl := List.mem_singleton.mp hj
          simpa using hclose
  | @fail i hwriting =>
    have hone : taken = [i] := by simpa [hwriting, Writer.Holds] using hholds
    exact h.writer rfl ⟨[i], hone ▸ hleft, Nat.le_refl _⟩ h.last (fun hgoes => absurd rfl hgoes.1)
      (by simp [hwriting])
  | hangUp hidle =>
    have hnil : taken = [] := by simpa [hidle, Writer.Holds] using hholds
    exact h.writer rfl ⟨[], hnil ▸ hleft, Nat.zero_le _⟩ h.last (fun hgoes => absurd rfl hgoes.1)
      (by simp [hidle])
  | shut hclosing =>
    rw [hclosing] at hholds
    exact h.writer rfl ⟨taken, hleft, hholds⟩ h.last (fun hgoes => absurd rfl hgoes.2) (fun _ => rfl)
  | arrive | pass | eof | accept | receive | lock | deliver | cancel | release =>
    exact ⟨h.entered, h.once, h.left, h.last, h.goesOn, h.done, h.refused⟩

/-! ## Runs -/

/-- Whether a receive was told that the connection is over. -/
def Disconnected : Option WsMessage → Prop
  | some m => m.isClose = true
  | none => True

/-- A receive other than `receive` raises exactly if the connection is over for it. -/
theorem result_eq_disconnect {J E : Type} (loads : String → Except E J) (kind : Receive)
    (given : Option WsMessage) :
    kind.result loads given = .error (.webSocketDisconnect 1000 "") ↔
      kind ≠ .any ∧ Disconnected given := by
  cases given with
  | none => cases kind <;> simp [Receive.result, Receive.native, Disconnected]
  | some m =>
    cases m with
    | close => cases kind <;> simp [Receive.result, Receive.native, Disconnected, WsMessage.isClose]
    | text t =>
      cases kind <;> simp [Receive.result, Receive.native, Disconnected, WsMessage.isClose]
      cases loads t <;> simp [Except.mapError, Except.map]
    | bytes b =>
      cases kind <;> simp [Receive.result, Receive.native, Disconnected, WsMessage.isClose]
      cases loads (fromUtf8Lossy b) <;> simp [Except.mapError, Except.map]

/-- The `k`th receive that is served gets the `k`th message. -/
structure Inbound (w : World) : Prop where
  order : ∀ (k i : Nat) (m : WsMessage), w.served[k]? = some (i, some m) →
    (w.arrived.filterMap forward)[k]? = some m
  ended : ∀ k i : Nat, w.served[k]? = some (i, none) →
    w.reading = false ∧ (w.arrived.filterMap forward).length ≤ k
  closed : ∀ (j k : Nat) (r s : Nat × Option WsMessage), j < k → w.served[j]? = some r →
    w.served[k]? = some s → ∀ (J E : Type) (loads : String → Except E J) (kind kind' : Receive),
      kind.result loads r.2 = .error (.webSocketDisconnect 1000 "") → kind' ≠ .any →
        kind'.result loads s.2 = .error (.webSocketDisconnect 1000 "")
  once : (w.served.map (·.1)).Nodup
  own : ∀ i given, (i, given) ∈ w.served ↔ w.receivePhase i = some (.given given)

/-- The frames are those of the sends that were done, in order, and a close is the last. -/
structure Outbound (w : World) : Prop where
  order : w.written <+: w.outgoing.entered
  once : w.outgoing.entered.Nodup
  done : ∀ i ∈ w.outgoing.entered, ∃ c, w.sends[i]? = some c ∧ c.phase = .done
  last : ∀ i ∈ w.written.dropLast, w.closes i = false
  stops : ∀ i ∈ w.written, w.closes i = true → w.writer = .closing ∨ w.writer = .ended
  refused : ∀ c ∈ w.sends, c.phase = .refused → w.writer = .ended

theorem Reads.getElem?_served (h : Reads w) {k : Nat} {r : Nat × Option WsMessage}
    (hk : w.served[k]? = some r) :
    (∃ m, r.2 = some m ∧ w.incoming.left[k]? = some m) ∨
      (r.2 = none ∧ w.reading = false ∧ w.incoming.queue = [] ∧ w.incoming.left.length ≤ k) := by
  obtain ⟨n, hgiven, hn⟩ := h.given
  have hr : (w.served.map (·.2))[k]? = some r.2 := by simp [hk]
  rw [hgiven, List.getElem?_append] at hr
  split at hr
  · rename_i hlt
    rw [List.getElem?_map] at hr
    obtain ⟨m, hm, hrm⟩ := Option.map_eq_some_iff.mp hr
    exact .inl ⟨m, hrm.symm, hm⟩
  · rename_i hge
    rw [List.length_map] at hr hge
    rw [List.getElem?_replicate] at hr
    split at hr
    · obtain ⟨hreading, hqueue⟩ := hn (by omega)
      exact .inr ⟨(Option.some.inj hr).symm, hreading, hqueue, Nat.le_of_not_lt hge⟩
    · cases hr

theorem Reads.inbound (h : Reads w) (hr : Receives w) : Inbound w where
  order := by
    intro k i m hk
    rcases h.getElem?_served hk with ⟨m', hm', hleft⟩ | ⟨hnone, -⟩
    · cases hm'
      rw [← h.entered]
      exact getElem?_of_prefix w.incoming.left_prefix hleft
    · cases hnone
  ended := by
    intro k i hk
    rcases h.getElem?_served hk with ⟨m', hm', -⟩ | ⟨-, hreading, hqueue, hlen⟩
    · cases hm'
    · rw [← h.entered, Channel.entered_eq_left hqueue]
      exact ⟨hreading, hlen⟩
  closed := by
    intro j k r s hjk hj hk J E loads kind kind' hraises hkind
    have hover := ((result_eq_disconnect loads kind r.2).mp hraises).2
    refine (result_eq_disconnect loads kind' s.2).mpr ⟨hkind, ?_⟩
    rcases h.getElem?_served hk with ⟨m, hm, hleft⟩ | ⟨hnone, -⟩
    · -- an earlier message is not the last one, and only that can be a close
      rcases h.getElem?_served hj with ⟨m', hm', hleft'⟩ | ⟨-, -, -, hlen⟩
      · have hlen := w.incoming.left_prefix.length_le
        have hlt := (List.getElem?_eq_some_iff.mp hleft).1
        have hin : w.incoming.entered.dropLast[j]? = some m' := by
          rw [List.getElem?_dropLast, if_pos (by omega)]
          exact getElem?_of_prefix w.incoming.left_prefix hleft'
        rw [hm'] at hover
        exact absurd hover (by simp [Disconnected, h.last m' (List.mem_of_getElem? hin)])
      · have hlt := (List.getElem?_eq_some_iff.mp hleft).1
        omega
    · rw [hnone]
      trivial
  once := hr.once
  own := hr.served

theorem Writes.outbound (h : Writes w) : Outbound w where
  order := by
    obtain ⟨taken, hleft, -⟩ := h.left
    have hprefix := w.outgoing.left_prefix
    rw [hleft] at hprefix
    exact (List.prefix_append _ _).trans hprefix
  once := h.once
  done := h.entered
  last := h.last
  stops := by
    intro i hi hclose
    by_contra hnot
    obtain ⟨hclosing, hended⟩ := not_or.mp hnot
    have := h.goesOn ⟨hclosing, hended⟩ i hi
    simp [hclose] at this
  refused := h.refused

/-- The three invariants together. -/
structure Sound (w : World) : Prop where
  reads : Reads w
  receives : Receives w
  writes : Writes w

theorem Sound.move (h : Sound w) (hmove : Move w event w') : Sound w' :=
  ⟨h.reads.move hmove, h.receives.move hmove, h.writes.move hmove⟩

theorem sound_of_run {tr : List (Event × World)} (hrun : Along Step .new tr) :
    ∀ w ∈ visited .new tr, Sound w :=
  hrun.invariant (fun _ _ _ h hstep => h.move (exec_move hstep))
    ⟨reads_new, receives_new, writes_new⟩

/-- Two receives in turn, a send after the close, and a third receive when the peer is gone. -/
def echoOnce : List Event :=
  [.accept none, .receive .text, .lock 0, .arrive (some (.ping [])), .arrive (some (.text "a")),
    .deliver, .send (.text "b"), .flush 0, .next, .receive .bytes, .arrive (some (.close none)),
    .wrote true, .lock 1, .deliver, .send (.close (some 1000) none), .flush 1,
    .send (.text "c"), .flush 2, .next, .wrote true, .receive .text, .lock 2, .deliver, .shut,
    .send (.bytes []), .flush 3]

end JustApi.Py.WebSockets
