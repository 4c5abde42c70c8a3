import JustApi.Core.CoalesceSteps

/-! # The bodies waiting requests get

The fan-out body publishes what it has read so far, at the end of the stream and also
when it is dropped, and it reads past errors. What waiting requests get is the whole
body of the leader's response as long as bodies are read to their end and yield no
error. -/
namespace JustApi.Core.CoalesceBodies
open JustApi.Lib.Run JustApi.Core.Http JustApi.Core.Coalesce
open Function (update update_self update_of_ne)

/-- The data a body yields, errors passed over. -/
def bytesOf (body : ResponseBody) : Bytes :=
  body.flatMap fun
    | .ok frame => frame.bytes
    | .error _ => []

/-- The whole of a body, if it comes to a normal end. -/
def wholeBody (body : ResponseBody) : Option Bytes :=
  if ∀ event ∈ body, event.isOk then some (bytesOf body) else none

theorem wholeBody_eq_some {body : ResponseBody} {bytes : Bytes} :
    wholeBody body = some bytes ↔ (∀ event ∈ body, event.isOk) ∧ bytesOf body = bytes := by
  unfold wholeBody
  split
  · rename_i h
    exact ⟨fun heq => ⟨h, Option.some.inj heq⟩, fun heq => by rw [heq.2]⟩
  · rename_i h
    exact ⟨nofun, fun heq => absurd heq.1 h⟩

theorem wholeBody_toResponse (c : CoalescedResponse) :
    wholeBody c.toResponse.body = some c.body := by
  rw [wholeBody_eq_some]
  unfold CoalescedResponse.toResponse
  dsimp only
  split
  · rename_i h
    simp [h, bytesOf]
  · simp [bytesOf, Frame.bytes, Except.isOk, Except.toBool]

/-- A part of a body is the whole exactly if the body has no error and the rest no
data. -/
theorem wholeBody_append {consumed inner : ResponseBody} :
    wholeBody (consumed ++ inner) = some (bytesOf consumed) ↔
      (∀ event ∈ consumed ++ inner, event.isOk) ∧ bytesOf inner = [] := by
  rw [wholeBody_eq_some]
  simp [bytesOf]

section Properties

variable (s : State)

/-- The response a request has got from its leader, or gets if it looks now. -/
def Answer (p : Phase) (ch : Nat) (r : Response) : Prop :=
  p = .answered ch r ∨
    p.waits = some ch ∧ ∃ c, (s.channels ch).value = .ok c ∧ r = c.toResponse

/-- Every response `wait_for_leader` returns has the whole body of the leader's
response. -/
def Complete : Prop :=
  ∀ (i : Nat) (t : Task) (ch : Nat) (r : Response), s.tasks[i]? = some t →
    Answer s t.phase ch r →
    ∃ leader bytes, (s.channels ch).origin = some leader ∧ wholeBody leader.body = some bytes ∧
      wholeBody r.body = some bytes

/-- A body that is published to somebody yields no error and has no data left. -/
def ReadOut (a : Action) : Phase → Prop
  | .streaming ch b =>
    ((Phase.streaming ch b).published a).isSome = true → s.heardOn ch = true →
      ∀ leader ∈ (s.channels ch).origin,
        (∀ event ∈ leader.body, event.isOk) ∧ bytesOf b.inner = []
  | _ => True

instance (a : Action) : ∀ p, Decidable (ReadOut s a p)
  | .streaming ch b => inferInstanceAs (Decidable (
      ((Phase.streaming ch b).published a).isSome = true → s.heardOn ch = true →
        ∀ leader ∈ (s.channels ch).origin,
          (∀ event ∈ leader.body, event.isOk) ∧ bytesOf b.inner = []))
  | .arrived | .found _ | .subscribed _ _ | .parked _ _ | .running _ | .queued _ _ | .removed _ _
  | .answered _ _ | .failed _ | .gone => .isTrue trivial

end Properties

/-- An event that publishes no part of a body for the whole of it. -/
def Whole (s : State) : Event → Prop
  | .arrive _ => True
  | .act i a => ∀ t ∈ s.tasks[i]?, ReadOut s a t.phase

instance (s : State) : ∀ e, Decidable (Whole s e)
  | .arrive _ => .isTrue trivial
  | .act i a => inferInstanceAs (Decidable (∀ t ∈ s.tasks[i]?, ReadOut s a t.phase))

/-- Fan-out bodies have kept what they have read; what is published is whole. -/
structure Faithful (s : State) : Prop where
  streams : ∀ (i : Nat) (req : Request) (ch : Nat) (b : FanoutBody),
    s.tasks[i]? = some ⟨req, .streaming ch b⟩ → b.finished = false →
    ∃ leader consumed, (s.channels ch).origin = some leader ∧
      leader.body = consumed ++ b.inner ∧ b.acc = bytesOf consumed
  values : ∀ (ch : Nat) (c : CoalescedResponse), (s.channels ch).value = .ok c →
    ∃ leader, (s.channels ch).origin = some leader ∧ wholeBody leader.body = some c.body
  answers : ∀ (i : Nat) (req : Request) (ch : Nat) (r : Response),
    s.tasks[i]? = some ⟨req, .answered ch r⟩ →
    ch < s.next ∧ ∃ c, (s.channels ch).value = .ok c ∧ r = c.toResponse

variable {includeHeaders : List String} {s s' : State}

theorem faithful_empty : Faithful State.empty where
  streams := by simp [State.empty]
  values := by simp [State.empty, Channel.new]
  answers := by simp [State.empty]

theorem Faithful.complete (h : Faithful s) : Complete s := by
  intro i t ch r ht hans
  obtain ⟨req, p⟩ := t
  have hvalue : ∃ c, (s.channels ch).value = .ok c ∧ r = c.toResponse := by
    obtain hans | ⟨-, hvalue⟩ := hans
    · cases hans
      exact (h.answers i req ch r ht).2
    · exact hvalue
  obtain ⟨c, hc, rfl⟩ := hvalue
  obtain ⟨leader, horigin, hwhole⟩ := h.values ch c hc
  exact ⟨leader, c.body, horigin, hwhole, wholeBody_toResponse c⟩

theorem Faithful.arrive (h : Faithful s) (req : Request) : Faithful (s.arrive req) := by
  refine ⟨?_, h.values, ?_⟩
  · intro i req' ch b ht hfin
    obtain ht | ht := getElem?_arrive ht
    · exact h.streams i req' ch b ht hfin
    · cases ht
  · intro i req' ch r ht
    obtain ht | ht := getElem?_arrive ht
    · exact h.answers i req' ch r ht
    · cases ht

section Becoming

variable {i : Nat} {req : Request} {p p' : Phase}

/-- A request moves on and does not come to stream or to be answered. -/
theorem Faithful.become (h : Faithful s)
    (hstream : ∀ ch b, p' = .streaming ch b → b.finished = false →
      ∃ leader consumed, (s.channels ch).origin = some leader ∧
        leader.body = consumed ++ b.inner ∧ b.acc = bytesOf consumed)
    (hanswer : ∀ ch r, p' = .answered ch r →
      ch < s.next ∧ ∃ c, (s.channels ch).value = .ok c ∧ r = c.toResponse) :
    Faithful (s.become i req p') := by
  refine ⟨?_, h.values, ?_⟩
  · intro j req' ch b hj hfin
    obtain ⟨rfl, heq⟩ | ⟨-, hj'⟩ := getElem?_become hj
    · cases heq
      exact hstream ch b rfl hfin
    · exact h.streams j req' ch b hj' hfin
  · intro j req' ch r hj
    obtain ⟨rfl, heq⟩ | ⟨-, hj'⟩ := getElem?_become hj
    · cases heq
      exact hanswer ch r rfl
    · exact h.answers j req' ch r hj'

/-- A new channel is nobody's yet. -/
theorem Faithful.openChannel (h : Faithful s) (hw : Wired s) (key : CoalesceKey) :
    Faithful (s.openChannel key) := by
  have hold : ∀ {ch}, ch < s.next → (s.openChannel key).channels ch = s.channels ch :=
    fun hlt => update_of_ne (Nat.ne_of_lt hlt) _ _
  refine ⟨?_, ?_, ?_⟩
  · intro j req' ch b hj hfin
    rw [hold (hw.led j _ ch hj (by simp [Phase.publishes, hfin])).1]
    exact h.streams j req' ch b hj hfin
  · intro ch c hc
    by_cases hch : ch = s.next
    · subst hch
      simp [State.openChannel, Channel.new] at hc
    · have hsame : (s.openChannel key).channels ch = s.channels ch := update_of_ne hch _ _
      rw [hsame] at hc ⊢
      exact h.values ch c hc
  · intro j req' ch r hj
    obtain ⟨hlt, hvalue⟩ := h.answers j req' ch r hj
    rw [hold hlt]
    exact ⟨Nat.lt_succ_of_lt hlt, hvalue⟩

/-- A leader hands its response out. -/
theorem Faithful.stream (h : Faithful s) (hw : Wired s) {ch : Nat} {r : Response}
    (ht : s.tasks[i]? = some ⟨req, .removed ch (.ok r)⟩) :
    Faithful ((s.record ch r).become i req (.streaming ch (.of r))) := by
  have hpending : (s.channels ch).value = .pending := (hw.led i _ ch ht rfl).2
  have hold : ∀ {ch'}, ch' ≠ ch → (s.record ch r).channels ch' = s.channels ch' :=
    fun hne => update_of_ne hne _ _
  refine ⟨?_, ?_, ?_⟩
  · intro j req' ch' b hj hfin
    obtain ⟨rfl, heq⟩ | ⟨hne, hj'⟩ := getElem?_become hj
    · cases heq
      exact ⟨r, [], by simp [State.become, State.record], rfl, rfl⟩
    · have hother : ch' ≠ ch :=
        hw.publishes_ne ht hj' rfl (by simp [Phase.publishes, hfin]) hne
      show ∃ leader consumed, ((s.record ch r).channels ch').origin = some leader ∧ _
      rw [hold hother]
      exact h.streams j req' ch' b hj' hfin
  · intro ch' c hc
    change ((s.record ch r).channels ch').value = _ at hc
    rw [record_value] at hc
    have hother : ch' ≠ ch := by
      intro heq
      rw [heq, hpending] at hc
      cases hc
    show ∃ leader, ((s.record ch r).channels ch').origin = some leader ∧ _
    rw [hold hother]
    exact h.values ch' c hc
  · intro j req' ch' r' hj
    show ch' < s.next ∧ ∃ c, ((s.record ch r).channels ch').value = .ok c ∧ _
    rw [record_value]
    obtain ⟨rfl, heq⟩ | ⟨-, hj'⟩ := getElem?_become hj
    · cases heq
    · exact h.answers j req' ch' r' hj'

/-- What a body publishes is the whole of the leader's body exactly if the body has no
error and no data is left. -/
theorem Faithful.snapshot_whole (h : Faithful s) {ch : Nat} {b : FanoutBody} {leader : Response}
    (ht : s.tasks[i]? = some ⟨req, .streaming ch b⟩) (hfin : b.finished = false)
    (horigin : (s.channels ch).origin = some leader) :
    wholeBody leader.body = some b.acc ↔
      (∀ event ∈ leader.body, event.isOk) ∧ bytesOf b.inner = [] := by
  obtain ⟨leader', consumed, horigin', hbody, hacc⟩ := h.streams i req ch b ht hfin
  rw [horigin] at horigin'
  cases horigin'
  rw [hacc, hbody]
  exact wholeBody_append

/-- A request publishes an error, or a body that has been read out. -/
theorem Faithful.publish (h : Faithful s) (hw : Wired s) {a : Action} {ch : Nat} {o : Outcome}
    (ht : s.tasks[i]? = some ⟨req, p⟩) (hpub : p.published a = some (ch, o))
    (hp : ∀ ch b, p' = .streaming ch b → b.finished = true) (hp' : ∀ ch r, p' ≠ .answered ch r)
    (hc : ReadOut s a p) : Faithful ((s.send ch o).become i req p') := by
  have hpending : (s.channels ch).value = .pending :=
    (hw.led i _ ch ht (Phase.publishes_of_published hpub).1).2
  refine ⟨?_, ?_, ?_⟩
  · intro j req' ch' b hj hfin
    show ∃ leader consumed, ((s.send ch o).channels ch').origin = some leader ∧ _
    rw [send_origin]
    obtain ⟨rfl, heq⟩ | ⟨-, hj'⟩ := getElem?_send_become hj
    · cases heq
      rw [hp ch' b rfl] at hfin
      cases hfin
    · exact h.streams j req' ch' b hj' hfin
  · intro ch' c hvalue
    change ((s.send ch o).channels ch').value = _ at hvalue
    show ∃ leader, ((s.send ch o).channels ch').origin = some leader ∧ _
    rw [send_origin]
    by_cases hsame : ch' = ch ∧ s.heardOn ch = true
    · obtain ⟨rfl, hon⟩ := hsame
      have ho : o = .ok c := by simpa [State.send, hon] using hvalue
      obtain ⟨message, rfl, rfl⟩ | ⟨b, rfl, hfin, rfl⟩ := Phase.published_cases hpub
      · cases ho
      · cases ho
        obtain ⟨leader, -, horigin, -⟩ := h.streams i req ch' b ht hfin
        have hread := hc (by simp [hpub]) hon leader horigin
        exact ⟨leader, horigin, (h.snapshot_whole ht hfin horigin).mpr hread⟩
    · have hold : (s.send ch o).channels ch' = s.channels ch' := by
        by_cases hch : ch' = ch
        · have hoff : s.heardOn ch = false := eq_false_of_ne_true fun hon => hsame ⟨hch, hon⟩
          simp [State.send, hoff]
        · exact send_channels_ne hch o
      rw [hold] at hvalue
      exact h.values ch' c hvalue
  · intro j req' ch' r hj
    obtain ⟨rfl, heq⟩ | ⟨-, hj'⟩ := getElem?_send_become hj
    · cases heq
      exact absurd rfl (hp' ch' r)
    · obtain ⟨hlt, c, hvalue, hr⟩ := h.answers j req' ch' r hj'
      have hother : ch' ≠ ch := by
        intro heq
        rw [heq, hpending] at hvalue
        cases hvalue
      refine ⟨by simpa [State.become] using hlt, c, ?_, hr⟩
      show ((s.send ch o).channels ch').value = _
      rwa [send_channels_ne hother]

/-- A poll that does not end the body keeps what it has read. -/
theorem Faithful.read (h : Faithful s) {ch : Nat} {b : FanoutBody}
    (ht : s.tasks[i]? = some ⟨req, .streaming ch b⟩) (hpoll : b.pollFrame.2 = none) :
    Faithful (s.become i req (.streaming ch b.pollFrame.1)) := by
  refine h.become ?_ nofun
  intro ch' b' heq hfin
  cases heq
  rw [FanoutBody.pollFrame_finished hpoll] at hfin
  obtain ⟨leader, consumed, horigin, hbody, hacc⟩ := h.streams i req ch b ht hfin
  unfold FanoutBody.pollFrame at hpoll ⊢
  cases hinner : b.inner with
  | nil => simp [hinner, hfin] at hpoll
  | cons event rest =>
    refine ⟨leader, consumed ++ [event], horigin, ?_, ?_⟩
    · cases event <;> simp [hbody, hinner]
    · cases event <;> simp [hacc, bytesOf]

end Becoming

/-! ## Whole runs -/

/-- An event that publishes no part for the whole keeps everything whole. -/
theorem Faithful.move {e : Event} (h : Faithful s) (hw : Wired s) (hm : Move includeHeaders s e s')
    (hc : Whole s e) : Faithful s' := by
  cases hm with
  | arrive req => exact h.arrive req
  | join ht hkey => exact h.become nofun nofun
  | lead ht hkey => exact (h.openChannel hw _).become nofun nofun
  | subscribe ht => exact h.become nofun nofun
  | park ht hv => exact h.become nofun nofun
  | wake ht hv => exact h.become nofun nofun
  | @answer i req ch seen c ht hv =>
    refine h.become nofun fun ch' r heq => ?_
    cases heq
    exact ⟨hw.waited _ _ ch ht rfl, c, hv, rfl⟩
  | share ht hv => exact h.become nofun nofun
  | suspend result ht => exact h.become nofun nofun
  | remove ht hp => exact Faithful.become ⟨h.streams, h.values, h.answers⟩ nofun nofun
  | stream ht => exact h.stream hw ht
  | publish ht hpub hp =>
    refine h.publish hw ht hpub ?_ ?_ (hc _ ht)
    · obtain rfl | ⟨_, rfl⟩ | ⟨b, rfl, hfin⟩ := hp
      · exact nofun
      · exact nofun
      · intro ch b heq
        cases heq
        exact hfin
    · obtain rfl | ⟨_, rfl⟩ | ⟨_, rfl, _⟩ := hp <;> exact nofun
  | read ht hpoll => exact h.read ht hpoll
  | discard ht hfin => exact h.become nofun nofun
  | leave ht hp => exact h.become nofun nofun
  | abandon ht hp => exact h.become nofun nofun

/-- A body that is published to somebody and leaves everything complete was read
out. -/
theorem Faithful.readOut (h : Faithful s) {i : Nat} {req : Request} {p p' : Phase} {a : Action}
    {ch : Nat} {o : Outcome} (ht : s.tasks[i]? = some ⟨req, p⟩)
    (hpub : p.published a = some (ch, o))
    (ha : Complete ((s.send ch o).become i req p')) : ReadOut s a p := by
  obtain ⟨message, rfl, rfl⟩ | ⟨b, rfl, hfin, rfl⟩ := Phase.published_cases hpub
  · trivial
  · intro _ hon leader horigin
    -- whoever hears it gets it
    obtain ⟨t, hmem, hrecv⟩ := List.any_eq_true.mp hon
    obtain ⟨j, hj⟩ := List.mem_iff_getElem?.mp hmem
    have hrecv : t.phase.receives = some ch := by simpa using hrecv
    have hother : t ≠ ⟨req, .streaming ch b⟩ := by
      intro heq
      rw [heq] at hrecv
      cases hrecv
    have hj' : ((s.send ch b.snapshot).become i req p').tasks[j]? = some t :=
      getElem?_become_other (by rwa [send_tasks]) (by rwa [send_tasks]) hother
    have hwaits : t.phase.waits = some ch := by
      cases hphase : t.phase <;> simp_all [Phase.receives, Phase.waits]
    have hvalue : (((s.send ch b.snapshot).become i req p').channels ch).value =
        .ok ⟨b.status, b.headers, b.acc⟩ := by
      simp [State.become, State.send, hon, FanoutBody.snapshot]
    obtain ⟨leader', bytes, horigin', hwhole, hr⟩ := ha j t ch _ hj' (.inr ⟨hwaits, _, hvalue, rfl⟩)
    change ((s.send ch b.snapshot).channels ch).origin = _ at horigin'
    rw [send_origin, horigin] at horigin'
    cases horigin'
    rw [wholeBody_toResponse] at hr
    cases hr
    exact (h.snapshot_whole ht hfin horigin).mp hwhole

/-- Who publishes nothing publishes no part of a body. -/
theorem readOut_of_silent {a : Action} {p : Phase} (hpub : p.published a = none) :
    ReadOut s a p := by
  unfold ReadOut
  split
  · rw [hpub]
    exact fun h => by cases h
  · trivial

theorem Faithful.whole {e : Event} (h : Faithful s) (hm : Move includeHeaders s e s')
    (ha : Complete s') : Whole s e := by
  cases e with
  | arrive req => trivial
  | act i a =>
    intro t ht
    obtain ⟨req, p⟩ := t
    cases hpub : p.published a with
    | none => exact readOut_of_silent hpub
    | some publication =>
      obtain ⟨ch, o⟩ := publication
      obtain ⟨p', rfl, -⟩ := hm.of_published ht hpub
      exact h.readOut ht hpub ha

/-- **When coalesced responses are complete.** In a run of the coalescer every response
a waiting request gets has the whole body of the leader's response, in every state
exactly when every body that is published to somebody yields no error and has been
read to its last data. -/
theorem coalesced_bodies_complete_iff (includeHeaders : List String) (tr : List (Event × State))
    (hrun : Along (fun s e s' => exec includeHeaders s e = .ok s') State.empty tr) :
    (∀ s ∈ visited State.empty tr, Complete s) ↔
      Along (fun s e _ => Whole s e) State.empty tr :=
  Along.forall_visited_iff (I := fun s => Wired s ∧ Faithful s)
    (fun _ _ _ h hexec hc => ⟨h.1.move (exec_move hexec), h.2.move h.1 (exec_move hexec) hc⟩)
    (fun _ _ _ h hexec ha => h.2.whole (exec_move hexec) ha)
    (fun _ h => h.2.complete) ⟨wired_empty, faithful_empty⟩ hrun

/-- A leader for `/a` and a request that waits for it; the handler answers with a body
of two frames. -/
def streamed : List Event :=
  let getA : Request := ⟨.get, "/a", [], []⟩
  [.arrive getA, .arrive getA, .act 0 .claim, .act 1 .claim, .act 1 .subscribe, .act 1 .look,
    .act 0 (.handlerReturns (.ok ⟨200, [], [.ok (.data [1]), .ok (.data [2])]⟩) false),
    .act 0 .finish]

/-- The client reads to the end. -/
theorem coalesced_bodies_complete_read_out :
    let tr := replay (exec []) State.empty (streamed ++
      [.act 0 .pollBody, .act 0 .pollBody, .act 0 .pollBody, .act 1 .changed, .act 1 .look])
    tr.length = 13 ∧ ∀ s ∈ visited State.empty tr, Complete s := by
  intro tr
  exact ⟨by decide +kernel,
    (coalesced_bodies_complete_iff [] tr (along_replay _ _ _)).mpr (by decide +kernel)⟩

/-- The client goes away after the first frame; the request that waits gets that frame
as a response. -/
theorem dropped_body_published_truncated :
    ¬ ∀ tr, Along (fun s e s' => exec [] s e = .ok s') State.empty tr →
      ∀ s ∈ visited State.empty tr, Complete s := by
  intro h
  let events : List Event := streamed ++
    [.act 0 .pollBody, .act 0 .dropBody, .act 1 .changed, .act 1 .look]
  have hcomplete := h _ (along_replay _ State.empty events) _
    (final_mem_visited _ State.empty events)
  have htask : (final (exec []) State.empty events).tasks[1]? = some ⟨⟨.get, "/a", [], []⟩,
      .answered 0 ⟨200, [], [.ok (.data [1])]⟩⟩ := by decide +kernel
  have horigin : ((final (exec []) State.empty events).channels 0).origin =
      some ⟨200, [], [.ok (.data [1]), .ok (.data [2])]⟩ := by decide +kernel
  obtain ⟨leader, bytes, hleader, hwhole, hr⟩ := hcomplete 1 _ 0 _ htask (.inl rfl)
  rw [horigin] at hleader
  cases hleader
  rw [← hr] at hwhole
  revert hwhole
  decide

end JustApi.Core.CoalesceBodies
