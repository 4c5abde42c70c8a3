import JustApi.Core.CoalesceFlights
import JustApi.Core.CoalesceBodies

/-! # Whose response a request gets

A handler that is a function of the request answers the leader of a key. Everybody else
gets that answer replayed: without the framing headers, and with the data of the body.
So a request gets the response of a request with its own key, and its own response when
the handler looks at nothing but the key. -/
namespace JustApi.Core.CoalesceSharing
open JustApi.Lib.Run JustApi.Core.Http JustApi.Core.Coalesce JustApi.Core.CoalesceFlights
open JustApi.Core.CoalesceBodies
open Function (update update_self update_of_ne)

section Properties

variable (handler : Request → Except String Response)

/-- What a handler returns is a function of the request. -/
def Handled (s : State) : Event → Prop
  | .act i (.handlerReturns result _) => ∀ t ∈ s.tasks[i]?, result = handler t.req
  | _ => True

/-- The response of another request, as a waiter gets it. -/
def replayOf (leader : Response) (bytes : Bytes) : Response :=
  CoalescedResponse.toResponse ⟨leader.status, leader.headers, bytes⟩

/-- Leaders get the handler's response for their request. A request that waited gets
that of a related request, replayed, with its whole body if bodies are `whole`. -/
structure Served (related : Request → Request → Prop) (whole : Prop) (l : Ledger) : Prop where
  leaders : ∀ (i : Nat) (req : Request) (ch : Nat) (b : FanoutBody),
    l.state.tasks[i]? = some ⟨req, .streaming ch b⟩ →
    ∃ r consumed, handler req = .ok r ∧ b.status = r.status ∧ b.headers = r.headers ∧
      r.body = consumed ++ b.inner
  failures : ∀ (i : Nat) (req : Request) (message : String),
    l.state.tasks[i]? = some ⟨req, .failed message⟩ →
    l.joined i = none ∧ handler req = .error message ∨
      ∃ ch req', l.joined i = some ch ∧ related req' req ∧ handler req' = .error message
  answers : ∀ (i : Nat) (req : Request) (ch : Nat) (r : Response),
    l.state.tasks[i]? = some ⟨req, .answered ch r⟩ →
    ∃ req' leader bytes, related req' req ∧ handler req' = .ok leader ∧
      r = replayOf leader bytes ∧ (whole → wholeBody leader.body = some bytes)

end Properties

/-- A noted step in which the handler does what it does. -/
def Step (includeHeaders : List String) (handler : Request → Except String Response) (l : Ledger)
    (e : Event) (l' : Ledger) : Prop :=
  note includeHeaders l e = .ok l' ∧ Handled handler l.state e

/-- Two requests with the same method, URI and selected headers. -/
def SameKey (includeHeaders : List String) (req' req : Request) : Prop :=
  keyOf includeHeaders req' = keyOf includeHeaders req

instance (handler : Request → Except String Response) (s : State) :
    ∀ e, Decidable (Handled handler s e)
  | .act i (.handlerReturns result _) =>
    inferInstanceAs (Decidable (∀ t ∈ s.tasks[i]?, result = handler t.req))
  | .arrive _ | .act _ .claim | .act _ .subscribe | .act _ .look | .act _ .changed
  | .act _ .closed | .act _ .remove | .act _ .finish | .act _ .pollBody | .act _ .dropBody
  | .act _ .drop => .isTrue trivial

/-! ## Who leads which channel -/

section Invariant

variable (includeHeaders : List String) (handler : Request → Except String Response)
  (led : Nat → Request) (next : Nat)

/-- Where a request stands, when `led` leads the channels and it has joined `joined`. -/
def Stands (joined : Option Nat) (req : Request) : Phase → Prop
  | .arrived => joined = none
  | .found ch | .subscribed ch _ | .parked ch _ =>
    joined = some ch ∧ ch < next ∧ SameKey includeHeaders (led ch) req
  | .running ch => joined = none ∧ ch < next ∧ led ch = req
  | .queued ch result | .removed ch result =>
    joined = none ∧ ch < next ∧ led ch = req ∧ result = handler req
  | .streaming ch b => ch < next ∧ led ch = req ∧
    ∃ r consumed, handler req = .ok r ∧ b.status = r.status ∧ b.headers = r.headers ∧
      r.body = consumed ++ b.inner
  | .answered ch r => ch < next ∧ SameKey includeHeaders (led ch) req ∧
    ∃ leader bytes, handler (led ch) = .ok leader ∧ r = replayOf leader bytes
  | .failed message => joined = none ∧ handler req = .error message ∨
    ∃ ch, joined = some ch ∧ ch < next ∧ SameKey includeHeaders (led ch) req ∧
      handler (led ch) = .error message
  | .gone => True

/-- What a channel led by `leader` has is what the handler returned to it. -/
structure Carries (leader : Request) (c : Channel) : Prop where
  response : ∀ snapshot, c.value = .ok snapshot →
    ∃ r, handler leader = .ok r ∧ snapshot.status = r.status ∧ snapshot.headers = r.headers
  failure : ∀ message, c.value = .err message → handler leader = .error message
  origin : ∀ r ∈ c.origin, handler leader = .ok r

end Invariant

/-- Every key, request and channel belongs to the leader of the channel. -/
structure Traced (includeHeaders : List String) (handler : Request → Except String Response)
    (led : Nat → Request) (s : State) (joined : Nat → Option Nat) : Prop where
  keys : ∀ key ch, s.inFlight.lookup key = some ch →
    ch < s.next ∧ keyOf includeHeaders (led ch) = key
  requests : ∀ (i : Nat) (t : Task), s.tasks[i]? = some t →
    Stands includeHeaders handler led s.next (joined i) t.req t.phase
  channels : ∀ ch, Carries handler (led ch) (s.channels ch)
  absent : ∀ i, s.tasks[i]? = none → joined i = none

variable {includeHeaders : List String} {handler : Request → Except String Response}
  {led : Nat → Request} {s s' : State} {joined : Nat → Option Nat} {l l' : Ledger}

/-- A channel that nothing was sent on says nothing. -/
theorem carries_new (handler : Request → Except String Response) (req : Request) :
    Carries handler req .new :=
  ⟨by simp [Channel.new], by simp [Channel.new], by simp [Channel.new]⟩

theorem traced_empty (led : Nat → Request) :
    Traced includeHeaders handler led State.empty fun _ => none where
  keys := by simp [State.empty]
  requests := by simp [State.empty]
  channels := fun ch => carries_new handler (led ch)
  absent := fun _ _ => rfl

/-- A new leader takes nothing away from the requests of the others. -/
theorem Stands.lead {next : Nat} {j : Option Nat} {req : Request} {p : Phase}
    (h : Stands includeHeaders handler led next j req p) (req' : Request) :
    Stands includeHeaders handler (update led next req') (next + 1) j req p := by
  have hold : ∀ {ch}, ch < next → update led next req' ch = led ch :=
    fun hlt => update_of_ne (Nat.ne_of_lt hlt) _ _
  cases p with
  | arrived => exact h
  | found ch | subscribed ch seen | parked ch seen =>
    obtain ⟨hj, hlt, hkey⟩ := h
    exact ⟨hj, Nat.lt_succ_of_lt hlt, by rwa [hold hlt]⟩
  | running ch =>
    obtain ⟨hj, hlt, hled⟩ := h
    exact ⟨hj, Nat.lt_succ_of_lt hlt, by rwa [hold hlt]⟩
  | queued ch result | removed ch result =>
    obtain ⟨hj, hlt, hled, hresult⟩ := h
    exact ⟨hj, Nat.lt_succ_of_lt hlt, by rwa [hold hlt], hresult⟩
  | streaming ch b =>
    obtain ⟨hlt, hled, hbody⟩ := h
    exact ⟨Nat.lt_succ_of_lt hlt, by rwa [hold hlt], hbody⟩
  | answered ch r =>
    obtain ⟨hlt, hkey, hanswer⟩ := h
    refine ⟨Nat.lt_succ_of_lt hlt, by rwa [hold hlt], ?_⟩
    rwa [hold hlt]
  | failed message =>
    refine h.imp_right ?_
    rintro ⟨ch, hj, hlt, hkey, hfail⟩
    exact ⟨ch, hj, Nat.lt_succ_of_lt hlt, by rwa [hold hlt], by rwa [hold hlt]⟩
  | gone => trivial

theorem Traced.arrive (h : Traced includeHeaders handler led s joined) (req : Request) :
    Traced includeHeaders handler led (s.arrive req) joined := by
  refine ⟨h.keys, ?_, h.channels, ?_⟩
  · intro i t ht
    cases hold : s.tasks[i]? with
    | some t' =>
      rw [getElem?_arrive_old req hold] at ht
      cases ht
      exact h.requests i t hold
    | none =>
      obtain ht | rfl := getElem?_arrive ht
      · rw [hold] at ht
        cases ht
      · exact h.absent i hold
  · intro i ht
    refine h.absent i ?_
    cases hold : s.tasks[i]? with
    | none => rfl
    | some t =>
      rw [getElem?_arrive_old req hold] at ht
      cases ht

section Becoming

variable {i : Nat} {req : Request} {p p' : Phase}

/-- A request moves on. -/
theorem Traced.become {joined' : Nat → Option Nat} (h : Traced includeHeaders handler led s joined)
    (ht : s.tasks[i]? = some ⟨req, p⟩) (hjoined : ∀ j, j ≠ i → joined' j = joined j)
    (hp' : Stands includeHeaders handler led s.next (joined' i) req p') :
    Traced includeHeaders handler led (s.become i req p') joined' := by
  refine ⟨h.keys, ?_, h.channels, ?_⟩
  · intro j t hj
    obtain ⟨rfl, rfl⟩ | ⟨hne, hj'⟩ := getElem?_become hj
    · exact hp'
    · rw [hjoined j hne]
      exact h.requests j t hj'
  · intro j hj
    have hne : j ≠ i := by
      rintro rfl
      rw [getElem?_become_self ht] at hj
      cases hj
    rw [hjoined j hne]
    rw [getElem?_become_ne hne] at hj
    exact h.absent j hj

/-- A request takes a free key. -/
theorem Traced.lead (h : Traced includeHeaders handler led s joined)
    (ht : s.tasks[i]? = some ⟨req, .arrived⟩) :
    Traced includeHeaders handler (update led s.next req)
      ((s.openChannel (keyOf includeHeaders req)).become i req (.running s.next)) joined := by
  have hopen : Traced includeHeaders handler (update led s.next req)
      (s.openChannel (keyOf includeHeaders req)) joined := by
    refine ⟨?_, fun j t hj => (h.requests j t hj).lead req, ?_, h.absent⟩
    · intro key ch hk
      change (s.inFlight.insert (keyOf includeHeaders req) s.next).lookup key = _ at hk
      by_cases hsame : key = keyOf includeHeaders req
      · subst hsame
        rw [AList.lookup_insert] at hk
        cases hk
        exact ⟨Nat.lt_succ_self _, by rw [update_self]⟩
      · rw [AList.lookup_insert_ne hsame] at hk
        obtain ⟨hlt, hkey⟩ := h.keys key ch hk
        exact ⟨Nat.lt_succ_of_lt hlt, by rwa [update_of_ne (Nat.ne_of_lt hlt)]⟩
    · intro ch
      by_cases hch : ch = s.next
      · subst hch
        simp only [State.openChannel, update_self]
        exact carries_new _ _
      · simp only [State.openChannel, update_of_ne hch]
        exact h.channels ch
  exact hopen.become ht (fun _ _ => rfl) ⟨h.requests i _ ht, Nat.lt_succ_self _, update_self _ _ _⟩

/-- A key is given up. -/
theorem Traced.erase (h : Traced includeHeaders handler led s joined) (key : CoalesceKey) :
    Traced includeHeaders handler led { s with inFlight := s.inFlight.erase key } joined := by
  refine ⟨fun key' ch hk => ?_, h.requests, h.channels, h.absent⟩
  by_cases hkey : key' = key
  · subst hkey
    simp at hk
  · rw [AList.lookup_erase_ne hkey] at hk
    exact h.keys key' ch hk

/-- The response of a leader is noted. -/
theorem Traced.record (h : Traced includeHeaders handler led s joined) {ch : Nat} {r : Response}
    (hr : handler (led ch) = .ok r) :
    Traced includeHeaders handler led (s.record ch r) joined := by
  refine ⟨h.keys, h.requests, fun ch' => ?_, h.absent⟩
  by_cases hch : ch' = ch
  · subst hch
    simp only [State.record, update_self]
    refine ⟨(h.channels ch').response, (h.channels ch').failure, ?_⟩
    rintro r' ⟨⟩
    exact hr
  · simp only [State.record, update_of_ne hch]
    exact h.channels ch'

/-- An outcome of the leader is sent. -/
theorem Traced.send (h : Traced includeHeaders handler led s joined) {ch : Nat} {o : Outcome}
    (hok : ∀ c, o = .ok c →
      ∃ r, handler (led ch) = .ok r ∧ c.status = r.status ∧ c.headers = r.headers)
    (herr : ∀ message, o = .err message → handler (led ch) = .error message) :
    Traced includeHeaders handler led (s.send ch o) joined := by
  unfold State.send
  split
  · refine ⟨h.keys, h.requests, fun ch' => ?_, h.absent⟩
    by_cases hch : ch' = ch
    · subst hch
      simp only [update_self]
      exact ⟨hok, herr, (h.channels ch').origin⟩
    · simp only [update_of_ne hch]
      exact h.channels ch'
  · exact h

/-- A poll takes a frame off what is left of the body. -/
theorem pollFrame_rest (b : FanoutBody) (consumed : ResponseBody) :
    b.pollFrame.1.status = b.status ∧ b.pollFrame.1.headers = b.headers ∧
      ∃ consumed', consumed' ++ b.pollFrame.1.inner = consumed ++ b.inner := by
  unfold FanoutBody.pollFrame
  split
  · rename_i frame rest hinner
    exact ⟨rfl, rfl, consumed ++ [.ok frame], by simp [hinner]⟩
  · rename_i error rest hinner
    exact ⟨rfl, rfl, consumed ++ [.error error], by simp [hinner]⟩
  · rename_i hinner
    split
    · exact ⟨rfl, rfl, consumed, rfl⟩
    · exact ⟨rfl, rfl, consumed, by simp [hinner]⟩

/-- The client of a leader has polled its body once more. -/
theorem Stands.poll {next : Nat} {j : Option Nat} {ch : Nat} {b : FanoutBody}
    (h : Stands includeHeaders handler led next j req (.streaming ch b)) :
    Stands includeHeaders handler led next j req (.streaming ch b.pollFrame.1) := by
  obtain ⟨hlt, hled, r, consumed, hr, hstatus, hheaders, hbody⟩ := h
  obtain ⟨hs, hh, consumed', hrest⟩ := pollFrame_rest b consumed
  exact ⟨hlt, hled, r, consumed', hr, hs.trans hstatus, hh.trans hheaders, hbody.trans hrest.symm⟩

/-- A fan-out body publishes the status and the headers of the leader's response. -/
theorem Traced.snapshot (h : Traced includeHeaders handler led s joined) {ch : Nat} {b : FanoutBody}
    (ht : s.tasks[i]? = some ⟨req, .streaming ch b⟩) :
    Traced includeHeaders handler led (s.send ch b.snapshot) joined := by
  obtain ⟨-, hled, r, -, hr, hstatus, hheaders, -⟩ := h.requests i _ ht
  refine h.send ?_ nofun
  rintro c ⟨⟩
  exact ⟨r, by rwa [hled], hstatus, hheaders⟩

/-- A request publishes what the handler has given it. -/
theorem Traced.publish (h : Traced includeHeaders handler led s joined) {a : Action} {ch : Nat}
    {o : Outcome} (hexec : exec includeHeaders s (.act i a) = .ok s')
    (ht : s.tasks[i]? = some ⟨req, p⟩) (hpub : p.published a = some (ch, o)) :
    Traced includeHeaders handler led s' joined := by
  have hstands := h.requests i _ ht
  have hsend : ∀ ch o, (s.send ch o).tasks[i]? = some ⟨req, p⟩ := by
    intro ch o
    rwa [send_tasks]
  simp only [exec, ht] at hexec
  unfold Phase.published at hpub
  split at hpub
  · rename_i ch' message
    cases hpub
    cases hexec
    obtain ⟨hj, hlt, hled, hresult⟩ := hstands
    have htraced : Traced includeHeaders handler led (s.send ch (.err message)) joined := by
      refine h.send (by simp) fun message' hm => ?_
      cases hm
      rw [hled]
      exact hresult.symm
    exact htraced.become (hsend _ _) (fun _ _ => rfl) (.inl ⟨hj, hresult.symm⟩)
  · rename_i ch' b
    obtain ⟨o', ho, heq⟩ := Option.map_eq_some_iff.mp hpub
    cases heq
    obtain ⟨-, -, rfl, -⟩ := FanoutBody.pollFrame_publishes ho
    simp only [advance, ho, State.publish] at hexec
    cases hexec
    refine (h.snapshot ht).become (hsend _ _) (fun _ _ => rfl) ?_
    rw [send_next]
    exact Stands.poll hstands
  · rename_i ch' b
    obtain ⟨o', ho, heq⟩ := Option.map_eq_some_iff.mp hpub
    cases heq
    simp only [advance, ho, State.publish] at hexec
    cases hexec
    have hsnapshot : o = b.snapshot := by
      unfold FanoutBody.dropped at ho
      split at ho <;> cases ho
      rfl
    subst hsnapshot
    exact (h.snapshot ht).become (hsend _ _) (fun _ _ => rfl) trivial
  · cases hpub

end Becoming

/-! ## Whole runs -/

/-- A step in which the handler does what it does keeps track of the leaders. -/
theorem Traced.turn {i : Nat} {a : Action} {t t' : Task}
    (h : Traced includeHeaders handler led l.state l.joined)
    (hexec : exec includeHeaders l.state (.act i a) = .ok s') (ht : l.state.tasks[i]? = some t)
    (ht' : s'.tasks[i]? = some t') (hhandled : Handled handler l.state (.act i a)) :
    ∃ led', Traced includeHeaders handler led' s' (l.turn i a t.phase t'.phase s').joined := by
  have hstands := h.requests i t ht
  cases exec_move hexec with
  | @join i req ch ht₁ hkey =>
    obtain ⟨rfl, rfl⟩ := tasks_of_become rfl ht ht₁ ht'
    obtain ⟨hlt, hled⟩ := h.keys _ _ hkey
    exact ⟨led, h.become ht₁ (fun j hne => update_of_ne hne _ _) ⟨update_self _ _ _, hlt, hled⟩⟩
  | @lead i req ht₁ hkey =>
    obtain ⟨rfl, rfl⟩ := tasks_of_become rfl ht ht₁ ht'
    exact ⟨_, h.lead ht₁⟩
  | subscribe ht₁ | park ht₁ hv | wake ht₁ hv =>
    obtain ⟨rfl, rfl⟩ := tasks_of_become rfl ht ht₁ ht'
    exact ⟨led, h.become ht₁ (fun _ _ => rfl) hstands⟩
  | @answer i req ch seen c ht₁ hv =>
    obtain ⟨rfl, rfl⟩ := tasks_of_become rfl ht ht₁ ht'
    obtain ⟨hj, hlt, hkey⟩ := hstands
    obtain ⟨r, hr, hstatus, hheaders⟩ := (h.channels ch).response c hv
    refine ⟨led, h.become ht₁ (fun _ _ => rfl) ⟨hlt, hkey, r, c.body, hr, ?_⟩⟩
    unfold replayOf
    rw [← hstatus, ← hheaders]
  | @share i req ch seen message ht₁ hv =>
    obtain ⟨rfl, rfl⟩ := tasks_of_become rfl ht ht₁ ht'
    obtain ⟨hj, hlt, hkey⟩ := hstands
    exact ⟨led, h.become ht₁ (fun _ _ => rfl)
      (.inr ⟨ch, hj, hlt, hkey, (h.channels ch).failure message hv⟩)⟩
  | suspend result ht₁ =>
    obtain ⟨rfl, rfl⟩ := tasks_of_become rfl ht ht₁ ht'
    obtain ⟨hj, hlt, hled⟩ := hstands
    exact ⟨led, h.become ht₁ (fun _ _ => rfl) ⟨hj, hlt, hled, hhandled _ ht₁⟩⟩
  | @remove i req p a ch result ht₁ hp =>
    obtain ⟨rfl, rfl⟩ := tasks_of_become rfl ht ht₁ ht'
    obtain ⟨rfl, rfl⟩ | ⟨rfl, rfl⟩ := hp
    · obtain ⟨hj, hlt, hled⟩ := hstands
      exact ⟨led, (h.erase _).become ht₁ (fun _ _ => rfl) ⟨hj, hlt, hled, hhandled _ ht₁⟩⟩
    · exact ⟨led, (h.erase _).become ht₁ (fun _ _ => rfl) hstands⟩
  | @stream i req ch r ht₁ =>
    obtain ⟨rfl, rfl⟩ := tasks_of_become rfl ht ht₁ ht'
    obtain ⟨hj, hlt, hled, hresult⟩ := hstands
    have hmade : handler (led ch) = .ok r := by rw [hled]; exact hresult.symm
    have hrecord := h.record hmade
    exact ⟨led, hrecord.become ht₁ (fun _ _ => rfl)
      ⟨hlt, hled, r, [], hresult.symm, rfl, rfl, rfl⟩⟩
  | @publish i req p p' a ch o ht₁ hpub hp =>
    obtain ⟨rfl, rfl⟩ := tasks_of_become (send_tasks _ _ _) ht ht₁ ht'
    have hjoined : (l.turn i a p p' ((l.state.send ch o).become i req p')).joined = l.joined := by
      obtain rfl | ⟨_, rfl⟩ | ⟨_, rfl, -⟩ := hp <;> rfl
    rw [hjoined]
    exact ⟨led, h.publish hexec ht₁ hpub⟩
  | read ht₁ hpoll =>
    obtain ⟨rfl, rfl⟩ := tasks_of_become rfl ht ht₁ ht'
    exact ⟨led, h.become ht₁ (fun _ _ => rfl) (Stands.poll hstands)⟩
  | discard ht₁ hfin | leave ht₁ hp | abandon ht₁ hp =>
    obtain ⟨rfl, rfl⟩ := tasks_of_become rfl ht ht₁ ht'
    exact ⟨led, h.become ht₁ (fun _ _ => rfl) trivial⟩

theorem Traced.step {e : Event} (h : Traced includeHeaders handler led l.state l.joined)
    (hstep : Step includeHeaders handler l e l') :
    ∃ led', Traced includeHeaders handler led' l'.state l'.joined := by
  obtain ⟨hnote, hhandled⟩ := hstep
  obtain ⟨-, ⟨req, rfl, rfl⟩ | ⟨i, a, t, t', rfl, ht, ht', hl'⟩⟩ := note_cases hnote
  · exact ⟨led, h.arrive req⟩
  · obtain ⟨led', htraced⟩ := h.turn (exec_of_note hnote) ht ht' hhandled
    rw [← hl'] at htraced
    exact ⟨led', htraced⟩

/-- A request gets the response of a request with its own key. -/
theorem Traced.served {whole : Prop} (h : Traced includeHeaders handler led l.state l.joined)
    (hfaithful : whole → Faithful l.state) :
    Served handler (SameKey includeHeaders) whole l := by
  refine ⟨?_, ?_, ?_⟩
  · intro i req ch b ht
    exact (h.requests i _ ht).2.2
  · intro i req message ht
    obtain hown | ⟨ch, hj, -, hkey, hfail⟩ := h.requests i _ ht
    · exact .inl hown
    · exact .inr ⟨ch, led ch, hj, hkey, hfail⟩
  · intro i req ch r ht
    obtain ⟨-, hkey, leader, bytes, hleader, hr⟩ := h.requests i _ ht
    refine ⟨led ch, leader, bytes, hkey, hleader, hr, fun hwhole => ?_⟩
    obtain ⟨leader', bytes', horigin, hbody, hbytes⟩ :=
      (hfaithful hwhole).complete i _ ch r ht (.inl rfl)
    -- the response that was noted is that of the leader
    rw [(h.channels ch).origin leader' horigin] at hleader
    cases hleader
    rw [hr, replayOf, wholeBody_toResponse] at hbytes
    cases hbytes
    exact hbody

/-- A handler that looks at the key only gives everybody with the key the same response. -/
theorem Served.own {whole : Prop} (h : Served handler (SameKey includeHeaders) whole l)
    (hkey : ∀ req' req, SameKey includeHeaders req' req → handler req' = handler req) :
    Served handler Eq whole l := by
  refine ⟨h.leaders, ?_, ?_⟩
  · intro i req message ht
    refine (h.failures i req message ht).imp_right ?_
    rintro ⟨ch, req', hj, hsame, hfail⟩
    exact ⟨ch, req, hj, rfl, (hkey req' req hsame).symm.trans hfail⟩
  · intro i req ch r ht
    obtain ⟨req', leader, bytes, hsame, hleader, hr, hbody⟩ := h.answers i req ch r ht
    exact ⟨req, leader, bytes, rfl, (hkey req' req hsame).symm.trans hleader, hr, hbody⟩

/-- The cookie goes into the response. -/
def greet (req : Request) : Except String Response :=
  .ok ⟨200, [("x-user", (req.headers.lookup "cookie").getD "")], [.ok (.data req.body)]⟩

/-- Two requests for `/me`, one with the cookie of alice and one with that of bob. -/
def aliceAndBob : List Event :=
  [.arrive ⟨.get, "/me", [("cookie", "alice")], []⟩, .arrive ⟨.get, "/me", [("cookie", "bob")], []⟩,
    .act 0 .claim, .act 1 .claim, .act 1 .subscribe, .act 1 .look,
    .act 0 (.handlerReturns (.ok ⟨200, [("x-user", "alice")], [.ok (.data [])]⟩) false),
    .act 0 .finish, .act 0 .pollBody, .act 0 .pollBody, .act 1 .changed, .act 1 .look]

end JustApi.Core.CoalesceSharing
