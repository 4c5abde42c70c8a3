import JustApi.Core.Coalesce

/-! # The steps of the coalescer

`Move` lists what a step can do, and `exec_move` says that nothing else happens. The
branch of `wait_for_leader` for a leader that was dropped is not among the moves: a
request that waits holds a sender itself. `Wired` is what every run keeps: a channel
has one publisher at most, and nothing is on it while it has one. -/
namespace JustApi.Core.Coalesce
open JustApi.Lib.Run JustApi.Core.Http
open Function (update update_self update_of_ne)

variable {includeHeaders : List String} {s s' : State}

section Moves

variable (includeHeaders) (s)

/-- The steps of the system. -/
inductive Move : Event → State → Prop
  | arrive (req : Request) : Move (.arrive req) (s.arrive req)
  /-- The key is taken. -/
  | join {i : Nat} {req : Request} {ch : Nat} (ht : s.tasks[i]? = some ⟨req, .arrived⟩)
      (hkey : s.inFlight.lookup (keyOf includeHeaders req) = some ch) :
      Move (.act i .claim) (s.become i req (.found ch))
  /-- The key is free. -/
  | lead {i : Nat} {req : Request} (ht : s.tasks[i]? = some ⟨req, .arrived⟩)
      (hkey : s.inFlight.lookup (keyOf includeHeaders req) = none) :
      Move (.act i .claim)
        ((s.openChannel (keyOf includeHeaders req)).become i req (.running s.next))
  | subscribe {i : Nat} {req : Request} {ch : Nat} (ht : s.tasks[i]? = some ⟨req, .found ch⟩) :
      Move (.act i .subscribe) (s.become i req (.subscribed ch (s.channels ch).version))
  | park {i : Nat} {req : Request} {ch seen : Nat}
      (ht : s.tasks[i]? = some ⟨req, .subscribed ch seen⟩)
      (hv : (s.channels ch).value = .pending) :
      Move (.act i .look) (s.become i req (.parked ch seen))
  | wake {i : Nat} {req : Request} {ch seen : Nat}
      (ht : s.tasks[i]? = some ⟨req, .parked ch seen⟩) (hv : (s.channels ch).version ≠ seen) :
      Move (.act i .changed) (s.become i req (.subscribed ch (s.channels ch).version))
  | answer {i : Nat} {req : Request} {ch seen : Nat} {c : CoalescedResponse}
      (ht : s.tasks[i]? = some ⟨req, .subscribed ch seen⟩) (hv : (s.channels ch).value = .ok c) :
      Move (.act i .look) (s.become i req (.answered ch c.toResponse))
  | share {i : Nat} {req : Request} {ch seen : Nat} {message : String}
      (ht : s.tasks[i]? = some ⟨req, .subscribed ch seen⟩)
      (hv : (s.channels ch).value = .err message) :
      Move (.act i .look) (s.become i req (.failed message))
  /-- The handler returns and the lock is taken. -/
  | suspend {i : Nat} {req : Request} {ch : Nat} (result : Except String Response)
      (ht : s.tasks[i]? = some ⟨req, .running ch⟩) :
      Move (.act i (.handlerReturns result true)) (s.become i req (.queued ch result))
  | remove {i : Nat} {req : Request} {p : Phase} {a : Action} {ch : Nat}
      {result : Except String Response} (ht : s.tasks[i]? = some ⟨req, p⟩)
      (hp : p = .running ch ∧ a = .handlerReturns result false ∨
        p = .queued ch result ∧ a = .remove) :
      Move (.act i a) ({ s with inFlight := s.inFlight.erase (keyOf includeHeaders req) }.become i
        req (.removed ch result))
  | stream {i : Nat} {req : Request} {ch : Nat} {r : Response}
      (ht : s.tasks[i]? = some ⟨req, .removed ch (.ok r)⟩) :
      Move (.act i .finish) ((s.record ch r).become i req (.streaming ch (.of r)))
  | publish {i : Nat} {req : Request} {p p' : Phase} {a : Action} {ch : Nat} {o : Outcome}
      (ht : s.tasks[i]? = some ⟨req, p⟩) (hpub : p.published a = some (ch, o))
      (hp : p' = .gone ∨ (∃ message, p' = .failed message) ∨
        ∃ b, p' = .streaming ch b ∧ b.finished = true) :
      Move (.act i a) ((s.send ch o).become i req p')
  | read {i : Nat} {req : Request} {ch : Nat} {b : FanoutBody}
      (ht : s.tasks[i]? = some ⟨req, .streaming ch b⟩) (hpoll : b.pollFrame.2 = none) :
      Move (.act i .pollBody) (s.become i req (.streaming ch b.pollFrame.1))
  | discard {i : Nat} {req : Request} {ch : Nat} {b : FanoutBody}
      (ht : s.tasks[i]? = some ⟨req, .streaming ch b⟩) (hfin : b.finished = true) :
      Move (.act i .dropBody) (s.become i req .gone)
  /-- A request that leads nobody is dropped. -/
  | leave {i : Nat} {req : Request} {p : Phase} (ht : s.tasks[i]? = some ⟨req, p⟩)
      (hp : p = .arrived ∨ ∃ ch seen, p = .parked ch seen) :
      Move (.act i .drop) (s.become i req .gone)
  /-- A leader is dropped. -/
  | abandon {i : Nat} {req : Request} {p : Phase} {ch : Nat} (ht : s.tasks[i]? = some ⟨req, p⟩)
      (hp : p = .running ch ∨ ∃ result, p = .queued ch result) :
      Move (.act i .drop) (s.become i req .gone)

end Moves

/-- The sender of a channel lives as long as a request waits for the channel. -/
theorem senderAlive_of_waits {i : Nat} {t : Task} {ch : Nat} (ht : s.tasks[i]? = some t)
    (hw : t.phase.waits = some ch) : s.senderAlive ch = true := by
  have hholds : t.phase.holds = some ch := by
    cases hp : t.phase <;> simp_all [Phase.waits, Phase.holds, Phase.publishes]
  unfold State.senderAlive
  rw [Bool.or_eq_true, List.any_eq_true]
  exact .inr (List.any_eq_true.mpr ⟨t, List.mem_of_getElem? ht, by simpa using hholds⟩)

/-- A poll publishes when it ends an unfinished body. -/
theorem FanoutBody.pollFrame_publishes {b : FanoutBody} {o : Outcome} (h : b.pollFrame.2 = some o) :
    b.inner = [] ∧ b.finished = false ∧ o = b.snapshot ∧ b.pollFrame.1.finished = true := by
  unfold pollFrame at h ⊢
  split at h
  · cases h
  · cases h
  · split at h
    · cases h
    · rename_i hinner hfin
      cases h
      simp_all

theorem FanoutBody.pollFrame_finished {b : FanoutBody} (h : b.pollFrame.2 = none) :
    b.pollFrame.1.finished = b.finished := by
  obtain ⟨inner, status, headers, acc, finished⟩ := b
  cases inner with
  | nil =>
    cases finished with
    | true => rfl
    | false => cases h
  | cons event rest => cases event <;> rfl

/-- A publication of `advance` is a move. -/
theorem Move.publishing {i : Nat} {req : Request} {ch : Nat} {b : FanoutBody}
    (ht : s.tasks[i]? = some ⟨req, .streaming ch b⟩) :
    Move includeHeaders s (.act i .pollBody)
      ((s.publish ch b.pollFrame.2).become i req (.streaming ch b.pollFrame.1)) := by
  cases hpoll : b.pollFrame.2 with
  | none => exact .read ht hpoll
  | some o =>
    obtain ⟨-, -, -, hfin⟩ := FanoutBody.pollFrame_publishes hpoll
    exact .publish ht (by simp [Phase.published, hpoll]) (.inr (.inr ⟨_, rfl, hfin⟩))

theorem Move.dropping {i : Nat} {req : Request} {ch : Nat} {b : FanoutBody}
    (ht : s.tasks[i]? = some ⟨req, .streaming ch b⟩) :
    Move includeHeaders s (.act i .dropBody) ((s.publish ch b.dropped).become i req .gone) := by
  cases hdrop : b.dropped with
  | none => exact .discard ht (by simpa [FanoutBody.dropped] using hdrop)
  | some o => exact .publish ht (by simp [Phase.published, hdrop]) (.inl rfl)

/-- Every step is a move. -/
theorem exec_move {e : Event} (h : exec includeHeaders s e = .ok s') :
    Move includeHeaders s e s' := by
  cases e with
  | arrive req =>
    cases h
    exact .arrive req
  | act i a =>
    simp only [exec] at h
    split at h
    · rename_i t ht
      obtain ⟨req, p⟩ := t
      dsimp only at h
      unfold advance at h
      split at h
      · dsimp only at h
        split at h
        · cases h
          exact .join ht ‹_›
        · cases h
          exact .lead ht ‹_›
      · cases h
        exact .subscribe ht
      · split at h
        · cases h
          exact .answer ht ‹_›
        · cases h
          exact .share ht ‹_›
        · cases h
          exact .park ht ‹_›
      · split at h
        · cases h
        · cases h
          exact .wake ht ‹_›
      · -- a request that waits keeps the sender alive
        rw [senderAlive_of_waits ht rfl] at h
        cases h
      · split at h
        · cases h
          rename_i hc
          rw [hc]
          exact .suspend _ ht
        · cases h
          rename_i hc
          rw [eq_false_of_ne_true hc]
          exact .remove ht (.inl ⟨rfl, rfl⟩)
      · cases h
        exact .remove ht (.inr ⟨rfl, rfl⟩)
      · cases h
        exact .publish ht rfl (.inr (.inl ⟨_, rfl⟩))
      · cases h
        exact .stream ht
      · cases h
        exact .publishing ht
      · cases h
        exact .dropping ht
      · cases h
        exact .leave ht (.inl rfl)
      · cases h
        exact .leave ht (.inr ⟨_, _, rfl⟩)
      · cases h
        exact .abandon ht (.inl rfl)
      · cases h
        exact .abandon ht (.inr ⟨_, rfl⟩)
      · cases h
    · cases h

/-! ## What every run keeps -/

/-- The tasks after a request has moved on. -/
theorem getElem?_become {i j : Nat} {req : Request} {p : Phase} {t : Task}
    (h : (s.become i req p).tasks[j]? = some t) :
    j = i ∧ t = ⟨req, p⟩ ∨ j ≠ i ∧ s.tasks[j]? = some t := by
  simp only [State.become, List.getElem?_set] at h
  split at h
  · split at h
    · cases h
      exact .inl ⟨Eq.symm ‹_›, rfl⟩
    · cases h
  · exact .inr ⟨Ne.symm ‹_›, h⟩

theorem getElem?_become_self {i : Nat} {req : Request} {p : Phase} {t : Task}
    (ht : s.tasks[i]? = some t) : (s.become i req p).tasks[i]? = some ⟨req, p⟩ := by
  obtain ⟨hlt, -⟩ := List.getElem?_eq_some_iff.mp ht
  simp [State.become, hlt]

/-- The task that moves, before and after its move. -/
theorem tasks_of_become {s₁ : State} {i : Nat} {req : Request} {p : Phase} {t t₁ t' : Task}
    (hs : s₁.tasks = s.tasks) (ht : s.tasks[i]? = some t) (ht₁ : s.tasks[i]? = some t₁)
    (ht' : (s₁.become i req p).tasks[i]? = some t') : t = t₁ ∧ t' = ⟨req, p⟩ := by
  rw [getElem?_become_self (hs ▸ ht)] at ht'
  exact ⟨Option.some.inj (ht.symm.trans ht₁), (Option.some.inj ht').symm⟩

theorem getElem?_become_ne {i j : Nat} {req : Request} {p : Phase} (h : j ≠ i) :
    (s.become i req p).tasks[j]? = s.tasks[j]? := by
  simp [State.become, Ne.symm h]

/-- The task of another request is still there. -/
theorem getElem?_become_other {i j : Nat} {req : Request} {p : Phase} {t t' : Task}
    (ht : s.tasks[i]? = some t) (hj : s.tasks[j]? = some t') (hne : t' ≠ t) :
    (s.become i req p).tasks[j]? = some t' := by
  have hji : j ≠ i := by
    intro hji
    rw [hji, ht] at hj
    exact hne (Option.some.inj hj).symm
  rwa [getElem?_become_ne hji]

theorem getElem?_arrive {i : Nat} {req : Request} {t : Task}
    (h : (s.arrive req).tasks[i]? = some t) : s.tasks[i]? = some t ∨ t = ⟨req, .arrived⟩ := by
  simp only [State.arrive, List.getElem?_append] at h
  split at h
  · exact .inl h
  · exact .inr (List.mem_singleton.mp (List.mem_of_getElem? h))

theorem getElem?_arrive_old {i : Nat} {t : Task} (req : Request) (ht : s.tasks[i]? = some t) :
    (s.arrive req).tasks[i]? = some t := by
  rwa [State.arrive, List.getElem?_append_left (List.getElem?_eq_some_iff.mp ht).1]

/-- What is published: the error of a handler, or what a body has read. -/
theorem Phase.published_cases {p : Phase} {a : Action} {ch : Nat} {o : Outcome}
    (h : p.published a = some (ch, o)) :
    (∃ message, p = .removed ch (.error message) ∧ o = .err message) ∨
      ∃ b, p = .streaming ch b ∧ b.finished = false ∧ o = b.snapshot := by
  unfold published at h
  split at h
  · cases h
    exact .inl ⟨_, rfl, rfl⟩
  · obtain ⟨o', ho, heq⟩ := Option.map_eq_some_iff.mp h
    obtain ⟨-, hfin, rfl, -⟩ := FanoutBody.pollFrame_publishes ho
    cases heq
    exact .inr ⟨_, rfl, hfin, rfl⟩
  · obtain ⟨o', ho, heq⟩ := Option.map_eq_some_iff.mp h
    unfold FanoutBody.dropped at ho
    split at ho
    · cases ho
    · rename_i hfin
      cases ho
      cases heq
      exact .inr ⟨_, rfl, eq_false_of_ne_true hfin, rfl⟩
  · cases h

/-- Who publishes has not published yet. -/
theorem Phase.publishes_of_published {p : Phase} {a : Action} {ch : Nat} {o : Outcome}
    (h : p.published a = some (ch, o)) : p.publishes = some ch ∧ o ≠ .pending := by
  obtain ⟨message, rfl, rfl⟩ | ⟨b, rfl, hfin, rfl⟩ := published_cases h
  · exact ⟨rfl, nofun⟩
  · exact ⟨by simp [publishes, hfin], nofun⟩

theorem Phase.action_of_published {p : Phase} {a : Action} {x : Nat × Outcome}
    (h : p.published a = some x) : a = .finish ∨ a = .pollBody ∨ a = .dropBody := by
  unfold published at h
  split at h
  · exact .inl rfl
  · exact .inr (.inl rfl)
  · exact .inr (.inr rfl)
  · cases h

/-- A step that publishes sends and ends the request's part in the channel. -/
theorem Move.of_published {i : Nat} {a : Action} {req : Request} {p : Phase} {ch : Nat} {o : Outcome}
    (hm : Move includeHeaders s (.act i a) s') (ht : s.tasks[i]? = some ⟨req, p⟩)
    (hpub : p.published a = some (ch, o)) :
    ∃ p', s' = (s.send ch o).become i req p' ∧ p'.publishes = none := by
  have hsame : ∀ {req' p'}, s.tasks[i]? = some ⟨req', p'⟩ → req' = req ∧ p' = p := by
    intro req' p' ht'
    rw [ht] at ht'
    cases ht'
    exact ⟨rfl, rfl⟩
  cases hm with
  | publish ht' hpub' hp =>
    obtain ⟨rfl, rfl⟩ := hsame ht'
    rw [hpub] at hpub'
    cases hpub'
    refine ⟨_, rfl, ?_⟩
    obtain rfl | ⟨_, rfl⟩ | ⟨b, rfl, hfin⟩ := hp
    · rfl
    · rfl
    · simp [Phase.publishes, hfin]
  | remove ht' hp =>
    obtain ⟨rfl, rfl⟩ := hsame ht'
    obtain ⟨rfl, rfl⟩ | ⟨rfl, rfl⟩ := hp <;> cases hpub
  | read ht' hpoll =>
    obtain ⟨rfl, rfl⟩ := hsame ht'
    simp [Phase.published, hpoll] at hpub
  | discard ht' hfin =>
    obtain ⟨rfl, rfl⟩ := hsame ht'
    simp [Phase.published, FanoutBody.dropped, hfin] at hpub
  | leave | abandon => simpa using Phase.action_of_published hpub
  | join ht' | lead ht' | subscribe ht' | park ht' | wake ht' | answer ht' | share ht'
  | suspend _ ht' | stream ht' =>
    obtain ⟨rfl, rfl⟩ := hsame ht'
    cases hpub

/-- The channels in use are allocated; a channel has one publisher at most, and is
pending as long as it has one. -/
structure Wired (s : State) : Prop where
  keyed : ∀ key ch, s.inFlight.lookup key = some ch → ch < s.next
  waited : ∀ (i : Nat) (t : Task) (ch : Nat),
    s.tasks[i]? = some t → t.phase.waits = some ch → ch < s.next
  led : ∀ (i : Nat) (t : Task) (ch : Nat), s.tasks[i]? = some t → t.phase.publishes = some ch →
    ch < s.next ∧ (s.channels ch).value = .pending
  single : ∀ (i j : Nat) (t t' : Task) (ch : Nat), s.tasks[i]? = some t → s.tasks[j]? = some t' →
    t.phase.publishes = some ch → t'.phase.publishes = some ch → i = j

/-- Two requests do not publish on the same channel. -/
theorem Wired.publishes_ne (h : Wired s) {i j : Nat} {t t' : Task} {ch ch' : Nat}
    (ht : s.tasks[i]? = some t) (hj : s.tasks[j]? = some t') (hp : t.phase.publishes = some ch)
    (hp' : t'.phase.publishes = some ch') (hne : j ≠ i) : ch' ≠ ch := by
  intro heq
  rw [heq] at hp'
  exact hne (h.single j i t' t ch hj ht hp' hp)

theorem wired_empty : Wired State.empty where
  keyed := by simp [State.empty]
  waited := by simp [State.empty]
  led := by simp [State.empty]
  single := by simp [State.empty]

theorem Wired.arrive (h : Wired s) (req : Request) : Wired (s.arrive req) := by
  refine ⟨h.keyed, ?_, ?_, ?_⟩
  · intro i t ch ht hw
    obtain ht | rfl := getElem?_arrive ht
    · exact h.waited i t ch ht hw
    · cases hw
  · intro i t ch ht hp
    obtain ht | rfl := getElem?_arrive ht
    · exact h.led i t ch ht hp
    · cases hp
  · intro i j t t' ch ht ht' hp hp'
    obtain ht | rfl := getElem?_arrive ht
    · obtain ht' | rfl := getElem?_arrive ht'
      · exact h.single i j t t' ch ht ht' hp hp'
      · cases hp'
    · cases hp

section Becoming

variable {i : Nat} {req : Request} {p p' : Phase}

/-- A request that moves on takes no channel from another. -/
theorem Wired.become (h : Wired s) (ht : s.tasks[i]? = some ⟨req, p⟩)
    (hpub : ∀ ch, p'.publishes = some ch → p.publishes = some ch)
    (hwait : ∀ ch, p'.waits = some ch → ch < s.next) : Wired (s.become i req p') := by
  have hold : ∀ {j : Nat} {t : Task} {ch : Nat},
      (s.become i req p').tasks[j]? = some t → t.phase.publishes = some ch →
      ∃ t' : Task, s.tasks[j]? = some t' ∧ t'.phase.publishes = some ch := by
    intro j t ch hj hp
    obtain ⟨rfl, rfl⟩ | ⟨-, hj⟩ := getElem?_become hj
    · exact ⟨_, ht, hpub ch hp⟩
    · exact ⟨t, hj, hp⟩
  refine ⟨h.keyed, ?_, ?_, ?_⟩
  · intro j t ch hj hw
    obtain ⟨rfl, rfl⟩ | ⟨-, hj⟩ := getElem?_become hj
    · exact hwait ch hw
    · exact h.waited j t ch hj hw
  · intro j t ch hj hp
    obtain ⟨t', hj', hp'⟩ := hold hj hp
    exact h.led j t' ch hj' hp'
  · intro j k t t' ch hj hk hp hp'
    obtain ⟨u, hj', hu⟩ := hold hj hp
    obtain ⟨u', hk', hu'⟩ := hold hk hp'
    exact h.single j k u u' ch hj' hk' hu hu'

@[simp] theorem send_next (s : State) (ch : Nat) (o : Outcome) : (s.send ch o).next = s.next := by
  unfold State.send; split <;> rfl

@[simp] theorem send_inFlight (s : State) (ch : Nat) (o : Outcome) :
    (s.send ch o).inFlight = s.inFlight := by
  unfold State.send; split <;> rfl

@[simp] theorem send_tasks (s : State) (ch : Nat) (o : Outcome) : (s.send ch o).tasks = s.tasks := by
  unfold State.send; split <;> rfl

theorem send_channels_ne {ch ch' : Nat} (h : ch' ≠ ch) (o : Outcome) :
    (s.send ch o).channels ch' = s.channels ch' := by
  unfold State.send
  split
  · exact update_of_ne h _ _
  · rfl

theorem send_origin (s : State) (ch : Nat) (o : Outcome) (ch' : Nat) :
    ((s.send ch o).channels ch').origin = (s.channels ch').origin := by
  by_cases hch : ch' = ch
  · subst hch
    unfold State.send
    split
    · simp
    · rfl
  · rw [send_channels_ne hch]

/-- The tasks after a request has published and moved on. -/
theorem getElem?_send_become {j : Nat} {t : Task} {ch : Nat} {o : Outcome}
    (h : ((s.send ch o).become i req p').tasks[j]? = some t) :
    j = i ∧ t = ⟨req, p'⟩ ∨ j ≠ i ∧ s.tasks[j]? = some t := by
  have := getElem?_become h
  rwa [send_tasks] at this

/-- A request that publishes leaves its channel. -/
theorem Wired.publish (h : Wired s) {a : Action} {ch : Nat} {o : Outcome}
    (ht : s.tasks[i]? = some ⟨req, p⟩) (hpub : p.published a = some (ch, o))
    (hp : p'.publishes = none) (hw : p'.waits = none) : Wired ((s.send ch o).become i req p') := by
  have hch := (Phase.publishes_of_published hpub).1
  refine ⟨?_, ?_, ?_, ?_⟩
  · intro key ch' hk
    simp only [State.become, send_inFlight, send_next] at hk ⊢
    exact h.keyed key ch' hk
  · intro j t ch' hj hwait
    obtain ⟨rfl, rfl⟩ | ⟨-, hj'⟩ := getElem?_send_become hj
    · simp [hw] at hwait
    · simpa [State.become] using h.waited j t ch' hj' hwait
  · intro j t ch' hj hpub'
    obtain ⟨rfl, rfl⟩ | ⟨hne, hj'⟩ := getElem?_send_become hj
    · simp [hp] at hpub'
    · have hother : ch' ≠ ch := h.publishes_ne ht hj' hch hpub' hne
      simpa [State.become, send_channels_ne hother] using h.led j t ch' hj' hpub'
  · intro j k t t' ch' hj hk hpj hpk
    obtain ⟨rfl, rfl⟩ | ⟨-, hj'⟩ := getElem?_send_become hj
    · simp [hp] at hpj
    · obtain ⟨rfl, rfl⟩ | ⟨-, hk'⟩ := getElem?_send_become hk
      · simp [hp] at hpk
      · exact h.single j k t t' ch' hj' hk' hpj hpk

/-- A new leader is alone on a new channel. -/
theorem Wired.lead (h : Wired s) (key : CoalesceKey) (ht : s.tasks[i]? = some ⟨req, p⟩) :
    Wired ((s.openChannel key).become i req (.running s.next)) := by
  have hold : ∀ {j : Nat} {t : Task},
      ((s.openChannel key).become i req (.running s.next)).tasks[j]? = some t →
      j = i ∧ t = ⟨req, .running s.next⟩ ∨ j ≠ i ∧ s.tasks[j]? = some t := getElem?_become
  refine ⟨?_, ?_, ?_, ?_⟩
  · intro key' ch hk
    change (s.inFlight.insert key s.next).lookup key' = _ at hk
    by_cases hkey : key' = key
    · subst hkey
      rw [AList.lookup_insert] at hk
      cases hk
      exact Nat.lt_succ_self _
    · rw [AList.lookup_insert_ne hkey] at hk
      exact Nat.lt_succ_of_lt (h.keyed key' ch hk)
  · intro j t ch hj hw
    obtain ⟨rfl, rfl⟩ | ⟨-, hj⟩ := hold hj
    · cases hw
    · exact Nat.lt_succ_of_lt (h.waited j t ch hj hw)
  · intro j t ch hj hp
    obtain ⟨rfl, rfl⟩ | ⟨-, hj⟩ := hold hj
    · cases hp
      exact ⟨Nat.lt_succ_self _, by simp [State.become, State.openChannel, Channel.new]⟩
    · obtain ⟨hlt, hpending⟩ := h.led j t ch hj hp
      refine ⟨Nat.lt_succ_of_lt hlt, ?_⟩
      simpa [State.become, State.openChannel, update_of_ne (Nat.ne_of_lt hlt)] using hpending
  · intro j k t t' ch hj hk hpj hpk
    obtain ⟨rfl, rfl⟩ | ⟨-, hj'⟩ := hold hj
    · obtain ⟨rfl, rfl⟩ | ⟨-, hk'⟩ := hold hk
      · rfl
      · cases hpj
        exact absurd (h.led k t' _ hk' hpk).1 (Nat.lt_irrefl _)
    · obtain ⟨rfl, rfl⟩ | ⟨-, hk'⟩ := hold hk
      · cases hpk
        exact absurd (h.led j t _ hj' hpj).1 (Nat.lt_irrefl _)
      · exact h.single j k t t' ch hj' hk' hpj hpk

/-- The key of a leader is given up. -/
theorem Wired.erase (h : Wired s) (key : CoalesceKey) :
    Wired { s with inFlight := s.inFlight.erase key } := by
  refine ⟨fun key' ch hk => ?_, h.waited, h.led, h.single⟩
  by_cases hkey : key' = key
  · subst hkey
    simp at hk
  · rw [AList.lookup_erase_ne hkey] at hk
    exact h.keyed key' ch hk

theorem record_value (s : State) (ch : Nat) (r : Response) (ch' : Nat) :
    ((s.record ch r).channels ch').value = (s.channels ch').value := by
  unfold State.record
  by_cases hch : ch' = ch
  · subst hch
    simp
  · simp [update_of_ne hch]

theorem Wired.record (h : Wired s) (ch : Nat) (r : Response) : Wired (s.record ch r) := by
  refine ⟨h.keyed, h.waited, fun i t ch' ht hp => ?_, h.single⟩
  rw [record_value]
  exact h.led i t ch' ht hp

end Becoming

/-- Every step keeps the wiring. -/
theorem Wired.move {e : Event} (h : Wired s) (hm : Move includeHeaders s e s') : Wired s' := by
  cases hm with
  | arrive req => exact h.arrive req
  | join ht hkey =>
    exact h.become ht nofun fun ch hw => by cases hw; exact h.keyed _ _ hkey
  | lead ht hkey => exact h.lead _ ht
  | subscribe ht => exact h.become ht nofun fun ch hw => h.waited _ _ ch ht hw
  | park ht hv => exact h.become ht nofun fun ch hw => h.waited _ _ ch ht hw
  | wake ht hv => exact h.become ht nofun fun ch hw => h.waited _ _ ch ht hw
  | answer ht hv => exact h.become ht nofun nofun
  | share ht hv => exact h.become ht nofun nofun
  | suspend result ht => exact h.become ht (fun _ hp => hp) nofun
  | remove ht hp =>
    refine (h.erase _).become ht (fun ch hpub => ?_) nofun
    obtain ⟨rfl, -⟩ | ⟨rfl, -⟩ := hp
    · exact hpub
    · exact hpub
  | @stream i req ch r ht => exact (h.record ch r).become ht (fun _ hp => hp) nofun
  | publish ht hpub hp =>
    refine h.publish ht hpub ?_ ?_
    · obtain rfl | ⟨_, rfl⟩ | ⟨b, rfl, hfin⟩ := hp
      · rfl
      · rfl
      · simp [Phase.publishes, hfin]
    · obtain rfl | ⟨_, rfl⟩ | ⟨b, rfl, hfin⟩ := hp <;> rfl
  | read ht hpoll =>
    refine h.become ht (fun ch hp => ?_) nofun
    simpa [Phase.publishes, FanoutBody.pollFrame_finished hpoll] using hp
  | discard ht hfin => exact h.become ht nofun nofun
  | leave ht hp => exact h.become ht nofun nofun
  | abandon ht hp => exact h.become ht nofun nofun

end JustApi.Core.Coalesce
