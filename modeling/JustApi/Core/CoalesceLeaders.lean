import JustApi.Core.CoalesceSteps

/-! # Leaders and the keys they hold

A key in `in_flight` should have a leader inside `next.run`, and a request that waits
should have somebody to wait for. Nothing in the coalescer makes up for a leader that
is dropped, nor for an outcome that is published while nobody has a receiver yet, so
this holds as long as neither happens and no leader queues for the lock. -/
namespace JustApi.Core.CoalesceLeaders
open JustApi.Lib.Run JustApi.Core.Http JustApi.Core.Coalesce
open Function (update update_self update_of_ne)

section Properties

variable (includeHeaders : List String) (s : State)

/-- Every key in flight has a live leader inside `next.run`. -/
def Led : Prop :=
  ∀ key ch, s.inFlight.lookup key = some ch →
    ∃ (i : Nat) (req : Request), s.tasks[i]? = some ⟨req, .running ch⟩ ∧
      keyOf includeHeaders req = key

/-- Somebody still has to publish on the channel. -/
def Published (ch : Nat) : Prop :=
  ∃ (j : Nat) (t : Task), s.tasks[j]? = some t ∧ t.phase.publishes = some ch

/-- Every request that waits has its outcome, or somebody who will publish it. -/
def Attended : Prop :=
  ∀ (i : Nat) (t : Task) (ch : Nat), s.tasks[i]? = some t → t.phase.waits = some ch →
    (s.channels ch).value ≠ .pending ∨ Published s ch

/-- No key and no request is orphaned. -/
def Unorphaned : Prop := Led includeHeaders s ∧ Attended s

/-- What is published reaches everyone who has found the channel. -/
def Heard : Option (Nat × Outcome) → Prop
  | some (ch, _) => s.heardOn ch = true ∨ ∀ t ∈ s.tasks, t.phase ≠ .found ch
  | none => True

instance : ∀ publication, Decidable (Heard s publication)
  | some (ch, _) =>
    inferInstanceAs (Decidable (s.heardOn ch = true ∨ ∀ t ∈ s.tasks, t.phase ≠ .found ch))
  | none => .isTrue trivial

end Properties

/-- The handler returns while the lock is taken. -/
def suspends : Action → Bool
  | .handlerReturns _ contended => contended
  | _ => false

/-- An event that orphans nobody: a request that still has to publish is not dropped
and does not queue for the lock, and what is published is heard. -/
def Sparing (s : State) : Event → Prop
  | .arrive _ => True
  | .act i a => ∀ t ∈ s.tasks[i]?, (a = .drop → t.phase.publishes = none) ∧ suspends a = false ∧
      Heard s (t.phase.published a)

instance (s : State) : ∀ e, Decidable (Sparing s e)
  | .arrive _ => .isTrue trivial
  | .act i a => inferInstanceAs (Decidable (∀ t ∈ s.tasks[i]?,
      (a = .drop → t.phase.publishes = none) ∧ suspends a = false ∧ Heard s (t.phase.published a)))

/-- Keys and leaders belong together. -/
structure Registered (includeHeaders : List String) (s : State) : Prop where
  leaders : Led includeHeaders s
  owned : ∀ (i : Nat) (req : Request) (ch : Nat), s.tasks[i]? = some ⟨req, .running ch⟩ →
    s.inFlight.lookup (keyOf includeHeaders req) = some ch
  prompt : ∀ (i : Nat) (req : Request) (ch : Nat) (result : Except String Response),
    s.tasks[i]? ≠ some ⟨req, .queued ch result⟩

/-- What holds of a system in which nobody has been orphaned. -/
structure Tended (includeHeaders : List String) (s : State) : Prop where
  wired : Wired s
  registered : Registered includeHeaders s
  attended : Attended s

variable {includeHeaders : List String} {s s' : State}

theorem tended_empty : Tended includeHeaders State.empty where
  wired := wired_empty
  registered := ⟨by simp [Led, State.empty], by simp [State.empty], by simp [State.empty]⟩
  attended := by simp [Attended, State.empty]

/-! ## Keys and leaders -/

theorem Registered.arrive (h : Registered includeHeaders s) (req : Request) :
    Registered includeHeaders (s.arrive req) := by
  refine ⟨?_, ?_, ?_⟩
  · intro key ch hk
    obtain ⟨i, req', ht, hkey⟩ := h.leaders key ch hk
    exact ⟨i, req', getElem?_arrive_old req ht, hkey⟩
  · intro i req' ch ht
    obtain ht | ht := getElem?_arrive ht
    · exact h.owned i req' ch ht
    · cases ht
  · intro i req' ch result ht
    obtain ht | ht := getElem?_arrive ht
    · exact h.prompt i req' ch result ht
    · cases ht

section Becoming

variable {i : Nat} {req : Request} {p p' : Phase}

/-- A request that is not a leader moves on and does not become one. -/
theorem Registered.become (h : Registered includeHeaders s) (ht : s.tasks[i]? = some ⟨req, p⟩)
    (hp : ∀ ch, p ≠ .running ch) (hp' : ∀ ch, p' ≠ .running ch)
    (hq : ∀ ch result, p' ≠ .queued ch result) :
    Registered includeHeaders (s.become i req p') := by
  refine ⟨?_, ?_, ?_⟩
  · intro key ch hk
    obtain ⟨j, req', hj, hkey⟩ := h.leaders key ch hk
    have hother : (⟨req', .running ch⟩ : Task) ≠ ⟨req, p⟩ := by
      intro heq
      exact hp ch (congrArg Task.phase heq).symm
    exact ⟨j, req', getElem?_become_other ht hj hother, hkey⟩
  · intro j req' ch hj
    obtain ⟨rfl, heq⟩ | ⟨-, hj'⟩ := getElem?_become hj
    · cases heq
      exact absurd rfl (hp' ch)
    · exact h.owned j req' ch hj'
  · intro j req' ch result hj
    obtain ⟨rfl, heq⟩ | ⟨-, hj'⟩ := getElem?_become hj
    · cases heq
      exact absurd rfl (hq ch result)
    · exact h.prompt j req' ch result hj'

/-- Only the channels are different. -/
theorem Registered.congr (h : Registered includeHeaders s) (hmap : s'.inFlight = s.inFlight)
    (htasks : s'.tasks = s.tasks) : Registered includeHeaders s' := by
  refine ⟨?_, ?_, ?_⟩
  · unfold Led
    rw [hmap, htasks]
    exact h.leaders
  · rw [hmap, htasks]
    exact h.owned
  · rw [htasks]
    exact h.prompt

/-- A request takes a free key. -/
theorem Registered.lead (h : Registered includeHeaders s)
    (ht : s.tasks[i]? = some ⟨req, .arrived⟩)
    (hkey : s.inFlight.lookup (keyOf includeHeaders req) = none) :
    Registered includeHeaders
      ((s.openChannel (keyOf includeHeaders req)).become i req (.running s.next)) := by
  have hself : ((s.openChannel (keyOf includeHeaders req)).become i req (.running s.next)).tasks[i]? =
      some ⟨req, .running s.next⟩ := getElem?_become_self ht
  refine ⟨?_, ?_, ?_⟩
  · intro key ch hk
    change (s.inFlight.insert (keyOf includeHeaders req) s.next).lookup key = _ at hk
    by_cases hsame : key = keyOf includeHeaders req
    · subst hsame
      rw [AList.lookup_insert] at hk
      cases hk
      exact ⟨i, req, hself, rfl⟩
    · rw [AList.lookup_insert_ne hsame] at hk
      obtain ⟨j, req', hj, hkey'⟩ := h.leaders key ch hk
      exact ⟨j, req', getElem?_become_other (s := s.openChannel _) ht hj (by simp), hkey'⟩
  · intro j req' ch hj
    show (s.inFlight.insert (keyOf includeHeaders req) s.next).lookup _ = _
    obtain ⟨rfl, heq⟩ | ⟨-, hj'⟩ := getElem?_become hj
    · cases heq
      exact AList.lookup_insert _
    · have hother : keyOf includeHeaders req' ≠ keyOf includeHeaders req := by
        intro hsame
        have := h.owned j req' ch hj'
        rw [hsame, hkey] at this
        cases this
      rw [AList.lookup_insert_ne hother]
      exact h.owned j req' ch hj'
  · intro j req' ch result hj
    obtain ⟨rfl, heq⟩ | ⟨-, hj'⟩ := getElem?_become hj
    · cases heq
    · exact h.prompt j req' ch result hj'

/-- A leader gives up its key. -/
theorem Registered.remove (h : Registered includeHeaders s) (hw : Wired s) {ch : Nat}
    (ht : s.tasks[i]? = some ⟨req, .running ch⟩) (result : Except String Response) :
    Registered includeHeaders
      ({ s with inFlight := s.inFlight.erase (keyOf includeHeaders req) }.become i req
        (.removed ch result)) := by
  refine ⟨?_, ?_, ?_⟩
  · intro key ch' hk
    change (s.inFlight.erase (keyOf includeHeaders req)).lookup key = _ at hk
    by_cases hsame : key = keyOf includeHeaders req
    · subst hsame
      rw [AList.lookup_erase] at hk
      cases hk
    · rw [AList.lookup_erase_ne hsame] at hk
      obtain ⟨j, req', hj, hkey'⟩ := h.leaders key ch' hk
      have hother : (⟨req', .running ch'⟩ : Task) ≠ ⟨req, .running ch⟩ := by
        intro heq
        have hreq : req' = req := congrArg Task.req heq
        rw [hreq] at hkey'
        exact hsame hkey'.symm
      exact ⟨j, req', getElem?_become_other (s := { s with inFlight := _ }) ht hj hother, hkey'⟩
  · intro j req' ch' hj
    show (s.inFlight.erase (keyOf includeHeaders req)).lookup _ = _
    obtain ⟨rfl, heq⟩ | ⟨hne, hj'⟩ := getElem?_become hj
    · cases heq
    · have hown := h.owned j req' ch' hj'
      have hother : keyOf includeHeaders req' ≠ keyOf includeHeaders req := by
        intro hsame
        rw [hsame, h.owned i req ch ht] at hown
        cases hown
        exact hne (hw.single j i _ _ ch hj' ht rfl rfl)
      rw [AList.lookup_erase_ne hother]
      exact hown
  · intro j req' ch' result' hj
    obtain ⟨rfl, heq⟩ | ⟨-, hj'⟩ := getElem?_become hj
    · cases heq
    · exact h.prompt j req' ch' result' hj'

/-! ## Requests that wait -/

theorem Published.become {ch : Nat} (h : Published s ch) (ht : s.tasks[i]? = some ⟨req, p⟩)
    (hpub : p.publishes = some ch → p'.publishes = some ch) : Published (s.become i req p') ch := by
  obtain ⟨j, t, hj, hp⟩ := h
  by_cases hji : j = i
  · subst hji
    rw [ht] at hj
    cases hj
    exact ⟨j, _, getElem?_become_self ht, hpub hp⟩
  · exact ⟨j, t, by rwa [getElem?_become_ne hji], hp⟩

/-- A request moves on and keeps what it has to publish. -/
theorem Attended.become (h : Attended s) (ht : s.tasks[i]? = some ⟨req, p⟩)
    (hpub : ∀ ch, p.publishes = some ch → p'.publishes = some ch)
    (hwait : ∀ ch, p'.waits = some ch → (s.channels ch).value ≠ .pending ∨ Published s ch) :
    Attended (s.become i req p') := by
  intro j t ch hj hw
  obtain ⟨rfl, rfl⟩ | ⟨-, hj'⟩ := getElem?_become hj
  · exact (hwait ch hw).imp_right fun h => h.become ht (hpub ch)
  · exact (h j t ch hj' hw).imp_right fun h => h.become ht (hpub ch)

theorem Attended.arrive (h : Attended s) (req : Request) : Attended (s.arrive req) := by
  intro i t ch ht hw
  obtain ht | rfl := getElem?_arrive ht
  · refine (h i t ch ht hw).imp_right fun hpub => ?_
    obtain ⟨j, t', hj, hp⟩ := hpub
    exact ⟨j, t', getElem?_arrive_old req hj, hp⟩
  · cases hw

theorem Attended.lead (h : Attended s) (hw : Wired s) (key : CoalesceKey)
    (ht : s.tasks[i]? = some ⟨req, .arrived⟩) :
    Attended ((s.openChannel key).become i req (.running s.next)) := by
  intro j t ch hj hwait
  obtain ⟨rfl, rfl⟩ | ⟨-, hj'⟩ := getElem?_become hj
  · cases hwait
  · have hne : ch ≠ s.next := Nat.ne_of_lt (hw.waited j t ch hj' hwait)
    have hvalue : ((s.openChannel key).become i req (.running s.next)).channels ch = s.channels ch :=
      update_of_ne hne _ _
    rw [hvalue]
    exact (h j t ch hj' hwait).imp_right fun hp =>
      Published.become (s := s.openChannel key) hp ht nofun

/-- A request publishes and is heard. -/
theorem Attended.publish (h : Attended s) {a : Action} {ch : Nat} {o : Outcome}
    (ht : s.tasks[i]? = some ⟨req, p⟩) (hpub : p.published a = some (ch, o))
    (hp : p'.waits = none) (hheard : Heard s (some (ch, o))) :
    Attended ((s.send ch o).become i req p') := by
  obtain ⟨hch, ho⟩ := Phase.publishes_of_published hpub
  intro j t ch' hj hwait
  obtain ⟨rfl, rfl⟩ | ⟨-, hj'⟩ := getElem?_send_become hj
  · simp [hp] at hwait
  · by_cases hsame : ch' = ch
    · subst hsame
      by_cases hon : s.heardOn ch' = true
      · left
        simpa [State.become, State.send, hon] using ho
      · -- nobody has a receiver and nobody is about to get one
        exfalso
        have hfound := hheard.resolve_left hon t (List.mem_of_getElem? hj')
        have hrecv : t.phase.receives ≠ some ch' := by
          intro hr
          exact hon (List.any_eq_true.mpr ⟨t, List.mem_of_getElem? hj', by simpa using hr⟩)
        cases hphase : t.phase <;> simp_all [Phase.waits, Phase.receives]
    · have hother : p.publishes = some ch' → p'.publishes = some ch' := by
        rw [hch]
        intro heq
        exact absurd (Option.some.inj heq).symm hsame
      rw [show ((s.send ch o).become i req p').channels ch' = s.channels ch' from
        send_channels_ne hsame o]
      refine (h j t ch' hj' hwait).imp_right fun hpub' => ?_
      have hpub' : Published (s.send ch o) ch' := by
        unfold Published
        rwa [send_tasks]
      exact hpub'.become (by rwa [send_tasks]) hother

end Becoming

/-! ## Whole runs -/

/-- A waiting request goes on waiting or stops waiting. -/
theorem Tended.waiting {i : Nat} {req : Request} {p p' : Phase} (h : Tended includeHeaders s)
    (hw : Wired (s.become i req p')) (ht : s.tasks[i]? = some ⟨req, p⟩)
    (hp : p.publishes = none) (hp' : p'.publishes = none)
    (hwait : ∀ ch, p'.waits = some ch → (s.channels ch).value ≠ .pending ∨ Published s ch) :
    Tended includeHeaders (s.become i req p') := by
  refine ⟨hw, h.registered.become ht ?_ ?_ ?_, h.attended.become ht ?_ hwait⟩
  · intro ch heq
    rw [heq] at hp
    cases hp
  · intro ch heq
    rw [heq] at hp'
    cases hp'
  · intro ch result heq
    rw [heq] at hp'
    cases hp'
  · intro ch hpub
    rw [hp] at hpub
    cases hpub

/-- A sparing event keeps everything tended. -/
theorem Tended.move {e : Event} (h : Tended includeHeaders s) (hm : Move includeHeaders s e s')
    (hc : Sparing s e) : Tended includeHeaders s' := by
  have hw : Wired s' := h.wired.move hm
  cases hm with
  | arrive req => exact ⟨hw, h.registered.arrive req, h.attended.arrive req⟩
  | @join i req ch ht hkey =>
    refine h.waiting hw ht rfl rfl fun ch' hwait => ?_
    cases hwait
    obtain ⟨j, req', hj, -⟩ := h.registered.leaders _ _ hkey
    exact .inr ⟨j, _, hj, rfl⟩
  | lead ht hkey => exact ⟨hw, h.registered.lead ht hkey, h.attended.lead h.wired _ ht⟩
  | subscribe ht => exact h.waiting hw ht rfl rfl fun ch hwait => h.attended _ _ ch ht hwait
  | park ht hv => exact h.waiting hw ht rfl rfl fun ch hwait => h.attended _ _ ch ht hwait
  | wake ht hv => exact h.waiting hw ht rfl rfl fun ch hwait => h.attended _ _ ch ht hwait
  | answer ht hv => exact h.waiting hw ht rfl rfl (by simp [Phase.waits])
  | share ht hv => exact h.waiting hw ht rfl rfl (by simp [Phase.waits])
  | suspend result ht =>
    obtain ⟨-, hs, -⟩ := hc _ ht
    cases hs
  | @remove i req p a ch result ht hp =>
    obtain ⟨rfl, rfl⟩ | ⟨rfl, rfl⟩ := hp
    · exact ⟨hw, h.registered.remove h.wired ht result,
        Attended.become (s := { s with inFlight := s.inFlight.erase (keyOf includeHeaders req) })
          h.attended ht (fun _ hpub => hpub) (by simp [Phase.waits])⟩
    · exact absurd ht (h.registered.prompt _ _ _ _)
  | @stream i req ch r ht =>
    have hrec : Attended (s.record ch r) := by
      intro j t ch' hj hwait
      rw [record_value]
      exact h.attended j t ch' hj hwait
    have hreg : Registered includeHeaders (s.record ch r) := h.registered.congr rfl rfl
    exact ⟨hw, hreg.become ht (by simp) (by simp) (by simp),
      hrec.become ht (fun _ hpub => hpub) (by simp [Phase.waits])⟩
  | @publish i req p p' a ch o ht hpub hp =>
    obtain ⟨-, -, hheard⟩ := hc _ ht
    rw [hpub] at hheard
    have hnot : ∀ ch, p ≠ .running ch := by
      intro ch heq
      rw [heq] at hpub
      cases hpub
    have hreg : Registered includeHeaders (s.send ch o) :=
      h.registered.congr (send_inFlight s ch o) (send_tasks s ch o)
    refine ⟨hw, hreg.become (by rwa [send_tasks]) hnot ?_ ?_, h.attended.publish ht hpub ?_ hheard⟩
    · obtain rfl | ⟨_, rfl⟩ | ⟨_, rfl, _⟩ := hp <;> simp
    · obtain rfl | ⟨_, rfl⟩ | ⟨_, rfl, _⟩ := hp <;> simp
    · obtain rfl | ⟨_, rfl⟩ | ⟨_, rfl, _⟩ := hp <;> rfl
  | read ht hpoll =>
    refine ⟨hw, h.registered.become ht (by simp) (by simp) (by simp),
      h.attended.become ht (fun ch hpub => ?_) (by simp [Phase.waits])⟩
    simpa [Phase.publishes, FanoutBody.pollFrame_finished hpoll] using hpub
  | discard ht hfin =>
    exact h.waiting hw ht (by simp [Phase.publishes, hfin]) rfl (by simp [Phase.waits])
  | leave ht hp =>
    refine h.waiting hw ht ?_ rfl (by simp [Phase.waits])
    obtain rfl | ⟨_, _, rfl⟩ := hp <;> rfl
  | @abandon i req p ch ht hp =>
    obtain ⟨hdrop, -, -⟩ := hc _ ht
    have := hdrop rfl
    obtain rfl | ⟨_, rfl⟩ := hp <;> cases this

/-- A leader that stops running with its key in flight leaves an orphan. -/
theorem Tended.orphans {i : Nat} {req : Request} {ch : Nat} {p : Phase}
    (h : Tended includeHeaders s) (ht : s.tasks[i]? = some ⟨req, .running ch⟩)
    (hp : ∀ ch, p ≠ .running ch) : ¬ Led includeHeaders (s.become i req p) := by
  intro hled
  obtain ⟨j, req', hj, -⟩ := hled _ ch (h.registered.owned i req ch ht)
  obtain ⟨rfl, heq⟩ | ⟨hne, hj'⟩ := getElem?_become hj
  · cases heq
    exact hp ch rfl
  · exact hne (h.wired.single j i _ _ ch hj' ht rfl rfl)

/-- A request that has found the channel and is not heard of misses what is
published. -/
theorem Tended.misses {i : Nat} {req : Request} {p p' : Phase} {a : Action} {ch : Nat} {o : Outcome}
    (h : Tended includeHeaders s) (ht : s.tasks[i]? = some ⟨req, p⟩)
    (hpub : p.published a = some (ch, o)) (hp' : p'.publishes = none)
    (hatt : Attended ((s.send ch o).become i req p')) : Heard s (some (ch, o)) := by
  obtain ⟨hch, -⟩ := Phase.publishes_of_published hpub
  by_cases hon : s.heardOn ch = true
  · exact .inl hon
  · refine .inr fun t hmem hfound => ?_
    obtain ⟨j, hj⟩ := List.mem_iff_getElem?.mp hmem
    have hother : t ≠ ⟨req, p⟩ := by
      intro heq
      rw [heq] at hfound
      rw [show p = .found ch from hfound] at hch
      cases hch
    have hsend : s.send ch o = s := by simp [State.send, hon]
    rw [hsend] at hatt
    have hj' : (s.become i req p').tasks[j]? = some t := getElem?_become_other ht hj hother
    obtain hv | ⟨k, t', hk, hkp⟩ := hatt j t ch hj' (by rw [hfound]; rfl)
    · exact hv (h.wired.led i _ ch ht hch).2
    · obtain ⟨rfl, rfl⟩ | ⟨hne, hk'⟩ := getElem?_become hk
      · rw [hp'] at hkp
        cases hkp
      · exact hne (h.wired.single k i t' _ ch hk' ht hkp hch)

/-- An event that orphans nobody was sparing. -/
theorem Tended.sparing {e : Event} (h : Tended includeHeaders s) (hm : Move includeHeaders s e s')
    (ha : Unorphaned includeHeaders s') : Sparing s e := by
  obtain ⟨hled, hatt⟩ := ha
  cases e with
  | arrive req => trivial
  | act i a =>
    intro t ht
    obtain ⟨req, p⟩ := t
    rw [Option.mem_def] at ht
    refine ⟨?_, ?_, ?_⟩
    · intro ha
      subst ha
      cases hm with
      | remove ht' hp => simp at hp
      | publish ht' hpub hp => simpa using Phase.action_of_published hpub
      | leave ht' hp =>
        rw [ht] at ht'
        cases ht'
        obtain rfl | ⟨_, _, rfl⟩ := hp <;> rfl
      | abandon ht' hp =>
        obtain rfl | ⟨result, rfl⟩ := hp
        · exact absurd hled (h.orphans ht' (by simp))
        · exact absurd ht' (h.registered.prompt _ _ _ _)
    · cases hs : suspends a with
      | false => rfl
      | true =>
        cases hm with
        | suspend result ht' => exact absurd hled (h.orphans ht' (by simp))
        | remove ht' hp =>
          obtain ⟨-, rfl⟩ | ⟨-, rfl⟩ := hp <;> cases hs
        | publish ht' hpub hp =>
          obtain rfl | rfl | rfl := Phase.action_of_published hpub <;> cases hs
        | join | lead | subscribe | park | wake | answer | share | stream | read | discard | leave
        | abandon => cases hs
    · cases hpub : p.published a with
      | none => trivial
      | some publication =>
        obtain ⟨ch, o⟩ := publication
        obtain ⟨p', rfl, hp'⟩ := hm.of_published ht hpub
        exact h.misses ht hpub hp' hatt

/-- **When nobody is orphaned.** In a run of the coalescer every key in flight has a
leader inside `next.run`, and every waiting request somebody to wait for, in every
state exactly when every event is sparing. -/
theorem keys_have_leaders_iff (includeHeaders : List String) (tr : List (Event × State))
    (hrun : Along (fun s e s' => exec includeHeaders s e = .ok s') State.empty tr) :
    (∀ s ∈ visited State.empty tr, Unorphaned includeHeaders s) ↔
      Along (fun s e _ => Sparing s e) State.empty tr :=
  Along.forall_visited_iff (I := Tended includeHeaders)
    (fun _ _ _ h hexec hc => h.move (exec_move hexec) hc)
    (fun _ _ _ h hexec ha => h.sparing (exec_move hexec) ha)
    (fun _ h => ⟨h.registered.leaders, h.attended⟩) tended_empty hrun

def getA : Request := ⟨.get, "/a", [], []⟩

/-- A leader answers, and the request that waited for it gets the same response. -/
theorem keys_have_leaders_coalesced_pair :
    let tr := replay (exec []) State.empty
      [.arrive getA, .arrive getA, .act 0 .claim, .act 1 .claim, .act 1 .subscribe, .act 1 .look,
        .act 0 (.handlerReturns (.ok ⟨200, [], [.ok (.data [1])]⟩) false), .act 0 .finish,
        .act 0 .pollBody, .act 0 .pollBody, .act 1 .changed, .act 1 .look]
    tr.length = 12 ∧ ∀ s ∈ visited State.empty tr, Unorphaned [] s := by
  intro tr
  exact ⟨by decide +kernel,
    (keys_have_leaders_iff [] tr (along_replay _ _ _)).mpr (by decide +kernel)⟩

/-- The client of a leader goes away while the handler runs. The key stays, and the
next request for it parks with nobody to wait for. -/
theorem dropped_leader_orphans_key :
    ¬ ∀ tr, Along (fun s e s' => exec [] s e = .ok s') State.empty tr →
      ∀ s ∈ visited State.empty tr, Unorphaned [] s := by
  intro h
  let events : List Event := [.arrive getA, .act 0 .claim, .act 0 .drop, .arrive getA,
    .act 1 .claim, .act 1 .subscribe, .act 1 .look]
  obtain ⟨-, hatt⟩ := h _ (along_replay _ State.empty events) _
    (final_mem_visited _ State.empty events)
  have htasks : (final (exec []) State.empty events).tasks =
      [⟨getA, .gone⟩, ⟨getA, .parked 0 0⟩] := by decide +kernel
  have hvalue : ((final (exec []) State.empty events).channels 0).value = .pending := by
    decide +kernel
  obtain hv | ⟨j, t, hj, hp⟩ := hatt 1 ⟨getA, .parked 0 0⟩ 0 (by rw [htasks]; rfl) rfl
  · exact hv hvalue
  · rw [htasks] at hj
    have hmem := List.mem_of_getElem? hj
    simp only [List.mem_cons, List.not_mem_nil, or_false] at hmem
    obtain rfl | rfl := hmem <;> cases hp

end JustApi.Core.CoalesceLeaders
