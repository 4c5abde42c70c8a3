import JustApi.Lib.Result
import JustApi.Core.CoalesceLeaders

/-! # Single flight

A `Ledger` is the system together with a note of what has happened: the channel a
request found in `in_flight`, how often a request entered `next.run`, and what was
published on a channel, kept or not. As long as no request is dropped, the keys alone
keep the executions apart. The outcomes reach everybody exactly when each of them is
published while somebody listens, or nobody is on the way to. -/
namespace JustApi.Core.CoalesceFlights
open JustApi.Lib.Run JustApi.Lib.Result JustApi.Core.Http JustApi.Core.Coalesce
open JustApi.Core.CoalesceLeaders
open Function (update update_self update_of_ne)

/-- The channel of a request that has yet to give up its key. -/
def leads : Phase → Option Nat
  | .running ch | .queued ch _ => some ch
  | _ => none

/-- The request is inside `next.run`. -/
def inHandler : Phase → Bool
  | .running _ => true
  | _ => false

/-- How a request that waited for an outcome returns. -/
def returned (ch : Nat) : Outcome → Option Phase
  | .ok c => some (.answered ch c.toResponse)
  | .err message => some (.failed message)
  | .pending => none

/-! ## What happens in a run -/

structure Ledger where
  state : State
  joined : Nat → Option Nat
  runs : Nat → Nat
  sent : Nat → Option Outcome

def Ledger.empty : Ledger := ⟨State.empty, fun _ => none, fun _ => 0, fun _ => none⟩

/-- A request goes from the phase `p` to the phase `p'`. -/
def Ledger.turn (l : Ledger) (i : Nat) (a : Action) (p p' : Phase) (s : State) : Ledger where
  state := s
  joined :=
    match p' with
    | .found ch => update l.joined i (some ch)
    | _ => l.joined
  runs := if inHandler p' && !inHandler p then update l.runs i (l.runs i + 1) else l.runs
  sent :=
    match p.published a with
    | some (ch, o) => update l.sent ch (some o)
    | none => l.sent

section Properties

variable (includeHeaders : List String)

/-- A step of the system, noted. -/
def note (l : Ledger) : Event → Except Disabled Ledger
  | .arrive req => do
    let s ← exec includeHeaders l.state (.arrive req)
    .ok { l with state := s }
  | .act i a => do
    let s ← exec includeHeaders l.state (.act i a)
    match l.state.tasks[i]?, s.tasks[i]? with
    | some t, some t' => .ok (l.turn i a t.phase t'.phase s)
    | _, _ => .ok { l with state := s }

/-- The request gets to the phase `p` by steps of its own. -/
def Reaches (s : State) (i : Nat) (p : Phase) : Prop :=
  ∃ (actions : List Action) (req : Request),
    (final (exec includeHeaders) s (actions.map (.act i))).tasks[i]? = some ⟨req, p⟩

/-- At most one execution a key; a request that gives up a key gives up its own; and a
request that found a leader never runs the handler, and returns what that leader has
published. -/
structure SingleFlight (l : Ledger) : Prop where
  oneExecution : ∀ (i j : Nat) (req req' : Request) (ch ch' : Nat),
    l.state.tasks[i]? = some ⟨req, .running ch⟩ → l.state.tasks[j]? = some ⟨req', .running ch'⟩ →
    keyOf includeHeaders req = keyOf includeHeaders req' → i = j
  ownKey : ∀ (i : Nat) (t : Task) (ch : Nat), l.state.tasks[i]? = some t →
    leads t.phase = some ch → l.state.inFlight.lookup (keyOf includeHeaders t.req) = some ch
  waiters : ∀ (i ch : Nat), l.joined i = some ch → l.runs i = 0 ∧
    ∃ t, l.state.tasks[i]? = some t ∧
      ((∃ o ∈ l.sent ch, returned ch o = some t.phase) ∨
        t.phase.waits = some ch ∧
          ∀ o ∈ l.sent ch, ∃ p ∈ returned ch o, Reaches includeHeaders l.state i p)

end Properties

/-- No request future is dropped. -/
def DropFree : Event → Prop
  | .act _ .drop => False
  | _ => True

instance : DecidablePred DropFree
  | .act _ .drop => .isFalse not_false
  | .arrive _ | .act _ .claim | .act _ .subscribe | .act _ .look | .act _ .changed
  | .act _ .closed | .act _ (.handlerReturns _ _) | .act _ .remove | .act _ .finish
  | .act _ .pollBody | .act _ .dropBody => .isTrue trivial

/-- Whoever has found the channel hears what is published on it. -/
def Audible (s : State) : Event → Prop
  | .arrive _ => True
  | .act i a => ∀ t ∈ s.tasks[i]?, Heard s (t.phase.published a)

instance (s : State) : ∀ e, Decidable (Audible s e)
  | .arrive _ => .isTrue trivial
  | .act i a => inferInstanceAs (Decidable (∀ t ∈ s.tasks[i]?, Heard s (t.phase.published a)))

variable {includeHeaders : List String} {s s' : State} {l l' : Ledger}

/-- A request that moves is there before and after. -/
theorem task_of_move {i : Nat} {a : Action} (hm : Move includeHeaders s (.act i a) s') :
    ∃ t t', s.tasks[i]? = some t ∧ s'.tasks[i]? = some t' := by
  cases hm with
  | join ht | subscribe ht | park ht | wake ht | answer ht | share ht | suspend _ ht | read ht
  | discard ht | leave ht | abandon ht => exact ⟨_, _, ht, getElem?_become_self ht⟩
  | lead ht => exact ⟨_, _, ht, getElem?_become_self (s := s.openChannel _) ht⟩
  | remove ht => exact ⟨_, _, ht, getElem?_become_self (s := { s with inFlight := _ }) ht⟩
  | stream ht => exact ⟨_, _, ht, getElem?_become_self (s := s.record _ _) ht⟩
  | publish ht => exact ⟨_, _, ht, getElem?_become_self (by rw [send_tasks]; exact ht)⟩

theorem exec_of_note {e : Event} (h : note includeHeaders l e = .ok l') :
    exec includeHeaders l.state e = .ok l'.state := by
  cases e with
  | arrive req =>
    cases h
    rfl
  | act i a =>
    simp only [note] at h
    obtain ⟨s, hexec, h⟩ := bind_eq_ok.mp h
    rw [hexec]
    split at h <;> cases h <;> rfl

/-- A noted step is a step, and the note is of the phases before and after it. -/
theorem note_cases {e : Event} (h : note includeHeaders l e = .ok l') :
    Move includeHeaders l.state e l'.state ∧
      ((∃ req, e = .arrive req ∧ l' = { l with state := l.state.arrive req }) ∨
        ∃ i a t t', e = .act i a ∧ l.state.tasks[i]? = some t ∧ l'.state.tasks[i]? = some t' ∧
          l' = l.turn i a t.phase t'.phase l'.state) := by
  cases e with
  | arrive req =>
    cases h
    exact ⟨.arrive req, .inl ⟨req, rfl, rfl⟩⟩
  | act i a =>
    simp only [note] at h
    obtain ⟨s, hexec, h⟩ := bind_eq_ok.mp h
    have hm := exec_move hexec
    obtain ⟨t, t', ht, ht'⟩ := task_of_move hm
    simp only [ht, ht'] at h
    cases h
    exact ⟨hm, .inr ⟨i, a, t, t', rfl, ht, ht', rfl⟩⟩

/-! ## Getting to the outcome -/

theorem Reaches.refl {i : Nat} {req : Request} {p : Phase} (ht : s.tasks[i]? = some ⟨req, p⟩) :
    Reaches includeHeaders s i p := ⟨[], req, ht⟩

theorem Reaches.step {i : Nat} {a : Action} {p : Phase}
    (h : exec includeHeaders s (.act i a) = .ok s') (hr : Reaches includeHeaders s' i p) :
    Reaches includeHeaders s i p := by
  obtain ⟨actions, req, ht⟩ := hr
  refine ⟨a :: actions, req, ?_⟩
  rwa [List.map_cons, final_cons _ h]

/-- A request that can look at an outcome returns it. -/
theorem reaches_look {i : Nat} {req : Request} {ch seen : Nat} {p : Phase}
    (ht : s.tasks[i]? = some ⟨req, .subscribed ch seen⟩)
    (hp : returned ch (s.channels ch).value = some p) : Reaches includeHeaders s i p := by
  have hexec : exec includeHeaders s (.act i .look) = .ok (s.become i req p) := by
    simp only [exec, ht, advance]
    cases hv : (s.channels ch).value <;> rw [hv] at hp <;> cases hp <;> rfl
  exact .step hexec (.refl (getElem?_become_self ht))

/-- A request whose outcome is on the channel gets to it. -/
theorem reaches_outcome {i : Nat} {t : Task} {ch : Nat} {p : Phase} (ht : s.tasks[i]? = some t)
    (hw : t.phase.waits = some ch) (hp : returned ch (s.channels ch).value = some p)
    (hnews : ∀ seen, t.phase = .parked ch seen → (s.channels ch).version ≠ seen) :
    Reaches includeHeaders s i p := by
  obtain ⟨req, phase⟩ := t
  cases phase with
  | found ch' =>
    cases hw
    have hexec : exec includeHeaders s (.act i .subscribe) =
        .ok (s.become i req (.subscribed ch (s.channels ch).version)) := by
      simp only [exec, ht, advance]
    exact .step hexec (reaches_look (getElem?_become_self ht) hp)
  | subscribed ch' seen =>
    cases hw
    exact reaches_look ht hp
  | parked ch' seen =>
    cases hw
    have hexec : exec includeHeaders s (.act i .changed) =
        .ok (s.become i req (.subscribed ch (s.channels ch).version)) := by
      simp only [exec, ht, advance, if_neg (hnews seen rfl)]
    exact .step hexec (reaches_look (getElem?_become_self ht) hp)
  | arrived | running | queued | removed | streaming | answered | failed | gone => cases hw

/-- The request waits on a channel that has nothing for it, or is dropped. -/
def Stuck (i ch : Nat) (s : State) : Prop :=
  ∃ t, s.tasks[i]? = some t ∧
    (t.phase = .gone ∨ t.phase.waits = some ch ∧ (s.channels ch).value = .pending)

/-- A stuck request does not get anywhere by itself. -/
theorem Stuck.move {i ch : Nat} {a : Action} (h : Stuck i ch s)
    (hm : Move includeHeaders s (.act i a) s') : Stuck i ch s' := by
  obtain ⟨t, ht, hstuck⟩ := h
  have hsame : ∀ {t'}, s.tasks[i]? = some t' → t = t' := by
    intro t' ht'
    rw [ht] at ht'
    exact Option.some.inj ht'
  have hwaits : ∀ {req p}, s.tasks[i]? = some ⟨req, p⟩ → p ≠ .gone →
      p.waits = some ch ∧ (s.channels ch).value = .pending := by
    intro req p ht' hp
    rw [hsame ht'] at hstuck
    exact hstuck.resolve_left hp
  cases hm with
  | join ht' | lead ht' | suspend _ ht' | stream ht' | read ht' | discard ht' =>
    obtain ⟨hw, -⟩ := hwaits ht' (by simp)
    cases hw
  | subscribe ht' | park ht' hv | wake ht' hv =>
    obtain ⟨hw, hv⟩ := hwaits ht' (by simp)
    exact ⟨_, getElem?_become_self ht', .inr ⟨hw, hv⟩⟩
  | answer ht' hv | share ht' hv =>
    obtain ⟨hw, hpending⟩ := hwaits ht' (by simp)
    cases hw
    rw [hv] at hpending
    cases hpending
  | remove ht' hp =>
    obtain ⟨rfl, -⟩ | ⟨rfl, -⟩ := hp <;>
    · obtain ⟨hw, -⟩ := hwaits ht' (by simp)
      cases hw
  | publish ht' hpub hp =>
    obtain ⟨_, rfl, -⟩ | ⟨_, rfl, -⟩ := Phase.published_cases hpub <;>
    · obtain ⟨hw, -⟩ := hwaits ht' (by simp)
      cases hw
  | leave ht' | abandon ht' => exact ⟨_, getElem?_become_self ht', .inl rfl⟩

theorem Stuck.not_reaches {i ch : Nat} (h : Stuck i ch s) {o : Outcome} {p : Phase}
    (hp : returned ch o = some p) : ¬ Reaches includeHeaders s i p := by
  rintro ⟨actions, req, ht⟩
  have hrun := along_replay_labels (exec includeHeaders) (P := fun e => ∃ a, e = .act i a) s
    (actions.map (.act i)) (by simp)
  obtain ⟨t, ht', hstuck⟩ : Stuck i ch (final (exec includeHeaders) s (actions.map (.act i))) :=
    Along.invariant (I := Stuck i ch)
      (fun s e s' h hq => by
        obtain ⟨⟨a, rfl⟩, hexec⟩ := hq
        exact h.move (exec_move hexec))
      h hrun _ (final_mem_visited _ _ _)
  rw [ht] at ht'
  cases ht'
  cases o <;> cases hp <;> simp [Phase.waits] at hstuck

/-! ## Keys -/

/-- The keys in flight and the requests that have yet to give up a key belong together. -/
structure Keyed (includeHeaders : List String) (s : State) : Prop where
  owned : ∀ (i : Nat) (t : Task) (ch : Nat), s.tasks[i]? = some t → leads t.phase = some ch →
    s.inFlight.lookup (keyOf includeHeaders t.req) = some ch
  held : ∀ key ch, s.inFlight.lookup key = some ch →
    ∃ (i : Nat) (t : Task), s.tasks[i]? = some t ∧ leads t.phase = some ch ∧
      keyOf includeHeaders t.req = key

theorem publishes_of_leads {p : Phase} {ch : Nat} (h : leads p = some ch) :
    p.publishes = some ch := by
  cases p <;> first | exact h | cases h

theorem Keyed.arrive (h : Keyed includeHeaders s) (req : Request) :
    Keyed includeHeaders (s.arrive req) := by
  refine ⟨?_, ?_⟩
  · intro i t ch ht hl
    obtain ht | rfl := getElem?_arrive ht
    · exact h.owned i t ch ht hl
    · cases hl
  · intro key ch hk
    obtain ⟨i, t, ht, hl⟩ := h.held key ch hk
    exact ⟨i, t, getElem?_arrive_old req ht, hl⟩

/-- Only the channels are different. -/
theorem Keyed.congr (h : Keyed includeHeaders s) (hmap : s'.inFlight = s.inFlight)
    (htasks : s'.tasks = s.tasks) : Keyed includeHeaders s' := by
  refine ⟨?_, ?_⟩
  · rw [hmap, htasks]
    exact h.owned
  · rw [hmap, htasks]
    exact h.held

section Becoming

variable {i : Nat} {req : Request} {p p' : Phase}

/-- A request moves on and keeps the key it has, if any. -/
theorem Keyed.become (h : Keyed includeHeaders s) (ht : s.tasks[i]? = some ⟨req, p⟩)
    (hp : leads p' = leads p) : Keyed includeHeaders (s.become i req p') := by
  refine ⟨?_, ?_⟩
  · intro j t ch hj hl
    obtain ⟨rfl, rfl⟩ | ⟨-, hj'⟩ := getElem?_become hj
    · exact h.owned j ⟨req, p⟩ ch ht (hp ▸ hl)
    · exact h.owned j t ch hj' hl
  · intro key ch hk
    obtain ⟨j, t, hj, hl, hkey⟩ := h.held key ch hk
    by_cases hji : j = i
    · subst hji
      rw [ht] at hj
      cases hj
      exact ⟨j, _, getElem?_become_self ht, by rwa [hp], hkey⟩
    · exact ⟨j, t, by rwa [getElem?_become_ne hji], hl, hkey⟩

/-- A request takes a free key. -/
theorem Keyed.lead (h : Keyed includeHeaders s) (ht : s.tasks[i]? = some ⟨req, .arrived⟩)
    (hkey : s.inFlight.lookup (keyOf includeHeaders req) = none) :
    Keyed includeHeaders
      ((s.openChannel (keyOf includeHeaders req)).become i req (.running s.next)) := by
  refine ⟨?_, ?_⟩
  · intro j t ch hj hl
    show (s.inFlight.insert (keyOf includeHeaders req) s.next).lookup _ = _
    obtain ⟨rfl, rfl⟩ | ⟨-, hj'⟩ := getElem?_become hj
    · cases hl
      exact AList.lookup_insert _
    · have hown := h.owned j t ch hj' hl
      have hother : keyOf includeHeaders t.req ≠ keyOf includeHeaders req := by
        intro hsame
        rw [hsame, hkey] at hown
        cases hown
      rw [AList.lookup_insert_ne hother]
      exact hown
  · intro key ch hk
    change (s.inFlight.insert (keyOf includeHeaders req) s.next).lookup key = _ at hk
    by_cases hsame : key = keyOf includeHeaders req
    · subst hsame
      rw [AList.lookup_insert] at hk
      cases hk
      exact ⟨i, _, getElem?_become_self (s := s.openChannel _) ht, rfl, rfl⟩
    · rw [AList.lookup_insert_ne hsame] at hk
      obtain ⟨j, t, hj, hl, hkey'⟩ := h.held key ch hk
      have hne : t ≠ ⟨req, .arrived⟩ := by
        rintro rfl
        cases hl
      exact ⟨j, t, getElem?_become_other (s := s.openChannel _) ht hj hne, hl, hkey'⟩

/-- A request gives up its key. -/
theorem Keyed.remove (h : Keyed includeHeaders s) (hw : Wired s) {ch : Nat}
    (ht : s.tasks[i]? = some ⟨req, p⟩) (hp : leads p = some ch) (hp' : leads p' = none) :
    Keyed includeHeaders
      ({ s with inFlight := s.inFlight.erase (keyOf includeHeaders req) }.become i req p') := by
  refine ⟨?_, ?_⟩
  · intro j t ch' hj hl
    show (s.inFlight.erase (keyOf includeHeaders req)).lookup _ = _
    obtain ⟨rfl, rfl⟩ | ⟨hne, hj'⟩ := getElem?_become hj
    · rw [hp'] at hl
      cases hl
    · have hown := h.owned j t ch' hj' hl
      have hother : keyOf includeHeaders t.req ≠ keyOf includeHeaders req := by
        intro hsame
        rw [hsame, h.owned i _ ch ht hp] at hown
        cases hown
        exact hne (hw.single j i _ _ ch hj' ht (publishes_of_leads hl) (publishes_of_leads hp))
      rw [AList.lookup_erase_ne hother]
      exact hown
  · intro key ch' hk
    change (s.inFlight.erase (keyOf includeHeaders req)).lookup key = _ at hk
    by_cases hsame : key = keyOf includeHeaders req
    · subst hsame
      rw [AList.lookup_erase] at hk
      cases hk
    · rw [AList.lookup_erase_ne hsame] at hk
      obtain ⟨j, t, hj, hl, hkey'⟩ := h.held key ch' hk
      have hne : t ≠ ⟨req, p⟩ := by
        rintro rfl
        exact hsame hkey'.symm
      exact ⟨j, t, getElem?_become_other (s := { s with inFlight := _ }) ht hj hne, hl, hkey'⟩

end Becoming

/-- Two requests in the handler have different keys. -/
theorem Keyed.oneExecution (h : Keyed includeHeaders s) (hw : Wired s) {i j : Nat}
    {req req' : Request} {ch ch' : Nat} (hi : s.tasks[i]? = some ⟨req, .running ch⟩)
    (hj : s.tasks[j]? = some ⟨req', .running ch'⟩)
    (hkey : keyOf includeHeaders req = keyOf includeHeaders req') : i = j := by
  have hown := h.owned i _ ch hi rfl
  rw [hkey, h.owned j _ ch' hj rfl] at hown
  cases hown
  exact hw.single i j _ _ ch hi hj rfl rfl

/-! ## What is sent -/

/-- A request with a receiver has seen no version that is not there yet, and one in
`changed().await` has news of any outcome. -/
def Abreast (channels : Nat → Channel) : Phase → Prop
  | .subscribed ch seen => seen ≤ (channels ch).version
  | .parked ch seen => seen ≤ (channels ch).version ∧
      ((channels ch).value ≠ .pending → seen < (channels ch).version)
  | _ => True

theorem abreast_send {p : Phase} {ch : Nat} {o : Outcome} (h : Abreast s.channels p) :
    Abreast (s.send ch o).channels p := by
  have hversion : ∀ ch', (s.channels ch').version ≤ ((s.send ch o).channels ch').version ∧
      ((s.send ch o).channels ch' = s.channels ch' ∨
        (s.channels ch').version < ((s.send ch o).channels ch').version) := by
    intro ch'
    by_cases hsame : ch' = ch
    · subst hsame
      by_cases hon : s.heardOn ch' = true <;> simp [State.send, hon]
    · rw [send_channels_ne hsame]
      exact ⟨Nat.le_refl _, .inl rfl⟩
  cases p with
  | subscribed ch' seen => exact Nat.le_trans h (hversion ch').1
  | parked ch' seen =>
    obtain ⟨hle, hnews⟩ := h
    obtain ⟨hmono, hsame | hlt⟩ := hversion ch'
    · simp only [Abreast, hsame]
      exact ⟨hle, hnews⟩
    · exact ⟨Nat.le_trans hle hmono, fun _ => Nat.lt_of_le_of_lt hle hlt⟩
  | arrived | found | running | queued | removed | streaming | answered | failed | gone => trivial

/-- What was sent on a channel, the channel has, unless nobody waits for it. -/
structure Kept (s : State) (sent : Nat → Option Outcome) : Prop where
  unsent : ∀ (i : Nat) (t : Task) (ch : Nat), s.tasks[i]? = some t →
    t.phase.publishes = some ch → sent ch = none
  allocated : ∀ ch, s.next ≤ ch → sent ch = none
  settled : ∀ ch, ∀ o ∈ sent ch, o ≠ .pending
  kept : ∀ ch, (s.channels ch).value ≠ .pending → sent ch = some (s.channels ch).value
  heard : ∀ (i : Nat) (t : Task) (ch : Nat), s.tasks[i]? = some t → t.phase.waits = some ch →
    ∀ o ∈ sent ch, (s.channels ch).value = o
  abreast : ∀ (i : Nat) (t : Task), s.tasks[i]? = some t → Abreast s.channels t.phase

variable {sent : Nat → Option Outcome}

theorem Kept.arrive (h : Kept s sent) (req : Request) : Kept (s.arrive req) sent := by
  refine ⟨?_, h.allocated, h.settled, h.kept, ?_, ?_⟩
  · intro i t ch ht hp
    obtain ht | rfl := getElem?_arrive ht
    · exact h.unsent i t ch ht hp
    · cases hp
  · intro i t ch ht hw
    obtain ht | rfl := getElem?_arrive ht
    · exact h.heard i t ch ht hw
    · cases hw
  · intro i t ht
    obtain ht | rfl := getElem?_arrive ht
    · exact h.abreast i t ht
    · trivial

section Becoming

variable {i : Nat} {req : Request} {p p' : Phase}

theorem imp_of_eq_none {o : Option Nat} {P : Nat → Prop} (h : o = none) :
    ∀ ch, o = some ch → P ch := by
  intro ch hch
  rw [h] at hch
  cases hch

/-- A request moves on and publishes nothing. -/
theorem Kept.become (h : Kept s sent) (ht : s.tasks[i]? = some ⟨req, p⟩)
    (hpub : ∀ ch, p'.publishes = some ch → p.publishes = some ch)
    (hwait : ∀ ch, p'.waits = some ch → ∀ o ∈ sent ch, (s.channels ch).value = o)
    (hseen : Abreast s.channels p') : Kept (s.become i req p') sent := by
  refine ⟨?_, h.allocated, h.settled, h.kept, ?_, ?_⟩
  · intro j t ch hj hp
    obtain ⟨rfl, rfl⟩ | ⟨-, hj'⟩ := getElem?_become hj
    · exact h.unsent j _ ch ht (hpub ch hp)
    · exact h.unsent j t ch hj' hp
  · intro j t ch hj hw
    obtain ⟨rfl, rfl⟩ | ⟨-, hj'⟩ := getElem?_become hj
    · exact hwait ch hw
    · exact h.heard j t ch hj' hw
  · intro j t hj
    obtain ⟨rfl, rfl⟩ | ⟨-, hj'⟩ := getElem?_become hj
    · exact hseen
    · exact h.abreast j t hj'

/-- A task moves on to a phase in which it neither publishes nor waits. -/
theorem Kept.quiet (h : Kept s sent) (ht : s.tasks[i]? = some ⟨req, p⟩)
    (hpub : p'.publishes = none) (hwait : p'.waits = none) (hseen : Abreast s.channels p') :
    Kept (s.become i req p') sent :=
  h.become ht (imp_of_eq_none hpub) (imp_of_eq_none hwait) hseen

/-- The channels have the same values and versions. -/
theorem Kept.congr (h : Kept s sent) (htasks : s'.tasks = s.tasks) (hnext : s'.next = s.next)
    (hvalue : ∀ ch, (s'.channels ch).value = (s.channels ch).value)
    (hversion : ∀ ch, (s'.channels ch).version = (s.channels ch).version) : Kept s' sent := by
  refine ⟨by rw [htasks]; exact h.unsent, by rw [hnext]; exact h.allocated, h.settled, ?_, ?_, ?_⟩
  · intro ch
    rw [hvalue]
    exact h.kept ch
  · intro i t ch ht hw
    rw [hvalue]
    exact h.heard i t ch (htasks ▸ ht) hw
  · intro i t ht
    have habreast := h.abreast i t (htasks ▸ ht)
    cases hphase : t.phase <;> simp_all [Abreast]

theorem record_version (s : State) (ch : Nat) (r : Response) (ch' : Nat) :
    ((s.record ch r).channels ch').version = (s.channels ch').version := by
  unfold State.record
  by_cases hch : ch' = ch
  · subst hch
    simp
  · simp [update_of_ne hch]

/-- A new channel has nothing on it. -/
theorem Kept.lead (h : Kept s sent) (hw : Wired s) (key : CoalesceKey)
    (ht : s.tasks[i]? = some ⟨req, .arrived⟩) :
    Kept ((s.openChannel key).become i req (.running s.next)) sent := by
  have hold : ∀ {j : Nat} {t : Task},
      ((s.openChannel key).become i req (.running s.next)).tasks[j]? = some t →
      j = i ∧ t = ⟨req, .running s.next⟩ ∨ j ≠ i ∧ s.tasks[j]? = some t := getElem?_become
  have hchannel : ∀ {ch}, ch < s.next → (s.openChannel key).channels ch = s.channels ch :=
    fun hlt => update_of_ne (Nat.ne_of_lt hlt) _ _
  refine ⟨?_, fun ch hle => h.allocated ch (Nat.le_of_succ_le hle), h.settled, ?_, ?_, ?_⟩
  · intro j t ch hj hp
    obtain ⟨rfl, rfl⟩ | ⟨-, hj'⟩ := hold hj
    · cases hp
      exact h.allocated _ (Nat.le_refl _)
    · exact h.unsent j t ch hj' hp
  · intro ch hv
    by_cases hch : ch = s.next
    · subst hch
      exact absurd (by simp [State.become, State.openChannel, Channel.new]) hv
    · have hsame : (s.openChannel key).channels ch = s.channels ch := update_of_ne hch _ _
      rw [State.become, hsame] at hv ⊢
      exact h.kept ch hv
  · intro j t ch hj hwait
    obtain ⟨rfl, rfl⟩ | ⟨-, hj'⟩ := hold hj
    · cases hwait
    · rw [State.become, hchannel (hw.waited j t ch hj' hwait)]
      exact h.heard j t ch hj' hwait
  · intro j t hj
    obtain ⟨rfl, rfl⟩ | ⟨-, hj'⟩ := hold hj
    · trivial
    · have habreast := h.abreast j t hj'
      have hwaited := hw.waited j t
      cases hphase : t.phase with
      | subscribed ch seen | parked ch seen =>
        rw [hphase] at habreast hwaited
        have hsame := hchannel (hwaited ch hj' rfl)
        simpa only [Abreast, State.become, hsame] using habreast
      | arrived | found | running | queued | removed | streaming | answered | failed | gone =>
        trivial

/-- Somebody who waits for a channel without a receiver has found it and not yet
subscribed. -/
theorem found_of_waits {j ch : Nat} {t : Task} (ht : s.tasks[j]? = some t)
    (hw : t.phase.waits = some ch) (hon : s.heardOn ch ≠ true) : t.phase = .found ch := by
  have hrecv : t.phase.receives ≠ some ch := by
    intro hr
    exact hon (List.any_eq_true.mpr ⟨t, List.mem_of_getElem? ht, by simpa using hr⟩)
  cases hphase : t.phase <;> simp_all [Phase.waits, Phase.receives]

/-- An outcome that is heard is kept. -/
theorem Kept.publish (h : Kept s sent) (hw : Wired s) {a : Action} {ch : Nat} {o : Outcome}
    (ht : s.tasks[i]? = some ⟨req, p⟩) (hpub : p.published a = some (ch, o))
    (hp' : p'.publishes = none) (hwait' : p'.waits = none) (habr' : ∀ c, Abreast c p')
    (hheard : Heard s (some (ch, o))) :
    Kept ((s.send ch o).become i req p') (update sent ch (some o)) := by
  obtain ⟨hch, ho⟩ := Phase.publishes_of_published hpub
  obtain ⟨hlt, hpending⟩ := hw.led i _ ch ht hch
  refine ⟨?_, ?_, ?_, ?_, ?_, ?_⟩
  · intro j t ch' hj hp
    obtain ⟨rfl, rfl⟩ | ⟨hne, hj'⟩ := getElem?_send_become hj
    · rw [hp'] at hp
      cases hp
    · rw [update_of_ne (hw.publishes_ne ht hj' hch hp hne)]
      exact h.unsent j t ch' hj' hp
  · intro ch' hle
    simp only [State.become, send_next] at hle
    rw [update_of_ne (by omega)]
    exact h.allocated ch' hle
  · intro ch' o' ho'
    by_cases hsame : ch' = ch
    · subst hsame
      rw [update_self] at ho'
      cases ho'
      exact ho
    · rw [update_of_ne hsame] at ho'
      exact h.settled ch' o' ho'
  · intro ch' hv
    by_cases hsame : ch' = ch
    · subst hsame
      rw [update_self]
      by_cases hon : s.heardOn ch' = true
      · simp [State.become, State.send, hon]
      · simp [State.become, State.send, hon, hpending] at hv
    · have hchannel : ((s.send ch o).become i req p').channels ch' = s.channels ch' :=
        send_channels_ne hsame o
      rw [update_of_ne hsame, hchannel]
      rw [hchannel] at hv
      exact h.kept ch' hv
  · intro j t ch' hj hwait o' ho'
    obtain ⟨rfl, rfl⟩ | ⟨-, hj'⟩ := getElem?_send_become hj
    · rw [hwait'] at hwait
      cases hwait
    · by_cases hsame : ch' = ch
      · subst hsame
        rw [update_self] at ho'
        cases ho'
        by_cases hon : s.heardOn ch' = true
        · simp [State.become, State.send, hon]
        · exact absurd (found_of_waits hj' hwait hon)
            (hheard.resolve_left hon t (List.mem_of_getElem? hj'))
      · rw [update_of_ne hsame] at ho'
        rw [show ((s.send ch o).become i req p').channels ch' = s.channels ch' from
          send_channels_ne hsame o]
        exact h.heard j t ch' hj' hwait o' ho'
  · intro j t hj
    obtain ⟨rfl, rfl⟩ | ⟨-, hj'⟩ := getElem?_send_become hj
    · exact habr' _
    · exact abreast_send (h.abreast j t hj')

end Becoming

/-! ## Who found a leader -/

/-- A request that found a channel waits for it or has returned what was sent on it. -/
structure Joins (tasks : List Task) (joined : Nat → Option Nat) (runs : Nat → Nat)
    (sent : Nat → Option Outcome) : Prop where
  fresh : ∀ i, (∀ t ∈ tasks[i]?, t.phase = .arrived) → joined i = none ∧ runs i = 0
  waiting : ∀ (i : Nat) (t : Task) (ch : Nat), tasks[i]? = some t → t.phase.waits = some ch →
    joined i = some ch
  settled : ∀ i ch, joined i = some ch → runs i = 0 ∧
    ∃ t, tasks[i]? = some t ∧ ((∃ o ∈ sent ch, returned ch o = some t.phase) ∨
      t.phase.waits = some ch)

variable {joined : Nat → Option Nat} {runs : Nat → Nat}

theorem Joins.arrive (h : Joins s.tasks joined runs sent) (req : Request) :
    Joins (s.arrive req).tasks joined runs sent := by
  refine ⟨?_, ?_, ?_⟩
  · intro i hfresh
    refine h.fresh i fun t ht => ?_
    exact hfresh t (getElem?_arrive_old req ht)
  · intro i t ch ht hw
    obtain ht | rfl := getElem?_arrive ht
    · exact h.waiting i t ch ht hw
    · cases hw
  · intro i ch hj
    obtain ⟨hruns, t, ht, hstands⟩ := h.settled i ch hj
    exact ⟨hruns, t, getElem?_arrive_old req ht, hstands⟩

/-- A first outcome is sent on a channel. -/
theorem Joins.sending {tasks : List Task} (h : Joins tasks joined runs sent) {ch : Nat}
    (hsent : sent ch = none) (o : Outcome) : Joins tasks joined runs (update sent ch (some o)) := by
  refine ⟨h.fresh, h.waiting, fun i ch' hj => ?_⟩
  obtain ⟨hruns, t, ht, hstands⟩ := h.settled i ch' hj
  refine ⟨hruns, t, ht, hstands.imp_left ?_⟩
  rintro ⟨o', ho', hret⟩
  have hne : ch' ≠ ch := by
    rintro rfl
    rw [hsent] at ho'
    cases ho'
  exact ⟨o', by rwa [update_of_ne hne], hret⟩

section Becoming

variable {i : Nat} {req : Request} {p p' : Phase}

/-- Who has neither an answer nor an error has not returned. -/
theorem returned_ne (ha : ∀ ch r, p ≠ .answered ch r) (hf : ∀ message, p ≠ .failed message) :
    ∀ ch o, returned ch o ≠ some p := by
  intro ch o hret
  cases o with
  | pending => cases hret
  | ok c => exact ha _ _ (Option.some.inj hret).symm
  | err message => exact hf _ (Option.some.inj hret).symm

theorem Joins.not_joined (h : Joins s.tasks joined runs sent) (ht : s.tasks[i]? = some ⟨req, p⟩)
    (hw : p.waits = none) (hr : ∀ ch o, returned ch o ≠ some p) : joined i = none := by
  cases hj : joined i with
  | none => rfl
  | some ch =>
    obtain ⟨-, t, ht', hstands⟩ := h.settled i ch hj
    rw [ht] at ht'
    cases ht'
    obtain ⟨o, -, hret⟩ | hwait := hstands
    · exact absurd hret (hr ch o)
    · rw [hw] at hwait
      cases hwait

/-- A request that found no leader moves on. -/
theorem Joins.become (h : Joins s.tasks joined runs sent) (ht : s.tasks[i]? = some ⟨req, p⟩)
    (hw : p.waits = none) (hr : ∀ ch o, returned ch o ≠ some p)
    (hw' : p'.waits = none) (hp' : p' ≠ .arrived) (n : Nat) :
    Joins (s.become i req p').tasks joined (update runs i n) sent := by
  have hnone := h.not_joined ht hw hr
  refine ⟨?_, ?_, ?_⟩
  · intro j hfresh
    have hji : j ≠ i := by
      rintro rfl
      exact hp' (hfresh _ (getElem?_become_self ht))
    rw [update_of_ne hji]
    refine h.fresh j fun t hj => hfresh t ?_
    rw [getElem?_become_ne hji]
    exact hj
  · intro j t ch hj hwait
    obtain ⟨rfl, rfl⟩ | ⟨-, hj'⟩ := getElem?_become hj
    · rw [hw'] at hwait
      cases hwait
    · exact h.waiting j t ch hj' hwait
  · intro j ch hj
    have hji : j ≠ i := by
      rintro rfl
      rw [hnone] at hj
      cases hj
    rw [update_of_ne hji, getElem?_become_ne hji]
    exact h.settled j ch hj

/-- It enters the handler no more. -/
theorem Joins.pass (h : Joins s.tasks joined runs sent) (ht : s.tasks[i]? = some ⟨req, p⟩)
    (hw : p.waits = none) (hr : ∀ ch o, returned ch o ≠ some p)
    (hw' : p'.waits = none) (hp' : p' ≠ .arrived) :
    Joins (s.become i req p').tasks joined runs sent := by
  have hbecome := h.become ht hw hr hw' hp' (runs i)
  rwa [Function.update_eq_self] at hbecome

/-- A request finds a leader. -/
theorem Joins.join (h : Joins s.tasks joined runs sent) (ht : s.tasks[i]? = some ⟨req, .arrived⟩)
    (ch : Nat) :
    Joins (s.become i req (.found ch)).tasks (update joined i (some ch)) runs sent := by
  have hruns : runs i = 0 := by
    refine (h.fresh i fun t ht' => ?_).2
    rw [ht] at ht'
    cases ht'
    rfl
  refine ⟨?_, ?_, ?_⟩
  · intro j hfresh
    have hji : j ≠ i := by
      rintro rfl
      cases hfresh _ (getElem?_become_self ht)
    rw [update_of_ne hji]
    refine h.fresh j fun t hj => hfresh t ?_
    rw [getElem?_become_ne hji]
    exact hj
  · intro j t ch' hj hwait
    obtain ⟨rfl, rfl⟩ | ⟨hji, hj'⟩ := getElem?_become hj
    · cases hwait
      exact update_self _ _ _
    · rw [update_of_ne hji]
      exact h.waiting j t ch' hj' hwait
  · intro j ch' hj
    by_cases hji : j = i
    · subst hji
      rw [update_self] at hj
      cases hj
      exact ⟨hruns, _, getElem?_become_self ht, .inr rfl⟩
    · rw [update_of_ne hji] at hj
      rw [getElem?_become_ne hji]
      exact h.settled j ch' hj

/-- A request that waits goes on waiting, or returns what was sent. -/
theorem Joins.waiter (h : Joins s.tasks joined runs sent) (ht : s.tasks[i]? = some ⟨req, p⟩)
    {ch : Nat} (hw : p.waits = some ch)
    (hp' : p'.waits = some ch ∨ p'.waits = none ∧ ∃ o ∈ sent ch, returned ch o = some p') :
    Joins (s.become i req p').tasks joined runs sent := by
  have hjoined := h.waiting i _ ch ht hw
  refine ⟨?_, ?_, ?_⟩
  · intro j hfresh
    have hji : j ≠ i := by
      rintro rfl
      have hp : p' = .arrived := hfresh _ (getElem?_become_self ht)
      subst hp
      obtain hp | ⟨-, o, -, hret⟩ := hp'
      · cases hp
      · cases o <;> cases hret
    refine h.fresh j fun t hj => hfresh t ?_
    rw [getElem?_become_ne hji]
    exact hj
  · intro j t ch' hj hwait
    obtain ⟨rfl, rfl⟩ | ⟨-, hj'⟩ := getElem?_become hj
    · obtain hp | ⟨hp, -⟩ := hp'
      · rw [hp] at hwait
        cases hwait
        exact hjoined
      · rw [hp] at hwait
        cases hwait
    · exact h.waiting j t ch' hj' hwait
  · intro j ch' hj
    by_cases hji : j = i
    · subst hji
      rw [hjoined] at hj
      cases hj
      exact ⟨(h.settled j ch hjoined).1, _, getElem?_become_self ht,
        hp'.elim .inr fun hp => .inl hp.2⟩
    · rw [getElem?_become_ne hji]
      exact h.settled j ch' hj

end Becoming

/-! ## Whole runs -/

/-- What holds of a ledger in which everything published was heard. -/
structure Logged (includeHeaders : List String) (l : Ledger) : Prop where
  wired : Wired l.state
  keyed : Keyed includeHeaders l.state
  channels : Kept l.state l.sent
  requests : Joins l.state.tasks l.joined l.runs l.sent

theorem logged_empty : Logged includeHeaders Ledger.empty where
  wired := wired_empty
  keyed := ⟨by simp [Ledger.empty, State.empty], by simp [Ledger.empty, State.empty]⟩
  channels := by
    refine ⟨?_, ?_, ?_, ?_, ?_, ?_⟩ <;> simp [Ledger.empty, State.empty, Channel.new]
  requests := by
    refine ⟨?_, ?_, ?_⟩ <;> simp [Ledger.empty, State.empty]

/-- What a ledger says is single flight. -/
theorem Logged.singleFlight (h : Logged includeHeaders l) : SingleFlight includeHeaders l := by
  refine ⟨fun i j req req' ch ch' => h.keyed.oneExecution h.wired, h.keyed.owned, ?_⟩
  intro i ch hj
  obtain ⟨hruns, t, ht, hstands⟩ := h.requests.settled i ch hj
  refine ⟨hruns, t, ht, hstands.imp_right fun hw => ⟨hw, fun o ho => ?_⟩⟩
  have hvalue := h.channels.heard i t ch ht hw o ho
  have hsettled := h.channels.settled ch o ho
  obtain ⟨p, hp⟩ : ∃ p, returned ch o = some p := by
    cases o with
    | pending => exact absurd rfl hsettled
    | ok c => exact ⟨_, rfl⟩
    | err message => exact ⟨_, rfl⟩
  refine ⟨p, hp, reaches_outcome ht hw (by rwa [hvalue]) ?_⟩
  intro seen hparked
  have habreast := h.channels.abreast i t ht
  rw [hparked] at habreast
  rw [← hvalue] at hsettled
  exact Nat.ne_of_gt (habreast.2 hsettled)

section Turns

variable {i : Nat} {req : Request} {ch : Nat} {b : FanoutBody}

/-- An outcome is published while nobody misses it. -/
theorem Logged.publish {a : Action} {p p' : Phase} {o : Outcome} (h : Logged includeHeaders l)
    (hw : Wired ((l.state.send ch o).become i req p')) (ht₁ : l.state.tasks[i]? = some ⟨req, p⟩)
    (hpub : p.published a = some (ch, o))
    (hp : p' = .gone ∨ (∃ message, p' = .failed message) ∨
      ∃ b, p' = .streaming ch b ∧ b.finished = true)
    (hheard : Heard l.state (p.published a)) :
    Logged includeHeaders (l.turn i a p p' ((l.state.send ch o).become i req p')) := by
  have hturn : l.turn i a p p' ((l.state.send ch o).become i req p') =
      ⟨(l.state.send ch o).become i req p', l.joined, l.runs, update l.sent ch (some o)⟩ := by
    obtain rfl | ⟨_, rfl⟩ | ⟨_, rfl, -⟩ := hp <;> simp [Ledger.turn, hpub, inHandler]
  rw [hturn]
  rw [hpub] at hheard
  have hkeyed : Keyed includeHeaders (l.state.send ch o) := h.keyed.congr (by simp) (by simp)
  have hsent := h.channels.unsent i _ ch ht₁ (Phase.publishes_of_published hpub).1
  have hrequests : Joins (l.state.send ch o).tasks l.joined l.runs
      (update l.sent ch (some o)) := by
    rw [send_tasks]
    exact h.requests.sending hsent o
  have hleader : leads p = none ∧ p.waits = none ∧ ∀ ch o, returned ch o ≠ some p := by
    obtain ⟨_, rfl, -⟩ | ⟨_, rfl, -⟩ := Phase.published_cases hpub
    · exact ⟨rfl, rfl, returned_ne (by simp) (by simp)⟩
    · exact ⟨rfl, rfl, returned_ne (by simp) (by simp)⟩
  have hrest : leads p' = none ∧ p'.publishes = none ∧ p'.waits = none ∧ p' ≠ .arrived ∧
      ∀ c, Abreast c p' := by
    obtain rfl | ⟨_, rfl⟩ | ⟨b, rfl, hfin⟩ := hp
    · exact ⟨rfl, rfl, rfl, by simp, fun _ => trivial⟩
    · exact ⟨rfl, rfl, rfl, by simp, fun _ => trivial⟩
    · exact ⟨rfl, by simp [Phase.publishes, hfin], rfl, by simp, fun _ => trivial⟩
  obtain ⟨hl, hwait, hret⟩ := hleader
  obtain ⟨hl', hpub', hwait', harr', habr'⟩ := hrest
  have ht₂ : (l.state.send ch o).tasks[i]? = some ⟨req, p⟩ := by rwa [send_tasks]
  exact ⟨hw, hkeyed.become ht₂ (hl'.trans hl.symm),
    h.channels.publish h.wired ht₁ hpub hpub' hwait' habr' hheard,
    hrequests.pass ht₂ hwait hret hwait' harr'⟩

/-- A body is read on, not yet to its end. -/
theorem Logged.read (h : Logged includeHeaders l)
    (hw : Wired (l.state.become i req (.streaming ch b.pollFrame.1)))
    (ht₁ : l.state.tasks[i]? = some ⟨req, .streaming ch b⟩) (hpoll : b.pollFrame.2 = none) :
    Logged includeHeaders (l.turn i .pollBody (.streaming ch b) (.streaming ch b.pollFrame.1)
      (l.state.become i req (.streaming ch b.pollFrame.1))) := by
  have hturn : l.turn i .pollBody (.streaming ch b) (.streaming ch b.pollFrame.1)
      (l.state.become i req (.streaming ch b.pollFrame.1)) =
        { l with state := l.state.become i req (.streaming ch b.pollFrame.1) } := by
    simp [Ledger.turn, Phase.published, hpoll, inHandler]
  rw [hturn]
  refine ⟨hw, h.keyed.become ht₁ rfl,
    h.channels.become ht₁ (fun ch' hp => ?_) (imp_of_eq_none rfl) trivial,
    h.requests.pass ht₁ rfl (returned_ne (by simp) (by simp)) rfl (by simp)⟩
  simpa [Phase.publishes, FanoutBody.pollFrame_finished hpoll] using hp

/-- A body is dropped after its end. -/
theorem Logged.discard (h : Logged includeHeaders l) (hw : Wired (l.state.become i req .gone))
    (ht₁ : l.state.tasks[i]? = some ⟨req, .streaming ch b⟩) (hfin : b.finished = true) :
    Logged includeHeaders
      (l.turn i .dropBody (.streaming ch b) .gone (l.state.become i req .gone)) := by
  have hturn : l.turn i .dropBody (.streaming ch b) .gone (l.state.become i req .gone) =
      { l with state := l.state.become i req .gone } := by
    simp [Ledger.turn, Phase.published, FanoutBody.dropped, hfin, inHandler]
  rw [hturn]
  exact ⟨hw, h.keyed.become ht₁ rfl, h.channels.quiet ht₁ rfl rfl trivial,
    h.requests.pass ht₁ rfl (returned_ne (by simp) (by simp)) rfl (by simp)⟩

/-- A request that waits on a channel goes on waiting. -/
theorem Logged.await {p p' : Phase} (h : Logged includeHeaders l)
    (hw : Wired (l.state.become i req p')) (ht₁ : l.state.tasks[i]? = some ⟨req, p⟩)
    (hwait : p.waits = some ch) (hwait' : p'.waits = some ch) (hlead : leads p' = leads p)
    (hpub : p'.publishes = none) (hseen : Abreast l.state.channels p') :
    Logged includeHeaders { l with state := l.state.become i req p' } := by
  refine ⟨hw, h.keyed.become ht₁ hlead,
    h.channels.become ht₁ (imp_of_eq_none hpub) (fun ch' hch => ?_) hseen,
    h.requests.waiter ht₁ hwait (.inl hwait')⟩
  exact h.channels.heard i _ ch' ht₁ (hwait.trans (hwait'.symm.trans hch))

/-- A request returns the outcome of the channel it has waited on. -/
theorem Logged.told {p p' : Phase} (h : Logged includeHeaders l)
    (hw : Wired (l.state.become i req p')) (ht₁ : l.state.tasks[i]? = some ⟨req, p⟩)
    (hwait : p.waits = some ch) (hlead : leads p' = leads p) (hpub : p'.publishes = none)
    (hwait' : p'.waits = none) (hseen : Abreast l.state.channels p')
    (hvalue : (l.state.channels ch).value ≠ .pending)
    (hreturned : returned ch (l.state.channels ch).value = some p') :
    Logged includeHeaders { l with state := l.state.become i req p' } := by
  have hkept := h.channels.kept ch hvalue
  exact ⟨hw, h.keyed.become ht₁ hlead, h.channels.quiet ht₁ hpub hwait' hseen,
    h.requests.waiter ht₁ hwait (.inr ⟨hwait', _, hkept, hreturned⟩)⟩

end Turns

/-- What is published while nobody misses it is noted and kept. -/
theorem Logged.turn {i : Nat} {a : Action} {t t' : Task} (h : Logged includeHeaders l)
    (hm : Move includeHeaders l.state (.act i a) s') (ht : l.state.tasks[i]? = some t)
    (ht' : s'.tasks[i]? = some t') (hdrop : a ≠ .drop)
    (hheard : Heard l.state (t.phase.published a)) :
    Logged includeHeaders (l.turn i a t.phase t'.phase s') := by
  have hw : Wired s' := h.wired.move hm
  cases hm with
  | @join i req ch ht₁ hkey =>
    obtain ⟨rfl, rfl⟩ := tasks_of_become rfl ht ht₁ ht'
    obtain ⟨j, t, hj, hl, -⟩ := h.keyed.held _ _ hkey
    have hunsent := h.channels.unsent j t ch hj (publishes_of_leads hl)
    refine ⟨hw, h.keyed.become ht₁ rfl, h.channels.become ht₁ (imp_of_eq_none rfl) ?_ trivial,
      h.requests.join ht₁ ch⟩
    intro ch' hwait o ho
    cases hwait
    rw [hunsent] at ho
    cases ho
  | @lead i req ht₁ hkey =>
    obtain ⟨rfl, rfl⟩ := tasks_of_become rfl ht ht₁ ht'
    refine ⟨hw, h.keyed.lead ht₁ hkey, h.channels.lead h.wired _ ht₁, ?_⟩
    have hne : Phase.running l.state.next ≠ .arrived := by simp
    exact Joins.become (s := l.state.openChannel _) h.requests ht₁ rfl
      (returned_ne (by simp) (by simp)) rfl hne _
  | @subscribe i req ch ht₁ =>
    obtain ⟨rfl, rfl⟩ := tasks_of_become rfl ht ht₁ ht'
    exact h.await hw ht₁ rfl rfl rfl rfl (Nat.le_refl _)
  | @park i req ch seen ht₁ hv =>
    obtain ⟨rfl, rfl⟩ := tasks_of_become rfl ht ht₁ ht'
    exact h.await hw ht₁ rfl rfl rfl rfl
      ⟨h.channels.abreast i _ ht₁, fun hne => absurd hv hne⟩
  | @wake i req ch seen ht₁ hv =>
    obtain ⟨rfl, rfl⟩ := tasks_of_become rfl ht ht₁ ht'
    exact h.await hw ht₁ rfl rfl rfl rfl (Nat.le_refl _)
  | @answer i req ch seen c ht₁ hv =>
    obtain ⟨rfl, rfl⟩ := tasks_of_become rfl ht ht₁ ht'
    exact h.told hw ht₁ rfl rfl rfl rfl trivial (by simp [hv]) (by rw [hv]; rfl)
  | @share i req ch seen message ht₁ hv =>
    obtain ⟨rfl, rfl⟩ := tasks_of_become rfl ht ht₁ ht'
    exact h.told hw ht₁ rfl rfl rfl rfl trivial (by simp [hv]) (by rw [hv]; rfl)
  | suspend result ht₁ =>
    obtain ⟨rfl, rfl⟩ := tasks_of_become rfl ht ht₁ ht'
    exact ⟨hw, h.keyed.become ht₁ rfl,
      h.channels.become ht₁ (fun _ hp => hp) (imp_of_eq_none rfl) trivial,
      h.requests.pass ht₁ rfl (returned_ne (by simp) (by simp)) rfl (by simp)⟩
  | @remove i req p a ch result ht₁ hp =>
    obtain ⟨rfl, rfl⟩ := tasks_of_become rfl ht ht₁ ht'
    have hkept : Kept { l.state with inFlight := l.state.inFlight.erase (keyOf includeHeaders req) }
        l.sent := h.channels.congr rfl rfl (fun _ => rfl) (fun _ => rfl)
    obtain ⟨rfl, rfl⟩ | ⟨rfl, rfl⟩ := hp <;>
    · exact ⟨hw, h.keyed.remove h.wired ht₁ rfl rfl,
        hkept.become ht₁ (fun _ hp => hp) (imp_of_eq_none rfl) trivial,
        Joins.pass (s := { l.state with inFlight := _ }) h.requests ht₁ rfl
          (returned_ne (by simp) (by simp)) rfl (by simp)⟩
  | @stream i req ch r ht₁ =>
    obtain ⟨rfl, rfl⟩ := tasks_of_become rfl ht ht₁ ht'
    have hkept : Kept (l.state.record ch r) l.sent :=
      h.channels.congr rfl rfl (record_value _ _ _) (record_version _ _ _)
    have hkeyed : Keyed includeHeaders (l.state.record ch r) := h.keyed.congr rfl rfl
    exact ⟨hw, hkeyed.become ht₁ rfl,
      hkept.become ht₁ (fun _ hp => hp) (imp_of_eq_none rfl) trivial,
      Joins.pass (s := l.state.record ch r) h.requests ht₁ rfl (returned_ne (by simp) (by simp)) rfl
        (by simp)⟩
  | @publish i req p p' a ch o ht₁ hpub hp =>
    obtain ⟨rfl, rfl⟩ := tasks_of_become (send_tasks _ _ _) ht ht₁ ht'
    exact h.publish hw ht₁ hpub hp hheard
  | @read i req ch b ht₁ hpoll =>
    obtain ⟨rfl, rfl⟩ := tasks_of_become rfl ht ht₁ ht'
    exact h.read hw ht₁ hpoll
  | @discard i req ch b ht₁ hfin =>
    obtain ⟨rfl, rfl⟩ := tasks_of_become rfl ht ht₁ ht'
    exact h.discard hw ht₁ hfin
  | leave ht₁ hp => exact absurd rfl hdrop
  | abandon ht₁ hp => exact absurd rfl hdrop

/-- A step that nobody misses anything by keeps the ledger in order. -/
theorem Logged.step {e : Event} (h : Logged includeHeaders l)
    (hnote : note includeHeaders l e = .ok l') (hdrop : DropFree e) (haud : Audible l.state e) :
    Logged includeHeaders l' := by
  obtain ⟨hm, ⟨req, rfl, rfl⟩ | ⟨i, a, t, t', rfl, ht, ht', hl'⟩⟩ := note_cases hnote
  · exact ⟨h.wired.move hm, h.keyed.arrive req, h.channels.arrive req, h.requests.arrive req⟩
  · rw [hl']
    refine h.turn hm ht ht' ?_ (haud t ht)
    rintro rfl
    exact hdrop

theorem turn_joined_ne {i j : Nat} (h : j ≠ i) (a : Action) (p p' : Phase) (s : State) :
    (l.turn i a p p' s).joined j = l.joined j := by
  simp only [Ledger.turn]
  split
  · exact update_of_ne h _ _
  · rfl

/-- Whoever has found the channel when an outcome is published and not kept is stuck. -/
theorem Logged.strands {i j : Nat} {req : Request} {p : Phase} {a : Action} {ch : Nat} {o : Outcome}
    {w : Task} (h : Logged includeHeaders l) (hm : Move includeHeaders l.state (.act i a) s')
    (ht : l.state.tasks[i]? = some ⟨req, p⟩) (hpub : p.published a = some (ch, o))
    (hon : l.state.heardOn ch ≠ true) (hj : l.state.tasks[j]? = some w)
    (hfound : w.phase = .found ch) : j ≠ i ∧ s'.tasks[j]? = some w ∧ Stuck j ch s' := by
  obtain ⟨hch, -⟩ := Phase.publishes_of_published hpub
  have hne : w ≠ ⟨req, p⟩ := by
    rintro rfl
    rw [show p = .found ch from hfound] at hch
    cases hch
  have hji : j ≠ i := by
    rintro rfl
    rw [ht] at hj
    exact hne (Option.some.inj hj).symm
  obtain ⟨p', rfl, -⟩ := hm.of_published ht hpub
  have hsend : l.state.send ch o = l.state := by simp [State.send, hon]
  have hj' : ((l.state.send ch o).become i req p').tasks[j]? = some w := by
    rw [hsend]
    exact getElem?_become_other ht hj hne
  refine ⟨hji, hj', w, hj', .inr ⟨by rw [hfound]; rfl, ?_⟩⟩
  rw [hsend]
  exact (h.wired.led i _ ch ht hch).2

/-- In a step that leaves no waiter behind, what is published is heard. -/
theorem Logged.audible {e : Event} (h : Logged includeHeaders l)
    (hnote : note includeHeaders l e = .ok l') (hsingle : SingleFlight includeHeaders l') :
    Audible l.state e := by
  obtain ⟨hm, ⟨req, rfl, -⟩ | ⟨i, a, t, t', rfl, ht, -, hl'⟩⟩ := note_cases hnote
  · trivial
  · intro t₁ ht₁
    rw [ht] at ht₁
    cases ht₁
    obtain ⟨req, p⟩ := t
    cases hpub : p.published a with
    | none => trivial
    | some publication =>
      obtain ⟨ch, o⟩ := publication
      by_cases hon : l.state.heardOn ch = true
      · exact .inl hon
      · refine .inr fun w hmem hfound => ?_
        obtain ⟨j, hj⟩ := List.mem_iff_getElem?.mp hmem
        obtain ⟨hji, hj', hstuck⟩ := h.strands hm ht hpub hon hj hfound
        have hsent : l'.sent ch = some o := by
          rw [hl']
          simp only [Ledger.turn, hpub]
          exact update_self _ _ _
        have hjoined : l'.joined j = some ch := by
          rw [hl', turn_joined_ne hji]
          exact h.requests.waiting j w ch hj (by rw [hfound]; rfl)
        obtain ⟨-, w', hw', hstands⟩ := hsingle.waiters j ch hjoined
        rw [hj'] at hw'
        cases hw'
        obtain ⟨o', -, hret⟩ | ⟨-, hreach⟩ := hstands
        · rw [hfound] at hret
          exact returned_ne (p := .found ch) (by simp) (by simp) _ _ hret
        · obtain ⟨p₁, hp₁, hreach⟩ := hreach o hsent
          exact hstuck.not_reaches hp₁ hreach

/-- **When it is single flight.** In a run without drops, at every moment there is one
execution a key at most, every request that gives up its key gives up its own, and whoever
found a leader gets what that leader publishes and never runs the handler, exactly when
every outcome is published while somebody listens or nobody is about to. -/
theorem single_flight_iff (includeHeaders : List String) (tr : List (Event × Ledger))
    (hrun : Along (fun l e l' => note includeHeaders l e = .ok l' ∧ DropFree e) .empty tr) :
    (∀ l ∈ visited .empty tr, SingleFlight includeHeaders l) ↔
      Along (fun l e _ => Audible l.state e) .empty tr :=
  Along.forall_visited_iff (I := Logged includeHeaders)
    (fun _ _ _ h hq haud => h.step hq.1 hq.2 haud)
    (fun _ _ _ h hq hsingle => h.audible hq.1 hsingle)
    (fun _ h => h.singleFlight) logged_empty hrun

/-- A handler fails while one request has subscribed and one has just found the key; a
third comes for the same key after it is free again. -/
def sharedFailure : List Event :=
  [.arrive getA, .arrive getA, .arrive getA, .act 0 .claim, .act 1 .claim, .act 2 .claim,
    .act 1 .subscribe, .act 1 .look, .act 0 (.handlerReturns (.error "down") true), .act 0 .remove,
    .arrive getA, .act 3 .claim, .act 0 .finish, .act 2 .subscribe, .act 2 .look, .act 1 .changed,
    .act 1 .look]

theorem single_flight_iff_shared_failure :
    let tr := replay (note []) .empty sharedFailure
    tr.length = 17 ∧ ∀ l ∈ visited .empty tr, SingleFlight [] l := by
  intro tr
  refine ⟨by decide +kernel, (single_flight_iff [] tr ?_).mpr (by decide +kernel)⟩
  exact (along_replay_labels (note []) (P := DropFree) _ sharedFailure (by decide +kernel)).imp
    fun _ _ _ h => ⟨h.2, h.1⟩

/-- The handler fails after a request has found the key and before it subscribes. The
request waits for good. -/
def missedFailure : List Event :=
  [.arrive getA, .arrive getA, .act 0 .claim, .act 1 .claim,
    .act 0 (.handlerReturns (.error "down") false), .act 0 .finish, .act 1 .subscribe, .act 1 .look]

theorem missed_failure_strands_waiter :
    ¬ ∀ tr, Along (fun l e l' => note [] l e = .ok l' ∧ DropFree e) .empty tr →
      ∀ l ∈ visited .empty tr, SingleFlight [] l := by
  intro h
  have hrun := (along_replay_labels (note []) (P := DropFree) .empty missedFailure
    (by decide +kernel)).imp fun _ _ _ h => And.symm h
  have hsingle := h _ hrun _ (final_mem_visited _ _ missedFailure)
  have htasks : (final (note []) .empty missedFailure).state.tasks =
      [⟨getA, .failed "down"⟩, ⟨getA, .parked 0 0⟩] := by decide +kernel
  have hvalue : ((final (note []) .empty missedFailure).state.channels 0).value = .pending := by
    decide +kernel
  have hjoined : (final (note []) .empty missedFailure).joined 1 = some 0 := by decide +kernel
  have hsent : (final (note []) .empty missedFailure).sent 0 = some (.err "down") := by
    decide +kernel
  have htask : (final (note []) .empty missedFailure).state.tasks[1]? =
      some ⟨getA, .parked 0 0⟩ := by
    rw [htasks]
    rfl
  have hstuck : Stuck 1 0 (final (note []) .empty missedFailure).state :=
    ⟨_, htask, .inr ⟨rfl, hvalue⟩⟩
  obtain ⟨-, t, ht, hstands⟩ := hsingle.waiters 1 0 hjoined
  rw [htask] at ht
  cases ht
  obtain ⟨o, -, hret⟩ | ⟨-, hreach⟩ := hstands
  · exact returned_ne (p := .parked 0 0) (by simp) (by simp) _ _ hret
  · obtain ⟨p, hp, hreach⟩ := hreach _ hsent
    exact hstuck.not_reaches hp hreach

end JustApi.Core.CoalesceFlights
