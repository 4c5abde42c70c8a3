import JustApi.Py.WebSocketOrder

/-! # Nothing is left behind

Without new calls the parties come to rest after a bounded number of steps, and then what
could be written has been written and what could be received has been received. -/
namespace JustApi.Py.WebSockets
open JustApi.Lib.Run JustApi.Lib.Channels JustApi.Lib.Tables

variable {w w' : World} {event : Event}

/-- The steps of what has been called already. -/
def Event.Working : Event → Prop
  | .lock _ | .deliver | .cancel _ | .flush _ | .next | .wrote _ | .hangUp | .shut => True
  | .arrive _ | .eof | .accept _ | .receive _ | .send _ | .release => False

instance (event : Event) : Decidable event.Working :=
  match event with
  | .lock _ | .deliver | .cancel _ | .flush _ | .next | .wrote _ | .hangUp | .shut => .isTrue trivial
  | .arrive _ | .eof | .accept _ | .receive _ | .send _ | .release => .isFalse id

/-! ## The work that is left -/

def ReceivePhase.left : ReceivePhase → Nat
  | .called => 2
  | .locking => 1
  | .given _ | .cancelled => 0

def SendPhase.left : SendPhase → Nat
  | .called => 3
  | .done | .refused => 0

def Writer.left : Writer → Nat
  | .writing _ => 3
  | .idle => 2
  | .closing => 1
  | .ended => 0

def World.work (w : World) : Nat :=
  (w.receives.map fun c => c.phase.left).sum + (w.sends.map fun c => c.phase.left).sum +
    2 * w.outgoing.queue.length + w.writer.left

theorem sum_setReceive {i : Nat} {c : ReceiveCall} (hc : w.receives[i]? = some c)
    (phase : ReceivePhase) :
    ((w.setReceive i phase).receives.map fun c => c.phase.left).sum + c.phase.left =
      (w.receives.map fun c => c.phase.left).sum + phase.left :=
  sum_map_modify (f := fun c : ReceiveCall => c.phase.left) hc

theorem sum_setSend {i : Nat} {c : SendCall} (hc : w.sends[i]? = some c) (phase : SendPhase) :
    ((w.setSend i phase).sends.map fun c => c.phase.left).sum + c.phase.left =
      (w.sends.map fun c => c.phase.left).sum + phase.left :=
  sum_map_modify (f := fun c : SendCall => c.phase.left) hc

theorem Move.work_lt (hr : Receives w) (hmove : Move w event w') (hworking : event.Working) :
    w'.work < w.work := by
  cases hmove with
  | arrive | pass | eof | accept | receive | send | release => exact hworking.elim
  | @lock i c hc hphase =>
    have hsum := sum_setReceive hc .locking
    simp only [hphase, ReceivePhase.left] at hsum
    simp only [World.work, World.setReceive, ReceivePhase.left] at hsum ⊢
    omega
  | @deliver i lock given incoming hlock hrecv =>
    have hlocking := (hr.locking i).mp (hlock ▸ List.mem_cons_self)
    obtain ⟨c, hc, hphase⟩ := Option.map_eq_some_iff.mp hlocking
    have hsum := sum_setReceive hc (.given given)
    simp only [hphase, ReceivePhase.left] at hsum
    simp only [World.work, World.setReceive, ReceivePhase.left] at hsum ⊢
    omega
  | @cancel i c hc hphase =>
    have hsum := sum_setReceive hc .cancelled
    rcases hphase with hphase | hphase <;>
    · simp only [hphase, ReceivePhase.left] at hsum
      simp only [World.work, World.setReceive, ReceivePhase.left] at hsum ⊢
      omega
  | @refuse i c hc hphase hended =>
    have hsum := sum_setSend hc (if c.message.isClose then .done else .refused)
    have hzero : (if c.message.isClose then SendPhase.done else .refused).left = 0 := by
      split <;> rfl
    simp only [hphase, hzero] at hsum
    simp only [World.work, World.setSend, SendPhase.left] at hsum ⊢
    omega
  | @flush i c hc hphase hended =>
    have hsum := sum_setSend hc .done
    simp only [hphase, SendPhase.left] at hsum
    simp [World.work, World.setSend, SendPhase.left] at hsum ⊢
    omega
  | @next i outgoing hidle hrecv =>
    have hqueue := (Channel.recv?_eq_some hrecv).1
    simp [World.work, Writer.left, hidle, hqueue]
    omega
  | @wrote i hwriting =>
    simp only [World.work, hwriting]
    split <;> simp [Writer.left]
  | fail hwriting => simp [World.work, Writer.left, hwriting]
  | hangUp hidle => simp [World.work, Writer.left, hidle]
  | shut hclosing => simp [World.work, Writer.left, hclosing]

/-! ## At rest -/

/-- No party can go on by itself. -/
def AtRest (w : World) : Prop :=
  ∀ event w', event.Working → (∀ i, event ≠ .cancel i) → ¬ Step w event w'

/-- What is true of the parties when they are at rest. -/
structure Settled (w : World) : Prop where
  sends : ∀ c ∈ w.sends, c.phase ≠ .called
  receives : ∀ c ∈ w.receives, c.phase ≠ .called ∧
    (c.phase = .locking → w.reading = true ∧ w.incoming.left = w.arrived.filterMap forward)
  writer : w.writer = .idle ∧ w.written = w.outgoing.entered ∧ w.released = false ∨
    w.writer = .ended

theorem AtRest.stuck (h : AtRest w) (event : Event) (hworking : event.Working)
    (hcancel : ∀ i, event ≠ .cancel i) (w' : World) : exec w event ≠ .ok w' :=
  fun hstep => h event w' hworking hcancel hstep

theorem Sound.settled (h : Sound w) (hrest : AtRest w) : Settled w := by
  have hsends : ∀ c ∈ w.sends, c.phase ≠ .called := by
    intro c hc hphase
    obtain ⟨i, hi⟩ := List.mem_iff_getElem?.mp hc
    obtain ⟨message, phase⟩ := c
    obtain rfl : phase = .called := hphase
    have hstuck := hrest.stuck (.flush i) trivial (by simp)
    simp only [exec, hi] at hstuck
    split at hstuck <;> exact hstuck _ rfl
  refine ⟨hsends, fun c hc => ?_, ?_⟩
  · obtain ⟨i, hi⟩ := List.mem_iff_getElem?.mp hc
    constructor
    · intro hphase
      obtain ⟨kind, phase⟩ := c
      obtain rfl : phase = .called := hphase
      have hstuck := hrest.stuck (.lock i) trivial (by simp)
      simp only [exec, hi] at hstuck
      exact hstuck _ rfl
    · intro hphase
      have hlock : i ∈ w.lock := (h.receives.locking i).mpr (by simp [World.receivePhase, hi, hphase])
      have hstuck := hrest.stuck .deliver trivial (by simp)
      have hnone : w.recv? = none := by
        cases hrecv : w.recv? with
        | none => rfl
        | some answer =>
          obtain ⟨j, lock, heq⟩ := List.exists_cons_of_ne_nil (List.ne_nil_of_mem hlock)
          simp only [exec, heq, hrecv] at hstuck
          exact absurd rfl (hstuck _)
      unfold World.recv? at hnone
      split at hnone
      · cases hnone
      · rename_i hempty
        split at hnone
        · rename_i hreading
          refine ⟨hreading, ?_⟩
          rw [← h.reads.entered, Channel.entered_eq_left (Channel.recv?_eq_none.mp hempty)]
        · cases hnone
  · cases hwriter : w.writer with
    | ended => exact .inr rfl
    | closing =>
      have hstuck := hrest.stuck .shut trivial (by simp)
      simp [exec, hwriter] at hstuck
    | writing i =>
      have hstuck := hrest.stuck (.wrote true) trivial (by simp)
      simp [exec, hwriter] at hstuck
    | idle =>
      obtain ⟨taken, hleft, hholds⟩ := h.writes.left
      have hnil : taken = [] := by simpa [hwriter, Writer.Holds] using hholds
      have hstuck := hrest.stuck .next trivial (by simp)
      have hqueue : w.outgoing.queue = [] := by
        cases hrecv : w.outgoing.recv? with
        | none => exact Channel.recv?_eq_none.mp hrecv
        | some answer => simp [exec, hwriter, hrecv] at hstuck
      have hhang := hrest.stuck .hangUp trivial (by simp)
      refine .inl ⟨rfl, ?_, ?_⟩
      · rw [Channel.entered_eq_left hqueue, hleft, hnil, List.append_nil]
      · cases hreleased : w.released with
        | false => rfl
        | true =>
          simp only [exec, hwriter, hqueue, hreleased] at hhang
          rw [if_pos ⟨trivial, trivial, trivial, hsends⟩] at hhang
          exact absurd rfl (hhang _)

/-- From every state that a run comes to: without new calls and new messages the parties take
a bounded number of steps. When they cannot go on, every message sent has been written or
the connection is closed, and a receive waits only if all that has arrived has been received
and more can arrive. -/
theorem connection_settles {tr tr' : List (Event × World)} (hrun : Along Step .new tr)
    (hw : w ∈ visited .new tr)
    (hrun' : Along (fun w event w' => event.Working ∧ Step w event w') w tr') :
    tr'.length ≤ w.work ∧ (AtRest (last w tr') → Settled (last w tr')) := by
  have hsound := sound_of_run hrun w hw
  have hstep : ∀ w event w', Sound w → event.Working ∧ Step w event w' → Sound w' :=
    fun _ _ _ h hs => h.move (exec_move hs.2)
  constructor
  · have hlength := hrun'.length_add_le World.work
      (fun s event t h hs => ⟨hstep s event t h hs, (exec_move hs.2).work_lt h.receives hs.1⟩) hsound
    exact Nat.le_trans (Nat.le_add_right _ _) hlength
  · exact (hrun'.invariant hstep hsound _ (last_mem_visited w tr')).settled

/-- A message sent after the close is still in the channel at the end. -/
theorem connection_settles_echoOnce :
    let w := final exec .new (echoOnce.take 17)
    let rest := replay exec w [.flush 2, .next, .wrote true, .shut]
    rest.length = 4 ∧ rest.length ≤ w.work := by
  intro w rest
  refine ⟨by decide +kernel, (connection_settles (along_replay exec .new (echoOnce.take 17))
    (final_mem_visited _ _ _) ?_).1⟩
  exact along_replay_labels exec (P := Event.Working) w _ (by decide)

end JustApi.Py.WebSockets
