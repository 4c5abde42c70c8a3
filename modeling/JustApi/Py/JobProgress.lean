import JustApi.Py.PythonJobs

/-! # Every call is answered

Each step of a worker, and each step of a call that waits, uses up some of the work that is
left. As long as a call is not over, one of them can be taken: a full channel is one whose
worker has something to do. -/
namespace JustApi.Py.GilPool
open JustApi.Lib.Run JustApi.Lib.Channels JustApi.Lib.Tables

variable {V : Type} {setup : Setup} {w w' : World V} {event : Event V}

/-- No call is made and no process is started. -/
def Event.Working : Event V → Prop
  | .send _ | .drop _ | .take _ | .finish _ _ => True
  | .init | .call | .fork _ => False

instance (event : Event V) : Decidable event.Working :=
  match event with
  | .send _ | .drop _ | .take _ | .finish _ _ => .isTrue trivial
  | .init | .call | .fork _ => .isFalse id

/-- The steps that bring an answer nearer. -/
def Event.Forward : Event V → Prop
  | .send _ | .take _ | .finish _ _ => True
  | .init | .call | .drop _ | .fork _ => False

def Phase.Over : Phase V → Prop
  | .returned _ | .dropped => True
  | .sending | .waiting => False

/-! ## The work that is left -/

/-- A job that is sent goes through the channel and the worker and then to the call. -/
def Phase.left : Phase V → Nat
  | .sending => 4
  | .waiting => 1
  | .returned _ | .dropped => 0

def Worker.load (worker : Worker) : Nat :=
  2 * worker.channel.queue.length + worker.running.toList.length

def World.work (w : World V) : Nat :=
  (w.callers.map fun c => c.phase.left).sum +
    (w.pool.map fun p => (p.workers.map Worker.load).sum).getD 0

theorem Caller.left_answer (resp : V) (c : Caller V) :
    (c.answer resp).phase.left ≤ c.phase.left := by
  unfold Caller.answer
  split
  · exact Nat.zero_le _
  · exact Nat.le_refl _

theorem sum_answer (callers : List (Caller V)) (i : Nat) (resp : V) :
    ((callers.modify i (Caller.answer resp)).map fun c => c.phase.left).sum ≤
      (callers.map fun c => c.phase.left).sum := by
  cases hi : callers[i]? with
  | none => rw [List.modify_eq_set_getElem?, hi]; exact Nat.le_refl _
  | some c =>
    have := sum_map_modify (f := fun c : Caller V => c.phase.left) (g := Caller.answer resp) hi
    have := Caller.left_answer resp c
    omega

/-- A step of the calls and the workers uses up some work. -/
theorem Move.work_lt (hmove : Move setup w event w') (hworking : event.Working) :
    w'.work < w.work := by
  cases hmove with
  | init | call | fork => exact hworking.elim
  | @send i k p worker hi hp hk hroom =>
    have hcalls := sum_map_modify (f := fun c : Caller V => c.phase.left)
      (g := fun c => { c with phase := .waiting }) hi
    have hworkers := sum_map_set (f := Worker.load)
      (a := { worker with channel := worker.channel.send i }) hk
    have hsent : Worker.load { worker with channel := worker.channel.send i } =
        worker.load + 2 := by
      simp [Worker.load]
      omega
    have hfour : (Phase.sending : Phase V).left = 4 := rfl
    have hone : (Phase.waiting : Phase V).left = 1 := rfl
    simp only [World.work, World.setPhase, Pool.setWorker, hp, Option.map_some, Option.getD_some]
    dsimp only at hcalls
    omega
  | @drop i c hi hphase =>
    have hcalls := sum_map_modify (f := fun c : Caller V => c.phase.left)
      (g := fun c => { c with phase := .dropped }) hi
    have hpos : 0 < c.phase.left := by
      rcases hphase with h | h <;> simp [h, Phase.left]
    have hzero : (Phase.dropped : Phase V).left = 0 := rfl
    dsimp only [World.work, World.setPhase] at hcalls ⊢
    omega
  | @take k i p channel channel' hp hhome hk hrecv =>
    have hworkers := sum_map_set (f := Worker.load) (a := ⟨channel', some i⟩) hk
    have hqueue := (Channel.recv?_eq_some hrecv).1
    simp only [World.work, Pool.setWorker, hp, Option.map_some, Option.getD_some]
    simp [Worker.load, hqueue] at hworkers ⊢
    omega
  | @finish k i p channel resp hp hhome hk =>
    have hworkers := sum_map_set (f := Worker.load) (a := ⟨channel, none⟩) hk
    have hcalls := sum_answer w.callers i resp
    simp only [World.work, Pool.setWorker, hp, Option.map_some, Option.getD_some]
    simp [Worker.load] at hworkers ⊢
    omega

/-! ## A step that can be taken -/

section Enabled

variable [Inhabited V] {p : Pool} {callers : List (Caller V)} {ran : List (Nat × Nat × V)}
  {k : Nat} {worker : Worker}

/-- A worker with something to do. -/
theorem exists_forward_of_busy (hp : w.pool = some p) (hhome : p.home = w.pid)
    (hk : p.workers[k]? = some worker)
    (hbusy : worker.running ≠ none ∨ worker.channel.queue ≠ []) :
    ∃ event w', event.Forward ∧ Step setup w event w' := by
  have hrunning : w.running = some p := Option.filter_eq_some_iff.mpr ⟨hp, by simp [hhome]⟩
  obtain ⟨channel, running⟩ := worker
  cases running with
  | some i =>
    obtain ⟨w', hstep⟩ : ∃ w', Step setup w (.finish k default) w' := by
      simp [Step, exec, hrunning, hk]
    exact ⟨.finish k default, w', trivial, hstep⟩
  | none =>
    cases hrecv : channel.recv? with
    | none =>
      have hnil : channel.queue = [] := Channel.recv?_eq_none.mp hrecv
      simp [hnil] at hbusy
    | some answer =>
      obtain ⟨i, channel'⟩ := answer
      obtain ⟨w', hstep⟩ : ∃ w', Step setup w (.take k) w' := by
        simp [Step, exec, hrunning, hk, hrecv]
      exact ⟨.take k, w', trivial, hstep⟩

theorem Pool.capacity_pos (p : Pool) : 0 < p.capacity :=
  Nat.mul_pos (Nat.lt_of_lt_of_le Nat.one_pos (Nat.le_max_right _ _)) (by decide)

/-- As long as a call is not over, a step brings an answer nearer. -/
theorem Serving.exists_forward (h : Serving setup w.callers w.ran p) (hp : w.pool = some p)
    (hhome : p.home = w.pid) {i : Nat} {c : Caller V} (hc : w.callers[i]? = some c)
    (hover : ¬ c.phase.Over) : ∃ event w', event.Forward ∧ Step setup w event w' := by
  have hplaced := h.callers i c hc
  obtain ⟨k, phase⟩ := c
  cases phase with
  | returned | dropped => exact absurd trivial hover
  | waiting =>
    obtain ⟨hran, worker, hk, hi⟩ := hplaced.waiting rfl
    refine exists_forward_of_busy hp hhome hk ?_
    have hstaffed := h.workers k worker hk
    rcases Channel.mem_entered.mp hi with hleft | hqueue
    · left
      rw [hstaffed.left] at hleft
      rcases List.mem_append.mp hleft with hmem | hmem
      · exact absurd hmem hran
      · intro hnone
        simp [hnone] at hmem
    · exact .inr (List.ne_nil_of_mem hqueue)
  | sending =>
    obtain ⟨worker, hk⟩ : ∃ worker, p.workers[k]? = some worker :=
      ⟨_, List.getElem?_eq_getElem hplaced.worker⟩
    by_cases hroom : worker.channel.queue.length < p.capacity
    · obtain ⟨w', hstep⟩ : ∃ w', Step setup w (.send i) w' := by
        simp [Step, exec, hc, hp, hk, hroom]
      exact ⟨.send i, w', trivial, hstep⟩
    · -- the worker of a full channel is busy
      refine exists_forward_of_busy hp hhome hk (.inr fun hnil => hroom ?_)
      simpa [hnil] using p.capacity_pos

end Enabled

end JustApi.Py.GilPool
