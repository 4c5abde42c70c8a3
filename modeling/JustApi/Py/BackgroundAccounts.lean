import JustApi.Py.Background

/-! # The accounts of the background runner

Every counter differs from what it is to count by the threads that are between two of
their steps. The counter of active tasks falls below zero when workers get ahead of the
calls whose tasks they take. -/
namespace JustApi.Py.Background

open Lib.Run

namespace EnqueuePhase

/-- The lock is held. -/
def locks : EnqueuePhase → Bool
  | .pushing => true
  | _ => false

/-- The task has been pushed, and is not yet counted as submitted. -/
def unsubmitted : EnqueuePhase → Bool
  | .pushing | .pushed => true
  | _ => false

/-- The task has been pushed, and is not yet counted as active. -/
def late : EnqueuePhase → Bool
  | .pushing | .pushed | .submitted => true
  | _ => false

end EnqueuePhase

namespace WorkerPhase

/-- The lock is held. -/
def locks : WorkerPhase → Bool
  | .popping => true
  | _ => false

/-- A task is out of the queue, and not yet counted as completed or failed. -/
def unended : WorkerPhase → Bool
  | .popping | .running | .awaiting => true
  | _ => false

/-- A task is out of the queue, and not yet taken off the active ones. -/
def holds : WorkerPhase → Bool
  | .popping | .running | .awaiting | .counted => true
  | _ => false

end WorkerPhase

theorem countP_set {α : Type} {l : List α} {i : Nat} {a : α} (h : l[i]? = some a) (p : α → Bool)
    (b : α) : (l.set i b).countP p + (p a).toNat = l.countP p + (p b).toNat := by
  obtain ⟨hlt, rfl⟩ := List.getElem?_eq_some_iff.mp h
  have hmem : p l[i] = true → 0 < l.countP p :=
    fun hp => List.countP_pos_iff.mpr ⟨_, List.getElem_mem hlt, hp⟩
  rw [List.countP_set hlt]
  cases hp : p l[i] with
  | true =>
    have := hmem hp
    cases p b <;> simp <;> omega
  | false => cases p b <;> simp

namespace Runner

variable {r u : Runner} {i : Nat}

/-- The calls between their push and the counter of active tasks. -/
def late (r : Runner) : Nat := r.calls.countP EnqueuePhase.late

/-- The workers that have taken a task and not taken it off the counter of active ones. -/
def held (r : Runner) : Nat := r.workers.countP WorkerPhase.holds

/-- What the counters count, with the steps that threads have still to take. -/
structure Balanced (r : Runner) : Prop where
  active : r.active + r.late = (r.queue.length + r.held : Nat)
  submitted : r.submitted + r.calls.countP EnqueuePhase.unsubmitted =
    r.queue.length + r.workers.countP WorkerPhase.unended + r.completed + r.failed
  size : r.size + r.calls.countP EnqueuePhase.locks =
    r.queue.length + r.workers.countP WorkerPhase.locks
  lock : r.calls.countP EnqueuePhase.locks + r.workers.countP WorkerPhase.locks =
    r.locked.toNat

theorem step_enqueue :
    r.Step (.enqueue i) u ↔
      ∃ phase, r.calls[i]? = some phase ∧ r.enqueue i phase = some u :=
  Option.bind_eq_some_iff

theorem step_work {result : CallResult} :
    r.Step (.work i result) u ↔
      ∃ phase, r.workers[i]? = some phase ∧ r.work i result phase = some u :=
  Option.bind_eq_some_iff

theorem step_joined :
    r.Step .joined u ↔ (r.shutdown = true ∧ ∀ phase ∈ r.workers, phase = .exited) ∧
      u = { r with returned := r.returned.or (some r.submitted) } := by
  unfold Step step
  rw [Option.ite_none_right_eq_some, Option.some_inj, @eq_comm _ u]

namespace Balanced

theorem new (maxTotal workers : Nat) : (new maxTotal workers).Balanced := by
  constructor <;> simp [Runner.new, late, held, List.countP_replicate, WorkerPhase.holds,
    WorkerPhase.unended, WorkerPhase.locks]

theorem call (h : r.Balanced) : { r with calls := r.calls ++ [EnqueuePhase.started] }.Balanced := by
  obtain ⟨hactive, hsubmitted, hsize, hlock⟩ := h
  constructor <;> simpa [late, held, EnqueuePhase.late, EnqueuePhase.unsubmitted,
    EnqueuePhase.locks] using ‹_›

/-- A call goes from one phase to the next. -/
theorem moveCall {a b : EnqueuePhase} (h : r.Balanced) (hphase : r.calls[i]? = some a)
    (hcalls : u.calls = r.calls.set i b) (hworkers : u.workers = r.workers)
    (hactive : u.active + b.late.toNat + r.queue.length =
      r.active + a.late.toNat + u.queue.length)
    (hsubmitted : u.submitted + b.unsubmitted.toNat + (r.queue.length + r.completed + r.failed) =
      r.submitted + a.unsubmitted.toNat + (u.queue.length + u.completed + u.failed))
    (hsize : u.size + b.locks.toNat + r.queue.length =
      r.size + a.locks.toNat + u.queue.length)
    (hlock : r.locked.toNat + b.locks.toNat = u.locked.toNat + a.locks.toNat) : u.Balanced := by
  have hlate := countP_set hphase EnqueuePhase.late b
  have hunsubmitted := countP_set hphase EnqueuePhase.unsubmitted b
  have hlocks := countP_set hphase EnqueuePhase.locks b
  obtain ⟨hactive', hsubmitted', hsize', hlock'⟩ := h
  rw [← hcalls] at hlate hunsubmitted hlocks
  rw [held, ← hworkers, late] at hactive'
  rw [← hworkers] at hsubmitted' hsize' hlock'
  refine ⟨?_, by omega, by omega, by omega⟩
  rw [held, late]
  omega

/-- A worker goes from one phase to the next. -/
theorem moveWorker {a b : WorkerPhase} (h : r.Balanced) (hphase : r.workers[i]? = some a)
    (hworkers : u.workers = r.workers.set i b) (hcalls : u.calls = r.calls)
    (hactive : u.active + (r.queue.length + a.holds.toNat : Nat) =
      r.active + (u.queue.length + b.holds.toNat : Nat))
    (hsubmitted : u.submitted + (r.queue.length + a.unended.toNat + r.completed + r.failed) =
      r.submitted + (u.queue.length + b.unended.toNat + u.completed + u.failed))
    (hsize : u.size + r.queue.length + a.locks.toNat = r.size + u.queue.length + b.locks.toNat)
    (hlock : r.locked.toNat + b.locks.toNat = u.locked.toNat + a.locks.toNat) : u.Balanced := by
  have hholds := countP_set hphase WorkerPhase.holds b
  have hunended := countP_set hphase WorkerPhase.unended b
  have hlocks := countP_set hphase WorkerPhase.locks b
  obtain ⟨hactive', hsubmitted', hsize', hlock'⟩ := h
  rw [← hworkers] at hholds hunended hlocks
  rw [held, late, ← hcalls] at hactive'
  rw [← hcalls] at hsubmitted' hsize' hlock'
  refine ⟨?_, by omega, by omega, by omega⟩
  rw [held, late]
  omega

theorem locked_of_call {phase : EnqueuePhase} (h : r.Balanced) (hphase : r.calls[i]? = some phase)
    (hlocks : phase.locks = true) : r.locked = true := by
  have hpos := List.countP_pos_iff.mpr ⟨phase, List.mem_of_getElem? hphase, hlocks⟩
  have hlock := h.lock
  cases hl : r.locked with
  | true => rfl
  | false =>
    rw [hl, Bool.toNat_false] at hlock
    omega

/-- A worker that takes a task out of the queue has the lock, so the size counts the task. -/
theorem locked_of_worker {phase : WorkerPhase} (h : r.Balanced)
    (hphase : r.workers[i]? = some phase) (hlocks : phase.locks = true) :
    r.locked = true ∧ 0 < r.size := by
  have hpos := List.countP_pos_iff.mpr ⟨phase, List.mem_of_getElem? hphase, hlocks⟩
  have hlock := h.lock
  have hsize := h.size
  have hle := Bool.toNat_le r.locked
  refine ⟨?_, by omega⟩
  cases hl : r.locked with
  | true => rfl
  | false =>
    rw [hl, Bool.toNat_false] at hlock
    omega

theorem enqueue {phase : EnqueuePhase} (h : r.Balanced) (hphase : r.calls[i]? = some phase)
    (hu : r.enqueue i phase = some u) : u.Balanced := by
  cases phase with
  | started =>
    obtain rfl := Option.some.inj hu
    by_cases hfull : r.maxTotal ≤ r.size
    · rw [if_pos hfull]
      exact h.moveCall hphase rfl rfl rfl rfl rfl rfl
    · rw [if_neg hfull]
      exact h.moveCall hphase rfl rfl rfl rfl rfl rfl
  | refused =>
    obtain rfl := Option.some.inj hu
    exact h.moveCall hphase rfl rfl rfl rfl rfl rfl
  | admitted =>
    obtain ⟨hlocked, hu⟩ := Option.ite_none_left_eq_some.mp hu
    obtain rfl := Option.some.inj hu
    rw [Bool.not_eq_true] at hlocked
    refine h.moveCall hphase rfl rfl ?_ ?_ ?_ (by rw [hlocked]; rfl)
    · change r.active + 1 + (r.queue.length : Int) = r.active + 0 + (r.queue ++ [i]).length
      rw [List.length_append, List.length_singleton]
      omega
    · change r.submitted + 1 + (r.queue.length + r.completed + r.failed) =
        r.submitted + 0 + ((r.queue ++ [i]).length + r.completed + r.failed)
      rw [List.length_append, List.length_singleton]
      omega
    · change r.size + 1 + r.queue.length = r.size + 0 + (r.queue ++ [i]).length
      rw [List.length_append, List.length_singleton]
      omega
  | pushing =>
    obtain rfl := Option.some.inj hu
    exact h.moveCall hphase rfl rfl rfl rfl rfl (by rw [h.locked_of_call hphase rfl]; rfl)
  | pushed =>
    obtain rfl := Option.some.inj hu
    exact h.moveCall hphase rfl rfl rfl rfl rfl rfl
  | submitted =>
    obtain rfl := Option.some.inj hu
    refine h.moveCall hphase rfl rfl ?_ rfl rfl rfl
    change r.active + 1 + 0 + (r.queue.length : Int) = r.active + 1 + r.queue.length
    omega
  | finished => cases hu

theorem complete {a : WorkerPhase} (h : r.Balanced) (hphase : r.workers[i]? = some a)
    (ha : a = .running ∨ a = .awaiting) :
    { r.setWorker i .counted with completed := r.completed + 1 }.Balanced := by
  have hended : r.submitted + (r.queue.length + 1 + r.completed + r.failed) =
      r.submitted + (r.queue.length + 0 + (r.completed + 1) + r.failed) := by omega
  rcases ha with rfl | rfl <;> exact h.moveWorker hphase rfl rfl rfl hended rfl rfl

theorem fail {a : WorkerPhase} (h : r.Balanced) (hphase : r.workers[i]? = some a)
    (ha : a = .running ∨ a = .awaiting) :
    { r.setWorker i .counted with failed := r.failed + 1 }.Balanced := by
  have hended : r.submitted + (r.queue.length + 1 + r.completed + r.failed) =
      r.submitted + (r.queue.length + 0 + r.completed + (r.failed + 1)) := by omega
  rcases ha with rfl | rfl <;> exact h.moveWorker hphase rfl rfl rfl hended rfl rfl

theorem work {phase : WorkerPhase} {result : CallResult} (h : r.Balanced)
    (hphase : r.workers[i]? = some phase) (hu : r.work i result phase = some u) : u.Balanced := by
  cases phase with
  | idle =>
    obtain ⟨hlocked, hu⟩ := Option.ite_none_left_eq_some.mp hu
    rw [Bool.not_eq_true] at hlocked
    split at hu
    · rename_i task queue hqueue
      obtain rfl := Option.some.inj hu
      refine h.moveWorker hphase rfl rfl ?_ ?_ ?_ (by rw [hlocked]; rfl)
      · rw [hqueue]
        rfl
      · rw [hqueue]
        change r.submitted + ((task :: queue).length + 0 + r.completed + r.failed) =
          r.submitted + (queue.length + 1 + r.completed + r.failed)
        rw [List.length_cons]
      · rw [hqueue]
        change r.size + (task :: queue).length + 0 = r.size + queue.length + 1
        rw [List.length_cons]
        rfl
    · obtain ⟨-, hu⟩ := Option.ite_none_right_eq_some.mp hu
      obtain rfl := Option.some.inj hu
      exact h.moveWorker hphase rfl rfl rfl rfl rfl rfl
  | popping =>
    obtain rfl := Option.some.inj hu
    obtain ⟨hlocked, hsize⟩ := h.locked_of_worker hphase rfl
    refine h.moveWorker hphase rfl rfl rfl rfl ?_ (by rw [hlocked]; rfl)
    change r.size - 1 + r.queue.length + 1 = r.size + r.queue.length + 0
    omega
  | running =>
    cases result with
    | coroutine =>
      obtain rfl := Option.some.inj hu
      exact h.moveWorker hphase rfl rfl rfl rfl rfl rfl
    | value =>
      obtain rfl := Option.some.inj hu
      exact h.complete hphase (.inl rfl)
    | error =>
      obtain rfl := Option.some.inj hu
      exact h.fail hphase (.inl rfl)
  | awaiting =>
    cases result with
    | value | coroutine =>
      obtain rfl := Option.some.inj hu
      exact h.complete hphase (.inr rfl)
    | error =>
      obtain rfl := Option.some.inj hu
      exact h.fail hphase (.inr rfl)
  | counted =>
    obtain rfl := Option.some.inj hu
    refine h.moveWorker hphase rfl rfl ?_ rfl rfl rfl
    change r.active - 1 + (r.queue.length + 1 : Nat) = r.active + (r.queue.length + 0 : Nat)
    omega
  | exited => cases hu

theorem step {e : Event} (h : r.Balanced) (hstep : r.Step e u) : u.Balanced := by
  cases e with
  | call =>
    cases hstep
    exact h.call
  | enqueue i =>
    obtain ⟨phase, hphase, hu⟩ := step_enqueue.mp hstep
    exact h.enqueue hphase hu
  | work i result =>
    obtain ⟨phase, hphase, hu⟩ := step_work.mp hstep
    exact h.work hphase hu
  | shutdown =>
    cases hstep
    exact ⟨h.active, h.submitted, h.size, h.lock⟩
  | joined =>
    obtain ⟨-, rfl⟩ := step_joined.mp hstep
    exact ⟨h.active, h.submitted, h.size, h.lock⟩

end Balanced

/-! ## Exact accounts -/

/-- No call of `enqueue` is in progress, and no worker between its two counters. -/
def Quiet (r : Runner) : Prop :=
  (∀ phase ∈ r.calls, phase = .finished) ∧ ∀ phase ∈ r.workers, phase ≠ .counted

/-- The queue is within its bound, the counter of active tasks has not fallen below zero, in
quiet the counters agree, and once a `shutdown` that waits has returned no task is accepted
or left. -/
structure Exact (r : Runner) : Prop where
  bounded : r.queue.length ≤ r.maxTotal
  active_nonneg : 0 ≤ r.active
  quiet : r.Quiet → r.submitted = r.active + r.completed + r.failed
  drained : ∀ n, r.returned = some n → r.queue = [] ∧ r.submitted = n

/-- What keeps the accounts exact: the room that was found is still there when a task is
pushed, and no `shutdown` has returned by then or when the task is counted; a worker takes
a task off the active ones while fewer calls are late than tasks are queued or held; and a
`shutdown` returns to an empty queue. -/
def Orderly (r : Runner) : Event → Prop
  | .enqueue i =>
    (r.calls[i]? = some .admitted → r.queue.length < r.maxTotal ∧ r.returned = none) ∧
      (r.calls[i]? = some .pushed → r.returned = none)
  | .work i _ => r.workers[i]? = some .counted → r.late < r.queue.length + r.held
  | .joined => r.queue = []
  | _ => True

instance (r : Runner) : ∀ e, Decidable (r.Orderly e)
  | .enqueue i => inferInstanceAs (Decidable
    ((r.calls[i]? = some .admitted → r.queue.length < r.maxTotal ∧ r.returned = none) ∧
      (r.calls[i]? = some .pushed → r.returned = none)))
  | .work i _ => inferInstanceAs (Decidable
    (r.workers[i]? = some .counted → r.late < r.queue.length + r.held))
  | .joined => inferInstanceAs (Decidable (r.queue = []))
  | .call | .shutdown => .isTrue trivial

theorem Balanced.quiet (h : r.Balanced) (hquiet : r.Quiet) :
    (r.submitted : Int) = r.active + r.completed + r.failed := by
  have hlate : r.late = 0 := List.countP_eq_zero.mpr fun phase hphase => by
    rw [hquiet.1 phase hphase]; exact Bool.false_ne_true
  have hunsubmitted : r.calls.countP EnqueuePhase.unsubmitted = 0 :=
    List.countP_eq_zero.mpr fun phase hphase => by
      rw [hquiet.1 phase hphase]; exact Bool.false_ne_true
  have hheld : r.held = r.workers.countP WorkerPhase.unended := by
    refine List.countP_congr fun phase hphase => ?_
    have := hquiet.2 phase hphase
    cases phase <;> first | exact Iff.rfl | contradiction
  have hactive := h.active
  have hsubmitted := h.submitted
  omega

/-- In quiet the counters agree whatever has happened. -/
theorem Balanced.exact_iff (h : r.Balanced) :
    r.Exact ↔ r.queue.length ≤ r.maxTotal ∧ 0 ≤ r.active ∧
      ∀ n, r.returned = some n → r.queue = [] ∧ r.submitted = n :=
  ⟨fun ⟨hbounded, hactive, _, hdrained⟩ => ⟨hbounded, hactive, hdrained⟩,
    fun ⟨hbounded, hactive, hdrained⟩ => ⟨hbounded, hactive, h.quiet, hdrained⟩⟩

/-! ## Steps -/

namespace Exact

/-- A step that touches neither the queue nor what was submitted. -/
theorem same (h : r.Exact) (hu : u.Balanced) (hmax : u.maxTotal = r.maxTotal)
    (hqueue : u.queue = r.queue) (hactive : r.active ≤ u.active)
    (hsubmitted : u.submitted = r.submitted) (hreturned : u.returned = r.returned) : u.Exact := by
  refine hu.exact_iff.mpr ⟨?_, Int.le_trans h.active_nonneg hactive, ?_⟩
  · rw [hmax, hqueue]
    exact h.bounded
  · rw [hqueue, hsubmitted, hreturned]
    exact h.drained

theorem enqueue_iff {phase : EnqueuePhase} (h : r.Exact) (hbalanced : r.Balanced)
    (hphase : r.calls[i]? = some phase) (hu : r.enqueue i phase = some u) :
    u.Exact ↔ r.Orderly (.enqueue i) := by
  have hubalanced := hbalanced.enqueue hphase hu
  unfold Orderly
  simp only [hphase, Option.some.injEq]
  cases phase with
  | started | refused | pushing =>
    obtain rfl := Option.some.inj hu
    exact iff_of_true (h.same hubalanced rfl rfl (Int.le_refl _) rfl rfl)
      ⟨fun h => (nomatch h), fun h => (nomatch h)⟩
  | submitted =>
    obtain rfl := Option.some.inj hu
    refine iff_of_true (h.same hubalanced rfl rfl ?_ rfl rfl)
      ⟨fun h => (nomatch h), fun h => (nomatch h)⟩
    change r.active ≤ r.active + 1
    omega
  | admitted =>
    obtain ⟨-, hu⟩ := Option.ite_none_left_eq_some.mp hu
    obtain rfl := Option.some.inj hu
    rw [hubalanced.exact_iff]
    change (r.queue ++ [i]).length ≤ r.maxTotal ∧ 0 ≤ r.active ∧
      (∀ n, r.returned = some n → r.queue ++ [i] = [] ∧ r.submitted = n) ↔ _
    rw [List.length_append, List.length_singleton]
    constructor
    · intro h
      obtain ⟨hroom, -, hdrained⟩ := h
      refine ⟨fun _ => ⟨hroom, Option.eq_none_iff_forall_ne_some.mpr fun n hn => ?_⟩,
        fun h => nomatch h⟩
      exact List.append_ne_nil_of_right_ne_nil _ (List.cons_ne_nil i []) (hdrained n hn).1
    · intro h
      obtain ⟨horderly, -⟩ := h
      obtain ⟨hroom, hreturned⟩ := horderly rfl
      exact ⟨hroom, h.active_nonneg, fun n hn => nomatch hreturned.symm.trans hn⟩
  | pushed =>
    obtain rfl := Option.some.inj hu
    rw [hubalanced.exact_iff]
    change r.queue.length ≤ r.maxTotal ∧ 0 ≤ r.active ∧
      (∀ n, r.returned = some n → r.queue = [] ∧ r.submitted + 1 = n) ↔ _
    constructor
    · intro h
      obtain ⟨-, -, hdrained⟩ := h
      refine ⟨fun h => (nomatch h), fun _ => Option.eq_none_iff_forall_ne_some.mpr fun n hn => ?_⟩
      have hbefore := (h.drained n hn).2
      have hafter := (hdrained n hn).2
      omega
    · intro h
      obtain ⟨-, horderly⟩ := h
      exact ⟨h.bounded, h.active_nonneg, fun n hn => nomatch (horderly rfl).symm.trans hn⟩
  | finished => cases hu

theorem work_iff {phase : WorkerPhase} {result : CallResult} (h : r.Exact)
    (hbalanced : r.Balanced) (hphase : r.workers[i]? = some phase)
    (hu : r.work i result phase = some u) : u.Exact ↔ r.Orderly (.work i result) := by
  have hubalanced := hbalanced.work hphase hu
  unfold Orderly
  simp only [hphase, Option.some.injEq]
  cases phase with
  | idle =>
    obtain ⟨-, hu⟩ := Option.ite_none_left_eq_some.mp hu
    refine iff_of_true ?_ fun h => nomatch h
    split at hu
    · rename_i task queue hqueue
      obtain rfl := Option.some.inj hu
      have hbounded := h.bounded
      rw [hqueue, List.length_cons] at hbounded
      refine hubalanced.exact_iff.mpr ⟨Nat.le_of_succ_le hbounded, h.active_nonneg, fun n hn => ?_⟩
      have hempty := (h.drained n hn).1
      rw [hqueue] at hempty
      cases hempty
    · obtain ⟨-, hu⟩ := Option.ite_none_right_eq_some.mp hu
      obtain rfl := Option.some.inj hu
      exact h.same hubalanced rfl rfl (Int.le_refl _) rfl rfl
  | popping =>
    obtain rfl := Option.some.inj hu
    exact iff_of_true (h.same hubalanced rfl rfl (Int.le_refl _) rfl rfl) fun h => nomatch h
  | running | awaiting =>
    cases result <;> obtain rfl := Option.some.inj hu <;>
      exact iff_of_true (h.same hubalanced rfl rfl (Int.le_refl _) rfl rfl) fun h => nomatch h
  | counted =>
    obtain rfl := Option.some.inj hu
    have hactive := hbalanced.active
    rw [hubalanced.exact_iff]
    change r.queue.length ≤ r.maxTotal ∧ 0 ≤ r.active - 1 ∧
      (∀ n, r.returned = some n → r.queue = [] ∧ r.submitted = n) ↔ _
    constructor
    · rintro ⟨-, hless, -⟩ -
      omega
    · intro hless
      have := hless rfl
      exact ⟨h.bounded, by omega, h.drained⟩
  | exited => cases hu

/-- A step keeps the accounts exact exactly when it is in order. -/
theorem step_iff {e : Event} (h : r.Exact) (hbalanced : r.Balanced) (hstep : r.Step e u) :
    u.Exact ↔ r.Orderly e := by
  have hubalanced := hbalanced.step hstep
  cases e with
  | call =>
    cases hstep
    exact iff_of_true (h.same hubalanced rfl rfl (Int.le_refl _) rfl rfl) trivial
  | enqueue i =>
    obtain ⟨phase, hphase, hu⟩ := step_enqueue.mp hstep
    exact h.enqueue_iff hbalanced hphase hu
  | work i result =>
    obtain ⟨phase, hphase, hu⟩ := step_work.mp hstep
    exact h.work_iff hbalanced hphase hu
  | shutdown =>
    cases hstep
    exact iff_of_true (h.same hubalanced rfl rfl (Int.le_refl _) rfl rfl) trivial
  | joined =>
    obtain ⟨-, rfl⟩ := step_joined.mp hstep
    rw [hubalanced.exact_iff]
    change r.queue.length ≤ r.maxTotal ∧ 0 ≤ r.active ∧
      (∀ n, r.returned.or (some r.submitted) = some n → r.queue = [] ∧ r.submitted = n) ↔ _
    cases hreturned : r.returned with
    | none =>
      constructor
      · exact fun ⟨_, _, hdrained⟩ => (hdrained r.submitted rfl).1
      · exact fun hempty => ⟨h.bounded, h.active_nonneg, fun n hn => ⟨hempty, Option.some.inj hn⟩⟩
    | some n =>
      have hdrained := h.drained n hreturned
      refine iff_of_true ⟨h.bounded, h.active_nonneg, fun m hm => ?_⟩ hdrained.1
      exact ⟨hdrained.1, hdrained.2.trans (Option.some.inj hm)⟩

end Exact

/-! ## Runs -/

theorem exact_new (maxTotal workers : Nat) : (new maxTotal workers).Exact :=
  (Balanced.new maxTotal workers).exact_iff.mpr
    ⟨Nat.zero_le _, Int.le_refl _, fun _ h => nomatch h⟩

/-- The accounts are exact in every state of exactly those runs whose steps are in order. -/
theorem accounts_exact_iff (maxTotal : Nat) (gilEnabled : Bool) (parallelism : Nat)
    (tr : List (Event × Runner))
    (hrun : Along Step (new maxTotal (poolSize gilEnabled parallelism)) tr) :
    (∀ r ∈ visited (new maxTotal (poolSize gilEnabled parallelism)) tr, r.Exact) ↔
      Along (fun r e _ => r.Orderly e) (new maxTotal (poolSize gilEnabled parallelism)) tr := by
  have hkeep : ∀ r e u, Runner.Balanced r ∧ r.Exact → r.Step e u → r.Orderly e →
      u.Balanced ∧ u.Exact :=
    fun r e u ⟨hbalanced, h⟩ hstep horderly =>
      ⟨hbalanced.step hstep, (h.step_iff hbalanced hstep).mpr horderly⟩
  have hneed : ∀ r e u, Runner.Balanced r ∧ r.Exact → r.Step e u → u.Exact → r.Orderly e :=
    fun r e u ⟨hbalanced, h⟩ hstep hu => (h.step_iff hbalanced hstep).mp hu
  exact Along.forall_visited_iff hkeep hneed (fun _ h => h.2)
    ⟨.new maxTotal _, exact_new maxTotal _⟩ hrun

/-- A task is accepted, run and taken off before the workers are joined. -/
def orderlyRun : List Event :=
  .call :: List.replicate 5 (.enqueue 0) ++ List.replicate 4 (.work 0 .value) ++ [.shutdown] ++
    (List.range 5).map (fun worker => .work worker .value) ++ [.joined]

theorem accounts_exact_orderlyRun :
    (final exec (new 1 (poolSize true 1)) orderlyRun).Exact ∧
      (final exec (new 1 (poolSize true 1)) orderlyRun).returned = some 1 :=
  ⟨(accounts_exact_iff 1 true 1 (replay exec (new 1 (poolSize true 1)) orderlyRun)
    (by decide +kernel)).mpr (by decide +kernel) _ (final_mem_visited _ _ _), by decide +kernel⟩

/-- A worker is done with a task before the call that has pushed it counts it. -/
theorem active_below_zero :
    Along Step (new 10 (poolSize true 1)) (replay exec (new 10 (poolSize true 1))
        (.call :: List.replicate 3 (.enqueue 0) ++ List.replicate 4 (.work 0 .value))) ∧
      ¬ ∀ r ∈ visited (new 10 (poolSize true 1)) (replay exec (new 10 (poolSize true 1))
        (.call :: List.replicate 3 (.enqueue 0) ++ List.replicate 4 (.work 0 .value))),
      r.Exact := by
  refine ⟨by decide +kernel, fun h => ?_⟩
  have hlast := (h _ (final_mem_visited exec (new 10 (poolSize true 1))
    (.call :: List.replicate 3 (.enqueue 0) ++ List.replicate 4 (.work 0 .value)))).active_nonneg
  exact absurd hlast (by decide +kernel)

end Runner

end JustApi.Py.Background
