import Mathlib.Algebra.Group.Int.Defs
import Mathlib.Algebra.Group.Nat.Defs
import Mathlib.Data.List.Chain
import JustApi.Lib.Run

/-! # Interval jobs

The scheduler of cron and interval jobs, as far as the times go: `every`, `schedule`,
`remove`, and the ticks of its loop. When a cron schedule is next due is a parameter. -/
namespace JustApi.Py.IntervalJobs
open JustApi.Lib.Run

/-- What `every` accepts. -/
abbrev Seconds := { seconds : UInt64 // seconds ≠ 0 }

def Seconds.millis (iv : Seconds) : Int := iv.1.toNat * 1000

structure Job (Cron : Type) where
  id : UInt64
  cron : Option Cron
  interval : Option Seconds
  lastFireMs : Option Int64
  nextFireMs : Option Int64
  /-- When it was fired, the latest time first. -/
  fires : List Int64
  deriving DecidableEq

structure State (Cron : Type) where
  jobs : List (Job Cron)
  fired : UInt64
  nextId : UInt64
  /-- The time of the last tick. -/
  clock : Option Int64
  deriving DecidableEq

variable {Cron : Type}

/-- No jobs, and no tick so far. -/
def State.new : State Cron := ⟨[], 0, 1, none⟩

/-- `compute_next` for an interval; `as i64` and `+` wrap. -/
def intervalNext (iv : Seconds) (lastFireMs : Option Int64) (nowMs : Int64) : Int64 :=
  let base := lastFireMs.getD nowMs
  let step := Int64.ofInt iv.millis
  let next := base + step
  if next ≤ nowMs then nowMs + step else next

section Ticks

variable (cronNext : Cron → Int64 → Option Int64)

def computeNext (cron : Option Cron) (interval : Option Seconds) (lastFireMs : Option Int64)
    (nowMs : Int64) : Option Int64 :=
  match cron with
  | some s => cronNext s nowMs
  | none => interval.map fun iv => intervalNext iv lastFireMs nowMs

namespace Job

def computeNext (job : Job Cron) (nowMs : Int64) : Option Int64 :=
  IntervalJobs.computeNext cronNext job.cron job.interval job.lastFireMs nowMs

/-- When the job is next due, which the first tick settles. -/
def next (job : Job Cron) (nowMs : Int64) : Option Int64 :=
  match job.nextFireMs with
  | some t => some t
  | none => job.computeNext cronNext nowMs

def due (job : Job Cron) (nowMs : Int64) : Bool := (job.next cronNext nowMs).any (· ≤ nowMs)

def fire (job : Job Cron) (nowMs : Int64) : Job Cron :=
  let job := { job with lastFireMs := some nowMs, fires := nowMs :: job.fires }
  { job with nextFireMs := job.computeNext cronNext nowMs }

def tick (nowMs : Int64) (job : Job Cron) : Job Cron :=
  if job.due cronNext nowMs then job.fire cronNext nowMs
  else { job with nextFireMs := job.next cronNext nowMs }

end Job

namespace State

def push (s : State Cron) (cron : Option Cron) (interval : Option Seconds) : State Cron :=
  { s with
    nextId := s.nextId + 1
    jobs := s.jobs ++ [⟨s.nextId, cron, interval, none, none, []⟩] }

def schedule (s : State Cron) (cron : Cron) : UInt64 × State Cron :=
  (s.nextId, s.push (some cron) none)

def every (s : State Cron) (seconds : UInt64) : Except String (UInt64 × State Cron) :=
  if h : seconds = 0 then .error "every(seconds) requires seconds > 0"
  else .ok (s.nextId, s.push none (some ⟨seconds, h⟩))

def remove (s : State Cron) (jobId : UInt64) : Bool × State Cron :=
  let jobs := s.jobs.filter fun j => j.id ≠ jobId
  (jobs.length ≠ s.jobs.length, { s with jobs })

/-- One pass of `tick_loop`. -/
def tick (s : State Cron) (nowMs : Int64) : State Cron where
  jobs := s.jobs.map (Job.tick cronNext nowMs)
  fired := s.fired + .ofNat (s.jobs.countP fun job => job.due cronNext nowMs)
  nextId := s.nextId
  clock := some nowMs

end State

inductive Event (Cron : Type) where
  | every (seconds : UInt64)
  | schedule (cron : Cron)
  | remove (jobId : UInt64)
  | tick (nowMs : Int64)

/-- The times of ticks do not decrease. -/
def Step (s : State Cron) : Event Cron → State Cron → Prop
  | .every seconds, t => ∃ id, s.every seconds = .ok (id, t)
  | .schedule cron, t => (s.schedule cron).2 = t
  | .remove jobId, t => (s.remove jobId).2 = t
  | .tick nowMs, t => (∀ c ∈ s.clock, c ≤ nowMs) ∧ s.tick cronNext nowMs = t

/-! ## The law -/

/-- The job runs at this interval. -/
def Job.RunsEvery (job : Job Cron) (iv : Seconds) : Prop := job.cron = none ∧ job.interval = some iv

/-- Two fires of an interval job are an interval apart at least. -/
def Spaced (s : State Cron) : Prop :=
  ∀ job ∈ s.jobs, ∀ iv, job.RunsEvery iv →
    job.fires.IsChain fun later earlier => earlier.toInt + iv.millis ≤ later.toInt

/-- The next time without wrapping around. -/
def exactNext (iv : Seconds) (lastFireMs : Option Int64) (nowMs : Int64) : Int :=
  let next := (lastFireMs.getD nowMs).toInt + iv.millis
  if next ≤ nowMs.toInt then nowMs.toInt + iv.millis else next

/-- `compute_next` does not overflow, and gives a time after now. -/
structure Computes (iv : Seconds) (lastFireMs : Option Int64) (nowMs : Int64) : Prop where
  millis : (Int64.ofInt iv.millis).toInt = iv.millis
  exact : (intervalNext iv lastFireMs nowMs).toInt = exactNext iv lastFireMs nowMs
  after : nowMs < intervalNext iv lastFireMs nowMs

/-- Whenever a tick computes the next time of an interval job it does so exactly. -/
def Exact (s : State Cron) (e : Event Cron) (_ : State Cron) : Prop :=
  match e with
  | .tick nowMs => ∀ job ∈ s.jobs, ∀ iv, job.RunsEvery iv →
      (job.nextFireMs = none → Computes iv job.lastFireMs nowMs) ∧
      (job.due cronNext nowMs → Computes iv (some nowMs) nowMs)
  | _ => True

/-- The interval and the time after it are in the range of an `i64`. -/
def InRange (iv : Seconds) (nowMs : Int64) : Prop :=
  iv.millis < 2 ^ 63 ∧ nowMs.toInt + iv.millis < 2 ^ 63

/-- A tick at which a job has not been seen before, or is due, comes an interval before the end
of time. -/
def InTime (s : State Cron) (e : Event Cron) (_ : State Cron) : Prop :=
  match e with
  | .tick nowMs => ∀ job ∈ s.jobs, ∀ iv, job.RunsEvery iv →
      job.nextFireMs = none ∨ (∃ t ∈ job.nextFireMs, t ≤ nowMs) → InRange iv nowMs
  | _ => True

end Ticks

/-! ## The next time -/

section Times

variable {iv : Seconds} {last : Option Int64} {nowMs : Int64}

theorem Seconds.millis_pos (iv : Seconds) : 0 < iv.millis := by
  have hne : iv.1.toNat ≠ 0 := fun h => iv.2 (UInt64.toNat_inj.mp h)
  unfold millis
  omega

theorem toInt_add_of_bounds {a b : Int64} (hle : -2 ^ 63 ≤ a.toInt + b.toInt)
    (hlt : a.toInt + b.toInt < 2 ^ 63) : (a + b).toInt = a.toInt + b.toInt := by
  rw [Int64.toInt_add]
  exact Int.bmod_eq_of_le (by omega) (by omega)

theorem exactNext_of_base (hlast : last.getD nowMs = nowMs) :
    exactNext iv last nowMs = nowMs.toInt + iv.millis := by
  unfold exactNext
  rw [hlast]
  exact ite_self _

theorem intervalNext_of_base (hlast : last.getD nowMs = nowMs) :
    intervalNext iv last nowMs = nowMs + .ofInt iv.millis := by
  unfold intervalNext
  rw [hlast]
  exact ite_self _

/-- From now on, the interval has to fit behind now. -/
theorem computes_iff (hlast : last.getD nowMs = nowMs) :
    Computes iv last nowMs ↔ InRange iv nowMs := by
  have hpos := iv.millis_pos
  have hnow := nowMs.le_toInt
  have hexact : exactNext iv last nowMs = nowMs.toInt + iv.millis := exactNext_of_base hlast
  have hnext : intervalNext iv last nowMs = nowMs + .ofInt iv.millis := intervalNext_of_base hlast
  constructor
  · intro ⟨hmillis, hsum, _⟩
    have hstep := (Int64.ofInt iv.millis).toInt_lt
    have hlt := (intervalNext iv last nowMs).toInt_lt
    rw [hmillis] at hstep
    rw [hsum, hexact] at hlt
    exact ⟨hstep, hlt⟩
  · intro ⟨hmillis, hsum⟩
    have hstep : (Int64.ofInt iv.millis).toInt = iv.millis :=
      Int64.toInt_ofInt_of_le (by omega) hmillis
    have hadd : (nowMs + .ofInt iv.millis).toInt = nowMs.toInt + iv.millis := by
      rw [toInt_add_of_bounds (by rw [hstep]; omega) (by rw [hstep]; exact hsum), hstep]
    refine ⟨hstep, ?_, ?_⟩
    · rw [hnext, hexact, hadd]
    · rw [hnext, Int64.lt_iff_toInt_lt, hadd]
      omega

theorem computes_none : Computes iv none nowMs ↔ InRange iv nowMs := computes_iff rfl

theorem computes_some : Computes iv (some nowMs) nowMs ↔ InRange iv nowMs := computes_iff rfl

/-- The time after a fire is an interval later. -/
theorem Computes.toInt_next (h : Computes iv (some nowMs) nowMs) :
    (intervalNext iv (some nowMs) nowMs).toInt = nowMs.toInt + iv.millis :=
  h.exact.trans (exactNext_of_base rfl)

end Times

/-! ## Steps -/

section Steps

variable {cronNext : Cron → Int64 → Option Int64} {s t : State Cron} {e : Event Cron}
  {job : Job Cron} {iv : Seconds} {nowMs : Int64}

/-- Every interval job is in order. -/
def AllJobs (I : Seconds → Job Cron → Prop) (s : State Cron) : Prop :=
  ∀ job ∈ s.jobs, ∀ iv, job.RunsEvery iv → I iv job

theorem runsEvery_tick : (job.tick cronNext nowMs).RunsEvery iv ↔ job.RunsEvery iv := by
  unfold Job.tick
  split
  · exact Iff.rfl
  · exact Iff.rfl

theorem AllJobs.push {I : Seconds → Job Cron → Prop} (hs : AllJobs I s) (cron : Option Cron)
    (interval : Option Seconds)
    (hnew : ∀ iv, cron = none → interval = some iv →
      I iv ⟨s.nextId, cron, interval, none, none, []⟩) :
    AllJobs I (s.push cron interval) := by
  intro job hjob iv hruns
  rcases List.mem_append.mp hjob with hjob | hjob
  · exact hs job hjob iv hruns
  · rw [List.mem_singleton.mp hjob] at hruns ⊢
    exact hnew iv hruns.1 hruns.2

/-- What holds of new interval jobs, and is kept by ticks, holds after a step. -/
theorem AllJobs.step {I : Seconds → Job Cron → Prop} (hs : AllJobs I s)
    (h : Step cronNext s e t) (hnew : ∀ iv id, I iv ⟨id, none, some iv, none, none, []⟩)
    (htick : ∀ nowMs, e = .tick nowMs → ∀ job ∈ s.jobs, ∀ iv, job.RunsEvery iv → I iv job →
      I iv (job.tick cronNext nowMs)) : AllJobs I t := by
  cases e with
  | every seconds =>
    obtain ⟨id, h⟩ := h
    unfold State.every at h
    split at h
    · cases h
    · cases h
      refine hs.push none _ fun iv _ he => ?_
      rw [he]
      exact hnew iv _
  | schedule cron =>
    have ht : s.push (some cron) none = t := h
    rw [← ht]
    exact hs.push _ _ fun _ he => by cases he
  | remove jobId =>
    have ht : { s with jobs := s.jobs.filter fun j => j.id ≠ jobId } = t := h
    rw [← ht]
    intro job hjob
    exact hs job (List.mem_of_mem_filter hjob)
  | tick nowMs =>
    obtain ⟨_, ht⟩ := h
    rw [← ht]
    intro job' hjob' iv hruns
    obtain ⟨job, hjob, he⟩ := List.mem_map.mp hjob'
    rw [← he] at hruns ⊢
    rw [runsEvery_tick] at hruns
    exact htick nowMs rfl job hjob iv hruns (hs job hjob iv hruns)

theorem computeNext_interval (h : job.RunsEvery iv) (last : Option Int64) :
    computeNext cronNext job.cron job.interval last nowMs = some (intervalNext iv last nowMs) := by
  rw [h.1, h.2]
  rfl

theorem next_of_some {t : Int64} (h : job.nextFireMs = some t) :
    job.next cronNext nowMs = some t := by
  rw [Job.next, h]

theorem next_of_none (hruns : job.RunsEvery iv) (h : job.nextFireMs = none) :
    job.next cronNext nowMs = some (intervalNext iv job.lastFireMs nowMs) := by
  rw [Job.next, h]
  exact computeNext_interval hruns job.lastFireMs

theorem due_iff {t : Int64} (h : job.next cronNext nowMs = some t) :
    job.due cronNext nowMs ↔ t ≤ nowMs := by
  rw [Job.due, h, Option.any_some, decide_eq_true_iff]

/-- Before its first tick a job has not fired. -/
def Fresh (_ : Seconds) (job : Job Cron) : Prop :=
  job.nextFireMs = none → job.lastFireMs = none ∧ job.fires = []

/-- After a tick there is a next time. -/
theorem tick_nextFireMs (hruns : job.RunsEvery iv) :
    (job.tick cronNext nowMs).nextFireMs ≠ none := by
  unfold Job.tick
  split
  · rw [show (job.fire cronNext nowMs).nextFireMs = _ from computeNext_interval hruns (some nowMs)]
    exact Option.some_ne_none _
  · cases h : job.nextFireMs with
    | none =>
      rw [next_of_none hruns h]
      exact Option.some_ne_none _
    | some t =>
      rw [next_of_some h]
      exact Option.some_ne_none _

theorem Fresh.step (hs : AllJobs Fresh s) (h : Step cronNext s e t) : AllJobs Fresh t :=
  hs.step h (fun _ _ _ => ⟨rfl, rfl⟩) fun _ _ _ _ _ hruns _ hnone =>
    absurd hnone (tick_nextFireMs hruns)

/-- A job that is fresh or due gets an exact next time when that is in range. -/
theorem exact_iff (hs : AllJobs Fresh s) : Exact cronNext s e t ↔ InTime s e t := by
  cases e with
  | every | schedule | remove => exact Iff.rfl
  | tick nowMs =>
    refine forall₂_congr fun job hjob => forall₂_congr fun iv hruns => ?_
    cases hnext : job.nextFireMs with
    | none =>
      have hlast := (hs job hjob iv hruns hnext).1
      rw [hlast, computes_none, computes_some]
      exact ⟨fun h _ => h.1 rfl, fun h => ⟨fun _ => h (.inl rfl), fun _ => h (.inl rfl)⟩⟩
    | some t =>
      rw [computes_some, due_iff (next_of_some hnext)]
      constructor
      · intro h hor
        rcases hor with hor | ⟨u, hu, hle⟩
        · cases hor
        · cases hu
          exact h.2 hle
      · intro h
        exact ⟨fun he => absurd he (Option.some_ne_none t), fun hle => h (.inr ⟨t, rfl, hle⟩)⟩

/-- The fires are an interval apart, and so is the next one. -/
structure Paced (iv : Seconds) (job : Job Cron) : Prop where
  fresh : Fresh iv job
  spaced : job.fires.IsChain fun later earlier => earlier.toInt + iv.millis ≤ later.toInt
  apart : ∀ t ∈ job.nextFireMs, ∀ f ∈ job.fires.head?, f.toInt + iv.millis ≤ t.toInt

theorem Paced.tick (h : Paced iv job) (hruns : job.RunsEvery iv)
    (hrange : job.nextFireMs = none ∨ (∃ t ∈ job.nextFireMs, t ≤ nowMs) → InRange iv nowMs) :
    Paced iv (job.tick cronNext nowMs) := by
  have hfresh : Fresh iv (job.tick cronNext nowMs) := fun hnone =>
    absurd hnone (tick_nextFireMs hruns)
  cases hnext : job.nextFireMs with
  | none =>
    obtain ⟨hlast, hfires⟩ := h.fresh hnext
    have hcomputes := computes_none.mpr (hrange (.inl hnext))
    rw [← hlast] at hcomputes
    have hdue : ¬ job.due cronNext nowMs := by
      rw [due_iff (next_of_none hruns hnext), Int64.not_le]
      exact hcomputes.after
    refine ⟨hfresh, ?_, ?_⟩
    · rw [Job.tick, if_neg hdue, hfires]
      exact .nil
    · rw [Job.tick, if_neg hdue, hfires]
      intro _ _ f hf
      cases hf
  | some t =>
    by_cases hle : t ≤ nowMs
    · have hdue : job.due cronNext nowMs := (due_iff (next_of_some hnext)).mpr hle
      have hcomputes := computes_some.mpr (hrange (.inr ⟨t, hnext, hle⟩))
      have hfires : (job.tick cronNext nowMs).fires = nowMs :: job.fires := by
        rw [Job.tick, if_pos hdue]
        rfl
      have hafter : (job.tick cronNext nowMs).nextFireMs =
          some (intervalNext iv (some nowMs) nowMs) := by
        rw [Job.tick, if_pos hdue]
        exact computeNext_interval hruns (some nowMs)
      refine ⟨hfresh, ?_, ?_⟩
      · rw [hfires]
        cases hearlier : job.fires with
        | nil => exact .singleton _
        | cons f rest =>
          have hspaced := h.spaced
          rw [hearlier] at hspaced
          have hapart := h.apart t hnext f (by rw [hearlier]; rfl)
          exact .cons_cons (Int.le_trans hapart (Int64.le_iff_toInt_le.mp hle)) hspaced
      · rw [hfires, hafter]
        intro u hu f hf
        cases hu
        cases hf
        exact Int.le_of_eq hcomputes.toInt_next.symm
    · have hdue : ¬ job.due cronNext nowMs := fun hdue =>
        hle ((due_iff (next_of_some hnext)).mp hdue)
      rw [Job.tick, if_neg hdue, next_of_some hnext, ← hnext]
      exact h

theorem Paced.step (hs : AllJobs Paced s) (h : Step cronNext s e t) (hrange : InTime s e t) :
    AllJobs Paced t := by
  refine hs.step h (fun iv id => ⟨fun _ => ⟨rfl, rfl⟩, .nil, fun _ h => by cases h⟩) ?_
  intro nowMs he job hjob iv hruns hpaced
  rw [he] at hrange
  exact hpaced.tick hruns (hrange job hjob iv hruns)

/-! ## Runs -/

variable {tr : List (Event Cron × State Cron)}

/-- **Interval jobs.** In a run every next time is exact and after now, and no job fires twice
within its interval, exactly when every tick that computes a next time comes an interval
before the end of time. -/
theorem interval_jobs_iff (hrun : Along (Step cronNext) .new tr) :
    (Along (Exact cronNext) .new tr ∧ ∀ s ∈ visited .new tr, Spaced s) ↔
      Along InTime .new tr := by
  have hiff : Along (Exact cronNext) .new tr ↔ Along InTime .new tr :=
    Along.congr_of_invariant (fun _ _ _ hs h => ⟨Fresh.step hs h, exact_iff hs⟩)
      (fun _ hjob => by cases hjob) hrun
  rw [hiff]
  refine and_iff_left_of_imp fun hrange s hs => ?_
  have hpaced : ∀ s ∈ visited State.new tr, AllJobs Paced s :=
    (hrun.and hrange).invariant (fun _ _ _ hs h => Paced.step hs h.1 h.2)
      fun _ hjob => by cases hjob
  exact fun job hjob iv hruns => (hpaced s hs job hjob iv hruns).spaced

end Steps

/-! ## One job -/

section OneJob

/-- There are no cron jobs here. -/
def noCron : Empty → Int64 → Option Int64 := fun cron _ => cron.elim

/-- The only job there is, and the last tick. -/
def oneJob (iv : Seconds) (last next : Option Int64) (fires : List Int64) (clock : Option Int64) :
    State Empty := ⟨[⟨1, none, some iv, last, next, fires⟩], .ofNat fires.length, 2, clock⟩

theorem allJobs_oneJob {I : Seconds → Job Empty → Prop} {iv : Seconds}
    {last next clock : Option Int64} {fires : List Int64} :
    AllJobs I (oneJob iv last next fires clock) ↔ I iv ⟨1, none, some iv, last, next, fires⟩ := by
  constructor
  · exact fun h => h _ (.head _) iv ⟨rfl, rfl⟩
  · intro h job hjob other hruns
    rw [List.mem_singleton.mp hjob] at hruns ⊢
    rw [← Option.some.inj hruns.2]
    exact h

/-- A job of one second, up to its first fire. -/
def secondly : List (Event Empty × State Empty) :=
  let iv := ⟨1, by decide⟩
  [(.every 1, oneJob iv none none [] none),
    (.tick 0, oneJob iv none (some 1000) [] (some 0)),
    (.tick 1000, oneJob iv (some 1000) (some 2000) [1000] (some 1000))]

theorem step_secondly : Along (Step noCron) .new secondly := by
  refine ⟨⟨1, rfl⟩, ⟨?_, by decide +kernel⟩, ⟨?_, by decide +kernel⟩, trivial⟩
  · intro c hc
    cases hc
  · intro c hc
    cases hc
    decide

theorem interval_jobs_secondly : Along (Exact noCron) .new secondly ∧
    ∀ s ∈ visited .new secondly, Spaced s := by
  refine (interval_jobs_iff step_secondly).mpr ⟨trivial, ?_, ?_, trivial⟩
  · exact allJobs_oneJob.mpr fun _ => ⟨by decide, by decide⟩
  · exact allJobs_oneJob.mpr fun _ => ⟨by decide, by decide⟩

/-- In milliseconds, a multiple of `2^64`. -/
def eons : Seconds := ⟨2305843009213693952, by decide⟩

def stormRun : List (Event Empty × State Empty) :=
  [(.every 2305843009213693952, oneJob eons none none [] none),
    (.tick 1000, oneJob eons (some 1000) (some 1000) [1000] (some 1000)),
    (.tick 1250, oneJob eons (some 1250) (some 1250) [1250, 1000] (some 1250))]

/-- The job is fired on every tick. -/
theorem fires_on_every_tick : Along (Step noCron) .new stormRun ∧
    ¬ Along (Exact noCron) .new stormRun ∧ ¬ ∀ s ∈ visited .new stormRun, Spaced s := by
  refine ⟨⟨⟨1, rfl⟩, ⟨?_, by decide +kernel⟩, ⟨?_, by decide +kernel⟩, trivial⟩, ?_, ?_⟩
  · intro c hc
    cases hc
  · intro c hc
    cases hc
    decide
  · intro h
    have hcomputes := (allJobs_oneJob.mp h.2.1).1 rfl
    exact absurd hcomputes.after (by decide +kernel)
  · intro h
    have hspaced := allJobs_oneJob.mp (h _ (.tail _ (.tail _ (.tail _ (.head _)))))
    exact absurd hspaced (by decide +kernel)

end OneJob

end JustApi.Py.IntervalJobs
