import JustApi.Cli.Workers

/-! # What the supervisor knows of its workers

Every process that runs is in a slot and is waited for, whatever the supervisor does,
as long as no wait ends before its process. -/
namespace JustApi.Cli.Workers

/-- The wait that a step ends. -/
def Event.wait? {L : Type} : Event L → Option Nat
  | .select _ (.exited wait _ _) | .select _ (.joinError wait) => some wait
  | _ => none

namespace Supervisor

/-- A wait ends, with an error or without, no sooner than its process. -/
def Ended {L : Type} (s : Supervisor) (e : Event L) : Prop :=
  ∀ wait ∈ e.wait?, ∀ entry ∈ s.waits[wait]?, entry.2 ∉ s.alive

instance {L : Type} (s : Supervisor) (e : Event L) : Decidable (s.Ended e) :=
  inferInstanceAs (Decidable (∀ wait ∈ e.wait?, ∀ entry ∈ s.waits[wait]?, entry.2 ∉ s.alive))

variable {s t : Supervisor} {slot : Nat} {pid : Pid}

/-! ## Slots -/

theorem occupied_iff : s.occupied slot = true ↔ ∃ pid, s.pids[slot]? = some (some pid) := by
  unfold occupied
  rcases s.pids[slot]? with _ | _ | pid <;> simp

theorem working_iff : s.working slot = true ↔ s.occupied slot = true ∧ slot ∉ s.stopping := by
  simp [working]

theorem lt_of_occupied (h : s.occupied slot = true) : slot < s.pids.length := by
  obtain ⟨pid, hpid⟩ := occupied_iff.mp h
  exact (List.getElem?_eq_some_iff.mp hpid).1

theorem allExited_iff :
    s.allExited = true ↔ ∀ slot, s.occupied slot = true → slot ∈ s.stopping := by
  unfold allExited
  rw [List.all_eq_true]
  constructor
  · intro h slot hocc
    have hslot := h slot (List.mem_range.mpr (lt_of_occupied hocc))
    simpa [hocc] using hslot
  · intro h slot _
    cases hocc : s.occupied slot with
    | false => simp
    | true => simpa using h slot hocc

theorem nextFreeSlot_spec (s : Supervisor) :
    s.nextFreeSlot.2.pids[s.nextFreeSlot.1]? = some none ∧
      (s.nextFreeSlot.2 = s ∨ s.nextFreeSlot.2 = { s with pids := s.pids ++ [none] }) := by
  unfold nextFreeSlot
  cases h : s.pids.findIdx? Option.isNone with
  | none => exact ⟨by simp, .inr rfl⟩
  | some slot =>
    obtain ⟨hlt, hnone, -⟩ := List.findIdx?_eq_some_iff_getElem.mp h
    refine ⟨?_, .inl rfl⟩
    rw [List.getElem?_eq_getElem hlt, Option.isNone_iff_eq_none.mp hnone]

/-- Adding workers grows the table and fills empty slots. -/
theorem scaleUp_induction {P : Supervisor → Prop}
    (grow : ∀ s, P s → P { s with pids := s.pids ++ [none] })
    (fill : ∀ s slot, P s → s.pids[slot]? = some none → P (s.spawnInto slot))
    (spawned : Nat → Bool) (toAdd : Nat) (hs : P s) : P (s.scaleUp spawned toAdd) := by
  induction toAdd generalizing s with
  | zero => exact hs
  | succ toAdd ih =>
    obtain ⟨hfree, hnext⟩ := s.nextFreeSlot_spec
    have hP : P s.nextFreeSlot.2 := by
      rcases hnext with hnext | hnext <;> rw [hnext]
      · exact hs
      · exact grow s hs
    change P (if spawned toAdd then scaleUp spawned toAdd
      (s.nextFreeSlot.2.spawnInto s.nextFreeSlot.1) else s.nextFreeSlot.2)
    split
    · exact ih (fill _ _ hP hfree)
    · exact hP

/-- Removing workers marks slots whose workers are not yet stopping. -/
theorem scaleDown_induction {P : Supervisor → Prop}
    (mark : ∀ s slot, P s → s.working slot = true → P { s with stopping := slot :: s.stopping })
    (slots : List Nat) (toRemove : Nat) (hs : P s) : P (scaleDown slots toRemove s) := by
  induction slots generalizing s toRemove with
  | nil => exact hs
  | cons slot slots ih =>
    rw [scaleDown]
    split
    · exact hs
    · split
      · exact ih _ (mark s slot hs ‹_›)
      · exact ih _ hs

/-! ## Steps -/

section Steps

variable {L : Type} [Load L] {settings : Settings L} {time wait : Nat}

theorem exec_ok {e : Event L} : s.exec settings e = .ok t ↔ s.Step settings e t := by
  unfold exec Step
  cases s.step settings e <;> simp

theorem atTime_eq : s.atTime time = some t ↔ s.now ≤ time ∧ t = { s with now := time } := by
  rw [atTime, Option.ite_none_right_eq_some, Option.some_inj, @eq_comm _ t]

theorem step_exits :
    s.Step settings (.exits pid) t ↔
      pid ∈ s.alive ∧ t = { s with alive := s.alive.filter fun other => other ≠ pid } := by
  simp [Step, step, eq_comm]

theorem step_launch {spawned : Bool} :
    s.Step settings (.launch spawned) t ↔
      ∃ remaining, s.phase = .starting (remaining + 1) ∧ t = s.launch remaining spawned := by
  simp only [Step, step]
  split
  · simp_all [eq_comm]
  · simp_all

theorem step_install {installed : Bool} :
    s.Step settings (.install time installed) t ↔
      s.phase = .starting 0 ∧ s.now ≤ time ∧
        t = { s with now := time }.install settings installed := by
  simp only [Step, step, Option.ite_none_right_eq_some, Option.map_eq_some_iff, atTime_eq,
    and_assoc, exists_eq_left, exists_and_left, @eq_comm _ t]

theorem step_select {branch : Branch L} :
    s.Step settings (.select time branch) t ↔
      ∃ cancelled, s.phase = .selecting cancelled ∧ s.now ≤ time ∧
        { s with now := time }.select settings cancelled branch = some t := by
  simp only [Step, step]
  split
  · simp [Option.bind_eq_some_iff, atTime_eq, *]
  · simp_all

theorem step_check :
    s.Step settings (.check time) t ↔
      s.phase = .checking ∧ s.now ≤ time ∧ t = { s with now := time }.check := by
  simp only [Step, step, Option.ite_none_right_eq_some, Option.map_eq_some_iff, atTime_eq,
    and_assoc, exists_eq_left, exists_and_left, @eq_comm _ t]

variable {cancelled : Bool}

theorem select_exited {waited respawned : Bool} :
    s.select settings cancelled (.exited wait waited respawned) = some t ↔
      ∃ slot pid, s.waits[wait]? = some (slot, pid) ∧ (waited = true → pid ∉ s.alive) ∧
        t = s.exited wait slot waited respawned := by
  rw [select, Option.bind_eq_bind, Option.bind_eq_some_iff, Prod.exists]
  simp only [Option.ite_none_left_eq_some, Option.some.injEq, Bool.and_eq_true, decide_eq_true_eq,
    not_and, @eq_comm _ t]

theorem select_joinError :
    s.select settings cancelled (.joinError wait) = some t ↔
      wait < s.waits.length ∧
        t = { s with waits := s.waits.eraseIdx wait, phase := .checking } := by
  rw [select, Option.ite_none_right_eq_some, Option.some_inj, @eq_comm _ t]

theorem select_noChildren :
    s.select settings cancelled .noChildren = some t ↔
      s.waits = [] ∧ t = { s with phase := if s.cancelled then .returned .ok else .checking } := by
  rw [select, Option.ite_none_right_eq_some, Option.some_inj, @eq_comm _ t]

theorem select_shutdown :
    s.select settings cancelled .shutdown = some t ↔
      s.cancelled = true ∧ t = s.shutdown settings := by
  rw [select, Option.ite_none_right_eq_some, Option.some_inj, @eq_comm _ t]

theorem select_signal :
    s.select settings cancelled .signal = some t ↔
      t = { s with cancelled := true, phase := .checking } := by
  rw [select, Option.some_inj, eq_comm]

theorem select_tick {load : L} {spawned : Nat → Bool} :
    s.select settings cancelled (.tick load spawned) = some t ↔
      (settings.scalingEnabled = true ∧ cancelled = false) ∧
        t = { s.tick settings load spawned with phase := .checking } := by
  rw [select, Option.ite_none_right_eq_some, Option.some_inj, @eq_comm _ t, Bool.and_eq_true,
    Bool.not_eq_true']

end Steps

/-! ## Processes that run -/

/-- Every process that runs is waited for, in a slot of its own. -/
structure Tracked (s : Supervisor) : Prop where
  placed : ∀ slot pid, (slot, pid) ∈ s.waits → s.pids[slot]? = some (some pid)
  apart : (s.waits.map Prod.fst).Nodup
  watched : ∀ pid ∈ s.alive, ∃ slot, (slot, pid) ∈ s.waits

namespace Tracked

theorem start (count time : Nat) : (start count time).Tracked :=
  ⟨fun _ _ h => (List.not_mem_nil h).elim, List.nodup_nil, fun _ h => (List.not_mem_nil h).elim⟩

theorem frame (h : s.Tracked) (hpids : t.pids = s.pids) (hwaits : t.waits = s.waits)
    (halive : t.alive ⊆ s.alive) : t.Tracked := by
  refine ⟨?_, ?_, ?_⟩
  · rw [hpids, hwaits]; exact h.placed
  · rw [hwaits]; exact h.apart
  · rw [hwaits]; exact fun pid hpid => h.watched pid (halive hpid)

theorem grow (h : s.Tracked) : { s with pids := s.pids ++ [none] }.Tracked := by
  refine ⟨fun slot pid hmem => ?_, h.apart, h.watched⟩
  have hslot := h.placed slot pid hmem
  rw [List.getElem?_append_left (List.getElem?_eq_some_iff.mp hslot).1]
  exact hslot

theorem spawnInto (h : s.Tracked) (hfree : s.pids[slot]? = some none) :
    (s.spawnInto slot).Tracked := by
  have hnew : ∀ other pid, (other, pid) ∈ s.waits → other ≠ slot := by
    rintro other pid hmem rfl
    simp [h.placed other pid hmem] at hfree
  refine ⟨fun other pid hmem => ?_, ?_, fun pid hmem => ?_⟩
  · rcases List.mem_append.mp hmem with hmem | hmem
    · change (s.pids.set slot _)[other]? = _
      rw [List.getElem?_set_ne (hnew other pid hmem).symm]
      exact h.placed other pid hmem
    · obtain ⟨rfl, rfl⟩ := Prod.mk.inj (List.mem_singleton.mp hmem)
      exact List.getElem?_set_self (List.getElem?_eq_some_iff.mp hfree).1
  · change ((s.waits ++ [(slot, s.nextPid)]).map Prod.fst).Nodup
    rw [List.map_append, List.nodup_append]
    refine ⟨h.apart, by simp, ?_⟩
    rintro other hother _ hslot rfl
    obtain ⟨⟨other, pid⟩, hmem, rfl⟩ := List.mem_map.mp hother
    exact hnew other pid hmem (List.mem_singleton.mp hslot)
  · rcases List.mem_cons.mp hmem with rfl | hmem
    · exact ⟨slot, List.mem_append_right _ List.mem_cons_self⟩
    · obtain ⟨other, hother⟩ := h.watched pid hmem
      exact ⟨other, List.mem_append_left _ hother⟩

/-- A wait that is over is the only one in its slot, and the only one of its process. -/
theorem mem_eraseIdx {wait : Nat} (h : s.Tracked) (hwait : s.waits[wait]? = some (slot, pid))
    {other : Nat} {pid' : Pid} :
    (other, pid') ∈ s.waits.eraseIdx wait ↔ (other, pid') ∈ s.waits ∧ other ≠ slot := by
  have hmem := List.mem_of_getElem? hwait
  rw [List.mem_eraseIdx_iff_getElem?]
  constructor
  · intro h
    obtain ⟨i, hi, hother⟩ := h
    refine ⟨List.mem_of_getElem? hother, ?_⟩
    rintro rfl
    refine hi ((List.getElem?_inj ?_ h.apart).mp ?_)
    · rw [List.length_map]; exact (List.getElem?_eq_some_iff.mp hother).1
    · rw [List.getElem?_map, List.getElem?_map, hother, hwait]; rfl
  · intro h
    obtain ⟨hother, hne⟩ := h
    obtain ⟨i, hi⟩ := List.getElem?_of_mem hother
    refine ⟨i, ?_, hi⟩
    rintro rfl
    rw [hi] at hwait
    exact hne (congrArg Prod.fst (Option.some.inj hwait))

/-- What is left when a wait is over and its process too. -/
theorem forget {wait : Nat} (h : s.Tracked) (hwait : s.waits[wait]? = some (slot, pid))
    (hended : pid ∉ s.alive) : { s with waits := s.waits.eraseIdx wait }.Tracked := by
  refine ⟨fun other pid' hmem => ?_, ?_, fun pid' hmem => ?_⟩
  · exact h.placed other pid' ((h.mem_eraseIdx hwait).mp hmem).1
  · exact ((List.eraseIdx_sublist _ _).map _).nodup h.apart
  · obtain ⟨other, hother⟩ := h.watched pid' hmem
    refine ⟨other, (h.mem_eraseIdx hwait).mpr ⟨hother, ?_⟩⟩
    rintro rfl
    have hslot := h.placed other pid' hother
    rw [h.placed other pid (List.mem_of_getElem? hwait)] at hslot
    cases hslot
    exact hended hmem

theorem reap {wait : Nat} (h : s.Tracked) (hwait : s.waits[wait]? = some (slot, pid))
    (hended : pid ∉ s.alive) :
    { s with pids := s.pids.set slot none, waits := s.waits.eraseIdx wait }.Tracked := by
  have hforget := h.forget hwait hended
  refine ⟨fun other pid' hmem => ?_, hforget.apart, hforget.watched⟩
  change (s.pids.set slot _)[other]? = _
  rw [List.getElem?_set_ne ((h.mem_eraseIdx hwait).mp hmem).2.symm]
  exact hforget.placed other pid' hmem

end Tracked

end Supervisor

end JustApi.Cli.Workers
