import JustApi.Cli.FleetBounds

/-! # A fleet without a policy

Without a policy the supervisor runs with the default one and a probe that samples no
load. To that policy no load is a reason to shrink. -/
namespace JustApi.Cli.Workers

open Lib.Run

variable {L : Type}

/-- What `NoProbe` samples. -/
def Event.NoLoad [Load L] : Event L → Prop
  | .select _ (.tick load _) => load = 0.0
  | _ => True

section NoLoad

variable [Load L] {current : Nat}

theorem decideScale_noLoad : decideScale current (0.0 : L) .default = clamp (current - 1) 1 4 := by
  have hhigh : Load.le (ScalingPolicy.default : ScalingPolicy L).high 0.0 = false :=
    Load.not_high_le_zero
  have hlow : Load.le 0.0 (ScalingPolicy.default : ScalingPolicy L).low = true :=
    Load.zero_le_low
  unfold decideScale
  simp only [hhigh, hlow, Bool.false_eq_true, if_false, if_true]
  rfl

/-- Without load the default policy holds a fleet of one worker only. -/
theorem decideScale_noLoad_eq_iff :
    decideScale current (0.0 : L) .default = current ↔ current = 1 := by
  rw [decideScale_noLoad]
  unfold clamp
  split
  · omega
  · split <;> omega

theorem decideScale_noLoad_le (h : 1 ≤ current) :
    decideScale current (0.0 : L) .default ≤ current := by
  rw [decideScale_noLoad]
  unfold clamp
  split
  · omega
  · split <;> omega

end NoLoad

namespace Supervisor

variable {s t : Supervisor} {slot count time wait drainTimeout : Nat} {pid : Pid}

/-- In the loop as many slots as there were workers at the start have a worker, and none
of them is to stop. -/
def Fixed (count : Nat) (s : Supervisor) : Prop :=
  s.phase.InLoop → s.active = count ∧ s.stopping = []

/-- A tick finds a fleet of one worker, or comes before the cooldown is over. -/
def Holds [Load L] (count : Nat) (s : Supervisor) : Event L → Prop
  | .select time (.tick ..) =>
    count = 1 ∨ time - s.lastScale < (ScalingPolicy.default : ScalingPolicy L).cooldown
  | _ => True

/-- All slots have workers that are not to stop. -/
structure Full (count : Nat) (s : Supervisor) : Prop where
  order : s.InOrder
  undrained : s.drainDeadline = none
  uncancelled : s.cancelled = false
  unmarked : s.stopping = []
  full : ∀ entry ∈ s.pids, entry.isSome = true
  starting : ∀ remaining, s.phase = .starting remaining → s.pids.length + remaining = count
  looping : s.phase.InLoop → s.pids.length = count

namespace Full

theorem active_eq (h : s.Full count) : s.active = s.pids.length := by
  have hall : ∀ slot ∈ List.range s.pids.length, s.working slot = true := by
    intro slot hslot
    have hlt := List.mem_range.mp hslot
    refine working_iff.mpr ⟨?_, by simp [h.unmarked]⟩
    have hsome := h.full _ (List.getElem_mem hlt)
    simpa [occupied, hlt] using hsome
  rw [active, List.countP_eq_length.mpr hall, List.length_range]

theorem fixed (h : s.Full count) : s.Fixed count :=
  fun hloop => ⟨h.active_eq.trans (h.looping hloop), h.unmarked⟩

theorem start (count time : Nat) : (start count time).Full count := by
  refine ⟨.start count time, rfl, rfl, rfl, fun _ h => (List.not_mem_nil h).elim,
    fun remaining h => ?_, fun h => ?_⟩
  · unfold Supervisor.start at h
    dsimp only at h
    split at h <;> cases h
    exact Nat.zero_add count
  · unfold Supervisor.start Phase.InLoop at h
    dsimp only at h
    split at h <;> simp at h

theorem frame (h : s.Full count) (horder : t.InOrder) (hpids : t.pids = s.pids)
    (hstopping : t.stopping = s.stopping) (hdeadline : t.drainDeadline = s.drainDeadline)
    (hcancelled : t.cancelled = s.cancelled)
    (hphase : t.phase = s.phase ∨ s.phase.InLoop ∧ t.phase.InLoop) : t.Full count := by
  refine ⟨horder, hdeadline.trans h.undrained, hcancelled.trans h.uncancelled,
    hstopping.trans h.unmarked, hpids ▸ h.full, fun remaining hremaining => ?_, fun hloop => ?_⟩
  · rw [hpids]
    rcases hphase with hphase | ⟨-, hphase⟩
    · exact h.starting remaining (hphase.symm.trans hremaining)
    · rw [hremaining] at hphase
      rcases hphase with ⟨_, hphase⟩ | hphase <;> cases hphase
  · rw [hpids]
    rcases hphase with hphase | ⟨hphase, -⟩
    · exact h.looping (hphase ▸ hloop)
    · exact h.looping hphase

theorem launch {remaining : Nat} (h : s.Full count) (hphase : s.phase = .starting (remaining + 1)) :
    (s.launch remaining true).Full count := by
  have hfree : { s with pids := s.pids ++ [none] }.pids[s.pids.length]? = some none := by simp
  have hpids : (s.launch remaining true).pids = s.pids ++ [some s.nextPid] := by
    simp [Supervisor.launch, spawnInto]
  refine ⟨(h.order.grow.spawnInto hfree).frame rfl rfl (List.Subset.refl _) rfl rfl, h.undrained,
    h.uncancelled, h.unmarked, ?_, fun other hother => ?_, fun hloop => ?_⟩
  · rw [hpids]
    intro entry hentry
    rcases List.mem_append.mp hentry with hentry | hentry
    · exact h.full entry hentry
    · rw [List.mem_singleton.mp hentry]
      rfl
  · cases hother
    have := h.starting _ hphase
    rw [hpids, List.length_append, List.length_singleton]
    omega
  · rcases hloop with ⟨_, hloop⟩ | hloop <;> cases hloop

theorem install {settings : Settings L} (h : s.Full count) (hphase : s.phase = .starting 0) :
    (s.install settings true).Full count := by
  refine ⟨h.order.frame rfl rfl (List.Subset.refl _) rfl rfl, h.undrained, h.uncancelled,
    h.unmarked, h.full, fun _ h => (nomatch h), fun _ => ?_⟩
  exact h.starting 0 hphase

theorem exited (h : s.Full count) (hloop : s.phase.InLoop)
    (hwait : s.waits[wait]? = some (slot, pid)) (hended : pid ∉ s.alive) :
    (s.exited wait slot true true).Full count := by
  have hmarked : slot ∉ s.stopping := by simp [h.unmarked]
  have horder := h.order.exited hwait hended h.uncancelled
  rw [exited_of_unmarked hmarked h.uncancelled] at horder ⊢
  have hpids : ((s.pids.set slot none).set slot (some s.nextPid)) =
      s.pids.set slot (some s.nextPid) := List.set_set ..
  refine ⟨horder, h.undrained, h.uncancelled, h.unmarked, fun entry hentry => ?_,
    fun _ h => (nomatch h), fun _ => ?_⟩
  · change entry ∈ (s.pids.set slot none).set slot (some s.nextPid) at hentry
    rw [hpids] at hentry
    rcases List.mem_or_eq_of_mem_set hentry with hentry | rfl
    · exact h.full entry hentry
    · rfl
  · change ((s.pids.set slot none).set slot (some s.nextPid)).length = count
    rw [hpids, List.length_set]
    exact h.looping hloop

theorem atTime (h : s.Full count) (time : Nat) : { s with now := time }.Full count :=
  h.frame (h.order.frame rfl rfl (List.Subset.refl _) rfl rfl) rfl rfl rfl rfl (.inl rfl)

theorem check (h : s.Full count) (hphase : s.phase = .checking) : s.check.Full count := by
  rw [check_of_undrained h.undrained]
  exact h.frame (h.order.frame rfl rfl (List.Subset.refl _) rfl rfl) rfl rfl rfl rfl
    (.inr ⟨.inr hphase, .inl ⟨_, rfl⟩⟩)

end Full

variable [Load L]

namespace Full

/-- The ticks that scale are those that are not held. -/
theorem scales_iff_not_holds {spawned : Nat → Bool} (h : s.Full count) (hloop : s.phase.InLoop) :
    s.scales (Settings.of none drainTimeout) (0.0 : L) = true ↔
      ¬ s.Holds count (.select s.now (.tick (0.0 : L) spawned)) := by
  rw [scales_iff]
  change decideScale s.active (0.0 : L) .default ≠ s.active ∧
    (ScalingPolicy.default : ScalingPolicy L).cooldown ≤ s.now - s.lastScale ↔ _
  rw [(h.fixed hloop).1, Ne, decideScale_noLoad_eq_iff]
  unfold Holds
  rw [not_or, Nat.not_lt]

/-- Without load a tick that scales stops a worker. -/
theorem active_tick (spawned : Nat → Bool) (hcount : 1 ≤ s.active)
    (hscales : s.scales (Settings.of none drainTimeout) (0.0 : L) = true) :
    (s.tick (Settings.of none drainTimeout) (0.0 : L) spawned).active = s.active - 1 := by
  have hless : decideScale s.active (0.0 : L) (Settings.of none drainTimeout).policy < s.active :=
    Nat.lt_of_le_of_ne (decideScale_noLoad_le hcount) (scales_iff.mp hscales).1
  unfold tick
  dsimp only
  rw [if_pos hscales, if_neg (Nat.not_lt.mpr (Nat.le_of_lt hless))]
  refine (active_scaleDown { s with lastScale := s.now, scalings := _ } _).trans ?_
  change s.active - min (s.active - decideScale s.active (0.0 : L) .default) 1 = s.active - 1
  exact congrArg (s.active - ·) (Nat.min_eq_right (Nat.sub_pos_of_lt hless))

/-- A turn of `select!` keeps the slots full exactly when it is held. -/
theorem select {branch : Branch L} {cancelled : Bool} (h : s.Full count)
    (hphase : s.phase = .selecting cancelled) (hcount : 1 ≤ count)
    (hsmooth : (Event.select s.now branch).Smooth) (hload : (Event.select s.now branch).NoLoad)
    (hselect : s.select (Settings.of none drainTimeout) cancelled branch = some t) :
    (s.Holds count (.select s.now branch) → t.Full count) ∧
      (t.Fixed count → s.Holds count (.select s.now branch)) := by
  have hloop : s.phase.InLoop := .inl ⟨cancelled, hphase⟩
  cases branch with
  | exited wait waited respawned =>
    obtain ⟨rfl, rfl⟩ := hsmooth
    obtain ⟨slot, pid, hwait, hended, rfl⟩ := select_exited.mp hselect
    exact ⟨fun _ => h.exited hloop hwait (hended rfl), fun _ => trivial⟩
  | joinError wait => exact hsmooth.elim
  | noChildren =>
    obtain ⟨-, rfl⟩ := select_noChildren.mp hselect
    rw [h.uncancelled]
    exact ⟨fun _ => h.frame (h.order.frame rfl rfl (List.Subset.refl _) rfl rfl) rfl rfl rfl
      h.uncancelled.symm (.inr ⟨hloop, .inr rfl⟩), fun _ => trivial⟩
  | shutdown => exact hsmooth.elim
  | signal => exact hsmooth.elim
  | tick load spawned =>
    obtain ⟨-, rfl⟩ := select_tick.mp hselect
    obtain rfl : load = 0.0 := hload
    have hactive := (h.fixed hloop).1
    by_cases hscales : s.scales (Settings.of none drainTimeout) (0.0 : L) = true
    · refine ⟨fun hholds => ((h.scales_iff_not_holds hloop).mp hscales hholds).elim,
        fun hfixed => ?_⟩
      have hsame := (hfixed (.inr rfl)).1
      have hless := active_tick spawned (hactive ▸ hcount) hscales
      change (s.tick (Settings.of none drainTimeout) (0.0 : L) spawned).active = count at hsame
      omega
    · rw [tick_of_not_scales hscales]
      exact ⟨fun _ => h.frame (h.order.frame rfl rfl (List.Subset.refl _) rfl rfl) rfl rfl rfl rfl
        (.inr ⟨hloop, .inr rfl⟩),
        fun _ => not_not.mp (mt (h.scales_iff_not_holds hloop).mpr hscales)⟩

theorem step {e : Event L} (h : s.Full count) (hcount : 1 ≤ count) (hsmooth : e.Smooth)
    (hload : e.NoLoad) (hstep : s.Step (Settings.of none drainTimeout) e t) :
    (s.Holds count e → t.Full count) ∧ (t.Fixed count → s.Holds count e) := by
  cases e with
  | exits pid =>
    obtain ⟨-, rfl⟩ := step_exits.mp hstep
    have horder := h.order.frame (t := { s with alive := s.alive.filter fun other => other ≠ pid })
      rfl rfl List.filter_sublist.subset rfl rfl
    exact ⟨fun _ => h.frame horder rfl rfl rfl rfl (.inl rfl), fun _ => trivial⟩
  | cancel => exact hsmooth.elim
  | launch spawned =>
    obtain ⟨remaining, hphase, rfl⟩ := step_launch.mp hstep
    rw [show spawned = true from hsmooth]
    exact ⟨fun _ => h.launch hphase, fun _ => trivial⟩
  | install time installed =>
    obtain ⟨hphase, -, rfl⟩ := step_install.mp hstep
    rw [show installed = true from hsmooth]
    exact ⟨fun _ => (h.atTime _).install hphase, fun _ => trivial⟩
  | select time branch =>
    obtain ⟨cancelled, hphase, -, hselect⟩ := step_select.mp hstep
    exact ((h.atTime time).select hphase hcount hsmooth hload hselect :)
  | check time =>
    obtain ⟨hphase, -, rfl⟩ := step_check.mp hstep
    exact ⟨fun _ => (h.atTime _).check hphase, fun _ => trivial⟩

end Full

/-! ## Runs -/

/-- A step of a run without a policy, before shutdown and without errors. -/
def Unscaled (drainTimeout : Nat) (s : Supervisor) (e : Event L) (t : Supervisor) : Prop :=
  e.NoLoad ∧ Governs (Settings.of none drainTimeout) s e t

instance (s : Supervisor) : ∀ e : Event L, Decidable (s.Holds count e)
  | .select _ (.tick ..) => inferInstanceAs (Decidable (_ ∨ _))
  | .exits _ | .cancel | .launch _ | .install .. | .check _ | .select _ (.exited ..)
  | .select _ (.joinError _) | .select _ .noChildren | .select _ .shutdown | .select _ .signal =>
    .isTrue trivial

theorem unscaled_replay (es : List (Event L)) (h : ∀ e ∈ es, e.NoLoad ∧ e.Smooth) :
    Along (Unscaled drainTimeout) s (replay (exec (Settings.of none drainTimeout)) s es) := by
  refine (along_replay_labels (exec (Settings.of none drainTimeout)) s es h).imp ?_
  exact fun s e t ⟨⟨hload, hsmooth⟩, hexec⟩ => ⟨hload, hsmooth, exec_ok.mp hexec⟩

/-- A worker crashes, and a tick comes before the clock has run for a cooldown. -/
def soonAfterBoot : List (Event ℚ) :=
  [.launch true, .launch true, .install (10 * second) true, .exits 1,
    .select (11 * second) (.exited 1 true true), .check (11 * second),
    .select (12 * second) (.tick 0.0 fun _ => true), .check (12 * second)]

/-- The first tick. -/
def firstTick : List (Event ℚ) :=
  [.launch true, .launch true, .install (20 * second) true,
    .select (20 * second) (.tick 0.0 fun _ => true)]

end Supervisor

end JustApi.Cli.Workers
