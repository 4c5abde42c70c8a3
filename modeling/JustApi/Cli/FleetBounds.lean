import JustApi.Cli.SlotOrder

/-! # The size of the fleet

Before shutdown, when nothing goes wrong, the supervisor keeps as many workers as its
policy allows, each in a slot of its own. -/
namespace JustApi.Cli.Workers

open Lib.Run

/-- A step before shutdown, without an error of a wait or of a spawn. -/
def Event.Smooth {L : Type} : Event L → Prop
  | .exits _ | .select _ .noChildren | .check _ => True
  | .launch spawned => spawned = true
  | .install _ installed => installed = true
  | .select _ (.exited _ waited respawned) => waited = true ∧ respawned = true
  | .select _ (.tick _ spawned) => ∀ worker, spawned worker = true
  | .cancel | .select _ (.joinError _) | .select _ .shutdown | .select _ .signal => False

namespace Supervisor

variable {s t : Supervisor} {slot other : Nat} {pid : Pid}

/-! ## Decisions -/

theorem clamp_mem {n low high : Nat} (h : low ≤ high) :
    low ≤ clamp n low high ∧ clamp n low high ≤ high := by
  unfold clamp
  split
  · exact ⟨Nat.le_refl _, h⟩
  · split <;> omega

theorem clamp_near {n low high current step : Nat} (hlow : low ≤ current) (hhigh : current ≤ high)
    (hup : n ≤ current + step) (hdown : current ≤ n + step) :
    clamp n low high ≤ current + step ∧ current ≤ clamp n low high + step := by
  unfold clamp
  split
  · omega
  · split <;> omega

variable {L : Type} {policy : ScalingPolicy L}

section Decision

variable [Load L]

theorem decideScale_mem (current : Nat) (load : L) (h : policy.minWorkers ≤ policy.maxWorkers) :
    policy.minWorkers ≤ decideScale current load policy ∧
      decideScale current load policy ≤ policy.maxWorkers := clamp_mem h

theorem decideScale_near {current : Nat} (load : L) (hmin : policy.minWorkers ≤ current)
    (hmax : current ≤ policy.maxWorkers) :
    decideScale current load policy ≤ current + policy.step ∧
      current ≤ decideScale current load policy + policy.step := by
  refine clamp_near hmin hmax ?_ ?_ <;> split
  · omega
  · split <;> omega
  · omega
  · split <;> omega

end Decision

/-! ## The bounds of the policy -/

/-- The scaling actions are at least a cooldown apart, and each small. -/
structure Paced (policy : ScalingPolicy L) (s : Supervisor) : Prop where
  apart : s.scalings.Pairwise fun later earlier => earlier.time + policy.cooldown ≤ later.time
  small : ∀ scaling ∈ s.scalings, scaling.desired ≤ scaling.active + policy.step ∧
    scaling.active ≤ scaling.desired + policy.step

/-- What holds of the fleet before shutdown, when nothing goes wrong. -/
structure WithinPolicy (policy : ScalingPolicy L) (s : Supervisor) : Prop where
  bounds : s.phase.InLoop → policy.minWorkers ≤ s.active ∧ s.active ≤ policy.maxWorkers
  placed : ∀ pid ∈ s.alive, ∃! slot : Nat, s.pids[slot]? = some (some pid)
  waited : ∀ (slot : Nat) (pid : Pid), s.pids[slot]? = some (some pid) → (slot, pid) ∈ s.waits
  marked : ∀ slot ∈ s.stopping, s.occupied slot = true
  paced : s.Paced policy

/-- When the wait for a worker is over, a stopped worker leaves its slot empty and nothing
is spawned; any other is followed by a new process in its slot. -/
def Restarts (s : Supervisor) (e : Event L) (t : Supervisor) : Prop :=
  match e with
  | .select _ (.exited wait _ _) =>
    ∀ entry ∈ s.waits[wait]?,
      if entry.1 ∈ s.stopping then
        t.pids[entry.1]? = some none ∧ entry.1 ∉ t.stopping ∧ t.alive = s.alive
      else
        t.pids[entry.1]? = some (some s.nextPid) ∧ s.nextPid ∉ s.alive ∧
          t.alive = s.nextPid :: s.alive
  | _ => True

/-- The invariant of the supervisor before shutdown. -/
structure Governed (policy : ScalingPolicy L) (count : Nat) (s : Supervisor) : Prop where
  order : s.InOrder
  undrained : s.drainDeadline = none
  uncancelled : s.cancelled = false
  starting : ∀ remaining, s.phase = .starting remaining →
    s.active + remaining = count ∧ s.scalings = []
  bounds : s.phase.InLoop → policy.minWorkers ≤ s.active ∧ s.active ≤ policy.maxWorkers
  past : ∀ scaling ∈ s.scalings, scaling.time ≤ s.lastScale
  scaled : s.lastScale ≤ s.now
  paced : s.Paced policy

theorem Governed.withinPolicy {count : Nat} (h : s.Governed policy count) :
    s.WithinPolicy policy := by
  refine ⟨h.bounds, fun pid hpid => ?_, h.order.waited, h.order.marked, h.paced⟩
  obtain ⟨slot, hslot⟩ := h.order.tracked.watched pid hpid
  have hplaced := h.order.tracked.placed slot pid hslot
  exact ⟨slot, hplaced, fun other hother => h.order.sole slot other pid hplaced hother⟩

/-! ## Steps -/

variable {settings : Settings L} {count wait time : Nat}

theorem exited_of_marked {waited respawned : Bool} (hmarked : slot ∈ s.stopping) :
    s.exited wait slot waited respawned =
      { s with
        pids := s.pids.set slot none
        waits := s.waits.eraseIdx wait
        stopping := s.stopping.filter fun other => other ≠ slot
        phase := .selecting s.cancelled } := by
  unfold exited
  exact if_pos hmarked

theorem exited_of_unmarked (hmarked : slot ∉ s.stopping) (hcancelled : s.cancelled = false) :
    s.exited wait slot true true =
      { { s with pids := s.pids.set slot none, waits := s.waits.eraseIdx wait }.spawnInto slot with
        phase := .checking } := by
  unfold exited
  simp only [if_neg hmarked, hcancelled]
  rfl

namespace InOrder

theorem exited (h : s.InOrder) (hwait : s.waits[wait]? = some (slot, pid)) (hended : pid ∉ s.alive)
    (hcancelled : s.cancelled = false) : (s.exited wait slot true true).InOrder := by
  have hreap := h.reap hwait hended
  by_cases hmarked : slot ∈ s.stopping
  · rw [exited_of_marked hmarked]
    exact hreap.frame rfl rfl (List.Subset.refl _) rfl rfl
  · rw [exited_of_unmarked hmarked hcancelled]
    have hfilter : (s.stopping.filter fun other => other ≠ slot) = s.stopping := by
      refine List.filter_eq_self.mpr fun other hother => ?_
      simpa using ne_of_mem_of_not_mem hother hmarked
    rw [hfilter] at hreap
    have hslot := h.tracked.placed slot pid (List.mem_of_getElem? hwait)
    have hempty : (s.pids.set slot none)[slot]? = some none :=
      List.getElem?_set_self (List.getElem?_eq_some_iff.mp hslot).1
    exact (hreap.spawnInto hempty).frame rfl rfl (List.Subset.refl _) rfl rfl

theorem active_exited (h : s.InOrder) (hwait : s.waits[wait]? = some (slot, pid))
    (hcancelled : s.cancelled = false) : (s.exited wait slot true true).active = s.active := by
  obtain ⟨hlt, hslot⟩ :=
    List.getElem?_eq_some_iff.mp (h.tracked.placed slot pid (List.mem_of_getElem? hwait))
  refine active_congr fun other => ?_
  by_cases hmarked : slot ∈ s.stopping
  · rw [exited_of_marked hmarked]
    by_cases hother : other = slot
    · subst hother
      simp [working, occupied, hlt, hmarked]
    · simp [working, occupied, hother, List.getElem?_set_ne (Ne.symm hother)]
  · rw [exited_of_unmarked hmarked hcancelled]
    by_cases hother : other = slot
    · subst hother
      simp [working, occupied, Supervisor.spawnInto, hlt, hslot]
    · simp [working, occupied, Supervisor.spawnInto, List.getElem?_set_ne (Ne.symm hother)]

end InOrder

/-- The shutdown, the clock and the scaling actions are the same. -/
structure SameBooks (s t : Supervisor) : Prop where
  drainDeadline : t.drainDeadline = s.drainDeadline
  cancelled : t.cancelled = s.cancelled
  lastScale : t.lastScale = s.lastScale
  scalings : t.scalings = s.scalings
  now : t.now = s.now

theorem sameBooks_scaleUp (spawned : Nat → Bool) (toAdd : Nat) :
    s.SameBooks (s.scaleUp spawned toAdd) := by
  refine scaleUp_induction (P := s.SameBooks) ?_ ?_ spawned toAdd ⟨rfl, rfl, rfl, rfl, rfl⟩
  · exact fun _ h => ⟨h.1, h.2, h.3, h.4, h.5⟩
  · exact fun _ _ h _ => ⟨h.1, h.2, h.3, h.4, h.5⟩

theorem sameBooks_scaleDown (slots : List Nat) (toRemove : Nat) :
    s.SameBooks (scaleDown slots toRemove s) := by
  refine scaleDown_induction (P := s.SameBooks) ?_ slots toRemove ⟨rfl, rfl, rfl, rfl, rfl⟩
  exact fun _ _ h _ => ⟨h.1, h.2, h.3, h.4, h.5⟩

theorem check_of_undrained (h : s.drainDeadline = none) :
    s.check = { s with phase := .selecting s.cancelled } := by
  unfold check
  split
  · rfl
  · cases h.symm.trans ‹_›

namespace Governed

theorem start (policy : ScalingPolicy L) (count time : Nat) :
    (start count time).Governed policy count := by
  have hphase : ∀ remaining, (Supervisor.start count time).phase = .starting remaining →
      remaining = count := by
    intro remaining h
    unfold Supervisor.start at h
    dsimp only at h
    split at h <;> cases h
    rfl
  refine ⟨.start count time, rfl, rfl, fun remaining h => ⟨?_, rfl⟩, fun h => ?_,
    fun _ h => (List.not_mem_nil h).elim, Nat.zero_le _,
    ⟨List.Pairwise.nil, fun _ h => (List.not_mem_nil h).elim⟩⟩
  · rw [hphase remaining h]
    exact Nat.zero_add count
  · unfold Supervisor.start Phase.InLoop at h
    dsimp only at h
    split at h <;> simp at h

/-- A step that scales nothing keeps the invariant as long as it keeps the slots in order
and the number of workers. -/
theorem frame (h : s.Governed policy count) (horder : t.InOrder)
    (hactive : t.active = s.active) (hdeadline : t.drainDeadline = s.drainDeadline)
    (hcancelled : t.cancelled = s.cancelled) (hlast : t.lastScale = s.lastScale)
    (hscalings : t.scalings = s.scalings) (hnow : s.now ≤ t.now)
    (hphase : t.phase = s.phase ∨ s.phase.InLoop ∧ t.phase.InLoop) :
    t.Governed policy count := by
  refine ⟨horder, hdeadline.trans h.undrained, hcancelled.trans h.uncancelled, ?_, ?_, ?_, ?_, ?_⟩
  · intro remaining hremaining
    rcases hphase with hphase | ⟨-, hphase⟩
    · rw [hactive, hscalings]
      exact h.starting remaining (hphase.symm.trans hremaining)
    · rw [hremaining] at hphase
      rcases hphase with ⟨_, hphase⟩ | hphase <;> cases hphase
  · intro hloop
    rw [hactive]
    rcases hphase with hphase | ⟨hphase, -⟩
    · exact h.bounds (hphase ▸ hloop)
    · exact h.bounds hphase
  · rw [hscalings, hlast]
    exact h.past
  · rw [hlast]
    exact h.scaled.trans hnow
  · exact ⟨hscalings ▸ h.paced.apart, hscalings ▸ h.paced.small⟩

theorem launch {remaining : Nat} (h : s.Governed policy count)
    (hphase : s.phase = .starting (remaining + 1)) :
    (s.launch remaining true).Governed policy count := by
  obtain ⟨hcount, hscalings⟩ := h.starting _ hphase
  have hfree : { s with pids := s.pids ++ [none] }.pids[s.pids.length]? = some none := by simp
  refine ⟨(h.order.grow.spawnInto hfree).frame rfl rfl (List.Subset.refl _) rfl rfl, h.undrained,
    h.uncancelled, fun other hother => ⟨?_, hscalings⟩, fun hloop => ?_, h.past, h.scaled,
    ⟨h.paced.apart, h.paced.small⟩⟩
  · cases hother
    have hactive := h.order.grow.active_spawnInto hfree
    rw [active_grow] at hactive
    change ({ s with pids := s.pids ++ [none] }.spawnInto s.pids.length).active + remaining = count
    omega
  · rcases hloop with ⟨_, hloop⟩ | hloop <;> cases hloop

theorem install (h : s.Governed settings.policy count) (hphase : s.phase = .starting 0)
    (hmin : settings.policy.minWorkers ≤ count) (hmax : count ≤ settings.policy.maxWorkers) :
    (s.install settings true).Governed settings.policy count := by
  obtain ⟨hcount, hscalings⟩ := h.starting 0 hphase
  refine ⟨h.order.frame rfl rfl (List.Subset.refl _) rfl rfl, h.undrained, h.uncancelled,
    fun _ h => (nomatch h), fun _ => ?_, fun scaling hscaling => ?_, ?_,
    ⟨h.paced.apart, h.paced.small⟩⟩
  · change settings.policy.minWorkers ≤ s.active ∧ s.active ≤ settings.policy.maxWorkers
    omega
  · change scaling ∈ s.scalings at hscaling
    rw [hscalings] at hscaling
    exact (List.not_mem_nil hscaling).elim
  · change (if settings.policy.cooldown ≤ s.now then s.now - settings.policy.cooldown else s.now) ≤
      s.now
    split <;> omega

theorem atTime (h : s.Governed policy count)
    (htime : s.now ≤ time) : { s with now := time }.Governed policy count :=
  h.frame (h.order.frame rfl rfl (List.Subset.refl _) rfl rfl) rfl rfl rfl rfl rfl htime (.inl rfl)

theorem check (h : s.Governed policy count)
    (hphase : s.phase = .checking) : s.check.Governed policy count := by
  rw [check_of_undrained h.undrained]
  exact h.frame (h.order.frame rfl rfl (List.Subset.refl _) rfl rfl) rfl rfl rfl rfl rfl
    (Nat.le_refl _) (.inr ⟨.inr hphase, .inl ⟨_, rfl⟩⟩)

end Governed

section Policy

variable [Load L]

theorem scales_iff {load : L} :
    s.scales settings load = true ↔
      decideScale s.active load settings.policy ≠ s.active ∧
        settings.policy.cooldown ≤ s.now - s.lastScale := by
  simp [scales]

theorem tick_of_not_scales {load : L} {spawned : Nat → Bool} (h : ¬ s.scales settings load = true) :
    s.tick settings load spawned = s := if_neg h

/-- A tick that scales brings the fleet to the wanted size. -/
theorem tick_of_scales {load : L} {spawned : Nat → Bool} (h : s.InOrder)
    (hspawned : ∀ worker, spawned worker = true) (hmin : settings.policy.minWorkers ≤ s.active)
    (hmax : s.active ≤ settings.policy.maxWorkers) (hscales : s.scales settings load = true) :
    (s.tick settings load spawned).InOrder ∧
      (s.tick settings load spawned).active = decideScale s.active load settings.policy ∧
      { s with
        lastScale := s.now
        scalings := ⟨s.now, s.active, decideScale s.active load settings.policy⟩ :: s.scalings
        }.SameBooks (s.tick settings load spawned) := by
  obtain ⟨hup, hdown⟩ := decideScale_near load hmin hmax
  have hlogged := fun scalings =>
    h.frame (t := { s with lastScale := s.now, scalings }) rfl rfl (List.Subset.refl _) rfl rfl
  unfold tick
  dsimp only
  rw [if_pos hscales]
  split
  · refine ⟨(hlogged _).scaleUp _ _, ?_, sameBooks_scaleUp _ _⟩
    rw [(hlogged _).active_scaleUp hspawned]
    change s.active + _ = _
    omega
  · refine ⟨(hlogged _).scaleDown _ _, ?_, sameBooks_scaleDown _ _⟩
    refine (active_scaleDown { s with lastScale := s.now, scalings := _ } _).trans ?_
    change s.active - _ = _
    omega

namespace Governed

theorem tick {load : L} {spawned : Nat → Bool} (h : s.Governed settings.policy count)
    (hloop : s.phase.InLoop) (hspawned : ∀ worker, spawned worker = true) :
    { s.tick settings load spawned with phase := .checking }.Governed settings.policy count := by
  obtain ⟨hmin, hmax⟩ := h.bounds hloop
  by_cases hscales : s.scales settings load = true
  · obtain ⟨horder, hactive, hbooks⟩ := tick_of_scales h.order hspawned hmin hmax hscales
    obtain ⟨-, hcooldown⟩ := scales_iff.mp hscales
    have hscaled := h.scaled
    refine ⟨horder.frame rfl rfl (List.Subset.refl _) rfl rfl,
      hbooks.drainDeadline.trans h.undrained,
      hbooks.cancelled.trans h.uncancelled, fun _ h => (nomatch h), fun _ => ?_, ?_, ?_, ?_, ?_⟩
    · change settings.policy.minWorkers ≤ (s.tick settings load spawned).active ∧
        (s.tick settings load spawned).active ≤ settings.policy.maxWorkers
      rw [hactive]
      exact decideScale_mem s.active load (hmin.trans hmax)
    · change ∀ scaling ∈ (s.tick settings load spawned).scalings,
        scaling.time ≤ (s.tick settings load spawned).lastScale
      rw [hbooks.scalings, hbooks.lastScale]
      intro scaling hscaling
      rcases List.mem_cons.mp hscaling with rfl | hscaling
      · exact Nat.le_refl _
      · exact (h.past scaling hscaling).trans hscaled
    · exact (Nat.le_of_eq hbooks.lastScale).trans (Nat.le_of_eq hbooks.now.symm)
    · change (s.tick settings load spawned).scalings.Pairwise _
      rw [hbooks.scalings]
      refine List.Pairwise.cons (fun scaling hscaling => ?_) h.paced.apart
      have hpast := h.past scaling hscaling
      change scaling.time + settings.policy.cooldown ≤ s.now
      omega
    · change ∀ scaling ∈ (s.tick settings load spawned).scalings, _
      rw [hbooks.scalings]
      intro scaling hscaling
      rcases List.mem_cons.mp hscaling with rfl | hscaling
      · exact decideScale_near load hmin hmax
      · exact h.paced.small scaling hscaling
  · rw [tick_of_not_scales hscales]
    exact h.frame (h.order.frame rfl rfl (List.Subset.refl _) rfl rfl) rfl rfl rfl rfl rfl
      (Nat.le_refl _) (.inr ⟨hloop, .inr rfl⟩)

theorem select {branch : Branch L} {cancelled : Bool} (h : s.Governed settings.policy count)
    (hphase : s.phase = .selecting cancelled) (hsmooth : (Event.select time branch).Smooth)
    (hselect : s.select settings cancelled branch = some t) :
    t.Governed settings.policy count ∧ s.Restarts (.select time branch) t := by
  have hloop : s.phase.InLoop := .inl ⟨cancelled, hphase⟩
  cases branch with
  | exited wait waited respawned =>
    obtain ⟨rfl, rfl⟩ := hsmooth
    obtain ⟨slot, pid, hwait, hended, rfl⟩ := select_exited.mp hselect
    have horder := h.order.exited hwait (hended rfl) h.uncancelled
    have hactive := h.order.active_exited hwait h.uncancelled
    have hslot := h.order.tracked.placed slot pid (List.mem_of_getElem? hwait)
    have hempty := List.getElem?_set_self (a := (none : Option Pid))
      (List.getElem?_eq_some_iff.mp hslot).1
    by_cases hmarked : slot ∈ s.stopping
    · rw [exited_of_marked hmarked] at horder hactive ⊢
      refine ⟨h.frame horder hactive rfl rfl rfl rfl (Nat.le_refl _) (.inr ⟨hloop, .inl ⟨_, rfl⟩⟩),
        fun entry hentry => ?_⟩
      cases hwait.symm.trans hentry
      rw [if_pos hmarked]
      exact ⟨hempty, by simp, rfl⟩
    · rw [exited_of_unmarked hmarked h.uncancelled] at horder hactive ⊢
      refine ⟨h.frame horder hactive rfl rfl rfl rfl (Nat.le_refl _) (.inr ⟨hloop, .inr rfl⟩),
        fun entry hentry => ?_⟩
      cases hwait.symm.trans hentry
      rw [if_neg hmarked]
      refine ⟨List.getElem?_set_self (List.getElem?_eq_some_iff.mp hempty).1, fun hnext => ?_, rfl⟩
      obtain ⟨other, hother⟩ := h.order.tracked.watched _ hnext
      exact Nat.lt_irrefl _ (h.order.fresh other _ (h.order.tracked.placed other _ hother))
  | joinError wait => exact hsmooth.elim
  | noChildren =>
    obtain ⟨-, rfl⟩ := select_noChildren.mp hselect
    rw [h.uncancelled]
    exact ⟨h.frame (h.order.frame rfl rfl (List.Subset.refl _) rfl rfl) rfl rfl h.uncancelled.symm
      rfl rfl (Nat.le_refl _) (.inr ⟨hloop, .inr rfl⟩), trivial⟩
  | shutdown => exact hsmooth.elim
  | signal => exact hsmooth.elim
  | tick load spawned =>
    obtain ⟨-, rfl⟩ := select_tick.mp hselect
    exact ⟨h.tick hloop hsmooth, trivial⟩

theorem step {e : Event L} (h : s.Governed settings.policy count)
    (hmin : settings.policy.minWorkers ≤ count) (hmax : count ≤ settings.policy.maxWorkers)
    (hsmooth : e.Smooth) (hstep : s.Step settings e t) :
    t.Governed settings.policy count ∧ s.Restarts e t := by
  cases e with
  | exits pid =>
    obtain ⟨-, rfl⟩ := step_exits.mp hstep
    have horder := h.order.frame (t := { s with alive := s.alive.filter fun other => other ≠ pid })
      rfl rfl List.filter_sublist.subset rfl rfl
    exact ⟨h.frame horder rfl rfl rfl rfl rfl (Nat.le_refl _) (.inl rfl), trivial⟩
  | cancel => exact hsmooth.elim
  | launch spawned =>
    obtain ⟨remaining, hphase, rfl⟩ := step_launch.mp hstep
    rw [show spawned = true from hsmooth]
    exact ⟨h.launch hphase, trivial⟩
  | install time installed =>
    obtain ⟨hphase, htime, rfl⟩ := step_install.mp hstep
    rw [show installed = true from hsmooth]
    exact ⟨(h.atTime htime).install hphase hmin hmax, trivial⟩
  | select time branch =>
    obtain ⟨cancelled, hphase, htime, hselect⟩ := step_select.mp hstep
    exact ((h.atTime htime).select hphase hsmooth hselect :)
  | check time =>
    obtain ⟨hphase, htime, rfl⟩ := step_check.mp hstep
    exact ⟨(h.atTime htime).check hphase, trivial⟩

end Governed

/-! ## Runs -/

/-- A step of a run before shutdown without errors. -/
def Governs (settings : Settings L) (s : Supervisor) (e : Event L) (t : Supervisor) : Prop :=
  e.Smooth ∧ s.Step settings e t

/-- For any policy whose bounds the count is in, a run before shutdown without errors keeps
the fleet within the policy, and restarts the workers that were not to stop. -/
theorem fleet_within_policy (policy : ScalingPolicy L) (drainTimeout count time : Nat)
    (tr : List (Event L × Supervisor)) (hmin : policy.minWorkers ≤ count)
    (hmax : count ≤ policy.maxWorkers)
    (hrun : Along (Governs (Settings.of (some policy) drainTimeout))
      (Supervisor.start count time) tr) :
    (∀ t ∈ visited (Supervisor.start count time) tr, t.WithinPolicy policy) ∧
      Along Restarts (Supervisor.start count time) tr := by
  have hstep : ∀ s e t, s.Governed policy count →
      Governs (Settings.of (some policy) drainTimeout) s e t →
      t.Governed policy count ∧ s.Restarts e t :=
    fun s e t h ⟨hsmooth, hstep⟩ => h.step hmin hmax hsmooth hstep
  have hstart := Governed.start policy count time
  constructor
  · intro t ht
    exact (hrun.invariant (fun s e t h hstep' => (hstep s e t h hstep').1) hstart t ht).withinPolicy
  · exact hrun.of_invariant hstep hstart

end Policy

/-- Between one and three workers. -/
def upToThree : ScalingPolicy ℚ := ⟨1, 3, 0.3, 0.7, 10 * second, 1⟩

/-- A worker crashes, the other is stopped by a tick, and a later tick adds one again. -/
def upAndDown : List (Event ℚ) :=
  [.launch true, .launch true, .install (20 * second) true, .exits 0,
    .select (20 * second) (.exited 0 true true), .check (20 * second),
    .select (21 * second) (.tick 0.1 fun _ => true), .check (21 * second), .exits 1,
    .select (22 * second) (.exited 0 true true),
    .select (31 * second) (.tick 0.9 fun _ => true), .check (31 * second)]

theorem governs_upAndDown :
    Along (Governs (Settings.of (some upToThree) 0)) (Supervisor.start 2 0)
      (replay (exec (Settings.of (some upToThree) 0)) (Supervisor.start 2 0) upAndDown) := by
  have hsmooth : ∀ e ∈ upAndDown, e.Smooth := by simp [upAndDown, Event.Smooth]
  refine (along_replay_labels (exec (Settings.of (some upToThree) 0)) _ _ hsmooth).imp ?_
  exact fun s e t ⟨hsmooth, hexec⟩ => ⟨hsmooth, exec_ok.mp hexec⟩

theorem fleet_within_policy_upAndDown :
    ((final (exec (Settings.of (some upToThree) 0)) (Supervisor.start 2 0) upAndDown).WithinPolicy
      upToThree) ∧
    (final (exec (Settings.of (some upToThree) 0)) (Supervisor.start 2 0) upAndDown).active = 2 :=
  ⟨(fleet_within_policy upToThree 0 2 0 _ (by decide) (by decide) governs_upAndDown).1 _
    (final_mem_visited _ _ _), by decide +kernel⟩

end Supervisor

end JustApi.Cli.Workers
