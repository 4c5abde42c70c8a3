import JustApi.Cli.SlotTable

/-! # Workers that outlive the supervisor

The supervisor may return with workers still running: from the middle when one cannot be
spawned, and from the drain when what remains is in slots that it has marked as stopping. -/
namespace JustApi.Cli.Workers.Supervisor

open Lib.Run

variable {L : Type} [Load L] {settings : Settings L}
variable {s t : Supervisor} {slot time wait : Nat} {pid : Pid} {cancelled : Bool}

/-! ## What steps keep -/

namespace Tracked

theorem atTime (h : s.Tracked) (time : Nat) : { s with now := time }.Tracked :=
  h.frame rfl rfl (List.Subset.refl _)

theorem launch (h : s.Tracked) (remaining : Nat) (spawned : Bool) :
    (s.launch remaining spawned).Tracked := by
  unfold Supervisor.launch
  split
  · exact (h.grow.spawnInto (by simp)).frame rfl rfl (List.Subset.refl _)
  · exact h.frame rfl rfl (List.Subset.refl _)

omit [Load L] in
theorem install (h : s.Tracked) (installed : Bool) : (s.install settings installed).Tracked := by
  unfold Supervisor.install
  split <;> exact h.frame rfl rfl (List.Subset.refl _)

theorem tick (h : s.Tracked) (load : L) (spawned : Nat → Bool) :
    (s.tick settings load spawned).Tracked := by
  unfold Supervisor.tick
  dsimp only
  split
  · split
    · refine scaleUp_induction (fun _ h => h.grow) (fun _ _ h hfree => h.spawnInto hfree) _ _ ?_
      exact h.frame rfl rfl (List.Subset.refl _)
    · refine scaleDown_induction (fun _ _ h _ => h.frame rfl rfl (List.Subset.refl _)) _ _ ?_
      exact h.frame rfl rfl (List.Subset.refl _)
  · exact h

theorem exited (h : s.Tracked) (hwait : s.waits[wait]? = some (slot, pid)) (hended : pid ∉ s.alive)
    (waited respawned : Bool) : (s.exited wait slot waited respawned).Tracked := by
  have hreap := h.reap hwait hended
  have hslot := h.placed slot pid (List.mem_of_getElem? hwait)
  unfold Supervisor.exited
  dsimp only
  split
  · exact hreap.frame rfl rfl (List.Subset.refl _)
  · split
    · split
      · refine (hreap.spawnInto ?_).frame rfl rfl (List.Subset.refl _)
        exact List.getElem?_set_self (List.getElem?_eq_some_iff.mp hslot).1
      · exact hreap.frame rfl rfl (List.Subset.refl _)
    · exact hreap.frame rfl rfl (List.Subset.refl _)

theorem select {branch : Branch L} (h : s.Tracked) (hended : s.Ended (.select time branch))
    (hselect : s.select settings cancelled branch = some t) : t.Tracked := by
  cases branch with
  | exited wait waited respawned =>
    obtain ⟨slot, pid, hwait, -, rfl⟩ := select_exited.mp hselect
    exact h.exited hwait (hended wait rfl (slot, pid) hwait) waited respawned
  | joinError wait =>
    obtain ⟨hlt, rfl⟩ := select_joinError.mp hselect
    have hwait := List.getElem?_eq_getElem hlt
    exact (h.forget hwait (hended wait rfl _ hwait)).frame rfl rfl (List.Subset.refl _)
  | noChildren =>
    obtain ⟨-, rfl⟩ := select_noChildren.mp hselect
    exact h.frame rfl rfl (List.Subset.refl _)
  | shutdown =>
    obtain ⟨-, rfl⟩ := select_shutdown.mp hselect
    exact h.frame rfl rfl (List.Subset.refl _)
  | signal =>
    obtain rfl := select_signal.mp hselect
    exact h.frame rfl rfl (List.Subset.refl _)
  | tick load spawned =>
    obtain ⟨-, rfl⟩ := select_tick.mp hselect
    exact (h.tick load spawned).frame rfl rfl (List.Subset.refl _)

theorem alive_signalKill (h : s.Tracked) : s.signalKill.alive = [] := by
  refine List.filter_eq_nil_iff.mpr fun pid hpid => ?_
  obtain ⟨slot, hslot⟩ := h.watched pid hpid
  simpa using List.mem_of_getElem? (h.placed slot pid hslot)

theorem check (h : s.Tracked) : s.check.Tracked := by
  unfold Supervisor.check
  split
  · exact h.frame rfl rfl (List.Subset.refl _)
  · split
    · exact h.frame rfl rfl (List.Subset.refl _)
    · split
      · refine ⟨fun _ _ hmem => (List.not_mem_nil hmem).elim, List.nodup_nil, fun pid hpid => ?_⟩
        change pid ∈ s.signalKill.alive at hpid
        rw [h.alive_signalKill] at hpid
        exact (List.not_mem_nil hpid).elim
      · exact h.frame rfl rfl (List.Subset.refl _)

end Tracked

theorem Step.tracked {e : Event L} (hstep : s.Step settings e t) (hended : s.Ended e)
    (h : s.Tracked) : t.Tracked := by
  cases e with
  | exits pid =>
    obtain ⟨-, rfl⟩ := step_exits.mp hstep
    exact h.frame rfl rfl (List.filter_sublist.subset)
  | cancel =>
    cases hstep
    exact h.frame rfl rfl (List.Subset.refl _)
  | launch spawned =>
    obtain ⟨remaining, -, rfl⟩ := step_launch.mp hstep
    exact h.launch remaining spawned
  | install time installed =>
    obtain ⟨-, -, rfl⟩ := step_install.mp hstep
    exact (h.atTime time).install installed
  | select time branch =>
    obtain ⟨cancelled, -, -, hselect⟩ := step_select.mp hstep
    exact (h.atTime time).select hended hselect
  | check time =>
    obtain ⟨-, -, rfl⟩ := step_check.mp hstep
    exact (h.atTime time).check

/-! ## Returning -/

/-- Once the supervisor has returned no worker runs. -/
def NoOrphans (s : Supervisor) : Prop := ∀ outcome, s.phase = .returned outcome → s.alive = []

/-- No return leaves a worker behind: no other runs when one cannot be spawned or the
handlers of signals cannot be installed, and none runs in a marked slot when the drain
finds all others empty. -/
def LeavesNone {L : Type} (s : Supervisor) : Event L → Prop
  | .launch spawned => spawned = false → s.alive = []
  | .install _ installed => installed = false → s.alive = []
  | .select _ (.exited wait waited respawned) =>
    waited = true → respawned = false → s.cancelled = false →
      ∀ entry ∈ s.waits[wait]?, entry.1 ∉ s.stopping → s.alive = []
  | .check _ =>
    s.drainDeadline ≠ none → s.allExited = true →
      ∀ slot ∈ s.stopping, ∀ pid ∈ s.alive, s.pids[slot]? ≠ some (some pid)
  | _ => True

instance {L : Type} (s : Supervisor) : ∀ e : Event L, Decidable (s.LeavesNone e)
  | .launch spawned => inferInstanceAs (Decidable (spawned = false → s.alive = []))
  | .install _ installed => inferInstanceAs (Decidable (installed = false → s.alive = []))
  | .select _ (.exited wait waited respawned) => inferInstanceAs (Decidable (waited = true →
    respawned = false → s.cancelled = false →
      ∀ entry ∈ s.waits[wait]?, entry.1 ∉ s.stopping → s.alive = []))
  | .check _ => inferInstanceAs (Decidable (s.drainDeadline ≠ none → s.allExited = true →
    ∀ slot ∈ s.stopping, ∀ pid ∈ s.alive, s.pids[slot]? ≠ some (some pid)))
  | .exits _ | .cancel | .select _ (.joinError _) | .select _ .noChildren | .select _ .shutdown
  | .select _ .signal | .select _ (.tick ..) => .isTrue trivial

theorem NoOrphans.of_phase (h : ∀ outcome, t.phase ≠ .returned outcome) : t.NoOrphans :=
  fun outcome hphase => (h outcome hphase).elim

theorem noOrphans_iff_of_returned {outcome : Outcome} (h : t.phase = .returned outcome) :
    t.NoOrphans ↔ t.alive = [] :=
  ⟨fun ht => ht outcome h, fun ht _ _ => ht⟩

theorem noOrphans_launch (remaining : Nat) (spawned : Bool) :
    (s.launch remaining spawned).NoOrphans ↔ (spawned = false → s.alive = []) := by
  unfold launch
  cases spawned with
  | true => exact iff_of_true (.of_phase fun _ h => nomatch h) (fun h => nomatch h)
  | false => exact (noOrphans_iff_of_returned rfl).trans ⟨fun h _ => h, fun h => h rfl⟩

omit [Load L] in
theorem noOrphans_install (installed : Bool) :
    (s.install settings installed).NoOrphans ↔ (installed = false → s.alive = []) := by
  unfold install
  cases installed with
  | true => exact iff_of_true (.of_phase fun _ h => nomatch h) (fun h => nomatch h)
  | false => exact (noOrphans_iff_of_returned rfl).trans ⟨fun h _ => h, fun h => h rfl⟩

theorem noOrphans_exited (waited respawned : Bool) :
    (s.exited wait slot waited respawned).NoOrphans ↔
      (waited = true → respawned = false → s.cancelled = false → slot ∉ s.stopping →
        s.alive = []) := by
  unfold exited
  dsimp only
  split
  · exact iff_of_true (.of_phase fun _ h => nomatch h) (fun _ _ _ h => (h ‹_›).elim)
  · split
    · rename_i hmarked hrestart
      rw [Bool.and_eq_true, Bool.not_eq_true'] at hrestart
      split
      · refine iff_of_true (.of_phase fun _ h => nomatch h) fun _ h => ?_
        simp_all
      · refine (noOrphans_iff_of_returned rfl).trans ⟨fun h _ _ _ _ => h, fun h => ?_⟩
        exact h hrestart.1 (by simpa using ‹¬respawned = true›) hrestart.2 hmarked
    · refine iff_of_true (.of_phase fun _ h => nomatch h) fun h _ h' => ?_
      simp_all

theorem noOrphans_select {branch : Branch L} (time : Nat) (h : s.Tracked)
    (hselect : s.select settings cancelled branch = some t) :
    t.NoOrphans ↔ s.LeavesNone (.select time branch) := by
  cases branch with
  | exited wait waited respawned =>
    obtain ⟨slot, pid, hwait, -, rfl⟩ := select_exited.mp hselect
    rw [noOrphans_exited]
    constructor
    · intro hempty hw hr hc entry hentry hmarked
      cases hwait.symm.trans hentry
      exact hempty hw hr hc hmarked
    · exact fun hempty hw hr hc hmarked => hempty hw hr hc (slot, pid) hwait hmarked
  | joinError wait =>
    obtain ⟨-, rfl⟩ := select_joinError.mp hselect
    exact iff_of_true (.of_phase fun _ h => nomatch h) trivial
  | noChildren =>
    obtain ⟨hwaits, rfl⟩ := select_noChildren.mp hselect
    refine iff_of_true (fun _ _ => List.eq_nil_iff_forall_not_mem.mpr fun pid hpid => ?_) trivial
    -- a worker that runs would be waited for
    obtain ⟨slot, hslot⟩ := h.watched pid hpid
    rw [hwaits] at hslot
    exact List.not_mem_nil hslot
  | shutdown =>
    obtain ⟨-, rfl⟩ := select_shutdown.mp hselect
    exact iff_of_true (.of_phase fun _ h => nomatch h) trivial
  | signal =>
    obtain rfl := select_signal.mp hselect
    exact iff_of_true (.of_phase fun _ h => nomatch h) trivial
  | tick load spawned =>
    obtain ⟨-, rfl⟩ := select_tick.mp hselect
    exact iff_of_true (.of_phase fun _ h => nomatch h) trivial

/-- When every slot is empty or marked, the workers that run are those in marked slots. -/
theorem Tracked.alive_eq_nil_iff (h : s.Tracked) (hall : s.allExited = true) :
    s.alive = [] ↔ ∀ slot ∈ s.stopping, ∀ pid ∈ s.alive, s.pids[slot]? ≠ some (some pid) := by
  constructor
  · intro hnil _ _ pid hpid
    rw [hnil] at hpid
    exact (List.not_mem_nil hpid).elim
  · intro hmarked
    refine List.eq_nil_iff_forall_not_mem.mpr fun pid hpid => ?_
    obtain ⟨slot, hslot⟩ := h.watched pid hpid
    have hplaced := h.placed slot pid hslot
    have hstop := allExited_iff.mp hall slot (occupied_iff.mpr ⟨pid, hplaced⟩)
    exact hmarked slot hstop pid hpid hplaced

theorem noOrphans_check (h : s.Tracked) :
    s.check.NoOrphans ↔ (s.drainDeadline ≠ none → s.allExited = true →
      ∀ slot ∈ s.stopping, ∀ pid ∈ s.alive, s.pids[slot]? ≠ some (some pid)) := by
  unfold check
  split
  · exact iff_of_true (.of_phase fun _ h => nomatch h) (fun hne => (hne ‹_›).elim)
  · rename_i deadline hdeadline
    have hne : s.drainDeadline ≠ none := fun hnone => nomatch hdeadline.symm.trans hnone
    split
    · rename_i hall
      refine (noOrphans_iff_of_returned rfl).trans ((h.alive_eq_nil_iff hall).trans ?_)
      exact ⟨fun hm _ _ => hm, fun hm => hm hne hall⟩
    · rename_i hall
      split
      · exact iff_of_true (fun _ _ => h.alive_signalKill) (fun _ h => (hall h).elim)
      · exact iff_of_true (.of_phase fun _ h => nomatch h) (fun _ h => (hall h).elim)

theorem Step.noOrphans_iff {e : Event L} (hstep : s.Step settings e t) (h : s.Tracked)
    (hs : s.NoOrphans) : t.NoOrphans ↔ s.LeavesNone e := by
  cases e with
  | exits pid =>
    obtain ⟨-, rfl⟩ := step_exits.mp hstep
    refine iff_of_true (fun outcome hphase => ?_) trivial
    exact List.filter_eq_nil_iff.mpr fun pid hpid => by simp [hs outcome hphase] at hpid
  | cancel =>
    cases hstep
    exact iff_of_true hs trivial
  | launch spawned =>
    obtain ⟨remaining, -, rfl⟩ := step_launch.mp hstep
    exact noOrphans_launch remaining spawned
  | install time installed =>
    obtain ⟨-, -, rfl⟩ := step_install.mp hstep
    exact noOrphans_install installed
  | select time branch =>
    obtain ⟨cancelled, -, -, hselect⟩ := step_select.mp hstep
    exact (noOrphans_select time (h.atTime time) hselect :)
  | check time =>
    obtain ⟨-, -, rfl⟩ := step_check.mp hstep
    exact noOrphans_check (h.atTime time)

/-! ## Runs -/

/-- A step of a run in which no wait ends before its process. -/
def Reaps (settings : Settings L) (s : Supervisor) (e : Event L) (t : Supervisor) : Prop :=
  s.Step settings e t ∧ s.Ended e

instance (s : Supervisor) (e : Event L) (t : Supervisor) : Decidable (Reaps settings s e t) :=
  inferInstanceAs (Decidable (_ ∧ _))

theorem start_noOrphans (count time : Nat) : (start count time).NoOrphans := fun _ _ => rfl

/-- A supervisor leaves no orphans in exactly the runs in which no return leaves one. -/
theorem no_orphans_iff (settings : Settings L) (count time : Nat)
    (tr : List (Event L × Supervisor)) (hrun : Along (Reaps settings) (start count time) tr) :
    (∀ t ∈ visited (start count time) tr, t.NoOrphans) ↔
      Along (fun s e _ => s.LeavesNone e) (start count time) tr := by
  have hkeep : ∀ s e t, s.Tracked ∧ s.NoOrphans → Reaps settings s e t → s.LeavesNone e →
      t.Tracked ∧ t.NoOrphans := by
    rintro s e t ⟨h, hs⟩ ⟨hstep, hended⟩ hleaves
    exact ⟨hstep.tracked hended h, (hstep.noOrphans_iff h hs).mpr hleaves⟩
  have hneed : ∀ s e t, s.Tracked ∧ s.NoOrphans → Reaps settings s e t → t.NoOrphans →
      s.LeavesNone e := by
    rintro s e t ⟨h, hs⟩ ⟨hstep, -⟩ ht
    exact (hstep.noOrphans_iff h hs).mp ht
  exact Along.forall_visited_iff hkeep hneed (fun _ h => h.2)
    ⟨.start count time, start_noOrphans count time⟩ hrun

/-- Two workers are started, and a tick with no load stops the second. -/
def scaledDown : List (Event ℚ) :=
  [.launch true, .launch true, .install (20 * second) true,
    .select (20 * second) (.tick 0 fun _ => true), .check (20 * second)]

/-- The second has exited before the drain; the first exits after it has begun. -/
def drained : List (Event ℚ) :=
  scaledDown ++ [.exits 1, .select (21 * second) (.exited 1 true true), .cancel,
    .select (22 * second) .shutdown, .check (22 * second), .exits 0,
    .select (23 * second) (.exited 0 true true), .check (23 * second)]

theorem no_orphans_drained :
    (final (exec (Settings.of none (10 * second))) (start 2 0) drained).NoOrphans ∧
      (final (exec (Settings.of none (10 * second))) (start 2 0) drained).phase = .returned .ok :=
  ⟨(no_orphans_iff (Settings.of none (10 * second)) 2 0 _ (by decide +kernel)).mpr
    (by decide +kernel) _ (final_mem_visited _ _ drained), by decide +kernel⟩

/-- The first worker exits, and the drain does not wait for the second. -/
def leftRunning : List (Event ℚ) :=
  scaledDown ++ [.cancel, .select (21 * second) .shutdown, .check (21 * second), .exits 0,
    .select (22 * second) (.exited 0 true true), .check (22 * second)]

theorem stopping_worker_left :
    Along (Reaps (Settings.of none (10 * second))) (start 2 0)
        (replay (exec (Settings.of none (10 * second))) (start 2 0) leftRunning) ∧
      ¬ ∀ t ∈ visited (start 2 0)
        (replay (exec (Settings.of none (10 * second))) (start 2 0) leftRunning), t.NoOrphans := by
  refine ⟨by decide +kernel, fun h => ?_⟩
  have hlast := h _ (final_mem_visited (exec (Settings.of none (10 * second))) (start 2 0)
    leftRunning) .ok (by decide +kernel)
  exact absurd hlast (by decide +kernel)

end JustApi.Cli.Workers.Supervisor
