import JustApi.Lib.Tables
import JustApi.Core.Connections

/-! # What the server keeps to

The permits bound the connections that are served, the gauge counts them, and after the
shutdown signal the server comes to an end. -/
namespace JustApi.Core.Connections
open JustApi.Lib.Run JustApi.Lib.Semaphores JustApi.Lib.Tables

variable {config : Config} {w w' : World config} {event : Event} {i : Nat}

/-! ## What a step can do -/

/-- The steps, each with its guard. -/
inductive Move (w : World config) : Event → World config → Prop
  | accept : w.loop = .accepting → Move w .accept { w with
      conns := w.conns ++ [.spawned]
      activeConnections :=
        if config.tls then w.activeConnections + 1 else w.activeConnections }
  | acceptError : w.loop = .accepting → Move w .acceptError { w with loop := .returned }
  | cancel : Move w .cancel { w with cancelled := true }
  | stop : w.loop = .accepting → Move w .stop { w with loop := .draining }
  | poll {i : Nat} : w.conns[i]? = some .spawned → i ∈ (w.semaphore.acquire i).holders →
      Move w (.poll i) { w.serve i with semaphore := w.semaphore.acquire i }
  | wait {i : Nat} : w.conns[i]? = some .spawned → i ∉ (w.semaphore.acquire i).holders →
      Move w (.poll i) { w.setPhase i .waiting with semaphore := w.semaphore.acquire i }
  | granted {i : Nat} : w.conns[i]? = some .waiting → i ∈ w.semaphore.holders →
      Move w (.granted i) (w.serve i)
  | gracefulShutdown {i : Nat} : w.conns[i]? = some (.serving false) →
      Move w (.gracefulShutdown i) (w.setPhase i (.serving true))
  | close {i : Nat} {phase : Phase} : w.conns[i]? = some phase → phase.isServing = true →
      Move w (.close i) { w.setPhase i .closed with
        semaphore := w.semaphore.leave i, activeConnections := w.activeConnections - 1 }
  | joined : w.loop = .draining → (∀ c ∈ w.conns, c.isOver = true) →
      Move w .joined { w with loop := .returned }
  | timeout : w.loop = .draining → Move w .timeout { w with loop := .returned }
  | abort {i : Nat} {phase : Phase} : w.conns[i]? = some phase → w.loop = .returned →
      phase.isOver = false → Move w (.abort i) { w.setPhase i (.aborted (config.counts phase)) with
        semaphore := w.semaphore.leave i }

theorem exec_move (h : exec w event = .ok w') : Move w event w' := by
  unfold exec at h
  cases event with
  | accept =>
    dsimp only at h
    split at h
    · cases h
      exact .accept ‹_›
    · cases h
  | acceptError =>
    dsimp only at h
    split at h
    · cases h
      exact .acceptError ‹_›
    · cases h
  | cancel =>
    dsimp only at h
    split at h
    · cases h
      exact .cancel
    · cases h
  | stop =>
    dsimp only at h
    split at h
    · rename_i hguard
      cases h
      exact .stop hguard.1
    · cases h
  | poll i =>
    dsimp only at h
    split at h
    · rename_i hi
      split at h
      · rename_i hin
        cases h
        exact .poll hi hin
      · rename_i hin
        cases h
        exact .wait hi hin
    · cases h
  | granted i =>
    dsimp only at h
    split at h
    · rename_i hi
      split at h
      · rename_i hin
        cases h
        exact .granted hi hin
      · cases h
    · cases h
  | gracefulShutdown i =>
    dsimp only at h
    split at h
    · rename_i hi
      split at h
      · cases h
        exact .gracefulShutdown hi
      · cases h
    · cases h
  | close i =>
    dsimp only at h
    split at h
    · rename_i hi
      cases h
      exact .close hi rfl
    · cases h
  | joined =>
    dsimp only at h
    split at h
    · rename_i hguard
      cases h
      exact .joined hguard.1 hguard.2
    · cases h
  | timeout =>
    dsimp only at h
    split at h
    · cases h
      exact .timeout ‹_›
    · cases h
  | abort i =>
    dsimp only at h
    split at h
    · rename_i hi
      split at h
      · rename_i hguard
        cases h
        exact .abort hi hguard.1 hguard.2
      · cases h
    · cases h

/-! ## Permits and the gauge -/

/-- A task that has asked for a permit and not given it back. -/
def Phase.asked : Phase → Bool
  | .waiting | .serving _ => true
  | .spawned | .closed | .aborted _ => false

structure Sound (w : World config) : Prop where
  asked : ∀ i, i ∈ w.semaphore.holders ++ w.semaphore.waiting ↔
    ∃ c, w.conns[i]? = some c ∧ c.asked = true
  permits : ∀ (i : Nat) (c : Phase), w.conns[i]? = some c → c.isServing = true →
    i ∈ w.semaphore.holders
  gauge : w.activeConnections = UInt64.ofNat (w.conns.countP config.counts)
  aborted : ∀ counted, .aborted counted ∈ w.conns → w.loop = .returned

theorem sound_new : Sound (World.new : World config) := by
  refine ⟨?_, ?_, ?_, ?_⟩ <;> simp [World.new]

/-- A step of one task, which enters the semaphore or leaves it. -/
theorem Sound.set (h : Sound w) {old new : Phase} {semaphore : Semaphore config.maxConnections}
    {activeConnections : UInt64} (hi : w.conns[i]? = some old)
    (hasked : ∀ j, j ∈ semaphore.holders ++ semaphore.waiting ↔
      if i = j then new.asked = true else j ∈ w.semaphore.holders ++ w.semaphore.waiting)
    (hkept : ∀ j ∈ w.semaphore.holders, i ≠ j → j ∈ semaphore.holders)
    (hnew : new.isServing = true → i ∈ semaphore.holders)
    (hgauge : activeConnections + UInt64.ofNat (config.counts old).toNat =
      w.activeConnections + UInt64.ofNat (config.counts new).toNat)
    (haborted : ∀ counted, new = .aborted counted → w.loop = .returned) :
    Sound { w.setPhase i new with semaphore, activeConnections } := by
  refine ⟨fun j => ?_, fun j c hj hserving => ?_, ?_, fun counted hmem => ?_⟩
  · change j ∈ semaphore.holders ++ semaphore.waiting ↔
      ∃ c, (w.conns.set i new)[j]? = some c ∧ c.asked = true
    rw [hasked, getElem?_set hi]
    split
    · simp
    · exact h.asked j
  · change (w.conns.set i new)[j]? = some c at hj
    change j ∈ semaphore.holders
    rw [getElem?_set hi] at hj
    split at hj
    · rename_i heq
      cases hj
      exact heq ▸ hnew hserving
    · rename_i hne
      exact hkept j (h.permits j c hj hserving) hne
  · have hcount := congrArg UInt64.ofNat (countP_set (a := new) (p := config.counts) hi)
    rw [UInt64.ofNat_add, UInt64.ofNat_add, ← h.gauge, ← hgauge] at hcount
    exact ((UInt64.add_left_inj _).mp hcount).symm
  · rcases List.mem_or_eq_of_mem_set hmem with hold | heq
    · exact h.aborted counted hold
    · exact haborted counted heq.symm

/-- A step of the loop alone. -/
theorem Sound.loop (h : Sound w) {loop : Loop} {cancelled : Bool}
    (hreturned : w.loop = .returned → loop = .returned) :
    Sound { w with loop, cancelled } :=
  ⟨h.asked, h.permits, h.gauge, fun counted hmem => hreturned (h.aborted counted hmem)⟩

theorem Sound.accept (h : Sound w) : Sound { w with
    conns := w.conns ++ [.spawned]
    activeConnections :=
      if config.tls then w.activeConnections + 1 else w.activeConnections } := by
  refine ⟨fun i => ?_, fun i c hc hserving => ?_, ?_, fun counted hmem => ?_⟩
  · refine (h.asked i).trans ⟨?_, ?_⟩
    · intro hex
      obtain ⟨c, hc, hasked⟩ := hex
      exact ⟨c, getElem?_concat_of_some hc _, hasked⟩
    · intro hex
      obtain ⟨c, hc, hasked⟩ := hex
      rcases getElem?_concat.mp hc with hc | ⟨-, rfl⟩
      · exact ⟨c, hc, hasked⟩
      · cases hasked
  · rcases getElem?_concat.mp hc with hc | ⟨-, rfl⟩
    · exact h.permits i c hc hserving
    · cases hserving
  · have hlast : List.countP config.counts [Phase.spawned] = config.tls.toNat := by
      cases htls : config.tls <;> simp [Config.counts, htls]
    rw [List.countP_append, hlast, UInt64.ofNat_add, ← h.gauge]
    cases config.tls <;> simp
  · rcases List.mem_append.mp hmem with hmem | hmem
    · exact h.aborted counted hmem
    · cases List.mem_singleton.mp hmem

theorem Sound.not_asked (h : Sound w) {phase : Phase} (hi : w.conns[i]? = some phase)
    (hphase : phase.asked = false) : i ∉ w.semaphore.holders ++ w.semaphore.waiting := by
  intro hin
  obtain ⟨c, hc, hasked⟩ := (h.asked i).mp hin
  rw [hi] at hc
  cases hc
  rw [hphase] at hasked
  cases hasked

theorem Sound.move (h : Sound w) (hmove : Move w event w') : Sound w' := by
  cases hmove with
  | accept => exact h.accept
  | acceptError hloop => exact h.loop fun _ => rfl
  | cancel => exact h.loop id
  | stop hloop => exact h.loop fun hreturned => by rw [hloop] at hreturned; cases hreturned
  | joined | timeout => exact h.loop fun _ => rfl
  | @poll i hi hin =>
    refine h.set hi (fun j => ?_) (fun j hj _ => (w.semaphore.holders_acquire i).1 hj)
      (fun _ => hin) ?_ (by simp)
    · rw [w.semaphore.mem_acquire]
      split <;> simp [*, Phase.asked, eq_comm]
    · cases htls : config.tls <;> simp [World.serve, Config.counts, htls]
  | @wait i hi hin =>
    refine h.set hi (fun j => ?_) (fun j hj _ => (w.semaphore.holders_acquire i).1 hj) (by simp [Phase.isServing])
      rfl (by simp)
    rw [w.semaphore.mem_acquire]
    split <;> simp [*, Phase.asked, eq_comm]
  | @granted i hi hin =>
    refine h.set hi (fun j => ?_) (fun j hj _ => hj) (fun _ => hin) ?_ (by simp)
    · split
      · rename_i heq
        exact iff_of_true (heq ▸ List.mem_append_left _ hin) rfl
      · rfl
    · cases htls : config.tls <;> simp [Config.counts, htls]
  | @gracefulShutdown i hi =>
    refine h.set hi (fun j => ?_) (fun j hj _ => hj) (fun _ => h.permits i _ hi rfl) rfl (by simp)
    split
    · rename_i heq
      exact iff_of_true (heq ▸ List.mem_append_left _ (h.permits i _ hi rfl)) rfl
    · rfl
  | @close i phase hi hserving =>
    have hin := h.permits i phase hi hserving
    refine h.set hi (fun j => ?_) (fun j hj hne => ?_) (by simp [Phase.isServing]) ?_ (by simp)
    · rw [w.semaphore.mem_leave]
      split <;> simp [*, Phase.asked, eq_comm]
    · exact (w.semaphore.mem_holders_leave hin).mpr (.inl ⟨Ne.symm hne, hj⟩)
    · cases phase <;> simp_all [Phase.isServing, Config.counts]
  | @abort i phase hi hreturned hover =>
    refine h.set hi (fun j => ?_) (fun j hj hne => ?_) (by simp [Phase.isServing]) rfl
      (fun _ _ => hreturned)
    · rw [w.semaphore.mem_leave]
      split <;> simp [*, Phase.asked, eq_comm]
    · by_cases hin : i ∈ w.semaphore.holders
      · exact (w.semaphore.mem_holders_leave hin).mpr (.inl ⟨Ne.symm hne, hj⟩)
      · rwa [Semaphore.holders_leave_of_not_mem hin]

theorem sound_of_run {tr : List (Event × World config)} (hrun : Along Step .new tr) :
    ∀ w ∈ visited .new tr, Sound w :=
  hrun.invariant (fun _ _ _ h hstep => h.move (exec_move hstep)) sound_new

/-! ## The end of a server -/

/-- The steps of a server that does not accept any more. -/
def Event.Ending : Event → Prop
  | .poll _ | .granted _ | .gracefulShutdown _ | .close _ | .joined | .timeout | .abort _ => True
  | .accept | .acceptError | .cancel | .stop => False

instance (event : Event) : Decidable event.Ending :=
  match event with
  | .poll _ | .granted _ | .gracefulShutdown _ | .close _ | .joined | .timeout | .abort _ =>
    .isTrue trivial
  | .accept | .acceptError | .cancel | .stop => .isFalse id

def Phase.left : Phase → Nat
  | .spawned => 4
  | .waiting => 3
  | .serving false => 2
  | .serving true => 1
  | .closed | .aborted _ => 0

def Loop.left : Loop → Nat
  | .accepting | .draining => 1
  | .returned => 0

def World.work (w : World config) : Nat := (w.conns.map Phase.left).sum + w.loop.left

theorem sum_setPhase {old : Phase} (hi : w.conns[i]? = some old) (new : Phase) :
    ((w.conns.set i new).map Phase.left).sum + old.left =
      (w.conns.map Phase.left).sum + new.left :=
  sum_map_set hi

theorem Move.work_lt (hmove : Move w event w') (hending : event.Ending) : w'.work < w.work := by
  cases hmove with
  | accept | acceptError | cancel | stop => exact hending.elim
  | poll hi | wait hi | granted hi | gracefulShutdown hi =>
    have hsum := sum_setPhase hi (.serving false)
    have hwait := sum_setPhase hi .waiting
    have hshut := sum_setPhase hi (.serving true)
    simp only [Phase.left] at hsum hwait hshut
    simp only [World.work, World.serve, World.setPhase]
    omega
  | @close i phase hi hserving =>
    have hsum := sum_setPhase hi .closed
    have hpos : 0 < phase.left := by
      cases phase with
      | serving shuttingDown => cases shuttingDown <;> exact Nat.succ_pos _
      | _ => cases hserving
    simp only [World.work, World.setPhase]
    change _ + _ = _ + 0 at hsum
    omega
  | @abort i phase hi hreturned hover =>
    have hsum := sum_setPhase hi (.aborted (config.counts phase))
    have hpos : 0 < phase.left := by
      cases phase with
      | serving shuttingDown => cases shuttingDown <;> exact Nat.succ_pos _
      | spawned | waiting => exact Nat.succ_pos _
      | closed | aborted => cases hover
    simp only [World.work, World.setPhase]
    change _ + _ = _ + 0 at hsum
    omega
  | joined hloop | timeout hloop =>
    simp only [World.work, hloop, Loop.left]
    omega

/-- Neither the loop nor a task can go on, without the time being up. -/
def AtRest (w : World config) : Prop :=
  ∀ event w', event.Ending → event ≠ .timeout → ¬ Step w event w'

theorem AtRest.stuck (h : AtRest w) (event : Event) (hending : event.Ending)
    (htimeout : event ≠ .timeout) (w' : World config) : exec w event ≠ .ok w' :=
  fun hstep => h event w' hending htimeout hstep

/-- Who holds a permit can go on. -/
theorem AtRest.not_holder (hrest : AtRest w) (h : Sound w) : w.semaphore.holders = [] := by
  by_contra hne
  obtain ⟨j, hj⟩ := List.exists_mem_of_ne_nil _ hne
  obtain ⟨c, hc, hasked⟩ := (h.asked j).mp (List.mem_append_left _ hj)
  cases c with
  | waiting =>
    have hstuck := hrest.stuck (.granted j) trivial (by simp)
    simp [exec, hc, hj] at hstuck
  | serving shuttingDown =>
    have hstuck := hrest.stuck (.close j) trivial (by simp)
    simp [exec, hc] at hstuck
  | spawned | closed | aborted => cases hasked

theorem AtRest.allOver (hrest : AtRest w) (h : Sound w) : ∀ c ∈ w.conns, c.isOver = true := by
  intro c hc
  obtain ⟨i, hi⟩ := List.mem_iff_getElem?.mp hc
  cases c with
  | closed | aborted => rfl
  | spawned =>
    have hstuck := hrest.stuck (.poll i) trivial (by simp)
    simp only [exec, hi] at hstuck
    split at hstuck <;> exact absurd rfl (hstuck _)
  | serving shuttingDown =>
    have hstuck := hrest.stuck (.close i) trivial (by simp)
    simp [exec, hi] at hstuck
  | waiting =>
    have hnone := hrest.not_holder h
    rcases List.mem_append.mp ((h.asked i).mpr ⟨.waiting, hi, rfl⟩) with hin | hin
    · simp [hnone] at hin
    · -- all permits would be held
      have hfull := w.semaphore.full (List.ne_nil_of_mem hin)
      rw [hnone] at hfull
      exact absurd hfull (Nat.ne_of_lt config.maxConnections_pos)

/-- What the gauge is left at counts the connections that were dropped while it counted them. -/
theorem counts_of_isOver {conns : List Phase} (h : ∀ c ∈ conns, c.isOver = true) :
    conns.countP config.counts = conns.countP (· = .aborted true) := by
  refine List.countP_congr fun c hc => ?_
  have hover := h c hc
  cases c with
  | aborted counted => cases counted <;> simp [Config.counts]
  | closed => simp [Config.counts]
  | spawned | waiting | serving => cases hover

/-- One permit for three connections, the last of which is dropped while it waits. -/
def oneAtATime : List Event :=
  [.accept, .accept, .accept, .poll 1, .poll 0, .poll 2, .close 1, .granted 0, .cancel, .stop,
    .gracefulShutdown 0, .timeout, .close 0, .abort 2]

end JustApi.Core.Connections
