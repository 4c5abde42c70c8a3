import Mathlib.Data.Finset.Card
import JustApi.Cli.NoOrphans

/-! # Slots in order

Without errors a slot has at most one worker, which is waited for, and only workers in
slots are marked. Scaling by so many workers changes the number of working slots by as
many. -/
namespace JustApi.Cli.Workers.Supervisor

variable {s t : Supervisor} {slot other : Nat} {pid : Pid}

/-! ## Working slots -/

def workingSlots (s : Supervisor) : Finset Nat :=
  (Finset.range s.pids.length).filter fun slot => s.working slot = true

theorem mem_workingSlots : slot ∈ s.workingSlots ↔ s.working slot = true := by
  rw [workingSlots, Finset.mem_filter, Finset.mem_range]
  exact ⟨And.right, fun h => ⟨lt_of_occupied (working_iff.mp h).1, h⟩⟩

theorem active_eq_card : s.active = s.workingSlots.card := by
  rw [active, List.countP_eq_length_filter, workingSlots, Finset.card_def, Finset.filter_val,
    Finset.range_val, Multiset.range, Multiset.filter_coe, Multiset.coe_card]
  simp only [Bool.decide_eq_true]

theorem active_congr (h : ∀ slot, t.working slot = s.working slot) : t.active = s.active := by
  rw [active_eq_card, active_eq_card]
  congr 1
  ext slot
  rw [mem_workingSlots, mem_workingSlots, h]

theorem active_of_insert (hnew : t.working slot = true) (hold : s.working slot = false)
    (hrest : ∀ other, other ≠ slot → t.working other = s.working other) :
    t.active = s.active + 1 := by
  have hinsert : t.workingSlots = insert slot s.workingSlots := by
    ext other
    rw [Finset.mem_insert, mem_workingSlots, mem_workingSlots]
    by_cases hother : other = slot
    · subst hother
      simp [hnew]
    · simp [hother, hrest other hother]
  rw [active_eq_card, active_eq_card, hinsert, Finset.card_insert_of_notMem]
  rw [mem_workingSlots, hold]
  exact Bool.false_ne_true

theorem occupied_grow : { s with pids := s.pids ++ [none] }.occupied slot = s.occupied slot := by
  change (s.pids ++ [none])[slot]?.join.isSome = s.pids[slot]?.join.isSome
  rw [List.getElem?_append]
  split
  · rfl
  · rw [List.getElem?_eq_none (by omega : s.pids.length ≤ slot)]
    cases slot - s.pids.length <;> rfl

theorem occupied_spawnInto (hslot : slot < s.pids.length) :
    (s.spawnInto slot).occupied other = (s.occupied other || other = slot) := by
  change (s.pids.set slot (some s.nextPid))[other]?.join.isSome = _
  by_cases hother : other = slot
  · subst hother
    rw [List.getElem?_set_self hslot]
    simp
  · rw [List.getElem?_set_ne (Ne.symm hother)]
    simp [occupied, hother]

/-! ## The slots in order -/

/-- A worker in a slot is waited for and in no other slot, and only workers in slots are
marked. -/
structure InOrder (s : Supervisor) : Prop where
  tracked : s.Tracked
  waited : ∀ (slot : Nat) (pid : Pid), s.pids[slot]? = some (some pid) → (slot, pid) ∈ s.waits
  fresh : ∀ (slot : Nat) (pid : Pid), s.pids[slot]? = some (some pid) → pid < s.nextPid
  sole : ∀ (slot other : Nat) (pid : Pid), s.pids[slot]? = some (some pid) →
    s.pids[other]? = some (some pid) → other = slot
  marked : ∀ slot ∈ s.stopping, s.occupied slot = true

namespace InOrder

theorem start (count time : Nat) : (start count time).InOrder := by
  refine ⟨.start count time, ?_, ?_, ?_, fun _ h => (List.not_mem_nil h).elim⟩
  all_goals
    intro slot
    simp [Supervisor.start]

theorem frame (h : s.InOrder) (hpids : t.pids = s.pids) (hwaits : t.waits = s.waits)
    (halive : t.alive ⊆ s.alive) (hnext : t.nextPid = s.nextPid)
    (hstopping : t.stopping = s.stopping) : t.InOrder := by
  refine ⟨h.tracked.frame hpids hwaits halive, ?_, ?_, ?_, ?_⟩
  · rw [hpids, hwaits]; exact h.waited
  · rw [hpids, hnext]; exact h.fresh
  · rw [hpids]; exact h.sole
  · rw [hstopping]
    unfold occupied
    rw [hpids]
    exact h.marked

theorem not_marked (h : s.InOrder) (hfree : s.pids[slot]? = some none) : slot ∉ s.stopping := by
  intro hmarked
  obtain ⟨pid, hpid⟩ := occupied_iff.mp (h.marked slot hmarked)
  cases hpid.symm.trans hfree

theorem getElem?_grow (s : Supervisor) :
    (s.pids ++ [none])[slot]? = some (some pid) ↔ s.pids[slot]? = some (some pid) := by
  rw [List.getElem?_append]
  split
  · rfl
  · rw [List.getElem?_eq_none (by omega : s.pids.length ≤ slot)]
    cases slot - s.pids.length <;> simp

theorem grow (h : s.InOrder) : { s with pids := s.pids ++ [none] }.InOrder where
  tracked := h.tracked.grow
  waited slot pid hpid := h.waited slot pid ((getElem?_grow s).mp hpid)
  fresh slot pid hpid := h.fresh slot pid ((getElem?_grow s).mp hpid)
  sole slot other pid hpid hpid' :=
    h.sole slot other pid ((getElem?_grow s).mp hpid) ((getElem?_grow s).mp hpid')
  marked slot hslot := occupied_grow.trans (h.marked slot hslot)

theorem getElem?_spawnInto (hfree : s.pids[slot]? = some none) :
    (s.spawnInto slot).pids[other]? = some (some pid) ↔
      other = slot ∧ pid = s.nextPid ∨ other ≠ slot ∧ s.pids[other]? = some (some pid) := by
  change (s.pids.set slot (some s.nextPid))[other]? = _ ↔ _
  by_cases hother : other = slot
  · subst hother
    rw [List.getElem?_set_self (List.getElem?_eq_some_iff.mp hfree).1]
    simp [eq_comm]
  · rw [List.getElem?_set_ne (Ne.symm hother)]
    simp [hother]

theorem spawnInto (h : s.InOrder) (hfree : s.pids[slot]? = some none) :
    (s.spawnInto slot).InOrder := by
  refine ⟨h.tracked.spawnInto hfree, fun other pid hpid => ?_, fun other pid hpid => ?_,
    fun other other' pid hpid hpid' => ?_, fun other hother => ?_⟩
  · rcases (getElem?_spawnInto hfree).mp hpid with ⟨rfl, rfl⟩ | ⟨-, hpid⟩
    · exact List.mem_append_right _ List.mem_cons_self
    · exact List.mem_append_left _ (h.waited other pid hpid)
  · rcases (getElem?_spawnInto hfree).mp hpid with ⟨rfl, rfl⟩ | ⟨-, hpid⟩
    · exact Nat.lt_succ_self _
    · exact Nat.lt_succ_of_lt (h.fresh other pid hpid)
  · rcases (getElem?_spawnInto hfree).mp hpid with ⟨hslot, hnew⟩ | ⟨-, hold⟩ <;>
      rcases (getElem?_spawnInto hfree).mp hpid' with ⟨hslot', hnew'⟩ | ⟨-, hold'⟩
    · exact hslot'.trans hslot.symm
    · exact (Nat.ne_of_lt (h.fresh other' pid hold') hnew).elim
    · exact (Nat.ne_of_lt (h.fresh other pid hold) hnew').elim
    · exact h.sole other other' pid hold hold'
  · rw [occupied_spawnInto (List.getElem?_eq_some_iff.mp hfree).1, h.marked other hother]
    rfl

theorem mark (h : s.InOrder) (hworking : s.working slot = true) :
    { s with stopping := slot :: s.stopping }.InOrder := by
  refine ⟨h.tracked.frame rfl rfl (List.Subset.refl _), h.waited, h.fresh, h.sole,
    fun other hother => ?_⟩
  rcases List.mem_cons.mp hother with rfl | hother
  · exact (working_iff.mp hworking).1
  · exact h.marked other hother

theorem getElem?_reap (hslot : s.pids[slot]? = some (some pid)) {pid' : Pid} :
    (s.pids.set slot none)[other]? = some (some pid') ↔
      other ≠ slot ∧ s.pids[other]? = some (some pid') := by
  by_cases hother : other = slot
  · subst hother
    rw [List.getElem?_set_self (List.getElem?_eq_some_iff.mp hslot).1]
    simp
  · rw [List.getElem?_set_ne (Ne.symm hother)]
    simp [hother]

/-- A slot whose worker's wait is over is emptied, and its mark removed. -/
theorem reap {wait : Nat} (h : s.InOrder) (hwait : s.waits[wait]? = some (slot, pid))
    (hended : pid ∉ s.alive) :
    { s with
      pids := s.pids.set slot none
      waits := s.waits.eraseIdx wait
      stopping := s.stopping.filter fun other => other ≠ slot }.InOrder := by
  have hslot := h.tracked.placed slot pid (List.mem_of_getElem? hwait)
  refine ⟨(h.tracked.reap hwait hended).frame rfl rfl (List.Subset.refl _),
    fun other pid' hpid => ?_, fun other pid' hpid => ?_, fun other other' pid' hpid hpid' => ?_,
    fun other hother => ?_⟩
  · obtain ⟨hne, hpid⟩ := (getElem?_reap hslot).mp hpid
    exact (h.tracked.mem_eraseIdx hwait).mpr ⟨h.waited other pid' hpid, hne⟩
  · exact h.fresh other pid' ((getElem?_reap hslot).mp hpid).2
  · exact h.sole other other' pid' ((getElem?_reap hslot).mp hpid).2
      ((getElem?_reap hslot).mp hpid').2
  · obtain ⟨hmarked, hne⟩ := List.mem_filter.mp hother
    obtain ⟨pid', hpid⟩ := occupied_iff.mp (h.marked other hmarked)
    exact occupied_iff.mpr ⟨pid', (getElem?_reap hslot).mpr ⟨by simpa using hne, hpid⟩⟩

end InOrder

/-! ## Scaling -/

theorem active_grow : { s with pids := s.pids ++ [none] }.active = s.active := by
  refine active_congr fun slot => ?_
  unfold working
  rw [occupied_grow]

theorem working_mark_of_ne (hother : other ≠ slot) :
    { s with stopping := slot :: s.stopping }.working other = s.working other := by
  simp only [working, List.mem_cons, not_or, Bool.decide_and]
  rw [decide_eq_true hother, Bool.true_and]
  rfl

theorem active_mark (hworking : s.working slot = true) :
    s.active = { s with stopping := slot :: s.stopping }.active + 1 :=
  active_of_insert hworking (by simp [working]) fun _ hother => (working_mark_of_ne hother).symm

theorem InOrder.active_spawnInto (h : s.InOrder) (hfree : s.pids[slot]? = some none) :
    (s.spawnInto slot).active = s.active + 1 := by
  have hlt := (List.getElem?_eq_some_iff.mp hfree).1
  have hnew : (s.spawnInto slot).working slot = true :=
    working_iff.mpr ⟨by simp [occupied_spawnInto hlt], h.not_marked hfree⟩
  refine active_of_insert hnew ?_ fun other hother => ?_
  · simp [working, occupied, hfree]
  · unfold working
    rw [occupied_spawnInto hlt, decide_eq_false hother, Bool.or_false]
    rfl

theorem InOrder.scaleUp (h : s.InOrder) (spawned : Nat → Bool) (toAdd : Nat) :
    (s.scaleUp spawned toAdd).InOrder :=
  scaleUp_induction (fun _ h => h.grow) (fun _ _ h hfree => h.spawnInto hfree) spawned toAdd h

theorem InOrder.scaleDown (h : s.InOrder) (slots : List Nat) (toRemove : Nat) :
    (scaleDown slots toRemove s).InOrder :=
  scaleDown_induction (fun _ _ h hworking => h.mark hworking) slots toRemove h

theorem InOrder.active_scaleUp {spawned : Nat → Bool} (h : s.InOrder)
    (hspawned : ∀ worker, spawned worker = true) (toAdd : Nat) :
    (s.scaleUp spawned toAdd).active = s.active + toAdd := by
  induction toAdd generalizing s with
  | zero => rfl
  | succ toAdd ih =>
    obtain ⟨hfree, hnext⟩ := s.nextFreeSlot_spec
    have hfound : s.nextFreeSlot.2.InOrder ∧ s.nextFreeSlot.2.active = s.active := by
      rcases hnext with hnext | hnext <;> rw [hnext]
      · exact ⟨h, rfl⟩
      · exact ⟨h.grow, active_grow⟩
    change (if spawned toAdd then Supervisor.scaleUp spawned toAdd
      (s.nextFreeSlot.2.spawnInto s.nextFreeSlot.1) else s.nextFreeSlot.2).active = _
    rw [if_pos (hspawned toAdd), ih (hfound.1.spawnInto hfree), hfound.1.active_spawnInto hfree,
      hfound.2]
    omega

theorem active_scaleDown_add (slots : List Nat) (toRemove : Nat) (hslots : slots.Nodup) :
    (scaleDown slots toRemove s).active + min toRemove (slots.countP s.working) = s.active := by
  induction slots generalizing s toRemove with
  | nil => simp [scaleDown]
  | cons slot slots ih =>
    obtain ⟨hslot, hslots⟩ := List.nodup_cons.mp hslots
    rw [scaleDown]
    split
    · simp [*]
    · split
      · rename_i hremove hworking
        have hrest : slots.countP { s with stopping := slot :: s.stopping }.working =
            slots.countP s.working := by
          refine List.countP_congr fun other hother => ?_
          rw [working_mark_of_ne (ne_of_mem_of_not_mem hother hslot)]
        have hmark := ih (s := { s with stopping := slot :: s.stopping }) (toRemove - 1) hslots
        rw [hrest] at hmark
        rw [List.countP_cons_of_pos hworking, active_mark hworking]
        omega
      · rename_i hworking
        rw [List.countP_cons_of_neg hworking]
        exact ih toRemove hslots

theorem active_scaleDown (s : Supervisor) (toRemove : Nat) :
    (scaleDown (List.range s.pids.length).reverse toRemove s).active = s.active - toRemove := by
  have hadd := active_scaleDown_add (s := s) (List.range s.pids.length).reverse toRemove
    (List.nodup_reverse.mpr List.nodup_range)
  rw [List.countP_reverse] at hadd
  change _ + min toRemove s.active = s.active at hadd
  omega

end JustApi.Cli.Workers.Supervisor
