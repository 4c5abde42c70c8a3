import Mathlib.Data.List.Nodup

/-! # Semaphores that serve in turn

A semaphore of a given size, told by who holds a permit and who waits for one. A permit that
is given back goes to the one who has waited longest. -/
namespace JustApi.Lib.Semaphores

structure Semaphore (size : Nat) where
  holders : List Nat
  waiting : List Nat
  nodup : (holders ++ waiting).Nodup
  bounded : holders.length ≤ size
  /-- Nobody waits for a permit that is free. -/
  full : waiting ≠ [] → holders.length = size
  deriving DecidableEq

namespace Semaphore

variable {size : Nat} {i j : Nat}

def new : Semaphore size := ⟨[], [], List.nodup_nil, Nat.zero_le _, fun h => absurd rfl h⟩

theorem waiting_eq_nil {s : Semaphore size} (h : s.holders.length < size) : s.waiting = [] := by
  by_contra hne
  exact Nat.ne_of_lt h (s.full hne)

def acquire (s : Semaphore size) (i : Nat) : Semaphore size :=
  if hin : i ∈ s.holders ++ s.waiting then s
  else if hfree : s.holders.length < size then
    { holders := s.holders ++ [i]
      waiting := []
      nodup := by
        have hnodup := s.nodup
        rw [waiting_eq_nil hfree, List.append_nil] at hin hnodup
        simpa [List.nodup_append] using ⟨hnodup, fun a ha => ne_of_mem_of_not_mem ha hin⟩
      bounded := by simpa [Nat.succ_le_iff] using hfree
      full := fun h => absurd rfl h }
  else
    { holders := s.holders
      waiting := s.waiting ++ [i]
      nodup := by
        rw [← List.append_assoc]
        exact List.nodup_append.mpr ⟨s.nodup, by simp, fun a ha b hb =>
          List.mem_singleton.mp hb ▸ ne_of_mem_of_not_mem ha hin⟩
      bounded := s.bounded
      full := fun _ => Nat.le_antisymm s.bounded (Nat.le_of_not_lt hfree) }

/-- Give back a permit, or give up waiting. -/
def leave (s : Semaphore size) (i : Nat) : Semaphore size :=
  if hin : i ∈ s.holders then
    { holders := s.holders.erase i ++ s.waiting.take 1
      waiting := s.waiting.drop 1
      nodup := by
        rw [List.append_assoc, List.take_append_drop]
        exact s.nodup.sublist (List.erase_sublist.append_right _)
      bounded := by
        have hle := s.bounded
        have hpos := List.length_pos_of_mem hin
        rw [List.length_append, List.length_erase_of_mem hin, List.length_take]
        omega
      full := by
        intro hne
        have hwait : s.waiting ≠ [] := fun h => hne (by simp [h])
        have hlen := List.length_pos_iff.mpr hwait
        have hpos := List.length_pos_of_mem hin
        rw [List.length_append, List.length_erase_of_mem hin, List.length_take, s.full hwait] at *
        omega }
  else
    { holders := s.holders
      waiting := s.waiting.erase i
      nodup := s.nodup.sublist (List.erase_sublist.append_left _)
      bounded := s.bounded
      full := fun hne => s.full fun h => hne (by simp [h]) }

@[simp] theorem new_holders : (new : Semaphore size).holders = [] := rfl

@[simp] theorem new_waiting : (new : Semaphore size).waiting = [] := rfl

section Acquire

variable {s : Semaphore size}

theorem acquire_free (hin : i ∉ s.holders ++ s.waiting) (hfree : s.holders.length < size) :
    (s.acquire i).holders = s.holders ++ [i] ∧ (s.acquire i).waiting = s.waiting := by
  rw [acquire, dif_neg hin, dif_pos hfree]
  exact ⟨rfl, (waiting_eq_nil hfree).symm⟩

theorem acquire_full (hin : i ∉ s.holders ++ s.waiting) (hfull : ¬ s.holders.length < size) :
    (s.acquire i).holders = s.holders ∧ (s.acquire i).waiting = s.waiting ++ [i] := by
  rw [acquire, dif_neg hin, dif_neg hfull]
  exact ⟨rfl, rfl⟩

theorem mem_acquire (s : Semaphore size) (i j : Nat) :
    j ∈ (s.acquire i).holders ++ (s.acquire i).waiting ↔
      j = i ∨ j ∈ s.holders ++ s.waiting := by
  by_cases hin : i ∈ s.holders ++ s.waiting
  · rw [acquire, dif_pos hin]
    exact ⟨.inr, fun h => h.elim (fun heq => heq ▸ hin) id⟩
  · by_cases hfree : s.holders.length < size
    · obtain ⟨hh, hw⟩ := acquire_free hin hfree
      simp [hh, hw, or_left_comm]
    · obtain ⟨hh, hw⟩ := acquire_full hin hfree
      simp [hh, hw, or_comm, or_left_comm]

theorem holders_acquire (s : Semaphore size) (i : Nat) :
    s.holders ⊆ (s.acquire i).holders ∧ (s.acquire i).holders ⊆ i :: s.holders := by
  by_cases hin : i ∈ s.holders ++ s.waiting
  · rw [acquire, dif_pos hin]
    exact ⟨List.Subset.refl _, List.subset_cons_self _ _⟩
  · by_cases hfree : s.holders.length < size
    · rw [(acquire_free hin hfree).1]
      exact ⟨List.subset_append_left _ _, by simp⟩
    · rw [(acquire_full hin hfree).1]
      exact ⟨List.Subset.refl _, List.subset_cons_self _ _⟩

end Acquire

section Leave

variable {s : Semaphore size}

theorem mem_leave (s : Semaphore size) (i j : Nat) :
    j ∈ (s.leave i).holders ++ (s.leave i).waiting ↔ j ≠ i ∧ j ∈ s.holders ++ s.waiting := by
  have hnodup := List.nodup_append.mp s.nodup
  by_cases hin : i ∈ s.holders
  · have hnot : i ∉ s.waiting := fun hw => hnodup.2.2 i hin i hw rfl
    simp only [leave, hin, dif_pos]
    rw [List.append_assoc, List.take_append_drop, List.mem_append, List.mem_append,
      hnodup.1.mem_erase_iff]
    constructor
    · rintro (⟨hne, hj⟩ | hj)
      · exact ⟨hne, .inl hj⟩
      · exact ⟨ne_of_mem_of_not_mem hj hnot, .inr hj⟩
    · rintro ⟨hne, hj | hj⟩
      · exact .inl ⟨hne, hj⟩
      · exact .inr hj
  · simp only [leave, hin, dif_neg, not_false_eq_true]
    rw [List.mem_append, List.mem_append, hnodup.2.1.mem_erase_iff]
    constructor
    · rintro (hj | ⟨hne, hj⟩)
      · exact ⟨ne_of_mem_of_not_mem hj hin, .inl hj⟩
      · exact ⟨hne, .inr hj⟩
    · rintro ⟨hne, hj | hj⟩
      · exact .inl hj
      · exact .inr ⟨hne, hj⟩

/-- A permit passes to the one who has waited longest, and to nobody else. -/
theorem mem_holders_leave (s : Semaphore size) (hin : i ∈ s.holders) :
    j ∈ (s.leave i).holders ↔ (j ≠ i ∧ j ∈ s.holders) ∨ s.waiting.head? = some j := by
  have hnodup := List.nodup_append.mp s.nodup
  simp only [leave, hin, dif_pos, List.mem_append, hnodup.1.mem_erase_iff]
  cases s.waiting <;> simp [eq_comm]

theorem holders_leave_of_not_mem (hin : i ∉ s.holders) : (s.leave i).holders = s.holders := by
  simp [leave, hin]

theorem waiting_leave_sublist (s : Semaphore size) (i : Nat) :
    (s.leave i).waiting.Sublist s.waiting := by
  unfold leave
  split
  · exact List.drop_sublist _ _
  · exact List.erase_sublist

end Leave

end Semaphore

end JustApi.Lib.Semaphores
