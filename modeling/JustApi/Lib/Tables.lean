import Mathlib.Algebra.GroupWithZero.Nat
import Mathlib.Data.List.Basic

/-! # Tables that grow at their end

A list of entries that are named by their positions: an entry is added at the end, and
the entry at a position is changed in place. -/
namespace JustApi.Lib.Tables

variable {α : Type*} {l : List α} {i j : Nat} {a b : α}

theorem getElem?_concat : (l ++ [a])[i]? = some b ↔ l[i]? = some b ∨ i = l.length ∧ b = a := by
  rcases Nat.lt_trichotomy i l.length with hlt | rfl | hgt
  · simp [List.getElem?_append_left hlt, Nat.ne_of_lt hlt]
  · simp [eq_comm]
  · rw [List.getElem?_eq_none (by simp; omega), List.getElem?_eq_none (by omega)]
    simp [Nat.ne_of_gt hgt]

/-- An entry stays where it is when another is added. -/
theorem getElem?_concat_of_some (h : l[i]? = some b) (a : α) : (l ++ [a])[i]? = some b :=
  getElem?_concat.mpr (.inl h)

theorem getElem?_of_prefix {l' : List α} (h : l <+: l') (hi : l[i]? = some a) : l'[i]? = some a := by
  obtain ⟨rest, rfl⟩ := h
  obtain ⟨hlt, -⟩ := List.getElem?_eq_some_iff.mp hi
  rw [List.getElem?_append_left hlt, hi]

theorem getElem?_modify {f : α → α} : (l.modify i f)[j]? = some b ↔
    ∃ a, l[j]? = some a ∧ b = if i = j then f a else a := by
  rw [List.getElem?_modify]
  cases l[j]? <;> simp [eq_comm]

theorem getElem?_modify_of_some {f : α → α} (h : l[j]? = some a) :
    (l.modify i f)[j]? = some (if i = j then f a else a) :=
  getElem?_modify.mpr ⟨a, h, rfl⟩

theorem getElem?_set (h : l[i]? = some b) : (l.set i a)[j]? = if i = j then some a else l[j]? := by
  obtain ⟨hlt, -⟩ := List.getElem?_eq_some_iff.mp h
  simp [List.getElem?_set, hlt]

/-! ## Totals -/

variable {f : α → Nat}

/-- The total changes by what the entry changes by. -/
theorem sum_map_set (h : l[i]? = some b) :
    ((l.set i a).map f).sum + f b = (l.map f).sum + f a := by
  induction l generalizing i with
  | nil => simp at h
  | cons c l ih =>
    cases i with
    | zero =>
      obtain rfl : c = b := by simpa using h
      simp only [List.set_cons_zero, List.map_cons, List.sum_cons]
      omega
    | succ i =>
      have := ih (by simpa using h)
      simp only [List.set_cons_succ, List.map_cons, List.sum_cons]
      omega

theorem sum_map_modify {g : α → α} (h : l[i]? = some b) :
    ((l.modify i g).map f).sum + f b = (l.map f).sum + f (g b) := by
  rw [List.modify_eq_set_getElem?, h]
  exact sum_map_set h

/-- A count changes by whether the entry counts. -/
theorem countP_set {p : α → Bool} (h : l[i]? = some b) :
    (l.set i a).countP p + (p b).toNat = l.countP p + (p a).toNat := by
  induction l generalizing i with
  | nil => simp at h
  | cons c l ih =>
    cases i with
    | zero =>
      obtain rfl : c = b := by simpa using h
      rw [List.set_cons_zero, List.countP_cons, List.countP_cons]
      cases p a <;> cases p c <;> simp
    | succ i =>
      have := ih (by simpa using h)
      rw [List.set_cons_succ, List.countP_cons, List.countP_cons]
      omega

/-- The entries that count are no more than the places they are known to be in. -/
theorem countP_le_length {p : α → Bool} {places : List Nat}
    (h : ∀ (i : Nat) (c : α), l[i]? = some c → p c = true → i ∈ places) :
    l.countP p ≤ places.length := by
  suffices hshift : ∀ (l : List α) (k : Nat) (places : List Nat),
      (∀ (i : Nat) (c : α), l[i]? = some c → p c = true → i + k ∈ places) →
        l.countP p ≤ places.length from hshift l 0 places h
  intro l
  induction l with
  | nil => exact fun _ _ _ => Nat.zero_le _
  | cons c l ih =>
    intro k places h
    by_cases hc : p c = true
    · have hk : k ∈ places := by simpa using h 0 c rfl hc
      have hrest := ih (k + 1) (places.erase k) fun i a hi ha => by
        have hin := h (i + 1) a (by simpa using hi) ha
        rw [Nat.add_right_comm] at hin
        exact (List.mem_erase_of_ne (by omega)).mpr hin
      have hpos := List.length_pos_of_mem hk
      rw [List.length_erase_of_mem hk] at hrest
      rw [List.countP_cons_of_pos hc]
      omega
    · rw [List.countP_cons_of_neg hc]
      refine ih (k + 1) places fun i a hi ha => ?_
      have hin := h (i + 1) a (by simpa using hi) ha
      rwa [Nat.add_right_comm] at hin

end JustApi.Lib.Tables
