import Mathlib.Algebra.Order.BigOperators.Group.List
import Mathlib.Algebra.Order.Group.Nat
import Mathlib.Algebra.GroupWithZero.Nat

/-! # Tallies

Two numbers for each item of a list, of which one is never the larger. If they come to the same
in total, they are the same for each item. -/
namespace JustApi.Lib.Tally

variable {α β : Type*} {f g : α → Nat} {items : List α}

theorem eq_of_sum_map_eq (h : ∀ a ∈ items, f a ≤ g a)
    (htotal : (items.map f).sum = (items.map g).sum) : ∀ a ∈ items, f a = g a := by
  intro a ha
  by_contra hne
  have hlt := List.sum_lt_sum f g h ⟨a, ha, Nat.lt_of_le_of_ne (h a ha) hne⟩
  exact hlt.ne htotal

/-! ## Counts -/

variable {f : α → List β} {p q : β → Bool}

theorem countP_flatMap_eq (h : ∀ a ∈ items, (f a).countP p = (f a).countP q) :
    (items.flatMap f).countP p = (items.flatMap f).countP q := by
  rw [List.countP_flatMap, List.countP_flatMap]
  exact congrArg List.sum (List.map_congr_left h)

theorem countP_eq_of_flatMap (h : ∀ a ∈ items, (f a).countP p ≤ (f a).countP q)
    (htotal : (items.flatMap f).countP p = (items.flatMap f).countP q) :
    ∀ a ∈ items, (f a).countP p = (f a).countP q := by
  rw [List.countP_flatMap, List.countP_flatMap] at htotal
  exact eq_of_sum_map_eq h htotal

/-- Two readings of the items, one of which never weighs more. -/
theorem weight_eq_of_perm {w : β → Nat} {r s : α → β} (h : ∀ a ∈ items, w (r a) ≤ w (s a))
    (hperm : (items.map r).Perm (items.map s)) : ∀ a ∈ items, w (r a) = w (s a) := by
  have htotal := (hperm.map w).sum_nat
  rw [List.map_map, List.map_map] at htotal
  exact eq_of_sum_map_eq h htotal

end JustApi.Lib.Tally
