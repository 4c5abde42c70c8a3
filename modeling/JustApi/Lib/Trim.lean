import Mathlib.Data.List.DropRight

/-! # Trimming

A list without what a predicate holds of at its ends, and what trimming keeps of the parts
a list is put together from. -/
namespace JustApi.Lib.Trim

variable {α : Type*} {p : α → Bool} {x y : List α}

theorem rdropWhile_append_of_all (h : ∀ a ∈ y, p a) :
    (x ++ y).rdropWhile p = x.rdropWhile p := by
  unfold List.rdropWhile
  rw [List.reverse_append, List.dropWhile_append_of_pos]
  simpa using h

theorem rdropWhile_append_of_not (h : ¬ ∀ a ∈ y, p a) :
    (x ++ y).rdropWhile p = x ++ y.rdropWhile p := by
  unfold List.rdropWhile
  have hne : y.reverse.dropWhile p ≠ [] := by
    rw [ne_eq, List.dropWhile_eq_nil_iff]
    simpa using h
  rw [List.reverse_append, List.dropWhile_append, if_neg (by simpa using hne),
    List.reverse_append, List.reverse_reverse]

theorem dropWhile_append_of_not (h : ¬ ∀ a ∈ x, p a) :
    (x ++ y).dropWhile p = x.dropWhile p ++ y := by
  rw [List.dropWhile_append, if_neg]
  rw [List.isEmpty_iff, List.dropWhile_eq_nil_iff]
  exact h

theorem rdropWhile_eq_nil (h : ∀ a ∈ x, p a) : x.rdropWhile p = [] :=
  List.rdropWhile_eq_nil_iff.mpr h

/-- A list is its first edge, what is left without its edges, and its last edge. -/
theorem edges (p : α → Bool) (x : List α) :
    x = x.takeWhile p ++ ((x.dropWhile p).rdropWhile p ++ (x.dropWhile p).rtakeWhile p) := by
  rw [List.rdropWhile_append_rtakeWhile, List.takeWhile_append_dropWhile]

theorem rtakeWhile_append_of_not (h : ¬ ∀ a ∈ y, p a) :
    (x ++ y).rtakeWhile p = y.rtakeWhile p := by
  have hsplit := List.rdropWhile_append_rtakeWhile (p := p) (l := x ++ y)
  rw [rdropWhile_append_of_not h, List.append_assoc] at hsplit
  have hy := List.rdropWhile_append_rtakeWhile (p := p) (l := y)
  exact List.append_cancel_left ((List.append_cancel_left hsplit).trans hy.symm)

/-- The last edge is looked for in what comes after the first. -/
theorem rtakeWhile_dropWhile (h : ¬ ∀ a ∈ x, p a) :
    (x.dropWhile p).rtakeWhile p = x.rtakeWhile p := by
  have hrest : ¬ ∀ a ∈ x.dropWhile p, p a := by
    rw [← List.dropWhile_eq_nil_iff, List.dropWhile_idempotent, List.dropWhile_eq_nil_iff]
    exact h
  conv_rhs => rw [← List.takeWhile_append_dropWhile (p := p) (l := x)]
  exact (rtakeWhile_append_of_not hrest).symm

/-- What the predicate does not hold of survives. -/
theorem filter_trim (x : List α) :
    ((x.dropWhile p).rdropWhile p).filter (fun a => ¬ p a) = x.filter fun a => ¬ p a := by
  have hfirst : (x.takeWhile p).filter (fun a => ¬ p a) = [] :=
    List.filter_eq_nil_iff.mpr fun a ha => by simpa using List.mem_takeWhile_imp ha
  have hlast : ((x.dropWhile p).rtakeWhile p).filter (fun a => ¬ p a) = [] :=
    List.filter_eq_nil_iff.mpr fun a ha => by simpa using List.mem_rtakeWhile_imp ha
  conv_rhs => rw [edges p x]
  rw [List.filter_append, List.filter_append, hfirst, hlast, List.append_nil, List.nil_append]

end JustApi.Lib.Trim
