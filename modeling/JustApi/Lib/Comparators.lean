import Mathlib.Data.List.Sort

/-! # Comparators

What sorting by a comparison needs is that it orders the elements that are sorted. -/
namespace JustApi.Lib.Comparators

variable {α : Type*} {cmp : α → α → Ordering} {l l' : List α} {a b c m : α}

/-- The comparison is a total order, up to ties, on the elements of the list. -/
def StrictWeakOn (cmp : α → α → Ordering) (l : List α) : Prop :=
  Std.TransCmp fun a b : {x // x ∈ l} => cmp a b

theorem strictWeakOn_iff :
    StrictWeakOn cmp l ↔ (∀ a ∈ l, ∀ b ∈ l, cmp a b = (cmp b a).swap) ∧
      ∀ a ∈ l, ∀ b ∈ l, ∀ c ∈ l, (cmp a b).isLE → (cmp b c).isLE → (cmp a c).isLE := by
  constructor
  · intro h
    refine ⟨fun a ha b hb => h.eq_swap (a := ⟨a, ha⟩) (b := ⟨b, hb⟩), ?_⟩
    intro a ha b hb c hc
    exact h.isLE_trans (a := ⟨a, ha⟩) (b := ⟨b, hb⟩) (c := ⟨c, hc⟩)
  · intro h
    exact { eq_swap := fun {a b} => h.1 a a.2 b b.2
            isLE_trans := fun {a b c} => h.2 a a.2 b b.2 c c.2 }

namespace StrictWeakOn

theorem mono (h : StrictWeakOn cmp l) (hsub : ∀ x ∈ l', x ∈ l) : StrictWeakOn cmp l' := by
  rw [strictWeakOn_iff] at h ⊢
  refine ⟨fun a ha b hb => h.1 a (hsub a ha) b (hsub b hb), ?_⟩
  intro a ha b hb c hc
  exact h.2 a (hsub a ha) b (hsub b hb) c (hsub c hc)

theorem trans (h : StrictWeakOn cmp l) (ha : a ∈ l) (hb : b ∈ l) (hc : c ∈ l)
    (hab : (cmp a b).isLE) (hbc : (cmp b c).isLE) : (cmp a c).isLE :=
  (strictWeakOn_iff.mp h).2 a ha b hb c hc hab hbc

theorem of_not (h : StrictWeakOn cmp l) (ha : a ∈ l) (hb : b ∈ l) (hab : ¬ (cmp a b).isLE) :
    (cmp b a).isLE := by
  rw [(strictWeakOn_iff.mp h).1 a ha b hb] at hab
  cases hba : cmp b a with
  | lt | eq => rfl
  | gt =>
    rw [hba] at hab
    exact absurd rfl hab

theorem refl (h : StrictWeakOn cmp l) (ha : a ∈ l) : (cmp a a).isLE := by
  by_cases haa : (cmp a a).isLE
  · exact haa
  · exact h.of_not ha ha haa

theorem eq_of_isLE (h : StrictWeakOn cmp l) (ha : a ∈ l) (hb : b ∈ l) (hab : (cmp a b).isLE)
    (hba : (cmp b a).isLE) : cmp a b = .eq := by
  rw [(strictWeakOn_iff.mp h).1 b hb a ha] at hba
  cases hcmp : cmp a b with
  | eq => rfl
  | lt =>
    rw [hcmp] at hba
    cases hba
  | gt =>
    rw [hcmp] at hab
    cases hab

end StrictWeakOn

/-! ## The first of a sorted list -/

/-- An element that comes after none. -/
def IsFirst (cmp : α → α → Ordering) (l : List α) (a : α) : Prop :=
  a ∈ l ∧ ∀ b ∈ l, (cmp a b).isLE

def sortBy (cmp : α → α → Ordering) (l : List α) : List α :=
  l.insertionSort fun a b => (cmp a b).isLE

theorem head?_orderedInsert (cmp : α → α → Ordering) (a : α) (l : List α) :
    (l.orderedInsert (fun a b => (cmp a b).isLE) a).head? =
      match l.head? with
      | none => some a
      | some b => if (cmp a b).isLE then some a else some b := by
  cases l with
  | nil => rfl
  | cons b l =>
    rw [List.orderedInsert]
    split
    · rename_i hab
      exact (if_pos hab).symm
    · rename_i hab
      exact (if_neg hab).symm

theorem head?_sortBy_cons (cmp : α → α → Ordering) (a : α) (l : List α) :
    (sortBy cmp (a :: l)).head? =
      match (sortBy cmp l).head? with
      | none => some a
      | some b => if (cmp a b).isLE then some a else some b :=
  head?_orderedInsert cmp a _

theorem head?_sortBy_eq_none : (sortBy cmp l).head? = none ↔ l = [] := by
  rw [List.head?_eq_none_iff, sortBy, ← List.length_eq_zero_iff, List.length_insertionSort,
    List.length_eq_zero_iff]

theorem mem_of_head?_sortBy (h : (sortBy cmp l).head? = some m) : m ∈ l :=
  (List.perm_insertionSort _ l).subset (List.mem_of_head? h)

/-- What is sorted first comes after none. -/
theorem isFirst_head (hl : StrictWeakOn cmp l) (h : (sortBy cmp l).head? = some m) :
    IsFirst cmp l m := by
  refine ⟨mem_of_head?_sortBy h, ?_⟩
  induction l generalizing m with
  | nil => cases h
  | cons a l ih =>
    have hrest : StrictWeakOn cmp l := hl.mono fun x hx => List.mem_cons_of_mem a hx
    rw [head?_sortBy_cons] at h
    cases hhead : (sortBy cmp l).head? with
    | none =>
      rw [hhead] at h
      cases h
      rw [head?_sortBy_eq_none.mp hhead]
      intro b hb
      rw [List.mem_singleton.mp hb]
      exact hl.refl List.mem_cons_self
    | some b =>
      have hb := List.mem_cons_of_mem a (mem_of_head?_sortBy hhead)
      have ih := ih hrest hhead
      rw [hhead] at h
      dsimp only at h
      intro c hc
      split at h
      · rename_i hab
        cases h
        rcases List.mem_cons.mp hc with rfl | hmem
        · exact hl.refl hc
        · exact hl.trans List.mem_cons_self hb hc hab (ih c hmem)
      · rename_i hab
        cases h
        rcases List.mem_cons.mp hc with rfl | hmem
        · exact hl.of_not hc hb hab
        · exact ih c hmem

theorem IsFirst.tie (hl : StrictWeakOn cmp l) (ha : IsFirst cmp l a) (hb : IsFirst cmp l b) :
    cmp a b = .eq :=
  hl.eq_of_isLE ha.1 hb.1 (ha.2 b hb.1) (hb.2 a ha.1)

theorem IsFirst.perm (h : IsFirst cmp l a) (hperm : l'.Perm l) : IsFirst cmp l' a :=
  ⟨hperm.mem_iff.mpr h.1, fun b hb => h.2 b (hperm.mem_iff.mp hb)⟩

/-- Of those that come after none the one that was there first is sorted first. -/
theorem head?_sortBy_of_isFirst (h : IsFirst cmp (a :: l) a) :
    (sortBy cmp (a :: l)).head? = some a := by
  rw [head?_sortBy_cons]
  cases hhead : (sortBy cmp l).head? with
  | none => rfl
  | some b => exact if_pos (h.2 b (List.mem_cons_of_mem a (mem_of_head?_sortBy hhead)))

end JustApi.Lib.Comparators
