import Mathlib.Data.List.Basic

/-! # What can be derived

A rule for each element of `rule`: it can be derived once everything it needs is given
or derived. Which rules may be used is a parameter, so that derivations which do without
some of them can be compared with all. -/
namespace JustApi.Lib.Derivation

variable {α : Type*} {rule rule' given : α → Prop} {needs : α → List α} {a b : α}

/-- The least set that contains an element of `rule` as soon as all it needs is given or
in the set. -/
inductive Derivable (rule : α → Prop) (needs : α → List α) (given : α → Prop) : α → Prop
  | intro {a : α} : rule a → (∀ d ∈ needs a, ¬ given d → Derivable rule needs given d) →
      Derivable rule needs given a

namespace Derivable

theorem rule_of (h : Derivable rule needs given a) : rule a := by
  cases h
  assumption

theorem mono (h : Derivable rule needs given a) (hsub : ∀ x, rule x → rule' x) :
    Derivable rule' needs given a := by
  induction h with
  | intro hrule _ ih => exact .intro (hsub _ hrule) ih

/-- What an element needs can be derived without its own rule: a derivation that used it
would have derived the element itself before. -/
theorem without_self (h : Derivable rule needs given a) :
    ∀ d ∈ needs a, ¬ given d → Derivable (fun x => rule x ∧ x ≠ a) needs given d := by
  by_contra hnot
  have hall : ∀ x, Derivable rule needs given x →
      Derivable (fun x => rule x ∧ x ≠ a) needs given x := by
    intro x hx
    induction hx with
    | @intro x hrule _ ih =>
      refine .intro ⟨hrule, ?_⟩ ih
      rintro rfl
      exact hnot ih
  exact (hall a h).rule_of.2 rfl

/-- The rule of what is given anyway is needed for nothing else. -/
theorem without_given (h : Derivable rule needs given a) (hgiven : given b) (hne : a ≠ b) :
    Derivable (fun x => rule x ∧ x ≠ b) needs given a := by
  induction h with
  | @intro x hrule _ ih =>
    refine .intro ⟨hrule, hne⟩ fun d hd hnot => ih d hd hnot ?_
    rintro rfl
    exact hnot hgiven

/-- Where every element of a set still needs something that is neither given nor outside
the set and derivable, the set has nothing that can be derived. -/
theorem not_of_stuck (stuck : α → Prop)
    (hstuck : ∀ x, stuck x → rule x → ∃ d ∈ needs x, ¬ given d ∧ (rule d → stuck d))
    (hx : stuck a) : ¬ Derivable rule needs given a := by
  intro h
  induction h with
  | @intro x hrule hneeds ih =>
    obtain ⟨d, hd, hnot, hd'⟩ := hstuck x hx hrule
    exact ih d hd hnot (hd' (hneeds d hd hnot).rule_of)

end Derivable

end JustApi.Lib.Derivation
