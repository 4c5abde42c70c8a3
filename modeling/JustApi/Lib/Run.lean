import Mathlib.Data.List.Basic

/-! # Finite runs of a labelled transition system

A run from `s` is the list of its steps, each a label with the state the step
led to. A statement about every step of a run is `Along`; the states a run goes
through are `visited`. The rules below turn a fact about one step into a fact
about every state of every run. -/
namespace JustApi.Lib.Run

variable {σ α : Type*}

/-- Every step of the run `tr` from `s` satisfies `Q`. The steps of a system are
themselves such a `Q`, so a run of the system `Step` is `Along Step s tr`. -/
def Along (Q : σ → α → σ → Prop) : σ → List (α × σ) → Prop
  | _, [] => True
  | s, (a, t) :: rest => Q s a t ∧ Along Q t rest

/-- The states of the run, the initial one included. -/
def visited (s : σ) (tr : List (α × σ)) : List σ := s :: tr.map Prod.snd

@[simp] theorem along_nil (Q : σ → α → σ → Prop) (s : σ) : Along Q s [] := trivial

@[simp] theorem along_cons (Q : σ → α → σ → Prop) (s t : σ) (a : α) (rest : List (α × σ)) :
    Along Q s ((a, t) :: rest) ↔ Q s a t ∧ Along Q t rest := Iff.rfl

@[simp] theorem visited_nil (s : σ) : visited s ([] : List (α × σ)) = [s] := rfl

@[simp] theorem visited_cons (s t : σ) (a : α) (rest : List (α × σ)) :
    visited s ((a, t) :: rest) = s :: visited t rest := rfl

theorem start_mem_visited (s : σ) (tr : List (α × σ)) : s ∈ visited s tr :=
  List.mem_cons_self

theorem Along.and {Q R : σ → α → σ → Prop} {s : σ} {tr : List (α × σ)}
    (hq : Along Q s tr) (hr : Along R s tr) : Along (fun s a t => Q s a t ∧ R s a t) s tr := by
  induction tr generalizing s with
  | nil => trivial
  | cons head rest ih =>
    obtain ⟨a, t⟩ := head
    exact ⟨⟨hq.1, hr.1⟩, ih hq.2 hr.2⟩

theorem Along.imp {Q R : σ → α → σ → Prop} {s : σ} {tr : List (α × σ)}
    (h : ∀ s a t, Q s a t → R s a t) (hq : Along Q s tr) : Along R s tr := by
  induction tr generalizing s with
  | nil => trivial
  | cons head rest ih =>
    obtain ⟨a, t⟩ := head
    exact ⟨h s a t hq.1, ih hq.2⟩

/-- An invariant of one step is an invariant of every state of a run. -/
theorem Along.invariant {Q : σ → α → σ → Prop} {I : σ → Prop} {s : σ} {tr : List (α × σ)}
    (hstep : ∀ s a t, I s → Q s a t → I t) (hs : I s) (hrun : Along Q s tr) :
    ∀ t ∈ visited s tr, I t := by
  induction tr generalizing s with
  | nil => simpa using hs
  | cons head rest ih =>
    obtain ⟨a, t⟩ := head
    obtain ⟨hq, hrest⟩ := hrun
    have ht : I t := hstep s a t hs hq
    intro u hu
    rcases List.mem_cons.mp hu with rfl | hu
    · exact hs
    · exact ih ht hrest u hu

/-- What one step guarantees under an invariant holds of every step of a run. -/
theorem Along.of_invariant {Q R : σ → α → σ → Prop} {I : σ → Prop} {s : σ} {tr : List (α × σ)}
    (hrun : Along Q s tr) (hstep : ∀ s a t, I s → Q s a t → I t ∧ R s a t) (hs : I s) :
    Along R s tr := by
  induction tr generalizing s with
  | nil => trivial
  | cons head rest ih =>
    obtain ⟨a, t⟩ := head
    obtain ⟨ht, hr⟩ := hstep s a t hs hrun.1
    exact ⟨hr, ih hrun.2 ht⟩

/-- When, from a state of the invariant `I`, a step keeps `P` exactly if its
label meets the condition `C`, a run keeps `P` throughout exactly if all its
steps meet `C`. -/
theorem Along.forall_visited_iff {Q : σ → α → σ → Prop} {I P : σ → Prop} {C : σ → α → Prop}
    {s : σ} {tr : List (α × σ)}
    (hkeep : ∀ s a t, I s → Q s a t → C s a → I t)
    (hneed : ∀ s a t, I s → Q s a t → P t → C s a)
    (himp : ∀ s, I s → P s) (hs : I s) (hrun : Along Q s tr) :
    (∀ t ∈ visited s tr, P t) ↔ Along (fun s a _ => C s a) s tr := by
  induction tr generalizing s with
  | nil => simpa using himp s hs
  | cons head rest ih =>
    obtain ⟨a, t⟩ := head
    obtain ⟨hq, hrest⟩ := hrun
    rw [visited_cons, along_cons]
    constructor
    · intro h
      have hc : C s a := hneed s a t hs hq (h t (List.mem_cons_of_mem _ (start_mem_visited t rest)))
      refine ⟨hc, (ih (hkeep s a t hs hq hc) hrest).mp ?_⟩
      exact fun u hu => h u (List.mem_cons_of_mem _ hu)
    · rintro ⟨hc, hall⟩ u hu
      rcases List.mem_cons.mp hu with rfl | hu
      · exact himp _ hs
      · exact (ih (hkeep s a t hs hq hc) hrest).mpr hall u hu

/-- Two conditions on steps that agree wherever the invariant holds agree along
every run. -/
theorem Along.congr_of_invariant {Q A B : σ → α → σ → Prop} {I : σ → Prop} {s : σ}
    {tr : List (α × σ)} (hstep : ∀ s a t, I s → Q s a t → I t ∧ (A s a t ↔ B s a t)) (hs : I s)
    (hrun : Along Q s tr) : Along A s tr ↔ Along B s tr := by
  induction tr generalizing s with
  | nil => exact Iff.rfl
  | cons head rest ih =>
    obtain ⟨a, t⟩ := head
    obtain ⟨ht, hiff⟩ := hstep s a t hs hrun.1
    rw [along_cons, along_cons, hiff, ih ht hrun.2]

/-! ## Where a run leads -/

/-- The last state of a run. -/
def last : σ → List (α × σ) → σ
  | s, [] => s
  | _, (_, t) :: rest => last t rest

theorem last_mem_visited (s : σ) (tr : List (α × σ)) : last s tr ∈ visited s tr := by
  induction tr generalizing s with
  | nil => exact List.mem_cons_self
  | cons head rest ih => exact List.mem_cons_of_mem _ (ih head.2)

theorem along_append {Q : σ → α → σ → Prop} {s : σ} {tr tr' : List (α × σ)} :
    Along Q s (tr ++ tr') ↔ Along Q s tr ∧ Along Q (last s tr) tr' := by
  induction tr generalizing s with
  | nil => exact ⟨fun h => ⟨trivial, h⟩, And.right⟩
  | cons head rest ih =>
    rw [List.cons_append, along_cons, along_cons, ih, and_assoc]
    rfl

theorem last_append (s : σ) (tr tr' : List (α × σ)) :
    last s (tr ++ tr') = last (last s tr) tr' := by
  induction tr generalizing s with
  | nil => rfl
  | cons head rest ih => exact ih head.2

/-- Some run leads from the one state to the other. -/
def Leads (Q : σ → α → σ → Prop) (s t : σ) : Prop := ∃ tr, Along Q s tr ∧ last s tr = t

namespace Leads

variable {Q : σ → α → σ → Prop} {s t u : σ}

theorem refl (Q : σ → α → σ → Prop) (s : σ) : Leads Q s s := ⟨[], trivial, rfl⟩

theorem trans (h : Leads Q s t) (h' : Leads Q t u) : Leads Q s u := by
  obtain ⟨tr, hrun, rfl⟩ := h
  obtain ⟨tr', hrun', rfl⟩ := h'
  exact ⟨tr ++ tr', along_append.mpr ⟨hrun, hrun'⟩, last_append s tr tr'⟩

theorem visited (h : Leads Q s t) : ∃ tr, Along Q s tr ∧ t ∈ Run.visited s tr := by
  obtain ⟨tr, hrun, rfl⟩ := h
  exact ⟨tr, hrun, last_mem_visited s tr⟩

theorem single {a : α} (h : Q s a t) : Leads Q s t := ⟨[(a, t)], ⟨h, trivial⟩, rfl⟩

theorem invariant {I : σ → Prop} (hstep : ∀ s a t, I s → Q s a t → I t) (hs : I s)
    (h : Leads Q s t) : I t := by
  obtain ⟨tr, hrun, rfl⟩ := h
  exact hrun.invariant hstep hs _ (last_mem_visited s tr)

/-- What holds along every run holds of each step that a run can come to. -/
theorem of_forall_along {R : σ → α → σ → Prop} {a : α} (h : Leads Q s t) (hstep : Q t a u)
    (hall : ∀ tr, Along Q s tr → Along R s tr) : R t a u := by
  obtain ⟨tr, hrun, rfl⟩ := h
  have hlast := hall (tr ++ [(a, u)]) (along_append.mpr ⟨hrun, hstep, trivial⟩)
  exact (along_append.mp hlast).2.1

end Leads

/-- A measure that every step lowers bounds the length of a run. -/
theorem Along.length_add_le {Q : σ → α → σ → Prop} {I : σ → Prop} {s : σ}
    {tr : List (α × σ)} (measure : σ → Nat)
    (hstep : ∀ s a t, I s → Q s a t → I t ∧ measure t < measure s) (hs : I s)
    (hrun : Along Q s tr) : tr.length + measure (last s tr) ≤ measure s := by
  induction tr generalizing s with
  | nil => exact Nat.le_of_eq (Nat.zero_add _)
  | cons head rest ih =>
    obtain ⟨ht, hlt⟩ := hstep s head.1 head.2 hs hrun.1
    have := ih ht hrun.2
    rw [List.length_cons, last]
    omega

/-- How many steps of a run are of a kind. -/
def countSteps (kind : σ → α → Bool) : σ → List (α × σ) → Nat
  | _, [] => 0
  | s, (a, t) :: rest => (kind s a).toNat + countSteps kind t rest

theorem countSteps_le_length (kind : σ → α → Bool) (s : σ) (tr : List (α × σ)) :
    countSteps kind s tr ≤ tr.length := by
  induction tr generalizing s with
  | nil => exact Nat.le_refl 0
  | cons head rest ih =>
    have hone : (kind s head.1).toNat ≤ 1 := Bool.toNat_le _
    have := ih head.2
    rw [countSteps, List.length_cons]
    omega

/-- A measure that no step raises and every step of a kind lowers bounds how many steps of
that kind a run has. -/
theorem Along.countSteps_add_le {Q : σ → α → σ → Prop} {I : σ → Prop} {s : σ}
    {tr : List (α × σ)} (kind : σ → α → Bool) (measure : σ → Nat)
    (hstep : ∀ s a t, I s → Q s a t → I t ∧ (kind s a).toNat + measure t ≤ measure s) (hs : I s)
    (hrun : Along Q s tr) : countSteps kind s tr + measure (last s tr) ≤ measure s := by
  induction tr generalizing s with
  | nil => exact Nat.le_of_eq (Nat.zero_add _)
  | cons head rest ih =>
    obtain ⟨ht, hle⟩ := hstep s head.1 head.2 hs hrun.1
    have := ih ht hrun.2
    rw [countSteps, last]
    omega

instance decidableAlong {Q : σ → α → σ → Prop} [∀ s a t, Decidable (Q s a t)] :
    ∀ (s : σ) (tr : List (α × σ)), Decidable (Along Q s tr)
  | _, [] => .isTrue trivial
  | s, (a, t) :: rest =>
    have := decidableAlong (Q := Q) t rest
    inferInstanceAs (Decidable (Q s a t ∧ Along Q t rest))

/-- The error of a step that cannot be taken in the state it is tried in. -/
inductive Disabled where
  | disabled
  deriving DecidableEq, Repr

section Replay

variable {ε : Type*} (exec : σ → α → Except ε σ)

/-- The run a list of labels gives when steps are computed, up to the first
failure. -/
def replay : σ → List α → List (α × σ)
  | _, [] => []
  | s, a :: rest =>
    match exec s a with
    | .ok t => (a, t) :: replay t rest
    | .error _ => []

/-- Only the given labels occur in a computed run. -/
theorem along_replay_labels {P : α → Prop} (s : σ) (as : List α) (h : ∀ a ∈ as, P a) :
    Along (fun s a t => P a ∧ exec s a = .ok t) s (replay exec s as) := by
  induction as generalizing s with
  | nil => trivial
  | cons a rest ih =>
    simp only [replay]
    split
    · exact ⟨⟨h a List.mem_cons_self, ‹_›⟩, ih _ fun b hb => h b (List.mem_cons_of_mem _ hb)⟩
    · trivial

theorem along_replay (s : σ) (as : List α) :
    Along (fun s a t => exec s a = .ok t) s (replay exec s as) := by
  have h := along_replay_labels exec (P := fun _ => True) s as fun _ _ => trivial
  simpa only [true_and] using h

/-- The last state of a computed run. -/
def final (s : σ) (as : List α) : σ := (((replay exec s as).map Prod.snd).getLast?).getD s

/-- The steps of a computed run one at a time. -/
theorem final_cons {s t : σ} {a : α} (h : exec s a = .ok t) (as : List α) :
    final exec s (a :: as) = final exec t as := by
  simp only [final, replay, h, List.map_cons, List.getLast?_cons, Option.getD_some]

theorem final_mem_visited (s : σ) (as : List α) : final exec s as ∈ visited s (replay exec s as) := by
  unfold final
  cases h : ((replay exec s as).map Prod.snd).getLast? with
  | none => exact start_mem_visited s _
  | some t => exact List.mem_cons_of_mem _ (List.mem_of_getLast? h)

theorem last_eq (s : σ) (tr : List (α × σ)) :
    last s tr = ((tr.map Prod.snd).getLast?).getD s := by
  induction tr generalizing s with
  | nil => rfl
  | cons head rest ih =>
    obtain ⟨a, t⟩ := head
    rw [last, ih, List.map_cons, List.getLast?_cons, Option.getD_some]

/-- A computed run leads to its last state. -/
theorem leads_final (s : σ) (as : List α) :
    Leads (fun s a t => exec s a = .ok t) s (final exec s as) :=
  ⟨replay exec s as, along_replay exec s as, last_eq s _⟩

end Replay

end JustApi.Lib.Run
