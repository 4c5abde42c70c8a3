import JustApi.Lib.Run
import JustApi.Inference.Autoscaling

/-! # Runs of the autoscaler

What a sequence of metrics makes of an autoscaler. The replica count stays within
the bounds and moves by at most one, each decision says how it moved, and between
two moves lie the ticks of a whole cooldown. -/
namespace JustApi.Inference.ScalingRuns
open JustApi.Lib.Run JustApi.Inference.Autoscaling

def isHold : ScaleDecision → Bool
  | .hold _ => true
  | .scaleUp _ | .scaleDown _ => false

/-- A call of `decide`: the metrics it was given and what it returned. -/
abbrev Call (F : Type) := LlmMetrics F × ScaleDecision

section History

variable {F : Type} {a a' : Autoscaler F} {d : ScaleDecision}

/-- The decision carries the new count, and its kind says how the count moved. -/
def Announces (a : Autoscaler F) (d : ScaleDecision) (a' : Autoscaler F) : Prop :=
  match d with
  | .hold n => n = a'.current ∧ a'.current = a.current
  | .scaleUp n => n = a'.current ∧ a'.current = a.current + 1
  | .scaleDown n => n = a'.current ∧ a'.current + 1 = a.current

/-- What is left of the cooldown after a call: one tick less, or all of it. -/
def Cools (a : Autoscaler F) (d : ScaleDecision) (a' : Autoscaler F) : Prop :=
  if isHold d then a'.cooldown = a.cooldown - 1
  else a.cooldown = 0 ∧ a'.cooldown = a.config.cooldownTicks

/-- A call changes the count. -/
def Moves (a a' : Autoscaler F) : Prop := a'.current ≠ a.current

/-- The calls between two that change the count hold for a whole cooldown. -/
def Spaced (start : Autoscaler F) (tr : List (Call F × Autoscaler F)) : Prop :=
  ∀ before x between y after, tr = before ++ x :: (between ++ y :: after) →
    Moves (last start before) x.2 → Moves (last x.2 between) y.2 →
      start.config.cooldownTicks ≤ between.countP fun e => isHold e.1.2

theorem isHold_of_moves (h : Announces a d a') (hm : Moves a a') : isHold d = false := by
  cases d with
  | hold n => exact absurd h.2 hm
  | scaleUp n => rfl
  | scaleDown n => rfl

theorem Announces.near (h : Announces a d a') :
    a'.current ≤ a.current + 1 ∧ a.current ≤ a'.current + 1 := by
  cases d <;> simp [Announces] at h <;> omega

/-- A cooldown is worked off by calls that hold. -/
theorem cooldown_le_holds {s : Autoscaler F} {tr : List (Call F × Autoscaler F)}
    (hrun : Along (fun a call a' => Cools a call.2 a') s tr) :
    s.cooldown ≤ (last s tr).cooldown + tr.countP fun e => isHold e.1.2 := by
  induction tr generalizing s with
  | nil => simp [last]
  | cons head rest ih =>
    obtain ⟨⟨m, d⟩, t⟩ := head
    obtain ⟨hcool, hrest⟩ := hrun
    have hle := ih hrest
    cases hd : isHold d with
    | true =>
      simp [Cools, hd] at hcool
      simp [last, hd]
      omega
    | false =>
      simp [Cools, hd] at hcool
      simp [hcool.1]

theorem config_last {s : Autoscaler F} {tr : List (Call F × Autoscaler F)}
    (hrun : Along (fun a _ a' => a'.config = a.config) s tr) :
    (last s tr).config = s.config := by
  refine hrun.invariant (I := fun t => t.config = s.config) ?_ rfl _ (last_mem_visited s tr)
  intro a _ a' ha hstep
  rw [hstep, ha]

end History

section Decide

variable {F : Type} [LE F] [DecidableLE F] [Mul F] [OfScientific F]
variable {a a' : Autoscaler F} {m : LlmMetrics F} {d : ScaleDecision}

def Step (a : Autoscaler F) (call : Call F) (a' : Autoscaler F) : Prop :=
  a.decide call.1 = (call.2, a')

/-- The calls that a list of metrics makes. -/
def calls (a : Autoscaler F) : List (LlmMetrics F) → List (Call F × Autoscaler F)
  | [] => []
  | m :: rest => ((m, (a.decide m).1), (a.decide m).2) :: calls (a.decide m).2 rest

theorem along_calls (a : Autoscaler F) (ms : List (LlmMetrics F)) : Along Step a (calls a ms) := by
  induction ms generalizing a with
  | nil => trivial
  | cons m rest ih => exact ⟨rfl, ih (a.decide m).2⟩

/-- Outside a cooldown the count moves with the load. -/
def Follows (a : Autoscaler F) (m : LlmMetrics F) (a' : Autoscaler F) : Prop :=
  a.cooldown = 0 → (Autoscaler.saturated a.config m = true → a.current ≤ a'.current) ∧
    (Autoscaler.saturated a.config m = false → a'.current ≤ a.current)

/-- The count `decide` moves to is the next one in the direction of the load. -/
theorem target_cases (h : a.Bounded) (m : LlmMetrics F) :
    a.target m = a.current ∨
    (Autoscaler.saturated a.config m = true ∧ a.target m = a.current + 1) ∨
    (Autoscaler.saturated a.config m = false ∧ a.target m + 1 = a.current) := by
  have hlow := h.low
  have hhigh := h.high
  have hpos := h.positive
  unfold Autoscaler.target
  split
  · rename_i hs
    by_cases hmax : a.current = a.config.maxReplicas
    · exact .inl (by omega)
    · exact .inr (.inl ⟨hs, by omega⟩)
  · rename_i hs
    split
    · by_cases hmin : a.current = a.config.minReplicas
      · exact .inl (by omega)
      · exact .inr (.inr ⟨by simpa using hs, by omega⟩)
    · exact .inl rfl

/-- The four ways a call can go: a tick of the cooldown, no need to move, one up,
one down. -/
theorem decide_cases (h : a.Bounded) (hd : a.decide m = (d, a')) :
    (0 < a.cooldown ∧ d = .hold a.current ∧ a' = { a with cooldown := a.cooldown - 1 }) ∨
    (a.cooldown = 0 ∧ d = .hold a.current ∧ a' = a) ∨
    (a.cooldown = 0 ∧ Autoscaler.saturated a.config m = true ∧ d = .scaleUp (a.current + 1) ∧
      a' = { a with current := a.current + 1, cooldown := a.config.cooldownTicks }) ∨
    (a.cooldown = 0 ∧ Autoscaler.saturated a.config m = false ∧
      ∃ n, n + 1 = a.current ∧ d = .scaleDown n ∧
        a' = { a with current := n, cooldown := a.config.cooldownTicks }) := by
  unfold Autoscaler.decide at hd
  by_cases hc : 0 < a.cooldown
  · simp only [if_pos hc, Prod.mk.injEq] at hd
    exact .inl ⟨hc, hd.1.symm, hd.2.symm⟩
  · have hc0 : a.cooldown = 0 := by omega
    simp only [if_neg hc] at hd
    rcases target_cases h m with ht | ⟨hs, ht⟩ | ⟨hs, ht⟩
    · simp only [if_pos ht, Prod.mk.injEq] at hd
      exact .inr (.inl ⟨hc0, hd.1.symm, hd.2.symm⟩)
    · have hne : a.target m ≠ a.current := by omega
      have hlt : a.current < a.target m := by omega
      simp only [if_neg hne, if_pos hlt, Prod.mk.injEq] at hd
      rw [ht] at hd
      exact .inr (.inr (.inl ⟨hc0, hs, hd.1.symm, hd.2.symm⟩))
    · have hne : a.target m ≠ a.current := by omega
      have hlt : ¬ a.current < a.target m := by omega
      simp only [if_neg hne, if_neg hlt, Prod.mk.injEq] at hd
      exact .inr (.inr (.inr ⟨hc0, hs, a.target m, ht, hd.1.symm, hd.2.symm⟩))

/-- What one call does. -/
theorem step_spec {call : Call F} (h : a.Bounded) (hs : Step a call a') :
    a'.Bounded ∧ a'.config = a.config ∧ Announces a call.2 a' ∧ Follows a call.1 a' ∧
      Cools a call.2 a' := by
  obtain ⟨m, d⟩ := call
  have hb : a'.Bounded := by
    have := h.decide m
    rwa [hs] at this
  have hconfig : a'.config = a.config := by
    have := Autoscaler.config_decide a m
    rwa [hs] at this
  refine ⟨hb, hconfig, ?_⟩
  rcases decide_cases h hs with ⟨hc, rfl, rfl⟩ | ⟨hc, rfl, rfl⟩ | ⟨hc, hsat, rfl, rfl⟩ |
    ⟨hc, hsat, n, hn, rfl, rfl⟩
  · simp [Announces, Follows, Cools, isHold]
  · simp [Announces, Follows, Cools, isHold, hc]
  · simp [Announces, Follows, Cools, isHold, hc, hsat]
  · simp [Announces, Follows, Cools, isHold, hc, hsat, ← hn]

/-- From a bounded autoscaler every call keeps to the rules. -/
theorem along_spec (h : a.Bounded) (ms : List (LlmMetrics F)) :
    Along (fun a call a' => a'.config = a.config ∧ Announces a call.2 a' ∧ Follows a call.1 a' ∧
      Cools a call.2 a') a (calls a ms) :=
  (along_calls a ms).of_invariant (fun _ _ _ hb hs => step_spec hb hs) h

theorem spaced_calls (h : a.Bounded) (ms : List (LlmMetrics F)) : Spaced a (calls a ms) := by
  intro before x between y after htr hx hy
  have hrun := along_spec h ms
  rw [htr] at hrun
  obtain ⟨hbefore, hstep, hrest⟩ := along_append.mp hrun
  obtain ⟨hbetween, hstep', -⟩ := along_append.mp hrest
  -- the first change sets the cooldown, the second one finds it over
  have hset := hstep.2.2.2
  have hover := hstep'.2.2.2
  simp [Cools, isHold_of_moves hstep.2.1 hx] at hset
  simp [Cools, isHold_of_moves hstep'.2.1 hy] at hover
  have hconfig := config_last (hbefore.imp fun _ _ _ hq => hq.1)
  have hle := cooldown_le_holds (hbetween.imp fun _ _ _ hq => hq.2.2.2)
  rwa [hset.2, hover.1, hconfig, Nat.zero_add] at hle

end Decide

end JustApi.Inference.ScalingRuns
