import Mathlib.Data.List.Basic

/-! # The autoscaler

How many replicas the fleet should have, decided from the latest metrics. Floats
come from an arbitrary type with the comparisons and the product the decision uses;
no law of theirs is needed. -/
namespace JustApi.Inference.Autoscaling

structure LlmMetrics (F : Type) where
  ttftMs : F
  queueDepth : Nat
  kvPressurePct : F
  deriving DecidableEq, Repr

structure AutoscalerConfig (F : Type) where
  minReplicas : Nat
  maxReplicas : Nat
  targetTtftMs : F
  targetKvPressurePct : F
  queueDepthScaleUp : Nat
  queueDepthScaleDown : Nat
  cooldownTicks : Nat
  deriving DecidableEq, Repr

def AutoscalerConfig.default {F : Type} [OfScientific F] : AutoscalerConfig F :=
  ⟨1, 8, 500.0, 80.0, 16, 2, 10⟩

inductive ScaleDecision where
  | scaleUp (desired : Nat)
  | scaleDown (desired : Nat)
  | hold (desired : Nat)
  deriving DecidableEq, Repr

structure Autoscaler (F : Type) where
  config : AutoscalerConfig F
  current : Nat
  cooldown : Nat
  deriving DecidableEq, Repr

namespace Autoscaler

variable {F : Type}

def new (config : AutoscalerConfig F) : Autoscaler F :=
  { config, current := min (max config.minReplicas 1) (max config.maxReplicas 1), cooldown := 0 }

def inCooldown (a : Autoscaler F) : Bool := 0 < a.cooldown

/-- The bounds are in order, and the desired count is within them. -/
structure Bounded (a : Autoscaler F) : Prop where
  positive : 1 ≤ a.config.minReplicas
  low : a.config.minReplicas ≤ a.current
  high : a.current ≤ a.config.maxReplicas

theorem bounded_new {config : AutoscalerConfig F} (hmin : 1 ≤ config.minReplicas)
    (hmax : config.minReplicas ≤ config.maxReplicas) : (new config).Bounded := by
  have hcur : (new config).current = config.minReplicas := by
    show min (max config.minReplicas 1) (max config.maxReplicas 1) = config.minReplicas
    omega
  exact ⟨hmin, Nat.le_of_eq hcur.symm, hcur.symm ▸ hmax⟩

section Decide

variable [LE F] [DecidableLE F] [Mul F] [OfScientific F]

/-- A signal is at or above its saturation threshold. -/
def saturated (config : AutoscalerConfig F) (m : LlmMetrics F) : Bool :=
  config.targetKvPressurePct ≤ m.kvPressurePct || config.targetTtftMs ≤ m.ttftMs ||
    config.queueDepthScaleUp ≤ m.queueDepth

/-- All signals are at most at half of their targets. -/
def underused (config : AutoscalerConfig F) (m : LlmMetrics F) : Bool :=
  m.kvPressurePct ≤ config.targetKvPressurePct * 0.5 && m.ttftMs ≤ config.targetTtftMs * 0.5 &&
    m.queueDepth ≤ config.queueDepthScaleDown

/-- The count `decide` moves to outside a cooldown. -/
def target (a : Autoscaler F) (m : LlmMetrics F) : Nat :=
  if saturated a.config m then min (a.current + 1) a.config.maxReplicas
  else if underused a.config m then max (a.current - 1) a.config.minReplicas
  else a.current

def decide (a : Autoscaler F) (m : LlmMetrics F) : ScaleDecision × Autoscaler F :=
  if 0 < a.cooldown then (.hold a.current, { a with cooldown := a.cooldown - 1 })
  else
    let desired := a.target m
    if desired = a.current then (.hold a.current, a)
    else
      let a' := { a with current := desired, cooldown := a.config.cooldownTicks }
      if a.current < desired then (.scaleUp desired, a') else (.scaleDown desired, a')

theorem config_decide (a : Autoscaler F) (m : LlmMetrics F) : (a.decide m).2.config = a.config := by
  unfold decide
  split
  · rfl
  · dsimp only
    split
    · rfl
    · split <;> rfl

/-- A decision keeps the count within the bounds. -/
theorem Bounded.decide {a : Autoscaler F} (h : a.Bounded) (m : LlmMetrics F) :
    (a.decide m).2.Bounded := by
  have htarget : a.config.minReplicas ≤ a.target m ∧ a.target m ≤ a.config.maxReplicas := by
    have hlow := h.low
    have hhigh := h.high
    unfold target
    split
    · omega
    · split <;> omega
  unfold Autoscaler.decide
  split
  · exact ⟨h.positive, h.low, h.high⟩
  · dsimp only
    split
    · exact h
    · split <;> exact ⟨h.positive, htarget.1, htarget.2⟩

end Decide

end Autoscaler

end JustApi.Inference.Autoscaling
