import Mathlib.Data.List.Basic

/-! # Models and sampling parameters

What a generation request asks for and what a model answers, over an arbitrary
type `F` of floating-point numbers. The stop sequences need a tokenizer and are
left out with it. -/
namespace JustApi.Inference.LanguageModel

structure SamplingParams (F : Type) where
  /-- Maximum number of new tokens. -/
  maxTokens : Nat
  temperature : F
  topP : F
  /-- Top-k cutoff, 0 when disabled. -/
  topK : Nat
  stopTokens : List UInt32
  deriving DecidableEq, Repr

def SamplingParams.default {F : Type} [One F] : SamplingParams F := ⟨256, 1, 1, 0, []⟩

/-- Why a generation stream ended. -/
inductive FinishReason where
  | length
  | stop
  | cancelled
  deriving DecidableEq, Repr

/-- A streamed token. -/
structure GeneratedToken (F : Type) where
  id : UInt32
  text : String
  logprob : F
  finishReason : Option FinishReason
  deriving DecidableEq, Repr

inductive ModelError where
  | notFound (model : String)
  | featureRequired (feature : String)
  | notImplemented
  | generation (message : String)
  | io (message : String)
  deriving DecidableEq, Repr

/-- The scoring side of a model: the next-token logits of a context. -/
structure Model (F : Type) where
  forwardLogits : List UInt32 → Except ModelError (List F)

/-- A model that never fails. -/
def Model.ofTotal {F : Type} (logits : List UInt32 → List F) : Model F :=
  ⟨fun context => .ok (logits context)⟩

@[simp] theorem Model.forwardLogits_ofTotal {F : Type} (logits : List UInt32 → List F)
    (context : List UInt32) : (ofTotal logits).forwardLogits context = .ok (logits context) := rfl

/-- `MockModel::detokenize`: the low byte of each id as a character. -/
def detokenize (ids : List UInt32) : String :=
  String.ofList (ids.map fun id => Char.ofNat (id.toNat % 256))

end JustApi.Inference.LanguageModel
