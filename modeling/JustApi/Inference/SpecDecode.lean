import JustApi.Lib.Result
import JustApi.Inference.LanguageModel

/-! # Speculative decoding

`sampleToken` and `speculativeGenerate`, the draft-target scheme. Floating-point
arithmetic and the random number generator come from outside: `Floating` lists the
operations the sampler uses and the one comparison of constants greedy decoding
rests on, `Rng` is a seeded generator of floats. -/
namespace JustApi.Inference.SpecDecode
open JustApi.Inference.LanguageModel

/-- The operations of `f32` the sampler uses. -/
class Floating (F : Type) extends Zero F, One F, Add F, Sub F, Mul F, Div F, OfScientific F where
  lt : F → F → Bool
  le : F → F → Bool
  /-- `none` when one side is not a number. -/
  cmp : F → F → Option Ordering
  max : F → F → F
  exp : F → F
  negInfinity : F
  zero_lt_threshold : lt 0 1e-7 = true

class Rng (R F : Type) where
  seedFromU64 : UInt64 → R
  gen : R → F × R

section Sampling

variable {F R : Type} [Floating F] [Rng R F]

/-- `partial_cmp(..).unwrap_or(Equal)` -/
def compare (a b : F) : Ordering := (Floating.cmp a b).getD .eq

/-- The index of the largest logit as `max_by` finds it: of equal ones the last. -/
def argmax (logits : List F) : UInt32 :=
  match logits.zipIdx with
  | [] => 0
  | head :: rest =>
    let best := rest.foldl (fun x y => if compare x.1 y.1 = .gt then x else y) head
    UInt32.ofNat best.2

def total (xs : List F) : F := xs.foldl (· + ·) 0

/-- Values sorted in descending order, with their indices. -/
def descending (xs : List F) : List (F × Nat) :=
  xs.zipIdx.mergeSort fun a b => compare b.1 a.1 != .gt

/-- Send everything below the `k`-th largest value to minus infinity. -/
def truncateTopK (scaled : List F) (k : Nat) : List F :=
  match (descending scaled)[min k (scaled.length - 1)]? with
  | some (kth, _) =>
    scaled.map fun s => if Floating.lt s (kth - 1e-6) then Floating.negInfinity else s
  | none => scaled

/-- The share of the last token that the nucleus of mass `topP` needs. -/
def nucleusCutoff (sum topP : F) : F → List F → F
  | _, [] => 1
  | cum, p :: rest =>
    if Floating.le topP (cum + p / sum) then p / sum else nucleusCutoff sum topP (cum + p / sum) rest

def truncateTopP (probs : List F) (sum topP : F) : List F :=
  let cutoff := nucleusCutoff sum topP 0 ((descending probs).map Prod.fst)
  probs.map fun p => if Floating.lt (p / sum) (cutoff - 1e-9) then 0 else p

/-- The first index at which the cumulated share exceeds `r`. -/
def pick (r sum : F) : F → List (F × Nat) → Option Nat
  | _, [] => none
  | cdf, (p, i) :: rest =>
    if Floating.lt r (cdf + p / sum) then some i else pick r sum (cdf + p / sum) rest

/-- Sample one token from `logits`; the argmax at temperature zero. -/
def sampleToken (logits : List F) (params : SamplingParams F) (rng : R) : UInt32 × R :=
  let vocab := logits.length
  if vocab = 0 then (0, rng)
  else if Floating.lt params.temperature 1e-7 then (argmax logits, rng)
  else
    let inv := 1 / Floating.max params.temperature 1e-7
    let scaled := logits.map (· * inv)
    let scaled := if 0 < params.topK ∧ params.topK < vocab then truncateTopK scaled params.topK
      else scaled
    let top := scaled.foldl Floating.max Floating.negInfinity
    let probs := scaled.map fun s => Floating.exp (s - top)
    let sum := total probs
    let probs := if Floating.lt params.topP 1 && Floating.lt 0 sum then
      truncateTopP probs sum params.topP else probs
    let sum2 := total probs
    if Floating.le sum2 0 then (UInt32.ofNat (vocab - 1), rng)
    else
      let (r, rng) := Rng.gen rng
      (UInt32.ofNat ((pick r sum2 0 probs.zipIdx).getD (vocab - 1)), rng)

end Sampling

structure AcceptanceStats where
  steps : Nat
  totalDraft : Nat
  totalAccepted : Nat
  extraEmitted : Nat
  treeBranch : Nat
  treeNodesVerified : Nat
  deriving DecidableEq, Repr

def AcceptanceStats.default : AcceptanceStats := ⟨0, 0, 0, 0, 0, 0⟩

def AcceptanceStats.withTreeBranch (branch : Nat) : AcceptanceStats :=
  { AcceptanceStats.default with treeBranch := branch }

/-- A consumer of tokens: its answer to the last of those it has been passed,
`false` to stop the stream. -/
abbrev Sink (F : Type) := List (GeneratedToken F) → Bool

def acceptAll {F : Type} : Sink F := fun _ => true

/-- The variables of a decoding loop, and in `out` the tokens the sink was passed. -/
structure Decoding (F R : Type) where
  context : List UInt32
  emitted : Nat
  rng : R
  stats : AcceptanceStats
  out : List (GeneratedToken F)

namespace Decoding

variable {F R : Type} [Floating F]

/-- Pass a token to the sink. -/
def offer (st : Decoding F R) (sink : Sink F) (id : UInt32) (finish : Option FinishReason) :
    Bool × Decoding F R :=
  let out := st.out ++ [⟨id, detokenize [id], 0, finish⟩]
  (sink out, { st with out := out })

/-- The token was taken. -/
def push (st : Decoding F R) (id : UInt32) : Decoding F R :=
  { st with emitted := st.emitted + 1, context := st.context ++ [id] }

end Decoding

section Generate

variable {F R : Type} [Floating F] [Rng R F]

/-- The draft phase: up to `gamma` tokens, ending at a stop token of the draft. -/
def propose (draft : Model F) (params : SamplingParams F) (emitted : Nat) :
    Nat → List UInt32 → List UInt32 → R → Except ModelError (List UInt32 × R)
  | 0, _, drafted, rng => .ok (drafted, rng)
  | gamma + 1, context, drafted, rng =>
    if params.maxTokens ≤ emitted + drafted.length then .ok (drafted, rng)
    else do
      let logits ← draft.forwardLogits context
      let (tok, rng) := sampleToken logits params rng
      if params.stopTokens.contains tok then pure (drafted, rng)
      else propose draft params emitted gamma (context ++ [tok]) (drafted ++ [tok]) rng

inductive Verdict where
  | accepted
  | rejected
  | cancelled
  deriving DecidableEq, Repr

/-- The verify phase: accept the drafts the target agrees with; at the first other
one emit the target's token in its place. -/
def verify (target : Model F) (params : SamplingParams F) (sink : Sink F) :
    List UInt32 → Decoding F R → Except ModelError (Verdict × Decoding F R)
  | [], st => .ok (.accepted, st)
  | dtok :: rest, st => do
    let tlogits ← target.forwardLogits st.context
    let (ttok, rng) := sampleToken tlogits params st.rng
    let st := { st with rng := rng }
    if ttok = dtok then
      let st := { st with stats := { st.stats with totalAccepted := st.stats.totalAccepted + 1 } }
      let (taken, st) := st.offer sink ttok none
      if taken then verify target params sink rest (st.push ttok) else pure (.cancelled, st)
    else
      let (taken, st) := st.offer sink ttok none
      if taken then pure (.rejected, st.push ttok) else pure (.cancelled, st)

/-- The token after a fully accepted block. -/
def bonus (target : Model F) (params : SamplingParams F) (sink : Sink F) (st : Decoding F R) :
    Except ModelError (Option FinishReason × Decoding F R) := do
  let tlogits ← target.forwardLogits st.context
  let (ttok, rng) := sampleToken tlogits params st.rng
  let stop := params.stopTokens.contains ttok
  let (taken, st) := { st with rng := rng }.offer sink ttok (if stop then some .stop else none)
  if taken then
    let st := st.push ttok
    let st := { st with stats := { st.stats with extraEmitted := st.stats.extraEmitted + 1 } }
    pure (if stop then some .stop else none, st)
  else pure (some .cancelled, st)

/-- One turn of the outer loop; `some` ends it. -/
def specRound (target draft : Model F) (params : SamplingParams F) (gamma : Nat) (sink : Sink F)
    (st : Decoding F R) : Except ModelError (Option FinishReason × Decoding F R) := do
  let st := { st with stats := { st.stats with steps := st.stats.steps + 1 } }
  let (drafted, rng) ← propose draft params st.emitted gamma st.context [] st.rng
  let st := { st with rng := rng, stats :=
    { st.stats with totalDraft := st.stats.totalDraft + drafted.length } }
  let (verdict, st) ← verify target params sink drafted st
  match verdict with
  | .cancelled => pure (some .cancelled, st)
  | .rejected => pure (none, st)
  | .accepted =>
    if st.emitted < params.maxTokens then bonus target params sink st else pure (none, st)

/-- `while emitted < max_tokens`. Every turn emits a token, so `maxTokens` turns
are enough. -/
def decodeLoop (maxTokens : Nat)
    (round : Decoding F R → Except ModelError (Option FinishReason × Decoding F R)) :
    Nat → Decoding F R → Except ModelError (FinishReason × Decoding F R)
  | 0, st => .ok (.length, st)
  | fuel + 1, st =>
    if st.emitted < maxTokens then do
      match ← round st with
      | (some finish, st) => pure (finish, st)
      | (none, st) => decodeLoop maxTokens round fuel st
    else .ok (.length, st)

def speculativeGenerate (R : Type) [Rng R F] (target draft : Model F) (prompt : List UInt32)
    (params : SamplingParams F) (gamma : Nat) (seed : UInt64) (sink : Sink F) :
    Except ModelError (FinishReason × AcceptanceStats × List (GeneratedToken F)) := do
  let st : Decoding F R := ⟨prompt, 0, Rng.seedFromU64 F seed, .default, []⟩
  let (finish, st) ← decodeLoop params.maxTokens (specRound target draft params gamma sink)
    params.maxTokens st
  pure (finish, st.stats, st.out)

end Generate

end JustApi.Inference.SpecDecode
