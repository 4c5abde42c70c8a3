import Mathlib.Algebra.Group.Nat.Defs
import JustApi.Inference.SpecDecode

/-! # Tree-based speculative decoding

The draft proposes a tree of candidates, the target walks one path through it. The
children of a node keep the order of `top_k_tokens`; a walk takes the first match. -/
namespace JustApi.Inference.SpecDecodeTree
open JustApi.Inference.LanguageModel JustApi.Inference.SpecDecode

inductive TreeNode (F : Type) where
  | mk (token : UInt32) (score : F) (children : List (TreeNode F))

namespace TreeNode

variable {F : Type}

def token : TreeNode F → UInt32 | mk token _ _ => token
def score : TreeNode F → F | mk _ score _ => score
def children : TreeNode F → List (TreeNode F) | mk _ _ children => children

end TreeNode

structure DraftTree (F : Type) where
  roots : List (TreeNode F)
  gamma : Nat
  branch : Nat

/-- A `u64` result, without overflow checks. -/
def u64 (n : Nat) : Nat := n % 2 ^ 64

/-- The number of nodes of a full tree, in wrapping arithmetic. -/
def DraftTree.totalNodes {F : Type} (tree : DraftTree F) : Nat :=
  if tree.branch = 0 ∨ tree.gamma = 0 then 0
  else if tree.branch = 1 then tree.gamma
  else
    let power := u64 (tree.branch ^ (tree.gamma % 2 ^ 32))
    u64 (tree.branch * u64 (power + (2 ^ 64 - 1))) / (tree.branch - 1)

section Tree

variable {F R : Type} [Floating F] [Rng R F]

/-- The `k` tokens with the largest logits, in descending order. -/
def topKTokens (logits : List F) (k : Nat) : List (UInt32 × F) :=
  ((descending logits).take k).map fun e => (UInt32.ofNat e.2, e.1)

def expand (draft : Model F) (branch : Nat) :
    Nat → List UInt32 → Except ModelError (List (TreeNode F))
  | 0, _ => .ok []
  | depth + 1, context => do
    let logits ← draft.forwardLogits context
    (topKTokens logits branch).mapM fun c => do
      let children ← expand draft branch depth (context ++ [c.1])
      pure (TreeNode.mk c.1 c.2 children)

def buildDraftTree (draft : Model F) (context : List UInt32) (gamma branch : Nat) :
    Except ModelError (DraftTree F) :=
  if gamma = 0 ∨ branch = 0 then .ok ⟨[], 0, 0⟩
  else do
    let roots ← expand draft branch gamma context
    pure ⟨roots, gamma, branch⟩

/-- What `verifyTree` returns: the accepted tokens and the token after them. -/
structure Verified where
  accepted : List UInt32
  bonusOrCorrection : Option UInt32
  count : Nat
  deriving DecidableEq, Repr

/-- The target's token after the accepted ones. -/
def targetToken (target : Model F) (params : SamplingParams F) (context : List UInt32) (rng : R) :
    Except ModelError (UInt32 × R) := do
  let logits ← target.forwardLogits context
  pure (sampleToken logits params rng)

/-- The walk down the tree: `frontier` are the candidates at this depth. -/
def walk (target : Model F) (params : SamplingParams F) :
    Nat → List UInt32 → List (TreeNode F) → List UInt32 → R → Except ModelError (Verified × R)
  | 0, context, _, accepted, rng => do
    let (tok, rng) ← targetToken target params context rng
    pure (⟨accepted, some tok, accepted.length⟩, rng)
  | depth + 1, context, frontier, accepted, rng => do
    let (tok, rng) ← targetToken target params context rng
    match frontier.find? fun n => n.token == tok with
    | none => pure (⟨accepted, some tok, accepted.length⟩, rng)
    | some node =>
      if node.children.isEmpty then do
        let (next, rng) ← targetToken target params (context ++ [tok]) rng
        pure (⟨accepted ++ [tok], some next, accepted.length + 1⟩, rng)
      else walk target params depth (context ++ [tok]) node.children (accepted ++ [tok]) rng

def verifyTree (target : Model F) (tree : DraftTree F) (context : List UInt32)
    (params : SamplingParams F) (rng : R) : Except ModelError (Verified × R) :=
  walk target params tree.gamma context tree.roots [] rng

/-- Pass a token to the sink with its stop mark; `some` ends the stream. -/
def emit (params : SamplingParams F) (sink : Sink F) (st : Decoding F R) (tok : UInt32) :
    Option FinishReason × Decoding F R :=
  let stop := params.stopTokens.contains tok
  let (taken, st) := st.offer sink tok (if stop then some .stop else none)
  if taken then (if stop then some .stop else none, st.push tok) else (some .cancelled, st)

/-- The loop over the accepted tokens, within `max_tokens`. -/
def emitAccepted (params : SamplingParams F) (sink : Sink F) :
    List UInt32 → Decoding F R → Option FinishReason × Decoding F R
  | [], st => (none, st)
  | tok :: rest, st =>
    if params.maxTokens ≤ st.emitted then (none, st)
    else
      match emit params sink st tok with
      | (some finish, st) => (some finish, st)
      | (none, st) => emitAccepted params sink rest st

/-- One turn of the loop; `some` ends it. -/
def treeRound (target draft : Model F) (params : SamplingParams F) (gamma branch : Nat)
    (sink : Sink F) (st : Decoding F R) :
    Except ModelError (Option FinishReason × Decoding F R) := do
  let tree ← buildDraftTree draft st.context gamma branch
  let (v, rng) ← verifyTree target tree st.context params st.rng
  let effGamma := min gamma (params.maxTokens - st.emitted)
  let st := { st with rng := rng, stats := { st.stats with
    steps := st.stats.steps + 1
    totalDraft := st.stats.totalDraft + effGamma
    treeNodesVerified := u64 (st.stats.treeNodesVerified + tree.totalNodes)
    totalAccepted := st.stats.totalAccepted + v.count } }
  match emitAccepted params sink v.accepted st with
  | (some finish, st) => pure (some finish, st)
  | (none, st) =>
    if params.maxTokens ≤ st.emitted then pure (some .length, st)
    else
      match v.bonusOrCorrection with
      | none => pure (none, st)
      | some tok =>
        let (finish, st) := emit params sink st tok
        let st := if finish = some .cancelled then st else
          { st with stats := { st.stats with extraEmitted := st.stats.extraEmitted + 1 } }
        pure (finish, st)

def speculativeGenerateTree (R : Type) [Rng R F] (target draft : Model F) (prompt : List UInt32)
    (params : SamplingParams F) (gamma branch : Nat) (seed : UInt64) (sink : Sink F) :
    Except ModelError (FinishReason × AcceptanceStats × List (GeneratedToken F)) := do
  let st : Decoding F R := ⟨prompt, 0, Rng.seedFromU64 F seed, .withTreeBranch branch, []⟩
  let (finish, st) ← decodeLoop params.maxTokens (treeRound target draft params gamma branch sink)
    params.maxTokens st
  pure (finish, st.stats, st.out)

end Tree

end JustApi.Inference.SpecDecodeTree
