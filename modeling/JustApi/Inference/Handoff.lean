import JustApi.Inference.Scheduling

/-! # Disaggregated prefill and decode

A sequence that has finished its prefill on one scheduler can be taken from it and
admitted to another one, which allocates blocks of its own for the tokens already
computed. `PdScheduler` owns a prefill scheduler and a decode scheduler and moves
sequences from the one to the other. -/
namespace JustApi.Inference.Handoff
open JustApi.Inference.KvCache JustApi.Inference.RadixCache JustApi.Inference.LanguageModel
open JustApi.Inference.Scheduling JustApi.Inference.Scheduling.Scheduler
open Function (update)

structure TransferableSequence (F : Type) where
  srcSeqId : Nat
  reqId : Nat
  prompt : List Token
  params : SamplingParams F
  numPrefilled : Nat
  numGenerated : Nat
  deriving DecidableEq, Repr

variable {F : Type}

/-! ## Taking -/

/-- A sequence that `takeCompletedPrefill` takes. -/
def ready (r : RunningSeq F) : Bool := r.state = .decoding && r.prompt.length ≤ r.numPrefilled

/-- The caller's id is not kept by the scheduler; the sequence id stands for it. -/
def transferable (r : RunningSeq F) : TransferableSequence F :=
  { srcSeqId := r.seq.id, reqId := r.seq.id, prompt := r.prompt, params := r.params,
    numPrefilled := r.numPrefilled, numGenerated := r.numGenerated }

/-- Clear the live references of a block and release it. -/
def handOver (s : Scheduler F) (b : BlockId) : Except Panic (Scheduler F) := do
  let pool ← s.pool.release b 0
  pure { s with pool := pool, prefixRefs := update s.prefixRefs b 0 }

def handOverSeq (s : Scheduler F) (r : RunningSeq F) : Except Panic (Scheduler F) :=
  r.seq.blocks.foldlM handOver s

/-- The batch without the sequences that are taken. -/
def withoutReady (s : Scheduler F) : Scheduler F :=
  { s with running := s.running.filter fun r => !ready r }

/-- Remove every sequence that has finished prefill and release its blocks. -/
def takeCompletedPrefill (s : Scheduler F) :
    Except Panic (List (TransferableSequence F) × Scheduler F) := do
  let t ← (s.running.filter ready).foldlM handOverSeq (withoutReady s)
  pure ((s.running.filter ready).map transferable, t)

/-! ## Admitting -/

/-- `n.div_ceil(BLOCK_SIZE)` -/
def blocksFor (n : Nat) : Nat := (n + BLOCK_SIZE - 1) / BLOCK_SIZE

/-- `grow` the sequence `n` times, up to the first time the pool is exhausted. -/
def growBlocks : Nat → Sequence → KvBlockPool → Except Panic (Bool × Sequence × KvBlockPool)
  | 0, seq, pool => .ok (true, seq, pool)
  | n + 1, seq, pool => do
    let (got, seq, pool) ← seq.grow pool
    if got.isSome then growBlocks n seq pool else pure (false, seq, pool)

/-- The tokens a transferred sequence comes with. -/
def totalTokens (t : TransferableSequence F) : Nat := usize (t.numPrefilled + t.numGenerated)

/-- The running sequence of a transfer whose blocks are in place. -/
def resume (t : TransferableSequence F) (seq : Sequence) : RunningSeq F :=
  { seq := seq.advance (totalTokens t), prompt := t.prompt, params := t.params,
    numPrefilled := t.numPrefilled, numGenerated := t.numGenerated, state := .decoding }

/-- Admit a sequence that arrives with its prefill done. When the pool is exhausted
the transfer is dropped. -/
def admitTransferred (s : Scheduler F) (t : TransferableSequence F) :
    Except Panic (Scheduler F) := do
  let (ok, seq, pool) ← growBlocks (blocksFor (totalTokens t)) (.new s.nextSeqId) s.pool
  let s := { s with nextSeqId := s.nextSeqId + 1, pool := pool }
  -- the blocks grown so far stay with nobody
  if ok then pure { s with running := s.running ++ [resume t seq] } else pure s

/-- A call of any public operation of a scheduler. -/
inductive Call (F : Type) where
  | op (op : Op F)
  | takeCompletedPrefill
  | admitTransferred (t : TransferableSequence F)

def perform (s : Scheduler F) : Call F → Except Panic (Scheduler F)
  | .op op => exec s op
  | .takeCompletedPrefill => (takeCompletedPrefill s).map Prod.snd
  | .admitTransferred t => admitTransferred s t

/-! ## The two schedulers -/

structure PdScheduler (F : Type) where
  prefill : Scheduler F
  decode : Scheduler F
  totalTransferredTokens : Nat

/-- `usize::saturating_add` -/
def saturatingAdd (a b : Nat) : Nat := min (a + b) (2 ^ 64 - 1)

namespace PdScheduler

def new (prefillConfig : SchedulerConfig) (prefillPool : KvBlockPool)
    (decodeConfig : SchedulerConfig) (decodePool : KvBlockPool) : PdScheduler F :=
  ⟨.new prefillConfig prefillPool, .new decodeConfig decodePool, 0⟩

def isIdle (pd : PdScheduler F) : Bool := pd.prefill.isIdle && pd.decode.isIdle

def addRequest (pd : PdScheduler F) (req : NewRequest F) : PdScheduler F :=
  { pd with prefill := (pd.prefill.addRequest req).2 }

def schedulePrefill (pd : PdScheduler F) (order : HashOrder) :
    Except Panic (Schedule × PdScheduler F) :=
  (pd.prefill.schedule order).map fun r => (r.1, { pd with prefill := r.2 })

def onPrefillComplete (pd : PdScheduler F) (seqId numNewTokens : Nat) : PdScheduler F :=
  { pd with prefill := pd.prefill.onStepComplete seqId numNewTokens }

/-- Move every sequence with a finished prefill to the decode scheduler; the count
is that of the sequences taken. -/
def transferCompleted (pd : PdScheduler F) : Except Panic (Nat × PdScheduler F) := do
  let (transferred, prefill) ← takeCompletedPrefill pd.prefill
  let decode ← transferred.foldlM admitTransferred pd.decode
  pure (transferred.length, ⟨prefill, decode,
    transferred.foldl (fun n t => saturatingAdd n t.numPrefilled) pd.totalTransferredTokens⟩)

def scheduleDecode (pd : PdScheduler F) (order : HashOrder) :
    Except Panic (Schedule × PdScheduler F) :=
  (pd.decode.schedule order).map fun r => (r.1, { pd with decode := r.2 })

def onDecodeComplete (pd : PdScheduler F) (seqId numNewTokens : Nat) : PdScheduler F :=
  { pd with decode := pd.decode.onStepComplete seqId numNewTokens }

/-- Cancel the number on both schedulers. -/
def cancel (pd : PdScheduler F) (seqId : Nat) : Except Panic (PdScheduler F) := do
  let prefill ← pd.prefill.cancel seqId
  let decode ← pd.decode.cancel seqId
  pure { pd with prefill := prefill, decode := decode }

end PdScheduler

/-- A call of the disaggregated controller. -/
inductive PdOp (F : Type) where
  | addRequest (req : NewRequest F)
  | schedulePrefill (order : HashOrder)
  | onPrefillComplete (seqId numNewTokens : Nat)
  | transferCompleted
  | scheduleDecode (order : HashOrder)
  | onDecodeComplete (seqId numNewTokens : Nat)
  | cancel (seqId : Nat)

def execPd (pd : PdScheduler F) : PdOp F → Except Panic (PdScheduler F)
  | .addRequest req => .ok (pd.addRequest req)
  | .schedulePrefill order => (pd.schedulePrefill order).map Prod.snd
  | .onPrefillComplete seqId n => .ok (pd.onPrefillComplete seqId n)
  | .transferCompleted => pd.transferCompleted.map Prod.snd
  | .scheduleDecode order => (pd.scheduleDecode order).map Prod.snd
  | .onDecodeComplete seqId n => .ok (pd.onDecodeComplete seqId n)
  | .cancel seqId => pd.cancel seqId

def PdStep (pd : PdScheduler F) (op : PdOp F) (pd' : PdScheduler F) : Prop := execPd pd op = .ok pd'

/-- A new controller over new pools. -/
def freshPd (prefillConfig : SchedulerConfig) (prefillBlocks : Nat) (decodeConfig : SchedulerConfig)
    (decodeBlocks : Nat) : PdScheduler F :=
  .new prefillConfig (.new prefillBlocks) decodeConfig (.new decodeBlocks)

end JustApi.Inference.Handoff
