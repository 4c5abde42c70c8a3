import JustApi.Inference.LanguageModel
import JustApi.Inference.RadixCache

/-! # The continuous-batching scheduler

A scheduler owns the block pool, the prefix cache, the running batch and the wait
queue. `schedule` has the three phases of the source: finished sequences leave
for the prefix cache, waiting requests are admitted, and the prefill and decode
work of the step is listed. -/
namespace JustApi.Inference.Scheduling
open JustApi.Inference.KvCache JustApi.Inference.RadixCache JustApi.Inference.LanguageModel
open Function (update)

structure SchedulerConfig where
  maxNumSeqs : Nat
  maxNumBatchedTokens : Nat
  maxSeqLen : Nat
  chunkedPrefillSize : Option Nat
  deriving DecidableEq, Repr

def SchedulerConfig.default : SchedulerConfig := ⟨256, 4096, 4096, some 512⟩

structure NewRequest (F : Type) where
  id : Nat
  prompt : List Token
  samplingParams : SamplingParams F
  prefixCachedTokens : Nat
  cachedBlocks : List BlockId
  deriving DecidableEq, Repr

structure PrefillStep where
  seqId : Nat
  tokens : List Token
  computedTokens : Nat
  deriving DecidableEq, Repr

structure Schedule where
  prefill : List PrefillStep
  decode : List Nat
  backPressure : Bool
  deriving DecidableEq, Repr

inductive SeqState where
  | prefilling
  | decoding
  deriving DecidableEq, Repr

structure RunningSeq (F : Type) where
  seq : Sequence
  prompt : List Token
  params : SamplingParams F
  numPrefilled : Nat
  numGenerated : Nat
  state : SeqState
  deriving DecidableEq, Repr

structure Scheduler (F : Type) where
  config : SchedulerConfig
  pool : KvBlockPool
  prefixCache : RadixPrefixCache
  /-- Live references of the cached blocks. Every read of the source's map takes
  a missing key for zero, so the map is the function it computes. -/
  prefixRefs : BlockId → Nat
  running : List (RunningSeq F)
  waitQueue : List (NewRequest F)
  nextSeqId : Nat
  lastBackPressure : Bool

namespace Scheduler

variable {F : Type}

def new (config : SchedulerConfig) (pool : KvBlockPool) : Scheduler F :=
  { config, pool, prefixCache := .new, prefixRefs := fun _ => 0, running := [], waitQueue := [],
    nextSeqId := 1, lastBackPressure := false }

def runningIds (s : Scheduler F) : List Nat := s.running.map fun r => r.seq.id

def runningSeqGenerated (s : Scheduler F) (seqId : Nat) : Option Nat :=
  (s.running.find? fun r => r.seq.id == seqId).map RunningSeq.numGenerated

def isIdle (s : Scheduler F) : Bool := s.running.isEmpty && s.waitQueue.isEmpty

def addRequest (s : Scheduler F) (req : NewRequest F) : Nat × Scheduler F :=
  (s.nextSeqId, { s with
    nextSeqId := s.nextSeqId + 1
    waitQueue := s.waitQueue ++ [{ req with id := s.nextSeqId }] })

/-! ## Leaving -/

/-- `release` a block to the cached state and `pin` it for the tree. -/
def releasePinned (s : Scheduler F) (b : BlockId) : Except Panic (Scheduler F) := do
  let pool ← s.pool.release b 0
  let pool ← pool.pin b
  pure { s with pool := pool }

/-- One turn of the loop of `cacheCompleted`. -/
def dropHold (s : Scheduler F) (b : BlockId) : Except Panic (Scheduler F) :=
  if s.prefixRefs b = 0 then s.releasePinned b
  else
    let s' := { s with prefixRefs := update s.prefixRefs b (s.prefixRefs b - 1) }
    -- another live sequence may still hold the block
    if s.prefixRefs b - 1 = 0 then s'.releasePinned b else .ok s'

/-- How many blocks of a leaving sequence `cacheCompleted` takes: those that the
prompt fills. -/
def cacheBlocks (prompt : List Token) (blocks : List BlockId) : Nat :=
  min (prompt.length / BLOCK_SIZE) blocks.length

/-- Promote the blocks of a leaving sequence into the prefix cache. -/
def cacheCompleted (s : Scheduler F) (prompt : List Token) (blocks : List BlockId) :
    Except Panic (Scheduler F) :=
  let n := cacheBlocks prompt blocks
  if n = 0 then .ok s
  else do
    let cache ← s.prefixCache.insert (prompt.take (n * BLOCK_SIZE)) (blocks.take n)
    (blocks.take n).foldlM dropHold { s with prefixCache := cache }

/-- A sequence that leaves at the next `schedule`. -/
def finished (config : SchedulerConfig) (r : RunningSeq F) : Bool :=
  r.params.maxTokens ≤ r.numGenerated || config.maxSeqLen ≤ r.seq.numTokens

def cacheSeq (s : Scheduler F) (r : RunningSeq F) : Except Panic (Scheduler F) :=
  s.cacheCompleted r.prompt r.seq.blocks

/-- The batch without the sequences that leave. -/
def withoutFinished (s : Scheduler F) : Scheduler F :=
  { s with running := s.running.filter fun r => !finished s.config r }

/-- Phase 1 of `schedule`. -/
def retire (s : Scheduler F) : Except Panic (Scheduler F) :=
  (s.running.filter (finished s.config)).foldlM cacheSeq s.withoutFinished

/-- Remove a sequence at once; its blocks go to the prefix cache. -/
def cancel (s : Scheduler F) (seqId : Nat) : Except Panic (Scheduler F) :=
  match s.running.find? fun r => r.seq.id == seqId with
  | none => .ok s
  | some r => { s with running := s.running.eraseP fun r => r.seq.id == seqId }.cacheSeq r

/-! ## Admission -/

/-- Give an evicted block back to the pool. -/
def dropCached (s : Scheduler F) (b : BlockId) : Except Panic (Scheduler F) := do
  let pool ← s.pool.unpin b
  let pool ← pool.freeCached b
  pure { s with pool := pool, prefixRefs := update s.prefixRefs b 0 }

/-- Evict leaves of the prefix cache that no live sequence references. -/
def evictUnreferenced (s : Scheduler F) (order : HashOrder) (k : Nat) :
    Except Panic (Scheduler F) :=
  let evicted := s.prefixCache.evictFilter order k fun _ bs => bs.all fun b => s.prefixRefs b == 0
  evicted.1.foldlM dropCached { s with prefixCache := evicted.2 }

/-- `grow` the sequence by one block; when the pool is exhausted, evict and try
once more. `false` when that fails too. -/
def growOrEvict (s : Scheduler F) (order : HashOrder) (uncached : Nat) (seq : Sequence) :
    Except Panic (Bool × Sequence × Scheduler F) := do
  let (got, seq, pool) ← seq.grow s.pool
  if got.isSome then pure (true, seq, { s with pool := pool })
  else
    let s ← { s with pool := pool }.evictUnreferenced order uncached
    let (got, seq, pool) ← seq.grow s.pool
    pure (got.isSome, seq, { s with pool := pool })

/-- The loop that allocates the uncached tail. -/
def growTail (order : HashOrder) (uncached : Nat) :
    Nat → Scheduler F → Sequence → Except Panic (Bool × Sequence × Scheduler F)
  | 0, s, seq => .ok (true, seq, s)
  | n + 1, s, seq => do
    let (ok, seq, s) ← s.growOrEvict order uncached seq
    if ok then growTail order uncached n s seq else pure (false, seq, s)

/-- A restored block is unpinned and gets a live reference. -/
def adopt (s : Scheduler F) (b : BlockId) : Except Panic (Scheduler F) := do
  let pool ← s.pool.unpin b
  pure { s with pool := pool, prefixRefs := update s.prefixRefs b (s.prefixRefs b + 1) }

/-- Reuse the cached blocks of a prompt. -/
def reuse (s : Scheduler F) (seq : Sequence) (cachedBlocks : List BlockId) (cachedTokens : Nat) :
    Except Panic (Sequence × Scheduler F) :=
  if cachedBlocks.isEmpty then .ok (seq, s)
  else do
    let (seq, pool) ← seq.restoreFromCache cachedBlocks cachedTokens s.pool
    let s ← cachedBlocks.foldlM adopt { s with pool := pool }
    pure (seq, s)

/-- The blocks a request can reuse and the tokens they stand for: the caller's
hint, or else what the tree has. -/
def cachedPrefix (s : Scheduler F) (req : NewRequest F) :
    Except Panic ((List BlockId × Nat) × Scheduler F) :=
  if req.cachedBlocks.isEmpty then do
    let (r, cache) ← s.prefixCache.lookup req.prompt
    pure (match r with
      | some (matched, blocks) => (blocks, matched)
      | none => ([], 0), { s with prefixCache := cache })
  else .ok ((req.cachedBlocks, req.prefixCachedTokens), s)

/-- The admission estimate is over the limit. -/
def overBudget (config : SchedulerConfig) (req : NewRequest F) (cachedTokens : Nat) : Bool :=
  usize (config.maxNumBatchedTokens * 2) <
    usize ((req.prompt.length - cachedTokens) + req.samplingParams.maxTokens)

/-- `len().div_ceil(BLOCK_SIZE)` -/
def totalBlocks (prompt : List Token) : Nat := (prompt.length + BLOCK_SIZE - 1) / BLOCK_SIZE

/-- The running sequence of a request whose blocks are in place. -/
def start (req : NewRequest F) (seq : Sequence) (cachedN : Nat) : RunningSeq F :=
  { seq, prompt := req.prompt, params := req.samplingParams, numPrefilled := cachedN * BLOCK_SIZE,
    numGenerated := 0,
    state := if req.prompt.length ≤ cachedN * BLOCK_SIZE then .decoding else .prefilling }

/-- How one turn of the admission loop ends: a sequence joins the batch, with so
many of its blocks restored from the cache, or the loop breaks. -/
inductive Turn where
  | admitted (seqId restored : Nat)
  | stop (blocked : Bool)
  deriving DecidableEq, Repr

/-- Find the blocks of a request: reuse the cached ones, allocate the others.
`false` when the allocation failed. -/
def gather (s : Scheduler F) (order : HashOrder) (req : NewRequest F) (cachedBlocks : List BlockId)
    (cachedTokens : Nat) : Except Panic (Bool × Sequence × Scheduler F) := do
  let uncached := totalBlocks req.prompt - cachedBlocks.length
  let (seq, s) ← s.reuse (.new req.id) cachedBlocks cachedTokens
  growTail order uncached uncached s seq

/-- One turn of the admission loop. A failed allocation puts the request back in
front of the queue. -/
def admitNext (s : Scheduler F) (order : HashOrder) : Except Panic (Turn × Scheduler F) :=
  if s.running.length < s.config.maxNumSeqs then
    match s.waitQueue with
    | [] => .ok (.stop false, s)
    | req :: rest => do
      let ((cachedBlocks, cachedTokens), s) ← s.cachedPrefix req
      if overBudget s.config req cachedTokens then pure (.stop true, s)
      else
        let (ok, seq, s) ← gather { s with waitQueue := rest } order req cachedBlocks cachedTokens
        if ok then
          pure (.admitted req.id cachedBlocks.length,
            { s with running := s.running ++ [start req seq cachedBlocks.length] })
        else pure (.stop true, { s with waitQueue := req :: s.waitQueue })
  else .ok (.stop false, s)

/-- Phase 2 of `schedule`: the sequences admitted, with their restored blocks, and
whether the loop was blocked. Each turn that goes on takes a request off the
queue. -/
def admitLoop (order : HashOrder) :
    Nat → Scheduler F → Except Panic ((List (Nat × Nat) × Bool) × Scheduler F)
  | 0, s => .ok (([], false), s)
  | fuel + 1, s =>
    match s.admitNext order with
    | .error e => .error e
    | .ok (.stop blocked, s) => .ok (([], blocked), s)
    | .ok (.admitted seqId restored, s) => do
      let ((admitted, blocked), s) ← admitLoop order fuel s
      pure (((seqId, restored) :: admitted, blocked), s)

/-! ## The work of a step -/

/-- The size of the next prefill chunk of a sequence. -/
def chunk (config : SchedulerConfig) (budget remaining : Nat) : Nat :=
  match config.chunkedPrefillSize with
  | some size => min (min remaining size) budget
  | none => min remaining budget

/-- A running sequence that has fed a chunk of its prompt. -/
def feed (r : RunningSeq F) (n : Nat) : RunningSeq F :=
  { r with
    numPrefilled := r.numPrefilled + n
    state := if r.prompt.length ≤ r.numPrefilled + n then .decoding else r.state }

def prefillStep (r : RunningSeq F) (n : Nat) : PrefillStep :=
  { seqId := r.seq.id, tokens := (r.prompt.drop r.numPrefilled).take n,
    computedTokens := r.numPrefilled }

/-- The prefill loop over the batch, within the token budget. -/
def fillPrefill (config : SchedulerConfig) :
    Nat → List (RunningSeq F) → List PrefillStep × List (RunningSeq F)
  | _, [] => ([], [])
  | budget, r :: rest =>
    if r.state = .prefilling then
      let remaining := r.prompt.length - r.numPrefilled
      if remaining = 0 then
        let out := fillPrefill config budget rest
        (out.1, { r with state := .decoding } :: out.2)
      else
        let n := chunk config budget remaining
        if n = 0 then ([], r :: rest)
        else
          let out := fillPrefill config (budget - n) rest
          (prefillStep r n :: out.1, feed r n :: out.2)
    else
      let out := fillPrefill config budget rest
      (out.1, r :: out.2)

/-- Phase 3 of `schedule`. The decode share of the budget is set before the
prefill loop moves sequences on to decoding. -/
def buildSchedule (s : Scheduler F) (blocked : Bool) : Schedule × Scheduler F :=
  let backPressure := blocked || !s.waitQueue.isEmpty
  let decodeTokens := min (s.running.countP fun r => r.state = .decoding)
    s.config.maxNumBatchedTokens
  let out := fillPrefill s.config (s.config.maxNumBatchedTokens - decodeTokens) s.running
  let decode := ((out.2.filter fun r => r.state = .decoding).take decodeTokens).map fun r => r.seq.id
  ({ prefill := out.1, decode, backPressure },
    { s with running := out.2, lastBackPressure := backPressure })

/-- A scheduling step, with the admissions it made. -/
def scheduleStep (s : Scheduler F) (order : HashOrder) :
    Except Panic ((List (Nat × Nat) × Schedule) × Scheduler F) := do
  let s ← s.retire
  let ((admitted, blocked), s) ← admitLoop order (s.waitQueue.length + 1) s
  pure ((admitted, (s.buildSchedule blocked).1), (s.buildSchedule blocked).2)

def schedule (s : Scheduler F) (order : HashOrder) : Except Panic (Schedule × Scheduler F) :=
  (s.scheduleStep order).map fun r => (r.1.2, r.2)

def onStepComplete (s : Scheduler F) (seqId numNewTokens : Nat) : Scheduler F :=
  match s.running.findIdx? fun r => r.seq.id == seqId with
  | none => s
  | some i => { s with running := s.running.modify i fun r =>
      { r with numGenerated := usize (r.numGenerated + numNewTokens)
               seq := r.seq.advance numNewTokens } }

end Scheduler

/-! ## Calls -/

/-- A call of the scheduler's driver. `schedule` comes with the iteration order
its maps have at that moment. -/
inductive Op (F : Type) where
  | addRequest (req : NewRequest F)
  | schedule (order : HashOrder)
  | onStepComplete (seqId numNewTokens : Nat)
  | cancel (seqId : Nat)

/-- The request carries no block hint of its own. -/
def Op.Unhinted {F : Type} : Op F → Prop
  | .addRequest req => req.cachedBlocks = []
  | _ => True

def exec {F : Type} (s : Scheduler F) : Op F → Except Panic (Scheduler F)
  | .addRequest req => .ok (s.addRequest req).2
  | .schedule order => (s.schedule order).map Prod.snd
  | .onStepComplete seqId n => .ok (s.onStepComplete seqId n)
  | .cancel seqId => s.cancel seqId

end JustApi.Inference.Scheduling
