import JustApi.Inference.SpecDecode
import JustApi.Inference.StepLists

/-! # The scheduler-backed engine

`SchedulerEngine` puts concurrent `generate` calls and one scheduler loop around the
scheduler. They share the scheduler and five tables, each behind its own lock, so a
move here is what happens under one lock: a call hands its request to the scheduler
or writes one table, and the loop takes its next locked step. The loop's local
variables are part of its position.

The random numbers of the sampler come with the move, and so does the iteration order
of the scheduler's maps. -/
namespace JustApi.Inference.Serving
open JustApi.Inference.KvCache JustApi.Inference.RadixCache JustApi.Inference.LanguageModel
open JustApi.Inference.Scheduling JustApi.Inference.Scheduling.Scheduler
open JustApi.Inference.SpecDecode (Floating total descending)
open Function (update)

/-! ## Sampling -/

section Sampling

variable {F : Type} [Floating F]

/-- What one call of the sampler leaves to chance: which indices the selection of the
`top_k` largest logits puts in front, open among equal ones, and the random number. -/
structure Draw (F : Type) where
  front : List Nat
  r : F
  deriving DecidableEq, Repr

/-- The index of the largest logit: of equal ones the first. -/
def argmax (logits : List F) : UInt32 :=
  (logits.zipIdx.foldl
    (fun best x => if Floating.lt best.1 x.1 then (x.1, UInt32.ofNat x.2) else best)
    (Floating.negInfinity, 0)).2

/-- How many of the sorted probabilities the nucleus of mass `topP` takes. -/
def nucleusSize (topP : F) : F → List F → Nat
  | _, [] => 0
  | cum, p :: rest =>
    if Floating.le topP (cum + p) then 1 else nucleusSize topP (cum + p) rest + 1

/-- Keep the nucleus and renormalise. -/
def truncateTopP (probs : List F) (topP : F) : List F :=
  let order := descending probs
  let kept := (order.take (nucleusSize topP 0 (order.map Prod.fst))).map Prod.snd
  let probs := probs.zipIdx.map fun x => if x.2 ∈ kept then x.1 else 0
  let sum := total probs
  if Floating.lt 0 sum then probs.map (· / sum) else probs

/-- The first index at which the cumulated probability exceeds `r`. -/
def pickAbove (r : F) : F → List (F × Nat) → Option Nat
  | _, [] => none
  | cum, (p, i) :: rest =>
    if Floating.lt r (cum + p) then some i else pickAbove r (cum + p) rest

/-- Sample a token; the argmax at temperature zero. -/
def sampleTokenWithParams (logits : List F) (params : SamplingParams F) (draw : Draw F) : UInt32 :=
  -- `f32::EPSILON`
  if Floating.le params.temperature 1.1920929e-7 then argmax logits
  else
    let inv := 1 / params.temperature
    let scaled := logits.map (· * inv)
    let scaled := if 0 < params.topK ∧ params.topK < scaled.length then
      scaled.zipIdx.map fun x => if x.2 ∈ draw.front then x.1 else Floating.negInfinity
      else scaled
    let top := scaled.foldl Floating.max Floating.negInfinity
    let probs := scaled.map fun s => Floating.exp (s - top)
    let sum := total probs
    if Floating.le sum 0 then argmax logits
    else
      let probs := probs.map (· / sum)
      let probs := if Floating.lt params.topP 1 then truncateTopP probs params.topP else probs
      match pickAbove draw.r 0 probs.zipIdx with
      | some i => UInt32.ofNat i
      | none => argmax logits

end Sampling

/-! ## The shared state -/

/-- The tables of the engine. -/
inductive Table where
  | senders
  | model
  | context
  | maxTokens
  | params
  deriving DecidableEq, Repr

/-- The writes of `generate` after it has its id, in their order. -/
def inserts : List Table := [.senders, .model, .maxTokens, .params]

/-- The removals when a sequence is done, in their order. -/
def removals : List Table := [.senders, .model, .context, .maxTokens, .params]

/-- A `generate` call that has its id: its arguments with the model they name, and the
tables it has still to write. -/
structure Call (F : Type) where
  model : Model F
  prompt : List Token
  params : SamplingParams F
  todo : List Table

/-- An entry of the schedule. -/
inductive Item where
  | prefill (step : PrefillStep)
  | decode (seqId : Nat)
  deriving DecidableEq, Repr

def Item.seqId : Item → Nat
  | .prefill step => step.seqId
  | .decode seqId => seqId

/-- Where the loop is in the work on an entry, with what it has read so far. -/
inductive Phase (F : Type) where
  /-- `get_seq_params` -/
  | params
  | model (params : SamplingParams F)
  /-- A prefill step appends its tokens to the context. -/
  | extend (params : SamplingParams F) (model : Model F) (tokens : List Token)
  /-- Copy the context, run the model on it and sample. -/
  | context (params : SamplingParams F) (model : Model F)
  /-- A decode step appends its token to the context. -/
  | push (token : Token)
  /-- `is_seq_done` reads the token limit, … -/
  | limit (token : Token)
  /-- … then the count of the scheduler. -/
  | generated (token : Token) (max : Nat)
  | deliver (token : Token) (done : Bool)

/-- The position of the loop. -/
inductive Loop (F : Type) where
  | top
  | schedule (before : List Nat)
  | entry (before : List Nat) (sch : Schedule) (item : Item) (phase : Phase F) (rest : List Item)
  | notify (before : List Nat) (sch : Schedule)
  | after (before : List Nat)
  /-- The final token of a sequence that has left the batch is due. -/
  | finish (seqId : Nat) (rest : List Nat)
  /-- Its entries in these tables are due for removal. -/
  | remove (seqId : Nat) (todo : List Table) (rest : List Nat)

structure SchedulerEngine (F : Type) where
  scheduler : Scheduler F
  /-- The open channels, each told by the id it is registered under. -/
  senders : Nat → Option Unit
  seqModel : Nat → Option (Model F)
  seqContext : Nat → Option (List Token)
  seqMaxTokens : Nat → Option Nat
  seqParams : Nat → Option (SamplingParams F)
  /-- The `generate` calls by the id they got. -/
  calls : Nat → Option (Call F)
  loop : Loop F
  /-- What has been sent to each receiver. -/
  streams : Nat → List (GeneratedToken F)

namespace SchedulerEngine

variable {F : Type}

def new (scheduler : Scheduler F) : SchedulerEngine F :=
  { scheduler
    senders := fun _ => none
    seqModel := fun _ => none
    seqContext := fun _ => none
    seqMaxTokens := fun _ => none
    seqParams := fun _ => none
    calls := fun _ => none
    loop := .top
    streams := fun _ => [] }

/-! ## Calls -/

/-- The write of a call to one table. -/
def insert (e : SchedulerEngine F) (seqId : Nat) (c : Call F) : Table → SchedulerEngine F
  | .senders => { e with senders := update e.senders seqId (some ()) }
  | .model => { e with seqModel := update e.seqModel seqId (some c.model) }
  | .maxTokens => { e with seqMaxTokens := update e.seqMaxTokens seqId (some c.params.maxTokens) }
  | .params => { e with seqParams := update e.seqParams seqId (some c.params) }
  -- contexts are the loop's
  | .context => e

def remove (e : SchedulerEngine F) (seqId : Nat) : Table → SchedulerEngine F
  | .senders => { e with senders := update e.senders seqId none }
  | .model => { e with seqModel := update e.seqModel seqId none }
  | .context => { e with seqContext := update e.seqContext seqId none }
  | .maxTokens => { e with seqMaxTokens := update e.seqMaxTokens seqId none }
  | .params => { e with seqParams := update e.seqParams seqId none }

/-- The model registry as a call finds it. -/
abbrev Registry (F : Type) := String → Option (Model F)

/-- `generate` up to the return of `add_request`. -/
def generate (e : SchedulerEngine F) (registry : Registry F) (modelName : String)
    (prompt : List Token) (params : SamplingParams F) : Except ModelError (SchedulerEngine F) :=
  match registry modelName with
  | none => .error (.notFound modelName)
  | some model =>
    let (seqId, scheduler) := e.scheduler.addRequest
      { id := 0, prompt, samplingParams := params, prefixCachedTokens := 0, cachedBlocks := [] }
    .ok { e with
      scheduler := scheduler
      calls := update e.calls seqId (some { model, prompt, params, todo := inserts }) }

/-! ## The loop -/

/-- Send a token to a sequence's channel if it is registered. -/
def deliver (e : SchedulerEngine F) (seqId : Nat) (token : GeneratedToken F) : SchedulerEngine F :=
  match e.senders seqId with
  | some () => { e with streams := update e.streams seqId (e.streams seqId ++ [token]) }
  | none => e

def items (sch : Schedule) : List Item := sch.prefill.map .prefill ++ sch.decode.map .decode

/-- On to the next entry, or to the scheduler with the answers. -/
def nextEntry (before : List Nat) (sch : Schedule) : List Item → Loop F
  | [] => .notify before sch
  | item :: rest => .entry before sch item .params rest

/-- A schedule without work is not answered. -/
def startEntries (before : List Nat) (sch : Schedule) : Loop F :=
  if sch.prefill.isEmpty && sch.decode.isEmpty then .after before
  else nextEntry before sch (items sch)

/-- On to the next sequence that has left the batch, or to the next iteration. -/
def nextGone : List Nat → Loop F
  | [] => .top
  | seqId :: rest => .finish seqId rest

variable [Floating F]

/-- The token of an entry; `done` when the sequence is out of tokens. -/
def stepToken (token : Token) (done : Bool) : GeneratedToken F :=
  { id := token, text := detokenize [token], logprob := 0,
    finishReason := if done then some .length else none }

/-- The token that ends a stream. -/
def finishToken : GeneratedToken F := ⟨0, "", 0, some .length⟩

/-- One locked step of the work on an entry: `forward_for_seq` or `forward_decode`,
then `is_seq_done` and `deliver`. -/
def work (e : SchedulerEngine F) (draw : Draw F) (before : List Nat) (sch : Schedule) (item : Item)
    (rest : List Item) : Phase F → SchedulerEngine F
  | .params => go (.model ((e.seqParams item.seqId).getD .default))
  | .model params =>
    match e.seqModel item.seqId with
    | none => skip
    | some model =>
      match item with
      | .prefill step => go (.extend params model step.tokens)
      | .decode _ => go (.context params model)
  | .extend params model tokens =>
    { e with
      seqContext := update e.seqContext item.seqId
        (some ((e.seqContext item.seqId).getD [] ++ tokens))
      loop := .entry before sch item (.context params model) rest }
  | .context params model =>
    match e.seqContext item.seqId with
    | none => skip
    | some context =>
      match model.forwardLogits context with
      | .error _ => skip
      | .ok logits =>
        let token := sampleTokenWithParams logits params draw
        match item with
        | .prefill _ => go (.limit token)
        | .decode _ => go (.push token)
  | .push token =>
    { e with
      seqContext := update e.seqContext item.seqId
        ((e.seqContext item.seqId).map fun context => context ++ [token])
      loop := .entry before sch item (.limit token) rest }
  -- `unwrap_or(usize::MAX)`
  | .limit token => go (.generated token ((e.seqMaxTokens item.seqId).getD (2 ^ 64 - 1)))
  | .generated token max =>
    go (.deliver token (match e.scheduler.runningSeqGenerated item.seqId with
      | some n => max ≤ n
      | none => false))
  | .deliver token done =>
    { e.deliver item.seqId (stepToken token done) with loop := nextEntry before sch rest }
where
  go (phase : Phase F) : SchedulerEngine F := { e with loop := .entry before sch item phase rest }
  /-- `continue` -/
  skip : SchedulerEngine F := { e with loop := nextEntry before sch rest }

/-- The next locked step of the loop. -/
def advance (e : SchedulerEngine F) (order : HashOrder) (draw : Draw F) :
    Except Panic (SchedulerEngine F) :=
  match e.loop with
  | .top => .ok { e with loop := .schedule e.scheduler.runningIds }
  | .schedule before => (e.scheduler.schedule order).map fun r =>
      { e with scheduler := r.2, loop := startEntries before r.1 }
  | .entry before sch item phase rest => .ok (e.work draw before sch item rest phase)
  | .notify before sch =>
    .ok { e with scheduler := e.scheduler.answer (listed sch), loop := .after before }
  | .after before =>
    .ok { e with loop := nextGone (before.filter fun id => id ∉ e.scheduler.runningIds) }
  | .finish seqId rest =>
    .ok { e.deliver seqId finishToken with loop := .remove seqId removals rest }
  | .remove _ [] rest => .ok { e with loop := nextGone rest }
  | .remove seqId (t :: todo) rest =>
    .ok { e.remove seqId t with loop := .remove seqId todo rest }

end SchedulerEngine

/-! ## Moves -/

/-- A move: a call comes in, a call writes its next table, or the loop goes on. -/
inductive Move (F : Type) where
  | generate (registry : SchedulerEngine.Registry F) (modelName : String) (prompt : List Token)
      (params : SamplingParams F)
  | register (seqId : Nat)
  | loop (order : HashOrder) (draw : Draw F)

/-- Why a move does not happen. -/
inductive Halt where
  | refused (error : ModelError)
  /-- No such call, or it has returned. -/
  | returned
  | panicked (panic : Panic)
  deriving DecidableEq, Repr

def exec {F : Type} [Floating F] (e : SchedulerEngine F) : Move F → Except Halt (SchedulerEngine F)
  | .generate registry modelName prompt params =>
    (e.generate registry modelName prompt params).mapError .refused
  | .register seqId =>
    match e.calls seqId with
    | some { model, prompt, params, todo := t :: todo } =>
      .ok { e.insert seqId { model, prompt, params, todo := t :: todo } t with
        calls := update e.calls seqId (some { model, prompt, params, todo }) }
    | _ => .error .returned
  | .loop order draw => (e.advance order draw).mapError .panicked

/-- The engine at its start. -/
def fresh {F : Type} (config : SchedulerConfig) (numBlocks : Nat) : SchedulerEngine F :=
  .new (.new config (.new numBlocks))

def Step {F : Type} [Floating F] (e : SchedulerEngine F) (m : Move F) (e' : SchedulerEngine F) :
    Prop := exec e m = .ok e'

end JustApi.Inference.Serving
