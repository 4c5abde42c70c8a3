import JustApi.Inference.LanguageModel

/-! # Completions

The drivers that answer requests for completions, whole or as a stream of events, from the
tokens an engine generates. Ids and times come from the clock and are parameters; of the
texts that serialize the events nothing is said. -/
namespace JustApi.Inference.Completions
open JustApi.Inference.LanguageModel

variable {F : Type}

/-! ## Requests -/

structure ChatMessage where
  role : String
  content : String
  deriving DecidableEq, Repr

structure ChatCompletionRequest (F : Type) where
  model : String
  messages : List ChatMessage
  temperature : Option F
  maxTokens : Nat
  maxCompletionTokens : Option Nat
  topP : Option F

structure CompletionRequest (F : Type) where
  model : String
  prompt : String
  temperature : Option F
  maxTokens : Nat
  topP : Option F

def promptFromMessages (messages : List ChatMessage) : String :=
  messages.foldl (fun s m => s ++ m.role ++ ": " ++ m.content ++ "\n") ""

/-- `MockModel::tokenize`: each byte is a token. -/
def tokenize (text : String) : List UInt32 :=
  (text.toList.flatMap String.utf8EncodeChar).map UInt8.toUInt32

namespace ChatCompletionRequest

def effectiveMaxTokens (req : ChatCompletionRequest F) : Nat :=
  req.maxCompletionTokens.getD req.maxTokens

def tokens (req : ChatCompletionRequest F) : List UInt32 :=
  tokenize (promptFromMessages req.messages)

def params [One F] (req : ChatCompletionRequest F) : SamplingParams F :=
  { (SamplingParams.default : SamplingParams F) with
    maxTokens := req.effectiveMaxTokens
    temperature := req.temperature.getD 1
    topP := req.topP.getD 1 }

end ChatCompletionRequest

namespace CompletionRequest

def tokens (req : CompletionRequest F) : List UInt32 := tokenize req.prompt

def params [One F] (req : CompletionRequest F) : SamplingParams F :=
  { (SamplingParams.default : SamplingParams F) with
    maxTokens := req.maxTokens
    temperature := req.temperature.getD 1
    topP := req.topP.getD 1 }

end CompletionRequest

/-! ## Responses -/

structure Usage where
  promptTokens : Nat
  completionTokens : Nat
  totalTokens : Nat
  deriving DecidableEq, Repr

structure ChatMessageOut where
  role : String
  content : String
  finishReason : Option String
  deriving DecidableEq, Repr

structure ChatCompletionChoice where
  index : Nat
  message : ChatMessageOut
  finishReason : String
  deriving DecidableEq, Repr

structure ChatCompletionResponse where
  id : String
  object : String
  created : Nat
  model : String
  choices : List ChatCompletionChoice
  usage : Usage
  deriving DecidableEq, Repr

structure CompletionChoice where
  text : String
  index : Nat
  finishReason : String
  deriving DecidableEq, Repr

structure CompletionResponse where
  id : String
  object : String
  created : Nat
  model : String
  choices : List CompletionChoice
  usage : Usage
  deriving DecidableEq, Repr

structure Delta where
  role : Option String
  content : Option String
  deriving DecidableEq, Repr

structure ChunkChoice where
  index : Nat
  delta : Delta
  finishReason : Option String
  deriving DecidableEq, Repr

structure ChatCompletionChunk where
  id : String
  object : String
  created : Nat
  model : String
  choices : List ChunkChoice
  deriving DecidableEq, Repr

structure ApiError where
  message : String
  errorType : String
  param : Option String
  code : Option String
  deriving DecidableEq, Repr

/-- An event of a stream; `done` is `[DONE]`. -/
inductive Event where
  | chunk (chunk : ChatCompletionChunk)
  | error (err : ApiError)
  | done
  deriving DecidableEq, Repr

def finishReasonStr : FinishReason → String
  | .length => "length"
  | .stop => "stop"
  | .cancelled => "stop"

/-- The text of an error. -/
def errorText : ModelError → String
  | .notFound model => "model '" ++ model ++ "' not found in registry"
  | .featureRequired feature =>
    "feature '" ++ feature ++
      "' is required for this operation (enable it in the crate features)"
  | .notImplemented =>
    "real model loading is not implemented yet (lands with the KV-cache in Phase 42)"
  | .generation message => "generation failed: " ++ message
  | .io message => message

/-! ## Engines -/

/-- What an engine's `generate` gives for a model, a prompt and parameters: an error at
once, or the tokens that are received until the channel is closed. -/
abbrev Generate (F : Type) :=
  String → List UInt32 → SamplingParams F → Except ModelError (List (GeneratedToken F))

/-- A model, by the tokens it sends while all are taken, and by what it returns then. -/
structure GenerativeModel (F : Type) where
  generate : List UInt32 → SamplingParams F →
    List (GeneratedToken F) × Except ModelError FinishReason

structure Engine (F : Type) where
  /-- The registered models. -/
  get : String → Option (GenerativeModel F)

/-- The generation runs on a thread of its own, which drops what the model returns. -/
def Engine.generate (engine : Engine F) : Generate F := fun name prompt params =>
  match engine.get name with
  | none => .error (.notFound name)
  | some model => .ok (model.generate prompt params).1

/-! ## Drivers -/

/-- What a driver reads from the clock. -/
structure Stamp where
  shortId : String
  now : Nat
  deriving DecidableEq, Repr

/-- What the chunks of one stream have in common. -/
structure Header where
  id : String
  created : Nat
  model : String
  deriving DecidableEq, Repr

def Header.chunk (header : Header) (delta : Delta) (finishReason : Option String) : Event :=
  .chunk ⟨header.id, "chat.completion.chunk", header.created, header.model,
    [⟨0, delta, finishReason⟩]⟩

/-- The finish reason that a chunk has for a token. -/
def tokenFinish (tok : GeneratedToken F) : Option String := tok.finishReason.map finishReasonStr

/-- The loop over the tokens of a stream, with the flag `finished`. -/
def streamTokens (header : Header) (mark : Bool → Option String → Bool) :
    Bool → List (GeneratedToken F) → List Event × Bool
  | finished, [] => ([], finished)
  | finished, tok :: rest =>
    let (events, finished) := streamTokens header mark (mark finished (tokenFinish tok)) rest
    (header.chunk ⟨none, some tok.text⟩ (tokenFinish tok) :: events, finished)

/-- What follows the opening of a stream. -/
def streamBody (header : Header) (mark : Bool → Option String → Bool) :
    Except ModelError (List (GeneratedToken F)) → List Event
  | .error e => [.error ⟨errorText e, "server_error", none, none⟩, .done]
  | .ok tokens =>
    let (events, finished) := streamTokens header mark false tokens
    -- a token with a finish reason has already ended the stream
    events ++ (if finished then [] else [header.chunk ⟨none, none⟩ (some "length")]) ++ [.done]

/-- `finished = finish_reason.is_some()` -/
def markLast (_finished : Bool) (finishReason : Option String) : Bool := finishReason.isSome

/-- `if finish_reason.is_some() { finished = true }` -/
def markAny (finished : Bool) (finishReason : Option String) : Bool :=
  if finishReason.isSome then true else finished

/-- The text, the finish reason and the number of the tokens. -/
def collect (tokens : List (GeneratedToken F)) : String × String × Nat :=
  tokens.foldl (fun (text, finish, n) tok =>
    (text ++ tok.text, (tokenFinish tok).getD finish, n + 1)) ("", "length", 0)

section Drivers

variable [One F] (generate : Generate F) (stamp : Stamp)

def chatStream (mark : Bool → Option String → Bool) (req : ChatCompletionRequest F) : List Event :=
  let header : Header := ⟨"chatcmpl-" ++ stamp.shortId, stamp.now, req.model⟩
  header.chunk ⟨some "assistant", none⟩ none ::
    streamBody header mark (generate req.model req.tokens req.params)

def textStream (mark : Bool → Option String → Bool) (req : CompletionRequest F) : List Event :=
  streamBody ⟨"cmpl-" ++ stamp.shortId, stamp.now, req.model⟩ mark
    (generate req.model req.tokens req.params)

def chatWhole (req : ChatCompletionRequest F) : Except ModelError ChatCompletionResponse := do
  let received ← generate req.model req.tokens req.params
  let (content, finish, completionTokens) := collect received
  return {
    id := "chatcmpl-" ++ stamp.shortId
    object := "chat.completion"
    created := stamp.now
    model := req.model
    choices := [⟨0, ⟨"assistant", content, none⟩, finish⟩]
    usage := ⟨req.tokens.length, completionTokens, req.tokens.length + completionTokens⟩ }

def textWhole (req : CompletionRequest F) : Except ModelError CompletionResponse := do
  let received ← generate req.model req.tokens req.params
  let (text, finish, completionTokens) := collect received
  return {
    id := "cmpl-" ++ stamp.shortId
    object := "text_completion"
    created := stamp.now
    model := req.model
    choices := [⟨text, 0, finish⟩]
    usage := ⟨req.tokens.length, completionTokens, req.tokens.length + completionTokens⟩ }

def chatCompletionStream : ChatCompletionRequest F → List Event :=
  chatStream generate stamp markLast

def chatCompletion : ChatCompletionRequest F → Except ModelError ChatCompletionResponse :=
  chatWhole generate stamp

def completionStream : CompletionRequest F → List Event := textStream generate stamp markLast

def completion : CompletionRequest F → Except ModelError CompletionResponse :=
  textWhole generate stamp

def scheduledChatCompletionStream : ChatCompletionRequest F → List Event :=
  chatStream generate stamp markAny

def scheduledChatCompletion :
    ChatCompletionRequest F → Except ModelError ChatCompletionResponse :=
  chatWhole generate stamp

def scheduledCompletionStream : CompletionRequest F → List Event :=
  textStream generate stamp markAny

def scheduledCompletion : CompletionRequest F → Except ModelError CompletionResponse :=
  textWhole generate stamp

end Drivers

end JustApi.Inference.Completions
