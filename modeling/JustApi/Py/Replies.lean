import JustApi.Core.QueryString

/-! # Replies

What becomes of the value that a handler returns: directly, through a future, and as an
element of the list that a batch handler returns. An object is what the conversions and
the attribute lookups of the code find in it. -/
namespace JustApi.Py.Replies
open JustApi.Core.Http (Bytes)
open JustApi.Core.QueryString (asBytes)

abbrev RawHeaders := List (Bytes × Bytes)

structure NativeResponse where
  status : Nat
  headers : RawHeaders
  body : Bytes
  deriving DecidableEq, Repr

/-- A response on the wire: the headers are a map. -/
structure Reply where
  status : Nat
  headers : Bytes → Option Bytes
  body : Bytes

/-! ## Headers and status codes -/

/-- The characters of a token. -/
def isTokenByte (b : UInt8) : Bool :=
  let n := b.toNat
  (48 ≤ n && n ≤ 57) || (65 ≤ n && n ≤ 90) || (97 ≤ n && n ≤ 122) ||
    n ∈ [33, 35, 36, 37, 38, 39, 42, 43, 45, 46, 94, 95, 96, 124, 126]

def lowerByte (b : UInt8) : UInt8 := if 65 ≤ b.toNat ∧ b.toNat ≤ 90 then b + 32 else b

/-- `HeaderName::from_bytes` -/
def headerName (name : Bytes) : Option Bytes :=
  if ¬ name.isEmpty ∧ name.length < 65536 ∧ name.all isTokenByte then some (name.map lowerByte)
  else none

/-- `HeaderValue::from_bytes` -/
def headerValue (value : Bytes) : Option Bytes :=
  if value.all fun b => (32 ≤ b.toNat && b.toNat ≠ 127) || b.toNat = 9 then some value else none

/-- A header is inserted if its name and its value are valid. -/
def insertRaw (headers : Bytes → Option Bytes) (field : Bytes × Bytes) : Bytes → Option Bytes :=
  match headerName field.1, headerValue field.2 with
  | some name, some value => fun n => if n = name then some value else headers n
  | _, _ => headers

/-- `StatusCode::from_u16`, or 500. -/
def statusCode (status : Nat) : Nat := if 100 ≤ status ∧ status < 1000 then status else 500

/-- `nr_to_response` -/
def NativeResponse.toResponse (nr : NativeResponse) : Reply :=
  ⟨statusCode nr.status, nr.headers.foldl insertRaw fun _ => none, nr.body⟩

/-! ## Values -/

/-- An object that is looked up in another one, with what `isinstance` and the conversions
say of it. A `str` with surrogates has no text. -/
structure Entry where
  isStr : Bool
  isBytes : Bool
  isTrue : Bool
  bool : Option Bool
  u16 : Option Nat
  headers : Option RawHeaders
  text : Option String
  bytes : Option Bytes
  /-- `str(entry)` -/
  shown : Option String
  /-- Only a `str` converts to a `String`, and it does not convert to bytes. -/
  isStr_of_text : text ≠ none → isStr = true
  bytes_of_isStr : isStr = true → bytes = none

/-- What is found under the names that the code looks for. -/
structure Items where
  response : Option Entry
  status : Option Entry
  headers : Option Entry
  body : Option Entry

def Items.none : Items := ⟨.none, .none, .none, .none⟩

/-- What a class adds to the builtin type it is made from. -/
structure Own where
  awaitable : Bool
  hasResult : Bool
  /-- The reply when it is waited for as for a future. -/
  settled : Reply
  /-- `_justapi_response` -/
  marker : Bool
  /-- `background`, and whether its tasks run without raising. -/
  background : Option Bool
  /-- `status_code`, `headers` and `body` -/
  attributes : Items
  /-- `to_dict()`, which may raise, as it can be subscripted. -/
  toDict : Option (Option Items)
  /-- The object itself as it can be subscripted. -/
  subscript : Items

/-- The type of a value as the code tells types apart. -/
inductive Base where
  /-- `None`, a `bool`, an `int`, a `float`, a `str` or a `list` -/
  | data
  | bytes (content : Bytes)
  /-- A key that is not a `String` has no name. -/
  | dict (entries : List (Option String × Entry))
  | other

/-- A value that is not a streaming response. -/
structure Value where
  base : Base
  own : Option Own
  /-- What `_dumps` makes of it, if it does not raise. -/
  dumped : Option Bytes

def Base.isDict : Base → Bool
  | .dict _ => true
  | _ => false

def Base.items : Base → Items
  | .dict entries => ⟨entries.lookup (some "__response__"), entries.lookup (some "status"),
      entries.lookup (some "headers"), entries.lookup (some "body")⟩
  | _ => .none

/-- What subscripting a value gives. -/
def Value.items (v : Value) : Items :=
  match v.own with
  | some own => own.subscript
  | none => v.base.items

def Value.toDict (v : Value) : Option (Option Items) := v.own.bind Own.toDict

def Value.marked (v : Value) : Bool := (v.own.map Own.marker).getD false

/-- The background tasks of a value raise. -/
def Value.tasksRaise (v : Value) : Bool := decide (v.own.bind Own.background = some false)

/-! ## The Python helper -/

def contentType : Bytes := asBytes "content-type"

def applicationJson : RawHeaders := [(contentType, asBytes "application/json")]

def Entry.ofU16 (n : Nat) : Entry where
  isStr := false
  isBytes := false
  isTrue := false
  bool := none
  u16 := some n
  headers := none
  text := none
  bytes := none
  shown := none
  isStr_of_text := fun h => absurd rfl h
  bytes_of_isStr := fun _ => rfl

def Entry.ofHeaders (headers : RawHeaders) : Entry where
  isStr := false
  isBytes := false
  isTrue := false
  bool := none
  u16 := none
  headers := some headers
  text := none
  bytes := none
  shown := none
  isStr_of_text := fun h => absurd rfl h
  bytes_of_isStr := fun _ => rfl

def Entry.ofBytes (bytes : Bytes) : Entry where
  isStr := false
  isBytes := true
  isTrue := false
  bool := none
  u16 := none
  headers := none
  text := none
  bytes := some bytes
  shown := none
  isStr_of_text := fun h => absurd rfl h
  bytes_of_isStr := fun h => absurd h Bool.false_ne_true

/-- The envelope of a value that is dumped. -/
def jsonItems (body : Bytes) : Items :=
  ⟨none, some (.ofU16 200), some (.ofHeaders applicationJson), some (.ofBytes body)⟩

def keysWithin (names : List String) (entries : List (Option String × Entry)) : Bool :=
  entries.all fun entry => entry.1.any names.contains

/-- The envelopes of `wrap_result`. -/
def isWrapEnvelope (entries : List (Option String × Entry)) : Bool :=
  ((entries.lookup (some "__response__")).map Entry.isTrue).getD false ||
  ((entries.lookup (some "status")).isSome &&
    keysWithin ["status", "headers", "__response__"] entries) ||
  ((entries.lookup (some "body")).isSome &&
    keysWithin ["body", "status", "headers", "__response__"] entries)

/-- A body that is a `str` gives way to its bytes. -/
def encodeBody (entries : List (Option String × Entry)) (items : Items) : Option Items :=
  if (entries.lookup (some "body")).isSome then do
    let body ← items.body
    if body.isStr then
      let text ← body.text
      some { items with body := some (.ofBytes (asBytes text)) }
    else some items
  else some items

/-- `wrap_result`, as its result can be subscripted. -/
def Value.wrapResult (v : Value) : Option Items :=
  if v.tasksRaise then none
  else
    match v.toDict with
    | some items => items
    | none =>
      match v.base with
      | .dict entries =>
        if isWrapEnvelope entries then encodeBody entries v.items else v.dumped.map jsonItems
      | _ => v.dumped.map jsonItems

/-! ## Serialization -/

/-- A response read from an envelope, where the body is to be bytes. -/
def Items.reply (items : Items) : NativeResponse :=
  ⟨(items.status.bind Entry.u16).getD 200, (items.headers.bind Entry.headers).getD [],
    (items.body.bind Entry.bytes).getD []⟩

/-- The body of an envelope in `serialize_response`. -/
def Entry.envelopeBody (b : Entry) : Bytes :=
  match b.text, b.bytes with
  | some s, _ => asBytes s
  | none, some bytes => bytes
  | none, none => (b.shown.map asBytes).getD []

def Items.envelope (items : Items) : NativeResponse :=
  { items.reply with body := (items.body.map Entry.envelopeBody).getD [] }

/-- The body of a `Response`. -/
def Entry.responseBody (b : Entry) : Bytes :=
  if b.isBytes then b.bytes.getD [] else (b.text.map asBytes).getD []

/-- A `Response`, read from its attributes. -/
def Items.asResponse (attributes : Items) : NativeResponse :=
  { attributes.reply with body := (attributes.body.map Entry.responseBody).getD [] }

/-- The envelopes of `serialize_response`. A key that is not a `String` leaves no keys. -/
def isEnvelope (entries : List (Option String × Entry)) (response : Option Entry) : Bool :=
  ((response.bind Entry.bool).getD false) ||
  (if entries.all fun entry => entry.1.isSome then
    keysWithin ["status", "headers", "body", "__response__"] entries
  else true)

def jsonReply (body : Bytes) : NativeResponse := ⟨200, applicationJson, body⟩

def octets (body : Bytes) : NativeResponse :=
  ⟨200, [(contentType, asBytes "application/octet-stream")], body⟩

def notSerialized : NativeResponse :=
  ⟨500, [(contentType, asBytes "text/plain")],
    asBytes "Internal Server Error: failed to serialize response"⟩

/-- The slow path of `serialize_response`. -/
def Value.slowPath (v : Value) : NativeResponse :=
  match v.wrapResult with
  | some items => items.reply
  | none => notSerialized

/-- The values that are dumped from Rust. -/
def Value.dumpPath (v : Value) : NativeResponse :=
  match v.dumped with
  | some body => jsonReply body
  | none => v.slowPath

def Value.serializeResponse (v : Value) : NativeResponse :=
  match v.own, v.marked with
  | some own, true => own.attributes.asResponse
  | _, _ =>
    match v.base with
    | .dict entries =>
      if isEnvelope entries v.items.response then v.items.envelope else v.dumpPath
    | .data => v.dumpPath
    | .bytes content => octets content
    | .other => v.slowPath

/-! ## Handlers -/

/-- `call_python_handler` takes the value for a future, or `call_handler` awaits it. -/
def Value.takenForFuture (v : Value) : Bool :=
  match v.own with
  | some own => own.awaitable || (own.hasResult && !v.base.isDict)
  | none => false

/-- A sync handler has returned the value. -/
def syncReply (v : Value) : Reply :=
  match v.own, v.takenForFuture with
  | some own, true => own.settled
  | _, _ => v.serializeResponse.toResponse

/-- The value is the result of an async handler. -/
def asyncReply (v : Value) : Reply := v.serializeResponse.toResponse

def batchError : NativeResponse := ⟨500, [], asBytes "Internal Server Error"⟩

def lengthMismatch : NativeResponse := ⟨500, [], asBytes "Batch length mismatch"⟩

/-- As many responses as there are requests. -/
def fitted (requests : Nat) (results : List NativeResponse) : List NativeResponse :=
  (results ++ List.replicate (requests - results.length) lengthMismatch).take requests

/-- A sync batch handler has returned the list. -/
def syncBatch (requests : Nat) (results : List Value) : List Reply :=
  ((match results.mapM Value.wrapResult with
    | some wrapped => fitted requests (wrapped.map Items.reply)
    | none => List.replicate requests batchError).map NativeResponse.toResponse)

/-- The list is the result of an async batch handler; its elements are not wrapped. -/
def asyncBatch (requests : Nat) (results : List Value) : List Reply :=
  (fitted requests (results.map fun v => v.items.reply)).map NativeResponse.toResponse

end JustApi.Py.Replies
