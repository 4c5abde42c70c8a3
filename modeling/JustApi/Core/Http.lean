import Mathlib.Data.List.Basic

/-! # HTTP requests and responses

The parts of a request and of a response that the router and the middlewares look
at. Header names are in lower case, as `HeaderName` keeps them. -/
namespace JustApi.Core.Http

inductive Method where
  | options
  | get
  | post
  | put
  | delete
  | head
  | trace
  | connect
  | patch
  | extension (name : String)
  deriving DecidableEq, Repr

abbrev Bytes := List UInt8

abbrev Headers := List (String × String)

/-- The text of a header value, if it has only visible ASCII characters, blanks and
tabs. -/
def toStr (value : String) : Option String :=
  if value.toList.all fun c => c = '\t' ∨ 32 ≤ c.toNat ∧ c.toNat < 127 then some value else none

structure Request where
  method : Method
  uri : String
  headers : Headers
  body : Bytes
  deriving DecidableEq, Repr

/-- A frame of a body: data, or the trailers. -/
inductive Frame where
  | data (chunk : Bytes)
  | trailers (fields : Headers)
  deriving DecidableEq, Repr

/-- The data of a frame, nothing for trailers. -/
def Frame.bytes : Frame → Bytes
  | .data chunk => chunk
  | .trailers _ => []

/-- What a body yields when it is polled: frames and errors, in order, and after the
last of them the end of the stream. -/
abbrev ResponseBody := List (Except String Frame)

structure Response where
  status : Nat
  headers : Headers
  body : ResponseBody
  deriving DecidableEq, Repr

end JustApi.Core.Http
