import Mathlib.Data.List.Basic
import JustApi.Core.Http

/-! # Query strings

How the bytes of a query string become pairs of keys and values. Text is decoded
leniently: what is not UTF-8 becomes U+FFFD, one for each maximal part that could have
been the start of a character. -/
namespace JustApi.Core.QueryString
open JustApi.Core.Http

/-! ## UTF-8 -/

/-- The bytes of a text. -/
def asBytes (s : String) : Bytes := s.toList.flatMap String.utf8EncodeChar

def isContinuation (b : UInt8) : Bool := 0x80 ≤ b && b ≤ 0xBF

/-- The second byte of a character of three bytes. -/
def isSecondOf3 (b c : UInt8) : Bool :=
  b = 0xE0 && 0xA0 ≤ c && c ≤ 0xBF || 0xE1 ≤ b && b ≤ 0xEC && isContinuation c ||
    b = 0xED && 0x80 ≤ c && c ≤ 0x9F || 0xEE ≤ b && b ≤ 0xEF && isContinuation c

/-- The second byte of a character of four bytes. -/
def isSecondOf4 (b c : UInt8) : Bool :=
  b = 0xF0 && 0x90 ≤ c && c ≤ 0xBF || 0xF1 ≤ b && b ≤ 0xF3 && isContinuation c ||
    b = 0xF4 && 0x80 ≤ c && c ≤ 0x8F

/-- The six bits a continuation byte carries. -/
def low6 (b : UInt8) : Nat := b.toNat % 64

def replacement : Char := Char.ofNat 0xFFFD

/-- What the bytes from `b` on start with, and how many bytes after `b` belong to it.
Past the end there are zeros. -/
def firstChar (b : UInt8) (rest : Bytes) : Char × Nat :=
  let c := rest.getD 0 0
  let d := rest.getD 1 0
  let e := rest.getD 2 0
  if b < 0x80 then (Char.ofNat b.toNat, 0)
  else if 0xC2 ≤ b ∧ b ≤ 0xDF then
    if isContinuation c then (Char.ofNat (b.toNat % 32 * 64 + low6 c), 1)
    else (replacement, 0)
  else if 0xE0 ≤ b ∧ b ≤ 0xEF then
    if isSecondOf3 b c then
      if isContinuation d then
        (Char.ofNat (b.toNat % 16 * 4096 + low6 c * 64 + low6 d), 2)
      else (replacement, 1)
    else (replacement, 0)
  else if 0xF0 ≤ b ∧ b ≤ 0xF4 then
    if isSecondOf4 b c then
      if isContinuation d then
        if isContinuation e then
          (Char.ofNat (b.toNat % 8 * 262144 + low6 c * 4096 + low6 d * 64 + low6 e), 3)
        else (replacement, 2)
      else (replacement, 1)
    else (replacement, 0)
  else (replacement, 0)

/-- Pieces of a text of bytes, each taken off by `first`, after `skip` bytes. -/
def pieces {α : Type} (first : UInt8 → Bytes → α × Nat) : (skip : Nat) → Bytes → List α
  | _, [] => []
  | skip + 1, _ :: rest => pieces first skip rest
  | 0, b :: rest => (first b rest).1 :: pieces first (first b rest).2 rest

def decodeLossy (bytes : Bytes) : List Char := pieces firstChar 0 bytes

def fromUtf8Lossy (bytes : Bytes) : String := String.ofList (decodeLossy bytes)

/-! ## Percent-encoding -/

def hexDigit (b : UInt8) : Option UInt8 :=
  if 0x30 ≤ b ∧ b ≤ 0x39 then some (b - 0x30)
  else if 0x61 ≤ b ∧ b ≤ 0x66 then some (b - 0x61 + 10)
  else if 0x41 ≤ b ∧ b ≤ 0x46 then some (b - 0x41 + 10)
  else none

/-- `+` is a space; a `%` that two hexadecimal digits do not follow is itself. -/
def firstByte (b : UInt8) (rest : Bytes) : UInt8 × Nat :=
  if b = 0x2B then (0x20, 0)
  else if b = 0x25 then
    match rest with
    | h :: l :: _ =>
      match hexDigit h, hexDigit l with
      | some hi, some lo => (hi * 16 + lo, 2)
      | _, _ => (b, 0)
    | _ => (b, 0)
  else (b, 0)

def percentDecodeBytes (bytes : Bytes) : Bytes := pieces firstByte 0 bytes

def percentDecode (s : String) : String := fromUtf8Lossy (percentDecodeBytes (asBytes s))

/-! ## Pairs -/

/-- The texts of the two are the same up to ASCII case. -/
def eqIgnoreAsciiCase (a b : String) : Bool := a.toList.map Char.toLower = b.toList.map Char.toLower

def isAllowed (columns : List String) (name : String) : Bool :=
  columns.any fun c => eqIgnoreAsciiCase c name

/-- The parts before and after the first `=`, the whole and nothing if there is none. -/
def splitPair (pair : List Char) : List Char × List Char :=
  match pair.span (· ≠ '=') with
  | (k, _ :: v) => (k, v)
  | (k, []) => (k, [])

/-- The pairs whose key is allowed. -/
def parseQuery (filter : Bytes) (allowed : List String) : List (String × String) :=
  ((decodeLossy filter).splitOn '&').filterMap fun pair =>
    if pair = [] then none
    else
      let k := percentDecode (String.ofList (splitPair pair).1)
      if isAllowed allowed k then some (k, percentDecode (String.ofList (splitPair pair).2))
      else none

/-- Only allowed keys come out of a query string, whatever its bytes. -/
theorem isAllowed_of_mem_parseQuery {filter : Bytes} {allowed : List String} {k v : String}
    (h : (k, v) ∈ parseQuery filter allowed) : isAllowed allowed k = true := by
  obtain ⟨pair, -, hpair⟩ := List.mem_filterMap.mp h
  split at hpair
  · cases hpair
  · dsimp only at hpair
    split at hpair
    · rename_i hallowed
      rwa [(Prod.mk.inj (Option.some.inj hpair)).1] at hallowed
    · cases hpair

example : parseQuery (asBytes "n%61me=a+b%&&x&Name=%C3%A9%ff") ["name", "x"] =
    [("name", "a b%"), ("x", ""), ("Name", "\u00e9\ufffd")] := by
  decide +kernel

end JustApi.Core.QueryString
