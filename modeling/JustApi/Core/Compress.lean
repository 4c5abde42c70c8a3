import JustApi.Lib.Comparators
import JustApi.Lib.Float64

/-! # Content encodings

Which encoding a response gets is read from the header `Accept-Encoding`. Two of the
encodings are features of the build. -/
namespace JustApi.Core.Compress
open JustApi.Lib.Text JustApi.Lib.Float64 JustApi.Lib.Comparators

inductive Encoding where
  | gzip
  | deflate
  | brotli
  | zstd
  | identity
  deriving DecidableEq, Repr

/-- The build's features `brotli-compression` and `zstd-compression`. -/
structure Features where
  brotli : Bool
  zstd : Bool
  deriving DecidableEq, Repr

/-! ## The header -/

/-- The entries of the header. -/
def parts (headerValue : String) : List (List Char) :=
  ((headerValue.toList.map Char.toLower).splitOn ',').map trim

/-- `split_once('=')` -/
def splitOnce (cs : List Char) : Option (List Char × List Char) :=
  if '=' ∈ cs then some (cs.takeWhile (· ≠ '='), (cs.dropWhile (· ≠ '=')).drop 1) else none

/-- The text of a parameter of an entry that is its quality. -/
def qualityText (sub : List Char) : Option (List Char) :=
  match splitOnce sub with
  | some (key, val) => if trim key = "q".toList then some (trim val) else none
  | none => none

/-- What stands between the semicolons of an entry. -/
def subs (part : List Char) : List (List Char) := (part.splitOn ';').map trim

/-- The texts an entry gives as its quality. -/
def qualityTexts (part : List Char) : List (List Char) := (subs part).tail.filterMap qualityText

/-- The last one counts; one that is no number counts as zero. -/
def quality (part : List Char) : F64 :=
  (qualityTexts part).foldl (fun _ text => (F64.parse text).getD .zero) .one

def encodingName (part : List Char) : String :=
  String.ofList (trim (((subs part).head?.getD []).takeWhile (· ≠ ';')))

structure Candidate where
  name : String
  quality : F64
  deriving DecidableEq

def entry (part : List Char) : Candidate := ⟨encodingName part, quality part⟩

def names : List String := ["br", "zstd", "gzip", "x-gzip", "deflate", "*"]

/-- An entry that is not refused, of a name that is known. -/
def isCandidate (c : Candidate) : Bool := ¬ c.quality.le .zero && c.name ∈ names

def candidates (parts : List (List Char)) : List Candidate := (parts.map entry).filter isCandidate

/-! ## The choice -/

section Choice

variable (features : Features)

def preferenceOrder (name : String) : Nat :=
  if name = "br" ∧ features.brotli then 0
  else if name = "zstd" ∧ features.zstd then 1
  else if name = "gzip" ∨ name = "x-gzip" then 2
  else if name = "deflate" then 3
  else if name = "*" then 4
  else 5

/-- The comparison the candidates are sorted by. -/
def comparator (a b : Candidate) : Ordering :=
  ((b.quality.partialCmp a.quality).getD .eq).then
    (compare (preferenceOrder features a.name) (preferenceOrder features b.name))

/-- The encoding of the first candidate. -/
def chosen (name : String) : Encoding :=
  if name = "br" ∧ features.brotli then .brotli
  else if name = "zstd" ∧ features.zstd then .zstd
  else if name = "gzip" ∨ name = "x-gzip" then .gzip
  else if name = "deflate" then .deflate
  else if name = "*" then
    if features.brotli then .brotli else if features.zstd then .zstd else .gzip
  else .identity

/-- The first of the candidates when they are sorted; `sort_by` is stable. -/
def choose (candidates : List Candidate) : Encoding :=
  match (sortBy (comparator features) candidates).head? with
  | none => .identity
  | some c => chosen features c.name

def fromAcceptEncoding (headerValue : String) : Encoding :=
  choose features (candidates (parts headerValue))

end Choice

example : fromAcceptEncoding ⟨true, false⟩ "gzip;q=1.0, deflate;q=0.5" = .gzip ∧
    fromAcceptEncoding ⟨true, false⟩ "gzip;q=0, Deflate" = .deflate ∧
    fromAcceptEncoding ⟨false, true⟩ "*" = .zstd := by
  decide +kernel

end JustApi.Core.Compress
