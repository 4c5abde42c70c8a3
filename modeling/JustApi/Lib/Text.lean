import Mathlib.Data.List.Basic

/-! # Text

What the standard library does with strings. -/
namespace JustApi.Lib.Text

def startsWith (s start : String) : Bool := start.toList.isPrefixOf s.toList

/-- The Unicode property `White_Space`. -/
def isWhitespace (c : Char) : Bool :=
  let n := c.toNat
  9 ≤ n && n ≤ 13 || 0x2000 ≤ n && n ≤ 0x200A ||
    n ∈ [0x20, 0x85, 0xA0, 0x1680, 0x2028, 0x2029, 0x202F, 0x205F, 0x3000]

def trim (cs : List Char) : List Char :=
  ((cs.dropWhile isWhitespace).reverse.dropWhile isWhitespace).reverse

/-- `trim_start_matches`, with as much fuel as there are characters. -/
def trimStartMatches (pattern : List Char) : (fuel : Nat) → List Char → List Char
  | 0, cs => cs
  | fuel + 1, cs =>
    if pattern <+: cs then trimStartMatches pattern fuel (cs.drop pattern.length) else cs

/-- What comes before the first occurrence of the pattern, and what comes from there on. -/
def findPattern (pattern : List Char) : List Char → Option (List Char × List Char)
  | [] => if pattern = [] then some ([], []) else none
  | c :: rest =>
    if pattern <+: c :: rest then some ([], c :: rest)
    else (findPattern pattern rest).map fun p => (c :: p.1, p.2)

def splitWhitespace (s : String) : List String :=
  ((s.toList.splitOnP isWhitespace).filter fun word => ¬ word.isEmpty).map String.ofList

/-- The upper case of a character where that is ASCII, and otherwise the character, whose
upper case is not ASCII either. -/
def upperChar (c : Char) : List Char :=
  if c.isLower then [c.toUpper]
  else match c with
    | 'ı' => ['I']
    | 'ſ' => ['S']
    | 'ß' => ['S', 'S']
    | 'ﬀ' => ['F', 'F']
    | 'ﬁ' => ['F', 'I']
    | 'ﬂ' => ['F', 'L']
    | 'ﬃ' => ['F', 'F', 'I']
    | 'ﬄ' => ['F', 'F', 'L']
    | 'ﬅ' | 'ﬆ' => ['S', 'T']
    | c => [c]

def toUppercase (s : String) : String := String.ofList (s.toList.flatMap upperChar)

end JustApi.Lib.Text
