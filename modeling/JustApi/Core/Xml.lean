import Mathlib.Data.List.Dedup
import Mathlib.Data.String.Basic
import JustApi.Lib.SortedMap
import JustApi.Lib.Text
import JustApi.Core.Crud

/-! # XML bodies

`xml_to_json` and the mapping its documentation describes. The reader comes from the crate
`quick-xml`: the program is a function of the events it yields, and what it yields for a
tree is a definition here. JSON objects are taken up to the order of their entries. -/
namespace JustApi.Core.Xml
open JustApi.Lib JustApi.Lib.Text
open JustApi.Core.Crud (Value Number parseDigits parseI64)

/-! ## Numbers -/

/-- A numeral: its sign, its digits and its power of ten. -/
structure Decimal where
  negative : Bool
  digits : Nat
  exponent : Int
  deriving DecidableEq, Repr

def parseExponent : List Char → Option Int
  | [] => some 0
  | e :: rest =>
    if e = 'e' ∨ e = 'E' then
      match rest with
      | '-' :: digits => (parseDigits digits).map fun n => -n
      | '+' :: digits => (parseDigits digits).map fun n => n
      | digits => (parseDigits digits).map fun n => n
    else none

def parseUnsigned (cs : List Char) : Option (Nat × Int) :=
  let whole := cs.takeWhile Char.isDigit
  let rest := cs.dropWhile Char.isDigit
  let (fraction, rest) := match rest with
    | '.' :: rest => (rest.takeWhile Char.isDigit, rest.dropWhile Char.isDigit)
    | rest => ([], rest)
  match parseDigits (whole ++ fraction), parseExponent rest with
  | some digits, some exponent => some (digits, exponent - fraction.length)
  | _, _ => none

/-- The numerals of `f64::from_str`; infinities and NaNs are no JSON numbers. -/
def parseDecimal (s : String) : Option Decimal :=
  match s.toList with
  | '-' :: cs => (parseUnsigned cs).map fun p => ⟨true, p.1, p.2⟩
  | '+' :: cs => (parseUnsigned cs).map fun p => ⟨false, p.1, p.2⟩
  | cs => (parseUnsigned cs).map fun p => ⟨false, p.1, p.2⟩

/-- A number if the text is a numeral. `nearest` has the bits of the `f64` that is
nearest, none if that is infinite. -/
def coerce (nearest : Decimal → Option UInt64) (s : String) : Value :=
  match parseI64 s with
  | some n => .number (.int n)
  | none =>
    match (parseDecimal s).bind nearest with
    | some bits => .number (.float bits)
    | none => .string s

/-! ## The program -/

/-- What the reader yields; names and attributes as they are written. -/
inductive Event where
  | start (name : String) (attributes : List (String × String))
  | empty (name : String) (attributes : List (String × String))
  | text (raw : List Char)
  | cdata (text : List Char)
  | generalRef (name : List Char)
  | endTag
  /-- A comment, a processing instruction or a declaration. -/
  | skipped
  | error (message : String)
  deriving DecidableEq, Repr

structure Frame where
  name : String
  obj : List (String × Value)

/-- The open elements, the innermost first, and the pending text. -/
structure Conversion where
  stack : List Frame
  textBuf : List Char

inductive Failure where
  | panic (message : String)
  | error (message : String)
  deriving DecidableEq, Repr

/-- A second child with a key makes an array. -/
def insertMember (obj : List (String × Value)) (key : String) (value : Value) :
    List (String × Value) :=
  match SortedMap.get obj key with
  | some existing =>
    let arr := match existing with
      | .array items => items ++ [value]
      | other => [other, value]
    SortedMap.insert key (.array arr) (SortedMap.remove obj key)
  | none => SortedMap.insert key value obj

def insertChild (stack : List Frame) (key : String) (value : Value) : List Frame :=
  match stack with
  | [] => [⟨key, SortedMap.insert key value []⟩]
  | top :: rest => { top with obj := insertMember top.obj key value } :: rest

/-- What a closed element comes to: text alone is a scalar. -/
def closed (obj : List (String × Value)) : Value :=
  if obj.isEmpty then .null
  else match SortedMap.get obj "#text" with
    | some text => if obj.length = 1 then text else .object obj
    | none => .object obj

def flushText (textBuf : List Char) : String := String.ofList (trim textBuf)

section Program

variable (coerce : String → Value) (unescape : List Char → Option (List Char))

def captured (attributes : List (String × String)) : List (String × Value) :=
  attributes.foldl (fun obj a => SortedMap.insert ("@" ++ a.1) (coerce a.2) obj) []

def withText (obj : List (String × Value)) (text : String) : List (String × Value) :=
  if text.isEmpty then obj else SortedMap.insert "#text" (coerce text) obj

/-- The loop over the events. -/
def convert (c : Conversion) : List Event → Except Failure Value
  | [] =>
    if c.stack.isEmpty then
      let t := flushText c.textBuf
      .ok (if t.isEmpty then .null else coerce t)
    else .error (.error "xml parse failed: incomplete document")
  | .start name attributes :: events =>
    -- the pending text of the parent is flushed to nowhere
    convert ⟨⟨name, captured coerce attributes⟩ :: c.stack, []⟩ events
  | .empty name attributes :: events =>
    let obj := captured coerce attributes
    let value := if obj.isEmpty then .null else .object obj
    convert { c with stack := insertChild c.stack name value } events
  | .text raw :: events => convert { c with textBuf := c.textBuf ++ (unescape raw).getD [] } events
  | .cdata text :: events => convert { c with textBuf := c.textBuf ++ text } events
  | .generalRef name :: events => convert { c with textBuf := c.textBuf ++ name } events
  | .endTag :: events =>
    match c.stack with
    | [] => .error (.panic "unbalanced xml")
    | ⟨name, obj⟩ :: rest =>
      let value := closed (withText coerce obj (flushText c.textBuf))
      if rest.isEmpty then .ok (.object (SortedMap.insert name value []))
      else convert ⟨insertChild rest name value, []⟩ events
  | .skipped :: events => convert c events
  | .error message :: _ => .error (.error ("xml parse error: " ++ message))

def xmlToJson (events : List Event) : Except Failure Value :=
  convert coerce unescape ⟨[], []⟩ events

end Program

/-! ## Trees -/

/-- The predefined entities. -/
inductive Entity where
  | amp
  | lt
  | gt
  | quot
  | apos
  deriving DecidableEq, Repr

def Entity.name : Entity → List Char
  | .amp => ['a', 'm', 'p']
  | .lt => ['l', 't']
  | .gt => ['g', 't']
  | .quot => ['q', 'u', 'o', 't']
  | .apos => ['a', 'p', 'o', 's']

def Entity.char : Entity → Char
  | .amp => '&'
  | .lt => '<'
  | .gt => '>'
  | .quot => '"'
  | .apos => '\''

/-- A part of an attribute's value. -/
inductive Piece where
  | text (s : List Char)
  | reference (e : Entity)
  deriving DecidableEq, Repr

structure Attribute where
  name : String
  value : List Piece
  deriving DecidableEq, Repr

/-- What stands in an element; a text runs from one markup to the next. -/
inductive Node where
  | element (name : String) (attributes : List Attribute) (children : List Node)
  | selfClosing (name : String) (attributes : List Attribute)
  | text (s : List Char)
  | cdata (s : List Char)
  | reference (e : Entity)
  deriving Repr

namespace Node

def tag : Node → Option String
  | .element name _ _ => some name
  | .selfClosing name _ => some name
  | _ => none

mutual

/-- What holds at each element of a tree, of its name, attributes and content. -/
def Everywhere (p : String → List Attribute → List Node → Prop) : Node → Prop
  | .element name attributes children => p name attributes children ∧ EverywhereIn p children
  | .selfClosing name attributes => p name attributes []
  | _ => True

def EverywhereIn (p : String → List Attribute → List Node → Prop) : List Node → Prop
  | [] => True
  | n :: rest => n.Everywhere p ∧ EverywhereIn p rest

end

end Node

/-- The start of a name, ASCII as in the grammar of XML and any letter beyond. -/
def isNameStart (c : Char) : Bool := c.isAlpha || c = '_' || c = ':' || 0xC0 ≤ c.toNat

/-- A name, as far as its first character tells it. -/
def IsTag (tag : String) : Prop := tag.toList.head?.any isNameStart = true

/-- Elements have names, the attributes of an element different ones, and an ampersand
only begins a reference. -/
def Proper (name : String) (attributes : List Attribute) (children : List Node) : Prop :=
  IsTag name ∧ (attributes.map Attribute.name).Nodup ∧ ∀ s, .text s ∈ children → '&' ∉ s

def Node.WellFormed (n : Node) : Prop := n.Everywhere Proper

/-! ## What the reader yields -/

def xmlSpace (c : Char) : Bool := c = ' ' || c = '\t' || c = '\n' || c = '\r'

/-- `trim_text`: each text is trimmed by itself. -/
def trimRun (s : List Char) : List Char :=
  ((s.dropWhile xmlSpace).reverse.dropWhile xmlSpace).reverse

def Piece.raw : Piece → List Char
  | .text s => s
  | .reference e => '&' :: e.name ++ [';']

/-- An attribute's value as it is written. -/
def raw (value : List Piece) : String := String.ofList (value.flatMap Piece.raw)

def written (attributes : List Attribute) : List (String × String) :=
  attributes.map fun a => (a.name, raw a.value)

namespace Node

mutual

def events : Node → List Event
  | .element name attributes children =>
    .start name (written attributes) :: (eventsIn children ++ [.endTag])
  | .selfClosing name attributes => [.empty name (written attributes)]
  | .text s => if (trimRun s).isEmpty then [] else [.text (trimRun s)]
  | .cdata s => [.cdata s]
  | .reference e => [.generalRef e.name]

def eventsIn : List Node → List Event
  | [] => []
  | n :: rest => n.events ++ eventsIn rest

end

end Node

/-! ## The mapping -/

/-- How the values of attributes and the texts of contents are read. -/
structure Reading where
  attr : List Piece → String
  text : List Node → String

def Piece.decode : Piece → List Char
  | .text s => s
  | .reference e => [e.char]

def decode (value : List Piece) : String := String.ofList (value.flatMap Piece.decode)

/-- The character data of a node. -/
def Node.data : Node → List Char
  | .text s => s
  | .cdata s => s
  | .reference e => [e.char]
  | _ => []

def characterData (children : List Node) : List Char := children.flatMap Node.data

/-- References are decoded, and an element's text is its character data, trimmed. -/
def documented : Reading := ⟨decode, fun children => String.ofList (trim (characterData children))⟩

def collected : List Value → Value
  | [value] => value
  | values => .array values

def tagged (members : List (String × Value)) (tag : String) : List Value :=
  (members.filter fun m => m.1 = tag).map Prod.snd

/-- The children by their tags, those with the same tag together. -/
def grouped (members : List (String × Value)) : List (String × Value) :=
  (members.map Prod.fst).dedup.map fun tag => (tag, collected (tagged members tag))

section Mapping

variable (coerce : String → Value)

/-- The value of an element with these attributes, this text and these children. -/
def content (attributes : List (String × String)) (text : String)
    (members : List (String × Value)) : Value :=
  if attributes.isEmpty ∧ members.isEmpty then if text.isEmpty then .null else coerce text
  else .object (SortedMap.ofList
    (attributes.map (fun a => ("@" ++ a.1, coerce a.2)) ++ grouped members ++
      if text.isEmpty then [] else [("#text", coerce text)]))

namespace Node

mutual

def value (r : Reading) : Node → Value
  | .element _ attributes children =>
    content coerce (attributes.map fun a => (a.name, r.attr a.value)) (r.text children)
      (members r children)
  | .selfClosing _ attributes =>
    content coerce (attributes.map fun a => (a.name, r.attr a.value)) (r.text []) []
  | _ => .null

/-- The elements among the children, with their tags. -/
def members (r : Reading) : List Node → List (String × Value)
  | [] => []
  | n :: rest =>
    match n.tag with
    | some tag => (tag, n.value r) :: members r rest
    | none => members r rest

end

end Node

/-- The result is the root's value under its tag. -/
def Follows (unescape : List Char → Option (List Char)) (tag : String) (root : Node) : Prop :=
  xmlToJson coerce unescape root.events = .ok (.object [(tag, root.value coerce documented)])

end Mapping

end JustApi.Core.Xml
