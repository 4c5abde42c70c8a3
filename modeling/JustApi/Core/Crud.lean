import Mathlib.Algebra.Group.Nat.Defs
import JustApi.Core.QueryString

/-! # Generated CRUD routes

`crud_dispatch_bytes` either answers at once or runs one query and answers with its
result. A `Dispatch` is that: a response, or the query with what becomes of its rows. The
JSON parser and printer and the validator of a route are parameters. -/
namespace JustApi.Core.Crud
open JustApi.Core.Http JustApi.Core.QueryString

inductive Number where
  | int (value : Int)
  /-- The bits of an `f64`. -/
  | float (bits : UInt64)
  deriving DecidableEq, Repr

/-- A JSON value. The keys of an object are distinct. -/
inductive Value where
  | null
  | bool (value : Bool)
  | number (value : Number)
  | string (value : String)
  | array (items : List Value)
  | object (fields : List (String × Value))
  deriving Repr

namespace Value

def asArray : Value → Option (List Value)
  | .array items => some items
  | _ => none

def asObject : Value → Option (List (String × Value))
  | .object fields => some fields
  | _ => none

end Value

/-- The JSON parser and printer. -/
structure Serde where
  fromSlice : Bytes → Option Value
  text : Value → String

/-! ## Responses -/

/-- The errors of the database that are told apart. -/
inductive SqlxError where
  | poolTimedOut
  | poolClosed
  | database (code : Option String)
  | other
  deriving DecidableEq, Repr

/-- A body of one frame, or none when there is nothing in it. -/
def full (bytes : Bytes) : ResponseBody := if bytes = [] then [] else [.ok (.data bytes)]

def jsonResponse (status : Nat) (body : String) : Response where
  status := status
  headers := [("content-type", "application/json"),
    ("content-length", toString (asBytes body).length)]
  body := full (asBytes body)

def title : Nat → String
  | 400 => "Bad Request"
  | 401 => "Unauthorized"
  | 403 => "Forbidden"
  | 404 => "Not Found"
  | 405 => "Method Not Allowed"
  | 413 => "Payload Too Large"
  | 422 => "Unprocessable Entity"
  | 429 => "Too Many Requests"
  | 500 => "Internal Server Error"
  | 502 => "Bad Gateway"
  | 503 => "Service Unavailable"
  | 504 => "Gateway Timeout"
  | _ => "Error"

/-- The title in lower case with dashes. -/
def slug (title : String) : String :=
  String.ofList (title.toList.map fun c => if c = ' ' then '-' else c.toLower)

def errorResponse (serde : Serde) (status : Nat) (detail : String) : Response :=
  jsonResponse status (serde.text (.object [
    ("type", .string ("https://justapi.dev/errors/" ++ slug (title status))),
    ("title", .string (title status)),
    ("status", .number (.int status)),
    ("detail", .string detail)]))

def validationResponse (serde : Serde) (detail : String) : Response :=
  errorResponse serde 422 detail

def serviceUnavailableResponse (serde : Serde) (detail : String) : Response :=
  let body := serde.text (.object [
    ("type", .string "https://justapi.dev/errors/service-unavailable"),
    ("title", .string "Service Unavailable"),
    ("status", .number (.int 503)),
    ("detail", .string detail)])
  { status := 503
    headers := [("content-type", "application/problem+json"), ("retry-after", "1"),
      ("content-length", toString (asBytes body).length)]
    body := full (asBytes body) }

def dbErrorResponse (serde : Serde) : SqlxError → Response
  | .poolTimedOut | .poolClosed =>
    serviceUnavailableResponse serde "database pool saturated; please retry shortly"
  | .database code =>
    if code.getD "" ∈ ["5", "6", "517", "518", "261"] then
      serviceUnavailableResponse serde "database is locked; please retry shortly"
    else errorResponse serde 500 "database error"
  | .other => errorResponse serde 500 "database error"

/-! ## Specs -/

inductive CrudOp where
  | insert
  | select
  | update
  | delete
  deriving DecidableEq, Repr

structure CrudSpec where
  op : CrudOp
  table : String
  columns : List String
  idColumn : String
  deriving DecidableEq, Repr

/-- Letters, digits and underscores, and no digit first. -/
def isValidSqlIdentifier (name : String) : Bool :=
  match name.toList with
  | [] => false
  | first :: rest => (first.isAlpha || first = '_') && rest.all fun c => c.isAlphanum || c = '_'

namespace CrudSpec

def mustBeValid : String := "must be a valid SQL identifier (alphanumeric + underscore)"

def validate (spec : CrudSpec) : Except String Unit :=
  if isValidSqlIdentifier spec.table = false then
    .error ("Invalid table name '" ++ spec.table ++ "': " ++ mustBeValid)
  else if isValidSqlIdentifier spec.idColumn = false then
    .error ("Invalid id_column '" ++ spec.idColumn ++ "': " ++ mustBeValid)
  else
    match spec.columns.find? fun col => isValidSqlIdentifier col = false with
    | some col => .error ("Invalid column name '" ++ col ++ "': " ++ mustBeValid)
    | none => .ok ()

/-- Everything a valid spec names is an identifier. -/
theorem validate_ok {spec : CrudSpec} (h : spec.validate = .ok ()) :
    isValidSqlIdentifier spec.table = true ∧ isValidSqlIdentifier spec.idColumn = true ∧
      ∀ col ∈ spec.columns, isValidSqlIdentifier col = true := by
  unfold validate at h
  split at h
  · cases h
  · split at h
    · cases h
    · split at h
      · cases h
      · rename_i htable hid _ hcolumns
        refine ⟨by simpa using htable, by simpa using hid, fun col hcol => ?_⟩
        simpa using List.find?_eq_none.mp hcolumns col hcol

end CrudSpec

/-! ## The id -/

/-- The number a text of decimal digits stands for. -/
def parseDigits (digits : List Char) : Option Nat :=
  if digits ≠ [] ∧ digits.all Char.isDigit then
    some (digits.foldl (fun n c => n * 10 + (c.toNat - '0'.toNat)) 0)
  else none

def parseI64 (raw : String) : Option Int :=
  match raw.toList with
  | '-' :: digits => (parseDigits digits).bind fun n => if n ≤ 2 ^ 63 then some (-n) else none
  | '+' :: digits => (parseDigits digits).bind fun n => if n < 2 ^ 63 then some n else none
  | digits => (parseDigits digits).bind fun n => if n < 2 ^ 63 then some n else none

/-- The value of the id among the path parameters, a number if it reads as one. -/
def idParam (pathParams : List (String × String)) (idColumn : String) : Option Value :=
  (pathParams.find? fun p => eqIgnoreAsciiCase p.1 idColumn).map fun p =>
    match parseI64 p.2 with
    | some i => .number (.int i)
    | none => .string p.2

/-! ## Statements -/

inductive DbKind where
  | postgres
  | sqlite
  | mySql
  deriving DecidableEq, Repr

structure PlaceholderGen where
  dollar : Bool
  i : Nat

def placeholderGen (kind : DbKind) : PlaceholderGen := ⟨kind = .postgres, 0⟩

/-- The next placeholder, and the generator after it. -/
def PlaceholderGen.next (ph : PlaceholderGen) : String × PlaceholderGen :=
  (if ph.dollar then "$" ++ toString (ph.i + 1) else "?", { ph with i := ph.i + 1 })

/-- So many placeholders one after the other. -/
def PlaceholderGen.take (ph : PlaceholderGen) : Nat → List String
  | 0 => []
  | n + 1 => ph.next.1 :: ph.next.2.take n

/-- Comparisons or assignments, the values bound so far and the generator. -/
structure Clauses where
  texts : List String
  params : List Value
  ph : PlaceholderGen

def Clauses.push (s : Clauses) (column : String) (v : Value) : Clauses :=
  ⟨s.texts ++ [column ++ " = " ++ s.ph.next.1], s.params ++ [v], s.ph.next.2⟩

inductive Dispatch where
  | respond (response : Response)
  | query (sql : String) (params : List Value) (answer : Except SqlxError Value → Response)

section Dispatching

variable (serde : Serde) (kind : DbKind) (spec : CrudSpec) (pathParams : List (String × String))
  (queryString body : Bytes)

/-- The first row of the result. -/
def firstRow (rows : Value) : Option Value := rows.asArray.bind List.head?

/-- The body as a JSON object, or the response that refuses it. -/
def bodyObject : Except Response (List (String × Value)) :=
  match serde.fromSlice body with
  | none => .error (validationResponse serde "request body must be valid JSON")
  | some v =>
    match v.asObject with
    | none => .error (validationResponse serde "request body must be a JSON object")
    | some fields => .ok fields

/-- The answer of a statement on one row: the row, or that there is none. -/
def rowOrNotFound : Except SqlxError Value → Response
  | .ok rows =>
    match firstRow rows with
    | some payload => jsonResponse 200 (serde.text payload)
    | none => errorResponse serde 404 "row not found"
  | .error e => dbErrorResponse serde e

/-- One turn of the loop of `insertable`. -/
def insertColumn (obj : List (String × Value)) (acc : List String × List Value) (c : String) :
    List String × List Value :=
  match obj.lookup c with
  | some v => (acc.1 ++ [c], acc.2 ++ [v])
  | none => acc

/-- The columns of the spec that the body has, and their values. -/
def insertable (obj : List (String × Value)) (columns : List String) : List String × List Value :=
  columns.foldl (insertColumn obj) ([], [])

def crudInsert (validator : Option (Bytes → Except String Unit)) : Dispatch :=
  match validator.elim (.ok ()) (· body) with
  | .error e => .respond (validationResponse serde e)
  | .ok () =>
    match bodyObject serde body with
    | .error response => .respond response
    | .ok obj =>
      let (cols, vals) := insertable obj spec.columns
      if cols = [] then
        .respond (validationResponse serde "no insertable columns matched the request body")
      else
        let placeholders := (placeholderGen kind).take cols.length
        .query
          ("INSERT INTO " ++ spec.table ++ " (" ++ ", ".intercalate cols ++ ") VALUES (" ++
            ", ".intercalate placeholders ++ ") RETURNING *")
          vals
          fun
            | .ok rows => jsonResponse 200 (serde.text ((firstRow rows).getD rows))
            | .error e => dbErrorResponse serde e

def crudSelect : Dispatch :=
  let start : Clauses := ⟨[], [], placeholderGen kind⟩
  let byId := (idParam pathParams spec.idColumn).elim start (start.push spec.idColumn)
  let wheres := (parseQuery queryString spec.columns).foldl
    (fun s p => s.push p.1 (.string p.2)) byId
  .query
    ("SELECT * FROM " ++ spec.table ++
      if wheres.texts = [] then "" else " WHERE " ++ " AND ".intercalate wheres.texts)
    wheres.params
    fun
      | .ok rows => jsonResponse 200 (serde.text rows)
      | .error e => dbErrorResponse serde e

/-- An assignment for each column of the spec that the body has. -/
def assignments (obj : List (String × Value)) (start : Clauses) (columns : List String) : Clauses :=
  columns.foldl (fun s c =>
    match obj.lookup c with
    | some v => s.push c v
    | none => s) start

def crudUpdate : Dispatch :=
  match idParam pathParams spec.idColumn with
  | none => .respond (errorResponse serde 400 "missing path id for update")
  | some id =>
    match bodyObject serde body with
    | .error response => .respond response
    | .ok obj =>
      let sets := assignments obj ⟨[], [], placeholderGen kind⟩ spec.columns
      if sets.texts = [] then
        .respond (validationResponse serde "no updatable columns matched the request body")
      else
        .query
          ("UPDATE " ++ spec.table ++ " SET " ++ ", ".intercalate sets.texts ++ " WHERE " ++
            spec.idColumn ++ " = " ++ sets.ph.next.1 ++ " RETURNING *")
          (sets.params ++ [id])
          (rowOrNotFound serde)

def crudDelete : Dispatch :=
  match idParam pathParams spec.idColumn with
  | none => .respond (errorResponse serde 400 "missing path id for delete")
  | some id =>
    .query
      ("DELETE FROM " ++ spec.table ++ " WHERE " ++ spec.idColumn ++ " = " ++
        (placeholderGen kind).next.1 ++ " RETURNING *")
      [id]
      (rowOrNotFound serde)

def crudDispatchBytes (validator : Option (Bytes → Except String Unit)) : Dispatch :=
  match spec.op with
  | .insert => crudInsert serde kind spec body validator
  | .select => crudSelect serde kind spec pathParams queryString
  | .update => crudUpdate serde kind spec pathParams body
  | .delete => crudDelete serde kind spec pathParams

end Dispatching

end JustApi.Core.Crud
