import JustApi.Core.Multipart
import JustApi.Lib.Run
import JustApi.Py.TestClient

/-! # Uploaded files

The temporary files of one request: `make_native_handler` as far as they are concerned, and
then what becomes of the `UploadFile` objects that Python gets. -/
namespace JustApi.Py.Uploads
open JustApi.Core.Http JustApi.Core.Routing
open JustApi.Core.Multipart (Path Host MultipartForm removeFile parseMultipart)
open JustApi.Lib.Run JustApi.Py.Pipeline

/-- An `UploadFile` of Python, with what its lock guards. -/
structure UploadFile where
  filename : String
  contentType : String
  size : Nat
  headers : AList fun _ : String => String
  tempPath : Path
  closed : Bool
  /-- Some reference is left. -/
  held : Bool

def UploadFile.new (f : JustApi.Core.Multipart.UploadFile) : UploadFile :=
  ⟨f.filename.getD "", f.contentType.getD "", f.size, f.headers, f.tempPath, false, true⟩

def UploadFile.IsOpen (u : UploadFile) : Prop := u.held = true ∧ u.closed = false

/-- A value in the dictionary of a form; files by their place among the objects. -/
inductive FormValue where
  | text (value : String)
  | file (object : Nat)

abbrev FormDict := AList fun _ : String => FormValue

inductive FileOp where
  | write
  | close
  deriving DecidableEq

structure State where
  /-- The temporary files that exist. -/
  files : List Path
  objects : List UploadFile
  /-- What the blocking pool has still to do, each with its object. -/
  pending : List (FileOp × Nat)

namespace State

def setHeld (st : State) (i : Nat) (held : Bool) : List UploadFile :=
  st.objects.modify i fun u => { u with held }

/-- The last reference to an object goes, and with it, in `Drop`, the file. -/
def release (st : State) (i : Nat) : State :=
  match st.objects[i]? with
  | none => st
  | some u =>
    if u.held then
      { st with
        files := if u.closed then st.files else removeFile u.tempPath st.files
        objects := st.setHeld i false }
    else st

def releaseAll (st : State) : State := (List.range st.objects.length).foldl release st

end State

/-! ## From the form to the handler -/

/-- One file of a form; `stored` tells whether Python can make an object of it and put this
into the dictionary. -/
def addFile (stored : JustApi.Core.Multipart.UploadFile → Bool) :
    FormDict × State → JustApi.Core.Multipart.UploadFile → FormDict × State
  | (d, st), f =>
    let i := st.objects.length
    let st := { st with objects := st.objects ++ [UploadFile.new f] }
    if stored f then
      let d' := d.insert f.fieldName (.file i)
      match d.lookup f.fieldName with
      -- of two files with one name the first is dropped
      | some (.file j) => (d', st.release j)
      | _ => (d', st)
    else (d, st.release i)

def formDict (stored : JustApi.Core.Multipart.UploadFile → Bool) (form : MultipartForm)
    (files : List Path) : FormDict × State :=
  let fields := form.fields.entries.foldl (fun d e => d.insert e.1 (.text e.2)) (∅ : FormDict)
  form.files.foldl (addFile stored) (fields, ⟨files, [], []⟩)

section Handling

variable {E H S : Type} (mx : Matchit E Nat) (parsers : Parsers MultipartForm)
  (server : Server H S) (rejects : S → Bytes → Option String) (host : Host)
  (stored : JustApi.Core.Multipart.UploadFile → Bool)

/-- Up to the call of the handler, which gets the form in a `Request` if it gets it at all. -/
def dispatchPythonHandler (call : PythonCall MultipartForm) (files : List Path) : State :=
  match call.form with
  | none => ⟨files, [], []⟩
  | some form =>
    let st := (formDict stored form files).2
    if (rejected server rejects call.handlerId call.body).isNone && call.needsRequest then st
    else st.releaseAll

/-- The dispatcher parses a form where there are these files. -/
def withHost (files : List Path) : Parsers MultipartForm :=
  { parsers with parseMultipart := fun body ct => (parseMultipart host files body ct).1 }

def filesParsed (req : Incoming) (files : List Path) : List Path :=
  if !needsContentType req && isMultipart (contentType req) then
    (parseMultipart host files req.body ((contentType req).getD "")).2
  else files

/-- `make_native_handler`, up to where its response is on the way or a handler is called. -/
def nativeHandler (scheme : String) (req : Incoming) (files : List Path) : State :=
  let parsed := filesParsed host req files
  match nativeExit mx (withHost parsers host files) server scheme req with
  | .python call => dispatchPythonHandler server rejects stored call parsed
  | _ => ⟨parsed, [], []⟩

/-- A request with a form gets as far as `dispatch_python_handler`. -/
def ReachesHandler (req : Incoming) (files : List Path) : Prop :=
  ∃ m : RouteResolution Nat,
    (∃ form, (parseMultipart host files req.body ((contentType req).getD "")).1 = .ok form) ∧
    server.tables.router.rawResolve mx req.method req.path = .ok m ∧
    server.tables.batchConfigs[m.handler]?.join = none ∧
    server.tables.sseSpecs[m.handler]?.join = none ∧
    crudSpec server m.handler req.method = none ∧
    tryNativeFastPath parsers server m.handler [] = none ∧
    tryNativeFastPathQuery parsers server m.handler req.query = none ∧
    ∀ json, server.tables.schemaJsons[m.handler]?.join = some json →
      validateBody parsers server m.handler [] json = .ok ()

end Handling

/-! ## What a handler does with its files -/

inductive Event where
  /-- `write` or `close` is called; the work goes to the blocking pool. -/
  | call (op : FileOp) (object : Nat)
  /-- The blocking pool does one of the operations it was given. -/
  | perform (job : Nat)
  /-- Python gives up its last reference. -/
  | release (object : Nat)

namespace State

/-- `OpenOptions::create` opens the file, or makes a new one. -/
def createFile (path : Path) (files : List Path) : List Path :=
  if path ∈ files then files else path :: files

/-- An operation under the lock of its object, which need not be there any more. -/
def perform (st : State) (op : FileOp) (i : Nat) (u : UploadFile) : State :=
  if u.closed then st
  else
    match op with
    | .write => { st with files := createFile u.tempPath st.files }
    | .close => { st with
        files := removeFile u.tempPath st.files
        objects := st.objects.modify i fun u => { u with closed := true } }

def step (st : State) : Event → Option State
  | .call op i => do
    let u ← st.objects[i]?
    if u.held then some { st with pending := st.pending ++ [(op, i)] } else none
  | .perform job => do
    let (op, i) ← st.pending[job]?
    let u ← st.objects[i]?
    some ({ st with pending := st.pending.eraseIdx job }.perform op i u)
  | .release i => do
    let u ← st.objects[i]?
    if u.held then some (st.release i) else none

/-- The steps of Python and of the blocking pool. -/
def Step (s : State) (e : Event) (t : State) : Prop := s.step e = some t

/-- The operation is carried out for an object that is in this state. -/
def Performs (s : State) (e : Event) (op : FileOp) (u : UploadFile) : Prop :=
  ∃ job i, e = .perform job ∧ s.pending[job]? = some (op, i) ∧ s.objects[i]? = some u

/-- No file is written to that Python gave up without closing it. -/
def WritesInTime (s : State) (e : Event) : Prop :=
  ∀ u, s.Performs e .write u → u.held = true ∨ u.closed = true

/-- No file is closed that Python still has a reference to. -/
def ClosesNoHeld (s : State) (e : Event) : Prop := ∀ u, s.Performs e .close u → ¬ u.IsOpen

/-! ## The law -/

/-- Once Python has no reference to any of the objects, the request has left no file. -/
def CleanedUp (before : List Path) (st : State) : Prop :=
  (∀ u ∈ st.objects, u.held = false) → ∀ p ∈ st.files, p ∈ before

/-- The files of objects that Python has references to are there. -/
def HeldExist (st : State) : Prop := ∀ u ∈ st.objects, u.held = true → u.tempPath ∈ st.files

end State

end JustApi.Py.Uploads
