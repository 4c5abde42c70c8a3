import JustApi.Core.Http
import JustApi.Lib.Text
import Mathlib.Data.List.AList

/-! # Multipart bodies

`parse_multipart`. What multer makes of a body is a parameter, as is the directory for
temporary files; of the directory only matters which files it has. -/
namespace JustApi.Core.Multipart
open JustApi.Core.Http
open JustApi.Lib

abbrev Path := String

/-- A field of multer's, with what reading it yields. -/
structure Part where
  name : Option String
  filename : Option String
  contentType : Option String
  headers : Headers
  chunks : List (Except String Bytes)
  text : Except String String

structure UploadFile where
  fieldName : String
  filename : Option String
  contentType : Option String
  headers : AList fun _ : String => String
  size : Nat
  tempPath : Path

structure MultipartForm where
  fields : AList fun _ : String => String
  files : List UploadFile

/-- What the parser is given besides the body. -/
structure Host where
  /-- The fields of a body with this boundary, and how the stream of them ends. -/
  multer : Bytes → String → List Part × Except String Unit
  /-- `NamedTempFile::new`. -/
  newTemp : List Path → Except String Path
  /-- Writing a chunk at an offset. -/
  writeAll : Path → Nat → Bytes → Except String Unit
  keep : Path → Except String Unit
  maxUploadSize : Nat

/-- A new temporary file does not replace another file. -/
def Host.CreatesNew (host : Host) : Prop :=
  ∀ files path, host.newTemp files = .ok path → path ∉ files

def removeFile (path : Path) (files : List Path) : List Path := files.filter fun p => p ≠ path

@[simp] theorem mem_removeFile {p path : Path} {files : List Path} :
    p ∈ removeFile path files ↔ p ∈ files ∧ p ≠ path := by
  simp [removeFile]

theorem removeFile_cons_of_notMem {path : Path} {files : List Path} (h : path ∉ files) :
    removeFile path (path :: files) = files := by
  unfold removeFile
  rw [List.filter_cons_of_neg (by simp), List.filter_eq_self]
  intro p hp
  exact decide_eq_true fun he => h (he ▸ hp)

/-- The last component that is the name of a file. -/
def sanitizeFilename (name : String) : String :=
  let normalized := name.toList.map fun c => if c = Char.ofNat 92 then '/' else c
  let segments := (normalized.splitOn '/').reverse.map String.ofList
  (segments.find? fun seg => ¬ seg.isEmpty ∧ seg ≠ "." ∧ seg ≠ "..").getD ""

def stripStart (start cs : List Char) : Option (List Char) :=
  if start <+: cs then some (cs.drop start.length) else none

/-- Without the quotes around it. -/
def unquoted (cs : List Char) : List Char :=
  let quote := Char.ofNat 34
  let cs := (stripStart [quote] cs).getD cs
  if [quote] <:+ cs then cs.dropLast else cs

def extractBoundary (contentType : String) : Except String String :=
  let parts := (contentType.toList.splitOn ';').map Text.trim
  match parts.findSome? (stripStart "boundary=".toList) with
  | some value => .ok (String.ofList (unquoted (Text.trim value)))
  | none => .error "missing boundary in Content-Type header"

def tooLarge (maxSize : Nat) : String :=
  "uploaded content exceeds maximum size of " ++ toString maxSize ++ " bytes"

/-- Where the loop over the parts is. -/
structure Progress where
  total : Nat
  form : MultipartForm
  /-- The temporary files that exist. -/
  files : List Path

section Parsing

variable (host : Host)

/-- The chunks of a file, from the sizes of all content and of the file so far. -/
def writeChunks (path : Path) : Nat → Nat → List (Except String Bytes) → Except String (Nat × Nat)
  | total, fileSize, [] => .ok (total, fileSize)
  | _, _, .error e :: _ => .error e
  | total, fileSize, .ok chunk :: rest =>
    if host.maxUploadSize < total + chunk.length then .error (tooLarge host.maxUploadSize)
    else
      match host.writeAll path fileSize chunk with
      | .error e => .error e
      | .ok _ => writeChunks path (total + chunk.length) (fileSize + chunk.length) rest

def partHeaders (part : Part) : AList fun _ : String => String :=
  (part.headers.filterMap fun (k, v) => (toStr v).map fun text => (k.map Char.toLower, text)).foldl
    (fun headers (k, v) => headers.insert k v) ∅

/-- A part with a file name. An error comes with the files that are left. -/
def receiveFile (p : Progress) (part : Part) (rawFilename : String) :
    Except (String × List Path) Progress :=
  match host.newTemp p.files with
  | .error e => .error (e, p.files)
  | .ok tempPath =>
    -- up to `keep`, dropping the `NamedTempFile` deletes the file
    let dropped := removeFile tempPath (tempPath :: p.files)
    match writeChunks host tempPath p.total 0 part.chunks with
    | .error e => .error (e, dropped)
    | .ok (total, size) =>
      match host.keep tempPath with
      | .error e => .error (e, dropped)
      | .ok _ =>
        let file := ⟨part.name.getD "", some (sanitizeFilename rawFilename), part.contentType,
          partHeaders part, size, tempPath⟩
        .ok ⟨total, { p.form with files := p.form.files ++ [file] }, tempPath :: p.files⟩

def receive (p : Progress) (part : Part) : Except (String × List Path) Progress :=
  match part.filename with
  | some rawFilename => receiveFile host p part rawFilename
  | none =>
    match part.text with
    | .error e => .error (e, p.files)
    | .ok text =>
      .ok { p with form := { p.form with fields := p.form.fields.insert (part.name.getD "") text } }

def receiveAll (ending : Except String Unit) :
    Progress → List Part → Except (String × List Path) Progress
  | p, [] =>
    match ending with
    | .error e => .error (e, p.files)
    | .ok _ => .ok p
  | p, part :: rest =>
    match receive host p part with
    | .error e => .error e
    | .ok p => receiveAll ending p rest

/-- Nothing received yet. -/
def start (files : List Path) : Progress := ⟨0, ⟨∅, []⟩, files⟩

/-- The form, and the temporary files that there are afterwards. -/
def parseMultipart (files : List Path) (body : Bytes) (contentType : String) :
    Except String MultipartForm × List Path :=
  match extractBoundary contentType with
  | .error e => (.error e, files)
  | .ok boundary =>
    let stream := host.multer body boundary
    match receiveAll host stream.2 (start files) stream.1 with
    | .error (e, files) => (.error e, files)
    | .ok p => (.ok p.form, p.files)

/-! ## What is left -/

/-- Some part with a file name is received, as are the parts before it. -/
def ReceivesFile : Progress → List Part → Prop
  | _, [] => False
  | p, part :: rest =>
    match receive host p part with
    | .error _ => False
    | .ok p => part.filename.isSome = true ∨ ReceivesFile p rest

/-- Some file of the body arrives whole, as do the parts before it. -/
def FileArrives (files : List Path) (body : Bytes) (contentType : String) : Prop :=
  match extractBoundary contentType with
  | .error _ => False
  | .ok boundary => ReceivesFile host (start files) (host.multer body boundary).1

end Parsing

/-- The files of the form are new ones, and there are no other new ones. -/
structure Kept (before : List Path) (uploads : List UploadFile) (files : List Path) : Prop where
  files_eq : files = (uploads.map UploadFile.tempPath).reverse ++ before
  nodup : (uploads.map UploadFile.tempPath).Nodup
  notMem : ∀ f ∈ uploads, f.tempPath ∉ before

variable {host : Host} {before files : List Path} {p q : Progress} {part : Part}

theorem Kept.start (before : List Path) : Kept before [] before :=
  ⟨rfl, List.nodup_nil, fun _ h => absurd h List.not_mem_nil⟩

theorem Kept.snoc {uploads : List UploadFile} (h : Kept before uploads files) {f : UploadFile}
    (hnew : f.tempPath ∉ files) : Kept before (uploads ++ [f]) (f.tempPath :: files) := by
  rw [h.files_eq, List.mem_append, List.mem_reverse, not_or] at hnew
  obtain ⟨huploads, hbefore⟩ := hnew
  refine ⟨?_, ?_, ?_⟩
  · rw [h.files_eq, List.map_append, List.reverse_append]
    rfl
  · rw [List.map_append, List.nodup_append]
    refine ⟨h.nodup, List.nodup_singleton _, ?_⟩
    intro path hpath path' hpath'
    rw [List.map_singleton, List.mem_singleton] at hpath'
    rw [hpath']
    exact fun he => huploads (he ▸ hpath)
  · intro g hg
    rcases List.mem_append.mp hg with hg | hg
    · exact h.notMem g hg
    · rw [List.mem_singleton.mp hg]
      exact hbefore

/-- A part that is received is one more file, or leaves the files as they are. -/
theorem receive_ok (h : receive host p part = .ok q) :
    (part.filename.isSome = true ∧ ∃ f, q.form.files = p.form.files ++ [f] ∧
        host.newTemp p.files = .ok f.tempPath ∧ q.files = f.tempPath :: p.files) ∨
      part.filename = none ∧ q.form.files = p.form.files ∧ q.files = p.files := by
  unfold receive at h
  split at h
  · rename_i rawFilename hname
    refine .inl ⟨by rw [hname]; rfl, ?_⟩
    unfold receiveFile at h
    split at h
    · cases h
    · rename_i path hnew
      dsimp only at h
      split at h
      · cases h
      · split at h
        · cases h
        · cases h
          exact ⟨_, rfl, hnew, rfl⟩
  · rename_i hname
    refine .inr ⟨hname, ?_⟩
    split at h
    · cases h
    · cases h
      exact ⟨rfl, rfl⟩

/-- A part that is not received leaves no file. -/
theorem receive_error (hnew : host.CreatesNew) {e : String}
    (h : receive host p part = .error (e, files)) : files = p.files := by
  unfold receive at h
  split at h
  · unfold receiveFile at h
    split at h
    · cases h
      rfl
    · rename_i path hpath
      have hdropped := removeFile_cons_of_notMem (hnew _ _ hpath)
      dsimp only at h
      split at h
      · cases h
        exact hdropped
      · split at h
        · cases h
          exact hdropped
        · cases h
  · split at h
    · cases h
      rfl
    · cases h

theorem receive_kept (hnew : host.CreatesNew) (hkept : Kept before p.form.files p.files)
    (h : receive host p part = .ok q) : Kept before q.form.files q.files := by
  rcases receive_ok h with ⟨_, f, hform, hf, hfiles⟩ | ⟨_, hform, hfiles⟩
  · rw [hform, hfiles]
    exact hkept.snoc (hnew _ _ hf)
  · rw [hform, hfiles]
    exact hkept

/-- The loop ends with the files of what it received, also in an error. -/
theorem receiveAll_kept (hnew : host.CreatesNew) (ending : Except String Unit)
    (parts : List Part) (hkept : Kept before p.form.files p.files) :
    match receiveAll host ending p parts with
    | .error (_, files) => ∃ uploads, Kept before uploads files ∧
        (uploads ≠ [] ↔ p.form.files ≠ [] ∨ ReceivesFile host p parts)
    | .ok q => Kept before q.form.files q.files ∧
        (q.form.files ≠ [] ↔ p.form.files ≠ [] ∨ ReceivesFile host p parts) := by
  induction parts generalizing p with
  | nil =>
    cases ending with
    | error e => exact ⟨_, hkept, (or_iff_left id).symm⟩
    | ok _ => exact ⟨hkept, (or_iff_left id).symm⟩
  | cons part rest ih =>
    unfold receiveAll ReceivesFile
    cases hpart : receive host p part with
    | error left =>
      obtain ⟨e, files⟩ := left
      rw [receive_error hnew hpart]
      exact ⟨_, hkept, (or_iff_left id).symm⟩
    | ok q =>
      have hnonempty : q.form.files ≠ [] ↔ p.form.files ≠ [] ∨ part.filename.isSome = true := by
        rcases receive_ok hpart with ⟨hname, f, hform, _⟩ | ⟨hname, hform, _⟩
        · simp [hform, hname]
        · simp [hform, hname]
      have hrest := ih (receive_kept hnew hkept hpart)
      simp only [hnonempty, or_assoc] at hrest
      exact hrest

/-- After parsing there are the new files of some uploads, which are those of the form if
there is one. -/
theorem parseMultipart_kept (hnew : host.CreatesNew) (before : List Path) (body : Bytes)
    (contentType : String) :
    ∃ uploads, Kept before uploads (parseMultipart host before body contentType).2 ∧
      (uploads ≠ [] ↔ FileArrives host before body contentType) ∧
      ∀ form, (parseMultipart host before body contentType).1 = .ok form →
        form.files = uploads := by
  unfold parseMultipart FileArrives
  cases extractBoundary contentType with
  | error e => exact ⟨[], Kept.start before, ⟨fun h => h rfl, False.elim⟩, fun _ h => nomatch h⟩
  | ok boundary =>
    have hstart : Kept before (start before).form.files (start before).files := Kept.start before
    have hempty : ¬ (start before).form.files ≠ [] := fun h => h rfl
    have hall := receiveAll_kept hnew (host.multer body boundary).2
      (host.multer body boundary).1 hstart
    rw [or_iff_right hempty] at hall
    dsimp only
    cases hp : receiveAll host (host.multer body boundary).2 (start before)
      (host.multer body boundary).1 with
    | error left =>
      rw [hp] at hall
      obtain ⟨uploads, hkept, hiff⟩ := hall
      exact ⟨uploads, hkept, hiff, fun _ h => nomatch h⟩
    | ok q =>
      rw [hp] at hall
      exact ⟨q.form.files, hall.1, hall.2, fun form h => by rw [← Except.ok.inj h]⟩

end JustApi.Core.Multipart
