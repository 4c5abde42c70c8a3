import Mathlib.Algebra.GroupWithZero.Nat
import JustApi.Core.Multipart
import JustApi.Core.QueryString

/-! # The limit on uploads

What of a body is counted against `max_upload_size`, against what the body has. -/
namespace JustApi.Core.Multipart
open JustApi.Core.Http JustApi.Core.QueryString

/-! ## Reading without a limit -/

def chunkBytes : Except String Bytes → Nat
  | .ok chunk => chunk.length
  | .error _ => 0

def bytesOf (chunks : List (Except String Bytes)) : Nat := (chunks.map chunkBytes).sum

/-- The bytes of a field, whether they are read as chunks or as a text. -/
def Part.contentBytes (part : Part) : Nat := bytesOf part.chunks

/-- The bytes of a field that has a file name. -/
def Part.fileBytes (part : Part) : Nat := if part.filename.isSome then part.contentBytes else 0

def contentBytes (parts : List Part) : Nat := (parts.map Part.contentBytes).sum

def fileBytes (parts : List Part) : Nat := (parts.map Part.fileBytes).sum

section Reading

variable (host : Host)

/-- Every chunk arrives and is written, from this offset on. -/
def Stores (path : Path) : Nat → List (Except String Bytes) → Prop
  | _, [] => True
  | _, .error _ :: _ => False
  | offset, .ok chunk :: rest =>
    (host.writeAll path offset chunk).isOk ∧ Stores path (offset + chunk.length) rest

instance Stores.decidable (path : Path) :
    ∀ offset chunks, Decidable (Stores host path offset chunks)
  | _, [] => inferInstanceAs (Decidable True)
  | _, .error _ :: _ => inferInstanceAs (Decidable False)
  | offset, .ok chunk :: rest =>
    let _ := Stores.decidable path (offset + chunk.length) rest
    inferInstanceAs (Decidable (_ ∧ _))

/-- The files after a part, if it can be read. -/
def store (files : List Path) (part : Part) : Option (List Path) :=
  match part.filename with
  | none => if part.text.isOk then some files else none
  | some _ =>
    match host.newTemp files with
    | .error _ => none
    | .ok path =>
      if Stores host path 0 part.chunks ∧ (host.keep path).isOk then some (path :: files) else none

/-- All parts can be read. -/
def Readable (files : List Path) (parts : List Part) : Prop :=
  (parts.foldlM (store host) files).isSome

/-- The parts can be read, and their files are within the limit with those so far. -/
def Fits (p : Progress) (parts : List Part) : Prop :=
  Readable host p.files parts ∧ p.total + fileBytes parts ≤ host.maxUploadSize

def partsOf (body : Bytes) (contentType : String) : List Part :=
  match extractBoundary contentType with
  | .error _ => []
  | .ok boundary => (host.multer body boundary).1

/-- Nothing but the limit can stop the body from being received. -/
def WellFormed (files : List Path) (body : Bytes) (contentType : String) : Prop :=
  match extractBoundary contentType with
  | .error _ => False
  | .ok boundary =>
    let stream := host.multer body boundary
    Readable host files stream.1 ∧ stream.2.isOk

end Reading

/-! ## Reading with the limit -/

variable {host : Host} {files : List Path} {p q : Progress} {part : Part} {parts : List Part}

theorem bytesOf_cons (chunk : Except String Bytes) (rest : List (Except String Bytes)) :
    bytesOf (chunk :: rest) = chunkBytes chunk + bytesOf rest := List.sum_cons

theorem fileBytes_cons (part : Part) (rest : List Part) :
    fileBytes (part :: rest) = part.fileBytes + fileBytes rest := List.sum_cons

theorem writeChunks_ok_iff {path : Path} {chunks : List (Except String Bytes)}
    {total offset : Nat} {r : Nat × Nat} (htotal : total ≤ host.maxUploadSize) :
    writeChunks host path total offset chunks = .ok r ↔
      Stores host path offset chunks ∧ total + bytesOf chunks ≤ host.maxUploadSize ∧
        r = (total + bytesOf chunks, offset + bytesOf chunks) := by
  induction chunks generalizing total offset with
  | nil =>
    rw [writeChunks, Stores, Except.ok.injEq]
    simp only [bytesOf, List.map_nil, List.sum_nil, Nat.add_zero, htotal, true_and]
    exact eq_comm
  | cons chunk rest ih =>
    cases chunk with
    | error e =>
      rw [writeChunks, Stores]
      exact iff_of_false (fun h => by cases h) fun h => h.1
    | ok chunk =>
      rw [writeChunks, Stores, bytesOf_cons, chunkBytes]
      by_cases hlimit : host.maxUploadSize < total + chunk.length
      · rw [if_pos hlimit]
        exact iff_of_false (fun h => by cases h) fun ⟨_, h, _⟩ => by omega
      · rw [if_neg hlimit]
        cases hwrite : host.writeAll path offset chunk with
        | error e => exact iff_of_false (fun h => by cases h) fun h => Bool.false_ne_true h.1.1
        | ok _ =>
          rw [ih (Nat.not_lt.mp hlimit), Nat.add_assoc, Nat.add_assoc]
          exact and_congr_left fun _ => (and_iff_right rfl).symm

theorem Part.fileBytes_of_none (h : part.filename = none) : part.fileBytes = 0 := by
  rw [Part.fileBytes, h]
  rfl

theorem Part.fileBytes_of_some {name : String} (h : part.filename = some name) :
    part.fileBytes = bytesOf part.chunks := by
  rw [Part.fileBytes, h]
  rfl

/-- A part is received if it can be read and the files so far fit in the limit. -/
theorem receive_ok_iff (htotal : p.total ≤ host.maxUploadSize) {total : Nat} :
    (∃ q, receive host p part = .ok q ∧ q.files = files ∧ q.total = total) ↔
      store host p.files part = some files ∧ p.total + part.fileBytes = total ∧
        total ≤ host.maxUploadSize := by
  unfold receive store
  cases hname : part.filename with
  | none =>
    rw [Part.fileBytes_of_none hname]
    cases part.text with
    | error e => exact iff_of_false (fun ⟨_, h, _⟩ => by cases h) fun ⟨h, _⟩ => by cases h
    | ok text =>
      constructor
      · intro ⟨q, hq, hfiles, hsum⟩
        cases hq
        exact ⟨congrArg some hfiles, hsum, hsum ▸ htotal⟩
      · intro ⟨hfiles, hsum, _⟩
        exact ⟨_, rfl, Option.some.inj hfiles, hsum⟩
  | some rawFilename =>
    unfold receiveFile
    rw [Part.fileBytes_of_some hname]
    cases host.newTemp p.files with
    | error e => exact iff_of_false (fun ⟨_, h, _⟩ => by cases h) fun ⟨h, _⟩ => by cases h
    | ok path =>
      have hchunks r := @writeChunks_ok_iff host path part.chunks p.total 0 r htotal
      dsimp only
      cases hwrite : writeChunks host path p.total 0 part.chunks with
      | error e =>
        refine iff_of_false (fun ⟨_, h, _⟩ => by cases h) ?_
        intro ⟨hstore, hsum, hlimit⟩
        split at hstore
        · rename_i hstores
          rw [(hchunks _).mpr ⟨hstores.1, hsum ▸ hlimit, rfl⟩] at hwrite
          cases hwrite
        · cases hstore
      | ok r =>
        obtain ⟨hstores, hlimit, hr⟩ := (hchunks r).mp hwrite
        rw [hr]
        cases host.keep path with
        | error e =>
          rw [if_neg fun h => Bool.false_ne_true h.2]
          exact iff_of_false (fun ⟨_, h, _⟩ => by cases h) fun ⟨h, _⟩ => by cases h
        | ok _ =>
          rw [if_pos ⟨hstores, rfl⟩]
          constructor
          · intro ⟨q, hq, hfiles, hsum⟩
            cases hq
            exact ⟨congrArg some hfiles, hsum, hsum ▸ hlimit⟩
          · intro ⟨hfiles, hsum, _⟩
            exact ⟨_, rfl, Option.some.inj hfiles, hsum⟩

theorem readable_cons : Readable host files (part :: parts) ↔
    ∃ next, store host files part = some next ∧ Readable host next parts := by
  unfold Readable
  rw [List.foldlM_cons]
  cases store host files part with
  | none => exact iff_of_false Bool.false_ne_true fun ⟨_, h, _⟩ => by cases h
  | some next =>
    exact ⟨fun h => ⟨next, rfl, h⟩, fun ⟨_, h, hrest⟩ => by cases h; exact hrest⟩

theorem Fits.total_le (h : Fits host p parts) : p.total ≤ host.maxUploadSize :=
  Nat.le_trans (Nat.le_add_right _ _) h.2

theorem fits_nil : Fits host p [] ↔ p.total ≤ host.maxUploadSize := and_iff_right rfl

theorem fits_start : Fits host (start files) parts ↔
    Readable host files parts ∧ fileBytes parts ≤ host.maxUploadSize := by
  rw [Fits, show (start files).total = 0 from rfl, Nat.zero_add]
  rfl

/-- What fits is received part by part. -/
theorem fits_cons (htotal : p.total ≤ host.maxUploadSize) :
    Fits host p (part :: parts) ↔ ∃ q, receive host p part = .ok q ∧ Fits host q parts := by
  unfold Fits
  rw [readable_cons, fileBytes_cons, ← Nat.add_assoc]
  constructor
  · intro ⟨⟨files, hstore, hread⟩, hlimit⟩
    have hsum : p.total + part.fileBytes ≤ host.maxUploadSize :=
      Nat.le_trans (Nat.le_add_right _ _) hlimit
    obtain ⟨q, hq, hfiles, hnext⟩ := (receive_ok_iff htotal).mpr ⟨hstore, rfl, hsum⟩
    rw [← hnext] at hlimit
    rw [← hfiles] at hread
    exact ⟨q, hq, hread, hlimit⟩
  · intro ⟨q, hq, hread, hlimit⟩
    obtain ⟨hstore, hsum, _⟩ := (receive_ok_iff htotal).mp ⟨q, hq, rfl, rfl⟩
    rw [← hsum] at hlimit
    exact ⟨⟨q.files, hstore, hread⟩, hlimit⟩

/-- The total is within the limit after every part. -/
theorem receive_total_le (htotal : p.total ≤ host.maxUploadSize)
    (h : receive host p part = .ok q) : q.total ≤ host.maxUploadSize :=
  ((receive_ok_iff htotal).mp ⟨q, h, rfl, rfl⟩).2.2

theorem receiveAll_ok_iff (ending : Except String Unit) (parts : List Part)
    (htotal : p.total ≤ host.maxUploadSize) :
    (∃ q, receiveAll host ending p parts = .ok q) ↔ Fits host p parts ∧ ending.isOk := by
  induction parts generalizing p with
  | nil =>
    rw [fits_nil, and_iff_right htotal]
    unfold receiveAll
    cases ending with
    | error e =>
      refine iff_of_false (fun h => ?_) Bool.false_ne_true
      obtain ⟨_, h⟩ := h
      cases h
    | ok _ => exact iff_of_true ⟨p, rfl⟩ rfl
  | cons part rest ih =>
    rw [fits_cons htotal, receiveAll]
    cases hpart : receive host p part with
    | error left =>
      refine iff_of_false (fun h => ?_) fun h => ?_
      · obtain ⟨_, h⟩ := h
        cases h
      · obtain ⟨⟨_, h, _⟩, _⟩ := h
        cases h
    | ok next =>
      refine (ih (receive_total_le htotal hpart)).trans (and_congr_left' ?_)
      constructor
      · exact fun h => ⟨next, rfl, h⟩
      · intro h
        obtain ⟨_, he, h⟩ := h
        cases he
        exact h

section Bodies

variable {body : Bytes} {contentType : String}

theorem partsOf_eq {boundary : String} {parts : List Part} {ending : Except String Unit}
    (hboundary : extractBoundary contentType = .ok boundary)
    (hstream : host.multer body boundary = (parts, ending)) :
    partsOf host body contentType = parts := by
  simp only [partsOf, hboundary, hstream]

theorem wellFormed_iff {boundary : String} {parts : List Part} {ending : Except String Unit}
    (hboundary : extractBoundary contentType = .ok boundary)
    (hstream : host.multer body boundary = (parts, ending)) :
    WellFormed host files body contentType ↔ Readable host files parts ∧ ending.isOk := by
  simp only [WellFormed, hboundary, hstream]

/-- The files of a body are all that is counted. -/
theorem parseMultipart_ok_iff :
    (∃ form, (parseMultipart host files body contentType).1 = .ok form) ↔
      WellFormed host files body contentType ∧
        fileBytes (partsOf host body contentType) ≤ host.maxUploadSize := by
  unfold parseMultipart WellFormed partsOf
  cases extractBoundary contentType with
  | error e => exact iff_of_false (fun ⟨_, h⟩ => by cases h) fun h => h.1
  | ok boundary =>
    have hzero : (start files).total ≤ host.maxUploadSize := Nat.zero_le _
    have hall := receiveAll_ok_iff (host.multer body boundary).2 (host.multer body boundary).1 hzero
    rw [fits_start, and_right_comm] at hall
    dsimp only
    rw [← hall]
    cases receiveAll host (host.multer body boundary).2 (start files)
      (host.multer body boundary).1 with
    | error left => exact iff_of_false (fun ⟨_, h⟩ => by cases h) fun ⟨_, h⟩ => by cases h
    | ok q => exact iff_of_true ⟨_, rfl⟩ ⟨q, rfl⟩

end Bodies

/-- **The limit on a body.** A body that is accepted is within the limit exactly when, if
nothing else stops it, it is within the limit or its files alone are over it. -/
theorem limit_covers_body_iff (host : Host) (files : List Path) (body : Bytes)
    (contentType : String) :
    (∀ form, (parseMultipart host files body contentType).1 = .ok form →
        contentBytes (partsOf host body contentType) ≤ host.maxUploadSize) ↔
      (WellFormed host files body contentType →
        contentBytes (partsOf host body contentType) ≤ host.maxUploadSize ∨
          host.maxUploadSize < fileBytes (partsOf host body contentType)) := by
  constructor
  · intro hlimit hformed
    by_cases hfiles : fileBytes (partsOf host body contentType) ≤ host.maxUploadSize
    · obtain ⟨form, hform⟩ := parseMultipart_ok_iff.mpr ⟨hformed, hfiles⟩
      exact .inl (hlimit form hform)
    · exact .inr (Nat.not_le.mp hfiles)
  · intro hcond form hform
    obtain ⟨hformed, hfiles⟩ := parseMultipart_ok_iff.mp ⟨form, hform⟩
    exact (hcond hformed).resolve_right (Nat.not_lt.mpr hfiles)

section TextField

/-- A field `note` of eleven bytes. -/
def noteBody : Bytes := asBytes ("--b\r\nContent-Disposition: form-data; name=\"note\"\r\n\r\n" ++
  "hello world\r\n--b--\r\n")

def notePart : Part :=
  ⟨some "note", none, none, [("content-disposition", "form-data; name=\"note\"")],
    [.ok (asBytes "hello world")], .ok "hello world"⟩

/-- A host with a limit of ten bytes, on which the one body is read. -/
def noteHost : Host where
  multer body boundary :=
    if body = noteBody ∧ boundary = "b" then ([notePart], .ok ())
    else ([], .error "incomplete multipart stream")
  newTemp _ := .error "no directory"
  writeAll _ _ _ := .ok ()
  keep _ := .ok ()
  maxUploadSize := 10

/-- Eleven bytes of text are accepted. -/
theorem text_over_limit_accepted :
    (∃ form, (parseMultipart noteHost [] noteBody "multipart/form-data; boundary=b").1 =
      .ok form) ∧
    noteHost.maxUploadSize <
      contentBytes (partsOf noteHost noteBody "multipart/form-data; boundary=b") := by
  constructor
  · with_unfolding_all exact ⟨_, rfl⟩
  · decide +kernel

end TextField

end JustApi.Core.Multipart
