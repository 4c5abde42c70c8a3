import JustApi.Core.UploadLimits
import Mathlib.Data.List.Forall2

/-! # The contents of uploads

`parse_multipart` again, with what the temporary files hold. Without the contents it is the
parser as before. -/
namespace JustApi.Core.Multipart
open JustApi.Core.Http JustApi.Core.QueryString

/-- The temporary files with what they hold, the newest first. -/
abbrev Disk := List (Path × Bytes)

namespace Disk

def paths (disk : Disk) : List Path := disk.map Prod.fst

def create (path : Path) (disk : Disk) : Disk := (path, []) :: disk

/-- Writing at the end of a file. -/
def append (path : Path) (chunk : Bytes) (disk : Disk) : Disk :=
  disk.map fun file => if file.1 = path then (path, file.2 ++ chunk) else file

def remove (path : Path) (disk : Disk) : Disk := disk.filter fun file => file.1 ≠ path

end Disk

/-- Where the loop over the parts is. -/
structure OnDisk where
  total : Nat
  form : MultipartForm
  disk : Disk

/-- Nothing received yet. -/
def OnDisk.start (disk : Disk) : OnDisk := ⟨0, ⟨∅, []⟩, disk⟩

def OnDisk.progress (p : OnDisk) : Progress := ⟨p.total, p.form, p.disk.paths⟩

theorem OnDisk.progress_start (disk : Disk) :
    (OnDisk.start disk).progress = Multipart.start disk.paths := rfl

def forget : Except (String × Disk) OnDisk → Except (String × List Path) Progress
  | .error (e, disk) => .error (e, disk.paths)
  | .ok p => .ok p.progress

section Saving

variable (host : Host)

def saveChunks (path : Path) :
    Disk → Nat → Nat → List (Except String Bytes) → Except (String × Disk) (Disk × Nat × Nat)
  | disk, total, fileSize, [] => .ok (disk, total, fileSize)
  | disk, _, _, .error e :: _ => .error (e, disk)
  | disk, total, fileSize, .ok chunk :: rest =>
    if host.maxUploadSize < total + chunk.length then
      .error (tooLarge host.maxUploadSize, disk)
    else
      match host.writeAll path fileSize chunk with
      -- whatever was written of the chunk goes with the file
      | .error e => .error (e, disk)
      | .ok _ =>
        saveChunks path (disk.append path chunk) (total + chunk.length) (fileSize + chunk.length)
          rest

/-- A part with a file name. -/
def saveFile (p : OnDisk) (part : Part) (rawFilename : String) :
    Except (String × Disk) OnDisk :=
  match host.newTemp p.disk.paths with
  | .error e => .error (e, p.disk)
  | .ok tempPath =>
    match saveChunks host tempPath (p.disk.create tempPath) p.total 0 part.chunks with
    | .error (e, disk) => .error (e, disk.remove tempPath)
    | .ok (disk, total, size) =>
      match host.keep tempPath with
      | .error e => .error (e, disk.remove tempPath)
      | .ok _ =>
        let file := ⟨part.name.getD "", some (sanitizeFilename rawFilename), part.contentType,
          partHeaders part, size, tempPath⟩
        .ok ⟨total, { p.form with files := p.form.files ++ [file] }, disk⟩

def save (p : OnDisk) (part : Part) : Except (String × Disk) OnDisk :=
  match part.filename with
  | some rawFilename => saveFile host p part rawFilename
  | none =>
    match part.text with
    | .error e => .error (e, p.disk)
    | .ok text =>
      .ok { p with form := { p.form with fields := p.form.fields.insert (part.name.getD "") text } }

def saveAll (ending : Except String Unit) : OnDisk → List Part → Except (String × Disk) OnDisk
  | p, [] =>
    match ending with
    | .error e => .error (e, p.disk)
    | .ok _ => .ok p
  | p, part :: rest =>
    match save host p part with
    | .error e => .error e
    | .ok p => saveAll ending p rest

/-- What the call returns, and the disk it leaves. -/
def outcome : Except (String × Disk) OnDisk → Except String MultipartForm × Disk
  | .error (e, disk) => (.error e, disk)
  | .ok p => (.ok p.form, p.disk)

def parseOnDisk (disk : Disk) (body : Bytes) (contentType : String) :
    Except String MultipartForm × Disk :=
  match extractBoundary contentType with
  | .error e => (.error e, disk)
  | .ok boundary =>
    let stream := host.multer body boundary
    outcome (saveAll host stream.2 (.start disk) stream.1)

end Saving

/-! ## The law -/

def contentOf (chunks : List (Except String Bytes)) : Bytes :=
  chunks.flatMap fun chunk => chunk.toOption.getD []

def Part.bytes (part : Part) : Bytes := contentOf part.chunks

def fileParts (parts : List Part) : List Part := parts.filter fun part => part.filename.isSome

/-- A file of the form that holds what its field has. -/
def Holds (disk : Disk) (f : UploadFile) (part : Part) : Prop :=
  disk.lookup f.tempPath = some part.bytes ∧ f.size = part.bytes.length

/-- These uploads are there besides the old files, with what the fields that have files have. -/
structure Saved (before : Disk) (fields : List Part) (uploads : List UploadFile) (disk : Disk) :
    Prop where
  holds : List.Forall₂ (Holds disk) uploads fields
  paths : ∀ path, path ∈ disk.paths ↔ path ∈ before.paths ∨ ∃ f ∈ uploads, f.tempPath = path
  old : ∀ path ∈ before.paths, disk.lookup path = before.lookup path

/-- A form comes with exactly its files, and an error with none. -/
def AllOrNothing (host : Host) (before : Disk) (body : Bytes) (contentType : String) : Prop :=
  match parseOnDisk host before body contentType with
  | (.error _, disk) => ∀ path ∈ disk.paths, path ∈ before.paths
  | (.ok form, disk) => Saved before (fileParts (partsOf host body contentType)) form.files disk

/-- Some file can be read, as can the parts before it, and is within the limit with the files
before it. -/
def FileComplete (host : Host) (files : List Path) (parts : List Part) : Prop :=
  ∃ earlier file, earlier ++ [file] <+: parts ∧ file.filename.isSome ∧
    Readable host files (earlier ++ [file]) ∧
    fileBytes (earlier ++ [file]) ≤ host.maxUploadSize

/-! ## The disk -/

section Disks

variable {disk : Disk} {path other : Path} {chunk next content : Bytes}

namespace Disk

theorem append_append :
    (disk.append path chunk).append path next = disk.append path (chunk ++ next) := by
  unfold append
  rw [List.map_map]
  refine List.map_congr_left fun file _ => ?_
  rw [Function.comp_apply]
  by_cases h : file.1 = path
  · rw [if_pos h, if_pos h, if_pos rfl, List.append_assoc]
  · rw [if_neg h, if_neg h, if_neg h]

theorem append_nil : disk.append path [] = disk := by
  unfold append
  refine (List.map_congr_left fun file _ => ?_).trans (List.map_id disk)
  split
  · rename_i h
    rw [List.append_nil, ← h]
    rfl
  · rfl

theorem append_of_notMem (h : path ∉ disk.paths) : disk.append path chunk = disk := by
  unfold append
  refine (List.map_congr_left fun file hfile => ?_).trans (List.map_id disk)
  rw [if_neg fun he => h (List.mem_map.mpr ⟨file, hfile, he⟩)]
  rfl

/-- A new file holds what was written. -/
theorem append_create (h : path ∉ disk.paths) :
    (disk.create path).append path chunk = (path, chunk) :: disk := by
  have hrest : disk.append path chunk = disk := append_of_notMem h
  unfold append at hrest
  rw [create, append, List.map_cons, hrest, if_pos rfl, List.nil_append]

theorem remove_of_notMem (h : path ∉ disk.paths) : disk.remove path = disk := by
  unfold remove
  rw [List.filter_eq_self]
  exact fun file hfile => decide_eq_true fun he => h (List.mem_map.mpr ⟨file, hfile, he⟩)

theorem remove_cons (h : path ∉ disk.paths) : remove path ((path, content) :: disk) = disk := by
  have hrest := remove_of_notMem h
  unfold remove at hrest ⊢
  rw [List.filter_cons_of_neg (by simp), hrest]

theorem lookup_cons_of_mem (h : path ∉ disk.paths) (hother : other ∈ disk.paths) :
    List.lookup other ((path, content) :: disk) = disk.lookup other := by
  have hne : other ≠ path := fun he => h (he ▸ hother)
  rw [List.lookup_cons, beq_false_of_ne hne]

theorem mem_paths_of_lookup (h : disk.lookup path = some content) : path ∈ disk.paths := by
  have hsome := List.lookup_isSome_iff.mp (Option.isSome_of_eq_some h)
  obtain ⟨file, hfile, he⟩ := hsome
  exact List.mem_map.mpr ⟨file, hfile, (eq_of_beq he).symm⟩

end Disk

end Disks

/-! ## One part -/

section Parts

variable {host : Host} {p q : OnDisk} {part : Part} {parts received : List Part} {path : Path}
  {disk left before : Disk} {chunks : List (Except String Bytes)} {total size : Nat} {e : String}

theorem contentOf_ok (chunk : Bytes) :
    contentOf (.ok chunk :: chunks) = chunk ++ contentOf chunks := List.flatMap_cons

/-- Only the one file is written to, and on success it has got all chunks. -/
theorem saveChunks_cases (host : Host) (path : Path) (disk : Disk) (total size : Nat)
    (chunks : List (Except String Bytes)) :
    (∃ e content, writeChunks host path total size chunks = .error e ∧
      saveChunks host path disk total size chunks = .error (e, disk.append path content)) ∨
    ∃ sum, writeChunks host path total size chunks =
        .ok (sum, size + (contentOf chunks).length) ∧
      saveChunks host path disk total size chunks =
        .ok (disk.append path (contentOf chunks), sum, size + (contentOf chunks).length) := by
  induction chunks generalizing disk total size with
  | nil =>
    refine .inr ⟨total, rfl, ?_⟩
    rw [show contentOf [] = [] from rfl, Disk.append_nil]
    rfl
  | cons chunk rest ih =>
    cases chunk with
    | error e => exact .inl ⟨e, [], rfl, by rw [Disk.append_nil]; rfl⟩
    | ok chunk =>
      unfold saveChunks writeChunks
      rw [contentOf_ok, List.length_append, ← Nat.add_assoc]
      by_cases hlimit : host.maxUploadSize < total + chunk.length
      · rw [if_pos hlimit, if_pos hlimit]
        exact .inl ⟨_, [], rfl, by rw [Disk.append_nil]⟩
      · rw [if_neg hlimit, if_neg hlimit]
        cases host.writeAll path size chunk with
        | error e => exact .inl ⟨e, [], rfl, by rw [Disk.append_nil]⟩
        | ok _ =>
          dsimp only
          rcases ih (disk.append path chunk) (total + chunk.length) (size + chunk.length) with
            ⟨e, content, hwrite, hsave⟩ | ⟨sum, hwrite, hsave⟩
          · rw [Disk.append_append] at hsave
            exact .inl ⟨e, chunk ++ content, hwrite, hsave⟩
          · rw [Disk.append_append] at hsave
            exact .inr ⟨sum, hwrite, hsave⟩

/-- What becomes of a part: it fails and leaves the disk as it is, or it is one more file with
its content, or a text. The parser without contents does the same. -/
inductive Saves (host : Host) (p : OnDisk) (part : Part) :
    Except (String × Disk) OnDisk → Prop where
  | failed {e : String} : receive host p.progress part = .error (e, p.disk.paths) →
    Saves host p part (.error (e, p.disk))
  | file {q : OnDisk} {f : UploadFile} : receive host p.progress part = .ok q.progress →
    part.filename.isSome = true → q.form.files = p.form.files ++ [f] →
    f.tempPath ∉ p.disk.paths → q.disk = (f.tempPath, part.bytes) :: p.disk →
    f.size = part.bytes.length → Saves host p part (.ok q)
  | text {q : OnDisk} : receive host p.progress part = .ok q.progress → part.filename = none →
    q.form.files = p.form.files → q.disk = p.disk → Saves host p part (.ok q)

theorem saveFile_saves (hnew : host.CreatesNew) {rawFilename : String}
    (hname : part.filename = some rawFilename) :
    Saves host p part (saveFile host p part rawFilename) := by
  have hreceive : receive host p.progress part =
      receiveFile host p.progress part rawFilename := by
    rw [receive, hname]
  unfold receiveFile at hreceive
  unfold saveFile
  rw [OnDisk.progress] at hreceive
  cases htemp : host.newTemp p.disk.paths with
  | error e =>
    simp only [htemp] at hreceive
    exact .failed hreceive
  | ok path =>
    have hpath := hnew _ _ htemp
    simp only [htemp, removeFile_cons_of_notMem hpath] at hreceive
    rcases saveChunks_cases host path (p.disk.create path) p.total 0 part.chunks with
      ⟨e, content, hwrite, hsave⟩ | ⟨sum, hwrite, hsave⟩
    · simp only [hwrite] at hreceive
      simp only [hsave, Disk.append_create hpath, Disk.remove_cons hpath]
      exact .failed hreceive
    · simp only [hwrite] at hreceive
      simp only [hsave, Disk.append_create hpath]
      cases hkeep : host.keep path with
      | error e =>
        simp only [hkeep] at hreceive
        rw [Disk.remove_cons hpath]
        exact .failed hreceive
      | ok _ =>
        simp only [hkeep] at hreceive
        refine .file hreceive (by rw [hname]; rfl) rfl hpath rfl ?_
        exact Nat.zero_add _

theorem save_saves (hnew : host.CreatesNew) (p : OnDisk) (part : Part) :
    Saves host p part (save host p part) := by
  unfold save
  cases hname : part.filename with
  | some rawFilename => exact saveFile_saves hnew hname
  | none =>
    cases htext : part.text with
    | error e => exact .failed (by rw [receive, hname, htext]; rfl)
    | ok text => exact .text (by rw [receive, hname, htext]; rfl) hname rfl rfl

/-! ## All parts -/

/-- Without the contents it is what the parser does with a part. -/
theorem receive_progress (hnew : host.CreatesNew) (p : OnDisk) (part : Part) :
    receive host p.progress part = forget (save host p part) := by
  have hsaves := save_saves hnew p part
  generalize save host p part = result at hsaves ⊢
  cases hsaves with
  | failed hreceive => exact hreceive
  | file hreceive => exact hreceive
  | text hreceive => exact hreceive

theorem receiveAll_progress (hnew : host.CreatesNew) (ending : Except String Unit) (p : OnDisk)
    (parts : List Part) :
    receiveAll host ending p.progress parts = forget (saveAll host ending p parts) := by
  induction parts generalizing p with
  | nil =>
    unfold saveAll receiveAll
    cases ending with
    | error e => rfl
    | ok _ => rfl
  | cons part rest ih =>
    unfold saveAll receiveAll
    rw [receive_progress hnew]
    cases save host p part with
    | error left => rfl
    | ok next => exact ih next

theorem Holds.create {f : UploadFile} {content : Bytes} (h : Holds disk f part)
    (hnew : path ∉ disk.paths) : Holds ((path, content) :: disk) f part :=
  ⟨(Disk.lookup_cons_of_mem hnew (Disk.mem_paths_of_lookup h.1)).trans h.1, h.2⟩

theorem Saved.start (before : Disk) : Saved before [] [] before :=
  ⟨.nil, fun _ => ⟨.inl, fun h => h.resolve_right fun ⟨_, hf, _⟩ => by cases hf⟩, fun _ _ => rfl⟩

theorem Saved.snoc {fields : List Part} {uploads : List UploadFile}
    (hsaved : Saved before fields uploads disk) {f : UploadFile} (hpath : f.tempPath ∉ disk.paths)
    (hsize : f.size = part.bytes.length) :
    Saved before (fields ++ [part]) (uploads ++ [f]) ((f.tempPath, part.bytes) :: disk) := by
  obtain ⟨hholds, hpaths, hold⟩ := hsaved
  refine ⟨?_, fun path => ?_, fun path hmem => ?_⟩
  · have hnewest : Holds ((f.tempPath, part.bytes) :: disk) f part :=
      ⟨List.lookup_cons_self, hsize⟩
    exact List.rel_append (hholds.imp fun _ _ h => h.create hpath) (.cons hnewest .nil)
  · have hmem : path ∈ Disk.paths ((f.tempPath, part.bytes) :: disk) ↔
        path = f.tempPath ∨ path ∈ disk.paths := List.mem_cons
    rw [hmem, hpaths]
    constructor
    · intro h
      rcases h with he | hbefore | ⟨g, hg, he⟩
      · exact .inr ⟨f, List.mem_append_right _ (.head _), he.symm⟩
      · exact .inl hbefore
      · exact .inr ⟨g, List.mem_append_left _ hg, he⟩
    · intro h
      rcases h with hbefore | ⟨g, hg, he⟩
      · exact .inr (.inl hbefore)
      · rcases List.mem_append.mp hg with hg | hg
        · exact .inr (.inr ⟨g, hg, he⟩)
        · rw [List.mem_singleton.mp hg] at he
          exact .inl he.symm
  · rw [Disk.lookup_cons_of_mem hpath ((hpaths path).mpr (.inl hmem)), hold path hmem]

theorem fileParts_cons_of_isSome (h : part.filename.isSome = true) :
    fileParts (part :: parts) = part :: fileParts parts := List.filter_cons_of_pos h

theorem fileParts_cons_of_none (h : part.filename = none) :
    fileParts (part :: parts) = fileParts parts :=
  List.filter_cons_of_neg (by rw [h]; exact Bool.false_ne_true)

theorem Saved.saveAll (hnew : host.CreatesNew) {fields : List Part} {ending : Except String Unit}
    (hsaved : Saved before fields p.form.files p.disk)
    (h : saveAll host ending p parts = .ok q) :
    Saved before (fields ++ fileParts parts) q.form.files q.disk := by
  induction parts generalizing p fields with
  | nil =>
    unfold Multipart.saveAll at h
    cases ending with
    | error e => cases h
    | ok _ =>
      cases h
      rw [fileParts, List.filter_nil, List.append_nil]
      exact hsaved
  | cons part rest ih =>
    unfold Multipart.saveAll at h
    cases hpart : Multipart.save host p part with
    | error left =>
      rw [hpart] at h
      cases h
    | ok next =>
      rw [hpart] at h
      have hsaves := save_saves hnew p part
      rw [hpart] at hsaves
      cases hsaves with
      | file _ hname hform hpath hdisk hsize =>
        have hnext := hsaved.snoc hpath hsize
        rw [← hform, ← hdisk] at hnext
        rw [fileParts_cons_of_isSome hname, List.append_cons]
        exact ih hnext h
      | text _ hname hform hdisk =>
        rw [← hform, ← hdisk] at hsaved
        rw [fileParts_cons_of_none hname]
        exact ih hsaved h

end Parts

/-! ## The body -/

section Bodies

variable {host : Host} {before : Disk} {body : Bytes} {contentType : String}

theorem parseOnDisk_eq {boundary : String} {parts : List Part} {ending : Except String Unit}
    (hboundary : extractBoundary contentType = .ok boundary)
    (hstream : host.multer body boundary = (parts, ending)) :
    parseOnDisk host before body contentType =
      outcome (saveAll host ending (.start before) parts) := by
  simp only [parseOnDisk, hboundary, hstream]

/-- Without the contents it is the parser. -/
theorem parseOnDisk_paths (hnew : host.CreatesNew) (before : Disk) (body : Bytes)
    (contentType : String) :
    ((parseOnDisk host before body contentType).1,
      (parseOnDisk host before body contentType).2.paths) =
      parseMultipart host before.paths body contentType := by
  unfold parseOnDisk parseMultipart
  cases extractBoundary contentType with
  | error e => rfl
  | ok boundary =>
    dsimp only
    rw [← OnDisk.progress_start, receiveAll_progress hnew]
    cases saveAll host (host.multer body boundary).2 (.start before)
      (host.multer body boundary).1 with
    | error left => rfl
    | ok q => rfl

theorem not_snoc_prefix_nil (earlier : List Part) (file : Part) : ¬ earlier ++ [file] <+: [] :=
  fun h => List.append_ne_nil_of_right_ne_nil earlier (List.cons_ne_nil file [])
    (List.prefix_nil.mp h)

theorem receivesFile_iff {p : Progress} (parts : List Part)
    (htotal : p.total ≤ host.maxUploadSize) :
    ReceivesFile host p parts ↔ ∃ earlier file, earlier ++ [file] <+: parts ∧
      file.filename.isSome = true ∧ Fits host p (earlier ++ [file]) := by
  induction parts generalizing p with
  | nil =>
    refine iff_of_false id fun h => ?_
    obtain ⟨earlier, file, hprefix, _⟩ := h
    exact not_snoc_prefix_nil earlier file hprefix
  | cons part rest ih =>
    unfold ReceivesFile
    constructor
    · intro h
      cases hpart : receive host p part with
      | error left =>
        rw [hpart] at h
        exact h.elim
      | ok q =>
        rw [hpart] at h
        have hq := receive_total_le htotal hpart
        rcases h with hname | h
        · have hfits : Fits host p ([] ++ [part]) :=
            (fits_cons htotal).mpr ⟨q, hpart, fits_nil.mpr hq⟩
          exact ⟨[], part, ⟨rest, rfl⟩, hname, hfits⟩
        · obtain ⟨earlier, file, hprefix, hname, hfits⟩ := (ih hq).mp h
          exact ⟨part :: earlier, file, List.cons_prefix_cons.mpr ⟨rfl, hprefix⟩, hname,
            (fits_cons htotal).mpr ⟨q, hpart, hfits⟩⟩
    · intro h
      obtain ⟨earlier, file, hprefix, hname, hfits⟩ := h
      cases earlier with
      | nil =>
        obtain ⟨he, _⟩ := List.cons_prefix_cons.mp hprefix
        rw [he] at hname hfits
        obtain ⟨q, hpart, _⟩ := (fits_cons htotal).mp hfits
        rw [hpart]
        exact .inl hname
      | cons first earlier =>
        obtain ⟨he, hprefix⟩ := List.cons_prefix_cons.mp hprefix
        rw [he] at hfits
        obtain ⟨q, hpart, hfits⟩ := (fits_cons htotal).mp hfits
        rw [hpart]
        exact .inr ((ih hfits.total_le).mpr ⟨earlier, file, hprefix, hname, hfits⟩)

theorem fileArrives_iff (files : List Path) :
    FileArrives host files body contentType ↔
      FileComplete host files (partsOf host body contentType) := by
  unfold FileArrives partsOf FileComplete
  cases extractBoundary contentType with
  | error e =>
    refine iff_of_false id fun h => ?_
    obtain ⟨earlier, file, hprefix, _⟩ := h
    exact not_snoc_prefix_nil earlier file hprefix
  | ok boundary =>
    have hzero : (start files).total ≤ host.maxUploadSize := Nat.zero_le _
    have hiff := receivesFile_iff (host.multer body boundary).1 hzero
    simp only [fits_start] at hiff
    exact hiff

/-- After an error the files are those of the uploads until then. -/
theorem no_new_iff (hnew : host.CreatesNew) {disk : Disk} {e : String}
    (h : parseOnDisk host before body contentType = (.error e, disk)) :
    (∀ path ∈ disk.paths, path ∈ before.paths) ↔
      ¬ FileComplete host before.paths (partsOf host body contentType) := by
  have hpaths := parseOnDisk_paths hnew before body contentType
  rw [h] at hpaths
  obtain ⟨uploads, hkept, hiff, _⟩ := parseMultipart_kept hnew before.paths body contentType
  rw [← hpaths] at hkept
  have hfiles : disk.paths = (uploads.map UploadFile.tempPath).reverse ++ before.paths :=
    hkept.files_eq
  rw [← fileArrives_iff, ← hiff, not_not, hfiles]
  constructor
  · intro hold
    cases uploads with
    | nil => rfl
    | cons f rest =>
      have hmem : f.tempPath ∈ ((f :: rest).map UploadFile.tempPath).reverse ++ before.paths :=
        List.mem_append_left _ (List.mem_reverse.mpr List.mem_cons_self)
      exact absurd (hold _ hmem) (hkept.notMem f List.mem_cons_self)
  · intro hnone path hmem
    rw [hnone] at hmem
    exact hmem

theorem parseOnDisk_saved (hnew : host.CreatesNew) {form : MultipartForm} {disk : Disk}
    (h : parseOnDisk host before body contentType = (.ok form, disk)) :
    Saved before (fileParts (partsOf host body contentType)) form.files disk := by
  unfold parseOnDisk at h
  unfold partsOf
  cases hboundary : extractBoundary contentType with
  | error e =>
    rw [hboundary] at h
    cases h
  | ok boundary =>
    rw [hboundary] at h
    dsimp only at h ⊢
    cases hall : saveAll host (host.multer body boundary).2 (.start before)
      (host.multer body boundary).1 with
    | error left =>
      rw [hall] at h
      cases h
    | ok q =>
      rw [hall] at h
      cases h
      have hstart : Saved before [] (OnDisk.start before).form.files before := Saved.start before
      exact hstart.saveAll hnew hall

/-- **Uploads, all or nothing.** There are exactly the files of the form with their contents, or
no new files after an error, exactly when the whole body is received, or none of its files
is complete by the time something stops it. -/
theorem all_or_nothing_iff (hnew : host.CreatesNew) (before : Disk) (body : Bytes)
    (contentType : String) :
    AllOrNothing host before body contentType ↔
      (WellFormed host before.paths body contentType ∧
        fileBytes (partsOf host body contentType) ≤ host.maxUploadSize) ∨
      ¬ FileComplete host before.paths (partsOf host body contentType) := by
  have hpaths := parseOnDisk_paths hnew before body contentType
  rw [← parseMultipart_ok_iff, ← hpaths]
  unfold AllOrNothing
  cases h : parseOnDisk host before body contentType with
  | mk result disk =>
    cases result with
    | error e =>
      dsimp only
      rw [no_new_iff hnew h]
      exact (or_iff_right fun ⟨_, he⟩ => by cases he).symm
    | ok form => exact iff_of_true (parseOnDisk_saved hnew h) (.inl ⟨form, rfl⟩)

end Bodies

section TwoFiles

/-- Two files `a` and `b` of three bytes. -/
def twoFilesBody : Bytes := asBytes (
  "--b\r\nContent-Disposition: form-data; name=\"a\"; filename=\"a\"\r\n\r\none\r\n" ++
  "--b\r\nContent-Disposition: form-data; name=\"b\"; filename=\"b\"\r\n\r\ntwo\r\n--b--\r\n")

def shortPart (name content : String) : Part :=
  ⟨some name, some name, none, [("content-disposition",
    "form-data; name=\"" ++ name ++ "\"; filename=\"" ++ name ++ "\"")],
    [.ok (asBytes content)], .ok content⟩

/-- A host with this limit, on which the one body is read. -/
def twoFilesHost (limit : Nat) : Host where
  multer body boundary :=
    if body = twoFilesBody ∧ boundary = "b" then
      ([shortPart "a" "one", shortPart "b" "two"], .ok ())
    else ([], .error "incomplete multipart stream")
  newTemp files :=
    if "/tmp/.tmpB" ∈ files then .error "exists"
    else if "/tmp/.tmpA" ∈ files then .ok "/tmp/.tmpB" else .ok "/tmp/.tmpA"
  writeAll _ _ _ := .ok ()
  keep _ := .ok ()
  maxUploadSize := limit

theorem twoFilesHost_createsNew (limit : Nat) : (twoFilesHost limit).CreatesNew := by
  intro files path h
  unfold twoFilesHost at h
  dsimp only at h
  split at h
  · cases h
  · rename_i hb
    split at h
    · cases h
      exact hb
    · rename_i ha
      cases h
      exact ha

def multipartType : String := "multipart/form-data; boundary=b"

theorem boundary_multipartType : extractBoundary multipartType = .ok "b" := by decide +kernel

theorem multer_twoFiles (limit : Nat) : (twoFilesHost limit).multer twoFilesBody "b" =
    ([shortPart "a" "one", shortPart "b" "two"], .ok ()) := by
  simp [twoFilesHost]

/-- Within the limit both files are there. -/
theorem all_or_nothing_two_files : AllOrNothing (twoFilesHost 6) [] twoFilesBody multipartType := by
  rw [all_or_nothing_iff (twoFilesHost_createsNew 6)]
  refine .inl ⟨?_, ?_⟩
  · rw [wellFormed_iff boundary_multipartType (multer_twoFiles 6)]
    exact ⟨rfl, rfl⟩
  · rw [partsOf_eq boundary_multipartType (multer_twoFiles 6)]
    decide

/-- The second file is over the limit, and the first stays. -/
theorem first_file_left : (parseOnDisk (twoFilesHost 5) [] twoFilesBody multipartType =
      (.error "uploaded content exceeds maximum size of 5 bytes",
        [("/tmp/.tmpA", asBytes "one")])) ∧
    ¬ AllOrNothing (twoFilesHost 5) [] twoFilesBody multipartType := by
  have hparse : parseOnDisk (twoFilesHost 5) [] twoFilesBody multipartType =
      (.error "uploaded content exceeds maximum size of 5 bytes",
        [("/tmp/.tmpA", asBytes "one")]) := by
    rw [parseOnDisk_eq boundary_multipartType (multer_twoFiles 5)]
    with_unfolding_all rfl
  refine ⟨hparse, ?_⟩
  rw [AllOrNothing, hparse]
  exact fun h => List.not_mem_nil (h "/tmp/.tmpA" (.head _))

end TwoFiles

end JustApi.Core.Multipart
