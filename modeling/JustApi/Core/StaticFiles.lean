import Mathlib.Data.List.Infix
import Mathlib.Algebra.Group.Int.Defs
import JustApi.Lib.Text
import JustApi.Core.Http
import JustApi.Core.Crud
import JustApi.Core.Migrations

/-! # Static files

`StaticMount` and `StaticDir`: which file a request path stands for, and the responses
made of it. Paths are those of Unix; what the file system answers is a parameter, as are
the readings of the clock. -/
namespace JustApi.Core.StaticFiles
open JustApi.Lib.Text JustApi.Core.Http JustApi.Core.Crud
open JustApi.Core.Migrations (parseU64)

/-! ## Paths -/

inductive Component where
  | rootDir
  | curDir
  | parentDir
  | normal (name : String)
  deriving DecidableEq, Repr

/-- What stands between two slashes; nothing and `.` are passed over. -/
def component (part : List Char) : Option Component :=
  if part = [] ∨ part = ['.'] then none
  else if part = ['.', '.'] then some .parentDir
  else some (.normal (String.ofList part))

def isAbsolute (path : List Char) : Bool := path.head? = some '/'

/-- `Path::components`: only in front of a relative path a `.` counts. -/
def components (path : List Char) : List Component :=
  let parts := path.splitOn '/'
  (if isAbsolute path then [.rootDir] else if parts.head? = some ['.'] then [.curDir] else []) ++
    parts.filterMap component

/-- `Path::join` -/
def join (root path : List Char) : List Char :=
  if isAbsolute path then path
  else if root = [] ∨ root.getLast? = some '/' then root ++ path
  else root ++ '/' :: path

/-- `Path::starts_with`: whole components are compared. -/
def pathStartsWith (path base : List Char) : Bool := components base <+: components path

structure Metadata where
  isFile : Bool
  len : Nat
  /-- In nanoseconds from the epoch of the clock; not every platform has it. -/
  modified : Option Int
  deriving DecidableEq, Repr

structure FileSystem where
  canonicalize : List Char → Option (List Char)
  metadata : List Char → Option Metadata
  read : List Char → Except String Bytes
  /-- The frames of `ReaderStream`. -/
  stream : List Char → Except String ResponseBody

/-! ## Where a request goes -/

structure StaticDir where
  root : List Char
  deriving DecidableEq, Repr

structure StaticMount where
  /-- `prefix` -/
  mountPrefix : List Char
  dir : StaticDir
  fallback : Option (List Char)
  deriving DecidableEq, Repr

def containsText (cs : List Char) (text : String) : Bool := text.toList <:+: cs

/-- `..` and its percent-encodings are refused, then what leads out of the root. -/
def StaticDir.resolve (dir : StaticDir) (fs : FileSystem) (uriPath : List Char) :
    Option (List Char) :=
  let relative := uriPath.dropWhile (· = '/')
  if relative = [] then none
  else if containsText relative ".." || containsText relative "%2e" ||
      containsText relative "%2E" then none
  else
    let path := join dir.root relative
    match fs.canonicalize path, fs.canonicalize dir.root with
    | some canonical, some rootCanonical =>
      if pathStartsWith canonical rootCanonical then some path else none
    | _, _ => if pathStartsWith path dir.root then some path else none

def StaticMount.resolve (mount : StaticMount) (fs : FileSystem) (uriPath : List Char) :
    Option (List Char) :=
  if mount.mountPrefix = ['/'] then mount.dir.resolve fs uriPath
  else if mount.mountPrefix <+: uriPath then
    mount.dir.resolve fs (uriPath.drop mount.mountPrefix.length)
  else none

/-! ## Byte ranges -/

inductive ByteRange where
  /-- `bytes=start-end` -/
  | startEnd (start stop : Nat)
  /-- `bytes=start-` -/
  | startFrom (start : Nat)
  /-- `bytes=-suffix` -/
  | suffix (len : Nat)
  deriving DecidableEq, Repr

/-- The first and the last byte, clamped to the file. -/
def ByteRange.intoAbsRange (range : ByteRange) (totalLen : Nat) : Nat × Nat :=
  match range with
  | .startEnd start stop =>
    let start := min start (totalLen - 1)
    let stop := min stop (totalLen - 1)
    (start, max stop start)
  | .startFrom start => (min start (totalLen - 1), totalLen - 1)
  | .suffix len => (totalLen - len, totalLen - 1)

def parseRange (rangeStr : List Char) (totalLen : Nat) : Option ByteRange :=
  let rangeStr := trim rangeStr
  if ¬ "bytes=".toList <+: rangeStr then none
  else
    match (rangeStr.drop 6).splitOn '-' with
    | [startStr, endStr] =>
      let startStr := trim startStr
      let endStr := trim endStr
      if startStr = [] then
        (parseU64 endStr).bind fun suffixLen =>
          if suffixLen = 0 ∨ totalLen < suffixLen then none else some (.suffix suffixLen)
      else if endStr = [] then (parseU64 startStr).map .startFrom
      else
        (parseU64 startStr).bind fun start =>
          (parseU64 endStr).bind fun stop =>
            if stop < start then none else some (.startEnd start stop)
    | _ => none

/-! ## Entity tags -/

/-- `{:x}` -/
def hex (n : Nat) : List Char := Nat.toDigits 16 n

/-- Seconds since the time, zero for a time to come. -/
def elapsedSecs (now modified : Int) : Nat :=
  if modified ≤ now then ((now - modified) / 1000000000).toNat else 0

def makeEtag (now : Int) (metadata : Metadata) : String :=
  String.ofList ('"' :: hex metadata.len ++
    '-' :: hex ((metadata.modified.map (elapsedSecs now)).getD 0) ++ ['"'])

/-! ## Responses -/

/-- The part of a file name after its last dot, if the dot is not the first character. -/
def extension (path : List Char) : Option (List Char) :=
  match (components path).getLast? with
  | some (.normal name) =>
    match name.toList.reverse.span (· ≠ '.') with
    | (ext, _ :: _ :: _) => some ext.reverse
    | _ => none
  | _ => none

def guessContentType (path : List Char) : String :=
  match String.ofList ((extension path).getD []) with
  | "html" | "htm" => "text/html; charset=utf-8"
  | "css" => "text/css; charset=utf-8"
  | "js" | "mjs" => "application/javascript; charset=utf-8"
  | "json" => "application/json; charset=utf-8"
  | "png" => "image/png"
  | "jpg" | "jpeg" => "image/jpeg"
  | "gif" => "image/gif"
  | "svg" => "image/svg+xml"
  | "ico" => "image/x-icon"
  | "woff" => "font/woff"
  | "woff2" => "font/woff2"
  | "ttf" => "font/ttf"
  | "txt" => "text/plain; charset=utf-8"
  | "xml" => "application/xml; charset=utf-8"
  | "wasm" => "application/wasm"
  | "mp4" => "video/mp4"
  | "webp" => "image/webp"
  | _ => "application/octet-stream"

def notFound : Response := jsonResponse 404 "\x7b\"detail\":\"not found\"\x7d"

def notModified (etag : String) : Response :=
  ⟨304, [("etag", etag), ("cache-control", "public, max-age=3600")], []⟩

/-- Small files are read into memory. -/
def fileBody (fs : FileSystem) (path : List Char) (totalLen : Nat) : Except String ResponseBody :=
  if totalLen ≤ 1024 * 1024 then (fs.read path).map full else fs.stream path

/-- `seek` and `read_exact` -/
def readAt (bytes : Bytes) (start len : Nat) : Except String Bytes :=
  if start + len ≤ bytes.length then .ok ((bytes.drop start).take len)
  else .error "failed to fill whole buffer"

def contentRange (start stop totalLen : Nat) : String :=
  "bytes " ++ toString start ++ "-" ++ toString stop ++ "/" ++ toString totalLen

namespace StaticDir

/-- The length is computed in 64 bits. -/
def serveRange (fs : FileSystem) (path : List Char) (etag contentType : String) (totalLen : Nat)
    (range : ByteRange) : Except String Response :=
  let (start, stop) := range.intoAbsRange totalLen
  let len := (stop + 2 ^ 64 - start + 1) % 2 ^ 64
  (fs.read path).bind fun bytes =>
    (readAt bytes start len).map fun buf =>
      ⟨206, [("content-type", contentType), ("content-length", toString len),
        ("content-range", contentRange start stop totalLen), ("etag", etag),
        ("accept-ranges", "bytes"), ("cache-control", "public, max-age=3600"),
        ("x-content-type-options", "nosniff")], full buf⟩

def serveFile (fs : FileSystem) (now : Int) (path : List Char) : Except String Response :=
  match fs.metadata path with
  | none => .error "No such file or directory"
  | some metadata =>
    if metadata.isFile then
      (fileBody fs path metadata.len).map fun body =>
        ⟨200, [("content-type", guessContentType path), ("content-length", toString metadata.len),
          ("etag", makeEtag now metadata), ("cache-control", "public, max-age=3600"),
          ("x-content-type-options", "nosniff")], body⟩
    else .ok notFound

/-- `headers().get(name)` and `to_str` -/
def headerText (headers : Headers) (name : String) : Option String :=
  (headers.lookup name).bind toStr

def handle (dir : StaticDir) (fs : FileSystem) (now : Int) (uriPath : List Char)
    (headers : Headers) : Except String Response :=
  match dir.resolve fs uriPath with
  | none => .ok notFound
  | some path =>
    match fs.metadata path with
    | none => .ok notFound
    | some metadata =>
      if metadata.isFile = false then .ok notFound
      else
        let etag := makeEtag now metadata
        if headerText headers "if-none-match" = some etag then .ok (notModified etag)
        else
          match (headerText headers "range").bind fun r => parseRange r.toList metadata.len with
          | some range => serveRange fs path etag (guessContentType path) metadata.len range
          | none =>
            (fileBody fs path metadata.len).map fun body =>
              ⟨200, [("content-type", guessContentType path),
                ("content-length", toString metadata.len), ("etag", etag),
                ("cache-control", "public, max-age=3600"), ("accept-ranges", "bytes"),
                ("x-content-type-options", "nosniff")], body⟩

end StaticDir

end JustApi.Core.StaticFiles
