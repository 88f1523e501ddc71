/-
  Thawr.Backup.Archive — the backup archive (`internal/backup/backup.go`).

  An archive is a gzip-compressed tar whose first entry lists every other entry with its size
  and SHA-256. `Write` makes one from files, each of which it reads twice: once for the
  manifest and once for the entry. `Extract` reads one into a directory.

  The formats are not modelled. What a tar reader finds behind gzip is a `Stream`: the entries,
  and how the stream ends. JSON and SHA-256 are the functions of a `Codec`. A directory tree
  has no links (`Thawr.Go.FileTree`).
-/

import Thawr.Go.FileTree

namespace Thawr.Backup

open Go Go.Paths

def format : Int := 1

def manifestName : Str := str "manifest.json"

def maxManifestSize : Nat := 1048576

def maxTarPadding : Nat := 20 * 512

structure File where
  path : Str
  size : Int
  sha256 : Str
  deriving DecidableEq

structure Manifest where
  format : Int := 0
  thawrVersion : Str := []
  schemaVersion : Int := 0
  created : Int := 0
  serverKeyFingerprint : Str := []
  tlsMode : Str := []
  files : List File := []
  deriving DecidableEq

structure Source where
  path : Str
  file : Str

/-- What is wrong with an archive (`ErrInvalid`). -/
inductive Invalid where
  /-- "path %q" -/
  | path (p : Str)
  /-- "not gzip: %w" -/
  | notGzip
  /-- "empty archive: %w" -/
  | empty
  /-- "first entry must be %s" -/
  | firstEntry
  /-- "manifest: %w" -/
  | manifest
  /-- "format %d, this binary reads %d" -/
  | format (n : Int)
  /-- "manifest entry %q" -/
  | manifestEntry (p : Str)
  /-- What the tar reader reports. -/
  | tar
  /-- "unexpected entry %q" -/
  | unexpected (name : Str)
  /-- "entry %q does not match the manifest" -/
  | mismatch (name : Str)
  /-- "%s does not match its checksum" -/
  | checksum (p : Str)
  /-- "%s missing" -/
  | missing
  /-- "gzip: %w" -/
  | gzip
  /-- "data after the end of the archive" -/
  | trailing
  deriving DecidableEq

inductive Err where
  | invalid (why : Invalid)
  /-- "backup: %s listed twice" -/
  | twice (p : Str)
  /-- "backup: open %s: %w" -/
  | openFile (file : Str)
  /-- "backup: read %s: %w" -/
  | readFile (file : Str)
  /-- "backup: manifest: %w" -/
  | manifest
  /-- "backup: header %s: %w" -/
  | header (name : Str)
  /-- "backup: %s changed while it was archived" -/
  | changed (name : Str)
  /-- "backup: create %s: %w" -/
  | create (e : FileErr)
  /-- "backup: write %s: %w" -/
  | write (p : Str)
  deriving DecidableEq

/-- A tar entry: its header, and what can be read of its content, which is less than its size
    when the archive was cut. -/
structure Entry where
  name : Str
  /-- The type is `TypeReg`. -/
  reg : Bool
  size : Nat
  data : Str
  fits : data.length ≤ size

inductive Ending where
  /-- The end of the tar, so many more bytes, and whether the gzip trailer is right. -/
  | eof (rest : Nat) (sound : Bool)
  /-- Something that is no tar header. -/
  | broken
  deriving DecidableEq

structure Stream where
  gzip : Bool
  entries : List Entry
  ending : Ending

structure Codec where
  /-- `json.MarshalIndent`. -/
  marshal : Manifest → Option Str
  /-- `Decode`: the first value of a text. -/
  decode : Str → Option Manifest
  /-- SHA-256 in hexadecimal. -/
  sum : Str → Str

/-- `checkPath`; Unix paths have no volume name. -/
def checkPath (p : Str) : Except Err Unit :=
  if p = [] ∨ p = manifestName ∨ p.contains 92 ∨ isAbs p ∨ clean p ≠ p ∨ p = dot ∨ str "../" <+: p ∨ p = dotdot then
    .error (.invalid (.path p))
  else if (elements p).any (· == dotdot) then .error (.invalid (.path p))
  else .ok ()

/-! ## Write -/

/-- What comes of opening a file and reading it to its end. -/
inductive FileRead where
  | notOpened
  | failed
  | whole (content : Str)

/-- How the file of a source is read for the manifest, and when it is copied. -/
structure Reads where
  hashed : Source → FileRead
  copied : Source → FileRead

section

variable (c : Codec)

def hashFile (read : FileRead) (file : Str) : Except Err (Int × Str) :=
  match read with
  | .notOpened => .error (.openFile file)
  | .failed => .error (.readFile file)
  | .whole b => .ok (b.length, c.sum b)

def describe (hashed : Source → FileRead) (seen : List Str) : List Source → Except Err (List File)
  | [] => .ok []
  | s :: srcs => do
    checkPath s.path
    check (!seen.contains s.path) (.twice s.path)
    let h ← hashFile c (hashed s) s.file
    let files ← describe hashed (s.path :: seen) srcs
    return ⟨s.path, h.1, h.2⟩ :: files

/-- `writeEntry`: tar takes no name with a NUL byte; `content` is `none` when a read fails. -/
def writeEntry (name : Str) (size : Nat) (content : Option Str) : Except Err Entry :=
  if name.contains 0 then .error (.header name)
  else
    match content with
    | none => .error (.write name)
    | some b => if h : b.length = size then .ok ⟨name, true, size, b, Nat.le_of_eq h⟩ else .error (.changed name)

/-- The file opened for `copyFile`, and its first bytes. -/
def FileRead.first (size : Nat) (file : Str) : FileRead → Except Err (Option Str)
  | .notOpened => .error (.openFile file)
  | .failed => .ok none
  | .whole b => .ok (some (b.take size))

def copyFile (copied : Source → FileRead) (s : Source) (f : File) : Except Err Entry := do
  let content ← (copied s).first f.size.toNat s.file
  let e ← writeEntry s.path f.size.toNat content
  check (c.sum e.data == f.sha256) (.changed s.file)
  return e

def copyFiles (copied : Source → FileRead) : List Source → List File → Except Err (List Entry)
  | s :: srcs, f :: files => do
    let e ← copyFile c copied s f
    let es ← copyFiles copied srcs files
    return e :: es
  | _, _ => .ok []

/-- `Write`: the manifest, and what a tar reader finds in the archive. -/
def write (reads : Reads) (m : Manifest) (srcs : List Source) : Except Err (Manifest × Stream) := do
  let files ← describe c reads.hashed [] srcs
  let m := { m with format := format, files := files }
  let mj ← found (c.marshal m) .manifest
  let first ← writeEntry manifestName mj.length (some mj)
  let entries ← copyFiles c reads.copied srcs files
  return (m, ⟨true, first :: entries, .eof 0 true⟩)

/-! ## Extract -/

def wanted (want : GoMap Str File) : List File → Except Err (GoMap Str File)
  | [] => .ok want
  | f :: files => do
    checkPath f.path
    check ((want.lookup f.path).isNone && decide (0 ≤ f.size)) (.invalid (.manifestEntry f.path))
    wanted (want.insert f.path f) files

def extractFile (t : FileTree) (dir : Str) (e : Entry) (f : File) : Except Err FileTree := do
  let dst := join dir f.path
  let t ← (FileTree.mkdirAll t dst.rooted dst.names.tail).mapError .create
  let data := e.data.take (f.size.toNat + 1)
  let t ← (FileTree.createExcl t dst data).mapError .create
  check (e.data.length == e.size) (.write f.path)
  check (decide ((data.length : Int) = f.size) && c.sum data == f.sha256) (.invalid (.checksum f.path))
  return t

/-- The loop over the entries after the manifest: the names got, and the tree. -/
def extractFiles (dir : Str) (want : GoMap Str File) (got : List Str) (t : FileTree) :
    List Entry → Except Err (List Str × FileTree)
  | [] => .ok (got, t)
  | e :: es =>
    match want.lookup e.name with
    | none => .error (.invalid (.unexpected e.name))
    | some f => do
      check (!got.contains e.name) (.invalid (.unexpected e.name))
      check (e.reg && decide ((e.size : Int) = f.size)) (.invalid (.mismatch e.name))
      let t ← extractFile c t dir e f
      extractFiles dir want (e.name :: got) t es

def readEnding : Ending → Except Err Unit
  | .eof rest sound =>
    if maxTarPadding < rest then .error (.invalid .trailing) else check sound (.invalid .gzip)
  | .broken => .error (.invalid .tar)

def extract (t : FileTree) (r : Stream) (dir : Str) : Except Err (Manifest × FileTree) := do
  check r.gzip (.invalid .notGzip)
  match r.entries with
  | [] => .error (.invalid .empty)
  | first :: rest =>
    check (first.name == manifestName && first.reg && decide (first.size ≤ maxManifestSize)) (.invalid .firstEntry)
    let m ← found (c.decode (first.data.take maxManifestSize)) (.invalid .manifest)
    check (m.format == format) (.invalid (.format m.format))
    let want ← wanted ∅ m.files
    check (dir != []) (.create .noEnt)
    let t ← (FileTree.mkdirAll t (resolve dir).rooted (resolve dir).names).mapError .create
    -- the next header is after the manifest's content
    check (first.data.length == first.size) (.invalid .tar)
    let x ← extractFiles c dir want [] t rest
    check (r.ending != .broken) (.invalid .tar)
    check (m.files.all fun f => x.1.contains f.path) (.invalid .missing)
    readEnding r.ending
    return (m, x.2)

end

end Thawr.Backup
