import Zim.Lib.Streams
import Zim.Lib.Stateful
import Zim.Reader.Cache

/-! `zim::streambuf` (fstream.h, fstream.cpp): an archive in one file or in parts with the
suffixes `aa`, `ab` and so on, read through a cache of open files. -/
namespace Zim
open Cxx

inductive StreambufError where
  /-- `FileNotFound`. -/
  | fileNotFound
  /-- `"error " << errno << " opening file \"" << fname`. -/
  | opening (fname : Bytes)
  /-- `"error seeking to " << off`. -/
  | seeking (off : UInt64)
  /-- The loop over the files does not end. -/
  | noReturn
  deriving DecidableEq, Repr

/-- The content of a file, whose size is an `off64_t`. -/
abbrev Content := { bs : Bytes // bs.length < 2 ^ 63 }

/-- The operating system's open file descriptions, each with the name of its file and a
position, and the number of `read` calls made. -/
structure Os where
  fds : List (Bytes × ℕ)
  reads : ℕ

/-- `streambuf::FileInfo`. -/
structure FileInfo where
  fname : Bytes
  fsize : UInt64

/-- `streambuf::OpenfileInfo`. Its destructor closes the file, and no number is used again. -/
structure OpenfileInfo where
  fname : Bytes
  fd : ℕ

structure Streambuf where
  /-- The size of the buffer. -/
  bufsize : UInt32
  files : List FileInfo
  openFilesCache : Cache Bytes OpenfileInfo
  currentFile : OpenfileInfo
  currentPos : UInt64
  /-- The characters from `gptr()` to `egptr()`. -/
  avail : Bytes
  os : Os

namespace Streambuf
-- `fs` is the file system and `chosen k` the length that the `k`-th `read` would return
variable (fs : Bytes → Option Content) (chosen : ℕ → ℕ)

abbrev M := EStateM StreambufError Streambuf

def fileBytes (fname : Bytes) : Bytes := ((fs fname).map Subtype.val).getD []

/-- `new OpenfileInfo(fname)`. -/
def newOpenfileInfo (fname : Bytes) : M OpenfileInfo := do
  if (fs fname).isNone then throw .fileNotFound
  let sb ← get
  set { sb with os := { sb.os with fds := sb.os.fds ++ [(fname, 0)] } }
  return ⟨fname, sb.os.fds.length⟩

/-- `::lseek64(fd, off, SEEK_SET)`. -/
def lseek (fd : ℕ) (off : ℕ) : M Unit :=
  modify fun sb => { sb with os := { sb.os with fds := sb.os.fds.modify fd fun p => (p.1, off) } }

/-- `::read(fd, buf, size)`: at least one byte while there is one, and at most 0x7ffff000. -/
def readFd (fd : ℕ) (size : ℕ) : M Bytes := do
  let sb ← get
  match sb.os.fds[fd]? with
  | none => return []
  | some (fname, pos) =>
    let count := max 1 (min (chosen sb.os.reads) (min size 0x7ffff000))
    let bs := if size = 0 then [] else ((fileBytes fs fname).drop pos).take count
    set { sb with os := ⟨sb.os.fds.modify fd fun p => (p.1, pos + bs.length), sb.os.reads + 1⟩ }
    return bs

def setCurrentFile (fname : Bytes) (off : UInt64) : M Unit := do
  let found ← modifyGet fun sb =>
    let (found, cache) := sb.openFilesCache.getx fname
    (found, { sb with openFilesCache := cache })
  match found with
  | some info => modify fun sb => { sb with currentFile := info }
  | none =>
    let info ← newOpenfileInfo fs fname
    modify fun sb => { sb with
      currentFile := info
      openFilesCache := sb.openFilesCache.put fname info }
  if found.isSome ∨ off ≠ 0 then
    let sb ← get
    lseek sb.currentFile.fd off.toNat

/-- The file behind the first one with the given name. -/
def nextFile (fname : Bytes) : List FileInfo → Option FileInfo
  | [] => none
  | file :: files => if file.fname = fname then files.head? else nextFile fname files

/-- `do { .. } while (n == 0)` of `underflow`: false is returned at the end of the last file. -/
def underflowLoop : ℕ → M Bool
  | 0 => throw .noReturn
  | turns + 1 => do
    let sb ← get
    let bs ← readFd fs chosen sb.currentFile.fd sb.bufsize.toNat
    if bs.length = 0 then
      let sb ← get
      match nextFile sb.currentFile.fname sb.files with
      | none => return false
      | some file =>
        setCurrentFile fs file.fname 0
        underflowLoop turns
    else
      modify fun sb => { sb with avail := bs }
      return true

def underflow : M Bool := do
  let sb ← get
  underflowLoop fs chosen (sb.files.length + 1)

/-- `sbumpc()` of the standard library. -/
def sbumpc : M (Option UInt8) := do
  let sb ← get
  match sb.avail with
  | ch :: rest =>
    set { sb with avail := rest }
    return some ch
  | [] =>
    if ← underflow fs chosen then
      let sb ← get
      match sb.avail with
      | ch :: rest =>
        set { sb with avail := rest }
        return some ch
      | [] => return none
    else return none

/-- `sgetn(s, n)` of the standard library, which acts like repeated calls of `sbumpc()`. -/
def sgetn : ℕ → M Bytes
  | 0 => return []
  | n + 1 => do
    match ← sbumpc fs chosen with
    | none => return []
    | some ch =>
      let bs ← sgetn n
      return ch :: bs

/-- The loop of `seekg` that finds the file of an offset. -/
def seekFile : List FileInfo → UInt64 → Option (FileInfo × UInt64)
  | [], _ => none
  | file :: files, o => if file.fsize < o then seekFile files (o - file.fsize) else some (file, o)

def seekg (off : UInt64) : M Unit := do
  modify fun sb => { sb with avail := [], currentPos := off }
  let sb ← get
  match seekFile sb.files off with
  | none => throw (.seeking off)
  | some (file, o) => setCurrentFile fs file.fname o

end Streambuf

section Constructor
variable (fs : Bytes → Option Content)

/-- What the constructor has opened so far. -/
structure Opened where
  files : List FileInfo
  openFilesCache : Cache Bytes OpenfileInfo
  currentFile : Option OpenfileInfo
  os : Os

/-- `new OpenfileInfo(fname)`, `new FileInfo(fname, fd)`, which leaves the file at its end, and
`openFilesCache.put(fname, currentFile)`. -/
def Opened.openPart (s : Opened) (fname : Bytes) : Option Opened :=
  (fs fname).map fun content =>
    let info : OpenfileInfo := ⟨fname, s.os.fds.length⟩
    { files := s.files ++ [⟨fname, UInt64.ofNat content.val.length⟩]
      openFilesCache := s.openFilesCache.put fname info
      currentFile := some info
      os := { s.os with fds := s.os.fds ++ [(fname, content.val.length)] } }

/-- The two loops over `ch0` and `ch1`, which the first missing file ends. -/
def Opened.openParts : Opened → List Bytes → Opened
  | s, [] => s
  | s, fname :: fnames =>
    match s.openPart fs fname with
    | none => s
    | some s => s.openParts fnames

/-- The letters from `'a'` to `'z'`. -/
def letters : List UInt8 := (List.range 26).map fun n => UInt8.ofNat (97 + n)

/-- `fname + ch0 + ch1`. -/
def partNames (fname : Bytes) : List Bytes :=
  (letters.product letters).map fun ch => fname ++ [ch.1, ch.2]

/-- The `try` block of the constructor and its handler. -/
def Opened.openFiles (fname : Bytes) (noOpenFiles : UInt32) : Opened :=
  let s : Opened := ⟨[], .new noOpenFiles.toNat, none, ⟨[], 0⟩⟩
  match s.openPart fs fname with
  | some s => s
  | none => s.openParts fs (partNames fname)

/-- `streambuf::streambuf`. -/
def Streambuf.new (fname : Bytes) (bufsize : UInt32) (noOpenFiles : UInt32) :
    Except StreambufError Streambuf :=
  let s := Opened.openFiles fs fname noOpenFiles
  match s.currentFile, s.files with
  | some currentFile, file :: files =>
    let sb : Streambuf := ⟨bufsize, file :: files, s.openFilesCache, currentFile, 0, [], s.os⟩
    match Streambuf.setCurrentFile fs file.fname 0 sb with
    | .ok _ sb => .ok sb
    | .error err _ => .error err
  | _, _ => .error (.opening fname)

end Constructor
end Zim
