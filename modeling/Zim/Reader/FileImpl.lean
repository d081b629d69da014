import Zim.Lib.Stateful
import Zim.Format.Fileheader
import Zim.Format.Dirent
import Zim.Format.Cluster
import Zim.Reader.Cache

/-! `zim::FileImpl` (fileimpl.h, fileimpl.cpp). -/
namespace Zim
open Cxx

/-- `zim::ifstream` on the bytes of an archive. What a read delivers depends neither on the size
of the buffer nor on the parts of the archive, as `Streambuf.reads_archive` states. -/
structure Ifstream extends IStream where
  archive : Bytes
  bufsize : UInt32

structure FileImpl where
  zimFile : Ifstream
  header : Fileheader
  direntCache : Cache UInt32 Dirent
  clusterCache : Cache UInt32 Cluster
  namespaceBeginCache : UInt8 → Option UInt32
  namespaceEndCache : UInt8 → Option UInt32
  namespaces : Bytes
  mimeTypes : List Bytes

namespace FileImpl

abbrev M := EStateM ZimError FileImpl

section Stream

def setBufsize (s : UInt32) : M Unit :=
  modify fun f => { f with zimFile := { f.zimFile with bufsize := s } }

def setStream (s : IStream) : M Unit :=
  modify fun f => { f with zimFile := { f.zimFile with toIStream := s } }

/-- `zimFile.seekg(off)`, which does not change the failure flag. -/
def seekg (off : UInt64) : M Unit := do
  let zimFile := (← get).zimFile
  if off.toNat ≤ zimFile.archive.length then
    setStream ⟨zimFile.archive.drop off.toNat, zimFile.fail⟩
  else
    setStream ⟨[], zimFile.fail⟩
    throw (.seeking off)

/-- An extraction from `zimFile`. -/
def extract {α : Type} (step : IStream → α × IStream) : M α := do
  let (a, s) := step (← get).zimFile.toIStream
  setStream s
  return a

/-- `!zimFile`. -/
def failed : M Bool := return (← get).zimFile.fail

def fsize (f : FileImpl) : UInt64 := UInt64.ofNat f.zimFile.archive.length

end Stream

def getCountArticles (f : FileImpl) : UInt32 := f.header.articleCount
def getCountClusters (f : FileImpl) : UInt32 := f.header.clusterCount

variable (build : Build)

def getOffset (ptrOffset : UInt64) (idx : UInt32) : M UInt64 := do
  seekg (ptrOffset + 8 * idx.toUInt64)
  let offset ← extract fun s => s.read 8
  if ← failed then throw (.format "error reading offset")
  return UInt64.ofNat (fromLittleEndian build.host offset)

def getClusterOffset (idx : UInt32) : M UInt64 := do
  getOffset build (← get).header.clusterPtrPos idx

section Constructor

/-- `std::getline(in, str, '\0')`. A last line without delimiter leaves the stream at its end,
where the next call fails. -/
def getline (s : IStream) : Bytes × IStream :=
  if s.fail then ([], s)
  else if s.rest = [] then ([], s.setFail)
  else (s.rest.takeWhile (· ≠ 0), ⟨(s.rest.dropWhile (· ≠ 0)).tail, false⟩)

/-- The loop that reads the mime types. -/
def readMimeTypes : ℕ → M Unit
  | 0 => throw (.format "error reading mime type list")
  | turns + 1 => do
    let mimeType ← extract getline
    if ← failed then throw (.format "error reading mime type list")
    if mimeType ≠ [] then
      modify fun f => { f with mimeTypes := f.mimeTypes ++ [mimeType] }
      readMimeTypes turns

def readHeader : M Unit := do
  match ← extract (Fileheader.read build.host) with
  | none => throw (.format "error reading zim-file header")
  | some header => modify fun f => { f with header }

def checkLastOffset : M Unit := do
  let count := (← get).getCountClusters
  if count ≠ 0 then
    let lastOffset ← getClusterOffset build (count - 1)
    if (← get).fsize < lastOffset then
      throw (.format "last cluster offset larger than file size; file corrupt")

/-- The body of the constructor. Every line but the last one takes a character, which bounds the
turns of the loop over the mime types. -/
def construct : M Unit := do
  readHeader build
  checkLastOffset build
  seekg (← get).header.mimeListPos
  readMimeTypes ((← get).zimFile.rest.length + 1)

/-- The object before the body of the constructor runs, with the sizes of the two caches. -/
def initial (archive : Bytes) (direntCache clusterCache : ℕ) : FileImpl :=
  { zimFile := { rest := archive, fail := false, archive, bufsize := 8192 }
    header := .default
    direntCache := .new direntCache
    clusterCache := .new clusterCache
    namespaceBeginCache := fun _ => none
    namespaceEndCache := fun _ => none
    namespaces := []
    mimeTypes := [] }

/-- `FileImpl(fname)` for a file that could be opened. -/
def new (archive : Bytes) (direntCache clusterCache : ℕ) : Except ZimError FileImpl :=
  match construct build (initial archive direntCache clusterCache) with
  | .ok _ f => .ok f
  | .error e _ => .error e

end Constructor

section Entries

/-- The part of `getDirent` behind the cache. -/
def readDirent (idx : UInt32) : M Dirent := do
  let indexOffset ← getOffset build (← get).header.urlPtrPos idx
  seekg indexOffset
  if ← failed then throw (.format "failed to seek to directory entry")
  let dirent ← extract (Dirent.read build.host .new)
  if ← failed then throw (.format "failed to read directory entry")
  modify fun f => { f with direntCache := f.direntCache.put idx dirent }
  return dirent

def getDirent (idx : UInt32) : M Dirent := do
  setBufsize 64
  if (← get).getCountArticles ≤ idx then throw (.format "article index out of range")
  if ← failed then throw (.format "file in error state")
  let v ← modifyGet fun f =>
    let (v, cache) := f.direntCache.getx idx
    (v, { f with direntCache := cache })
  match v with
  | some dirent => return dirent
  | none => readDirent build idx

def getIndexByTitle (idx : UInt32) : M UInt32 := do
  if (← get).getCountArticles ≤ idx then throw (.format "article index out of range")
  seekg ((← get).header.titleIdxPos + 4 * idx.toUInt64)
  let ret ← extract fun s => s.read 4
  if ← failed then throw (.format "error reading title index")
  return UInt32.ofNat (fromLittleEndian build.host ret)

def getDirentByTitle (idx : UInt32) : M Dirent := do
  if (← get).getCountArticles ≤ idx then throw (.format "article index out of range")
  getDirent build (← getIndexByTitle build idx)

/-- `zimFile >> cluster` for a new cluster. Every read seeks first, so that it does not matter
where this one ends. -/
def extractCluster : M Cluster := do
  let s := (← get).zimFile.toIStream
  match ClusterImpl.get build s with
  | .error e => throw e
  | .ok (impl, fail) =>
    setStream { s with fail }
    return ⟨some impl⟩

/-- The part of `getCluster` behind the cache. -/
def readCluster (idx : UInt32) : M Cluster := do
  setBufsize 16384
  let clusterOffset ← getClusterOffset build idx
  seekg clusterOffset
  let cluster ← extractCluster build
  if ← failed then throw (.format "error reading cluster data")
  if cluster.isCompressed then
    modify fun f => { f with clusterCache := f.clusterCache.put idx cluster }
  return cluster

def getCluster (idx : UInt32) : M Cluster := do
  if (← get).getCountClusters ≤ idx then throw (.format "cluster index out of range")
  let v ← modifyGet fun f =>
    let (v, cache) := f.clusterCache.getx idx
    (v, { f with clusterCache := cache })
  match v with
  | some cluster => return cluster
  | none => readCluster build idx

/-- The text thrown for an index without a mime type. The index behind the last one is let
through, and the read behind the vector has no value here. -/
def getMimeType (idx : UInt16) : M (Option Bytes) := do
  let mimeTypes := (← get).mimeTypes
  if mimeTypes.length < idx.toNat then throw (.mimeType idx)
  return mimeTypes[idx.toNat]?

end Entries

section Checksum

/-- `"0123456789abcdef"[n]`. -/
def hex (n : UInt8) : UInt8 := if n < 10 then 0x30 + n else 0x57 + n

def hexdigest (chksum : Bytes) : Bytes :=
  chksum.flatMap fun (b : UInt8) => [hex (b >>> 4), hex (b &&& 0xf)]

def getChecksum : M Bytes := do
  let header := (← get).header
  if !header.hasChecksum then return []
  seekg header.getChecksumPos
  let chksum ← extract fun s => s.read 16
  if ← failed then return []
  return hexdigest chksum

def verify (md5 : Bytes → { bs : Bytes // bs.length = 16 }) : M Bool := do
  let header := (← get).header
  if !header.hasChecksum then return false
  seekg 0
  let content ← extract (IStream.getUpTo header.getChecksumPos.toNat)
  let chksumFile ← extract fun s => s.read 16
  if ← failed then throw (.format "failed to read checksum from zim file")
  if chksumFile ≠ (md5 content).val then throw (.format "invalid checksum in zim file")
  return true

end Checksum
end FileImpl
end Zim
