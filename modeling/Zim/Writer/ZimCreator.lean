import Zim.Lib.StdSort
import Zim.Format.Fileheader
import Zim.Format.Dirent
import Zim.Format.Cluster

/-! `zim::writer::ZimCreator` (zimcreator.h, zimcreator.cpp, writer/dirent.h, articlesource.h). -/
namespace Zim.Writer
open Cxx

/-- What an article of the source answers to its getters. -/
structure ArticleSource.Article where
  aid : Bytes
  ns : UInt8
  url : Bytes
  title : Bytes
  redirect : Bool
  mimeType : Bytes
  compress : Bool
  redirectAid : Bytes
  parameter : Bytes

structure ArticleSource where
  /-- The articles in the order of `getNextArticle`. -/
  articles : List ArticleSource.Article
  getData : Bytes → Blob
  uuid : Uuid
  mainPage : Bytes
  layoutPage : Bytes

/-- `zim::writer::Dirent`. -/
structure Dirent extends Zim.Dirent where
  aid : Bytes
  redirectAid : Bytes
  idx : UInt32
  compress : Bool
  deriving DecidableEq

namespace Dirent

/-- `Dirent()` and `Dirent(aid)`. -/
def new (aid : Bytes) : Dirent :=
  { Zim.Dirent.new with aid, redirectAid := [], idx := 0, compress := false }

def setCluster (d : Dirent) (clusterNumber blobNumber : UInt32) : Dirent :=
  { d with toDirent := d.toDirent.setCluster clusterNumber blobNumber }

def setRedirect (d : Dirent) (idx : UInt32) : Dirent :=
  { d with toDirent := d.toDirent.setRedirect idx }

def setIdx (d : Dirent) (idx : UInt32) : Dirent := { d with idx }

end Dirent

def compareUrl (d1 d2 : Dirent) : Bool :=
  charValue d1.getNamespace < charValue d2.getNamespace ||
    d1.getNamespace = d2.getNamespace && d1.getUrl < d2.getUrl

def compareAid (d1 d2 : Dirent) : Bool := d1.aid < d2.aid

structure ZimCreator where
  minChunkSize : UInt32
  header : Fileheader
  dirents : List Dirent
  titleIdx : List UInt32
  clusterOffsets : List UInt64
  /-- The mime types in the order of their numbers, which count from 0. -/
  mimeTypes : List Bytes
  compression : CompressionType
  isEmpty : Bool
  clustersSize : UInt64

namespace ZimCreator

def new (minChunkSize : UInt32) (compression : CompressionType) : ZimCreator :=
  ⟨minChunkSize, .default, [], [], [], [], compression, true, 0⟩

section Dirents

def getMimeTypeIdx (zc : ZimCreator) (mimeType : Bytes) : Except ZimError (UInt16 × ZimCreator) :=
  let i := zc.mimeTypes.idxOf mimeType
  if i = zc.mimeTypes.length then
    if 0xffff ≤ UInt16.ofNat zc.mimeTypes.length then
      .error (.runtime "too many distinct mime types")
    else .ok (UInt16.ofNat i, { zc with mimeTypes := zc.mimeTypes ++ [mimeType] })
  else .ok (UInt16.ofNat i, zc)

/-- A turn of the loop over the articles. -/
def addArticle (zc : ZimCreator) (article : ArticleSource.Article) :
    Except ZimError ZimCreator := do
  let d := Zim.Dirent.new.setUrl article.ns article.url
  let d := (d.setTitle article.title).setParameter article.parameter
  let dirent := { Dirent.new article.aid with toDirent := d }
  if article.redirect then
    let dirent := { dirent.setRedirect 0 with redirectAid := article.redirectAid }
    return { zc with dirents := zc.dirents ++ [dirent] }
  else
    let (mimeType, zc) ← zc.getMimeTypeIdx article.mimeType
    let dirent := { dirent with
      toDirent := d.setArticle mimeType 0 0
      compress := article.compress }
    return { zc with dirents := zc.dirents ++ [dirent] }

/-- The loop over `di` that erases redirects to unknown articles, `done` being the entries
before `di`. -/
def removeInvalidRedirects (done : List Dirent) : List Dirent → List Dirent
  | [] => done
  | di :: rest =>
    if di.isRedirect &&
        !binarySearch (done ++ di :: rest) (Dirent.new di.redirectAid) compareAid then
      removeInvalidRedirects done rest
    else removeInvalidRedirects (done ++ [di]) rest

def setIndex (dirents : List Dirent) : List Dirent :=
  dirents.mapIdx fun idx di => di.setIdx (UInt32.ofNat idx)

/-- The redirect of `di` from an aid to an index. -/
def translateRedirect (dirents : List Dirent) (di : Dirent) : Except ZimError Dirent :=
  if di.isRedirect then
    match dirents[lowerBound dirents (Dirent.new di.redirectAid) compareAid]? with
    | some ddi =>
      if ddi.aid = di.redirectAid then .ok (di.setRedirect ddi.idx)
      else .error (.redirectAid di.redirectAid)
    | none => .error (.redirectAid di.redirectAid)
  else .ok di

variable (std : StdSort)

def createDirents (zc : ZimCreator) (src : ArticleSource) : Except ZimError ZimCreator := do
  let zc ← src.articles.foldlM addArticle zc
  let dirents := removeInvalidRedirects [] (std.sort compareAid zc.dirents)
  let dirents := setIndex (std.sort compareUrl dirents)
  let dirents := std.sort compareAid dirents
  let dirents ← dirents.mapM (translateRedirect dirents)
  return { zc with dirents := std.sort compareUrl dirents }

/-- `CompareTitle::operator()`. -/
def compareTitle (dirents : List Dirent) (titleIdx1 titleIdx2 : UInt32) : Bool :=
  let d1 := dirents.getD titleIdx1.toNat (.new [])
  let d2 := dirents.getD titleIdx2.toNat (.new [])
  charValue d1.getNamespace < charValue d2.getNamespace ||
    d1.getNamespace = d2.getNamespace && d1.getTitle < d2.getTitle

def createTitleIndex (zc : ZimCreator) : ZimCreator :=
  { zc with
    titleIdx := std.sort (compareTitle zc.dirents) (zc.dirents.map fun di => di.idx) }

end Dirents

section Clusters
variable (build : Build) (getData : Bytes → Blob)

/-- The variables of `createClusters`, and the members that it changes. The entries are the ones
before the iterator. -/
structure Clusters where
  dirents : List Dirent
  clusterOffsets : List UInt64
  isEmpty : Bool
  cluster : Cluster
  out : OStream

/-- `clusterOffsets.push_back(out.tellp())` and `out << c`. A compressed cluster goes through a
stream of its own, whose failures are exceptions. -/
def writeCluster (s : Clusters) (c : Cluster) : Except ZimError Clusters := do
  let clusterOffsets := s.clusterOffsets ++ [s.out.tellp]
  let bs ← c.getImpl.put build
  let out := s.out.write bs
  if c.isCompressed && out.fail then .error .failure
  else .ok { s with clusterOffsets, out }

def addCompressed (zc : ZimCreator) (s : Clusters) (di : Dirent) (blob : Blob) :
    Except ZimError Clusters := do
  let di := di.setCluster (UInt32.ofNat s.clusterOffsets.length) s.cluster.count
  let s := { s with dirents := s.dirents ++ [di], cluster := s.cluster.addBlob blob }
  if zc.minChunkSize * 1024 ≤ s.cluster.size then
    let s ← writeCluster build s s.cluster
    return { s with cluster := s.cluster.clear.setCompression zc.compression }
  else return s

/-- The open cluster is written if there is something in it. -/
def closeCluster (zc : ZimCreator) (s : Clusters) : Except ZimError Clusters :=
  if 0 < s.cluster.count then writeCluster build s (s.cluster.setCompression zc.compression)
  else .ok s

def addUncompressed (zc : ZimCreator) (s : Clusters) (di : Dirent) (blob : Blob) :
    Except ZimError Clusters := do
  let closed ← closeCluster build zc s
  let s := if 0 < s.cluster.count then
      { closed with cluster := closed.cluster.clear.setCompression zc.compression }
    else closed
  let di := di.setCluster (UInt32.ofNat s.clusterOffsets.length) s.cluster.count
  let s := { s with dirents := s.dirents ++ [di] }
  writeCluster build s ((Cluster.new.addBlob blob).setCompression .zimcompNone)

/-- The body of the loop over the entries. -/
def addDirent (zc : ZimCreator) (s : Clusters) (di : Dirent) : Except ZimError Clusters :=
  if di.isRedirect then .ok { s with dirents := s.dirents ++ [di] }
  else
    let blob := getData di.aid
    let s := if 0 < blob.val.length then { s with isEmpty := false } else s
    if di.compress then addCompressed build zc s di blob else addUncompressed build zc s di blob

def addDirents (zc : ZimCreator) (s : Clusters) : List Dirent → Except ZimError Clusters
  | [] => .ok s
  | di :: ds =>
    if s.out.fail then .ok { s with dirents := s.dirents ++ di :: ds }
    else do addDirents zc (← addDirent build getData zc s di) ds

/-- `createClusters`, with the content of the temporary file. -/
def createClusters (zc : ZimCreator) : Except ZimError (ZimCreator × Bytes) := do
  let cluster := Cluster.new.setCompression zc.compression
  let s : Clusters := ⟨[], zc.clusterOffsets, zc.isEmpty, cluster, .empty⟩
  let s ← addDirents build getData zc s zc.dirents
  let s ← closeCluster build zc s
  if s.out.fail then .error (.runtime "failed to write temporary cluster file")
  else .ok ({ zc with
    dirents := s.dirents
    clusterOffsets := s.clusterOffsets
    isEmpty := s.isEmpty
    clustersSize := s.out.tellp }, s.out.bytes)

end Clusters

section Positions
variable (zc : ZimCreator)

def clusterCount : UInt32 := UInt32.ofNat zc.clusterOffsets.length
def articleCount : UInt32 := UInt32.ofNat zc.dirents.length
def mimeListSize : UInt64 :=
  zc.mimeTypes.foldl (fun ret mimeType => ret + (UInt64.ofNat mimeType.length + 1)) 1
def mimeListPos : UInt64 := UInt64.ofNat Fileheader.size
def urlPtrSize : UInt64 := zc.articleCount.toUInt64 * 8
def urlPtrPos : UInt64 := mimeListPos + zc.mimeListSize
def titleIdxSize : UInt64 := zc.articleCount.toUInt64 * 4
def titleIdxPos : UInt64 := zc.urlPtrPos + zc.urlPtrSize
def indexSize : UInt64 := zc.dirents.foldl (fun s di => s + di.getDirentSize.toUInt64) 0
def indexPos : UInt64 := zc.titleIdxPos + zc.titleIdxSize
def clusterPtrSize : UInt64 := zc.clusterCount.toUInt64 * 8
def clusterPtrPos : UInt64 := zc.indexPos + zc.indexSize
def checksumPos : UInt64 := zc.clusterPtrPos + zc.clusterPtrSize + zc.clustersSize

end Positions

/-- The turn of the loop in `fillHeader` for one entry. -/
def setPages (src : ArticleSource) (header : Fileheader) (di : Dirent) : Fileheader :=
  let header := if src.mainPage = di.aid then { header with mainPage := di.idx } else header
  if src.layoutPage = di.aid then { header with layoutPage := di.idx } else header

def fillHeader (zc : ZimCreator) (src : ArticleSource) : ZimCreator :=
  let header := { zc.header with mainPage := 0xffffffff, layoutPage := 0xffffffff }
  let header := if src.mainPage ≠ [] ∨ src.layoutPage ≠ [] then
      zc.dirents.foldl (setPages src) header
    else header
  { zc with
    header := { header with
      uuid := src.uuid
      articleCount := UInt32.ofNat zc.dirents.length
      urlPtrPos := zc.urlPtrPos
      mimeListPos := mimeListPos
      titleIdxPos := zc.titleIdxPos
      clusterCount := UInt32.ofNat zc.clusterOffsets.length
      clusterPtrPos := zc.clusterPtrPos
      checksumPos := zc.checksumPos } }

section Write
variable (build : Build) (md5 : Bytes → { bs : Bytes // bs.length = 16 })

/-- The loop that writes the url pointers, with the offset behind the last entry. -/
def writeUrlPtrs (out : OStream) (off : UInt64) : List Dirent → OStream × UInt64
  | [] => (out, off)
  | di :: ds => writeUrlPtrs (out.write (offsetTypeBytes build.host off))
      (off + di.getDirentSize.toUInt64) ds

/-- `out << blobsfile.rdbuf()`, which fails where there is nothing to insert. -/
def insertFile (out : OStream) (content : Bytes) : OStream :=
  if content = [] then { out with fail := true } else out.write content

/-- `write`: the content of the archive. -/
def write (zc : ZimCreator) (tmpfile : Bytes) : Except ZimError Bytes :=
  let out := OStream.empty.write (zc.header.write build.host)
  let out := zc.mimeTypes.foldl (fun out mimeType => (out.write mimeType).write [0]) out
  let out := out.write [0]
  let (out, off) := writeUrlPtrs build out zc.indexPos zc.dirents
  let out := zc.titleIdx.foldl (fun out v => out.write (sizeTypeBytes build.host v)) out
  let out := zc.dirents.foldl (fun out di => out.write (di.toDirent.write build.host)) out
  let off := off + UInt64.ofNat zc.clusterOffsets.length * 8
  let out := zc.clusterOffsets.foldl
    (fun out o => out.write (offsetTypeBytes build.host (off + o))) out
  let out := if zc.isEmpty then out else insertFile out tmpfile
  if out.fail then .error (.runtime "failed to write zimfile")
  -- the digest goes to the file itself, where nothing tests for a failure
  else .ok (out.bytes ++ (md5 out.bytes).val)

end Write

/-- `create` of a new `ZimCreator` as far as `write`, with the content of the temporary file. -/
def prepare (std : StdSort) (build : Build) (minChunkSize : UInt32) (compression : CompressionType)
    (src : ArticleSource) : Except ZimError (ZimCreator × Bytes) := do
  let zc ← (new minChunkSize compression).createDirents std src
  let zc := zc.createTitleIndex std
  let (zc, tmpfile) ← zc.createClusters build src.getData
  return (zc.fillHeader src, tmpfile)

/-- `create` of a new `ZimCreator`: the content of the archive. -/
def create (std : StdSort) (build : Build) (md5 : Bytes → { bs : Bytes // bs.length = 16 })
    (minChunkSize : UInt32) (compression : CompressionType) (src : ArticleSource) :
    Except ZimError Bytes := do
  let (zc, tmpfile) ← prepare std build minChunkSize compression src
  zc.write build md5 tmpfile

end ZimCreator
end Zim.Writer
