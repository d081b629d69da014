import Zim.Lib.OrderedMap
import Zim.Reader.FullSearch
import Zim.Reader.Rendering
import Zim.Writer.MstreamSpace
import Zim.Writer.SearchSource
import Zim.Writer.ZimCreator
import Zim.Writer.Zimindexer

/-! `zim::writer::Indexer` (indexersource.h, indexersource.cpp), the article source of zimindexer:
every word of an archive is an article, whose data is where the word occurs. -/
namespace Zim.Mstream
open Cxx

/-- `MStream` with the `std::map` of its streams, which an iterator goes through by their names. -/
structure StreamMap where
  streams : List (Bytes × Stream)
  pagefile : Pagefile

namespace StreamMap

def empty : StreamMap := ⟨[], .empty⟩

/-- The map without the order of its names. -/
def mstream (m : StreamMap) : MStream := ⟨fun name => OrderedMap.find name m.streams, m.pagefile⟩

def names (m : StreamMap) : List Bytes := OrderedMap.keys m.streams

/-- `begin()`; an iterator is the name of its stream, and none is `end()`. -/
def begin (m : StreamMap) : Option Bytes := m.names.head?

/-- `++it`. -/
def next (m : StreamMap) (name : Bytes) : Option Bytes := OrderedMap.next name m.streams

section Write
variable (o : ByteOrder) (uninit : Page)

/-- `MStream::write`. -/
def write (m : StreamMap) (streamname bs : Bytes) : Except MstreamError StreamMap := do
  let s := (OrderedMap.find streamname m.streams).getD (.new minBuffersize)
  let (s, f) ← s.write o maxBuffersize uninit m.pagefile bs
  .ok ⟨OrderedMap.put streamname s m.streams, f⟩

/-- The calls of `ostream.write` that `Zimindexer` makes. -/
def writeAll (m : StreamMap) : List Writer.WordWrite → Except MstreamError StreamMap
  | [] => .ok m
  | (word, w) :: writes => do (← m.write o uninit word (w.bytes o)).writeAll writes

end Write
end StreamMap
end Zim.Mstream

namespace Zim.Writer
open Cxx Stateful Mstream

inductive IndexerError where
  | zim (e : ZimError)
  | mstream (e : MstreamError)
  /-- `"cannot open trivial words file "`. -/
  | trivialWordsFile
  /-- `"internal error: cannot find indexdata for word "`. -/
  | indexdata (aid : Bytes)
  /-- A mime type behind the list, a blob that its cluster does not have, or the loop in
  `fetchData` that does not end. -/
  | undefined

/-- `zim::writer::IndexArticle`. -/
structure IndexArticle where
  word : Bytes
  parameter : Bytes
  deriving DecidableEq

namespace IndexArticle

def mimeType : Bytes := Zim.Article.text "application/x-zim-index-data"

/-- `Article::shouldCompress`. -/
def shouldCompress (mimeType : Bytes) : Bool :=
  mimeType ≠ Zim.Article.text "image/jpeg" && mimeType ≠ Zim.Article.text "image/png" &&
    mimeType ≠ Zim.Article.text "image/tiff" && mimeType ≠ Zim.Article.text "image/gif" &&
    mimeType ≠ Zim.Article.text "application/zip"

/-- The answers to the getters. -/
def article (a : IndexArticle) : ArticleSource.Article where
  aid := a.word
  ns := Index.nsX
  url := a.word
  title := []
  redirect := false
  mimeType := mimeType
  compress := shouldCompress mimeType
  redirectAid := []
  parameter := a.parameter

end IndexArticle

structure Indexer where
  streams : StreamMap
  currentArticle : IndexArticle
  currentStream : Option Bytes
  currentZData : Bytes
  currentParameter : Bytes

namespace Indexer

section Source
variable (o : ByteOrder)

/-- `fetchData`. -/
def fetchData (x : Indexer) (aid : Bytes) : Except IndexerError Indexer :=
  match OrderedMap.find aid x.streams.streams with
  | none => .error (.indexdata aid)
  | some s =>
    match s.read o x.streams.pagefile with
    | .error e => .error (.mstream e)
    | .ok (data, f) =>
      match Index.fetchData o data with
      | none => .error .undefined
      | some (parameter, zdata) => .ok { x with
          streams := { x.streams with pagefile := f }
          currentZData := zdata
          currentParameter := parameter }

/-- The iterator that `getNextArticle` goes on to. -/
def nextStream (x : Indexer) : Option Bytes :=
  match x.currentStream with
  | none => x.streams.begin
  | some word => x.streams.next word

/-- `getNextArticle`, without the messages about its progress. -/
def getNextArticle (x : Indexer) : Except IndexerError (Option ArticleSource.Article × Indexer) :=
  match x.nextStream with
  | none => .ok (none, { x with currentStream := none })
  | some word => do
    let x ← fetchData o { x with currentStream := some word } word
    let x := { x with currentArticle := ⟨word, x.currentParameter⟩ }
    .ok (some x.currentArticle.article, x)

/-- The 32 bits of the size of a blob. -/
theorem dataBlob_lt (zdata : Bytes) : (Index.dataBlob zdata).length < 2 ^ 32 := by
  rw [Index.dataBlob, List.length_take]
  exact (Nat.min_le_left _ _).trans_lt (Nat.mod_lt _ (by decide))

def getData (x : Indexer) (aid : Bytes) : Except IndexerError (Blob × Indexer) := do
  let x ← x.fetchData o aid
  .ok (⟨Index.dataBlob x.currentZData, dataBlob_lt _⟩, x)

end Source

section CreateIndex
variable (build : Build)

def onFile {α : Type} (x : FileImpl.M α) : EStateM IndexerError FileImpl α :=
  within id (fun _ f => f) .zim x

/-- The part of the loop in `createIndex` before `process`: its arguments, and none behind a
`continue`. -/
def articleToIndex (article : Zim.Article) : EStateM IndexerError FileImpl (Option Article) := do
  if ← onFile (article.isRedirect build) then return none
  match ← onFile (article.getMimeType build) with
  | none => throw .undefined
  | some mimeType =>
    if mimeType.take 9 ≠ Zim.Article.text "text/html" ∧
        mimeType.take 8 ≠ Zim.Article.text "text/xml" ∧
        mimeType ≠ Zim.Article.mimeHtmlTemplate then return none
    if article.getIndex = (← get).header.layoutPage then return none
    match ← onFile (article.getData build) with
    | none => throw .undefined
    | some data =>
      return some ⟨article.getIndex, ← onFile (article.getTitle build), data⟩

variable (zimIsalnum : UInt32 → Bool) (o : ByteOrder) (uninit : Page)

/-- `for (it = zimfile.begin(); it != zimfile.end(); ++it)`. A turn behind the last article ends
it. -/
def createIndexLoop : ℕ → ConstIterator → Zimindexer → StreamMap →
    EStateM IndexerError FileImpl StreamMap
  | 0, _, _, m => return m
  | turns + 1, it, zimindexer, m => do
    if ← onFile (do it.eq (← File.endIterator)) then return m
    let (article, it) ← onFile (it.deref build)
    match ← articleToIndex build article with
    | none => createIndexLoop turns it.next zimindexer m
    | some a =>
      let (zimindexer, writes) := zimindexer.process zimIsalnum a
      match m.writeAll o uninit writes with
      | .error e => throw (.mstream e)
      | .ok m => createIndexLoop turns it.next zimindexer m

/-- `while (tw >> word)`. There is no file where none is named, and no content where it cannot be
opened. -/
def trivialWords : Option (Option Bytes) → EStateM IndexerError FileImpl (List Bytes)
  | none => return []
  | some none => throw .trivialWordsFile
  | some (some content) => return Search.tokens content

/-- `createIndex` of a new object. -/
def createIndex (trivialWordsFile : Option (Option Bytes)) :
    EStateM IndexerError FileImpl Indexer := do
  let words ← trivialWords trivialWordsFile
  let turns := (← get).getCountArticles.toNat + 1
  let m ← createIndexLoop build zimIsalnum o uninit turns (.new 0 .urlIterator)
    (.new words) .empty
  return ⟨m, ⟨[], []⟩, none, [], []⟩

end CreateIndex
end Indexer
end Zim.Writer
