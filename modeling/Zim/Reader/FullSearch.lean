import Mathlib.Data.Int.Notation
import Zim.Lib.Erasure
import Zim.Lib.OrderedMap
import Zim.Index.BlobRange
import Zim.Reader.Search
import Zim.Writer.ArticleParser

/-! `Search::search` (search.h, search.cpp) up to its copy into the results, which are sorted by a
floating point priority, and the weights that it sums up. -/
namespace Zim
open Cxx Stateful Index

inductive SearchError where
  | file (e : ZimError)
  | index (e : IndexError)
  /-- A blob that its cluster does not have. -/
  | undefined

namespace IndexArticle
variable (build : Build)

/-- A getter of the article in an `IndexArticle`. -/
def onFile {α : Type} (x : FileImpl.M α) : EStateM SearchError FileImpl α :=
  within id (fun _ f => f) .file x

def getData (article : Article) : EStateM SearchError FileImpl Bytes := do
  match ← onFile (article.getData build) with
  | some data => return data
  | none => throw .undefined

/-- `getSizeValue(in)`, none being the exception `Eof`. -/
def getSizeValue (s : IStream) : Option UInt32 × IStream :=
  let (ret, s) := s.read 4
  if s.fail then (none, s) else (some (UInt32.ofNat (fromLittleEndian build.host ret)), s)

/-- The entries of one category up to `Eof`, and the stream where it did not come. -/
def readCategoryB (ns : UInt8) (stale : UInt32) : ℕ → IStream → List IndexEntry × Option IStream
  | 0, data => ([], some data)
  | n + 1, data =>
    match getSizeValue build data with
    | (none, _) => ([], none)
    | (some index, data) =>
      if ns = nsX then
        match getSizeValue build data with
        | (none, _) => ([], none)
        | (some pos, data) =>
          let (entries, data) := readCategoryB ns stale n data
          (⟨index, pos⟩ :: entries, data)
      else
        let (entries, data) := readCategoryB ns stale n data
        (⟨index, stale⟩ :: entries, data)

def readCategoriesB (ns : UInt8) (stale : UInt32) :
    List (Fin 4 × UInt32) → IStream → Categories → Categories
  | [], _, entries => entries
  | (c, count) :: counts, data, entries =>
    match readCategoryB build ns stale count.toNat data with
    | (es, none) => entries.append c es
    | (es, some data) => readCategoriesB ns stale counts data (entries.append c es)

/-- The four counts. -/
def readCounts : List (Fin 4) → IStream → Option (List (Fin 4 × UInt32) × IStream)
  | [], data => some ([], data)
  | c :: cs, data =>
    match getSizeValue build data with
    | (none, _) => none
    | (some count, data) =>
      match readCounts cs data with
      | none => none
      | some (counts, data) => some ((c, count) :: counts, data)

/-- `readEntriesB()`. In other namespaces than `'X'` a position is left as it happens to be, which
is `stale`. -/
def readEntriesB (ns : UInt8) (stale : UInt32) (blob : Bytes) : Categories :=
  match readCounts build categories (.ofBytes blob) with
  | none => fun _ => []
  | some (counts, data) => readCategoriesB build ns stale counts data fun _ => []

/-- `readEntries()`. Where a category is read at all, the source gets the same data for each. -/
def readEntries (noOffset : Bool) (stale : UInt32) (article : Article) :
    EStateM SearchError FileImpl Categories := do
  if !article.good then return fun _ => []
  let parameter ← onFile (article.getParameter build)
  let ns ← onFile (article.getNamespace build)
  if parameter = [] then return readEntriesB build ns stale (← getData build article)
  else
    let blob ← if storedLengths ns parameter = [] then pure [] else getData build article
    match readEntriesZ ns noOffset parameter blob with
    | .ok entries => return entries
    | .error e => throw (.index e)

def getTotalCount (entries : Categories) : UInt32 :=
  categories.foldl (fun c cat => c + UInt32.ofNat (entries cat).length) 0

end IndexArticle

namespace Search

structure WordAttr where
  count : UInt32
  addweight : UInt32

def WordAttr.new : WordAttr := ⟨0, 1⟩

/-- A `SearchResult` with its words, but without the priority. -/
structure FullResult where
  article : Article
  wordList : List (Bytes × WordAttr)
  posList : List (UInt32 × Bytes)

namespace FullResult

def new (article : Article) : FullResult := ⟨article, [], []⟩

/-- `wordList[word]`. -/
def attr (r : FullResult) (word : Bytes) : WordAttr := (OrderedMap.find word r.wordList).getD .new

def foundWord (r : FullResult) (word : Bytes) (pos addweight : UInt32) : FullResult :=
  { r with
    wordList := OrderedMap.put word
      ⟨(r.attr word).count + 1, (r.attr word).addweight + addweight⟩ r.wordList
    posList := OrderedMap.put pos word r.posList }

end FullResult

/-- `articlefile` and `indexfile`. -/
structure Files where
  articlefile : FileImpl
  /-- None where both are the same file. -/
  indexfile : Option FileImpl

namespace Files
variable {α : Type}

def inArticles (x : FileImpl.M α) : EStateM SearchError Files α :=
  within Files.articlefile (fun files f => { files with articlefile := f }) .file x

def inIndex (x : EStateM SearchError FileImpl α) : EStateM SearchError Files α :=
  within (fun files => files.indexfile.getD files.articlefile)
    (fun files f => match files.indexfile with
      | none => { files with articlefile := f }
      | some _ => { files with indexfile := some f })
    id x

end Files

/-- What a call of `foundWord` is made for. -/
inductive Origin where
  | category (cat : Fin 4)
  | title (size : ℕ)

/-- A word of the expression with its number of `'+'` and an article in which it is found. -/
structure Hit where
  articleIdx : UInt32
  word : Bytes
  plus : ℕ
  origin : Origin

/-- A call of `foundWord` with the weight that it passes. -/
structure Call where
  hit : Hit
  addweight : UInt32

/-- The variables of a search, with a record of its calls of `foundWord`. -/
structure Searching where
  files : Files
  index : List (UInt32 × FullResult)
  calls : List Call

def Searching.foundWord (s : Searching) (hit : Hit) (article : Article) (pos addweight : UInt32) :
    Searching :=
  let result := (OrderedMap.find hit.articleIdx s.index).getD (.new article)
  { s with
    index := OrderedMap.put hit.articleIdx (result.foundWord hit.word pos addweight) s.index
    calls := s.calls ++ [⟨hit, addweight⟩] }

/-- `std::isspace` in the C locale. -/
def isspace (ch : UInt8) : Bool := ch = 0x20 || 0x09 ≤ ch && ch ≤ 0x0d

/-- The tokens that `ssearch >> token` extracts. -/
def tokens (expr : Bytes) : List Bytes := (expr.splitOnP isspace).filter (· ≠ [])

/-- The loop over the leading `'+'`. -/
def stripPlus : UInt32 → Bytes → UInt32 × Bytes
  | addweight, [] => (addweight, [])
  | addweight, ch :: token =>
    if ch = 0x2b then stripPlus (addweight + 1) token else (addweight, ch :: token)

/-- The number of leading `'+'`. -/
def plusCount (token : Bytes) : ℕ := (token.takeWhile (· = 0x2b)).length

section Program
variable (build : Build) (noOffset : Bool) (stale searchLimit : UInt32)

/-- The entries of `indexfile.getArticleByTitle('X', token)`. -/
def indexEntries (word : Bytes) : EStateM SearchError Files Categories :=
  Files.inIndex do
    let article ← IndexArticle.onFile do
      let r ← File.findxByTitle build nsX word
      if r.1 then File.getArticleByTitle build r.2 else return .new
    IndexArticle.readEntries build noOffset stale article

/-- `find(results, 'A', token)`. -/
def titleResults (word : Bytes) : EStateM SearchError Files (List SearchResult) :=
  Files.inArticles (find build [] 0x41 word searchLimit)

def titleSize (article : Article) : EStateM SearchError Files ℕ :=
  Files.inArticles do return (← article.getTitle build).length

/-- The lookups of a search. -/
def onFiles {α : Type} (x : EStateM SearchError Files α) : EStateM SearchError Searching α :=
  within Searching.files (fun s files => { s with files }) id x

/-- The body of the loop over the tokens. An article without a word that the source inserts before
it gets a title is of no effect, as the map is lost where this throws. -/
def searchToken (token : Bytes) : EStateM SearchError Searching PUnit := do
  let (addweight, rest) := stripPlus 0 token
  if rest = [] then return
  let word := rest.map Writer.tolower
  let entries ← onFiles (indexEntries build noOffset stale word)
  if 0 < IndexArticle.getTotalCount entries then
    categories.forM fun cat => (entries cat).forM fun it =>
      modify fun s => s.foundWord ⟨it.index, word, plusCount token, .category cat⟩ ⟨it.index⟩ it.pos
        (addweight + 3 - UInt32.ofNat cat)
  else
    let results ← onFiles (titleResults build searchLimit word)
    results.forM fun it => do
      let size ← onFiles (titleSize build it.article)
      modify fun s => s.foundWord ⟨it.article.getIndex, word, plusCount token, .title size⟩
        it.article 0 ((addweight + 3).toUInt64 - UInt64.ofNat size).toUInt32

def search (expr : Bytes) : EStateM SearchError Searching PUnit :=
  (tokens expr).forM (searchToken build noOffset stale searchLimit)

/-- The variables behind a search in these files. -/
def searched (expr : Bytes) (files : Files) : Searching :=
  state (search build noOffset stale searchLimit expr ⟨files, [], []⟩)

end Program

section Hits
variable (build : Build) (noOffset : Bool) (stale searchLimit : UInt32)

/-- The files and what has been found in them. -/
structure Listing where
  files : Files
  hits : List Hit

def Listing.add (l : Listing) (hit : Hit) : Listing := { l with hits := l.hits ++ [hit] }

def listFiles {α : Type} (x : EStateM SearchError Files α) : EStateM SearchError Listing α :=
  within Listing.files (fun l files => { l with files }) id x

/-- The lookups for a token, without the weights. -/
def listToken (token : Bytes) : EStateM SearchError Listing PUnit := do
  let rest := token.dropWhile (· = 0x2b)
  if rest = [] then return
  let word := rest.map Writer.tolower
  let entries ← listFiles (indexEntries build noOffset stale word)
  if 0 < IndexArticle.getTotalCount entries then
    categories.forM fun cat => (entries cat).forM fun it =>
      modify fun l => l.add ⟨it.index, word, plusCount token, .category cat⟩
  else
    let results ← listFiles (titleResults build searchLimit word)
    results.forM fun it => do
      let size ← listFiles (titleSize build it.article)
      modify fun l => l.add ⟨it.article.getIndex, word, plusCount token, .title size⟩

/-- What the lookups for the tokens of an expression find. -/
def hits (expr : Bytes) (files : Files) : List Hit :=
  (state ((tokens expr).forM (listToken build noOffset stale searchLimit) ⟨files, []⟩)).hits

end Hits

end Search
end Zim
