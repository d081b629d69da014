import Zim.Lib.StdString
import Zim.Writer.ArticleParser
import Zim.Index.Indexer

/-! `Zimindexer` (zimindexer.h, zimindexer.cpp) over `ArticleParseEventEx`: one object turns
the events of every article into word entries. -/
namespace Zim.Writer
open Cxx Index

/-- The fields of a `Zimindexer`; `tag` is that of `ArticleParseEventEx`. -/
structure Zimindexer where
  tag : Bytes
  inTitle : Bool
  aid : UInt32
  trivialWords : List Bytes
  deriving DecidableEq, Repr

/-- A call of `ostream.write`: the name of the stream and the record. -/
abbrev WordWrite := Bytes × Wordentry

namespace Tag

def h1 : Bytes := [chr 'h', chr '1']
def H1 : Bytes := [chr 'H', chr '1']
def h2 : Bytes := [chr 'h', chr '2']
def H2 : Bytes := [chr 'H', chr '2']
def h3 : Bytes := [chr 'h', chr '3']
def H3 : Bytes := [chr 'H', chr '3']
def b : Bytes := [chr 'b']
def B : Bytes := [chr 'B']

end Tag

/-- The tags that `onTag` and `onEndtag` take notice of. -/
def marking (tag : Bytes) : Prop :=
  tag ∈ [Tag.h1, Tag.H1, Tag.h2, Tag.H2, Tag.h3, Tag.H3, Tag.b, Tag.B]

instance (tag : Bytes) : Decidable (marking tag) := inferInstanceAs (Decidable (tag ∈ _))

namespace Zimindexer

/-- A new object; `inTitle` and `aid` are set by `process`. -/
def new (trivialWords : List Bytes) : Zimindexer := ⟨[], false, 0, trivialWords⟩

def insertWord (z : Zimindexer) (word : Bytes) (weight : UInt8) (pos : UInt32) : List WordWrite :=
  [(word, ⟨z.aid, pos, weight⟩)]

/-- What `onH1` and its siblings do, each with a weight of its own. -/
def insertUnlessTrivial (z : Zimindexer) (word : Bytes) (weight : UInt8) (pos : UInt32) :
    List WordWrite :=
  if word ∈ z.trivialWords then [] else z.insertWord word weight pos

def onH1 (z : Zimindexer) (word : Bytes) (pos : UInt32) := z.insertUnlessTrivial word 0 pos
def onH2 (z : Zimindexer) (word : Bytes) (pos : UInt32) := z.insertUnlessTrivial word 1 pos
def onH3 (z : Zimindexer) (word : Bytes) (pos : UInt32) := z.insertUnlessTrivial word 2 pos
def onB (z : Zimindexer) (word : Bytes) (pos : UInt32) := z.insertUnlessTrivial word 2 pos
def onP (z : Zimindexer) (word : Bytes) (pos : UInt32) :=
  z.insertUnlessTrivial word (if z.inTitle then 0 else 3) pos

/-- `ArticleParseEventEx::onWord`. -/
def onWord (z : Zimindexer) (word : Bytes) (pos : UInt32) : List WordWrite :=
  if z.tag = Tag.h1 ∨ z.tag = Tag.H1 then z.onH1 word pos
  else if z.tag = Tag.h2 ∨ z.tag = Tag.H2 then z.onH2 word pos
  else if z.tag = Tag.h3 ∨ z.tag = Tag.H3 then z.onH3 word pos
  else if z.tag = Tag.b ∨ z.tag = Tag.B then z.onB word pos
  else z.onP word pos

/-- `ArticleParseEventEx::onTag`. -/
def onTag (z : Zimindexer) (tag : Bytes) : Zimindexer :=
  if marking tag then { z with tag := tag } else z

/-- `ArticleParseEventEx::onEndtag`. -/
def onEndtag (z : Zimindexer) (tag : Bytes) : Zimindexer :=
  if marking tag then { z with tag := [] } else z

def handle (z : Zimindexer) : List ParseEvent → Zimindexer × List WordWrite
  | [] => (z, [])
  | .onTag tag _ :: events => (z.onTag tag).handle events
  | .onEndtag tag _ :: events => (z.onEndtag tag).handle events
  | .onWord word pos :: events =>
    let (z', writes) := z.handle events
    (z', z.onWord word pos ++ writes)

end Zimindexer

/-- The arguments of `process`. -/
structure Article where
  aid : UInt32
  title : Bytes
  data : Bytes

section Process
variable (zimIsalnum : UInt32 → Bool)

/-- The parser after the title, and the events of the title. -/
def Article.parseTitle (a : Article) : ArticleParser × List ParseEvent :=
  let (p, events) := ArticleParser.parseString zimIsalnum .new a.title
  let (p, last) := p.endparse
  (p, events ++ last)

/-- The events of the data, which the same parser reads after the title. -/
def Article.parseData (a : Article) : List ParseEvent :=
  let (p, events) := ArticleParser.parseString zimIsalnum (a.parseTitle zimIsalnum).1 a.data
  events ++ p.endparse.2

namespace Zimindexer

def process (z : Zimindexer) (a : Article) : Zimindexer × List WordWrite :=
  let z := { z with aid := a.aid, inTitle := true }
  let (z, titleWrites) := z.handle (a.parseTitle zimIsalnum).2
  let z := { z with inTitle := false }
  let (z, dataWrites) := z.handle (a.parseData zimIsalnum)
  (z, titleWrites ++ dataWrites)

/-- The entries of every article of a sequence of calls. -/
def run (z : Zimindexer) : List Article → List (List WordWrite)
  | [] => []
  | a :: articles =>
    let (z, writes) := z.process zimIsalnum a
    writes :: z.run articles

/-- The object after a sequence of calls. -/
def after (z : Zimindexer) (articles : List Article) : Zimindexer :=
  articles.foldl (fun z a => (z.process zimIsalnum a).1) z

end Zimindexer
end Process
end Zim.Writer
