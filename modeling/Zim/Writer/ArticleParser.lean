import Zim.Lib.Streams

/-! `ArticleParser` (articleparser.h, articleparser.cpp): the words and the tags of an HTML
text, as events for a listener that has no influence on the parser. -/
namespace Zim.Writer
open Cxx

/-- A character of the source as a byte. -/
def chr (c : Char) : UInt8 := UInt8.ofNat c.toNat

/-- `std::isalnum` in the C locale. -/
def isalnum (ch : UInt8) : Bool :=
  (0x30 ≤ ch && ch ≤ 0x39) || (0x41 ≤ ch && ch ≤ 0x5a) || (0x61 ≤ ch && ch ≤ 0x7a)

/-- `std::tolower` in the C locale. -/
def tolower (ch : UInt8) : UInt8 := if 0x41 ≤ ch && ch ≤ 0x5a then ch + 0x20 else ch

/-- The table `ct` of `parseEntityChar`. -/
def entityTable : List (String × Bytes) :=
  [("Acirc", [0xc3, 0x82]), ("acirc", [0xc3, 0xa2]), ("AElig", [0xc3, 0x86]),
  ("aelig", [0xc3, 0xa6]), ("Agrave", [0xc3, 0x80]), ("agrave", [0xc3, 0xa0]),
  ("alefsym", [0xe2, 0x84, 0xb5]), ("Alpha", [0xce, 0x91]), ("alpha", [0xce, 0xb1]),
  ("amp", [0x26]), ("Aring", [0xc3, 0x85]), ("aring", [0xc3, 0xa5]), ("Atilde", [0xc3, 0x83]),
  ("atilde", [0xc3, 0xa3]), ("Auml", [0xc3, 0x84]), ("auml", [0xc3, 0xa4]),
  ("Beta", [0xce, 0x92]), ("beta", [0xce, 0xb2]), ("ccedil", [0xc3, 0xa7]),
  ("cedil", [0xc2, 0xb8]), ("cent", [0xc2, 0xa2]), ("Chi", [0xce, 0xa7]), ("chi", [0xcf, 0x87]),
  ("curren", [0xc2, 0xa4]), ("deg", [0xc2, 0xb0]), ("Delta", [0xce, 0x94]),
  ("delta", [0xce, 0xb4]), ("Eacute", [0xc3, 0x89]), ("eacute", [0xc3, 0xa9]),
  ("Ecirc", [0xc3, 0x8a]), ("ecirc", [0xc3, 0xaa]), ("Egrave", [0xc3, 0x88]),
  ("egrave", [0xc3, 0xa8]), ("Epsilon", [0xce, 0x95]), ("epsilon", [0xce, 0xb5]),
  ("Eta", [0xce, 0x97]), ("eta", [0xce, 0xb7]), ("ETH", [0xc3, 0x90]), ("eth", [0xc3, 0xb0]),
  ("Euml", [0xc3, 0x8b]), ("euml", [0xc3, 0xab]), ("euro", [0xe2, 0x82, 0xac]),
  ("fnof", [0xc6, 0x92]), ("Gamma", [0xce, 0x93]), ("gamma", [0xce, 0xb3]),
  ("Iacute", [0xc3, 0x8d]), ("iacute", [0xc3, 0xad]), ("Icirc", [0xc3, 0x8e]),
  ("icirc", [0xc3, 0xae]), ("iexcl", [0xc2, 0xa1]), ("Igrave", [0xc3, 0x8c]),
  ("igrave", [0xc3, 0xac]), ("Iota", [0xce, 0x99]), ("iota", [0xce, 0xb9]),
  ("Iuml", [0xc3, 0x8f]), ("iuml", [0xc3, 0xaf]), ("Kappa", [0xce, 0x9a]),
  ("kappa", [0xce, 0xba]), ("Lambda", [0xce, 0x9b]), ("lambda", [0xce, 0xbb]),
  ("micro", [0xc2, 0xb5]), ("Mu", [0xce, 0x9c]), ("mu", [0xce, 0xbc]), ("Ntilde", [0xc3, 0x91]),
  ("ntilde", [0xc3, 0xb1]), ("Nu", [0xce, 0x9d]), ("nu", [0xce, 0xbd]), ("Oacute", [0xc3, 0x93]),
  ("oacute", [0xc3, 0xb3]), ("Ocirc", [0xc3, 0x94]), ("ocirc", [0xc3, 0xb4]),
  ("OElig", [0xc5, 0x92]), ("oelig", [0xc5, 0x93]), ("Ograve", [0xc3, 0x92]),
  ("ograve", [0xc3, 0xb2]), ("Omega", [0xce, 0xa9]), ("omega", [0xcf, 0x89]),
  ("Omicron", [0xce, 0x9f]), ("omicron", [0xce, 0xbf]), ("ordf", [0xc2, 0xaa]),
  ("ordm", [0xc2, 0xba]), ("Oslash", [0xc3, 0x98]), ("oslash", [0xc3, 0xb8]),
  ("Otilde", [0xc3, 0x95]), ("otilde", [0xc3, 0xb5]), ("Ouml", [0xc3, 0x96]),
  ("ouml", [0xc3, 0xb6]), ("para", [0xc2, 0xb6]), ("Phi", [0xce, 0xa6]), ("phi", [0xcf, 0x86]),
  ("Pi", [0xce, 0xa0]), ("pi", [0xcf, 0x80]), ("piv", [0xcf, 0x96]), ("pound", [0xc2, 0xa3]),
  ("Psi", [0xce, 0xa8]), ("psi", [0xcf, 0x88]), ("real", [0xe2, 0x84, 0x9c]),
  ("Rho", [0xce, 0xa1]), ("rho", [0xcf, 0x81]), ("Scaron", [0xc5, 0xa0]),
  ("scaron", [0xc5, 0xa1]), ("shy", []), ("Sigma", [0xce, 0xa3]), ("sigma", [0xcf, 0x83]),
  ("sigmaf", [0xcf, 0x82]), ("szlig", [0xc3, 0x9f]), ("Tau", [0xce, 0xa4]), ("tau", [0xcf, 0x84]),
  ("Theta", [0xce, 0x98]), ("theta", [0xce, 0xb8]), ("thetasym", [0xcf, 0x91]),
  ("THORN", [0xc3, 0x9e]), ("thorn", [0xc3, 0xbe]), ("Uacute", [0xc3, 0x9a]),
  ("uacute", [0xc3, 0xba]), ("Ucirc", [0xc3, 0x9b]), ("ucirc", [0xc3, 0xbb]),
  ("Ugrave", [0xc3, 0x99]), ("ugrave", [0xc3, 0xb9]), ("upsih", [0xcf, 0x92]),
  ("Upsilon", [0xce, 0xa5]), ("upsilon", [0xcf, 0x85]), ("Uuml", [0xc3, 0x9c]),
  ("uuml", [0xc3, 0xbc]), ("weierp", [0xe2, 0x84, 0x98]), ("Xi", [0xce, 0x9e]),
  ("xi", [0xce, 0xbe]), ("Yacute", [0xc3, 0x9d]), ("yacute", [0xc3, 0xbd]), ("yen", [0xc2, 0xa5]),
  ("Yuml", [0xc5, 0xb8]), ("yuml", [0xc3, 0xbf]), ("Zeta", [0xce, 0x96]), ("zeta", [0xce, 0xb6])]

/-- `entityMap.find(entity)`. -/
def findEntity (entity : Bytes) : Option Bytes :=
  (entityTable.find? fun e => e.1.toList.map chr = entity).map Prod.snd

/-- The calls of an `ArticleParseEvent`. -/
inductive ParseEvent where
  | onTag (tag : Bytes) (pos : UInt32)
  | onEndtag (tag : Bytes) (pos : UInt32)
  | onWord (word : Bytes) (pos : UInt32)
  deriving DecidableEq, Repr

inductive State where
  | state0 | stateTag0 | stateTag | stateEndtag | stateTagskip | stateEnt | stateWord
  | stateWordent | stateUtf8 | stateWordutf8
  deriving DecidableEq, Repr

structure ArticleParser where
  state : State
  word : Bytes
  entity : Bytes
  pos : UInt32
  utf8char : Bytes
  utf8value : UInt32
  utf8counter : UInt32
  deriving DecidableEq, Repr

namespace ArticleParser

/-- A new parser. The last two fields are set before they are used. -/
def new : ArticleParser := ⟨.state0, [], [], 0, [], 0, 0⟩

/-- The number of bytes that follow the first one of a character, and its bits of the value. -/
def utf8Start (ch : UInt8) : Option (UInt32 × UInt32) :=
  if ch >>> 5 = 6 then some (1, (ch &&& 0x1f).toUInt32)
  else if ch >>> 4 = 0xe then some (2, (ch &&& 0xf).toUInt32)
  else if ch >>> 3 = 0x1e then some (3, (ch &&& 0x7).toUInt32)
  else none

/-- `pos - word.size()`. -/
def wordPos (p : ArticleParser) : UInt32 := p.pos - UInt32.ofNat p.word.length

section Parse
-- `zimIsalnum` is `zim::isalnum` (unicode.cpp)
variable (zimIsalnum : UInt32 → Bool)

/-- The switch of `parse(char)`; `expand` stands for `parseEntityChar(); entity.clear();`. -/
def parseState (expand : ArticleParser → ArticleParser × List ParseEvent) (p : ArticleParser)
    (ch : UInt8) : ArticleParser × List ParseEvent :=
  match p.state with
  | .state0 =>
    if ch = chr '<' then ({ p with state := .stateTag0 }, [])
    else if ch = chr '&' then ({ p with state := .stateEnt }, [])
    else
      match utf8Start ch with
      | some (counter, value) =>
        ({ p with
          utf8counter := counter
          utf8char := [ch]
          utf8value := value
          word := []
          state := .stateUtf8 }, [])
      | none =>
        if isalnum ch then ({ p with word := [tolower ch], state := .stateWord }, []) else (p, [])
  | .stateTag0 =>
    if ch = chr '/' then ({ p with word := [], state := .stateEndtag }, [])
    else if isalnum ch then ({ p with word := [ch], state := .stateTag }, [])
    else (p, [])
  | .stateTag =>
    if ch = chr '>' then ({ p with state := .state0 }, [.onTag p.word p.pos])
    else if isalnum ch then ({ p with word := p.word ++ [tolower ch] }, [])
    else ({ p with state := .stateTagskip }, [.onTag p.word p.pos])
  | .stateEndtag =>
    if ch = chr '>' then ({ p with state := .state0 }, [.onEndtag p.word p.pos])
    else if isalnum ch then ({ p with word := p.word ++ [tolower ch] }, [])
    else ({ p with state := .stateTagskip }, [.onEndtag p.word p.pos])
  | .stateTagskip => if ch = chr '>' then ({ p with state := .state0 }, []) else (p, [])
  | .stateEnt =>
    if ch = chr ';' then expand { p with state := .state0 }
    else ({ p with entity := p.entity ++ [ch] }, [])
  | .stateWord =>
    if ch = chr '&' then ({ p with state := .stateWordent }, [])
    else
      match utf8Start ch with
      | some (counter, value) =>
        ({ p with
          utf8counter := counter
          utf8char := [ch]
          utf8value := value
          state := .stateWordutf8 }, [])
      | none =>
        if isalnum ch then ({ p with word := p.word ++ [tolower ch] }, [])
        else
          ({ p with state := if ch = chr '<' then .stateTag0 else .state0 },
            [.onWord p.word p.wordPos])
  | .stateWordent =>
    if ch = chr ';' then expand { p with state := .stateWord }
    else ({ p with entity := p.entity ++ [ch] }, [])
  | .stateUtf8 | .stateWordutf8 =>
    if ch >>> 6 = 2 then
      let utf8char := p.utf8char ++ [ch]
      let utf8value := (p.utf8value <<< 6) ||| (ch &&& 0x3f).toUInt32
      let q := { p with
        utf8char := utf8char
        utf8value := utf8value
        utf8counter := p.utf8counter - 1 }
      if q.utf8counter = 0 then
        if zimIsalnum utf8value then
          ({ q with word := p.word ++ utf8char, state := .stateWord }, [])
        else
          ({ q with state := .state0 },
            if p.state = .stateWordutf8 then
              [.onWord p.word (p.wordPos - UInt32.ofNat utf8char.length + 1)]
            else [])
      else (q, [])
    else
      ({ p with state := .state0 },
        if p.state = .stateWordutf8 then
          [.onWord p.word (p.wordPos - UInt32.ofNat p.utf8char.length)]
        else [])

/-- `parse(char)` with `++pos` at its end. -/
def parseWith (expand : ArticleParser → ArticleParser × List ParseEvent) (p : ArticleParser)
    (ch : UInt8) : ArticleParser × List ParseEvent :=
  let (p, events) := parseState zimIsalnum expand p ch
  ({ p with pos := p.pos + 1 }, events)

/-- A loop of `parse(char)` over the characters of a string. -/
def parseEach (parse : ArticleParser → UInt8 → ArticleParser × List ParseEvent) :
    ArticleParser → Bytes → ArticleParser × List ParseEvent
  | p, [] => (p, [])
  | p, ch :: str =>
    let (p, events) := parse p ch
    let (p, more) := parseEach parse p str
    (p, events ++ more)

/-- `parseEntityChar` with the function that parses the characters of the expansion. -/
def expandWith (parse : ArticleParser → UInt8 → ArticleParser × List ParseEvent)
    (p : ArticleParser) : ArticleParser × List ParseEvent :=
  let (p, events) :=
    match findEntity p.entity with
    | some str => parseEach parse p str
    | none => parse p (chr ' ')
  ({ p with entity := [] }, events)

/-- `parse(char)`. No expansion contains a `;`, so that a call from `parseEntityChar` never
expands anything itself. -/
def parse (p : ArticleParser) (ch : UInt8) : ArticleParser × List ParseEvent :=
  parseWith zimIsalnum (expandWith (parseWith zimIsalnum fun p => (p, []))) p ch

def parseString (p : ArticleParser) (str : Bytes) : ArticleParser × List ParseEvent :=
  parseEach (parse zimIsalnum) p str

def endparse (p : ArticleParser) : ArticleParser × List ParseEvent :=
  match p.state with
  | .stateWord | .stateWordent => ({ p with state := .state0 }, [.onWord p.word p.wordPos])
  | .stateWordutf8 => (p, if p.word ≠ [] then [.onWord p.word p.wordPos] else [])
  | _ => (p, [])

/-- Only a `;` expands a reference. -/
theorem parseWith_congr {expand expand' : ArticleParser → ArticleParser × List ParseEvent}
    (p : ArticleParser) {ch : UInt8} (h : ch ≠ chr ';') :
    parseWith zimIsalnum expand p ch = parseWith zimIsalnum expand' p ch := by
  unfold parseWith parseState
  cases p.state <;> simp only [if_neg h]

theorem parseEach_congr {parse parse' : ArticleParser → UInt8 → ArticleParser × List ParseEvent}
    {str : Bytes} (h : ∀ ch ∈ str, ∀ p, parse p ch = parse' p ch) (p : ArticleParser) :
    parseEach parse p str = parseEach parse' p str := by
  induction str generalizing p with
  | nil => rfl
  | cons ch str ih =>
    simp only [parseEach, h ch (List.mem_cons_self ..),
      ih fun ch hch => h ch (List.mem_cons_of_mem _ hch)]

theorem expansion_ne {entity str : Bytes} (h : findEntity entity = some str) :
    ∀ ch ∈ str, ch ≠ chr ';' := by
  have hall : ∀ e ∈ entityTable, ∀ ch ∈ e.2, ch ≠ chr ';' := by decide +kernel
  rw [findEntity, Option.map_eq_some_iff] at h
  obtain ⟨e, he, rfl⟩ := h
  exact hall e (List.mem_of_find?_eq_some he)

/-- The recursion of the source between `parse(char)` and `parseEntityChar`. -/
theorem parse_eq (p : ArticleParser) (ch : UInt8) :
    parse zimIsalnum p ch = parseWith zimIsalnum (expandWith (parse zimIsalnum)) p ch := by
  have hexpand : expandWith (parseWith zimIsalnum fun p => (p, [])) =
      expandWith (parse zimIsalnum) := by
    funext q
    unfold expandWith
    cases hq : findEntity q.entity with
    | none =>
      have hsame : parseWith zimIsalnum (fun p => (p, [])) q (chr ' ') =
          parse zimIsalnum q (chr ' ') := parseWith_congr zimIsalnum q (by decide)
      simp only [hsame]
    | some str =>
      have hsame : parseEach (parseWith zimIsalnum fun p => (p, [])) q str =
          parseEach (parse zimIsalnum) q str :=
        parseEach_congr (fun ch hch p => parseWith_congr zimIsalnum p (expansion_ne hq ch hch)) q
      simp only [hsame]
  rw [parse, hexpand]

end Parse
end ArticleParser
end Zim.Writer
