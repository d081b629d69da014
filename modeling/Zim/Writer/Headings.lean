import Zim.Writer.IndexIndependence
import Zim.Writer.ParserTags

/-! The weights of the words of a document, against the elements that are open around them. -/
namespace Zim.Writer
open Cxx Index Utf8 ArticleParser

/-- The elements that give their words a weight. -/
inductive Marking where
  | h1 | h2 | h3 | b
  deriving DecidableEq, Repr

def Marking.weight : Marking → UInt8
  | h1 => 0
  | h2 => 1
  | h3 => 2
  | b => 2

/-- The element of a name, in upper or lower case. -/
def marking? (name : List Char) : Option Marking :=
  let name := name.map Char.toLower
  if name = ['h', '1'] then some .h1
  else if name = ['h', '2'] then some .h2
  else if name = ['h', '3'] then some .h3
  else if name = ['b'] then some .b
  else none

inductive TagKind where
  | start | finish | empty | declaration
  deriving DecidableEq, Repr

/-- A document as the characters of its text and its tags; `body` is the name of a tag with the
attributes behind it. -/
inductive Item where
  | char (c : Char)
  | tag (kind : TagKind) (body : List Char)
  deriving DecidableEq, Repr

/-- The characters that end the name of an element. -/
def endsName (c : Char) : Bool := c ∈ [' ', '\t', '\n', '\x0c', '\r', '/']

def elementName (body : List Char) : List Char := body.takeWhile fun c => !endsName c

namespace Item

/-- The characters of the source. -/
def text : Item → List Char
  | char c => [c]
  | tag .start body => '<' :: (body ++ ['>'])
  | tag .finish body => '<' :: '/' :: (body ++ ['>'])
  | tag .empty body => '<' :: (body ++ ['/', '>'])
  | tag .declaration body => '<' :: '!' :: (body ++ ['>'])

/-- A tag ends at the first `>`, its name begins with a letter or a digit. -/
def WellFormed : Item → Prop
  | char c => c ≠ '<' ∧ c ≠ '&'
  | tag _ body => '>' ∉ body ∧ ∃ c rest, body = c :: rest ∧ tagChar c = true

end Item

/-- The elements that are open behind a tag, the innermost one first. -/
def stackBehind (stack : List Marking) (kind : TagKind) (body : List Char) : List Marking :=
  match kind, marking? (elementName body) with
  | .start, some m => m :: stack
  | .finish, some _ => stack.tail
  | _, _ => stack

/-- Every end tag closes the innermost open element, and at the end none is open. -/
def Nested : List Marking → List Item → Prop
  | stack, [] => stack = []
  | stack, .char _ :: items => Nested stack items
  | stack, .tag kind body :: items =>
    (kind = .finish → ∀ m, marking? (elementName body) = some m → stack.head? = some m) ∧
      Nested (stackBehind stack kind body) items

/-- A document whose `h1`, `h2`, `h3` and `b` elements are properly nested and closed. -/
structure Document where
  items : List Item
  wellFormed : ∀ item ∈ items, item.WellFormed
  nested : Nested [] items

/-- The weight that belongs to a word inside of some elements. -/
def innermostWeight (stack : List Marking) : UInt8 := stack.head?.elim 3 Marking.weight

/-- A place in a document: the open elements, and the last tag in front of it with a name that
begins like that of such an element, unless that one is an end tag. -/
structure Place where
  stack : List Marking
  last : Option Marking

namespace Place

def behind (place : Place) (kind : TagKind) (body : List Char) : Place where
  stack := stackBehind place.stack kind body
  last :=
    match marking? (body.takeWhile tagChar) with
    | some m => if kind = .finish then none else some m
    | none => place.last

/-- The last tag tells the weight of the innermost element. -/
def Agrees (place : Place) : Prop :=
  match place.last, place.stack with
  | none, [] => True
  | some m, m' :: _ => m.weight = m'.weight
  | _, _ => False

instance : (place : Place) → Decidable place.Agrees
  | ⟨[], none⟩ => .isTrue trivial
  | ⟨m' :: _, some m⟩ => inferInstanceAs (Decidable (m.weight = m'.weight))
  | ⟨[], some _⟩ => .isFalse id
  | ⟨_ :: _, none⟩ => .isFalse id

theorem agrees_iff (place : Place) :
    place.last.elim 3 Marking.weight = innermostWeight place.stack ↔ place.Agrees := by
  obtain ⟨stack, last⟩ := place
  have hother (m : Marking) : m.weight ≠ 3 := by cases m <;> decide
  cases last with
  | none =>
    cases stack with
    | nil => exact iff_of_true rfl trivial
    | cons m stack => exact iff_of_false (hother m).symm id
  | some m =>
    cases stack with
    | nil => exact iff_of_false (hother m) id
    | cons m' stack => exact Iff.rfl

end Place

section Words
variable (zimIsalnum : UInt32 → Bool)

/-- The words of a document and their places, behind the beginning of one. -/
def placed : Place → List Char → List Item → List (Bytes × Place)
  | place, run, [] => (closeWord run).map (·, place)
  | place, run, .char c :: items =>
    if alnum zimIsalnum c then placed place (run ++ [c]) items
    else (closeWord run).map (·, place) ++ placed place [] items
  | place, run, .tag kind body :: items =>
    (closeWord run).map (·, place) ++ placed (place.behind kind body) [] items

def Document.text (d : Document) : Bytes := encode (d.items.flatMap Item.text)

/-- The words of a document behind a tag. -/
def Document.words (d : Document) (last : Option Marking) : List (Bytes × Place) :=
  placed zimIsalnum ⟨[], last⟩ [] d.items

/-- The tags whose names begin like that of such an element are its start and end tags. -/
def Item.Regular : Item → Prop
  | .char _ => True
  | .tag kind body => marking? (body.takeWhile tagChar) = marking? (elementName body) ∧
      (kind = .empty ∨ kind = .declaration → marking? (elementName body) = none)

/-- The last tag is the start tag of the innermost element, or an end tag. -/
def Place.Regular (place : Place) : Prop :=
  ∀ m, place.last = some m → place.stack.head? = some m

theorem Place.Regular.behind {place : Place} (h : place.Regular) {kind : TagKind}
    {body : List Char} (hitem : Item.Regular (.tag kind body)) :
    (place.behind kind body).Regular := by
  obtain ⟨hname, hother⟩ := hitem
  intro m hm
  simp only [Place.behind, hname] at hm
  simp only [Place.behind, stackBehind]
  cases hmark : marking? (elementName body) with
  | none =>
    rw [hmark] at hm
    have hkept := h m hm
    cases kind <;> exact hkept
  | some m' =>
    rw [hmark] at hm hother
    cases kind with
    | start => exact hm
    | finish => cases hm
    | empty => exact absurd (hother (.inl rfl)) (Option.some_ne_none m')
    | declaration => exact absurd (hother (.inr rfl)) (Option.some_ne_none m')

/-- In a regular document a word has another weight than that of its innermost element exactly
when another element has ended between the start tag of that element and the word. -/
theorem agrees_iff_of_regular {items : List Item} (hitems : ∀ item ∈ items, item.Regular)
    {place : Place} (h : place.Regular) {run : List Char} :
    ∀ e ∈ placed zimIsalnum place run items,
      e.2.Agrees ↔ (e.2.last = none → e.2.stack = []) := by
  have hplace {place : Place} (h : place.Regular) :
      place.Agrees ↔ (place.last = none → place.stack = []) := by
    obtain ⟨stack, last⟩ := place
    cases last with
    | none => cases stack <;> simp [Place.Agrees]
    | some m =>
      have hhead := h m rfl
      cases stack with
      | nil => cases hhead
      | cons m' stack =>
        obtain rfl := Option.some.inj hhead
        simp [Place.Agrees]
  have hclose {place : Place} (h : place.Regular) (run : List Char) :
      ∀ e ∈ (closeWord run).map (·, place), e.2.Agrees ↔ (e.2.last = none → e.2.stack = []) := by
    intro e he
    obtain ⟨w, -, rfl⟩ := List.mem_map.mp he
    exact hplace h
  induction items generalizing place run with
  | nil => exact hclose h run
  | cons item items ih =>
    have hrest (i : Item) (hi : i ∈ items) := hitems i (List.mem_cons_of_mem _ hi)
    cases item with
    | char c =>
      rw [placed]
      split_ifs
      · exact ih hrest h
      · exact List.forall_mem_append.mpr ⟨hclose h run, ih hrest h⟩
    | tag kind body =>
      have hbehind := h.behind (hitems _ List.mem_cons_self)
      exact List.forall_mem_append.mpr ⟨hclose h run, ih hrest hbehind⟩

end Words

section Names

/-- The name of a tag as the parser reports it: the letters in lower case, but the first one of
a tag that is no end tag. -/
def keptName : TagKind → List Char → List Char
  | .finish, name => name.map Char.toLower
  | _, [] => []
  | _, c :: name => c :: name.map Char.toLower

theorem toLower_of_ascii {c : Char} (hc : tagChar c = true) :
    c.toLower.toLower = c.toLower ∧ (c.toLower = 'h' → c = 'h' ∨ c = 'H') ∧
      (c.toLower = 'b' → c = 'b' ∨ c = 'B') ∧
      ∀ d, d = '1' ∨ d = '2' ∨ d = '3' → c.toLower = d → c = d := by
  have hall : ∀ n < 0x80, let c := Char.ofNat n
      c.toLower.toLower = c.toLower ∧ (c.toLower = 'h' → c = 'h' ∨ c = 'H') ∧
        (c.toLower = 'b' → c = 'b' ∨ c = 'B') ∧ (c.toLower = '1' → c = '1') ∧
        (c.toLower = '2' → c = '2') ∧ (c.toLower = '3' → c = '3') := by decide
  simp only [tagChar, Bool.and_eq_true, decide_eq_true_eq] at hc
  have h := hall c.toNat hc.1
  rw [Char.ofNat_toNat] at h
  obtain ⟨hidem, hh, hb, h1, h2, h3⟩ := h
  refine ⟨hidem, hh, hb, ?_⟩
  rintro d (rfl | rfl | rfl)
  · exact h1
  · exact h2
  · exact h3

theorem marking?_keptName (kind : TagKind) {name : List Char} (h : ∀ c ∈ name, tagChar c = true) :
    marking? (keptName kind name) = marking? name := by
  have hmap : ∀ l : List Char, (∀ c ∈ l, tagChar c = true) →
      (l.map Char.toLower).map Char.toLower = l.map Char.toLower := by
    intro l hl
    rw [List.map_map]
    exact List.map_congr_left fun c hc => (toLower_of_ascii (hl c hc)).1
  have hkept : (keptName kind name).map Char.toLower = name.map Char.toLower := by
    cases name with
    | nil => cases kind <;> rfl
    | cons c name =>
      have hrest := hmap name fun d hd => h d (List.mem_cons_of_mem _ hd)
      cases kind with
      | finish => exact hmap _ h
      | start | empty | declaration => exact congrArg (c.toLower :: ·) hrest
  simp only [marking?, hkept]

theorem tagChar_toLower {c : Char} (hc : tagChar c = true) : tagChar c.toLower = true := by
  have hall : ∀ n < 0x80, tagChar (Char.ofNat n) = true →
      tagChar (Char.ofNat n).toLower = true := by decide
  have hascii := hc
  simp only [tagChar, Bool.and_eq_true, decide_eq_true_eq] at hascii
  have h := hall c.toNat hascii.1
  rw [Char.ofNat_toNat] at h
  exact h hc

theorem tagChar_keptName (kind : TagKind) {name : List Char} (h : ∀ c ∈ name, tagChar c = true) :
    ∀ c ∈ keptName kind name, tagChar c = true := by
  have hmap (l : List Char) (hl : ∀ c ∈ l, tagChar c = true) :
      ∀ c ∈ l.map Char.toLower, tagChar c = true := by
    intro c hc
    obtain ⟨d, hd, rfl⟩ := List.mem_map.mp hc
    exact tagChar_toLower (hl d hd)
  cases name with
  | nil => cases kind <;> simp [keptName]
  | cons c name =>
    have hfirst := h c List.mem_cons_self
    have hrest := hmap name fun d hd => h d (List.mem_cons_of_mem _ hd)
    cases kind with
    | finish => exact hmap _ h
    | start | empty | declaration => exact List.forall_mem_cons.mpr ⟨hfirst, hrest⟩

/-- The listener takes notice of the names of the elements and of no others. -/
theorem marking_encode {name : List Char} (h : ∀ c ∈ name, tagChar c = true) :
    match marking? name with
    | some m => marking (encode name) ∧ weight (encode name) false = m.weight
    | none => ¬ marking (encode name) := by
  have htwo {d : Char} (hd : d = '1' ∨ d = '2' ∨ d = '3')
      (hname : name.map Char.toLower = ['h', d]) : name = ['h', d] ∨ name = ['H', d] := by
    obtain ⟨x, rest, rfl, hx, hrest⟩ := List.map_eq_cons_iff.mp hname
    obtain ⟨y, rest, rfl, hy, hnil⟩ := List.map_eq_cons_iff.mp hrest
    obtain rfl := List.map_eq_nil_iff.mp hnil
    obtain ⟨-, hh, -, -⟩ := toLower_of_ascii (h x (by simp))
    obtain ⟨-, -, -, hdigit⟩ := toLower_of_ascii (h y (by simp))
    obtain rfl := hdigit d hd hy
    rcases hh hx with rfl | rfl
    · exact .inl rfl
    · exact .inr rfl
  by_cases h1 : name.map Char.toLower = ['h', '1']
  · rw [show marking? name = some .h1 by simp only [marking?, if_pos h1]]
    rcases htwo (.inl rfl) h1 with rfl | rfl <;> decide
  by_cases h2 : name.map Char.toLower = ['h', '2']
  · rw [show marking? name = some .h2 by simp only [marking?, if_neg h1, if_pos h2]]
    rcases htwo (.inr (.inl rfl)) h2 with rfl | rfl <;> decide
  by_cases h3 : name.map Char.toLower = ['h', '3']
  · rw [show marking? name = some .h3 by simp only [marking?, if_neg h1, if_neg h2, if_pos h3]]
    rcases htwo (.inr (.inr rfl)) h3 with rfl | rfl <;> decide
  by_cases hb : name.map Char.toLower = ['b']
  · rw [show marking? name = some .b by
      simp only [marking?, if_neg h1, if_neg h2, if_neg h3, if_pos hb]]
    obtain ⟨x, rest, rfl, hx, hrest⟩ := List.map_eq_cons_iff.mp hb
    obtain rfl := List.map_eq_nil_iff.mp hrest
    obtain ⟨-, -, hletter, -⟩ := toLower_of_ascii (h x (by simp))
    rcases hletter hx with rfl | rfl <;> decide
  have hnone : marking? name = none := by
    simp only [marking?, if_neg h1, if_neg h2, if_neg h3, if_neg hb]
  rw [hnone]
  intro hmark
  have hno {u : List Char} (heq : encode name = encode u) (hu : marking? u ≠ none) : False := by
    rw [encode_injective heq] at hnone
    exact hu hnone
  simp only [marking, List.mem_cons, List.not_mem_nil, or_false] at hmark
  rcases hmark with heq | heq | heq | heq | heq | heq | heq | heq
  · exact @hno ['h', '1'] heq (by decide)
  · exact @hno ['H', '1'] heq (by decide)
  · exact @hno ['h', '2'] heq (by decide)
  · exact @hno ['H', '2'] heq (by decide)
  · exact @hno ['h', '3'] heq (by decide)
  · exact @hno ['H', '3'] heq (by decide)
  · exact @hno ['b'] heq (by decide)
  · exact @hno ['B'] heq (by decide)

end Names

section Parser
variable (zimIsalnum : UInt32 → Bool) {p : ArticleParser} {w : Bytes}

theorem takeWhile_slash (l : List Char) :
    (l ++ ['/']).takeWhile tagChar = l.takeWhile tagChar := by
  induction l with
  | nil => rfl
  | cons c l ih => simp only [List.cons_append, List.takeWhile_cons, ih]

/-- A tag ends the word in front of it, and is reported with the letters and digits that its
name begins with. -/
theorem parse_tag (h : Ready p w) {kind : TagKind} {body : List Char}
    (hwell : Item.WellFormed (.tag kind body)) : ∃ pos,
      (parseString zimIsalnum p (encode (Item.text (.tag kind body)))).1.state = .state0 ∧
        (parseString zimIsalnum p (encode (Item.text (.tag kind body)))).2 =
          wordEvents w p.pos ++ [tagEvent (kind = .finish)
            (encode (keptName kind (body.takeWhile tagChar))) pos] := by
  obtain ⟨hgt, c, rest, rfl, hc⟩ := hwell
  obtain ⟨hstate, hword⟩ := h.parse_lt zimIsalnum
  have hopen (str : Bytes) : parseString zimIsalnum p (chr '<' :: str) =
      ((parseString zimIsalnum (parse zimIsalnum p (chr '<')).1 str).1,
        wordEvents w p.pos ++ (parseString zimIsalnum (parse zimIsalnum p (chr '<')).1 str).2) := by
    rw [parseString_cons, hword]
  have hrest : '>' ∉ rest := fun hmem => hgt (List.mem_cons_of_mem _ hmem)
  have hname : (c :: rest).takeWhile tagChar = c :: rest.takeWhile tagChar :=
    List.takeWhile_cons_of_pos hc
  have hfirst : chr c :: lowered (rest.takeWhile tagChar) =
      encode (c :: (rest.takeWhile tagChar).map Char.toLower) := by
    rw [encode_cons, (encode_tagChar hc).1]
    rfl
  rw [hname]
  cases kind with
  | start =>
    obtain ⟨pos, hlast, hevents⟩ := parse_opening zimIsalnum hstate hc hrest
    rw [hfirst] at hevents
    have htext : encode (Item.text (.tag .start (c :: rest))) =
        chr '<' :: (encode (c :: rest) ++ [chr '>']) := by
      rw [Item.text, encode_cons, encode_append]
      rfl
    rw [htext, hopen, hevents]
    exact ⟨pos, hlast, rfl⟩
  | empty =>
    obtain ⟨pos, hlast, hevents⟩ := parse_opening zimIsalnum hstate hc
      (show '>' ∉ rest ++ ['/'] by simpa using hrest)
    rw [takeWhile_slash, hfirst] at hevents
    have htext : encode (Item.text (.tag .empty (c :: rest))) =
        chr '<' :: (encode (c :: (rest ++ ['/'])) ++ [chr '>']) := by
      rw [Item.text, show c :: rest ++ ['/', '>'] = c :: (rest ++ ['/']) ++ ['>'] by simp,
        encode_cons, encode_append]
      rfl
    rw [htext, hopen, hevents]
    exact ⟨pos, hlast, rfl⟩
  | finish =>
    obtain ⟨pos, hlast, hevents⟩ := parse_closing zimIsalnum hstate hgt
    have htext : encode (Item.text (.tag .finish (c :: rest))) =
        chr '<' :: chr '/' :: (encode (c :: rest) ++ [chr '>']) := by
      rw [Item.text, encode_cons, encode_cons, encode_append]
      rfl
    rw [htext, hopen, hevents, hname]
    exact ⟨pos, hlast, rfl⟩
  | declaration =>
    obtain ⟨hskip, hno⟩ := parse_tag0_other zimIsalnum hstate
      (show chr '!' ≠ chr '/' by decide) (by decide)
    obtain ⟨pos, hlast, hevents⟩ := parse_opening zimIsalnum hskip hc hrest
    rw [hfirst] at hevents
    have htext : encode (Item.text (.tag .declaration (c :: rest))) =
        chr '<' :: chr '!' :: (encode (c :: rest) ++ [chr '>']) := by
      rw [Item.text, encode_cons, encode_cons, encode_append]
      rfl
    rw [htext, hopen, parseString_cons, hno, List.nil_append, hevents]
    exact ⟨pos, hlast, rfl⟩

end Parser

section Weights
variable (zimIsalnum : UInt32 → Bool) (trivialWords : List Bytes) (aid : UInt32)

/-- The words that are written for some events of the data, with their weights. -/
def weighted (tag : Bytes) (events : List ParseEvent) : List (Bytes × UInt8) :=
  (writesOf trivialWords aid tag (events.map (false, ·))).map fun e => (e.1, e.2.weight)

/-- The words with the weights that the last tags tell. -/
def lastWeights (words : List (Bytes × Place)) : List (Bytes × UInt8) :=
  (words.filter fun e => !trivialWords.contains e.1).map
    fun e => (e.1, e.2.last.elim 3 Marking.weight)

variable {tag : Bytes} {place : Place}

theorem weighted_append (tag : Bytes) (l m : List ParseEvent) :
    weighted trivialWords aid tag (l ++ m) = weighted trivialWords aid tag l ++
      weighted trivialWords aid (l.foldl ParseEvent.tagAfter tag) m := by
  simp only [weighted, List.map_append, writesOf_append, List.foldl_map]

theorem lastWeights_append (l m : List (Bytes × Place)) : lastWeights trivialWords (l ++ m) =
    lastWeights trivialWords l ++ lastWeights trivialWords m := by
  simp only [lastWeights, List.filter_append, List.map_append]

theorem foldl_wordEvents (tag w : Bytes) (pos : UInt32) :
    (wordEvents w pos).foldl ParseEvent.tagAfter tag = tag := by
  rw [wordEvents]
  split_ifs <;> rfl

theorem weighted_wordEvents (htag : weight tag false = place.last.elim 3 Marking.weight)
    (run : List Char) (pos : UInt32) :
    weighted trivialWords aid tag (wordEvents (lowered run) pos) =
      lastWeights trivialWords ((closeWord run).map (·, place)) := by
  cases run with
  | nil => rfl
  | cons c run =>
    rw [wordEvents, if_neg (lowered_eq_nil.not.mpr (List.cons_ne_nil c run))]
    by_cases hw : lowered (c :: run) ∈ trivialWords
    · simp [weighted, writesOf, lastWeights, closeWord, hw]
    · simp [weighted, writesOf, lastWeights, closeWord, hw, htag]

theorem weighted_tagEvent (closing : Bool) (name : Bytes) (pos : UInt32) :
    weighted trivialWords aid tag [tagEvent closing name pos] = [] := by
  cases closing <;> rfl

/-- The listener keeps the last tag. -/
theorem weight_tagAfter (htag : weight tag false = place.last.elim 3 Marking.weight)
    (kind : TagKind) (body : List Char) (pos : UInt32) :
    weight ((tagEvent (kind = .finish) (encode (keptName kind (body.takeWhile tagChar)))
        pos).tagAfter tag) false =
      (place.behind kind body).last.elim 3 Marking.weight := by
  have hname : ∀ c ∈ body.takeWhile tagChar, tagChar c = true :=
    fun c hc => List.mem_takeWhile_imp hc
  have hmark := marking_encode (tagChar_keptName kind hname)
  rw [marking?_keptName kind hname] at hmark
  simp only [Place.behind]
  cases hm : marking? (body.takeWhile tagChar) with
  | none =>
    simp only [hm] at hmark
    by_cases hk : kind = .finish
    · simp only [tagEvent, hk, decide_true, if_true, ParseEvent.tagAfter]
      rw [if_neg (hk ▸ hmark)]
      exact htag
    · simp only [tagEvent, hk, decide_false, Bool.false_eq_true, if_false, ParseEvent.tagAfter,
        if_neg hmark]
      exact htag
  | some m =>
    simp only [hm] at hmark
    by_cases hk : kind = .finish
    · simp only [tagEvent, hk, decide_true, if_true, ParseEvent.tagAfter]
      rw [if_pos (hk ▸ hmark.1)]
      rfl
    · simp only [tagEvent, hk, decide_false, Bool.false_eq_true, if_false, ParseEvent.tagAfter,
        if_pos hmark.1]
      exact hmark.2

/-- The words of a document are written with the weights that the last tags tell. -/
theorem weighted_items {items : List Item} (hitems : ∀ item ∈ items, item.WellFormed)
    {p : ArticleParser} {run : List Char} (h : Ready p (lowered run))
    (htag : weight tag false = place.last.elim 3 Marking.weight) :
    weighted trivialWords aid tag (eventsOf zimIsalnum p (encode (items.flatMap Item.text))) =
      lastWeights trivialWords (placed zimIsalnum place run items) := by
  induction items generalizing p run tag place with
  | nil =>
    have hend : eventsOf zimIsalnum p (encode ([].flatMap Item.text)) =
        wordEvents (lowered run) p.pos := h.endparse
    rw [hend]
    exact weighted_wordEvents trivialWords aid htag run p.pos
  | cons item items ih =>
    have hrest (i : Item) (hi : i ∈ items) := hitems i (List.mem_cons_of_mem _ hi)
    have hwell := hitems item List.mem_cons_self
    rw [List.flatMap_cons, encode_append, eventsOf_append]
    cases item with
    | char c =>
      obtain ⟨hready, hevents, -, -⟩ := h.parse_char zimIsalnum hwell.1 hwell.2
      rw [Item.text, encode_cons, encode_nil, List.append_nil, hevents, placed]
      by_cases hc : alnum zimIsalnum c = true
      · rw [if_pos hc, lowered_singleton_append] at hready
        rw [if_pos hc, if_pos hc, List.nil_append]
        exact ih hrest hready htag
      · rw [if_neg hc] at hready
        rw [if_neg hc, if_neg hc, weighted_append, foldl_wordEvents,
          weighted_wordEvents trivialWords aid htag, lastWeights_append]
        congr 1
        exact ih hrest (show Ready _ (lowered []) from hready) htag
    | tag kind body =>
      obtain ⟨pos, hstate, hevents⟩ := parse_tag zimIsalnum h hwell
      rw [hevents, weighted_append, weighted_append, foldl_wordEvents, weighted_tagEvent,
        List.append_nil, List.foldl_append, foldl_wordEvents,
        weighted_wordEvents trivialWords aid htag, placed, lastWeights_append]
      congr 1
      exact ih hrest (@Ready.outside _ hstate) (weight_tagAfter htag kind body pos)

end Weights

section Document
variable (zimIsalnum : UInt32 → Bool)

/-- The entries for the title, and those for the data under the tag that it leaves. -/
theorem process_eq (z : Zimindexer) (a : Article) :
    z.process zimIsalnum a =
      ({ z with
          aid := a.aid
          inTitle := false
          tag := (a.parseData zimIsalnum).foldl ParseEvent.tagAfter
            ((a.parseTitle zimIsalnum).2.foldl ParseEvent.tagAfter z.tag) },
        writesOf z.trivialWords a.aid z.tag ((a.parseTitle zimIsalnum).2.map (true, ·)) ++
          writesOf z.trivialWords a.aid
            ((a.parseTitle zimIsalnum).2.foldl ParseEvent.tagAfter z.tag)
            ((a.parseData zimIsalnum).map (false, ·))) := by
  simp only [Zimindexer.process, Zimindexer.handle_eq]

theorem weights_eq_iff (trivialWords : List Bytes) (words : List (Bytes × Place)) :
    lastWeights trivialWords words =
        (words.filter fun e => !trivialWords.contains e.1).map
          (fun e => (e.1, innermostWeight e.2.stack)) ↔
      ∀ e ∈ words, e.1 ∉ trivialWords → e.2.Agrees := by
  rw [lastWeights, List.map_inj_left]
  simp only [List.mem_filter, Bool.not_eq_true', List.contains_eq_mem, decide_eq_false_iff_not,
    Prod.mk.injEq, true_and, Place.agrees_iff, and_imp]

end Document
end Zim.Writer
