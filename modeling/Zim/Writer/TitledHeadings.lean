import Mathlib.Algebra.Order.BigOperators.Group.List
import Zim.Writer.Headings

/-! The weights of the words of a document behind a title: the parser and the tag of the listener
are those that the title leaves. -/
namespace Zim.Writer
open Cxx Index Utf8 ArticleParser

/-- The element of the tag that the listener keeps, if it keeps one. -/
def Marking.ofTag (tag : Bytes) : Option Marking :=
  if tag = Tag.h1 ∨ tag = Tag.H1 then some .h1
  else if tag = Tag.h2 ∨ tag = Tag.H2 then some .h2
  else if tag = Tag.h3 ∨ tag = Tag.H3 then some .h3
  else if tag = Tag.b ∨ tag = Tag.B then some .b
  else none

theorem weight_eq_ofTag (tag : Bytes) :
    weight tag false = (Marking.ofTag tag).elim 3 Marking.weight := by
  simp only [weight, Marking.ofTag, Bool.false_eq_true, if_false]
  split_ifs <;> rfl

section Title
variable (zimIsalnum : UInt32 → Bool)

/-- The parser behind a title. -/
def titleParser (title : Bytes) : ArticleParser :=
  ((Article.mk 0 title []).parseTitle zimIsalnum).1

/-- The tag that the listener keeps of a title. -/
def titleTag (title : Bytes) : Bytes :=
  ((Article.mk 0 title []).parseTitle zimIsalnum).2.foldl ParseEvent.tagAfter []

/-- The last tag of a title with the name of an element, unless that one is an end tag. -/
def titleLast (title : Bytes) : Option Marking := Marking.ofTag (titleTag zimIsalnum title)

/-- Behind the title `endparse` leaves the parser outside of tags, of references and of characters
of several bytes. -/
def EndsOutside (title : Bytes) : Prop := (titleParser zimIsalnum title).state = .state0

variable (trivialWords : List Bytes) (aid : UInt32)

/-- The entries for a title. -/
def titleWrites (title : Bytes) : List WordWrite :=
  let z := { Zimindexer.new trivialWords with aid, inTitle := true }
  (z.handle ((Article.mk aid title []).parseTitle zimIsalnum).2).2

/-- The words of a document that are not trivial, with the weights of the innermost elements. -/
def Document.weights (d : Document) : List (Bytes × UInt8) :=
  ((d.words zimIsalnum none).filter fun e => !trivialWords.contains e.1).map
    fun e => (e.1, innermostWeight e.2.stack)

/-- The entries for the data, behind those for the title, are the words of the document with
the weights that belong to them. -/
def InnermostWeights (title : Bytes) (d : Document) : Prop := ∃ writes,
  ((Zimindexer.new trivialWords).process zimIsalnum ⟨aid, title, d.text⟩).2 =
    titleWrites zimIsalnum trivialWords aid title ++ writes ∧
  writes.map (fun e => (e.1, e.2.weight)) = d.weights zimIsalnum trivialWords

/-- At every word that is not trivial the last tag, which may be one of the title, agrees with the
innermost element. -/
def Told (title : Bytes) (d : Document) : Prop :=
  ∀ e ∈ d.words zimIsalnum (titleLast zimIsalnum title), e.1 ∉ trivialWords → e.2.Agrees

theorem innermostWeights_iff (title : Bytes) (d : Document) :
    InnermostWeights zimIsalnum trivialWords aid title d ↔
      weighted trivialWords aid (titleTag zimIsalnum title)
        (eventsOf zimIsalnum (titleParser zimIsalnum title) d.text) =
          d.weights zimIsalnum trivialWords := by
  have hprocess : ((Zimindexer.new trivialWords).process zimIsalnum ⟨aid, title, d.text⟩).2 =
      titleWrites zimIsalnum trivialWords aid title ++
        writesOf trivialWords aid (titleTag zimIsalnum title)
          ((eventsOf zimIsalnum (titleParser zimIsalnum title) d.text).map (false, ·)) := by
    rw [process_eq, titleWrites, Zimindexer.handle_eq]
    rfl
  constructor
  · rintro ⟨writes, hwrites, hweights⟩
    obtain rfl := List.append_cancel_left (hprocess.symm.trans hwrites)
    exact hweights
  · exact fun h => ⟨_, hprocess, h⟩

/-- The elements that are open at a word do not depend on the tag in front of the document. -/
theorem placed_stack (stack : List Marking) (last last' : Option Marking) (run : List Char)
    (items : List Item) :
    (placed zimIsalnum ⟨stack, last⟩ run items).map (fun e => (e.1, e.2.stack)) =
      (placed zimIsalnum ⟨stack, last'⟩ run items).map fun e => (e.1, e.2.stack) := by
  have hclose : ((closeWord run).map (·, (⟨stack, last⟩ : Place))).map
      (fun e => (e.1, e.2.stack)) =
        ((closeWord run).map (·, (⟨stack, last'⟩ : Place))).map fun e => (e.1, e.2.stack) := by
    simp only [List.map_map]
    rfl
  induction items generalizing stack last last' run with
  | nil => exact hclose
  | cons item items ih =>
    cases item with
    | char c =>
      rw [placed, placed]
      split_ifs
      · exact ih stack last last' (run ++ [c]) (by simp only [List.map_map]; rfl)
      · rw [List.map_append, List.map_append, hclose, ih stack last last' [] rfl]
    | tag kind body =>
      rw [placed, placed, List.map_append, List.map_append, hclose]
      exact congrArg _ (ih _ _ _ [] rfl)

theorem weights_eq (d : Document) (last : Option Marking) : d.weights zimIsalnum trivialWords =
    ((d.words zimIsalnum last).filter fun e => !trivialWords.contains e.1).map
      fun e => (e.1, innermostWeight e.2.stack) := by
  have hmap (words : List (Bytes × Place)) :
      (words.filter fun e => !trivialWords.contains e.1).map
          (fun e => (e.1, innermostWeight e.2.stack)) =
        ((words.map fun e => (e.1, e.2.stack)).filter fun e => !trivialWords.contains e.1).map
          fun e => (e.1, innermostWeight e.2) := by
    rw [List.filter_map, List.map_map]
    rfl
  rw [Document.weights, hmap, hmap]
  exact congrArg (fun words => List.map _ (List.filter _ words))
    (placed_stack zimIsalnum [] none last [] d.items)

/-- Behind a title that ends outside of everything, the words of a document are written with the
weights that the last tags tell. -/
theorem weighted_lastWeights {title : Bytes} (hstate : EndsOutside zimIsalnum title)
    (d : Document) :
    weighted trivialWords aid (titleTag zimIsalnum title)
        (eventsOf zimIsalnum (titleParser zimIsalnum title) d.text) =
      lastWeights trivialWords (d.words zimIsalnum (titleLast zimIsalnum title)) :=
  weighted_items zimIsalnum trivialWords aid d.wellFormed
    (show Ready _ (lowered []) from .outside hstate) (weight_eq_ofTag _)

theorem innermostWeights_iff_told {title : Bytes} (hstate : EndsOutside zimIsalnum title)
    (d : Document) : InnermostWeights zimIsalnum trivialWords aid title d ↔
      Told zimIsalnum trivialWords title d := by
  rw [innermostWeights_iff, weighted_lastWeights zimIsalnum trivialWords aid hstate,
    weights_eq zimIsalnum trivialWords d (titleLast zimIsalnum title)]
  exact weights_eq_iff trivialWords _

end Title

section Unfinished
variable (zimIsalnum : UInt32 → Bool) (trivialWords : List Bytes) (aid : UInt32)
  {p : ArticleParser}

def Marking.name : Marking → List Char
  | h1 => ['h', '1']
  | h2 => ['h', '2']
  | h3 => ['h', '3']
  | b => ['b']

theorem Marking.name_wellFormed (m : Marking) (kind : TagKind) :
    Item.WellFormed (.tag kind m.name) := by
  cases m <;> exact ⟨by decide, _, _, rfl, by decide⟩

theorem Marking.name_text (m : Marking) : ∀ c ∈ m.name, c ≠ '<' ∧ c ≠ '&' := by
  cases m <;> simp [Marking.name]

theorem nested_chars (cs : List Char) (stack : List Marking) (items : List Item) :
    Nested stack (cs.map Item.char ++ items) ↔ Nested stack items := by
  induction cs with
  | nil => rfl
  | cons c cs ih => exact ih

theorem text_chars (cs : List Char) : (cs.map Item.char).flatMap Item.text = cs := by
  induction cs with
  | nil => rfl
  | cons c cs ih => exact congrArg (c :: ·) ih

/-- What follows on a start tag: a word of `n` letters and the end tag. -/
def wordAndEnd (m : Marking) (n : ℕ) : List Item :=
  (List.replicate n 'x').map Item.char ++ [.tag .finish m.name]

theorem wordAndEnd_wellFormed (m : Marking) (n : ℕ) :
    ∀ item ∈ wordAndEnd m n, item.WellFormed := by
  intro item hitem
  rw [wordAndEnd, List.mem_append, List.mem_map, List.mem_singleton] at hitem
  rcases hitem with ⟨c, hc, rfl⟩ | rfl
  · rw [List.eq_of_mem_replicate hc]
    exact ⟨by decide, by decide⟩
  · exact m.name_wellFormed .finish

/-- A word of `n` letters inside of an element. -/
def wordIn (front : List Char) (hfront : ∀ c ∈ front, c ≠ '<' ∧ c ≠ '&') (m : Marking) (n : ℕ) :
    Document where
  items := front.map Item.char ++ (.tag .start m.name :: wordAndEnd m n)
  wellFormed := by
    intro item hitem
    rw [List.mem_append, List.mem_map, List.mem_cons] at hitem
    rcases hitem with ⟨c, hc, rfl⟩ | rfl | hitem
    · exact hfront c hc
    · exact m.name_wellFormed .start
    · exact wordAndEnd_wellFormed m n item hitem
  nested := by
    have hmark : marking? (elementName m.name) = some m := by cases m <;> decide
    rw [nested_chars]
    refine ⟨fun h => absurd h (by decide), ?_⟩
    rw [wordAndEnd, nested_chars]
    simp [Nested, stackBehind, hmark]

theorem placed_letters (place : Place) (run : List Char) (n : ℕ) (items : List Item) :
    placed zimIsalnum place run ((List.replicate n 'x').map Item.char ++ items) =
      placed zimIsalnum place (run ++ List.replicate n 'x') items := by
  have hletter : alnum zimIsalnum 'x' = true := rfl
  induction n generalizing run with
  | zero => rw [List.replicate_zero, List.append_nil]; rfl
  | succ n ih =>
    rw [List.replicate_succ, List.map_cons, List.cons_append, placed, if_pos hletter, ih,
      List.append_assoc]
    rfl

theorem placed_wordAndEnd (place : Place) (m : Marking) (n : ℕ) :
    placed zimIsalnum place [] (wordAndEnd m (n + 1)) =
      [(lowered (List.replicate (n + 1) 'x'), place)] := by
  rw [wordAndEnd, placed_letters, List.nil_append]
  rfl

/-- Characters with a `>` behind them end their last word in front of what follows. -/
theorem placed_chars (place : Place) (run cs : List Char) (items : List Item) :
    ∃ words, placed zimIsalnum place run (cs.map Item.char ++ .char '>' :: items) =
      words ++ placed zimIsalnum place [] items := by
  have hgt : alnum zimIsalnum '>' = false := rfl
  induction cs generalizing run with
  | nil =>
    refine ⟨(closeWord run).map (·, place), ?_⟩
    rw [List.map_nil, List.nil_append, placed, hgt, if_neg Bool.false_ne_true]
  | cons c cs ih =>
    rw [List.map_cons, List.cons_append, placed]
    split_ifs
    · exact ih (run ++ [c])
    · obtain ⟨words, hwords⟩ := ih []
      exact ⟨(closeWord run).map (·, place) ++ words, by rw [hwords, List.append_assoc]⟩

theorem lastWeights_word {last : Option Marking} {m : Marking} {n : ℕ}
    (hword : lowered (List.replicate (n + 1) 'x') ∉ trivialWords) :
    lastWeights trivialWords (placed zimIsalnum ⟨[], last⟩ [] (wordAndEnd m (n + 1))) =
      [(lowered (List.replicate (n + 1) 'x'), last.elim 3 Marking.weight)] := by
  rw [placed_wordAndEnd, lastWeights]
  simp [hword]

theorem words_wordIn (m : Marking) (n : ℕ) (last : Option Marking) {front : List Char}
    (hfront : ∀ c ∈ front, c ≠ '<' ∧ c ≠ '&') (hout : ∀ c ∈ front, alnum zimIsalnum c = false) :
    (wordIn front hfront m (n + 1)).words zimIsalnum last =
      [(lowered (List.replicate (n + 1) 'x'), ⟨[m], some m⟩)] := by
  have hmark : marking? (m.name.takeWhile tagChar) = some m ∧
      marking? (elementName m.name) = some m := by cases m <;> decide
  have hbehind : (Place.mk [] last).behind .start m.name = ⟨[m], some m⟩ := by
    simp [Place.behind, stackBehind, hmark]
  have hitems : (wordIn front hfront m (n + 1)).items =
      front.map Item.char ++ (.tag .start m.name :: wordAndEnd m (n + 1)) := rfl
  rw [Document.words, hitems]
  clear hitems hfront
  induction front with
  | nil =>
    rw [List.map_nil, List.nil_append, placed, hbehind, placed_wordAndEnd]
    rfl
  | cons c front ih =>
    rw [List.map_cons, List.cons_append, placed, hout c List.mem_cons_self,
      if_neg Bool.false_ne_true]
    exact ih fun c hc => hout c (List.mem_cons_of_mem _ hc)

/-- Events without a word make no entries. -/
theorem weighted_of_tags {tag : Bytes} {events : List ParseEvent}
    (h : ∀ e ∈ events, ∀ word pos, e ≠ .onWord word pos) :
    weighted trivialWords aid tag events = [] := by
  induction events generalizing tag with
  | nil => rfl
  | cons e events ih =>
    have hrest := @ih (e.tagAfter tag) fun e he => h e (List.mem_cons_of_mem _ he)
    cases e with
    | onTag | onEndtag => exact hrest
    | onWord word pos => exact absurd rfl (h _ List.mem_cons_self word pos)

/-- Inside of a tag the parser passes over a slash and a space. -/
theorem parse_slash (hstate : p.state = .stateTag0 ∨ p.state = .stateTag ∨
    p.state = .stateEndtag ∨ p.state = .stateTagskip) :
    (parseString zimIsalnum p [chr '/', chr ' ']).1.state = .stateTagskip ∧
      ∀ e ∈ (parseString zimIsalnum p [chr '/', chr ' ']).2, ∀ word pos,
        e ≠ .onWord word pos := by
  obtain ⟨s, w, e, n, c, v, k⟩ := p
  simp only at hstate
  rcases hstate with rfl | rfl | rfl | rfl
  · exact ⟨rfl, fun e he => by rw [List.mem_singleton.mp he]; exact fun _ _ h => nomatch h⟩
  · exact ⟨rfl, fun e he => by rw [List.mem_singleton.mp he]; exact fun _ _ h => nomatch h⟩
  · exact ⟨rfl, fun e he => by rw [List.mem_singleton.mp he]; exact fun _ _ h => nomatch h⟩
  · exact ⟨rfl, fun e he => absurd he List.not_mem_nil⟩

/-- Inside of a reference everything is taken in up to a semicolon. -/
theorem eventsOf_reference (hstate : p.state = .stateEnt) {str : Bytes} (h : chr ';' ∉ str) :
    eventsOf zimIsalnum p str = [] := by
  induction str generalizing p with
  | nil =>
    rw [eventsOf, parseString_nil, endparse, hstate]
    rfl
  | cons ch str ih =>
    rw [List.mem_cons, not_or] at h
    have hnext : (parse zimIsalnum p ch).1.state = .stateEnt ∧ (parse zimIsalnum p ch).2 = [] := by
      rw [parse_run]
      simp only [parseState, hstate, if_neg (Ne.symm h.1), and_self]
    rw [eventsOf_cons, hnext.2, List.nil_append]
    exact ih hnext.1 h.2

/-- Inside of a character the `<` ends it, and is lost. -/
theorem parse_cut (hstate : p.state = .stateUtf8 ∨ p.state = .stateWordutf8) (tag : Bytes) :
    (parse zimIsalnum p (chr '<')).1.state = .state0 ∧
      (parse zimIsalnum p (chr '<')).2.foldl ParseEvent.tagAfter tag = tag := by
  have hcont : ¬ chr '<' >>> 6 = 2 := by decide
  rw [parse_run]
  rcases hstate with hs | hs
  · simp only [parseState, hs, if_neg hcont, reduceCtorEq, if_false, List.foldl_nil, and_self]
  · simp only [parseState, hs, if_neg hcont, if_true, List.foldl_cons, List.foldl_nil,
      ParseEvent.tagAfter, and_self]

theorem endparse_state (p : ArticleParser) :
    p.endparse.1.state ≠ .stateWord ∧ p.endparse.1.state ≠ .stateWordent := by
  obtain ⟨s, w, e, n, c, v, k⟩ := p
  cases s <;> exact ⟨nofun, nofun⟩

theorem text_wordIn (front : List Char) (hfront : ∀ c ∈ front, c ≠ '<' ∧ c ≠ '&') (m : Marking)
    (n : ℕ) : (wordIn front hfront m n).text =
      encode front ++ (encode ('<' :: m.name) ++ [chr '>'] ++
        encode ((wordAndEnd m n).flatMap Item.text)) := by
  have hopen : encode (Item.text (.tag .start m.name)) = encode ('<' :: m.name) ++ [chr '>'] :=
    encode_append ('<' :: m.name) ['>']
  rw [Document.text, wordIn, List.flatMap_append, text_chars, List.flatMap_cons, encode_append,
    encode_append, hopen]

/-- Of a word in an element nothing is written, or the word comes last, with a weight that does not
depend on the element. -/
def Misread (tag : Bytes) (p : ArticleParser) (front : List Char)
    (hfront : ∀ c ∈ front, c ≠ '<' ∧ c ≠ '&') (last : Option Marking) : Prop :=
  ∀ m n, weighted trivialWords aid tag (eventsOf zimIsalnum p (wordIn front hfront m n).text) = [] ∨
    ∃ others, weighted trivialWords aid tag
        (eventsOf zimIsalnum p (wordIn front hfront m n).text) =
      others ++ lastWeights trivialWords (placed zimIsalnum ⟨[], last⟩ [] (wordAndEnd m n))

theorem slash_text : ∀ c ∈ ['/', ' '], c ≠ '<' ∧ c ≠ '&' := by simp

theorem slash_out : ∀ c ∈ ['/', ' '], alnum zimIsalnum c = false := by
  intro c hc
  simp only [List.mem_cons, List.not_mem_nil, or_false] at hc
  rcases hc with rfl | rfl <;> rfl

/-- Inside of a tag the start tag is passed over. -/
theorem misread_tag (hstate : p.state = .stateTag0 ∨ p.state = .stateTag ∨
    p.state = .stateEndtag ∨ p.state = .stateTagskip) (tag : Bytes) :
    ∃ last, Misread zimIsalnum trivialWords aid tag p ['/', ' '] slash_text last := by
  obtain ⟨hskip, htags⟩ := parse_slash zimIsalnum hstate
  refine ⟨Marking.ofTag
    ((parseString zimIsalnum p [chr '/', chr ' ']).2.foldl ParseEvent.tagAfter tag),
    fun m n => .inr ⟨[], ?_⟩⟩
  have hname : chr '>' ∉ encode ('<' :: m.name) := by
    refine chr_not_mem (by decide) ?_
    cases m <;> decide
  obtain ⟨hout, hnone⟩ := parse_skip zimIsalnum hskip hname
  have hslash : encode ['/', ' '] = [chr '/', chr ' '] := rfl
  rw [text_wordIn, hslash, eventsOf_append, weighted_append,
    weighted_of_tags trivialWords aid htags, eventsOf_append, hnone]
  exact weighted_items zimIsalnum trivialWords aid (wordAndEnd_wellFormed m n)
    (show Ready _ (lowered []) from .outside hout) (weight_eq_ofTag _)

/-- Inside of a character the `<` of the start tag is lost, and the tag is text. -/
theorem misread_char (hstate : p.state = .stateUtf8 ∨ p.state = .stateWordutf8) (tag : Bytes) :
    Misread zimIsalnum trivialWords aid tag p [] nofun (Marking.ofTag tag) := by
  intro m n
  obtain ⟨hout, htag⟩ := parse_cut zimIsalnum hstate tag
  have hitems : encode ('<' :: m.name) ++ [chr '>'] ++
      encode ((wordAndEnd m n).flatMap Item.text) =
        chr '<' :: encode ((m.name.map Item.char ++ .char '>' :: wordAndEnd m n).flatMap
          Item.text) := by
    rw [List.flatMap_append, text_chars, List.flatMap_cons, encode_append, encode_append,
      encode_cons, List.append_assoc, List.append_assoc]
    rfl
  have hwell : ∀ item ∈ m.name.map Item.char ++ .char '>' :: wordAndEnd m n,
      item.WellFormed := by
    intro item hitem
    rw [List.mem_append, List.mem_map, List.mem_cons] at hitem
    rcases hitem with ⟨c, hc, rfl⟩ | rfl | hitem
    · exact m.name_text c hc
    · exact ⟨by decide, by decide⟩
    · exact wordAndEnd_wellFormed m n item hitem
  obtain ⟨words, hwords⟩ :=
    placed_chars zimIsalnum ⟨[], Marking.ofTag tag⟩ [] m.name (wordAndEnd m n)
  refine .inr ⟨weighted trivialWords aid tag (parse zimIsalnum p (chr '<')).2 ++
    lastWeights trivialWords words, ?_⟩
  rw [text_wordIn, encode_nil, List.nil_append, hitems, eventsOf_cons, weighted_append, htag,
    List.append_assoc, ← lastWeights_append, ← hwords]
  exact congrArg _ (weighted_items zimIsalnum trivialWords aid hwell
    (show Ready _ (lowered []) from .outside hout) (weight_eq_ofTag tag))

/-- Inside of a reference everything is taken in. -/
theorem misread_reference (hstate : p.state = .stateEnt) (tag : Bytes) :
    Misread zimIsalnum trivialWords aid tag p [] nofun none := by
  intro m n
  have hno : chr ';' ∉ (wordIn [] nofun m n).text := by
    refine chr_not_mem (by decide) ?_
    have hitems : (wordIn [] nofun m n).items = .tag .start m.name ::
        ((List.replicate n 'x').map Item.char ++ [.tag .finish m.name]) := rfl
    rw [hitems, List.flatMap_cons, List.flatMap_append, text_chars]
    simp only [List.mem_append, not_or]
    refine ⟨?_, fun h => ?_, ?_⟩
    · cases m <;> decide
    · exact absurd (List.eq_of_mem_replicate h) (by decide)
    · cases m <;> decide
  rw [eventsOf_reference zimIsalnum hstate hno]
  exact .inl rfl

theorem exists_misread (hstate : p.state ≠ .state0)
    (hword : p.state ≠ .stateWord ∧ p.state ≠ .stateWordent) (tag : Bytes) :
    ∃ front, ∃ hfront : ∀ c ∈ front, c ≠ '<' ∧ c ≠ '&',
      (∀ c ∈ front, alnum zimIsalnum c = false) ∧
        ∃ last, Misread zimIsalnum trivialWords aid tag p front hfront last := by
  cases hs : p.state with
  | state0 => exact absurd hs hstate
  | stateWord => exact absurd hs hword.1
  | stateWordent => exact absurd hs hword.2
  | stateTag0 | stateTag | stateEndtag | stateTagskip =>
    exact ⟨_, slash_text, slash_out zimIsalnum,
      misread_tag zimIsalnum trivialWords aid (by simp [hs]) tag⟩
  | stateUtf8 | stateWordutf8 =>
    exact ⟨[], nofun, nofun, _, misread_char zimIsalnum trivialWords aid (by simp [hs]) tag⟩
  | stateEnt =>
    exact ⟨[], nofun, nofun, _, misread_reference zimIsalnum trivialWords aid hs tag⟩

theorem exists_not_trivial : ∃ n, lowered (List.replicate (n + 1) 'x') ∉ trivialWords := by
  refine ⟨(trivialWords.map List.length).sum, fun hmem => ?_⟩
  have hle := List.le_sum_of_mem (List.mem_map_of_mem (f := List.length) hmem)
  have hlen (n : ℕ) : (encode (List.replicate n 'x')).length = n := by
    induction n with
    | zero => rfl
    | succ n ih => rw [List.replicate_succ, encode_cons, List.length_append, ih, Nat.add_comm]; rfl
  rw [lowered_length, hlen] at hle
  omega

/-- Some element has another weight than a word under a given tag. -/
theorem exists_other_weight (last : Option Marking) :
    ∃ m : Marking, last.elim 3 Marking.weight ≠ m.weight := by
  cases last with
  | none => exact ⟨.h1, by decide⟩
  | some m =>
    cases m with
    | h1 => exact ⟨.h2, by decide⟩
    | h2 | h3 | b => exact ⟨.h1, by decide⟩

/-- Behind a title that does not end outside of everything, some document is misread. -/
theorem exists_not_innermostWeights {title : Bytes} (hstate : ¬ EndsOutside zimIsalnum title) :
    ∃ d, Told zimIsalnum trivialWords title d ∧
      ¬ InnermostWeights zimIsalnum trivialWords aid title d := by
  have hword : (titleParser zimIsalnum title).state ≠ .stateWord ∧
      (titleParser zimIsalnum title).state ≠ .stateWordent := endparse_state _
  obtain ⟨front, hfront, hout, last, hmisread⟩ := exists_misread zimIsalnum trivialWords aid hstate
    hword (titleTag zimIsalnum title)
  obtain ⟨n, hn⟩ := exists_not_trivial trivialWords
  obtain ⟨m, hm⟩ := exists_other_weight last
  refine ⟨wordIn front hfront m (n + 1), fun e he _ => ?_, fun hweighted => ?_⟩
  · rw [words_wordIn zimIsalnum m n _ hfront hout, List.mem_singleton] at he
    rw [he]
    exact rfl
  · rw [innermostWeights_iff, Document.weights, words_wordIn zimIsalnum m n none hfront hout]
      at hweighted
    have hexpected : weighted trivialWords aid (titleTag zimIsalnum title)
        (eventsOf zimIsalnum (titleParser zimIsalnum title)
          (wordIn front hfront m (n + 1)).text) =
        [(lowered (List.replicate (n + 1) 'x'), m.weight)] := by
      rw [hweighted]
      simp [hn, innermostWeight]
    rcases hmisread m (n + 1) with hnone | ⟨others, hlast⟩
    · rw [hnone] at hexpected
      cases hexpected
    · rw [hlast, lastWeights_word zimIsalnum trivialWords hn] at hexpected
      have hlasts := congrArg List.getLast? hexpected
      rw [List.getLast?_concat] at hlasts
      exact hm (Prod.mk.inj (Option.some.inj hlasts)).2

end Unfinished

section Whole
variable (zimIsalnum : UInt32 → Bool)

/-- Behind a title that ends outside of everything, the words that are not trivial are written with
the weight of the innermost `h1`, `h2`, `h3` or `b` element exactly when at each of them the last
such tag agrees with that element. Behind any other title that is not enough. -/
theorem process_weights_iff (trivialWords : List Bytes) (aid : UInt32) (title : Bytes) :
    (EndsOutside zimIsalnum title → ∀ d : Document,
      InnermostWeights zimIsalnum trivialWords aid title d ↔ Told zimIsalnum trivialWords title d) ∧
    (¬ EndsOutside zimIsalnum title → ∃ d : Document,
      Told zimIsalnum trivialWords title d ∧
        ¬ InnermostWeights zimIsalnum trivialWords aid title d) :=
  ⟨fun hstate => innermostWeights_iff_told zimIsalnum trivialWords aid hstate,
    exists_not_innermostWeights zimIsalnum trivialWords aid⟩

end Whole

/-- The text `<h1><b>x</b>y</h1>`. -/
def boldHeading : Document where
  items := [.tag .start ['h', '1'], .tag .start ['b'], .char 'x', .tag .finish ['b'], .char 'y',
    .tag .finish ['h', '1']]
  wellFormed := by
    simp [Item.WellFormed]
    decide
  nested := by
    simp [Nested]
    decide

/-- The text `<h2>x</h2>y`. -/
def plainHeading : Document where
  items := [.tag .start ['h', '2'], .char 'x', .tag .finish ['h', '2'], .char 'y']
  wellFormed := by
    simp [Item.WellFormed]
    decide
  nested := by
    simp [Nested]
    decide

/-- The title `<b>Barnes</b> Noble` ends outside of everything, and `Barnes & Noble` does not. -/
theorem process_weights_barnes :
    InnermostWeights (fun _ => false) [] 1 (encode "<b>Barnes</b> Noble".toList) plainHeading ∧
      ∃ d, Told (fun _ => false) [] (encode "Barnes & Noble".toList) d ∧
        ¬ InnermostWeights (fun _ => false) [] 1 (encode "Barnes & Noble".toList) d := by
  have hnot : ¬ EndsOutside (fun _ => false) (encode "Barnes & Noble".toList) := by
    unfold EndsOutside
    decide +kernel
  refine ⟨((process_weights_iff _ [] 1 _).1 ?_ plainHeading).mpr ?_,
    (process_weights_iff _ [] 1 _).2 hnot⟩
  · unfold EndsOutside
    decide +kernel
  · unfold Told
    decide +kernel

/-- In `<h1><b>x</b>y</h1>` the word `y` loses the weight of its heading, whatever
`zim::isalnum` is. -/
theorem not_process_weights : ¬ ∃ zimIsalnum : UInt32 → Bool,
    InnermostWeights zimIsalnum [] 0 [] boldHeading := by
  rintro ⟨zimIsalnum, h⟩
  have hempty : EndsOutside zimIsalnum [] := rfl
  have htold := (innermostWeights_iff_told zimIsalnum [] 0 hempty boldHeading).mp h
  have hword : ([chr 'y'], ⟨[.h1], none⟩) ∈ boldHeading.words zimIsalnum none :=
    List.mem_cons_of_mem _ List.mem_cons_self
  exact htold _ hword List.not_mem_nil

end Zim.Writer
