import Zim.Writer.ParserReferences
import Zim.Writer.Zimindexer

/-! The parser reads the data of an article after its title: what it keeps of the title. -/
namespace Zim.Writer
open Cxx

/-- An event `k` characters further on. -/
def ParseEvent.shift (k : UInt32) : ParseEvent → ParseEvent
  | .onTag tag pos => .onTag tag (pos + k)
  | .onEndtag tag pos => .onEndtag tag (pos + k)
  | .onWord word pos => .onWord word (pos + k)

namespace ArticleParser

/-- The states in which the word collected so far is used. -/
def State.usesWord : State → Bool
  | .stateTag | .stateEndtag | .stateWord | .stateWordent | .stateUtf8 | .stateWordutf8 => true
  | _ => false

/-- The states inside a character of several bytes. -/
def State.usesChar : State → Bool
  | .stateUtf8 | .stateWordutf8 => true
  | _ => false

/-- The second parser behaves as the first one does, `k` characters further on. -/
structure Shifted (k : UInt32) (p q : ArticleParser) : Prop where
  state : q.state = p.state
  pos : q.pos = p.pos + k
  entity : q.entity = p.entity
  word : State.usesWord p.state = true → q.word = p.word
  utf8char : State.usesChar p.state = true → q.utf8char = p.utf8char
  utf8value : State.usesChar p.state = true → q.utf8value = p.utf8value
  utf8counter : State.usesChar p.state = true → q.utf8counter = p.utf8counter

section Shifted
variable (zimIsalnum : UInt32 → Bool) {k : UInt32} {p q : ArticleParser}

theorem Shifted.of_neither (hstate : q.state = p.state) (hpos : q.pos = p.pos + k)
    (hentity : q.entity = p.entity) (hword : State.usesWord p.state = false)
    (hchar : State.usesChar p.state = false) : Shifted k p q := by
  have hno {b : Bool} (hb : b = false) {P : Prop} (h : b = true) : P := by
    rw [hb] at h
    cases h
  exact ⟨hstate, hpos, hentity, hno hword, hno hchar, hno hchar, hno hchar⟩

theorem Shifted.of_word (hstate : q.state = p.state) (hpos : q.pos = p.pos + k)
    (hentity : q.entity = p.entity) (hword : q.word = p.word)
    (hchar : State.usesChar p.state = false) : Shifted k p q := by
  have hno {b : Bool} (hb : b = false) {P : Prop} (h : b = true) : P := by
    rw [hb] at h
    cases h
  exact ⟨hstate, hpos, hentity, fun _ => hword, hno hchar, hno hchar, hno hchar⟩

/-- Two results that differ in the positions only. -/
def ShiftedResult (k : UInt32) (r r' : ArticleParser × List ParseEvent) : Prop :=
  Shifted k r.1 r'.1 ∧ r'.2 = r.2.map (ParseEvent.shift k)

theorem wordPos_shift (pos k n : UInt32) : pos + k - n = pos - n + k := by grind

/-- A turn of the parser keeps the relation. -/
theorem Shifted.parseState (h : Shifted k p q)
    {expand : ArticleParser → ArticleParser × List ParseEvent}
    (hexpand : ∀ p q, Shifted k p q → ShiftedResult k (expand p) (expand q)) (ch : UInt8) :
    ShiftedResult k (parseState zimIsalnum expand p ch) (parseState zimIsalnum expand q ch) := by
  obtain ⟨s, w, e, n, c, v, m⟩ := p
  obtain ⟨s', w', e', n', c', v', m'⟩ := q
  obtain ⟨hs, hn, he, hw, hc, hv, hm⟩ := h
  simp only at hs hn he hw hc hv hm
  subst hs hn he
  cases s' with
  | state0 =>
    cases hstart : utf8Start ch with
    | some first =>
      simp only [ArticleParser.parseState, hstart]
      split_ifs
      · exact ⟨.of_neither rfl rfl rfl rfl rfl, rfl⟩
      · exact ⟨.of_neither rfl rfl rfl rfl rfl, rfl⟩
      · exact ⟨⟨rfl, rfl, rfl, fun _ => rfl, fun _ => rfl, fun _ => rfl, fun _ => rfl⟩, rfl⟩
    | none =>
      simp only [ArticleParser.parseState, hstart]
      split_ifs
      · exact ⟨.of_neither rfl rfl rfl rfl rfl, rfl⟩
      · exact ⟨.of_neither rfl rfl rfl rfl rfl, rfl⟩
      · exact ⟨.of_word rfl rfl rfl rfl rfl, rfl⟩
      · exact ⟨.of_neither rfl rfl rfl rfl rfl, rfl⟩
  | stateTag0 =>
    simp only [ArticleParser.parseState]
    split_ifs
    · exact ⟨.of_word rfl rfl rfl rfl rfl, rfl⟩
    · exact ⟨.of_word rfl rfl rfl rfl rfl, rfl⟩
    · exact ⟨.of_neither rfl rfl rfl rfl rfl, rfl⟩
  | stateTag | stateEndtag =>
    obtain rfl := hw rfl
    simp only [ArticleParser.parseState]
    split_ifs
    · exact ⟨.of_neither rfl rfl rfl rfl rfl, rfl⟩
    · exact ⟨.of_word rfl rfl rfl rfl rfl, rfl⟩
    · exact ⟨.of_neither rfl rfl rfl rfl rfl, rfl⟩
  | stateTagskip =>
    simp only [ArticleParser.parseState]
    split_ifs
    · exact ⟨.of_neither rfl rfl rfl rfl rfl, rfl⟩
    · exact ⟨.of_neither rfl rfl rfl rfl rfl, rfl⟩
  | stateEnt =>
    simp only [ArticleParser.parseState]
    split_ifs
    · exact hexpand _ _ (.of_neither rfl rfl rfl rfl rfl)
    · exact ⟨.of_neither rfl rfl rfl rfl rfl, rfl⟩
  | stateWord =>
    obtain rfl := hw rfl
    cases hstart : utf8Start ch with
    | some first =>
      simp only [ArticleParser.parseState, hstart]
      split_ifs
      · exact ⟨.of_word rfl rfl rfl rfl rfl, rfl⟩
      · exact ⟨⟨rfl, rfl, rfl, fun _ => rfl, fun _ => rfl, fun _ => rfl, fun _ => rfl⟩, rfl⟩
    | none =>
      simp only [ArticleParser.parseState, hstart]
      split_ifs
      · exact ⟨.of_word rfl rfl rfl rfl rfl, rfl⟩
      · exact ⟨.of_word rfl rfl rfl rfl rfl, rfl⟩
      · refine ⟨.of_neither rfl rfl rfl rfl rfl, ?_⟩
        simp only [wordPos, wordPos_shift, List.map_cons, List.map_nil, ParseEvent.shift]
      · refine ⟨.of_neither rfl rfl rfl rfl rfl, ?_⟩
        simp only [wordPos, wordPos_shift, List.map_cons, List.map_nil, ParseEvent.shift]
  | stateWordent =>
    obtain rfl := hw rfl
    simp only [ArticleParser.parseState]
    split_ifs
    · exact hexpand _ _ (.of_word rfl rfl rfl rfl rfl)
    · exact ⟨.of_word rfl rfl rfl rfl rfl, rfl⟩
  | stateUtf8 =>
    obtain rfl := hw rfl
    obtain rfl := hc rfl
    obtain rfl := hv rfl
    obtain rfl := hm rfl
    simp only [ArticleParser.parseState, reduceCtorEq, if_false]
    split_ifs
    · exact ⟨.of_word rfl rfl rfl rfl rfl, rfl⟩
    · exact ⟨.of_neither rfl rfl rfl rfl rfl, rfl⟩
    · exact ⟨⟨rfl, rfl, rfl, fun _ => rfl, fun _ => rfl, fun _ => rfl, fun _ => rfl⟩, rfl⟩
    · exact ⟨.of_neither rfl rfl rfl rfl rfl, rfl⟩
  | stateWordutf8 =>
    obtain rfl := hw rfl
    obtain rfl := hc rfl
    obtain rfl := hv rfl
    obtain rfl := hm rfl
    have hlast (len char : UInt32) : n + k - len - char + 1 = n - len - char + 1 + k := by grind
    simp only [ArticleParser.parseState, if_true]
    split_ifs
    · exact ⟨.of_word rfl rfl rfl rfl rfl, rfl⟩
    · refine ⟨.of_neither rfl rfl rfl rfl rfl, ?_⟩
      simp only [wordPos, hlast, List.map_cons, List.map_nil, ParseEvent.shift]
    · exact ⟨⟨rfl, rfl, rfl, fun _ => rfl, fun _ => rfl, fun _ => rfl, fun _ => rfl⟩, rfl⟩
    · refine ⟨.of_neither rfl rfl rfl rfl rfl, ?_⟩
      simp only [wordPos, wordPos_shift, List.map_cons, List.map_nil, ParseEvent.shift]

theorem Shifted.parseWith (h : Shifted k p q)
    {expand : ArticleParser → ArticleParser × List ParseEvent}
    (hexpand : ∀ p q, Shifted k p q → ShiftedResult k (expand p) (expand q)) (ch : UInt8) :
    ShiftedResult k (parseWith zimIsalnum expand p ch) (parseWith zimIsalnum expand q ch) := by
  obtain ⟨hnext, hevents⟩ := h.parseState zimIsalnum hexpand ch
  refine ⟨⟨hnext.state, ?_, hnext.entity, hnext.word, hnext.utf8char, hnext.utf8value,
    hnext.utf8counter⟩, hevents⟩
  simp only [ArticleParser.parseWith, hnext.pos]
  grind

theorem Shifted.parseEach (h : Shifted k p q)
    {parse : ArticleParser → UInt8 → ArticleParser × List ParseEvent}
    (hparse : ∀ p q ch, Shifted k p q → ShiftedResult k (parse p ch) (parse q ch)) (str : Bytes) :
    ShiftedResult k (parseEach parse p str) (parseEach parse q str) := by
  induction str generalizing p q with
  | nil => exact ⟨h, rfl⟩
  | cons ch str ih =>
    obtain ⟨hnext, hevents⟩ := hparse p q ch h
    obtain ⟨hlast, hmore⟩ := ih hnext
    refine ⟨hlast, ?_⟩
    simp only [ArticleParser.parseEach, hevents, hmore, List.map_append]

theorem Shifted.expandWith (h : Shifted k p q)
    {parse : ArticleParser → UInt8 → ArticleParser × List ParseEvent}
    (hparse : ∀ p q ch, Shifted k p q → ShiftedResult k (parse p ch) (parse q ch)) :
    ShiftedResult k (expandWith parse p) (expandWith parse q) := by
  have hclear {r r' : ArticleParser × List ParseEvent} (hr : ShiftedResult k r r') :
      ShiftedResult k ({ r.1 with entity := [] }, r.2) ({ r'.1 with entity := [] }, r'.2) :=
    ⟨⟨hr.1.state, hr.1.pos, rfl, hr.1.word, hr.1.utf8char, hr.1.utf8value, hr.1.utf8counter⟩, hr.2⟩
  unfold ArticleParser.expandWith
  rw [h.entity]
  cases findEntity p.entity with
  | none => exact hclear (hparse p q _ h)
  | some str => exact hclear (h.parseEach hparse str)

theorem Shifted.parse (h : Shifted k p q) (ch : UInt8) :
    ShiftedResult k (parse zimIsalnum p ch) (parse zimIsalnum q ch) := by
  apply h.parseWith
  intro p q h
  apply h.expandWith
  intro p q ch h
  exact h.parseWith zimIsalnum (fun _ _ h => ⟨h, rfl⟩) ch

theorem Shifted.endparse (h : Shifted k p q) :
    q.endparse.2 = p.endparse.2.map (ParseEvent.shift k) := by
  obtain ⟨s, w, e, n, c, v, m⟩ := p
  obtain ⟨s', w', e', n', c', v', m'⟩ := q
  obtain ⟨hs, hn, he, hw, -, -, -⟩ := h
  simp only at hs hn he hw
  subst hs hn he
  cases s' with
  | stateWord | stateWordent =>
    obtain rfl := hw rfl
    simp only [ArticleParser.endparse, wordPos, wordPos_shift, List.map_cons, List.map_nil,
      ParseEvent.shift]
  | stateWordutf8 =>
    obtain rfl := hw rfl
    simp only [ArticleParser.endparse, wordPos, wordPos_shift]
    split_ifs <;> rfl
  | _ => rfl

theorem Shifted.eventsOf (h : Shifted k p q) (str : Bytes) :
    eventsOf zimIsalnum q str = (eventsOf zimIsalnum p str).map (ParseEvent.shift k) := by
  obtain ⟨hlast, hevents⟩ := h.parseEach (fun p q ch h => h.parse zimIsalnum ch) str
  rw [ArticleParser.eventsOf, ArticleParser.eventsOf, List.map_append]
  exact congrArg₂ _ hevents hlast.endparse

end Shifted

section Title
variable (zimIsalnum : UInt32 → Bool) {p : ArticleParser}

/-- The name of a reference is only kept inside of it. -/
def Settled (p : ArticleParser) : Prop :=
  p.entity ≠ [] → p.state = .stateEnt ∨ p.state = .stateWordent

theorem Settled.of_nil (h : p.entity = []) : Settled p := fun hne => absurd h hne

theorem Settled.parse (h : Settled p) (ch : UInt8) : Settled (parse zimIsalnum p ch).1 := by
  rw [parse_run]
  -- outside of a reference the name is empty, and an expansion clears it
  have hkept (r : ArticleParser) (hr : r.entity = p.entity)
      (hs : p.state ≠ .stateEnt ∧ p.state ≠ .stateWordent) : Settled r := by
    intro hne
    rcases h (hr ▸ hne) with hent | hent
    · exact absurd hent hs.1
    · exact absurd hent hs.2
  cases hs : p.state with
  | stateEnt =>
    simp only [parseState, hs]
    split_ifs
    · exact .of_nil rfl
    · exact fun _ => .inl rfl
  | stateWordent =>
    simp only [parseState, hs]
    split_ifs
    · exact .of_nil rfl
    · exact fun _ => .inr rfl
  | state0 | stateWord =>
    apply hkept _ _ (by rw [hs]; decide)
    cases hstart : utf8Start ch <;> simp only [parseState, hs, hstart] <;> split_ifs <;> rfl
  | stateTag0 | stateTag | stateEndtag | stateTagskip =>
    apply hkept _ _ (by rw [hs]; decide)
    simp only [parseState, hs]
    split_ifs <;> rfl
  | stateUtf8 | stateWordutf8 =>
    apply hkept _ _ (by rw [hs]; decide)
    simp only [parseState, hs]
    split_ifs <;> rfl

theorem Settled.parseString (h : Settled p) (str : Bytes) :
    Settled (parseString zimIsalnum p str).1 := by
  induction str generalizing p with
  | nil => exact h
  | cons ch str ih => exact ih (h.parse zimIsalnum ch)

/-- The parser has nothing open but possibly a word, or a reference without a name in it. -/
def Harmless (p : ArticleParser) : Prop :=
  p.state = .state0 ∨ p.state = .stateWord ∨ p.state = .stateWordent ∧ p.entity = []

instance (p : ArticleParser) : Decidable (Harmless p) :=
  inferInstanceAs (Decidable (_ ∨ _ ∨ _ ∧ _))

/-- From there `endparse` leaves the parser as a new one, but for the position. -/
theorem Harmless.shifted (h : Harmless p) (hsettled : Settled p) :
    Shifted p.pos .new p.endparse.1 := by
  have hnew {q : ArticleParser} (hs : q.state = .state0) (he : q.entity = [])
      (hn : q.pos = p.pos) : Shifted p.pos .new q :=
    .of_neither hs (by rw [hn]; exact (UInt32.zero_add _).symm) he rfl rfl
  have hempty (hs : p.state ≠ .stateEnt ∧ p.state ≠ .stateWordent) : p.entity = [] := by
    by_contra hne
    rcases hsettled hne with hent | hent
    · exact hs.1 hent
    · exact hs.2 hent
  rcases h with hs | hs | ⟨hs, he⟩
  · have hend : p.endparse.1 = p := by simp only [endparse, hs]
    rw [hend]
    exact hnew hs (hempty (by rw [hs]; decide)) rfl
  · simp only [endparse, hs]
    exact hnew rfl (hempty (by rw [hs]; decide)) rfl
  · simp only [endparse, hs]
    exact hnew rfl he rfl

/-- The name whose expansion is empty. -/
def shy : Bytes := [chr 's', chr 'h', chr 'y']

/-- A word with a reference in it. -/
def hyphenated : Bytes := chr 'a' :: chr '&' :: (shy ++ [chr ';', chr 'b'])

theorem findEntity_append_shy {e : Bytes} (he : e ≠ []) : findEntity (e ++ shy) = none := by
  have htable : ∀ entry ∈ entityTable, shy <:+ entry.1.toList.map chr →
      entry.1.toList.map chr = shy := by decide +kernel
  rw [findEntity, Option.map_eq_none_iff, List.find?_eq_none]
  intro entry hentry heq
  have heq := of_decide_eq_true heq
  have hsuffix := htable entry hentry ⟨e, heq.symm⟩
  rw [hsuffix, List.self_eq_append_left] at heq
  exact he heq

/-- Behind a name that is still there the reference is an unknown one, and ends the word. -/
theorem eventsOf_hyphenated {q : ArticleParser} (hq : Ready q []) (he : q.entity ≠ []) :
    (eventsOf zimIsalnum q hyphenated).length = 2 := by
  have ha := hq.parse_ascii zimIsalnum (b := chr 'a') (by decide) (by decide) (by decide)
  have halnum : isalnum (chr 'a') = true := by decide
  rw [if_pos halnum] at ha
  have hword : Ready (parse zimIsalnum q (chr 'a')).1 [tolower (chr 'a')] := by
    rw [ha]
    exact .inside rfl rfl (List.cons_ne_nil _ _)
  have hentity : (parse zimIsalnum q (chr 'a')).1.entity = q.entity := by rw [ha]
  obtain ⟨hamp, hampEvents⟩ := hword.parse_ampersand zimIsalnum
  obtain ⟨hname, hnameEvents⟩ :=
    hamp.parse_names zimIsalnum (show chr ';' ∉ shy by decide)
  rw [hentity] at hname
  obtain ⟨hready, hendEvents, -⟩ := hname.parse_unknown zimIsalnum (findEntity_append_shy he)
  have hb := hready.parse_ascii zimIsalnum (b := chr 'b') (by decide) (by decide) (by decide)
  have hbalnum : isalnum (chr 'b') = true := by decide
  rw [if_pos hbalnum] at hb
  have haEvents : (parse zimIsalnum q (chr 'a')).2 = [] := by rw [ha]
  simp only [eventsOf, hyphenated, parseString_cons, parseString_append, parseString_nil, haEvents,
    hampEvents, hnameEvents, hendEvents, hb, endparse]
  rfl

/-- Whatever else is open at the end of a title shows in the number of events of some data. -/
theorem exists_data (h : ¬ Harmless p) : ∃ data,
    (eventsOf zimIsalnum p.endparse.1 data).length ≠ (eventsOf zimIsalnum .new data).length := by
  obtain ⟨s, w, e, n, c, v, m⟩ := p
  cases s with
  | state0 => exact absurd (.inl rfl) h
  | stateWord => exact absurd (.inr (.inl rfl)) h
  | stateWordent =>
    have he : e ≠ [] := fun he => h (.inr (.inr ⟨rfl, he⟩))
    refine ⟨hyphenated, ?_⟩
    rw [eventsOf_hyphenated zimIsalnum (.outside rfl) he]
    exact fun heq => absurd (show 2 = 1 from heq) (by decide)
  | stateWordutf8 =>
    exact ⟨[chr ' ', chr 'a'], fun heq => absurd (show 2 = 1 from heq) (by decide)⟩
  | stateTag0 | stateTag | stateEndtag | stateTagskip | stateEnt | stateUtf8 =>
    exact ⟨[chr 'a'], fun heq => absurd (show 0 = 1 from heq) (by decide)⟩

theorem settled_new : Settled .new := .of_nil rfl

/-- The events of the data are those of a new parser, but for one shift of the positions, for
all data exactly when the title leaves the parser harmless. -/
theorem parseData_shifted_iff (title : Bytes) :
    ((∃ k, ∀ aid data, (Article.mk aid title data).parseData zimIsalnum =
        (eventsOf zimIsalnum .new data).map (ParseEvent.shift k)) ↔
      Harmless (parseString zimIsalnum .new title).1) ∧
    ((∀ aid data, ∃ k, (Article.mk aid title data).parseData zimIsalnum =
        (eventsOf zimIsalnum .new data).map (ParseEvent.shift k)) ↔
      Harmless (parseString zimIsalnum .new title).1) := by
  have hdata (aid : UInt32) (data : Bytes) : (Article.mk aid title data).parseData zimIsalnum =
      eventsOf zimIsalnum (parseString zimIsalnum .new title).1.endparse.1 data := rfl
  have hsettled := settled_new.parseString zimIsalnum title
  have hshift (h : Harmless (parseString zimIsalnum .new title).1) :
      ∃ k, ∀ aid data, (Article.mk aid title data).parseData zimIsalnum =
        (eventsOf zimIsalnum .new data).map (ParseEvent.shift k) :=
    ⟨_, fun aid data => (hdata aid data).trans ((h.shifted hsettled).eventsOf zimIsalnum data)⟩
  have hharmless (h : ∀ aid data, ∃ k, (Article.mk aid title data).parseData zimIsalnum =
      (eventsOf zimIsalnum .new data).map (ParseEvent.shift k)) :
      Harmless (parseString zimIsalnum .new title).1 := by
    by_contra hnot
    obtain ⟨data, hlength⟩ := exists_data zimIsalnum hnot
    obtain ⟨k, hk⟩ := h 0 data
    apply hlength
    rw [← hdata 0 data, hk, List.length_map]
  constructor
  · refine ⟨fun h => hharmless fun aid data => ?_, hshift⟩
    obtain ⟨k, hk⟩ := h
    exact ⟨k, hk aid data⟩
  · refine ⟨hharmless, fun h aid data => ?_⟩
    obtain ⟨k, hk⟩ := hshift h
    exact ⟨k, hk aid data⟩

/-- A title with an ampersand swallows the data up to the next semicolon. -/
theorem parseData_ampersand :
    (Article.mk 0 [chr '&'] [chr 'a']).parseData (fun _ => false) = [] ∧
      eventsOf (fun _ => false) .new [chr 'a'] = [.onWord [chr 'a'] 0] := by decide

end Title
end ArticleParser
end Zim.Writer
