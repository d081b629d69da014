import Zim.Writer.ParserReferences

/-! Where in the text the first byte of a word is, recorded beside the parser. -/
namespace Zim.Writer.ArticleParser
open Cxx Utf8

/-- A call of `onWord`. Its position is `counter - word.size() - charSize`, or one more where
`corrected`; the word was cut where the text ends inside a character behind it. The other fields
are not of the parser: the offset of the first byte of the word, the bytes that were read before
the call, and the number of the characters of expansions among those that were parsed. -/
structure Report where
  word : Bytes
  pos : UInt32
  counter : UInt32
  charSize : ℕ
  corrected : Bool
  cut : Bool
  start : ℕ
  read : Bytes
  expanded : ℕ

def Report.event (r : Report) : ParseEvent := .onWord r.word r.pos

def isWord : ParseEvent → Bool
  | .onWord _ _ => true
  | _ => false

/-- A parser with the bytes read so far, the number of the characters of expansions, and the
offsets of the first bytes of the word, of the character and of the reference that it is in. An
expansion is at the offset of its reference. -/
structure Tracked where
  parser : ArticleParser
  read : Bytes
  expanded : ℕ
  wordStart : ℕ
  charStart : ℕ
  opened : ℕ

namespace Tracked

def new : Tracked := ⟨.new, [], 0, 0, 0, 0⟩

/-- The calls of `onWord` among some events. -/
def reportsOf (t : Tracked) (charSize : ℕ) (corrected cut : Bool) (events : List ParseEvent) :
    List Report :=
  events.filterMap fun event =>
    match event with
    | .onWord word pos => some
      { word, pos, counter := t.parser.pos, charSize, corrected, cut
        start := t.wordStart
        read := t.read
        expanded := t.expanded }
    | _ => none

section Run
variable (zimIsalnum : UInt32 → Bool)

/-- `parse(char)` for a character at an offset of the text. -/
def turn (t : Tracked) (offset : ℕ) (ch : UInt8) : Tracked :=
  let p := (parse zimIsalnum t.parser ch).1
  { t with
    parser := p
    wordStart :=
      match t.parser.state, p.state with
      | .state0, .stateWord => offset
      | .stateUtf8, .stateWord => t.charStart
      | _, _ => t.wordStart
    charStart :=
      match t.parser.state, p.state with
      | .state0, .stateUtf8 | .stateWord, .stateWordutf8 => offset
      | _, _ => t.charStart
    opened :=
      match t.parser.state, p.state with
      | .state0, .stateEnt | .stateWord, .stateWordent => offset
      | _, _ => t.opened }

/-- Inside a character its size is subtracted, and one is added behind its last byte. -/
def turnReports (t : Tracked) (ch : UInt8) : List Report :=
  let (p, events) := parse zimIsalnum t.parser ch
  if t.parser.state = .stateWordutf8 then
    t.reportsOf p.utf8char.length (ch >>> 6 = 2) false events
  else t.reportsOf 0 false false events

/-- The characters of an expansion. -/
def expand : Tracked → Bytes → Tracked × List Report
  | t, [] => (t, [])
  | t, ch :: str =>
    let t₁ := { t.turn zimIsalnum t.opened ch with expanded := t.expanded + 1 }
    let (t', reports) := expand t₁ str
    (t', t.turnReports zimIsalnum ch ++ reports)

/-- `parse(char)` for the next byte of the text. -/
def step (t : Tracked) (ch : UInt8) : Tracked × List Report :=
  match expanding t.parser ch with
  | some q =>
    let (t', reports) := expand zimIsalnum { t with parser := q } (expansionBytes q.entity)
    ({ t' with
        parser := { t'.parser with entity := [], pos := t'.parser.pos + 1 }
        read := t.read ++ [ch] }, reports)
  | none =>
    ({ t.turn zimIsalnum t.read.length ch with read := t.read ++ [ch] },
      t.turnReports zimIsalnum ch)

/-- The calls of `onWord` for the rest of a text, with those of `endparse`. -/
def run : Tracked → Bytes → List Report
  | t, [] => t.reportsOf 0 false (t.parser.state = .stateWordutf8) t.parser.endparse.2
  | t, ch :: str => (t.step zimIsalnum ch).2 ++ run (t.step zimIsalnum ch).1 str

end Run
end Tracked

section Erasure
variable (zimIsalnum : UInt32 → Bool)

/-- The calls of `onWord` for a text. -/
def reports (str : Bytes) : List Report := Tracked.new.run zimIsalnum str

theorem reportsOf_event (t : Tracked) (charSize : ℕ) (corrected cut : Bool)
    (events : List ParseEvent) :
    (t.reportsOf charSize corrected cut events).map Report.event =
      events.filter isWord := by
  induction events with
  | nil => rfl
  | cons event events ih =>
    cases event with
    | onWord word pos => exact congrArg (ParseEvent.onWord word pos :: ·) ih
    | onTag tag pos => exact ih
    | onEndtag tag pos => exact ih

theorem turnReports_event (t : Tracked) (ch : UInt8) :
    (t.turnReports zimIsalnum ch).map Report.event =
      (parse zimIsalnum t.parser ch).2.filter isWord := by
  rw [Tracked.turnReports]
  split_ifs <;> exact reportsOf_event ..

theorem expand_erased (t : Tracked) (str : Bytes) :
    (t.expand zimIsalnum str).1.parser = (parseString zimIsalnum t.parser str).1 ∧
      (t.expand zimIsalnum str).2.map Report.event =
        (parseString zimIsalnum t.parser str).2.filter isWord := by
  induction str generalizing t with
  | nil => exact ⟨rfl, rfl⟩
  | cons ch str ih =>
    obtain ⟨hparser, hevents⟩ :=
      ih { t.turn zimIsalnum t.opened ch with expanded := t.expanded + 1 }
    refine ⟨hparser, ?_⟩
    rw [Tracked.expand, List.map_append, turnReports_event, hevents, parseString_cons,
      List.filter_append]
    rfl

theorem step_erased (t : Tracked) (ch : UInt8) :
    (t.step zimIsalnum ch).1.parser = (parse zimIsalnum t.parser ch).1 ∧
      (t.step zimIsalnum ch).2.map Report.event =
        (parse zimIsalnum t.parser ch).2.filter isWord := by
  rw [Tracked.step]
  cases hexpand : expanding t.parser ch with
  | none => exact ⟨rfl, turnReports_event zimIsalnum t ch⟩
  | some q =>
    obtain ⟨hparser, hevents⟩ :=
      expand_erased zimIsalnum { t with parser := q } (expansionBytes q.entity)
    rw [parse_expanding zimIsalnum hexpand]
    refine ⟨?_, hevents⟩
    simp only [hparser]

/-- What is recorded has no influence: the calls are those of the parser. -/
theorem run_events (t : Tracked) (str : Bytes) :
    (t.run zimIsalnum str).map Report.event =
      (eventsOf zimIsalnum t.parser str).filter isWord := by
  induction str generalizing t with
  | nil => exact reportsOf_event ..
  | cons ch str ih =>
    obtain ⟨hparser, hevents⟩ := step_erased zimIsalnum t ch
    rw [Tracked.run, List.map_append, hevents, ih, hparser, eventsOf_cons, List.filter_append]

end Erasure
end Zim.Writer.ArticleParser
