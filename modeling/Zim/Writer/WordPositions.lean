import Zim.Writer.WordStarts

/-! The positions of the words, against the offsets of their first bytes. -/
namespace Zim.Writer.ArticleParser
open Cxx Utf8

/-- The states outside of words, characters and references. -/
def State.outside : State → Bool
  | .state0 | .stateTag0 | .stateTag | .stateEndtag | .stateTagskip => true
  | _ => false

/-- What one character that ends no reference does to the parser. -/
inductive Moves (p : ArticleParser) (ch : UInt8) (q : ArticleParser) (events : List ParseEvent) :
    Prop
  | outside : p.state ≠ .stateWord → p.state ≠ .stateWordutf8 → State.outside q.state = true →
      (∀ event ∈ events, isWord event = false) → Moves p ch q events
  | begins : p.state = .state0 → q.state = .stateWord → q.word.length = 1 → ch ≠ chr '&' →
      events = [] → Moves p ch q events
  | beginsChar : p.state = .state0 → q.state = .stateUtf8 → q.word = [] →
      q.utf8char.length = 1 → ch ≠ chr '&' → events = [] → Moves p ch q events
  | opens : p.state = .state0 → q.state = .stateEnt → ch = chr '&' → events = [] →
      Moves p ch q events
  | names : p.state = .stateEnt → q.state = .stateEnt → events = [] → Moves p ch q events
  | grows : p.state = .stateWord → q.state = .stateWord →
      q.word.length = p.word.length + 1 → ch ≠ chr '&' → events = [] → Moves p ch q events
  | wordOpens : p.state = .stateWord → q.state = .stateWordent → q.word = p.word →
      ch = chr '&' → events = [] → Moves p ch q events
  | wordNames : p.state = .stateWordent → q.state = .stateWordent → q.word = p.word →
      events = [] → Moves p ch q events
  | wordChar : p.state = .stateWord → q.state = .stateWordutf8 → q.word = p.word →
      q.utf8char.length = 1 → ch ≠ chr '&' → events = [] → Moves p ch q events
  | more : p.state = .stateUtf8 ∨ p.state = .stateWordutf8 → q.state = p.state →
      q.word = p.word → q.utf8char.length = p.utf8char.length + 1 → ch ≠ chr '&' →
      events = [] → Moves p ch q events
  | charGrows : p.state = .stateUtf8 ∨ p.state = .stateWordutf8 → q.state = .stateWord →
      q.word.length = p.word.length + p.utf8char.length + 1 → ch ≠ chr '&' → events = [] →
      Moves p ch q events
  | ends : p.state = .stateWord → State.outside q.state = true →
      events = [.onWord p.word (p.pos - UInt32.ofNat p.word.length)] → Moves p ch q events
  | charEnds : p.state = .stateWordutf8 → State.outside q.state = true →
      q.utf8char.length = p.utf8char.length + (if ch >>> 6 = 2 then 1 else 0) →
      events = [.onWord p.word (p.pos - UInt32.ofNat p.word.length -
        UInt32.ofNat q.utf8char.length + if ch >>> 6 = 2 then 1 else 0)] → Moves p ch q events

section Moves
variable (zimIsalnum : UInt32 → Bool) {p : ArticleParser}

theorem parse_pos {ch : UInt8} (h : expanding p ch = none) :
    (parse zimIsalnum p ch).1.pos = p.pos + 1 := by
  rw [parse_run]
  cases hs : p.state with
  | state0 | stateWord =>
    cases hstart : utf8Start ch <;> simp only [parseState, hs, hstart] <;> split_ifs <;> rfl
  | stateEnt | stateWordent =>
    simp only [expanding, hs] at h
    split_ifs at h with hch
    simp only [parseState, hs, if_neg hch]
  | stateTag0 | stateTag | stateEndtag | stateTagskip | stateUtf8 | stateWordutf8 =>
    simp only [parseState, hs]
    split_ifs <;> rfl

theorem continuation_ne_amp {ch : UInt8} (hch : ch >>> 6 = 2) : ch ≠ chr '&' := by
  rintro rfl
  revert hch
  decide

theorem start_ne_amp {ch : UInt8} {first : UInt32 × UInt32} (hstart : utf8Start ch = some first) :
    ch ≠ chr '&' := by
  rintro rfl
  rw [show utf8Start (chr '&') = none by decide] at hstart
  cases hstart

theorem isWord_nil : ∀ event ∈ ([] : List ParseEvent), isWord event = false :=
  List.forall_mem_nil _

theorem moves_text (hs : p.state = .state0) (ch : UInt8) :
    Moves p ch (parse zimIsalnum p ch).1 (parse zimIsalnum p ch).2 := by
  have hword : p.state ≠ .stateWord := by rw [hs]; decide
  have hchar : p.state ≠ .stateWordutf8 := by rw [hs]; decide
  rw [parse_run]
  cases hstart : utf8Start ch with
  | some first =>
    simp only [parseState, hs, hstart]
    split_ifs with hlt hamp
    · exact .outside hword hchar rfl isWord_nil
    · exact .opens hs rfl hamp rfl
    · exact .beginsChar hs rfl rfl rfl (start_ne_amp hstart) rfl
  | none =>
    simp only [parseState, hs, hstart]
    split_ifs with hlt hamp halnum
    · exact .outside hword hchar rfl isWord_nil
    · exact .opens hs rfl hamp rfl
    · exact .begins hs rfl rfl hamp rfl
    · exact .outside hword hchar (by rw [hs]; rfl) isWord_nil

theorem moves_word (hs : p.state = .stateWord) (ch : UInt8) :
    Moves p ch (parse zimIsalnum p ch).1 (parse zimIsalnum p ch).2 := by
  rw [parse_run]
  cases hstart : utf8Start ch with
  | some first =>
    simp only [parseState, hs, hstart]
    split_ifs with hamp
    · exact .wordOpens hs rfl rfl hamp rfl
    · exact .wordChar hs rfl rfl rfl hamp rfl
  | none =>
    simp only [parseState, hs, hstart]
    split_ifs with hamp halnum hlt
    · exact .wordOpens hs rfl rfl hamp rfl
    · exact .grows hs rfl List.length_append hamp rfl
    · exact .ends hs rfl rfl
    · exact .ends hs rfl rfl

/-- Within a character that is not of a word yet. -/
theorem moves_char (hs : p.state = .stateUtf8) (ch : UInt8) :
    Moves p ch (parse zimIsalnum p ch).1 (parse zimIsalnum p ch).2 := by
  have hword : p.state ≠ .stateWord := by rw [hs]; decide
  have hchar : p.state ≠ .stateWordutf8 := by rw [hs]; decide
  rw [parse_run]
  simp only [parseState, hs, reduceCtorEq, if_false]
  split_ifs with hch hlast halnum
  · refine .charGrows (.inl hs) rfl ?_ (continuation_ne_amp hch) rfl
    simp only [List.length_append, List.length_singleton, Nat.add_assoc]
  · exact .outside hword hchar rfl isWord_nil
  · exact .more (.inl hs) hs.symm rfl List.length_append (continuation_ne_amp hch) rfl
  · exact .outside hword hchar rfl isWord_nil

/-- Within a character that goes on a word, or ends it. -/
theorem moves_wordChar (hs : p.state = .stateWordutf8) (ch : UInt8) :
    Moves p ch (parse zimIsalnum p ch).1 (parse zimIsalnum p ch).2 := by
  rw [parse_run]
  simp only [parseState, hs, if_true]
  split_ifs with hch hlast halnum
  · refine .charGrows (.inr hs) rfl ?_ (continuation_ne_amp hch) rfl
    simp only [List.length_append, List.length_singleton, Nat.add_assoc]
  · refine .charEnds hs rfl ?_ ?_
    · rw [if_pos hch]
      exact List.length_append
    · rw [if_pos hch]
      rfl
  · exact .more (.inr hs) hs.symm rfl List.length_append (continuation_ne_amp hch) rfl
  · refine .charEnds hs rfl ?_ ?_
    · rw [if_neg hch]
      rfl
    · rw [if_neg hch, UInt32.add_zero]
      rfl

theorem parse_moves {ch : UInt8} (h : expanding p ch = none) :
    Moves p ch (parse zimIsalnum p ch).1 (parse zimIsalnum p ch).2 := by
  have htag {event : ParseEvent} (he : isWord event = false) :
      ∀ event' ∈ [event], isWord event' = false := List.forall_mem_singleton.mpr he
  cases hs : p.state with
  | state0 => exact moves_text zimIsalnum hs ch
  | stateTag0 | stateTagskip =>
    have hword : p.state ≠ .stateWord := by rw [hs]; decide
    have hchar : p.state ≠ .stateWordutf8 := by rw [hs]; decide
    have hout : State.outside p.state = true := by rw [hs]; rfl
    rw [parse_run]
    simp only [parseState, hs]
    split_ifs <;> first
      | exact .outside hword hchar rfl isWord_nil
      | exact .outside hword hchar hout isWord_nil
  | stateTag | stateEndtag =>
    have hword : p.state ≠ .stateWord := by rw [hs]; decide
    have hchar : p.state ≠ .stateWordutf8 := by rw [hs]; decide
    rw [parse_run]
    simp only [parseState, hs]
    split_ifs
    · exact .outside hword hchar rfl (htag rfl)
    · exact .outside hword hchar rfl isWord_nil
    · exact .outside hword hchar rfl (htag rfl)
  | stateEnt =>
    simp only [expanding, hs] at h
    split_ifs at h with hch
    rw [parse_run]
    simp only [parseState, hs, if_neg hch]
    exact .names hs rfl rfl
  | stateWord => exact moves_word zimIsalnum hs ch
  | stateWordent =>
    simp only [expanding, hs] at h
    split_ifs at h with hch
    rw [parse_run]
    simp only [parseState, hs, if_neg hch]
    exact .wordNames hs rfl rfl rfl
  | stateUtf8 => exact moves_char zimIsalnum hs ch
  | stateWordutf8 => exact moves_wordChar zimIsalnum hs ch

end Moves

section Balance

/-- No character of an expansion was parsed, and no reference begins from an offset on. -/
def Clean (read : Bytes) (expanded s : ℕ) : Prop := expanded = 0 ∧ chr '&' ∉ read.drop s

/-- Of the characters that were parsed, those in front of an offset and `n` more are no more than
all of them, and as many exactly in a clean text. -/
structure Balanced (read : Bytes) (expanded s n : ℕ) : Prop where
  start_le : s ≤ read.length
  le : s + n ≤ read.length + expanded
  clean_iff : Clean read expanded s ↔ s + n = read.length + expanded

/-- The offset of the word or of the character that the parser is in. -/
def Tracked.Current (t : Tracked) (s : ℕ) : Prop :=
  match t.parser.state with
  | .stateWord | .stateWordent | .stateWordutf8 => s = t.wordStart
  | .stateUtf8 => s = t.charStart
  | _ => False

/-- What one more character does to the balance. -/
structure Feeds (t : Tracked) (offset : ℕ) (ch : UInt8) (read : Bytes) (expanded : ℕ) : Prop where
  parsed : read.length + expanded = t.read.length + t.expanded + 1
  read_le : t.read.length ≤ read.length
  start : ch ≠ chr '&' → Balanced read expanded offset 1
  opened : ch = chr '&' → offset < read.length
  takes : ∀ s n, t.Current s → ch ≠ chr '&' → Balanced t.read t.expanded s n →
    Balanced read expanded s (n + 1)
  skips : ∀ s n, ch = chr '&' ∨ ¬ Clean t.read t.expanded s → Balanced t.read t.expanded s n →
    Balanced read expanded s n ∧ ¬ Clean read expanded s

/-- The parser is behind an ampersand, and whatever word it is in is not clean. -/
structure Soiled (t : Tracked) : Prop where
  opened : t.opened < t.read.length
  current : ∀ s, t.Current s → ¬ Clean t.read t.expanded s

theorem clean_append {read : Bytes} {expanded s : ℕ} (hs : s ≤ read.length) (ch : UInt8) :
    Clean (read ++ [ch]) expanded s ↔ Clean read expanded s ∧ ch ≠ chr '&' := by
  rw [Clean, Clean, List.drop_append_of_le_length hs, List.mem_append, List.mem_singleton, not_or,
    and_assoc, ne_comm]

theorem feeds_input (t : Tracked) (ch : UInt8) :
    Feeds t t.read.length ch (t.read ++ [ch]) t.expanded := by
  have hlen : (t.read ++ [ch]).length = t.read.length + 1 := List.length_append
  refine ⟨by omega, by omega, ?_, by omega, ?_, ?_⟩
  · intro hch
    refine ⟨by omega, by omega, ?_⟩
    rw [clean_append le_rfl, Clean, List.drop_length]
    simp only [List.not_mem_nil, not_false_eq_true, and_true, hch, ne_eq]
    omega
  · rintro s n - hch ⟨hstart, hle, hclean⟩
    refine ⟨by omega, by omega, ?_⟩
    rw [clean_append hstart, hclean]
    simp only [hch, ne_eq, not_false_eq_true, and_true]
    omega
  · rintro s n hskip ⟨hstart, hle, hclean⟩
    have hnot : ¬ Clean (t.read ++ [ch]) t.expanded s := by
      rw [clean_append hstart]
      rintro ⟨hkept, hch⟩
      rcases hskip with hskip | hskip
      · exact hch hskip
      · exact hskip hkept
    exact ⟨⟨by omega, by omega, iff_of_false hnot (by omega)⟩, hnot⟩

theorem feeds_expansion {t : Tracked} (h : Soiled t) (ch : UInt8) :
    Feeds t t.opened ch t.read (t.expanded + 1) := by
  have hopened := h.opened
  have hnot (s : ℕ) : ¬ Clean t.read (t.expanded + 1) s := fun hclean => by
    exact absurd hclean.1 (Nat.succ_ne_zero _)
  refine ⟨by omega, le_rfl, ?_, fun _ => hopened, ?_, ?_⟩
  · intro
    exact ⟨by omega, by omega, iff_of_false (hnot _) (by omega)⟩
  · rintro s n hcurrent - ⟨hstart, hle, hclean⟩
    have hne := (not_congr hclean).mp (h.current s hcurrent)
    exact ⟨hstart, by omega, iff_of_false (hnot _) (by omega)⟩
  · rintro s n - ⟨hstart, hle, -⟩
    exact ⟨⟨hstart, by omega, iff_of_false (hnot _) (by omega)⟩, hnot _⟩

end Balance

section Valid
variable (zimIsalnum : UInt32 → Bool) {t : Tracked}

/-- The position counts the characters that were parsed, and those of the word and of the
character that the parser is in balance them. -/
structure Valid (t : Tracked) : Prop where
  pos : t.parser.pos = UInt32.ofNat (t.read.length + t.expanded)
  state :
    match t.parser.state with
    | .stateEnt => t.opened < t.read.length
    | .stateWord => Balanced t.read t.expanded t.wordStart t.parser.word.length
    | .stateWordent => t.opened < t.read.length ∧
        Balanced t.read t.expanded t.wordStart t.parser.word.length ∧
          ¬ Clean t.read t.expanded t.wordStart
    | .stateUtf8 => t.parser.word = [] ∧
        Balanced t.read t.expanded t.charStart t.parser.utf8char.length
    | .stateWordutf8 => 0 < t.parser.utf8char.length ∧
        Balanced t.read t.expanded t.wordStart
          (t.parser.word.length + t.parser.utf8char.length)
    | _ => True

theorem Valid.of_outside (hpos : t.parser.pos = UInt32.ofNat (t.read.length + t.expanded))
    (h : State.outside t.parser.state = true) : Valid t := by
  refine ⟨hpos, ?_⟩
  cases hs : t.parser.state with
  | state0 | stateTag0 | stateTag | stateEndtag | stateTagskip => trivial
  | _ =>
    rw [hs] at h
    cases h

theorem Valid.turn (h : Valid t) {ch : UInt8} (hexpand : expanding t.parser ch = none)
    {offset expanded : ℕ} {read : Bytes} (hf : Feeds t offset ch read expanded) :
    Valid { t.turn zimIsalnum offset ch with read := read, expanded := expanded } := by
  have hv := h.state
  have hpos : (parse zimIsalnum t.parser ch).1.pos = UInt32.ofNat (read.length + expanded) := by
    rw [parse_pos zimIsalnum hexpand, h.pos, hf.parsed, ofNat_succ]
  cases parse_moves zimIsalnum hexpand with
  | outside _ _ hq _ => exact .of_outside hpos hq
  | ends _ hq _ => exact .of_outside hpos hq
  | charEnds _ hq _ _ => exact .of_outside hpos hq
  | begins hp hq hlen hch _ =>
    refine ⟨hpos, ?_⟩
    simp only [Tracked.turn, hp, hq, hlen]
    exact hf.start hch
  | beginsChar hp hq hword hlen hch _ =>
    refine ⟨hpos, ?_⟩
    simp only [Tracked.turn, hp, hq, hlen]
    exact ⟨hword, hf.start hch⟩
  | opens hp hq hch _ =>
    refine ⟨hpos, ?_⟩
    simp only [Tracked.turn, hp, hq]
    exact hf.opened hch
  | names hp hq _ =>
    refine ⟨hpos, ?_⟩
    simp only [hp] at hv
    simp only [Tracked.turn, hp, hq]
    exact hv.trans_le hf.read_le
  | grows hp hq hlen hch _ =>
    refine ⟨hpos, ?_⟩
    simp only [hp] at hv
    simp only [Tracked.turn, hp, hq, hlen]
    exact hf.takes _ _ (by simp only [Tracked.Current, hp]) hch hv
  | wordOpens hp hq hword hch _ =>
    refine ⟨hpos, ?_⟩
    simp only [hp] at hv
    simp only [Tracked.turn, hp, hq, hword]
    exact ⟨hf.opened hch, hf.skips _ _ (.inl hch) hv⟩
  | wordNames hp hq hword _ =>
    refine ⟨hpos, ?_⟩
    simp only [hp] at hv
    simp only [Tracked.turn, hp, hq, hword]
    exact ⟨hv.1.trans_le hf.read_le, hf.skips _ _ (.inr hv.2.2) hv.2.1⟩
  | wordChar hp hq hword hlen hch _ =>
    refine ⟨hpos, ?_⟩
    simp only [hp] at hv
    simp only [Tracked.turn, hp, hq, hword, hlen]
    exact ⟨Nat.one_pos, hf.takes _ _ (by simp only [Tracked.Current, hp]) hch hv⟩
  | more hp hq hword hlen hch _ =>
    refine ⟨hpos, ?_⟩
    rcases hp with hp | hp
    · simp only [hp] at hv
      simp only [Tracked.turn, hp, hq, hword, hlen]
      exact ⟨hv.1, hf.takes _ _ (by simp only [Tracked.Current, hp]) hch hv.2⟩
    · simp only [hp] at hv
      simp only [Tracked.turn, hp, hq, hword, hlen]
      exact ⟨Nat.succ_pos _, hf.takes _ _ (by simp only [Tracked.Current, hp]) hch hv.2⟩
  | charGrows hp hq hlen hch _ =>
    refine ⟨hpos, ?_⟩
    rcases hp with hp | hp
    · simp only [hp] at hv
      simp only [Tracked.turn, hp, hq, hlen, hv.1, List.length_nil, Nat.zero_add]
      exact hf.takes _ _ (by simp only [Tracked.Current, hp]) hch hv.2
    · simp only [hp] at hv
      simp only [Tracked.turn, hp, hq, hlen]
      exact hf.takes _ _ (by simp only [Tracked.Current, hp]) hch hv.2

end Valid

namespace Report

/-- The number of the bytes of an unfinished character that are subtracted. -/
def tail (r : Report) : ℕ := r.charSize - if r.corrected then 1 else 0

/-- The number of the characters that were parsed. -/
def parsed (r : Report) : ℕ := r.read.length + r.expanded

/-- The number of those that belong to the word or are in front of it in the text. -/
def accounted (r : Report) : ℕ := r.start + r.word.length + r.tail

/-- No character of an expansion was parsed, no reference begins in or behind the word, and the
text does not end inside of a character. -/
def Undisturbed (r : Report) : Prop := Clean r.read r.expanded r.start ∧ r.cut = false

/-- How the position is computed, and the balance of the word. -/
structure Sound (r : Report) : Prop where
  counter : r.counter = UInt32.ofNat r.parsed
  pos : r.pos = r.counter - UInt32.ofNat r.word.length - UInt32.ofNat r.charSize +
    if r.corrected then 1 else 0
  corrected : r.corrected = true → 0 < r.charSize
  le : r.accounted ≤ r.parsed
  undisturbed_iff : r.Undisturbed ↔ r.accounted = r.parsed

theorem Sound.of_balanced {r : Report} (hcounter : r.counter = UInt32.ofNat r.parsed)
    (hpos : r.pos = r.counter - UInt32.ofNat r.word.length - UInt32.ofNat r.charSize +
      if r.corrected then 1 else 0)
    (hcorrected : r.corrected = true → 0 < r.charSize)
    (h : Balanced r.read r.expanded r.start (r.word.length + r.tail)) (hcut : r.cut = false) :
    r.Sound := by
  have haccounted : r.accounted = r.start + (r.word.length + r.tail) := Nat.add_assoc ..
  refine ⟨hcounter, hpos, hcorrected, haccounted.trans_le h.le, ?_⟩
  rw [Undisturbed, hcut, haccounted, parsed, ← h.clean_iff]
  exact and_iff_left rfl

end Report

section Sound
variable (zimIsalnum : UInt32 → Bool) {t : Tracked}

theorem reportsOf_nil (t : Tracked) (charSize : ℕ) (corrected cut : Bool)
    {events : List ParseEvent} (h : ∀ event ∈ events, isWord event = false) :
    t.reportsOf charSize corrected cut events = [] := by
  have hevents := reportsOf_event t charSize corrected cut events
  rw [List.filter_eq_nil_iff.mpr fun event he => by rw [h event he]; exact Bool.false_ne_true]
    at hevents
  exact List.map_eq_nil_iff.mp hevents

theorem turnReports_sound (h : Valid t) {ch : UInt8} (hexpand : expanding t.parser ch = none) :
    ∀ r ∈ t.turnReports zimIsalnum ch, r.Sound := by
  have hv := h.state
  have hnone {events : List ParseEvent} (hno : ∀ event ∈ events, isWord event = false)
      (he : (parse zimIsalnum t.parser ch).2 = events) :
      ∀ r ∈ t.turnReports zimIsalnum ch, r.Sound := by
    simp only [Tracked.turnReports, he, reportsOf_nil _ _ _ _ hno, ite_self]
    exact List.forall_mem_nil _
  have hnil : ∀ event ∈ ([] : List ParseEvent), isWord event = false := List.forall_mem_nil _
  cases parse_moves zimIsalnum hexpand with
  | outside _ _ _ hno => exact hnone hno rfl
  | begins _ _ _ _ he => exact hnone hnil he
  | beginsChar _ _ _ _ _ he => exact hnone hnil he
  | opens _ _ _ he => exact hnone hnil he
  | names _ _ he => exact hnone hnil he
  | grows _ _ _ _ he => exact hnone hnil he
  | wordOpens _ _ _ _ he => exact hnone hnil he
  | wordNames _ _ _ he => exact hnone hnil he
  | wordChar _ _ _ _ _ he => exact hnone hnil he
  | more _ _ _ _ _ he => exact hnone hnil he
  | charGrows _ _ _ _ he => exact hnone hnil he
  | ends hp _ he =>
    simp only [hp] at hv
    have hne : t.parser.state ≠ .stateWordutf8 := by rw [hp]; decide
    simp only [Tracked.turnReports, if_neg hne, he, Tracked.reportsOf, List.filterMap_cons,
      List.filterMap_nil, List.forall_mem_singleton]
    apply Report.Sound.of_balanced h.pos _ _ hv rfl
    · simp
    · simp
  | charEnds hp _ hlen he =>
    simp only [hp] at hv
    simp only [Tracked.turnReports, if_pos hp, he, Tracked.reportsOf, List.filterMap_cons,
      List.filterMap_nil, List.forall_mem_singleton]
    have htail : (parse zimIsalnum t.parser ch).1.utf8char.length -
        (if ch >>> 6 = 2 then 1 else 0) = t.parser.utf8char.length := by omega
    apply Report.Sound.of_balanced h.pos _ _ _ rfl
    · simp only [decide_eq_true_eq]
    · rw [decide_eq_true_eq, hlen]
      intro hch
      rw [if_pos hch]
      exact Nat.succ_pos _
    · simp only [Report.tail, decide_eq_true_eq, htail]
      exact hv.2

theorem expanding_of_ne {p : ArticleParser} {ch : UInt8} (hch : ch ≠ chr ';') :
    expanding p ch = none := by
  unfold expanding
  cases p.state with
  | stateEnt | stateWordent => exact if_neg hch
  | _ => rfl

theorem Valid.expand (h : Valid t) (hs : Soiled t) {str : Bytes} (hstr : ∀ ch ∈ str, ch ≠ chr ';') :
    Valid (t.expand zimIsalnum str).1 ∧ Soiled (t.expand zimIsalnum str).1 ∧
      (t.expand zimIsalnum str).1.read = t.read ∧ ∀ r ∈ (t.expand zimIsalnum str).2, r.Sound := by
  induction str generalizing t with
  | nil => exact ⟨h, hs, rfl, List.forall_mem_nil _⟩
  | cons ch str ih =>
    have hexpand := @expanding_of_ne t.parser ch (hstr ch List.mem_cons_self)
    have hnext := h.turn zimIsalnum hexpand (feeds_expansion hs ch)
    have hsoiled : Soiled { t.turn zimIsalnum t.opened ch with expanded := t.expanded + 1 } := by
      constructor
      · simp only [Tracked.turn]
        split <;> exact hs.opened
      · rintro s - ⟨hzero, -⟩
        cases hzero
    obtain ⟨hlast, hsoiled', hread, hreports⟩ :=
      ih hnext hsoiled fun ch hch => hstr ch (List.mem_cons_of_mem _ hch)
    exact ⟨hlast, hsoiled', hread,
      List.forall_mem_append.mpr ⟨turnReports_sound zimIsalnum h hexpand, hreports⟩⟩

/-- The end of a reference: what is expanded is behind its ampersand. -/
theorem Valid.expanding (h : Valid t) {q : ArticleParser} {ch : UInt8}
    (hexpand : ArticleParser.expanding t.parser ch = some q) :
    Valid { t with parser := q } ∧ Soiled { t with parser := q } := by
  have hv := h.state
  cases hs : t.parser.state with
  | stateEnt =>
    simp only [hs] at hv
    simp only [ArticleParser.expanding, hs, Option.ite_none_right_eq_some, Option.some.injEq]
      at hexpand
    obtain ⟨-, rfl⟩ := hexpand
    exact ⟨.of_outside h.pos rfl, hv, fun _ hcurrent => absurd hcurrent id⟩
  | stateWordent =>
    simp only [hs] at hv
    simp only [ArticleParser.expanding, hs, Option.ite_none_right_eq_some, Option.some.injEq]
      at hexpand
    obtain ⟨-, rfl⟩ := hexpand
    refine ⟨⟨h.pos, hv.2.1⟩, hv.1, ?_⟩
    rintro s rfl
    exact hv.2.2
  | _ =>
    simp only [ArticleParser.expanding, hs, reduceCtorEq] at hexpand

theorem Valid.close (h : Valid t) (hs : Soiled t) (ch : UInt8) :
    Valid { t with
      parser := { t.parser with entity := [], pos := t.parser.pos + 1 }
      read := t.read ++ [ch] } := by
  have hv := h.state
  have hf := feeds_input t ch
  have hpos : t.parser.pos + 1 = UInt32.ofNat ((t.read ++ [ch]).length + t.expanded) := by
    rw [h.pos, hf.parsed, ofNat_succ]
  have hopened : t.opened < (t.read ++ [ch]).length := hs.opened.trans_le hf.read_le
  have hskip (s n : ℕ) (hcurrent : t.Current s) := hf.skips s n (.inr (hs.current s hcurrent))
  refine ⟨hpos, ?_⟩
  cases hp : t.parser.state with
  | stateEnt =>
    simp only [hp] at hv ⊢
    exact hopened
  | stateWord =>
    simp only [hp] at hv ⊢
    exact (hskip _ _ (by simp only [Tracked.Current, hp]) hv).1
  | stateWordent =>
    simp only [hp] at hv ⊢
    exact ⟨hopened, hskip _ _ (by simp only [Tracked.Current, hp]) hv.2.1⟩
  | stateUtf8 =>
    simp only [hp] at hv ⊢
    exact ⟨hv.1, (hskip _ _ (by simp only [Tracked.Current, hp]) hv.2).1⟩
  | stateWordutf8 =>
    simp only [hp] at hv ⊢
    exact ⟨hv.1, (hskip _ _ (by simp only [Tracked.Current, hp]) hv.2).1⟩
  | state0 | stateTag0 | stateTag | stateEndtag | stateTagskip => trivial

theorem Valid.step (h : Valid t) (ch : UInt8) :
    Valid (t.step zimIsalnum ch).1 ∧ ∀ r ∈ (t.step zimIsalnum ch).2, r.Sound := by
  rw [Tracked.step]
  cases hexpand : ArticleParser.expanding t.parser ch with
  | none =>
    exact ⟨h.turn zimIsalnum hexpand (feeds_input t ch), turnReports_sound zimIsalnum h hexpand⟩
  | some q =>
    obtain ⟨hvalid, hsoiled⟩ := h.expanding hexpand
    obtain ⟨hlast, hsoiled', hread, hreports⟩ :=
      hvalid.expand zimIsalnum hsoiled (expansionBytes_ne q.entity)
    have hclose := hlast.close hsoiled' ch
    rw [hread] at hclose
    exact ⟨hclose, hreports⟩

theorem endReports_sound (h : Valid t) :
    ∀ r ∈ t.reportsOf 0 false (t.parser.state = .stateWordutf8) t.parser.endparse.2, r.Sound := by
  have hv := h.state
  cases hs : t.parser.state with
  | stateWord =>
    simp only [hs] at hv
    simp only [ArticleParser.endparse, hs, Tracked.reportsOf, List.filterMap_cons,
      List.filterMap_nil, List.forall_mem_singleton, wordPos]
    apply Report.Sound.of_balanced h.pos _ _ hv rfl
    · simp
    · simp
  | stateWordent =>
    simp only [hs] at hv
    simp only [ArticleParser.endparse, hs, Tracked.reportsOf, List.filterMap_cons,
      List.filterMap_nil, List.forall_mem_singleton, wordPos]
    apply Report.Sound.of_balanced h.pos _ _ hv.2.1 rfl
    · simp
    · simp
  | stateWordutf8 =>
    simp only [hs] at hv
    have hle := hv.2.le
    simp only [ArticleParser.endparse, hs]
    split_ifs
    · simp only [Tracked.reportsOf, List.filterMap_cons, List.filterMap_nil,
        List.forall_mem_singleton, wordPos, decide_true]
      refine ⟨h.pos, ?_, ?_, ?_, ?_⟩
      · simp
      · simp
      · simp only [Report.accounted, Report.tail, Report.parsed]
        omega
      · apply iff_of_false
        · rintro ⟨-, hcut⟩
          cases hcut
        · simp only [Report.accounted, Report.tail, Report.parsed]
          omega
    · exact List.forall_mem_nil _
  | _ =>
    simp only [ArticleParser.endparse, hs]
    exact List.forall_mem_nil _

theorem Valid.run (h : Valid t) (str : Bytes) : ∀ r ∈ t.run zimIsalnum str, r.Sound := by
  induction str generalizing t with
  | nil => exact endReports_sound h
  | cons ch str ih =>
    obtain ⟨hnext, hreports⟩ := h.step zimIsalnum ch
    exact List.forall_mem_append.mpr ⟨hreports, ih hnext⟩

theorem reports_sound (str : Bytes) : ∀ r ∈ reports zimIsalnum str, r.Sound := by
  have hnew : Valid .new := .of_outside rfl rfl
  exact hnew.run zimIsalnum str

end Sound

namespace Report

/-- The position is the offset of the first byte of the word, and what it is computed as is not
negative. -/
def IsTrue (r : Report) : Prop :=
  r.pos.toNat = r.start ∧
    r.word.length + r.charSize ≤ r.counter.toNat + if r.corrected then 1 else 0

/-- No difference on the way to the position is negative. -/
def NoBorrow (r : Report) : Prop := r.word.length + r.charSize ≤ r.counter.toNat

/-- The characters that were parsed but not accounted for have gone round the counter. -/
def GoneRound (r : Report) : Prop :=
  r.accounted < r.parsed ∧ 2 ^ 32 ∣ r.parsed - r.accounted

theorem Sound.isTrue_iff_counter {r : Report} (h : r.Sound) :
    r.IsTrue ↔ r.counter.toNat = r.accounted := by
  have hsize : r.word.length + r.charSize =
      r.word.length + r.tail + if r.corrected then 1 else 0 := by
    rw [tail]
    split_ifs with hc
    · have := h.corrected hc
      omega
    · rfl
  have hsum : UInt32.ofNat r.word.length + UInt32.ofNat r.charSize =
      UInt32.ofNat (r.word.length + r.tail) + if r.corrected then 1 else 0 := by
    rw [← UInt32.ofNat_add, hsize, UInt32.ofNat_add]
    split_ifs <;> rfl
  have hpos (hle : r.word.length + r.tail ≤ r.counter.toNat) :
      r.pos.toNat = r.counter.toNat - (r.word.length + r.tail) := by
    have hcounter : r.counter = UInt32.ofNat (r.counter.toNat - (r.word.length + r.tail)) +
        UInt32.ofNat (r.word.length + r.tail) := by
      rw [← UInt32.ofNat_add, Nat.sub_add_cancel hle, UInt32.ofNat_toNat]
    have hdiff : r.pos = UInt32.ofNat (r.counter.toNat - (r.word.length + r.tail)) := by
      rw [h.pos]
      grind
    have hlt := r.counter.toNat_lt
    rw [hdiff, UInt32.toNat_ofNat_of_lt' (by simp only [UInt32.size]; omega)]
  rw [IsTrue, hsize, accounted]
  constructor
  · rintro ⟨hstart, hle⟩
    have := hpos (by omega)
    omega
  · intro hcounter
    have := hpos (by omega)
    exact ⟨by omega, by omega⟩

theorem Sound.isTrue_iff {r : Report} (h : r.Sound) :
    r.IsTrue ↔ r.accounted < 2 ^ 32 ∧ (r.Undisturbed ∨ r.GoneRound) := by
  have hle := h.le
  have hmod : r.counter.toNat = r.parsed % 2 ^ 32 := by rw [h.counter, UInt32.toNat_ofNat']
  rw [h.isTrue_iff_counter, h.undisturbed_iff, GoneRound, hmod]
  omega

theorem Sound.noBorrow_iff {r : Report} (h : r.Sound) (htrue : r.IsTrue) :
    r.NoBorrow ↔ (r.corrected = true → 0 < r.start) := by
  have hcounter := h.isTrue_iff_counter.mp htrue
  rw [NoBorrow, hcounter, accounted, tail]
  by_cases hc : r.corrected = true
  · have := h.corrected hc
    simp only [hc, if_true, forall_const]
    omega
  · simp only [hc, Bool.false_eq_true, if_false, false_imp_iff, iff_true]
    omega

end Report

section Positions
variable (zimIsalnum : UInt32 → Bool)

/-- The calls of `onWord` for a text: the position is the offset of the first byte of the word, and
not computed as a negative number, exactly when it is less than 2^32 up to the end of the word and
nothing else was counted (or a multiple of 2^32 was). Then a difference on the way is negative only
for a word at the beginning of the text with a whole character of several bytes behind it. -/
theorem reports_isTrue_iff (str : Bytes) :
    (reports zimIsalnum str).map Report.event = (eventsOf zimIsalnum .new str).filter isWord ∧
      ∀ r ∈ reports zimIsalnum str,
        (r.pos = r.counter - UInt32.ofNat r.word.length - UInt32.ofNat r.charSize +
          if r.corrected then 1 else 0) ∧
        (r.IsTrue ↔ r.accounted < 2 ^ 32 ∧ (r.Undisturbed ∨ r.GoneRound)) ∧
        (r.IsTrue ∧ r.NoBorrow ↔
          (r.accounted < 2 ^ 32 ∧ (r.Undisturbed ∨ r.GoneRound)) ∧
            (r.corrected = true → 0 < r.start)) := by
  refine ⟨run_events zimIsalnum .new str, fun r hr => ?_⟩
  have hsound := reports_sound zimIsalnum str r hr
  refine ⟨hsound.pos, hsound.isTrue_iff, ?_⟩
  rw [← hsound.isTrue_iff]
  exact and_congr_right hsound.noBorrow_iff

/-- Behind `a` a character is cut, and its first byte is counted. -/
theorem reports_not_true : ¬ ∃ zimIsalnum : UInt32 → Bool, ∀ str,
    ∀ r ∈ reports zimIsalnum str, r.IsTrue := by
  rintro ⟨zimIsalnum, h⟩
  have hreport : ⟨[chr 'a'], 0 + 1 + 1 - UInt32.ofNat 1, 0 + 1 + 1, 0, false, true, 0,
      [chr 'a', 0xc3], 0⟩ ∈ reports zimIsalnum [chr 'a', 0xc3] := List.mem_cons_self
  obtain ⟨hpos, -⟩ := h _ _ hreport
  exact absurd hpos (by decide)

end Positions
end Zim.Writer.ArticleParser
