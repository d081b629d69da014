import Zim.Writer.IndexerLaw

/-! The bytes of the words of an article: none of them is 0, whatever the text and whatever counts
as a letter, so that every word can be the url of an entry. -/
namespace Zim.Writer
open Cxx
namespace ArticleParser

/-- Neither the word nor the character in front of the parser has a 0. -/
def NoZero (p : ArticleParser) : Prop := 0 ∉ p.word ∧ 0 ∉ p.utf8char

def WordsNoZero (events : List ParseEvent) : Prop :=
  ∀ word pos, .onWord word pos ∈ events → 0 ∉ word

/-- A parser and the events of a call. -/
def CallNoZero (r : ArticleParser × List ParseEvent) : Prop := NoZero r.1 ∧ WordsNoZero r.2

theorem wordsNoZero_nil : WordsNoZero [] := fun _ _ h => by cases h

theorem wordsNoZero_word {word : Bytes} (h : 0 ∉ word) (pos : UInt32) :
    WordsNoZero [.onWord word pos] := by
  intro w q hw
  cases List.mem_singleton.mp hw
  exact h

theorem WordsNoZero.append {events more : List ParseEvent} (h : WordsNoZero events)
    (h' : WordsNoZero more) : WordsNoZero (events ++ more) := by
  intro word pos hw
  rcases List.mem_append.mp hw with hw | hw
  · exact h word pos hw
  · exact h' word pos hw

theorem isalnum_ne_zero {ch : UInt8} (h : isalnum ch = true) : ch ≠ 0 := by
  rintro rfl
  exact absurd h (by decide)

theorem tolower_ne_zero {ch : UInt8} (h : isalnum ch = true) : tolower ch ≠ 0 := by
  unfold tolower
  split_ifs with hupper
  · simp only [Bool.and_eq_true, decide_eq_true_eq, UInt8.le_iff_toNat_le] at hupper
    intro hzero
    have hsum := congrArg UInt8.toNat hzero
    simp only [UInt8.toNat_add, UInt8.reduceToNat] at hupper hsum
    omega
  · exact isalnum_ne_zero h

theorem utf8Start_ne_zero {ch : UInt8} {first : UInt32 × UInt32} (h : utf8Start ch = some first) :
    ch ≠ 0 := by
  rintro rfl
  cases h

theorem continuation_ne_zero {ch : UInt8} (h : ch >>> 6 = 2) : ch ≠ 0 := by
  rintro rfl
  exact absurd h (by decide)

theorem notMem_concat {bs : Bytes} {ch : UInt8} (h : 0 ∉ bs) (hch : ch ≠ 0) : 0 ∉ bs ++ [ch] := by
  simp [h, Ne.symm hch]

section Parse
variable {zimIsalnum : UInt32 → Bool}
  {expand : ArticleParser → ArticleParser × List ParseEvent} {p : ArticleParser} {ch : UInt8}

theorem parseState_noZero (hexpand : ∀ p, NoZero p → CallNoZero (expand p)) (h : NoZero p) :
    CallNoZero (parseState zimIsalnum expand p ch) := by
  obtain ⟨hword, hchar⟩ := h
  unfold parseState
  cases hs : p.state with
  | state0 =>
    simp only
    by_cases htag : ch = chr '<'
    · rw [if_pos htag]
      exact ⟨⟨hword, hchar⟩, wordsNoZero_nil⟩
    rw [if_neg htag]
    by_cases hent : ch = chr '&'
    · rw [if_pos hent]
      exact ⟨⟨hword, hchar⟩, wordsNoZero_nil⟩
    rw [if_neg hent]
    cases hstart : utf8Start ch with
    | some first =>
      refine ⟨⟨by simp, ?_⟩, wordsNoZero_nil⟩
      simpa using Ne.symm (utf8Start_ne_zero hstart)
    | none =>
      simp only
      split_ifs with halnum
      · refine ⟨⟨?_, hchar⟩, wordsNoZero_nil⟩
        simpa using Ne.symm (tolower_ne_zero halnum)
      · exact ⟨⟨hword, hchar⟩, wordsNoZero_nil⟩
  | stateTag0 =>
    simp only
    split_ifs with hend halnum
    · exact ⟨⟨by simp, hchar⟩, wordsNoZero_nil⟩
    · refine ⟨⟨?_, hchar⟩, wordsNoZero_nil⟩
      simpa using Ne.symm (isalnum_ne_zero halnum)
    · exact ⟨⟨hword, hchar⟩, wordsNoZero_nil⟩
  | stateTag =>
    simp only
    split_ifs with hend halnum
    · exact ⟨⟨hword, hchar⟩, fun _ _ hw => by simp at hw⟩
    · exact ⟨⟨notMem_concat hword (tolower_ne_zero halnum), hchar⟩, wordsNoZero_nil⟩
    · exact ⟨⟨hword, hchar⟩, fun _ _ hw => by simp at hw⟩
  | stateEndtag =>
    simp only
    split_ifs with hend halnum
    · exact ⟨⟨hword, hchar⟩, fun _ _ hw => by simp at hw⟩
    · exact ⟨⟨notMem_concat hword (tolower_ne_zero halnum), hchar⟩, wordsNoZero_nil⟩
    · exact ⟨⟨hword, hchar⟩, fun _ _ hw => by simp at hw⟩
  | stateTagskip =>
    simp only
    split_ifs
    · exact ⟨⟨hword, hchar⟩, wordsNoZero_nil⟩
    · exact ⟨⟨hword, hchar⟩, wordsNoZero_nil⟩
  | stateEnt =>
    simp only
    split_ifs
    · exact hexpand _ ⟨hword, hchar⟩
    · exact ⟨⟨hword, hchar⟩, wordsNoZero_nil⟩
  | stateWord =>
    simp only
    by_cases hent : ch = chr '&'
    · rw [if_pos hent]
      exact ⟨⟨hword, hchar⟩, wordsNoZero_nil⟩
    rw [if_neg hent]
    cases hstart : utf8Start ch with
    | some first =>
      refine ⟨⟨hword, ?_⟩, wordsNoZero_nil⟩
      simpa using Ne.symm (utf8Start_ne_zero hstart)
    | none =>
      simp only
      by_cases halnum : isalnum ch = true
      · rw [if_pos halnum]
        exact ⟨⟨notMem_concat hword (tolower_ne_zero halnum), hchar⟩, wordsNoZero_nil⟩
      · rw [if_neg halnum]
        exact ⟨⟨hword, hchar⟩, wordsNoZero_word hword _⟩
  | stateWordent =>
    simp only
    split_ifs
    · exact hexpand _ ⟨hword, hchar⟩
    · exact ⟨⟨hword, hchar⟩, wordsNoZero_nil⟩
  | stateUtf8 =>
    simp only
    split_ifs with hcont hlast halnum
    · have hnext := notMem_concat hchar (continuation_ne_zero hcont)
      exact ⟨⟨by simpa [hword] using hnext, hnext⟩, wordsNoZero_nil⟩
    · exact ‹False›.elim
    · exact ⟨⟨hword, notMem_concat hchar (continuation_ne_zero hcont)⟩, wordsNoZero_nil⟩
    · exact ⟨⟨hword, notMem_concat hchar (continuation_ne_zero hcont)⟩, wordsNoZero_nil⟩
    · exact ‹False›.elim
    · exact ⟨⟨hword, hchar⟩, wordsNoZero_nil⟩
  | stateWordutf8 =>
    simp only
    split_ifs with hcont hlast halnum
    · have hnext := notMem_concat hchar (continuation_ne_zero hcont)
      exact ⟨⟨by simpa [hword] using hnext, hnext⟩, wordsNoZero_nil⟩
    · exact ⟨⟨hword, notMem_concat hchar (continuation_ne_zero hcont)⟩, wordsNoZero_word hword _⟩
    · exact ⟨⟨hword, notMem_concat hchar (continuation_ne_zero hcont)⟩, wordsNoZero_nil⟩
    · exact ⟨⟨hword, hchar⟩, wordsNoZero_word hword _⟩

theorem parseWith_noZero (hexpand : ∀ p, NoZero p → CallNoZero (expand p)) (h : NoZero p) :
    CallNoZero (parseWith zimIsalnum expand p ch) := by
  have hstate : CallNoZero (parseState zimIsalnum expand p ch) := parseState_noZero hexpand h
  exact ⟨⟨hstate.1.1, hstate.1.2⟩, hstate.2⟩

theorem parseEach_noZero {parse : ArticleParser → UInt8 → ArticleParser × List ParseEvent}
    (hparse : ∀ p ch, NoZero p → CallNoZero (parse p ch)) (str : Bytes) (h : NoZero p) :
    CallNoZero (parseEach parse p str) := by
  induction str generalizing p with
  | nil => exact ⟨h, wordsNoZero_nil⟩
  | cons ch str ih =>
    obtain ⟨hp, hevents⟩ := hparse p ch h
    obtain ⟨hq, hmore⟩ := ih hp
    exact ⟨hq, hevents.append hmore⟩

theorem expandWith_noZero {parse : ArticleParser → UInt8 → ArticleParser × List ParseEvent}
    (hparse : ∀ p ch, NoZero p → CallNoZero (parse p ch)) (h : NoZero p) :
    CallNoZero (expandWith parse p) := by
  unfold expandWith
  cases findEntity p.entity with
  | none =>
    obtain ⟨hp, hevents⟩ := hparse p (chr ' ') h
    exact ⟨⟨hp.1, hp.2⟩, hevents⟩
  | some str =>
    obtain ⟨hp, hevents⟩ := parseEach_noZero hparse str h
    exact ⟨⟨hp.1, hp.2⟩, hevents⟩

variable (zimIsalnum)

theorem parseString_noZero (str : Bytes) (h : NoZero p) :
    CallNoZero (parseString zimIsalnum p str) :=
  parseEach_noZero (fun _ _ h => parseWith_noZero (fun _ h => expandWith_noZero
    (fun _ _ h => parseWith_noZero (fun _ h => ⟨h, wordsNoZero_nil⟩) h) h) h) str h

theorem endparse_noZero (h : NoZero p) : CallNoZero p.endparse := by
  unfold endparse
  split
  · exact ⟨⟨h.1, h.2⟩, wordsNoZero_word h.1 _⟩
  · exact ⟨⟨h.1, h.2⟩, wordsNoZero_word h.1 _⟩
  · refine ⟨h, ?_⟩
    split_ifs
    · exact wordsNoZero_word h.1 _
    · exact wordsNoZero_nil
  · exact ⟨h, wordsNoZero_nil⟩

end Parse
end ArticleParser

section Words
open ArticleParser
variable (zimIsalnum : UInt32 → Bool)

theorem parseTitle_noZero (a : Article) : CallNoZero (a.parseTitle zimIsalnum) := by
  have hnew : NoZero .new := ⟨by simp [ArticleParser.new], by simp [ArticleParser.new]⟩
  obtain ⟨hp, hevents⟩ := parseString_noZero zimIsalnum a.title hnew
  obtain ⟨hq, hlast⟩ := endparse_noZero hp
  exact ⟨hq, hevents.append hlast⟩

theorem parseData_noZero (a : Article) : WordsNoZero (a.parseData zimIsalnum) := by
  obtain ⟨hp, hevents⟩ := parseString_noZero zimIsalnum a.data (parseTitle_noZero zimIsalnum a).1
  exact hevents.append (endparse_noZero hp).2

/-- A write is for a word of an event. -/
theorem handle_noZero (z : Zimindexer) {events : List ParseEvent} (h : WordsNoZero events) :
    ∀ w ∈ (z.handle events).2, 0 ∉ w.1 := by
  induction events generalizing z with
  | nil => exact fun w hw => by cases hw
  | cons event events ih =>
    have hrest : WordsNoZero events := fun word pos hw => h word pos (List.mem_cons_of_mem _ hw)
    cases event with
    | onTag tag pos => exact ih _ hrest
    | onEndtag tag pos => exact ih _ hrest
    | onWord word pos =>
      intro w hw
      rcases List.mem_append.mp hw with hw | hw
      · have hsame : w.1 = word := by
          unfold Zimindexer.onWord Zimindexer.onH1 Zimindexer.onH2 Zimindexer.onH3 Zimindexer.onB
            Zimindexer.onP Zimindexer.insertUnlessTrivial Zimindexer.insertWord at hw
          split_ifs at hw <;> simp_all
        rw [hsame]
        exact h word pos List.mem_cons_self
      · exact ih z hrest w hw

theorem indexWrites_noZero (z : Zimindexer) (as : List (Option Article)) :
    ∀ w ∈ indexWrites zimIsalnum z as, 0 ∉ w.1 := by
  induction as generalizing z with
  | nil => exact fun w hw => by cases hw
  | cons a as ih =>
    cases a with
    | none => exact ih z
    | some a =>
      intro w hw
      rw [indexWrites_some] at hw
      rcases List.mem_append.mp hw with hw | hw
      · rcases List.mem_append.mp hw with hw | hw
        · exact handle_noZero _ (parseTitle_noZero zimIsalnum a).2 w hw
        · exact handle_noZero _ (parseData_noZero zimIsalnum a) w hw
      · exact ih _ w hw

end Words
end Zim.Writer
