import Zim.Writer.PlainText

/-! What `ArticleParser` makes of the characters of a tag. -/
namespace Zim.Writer.ArticleParser
open Cxx Utf8

section Tags
variable (zimIsalnum : UInt32 → Bool) {p : ArticleParser} {w : Bytes}

/-- The characters of which the parser makes the name of a tag. -/
def tagChar (c : Char) : Bool := c.val.toNat < 0x80 && isalnum (chr c)

/-- The event for a tag or for an end tag. -/
def tagEvent (closing : Bool) (tag : Bytes) (pos : UInt32) : ParseEvent :=
  if closing then .onEndtag tag pos else .onTag tag pos

/-- The parser is inside a tag and has its name so far. -/
inductive InTag (p : ArticleParser) : Bool → Bytes → Prop
  | opening : p.state = .stateTag → InTag p false p.word
  | closing : p.state = .stateEndtag → InTag p true p.word

theorem Ready.parse_lt (h : Ready p w) : (parse zimIsalnum p (chr '<')).1.state = .stateTag0 ∧
    (parse zimIsalnum p (chr '<')).2 = wordEvents w p.pos := by
  rw [parse_run]
  cases h with
  | outside hs => simp only [parseState, hs, if_true, wordEvents_nil, and_self]
  | inside hs hw hne =>
    have hamp : chr '<' ≠ chr '&' := by decide
    have hstart : utf8Start (chr '<') = none := by decide
    have halnum : isalnum (chr '<') = false := by decide
    simp only [parseState, hs, if_neg hamp, hstart, halnum, Bool.false_eq_true, if_false, if_true,
      wordEvents, if_neg hne, wordPos, hw, and_self]

theorem parse_tag0_slash (h : p.state = .stateTag0) :
    InTag (parse zimIsalnum p (chr '/')).1 true [] ∧ (parse zimIsalnum p (chr '/')).2 = [] := by
  rw [parse_run]
  simp only [parseState, h, if_true, and_true]
  exact .closing rfl

theorem parse_tag0_letter (h : p.state = .stateTag0) {ch : UInt8} (hch : isalnum ch = true) :
    InTag (parse zimIsalnum p ch).1 false [ch] ∧ (parse zimIsalnum p ch).2 = [] := by
  have hslash : ch ≠ chr '/' := by
    rintro rfl
    revert hch
    decide
  rw [parse_run]
  simp only [parseState, h, if_neg hslash, hch, if_true, and_true]
  exact .opening rfl

theorem parse_tag0_other (h : p.state = .stateTag0) {ch : UInt8} (hslash : ch ≠ chr '/')
    (hch : isalnum ch = false) : (parse zimIsalnum p ch).1.state = .stateTag0 ∧
      (parse zimIsalnum p ch).2 = [] := by
  rw [parse_run]
  simp only [parseState, h, if_neg hslash, hch, Bool.false_eq_true, if_false, and_self]

theorem InTag.parse_letter {closing : Bool} (h : InTag p closing w) {ch : UInt8}
    (hch : isalnum ch = true) :
    InTag (parse zimIsalnum p ch).1 closing (w ++ [tolower ch]) ∧
      (parse zimIsalnum p ch).2 = [] := by
  have hgt : ch ≠ chr '>' := by
    rintro rfl
    revert hch
    decide
  rw [parse_run]
  cases h with
  | opening hs =>
    simp only [parseState, hs, if_neg hgt, hch, if_true, and_true]
    exact .opening rfl
  | closing hs =>
    simp only [parseState, hs, if_neg hgt, hch, if_true, and_true]
    exact .closing rfl

/-- Any other character ends the name, and the `>` the tag. -/
theorem InTag.parse_other {closing : Bool} (h : InTag p closing w) {ch : UInt8}
    (hch : isalnum ch = false) :
    (parse zimIsalnum p ch).1.state = (if ch = chr '>' then .state0 else .stateTagskip) ∧
      (parse zimIsalnum p ch).2 = [tagEvent closing w p.pos] := by
  rw [parse_run]
  cases h with
  | opening hs =>
    simp only [parseState, hs, hch, Bool.false_eq_true, if_false]
    split_ifs <;> exact ⟨rfl, rfl⟩
  | closing hs =>
    simp only [parseState, hs, hch, Bool.false_eq_true, if_false]
    split_ifs <;> exact ⟨rfl, rfl⟩

/-- Up to its end the rest of a tag is skipped. -/
theorem parse_skip (h : p.state = .stateTagskip) {str : Bytes} (hstr : chr '>' ∉ str) :
    (parseString zimIsalnum p (str ++ [chr '>'])).1.state = .state0 ∧
      (parseString zimIsalnum p (str ++ [chr '>'])).2 = [] := by
  induction str generalizing p with
  | nil =>
    rw [List.nil_append, parseString_cons, parseString_nil, parse_run]
    simp only [parseState, h, if_true, List.append_nil, and_self]
  | cons ch str ih =>
    rw [List.mem_cons, not_or] at hstr
    have hnext : (parse zimIsalnum p ch).1.state = .stateTagskip ∧
        (parse zimIsalnum p ch).2 = [] := by
      rw [parse_run]
      simp only [parseState, h, if_neg (Ne.symm hstr.1), and_self]
    obtain ⟨hlast, hmore⟩ := ih hnext.1 hstr.2
    rw [List.cons_append, parseString_cons, hnext.2, hmore]
    exact ⟨hlast, rfl⟩

theorem isalnum_ascii {b : UInt8} (h : isalnum b = true) : b.toNat < 0x80 := by
  have hall : ∀ n < 256, isalnum (UInt8.ofNat n) = true → n < 0x80 := by decide +kernel
  apply hall b.toNat b.toNat_lt
  rwa [UInt8.ofNat_toNat]

/-- Other characters have no byte that is one of a name. -/
theorem isalnum_of_not_tagChar {c : Char} (hc : tagChar c = false) {b : UInt8}
    (hb : b ∈ String.utf8EncodeChar c) : isalnum b = false := by
  by_contra h
  rw [Bool.not_eq_false] at h
  have hascii := isalnum_ascii h
  have heq := eq_of_mem_ascii hascii hb
  have hchr : chr c = b := by rw [chr, heq, UInt8.ofNat_toNat]
  have hlt : c.val.toNat < 0x80 := heq.trans_lt hascii
  rw [tagChar, hchr, h, Bool.and_true, decide_eq_false_iff_not] at hc
  exact hc hlt

/-- The rest of a tag: the name is as long as its characters are letters and digits. -/
theorem InTag.parse_rest {closing : Bool} (h : InTag p closing w) {cs : List Char}
    (hcs : '>' ∉ cs) : ∃ pos,
      (parseString zimIsalnum p (encode cs ++ [chr '>'])).1.state = .state0 ∧
        (parseString zimIsalnum p (encode cs ++ [chr '>'])).2 =
          [tagEvent closing (w ++ lowered (cs.takeWhile tagChar)) pos] := by
  induction cs generalizing p w with
  | nil =>
    obtain ⟨hstate, hevents⟩ :=
      h.parse_other zimIsalnum (show isalnum (chr '>') = false by decide)
    rw [encode_nil, List.nil_append, parseString_cons, parseString_nil, hevents,
      List.takeWhile_nil, lowered_nil, List.append_nil, List.append_nil]
    exact ⟨p.pos, hstate, rfl⟩
  | cons c cs ih =>
    rw [List.mem_cons, not_or] at hcs
    by_cases hc : tagChar c = true
    · have hletter := hc
      simp only [tagChar, Bool.and_eq_true, decide_eq_true_eq] at hletter
      obtain ⟨hnext, hno⟩ := h.parse_letter zimIsalnum hletter.2
      have hlow : lowered [c] = [tolower (chr c)] := by rw [lowered_char, if_pos hletter.1]
      rw [← hlow] at hnext
      obtain ⟨pos, hlast, hevents⟩ := ih hnext hcs.2
      refine ⟨pos, ?_⟩
      rw [encode_cons, ascii hletter.1, List.cons_append, List.nil_append, List.cons_append,
        parseString_cons, show UInt8.ofNat c.toNat = chr c from rfl, hno,
        List.takeWhile_cons_of_pos hc, lowered_cons, ← List.append_assoc]
      exact ⟨hlast, hevents⟩
    · have hgt : chr '>' ∉ encode (c :: cs) :=
        chr_not_mem (by decide) (by rw [List.mem_cons, not_or]; exact hcs)
      rw [Bool.not_eq_true] at hc
      cases hbytes : String.utf8EncodeChar c with
      | nil => exact absurd hbytes String.utf8EncodeChar_ne_nil
      | cons b bs =>
        rw [encode_cons, hbytes, List.cons_append, List.mem_cons, not_or] at hgt
        obtain ⟨hstate, hevents⟩ := h.parse_other zimIsalnum
          (isalnum_of_not_tagChar hc (hbytes ▸ List.mem_cons_self))
        rw [if_neg (Ne.symm hgt.1)] at hstate
        obtain ⟨hlast, hmore⟩ := parse_skip zimIsalnum hstate hgt.2
        refine ⟨p.pos, ?_⟩
        rw [encode_cons, hbytes, List.cons_append, List.cons_append, parseString_cons, hevents,
          hmore, List.takeWhile_cons_of_neg (by rw [hc]; decide), lowered_nil, List.append_nil,
          List.append_nil]
        exact ⟨hlast, rfl⟩

theorem encode_tagChar {c : Char} (hc : tagChar c = true) :
    String.utf8EncodeChar c = [chr c] ∧ isalnum (chr c) = true := by
  simp only [tagChar, Bool.and_eq_true, decide_eq_true_eq] at hc
  exact ⟨ascii hc.1, hc.2⟩

/-- A tag from its first letter, which is kept as it is. -/
theorem parse_opening (h : p.state = .stateTag0) {c : Char} {cs : List Char}
    (hc : tagChar c = true) (hcs : '>' ∉ cs) : ∃ pos,
      (parseString zimIsalnum p (encode (c :: cs) ++ [chr '>'])).1.state = .state0 ∧
        (parseString zimIsalnum p (encode (c :: cs) ++ [chr '>'])).2 =
          [.onTag (chr c :: lowered (cs.takeWhile tagChar)) pos] := by
  obtain ⟨hbytes, hletter⟩ := encode_tagChar hc
  obtain ⟨htag, hno⟩ := parse_tag0_letter zimIsalnum h hletter
  obtain ⟨pos, hlast, hevents⟩ := htag.parse_rest zimIsalnum hcs
  rw [encode_cons, hbytes, List.append_assoc, List.singleton_append, parseString_cons, hno]
  exact ⟨pos, hlast, hevents⟩

theorem parse_closing (h : p.state = .stateTag0) {cs : List Char} (hcs : '>' ∉ cs) : ∃ pos,
    (parseString zimIsalnum p (chr '/' :: (encode cs ++ [chr '>']))).1.state = .state0 ∧
      (parseString zimIsalnum p (chr '/' :: (encode cs ++ [chr '>']))).2 =
        [.onEndtag (lowered (cs.takeWhile tagChar)) pos] := by
  obtain ⟨htag, hno⟩ := parse_tag0_slash zimIsalnum h
  obtain ⟨pos, hlast, hevents⟩ := htag.parse_rest zimIsalnum hcs
  rw [parseString_cons, hno]
  exact ⟨pos, hlast, hevents⟩

end Tags
end Zim.Writer.ArticleParser
