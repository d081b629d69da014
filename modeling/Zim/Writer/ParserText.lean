import Mathlib.Tactic.IntervalCases
import Zim.Lib.MaximalRuns
import Zim.Lib.Utf8
import Zim.Writer.ArticleParser

/-! What `ArticleParser` makes of the characters of a text, one after another. -/
namespace Zim.Writer.ArticleParser
open Cxx Utf8

section Text
variable (zimIsalnum : UInt32 → Bool)

/-- The characters that words consist of. -/
def alnum (c : Char) : Bool := if c.val.toNat < 0x80 then isalnum (chr c) else zimIsalnum c.val

/-- The bytes of a word, ASCII letters in lower case. -/
def lowered (cs : List Char) : Bytes := encode (cs.map Char.toLower)

/-- The parser is between characters; `w` is what it has of a word. -/
inductive Ready (p : ArticleParser) : Bytes → Prop
  | outside : p.state = .state0 → Ready p []
  | inside {w : Bytes} : p.state = .stateWord → p.word = w → w ≠ [] → Ready p w

/-- The event for a word that ends in front of a position. -/
def wordEvents (w : Bytes) (pos : UInt32) : List ParseEvent :=
  if w = [] then [] else [.onWord w (pos - UInt32.ofNat w.length)]

@[simp] theorem wordEvents_nil (pos : UInt32) : wordEvents [] pos = [] := rfl

theorem lowered_char (c : Char) : lowered [c] =
    if c.val.toNat < 0x80 then [tolower (chr c)] else String.utf8EncodeChar c := by
  simp only [lowered, List.map_cons, List.map_nil, encode_cons, encode_nil, List.append_nil]
  split_ifs with h
  · have hall : ∀ n < 0x80, String.utf8EncodeChar (Char.ofNat n).toLower =
        [tolower (UInt8.ofNat n)] := by decide
    have hc := hall c.toNat h
    rwa [Char.ofNat_toNat] at hc
  · have hkept : c.toLower = c := by
      apply dif_neg
      rintro ⟨-, hle⟩
      rw [UInt32.le_iff_toNat_le] at hle
      exact h (hle.trans_lt (by decide))
    rw [hkept]

theorem lowered_append (cs cs' : List Char) : lowered (cs ++ cs') = lowered cs ++ lowered cs' := by
  rw [lowered, List.map_append, encode_append, lowered, lowered]

@[simp] theorem lowered_nil : lowered [] = [] := rfl

theorem lowered_cons (c : Char) (cs : List Char) : lowered (c :: cs) = lowered [c] ++ lowered cs :=
  lowered_append [c] cs

theorem lowered_char_length (c : Char) :
    (lowered [c]).length = (String.utf8EncodeChar c).length := by
  rw [lowered_char]
  split_ifs with h
  · rw [ascii h, List.length_singleton, List.length_singleton]
  · rfl

theorem lowered_length (cs : List Char) : (lowered cs).length = (encode cs).length := by
  induction cs with
  | nil => rfl
  | cons c cs ih =>
    rw [lowered_cons, List.length_append, lowered_char_length, ih, encode_cons,
      List.length_append]

theorem lowered_eq_nil {cs : List Char} : lowered cs = [] ↔ cs = [] := by
  constructor
  · intro h
    have hcount := countP_encode (cs.map Char.toLower)
    rw [show encode (cs.map Char.toLower) = [] from h] at hcount
    exact List.eq_nil_of_length_eq_zero (by simpa using hcount.symm)
  · rintro rfl
    rfl

/-- A text without an ASCII character has no byte of it. -/
theorem chr_not_mem {d : Char} {cs : List Char} (hd : d.val.toNat < 0x80) (h : d ∉ cs) :
    chr d ∉ encode cs := by
  intro hmem
  obtain ⟨c, hc, hb⟩ := List.mem_flatMap.mp hmem
  have hbyte : (chr d).toNat = d.toNat :=
    UInt8.toNat_ofNat_of_lt' (show d.toNat < 256 from hd.trans (by decide))
  have heq := eq_of_mem_ascii (show (chr d).toNat < 0x80 from hbyte ▸ hd) hb
  have hchar : c = d := Char.ext (UInt32.toNat_inj.mp (heq.trans hbyte))
  exact h (hchar ▸ hc)

/-- No byte of a character of several bytes counts as one of ASCII. -/
theorem utf8Start_lead {b : UInt8} {k v : ℕ} (h : Lead b k v) :
    utf8Start b = some (UInt32.ofNat k, UInt32.ofNat v) ∧ b ≠ chr '<' ∧ b ≠ chr '&' := by
  have h2 : ∀ v < 0x20, let b := UInt8.ofNat (v + 0xc0)
      utf8Start b = some (1, UInt32.ofNat v) ∧ b ≠ chr '<' ∧ b ≠ chr '&' := by decide
  have h3 : ∀ v < 0x10, let b := UInt8.ofNat (v + 0xe0)
      utf8Start b = some (2, UInt32.ofNat v) ∧ b ≠ chr '<' ∧ b ≠ chr '&' := by decide
  have h4 : ∀ v < 0x08, let b := UInt8.ofNat (v + 0xf0)
      utf8Start b = some (3, UInt32.ofNat v) ∧ b ≠ chr '<' ∧ b ≠ chr '&' := by decide
  cases h with
  | two hv => exact h2 _ hv
  | three hv => exact h3 _ hv
  | four hv => exact h4 _ hv

theorem utf8Start_ascii {b : UInt8} (h : b.toNat < 0x80) : utf8Start b = none := by
  have hall : ∀ n < 0x80, utf8Start (UInt8.ofNat n) = none := by decide
  have hb := hall b.toNat h
  rwa [UInt8.ofNat_toNat] at hb

theorem parse_run (p : ArticleParser) (ch : UInt8) : parse zimIsalnum p ch =
    ({ (parseState zimIsalnum (expandWith (parse zimIsalnum)) p ch).1 with
        pos := (parseState zimIsalnum (expandWith (parse zimIsalnum)) p ch).1.pos + 1 },
      (parseState zimIsalnum (expandWith (parse zimIsalnum)) p ch).2) := by
  rw [parse_eq, parseWith]

theorem parseString_nil (p : ArticleParser) : parseString zimIsalnum p [] = (p, []) := rfl

theorem parseString_cons (p : ArticleParser) (ch : UInt8) (str : Bytes) :
    parseString zimIsalnum p (ch :: str) =
      ((parseString zimIsalnum (parse zimIsalnum p ch).1 str).1,
        (parse zimIsalnum p ch).2 ++
          (parseString zimIsalnum (parse zimIsalnum p ch).1 str).2) := rfl

theorem parseString_append (p : ArticleParser) (str str' : Bytes) :
    parseString zimIsalnum p (str ++ str') =
      ((parseString zimIsalnum (parseString zimIsalnum p str).1 str').1,
        (parseString zimIsalnum p str).2 ++
          (parseString zimIsalnum (parseString zimIsalnum p str).1 str').2) := by
  induction str generalizing p with
  | nil => rfl
  | cons ch str ih => simp only [List.cons_append, parseString_cons, ih, List.append_assoc]

theorem ofNat_succ (n : ℕ) : UInt32.ofNat (n + 1) = UInt32.ofNat n + 1 := UInt32.ofNat_add n 1

variable {p : ArticleParser} {w : Bytes}

/-- An ASCII character of a text continues the word or ends it. -/
theorem Ready.parse_ascii (h : Ready p w) {b : UInt8} (hb : b.toNat < 0x80) (hlt : b ≠ chr '<')
    (hamp : b ≠ chr '&') :
    parse zimIsalnum p b =
      if isalnum b then ({ p with word := w ++ [tolower b], state := .stateWord,
                                  pos := p.pos + 1 }, [])
      else ({ p with state := .state0, pos := p.pos + 1 }, wordEvents w p.pos) := by
  have hstart := utf8Start_ascii hb
  rw [parse_run]
  cases h with
  | outside hs =>
    simp only [parseState, hs, if_neg hlt, if_neg hamp, hstart]
    split_ifs
    · rfl
    · simp only [wordEvents_nil, ← hs]
  | inside hs hw hne =>
    simp only [parseState, hs, if_neg hlt, if_neg hamp, hstart]
    split_ifs
    · rw [hw]
    · rw [wordEvents, if_neg hne, hw, wordPos, hw]

/-- The parser is inside a character: `char` holds its bytes so far, `k` are still to come, and
`v` is the number made of the bits so far. -/
structure InChar (p : ArticleParser) (w char : Bytes) (k v : ℕ) : Prop where
  state : p.state = if w = [] then .stateUtf8 else .stateWordutf8
  word : p.word = w
  utf8char : p.utf8char = char
  utf8counter : p.utf8counter = UInt32.ofNat k
  utf8value : p.utf8value = UInt32.ofNat v

theorem Ready.parse_lead (h : Ready p w) {b : UInt8} {k v : ℕ} (hb : Lead b k v) :
    InChar (parse zimIsalnum p b).1 w [b] k v ∧ (parse zimIsalnum p b).2 = [] ∧
      (parse zimIsalnum p b).1.pos = p.pos + 1 ∧
      (parse zimIsalnum p b).1.entity = p.entity := by
  obtain ⟨hstart, hlt, hamp⟩ := utf8Start_lead hb
  rw [parse_run]
  cases h with
  | outside hs =>
    simp only [parseState, hs, if_neg hlt, if_neg hamp, hstart, and_true]
    exact ⟨rfl, rfl, rfl, rfl, rfl⟩
  | inside hs hw hne =>
    simp only [parseState, hs, if_neg hamp, hstart, and_true]
    exact ⟨(if_neg hne).symm, hw, rfl, rfl, rfl⟩

theorem continuation_bits {d : ℕ} (h : d < 64) :
    continuation d >>> 6 = 2 ∧ (continuation d &&& 0x3f).toUInt32 = UInt32.ofNat d := by
  have hall : ∀ d < 64, continuation d >>> 6 = 2 ∧
      (continuation d &&& 0x3f).toUInt32 = UInt32.ofNat d := by decide
  exact hall d h

/-- Six more bits of a number that still fits. -/
theorem shift_or {v d : ℕ} (hd : d < 64) (hv : v < 2 ^ 26) :
    (UInt32.ofNat v <<< 6) ||| UInt32.ofNat d = UInt32.ofNat (64 * v + d) := by
  apply UInt32.toNat_inj.mp
  have hshift : (UInt32.ofNat v <<< 6).toNat = 2 ^ 6 * v := by
    rw [UInt32.toNat_shiftLeft, UInt32.toNat_ofNat_of_lt' (hv.trans (by decide)), Nat.shiftLeft_eq]
    simp only [UInt32.reduceToNat, Nat.reduceMod, Nat.reducePow]
    omega
  rw [UInt32.toNat_or, hshift, UInt32.toNat_ofNat_of_lt' (by simp only [UInt32.size]; omega),
    UInt32.toNat_ofNat_of_lt' (by simp only [UInt32.size]; omega),
    ← Nat.two_pow_add_eq_or_of_lt hd]

/-- One more byte of a character, which is not the last one. -/
theorem InChar.parse_more {char : Bytes} {k v d : ℕ} (h : InChar p w char (k + 2) v)
    (hk : k < 2) (hd : d < 64) (hv : v < 2 ^ 26) :
    InChar (parse zimIsalnum p (continuation d)).1 w (char ++ [continuation d]) (k + 1)
        (64 * v + d) ∧
      (parse zimIsalnum p (continuation d)).2 = [] ∧
      (parse zimIsalnum p (continuation d)).1.pos = p.pos + 1 ∧
      (parse zimIsalnum p (continuation d)).1.entity = p.entity := by
  obtain ⟨hcont, hbits⟩ := continuation_bits hd
  have hcounter : p.utf8counter - 1 = UInt32.ofNat (k + 1) := by
    rw [h.utf8counter]
    interval_cases k <;> rfl
  have hne : UInt32.ofNat (k + 1) ≠ 0 := by interval_cases k <;> decide
  have hstate := h.state
  rw [parse_run]
  by_cases hw : w = []
  · rw [if_pos hw] at hstate
    simp only [parseState, hstate, hcont, if_true, hcounter, if_neg hne, hbits, h.utf8value,
      shift_or hd hv, and_true]
    exact ⟨(if_pos hw).symm, h.word, by rw [h.utf8char], rfl, rfl⟩
  · rw [if_neg hw] at hstate
    simp only [parseState, hstate, hcont, if_true, hcounter, if_neg hne, hbits, h.utf8value,
      shift_or hd hv, and_true]
    exact ⟨(if_neg hw).symm, h.word, by rw [h.utf8char], rfl, rfl⟩

/-- The last byte of a character, which continues the word or ends it. -/
theorem InChar.parse_last {char : Bytes} {v d : ℕ} (h : InChar p w char 1 v) (hd : d < 64)
    (hv : v < 2 ^ 26) :
    (if zimIsalnum (UInt32.ofNat (64 * v + d)) then
        Ready (parse zimIsalnum p (continuation d)).1 (w ++ char ++ [continuation d]) ∧
          (parse zimIsalnum p (continuation d)).2 = []
      else Ready (parse zimIsalnum p (continuation d)).1 [] ∧
        (parse zimIsalnum p (continuation d)).2 =
          wordEvents w (p.pos - UInt32.ofNat char.length)) ∧
      (parse zimIsalnum p (continuation d)).1.pos = p.pos + 1 ∧
      (parse zimIsalnum p (continuation d)).1.entity = p.entity := by
  obtain ⟨hcont, hbits⟩ := continuation_bits hd
  have hcounter : p.utf8counter - 1 = 0 := by
    rw [h.utf8counter]
    rfl
  have hpos : p.pos - UInt32.ofNat w.length - UInt32.ofNat (char ++ [continuation d]).length + 1 =
      p.pos - UInt32.ofNat char.length - UInt32.ofNat w.length := by
    rw [List.length_append, List.length_singleton, ofNat_succ]
    grind
  have hstate := h.state
  rw [parse_run]
  by_cases hw : w = []
  · rw [if_pos hw] at hstate
    simp only [parseState, hstate, hcont, if_true, hcounter, hbits, h.utf8value,
      shift_or hd hv, reduceCtorEq, if_false]
    split_ifs with halnum
    · refine ⟨⟨.inside rfl ?_ (by simp), rfl⟩, rfl, rfl⟩
      rw [h.word, h.utf8char, List.append_assoc]
    · exact ⟨⟨.outside rfl, by simp [hw]⟩, rfl, rfl⟩
  · rw [if_neg hw] at hstate
    simp only [parseState, hstate, hcont, if_true, hcounter, hbits, h.utf8value,
      shift_or hd hv]
    split_ifs with halnum
    · refine ⟨⟨.inside rfl ?_ (by simp), rfl⟩, rfl, rfl⟩
      rw [h.word, h.utf8char, List.append_assoc]
    · refine ⟨⟨.outside rfl, ?_⟩, rfl, rfl⟩
      rw [wordEvents, if_neg hw, h.word, h.utf8char, wordPos, h.word, hpos]

/-- What has become of the parser behind a character: where the text continues the word
`next` is the word, otherwise the word that was is reported. -/
structure Passed (p q : ArticleParser) (w next : Bytes) (events : List ParseEvent)
    (continues : Bool) (start : UInt32) (length : ℕ) : Prop where
  ready : Ready q (if continues then next else [])
  events : events = if continues then [] else wordEvents w start
  pos : q.pos = p.pos + UInt32.ofNat length
  entity : q.entity = p.entity

/-- The other bytes of a character. -/
theorem InChar.parse_rest {char : Bytes} {v : ℕ} {ds : List ℕ}
    (h : InChar p w char ds.length v) (hne : ds ≠ []) (hlen : ds.length ≤ 3)
    (hds : ∀ d ∈ ds, d < 64) (hv : (v + 1) * 64 ^ ds.length ≤ 2 ^ 32) :
    Passed p (parseString zimIsalnum p (ds.map continuation)).1 w
      (w ++ char ++ ds.map continuation)
      (parseString zimIsalnum p (ds.map continuation)).2
      (zimIsalnum (UInt32.ofNat (assemble v ds))) (p.pos - UInt32.ofNat char.length)
      ds.length := by
  induction ds generalizing p char v with
  | nil => exact absurd rfl hne
  | cons d ds ih =>
    have hd := hds d List.mem_cons_self
    have hpow : (v + 1) * 64 ^ (ds.length + 1) = ((v + 1) * 64) * 64 ^ ds.length := by
      rw [pow_succ]
      ring
    have hone : 1 ≤ 64 ^ ds.length := Nat.one_le_two_pow.trans (Nat.pow_le_pow_left (by decide) _)
    rw [List.length_cons, hpow] at hv
    have hv' : v < 2 ^ 26 := by
      have := (Nat.le_mul_of_pos_right ((v + 1) * 64) hone).trans hv
      omega
    cases hrest : ds with
    | nil =>
      subst hrest
      obtain ⟨hlast, hpos, hentity⟩ := h.parse_last zimIsalnum hd hv'
      have hval : assemble v [d] = 64 * v + d := rfl
      simp only [List.map_cons, List.map_nil, parseString_cons, parseString_nil, List.append_nil,
        hval]
      refine ⟨?_, ?_, hpos, hentity⟩
      · split_ifs at hlast ⊢
        · exact hlast.1
        · exact hlast.1
      · split_ifs at hlast ⊢
        · exact hlast.2
        · exact hlast.2
    | cons d' ds' =>
      have hlength : ds.length = ds'.length + 1 := by rw [hrest, List.length_cons]
      rw [List.length_cons, hlength] at h hlen
      obtain ⟨hin, hevents, hpos, hentity⟩ :=
        h.parse_more zimIsalnum (by omega) hd hv'
      have hnext : (64 * v + d + 1) * 64 ^ ds.length ≤ 2 ^ 32 :=
        (Nat.mul_le_mul_right _ (by omega)).trans hv
      have hpassed := ih (hlength ▸ hin) (by rw [hrest]; exact List.cons_ne_nil _ _) (by omega)
        (fun d hd => hds d (List.mem_cons_of_mem _ hd)) hnext
      have hstart : p.pos + 1 - UInt32.ofNat (char ++ [continuation d]).length =
          p.pos - UInt32.ofNat char.length := by
        rw [List.length_append, List.length_singleton, ofNat_succ]
        grind
      rw [hpos, hstart] at hpassed
      rw [← hrest]
      simp only [List.map_cons, parseString_cons, hevents, List.nil_append, assemble_cons]
      refine ⟨?_, hpassed.events, ?_, hpassed.entity.trans hentity⟩
      · have hready := hpassed.ready
        simpa only [List.append_assoc, List.singleton_append] using hready
      · rw [hpassed.pos, hpos, List.length_cons, ofNat_succ]
        grind

/-- A character of a text continues the word or ends it. -/
theorem Ready.parse_char (h : Ready p w) {c : Char} (hlt : c ≠ '<') (hamp : c ≠ '&') :
    Passed p (parseString zimIsalnum p (String.utf8EncodeChar c)).1 w (w ++ lowered [c])
      (parseString zimIsalnum p (String.utf8EncodeChar c)).2 (alnum zimIsalnum c) p.pos
      (String.utf8EncodeChar c).length := by
  rw [lowered_char, alnum]
  by_cases hc : c.val.toNat < 0x80
  · have hbyte : (chr c).toNat < 0x80 := by
      rw [chr, UInt8.toNat_ofNat']
      exact (Nat.mod_le _ _).trans_lt hc
    have hinj (d : Char) (hd : d.val.toNat < 0x80) (hne : c ≠ d) : chr c ≠ chr d := by
      intro heq
      apply hne
      have hval := congrArg UInt8.toNat heq
      rw [chr, chr, UInt8.toNat_ofNat_of_lt' (show c.toNat < 256 from hc.trans (by decide)),
        UInt8.toNat_ofNat_of_lt' (show d.toNat < 256 from hd.trans (by decide))] at hval
      exact Char.ext (UInt32.toNat_inj.mp hval)
    have hparse := h.parse_ascii zimIsalnum hbyte (hinj '<' (by decide) hlt)
      (hinj '&' (by decide) hamp)
    rw [ascii hc, if_pos hc, if_pos hc]
    simp only [parseString_cons, parseString_nil]
    rw [show UInt8.ofNat c.toNat = chr c from rfl, hparse]
    by_cases halnum : isalnum (chr c) = true
    · simp only [halnum, if_true]
      exact ⟨.inside rfl rfl (by simp), rfl, rfl, rfl⟩
    · simp only [halnum, Bool.false_eq_true, if_false]
      exact ⟨.outside rfl, List.append_nil _, rfl, rfl⟩
  · obtain ⟨lead, v, ds, hm⟩ := multibyte (Nat.le_of_not_lt hc)
    obtain ⟨hin, hevents, hpos, hentity⟩ := h.parse_lead zimIsalnum hm.lead
    have hshape : ds ≠ [] ∧ ds.length ≤ 3 ∧ (v + 1) * 64 ^ ds.length ≤ 2 ^ 32 := by
      have hlead := hm.lead
      generalize hlen : ds.length = k at hlead
      have hds (hk : 0 < k) : ds ≠ [] := List.ne_nil_of_length_pos (hlen ▸ hk)
      cases hlead <;> exact ⟨hds (by decide), by decide, by omega⟩
    have hpassed := hin.parse_rest zimIsalnum hshape.1 hshape.2.1 hm.digit hshape.2.2
    have hstart : p.pos + 1 - UInt32.ofNat [lead].length = p.pos := by
      rw [show UInt32.ofNat [lead].length = 1 from rfl]
      grind
    rw [hm.value, UInt32.ofNat_toNat, hpos, hstart] at hpassed
    rw [if_neg hc, if_neg hc, hm.encode]
    simp only [parseString_cons, hevents, List.nil_append]
    refine ⟨?_, hpassed.events, ?_, hpassed.entity.trans hentity⟩
    · have hready := hpassed.ready
      simpa only [List.append_assoc, List.singleton_append] using hready
    · rw [hpassed.pos, hpos, List.length_cons, List.length_map, ofNat_succ]
      grind

end Text
end Zim.Writer.ArticleParser
