import Zim.Writer.CtypeTables
import Zim.Writer.TitleData

/-! The calls of the character classifiers, and the texts for which their arguments are in the
domain. -/
namespace Zim.Writer.ArticleParser
open Cxx Utf8

/-- A call of a classifier. -/
inductive Call where
  | isalnum (ch : ℤ)
  | tolower (ch : ℤ)
  | zimIsalnum (ch : UInt32)

/-- `ctype_lookup1` has 68 entries. -/
def Call.InDomain : Call → Prop
  | isalnum ch => 0 ≤ ch ∧ ch ≤ 255
  | tolower ch => 0 ≤ ch ∧ ch ≤ 255
  | zimIsalnum ch => (ch >>> 14).toNat < 68 ∧ ReadsInside ch

/-- The value of a plain `char`, which is signed. -/
def charValue (ch : UInt8) : ℤ := ch.toInt8.toInt

/-- `std::isalnum(ch)`, and `std::tolower(ch)` for a letter or a digit. -/
def classifyCalls (ch : UInt8) : List Call :=
  .isalnum (charValue ch) :: if isalnum ch then [.tolower (charValue ch)] else []

/-- The calls of the switch of `parse(char)`. -/
def stateCalls (p : ArticleParser) (ch : UInt8) : List Call :=
  match p.state with
  | .state0 => if ch = chr '<' ∨ ch = chr '&' ∨ utf8Start ch ≠ none then [] else classifyCalls ch
  | .stateTag0 => if ch = chr '/' then [] else [.isalnum (charValue ch)]
  | .stateTag | .stateEndtag => if ch = chr '>' then [] else classifyCalls ch
  | .stateTagskip | .stateEnt | .stateWordent => []
  | .stateWord => if ch = chr '&' ∨ utf8Start ch ≠ none then [] else classifyCalls ch
  | .stateUtf8 | .stateWordutf8 =>
    if ch >>> 6 = 2 ∧ p.utf8counter - 1 = 0 then
      [.zimIsalnum ((p.utf8value <<< 6) ||| (ch &&& 0x3f).toUInt32)]
    else []

section Calls
variable (zimIsalnum : UInt32 → Bool)

/-- The calls of `parse(char)` for the characters of a string that expands nothing. -/
def plainCalls : ArticleParser → Bytes → List Call
  | _, [] => []
  | p, ch :: str => stateCalls p ch ++ plainCalls (parse zimIsalnum p ch).1 str

/-- The calls for the characters of a string and of the expansions in it. -/
def calls : ArticleParser → Bytes → List Call
  | _, [] => []
  | p, ch :: str =>
    stateCalls p ch ++
      ((expanding p ch).elim [] fun q => plainCalls zimIsalnum q (expansionBytes q.entity)) ++
        calls (parse zimIsalnum p ch).1 str

end Calls

/-- What a text is read as: how far the name of a reference goes, or how many bytes of a
character are to come and the bits of it so far. -/
inductive Mode where
  | text | tag0 | tagName | tagskip
  | reference (name : Bytes)
  | char (counter value : UInt32)
  deriving DecidableEq

namespace Mode

def next : Mode → UInt8 → Mode
  | text, b =>
    if b = chr '<' then tag0
    else if b = chr '&' then reference []
    else (utf8Start b).elim text fun first => char first.1 first.2
  | tag0, b => if b = chr '/' ∨ isalnum b then tagName else tag0
  | tagName, b => if b = chr '>' then text else if isalnum b then tagName else tagskip
  | tagskip, b => if b = chr '>' then text else tagskip
  | reference name, b =>
    if b = chr ';' then if findEntity name = some [chr '&'] then reference [] else text
    else reference (name ++ [b])
  | char counter value, b =>
    if b >>> 6 = 2 ∧ counter - 1 ≠ 0 then
      char (counter - 1) ((value <<< 6) ||| (b &&& 0x3f).toUInt32)
    else text

/-- A byte in a text that neither is one of ASCII nor begins a character, one in the name of a tag
that is not of ASCII, and the last one of a character that is no Unicode one. -/
def offends : Mode → UInt8 → Bool
  | text, b => 0x80 ≤ b && utf8Start b = none
  | tag0, b => 0x80 ≤ b
  | tagName, b => 0x80 ≤ b
  | tagskip, _ => false
  | reference _, _ => false
  | char counter value, b =>
    b >>> 6 = 2 && counter - 1 = 0 &&
      (0x110000 : UInt32) ≤ ((value <<< 6) ||| (b &&& 0x3f).toUInt32)

def accepts : Mode → Bytes → Bool
  | _, [] => true
  | m, b :: str => !m.offends b && (m.next b).accepts str

/-- The parser reads the text as the mode says. -/
def Holds (p : ArticleParser) : Mode → Prop
  | text => p.state = .state0 ∨ p.state = .stateWord
  | tag0 => p.state = .stateTag0
  | tagName => p.state = .stateTag ∨ p.state = .stateEndtag
  | tagskip => p.state = .stateTagskip
  | reference _ => p.state = .stateEnt ∨ p.state = .stateWordent
  | char counter value =>
    (p.state = .stateUtf8 ∨ p.state = .stateWordutf8) ∧ p.utf8counter = counter ∧
      p.utf8value = value

end Mode

section Simulation
variable (zimIsalnum : UInt32 → Bool) {p : ArticleParser} {m : Mode}

theorem charValue_iff (ch : UInt8) : 0 ≤ charValue ch ∧ charValue ch ≤ 255 ↔ ¬ 0x80 ≤ ch := by
  have hall : ∀ n < 256, (0 ≤ charValue (UInt8.ofNat n) ∧ charValue (UInt8.ofNat n) ≤ 255 ↔
      ¬ 0x80 ≤ UInt8.ofNat n) := by decide +kernel
  have h := hall ch.toNat ch.toNat_lt
  rwa [UInt8.ofNat_toNat] at h

theorem classifyCalls_iff (ch : UInt8) :
    (∀ call ∈ classifyCalls ch, call.InDomain) ↔ ¬ 0x80 ≤ ch := by
  rw [← charValue_iff, classifyCalls, List.forall_mem_cons]
  constructor
  · exact And.left
  · intro h
    refine ⟨h, ?_⟩
    split_ifs
    · exact List.forall_mem_singleton.mpr h
    · exact List.forall_mem_nil _

theorem calls_text_iff (h : Mode.text.Holds p) (ch : UInt8) :
    (∀ call ∈ stateCalls p ch, call.InDomain) ↔ Mode.text.offends ch = false := by
  have hnone : ∀ call ∈ ([] : List Call), call.InDomain := List.forall_mem_nil _
  have hascii (b : Char) (hb : chr b < 0x80) (hch : ch = chr b) :
      Mode.offends .text ch = false := by
    rw [hch, Mode.offends, decide_eq_false (UInt8.not_le.mpr hb), Bool.false_and]
  have hlead (hch : utf8Start ch ≠ none) : Mode.offends .text ch = false := by
    rw [Mode.offends, decide_eq_false hch, Bool.and_false]
  have hother (hch : utf8Start ch = none) :
      (∀ call ∈ classifyCalls ch, call.InDomain) ↔ Mode.offends .text ch = false := by
    rw [classifyCalls_iff, Mode.offends, decide_eq_true hch, Bool.and_true,
      decide_eq_false_iff_not]
  rcases h with hs | hs
  · simp only [stateCalls, hs]
    split_ifs with hch
    · apply iff_of_true hnone
      rcases hch with hch | hch | hch
      · exact hascii '<' (by decide) hch
      · exact hascii '&' (by decide) hch
      · exact hlead hch
    · simp only [not_or, not_not] at hch
      exact hother hch.2.2
  · simp only [stateCalls, hs]
    split_ifs with hch
    · apply iff_of_true hnone
      rcases hch with hch | hch
      · exact hascii '&' (by decide) hch
      · exact hlead hch
    · simp only [not_or, not_not] at hch
      exact hother hch.2

/-- The last byte of a character makes the call for its value. -/
theorem calls_char_iff {counter value : UInt32} (h : (Mode.char counter value).Holds p)
    (ch : UInt8) : (∀ call ∈ stateCalls p ch, call.InDomain) ↔
      (Mode.char counter value).offends ch = false := by
  have hnone : ∀ call ∈ ([] : List Call), call.InDomain := List.forall_mem_nil _
  obtain ⟨hs, rfl, rfl⟩ := h
  set v := (p.utf8value <<< 6) ||| (ch &&& 0x3f).toUInt32 with hv
  have hcalls : stateCalls p ch =
      if ch >>> 6 = 2 ∧ p.utf8counter - 1 = 0 then [.zimIsalnum v] else [] := by
    rcases hs with hs | hs <;> simp only [stateCalls, hs, hv]
  have hdomain : (Call.zimIsalnum v).InDomain ↔ ¬ (0x110000 : UInt32) ≤ v := by
    rw [Call.InDomain, readsInside_iff, and_self, shiftRight_lt_iff, UInt32.le_iff_toNat_le,
      Nat.not_le]
    rfl
  rw [hcalls, Mode.offends, ← hv]
  split_ifs with hch
  · rw [List.forall_mem_singleton, hdomain, decide_eq_true hch.1, decide_eq_true hch.2,
      Bool.true_and, Bool.true_and, decide_eq_false_iff_not]
  · apply iff_of_true hnone
    rw [← Bool.decide_and, decide_eq_false hch, Bool.false_and]

theorem calls_iff (h : m.Holds p) (ch : UInt8) :
    (∀ call ∈ stateCalls p ch, call.InDomain) ↔ m.offends ch = false := by
  have hnone : ∀ call ∈ ([] : List Call), call.InDomain := List.forall_mem_nil _
  cases m with
  | text => exact calls_text_iff h ch
  | tag0 =>
    have hslash : (chr '/' : UInt8) < 0x80 := by decide
    simp only [stateCalls, show p.state = .stateTag0 from h, Mode.offends, decide_eq_false_iff_not]
    split_ifs with hch
    · rw [hch]
      exact iff_of_true hnone (by decide)
    · rw [← charValue_iff]
      exact List.forall_mem_singleton
  | tagName =>
    have hcalls : stateCalls p ch = if ch = chr '>' then [] else classifyCalls ch := by
      rcases h with hs | hs <;> simp only [stateCalls, hs]
    rw [hcalls, Mode.offends, decide_eq_false_iff_not]
    split_ifs with hch
    · rw [hch]
      exact iff_of_true hnone (by decide)
    · exact classifyCalls_iff ch
  | tagskip =>
    have hcalls : stateCalls p ch = [] := by simp only [stateCalls, show p.state = _ from h]
    rw [hcalls]
    exact iff_of_true hnone rfl
  | reference name =>
    have hcalls : stateCalls p ch = [] := by rcases h with hs | hs <;> simp only [stateCalls, hs]
    rw [hcalls]
    exact iff_of_true hnone rfl
  | char counter value => exact calls_char_iff h ch

/-- Between tags one byte leads on, whether it is in a word or not. -/
theorem holds_next_text (h : Mode.text.Holds p) (ch : UInt8) :
    (Mode.text.next ch).Holds (parse zimIsalnum p ch).1 := by
  rw [parse_run]
  rcases h with hs | hs
  · cases hstart : utf8Start ch with
    | none =>
      simp only [parseState, hs, hstart, Mode.next, Option.elim_none]
      split_ifs
      · rfl
      · exact .inl rfl
      · exact .inr rfl
      · exact .inl hs
    | some first =>
      simp only [parseState, hs, hstart, Mode.next, Option.elim_some]
      split_ifs
      · rfl
      · exact .inl rfl
      · exact ⟨.inl rfl, rfl, rfl⟩
  · by_cases hlt : ch = chr '<'
    · have hamp : chr '<' ≠ chr '&' := by decide
      have hstart : utf8Start (chr '<') = none := by decide
      have halnum : isalnum (chr '<') = false := by decide
      simp only [parseState, hs, hlt, if_neg hamp, hstart, halnum, Bool.false_eq_true, if_false,
        if_true, Mode.next]
      rfl
    · cases hstart : utf8Start ch with
      | none =>
        simp only [parseState, hs, hstart, Mode.next, Option.elim_none, if_neg hlt]
        split_ifs
        · exact .inr rfl
        · exact .inr rfl
        · exact .inl rfl
      | some first =>
        simp only [parseState, hs, hstart, Mode.next, Option.elim_some, if_neg hlt]
        split_ifs
        · exact .inr rfl
        · exact ⟨.inr rfl, rfl, rfl⟩

/-- Within a character one byte continues it, ends it or breaks it off. -/
theorem holds_next_char {counter value : UInt32} (h : (Mode.char counter value).Holds p)
    (ch : UInt8) : ((Mode.char counter value).next ch).Holds (parse zimIsalnum p ch).1 := by
  rw [parse_run]
  obtain ⟨hs, rfl, rfl⟩ := h
  simp only [Mode.next]
  by_cases hcont : ch >>> 6 = 2
  · by_cases hlast : p.utf8counter - 1 = 0
    · rw [if_neg (by simp [hlast])]
      rcases hs with hs | hs
      · simp only [parseState, hs, hcont, if_true, hlast, reduceCtorEq, if_false]
        split_ifs
        · exact .inr rfl
        · exact .inl rfl
      · simp only [parseState, hs, hcont, if_true, hlast]
        split_ifs
        · exact .inr rfl
        · exact .inl rfl
    · rw [if_pos ⟨hcont, hlast⟩]
      rcases hs with hs | hs
      · simp only [parseState, hs, hcont, if_true, if_neg hlast]
        exact ⟨.inl rfl, rfl, rfl⟩
      · simp only [parseState, hs, hcont, if_true, if_neg hlast]
        exact ⟨.inr rfl, rfl, rfl⟩
  · rw [if_neg (by simp [hcont])]
    rcases hs with hs | hs
    · simp only [parseState, hs, hcont, if_false]
      exact .inl rfl
    · simp only [parseState, hs, hcont, if_false]
      exact .inl rfl

/-- Away from the end of a reference one byte leads from mode to mode. -/
theorem holds_next (h : m.Holds p) {ch : UInt8}
    (hch : ∀ name, m = .reference name → ch ≠ chr ';') :
    (m.next ch).Holds (parse zimIsalnum p ch).1 := by
  cases m with
  | text => exact holds_next_text zimIsalnum h ch
  | tag0 =>
    rw [parse_run]
    simp only [parseState, show p.state = .stateTag0 from h, Mode.next]
    by_cases hslash : ch = chr '/'
    · simp only [hslash, if_true, true_or]
      exact .inr rfl
    · simp only [hslash, if_false, false_or]
      split_ifs
      · exact .inl rfl
      · exact h
  | tagName =>
    rw [parse_run]
    rcases h with hs | hs
    · simp only [parseState, hs, Mode.next]
      split_ifs
      · exact .inl rfl
      · exact .inl rfl
      · rfl
    · simp only [parseState, hs, Mode.next]
      split_ifs
      · exact .inl rfl
      · exact .inr rfl
      · rfl
  | tagskip =>
    rw [parse_run]
    simp only [parseState, show p.state = .stateTagskip from h, Mode.next]
    split_ifs
    · exact .inl rfl
    · exact h
  | reference name =>
    rw [parse_run]
    have hch := hch name rfl
    simp only [Mode.next, if_neg hch]
    rcases h with hs | hs
    · simp only [parseState, hs, if_neg hch]
      exact .inl rfl
    · simp only [parseState, hs, if_neg hch]
      exact .inr rfl
  | char counter value => exact holds_next_char zimIsalnum h ch

theorem holds_run (h : m.Holds p) {str : Bytes} (hstr : ∀ ch ∈ str, ch ≠ chr ';') :
    (str.foldl Mode.next m).Holds (parseString zimIsalnum p str).1 ∧
      ((∀ call ∈ plainCalls zimIsalnum p str, call.InDomain) ↔ m.accepts str = true) := by
  induction str generalizing p m with
  | nil => exact ⟨h, iff_of_true (List.forall_mem_nil _) rfl⟩
  | cons ch str ih =>
    have hnext := holds_next zimIsalnum h fun _ _ => hstr ch List.mem_cons_self
    obtain ⟨hlast, hcalls⟩ := ih hnext fun ch hch => hstr ch (List.mem_cons_of_mem _ hch)
    refine ⟨hlast, ?_⟩
    rw [plainCalls, List.forall_mem_append, calls_iff h, hcalls, Mode.accepts, Bool.and_eq_true,
      Bool.not_eq_true']

/-- The expansions consist of whole characters. -/
theorem expansionBytes_accepted (entity : Bytes) :
    Mode.text.accepts (expansionBytes entity) = true ∧
      (expansionBytes entity).foldl Mode.next .text =
        if findEntity entity = some [chr '&'] then .reference [] else .text := by
  have hall : ∀ e ∈ entityTable, Mode.text.accepts e.2 = true ∧
      e.2.foldl Mode.next .text = if e.2 = [chr '&'] then .reference [] else .text := by
    decide +kernel
  rw [expansionBytes]
  cases hfind : findEntity entity with
  | none => exact ⟨rfl, rfl⟩
  | some str =>
    rw [findEntity, Option.map_eq_some_iff] at hfind
    obtain ⟨e, he, rfl⟩ := hfind
    simp only [Option.getD_some, Option.some.injEq]
    exact hall e (List.mem_of_find?_eq_some he)

/-- The parser reads the text as the mode says, and has the name of a reference. -/
structure Follows (p : ArticleParser) (m : Mode) : Prop where
  holds : m.Holds p
  entity : ∀ name, m = .reference name → p.entity = name
  settled : Settled p

/-- The references that end are those whose names are expanded. -/
theorem Follows.expanding (h : Follows p m) (ch : UInt8) :
    ArticleParser.expanding p ch = none ∧ (∀ name, m = .reference name → ch ≠ chr ';') ∨
      ch = chr ';' ∧ ∃ q name, ArticleParser.expanding p ch = some q ∧ m = .reference name ∧
        Mode.text.Holds q ∧ q.entity = name := by
  have hnone (hs : p.state ≠ .stateEnt ∧ p.state ≠ .stateWordent) :
      ArticleParser.expanding p ch = none := by
    unfold ArticleParser.expanding
    cases hp : p.state with
    | stateEnt => exact absurd hp hs.1
    | stateWordent => exact absurd hp hs.2
    | _ => rfl
  have hholds := h.holds
  cases m with
  | reference name =>
    have hentity := h.entity name rfl
    by_cases hch : ch = chr ';'
    · right
      rcases hholds with hs | hs
      · exact ⟨hch, { p with state := .state0 }, name, by simp only [ArticleParser.expanding, hs,
          if_pos hch], rfl, .inl rfl, hentity⟩
      · exact ⟨hch, { p with state := .stateWord }, name, by simp only [ArticleParser.expanding, hs,
          if_pos hch], rfl, .inr rfl, hentity⟩
    · left
      constructor
      · rcases hholds with hs | hs <;> simp only [ArticleParser.expanding, hs, if_neg hch]
      · exact fun _ _ => hch
  | text | tagName =>
    left
    constructor
    · apply hnone
      rcases hholds with hs | hs <;> rw [hs] <;> decide
    · intro _ hm
      cases hm
  | tag0 | tagskip =>
    left
    constructor
    · apply hnone
      rw [show p.state = _ from hholds]
      decide
    · intro _ hm
      cases hm
  | char counter value =>
    left
    constructor
    · apply hnone
      rcases hholds.1 with hs | hs <;> rw [hs] <;> decide
    · intro _ hm
      cases hm

/-- The name of a reference begins behind its ampersand. -/
theorem Follows.entity_next (h : Follows p m) {ch : UInt8}
    (hch : ∀ name, m = .reference name → ch ≠ chr ';') {name : Bytes}
    (hname : m.next ch = .reference name) : (parse zimIsalnum p ch).1.entity = name := by
  have hholds := h.holds
  cases m with
  | text =>
    have hempty : p.entity = [] := by
      by_contra hne
      rcases h.settled hne with hent | hent
      · rcases hholds with hs | hs <;> exact State.noConfusion (hs.symm.trans hent)
      · rcases hholds with hs | hs <;> exact State.noConfusion (hs.symm.trans hent)
    rw [Mode.next] at hname
    split_ifs at hname with hlt hamp
    · cases hname
      rw [parse_run]
      rcases hholds with hs | hs
      · simp only [parseState, hs, if_neg hlt, if_pos hamp]
        exact hempty
      · simp only [parseState, hs, if_pos hamp]
        exact hempty
    · cases hstart : utf8Start ch <;> rw [hstart] at hname <;> cases hname
  | reference name' =>
    have hne := hch name' rfl
    rw [Mode.next, if_neg hne] at hname
    cases hname
    rw [parse_run, ← h.entity name' rfl]
    rcases hholds with hs | hs <;> simp only [parseState, hs, if_neg hne]
  | tag0 | tagName | tagskip | char counter value =>
    rw [Mode.next] at hname
    split_ifs at hname

theorem Follows.next (h : Follows p m) (ch : UInt8) :
    Follows (parse zimIsalnum p ch).1 (m.next ch) := by
  have hsettled := h.settled.parse zimIsalnum ch
  rcases h.expanding ch with ⟨-, hch⟩ | ⟨rfl, q, name, hexpand, rfl, hholds, rfl⟩
  · exact ⟨holds_next zimIsalnum h.holds hch, fun _ => h.entity_next zimIsalnum hch, hsettled⟩
  · obtain ⟨-, hmode⟩ := expansionBytes_accepted q.entity
    obtain ⟨hlast, -⟩ := holds_run zimIsalnum hholds (expansionBytes_ne q.entity)
    have hparse := congrArg Prod.fst (parse_expanding zimIsalnum hexpand)
    have hnext : (Mode.reference q.entity).next (chr ';') =
        if findEntity q.entity = some [chr '&'] then .reference [] else .text := by
      rw [Mode.next, if_pos rfl]
    rw [hmode] at hlast
    refine ⟨?_, ?_, hsettled⟩
    · rw [hparse, hnext]
      split_ifs at hlast ⊢
      · exact hlast
      · exact hlast
    · intro name hname
      rw [hnext] at hname
      split_ifs at hname
      cases hname
      rw [hparse]

theorem Follows.calls_iff (h : Follows p m) (str : Bytes) :
    (∀ call ∈ calls zimIsalnum p str, call.InDomain) ↔ m.accepts str = true := by
  induction str generalizing p m with
  | nil => exact iff_of_true (List.forall_mem_nil _) rfl
  | cons ch str ih =>
    have hexpansion : ∀ call ∈ (ArticleParser.expanding p ch).elim []
        fun q => plainCalls zimIsalnum q (expansionBytes q.entity), call.InDomain := by
      rcases h.expanding ch with ⟨hnone, -⟩ | ⟨-, q, name, hexpand, -, hholds, -⟩
      · rw [hnone]
        exact List.forall_mem_nil _
      · obtain ⟨haccepts, -⟩ := expansionBytes_accepted q.entity
        rw [hexpand]
        exact (holds_run zimIsalnum hholds (expansionBytes_ne q.entity)).2.mpr haccepts
    rw [calls, List.forall_mem_append, List.forall_mem_append,
      ArticleParser.calls_iff h.holds, ih (h.next zimIsalnum ch), Mode.accepts, Bool.and_eq_true,
      Bool.not_eq_true']
    exact and_congr_left fun _ => and_iff_left hexpansion

/-- Every argument of a classifier is in its domain exactly when the text has no byte that
offends. -/
theorem calls_inDomain_iff (str : Bytes) :
    (∀ call ∈ calls zimIsalnum .new str, call.InDomain) ↔ Mode.text.accepts str = true := by
  have hnew : Follows .new .text := ⟨.inl rfl, fun _ hname => Mode.noConfusion hname, settled_new⟩
  exact hnew.calls_iff zimIsalnum str

example : Mode.text.accepts [0xc3, 0xa9, 0xff] = false ∧
    Mode.text.accepts [0xf4, 0x90, 0x80, 0x80] = false ∧
    Mode.text.accepts [chr '<', chr 'b', chr ' ', 0xff, chr '>', 0xf4, 0x8f, 0xbf, 0xbf] =
      true := by decide

/-- The lone continuation byte 0x80 is passed to `std::isalnum` as -128. -/
theorem calls_continuation : ¬ ∃ zimIsalnum : UInt32 → Bool, ∀ str,
    ∀ call ∈ calls zimIsalnum .new str, call.InDomain := by
  rintro ⟨zimIsalnum, h⟩
  have hcall : Call.isalnum (-128) ∈ calls zimIsalnum .new [0x80] := List.mem_cons_self
  have hdomain := h _ _ hcall
  exact absurd hdomain.1 (by decide)

end Simulation
end Zim.Writer.ArticleParser
