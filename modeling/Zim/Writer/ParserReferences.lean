import Zim.Writer.PlainText

/-! What `ArticleParser` makes of the characters of a reference. -/
namespace Zim.Writer.ArticleParser
open Cxx Utf8

/-- The object at a call of `parseEntityChar`. -/
def expanding (p : ArticleParser) (ch : UInt8) : Option ArticleParser :=
  match p.state with
  | .stateEnt => if ch = chr ';' then some { p with state := .state0 } else none
  | .stateWordent => if ch = chr ';' then some { p with state := .stateWord } else none
  | _ => none

/-- What `parseEntityChar` parses. -/
def expansionBytes (entity : Bytes) : Bytes := (findEntity entity).getD [chr ' ']

theorem expansionBytes_ne (entity : Bytes) : ∀ ch ∈ expansionBytes entity, ch ≠ chr ';' := by
  rw [expansionBytes]
  cases hfind : findEntity entity with
  | none => exact List.forall_mem_singleton.mpr (by decide)
  | some str => exact expansion_ne hfind

section References
variable (zimIsalnum : UInt32 → Bool) {p : ArticleParser} {w name : Bytes}

/-- The parser is inside a reference behind the word `w`, and has its name so far. -/
inductive InReference (p : ArticleParser) : Bytes → Bytes → Prop
  | outside : p.state = .stateEnt → InReference p [] p.entity
  | inside {w : Bytes} : p.state = .stateWordent → p.word = w → w ≠ [] → InReference p w p.entity

theorem Ready.parse_ampersand (h : Ready p w) :
    InReference (parse zimIsalnum p (chr '&')).1 w p.entity ∧
      (parse zimIsalnum p (chr '&')).2 = [] := by
  rw [parse_run]
  have hlt : chr '&' ≠ chr '<' := by decide
  cases h with
  | outside hs =>
    simp only [parseState, hs, if_neg hlt, if_true, and_true]
    exact .outside rfl
  | inside hs hw hne =>
    simp only [parseState, hs, if_true, and_true]
    exact .inside rfl hw hne

theorem InReference.parse_name (h : InReference p w name) {ch : UInt8} (hch : ch ≠ chr ';') :
    InReference (parse zimIsalnum p ch).1 w (name ++ [ch]) ∧ (parse zimIsalnum p ch).2 = [] := by
  rw [parse_run]
  cases h with
  | outside hs =>
    simp only [parseState, hs, if_neg hch, and_true]
    exact .outside rfl
  | inside hs hw hne =>
    simp only [parseState, hs, if_neg hch, and_true]
    exact .inside rfl hw hne

theorem InReference.parse_names (h : InReference p w name) {str : Bytes} (hstr : chr ';' ∉ str) :
    InReference (parseString zimIsalnum p str).1 w (name ++ str) ∧
      (parseString zimIsalnum p str).2 = [] := by
  induction str generalizing p name with
  | nil =>
    rw [List.append_nil]
    exact ⟨h, rfl⟩
  | cons ch str ih =>
    rw [List.mem_cons, not_or] at hstr
    obtain ⟨hnext, hevents⟩ := h.parse_name zimIsalnum (Ne.symm hstr.1)
    obtain ⟨hlast, hmore⟩ := ih hnext hstr.2
    rw [List.append_assoc] at hlast
    rw [parseString_cons, hevents, hmore]
    exact ⟨hlast, rfl⟩

/-- Where `parseEntityChar` is called its characters are parsed, and the name is cleared. -/
theorem parse_expanding {p q : ArticleParser} {ch : UInt8} (h : expanding p ch = some q) :
    parse zimIsalnum p ch =
      let r := parseString zimIsalnum q (expansionBytes q.entity)
      ({ r.1 with entity := [], pos := r.1.pos + 1 }, r.2) := by
  have hexpand (q : ArticleParser) : expandWith (parse zimIsalnum) q =
      let r := parseString zimIsalnum q (expansionBytes q.entity)
      ({ r.1 with entity := [] }, r.2) := by
    unfold expandWith expansionBytes
    cases findEntity q.entity with
    | none => simp only [Option.getD_none, parseString_cons, parseString_nil, List.append_nil]
    | some str => rfl
  rw [parse_run]
  unfold expanding at h
  cases hs : p.state with
  | stateEnt | stateWordent =>
    rw [hs] at h
    simp only [Option.ite_none_right_eq_some, Option.some.injEq] at h
    obtain ⟨rfl, rfl⟩ := h
    simp only [parseState, hs, if_true, hexpand]
  | _ =>
    rw [hs] at h
    cases h

/-- At the end of a reference its name is expanded behind the word. -/
theorem InReference.expanding (h : InReference p w name) : ∃ q : ArticleParser,
    ArticleParser.expanding p (chr ';') = some q ∧ Ready q w ∧ q.entity = name ∧ q.pos = p.pos := by
  cases h with
  | outside hs =>
    refine ⟨{ p with state := .state0 }, ?_, .outside rfl, rfl, rfl⟩
    simp only [ArticleParser.expanding, hs, if_true]
  | inside hs hw hne =>
    refine ⟨{ p with state := .stateWord }, ?_, .inside rfl hw hne, rfl, rfl⟩
    simp only [ArticleParser.expanding, hs, if_true]

theorem Ready.with (h : Ready p w) {q : ArticleParser} (hstate : q.state = p.state)
    (hword : q.word = p.word) : Ready q w := by
  cases h with
  | outside hs => exact .outside (hstate.trans hs)
  | inside hs hw hne => exact .inside (hstate.trans hs) (hword.trans hw) hne

/-- A reference to an unknown name is a space. -/
theorem InReference.parse_unknown (h : InReference p w name) (hname : findEntity name = none) :
    Ready (parse zimIsalnum p (chr ';')).1 [] ∧
      (parse zimIsalnum p (chr ';')).2 = wordEvents w p.pos ∧
      (parse zimIsalnum p (chr ';')).1.entity = [] := by
  obtain ⟨q, hexpand, hready, hentity, hpos⟩ := h.expanding
  have hspace := hready.parse_ascii zimIsalnum (b := chr ' ') (by decide) (by decide) (by decide)
  have hnot : isalnum (chr ' ') = false := by decide
  have hbytes : expansionBytes q.entity = [chr ' '] := by
    rw [hentity, expansionBytes, hname, Option.getD_none]
  simp only [hnot, Bool.false_eq_true, if_false] at hspace
  rw [parse_expanding zimIsalnum hexpand, hbytes]
  simp only [parseString_cons, parseString_nil, List.append_nil, hspace, hpos, and_true]
  exact .outside rfl

end References
end Zim.Writer.ArticleParser
