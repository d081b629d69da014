import Mathlib.Algebra.Group.Nat.Even
import Mathlib.Data.List.Chain
import Mathlib.Data.List.DropRight
import Zim.Reader.Template

/-! Which templates `TemplateParser` takes apart as they were put together. -/
namespace Zim.TemplateParser
open Cxx

/-- A part of a template. -/
inductive Segment where
  | text (s : Bytes)
  | token (t : Bytes)
  | link (c : UInt8) (u : Bytes)
  deriving DecidableEq, Repr

namespace Segment

def source : Segment → Bytes
  | text s => s
  | token t => lt :: percent :: (t ++ [percent, gt])
  | link c u => lt :: percent :: slash :: c :: slash :: (u ++ [percent, gt])

def event : Segment → TemplateEvent
  | text s => .onData s
  | token t => .onToken t
  | link c u => .onLink c u

def isText : Segment → Bool
  | text _ => true
  | _ => false

def WellFormed : Segment → Prop
  | text s => ¬ [lt, percent] <:+: s
  | token t => t ≠ [] ∧ t.head? ≠ some slash ∧ percent ∉ t
  | link c u => c ≠ percent ∧ percent ∉ u

instance : DecidablePred WellFormed
  | text s => inferInstanceAs (Decidable (¬ [lt, percent] <:+: s))
  | token t => inferInstanceAs (Decidable (t ≠ [] ∧ t.head? ≠ some slash ∧ percent ∉ t))
  | link c u => inferInstanceAs (Decidable (c ≠ percent ∧ percent ∉ u))

end Segment

/-- A template put together from parts, of which no two texts are neighbours. -/
structure Segments where
  list : List Segment
  wellFormed : ∀ seg ∈ list, seg.WellFormed
  apart : list.IsChain fun a b => ¬ (a.isText = true ∧ b.isText = true)

def Segments.source (segs : Segments) : Bytes := segs.list.flatMap Segment.source

/-- The tokens and links of some events, each with the text in front of it, and the text behind
the last one. -/
def shape : Bytes → List TemplateEvent → List (Bytes × TemplateEvent) × Bytes
  | text, [] => ([], text)
  | text, .onData d :: events => shape (text ++ d) events
  | text, event :: events =>
    let (l, last) := shape [] events
    ((text, event) :: l, last)

/-- The parser reports the tokens and the links of a template, and the texts between them. -/
def Recognizes (segs : Segments) : Prop :=
  shape [] (eventsOf segs.source) = shape [] (segs.list.map Segment.event)

/-- The number of `<` that a text ends with. -/
def trailing (s : Bytes) : ℕ := (s.rtakeWhile (· = lt)).length

/-- Every text with a part behind it ends with an even number of `<`. -/
def Separated : List Segment → Prop
  | .text s :: seg :: segs => Even (trailing s) ∧ Separated (seg :: segs)
  | _ :: segs => Separated segs
  | [] => True

section Text
variable {p : TemplateParser} {s D : Bytes} {c : UInt8}

theorem trailing_concat (s : Bytes) (c : UInt8) :
    trailing (s ++ [c]) = if c = lt then trailing s + 1 else 0 := by
  rw [trailing, List.rtakeWhile_concat]
  by_cases hc : c = lt <;> simp [hc, trailing]

/-- The parser behind a text: it waits for a `%` where the number of `<` is odd. -/
def Behind (p : TemplateParser) (D s : Bytes) : Prop :=
  p.data = D ++ s ∧ p.state = if Even (trailing s) then .data else .lt

theorem parseString_text (h : InText p D) (hs : ¬ [lt, percent] <:+: s) :
    ∃ p', p.parseString s = (p', []) ∧ Behind p' D s := by
  induction s using List.reverseRecOn with
  | nil => exact ⟨p, rfl, by simpa using h.2, h.1⟩
  | append_singleton s c ih =>
    obtain ⟨p', hp', hdata, hstate⟩ := ih fun hinside => hs (hinside.trans ⟨[], [c], rfl⟩)
    have hopen : ¬ Even (trailing s) → c ≠ percent := by
      rintro hodd rfl
      apply hs
      cases s using List.reverseRecOn with
      | nil => exact absurd (by decide) hodd
      | append_singleton s d =>
        rw [trailing_concat] at hodd
        split_ifs at hodd with hd
        · exact ⟨s, [], by simp [hd]⟩
        · exact absurd (by decide) hodd
    refine ⟨(p'.parse c).1, ?_, ?_⟩
    · rw [parseString_append, hp']
      by_cases heven : Even (trailing s)
      · rw [if_pos heven] at hstate
        by_cases hc : c = lt <;> simp [parseString, parse, hstate, hc]
      · rw [if_neg heven] at hstate
        simp [parseString, parse, hstate]
    · rw [Behind, trailing_concat]
      by_cases heven : Even (trailing s)
      · rw [if_pos heven] at hstate
        by_cases hc : c = lt
        · simp [parse, push, hstate, hdata, hc, Nat.even_add_one, heven]
        · simp [parse, push, hstate, hdata, hc]
      · rw [if_neg heven] at hstate
        by_cases hc : c = lt
        · simp [parse, push, hstate, hdata, hc, Nat.even_add_one, heven,
            show lt ≠ percent by decide]
        · simp [parse, push, hstate, hdata, hc, hopen heven]

end Text

section Past
variable {p : TemplateParser} {n : ℕ} {s D : Bytes} {ch : UInt8}

def isMarkup : TemplateEvent → Bool
  | .onData _ => false
  | _ => true

/-- The first `n` characters of the buffer are text. -/
def Past (n : ℕ) (p : TemplateParser) : Prop :=
  n ≤ p.data.length ∧ (p.state ≠ .data → n ≤ p.save ∧ p.save ≤ p.data.length)

theorem Past.push (h : Past n p) (hs : p.state ≠ .data) {q : TemplateParser}
    (hdata : q.data = p.data ++ [ch]) (hsave : q.save = p.save) : Past n q := by
  obtain ⟨hn, hlen⟩ := h.2 hs
  have hsize : q.data.length = p.data.length + 1 := by simp [hdata]
  exact ⟨by omega, fun _ => by omega⟩

/-- A token or link that begins behind the first `n` characters has them in front of it. -/
theorem parse_past (h : Past n p) : ((p.parse ch).2 = [] ∧ Past n (p.parse ch).1) ∨
    ∃ d e, (p.parse ch).2 = [.onData d, e] ∧ n ≤ d.length ∧ isMarkup e = true := by
  cases hs : p.state with
  | data =>
    obtain ⟨hdata, -⟩ := h
    left
    by_cases hc : ch = lt
    · simp [parse, hs, hc, Past, push]
      omega
    · simp [parse, hs, hc, Past, push]
      omega
  | lt | token | link0 =>
    have hne : p.state ≠ .data := by rw [hs]; decide
    simp only [parse, hs]
    exact .inl ⟨trivial, h.push hne rfl rfl⟩
  | token0 | link | title =>
    have hne : p.state ≠ .data := by rw [hs]; decide
    simp only [parse, hs]
    split_ifs <;> exact .inl ⟨rfl, h.push hne rfl rfl⟩
  | tokenEnd | titleEnd =>
    have hne : p.state ≠ .data := by rw [hs]; decide
    obtain ⟨hn, hlen⟩ := h.2 hne
    simp only [parse, hs]
    split_ifs
    · refine .inr ⟨_, _, rfl, ?_, rfl⟩
      simp [substr, TemplateParser.push]
      omega
    · exact .inl ⟨rfl, h.push hne rfl rfl⟩

theorem shape_markup {e : TemplateEvent} (he : isMarkup e = true) (text : Bytes)
    (events : List TemplateEvent) : shape text (e :: events) =
      ((text, e) :: (shape [] events).1, (shape [] events).2) := by
  cases e with
  | onData d => cases he
  | onToken t => rfl
  | onLink ns u => rfl

theorem eventsFrom_past (h : Past n p) (s : Bytes) :
    ∀ first ∈ (shape [] (p.eventsFrom s)).1.head?, n ≤ first.1.length := by
  induction s generalizing p with
  | nil =>
    intro first hfirst
    cases hfirst
  | cons ch s ih =>
    rw [eventsFrom_cons]
    rcases parse_past h with ⟨hnone, hpast⟩ | ⟨d, e, heq, hlen, he⟩
    · rw [hnone, List.nil_append]
      exact ih hpast
    · intro first hfirst
      rw [heq] at hfirst
      simp only [List.cons_append, List.nil_append, shape, shape_markup he, List.head?_cons,
        Option.mem_def, Option.some.injEq] at hfirst
      rw [← hfirst]
      exact hlen

end Past

section Recognizes
variable {p : TemplateParser} {D : Bytes}

/-- A token or link is recognized in the text. -/
theorem reads_segment (h : InText p D) {seg : Segment} (hseg : seg.WellFormed)
    (hmarkup : seg.isText = false) : isMarkup seg.event = true ∧
      Reads p seg.source [] [.onData D, seg.event] := by
  cases seg with
  | text s => cases hmarkup
  | token t =>
    obtain ⟨hne, hslash, hpercent⟩ := hseg
    cases t with
    | nil => exact absurd rfl hne
    | cons x t =>
      have hx : x ≠ slash := fun heq => hslash (congrArg some heq)
      exact ⟨rfl, reads_token h hx fun ht => hpercent (.tail _ ht)⟩
  | link c u => exact ⟨rfl, reads_link h hseg.2 List.not_mem_nil⟩

/-- An odd number of `<` hides the one of the token or link behind it. -/
theorem shape_hidden {s : Bytes} {seg : Segment} (h : Behind p D s) (hodd : ¬ Even (trailing s))
    (hmarkup : seg.isText = false) (rest : Bytes) (l : List (Bytes × TemplateEvent))
    (last : Bytes) :
    shape [] (p.eventsFrom (seg.source ++ rest)) ≠ ((D ++ s, seg.event) :: l, last) := by
  obtain ⟨hdata, hstate⟩ := h
  rw [if_neg hodd] at hstate
  have hlt : ∃ u, seg.source = lt :: u := by
    cases seg with
    | text s => cases hmarkup
    | token t => exact ⟨_, rfl⟩
    | link c u => exact ⟨_, rfl⟩
  obtain ⟨u, hu⟩ := hlt
  have hstep : p.parse lt = ({ p.push lt with state := .data }, []) := by
    simp [parse, hstate, show lt ≠ percent by decide]
  have hpast : Past ((D ++ s).length + 1) { p.push lt with state := .data } := by
    constructor
    · simp only [push, hdata, List.length_append, List.length_singleton]
      omega
    · exact fun h => absurd rfl h
  rw [hu, List.cons_append, eventsFrom_cons, hstep, List.nil_append]
  intro heq
  have hfirst := eventsFrom_past hpast (u ++ rest) (D ++ s, seg.event) (by rw [heq]; rfl)
  simp only at hfirst
  omega

theorem shape_iff {segs : List Segment} (hwell : ∀ seg ∈ segs, seg.WellFormed)
    (hapart : segs.IsChain fun a b => ¬ (a.isText = true ∧ b.isText = true)) (h : InText p D) :
    shape [] (p.eventsFrom (segs.flatMap Segment.source)) = shape D (segs.map Segment.event) ↔
      Separated segs := by
  induction segs generalizing p D with
  | nil =>
    rw [List.flatMap_nil, eventsFrom_nil, h.2]
    simp [shape, Separated]
  | cons seg segs ih =>
    have hseg := hwell seg List.mem_cons_self
    have hrest : ∀ seg ∈ segs, seg.WellFormed := fun s hs => hwell s (List.mem_cons_of_mem _ hs)
    rw [List.flatMap_cons]
    cases htext : seg.isText with
    | false =>
      obtain ⟨hmarkup, hreads⟩ := reads_segment h hseg htext
      obtain ⟨p', hp', heq⟩ := hreads.eventsFrom
      have hsep : Separated (seg :: segs) ↔ Separated segs := by
        cases seg with
        | text s => cases htext
        | token t => rfl
        | link c u => rfl
      rw [heq, hsep, ← ih hrest hapart.tail hp', List.map_cons, shape_markup hmarkup]
      simp only [List.cons_append, List.nil_append, shape, shape_markup hmarkup, Prod.mk.injEq,
        List.cons.injEq, true_and]
      exact Prod.ext_iff.symm
    | true =>
      obtain ⟨s, rfl⟩ : ∃ s, seg = .text s := by
        cases seg with
        | text s => exact ⟨s, rfl⟩
        | token t => cases htext
        | link c u => cases htext
      obtain ⟨p', hp', hbehind⟩ := parseString_text h hseg
      rw [Segment.source, eventsFrom_append, hp', List.nil_append, List.map_cons, Segment.event,
        shape]
      cases segs with
      | nil =>
        rw [List.flatMap_nil, eventsFrom_nil, hbehind.1]
        simp [shape, Separated]
      | cons seg segs =>
        have hmarkup : seg.isText = false := by
          rw [List.isChain_cons_cons] at hapart
          exact eq_false_of_ne_true fun hseg => hapart.1 ⟨rfl, hseg⟩
        by_cases heven : Even (trailing s)
        · have htext' : InText p' (D ++ s) := ⟨hbehind.2.trans (if_pos heven), hbehind.1⟩
          rw [ih hrest hapart.tail htext', Separated, and_iff_right heven]
        · have hevent := (reads_segment inText_new (hrest seg List.mem_cons_self) hmarkup).1
          rw [Separated, List.map_cons, shape_markup hevent]
          exact iff_of_false (shape_hidden hbehind heven hmarkup _ _ _) fun hsep => heven hsep.1

end Recognizes

/-- Tokens and links are recognized exactly if every text in front of one ends with an even number
of `<`. -/
theorem recognizes_iff (segs : Segments) : Recognizes segs ↔ Separated segs.list :=
  shape_iff segs.wellFormed segs.apart inText_new

/-- The template `<<%t%>`. -/
def ltToken : Segments where
  list := [.text [lt], .token [0x74]]
  wellFormed := by decide
  apart := by decide

/-- Behind a `<` the token is taken for text. -/
theorem not_recognizes : ¬ ∀ segs, Recognizes segs := by
  intro h
  have hshape := h ltToken
  rw [Recognizes] at hshape
  exact absurd hshape (by decide)

end Zim.TemplateParser
