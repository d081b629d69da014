import Mathlib.Data.List.TakeWhile
import Mathlib.Tactic.SplitIfs
import Zim.Lib.Streams

/-! `TemplateParser` (template.h, template.cpp): the texts, tokens and links of a template, as
events for a listener that has no influence on the parser. -/
namespace Zim
open Cxx

/-- The calls of a `TemplateParser::Event`. -/
inductive TemplateEvent where
  | onData (data : Bytes)
  | onToken (token : Bytes)
  | onLink (ns : UInt8) (url : Bytes)
  deriving DecidableEq, Repr

inductive TemplateParser.State where
  | data | lt | token0 | token | tokenEnd | link0 | link | title | titleEnd
  deriving DecidableEq, Repr

structure TemplateParser where
  data : Bytes
  save : ℕ
  token : ℕ
  tokenE : ℕ
  ns : UInt8
  state : TemplateParser.State
  deriving DecidableEq, Repr

namespace TemplateParser

def lt : UInt8 := 0x3c
def gt : UInt8 := 0x3e
def percent : UInt8 := 0x25
def slash : UInt8 := 0x2f

/-- A new parser with a listener. The positions and the namespace are set before they are used. -/
def new : TemplateParser := ⟨[], 0, 0, 0, 0, .data⟩

/-- `data.substr(pos, n)`. -/
def substr (p : TemplateParser) (pos n : ℕ) : Bytes := (p.data.drop pos).take n

/-- `data += ch`. -/
def push (p : TemplateParser) (ch : UInt8) : TemplateParser := { p with data := p.data ++ [ch] }

/-- `parse(char)`. -/
def parse (p : TemplateParser) (ch : UInt8) : TemplateParser × List TemplateEvent :=
  match p.state with
  | .data =>
    if ch = lt then ({ p.push ch with state := .lt, save := p.data.length }, [])
    else (p.push ch, [])
  | .lt => ({ p.push ch with state := if ch = percent then .token0 else .data }, [])
  | .token0 =>
    if ch = slash then ({ p.push ch with state := .link0 }, [])
    else ({ p.push ch with token := p.data.length, state := .token }, [])
  | .token => ({ p.push ch with state := if ch = percent then .tokenEnd else .token }, [])
  | .tokenEnd =>
    if ch = gt then
      ({ p with data := [], state := .data },
        [.onData (p.substr 0 p.save), .onToken (p.substr p.token (p.data.length - p.token - 1))])
    else ({ p.push ch with state := .data }, [])
  | .link0 => ({ p.push ch with ns := ch, state := .link }, [])
  | .link =>
    if ch = slash then ({ p.push ch with token := p.data.length + 1, state := .title }, [])
    else ({ p.push ch with state := .data }, [])
  | .title =>
    if ch = percent then ({ p.push ch with tokenE := p.data.length, state := .titleEnd }, [])
    else (p.push ch, [])
  | .titleEnd =>
    if ch = gt then
      ({ p with data := [], state := .data },
        [.onData ((p.push ch).substr 0 p.save),
          .onLink p.ns ((p.push ch).substr p.token (p.tokenE - p.token))])
    else (p.push ch, [])

/-- `parse(const std::string&)`. -/
def parseString : TemplateParser → Bytes → TemplateParser × List TemplateEvent
  | p, [] => (p, [])
  | p, ch :: s =>
    let (p, events) := parse p ch
    let (p, more) := parseString p s
    (p, events ++ more)

def flush (p : TemplateParser) : TemplateParser × List TemplateEvent :=
  ({ p with data := [], state := .data }, [.onData p.data])

/-- The events of a text and of `flush` behind it. -/
def eventsFrom (p : TemplateParser) (s : Bytes) : List TemplateEvent :=
  let (p, events) := p.parseString s
  events ++ p.flush.2

def eventsOf (s : Bytes) : List TemplateEvent := new.eventsFrom s

section Runs
variable {p : TemplateParser} {ch : UInt8} {s : Bytes}

@[simp] theorem eventsFrom_nil (p : TemplateParser) : p.eventsFrom [] = [.onData p.data] := rfl

theorem eventsFrom_cons (p : TemplateParser) (ch : UInt8) (s : Bytes) :
    p.eventsFrom (ch :: s) = (p.parse ch).2 ++ (p.parse ch).1.eventsFrom s := by
  simp only [eventsFrom, parseString, List.append_assoc]

theorem eventsFrom_append (p : TemplateParser) (s t : Bytes) :
    p.eventsFrom (s ++ t) = (p.parseString s).2 ++ (p.parseString s).1.eventsFrom t := by
  induction s generalizing p with
  | nil => rfl
  | cons ch s ih =>
    rw [List.cons_append, eventsFrom_cons, ih]
    simp only [parseString, List.append_assoc]

theorem parseString_append (p : TemplateParser) (s t : Bytes) :
    p.parseString (s ++ t) = (((p.parseString s).1.parseString t).1,
      (p.parseString s).2 ++ ((p.parseString s).1.parseString t).2) := by
  induction s generalizing p with
  | nil => rfl
  | cons ch s ih =>
    simp only [List.cons_append, parseString, ih, List.append_assoc]

end Runs

/-- The parser is in the text, with `data` behind the last token or link. -/
def InText (p : TemplateParser) (data : Bytes) : Prop := p.state = .data ∧ p.data = data

theorem inText_new : InText new [] := ⟨rfl, rfl⟩

/-- From here the parser reads `u` with these events, and is in the text again. -/
def Reads (p : TemplateParser) (u data : Bytes) (events : List TemplateEvent) : Prop :=
  ∃ p', p.parseString u = (p', events) ∧ InText p' data

theorem Reads.eventsFrom {p : TemplateParser} {u data : Bytes} {events : List TemplateEvent}
    (h : Reads p u data events) : ∃ p', InText p' data ∧
      ∀ s, p.eventsFrom (u ++ s) = events ++ p'.eventsFrom s := by
  obtain ⟨p', hp', htext⟩ := h
  refine ⟨p', htext, fun s => ?_⟩
  rw [eventsFrom_append, hp']

section Spans
variable {p : TemplateParser} {D t u : Bytes} {x n c : UInt8}

/-- Characters that a state only collects. -/
theorem parseString_span {state : State} (h : p.state = state)
    (hstep : ∀ (q : TemplateParser) (c : UInt8), q.state = state → c ∈ t →
      q.parse c = (q.push c, [])) :
    p.parseString t = ({ p with data := p.data ++ t }, []) := by
  induction t generalizing p with
  | nil => simp [parseString]
  | cons c t ih =>
    have hrest (q : TemplateParser) (c : UInt8) (hq : q.state = state) (hc : c ∈ t) :=
      hstep q c hq (List.mem_cons_of_mem _ hc)
    have hih := ih (p := p.push c) h hrest
    rw [parseString, hstep p c h List.mem_cons_self]
    simp only [hih]
    simp [push]

theorem parseString_open (h : InText p D) : p.parseString [lt, percent] =
    ({ p with data := D ++ [lt, percent], save := D.length, state := .token0 }, []) := by
  simp [parseString, parse, push, h.1, h.2]

/-- A token without the character that decides on it. -/
theorem parseString_tokenBody (h : InText p D) (hx : x ≠ slash) (ht : percent ∉ t) :
    p.parseString (lt :: percent :: x :: (t ++ [percent])) =
      ({ p with
          data := D ++ lt :: percent :: x :: (t ++ [percent])
          save := D.length
          token := D.length + 2
          state := .tokenEnd }, []) := by
  have hspan (q : TemplateParser) (hq : q.state = .token) :
      q.parseString t = ({ q with data := q.data ++ t }, []) :=
    parseString_span hq fun q c hq hc => by
      have hne : c ≠ percent := fun heq => ht (heq ▸ hc)
      simp [parse, push, hq, hne]
  have htext : lt :: percent :: x :: (t ++ [percent]) = [lt, percent] ++ (x :: (t ++ [percent])) :=
    rfl
  rw [htext, parseString_append, parseString_open h, parseString]
  simp only [parse, push, if_neg hx]
  rw [parseString_append, hspan _ rfl]
  simp [parseString, parse, push]

/-- A link up to the first `%` behind its url. -/
theorem parseString_linkBody (h : InText p D) (hu : percent ∉ u) :
    p.parseString (lt :: percent :: slash :: n :: slash :: (u ++ [percent])) =
      ({ p with
          data := D ++ lt :: percent :: slash :: n :: slash :: (u ++ [percent])
          save := D.length
          token := D.length + 5
          tokenE := D.length + 5 + u.length
          ns := n
          state := .titleEnd }, []) := by
  have hspan (q : TemplateParser) (hq : q.state = .title) :
      q.parseString u = ({ q with data := q.data ++ u }, []) :=
    parseString_span hq fun q c hq hc => by
      have hne : c ≠ percent := fun heq => hu (heq ▸ hc)
      simp [parse, push, hq, hne]
  have htext : lt :: percent :: slash :: n :: slash :: (u ++ [percent]) =
      [lt, percent] ++ (slash :: n :: slash :: (u ++ [percent])) := rfl
  rw [htext, parseString_append, parseString_open h, parseString]
  simp only [parse, push, if_true, parseString]
  rw [parseString_append, hspan _ rfl]
  simp [parseString, parse, push]
  omega

theorem parseString_openToken (h : InText p D) (hx : x ≠ slash) (ht : percent ∉ t) :
    (p.parseString (lt :: percent :: x :: t)).2 = [] := by
  have hbody := parseString_tokenBody h hx ht
  have htext : lt :: percent :: x :: (t ++ [percent]) = (lt :: percent :: x :: t) ++ [percent] :=
    rfl
  rw [htext, parseString_append] at hbody
  exact (List.append_eq_nil_iff.mp (congrArg Prod.snd hbody)).1

theorem parseString_openLink (h : InText p D) (hu : percent ∉ u) :
    (p.parseString (lt :: percent :: slash :: n :: slash :: u)).2 = [] := by
  have hbody := parseString_linkBody h (n := n) hu
  have htext : lt :: percent :: slash :: n :: slash :: (u ++ [percent]) =
      (lt :: percent :: slash :: n :: slash :: u) ++ [percent] := rfl
  rw [htext, parseString_append] at hbody
  exact (List.append_eq_nil_iff.mp (congrArg Prod.snd hbody)).1

/-- A link whose `%` no `>` follows. -/
theorem parseString_noEnd (h : InText p D) (hu : percent ∉ u) (ht : gt ∉ t) :
    p.parseString (lt :: percent :: slash :: n :: slash :: (u ++ percent :: t)) =
      ({ p with
          data := D ++ lt :: percent :: slash :: n :: slash :: (u ++ percent :: t)
          save := D.length
          token := D.length + 5
          tokenE := D.length + 5 + u.length
          ns := n
          state := .titleEnd }, []) := by
  have hspan (q : TemplateParser) (hq : q.state = .titleEnd) :
      q.parseString t = ({ q with data := q.data ++ t }, []) :=
    parseString_span hq fun q c hq hc => by
      have hne : c ≠ gt := fun heq => ht (heq ▸ hc)
      simp [parse, hq, hne]
  have htext : lt :: percent :: slash :: n :: slash :: (u ++ percent :: t) =
      (lt :: percent :: slash :: n :: slash :: (u ++ [percent])) ++ t := by simp
  rw [htext, parseString_append, parseString_linkBody h hu, hspan _ rfl]
  simp

theorem reads_char (h : InText p D) (hc : c ≠ lt) : Reads p [c] (D ++ [c]) [] := by
  refine ⟨{ p with data := D ++ [c] }, ?_, h.1, rfl⟩
  simp [parseString, parse, push, h.1, h.2, hc]

theorem reads_lt (h : InText p D) (hc : c ≠ percent) : Reads p [lt, c] (D ++ [lt, c]) [] := by
  refine ⟨{ p with data := D ++ [lt, c], save := D.length, state := .data }, ?_, rfl, rfl⟩
  simp [parseString, parse, push, h.1, h.2, hc]

theorem reads_token (h : InText p D) (hx : x ≠ slash) (ht : percent ∉ t) :
    Reads p (lt :: percent :: x :: (t ++ [percent, gt])) []
      [.onData D, .onToken (x :: t)] := by
  have htext : lt :: percent :: x :: (t ++ [percent, gt]) =
      (lt :: percent :: x :: (t ++ [percent])) ++ [gt] := by simp
  rw [Reads, htext, parseString_append, parseString_tokenBody h hx ht]
  refine ⟨_, Prod.ext rfl ?_, ?_⟩
  · have hlen : D.length + (t.length + 1 + 1 + 1 + 1) - (D.length + 2) - 1 = t.length + 1 := by
      omega
    simp [parseString, parse, substr, hlen]
  · simp [parseString, parse, InText]

/-- A token is given up at its first `%` without `>` behind it. -/
theorem reads_noToken (h : InText p D) (hx : x ≠ slash) (ht : percent ∉ t) (hc : c ≠ gt) :
    Reads p (lt :: percent :: x :: (t ++ [percent, c]))
      (D ++ lt :: percent :: x :: (t ++ [percent, c])) [] := by
  have htext : lt :: percent :: x :: (t ++ [percent, c]) =
      (lt :: percent :: x :: (t ++ [percent])) ++ [c] := by simp
  rw [Reads, htext, parseString_append, parseString_tokenBody h hx ht]
  refine ⟨_, Prod.ext rfl ?_, ?_⟩
  · simp [parseString, parse, hc]
  · simp [parseString, parse, push, InText, hc]

/-- A link is given up where no second `/` follows the namespace. -/
theorem reads_noLink (h : InText p D) (hc : c ≠ slash) :
    Reads p [lt, percent, slash, n, c] (D ++ [lt, percent, slash, n, c]) [] := by
  have htext : [lt, percent, slash, n, c] = [lt, percent] ++ [slash, n, c] := rfl
  rw [Reads, htext, parseString_append, parseString_open h]
  refine ⟨_, Prod.ext rfl ?_, ?_⟩
  · simp [parseString, parse, hc]
  · simp [parseString, parse, push, InText, hc]

/-- What stands between the `%` behind the url and `>` is in no event. -/
theorem reads_link (h : InText p D) (hu : percent ∉ u) (ht : gt ∉ t) :
    Reads p (lt :: percent :: slash :: n :: slash :: (u ++ percent :: (t ++ [gt]))) []
      [.onData D, .onLink n u] := by
  have htext : lt :: percent :: slash :: n :: slash :: (u ++ percent :: (t ++ [gt])) =
      (lt :: percent :: slash :: n :: slash :: (u ++ percent :: t)) ++ [gt] := by simp
  rw [Reads, htext, parseString_append, parseString_noEnd h hu ht]
  refine ⟨_, Prod.ext rfl ?_, ?_⟩
  · simp [parseString, parse, push, substr]
  · simp [parseString, parse, InText]

end Spans

section Silent
variable {p p' : TemplateParser} {s D : Bytes}

theorem parse_silent {ch : UInt8} (h : (p.parse ch).2 = []) :
    (p.parse ch).1.data = p.data ++ [ch] := by
  cases hs : p.state with
  | lt | token | link0 =>
    simp only [parse, hs]
    rfl
  | data | token0 | link | title =>
    simp only [parse, hs]
    split_ifs <;> rfl
  | tokenEnd | titleEnd =>
    simp only [parse, hs] at h ⊢
    split_ifs at h ⊢
    rfl

theorem parseString_silent (h : (p.parseString s).2 = []) :
    (p.parseString s).1.data = p.data ++ s := by
  induction s generalizing p with
  | nil => exact (List.append_nil _).symm
  | cons ch s ih =>
    simp only [parseString, List.append_eq_nil_iff] at h ⊢
    rw [ih h.2, parse_silent h.1, List.append_assoc, List.singleton_append]

/-- An unfinished token or link comes back as text. -/
theorem eventsFrom_silent (h : InText p D) (hs : (p.parseString s).2 = []) :
    p.eventsFrom s = [.onData (D ++ s)] := by
  rw [eventsFrom]
  simp only [hs, flush, List.nil_append, parseString_silent hs, h.2]

end Silent

section Lossless

/-- The text of an event. -/
def rendered : TemplateEvent → Bytes
  | .onData data => data
  | .onToken token => lt :: percent :: (token ++ [percent, gt])
  | .onLink ns url => lt :: percent :: slash :: ns :: slash :: (url ++ [percent, gt])

/-- The text behind the first `%`. -/
def behindUrl (s : Bytes) : Bytes := (s.dropWhile (· ≠ percent)).tail

/-- What stands between the first `%` behind the url of a link and the next `>`, for each link
that is ended by one. -/
def skips : Bytes → List Bytes
  | a :: b :: c :: s =>
    if a ≠ lt then skips (b :: c :: s)
    else if b ≠ percent then skips (c :: s)
    else if c ≠ slash then skips ((s.dropWhile (· ≠ percent)).drop 2)
    else match s with
      | _ :: d :: s =>
        if d ≠ slash then skips s
        else if (behindUrl s).contains gt then
          (behindUrl s).takeWhile (· ≠ gt) :: skips ((behindUrl s).dropWhile (· ≠ gt)).tail
        else []
      | _ => []
  | _ => []
  termination_by s => s.length
  decreasing_by
  · simp
  · simp
  · have hlen := (List.dropWhile_suffix (· ≠ percent) (l := s)).length_le
    simp only [List.length_drop, List.length_cons]
    omega
  · simp only [List.length_cons]
    omega
  · have htail := (List.tail_suffix (s.dropWhile (· ≠ percent))).length_le
    have hlen := (List.dropWhile_suffix (· ≠ percent) (l := s)).length_le
    have hlast := (List.tail_suffix ((behindUrl s).dropWhile (· ≠ gt))).length_le
    have hdrop := (List.dropWhile_suffix (· ≠ gt) (l := behindUrl s)).length_le
    rw [behindUrl] at hlast hdrop
    simp only [List.length_cons, behindUrl]
    omega

section First
variable {c : UInt8} {u : Bytes}

theorem dropWhile_absent (hu : c ∉ u) : u.dropWhile (· ≠ c) = [] := by
  rw [List.dropWhile_eq_nil_iff]
  exact fun x hx => decide_eq_true fun heq => hu (heq ▸ hx)

theorem dropWhile_first (hu : c ∉ u) (r : Bytes) :
    (u ++ c :: r).dropWhile (· ≠ c) = c :: r := by
  have hall : ∀ x ∈ u, decide (x ≠ c) = true := fun x hx =>
    decide_eq_true fun heq => hu (heq ▸ hx)
  rw [List.dropWhile_append_of_pos hall, List.dropWhile_cons_of_neg (by simp)]

theorem takeWhile_first (hu : c ∉ u) (r : Bytes) : (u ++ c :: r).takeWhile (· ≠ c) = u := by
  have hall : ∀ x ∈ u, decide (x ≠ c) = true := fun x hx =>
    decide_eq_true fun heq => hu (heq ▸ hx)
  rw [List.takeWhile_append_of_pos hall, List.takeWhile_cons_of_neg (by simp), List.append_nil]

theorem behindUrl_eq (hu : percent ∉ u) (r : Bytes) : behindUrl (u ++ percent :: r) = r := by
  rw [behindUrl, dropWhile_first hu, List.tail_cons]

theorem behindUrl_nil (hu : percent ∉ u) : behindUrl u = [] := by
  rw [behindUrl, dropWhile_absent hu, List.tail_nil]

end First

theorem skips_char {a : UInt8} (ha : a ≠ lt) (s : Bytes) : skips (a :: s) = skips s := by
  match s with
  | [] | [_] => simp [skips]
  | b :: c :: s =>
    rw [skips.eq_def]
    simp only [if_pos ha]

theorem skips_lt {b : UInt8} (hb : b ≠ percent) (s : Bytes) :
    skips (lt :: b :: s) = skips s := by
  match s with
  | [] => simp [skips]
  | c :: s =>
    rw [skips.eq_def]
    simp only [ne_eq, not_true_eq_false, if_false, if_pos hb]

theorem skips_token {c : UInt8} (hc : c ≠ slash) (s : Bytes) :
    skips (lt :: percent :: c :: s) = skips ((s.dropWhile (· ≠ percent)).drop 2) := by
  rw [skips.eq_def]
  simp only [ne_eq, not_true_eq_false, if_false, if_pos hc]

theorem skips_noLink {d : UInt8} (hd : d ≠ slash) (n : UInt8) (s : Bytes) :
    skips (lt :: percent :: slash :: n :: d :: s) = skips s := by
  rw [skips.eq_def]
  simp only [ne_eq, not_true_eq_false, if_false, if_pos hd]

theorem skips_link (n : UInt8) {u : Bytes} (hu : percent ∉ u) (r : Bytes) :
    skips (lt :: percent :: slash :: n :: slash :: (u ++ percent :: r)) =
      if r.contains gt then r.takeWhile (· ≠ gt) :: skips (r.dropWhile (· ≠ gt)).tail else [] := by
  rw [skips.eq_def]
  simp only [ne_eq, not_true_eq_false, if_false, behindUrl_eq hu]

theorem skips_unfinished (n : UInt8) {u : Bytes} (hu : percent ∉ u) :
    skips (lt :: percent :: slash :: n :: slash :: u) = [] := by
  rw [skips.eq_def]
  simp only [ne_eq, not_true_eq_false, if_false, behindUrl_nil hu, List.contains_nil,
    Bool.false_eq_true]

/-- The events after `data` keep all of the text but what is skipped. -/
def Kept (data s : Bytes) (events : List TemplateEvent) : Prop :=
  (events.flatMap rendered).length + (skips s).flatten.length = data.length + s.length ∧
    ((skips s).flatten = [] → events.flatMap rendered = data ++ s)

variable {p : TemplateParser} {s D : Bytes}

theorem Reads.kept {u D' : Bytes} {events : List TemplateEvent} (h : Reads p u D' events)
    (hrendered : events.flatMap rendered ++ D' = D ++ u) (hskips : skips (u ++ s) = skips s)
    (hrest : ∀ p', InText p' D' → Kept D' s (p'.eventsFrom s)) :
    Kept D (u ++ s) (p.eventsFrom (u ++ s)) := by
  obtain ⟨p', htext, heq⟩ := h.eventsFrom
  obtain ⟨hlen, hall⟩ := hrest p' htext
  have hsize := congrArg List.length hrendered
  simp only [List.length_append] at hsize
  rw [heq, Kept, hskips, List.flatMap_append]
  constructor
  · simp only [List.length_append]
    omega
  · intro hnone
    rw [hall hnone, ← List.append_assoc, hrendered, List.append_assoc]

theorem kept_silent (h : InText p D) (hs : (p.parseString s).2 = []) (hskips : skips s = []) :
    Kept D s (p.eventsFrom s) := by
  rw [eventsFrom_silent h hs, Kept, hskips]
  simp [rendered]

theorem kept_token {c : UInt8} (h : InText p D) (hc : c ≠ slash)
    (hrest : ∀ p' D', InText p' D' → Kept D' ((s.dropWhile (· ≠ percent)).drop 2)
      (p'.eventsFrom ((s.dropWhile (· ≠ percent)).drop 2))) :
    Kept D (lt :: percent :: c :: s) (p.eventsFrom (lt :: percent :: c :: s)) := by
  have hskips := skips_token hc s
  by_cases hnone : percent ∉ s
  · refine kept_silent h (parseString_openToken h hc hnone) ?_
    rw [hskips, dropWhile_absent hnone]
    simp [skips]
  · obtain ⟨t, r, rfl, ht⟩ := List.eq_append_cons_of_mem (not_not.mp hnone)
    rw [dropWhile_first ht] at hskips hrest
    cases r with
    | nil =>
      refine kept_silent h (congrArg Prod.snd (parseString_tokenBody h hc ht)) ?_
      rw [hskips]
      simp [skips]
    | cons d r =>
      have htext : lt :: percent :: c :: (t ++ percent :: d :: r) =
          (lt :: percent :: c :: (t ++ [percent, d])) ++ r := by simp
      rw [htext] at hskips ⊢
      by_cases hd : d = gt
      · subst hd
        refine (reads_token h hc ht).kept ?_ hskips (hrest · [])
        simp [rendered]
      · exact (reads_noToken h hc ht hd).kept rfl hskips (hrest · _)

theorem kept_link {n : UInt8} {u t : Bytes} (h : InText p D) (hu : percent ∉ u) (ht : gt ∉ t)
    (hrest : ∀ p', InText p' [] → Kept [] s (p'.eventsFrom s)) :
    Kept D (lt :: percent :: slash :: n :: slash :: (u ++ percent :: (t ++ gt :: s)))
      (p.eventsFrom
        (lt :: percent :: slash :: n :: slash :: (u ++ percent :: (t ++ gt :: s)))) := by
  have hskips := skips_link n hu (t ++ gt :: s)
  rw [if_pos (by simp), takeWhile_first ht, dropWhile_first ht, List.tail_cons] at hskips
  have htext : lt :: percent :: slash :: n :: slash :: (u ++ percent :: (t ++ gt :: s)) =
      (lt :: percent :: slash :: n :: slash :: (u ++ percent :: (t ++ [gt]))) ++ s := by simp
  obtain ⟨p', hp', heq⟩ := (reads_link h (n := n) hu ht).eventsFrom
  obtain ⟨hlen, hall⟩ := hrest p' hp'
  rw [Kept, hskips, htext, heq, List.flatMap_append]
  constructor
  · simp only [rendered, List.flatMap_cons, List.flatMap_nil, List.append_nil, List.length_append,
      List.length_cons, List.length_nil, List.flatten_cons] at hlen ⊢
    omega
  · intro hnone
    rw [List.flatten_cons, List.append_eq_nil_iff] at hnone
    rw [hall hnone.2, hnone.1]
    simp [rendered]

theorem eventsFrom_kept (h : InText p D) : Kept D s (p.eventsFrom s) := by
  fun_induction skips s generalizing p D with
  | case1 a b c s ha ih =>
    exact (reads_char h ha).kept rfl (skips_char ha _) fun p' hp' => ih hp'
  | case2 a b c s ha hb ih =>
    obtain rfl := not_not.mp ha
    exact (reads_lt h hb).kept rfl (skips_lt hb _) fun p' hp' => ih hp'
  | case3 a b c s ha hb hc ih =>
    obtain rfl := not_not.mp ha
    obtain rfl := not_not.mp hb
    exact kept_token h hc fun p' D' hp' => ih hp'
  | case4 a b c ha hb hc n d s hd ih =>
    obtain rfl := not_not.mp ha
    obtain rfl := not_not.mp hb
    obtain rfl := not_not.mp hc
    exact (reads_noLink h hd).kept rfl (skips_noLink hd n _) fun p' hp' => ih hp'
  | case5 a b c ha hb hc n d s hd hr ih =>
    obtain rfl := not_not.mp ha
    obtain rfl := not_not.mp hb
    obtain rfl := not_not.mp hc
    obtain rfl := not_not.mp hd
    have hpercent : percent ∈ s := by
      by_contra hnone
      rw [behindUrl_nil hnone] at hr
      cases hr
    obtain ⟨u, v, rfl, hu⟩ := List.eq_append_cons_of_mem hpercent
    rw [behindUrl_eq hu] at hr ih
    obtain ⟨t, v, rfl, ht⟩ := List.eq_append_cons_of_mem (List.contains_iff_mem.mp hr)
    rw [dropWhile_first ht, List.tail_cons] at ih
    exact kept_link h hu ht fun p' hp' => ih hp'
  | case6 a b c ha hb hc n d s hd hr =>
    obtain rfl := not_not.mp ha
    obtain rfl := not_not.mp hb
    obtain rfl := not_not.mp hc
    obtain rfl := not_not.mp hd
    by_cases hpercent : percent ∈ s
    · obtain ⟨u, v, rfl, hu⟩ := List.eq_append_cons_of_mem hpercent
      rw [behindUrl_eq hu] at hr
      have hnone : gt ∉ v := fun hmem => hr (List.contains_iff_mem.mpr hmem)
      refine kept_silent h (congrArg Prod.snd (parseString_noEnd h hu hnone)) ?_
      rw [skips_link n hu, if_neg hr]
    · exact kept_silent h (parseString_openLink h hpercent) (skips_unfinished n hpercent)
  | case7 a b c s ha hb hc hs =>
    obtain rfl := not_not.mp ha
    obtain rfl := not_not.mp hb
    obtain rfl := not_not.mp hc
    match s with
    | [] | [n] =>
      refine kept_silent h ?_ ?_
      · simp [parseString, parse, push, h.1]
      · simp [skips]
    | n :: d :: s => exact (hs n d s rfl).elim
  | case8 s hs =>
    match s with
    | [] => exact kept_silent h rfl (by simp [skips])
    | [a] =>
      refine kept_silent h ?_ ?_
      · by_cases ha : a = lt <;> simp [parseString, parse, h.1, ha]
      · simp [skips]
    | [a, b] =>
      refine kept_silent h ?_ ?_
      · by_cases ha : a = lt
        · simp [parseString, parse, h.1, ha]
        · by_cases hb : b = lt <;> simp [parseString, parse, push, h.1, ha, hb]
      · simp [skips]
    | a :: b :: c :: s => exact (hs a b c s rfl).elim

/-- The events hold all of the text exactly if the `%` behind the url of every link is followed
by `>`, where there is a `>` at all. -/
theorem rendered_eventsOf_iff (s : Bytes) :
    (eventsOf s).flatMap rendered = s ↔ ∀ k ∈ skips s, k = [] := by
  obtain ⟨hlen, hall⟩ := @eventsFrom_kept new s [] inText_new
  rw [← List.flatten_eq_nil_iff]
  constructor
  · intro heq
    have hsize := congrArg List.length heq
    rw [eventsOf] at hsize
    rw [List.length_nil] at hlen
    exact List.length_eq_zero_iff.mp (by omega)
  · exact hall

/-- In `<%/A/x%y>` the `y` is lost. -/
theorem rendered_eventsOf_ne : ¬ ∀ s : Bytes, (eventsOf s).flatMap rendered = s := by
  intro h
  exact absurd (h [lt, percent, slash, 0x41, slash, 0x78, percent, 0x79, gt]) (by decide)

end Lossless

end TemplateParser
end Zim
