import Zim.Writer.Zimindexer

/-! How the entries of an article depend on the articles processed before it: through the tag
that the event object keeps, and through nothing else. -/
namespace Zim.Writer
open Cxx Index

/-- The weight of a word under a tag. -/
def weight (tag : Bytes) (inTitle : Bool) : UInt8 :=
  if tag = Tag.h1 ∨ tag = Tag.H1 then 0
  else if tag = Tag.h2 ∨ tag = Tag.H2 then 1
  else if tag = Tag.h3 ∨ tag = Tag.H3 then 2
  else if tag = Tag.b ∨ tag = Tag.B then 2
  else if inTitle then 0 else 3

/-- A tag changes the weight of a word, unless it is a first heading and the word is in the
title. -/
theorem weight_eq_iff (tag : Bytes) (inTitle : Bool) : weight tag inTitle = weight [] inTitle ↔
    (marking tag → inTitle = true ∧ (tag = Tag.h1 ∨ tag = Tag.H1)) := by
  by_cases hm : marking tag
  · simp only [hm, forall_const]
    unfold marking at hm
    simp only [List.mem_cons, List.not_mem_nil, or_false] at hm
    rcases hm with rfl | rfl | rfl | rfl | rfl | rfl | rfl | rfl <;> cases inTitle <;> decide
  · simp only [hm, false_imp_iff, iff_true]
    unfold marking at hm
    simp only [List.mem_cons, List.not_mem_nil, or_false, not_or] at hm
    obtain ⟨h1, h2, h3, h4, h5, h6, h7, h8⟩ := hm
    simp only [weight, h1, h2, h3, h4, h5, h6, h7, h8, or_self, if_false]
    cases inTitle <;> decide

theorem Zimindexer.onWord_eq (z : Zimindexer) (word : Bytes) (pos : UInt32) :
    z.onWord word pos = if word ∈ z.trivialWords then []
      else [(word, ⟨z.aid, pos, weight z.tag z.inTitle⟩)] := by
  unfold onWord weight
  split_ifs <;>
    simp_all [onH1, onH2, onH3, onB, onP, insertUnlessTrivial, insertWord]

/-- An event that sets or clears the tag. -/
def ParseEvent.marks : ParseEvent → Bool
  | .onTag tag _ => marking tag
  | .onEndtag tag _ => marking tag
  | .onWord _ _ => false

/-- The tag after an event. -/
def ParseEvent.tagAfter (tag : Bytes) : ParseEvent → Bytes
  | .onTag t _ => if marking t then t else tag
  | .onEndtag t _ => if marking t then [] else tag
  | .onWord _ _ => tag

/-- The entries for events that are marked as of the title or of the data. -/
def writesOf (trivialWords : List Bytes) (aid : UInt32) :
    Bytes → List (Bool × ParseEvent) → List WordWrite
  | _, [] => []
  | tag, (inTitle, .onWord word pos) :: events =>
    (if trivialWords.contains word then [] else [(word, ⟨aid, pos, weight tag inTitle⟩)]) ++
      writesOf trivialWords aid tag events
  | tag, (_, event) :: events => writesOf trivialWords aid (event.tagAfter tag) events

theorem writesOf_append (trivialWords : List Bytes) (aid : UInt32) (tag : Bytes)
    (l m : List (Bool × ParseEvent)) : writesOf trivialWords aid tag (l ++ m) =
      writesOf trivialWords aid tag l ++
        writesOf trivialWords aid (l.foldl (fun tag e => e.2.tagAfter tag) tag) m := by
  induction l generalizing tag with
  | nil => rfl
  | cons e l ih =>
    obtain ⟨inTitle, event⟩ := e
    cases event <;> simp [writesOf, ih, ParseEvent.tagAfter]

theorem Zimindexer.handle_eq (z : Zimindexer) (events : List ParseEvent) :
    z.handle events = ({ z with tag := events.foldl ParseEvent.tagAfter z.tag },
      writesOf z.trivialWords z.aid z.tag (events.map (z.inTitle, ·))) := by
  induction events generalizing z with
  | nil => rfl
  | cons event events ih =>
    cases event with
    | onTag tag pos =>
      rw [handle, ih]
      by_cases h : marking tag <;> simp [onTag, h, writesOf, ParseEvent.tagAfter]
    | onEndtag tag pos =>
      rw [handle, ih]
      by_cases h : marking tag <;> simp [onEndtag, h, writesOf, ParseEvent.tagAfter]
    | onWord word pos =>
      simp [handle, ih, onWord_eq, writesOf, ParseEvent.tagAfter]

section Article
variable (zimIsalnum : UInt32 → Bool)

/-- The events of an article in their order. -/
def Article.events (a : Article) : List (Bool × ParseEvent) :=
  (a.parseTitle zimIsalnum).2.map (true, ·) ++ (a.parseData zimIsalnum).map (false, ·)

/-- The entries of an article are a function of the tag left before it. -/
theorem Zimindexer.process_writes (z : Zimindexer) (a : Article) :
    (z.process zimIsalnum a).2 =
      writesOf z.trivialWords a.aid z.tag (a.events zimIsalnum) := by
  simp only [process, handle_eq, Article.events, writesOf_append, List.foldl_map]

/-- Whether the entries are those of a new object: no tag was left open, or every word before
the first heading or `b` tag, trivial words apart, is in the title and the tag left open is
that of a first heading. -/
def Unaffected (trivialWords : List Bytes) (tag : Bytes) (a : Article) : Prop :=
  marking tag →
    ∀ e ∈ (a.events zimIsalnum).takeWhile (fun e => !e.2.marks), ∀ word pos,
      e.2 = .onWord word pos → word ∉ trivialWords →
        e.1 = true ∧ (tag = Tag.h1 ∨ tag = Tag.H1)

theorem writesOf_eq_iff (trivialWords : List Bytes) (aid : UInt32) (tag : Bytes)
    (events : List (Bool × ParseEvent)) :
    writesOf trivialWords aid tag events = writesOf trivialWords aid [] events ↔
      (marking tag → ∀ e ∈ events.takeWhile (fun e => !e.2.marks), ∀ word pos,
        e.2 = .onWord word pos → word ∉ trivialWords →
          e.1 = true ∧ (tag = Tag.h1 ∨ tag = Tag.H1)) := by
  induction events with
  | nil => simp [writesOf]
  | cons e events ih =>
    obtain ⟨inTitle, event⟩ := e
    cases event with
    | onTag t pos =>
      by_cases h : marking t
      · simp [writesOf, ParseEvent.tagAfter, ParseEvent.marks, h]
      · simp [writesOf, ParseEvent.tagAfter, ParseEvent.marks, h, ih]
    | onEndtag t pos =>
      by_cases h : marking t
      · simp [writesOf, ParseEvent.tagAfter, ParseEvent.marks, h]
      · simp [writesOf, ParseEvent.tagAfter, ParseEvent.marks, h, ih]
    | onWord word pos =>
      have hlead : ((inTitle, ParseEvent.onWord word pos) :: events).takeWhile
          (fun e => !e.2.marks) = (inTitle, ParseEvent.onWord word pos) ::
            events.takeWhile (fun e => !e.2.marks) := by
        simp [ParseEvent.marks]
      rw [hlead]
      simp only [List.forall_mem_cons, writesOf, List.contains_iff_mem]
      by_cases h : word ∈ trivialWords
      · simp only [h, if_true, List.nil_append, ih]
        refine imp_congr_right fun _ => ⟨fun hall => ⟨?_, hall⟩, And.right⟩
        intro w p he hw
        cases he
        exact absurd h hw
      · simp only [h, if_false, List.singleton_append, List.cons.injEq, Prod.mk.injEq, true_and,
          Wordentry.mk.injEq, ih, weight_eq_iff]
        rw [← imp_and]
        refine imp_congr_right fun _ => and_congr_left fun _ => ⟨?_, fun hall => hall _ _ rfl h⟩
        intro hw w p he _
        cases he
        exact hw

/-- The entries of every article are those of a new object exactly when each article is
unaffected by the tag left open before it. -/
theorem run_independent_iff (trivialWords : List Bytes) (articles : List Article) :
    (Zimindexer.new trivialWords).run zimIsalnum articles =
        articles.map (fun a => ((Zimindexer.new trivialWords).process zimIsalnum a).2) ↔
      ∀ before a later, articles = before ++ a :: later →
        Unaffected zimIsalnum trivialWords
          ((Zimindexer.new trivialWords).after zimIsalnum before).tag a := by
  have hkeep : ∀ (z : Zimindexer) (a : Article),
      (z.process zimIsalnum a).1.trivialWords = z.trivialWords := by
    intro z a
    simp only [Zimindexer.process, Zimindexer.handle_eq]
  have hgen : ∀ z : Zimindexer, z.trivialWords = trivialWords →
      (z.run zimIsalnum articles =
          articles.map (fun a => ((Zimindexer.new trivialWords).process zimIsalnum a).2) ↔
        ∀ before a later, articles = before ++ a :: later →
          Unaffected zimIsalnum trivialWords (z.after zimIsalnum before).tag a) := by
    induction articles with
    | nil => simp [Zimindexer.run]
    | cons a articles ih =>
      intro z hz
      have hhead : (z.process zimIsalnum a).2 =
          ((Zimindexer.new trivialWords).process zimIsalnum a).2 ↔
            Unaffected zimIsalnum trivialWords z.tag a := by
        rw [Zimindexer.process_writes, Zimindexer.process_writes, hz]
        exact writesOf_eq_iff trivialWords a.aid z.tag _
      simp only [Zimindexer.run, List.map_cons, List.cons.injEq, hhead,
        ih (z.process zimIsalnum a).1 ((hkeep z a).trans hz)]
      constructor
      · rintro ⟨hfirst, hrest⟩ before a' later he
        cases before with
        | nil =>
          cases he
          exact hfirst
        | cons a₀ before =>
          cases he
          exact hrest before a' later rfl
      · intro hall
        exact ⟨hall [] a articles rfl, fun before a' later he =>
          hall (a :: before) a' later (by rw [he]; rfl)⟩
  exact hgen _ rfl

end Article

/-- The text `<h1>` leaves its tag open for the word of the second article. -/
theorem not_run_independent :
    ¬ ∀ articles : List Article, (Zimindexer.new []).run (fun _ => false) articles =
      articles.map (fun a => ((Zimindexer.new []).process (fun _ => false) a).2) := by
  intro h
  have := h [⟨1, [], [chr '<', chr 'h', chr '1', chr '>']⟩, ⟨2, [], [chr 'x']⟩]
  revert this
  decide

end Zim.Writer
