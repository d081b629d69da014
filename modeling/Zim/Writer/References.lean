import Zim.Writer.ParserReferences

/-! The words of a text with references, against those of the text with the expansions in their
place. -/
namespace Zim.Writer.ArticleParser
open Cxx Utf8 MaximalRuns

/-- A text as its characters and references. -/
inductive Token where
  | char (c : Char)
  | reference (name : List Char)
  deriving DecidableEq

namespace Token

/-- The characters of the source. -/
def text : Token → List Char
  | char c => [c]
  | reference name => '&' :: (name ++ [';'])

/-- The bytes in its place: for a reference the expansion in the table, or a space. -/
def replacement : Token → Bytes
  | char c => String.utf8EncodeChar c
  | reference name => (findEntity (encode name)).getD [chr ' ']

/-- Every `&` begins a reference with a name that is alphanumeric and not empty. -/
def WellFormed (zimIsalnum : UInt32 → Bool) : Token → Prop
  | char c => c ≠ '<' ∧ c ≠ '&'
  | reference name => name ≠ [] ∧ ∀ c ∈ name, alnum zimIsalnum c = true

end Token

/-- The words among some events. -/
def words (events : List ParseEvent) : List Bytes :=
  events.filterMap fun event =>
    match event with
    | .onWord word _ => some word
    | _ => none

/-- The maximal runs of a text in lower case. -/
def runWords (zimIsalnum : UInt32 → Bool) (cs : List Char) : List Bytes :=
  (runs (alnum zimIsalnum) cs).map fun run => lowered run.2

section Expansion

/-- The characters of the expansions in the table, none of which has more than three bytes. -/
def charsOf : Bytes → List Char
  | [a] => [Char.ofNat a.toNat]
  | [a, b] => [Char.ofNat (a.toNat % 0x20 * 64 + b.toNat % 64)]
  | [a, b, c] => [Char.ofNat (a.toNat % 0x10 * 4096 + b.toNat % 64 * 64 + c.toNat % 64)]
  | _ => []

/-- The characters that a reference stands for. -/
def expansion (name : List Char) : List Char :=
  match findEntity (encode name) with
  | some str => charsOf str
  | none => [' ']

/-- The names of the table are ASCII words of at least two letters, the expansions have at most
one character, which does not open a tag. -/
theorem entityTable_shape : ∀ e ∈ entityTable,
    e.1.toList.map chr = encode e.1.toList ∧ 2 ≤ e.1.toList.length ∧
    (e.1.toList.all fun c => c.val.toNat < 0x80 && isalnum (chr c)) = true ∧
    encode (charsOf e.2) = e.2 ∧ (charsOf e.2).length ≤ 1 ∧ '<' ∉ charsOf e.2 := by
  decide +kernel

theorem findEntity_encode {name : List Char} {str : Bytes}
    (h : findEntity (encode name) = some str) :
    ∃ e ∈ entityTable, name = e.1.toList ∧ str = e.2 := by
  rw [findEntity, Option.map_eq_some_iff] at h
  obtain ⟨e, hfind, rfl⟩ := h
  have he := List.mem_of_find?_eq_some hfind
  have hname := List.find?_some hfind
  simp only [decide_eq_true_eq] at hname
  rw [(entityTable_shape e he).1] at hname
  exact ⟨e, he, (encode_injective hname).symm, rfl⟩

theorem encode_expansion (name : List Char) :
    encode (expansion name) = (findEntity (encode name)).getD [chr ' '] := by
  rw [expansion]
  cases h : findEntity (encode name) with
  | none => rfl
  | some str =>
    obtain ⟨e, he, -, rfl⟩ := findEntity_encode h
    obtain ⟨-, -, -, hchars, -⟩ := entityTable_shape e he
    exact hchars

theorem expansion_length_le (name : List Char) : (expansion name).length ≤ 1 := by
  rw [expansion]
  cases h : findEntity (encode name) with
  | none => exact le_rfl
  | some str =>
    obtain ⟨e, he, -, rfl⟩ := findEntity_encode h
    obtain ⟨-, -, -, -, hlen, -⟩ := entityTable_shape e he
    exact hlen

theorem lt_not_mem_expansion (name : List Char) : '<' ∉ expansion name := by
  rw [expansion]
  cases h : findEntity (encode name) with
  | none => simp
  | some str =>
    obtain ⟨e, he, -, rfl⟩ := findEntity_encode h
    obtain ⟨-, -, -, -, -, hlt⟩ := entityTable_shape e he
    exact hlt

/-- A known name has two letters at least. -/
theorem two_le_countP {zimIsalnum : UInt32 → Bool} {name : List Char} {str : Bytes}
    (h : findEntity (encode name) = some str) : 2 ≤ name.countP (alnum zimIsalnum) := by
  obtain ⟨e, he, rfl, -⟩ := findEntity_encode h
  obtain ⟨-, hlen, hall, -⟩ := entityTable_shape e he
  have hcount : e.1.toList.countP (alnum zimIsalnum) = e.1.toList.length := by
    apply List.countP_eq_length.mpr
    intro c hc
    have hascii := List.all_eq_true.mp hall c hc
    simp only [Bool.and_eq_true, decide_eq_true_eq] at hascii
    rw [alnum, if_pos hascii.1]
    exact hascii.2
  rw [hcount]
  exact hlen

/-- A name with an ampersand in it is unknown. -/
theorem findEntity_of_mem {name : List Char} (h : '&' ∈ name) :
    findEntity (encode name) = none := by
  rw [Option.eq_none_iff_forall_ne_some]
  intro str hstr
  obtain ⟨e, he, rfl, -⟩ := findEntity_encode hstr
  obtain ⟨-, -, hall, -⟩ := entityTable_shape e he
  have hamp := List.all_eq_true.mp hall '&' h
  revert hamp
  decide

end Expansion

section Words
variable (zimIsalnum : UInt32 → Bool)

/-- The words of a text behind the beginning of one. -/
def wordsFrom : List Char → List Char → List Bytes
  | run, [] => closeWord run
  | run, c :: cs =>
    if alnum zimIsalnum c then wordsFrom (run ++ [c]) cs else closeWord run ++ wordsFrom [] cs

theorem map_close (i : ℕ) (run : List Char) :
    (close i run).map (fun run => lowered run.2) = closeWord run := by
  cases run <;> rfl

theorem wordsFrom_eq (i : ℕ) (run cs : List Char) :
    (runsFrom (alnum zimIsalnum) i run cs).map (fun run => lowered run.2) =
      wordsFrom zimIsalnum run cs := by
  induction cs generalizing i run with
  | nil => exact map_close i run
  | cons c cs ih =>
    rw [runsFrom, wordsFrom]
    split_ifs
    · exact ih _ _
    · rw [List.map_append, map_close, ih]

theorem runWords_eq (cs : List Char) : runWords zimIsalnum cs = wordsFrom zimIsalnum [] cs :=
  wordsFrom_eq zimIsalnum 0 [] cs

variable {zimIsalnum}

theorem wordsFrom_cons_of_not {c : Char} (hc : alnum zimIsalnum c = false) (run cs : List Char) :
    wordsFrom zimIsalnum run (c :: cs) = closeWord run ++ wordsFrom zimIsalnum [] cs := by
  rw [wordsFrom, if_neg (by simp [hc])]

theorem wordsFrom_append_of_not {l : List Char} (hl : ∀ c ∈ l, alnum zimIsalnum c = false)
    (cs : List Char) : wordsFrom zimIsalnum [] (l ++ cs) = wordsFrom zimIsalnum [] cs := by
  induction l with
  | nil => rfl
  | cons c l ih =>
    rw [List.cons_append, wordsFrom_cons_of_not (hl c List.mem_cons_self),
      ih fun d hd => hl d (List.mem_cons_of_mem _ hd)]
    rfl

theorem wordsFrom_append_congr {cs cs' : List Char}
    (h : ∀ run, wordsFrom zimIsalnum run cs = wordsFrom zimIsalnum run cs') (l run : List Char) :
    wordsFrom zimIsalnum run (l ++ cs) = wordsFrom zimIsalnum run (l ++ cs') := by
  induction l generalizing run with
  | nil => exact h run
  | cons c l ih => simp only [List.cons_append, wordsFrom, ih]

/-- The number of characters in the words is that of the alphanumeric ones in the text. -/
theorem countP_wordsFrom (run cs : List Char) :
    ((wordsFrom zimIsalnum run cs).map fun w => w.countP isFirst).sum =
      run.length + cs.countP (alnum zimIsalnum) := by
  have hclose (run : List Char) :
      ((closeWord run).map fun w => w.countP isFirst).sum = run.length := by
    cases run with
    | nil => rfl
    | cons c run =>
      simp only [closeWord, lowered, List.map_singleton, List.sum_singleton, countP_encode,
        List.length_map]
  induction cs generalizing run with
  | nil => exact hclose run
  | cons c cs ih =>
    rw [wordsFrom]
    by_cases hc : alnum zimIsalnum c = true
    · rw [if_pos hc, ih, List.countP_cons_of_pos hc, List.length_append, List.length_singleton]
      omega
    · rw [if_neg hc, List.map_append, List.sum_append, hclose, ih, List.countP_cons_of_neg hc,
        List.length_nil]
      omega

end Words

section Heard

/-- What the parser makes of a text behind a reference: an ampersand opens another one. -/
def behind (name : List Char) (plain swallowed : List Char) : List Char :=
  if expansion name = ['&'] then swallowed else expansion name ++ plain

/-- The characters that the parser gets to see of a text; inside a reference it has the name
so far. -/
def heard : Option (List Char) → List Token → List Char
  | _, [] => []
  | none, .char c :: ts => c :: heard none ts
  | none, .reference name :: ts => behind name (heard none ts) (heard (some []) ts)
  | some name, .char c :: ts =>
    if c = ';' then behind name (heard none ts) (heard (some []) ts)
    else heard (some (name ++ [c])) ts
  | some name, .reference name' :: ts =>
    behind (name ++ '&' :: name') (heard none ts) (heard (some []) ts)

variable (zimIsalnum : UInt32 → Bool) {p : ArticleParser} {run name : List Char}

theorem words_append (l m : List ParseEvent) : words (l ++ m) = words l ++ words m :=
  List.filterMap_append

theorem words_wordEvents (run : List Char) (pos : UInt32) :
    words (wordEvents (lowered run) pos) = closeWord run := by
  cases run with
  | nil => rfl
  | cons c run =>
    rw [wordEvents, if_neg (lowered_eq_nil.not.mpr (List.cons_ne_nil c run))]
    rfl

/-- What has become of a parser behind a text: the words so far and the one it is in. -/
def Heard (r : ArticleParser × List ParseEvent) (run cs : List Char) : Prop :=
  ∃ run', Ready r.1 (lowered run') ∧
    ∀ more, words r.2 ++ wordsFrom zimIsalnum run' more = wordsFrom zimIsalnum run (cs ++ more)

theorem Ready.parse_plain (h : Ready p (lowered run)) {cs : List Char}
    (hcs : ∀ c ∈ cs, c ≠ '<' ∧ c ≠ '&') :
    Heard zimIsalnum (parseString zimIsalnum p (encode cs)) run cs ∧
      (parseString zimIsalnum p (encode cs)).1.entity = p.entity := by
  induction cs generalizing p run with
  | nil => exact ⟨⟨run, h, fun _ => rfl⟩, rfl⟩
  | cons c cs ih =>
    obtain ⟨hlt, hamp⟩ := hcs c List.mem_cons_self
    have hrest (d : Char) (hd : d ∈ cs) := hcs d (List.mem_cons_of_mem _ hd)
    obtain ⟨hready, hevents, -, hentity⟩ := h.parse_char zimIsalnum hlt hamp
    rw [encode_cons, parseString_append]
    by_cases hc : alnum zimIsalnum c = true
    · rw [if_pos hc, lowered_singleton_append] at hready
      obtain ⟨⟨run', hlast, hwords⟩, hkept⟩ := ih hready hrest
      refine ⟨⟨run', hlast, ?_⟩, hkept.trans hentity⟩
      intro more
      rw [hevents, if_pos hc, List.nil_append, hwords, List.cons_append, wordsFrom, if_pos hc]
    · rw [if_neg hc] at hready
      obtain ⟨⟨run', hlast, hwords⟩, hkept⟩ := @ih _ [] hready hrest
      refine ⟨⟨run', hlast, ?_⟩, hkept.trans hentity⟩
      intro more
      rw [hevents, if_neg hc, words_append, words_wordEvents, List.append_assoc, hwords,
        List.cons_append, wordsFrom, if_neg hc]

/-- The parser is behind a part of a text, with a word and perhaps with a name. -/
def Hearing (p : ArticleParser) (run : List Char) : Option (List Char) → Prop
  | none => Ready p (lowered run) ∧ p.entity = []
  | some name => InReference p (lowered run) (encode name)

theorem InReference.endparse {w entity : Bytes} (h : InReference p w entity) :
    p.endparse.2 = wordEvents w p.pos := by
  cases h with
  | outside hs => simp only [ArticleParser.endparse, hs, wordEvents_nil]
  | inside hs hw hne => simp only [ArticleParser.endparse, hs, wordEvents, if_neg hne, wordPos, hw]

theorem InReference.cleared {w entity : Bytes} (h : InReference p w entity) (pos : UInt32) :
    InReference { p with entity := [], pos := pos } w [] := by
  cases h with
  | outside hs => exact @InReference.outside { p with entity := [], pos := pos } hs
  | inside hs hw hne => exact @InReference.inside { p with entity := [], pos := pos } w hs hw hne

/-- Other expansions than the ampersand are plain text. -/
theorem expansion_plain (h : expansion name ≠ ['&']) :
    ∀ c ∈ expansion name, c ≠ '<' ∧ c ≠ '&' := by
  intro c hc
  constructor
  · rintro rfl
    exact lt_not_mem_expansion name hc
  · rintro rfl
    have hlen := expansion_length_le name
    generalize expansion name = l at h hc hlen
    match l, hlen with
    | [c], _ => exact h (by rw [List.mem_singleton.mp hc])

/-- The end of a reference has the parser hear its expansion. -/
theorem InReference.hear_end (h : InReference p (lowered run) (encode name)) {rest : Bytes}
    {plain swallowed : List Char}
    (hplain : ∀ q run', Hearing q run' none →
      words (eventsOf zimIsalnum q rest) = wordsFrom zimIsalnum run' plain)
    (hswallowed : ∀ q run', Hearing q run' (some []) →
      words (eventsOf zimIsalnum q rest) = wordsFrom zimIsalnum run' swallowed) :
    words (eventsOf zimIsalnum p (chr ';' :: rest)) =
      wordsFrom zimIsalnum run (behind name plain swallowed) := by
  obtain ⟨q, hend, hq, hentity, -⟩ := h.expanding
  have hexpand := parse_expanding zimIsalnum hend
  have hbytes : expansionBytes q.entity = encode (expansion name) := by
    rw [hentity, encode_expansion, expansionBytes]
  rw [hbytes] at hexpand
  rw [eventsOf_cons, words_append, hexpand, behind]
  by_cases hexp : expansion name = ['&']
  · obtain ⟨hin, hevents⟩ := hq.parse_ampersand zimIsalnum
    have hnext := hswallowed _ run (hin.cleared ((parse zimIsalnum q (chr '&')).1.pos + 1))
    have hstr : encode ['&'] = [chr '&'] := by decide
    rw [if_pos hexp, hexp, hstr]
    simp only [parseString_cons, parseString_nil, List.append_nil, hevents]
    exact hnext
  · obtain ⟨⟨run', hready, hwords⟩, -⟩ := hq.parse_plain zimIsalnum (expansion_plain hexp)
    have hnext := hplain { (parseString zimIsalnum q (encode (expansion name))).1 with
      entity := []
      pos := (parseString zimIsalnum q (encode (expansion name))).1.pos + 1 } run'
      ⟨hready.with rfl rfl, rfl⟩
    rw [if_neg hexp, ← hwords]
    exact congrArg _ hnext

theorem name_semicolon (hname : ∀ c ∈ name, alnum zimIsalnum c = true) : ';' ∉ name := by
  intro h
  have hnot : alnum zimIsalnum ';' = false := rfl
  rw [hname ';' h] at hnot
  cases hnot

/-- The words that the parser reports are those of the text it hears. -/
theorem Hearing.words_eq {ts : List Token} (hts : ∀ t ∈ ts, t.WellFormed zimIsalnum)
    {mode : Option (List Char)} (h : Hearing p run mode) :
    words (eventsOf zimIsalnum p (encode (ts.flatMap Token.text))) =
      wordsFrom zimIsalnum run (heard mode ts) := by
  induction ts generalizing p run mode with
  | nil =>
    have hend : p.endparse.2 = wordEvents (lowered run) p.pos := by
      cases mode with
      | none => exact h.1.endparse
      | some name => exact InReference.endparse h
    have hheard : heard mode [] = [] := by cases mode <;> rfl
    rw [hheard]
    exact (congrArg words hend).trans (words_wordEvents run p.pos)
  | cons t ts ih =>
    have hrec {q : ArticleParser} {run' : List Char} {mode' : Option (List Char)}
        (hq : Hearing q run' mode') := ih (fun t ht => hts t (List.mem_cons_of_mem _ ht)) hq
    have hfirst := hts t List.mem_cons_self
    rw [List.flatMap_cons]
    cases mode with
    | none =>
      obtain ⟨hready, hentity⟩ := h
      cases t with
      | char c =>
        have hplain : ∀ d ∈ [c], d ≠ '<' ∧ d ≠ '&' := by simpa [Token.WellFormed] using hfirst
        obtain ⟨⟨run', hnext, hwords⟩, hkept⟩ := hready.parse_plain zimIsalnum hplain
        rw [Token.text, encode_append, eventsOf_append, words_append,
          @hrec _ _ none ⟨hnext, hkept.trans hentity⟩, heard]
        exact hwords _
      | reference name =>
        obtain ⟨hopen, hno⟩ := hready.parse_ampersand zimIsalnum
        obtain ⟨hname, hnames⟩ := hopen.parse_names zimIsalnum
          (chr_not_mem (by decide) (name_semicolon zimIsalnum hfirst.2))
        rw [hentity] at hname
        have hstr : encode (Token.text (.reference name) ++ ts.flatMap Token.text) =
            chr '&' :: (encode name ++ chr ';' :: encode (ts.flatMap Token.text)) := by
          simp only [Token.text, List.cons_append, List.append_assoc, encode_cons, encode_append]
          rfl
        rw [hstr, eventsOf_cons, hno, List.nil_append, eventsOf_append, hnames, List.nil_append]
        exact hname.hear_end zimIsalnum (fun _ _ hq => hrec hq) (fun _ _ hq => hrec hq)
    | some name =>
      cases t with
      | char c =>
        by_cases hc : c = ';'
        · have hstr : encode (Token.text (.char c) ++ ts.flatMap Token.text) =
              chr ';' :: encode (ts.flatMap Token.text) := by
            rw [hc]
            rfl
          rw [hstr, heard, if_pos hc]
          exact InReference.hear_end zimIsalnum h (fun _ _ hq => hrec hq) (fun _ _ hq => hrec hq)
        · obtain ⟨hname, hnames⟩ := InReference.parse_names zimIsalnum h
            (@chr_not_mem ';' [c] (by decide) (by simpa using Ne.symm hc))
          rw [← encode_append] at hname
          rw [Token.text, encode_append, eventsOf_append, hnames, List.nil_append, heard,
            if_neg hc]
          exact @hrec _ _ (some (name ++ [c])) hname
      | reference name' =>
        have hsemi : ';' ∉ '&' :: name' := by
          rw [List.mem_cons, not_or]
          exact ⟨by decide, name_semicolon zimIsalnum hfirst.2⟩
        obtain ⟨hname, hnames⟩ := InReference.parse_names zimIsalnum h
          (chr_not_mem (by decide) hsemi)
        have hstr : encode (Token.text (.reference name') ++ ts.flatMap Token.text) =
            encode ('&' :: name') ++ chr ';' :: encode (ts.flatMap Token.text) := by
          simp only [Token.text, List.cons_append, List.append_assoc, encode_cons, encode_append]
          rfl
        rw [← encode_append] at hname
        rw [hstr, eventsOf_append, hnames, List.nil_append]
        exact hname.hear_end zimIsalnum (fun _ _ hq => hrec hq) (fun _ _ hq => hrec hq)

end Heard

section Transparent
variable (zimIsalnum : UInt32 → Bool)

/-- The text with the expansions in the place of the references. -/
def expanded (ts : List Token) : List Char :=
  ts.flatMap fun t =>
    match t with
    | .char c => [c]
    | .reference name => expansion name

/-- Behind a reference to the ampersand, up to a semicolon or through the next reference, the
text has no alphanumeric character. -/
def Transparent : Bool → List Token → Prop
  | _, [] => True
  | false, .char _ :: ts => Transparent false ts
  | false, .reference name :: ts => Transparent (expansion name = ['&']) ts
  | true, .char c :: ts =>
    if c = ';' then Transparent false ts else alnum zimIsalnum c = false ∧ Transparent true ts
  | true, .reference name :: ts =>
    (∀ c ∈ expansion name, alnum zimIsalnum c = false) ∧ Transparent false ts

/-- Nothing is lost inside of a reference, its name so far included. -/
def Lossless : Option (List Char) → List Token → Prop
  | none, ts => Transparent zimIsalnum false ts
  | some name, ts => name.countP (alnum zimIsalnum) = 0 ∧ Transparent zimIsalnum true ts

variable {zimIsalnum} {name : List Char}

theorem expanded_char (c : Char) (ts : List Token) :
    expanded (.char c :: ts) = c :: expanded ts := rfl

theorem expanded_reference (name : List Char) (ts : List Token) :
    expanded (.reference name :: ts) = expansion name ++ expanded ts := rfl

theorem expansion_of_none (h : findEntity (encode name) = none) : expansion name = [' '] := by
  rw [expansion, h]

/-- An expansion has fewer letters than the name, or the name is unknown. -/
theorem countP_expansion_lt (h : expansion name ≠ [' ']) :
    (expansion name).countP (alnum zimIsalnum) < name.countP (alnum zimIsalnum) := by
  have hle : (expansion name).countP (alnum zimIsalnum) ≤ 1 :=
    List.countP_le_length.trans (expansion_length_le name)
  cases hfind : findEntity (encode name) with
  | none => exact absurd (expansion_of_none hfind) h
  | some str => exact hle.trans_lt (two_le_countP hfind)

theorem behind_space (h : expansion name = [' ']) (plain swallowed : List Char) :
    behind name plain swallowed = ' ' :: plain := by
  have hne : [' '] ≠ ['&'] := by decide
  rw [behind, h, if_neg hne, List.singleton_append]

theorem countP_cons_of_false {c : Char} (hc : alnum zimIsalnum c = false) (cs : List Char) :
    (c :: cs).countP (alnum zimIsalnum) = cs.countP (alnum zimIsalnum) := by
  apply List.countP_cons_of_neg
  rw [hc]
  exact Bool.false_ne_true

theorem countP_behind_le {plain swallowed : List Char} {n : ℕ}
    (hplain : plain.countP (alnum zimIsalnum) ≤ n)
    (hswallowed : swallowed.countP (alnum zimIsalnum) ≤ n) :
    (behind name plain swallowed).countP (alnum zimIsalnum) ≤
      (expansion name).countP (alnum zimIsalnum) + n := by
  rw [behind]
  split_ifs
  · omega
  · rw [List.countP_append]
    omega

/-- What is swallowed is not heard: no letter is heard that is not in the text, and where none
is lost, none was swallowed. -/
theorem countP_heard (mode : Option (List Char)) (ts : List Token) :
    (heard mode ts).countP (alnum zimIsalnum) ≤
        (mode.getD []).countP (alnum zimIsalnum) + (expanded ts).countP (alnum zimIsalnum) ∧
      ((heard mode ts).countP (alnum zimIsalnum) =
        (mode.getD []).countP (alnum zimIsalnum) + (expanded ts).countP (alnum zimIsalnum) →
        Lossless zimIsalnum mode ts) := by
  induction ts generalizing mode with
  | nil =>
    cases mode with
    | none => exact ⟨Nat.zero_le _, fun _ => trivial⟩
    | some name => exact ⟨Nat.zero_le _, fun h => ⟨h.symm, trivial⟩⟩
  | cons t ts ih =>
    obtain ⟨hplain, hclear⟩ := ih none
    obtain ⟨hswallowed, hempty⟩ := ih (some [])
    simp only [Option.getD_none, List.countP_nil, Nat.zero_add] at hplain hclear
    simp only [Option.getD_some, List.countP_nil, Nat.zero_add] at hswallowed hempty
    cases mode with
    | none =>
      cases t with
      | char c =>
        simp only [heard, expanded_char, Option.getD_none, List.countP_nil, Nat.zero_add,
          List.countP_cons]
        exact ⟨Nat.add_le_add_right hplain _, fun h => hclear (Nat.add_right_cancel h)⟩
      | reference name =>
        simp only [heard, expanded_reference, Option.getD_none, List.countP_nil, Nat.zero_add,
          List.countP_append]
        refine ⟨countP_behind_le hplain hswallowed, fun h => ?_⟩
        by_cases hexp : expansion name = ['&']
        · rw [behind, if_pos hexp, hexp, countP_cons_of_false rfl, List.countP_nil,
            Nat.zero_add] at h
          simp only [Lossless, Transparent, hexp, decide_true]
          exact (hempty h).2
        · rw [behind, if_neg hexp, List.countP_append] at h
          simp only [Lossless, Transparent, hexp, decide_false]
          exact hclear (Nat.add_left_cancel h)
    | some name =>
      cases t with
      | char c =>
        by_cases hc : c = ';'
        · have hnot : (c :: expanded ts).countP (alnum zimIsalnum) =
              (expanded ts).countP (alnum zimIsalnum) := by
            rw [hc]
            exact countP_cons_of_false rfl _
          simp only [heard, if_pos hc, expanded_char, hnot, Option.getD_some, Lossless,
            Transparent]
          by_cases hexp : expansion name = [' ']
          · rw [behind_space hexp, countP_cons_of_false rfl]
            exact ⟨by omega, fun h => ⟨by omega, hclear (by omega)⟩⟩
          · have hlt := @countP_expansion_lt zimIsalnum name hexp
            have hle := @countP_behind_le zimIsalnum name _ _ _ hplain hswallowed
            exact ⟨by omega, fun h => by omega⟩
        · have hnext := ih (some (name ++ [c]))
          simp only [heard, if_neg hc, expanded_char, Option.getD_some, List.countP_append,
            List.countP_cons, List.countP_nil, Lossless, Transparent] at hnext ⊢
          refine ⟨by omega, fun h => ?_⟩
          obtain ⟨hzero, hrest⟩ := hnext.2 (by omega)
          have hnot : alnum zimIsalnum c = false := by
            by_contra hc
            rw [Bool.not_eq_false] at hc
            rw [if_pos hc] at hzero
            omega
          exact ⟨by omega, hnot, hrest⟩
      | reference name' =>
        have hexp := expansion_of_none
          (findEntity_of_mem (List.mem_append_right name (List.mem_cons_self (l := name'))))
        have hspace : alnum zimIsalnum ' ' = false := rfl
        simp only [heard, behind_space hexp, countP_cons_of_false hspace, expanded_reference,
          Option.getD_some, List.countP_append, Lossless, Transparent]
        refine ⟨by omega, fun h => ⟨by omega, ?_, hclear (by omega)⟩⟩
        intro c hc
        have hzero : (expansion name').countP (alnum zimIsalnum) = 0 := by omega
        rw [List.countP_eq_zero] at hzero
        simpa using hzero c hc

/-- Where nothing is lost the words that are heard are those of the text, with an ampersand for
what is swallowed so far. -/
theorem wordsFrom_heard {mode : Option (List Char)} {ts : List Token}
    (h : Lossless zimIsalnum mode ts) (run : List Char) :
    wordsFrom zimIsalnum run (heard mode ts) =
      wordsFrom zimIsalnum run (mode.elim [] (fun _ => ['&']) ++ expanded ts) := by
  have hamp : alnum zimIsalnum '&' = false := rfl
  have hspace : alnum zimIsalnum ' ' = false := rfl
  induction ts generalizing mode run with
  | nil =>
    cases mode with
    | none => rfl
    | some name => exact (List.append_nil _).symm
  | cons t ts ih =>
    have hplain (h : Transparent zimIsalnum false ts) (run : List Char) :
        wordsFrom zimIsalnum run (heard none ts) = wordsFrom zimIsalnum run (expanded ts) :=
      @ih none h run
    cases mode with
    | none =>
      cases t with
      | char c =>
        simp only [heard, Option.elim_none, List.nil_append, expanded_char, wordsFrom, hplain h]
      | reference name =>
        simp only [Lossless, Transparent] at h
        rw [heard, behind, Option.elim_none, List.nil_append, expanded_reference]
        by_cases hexp : expansion name = ['&']
        · simp only [hexp, decide_true] at h
          rw [if_pos hexp, hexp]
          exact @ih (some []) ⟨rfl, h⟩ run
        · simp only [hexp, decide_false] at h
          rw [if_neg hexp]
          exact wordsFrom_append_congr (hplain h) _ run
    | some name =>
      obtain ⟨hname, hrest⟩ := h
      simp only [Option.elim_some, List.singleton_append, wordsFrom_cons_of_not hamp] at ih ⊢
      cases t with
      | char c =>
        rw [expanded_char]
        by_cases hc : c = ';'
        · simp only [Transparent, if_pos hc] at hrest
          have hexp : expansion name = [' '] := by
            by_contra hexp
            have hlt := @countP_expansion_lt zimIsalnum name hexp
            omega
          have hsemi : alnum zimIsalnum c = false := by
            rw [hc]
            rfl
          rw [heard, if_pos hc, behind_space hexp, wordsFrom_cons_of_not hspace,
            wordsFrom_cons_of_not hsemi, hplain hrest]
          rfl
        · simp only [Transparent, if_neg hc] at hrest
          have hnext := @ih (some (name ++ [c])) ⟨?_, hrest.2⟩ run
          · rw [heard, if_neg hc, hnext, wordsFrom_cons_of_not hrest.1]
            simp only [Option.elim_some, List.singleton_append, wordsFrom_cons_of_not hamp]
            rfl
          · rw [List.countP_append, hname, countP_cons_of_false hrest.1]
            rfl
      | reference name' =>
        have hexp := expansion_of_none
          (findEntity_of_mem (List.mem_append_right name (List.mem_cons_self (l := name'))))
        rw [heard, behind_space hexp, wordsFrom_cons_of_not hspace, hplain hrest.2,
          expanded_reference, wordsFrom_append_of_not hrest.1]

/-- The parser hears a text as its expansion exactly when no alphanumeric character is swallowed
behind an ampersand. -/
theorem words_heard_iff (ts : List Token) :
    wordsFrom zimIsalnum [] (heard none ts) = wordsFrom zimIsalnum [] (expanded ts) ↔
      Transparent zimIsalnum false ts := by
  constructor
  · intro h
    have hcount := congrArg (fun ws => (ws.map fun w => w.countP isFirst).sum) h
    simp only [countP_wordsFrom, List.length_nil, Nat.zero_add] at hcount
    apply (countP_heard none ts).2
    simpa using hcount
  · intro h
    exact @wordsFrom_heard zimIsalnum none ts h []

theorem encode_expanded (ts : List Token) :
    encode (expanded ts) = ts.flatMap Token.replacement := by
  induction ts with
  | nil => rfl
  | cons t ts ih =>
    cases t with
    | char c => rw [expanded_char, encode_cons, ih, List.flatMap_cons, Token.replacement]
    | reference name =>
      rw [expanded_reference, encode_append, encode_expansion, ih, List.flatMap_cons,
        Token.replacement]

end Transparent

section Result
variable (zimIsalnum : UInt32 → Bool)

theorem words_text_iff {ts : List Token} (hts : ∀ t ∈ ts, t.WellFormed zimIsalnum) :
    words (eventsOf zimIsalnum .new (encode (ts.flatMap Token.text))) =
        runWords zimIsalnum (expanded ts) ↔
      Transparent zimIsalnum false ts := by
  have hnew : Hearing .new [] none := ⟨.outside rfl, rfl⟩
  rw [hnew.words_eq zimIsalnum hts, runWords_eq]
  exact words_heard_iff ts

/-- A new parser reports of a text with references the words of the text with the expansions in
their place exactly when no reference to the ampersand swallows a letter or a digit. -/
theorem words_references_iff {ts : List Token} (hts : ∀ t ∈ ts, t.WellFormed zimIsalnum)
    {cs : List Char} (hcs : encode cs = ts.flatMap Token.replacement) :
    words (eventsOf zimIsalnum .new (encode (ts.flatMap Token.text))) = runWords zimIsalnum cs ↔
      Transparent zimIsalnum false ts := by
  have hexpanded : cs = expanded ts := encode_injective (hcs.trans (encode_expanded ts).symm)
  rw [hexpanded]
  exact words_text_iff zimIsalnum hts

theorem words_references_two :
    words (eventsOf (fun _ => true) .new (encode
        ([.reference ['a', 'm', 'p'], .char ' ', .reference ['x'], .char 'b'].flatMap
          Token.text))) =
      runWords (fun _ => true) ['&', ' ', ' ', 'b'] := by
  apply (words_references_iff (fun _ => true) ?_ (by decide)).mpr
  · have hamp : expansion ['a', 'm', 'p'] = ['&'] := by decide
    have hx : expansion ['x'] = [' '] := by decide
    have hspace : alnum (fun _ => true) ' ' = false := rfl
    simp [Transparent, hamp, hx, hspace]
  · simp [Token.WellFormed, alnum]
    decide

/-- Behind a reference to the ampersand a letter is swallowed, whatever `zim::isalnum` is. -/
theorem not_words_references : ¬ ∃ zimIsalnum : UInt32 → Bool, ∀ (ts : List Token) (cs : List Char),
    (∀ t ∈ ts, t.WellFormed zimIsalnum) → encode cs = ts.flatMap Token.replacement →
      words (eventsOf zimIsalnum .new (encode (ts.flatMap Token.text))) =
        runWords zimIsalnum cs := by
  rintro ⟨zimIsalnum, h⟩
  have hamp : expansion ['a', 'm', 'p'] = ['&'] := by decide
  have hwell : ∀ t ∈ [.reference ['a', 'm', 'p'], .char 'a'], Token.WellFormed zimIsalnum t := by
    simp [Token.WellFormed, alnum]
    decide
  have htransparent := (words_text_iff zimIsalnum hwell).mp (h _ _ hwell (encode_expanded _))
  simp only [Transparent, hamp, decide_true] at htransparent
  have halnum : alnum zimIsalnum 'a' = true := rfl
  simp [halnum] at htransparent

end Result
end Zim.Writer.ArticleParser
