import Zim.Writer.ParserText

/-! The words of a text without tags and references. -/
namespace Zim.Writer.ArticleParser
open Cxx Utf8 MaximalRuns

section Plain
variable (zimIsalnum : UInt32 → Bool)

/-- The events of `parse` and `endparse`. -/
def eventsOf (p : ArticleParser) (str : Bytes) : List ParseEvent :=
  (parseString zimIsalnum p str).2 ++ (parseString zimIsalnum p str).1.endparse.2

theorem eventsOf_cons (p : ArticleParser) (ch : UInt8) (str : Bytes) :
    eventsOf zimIsalnum p (ch :: str) =
      (parse zimIsalnum p ch).2 ++ eventsOf zimIsalnum (parse zimIsalnum p ch).1 str := by
  simp only [eventsOf, parseString_cons, List.append_assoc]

theorem eventsOf_append (p : ArticleParser) (str str' : Bytes) :
    eventsOf zimIsalnum p (str ++ str') =
      (parseString zimIsalnum p str).2 ++
        eventsOf zimIsalnum (parseString zimIsalnum p str).1 str' := by
  simp only [eventsOf, parseString_append, List.append_assoc]

/-- A word that has come to its end, if it is one. -/
def closeWord : List Char → List Bytes
  | [] => []
  | c :: run => [lowered (c :: run)]

/-- The event for a run of a text: its bytes in lower case, and the offset of the first one. -/
def runEvent (text : List Char) (run : ℕ × List Char) : ParseEvent :=
  .onWord (lowered run.2) (UInt32.ofNat (encode (text.take run.1)).length)

variable {p : ArticleParser} {w : Bytes}

theorem Ready.endparse (h : Ready p w) : p.endparse.2 = wordEvents w p.pos := by
  cases h with
  | outside hs => simp only [ArticleParser.endparse, hs, wordEvents_nil]
  | inside hs hw hne => simp only [ArticleParser.endparse, hs, wordEvents, if_neg hne, wordPos, hw]

theorem lowered_singleton_append (cs : List Char) (c : Char) :
    lowered cs ++ lowered [c] = lowered (cs ++ [c]) := (lowered_append cs [c]).symm

/-- A run that ends where the parser is. -/
theorem wordEvents_run {pre run : List Char} (rest : List Char) {pos : UInt32}
    (hpos : pos = UInt32.ofNat (encode (pre ++ run)).length) :
    wordEvents (lowered run) pos =
      (close pre.length run).map (runEvent (pre ++ run ++ rest)) := by
  by_cases hrun : run = []
  · rw [hrun]
    rfl
  · have hstart : pos - UInt32.ofNat (lowered run).length = UInt32.ofNat (encode pre).length := by
      rw [hpos, lowered_length, encode_append, List.length_append, UInt32.ofNat_add]
      grind
    rw [wordEvents, if_neg (lowered_eq_nil.not.mpr hrun), hstart, close_of_ne hrun, List.map_cons,
      List.map_nil, runEvent, List.append_assoc, List.take_left]

/-- The parser reports the runs of the rest of a text, the first one with what it has of it. -/
theorem Ready.eventsOf {pre run cs : List Char} (h : Ready p (lowered run))
    (hplain : ∀ c ∈ cs, c ≠ '<' ∧ c ≠ '&')
    (hpos : p.pos = UInt32.ofNat (encode (pre ++ run)).length) :
    eventsOf zimIsalnum p (encode cs) =
      (runsFrom (alnum zimIsalnum) pre.length run cs).map (runEvent (pre ++ run ++ cs)) := by
  induction cs generalizing p pre run with
  | nil => exact h.endparse.trans (wordEvents_run [] hpos)
  | cons c cs ih =>
    obtain ⟨hlt, hamp⟩ := hplain c List.mem_cons_self
    have hrest (d : Char) (hd : d ∈ cs) := hplain d (List.mem_cons_of_mem _ hd)
    have hchar := h.parse_char zimIsalnum hlt hamp
    have hnext : (parseString zimIsalnum p (String.utf8EncodeChar c)).1.pos =
        UInt32.ofNat (encode (pre ++ run ++ [c])).length := by
      rw [hchar.pos, hpos, ← UInt32.ofNat_add, encode_append (pre ++ run), List.length_append,
        encode_cons, encode_nil, List.append_nil]
    have hevents := hchar.events
    have hready := hchar.ready
    simp only [ArticleParser.eventsOf, encode_cons, parseString_append, List.append_assoc]
    by_cases hc : alnum zimIsalnum c = true
    · rw [if_pos hc, lowered_singleton_append] at hready
      rw [if_pos hc] at hevents
      rw [List.append_assoc] at hnext
      have hrec := ih hready hrest hnext
      rw [hevents, runsFrom, if_pos hc]
      simpa [ArticleParser.eventsOf] using hrec
    · rw [if_neg hc] at hready hevents
      have hnext' : (parseString zimIsalnum p (String.utf8EncodeChar c)).1.pos =
          UInt32.ofNat (encode ((pre ++ run ++ [c]) ++ [])).length := by
        rw [List.append_nil]
        exact hnext
      have hrec := ih (show Ready _ (lowered []) from hready) hrest hnext'
      have hlen : (pre ++ run ++ [c]).length = pre.length + run.length + 1 := by
        simp only [List.length_append, List.length_singleton]
      rw [hevents, runsFrom, if_neg hc, List.map_append, wordEvents_run (c :: cs) hpos, ← hlen]
      simpa [ArticleParser.eventsOf] using hrec

theorem eventsOf_plain {cs : List Char} (hplain : ∀ c ∈ cs, c ≠ '<' ∧ c ≠ '&') :
    eventsOf zimIsalnum .new (encode cs) =
      (runs (alnum zimIsalnum) cs).map (runEvent cs) :=
  @Ready.eventsOf zimIsalnum .new [] [] cs (.outside rfl) hplain rfl

/-- A new parser reports of a plain text its maximal alphanumeric runs and nothing else, in
their order, ASCII letters in lower case, each with the offset of its first byte modulo 2^32. -/
theorem eventsOf_plain_maximal {cs : List Char} (hplain : ∀ c ∈ cs, c ≠ '<' ∧ c ≠ '&') :
    ∃ rs : List (ℕ × List Char),
      (∀ i w, (i, w) ∈ rs ↔ IsRun (alnum zimIsalnum) cs i w) ∧
      rs.Pairwise (fun r s => r.1 + r.2.length < s.1) ∧
      eventsOf zimIsalnum .new (encode cs) = rs.map (runEvent cs) :=
  ⟨_, fun _ _ => mem_runs, pairwise_runsFrom _ _ _, eventsOf_plain zimIsalnum hplain⟩

theorem eventsOf_plain_two : ∃ rs : List (ℕ × List Char),
    (∀ i w, (i, w) ∈ rs ↔ IsRun (alnum fun _ => true) ['A', 'é', ' ', '7'] i w) ∧
    rs.Pairwise (fun r s => r.1 + r.2.length < s.1) ∧
    eventsOf (fun _ => true) .new (encode ['A', 'é', ' ', '7']) =
      rs.map (runEvent ['A', 'é', ' ', '7']) :=
  eventsOf_plain_maximal (fun _ => true) (by simp)

example : eventsOf (fun _ => true) .new (encode ['A', 'é', ' ', '7']) =
    [.onWord [0x61, 0xc3, 0xa9] 0, .onWord [0x37] 4] := by decide +kernel

theorem runsFrom_replicate {c : Char} (hc : alnum zimIsalnum c = false) (n i : ℕ)
    (cs : List Char) : runsFrom (alnum zimIsalnum) i [] (List.replicate n c ++ cs) =
      runsFrom (alnum zimIsalnum) (i + n) [] cs := by
  induction n generalizing i with
  | zero => rfl
  | succ n ih =>
    rw [List.replicate_succ, List.cons_append, runsFrom, if_neg (by simp [hc]), close_nil,
      List.nil_append, List.length_nil, ih]
    congr 1
    omega

/-- Behind 2^32 spaces a word is reported at the position 0. -/
theorem eventsOf_spaces :
    (∀ c ∈ List.replicate (2 ^ 32) ' ' ++ ['a'], c ≠ '<' ∧ c ≠ '&') ∧
      (encode (List.replicate (2 ^ 32) ' ')).length = 2 ^ 32 ∧
      eventsOf (fun _ => false) .new (encode (List.replicate (2 ^ 32) ' ' ++ ['a'])) =
        [.onWord [0x61] 0] := by
  have hplain : ∀ c ∈ List.replicate (2 ^ 32) ' ' ++ ['a'], c ≠ '<' ∧ c ≠ '&' := by
    intro c hc
    rcases List.mem_append.mp hc with hc | hc
    · rw [List.eq_of_mem_replicate hc]
      decide
    · rw [List.mem_singleton.mp hc]
      decide
  have hlength (n : ℕ) : (encode (List.replicate n ' ')).length = n := by
    induction n with
    | zero => rfl
    | succ n ih =>
      rw [List.replicate_succ, encode_cons, List.length_append, ih]
      exact Nat.add_comm 1 n
  have hruns : runs (alnum fun _ => false) (List.replicate (2 ^ 32) ' ' ++ ['a']) =
      [(2 ^ 32, ['a'])] := by
    rw [runs, runsFrom_replicate _ (by decide), Nat.zero_add]
    rfl
  have htake : (List.replicate (2 ^ 32) ' ' ++ ['a']).take (2 ^ 32) =
      List.replicate (2 ^ 32) ' ' := List.take_left' List.length_replicate
  refine ⟨hplain, hlength _, ?_⟩
  rw [eventsOf_plain _ hplain, hruns, List.map_cons, List.map_nil, runEvent, htake, hlength]
  decide

end Plain
end Zim.Writer.ArticleParser
