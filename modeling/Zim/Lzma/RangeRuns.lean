import Zim.Lzma.RangeCoding

/-! Runs of the range coder: symbols that are put into the encoder between calls with any room for
output are decoded from the bytes in any pieces. -/
namespace Lzma
open Cxx RangeCode
variable {ι : Type} [DecidableEq ι]

/-- An encoder, its probabilities, and the bytes that it has written. -/
structure Session (ι : Type) where
  rc : RangeEncoder ι
  probs : ι → Probability
  out : Bytes

namespace Session

/-- A symbol of `rc_bit` or `rc_direct` is put, or `rc_encode` is called. -/
inductive Call (ι : Type) where
  | put (symbol : Symbol ι)
  | encode (room : ℕ)

/-- Nothing where the symbol would lie behind the arrays. -/
def put (s : Session ι) (symbol : Symbol ι) : Option (Session ι) :=
  let rc := { s.rc with symbols := s.rc.symbols ++ [symbol] }
  if rc.Fits then some { s with rc } else none

/-- What a call of `rc_encode` leaves. -/
def encoded (s : Session ι) (room : ℕ) : Session ι :=
  let e := s.rc.rcEncode s.probs room
  ⟨e.rc, e.probs, s.out ++ e.out⟩

/-- Nothing where the assertion of `rc_encode` fails. -/
def encode (s : Session ι) (room : ℕ) : Option (Session ι) :=
  if s.rc.Fits then some (s.encoded room) else none

def step (s : Session ι) : Call ι → Option (Session ι)
  | .put symbol => s.put symbol
  | .encode room => s.encode room

def run (s : Session ι) (calls : List (Call ι)) : Option (Session ι) := calls.foldlM step s

/-- The symbols that are put. -/
def symbolsOf (calls : List (Call ι)) : List (Symbol ι) :=
  calls.filterMap fun
    | .put symbol => some symbol
    | .encode _ => none

/-- Nothing where one of the five symbols would lie behind the arrays. -/
def flush (s : Session ι) : Option (Session ι) :=
  if s.rc.rcFlush.Fits then some { s with rc := s.rc.rcFlush } else none

/-- Calls of `rc_encode` until one does not find the output full. -/
def drain (s : Session ι) : List ℕ → Option (Bool × Session ι)
  | [] => some (true, s)
  | room :: rooms =>
    match s.encode room with
    | none => none
    | some s' => if (s.rc.rcEncode s.probs room).full then drain s' rooms else some (false, s')

/-- A session in front of a flush, with the symbols that are still to be put. -/
structure Going (s : Session ι) (later : List (Symbol ι)) (n total : ℕ) : Prop where
  pos_le : s.rc.pos ≤ s.rc.symbols.length
  flush : .flush ∉ s.rc.queue
  encodes : s.rc.Encodes s.out s.probs (s.rc.queue ++ later) n total

variable {s : Session ι} {later : List (Symbol ι)} {n total : ℕ}

theorem Going.put {symbol : Symbol ι} (h : s.Going (symbol :: later) n total)
    (hflush : symbol ≠ .flush) {s' : Session ι} (hput : s.put symbol = some s') :
    s'.Going later n total := by
  obtain ⟨rc, hrc⟩ : ∃ rc : RangeEncoder ι,
      rc = { s.rc with symbols := s.rc.symbols ++ [symbol] } := ⟨_, rfl⟩
  rw [Session.put, ← hrc] at hput
  split_ifs at hput
  cases hput
  have hqueue : rc.queue = s.rc.queue ++ [symbol] := by
    rw [hrc]
    exact List.drop_append_of_le_length h.pos_le
  refine ⟨?_, ?_, ?_⟩
  · rw [hrc]
    show _ ≤ (s.rc.symbols ++ [symbol]).length
    rw [List.length_append]
    exact Nat.le_add_right_of_le h.pos_le
  · rw [hqueue, List.mem_append, List.mem_singleton]
    exact not_or.mpr ⟨h.flush, hflush.symm⟩
  · rw [hqueue, List.append_assoc, hrc]
    exact h.encodes.congr rfl rfl rfl rfl

theorem Going.encoded (h : s.Going later n total) (hn : n + 1 < 2 ^ 64) (room : ℕ) :
    (s.encoded room).Going later n total := by
  have hqueue : s.rc.queue = s.rc.queue ++ [] := (List.append_nil _).symm
  obtain ⟨-, ⟨-, -, q', hne, hflush, hq, hencodes⟩ | ⟨-, hsymbols, hpos, hencodes⟩⟩ :=
    RangeEncoder.rcEncodeLoop_encodes h.flush hqueue h.encodes hn room
  · rw [List.append_nil] at hq
    refine ⟨?_, ?_, ?_⟩
    · by_contra hlt
      exact hne (hq.symm.trans (List.drop_eq_nil_of_le (Nat.le_of_not_le hlt)))
    · show .flush ∉ (s.rc.rcEncodeLoop s.probs room s.rc.queue).rc.queue
      rw [hq]
      exact hflush
    · show RangeEncoder.Encodes _ _ _
        ((s.rc.rcEncodeLoop s.probs room s.rc.queue).rc.queue ++ later) n total
      rw [hq]
      exact hencodes
  · have hnil : (s.encoded room).rc.queue = [] := by
      show List.drop _ (s.rc.rcEncodeLoop s.probs room s.rc.queue).rc.symbols = []
      rw [hsymbols, List.drop_nil]
    refine ⟨?_, ?_, ?_⟩
    · show (s.rc.rcEncodeLoop s.probs room s.rc.queue).rc.pos ≤ _
      rw [hpos]
      exact Nat.zero_le _
    · rw [hnil]
      exact List.not_mem_nil
    · rw [hnil]
      exact hencodes

theorem Going.run {calls : List (Call ι)} (hflush : .flush ∉ symbolsOf calls)
    (h : s.Going (symbolsOf calls ++ later) n total) (hn : n + 1 < 2 ^ 64) {s' : Session ι}
    (hrun : s.run calls = some s') : s'.Going later n total := by
  induction calls generalizing s with
  | nil =>
    cases hrun
    exact h
  | cons call calls ih =>
    rw [Session.run, List.foldlM_cons, Option.bind_eq_bind, Option.bind_eq_some_iff] at hrun
    obtain ⟨s₁, hstep, hrun⟩ := hrun
    cases call with
    | put symbol =>
      have hput : symbolsOf (.put symbol :: calls) = symbol :: symbolsOf calls := rfl
      rw [hput] at h hflush
      rw [List.mem_cons, not_or] at hflush
      exact ih hflush.2 (h.put (Ne.symm hflush.1) hstep) hrun
    | encode room =>
      rw [step, Session.encode] at hstep
      split_ifs at hstep
      cases hstep
      exact ih hflush (h.encoded hn room) hrun

theorem going_new {probs : ι → Probability} (hprobs : ∀ i, Balanced (probs i))
    (symbols : List (Symbol ι)) : Going ⟨.rcReset, probs, []⟩ symbols
      (scales (codeSteps 0xFFFFFFFF probs symbols) + 1)
      (position 256 (codeSteps 0xFFFFFFFF probs symbols)) := by
  have hroom : (RangeEncoder.rcReset : RangeEncoder ι).Room (0xFFFFFFFF : UInt32).toNat := by
    have hcache : ¬ (RangeEncoder.rcReset : RangeEncoder ι).cache = 0xFF := by
      show ¬ (0 : UInt8) = 0xFF
      decide
    unfold RangeEncoder.Room
    rw [if_neg hcache]
    show 0 + (0xFFFFFFFF : UInt32).toNat ≤ 2 ^ 33
    decide
  have hholds : (RangeEncoder.rcReset : RangeEncoder ι).Holds [] 1 0 := by
    have hhigh : (RangeEncoder.rcReset : RangeEncoder ι).high = 0 :=
      RangeEncoder.high_eq_zero (show 0 < 2 ^ 32 by decide)
    have hdigits : digits ([] ++ (RangeEncoder.rcReset : RangeEncoder ι).pending) = [0] := by
      rw [RangeEncoder.pending, hhigh]
      rfl
    refine ⟨Nat.one_pos, rfl, ?_⟩
    rw [hdigits, number_singleton, Nat.zero_mul]
    rfl
  refine ⟨Nat.le_refl _, List.not_mem_nil, ?_, hprobs, ?_, hroom.ready, fun _ => hroom⟩
  · show 2 ^ 16 ≤ (0xFFFFFFFF : UInt32).toNat
    decide
  · refine ⟨1, 0, hholds, Nat.add_comm _ _, ?_⟩
    rw [Nat.zero_mul, Nat.zero_add]
    rfl

/-- A session behind a flush. -/
def Ending (s : Session ι) (n total : ℕ) : Prop :=
  (∃ q, .flush ∉ q ∧ s.rc.queue = q ++ List.replicate 5 .flush ∧
    s.rc.Encodes s.out s.probs q n total) ∨
  ∃ left < 5, s.rc.Flushing s.out (left + 1) n total

theorem Going.ending (h : s.Going [] n total) {s' : Session ι} (hflush : s.flush = some s') :
    s'.rc.Fits ∧ s'.Ending n total := by
  have hencodes := h.encodes
  rw [List.append_nil] at hencodes
  rw [Session.flush] at hflush
  split_ifs at hflush with hfits
  cases hflush
  refine ⟨hfits, ?_⟩
  exact .inl ⟨s.rc.queue, h.flush, List.drop_append_of_le_length h.pos_le,
    hencodes.congr rfl rfl rfl rfl⟩

/-- What a call behind a flush leaves: the output became full, or holds all digits. -/
structure Ends (e : RangeEncoder.Encoded ι) (out : Bytes) (n total : ℕ) : Prop where
  rc : e.rc = .rcReset
  length : (out ++ e.out).length = n + 4
  number : number 256 (digits (out ++ e.out)) = total

theorem flushing_encode {rc : RangeEncoder ι} {out : Bytes} {left : ℕ} (hleft : left < 5)
    (h : rc.Flushing out (left + 1) n total) (hn : n + 6 < 2 ^ 64) (probs : ι → Probability)
    (room : ℕ) :
    ((rc.rcEncodeLoop probs room (List.replicate (left + 1) .flush)).full = true ∧
      (rc.rcEncodeLoop probs room (List.replicate (left + 1) .flush)).out.length = room ∧
      ∃ left' < 5, RangeEncoder.Flushing
        (out ++ (rc.rcEncodeLoop probs room (List.replicate (left + 1) .flush)).out)
        (rc.rcEncodeLoop probs room (List.replicate (left + 1) .flush)).rc (left' + 1) n total) ∨
    (rc.rcEncodeLoop probs room (List.replicate (left + 1) .flush)).full = false ∧
      Ends (rc.rcEncodeLoop probs room (List.replicate (left + 1) .flush)) out n total := by
  have htop : ¬ rc.range < rcTopValue := by
    rw [h.range]
    decide
  have hnormalize : rc.rcNormalize room = (false, rc, []) := by
    unfold RangeEncoder.rcNormalize
    rw [if_neg htop]
  have hsame : { rc with range := 0xFFFFFFFF } = rc := by
    rw [← h.range]
  have hloop : rc.rcEncodeLoop probs room (List.replicate (left + 1) .flush) =
      rc.rcFlushLoop probs room (List.replicate (left + 1) .flush) := by
    rw [List.replicate_succ, RangeEncoder.rcEncodeLoop, hnormalize]
    simp only [Bool.false_eq_true, if_false, if_true, hsame, List.length_nil, Nat.sub_zero,
      List.nil_append]
  rw [hloop]
  obtain ⟨-, hfull | ⟨hfull, hrc, hlength, hnumber⟩⟩ :=
    RangeEncoder.rcFlushLoop_flushing hleft h hn probs room
  · exact .inl hfull
  · exact .inr ⟨hfull, hrc, hlength, hnumber⟩

/-- Where only the flush is left, the last normalization goes in front of it. -/
theorem flush_encode {rc : RangeEncoder ι} {probs : ι → Probability} {out : Bytes}
    (hqueue : rc.queue = List.replicate 5 .flush) (h : rc.Encodes out probs [] n total)
    (hn : n + 6 < 2 ^ 64) (room : ℕ) :
    ((rc.rcEncodeLoop probs room (List.replicate 5 .flush)).full = true ∧
      (rc.rcEncodeLoop probs room (List.replicate 5 .flush)).out.length = room ∧
      Ending ⟨(rc.rcEncodeLoop probs room (List.replicate 5 .flush)).rc,
        (rc.rcEncodeLoop probs room (List.replicate 5 .flush)).probs,
        out ++ (rc.rcEncodeLoop probs room (List.replicate 5 .flush)).out⟩ n total) ∨
    (rc.rcEncodeLoop probs room (List.replicate 5 .flush)).full = false ∧
      Ends (rc.rcEncodeLoop probs room (List.replicate 5 .flush)) out n total := by
  have hleads := h.leads
  rw [codeSteps, ← List.append_nil (normalizeSteps rc.range)] at hleads
  rw [List.replicate_succ, RangeEncoder.rcEncodeLoop, ← List.replicate_succ]
  obtain ⟨hfull, hkept, hready, hlt, hlength, hleads'⟩ |
      ⟨hfull, -, hsymbols, hpos, hroom, hlength, m, p, hholds, hm, hp⟩ :=
    RangeEncoder.rcNormalize_leads hleads (by omega) h.wide h.ready h.room room
  · simp only [hfull, if_true]
    refine .inl ⟨trivial, hlength, .inl ⟨[], List.not_mem_nil, ?_, ?_, h.balanced, ?_, ?_, ?_⟩⟩
    · show (rc.rcNormalize room).2.1.queue = _
      rw [RangeEncoder.queue, hkept.symbols, hkept.pos]
      exact hqueue
    · rw [hkept.range]
      exact h.wide
    · rw [hkept.range, codeSteps, ← List.append_nil (normalizeSteps rc.range)]
      exact hleads'
    · rw [hkept.range]
      exact hready
    · rw [hkept.range]
      intro hge
      omega
  · obtain ⟨rc', hrc⟩ : ∃ rc' : RangeEncoder ι, rc' =
        { (rc.rcNormalize room).2.1 with range := 0xFFFFFFFF } := ⟨_, rfl⟩
    have hroom' : rc'.Room 1 := by
      have hge := normalized_ge h.wide
      rw [hrc]
      exact RangeEncoder.Room.mono hroom (by omega)
    have hflushing : rc'.Flushing (out ++ (rc.rcNormalize room).2.2) (4 + 1) n total := by
      rw [scales, Nat.add_zero] at hm
      rw [scales, RangeCode.position, pow_zero, Nat.mul_one, Nat.add_zero] at hp
      refine ⟨?_, hroom'.ready, by rw [hrc], fun hlt => absurd hlt (by decide), ?_⟩
      · rw [hm, hp] at hholds
        rw [hrc, Nat.sub_self, Nat.add_zero, pow_zero, Nat.mul_one]
        exact hholds.congr rfl rfl rfl
      · rw [RangeEncoder.queue, hrc]
        show List.drop (rc.rcNormalize room).2.1.pos (rc.rcNormalize room).2.1.symbols = _
        rw [hsymbols, hpos]
        exact hqueue
    simp only [hfull, Bool.false_eq_true, if_false, if_true]
    rw [← hrc]
    obtain ⟨-, ⟨hfull', hlength', hleft⟩ | ⟨hfull', hrc', hlength', hnumber⟩⟩ :=
      RangeEncoder.rcFlushLoop_flushing (show 4 < 5 by decide) hflushing hn probs
        (room - (rc.rcNormalize room).2.2.length)
    · rw [List.append_assoc] at hleft
      refine .inl ⟨hfull', ?_, .inr hleft⟩
      rw [List.length_append]
      omega
    · rw [List.append_assoc] at hlength' hnumber
      exact .inr ⟨hfull', hrc', hlength', hnumber⟩

theorem Ending.encode (h : s.Ending n total) (hn : n + 6 < 2 ^ 64) (room : ℕ) :
    ((s.rc.rcEncode s.probs room).full = true ∧
      (s.rc.rcEncode s.probs room).out.length = room ∧ (s.encoded room).Ending n total) ∨
    (s.rc.rcEncode s.probs room).full = false ∧
      Ends (s.rc.rcEncode s.probs room) s.out n total := by
  obtain ⟨q, hflush, hqueue, hencodes⟩ | ⟨left, hleft, hflushing⟩ := h
  · have hencode : s.rc.rcEncode s.probs room =
        s.rc.rcEncodeLoop s.probs room (q ++ List.replicate 5 .flush) := by
      rw [← hqueue]
      rfl
    have henc := hencodes
    rw [← List.append_nil q] at henc
    unfold Session.encoded
    rw [hencode, RangeEncoder.rcEncodeLoop_append hflush]
    obtain ⟨hle, ⟨hfull, hlength, q', -, hflush', hq, hencodes'⟩ | ⟨hfull, -, -, hencodes'⟩⟩ :=
      RangeEncoder.rcEncodeLoop_encodes hflush hqueue henc (by omega) room
    · simp only [hfull, if_true]
      rw [List.append_nil] at hencodes'
      exact .inl ⟨trivial, hlength, .inl ⟨q', hflush', hq, hencodes'⟩⟩
    · simp only [hfull, Bool.false_eq_true, if_false]
      obtain ⟨rc', hrc⟩ : ∃ rc' : RangeEncoder ι, rc' =
          { (s.rc.rcEncodeLoop s.probs room q).rc with
            symbols := s.rc.symbols, pos := s.rc.pos + q.length } := ⟨_, rfl⟩
      have hqueue' : rc'.queue = List.replicate 5 .flush := by
        have htail : List.drop s.rc.pos s.rc.symbols = q ++ List.replicate 5 .flush := hqueue
        rw [RangeEncoder.queue, hrc, ← List.drop_drop, htail, List.drop_left]
      have hlast : rc'.Encodes (s.out ++ (s.rc.rcEncodeLoop s.probs room q).out)
          (s.rc.rcEncodeLoop s.probs room q).probs [] n total := by
        rw [hrc]
        exact hencodes'.congr rfl rfl rfl rfl
      rw [← hrc]
      obtain ⟨hfull', hlength', hending⟩ | ⟨hfull', hreset, hlength', hnumber⟩ :=
        flush_encode hqueue' hlast hn (room - (s.rc.rcEncodeLoop s.probs room q).out.length)
      · rw [List.append_assoc] at hending
        refine .inl ⟨hfull', ?_, hending⟩
        rw [List.length_append]
        omega
      · rw [List.append_assoc] at hlength' hnumber
        exact .inr ⟨hfull', hreset, hlength', hnumber⟩
  · have hencode : s.rc.rcEncode s.probs room =
        s.rc.rcEncodeLoop s.probs room (List.replicate (left + 1) .flush) := by
      rw [← hflushing.queue]
      rfl
    unfold Session.encoded
    rw [hencode]
    obtain ⟨hfull, hlength, hleft'⟩ | hends := flushing_encode hleft hflushing hn s.probs room
    · exact .inl ⟨hfull, hlength, .inr hleft'⟩
    · exact .inr hends

/-- The bytes written before a call are never more than the digits of the position. -/
theorem Ending.length_le (h : s.Ending n total) : s.out.length ≤ n + 4 := by
  obtain ⟨q, -, -, hencodes⟩ | ⟨left, hleft, hflushing⟩ := h
  · obtain ⟨m, p, hholds, hm, -⟩ := hencodes.leads
    have hlength := hholds.length
    rw [List.length_append] at hlength
    omega
  · have hlength := hflushing.holds.length
    have hsize := hflushing.holds.cacheSize
    rw [List.length_append, RangeEncoder.pending, RangeEncoder.emission_length] at hlength
    omega

/-- However often the output becomes full, the calls come to an end, with all digits written and
the encoder reset. -/
theorem Ending.drain (h : s.Ending n total) (hfits : s.rc.Fits) (hn : n + 6 < 2 ^ 64)
    (rooms : List ℕ) :
    (∃ s', s.drain rooms = some (true, s') ∧ s'.Ending n total ∧
      s'.out.length = s.out.length + rooms.sum) ∨
    ∃ s', s.drain rooms = some (false, s') ∧ s'.rc = .rcReset ∧ s'.out.length = n + 4 ∧
      number 256 (digits s'.out) = total := by
  induction rooms generalizing s with
  | nil => exact .inl ⟨s, rfl, h, rfl⟩
  | cons room rooms ih =>
    have hencode : s.encode room = some (s.encoded room) := if_pos hfits
    rw [Session.drain, hencode]
    dsimp only
    obtain ⟨hfull, hlength, hending⟩ | ⟨hfull, hends⟩ := h.encode hn room
    · have hout : (s.encoded room).out.length = s.out.length + room := by
        show (s.out ++ (s.rc.rcEncode s.probs room).out).length = _
        rw [List.length_append, hlength]
      rw [if_pos hfull, List.sum_cons, ← Nat.add_assoc, ← hout]
      exact ih hending (hfits.rcEncode s.probs room)
    · rw [if_neg (by rw [hfull]; exact Bool.false_ne_true)]
      exact .inr ⟨_, rfl, hends.rc, hends.length, hends.number⟩

theorem scales_normalizeSteps (range : UInt32) : scales (normalizeSteps range) ≤ 1 := by
  unfold normalizeSteps
  split_ifs
  · exact Nat.le_refl 1
  · exact Nat.zero_le 1

theorem scales_append (steps steps' : List Step) :
    scales (steps ++ steps') = scales steps + scales steps' := by
  induction steps with
  | nil => exact (Nat.zero_add _).symm
  | cons step steps ih =>
    cases step with
    | scale => rw [List.cons_append, scales, scales, ih, Nat.add_right_comm]
    | narrow start width => exact ih

theorem scales_codeSteps (range : UInt32) (probs : ι → Probability) (symbols : List (Symbol ι)) :
    scales (codeSteps range probs symbols) ≤ symbols.length + 1 := by
  induction symbols generalizing range probs with
  | nil => exact scales_normalizeSteps range
  | cons symbol symbols ih =>
    have hle := ih (symbol.part (normalized range) probs) (RangeEncoder.rcUpdate probs symbol)
    have hone := scales_normalizeSteps range
    rw [codeSteps, scales_append, scales, List.length_cons]
    omega

/-- Calls of `rc_encode` among which the symbols are put, and behind a flush with any room as long
as the output becomes full: in the end all digits of the range code are written. -/
theorem run_drain {probs : ι → Probability} (hprobs : ∀ i, Balanced (probs i))
    {calls : List (Call ι)} (hflush : .flush ∉ symbolsOf calls)
    (hcount : (symbolsOf calls).length + 8 < 2 ^ 64) {rooms : List ℕ}
    (hrooms : (symbolsOf calls).length + 6 < rooms.sum) {s' : Session ι}
    (hrun : (run ⟨.rcReset, probs, []⟩ calls).bind flush = some s') :
    ∃ s, s'.drain rooms = some (false, s) ∧ s.rc = .rcReset ∧
      s.out.length = scales (codeSteps 0xFFFFFFFF probs (symbolsOf calls)) + 5 ∧
      number 256 (digits s.out) = position 256 (codeSteps 0xFFFFFFFF probs (symbolsOf calls)) := by
  have hscales := scales_codeSteps 0xFFFFFFFF probs (symbolsOf calls)
  have hnew := going_new hprobs (symbolsOf calls)
  rw [← List.append_nil (symbolsOf calls)] at hnew
  obtain ⟨s₁, hcalls, hflushed⟩ := Option.bind_eq_some_iff.mp hrun
  have hgoing := Going.run hflush hnew (by rw [List.append_nil]; omega) hcalls
  rw [List.append_nil] at hgoing
  obtain ⟨hfits, hending⟩ := hgoing.ending hflushed
  obtain ⟨s₂, -, hending', hlength⟩ | hends := hending.drain hfits (by omega) rooms
  · have hle := hending'.length_le
    have hstart : s'.out.length ≤ s₂.out.length := by omega
    omega
  · exact hends

end Session

namespace RangeDecoder
variable {rc : RangeDecoder} {probs : ι → Probability} {avail later : Bytes}
  {symbols : List (Symbol ι)}

/-- A decoder that has still to read some of the first five bytes. -/
structure Starts (rc : RangeDecoder) (probs : ι → Probability) (input : Bytes)
    (symbols : List (Symbol ι)) : Prop where
  range : rc.range = 0xFFFFFFFF
  balanced : ∀ i, Balanced (probs i)
  seen : ∃ seen : Bytes, seen.length + rc.initBytesLeft.toNat = 5 ∧
    rc.code.toNat = number 256 (digits seen) % 2 ^ 32 ∧
    (seen ++ input).length = scales (codeSteps 0xFFFFFFFF probs symbols) + 5 ∧
    number 256 (digits (seen ++ input)) = position 256 (codeSteps 0xFFFFFFFF probs symbols)

theorem append_byte_mod (code : UInt32) (b : UInt8) :
    (code <<< 8 ||| b.toUInt32).toNat = (code.toNat * 256 + b.toNat) % 2 ^ 32 := by
  have hb := b.toNat_lt
  have hmod : code.toNat * 256 % 2 ^ 32 = (code.toNat % 2 ^ 24) <<< 8 := by
    rw [Nat.shiftLeft_eq]
    omega
  rw [UInt32.toNat_or, shiftLeft_eight_toNat, UInt8.toNat_toUInt32, hmod,
    ← Nat.shiftLeft_add_eq_or_of_lt hb, Nat.shiftLeft_eq]
  omega

/-- With all five bytes the decoder stands in front of the first symbol. -/
theorem Starts.reads (h : Starts rc probs later symbols) (hleft : rc.initBytesLeft = 0) :
    Reads rc probs later symbols := by
  obtain ⟨seen, hseen, hcode, hlength, hnumber⟩ := h.seen
  have hwide : Wide rc.range := by
    rw [h.range]
    show 2 ^ 16 ≤ (0xFFFFFFFF : UInt32).toNat
    decide
  have hlt := position_lt (inside_codeSteps hwide h.balanced symbols)
  have hfive : seen.length = 5 := by
    rw [hleft] at hseen
    exact hseen
  have hlater : later.length = scales (codeSteps 0xFFFFFFFF probs symbols) := by
    rw [List.length_append] at hlength
    omega
  rw [RangeEncoder.digits_append, number_append, digits_length, hlater] at hnumber
  rw [h.range, ← hnumber] at hlt
  have hsmall : number 256 (digits seen) < 2 ^ 32 :=
    Nat.lt_of_lt_of_le
      (Nat.lt_of_mul_lt_mul_right (Nat.lt_of_le_of_lt (Nat.le_add_right _ _) hlt))
      (UInt32.toNat_lt _).le
  refine ⟨hwide, h.balanced, ?_, digits_lt later, ?_⟩
  · rw [digits_length, h.range, hlater]
  · rw [hcode, Nat.mod_eq_of_lt hsmall, digits_length, hlater, hnumber, h.range]

/-- A call takes what there is of the first five bytes. -/
theorem Starts.rcReadInit (h : Starts rc probs (avail ++ later) symbols) :
    ((rc.rcReadInit avail).1 = false ∧ (rc.rcReadInit avail).2.2 = [] ∧
      (rc.rcReadInit avail).2.1.initBytesLeft ≠ 0 ∧
      Starts (rc.rcReadInit avail).2.1 probs later symbols) ∨
    (rc.rcReadInit avail).1 = true ∧ (rc.rcReadInit avail).2.1.initBytesLeft = 0 ∧
      Reads (rc.rcReadInit avail).2.1 probs ((rc.rcReadInit avail).2.2 ++ later) symbols := by
  induction avail generalizing rc with
  | nil =>
    rw [RangeDecoder.rcReadInit]
    by_cases hleft : rc.initBytesLeft = 0
    · exact .inr ⟨decide_eq_true hleft, hleft, h.reads hleft⟩
    · exact .inl ⟨decide_eq_false hleft, rfl, hleft, h⟩
  | cons b avail ih =>
    rw [RangeDecoder.rcReadInit]
    split_ifs with hleft
    · exact .inr ⟨rfl, hleft, h.reads hleft⟩
    · apply ih
      obtain ⟨seen, hseen, hcode, hlength, hnumber⟩ := h.seen
      have hpos : 0 < rc.initBytesLeft.toNat := by
        by_contra hnot
        exact hleft (UInt32.toNat_inj.mp (Nat.eq_zero_of_not_pos hnot))
      have hsub : (rc.initBytesLeft - 1).toNat = rc.initBytesLeft.toNat - 1 :=
        UInt32.toNat_sub_of_le _ _ (UInt32.le_iff_toNat_le.mpr hpos)
      refine ⟨h.range, h.balanced, seen ++ [b], ?_, ?_, ?_, ?_⟩
      · rw [hsub, List.length_append, List.length_singleton]
        omega
      · have hlast : number 256 (digits [b]) = b.toNat := number_singleton _
        rw [append_byte_mod, hcode, RangeEncoder.digits_append, number_append, hlast,
          digits_length, List.length_singleton, pow_one]
        omega
      · rw [List.append_assoc]
        exact hlength
      · rw [List.append_assoc]
        exact hnumber

end RangeDecoder

/-- What a decoder asks for next: a bit with a probability, a direct bit, or at the end only the
normalization. -/
inductive Query (ι : Type) where
  | bit (prob : ι)
  | direct
  | normalize

def Symbol.query : Symbol ι → Query ι
  | .bit prob _ => .bit prob
  | .direct _ => .direct
  | .flush => .normalize

def Symbol.value : Symbol ι → Bool
  | .bit _ b => b
  | .direct b => b
  | .flush => false

/-- A decoder with what it has still to ask for and the bits that it has got. -/
structure Reader (ι : Type) where
  rc : RangeDecoder
  probs : ι → Probability
  queries : List (Query ι)
  bits : List Bool

namespace Reader

/-- The macros one after another; a macro that lacks input is the first of the next call. -/
def loop (rc : RangeDecoder) (probs : ι → Probability) (bits : List Bool) (input : Bytes) :
    List (Query ι) → Reader ι × Bytes
  | [] => (⟨rc, probs, [], bits⟩, input)
  | .bit prob :: queries =>
    match rc.rcBit (probs prob) input with
    | none => (⟨rc, probs, .bit prob :: queries, bits⟩, input)
    | some (bit, rc, updated, input) =>
      loop rc (fun i => if i = prob then updated else probs i) (bits ++ [bit]) input queries
  | .direct :: queries =>
    match rc.rcDirect input with
    | none => (⟨rc, probs, .direct :: queries, bits⟩, input)
    | some (bit, rc, input) => loop rc probs (bits ++ [bit]) input queries
  | .normalize :: queries =>
    match rc.rcNormalize input with
    | none => (⟨rc, probs, .normalize :: queries, bits⟩, input)
    | some (rc, input) => loop rc probs bits input queries

def call (r : Reader ι) (input : Bytes) : Reader ι × Bytes :=
  let init := r.rc.rcReadInit input
  if init.1 then loop init.2.1 r.probs r.bits init.2.2 r.queries
  else ({ r with rc := init.2.1 }, init.2.2)

/-- Calls with the pieces of an input; what a call does not take is offered to the next one. -/
def run (r : Reader ι × Bytes) (chunks : List Bytes) : Reader ι × Bytes :=
  chunks.foldl (fun r chunk => r.1.call (r.2 ++ chunk)) r

def new (probs : ι → Probability) (symbols : List (Symbol ι)) : Reader ι :=
  ⟨.rcReset, probs, symbols.map Symbol.query ++ [.normalize], []⟩

/-- A decoder between two calls, in front of the rest of its input. -/
inductive Follows (bits : List Bool) : Reader ι × Bytes → Bytes → Prop
  | starting {rc : RangeDecoder} {probs : ι → Probability} {later : Bytes}
    {symbols : List (Symbol ι)} {got : List Bool} (hflush : .flush ∉ symbols)
    (hbits : got ++ symbols.map Symbol.value = bits) (hleft : rc.initBytesLeft ≠ 0)
    (h : rc.Starts probs later symbols) :
    Follows bits (⟨rc, probs, symbols.map Symbol.query ++ [.normalize], got⟩, []) later
  | reading {rc : RangeDecoder} {probs : ι → Probability} {later : Bytes}
    {symbols : List (Symbol ι)} {got : List Bool} (hflush : .flush ∉ symbols)
    (hbits : got ++ symbols.map Symbol.value = bits) (hinit : rc.initBytesLeft = 0)
    (hlater : later ≠ []) (h : rc.Reads probs later symbols) :
    Follows bits (⟨rc, probs, symbols.map Symbol.query ++ [.normalize], got⟩, []) later
  | finished {rc : RangeDecoder} {probs : ι → Probability} (hinit : rc.initBytesLeft = 0)
    (hfinished : rc.rcIsFinished = true) : Follows bits (⟨rc, probs, [], bits⟩, []) []

variable {bits got : List Bool} {rc : RangeDecoder} {probs : ι → Probability}
  {avail later : Bytes} {symbols : List (Symbol ι)}

theorem loop_follows (hflush : .flush ∉ symbols)
    (hbits : got ++ symbols.map Symbol.value = bits) (hinit : rc.initBytesLeft = 0)
    (h : rc.Reads probs (avail ++ later) symbols) :
    Follows bits (loop rc probs got avail (symbols.map Symbol.query ++ [.normalize])) later := by
  induction symbols generalizing rc probs got avail with
  | nil =>
    rw [List.map_nil, List.append_nil] at hbits
    rw [List.map_nil, List.nil_append, loop]
    obtain ⟨hnone, rfl, hlater⟩ | ⟨rc', hsome, hfinished, rfl⟩ := h.finished
    · rw [hnone]
      exact .reading hflush (by rw [List.map_nil, List.append_nil, hbits]) hinit hlater h
    · have hinit' : rc'.initBytesLeft = 0 := by
        rw [← hinit]
        unfold RangeDecoder.rcNormalize at hsome
        split_ifs at hsome
        · cases avail with
          | nil => cases hsome
          | cons b avail =>
            cases hsome
            rfl
        · cases hsome
          rfl
      rw [hsome, hbits]
      exact .finished hinit' hfinished
  | cons symbol symbols ih =>
    have hrest : .flush ∉ symbols := fun hmem => hflush (List.mem_cons_of_mem _ hmem)
    rw [List.map_cons, ← List.singleton_append, ← List.append_assoc] at hbits
    cases symbol with
    | bit prob bit =>
      rw [List.map_cons, List.cons_append, Symbol.query, loop]
      obtain ⟨hnone, rfl, hlater⟩ | ⟨rc', avail', hsome, -, hinit', hreads⟩ := h.rcBit
      · rw [hnone]
        have hbits' : got ++ (Symbol.bit prob bit :: symbols).map Symbol.value = bits := by
          rw [← hbits, List.append_assoc]
          rfl
        exact .reading hflush hbits' hinit hlater h
      · have hprobs : (fun i => if i = prob then
            RangeEncoder.rcUpdate probs (.bit prob bit) prob else probs i) =
              RangeEncoder.rcUpdate probs (.bit prob bit) := by
          funext i
          unfold RangeEncoder.rcUpdate
          cases bit with
          | false => simp only [if_true]
          | true => simp only [if_true]
        rw [hsome]
        dsimp only
        rw [hprobs]
        exact ih hrest hbits (hinit'.trans hinit) hreads
    | direct bit =>
      rw [List.map_cons, List.cons_append, Symbol.query, loop]
      obtain ⟨hnone, rfl, hlater⟩ | ⟨rc', avail', hsome, -, hinit', hreads⟩ := h.rcDirect
      · rw [hnone]
        have hbits' : got ++ (Symbol.direct bit :: symbols).map Symbol.value = bits := by
          rw [← hbits, List.append_assoc]
          rfl
        exact .reading hflush hbits' hinit hlater h
      · rw [hsome]
        exact ih hrest hbits (hinit'.trans hinit) hreads
    | flush => exact absurd List.mem_cons_self hflush

theorem rcReadInit_of_zero (h : rc.initBytesLeft = 0) (input : Bytes) :
    rc.rcReadInit input = (true, rc, input) := by
  cases input with
  | nil => rw [RangeDecoder.rcReadInit, decide_eq_true h]
  | cons b input => rw [RangeDecoder.rcReadInit, if_pos h]

theorem Follows.call {r : Reader ι} (h : Follows bits (r, []) (avail ++ later)) :
    Follows bits (r.call avail) later := by
  unfold Reader.call
  generalize hinput : avail ++ later = input at h
  cases h with
  | starting hflush hbits hleft h =>
    rw [← hinput] at h
    obtain ⟨hfalse, hnil, hleft', hstarts⟩ | ⟨htrue, hinit, hreads⟩ := h.rcReadInit
    · simp only [hfalse, Bool.false_eq_true, if_false, hnil]
      exact .starting hflush hbits hleft' hstarts
    · simp only [htrue, if_true]
      exact loop_follows hflush hbits hinit hreads
  | reading hflush hbits hinit hlater h =>
    rw [← hinput] at h
    simp only [rcReadInit_of_zero hinit, if_true]
    exact loop_follows hflush hbits hinit h
  | finished hinit hfinished =>
    obtain ⟨rfl, rfl⟩ := List.append_eq_nil_iff.mp hinput
    simp only [rcReadInit_of_zero hinit, if_true]
    exact .finished hinit hfinished

theorem Follows.pending {r : Reader ι × Bytes} (h : Follows bits r later) : r.2 = [] := by
  cases h <;> rfl

theorem Follows.run {chunks : List Bytes} {r : Reader ι × Bytes}
    (h : Follows bits r chunks.flatten) : Follows bits (run r chunks) [] := by
  induction chunks generalizing r with
  | nil => exact h
  | cons chunk chunks ih =>
    obtain ⟨r, pending⟩ := r
    have hpending : pending = [] := h.pending
    subst hpending
    exact ih h.call

/-- Without input left the decoder has got all bits. -/
theorem Follows.ended {r : Reader ι × Bytes} (h : Follows bits r []) :
    ∃ rc probs, r = (⟨rc, probs, [], bits⟩, []) ∧ rc.rcIsFinished = true := by
  generalize hlater : ([] : Bytes) = later at h
  cases h with
  | starting hflush hbits hleft h =>
    obtain ⟨seen, hseen, -, hlength, -⟩ := h.seen
    rw [← hlater, List.append_nil] at hlength
    exact absurd (UInt32.toNat_inj.mp (show _ = (0 : UInt32).toNat by
      show _ = 0
      omega)) hleft
  | reading hflush hbits hinit hne h => exact absurd hlater.symm hne
  | finished hinit hfinished => exact ⟨_, _, rfl, hfinished⟩

end Reader

/-- The round trip of the range coder. Symbols are put while `rc_encode` is called with any room for
output, and the arrays hold those that are not yet coded; behind a flush the calls go on as long as
the output becomes full. From the bytes, given in any pieces, the decoder gets the bits of the
symbols, and its code is 0 at the end. -/
theorem rangeCoder_round_trip {probs : ι → Probability} (hprobs : ∀ i, Balanced (probs i))
    {calls : List (Session.Call ι)} (hflush : .flush ∉ Session.symbolsOf calls)
    (hcount : (Session.symbolsOf calls).length + 8 < 2 ^ 64) {rooms : List ℕ}
    (hrooms : (Session.symbolsOf calls).length + 6 < rooms.sum) {s' : Session ι}
    (hrun : (Session.run ⟨.rcReset, probs, []⟩ calls).bind Session.flush = some s') :
    ∃ s, s'.drain rooms = some (false, s) ∧
      s.rc = .rcReset ∧ ∀ chunks : List Bytes, chunks.flatten = s.out →
        ∃ rc probs', Reader.run (.new probs (Session.symbolsOf calls), []) chunks =
            (⟨rc, probs', [], (Session.symbolsOf calls).map Symbol.value⟩, []) ∧
          rc.rcIsFinished = true := by
  obtain ⟨s, hdrain, hrc, hlength, hnumber⟩ :=
    Session.run_drain hprobs hflush hcount hrooms hrun
  refine ⟨s, hdrain, hrc, fun chunks hchunks => ?_⟩
  have hstarts : RangeDecoder.rcReset.Starts probs s.out (Session.symbolsOf calls) :=
    ⟨rfl, hprobs, [], rfl, rfl, hlength, hnumber⟩
  have hfollows : Reader.Follows ((Session.symbolsOf calls).map Symbol.value)
      (Reader.new probs (Session.symbolsOf calls), []) chunks.flatten := by
    rw [hchunks]
    exact .starting hflush rfl (show (5 : UInt32) ≠ 0 by decide) hstarts
  obtain ⟨rc, probs', hrun, hfinished⟩ := hfollows.run.ended
  exact ⟨rc, probs', hrun, hfinished⟩

/-- As many bits as there is place for in front of a flush, a call with room for a byte that becomes
full and another one, and two bits more. -/
theorem rangeCoder_round_trip_refilled :
    let calls : List (Session.Call Unit) := List.replicate 53 (.put (.bit () true)) ++
      [.encode 1, .encode 100, .put (.direct true), .put (.bit () false)]
    ∃ s', (Session.run ⟨.rcReset, fun _ => bitReset, []⟩ calls).bind Session.flush = some s' ∧
      ∃ s, s'.drain (List.replicate 62 1) = some (false, s) ∧
      s.rc = .rcReset ∧ ∀ chunks : List Bytes, chunks.flatten = s.out →
        ∃ rc probs', Reader.run (.new (fun _ => bitReset) (Session.symbolsOf calls), []) chunks =
            (⟨rc, probs', [], (Session.symbolsOf calls).map Symbol.value⟩, []) ∧
          rc.rcIsFinished = true := by
  intro calls
  have hflush : .flush ∉ Session.symbolsOf calls := by decide
  have hdefined : ((Session.run ⟨.rcReset, fun _ => bitReset, []⟩ calls).bind
      Session.flush).isSome = true := by decide +kernel
  obtain ⟨s', hrun⟩ := Option.isSome_iff_exists.mp hdefined
  exact ⟨s', hrun,
    rangeCoder_round_trip (fun _ => balanced_bitReset) hflush (by decide) (by decide) hrun⟩

end Lzma
