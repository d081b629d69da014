import Zim.Format.CompressRuns
import Zim.Lib.Transducer

/-! What zlib's `inflate` does with a stream of stored blocks. -/
namespace Zim.StoredBlocks
open Cxx Compressor

/-- Where `inflate` is in a stream, with the bytes seen of the part that it is in. -/
inductive Mode where
  | header (seen : Bytes)
  | block (seen : Bytes)
  | copy (final : Bool) (left : ℕ)
  | check (seen : Bytes)
  | done
  deriving DecidableEq, Repr

/-- The mode and the text given so far. -/
structure InflateState where
  mode : Mode
  text : Bytes
  deriving DecidableEq, Repr

/-- The mode with some bytes of a block left to be copied. -/
def Mode.copying (final : Bool) (left : ℕ) : Mode :=
  if 0 < left then .copy final left
  else if final then .check []
  else .block []

/-- The flag of a block, its length and the complement of that. -/
def Mode.ofBlock (seen : Bytes) : Option Mode :=
  let len := LittleEndian.decode ((seen.drop 1).take 2)
  let nlen := LittleEndian.decode (seen.drop 3)
  if len + nlen ≠ 2 ^ 16 - 1 then none
  else if seen.head? = some 0 then some (.copying false len)
  else if seen.head? = some 1 then some (.copying true len)
  else none

def inflateStep (s : InflateState) (b : UInt8) : Option (InflateState × Option UInt8) :=
  match s.mode with
  | .header seen =>
    let seen := seen ++ [b]
    if seen.length < 2 then some (⟨.header seen, s.text⟩, none)
    else if seen = init.pending then some (⟨.block [], s.text⟩, none)
    else none
  | .block seen =>
    let seen := seen ++ [b]
    if seen.length < 5 then some (⟨.block seen, s.text⟩, none)
    else (Mode.ofBlock seen).map fun mode => (⟨mode, s.text⟩, none)
  | .copy final left => some (⟨.copying final (left - 1), s.text ++ [b]⟩, some b)
  | .check seen =>
    let seen := seen ++ [b]
    if seen.length < 4 then some (⟨.check seen, s.text⟩, none)
    else if seen = trailer s.text then some (⟨.done, s.text⟩, none)
    else none
  | .done => none

def inflater : Transducer InflateState UInt8 := ⟨inflateStep, fun s => s.mode = .done⟩

def inflate : Compressor InflateState UInt8 := inflater.decompressor

def inflateInit : InflateState := ⟨.header [], []⟩

/-- The stream of a text in one block. -/
def stream (bs : Bytes) : Bytes := init.pending ++ storedBlock true bs ++ trailer bs

section Stream

theorem unpack_step {s s' : InflateState} {b : UInt8} {out : Option UInt8} (rest : Bytes)
    (h : inflateStep s b = some (s', out)) :
    inflater.unpack s (b :: rest) = (inflater.unpack s' rest).map (out.toList ++ ·) := by
  have hdone : inflater.done s = false := by
    rw [inflater, decide_eq_false_iff_not]
    intro hmode
    simp [inflateStep, hmode] at h
  have hstep : inflater.step s b = some (s', out) := h
  simp [Transducer.unpack, hdone, hstep]

/-- A character that gives no text. -/
theorem unpack_silent {s : InflateState} {b : UInt8} (s' : InflateState) (rest : Bytes)
    (h : inflateStep s b = some (s', none)) :
    inflater.unpack s (b :: rest) = inflater.unpack s' rest := by
  rw [unpack_step rest h]
  simp

theorem unpack_header (text rest : Bytes) :
    inflater.unpack ⟨.header [], text⟩ (init.pending ++ rest) =
      inflater.unpack ⟨.block [], text⟩ rest := by
  rw [init, List.cons_append, unpack_silent ⟨.header [0x78], text⟩ _ rfl, List.cons_append,
    unpack_silent ⟨.block [], text⟩ _ rfl, List.nil_append]

theorem exists_two {bs : Bytes} (h : bs.length = 2) : ∃ a b, bs = [a, b] := by
  match bs, h with
  | [a, b], _ => exact ⟨a, b, rfl⟩

/-- The five bytes in front of the last block. -/
theorem unpack_block {len : ℕ} (hlen : len < 2 ^ 16) (text rest : Bytes) :
    inflater.unpack ⟨.block [], text⟩ (1 :: (LittleEndian.encode 2 len ++
        LittleEndian.encode 2 (2 ^ 16 - 1 - len) ++ rest)) =
      inflater.unpack ⟨.copying true len, text⟩ rest := by
  obtain ⟨l₀, l₁, hl⟩ := exists_two (LittleEndian.encode_length 2 len)
  obtain ⟨n₀, n₁, hn⟩ := exists_two (LittleEndian.encode_length 2 (2 ^ 16 - 1 - len))
  have hdl : LittleEndian.decode [l₀, l₁] = len := by
    rw [← hl]
    exact LittleEndian.decode_encode_of_lt (by omega)
  have hdn : LittleEndian.decode [n₀, n₁] = 2 ^ 16 - 1 - len := by
    rw [← hn]
    exact LittleEndian.decode_encode_of_lt (by omega)
  have hmode : Mode.ofBlock [1, l₀, l₁, n₀, n₁] = some (.copying true len) := by
    simp only [Mode.ofBlock, List.drop_succ_cons, List.drop_zero, List.take_succ_cons,
      List.take_zero, hdl, hdn]
    rw [if_neg (by omega)]
    rfl
  have hlast : inflateStep ⟨.block [1, l₀, l₁, n₀], text⟩ n₁ =
      some (⟨.copying true len, text⟩, none) := by
    simp [inflateStep, hmode]
  rw [hl, hn]
  simp only [List.cons_append, List.nil_append]
  rw [unpack_silent ⟨.block [1], text⟩ _ rfl,
    unpack_silent ⟨.block [1, l₀], text⟩ _ rfl,
    unpack_silent ⟨.block [1, l₀, l₁], text⟩ _ rfl,
    unpack_silent ⟨.block [1, l₀, l₁, n₀], text⟩ _ rfl, unpack_silent _ _ hlast]

/-- The bytes of the last block. -/
theorem unpack_copy (bs text rest : Bytes) :
    inflater.unpack ⟨.copying true bs.length, text⟩ (bs ++ rest) =
      (inflater.unpack ⟨.check [], text ++ bs⟩ rest).map (bs ++ ·) := by
  induction bs generalizing text with
  | nil => simp [Mode.copying]
  | cons b bs ih =>
    have hstep : inflateStep ⟨.copying true (bs.length + 1), text⟩ b =
        some (⟨.copying true bs.length, text ++ [b]⟩, some b) := by
      rw [Mode.copying, if_pos (Nat.succ_pos _)]
      rfl
    rw [List.length_cons, List.cons_append, unpack_step _ hstep, ih]
    simp [Function.comp_def]

theorem unpack_check (text : Bytes) :
    inflater.unpack ⟨.check [], text⟩ (trailer text) = some [] := by
  have hlen (n : ℕ) : (LittleEndian.encode 2 n).reverse.length = 2 := by
    rw [List.length_reverse, LittleEndian.encode_length]
  obtain ⟨a, b, hhigh⟩ := exists_two (hlen (adler text).2)
  obtain ⟨c, d, hlow⟩ := exists_two (hlen (adler text).1)
  have htrailer : trailer text = [a, b, c, d] := by
    rw [trailer, hhigh, hlow]
    rfl
  have hlast : inflateStep ⟨.check [a, b, c], text⟩ d = some (⟨.done, text⟩, none) := by
    simp [inflateStep, htrailer]
  rw [htrailer, unpack_silent ⟨.check [a], text⟩ _ rfl,
    unpack_silent ⟨.check [a, b], text⟩ _ rfl,
    unpack_silent ⟨.check [a, b, c], text⟩ _ rfl, unpack_silent _ _ hlast]
  rfl

/-- The stream of a text that fits into a block stands for the text. -/
theorem decoding_stream {bs : Bytes} (hlen : bs.length < 2 ^ 16) :
    inflater.Decoding inflateInit (stream bs) bs := by
  rw [Transducer.Decoding, stream, inflateInit, List.append_assoc, unpack_header, storedBlock,
    if_pos rfl, List.cons_append, List.append_assoc, unpack_block hlen, unpack_copy,
    List.nil_append, unpack_check]
  simp

end Stream

section Whole
variable {s : State × List (Call UInt8)} {space : ℕ}

/-- What was given, with what is pending, is the stream up to the block that is not yet ended. -/
structure Stored (s : State × List (Call UInt8)) : Prop where
  taken : taken s.2 = s.1.text
  block : s.1.finished = false → s.1.block = s.1.text
  given : given s.2 ++ s.1.pending =
    if s.1.finished then stream s.1.text else init.pending

theorem stored_init : Stored (init, []) := ⟨rfl, fun _ => rfl, rfl⟩

/-- All of the input is taken, and what is pending goes on behind what was given. -/
theorem stored_logged {action : ℤ} {input : Bytes}
    (htaken : Compressor.taken s.2 ++ input = (s.1.absorb action input).text)
    (hblock : (s.1.absorb action input).finished = false →
      (s.1.absorb action input).block = (s.1.absorb action input).text)
    (hgiven : Compressor.given s.2 ++ (s.1.absorb action input).pending =
      if (s.1.absorb action input).finished then stream (s.1.absorb action input).text
      else init.pending) :
    Stored (deflate.logged s action input space).state where
  taken := by
    have hall := taken_logged (z := deflate) s action input space
    have hnone : input.drop (deflate.logged s action input space).consumed = [] :=
      List.drop_length
    rw [hnone, List.append_nil] at hall
    rw [hall, htaken]
    rfl
  block := hblock
  given := by
    rw [given_logged, List.append_assoc]
    have hsplit : (deflate.logged s action input space).output ++
        (deflate.logged s action input space).state.1.pending =
          (s.1.absorb action input).pending := List.take_append_drop _ _
    rw [hsplit, hgiven]
    rfl

theorem Stored.run (h : Stored s) (hs : s.1.finished = false) (input : Bytes) :
    Stored (deflate.logged s noFlush input space).state := by
  have htext : (s.1.absorb noFlush input).text = s.1.text ++ input := by
    simp [State.absorb, noFlush, syncFlush, StoredBlocks.finish]
  have hblock : (s.1.absorb noFlush input).block = s.1.block ++ input := by
    simp [State.absorb, noFlush, syncFlush, StoredBlocks.finish]
  have hpending : (s.1.absorb noFlush input).pending = s.1.pending := by
    simp [State.absorb, noFlush, syncFlush, StoredBlocks.finish]
  apply stored_logged
  · rw [htext, h.taken]
  · intro _
    rw [hblock, htext, h.block hs]
  · rw [hpending, absorb_noFlush, h.given]
    simp [hs]

theorem Stored.finish (h : Stored s) {input : Bytes} (hs : s.1.finished = true → input = []) :
    Stored (deflate.logged s StoredBlocks.finish input space).state := by
  have htext : (s.1.absorb StoredBlocks.finish input).text = s.1.text ++ input := by
    cases hfin : s.1.finished <;> simp [State.absorb, syncFlush, StoredBlocks.finish, hfin]
  apply stored_logged
  · rw [htext, h.taken]
  · intro hfalse
    rw [absorb_finish] at hfalse
    cases hfalse
  · rw [absorb_finish, if_pos rfl, htext]
    cases hfin : s.1.finished with
    | true =>
      obtain rfl := hs hfin
      rw [absorb_finished _ hfin, h.given, if_pos hfin, List.append_nil]
    | false =>
      have hgiven := h.given
      rw [hfin, if_neg Bool.false_ne_true] at hgiven
      have hpending : (s.1.absorb StoredBlocks.finish input).pending =
          s.1.pending ++ storedBlock true (s.1.block ++ input) ++ trailer (s.1.text ++ input) := by
        simp [State.absorb, syncFlush, StoredBlocks.finish, hfin]
      rw [hpending, ← List.append_assoc, ← List.append_assoc, hgiven, h.block hfin, stream]

/-- The stream that the calls give is that of the text that they take. -/
theorem given_whole {accepted : ℤ → Bool} {calls : List (Call UInt8)}
    (h : Whole deflate accepted noFlush StoredBlocks.finish space 1 init calls) :
    Compressor.given calls = stream (Compressor.taken calls) := by
  obtain ⟨s, input, hran, hends⟩ := h
  have hstored : Stored s ∧ s.1.finished = false := by
    clear hends
    induction hran with
    | start => exact ⟨stored_init, rfl⟩
    | @call s _ input _ ih => exact ⟨ih.1.run ih.2 input, (absorb_noFlush s.1 input).trans ih.2⟩
  have hfinished : s.1.finished = true → input = [] := fun h => by simp [hstored.2] at h
  replace hstored := hstored.1
  clear hran
  induction hends with
  | @last s input hret =>
    have hlast : Stored (deflate.logged s StoredBlocks.finish input space).state :=
      hstored.finish hfinished
    have hfits : (s.1.absorb StoredBlocks.finish input).finished ∧
        (s.1.absorb StoredBlocks.finish input).pending.length ≤ space := by
      by_contra hnot
      have hzero : (deflate.logged s StoredBlocks.finish input space).ret = 0 := if_neg hnot
      rw [hzero] at hret
      exact absurd hret (by decide)
    have hpending : (deflate.logged s StoredBlocks.finish input space).state.1.pending = [] :=
      List.drop_eq_nil_of_le hfits.2
    have hgiven := hlast.given
    rw [hpending, List.append_nil] at hgiven
    rw [hgiven, hlast.taken]
    exact if_pos hfits.1
  | @more s input calls _ _ _ ih =>
    exact ih (fun _ => List.drop_length) (hstored.finish hfinished)

end Whole

end Zim.StoredBlocks
