import Zim.Format.CompressRuns
import Zim.Lib.Transducer

/-! Libraries of which one stream and its text are known. -/
namespace Zim.KnownStream
open Cxx Compressor

section Compress

/-- A compressor in front of the bytes of the stream that it knows. The last `kept` of them wait for
the end of the text. -/
def compressor (lib : Library) (runOk finishOk : ℤ) (kept : ℕ) : Compressor Bytes UInt8 :=
  fun s action input space =>
    if action = lib.finish then
      ⟨s.drop space, input.length, s.take space,
        if s.length ≤ space then lib.streamEnd else finishOk⟩
    else
      let n := min space (s.length - kept)
      ⟨s.drop n, input.length, s.take n, runOk⟩

variable {lib : Library} {runOk finishOk : ℤ} {kept space : ℕ}

theorem finishes (hspace : 0 < space) (hok : lib.accepted finishOk = true)
    (hmore : finishOk ≠ lib.streamEnd) (s input : Bytes) :
    Finishes (compressor lib runOk finishOk kept) lib.accepted lib.finish space lib.streamEnd s
      input := by
  induction hn : s.length using Nat.strong_induction_on generalizing s input with
  | _ n ih =>
    subst hn
    by_cases hlast : s.length ≤ space
    · refine .last ?_ ?_
      · simp only [compressor, if_true, if_pos hlast]
      · simp only [compressor, if_true]
    · have hret : (compressor lib runOk finishOk kept s lib.finish input space).ret = finishOk := by
        simp only [compressor, if_true, if_neg hlast]
      refine .more (by rwa [hret]) (by rwa [hret]) (ih _ ?_ _ _ rfl)
      simp only [compressor, if_true, List.length_drop]
      omega

theorem compressor_lawful (hspace : 0 < space) (hactions : lib.run ≠ lib.finish)
    (hrun : lib.accepted runOk = true) (hok : lib.accepted finishOk = true)
    (hmore : finishOk ≠ lib.streamEnd) :
    Lawful (compressor lib runOk finishOk kept) lib.accepted space lib.run lib.finish lib.streamEnd
      fun _ => True where
  consumed_le s action input := by
    rw [compressor]
    split_ifs <;> exact le_rfl
  output_le s action input := by
    by_cases hfinish : action = lib.finish
    · rw [compressor, if_pos hfinish]
      exact List.length_take_le _ _
    · rw [compressor, if_neg hfinish]
      exact (List.length_take_le _ _).trans (min_le_left _ _)
  run_accepted s input _ _ := by
    rw [compressor, if_neg hactions]
    exact hrun
  run_running _ _ _ _ := trivial
  progresses s input _ hsome := .now (by
    rw [compressor, if_neg hactions]
    exact List.length_pos_of_ne_nil hsome)
  finishes s input _ := finishes hspace hok hmore s input

/-- While it runs, what was put out and what is left are the stream. -/
theorem given_ran {packed : Bytes} {s : Bytes × List (Call UInt8)}
    (h : Ran (compressor lib runOk finishOk kept) lib.accepted lib.run space packed s) :
    given s.2 ++ s.1 = packed := by
  induction h with
  | start => rfl
  | @call s h input hok ih =>
    have hsplit : (compressor lib runOk finishOk kept s.1 lib.run input space).output ++
        (compressor lib runOk finishOk kept s.1 lib.run input space).state = s.1 := by
      rw [compressor]
      split_ifs <;> exact List.take_append_drop _ _
    rw [given_logged, List.append_assoc]
    exact (congrArg (given s.2 ++ ·) hsplit).trans ih

theorem given_ends (hmore : finishOk ≠ lib.streamEnd) {s : Bytes × List (Call UInt8)}
    {input : Bytes} {calls : List (Call UInt8)}
    (h : Ends (compressor lib runOk finishOk kept) lib.accepted lib.finish space lib.streamEnd s
      input calls) : given calls = given s.2 ++ s.1 := by
  induction h with
  | @last s input hret =>
    have hall : s.1.length ≤ space := by
      by_contra hlong
      simp only [logged, compressor, if_true, if_neg hlong] at hret
      exact hmore hret
    rw [given_logged]
    simp only [logged, compressor, if_true, List.take_of_length_le hall]
  | @more s input calls hret hok _ ih =>
    rw [ih, given_logged, List.append_assoc]
    simp only [logged, compressor, if_true, List.take_append_drop]

/-- All that a whole stream of calls puts out is the stream that the compressor knows. -/
theorem given_whole (hmore : finishOk ≠ lib.streamEnd) {packed : Bytes}
    {calls : List (Call UInt8)}
    (h : Whole (compressor lib runOk finishOk kept) lib.accepted lib.run lib.finish space
      lib.streamEnd packed calls) : given calls = packed := by
  obtain ⟨s, input, hran, hends⟩ := h
  rw [given_ends hmore hends, given_ran hran]

end Compress

section Decompress
variable (packed text : Bytes) (start : ℕ)

/-- The machine that knows a stream. It is in front of a byte of it, and gives the text from the
byte `start` on. -/
def reader : Transducer ℕ UInt8 where
  step i b :=
    if packed[i]? = some b then
      some (i + 1, if start ≤ i then text[i - start]? else none)
    else none
  done i := i = packed.length

variable {packed text start}

theorem unpack_reader (hfit : start + text.length ≤ packed.length) {i : ℕ} {rest : Bytes}
    (hrest : packed.drop i = rest) (hi : i ≤ packed.length) :
    (reader packed text start).unpack i rest = some (text.drop (i - start)) := by
  induction rest generalizing i with
  | nil =>
    have hend : i = packed.length := le_antisymm hi (List.drop_eq_nil_iff.mp hrest)
    have hdone : (reader packed text start).done i = true := decide_eq_true hend
    rw [Transducer.unpack, if_pos hdone, List.drop_eq_nil_of_le (by omega)]
  | cons b rest ih =>
    have hlt : i < packed.length := by
      by_contra hge
      rw [List.drop_eq_nil_of_le (not_lt.mp hge)] at hrest
      cases hrest
    have hhead : packed[i]? = some b := by
      rw [← List.head?_drop, hrest, List.head?_cons]
    have htail : packed.drop (i + 1) = rest := by
      rw [← List.tail_drop, hrest, List.tail_cons]
    have hdone : (reader packed text start).done i = false := by
      simp [reader, hlt.ne]
    have hstep : (reader packed text start).step i b =
        some (i + 1, if start ≤ i then text[i - start]? else none) := if_pos hhead
    rw [Transducer.unpack, hdone, hstep]
    simp only [Bool.false_eq_true, if_false, ih htail hlt, Option.map_some, Option.some.injEq]
    by_cases hstart : start ≤ i
    · rw [if_pos hstart, Nat.sub_add_comm hstart]
      exact (List.drop_eq_getElem?_toList_append ..).symm
    · rw [if_neg hstart]
      have hzero : i + 1 - start = i - start := by omega
      rw [hzero]
      rfl

theorem decoding_reader (hfit : start + text.length ≤ packed.length) :
    (reader packed text start).Decoding 0 packed text := by
  rw [Transducer.Decoding, unpack_reader hfit List.drop_zero (Nat.zero_le _), Nat.zero_sub,
    List.drop_zero]

end Decompress
end Zim.KnownStream
