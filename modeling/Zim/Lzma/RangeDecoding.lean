import Zim.Lib.RangeCode
import Zim.Lzma.RangeCoder

/-! The range decoder follows a range code: with every macro it takes the part of the range that
the encoder took for the bit. -/
namespace Lzma
open Cxx RangeCode
variable {ι : Type}

/-- Probabilities that the updates lead to: neither part of a range is ever empty. -/
def Balanced (prob : Probability) : Prop := 31 ≤ prob.toNat ∧ prob.toNat ≤ 2017

theorem balanced_bitReset : Balanced bitReset := by
  unfold Balanced
  decide

theorem rcUpdate0_toNat {prob : Probability} (h : Balanced prob) :
    (rcUpdate0 prob).toNat = prob.toNat + (2048 - prob.toNat) / 32 := by
  have hle := h.2
  have hsub : (rcBitModelTotal - prob.toUInt32).toNat = 2048 - prob.toNat := by
    rw [UInt32.toNat_sub_of_le]
    · rfl
    · rw [UInt32.le_iff_toNat_le]
      exact Nat.le_trans hle (by decide)
  have hshift : ((rcBitModelTotal - prob.toUInt32) >>> 5).toNat = (2048 - prob.toNat) / 32 := by
    rw [UInt32.toNat_shiftRight, hsub, Nat.shiftRight_eq_div_pow]
    rfl
  rw [rcUpdate0, UInt16.toNat_add, UInt32.toNat_toUInt16, hshift]
  omega

theorem rcUpdate1_toNat (prob : Probability) :
    (rcUpdate1 prob).toNat = prob.toNat - prob.toNat / 32 := by
  have hshift : (prob >>> 5).toNat = prob.toNat / 32 := by
    rw [UInt16.toNat_shiftRight, Nat.shiftRight_eq_div_pow]
    rfl
  rw [rcUpdate1, UInt16.toNat_sub_of_le, hshift]
  rw [UInt16.le_iff_toNat_le, hshift]
  omega

theorem balanced_rcUpdate0 {prob : Probability} (h : Balanced prob) :
    Balanced (rcUpdate0 prob) := by
  unfold Balanced at *
  rw [rcUpdate0_toNat h]
  omega

theorem balanced_rcUpdate1 {prob : Probability} (h : Balanced prob) :
    Balanced (rcUpdate1 prob) := by
  unfold Balanced at *
  rw [rcUpdate1_toNat]
  omega

section Update
variable [DecidableEq ι] {probs : ι → Probability}

theorem balanced_rcUpdate (h : ∀ i, Balanced (probs i)) (symbol : Symbol ι) (i : ι) :
    Balanced (RangeEncoder.rcUpdate probs symbol i) := by
  unfold RangeEncoder.rcUpdate
  split
  · dsimp only
    split_ifs
    · exact balanced_rcUpdate0 (h _)
    · exact h i
  · dsimp only
    split_ifs
    · exact balanced_rcUpdate1 (h _)
    · exact h i
  · exact h i

end Update

/-- The range behind the normalization in front of a symbol. -/
def normalized (range : UInt32) : UInt32 := if range < rcTopValue then range <<< 8 else range

def normalizeSteps (range : UInt32) : List Step := if range < rcTopValue then [.scale] else []

/-- Where the part of a symbol begins in the range. -/
def Symbol.start (range : UInt32) (probs : ι → Probability) : Symbol ι → UInt32
  | .bit prob true => rcBound range (probs prob)
  | .direct true => range >>> 1
  | _ => 0

/-- How wide the part of a symbol is. -/
def Symbol.part (range : UInt32) (probs : ι → Probability) : Symbol ι → UInt32
  | .bit prob false => rcBound range (probs prob)
  | .bit prob true => range - rcBound range (probs prob)
  | .direct _ => range >>> 1
  | .flush => range

/-- The steps of the range code for some symbols, with the normalization behind them. -/
def codeSteps [DecidableEq ι] (range : UInt32) (probs : ι → Probability) :
    List (Symbol ι) → List Step
  | [] => normalizeSteps range
  | symbol :: symbols =>
    let part := symbol.part (normalized range) probs
    normalizeSteps range ++ .narrow (symbol.start (normalized range) probs).toNat part.toNat ::
      codeSteps part (RangeEncoder.rcUpdate probs symbol) symbols

/-- Wide enough that one normalization brings the range up to `RC_TOP_VALUE`. -/
def Wide (range : UInt32) : Prop := 2 ^ 16 ≤ range.toNat

theorem lt_rcTopValue (range : UInt32) : range < rcTopValue ↔ range.toNat < 2 ^ 24 := by
  rw [UInt32.lt_iff_toNat_lt]
  rfl

theorem shiftLeft_eight_toNat (a : UInt32) : (a <<< 8).toNat = a.toNat * 256 % 2 ^ 32 := by
  rw [UInt32.toNat_shiftLeft, Nat.shiftLeft_eq]
  rfl

theorem normalized_toNat (range : UInt32) : (normalized range).toNat =
    if range.toNat < 2 ^ 24 then range.toNat * 256 else range.toNat := by
  unfold normalized
  simp only [lt_rcTopValue]
  split_ifs with hlt
  · rw [shiftLeft_eight_toNat, Nat.mod_eq_of_lt]
    omega
  · rfl

theorem normalized_ge {range : UInt32} (h : Wide range) : 2 ^ 24 ≤ (normalized range).toNat := by
  unfold Wide at h
  rw [normalized_toNat]
  split_ifs
  · omega
  · omega

theorem rcBound_toNat {range : UInt32} {prob : Probability} (h : Balanced prob) :
    (rcBound range prob).toNat = range.toNat / 2048 * prob.toNat := by
  have hle := h.2
  have hrange := range.toNat_lt
  have hshift : (range >>> rcBitModelTotalBits).toNat = range.toNat / 2048 := by
    rw [UInt32.toNat_shiftRight, Nat.shiftRight_eq_div_pow]
    rfl
  have hmul : range.toNat / 2048 * prob.toNat ≤ range.toNat / 2048 * 2017 :=
    Nat.mul_le_mul_left _ hle
  rw [rcBound, UInt32.toNat_mul, hshift, UInt16.toNat_toUInt32, Nat.mod_eq_of_lt]
  omega

theorem rcBound_wide {range : UInt32} {prob : Probability} (hrange : 2 ^ 24 ≤ range.toNat)
    (h : Balanced prob) : 2 ^ 16 ≤ (rcBound range prob).toNat ∧
      (rcBound range prob).toNat + 2 ^ 16 ≤ range.toNat := by
  have hlow : range.toNat / 2048 * 31 ≤ range.toNat / 2048 * prob.toNat :=
    Nat.mul_le_mul_left _ h.1
  have hhigh : range.toNat / 2048 * prob.toNat ≤ range.toNat / 2048 * 2017 :=
    Nat.mul_le_mul_left _ h.2
  rw [rcBound_toNat h]
  omega

theorem shiftRight_one_toNat (range : UInt32) : (range >>> 1).toNat = range.toNat / 2 := by
  rw [UInt32.toNat_shiftRight, Nat.shiftRight_eq_div_pow]
  rfl

/-- The part of a symbol lies in the range, and is wide. -/
theorem Symbol.part_spec {range : UInt32} {probs : ι → Probability}
    (hrange : 2 ^ 24 ≤ range.toNat) (hprobs : ∀ i, Balanced (probs i)) (symbol : Symbol ι) :
    (symbol.start range probs).toNat + (symbol.part range probs).toNat ≤ range.toNat ∧
      Wide (symbol.part range probs) := by
  unfold Wide
  cases symbol with
  | bit prob bit =>
    obtain ⟨hlow, hhigh⟩ := rcBound_wide hrange (hprobs prob)
    have hsub : (range - rcBound range (probs prob)).toNat =
        range.toNat - (rcBound range (probs prob)).toNat := by
      apply UInt32.toNat_sub_of_le
      rw [UInt32.le_iff_toNat_le]
      omega
    cases bit with
    | false =>
      simp only [Symbol.start, Symbol.part, UInt32.toNat_zero]
      omega
    | true =>
      simp only [Symbol.start, Symbol.part, hsub]
      omega
  | direct bit =>
    cases bit with
    | false =>
      simp only [Symbol.start, Symbol.part, UInt32.toNat_zero, shiftRight_one_toNat]
      omega
    | true =>
      simp only [Symbol.start, Symbol.part, shiftRight_one_toNat]
      omega
  | flush =>
    simp only [Symbol.start, Symbol.part, UInt32.toNat_zero]
    omega

theorem inside_normalizeSteps {range : UInt32} {steps : List Step} :
    Inside 256 range.toNat (normalizeSteps range ++ steps) ↔
      Inside 256 (normalized range).toNat steps := by
  rw [normalized_toNat]
  unfold normalizeSteps
  simp only [lt_rcTopValue]
  split_ifs
  · rfl
  · rfl

theorem inside_codeSteps [DecidableEq ι] {range : UInt32} {probs : ι → Probability}
    (hrange : Wide range) (hprobs : ∀ i, Balanced (probs i)) (symbols : List (Symbol ι)) :
    Inside 256 range.toNat (codeSteps range probs symbols) := by
  induction symbols generalizing range probs with
  | nil =>
    have hge := normalized_ge hrange
    rw [codeSteps, ← List.append_nil (normalizeSteps range), inside_normalizeSteps]
    exact Nat.lt_of_lt_of_le (by decide) hge
  | cons symbol symbols ih =>
    obtain ⟨hle, hwide⟩ := Symbol.part_spec (normalized_ge hrange) hprobs symbol
    rw [codeSteps, inside_normalizeSteps]
    exact ⟨hle, ih hwide (balanced_rcUpdate hprobs symbol)⟩

/-- The digits of some bytes. -/
def digits (bs : Bytes) : List ℕ := bs.map UInt8.toNat

@[simp] theorem digits_length (bs : Bytes) : (digits bs).length = bs.length :=
  List.length_map ..

theorem digits_lt (bs : Bytes) : ∀ d ∈ digits bs, d < 256 := by
  intro d hd
  obtain ⟨b, -, rfl⟩ := List.mem_map.mp hd
  exact b.toNat_lt

namespace RangeDecoder
variable {rc : RangeDecoder} {avail later : Bytes} {steps : List Step}

theorem append_byte_toNat (code : UInt32) (b : UInt8) (h : code.toNat * 256 + b.toNat < 2 ^ 32) :
    (code <<< 8 ||| b.toUInt32).toNat = code.toNat * 256 + b.toNat := by
  have hb := b.toNat_lt
  have hmul : code.toNat * 256 = code.toNat <<< 8 := (Nat.shiftLeft_eq _ 8).symm
  rw [UInt32.toNat_or, shiftLeft_eight_toNat, UInt8.toNat_toUInt32,
    Nat.mod_eq_of_lt (Nat.lt_of_le_of_lt (Nat.le_add_right _ _) h), hmul]
  exact (Nat.shiftLeft_add_eq_or_of_lt hb code.toNat).symm

/-- The normalization takes the next byte, or waits for it. -/
theorem rcNormalize_points
    (h : Points 256 rc.code.toNat (digits (avail ++ later)) (normalizeSteps rc.range ++ steps))
    (hinside : Inside 256 (normalized rc.range).toNat steps) :
    (rc.rcNormalize avail = none ∧ avail = [] ∧ later ≠ []) ∨
      ∃ code avail', rc.rcNormalize avail =
          some (⟨normalized rc.range, code, rc.initBytesLeft⟩, avail') ∧ avail' <:+ avail ∧
        Points 256 code.toNat (digits (avail' ++ later)) steps := by
  unfold normalizeSteps at h
  unfold rcNormalize normalized
  split_ifs at h ⊢ with hlt
  · obtain ⟨d, ds, hdigits, hpoints⟩ := Points.scale h
    cases avail with
    | nil =>
      refine .inl ⟨rfl, rfl, ?_⟩
      rintro rfl
      simp [digits] at hdigits
    | cons b avail =>
      obtain ⟨rfl, rfl⟩ := List.cons.inj hdigits
      have hcode := hpoints.code_lt hinside
      have hrange := (normalized rc.range).toNat_lt
      refine .inr ⟨_, avail, rfl, List.suffix_cons _ _, ?_⟩
      rw [append_byte_toNat _ _ (by omega)]
      exact hpoints
  · exact .inr ⟨rc.code, avail, rfl, List.suffix_rfl, h⟩

variable [DecidableEq ι] {probs : ι → Probability} {symbols : List (Symbol ι)}

/-- The decoder stands in front of the given symbols, of whose code it has not yet taken the given
bytes. -/
structure Reads (rc : RangeDecoder) (probs : ι → Probability) (input : Bytes)
    (symbols : List (Symbol ι)) : Prop where
  wide : Wide rc.range
  balanced : ∀ i, Balanced (probs i)
  points : Points 256 rc.code.toNat (digits input) (codeSteps rc.range probs symbols)

theorem Reads.symbol {symbol : Symbol ι} (h : Reads rc probs (avail ++ later) (symbol :: symbols)) :
    (rc.rcNormalize avail = none ∧ avail = [] ∧ later ≠ []) ∨
      ∃ code avail', rc.rcNormalize avail =
          some (⟨normalized rc.range, code, rc.initBytesLeft⟩, avail') ∧ avail' <:+ avail ∧
        (symbol.start (normalized rc.range) probs).toNat ≤ code.toNat ∧
        code.toNat < (symbol.start (normalized rc.range) probs).toNat +
          (symbol.part (normalized rc.range) probs).toNat ∧
        Reads ⟨symbol.part (normalized rc.range) probs,
          code - symbol.start (normalized rc.range) probs, rc.initBytesLeft⟩
          (RangeEncoder.rcUpdate probs symbol) (avail' ++ later) symbols := by
  obtain ⟨hle, hwide⟩ := Symbol.part_spec (normalized_ge h.wide) h.balanced symbol
  have hbalanced := balanced_rcUpdate h.balanced symbol
  have hinside := inside_codeSteps hwide hbalanced symbols
  obtain hnone | ⟨code, avail', hsome, hsuffix, hpoints⟩ :=
    rcNormalize_points h.points ⟨hle, hinside⟩
  · exact .inl hnone
  · obtain ⟨hstart, hlt, hnext⟩ := hpoints.narrow (by decide) hinside
    have hsub : (code - symbol.start (normalized rc.range) probs).toNat =
        code.toNat - (symbol.start (normalized rc.range) probs).toNat :=
      UInt32.toNat_sub_of_le _ _ (UInt32.le_iff_toNat_le.mpr hstart)
    refine .inr ⟨code, avail', hsome, hsuffix, hstart, hlt, hwide, hbalanced, ?_⟩
    rw [hsub]
    exact hnext

/-- A bit is decoded as it was encoded, or the decoder waits for input. -/
theorem Reads.rcBit {prob : ι} {bit : Bool}
    (h : Reads rc probs (avail ++ later) (.bit prob bit :: symbols)) :
    (rc.rcBit (probs prob) avail = none ∧ avail = [] ∧ later ≠ []) ∨
      ∃ rc' avail', rc.rcBit (probs prob) avail =
          some (bit, rc', RangeEncoder.rcUpdate probs (.bit prob bit) prob, avail') ∧
        avail' <:+ avail ∧ rc'.initBytesLeft = rc.initBytesLeft ∧
        Reads rc' (RangeEncoder.rcUpdate probs (.bit prob bit)) (avail' ++ later) symbols := by
  unfold RangeDecoder.rcBit
  obtain ⟨hnone, hwait⟩ | ⟨code, avail', hsome, hsuffix, hstart, hlt, hreads⟩ := h.symbol
  · exact .inl ⟨by rw [hnone]; rfl, hwait⟩
  · rw [hsome, Option.map_some]
    refine .inr ⟨_, avail', ?_, hsuffix, ?_, hreads⟩
    · cases bit with
      | false =>
        have hbound : code < rcBound (normalized rc.range) (probs prob) := by
          simpa [Symbol.part, Symbol.start, UInt32.lt_iff_toNat_lt] using hlt
        simp only [if_pos hbound, Symbol.part, Symbol.start, UInt32.sub_zero,
          RangeEncoder.rcUpdate, if_true]
      | true =>
        have hbound : ¬ code < rcBound (normalized rc.range) (probs prob) := by
          simpa [Symbol.part, Symbol.start, UInt32.lt_iff_toNat_lt] using hstart
        simp only [if_neg hbound, Symbol.part, Symbol.start, RangeEncoder.rcUpdate, if_true]
    · rfl

theorem and_ones (a : UInt32) : a &&& (0xFFFFFFFF : UInt32) = a := by
  apply UInt32.toNat_inj.mp
  rw [UInt32.toNat_and]
  exact Nat.and_two_pow_sub_one_of_lt_two_pow a.toNat_lt

/-- The borrow of `rc_direct` is 0 exactly where the code lies in the upper half. -/
theorem direct_borrow (range code : UInt32) (hrange : range.toNat < 2 ^ 31)
    (hcode : code.toNat < range.toNat + range.toNat) :
    (0 : UInt32) - (code - range) >>> 31 = if range ≤ code then 0 else 0xFFFFFFFF := by
  have hshift : ((code - range) >>> 31).toNat = (code - range).toNat / 2 ^ 31 := by
    rw [UInt32.toNat_shiftRight, Nat.shiftRight_eq_div_pow]
    rfl
  rw [UInt32.toNat_sub] at hshift
  have hlt := code.toNat_lt
  simp only [UInt32.le_iff_toNat_le]
  split_ifs with hle
  · have hzero : (code - range) >>> 31 = 0 := by
      apply UInt32.toNat_inj.mp
      rw [hshift]
      show _ = 0
      omega
    rw [hzero]
    rfl
  · have hone : (code - range) >>> 31 = 1 := by
      apply UInt32.toNat_inj.mp
      rw [hshift]
      show _ = 1
      omega
    rw [hone]
    rfl

/-- A direct bit is decoded as it was encoded, or the decoder waits for input. -/
theorem Reads.rcDirect {bit : Bool}
    (h : Reads rc probs (avail ++ later) (.direct bit :: symbols)) :
    (rc.rcDirect avail = none ∧ avail = [] ∧ later ≠ []) ∨
      ∃ rc' avail', rc.rcDirect avail = some (bit, rc', avail') ∧ avail' <:+ avail ∧
        rc'.initBytesLeft = rc.initBytesLeft ∧ Reads rc' probs (avail' ++ later) symbols := by
  unfold RangeDecoder.rcDirect
  obtain ⟨hnone, hwait⟩ | ⟨code, avail', hsome, hsuffix, hstart, hlt, hreads⟩ := h.symbol
  · exact .inl ⟨by rw [hnone]; rfl, hwait⟩
  · rw [hsome, Option.map_some]
    refine .inr ⟨_, avail', ?_, hsuffix, ?_, hreads⟩
    · have hhalf := shiftRight_one_toNat (normalized rc.range)
      have hrange := (normalized rc.range).toNat_lt
      cases bit with
      | false =>
        have hcode : code.toNat < (normalized rc.range >>> 1).toNat := by
          simpa [Symbol.part, Symbol.start] using hlt
        have hborrow := direct_borrow (normalized rc.range >>> 1) code (by omega)
          (by omega)
        rw [if_neg (by rw [UInt32.le_iff_toNat_le]; omega)] at hborrow
        simp only [hborrow, Symbol.part, Symbol.start, UInt32.sub_zero, and_ones,
          UInt32.sub_add_cancel]
        rfl
      | true =>
        have hcode : (normalized rc.range >>> 1).toNat ≤ code.toNat := by
          simpa [Symbol.part, Symbol.start] using hstart
        have hpart : code.toNat <
            (normalized rc.range >>> 1).toNat + (normalized rc.range >>> 1).toNat := by
          simpa [Symbol.part, Symbol.start] using hlt
        have hborrow := direct_borrow (normalized rc.range >>> 1) code (by omega)
          hpart
        rw [if_pos (UInt32.le_iff_toNat_le.mpr hcode)] at hborrow
        simp only [hborrow, Symbol.part, Symbol.start]
        simp
    · rfl

/-- Behind the last symbol the normalization takes the last byte of the code. -/
theorem Reads.finished (h : Reads rc probs (avail ++ later) []) :
    (rc.rcNormalize avail = none ∧ avail = [] ∧ later ≠ []) ∨
      ∃ rc', rc.rcNormalize avail = some (rc', []) ∧ rc'.rcIsFinished ∧ later = [] := by
  have hpoints := h.points
  rw [codeSteps, ← List.append_nil (normalizeSteps rc.range)] at hpoints
  have hinside : Inside 256 (normalized rc.range).toNat [] :=
    Nat.lt_of_lt_of_le (by decide) (normalized_ge h.wide)
  obtain hnone | ⟨code, avail', hsome, -, hlast⟩ := rcNormalize_points hpoints hinside
  · exact .inl hnone
  · obtain ⟨hcode, hdigits⟩ := hlast.nil
    obtain ⟨rfl, rfl⟩ := List.append_eq_nil_iff.mp (List.map_eq_nil_iff.mp hdigits)
    refine .inr ⟨_, hsome, ?_, rfl⟩
    simpa [rcIsFinished, ← UInt32.toNat_inj] using hcode

end RangeDecoder

end Lzma
