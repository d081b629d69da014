import Zim.Lzma.LzmaEncoder
import Zim.Lzma.PosSlots

/-! How many symbols `encode_symbol` queues for the range encoder: with those of a flush they lie in
the arrays. -/
namespace Lzma
open Cxx

namespace RangeEncoder
variable {ι : Type}

@[simp] theorem rcBit_length (rc : RangeEncoder ι) (prob : ι) (bit : Bool) :
    (rc.rcBit prob bit).symbols.length = rc.symbols.length + 1 :=
  List.length_append ..

@[simp] theorem rcBittree_length (rc : RangeEncoder ι) (probs : ℕ → ι) (bitCount : ℕ)
    (symbol : UInt32) :
    (rc.rcBittree probs bitCount symbol).symbols.length = rc.symbols.length + bitCount := by
  unfold rcBittree
  generalize 1 = modelIndex
  induction bitCount generalizing rc modelIndex with
  | zero => rfl
  | succ n ih =>
    rw [rcBittree.go, ih, rcBit_length]
    omega

@[simp] theorem rcBittreeReverse_length (rc : RangeEncoder ι) (probs : ℕ → ι) (bitCount : ℕ)
    (symbol : UInt32) :
    (rc.rcBittreeReverse probs bitCount symbol).symbols.length =
      rc.symbols.length + bitCount := by
  unfold rcBittreeReverse
  generalize 1 = modelIndex
  generalize symbol.toNat = value
  induction bitCount generalizing rc modelIndex value with
  | zero => rfl
  | succ n ih =>
    rw [rcBittreeReverse.go, ih, rcBit_length]
    omega

@[simp] theorem rcDirect_length (rc : RangeEncoder ι) (value : UInt32) (bitCount : ℕ) :
    (rc.rcDirect value bitCount).symbols.length = rc.symbols.length + bitCount := by
  induction bitCount generalizing rc with
  | zero => rfl
  | succ n ih =>
    rw [rcDirect, ih, List.length_append, List.length_singleton]
    omega

end RangeEncoder

namespace LzmaEncoder

theorem literalMatched_length (rc : RangeEncoder Prob) (subcoder : ℕ)
    (matchByte symbol : UInt32) :
    (literalMatched rc subcoder matchByte symbol).symbols.length = rc.symbols.length + 8 := by
  have hloop : ∀ bits rc offset matchByte symbol,
      (literalMatchedLoop subcoder bits rc offset matchByte symbol).symbols.length =
        rc.symbols.length + bits := by
    intro bits
    induction bits with
    | zero => exact fun _ _ _ _ => rfl
    | succ bits ih =>
      intro rc offset matchByte symbol
      rw [literalMatchedLoop, ih, RangeEncoder.rcBit_length]
      omega
  exact hloop 8 rc _ _ _

theorem literal_length (coder : LzmaEncoder) (data : Bytes) (position : ℕ) :
    (coder.literal data position).rc.symbols.length = coder.rc.symbols.length + 8 := by
  unfold literal
  dsimp only
  by_cases hliteral : coder.state.isLiteralState = true
  · rw [if_pos hliteral, RangeEncoder.rcBittree_length]
  · rw [if_neg hliteral, literalMatched_length]

theorem length_length_le (rc : RangeEncoder Prob) (lc : LenCoder) (posState : ℕ) (len : UInt32) :
    (length rc lc posState len).symbols.length ≤ rc.symbols.length + 10 := by
  unfold length
  dsimp only
  split_ifs <;> simp

/-- The bits of a distance behind those of its slot. -/
theorem footerBits_le : ∀ slot < 64, 4 ≤ slot →
    (UInt32.ofNat slot >>> 1 - 1).toNat ≤ 30 ∧
      (¬ UInt32.ofNat slot < endPosModelIndex →
        (UInt32.ofNat slot >>> 1 - 1 - alignBits).toNat ≤ 26) := by
  decide

theorem distance_length_le (rc : RangeEncoder Prob) (distance len : UInt32) :
    (LzmaEncoder.distance rc distance len).symbols.length ≤ rc.symbols.length + 36 := by
  have hlt := getPosSlot_lt distance
  unfold LzmaEncoder.distance
  dsimp only
  generalize getPosSlot distance = slot at hlt ⊢
  have hfooter := footerBits_le slot.toNat hlt
  rw [UInt32.ofNat_toNat] at hfooter
  split_ifs with hstart hend
  · obtain ⟨hbits, -⟩ := hfooter (UInt32.le_iff_toNat_le.mp hstart)
    rw [RangeEncoder.rcBittreeReverse_length, RangeEncoder.rcBittree_length]
    omega
  · obtain ⟨-, hdirect⟩ := hfooter (UInt32.le_iff_toNat_le.mp hstart)
    have hbits := hdirect hend
    have halign : alignBits.toNat = 4 := rfl
    rw [RangeEncoder.rcBittreeReverse_length, RangeEncoder.rcDirect_length,
      RangeEncoder.rcBittree_length, halign]
    omega
  · rw [RangeEncoder.rcBittree_length]
    omega

theorem matched_length_le (coder : LzmaEncoder) (posState : ℕ) (distance len : UInt32) :
    (coder.matched posState distance len).rc.symbols.length ≤ coder.rc.symbols.length + 46 := by
  have hlength := length_length_le coder.rc .matchLen posState len
  have hdistance := distance_length_le (length coder.rc .matchLen posState len) distance len
  exact hdistance.trans (by omega)

theorem repDistance_length_le (coder : LzmaEncoder) (posState : ℕ) (rep len : UInt32) :
    (coder.repDistance posState rep len).rc.symbols.length ≤ coder.rc.symbols.length + 3 := by
  unfold repDistance
  dsimp only
  split_ifs <;> simp

theorem repMatch_length_le (coder : LzmaEncoder) (posState : ℕ) (rep len : UInt32) :
    (coder.repMatch posState rep len).rc.symbols.length ≤ coder.rc.symbols.length + 13 := by
  have hdistance := repDistance_length_le coder posState rep len
  unfold repMatch
  dsimp only
  split_ifs
  · exact hdistance.trans (by omega)
  · exact (length_length_le _ _ _ _).trans (by omega)

theorem encodeSymbol_length_le (coder : LzmaEncoder) (data : Bytes) (back len : UInt32)
    (position : ℕ) : (coder.encodeSymbol data back len position).rc.symbols.length ≤
      coder.rc.symbols.length + 48 := by
  unfold encodeSymbol
  dsimp only
  split_ifs
  · rw [literal_length, RangeEncoder.rcBit_length]
    omega
  · refine (repMatch_length_le _ _ _ _).trans ?_
    rw [RangeEncoder.rcBit_length, RangeEncoder.rcBit_length]
    omega
  · refine (matched_length_le _ _ _ _).trans ?_
    rw [RangeEncoder.rcBit_length, RangeEncoder.rcBit_length]

theorem encodeEopm_length_le (coder : LzmaEncoder) (position : ℕ) :
    (coder.encodeEopm position).rc.symbols.length ≤ coder.rc.symbols.length + 48 := by
  refine (matched_length_le _ _ _ _).trans ?_
  rw [RangeEncoder.rcBit_length, RangeEncoder.rcBit_length]

theorem fits_of_length_le {rc : RangeEncoder Prob} (h : rc.symbols.length ≤ 48) :
    rc.rcFlush.Fits := by
  unfold RangeEncoder.Fits RangeEncoder.rcFlush
  rw [List.length_append, List.length_replicate]
  exact (Nat.add_le_add_right h 5).trans (by decide)

/-- From an empty queue on, the symbols of a call and of a flush behind it lie in the arrays. -/
theorem encodeSymbol_fits {coder : LzmaEncoder} (hempty : coder.rc.symbols = []) (data : Bytes)
    (back len : UInt32) (position : ℕ) :
    (coder.encodeSymbol data back len position).rc.rcFlush.Fits := by
  have hle := encodeSymbol_length_le coder data back len position
  rw [hempty] at hle
  exact fits_of_length_le hle

theorem encodeEopm_fits {coder : LzmaEncoder} (hempty : coder.rc.symbols = []) (position : ℕ) :
    (coder.encodeEopm position).rc.rcFlush.Fits := by
  have hle := encodeEopm_length_le coder position
  rw [hempty] at hle
  exact fits_of_length_le hle

end LzmaEncoder
end Lzma
