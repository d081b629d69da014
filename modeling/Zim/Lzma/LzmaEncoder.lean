import Zim.Lzma.LzmaCommon
import Zim.Lib.Streams

/-! The symbols of the LZMA encoder (lzma/lzma_encoder.c of liblzma): what it gives to the range
encoder for a literal, a match or a repeated match. Which of them it takes is decided elsewhere. -/
namespace Lzma
open Cxx

/-- `lzma_coder` of lzma_encoder_private.h without the tables of prices. -/
structure LzmaEncoder where
  rc : RangeEncoder Prob
  state : State
  rep0 : UInt32
  rep1 : UInt32
  rep2 : UInt32
  rep3 : UInt32
  posMask : UInt32
  literalContextBits : UInt32
  literalPosMask : UInt32
  deriving DecidableEq, Repr

namespace LzmaEncoder

/-- The loop of `literal_matched`, over the bits that are left. -/
def literalMatchedLoop (subcoder : ℕ) :
    ℕ → RangeEncoder Prob → UInt32 → UInt32 → UInt32 → RangeEncoder Prob
  | 0, rc, _, _, _ => rc
  | bits + 1, rc, offset, matchByte, symbol =>
    let matchByte := matchByte <<< 1
    let matchBit := matchByte &&& offset
    let subcoderIndex := offset + matchBit + symbol >>> 8
    let bit := (symbol >>> 7) &&& 1
    let rc := rc.rcBit (.literal subcoder subcoderIndex.toNat) (bit ≠ 0)
    let symbol := symbol <<< 1
    let offset := offset &&& ~~~(matchByte ^^^ symbol)
    literalMatchedLoop subcoder bits rc offset matchByte symbol

/-- `literal_matched`, whose loop ends when the eight bits were shifted out. -/
def literalMatched (rc : RangeEncoder Prob) (subcoder : ℕ) (matchByte symbol : UInt32) :
    RangeEncoder Prob :=
  literalMatchedLoop subcoder 8 rc 0x100 matchByte (symbol + (1 : UInt32) <<< 8)

/-- `literal`, for the byte at `position` of the data. The first byte, in front of which there is
none, is left to `encode_init` in the source. -/
def literal (coder : LzmaEncoder) (data : Bytes) (position : ℕ) : LzmaEncoder :=
  let byte (i : ℕ) := (data[i]?).getD 0
  let curByte := byte position
  let subcoder := literalSubcoder coder.literalContextBits.toNat coder.literalPosMask.toNat
    position (if position = 0 then 0 else byte (position - 1))
  let rc :=
    if coder.state.isLiteralState then
      coder.rc.rcBittree (fun i => .literal subcoder i) 8 curByte.toUInt32
    else
      literalMatched coder.rc subcoder (byte (position - coder.rep0.toNat - 1)).toUInt32
        curByte.toUInt32
  { coder with rc, state := coder.state.updateLiteral }

/-- `length`, without the update of the prices. -/
def length (rc : RangeEncoder Prob) (lc : LenCoder) (posState : ℕ) (len : UInt32) :
    RangeEncoder Prob :=
  let len := len - matchLenMin
  if len < lenLowSymbols then
    (rc.rcBit (.choice lc) false).rcBittree (fun i => .low lc posState i) 3 len
  else
    let rc := rc.rcBit (.choice lc) true
    let len := len - lenLowSymbols
    if len < lenMidSymbols then
      (rc.rcBit (.choice2 lc) false).rcBittree (fun i => .mid lc posState i) 3 len
    else
      (rc.rcBit (.choice2 lc) true).rcBittree (fun i => .high lc i) 8 (len - lenMidSymbols)

/-- What `match` writes for the distance. -/
def distance (rc : RangeEncoder Prob) (distance len : UInt32) : RangeEncoder Prob :=
  let posSlot := getPosSlot distance
  let lenToPosState := getLenToPosState len
  let rc := rc.rcBittree (fun i => .posSlot lenToPosState.toNat i) 6 posSlot
  if startPosModelIndex ≤ posSlot then
    let footerBits := posSlot >>> 1 - 1
    let base := (2 ||| (posSlot &&& 1)) <<< footerBits
    let posReduced := distance - base
    if posSlot < endPosModelIndex then
      rc.rcBittreeReverse
        (fun i => .posSpecial ((base.toNat : ℤ) - posSlot.toNat - 1 + i).toNat)
        footerBits.toNat posReduced
    else
      (rc.rcDirect (posReduced >>> alignBits) (footerBits - alignBits).toNat).rcBittreeReverse
        (fun i => .posAlign i) alignBits.toNat (posReduced &&& alignMask)
  else rc

/-- `match`. -/
def matched (coder : LzmaEncoder) (posState : ℕ) (distance len : UInt32) : LzmaEncoder :=
  let rc := length coder.rc .matchLen posState len
  { coder with
    state := coder.state.updateMatch
    rc := LzmaEncoder.distance rc distance len
    rep3 := coder.rep2
    rep2 := coder.rep1
    rep1 := coder.rep0
    rep0 := distance }

/-- The distance of `rep_match` and the distances behind it. -/
def repDistance (coder : LzmaEncoder) (posState : ℕ) (rep len : UInt32) : LzmaEncoder :=
  let state := coder.state
  if rep = 0 then
    let rc := coder.rc.rcBit (.isRep0 state) false
    { coder with rc := rc.rcBit (.isRep0Long state posState) (len ≠ 1) }
  else
    let rc := coder.rc.rcBit (.isRep0 state) true
    if rep = 1 then
      { coder with
        rc := rc.rcBit (.isRep1 state) false
        rep1 := coder.rep0
        rep0 := coder.rep1 }
    else
      let rc := (rc.rcBit (.isRep1 state) true).rcBit (.isRep2 state) (rep - 2 ≠ 0)
      if rep = 3 then
        { coder with
          rc
          rep3 := coder.rep2
          rep2 := coder.rep1
          rep1 := coder.rep0
          rep0 := coder.rep3 }
      else
        { coder with
          rc
          rep2 := coder.rep1
          rep1 := coder.rep0
          rep0 := coder.rep2 }

def repMatch (coder : LzmaEncoder) (posState : ℕ) (rep len : UInt32) : LzmaEncoder :=
  let coder := coder.repDistance posState rep len
  if len = 1 then { coder with state := coder.state.updateShortRep }
  else { coder with
    rc := length coder.rc .repLen posState len
    state := coder.state.updateLongRep }

def repDistances : UInt32 := 4

/-- `encode_symbol`, for the data from `position` on. -/
def encodeSymbol (coder : LzmaEncoder) (data : Bytes) (back len : UInt32) (position : ℕ) :
    LzmaEncoder :=
  let posState := position &&& coder.posMask.toNat
  let isMatch := Prob.isMatch coder.state posState
  if back = 0xFFFFFFFF then
    { coder with rc := coder.rc.rcBit isMatch false }.literal data position
  else
    let rc := coder.rc.rcBit isMatch true
    if back < repDistances then
      { coder with rc := rc.rcBit (.isRep coder.state) true }.repMatch posState back len
    else
      { coder with rc := rc.rcBit (.isRep coder.state) false }.matched posState
        (back - repDistances) len

/-- `encode_init`, where there are data. -/
def encodeInit (coder : LzmaEncoder) (data : Bytes) : LzmaEncoder :=
  { coder with
    rc := (coder.rc.rcBit (.isMatch .litLit 0) false).rcBittree (fun i => .literal 0 i) 8
      ((data[0]?).getD 0).toUInt32 }

/-- `encode_eopm`. -/
def encodeEopm (coder : LzmaEncoder) (position : ℕ) : LzmaEncoder :=
  let posState := position &&& coder.posMask.toNat
  let rc := (coder.rc.rcBit (.isMatch coder.state posState) true).rcBit (.isRep coder.state) false
  { coder with rc }.matched posState 0xFFFFFFFF matchLenMin

/-- `lzma_lzma_encoder_reset`. -/
def lzmaLzmaEncoderReset (options : Options) : LzmaEncoder :=
  { rc := .rcReset
    state := .litLit
    rep0 := 0
    rep1 := 0
    rep2 := 0
    rep3 := 0
    posMask := (1 : UInt32) <<< options.pb - 1
    literalContextBits := options.lc
    literalPosMask := (1 : UInt32) <<< options.lp - 1 }

end LzmaEncoder
end Lzma
