import Zim.Lib.Streams

/-! The range coder of LZMA (rangecoder/range_common.h, range_encoder.h and range_decoder.h of
liblzma). A pointer to a probability is an index of the memory in which it lies. -/
namespace Lzma
open Cxx

abbrev Probability := UInt16

def rcTopValue : UInt32 := (1 : UInt32) <<< 24
def rcBitModelTotalBits : UInt32 := 11
def rcBitModelTotal : UInt32 := (1 : UInt32) <<< rcBitModelTotalBits

/-- `bit_reset`. -/
def bitReset : Probability := (rcBitModelTotal >>> 1).toUInt16

/-- What becomes of the probability of a bit that was 0. -/
def rcUpdate0 (prob : Probability) : Probability :=
  prob + ((rcBitModelTotal - prob.toUInt32) >>> 5).toUInt16

/-- What becomes of the probability of a bit that was 1. -/
def rcUpdate1 (prob : Probability) : Probability := prob - prob >>> 5

/-- The part of `range` that a bit 0 takes. -/
def rcBound (range : UInt32) (prob : Probability) : UInt32 :=
  (range >>> rcBitModelTotalBits) * prob.toUInt32

/-- `RC_BIT_0` and `RC_BIT_1` with their probability, `RC_DIRECT_0`, `RC_DIRECT_1`, `RC_FLUSH`. -/
inductive Symbol (ι : Type) where
  | bit (prob : ι) (bit : Bool)
  | direct (bit : Bool)
  | flush
  deriving DecidableEq, Repr

/-- `RC_SYMBOLS_MAX`, the length of the arrays `symbols` and `probs`. -/
def rcSymbolsMax : ℕ := 58

/-- `lzma_range_encoder`. Of `symbols` and `probs` the first `count` entries are kept, which lie in
the arrays where `Fits` holds. -/
structure RangeEncoder (ι : Type) where
  low : UInt64
  cacheSize : UInt64
  range : UInt32
  cache : UInt8
  symbols : List (Symbol ι)
  pos : ℕ
  deriving DecidableEq, Repr

namespace RangeEncoder
variable {ι : Type}

def rcReset : RangeEncoder ι := ⟨0, 1, 0xFFFFFFFF, 0, [], 0⟩

/-- `count <= RC_SYMBOLS_MAX`. -/
def Fits (rc : RangeEncoder ι) : Prop := rc.symbols.length ≤ rcSymbolsMax

instance (rc : RangeEncoder ι) : Decidable rc.Fits :=
  inferInstanceAs (Decidable (rc.symbols.length ≤ rcSymbolsMax))

def rcBit (rc : RangeEncoder ι) (prob : ι) (bit : Bool) : RangeEncoder ι :=
  { rc with symbols := rc.symbols ++ [.bit prob bit] }

/-- The bits of `symbol` from bit `bitCount - 1` down. -/
def rcBittree (rc : RangeEncoder ι) (probs : ℕ → ι) (bitCount : ℕ) (symbol : UInt32) :
    RangeEncoder ι :=
  go rc 1 bitCount
where
  go (rc : RangeEncoder ι) (modelIndex : ℕ) : ℕ → RangeEncoder ι
    | 0 => rc
    | bitCount + 1 =>
      let bit := symbol.toNat.testBit bitCount
      go (rc.rcBit (probs modelIndex) bit) (2 * modelIndex + bit.toNat) bitCount

/-- The bits of `symbol` from bit 0 up. -/
def rcBittreeReverse (rc : RangeEncoder ι) (probs : ℕ → ι) (bitCount : ℕ) (symbol : UInt32) :
    RangeEncoder ι :=
  go rc 1 symbol.toNat bitCount
where
  go (rc : RangeEncoder ι) (modelIndex symbol : ℕ) : ℕ → RangeEncoder ι
    | 0 => rc
    | bitCount + 1 =>
      let bit := symbol.testBit 0
      go (rc.rcBit (probs modelIndex) bit) (2 * modelIndex + bit.toNat) (symbol / 2) bitCount

def rcDirect (rc : RangeEncoder ι) (value : UInt32) : ℕ → RangeEncoder ι
  | 0 => rc
  | bitCount + 1 =>
    rcDirect { rc with symbols := rc.symbols ++ [.direct (value.toNat.testBit bitCount)] } value
      bitCount

def rcFlush (rc : RangeEncoder ι) : RangeEncoder ι :=
  { rc with symbols := rc.symbols ++ List.replicate 5 .flush }

/-- What the loop of `rc_shift_low` leaves. -/
structure Emitted where
  /-- `*out_pos == out_size`. -/
  full : Bool
  cache : UInt8
  cacheSize : UInt64
  out : Bytes

/-- The loop of `rc_shift_low` over its turns, of which `cache_size` counts those that are left. -/
def emitLoop (high : UInt8) : ℕ → UInt8 → ℕ → Emitted
  | 0, cache, _ => ⟨false, cache, 0, []⟩
  | turns + 1, cache, 0 => ⟨true, cache, UInt64.ofNat (turns + 1), []⟩
  | turns + 1, cache, room + 1 =>
    let e := emitLoop high turns 0xFF room
    { e with out := (cache + high) :: e.out }

/-- Returns whether the output, with room for `room` bytes, became full, and what was written. -/
def rcShiftLow (rc : RangeEncoder ι) (room : ℕ) : Bool × RangeEncoder ι × Bytes :=
  let next := (rc.low &&& 0x00FFFFFF) <<< 8
  if rc.low.toUInt32 < 0xFF000000 || (rc.low >>> 32).toUInt32 ≠ 0 then
    -- `cache_size` is decremented before it is compared with 0.
    let e := emitLoop (rc.low >>> 32).toUInt8 ((rc.cacheSize - 1).toNat + 1) rc.cache room
    if e.full then (true, { rc with cache := e.cache, cacheSize := e.cacheSize }, e.out)
    else (false, { rc with
      low := next
      cacheSize := e.cacheSize + 1
      cache := (rc.low >>> 24).toUInt8 }, e.out)
  else (false, { rc with low := next, cacheSize := rc.cacheSize + 1 }, [])

/-- What a call of `rc_encode` leaves; `full` is what it returns. -/
structure Encoded (ι : Type) where
  full : Bool
  rc : RangeEncoder ι
  probs : ι → Probability
  out : Bytes

/-- The normalization in front of a symbol. -/
def rcNormalize (rc : RangeEncoder ι) (room : ℕ) : Bool × RangeEncoder ι × Bytes :=
  if rc.range < rcTopValue then
    let r := rc.rcShiftLow room
    if r.1 then r else (false, { r.2.1 with range := r.2.1.range <<< 8 }, r.2.2)
  else (false, rc, [])

/-- The case `RC_FLUSH`, which goes over all symbols that are left. -/
def rcFlushLoop (rc : RangeEncoder ι) (probs : ι → Probability) (room : ℕ) :
    List (Symbol ι) → Encoded ι
  | [] => ⟨false, rcReset, probs, []⟩
  | _ :: symbols =>
    let r := rc.rcShiftLow room
    if r.1 then ⟨true, r.2.1, probs, r.2.2⟩
    else
      let e := rcFlushLoop { r.2.1 with pos := r.2.1.pos + 1 } probs (room - r.2.2.length) symbols
      { e with out := r.2.2 ++ e.out }

/-- A bit of the encoder, behind the normalization. -/
def rcNarrow (rc : RangeEncoder ι) (probs : ι → Probability) : Symbol ι → RangeEncoder ι
  | .bit prob false => { rc with range := rcBound rc.range (probs prob) }
  | .bit prob true => { rc with
      low := rc.low + (rcBound rc.range (probs prob)).toUInt64
      range := rc.range - rcBound rc.range (probs prob) }
  | .direct false => { rc with range := rc.range >>> 1 }
  | .direct true => { rc with
      low := rc.low + (rc.range >>> 1).toUInt64
      range := rc.range >>> 1 }
  | .flush => rc

/-- The probabilities behind a symbol. -/
def rcUpdate [DecidableEq ι] (probs : ι → Probability) (symbol : Symbol ι) : ι → Probability :=
  match symbol with
  | .bit prob false =>
    let updated := rcUpdate0 (probs prob)
    fun i => if i = prob then updated else probs i
  | .bit prob true =>
    let updated := rcUpdate1 (probs prob)
    fun i => if i = prob then updated else probs i
  | _ => probs

variable [DecidableEq ι]

/-- `rc_encode` over the symbols from `pos` on. -/
def rcEncodeLoop (rc : RangeEncoder ι) (probs : ι → Probability) (room : ℕ) :
    List (Symbol ι) → Encoded ι
  | [] => ⟨false, { rc with symbols := [], pos := 0 }, probs, []⟩
  | symbol :: symbols =>
    let r := rc.rcNormalize room
    if r.1 then ⟨true, r.2.1, probs, r.2.2⟩
    else
      let room := room - r.2.2.length
      let e := if symbol = .flush then
          rcFlushLoop { r.2.1 with range := 0xFFFFFFFF } probs room (symbol :: symbols)
        else
          rcEncodeLoop { r.2.1.rcNarrow probs symbol with pos := r.2.1.pos + 1 }
            (rcUpdate probs symbol) room symbols
      { e with out := r.2.2 ++ e.out }

/-- `rc_encode`, which asserts `Fits`. -/
def rcEncode (rc : RangeEncoder ι) (probs : ι → Probability) (room : ℕ) : Encoded ι :=
  rcEncodeLoop rc probs room (rc.symbols.drop rc.pos)

end RangeEncoder

/-- `lzma_range_decoder`. -/
structure RangeDecoder where
  range : UInt32
  code : UInt32
  initBytesLeft : UInt32
  deriving DecidableEq, Repr

namespace RangeDecoder

def rcReset : RangeDecoder := ⟨0xFFFFFFFF, 0, 5⟩

/-- Returns whether all of the first five bytes were there, and the input that is left. -/
def rcReadInit (rc : RangeDecoder) : Bytes → Bool × RangeDecoder × Bytes
  | [] => (rc.initBytesLeft = 0, rc, [])
  | b :: input =>
    if rc.initBytesLeft = 0 then (true, rc, b :: input)
    else rcReadInit ⟨rc.range, rc.code <<< 8 ||| b.toUInt32, rc.initBytesLeft - 1⟩ input

def rcIsFinished (rc : RangeDecoder) : Bool := rc.code = 0

/-- Nothing where the macro jumps to `out` for lack of input. -/
def rcNormalize (rc : RangeDecoder) (input : Bytes) : Option (RangeDecoder × Bytes) :=
  if rc.range < rcTopValue then
    match input with
    | [] => none
    | b :: input =>
      some ({ rc with range := rc.range <<< 8, code := rc.code <<< 8 ||| b.toUInt32 }, input)
  else some (rc, input)

/-- `rc_if_0` with `rc_update_0` or `rc_update_1`: the bit, the decoder and the new probability. -/
def rcBit (rc : RangeDecoder) (prob : Probability) (input : Bytes) :
    Option (Bool × RangeDecoder × Probability × Bytes) :=
  (rc.rcNormalize input).map fun (rc, input) =>
    let bound := rcBound rc.range prob
    if rc.code < bound then (false, { rc with range := bound }, rcUpdate0 prob, input)
    else (true, { rc with range := rc.range - bound, code := rc.code - bound }, rcUpdate1 prob,
      input)

/-- `rc_direct`: the bit that is shifted into the destination is `rc_bound + 1`. -/
def rcDirect (rc : RangeDecoder) (input : Bytes) : Option (Bool × RangeDecoder × Bytes) :=
  (rc.rcNormalize input).map fun (rc, input) =>
    let range := rc.range >>> 1
    let code := rc.code - range
    let bound := (0 : UInt32) - code >>> 31
    (bound + 1 ≠ 0, { rc with range := range, code := code + (range &&& bound) }, input)

end RangeDecoder

end Lzma
